/-
  Scriptling.Proofs.Expr.Nodes — the nodes of a tree.

  - `Expr.children` are the trees right below the root, and they are less high than the whole
    (`height_lt_of_mem_children`).
  - `Expr.OccursIn`: a node of a tree. The nodes can be listed (`Expr.mem_nodes_iff`), so what is
    said of all of them can be decided.
-/

import Scriptling.Expr

namespace Scriptling

/-! ## The nodes below a node -/

def Expr.children : Expr → List Expr
  | .int _ | .bool _ | .var _ => []
  | .array items => items
  | .binary _ left right => [left, right]
  | .assign _ value => [value]
  | .block lines => lines
  | .ifThen condition body => [condition, body]
  | .ifElse condition body orElse => [condition, body, orElse]
  | .whileDo condition body => [condition, body]
  | .call _ arguments => arguments
  | .labelledCall _ arguments => arguments.map Prod.snd
  | .println argument => [argument]

theorem height_le_heightAll {c : Expr} {es : List Expr} (h : c ∈ es) : c.height ≤ heightAll es := by
  induction es with
  | nil => cases h
  | cons e es ih =>
    rw [heightAll]
    rcases List.mem_cons.mp h with rfl | h
    · exact Nat.le_max_left ..
    · exact Nat.le_trans (ih h) (Nat.le_max_right ..)

theorem heightLabelled_eq (arguments : List (String × Expr)) :
    heightLabelled arguments = heightAll (arguments.map Prod.snd) := by
  induction arguments with
  | nil => rfl
  | cons argument arguments ih => rw [heightLabelled, ih]; rfl

/-- A tree right below the root is less high. -/
theorem Expr.height_lt_of_mem_children {c e : Expr} (h : c ∈ e.children) : c.height < e.height := by
  cases e with
  | int _ | bool _ | var _ => cases h
  | array items | block items | call _ items =>
    rw [height]
    exact Nat.lt_succ_of_le (height_le_heightAll h)
  | labelledCall _ arguments =>
    rw [height, heightLabelled_eq]
    exact Nat.lt_succ_of_le (height_le_heightAll h)
  | assign _ _ | println _ =>
    rw [children, List.mem_singleton] at h
    subst h
    exact Nat.lt_succ_self _
  | binary _ _ _ | ifThen _ _ | whileDo _ _ =>
    simp only [children, List.mem_cons, List.not_mem_nil, or_false] at h
    rw [height]
    rcases h with rfl | rfl <;> omega
  | ifElse _ _ _ =>
    simp only [children, List.mem_cons, List.not_mem_nil, or_false] at h
    rw [height]
    rcases h with rfl | rfl | rfl <;> omega

/-! ## All nodes -/

/-- A node of a tree: its root, or a node of a tree right below the root. -/
inductive Expr.OccursIn : Expr → Expr → Prop
  | root (e : Expr) : OccursIn e e
  | child {node c e : Expr} : c ∈ e.children → OccursIn node c → OccursIn node e

mutual

def Expr.nodes : Expr → List Expr
  | .int n => [.int n]
  | .bool b => [.bool b]
  | .var x => [.var x]
  | .array items => .array items :: nodesAll items
  | .binary op left right => .binary op left right :: (left.nodes ++ right.nodes)
  | .assign x value => .assign x value :: value.nodes
  | .block lines => .block lines :: nodesAll lines
  | .ifThen condition body => .ifThen condition body :: (condition.nodes ++ body.nodes)
  | .ifElse condition body orElse =>
    .ifElse condition body orElse :: (condition.nodes ++ (body.nodes ++ orElse.nodes))
  | .whileDo condition body => .whileDo condition body :: (condition.nodes ++ body.nodes)
  | .call f arguments => .call f arguments :: nodesAll arguments
  | .labelledCall f arguments => .labelledCall f arguments :: nodesLabelled arguments
  | .println argument => .println argument :: argument.nodes

def nodesAll : List Expr → List Expr
  | [] => []
  | e :: es => e.nodes ++ nodesAll es

def nodesLabelled : List (String × Expr) → List Expr
  | [] => []
  | (_, e) :: es => e.nodes ++ nodesLabelled es

end

theorem mem_nodesAll_iff {node : Expr} {es : List Expr} : node ∈ nodesAll es ↔ ∃ c ∈ es, node ∈ c.nodes := by
  induction es with
  | nil => simp [nodesAll]
  | cons e es ih => simp [nodesAll, ih]

theorem nodesLabelled_eq (arguments : List (String × Expr)) :
    nodesLabelled arguments = nodesAll (arguments.map Prod.snd) := by
  induction arguments with
  | nil => rfl
  | cons argument arguments ih => rw [nodesLabelled, ih]; rfl

/-- The nodes of a tree are its root and those of the trees right below. -/
theorem Expr.mem_nodes_cases {node e : Expr} :
    node ∈ e.nodes ↔ node = e ∨ ∃ c ∈ e.children, node ∈ c.nodes := by
  cases e <;> simp [nodes, children, nodesLabelled_eq, mem_nodesAll_iff]

theorem Expr.mem_nodes_iff {node e : Expr} : node ∈ e.nodes ↔ node.OccursIn e := by
  constructor
  · intro h
    -- The trees below the root are less high.
    induction hn : e.height using Nat.strongRecOn generalizing e with
    | ind n ih =>
      rcases mem_nodes_cases.mp h with rfl | ⟨c, hc, hnode⟩
      · exact .root _
      · exact .child hc (ih c.height (hn ▸ height_lt_of_mem_children hc) hnode rfl)
  · intro h
    induction h with
    | root => exact mem_nodes_cases.mpr (.inl rfl)
    | child hc _ ih => exact mem_nodes_cases.mpr (.inr ⟨_, hc, ih⟩)

instance Expr.decidableForallNodes {P : Expr → Prop} [DecidablePred P] (e : Expr) :
    Decidable (∀ node, node.OccursIn e → P node) :=
  decidable_of_iff (∀ node ∈ e.nodes, P node)
    ⟨fun h node hnode => h node (Expr.mem_nodes_iff.mpr hnode),
      fun h node hnode => h node (Expr.mem_nodes_iff.mp hnode)⟩

end Scriptling
