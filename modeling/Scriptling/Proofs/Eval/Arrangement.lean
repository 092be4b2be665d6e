/-
  Scriptling.Proofs.Eval.Arrangement — which labelled arguments a function takes.

  The labels of a call are its parameters, each given once (`Function.TakesLabels`), or there is a first
  thing wrong with them (`Function.RefusesLabels`). In the first case the arguments are arranged as the
  parameters are (`Function.Places`).
  - `Function.takes_or_refuses`: there is no third case.
  - `Function.arrange_eq_ok_iff`, `Function.RefusesLabels.arrange`: which calls pass and what they evaluate
    in which order, and at which label the others fail.
-/

import Scriptling.Proofs.Eval.Node

namespace Scriptling

/-! ## What is taken, and what is wrong -/

def LabelFault.Holds (params labels : List String) : LabelFault → Prop
  | unknown x => x ∈ labels ∧ x ∉ params
  | repeated x => 1 < labels.count x
  | missing x => x ∈ params ∧ x ∉ labels

namespace Function

/-- The labels are the parameters of the function, each given once. -/
def TakesLabels (f : Function) (labels : List String) : Prop :=
  labels.Nodup ∧ (∀ x ∈ labels, x ∈ f.params) ∧ ∀ x ∈ f.params, x ∈ labels

instance decidableTakesLabels (f : Function) (labels : List String) : Decidable (f.TakesLabels labels) :=
  inferInstanceAs (Decidable (_ ∧ _))

/-- For each parameter in turn, the expression with that label. -/
def Places (f : Function) (arguments : List (String × Expr)) (es : List Expr) : Prop :=
  es.length = f.params.length ∧ ∀ pair ∈ f.params.zip es, pair ∈ arguments

/-- The first label that is no parameter or has been given before, or else the first parameter that is
    not given. -/
inductive RefusesLabels (f : Function) : List String → LabelFault → Prop
  | unknown {given rest : List String} {x : String} : given.Nodup → (∀ y ∈ given, y ∈ f.params) →
      x ∉ f.params → RefusesLabels f (given ++ x :: rest) (.unknown x)
  | repeated {given rest : List String} {x : String} : given.Nodup → (∀ y ∈ given, y ∈ f.params) →
      x ∈ given → RefusesLabels f (given ++ x :: rest) (.repeated x)
  | missing {given front back : List String} {x : String} : given.Nodup → (∀ y ∈ given, y ∈ f.params) →
      f.params = front ++ x :: back → (∀ y ∈ front, y ∈ given) → x ∉ given →
      RefusesLabels f given (.missing x)

theorem RefusesLabels.holds {f : Function} {labels : List String} {fault : LabelFault}
    (h : f.RefusesLabels labels fault) : fault.Holds f.params labels := by
  cases h with
  | unknown _ _ hx => exact ⟨by simp, hx⟩
  | @repeated given rest x _ _ hx =>
    have hcount : 0 < given.count x := List.count_pos_iff.mpr hx
    rw [LabelFault.Holds, List.count_append, List.count_cons_self]
    omega
  | missing _ _ hparams _ hx => exact ⟨by simp [hparams], hx⟩

theorem RefusesLabels.not_takes {f : Function} {labels : List String} {fault : LabelFault}
    (h : f.RefusesLabels labels fault) : ¬ f.TakesLabels labels := by
  rintro ⟨hnodup, hparams, hall⟩
  cases h with
  | unknown _ _ hx => exact hx (hparams _ (by simp))
  | repeated _ _ hx => exact (List.nodup_append.mp hnodup).2.2 _ hx _ (List.mem_cons_self ..) rfl
  | missing _ _ heq _ hx => exact hx (hall _ (by simp [heq]))

/-- Labels are taken, or there is a first thing wrong with them. -/
theorem takes_or_refuses (f : Function) (labels : List String) :
    f.TakesLabels labels ∨ ∃ fault, f.RefusesLabels labels fault := by
  -- The labels are read one after another, until one is wrong or none is left.
  have read (rest given : List String) (hnodup : given.Nodup) (hparams : ∀ y ∈ given, y ∈ f.params) :
      ((given ++ rest).Nodup ∧ ∀ y ∈ given ++ rest, y ∈ f.params) ∨
        ∃ fault, f.RefusesLabels (given ++ rest) fault := by
    induction rest generalizing given with
    | nil => exact .inl ⟨by simpa using hnodup, by simpa using hparams⟩
    | cons x rest ih =>
      by_cases hx : x ∈ f.params
      · by_cases hgiven : x ∈ given
        · exact .inr ⟨_, .repeated hnodup hparams hgiven⟩
        · rw [List.append_cons]
          refine ih (given ++ [x]) (List.nodup_append.mpr ⟨hnodup, by simp, ?_⟩) fun y hy => ?_
          · rintro y hy _ hmem rfl
            exact hgiven (List.mem_singleton.mp hmem ▸ hy)
          · rcases List.mem_append.mp hy with hy | hy
            · exact hparams y hy
            · rwa [List.mem_singleton.mp hy]
      · exact .inr ⟨_, .unknown hnodup hparams hx⟩
  rcases read labels [] List.nodup_nil (by simp) with ⟨hnodup, hparams⟩ | hrefuses
  · cases hfind : f.params.find? fun x => decide (x ∉ labels) with
    | none => exact .inl ⟨hnodup, hparams, fun x hx => by simpa using List.find?_eq_none.mp hfind x hx⟩
    | some x =>
      obtain ⟨hx, front, back, heq, hfront⟩ := List.find?_eq_some_iff_append.mp hfind
      exact .inr ⟨_, .missing hnodup hparams heq (fun y hy => by simpa using hfront y hy) (by simpa using hx)⟩
  · exact .inr hrefuses

/-! ## Checking the labels -/

section Check

variable {params seen : List String}

/-- Labels that are parameters, each given once, are passed over. -/
theorem checkLabels_append {given rest : List (String × Expr)} (hnodup : (given.map Prod.fst).Nodup)
    (hparams : ∀ x ∈ given.map Prod.fst, x ∈ params) (hseen : ∀ x ∈ given.map Prod.fst, x ∉ seen) :
    checkLabels params seen (given ++ rest) = checkLabels params ((given.map Prod.fst).reverse ++ seen) rest := by
  induction given generalizing seen with
  | nil => rfl
  | cons argument given ih =>
    obtain ⟨label, e⟩ := argument
    rw [List.map_cons, List.nodup_cons] at hnodup
    have hlabel : label ∈ params := hparams label (List.mem_cons_self ..)
    have hnew : label ∉ seen := hseen label (List.mem_cons_self ..)
    rw [List.cons_append, checkLabels, if_neg (not_not_intro hlabel), if_neg hnew, List.map_cons, List.reverse_cons,
      List.append_assoc]
    refine ih hnodup.2 (fun x hx => hparams x (List.mem_cons_of_mem _ hx)) fun x hx hmem => ?_
    rcases List.mem_cons.mp hmem with rfl | hmem
    · exact hnodup.1 hx
    · exact hseen x (List.mem_cons_of_mem _ hx) hmem

theorem checkLabels_eq_ok {arguments : List (String × Expr)} (hnodup : (arguments.map Prod.fst).Nodup)
    (hparams : ∀ x ∈ arguments.map Prod.fst, x ∈ params) : checkLabels params [] arguments = .ok () := by
  rw [← List.append_nil arguments]
  exact checkLabels_append hnodup hparams fun _ _ => List.not_mem_nil

end Check

/-! ## Finding the arguments -/

/-- Where no label comes twice, an argument is found by its label. -/
theorem lookup_eq_of_mem {arguments : List (String × Expr)} (hnodup : (arguments.map Prod.fst).Nodup) {x : String}
    {e : Expr} (h : (x, e) ∈ arguments) : arguments.lookup x = some e := by
  induction arguments with
  | nil => cases h
  | cons argument rest ih =>
    obtain ⟨y, e'⟩ := argument
    rw [List.map_cons, List.nodup_cons] at hnodup
    rcases List.mem_cons.mp h with heq | hmem
    · cases heq
      exact List.lookup_cons_self
    · have hne : x ≠ y := by
        rintro rfl
        exact hnodup.1 (List.mem_map.mpr ⟨(x, e), hmem, rfl⟩)
      rw [List.lookup_cons, beq_false_of_ne hne]
      exact ih hnodup.2 hmem

section Find

variable {arguments : List (String × Expr)}

theorem argumentFor_eq_ok {param : String} (h : param ∈ arguments.map Prod.fst) :
    ∃ e, argumentFor arguments param = .ok e := by
  unfold argumentFor
  cases hlookup : arguments.lookup param with
  | some e => exact ⟨e, rfl⟩
  | none =>
    obtain ⟨argument, hmem, rfl⟩ := List.mem_map.mp h
    simpa using List.lookup_eq_none_iff.mp hlookup argument hmem

theorem argumentFor_eq_error {param : String} (h : param ∉ arguments.map Prod.fst) :
    argumentFor arguments param = .error (.missing param) := by
  have hnone : arguments.lookup param = none := by
    refine List.lookup_eq_none_iff.mpr fun argument hargument => ?_
    exact bne_iff_ne.mpr fun heq => h (List.mem_map.mpr ⟨argument, hargument, heq.symm⟩)
  rw [argumentFor, hnone]

theorem mapM_argumentFor_eq_ok {params : List String} (h : ∀ x ∈ params, x ∈ arguments.map Prod.fst) :
    ∃ es, params.mapM (argumentFor arguments) = .ok es := by
  induction params with
  | nil => exact ⟨[], rfl⟩
  | cons param params ih =>
    obtain ⟨e, he⟩ := argumentFor_eq_ok (h param (List.mem_cons_self ..))
    obtain ⟨es, hes⟩ := ih fun x hx => h x (List.mem_cons_of_mem _ hx)
    refine ⟨e :: es, ?_⟩
    rw [List.mapM_cons, he, hes]
    rfl

theorem mapM_argumentFor_eq_error {front : List String} {x : String}
    (hfront : ∀ y ∈ front, y ∈ arguments.map Prod.fst) (hx : x ∉ arguments.map Prod.fst) (back : List String) :
    (front ++ x :: back).mapM (argumentFor arguments) = .error (.missing x) := by
  induction front with
  | nil =>
    rw [List.nil_append, List.mapM_cons, argumentFor_eq_error hx]
    rfl
  | cons param front ih =>
    obtain ⟨e, he⟩ := argumentFor_eq_ok (hfront param (List.mem_cons_self ..))
    rw [List.cons_append, List.mapM_cons, he, ih fun y hy => hfront y (List.mem_cons_of_mem _ hy)]
    rfl

end Find

/-! ## Arranging -/

variable {f : Function} {arguments : List (String × Expr)}

/-- Arguments whose labels are those of the parameters can be arranged. -/
theorem TakesLabels.arrange (h : f.TakesLabels (arguments.map Prod.fst)) :
    ∃ arranged, f.arrange arguments = .ok arranged := by
  obtain ⟨hnodup, hparams, hall⟩ := h
  obtain ⟨arranged, harranged⟩ := mapM_argumentFor_eq_ok hall
  refine ⟨arranged, ?_⟩
  rw [Function.arrange, checkLabels_eq_ok hnodup hparams]
  exact harranged

theorem places_iff {es : List Expr} (hnodup : (arguments.map Prod.fst).Nodup) :
    f.Places arguments es ↔ f.params.map (arguments.lookup ·) = es.map some := by
  unfold Places
  generalize f.params = params
  induction params generalizing es with
  | nil => cases es <;> simp
  | cons param params ih =>
    cases es with
    | nil => simp
    | cons e es =>
      have hfirst : (param, e) ∈ arguments ↔ arguments.lookup param = some e :=
        ⟨lookup_eq_of_mem hnodup, mem_of_lookup⟩
      simp only [List.length_cons, Nat.add_right_cancel_iff, List.zip_cons_cons, List.forall_mem_cons, List.map_cons,
        List.cons.injEq, ← ih, hfirst]
      exact and_left_comm

theorem RefusesLabels.arrange {fault : LabelFault} (h : f.RefusesLabels (arguments.map Prod.fst) fault) :
    f.arrange arguments = .error fault := by
  generalize hlabels : arguments.map Prod.fst = labels at h
  -- The check passes over the labels before the one that is wrong.
  cases h with
  | unknown hnodup hparams hx =>
    obtain ⟨front, _, rfl, rfl, hback⟩ := List.map_eq_append_iff.mp hlabels
    obtain ⟨⟨_, e⟩, back, rfl, rfl, -⟩ := List.map_eq_cons_iff.mp hback
    rw [Function.arrange, checkLabels_append hnodup hparams fun _ _ => List.not_mem_nil, checkLabels, if_pos hx]
    rfl
  | repeated hnodup hparams hx =>
    obtain ⟨front, _, rfl, rfl, hback⟩ := List.map_eq_append_iff.mp hlabels
    obtain ⟨⟨_, e⟩, back, rfl, rfl, -⟩ := List.map_eq_cons_iff.mp hback
    rw [Function.arrange, checkLabels_append hnodup hparams fun _ _ => List.not_mem_nil, checkLabels,
      if_neg (not_not_intro (hparams _ hx)), if_pos (by simpa using hx)]
    rfl
  | missing hnodup hparams heq hfront hx =>
    subst hlabels
    rw [Function.arrange, checkLabels_eq_ok hnodup hparams, heq]
    exact mapM_argumentFor_eq_error hfront hx _

/-- A call passes with its arguments in a certain order exactly if its labels are the parameters, each given once, and
    the order is that of the parameters. -/
theorem arrange_eq_ok_iff {es : List Expr} :
    f.arrange arguments = .ok es ↔ f.TakesLabels (arguments.map Prod.fst) ∧ f.Places arguments es := by
  rcases f.takes_or_refuses (arguments.map Prod.fst) with htakes | ⟨fault, hrefuses⟩
  · obtain ⟨arranged, harranged⟩ := htakes.arrange
    have hplaces : f.Places arguments es ↔ arranged.map some = es.map some := by
      rw [places_iff htakes.1, map_lookup_of_arrange harranged]
    rw [harranged, Except.ok.injEq, hplaces, List.map_inj_right fun _ _ => Option.some.inj]
    exact (and_iff_right htakes).symm
  · rw [hrefuses.arrange]
    exact iff_of_false (fun h => by cases h) fun h => hrefuses.not_takes h.1

theorem TakesLabels.exists_places (h : f.TakesLabels (arguments.map Prod.fst)) : ∃ es, f.Places arguments es := by
  obtain ⟨arranged, harranged⟩ := h.arrange
  exact ⟨arranged, (arrange_eq_ok_iff.mp harranged).2⟩

end Function

end Scriptling
