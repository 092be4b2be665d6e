/-
  Scriptling.Grammar.Rule — reading lexemes by rules.

  A rule reads lexemes from the front of a list. It succeeds with a value, or fails with an
  error; either way it says which lexemes are left. Rules are put together with `do`, with
  ordered choice (`Rule.choice`), and with the repetitions `Rule.chain`, `Rule.separated`,
  `Rule.enclosed` and `Rule.untilEnd`.

  A repetition is given a bound on the number of lexemes left. Each round takes at least one
  lexeme, so a bound of zero means that nothing is left, and the repetition then does what it
  does at the end of the text.
-/

import Scriptling.Expr
import Scriptling.Lexeme

namespace Scriptling

inductive Reply (α : Type) where
  | ok (value : α) (rest : List Lexeme)
  | fail (error : SyntaxError) (rest : List Lexeme)

/-- A rule reads lexemes of a text that ends at the given place. -/
def Rule (α : Type) : Type := Position → List Lexeme → Reply α

namespace Rule

variable {α β : Type}

instance : Monad Rule where
  pure a := fun _ rest => .ok a rest
  bind rule f := fun stop rest =>
    match rule stop rest with
    | .ok a rest => f a stop rest
    | .fail e rest => .fail e rest

@[simp] theorem pure_apply (a : α) (stop : Position) (rest : List Lexeme) :
    (pure a : Rule α) stop rest = .ok a rest := rfl

@[simp] theorem bind_apply (rule : Rule α) (f : α → Rule β) (stop : Position) (rest : List Lexeme) :
    (rule >>= f) stop rest =
      match rule stop rest with
      | .ok a rest => f a stop rest
      | .fail e rest => .fail e rest := rfl

/-! ## Single lexemes -/

def mismatch (expected : String) (stop : Position) : List Lexeme → SyntaxError
  | [] => ⟨.endOfInput expected, stop⟩
  | lexeme :: _ => ⟨.unexpected expected lexeme.token.describe, lexeme.position⟩

def refuse (expected : String) : Rule α := fun stop rest => .fail (mismatch expected stop rest) rest

def peek : Rule (Option Token) := fun _ rest => .ok (rest.head?.map Lexeme.token) rest

def advance : Rule (Option Token) := fun _ rest => .ok (rest.head?.map Lexeme.token) rest.tail

def atEnd : Rule Bool := fun _ rest => .ok rest.isEmpty rest

def eat (token : Token) : Rule Bool := fun _ rest =>
  match rest with
  | lexeme :: after => if lexeme.token = token then .ok true after else .ok false rest
  | [] => .ok false rest

def expect (token : Token) : Rule Unit := do
  unless ← eat token do refuse token.describe

@[simp] theorem refuse_apply (expected : String) (stop : Position) (rest : List Lexeme) :
    (refuse expected : Rule α) stop rest = .fail (mismatch expected stop rest) rest := rfl

@[simp] theorem eat_nil (token : Token) (stop : Position) : eat token stop [] = .ok false [] := rfl

theorem eat_cons (token : Token) (stop : Position) (lexeme : Lexeme) (after : List Lexeme) :
    eat token stop (lexeme :: after) =
      if lexeme.token = token then .ok true after else .ok false (lexeme :: after) := rfl

@[simp] theorem expect_nil (token : Token) (stop : Position) :
    expect token stop [] = .fail (mismatch token.describe stop []) [] := rfl

theorem expect_cons (token : Token) (stop : Position) (lexeme : Lexeme) (after : List Lexeme) :
    expect token stop (lexeme :: after) =
      if lexeme.token = token then .ok () after
      else .fail (mismatch token.describe stop (lexeme :: after)) (lexeme :: after) := by
  simp only [expect, bind_apply, eat_cons]
  by_cases h : lexeme.token = token <;> simp [h]

def expectEnd : Rule Unit := do
  unless ← atEnd do refuse "end of input"

/-! ## Choice -/

/-- The answer of the first of `rules` that succeeds. If none does, nothing is taken and the
    error is the first of those that are furthest on, `best` being the one before all. -/
def firstOf (best : SyntaxError) : List (Rule α) → Rule α
  | [], _, rest => .fail best rest
  | rule :: rules, stop, rest =>
    match rule stop rest with
    | .ok a after => .ok a after
    | .fail e _ => firstOf (if best.position < e.position then e else best) rules stop rest

/-- Ordered choice: the answer of the first of `rules` that succeeds. If none does, nothing is
    taken, and the error is that of the rule that came furthest, or, if none came further than
    its first lexeme, the error that what is `expected` is missing here. -/
def choice (expected : String) (rules : List (Rule α)) : Rule α := fun stop rest =>
  firstOf (mismatch expected stop rest) rules stop rest

/-! ## Repetition -/

/-- Reads on after the operand `left`: as long as an operator that is `accepted` follows, takes
    it and one more operand. Chains group to the left. -/
def chainFrom (accepted : Operator → Bool) (operand : Rule Expr) : Nat → Expr → Rule Expr
  | 0, left => pure left
  | n + 1, left => do
    match (← peek).bind Token.operator? with
    | none => pure left
    | some op =>
      if accepted op then
        let _ ← advance
        let right ← operand
        chainFrom accepted operand n (.binary op left right)
      else pure left

def chain (accepted : Operator → Bool) (operand : Rule Expr) (n : Nat) : Rule Expr := do
  let left ← operand
  chainFrom accepted operand n left

def separatedFrom (closing : Token) (item : Rule α) : Nat → List α → Rule (List α)
  | 0, found => do
    let a ← item
    if ← eat closing then pure (a :: found).reverse
    else refuse ("',' or " ++ closing.describe)
  | n + 1, found => do
    let a ← item
    if ← eat (.mark .comma) then separatedFrom closing item n (a :: found)
    else if ← eat closing then pure (a :: found).reverse
    else refuse ("',' or " ++ closing.describe)

/-- Items with commas between them up to the closing token, which is taken too. There may be no
    item, and no comma stands after the last one. -/
def separated (closing : Token) (item : Rule α) (n : Nat) : Rule (List α) := do
  if ← eat closing then pure []
  else separatedFrom closing item n []

def enclosed (closing : Token) (item : Rule α) : Nat → List α → Rule (List α)
  | 0, found => do
    if ← eat closing then pure found.reverse
    else refuse closing.describe
  | n + 1, found => do
    if ← eat closing then pure found.reverse
    else if ← atEnd then refuse closing.describe
    else
      let a ← item
      enclosed closing item n (a :: found)

def untilEnd (item : Rule α) : Nat → List α → Rule (List α)
  | 0, found => pure found.reverse
  | n + 1, found => do
    if ← atEnd then pure found.reverse
    else
      let a ← item
      untilEnd item n (a :: found)

/-! ## Whole texts -/

def read (rule : Nat → Rule α) (source : String) : Except SyntaxError α := do
  let lexemes ← Lexeme.scan source
  match rule lexemes.list.length lexemes.stop lexemes.list with
  | .ok a _ => .ok a
  | .fail e _ => .error e

end Rule

end Scriptling
