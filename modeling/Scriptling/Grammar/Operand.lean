/-
  Scriptling.Grammar.Operand — how expressions are written.

      expr        comparison
      comparison  sum, then any number of: comparison operator, sum
      sum         product, then any number of: `+` or `-`, product
      product     primary, then any number of: `*` or `/`, primary
      primary     `(` expr `)` | integer | name `(` expr, … `)` | name `[` name `=` expr, … `]`
                  | `[` expr, … `]` | `true` | `false` | name

  The rules below `expr` are given the rule for the expressions nested in them, and `n`, a
  bound on the number of lexemes left.
-/

import Scriptling.Grammar.Rule

namespace Scriptling.Grammar

open Rule

def name : Rule String := do
  match ← peek with
  | some (.identifier x) =>
    let _ ← advance
    pure x
  | _ => refuse "identifier"

/-- An item in parentheses, which leave no trace. -/
def parenthesized {α : Type} (item : Rule α) : Rule α := do
  expect (.mark .openParen)
  let a ← item
  expect (.mark .closeParen)
  pure a

/-! ## Primaries -/

def integer : Rule Expr := do
  match ← peek with
  | some (.integer value) =>
    let _ ← advance
    pure (.int value)
  | _ => refuse "integer literal"

def call (expr : Rule Expr) (n : Nat) : Rule Expr := do
  let f ← name
  expect (.mark .openParen)
  let arguments ← separated (.mark .closeParen) expr n
  pure (.call f arguments)

def labelledArgument (expr : Rule Expr) : Rule (String × Expr) := do
  let label ← name
  expect (.mark .assign)
  let value ← expr
  pure (label, value)

def labelledCall (expr : Rule Expr) (n : Nat) : Rule Expr := do
  let f ← name
  expect (.mark .openBracket)
  let arguments ← separated (.mark .closeBracket) (labelledArgument expr) n
  pure (.labelledCall f arguments)

def array (expr : Rule Expr) (n : Nat) : Rule Expr := do
  expect (.mark .openBracket)
  let items ← separated (.mark .closeBracket) expr n
  pure (.array items)

def boolean : Rule Expr := do
  if ← eat (.keyword .true_) then pure (.bool true)
  else if ← eat (.keyword .false_) then pure (.bool false)
  else refuse "'true' or 'false'"

def reference : Rule Expr := do
  let x ← name
  pure (.var x)

def primary (expr : Rule Expr) (n : Nat) : Rule Expr :=
  choice "expression"
    [parenthesized expr, integer, call expr n, labelledCall expr n, array expr n, boolean, reference]

/-! ## Operators -/

def product (expr : Rule Expr) (n : Nat) : Rule Expr :=
  chain Operator.isMultiplicative (primary expr n) n

def sum (expr : Rule Expr) (n : Nat) : Rule Expr :=
  chain Operator.isAdditive (product expr n) n

def comparison (expr : Rule Expr) (n : Nat) : Rule Expr :=
  chain Operator.isComparison (sum expr n) n

/-- An expression, where at most `n` lexemes are left. Where none is left, none can be read. -/
def expr : Nat → Rule Expr
  | 0 => refuse "expression"
  | n + 1 => comparison (expr n) n

@[simp] theorem expr_zero : expr 0 = refuse "expression" := rfl

theorem expr_succ (n : Nat) : expr (n + 1) = comparison (expr n) n := rfl

end Scriptling.Grammar
