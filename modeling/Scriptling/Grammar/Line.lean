/-
  Scriptling.Grammar.Line — how lines and definitions are written.

      line        `println` `(` expr `)` `;`
                  | `while` `(` expr `)` line
                  | `if` `(` expr `)` line, then perhaps: `else` line
                  | `for` `(` name `in` expr `to` expr `)` line
                  | name `=` expr `;` | expr `;` | block
      block       `{` line … `}`
      definition  `global` name `=` expr `;` | `define` name `(` name, … `)` block

  An `else` belongs to the nearest `if`. A `for` is read as the loop that it abbreviates.
-/

import Scriptling.Grammar.Operand

namespace Scriptling.Grammar

open Rule

/-! ## Lines -/

def printLine (expr : Rule Expr) : Rule Expr := do
  expect (.keyword .println_)
  let argument ← parenthesized expr
  expect (.mark .semicolon)
  pure (.println argument)

def whileLine (expr line : Rule Expr) : Rule Expr := do
  expect (.keyword .while_)
  let condition ← parenthesized expr
  let body ← line
  pure (.whileDo condition body)

def ifLine (expr line : Rule Expr) : Rule Expr := do
  expect (.keyword .if_)
  let condition ← parenthesized expr
  let body ← line
  if ← eat (.keyword .else_) then
    let orElse ← line
    pure (.ifElse condition body orElse)
  else pure (.ifThen condition body)

/-- The loop that `for (x in first to bound) body` stands for. The bound itself is not reached,
    and it is evaluated anew in every round. -/
def countedLoop (x : String) (first bound body : Expr) : Expr :=
  .block [.assign x first,
    .whileDo (.binary .less (.var x) bound)
      (.block [body, .assign x (.binary .add (.var x) (.int 1))])]

def forLine (expr line : Rule Expr) : Rule Expr := do
  expect (.keyword .for_)
  expect (.mark .openParen)
  let x ← name
  expect (.keyword .in_)
  let first ← expr
  expect (.keyword .to_)
  let bound ← expr
  expect (.mark .closeParen)
  let body ← line
  pure (countedLoop x first bound body)

def assignLine (expr : Rule Expr) : Rule Expr := do
  let x ← name
  expect (.mark .assign)
  let value ← expr
  expect (.mark .semicolon)
  pure (.assign x value)

def exprLine (expr : Rule Expr) : Rule Expr := do
  let e ← expr
  expect (.mark .semicolon)
  pure e

def block (line : Rule Expr) (n : Nat) : Rule Expr := do
  expect (.mark .openBrace)
  let lines ← enclosed (.mark .closeBrace) line n []
  pure (.block lines)

def anyLine (expr line : Rule Expr) (n : Nat) : Rule Expr :=
  choice "statement"
    [printLine expr, whileLine expr line, ifLine expr line, forLine expr line, assignLine expr,
      exprLine expr, block line n]

/-- A line, where at most `n` lexemes are left. Where none is left, none can be read. -/
def line : Nat → Rule Expr
  | 0 => refuse "statement"
  | n + 1 => anyLine (expr (n + 1)) (line n) n

@[simp] theorem line_zero : line 0 = refuse "statement" := rfl

theorem line_succ (n : Nat) : line (n + 1) = anyLine (expr (n + 1)) (line n) n := rfl

/-! ## Definitions -/

def globalDefinition (expr : Rule Expr) : Rule Definition := do
  expect (.keyword .global_)
  let x ← name
  expect (.mark .assign)
  let value ← expr
  expect (.mark .semicolon)
  pure (.global x value)

def functionDefinition (block : Rule Expr) (n : Nat) : Rule Definition := do
  expect (.keyword .define_)
  let f ← name
  expect (.mark .openParen)
  let params ← separated (.mark .closeParen) name n
  let body ← block
  pure (.function ⟨f, params, body⟩)

def definition (n : Nat) : Rule Definition :=
  choice "'global' or 'define'"
    [globalDefinition (expr n), functionDefinition (block (line n) n) n]

/-! ## Whole texts -/

def wholeExpr (n : Nat) : Rule Expr := do
  let e ← expr n
  expectEnd
  pure e

def wholeLines (n : Nat) : Rule (List Expr) := do
  let first ← line n
  untilEnd (line n) n [first]

def wholeProgram (n : Nat) : Rule Program := untilEnd (definition n) n []

end Scriptling.Grammar

namespace Scriptling

def Expr.parse (source : String) : Except SyntaxError Expr := Rule.read Grammar.wholeExpr source

def Expr.parseLines (source : String) : Except SyntaxError (List Expr) :=
  Rule.read Grammar.wholeLines source

def Program.parse (source : String) : Except SyntaxError Program :=
  Rule.read Grammar.wholeProgram source

end Scriptling
