/-
  Scriptling.Proofs.Grammar.Derivation — what a list of tokens spells.

      program     definition*
      definition  `global` name `=` expr `;` | `define` name `(` (name (`,` name)*)? `)` block
      block       `{` line* `}`
      line        `println` `(` expr `)` `;` | `while` `(` expr `)` line
                  | `if` `(` expr `)` line (`else` line)?
                  | `for` `(` name `in` expr `to` expr `)` line
                  | name `=` expr `;` | expr `;` | block
      expr        sum (comparison operator, sum)*
      sum         product ((`+` | `-`) product)*
      product     primary ((`*` | `/`) primary)*
      primary     `(` expr `)` | integer | name `(` (expr (`,` expr)*)? `)`
                  | name `[` (argument (`,` argument)*)? `]` | `[` (expr (`,` expr)*)? `]`
                  | `true` | `false` | name
      argument    name `=` expr

  Each relation below is one of these, each constructor one way to derive it, and nothing in them
  says in which order the ways are tried. A tree stands beside the tokens: chains group to the left,
  parentheses leave no trace, and `for (x in first to bound) body` is the tree of
  `{ x = first; while (x < bound) { body x = x + 1; } }`.

  The rules for lines also know the token after the line, since an `if` may go without `else` only
  where no `else` follows.
-/

import Scriptling.Grammar.Line

namespace Scriptling.Grammar

variable {α : Type}

/-! ## Repetition -/

/-- Operands with some of the `operators` between them. The tree groups to the left. -/
inductive IsChain (operators : List Operator) (IsOperand : List Token → Expr → Prop) :
    List Token → Expr → Prop
  | single {ts : List Token} {e : Expr} : IsOperand ts e → IsChain operators IsOperand ts e
  | more {ts us : List Token} {op : Operator} {left right : Expr} :
      IsChain operators IsOperand ts left → op ∈ operators → IsOperand us right →
      IsChain operators IsOperand (ts ++ .operator op :: us) (.binary op left right)

inductive IsItems (IsItem : List Token → α → Prop) : List Token → List α → Prop
  | last {ts : List Token} {a : α} : IsItem ts a → IsItems IsItem ts [a]
  | more {ts us : List Token} {a : α} {as : List α} :
      IsItem ts a → IsItems IsItem us as → IsItems IsItem (ts ++ .mark .comma :: us) (a :: as)

inductive IsSeparated (IsItem : List Token → α → Prop) : List Token → List α → Prop
  | nothing : IsSeparated IsItem [] []
  | items {ts : List Token} {as : List α} : IsItems IsItem ts as → IsSeparated IsItem ts as

def after (us : List Token) (next : Option Token) : Option Token := us.head?.or next

/-- Any number of items, one after another, with the token `next` after the last one. -/
inductive IsSequence (IsItem : Option Token → List Token → α → Prop) (next : Option Token) :
    List Token → List α → Prop
  | nil : IsSequence IsItem next [] []
  | cons {ts us : List Token} {a : α} {as : List α} :
      IsItem (after us next) ts a → IsSequence IsItem next us as →
      IsSequence IsItem next (ts ++ us) (a :: as)

/-! ## Expressions -/

inductive IsName : List Token → String → Prop
  | identifier (x : String) : IsName [.identifier x] x

mutual

inductive IsExpr : List Token → Expr → Prop
  | chain {ts : List Token} {e : Expr} :
      IsChain [.less, .lessOrEqual, .greater, .greaterOrEqual, .equal, .notEqual] IsSum ts e → IsExpr ts e

inductive IsSum : List Token → Expr → Prop
  | chain {ts : List Token} {e : Expr} : IsChain [.add, .subtract] IsProduct ts e → IsSum ts e

inductive IsProduct : List Token → Expr → Prop
  | chain {ts : List Token} {e : Expr} : IsChain [.multiply, .divide] IsPrimary ts e → IsProduct ts e

inductive IsPrimary : List Token → Expr → Prop
  | group {ts : List Token} {e : Expr} :
      IsExpr ts e → IsPrimary (.mark .openParen :: ts ++ [.mark .closeParen]) e
  | integer (n : Nat) : IsPrimary [.integer n] (.int n)
  | call {f : String} {ts : List Token} {es : List Expr} :
      IsSeparated IsExpr ts es →
      IsPrimary (.identifier f :: .mark .openParen :: ts ++ [.mark .closeParen]) (.call f es)
  | labelledCall {f : String} {ts : List Token} {es : List (String × Expr)} :
      IsSeparated IsArgument ts es →
      IsPrimary (.identifier f :: .mark .openBracket :: ts ++ [.mark .closeBracket]) (.labelledCall f es)
  | array {ts : List Token} {es : List Expr} :
      IsSeparated IsExpr ts es →
      IsPrimary (.mark .openBracket :: ts ++ [.mark .closeBracket]) (.array es)
  | boolTrue : IsPrimary [.keyword .true_] (.bool true)
  | boolFalse : IsPrimary [.keyword .false_] (.bool false)
  | var (x : String) : IsPrimary [.identifier x] (.var x)

inductive IsArgument : List Token → String × Expr → Prop
  | label {x : String} {ts : List Token} {e : Expr} :
      IsExpr ts e → IsArgument (.identifier x :: .mark .assign :: ts) (x, e)

end

/-! ## Lines -/

inductive IsParenthesized : List Token → Expr → Prop
  | parens {ts : List Token} {e : Expr} :
      IsExpr ts e → IsParenthesized (.mark .openParen :: ts ++ [.mark .closeParen]) e

mutual

/-- A line with the token `next` after it; `none` is the end of the text. -/
inductive IsLine : Option Token → List Token → Expr → Prop
  | println {next : Option Token} {ts : List Token} {e : Expr} :
      IsParenthesized ts e → IsLine next (.keyword .println_ :: ts ++ [.mark .semicolon]) (.println e)
  | whileDo {next : Option Token} {ts us : List Token} {c b : Expr} :
      IsParenthesized ts c → IsLine next us b →
      IsLine next (.keyword .while_ :: ts ++ us) (.whileDo c b)
  /-- An `else` that follows would have to be taken. -/
  | ifThen {next : Option Token} {ts us : List Token} {c b : Expr} :
      IsParenthesized ts c → IsLine next us b → next ≠ some (.keyword .else_) →
      IsLine next (.keyword .if_ :: ts ++ us) (.ifThen c b)
  | ifElse {next : Option Token} {ts us vs : List Token} {c b o : Expr} :
      IsParenthesized ts c → IsLine (some (.keyword .else_)) us b → IsLine next vs o →
      IsLine next (.keyword .if_ :: ts ++ us ++ .keyword .else_ :: vs) (.ifElse c b o)
  | forIn {next : Option Token} {x : String} {ts us vs : List Token} {first bound body : Expr} :
      IsExpr ts first → IsExpr us bound → IsLine next vs body →
      IsLine next
        (.keyword .for_ :: .mark .openParen :: .identifier x :: .keyword .in_ :: ts ++
          .keyword .to_ :: us ++ .mark .closeParen :: vs)
        (.block [.assign x first,
          .whileDo (.binary .less (.var x) bound)
            (.block [body, .assign x (.binary .add (.var x) (.int 1))])])
  | assign {next : Option Token} {x : String} {ts : List Token} {e : Expr} :
      IsExpr ts e →
      IsLine next (.identifier x :: .mark .assign :: ts ++ [.mark .semicolon]) (.assign x e)
  | expr {next : Option Token} {ts : List Token} {e : Expr} :
      IsExpr ts e → IsLine next (ts ++ [.mark .semicolon]) e
  | block {next : Option Token} {ts : List Token} {e : Expr} : IsBlock ts e → IsLine next ts e

inductive IsBlock : List Token → Expr → Prop
  | braces {ts : List Token} {es : List Expr} :
      IsSequence IsLine (some (.mark .closeBrace)) ts es →
      IsBlock (.mark .openBrace :: ts ++ [.mark .closeBrace]) (.block es)

end

/-! ## Programs -/

inductive IsDefinition : List Token → Definition → Prop
  | global {x : String} {ts : List Token} {e : Expr} :
      IsExpr ts e →
      IsDefinition (.keyword .global_ :: .identifier x :: .mark .assign :: ts ++ [.mark .semicolon])
        (.global x e)
  | function {f : String} {ts us : List Token} {params : List String} {body : Expr} :
      IsSeparated IsName ts params → IsBlock us body →
      IsDefinition
        (.keyword .define_ :: .identifier f :: .mark .openParen :: ts ++ .mark .closeParen :: us)
        (.function ⟨f, params, body⟩)

def IsProgram (ts : List Token) (program : Program) : Prop :=
  IsSequence (fun _ => IsDefinition) none ts program

/-- A text of lines has at least one of them. -/
def IsText (ts : List Token) (lines : List Expr) : Prop :=
  lines ≠ [] ∧ IsSequence IsLine none ts lines

end Scriptling.Grammar
