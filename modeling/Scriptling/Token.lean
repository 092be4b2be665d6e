/-
  Scriptling.Token — the words of the language.

  A token is an integer, an identifier, a keyword, an operator or a punctuation mark.
  - `Token.spelling` is how a token is written, `Token.describe` how a message names it.
-/

import Scriptling.Operator

namespace Scriptling

inductive Keyword where
  | true_
  | false_
  | global_
  | define_
  | println_
  | if_
  | else_
  | while_
  | for_
  | in_
  | to_
  deriving DecidableEq, Repr, Inhabited

namespace Keyword

def spelling : Keyword → String
  | true_ => "true"
  | false_ => "false"
  | global_ => "global"
  | define_ => "define"
  | println_ => "println"
  | if_ => "if"
  | else_ => "else"
  | while_ => "while"
  | for_ => "for"
  | in_ => "in"
  | to_ => "to"

def all : List Keyword :=
  [true_, false_, global_, define_, println_, if_, else_, while_, for_, in_, to_]

theorem mem_all (k : Keyword) : k ∈ all := by cases k <;> decide

def ofWord? (word : String) : Option Keyword := all.find? (fun k => k.spelling == word)

theorem ofWord?_spelling (k : Keyword) : ofWord? k.spelling = some k := by
  cases k <;> decide

end Keyword

inductive Mark where
  | assign
  | openParen
  | closeParen
  | openBrace
  | closeBrace
  | openBracket
  | closeBracket
  | comma
  | semicolon
  deriving DecidableEq, Repr, Inhabited

namespace Mark

def spelling : Mark → String
  | assign => "="
  | openParen => "("
  | closeParen => ")"
  | openBrace => "\x7b"
  | closeBrace => "\x7d"
  | openBracket => "["
  | closeBracket => "]"
  | comma => ","
  | semicolon => ";"

end Mark

inductive Token where
  | integer (value : Nat)
  | identifier (name : String)
  | keyword (word : Keyword)
  | operator (op : Operator)
  | mark (mark : Mark)
  deriving DecidableEq, Repr, Inhabited

namespace Token

/-- How the token is written, an integer without leading zeros. -/
def spelling : Token → String
  | integer value => String.ofList (Nat.toDigits 10 value)
  | identifier name => name
  | keyword word => word.spelling
  | operator op => op.symbol
  | mark m => m.spelling

def describe : Token → String
  | integer value => "integer " ++ (integer value).spelling
  | identifier name => "identifier '" ++ name ++ "'"
  | token => "'" ++ token.spelling ++ "'"

def operator? : Token → Option Operator
  | operator op => some op
  | _ => none

end Token

end Scriptling
