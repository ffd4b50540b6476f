import RangeCalc.Number.Literal
import RangeCalc.Text.WordChar

/-!
# The tokens of formulas

A text is cut into tokens from left to right, each as long as possible; white space between tokens is
dropped.

* `Token`: the tokens, and `Token.chars`, their text;
* `token?`: the token at the front of a text;
* `Lexed.ofChars`: the tokens of a text with their places, up to the first character that starts none.
-/

namespace RangeCalc

open Text

inductive Token where
  | plus
  | minus
  | star
  | slash
  | caret
  | doubleStar
  | leftParen
  | rightParen
  | comma
  | number (text : List Char)
  | name (text : List Char)
deriving DecidableEq, Repr

/-- How a token is written. -/
def Token.chars : Token → List Char
  | plus => ['+']
  | minus => ['-']
  | star => ['*']
  | slash => ['/']
  | caret => ['^']
  | doubleStar => ['*', '*']
  | leftParen => ['(']
  | rightParen => [')']
  | comma => [',']
  | number text => text
  | name text => text

/-- The name of a token's kind, as error messages give it. -/
def Token.kindName : Token → String
  | plus => "PLUS"
  | minus => "MINUS"
  | star => "STAR"
  | slash => "SLASH"
  | caret => "CIRCUMFLEX"
  | doubleStar => "__ANON_0"
  | leftParen => "LPAR"
  | rightParen => "RPAR"
  | comma => "COMMA"
  | number _ => "NUMBER"
  | name _ => "NAME"

/-- White space that may stand between tokens. -/
def isTokenBlank (c : Char) : Bool :=
  c == ' ' || c == '\t' || c == '\x0c' || c == '\r' || c == '\n'

/-- The longest token at the front of a text, and the rest. -/
def token? : List Char → Option (Token × List Char)
  | [] => none
  | '*' :: '*' :: rest => some (.doubleStar, rest)
  | '*' :: rest => some (.star, rest)
  | '+' :: rest => some (.plus, rest)
  | '-' :: rest => some (.minus, rest)
  | '/' :: rest => some (.slash, rest)
  | '^' :: rest => some (.caret, rest)
  | '(' :: rest => some (.leftParen, rest)
  | ')' :: rest => some (.rightParen, rest)
  | ',' :: rest => some (.comma, rest)
  | c :: rest =>
    if isNameStart c then
      let (name, after) := rest.span isNameChar
      some (.name (c :: name), after)
    else
      (spanLiteral? (c :: rest)).map fun (literal, after) => (.number literal, after)

/-- A token and the place of its first character. -/
structure PlacedToken where
  token : Token
  offset : Nat
deriving DecidableEq, Repr

/-- The tokens of a text, and the place of the first character that starts no token, if any. -/
structure Lexed where
  tokens : List PlacedToken
  stray : Option Nat
deriving DecidableEq, Repr

namespace Lexed

/-- The tokens from a place on, of which the first `skip` characters belong to a token already read. -/
def fromOffset : (offset : Nat) → (skip : Nat) → List Char → Lexed
  | _, _, [] => ⟨[], none⟩
  | offset, skip + 1, _ :: rest => fromOffset (offset + 1) skip rest
  | offset, 0, c :: rest =>
    if isTokenBlank c then fromOffset (offset + 1) 0 rest
    else
      match token? (c :: rest) with
      | none => ⟨[], some offset⟩
      | some (token, after) =>
        let following := fromOffset (offset + 1) (rest.length - after.length) rest
        ⟨⟨token, offset⟩ :: following.tokens, following.stray⟩

/-- The tokens of a text. -/
def ofChars (text : List Char) : Lexed :=
  fromOffset 0 0 text

end Lexed

example : (Lexed.ofChars "2**x $".toList) =
    ⟨[⟨.number ['2'], 0⟩, ⟨.doubleStar, 1⟩, ⟨.name ['x'], 3⟩], some 5⟩ := by decide +kernel

end RangeCalc
