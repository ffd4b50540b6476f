import RangeCalc.Formula.Parser
import RangeCalc.Text.Position

/-!
# Where a text stops being a formula

A text is refused at its first token that cannot follow the tokens before it, or at its first character
that starts no token.

* `GrammarFault`: what was met, where, and after what;
* `parse`: the tree of a text, or its fault;
* `GrammarFault.expected`: the kinds of tokens that could have followed;
* `GrammarFault.message`: the report.
-/

namespace RangeCalc

open Text

/-- What cannot follow. -/
inductive Unexpected where
  | token (t : Token)
  | endOfText
  | char (c : Char)
deriving DecidableEq, Repr

/-- A text that is no formula: what was met at a place, in the state that the tokens before it led to. -/
structure GrammarFault where
  text : List Char
  unexpected : Unexpected
  offset : Nat
  state : ParserState

/-- The tree of a text. The end of the text is reported at the last token. -/
def parse (text : List Char) : Except GrammarFault Tree :=
  let lexed := Lexed.ofChars text
  match ParserState.start.run lexed.tokens, lexed.stray with
  | (state, placed :: _), _ => .error ⟨text, .token placed.token, placed.offset, state⟩
  | (state, []), some offset => .error ⟨text, .char (text[offset]?.getD ' '), offset, state⟩
  | (state, []), none =>
    match state.finish? with
    | some tree => .ok tree
    | none => .error ⟨text, .endOfText, (lexed.tokens.getLast?.map (·.offset)).getD 0, state⟩

namespace GrammarFault

def line (fault : GrammarFault) : Nat := lineAt fault.text fault.offset

def column (fault : GrammarFault) : Nat := columnAt fault.text fault.offset

/-- Whether no token starts at the place, rather than the wrong one. -/
def isStrayChar (fault : GrammarFault) : Bool :=
  match fault.unexpected with
  | .char _ => true
  | _ => false

/-- Whether a token can only end what is open. -/
def closes : Unexpected → Bool
  | .token .comma => true
  | .token .rightParen => true
  | .endOfText => true
  | _ => false

/-- The kinds of tokens that end what is open. -/
def closers : List (Bracket × Level) → List String
  | [] => ["$END"]
  | (.group, _) :: _ => ["RPAR"]
  | (.call _ _, _) :: _ => ["COMMA", "RPAR"]

/-- The kinds of tokens that could have followed. After an operand, a stray character is reported with
every operator and closing token, and a token that closes something only with those that close or start
the last sum anew. -/
def expected (fault : GrammarFault) : List String :=
  match fault.state.expectation with
  | .operand mayClose =>
    ["LPAR", "MINUS", "NAME", "NUMBER", "PLUS"] ++ if mayClose then ["RPAR"] else []
  | .operator _ callee =>
    let call := if callee.isSome then ["LPAR"] else []
    let tight := ["\"**\"", "CIRCUMFLEX", "SLASH", "STAR"] ++ call
    if fault.isStrayChar then tight ++ ["COMMA", "MINUS", "PLUS", "RPAR"]
    else
      ["MINUS", "PLUS"] ++ closers fault.state.stack ++ if closes fault.unexpected then [] else tight

/-- A token as reports show it. -/
def showToken (kind value : String) : String :=
  "Token('" ++ kind ++ "', '" ++ value ++ "')"

/-- What was met and where, with an excerpt for a stray character. -/
def detail (fault : GrammarFault) : String :=
  let met (token : String) :=
    "Unexpected token " ++ token ++ " at line " ++ toString fault.line ++ ", column " ++
      toString fault.column ++ ".\n"
  match fault.unexpected with
  | .token t => met (showToken t.kindName (String.ofList t.chars))
  | .endOfText => met (showToken "$END" "")
  | .char c =>
    "No terminal matches '" ++ String.singleton c ++ "' in the current parser context, at line " ++
      toString fault.line ++ " col " ++ toString fault.column ++ "\n\n" ++
      String.ofList (excerptAt fault.text fault.offset)

def message (fault : GrammarFault) : String :=
  "syntax error in '" ++ String.ofList fault.text ++ "':\n" ++ fault.detail

end GrammarFault

end RangeCalc
