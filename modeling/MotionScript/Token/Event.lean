import MotionScript.Token.Lexer
/-!
# Token events

Tokens as grammar rules see them: runs of symbols are split into single symbols, and every event
knows whether it starts a line and how far that line is indented.
-/

namespace MotionScript

structure Event extends Token where
  /-- Whether the token starts a line. -/
  lineBreak : Bool
  /-- Column of the first token on the line. -/
  indent : Nat
deriving DecidableEq, Repr

namespace Event

/-- The diagnostic for a token that fits no continuation. -/
def unexpected (e : Event) (expected : String) : Diagnostic :=
  ((Diagnostic.error s!"unexpected {e.kind.noun} `{e.text}`").withCode .unexpectedToken
    |>.withLabel e.span s!"expected {expected}").withPosition e.position

/-- The symbols of a run, one token each. -/
def symbolsOf (cs : List Char) (offset : Nat) (p : Position) : List Token :=
  match cs with
  | [] => []
  | c :: rest =>
    ⟨.symbol, c.toString, ⟨offset, offset + c.utf8Size⟩, p⟩ ::
      symbolsOf rest (offset + c.utf8Size) (p.advance 1)

/-- A run of symbols as single symbols, any other token as itself. -/
def splitRun (t : Token) : List Token :=
  if t.kind == .symbol && decide (1 < t.text.toList.length) then
    symbolsOf t.text.toList t.span.start t.position
  else [t]

/-- The events of tokens that follow a token on `row`, on a line indented by `indent`. -/
def ofTokensFrom (row : Option Nat) (indent : Nat) : List Token → List Event
  | [] => []
  | t :: rest =>
    let lineBreak := row.all (· < t.position.row)
    let indent := if lineBreak then t.position.column else indent
    (splitRun t).map (⟨·, lineBreak, indent⟩) ++ ofTokensFrom (some t.position.row) indent rest

/-- The events of all tokens of a document. -/
def ofTokens (tokens : List Token) : List Event := ofTokensFrom none 0 tokens

end Event

end MotionScript
