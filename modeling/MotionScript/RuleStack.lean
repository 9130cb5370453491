import MotionScript.Token.Event
/-!
# A stack of grammar rules

A pushdown engine. Each token goes to the rule on top of the stack, which may ask for one change of
the stack: to attach a rule above it or to be detached, in both cases with or without handing the
token on. A child gets a snapshot of its parent's context when it is attached. However reading
ends, every rule still attached is detached, top first.
-/

namespace MotionScript

/-- A change of the stack that a rule asks for. -/
inductive Change (ρ : Type) where
  | attach (rule : ρ) (forward : Bool)
  | detach (forward : Bool)

/-- What a rule has asked for while it handles a token: nothing, or one change. -/
abbrev Control (ρ : Type) := Option (Change ρ)

/-- Asks for a change; only one can be asked for. -/
def Control.request {ρ : Type} (c : Control ρ) (change : Change ρ) :
    Except Diagnostic (Control ρ) :=
  match c with
  | none => .ok (some change)
  | some _ =>
    .error ((Diagnostic.error "a rule requested two stack changes for one token").withCode
      .invalidStackChange)

/-- What a hook leaves behind: its subject, the session, and its result. Subject and session are
kept also on failure. -/
structure Answer (ρ σ α : Type) where
  subject : ρ
  session : σ
  result : Except Diagnostic α

/-- Rules `ρ` with contexts `γ` over a shared session `σ`. -/
structure Grammar (ρ γ σ : Type) where
  /-- The snapshot given to children. -/
  context : ρ → Option γ
  /-- Called once the rule is on the stack, with its parent's context. -/
  onAttach : Option γ → ρ → σ → Answer ρ σ Unit
  /-- Handles a token while the rule is on top. -/
  onToken : Event → ρ → σ → Answer ρ σ (Control ρ)
  /-- Called once when the rule leaves the stack. -/
  onDetach : ρ → σ → Except Diagnostic Unit × σ

namespace Grammar

variable {ρ γ σ : Type} (g : Grammar ρ γ σ)

/-- How many rules may handle one token. -/
def maxForwards : Nat := 64

/-- Puts a rule on the stack and runs its attach hook. -/
def push (rule : ρ) (stack : List ρ) (s : σ) : Answer (List ρ) σ Unit :=
  let a := g.onAttach (stack.head?.bind g.context) rule s
  ⟨a.subject :: stack, a.session, a.result⟩

/-- Hands an event to the top rule and on from rule to rule, at most `fuel` times. -/
def dispatch (e : Event) : Nat → List ρ → σ → Answer (List ρ) σ Unit
  | 0, stack, s =>
    ⟨stack, s, .error (((Diagnostic.error "token was handed between rules too many times").withCode
      .invalidStackChange).withLabel e.span "this token")⟩
  | _ + 1, [], s => ⟨[], s, .ok ()⟩
  | fuel + 1, top :: parents, s =>
    let a := g.onToken e top s
    let stack := a.subject :: parents
    match a.result with
    | .error d => ⟨stack, a.session, .error d⟩
    | .ok none => ⟨stack, a.session, .ok ()⟩
    | .ok (some (.attach rule forward)) =>
      let b := g.push rule stack a.session
      match b.result with
      | .error _ => b
      | .ok () => if forward then dispatch e fuel b.subject b.session else b
    | .ok (some (.detach forward)) =>
      if parents.isEmpty then
        ⟨stack, a.session, .error (((Diagnostic.error "the root rule cannot be detached").withCode
          .invalidStackChange).withLabel e.span "while handling this token")⟩
      else
        match g.onDetach a.subject a.session with
        | (.error d, s) => ⟨parents, s, .error d⟩
        | (.ok (), s) => if forward then dispatch e fuel parents s else ⟨parents, s, .ok ()⟩

/-- A stack, the session, the position reached and the first failure. -/
structure Run (ρ σ : Type) where
  stack : List ρ
  session : σ
  position : Position
  failure : Option Failure

/-- Dispatches events one after another until one fails. -/
def feed : List Event → Run ρ σ → Run ρ σ
  | [], r => r
  | e :: rest, r =>
    let a := g.dispatch e maxForwards r.stack r.session
    match a.result with
    | .ok () => feed rest ⟨a.subject, a.session, e.position, none⟩
    | .error d => ⟨a.subject, a.session, e.position, some (.located d e.position)⟩

/-- Detaches every rule; a failure is kept only if it is the first. -/
def unwind : List ρ → σ → Position → Option Failure → Option Failure × σ
  | [], s, _, failure => (failure, s)
  | rule :: rest, s, p, failure =>
    let (result, s) := g.onDetach rule s
    let failure :=
      match failure, result with
      | none, .error d => some (.located d p)
      | failure, _ => failure
    unwind rest s p failure

/-- Attaches the root rule, feeds all events and then reports the fault of the lexer, if any. -/
def run (root : ρ) (stream : Lexer.Stream) (s : σ) : Run ρ σ :=
  let a := g.push root [] s
  match a.result with
  | .error d => ⟨a.subject, a.session, ⟨0, 0⟩, some (.located d ⟨0, 0⟩)⟩
  | .ok () =>
    let r := g.feed (Event.ofTokens stream.tokens) ⟨a.subject, a.session, ⟨0, 0⟩, none⟩
    { r with failure := r.failure <|> stream.failure }

/-- Reads a text with `root` at the bottom of the stack. -/
def parse (symbols : SymbolSet) (root : ρ) (text : String) (s : σ) : Option Failure × σ :=
  let r := g.run root (Lexer.tokenize symbols text) s
  g.unwind r.stack r.session r.position r.failure

end Grammar

end MotionScript
