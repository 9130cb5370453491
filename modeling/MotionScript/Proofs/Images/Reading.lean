import MotionScript.Proofs.Images.Rules
import MotionScript.Proofs.Shape.Ending
/-!
# Readings behind a backdrop

Tokens that are handed to the rules behind a backdrop have the effect that they have without it. So
a reading that starts in sessions that are alike ends in sessions that are alike, with the same
failure if there is one.
-/

namespace MotionScript

variable {η θ : Type} [Host η] [Host θ] {b : Stage η θ} {s : Session η} {t : Session θ}

/-- Rules that can be attached or detached are none for documents. -/
theorem Frame.Asks.not_document {f : Frame} {control : Control Frame} (h : f.Asks control) :
    (∀ g forward, control = some (.attach g forward) → g ≠ .document) ∧
      ∀ forward, control = some (.detach forward) → f ≠ .document := by
  cases h <;> simp

namespace Grammar

/-! ## Single tokens -/

theorem push_alike (h : b.Like s t) {rule : Frame} (hrule : rule ≠ .document)
    (stack : List Frame) :
    b.Answers (List.map b.frame) id ((document η).push rule stack s)
      ((document θ).push (b.frame rule) (stack.map b.frame) t) := by
  have hcontext : (stack.map b.frame).head?.bind Frame.context =
      (stack.head?.bind Frame.context).map b.scope := by
    cases stack with
    | nil => rfl
    | cons top parents => exact top.context_image b.toBackdrop
  obtain ⟨hsubject, hsession, hresult⟩ :=
    rule.onAttach_alike h hrule (stack.head?.bind Frame.context)
  rw [← hcontext] at hsubject hsession hresult
  exact ⟨congrArg (· :: stack.map b.frame) hsubject, hsession, hresult⟩

theorem dispatch_alike (e : Event) (fuel : Nat) (stack : List Frame) (h : b.Like s t) :
    b.Answers (List.map b.frame) id ((document η).dispatch e fuel stack s)
      ((document θ).dispatch (b.event e) fuel (stack.map b.frame) t) := by
  induction fuel generalizing stack s t with
  | zero => exact ⟨rfl, h, .error _⟩
  | succ fuel ih =>
    cases stack with
    | nil => exact ⟨rfl, h, .ok rfl⟩
    | cons top parents =>
      have htoken : b.Answers b.frame (Option.map b.change) ((document η).onToken e top s)
          ((document θ).onToken (b.event e) (b.frame top) t) := top.onToken_alike e h
      have hasks : ∀ control, ((document η).onToken e top s).result = .ok control →
          ((document η).onToken e top s).subject.Asks control := fun _ => Frame.onToken_asks
      simp only [List.map_cons, dispatch]
      generalize (document η).onToken e top s = x at htoken hasks ⊢
      generalize (document θ).onToken (b.event e) (b.frame top) t = y at htoken ⊢
      obtain ⟨f, s', result⟩ := x
      obtain ⟨_, t', result'⟩ := y
      obtain ⟨rfl, h', hresult⟩ := htoken
      cases hresult with
      | error d => exact ⟨rfl, h', .error d⟩
      | @ok control _ hcontrol =>
        subst hcontrol
        obtain ⟨hattach, hdetach⟩ := (hasks control rfl).not_document
        rcases control with _ | ⟨rule, forward⟩ | ⟨forward⟩
        · exact ⟨rfl, h', .ok rfl⟩
        · have hpush := push_alike h' (hattach rule forward rfl) (f :: parents)
          simp only [Option.map_some, Backdrop.change, List.map_cons] at hpush ⊢
          generalize (document η).push rule (f :: parents) s' = x at hpush ⊢
          generalize (document θ).push (b.frame rule) (b.frame f :: parents.map b.frame) t' = y
            at hpush ⊢
          obtain ⟨stack, s'', result⟩ := x
          obtain ⟨_, t'', result'⟩ := y
          obtain ⟨rfl, h'', hresult⟩ := hpush
          cases hresult with
          | error d => exact ⟨rfl, h'', .error d⟩
          | ok _ =>
            cases forward with
            | false => exact ⟨rfl, h'', .ok rfl⟩
            | true => exact ih stack h''
        · have hclose : b.Like (f.close s') ((b.frame f).close t') :=
            f.close_alike h' fun hf => absurd hf (hdetach forward rfl)
          simp only [Option.map_some, Backdrop.change, List.isEmpty_map]
          cases parents with
          | nil => exact ⟨rfl, h', .error _⟩
          | cons parent parents =>
            cases forward with
            | false => exact ⟨rfl, hclose, .ok rfl⟩
            | true => exact ih (parent :: parents) hclose

/-! ## All tokens -/

/-- Two runs that are alike. -/
structure Run.Like (b : Stage η θ) (r : Run Frame (Session η)) (r' : Run Frame (Session θ)) :
    Prop where
  stack : r'.stack = r.stack.map b.frame
  session : b.Like r.session r'.session
  failure : r'.failure = r.failure.map b.failure

theorem feed_alike (es : List Event) {r : Run Frame (Session η)} {r' : Run Frame (Session θ)}
    (h : r.Like b r') :
    ((document η).feed es r).Like b ((document θ).feed (es.map b.event) r') := by
  induction es generalizing r r' with
  | nil => exact h
  | cons e es ih =>
    have hdispatch := dispatch_alike e maxForwards r.stack h.session
    simp only [feed, List.map_cons, h.stack]
    generalize (document η).dispatch e maxForwards r.stack r.session = x at hdispatch ⊢
    generalize (document θ).dispatch (b.event e) maxForwards (r.stack.map b.frame) r'.session = y
      at hdispatch ⊢
    obtain ⟨stack, s', result⟩ := x
    obtain ⟨_, t', result'⟩ := y
    obtain ⟨rfl, h', hresult⟩ := hdispatch
    cases hresult with
    | ok _ => exact ih ⟨rfl, h', rfl⟩
    | error d => exact ⟨rfl, h', congrArg some (b.located d e.position)⟩

/-- The session when every rule has been detached. -/
def Run.finish (r : Run Frame (Session η)) : Session η :=
  r.stack.foldl (fun s f => f.close s) r.session

theorem unwind_session (stack : List Frame) (s : Session η) (p : Position)
    (failure : Option Failure) :
    ((document η).unwind stack s p failure).2 = stack.foldl (fun s f => f.close s) s := by
  induction stack generalizing s failure with
  | nil => rfl
  | cons top parents ih => exact ih _ _

/-- Rules close alike if there are no layers in front. -/
theorem Run.Like.finish {r : Run Frame (Session η)} {r' : Run Frame (Session θ)}
    (h : r.Like b r')
    (hb : b.graph.layers = #[]) : b.Like r.finish r'.finish := by
  obtain ⟨hstack, hsession, -⟩ := h
  unfold Run.finish
  rw [hstack]
  generalize r.stack = stack at hstack
  generalize r.session = s, r'.session = t at hsession
  clear hstack
  induction stack generalizing s t with
  | nil => exact hsession
  | cons top parents ih => exact ih _ _ (top.close_alike hsession fun _ => .inl hb)

/-- Events are fed one after another. -/
theorem feed_append {ρ γ σ : Type} {g : Grammar ρ γ σ} (xs ys : List Event) {r : Run ρ σ}
    (hr : r.failure = none) :
    g.feed (xs ++ ys) r =
      if (g.feed xs r).failure.isNone then g.feed ys (g.feed xs r) else g.feed xs r := by
  induction xs generalizing r with
  | nil => simp [feed, hr]
  | cons e xs ih =>
    rw [List.cons_append, feed, feed]
    cases (g.dispatch e maxForwards r.stack r.session).result with
    | error d => rfl
    | ok u => exact ih rfl

end Grammar

/-! ## Readings of documents -/

namespace Document

/-- Where the rules stand before the first token. -/
def start (name : String) (host : η) : Grammar.Run Frame (Session η) :=
  ⟨[.document], (Frame.document.onAttach none { controller := { name }, host }).session, ⟨0, 0⟩,
    none⟩

/-- Where the rules stand when all tokens have been handled. -/
def run (source name : String) (host : η) : Grammar.Run Frame (Session η) :=
  (Grammar.document η).run .document (Lexer.tokenize .document source)
    { controller := { name }, host }

theorem run_eq (source name : String) (host : η) :
    run source name host =
      let r := (Grammar.document η).feed (Event.ofTokens (Lexer.tokenize .document source).tokens)
        (start name host)
      { r with failure := r.failure <|> (Lexer.tokenize .document source).failure } := rfl

/-- The fault of the lexer apart, a reading is what the rules make of the tokens. -/
theorem run_eq_feed {source : String} (h : (Lexer.tokenize .document source).failure = none)
    (name : String) (host : η) :
    run source name host =
      (Grammar.document η).feed (Event.ofTokens (Lexer.tokenize .document source).tokens)
        (start name host) := by
  rw [run_eq]
  simp [h]

theorem stream_of_run {source name : String} {host : η}
    (h : (run source name host).failure = none) :
    (Lexer.tokenize .document source).failure = none := by
  simp only [run_eq, Option.orElse_eq_orElse, Option.orElse_eq_or, Option.or_eq_none_iff] at h
  exact h.2

/-- A reading ends in the session in which every rule has been detached, with the failure met so
far. -/
theorem read_eq (source name : String) (host : η) :
    read source name host =
      (match (run source name host).failure with
        | some failure => .error failure
        | none => .ok ⟨(run source name host).finish.controller,
            (run source name host).finish.warnings⟩,
        (run source name host).finish.host) := by
  have hparse : (Grammar.document η).parse .document .document source
      { controller := { name }, host } =
        ((run source name host).failure, (run source name host).finish) :=
    Prod.ext (Grammar.document_unwind _ _ _ _) (Grammar.unwind_session _ _ _ _)
  rw [read, hparse]
  cases (run source name host).failure <;> rfl

/-- A reading starts as it starts elsewhere. -/
theorem start_alike {name : String} {host : η} {host' : θ} (hgraph : b.graph = { name })
    (hsymbols : b.symbols = #[]) (hwarnings : b.warnings = [])
    (hagree : b.Agree (start name host).session.host (start name host).session.usedNames
      (start name host').session.host (start name host').session.usedNames) :
    (start name host).Like b (start name host') := by
  refine ⟨rfl, ⟨?_, ?_, rfl, rfl, ?_, hagree⟩, rfl⟩
  · rw [hgraph]
    exact (Controller.followedBy_nothing name { name }).symm
  · show (#[] : Array SymbolTable) = _ ++ Array.map _ #[]
    rw [hsymbols, Array.map_empty, Array.append_empty]
  · show ([] : List Diagnostic) = _ ++ List.map _ []
    rw [hwarnings, List.map_nil, List.append_nil]

end Document

end MotionScript
