import MotionScript.RuleStack
/-!
# Calls of hooks

Reading a text is a sequence of calls of the hooks of its rules. Every property of all readings is
proved along this sequence: it holds once the root is attached, and every turn of a rule, every
attached rule and every detached rule keeps it.
-/

namespace MotionScript.Grammar

variable {ρ γ σ : Type} (g : Grammar ρ γ σ)

/-- A call of a hook, with the session that the hook is given. -/
inductive Call (ρ σ : Type) where
  | attach (rule : ρ) (session : σ)
  | token (e : Event) (rule : ρ) (session : σ)
  | detach (rule : ρ) (session : σ)

/-- The session that a hook is given. -/
def Call.session : Call ρ σ → σ
  | attach _ s | token _ _ s | detach _ s => s

/-- The calls by which an event is dispatched. -/
def dispatchCalls (e : Event) : Nat → List ρ → σ → List (Call ρ σ)
  | 0, _, _ | _ + 1, [], _ => []
  | fuel + 1, top :: parents, s =>
    let a := g.onToken e top s
    .token e top s ::
      match a.result with
      | .error _ | .ok none => []
      | .ok (some (.attach rule forward)) =>
        let b := g.push rule (a.subject :: parents) a.session
        .attach rule a.session ::
          match b.result with
          | .error _ => []
          | .ok () => if forward then dispatchCalls e fuel b.subject b.session else []
      | .ok (some (.detach forward)) =>
        if parents.isEmpty then []
        else
          .detach a.subject a.session ::
            match g.onDetach a.subject a.session with
            | (.error _, _) => []
            | (.ok (), s) => if forward then dispatchCalls e fuel parents s else []

/-- The calls by which events are fed. -/
def feedCalls : List Event → List ρ → σ → List (Call ρ σ)
  | [], _, _ => []
  | e :: rest, stack, s =>
    let a := g.dispatch e maxForwards stack s
    g.dispatchCalls e maxForwards stack s ++
      match a.result with
      | .ok () => feedCalls rest a.subject a.session
      | .error _ => []

/-- The calls by which a stack is unwound. -/
def unwindCalls : List ρ → σ → List (Call ρ σ)
  | [], _ => []
  | rule :: rest, s => .detach rule s :: unwindCalls rest (g.onDetach rule s).2

/-- The calls by which a text is read. -/
def calls (symbols : SymbolSet) (root : ρ) (text : String) (s : σ) : List (Call ρ σ) :=
  let stream := Lexer.tokenize symbols text
  let a := g.push root [] s
  let r := g.run root stream s
  .attach root s ::
    ((match a.result with
      | .error _ => []
      | .ok () => g.feedCalls (Event.ofTokens stream.tokens) a.subject a.session) ++
    g.unwindCalls r.stack r.session)

/-- The stacks and sessions that can be reached between the turns of rules, with the calls that led
to them. -/
inductive Reached (root : ρ) (s₀ : σ) : List ρ → σ → List (Call ρ σ) → Prop where
  | root :
    Reached root s₀ (g.push root [] s₀).subject (g.push root [] s₀).session [.attach root s₀]
  /-- A turn after which the stack is as high as before. -/
  | stay {top : ρ} {parents : List ρ} {s : σ} {calls : List (Call ρ σ)} (e : Event)
    (h : Reached root s₀ (top :: parents) s calls)
    (hstay : ∀ change, (g.onToken e top s).result = .ok (some change) →
      parents = [] ∧ ∃ forward, change = .detach forward) :
    Reached root s₀ ((g.onToken e top s).subject :: parents) (g.onToken e top s).session
      (calls ++ [.token e top s])
  | attach {top : ρ} {parents : List ρ} {s : σ} {calls : List (Call ρ σ)} (e : Event) (rule : ρ)
    (forward : Bool) (h : Reached root s₀ (top :: parents) s calls)
    (hask : (g.onToken e top s).result = .ok (some (.attach rule forward))) :
    Reached root s₀
      (g.push rule ((g.onToken e top s).subject :: parents) (g.onToken e top s).session).subject
      (g.push rule ((g.onToken e top s).subject :: parents) (g.onToken e top s).session).session
      (calls ++ [.token e top s, .attach rule (g.onToken e top s).session])
  | detach {top : ρ} {parents : List ρ} {s : σ} {calls : List (Call ρ σ)} (e : Event)
    (forward : Bool) (h : Reached root s₀ (top :: parents) s calls)
    (hask : (g.onToken e top s).result = .ok (some (.detach forward))) :
    Reached root s₀ parents (g.onDetach (g.onToken e top s).subject (g.onToken e top s).session).2
      (calls ++ [.token e top s, .detach (g.onToken e top s).subject (g.onToken e top s).session])
  | unwind {top : ρ} {parents : List ρ} {s : σ} {calls : List (Call ρ σ)}
    (h : Reached root s₀ (top :: parents) s calls) :
    Reached root s₀ parents (g.onDetach top s).2 (calls ++ [.detach top s])

variable {g} {root : ρ} {s₀ : σ}

theorem Reached.dispatch (e : Event) (fuel : Nat) {stack : List ρ} {s : σ}
    {calls : List (Call ρ σ)} (h : g.Reached root s₀ stack s calls) :
    g.Reached root s₀ (g.dispatch e fuel stack s).subject (g.dispatch e fuel stack s).session
      (calls ++ g.dispatchCalls e fuel stack s) := by
  induction fuel generalizing stack s calls with
  | zero => simpa [Grammar.dispatch, dispatchCalls] using h
  | succ fuel ih =>
    cases stack with
    | nil => simpa [Grammar.dispatch, dispatchCalls] using h
    | cons top parents =>
      simp only [Grammar.dispatch, dispatchCalls]
      cases ha : (g.onToken e top s).result with
      | error d => exact h.stay e (by simp [ha])
      | ok control =>
        rcases control with _ | ⟨rule, forward⟩ | ⟨forward⟩
        · exact h.stay e (by simp [ha])
        · have hb := h.attach e rule forward ha
          simp only
          cases hr : (g.push rule ((g.onToken e top s).subject :: parents)
              (g.onToken e top s).session).result with
          | error d => exact hb
          | ok u =>
            cases forward with
            | false => exact hb
            | true => simpa using ih hb
        · cases parents with
          | nil => exact h.stay e (by simp [ha])
          | cons parent parents =>
            have hd := h.detach e forward ha
            simp only [List.isEmpty_cons, Bool.false_eq_true, if_false]
            rcases hr : g.onDetach (g.onToken e top s).subject (g.onToken e top s).session with
              ⟨_ | _, s'⟩
            · rw [hr] at hd; exact hd
            · rw [hr] at hd
              cases forward with
              | false => exact hd
              | true => simpa using ih hd

theorem Reached.feed (events : List Event) {r : Run ρ σ} {calls : List (Call ρ σ)}
    (h : g.Reached root s₀ r.stack r.session calls) :
    g.Reached root s₀ (g.feed events r).stack (g.feed events r).session
      (calls ++ g.feedCalls events r.stack r.session) := by
  induction events generalizing r calls with
  | nil => simpa [Grammar.feed, feedCalls] using h
  | cons e rest ih =>
    have hd := h.dispatch e maxForwards
    simp only [Grammar.feed, feedCalls]
    cases (g.dispatch e maxForwards r.stack r.session).result with
    | error d => simpa using hd
    | ok u =>
      rw [← List.append_assoc]
      exact ih (r := ⟨_, _, e.position, none⟩) hd

theorem Reached.unwindAll {stack : List ρ} {s : σ} {calls : List (Call ρ σ)} (p : Position)
    (failure : Option Failure) (h : g.Reached root s₀ stack s calls) :
    g.Reached root s₀ [] (g.unwind stack s p failure).2 (calls ++ g.unwindCalls stack s) := by
  induction stack generalizing s calls failure with
  | nil => simpa [Grammar.unwind, unwindCalls] using h
  | cons top parents ih =>
    simp only [Grammar.unwind, unwindCalls]
    rw [List.append_cons]
    exact ih _ h.unwind

/-- A text is read by calls that lead to an empty stack. -/
theorem reached_calls (symbols : SymbolSet) (root : ρ) (text : String) (s : σ) :
    g.Reached root s [] (g.parse symbols root text s).2 (g.calls symbols root text s) := by
  simp only [Grammar.parse, calls, Grammar.run]
  rw [← List.singleton_append, ← List.append_assoc]
  cases h : (g.push root [] s).result with
  | error d => simpa using Reached.root.unwindAll _ _
  | ok u =>
    exact (Reached.feed _ (r := ⟨_, _, ⟨0, 0⟩, none⟩) Reached.root).unwindAll _ _

/-! ## Readings without a failure -/

/-- Whether no token was refused. -/
def Call.Accepted (g : Grammar ρ γ σ) : Call ρ σ → Prop
  | .token e rule s => ∃ control, (g.onToken e rule s).result = .ok control
  | _ => True

theorem dispatchCalls_accepted {e : Event} {fuel : Nat} {stack : List ρ} {s : σ}
    (h : (g.dispatch e fuel stack s).result = .ok ()) :
    ∀ call ∈ g.dispatchCalls e fuel stack s, call.Accepted g := by
  induction fuel generalizing stack s with
  | zero => cases h
  | succ fuel ih =>
    cases stack with
    | nil => exact fun _ hc => absurd hc List.not_mem_nil
    | cons top parents =>
      simp only [Grammar.dispatch] at h
      simp only [dispatchCalls]
      cases ha : (g.onToken e top s).result with
      | error d => simp [ha] at h
      | ok control =>
        simp only [ha] at h
        refine List.forall_mem_cons.2 ⟨⟨control, ha⟩, ?_⟩
        rcases control with _ | ⟨rule, forward⟩ | ⟨forward⟩
        · exact fun _ hc => absurd hc List.not_mem_nil
        · refine List.forall_mem_cons.2 ⟨trivial, ?_⟩
          cases hb : (g.push rule ((g.onToken e top s).subject :: parents)
              (g.onToken e top s).session).result with
          | error d => simp [hb] at h
          | ok u =>
            simp only [hb] at h
            cases forward with
            | false => exact fun _ hc => absurd hc List.not_mem_nil
            | true => exact ih h
        · cases parents with
          | nil => cases h
          | cons parent parents =>
            refine List.forall_mem_cons.2 ⟨trivial, ?_⟩
            rcases hd : g.onDetach (g.onToken e top s).subject (g.onToken e top s).session with
              ⟨_ | _, s'⟩
            · simp [hd] at h
            · simp only [hd] at h
              cases forward with
              | false => exact fun _ hc => absurd hc List.not_mem_nil
              | true => exact ih h

theorem feedCalls_accepted {events : List Event} {r : Run ρ σ}
    (h : (g.feed events r).failure = none) :
    ∀ call ∈ g.feedCalls events r.stack r.session, call.Accepted g := by
  induction events generalizing r with
  | nil => exact fun _ hc => absurd hc List.not_mem_nil
  | cons e rest ih =>
    simp only [Grammar.feed] at h
    simp only [feedCalls]
    cases ha : (g.dispatch e maxForwards r.stack r.session).result with
    | error d => simp [ha] at h
    | ok u =>
      simp only [ha] at h
      exact List.forall_mem_append.2 ⟨dispatchCalls_accepted ha, ih h⟩

theorem unwindCalls_accepted (stack : List ρ) (s : σ) :
    ∀ call ∈ g.unwindCalls stack s, call.Accepted g := by
  induction stack generalizing s with
  | nil => exact fun _ hc => absurd hc List.not_mem_nil
  | cons rule rest ih => exact List.forall_mem_cons.2 ⟨trivial, ih _⟩

/-- A failure is kept while the stack is unwound. -/
theorem unwind_failure {stack : List ρ} {s : σ} {p : Position} {failure : Option Failure}
    (h : (g.unwind stack s p failure).1 = none) : failure = none := by
  induction stack generalizing s failure with
  | nil => exact h
  | cons rule rest ih =>
    have hkept := ih h
    cases failure with
    | none => rfl
    | some failure => cases hkept

/-- Where reading has not failed, no token was refused. -/
theorem calls_accepted {symbols : SymbolSet} {text : String} {s : σ}
    (h : (g.parse symbols root text s).1 = none) :
    ∀ call ∈ g.calls symbols root text s, call.Accepted g := by
  have hrun := unwind_failure h
  simp only [Grammar.run] at hrun
  simp only [calls]
  refine List.forall_mem_cons.2
    ⟨trivial, List.forall_mem_append.2 ⟨?_, unwindCalls_accepted _ _⟩⟩
  cases ha : (g.push root [] s).result with
  | error d => simp [ha] at hrun
  | ok u =>
    simp only [ha] at hrun
    refine feedCalls_accepted (r := ⟨_, _, ⟨0, 0⟩, none⟩) ?_
    exact (Option.or_eq_none_iff.1 (Option.or_eq_orElse.trans hrun)).1

end MotionScript.Grammar
