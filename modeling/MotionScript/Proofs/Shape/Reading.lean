import MotionScript.Proofs.RuleStack.Unwinding
import MotionScript.Proofs.Shape.Failures
import MotionScript.Proofs.Shape.Looks
/-!
# The stack while a document is read

At every moment of every reading the stack has the shape of the grammar. So the rules never fail for
a reason that is not in the text, and a token is handed to three rules at most.
-/

namespace MotionScript

variable {η : Type} [Host η]

/-! ## Calls of the rules of the document language -/

theorem Frame.passes_le (f : Frame) : f.passes ≤ 2 := by
  cases f <;> simp only [passes] <;> first | decide | (split <;> decide)

namespace Grammar

theorem document_error {e : Event} {f : Frame} {s : Session η} {d : Diagnostic}
    (h : f.react e s = .error d) :
    (document η).hooks.onToken e f s = (⟨f, s, .error d⟩, none) := by
  simp only [hooks, document, Frame.onToken, h]
  rfl

theorem document_ok {e : Event} {f f' : Frame} {s s' : Session η} {control : Control Frame}
    (h : f.react e s = .ok (f', s', control)) :
    (document η).hooks.onToken e f s = (⟨f', s', .ok ()⟩, control) := by
  simp only [hooks, document, Frame.onToken, h]
  rfl

end Grammar

/-- What holds at every moment of a reading: the stack has its shape, what was asked for can be done,
and the event can be handed on only so often that three rules get it at most. -/
structure Sane (η : Type) [Host η] (notes : Notes Frame) : Prop where
  shaped : Shaped (notes.stack.map (·.rule))
  faults : ∀ failure ∈ notes.faults, ¬ failure.diagnostic.Internal
  idle : notes.asked? = none → ∀ top parents, notes.stack = top :: parents →
    notes.handed + top.rule.passes ≤ 2
  attach : ∀ g forward, notes.asked? = some (.attach g forward) → notes.handed + g.passes ≤ 2 ∧
    ∀ top parents, notes.stack = top :: parents → Attachable η g top.rule (parents.map (·.rule))
  detach : ∀ forward, notes.asked? = some (.detach forward) → ∃ top next parents,
    notes.stack = top :: next :: parents ∧ notes.handed + next.rule.passes ≤ 2

theorem Sane.handed_le {notes : Notes Frame} (h : Sane η notes) : notes.handed ≤ 2 := by
  have hne : notes.stack ≠ [] := by
    intro hs
    have hbottom := h.shaped.bottom
    simp [hs] at hbottom
  obtain ⟨top, parents, hs⟩ := List.exists_cons_of_ne_nil hne
  rcases ha : notes.asked? with _ | ⟨g, forward⟩ | forward
  · exact Nat.le_of_add_right_le (h.idle ha top parents hs)
  · exact Nat.le_of_add_right_le (h.attach g forward ha).1
  · obtain ⟨_, _, _, _, hle⟩ := h.detach forward ha
    exact Nat.le_of_add_right_le hle

section

variable {notes : Notes Frame} {s s' : Session η} {n : Nat} {f f' : Frame}
  {parents : List (Numbered Frame)}

/-- The moment after a rule has failed. -/
theorem Sane.error (h : Sane η notes) (top : notes.stack = ⟨n, f⟩ :: parents)
    (quiet : notes.faults = []) {e : Event} {d : Diagnostic} (hr : f.react e s = .error d) :
    Sane η (notes ++ [.token n e f none (.error d)]) := by
  have hshaped : Shaped (f :: parents.map (·.rule)) := by simpa [top] using h.shaped
  have hd : ¬ d.Internal := (hshaped.failsAt e s d hr).not_internal
  refine ⟨by simpa [Note.next, top] using hshaped, ?_, fun _ top parents _ => ?_, ?_, ?_⟩
  · intro failure hf
    have hfault : notes.fault? (.token n e f none (.error d)) = some d := rfl
    obtain rfl : failure = _ := by simpa [quiet, hfault] using hf
    exact hd
  · simpa [Note.handed] using top.rule.passes_le
  · simp [Note.asked?]
  · simp [Note.asked?]

/-- The moment after a rule has handled a token. -/
theorem Sane.ok (h : Sane η notes) (top : notes.stack = ⟨n, f⟩ :: parents)
    (quiet : notes.faults = []) (idle : notes.asked? = none) {e : Event} {control : Control Frame}
    (hr : f.react e s = .ok (f', s', control)) :
    Sane η (notes ++ [.token n e f' control (.ok ())]) := by
  have hshaped : Shaped (f :: parents.map (·.rule)) := by simpa [top] using h.shaped
  have hturn := hshaped.turn hr
  have hle : notes.handed + f.passes ≤ 2 := h.idle idle _ _ top
  have hstack : Notes.stack (notes ++ [.token n e f' control (.ok ())]) = ⟨n, f'⟩ :: parents := by
    simp [Note.next, top]
  have hfault : notes.fault? (.token n e f' control (.ok ())) = none := by
    rcases control with _ | ⟨g, forward⟩ | forward
    · rfl
    · rfl
    · obtain ⟨next, rest, hbelow, -⟩ := hshaped.detach hr
      have hlength := congrArg List.length hbelow
      simp only [List.length_map, List.length_cons] at hlength
      simp [Notes.fault?, Notes.check?, Note.error?, Note.result, top, hlength]
  refine ⟨by simpa [hstack] using hturn, by simp [quiet, hfault], ?_, ?_, ?_⟩
  · intro hask t ps _
    have hcontrol : control = none := by simpa [Note.asked?] using hask
    subst hcontrol
    simpa [Note.handed] using t.rule.passes_le
  · intro g forward hask
    have hcontrol : control = some (.attach g forward) := by simpa [Note.asked?] using hask
    subst hcontrol
    obtain ⟨hattach, hpasses⟩ := hshaped.attach hr
    refine ⟨?_, fun t ps hs => ?_⟩
    · cases forward with
      | false => simpa [Note.handed, Change.forwards] using g.passes_le
      | true =>
        have hlt := hpasses rfl
        simp only [Notes.handed_concat, Note.handed, Change.forwards, if_true]
        omega
    · rw [hstack] at hs
      cases hs
      exact hattach
  · intro forward hask
    have hcontrol : control = some (.detach forward) := by simpa [Note.asked?] using hask
    subst hcontrol
    obtain ⟨next, rest, hbelow, hpasses⟩ := hshaped.detach hr
    obtain ⟨parent, parents, rfl, rfl, rfl⟩ := List.map_eq_cons_iff.1 hbelow
    refine ⟨_, _, _, hstack, ?_⟩
    cases forward with
    | false => simpa [Note.handed, Change.forwards] using parent.rule.passes_le
    | true =>
      have hlt := hpasses rfl
      simp only [Notes.handed_concat, Note.handed, Change.forwards, if_true]
      omega

/-- The moment after a rule has been attached or detached without failing. -/
theorem Sane.changed (h : Sane η notes) {note : Note Frame}
    (hresult : note.result = .ok ()) (hask : note.asked? = none)
    (hhanded : note.handed notes.handed = notes.handed)
    (hcheck : notes.check? note =
      if notes.handed = Grammar.maxForwards then notes.event?.map Grammar.handedTooOften else none)
    (hstack : Shaped ((Notes.stack (notes ++ [note])).map (·.rule)))
    (hle : ∀ top parents, Notes.stack (notes ++ [note]) = top :: parents →
      notes.handed + top.rule.passes ≤ 2) :
    Sane η (notes ++ [note]) := by
  have hfault : notes.fault? note = none := by
    have hfew : notes.handed ≠ Grammar.maxForwards := by
      have := h.handed_le
      rw [Grammar.maxForwards]
      omega
    simp [Notes.fault?, Note.error?, hresult, hcheck, hfew]
  refine ⟨hstack, by simpa [hfault] using h.faults, fun _ top parents hs => ?_, ?_, ?_⟩
  · rw [Notes.handed_concat, hhanded]
    exact hle top parents hs
  · simp [hask]
  · simp [hask]

end

theorem Hooks.Course.sane {s₀ s : Session η} {notes : Notes Frame}
    (hc : (Grammar.document η).hooks.Course .document s₀ notes s) : Sane η notes := by
  induction hc with
  | root hook =>
    cases hook
    refine ⟨.document, ?_, fun _ top parents hs => ?_, ?_, ?_⟩
    · rintro failure ⟨⟩
    · cases hs
      exact Nat.le_succ 1
    · rintro g forward ⟨⟩
    · rintro forward ⟨⟩
  | @token notes s n f parents e a change before top quiet idle event hook ih =>
    cases hr : f.react e s with
    | error d =>
      rw [Grammar.document_error hr] at hook
      cases hook
      exact ih.error top quiet hr
    | ok out =>
      rw [Grammar.document_ok hr] at hook
      cases hook
      exact ih.ok top quiet idle hr
  | @attach notes s n below g parents forward a before top asked hook ih =>
    obtain ⟨hle, hattach⟩ := ih.attach g forward asked
    obtain ⟨g', hg, hpasses, hshaped⟩ := hattach _ _ top s
    have hook' : a = ⟨g', s, .ok ()⟩ := hook.symm.trans hg
    subst hook'
    refine ih.changed rfl rfl rfl rfl (by simpa [top, Note.next] using hshaped) fun t ps hs => ?_
    simp only [Notes.stack_concat, Note.next, List.cons.injEq] at hs
    rw [← hs.1, hpasses]
    exact hle
  | @detach notes s t n f parent parents forward result before top asked hook ih =>
    obtain ⟨_, next, rest, hs, hle⟩ := ih.detach forward asked
    cases hook
    have hshaped : Shaped (f :: parent.rule :: parents.map (·.rule)) := by
      simpa [top] using ih.shaped
    have htail : Shaped (parent.rule :: parents.map (·.rule)) :=
      hshaped.tail.resolve_left (by simp)
    refine ih.changed rfl rfl rfl rfl (by simpa [top, Note.next] using htail) fun t ps hs' => ?_
    rw [top] at hs
    simp only [Notes.stack_concat, Note.next, top, List.tail_cons, List.cons.injEq] at hs hs'
    rw [← hs'.1, hs.2.1]
    exact hle

/-! ## Unwinding -/

/-- Unwinding a stack of the right shape keeps the shape, until nothing is left of it. -/
theorem unwinding_shaped {stack : List (Numbered Frame)} {notes : Notes Frame} (s : Session η)
    (hs : notes.stack = stack) (hshaped : stack ≠ [] → Shaped (stack.map (·.rule)))
    {before : Notes Frame}
    (hp : before <+: notes ++ (Grammar.document η).hooks.unwinding stack s) :
    before <+: notes ∨ (before.handed = notes.handed ∧
      (before ≠ notes ++ (Grammar.document η).hooks.unwinding stack s →
        Shaped (before.stack.map (·.rule)))) := by
  induction stack generalizing notes s with
  | nil => exact .inl (by simpa [Hooks.unwinding] using hp)
  | cons top parents ih =>
    have hparents : parents ≠ [] → Shaped (parents.map (·.rule)) := fun hne =>
      (hshaped (by simp)).tail.resolve_left (by simpa using hne)
    rw [Hooks.unwinding, List.append_cons] at hp ⊢
    rcases ih _ (by simp [hs, Note.next]) hparents hp with hp | ⟨hhanded, hrest⟩
    · rcases List.prefix_concat_iff.1 hp with rfl | hp
      · right
        refine ⟨by simp [Note.handed], fun hne => ?_⟩
        have hne' : parents ≠ [] := by
          rintro rfl
          simp [Hooks.unwinding] at hne
        simpa [hs, Note.next] using hparents hne'
      · exact .inl hp
    · exact .inr ⟨by simpa [Note.handed] using hhanded, hrest⟩

theorem unwinding_ok (stack : List (Numbered Frame)) (s : Session η) :
    ((Grammar.document η).hooks.unwinding stack s).filterMap Note.error? = [] := by
  induction stack generalizing s with
  | nil => rfl
  | cons top parents ih => exact ih _

/-! ## Readings of documents -/

theorem Lexer.Stuck.failure_not_internal (stuck : Lexer.Stuck) (start : Nat) (p : Position)
    (cs : List Char) : ¬ (stuck.failure start p cs).diagnostic.Internal := by
  have hcode : (stuck.failure start p cs).diagnostic.code = some stuck.fault.code := rfl
  have hmessage : (stuck.failure start p cs).diagnostic.message = stuck.fault.message := rfl
  rw [Diagnostic.Internal, hcode, hmessage]
  cases stuck.fault with
  | unterminatedString quote =>
    rw [Lexer.Fault.code, Lexer.Fault.message]
    decide
  | _ => decide

theorem Lexer.streamFrom_failure (symbols : SymbolSet) (cs : List Char) (offset : Nat)
    (p : Position) {failure : Failure}
    (h : (Lexer.streamFrom symbols cs offset p).failure = some failure) :
    ¬ failure.diagnostic.Internal := by
  fun_induction Lexer.streamFrom symbols cs offset p with
  | case1 => cases h
  | case2 => cases h; exact Lexer.Stuck.failure_not_internal _ _ _ _
  | case3 => rename_i ih; exact ih h

namespace Document

/-- The reading of a document, noted down. -/
def noted (source name : String) (host : η) : Option Failure × Noted Frame (Session η) :=
  (Grammar.document η).hooks.notedGrammar.parse .document (.new .document) source
    ⟨{ controller := { name }, host }, []⟩

/-- Noting changes nothing about the reading. -/
theorem noted_eq (source name : String) (host : η) :
    ((noted source name host).1, (noted source name host).2.session) =
      (Grammar.document η).parse .document .document source { controller := { name }, host } := by
  obtain ⟨h1, h2⟩ := Hooks.parse_noted (h := (Grammar.document η).hooks) .document Frame.document
    source { controller := { name }, host }
  rw [Grammar.hooks_grammar] at h1 h2
  exact Prod.ext h1 h2

end Document

/-- Every beginning of the notes of a run is a sane moment. -/
theorem notedRun_sane (source : String) (s : Session η) {notes : Notes Frame}
    (hp : notes <+:
      ((Grammar.document η).hooks.notedRun .document .document source s).session.notes)
    (hne : notes ≠ []) : Sane η notes := by
  obtain ⟨hm, -⟩ := (Grammar.document η).hooks.run_course .document
    (Lexer.tokenize .document source) s
  obtain ⟨t, hc⟩ := hm.course.of_prefix hp hne
  exact hc.sane

/-- Every beginning of the notes of a reading is a moment with a stack of the right shape. -/
theorem noted_shaped (source name : String) (host : η) {notes : Notes Frame}
    (hp : notes <+: (Document.noted source name host).2.notes) :
    notes.handed ≤ 2 ∧ (notes ≠ [] → notes ≠ (Document.noted source name host).2.notes →
      Shaped (notes.stack.map (·.rule))) := by
  obtain ⟨hm, -⟩ := (Grammar.document η).hooks.run_course .document
    (Lexer.tokenize .document source) { controller := { name }, host }
  have hall := (Grammar.document η).hooks.parse_notes .document .document source
    { controller := { name }, host }
  rw [Document.noted, hall] at hp ⊢
  have hend : Sane η _ := hm.course.sane
  rcases unwinding_shaped _ hm.stack (fun _ => hm.stack ▸ hend.shaped) hp with hb | ⟨hhanded, hrest⟩
  · rcases eq_or_ne notes [] with rfl | hne
    · exact ⟨Nat.zero_le 2, fun hne => absurd rfl hne⟩
    · have hsane := notedRun_sane source _ hb hne
      exact ⟨hsane.handed_le, fun _ _ => hsane.shaped⟩
  · exact ⟨hhanded ▸ hend.handed_le, fun _ => hrest⟩

/-- No document ends with an internal error. -/
theorem read_not_internal {source name : String} {host : η} {failure : Failure}
    (h : (Document.read source name host).1 = .error failure) :
    ¬ failure.diagnostic.Internal := by
  have hparse : ((Grammar.document η).parse .document Frame.document source
      { controller := { name }, host }).1 = some failure := by
    unfold Document.read at h
    split at h
    rename_i result s hresult
    cases result with
    | none => cases h
    | some failure' =>
      cases h
      rw [hresult]
  have hfirst := (Grammar.document η).hooks.parse_failure .document .document source
    { controller := { name }, host }
  rw [Grammar.hooks_grammar, hparse, unwinding_ok, List.map_nil, List.append_nil] at hfirst
  rcases List.mem_append.1 (List.mem_of_mem_head? hfirst.symm) with hf | hf
  · obtain ⟨hm, -⟩ := (Grammar.document η).hooks.run_course .document
      (Lexer.tokenize .document source) { controller := { name }, host }
    have hend : Sane η _ := hm.course.sane
    exact hend.faults failure hf
  · exact Lexer.streamFrom_failure _ _ _ _ (Option.mem_toList.1 hf)

/-- At every moment of every reading the stack has the shape of the grammar: the document, on it a
parameter declaration or a layer with machines nested in it, and on the innermost machine a
statement, a record or a state, which may carry a statement, a record or motions. Every rule below
the top has declared what it stands for and every scope names the innermost machine and state. So a
token is handed on at most twice, no document ends with an internal error, and a statement looks at
a token at most twice, however often it might. -/
theorem stack_shaped (source name : String) (host : η) :
    ((Document.noted source name host).1, (Document.noted source name host).2.session) =
      (Grammar.document η).parse .document .document source { controller := { name }, host } ∧
    (∀ notes : Notes Frame, notes <+: (Document.noted source name host).2.notes →
      notes.handed ≤ 2 ∧
      (notes ≠ [] → notes ≠ (Document.noted source name host).2.notes →
        Shaped (notes.stack.map (·.rule)) ∧ InPlace (notes.stack.map (·.rule)))) ∧
    (∀ failure, (Document.read source name host).1 = .error failure →
      ¬ failure.diagnostic.Internal) ∧
    ∀ (e : Event) (s : Session η) (fuel : Nat) (r : TransitionRule),
      r.looks e fuel ≤ 2 ∧ r.lookAgain e s (fuel + 2) = r.lookAgain e s 2 := by
  refine ⟨Document.noted_eq source name host, fun notes hp => ?_, fun failure hf => ?_,
    fun e s fuel r => ⟨r.looks_le e fuel, r.lookAgain_enough e s fuel⟩⟩
  · obtain ⟨hhanded, hshaped⟩ := noted_shaped source name host hp
    exact ⟨hhanded, fun hne hend => ⟨hshaped hne hend, (hshaped hne hend).inPlace⟩⟩
  · exact read_not_internal hf

end MotionScript
