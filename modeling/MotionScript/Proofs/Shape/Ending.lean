import MotionScript.Host.Memory
import MotionScript.Proofs.Linking.Complete
import MotionScript.Proofs.Shape.Reading
/-!
# The end of a text

Rules leave the stack at the token that closes what they stand for. Those that are left when the
text ends are detached then, as if they had been closed, and that is no error.
-/

namespace MotionScript

variable {η : Type} [Host η]

/-! ## Closing tokens -/

/-- Whether a token closes what a rule stands for: the brace of a layer, a machine or a state, and
the semicolon of anything else. A blend tree is closed by its brace and leaves at a later token. -/
def Frame.ClosedBy (e : Event) : Frame → Prop
  | .machine (.named _ .item) | .state (.named _ _ .item) => e.isSymbol '}' = true
  | .parameter _ | .transition _ | .record (.body _ .stop) => e.isSymbol ';' = true
  | .motion r => e.isSymbol ';' = true ∨ r.closedTree = true
  | _ => False

theorem ParameterRule.Move.closed {e : Event} {s s' : Session η} {r r' : ParameterRule}
    {forward : Bool} (h : Move e s r r' s' (some (.detach forward))) :
    (Frame.parameter r').ClosedBy e := by
  cases h with
  | unnamed _ he | declare _ he => exact he

theorem MachineRule.Move.closed {e : Event} {s s' : Session η} {r r' : MachineRule}
    {forward : Bool} (h : Move e s r r' s' (some (.detach forward))) :
    (Frame.machine r').ClosedBy e := by
  cases h with
  | close m he => exact he

theorem StateRule.Move.closed {e : Event} {s s' : Session η} {r r' : StateRule}
    {forward : Bool} (h : Move e s r r' s' (some (.detach forward))) :
    (Frame.state r').ClosedBy e := by
  cases h with
  | close scope id he => exact he

theorem MotionRule.Move.closed {e : Event} {s s' : Session η} {r r' : MotionRule}
    {forward : Bool} (h : Move e s r r' s' (some (.detach forward))) :
    (Frame.motion r').ClosedBy e := by
  cases h with
  | detach _ _ he => exact he

theorem RecordRule.Move.closed {e : Event} {s s' : Session η} {r r' : RecordRule}
    {forward : Bool} (h : Move e s r r' s' (some (.detach forward))) :
    (Frame.record r').ClosedBy e := by
  cases h with
  | stop r he => exact he

/-- A rule asks to be detached only at a token that closes what it stands for. -/
theorem Frame.react_closed {e : Event} {s s' : Session η} {f f' : Frame} {forward : Bool}
    (h : f.react e s = .ok (f', s', some (.detach forward))) : f'.ClosedBy e := by
  cases react_move h with
  | parameter h => exact h.closed
  | machine h => exact h.closed
  | state h => exact h.closed
  | transition h =>
    obtain ⟨-, -, ⟨-, ⟨⟩⟩ | ⟨-, he⟩⟩ := TransitionRule.react_ok h
    exact he
  | motion h => exact h.closed
  | record h => exact h.closed

/-! ## Cutting a document off -/

namespace Grammar

variable {ρ γ σ : Type} {g : Grammar ρ γ σ}

/-- If all events can be fed, so can the first ones. -/
theorem feed_prefix {first all : List Event} (hp : first <+: all) {r : Run ρ σ}
    (hr : r.failure = none) (h : (g.feed all r).failure = none) :
    (g.feed first r).failure = none := by
  induction first generalizing all r with
  | nil => exact hr
  | cons e first ih =>
    obtain ⟨more, rfl⟩ := hp
    rw [List.cons_append, feed] at h
    rw [feed]
    cases hd : (g.dispatch e maxForwards r.stack r.session).result with
    | error d => simp [hd] at h
    | ok u =>
      simp only [hd] at h
      exact ih (List.prefix_append first more) rfl h

end Grammar

/-- The first tokens of a document make up its first events. -/
theorem Event.ofTokensFrom_prefix {first all : List Token} (hp : first <+: all)
    (row : Option Nat) (indent : Nat) :
    Event.ofTokensFrom row indent first <+: Event.ofTokensFrom row indent all := by
  induction first generalizing all row indent with
  | nil => exact List.nil_prefix
  | cons t first ih =>
    obtain ⟨more, rfl⟩ := hp
    simp only [List.cons_append, Event.ofTokensFrom]
    exact (List.prefix_append_right_inj _).2 (ih (List.prefix_append first more) _ _)

/-! ## Reading to the end -/

theorem Grammar.document_unwind (stack : List Frame) (s : Session η) (p : Position)
    (failure : Option Failure) :
    ((Grammar.document η).unwind stack s p failure).1 = failure := by
  induction stack generalizing s failure with
  | nil => rfl
  | cons top parents ih =>
    rw [unwind, ih]
    cases failure <;> rfl

theorem Grammar.document_run (stream : Lexer.Stream) (s : Session η) :
    ((Grammar.document η).run .document stream s).failure =
      (((Grammar.document η).feed (Event.ofTokens stream.tokens)
        ⟨[.document], (Frame.document.onAttach none s).session, ⟨0, 0⟩, none⟩).failure <|>
          stream.failure) := rfl

namespace Document

/-- Where the rules stand when the last token has been handled. -/
def notedRun (source name : String) (host : η) :
    Grammar.Run (Numbered Frame) (Noted Frame (Session η)) :=
  (Grammar.document η).hooks.notedRun .document .document source { controller := { name }, host }

theorem notedRun_failure (source name : String) (host : η) :
    (notedRun source name host).failure =
      ((Grammar.document η).run .document (Lexer.tokenize .document source)
        { controller := { name }, host }).failure := by
  have h := (Hooks.erases_run (h := (Grammar.document η).hooks) .document
    (Lexer.tokenize .document source) { controller := { name }, host }).failure
  rwa [Grammar.hooks_grammar] at h

/-- The end of a text is no error: only its tokens can be. -/
theorem isOk_iff (source name : String) (host : η) :
    (Document.read source name host).1.isOk ↔ (notedRun source name host).failure = none := by
  rw [notedRun_failure]
  simp only [Document.read, Grammar.parse]
  generalize Grammar.run _ _ _ _ = r
  have hfailure := Grammar.document_unwind r.stack r.session r.position r.failure
  generalize Grammar.unwind _ _ _ _ _ = out at hfailure
  obtain ⟨failure, s⟩ := out
  rw [← hfailure]
  cases failure <;> simp [Except.isOk, Except.toBool]

/-- A document that is cut off behind one of its tokens can be read if the whole can. -/
theorem cut_isOk {source cut : String} (name : String) (host : η)
    (hp : (Lexer.tokenize .document cut).tokens <+: (Lexer.tokenize .document source).tokens)
    (hcut : (Lexer.tokenize .document cut).failure = none)
    (h : (Document.read source name host).1.isOk) : (Document.read cut name host).1.isOk := by
  rw [isOk_iff, notedRun_failure] at h ⊢
  have hfeed {r : Grammar.Run Frame (Session η)} (hr : r.failure = none)
      (hall : ((Grammar.document η).feed
        (Event.ofTokens (Lexer.tokenize .document source).tokens) r).failure = none) :
      ((Grammar.document η).feed
        (Event.ofTokens (Lexer.tokenize .document cut).tokens) r).failure = none :=
    Grammar.feed_prefix (Event.ofTokensFrom_prefix hp none 0) hr hall
  rw [Grammar.document_run] at h ⊢
  rw [hcut, hfeed rfl]
  · rfl
  · revert h
    cases Grammar.Run.failure _ <;> simp

end Document

/-- Where the notes of a reading are when the last token has been handled. -/
theorem Document.notedRun_at (source name : String) (host : η) :
    (Grammar.document η).hooks.At .document { controller := { name }, host }
      (Document.notedRun source name host).stack (Document.notedRun source name host).session :=
  ((Grammar.document η).hooks.run_course .document (Lexer.tokenize .document source)
    { controller := { name }, host }).1

/-- A rule that is detached while a text is read has been closed by the token it has just
handled. -/
theorem Hooks.Course.closed {s₀ s : Session η} {notes before after : Notes Frame} {n : Nat}
    {f : Frame} {result : Except Diagnostic Unit}
    (hc : (Grammar.document η).hooks.Course .document s₀ notes s)
    (heq : notes = before ++ .detach n f result :: after) :
    ∃ earlier e forward, before = earlier ++ [.token n e f (some (.detach forward)) (.ok ())] ∧
      f.ClosedBy e := by
  have hp : before ++ [.detach n f result] <+: notes :=
    ⟨after, by rw [heq, List.append_assoc, List.singleton_append]⟩
  obtain ⟨t, hc⟩ := hc.of_prefix hp (by simp)
  obtain ⟨earlier, e, forward, rfl, below, t, u, hook⟩ := hc.detached_asked
  refine ⟨earlier, e, forward, rfl, ?_⟩
  cases hr : below.react e t with
  | error d => rw [Grammar.document_error hr] at hook; cases hook
  | ok out =>
    obtain ⟨f', s', control⟩ := out
    rw [Grammar.document_ok hr] at hook
    cases hook
    exact Frame.react_closed hr

/-- The document is alone on the stack if every other rule has been detached. -/
theorem Hooks.Course.alone_iff {s₀ s : Session η} {notes : Notes Frame}
    (hc : (Grammar.document η).hooks.Course .document s₀ notes s) :
    notes.stack.map (·.rule) = [.document] ↔
      ∀ n ∈ notes.attached, n ≠ 0 → n ∈ notes.detached := by
  have hroot := hc.regular.on_stack.2 hc.root_stays
  constructor
  · intro halone n hn hne
    by_contra hd
    obtain ⟨r, hr, -⟩ := List.map_eq_singleton_iff.1 halone
    have hmem := hc.regular.on_stack.2 ⟨hn, hd⟩
    simp only [hr, List.map_cons, List.map_nil, List.mem_singleton] at hmem hroot
    exact hne (hmem.trans hroot.symm)
  · intro hall
    have hzero : ∀ n ∈ notes.stack.map (·.number), n = 0 := by
      intro n hn
      obtain ⟨ha, hd⟩ := hc.regular.on_stack.1 hn
      by_contra hne
      exact hd (hall n ha hne)
    have hsorted := hc.regular.sorted
    have hbottom := hc.sane.shaped.bottom
    match hs : notes.stack with
    | [] => simp [hs] at hroot
    | [r] => simpa [hs] using hbottom
    | r :: q :: rest =>
      -- Two rules on the stack have different numbers.
      rw [hs] at hzero hsorted
      have hlt : r.number > q.number := List.rel_of_pairwise_cons hsorted List.mem_cons_self
      have hr : r.number = 0 := hzero _ (by simp)
      omega

/-- A rule leaves the stack at the token that closes what it stands for. Those left when the last
token has been handled are just the ones that have not left so, and the document alone is left if
and only if everything else has. The end of the text detaches them, top first, which means for each
what its end would have meant, and is no error. So a document that can be read can also be read if
it is cut off behind any of its tokens. -/
theorem left_open (source name : String) (host : η) :
    let run := Document.notedRun source name host
    let reading := run.session.notes
    (∀ (before : Notes Frame) n f result after, reading = before ++ .detach n f result :: after →
      ∃ earlier e forward, before = earlier ++ [.token n e f (some (.detach forward)) (.ok ())] ∧
        f.ClosedBy e) ∧
    (∀ n, n ∈ run.stack.map (·.number) ↔ n ∈ reading.attached ∧ n ∉ reading.detached) ∧
    (run.stack.map (·.rule) = [.document] ↔ ∀ n ∈ reading.attached, n ≠ 0 → n ∈ reading.detached) ∧
    (∃ ends : Notes Frame, (Document.noted source name host).2.notes = reading ++ ends ∧
      ends.map Note.detached? = run.stack.map fun r => some r.number) ∧
    (Document.noted source name host).2.session =
      run.stack.foldl (fun s r => r.rule.close s) run.session.session ∧
    ((Document.read source name host).1.isOk ↔ run.failure = none) ∧
    ∀ cut, (Lexer.tokenize .document cut).tokens <+: (Lexer.tokenize .document source).tokens →
      (Lexer.tokenize .document cut).failure = none → (Document.read source name host).1.isOk →
        (Document.read cut name host).1.isOk := by
  have hm := Document.notedRun_at source name host
  refine ⟨fun before n f result after heq => hm.course.closed heq, fun n => ?_, ?_, ?_, ?_,
    Document.isOk_iff source name host, fun cut hp hcut h => Document.cut_isOk name host hp hcut h⟩
  · rw [← hm.stack]
    exact hm.course.regular.on_stack
  · rw [← hm.stack]
    exact hm.course.alone_iff
  · exact ⟨_, Hooks.parse_notes _ .document Frame.document source _, Hooks.unwinding_detached _ _ _⟩
  · exact Hooks.unwind_session _ _ _ _ _

/-- A document that is cut off inside of a statement. -/
def Document.cutOff : String := "layer L \x7b state A \x7b goto B"

/-- The document need not be alone on the stack when a text that can be read ends. -/
theorem not_only_document_left :
    ¬∀ (source name : String) (host host' : MemoryHost) (doc : Document),
      Document.read source name host = (.ok doc, host') →
        (Document.notedRun source name host).stack.map (·.rule) = [.document] := by
  intro h
  obtain ⟨doc, host', hread⟩ := Document.exists_read
    (show (Document.read Document.cutOff "Hero" ({} : MemoryHost)).1.isOk = true by decide +kernel)
  have hleft : (Document.notedRun Document.cutOff "Hero" ({} : MemoryHost)).stack.length = 4 := by
    decide +kernel
  have halone := congrArg List.length (h _ _ _ _ _ hread)
  rw [List.length_map, hleft] at halone
  cases halone

end MotionScript
