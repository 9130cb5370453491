import MotionScript.Proofs.RuleStack.Order
import Mathlib.Data.List.Induction
import Mathlib.Data.List.Infix
/-!
# The course of a reading

How readings go, as their notes tell it: which hook is called next, with which session, and when a
reading fails.
-/

namespace MotionScript

/-! ## Failures -/

/-- How often an event has been handed on, after one more call. -/
def Note.handed {ρ : Type} (n : Nat) : Note ρ → Nat
  | token _ _ _ (some change) (.ok ()) => if change.forwards then n + 1 else 0
  | token _ _ _ _ _ => 0
  | attach _ _ _ _ | detach _ _ _ => n

/-- The change that a hook asked for. -/
def Note.asked? {ρ : Type} : Note ρ → Control ρ
  | token _ _ _ change (.ok ()) => change
  | _ => none

namespace Notes

variable {ρ : Type}

/-- The change that was asked for last and has not been made yet. -/
def asked? (notes : Notes ρ) : Control ρ := notes.getLast?.bind Note.asked?

/-- The event handled last. -/
def event? (notes : Notes ρ) : Option Event := (notes.filterMap Note.event?).getLast?

/-- The position that has been reached. -/
def position (notes : Notes ρ) : Position := notes.event?.elim ⟨0, 0⟩ (·.position)

/-- How often the event handled last has been handed on. -/
def handed (notes : Notes ρ) : Nat := notes.foldl Note.handed 0

/-- The failure of the check that the rule stack makes after a hook has succeeded: only rules above
the root can be detached, and an event is not handed on too often. -/
def check? (before : Notes ρ) : Note ρ → Option Diagnostic
  | .attach _ _ _ _ | .detach _ _ _ =>
    if before.handed = Grammar.maxForwards then before.event?.map Grammar.handedTooOften else none
  | .token _ e _ (some (.detach _)) _ =>
    if before.stack.length ≤ 1 then some (Grammar.rootDetached e) else none
  | .token _ _ _ _ _ => none

/-- The failure at a call: of the hook itself, or else of the check after it. -/
def fault? (before : Notes ρ) (note : Note ρ) : Option Diagnostic :=
  note.error? <|> check? before note

/-- The failures at the calls that come after `before`, in time. -/
def faultsAfter (before : Notes ρ) : Notes ρ → List Failure
  | [] => []
  | note :: rest =>
    ((fault? before note).map (.located · (position (before ++ [note])))).toList ++
      faultsAfter (before ++ [note]) rest

/-- The failures that the notes tell of, in time. -/
def faults (notes : Notes ρ) : List Failure := faultsAfter [] notes

theorem faultsAfter_append (before notes more : Notes ρ) :
    faultsAfter before (notes ++ more) =
      faultsAfter before notes ++ faultsAfter (before ++ notes) more := by
  induction notes generalizing before with
  | nil => simp [faultsAfter]
  | cons note notes ih => simp [faultsAfter, ih]

@[simp]
theorem faults_concat (notes : Notes ρ) (note : Note ρ) :
    faults (notes ++ [note]) =
      faults notes ++
        ((fault? notes note).map (.located · (position (notes ++ [note])))).toList := by
  simp [faults, faultsAfter_append, faultsAfter]

@[simp]
theorem handed_concat (notes : Notes ρ) (note : Note ρ) :
    handed (notes ++ [note]) = note.handed (handed notes) := by
  simp [handed]

@[simp]
theorem event?_concat (notes : Notes ρ) (note : Note ρ) :
    event? (notes ++ [note]) = (note.event? <|> event? notes) := by
  cases h : note.event? <;> simp [event?, List.filterMap_append, h]

@[simp]
theorem asked?_concat (notes : Notes ρ) (note : Note ρ) :
    asked? (notes ++ [note]) = note.asked? := by
  simp [asked?]

/-- A change is made right after a hook that asked for it has succeeded. -/
theorem asked?_eq_some {notes : Notes ρ} {change : Change ρ} (h : notes.asked? = some change) :
    ∃ earlier m e requester,
      notes = earlier ++ [.token m e requester (some change) (.ok ())] := by
  obtain ⟨note, hlast, hnote⟩ := Option.bind_eq_some_iff.1 h
  obtain ⟨earlier, rfl⟩ := List.getLast?_eq_some_iff.1 hlast
  cases note with
  | attach | detach => cases hnote
  | token m e requester control result =>
    rcases result with d | ⟨⟩
    · cases hnote
    · cases hnote
      exact ⟨earlier, m, e, requester, rfl⟩

end Notes

/-! ## Calls one after another -/

namespace Hooks

variable {ρ γ σ : Type}

/-- The notes and the session at any moment of a reading that starts with `root`. A token goes to
the top rule if nothing has failed and no change has been asked for, and the same token goes on if
it was handed on. -/
inductive Course (h : Hooks ρ γ σ) (root : ρ) (s₀ : σ) : Notes ρ → σ → Prop where
  | root {a : Answer ρ σ Unit} (hook : h.onAttach none root s₀ = a) :
    Course h root s₀ [.attach 0 root a.subject a.result] a.session
  | token {notes : Notes ρ} {s : σ} {n : Nat} {rule : ρ} {parents : List (Numbered ρ)} {e : Event}
    {a : Answer ρ σ Unit} {change : Control ρ} (before : Course h root s₀ notes s)
    (top : notes.stack = ⟨n, rule⟩ :: parents) (quiet : notes.faults = [])
    (idle : notes.asked? = none) (event : notes.handed = 0 ∨ notes.event? = some e)
    (hook : h.onToken e rule s = (a, change)) :
    Course h root s₀ (notes ++ [.token n e a.subject change a.result]) a.session
  | attach {notes : Notes ρ} {s : σ} {n : Nat} {below rule : ρ} {parents : List (Numbered ρ)}
    {forward : Bool} {a : Answer ρ σ Unit} (before : Course h root s₀ notes s)
    (top : notes.stack = ⟨n, below⟩ :: parents) (asked : notes.asked? = some (.attach rule forward))
    (hook : h.onAttach (h.context below) rule s = a) :
    Course h root s₀ (notes ++ [.attach notes.attached.length rule a.subject a.result]) a.session
  | detach {notes : Notes ρ} {s t : σ} {n : Nat} {rule : ρ} {parent : Numbered ρ}
    {parents : List (Numbered ρ)} {forward : Bool} {result : Except Diagnostic Unit}
    (before : Course h root s₀ notes s) (top : notes.stack = ⟨n, rule⟩ :: parent :: parents)
    (asked : notes.asked? = some (.detach forward)) (hook : h.onDetach rule s = (result, t)) :
    Course h root s₀ (notes ++ [.detach n rule result]) t

variable {h : Hooks ρ γ σ} {root : ρ} {s₀ s : σ} {notes : Notes ρ}

theorem Course.regular (hc : Course h root s₀ notes s) : notes.Regular := by
  induction hc with
  | root hook => exact .concat .nil ⟨rfl, .inl rfl⟩
  | token before top quiet idle event hook ih => exact ih.concat (by simp [Notes.Follows, top])
  | attach before top asked hook ih =>
    obtain ⟨earlier, m, e, requester, rfl⟩ := Notes.asked?_eq_some asked
    exact ih.concat ⟨rfl, .inr ⟨earlier, m, e, requester, _, rfl⟩⟩
  | detach before top asked hook ih => exact ih.concat (by simp [Notes.Follows, top])

/-- What was noted earlier is a moment of the same reading. -/
theorem Course.earlier {note : Note ρ} (hc : Course h root s₀ (notes ++ [note]) s)
    (hne : notes ≠ []) : ∃ t, Course h root s₀ notes t := by
  generalize heq : notes ++ [note] = all at hc
  cases hc with
  | root hook =>
    rcases List.append_eq_singleton_iff.1 heq with ⟨hnil, -⟩ | ⟨-, hnil⟩
    · exact absurd hnil hne
    · cases hnil
  | token before | attach before | detach before =>
    obtain ⟨rfl, -⟩ := List.append_inj' heq rfl
    exact ⟨_, before⟩

/-- So is every beginning of the notes. -/
theorem Course.of_prefix (hc : Course h root s₀ notes s) {before : Notes ρ} (hp : before <+: notes)
    (hne : before ≠ []) : ∃ t, Course h root s₀ before t := by
  induction notes using List.reverseRecOn generalizing s with
  | nil => exact absurd (List.prefix_nil.1 hp) hne
  | append_singleton notes note ih =>
    rcases List.prefix_concat_iff.1 hp with rfl | hp
    · exact ⟨_, hc⟩
    · obtain ⟨t, ht⟩ := hc.earlier fun hnil => hne (List.prefix_nil.1 (hnil ▸ hp))
      exact ih ht hp

/-- How a call of a token hook that is noted has come about. -/
theorem Course.of_token {n : Nat} {e : Event} {r : ρ} {change : Control ρ}
    {result : Except Diagnostic Unit}
    (hc : Course h root s₀ (notes ++ [.token n e r change result]) s) :
    ∃ rule t, h.onToken e rule t = (⟨r, s, result⟩, change) := by
  generalize heq : notes ++ [.token n e r change result] = all at hc
  cases hc with
  | root hook =>
    obtain ⟨-, hlast⟩ | ⟨-, hlast⟩ := List.append_eq_singleton_iff.1 heq <;> cases hlast
  | token before top quiet idle event hook =>
    obtain ⟨-, hlast⟩ := List.append_inj' heq rfl
    cases hlast
    exact ⟨_, _, hook⟩
  | attach | detach => cases (List.append_inj' heq rfl).2

/-- How a call of a detach hook that is noted has come about. -/
theorem Course.of_detach {n : Nat} {rule : ρ} {result : Except Diagnostic Unit}
    (hc : Course h root s₀ (notes ++ [.detach n rule result]) s) :
    ∃ forward parent parents t, notes.asked? = some (.detach forward) ∧
      notes.stack = ⟨n, rule⟩ :: parent :: parents ∧ Course h root s₀ notes t := by
  generalize heq : notes ++ [.detach n rule result] = all at hc
  cases hc with
  | root hook =>
    obtain ⟨-, hlast⟩ | ⟨-, hlast⟩ := List.append_eq_singleton_iff.1 heq <;> cases hlast
  | token | attach => cases (List.append_inj' heq rfl).2
  | detach before top asked hook =>
    obtain ⟨rfl, hlast⟩ := List.append_inj' heq rfl
    cases hlast
    exact ⟨_, _, _, _, asked, top, before⟩

/-- A rule is detached when it has handled a token and asked for it. -/
theorem Course.detached_asked {n : Nat} {rule : ρ} {result : Except Diagnostic Unit}
    (hc : Course h root s₀ (notes ++ [.detach n rule result]) s) :
    ∃ earlier e forward, notes = earlier ++ [.token n e rule (some (.detach forward)) (.ok ())] ∧
      ∃ below t u, h.onToken e below t = (⟨rule, u, .ok ()⟩, some (.detach forward)) := by
  obtain ⟨forward, parent, parents, t, hask, hs, before⟩ := hc.of_detach
  obtain ⟨earlier, m, e, requester, rfl⟩ := Notes.asked?_eq_some hask
  have htop := hs
  simp only [Notes.stack_concat, Note.next, List.cons.injEq, Numbered.mk.injEq] at htop
  obtain ⟨⟨rfl, rfl⟩, -⟩ := htop
  obtain ⟨below, u, hook⟩ := before.of_token
  exact ⟨earlier, e, forward, rfl, below, u, _, hook⟩

/-- The root is attached first and stays. -/
theorem Course.root_stays (hc : Course h root s₀ notes s) :
    0 ∈ notes.attached ∧ 0 ∉ notes.detached := by
  induction hc with
  | root hook => simp [Notes.attached, Notes.detached, Note.attached?, Note.detached?]
  | token before top quiet idle event hook ih =>
    simpa [Note.attached?, Note.detached?] using ih
  | attach before top asked hook ih =>
    simp only [Notes.attached_concat, Notes.detached_concat, Note.detached?, Option.toList_none,
      List.append_nil]
    exact ⟨List.mem_append_left _ ih.1, ih.2⟩
  | @detach notes s t n rule parent parents forward result before top asked hook ih =>
    -- A rule above the root has a larger number.
    have hn : n ≠ 0 := by
      have hsorted := before.regular.sorted
      rw [top, List.map_cons, List.map_cons] at hsorted
      have hparent : n > parent.number := List.rel_of_pairwise_cons hsorted List.mem_cons_self
      omega
    simpa [Note.attached?, Note.detached?, hn.symm] using ih

/-! ## Every reading takes such a course -/

/-- A moment of a reading with its stack. -/
structure At (h : Hooks ρ γ σ) (root : ρ) (s₀ : σ) (stack : List (Numbered ρ)) (s : Noted ρ σ) :
    Prop where
  course : Course h root s₀ s.notes s.session
  stack : s.notes.stack = stack

/-- The failure of a hook or a check at a position, if any. -/
def failureAt (p : Position) : Except Diagnostic Unit → List Failure
  | .error d => [.located d p]
  | .ok () => []

/-- How the notes stand after the turn of a rule for `e`. The turn ended with a failure, or no change
is left to make. A token that goes on has been handed on once more, which may have been too often. -/
structure Turned (h : Hooks ρ γ σ) (root : ρ) (s₀ : σ) (e : Event) (before : Notes ρ)
    (turn : Answer (List (Numbered ρ)) (Noted ρ σ) Unit × Bool) : Prop where
  moment : At h root s₀ turn.1.subject turn.1.session
  nonempty : turn.1.subject ≠ []
  event : turn.1.session.notes.event? = some e
  past : Notes.faults turn.1.session.notes.dropLast = []
  idle : turn.1.result = .ok () → turn.1.session.notes.asked? = none
  ended : turn.2 = false → turn.1.session.notes.faults = failureAt e.position turn.1.result ∧
    (turn.1.result = .ok () → turn.1.session.notes.handed = 0)
  goes : turn.2 = true → turn.1.result = .ok () ∧
    turn.1.session.notes.handed = before.handed + 1 ∧
    turn.1.session.notes.faults = if before.handed + 1 = Grammar.maxForwards then
      [.located (Grammar.handedTooOften e) e.position] else []

/-- A turn that ends with the call of an attach or detach hook. -/
theorem Turned.of_called {e : Event} {before notes : Notes ρ} {note : Note ρ} {t : σ}
    {stack : List (Numbered ρ)} {result : Except Diagnostic Unit} {forward : Bool}
    (hc : Course h root s₀ (notes ++ [note]) t) (hs : Notes.stack (notes ++ [note]) = stack)
    (hne : stack ≠ []) (he : notes.event? = some e) (hf : notes.faults = [])
    (hh : notes.handed = if forward then before.handed + 1 else 0)
    (hnote : (∃ n asked rule, note = .attach n asked rule result) ∨
      ∃ n rule, note = .detach n rule result) :
    Turned h root s₀ e before (⟨stack, ⟨t, notes ++ [note]⟩, result⟩, forward && result.isOk) := by
  have hevent : note.event? = none := by rcases hnote with ⟨_, _, _, rfl⟩ | ⟨_, _, rfl⟩ <;> rfl
  have hasked : note.asked? = none := by rcases hnote with ⟨_, _, _, rfl⟩ | ⟨_, _, rfl⟩ <;> rfl
  have hhanded (k : Nat) : note.handed k = k := by
    rcases hnote with ⟨_, _, _, rfl⟩ | ⟨_, _, rfl⟩ <;> rfl
  have hcheck : notes.check? note =
      if notes.handed = Grammar.maxForwards then some (Grammar.handedTooOften e) else none := by
    rcases hnote with ⟨_, _, _, rfl⟩ | ⟨_, _, rfl⟩ <;> simp [Notes.check?, he]
  have hresult : note.result = result := by rcases hnote with ⟨_, _, _, rfl⟩ | ⟨_, _, rfl⟩ <;> rfl
  have hp : Notes.position (notes ++ [note]) = e.position := by simp [Notes.position, hevent, he]
  refine ⟨⟨hc, hs⟩, hne, by simp [hevent, he], by simpa using hf, by simp [hasked],
    fun hgo => ?_, fun hgo => ?_⟩
  · rcases result with d | ⟨⟩
    · exact ⟨by simp [hf, hp, Notes.fault?, Note.error?, hresult, failureAt], by simp⟩
    · have hforward : forward = false := by simpa [Except.isOk, Except.toBool] using hgo
      have hzero : notes.handed = 0 := by simp [hh, hforward]
      refine ⟨?_, fun _ => by simp [hhanded, hzero]⟩
      simp [hf, Notes.fault?, Note.error?, hresult, hcheck, hzero, failureAt, Grammar.maxForwards]
  · rcases result with d | ⟨⟩
    · simp [Except.isOk, Except.toBool] at hgo
    · have hforward : forward = true := by simpa [Except.isOk, Except.toBool] using hgo
      have hnext : notes.handed = before.handed + 1 := by simp [hh, hforward]
      refine ⟨rfl, by simp [hhanded, hnext], ?_⟩
      simp only [Notes.faults_concat, hf, Notes.fault?, Note.error?, hresult, hcheck, hp, hnext]
      split <;> rfl

theorem At.turned (e : Event) {top : Numbered ρ} {parents : List (Numbered ρ)} {s : Noted ρ σ}
    (hm : At h root s₀ (top :: parents) s) (hf : s.notes.faults = []) (hi : s.notes.asked? = none)
    (he : s.notes.handed = 0 ∨ s.notes.event? = some e) :
    Turned h root s₀ e s.notes (h.notedGrammar.turn e top parents s) := by
  obtain ⟨n, rule⟩ := top
  rcases ht : h.onToken e rule s.session with ⟨⟨r, t, result⟩, change⟩
  have hn := noted_onToken n s ht
  -- Whatever happens next, the call of the token hook has been noted.
  have hc := hm.course.token hm.stack hf hi he ht
  have hs : Notes.stack (s.notes ++ [.token n e r change result]) = ⟨n, r⟩ :: parents := by
    simp [hm.stack, Note.next]
  have hevent : Notes.event? (s.notes ++ [.token n e r change result]) = some e := by
    simp [Note.event?]
  have hp : Notes.position (s.notes ++ [.token n e r change result]) = e.position := by
    rw [Notes.position, hevent]
    rfl
  rcases result with d | ⟨⟩
  · rw [Grammar.turn_error hn]
    refine ⟨⟨hc, hs⟩, by simp, hevent, by simpa using hf, by simp, fun _ => ⟨?_, by simp⟩, by simp⟩
    simp [hf, hp, Notes.fault?, Note.error?, Note.result, failureAt]
  rcases change with _ | ⟨asked, forward⟩ | forward
  · rw [Grammar.turn_stay hn]
    refine ⟨⟨hc, hs⟩, by simp, hevent, by simpa using hf, by simp [Note.asked?],
      fun _ => ⟨?_, fun _ => ?_⟩, by simp⟩
    · simp [hf, Notes.fault?, Notes.check?, Note.error?, Note.result, failureAt]
    · simp [Note.handed]
  · have hask : Notes.asked? (s.notes ++ [.token n e r (some (.attach asked forward)) (.ok ())]) =
        some (.attach asked forward) := by simp [Note.asked?]
    rw [Grammar.turn_attach hn, noted_push]
    exact .of_called (hc.attach hs hask rfl) (by rw [Notes.stack_concat, hs, Note.next])
      (by simp) hevent (by simp [hf, Notes.fault?, Notes.check?, Note.error?, Note.result])
      (by cases forward <;> simp [Note.handed, Change.forwards]) (.inl ⟨_, _, _, rfl⟩)
  · cases parents with
    | nil =>
      rw [Grammar.turn_root hn]
      refine ⟨⟨hc, hs⟩, by simp, hevent, by simpa using hf, by simp, fun _ => ⟨?_, by simp⟩,
        by simp⟩
      simp [hf, hp, hm.stack, Notes.fault?, Notes.check?, Note.error?, Note.result, failureAt]
    | cons parent parents =>
      have hask : Notes.asked? (s.notes ++ [.token n e r (some (.detach forward)) (.ok ())]) =
          some (.detach forward) := by simp [Note.asked?]
      rw [Grammar.turn_detach (by simp) hn]
      exact .of_called (hc.detach hs hask rfl)
        (by rw [Notes.stack_concat, hs, Note.next, List.tail_cons]) (by simp) hevent
        (by simp [hf, hm.stack, Notes.fault?, Notes.check?, Note.error?, Note.result])
        (by cases forward <;> simp [Note.handed, Change.forwards]) (.inr ⟨_, _, rfl⟩)

/-- How the notes stand after an event has been dispatched: with the one failure that ended it, or
ready for the next event. -/
structure Dispatched (h : Hooks ρ γ σ) (root : ρ) (s₀ : σ) (e : Event)
    (a : Answer (List (Numbered ρ)) (Noted ρ σ) Unit) : Prop where
  moment : At h root s₀ a.subject a.session
  nonempty : a.subject ≠ []
  event : a.session.notes.event? = some e
  past : Notes.faults a.session.notes.dropLast = []
  faults : a.session.notes.faults = failureAt e.position a.result
  ready : a.result = .ok () → a.session.notes.asked? = none ∧ a.session.notes.handed = 0

theorem Turned.dispatched {e : Event} {before : Notes ρ}
    {turn : Answer (List (Numbered ρ)) (Noted ρ σ) Unit × Bool}
    (ht : Turned h root s₀ e before turn) (hgo : turn.2 = false) :
    Dispatched h root s₀ e turn.1 where
  moment := ht.moment
  nonempty := ht.nonempty
  event := ht.event
  past := ht.past
  faults := (ht.ended hgo).1
  ready hr := ⟨ht.idle hr, (ht.ended hgo).2 hr⟩

theorem At.dispatched (e : Event) (fuel : Nat) {stack : List (Numbered ρ)} {s : Noted ρ σ}
    (hm : At h root s₀ stack s) (hne : stack ≠ []) (hf : s.notes.faults = [])
    (hi : s.notes.asked? = none) (he : s.notes.handed = 0 ∨ s.notes.event? = some e)
    (hh : s.notes.handed + (fuel + 1) = Grammar.maxForwards) :
    Dispatched h root s₀ e (h.notedGrammar.dispatch e (fuel + 1) stack s) := by
  induction fuel generalizing stack s with
  | zero =>
    obtain ⟨top, parents, rfl⟩ := List.exists_cons_of_ne_nil hne
    have ht := hm.turned e hf hi he
    rw [Grammar.dispatch_succ]
    split_ifs with hgo
    · -- No rule is left to hand the event to.
      obtain ⟨-, -, hfaults⟩ := ht.goes hgo
      rw [if_pos hh] at hfaults
      exact ⟨ht.moment, ht.nonempty, ht.event, ht.past, hfaults, by rintro ⟨⟩⟩
    · exact ht.dispatched (by simpa using hgo)
  | succ fuel ih =>
    obtain ⟨top, parents, rfl⟩ := List.exists_cons_of_ne_nil hne
    have ht := hm.turned e hf hi he
    rw [Grammar.dispatch_succ]
    split_ifs with hgo
    · obtain ⟨hresult, hnext, hfaults⟩ := ht.goes hgo
      rw [if_neg (by omega)] at hfaults
      exact ih ht.moment ht.nonempty hfaults (ht.idle hresult) (.inr ht.event) (by omega)
    · exact ht.dispatched (by simpa using hgo)

/-- How the notes stand after events have been fed. -/
structure Fed (h : Hooks ρ γ σ) (root : ρ) (s₀ : σ) (r : Grammar.Run (Numbered ρ) (Noted ρ σ)) :
    Prop where
  moment : At h root s₀ r.stack r.session
  nonempty : r.stack ≠ []
  position : r.session.notes.position = r.position
  past : Notes.faults r.session.notes.dropLast = []
  faults : r.session.notes.faults = r.failure.toList
  ready : r.failure = none → r.session.notes.asked? = none ∧ r.session.notes.handed = 0

theorem Fed.fed (events : List Event) {r : Grammar.Run (Numbered ρ) (Noted ρ σ)}
    (hr : Fed h root s₀ r) (hf : r.failure = none) :
    Fed h root s₀ (h.notedGrammar.feed events r) := by
  induction events generalizing r with
  | nil => exact hr
  | cons e events ih =>
    obtain ⟨hidle, hhanded⟩ := hr.ready hf
    have hd : Dispatched h root s₀ e
        (h.notedGrammar.dispatch e Grammar.maxForwards r.stack r.session) :=
      hr.moment.dispatched e 63 hr.nonempty (by rw [hr.faults, hf]; rfl) hidle (.inl hhanded)
        (by rw [hhanded]; rfl)
    rw [Grammar.feed]
    generalize h.notedGrammar.dispatch e Grammar.maxForwards r.stack r.session = a at hd
    obtain ⟨hm, hne, hevent, hpast, hfaults, hready⟩ := hd
    have hp : a.session.notes.position = e.position := by
      rw [Notes.position, hevent]
      rfl
    obtain ⟨stack, t, d | ⟨⟩⟩ := a
    · exact ⟨hm, hne, hp, hpast, hfaults, by simp⟩
    · exact ih ⟨hm, hne, hp, hpast, hfaults, fun _ => hready rfl⟩ rfl

/-- What the notes of a run say. -/
theorem run_course (h : Hooks ρ γ σ) (root : ρ) (stream : Lexer.Stream) (s : σ) :
    let r := h.notedGrammar.run (.new root) stream ⟨s, []⟩
    At h root s r.stack r.session ∧ r.session.notes.position = r.position ∧
      Notes.faults r.session.notes.dropLast = [] ∧
      r.failure = (r.session.notes.faults ++ stream.failure.toList).head? := by
  have hc : Course h root s [.attach 0 root (h.onAttach none root s).subject
      (h.onAttach none root s).result] (h.onAttach none root s).session := .root rfl
  have hpush : h.notedGrammar.push (.new root) [] ⟨s, []⟩ =
      ⟨[⟨0, (h.onAttach none root s).subject⟩], ⟨(h.onAttach none root s).session,
        [.attach 0 root (h.onAttach none root s).subject (h.onAttach none root s).result]⟩,
        (h.onAttach none root s).result⟩ := rfl
  simp only [Grammar.run, hpush]
  generalize h.onAttach none root s = a at hc
  obtain ⟨r, t, d | ⟨⟩⟩ := a
  · exact ⟨⟨hc, rfl⟩, rfl, rfl, rfl⟩
  · have hr : Fed h root s (h.notedGrammar.feed (Event.ofTokens stream.tokens)
        ⟨[⟨0, r⟩], ⟨t, [.attach 0 root r (.ok ())]⟩, ⟨0, 0⟩, none⟩) :=
      Fed.fed _ ⟨⟨hc, rfl⟩, by simp, rfl, rfl, rfl, fun _ => ⟨rfl, rfl⟩⟩ rfl
    generalize h.notedGrammar.feed (Event.ofTokens stream.tokens) _ = run at hr
    refine ⟨hr.moment, hr.position, hr.past, ?_⟩
    rw [hr.faults]
    cases run.failure <;> cases stream.failure <;> rfl

end Hooks

end MotionScript
