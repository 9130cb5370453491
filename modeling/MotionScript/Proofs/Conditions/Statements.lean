import MotionScript.Host.Memory
import MotionScript.Proofs.Conditions.Spelling
/-!
# Statements mean what their clauses say

The transitions of a statement are the conjunctions of its condition clause with the brackets left
out. That is the clause itself where no conjunction has an alternative inside. The rule lets no
bracket open behind `&&`, but lets `&&` follow a bracket; then the condition joins only the last
alternative of the bracket.
-/

namespace MotionScript

variable {η : Type}

namespace TransitionRule

/-- The session behind a statement, if the tokens are one. -/
def complete? (r : TransitionRule) (s : Session η) : List Event → Option (Session η)
  | [] => none
  | e :: es =>
    match r.react e s with
    | .ok (_, s, some (.detach _)) => if es.isEmpty then some s else none
    | .ok (r, s, none) => complete? r s es
    | _ => none

variable {r r' : TransitionRule} {ws : List Word} {ps : List Part} {es : List Event} {e : Event}
  {s s' : Session η}

/-- The rule has read all words and parts of a statement. -/
structure Finished (r : TransitionRule) (ws : List Word) (ps : List Part) (es : List Event) :
    Prop where
  worded : Worded ws ps false es
  groups : r.groups = conjunctions ws
  agrees : Agrees (Part.applyAll {} ps) id r
  standing : Standing false none ws
  plain : Standing false none (unbracketed ws)

theorem Tracks.finished (h : r.Tracks es) (hx : r.expect = .modifier none)
    (hb : r.bracket = false) : ∃ ws ps, r.Finished ws ps es := by
  obtain ⟨ws, ps, f, done, begun, rfl, h⟩ := h
  have hs := h.worded
  have hbegun := h.begun
  have hstanding := h.standing
  have hplain := h.plain
  rw [hx] at hs hbegun hstanding hplain
  rw [hb] at hstanding
  cases hbegun
  rw [List.append_nil]
  exact ⟨ws, ps, hs, h.groups, h.agrees, hstanding, hplain⟩

/-- Where a statement starts does not matter. -/
theorem Tracks.begun (h : r.Tracks es) (e : Event) : (r.begun e).Tracks es := by
  obtain ⟨ws, ps, f, done, begun, rfl, h⟩ := h
  exact ⟨ws, ps, f, done, begun, rfl, h.worded, h.begun, h.groups, h.agrees, h.standing, h.plain⟩

/-- A token is read, or it ends the statement. -/
theorem react_tracks (h : r.Tracks es) {control : Control Frame}
    (hr : r.react e s = .ok (r', s', control)) :
    (control = none ∧ s' = s ∧ r'.Tracks (es ++ [e])) ∨
      ∃ scope ws ps, control = some (.detach false) ∧ e.isSymbol ';' = true ∧
        r'.Finished ws ps es ∧ r'.scope = some scope ∧
        s' = { s with
          pending := s.pending ++
            r'.queued s.controller scope (r'.start.getD (e.span, e.position)) } := by
  have hfinish {q : TransitionRule} (hq : q.Tracks es) (hends : q.ends e = true)
      (hf : q.finish e s = .ok (r', s', control)) :
      ∃ scope ws ps, control = some (.detach false) ∧ e.isSymbol ';' = true ∧
        r'.Finished ws ps es ∧ r'.scope = some scope ∧
        s' = { s with
          pending := s.pending ++
            r'.queued s.controller scope (r'.start.getD (e.span, e.position)) } := by
    simp only [ends, Bool.and_eq_true, beq_iff_eq] at hends
    unfold finish at hf
    split at hf
    · cases hf
    rename_i hb
    split at hf
    · cases hf
    cases hf
    obtain ⟨ws, ps, hws⟩ := hq.finished hends.1 (by simpa using hb)
    exact ⟨_, ws, ps, rfl, hends.2, hws, ‹_›, rfl⟩
  have hq := h.begun e
  change lookAgain e s maxLooks (r.begun e) = _ at hr
  simp only [maxLooks, lookAgain] at hr
  split at hr
  · exact .inr (hfinish hq ‹_› hr)
  obtain ⟨l, hl, hr⟩ := except_bind_ok.1 hr
  have hlook := look_tracks hq hl
  split at hr
  · rename_i hagain
    rw [if_pos hagain] at hlook
    split at hr
    · exact .inr (hfinish hlook ‹_› hr)
    obtain ⟨l', hl', hr⟩ := except_bind_ok.1 hr
    have hlook' := look_tracks hlook hl'
    -- Behind a look that calls for another one the rule is settled.
    rw [(look_settled hl hagain).once hl', if_neg Bool.false_ne_true] at hlook' hr
    cases hr
    exact .inl ⟨rfl, rfl, hlook'⟩
  · rename_i hagain
    rw [if_neg hagain] at hlook
    cases hr
    exact .inl ⟨rfl, rfl, hlook⟩

theorem tracks_nil (scope : Option Scope) : ({ scope } : TransitionRule).Tracks [] :=
  ⟨[], [], id, [], [], rfl, .nil, .modifier, rfl, ⟨rfl, rfl, rfl⟩, .empty, .empty⟩

/-- What a statement is, once it has ended. -/
theorem statement_finished {pre : List Event} (h : r.Tracks pre)
    (hs : r.complete? s es = some s') :
    ∃ body stop q scope start ws ps, pre ++ es = body ++ [stop] ∧ stop.isSymbol ';' = true ∧
      Finished q ws ps body ∧ s'.pending = s.pending ++ q.queued s.controller scope start := by
  -- By induction on the tokens that are left.
  induction es generalizing r pre with
  | nil => cases hs
  | cons e es ih =>
    unfold complete? at hs
    split at hs
    · rename_i q s₁ _ hr
      split at hs
      · rename_i hes
        cases hs
        rcases react_tracks h hr with ⟨hc, -⟩ | ⟨scope, ws, ps, -, hstop, hws, -, rfl⟩
        · cases hc
        · exact ⟨pre, e, q, scope, _, ws, ps, by rw [List.isEmpty_iff.1 hes], hstop, hws, rfl⟩
      · cases hs
    · rcases react_tracks h ‹_› with ⟨-, rfl, hq⟩ | ⟨scope, ws, ps, hc, -⟩
      · have hnext := ih hq hs
        rwa [List.append_assoc, List.singleton_append] at hnext
      · cases hc
    · cases hs

end TransitionRule

/-! ## The meaning of the transitions -/

theorem foldl_extend_ne_nil (ws : List Word) {groups : List (List Condition)} (h : groups ≠ []) :
    ws.foldl Word.extend groups ≠ [] := by
  induction ws generalizing groups with
  | nil => exact h
  | cons w ws ih => exact ih (Word.extend_append [] h w).2

/-- Transitions that are queued, one of which can be taken. -/
def anyTaken (v : Assignment) (ps : List Pending) : Bool :=
  anyHolds v (ps.map (·.transition.conditions))

/-- The alternatives of a statement are those of its words. -/
theorem TransitionRule.Finished.alternatives {r : TransitionRule} {ws : List Word} {ps : List Part}
    {es : List Event} (h : r.Finished ws ps es) :
    (if r.groups.isEmpty then [[]] else r.groups) = groupsOf ws := by
  rw [h.groups, groupsOf]
  cases h.standing with
  | empty => rfl
  | @whole ws h =>
    have hne := foldl_extend_ne_nil ws (List.cons_ne_nil ([] : List Condition) [])
    rw [if_neg (by simpa [conjunctions, Word.extend] using hne), if_neg (by simp)]

theorem TransitionRule.Finished.anyTaken {r : TransitionRule} {ws : List Word} {ps : List Part}
    {es : List Event} (h : r.Finished ws ps es) (c : Controller) (scope : Scope)
    (start : Span × Position) (v : Assignment) :
    anyTaken v (r.queued c scope start) = anyHolds v (groupsOf ws) := by
  rw [MotionScript.anyTaken, queued, List.map_map, Function.comp_def, List.map_id', h.alternatives]

/-- The words of an accepted statement are a clause, with its brackets and without them, or none. One
of the transitions of the statement can be taken just if the clause without its brackets is true, and
so just if the clause itself is true where no conjunction has an alternative inside. -/
theorem TransitionRule.statement_means {scope : Option Scope} {s s' : Session η} {es : List Event}
    (h : ({ scope } : TransitionRule).complete? s es = some s') :
    ∃ body stop ws ps queued, es = body ++ [stop] ∧ stop.isSymbol ';' = true ∧
      Worded ws ps false body ∧ s'.pending = s.pending ++ queued ∧
      (∃ f, Clause (unbracketed ws) f) ∧
      (∀ f, Clause (unbracketed ws) f → ∀ v, anyTaken v queued = Clause.value v f) ∧
      (∃ f, Clause ws f) ∧
      ∀ f, Clause ws f → (∀ g ∈ f, g.isNormal = true) → ∀ v, anyTaken v queued = Clause.value v f := by
  obtain ⟨body, stop, q, scope, start, ws, ps, hes, hstop, hq, hpending⟩ :=
    statement_finished (tracks_nil scope) h
  have hne : unbracketed ws = [] → ws = [] := by
    cases hq.standing with
    | empty => exact fun _ => rfl
    | whole => exact fun h => by cases h
  refine ⟨body, stop, ws, ps, _, hes, hstop, hq.worded, hpending, hq.plain.clause, fun f hf v => ?_,
    hq.standing.clause, fun f hf hnormal v => ?_⟩
  · rw [hq.anyTaken, hf.anyHolds_unbracketed hne]
  · rw [hq.anyTaken, hf.anyHolds_groupsOf hnormal]

/-- The tokens of a text. -/
def Event.ofText (text : String) : List Event :=
  Event.ofTokens (Lexer.tokenize .document text).tokens

/-- A scope for statements of a state. -/
def Scope.sample : Scope := ⟨["L"], 0, ⟨0⟩, some ⟨0⟩, ⟨["L"]⟩⟩

/-- A session at the start of a document. -/
def Session.sample : Session MemoryHost := { controller := { name := "Hero" }, host := {} }

theorem TransitionRule.statement_means_bracketed :
    ∃ s' body stop ws ps queued,
      ({ scope := some .sample } : TransitionRule).complete? Session.sample
        (Event.ofText "if (a || b && !c) || d muted && e > 1 goto X;") = some s' ∧
      Event.ofText "if (a || b && !c) || d muted && e > 1 goto X;" = body ++ [stop] ∧
      Worded ws ps false body ∧ s'.pending = queued ∧
      ∀ f, Clause ws f → (∀ g ∈ f, g.isNormal = true) → ∀ v, anyTaken v queued = Clause.value v f := by
  obtain ⟨s', h⟩ := Option.isSome_iff_exists.1
    (show (({ scope := some .sample } : TransitionRule).complete? Session.sample
      (Event.ofText "if (a || b && !c) || d muted && e > 1 goto X;")).isSome = true by decide +kernel)
  obtain ⟨body, stop, ws, ps, queued, hes, -, hworded, hpending, -, -, -, hmeans⟩ :=
    TransitionRule.statement_means h
  exact ⟨s', body, stop, ws, ps, queued, h, hes, hworded, hpending, hmeans⟩

/-! ## A conjunction behind a bracket -/

/-- `(a || b) && c` -/
def Formula.distributed : Formula :=
  .and (.or (.test (.bare "a")) (.test (.bare "b"))) (.test (.bare "c"))

/-- `if (a || b) && c` -/
def Word.distributed : List Word :=
  [.start, .opening, .test (.bare "a"), .or, .test (.bare "b"), .closing, .and, .test (.bare "c")]

theorem Clause.distributed : Clause Word.distributed (Option.some Formula.distributed) :=
  have halternatives : Reads .disjunction [.test (.bare "a"), .or, .test (.bare "b")]
      (.or (.test (.bare "a")) (.test (.bare "b"))) :=
    .or (.conjunction (.factor (.test (.bare "a")))) rfl (.factor (.test (.bare "b")))
  .some (.conjunction (.and (.factor (.bracket halternatives)) (.test (.bare "c"))))

namespace Event

/-- A token of a kind, wherever it is. -/
def sample (kind : TokenKind) (text : String) : Event := ⟨⟨kind, text, ⟨0, 0⟩, ⟨0, 0⟩⟩, false, 0⟩

/-- The tokens of `if (a || b) && c`. -/
def distributed : List Event :=
  [sample .identifier "if", sample .symbol "(", sample .identifier "a", sample .symbol "|",
    sample .symbol "|", sample .identifier "b", sample .symbol ")", sample .symbol "&",
    sample .symbol "&", sample .identifier "c"]

end Event

theorem Worded.distributed : Worded Word.distributed [] false Event.distributed := by
  have hif := Worded.nil.start (e := .sample .identifier "if") (by decide)
  have hopen := hif.opening (e := .sample .symbol "(") (by decide)
  have ha := hopen.test (.bare (e := .sample .identifier "a") rfl)
  have hor := @Worded.or _ _ _ (.sample .symbol "|") (.sample .symbol "|") ha (by decide)
    (by decide)
  have hb := hor.test (.bare (e := .sample .identifier "b") rfl)
  have hclose := hb.closing (e := .sample .symbol ")") (by decide)
  have hand := @Worded.and _ _ _ (.sample .symbol "&") (.sample .symbol "&") hclose (by decide)
    (by decide)
  exact hand.test (.bare (e := .sample .identifier "c") rfl)

/-- A conjunction behind a bracket joins only the last alternative in it: `if (a || b) && c` leads
somewhere if `a` holds and `c` does not. -/
theorem not_statement_means :
    ¬∀ (scope : Option Scope) (s s' : Session MemoryHost) (body : List Event) (stop : Event)
      (ws : List Word) (ps : List TransitionRule.Part) (f : Option Formula) (queued : List Pending),
      ({ scope } : TransitionRule).complete? s (body ++ [stop]) = some s' →
        Worded ws ps false body → Clause ws f → s'.pending = s.pending ++ queued →
          ∀ v, anyTaken v queued = Clause.value v f := by
  intro h
  have hgroups : ((({ scope := some .sample } : TransitionRule).complete? Session.sample
      (Event.distributed ++ [.sample .symbol ";"])).map fun s =>
        s.pending.map (·.transition.conditions)) =
      some [[⟨"a", .holds, .zero⟩], [⟨"b", .holds, .zero⟩, ⟨"c", .holds, .zero⟩]] := by
    decide +kernel
  obtain ⟨s', hs', hgroups⟩ := Option.map_eq_some_iff.1 hgroups
  have hvalue := h _ _ s' _ _ _ _ _ s'.pending hs' .distributed .distributed rfl
    fun c => c.parameter == "a"
  rw [anyTaken, hgroups] at hvalue
  exact absurd hvalue (by decide)

end MotionScript
