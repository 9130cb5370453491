import MotionScript.Proofs.Conditions.Statements
import MotionScript.Proofs.Statements.Reading
/-!
# The order of the parts of a statement

A statement of a machine or a state queues the transitions that its parts say, in whatever order they
are written and with whichever of their brackets.
-/

namespace MotionScript

/-! ## Where statements stand -/

/-- No numeral is a bare word. -/
theorem Numeral.read_bare {cs : List Char} (h : Canonical.isBare cs = true) :
    Numeral.read cs = none := by
  cases cs with
  | nil => cases h
  | cons c cs =>
    simp only [Canonical.isBare, Bool.and_eq_true, Bool.not_eq_true'] at h
    obtain ⟨⟨hc, hd⟩, -⟩ := h
    have hne (d : Char) (hid : Text.isIdentifierChar d = false) : c ≠ d := by
      rintro rfl
      rw [hc] at hid
      cases hid
    have hzero : c ≠ '0' := by
      rintro rfl
      cases hd
    have hsign : Decimal.takeSign (c :: cs) = (false, c :: cs) := by
      unfold Decimal.takeSign
      split
      · exact absurd (List.cons.inj ‹_›).1 (hne '-' (by decide))
      · exact absurd (List.cons.inj ‹_›).1 (hne '+' (by decide))
      · rfl
    have hradix : Numeral.takeRadix (c :: cs) = none := by
      unfold Numeral.takeRadix
      split
      · exact absurd (List.cons.inj ‹_›).1 hzero
      · rfl
    have hfraction : Decimal.takeFraction (c :: cs) = ([], c :: cs) := by
      unfold Decimal.takeFraction
      split
      · exact absurd (List.cons.inj ‹_›).1 (hne '.' (by decide))
      · rfl
    simp [Numeral.read, hsign, hradix, Decimal.readUnsigned, hd, hfraction]

/-- A number is no option of a layer. -/
theorem MachineRule.layerOption?_number {η : Type} {m : OpenMachine} {e : Event} {x : Single}
    (he : e.single? = some x) (s : Session η) : layerOption? m e s = none := by
  have hnumber := Event.single_is he
  have hbare : Canonical.isBare e.text.toList = false := by
    by_contra hb
    rw [Token.single?, hnumber.number_numeral?,
      Numeral.read_bare (by simpa using hb)] at he
    cases he
  simp [layerOption?, hnumber.number_isKeyword, blending_eq_none hbare]

open TransitionRule (Opens starters)

/-- Whether a rule is at an item of a block, where a statement can stand in `scope`. -/
inductive Frame.AtItem : Scope → Frame → Prop where
  | machine (m : OpenMachine) : AtItem m.scope (.machine (.named m .item))
  | state (scope : Scope) (id : StateId) : AtItem scope (.state (.named scope id .item))

namespace Frame.AtItem

variable {η : Type} {scope : Scope} {f : Frame} {e : Event}

theorem context (h : f.AtItem scope) : f.context = some scope := by
  cases h <;> rfl

/-- The first token of a part starts a statement. -/
theorem react [Host η] (h : f.AtItem scope) (he : Opens e) (s : Session η) :
    f.react e s = .ok (f, s, some (.attach (.transition {}) true)) := by
  have hstarts := he.starts
  rcases he.cases with ⟨w, hw, hword⟩ | ⟨c, hc, hsign⟩ | ⟨x, hx⟩
  · have his := Event.isKeyword_is hword
    have havoid {words : List String}
        (hall : ∀ w ∈ starters, ∀ w' ∈ words, Text.equalsIgnoringCase w w' = false) :
        Avoids e.text words := by
      intro w' hw'
      rw [← his.word_isKeyword, Event.isKeyword_eq hword]
      exact hall w hw w' hw'
    cases h with
    | machine m =>
      have hwords : Avoids e.text (MachineRule.words m.parent.isNone) := by
        refine havoid ?_
        cases m.parent.isNone <;> decide
      rw [Frame.react, MachineRule.react, MachineRule.reactItem_word s his hwords, if_pos hstarts]
      rfl
    | state scope id =>
      rw [Frame.react, StateRule.react, StateRule.reactItem_word s his (havoid (by decide)),
        if_pos hstarts]
      rfl
  · have his := Event.isSymbol_is hsign
    cases h with
    | machine m =>
      rw [Frame.react, MachineRule.react, MachineRule.reactItem_sign s his hc]
      rfl
    | state scope id =>
      rcases hc with rfl | rfl
      all_goals
        simp [Frame.react, Frame.lift, StateRule.react, StateRule.reactItem, his.symbol_isSymbol,
          his.symbol_isKeyword, hstarts]
        rfl
  · have his := Event.single_is hx
    cases h with
    | machine m =>
      simp [Frame.react, Frame.lift, MachineRule.react, MachineRule.reactItem, his.number_isSymbol,
        his.number_isKeyword, MachineRule.layerOption?_number hx, hstarts]
      rfl
    | state scope id =>
      simp [Frame.react, Frame.lift, StateRule.react, StateRule.reactItem, his.number_isSymbol,
        his.number_isKeyword, hstarts]
      rfl

end Frame.AtItem

/-- The same transition of a statement that starts elsewhere. -/
def Pending.startingAt (p : Pending) (start : Span × Position) : Pending :=
  { p with span := start.1, position := start.2 }

namespace TransitionRule

theorem queued_startingAt (r : TransitionRule) (c : Controller) (scope : Scope)
    (start start' : Span × Position) :
    (r.queued c scope start).map (·.startingAt start') = r.queued c scope start' := by
  simp [queued, Pending.startingAt]

/-! ## Reading a statement -/

section

variable {η : Type} [Host η] {e stop : Event} {es : List Event} {r q : TransitionRule}
  {scope : Scope} {top : Frame} {below : List Frame} {ps : List Part}

omit [Host η] in
/-- The place of a statement is that of its first token. -/
theorem react_started (h : r.start.isSome) (s : Session η) :
    r.react e s = lookAgain e s maxLooks r := by
  obtain ⟨start, h⟩ := Option.isSome_iff_exists.1 h
  rw [TransitionRule.react, h, Option.getD_some, ← h]

/-- The first token of a statement attaches its rule, which reads the token itself. -/
theorem Steps.takes (h : Steps e { scope := some scope, start := some (e.span, e.position) } r)
    (he : Opens e) (htop : top.AtItem scope) (s : Session η) :
    ∃ j, Takes e (top :: below) s (.transition r :: top :: below) s j := by
  have hattach : (Frame.transition {}).onAttach top.context s =
      ⟨.transition { scope := some scope }, s, .ok ()⟩ := by
    rw [htop.context]
    rfl
  have hreact : (Frame.transition { scope := some scope }).react e s =
      .ok (.transition r, s, none) := by
    have hlook : ({ scope := some scope } : TransitionRule).react e s = _ := h.lookAgain_eq s
    rw [Frame.react, Frame.lift, hlook]
    rfl
  exact ⟨_, .forward (htop.react he s) hattach hreact⟩

/-- Tokens behind the first one of a statement. -/
theorem Runs.feeds (h : Runs es r q) (hstart : r.start.isSome) (below : List Frame) (s : Session η) :
    ∃ j, Feeds es (.transition r :: below) s (.transition q :: below) s j := by
  induction h with
  | nil r => exact ⟨_, .nil _ _⟩
  | @cons e es r q q' hsteps _ ih =>
    obtain ⟨j, hfeeds⟩ := ih (hsteps.start_eq ▸ hstart)
    have hreact : (Frame.transition r).react e s = .ok (.transition q, s, none) := by
      rw [Frame.react, Frame.lift, react_started hstart, hsteps.lookAgain_eq]
      rfl
    exact ⟨_, .cons (.stay hreact) hfeeds⟩

/-- The semicolon behind the parts of a statement ends its rule. -/
theorem Rests.takes {start : Span × Position} (h : Rests r q) (hstop : stop.isSymbol ';' = true)
    (hb : q.bracket = false) (hscope : q.scope = some scope) (hq : q.start = some start)
    (hr : r.start.isSome) (s : Session η) :
    ∃ j, Takes stop (.transition r :: top :: below) s (top :: below)
      { s with pending := s.pending ++ q.queued s.controller scope start } j := by
  have hreact : (Frame.transition r).react stop s = .ok (.transition q,
      { s with pending := s.pending ++ q.queued s.controller scope start },
      some (.detach false)) := by
    rw [Frame.react, Frame.lift, react_started hr, h.finish hstop hb hscope hq]
    rfl
  exact ⟨_, .detach hreact⟩

/-- A statement queues the transitions that its parts say, and the block around it goes on. -/
theorem Statement.feeds (h : Statement ps (e :: es)) (hstop : stop.isSymbol ';' = true)
    (htop : top.AtItem scope) (s : Session η) :
    ∃ j, Feeds (e :: es ++ [stop]) (top :: below) s (top :: below)
      { s with
        pending := s.pending ++
          (Part.applyAll {} ps).queued s.controller scope (e.span, e.position) } j := by
  have hopens : Opens e := by
    cases ps with
    | nil => cases h
    | cons p ps => exact h.opens
  obtain ⟨r', hruns, hrests⟩ :=
    h.runs (.refl (r := { scope := some scope, start := some (e.span, e.position) }) rfl) rfl
  rw [show Part.applyAll _ ps = _ from
    Part.applyAll_placed {} ps (some scope) (some (e.span, e.position))] at hrests
  cases hruns with
  | cons hfirst hruns =>
    obtain ⟨j₁, hattach⟩ := hfirst.takes hopens htop s
    have hstart := congrArg Option.isSome hfirst.start_eq
    obtain ⟨j₂, hfeeds⟩ := hruns.feeds hstart (top :: below) s
    obtain ⟨j₃, hdetach⟩ := hrests.takes hstop (Part.applyAll_bracket {} ps) rfl rfl
      ((congrArg Option.isSome hruns.start_eq).trans hstart) s
    exact ⟨_, .cons hattach (hfeeds.append (.cons hdetach (.nil _ _)))⟩

/-- Neither the order of the parts of a statement nor the brackets that they are written with matter:
if no two parts have one kind, every statement of the same parts queues the same transitions, with the
same home and target, at its own place. -/
theorem statement_order {ps' : List Part} {e' stop' : Event} {es' : List Event} (hperm : ps.Perm ps')
    (hkinds : (ps.map Part.kind).Nodup) (h : Statement ps (e :: es)) (h' : Statement ps' (e' :: es'))
    (hstop : stop.isSymbol ';' = true) (hstop' : stop'.isSymbol ';' = true)
    (htop : top.AtItem scope) (s : Session η) :
    let queued := (Part.applyAll {} ps).queued s.controller scope (e.span, e.position)
    (∃ j, Feeds (e :: es ++ [stop]) (top :: below) s (top :: below)
      { s with pending := s.pending ++ queued } j) ∧
    ∃ j, Feeds (e' :: es' ++ [stop']) (top :: below) s (top :: below)
      { s with
        pending := s.pending ++ queued.map (·.startingAt (e'.span, e'.position)) } j := by
  refine ⟨h.feeds hstop htop s, ?_⟩
  rw [queued_startingAt, Part.applyAll_perm hperm hkinds]
  exact h'.feeds hstop' htop s

end

/-- `fade 0.5 s if a || !b goto X;` and `goto X if (a || !b) fade(0.5 s);` -/
theorem statement_order_sample :
    ∃ queued, queued.length = 2 ∧
      (∃ j, Feeds [.sample .identifier "fade", .sample .number "0.5", .sample .identifier "s",
          .sample .identifier "if", .sample .identifier "a", .sample .symbol "|", .sample .symbol "|",
          .sample .symbol "!", .sample .identifier "b", .sample .identifier "goto",
          .sample .identifier "X", .sample .symbol ";"]
        [.state (.named .sample ⟨0⟩ .item)] Session.sample [.state (.named .sample ⟨0⟩ .item)]
        { Session.sample with pending := queued } j) ∧
      ∃ j, Feeds [.sample .identifier "goto", .sample .identifier "X", .sample .identifier "if",
          .sample .symbol "(", .sample .identifier "a", .sample .symbol "|", .sample .symbol "|",
          .sample .symbol "!", .sample .identifier "b", .sample .symbol ")",
          .sample .identifier "fade", .sample .symbol "(", .sample .number "0.5",
          .sample .identifier "s", .sample .symbol ")", .sample .symbol ";"]
        [.state (.named .sample ⟨0⟩ .item)] Session.sample [.state (.named .sample ⟨0⟩ .item)]
        { Session.sample with pending := queued.map (·.startingAt (⟨0, 0⟩, ⟨0, 0⟩)) } j := by
  have hnumber : (Event.sample .number "0.5").single? = some ⟨false, 0x3F000000⟩ := by decide +kernel
  have hduration : Duration ⟨false, 0x3F000000⟩ true
      [.sample .number "0.5", .sample .identifier "s"] := ⟨hnumber, .present (by decide)⟩
  have halternatives : Alternatives [[.bare "a"], [.negated "b"]] [.sample .identifier "a",
      .sample .symbol "|", .sample .symbol "|", .sample .symbol "!", .sample .identifier "b"] :=
    .or (.test (.bare rfl)) (by decide) (by decide) (.negated (by decide) rfl)
  have hgoto : (Part.goto (.relative "X")).Spells
      [.sample .identifier "goto", .sample .identifier "X"] := .goto (by decide) (.relative rfl)
  have hbracketed {spells : List Event → Prop} {es : List Event} (h : spells es) :
      Bracketed spells (.sample .symbol "(" :: (es ++ [.sample .symbol ")"])) :=
    .within (by decide) h (by decide)
  have hfade : (Event.sample .identifier "fade").isKeyword "fade" = true := by decide
  have hif : (Event.sample .identifier "if").isKeyword "if" = true := by decide
  have hstop : (Event.sample .symbol ";").isSymbol ';' = true := by decide
  have horder := Statement.cons (.fade hfade (.bare hduration))
    (.cons (.condition hif (.bare halternatives)) (.cons hgoto .nil))
  have horder' := Statement.cons hgoto
    (.cons (.condition hif (hbracketed halternatives))
      (.cons (.fade hfade (hbracketed hduration)) .nil))
  exact ⟨_, by decide, statement_order (List.reverse_perm _).symm (by decide) horder horder' hstop hstop
    (.state .sample ⟨0⟩) Session.sample⟩

end TransitionRule

end MotionScript
