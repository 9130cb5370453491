import MotionScript.Proofs.Feeding.Conditions
import MotionScript.Proofs.Statements.Parts
/-!
# Reading the parts of a statement

Several parts have no end of their own: the rule sees that they are complete when the next token does
not belong to them, and looks at the token again. No token that a part can start with belongs to the
part in front of it.
-/

namespace MotionScript.TransitionRule

/-! ## Tokens between parts -/

/-- Whether a token goes on with none of the parts that have no end of their own. -/
structure Follows (e : Event) : Prop where
  symbols : ∀ c ∈ ['/', '>', '<', '=', '!'], e.isSymbol c = false
  words : ∀ w ∈ ["s", "ordered"], e.isKeyword w = false

/-- Whether a token starts a part. A token with the kind of a number has to be one. -/
structure Opens (e : Event) : Prop where
  starts : starts e = true
  number : e.kind = .number → ∃ x, e.single? = some x

variable {e : Event} {es es' : List Event} {c : Char} {w : String} {r r' q q' : TransitionRule}

theorem Follows.symbol (h : e.isSymbol c = true) (hc : c ∉ ['/', '>', '<', '=', '!']) : Follows e := by
  have he := Event.isSymbol_is h
  refine ⟨fun d hd => ?_, fun w _ => he.symbol_isKeyword w⟩
  rw [he.symbol_isSymbol, beq_eq_false_iff_ne]
  rintro rfl
  exact hc hd

/-- A word that starts parts. -/
theorem Opens.word (h : e.isKeyword w = true) (hw : w ∈ starters) : Opens e := by
  have hk := Event.isKeyword_kind h
  refine ⟨?_, fun hn => by rw [hk] at hn; cases hn⟩
  simp only [TransitionRule.starts, hk, List.any_eq_true]
  exact ⟨w, hw, h⟩

theorem Opens.sign (h : e.isSymbol c = true) (hc : c = '+' ∨ c = '-') : Opens e := by
  have he := Event.isSymbol_is h
  refine ⟨?_, fun hn => by rw [he.symbol_kind] at hn; cases hn⟩
  simp only [TransitionRule.starts, he.symbol_kind, he.symbol_isSymbol]
  rcases hc with rfl | rfl <;> rfl

theorem Opens.single {x : Single} (h : e.single? = some x) : Opens e := by
  refine ⟨?_, fun _ => ⟨x, h⟩⟩
  simp only [TransitionRule.starts, Event.single_kind h]

/-- What a token is that starts a part. -/
theorem Opens.cases (h : Opens e) : (∃ w ∈ starters, e.isKeyword w = true) ∨
    (∃ c, (c = '+' ∨ c = '-') ∧ e.isSymbol c = true) ∨ ∃ x, e.single? = some x := by
  have hs := h.starts
  unfold TransitionRule.starts at hs
  split at hs
  · exact .inr (.inr (h.number ‹_›))
  · rw [Bool.or_eq_true] at hs
    exact .inr (.inl (hs.elim (fun hs => ⟨'+', .inl rfl, hs⟩) fun hs => ⟨'-', .inr rfl, hs⟩))
  · rw [List.any_eq_true] at hs
    exact .inl hs
  · cases hs

theorem Opens.follows (h : Opens e) : Follows e := by
  rcases h.cases with ⟨w, hw, he⟩ | ⟨c, hc, he⟩ | ⟨x, hx⟩
  · refine ⟨fun c _ => (Event.isKeyword_is he).word_isSymbol c, fun w' hw' => ?_⟩
    rw [Event.isKeyword_eq he]
    have hall : ∀ w ∈ starters, ∀ w' ∈ ["s", "ordered"], Text.equalsIgnoringCase w w' = false := by
      decide
    exact hall w hw w' hw'
  · refine .symbol he ?_
    rcases hc with rfl | rfl <;> decide
  · have he := Event.single_is hx
    exact ⟨fun c _ => he.number_isSymbol c, fun w _ => he.number_isKeyword w⟩

theorem Opens.not_semicolon (h : Opens e) : e.isSymbol ';' = false := by
  rcases h.cases with ⟨w, -, he⟩ | ⟨c, hc, he⟩ | ⟨x, hx⟩
  · exact (Event.isKeyword_is he).word_isSymbol _
  · rw [(Event.isSymbol_is he).symbol_isSymbol]
    rcases hc with rfl | rfl <;> rfl
  · exact (Event.single_is hx).number_isSymbol _

/-! ## Steps -/

/-- Only at a modifier can a statement end. -/
theorem ends_expecting (h : r.expect ≠ .modifier none) (e : Event) : r.ends e = false := by
  rw [ends, beq_false_of_ne h, Bool.false_and]

/-- A token leads from one rule to another, at the first look or at the second. -/
inductive Steps (e : Event) : TransitionRule → TransitionRule → Prop where
  | once {r q : TransitionRule} (hends : r.ends e = false) (hl : r.look e = .ok ⟨q, false⟩) :
    Steps e r q
  | twice {r q q' : TransitionRule} (hends : r.ends e = false) (hl : r.look e = .ok ⟨q, true⟩)
    (hends' : q.ends e = false) (hl' : q.look e = .ok ⟨q', false⟩) : Steps e r q'

namespace Steps

theorem lookAgain_eq {η : Type} (h : Steps e r q) (s : Session η) :
    lookAgain e s maxLooks r = .ok (q, s, none) := by
  cases h with
  | once hends hl =>
    rw [maxLooks, lookAgain, hends, hl]
    rfl
  | @twice q' _ hends hl hends' hl' =>
    rw [maxLooks, lookAgain, hends, hl]
    show lookAgain e s 1 q' = _
    rw [lookAgain, hends', hl']
    rfl

theorem start_eq (h : Steps e r q) : q.start = r.start := by
  cases h with
  | once hends hl => exact (look_keeps hl).2
  | twice hends hl hends' hl' => exact (look_keeps hl').2.trans (look_keeps hl).2

/-- A step of a rule that is not at a modifier. -/
theorem expecting (hx : r.expect ≠ .modifier none) (hl : r.look e = .ok ⟨q, false⟩) : Steps e r q :=
  .once (ends_expecting hx e) hl

end Steps

/-- Whether a rule goes from one state to another by tokens. -/
inductive Runs : List Event → TransitionRule → TransitionRule → Prop where
  | nil (r : TransitionRule) : Runs [] r r
  | cons {e : Event} {es : List Event} {r q q' : TransitionRule} (h : Steps e r q)
    (hs : Runs es q q') : Runs (e :: es) r q'

namespace Runs

theorem one (h : Steps e r q) : Runs [e] r q := .cons h (.nil q)

theorem append (h : Runs es r q) (h' : Runs es' q q') : Runs (es ++ es') r q' := by
  induction h with
  | nil => exact h'
  | cons hs _ ih => exact .cons hs (ih h')

theorem start_eq (h : Runs es r q) : q.start = r.start := by
  induction h with
  | nil => rfl
  | cons hs _ ih => exact ih.trans hs.start_eq

end Runs

/-! ## Between parts -/

/-- Whether a rule is between parts: it is at a modifier as `q`, or the next token makes it `q`. -/
structure Rests (r q : TransitionRule) : Prop where
  expect : q.expect = .modifier none
  rule : r = q ∨ (r.expect ≠ .modifier none ∧ ∀ e, Follows e → r.look e = .ok ⟨q, true⟩)

theorem Rests.refl (h : r.expect = .modifier none) : Rests r r := ⟨h, .inl rfl⟩

/-- What has been begun is complete as soon as a token follows that does not belong to it. -/
theorem Rests.of_look (h : q.expect = .modifier none) (hr : r.expect ≠ .modifier none)
    (hl : ∀ e, Follows e → r.look e = .ok ⟨q, true⟩) : Rests r q := ⟨h, .inr ⟨hr, hl⟩⟩

theorem Rests.steps (h : Rests r q) (he : Follows e) (hstop : e.isSymbol ';' = false)
    (hl : q.modifier e = .ok ⟨q', false⟩) : Steps e r q' := by
  have hends : q.ends e = false := by rw [ends, hstop, Bool.and_false]
  have hlook : q.look e = .ok ⟨q', false⟩ := by
    unfold look
    rw [h.expect]
    exact hl
  rcases h.rule with rfl | ⟨hx, hr⟩
  · exact .once hends hlook
  · exact .twice (ends_expecting hx e) (hr e he) hends hlook

/-- The semicolon ends a statement. -/
theorem Rests.finish {η : Type} {scope : Scope} {start : Span × Position} (h : Rests r q)
    (he : e.isSymbol ';' = true) (hb : q.bracket = false) (hscope : q.scope = some scope)
    (hstart : q.start = some start) (s : Session η) :
    lookAgain e s maxLooks r =
      .ok (q, { s with pending := s.pending ++ q.queued s.controller scope start },
        some (.detach false)) := by
  have hq (fuel : Nat) : lookAgain e s (fuel + 1) q =
      .ok (q, { s with pending := s.pending ++ q.queued s.controller scope start },
        some (.detach false)) := by
    have hends : q.ends e = true := by rw [ends, h.expect, he]; rfl
    rw [lookAgain, if_pos hends, TransitionRule.finish, hb, if_neg Bool.false_ne_true, hscope, hstart]
    rfl
  rcases h.rule with rfl | ⟨hx, hr⟩
  · exact hq 1
  · rw [maxLooks, lookAgain, ends_expecting hx e, hr e (.symbol he (by decide))]
    exact hq 0

/-! ## Tests and conditions -/

theorem runs_relation {relation : Relation} (h : relation.Spells es) (parameter : String) :
    Runs es (r.expecting (.operator parameter false none))
      (r.expecting (.threshold parameter relation.mode)) := by
  -- The first half of a comparison of two symbols.
  have hhalf {e : Event} {c : Char} (hc : c = '=' ∨ c = '!') (he : e.Is (.symbol c)) :
      Steps e (r.expecting (.operator parameter false none))
        (r.expecting (.operator parameter false (some c))) := by
    refine .expecting (by simp [TransitionRule.expecting]) ?_
    rcases hc with rfl | rfl
    all_goals
      simp [look, TransitionRule.expecting, operator, he.symbol_isSymbol]
  cases h with
  | greater he | less he =>
    refine .one (.expecting (by simp [TransitionRule.expecting]) ?_)
    simp [look, TransitionRule.expecting, operator, (Event.isSymbol_is he).symbol_isSymbol,
      Relation.mode]
  | equals he he' =>
    refine .cons (hhalf (.inl rfl) (Event.isSymbol_is he)) (.one (.expecting ?_ ?_))
    · simp [TransitionRule.expecting]
    · simp [look, TransitionRule.expecting, operator, he', Relation.mode]
  | notEqual he he' =>
    refine .cons (hhalf (.inr rfl) (Event.isSymbol_is he)) (.one (.expecting ?_ ?_))
    · simp [TransitionRule.expecting]
    · simp [look, TransitionRule.expecting, operator, he', Relation.mode]

/-- A test is complete, or its parameter stands alone and the next token completes it. -/
theorem runs_test {t : Test} (h : t.Spells es) {opening : Bool} (hx : r.expect = .condition opening) :
    ∃ r', Runs es r r' ∧ Rests r' (r.commit t.condition) := by
  have hfirst {e : Event} {parameter : String} (hname : e.name? = some parameter) :
      Steps e r (r.expecting (.operator parameter false none)) := by
    refine .expecting (by simp [hx]) ?_
    simp [look, hx, Event.name_isSymbol hname, Event.name_ok hname]
    rfl
  -- A parameter that is tested alone ends with the next token.
  have halone (parameter : String) (negated : Bool) :
      Rests (r.expecting (.operator parameter negated none))
        (r.commit ⟨parameter, if negated then .fails else .holds, .zero⟩) := by
    refine .of_look rfl (by simp [TransitionRule.expecting]) fun e he => ?_
    have hs := he.symbols
    simp only [List.forall_mem_cons] at hs
    simp [look, TransitionRule.expecting, operator, hs, commit]
  cases h with
  | bare hname => exact ⟨_, .one (hfirst hname), halone _ false⟩
  | @negated e e' parameter hbang hname =>
    have he := Event.isSymbol_is hbang
    have hnegated : Steps e r (r.expecting .negated) := by
      refine .expecting (by simp [hx]) ?_
      simp [look, hx, he.symbol_isSymbol]
    have hsecond : Steps e' (r.expecting .negated) (r.expecting (.operator parameter true none)) := by
      refine .expecting (by simp [TransitionRule.expecting]) ?_
      simp [look, TransitionRule.expecting, Event.name_ok hname]
      rfl
    exact ⟨_, .cons hnegated (.one hsecond), halone _ true⟩
  | @compared e e' es parameter relation threshold hname hrel hnumber =>
    have hthreshold : Steps e' (r.expecting (.threshold parameter relation.mode))
        (r.commit ⟨parameter, relation.mode, threshold⟩) := by
      refine .expecting (by simp [TransitionRule.expecting]) ?_
      simp [look, TransitionRule.expecting, Event.number_ok hnumber]
      rfl
    exact ⟨_, .cons (hfirst hname) ((runs_relation hrel parameter).append (.one hthreshold)),
      .refl rfl⟩

/-- A rule with a condition behind the conditions it has. -/
def conditions (r : TransitionRule) (bracket : Bool) (tss : List (List Test)) : TransitionRule :=
  { r with
    groups := r.groups ++ tss.map fun ts => ts.map Test.condition
    bracket
    expect := .modifier none }

theorem conditions_ne_nil {tss : List (List Test)} (h : Alternatives tss es) (bracket : Bool) :
    (r.conditions bracket tss).groups.isEmpty = false := by
  cases h <;> simp [conditions]

/-- `&&` or `||` behind a condition. -/
theorem runs_connective {e e' : Event} {c : Char} (hc : c = '&' ∨ c = '|') (h : Rests r q)
    (he : e.isSymbol c = true) (he' : e'.isSymbol c = true) (hg : q.groups.isEmpty = false) :
    Runs [e, e'] r (if c = '|' then q.openGroup.expecting (.condition (!q.bracket))
      else q.expecting (.condition false)) := by
  have hsym := Event.isSymbol_is he
  have hfirst : Steps e r (q.expecting (.modifier (some c))) := by
    rcases hc with rfl | rfl
    all_goals
      refine h.steps (.symbol he (by decide)) (by simp [hsym.symbol_isSymbol]) ?_
      simp [modifier, hsym.symbol_kind, symbolModifier, hsym.symbol_isSymbol]
  have hsecond : Steps e' (q.expecting (.modifier (some c)))
      (if c = '|' then q.openGroup.expecting (.condition (!q.bracket))
        else q.expecting (.condition false)) := by
    refine .expecting (by simp [TransitionRule.expecting]) ?_
    rcases hc with rfl | rfl
    all_goals
      simp [look, TransitionRule.expecting, connective, he', hg, openGroup]
  exact .cons hfirst (.one hsecond)

/-- The alternatives of a condition are read behind the alternative that `if` has opened, in a
bracket or not. -/
theorem runs_alternatives {tss : List (List Test)} (h : Alternatives tss es) (bracket opening : Bool) :
    ∃ r', Runs es { r.openGroup with bracket, expect := .condition opening } r' ∧
      Rests r' (r.conditions bracket tss) := by
  -- By induction on the tests, of which each adds to the last alternative.
  induction h with
  | @test t es ht =>
    obtain ⟨r', hruns, hrests⟩ := runs_test ht
      (r := { r.openGroup with bracket, expect := .condition opening }) rfl
    refine ⟨r', hruns, ?_⟩
    simpa [commit, openGroup, addCondition_append, conditions] using hrests
  | @and tss ts t es es' e e' h he he' ht ih =>
    obtain ⟨r₁, hruns, hrests⟩ := ih
    have hand := runs_connective (.inl rfl) hrests he he' (conditions_ne_nil h bracket)
    obtain ⟨r₂, hruns', hrests'⟩ := runs_test ht
      (r := (r.conditions bracket (tss ++ [ts])).expecting (.condition false)) rfl
    refine ⟨r₂, hruns.append (hand.append hruns'), ?_⟩
    simpa [commit, TransitionRule.expecting, conditions, ← List.append_assoc, addCondition_append]
      using hrests'
  | @or tss t es es' e e' h he he' ht ih =>
    obtain ⟨r₁, hruns, hrests⟩ := ih
    have hor := runs_connective (.inr rfl) hrests he he' (conditions_ne_nil h bracket)
    obtain ⟨r₂, hruns', hrests'⟩ := runs_test ht
      (r := (r.conditions bracket tss).openGroup.expecting (.condition (!bracket))) rfl
    refine ⟨r₂, hruns.append (hor.append hruns'), ?_⟩
    simpa [commit, TransitionRule.expecting, openGroup, conditions, ← List.append_assoc,
      addCondition_append] using hrests'

/-! ## Parts -/

/-- The first word of a part. -/
theorem Rests.word (h : Rests r q) (he : e.isKeyword w = true) (hw : w ∈ starters)
    (hl : q.wordModifier e = .ok ⟨q', false⟩) : Steps e r q' := by
  have hopens := Opens.word he hw
  refine h.steps hopens.follows hopens.not_semicolon ?_
  simp only [modifier, Event.isKeyword_kind he]
  exact hl

/-- A part that is one word. -/
theorem Rests.word_alone {p : Part} (h : Rests r q) (he : e.isKeyword w = true) (hw : w ∈ starters)
    (hl : q.wordModifier e = .ok ⟨p.apply q, false⟩) : ∃ r', Runs [e] r r' ∧ Rests r' (p.apply q) :=
  ⟨_, .one (h.word he hw hl), .refl (Part.apply_expect h.expect p)⟩

theorem runs_condition {tss : List (List Test)} (h : Bracketed (Alternatives tss) es)
    (hx : q.expect = .modifier none) (hb : q.bracket = false) :
    ∃ r', Runs es (q.openGroup.expecting (.condition true)) r' ∧
      Rests r' ((Part.condition tss).apply q) := by
  have happly : q.conditions false tss = (Part.condition tss).apply q := by
    rw [conditions, Part.apply, ← hx, ← hb]
  rw [← happly]
  cases h with
  | bare h =>
    have hopen : q.openGroup.expecting (.condition true) =
        { q.openGroup with bracket := false, expect := .condition true } := by
      rw [TransitionRule.expecting, ← hb]
      rfl
    rw [hopen]
    exact runs_alternatives h false true
  | @within e e' es he h he' =>
    have hopen : Steps e (q.openGroup.expecting (.condition true))
        { q.openGroup with bracket := true, expect := .condition false } := by
      refine .expecting (by simp [TransitionRule.expecting]) ?_
      simp [look, TransitionRule.expecting, openGroup, hb, he]
    obtain ⟨r', hruns, hrests⟩ := runs_alternatives (r := q) h true false
    have hsym := Event.isSymbol_is he'
    have hclose : Steps e' r' (q.conditions false tss) := by
      refine hrests.steps (.symbol he' (by decide)) (by simp [hsym.symbol_isSymbol]) ?_
      simp [modifier, hsym.symbol_kind, symbolModifier, hsym.symbol_isSymbol, conditions]
    exact ⟨_, .cons hopen (hruns.append (.one hclose)), .refl rfl⟩

theorem runs_wait {time : Single} (h : Bracketed (fun es => ∃ e, es = [e] ∧ e.single? = some time) es) :
    Runs es (q.expecting .waitOpen) ((Part.wait time).apply q) := by
  cases h with
  | bare h =>
    obtain ⟨e, rfl, hnumber⟩ := h
    refine .one (.expecting (by simp [TransitionRule.expecting]) ?_)
    simp [look, TransitionRule.expecting, (Event.single_is hnumber).number_isSymbol,
      Event.number_ok hnumber]
    rfl
  | @within e e' _ he h he' =>
    obtain ⟨e₁, rfl, hnumber⟩ := h
    have hopen : Steps e (q.expecting .waitOpen) (q.expecting .waitValue) := by
      refine .expecting (by simp [TransitionRule.expecting]) ?_
      simp [look, TransitionRule.expecting, he]
    have hvalue : Steps e₁ (q.expecting .waitValue)
        (((Part.wait time).apply q).expecting .waitClose) := by
      refine .expecting (by simp [TransitionRule.expecting]) ?_
      simp [look, TransitionRule.expecting, Event.number_ok hnumber]
      rfl
    have hclose : Steps e' (((Part.wait time).apply q).expecting .waitClose)
        ((Part.wait time).apply q) := by
      refine .expecting (by simp [TransitionRule.expecting]) ?_
      simp [look, TransitionRule.expecting, he', Part.apply, modified]
    exact .cons hopen (.cons hvalue (.one hclose))

theorem runs_fade {duration : Single} {seconds : Bool} (h : Bracketed (Duration duration seconds) es) :
    ∃ r', Runs es (q.expecting .fadeOpen) r' ∧ Rests r' ((Part.fade duration seconds).apply q) := by
  cases h with
  | bare h =>
    cases h with
    | @mk e es hnumber hes =>
      have hvalue : Steps e (q.expecting .fadeOpen)
          ((q.modified ({ · with duration })).expecting (.fadeUnit false)) := by
        refine .expecting (by simp [TransitionRule.expecting]) ?_
        simp [look, TransitionRule.expecting, (Event.single_is hnumber).number_isSymbol,
          Event.number_ok hnumber]
        rfl
      cases hes with
      | absent =>
        refine ⟨_, .one hvalue, .of_look rfl (by simp [TransitionRule.expecting]) fun e he => ?_⟩
        simp [look, TransitionRule.expecting, he.words "s" (by simp), Part.apply, modified]
      | @present e' he' =>
        refine ⟨_, .cons hvalue (.one (.expecting (by simp [TransitionRule.expecting]) ?_)), .refl rfl⟩
        simp [look, TransitionRule.expecting, he', Part.apply, modified]
  | @within e e' _ he h he' =>
    cases h with
    | @mk e₁ es hnumber hes =>
      have hopen : Steps e (q.expecting .fadeOpen) (q.expecting .fadeValue) := by
        refine .expecting (by simp [TransitionRule.expecting]) ?_
        simp [look, TransitionRule.expecting, he]
      have hvalue : Steps e₁ (q.expecting .fadeValue)
          ((q.modified ({ · with duration })).expecting (.fadeUnit true)) := by
        refine .expecting (by simp [TransitionRule.expecting]) ?_
        simp [look, TransitionRule.expecting, Event.number_ok hnumber]
        rfl
      refine ⟨(Part.fade duration seconds).apply q, .cons hopen (.cons hvalue ?_), .refl rfl⟩
      cases hes with
      | absent =>
        -- The closing bracket ends the number, and then the part.
        refine .one (.twice (q := (q.modified ({ · with duration })).expecting .fadeClose)
          (ends_expecting (by simp [TransitionRule.expecting]) e') ?_
          (ends_expecting (by simp [TransitionRule.expecting]) e') ?_)
        · simp [look, TransitionRule.expecting, (Event.isSymbol_is he').symbol_isKeyword]
        · simp [look, TransitionRule.expecting, he', Part.apply, modified]
      | @present e₂ he₂ =>
        have hunit : Steps e₂ ((q.modified ({ · with duration })).expecting (.fadeUnit true))
            (((Part.fade duration true).apply q).expecting .fadeClose) := by
          refine .expecting (by simp [TransitionRule.expecting]) ?_
          simp [look, TransitionRule.expecting, he₂, Part.apply, modified]
        refine .cons hunit (.one (.expecting (by simp [TransitionRule.expecting]) ?_))
        simp [look, TransitionRule.expecting, he', Part.apply, modified]

/-- Behind the first sign, each minus turns the sign of the number. -/
theorem runs_signs {negative : Bool} (h : Signs negative es) (hr : Rests r q) :
    (es = [] ∧ negative = false) ∨ Runs es r (q.expecting (.offset negative)) := by
  have hfirst {e : Event} {c : Char} (hc : c = '+' ∨ c = '-') (he : e.isSymbol c = true) :
      Steps e r (q.expecting (.offset (c == '-'))) := by
    have hopens := Opens.sign he hc
    have hsym := Event.isSymbol_is he
    refine hr.steps hopens.follows hopens.not_semicolon ?_
    rcases hc with rfl | rfl
    all_goals
      simp [modifier, hsym.symbol_kind, symbolModifier, hsym.symbol_isSymbol]
  have hnext {e : Event} {c : Char} {negative : Bool} (hc : c = '+' ∨ c = '-')
      (he : e.isSymbol c = true) : Steps e (q.expecting (.offset negative))
        (q.expecting (.offset (if c = '-' then !negative else negative))) := by
    have hsym := Event.isSymbol_is he
    refine .expecting (by simp [TransitionRule.expecting]) ?_
    rcases hc with rfl | rfl
    all_goals
      simp [look, TransitionRule.expecting, hsym.symbol_isSymbol]
  induction h with
  | nil => exact .inl ⟨rfl, rfl⟩
  | plus _ he ih =>
    right
    rcases ih with ⟨rfl, rfl⟩ | hruns
    · exact .one (hfirst (.inl rfl) he)
    · exact hruns.append (.one (hnext (.inl rfl) he))
  | minus _ he ih =>
    right
    rcases ih with ⟨rfl, rfl⟩ | hruns
    · exact .one (hfirst (.inr rfl) he)
    · exact hruns.append (.one (hnext (.inr rfl) he))

theorem runs_offset {negative : Bool} {x : Single} (h : Signs negative es) (hr : Rests r q)
    (he : e.single? = some x) :
    Runs (es ++ [e]) r ((Part.offset (signed negative x)).apply q) := by
  have hnumber := Event.single_is he
  rcases runs_signs h hr with ⟨rfl, rfl⟩ | hruns
  · have hopens := Opens.single he
    refine .one (hr.steps hopens.follows hopens.not_semicolon ?_)
    simp only [modifier, hnumber.number_kind, Event.number_ok he]
    rfl
  · refine hruns.append (.one (.expecting (by simp [TransitionRule.expecting]) ?_))
    simp [look, TransitionRule.expecting, hnumber.number_isSymbol, Event.number_ok he]
    rfl

theorem runs_names {absolute : Bool} {ns : List String} (h : Names absolute ns es) :
    Runs es (q.expecting .gotoStart) (q.expecting (.gotoNext absolute ns)) := by
  have hname {e : Event} {n : String} (he : e.name? = some n) (ns : List String) :
      Steps e (q.expecting (.gotoSegment true ns)) (q.expecting (.gotoNext true (ns ++ [n]))) := by
    refine .expecting (by simp [TransitionRule.expecting]) ?_
    simp [look, TransitionRule.expecting, Event.name_ok he]
    rfl
  induction h with
  | relative he =>
    refine .one (.expecting (by simp [TransitionRule.expecting]) ?_)
    simp [look, TransitionRule.expecting, Event.name_isSymbol he, Event.name_ok he]
    rfl
  | root he h =>
    refine .cons (.expecting (q := q.expecting (.gotoSegment true []))
      (by simp [TransitionRule.expecting]) ?_) (.one (hname h []))
    simp [look, TransitionRule.expecting, he]
  | @into absolute ns n es e e' _ he h ih =>
    refine ih.append (.cons (.expecting (q := q.expecting (.gotoSegment true ns))
      (by simp [TransitionRule.expecting]) ?_) (.one (hname h ns)))
    simp [look, TransitionRule.expecting, he]

theorem rests_names (hx : q.expect = .modifier none) (absolute : Bool) (ns : List String) :
    Rests (q.expecting (.gotoNext absolute ns)) ((Part.goto (goal absolute ns)).apply q) := by
  refine .of_look hx (by simp [TransitionRule.expecting]) fun e he => ?_
  simp only [look, TransitionRule.expecting, he.symbols '/' (by simp), Part.apply, ← hx]
  rfl

theorem read?_of_isKeyword {i : Interruption} (h : e.isKeyword (Keyword.spelling i) = true) :
    (Keyword.read? e.text : Option Interruption) = some i := by
  have hspelling (w : String) : Text.equalsIgnoringCase w e.text =
      Text.equalsIgnoringCase (Keyword.spelling i) w := by
    rw [equalsIgnoringCase_comm, ← (Event.isKeyword_is h).word_isKeyword, Event.isKeyword_eq h]
  simp only [Keyword.read?, hspelling]
  cases i <;> decide

/-- Every part is read to its end, whichever token follows. -/
theorem Part.Spells.runs {p : Part} (h : p.Spells es) (hr : Rests r q) (hb : q.bracket = false) :
    ∃ r', Runs es r r' ∧ Rests r' (p.apply q) := by
  have hx := hr.expect
  -- A word with more behind it.
  have hword {e : Event} {es : List Event} {w : String} {q' : TransitionRule} {p : Part}
      (he : e.isKeyword w = true) (hw : w ∈ starters) (hl : q.wordModifier e = .ok ⟨q', false⟩)
      (hs : ∃ r', Runs es q' r' ∧ Rests r' (p.apply q)) :
      ∃ r', Runs (e :: es) r r' ∧ Rests r' (p.apply q) := by
    obtain ⟨r', hruns, hrests⟩ := hs
    exact ⟨r', .cons (hr.word he hw hl) hruns, hrests⟩
  cases h with
  | muted he | solo he | any he | noSelf he | exit he =>
    refine hr.word_alone he (by decide) ?_
    simp +decide [wordModifier, Event.isKeyword_eq he, Part.apply]
  | condition he hes =>
    refine hword he (by decide) ?_ (runs_condition hes hx hb)
    simp +decide [wordModifier, Event.isKeyword_eq he]
  | wait he hes =>
    refine hword he (by decide) ?_ ⟨_, runs_wait hes, .refl rfl⟩
    simp +decide [wordModifier, Event.isKeyword_eq he]
  | fade he hes =>
    refine hword he (by decide) ?_ (runs_fade hes)
    simp +decide [wordModifier, Event.isKeyword_eq he]
  | offset hes he => exact ⟨_, runs_offset hes hr he, .refl rfl⟩
  | @interruption e i ordered es he hes =>
    have hw : Keyword.spelling i ∈ starters := by cases i <;> decide
    have hread : q.wordModifier e =
        .ok ⟨(q.modified ({ · with interruption := i })).expecting .ordered, false⟩ := by
      have htext := read?_of_isKeyword he
      cases i
      all_goals
        simp +decide [wordModifier, Event.isKeyword_eq he, htext]
    refine hword he hw hread ?_
    cases hes with
    | absent =>
      refine ⟨_, .nil _, .of_look rfl (by simp [TransitionRule.expecting]) fun e he => ?_⟩
      simp [look, TransitionRule.expecting, he.words "ordered" (by simp), Part.apply, modified]
    | @present e' he' =>
      refine ⟨_, .one (.expecting (by simp [TransitionRule.expecting]) ?_), .refl rfl⟩
      simp [look, TransitionRule.expecting, he', Part.apply, modified]
  | goto he hes =>
    refine hword he (by decide) ?_ ⟨_, runs_names hes, rests_names hx _ _⟩
    simp +decide [wordModifier, Event.isKeyword_eq he]

/-- The parts of a statement are read one after another. -/
theorem Statement.runs {ps : List Part} (h : Statement ps es) (hr : Rests r q)
    (hb : q.bracket = false) : ∃ r', Runs es r r' ∧ Rests r' (Part.applyAll q ps) := by
  induction h generalizing r q with
  | nil => exact ⟨r, .nil r, hr⟩
  | @cons p ps es es' hp _ ih =>
    obtain ⟨r₁, hruns, hrests⟩ := hp.runs hr hb
    obtain ⟨r₂, hruns', hrests'⟩ := ih hrests ((p.apply_bracket q).trans hb)
    exact ⟨r₂, hruns.append hruns', hrests'⟩

theorem Signs.opens {negative : Bool} (h : Signs negative es) :
    es = [] ∨ ∃ e es', es = e :: es' ∧ Opens e := by
  have hsign {e : Event} {es : List Event} {c : Char} (hc : c = '+' ∨ c = '-')
      (he : e.isSymbol c = true) (h : es = [] ∨ ∃ e es', es = e :: es' ∧ Opens e) :
      ∃ e' es', es ++ [e] = e' :: es' ∧ Opens e' := by
    rcases h with rfl | ⟨e', es', rfl, hopens⟩
    · exact ⟨_, _, rfl, .sign he hc⟩
    · exact ⟨e', _, rfl, hopens⟩
  induction h with
  | nil => exact .inl rfl
  | plus _ he ih => exact .inr (hsign (.inl rfl) he ih)
  | minus _ he ih => exact .inr (hsign (.inr rfl) he ih)

/-- Every part has a first token that no other part takes for its own. -/
theorem Part.Spells.opens {p : Part} (h : p.Spells es) : ∃ e es', es = e :: es' ∧ Opens e := by
  cases h with
  | muted he | solo he | any he | noSelf he | exit he | condition he | wait he | fade he | goto he =>
    all_goals exact ⟨_, _, rfl, .word he (by decide)⟩
  | @interruption e i _ _ he => exact ⟨_, _, rfl, .word he (by cases i <;> decide)⟩
  | offset hes he =>
    rcases hes.opens with rfl | ⟨e', es', rfl, hopens⟩
    · exact ⟨_, _, rfl, .single he⟩
    · exact ⟨e', _, rfl, hopens⟩

theorem Statement.opens {p : Part} {ps : List Part} (h : Statement (p :: ps) (e :: es)) : Opens e := by
  generalize heq : e :: es = tokens at h
  cases h with
  | cons hp _ =>
    obtain ⟨e', es', rfl, hopens⟩ := hp.opens
    rw [List.cons_append] at heq
    exact (List.cons.inj heq).1 ▸ hopens

end MotionScript.TransitionRule
