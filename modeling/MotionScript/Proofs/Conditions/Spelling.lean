import MotionScript.Proofs.Linking.Turn
import MotionScript.Proofs.Shape.Looks
import MotionScript.Proofs.Statements.Parts
/-!
# The words of a statement

A transition statement is a sequence of the words of its condition clause and of other parts, which
may stand in any order. The rule of the statement keeps, after every token, the conjunctions of the
words and what the parts say.
-/

namespace MotionScript

open TransitionRule (Look Looked Marked Names Part Signs)

/-- The words of the clause and the other parts that some tokens of a statement spell, and whether
an operand is expected behind them. -/
inductive Worded : List Word → List Part → Bool → List Event → Prop where
  | nil : Worded [] [] false []
  | part {ws : List Word} {ps : List Part} {p : Part} {es es' : List Event}
    (h : Worded ws ps false es) (h' : p.Spells es') (hp : p.kind ≠ .condition) :
    Worded ws (ps ++ [p]) false (es ++ es')
  | start {ws : List Word} {ps : List Part} {es : List Event} {e : Event}
    (h : Worded ws ps false es) (he : e.isKeyword "if" = true) :
    Worded (ws ++ [.start]) ps true (es ++ [e])
  | or {ws : List Word} {ps : List Part} {es : List Event} {e e' : Event}
    (h : Worded ws ps false es) (he : e.isSymbol '|' = true) (he' : e'.isSymbol '|' = true) :
    Worded (ws ++ [.or]) ps true (es ++ [e, e'])
  | and {ws : List Word} {ps : List Part} {es : List Event} {e e' : Event}
    (h : Worded ws ps false es) (he : e.isSymbol '&' = true) (he' : e'.isSymbol '&' = true) :
    Worded (ws ++ [.and]) ps true (es ++ [e, e'])
  | opening {ws : List Word} {ps : List Part} {es : List Event} {e : Event}
    (h : Worded ws ps true es) (he : e.isSymbol '(' = true) :
    Worded (ws ++ [.opening]) ps true (es ++ [e])
  | closing {ws : List Word} {ps : List Part} {es : List Event} {e : Event}
    (h : Worded ws ps false es) (he : e.isSymbol ')' = true) :
    Worded (ws ++ [.closing]) ps false (es ++ [e])
  | test {ws : List Word} {ps : List Part} {es es' : List Event} {t : Test}
    (h : Worded ws ps true es) (ht : t.Spells es') : Worded (ws ++ [.test t]) ps false (es ++ es')

/-! ## Words and parts that have been begun -/

/-- A test without a comparison. -/
def Test.plain (parameter : String) (negated : Bool) : Test :=
  if negated then .negated parameter else .bare parameter

/-- The tokens that have been read of what is to be completed, by what is expected next, and what
they have done to the modifiers. -/
inductive Begun : TransitionExpect → (Transition → Transition) → List Event → Prop where
  | modifier : Begun (.modifier none) id []
  | connective {e : Event} {c : Char} (hc : c = '&' ∨ c = '|') (h : e.isSymbol c = true) :
    Begun (.modifier (some c)) id [e]
  | condition {opening : Bool} : Begun (.condition opening) id []
  | negated {e : Event} (h : e.isSymbol '!' = true) : Begun .negated id [e]
  | operator {parameter : String} {negated : Bool} {es : List Event}
    (h : (Test.plain parameter negated).Spells es) : Begun (.operator parameter negated none) id es
  | comparison {parameter : String} {negated : Bool} {es : List Event} {e : Event} {c : Char}
    (h : (Test.plain parameter negated).Spells es) (hc : c = '=' ∨ c = '!')
    (he : e.isSymbol c = true) : Begun (.operator parameter negated (some c)) id (es ++ [e])
  | threshold {parameter : String} {relation : Relation} {e : Event} {es : List Event}
    (h : e.name? = some parameter) (hes : relation.Spells es) :
    Begun (.threshold parameter relation.mode) id (e :: es)
  | waitOpen {e : Event} (h : e.isKeyword "wait" = true) : Begun .waitOpen id [e]
  | waitValue {e e' : Event} (h : e.isKeyword "wait" = true) (h' : e'.isSymbol '(' = true) :
    Begun .waitValue id [e, e']
  | waitClose {e e₁ e₂ : Event} {time : Single} (h : e.isKeyword "wait" = true)
    (h₁ : e₁.isSymbol '(' = true) (h₂ : e₂.single? = some time) :
    Begun .waitClose ({ · with exitTime := some time }) [e, e₁, e₂]
  | fadeOpen {e : Event} (h : e.isKeyword "fade" = true) : Begun .fadeOpen id [e]
  | fadeValue {e e' : Event} (h : e.isKeyword "fade" = true) (h' : e'.isSymbol '(' = true) :
    Begun .fadeValue id [e, e']
  | fadeUnit {e e' : Event} {duration : Single} (h : e.isKeyword "fade" = true)
    (h' : e'.single? = some duration) : Begun (.fadeUnit false) ({ · with duration }) [e, e']
  | fadeUnitBracket {e e₁ e₂ : Event} {duration : Single} (h : e.isKeyword "fade" = true)
    (h₁ : e₁.isSymbol '(' = true) (h₂ : e₂.single? = some duration) :
    Begun (.fadeUnit true) ({ · with duration }) [e, e₁, e₂]
  | fadeClose {e e₁ e₂ : Event} {duration : Single} {seconds : Bool} {es : List Event}
    (h : e.isKeyword "fade" = true) (h₁ : e₁.isSymbol '(' = true) (h₂ : e₂.single? = some duration)
    (hes : Marked "s" seconds es) :
    Begun .fadeClose (fun t => { t with duration, fixedDuration := seconds || t.fixedDuration })
      (e :: e₁ :: e₂ :: es)
  | offset {negative : Bool} {es : List Event} (hes : Signs negative es) :
    Begun (.offset negative) id es
  | ordered {e : Event} {i : Interruption} (h : e.isKeyword (Keyword.spelling i) = true) :
    Begun .ordered ({ · with interruption := i }) [e]
  | gotoStart {e : Event} (h : e.isKeyword "goto" = true) : Begun .gotoStart id [e]
  | gotoRoot {e e' : Event} (h : e.isKeyword "goto" = true) (h' : e'.isSymbol '/' = true) :
    Begun (.gotoSegment true []) id [e, e']
  | gotoSegment {e e' : Event} {absolute : Bool} {segments : List String} {es : List Event}
    (h : e.isKeyword "goto" = true) (hes : Names absolute segments es)
    (he : e'.isSymbol '/' = true) :
    Begun (.gotoSegment true segments) id (e :: (es ++ [e']))
  | gotoNext {e : Event} {absolute : Bool} {segments : List String} {es : List Event}
    (h : e.isKeyword "goto" = true) (hes : Names absolute segments es) :
    Begun (.gotoNext absolute segments) id (e :: es)

/-- Whether an operand is expected and, if so, whether a bracket may open in front of it. -/
def TransitionExpect.operand? : TransitionExpect → Option Bool
  | .condition opening => some opening
  | .negated | .operator .. | .threshold .. => some false
  | _ => none

/-- Whether a rule has the list and the destination of another one, and its modifiers after a
change. -/
def TransitionRule.Agrees (q : TransitionRule) (f : Transition → Transition)
    (r : TransitionRule) : Prop :=
  r.modifiers = f q.modifiers ∧ r.any = q.any ∧ r.goto = q.goto

/-- What the rule of a statement has kept of the tokens that it has read. -/
structure TransitionRule.Keeps (r : TransitionRule) (ws : List Word) (ps : List Part)
    (f : Transition → Transition) (done begun : List Event) : Prop where
  worded : Worded ws ps r.expect.operand?.isSome done
  begun : Begun r.expect f begun
  groups : r.groups = conjunctions ws
  agrees : Agrees (Part.applyAll {} ps) f r
  standing : Standing r.bracket r.expect.operand? ws
  plain : Standing false r.expect.operand? (unbracketed ws)

/-- Whether the rule of a statement has kept the words and parts of the tokens that it has read. -/
def TransitionRule.Tracks (r : TransitionRule) (es : List Event) : Prop :=
  ∃ ws ps f done begun, es = done ++ begun ∧ r.Keeps ws ps f done begun

theorem Event.number_eq {e : Event} {x : Single} (h : e.number = .ok x) : e.single? = some x := by
  unfold Event.number at h
  split at h <;> cases h
  assumption

/-- A word that names an interruption is its keyword. -/
theorem Event.isKeyword_of_read {e : Event} {i : Interruption} (hk : e.kind = .identifier)
    (h : (Keyword.read? e.text : Option Interruption) = some i) :
    e.isKeyword (Keyword.spelling i) = true := by
  have hfound := List.find?_some h
  rw [equalsIgnoringCase_comm] at hfound
  rw [Token.isKeyword, hk, hfound]
  rfl

namespace TransitionRule

variable {r r' : TransitionRule} {ws : List Word} {ps : List Part} {f : Transition → Transition}
  {done begun es : List Event} {e : Event}

/-! ## Steps of the rule -/

theorem Part.applyAll_concat (r : TransitionRule) (ps : List Part) (p : Part) :
    Part.applyAll r (ps ++ [p]) = p.apply (Part.applyAll r ps) := by
  simp [Part.applyAll]

/-- The rule waits for another part of what has been begun. -/
theorem Keeps.goOn (h : r.Keeps ws ps f done begun) (hop : r'.expect.operand? = r.expect.operand?)
    (hsame : r'.groups = r.groups ∧ r'.bracket = r.bracket) {g : Transition → Transition}
    {begun' : List Event} (hbegun : Begun r'.expect g begun')
    (hagrees : Agrees (Part.applyAll {} ps) g r') : r'.Tracks (done ++ begun') := by
  refine ⟨ws, ps, g, done, begun', rfl, ?_, hbegun, hsame.1 ▸ h.groups, hagrees, ?_, ?_⟩
  · rw [hop]
    exact h.worded
  · rw [hop, hsame.2]
    exact h.standing
  · rw [hop]
    exact h.plain

/-- The rule waits for something else. -/
theorem Keeps.expecting (h : r.Keeps ws ps f done begun) {x : TransitionExpect}
    (hop : x.operand? = r.expect.operand?) {begun' : List Event} (hbegun : Begun x f begun') :
    (r.expecting x).Tracks (done ++ begun') := h.goOn hop (by exact ⟨rfl, rfl⟩) hbegun h.agrees

/-- What is kept of the words, where it is known whether an operand is expected. -/
theorem Keeps.awaiting (h : r.Keeps ws ps f done begun) {o : Option Bool}
    (hop : r.expect.operand? = o) :
    Worded ws ps o.isSome done ∧ Standing r.bracket o ws ∧ Standing false o (unbracketed ws) :=
  hop ▸ ⟨h.worded, h.standing, h.plain⟩

/-- A part is complete. -/
theorem Keeps.part (h : r.Keeps ws ps f done begun) (hop : r.expect.operand? = none)
    (hsame : r'.groups = r.groups ∧ r'.bracket = r.bracket) (hx : r'.expect = .modifier none)
    {p : Part} (hes : p.Spells es) (hp : p.kind ≠ .condition)
    (hagrees : Agrees (p.apply (Part.applyAll {} ps)) id r') : r'.Tracks (done ++ es) := by
  obtain ⟨hs, hstanding, hplain⟩ := h.awaiting hop
  refine ⟨ws, ps ++ [p], id, done ++ es, [], (List.append_nil _).symm, ?_, hx ▸ .modifier,
    hsame.1 ▸ h.groups, ?_, ?_, ?_⟩
  · rw [hx]
    exact hs.part hes hp
  · rw [Part.applyAll_concat]
    exact hagrees
  · rw [hx, hsame.2]
    exact hstanding
  · rw [hx]
    exact hplain

/-- A change of the modifiers is kept by the rule. -/
theorem Keeps.changed (h : r.Keeps ws ps f done begun) (g : Transition → Transition) :
    Agrees (Part.applyAll {} ps) (g ∘ f) (r.modified g) := ⟨congrArg g h.agrees.1, h.agrees.2⟩

theorem unbracketed_append (ws : List Word) {w : Word} (h : w.isBracket = false) :
    unbracketed (ws ++ [w]) = unbracketed ws ++ [w] := by
  simp [unbracketed, h]

theorem unbracketed_append_bracket (ws : List Word) {w : Word} (h : w.isBracket = true) :
    unbracketed (ws ++ [w]) = unbracketed ws := by
  simp [unbracketed, h]

/-- A word is complete. The alternatives of the rule are still those of the words. -/
theorem Keeps.word (h : r.Keeps ws ps f done begun) {w : Word} {o : Option Bool}
    (hop : r'.expect.operand? = o) (hbegun : Begun r'.expect id [])
    (hgroups : r'.groups = w.extend r.groups) (hagrees : Agrees (Part.applyAll {} ps) id r')
    (hworded : Worded (ws ++ [w]) ps o.isSome (done ++ es))
    (hstanding : Standing r'.bracket o (ws ++ [w]))
    (hplain : Standing false o (unbracketed (ws ++ [w]))) : r'.Tracks (done ++ es) := by
  subst hop
  refine ⟨ws ++ [w], ps, id, done ++ es, [], (List.append_nil _).symm, hworded, hbegun, ?_, hagrees,
    hstanding, hplain⟩
  rw [conjunctions_append, ← h.groups]
  exact hgroups

/-- A test is complete. -/
theorem Keeps.test (h : r.Keeps ws ps id done begun) {o : Bool} (hop : r.expect.operand? = some o)
    {t : Test} (hes : t.Spells es) : (r.commit t.condition).Tracks (done ++ es) := by
  obtain ⟨hs, hstanding, hplain⟩ := h.awaiting hop
  refine h.word (w := .test t) rfl .modifier rfl h.agrees (hs.test hes) (hstanding.test t) ?_
  rw [unbracketed_append ws rfl]
  exact hplain.test t

/-- The second half of a connective. -/
theorem Keeps.connective (h : r.Keeps ws ps id done [e]) {c : Char}
    (hx : r.expect = .modifier (some c)) {e' : Event} {l : Look} (hl : r.connective e' c = .ok l) :
    l.again = false ∧ l.rule.Tracks (done ++ [e] ++ [e']) := by
  obtain ⟨hs, hstanding, hplain⟩ := h.awaiting (o := none) (by rw [hx]; rfl)
  have hbegun := h.begun
  rw [hx] at hbegun
  unfold TransitionRule.connective at hl
  split at hl
  · cases hl
  rename_i hsecond
  have hsecond : e'.isSymbol c = true := by simpa using hsecond
  split at hl
  · cases hl
  rename_i hgroups
  have hne : conjunctions ws ≠ [] := by
    rw [← h.groups]
    simpa using hgroups
  have hws : ws ≠ [] := by
    rintro rfl
    exact hne rfl
  have hws' : unbracketed ws ≠ [] := by
    intro hnil
    rw [← conjunctions_unbracketed, show ws.filter (!·.isBracket) = [] from hnil] at hne
    exact hne rfl
  rw [List.append_assoc, List.singleton_append]
  split at hl
  · rename_i hc
    subst hc
    cases hl
    refine ⟨rfl, h.word (w := .or) rfl .condition rfl h.agrees ?_ (hstanding.or hws) ?_⟩
    · cases hbegun with
      | connective hc hfirst => exact hs.or hfirst hsecond
    · rw [unbracketed_append ws rfl]
      have hor := hplain.or hws'
      cases r.bracket with
      | false => exact hor
      | true => exact hor.weaken
  · rename_i hc
    cases hl
    obtain rfl : c = '&' := by
      cases hbegun with
      | connective hc' hfirst => exact hc'.resolve_right hc
    refine ⟨rfl, h.word (w := .and) rfl .condition rfl h.agrees ?_ (hstanding.and hws) ?_⟩
    · cases hbegun with
      | connective hc hfirst => exact hs.and hfirst hsecond
    · rw [unbracketed_append ws rfl]
      exact hplain.and hws'

theorem Keeps.symbolModifier (h : r.Keeps ws ps id done []) (hx : r.expect = .modifier none)
    {l : Look} (hl : r.symbolModifier e = .ok l) : l.rule.Tracks (done ++ [e]) := by
  unfold TransitionRule.symbolModifier at hl
  split at hl
  · cases hl
    exact h.expecting (by rw [hx]; rfl) (.connective (.inl rfl) ‹_›)
  split at hl
  · cases hl
    exact h.expecting (by rw [hx]; rfl) (.connective (.inr rfl) ‹_›)
  split at hl
  · rename_i hclose
    rw [Bool.and_eq_true] at hclose
    cases hl
    have hop : r.expect.operand? = none := by rw [hx]; rfl
    obtain ⟨hs, hstanding, hplain⟩ := h.awaiting hop
    rw [hclose.2] at hstanding
    refine h.word (w := .closing) hop ?_ rfl h.agrees (hs.closing hclose.1) hstanding.closing ?_
    · rw [hx]
      exact .modifier
    · rw [unbracketed_append_bracket ws rfl]
      exact hplain
  split at hl
  · cases hl
    exact h.expecting (by rw [hx]; rfl) (.offset (Signs.nil.plus ‹_›))
  split at hl
  · cases hl
    exact h.expecting (by rw [hx]; rfl) (.offset (Signs.nil.minus ‹_›))
  · cases hl

theorem Keeps.wordModifier (h : r.Keeps ws ps id done []) (hx : r.expect = .modifier none)
    (hk : e.kind = .identifier) {l : Look} (hl : r.wordModifier e = .ok l) :
    l.rule.Tracks (done ++ [e]) := by
  have hop : r.expect.operand? = none := by rw [hx]; rfl
  unfold TransitionRule.wordModifier at hl
  split at hl
  · cases hl
    obtain ⟨hs, hstanding, hplain⟩ := h.awaiting hop
    refine h.word (w := .start) rfl .condition rfl h.agrees (hs.start ‹_›) hstanding.start ?_
    rw [unbracketed_append ws rfl]
    exact hplain.start
  split at hl
  · cases hl
    exact h.part hop (by exact ⟨rfl, rfl⟩) hx (.any ‹_›) nofun ⟨h.agrees.1, rfl, h.agrees.2.2⟩
  split at hl
  · cases hl
    exact h.part hop (by exact ⟨rfl, rfl⟩) rfl (.noSelf ‹_›) nofun
      (h.changed ({ · with toSelf := false }))
  split at hl
  · cases hl
    exact h.part hop (by exact ⟨rfl, rfl⟩) rfl (.muted ‹_›) nofun
      (h.changed ({ · with muted := true }))
  split at hl
  · cases hl
    exact h.part hop (by exact ⟨rfl, rfl⟩) rfl (.solo ‹_›) nofun
      (h.changed ({ · with solo := true }))
  split at hl
  · cases hl
    exact h.expecting (by rw [hop]; rfl) (.waitOpen ‹_›)
  split at hl
  · cases hl
    exact h.expecting (by rw [hop]; rfl) (.fadeOpen ‹_›)
  split at hl
  · cases hl
    exact h.part hop (by exact ⟨rfl, rfl⟩) hx (.exit ‹_›) nofun ⟨h.agrees.1, h.agrees.2.1, rfl⟩
  split at hl
  · cases hl
    exact h.expecting (by rw [hop]; rfl) (.gotoStart ‹_›)
  split at hl
  · cases hl
    exact h.goOn (by rw [hop]; rfl) (by exact ⟨rfl, rfl⟩)
      (.ordered (Event.isKeyword_of_read hk ‹_›)) (h.changed ({ · with interruption := _ }))
  · cases hl

/-- A token that can stand where a modifier or a connective may begin. -/
theorem Keeps.token (h : r.Keeps ws ps id done []) (hx : r.expect = .modifier none) {l : Look}
    (hl : r.modifier e = .ok l) : l.rule.Tracks (done ++ [e]) := by
  unfold TransitionRule.modifier at hl
  split at hl
  · obtain ⟨x, hn, hl⟩ := except_bind_ok.1 hl
    cases hl
    exact h.part (by rw [hx]; rfl) (by exact ⟨rfl, rfl⟩) rfl
      (.offset .nil (Event.number_eq hn)) nofun (h.changed ({ · with offset := x }))
  · exact h.symbolModifier hx hl
  · exact h.wordModifier hx ‹_› hl
  · cases hl
  · cases hl

/-- What follows a parameter of a test. -/
theorem Keeps.operator (h : r.Keeps ws ps f done begun) {parameter : String} {negated : Bool}
    {half : Option Char} (hx : r.expect = .operator parameter negated half) {l : Look}
    (hl : r.operator e parameter negated half = .ok l) :
    l.rule.Tracks (done ++ if l.again then begun else begun ++ [e]) := by
  have hop : r.expect.operand? = some false := by rw [hx]; rfl
  have hbegun := h.begun
  rw [hx] at hbegun
  obtain rfl : f = id := by cases hbegun <;> rfl
  have hcompare {relation : Relation} {es : List Event}
      (hb : (Test.plain parameter negated).Spells es) {es' : List Event} (hes : relation.Spells es')
      (hl : (if negated then .error (e.unexpected "a negated parameter without a comparison")
        else .ok ⟨r.expecting (.threshold parameter relation.mode), false⟩ : Looked) = .ok l) :
      l.again = false ∧ l.rule.Tracks (done ++ (es ++ es')) := by
    split at hl
    · cases hl
    rename_i hn
    cases hl
    obtain rfl : negated = false := by simpa using hn
    cases hb with
    | bare hname => exact ⟨rfl, h.expecting (by rw [hop]; rfl) (.threshold hname hes)⟩
  unfold TransitionRule.operator at hl
  cases half with
  | none =>
    cases hbegun with
    | operator hb =>
      dsimp only at hl
      split at hl
      · obtain ⟨hagain, htracks⟩ := hcompare hb (.greater ‹_›) hl
        rwa [hagain, if_neg Bool.false_ne_true]
      split at hl
      · obtain ⟨hagain, htracks⟩ := hcompare hb (.less ‹_›) hl
        rwa [hagain, if_neg Bool.false_ne_true]
      split at hl
      · cases hl
        exact h.expecting (by rw [hop]; rfl) (.comparison hb (.inl rfl) ‹_›)
      split at hl
      · cases hl
        exact h.expecting (by rw [hop]; rfl) (.comparison hb (.inr rfl) ‹_›)
      · cases hl
        have htest := h.test hop hb
        cases negated <;> exact htest
  | some c =>
    cases hbegun with
    | @comparison _ _ es e' _ hb hc he =>
      dsimp only at hl
      split at hl
      · rename_i hsecond
        obtain ⟨rfl, hsecond⟩ := hsecond
        obtain ⟨hagain, htracks⟩ := hcompare hb (.equals he hsecond) hl
        rw [hagain, if_neg Bool.false_ne_true, List.append_assoc]
        exact htracks
      split at hl
      · rename_i hsecond
        obtain ⟨rfl, hsecond⟩ := hsecond
        obtain ⟨hagain, htracks⟩ := hcompare hb (.notEqual he hsecond) hl
        rw [hagain, if_neg Bool.false_ne_true, List.append_assoc]
        exact htracks
      · cases hl

/-- An operand, or a bracket or an exclamation mark in front of one. -/
theorem Keeps.operand (h : r.Keeps ws ps f done begun) {opening : Bool}
    (hx : r.expect = .condition opening) {l : Look} (hl : r.look e = .ok l) :
    l.again = false ∧ l.rule.Tracks (done ++ (begun ++ [e])) := by
  obtain ⟨hs, hstanding, hplain⟩ := h.awaiting (o := some opening) (by rw [hx]; rfl)
  have hbegun := h.begun
  rw [hx] at hbegun
  cases hbegun
  simp only [TransitionRule.look, hx] at hl
  split at hl
  · rename_i hmay
    obtain ⟨⟨rfl, hb⟩, hopen⟩ : (opening = true ∧ r.bracket = false) ∧ e.isSymbol '(' = true := by
      simpa using hmay
    cases hl
    rw [hb] at hstanding
    refine ⟨rfl, h.word (w := .opening) rfl .condition rfl h.agrees (hs.opening hopen)
      hstanding.opening ?_⟩
    rw [unbracketed_append_bracket ws rfl]
    exact hplain.weaken
  have hweak : (r.expecting (.condition false)).Keeps ws ps id done [] :=
    ⟨hs, .condition, h.groups, h.agrees, hstanding.weaken, hplain.weaken⟩
  split at hl
  · cases hl
    exact ⟨rfl, hweak.expecting (by rfl) (.negated ‹_›)⟩
  · obtain ⟨name, hname, hl⟩ := except_bind_ok.1 hl
    cases hl
    exact ⟨rfl, hweak.expecting (by rfl) (.operator (by exact .bare (Event.name_eq hname)))⟩

/-- What follows `wait`. -/
theorem Keeps.wait (h : r.Keeps ws ps f done begun) {l : Look} (hl : r.look e = .ok l)
    (hx : r.expect = .waitOpen ∨ r.expect = .waitValue ∨ r.expect = .waitClose) :
    l.rule.Tracks (done ++ if l.again then begun else begun ++ [e]) := by
  have hbegun := h.begun
  unfold look at hl
  rcases hx with hx | hx | hx
  all_goals
    simp only [hx] at hl hbegun
    have hop : r.expect.operand? = none := by rw [hx]; rfl
  · cases hbegun with
    | waitOpen hword =>
      split at hl
      · cases hl
        rw [if_neg Bool.false_ne_true]
        exact h.expecting (by rw [hop]; rfl) (.waitValue hword ‹_›)
      · obtain ⟨x, hnumber, hl⟩ := except_bind_ok.1 hl
        cases hl
        rw [if_neg Bool.false_ne_true]
        exact h.part hop (by exact ⟨rfl, rfl⟩) rfl
          (.wait hword (.bare ⟨e, rfl, Event.number_eq hnumber⟩)) nofun
          (h.changed ({ · with exitTime := some x }))
  · obtain ⟨x, hnumber, hl⟩ := except_bind_ok.1 hl
    cases hl
    cases hbegun with
    | waitValue hword hopen =>
      rw [if_neg Bool.false_ne_true]
      exact h.goOn (by rw [hop]; rfl) (by exact ⟨rfl, rfl⟩)
        (.waitClose hword hopen (Event.number_eq hnumber))
        (h.changed ({ · with exitTime := some x }))
  · split at hl
    · cases hl
      cases hbegun with
      | waitClose hword hopen hnumber =>
        rw [if_neg Bool.false_ne_true]
        exact h.part hop (by exact ⟨rfl, rfl⟩) rfl
          (.wait hword (.within hopen ⟨_, rfl, hnumber⟩ ‹_›)) nofun h.agrees
    · cases hl

/-- What follows `fade`. -/
theorem Keeps.fade (h : r.Keeps ws ps f done begun) {l : Look} (hl : r.look e = .ok l)
    (hx : r.expect = .fadeOpen ∨ r.expect = .fadeValue ∨
      (∃ bracket, r.expect = .fadeUnit bracket) ∨ r.expect = .fadeClose) :
    l.rule.Tracks (done ++ if l.again then begun else begun ++ [e]) := by
  have hbegun := h.begun
  unfold look at hl
  rcases hx with hx | hx | ⟨bracket, hx⟩ | hx
  all_goals
    simp only [hx] at hl hbegun
    have hop : r.expect.operand? = none := by rw [hx]; rfl
  · cases hbegun with
    | fadeOpen hword =>
      split at hl
      · cases hl
        rw [if_neg Bool.false_ne_true]
        exact h.expecting (by rw [hop]; rfl) (.fadeValue hword ‹_›)
      · obtain ⟨x, hnumber, hl⟩ := except_bind_ok.1 hl
        cases hl
        rw [if_neg Bool.false_ne_true]
        exact h.goOn (by rw [hop]; rfl) (by exact ⟨rfl, rfl⟩)
          (.fadeUnit hword (Event.number_eq hnumber)) (h.changed ({ · with duration := x }))
  · obtain ⟨x, hnumber, hl⟩ := except_bind_ok.1 hl
    cases hl
    cases hbegun with
    | fadeValue hword hopen =>
      rw [if_neg Bool.false_ne_true]
      exact h.goOn (by rw [hop]; rfl) (by exact ⟨rfl, rfl⟩)
        (.fadeUnitBracket hword hopen (Event.number_eq hnumber))
        (h.changed ({ · with duration := x }))
  · cases hbegun with
    | fadeUnit hword hnumber =>
      split at hl
      · cases hl
        rw [if_neg Bool.false_ne_true]
        exact h.part hop (by exact ⟨rfl, rfl⟩) rfl
          (.fade hword (.bare (.mk hnumber (.present ‹_›)))) nofun
          (h.changed ({ · with fixedDuration := true }))
      · cases hl
        exact h.part hop (by exact ⟨rfl, rfl⟩) rfl (.fade hword (.bare (.mk hnumber .absent))) nofun
          h.agrees
    | fadeUnitBracket hword hopen hnumber =>
      split at hl
      · cases hl
        rw [if_neg Bool.false_ne_true]
        exact h.goOn (by rw [hop]; rfl) (by exact ⟨rfl, rfl⟩)
          (.fadeClose hword hopen hnumber (.present ‹_›))
          (h.changed ({ · with fixedDuration := true }))
      · cases hl
        exact h.goOn (by rw [hop]; rfl) (by exact ⟨rfl, rfl⟩)
          (.fadeClose hword hopen hnumber .absent) h.agrees
  · split at hl
    · cases hl
      cases hbegun with
      | fadeClose hword hopen hnumber hunit =>
        rw [if_neg Bool.false_ne_true]
        exact h.part hop (by exact ⟨rfl, rfl⟩) rfl
          (.fade hword (.within hopen (.mk hnumber hunit) ‹_›)) nofun h.agrees
    · cases hl

/-- What follows `goto`. -/
theorem Keeps.route (h : r.Keeps ws ps f done begun) {l : Look} (hl : r.look e = .ok l)
    (hx : r.expect = .gotoStart ∨ (∃ absolute segments, r.expect = .gotoSegment absolute segments) ∨
      ∃ absolute segments, r.expect = .gotoNext absolute segments) :
    l.rule.Tracks (done ++ if l.again then begun else begun ++ [e]) := by
  have hbegun := h.begun
  unfold look at hl
  rcases hx with hx | ⟨absolute, segments, hx⟩ | ⟨absolute, segments, hx⟩
  all_goals
    simp only [hx] at hl hbegun
    have hop : r.expect.operand? = none := by rw [hx]; rfl
  · cases hbegun with
    | gotoStart hword =>
      split at hl
      · cases hl
        rw [if_neg Bool.false_ne_true]
        exact h.expecting (by rw [hop]; rfl) (.gotoRoot hword ‹_›)
      · obtain ⟨name, hname, hl⟩ := except_bind_ok.1 hl
        cases hl
        rw [if_neg Bool.false_ne_true]
        exact h.expecting (by rw [hop]; rfl) (.gotoNext hword (.relative (Event.name_eq hname)))
  · obtain ⟨name, hname, hl⟩ := except_bind_ok.1 hl
    have hname := Event.name_eq hname
    cases hl
    rw [if_neg Bool.false_ne_true]
    cases hbegun with
    | gotoRoot hword hslash =>
      exact h.expecting (by rw [hop]; rfl) (.gotoNext hword (.root hslash hname))
    | gotoSegment hword hnames hslash =>
      rw [List.cons_append, List.append_assoc]
      exact h.expecting (by rw [hop]; rfl) (.gotoNext hword (hnames.into hslash hname))
  · cases hbegun with
    | gotoNext hword hnames =>
      split at hl
      · cases hl
        rw [if_neg Bool.false_ne_true]
        exact h.expecting (by rw [hop]; rfl) (.gotoSegment hword hnames ‹_›)
      · cases hl
        exact h.part hop (by exact ⟨rfl, rfl⟩) rfl (.goto hword hnames) nofun
          ⟨h.agrees.1, h.agrees.2.1, rfl⟩

/-- What follows the signs of an offset. -/
theorem Keeps.offset (h : r.Keeps ws ps f done begun) {l : Look} (hl : r.look e = .ok l)
    {negative : Bool} (hx : r.expect = .offset negative) :
    l.rule.Tracks (done ++ if l.again then begun else begun ++ [e]) := by
  have hbegun := h.begun
  have hop : r.expect.operand? = none := by rw [hx]; rfl
  unfold look at hl
  simp only [hx] at hl hbegun
  cases hbegun with
  | offset hsigns =>
    split at hl
    · cases hl
      rw [if_neg Bool.false_ne_true]
      exact h.expecting (by rw [hop]; rfl) (.offset (hsigns.minus ‹_›))
    split at hl
    · cases hl
      rw [if_neg Bool.false_ne_true]
      exact h.goOn rfl (by exact ⟨rfl, rfl⟩) (hx ▸ .offset (hsigns.plus ‹_›)) h.agrees
    · obtain ⟨x, hnumber, hl⟩ := except_bind_ok.1 hl
      cases hl
      rw [if_neg Bool.false_ne_true]
      exact h.part hop (by exact ⟨rfl, rfl⟩) rfl (.offset hsigns (Event.number_eq hnumber)) nofun
        (h.changed ({ · with offset := signed negative x }))

/-- What follows the word for an interruption. -/
theorem Keeps.ordered (h : r.Keeps ws ps f done begun) {l : Look} (hl : r.look e = .ok l)
    (hx : r.expect = .ordered) :
    l.rule.Tracks (done ++ if l.again then begun else begun ++ [e]) := by
  have hbegun := h.begun
  have hop : r.expect.operand? = none := by rw [hx]; rfl
  unfold look at hl
  simp only [hx] at hl hbegun
  cases hbegun with
  | ordered hword =>
    split at hl
    · cases hl
      rw [if_neg Bool.false_ne_true]
      exact h.part hop (by exact ⟨rfl, rfl⟩) rfl (.interruption hword (.present ‹_›)) nofun
        (h.changed ({ · with ordered := true }))
    · cases hl
      exact h.part hop (by exact ⟨rfl, rfl⟩) rfl (.interruption hword .absent) nofun h.agrees

/-- One look at a token: the token is looked at again, or it has been read. -/
theorem look_tracks (h : r.Tracks es) {l : Look} (hl : r.look e = .ok l) :
    l.rule.Tracks (if l.again then es else es ++ [e]) := by
  obtain ⟨ws, ps, f, done, begun, rfl, h⟩ := h
  have hbegun := h.begun
  have hlook := hl
  unfold look at hl
  cases hx : r.expect <;> simp only [hx] at hl hbegun
  case modifier half =>
    cases half with
    | none =>
      cases hbegun
      rw [Settled.once (.inl hx) hlook, if_neg Bool.false_ne_true, List.append_nil]
      exact h.token hx hl
    | some c =>
      cases hbegun with
      | connective hc he =>
        obtain ⟨hagain, htracks⟩ := h.connective hx hl
        rwa [hagain, if_neg Bool.false_ne_true]
  case condition opening =>
    obtain ⟨hagain, htracks⟩ := h.operand hx hlook
    rwa [hagain, if_neg Bool.false_ne_true, List.append_assoc]
  case operator parameter negated half =>
    have htracks := h.operator hx hl
    cases hagain : l.again <;> simpa [hagain] using htracks
  case negated =>
    obtain ⟨name, hname, hl⟩ := except_bind_ok.1 hl
    cases hl
    cases hbegun with
    | negated hbang =>
      rw [if_neg Bool.false_ne_true, List.append_assoc]
      exact h.expecting (by rw [hx]; rfl)
        (.operator (by exact .negated hbang (Event.name_eq hname)))
  case threshold parameter mode =>
    obtain ⟨x, hnumber, hl⟩ := except_bind_ok.1 hl
    cases hl
    cases hbegun with
    | @threshold _ relation _ es hname hes =>
      rw [if_neg Bool.false_ne_true, List.append_assoc, List.cons_append]
      exact h.test (o := false) (by rw [hx]; rfl)
        (t := .compared parameter relation x) (.compared hname hes (Event.number_eq hnumber))
  case waitOpen | waitValue | waitClose =>
    all_goals
      have htracks := h.wait hlook (by simp [hx])
      cases hagain : l.again <;> simpa [hagain] using htracks
  case fadeOpen | fadeValue | fadeUnit bracket | fadeClose =>
    all_goals
      have htracks := h.fade hlook (by simp [hx])
      cases hagain : l.again <;> simpa [hagain] using htracks
  case gotoStart | gotoSegment absolute segments | gotoNext absolute segments =>
    all_goals
      have htracks := h.route hlook (by simp [hx])
      cases hagain : l.again <;> simpa [hagain] using htracks
  case offset negative =>
    have htracks := h.offset hlook hx
    cases hagain : l.again <;> simpa [hagain] using htracks
  case ordered =>
    have htracks := h.ordered hlook hx
    cases hagain : l.again <;> simpa [hagain] using htracks

end TransitionRule

end MotionScript
