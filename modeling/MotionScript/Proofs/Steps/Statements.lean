import MotionScript.Proofs.Steps.Declarations
/-!
# Steps of statements

All that one look at a token can do to the rule of a transition statement.
-/

namespace MotionScript.TransitionRule

/-- Whether a comparison is expected to compare, and a destination to have a segment. -/
def Expectable : TransitionExpect → Prop
  | .threshold _ mode => mode ≠ .holds ∧ mode ≠ .fails
  | .gotoNext _ segments => segments ≠ []
  | _ => True

/-- Whether a rule waits for what comes next, so that it looks at a token only once. -/
def Settled (r : TransitionRule) : Prop := r.expect = .modifier none ∨ r.expect = .fadeClose

/-- What one look at a token does to a rule. A token that is looked at again has completed what was
expected. -/
inductive Advance (r : TransitionRule) : Look → Prop where
  | expect {x : TransitionExpect} (hx : Expectable x) : Advance r ⟨r.expecting x, false⟩
  | alternative (opening : Bool) : Advance r ⟨r.openGroup.expecting (.condition opening), false⟩
  | bracket (bracket : Bool) {x : TransitionExpect} (hx : Expectable x) :
    Advance r ⟨{ r with bracket, expect := x }, false⟩
  | any : Advance r ⟨{ r with any := true }, false⟩
  | modify (f : Transition → Transition) : Advance r ⟨r.modified f, false⟩
  | modifyFirst (f : Transition → Transition) {x : TransitionExpect} (hx : Expectable x) :
    Advance r ⟨(r.modified f).expecting x, false⟩
  | compare {parameter : String} {mode : ConditionMode} (hx : r.expect = .threshold parameter mode)
    (x : Single) : Advance r ⟨r.commit ⟨parameter, mode, x⟩, false⟩
  | exit : Advance r ⟨{ r with goto := some .exit }, false⟩
  | test (hr : ¬r.Settled) (parameter : String) (mode : ConditionMode) :
    Advance r ⟨r.commit ⟨parameter, mode, .zero⟩, true⟩
  | complete (hr : ¬r.Settled) {x : TransitionExpect} (hx : x = .modifier none ∨ x = .fadeClose) :
    Advance r ⟨r.expecting x, true⟩
  | lead {absolute : Bool} {segments : List String} (hx : r.expect = .gotoNext absolute segments)
    {goto : Goto} (hg : ∀ segments', goto = .absolute segments' → segments' = segments) :
    Advance r ⟨{ r with goto := some goto, expect := .modifier none }, true⟩

variable {r : TransitionRule} {e : Event} {l : Look}

theorem symbolModifier_advance (h : r.symbolModifier e = .ok l) (hx : r.expect = .modifier none) :
    r.Advance l := by
  unfold symbolModifier at h
  iterate 2
    split at h
    · cases h
      exact .expect trivial
  split at h
  · cases h
    exact hx ▸ .bracket false trivial
  iterate 2
    split at h
    · cases h
      exact .expect trivial
  cases h

theorem wordModifier_advance (h : r.wordModifier e = .ok l) : r.Advance l := by
  unfold wordModifier at h
  split at h
  · cases h
    exact .alternative true
  split at h
  · cases h
    exact .any
  iterate 3
    split at h
    · cases h
      exact .modify _
  iterate 2
    split at h
    · cases h
      exact .expect trivial
  split at h
  · cases h
    exact .exit
  split at h
  · cases h
    exact .expect trivial
  split at h <;> cases h
  exact .modifyFirst _ trivial

theorem modifier_advance (h : r.modifier e = .ok l) (hx : r.expect = .modifier none) :
    r.Advance l := by
  unfold modifier at h
  split at h
  · obtain ⟨x, -, h⟩ := except_bind_ok.1 h
    cases h
    exact .modify _
  · exact symbolModifier_advance h hx
  · exact wordModifier_advance h
  · cases h
  · cases h

theorem connective_advance {begun : Char} (h : r.connective e begun = .ok l) : r.Advance l := by
  unfold connective at h
  iterate 2
    split at h
    · cases h
  split at h <;> cases h
  · exact .alternative _
  · exact .expect trivial

theorem operator_advance {parameter : String} {negated : Bool} {begun : Option Char}
    (h : r.operator e parameter negated begun = .ok l) (hr : ¬r.Settled) : r.Advance l := by
  unfold operator at h
  extract_lets compare at h
  have hcompare {mode : ConditionMode} (hmode : mode ≠ .holds ∧ mode ≠ .fails)
      (h : compare mode = .ok l) : r.Advance l := by
    simp only [compare] at h
    split at h <;> cases h
    exact .expect hmode
  cases begun with
  | some c =>
    dsimp only at h
    split at h
    · exact hcompare (by decide) h
    split at h
    · exact hcompare (by decide) h
    · cases h
  | none =>
    dsimp only at h
    split at h
    · exact hcompare (by decide) h
    split at h
    · exact hcompare (by decide) h
    iterate 2
      split at h
      · cases h
        exact .expect trivial
    cases h
    exact .test hr _ _

theorem look_advance (h : r.look e = .ok l) : r.Advance l := by
  unfold look at h
  have hsettled {x : TransitionExpect} (hx : r.expect = x)
      (hne : ¬(x = .modifier none ∨ x = .fadeClose)) : ¬r.Settled := by
    rwa [Settled, hx]
  cases hx : r.expect <;> simp only [hx] at h
  case modifier begun =>
    cases begun with
    | none => exact modifier_advance h hx
    | some begun => exact connective_advance h
  case operator parameter negated begun => exact operator_advance h (hsettled hx (by simp))
  case condition opening =>
    split at h
    · cases h
      exact .bracket true trivial
    split at h
    · cases h
      exact .expect trivial
    · obtain ⟨name, -, h⟩ := except_bind_ok.1 h
      cases h
      exact .expect trivial
  case negated =>
    obtain ⟨name, -, h⟩ := except_bind_ok.1 h
    cases h
    exact .expect trivial
  case threshold parameter mode =>
    obtain ⟨x, -, h⟩ := except_bind_ok.1 h
    cases h
    exact .compare hx x
  case waitOpen =>
    split at h
    · cases h
      exact .expect trivial
    · obtain ⟨x, -, h⟩ := except_bind_ok.1 h
      cases h
      exact .modify _
  case fadeOpen =>
    split at h
    · cases h
      exact .expect trivial
    · obtain ⟨x, -, h⟩ := except_bind_ok.1 h
      cases h
      exact .modifyFirst _ trivial
  case waitValue | fadeValue =>
    all_goals
      obtain ⟨x, -, h⟩ := except_bind_ok.1 h
      cases h
      exact .modifyFirst _ trivial
  case waitClose | fadeClose =>
    all_goals
      split at h <;> cases h
      exact .expect trivial
  case fadeUnit bracket =>
    split at h <;> cases h
    · refine .modifyFirst _ ?_
      cases bracket <;> exact trivial
    · refine .complete (hsettled hx (by simp)) ?_
      cases bracket <;> simp
  case offset negative =>
    split at h
    · cases h
      exact .expect trivial
    split at h
    · cases h
      exact .expect (x := r.expect) (hx ▸ trivial)
    · obtain ⟨x, -, h⟩ := except_bind_ok.1 h
      cases h
      exact .modify _
  case ordered =>
    split at h <;> cases h
    · exact .modify _
    · exact .complete (hsettled hx (by simp)) (.inl rfl)
  case gotoStart =>
    split at h
    · cases h
      exact .expect trivial
    · obtain ⟨name, -, h⟩ := except_bind_ok.1 h
      cases h
      exact .expect (List.cons_ne_nil _ _)
  case gotoSegment absolute segments =>
    obtain ⟨name, -, h⟩ := except_bind_ok.1 h
    cases h
    exact .expect (List.append_ne_nil_of_right_ne_nil _ (List.cons_ne_nil _ _))
  case gotoNext absolute segments =>
    split at h <;> cases h
    · exact .expect trivial
    · refine .lead hx fun segments' hg => ?_
      split at hg <;> cases hg
      rfl

/-- A statement keeps where it is and where it starts. -/
theorem look_keeps (h : r.look e = .ok l) : l.rule.scope = r.scope ∧ l.rule.start = r.start := by
  cases look_advance h <;> exact ⟨rfl, rfl⟩

/-- Whether looking at a token, any number of times, leads from one rule to another. -/
inductive Leads (e : Event) : TransitionRule → TransitionRule → Prop where
  | refl (r : TransitionRule) : Leads e r r
  | look {r q : TransitionRule} {l : Look} (hl : r.look e = .ok l) (h : Leads e l.rule q) :
    Leads e r q

theorem Leads.keeps {q : TransitionRule} (h : Leads e r q) :
    q.scope = r.scope ∧ q.start = r.start := by
  induction h with
  | refl r => exact ⟨rfl, rfl⟩
  | look hl _ ih => exact ⟨ih.1.trans (look_keeps hl).1, ih.2.trans (look_keeps hl).2⟩

end MotionScript.TransitionRule
