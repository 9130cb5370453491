import MotionScript.Proofs.Steps.Statements
/-!
# Looking at a token again

A transition statement looks at a token again when the token ends what was expected and so belongs
to what comes next. That happens at most once for a token.
-/

namespace MotionScript.TransitionRule

/-- The number of looks at a token if at most `fuel` are allowed. -/
def looks (e : Event) : Nat → TransitionRule → Nat
  | 0, _ => 0
  | fuel + 1, r =>
    if r.ends e then 1
    else
      match r.look e with
      | .ok l => if l.again then looks e fuel l.rule + 1 else 1
      | .error _ => 1

/-- A rule that waits for what comes next looks at a token once. -/
theorem Settled.once {r : TransitionRule} {e : Event} {l : Look} (hr : r.Settled)
    (h : r.look e = .ok l) : l.again = false := by
  cases look_advance h with
  | test hr' | complete hr' => exact absurd hr hr'
  | lead hx => simp [Settled, hx] at hr
  | _ => rfl

/-- After a look that calls for another one, the rule waits for what comes next. -/
theorem look_settled {r : TransitionRule} {e : Event} {l : Look} (h : r.look e = .ok l)
    (hl : l.again = true) : l.rule.Settled := by
  cases look_advance h with
  | test | lead => exact .inl rfl
  | complete _ hx => exact hx
  | _ => cases hl

theorem Settled.looks_le {r : TransitionRule} (hr : r.Settled) (e : Event) (fuel : Nat) :
    looks e fuel r ≤ 1 := by
  cases fuel with
  | zero => exact Nat.zero_le 1
  | succ fuel =>
    unfold looks
    split
    · exact Nat.le_refl 1
    · split
      · rename_i l hl
        rw [hr.once hl]
        exact Nat.le_refl 1
      · exact Nat.le_refl 1

/-- However many looks are allowed, a token is looked at no more than twice. -/
theorem looks_le (e : Event) (fuel : Nat) (r : TransitionRule) : looks e fuel r ≤ maxLooks := by
  cases fuel with
  | zero => exact Nat.zero_le _
  | succ fuel =>
    unfold looks
    split
    · decide
    · split
      · rename_i l hl
        split
        · rename_i hagain
          exact Nat.succ_le_succ ((look_settled hl hagain).looks_le e fuel)
        · decide
      · decide

variable {η : Type}

theorem Settled.lookAgain_succ {r : TransitionRule} (hr : r.Settled) (e : Event) (s : Session η)
    (fuel : Nat) : lookAgain e s (fuel + 1) r = lookAgain e s 1 r := by
  simp only [lookAgain]
  split
  · rfl
  · cases hl : r.look e with
    | error d => rfl
    | ok l => simp [bind, Except.bind, hr.once hl]

/-- More looks than are allowed would change nothing. -/
theorem lookAgain_enough (e : Event) (s : Session η) (fuel : Nat) (r : TransitionRule) :
    lookAgain e s (fuel + maxLooks) r = lookAgain e s maxLooks r := by
  simp only [maxLooks, lookAgain]
  split
  · rfl
  · cases hl : r.look e with
    | error d => rfl
    | ok l =>
      cases hagain : l.again with
      | false => simp [bind, Except.bind, hagain]
      | true =>
        have hs := look_settled hl hagain
        simpa [bind, Except.bind, hagain, lookAgain] using hs.lookAgain_succ e s fuel

end MotionScript.TransitionRule
