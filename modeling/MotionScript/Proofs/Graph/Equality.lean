import Mathlib.Logic.Basic
import MotionScript.Graph.Controller
/-!
# Equality of graphs

Numbers are compared by value: both zeros are equal. The equality of transitions and conditions is
that of their fields.
-/

namespace MotionScript

namespace Binary

variable {f : Format} {x y : Binary f}

theorem beq_iff : (x == y) = true ↔
    x.isNaN = false ∧ y.isNaN = false ∧ (x.isZero = true ∧ y.isZero = true ∨ x = y) := by
  show Binary.beq x y = true ↔ _
  cases x
  cases y
  simp [Binary.beq, and_assoc]

instance : PartialEquivBEq (Binary f) where
  symm h := by
    obtain ⟨h1, h2, h3⟩ := beq_iff.1 h
    exact beq_iff.2 ⟨h2, h1, h3.imp And.symm Eq.symm⟩
  trans h h' := by
    obtain ⟨h1, -, h3⟩ := beq_iff.1 h
    obtain ⟨-, h2, h4⟩ := beq_iff.1 h'
    refine beq_iff.2 ⟨h1, h2, ?_⟩
    rcases h3 with ⟨ha, hb⟩ | rfl
    · rcases h4 with ⟨-, hc⟩ | rfl
      · exact .inl ⟨ha, hc⟩
      · exact .inl ⟨ha, hb⟩
    · exact h4

theorem isNaN_of_isFinite (h : x.isFinite = true) : x.isNaN = false := by
  simp only [isFinite, isNaN, decide_eq_true_eq, decide_eq_false_iff_not] at h ⊢
  omega

theorem beq_self (h : x.isFinite = true) : (x == x) = true :=
  beq_iff.2 ⟨isNaN_of_isFinite h, isNaN_of_isFinite h, .inr rfl⟩

theorem beq_zero (h : x.isZero = true) (hx : x.isFinite = true) : ((zero : Binary f) == x) = true :=
  beq_iff.2 ⟨isNaN_of_isFinite (by
      simp only [isFinite, isZero, decide_eq_true_eq, beq_iff_eq] at h hx ⊢
      rw [h] at hx
      exact hx),
    isNaN_of_isFinite hx, .inl ⟨rfl, h⟩⟩

theorem isFinite_of_isZero {x : Single} (h : x.isZero = true) : x.isFinite = true := by
  simp only [isFinite, isZero, decide_eq_true_eq, beq_iff_eq] at h ⊢
  rw [h]
  decide

end Binary

theorem Condition.beq_iff (a b : Condition) : (a == b) = true ↔
    a.parameter = b.parameter ∧ a.mode = b.mode ∧ (a.threshold == b.threshold) = true := by
  show instBEqCondition.beq a b = true ↔ _
  cases a
  cases b
  simp only [instBEqCondition.beq, Bool.and_eq_true, beq_iff_eq]

theorem Transition.beq_iff (a b : Transition) : (a == b) = true ↔
    a.destination = b.destination ∧ (a.conditions == b.conditions) = true ∧ a.muted = b.muted ∧
      a.solo = b.solo ∧ (a.exitTime == b.exitTime) = true ∧ (a.duration == b.duration) = true ∧
      a.fixedDuration = b.fixedDuration ∧ (a.offset == b.offset) = true ∧
      a.interruption = b.interruption ∧ a.ordered = b.ordered ∧ a.toSelf = b.toSelf := by
  show instBEqTransition.beq a b = true ↔ _
  cases a
  cases b
  simp only [instBEqTransition.beq, Bool.and_eq_true, beq_iff_eq]

/-- Changes that equality does not see. -/
theorem beq_map {α : Type} [BEq α] {f : α → α} {xs : List α} (h : ∀ x ∈ xs, (f x == x) = true) :
    (xs.map f == xs) = true := by
  induction xs with
  | nil => rfl
  | cons x xs ih =>
    rw [List.forall_mem_cons] at h
    rw [List.map_cons, List.cons_beq_cons, h.1, ih h.2]
    rfl

end MotionScript
