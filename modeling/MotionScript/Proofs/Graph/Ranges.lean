import Mathlib.Logic.Basic
/-!
# Ranges of arrays

Nodes are kept in arrays that grow while a document is read. What is known about a node stays true as
long as the ranges it depends on stay as they are.
-/

namespace MotionScript

/-- Whether two arrays agree from one index up to another. -/
def AgreesOn {α : Type} (low high : Nat) (xs ys : Array α) : Prop :=
  ∀ i, low ≤ i → i < high → ys[i]? = xs[i]?

namespace AgreesOn

variable {α : Type} {low high low' high' : Nat} {xs ys zs : Array α}

theorem refl (low high : Nat) (xs : Array α) : AgreesOn low high xs xs := fun _ _ _ => rfl

theorem trans (h : AgreesOn low high xs ys) (h' : AgreesOn low high ys zs) :
    AgreesOn low high xs zs := fun i hl hh => (h' i hl hh).trans (h i hl hh)

theorem mono (h : AgreesOn low high xs ys) (hl : low ≤ low') (hh : high' ≤ high) :
    AgreesOn low' high' xs ys :=
  fun i hi hi' => h i (Nat.le_trans hl hi) (Nat.lt_of_lt_of_le hi' hh)

theorem push (x : α) (low : Nat) : AgreesOn low xs.size xs (xs.push x) := by
  intro i _ hi
  rw [Array.getElem?_push, if_neg (Nat.ne_of_lt hi)]

theorem modify {j : Nat} (f : α → α) (h : j < low ∨ high ≤ j) :
    AgreesOn low high xs (xs.modify j f) := by
  intro i hl hh
  rw [Array.getElem?_modify, if_neg]
  omega

end AgreesOn

/-- Whether an array starts with another one. -/
structure Extended {α : Type} (xs ys : Array α) : Prop where
  size_le : xs.size ≤ ys.size
  agrees : AgreesOn 0 xs.size xs ys

namespace Extended

variable {α : Type} {xs ys zs : Array α}

theorem refl (xs : Array α) : Extended xs xs := ⟨Nat.le_refl _, .refl _ _ _⟩

theorem trans (h : Extended xs ys) (h' : Extended ys zs) : Extended xs zs :=
  ⟨Nat.le_trans h.size_le h'.size_le,
    h.agrees.trans (h'.agrees.mono (Nat.le_refl _) h.size_le)⟩

theorem push (xs : Array α) (x : α) : Extended xs (xs.push x) :=
  ⟨by rw [Array.size_push]; exact Nat.le_succ _, .push x 0⟩

/-- The same change at the same place. -/
theorem modify (h : Extended xs ys) (i : Nat) (f : α → α) :
    Extended (xs.modify i f) (ys.modify i f) := by
  constructor
  · simpa using h.size_le
  · intro j _ hj
    rw [Array.size_modify] at hj
    rw [Array.getElem?_modify, Array.getElem?_modify, h.agrees j (Nat.zero_le _) hj]

end Extended

theorem modify_self {α : Type} {f : α → α} {i : Nat} (xs : Array α) (h : ∀ x, f x = x) :
    xs.modify i f = xs := by
  apply Array.ext
  · simp
  · intro j _ _
    rw [Array.getElem_modify, h, ite_self]

theorem modify_push_size {α : Type} (xs : Array α) (x : α) (f : α → α) :
    (xs.push x).modify xs.size f = xs.push (f x) := by
  apply Array.ext
  · simp
  · intro i h h'
    rw [Array.getElem_modify]
    by_cases hi : i = xs.size
    · subst hi
      simp
    · have hlt : i < xs.size := by
        rw [Array.size_push] at h'
        omega
      rw [if_neg (Ne.symm hi), Array.getElem_push_lt hlt, Array.getElem_push_lt hlt]

end MotionScript
