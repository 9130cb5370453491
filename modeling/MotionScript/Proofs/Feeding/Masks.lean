import MotionScript.Proofs.Feeding.Leads
import MotionScript.Proofs.Graph.Values
/-!
# Reading masks

The items of a written mask are bits by name and one number for the bits without a name. Together
they are the bits of the mask.
-/

namespace MotionScript

open Canonical (namedBits keyword isWord)

/-! ## Bits -/

namespace Mask

theorem ext_bits {x y : UInt64} (h : ∀ j < 64, x.toBitVec.getLsbD j = y.toBitVec.getLsbD j) : x = y :=
  UInt64.toBitVec_inj.1 (BitVec.eq_of_getLsbD_eq h)

theorem getLsbD_shift {i : Nat} (hi : i < 64) (j : Nat) :
    ((1 : UInt64) <<< UInt64.ofNat i).toBitVec.getLsbD j = decide (j = i) := by
  have hmod : (UInt64.ofNat i).toBitVec % 64 = BitVec.ofNat 64 i := by
    apply BitVec.eq_of_toNat_eq
    simp
    omega
  rw [UInt64.toBitVec_shiftLeft, hmod, BitVec.shiftLeft_eq', BitVec.getLsbD_shiftLeft,
    BitVec.toNat_ofNat, Nat.mod_eq_of_lt (by omega)]
  simp only [UInt64.toBitVec_one, BitVec.getLsbD_one]
  grind

/-- A bit that is taken out of a number and put aside is not lost. -/
theorem or_and_not (x y : UInt64) : x ||| (y &&& ~~~x) = x ||| y := by
  refine ext_bits fun j hj => ?_
  simp only [UInt64.toBitVec_or, UInt64.toBitVec_and, UInt64.toBitVec_not, BitVec.getLsbD_or,
    BitVec.getLsbD_and, BitVec.getLsbD_not, hj, decide_true, Bool.true_and]
  cases x.toBitVec.getLsbD j <;> simp

theorem getLsbD_of_and_ne_zero {x : UInt64} {i : Nat} (hi : i < 64)
    (h : x &&& (1 <<< UInt64.ofNat i) ≠ 0) : x.toBitVec.getLsbD i = true := by
  refine Bool.eq_true_of_not_eq_false fun hn => h (ext_bits fun j _ => ?_)
  rw [UInt64.toBitVec_and, BitVec.getLsbD_and, getLsbD_shift hi]
  by_cases hij : j = i
  · subst hij
    simp only [hn, Bool.false_and]
    simp
  · simp [hij]

/-- A bit that a number has adds nothing to it. -/
theorem or_shift {x : UInt64} {i : Nat} (hi : i < 64) (h : x.toBitVec.getLsbD i = true) :
    x ||| (1 <<< UInt64.ofNat i) = x := by
  refine ext_bits fun j _ => ?_
  rw [UInt64.toBitVec_or, BitVec.getLsbD_or, getLsbD_shift hi]
  by_cases hij : j = i
  · subst hij
    simp only [h, Bool.true_or]
  · simp [hij]

theorem lt_of_getLsbD {x : UInt64} (h : x.toBitVec.getLsbD 63 = false) : x.toNat < 2 ^ 63 := by
  refine Nat.lt_pow_two_of_testBit _ fun i hi => ?_
  rcases Nat.lt_or_ge i 64 with hlt | hge
  · obtain rfl : i = 63 := by omega
    exact h
  · exact Nat.testBit_lt_two_pow
      (Nat.lt_of_lt_of_le x.toNat_lt (Nat.pow_le_pow_right (by decide) hge))

end Mask

/-! ## Named bits -/

/-- The bits without a name. -/
def restBits (named : List (Nat × String)) (bits : UInt64) : UInt64 :=
  named.foldl (fun rest (index, _) => rest &&& ~~~(1 <<< UInt64.ofNat index)) bits

theorem restBits_spec {named : List (Nat × String)} {bits : UInt64}
    (h : ∀ x ∈ named, x.1 < 64 ∧ bits.toBitVec.getLsbD x.1 = true) :
    (named.map fun x => (1 : UInt64) <<< UInt64.ofNat x.1).foldl (· ||| ·) 0 ||| restBits named bits =
      bits := by
  -- What has been named and what is left are all the bits at every step.
  have hstep (named : List (Nat × String)) (done rest : UInt64) (hall : done ||| rest = bits)
      (h : ∀ x ∈ named, x.1 < 64 ∧ bits.toBitVec.getLsbD x.1 = true) :
      (named.map fun x => (1 : UInt64) <<< UInt64.ofNat x.1).foldl (· ||| ·) done |||
        restBits named rest = bits := by
    induction named generalizing done rest with
    | nil => exact hall
    | cons x named ih =>
      rw [List.forall_mem_cons] at h
      refine ih _ _ ?_ h.2
      rw [UInt64.or_assoc, Mask.or_and_not, UInt64.or_comm _ rest, ← UInt64.or_assoc, hall]
      exact Mask.or_shift h.1.1 h.1.2
  exact hstep named 0 bits (by simp) h

theorem getLsbD_restBits {named : List (Nat × String)} {bits : UInt64} {j : Nat} (hj : j < 64)
    (hn : ∀ x ∈ named, x.1 < 64) :
    (restBits named bits).toBitVec.getLsbD j = true ↔
      bits.toBitVec.getLsbD j = true ∧ j ∉ named.map (·.1) := by
  induction named generalizing bits with
  | nil => simp [restBits]
  | cons x named ih =>
    rw [List.forall_mem_cons] at hn
    rw [restBits, List.foldl_cons, ← restBits, ih hn.2, UInt64.toBitVec_and, BitVec.getLsbD_and,
      UInt64.toBitVec_not, BitVec.getLsbD_not, Mask.getLsbD_shift hn.1, decide_eq_true hj,
      Bool.true_and, Bool.and_eq_true, Bool.not_eq_true', decide_eq_false_iff_not, List.map_cons,
      List.mem_cons, not_or, and_assoc]

theorem isWord_toString {n : Nat} (h : n < 0x10000000000000000) : isWord (toString n) = true := by
  have hdigits : (toString n).toList = toDigits n := Nat.toList_repr
  have hplus : ∀ c ∈ toDigits n, c ≠ '+' := by
    rintro c hc rfl
    have := isDigit_toDigits hc
    revert this
    decide
  unfold isWord
  rw [hdigits]
  split
  · rename_i rest heq
    exact absurd rfl (hplus '+' (heq ▸ List.mem_cons_self))
  · simp only [ofDigits_toDigits, h, decide_true, Bool.and_true, Bool.and_eq_true,
      Bool.not_eq_true', List.isEmpty_eq_false_iff, List.all_eq_true]
    exact ⟨toDigits_ne_nil n, fun c hc => isDigit_toDigits hc⟩

/-- A named bit is written by the first of the names that are equal to it. -/
theorem mem_namedBits {names : List String} {bits : UInt64} {x : Nat × String}
    (h : x ∈ namedBits names bits) : (x.1 < 64 ∧ bits.toBitVec.getLsbD x.1 = true) ∧
      ∃ name, x.2 = Canonical.name name ∧ indexOfName? names name = some x.1 := by
  obtain ⟨index, hindex, h⟩ := List.mem_filterMap.1 h
  have hlt : index < 64 := by
    have := List.mem_range.1 hindex
    omega
  simp only at h
  split at h
  case isFalse => cases h
  case isTrue hcond =>
    obtain rfl := Option.some.inj h
    simp only [Bool.and_eq_true, bne_iff_ne, Bool.not_eq_true'] at hcond
    refine ⟨⟨hlt, Mask.getLsbD_of_and_ne_zero hlt hcond.1⟩, ?_⟩
    have hword : isWord (toString index) = true := isWord_toString (by omega)
    have hkeyword := hcond.2
    simp only
    unfold keyword at hkeyword ⊢
    split at hkeyword
    · rename_i text htext
      split at hkeyword
      · rename_i hfirst
        rw [if_pos hfirst]
        exact ⟨text, rfl, hfirst⟩
      · rw [hword] at hkeyword
        cases hkeyword
    · rw [hword] at hkeyword
      cases hkeyword

/-! ## Written masks -/

/-- Whether a form is read as some bits of a mask, between commas and in front of a semicolon. -/
structure Form.ReadsBits (names : List String) (f : Form) (bits : UInt64) : Prop where
  valid : f.Valid
  joins : ∀ c, c = ',' ∨ c = ';' → f.Joins (.symbol c)
  noBracket : ∀ e, Event.Is e f → e.isSymbol ']' = false
  bits : ∀ e, Event.Is e f → maskBits? e names = some bits

theorem Form.readsBits_name {names : List String} {name : String} {i : Nat} (hi : i < 64)
    (h : indexOfName? names name = some i) :
    (Form.name name).ReadsBits names (1 <<< UInt64.ofNat i) where
  valid := by simp
  joins c _ := by simp
  noBracket e he := he.name_isSymbol _
  bits e he := by
    simp only [maskBits?, he.name_kind_ne, he.name_text, h, Option.bind_some, if_pos hi]
    rfl

theorem Form.readsBits_number {names : List String} {bits : UInt64} (h : bits.toNat < 2 ^ 63) :
    (Form.int bits.toNat).ReadsBits names bits where
  valid := by simp
  joins c hc := by rcases hc with rfl | rfl <;> simp
  noBracket e he := he.number_isSymbol _
  bits e he := by
    have hn : e.integer? = some (bits.toNat : Int) := he.int_integer? (by omega) (by omega)
    have hk : (e.kind == .number) = true := by rw [he.number_kind]; rfl
    simp [maskBits?, hk, hn]

/-- The names of bits are read as these bits. -/
theorem exists_nameForms {names : List String} {named : List (Nat × String)}
    (h : ∀ x ∈ named, x.1 < 64 ∧
      ∃ name, x.2 = Canonical.name name ∧ indexOfName? names name = some x.1) :
    ∃ parts : List (Form × UInt64), parts.map (fun p => p.1.chars) = named.map (·.2.toList) ∧
      (∀ p ∈ parts, p.1.ReadsBits names p.2) ∧
      parts.map (·.2) = named.map fun x => 1 <<< UInt64.ofNat x.1 := by
  induction named with
  | nil => exact ⟨[], rfl, by simp, rfl⟩
  | cons x named ih =>
    rw [List.forall_mem_cons] at h
    obtain ⟨parts, htexts, hreads, hparts⟩ := ih h.2
    obtain ⟨⟨hlt, name, htext, hindex⟩, -⟩ := h
    refine ⟨(.name name, 1 <<< UInt64.ofNat x.1) :: parts, ?_, ?_, ?_⟩
    · simp [htexts, htext]
    · exact List.forall_mem_cons.2 ⟨Form.readsBits_name hlt hindex, hreads⟩
    · simp [hparts]

theorem mask_eq (names : List String) (bits : UInt64) :
    Canonical.mask names bits = ", ".intercalate
      (if restBits (namedBits names bits) bits != 0 || ((namedBits names bits).map (·.2)).isEmpty then
        (namedBits names bits).map (·.2) ++ [toString (restBits (namedBits names bits) bits).toNat]
      else (namedBits names bits).map (·.2)) := rfl

/-- A mask is written as forms for bits that are all the bits of the mask: names, and the number of
the bits without a name. -/
theorem exists_maskItems (names : List String) (bits : UInt64) :
    ∃ first parts, (Canonical.mask names bits).toList =
        first.1.chars ++ parts.flatMap (fun p : Form × UInt64 => ',' :: ' ' :: p.1.chars) ∧
      (∀ p ∈ first :: parts, p.1.ReadsBits names p.2 ∨
        p = (.int (restBits (namedBits names bits) bits).toNat, restBits (namedBits names bits) bits)) ∧
      (restBits (namedBits names bits) bits ≠ 0 →
        (Form.int (restBits (namedBits names bits) bits).toNat,
          restBits (namedBits names bits) bits) ∈ first :: parts) ∧
      ((first :: parts).map (·.2)).foldl (· ||| ·) 0 = bits := by
  have hbits : ∀ x ∈ namedBits names bits, x.1 < 64 ∧ bits.toBitVec.getLsbD x.1 = true :=
    fun x hx => (mem_namedBits hx).1
  obtain ⟨parts, htexts, hreads, hparts⟩ := exists_nameForms
    fun x hx => ⟨(hbits x hx).1, (mem_namedBits hx).2⟩
  have hspec := restBits_spec hbits
  rw [← hparts] at hspec
  have htext := mask_eq names bits
  generalize restBits (namedBits names bits) bits = rest at hspec htext ⊢
  -- All forms: those of the named bits, and the number if it is needed.
  obtain ⟨all, hne, ⟨texts, htexts, htext⟩, hall, hnumber, hor⟩ : ∃ all : List (Form × UInt64),
      all ≠ [] ∧
      (∃ texts : List String, texts.map String.toList = all.map (fun p => p.1.chars) ∧
        Canonical.mask names bits = ", ".intercalate texts) ∧
      (∀ p ∈ all, p.1.ReadsBits names p.2 ∨ p = (.int rest.toNat, rest)) ∧
      (rest ≠ 0 → (Form.int rest.toNat, rest) ∈ all) ∧ (all.map (·.2)).foldl (· ||| ·) 0 = bits := by
    split at htext
    · refine ⟨parts ++ [(.int rest.toNat, rest)], by simp, ⟨_, ?_, htext⟩, fun p hp => ?_,
        fun _ => by simp, by simpa using hspec⟩
      · rw [List.map_append, List.map_append, htexts, List.map_map]
        rfl
      · rcases List.mem_append.1 hp with hp | hp
        · exact .inl (hreads p hp)
        · exact .inr (List.mem_singleton.1 hp)
    · rename_i hnone
      rw [Bool.not_eq_true, Bool.or_eq_false_iff] at hnone
      obtain rfl : rest = 0 := by simpa using hnone.1
      refine ⟨parts, ?_, ⟨_, ?_, htext⟩, fun p hp => .inl (hreads p hp), fun h => absurd rfl h,
        by simpa using hspec⟩
      · rintro rfl
        have hempty : namedBits names bits = [] := by simpa using htexts.symm
        rw [hempty] at hnone
        cases hnone.2
      · rw [htexts, List.map_map]
        rfl
  obtain ⟨first, parts, rfl⟩ := List.exists_cons_of_ne_nil hne
  refine ⟨first, parts, ?_, hall, hnumber, hor⟩
  cases texts with
  | nil => cases htexts
  | cons t texts =>
    obtain ⟨ht, htexts⟩ := List.cons.inj htexts
    have hsep (ts : List String) : ts.flatMap (fun x => ", ".toList ++ x.toList) =
        (ts.map String.toList).flatMap fun cs => ',' :: ' ' :: cs := by
      rw [List.flatMap_map]
      rfl
    rw [htext, toList_intercalate_cons, ht, hsep, htexts, List.flatMap_map]

/-- Unless the top bit is left without a name, what is left without a name is in range. -/
theorem restBits_lt {names : List String} {bits : UInt64} :
    (restBits (namedBits names bits) bits).toNat < 2 ^ 63 ↔ Value.MaskWritable names bits := by
  have htop {x : UInt64} : x.toNat < 2 ^ 63 ↔ x.toBitVec.getLsbD 63 = false := by
    refine ⟨fun h => ?_, Mask.lt_of_getLsbD⟩
    exact Nat.testBit_lt_two_pow h
  rw [Value.MaskWritable, htop, htop, ← Bool.not_eq_true, ← Bool.not_eq_true,
    getLsbD_restBits (by decide) fun x hx => (mem_namedBits hx).1.1, not_and_or, not_not]

/-- A mask that is in range is written as forms that are all read. -/
theorem exists_maskForms {names : List String} {bits : UInt64} (h : Value.MaskWritable names bits) :
    ∃ first parts, (Canonical.mask names bits).toList =
        first.1.chars ++ parts.flatMap (fun p : Form × UInt64 => ',' :: ' ' :: p.1.chars) ∧
      (∀ p ∈ first :: parts, p.1.ReadsBits names p.2) ∧
      ((first :: parts).map (·.2)).foldl (· ||| ·) 0 = bits := by
  obtain ⟨first, parts, htext, hall, -, hor⟩ := exists_maskItems names bits
  refine ⟨first, parts, htext, fun p hp => ?_, hor⟩
  rcases hall p hp with hp | rfl
  · exact hp
  · exact Form.readsBits_number (restBits_lt.2 h)

end MotionScript
