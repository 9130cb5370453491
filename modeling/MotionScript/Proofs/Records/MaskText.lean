import MotionScript.Proofs.Feeding.Masks
import MotionScript.Proofs.Token.Literals
/-!
# Masks that are read back

The text of a mask is its items between commas. They are read back as the bits of the mask, unless the
top bit has no name of its own: then it is written in a number that is out of range.
-/

namespace MotionScript

open Canonical (namedBits keyword isWord)
open Lexer (tokenize)

/-- The bits of items between commas, put together with `bits`. -/
def maskItems? (names : List String) (bits : UInt64) : List Event → Option UInt64
  | [] => none
  | [e] => (maskBits? e names).map (bits ||| ·)
  | e :: comma :: rest =>
    if comma.isSymbol ',' then (maskBits? e names).bind fun item => maskItems? names (bits ||| item) rest
    else none

/-! ## Names of bits -/

theorem isWord_name (text : String) : isWord (Canonical.name text) = false := by
  -- No name starts with a digit or a plus sign.
  have hfirst : ∃ c cs, (Canonical.name text).toList = c :: cs ∧ c.isDigit = false ∧ c ≠ '+' := by
    rw [← Form.chars_name]
    obtain ⟨c, cs, hcs⟩ := List.exists_cons_of_ne_nil (Form.chars_ne_nil (Form.valid_name text))
    refine ⟨c, cs, hcs, ?_⟩
    have hc : c ∈ (Form.name text).chars.head? := by rw [hcs]; rfl
    have hvalid := Form.valid_name text
    rcases Form.name_cases text with h | h <;> rw [h] at hc hvalid
    · obtain ⟨hid, hdigit⟩ := Form.word_head hvalid hc
      exact ⟨hdigit, fun hplus => by rw [hplus] at hid; cases hid⟩
    · rcases Form.string_head hc with rfl | rfl <;> decide
  obtain ⟨c, cs, hcs, hdigit, hplus⟩ := hfirst
  unfold isWord
  rw [hcs]
  split
  · rename_i heq
    exact absurd (List.cons.inj heq).1 hplus
  · simp [hdigit]

/-- A bit has a name of its own if no earlier name is equal to it, ignoring case. -/
theorem isWord_keyword {names : List String} {i : Nat} (hi : i < 64) :
    isWord (keyword names i) = false ↔ names[i]?.bind (indexOfName? names) = some i := by
  have hword : isWord (toString i) ≠ false := by
    rw [isWord_toString (by omega)]
    decide
  unfold keyword
  cases names[i]? with
  | none => exact iff_of_false hword (by simp)
  | some text =>
    rw [Option.bind_some, indexOfName?]
    dsimp only
    split
    · rename_i hfirst
      exact iff_of_true (isWord_name text) hfirst
    · rename_i hfirst
      exact iff_of_false hword hfirst

theorem mem_map_namedBits {names : List String} {bits : UInt64} {i : Nat} (hi : i < 64) :
    i ∈ (namedBits names bits).map (·.1) ↔
      bits.toBitVec.getLsbD i = true ∧ names[i]?.bind (indexOfName? names) = some i := by
  rw [← isWord_keyword hi]
  constructor
  · intro h
    obtain ⟨x, hx, rfl⟩ := List.mem_map.1 h
    refine ⟨(mem_namedBits hx).1.2, ?_⟩
    obtain ⟨index, -, hsome⟩ := List.mem_filterMap.1 hx
    simp only at hsome
    split at hsome
    · rename_i hcond
      obtain rfl := Option.some.inj hsome
      simpa using (Bool.and_eq_true_iff.1 hcond).2
    · cases hsome
  · rintro ⟨hbit, hname⟩
    have hlength : i < names.length := by
      by_contra hge
      have hnone := (isWord_keyword hi).1 hname
      rw [List.getElem?_eq_none (not_lt.1 hge)] at hnone
      cases hnone
    have hset : bits &&& (1 <<< UInt64.ofNat i) ≠ 0 := by
      intro hzero
      have hget := congrArg (fun x : UInt64 => x.toBitVec.getLsbD i) hzero
      simp only [UInt64.toBitVec_and, BitVec.getLsbD_and, Mask.getLsbD_shift hi, hbit] at hget
      simp at hget
    refine List.mem_map.2 ⟨(i, keyword names i), List.mem_filterMap.2 ⟨i, ?_, ?_⟩, rfl⟩
    · exact List.mem_range.2 (lt_min hlength hi)
    · simp [hset, hname]

theorem maskWritable_iff {names : List String} {bits : UInt64} :
    Value.MaskWritable names bits ↔
      bits.toNat < 2 ^ 63 ∨ names[63]?.bind (indexOfName? names) = some 63 := by
  rw [Value.MaskWritable, mem_map_namedBits (by decide), or_and_left, and_iff_right]
  by_contra h
  rw [not_or] at h
  exact h.1 (Mask.lt_of_getLsbD (Bool.not_eq_true _ ▸ h.2))

/-! ## Items -/

/-- Items with commas between them. -/
def maskAtoms (gap : List Char) (first : Form) : List (Form × UInt64) → List Atom
  | [] => [(gap, first)]
  | p :: parts => (gap, first) :: ([], .symbol ',') :: maskAtoms [' '] p.1 parts

theorem spell_maskAtoms (gap : List Char) (first : Form) (parts : List (Form × UInt64)) :
    spell [] (maskAtoms gap first parts) =
      gap ++ (first.chars ++ parts.flatMap fun p => ',' :: ' ' :: p.1.chars) := by
  induction parts generalizing gap first with
  | nil => rfl
  | cons p parts ih => simp [maskAtoms, spell, ih, Form.chars]

theorem spelled_maskAtoms {gap : List Char} (hgap : IsGap gap) {first : Form × UInt64}
    {parts : List (Form × UInt64)}
    (h : ∀ p ∈ first :: parts, p.1.Valid ∧ p.1.Joins (.symbol ',')) :
    Spelled (maskAtoms gap first.1 parts) := by
  induction parts generalizing gap first with
  | nil =>
    exact ⟨by simpa [maskAtoms] using hgap, by simpa [maskAtoms] using (h first (by simp)).1,
      .singleton _⟩
  | cons p parts ih =>
    rw [List.forall_mem_cons] at h
    have hspace : IsGap [' '] := by simp [IsGap]
    obtain ⟨hgaps, hvalid, hchain⟩ := ih hspace h.2
    refine ⟨?_, ?_, ?_⟩
    · exact List.forall_mem_cons.2 ⟨hgap, List.forall_mem_cons.2 ⟨isGap_nil, hgaps⟩⟩
    · exact List.forall_mem_cons.2 ⟨h.1.1, List.forall_mem_cons.2 ⟨(Form.valid_symbol ',').2 (by decide), hvalid⟩⟩
    · refine List.isChain_cons_cons.2 ⟨.inr h.1.2, ?_⟩
      cases parts with
      | nil => exact List.isChain_cons_cons.2 ⟨.inl (by simp), hchain⟩
      | cons q parts => exact List.isChain_cons_cons.2 ⟨.inl (by simp), hchain⟩

theorem Atom.Reads.is {e : Event} {a : Atom} (h : a.Reads e) : e.Is a.2 :=
  ⟨h.kind, h.text, by simp [Form.joined]⟩

variable {names : List String} {gap : List Char} {first : Form × UInt64}
  {parts : List (Form × UInt64)} {es : List Event}

theorem maskItems?_of_readsBits (h : ∀ p ∈ first :: parts, p.1.ReadsBits names p.2)
    (he : List.Forall₂ Atom.Reads es (maskAtoms gap first.1 parts)) (bits : UInt64) :
    maskItems? names bits es = some (((first :: parts).map (·.2)).foldl (· ||| ·) bits) := by
  induction parts generalizing gap first es bits with
  | nil =>
    obtain ⟨e, _, hfirst, hrest, rfl⟩ := List.forall₂_cons_right_iff.1 he
    obtain rfl := List.forall₂_nil_right_iff.1 hrest
    rw [maskItems?, (h first (by simp)).bits e hfirst.is]
    rfl
  | cons p parts ih =>
    rw [List.forall_mem_cons] at h
    obtain ⟨e, _, hfirst, hrest, rfl⟩ := List.forall₂_cons_right_iff.1 he
    obtain ⟨comma, _, hcomma, hparts, rfl⟩ := List.forall₂_cons_right_iff.1 hrest
    rw [maskItems?, if_pos (by rw [hcomma.is.symbol_isSymbol]; rfl), h.1.bits e hfirst.is,
      Option.bind_some, ih h.2 hparts]
    rfl

/-- One item that is not read is enough. -/
theorem maskItems?_eq_none {p : Form × UInt64} (hp : p ∈ first :: parts)
    (hnone : ∀ e, Event.Is e p.1 → maskBits? e names = none)
    (he : List.Forall₂ Atom.Reads es (maskAtoms gap first.1 parts)) (bits : UInt64) :
    maskItems? names bits es = none := by
  induction parts generalizing gap first es bits with
  | nil =>
    obtain rfl := List.mem_singleton.1 hp
    obtain ⟨e, _, hfirst, hrest, rfl⟩ := List.forall₂_cons_right_iff.1 he
    obtain rfl := List.forall₂_nil_right_iff.1 hrest
    rw [maskItems?, hnone e hfirst.is]
    rfl
  | cons q parts ih =>
    obtain ⟨e, _, hfirst, hrest, rfl⟩ := List.forall₂_cons_right_iff.1 he
    obtain ⟨comma, _, hcomma, hparts, rfl⟩ := List.forall₂_cons_right_iff.1 hrest
    rw [maskItems?, if_pos (by rw [hcomma.is.symbol_isSymbol]; rfl)]
    rcases List.mem_cons.1 hp with rfl | hp
    · rw [hnone e hfirst.is]
      rfl
    · cases maskBits? e names with
      | none => rfl
      | some item => exact ih hp hparts _

/-! ## Numbers out of range -/

theorem Event.Is.int_integer?_eq_none {e : Event} {n : Int} (h : e.Is (.int n))
    (hn : n < -2 ^ 63 ∨ 2 ^ 63 ≤ n) : e.integer? = none := by
  obtain ⟨p, ht, hv, hf⟩ := exists_numeral_int n
  rw [Token.integer?, number_numeral? h, ht, Numeral.read_signedChars, hv, hf, Option.bind_some,
    Option.eq_none_iff_forall_ne_some]
  intro v hsome
  obtain ⟨hvalue, hl, hu⟩ := (Numeral.integer?_whole rfl).1 hsome
  rw [Numeral.value, Decimal.value, zpow_zero, mul_one, Numeral.signed_natCast, Int.cast_inj]
    at hvalue
  rw [integerBound] at hl hu
  dsimp only at hvalue
  by_cases hneg : n < 0
  · rw [if_pos (decide_eq_true hneg)] at hvalue
    omega
  · rw [if_neg (by simpa using hneg)] at hvalue
    omega

/-- The text of a mask is read without a fault, and its items are the bits of the mask exactly if the
top bit is not set or has a name of its own. -/
theorem maskItems?_mask (names : List String) (bits : UInt64) :
    (tokenize .document (Canonical.mask names bits)).failure = none ∧
      maskItems? names 0 (Event.ofTokens (tokenize .document (Canonical.mask names bits)).tokens) =
        if bits.toNat < 2 ^ 63 ∨ names[63]?.bind (indexOfName? names) = some 63 then some bits
        else none := by
  obtain ⟨first, parts, htext, hall, hnumber, hor⟩ := exists_maskItems names bits
  have hforms : ∀ p ∈ first :: parts, p.1.Valid ∧ p.1.Joins (.symbol ',') := by
    intro p hp
    rcases hall p hp with hreads | rfl
    · exact ⟨hreads.valid, hreads.joins ',' (.inl rfl)⟩
    · simp
  have hspell := spell_maskAtoms [] first.1 parts
  rw [List.nil_append, ← htext] at hspell
  obtain ⟨hfailure, hreads⟩ := (spelled_maskAtoms isGap_nil hforms).reads isGap_nil 0 ⟨0, 0⟩ none 0
    (.inr (by cases parts <;> simp [maskAtoms]))
  rw [hspell, ← tokenize] at hfailure hreads
  refine ⟨hfailure, ?_⟩
  rw [Event.ofTokens]
  split
  · rename_i hwritable
    have hrest := restBits_lt.2 (maskWritable_iff.2 hwritable)
    rw [maskItems?_of_readsBits (fun p hp => (hall p hp).elim id ?_) hreads 0, hor]
    rintro rfl
    exact Form.readsBits_number hrest
  · rename_i hwritable
    have hrest := mt restBits_lt.1 (mt maskWritable_iff.1 hwritable)
    generalize restBits (namedBits names bits) bits = rest at hnumber hrest
    have hne : rest ≠ 0 := by
      rintro rfl
      exact hrest (by decide)
    refine maskItems?_eq_none (hnumber hne) (fun e he => ?_) hreads 0
    have hk : (e.kind == .number) = true := by rw [he.number_kind]; rfl
    rw [maskBits?, if_pos hk, he.int_integer?_eq_none (.inr (by omega))]
    rfl

/-- A mask of which only the top bit is set is not read back if the bit has no name. -/
theorem maskItems?_mask_top :
    ¬∀ (names : List String) (bits : UInt64),
      (tokenize .document (Canonical.mask names bits)).failure = none ∧
        maskItems? names 0 (Event.ofTokens (tokenize .document (Canonical.mask names bits)).tokens) =
          some bits := by
  intro h
  have hnone : maskItems? [] 0
      (Event.ofTokens (tokenize .document (Canonical.mask [] 0x8000000000000000)).tokens) = none := by
    decide +kernel
  have hsome := (h [] 0x8000000000000000).2
  rw [hnone] at hsome
  cases hsome

end MotionScript
