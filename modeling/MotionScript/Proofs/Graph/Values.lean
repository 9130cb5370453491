import Mathlib.Algebra.Ring.Int.Defs
import Mathlib.Algebra.Ring.Nat
import MotionScript.Canonical.Record
import MotionScript.Proofs.Graph.Motions
/-!
# Values in records

Values inside of records and arrays are found and changed along lists of indices; what is written
there is found there again. A value that fits its kind is one that the document language can write.
-/

namespace MotionScript

namespace Value

/-- The value behind some others is changed. -/
theorem modify_length {α : Type} (f : α → α) (xs : List α) (x : α) (ys : List α) :
    (xs ++ x :: ys).modify xs.length f = xs ++ f x :: ys := by
  induction xs with
  | nil => rfl
  | cons _ _ ih => exact congrArg _ ih

/-! ## Values below a value -/

section Below

variable {f g : Value → Value} {v w : Value} {path path' : List Nat}

theorem below?_append (v : Value) (path path' : List Nat) :
    v.below? (path ++ path') = (v.below? path).bind (·.below? path') := by
  induction path generalizing v with
  | nil => rfl
  | cons i path ih =>
    cases v with
    | record fields =>
      simp only [List.cons_append, below?, Option.bind_assoc]
      exact congrArg _ (funext fun x => ih x.2)
    | array items =>
      simp only [List.cons_append, below?, Option.bind_assoc]
      exact congrArg _ (funext ih)
    | _ => rfl

theorem modifyBelow_append (f : Value → Value) (v : Value) (path path' : List Nat) :
    v.modifyBelow f (path ++ path') = v.modifyBelow (·.modifyBelow f path') path := by
  induction path generalizing v with
  | nil => rfl
  | cons i path ih => cases v <;> simp only [List.cons_append, modifyBelow, ih]

/-- A value that is changed depends on what it was only where it is changed. -/
theorem modifyBelow_congr (h : v.below? path = some w) (hf : f w = g w) :
    v.modifyBelow f path = v.modifyBelow g path := by
  have hmodify {α : Type} {xs : List α} {i : Nat} {f g : α → α} (h : ∀ x ∈ xs[i]?, f x = g x) :
      xs.modify i f = xs.modify i g := by
    refine List.ext_getElem? fun j => ?_
    rw [List.getElem?_modify, List.getElem?_modify]
    by_cases hij : i = j
    · subst hij
      cases hx : xs[i]? with
      | none => rfl
      | some x => simp [h x hx]
    · simp [hij]
  induction path generalizing v with
  | nil =>
    obtain rfl : v = w := Option.some.inj h
    exact hf
  | cons i path ih =>
    cases v with
    | record fields =>
      refine congrArg Value.record (hmodify fun x hx => ?_)
      rw [below?, Option.mem_def.1 hx] at h
      exact congrArg (x.1, ·) (ih h)
    | array items =>
      refine congrArg Value.array (hmodify fun x hx => ?_)
      rw [below?, Option.mem_def.1 hx] at h
      exact ih h
    | _ => cases h

/-- A changed value is found where it is. -/
theorem below?_modifyBelow (h : v.below? path = some w) :
    (v.modifyBelow f path).below? path = some (f w) := by
  induction path generalizing v with
  | nil => exact congrArg (some ∘ f) (Option.some.inj h)
  | cons i path ih =>
    cases v with
    | record fields =>
      simp only [below?, modifyBelow, List.getElem?_modify_eq] at h ⊢
      obtain ⟨x, hx, h⟩ := Option.bind_eq_some_iff.1 h
      simpa [hx] using ih h
    | array items =>
      simp only [below?, modifyBelow, List.getElem?_modify_eq] at h ⊢
      obtain ⟨x, hx, h⟩ := Option.bind_eq_some_iff.1 h
      simpa [hx] using ih h
    | _ => cases h

theorem modifyBelow_modifyBelow (f g : Value → Value) (v : Value) (path : List Nat) :
    (v.modifyBelow f path).modifyBelow g path = v.modifyBelow (g ∘ f) path := by
  induction path generalizing v with
  | nil => rfl
  | cons i path ih => cases v <;> simp [modifyBelow, List.modify_modify_eq, Function.comp_def, ih]

theorem modifyBelow_id (v : Value) (path : List Nat) : v.modifyBelow (fun w => w) path = v := by
  induction path generalizing v with
  | nil => rfl
  | cons i path ih =>
    have hid {α : Type} (xs : List α) : xs.modify i id = xs := List.modify_id i xs
    cases v with
    | record fields =>
      simp only [modifyBelow, ih]
      exact congrArg Value.record (hid fields)
    | array items =>
      simp only [modifyBelow, ih]
      exact congrArg Value.array (hid items)
    | _ => rfl

theorem modifyBelow_self (h : v.below? path = some w) : v.modifyBelow (fun _ => w) path = v :=
  (modifyBelow_congr (f := fun _ => w) (g := fun w => w) h rfl).trans (modifyBelow_id v path)

end Below

/-- The fields of a record. -/
def fields : Value → Fields
  | record fields => fields
  | _ => []

/-! ## Values that can be written -/

/-- Whether the bits of a mask can be written: what has no name is written as a number below
`2 ^ 63`. -/
def MaskWritable (names : List String) (bits : UInt64) : Prop :=
  bits.toNat < 2 ^ 63 ∨ 63 ∈ (Canonical.namedBits names bits).map (·.1)

/-- Whether a value is of a kind and can be written. -/
inductive Fits : Value → FieldKind → Prop where
  | bool (b : Bool) : Fits (.bool b) .bool
  | integer {n : Int} (hl : -2 ^ 63 ≤ n) (hu : n < 2 ^ 63) : Fits (.integer n) .integer
  | float {x : Double} (h : x.isFinite = true) : Fits (.float x) .float
  | string (text : String) : Fits (.string text) .string
  | enum {index : Nat} {names : List String} (h : index < names.length)
    (hn : names.length < 2 ^ 63) : Fits (.enum index) (.enum names)
  | mask {names : List String} {bits : UInt64} (h : MaskWritable names bits) :
    Fits (.mask bits) (.mask names)
  | empty : Fits (.object none) .object
  | object {reference : String} (h : Asset.Resolves reference) (hn : reference ≠ "null") :
    Fits (.object (some ⟨reference, .object⟩)) .object
  | record {fields : Fields} {schema : Schema} (hn : (schema.map (·.1)).Nodup)
    (hf : fields.map (·.1) = schema.map (·.1))
    (h : ∀ (i : Nat) (field : String × Value) (entry : String × FieldKind),
      fields[i]? = some field → schema[i]? = some entry → Fits field.2 entry.2) :
    Fits (.record fields) (.record schema)
  | array {items : List Value} {element : FieldKind} (h : ∀ item ∈ items, Fits item element) :
    Fits (.array items) (.array element)

/-! ### With any host -/

/-- Whether a value of a kind can be written for a host that finds some references, whatever it holds
inside. -/
def WritableHere (finds : String → Prop) : Value → FieldKind → Prop
  | .float x, _ => x.isFinite = true
  | .enum _, .enum names => names ≠ [] ∧ names.length < 2 ^ 63
  | .mask bits, .mask names => MaskWritable names bits
  | .object (some asset), _ =>
    asset.kind = .object ∧ asset.reference ≠ "null" ∧ finds asset.reference
  | .record _, .record schema => (schema.map (·.1)).Nodup
  | _, _ => True

/-- Whether a value of a kind can be written, and so can all that it holds at any depth. -/
def Writable (finds : String → Prop) (v : Value) (kind : FieldKind) : Prop :=
  ∀ path w inner, v.below? path = some w → Schema.kindBelow? kind path = some inner →
    w.WritableHere finds inner

namespace Writable

variable {finds : String → Prop} {v : Value} {kind : FieldKind}

theorem here (h : v.Writable finds kind) : v.WritableHere finds kind := h [] v kind rfl rfl

/-- More can be written for a host that finds more. -/
theorem mono {finds' : String → Prop} (hf : ∀ reference, finds reference → finds' reference)
    (h : v.Writable finds kind) : v.Writable finds' kind := by
  intro path w inner hw hinner
  have here := h path w inner hw hinner
  unfold WritableHere at here ⊢
  split at here
  case h_4 => exact ⟨here.1, here.2.1, hf _ here.2.2⟩
  all_goals exact here

theorem field {fields : Fields} {schema : Schema}
    (h : (Value.record fields).Writable finds (.record schema)) {i : Nat} {field : String × Value}
    {entry : String × FieldKind} (hf : fields[i]? = some field) (he : schema[i]? = some entry) :
    field.2.Writable finds entry.2 := by
  intro path w inner hw hinner
  apply h (i :: path)
  · rw [below?, hf]
    exact hw
  · rw [Schema.kindBelow?, he]
    exact hinner

theorem item {items : List Value} {element : FieldKind}
    (h : (Value.array items).Writable finds (.array element)) {item : Value} (hi : item ∈ items) :
    item.Writable finds element := by
  obtain ⟨i, hi⟩ := List.mem_iff_getElem?.1 hi
  intro path w inner hw hinner
  apply h (i :: path)
  · rw [below?, hi]
    exact hw
  · exact hinner

end Writable

/-- What can be written without an asset root can be written for a host that finds every reference
that such a host finds. -/
theorem Fits.writable {v : Value} {kind : FieldKind} (h : v.Fits kind) :
    v.Writable Asset.Resolves kind := by
  intro path w inner hw hinner
  induction path generalizing v kind with
  | nil =>
    obtain rfl := Option.some.inj hw
    obtain rfl := Option.some.inj hinner
    cases h with
    | float h => exact h
    | enum h hn => exact ⟨fun hnil => by simp [hnil] at h, hn⟩
    | mask h => exact h
    | object h hn => exact ⟨rfl, hn, h⟩
    | record hn hf h => exact hn
    | bool | integer | string | empty | array => exact trivial
  | cons i path ih =>
    cases h with
    | record hn hf h =>
      obtain ⟨field, hfield, hw⟩ := Option.bind_eq_some_iff.1 hw
      obtain ⟨entry, hentry, hinner⟩ := Option.bind_eq_some_iff.1 hinner
      exact ih (h i field entry hfield hentry) hw hinner
    | array h =>
      obtain ⟨item, hitem, hw⟩ := Option.bind_eq_some_iff.1 hw
      exact ih (h item (List.mem_of_getElem? hitem)) hw hinner
    | _ => cases hw

end Value

end MotionScript
