import MotionScript.Proofs.Feeding.OpenRecords
/-!
# Values of a kind

What it means that a value is of the kind its schema gives it. The zero value of a kind is of that
kind, what is found inside of a value of a kind is of the kind that the same indices lead to, and a
value keeps its kind if a value inside of it is replaced by one of the same kind.
-/

namespace MotionScript

namespace Value

/-- Whether a value is of a kind. The index of a variant is that of a name; an enumeration without
names has only its zero value. -/
inductive OfKind : Value → FieldKind → Prop where
  | bool (b : Bool) : OfKind (.bool b) .bool
  | integer {n : Int} (hl : -2 ^ 63 ≤ n) (hu : n < 2 ^ 63) : OfKind (.integer n) .integer
  | float (x : Double) : OfKind (.float x) .float
  | string (text : String) : OfKind (.string text) .string
  | enum {index : Nat} {names : List String} (h : index < names.length ∨ names = [] ∧ index = 0) :
    OfKind (.enum index) (.enum names)
  | mask (bits : UInt64) (names : List String) : OfKind (.mask bits) (.mask names)
  | object (asset : Option Asset) : OfKind (.object asset) .object
  | record {fields : Fields} {schema : Schema} (hn : fields.map (·.1) = schema.map (·.1))
    (h : ∀ (i : Nat) (field : String × Value) (entry : String × FieldKind),
      fields[i]? = some field → schema[i]? = some entry → OfKind field.2 entry.2) :
    OfKind (.record fields) (.record schema)
  | array {items : List Value} {element : FieldKind} (h : ∀ item ∈ items, OfKind item element) :
    OfKind (.array items) (.array element)

variable {v w : Value} {kind : FieldKind} {fields : Fields} {schema : Schema}

/-! ## Records -/

theorem OfKind.cons {name : String} (hv : v.OfKind kind)
    (h : (Value.record fields).OfKind (.record schema)) :
    (Value.record ((name, v) :: fields)).OfKind (.record ((name, kind) :: schema)) := by
  cases h with
  | record hn h =>
    refine .record (by simp [hn]) fun i field entry hfield hentry => ?_
    cases i with
    | zero =>
      obtain rfl := Option.some.inj hfield
      obtain rfl := Option.some.inj hentry
      exact hv
    | succ i => exact h i field entry hfield hentry

/-- A record has a field wherever its schema has one. -/
theorem OfKind.exists_field (h : (Value.record fields).OfKind (.record schema)) {i : Nat}
    {entry : String × FieldKind} (hi : schema[i]? = some entry) :
    ∃ field, fields[i]? = some field ∧ field.2.OfKind entry.2 := by
  cases h with
  | record hn h =>
    have hlen : fields.length = schema.length := by simpa using congrArg List.length hn
    obtain ⟨hlt, -⟩ := List.getElem?_eq_some_iff.1 hi
    have hfield : fields[i]? = some fields[i] := List.getElem?_eq_getElem (hlen ▸ hlt)
    exact ⟨_, hfield, h i _ entry hfield hi⟩

/-- A schema has an entry wherever a record has a field. -/
theorem OfKind.exists_entry (h : (Value.record fields).OfKind (.record schema)) {i : Nat}
    {field : String × Value} (hi : fields[i]? = some field) :
    ∃ entry, schema[i]? = some entry ∧ field.2.OfKind entry.2 := by
  cases h with
  | record hn h =>
    have hlen : fields.length = schema.length := by simpa using congrArg List.length hn
    obtain ⟨hlt, -⟩ := List.getElem?_eq_some_iff.1 hi
    have hentry : schema[i]? = some schema[i] := List.getElem?_eq_getElem (hlen ▸ hlt)
    exact ⟨_, hentry, h i field _ hi hentry⟩

/-- A value that can be written without an asset root is of its kind. -/
theorem Fits.ofKind (h : v.Fits kind) : v.OfKind kind := by
  induction h with
  | bool b => exact .bool b
  | integer hl hu => exact .integer hl hu
  | float _ => exact .float _
  | string text => exact .string text
  | enum h _ => exact .enum (.inl h)
  | mask _ => exact .mask _ _
  | empty | object => exact .object _
  | record _ hf _ ih => exact .record hf ih
  | array _ ih => exact .array ih

theorem OfKind.exists_record (h : v.OfKind (.record schema)) : ∃ fields, v = .record fields := by
  cases h
  exact ⟨_, rfl⟩

theorem OfKind.exists_array {element : FieldKind} (h : v.OfKind (.array element)) :
    ∃ items, v = .array items ∧ ∀ item ∈ items, item.OfKind element := by
  cases h with
  | array h => exact ⟨_, rfl, h⟩

end Value

/-! ## Zero values -/

mutual

theorem FieldKind.zero_ofKind : ∀ kind : FieldKind, kind.zero.OfKind kind
  | .bool => .bool false
  | .integer => .integer (by decide) (by decide)
  | .float => .float .zero
  | .string => .string ""
  | .enum [] => .enum (.inr ⟨rfl, rfl⟩)
  | .enum (_ :: _) => .enum (.inl (Nat.succ_pos _))
  | .mask names => .mask 0 names
  | .object => .object none
  | .record fields => by
    rw [FieldKind.zero]
    exact zeroFields_ofKind fields
  | .array _ => .array (by simp)

theorem FieldKind.zeroFields_ofKind : ∀ schema : List (String × FieldKind),
    (Value.record (FieldKind.zeroFields schema)).OfKind (.record schema)
  | [] => .record rfl (by simp)
  | (_, kind) :: schema => by
    rw [FieldKind.zeroFields]
    exact (FieldKind.zero_ofKind kind).cons (FieldKind.zeroFields_ofKind schema)

end

/-! ## Values inside of a value -/

namespace Value

variable {v w : Value} {kind : FieldKind} {f : Value → Value} {path : List Nat}

/-- What indices lead to is of the kind that they lead to. -/
theorem OfKind.inside (h : v.OfKind kind) (hw : v.below? path = some w) :
    ∃ inner, Schema.kindBelow? kind path = some inner ∧ w.OfKind inner := by
  induction path generalizing v kind with
  | nil =>
    obtain rfl := Option.some.inj hw
    exact ⟨kind, rfl, h⟩
  | cons i path ih =>
    cases h with
    | record hn h =>
      obtain ⟨field, hfield, hw⟩ := Option.bind_eq_some_iff.1 hw
      obtain ⟨entry, hentry, hkind⟩ := (OfKind.record hn h).exists_entry hfield
      obtain ⟨inner, hinner, hw⟩ := ih hkind hw
      exact ⟨inner, by rw [Schema.kindBelow?, hentry]; exact hinner, hw⟩
    | array h =>
      obtain ⟨item, hitem, hw⟩ := Option.bind_eq_some_iff.1 hw
      exact ih (h item (List.mem_of_getElem? hitem)) hw
    | _ => cases hw

/-- A value keeps its kind if what is changed inside of it does. -/
theorem OfKind.modifyBelow (h : v.OfKind kind)
    (hf : ∀ w inner, v.below? path = some w → Schema.kindBelow? kind path = some inner →
      w.OfKind inner → (f w).OfKind inner) : (v.modifyBelow f path).OfKind kind := by
  induction path generalizing v kind with
  | nil => exact hf v kind rfl rfl h
  | cons i path ih =>
    cases h with
    | @record fields schema hn h =>
      refine .record ?_ fun j field entry hfield hentry => ?_
      · rw [← hn]
        refine List.ext_getElem? fun j => ?_
        simp only [List.getElem?_map, List.getElem?_modify]
        split <;> cases fields[j]? <;> rfl
      · rw [List.getElem?_modify] at hfield
        obtain ⟨old, hold, rfl⟩ := Option.map_eq_some_iff.1 hfield
        split
        · rename_i hij
          subst hij
          refine ih (h i old entry hold hentry) fun w inner hw hinner hkind => ?_
          exact hf w inner (by rw [below?, hold]; exact hw)
            (by rw [Schema.kindBelow?, hentry]; exact hinner) hkind
        · exact h j old entry hold hentry
    | @array items element h =>
      refine .array fun item hitem => ?_
      obtain ⟨j, hj⟩ := List.mem_iff_getElem?.1 hitem
      rw [List.getElem?_modify] at hj
      obtain ⟨old, hold, rfl⟩ := Option.map_eq_some_iff.1 hj
      have hkind := h old (List.mem_of_getElem? hold)
      split
      · rename_i hij
        subst hij
        exact ih hkind fun w inner hw hinner hw' =>
          hf w inner (by rw [below?, hold]; exact hw) hinner hw'
      · exact hkind
    | bool b => exact .bool b
    | integer hl hu => exact .integer hl hu
    | float x => exact .float x
    | string text => exact .string text
    | enum h => exact .enum h
    | mask bits names => exact .mask bits names
    | object asset => exact .object asset

end Value

/-! ## Fields by index -/

namespace Fields

variable {fields : Fields} {path : List Nat} {v : Value}

theorem below?_of_at? (h : fields.at? path = some v) : (Value.record fields).below? path = some v := by
  cases path with
  | nil => cases h
  | cons i path => exact h

theorem ne_nil_of_at? (h : fields.at? path = some v) : path ≠ [] := by
  rintro rfl
  cases h

theorem record_modifyAt (f : Value → Value) (h : path ≠ []) :
    Value.record (fields.modifyAt f path) = (Value.record fields).modifyBelow f path := by
  cases path with
  | nil => exact absurd rfl h
  | cons i path => rfl

/-- A changed value is found where it is. -/
theorem at?_modifyAt {f : Value → Value} (h : fields.at? path = some v) :
    (fields.modifyAt f path).at? path = some (f v) := by
  have hchanged := Value.below?_modifyBelow (f := f) (below?_of_at? h)
  rw [← record_modifyAt f (ne_nil_of_at? h)] at hchanged
  cases path with
  | nil => cases h
  | cons i path => exact hchanged

/-- Fields that are changed depend on what a value was only where it is changed. -/
theorem modifyAt_congr {f g : Value → Value} (h : fields.at? path = some v) (hf : f v = g v) :
    fields.modifyAt f path = fields.modifyAt g path := by
  have hrecord := Value.modifyBelow_congr (below?_of_at? h) hf
  rw [← record_modifyAt f (ne_nil_of_at? h), ← record_modifyAt g (ne_nil_of_at? h)] at hrecord
  exact Value.record.inj hrecord

theorem at?_append (fields : Fields) {path : List Nat} (h : path ≠ []) (path' : List Nat) :
    fields.at? (path ++ path') = (fields.at? path).bind (·.below? path') := by
  cases path with
  | nil => exact absurd rfl h
  | cons i path => exact Value.below?_append (.record fields) (i :: path) path'

end Fields

theorem Schema.kindBelow?_record (schema : Schema) {path : List Nat} (h : path ≠ []) :
    Schema.kindBelow? (.record schema) path = schema.kindAt? path := by
  cases path with
  | nil => exact absurd rfl h
  | cons i path => rfl

/-- A field is at the index at which it is found by name. -/
theorem Schema.getElem?_of_field? {schema : Schema} {name : String} {index : Nat} {kind : FieldKind}
    (h : schema.field? name = some (index, kind)) : schema[index]? = some (name, kind) := by
  obtain ⟨⟨⟨field, kind'⟩, i⟩, hmem, hentry⟩ := List.exists_of_findSome?_eq_some h
  dsimp only at hentry
  split at hentry
  · rename_i hname
    obtain ⟨rfl, rfl⟩ := Prod.mk.inj (Option.some.inj hentry)
    rw [← hname]
    exact List.mk_mem_zipIdx_iff_getElem?.1 hmem
  · cases hentry

/-! ## Values of tokens -/

/-- A numeral stands for no integer beyond 64 bits. -/
theorem Numeral.integer?_bounds {numeral : Numeral} {n : Int} (h : numeral.integer? = some n) :
    -2 ^ 63 ≤ n ∧ n < 2 ^ 63 := by
  cases numeral with
  | radix negative magnitude =>
    obtain ⟨hlt, hn⟩ : magnitude < integerBound ∧
        (if negative then -(magnitude : Int) else magnitude) = n := by
      simpa [integer?, signed?] using h
    rw [integerBound] at hlt
    cases negative <;> simp only [Bool.false_eq_true, if_false, if_true] at hn <;> omega
  | decimal negative value whole =>
    unfold integer? at h
    dsimp only at h
    generalize (if negative = true then -(value.digits : Int) else value.digits) = exact at h
    by_cases hexact : whole = true ∧ -(integerBound : Int) ≤ exact ∧ exact < integerBound
    · rw [if_pos hexact] at h
      obtain rfl := Option.some.inj h
      simp only [integerBound] at hexact
      omega
    · rw [if_neg hexact] at h
      cases hb : (value.toBinary Format.double negative).integer? with
      | none => simp [hb] at h
      | some m =>
        obtain ⟨hlt, rfl⟩ : m.natAbs < integerBound ∧ m = n := by simpa [hb] using h
        rw [integerBound] at hlt
        omega

theorem Token.integer?_bounds {t : Token} {n : Int} (h : t.integer? = some n) :
    -2 ^ 63 ≤ n ∧ n < 2 ^ 63 := by
  obtain ⟨numeral, -, h⟩ := Option.bind_eq_some_iff.1 h
  exact Numeral.integer?_bounds h

/-- The value a token stands for is of the kind that it is read for, and a variant is a named one. -/
theorem scalar?_ofKind {e : Event} {kind : FieldKind} {v : Value} (h : scalar? e kind = some v) :
    v.OfKind kind := by
  cases kind with
  | bool =>
    simp only [scalar?] at h
    split at h
    · obtain rfl := Option.some.inj h
      exact .bool true
    · split at h
      · obtain rfl := Option.some.inj h
        exact .bool false
      · obtain ⟨x, -, rfl⟩ := Option.map_eq_some_iff.1 h
        exact .bool _
  | integer =>
    obtain ⟨n, hn, rfl⟩ := Option.map_eq_some_iff.1 h
    obtain ⟨hl, hu⟩ := Token.integer?_bounds hn
    exact .integer hl hu
  | float =>
    obtain ⟨x, -, rfl⟩ := Option.map_eq_some_iff.1 h
    exact .float x
  | string =>
    obtain ⟨text, -, rfl⟩ := Option.map_eq_some_iff.1 h
    exact .string text
  | enum names =>
    simp only [scalar?] at h
    split at h
    · obtain ⟨n, -, h⟩ := Option.bind_eq_some_iff.1 h
      split at h
      · obtain rfl := Option.some.inj h
        exact .enum (.inl (by omega))
      · cases h
    · obtain ⟨index, hindex, rfl⟩ := Option.map_eq_some_iff.1 h
      exact .enum (.inl (List.findIdx?_eq_some_iff_getElem.1 hindex).1)
  | _ => cases h

end MotionScript
