import MotionScript.Proofs.Records.Steps
/-!
# Reading records

From what one token does, what a whole value, the entries of a record and the items of an array do:
whatever the rule accepts is spelled, and the values become what the tree assigns. The tokens may end
anywhere. Then nothing has changed beyond the value within which they end.
-/

namespace MotionScript

namespace OpenRecord

variable {η : Type} [Host η] {r : OpenRecord} {s s' : Session η} {root : Value} {e : Event}
  {tokens rest : List Event} {final : RecordRule × Session η} {schema : Schema}

/-! ## Where the tokens end -/

/-- The tokens have ended within the value of a rule. -/
def EndsWithin (r : OpenRecord) (root : Value) (final : RecordRule × Session η) : Prop :=
  ∃ r' expect f, final.1 = .body r' expect ∧ r'.id = r.id ∧ r.path <+: r'.path ∧
    (r'.path = r.path → expect ≠ .afterValue) ∧
    r'.Holds expect final.2 (root.modifyBelow f r.path)

omit [Host η] in
theorem Holds.endsWithin {expect : RecordExpect} (h : r.Holds expect s root)
    (hafter : expect ≠ .afterValue) : EndsWithin r root (.body r expect, s) := by
  refine ⟨r, expect, fun value => value, rfl, rfl, List.prefix_rfl, fun _ => hafter, ?_⟩
  rwa [Value.modifyBelow_id]

omit [Host η] in
/-- Behind the value of a field or item, the tokens end within the record or array. -/
theorem Holds.endsWithin_above {index : Nat} (h : (r.below index).Holds .afterValue s root) :
    EndsWithin r root (.body (r.below index) .afterValue, s) := by
  refine ⟨r.below index, .afterValue, fun value => value, rfl, rfl, List.prefix_append _ _,
    fun hpath => absurd hpath (by simp [below]), ?_⟩
  rwa [Value.modifyBelow_id]

omit [Host η] in
theorem EndsWithin.above {index : Nat} (h : EndsWithin (r.below index) root final) :
    EndsWithin r root final := by
  obtain ⟨r', expect, f, hrule, hid, hpath, -, h⟩ := h
  have hlonger : r.path <+: r'.path := (List.prefix_append _ _).trans hpath
  refine ⟨r', expect, (·.modifyBelow f [index]), hrule, hid, hlonger, fun heq => ?_, ?_⟩
  · have hlength := hpath.length_le
    simp [below, heq] at hlength
  · rwa [← Value.modifyBelow_append]

omit [Host η] in
theorem EndsWithin.of_changed {g : Value → Value}
    (h : EndsWithin r (root.modifyBelow g r.path) final) : EndsWithin r root final := by
  obtain ⟨r', expect, f, hrule, hid, hpath, hexpect, h⟩ := h
  exact ⟨r', expect, f ∘ g, hrule, hid, hpath, hexpect, by rwa [Value.modifyBelow_modifyBelow] at h⟩

/-! ## Behind values -/

omit [Host η] in
theorem Holds.exists_value (h : r.Holds .value s root) : ∃ value, root.below? r.path = some value := by
  obtain ⟨record, -, hr, rfl⟩ := h
  obtain ⟨-, value, -, hat, -⟩ := hr.placed
  exact ⟨value, Fields.below?_of_at? hat⟩

theorem feed_cons {expect : RecordExpect}
    (h : (RecordRule.body r expect).feed s (e :: rest) = .ok final) :
    ∃ rule s' control, (RecordRule.body r expect).react e s = .ok (rule, s', control) ∧
      rule.feed s' rest = .ok final := by
  obtain ⟨⟨rule, s', control⟩, hstep, h⟩ := except_bind_ok.1 h
  exact ⟨rule, s', control, hstep, h⟩

/-- Behind a value that is no mask there is a semicolon, if there is a token at all. -/
theorem Holds.isSymbol_semicolon (h : r.Holds .afterValue s root)
    (hmask : ∀ names, r.kind? ≠ some (.mask names))
    (hend : (RecordRule.body r .afterValue).feed s rest = .ok final) :
    ∀ e ∈ rest.head?, e.isSymbol ';' = true := by
  cases rest with
  | nil => simp
  | cons e rest =>
    obtain ⟨rule, s', control, hstep, -⟩ := feed_cons hend
    rintro _ ⟨⟩
    cases h.after_step hstep with
    | comma hkind => exact absurd hkind (hmask _)
    | item _ _ hsemicolon | field _ hsemicolon => exact hsemicolon

/-- The semicolon behind the value of a field. -/
theorem Holds.leave_field {index : Nat} (h : (r.below index).Holds .afterValue s root)
    (hschema : r.fields? = some schema) (hsemicolon : e.isSymbol ';' = true)
    (hend : (RecordRule.body (r.below index) .afterValue).feed s (e :: rest) = .ok final) :
    ∃ s', s'.host = s.host ∧ r.Holds .field s' root ∧
      (RecordRule.body r .field).feed s' rest = .ok final := by
  obtain ⟨rule, s', control, hstep, hnext⟩ := feed_cons hend
  cases h.after_step hstep with
  | comma _ hcomma =>
    rw [isSymbol_ne hsemicolon (by decide)] at hcomma
    cases hcomma
  | item hpop =>
    rw [pop_below] at hpop
    exact absurd hpop (kind?_of_fields? hschema _)
  | field _ _ hhost h =>
    rw [pop_below] at h hnext
    exact ⟨s', hhost, h, hnext⟩

/-- The semicolon behind an item. -/
theorem Holds.next_item {index : Nat} (h : (r.below index).Holds .afterValue s root)
    {element : FieldKind} (hkind : r.kind? = some (.array element)) {items : List Value}
    (hitems : root.below? r.path = some (.array items)) (hsemicolon : e.isSymbol ';' = true)
    (hend : (RecordRule.body (r.below index) .afterValue).feed s (e :: rest) = .ok final) :
    ∃ s', s'.host = s.host ∧
      (r.below items.length).Holds .value s' (root.modifyBelow (·.pushItem element.zero) r.path) ∧
      (RecordRule.body (r.below items.length) .value).feed s' rest = .ok final := by
  obtain ⟨rule, s', control, hstep, hnext⟩ := feed_cons hend
  cases h.after_step hstep with
  | comma _ hcomma =>
    rw [isSymbol_ne hsemicolon (by decide)] at hcomma
    cases hcomma
  | item hpop hitems' _ hhost h =>
    rw [pop_below] at hpop hitems' h hnext
    obtain rfl := FieldKind.array.inj (Option.some.inj (hkind.symm.trans hpop))
    obtain rfl := Value.array.inj (Option.some.inj (hitems.symm.trans hitems'))
    exact ⟨s', hhost, h, hnext⟩
  | field hpop =>
    rw [pop_below] at hpop
    exact absurd hkind (hpop element)

/-! ## Values -/

/-- What the tokens from a value on are: a value and what is behind it, the end of the array that the
value would be an item of, or too few. -/
inductive ReadsValue (r : OpenRecord) (kind : FieldKind) (root : Value) (s : Session η)
    (tokens : List Event) (final : RecordRule × Session η) : Prop
  | value {w : ValueTree} {s' : Session η} {rest : List Event}
    (hspells : SpellsValue r.inArray kind s.host tokens w s'.host rest)
    (hrest : ∀ e ∈ rest.head?, e.isSymbol ';' = true)
    (h : r.Holds .afterValue s' (root.modifyBelow (w.assign kind) r.path))
    (hend : (RecordRule.body r .afterValue).feed s' rest = .ok final)
    (hlength : rest.length < tokens.length)
  | closed {item : Value} {loose : Option UInt64} {s' : Session η} {rest : List Event}
    (hin : r.inArray = true) (hspells : SpellsItems kind s.host tokens [] loose s'.host rest)
    (h : r.pop.Holds .afterValue s'
      ((root.modifyBelow (fun _ => item) r.path).modifyBelow Value.popItem r.pop.path))
    (hend : (RecordRule.body r.pop .afterValue).feed s' rest = .ok final)
    (hlength : rest.length < tokens.length)
  | within (h : EndsWithin r root final)

/-- Values are read from fewer than `n` tokens. -/
def ReadsValues (final : RecordRule × Session η) (n : Nat) : Prop :=
  ∀ (tokens : List Event), tokens.length < n →
    ∀ (r : OpenRecord) (s : Session η) (root : Value) (kind : FieldKind), r.Holds .value s root →
      r.kind? = some kind → (RecordRule.body r .value).feed s tokens = .ok final →
        ReadsValue r kind root s tokens final

/-! ## Entries -/

/-- Where the tokens end among the entries of a record, and in which field if they do within its
value. -/
inductive Unread (r : OpenRecord) (schema : Schema) (root : Value) (final : RecordRule × Session η) :
    List Event → Option Nat → Prop
  | field (hrule : final.1 = .body r .field) (h : r.Holds .field final.2 root) :
    Unread r schema root final [] none
  | behind {index : Nat} (hrule : final.1 = .body (r.below index) .afterValue)
    (h : (r.below index).Holds .afterValue final.2 root) : Unread r schema root final [] none
  | within {e : Event} {rest : List Event} {name : String} {index : Nat} {kind : FieldKind}
    (hname : e.name? = some name) (hfield : schema.field? name = some (index, kind))
    (h : EndsWithin (r.below index) root final) : Unread r schema root final (e :: rest) (some index)

omit [Host η] in
theorem Unread.endsWithin {unread : List Event} {unfinished : Option Nat}
    (h : Unread r schema root final unread unfinished) : EndsWithin r root final := by
  obtain ⟨rule, s⟩ := final
  cases h with
  | field hrule h =>
    obtain rfl : rule = _ := hrule
    exact h.endsWithin (by simp)
  | behind hrule h =>
    obtain rfl : rule = _ := hrule
    exact h.endsWithin_above
  | within _ _ h => exact h.above

/-- What the tokens from an entry on are: entries up to the brace behind them, or too few. -/
inductive ReadsEntries (r : OpenRecord) (schema : Schema) (root : Value) (s : Session η)
    (tokens : List Event) (final : RecordRule × Session η) : Prop
  | closed {entries : List (Nat × ValueTree)} {s' : Session η} {close : Event} {rest : List Event}
    (hspells : SpellsEntries schema s.host tokens entries s'.host (close :: rest))
    (hclose : close.isSymbol '}' = true)
    (h : r.Holds r.behind s'
      (root.modifyBelow ((ValueTree.record entries).assign (.record schema)) r.path))
    (hend : (RecordRule.body r r.behind).feed s' rest = .ok final)
    (hlength : rest.length < tokens.length)
  | unread {entries : List (Nat × ValueTree)} {host : η} {unread : List Event}
    {unfinished : Option Nat} (hspells : SpellsEntries schema s.host tokens entries host unread)
    (hunread : Unread r schema
      (root.modifyBelow ((ValueTree.record entries).assign (.record schema)) r.path) final unread
      unfinished)

omit [Host η] in
theorem inArray_below_field (h : r.fields? = some schema) (index : Nat) :
    (r.below index).inArray = false := by
  have hnone (element : FieldKind) : r.schema.kindAt? r.path ≠ some (.array element) :=
    kind?_of_fields? h element
  unfold inArray
  rw [below, List.dropLast_concat]
  split
  · exact absurd ‹_› (hnone _)
  · rfl

omit [Host η] in
theorem Holds.exists_fields (h : r.Holds .field s root) :
    ∃ fields, root.below? r.path = some (.record fields) := by
  obtain ⟨record, -, hr, rfl⟩ := h
  rcases hr.placed with hp | ⟨schema, inner, -, hat⟩
  · exact ⟨record.fields, by rw [hp]; rfl⟩
  · exact ⟨inner, Fields.below?_of_at? hat⟩

omit [Host η] in
/-- An entry is assigned before the entries behind it. -/
theorem assign_entry_below {fields : Fields} (hfields : root.below? r.path = some (.record fields))
    {index : Nat} {name : String} {kind : FieldKind} (hentry : schema[index]? = some (name, kind))
    (w : ValueTree) (entries : List (Nat × ValueTree)) :
    ((root.modifyBelow (w.assign kind ∘ kind.named) (r.below index).path).modifyBelow
      ((ValueTree.record entries).assign (.record schema)) r.path) =
      root.modifyBelow ((ValueTree.record ((index, w) :: entries)).assign (.record schema)) r.path := by
  rw [below, Value.modifyBelow_append, Value.modifyBelow_modifyBelow]
  exact Value.modifyBelow_congr hfields (ValueTree.assign_entry hentry w entries fields)

/-- Entries are read up to the brace behind them, or to the last token. -/
theorem Holds.reads_entries {n : Nat} (hvalues : ReadsValues final n) (hlength : tokens.length ≤ n)
    (h : r.Holds .field s root) (hschema : r.fields? = some schema)
    (hend : (RecordRule.body r .field).feed s tokens = .ok final) :
    ReadsEntries r schema root s tokens final := by
  -- By induction on the number of tokens: the value of an entry takes any number of them.
  induction hm : tokens.length using Nat.strong_induction_on generalizing tokens s root with
  | _ m ih =>
  subst hm
  obtain ⟨fields, hfields⟩ := h.exists_fields
  cases tokens with
  | nil =>
    obtain rfl := Except.ok.inj hend
    refine .unread .nil (.field rfl ?_)
    rwa [ValueTree.assign_nil, Value.modifyBelow_id]
  | cons e more =>
  obtain ⟨rule, s₁, control, hstep, hnext⟩ := feed_cons hend
  clear hend
  cases h.field_step hstep with
  | close hbrace hhost hclosed =>
    have hspells : SpellsEntries schema s.host (e :: more) [] s₁.host (e :: more) := by
      rw [hhost]
      exact .nil
    refine .closed hspells hbrace ?_ hnext (Nat.lt_succ_self _)
    rwa [ValueTree.assign_nil, Value.modifyBelow_id]
  | @name name schema' index kind hname hschema' hfield hhost hnamed =>
    obtain rfl := Option.some.inj (hschema.symm.trans hschema')
    have hentry := Schema.getElem?_of_field? hfield
    -- The tokens end within the entry.
    have hwithin (more : List Event) (hends : EndsWithin (r.below index)
        (root.modifyBelow kind.named (r.below index).path) final) :
        ReadsEntries r schema root s (e :: more) final := by
      refine .unread .nil (.within hname hfield ?_)
      rw [ValueTree.assign_nil, Value.modifyBelow_id]
      exact hends.of_changed
    cases more with
    | nil =>
      obtain rfl := Except.ok.inj hnext
      exact hwithin [] (hnamed.endsWithin (by simp))
    | cons eq more =>
    obtain ⟨rule, s₂, control, hstep, hvalue⟩ := feed_cons hnext
    clear hnext
    obtain ⟨heq, rfl, rfl, hnamed⟩ := hnamed.operator_step hstep
    cases hvalues more (by simp only [List.length_cons] at hlength; omega) _ _ _ kind hnamed
      (kind?_below_field hschema hentry) hvalue with
    | within hends => exact hwithin _ hends
    | closed hin =>
      rw [inArray_below_field hschema] at hin
      cases hin
    | @value w s₃ rest hspells hrest hassigned hafter hmore =>
    rw [inArray_below_field hschema, hhost] at hspells
    rw [Value.modifyBelow_modifyBelow] at hassigned
    cases rest with
    | nil =>
      obtain rfl := Except.ok.inj hafter
      refine .unread (.last hname hfield heq hspells) (.behind rfl ?_)
      rwa [← assign_entry_below hfields hentry, ValueTree.assign_nil, Value.modifyBelow_id]
    | cons semicolon rest =>
    have hsemicolon := hrest semicolon rfl
    obtain ⟨s₄, hhost', hfield', hnext⟩ := hassigned.leave_field hschema hsemicolon hafter
    rw [← hhost'] at hspells
    simp only [List.length_cons] at hmore hlength
    cases ih rest.length (by simp only [List.length_cons]; omega) (by omega) hfield' hnext rfl with
    | closed hentries hclose hclosed hbehind hrest =>
      rw [assign_entry_below hfields hentry] at hclosed
      exact .closed (.entry hname hfield heq hspells hsemicolon hentries) hclose hclosed hbehind
        (by simp only [List.length_cons]; omega)
    | unread hentries hunread =>
      rw [assign_entry_below hfields hentry] at hunread
      exact .unread (.entry hname hfield heq hspells hsemicolon hentries) hunread

/-! ## Items -/

/-- What the tokens from an item on are: items up to the bracket behind them, or too few. -/
inductive ReadsItems (r : OpenRecord) (element : FieldKind) (items : List Value) (root : Value)
    (s : Session η) (tokens : List Event) (final : RecordRule × Session η) : Prop
  | closed {trees : List ValueTree} {loose : Option UInt64} {s' : Session η} {rest : List Event}
    (hspells : SpellsItems element s.host tokens trees loose s'.host rest)
    (h : r.Holds .afterValue s' (root.modifyBelow
      (fun _ => .array (items ++ ValueTree.assignItems trees element)) r.path))
    (hend : (RecordRule.body r .afterValue).feed s' rest = .ok final)
    (hlength : rest.length < tokens.length)
  | within (h : EndsWithin r root final)

omit [Host η] in
theorem modifyBelow_last (items : List Value) (old : Value) (f : Value → Value) :
    (Value.array (items ++ [old])).modifyBelow f [items.length] = .array (items ++ [f old]) := by
  rw [Value.modifyBelow]
  congr 1
  induction items with
  | nil => rfl
  | cons item items ih => rw [List.cons_append, List.length_cons, List.modify_succ_cons, ih]; rfl

/-- Items are read up to the bracket behind them, or to the last token. -/
theorem Holds.reads_items {n : Nat} (hvalues : ReadsValues final n) (hlength : tokens.length < n)
    {element : FieldKind} {items : List Value} (h : (r.below items.length).Holds .value s root)
    (hkind : r.kind? = some (.array element))
    (hitems : root.below? r.path = some (.array (items ++ [element.zero])))
    (hend : (RecordRule.body (r.below items.length) .value).feed s tokens = .ok final) :
    ReadsItems r element items root s tokens final := by
  induction hm : tokens.length using Nat.strong_induction_on generalizing tokens s root items with
  | _ m ih =>
  subst hm
  cases hvalues tokens hlength _ _ _ element h (kind?_below_item hkind _) hend with
  | within hends => exact .within hends.above
  | @closed item loose s₁ rest _ hspells hpopped hnext hmore =>
    rw [pop_below] at hpopped hnext
    refine .closed hspells ?_ hnext hmore
    rw [below, Value.modifyBelow_append, Value.modifyBelow_modifyBelow] at hpopped
    rw [ValueTree.assignItems, List.append_nil]
    have hpop := Value.modifyBelow_congr
      (f := Value.popItem ∘ (·.modifyBelow (fun _ => item) [items.length]))
      (g := fun _ => .array items) hitems (by
        rw [Function.comp_apply, modifyBelow_last, Value.popItem, List.dropLast_concat])
    rwa [hpop] at hpopped
  | @value w s₁ rest hspells hrest hassigned hafter hmore =>
  rw [inArray_below hkind] at hspells
  cases rest with
  | nil =>
    obtain rfl := Except.ok.inj hafter
    have hends := hassigned.endsWithin_above
    rw [below, Value.modifyBelow_append] at hends
    exact .within hends.of_changed
  | cons semicolon rest =>
  have hsemicolon := hrest semicolon rfl
  rw [below, Value.modifyBelow_append] at hassigned
  have hitem := Value.below?_modifyBelow (f := (·.modifyBelow (w.assign element) [items.length]))
    hitems
  rw [modifyBelow_last] at hitem
  obtain ⟨s₂, hhost, hitem', hnext⟩ := hassigned.next_item hkind hitem hsemicolon hafter
  have hpushed := Value.below?_modifyBelow (f := (·.pushItem element.zero)) hitem
  simp only [List.length_cons] at hmore
  cases ih rest.length (by omega) (by omega) hitem' hpushed hnext rfl with
  | within hends => exact .within hends.of_changed.of_changed
  | @closed trees loose s₃ rest' htrees hclosed hbehind hrest =>
    rw [hhost] at htrees
    refine .closed (.item hspells hsemicolon htrees) ?_ hbehind (by omega)
    rw [Value.modifyBelow_modifyBelow, Value.modifyBelow_modifyBelow] at hclosed
    rw [ValueTree.assignItems, List.append_cons]
    exact hclosed

/-! ## All values -/

/-- Bits in front of a comma belong to what is read behind it: to the same value, or to an item without
an end. -/
theorem ReadsValue.more_bits {names : List String} {bits : UInt64} {comma : Event}
    (hitem : (e.isSymbol ']' && r.inArray) = false) (hbits : maskBits? e names = some bits)
    (hcomma : comma.isSymbol ',' = true) (hhost : s'.host = s.host)
    (h : ReadsValue r (.mask names) (root.modifyBelow (·.addBits bits) r.path) s' tokens final) :
    ReadsValue r (.mask names) root s (e :: comma :: tokens) final := by
  cases h with
  | within hends => exact .within hends.of_changed
  | value hspells hrest hassigned hafter hlength =>
    obtain ⟨bits', rfl, hhost', hspells⟩ := hspells.exists_bits
    refine .value (w := .mask (bits ||| bits')) ?_ hrest ?_ hafter
      (by simp only [List.length_cons]; omega)
    · rw [hhost', hhost]
      exact .mask (.more hitem hbits hcomma hspells)
    · rw [Value.modifyBelow_modifyBelow] at hassigned
      have hassign : (ValueTree.mask bits').assign (.mask names) ∘ (·.addBits bits) =
          (ValueTree.mask (bits ||| bits')).assign (.mask names) := by
        funext value
        cases value <;> simp [ValueTree.assign, Value.addBits, UInt64.or_assoc]
      rwa [hassign] at hassigned
  | closed hin hspells hpopped hafter hlength =>
    rw [hin] at hitem
    rw [hhost] at hspells
    obtain ⟨loose, hspells⟩ := hspells.more_bits hitem hbits hcomma
    rw [Value.modifyBelow_modifyBelow] at hpopped
    exact .closed hin hspells hpopped hafter (by simp only [List.length_cons]; omega)

/-- A value is read with what is behind it, or the array is closed in its place, or the tokens end. -/
theorem readsValues (final : RecordRule × Session η) (n : Nat) : ReadsValues final n := by
  induction n with
  | zero => exact fun _ h => absurd h (Nat.not_lt_zero _)
  | succ n ih =>
  -- Whatever the value holds is read from fewer tokens.
  intro tokens hlength r s root kind h hkind hend
  cases tokens with
  | nil =>
    obtain rfl := Except.ok.inj hend
    exact .within (h.endsWithin (by simp))
  | cons e rest =>
  obtain ⟨rule, s₁, control, hstep, hnext⟩ := feed_cons hend
  rw [List.length_cons, Nat.succ_lt_succ_iff] at hlength
  cases h.value_step hkind hstep with
  | close hclose hhost hpopped =>
    obtain ⟨hbracket, hin⟩ := Bool.and_eq_true_iff.1 hclose
    obtain ⟨item, hitem⟩ := h.exists_value
    rw [← Value.modifyBelow_self hitem] at hpopped
    have hspells : SpellsItems kind s.host (e :: rest) [] none s₁.host rest := by
      rw [hhost]
      exact .close hbracket
    exact .closed hin hspells hpopped hnext (Nat.lt_succ_self _)
  | plain hmask hspells hassigned =>
    exact .value (hspells _) (hassigned.isSymbol_semicolon (by simpa [hkind] using hmask) hnext)
      hassigned hnext (Nat.lt_succ_self _)
  | @bits names bits hmask hitem hbits hhost hassigned =>
    subst hmask
    have hlast : SpellsValue r.inArray (.mask names) s.host (e :: rest) (.mask bits) s₁.host rest := by
      rw [hhost]
      exact .mask (.last hitem hbits)
    cases rest with
    | nil => exact .value hlast (by simp) hassigned hnext (Nat.lt_succ_self _)
    | cons e' rest =>
    obtain ⟨rule, s₂, control, hstep, hafter⟩ := feed_cons hnext
    cases hassigned.after_step hstep with
    | item _ _ hsemicolon | field _ hsemicolon =>
      exact .value hlast (by rintro _ ⟨⟩; exact hsemicolon) hassigned hnext (Nat.lt_succ_self _)
    | comma _ hcomma hhost' hmore =>
      simp only [List.length_cons] at hlength
      exact (ih rest (by omega) r s₂ _ _ hmore hkind hafter).more_bits hitem hbits hcomma
        (hhost'.trans hhost)
  | record hrecord hbrace hhost hopened =>
    subst hrecord
    have hpath : r.path.isEmpty = false := by
      rw [List.isEmpty_eq_false_iff]
      intro hp
      rw [kind?, hp] at hkind
      cases hkind
    cases hopened.reads_entries ih hlength.le (by rw [fields?, hpath, hkind]; rfl) hnext with
    | unread _ hunread => exact .within hunread.endsWithin.of_changed
    | closed hspells hclose hassigned hafter hrest =>
      rw [behind, hpath, if_neg Bool.false_ne_true] at hassigned hafter
      rw [hhost] at hspells
      exact .value (.record hbrace hspells hclose)
        (hassigned.isSymbol_semicolon (by simp [hkind]) hafter) hassigned hafter (by simp; omega)
  | @array element items harray hitems hbracket hhost hpushed =>
    subst harray
    have hzero := Value.below?_modifyBelow (f := (·.pushItem element.zero)) hitems
    cases hpushed.reads_items ih hlength hkind hzero hnext with
    | within hends => exact .within hends.of_changed
    | @closed trees loose s₂ rest' hspells hassigned hafter hrest =>
      rw [hhost] at hspells
      refine .value (w := .array trees loose) (.array hbracket hspells)
        (hassigned.isSymbol_semicolon (by simp [hkind]) hafter) ?_ hafter (by simp; omega)
      rw [Value.modifyBelow_modifyBelow] at hassigned
      have hassign := Value.modifyBelow_congr
        (f := (fun _ => .array (items ++ ValueTree.assignItems trees element)) ∘
          (·.pushItem element.zero))
        (g := (ValueTree.array trees loose).assign (.array element)) hitems
        (by rw [ValueTree.assign]; rfl)
      rwa [hassign] at hassigned

end OpenRecord

end MotionScript
