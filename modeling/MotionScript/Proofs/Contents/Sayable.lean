import MotionScript.Proofs.Contents.Records
import MotionScript.Proofs.Feeding.Documents
/-!
# Parsed graphs that can be written

A graph that has been read can be written if its numbers are finite and canonical text has words for
all that it holds.
-/

namespace MotionScript

/-! ## Finite numbers -/

/-- Whether the numbers of a transition are finite. -/
structure Transition.Finite (t : Transition) : Prop where
  exitTime : ∀ x ∈ t.exitTime, x.isFinite = true
  duration : t.duration.isFinite = true
  offset : t.offset.isFinite = true
  thresholds : ∀ c ∈ t.conditions, c.threshold.isFinite = true

/-- Whether the numbers of a blend tree and its children are finite. -/
structure BlendTree.Finite (t : BlendTree) : Prop where
  thresholds : ∀ x ∈ t.thresholds, x.1.isFinite = true ∧ x.2.isFinite = true
  children : ∀ m ∈ t.children, m.Finite
  keys : ∀ m ∈ t.children,
    m.threshold.isFinite = true ∧ m.position.x.isFinite = true ∧ m.position.y.isFinite = true

/-- Whether the numbers in a value are finite. -/
def Value.Finite (v : Value) : Prop :=
  ∀ path x, v.below? path = some (.float x) → x.isFinite = true

/-- Whether the numbers of a controller are finite. -/
structure Controller.Finite (c : Controller) : Prop where
  parameters : ∀ p ∈ c.parameters, ∀ x, p.value = .float x → x.isFinite = true
  layers : ∀ l ∈ c.layers, l.weight.isFinite = true
  states : ∀ st ∈ c.states, st.Finite
  transitions : ∀ t ∈ c.transitions, t.Finite
  trees : ∀ t, .tree t ∈ c.motions → t.Finite
  records : ∀ record ∈ c.records, (Value.record record.fields).Finite

/-! ## What canonical text has words for -/

/-- Whether the key of a child in a tree of a type says where the child is. -/
def ChildMotion.SaidByKey (m : ChildMotion) : BlendType → Prop
  | .direct => m.threshold.isZero = true ∧ m.position.x.isZero = true ∧ m.position.y.isZero = true
  | .simple1D =>
    (m.position.x == m.threshold) = true ∧ m.position.y.isZero = true ∧ m.directParameter = ""
  | _ => (m.threshold == m.position.x) = true ∧ m.directParameter = ""

/-- Whether a blend tree has nothing that its type does not use. -/
structure BlendTree.Sayable (t : BlendTree) : Prop where
  parameter : t.blendType.parameterCount = 0 → t.parameter = ""
  parameterY : t.blendType.isPlanar = false → t.parameterY = ""
  keys : ∀ m ∈ t.children, m.SaidByKey t.blendType

/-- Whether there are words for a value of a kind, whatever it holds inside. -/
def Value.SayableHere : Value → FieldKind → Prop
  | .enum _, .enum names => names ≠ [] ∧ names.length < 2 ^ 63
  | .mask bits, .mask names => MaskWritable names bits
  | .record _, .record schema => (schema.map (·.1)).Nodup
  | _, _ => True

/-- Whether there are words for a value of a kind, and for all that it holds at any depth. -/
def Value.Sayable (v : Value) (kind : FieldKind) : Prop :=
  ∀ path w inner, v.below? path = some w → Schema.kindBelow? kind path = some inner →
    w.SayableHere inner

/-- Whether the type of a record, as it is written in a block, starts no other item of it. -/
def Record.Opens (record : Record) (words : List String) : Prop :=
  (Canonical.typeNameParts record.typeName.toList).all Canonical.isBare = true →
    ∀ part ∈ (Canonical.typeNameParts record.typeName.toList).head?,
      Avoids (String.ofList part) (words ++ TransitionRule.starters)

/-- Whether canonical text has words for all that a controller holds. -/
structure Controller.Sayable (c : Controller) : Prop where
  /-- Names tell siblings apart. -/
  names : ∀ m, ((c.machine m).members.map (fun s => (c.state s).name) ++
    (c.machine m).children.map fun m => (c.machine m).name).Nodup
  layerNames : (c.layers.toList.map (·.name)).Nodup
  ordered : ∀ t ∈ c.transitions, t.interruption = .none → t.ordered = false
  trees : ∀ t, .tree t ∈ c.motions → t.Sayable
  records : ∀ record ∈ c.records, (Value.record record.fields).Sayable (.record record.schema)
  machineRecords : ∀ layer m, c.InLayer layer (.machine m) → ∀ r ∈ (c.machine m).records,
    (c.record r).Opens (MachineRule.words (c.isRoot layer m))
  stateRecords : ∀ st ∈ c.states, ∀ r ∈ st.records, (c.record r).Opens StateRule.words

/-! ## Values -/

namespace Value

variable {v : Value} {kind : FieldKind}

/-- A value of a kind that can be written for a host fits the kind. -/
theorem OfKind.fits (h : v.OfKind kind) (hw : v.Writable Asset.Resolves kind) : v.Fits kind := by
  induction h with
  | bool b => exact .bool b
  | integer hl hu => exact .integer hl hu
  | float x => exact .float hw.here
  | string text => exact .string text
  | enum h =>
    obtain ⟨hsome, hlength⟩ : _ ≠ [] ∧ _ := hw.here
    exact .enum (h.resolve_right fun hnone => hsome hnone.1) hlength
  | mask bits names => exact .mask hw.here
  | object asset =>
    cases asset with
    | none => exact .empty
    | some asset =>
      obtain ⟨reference, kind⟩ := asset
      obtain ⟨rfl, hnull, hfinds⟩ : kind = .object ∧ _ := hw.here
      exact .object hfinds hnull
  | record hn _ ih =>
    exact .record hw.here hn fun i field entry hfield hentry =>
      ih i field entry hfield hentry (hw.field hfield hentry)
  | array _ ih => exact .array fun item hi => ih item hi (hw.item hi)

/-- Finite numbers, assets that the host has found and words for the rest are all that it takes. -/
theorem Sayable.writable {P : Asset → Prop} (hs : v.Sayable kind) (hfinite : v.Finite)
    (hassets : v.Refers P) (hP : ∀ asset, P asset → asset.kind = .object ∧
      asset.reference ≠ "null" ∧ Asset.Resolves asset.reference) :
    v.Writable Asset.Resolves kind := by
  intro path w inner hw hinner
  have hsay := hs path w inner hw hinner
  cases w with
  | float x => exact hfinite path x hw
  | object asset =>
    cases asset with
    | none => exact trivial
    | some asset => exact hP asset (hassets path asset hw)
  | enum | mask | record => cases inner <;> exact hsay
  | bool | integer | string | array => exact trivial

end Value

/-! ## Parts of a parsed graph -/

theorem BlendTree.writable {t : BlendTree} (h : t.Finite) (hs : t.Sayable) :
    t.Writable ∧ ∀ m ∈ t.children, m.Finite ∧ m.Keyed t.blendType := by
  refine ⟨⟨hs.parameter, hs.parameterY, h.thresholds⟩, fun m hm => ⟨h.children m hm, ?_⟩⟩
  have hfinite := h.keys m hm
  have hkey := hs.keys m hm
  generalize t.blendType = b at hkey
  cases b with
  | direct => exact hkey
  | simple1D => exact ⟨hfinite.1, hkey⟩
  | _ => exact ⟨hfinite.2.1, hfinite.2.2, hkey⟩

theorem getD_mem {α : Type} [Inhabited α] {xs : Array α} {i : Nat} (h : i < xs.size) :
    xs.getD i default ∈ xs := by
  simp [h]

namespace Controller

variable {c : Controller} {host : MemoryHost} {stack : List Frame} {s : Session MemoryHost}

theorem Finite.parameter (h : c.Finite) (hstocked : c.Stocked host) (hwell : c.WellFormed)
    {p : Parameter} (hp : p ∈ c.parameters) : p.Writable where
  name := hwell.named p hp
  value := by
    have hrange := hstocked.parameters p hp
    have hfinite := h.parameters p hp
    generalize p.value = value at hrange hfinite
    cases value with
    | float x => exact hfinite x rfl
    | int n => exact hrange
    | bool | trigger => exact trivial

theorem Finite.layer (h : c.Finite) (hstocked : c.Stocked host) (hwell : c.WellFormed)
    (hroots : c.RootsNamed) {l : Layer} (hl : l ∈ c.layers) : c.LayerWritable l where
  root := hroots l hl
  weight := h.layers l hl
  mask asset ha :=
    have hfound := MemoryHost.of_found (hstocked.masks l hl asset ha)
    ⟨hfound.1, hfound.2.1⟩
  synced := hwell.synced_lt l hl

theorem Finite.record (h : c.Finite) (hs : c.Sayable) {words : List String} {record : Record}
    (hsound : record.Sound host) (hmem : record ∈ c.records) (hopens : record.Opens words) :
    record.Writable host.registry words where
  typeName := ⟨hsound.typeName, hopens⟩
  schema := by
    obtain ⟨stored, told, htold, hschema⟩ := hsound.schema
    rwa [(host.answers stored told htold).2] at hschema
  fields := by
    refine hsound.kinds.fits ((hs.records record hmem).writable (h.records record hmem)
      hsound.assets fun asset hasset => ?_)
    have hfound := MemoryHost.of_found hasset
    exact ⟨hfound.1, hfound.2.2 rfl, hfound.2.1⟩

theorem Finite.transition (h : c.Finite) (hs : c.Sayable) {t : Transition} (ht : t.PlainIn c)
    (hmem : t ∈ c.transitions) : TransitionRule.Writable t where
  exitTime := (h.transitions t hmem).exitTime
  duration := (h.transitions t hmem).duration
  offset := (h.transitions t hmem).offset
  thresholds := (h.transitions t hmem).thresholds
  zeros := ht.conditions
  ordered := hs.ordered t hmem

/-! ### Motions -/

/-- Motions nest no deeper than there are motions behind them. -/
theorem Finite.motion (h : c.Finite) (hs : c.Sayable) (hstocked : c.Stocked host)
    (hwell : c.WellFormed) {fuel : Nat} {id : MotionId} (hid : id.index < c.motions.size)
    (hfuel : c.motions.size ≤ id.index + fuel) : c.MotionWritable fuel (some id) := by
  induction fuel generalizing id with
  | zero => omega
  | succ fuel ih =>
    have hmem : c.motion id ∈ c.motions := getD_mem hid
    cases hm : c.motion id with
    | clip asset =>
      obtain ⟨reference, kind⟩ := asset
      obtain ⟨hkind, hresolves, -⟩ := MemoryHost.of_found (hstocked.clips _ (hm ▸ hmem))
      obtain rfl : kind = .animationClip := hkind
      exact .clip _ hm hresolves
    | tree t =>
      obtain ⟨hwritable, hchildren⟩ := BlendTree.writable (h.trees t (hm ▸ hmem))
        (hs.trees t (hm ▸ hmem))
      refine .tree hm hwritable hchildren fun child hchild => ?_
      cases hinner : child.motion with
      | none => exact .empty fuel
      | some inner =>
        have hslot : inner ∈ Motion.childMotions (c.motion id) := by
          rw [hm]
          exact List.mem_filterMap.2 ⟨child, hchild, hinner⟩
        have := hwell.slot_lt hslot
        exact ih this.2 (by omega)

/-! ### Names and destinations -/

theorem HasPath.segments_ne_nil {layer : Nat} {node : NodeRef} {path : Path}
    (h : c.HasPath layer node path) : path.segments ≠ [] := by
  cases h with
  | root => exact List.cons_ne_nil _ _
  | machine | state => exact List.append_ne_nil_of_right_ne_nil _ (List.cons_ne_nil _ _)

theorem HasPath.join_ne_singleton {layer : Nat} {node : NodeRef} {path : Path}
    (h : c.HasPath layer node path) (a b : String) : path.join a ≠ ⟨[b]⟩ := by
  simp [Path.join, List.append_eq_singleton_iff, h.segments_ne_nil]

/-- Machines of a layer are told apart by their paths. -/
theorem Sayable.machine_unique (hs : c.Sayable) {layer : Nat} {m m' : MachineId} {path : Path}
    (h : c.HasPath layer (.machine m) path) (h' : c.HasPath layer (.machine m') path) : m = m' := by
  generalize hn : NodeRef.machine m = node at h
  induction h generalizing m m' with
  | root hl =>
    generalize hp : (⟨[_]⟩ : Path) = path at h'
    cases h' with
    | root hl' =>
      obtain rfl := Option.some.inj (hl.symm.trans hl')
      exact NodeRef.machine.inj hn
    | machine ho => exact absurd hp.symm (ho.join_ne_singleton _ _)
  | @machine outer inner path ho hi ih =>
    obtain rfl := NodeRef.machine.inj hn
    generalize hp : path.join _ = path' at h'
    cases h' with
    | root => exact absurd hp (ho.join_ne_singleton _ _)
    | @machine outer' _ path' ho' hi' =>
      obtain ⟨rfl, hname⟩ := Path.join_inj.1 hp
      obtain rfl := ih ho' rfl
      have hnodup := (List.nodup_append.1 (hs.names outer)).2.1
      exact List.inj_on_of_nodup_map hnodup hi hi' hname
  | state => cases hn

/-- A default state lies in its machine. -/
theorem Sayable.default_mem {nodes : List Declared} (hs : c.Sayable) (hc : Charted stack c nodes)
    {m : MachineId} {id : StateId} (h : (c.machine m).defaultState = some id) :
    id ∈ (c.machine m).members := by
  obtain ⟨layer, path, owner, hm, ho, hmem, -⟩ := hc.defaults m id h
  rwa [hs.machine_unique hm ho]

/-- Transitions lead below the machine of their layer. -/
theorem WellFormed.leadsBelow (h : c.WellFormed) (hp : ∀ t ∈ c.transitions, t.PlainIn c)
    {layer : Nat} {node : NodeRef} (hn : c.InLayer layer node) {id : TransitionId}
    (hid : id ∈ c.transitionsAt node) : c.LeadsBelow layer (c.transition id).destination := by
  have hmem : c.transition id ∈ c.transitions :=
    getD_mem (h.transition_mem.1 (mem_listedTransitions hid))
  obtain ⟨layer', hn', hleads⟩ := h.destinations node id hid
  obtain rfl := h.layer_unique hn hn'
  have hplain := (hp _ hmem).destination
  generalize (c.transition id).destination = d at hleads hplain
  cases d with
  | exit => exact .inl rfl
  | state st => exact .inr ⟨.state st, rfl, hleads, nofun⟩
  | machine m =>
    refine .inr ⟨.machine m, rfl, hleads, ?_⟩
    rintro _ ⟨⟩
    -- The machine of a layer is nested in no other one.
    refine decide_eq_false fun hroot => ?_
    obtain ⟨l, hl, rfl⟩ := Option.map_eq_some_iff.1 hroot
    refine List.disjoint_of_nodup_append h.forest.machines ?_ (hplain _ rfl)
    exact List.mem_map.2 ⟨l, Array.mem_def.1 (Array.mem_of_getElem? hl), rfl⟩

/-! ## Parsed graphs -/

theorem WellFormed.record_mem (h : c.WellFormed) {id : RecordId} (hid : id ∈ c.listedRecords) :
    c.record id ∈ c.records :=
  getD_mem (((h.records.mem_iff).trans (mem_ids (fun _ => rfl) fun _ => rfl)).1 hid)

/-- A graph that has been read with a host can be written for it. -/
theorem Sayable.controller {nodes : List Declared} (hs : s.controller.Sayable)
    (hfinite : s.controller.Finite) (hwell : s.controller.WellFormed)
    (hcharted : Charted [] s.controller nodes) (hplain : Plain [] s)
    (hrecorded : Recorded host [] s) : s.controller.Writable host.registry := by
  have htransition (node : NodeRef) {id : TransitionId} (hid : id ∈ s.controller.transitionsAt node) :
      TransitionRule.Writable (s.controller.transition id) := by
    have hmem : s.controller.transition id ∈ s.controller.transitions :=
      getD_mem (hwell.transition_mem.1 (mem_listedTransitions hid))
    exact hfinite.transition hs (hplain.transitions _ hmem) hmem
  have hrecord {words : List String} {r : RecordId} (hr : r ∈ s.controller.listedRecords)
      (hopens : (s.controller.record r).Opens words) :
      (s.controller.record r).Writable host.registry words :=
    have hmem := hwell.record_mem hr
    hfinite.record hs (hrecorded.records _ hmem) hmem hopens
  refine
    { hwell.forest with
      machine := fun layer m hm => ?_
      state := fun layer st hst => ?_
      parameters := fun p => hfinite.parameter hrecorded.graph hwell
      parameterNames := hwell.parameters
      layers := fun l => hfinite.layer hrecorded.graph hwell hplain.roots
      layerNames := hs.layerNames }
  · refine ⟨hs.names m, fun st hst => hs.default_mem hcharted hst, fun id hid => ?_,
      fun r hr => ?_⟩
    · exact ⟨htransition (.machine m) hid, hwell.leadsBelow hplain.transitions hm hid⟩
    · refine hrecord (List.mem_append_left _ ?_) (hs.machineRecords layer m hm r hr)
      exact mem_flatMap_of_mem rfl hr
  · have hmem : s.controller.state st ∈ s.controller.states := getD_mem (hwell.has hst)
    refine ⟨⟨hfinite.states _ hmem, ?_, fun r hr => ?_, fun id hid => ?_⟩, fun id hid => ?_⟩
    · cases hmotion : (s.controller.state st).motion with
      | none => exact .empty _
      | some id =>
        refine hfinite.motion hs hrecorded.graph hwell (hwell.motions_lt id ?_)
          (Nat.le_add_left _ _)
        have hplaced : id ∈ (s.controller.state st).motion.toList := Option.mem_toList.2 hmotion
        exact List.mem_append_left _ (mem_flatMap_of_mem rfl hplaced)
    · refine hrecord (List.mem_append_right _ ?_) (hs.stateRecords _ hmem r hr)
      exact mem_flatMap_of_mem rfl hr
    · exact htransition (.state st) hid
    · exact hwell.leadsBelow hplain.transitions hst hid

end Controller

end MotionScript
