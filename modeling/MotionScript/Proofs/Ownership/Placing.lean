import MotionScript.Proofs.Ownership.Growth
/-!
# Places of new nodes

A graph that grows stays well formed, but for the motions that rules hold, and the rules stay where
there are nodes.
-/

namespace MotionScript

/-! ## Seats -/

/-- Whether the machine and the state of a seat are in its layer. -/
structure Seat.In (c : Controller) (seat : Seat) : Prop where
  machine : c.InLayer seat.layer (.machine seat.machine)
  state : ∀ id, seat.state = some id → c.InLayer seat.layer (.state id)

/-- What holds of a rule: it is where there are nodes, and a motion comes after the blend tree that
it is a child of. -/
structure Frame.Seated (c : Controller) (f : Frame) : Prop where
  seat : ∀ scope ∈ f.scope?, scope.seat.In c
  slot : ∀ tree key, f.slot? = some (.child tree key) →
    tree.index < c.motions.size ∧ ∀ id ∈ f.motion?, tree.index < id.index

variable {c c' : Controller} {f f' : Frame}

theorem Seat.In.mono {seat : Seat} (h : seat.In c) (hc : c.Extends c') : seat.In c' :=
  ⟨h.machine.mono hc, fun id hid => (h.state id hid).mono hc⟩

theorem Frame.Seated.mono (h : f.Seated c) (hc : c.Extends c')
    (hm : c.motions.size ≤ c'.motions.size) : f.Seated c' where
  seat scope hs := (h.seat scope hs).mono hc
  slot tree key hslot :=
    ⟨Nat.lt_of_lt_of_le (h.slot tree key hslot).1 hm, (h.slot tree key hslot).2⟩

/-! ## Growth keeps the graph well formed -/

namespace Controller

/-- A motion that has no place may be dropped. -/
theorem Growing.drop {held held' : List MotionId} (h : c.Growing { motions := held })
    (hs : held'.Sublist held) : c.Growing { motions := held' } :=
  { h with
    motions := h.motions.sublist ((List.Sublist.refl _).append hs)
    motions_lt := fun id hid => h.motions_lt id (((List.Sublist.refl _).append hs).subset hid) }

theorem Growing.edit {loose : Loose} (h : c.Growing loose) (hc : c.Edit c') : c'.Growing loose := by
  have h' : c.Growing (Loose.and {} loose) := h
  cases hc with
  | same => exact h
  | parameter p hname hnew => exact h.addParameter hname hnew
  | layer i f hf => exact h.modifyLayer i fun l => ⟨(hf l).1, .inl (hf l).2.1⟩
  | state id f hf =>
    refine h'.modifyState (by simp) (fun st => ⟨?_, ?_, ?_⟩) ⟨rfl, rfl⟩ (by simp [Reaches])
    · rw [(hf st).1, List.append_nil]
    · rw [(hf st).2.1, List.append_nil]
    · rcases (hf st).2.2.1 with hm | hm
      · rw [hm, List.append_nil]
      · rw [hm]
        exact List.nil_subperm
  | tree id f hf =>
    refine h'.modifyMotion (fun m => ?_) rfl (by simp)
    cases m with
    | clip asset => exact List.nil_subperm
    | tree t =>
      simp only [Motion.modifyTree, Motion.childMotions, hf, List.append_nil]
      exact .refl _
  | record id f => exact h.modifyRecord id f

theorem Edit.extends (h : c.Edit c') : c.Extends c' ∧ c.motions.size = c'.motions.size := by
  cases h with
  | layer i f hf => exact ⟨.modifyLayer c i fun l => (hf l).1, rfl⟩
  | tree id f hf => exact ⟨.of_eq rfl rfl, Array.size_modify.symm⟩
  | _ => exact ⟨.of_eq rfl rfl, rfl⟩

/-! ## New nodes -/

variable {held : List MotionId}

theorem Growing.newLayer (h : c.Growing { motions := held }) (name : String) :
    ((c.addMachine { name }).2.addLayer { name, machine := ⟨c.machines.size⟩ }).2.Growing
      { motions := held } :=
  (h.addMachine name).addLayer (l := { name, machine := ⟨c.machines.size⟩ }) rfl

theorem InLayer.newLayer (c : Controller) (name : String) :
    ((c.addMachine { name }).2.addLayer { name, machine := ⟨c.machines.size⟩ }).2.InLayer
      c.layers.size (.machine ⟨c.machines.size⟩) := by
  refine .root (l := { name, machine := ⟨c.machines.size⟩ }) ?_
  simp [Controller.addLayer, Controller.addMachine]

theorem Growing.newMachine (h : c.Growing { motions := held }) {outer : MachineId}
    (ho : c.Has (.machine outer)) (name : String) :
    ((c.addMachine { name }).2.modifyMachine outer fun m =>
      { m with machines := m.machines ++ [⟨⟨c.machines.size⟩, none⟩] }).Growing
      { motions := held } := by
  have hsize : (c.addMachine { name }).2.machines.size = c.machines.size + 1 := Array.size_push _
  refine (h.addMachine name).modifyMachine (hsize ▸ Nat.lt_succ_of_lt ho) (fun m => ?_) rfl ?_
    (by simp [Reaches]) fun m => .inl rfl
  · refine ⟨?_, ?_, ?_, ?_⟩ <;> simp [Machine.children, Machine.members, Machine.listed]
  · intro inner hi
    rw [List.mem_singleton.1 hi]
    exact ho

theorem Extends.newMachine (c : Controller) (outer : MachineId) (name : String) :
    c.Extends ((c.addMachine { name }).2.modifyMachine outer fun m =>
      { m with machines := m.machines ++ [⟨⟨c.machines.size⟩, none⟩] }) := by
  refine (Extends.addMachine c _).trans (.modifyMachine _ outer fun m => ⟨?_, List.Subset.refl _⟩)
  simp [Machine.children]

theorem InLayer.newMachine {layer : Nat} {outer : MachineId}
    (h : c.InLayer layer (.machine outer)) (ho : c.Has (.machine outer)) (name : String) :
    ((c.addMachine { name }).2.modifyMachine outer fun m =>
      { m with machines := m.machines ++ [⟨⟨c.machines.size⟩, none⟩] }).InLayer layer
      (.machine ⟨c.machines.size⟩) := by
  have hsize : (c.addMachine { name }).2.machines.size = c.machines.size + 1 := Array.size_push _
  refine (h.mono (.newMachine c outer name)).machine ?_
  rw [machine_modifyMachine (hsize ▸ Nat.lt_succ_of_lt ho), if_pos rfl]
  simp [Machine.children]

theorem Growing.newState (h : c.Growing { motions := held }) {outer : MachineId}
    (ho : c.Has (.machine outer)) (name : String) :
    ((c.addState { name }).2.modifyMachine outer fun m =>
      { m with states := m.states ++ [⟨⟨c.states.size⟩, none⟩] }).Growing
      { motions := held } := by
  refine (h.addState name).modifyMachine ho (fun m => ?_) rfl (by simp) (by simp [Reaches])
    fun m => .inl rfl
  refine ⟨?_, ?_, ?_, ?_⟩ <;> simp [Machine.children, Machine.members, Machine.listed]

theorem Extends.newState (c : Controller) (outer : MachineId) (name : String) :
    c.Extends ((c.addState { name }).2.modifyMachine outer fun m =>
      { m with states := m.states ++ [⟨⟨c.states.size⟩, none⟩] }) := by
  have hadd : c.Extends (c.addState { name }).2 := .of_eq rfl rfl
  refine hadd.trans (.modifyMachine _ outer fun m => ⟨List.Subset.refl _, ?_⟩)
  simp [Machine.members]

theorem InLayer.newState {layer : Nat} {outer : MachineId}
    (h : c.InLayer layer (.machine outer)) (ho : c.Has (.machine outer)) (name : String) :
    ((c.addState { name }).2.modifyMachine outer fun m =>
      { m with states := m.states ++ [⟨⟨c.states.size⟩, none⟩] }).InLayer layer
      (.state ⟨c.states.size⟩) := by
  have ho' : outer.index < (c.addState { name }).2.machines.size := ho
  refine (h.mono (.newState c outer name)).state ?_
  rw [machine_modifyMachine ho', if_pos rfl]
  simp [Machine.members]

theorem Growing.placeRecord (h : c.Growing { motions := held }) {scope : Scope}
    (hs : scope.seat.In c) (record : Record) :
    (c.placeRecord scope record).Growing { motions := held } := by
  have hadd := h.addRecord record
  unfold Controller.placeRecord
  cases hst : scope.state with
  | some id =>
    refine hadd.modifyState (fun _ => h.wellFormed.has (hs.state id hst)) (fun st => ?_) ⟨rfl, rfl⟩
      (by simp [Reaches])
    refine ⟨?_, ?_, ?_⟩ <;> simp
    exact .refl _
  | none =>
    refine hadd.modifyMachine (h.wellFormed.has hs.machine) (fun m => ?_) rfl (by simp)
      (by simp [Reaches]) fun m => .inl rfl
    refine ⟨?_, ?_, ?_, ?_⟩ <;> simp [Machine.children, Machine.members, Machine.listed]

theorem Extends.placeRecord (c : Controller) (scope : Scope) (record : Record) :
    c.Extends (c.placeRecord scope record) := by
  have hadd : c.Extends (c.addRecord record).2 := .of_eq rfl rfl
  unfold Controller.placeRecord
  cases scope.state with
  | some id => exact .of_eq rfl rfl
  | none => exact hadd.trans (.modifyMachine _ _ fun m => ⟨List.Subset.refl _, List.Subset.refl _⟩)

end Controller

/-- How a graph and a rule have grown, while the rules below hold some motions. -/
structure Frame.Grown (c : Controller) (held : List MotionId) (c' : Controller) (f' : Frame) :
    Prop where
  growing : c'.Growing { motions := f'.motion?.toList ++ held }
  seated : f'.Seated c'
  extends_ : c.Extends c'
  size : c.motions.size ≤ c'.motions.size

namespace Frame.Growth

variable {held : List MotionId}

theorem grown (hg : f.Growth c c' f') (h : c.Growing { motions := f.motion?.toList ++ held })
    (hf : f.Seated c) : Frame.Grown c held c' f' := by
  have hheld : c.Growing { motions := held } := h.drop (List.sublist_append_right _ _)
  cases hg with
  | edit hc hs hm hslot =>
    obtain ⟨hextends, hsize⟩ := hc.extends
    refine ⟨hm ▸ h.edit hc, ⟨fun scope hscope => ?_, fun tree key htree => ?_⟩, hextends,
      Nat.le_of_eq hsize⟩
    · obtain ⟨old, hold, heq⟩ := hs scope hscope
      exact heq ▸ (hf.seat old hold).mono hextends
    · rw [hm, ← hsize]
      exact hf.slot tree key (hslot ▸ htree)
  | layer name hs hm hslot =>
    refine ⟨?_, ⟨fun scope hscope => ?_, by simp [hslot]⟩, ?_, Nat.le_refl _⟩
    · rw [hm]
      exact hheld.newLayer name
    · rw [hs scope hscope]
      exact ⟨.newLayer c name, by simp⟩
    · exact (Controller.Extends.addMachine c _).trans (.addLayer _ _)
  | machine outer ho name hs hm hslot =>
    have hseat := hf.seat outer ho
    have hhas := h.wellFormed.has hseat.machine
    refine ⟨?_, ⟨fun scope hscope => ?_, by simp [hslot]⟩, .newMachine c _ name, Nat.le_refl _⟩
    · rw [hm]
      exact hheld.newMachine hhas name
    · rw [hs scope hscope]
      exact ⟨hseat.machine.newMachine hhas name, by simp⟩
  | state outer ho name hs hm hslot =>
    have hseat := hf.seat outer ho
    have hhas := h.wellFormed.has hseat.machine
    refine ⟨?_, ⟨fun scope hscope => ?_, by simp [hslot]⟩, .newState c _ name, Nat.le_refl _⟩
    · rw [hm]
      exact hheld.newState hhas name
    · rw [hs scope hscope]
      refine ⟨hseat.machine.mono (.newState c _ name), ?_⟩
      rintro id ⟨⟩
      exact hseat.machine.newState hhas name
  | record outer ho record hs hm hslot =>
    refine ⟨?_, ⟨by simp [hs], by simp [hslot]⟩, .placeRecord c _ record, ?_⟩
    · rw [hm]
      exact hheld.placeRecord (hf.seat outer ho) record
    · unfold Controller.placeRecord
      split <;> exact Nat.le_refl _
  | motion m hc hs hm hslot =>
    have hsize : (c.addMotion m).2.motions.size = c.motions.size + 1 := Array.size_push _
    have hextends : c.Extends (c.addMotion m).2 := .of_eq rfl rfl
    refine ⟨?_, ⟨fun scope hscope => ?_, fun tree key htree => ?_⟩, hextends, by omega⟩
    · rw [hm]
      exact hheld.addMotion hc
    · obtain ⟨old, hold, heq⟩ := hs scope hscope
      exact heq ▸ (hf.seat old hold).mono hextends
    · have hlt := (hf.slot tree key (hslot ▸ htree)).1
      refine ⟨by omega, fun id hid => ?_⟩
      rw [hm] at hid
      cases hid
      exact hlt

end Frame.Growth

/-! ## Linked transitions -/

/-- The node that a list of transitions belongs to. -/
def Home.node : Home → NodeRef
  | .entry id | .any id => .machine id
  | .state id => .state id

namespace Controller

theorem attach_motions (c : Controller) (home : Home) (id : TransitionId) :
    (c.attach home id).motions = c.motions := by
  cases home <;> rfl

theorem Extends.attach (c : Controller) (home : Home) (id : TransitionId) :
    c.Extends (c.attach home id) := by
  cases home with
  | entry m | any m =>
    exact .modifyMachine c m fun _ => ⟨List.Subset.refl _, List.Subset.refl _⟩
  | state st => exact .of_eq rfl rfl

theorem Growing.attach {loose : Loose} {home : Home} {id : TransitionId}
    (h : c.Growing (Loose.and { transitions := [id] } loose)) (hh : c.Has home.node)
    (hr : ∃ layer, c.InLayer layer home.node ∧ c.LeadsInto layer (c.transition id).destination) :
    (c.attach home id).Growing loose := by
  have hreaches : c.Reaches home.node [id] := by
    intro id' hid
    rwa [List.mem_singleton.1 hid]
  cases home with
  | entry m =>
    refine h.modifyMachine hh (fun m => ?_) rfl (by simp) hreaches fun _ => .inl rfl
    refine ⟨?_, ?_, perm_gain_left (.refl _), ?_⟩ <;> simp [Machine.children, Machine.members]
  | any m =>
    refine h.modifyMachine hh (fun m => ?_) rfl (by simp) hreaches fun _ => .inl rfl
    refine ⟨?_, ?_, perm_gain_right (.refl _), ?_⟩ <;> simp [Machine.children, Machine.members]
  | state st =>
    refine h.modifyState (fun _ => hh) (fun st => ⟨.refl _, ?_, ?_⟩) ⟨rfl, rfl⟩ hreaches
    · simp
    · rw [List.append_nil]

end Controller

end MotionScript
