import MotionScript.Proofs.Ownership.Reading
/-!
# What stays in a growing graph

Layers and nodes keep their names and places while the graph grows, so a node keeps its path. The
default state of a machine is only set when the machine ends.
-/

namespace MotionScript

namespace Controller

/-- Whether a graph has the layers and nodes of another one, in the same places and with the same
names. -/
structure Retains (c c' : Controller) : Prop extends c.Extends c' where
  layerNames : ∀ (i : Nat) l l', c.layers[i]? = some l → c'.layers[i]? = some l' → l'.name = l.name
  names : ∀ node, c.Has node → c'.Has node ∧ c'.nodeName node = c.nodeName node

/-- Whether it has the same default states as well. -/
structure Steady (c c' : Controller) : Prop extends c.Retains c' where
  defaults : ∀ id, (c'.machine id).defaultState = (c.machine id).defaultState

variable {c c' c'' : Controller} {layer : Nat}

theorem HasPath.mono {node : NodeRef} {path : Path} (h : c.WellFormed) (hc : c.Retains c')
    (hp : c.HasPath layer node path) : c'.HasPath layer node path := by
  induction hp with
  | root hl =>
    obtain ⟨l', hl', hmachine⟩ := hc.layers _ _ hl
    rw [← hmachine, ← hc.layerNames _ _ _ hl hl']
    exact .root hl'
  | @machine outer inner path ho hi ih =>
    have hname : (c'.machine inner).name = (c.machine inner).name :=
      (hc.names (.machine inner) (h.has (ho.machine hi).inLayer)).2
    rw [← hname]
    exact ih.machine (hc.machines _ hi)
  | @state outer id path ho hi ih =>
    have hname : (c'.state id).name = (c.state id).name :=
      (hc.names (.state id) (h.has (ho.state hi).inLayer)).2
    rw [← hname]
    exact ih.state (hc.states _ hi)

/-! ## Changes of a graph -/

theorem Retains.modifyMachine (c : Controller) (id : MachineId) {f : Machine → Machine}
    (hf : ∀ m, m.children ⊆ (f m).children ∧ m.members ⊆ (f m).members)
    (hn : ∀ m, (f m).name = m.name) : c.Retains (c.modifyMachine id f) where
  toExtends := .modifyMachine c id hf
  layerNames i l l' hl hl' := by
    obtain rfl := Option.some.inj (hl.symm.trans hl')
    rfl
  names node hnode := by
    cases node with
    | state => exact ⟨hnode, rfl⟩
    | machine j =>
      refine ⟨Nat.lt_of_lt_of_eq hnode Array.size_modify.symm, ?_⟩
      simp only [nodeName, machine, Controller.modifyMachine, getD_modify_eq]
      split
      · exact hn _
      · rfl

namespace Steady

theorem of_eq (hl : c'.layers = c.layers) (hm : c'.machines = c.machines)
    (hs : c'.states = c.states) : c.Steady c' where
  toExtends := .of_eq hl hm
  layerNames i l l' h h' := by
    rw [hl] at h'
    rw [Option.some.inj (h.symm.trans h')]
  names node h := by
    cases node <;> simpa [Has, nodeName, machine, state, hm, hs] using h
  defaults id := by rw [machine, machine, hm]

theorem trans (h : c.Steady c') (h' : c'.Steady c'') : c.Steady c'' where
  toExtends := h.toExtends.trans h'.toExtends
  layerNames i l l'' hl hl'' := by
    obtain ⟨l', hl', -⟩ := h.layers i l hl
    exact (h'.layerNames i l' l'' hl' hl'').trans (h.layerNames i l l' hl hl')
  names node hn := by
    obtain ⟨hn', heq⟩ := h.names node hn
    exact (h'.names node hn').imp_right (·.trans heq)
  defaults id := (h'.defaults id).trans (h.defaults id)

theorem modifyLayer (c : Controller) (i : Nat) {f : Layer → Layer}
    (hf : ∀ l, (f l).machine = l.machine ∧ (f l).name = l.name) :
    c.Steady (c.modifyLayer i f) where
  toExtends := .modifyLayer c i fun l => (hf l).1
  layerNames j l l' hl hl' := by
    simp only [Controller.modifyLayer, Array.getElem?_modify, hl] at hl'
    split at hl' <;> cases hl'
    · exact (hf l).2
    · rfl
  names node hn := ⟨hn, rfl⟩
  defaults id := rfl

theorem modifyMachine (c : Controller) (id : MachineId) {f : Machine → Machine}
    (hf : ∀ m, m.children ⊆ (f m).children ∧ m.members ⊆ (f m).members)
    (hn : ∀ m, (f m).name = m.name ∧ (f m).defaultState = m.defaultState) :
    c.Steady (c.modifyMachine id f) where
  toRetains := .modifyMachine c id hf fun m => (hn m).1
  defaults j := by
    simp only [machine, Controller.modifyMachine, getD_modify_eq]
    split
    · exact (hn _).2
    · rfl

theorem modifyState (c : Controller) (id : StateId) {f : State → State}
    (hf : ∀ st, (f st).name = st.name) : c.Steady (c.modifyState id f) where
  toExtends := .of_eq rfl rfl
  layerNames i l l' hl hl' := by
    obtain rfl := Option.some.inj (hl.symm.trans hl')
    rfl
  names node hnode := by
    cases node with
    | machine => exact ⟨hnode, rfl⟩
    | state j =>
      refine ⟨Nat.lt_of_lt_of_eq hnode Array.size_modify.symm, ?_⟩
      rw [nodeName, state_modifyState]
      split
      · exact hf _
      · rfl
  defaults j := rfl

theorem addLayer (c : Controller) (l : Layer) : c.Steady (c.addLayer l).2 where
  toExtends := .addLayer c l
  layerNames i k k' hk hk' := by
    simp only [Controller.addLayer, Array.getElem?_push] at hk'
    rw [if_neg (Nat.ne_of_lt (Array.getElem?_eq_some_iff.1 hk).1), hk] at hk'
    rw [Option.some.inj hk']
  names node hn := ⟨hn, rfl⟩
  defaults id := rfl

theorem addMachine (c : Controller) (name : String) : c.Steady (c.addMachine { name }).2 where
  toExtends := .addMachine c _
  layerNames i l l' hl hl' := by
    obtain rfl := Option.some.inj (hl.symm.trans hl')
    rfl
  names node hn := by
    cases node with
    | state => exact ⟨hn, rfl⟩
    | machine id =>
      refine ⟨Nat.lt_of_lt_of_eq (Nat.lt_succ_of_lt hn) (Array.size_push _).symm, ?_⟩
      simp only [nodeName, machine, Controller.addMachine, getD_push_size]
      rw [if_neg (Nat.ne_of_lt hn)]
  defaults id := by
    simp only [machine, Controller.addMachine, getD_push_size]
    split
    · rename_i hid
      rw [hid, Array.getD_eq_getD_getElem?, Array.getElem?_eq_none (Nat.le_refl _)]
      rfl
    · rfl

theorem addState (c : Controller) (st : State) : c.Steady (c.addState st).2 where
  toExtends := .of_eq rfl rfl
  layerNames i l l' hl hl' := by
    obtain rfl := Option.some.inj (hl.symm.trans hl')
    rfl
  names node hn := by
    cases node with
    | machine => exact ⟨hn, rfl⟩
    | state id =>
      refine ⟨Nat.lt_of_lt_of_eq (Nat.lt_succ_of_lt hn) (Array.size_push _).symm, ?_⟩
      simp only [nodeName, state, Controller.addState, getD_push_size]
      rw [if_neg (Nat.ne_of_lt hn)]
  defaults id := rfl

/-! ## What rules do -/

theorem newLayer (c : Controller) (name : String) : c.Steady
    ((c.addMachine { name }).2.addLayer { name, machine := ⟨c.machines.size⟩ }).2 :=
  (addMachine c name).trans (.addLayer _ _)

theorem newMachine (c : Controller) (outer : MachineId) (name : String) :
    c.Steady ((c.addMachine { name }).2.modifyMachine outer fun m =>
      { m with machines := m.machines ++ [⟨⟨c.machines.size⟩, none⟩] }) := by
  refine (addMachine c name).trans (.modifyMachine _ outer (fun m => ⟨?_, List.Subset.refl _⟩)
    fun m => ⟨rfl, rfl⟩)
  simp [Machine.children]

theorem newState (c : Controller) (outer : MachineId) (name : String) :
    c.Steady ((c.addState { name }).2.modifyMachine outer fun m =>
      { m with states := m.states ++ [⟨⟨c.states.size⟩, none⟩] }) := by
  refine (addState c _).trans (.modifyMachine _ outer (fun m => ⟨List.Subset.refl _, ?_⟩)
    fun m => ⟨rfl, rfl⟩)
  simp [Machine.members]

theorem placeRecord (c : Controller) (scope : Scope) (record : Record) :
    c.Steady (c.placeRecord scope record) := by
  have hadd : c.Steady (c.addRecord record).2 := .of_eq rfl rfl rfl
  unfold Controller.placeRecord
  cases scope.state with
  | some id => exact hadd.trans (.modifyState _ _ fun st => rfl)
  | none =>
    exact hadd.trans (.modifyMachine _ _ (fun m => ⟨List.Subset.refl _, List.Subset.refl _⟩)
      fun m => ⟨rfl, rfl⟩)

theorem attach (c : Controller) (home : Home) (id : TransitionId) :
    c.Steady (c.attach home id) := by
  cases home with
  | entry m | any m =>
    exact .modifyMachine c m (fun _ => ⟨List.Subset.refl _, List.Subset.refl _⟩) fun _ => ⟨rfl, rfl⟩
  | state st => exact .modifyState c st fun _ => rfl

end Steady

theorem Edit.steady (h : c.Edit c') : c.Steady c' := by
  cases h with
  | layer i f hf => exact .modifyLayer c i fun l => ⟨(hf l).1, (hf l).2.2⟩
  | state id f hf => exact .modifyState c id fun st => (hf st).2.2.2
  | _ => exact .of_eq rfl rfl rfl

end Controller

/-- The turn of a rule changes no name and no default state. -/
theorem Frame.Growth.steady {c c' : Controller} {f f' : Frame} (h : f.Growth c c' f') :
    c.Steady c' := by
  cases h with
  | edit hc => exact hc.steady
  | layer name => exact .newLayer c name
  | machine outer ho name => exact .newMachine c outer.machine name
  | state outer ho name => exact .newState c outer.machine name
  | record outer ho record => exact .placeRecord c outer record
  | motion => exact .of_eq rfl rfl rfl

/-! ## Linking -/

namespace Session

variable {η : Type} [Host η] (s : Session η)

theorem steady_link (parent : Option MachineId) (p : Pending) :
    s.controller.Steady (s.link parent p).controller := by
  unfold link
  split
  · rename_i destination _
    have hadd : s.controller.Steady
        (s.controller.addTransition { p.transition with destination }).2 := .of_eq rfl rfl rfl
    exact hadd.trans (.attach _ p.home ⟨s.controller.transitions.size⟩)
  all_goals exact .of_eq rfl rfl rfl

theorem steady_linkScope (machine : MachineId) (parent : Option MachineId) :
    s.controller.Steady (s.linkScope machine parent).controller := by
  have hfold (ps : List Pending) (s : Session η) :
      s.controller.Steady (ps.foldl (link parent) s).controller := by
    induction ps generalizing s with
    | nil => exact .of_eq rfl rfl rfl
    | cons p ps ih => exact (s.steady_link parent p).trans (ih _)
  exact hfold _ { s with pending := (s.pending.partition (·.owner = machine)).2 }

theorem steady_linkSyncs : s.controller.Steady s.linkSyncs.controller := by
  have hsync (s : Session η) (layer : Nat) (use : NameUse) :
      s.controller.Steady (s.linkSync layer use).controller := by
    unfold linkSync
    split
    · exact .modifyLayer _ _ fun l => ⟨rfl, rfl⟩
    · exact .of_eq rfl rfl rfl
  have hfold (syncs : List (Nat × NameUse)) (s : Session η) :
      s.controller.Steady (syncs.foldl (fun s sync => s.linkSync sync.1 sync.2) s).controller := by
    induction syncs generalizing s with
    | nil => exact .of_eq rfl rfl rfl
    | cons sync syncs ih => exact (hsync s _ _).trans (ih _)
  exact hfold s.syncs { s with syncs := [] }

theorem retains_linkDefault (machine : MachineId) (layer : Nat) (path : Path) (use : NameUse) :
    s.controller.Retains (s.linkDefault machine layer path use).controller := by
  unfold linkDefault
  extract_lets target
  split
  · exact .modifyMachine _ _ (fun m => ⟨List.Subset.refl _, List.Subset.refl _⟩) fun _ => rfl
  · exact Controller.Steady.toRetains (.of_eq rfl rfl rfl)

end Session

theorem MotionRule.steady_place (r : MotionRule) (c : Controller) : c.Steady (r.place c) := by
  unfold place
  split
  · exact .of_eq rfl rfl rfl
  · exact .modifyState _ _ fun st => rfl
  · exact .of_eq rfl rfl rfl

end MotionScript
