import MotionScript.Proofs.Feeding.Documents
import MotionScript.Proofs.Linking.Complete
import MotionScript.Proofs.Linking.Order
/-!
# Controllers that are equal as trees

Controllers are compared node by node: what is in the same place of the same layer has to be equal,
and transitions have to lead to the same places.
-/

namespace MotionScript

/-! ## Lists -/

theorem exists_forall₂_right {α β : Type} {R : α → β → Prop} {xs : List α} {ys : List β}
    (h : List.Forall₂ R xs ys) {y : β} (hy : y ∈ ys) : ∃ x ∈ xs, R x y := by
  induction h with
  | nil => cases hy
  | cons hxy _ ih =>
    rcases List.mem_cons.1 hy with rfl | hy
    · exact ⟨_, List.mem_cons_self, hxy⟩
    · obtain ⟨x, hx, hr⟩ := ih hy
      exact ⟨x, List.mem_cons_of_mem _ hx, hr⟩

theorem NodeRef.destination_injective : Function.Injective NodeRef.destination := by
  intro n n' h
  cases n <;> cases n' <;> cases h <;> rfl

namespace Controller

/-! ## Equality -/

/-- Whether destinations are in the same place of a layer. -/
inductive SameDestination (c c' : Controller) (layer : Nat) : Destination → Destination → Prop where
  | exit : SameDestination c c' layer .exit .exit
  | node {n n' : NodeRef} (h : Counterpart c c' layer n n') :
    SameDestination c c' layer n.destination n'.destination

/-- Whether transitions of two controllers are equal and lead to the same place of a layer. -/
structure SameTransition (c c' : Controller) (layer : Nat) (t t' : Transition) : Prop where
  modifiers : ({ t' with destination := .exit } == { t with destination := .exit }) = true
  destination : SameDestination c c' layer t.destination t'.destination

/-- Whether lists hold the same transitions, also in the same order if `ordered` holds. -/
def SameTransitions (c c' : Controller) (layer : Nat) (ordered : Prop)
    (ids ids' : List TransitionId) : Prop :=
  ∃ ts, ts.Perm (ids'.map c'.transition) ∧ (ordered → ts = ids'.map c'.transition) ∧
    List.Forall₂ (SameTransition c c' layer) (ids.map c.transition) ts

/-- Whether machines are equal, what is nested in them aside. The lists of the machine of a layer are
in the same order. -/
structure SameMachine (c c' : Controller) (layer : Nat) (m m' : MachineId) : Prop where
  name : (c'.machine m').name = (c.machine m).name
  defaultState : Option.Rel (fun s s' => Counterpart c c' layer (.state s) (.state s'))
    (c.machine m).defaultState (c'.machine m').defaultState
  records : (c'.machine m').records.map c'.record = (c.machine m).records.map c.record
  entry : SameTransitions c c' layer (c'.isRoot layer m' = true) (c.machine m).entryTransitions
    (c'.machine m').entryTransitions
  any : SameTransitions c c' layer (c'.isRoot layer m' = true) (c.machine m).anyTransitions
    (c'.machine m').anyTransitions

/-- Whether states are equal, the second one a child of `owner`. The lists of the direct states of a
layer are in the same order. -/
structure SameMember (c c' : Controller) (layer : Nat) (owner : MachineId) (s s' : StateId) : Prop
    extends SameState c c' (c.state s) (c'.state s') where
  transitions : SameTransitions c c' layer (c'.isRoot layer owner = true) (c.state s).transitions
    (c'.state s').transitions

/-- Whether controllers are equal as trees, positions aside. -/
structure SameTree (c c' : Controller) : Prop where
  name : c'.name = c.name
  parameters : c'.parameters = c.parameters
  layers : List.Forall₂ (fun l l' => ({ l' with machine := l.machine } == l) = true)
    c.layers.toList c'.layers.toList
  machines : ∀ (i : Nat) (l l' : Layer), c.layers[i]? = some l → c'.layers[i]? = some l' →
    Matches c c' (SameMachine c c' i) (SameMember c c' i) l.machine l'.machine

/-! ## Matching trees -/

section Matching

variable {c c' c'' : Controller} {P P' : MachineId → MachineId → Prop}
  {Q Q' : MachineId → StateId → StateId → Prop} {layer : Nat} {m m' : MachineId}

theorem Matches.states (h : Matches c c' P Q m m') :
    List.Forall₂ (fun a b => Q m' a.node b.node) (c.machine m).states (c'.machine m').states := by
  cases h with
  | node _ states _ => exact states

theorem Matches.machines (h : Matches c c' P Q m m') :
    List.Forall₂ (fun a b => Matches c c' P Q a.node b.node) (c.machine m).machines
      (c'.machine m').machines := by
  cases h with
  | node _ _ machines => exact machines

/-- Trees match a controller with the same nesting. -/
theorem Matches.imp (hstates : ∀ m, (c''.machine m).states = (c'.machine m).states)
    (hmachines : ∀ m, (c''.machine m).machines = (c'.machine m).machines)
    (hP : ∀ m m', P m m' → P' m m')
    (hQ : ∀ m m' s s', P m m' → s ∈ (c.machine m).members → Q m' s s' → Q' m' s s')
    (h : Matches c c' P Q m m') : Matches c c'' P' Q' m m' := by
  refine @Matches.rec c c' P Q (fun m m' _ => Matches c c'' P' Q' m m')
    (fun (xs ys : List (Placed MachineId)) _ =>
      List.Forall₂ (fun (a b : Placed MachineId) => Matches c c'' P' Q' a.node b.node) xs ys)
    (fun own states _ ih => .node (hP _ _ own) ?_ ?_) .nil (fun _ _ hm hms => .cons hm hms) m m' h
  · rw [hstates]
    exact ((List.forall₂_and_left _ _).2 ⟨fun _ => List.mem_map_of_mem, states⟩).imp
      fun _ _ ⟨hs, h⟩ => hQ _ _ _ _ own hs h
  · rw [hmachines]
    exact ih

theorem Counterpart.inLayer {n n' : NodeRef} (h : Counterpart c c' layer n n') :
    c.InLayer layer n := by
  induction h with
  | root h _ => exact .root h
  | machine _ hx _ ih => exact ih.machine (List.mem_map_of_mem (List.mem_of_getElem? hx))
  | state _ hx _ ih => exact ih.state (List.mem_map_of_mem (List.mem_of_getElem? hx))

end Matching

/-! ## Counterparts are unique -/

section Unique

variable {c c' : Controller} {layer : Nat} {n a b : NodeRef}

theorem Counterpart.symm (h : Counterpart c c' layer n a) : Counterpart c' c layer a n := by
  induction h with
  | root h h' => exact .root h' h
  | machine _ hx hx' ih => exact ih.machine hx' hx
  | state _ hx hx' ih => exact ih.state hx' hx

theorem Forest.ne_root (hf : c.Forest) {l : Layer} (hl : c.layers[layer]? = some l)
    (outer : MachineId) : l.machine ∉ (c.machine outer).children := by
  intro hi
  have hroot : l.machine ∈ c.rootMachines :=
    List.mem_map_of_mem (Array.mem_def.1 (Array.mem_of_getElem? hl))
  exact List.disjoint_of_nodup_append hf.machines hroot (mem_childMachines hi)

theorem Forest.nodup_children (hf : c.Forest) (m : MachineId) : (c.machine m).children.Nodup := by
  by_cases hm : m.index < c.machines.size
  · have hmem : c.machine m ∈ c.machines.toList := by
      rw [machine, Array.getD_eq_getD_getElem?, Array.getElem?_eq_getElem hm]
      exact Array.mem_def.1 (Array.getElem_mem hm)
    exact (List.nodup_flatMap.1 hf.machines.of_append_right).1 _ hmem
  · rw [machine, Array.getD_eq_getD_getElem?, Array.getElem?_eq_none (Nat.not_lt.1 hm)]
    exact List.nodup_nil

theorem Forest.nodup_members (hf : c.Forest) (m : MachineId) : (c.machine m).members.Nodup := by
  by_cases hm : m.index < c.machines.size
  · have hmem : c.machine m ∈ c.machines.toList := by
      rw [machine, Array.getD_eq_getD_getElem?, Array.getElem?_eq_getElem hm]
      exact Array.mem_def.1 (Array.getElem_mem hm)
    exact (List.nodup_flatMap.1 hf.states).1 _ hmem
  · rw [machine, Array.getD_eq_getD_getElem?, Array.getElem?_eq_none (Nat.not_lt.1 hm)]
    exact List.nodup_nil

/-- In lists without repetitions a node is at one index. -/
theorem index_unique {α : Type} {xs : List (Placed α)} (h : (xs.map (·.node)).Nodup) {i j : Nat}
    {x y : Placed α} (hx : xs[i]? = some x) (hy : xs[j]? = some y) (hn : x.node = y.node) :
    i = j := by
  have hi : i < (xs.map (·.node)).length := by simpa using (List.getElem?_eq_some_iff.1 hx).1
  refine (List.getElem?_inj hi h).1 ?_
  simp [hx, hy, hn]

/-- A node of a forest has one counterpart in a layer. -/
theorem Counterpart.unique (hf : c.Forest) (h : Counterpart c c' layer n a)
    (h' : Counterpart c c' layer n b) : a = b := by
  induction h generalizing b with
  | @root l l' hl hl' =>
    generalize hn : NodeRef.machine l.machine = n at h'
    cases h' with
    | root hk hk' =>
      obtain rfl := Option.some.inj (hl.symm.trans hk)
      obtain rfl := Option.some.inj (hl'.symm.trans hk')
      rfl
    | @machine outer _ _ x _ _ hx _ =>
      refine absurd ?_ (hf.ne_root hl outer)
      rw [NodeRef.machine.inj hn]
      exact List.mem_map_of_mem (List.mem_of_getElem? hx)
    | state => cases hn
  | @machine m m' i x x' ho hx hx' ih =>
    generalize hn : NodeRef.machine x.node = n at h'
    have hmem := List.mem_map_of_mem (f := Placed.node) (List.mem_of_getElem? hx)
    cases h' with
    | root hk _ => exact absurd (NodeRef.machine.inj hn ▸ hmem) (hf.ne_root hk m)
    | @machine k k' i' y y' hk hy hy' =>
      have hnode : x.node = y.node := NodeRef.machine.inj hn
      have hmem' := List.mem_map_of_mem (f := Placed.node) (List.mem_of_getElem? hy)
      obtain rfl : m = k := congrArg MachineId.mk
        (owner_unique hf.machines.of_append_right rfl hmem (hnode ▸ hmem'))
      obtain rfl := NodeRef.machine.inj (ih hk)
      obtain rfl := index_unique (hf.nodup_children m) hx hy hnode
      rw [Option.some.inj (hx'.symm.trans hy')]
    | state => cases hn
  | @state m m' i x x' ho hx hx' ih =>
    generalize hn : NodeRef.state x.node = n at h'
    have hmem := List.mem_map_of_mem (f := Placed.node) (List.mem_of_getElem? hx)
    cases h' with
    | root | machine => cases hn
    | @state k k' i' y y' hk hy hy' =>
      have hnode : x.node = y.node := NodeRef.state.inj hn
      have hmem' := List.mem_map_of_mem (f := Placed.node) (List.mem_of_getElem? hy)
      obtain rfl : m = k := congrArg MachineId.mk
        (owner_unique hf.states rfl hmem (hnode ▸ hmem'))
      obtain rfl := NodeRef.machine.inj (ih hk)
      obtain rfl := index_unique (hf.nodup_members m) hx hy hnode
      rw [Option.some.inj (hx'.symm.trans hy')]

/-- Nodes in the same place have the same path if names are the same. -/
theorem Counterpart.exists_path {P : MachineId → MachineId → Prop}
    {Q : MachineId → StateId → StateId → Prop} (h : Counterpart c c' layer n a)
    (hroot : ∀ l l', c.layers[layer]? = some l → c'.layers[layer]? = some l' →
      l'.name = l.name ∧ Matches c c' P Q l.machine l'.machine)
    (hP : ∀ m m', P m m' → (c'.machine m').name = (c.machine m).name)
    (hQ : ∀ m' s s', Q m' s s' → (c'.state s').name = (c.state s).name) :
    ∃ path, c.HasPath layer n path ∧ c'.HasPath layer a path := by
  induction h with
  | root hl hl' =>
    refine ⟨_, .root hl, ?_⟩
    rw [← (hroot _ _ hl hl').1]
    exact .root hl'
  | machine ho hx hx' ih =>
    obtain ⟨path, hp, hp'⟩ := ih
    have hm := (ho.machine hx hx').matches fun l l' hl hl' => (hroot l l' hl hl').2
    refine ⟨_, hp.machine (List.mem_map_of_mem (List.mem_of_getElem? hx)), ?_⟩
    rw [← hP _ _ hm.own]
    exact hp'.machine (List.mem_map_of_mem (List.mem_of_getElem? hx'))
  | state ho hx hx' ih =>
    obtain ⟨path, hp, hp'⟩ := ih
    obtain ⟨m, m', -, -, -, hs⟩ :=
      (ho.state hx hx').matches fun l l' hl hl' => (hroot l l' hl hl').2
    refine ⟨_, hp.state (List.mem_map_of_mem (List.mem_of_getElem? hx)), ?_⟩
    rw [← hQ _ _ _ hs]
    exact hp'.state (List.mem_map_of_mem (List.mem_of_getElem? hx'))

end Unique

/-! ## Graphs without transitions -/

section Unlinked

variable (c : Controller)

theorem machine_unlinked (m : MachineId) : c.unlinked.machine m = (c.machine m).unlinked := by
  simp only [machine, unlinked, Array.getD_eq_getD_getElem?, Array.getElem?_map]
  cases c.machines[m.index]? <;> rfl

theorem state_unlinked (s : StateId) : c.unlinked.state s = (c.state s).unlinked := by
  simp only [state, unlinked, Array.getD_eq_getD_getElem?, Array.getElem?_map]
  cases c.states[s.index]? <;> rfl

end Unlinked

/-! ## Counterparts -/

namespace ReadBack

variable {c : Controller} {s : Session MemoryHost} {j : Journal} {roots : List MachineId}
  {layer : Nat}

/-- The layer that has been read back for a layer. -/
theorem layer_eq (h : c.ReadBack s j roots) {l' : Layer}
    (hl' : s.controller.layers[layer]? = some l') :
    ∃ l, c.layers[layer]? = some l ∧ roots[layer]? = some l'.machine ∧
      l' = (l.readBack l'.machine).following l.synced := by
  rw [← Array.getElem?_toList, h.layers] at hl'
  obtain ⟨l, id, hl, hid, rfl⟩ := List.getElem?_zipWith_eq_some.1 hl'
  exact ⟨l, by rwa [← Array.getElem?_toList], hid, rfl⟩

theorem exists_layer (h : c.ReadBack s j roots) {l : Layer} (hl : c.layers[layer]? = some l) :
    ∃ l', s.controller.layers[layer]? = some l' := by
  have hlength := h.trees.length_eq
  rw [List.length_zipIdx, Array.length_toList] at hlength
  refine ⟨_, Array.getElem?_eq_getElem ?_⟩
  rw [← Array.length_toList, h.layers, List.length_zipWith, ← hlength, Array.length_toList,
    Nat.min_self]
  exact (Array.getElem?_eq_some_iff.1 hl).1

/-- The machines of a layer match. -/
theorem tree (h : c.ReadBack s j roots) {l l' : Layer} (hl : c.layers[layer]? = some l)
    (hl' : s.controller.layers[layer]? = some l') :
    ReadTree c layer s.outline (j.groups.map Pending.bare) l.machine l'.machine := by
  obtain ⟨-, -, hid, -⟩ := h.layer_eq hl'
  exact forall₂_getElem? h.trees (i := layer) (x := (l, layer)) (by simp [hl]) hid

theorem matches_root (h : c.ReadBack s j roots) (l l' : Layer) (hl : c.layers[layer]? = some l)
    (hl' : s.controller.layers[layer]? = some l') :
    Matches c s.controller (ReadMachine c layer s.outline (j.groups.map Pending.bare))
      (ReadState c layer s.outline (j.groups.map Pending.bare)) l.machine l'.machine := by
  have hm (m : MachineId) : s.outline.controller.machine m = (s.controller.machine m).unlinked :=
    s.controller.machine_unlinked m
  exact (h.tree hl hl').imp (fun m => by rw [hm]; rfl) (fun m => by rw [hm]; rfl)
    (fun _ _ => id) fun _ _ _ _ _ _ => id

/-- Every node has a counterpart, which is found by its path. -/
theorem exists_counterpart (h : c.ReadBack s j roots) (hf : c.Forest) {node : NodeRef} {path : Path}
    (hp : c.HasPath layer node path) :
    ∃ node', Counterpart c s.controller layer node node' ∧
      s.outline.lookup? layer path = some node' := by
  have hfound {n n' : NodeRef} {p : Path} (hn : c.Found layer s.outline n n')
      (hp : c.HasPath layer n p) : s.outline.lookup? layer p = some n' := by
    obtain ⟨q, hq, hlookup⟩ := hn
    rwa [(hf.path_unique hp hq).2]
  induction hp with
  | @root l hl =>
    obtain ⟨l', hl'⟩ := h.exists_layer hl
    exact ⟨_, .root hl hl', hfound (h.tree hl hl').own.found (.root hl)⟩
  | @machine outer inner path ho hi ih =>
    obtain ⟨n', hc, -⟩ := ih
    obtain ⟨x, hx, rfl⟩ := List.mem_map.1 hi
    obtain ⟨i, hx⟩ := List.getElem?_of_mem hx
    have hm := hc.matches h.matches_root
    cases n' with
    | state => exact hm.elim
    | machine m' =>
      obtain ⟨hlt, -⟩ := List.getElem?_eq_some_iff.1 hx
      rw [hm.machines.length_eq] at hlt
      have hy := List.getElem?_eq_getElem hlt
      have hinner := forall₂_getElem? hm.machines hx hy
      exact ⟨_, hc.machine hx hy, hfound hinner.own.found (ho.machine hi)⟩
  | @state outer id path ho hi ih =>
    obtain ⟨n', hc, -⟩ := ih
    obtain ⟨x, hx, rfl⟩ := List.mem_map.1 hi
    obtain ⟨i, hx⟩ := List.getElem?_of_mem hx
    have hm := hc.matches h.matches_root
    cases n' with
    | state => exact hm.elim
    | machine m' =>
      obtain ⟨hlt, -⟩ := List.getElem?_eq_some_iff.1 hx
      rw [hm.states.length_eq] at hlt
      have hy := List.getElem?_eq_getElem hlt
      exact ⟨_, hc.state hx hy, hfound (forall₂_getElem? hm.states hx hy).found (ho.state hi)⟩

theorem counterpart (h : c.ReadBack s j roots) (hf : c.Forest) {node node' : NodeRef}
    (hn : c.Found layer s.outline node node') : Counterpart c s.controller layer node node' := by
  obtain ⟨path, hp, hlookup⟩ := hn
  obtain ⟨n', hc, hlookup'⟩ := h.exists_counterpart hf hp
  rwa [Option.some.inj (hlookup.symm.trans hlookup')]

/-- Nothing else has been read. -/
theorem exists_original (h : c.ReadBack s j roots) {node' : NodeRef}
    (hn : s.controller.InLayer layer node') :
    ∃ node, Counterpart c s.controller layer node node' := by
  induction hn with
  | root hl' =>
    obtain ⟨l, hl, -⟩ := h.layer_eq hl'
    exact ⟨_, .root hl hl'⟩
  | @machine outer inner ho hi ih =>
    obtain ⟨n, hc⟩ := ih
    obtain ⟨y, hy, rfl⟩ := List.mem_map.1 hi
    obtain ⟨i, hy⟩ := List.getElem?_of_mem hy
    have hm := hc.matches h.matches_root
    cases n with
    | state => exact hm.elim
    | machine m =>
      obtain ⟨hlt, -⟩ := List.getElem?_eq_some_iff.1 hy
      rw [← hm.machines.length_eq] at hlt
      exact ⟨_, hc.machine (List.getElem?_eq_getElem hlt) hy⟩
  | @state outer id ho hi ih =>
    obtain ⟨n, hc⟩ := ih
    obtain ⟨y, hy, rfl⟩ := List.mem_map.1 hi
    obtain ⟨i, hy⟩ := List.getElem?_of_mem hy
    have hm := hc.matches h.matches_root
    cases n with
    | state => exact hm.elim
    | machine m =>
      obtain ⟨hlt, -⟩ := List.getElem?_eq_some_iff.1 hy
      rw [← hm.states.length_eq] at hlt
      exact ⟨_, hc.state (List.getElem?_eq_getElem hlt) hy⟩

end ReadBack

end Controller

end MotionScript
