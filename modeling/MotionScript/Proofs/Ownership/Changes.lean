import MotionScript.Proofs.Linking.Ledger
import MotionScript.Proofs.Ownership.Forest
/-!
# Changes of a well-formed controller

What grammar rules do to a graph keeps it well formed: nodes are added together with their place,
and everything else only grows.
-/

namespace MotionScript

/-! ## Lists over arrays -/

section Arrays

variable {α β : Type} {f : α → α} {g : α → List β}

/-- One element has more, the others stay as they are. -/
theorem flatMap_modify_perm {xs : Array α} {i : Nat} {more : List β}
    (hi : more ≠ [] → i < xs.size) (h : ∀ x, (g (f x)).Perm (g x ++ more)) :
    ((xs.modify i f).toList.flatMap g).Perm (xs.toList.flatMap g ++ more) := by
  obtain ⟨xs⟩ := xs
  simp only [List.modify_toArray, List.size_toArray] at hi ⊢
  induction xs generalizing i with
  | nil =>
    obtain rfl : more = [] := by
      by_contra hne
      exact absurd (hi hne) (Nat.not_lt_zero i)
    simp
  | cons x xs ih =>
    cases i with
    | zero =>
      simp only [List.modify_zero_cons, List.flatMap_cons, List.append_assoc]
      refine ((h x).append_right _).trans ?_
      rw [List.append_assoc]
      exact (List.perm_append_comm).append_left _
    | succ i =>
      simp only [List.modify_succ_cons, List.flatMap_cons, List.append_assoc]
      exact (ih fun hne => Nat.lt_of_succ_lt_succ (hi hne)).append_left _

/-- One element has something else, but no more than the rest allows for. -/
theorem flatMap_modify_subperm {xs : Array α} {i : Nat} {more : List β}
    (h : ∀ x, (g (f x)).Subperm (g x ++ more)) :
    ((xs.modify i f).toList.flatMap g).Subperm (xs.toList.flatMap g ++ more) := by
  obtain ⟨xs⟩ := xs
  simp only [List.modify_toArray]
  induction xs generalizing i with
  | nil => simp
  | cons x xs ih =>
    cases i with
    | zero =>
      simp only [List.modify_zero_cons, List.flatMap_cons, List.append_assoc]
      refine ((List.subperm_append_right _).2 (h x)).trans ?_
      rw [List.append_assoc]
      exact ((List.perm_append_comm).append_left _).subperm
    | succ i =>
      simp only [List.modify_succ_cons, List.flatMap_cons, List.append_assoc]
      exact (List.subperm_append_left _).2 ih

theorem flatMap_push (xs : Array α) (x : α) :
    (xs.push x).toList.flatMap g = xs.toList.flatMap g ++ g x := by simp

theorem getD_push_size [Inhabited α] (xs : Array α) (x : α) (i : Nat) :
    (xs.push x).getD i default = if i = xs.size then x else xs.getD i default := by
  simp only [Array.getD_eq_getD_getElem?, Array.getElem?_push]
  split <;> simp

theorem getD_modify_eq [Inhabited α] (xs : Array α) (i j : Nat) :
    (xs.modify i f).getD j default =
      if i = j ∧ i < xs.size then f (xs.getD j default) else xs.getD j default := by
  simp only [Array.getD_eq_getD_getElem?, Array.getElem?_modify]
  by_cases hij : i = j
  · subst hij
    by_cases hi : i < xs.size
    · simp [hi]
    · simp [hi]
  · simp [hij]

theorem mem_modify {xs : Array α} {i : Nat} {y : α} (h : y ∈ xs.modify i f) :
    y ∈ xs ∨ ∃ x ∈ xs, y = f x := by
  obtain ⟨j, hj, rfl⟩ := Array.mem_iff_getElem.1 h
  rw [Array.getElem_modify]
  rw [Array.size_modify] at hj
  split
  · exact .inr ⟨_, Array.getElem_mem _, rfl⟩
  · exact .inl (Array.getElem_mem _)

end Arrays

namespace Controller

/-! ## Layers only grow -/

/-- Whether the layers of a controller have the same root machines in another one, and its machines
all their children. -/
structure Extends (c c' : Controller) : Prop where
  layers : ∀ (i : Nat) l, c.layers[i]? = some l →
    ∃ l', c'.layers[i]? = some l' ∧ l'.machine = l.machine
  machines : ∀ id, (c.machine id).children ⊆ (c'.machine id).children
  states : ∀ id, (c.machine id).members ⊆ (c'.machine id).members

namespace Extends

variable {c c' c'' : Controller}

theorem of_eq (hl : c'.layers = c.layers) (hm : c'.machines = c.machines) : c.Extends c' := by
  refine ⟨fun i l h => ⟨l, hl ▸ h, rfl⟩, fun id => ?_, fun id => ?_⟩ <;>
  · unfold machine
    rw [hm]
    exact List.Subset.refl _

theorem trans (h : c.Extends c') (h' : c'.Extends c'') : c.Extends c'' where
  layers i l hl := by
    obtain ⟨l', hl', heq⟩ := h.layers i l hl
    obtain ⟨l'', hl'', heq'⟩ := h'.layers i l' hl'
    exact ⟨l'', hl'', heq'.trans heq⟩
  machines id := List.Subset.trans (h.machines id) (h'.machines id)
  states id := List.Subset.trans (h.states id) (h'.states id)

theorem modifyLayer (c : Controller) (i : Nat) {f : Layer → Layer}
    (hf : ∀ l, (f l).machine = l.machine) : c.Extends (c.modifyLayer i f) where
  layers j l hl := by
    refine ⟨if i = j then f l else l, ?_, by split <;> simp [hf]⟩
    simp only [Controller.modifyLayer, Array.getElem?_modify, hl]
    split <;> rfl
  machines id := List.Subset.refl _
  states id := List.Subset.refl _

theorem modifyMachine (c : Controller) (id : MachineId) {f : Machine → Machine}
    (hf : ∀ m, m.children ⊆ (f m).children ∧ m.members ⊆ (f m).members) :
    c.Extends (c.modifyMachine id f) where
  layers i l hl := ⟨l, hl, rfl⟩
  machines j := by
    simp only [machine, Controller.modifyMachine, getD_modify_eq]
    split
    · exact (hf _).1
    · exact List.Subset.refl _
  states j := by
    simp only [machine, Controller.modifyMachine, getD_modify_eq]
    split
    · exact (hf _).2
    · exact List.Subset.refl _

theorem addMachine (c : Controller) (m : Machine) : c.Extends (c.addMachine m).2 where
  layers i l hl := ⟨l, hl, rfl⟩
  machines j := by
    simp only [machine, Controller.addMachine, getD_push_size]
    split
    · rename_i hj
      rw [hj, Array.getD_eq_getD_getElem?, Array.getElem?_eq_none (Nat.le_refl _)]
      exact List.nil_subset _
    · exact List.Subset.refl _
  states j := by
    simp only [machine, Controller.addMachine, getD_push_size]
    split
    · rename_i hj
      rw [hj, Array.getD_eq_getD_getElem?, Array.getElem?_eq_none (Nat.le_refl _)]
      exact List.nil_subset _
    · exact List.Subset.refl _

theorem addLayer (c : Controller) (l : Layer) : c.Extends (c.addLayer l).2 where
  layers i l' hl := by
    refine ⟨l', ?_, rfl⟩
    simp only [Controller.addLayer, Array.getElem?_push]
    rw [if_neg (Nat.ne_of_lt (Array.getElem?_eq_some_iff.1 hl).1)]
    exact hl
  machines id := List.Subset.refl _
  states id := List.Subset.refl _

end Extends

variable {c c' : Controller} {layer : Nat}

theorem InLayer.mono {node : NodeRef} (hc : c.Extends c') (h : c.InLayer layer node) :
    c'.InLayer layer node := by
  induction h with
  | root hl =>
    obtain ⟨l', hl', heq⟩ := hc.layers _ _ hl
    exact heq ▸ .root hl'
  | machine _ hi ih => exact ih.machine (hc.machines _ hi)
  | state _ hi ih => exact ih.state (hc.states _ hi)

theorem LeadsInto.mono {d : Destination} (hc : c.Extends c') (h : c.LeadsInto layer d) :
    c'.LeadsInto layer d := by
  cases d with
  | exit => trivial
  | state id | machine id => exact InLayer.mono hc h

/-- Destinations stay where they are if no list gets a transition. -/
theorem Coherent.destinations_mono (h : c.Coherent) (hc : c.Extends c')
    (ht : ∀ id, (c'.transition id).destination = (c.transition id).destination)
    (hl : ∀ node, c'.transitionsAt node ⊆ c.transitionsAt node) :
    ∀ node, ∀ id ∈ c'.transitionsAt node, ∃ layer,
      c'.InLayer layer node ∧ c'.LeadsInto layer (c'.transition id).destination := by
  intro node id hid
  obtain ⟨layer, hn, hd⟩ := h.destinations node id (hl node hid)
  exact ⟨layer, hn.mono hc, ht id ▸ hd.mono hc⟩

/-! ## Growing controllers -/

/-- Nodes that have been added but have no place yet. -/
structure Loose where
  machines : List MachineId := []
  states : List StateId := []
  transitions : List TransitionId := []
  records : List RecordId := []
  motions : List MotionId := []

/-- The nodes in `gain`, and further ones. -/
def Loose.and (gain loose : Loose) : Loose where
  machines := gain.machines ++ loose.machines
  states := gain.states ++ loose.states
  transitions := gain.transitions ++ loose.transitions
  records := gain.records ++ loose.records
  motions := gain.motions ++ loose.motions

/-- A controller that is well formed but for some nodes that have no place. -/
structure Growing (c : Controller) (loose : Loose) : Prop extends Coherent c where
  machines : (c.rootMachines ++ c.childMachines ++ loose.machines).Perm
    ((List.range c.machines.size).map MachineId.mk)
  states : (c.childStates ++ loose.states).Perm ((List.range c.states.size).map StateId.mk)
  transitions : (c.listedTransitions ++ loose.transitions).Perm
    ((List.range c.transitions.size).map TransitionId.mk)
  records : (c.listedRecords ++ loose.records).Perm ((List.range c.records.size).map RecordId.mk)
  motions : (c.placedMotions ++ loose.motions).Nodup
  motions_lt : ∀ id ∈ c.placedMotions ++ loose.motions, id.index < c.motions.size

variable {loose gain : Loose}

theorem Growing.wellFormed {held : List MotionId} (h : c.Growing { motions := held }) :
    c.WellFormed where
  toCoherent := h.toCoherent
  machines := by simpa using h.machines
  states := by simpa using h.states
  transitions := by simpa using h.transitions
  records := by simpa using h.records
  motions := h.motions.of_append_left
  motions_lt id hid := h.motions_lt id (List.mem_append_left _ hid)

/-! ## Giving nodes a place -/

theorem perm_gain {α : Type} {xs xs' gain rest all : List α} (hx : xs'.Perm (xs ++ gain))
    (h : (xs ++ (gain ++ rest)).Perm all) : (xs' ++ rest).Perm all :=
  ((hx.append_right rest).trans (.of_eq (List.append_assoc ..))).trans h

theorem perm_gain_left {α : Type} {xs xs' ys gain : List α} (hx : xs'.Perm (xs ++ gain)) :
    (xs' ++ ys).Perm (xs ++ ys ++ gain) := by
  refine (hx.append_right ys).trans ?_
  rw [List.append_assoc, List.append_assoc]
  exact List.perm_append_comm.append_left xs

theorem perm_gain_right {α : Type} {xs ys ys' gain : List α} (hy : ys'.Perm (ys ++ gain)) :
    (xs ++ ys').Perm (xs ++ ys ++ gain) :=
  (hy.append_left xs).trans (.of_eq (List.append_assoc ..).symm)

theorem subperm_gain_left {α : Type} {xs xs' ys gain : List α} (hx : xs'.Subperm (xs ++ gain)) :
    (xs' ++ ys).Subperm (xs ++ ys ++ gain) :=
  ((List.subperm_append_right ys).2 hx).trans (perm_gain_left (.refl _)).subperm

theorem nodup_of_subperm {α : Type} {xs ys : List α} (h : xs.Subperm ys) (hy : ys.Nodup) :
    xs.Nodup := by
  obtain ⟨l, hp, hl⟩ := h
  exact hp.nodup_iff.1 (hy.sublist hl)

end Controller

/-- What a machine gains when it becomes another one. -/
structure Machine.Gains (m m' : Machine) (gain : Controller.Loose) : Prop where
  children : m'.children.Perm (m.children ++ gain.machines)
  members : m'.members.Perm (m.members ++ gain.states)
  listed : m'.listed.Perm (m.listed ++ gain.transitions)
  records : m'.records.Perm (m.records ++ gain.records)

/-- What a state gains when it becomes another one. It may drop its motion. -/
structure State.Gains (st st' : State) (gain : Controller.Loose) : Prop where
  transitions : st'.transitions.Perm (st.transitions ++ gain.transitions)
  records : st'.records.Perm (st.records ++ gain.records)
  motion : st'.motion.toList.Subperm (st.motion.toList ++ gain.motions)

namespace Controller

variable {c c' : Controller} {loose gain : Loose}

/-- Whether transitions may be put in a list of a node. -/
def Reaches (c : Controller) (node : NodeRef) (ids : List TransitionId) : Prop :=
  ∀ id ∈ ids, ∃ layer, c.InLayer layer node ∧ c.LeadsInto layer (c.transition id).destination

theorem Coherent.destinations_gain (h : c.Coherent) (hc : c.Extends c') {node : NodeRef}
    {ids : List TransitionId} (hr : c.Reaches node ids) (ht : c'.transitions = c.transitions)
    (hother : ∀ other ≠ node, c'.transitionsAt other ⊆ c.transitionsAt other)
    (hnode : c'.transitionsAt node ⊆ c.transitionsAt node ++ ids) :
    ∀ node, ∀ id ∈ c'.transitionsAt node, ∃ layer,
      c'.InLayer layer node ∧ c'.LeadsInto layer (c'.transition id).destination := by
  intro other id hid
  have hold : ∃ layer, c.InLayer layer other ∧ c.LeadsInto layer (c.transition id).destination := by
    by_cases ho : other = node
    · subst ho
      rcases List.mem_append.1 (hnode hid) with hid | hid
      · exact h.destinations _ id hid
      · exact hr id hid
    · exact h.destinations other id (hother other ho hid)
  obtain ⟨layer, hn, hd⟩ := hold
  refine ⟨layer, hn.mono hc, ?_⟩
  rw [show c'.transition id = c.transition id by rw [transition, transition, ht]]
  exact hd.mono hc

theorem machine_modifyMachine {id : MachineId} (hid : id.index < c.machines.size)
    (f : Machine → Machine) (j : MachineId) : (c.modifyMachine id f).machine j =
      if id = j then f (c.machine j) else c.machine j := by
  simp only [machine, Controller.modifyMachine, getD_modify_eq, hid, and_true]
  obtain ⟨i⟩ := id
  obtain ⟨j⟩ := j
  simp only [MachineId.mk.injEq]

theorem state_modifyState (id : StateId) (f : State → State) (j : StateId) :
    (c.modifyState id f).state j =
      if id = j ∧ id.index < c.states.size then f (c.state j) else c.state j := by
  simp only [state, Controller.modifyState, getD_modify_eq]
  obtain ⟨i⟩ := id
  obtain ⟨j⟩ := j
  simp only [StateId.mk.injEq]

namespace Growing

/-- A machine takes nodes in. -/
theorem modifyMachine (h : c.Growing (gain.and loose)) {id : MachineId} {f : Machine → Machine}
    (hid : id.index < c.machines.size) (hf : ∀ m : Machine, m.Gains (f m) gain)
    (hm : gain.motions = []) (hlt : ∀ inner ∈ gain.machines, id.index < inner.index)
    (hr : c.Reaches (.machine id) gain.transitions)
    (hd : ∀ m, (f m).defaultState = m.defaultState ∨
      ∃ s, (f m).defaultState = some s ∧ s.index < c.states.size) :
    (c.modifyMachine id f).Growing loose := by
  have hextends : c.Extends (c.modifyMachine id f) := .modifyMachine c id fun m =>
    ⟨fun x hx => (hf m).children.symm.subset (List.mem_append_left _ hx),
      fun x hx => (hf m).members.symm.subset (List.mem_append_left _ hx)⟩
  have hsize : (c.modifyMachine id f).machines.size = c.machines.size := Array.size_modify
  have hmachine := machine_modifyMachine hid f
  refine { h with
    machines := ?machines
    states := ?states
    transitions := ?transitions
    records := ?records
    motions := ?motions
    motions_lt := ?motions_lt
    machine_lt := ?machine_lt
    defaults_lt := ?defaults_lt
    destinations := ?destinations }
  case machines =>
    rw [hsize]
    exact perm_gain (perm_gain_right (flatMap_modify_perm (fun _ => hid) fun m => (hf m).children))
      h.machines
  case states =>
    exact perm_gain (flatMap_modify_perm (fun _ => hid) fun m => (hf m).members) h.states
  case transitions =>
    exact perm_gain (perm_gain_left (flatMap_modify_perm (fun _ => hid) fun m => (hf m).listed))
      h.transitions
  case records =>
    exact perm_gain (perm_gain_left (flatMap_modify_perm (fun _ => hid) fun m => (hf m).records))
      h.records
  case motions =>
    have hmotions := h.motions
    rwa [Loose.and, hm] at hmotions
  case motions_lt =>
    have hmotions := h.motions_lt
    rwa [Loose.and, hm] at hmotions
  case machine_lt =>
    intro outer inner hi
    rw [hmachine] at hi
    split at hi
    · rename_i heq
      subst heq
      rcases List.mem_append.1 ((hf _).children.subset hi) with hi | hi
      · exact h.machine_lt _ _ hi
      · exact hlt inner hi
    · exact h.machine_lt _ _ hi
  case defaults_lt =>
    intro m hmem s hs
    rcases mem_modify hmem with hold | ⟨m, hold, rfl⟩
    · exact h.defaults_lt m hold s hs
    · rcases hd m with heq | ⟨s', heq, hlt⟩
      · exact h.defaults_lt m hold s (heq ▸ hs)
      · cases hs.symm.trans heq
        exact hlt
  case destinations =>
    refine h.destinations_gain hextends hr rfl ?_ ?_
    · rintro (j | j) hne
      · exact List.Subset.refl _
      · rw [transitionsAt, hmachine, if_neg fun heq : id = j => hne (heq ▸ rfl)]
        exact List.Subset.refl _
    · rw [transitionsAt, hmachine, if_pos rfl]
      exact (hf _).listed.subset

/-- A state takes nodes in. -/
theorem modifyState (h : c.Growing (gain.and loose)) {id : StateId} {f : State → State}
    (hid : gain.transitions ≠ [] ∨ gain.records ≠ [] → id.index < c.states.size)
    (hf : ∀ st : State, st.Gains (f st) gain) (hm : gain.machines = [] ∧ gain.states = [])
    (hr : c.Reaches (.state id) gain.transitions) :
    (c.modifyState id f).Growing loose := by
  have hsize : (c.modifyState id f).states.size = c.states.size := Array.size_modify
  have hmotions : ((c.modifyState id f).placedMotions ++ loose.motions).Subperm
      (c.placedMotions ++ (gain.motions ++ loose.motions)) := by
    rw [← List.append_assoc]
    refine (List.subperm_append_right _).2 (subperm_gain_left ?_)
    exact flatMap_modify_subperm fun st => (hf st).motion
  refine { h with
    machines := ?machines
    states := ?states
    transitions := ?transitions
    records := ?records
    motions := nodup_of_subperm hmotions h.motions
    motions_lt := fun m hm => h.motions_lt m (hmotions.subset hm)
    defaults_lt := fun m hm s hs => hsize ▸ h.defaults_lt m hm s hs
    destinations := ?destinations }
  case machines =>
    have hmachines := h.machines
    rwa [Loose.and, hm.1] at hmachines
  case states =>
    have hstates := h.states
    rw [Loose.and, hm.2] at hstates
    rw [hsize]
    exact hstates
  case transitions =>
    exact perm_gain (perm_gain_right (flatMap_modify_perm (fun hne => hid (.inl hne))
      fun m => (hf m).transitions)) h.transitions
  case records =>
    exact perm_gain (perm_gain_right (flatMap_modify_perm (fun hne => hid (.inr hne))
      fun m => (hf m).records)) h.records
  case destinations =>
    refine h.destinations_gain (.of_eq rfl rfl) hr rfl ?_ ?_
    · rintro (j | j) hne
      · rw [transitionsAt, state_modifyState, if_neg fun heq : id = j ∧ _ => hne (heq.1 ▸ rfl)]
        exact List.Subset.refl _
      · exact List.Subset.refl _
    · rw [transitionsAt, state_modifyState]
      split
      · exact (hf _).transitions.subset
      · exact List.subset_append_left _ _

/-- A motion takes motions in. -/
theorem modifyMotion (h : c.Growing (gain.and loose)) {id : MotionId} {f : Motion → Motion}
    (hf : ∀ m, (Motion.childMotions (f m)).Subperm (Motion.childMotions m ++ gain.motions))
    (hm : gain = { motions := gain.motions })
    (hlt : ∀ child ∈ gain.motions, id.index < child.index) :
    (c.modifyMotion id f).Growing loose := by
  have hsize : (c.modifyMotion id f).motions.size = c.motions.size := Array.size_modify
  have hmotions : ((c.modifyMotion id f).placedMotions ++ loose.motions).Subperm
      (c.placedMotions ++ (gain.motions ++ loose.motions)) := by
    rw [← List.append_assoc, placedMotions, placedMotions, List.append_assoc _ _ gain.motions]
    exact (List.subperm_append_right _).2
      ((List.subperm_append_left _).2 (flatMap_modify_subperm hf))
  rw [hm] at h
  refine { h with
    motions := nodup_of_subperm hmotions h.motions
    motions_lt := fun m hm => hsize ▸ h.motions_lt m (hmotions.subset hm)
    motion_lt := ?motion_lt
    destinations := ?destinations }
  case motion_lt =>
    intro tree child hc
    simp only [motion, Controller.modifyMotion, getD_modify_eq] at hc
    split at hc
    · rename_i heq
      rcases List.mem_append.1 ((hf _).subset hc) with hc | hc
      · exact h.motion_lt tree child hc
      · exact heq.1 ▸ hlt child hc
    · exact h.motion_lt tree child hc
  case destinations =>
    exact h.destinations_mono (.of_eq rfl rfl) (fun _ => rfl) fun _ => List.Subset.refl _

/-! ## Changing nodes -/

theorem modifyLayer (h : c.Growing loose) (i : Nat) {f : Layer → Layer}
    (hf : ∀ l, (f l).machine = l.machine ∧
      ((f l).synced = l.synced ∨ ∃ j, (f l).synced = some j ∧ j < c.layers.size)) :
    (c.modifyLayer i f).Growing loose := by
  have hsize : (c.modifyLayer i f).layers.size = c.layers.size := Array.size_modify
  have hroots : (c.modifyLayer i f).rootMachines = c.rootMachines := by
    simp only [rootMachines, Controller.modifyLayer, ← Array.toList_map,
      map_modify _ _ _ _ fun l => (hf l).1]
  refine { h with
    machines := hroots ▸ h.machines
    synced_lt := ?synced_lt
    destinations := h.destinations_mono (.modifyLayer c i fun l => (hf l).1) (fun _ => rfl)
      fun _ => List.Subset.refl _ }
  case synced_lt =>
    intro l hl j hj
    rw [hsize]
    rcases mem_modify hl with hold | ⟨l, hold, rfl⟩
    · exact h.synced_lt l hold j hj
    · rcases (hf l).2 with heq | ⟨k, heq, hlt⟩
      · exact h.synced_lt l hold j (heq ▸ hj)
      · cases hj.symm.trans heq
        exact hlt

theorem modifyRecord (h : c.Growing loose) (id : RecordId) (f : Record → Record) :
    (c.modifyRecord id f).Growing loose := by
  have hsize : (c.modifyRecord id f).records.size = c.records.size := Array.size_modify
  exact { h with
    records := hsize ▸ h.records
    destinations := h.destinations_mono (.of_eq rfl rfl) (fun _ => rfl)
      fun _ => List.Subset.refl _ }

theorem addParameter (h : c.Growing loose) {p : Parameter} (hname : p.name ≠ "")
    (hnew : p.name ∉ c.parameters.map (·.name)) :
    Growing { c with parameters := c.parameters ++ [p] } loose := by
  refine { h with
    parameters := ?parameters
    named := ?named
    destinations := h.destinations_mono (.of_eq rfl rfl) (fun _ => rfl)
      fun _ => List.Subset.refl _ }
  case parameters =>
    rw [List.map_append]
    exact List.nodup_append_comm.1 (List.nodup_cons.2 ⟨hnew, h.parameters⟩)
  case named =>
    intro q hq
    rcases List.mem_append.1 hq with hq | hq
    · exact h.named q hq
    · exact List.mem_singleton.1 hq ▸ hname

/-! ## Adding nodes -/

end Growing

theorem perm_new {ι : Type} {mk : Nat → ι} {xs rest : List ι} {size : Nat}
    (h : (xs ++ rest).Perm ((List.range size).map mk)) :
    (xs ++ mk size :: rest).Perm ((List.range (size + 1)).map mk) := by
  rw [List.range_succ, List.map_append]
  exact (List.perm_middle.trans (h.cons _)).trans (List.perm_append_singleton _ _).symm

namespace Growing

theorem addMachine (h : c.Growing loose) (name : String) :
    (c.addMachine { name }).2.Growing
      (Loose.and { machines := [⟨c.machines.size⟩] } loose) := by
  have blank {β : Type} {g : Machine → List β} (hg : g { name } = []) :
      ((c.addMachine { name }).2.machines.toList.flatMap g) = c.machines.toList.flatMap g := by
    rw [Controller.addMachine, flatMap_push, hg, List.append_nil]
  have hsize : (c.addMachine { name }).2.machines.size = c.machines.size + 1 := Array.size_push _
  have hmachine (j : MachineId) : (c.addMachine { name }).2.machine j =
      if j.index = c.machines.size then { name } else c.machine j := by
    simp only [machine, Controller.addMachine, getD_push_size]
  refine { h with
    machines := ?machines
    states := ?states
    transitions := ?transitions
    records := ?records
    machine_lt := ?machine_lt
    defaults_lt := ?defaults_lt
    destinations := ?destinations }
  case machines =>
    rw [hsize]
    refine perm_new ?_
    rw [childMachines, blank rfl]
    exact h.machines
  case states =>
    rw [childStates, blank rfl]
    exact h.states
  case transitions =>
    rw [listedTransitions, blank rfl]
    exact h.transitions
  case records =>
    rw [listedRecords, blank rfl]
    exact h.records
  case machine_lt =>
    intro outer inner hi
    rw [hmachine] at hi
    split at hi
    · cases hi
    · exact h.machine_lt outer inner hi
  case defaults_lt =>
    intro m hm s hs
    rcases Array.mem_push.1 hm with hm | rfl
    · exact h.defaults_lt m hm s hs
    · cases hs
  case destinations =>
    refine h.destinations_mono (.addMachine c _) (fun _ => rfl) ?_
    rintro (j | j)
    · exact List.Subset.refl _
    · rw [transitionsAt, hmachine]
      split
      · exact List.nil_subset _
      · exact List.Subset.refl _

/-- A machine without a place becomes the root of a new layer. -/
theorem addLayer {l : Layer} (h : c.Growing (Loose.and { machines := [l.machine] } loose))
    (hs : l.synced = none) : (c.addLayer l).2.Growing loose := by
  have hroots : (c.addLayer l).2.rootMachines = c.rootMachines ++ [l.machine] := by
    simp [rootMachines, Controller.addLayer]
  refine { h with
    machines := ?machines
    synced_lt := ?synced_lt
    destinations := h.destinations_mono (.addLayer c l) (fun _ => rfl)
      fun _ => List.Subset.refl _ }
  case machines =>
    rw [hroots]
    exact perm_gain (perm_gain_left (.refl _)) h.machines
  case synced_lt =>
    intro l' hl j hj
    have hsize : (c.addLayer l).2.layers.size = c.layers.size + 1 := Array.size_push _
    rw [hsize]
    rcases Array.mem_push.1 hl with hl | rfl
    · exact Nat.lt_succ_of_lt (h.synced_lt l' hl j hj)
    · cases hs.symm.trans hj

theorem addState (h : c.Growing loose) (name : String) :
    (c.addState { name }).2.Growing (Loose.and { states := [⟨c.states.size⟩] } loose) := by
  have blank {β : Type} {g : State → List β} (hg : g { name } = []) :
      ((c.addState { name }).2.states.toList.flatMap g) = c.states.toList.flatMap g := by
    rw [Controller.addState, flatMap_push, hg, List.append_nil]
  have hsize : (c.addState { name }).2.states.size = c.states.size + 1 := Array.size_push _
  have hstate (j : StateId) : (c.addState { name }).2.state j =
      if j.index = c.states.size then { name } else c.state j := by
    simp only [state, Controller.addState, getD_push_size]
  have hplaced : (c.addState { name }).2.placedMotions = c.placedMotions := by
    rw [placedMotions, blank rfl]
    rfl
  refine { h with
    states := ?states
    transitions := ?transitions
    records := ?records
    motions := hplaced ▸ h.motions
    motions_lt := hplaced ▸ h.motions_lt
    defaults_lt := ?defaults_lt
    destinations := ?destinations }
  case states =>
    rw [hsize]
    exact perm_new h.states
  case transitions =>
    rw [listedTransitions, blank rfl]
    exact h.transitions
  case records =>
    rw [listedRecords, blank rfl]
    exact h.records
  case defaults_lt =>
    intro m hm s hs
    rw [hsize]
    exact Nat.lt_succ_of_lt (h.defaults_lt m hm s hs)
  case destinations =>
    refine h.destinations_mono (.of_eq rfl rfl) (fun _ => rfl) ?_
    rintro (j | j)
    · rw [transitionsAt, hstate]
      split
      · exact List.nil_subset _
      · exact List.Subset.refl _
    · exact List.Subset.refl _

theorem addRecord (h : c.Growing loose) (record : Record) :
    (c.addRecord record).2.Growing (Loose.and { records := [⟨c.records.size⟩] } loose) := by
  have hsize : (c.addRecord record).2.records.size = c.records.size + 1 := Array.size_push _
  refine { h with
    records := ?records
    destinations := h.destinations_mono (.of_eq rfl rfl) (fun _ => rfl)
      fun _ => List.Subset.refl _ }
  case records =>
    rw [hsize]
    exact perm_new h.records

theorem addTransition (h : c.Growing loose) (t : Transition) :
    (c.addTransition t).2.Growing
      (Loose.and { transitions := [⟨c.transitions.size⟩] } loose) := by
  have hsize : (c.addTransition t).2.transitions.size = c.transitions.size + 1 :=
    Array.size_push _
  refine { h with
    transitions := ?transitions
    destinations := ?destinations }
  case transitions =>
    rw [hsize]
    exact perm_new h.transitions
  case destinations =>
    intro node id hid
    obtain ⟨layer, hn, hd⟩ := h.destinations node id hid
    have hold : (c.addTransition t).2.transition id = c.transition id := by
      simp only [transition, Controller.addTransition, getD_push_size]
      refine if_neg fun heq => ?_
      have hmem := h.transitions.subset (List.mem_append_left _ (mem_listedTransitions hid))
      exact absurd ((mem_ids (fun _ => rfl) (fun _ => rfl)).1 hmem)
        (heq ▸ Nat.lt_irrefl _)
    have hextends : c.Extends (c.addTransition t).2 := .of_eq rfl rfl
    exact ⟨layer, hn.mono hextends, hold ▸ hd.mono hextends⟩

theorem addMotion (h : c.Growing loose) {m : Motion} (hm : Motion.childMotions m = []) :
    (c.addMotion m).2.Growing (Loose.and { motions := [⟨c.motions.size⟩] } loose) := by
  have hsize : (c.addMotion m).2.motions.size = c.motions.size + 1 := Array.size_push _
  have hplaced : (c.addMotion m).2.placedMotions = c.placedMotions := by
    rw [placedMotions, Controller.addMotion, flatMap_push, hm, List.append_nil]
    rfl
  have hlt : ∀ id ∈ c.placedMotions ++ loose.motions, id.index < c.motions.size := h.motions_lt
  refine { h with
    motions := ?motions
    motions_lt := ?motions_lt
    motion_lt := ?motion_lt
    destinations := h.destinations_mono (.of_eq rfl rfl) (fun _ => rfl)
      fun _ => List.Subset.refl _ }
  case motions =>
    rw [hplaced]
    refine (List.perm_middle.nodup_iff).2 (List.nodup_cons.2 ⟨fun hmem => ?_, h.motions⟩)
    exact absurd (hlt _ hmem) (Nat.lt_irrefl _)
  case motions_lt =>
    intro id hid
    rw [hplaced] at hid
    rw [hsize]
    rcases List.mem_cons.1 (List.perm_middle.subset hid) with rfl | hid
    · exact Nat.lt_succ_self _
    · exact Nat.lt_succ_of_lt (hlt id hid)
  case motion_lt =>
    intro tree child hc
    simp only [motion, Controller.addMotion, getD_push_size] at hc
    split at hc
    · rw [hm] at hc
      cases hc
    · exact h.motion_lt tree child hc

end Growing

end Controller

end MotionScript
