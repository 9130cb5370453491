import MotionScript.Proofs.Feeding.Additions
import MotionScript.Proofs.Graph.Paths
/-!
# Reading items of machines

A state, a nested machine and a record are read back as items of the machine they are written in.
-/

namespace MotionScript

open Canonical (Line)

/-! ## Blank lines -/

/-- Blank lines have no pieces. -/
theorem Spells.of_filter {ls : List Line} {ps : List Piece}
    (h : Spells (ls.filter (· ≠ .blank)) ps) : Spells ls ps := by
  induction ls generalizing ps with
  | nil => exact h
  | cons l ls ih =>
    by_cases hl : l = .blank
    · subst hl
      exact .cons .blank (ih h)
    · rw [List.filter_cons_of_pos (by simpa using hl)] at h
      cases h with
      | cons hl hs => exact .cons hl (ih hs)

theorem Spells.filter {ls : List Line} {ps : List Piece} (h : Spells ls ps) :
    Spells (ls.filter (· ≠ .blank)) ps := by
  induction h with
  | nil => exact .nil
  | @cons l ls ps qs hl hs ih =>
    cases hl with
    | blank => exact ih
    | text depth hc hr => exact .cons (.text depth hc hr) ih

/-- Blocks that are set apart are spelled like the lines without blank ones between them. -/
theorem Spells.setApart {lines more : List Line} {blocks : List (List Line)} {ps : List Piece}
    (h : Spells (lines ++ (blocks.flatten ++ more)) ps) :
    Spells (Canonical.setApart lines blocks ++ more) ps := by
  have hflat (blocks : List (List Line)) :
      (blocks.flatMap (Line.blank :: ·)).filter (· ≠ .blank) = blocks.flatten.filter (· ≠ .blank) := by
    induction blocks with
    | nil => rfl
    | cons block blocks ih =>
      rw [List.flatMap_cons, List.flatten_cons, List.filter_append, List.filter_append, ih]
      rfl
  refine .of_filter ?_
  have hset : (Canonical.setApart lines blocks ++ more).filter (· ≠ .blank) =
      (lines ++ (blocks.flatten ++ more)).filter (· ≠ .blank) := by
    cases blocks with
    | nil => simp [Canonical.setApart]
    | cons block blocks =>
      have := hflat blocks
      simp only [Canonical.setApart]
      split
      · simp_all
      · simp_all
  rw [hset]
  exact h.filter

/-! ## What has been read -/

variable {c : Controller} {layer : Nat} {O : Outline} {G : List Pending}

/-- Whether a node of a layer is found by the path of another one. -/
def Controller.Found (c : Controller) (layer : Nat) (O : Outline) (node node' : NodeRef) : Prop :=
  ∃ path, c.HasPath layer node path ∧ O.lookup? layer path = some node'

/-- Whether transitions wait in the block of a machine. -/
def Controller.Waiting (c : Controller) (layer : Nat) (owner : MachineId) (ids : List TransitionId)
    (gs : List Pending) : Prop :=
  ∃ scope any, scope.layer = layer ∧ scope.machine = owner ∧
    TransitionRule.QueuesAll c.nodePaths scope any (ids.map c.transition) gs

/-- Whether a state has been read back, where `G` are all waiting transitions. -/
structure ReadState (c : Controller) (layer : Nat) (O : Outline) (G : List Pending)
    (owner : MachineId) (s s' : StateId) : Prop where
  back : ∀ c' : Controller, c'.unlinked = O.controller →
    (c.state s).ReadAs c c' (O.controller.state s')
  found : c.Found layer O (.state s) (.state s')
  transitions : c.Waiting layer owner (c.state s).transitions (G.filter (·.home = .state s'))

/-- Whether a machine has been read back, what is nested in it aside. -/
structure ReadMachine (c : Controller) (layer : Nat) (O : Outline) (G : List Pending)
    (m m' : MachineId) : Prop where
  name : (O.controller.machine m').name = (c.machine m).name
  found : c.Found layer O (.machine m) (.machine m')
  defaultState : Option.Rel (fun s s' => c.Found layer O (.state s) (.state s'))
    (c.machine m).defaultState (O.controller.machine m').defaultState
  records : (O.controller.machine m').records.map O.controller.record =
    (c.machine m).records.map c.record
  entry : c.Waiting layer m' (c.machine m).entryTransitions (G.filter (·.home = .entry m'))
  any : c.Waiting layer m' (c.machine m).anyTransitions (G.filter (·.home = .any m'))

/-- Whether a machine has been read back with all that is nested in it. -/
def ReadTree (c : Controller) (layer : Nat) (O : Outline) (G : List Pending) :
    MachineId → MachineId → Prop :=
  Controller.Matches c O.controller (ReadMachine c layer O G) (ReadState c layer O G)

/-- Whether an item of a machine has been read back. -/
inductive ReadItem (c : Controller) (layer : Nat) (O : Outline) (G : List Pending)
    (owner : MachineId) : Item → Item → Prop where
  | state {s s' : StateId} (h : ReadState c layer O G owner s s') :
    ReadItem c layer O G owner (.state s) (.state s')
  | machine {m m' : MachineId} (h : ReadTree c layer O G m m') :
    ReadItem c layer O G owner (.machine m) (.machine m')
  | record {r r' : RecordId} (h : O.controller.record r' = c.record r) :
    ReadItem c layer O G owner (.record r) (.record r')

/-- Whether an entry of a journal is that of a controller in the same place. -/
inductive ReadEntry (c : Controller) (O : Outline) : Entry → Entry → Prop where
  | declare {layer : Nat} {path : Path} {node node' : NodeRef} (hp : c.HasPath layer node path)
    (hn : O.lookup? layer path = some node') :
    ReadEntry c O (.declare (layer, path, node)) (.declare (layer, path, node'))
  | close {layer : Nat} {m m' : MachineId} {parent parent' : Option MachineId}
    (hm : c.Found layer O (.machine m) (.machine m'))
    (hp : Option.Rel (fun o o' => c.Found layer O (.machine o) (.machine o')) parent parent') :
    ReadEntry c O (.close m parent) (.close m' parent')

/-! ## Controllers that can be written -/

namespace Controller

/-- Whether a machine is that of a layer. -/
def isRoot (c : Controller) (layer : Nat) (id : MachineId) : Bool :=
  c.layers[layer]?.map (·.machine) = some id

/-- Whether a destination is exit or a node of a layer below its machine. -/
def LeadsBelow (c : Controller) (layer : Nat) (d : Destination) : Prop :=
  d = .exit ∨ ∃ node, d = NodeRef.destination node ∧ c.InLayer layer node ∧
    ∀ id, node = .machine id → c.isRoot layer id = false

/-- Whether a transition can be written in a layer. -/
structure TransitionWritable (c : Controller) (layer : Nat) (t : Transition) : Prop
    extends TransitionRule.Writable t where
  destination : c.LeadsBelow layer t.destination

/-- Whether a machine can be written in a layer. -/
structure MachineWritable (c : Controller) (registry : Registry) (layer : Nat) (id : MachineId) :
    Prop where
  names : ((c.machine id).members.map (fun s => (c.state s).name) ++
    (c.machine id).children.map fun m => (c.machine m).name).Nodup
  defaultState : ∀ s, (c.machine id).defaultState = some s → s ∈ (c.machine id).members
  transitions : ∀ t ∈ (c.machine id).listed, c.TransitionWritable layer (c.transition t)
  records : ∀ r ∈ (c.machine id).records,
    (c.record r).Writable registry (MachineRule.words (c.isRoot layer id))

/-- Whether the layers, machines and states of a controller can be written. -/
structure TreeWritable (c : Controller) (registry : Registry) : Prop extends Forest c where
  machine : ∀ layer id, c.InLayer layer (.machine id) → c.MachineWritable registry layer id
  state : ∀ layer id, c.InLayer layer (.state id) → c.StateWritable registry (c.state id) ∧
    ∀ t ∈ (c.state id).transitions, c.LeadsBelow layer (c.transition t).destination

/-! ### Destinations -/

/-- The layer of a path is its first segment. -/
theorem HasPath.head? {node : NodeRef} {path : Path} (h : c.HasPath layer node path) :
    ∃ l, c.layers[layer]? = some l ∧ path.segments.head? = some l.name := by
  induction h with
  | root hl => exact ⟨_, hl, rfl⟩
  | machine _ _ ih | state _ _ ih =>
    obtain ⟨l, hl, hhead⟩ := ih
    exact ⟨l, hl, by simp [Path.join, List.head?_append, hhead]⟩

/-- A destination below the machine of the layer is written with the path of the layer in front. -/
theorem LeadsBelow.within (h : c.Forest) {scope : Scope} {node : NodeRef}
    (hp : c.HasPath layer node scope.path) {d : Destination} (hd : c.LeadsBelow layer d) :
    ∃ path, TransitionRule.Within c.nodePaths scope d path := by
  rcases hd with rfl | ⟨node, rfl, hn, hroot⟩
  · exact ⟨none, rfl⟩
  · obtain ⟨path, hpath⟩ := hn.exists_path
    obtain ⟨l, hl, hhead⟩ := hp.head?
    obtain ⟨l', hl', hhead'⟩ := hpath.head?
    obtain rfl : l = l' := Option.some.inj (hl.symm.trans hl')
    refine ⟨some path, ⟨node, rfl, h.path?_eq_some.2 ⟨layer, hpath⟩⟩, ?_⟩
    obtain ⟨segments⟩ := path
    match segments, hhead', hpath with
    | a :: b :: ns, hhead', _ => exact ⟨a, b, ns, rfl, hhead.trans hhead'.symm⟩
    | [a], _, hpath =>
      -- Only the machine of the layer has a path of one segment.
      have hdepth : (⟨[a]⟩ : Path).depth = 1 := rfl
      generalize (⟨[a]⟩ : Path) = p at hpath hdepth
      cases hpath with
      | root hl => simpa [isRoot, hl] using hroot _ rfl
      | machine ho _ | state ho _ =>
        obtain ⟨m, -, hm⟩ := ho.head?
        rw [Path.depth_join, Nat.add_eq_right, Path.depth, List.length_eq_zero_iff] at hdepth
        rw [hdepth] at hm
        cases hm

end Controller

/-! ## States and records -/

/-- The transitions that wait for a list are those of one node if they have one home. -/
theorem filter_home_eq_self {gs : List Pending} {home : Home} (h : ∀ g ∈ gs, g.home = home) :
    gs.filter (·.home = home) = gs :=
  List.filter_eq_self.2 fun g hg => decide_eq_true (h g hg)

theorem homes_of_queues {paths : Controller.NodePaths} {scope : Scope} {any : Bool}
    {ts : List Transition} {gs : List Pending}
    (h : List.Forall₂ (TransitionRule.Queues paths scope any) ts gs) :
    ∀ g ∈ gs, g.home = TransitionRule.home scope any := by
  induction h with
  | nil => simp
  | cons hq _ ih => exact List.forall_mem_cons.2 ⟨hq.home, ih⟩

/-- A node with a new path is found by it. -/
theorem Outline.lookup?_append {o o' : Outline} {layer : Nat} {path : Path} {node : NodeRef}
    (hl : layer < o.symbols.size) (h : o.lookup? layer path = none)
    (ho : o'.symbols = o.symbols.modify layer (· ++ [(path, node)])) :
    o'.lookup? layer path = some node := by
  have htable : o'.symbols.getD layer [] = o.symbols.getD layer [] ++ [(path, node)] := by
    rw [ho]
    simp [Array.getD_eq_getD_getElem?, hl, Array.getElem_modify]
  rw [lookup?, htable, List.lookup_append, show (o.symbols.getD layer []).lookup path = none from h]
  simp

/-- A state is added to its machine. -/
theorem Adds.state {registry : Registry} (h : c.TreeWritable registry) {scope : Scope}
    {outer : MachineId} (hp : c.HasPath scope.layer (.machine outer) scope.path) {s : StateId}
    (hs : s ∈ (c.machine outer).members) {o : Outline}
    (hr : o.Ready scope [(c.state s).name]) (parent : Option MachineId) (depth : Nat) :
    Adds (.rootless registry) scope parent [(c.state s).name]
      (Canonical.state c c.nodePaths scope.path depth (c.state s)) o fun O G xs w =>
        (∃ x, xs = [x] ∧ ReadItem c scope.layer O G scope.machine (.state s) x) ∧
          List.Forall₂ (ReadEntry c O)
            [.declare (scope.layer, scope.path.join (c.state s).name, .state s)] w := by
  obtain ⟨hw, hleads⟩ := h.state _ s (hp.inLayer.state hs)
  have hfree := hr.free _ (List.mem_singleton_self _)
  obtain ⟨motions, records, st, gs, hk, hmotions, hrecords, hsame, hqueues⟩ :=
    Keeps.state hw hfree.lookup?_eq_none
      (fun id hid => (hleads id hid).within h.toForest hp) parent depth
  let id : StateId := ⟨o.controller.states.size⟩
  let o' := (((o.placeState scope (c.state s).name).withMotions motions).withRecords
    records).putState st
  have hhome : ∀ g ∈ gs, g.home = .state id := homes_of_queues hqueues.each
  have hlookup : o'.lookup? scope.layer (scope.path.join (c.state s).name) = some (.state id) :=
    Outline.lookup?_append hr.layer hfree.lookup?_eq_none rfl
  have hsize : o.controller.states.size < o'.controller.states.size := by
    show _ < (o.controller.states.push st).size
    simp
  refine ⟨o', [.state id], gs, _, hk, ?_, fun O G hO => ⟨⟨_, rfl, .state ⟨?_, ?_, ?_⟩⟩,
    .cons (.declare (hp.state hs) (hO.nodes _ _ _ hlookup)) .nil⟩⟩
  · refine ⟨?_, .push _ st, hmotions, hrecords, ⟨_, rfl, ?_⟩, rfl, fun g hg => ?_⟩
    · have hitems : (fun m : Machine => m.withItems [.state id]) =
          fun m => { m with states := m.states ++ [⟨id, none⟩] } := by
        funext m
        simp [Machine.withItems, Item.state?, Item.machine?, Item.record?]
      rw [hitems]
      exact .refl _
    · rw [List.forall_mem_singleton]
      exact ⟨_, List.mem_singleton_self _, List.prefix_refl _⟩
    · rw [hhome g hg]
      exact ⟨Nat.le_refl _, hsize⟩
  · intro c' hc'
    have hget : O.controller.states[o.controller.states.size]? = some st := by
      rw [hO.states _ (Nat.le_refl _) hsize]
      exact Array.getElem?_push_size
    have hst : O.controller.state id = st := by
      rw [Controller.state, Array.getD_eq_getD_getElem?, hget, Option.getD_some]
    rw [hst]
    have hmotions := hO.motions
    have hrecords := hO.records
    rw [← hc'] at hmotions hrecords
    exact hsame c' hmotions hrecords
  · exact ⟨_, hp.state hs, hO.nodes _ _ _ hlookup⟩
  · refine ⟨scope.ofState id (c.state s).name, false, rfl, rfl, ?_⟩
    rw [hO.groups (.state id) ⟨Nat.le_refl _, hsize⟩, filter_home_eq_self hhome]
    exact hqueues

/-- A record is added to its machine. -/
theorem Adds.record {registry : Registry} {scope : Scope} {parent : Option MachineId}
    {words : List String} (hblock : ∀ f, MachineRule.atItem scope parent f → f.Block scope words)
    (hscope : scope.state = none) {r : RecordId} (hw : (c.record r).Writable registry words)
    (o : Outline) (layer depth : Nat) :
    Adds (.rootless registry) scope parent [] (Canonical.record (c.record r) depth) o fun O G xs w =>
      (∃ x, xs = [x] ∧ ReadItem c layer O G scope.machine (.record r) x) ∧
        List.Forall₂ (ReadEntry c O) [] w := by
  let id : RecordId := ⟨o.controller.records.size⟩
  have hk := hw.keeps hblock o depth
  have hadd : o.addRecord scope (c.record r) = { o with
      controller := { o.controller with
        records := o.controller.records.push (c.record r)
        machines := o.controller.machines.modify scope.machine.index fun m =>
          { m with records := m.records ++ [id] } } } := by
    simp only [Outline.addRecord, hscope]
    rfl
  rw [hadd] at hk
  refine ⟨_, [.record id], [], [], hk, ?_, fun O G hO => ⟨⟨_, rfl, .record ?_⟩, .nil⟩⟩
  · refine ⟨?_, .refl _, .refl _, .push _ _, ?_, rfl, by simp⟩
    · have hitems : (fun m : Machine => m.withItems [.record id]) =
          fun m => { m with records := m.records ++ [id] } := by
        funext m
        simp [Machine.withItems, Item.state?, Item.machine?, Item.record?]
      rw [hitems]
      exact .refl _
    · exact (Outline.Grows.refl scope o).symbols
  · have hget : O.controller.records[o.controller.records.size]? = some (c.record r) := by
      rw [hO.records _ (Nat.le_refl _) (by simp)]
      exact Array.getElem?_push_size
    rw [Controller.record, Array.getD_eq_getD_getElem?, hget, Option.getD_some]

end MotionScript
