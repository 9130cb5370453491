import MotionScript.Proofs.Feeding.Bodies
/-!
# Reading machines

A machine is read back with all that is nested in it. Nesting is followed as deep as it is, since a
forest is no deeper than it has machines.
-/

namespace MotionScript

open Canonical (Line lineFor)

variable {κ : Knowledge}

/-! ## Nested machines -/

/-- The scope of the items of a nested machine. -/
def Scope.ofMachine (scope : Scope) (id : MachineId) (name : String) : Scope :=
  ⟨scope.hint ++ [name], scope.layer, id, none, scope.path.join name⟩

/-- An outline in which the next machine is the last child of a machine and found by its path. -/
def Outline.placeMachine (o : Outline) (scope : Scope) (name : String) : Outline :=
  { o with
    controller := (o.controller.addMachine { name }).2.modifyMachine scope.machine fun m =>
      { m with machines := m.machines ++ [⟨⟨o.controller.machines.size⟩, none⟩] }
    symbols := o.symbols.modify scope.layer
      (· ++ [(scope.path.join name, .machine ⟨o.controller.machines.size⟩)]) }

/-- The name of a nested machine adds it. -/
theorem MachineRule.react_name {η : Type} [Host η] {s : Session η} {scope : Scope} {name : String}
    {o : Outline} (hs : s.outline = o)
    (hnew : o.lookup? scope.layer (scope.path.join name) = none) {e : Event}
    (he : e.Is (.name name)) :
    ∃ s', react e s (unnamed true (some scope)) =
        .ok (named ⟨scope.ofMachine ⟨o.controller.machines.size⟩ name, some scope.machine, none⟩
          .openBrace, s', none) ∧
      s'.outline = o.placeMachine scope name := by
  subst hs
  have hsize : s.outline.controller.machines.size = s.controller.machines.size := by
    simp [Session.outline]
  let place (m : Machine) : Machine :=
    { m with machines := m.machines ++ [⟨⟨s.controller.machines.size⟩, none⟩] }
  have hc : ((s.controller.addMachine { name }).2.modifyMachine scope.machine place).unlinked =
      (s.outline.controller.addMachine { name }).2.modifyMachine scope.machine place := by
    have hplace : ∀ m, (place m).unlinked = place m.unlinked := fun _ => rfl
    rw [Controller.unlinked_modifyMachine _ _ hplace, Controller.unlinked_addMachine]
    rfl
  rw [hsize]
  refine ⟨_, except_bind_ok.2 ⟨name, he.name_name _, rfl⟩, ?_⟩
  rw [Session.outline_persist, Session.outline_register]
  · simp only [Outline.placeMachine, hsize]
    exact congrArg (fun c => { s.outline with
      controller := c
      symbols := s.symbols.modify scope.layer
        (· ++ [(scope.path.join name, NodeRef.machine ⟨s.controller.machines.size⟩)]) }) hc
  · exact hnew

/-- Whether the body of a machine with a path is read back in a layer, if nesting is followed as deep
as `fuel`. -/
def Controller.BodyReads (c : Controller) (κ : Knowledge) (layer fuel : Nat) (id : MachineId)
    (path : Path) : Prop :=
  ∀ (scope : Scope) (parent : Option MachineId) {o₁ o₀ o : Outline} {options : List Line}
    (depth close : Nat), scope.layer = layer → scope.path = path → scope.state = none →
    parent.isNone = c.isRoot layer id → o₁.Opens scope (c.machine id).name o →
    (∀ names, o.Ready scope names) →
    Keeps κ options (MachineRule.atItem scope parent) o₀ o {} →
    ∃ ps o' gs w,
      Spells (Canonical.machineBody c c.nodePaths fuel id depth options ++
        [.text close "\x7d"]) ps ∧
      (∀ below rest, Leads κ ps (.machine (.named ⟨scope, parent, none⟩ .item) :: below :: rest) o₀
        (below :: rest) o' (⟨gs, w⟩ ++ MachineRule.ended scope parent)) ∧
      o.Fills scope o' gs ∧
      ∀ O G, o₁.Kept o' gs O G → ReadTree c layer O G id scope.machine ∧
        List.Forall₂ (ReadEntry c O) (c.walkBody layer fuel id path) w

section Nested

variable {c : Controller} {scope : Scope} {o o' : Outline} {name : String}
  {gs : List Pending}

theorem Outline.opens_placeMachine (hlt : scope.machine.index < o.controller.machines.size)
    (name : String) : o.Opens (scope.ofMachine ⟨o.controller.machines.size⟩ name) name
      (o.placeMachine scope name) where
  index := rfl
  machines := by simp [placeMachine, Controller.modifyMachine, Controller.addMachine]
  machine := by
    show ((o.controller.machines.push { name }).modify _ _)[o.controller.machines.size]? = _
    rw [Array.getElem?_modify, if_neg (Nat.ne_of_lt hlt), Array.getElem?_push_size]
  states := rfl
  motions := rfl
  records := rfl

/-- Any items can be read in the block of a new machine. -/
theorem Outline.ready_placeMachine (hr : o.Ready scope [name]) (names : List String) :
    (o.placeMachine scope name).Ready (scope.ofMachine ⟨o.controller.machines.size⟩ name)
      names where
  machine := (opens_placeMachine hr.machine name).index_lt
  layer := by
    show scope.layer < (o.symbols.modify _ _).size
    rw [Array.size_modify]
    exact hr.layer
  found := Outline.lookup?_append hr.layer
    (hr.free name (List.mem_singleton_self _)).lookup?_eq_none rfl
  free inner _ entry he hp := by
    have htable : (o.placeMachine scope name).symbols.getD scope.layer [] =
        o.symbols.getD scope.layer [] ++
          [(scope.path.join name, .machine ⟨o.controller.machines.size⟩)] := by
      simp [placeMachine, Array.getD_eq_getD_getElem?, hr.layer, Array.getElem_modify]
    have he : entry ∈ (o.placeMachine scope name).symbols.getD scope.layer [] := he
    rw [htable, List.mem_append, List.mem_singleton] at he
    rcases he with he | rfl
    · exact hr.free name (List.mem_singleton_self _) entry he
        ((List.prefix_append (scope.path.join name).segments [inner]).trans hp)
    · have := hp.length_le
      simp [Scope.ofMachine, Path.join] at this

/-- What the block of a nested machine adds to the machine around it. -/
theorem Outline.Fills.grows (hlt : scope.machine.index < o.controller.machines.size)
    (h : (o.placeMachine scope name).Fills (scope.ofMachine ⟨o.controller.machines.size⟩ name) o'
      gs) : o.Grows scope [name] o' [.machine ⟨o.controller.machines.size⟩] gs := by
  let id : MachineId := ⟨o.controller.machines.size⟩
  have hsize : o.controller.machines.size < o'.controller.machines.size :=
    Nat.lt_of_lt_of_le (opens_placeMachine hlt name).index_lt h.machines_size
  refine ⟨⟨?_, fun i _ hi => ?_⟩, h.states, h.motions, h.records, ?_, h.rest, fun g hg => ?_⟩
  · rw [Array.size_modify]
    exact Nat.le_of_lt hsize
  · have hitems : (fun m : Machine => m.withItems [.machine id]) =
        fun m => { m with machines := m.machines ++ [⟨id, none⟩] } := by
      funext m
      simp [Machine.withItems, Item.state?, Item.machine?, Item.record?]
    rw [Array.size_modify] at hi
    rw [h.machines i (Nat.zero_le _) hi, hitems]
    simp only [placeMachine, Controller.modifyMachine, Controller.addMachine,
      Array.getElem?_modify, Array.getElem?_push, if_neg (Nat.ne_of_lt hi), id]
  · obtain ⟨table, ht, hpaths⟩ := h.symbols
    refine ⟨(scope.path.join name, .machine id) :: table, ?_, ?_⟩
    · rw [ht]
      apply Array.ext
      · simp [placeMachine]
      · intro i _ _
        simp only [placeMachine, Scope.ofMachine, Array.getElem_modify]
        split <;> simp [id]
    · rw [List.forall_mem_cons]
      exact ⟨⟨name, List.mem_singleton_self _, List.prefix_refl _⟩,
        fun entry he => ⟨name, List.mem_singleton_self _, hpaths entry he⟩⟩
  · have hnew : ∀ home : Home, home.Added (o.placeMachine scope name) o' → home.Added o o' :=
      fun home hh => hh.mono_left (opens_placeMachine hlt name).smaller
    rcases h.homes g hg with hg | hg | hg
    · rw [hg]
      exact ⟨Nat.le_refl _, hsize⟩
    · rw [hg]
      exact ⟨Nat.le_refl _, hsize⟩
    · exact hnew _ hg

/-- The header of a nested machine leads to its items. -/
theorem leads_nested {name : String}
    (hfree : o.lookup? scope.layer (scope.path.join name) = none) (parent : Option MachineId)
    (default : Option NameUse) (rest : List Frame) :
    Leads κ [(Form.word "stateMachine").joined, (Form.name name).spaced,
        (Form.symbol '\x7b').spaced]
      (.machine (.named ⟨scope, parent, default⟩ .item) :: rest) o
      (.machine (.named ⟨scope.ofMachine ⟨o.controller.machines.size⟩ name, some scope.machine,
        none⟩ .item) :: .machine (.named ⟨scope, parent, default⟩ .item) :: rest)
      (o.placeMachine scope name)
      ⟨[], [.declare (scope.layer, scope.path.join name,
        .machine ⟨o.controller.machines.size⟩)]⟩ := by
  refine .header (f := .machine (.unnamed true none)) (.machine (.unnamed true (some scope)))
    (.machine (.named ⟨scope.ofMachine ⟨o.controller.machines.size⟩ name, some scope.machine,
      none⟩ .openBrace)) _ _ (Frame.quiet_machine _ _) (by simp) (fun e s he => ?_) (fun _ => rfl)
    (fun e t he ht => ⟨?_, ?_⟩) (fun e s he => ?_)
  · rw [Frame.react, MachineRule.react, MachineRule.reactItem_child (by simp) s he]
    rfl
  · obtain ⟨t', hreact, ht'⟩ := MachineRule.react_name ht hfree he
    exact ⟨t', by rw [Frame.react, hreact]; rfl, ht'⟩
  · subst ht
    simp [Grammar.Call.entries, Frame.declared?, Event.name_eq (he.name_name ""),
      Session.outline]
  · simp [Frame.react, Frame.lift, MachineRule.react, he.symbol_isSymbol, Except.map]

/-- A nested machine is added to the machine around it. -/
theorem Adds.machine (hf : c.Forest) {fuel : Nat} {outer m : MachineId}
    (hp : c.HasPath scope.layer (.machine outer) scope.path) (hm : m ∈ (c.machine outer).children)
    (h : c.BodyReads κ scope.layer fuel m (scope.path.join (c.machine m).name))
    (hroot : c.isRoot scope.layer m = false) (hr : o.Ready scope [(c.machine m).name])
    (parent : Option MachineId) (depth : Nat) :
    Adds κ scope parent [(c.machine m).name]
      (Line.text depth s!"stateMachine {Canonical.name (c.machine m).name} \x7b" ::
        Canonical.machineBody c c.nodePaths fuel m (depth + 1) [] ++ [.text depth "\x7d"])
      o fun O G xs w =>
        (∃ x, xs = [x] ∧ ReadItem c scope.layer O G scope.machine (.machine m) x) ∧
          List.Forall₂ (ReadEntry c O) (Item.walk c scope.layer outer scope.path
            (c.walkBody scope.layer fuel) (.machine m)) w := by
  let name := (c.machine m).name
  let id : MachineId := ⟨o.controller.machines.size⟩
  let inner := scope.ofMachine id name
  have hfree := (hr.free name (List.mem_singleton_self _)).lookup?_eq_none
  obtain ⟨ps, o', gs, w, hspells, hleads, hfills, hread⟩ :=
    h inner (some scope.machine) (depth + 1) depth rfl rfl rfl
      hroot.symm (Outline.opens_placeMachine hr.machine name)
      (Outline.ready_placeMachine hr) (.nil _ _)
  have hopen : Chunk s!"stateMachine {Canonical.name name} \x7b".toList
      [(Form.word "stateMachine").joined, (Form.name name).spaced, (Form.symbol '\x7b').spaced] :=
    ⟨by simp, by simp +decide⟩
  have hlines := (hopen.line depth).append hspells
  have hgrows := hfills.grows hr.machine
  refine ⟨o', [.machine id], gs, .declare (scope.layer, scope.path.join name, .machine id) ::
    w ++ [.close id (some scope.machine)], ⟨_, hlines, fun top rest htop => ?_⟩, hgrows,
    fun O G hO => ?_⟩
  · obtain ⟨default, rfl⟩ := htop
    have hall := (leads_nested hfree parent default rest).append (hleads _ rest)
    have htold : (⟨[], [.declare (scope.layer, scope.path.join name, .machine id)]⟩ ++
        (⟨gs, w⟩ ++ MachineRule.ended inner (some scope.machine)) : Told) =
          ⟨gs, .declare (scope.layer, scope.path.join name, .machine id) ::
            w ++ [.close id (some scope.machine)]⟩ :=
      congrArg (Told.mk · _) (List.append_nil gs)
    rwa [htold] at hall
  · obtain ⟨htree, hwalk⟩ := hread O G hO
    have houter : c.Found scope.layer O (.machine outer) (.machine scope.machine) :=
      ⟨_, hp, hO.nodes _ _ _ (hgrows.lookup? hr.found)⟩
    obtain ⟨path, hpath, hlookup⟩ := htree.own.found
    obtain rfl := (hf.path_unique hpath (hp.machine hm)).2
    exact ⟨⟨_, rfl, .machine htree⟩, .cons (.declare hpath hlookup)
      (List.rel_append hwalk (.cons (.close htree.own.found (.some houter)) .nil))⟩

end Nested

/-! ## All items -/

section Recursion

variable {c : Controller} {registry : Registry}

def Item.names (c : Controller) : Item → List String
  | .state s => [(c.state s).name]
  | .machine m => [(c.machine m).name]
  | .record _ => []

/-- The lines of an item of the machine at `scope`. -/
def Item.lines (c : Controller) (fuel : Nat) (scope : Path) (depth : Nat) : Item → List Line
  | .state s => Canonical.state c c.nodePaths scope depth (c.state s)
  | .machine m => Line.text depth s!"stateMachine {Canonical.name (c.machine m).name} \x7b" ::
      Canonical.machineBody c c.nodePaths fuel m (depth + 1) [] ++ [.text depth "\x7d"]
  | .record r => Canonical.record (c.record r) depth

/-- The body of a machine holds its items. -/
theorem Canonical.machineBody_succ (h : c.Forest) {layer : Nat} {id : MachineId} {path : Path}
    (hp : c.HasPath layer (.machine id) path) (fuel depth : Nat) (options : List Line) :
    ∃ blocks : List (List Line),
      blocks.flatten = (c.machine id).items.flatMap (Item.lines c fuel path depth) ∧
      machineBody c c.nodePaths (fuel + 1) id depth options = setApart (options ++
        lineFor (c.machine id).defaultState depth
          (fun id => s!"default {Canonical.name (c.state id).name};") ++
        statements c c.nodePaths path false depth (c.machine id).entryTransitions ++
        statements c c.nodePaths path true depth (c.machine id).anyTransitions) blocks := by
  refine ⟨_, ?_, by rw [machineBody, h.path?_eq_some.2 ⟨layer, hp⟩, Option.getD_some]⟩
  simp only [Machine.items, Machine.members, Machine.children, List.flatMap, List.map_append,
    List.flatten_append, List.map_map]
  rfl

theorem Machine.items_names (m : Machine) : m.items.flatMap (Item.names c) =
    m.members.map (fun s => (c.state s).name) ++ m.children.map fun m => (c.machine m).name := by
  have hrecords : m.records.flatMap (fun _ => ([] : List String)) = [] :=
    List.flatMap_eq_nil_iff.2 fun _ _ => rfl
  simp only [items, List.flatMap_append, List.flatMap_map, Item.names, hrecords, List.append_nil]
  rw [← List.map_eq_flatMap, ← List.map_eq_flatMap]

/-- A nested machine is not that of a layer. -/
theorem Controller.Forest.isRoot_child (h : c.Forest) (layer : Nat) {outer inner : MachineId}
    (hi : inner ∈ (c.machine outer).children) : c.isRoot layer inner = false := by
  refine decide_eq_false fun hroot => ?_
  obtain ⟨l, hl, rfl⟩ := Option.map_eq_some_iff.1 hroot
  refine List.disjoint_of_nodup_append h.machines ?_ (mem_childMachines hi)
  exact List.mem_map.2 ⟨l, Array.mem_def.1 (Array.mem_of_getElem? hl), rfl⟩

/-- The body of every machine of a layer is read back. -/
theorem Controller.TreeWritable.bodyReads (h : c.TreeWritable registry) {layer fuel : Nat}
    {id : MachineId} {path : Path} (hp : c.HasPath layer (.machine id) path)
    (hf : fuel + path.depth = c.machines.size + 1) :
    c.BodyReads (.rootless registry) layer fuel id path := by
  induction fuel generalizing id path with
  | zero =>
    have := hp.depth_le h.toForest
    omega
  | succ fuel ih =>
    intro scope parent o₁ o₀ o options depth close hlayer hpath hstate hroot hopen hr hoptions
    subst hlayer hpath
    have hw := h.machine _ _ hp.inLayer
    have hblock : ∀ f, MachineRule.atItem scope parent f →
        f.Block scope (MachineRule.words (c.isRoot scope.layer id)) := by
      rintro f ⟨default, rfl⟩
      rw [← hroot]
      exact MachineRule.block ⟨scope, parent, default⟩
    have hitems : Adds (.rootless registry) scope parent ((c.machine id).items.flatMap (Item.names c))
        ((c.machine id).items.flatMap (Item.lines c fuel scope.path depth)) o fun O G xs w =>
          List.Forall₂ (ReadItem c scope.layer O G scope.machine) (c.machine id).items xs ∧
            List.Forall₂ (ReadEntry c O) (c.walkBody scope.layer (fuel + 1) id scope.path) w := by
      refine Adds.flatMap (fun item hitem o hr => ?_) (hr _)
        (by rw [Machine.items_names]; exact hw.names)
      simp only [Machine.items, List.mem_append, List.mem_map] at hitem
      rcases hitem with (⟨s, hs, rfl⟩ | ⟨m, hm, rfl⟩) | ⟨r, hr', rfl⟩
      · exact Adds.state h hp hs hr parent depth
      · refine Adds.machine h.toForest hp hm (ih (hp.machine hm) ?_) (h.toForest.isRoot_child _ hm) hr parent
          depth
        rw [Path.depth_join]
        omega
      · exact Adds.record hblock hstate (hw.records r hr') o _ depth
    obtain ⟨blocks, hblocks, hbody⟩ := Canonical.machineBody_succ h.toForest hp fuel depth options
    rw [← hblocks] at hitems
    obtain ⟨ps, o', gs, w, hspells, hrest⟩ :=
      MachineRule.body_of_items h hp hstate hopen (hr []).found hoptions hitems depth close
    exact ⟨ps, o', gs, w, hbody ▸ hspells.setApart, hrest⟩

end Recursion

end MotionScript
