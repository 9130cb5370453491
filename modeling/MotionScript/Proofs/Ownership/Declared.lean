import MotionScript.Proofs.Graph.Paths
import MotionScript.Proofs.Ownership.Steady
/-!
# Declared nodes and their paths

A reading builds the path of a node when it declares it; the walk over the finished graph finds the
same paths again, for every node once. The default state of a machine is looked up by such a path.
-/

namespace MotionScript

/-! ## All nodes are declared -/

namespace Controller

def nodesUpTo (machines states : Nat) : List NodeRef :=
  (List.range machines).map (.machine ⟨·⟩) ++ (List.range states).map (.state ⟨·⟩)

/-- The machines and states of a graph. -/
def nodes (c : Controller) : List NodeRef := nodesUpTo c.machines.size c.states.size

theorem mem_nodes {c : Controller} {node : NodeRef} : node ∈ c.nodes ↔ c.Has node := by
  cases node <;>
  · simp only [nodes, nodesUpTo, Has, List.mem_append, List.mem_map, List.mem_range,
      NodeRef.machine.injEq, NodeRef.state.injEq, reduceCtorEq, and_false, exists_false, or_false,
      false_or]
    constructor
    · rintro ⟨i, hlt, rfl⟩
      exact hlt
    · exact fun hlt => ⟨_, hlt, rfl⟩

theorem nodup_nodesUpTo (machines states : Nat) : (nodesUpTo machines states).Nodup := by
  refine List.nodup_append.2 ⟨List.nodup_range.map ?_, List.nodup_range.map ?_, ?_⟩
  · rintro i j ⟨⟩
    rfl
  · rintro i j ⟨⟩
    rfl
  · intro x hx y hy heq
    obtain ⟨i, -, rfl⟩ := List.mem_map.1 hx
    obtain ⟨j, -, rfl⟩ := List.mem_map.1 hy
    cases heq

theorem nodesUpTo_machine (machines states : Nat) :
    (nodesUpTo (machines + 1) states).Perm (nodesUpTo machines states ++ [.machine ⟨machines⟩]) := by
  simp only [nodesUpTo, List.range_succ, List.map_append, List.append_assoc]
  exact List.perm_append_comm.append_left _

theorem nodesUpTo_state (machines states : Nat) :
    nodesUpTo machines (states + 1) = nodesUpTo machines states ++ [.state ⟨states⟩] := by
  simp [nodesUpTo, List.range_succ]

end Controller

/-- A journal declares every node once. -/
theorem Written.declares {a : Spot} {j : Journal} (h : Written a j) :
    (j.nodes.map (·.2.2)).Perm (Controller.nodesUpTo a.machineCount a.stateCount) := by
  induction h with
  | start => exact .refl _
  | @step a b j j' h hn ih =>
    rw [Journal.nodes_append, List.map_append]
    cases hn with
    | layer | machine =>
      exact (ih.append_right _).trans (Controller.nodesUpTo_machine _ _).symm
    | state =>
      rw [Controller.nodesUpTo_state]
      exact ih.append_right _
    | stay | stateEnd | queue | close => exact (List.append_nil _).symm ▸ ih

/-! ## The first node with a path -/

theorem exists_of_firstNode? {nodes : List Declared} {layer : Nat} {path : Path} {node : NodeRef}
    (h : firstNode? nodes layer path = some node) : (layer, path, node) ∈ nodes := by
  obtain ⟨d, hd, rfl⟩ := Option.map_eq_some_iff.1 h
  have hkey := List.find?_some hd
  simp only [decide_eq_true_eq] at hkey
  obtain ⟨rfl, rfl⟩ := hkey
  exact List.mem_of_find?_eq_some hd

/-- A node that is declared later does not hide an earlier one. -/
theorem firstNode?_mono {nodes : List Declared} {layer : Nat} {path : Path} {node : NodeRef}
    (h : firstNode? nodes layer path = some node) (more : List Declared) :
    firstNode? (nodes ++ more) layer path = some node := by
  obtain ⟨d, hd, rfl⟩ := Option.map_eq_some_iff.1 h
  rw [firstNode?, List.find?_append, hd]
  rfl

/-- The node that a path leads to is declared no later than any other node with the path. -/
theorem firstNode?_getElem {nodes : List Declared} {i : Nat} (hi : i < nodes.length) :
    ∃ k, ∃ hk : k ≤ i, nodes[k].1 = nodes[i].1 ∧ nodes[k].2.1 = nodes[i].2.1 ∧
      firstNode? nodes nodes[i].1 nodes[i].2.1 = some nodes[k].2.2 := by
  have hfound : (nodes.find? fun node => node.1 = nodes[i].1 ∧ node.2.1 = nodes[i].2.1).isSome :=
    List.find?_isSome.2 ⟨nodes[i], List.getElem_mem hi, by simp⟩
  obtain ⟨d, hd⟩ := Option.isSome_iff_exists.1 hfound
  obtain ⟨hkey, k, hk, rfl, hbefore⟩ := List.find?_eq_some_iff_getElem.1 hd
  have hle : k ≤ i := by
    by_contra hlt
    have := hbefore i (Nat.lt_of_not_le hlt)
    simp at this
  simp only [decide_eq_true_eq] at hkey
  exact ⟨k, hle, hkey.1, hkey.2, by rw [firstNode?, hd]; rfl⟩

/-! ## Declarations -/

namespace Controller

variable {c : Controller} {layer : Nat} {outer : MachineId} {path : Path}

theorem HasPath.newLayer (c : Controller) (name : String) :
    ((c.addMachine { name }).2.addLayer { name, machine := ⟨c.machines.size⟩ }).2.HasPath
      c.layers.size (.machine ⟨c.machines.size⟩) ⟨[name]⟩ := by
  refine .root (l := { name, machine := ⟨c.machines.size⟩ }) ?_
  simp [Controller.addLayer, Controller.addMachine]

theorem HasPath.newMachine (h : c.WellFormed) (hp : c.HasPath layer (.machine outer) path)
    (name : String) :
    ((c.addMachine { name }).2.modifyMachine outer fun m =>
      { m with machines := m.machines ++ [⟨⟨c.machines.size⟩, none⟩] }).HasPath layer
      (.machine ⟨c.machines.size⟩) (path.join name) := by
  have ho : outer.index < c.machines.size := h.has hp.inLayer
  have ho' : outer.index < (c.addMachine { name }).2.machines.size :=
    Nat.lt_of_lt_of_eq (Nat.lt_succ_of_lt ho) (Array.size_push _).symm
  have hnew := @HasPath.machine _ layer outer ⟨c.machines.size⟩ path
    (hp.mono h (Steady.newMachine c outer name).toRetains) (by
      rw [machine_modifyMachine ho', if_pos rfl]
      simp [Machine.children])
  have hname : (((c.addMachine { name }).2.modifyMachine outer fun m =>
      { m with machines := m.machines ++ [⟨⟨c.machines.size⟩, none⟩] }).machine
      ⟨c.machines.size⟩).name = name := by
    rw [machine_modifyMachine ho']
    split <;> simp only [Controller.machine, Controller.addMachine, getD_push_size, if_pos]
  rwa [hname] at hnew

theorem HasPath.newState (h : c.WellFormed) (hp : c.HasPath layer (.machine outer) path)
    (name : String) :
    ((c.addState { name }).2.modifyMachine outer fun m =>
      { m with states := m.states ++ [⟨⟨c.states.size⟩, none⟩] }).HasPath layer
      (.state ⟨c.states.size⟩) (path.join name) := by
  have ho : outer.index < (c.addState { name }).2.machines.size := h.has hp.inLayer
  have hnew := @HasPath.state _ layer outer ⟨c.states.size⟩ path
    (hp.mono h (Steady.newState c outer name).toRetains) (by
      rw [machine_modifyMachine ho, if_pos rfl]
      simp [Machine.members])
  have hname : (((c.addState { name }).2.modifyMachine outer fun m =>
      { m with states := m.states ++ [⟨⟨c.states.size⟩, none⟩] }).state ⟨c.states.size⟩).name =
      name := by
    simp only [Controller.state, Controller.addState, Controller.modifyMachine, getD_push_size,
      if_pos]
  rwa [hname] at hnew

end Controller

variable {η : Type} [Host η]

/-- The machine that a rule declares a node in. -/
def Frame.declaresIn? : Frame → Option Scope
  | .machine (.unnamed true outer) | .state (.unnamed outer) => outer
  | _ => none

/-- A node that has been declared has the path that was built for it. -/
theorem Frame.declared_hasPath {e : Event} {s s' : Session η} {f f' : Frame}
    {control : Control Frame} (hr : f.react e s = .ok (f', s', control))
    (hw : s.controller.WellFormed) (houter : ∀ scope ∈ f.declaresIn?,
      s.controller.HasPath scope.layer (.machine scope.machine) scope.path)
    {d : Declared} (hd : f.declared? e s = some d) : s'.controller.HasPath d.1 d.2.2 d.2.1 := by
  cases f with
  | document | parameter | transition | motion | record => cases hd
  | machine r =>
    cases Frame.react_move hr with
    | machine hr =>
      cases hr with
      | @layer outer name hname =>
        rw [Frame.declared?, hname] at hd
        cases hd
        exact (MachineRule.declareLayer_controller e name s).symm ▸ .newLayer s.controller name
      | @nested scope name hname =>
        rw [Frame.declared?, hname] at hd
        cases hd
        exact (MachineRule.declareNested_controller scope e name s).symm ▸
          (houter scope rfl).newMachine hw name
      | _ => cases hd
  | state r =>
    cases Frame.react_move hr with
    | state hr =>
      cases hr with
      | @declare scope name _ _ hname hdeclare =>
        cases hdeclare
        rw [Frame.declared?, hname] at hd
        cases hd
        simp only [Session.persist, Session.register_controller]
        exact (houter scope rfl).newState hw name
      | _ => cases hd

/-! ## Open machines -/

/-- What is known of a machine that has not ended. -/
structure OpenMachine.In (m : OpenMachine) (nodes : List Declared) : Prop where
  declared : (m.scope.layer, m.scope.path, .machine m.scope.machine) ∈ nodes
  /-- What is declared from now on is inside of it. -/
  deeper : ∀ layer path inner, (layer, path, .machine inner) ∈ nodes →
    m.scope.machine.index < inner.index → m.scope.path.depth < path.depth

theorem OpenMachine.In.append {m : OpenMachine} {nodes more : List Declared} (h : m.In nodes)
    (hmore : ∀ layer path inner, (layer, path, .machine inner) ∈ more →
      m.scope.path.depth < path.depth) : m.In (nodes ++ more) where
  declared := List.mem_append_left _ h.declared
  deeper layer path inner hmem hlt := (List.mem_append.1 hmem).elim
    (fun hmem => h.deeper layer path inner hmem hlt) (hmore layer path inner)

/-- The machines on a stack come after those that they are nested in. -/
theorem Stacked.index_le {m : OpenMachine} {x : MachineExpect} {rest : List Frame}
    (h : Stacked (.machine (.named m x) :: rest)) {outer : OpenMachine}
    (ho : outer ∈ openMachines rest) : outer.scope.machine.index < m.scope.machine.index := by
  induction rest generalizing m x with
  | nil => cases ho
  | cons g rest ih =>
    obtain ⟨hfit, hs⟩ := h
    cases hfit with
    | layer _ _ hp =>
      rw [hs.of_document rfl] at ho
      cases ho
    | machine _ next _ y hp hl hi =>
      rcases List.mem_cons.1 ho with rfl | ho
      · exact hi
      · exact Nat.lt_trans (ih hs ho) hi

/-! ## Moments -/

/-- What holds at every moment of a reading of the nodes declared so far. -/
structure Charted (stack : List Frame) (c : Controller) (nodes : List Declared) : Prop where
  paths : ∀ d ∈ nodes, c.HasPath d.1 d.2.2 d.2.1
  opened : ∀ m ∈ openMachines stack, m.In nodes
  /-- A default state is the first node with its name below the path of the machine, and a child of
  this machine or of an earlier one. -/
  defaults : ∀ id st, (c.machine id).defaultState = some st → ∃ layer path owner,
    c.HasPath layer (.machine id) path ∧ c.HasPath layer (.machine owner) path ∧
      st ∈ (c.machine owner).members ∧ owner.index ≤ id.index ∧
      firstNode? nodes layer (path.join (c.state st).name) = some (.state st)

namespace Charted

variable {stack parents : List Frame} {s s' : Session η} {nodes : List Declared}

omit [Host η] in
/-- The graph goes on growing, and further nodes are declared. -/
theorem steady {stack' : List Frame} (h : Charted stack s.controller nodes)
    (hw : s.controller.WellFormed) (hc : s.controller.Steady s'.controller)
    {more : List Declared} (hmore : ∀ d ∈ more, s'.controller.HasPath d.1 d.2.2 d.2.1)
    (hopened : ∀ m ∈ openMachines stack', m.In (nodes ++ more)) :
    Charted stack' s'.controller (nodes ++ more) where
  paths d hd := (List.mem_append.1 hd).elim (fun hd => (h.paths d hd).mono hw hc.toRetains) (hmore d)
  opened := hopened
  defaults id st hst := by
    obtain ⟨layer, path, owner, hid, ho, hmem, hle, hfirst⟩ :=
      h.defaults id st (hc.defaults id ▸ hst)
    have hname : (s'.controller.state st).name = (s.controller.state st).name :=
      (hc.names (.state st) (hw.has (ho.state hmem).inLayer)).2
    rw [← hname] at hfirst
    exact ⟨layer, path, owner, hid.mono hw hc.toRetains, ho.mono hw hc.toRetains,
      hc.states owner hmem, hle, firstNode?_mono hfirst more⟩

omit [Host η] in
/-- A machine that has been declared is open. -/
theorem newMachine {m : OpenMachine} (h : Charted stack s.controller nodes)
    (hw : s.controller.WellFormed) (hm : m.scope.machine.index = s.controller.machines.size) :
    m.In (nodes ++ [(m.scope.layer, m.scope.path, .machine m.scope.machine)]) where
  declared := by simp
  deeper layer path inner hmem hlt := by
    rcases List.mem_append.1 hmem with hmem | hmem
    · have hhas : inner.index < s.controller.machines.size := hw.has (h.paths _ hmem).inLayer
      omega
    · cases List.mem_singleton.1 hmem
      exact absurd hlt (Nat.lt_irrefl _)

theorem turn {e : Event} {f f' : Frame} {control : Control Frame}
    (h : Charted (f :: parents) s.controller nodes) (hw : s.controller.WellFormed)
    (hs : Stacked (f :: parents)) (hr : f.react e s = .ok (f', s', control)) :
    Charted (f' :: parents) s'.controller (nodes ++ (f.declared? e s).toList) := by
  obtain ⟨hfit, hstack⟩ := hs
  have houter : ∀ scope ∈ f.declaresIn?, ∃ m x rest, parents = .machine (.named m x) :: rest ∧
      scope = m.scope := by
    intro scope hscope
    generalize hb : parents.head? = below at hfit
    cases hfit with
    | machineName m x | stateName m x =>
      obtain ⟨rest, rfl⟩ := List.head?_eq_some_iff.1 hb
      exact ⟨m, x, rest, rfl, (Option.some.inj hscope).symm⟩
    | _ => cases hscope
  have hpath : ∀ scope ∈ f.declaresIn?,
      s.controller.HasPath scope.layer (.machine scope.machine) scope.path := by
    intro scope hscope
    obtain ⟨m, x, rest, rfl, rfl⟩ := houter scope hscope
    cases hfit with
    | machineName | stateName => exact h.paths _ (h.opened m List.mem_cons_self).declared
    | _ => cases hscope
  refine h.steady hw (Frame.react_growth hr).steady
    (fun d hd => Frame.declared_hasPath hr hw hpath (Option.mem_toList.1 hd)) fun m hm => ?_
  have ht := Frame.react_turn hr
  cases ht with
  | quiet hw hk ha hd =>
    rw [hd, Option.toList_none, List.append_nil]
    cases hk with
    | machine m' m'' x x' hscope =>
      rcases List.mem_cons.1 hm with rfl | hm
      · have hopen := h.opened m' List.mem_cons_self
        exact ⟨hscope ▸ hopen.declared, hscope ▸ hopen.deeper⟩
      · exact h.opened m (List.mem_cons_of_mem _ hm)
    | _ => exact h.opened m hm
  | statement r r' => exact (h.opened m hm).append (by rintro layer path inner ⟨⟩)
  | state scope name hn =>
    refine (h.opened m hm).append fun layer path inner hmem => ?_
    rw [Frame.declared?, hn] at hmem
    cases List.mem_singleton.1 hmem
  | layer outer name hn =>
    have hp : parents = [.document] := by
      refine hstack.of_document ?_
      generalize parents.head? = below at hfit
      cases hfit
      rfl
    subst hp
    rw [Frame.declared?, hn]
    cases List.mem_singleton.1 hm
    exact h.newMachine hw rfl
  | machine scope name hn =>
    obtain ⟨o, x, rest, rfl, rfl⟩ := houter scope rfl
    rw [Frame.declared?, hn]
    rcases List.mem_cons.1 hm with rfl | hm
    · exact h.newMachine hw rfl
    · refine (h.opened m hm).append fun layer path inner hmem => ?_
      cases List.mem_singleton.1 hmem
      rw [Path.depth_join]
      rcases List.mem_cons.1 hm with rfl | hrest
      · exact Nat.lt_succ_self _
      · have hdeeper := (h.opened m hm).deeper _ _ _ (h.opened o List.mem_cons_self).declared
          (hstack.index_le hrest)
        omega

theorem attach {f g : Frame} {forward : Bool} (h : Charted (f :: parents) s.controller nodes)
    (hs : Stacked (f :: parents)) (ha : f.Asks (some (.attach g forward))) :
    Charted ((g.onAttach f.context s).subject :: f :: parents)
      (g.onAttach f.context s).session.controller nodes := by
  obtain ⟨g', hg, -, hm, -⟩ := ha.attach s hs.1
  rw [hg]
  refine ⟨h.paths, fun m hmem => h.opened m ?_, h.defaults⟩
  rwa [openMachines, List.filterMap_cons, hm] at hmem

/-- The default state of a machine is set when the machine ends. -/
theorem linkDefault (h : Charted stack s.controller nodes) (hw : s.controller.WellFormed)
    (hall : ∀ node, s.controller.Has node → ∃ d ∈ nodes, d.2.2 = node)
    (hl : ∀ layer path, s.lookup? layer path = firstNode? nodes layer path) {m : OpenMachine}
    (hm : m.In nodes) (use : NameUse) :
    Charted stack
      (s.linkDefault m.scope.machine m.scope.layer m.scope.path use).controller nodes := by
  have hretains := s.retains_linkDefault m.scope.machine m.scope.layer m.scope.path use
  have hid := h.paths _ hm.declared
  refine ⟨fun d hd => (h.paths d hd).mono hw hretains, h.opened, fun id st hst => ?_⟩
  suffices hold : ∃ layer path owner, s.controller.HasPath layer (.machine id) path ∧
      s.controller.HasPath layer (.machine owner) path ∧
      st ∈ (s.controller.machine owner).members ∧ owner.index ≤ id.index ∧
      firstNode? nodes layer (path.join (s.controller.state st).name) = some (.state st) by
    obtain ⟨layer, path, owner, hid, ho, hmem, hle, hfirst⟩ := hold
    refine ⟨layer, path, owner, hid.mono hw hretains, ho.mono hw hretains, hretains.states owner hmem,
      hle, ?_⟩
    rw [show (Controller.state _ st).name = (s.controller.state st).name from
      (hretains.names (.state st) (hw.has (ho.state hmem).inLayer)).2]
    exact hfirst
  unfold Session.linkDefault at hst
  extract_lets target at hst
  split at hst
  · rename_i found hfound
    rw [Session.modify, Controller.machine_modifyMachine (hw.has hid.inLayer)] at hst
    split at hst
    · rename_i heq
      cases hst
      cases heq
      rw [hl] at hfound
      have hs := h.paths _ (exists_of_firstNode? hfound)
      generalize hjoin : target = joined at hs
      cases hs with
      | @state owner _ path ho hi =>
        obtain ⟨rfl, hname⟩ := Path.join_inj.1 hjoin
        refine ⟨_, _, owner, hid, ho, hi, ?_, hname ▸ hfound⟩
        -- A machine that has been declared since is deeper.
        by_contra hlt
        obtain ⟨⟨layer, path, node⟩, hd, rfl⟩ := hall _ (hw.has ho.inLayer)
        have hpath := (hw.forest.path_unique (h.paths _ hd) ho).2
        have hdeeper := hm.deeper _ _ _ hd (Nat.lt_of_not_le hlt)
        exact Nat.lt_irrefl _ (hpath ▸ hdeeper)
    · exact h.defaults id st hst
  · exact h.defaults id st hst

/-- A rule is detached. -/
theorem close {f : Frame} (h : Charted (f :: parents) s.controller nodes)
    (ho : Owned (f :: parents) s)
    (hall : ∀ node, s.controller.Has node → ∃ d ∈ nodes, d.2.2 = node)
    (hl : ∀ layer path, s.lookup? layer path = firstNode? nodes layer path) :
    Charted parents (f.close s).controller nodes := by
  have hw := ho.growing.wellFormed
  have hsub : ∀ m ∈ openMachines parents, m ∈ openMachines (f :: parents) := fun m hm => by
    obtain ⟨g, hg, hgm⟩ := List.mem_filterMap.1 hm
    exact List.mem_filterMap.2 ⟨g, List.mem_cons_of_mem f hg, hgm⟩
  have drop {s s' : Session η} (h : Charted (f :: parents) s.controller nodes)
      (hw : s.controller.WellFormed) (hc : s.controller.Steady s'.controller) :
      Charted parents s'.controller nodes := by
    have hnone : ∀ d ∈ ([] : List Declared), s'.controller.HasPath d.1 d.2.2 d.2.1 := by
      rintro d ⟨⟩
    simpa using h.steady hw hc hnone fun m hm => by simpa using h.opened m (hsub m hm)
  cases f with
  | document => exact drop h hw s.steady_linkSyncs
  | motion r =>
    show Charted parents (s.modify r.place).controller nodes
    exact drop h hw (r.steady_place s.controller)
  | machine r =>
    cases r with
    | unnamed nested outer => exact drop h hw (.of_eq rfl rfl rfl)
    | named m x =>
      simp only [Frame.close, MachineRule.close]
      cases m.default with
      | none => exact drop h hw (s.steady_linkScope _ _)
      | some use =>
        have hseat := (ho.seated _ List.mem_cons_self).seat m.scope rfl
        exact drop (h.linkDefault hw hall hl (h.opened m List.mem_cons_self) use)
          (ho.linkDefault hseat.machine _ use).growing.wellFormed (Session.steady_linkScope ..)
  | parameter | state | transition | record => exact drop h hw (.of_eq rfl rfl rfl)

end Charted

/-! ## All readings -/

namespace Grammar.Call

/-- The nodes that the call of a hook declares. -/
def nodes (call : Grammar.Call Frame (Session η)) : List Declared := Journal.nodes call.entries

theorem nodes_token (e : Event) (f : Frame) (s : Session η) :
    (token e f s).nodes = (f.declared? e s).toList := by
  have hdeclared (d? : Option Declared) : Journal.nodes (d?.toList.map .declare) = d?.toList := by
    cases d? <;> rfl
  cases f with
  | transition r => rfl
  | _ => exact (congrArg Journal.nodes (List.append_nil _)).trans (hdeclared _)

theorem nodes_detach (f : Frame) (s : Session η) : (detach f s).nodes = [] := by
  cases f with
  | machine r => cases r <;> rfl
  | _ => rfl

theorem nodes_entries (calls : List (Grammar.Call Frame (Session η))) :
    Journal.nodes (calls.flatMap entries) = calls.flatMap nodes := List.filterMap_flatMap

end Grammar.Call

/-- A rule has handled a token, whatever it asks for. -/
theorem Charted.token {top : Frame} {parents : List Frame} {s : Session η}
    {calls : List (Grammar.Call Frame (Session η))}
    (h : Charted (top :: parents) s.controller (calls.flatMap Grammar.Call.nodes))
    (hw : s.controller.WellFormed) (hs : Stacked (top :: parents)) (e : Event) :
    Charted ((top.onToken e s).subject :: parents) (top.onToken e s).session.controller
      ((calls ++ [Grammar.Call.token e top s]).flatMap Grammar.Call.nodes) := by
  rw [List.flatMap_append, List.flatMap_singleton, Grammar.Call.nodes_token, Frame.onToken]
  cases hr : top.react e s with
  | ok step => exact h.turn hw hs hr
  | error d => simpa [Frame.declared?_of_error hr] using h

namespace Moment

variable {stack : List Frame} {s : Session η} {calls : List (Grammar.Call Frame (Session η))}

/-- The nodes of the graph are the declared ones. -/
theorem nodes_perm (h : Moment stack s calls) :
    ((calls.flatMap Grammar.Call.nodes).map (·.2.2)).Perm s.controller.nodes := by
  have hall := h.written.declares
  rw [Grammar.Call.nodes_entries] at hall
  simp only [Wiring.spot, Session.size_machines, Session.size_states] at hall
  exact hall

/-- A path leads to the first node that was declared with it. -/
theorem lookup? (h : Moment stack s calls) (layer : Nat) (path : Path) :
    s.lookup? layer path = firstNode? (calls.flatMap Grammar.Call.nodes) layer path := by
  rw [← Grammar.Call.nodes_entries, ← h.written.accounts.nodes]
  exact h.shows.nodes layer path

end Moment

namespace Grammar.Reached

variable {name : String} {host : η} {stack : List Frame} {s : Session η}
  {calls : List (Grammar.Call Frame (Session η))}

theorem charted
    (h : (Grammar.document η).Reached .document { controller := { name }, host } stack s calls) :
    Charted stack s.controller (calls.flatMap Grammar.Call.nodes) := by
  -- A rule is detached.
  have close {top : Frame} {parents : List Frame} {s : Session η}
      {calls : List (Grammar.Call Frame (Session η))} (ho : Owned (top :: parents) s)
      (hm : Moment (top :: parents) s calls)
      (ih : Charted (top :: parents) s.controller (calls.flatMap Grammar.Call.nodes)) :
      Charted parents (top.close s).controller
        ((calls ++ [Grammar.Call.detach top s]).flatMap Grammar.Call.nodes) := by
    rw [List.flatMap_append, List.flatMap_singleton, Grammar.Call.nodes_detach, List.append_nil]
    refine ih.close ho (fun node hnode => ?_) hm.lookup?
    exact List.mem_map.1 (hm.nodes_perm.symm.subset (Controller.mem_nodes.2 hnode))
  induction h with
  | root => exact ⟨by rintro d ⟨⟩, by rintro m ⟨⟩, by rintro id st ⟨⟩⟩
  | stay e h hstay ih => exact ih.token h.owned.growing.wellFormed h.moment.sound.stacked e
  | attach e rule forward h hask ih =>
    have htoken := ih.token h.owned.growing.wellFormed h.moment.sound.stacked e
    have hafter := htoken.attach (h.moment.token e).sound.stacked (Frame.onToken_asks hask)
    simp only [Grammar.push, Grammar.document, List.head?_cons, Option.bind_some]
    rw [List.append_cons, List.flatMap_append, List.flatMap_singleton]
    exact (List.append_nil _).symm ▸ hafter
  | detach e forward h hask ih =>
    have htoken := ih.token h.owned.growing.wellFormed h.moment.sound.stacked e
    have hafter := close (h.owned.token e) (h.moment.token e) htoken
    rwa [List.append_assoc] at hafter
  | unwind h ih => exact close h.owned h.moment ih

end Grammar.Reached

namespace Document

/-- What is left when a document has been read. -/
def session (source name : String) (host : η) : Session η :=
  ((Grammar.document η).parse .document Frame.document source { controller := { name }, host }).2

/-- The nodes that a document declares, in order. -/
def declared (source name : String) (host : η) : List Declared :=
  (calls source name host).flatMap Grammar.Call.nodes

variable {source name : String} {host host' : η} {doc : Document}

theorem controller_eq_session (h : read source name host = (.ok doc, host')) :
    doc.controller = (session source name host).controller := by
  simp only [read] at h
  split at h
  · cases h
  · cases h
    rfl

theorem session_moment (source name : String) (host : η) :
    Moment [] (session source name host) (calls source name host) :=
  (Grammar.reached_calls .document Frame.document source _).moment

theorem session_charted (source name : String) (host : η) :
    Charted [] (session source name host).controller (declared source name host) :=
  (Grammar.reached_calls .document Frame.document source _).charted

theorem session_wellFormed (source name : String) (host : η) :
    (session source name host).controller.WellFormed :=
  (Grammar.reached_calls .document Frame.document source _).owned.growing.wellFormed

/-- The walk over the graph of a document finds every node once, under the path that was built when
the node was declared. That path leads to the node, or to one declared earlier under the same
path. -/
theorem paths_agree (h : read source name host = (.ok doc, host')) :
    let nodes := declared source name host
    (Controller.NodePaths.nodes doc.controller.nodePaths).Perm doc.controller.nodes ∧
    doc.controller.nodePaths.Perm (nodes.map fun d => (d.2.2, d.2.1)) ∧
    (∀ d ∈ nodes, doc.controller.HasPath d.1 d.2.2 d.2.1) ∧
    ∀ (i : Nat) (hi : i < nodes.length), ∃ k, ∃ hk : k ≤ i, nodes[k].1 = nodes[i].1 ∧
      nodes[k].2.1 = nodes[i].2.1 ∧
      (session source name host).lookup? nodes[i].1 nodes[i].2.1 = some nodes[k].2.2 := by
  intro nodes
  have hc := controller_eq_session h
  have hw := session_wellFormed source name host
  have hpaths := (session_charted source name host).paths
  have hall := (session_moment source name host).nodes_perm
  rw [← hc] at hw hpaths hall
  have hfound : doc.controller.nodePaths.Perm (nodes.map fun d => (d.2.2, d.2.1)) := by
    have hnodup : (nodes.map fun d => (d.2.2, d.2.1)).Nodup := by
      refine List.Nodup.of_map Prod.fst ?_
      rw [List.map_map]
      exact hall.nodup_iff.2 (Controller.nodup_nodesUpTo _ _)
    refine (List.perm_ext_iff_of_nodup hw.nodup_nodes.of_map hnodup).2 fun ⟨node, path⟩ => ?_
    constructor
    · intro hmem
      obtain ⟨layer, hp⟩ := Controller.exists_hasPath hmem
      have hnode := hall.symm.subset (Controller.mem_nodes.2 (hw.has hp.inLayer))
      obtain ⟨d, hd, rfl⟩ := List.mem_map.1 hnode
      obtain rfl : path = d.2.1 := (hw.forest.path_unique hp (hpaths d hd)).2
      exact List.mem_map_of_mem hd
    · intro hmem
      obtain ⟨d, hd, heq⟩ := List.mem_map.1 hmem
      rw [← heq]
      exact (hpaths d hd).mem_nodePaths hw.forest
  refine ⟨?_, hfound, hpaths, fun i hi => ?_⟩
  · have hnodes := hfound.map Prod.fst
    rw [List.map_map] at hnodes
    exact hnodes.trans hall
  · obtain ⟨k, hk, hlayer, hpath, hfirst⟩ := firstNode?_getElem hi
    exact ⟨k, hk, hlayer, hpath, ((session_moment source name host).lookup? _ _).trans hfirst⟩

/-- Two layers and two machines have the same name, and so have the states in the machines. -/
def twins : String :=
  "layer L \x7b stateMachine M \x7b state A \x7b \x7d \x7d " ++
    "stateMachine M \x7b state A \x7b \x7d default A; \x7d \x7d layer L \x7b \x7d"

theorem paths_agree_twins : ∃ doc host', read twins "Hero" ({} : MemoryHost) = (.ok doc, host') ∧
    doc.controller.nodePaths.Perm
      ((declared twins "Hero" ({} : MemoryHost)).map fun d => (d.2.2, d.2.1)) := by
  obtain ⟨doc, host', h⟩ := exists_read
    (show (read twins "Hero" ({} : MemoryHost)).1.isOk = true by decide +kernel)
  exact ⟨doc, host', h, (paths_agree h).2.1⟩

end Document

end MotionScript
