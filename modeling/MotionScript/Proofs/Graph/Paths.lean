import MotionScript.Proofs.Ownership.Forest
/-!
# Paths of nodes

The walk through a forest finds the path of every node of a layer, and no other path, and it finds no
node twice.
-/

namespace MotionScript

@[simp]
theorem Path.depth_join (p : Path) (name : String) : (p.join name).depth = p.depth + 1 := by
  simp [join, depth]

theorem Path.join_inj {p q : Path} {a b : String} : p.join a = q.join b ↔ p = q ∧ a = b := by
  obtain ⟨p⟩ := p
  obtain ⟨q⟩ := q
  simp [join]

namespace Controller

variable {c : Controller} {layer : Nat}

/-! ## How long paths are -/

/-- The machines that lead to a machine are different ones. -/
theorem HasPath.exists_machines (h : c.Forest) {node : NodeRef} {path : Path}
    (hp : c.HasPath layer node path) {id : MachineId} (hn : node = .machine id) :
    ∃ ids : List MachineId, ids.length = path.depth ∧ ids.Nodup ∧ ∀ x ∈ ids,
      x.index < c.machines.size ∧ ∃ q, c.HasPath layer (.machine x) q ∧ q.depth ≤ path.depth := by
  induction hp generalizing id with
  | @root l hl =>
    refine ⟨[l.machine], rfl, List.nodup_singleton _, ?_⟩
    rw [List.forall_mem_singleton]
    have hroot : l.machine ∈ c.rootMachines :=
      List.mem_map.2 ⟨l, Array.mem_def.1 (Array.mem_of_getElem? hl), rfl⟩
    exact ⟨h.machines_lt _ (List.mem_append_left _ hroot), _, .root hl, Nat.le_refl _⟩
  | @machine outer inner path ho hi ih =>
    obtain ⟨ids, hlength, hnodup, hids⟩ := ih rfl
    have hinner := ho.machine hi
    refine ⟨inner :: ids, by simp [hlength], List.nodup_cons.2 ⟨fun hmem => ?_, hnodup⟩, ?_⟩
    · obtain ⟨-, q, hq, hle⟩ := hids inner hmem
      rw [(h.path_unique hq hinner).2, Path.depth_join] at hle
      omega
    · rw [List.forall_mem_cons]
      refine ⟨⟨h.machines_lt _ (List.mem_append_right _ (mem_childMachines hi)), _, hinner,
        Nat.le_refl _⟩, fun x hx => ?_⟩
      obtain ⟨hlt, q, hq, hle⟩ := hids x hx
      exact ⟨hlt, q, hq, by rw [Path.depth_join]; omega⟩
  | state => cases hn

theorem HasPath.depth_le (h : c.Forest) {id : MachineId} {path : Path}
    (hp : c.HasPath layer (.machine id) path) : path.depth ≤ c.machines.size := by
  obtain ⟨ids, hlength, hnodup, hids⟩ := hp.exists_machines h rfl
  have hsub : ids ⊆ (List.range c.machines.size).map MachineId.mk :=
    fun x hx => (mem_ids (fun _ => rfl) (fun _ => rfl)).2 (hids x hx).1
  have hle := (List.subperm_of_subset hnodup hsub).length_le
  rwa [List.length_map, List.length_range, hlength] at hle

/-! ## The walk -/

section Folds

variable {α β : Type} {x : β}

theorem mem_foldl_cons (f : α → β) (xs : List α) (ys : List β) :
    x ∈ xs.foldl (fun ys a => f a :: ys) ys ↔ x ∈ ys ∨ ∃ a ∈ xs, x = f a := by
  induction xs generalizing ys with
  | nil => simp
  | cons a xs ih =>
    rw [List.foldl_cons, ih, List.mem_cons, List.exists_mem_cons_iff, or_left_comm, or_assoc]

/-- What a fold adds comes from one of its steps. -/
theorem of_mem_foldr {P : Prop} {f : α → List β → List β} {xs : List α} {ys : List β}
    (h : ∀ a ∈ xs, ∀ ys, x ∈ f a ys → x ∈ ys ∨ P) (hx : x ∈ xs.foldr f ys) : x ∈ ys ∨ P := by
  induction xs with
  | nil => exact .inl hx
  | cons a xs ih =>
    rw [List.forall_mem_cons] at h
    exact (h.1 _ hx).elim (ih h.2) .inr

theorem mem_foldr_of_mem {f : α → List β → List β} (h : ∀ a ys, x ∈ ys → x ∈ f a ys)
    (xs : List α) {ys : List β} (hx : x ∈ ys) : x ∈ xs.foldr f ys := by
  induction xs with
  | nil => exact hx
  | cons a xs ih => exact h a _ ih

/-- What one step adds is kept by the others. -/
theorem exists_foldr_step {f : α → List β → List β} (h : ∀ x a ys, x ∈ ys → x ∈ f a ys)
    {xs : List α} {a : α} (ha : a ∈ xs) (ys : List β) :
    ∃ zs, ∀ x ∈ f a zs, x ∈ xs.foldr f ys := by
  induction xs with
  | nil => cases ha
  | cons b xs ih =>
    rcases List.mem_cons.1 ha with rfl | ha
    · exact ⟨xs.foldr f ys, fun x hx => hx⟩
    · obtain ⟨zs, hzs⟩ := ih ha
      exact ⟨zs, fun x hx => h x b _ (hzs x hx)⟩

end Folds

theorem mem_pathsBelow_of_mem {depth : Nat} {id : MachineId} {path : Path} {paths : NodePaths}
    {x : NodeRef × Path} (hx : x ∈ paths) : x ∈ c.pathsBelow depth id path paths := by
  induction depth generalizing id path paths with
  | zero => exact hx
  | succ depth ih =>
    rw [pathsBelow]
    refine mem_foldr_of_mem (fun a ys hy => ih hy) _ (List.mem_cons_of_mem _ ?_)
    exact (mem_foldl_cons _ _ _).2 (.inl hx)

/-- The walk below a machine finds paths only. -/
theorem HasPath.of_mem_pathsBelow {depth : Nat} {id : MachineId} {path : Path}
    {paths : NodePaths} {x : NodeRef × Path} (hp : c.HasPath layer (.machine id) path)
    (hx : x ∈ c.pathsBelow depth id path paths) : x ∈ paths ∨ c.HasPath layer x.1 x.2 := by
  induction depth generalizing id path paths with
  | zero => exact .inl hx
  | succ depth ih =>
    rw [pathsBelow] at hx
    have hown := of_mem_foldr (P := c.HasPath layer x.1 x.2)
      (fun inner hi ys hy => ih (hp.machine (List.mem_map.2 ⟨inner, hi, rfl⟩)) hy) hx
    rcases hown with hown | hpath
    · rcases List.mem_cons.1 hown with rfl | hown
      · exact .inr hp
      · rcases (mem_foldl_cons _ _ _).1 hown with hown | ⟨placed, hs, rfl⟩
        · exact .inl hown
        · exact .inr (hp.state (List.mem_map.2 ⟨placed, hs, rfl⟩))
    · exact .inr hpath

theorem exists_hasPath {x : NodeRef × Path} (hx : x ∈ c.nodePaths) :
    ∃ layer, c.HasPath layer x.1 x.2 := by
  have hall := of_mem_foldr (P := ∃ layer, c.HasPath layer x.1 x.2)
    (fun l hl ys hy => by
      obtain ⟨layer, hlayer⟩ := Array.mem_iff_getElem?.1 (Array.mem_def.2 hl)
      exact (HasPath.of_mem_pathsBelow (.root hlayer) hy).imp_right fun h => ⟨layer, h⟩) hx
  exact hall.elim (fun h => by cases h) id

/-- The walk goes on below every machine of a layer, as deep as there are machines. -/
theorem HasPath.exists_walk (h : c.Forest) {node : NodeRef} {path : Path}
    (hp : c.HasPath layer node path) {id : MachineId} (hn : node = .machine id) :
    ∃ depth paths, depth + path.depth = c.machines.size + 1 ∧
      ∀ x ∈ c.pathsBelow depth id path paths, x ∈ c.nodePaths := by
  induction hp generalizing id with
  | @root l hl =>
    cases hn
    obtain ⟨paths, hpaths⟩ := exists_foldr_step
      (f := fun (l : Layer) paths => c.pathsBelow c.machines.size l.machine ⟨[l.name]⟩ paths)
      (fun x a ys hx => mem_pathsBelow_of_mem hx)
      (Array.mem_def.1 (Array.mem_of_getElem? hl)) []
    exact ⟨c.machines.size, paths, rfl, hpaths⟩
  | @machine outer inner path ho hi ih =>
    cases hn
    obtain ⟨depth, paths, hdepth, hwalk⟩ := ih rfl
    have hlt := ho.depth_le h
    obtain ⟨depth, rfl⟩ : ∃ n, depth = n + 1 := ⟨depth - 1, by omega⟩
    obtain ⟨placed, hplaced, rfl⟩ := List.mem_map.1 hi
    obtain ⟨paths', hpaths'⟩ := exists_foldr_step
      (f := fun (placed : Placed MachineId) paths =>
        c.pathsBelow depth placed.node (path.join (c.machine placed.node).name) paths)
      (fun x a ys hx => mem_pathsBelow_of_mem hx) hplaced
      ((.machine outer, path) :: (c.machine outer).states.foldl
        (fun paths placed => (.state placed.node, path.join (c.state placed.node).name) :: paths)
        paths)
    refine ⟨depth, paths', by rw [Path.depth_join]; omega, fun x hx => hwalk x ?_⟩
    rw [pathsBelow]
    exact hpaths' x hx
  | state => cases hn

theorem HasPath.mem_nodePaths (h : c.Forest) {node : NodeRef} {path : Path}
    (hp : c.HasPath layer node path) : (node, path) ∈ c.nodePaths := by
  have hself {id : MachineId} {path : Path} (hp : c.HasPath layer (.machine id) path) :
      ∃ depth paths, (∀ x ∈ c.pathsBelow (depth + 1) id path paths, x ∈ c.nodePaths) := by
    obtain ⟨depth, paths, hdepth, hwalk⟩ := hp.exists_walk h rfl
    have hlt := hp.depth_le h
    obtain ⟨depth, rfl⟩ : ∃ n, depth = n + 1 := ⟨depth - 1, by omega⟩
    exact ⟨depth, paths, hwalk⟩
  cases node with
  | machine id =>
    obtain ⟨depth, paths, hwalk⟩ := hself hp
    refine hwalk _ ?_
    rw [pathsBelow]
    exact mem_foldr_of_mem (fun a ys hy => mem_pathsBelow_of_mem hy) _ List.mem_cons_self
  | state id =>
    cases hp with
    | @state outer _ path ho hi =>
      obtain ⟨depth, paths, hwalk⟩ := hself ho
      obtain ⟨placed, hplaced, rfl⟩ := List.mem_map.1 hi
      refine hwalk _ ?_
      rw [pathsBelow]
      refine mem_foldr_of_mem (fun a ys hy => mem_pathsBelow_of_mem hy) _
        (List.mem_cons_of_mem _ ?_)
      exact (mem_foldl_cons _ _ _).2 (.inr ⟨placed, hplaced, rfl⟩)

/-- The path of a node in a forest is found. -/
theorem Forest.path?_eq_some (h : c.Forest) {node : NodeRef} {path : Path} :
    c.nodePaths.path? node = some path ↔ ∃ layer, c.HasPath layer node path := by
  have hmem {node : NodeRef} {path : Path} (hp : c.nodePaths.path? node = some path) :
      ∃ layer, c.HasPath layer node path := by
    obtain ⟨_, _, hsplit, -⟩ := List.lookup_eq_some_iff.1 hp
    exact exists_hasPath (x := (node, path)) (by rw [hsplit]; simp)
  refine ⟨hmem, fun ⟨layer, hp⟩ => ?_⟩
  cases hq : c.nodePaths.path? node with
  | none => exact absurd (List.lookup_eq_none_iff.1 hq _ (hp.mem_nodePaths h)) (by simp)
  | some q =>
    obtain ⟨layer', hq⟩ := hmem hq
    rw [(h.path_unique hp hq).2]

/-! ## Every node once -/

/-- A walk puts what it finds in front of what has been found before. -/
theorem pathsBelow_append (depth : Nat) (id : MachineId) (path : Path) (paths : NodePaths) :
    c.pathsBelow depth id path paths = c.pathsBelow depth id path [] ++ paths := by
  induction depth generalizing id path paths with
  | zero => rfl
  | succ depth ih =>
    rw [pathsBelow, pathsBelow, funext₂ fun placed paths => ih _ _ paths,
      List.foldr_append_eq_append, List.foldr_append_eq_append]
    simp [List.foldl_flip_cons_eq_append]

/-- The nodes that a walk has found. -/
def NodePaths.nodes (paths : NodePaths) : List NodeRef := paths.map (·.1)

theorem NodePaths.nodes_flatMap {α : Type} (f : α → NodePaths) (xs : List α) :
    nodes (xs.flatMap f) = xs.flatMap fun x => nodes (f x) := List.map_flatMap

/-- The nodes that the walk below a machine finds. -/
def nodesBelow (c : Controller) (depth : Nat) (id : MachineId) (path : Path) : List NodeRef :=
  NodePaths.nodes (c.pathsBelow depth id path [])

theorem nodesBelow_succ (depth : Nat) (id : MachineId) (path : Path) :
    c.nodesBelow (depth + 1) id path =
      ((c.machine id).machines.flatMap fun placed =>
        c.nodesBelow depth placed.node (path.join (c.machine placed.node).name)) ++
      .machine id :: ((c.machine id).members.map NodeRef.state).reverse := by
  rw [nodesBelow, pathsBelow, List.foldl_flip_cons_eq_append,
    funext₂ fun placed paths => pathsBelow_append _ _ _ paths, List.foldr_append_eq_append,
    ← List.flatMap_def, NodePaths.nodes, List.map_append, List.map_flatMap]
  simp [Machine.members, nodesBelow, NodePaths.nodes]

theorem nodes_nodePaths : NodePaths.nodes c.nodePaths =
    c.layers.toList.flatMap fun l => c.nodesBelow c.machines.size l.machine ⟨[l.name]⟩ := by
  rw [nodePaths, funext₂ fun l paths => pathsBelow_append _ _ _ paths,
    List.foldr_append_eq_append, List.append_nil, ← List.flatMap_def, NodePaths.nodes_flatMap]
  rfl

/-- The nodes right inside a node. -/
def inside (c : Controller) : NodeRef → List NodeRef
  | .machine id => (c.machine id).members.map .state ++ (c.machine id).children.map .machine
  | .state _ => []

/-- Whether a node is found no more often than it starts a walk or the nodes around it are found. -/
def Follows (c : Controller) (x : NodeRef) (starts found : List NodeRef) : Prop :=
  found.count x ≤ starts.count x + (found.flatMap c.inside).count x

theorem Follows.flatMap {α : Type} {x : NodeRef} {start : α → NodeRef} {found : α → List NodeRef}
    {xs : List α} (h : ∀ a ∈ xs, c.Follows x [start a] (found a)) :
    c.Follows x (xs.map start) (xs.flatMap found) := by
  induction xs with
  | nil => exact Nat.zero_le _
  | cons a xs ih =>
    have ha := h a List.mem_cons_self
    have hxs := ih fun b hb => h b (List.mem_cons_of_mem _ hb)
    simp only [Follows, List.flatMap_cons, List.flatMap_append, List.map_cons, List.count_append,
      List.count_cons, List.count_nil] at ha hxs ⊢
    omega

theorem follows_nodesBelow (depth : Nat) (id : MachineId) (path : Path) (x : NodeRef) :
    c.Follows x [.machine id] (c.nodesBelow depth id path) := by
  induction depth generalizing id path with
  | zero => exact Nat.zero_le _
  | succ depth ih =>
    have hinner : c.Follows x ((c.machine id).machines.map fun placed => .machine placed.node)
        ((c.machine id).machines.flatMap fun placed =>
          c.nodesBelow depth placed.node (path.join (c.machine placed.node).name)) :=
      Follows.flatMap fun placed _ => ih placed.node (path.join (c.machine placed.node).name)
    have hstates : (((c.machine id).members.map NodeRef.state).reverse).flatMap c.inside = [] := by
      simp [List.flatMap_eq_nil_iff, inside]
    have hchildren : (c.machine id).children.map NodeRef.machine =
        (c.machine id).machines.map fun placed => .machine placed.node := List.map_map
    rw [Follows, nodesBelow_succ, List.flatMap_append, List.flatMap_cons, hstates, inside, hchildren]
    simp only [Follows, List.count_append, List.count_cons, List.count_reverse, List.count_nil]
      at hinner ⊢
    omega

theorem follows_nodePaths (x : NodeRef) :
    c.Follows x (c.rootMachines.map NodeRef.machine) (NodePaths.nodes c.nodePaths) := by
  rw [nodes_nodePaths, rootMachines, List.map_map]
  exact Follows.flatMap fun l _ => follows_nodesBelow _ l.machine ⟨[l.name]⟩ x

theorem count_flatMap_le {α β : Type} [DecidableEq α] [DecidableEq β] {f : α → List β} {x : β}
    {p : α} (hone : (f p).Nodup) (hother : ∀ a ≠ p, x ∉ f a) (xs : List α) :
    (xs.flatMap f).count x ≤ xs.count p := by
  induction xs with
  | nil => exact Nat.le_refl _
  | cons a xs ih =>
    rw [List.flatMap_cons, List.count_append, List.count_cons]
    by_cases ha : a = p
    · subst ha
      have := List.nodup_iff_count_le_one.1 hone x
      rw [if_pos (beq_self_eq_true a)]
      omega
    · rw [List.count_eq_zero_of_not_mem (hother a ha)]
      omega

theorem mem_inside_state {a : NodeRef} {id : StateId} :
    .state id ∈ c.inside a ↔ ∃ m, a = .machine m ∧ id ∈ (c.machine m).members := by
  cases a <;> simp [inside]

theorem mem_inside_machine {a : NodeRef} {id : MachineId} :
    .machine id ∈ c.inside a ↔ ∃ m, a = .machine m ∧ id ∈ (c.machine m).children := by
  cases a <;> simp [inside]

namespace Forest

/-- Every node is right inside one node at most. -/
theorem inside_unique (h : c.Forest) {x a b : NodeRef} (ha : x ∈ c.inside a)
    (hb : x ∈ c.inside b) : a = b := by
  cases x with
  | state id =>
    obtain ⟨m, rfl, hm⟩ := mem_inside_state.1 ha
    obtain ⟨m', rfl, hm'⟩ := mem_inside_state.1 hb
    exact congrArg (NodeRef.machine ⟨·⟩) (owner_unique h.states rfl hm hm')
  | machine id =>
    obtain ⟨m, rfl, hm⟩ := mem_inside_machine.1 ha
    obtain ⟨m', rfl, hm'⟩ := mem_inside_machine.1 hb
    exact congrArg (NodeRef.machine ⟨·⟩) (owner_unique h.machines.of_append_right rfl hm hm')

theorem nodup_inside (h : c.Forest) (a : NodeRef) : (c.inside a).Nodup := by
  have hlist {β : Type} {g : Machine → List β} (hall : (c.machines.toList.flatMap g).Nodup)
      (hdefault : g default = []) (id : MachineId) : (g (c.machine id)).Nodup := by
    by_cases hid : id.index < c.machines.size
    · refine (List.nodup_flatMap.1 hall).1 _ ?_
      simp [machine, hid]
    · simp [machine, hid, hdefault]
  cases a with
  | state => exact List.nodup_nil
  | machine id =>
    refine List.nodup_append.2 ⟨(hlist h.states rfl id).map fun _ _ => NodeRef.state.inj,
      (hlist h.machines.of_append_right rfl id).map fun _ _ => NodeRef.machine.inj, ?_⟩
    intro x hx y hy heq
    obtain ⟨_, -, rfl⟩ := List.mem_map.1 hx
    obtain ⟨_, -, rfl⟩ := List.mem_map.1 hy
    cases heq

/-- A node inside another one is found no more often than that one. -/
theorem count_nodePaths_le (h : c.Forest) {x p : NodeRef} (hx : x ∈ c.inside p) :
    (NodePaths.nodes c.nodePaths).count x ≤ (NodePaths.nodes c.nodePaths).count p := by
  have hroot : x ∉ c.rootMachines.map NodeRef.machine := by
    intro hmem
    obtain ⟨id, hid, rfl⟩ := List.mem_map.1 hmem
    obtain ⟨outer, -, hinner⟩ := mem_inside_machine.1 hx
    exact List.disjoint_of_nodup_append h.machines hid (mem_childMachines hinner)
  have hfollows := c.follows_nodePaths x
  rw [Follows, List.count_eq_zero_of_not_mem hroot, Nat.zero_add] at hfollows
  exact Nat.le_trans hfollows (count_flatMap_le (h.nodup_inside p)
    (fun a ha hmem => ha (h.inside_unique hmem hx)) _)

/-- A node inside no other one is found once at most. -/
theorem count_nodePaths_le_one (h : c.Forest) {x : NodeRef} (hx : ∀ p, x ∉ c.inside p) :
    (NodePaths.nodes c.nodePaths).count x ≤ 1 := by
  have hroots : (c.rootMachines.map NodeRef.machine).Nodup :=
    h.machines.of_append_left.map fun _ _ => NodeRef.machine.inj
  have hinside : x ∉ (NodePaths.nodes c.nodePaths).flatMap c.inside := by
    intro hmem
    obtain ⟨p, -, hp⟩ := List.mem_flatMap.1 hmem
    exact hx p hp
  have hfollows := c.follows_nodePaths x
  rw [Follows, List.count_eq_zero_of_not_mem hinside] at hfollows
  exact Nat.le_trans hfollows (List.nodup_iff_count_le_one.1 hroots x)

end Forest

/-- The walk finds every node once at most. -/
theorem WellFormed.nodup_nodes (h : c.WellFormed) : (NodePaths.nodes c.nodePaths).Nodup := by
  refine List.nodup_iff_count_le_one.2 fun x => ?_
  -- By induction on the machines around the node; machines come before those nested in them.
  have hmachine (id : MachineId) : (NodePaths.nodes c.nodePaths).count (.machine id) ≤ 1 := by
    induction hn : id.index using Nat.strongRecOn generalizing id with
    | _ n ih =>
      by_cases hp : ∃ p, NodeRef.machine id ∈ c.inside p
      · obtain ⟨p, hp⟩ := hp
        obtain ⟨outer, rfl, hinner⟩ := mem_inside_machine.1 hp
        exact Nat.le_trans (h.forest.count_nodePaths_le hp)
          (ih outer.index (hn ▸ h.machine_lt outer id hinner) outer rfl)
      · exact h.forest.count_nodePaths_le_one fun p hmem => hp ⟨p, hmem⟩
  cases x with
  | machine id => exact hmachine id
  | state id =>
    by_cases hp : ∃ p, NodeRef.state id ∈ c.inside p
    · obtain ⟨p, hp⟩ := hp
      obtain ⟨outer, rfl, -⟩ := mem_inside_state.1 hp
      exact Nat.le_trans (h.forest.count_nodePaths_le hp) (hmachine outer)
    · exact h.forest.count_nodePaths_le_one fun p hmem => hp ⟨p, hmem⟩

end Controller

end MotionScript
