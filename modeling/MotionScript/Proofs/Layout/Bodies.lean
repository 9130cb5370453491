import MotionScript.Layout.Machine
/-!
# Bodies of a layout

Steps move the bodies of a layout, but add none and lose none, whatever the forces are. So every
child of a machine has a place in the layout of the machine at every moment.
-/

namespace MotionScript.Layout

variable (l : Layout)

/-- The nodes of a layout in the order in which they were added. -/
def nodes : List LayoutNode := l.bodies.map (·.node)

variable {l} in
theorem isSome_body? {node : LayoutNode} : (l.body? node).isSome = true ↔ node ∈ l.nodes := by
  simp [body?, nodes]

variable {l} in
theorem isSome_rounded? {node : LayoutNode} :
    (l.rounded? node).isSome = true ↔ node ∈ l.nodes := by
  simp [rounded?, position?, isSome_body?]

/-! ## Steps -/

theorem size_pulls (s : LayoutSettings) (f : Frozen) : (pulls s f).size = f.positions.size := by
  refine List.foldlRecOn
    (motive := fun forces : Array (Vec2 Float32) => forces.size = f.positions.size) f.edges _
    Array.size_replicate fun forces hforces edge _ => ?_
  dsimp only
  split
  · exact hforces
  · rw [Array.size_modify, Array.size_modify, hforces]

/-- There is a force on each body. -/
theorem length_forces : l.forces.1.length = l.bodies.length := by
  have hfold (turn : List (Vec2 Float32) × Noise → Vec2 Float32 × Nat → List (Vec2 Float32) × Noise)
      (hturn : ∀ out pull, (turn out pull).1.length = out.1.length + 1)
      (pulls : List (Vec2 Float32 × Nat)) (out : List (Vec2 Float32) × Noise) :
      (pulls.foldl turn out).1.length = out.1.length + pulls.length := by
    induction pulls generalizing out with
    | nil => rfl
    | cons pull pulls ih =>
      rw [List.foldl_cons, ih, hturn, List.length_cons, Nat.add_right_comm, Nat.add_assoc]
  have hpositions : l.frozen.positions.size = l.bodies.length := by simp [frozen]
  simp only [forces, List.length_reverse]
  rw [hfold _ fun _ _ => rfl, List.length_zipIdx, List.length_nil, Nat.zero_add, Array.length_toList, size_pulls,
    hpositions]

theorem nodes_step : l.step.2.nodes = l.nodes := by
  unfold step
  split
  · rfl
  · have hnodes (bodies : List Body) (forces : List (Vec2 Float32)) (limit damping : Float32)
        (h : forces.length = bodies.length) :
        (List.zipWith (fun body force => Body.apply body force limit damping) bodies forces).map
          (·.node) = bodies.map (·.node) := by
      induction bodies generalizing forces with
      | nil => rfl
      | cons body bodies ih =>
        cases forces with
        | nil => cases h
        | cons force forces =>
          exact congrArg (body.node :: ·) (ih forces (Nat.succ.inj h))
    exact hnodes _ _ _ _ l.length_forces

theorem nodes_iterateFrom (steps limit : Nat) : (l.iterateFrom steps limit).2.nodes = l.nodes := by
  induction limit generalizing l steps with
  | zero => rfl
  | succ limit ih =>
    rw [iterateFrom]
    split
    rename_i stable l' hstep
    have hnodes : l'.nodes = l.nodes := by rw [← l.nodes_step, hstep]
    split
    · exact hnodes
    · rw [ih, hnodes]

theorem nodes_iterate (limit : Nat) : (l.iterate limit).2.nodes = l.nodes :=
  l.nodes_iterateFrom 0 limit

/-! ## The start -/

/-- A node that is there already keeps its place among the nodes. -/
theorem nodes_addNode (node : LayoutNode) (position : Vec2 Float32) :
    (l.addNode node position).nodes = if node ∈ l.nodes then l.nodes else l.nodes ++ [node] := by
  by_cases hmem : node ∈ l.nodes
  · rw [if_pos hmem, addNode, hasNode, isSome_body?.2 hmem, if_pos rfl, nodes, List.map_map]
    refine List.map_congr_left fun body _ => ?_
    rw [Function.comp_apply]
    split
    · exact (‹body.node = node›).symm
    · rfl
  · rw [if_neg hmem, addNode, hasNode, if_neg fun h => hmem (isSome_body?.1 h), nodes,
      List.map_append]
    rfl

theorem mem_nodes_addNode {node other : LayoutNode} {position : Vec2 Float32} :
    other ∈ (l.addNode node position).nodes ↔ other ∈ l.nodes ∨ other = node := by
  rw [nodes_addNode]
  split
  · exact ⟨.inl, fun hother => hother.elim id fun heq => heq ▸ ‹_›⟩
  · rw [List.mem_append, List.mem_singleton]

theorem nodes_addEdge (a b : LayoutNode) : (l.addEdge a b).nodes = l.nodes := by
  unfold addEdge
  split <;> rfl

theorem mem_nodes_ofMachine {c : Controller} {id : MachineId} {settings : LayoutSettings}
    {node : LayoutNode} : node ∈ (ofMachine c id settings).nodes ↔
      node ∈ (startingPoints (c.machine id)).map (·.1) := by
  have hedges (turn : Layout → LayoutNode × LayoutNode → Layout)
      (hturn : ∀ l edge, (turn l edge).nodes = l.nodes) (edges : List (LayoutNode × LayoutNode))
      (l : Layout) : (edges.foldl turn l).nodes = l.nodes := by
    induction edges generalizing l with
    | nil => rfl
    | cons edge edges ih => rw [List.foldl_cons, ih, hturn]
  have hpoints (turn : Layout → LayoutNode × Vec2 Float32 → Layout)
      (hturn : ∀ l point, node ∈ (turn l point).nodes ↔ node ∈ l.nodes ∨ node = point.1)
      (points : List (LayoutNode × Vec2 Float32)) (l : Layout) :
      node ∈ (points.foldl turn l).nodes ↔ node ∈ l.nodes ∨ node ∈ points.map (·.1) := by
    induction points generalizing l with
    | nil => simp
    | cons point points ih =>
      rw [List.foldl_cons, ih, hturn, List.map_cons, List.mem_cons, or_assoc]
  simp only [ofMachine]
  rw [hedges _ fun l edge => l.nodes_addEdge edge.1 edge.2,
    hpoints _ fun l _ => l.mem_nodes_addNode]
  simp [nodes, empty]

end MotionScript.Layout
