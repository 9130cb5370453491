import Mathlib.Data.List.Nodup
import Mathlib.Data.Sym.Sym2
import MotionScript.Proofs.Layout.Bodies
import MotionScript.Proofs.Ownership.Forest
/-!
# Edges of a layout

A layout starts with one body for each node of its machine, and with one edge for each two of them
that the machine connects, in whatever direction and however often.
-/

namespace MotionScript

/-! ## What a machine connects -/

/-- The nodes in the layout of a machine: its entry, exit and any-state node and its children. -/
inductive Machine.HasNode (m : Machine) : LayoutNode → Prop where
  | entry : HasNode m .entry
  | exit : HasNode m .exit
  | any : HasNode m .any
  | state {id : StateId} (h : id ∈ m.members) : HasNode m (.state id)
  | machine {id : MachineId} (h : id ∈ m.children) : HasNode m (.machine id)

/-- What leads from one node of a machine to another: its default state, its entry and any-state
transitions, the transitions of its states and the entry transitions of its nested machines. -/
inductive Machine.Connects (c : Controller) (m : Machine) : LayoutNode → LayoutNode → Prop where
  | default {id : StateId} (h : m.defaultState = some id) : Connects c m .entry (.state id)
  | entry {t : TransitionId} (h : t ∈ m.entryTransitions) :
    Connects c m .entry (c.transition t).destination.layoutNode
  | any {t : TransitionId} (h : t ∈ m.anyTransitions) :
    Connects c m .any (c.transition t).destination.layoutNode
  | state {id : StateId} {t : TransitionId} (h : id ∈ m.members)
    (ht : t ∈ (c.state id).transitions) :
    Connects c m (.state id) (c.transition t).destination.layoutNode
  | machine {id : MachineId} {t : TransitionId} (h : id ∈ m.children)
    (ht : t ∈ (c.machine id).entryTransitions) :
    Connects c m (.machine id) (c.transition t).destination.layoutNode

namespace Layout

variable {c : Controller} {m : Machine} {u v : LayoutNode}

theorem mem_startingPoints : u ∈ (startingPoints m).map (·.1) ↔ m.HasNode u := by
  have hindexed (children : List (LayoutNode × Option (Vec2 Single)))
      (f : (LayoutNode × Option (Vec2 Single)) × Nat → LayoutNode × Vec2 Float32)
      (hf : ∀ child, (f child).1 = child.1.1) :
      (children.zipIdx.map f).map (·.1) = children.map (·.1) := by
    have hmap : (children.zipIdx.map f).map (·.1) = (children.zipIdx.map (·.1)).map (·.1) := by
      rw [List.map_map, List.map_map]
      exact List.map_congr_left fun child _ => hf child
    rw [hmap, List.zipIdx_map_fst]
  simp only [startingPoints, List.map_append, List.mem_append]
  rw [hindexed _ _ fun _ => rfl]
  simp only [children, List.map_append, List.mem_append, List.map_map]
  constructor
  · rintro (h | h | h)
    · have hcases : u = .entry ∨ u = .exit ∨ u = .any := by simpa using h
      rcases hcases with rfl | rfl | rfl
      exacts [.entry, .exit, .any]
    · obtain ⟨placed, hplaced, rfl⟩ := List.mem_map.1 h
      exact .state (List.mem_map.2 ⟨placed, hplaced, rfl⟩)
    · obtain ⟨placed, hplaced, rfl⟩ := List.mem_map.1 h
      exact .machine (List.mem_map.2 ⟨placed, hplaced, rfl⟩)
  · rintro (_ | _ | _ | h | h)
    · exact .inl (by simp)
    · exact .inl (by simp)
    · exact .inl (by simp)
    · obtain ⟨placed, hplaced, rfl⟩ := List.mem_map.1 h
      exact .inr (.inl (List.mem_map.2 ⟨placed, hplaced, rfl⟩))
    · obtain ⟨placed, hplaced, rfl⟩ := List.mem_map.1 h
      exact .inr (.inr (List.mem_map.2 ⟨placed, hplaced, rfl⟩))

theorem mem_connections : (u, v) ∈ connections c m ↔ m.Connects c u v := by
  simp only [connections, List.mem_append, List.mem_flatMap, List.mem_map, Option.mem_toList,
    Option.map_eq_some_iff, Prod.mk.injEq]
  constructor
  · rintro ((((h | h) | h) | h) | h)
    · obtain ⟨id, hid, rfl, rfl⟩ := h
      exact .default hid
    · obtain ⟨t, ht, rfl, rfl⟩ := h
      exact .entry ht
    · obtain ⟨t, ht, rfl, rfl⟩ := h
      exact .any ht
    · obtain ⟨placed, hplaced, t, ht, rfl, rfl⟩ := h
      exact .state (List.mem_map.2 ⟨placed, hplaced, rfl⟩) ht
    · obtain ⟨placed, hplaced, t, ht, rfl, rfl⟩ := h
      exact .machine (List.mem_map.2 ⟨placed, hplaced, rfl⟩) ht
  · rintro (h | h | h | ⟨h, ht⟩ | ⟨h, ht⟩)
    · exact .inl (.inl (.inl (.inl ⟨_, h, rfl, rfl⟩)))
    · exact .inl (.inl (.inl (.inr ⟨_, h, rfl, rfl⟩)))
    · exact .inl (.inl (.inr ⟨_, h, rfl, rfl⟩))
    · obtain ⟨placed, hplaced, rfl⟩ := List.mem_map.1 h
      exact .inl (.inr ⟨placed, hplaced, _, ht, rfl, rfl⟩)
    · obtain ⟨placed, hplaced, rfl⟩ := List.mem_map.1 h
      exact .inr ⟨placed, hplaced, _, ht, rfl, rfl⟩

/-! ## Edges as pairs without an order -/

variable (l : Layout)

/-- The edges without their orientation. -/
def links : List (Sym2 LayoutNode) := l.edges.map fun (a, b) => s(a, b)

variable {l} in
theorem hasEdge_iff {a b : LayoutNode} : l.hasEdge a b = true ↔ s(a, b) ∈ l.links := by
  simp only [hasEdge, Bool.or_eq_true, List.contains_iff_mem, links, List.mem_map]
  constructor
  · rintro (h | h)
    · exact ⟨_, h, rfl⟩
    · exact ⟨_, h, Sym2.eq_swap⟩
  · rintro ⟨⟨x, y⟩, h, heq⟩
    rcases Sym2.eq_iff.1 heq with ⟨rfl, rfl⟩ | ⟨rfl, rfl⟩
    exacts [.inl h, .inr h]

/-- An edge is added once, and only between nodes that are there. -/
theorem links_addEdge (a b : LayoutNode) : (l.addEdge a b).links =
    if a ∈ l.nodes ∧ b ∈ l.nodes ∧ s(a, b) ∉ l.links then l.links ++ [s(a, b)] else l.links := by
  have hcond : (l.hasNode a && l.hasNode b && !l.hasEdge a b) = true ↔
      a ∈ l.nodes ∧ b ∈ l.nodes ∧ s(a, b) ∉ l.links := by
    rw [← isSome_body?, ← isSome_body?, ← hasEdge_iff, Bool.and_eq_true, Bool.and_eq_true,
      Bool.not_eq_true', Bool.not_eq_true, and_assoc]
    rfl
  unfold addEdge
  by_cases h : a ∈ l.nodes ∧ b ∈ l.nodes ∧ s(a, b) ∉ l.links
  · rw [if_pos h, if_pos (hcond.2 h), links, List.map_append]
    rfl
  · rw [if_neg h, if_neg (mt hcond.1 h)]

theorem mem_links_addEdge {a b : LayoutNode} {p : Sym2 LayoutNode} :
    p ∈ (l.addEdge a b).links ↔ p ∈ l.links ∨ a ∈ l.nodes ∧ b ∈ l.nodes ∧ p = s(a, b) := by
  rw [links_addEdge]
  split
  · rename_i h
    rw [List.mem_append, List.mem_singleton]
    exact or_congr_right ⟨fun hp => ⟨h.1, h.2.1, hp⟩, fun hp => hp.2.2⟩
  · rename_i h
    refine ⟨.inl, fun hp => hp.elim id ?_⟩
    rintro ⟨ha, hb, rfl⟩
    by_contra hnew
    exact h ⟨ha, hb, hnew⟩

theorem nodup_links_addEdge {a b : LayoutNode} (h : l.links.Nodup) :
    (l.addEdge a b).links.Nodup := by
  rw [links_addEdge]
  split
  · rename_i hnew
    exact List.concat_eq_append ▸ h.concat hnew.2.2
  · exact h

theorem nodup_nodes_addNode {node : LayoutNode} {position : Vec2 Float32} (h : l.nodes.Nodup) :
    (l.addNode node position).nodes.Nodup := by
  rw [nodes_addNode]
  split
  · exact h
  · exact List.concat_eq_append ▸ h.concat ‹_›

/-! ## The start -/

/-- What adding edges one after another does to a layout. -/
theorem links_addEdges (pairs : List (LayoutNode × LayoutNode)) (h : l.links.Nodup) :
    let l' := pairs.foldl (fun l (a, b) => l.addEdge a b) l
    l'.nodes = l.nodes ∧ l'.links.Nodup ∧ ∀ p, p ∈ l'.links ↔ p ∈ l.links ∨
      ∃ a b, (a, b) ∈ pairs ∧ a ∈ l.nodes ∧ b ∈ l.nodes ∧ p = s(a, b) := by
  induction pairs generalizing l with
  | nil => exact ⟨rfl, h, fun p => by simp⟩
  | cons pair pairs ih =>
    obtain ⟨a, b⟩ := pair
    obtain ⟨hnodes, hnodup, hmem⟩ := ih (l.addEdge a b) (l.nodup_links_addEdge h)
    refine ⟨hnodes.trans (l.nodes_addEdge a b), hnodup, fun p => (hmem p).trans ?_⟩
    rw [mem_links_addEdge, nodes_addEdge, or_assoc]
    refine or_congr_right ⟨?_, ?_⟩
    · rintro (⟨ha, hb, rfl⟩ | ⟨x, y, hxy, hp⟩)
      · exact ⟨a, b, List.mem_cons_self, ha, hb, rfl⟩
      · exact ⟨x, y, List.mem_cons_of_mem _ hxy, hp⟩
    · rintro ⟨x, y, hxy, hp⟩
      rcases List.mem_cons.1 hxy with heq | hxy
      · cases heq
        exact .inl hp
      · exact .inr ⟨x, y, hxy, hp⟩

theorem nodup_nodes_addNodes (points : List (LayoutNode × Vec2 Float32)) (h : l.nodes.Nodup) :
    (points.foldl (fun l (node, position) => l.addNode node position) l).nodes.Nodup := by
  induction points generalizing l with
  | nil => exact h
  | cons point points ih => exact ih _ (l.nodup_nodes_addNode h)

theorem links_addNodes (points : List (LayoutNode × Vec2 Float32)) :
    (points.foldl (fun l (node, position) => l.addNode node position) l).links = l.links := by
  have hnode (l : Layout) (node : LayoutNode) (position : Vec2 Float32) :
      (l.addNode node position).links = l.links := by
    unfold addNode
    split <;> rfl
  induction points generalizing l with
  | nil => rfl
  | cons point points ih => rw [List.foldl_cons, ih, hnode]

/-- The layout of a machine starts with exactly one body for each node of the machine, and with
exactly one edge between two of them, or from one to itself, if the machine connects them in some
direction; what leads out of the machine adds nothing. -/
theorem ofMachine_graph (c : Controller) (id : MachineId) (settings : LayoutSettings) :
    let m := c.machine id
    let l := ofMachine c id settings
    l.nodes.Nodup ∧ (∀ node, node ∈ l.nodes ↔ m.HasNode node) ∧ l.links.Nodup ∧
      ∀ u v, s(u, v) ∈ l.links ↔
        m.HasNode u ∧ m.HasNode v ∧ (m.Connects c u v ∨ m.Connects c v u) := by
  intro m l
  have hshows (node : LayoutNode) : node ∈ l.nodes ↔ m.HasNode node :=
    mem_nodes_ofMachine.trans mem_startingPoints
  have hempty : (empty settings).links = [] := rfl
  obtain ⟨hnodes, hnodup, hlinks⟩ := links_addEdges
    ((startingPoints m).foldl (fun l (node, position) => l.addNode node position) (empty settings))
    (connections c m) (by rw [links_addNodes, hempty]; exact List.nodup_nil)
  refine ⟨?_, hshows, hnodup, fun u v => (hlinks s(u, v)).trans ?_⟩
  · exact hnodes ▸ nodup_nodes_addNodes _ _ List.nodup_nil
  · rw [links_addNodes, hempty, ← hnodes]
    constructor
    · rintro (h | ⟨a, b, hab, ha, hb, heq⟩)
      · cases h
      have hab := mem_connections.1 hab
      have ha := (hshows a).1 ha
      have hb := (hshows b).1 hb
      rcases Sym2.eq_iff.1 heq with ⟨rfl, rfl⟩ | ⟨rfl, rfl⟩
      · exact ⟨ha, hb, .inl hab⟩
      · exact ⟨hb, ha, .inr hab⟩
    · rintro ⟨hu, hv, h⟩
      have hu := (hshows u).2 hu
      have hv := (hshows v).2 hv
      refine .inr ?_
      rcases h with h | h
      · exact ⟨u, v, mem_connections.2 h, hu, hv, rfl⟩
      · exact ⟨v, u, mem_connections.2 h, hv, hu, Sym2.eq_swap⟩

end Layout

end MotionScript
