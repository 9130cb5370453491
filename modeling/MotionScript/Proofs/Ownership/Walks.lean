import MotionScript.Canonical.Document
import MotionScript.Proofs.Ownership.Forest
/-!
# Walks

Nesting is never deeper than there are nodes, so a walk that follows it as deep as there are nodes
misses none.
-/

namespace MotionScript

namespace Controller

variable {c : Controller}

/-- Whether the walks through a controller are cut off nowhere: they end by themselves. -/
structure WalksEnd (c : Controller) : Prop where
  /-- The walk for the paths of the nodes. -/
  paths : ∀ depth ≥ c.machines.size, ∀ id : MachineId, id.index < c.machines.size →
    ∀ path paths, c.pathsBelow depth id path paths = c.pathsBelow c.machines.size id path paths
  /-- The walk that writes machines. -/
  bodies : ∀ fuel ≥ c.machines.size, ∀ id : MachineId, id.index < c.machines.size →
    ∀ paths depth options, Canonical.machineBody c paths fuel id depth options =
      Canonical.machineBody c paths c.machines.size id depth options
  /-- The walk that writes motions. -/
  motions : ∀ fuel ≥ c.motions.size, ∀ id : MotionId, id.index < c.motions.size →
    ∀ depth key modifiers, Canonical.motionLines c fuel depth key modifiers (some id) =
      Canonical.motionLines c c.motions.size depth key modifiers (some id)

namespace WellFormed

theorem inner_lt (h : c.WellFormed) {outer : MachineId} {inner : Placed MachineId}
    (hi : inner ∈ (c.machine outer).machines) :
    outer.index < inner.node.index ∧ inner.node.index < c.machines.size := by
  have hchild : inner.node ∈ (c.machine outer).children := List.mem_map.2 ⟨inner, hi, rfl⟩
  exact ⟨h.machine_lt outer _ hchild,
    h.machine_mem.1 (List.mem_append_right _ (mem_childMachines hchild))⟩

theorem slot_lt (h : c.WellFormed) {tree : MotionId} {child : MotionId}
    (hc : child ∈ Motion.childMotions (c.motion tree)) :
    tree.index < child.index ∧ child.index < c.motions.size :=
  ⟨h.motion_lt tree child hc,
    h.motions_lt child (List.mem_append_right _ (mem_flatMap_of_mem rfl hc))⟩

/-- The paths below a machine are found at any depth that leaves room for all machines behind it. -/
theorem pathsBelow_eq (h : c.WellFormed) {depth depth' : Nat} {id : MachineId}
    (hid : id.index < c.machines.size) (hd : c.machines.size ≤ id.index + depth)
    (hd' : c.machines.size ≤ id.index + depth') (path : Path) (paths : NodePaths) :
    c.pathsBelow depth id path paths = c.pathsBelow depth' id path paths := by
  induction depth generalizing depth' id path paths with
  | zero => omega
  | succ depth ih =>
    obtain ⟨depth', rfl⟩ : ∃ n, depth' = n + 1 := ⟨depth' - 1, by omega⟩
    simp only [pathsBelow]
    refine List.foldr_ext _ _ _ fun inner hi paths => ?_
    obtain ⟨hlt, hin⟩ := h.inner_lt hi
    exact ih hin (by omega) (by omega) _ _

theorem machineBody_eq (h : c.WellFormed) {fuel fuel' : Nat} {id : MachineId}
    (hid : id.index < c.machines.size) (hf : c.machines.size ≤ id.index + fuel)
    (hf' : c.machines.size ≤ id.index + fuel') (paths : NodePaths) (depth : Nat)
    (options : List Canonical.Line) :
    Canonical.machineBody c paths fuel id depth options =
      Canonical.machineBody c paths fuel' id depth options := by
  induction fuel generalizing fuel' id depth options with
  | zero => omega
  | succ fuel ih =>
    obtain ⟨fuel', rfl⟩ : ∃ n, fuel' = n + 1 := ⟨fuel' - 1, by omega⟩
    have hinner : ∀ inner ∈ (c.machine id).machines,
        Canonical.machineBody c paths fuel inner.node (depth + 1) [] =
          Canonical.machineBody c paths fuel' inner.node (depth + 1) [] := by
      intro inner hi
      obtain ⟨hlt, hin⟩ := h.inner_lt hi
      exact ih hin (by omega) (by omega) _ _
    simp only [Canonical.machineBody]
    rw [List.map_congr_left (l := (c.machine id).machines) fun inner hi => by rw [hinner inner hi]]

theorem motionLines_eq (h : c.WellFormed) {fuel fuel' : Nat} {id : MotionId}
    (hid : id.index < c.motions.size) (hf : c.motions.size ≤ id.index + fuel)
    (hf' : c.motions.size ≤ id.index + fuel') (depth : Nat) (key modifiers : String) :
    Canonical.motionLines c fuel depth key modifiers (some id) =
      Canonical.motionLines c fuel' depth key modifiers (some id) := by
  induction fuel generalizing fuel' id depth key modifiers with
  | zero => omega
  | succ fuel ih =>
    obtain ⟨fuel', rfl⟩ : ∃ n, fuel' = n + 1 := ⟨fuel' - 1, by omega⟩
    rw [Canonical.motionLines.eq_def c (fuel + 1), Canonical.motionLines.eq_def c (fuel' + 1)]
    cases hm : c.motion id with
    | clip asset => simp only [hm]
    | tree t =>
      simp only [hm]
      have hchild : ∀ child ∈ t.children, ∀ key modifiers,
          Canonical.motionLines c fuel (depth + 1) key modifiers child.motion =
            Canonical.motionLines c fuel' (depth + 1) key modifiers child.motion := by
        intro child hc key modifiers
        cases hs : child.motion with
        | none => cases fuel <;> cases fuel' <;> rfl
        | some slot =>
          have hslot : slot ∈ Motion.childMotions (c.motion id) := by
            rw [hm]
            exact List.mem_filterMap.2 ⟨child, hc, hs⟩
          obtain ⟨hlt, hin⟩ := h.slot_lt hslot
          exact ih hin (by omega) (by omega) _ _ _
      rw [List.flatMap_congr fun child hc => hchild child hc _ _]

theorem walksEnd (h : c.WellFormed) : c.WalksEnd where
  paths _ hd _ hid _ _ := h.pathsBelow_eq hid (by omega) (by omega) _ _
  bodies _ hf _ hid _ _ _ := h.machineBody_eq hid (by omega) (by omega) _ _ _
  motions _ hf _ hid _ _ _ := h.motionLines_eq hid (by omega) (by omega) _ _ _

end WellFormed

end Controller

end MotionScript
