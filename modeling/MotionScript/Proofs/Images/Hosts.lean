import MotionScript.Proofs.Images.Elsewhere
/-!
# Readings with another host

A document is read to the same result with any two hosts that answer alike.
-/

namespace MotionScript

/-- Nothing in front, and everything where it is. -/
def Backdrop.still (name : String) : Backdrop where
  graph := { name }
  symbols := #[]
  warnings := []
  span := id
  position := id
  aligned := Array.size_empty

namespace Backdrop

theorem diagnostic_still (name : String) : (still name).diagnostic = id := by
  have hlabel : (still name).label = id := rfl
  have hposition : (still name).position = id := rfl
  funext d
  rw [diagnostic, hlabel, hposition, List.map_id, Option.map_id]
  rfl

theorem failure_still (name : String) : (still name).failure = id := by
  funext f
  simp only [failure, diagnostic_still]
  rfl

theorem table_still (name : String) : (still name).table = id := by
  have hnode : (still name).offsets.node = id := by
    funext node
    have ho : (still name).offsets = {} := rfl
    cases node <;> simp [Offsets.node, ho, Offsets.machineId_nothing, Offsets.stateId_nothing]
  funext t
  simp [table, hnode]

theorem pending_still (name : String) : (still name).pending = id := by
  have ho : (still name).offsets = {} := rfl
  have hlayer (layer : Nat) : (still name).layer layer = layer := Nat.zero_add layer
  funext p
  obtain ⟨transition, target, home, owner, layer, hint, span, position⟩ := p
  cases home <;> simp [pending, Backdrop.home, ho, hlayer, Offsets.machineId_nothing,
    Offsets.stateId_nothing] <;> exact ⟨rfl, rfl⟩

theorem sync_still (name : String) : (still name).sync = id := by
  have hlayer (layer : Nat) : (still name).layer layer = layer := Nat.zero_add layer
  funext x
  simp only [sync, hlayer]
  rfl

end Backdrop

/-- A session is like itself. -/
theorem Stage.Like.self {η : Type} [Host η] {b : Stage η η} {s : Session η}
    (hb : b.toBackdrop = .still s.controller.name)
    (h : b.Agree s.host s.usedNames s.host s.usedNames) : b.Like s s where
  controller := by
    rw [hb]
    exact (Controller.followedBy_named rfl).symm
  symbols := by
    rw [hb, Backdrop.table_still, Array.map_id]
    exact (Array.empty_append ..).symm
  pending := by rw [hb, Backdrop.pending_still, List.map_id]
  syncs := by rw [hb, Backdrop.sync_still, List.map_id]
  warnings := by
    rw [hb, Backdrop.diagnostic_still, List.map_id]
    rfl
  agree := h

namespace Document

variable {η θ : Type} [Host η] [Host θ] (b : Stage η θ) {host : η} {host' : θ}

/-- Hosts that agree still do when they have been handed the controller. -/
theorem agree_start (name : String) (h : b.Agree host [] host' []) :
    b.Agree (start name host).session.host (start name host).session.usedNames
      (start name host').session.host (start name host').session.usedNames :=
  b.persist h .controller _

/-- Readings with hosts that agree have the same result, and then the hosts agree. -/
theorem read_alike {name : String} (hb : b.toBackdrop = .still name)
    (h : b.Agree host [] host' []) (source : String) :
    (read source name host').1 = (read source name host).1 ∧
      b.Agree (read source name host).2 (run source name host).finish.usedNames
        (read source name host').2 (run source name host').finish.usedNames := by
  have hevent : b.event = id := by
    rw [hb]
    rfl
  have hfeed := Grammar.feed_alike (Event.ofTokens (Lexer.tokenize .document source).tokens)
    (start_alike (b := b) (by rw [hb]; rfl) (by rw [hb]; rfl) (by rw [hb]; rfl)
      (agree_start b name h))
  rw [hevent, List.map_id] at hfeed
  have hfailure : (run source name host').failure = (run source name host).failure := by
    rw [run_eq, run_eq]
    simp only [hfeed.failure, hb, Backdrop.failure_still, Option.map_id_fun, id_eq]
  have hfinish := hfeed.finish (by rw [hb]; rfl)
  have hcontroller : (run source name host').finish.controller =
      (run source name host).finish.controller := by
    rw [← Controller.followedBy_named (finish_name source name host)]
    have hc := hfinish.controller
    rwa [hb] at hc
  have hwarnings : (run source name host').finish.warnings =
      (run source name host).finish.warnings := by
    have hw := hfinish.warnings
    rw [hb, Backdrop.diagnostic_still, List.map_id] at hw
    exact hw
  rw [read_eq, read_eq, hfailure, hcontroller, hwarnings]
  exact ⟨rfl, hfinish.agree⟩

end Document

end MotionScript
