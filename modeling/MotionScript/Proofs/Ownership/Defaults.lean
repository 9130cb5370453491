import MotionScript.Proofs.Ownership.Declared
/-!
# Default states

The default state of a machine is found by its path in the table of the layer. The path of a machine
need not identify it, so the state can be one of another machine with the same path.
-/

namespace MotionScript.Document

variable {η : Type} [Host η] {source name : String} {host host' : η} {doc : Document}

/-- The default state of a machine is the first node that is declared with its name below the path of
the machine. It is a child of the machine, or of an earlier machine of the layer with the same
path. -/
theorem default_of_path (h : read source name host = (.ok doc, host')) {id : MachineId}
    {st : StateId} (hst : (doc.controller.machine id).defaultState = some st) :
    ∃ layer path, doc.controller.HasPath layer (.machine id) path ∧
      firstNode? (declared source name host) layer (path.join (doc.controller.state st).name) =
        some (.state st) ∧
      (st ∈ (doc.controller.machine id).members ∨
        ∃ owner, owner.index < id.index ∧ doc.controller.HasPath layer (.machine owner) path ∧
          st ∈ (doc.controller.machine owner).members) := by
  have hcharted := session_charted source name host
  rw [← controller_eq_session h] at hcharted
  obtain ⟨layer, path, owner, hid, ho, hmem, hle, hfirst⟩ := hcharted.defaults id st hst
  refine ⟨layer, path, hid, hfirst, ?_⟩
  by_cases heq : owner = id
  · exact .inl (heq ▸ hmem)
  · have hne : owner.index ≠ id.index := fun hindex => heq (congrArg MachineId.mk hindex)
    exact .inr ⟨owner, by omega, ho, hmem⟩

theorem default_of_path_twins : ∃ doc host' st,
    read twins "Hero" ({} : MemoryHost) = (.ok doc, host') ∧
      (doc.controller.machine ⟨2⟩).defaultState = some st ∧
      ∃ layer path, doc.controller.HasPath layer (.machine ⟨2⟩) path ∧
        firstNode? (declared twins "Hero" ({} : MemoryHost)) layer
          (path.join (doc.controller.state st).name) = some (.state st) := by
  obtain ⟨doc, host', h⟩ := exists_read
    (show (read twins "Hero" ({} : MemoryHost)).1.isOk = true by decide +kernel)
  have hdefault : (read twins "Hero" ({} : MemoryHost)).1.toOption.map
      (fun doc => (doc.controller.machine ⟨2⟩).defaultState) = some (some ⟨0⟩) := by decide +kernel
  rw [h] at hdefault
  have hst : (doc.controller.machine ⟨2⟩).defaultState = some ⟨0⟩ := Option.some.inj hdefault
  obtain ⟨layer, path, hp, hfirst, -⟩ := default_of_path h hst
  exact ⟨doc, host', ⟨0⟩, h, hst, layer, path, hp, hfirst⟩

/-- The second of two machines with the same name has a default state that is a child of the first
one, though it has a state of its own with that name. -/
theorem not_default_inside : ¬∀ (source name : String) (host host' : MemoryHost) (doc : Document),
    read source name host = (.ok doc, host') → ∀ id st,
      (doc.controller.machine id).defaultState = some st →
        st ∈ (doc.controller.machine id).members := by
  intro hall
  obtain ⟨doc, host', h⟩ := exists_read
    (show (read twins "Hero" ({} : MemoryHost)).1.isOk = true by decide +kernel)
  have hmachine : (read twins "Hero" ({} : MemoryHost)).1.toOption.map
      (fun doc => ((doc.controller.machine ⟨2⟩).defaultState,
        (doc.controller.machine ⟨2⟩).members)) = some (some ⟨0⟩, [⟨1⟩]) := by decide +kernel
  rw [h] at hmachine
  obtain ⟨hdefault, hmembers⟩ := Prod.mk.inj (Option.some.inj hmachine)
  have hmem := hall _ _ _ _ _ h ⟨2⟩ ⟨0⟩ hdefault
  rw [hmembers] at hmem
  cases List.mem_singleton.1 hmem

end MotionScript.Document
