import MotionScript.Proofs.Images.Hosts
import MotionScript.Proofs.Reports.Labels
/-!
# Names of stored objects

A host that lists what it is handed changes nothing about a reading, so its list tells of every
host. No name is in it twice, and when a document can be read, every object of its graph that is
stored is in it once.
-/

namespace MotionScript

/-- A host that lists the objects it is handed, with their names, and otherwise leaves everything to
another host. -/
structure Recorder (η : Type) where
  host : η
  stored : List (ObjectRef × String) := []

namespace Recorder

variable {η : Type} [Host η]

instance : Host (Recorder η) where
  resolve j reference kind :=
    let (asset, host) := Host.resolve j.host reference kind
    (asset, { j with host })
  persist j object name := ⟨Host.persist j.host object name, j.stored ++ [(object, name)]⟩
  schema? j name := Host.schema? j.host name
  warn j message := { j with host := Host.warn j.host message }

/-- What a recorder is handed is listed. -/
theorem stored_of_told {j j' : Recorder η} {stored : List (ObjectRef × String)}
    (h : Host.Told j stored j') : j'.stored = j.stored ++ stored := by
  induction h with
  | nothing => exact (List.append_nil _).symm
  | resolve ht reference kind ih => exact ih
  | warn ht message ih => exact ih
  | persist ht object name ih =>
    rw [← List.append_assoc, ← ih]
    rfl

/-- A host, and the same host with a recorder. -/
def stage (η : Type) [Host η] (name : String) : Stage η (Recorder η) where
  graph := { name }
  symbols := #[]
  warnings := []
  span := id
  position := id
  aligned := Array.size_empty
  Agree host names j names' := j.host = host ∧ names' = names
  resolve := by
    rintro _ j names _ ⟨rfl, rfl⟩ reference kind
    exact ⟨rfl, rfl, rfl⟩
  schema := by
    rintro _ j names _ ⟨rfl, rfl⟩ name
    rfl
  warn := by
    rintro _ j names _ ⟨rfl, rfl⟩ message
    exact ⟨rfl, rfl⟩
  persist := by
    rintro _ j names _ ⟨rfl, rfl⟩ object base
    rw [Backdrop.object_nothing rfl]
    exact ⟨rfl, rfl⟩

end Recorder

namespace Document

variable {η : Type} [Host η]

/-- A recorder changes nothing about a reading. -/
theorem read_recorder (source name : String) (host : η) :
    (read source name (⟨host, []⟩ : Recorder η)).1 = (read source name host).1 ∧
      (read source name (⟨host, []⟩ : Recorder η)).2.host = (read source name host).2 := by
  obtain ⟨hresult, hhost, -⟩ := read_alike (Recorder.stage η name) rfl
    (show (⟨host, []⟩ : Recorder η).host = host ∧ [] = [] from ⟨rfl, rfl⟩) source
  exact ⟨hresult, hhost⟩

/-- The objects that a reading hands to its host, with their names, in order. -/
def stored (source name : String) (host : η) : List (ObjectRef × String) :=
  (read source name (⟨host, []⟩ : Recorder η)).2.stored

/-- Stored objects have names of their own, and all of them are stored. A reading hands no name to
its host twice, also if it fails: the search for a free name ends at the first candidate that is
free. When a document can be read, its host has been handed the controller and all machines, states,
transitions, records and blend trees of the graph, each once, and nothing else. A list of what the
host is handed changes nothing about the reading. -/
theorem stored_once (source name : String) (host : η) :
    (read source name (⟨host, []⟩ : Recorder η)).1 = (read source name host).1 ∧
      (read source name (⟨host, []⟩ : Recorder η)).2.host = (read source name host).2 ∧
      ((stored source name host).map (·.2)).Nodup ∧
      (∀ used base, ∃ n ≤ used.length, freshName used base = numbered base n ∧
        numbered base n ∉ used ∧ ∀ m < n, numbered base m ∈ used) ∧
      ∀ doc, (read source name host).1 = .ok doc → ∀ object,
        ((stored source name host).map (·.1)).count object =
          if doc.controller.stores object then 1 else 0 := by
  obtain ⟨hresult, hhost⟩ := read_recorder source name host
  have hright := Grammar.Run.finish_right
    (run_reporting source name (⟨host, []⟩ : Recorder η)).1
  obtain ⟨stored', htold, hnames, hcount⟩ := hright.stored
  have hstored : stored source name host = stored' := by
    rw [stored, read_eq]
    exact Recorder.stored_of_told htold
  refine ⟨hresult, hhost, ?_, freshName_first, fun doc hdoc object => ?_⟩
  · rw [hstored, hnames]
    exact List.nodup_reverse.2 hright.names
  · rw [← hresult, read_eq] at hdoc
    split at hdoc
    · cases hdoc
    · cases hdoc
      rw [hstored]
      exact hcount object

example :
    stored "layer B \x7b state A \x7b goto B; \x7d state B \x7b \x7d state A \x7b \x7d \x7d" "Hero"
        ({} : MemoryHost) =
      [(.controller, "Hero"), (.machine ⟨0⟩, "B"), (.state ⟨0⟩, "B/A"), (.state ⟨1⟩, "B/B"),
        (.state ⟨2⟩, "B/A1"), (.transition ⟨0⟩, "B/A/Transition")] := by
  decide +kernel

end Document

end MotionScript
