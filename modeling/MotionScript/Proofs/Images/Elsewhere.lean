import MotionScript.Proofs.Images.Reading
import MotionScript.Proofs.Token.Runs
/-!
# Readings elsewhere

A document that is found elsewhere, with nothing in front of it, is read to the same graph, and the
same is reported of it, but for the places.
-/

namespace MotionScript

variable {η : Type} [Host η]

/-- Without anything in front, objects stay where they are. -/
theorem Backdrop.object_nothing {b : Backdrop} {name : String} (h : b.graph = { name })
    (object : ObjectRef) : b.object object = object := by
  have ho : b.offsets = {} := congrArg Controller.offsets h
  cases object <;>
    simp [Backdrop.object, Backdrop.layer, ho, Offsets.machineId_nothing, Offsets.stateId_nothing,
      Offsets.transitionId_nothing, Offsets.motionId_nothing, Offsets.recordId_nothing]

/-- A document that is found elsewhere. -/
def Stage.elsewhere (η : Type) [Host η] (name : String) (span : Span → Span)
    (position : Position → Position) : Stage η η where
  graph := { name }
  symbols := #[]
  warnings := []
  span
  position
  aligned := Array.size_empty
  Agree h names h' names' := h' = h ∧ names' = names
  resolve := by
    rintro h _ names _ ⟨rfl, rfl⟩ reference kind
    exact ⟨rfl, rfl, rfl⟩
  schema := by
    rintro h _ names _ ⟨rfl, rfl⟩ name
    rfl
  warn := by
    rintro h _ names _ ⟨rfl, rfl⟩ message
    exact ⟨rfl, rfl⟩
  persist := by
    rintro h _ names _ ⟨rfl, rfl⟩ object base
    rw [Backdrop.object_nothing rfl]
    exact ⟨rfl, rfl⟩

namespace Document

/-- What the rules make of the tokens of a document, also elsewhere. -/
theorem run_elsewhere (source name : String) (host : η) (span : Span → Span)
    (position : Position → Position) :
    ((Grammar.document η).feed (Event.ofTokens (Lexer.tokenize .document source).tokens)
        (start name host)).Like (Stage.elsewhere η name span position)
      ((Grammar.document η).feed ((Event.ofTokens (Lexer.tokenize .document source).tokens).map
        (Stage.elsewhere η name span position).event) (start name host)) :=
  Grammar.feed_alike _ (start_alike rfl rfl rfl ⟨rfl, rfl⟩)

/-- A reading keeps the name of its controller. -/
theorem finish_name (source name : String) (host : η) :
    (run source name host).finish.controller.name = name := by
  have h := run_elsewhere source name host id id
  have hevent : (Stage.elsewhere η name id id).event = id := rfl
  rw [hevent, List.map_id] at h
  exact congrArg Controller.name (h.finish rfl).controller

/-- Whether two readings have the same result, but for the places of what is reported. -/
inductive SameResult : Except Failure Document → Except Failure Document → Prop where
  | ok {doc doc' : Document} (hc : doc'.controller = doc.controller)
    (hw : doc'.warnings.map (·.message) = doc.warnings.map (·.message)) :
    SameResult (.ok doc) (.ok doc')
  | error {f f' : Failure} (hf : f'.report = f.report) :
    SameResult (.error f) (.error f')

/-- Documents have the same result if their tokens do elsewhere. -/
theorem sameResult_of_elsewhere {source source' name : String} {host : η} (span : Span → Span)
    (position : Position → Position)
    (hrun : (Grammar.document η).feed ((Event.ofTokens
        (Lexer.tokenize .document source').tokens).map
          (Stage.elsewhere η name span position).event) (start name host) =
      (Grammar.document η).feed ((Event.ofTokens
        (Lexer.tokenize .document source).tokens).map
          (Stage.elsewhere η name span position).event) (start name host))
    (hstream : (Lexer.tokenize .document source').failure.map Failure.report =
      (Lexer.tokenize .document source).failure.map Failure.report) :
    SameResult (read source name host).1 (read source' name host).1 ∧
      (read source' name host).2 = (read source name host).2 := by
  have h := run_elsewhere source name host span position
  have h' := run_elsewhere source' name host span position
  rw [hrun] at h'
  have hfailure : (run source' name host).failure.map Failure.report =
      (run source name host).failure.map Failure.report := by
    have hfeed := congrArg (Option.map Failure.report) (h'.failure.symm.trans h.failure)
    rw [Option.map_map, Option.map_map] at hfeed
    simp only [run_eq, Option.orElse_eq_orElse, Option.orElse_eq_or, Option.map_or]
    exact congrArg₂ Option.or hfeed hstream
  have hfinish := h.finish rfl
  have hfinish' := h'.finish rfl
  have hcontroller : (run source' name host).finish.controller =
      (run source name host).finish.controller := by
    rw [← Controller.followedBy_named (finish_name source' name host),
      ← Controller.followedBy_named (finish_name source name host)]
    exact hfinish'.controller.symm.trans hfinish.controller
  have hmessages (ws : List Diagnostic) : ((Stage.elsewhere η name span position).warnings ++
      ws.map (Stage.elsewhere η name span position).diagnostic).map (·.message) =
        ws.map (·.message) := by
    show ([] ++ _ : List Diagnostic).map _ = _
    rw [List.nil_append, List.map_map]
    rfl
  have hwarnings : (run source' name host).finish.warnings.map (·.message) =
      (run source name host).finish.warnings.map (·.message) := by
    have hw := congrArg (List.map (·.message)) (hfinish'.warnings.symm.trans hfinish.warnings)
    rw [hmessages, hmessages] at hw
    exact hw
  rw [read_eq, read_eq]
  refine ⟨?_, hfinish'.agree.1.symm.trans hfinish.agree.1⟩
  cases hf : (run source name host).failure with
  | none =>
    rw [hf, Option.map_none, Option.map_eq_none_iff] at hfailure
    rw [hfailure]
    exact .ok hcontroller hwarnings
  | some failure =>
    rw [hf, Option.map_some, Option.map_eq_some_iff] at hfailure
    obtain ⟨failure', hf', hreport⟩ := hfailure
    rw [hf']
    exact .error hreport

end Document

end MotionScript
