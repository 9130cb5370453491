import MotionScript.Proofs.Contents.Sayable
import MotionScript.Proofs.Images.Elsewhere
import MotionScript.Proofs.RoundTrip.LinkingOrder
/-!
# Canonical text of parsed documents

The canonical text of a document that has been read is read again, to an equal tree, and it is the
canonical text of this tree unless a nested machine lists its transitions in another order than the
text links them in.
-/

namespace MotionScript

namespace Document

variable {source name : String} {host host' : MemoryHost} {doc : Document}

/-- A document that has been read can be written, and keeps its name. -/
theorem controller_writable (hread : Document.read source name host = (.ok doc, host'))
    (hfinite : doc.controller.Finite) (hsayable : doc.controller.Sayable) :
    doc.controller.Writable host.registry ∧ doc.controller.WellFormed ∧
      doc.controller.name = name := by
  have hreached := Grammar.reached_calls (g := Grammar.document MemoryHost) .document Frame.document
    source { controller := { name }, host }
  have hdoc := controller_eq_session hread
  have hname : doc.controller.name = name := by
    rw [read_eq] at hread
    split at hread <;> cases hread
    exact finish_name source name host
  have hwell := session_wellFormed source name host
  rw [hdoc] at hfinite hsayable hname ⊢
  exact ⟨hsayable.controller hfinite hwell (session_charted source name host) hreached.plain
    hreached.recorded, hwell, hname⟩

/-- The canonical text of a document with finite numbers, which a host without asset root has read, is
read again without a warning, to an equal tree, if there are words for all that the document holds.
With all lists in linking order, they keep their order, and the text is canonical again. -/
theorem canonicalText_reread (hread : Document.read source name host = (.ok doc, host'))
    (hroot : host.assetRoot = none) (hfinite : doc.controller.Finite)
    (hsayable : doc.controller.Sayable) :
    ∃ doc' host'', Document.read doc.controller.canonicalText name host = (.ok doc', host'') ∧
      doc'.warnings = [] ∧ doc.controller.SameTree doc'.controller ∧
      (doc.controller.InLinkingOrder → doc.controller.SameOrder doc'.controller ∧
        doc'.controller.canonicalText = doc.controller.canonicalText) := by
  obtain ⟨hwritable, hwell, rfl⟩ := controller_writable hread hfinite hsayable
  exact hwritable.reread_canonicalText hwell hroot

end Document

/-! ## Graphs without records -/

/-- All of a controller but its records. -/
structure Unrecorded where
  name : String
  parameters : List Parameter
  layers : Array Layer
  machines : Array Machine
  states : Array State
  transitions : Array Transition
  motions : Array Motion
deriving DecidableEq

namespace Controller

def unrecorded (c : Controller) : Unrecorded :=
  ⟨c.name, c.parameters, c.layers, c.machines, c.states, c.transitions, c.motions⟩

/-- Without records, the rest is all there is. -/
theorem eq_of_unrecorded {c c' : Controller} (h : c.unrecorded = c'.unrecorded)
    (hr : c.records = #[]) (hr' : c'.records = #[]) : c = c' := by
  obtain ⟨_, _, _, _, _, _, _, _⟩ := c
  obtain ⟨_, _, _, _, _, _, _, _⟩ := c'
  cases hr
  cases hr'
  cases h
  rfl

/-- Without records there is nothing to say about them. -/
theorem Sayable.of_no_records {c : Controller}
    (names : ∀ m, ((c.machine m).members.map (fun s => (c.state s).name) ++
      (c.machine m).children.map fun m => (c.machine m).name).Nodup)
    (layerNames : (c.layers.toList.map (·.name)).Nodup)
    (ordered : ∀ t ∈ c.transitions, t.interruption = .none → t.ordered = false)
    (trees : ∀ t, .tree t ∈ c.motions → t.Sayable) (hr : c.records = #[]) (hl : c.listedRecords = []) :
    c.Sayable where
  names
  layerNames
  ordered
  trees
  records _ h := absurd (hr ▸ h) (Array.not_mem_empty _)
  machineRecords layer m _ r h := by
    have hlisted : r ∈ c.listedRecords := List.mem_append_left _ (mem_flatMap_of_mem rfl h)
    exact absurd (hl ▸ hlisted) List.not_mem_nil
  stateRecords st hst r h := by
    have hlisted : r ∈ c.listedRecords :=
      List.mem_append_right _ (List.mem_flatMap.2 ⟨st, Array.mem_def.1 hst, h⟩)
    exact absurd (hl ▸ hlisted) List.not_mem_nil

/-- A reading that gives a controller without records. -/
theorem exists_read_unrecorded (source name : String) (host : MemoryHost) {c : Controller}
    (hc : c.records = #[])
    (h : (Document.read source name host).1.toOption.map
      (fun doc => (doc.controller.unrecorded, doc.controller.records.size)) =
        some (c.unrecorded, 0)) :
    ∃ doc host', Document.read source name host = (.ok doc, host') ∧ doc.controller = c := by
  rcases hread : Document.read source name host with ⟨_ | doc, host'⟩ <;> rw [hread] at h
  · cases h
  · obtain ⟨hrest, hsize⟩ := Prod.mk.inj (Option.some.inj h)
    exact ⟨doc, host', rfl, eq_of_unrecorded hrest (Array.size_eq_zero_iff.1 hsize) hc⟩

/-! ## Two documents -/

/-- A state of a nested machine with a clip, a transition to its sibling and one to a later machine. -/
def inOrder : Controller :=
  { name := "Hero"
    parameters := [⟨"v", .float .zero⟩]
    layers := #[{ name := "L", machine := ⟨0⟩ }]
    machines := #[{ name := "L", machines := [{ node := ⟨1⟩ }, { node := ⟨2⟩ }] },
      { name := "M", states := [{ node := ⟨0⟩ }, { node := ⟨1⟩ }] }, { name := "N" }]
    states := #[{ name := "A", motion := some ⟨0⟩, transitions := [⟨0⟩, ⟨1⟩] }, { name := "B" }]
    transitions := #[{ Transition.new (.state ⟨1⟩) with conditions := [⟨"v", .greater, .one⟩] },
      Transition.new (.machine ⟨2⟩)]
    motions := #[.clip ⟨"walk", .animationClip⟩] }

/-- The source that it is read from. -/
def inOrderSource : String :=
  "float v; layer L \x7b stateMachine M \x7b state A \x7b clip walk; if (v > 1) goto B; goto /N; \x7d " ++
    "state B \x7b \x7d \x7d stateMachine N \x7b \x7d \x7d"

theorem finite_inOrder : inOrder.Finite where
  parameters p hp x hx := by
    obtain rfl := List.mem_singleton.1 hp
    cases hx
    decide
  layers := by decide
  states st hst := by
    obtain rfl | rfl := List.mem_pair.1 (Array.mem_def.1 hst)
    all_goals exact ⟨by rintro x ⟨⟩; decide, by rintro x ⟨⟩; decide⟩
  transitions t ht := by
    obtain rfl | rfl := List.mem_pair.1 (Array.mem_def.1 ht)
    all_goals exact ⟨by decide, by decide, by decide, by decide⟩
  trees t ht := nomatch List.mem_singleton.1 (Array.mem_def.1 ht)
  records _ h := absurd h (Array.not_mem_empty _)

theorem sayable_inOrder : inOrder.Sayable := by
  refine .of_no_records (fun m => ?_) (by decide) (by decide) (fun t ht => ?_) rfl rfl
  · obtain ⟨i⟩ := m
    match i with
    | 0 | 1 | 2 => decide
    | i + 3 => exact List.nodup_nil
  · exact nomatch List.mem_singleton.1 (Array.mem_def.1 ht)

theorem inLinkingOrder_inOrder : inOrder.InLinkingOrder where
  machine layer m hm hroot := by
    obtain ⟨i⟩ := m
    match i with
    | 0 | 1 | 2 | i + 3 => exact ⟨.nil, .nil⟩
  state layer m hm hroot s hs := by
    obtain ⟨i⟩ := s
    match i with
    | 0 =>
      obtain ⟨k⟩ := m
      match k with
      | 1 => exact List.pairwise_pair.2 (by decide +kernel)
      | 0 | 2 | k + 3 => cases hs
    | 1 | i + 2 => exact .nil

/-- A nested machine with a transition to a later machine before one to a state around it. -/
def outOfOrder : Controller :=
  { name := "Hero"
    layers := #[{ name := "L", machine := ⟨0⟩ }]
    machines := #[
      { name := "L", states := [{ node := ⟨0⟩ }], machines := [{ node := ⟨1⟩ }, { node := ⟨2⟩ }] },
      { name := "M", entryTransitions := [⟨0⟩, ⟨1⟩] }, { name := "N" }]
    states := #[{ name := "X" }]
    transitions := #[Transition.new (.machine ⟨2⟩), Transition.new (.state ⟨0⟩)] }

/-- The source that it is read from. -/
def outOfOrderSource : String :=
  "layer L \x7b stateMachine M \x7b goto /N; goto /X; \x7d state X \x7b \x7d stateMachine N \x7b \x7d \x7d"

theorem finite_outOfOrder : outOfOrder.Finite where
  parameters _ h := absurd h List.not_mem_nil
  layers := by decide
  states st hst := by
    obtain rfl := List.mem_singleton.1 (Array.mem_def.1 hst)
    exact ⟨by rintro x ⟨⟩; decide, by rintro x ⟨⟩; decide⟩
  transitions t ht := by
    obtain rfl | rfl := List.mem_pair.1 (Array.mem_def.1 ht)
    all_goals exact ⟨by decide, by decide, by decide, by decide⟩
  trees _ h := absurd h (Array.not_mem_empty _)
  records _ h := absurd h (Array.not_mem_empty _)

theorem sayable_outOfOrder : outOfOrder.Sayable := by
  refine .of_no_records (fun m => ?_) (by decide) (by decide)
    (fun _ h => absurd h (Array.not_mem_empty _)) rfl rfl
  obtain ⟨i⟩ := m
  match i with
  | 0 | 1 | 2 => decide
  | i + 3 => exact List.nodup_nil

end Controller

namespace Document

theorem canonicalText_reread_inOrder :
    ∃ doc doc' host' host'', Document.read Controller.inOrderSource "Hero" ({} : MemoryHost) =
        (.ok doc, host') ∧
      Document.read doc.controller.canonicalText "Hero" ({} : MemoryHost) = (.ok doc', host'') ∧
      doc'.warnings = [] ∧ doc.controller.SameTree doc'.controller ∧
      doc.controller.SameOrder doc'.controller ∧
      doc'.controller.canonicalText = doc.controller.canonicalText := by
  obtain ⟨doc, host', hread, hdoc⟩ := Controller.exists_read_unrecorded Controller.inOrderSource
    "Hero" {} (show Controller.inOrder.records = #[] from rfl) (by decide +kernel)
  obtain ⟨doc', host'', hread', hwarnings, htree, horder⟩ := canonicalText_reread hread rfl
    (hdoc ▸ Controller.finite_inOrder) (hdoc ▸ Controller.sayable_inOrder)
  exact ⟨doc, doc', host', host'', hread, hread', hwarnings, htree,
    horder (hdoc ▸ Controller.inLinkingOrder_inOrder)⟩

/-- Canonical text declares a state in front of the machine that it was declared behind, and the
transition to it, which has then not to wait, changes its place. -/
theorem not_canonicalText_reread :
    ¬∀ (source name : String) (host host' : MemoryHost) (doc : Document), host.assetRoot = none →
      Document.read source name host = (.ok doc, host') → doc.controller.Finite →
      doc.controller.Sayable → ∃ doc' host'',
        Document.read doc.controller.canonicalText name host = (.ok doc', host'') ∧
        doc'.controller.canonicalText = doc.controller.canonicalText := by
  intro h
  obtain ⟨doc, host', hread, hdoc⟩ := Controller.exists_read_unrecorded Controller.outOfOrderSource
    "Hero" {} (show Controller.outOfOrder.records = #[] from rfl) (by decide +kernel)
  obtain ⟨doc', host'', hread', htext⟩ := h _ _ _ _ _ rfl hread
    (hdoc ▸ Controller.finite_outOfOrder) (hdoc ▸ Controller.sayable_outOfOrder)
  have hdiffers : (Document.read Controller.outOfOrder.canonicalText "Hero"
      ({} : MemoryHost)).1.toOption.map (·.controller.canonicalText) ≠
        some Controller.outOfOrder.canonicalText := by decide +kernel
  rw [hdoc] at hread' htext
  rw [hread'] at hdiffers
  exact hdiffers (congrArg some htext)

end Document

end MotionScript
