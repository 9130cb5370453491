import MotionScript.Proofs.Feeding.Items
/-!
# Statements in their scope

The statements that are written for a list of transitions of a state or a machine are read back in
the block of that state or machine, and nothing else happens there.
-/

namespace MotionScript

/-- Whether a rule is at an item of a block whose statements join a list of transitions: the entry or
any-state list of a machine, or the list of a state. -/
inductive Frame.Joins : Frame → Scope → Bool → Home → Prop
  | entry {m : OpenMachine} (h : m.scope.state = none) :
    Joins (.machine (.named m .item)) m.scope false (.entry m.scope.machine)
  | any {m : OpenMachine} (h : m.scope.state = none) :
    Joins (.machine (.named m .item)) m.scope true (.any m.scope.machine)
  | state {scope : Scope} {id : StateId} (h : scope.state = some id) :
    Joins (.state (.named scope id .item)) scope false (.state id)

variable {block : Frame} {scope : Scope} {any : Bool} {home : Home}

theorem Frame.Joins.exists_block (h : block.Joins scope any home) :
    ∃ words, block.Block scope words := by
  cases h with
  | entry | any => exact ⟨_, MachineRule.block _⟩
  | state => exact ⟨_, StateRule.block _ _⟩

theorem Frame.Joins.home_eq (h : block.Joins scope any home) :
    TransitionRule.home scope any = home := by
  cases h with
  | entry h | any h | state h => simp [TransitionRule.home, h]

/-- Whether a transition waits for linking as one of a list: with the same conditions and modifiers,
up to the sign of zeros, and for the path of its destination. -/
structure Pending.WaitsFor (p : Pending) (paths : Controller.NodePaths) (home : Home)
    (t : Transition) : Prop where
  transition : (p.transition == { t with destination := .exit }) = true
  home : p.home = home
  target : t.destination = .exit ∧ p.target = .exit ∨
    ∃ node path, t.destination = NodeRef.destination node ∧ paths.path? node = some path ∧
      p.target = .node path

theorem TransitionRule.Queues.waitsFor {paths : Controller.NodePaths} {t : Transition}
    {p q : Pending} (h : Queues paths scope any t q) (hbare : p.bare = q) :
    p.WaitsFor paths (TransitionRule.home scope any) t := by
  subst hbare
  obtain ⟨path, hwithin, htarget⟩ := h.target
  refine ⟨h.transition, h.home, ?_⟩
  cases path with
  | none => exact .inl ⟨hwithin, htarget⟩
  | some path =>
    obtain ⟨⟨node, hnode, hpath⟩, -⟩ := hwithin
    exact .inr ⟨node, path, hnode, hpath, htarget⟩

/-- Transition statements are read back. The statements that are written for a list of transitions
are split into tokens, and in the block they are written for they queue these transitions in the
same order and change nothing else. Numbers have to be finite, thresholds zero where they mean
nothing, `ordered` only with an interruption source; and the destinations are the exit or nodes of
the layer below its root machine. -/
theorem Canonical.statements_read {η : Type} [Host η] (c : Controller)
    (h : block.Joins scope any home) (depth : Nat) {ids : List TransitionId}
    (hw : ∀ id ∈ ids, TransitionRule.Writable (c.transition id))
    (hd : ∀ id ∈ ids, ∃ path,
      TransitionRule.Within c.nodePaths scope (c.transition id).destination path)
    (s : Session η) (below : List Frame) (p : Position) :
    let stream := Lexer.tokenize .document
      (render (statements c c.nodePaths scope.path any depth ids))
    stream.failure = none ∧ ∃ queued p',
      (Grammar.document η).feed (Event.ofTokens stream.tokens) ⟨block :: below, s, p, none⟩ =
        ⟨block :: below, { s with pending := s.pending ++ queued }, p', none⟩ ∧
      List.Forall₂ (fun t p => Pending.WaitsFor p c.nodePaths home t) (ids.map c.transition)
        queued := by
  obtain ⟨words, hblock⟩ := h.exists_block
  obtain ⟨gs, ⟨ps, hspells, hqueues⟩, hgs⟩ := Queueing.statements (F := (· = block))
    (fun f hf => hf ▸ hblock) c any depth hw hd
  obtain ⟨hfailure, hreads⟩ := hspells.reads
  obtain ⟨queued, j, hbare, hfeeds, -⟩ := hqueues η block below _ s rfl hreads
  obtain ⟨⟨p', hfeed⟩, -⟩ := hfeeds.feed p
  refine ⟨hfailure, queued, p', hfeed, ?_⟩
  have heach := hgs.each
  rw [← hbare, List.forall₂_map_right_iff] at heach
  rw [← h.home_eq]
  exact heach.imp fun t p hp => hp.waitsFor rfl

namespace Controller

/-- Two alternatives that lead to a state with a space in its name, and a way out. -/
def alternatives : Controller :=
  { name := "Hero"
    layers := #[{ name := "L", machine := ⟨0⟩ }]
    machines := #[{ name := "L", states := [{ node := ⟨0⟩ }, { node := ⟨1⟩ }] }]
    states := #[{ name := "A", transitions := [⟨0⟩, ⟨1⟩, ⟨2⟩] }, { name := "B c" }]
    transitions := #[{ Transition.new (.state ⟨1⟩) with conditions := [⟨"x", .holds, .zero⟩] },
      { Transition.new (.state ⟨1⟩) with conditions := [⟨"y", .greater, .one⟩] },
      { Transition.new .exit with exitTime := some .one }] }

/-- The scope of the state with these transitions. -/
def alternativesScope : Scope := ⟨["L", "A"], 0, ⟨0⟩, some ⟨0⟩, ⟨["L"]⟩⟩

example : Canonical.statements alternatives alternatives.nodePaths ⟨["L"]⟩ false 2 [⟨0⟩, ⟨1⟩, ⟨2⟩] =
    [.text 2 "if(x || y > 1) goto \"B c\";", .text 2 "wait(1) end;"] := by decide +kernel

theorem statements_read_alternatives :
    ∃ queued p', (Grammar.document MemoryHost).feed (Event.ofTokens (Lexer.tokenize .document
        (Canonical.render (Canonical.statements alternatives alternatives.nodePaths ⟨["L"]⟩ false 2
          [⟨0⟩, ⟨1⟩, ⟨2⟩]))).tokens)
        ⟨[.state (.named alternativesScope ⟨0⟩ .item)], { controller := alternatives, host := {} },
          ⟨0, 0⟩, none⟩ =
      ⟨[.state (.named alternativesScope ⟨0⟩ .item)],
        { controller := alternatives, host := {}, pending := queued }, p', none⟩ ∧
      List.Forall₂ (fun t p => Pending.WaitsFor p alternatives.nodePaths (.state ⟨0⟩) t)
        alternatives.transitions.toList queued := by
  have hw : ∀ id ∈ [⟨0⟩, ⟨1⟩, ⟨2⟩], TransitionRule.Writable (alternatives.transition id) := by
    simp only [List.forall_mem_cons]
    refine ⟨?_, ?_, ?_, by simp⟩
    all_goals exact ⟨by decide, by decide, by decide, by decide, by decide, by decide⟩
  have hstate : TransitionRule.Within alternatives.nodePaths alternativesScope
      (.state ⟨1⟩) (some ⟨["L", "B c"]⟩) :=
    ⟨⟨.state ⟨1⟩, rfl, by decide⟩, "L", "B c", [], rfl, rfl⟩
  have hd : ∀ id ∈ [⟨0⟩, ⟨1⟩, ⟨2⟩], ∃ path, TransitionRule.Within alternatives.nodePaths
      alternativesScope (alternatives.transition id).destination path := by
    simp only [List.forall_mem_cons]
    exact ⟨⟨_, hstate⟩, ⟨_, hstate⟩, ⟨none, rfl⟩, by simp⟩
  have hjoins : (Frame.state (.named alternativesScope ⟨0⟩ .item)).Joins alternativesScope false
      (.state ⟨0⟩) := .state rfl
  obtain ⟨-, h⟩ := Canonical.statements_read alternatives hjoins 2 hw hd
    ({ controller := alternatives, host := {} } : Session MemoryHost) [] ⟨0, 0⟩
  exact h

end Controller

end MotionScript
