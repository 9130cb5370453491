import MotionScript.Proofs.Feeding.Motions
import MotionScript.Proofs.Graph.MotionDepth
/-!
# Reading the motion of a state

The lines that are written for a motion are read back in the block of a state, which gets the same
tree, however deep it is nested.
-/

namespace MotionScript

variable {κ : Knowledge}

theorem MotionRule.settles_start {r : MotionRule} (hx : r.expect = .start) {η : Type} [Host η]
    (e : Event) (s : Session η) : (Frame.motion r).Settles e s := by
  unfold Frame.Settles
  simp only [Frame.react, react, hx, Frame.lift]
  cases r.reactStart e <;> trivial

/-- A motion written in a state becomes its motion. -/
theorem Keeps.motion {c : Controller} {depth : Nat} {id : MotionId}
    (h : c.MotionWritableFor (κ.finds · .animationClip) depth (some id)) (indent : Nat)
    {scope : Scope} {state : StateId} (hs : scope.state = some state) (o : Outline) :
    ∃ motions id', Keeps κ (Canonical.motionLines c depth indent "" "" (some id))
        (· = .state (.named scope state .item)) o
        { o.withMotions motions with
          controller := (o.withMotions motions).controller.modifyState state
            ({ · with motion := id' }) } {} ∧
      o.controller.motions.size ≤ motions.size ∧
      AgreesOn 0 o.controller.motions.size o.controller.motions motions ∧
      ∀ c' : Controller, AgreesOn o.controller.motions.size motions.size motions c'.motions →
        ReadMotion c c' (some id) id' := by
  obtain ⟨word, qs, hword, hspells, hreads⟩ :=
    h.rereads (m := {}) ⟨by decide, by decide⟩ .nothing indent
  obtain ⟨motions, id', hleads, hsize, hold, hsame⟩ := hreads (.state state) o (by simp)
  refine ⟨motions, id', ⟨_, hspells, fun f rest hf => ?_⟩, hsize, hold, hsame⟩
  subst hf
  refine Leads.forwardTo (f := .motion MotionRule.root) (by simp) (fun e s he => ?_) (fun s => ?_)
    (MotionRule.settles_start (r := { slot := .state state, scope := some scope }) rfl)
    (hleads (some scope) _ rest)
  · have he := he.is
    rcases hword with h | rfl | rfl
    · cases h
    all_goals
      simp +decide [Frame.react, Frame.lift, StateRule.react, StateRule.reactItem, he.word_isSymbol,
        he.word_isKeyword, Except.map]
  · simp only [Frame.onAttach, Frame.context, MotionRule.onAttach, MotionRule.root,
      Option.bind_some, hs]

/-! ## Trees -/

/-- What is known of a state in an outline. -/
theorem Session.exists_state {η : Type} {s s' : Session η} {id : StateId} {f : State → State}
    (h : s'.outline.controller.states = s.outline.controller.states.modify id.index f) {st : State}
    (hst : s.controller.states[id.index]? = some st) :
    ∃ st', s'.controller.states[id.index]? = some st' ∧ st'.unlinked = f st.unlinked := by
  have hget := congrArg (·[id.index]?) h
  simp only [Session.outline, Controller.unlinked, Array.getElem?_map, Array.getElem?_modify, hst,
    if_true, Option.map_some] at hget
  obtain ⟨st', hst', hunlinked⟩ := Option.map_eq_some_iff.1 hget
  exact ⟨st', hst', hunlinked⟩

/-- Motions are read back. The lines that are written for a motion are split into tokens, and in the
block of a state they are read into the same tree of blend trees, clips and empty slots, with the
names, types, parameters and thresholds of the trees and the slots of the children in order. The state
gets this motion and keeps what else it has, its transitions aside; the motions that were there stay
as they are. Trees may be nested to any depth; numbers have to be finite, what the type of a tree does
not use at its default, and clips are found by the host. -/
theorem Canonical.motion_read {η : Type} [Host η] (c : Controller) {s : Session η} {depth : Nat}
    {id : MotionId} (hw : c.MotionWritableFor (Host.Finds s.host · .animationClip) depth (some id))
    {scope : Scope} {state : StateId} (hs : scope.state = some state) (indent : Nat)
    (below : List Frame) (p : Position) :
    let stream := Lexer.tokenize .document (render (motion c indent id))
    let block : Frame := .state (.named scope state .item)
    stream.failure = none ∧ ∃ s' p' id',
      (Grammar.document η).feed (Event.ofTokens stream.tokens) ⟨block :: below, s, p, none⟩ =
        ⟨block :: below, s', p', none⟩ ∧
      SameMotion c s'.controller (some id) id' ∧
      (∀ st, s.controller.states[state.index]? = some st → ∃ transitions,
        s'.controller.states[state.index]? = some { st with motion := id', transitions }) ∧
      AgreesOn 0 s.controller.motions.size s.controller.motions s'.controller.motions ∧
      s'.outline = { s.outline with
        controller := { s.outline.controller.modifyState state ({ · with motion := id' }) with
          motions := s'.controller.motions } } := by
  obtain ⟨motions, id', ⟨ps, hspells, hleads⟩, hsize, hold, hsame⟩ :=
    @Keeps.motion (.of s.host) c _ id hw.all indent scope state hs s.outline
  obtain ⟨hfailure, s', p', hfeed, ho⟩ :=
    (hleads _ below rfl).feed_render hspells (Knowledge.of_holds s.host) rfl p
  have hmotions : s'.controller.motions = motions := by
    show s'.outline.controller.motions = _
    rw [ho]
    rfl
  refine ⟨hfailure, s', p', id', hfeed, ?_, fun st hst => ?_, ?_, ?_⟩
  · refine (hsame _ ?_).same hw
    rw [hmotions]
    exact fun _ _ _ => rfl
  · have hstates : s'.outline.controller.states =
        s.outline.controller.states.modify state.index ({ · with motion := id' }) := by
      rw [ho]
      rfl
    obtain ⟨st', hst', hunlinked⟩ := Session.exists_state hstates hst
    refine ⟨st'.transitions, ?_⟩
    have hst'' : st' = { st'.unlinked with transitions := st'.transitions } := rfl
    rw [hst', hst'', hunlinked]
    rfl
  · rw [hmotions]
    exact hold
  · rw [ho, hmotions]
    rfl

namespace Controller

/-- A tree by one parameter that holds a clip, a planar tree and a direct tree with an empty slot. -/
def nestedTrees : Controller :=
  { name := "Hero"
    motions := #[
      .tree { name := "Move", parameter := "speed", thresholds := some (.zero, .one),
              children := [{ motion := some ⟨1⟩, mirror := true },
                { motion := some ⟨2⟩, threshold := .one, position := ⟨.one, .zero⟩,
                  timeScale := .ofInt 2 }] },
      .clip ⟨"idle.anim", .animationClip⟩,
      .tree { name := "Turn", blendType := .freeformCartesian2D, parameter := "x",
              parameterY := "y", children := [{ motion := some ⟨3⟩, cycleOffset := -.one }] },
      .tree { name := "Face", blendType := .direct,
              children := [{ motion := none, directParameter := "wide smile" }] }] }

example : Canonical.motion nestedTrees 2 ⟨0⟩ =
    [.text 2 "blendtree \"Move\" simple1D(speed) threshold(0, 1) \x7b",
      .text 3 "0: clip \"idle.anim\" mirror;",
      .text 3 "1: blendtree \"Turn\" freeformCartesian2D(x, y) \x7b",
      .text 4 "(0, 0): blendtree \"Face\" direct \x7b", .text 5 "\"wide smile\": empty;",
      .text 4 "\x7d - 1;", .text 3 "\x7d * 2;", .text 2 "\x7d;"] := by decide +kernel

/-- A session in the block of a state. -/
def bareState : Session MemoryHost where
  controller := { name := "Hero", states := #[{ name := "A", tag := "idle" }] }
  host := {}

/-- The scope of that state. -/
def bareScope : Scope := ⟨["L", "A"], 0, ⟨0⟩, some ⟨0⟩, ⟨["L"]⟩⟩

theorem motion_read_nested : ∃ (s' : Session MemoryHost) (p' : Position) (id' : Option MotionId),
    (Grammar.document MemoryHost).feed (Event.ofTokens (Lexer.tokenize .document
        (Canonical.render (Canonical.motion nestedTrees 2 ⟨0⟩))).tokens)
        ⟨[.state (.named bareScope ⟨0⟩ .item)], bareState, ⟨0, 0⟩, none⟩ =
      ⟨[.state (.named bareScope ⟨0⟩ .item)], s', p', none⟩ ∧
      SameMotion nestedTrees s'.controller (some ⟨0⟩) id' ∧
      ∃ transitions, s'.controller.states[0]? =
        some { name := "A", tag := "idle", motion := id', transitions } := by
  have hclip : Host.Finds bareState.host "idle.anim" .animationClip :=
    MemoryHost.finds rfl (.inr (by decide)) .animationClip
  have hface : nestedTrees.MotionWritableFor (Host.Finds bareState.host · .animationClip) 1
      (some ⟨3⟩) := by
    refine .tree rfl ⟨by decide, by decide, by simp⟩ ?_ ?_
    · simp only [List.forall_mem_singleton]
      exact ⟨⟨by decide, by decide⟩, by simp only [ChildMotion.Keyed]; decide⟩
    · simp only [List.forall_mem_singleton]
      exact .empty 0
  have hturn : nestedTrees.MotionWritableFor (Host.Finds bareState.host · .animationClip) 2
      (some ⟨2⟩) := by
    refine .tree rfl ⟨by decide, by decide, by simp⟩ ?_ ?_
    · simp only [List.forall_mem_singleton]
      exact ⟨⟨by decide, by decide⟩, by simp only [ChildMotion.Keyed]; decide⟩
    · simp only [List.forall_mem_singleton]
      exact hface
  have hmove : nestedTrees.MotionWritableFor (Host.Finds bareState.host · .animationClip) 3
      (some ⟨0⟩) := by
    refine .tree rfl ⟨by decide, by decide, by simp; decide⟩ ?_ ?_
    · simp only [List.forall_mem_cons]
      refine ⟨⟨⟨by decide, by decide⟩, ?_⟩, ⟨⟨by decide +kernel, by decide⟩, ?_⟩, by simp⟩
      · simp only [ChildMotion.Keyed]
        decide
      · simp only [ChildMotion.Keyed]
        decide
    · simp only [List.forall_mem_cons]
      exact ⟨.clip 2 rfl hclip, hturn, by simp⟩
  have hscope : bareScope.state = some ⟨0⟩ := rfl
  obtain ⟨-, s', p', id', hfeed, hsame, hstate, -⟩ :=
    Canonical.motion_read nestedTrees hmove hscope 2 [] ⟨0, 0⟩
  exact ⟨s', p', id', hfeed, hsame, hstate _ rfl⟩

end Controller

end MotionScript
