import MotionScript.Proofs.Linking.Reading
import MotionScript.Proofs.Linking.Written
/-!
# Moments of readings

Every call of a hook takes a reading from one spot to the next, so all that is known of journals
holds of every reading. When a layer has ended, nothing of it waits any more.
-/

namespace MotionScript

variable {η : Type} [Host η]

/-! ## Spots of stacks -/

def Wiring.spot (w : Wiring) (stack : List Frame) : Spot where
  machines := (openMachines stack).map (·.scope.machine)
  state := stack.findSome? Frame.openState?
  layerCount := w.layers
  machineCount := w.machines.size
  stateCount := w.states.size

/-- Only the innermost open machine can have an open state. -/
theorem Stacked.openState? {m : OpenMachine} {x : MachineExpect} {rest : List Frame}
    (h : Stacked (.machine (.named m x) :: rest)) :
    rest.findSome? Frame.openState? = none := by
  induction rest generalizing m x with
  | nil => rfl
  | cons g rest ih =>
    obtain ⟨hf, hs⟩ := h
    cases hf with
    | layer _ _ hp => rw [hs.of_document rfl]; rfl
    | machine _ outer _ y hp hl hi => exact ih hs

/-- A machine is nested in the next open one. -/
theorem Stacked.parent {m : OpenMachine} {x : MachineExpect} {rest : List Frame}
    (h : Stacked (.machine (.named m x) :: rest)) :
    ((openMachines rest).map (·.scope.machine)).head? = m.parent := by
  obtain ⟨hf, hs⟩ := h
  generalize hb : rest.head? = below at hf
  cases hf with
  | layer _ _ hp => rw [hs.of_document hb, hp]; rfl
  | machine _ outer _ y hp hl hi =>
    obtain ⟨rest, rfl⟩ := List.head?_eq_some_iff.1 hb
    rw [hp]; rfl

namespace Wiring

/-- A rule that stays the same stays in the same spot. -/
theorem spot_keeps {f f' : Frame} (hk : f.Keeps f') (w : Wiring) (parents : List Frame) :
    w.spot (f' :: parents) = w.spot (f :: parents) := by
  cases hk with
  | machine m m' x x' hs hp =>
    simp [spot, openMachines, Frame.openMachine?, hs, List.findSome?_cons, Frame.openState?]
  | _ => rfl

theorem spot_quiet {f : Frame} (hm : f.openMachine? = none) (hs : f.openState? = none)
    (w : Wiring) (parents : List Frame) : w.spot (f :: parents) = w.spot parents := by
  simp [spot, openMachines, hm, hs]

theorem spot_register (w : Wiring) (layer : Nat) (path : Path) (node : NodeRef)
    (stack : List Frame) : (w.register layer path node).spot stack = w.spot stack := by
  simp [spot]

/-- The spot right below a machine. -/
theorem spot_machine {m : OpenMachine} {x : MachineExpect} {rest : List Frame} (w : Wiring)
    (h : Stacked (.machine (.named m x) :: rest)) :
    w.spot (.machine (.named m x) :: rest) =
      ⟨m.scope.machine :: (openMachines rest).map (·.scope.machine), none, w.layers,
        w.machines.size, w.states.size⟩ := by
  have hs := h.openState?
  simp only [spot, openMachines, List.filterMap_cons, Frame.openMachine?, List.map_cons,
    List.findSome?_cons, Frame.openState?, Spot.mk.injEq, true_and, and_true]
  exact hs

end Wiring

namespace TransitionRule

omit [Host η] in
/-- The transitions of one statement have the same target. -/
theorem target_queuedBy {r : TransitionRule} {c : Controller} {e : Event} {p q : Pending}
    (hp : p ∈ r.queuedBy c e) (hq : q ∈ r.queuedBy c e) : p.target = q.target := by
  have hall : ∃ target, ∀ p ∈ r.queuedBy c e, p.target = target := by
    unfold queuedBy
    split
    · split
      · rename_i q _ _ scope _
        refine ⟨TransitionRule.target c scope q.goto, fun p hp => ?_⟩
        obtain ⟨conditions, -, rfl⟩ := List.mem_map.1 hp
        rfl
      · exact ⟨.missing, by simp⟩
    · exact ⟨.missing, by simp⟩
  obtain ⟨target, h⟩ := hall
  exact (h p hp).trans (h q hq).symm

end TransitionRule

/-! ## Steps between spots -/

namespace Spot.Next

omit [Host η] in
/-- A statement may be written wherever a rule for it is on the stack. -/
theorem statement {r : TransitionRule} {w : Wiring} (c : Controller) (e : Event)
    {parents : List Frame} (hs : Sound (.transition r :: parents) w) :
    (w.spot (.transition r :: parents)).Next (w.spot (.transition r :: parents))
      [.queue (r.queuedBy c e)] := by
  obtain ⟨⟨hfit, hstack⟩, hwithin, -⟩ := hs
  rw [Wiring.spot_quiet rfl rfl]
  generalize hb : parents.head? = below at hfit
  cases hfit with
  | transition _ m x hm =>
    obtain ⟨rest, rfl⟩ := List.head?_eq_some_iff.1 hb
    obtain ⟨-, hl, hst⟩ := hwithin _ (List.mem_cons_of_mem _ List.mem_cons_self)
    rw [w.spot_machine hstack, ← hl]
    refine .queue _ _ _ _ _ _ _ ?_ fun p hp q hq => TransitionRule.target_queuedBy hp hq
    intro p hp
    obtain ⟨scope, any, hsc, hhome, ho, hla⟩ := TransitionRule.mem_queuedBy hp
    obtain rfl : scope = m.scope := Option.some.inj (hsc.symm.trans hm)
    refine ⟨ho, hla, ?_⟩
    rw [hhome, TransitionRule.home, hst]
    cases any
    · exact .inl rfl
    · exact .inr rfl
  | stateTransition _ sc id x hm =>
    obtain ⟨rest, rfl⟩ := List.head?_eq_some_iff.1 hb
    obtain ⟨hf, hrest⟩ := hstack
    generalize hb : rest.head? = outer at hf
    cases hf with
    | state _ _ m _ y hid hla hma =>
      obtain ⟨rest, rfl⟩ := List.head?_eq_some_iff.1 hb
      obtain ⟨-, hl, -⟩ := hwithin (.machine (.named m y)) (by simp)
      have hspot : w.spot (.state (.named sc id x) :: .machine (.named m y) :: rest) =
          ⟨m.scope.machine :: (openMachines rest).map (·.scope.machine), some id, w.layers,
            w.machines.size, w.states.size⟩ := rfl
      rw [hspot, ← hl]
      refine .queue _ _ _ _ _ _ _ ?_ fun p hp q hq => TransitionRule.target_queuedBy hp hq
      intro p hp
      obtain ⟨scope, any, hsc, hhome, ho, hlp⟩ := TransitionRule.mem_queuedBy hp
      obtain rfl : scope = sc := Option.some.inj (hsc.symm.trans hm)
      refine ⟨ho.trans hma, hlp.trans hla, ?_⟩
      rw [hhome, TransitionRule.home, hid]

theorem turn {e : Event} {s s' : Session η} {f f' : Frame} {parents : List Frame}
    {control : Control Frame} (hs : Sound (f :: parents) s.wiring)
    (ht : Turn e s s' f f' control) :
    (s.wiring.spot (f :: parents)).Next (s'.wiring.spot (f' :: parents))
      (Grammar.Call.token e f s).entries := by
  have hwithin := hs.within
  obtain ⟨hfit, hstack⟩ := hs.stacked
  cases ht with
  | quiet hw hk ha hd hq =>
    rw [hw, Wiring.spot_keeps hk]
    cases f with
    | transition r =>
      simp only [Grammar.Call.entries, hd, Option.toList_none, List.map_nil, List.nil_append]
      exact statement _ _ hs
    | _ => simpa [Grammar.Call.entries, hd] using .stay _
  | layer outer name hn hw =>
    have hp : parents = [.document] := by
      refine hstack.of_document ?_
      generalize parents.head? = below at hfit
      cases hfit; rfl
    subst hp
    simp only [Grammar.Call.entries, Frame.declared?, hn, Option.map_some, Option.toList_some,
      List.map_cons, List.map_nil, List.append_nil, hw, Wiring.spot_register]
    have hspot := Next.layer s.wiring.layers s.wiring.machines.size s.wiring.states.size ⟨[name]⟩
    simp only [Wiring.spot, Wiring.addLayer, Wiring.addMachine, Array.size_push,
      s.size_machines] at hspot ⊢
    exact hspot
  | machine scope name hn hw =>
    simp only [Grammar.Call.entries, Frame.declared?, hn, Option.map_some, Option.toList_some,
      List.map_cons, List.map_nil, List.append_nil, hw, Wiring.spot_register]
    generalize hb : parents.head? = below at hfit
    cases hfit with
    | machineName m x =>
      obtain ⟨rest, rfl⟩ := List.head?_eq_some_iff.1 hb
      obtain ⟨hm, hl, -⟩ := hwithin _ (List.mem_cons_of_mem _ List.mem_cons_self)
      have hnew : Stacked (.machine (.named ⟨⟨m.scope.hint ++ [name], m.scope.layer,
          ⟨s.controller.machines.size⟩, none, m.scope.path.join name⟩, some m.scope.machine,
          none⟩ .openBrace) :: .machine (.named m x) :: rest) :=
        ⟨.machine _ m _ x rfl rfl (s.size_machines ▸ hm), hstack⟩
      have hspot := Next.machine m.scope.machine ((openMachines rest).map (·.scope.machine))
        m.scope.layer s.wiring.machines.size s.wiring.states.size (m.scope.path.join name)
      rw [Wiring.spot_quiet rfl rfl, Wiring.spot_machine _ hstack, Wiring.spot_machine _ hnew]
      simp only [Wiring.addMachine, Array.size_push, s.size_machines, hl] at hspot ⊢
      exact hspot
  | state scope name hn hw =>
    simp only [Grammar.Call.entries, Frame.declared?, hn, Option.map_some, Option.toList_some,
      List.map_cons, List.map_nil, List.append_nil, hw, Wiring.spot_register]
    generalize hb : parents.head? = below at hfit
    cases hfit with
    | stateName m x =>
      obtain ⟨rest, rfl⟩ := List.head?_eq_some_iff.1 hb
      obtain ⟨-, hl, -⟩ := hwithin _ (List.mem_cons_of_mem _ List.mem_cons_self)
      have hspot := Next.state m.scope.machine ((openMachines rest).map (·.scope.machine))
        m.scope.layer s.wiring.machines.size s.wiring.states.size (m.scope.path.join name)
      rw [Wiring.spot_quiet rfl rfl, Wiring.spot_machine _ hstack]
      simp only [Wiring.spot, Wiring.addState, Array.size_push, s.size_states, hl] at hspot ⊢
      exact hspot
  | statement r r' hsc hw =>
    simp only [Grammar.Call.entries, Frame.declared?, Option.toList_none, List.map_nil,
      List.nil_append, hw]
    exact statement _ _ hs

theorem detach {f : Frame} {parents : List Frame} {s : Session η} {w : Wiring}
    (hs : Sound (f :: parents) s.wiring) (hn : s.wiring.SameNodes w) :
    (s.wiring.spot (f :: parents)).Next (w.spot parents) (Grammar.Call.detach f s).entries := by
  have hspot (stack : List Frame) : w.spot stack = s.wiring.spot stack := by
    simp only [Wiring.spot, hn.machines, hn.states, hn.layers]
  rw [hspot]
  obtain ⟨hfit, hstack⟩ := hs.stacked
  cases f with
  | machine r =>
    cases r with
    | unnamed nested outer =>
      rw [Wiring.spot_quiet rfl rfl]
      exact .stay _
    | named m x =>
      have hclose := Next.close m.scope.machine ((openMachines parents).map (·.scope.machine))
        s.wiring.layers s.wiring.machines.size s.wiring.states.size
      rw [hs.stacked.parent] at hclose
      rw [Wiring.spot_machine _ hs.stacked]
      simp only [Wiring.spot, hs.stacked.openState?]
      exact hclose
  | state r =>
    cases r with
    | unnamed outer =>
      rw [Wiring.spot_quiet rfl rfl]
      exact .stay _
    | named scope id x =>
      generalize hb : parents.head? = below at hfit
      cases hfit with
      | state _ _ m _ y =>
        obtain ⟨rest, rfl⟩ := List.head?_eq_some_iff.1 hb
        rw [Wiring.spot_machine _ hstack]
        exact .stateEnd ..
  | _ =>
    rw [Wiring.spot_quiet rfl rfl]
    exact .stay _

end Spot.Next

/-! ## All readings -/

/-- The layer that the call of a hook ends. -/
def Grammar.Call.endedLayer? : Grammar.Call Frame (Session η) → Option Nat
  | .detach (.machine (.named m _)) _ => if m.parent = none then some m.scope.layer else none
  | _ => none

/-- What holds at every moment between two calls of hooks. -/
structure Moment (stack : List Frame) (s : Session η)
    (calls : List (Grammar.Call Frame (Session η))) : Prop where
  sound : Sound stack s.wiring
  /-- The wiring is what the journal means. -/
  shows : Shows s.wiring (Journal.ledger (calls.flatMap Grammar.Call.entries))
  written : Written (s.wiring.spot stack) (calls.flatMap Grammar.Call.entries)
  ended : ∀ call ∈ calls, ∀ layer, call.endedLayer? = some layer →
    (s.wiring.spot stack).Over layer
  /-- Once a layer has ended, no transition of it waits. -/
  settled : calls.Pairwise fun a b => ∀ p ∈ b.session.pending, a.endedLayer? ≠ some p.layer

namespace Moment

variable {stack : List Frame} {s : Session η} {calls : List (Grammar.Call Frame (Session η))}

/-- Nothing waits of a layer that is over. -/
theorem not_over (h : Moment stack s calls) {p : Pending} (hp : p ∈ s.pending) :
    ¬(s.wiring.spot stack).Over p.layer := by
  rintro ⟨-, hover⟩
  have hp' : p ∈ (Journal.ledger (calls.flatMap Grammar.Call.entries)).pending :=
    h.shows.pending ▸ hp
  obtain ⟨hm, hl⟩ := h.written.accounts.pending p hp'
  rcases hover with hover | hover
  · rw [hover] at hm; cases hm
  · omega

/-- One more call. -/
theorem next (h : Moment stack s calls) {stack' : List Frame} {s' : Session η}
    {call : Grammar.Call Frame (Session η)} (hc : call.session = s)
    (hs : Sound stack' s'.wiring)
    (hw : Shows s'.wiring (call.entries.foldl Ledger.step
      (Journal.ledger (calls.flatMap Grammar.Call.entries))))
    (hn : (s.wiring.spot stack).Next (s'.wiring.spot stack') call.entries)
    (hl : ∀ layer, call.endedLayer? = some layer → (s'.wiring.spot stack').Over layer) :
    Moment stack' s' (calls ++ [call]) := by
  have hj : (calls ++ [call]).flatMap Grammar.Call.entries =
      calls.flatMap Grammar.Call.entries ++ call.entries := by simp
  refine ⟨hs, ?_, ?_, ?_, ?_⟩
  · rw [hj, Journal.ledger_append]
    exact hw
  · rw [hj]
    exact h.written.step hn
  · intro c hcall layer he
    rcases List.mem_append.1 hcall with hcall | hcall
    · exact (h.ended c hcall layer he).next hn
    · rw [List.mem_singleton.1 hcall] at he
      exact hl layer he
  · refine List.pairwise_append.2 ⟨h.settled, List.pairwise_singleton _ _, ?_⟩
    intro a ha b hb p hp he
    rw [List.mem_singleton.1 hb, hc] at hp
    exact h.not_over hp (h.ended a ha p.layer he)

theorem root (name : String) (host : η) :
    Moment ((Grammar.document η).push .document [] { controller := { name }, host }).subject
      ((Grammar.document η).push .document [] { controller := { name }, host }).session
      [.attach .document { controller := { name }, host }] := by
  have hw : ((Grammar.document η).push .document [] { controller := { name }, host }).session.wiring
      = ⟨#[], #[], #[], 0, #[], [], []⟩ := by
    simp [Grammar.push, Grammar.document, Frame.onAttach, Session.wiring, Session.persist]
  refine ⟨?_, ?_, ?_, ?_, List.pairwise_singleton _ _⟩
  · rw [hw]
    refine ⟨⟨.document, trivial⟩, ?_, rfl⟩
    intro f hf
    rw [List.mem_singleton.1 hf]
    trivial
  · rw [hw]
    refine ⟨fun _ _ => rfl, rfl, rfl, ?_, rfl, by simp [Journal.ledger, Grammar.Call.entries]⟩
    intro home
    cases home <;> rfl
  · rw [hw]
    exact .start
  · intro c hc layer he
    rw [List.mem_singleton.1 hc] at he
    cases he

/-- A rule has handled a token. -/
theorem token {top : Frame} {parents : List Frame} (h : Moment (top :: parents) s calls)
    (e : Event) :
    Moment (((Grammar.document η).onToken e top s).subject :: parents)
      ((Grammar.document η).onToken e top s).session (calls ++ [.token e top s]) := by
  simp only [Grammar.document, Frame.onToken]
  cases hr : top.react e s with
  | ok step =>
    have ht := Frame.react_turn hr
    exact h.next rfl (h.sound.turn ht) (h.shows.turn h.sound ht) (.turn h.sound ht)
      (fun layer he => by cases he)
  | error d =>
    have ht : Turn e s s top top none := by
      refine .quiet rfl (.same top) (.stay top) (Frame.declared?_of_error hr) ?_
      rintro r rfl
      cases hs : r.react e s with
      | error d => exact r.queuedBy_of_error hs
      | ok step => simp [Frame.react, Frame.lift, hs, Except.map] at hr
    exact h.next rfl (h.sound.turn ht) (h.shows.turn h.sound ht) (.turn h.sound ht)
      (fun layer he => by cases he)

/-- A rule has been attached. -/
theorem attach {f g : Frame} {forward : Bool} {parents : List Frame}
    (h : Moment (f :: parents) s calls) (ha : f.Asks (some (.attach g forward))) :
    Moment ((Grammar.document η).push g (f :: parents) s).subject
      ((Grammar.document η).push g (f :: parents) s).session (calls ++ [.attach g s]) := by
  obtain ⟨g', hg, hfit, hm, hs, hwithin⟩ := ha.attach s h.sound.stacked.1
  simp only [Grammar.push, Grammar.document, List.head?_cons, Option.bind_some, hg]
  refine h.next rfl ⟨⟨hfit, h.sound.stacked⟩, ?_, h.sound.symbols⟩ h.shows ?_
    (fun layer he => by cases he)
  · intro x hx
    rcases List.mem_cons.1 hx with rfl | hx
    · exact hwithin _
    · exact h.sound.within x hx
  · rw [Wiring.spot_quiet hm hs]
    exact .stay _

/-- A rule has been detached. -/
theorem detach {top : Frame} {parents : List Frame} (h : Moment (top :: parents) s calls) :
    Moment parents ((Grammar.document η).onDetach top s).2 (calls ++ [.detach top s]) := by
  obtain ⟨hshows, hsame⟩ := h.shows.detach top
  have hn := Spot.Next.detach h.sound hsame
  refine h.next rfl (h.sound.detach hsame) hshows hn ?_
  intro layer he
  cases top with
  | machine r =>
    cases r with
    | unnamed => cases he
    | named m x =>
      obtain ⟨hp, hl⟩ := Option.ite_none_right_eq_some.1 he
      obtain rfl : m.scope.layer = layer := Option.some.inj hl
      have hlast : m.scope.layer + 1 = s.wiring.layers :=
        (h.sound.within _ List.mem_cons_self).2.1
      have hempty := h.sound.stacked.parent
      rw [hp, List.head?_eq_none_iff] at hempty
      exact ⟨Nat.lt_of_lt_of_eq (Nat.lt_succ_self _) (hlast.trans hsame.layers.symm), .inl hempty⟩
  | _ => cases he

end Moment

theorem Frame.onToken_asks {e : Event} {f : Frame} {s : Session η} {control : Control Frame}
    (h : (f.onToken e s).result = .ok control) : (f.onToken e s).subject.Asks control := by
  unfold Frame.onToken at h ⊢
  cases hr : f.react e s with
  | error d => rw [hr] at h; cases h
  | ok step =>
    rw [hr] at h
    cases h
    exact (Frame.react_turn hr).asks

theorem Grammar.Reached.moment {name : String} {host : η} {stack : List Frame} {s : Session η}
    {calls : List (Grammar.Call Frame (Session η))}
    (h : (Grammar.document η).Reached .document { controller := { name }, host } stack s calls) :
    Moment stack s calls := by
  induction h with
  | root => exact .root _ _
  | stay e h hstay ih => exact ih.token e
  | attach e rule forward h hask ih =>
    have hm := (ih.token e).attach (Frame.onToken_asks hask)
    rwa [List.append_assoc] at hm
  | detach e forward h hask ih =>
    have hm := (ih.token e).detach
    rwa [List.append_assoc] at hm
  | unwind h ih => exact ih.detach

end MotionScript
