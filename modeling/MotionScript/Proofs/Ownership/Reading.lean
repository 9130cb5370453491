import MotionScript.Host.Memory
import MotionScript.Proofs.Linking.Complete
import MotionScript.Proofs.Ownership.Placing
import MotionScript.Proofs.Ownership.Walks
/-!
# Ownership in readings

At every moment of a reading the graph is well formed but for the motions that rules on the stack
hold, and what the rules, the tables and the waiting transitions refer to is in its layer.
-/

namespace MotionScript

/-! ## Moments -/

variable {η : Type} [Host η]

/-- What holds at every moment of a reading. -/
structure Owned (stack : List Frame) (s : Session η) : Prop where
  growing : s.controller.Growing { motions := stack.flatMap (·.motion?.toList) }
  seated : ∀ f ∈ stack, f.Seated s.controller
  symbols : ∀ layer, ∀ entry ∈ s.symbols.getD layer default, s.controller.InLayer layer entry.2
  pending : ∀ p ∈ s.pending, s.controller.InLayer p.layer p.home.node

namespace Owned

variable {stack parents : List Frame} {s s' : Session η}

omit [Host η] in
/-- Nodes that are known by path are in their layer. -/
theorem lookup (h : Owned stack s) {layer : Nat} {path : Path} {node : NodeRef}
    (hl : s.lookup? layer path = some node) : s.controller.InLayer layer node := by
  obtain ⟨before, after, heq, -⟩ := List.lookup_eq_some_iff.1 hl
  refine h.symbols layer (path, node) ?_
  show _ ∈ s.symbols.getD layer []
  rw [heq]
  simp

end Owned

/-- The nodes that a table gets. -/
theorem Wiring.mem_register {w : Wiring} {layer l : Nat} {path : Path} {node : NodeRef}
    {entry : Path × NodeRef} (h : entry ∈ (w.register layer path node).symbols.getD l default) :
    entry ∈ w.symbols.getD l default ∨ l = layer ∧ entry.2 = node := by
  unfold register at h
  split at h
  · exact .inl h
  · simp only [getD_modify_eq] at h
    split at h
    · rename_i hl
      rcases List.mem_append.1 h with h | h
      · exact .inl h
      · rw [List.mem_singleton.1 h]
        exact .inr ⟨hl.1.symm, rfl⟩
    · exact .inl h

theorem Wiring.mem_addLayer {w : Wiring} {l : Nat} {entry : Path × NodeRef}
    (h : entry ∈ w.addLayer.symbols.getD l default) : entry ∈ w.symbols.getD l default := by
  simp only [addLayer, getD_push_size] at h
  split at h
  · cases h
  · exact h

namespace Owned

variable {stack parents : List Frame} {s s' : Session η}

theorem turn {e : Event} {f f' : Frame} {control : Control Frame} (h : Owned (f :: parents) s)
    (hr : f.react e s = .ok (f', s', control)) : Owned (f' :: parents) s' := by
  have hg := (Frame.react_growth hr).grown h.growing (h.seated f List.mem_cons_self)
  have ht := Frame.react_turn hr
  have hsymbols : ∀ layer, ∀ entry ∈ s.symbols.getD layer default,
      s'.controller.InLayer layer entry.2 := fun layer entry he =>
    (h.symbols layer entry he).mono hg.extends_
  have hpending : ∀ p ∈ s.pending, s'.controller.InLayer p.layer p.home.node := fun p hp =>
    (h.pending p hp).mono hg.extends_
  refine ⟨hg.growing, fun g hmem => ?_, fun layer entry he => ?_, fun p hp => ?_⟩
  · rcases List.mem_cons.1 hmem with rfl | hmem
    · exact hg.seated
    · exact (h.seated g (List.mem_cons_of_mem _ hmem)).mono hg.extends_ hg.size
  · change entry ∈ s'.wiring.symbols.getD layer default at he
    cases ht with
    | quiet hw => exact hsymbols layer entry (by rwa [hw] at he)
    | statement r r' hs hw => exact hsymbols layer entry (by rwa [hw] at he)
    | layer outer name hn hw =>
      rw [hw] at he
      rcases Wiring.mem_register he with he | ⟨rfl, hnode⟩
      · exact hsymbols layer entry (Wiring.mem_addLayer he)
      · exact hnode ▸ (hg.seated.seat _ rfl).machine
    | machine scope name hn hw =>
      rw [hw] at he
      rcases Wiring.mem_register he with he | ⟨rfl, hnode⟩
      · exact hsymbols layer entry he
      · exact hnode ▸ (hg.seated.seat _ rfl).machine
    | state scope name hn hw =>
      rw [hw] at he
      rcases Wiring.mem_register he with he | ⟨rfl, hnode⟩
      · exact hsymbols layer entry he
      · exact hnode ▸ (hg.seated.seat _ rfl).state _ rfl
  · change p ∈ s'.wiring.pending at hp
    cases ht with
    | statement r r' hs hw =>
      rw [hw] at hp
      rcases List.mem_append.1 hp with hp | hp
      · exact hpending p hp
      · obtain ⟨scope, any, hsc, hhome, -, hlayer⟩ := TransitionRule.mem_queuedBy hp
        have hseat := ((h.seated _ List.mem_cons_self).seat scope hsc).mono hg.extends_
        rw [hhome, hlayer]
        unfold TransitionRule.home
        split
        · exact hseat.state _ ‹_›
        · split <;> exact hseat.machine
    | quiet hw => exact hpending p (by rwa [hw] at hp)
    | layer outer name hn hw | machine scope name hn hw | state scope name hn hw =>
      rw [hw, Wiring.register_pending] at hp
      exact hpending p hp

/-! ## Attaching -/

omit [Host η] in
/-- The motion of a state is in no blend tree. -/
theorem onAttach_root (outer : Option Scope) :
    ∃ slot, (MotionRule.root.onAttach outer).1 = { MotionRule.root with scope := outer, slot } ∧
      ∀ tree key, slot ≠ .child tree key := by
  cases ho : outer.bind Scope.state with
  | none => exact ⟨.root, by simp [MotionRule.onAttach, MotionRule.root, ho], by simp⟩
  | some id => exact ⟨.state id, by simp [MotionRule.onAttach, MotionRule.root, ho], by simp⟩

/-- A rule that is attached holds the scope of the rule below it and no motion, and a child of a
blend tree is on its tree. -/
theorem onAttach_asked {e : Event} {f f' g : Frame} {forward : Bool} {s₀ : Session η}
    (hr : f.react e s₀ = .ok (f', s, some (.attach g forward))) :
    (g.onAttach f'.context s).session = s ∧ (g.onAttach f'.context s).subject.motion? = none ∧
      (∀ scope ∈ (g.onAttach f'.context s).subject.scope?, scope ∈ f'.scope?) ∧
      ∀ tree key, (g.onAttach f'.context s).subject.slot? = some (.child tree key) →
        tree ∈ f'.motion? := by
  have ht := Frame.react_turn hr
  have ha := ht.asks
  cases ha with
  | layer | parameter =>
    refine ⟨rfl, rfl, fun scope hs => ?_, by rintro tree key ⟨⟩⟩
    cases hs
  | state m x | machine m x | machineTransition m x | machineRecord m x | stateTransition scope id x
  | stateRecord scope id x => exact ⟨rfl, rfl, fun _ hs => hs, by rintro tree key ⟨⟩⟩
  | motion scope id x =>
    obtain ⟨slot, hroot, hslot⟩ := onAttach_root (Frame.state (.named scope id x)).context
    have hsubject : (Frame.onAttach (Frame.state (.named scope id x)).context (.motion .root)
        s).subject = .motion { MotionRule.root with
          scope := (Frame.state (.named scope id x)).context, slot } := congrArg Frame.motion hroot
    rw [hsubject]
    exact ⟨rfl, rfl, fun _ hs => hs, fun tree key h => absurd (Option.some.inj h) (hslot tree key)⟩
  | child r tree key =>
    refine ⟨rfl, rfl, fun _ hs => hs, ?_⟩
    rintro tree' key' ⟨⟩
    cases Frame.react_move hr with
    | motion hr =>
      obtain ⟨-, -, tree', key', htree, heq⟩ := hr.goes.child _ _ rfl
      cases heq
      exact htree

theorem attach {e : Event} {f f' g : Frame} {forward : Bool} {s₀ : Session η}
    (h : Owned (f' :: parents) s)
    (hr : f.react e s₀ = .ok (f', s, some (.attach g forward))) :
    Owned ((g.onAttach f'.context s).subject :: f' :: parents)
      (g.onAttach f'.context s).session := by
  obtain ⟨hsession, hmotion, hscope, hslot⟩ := onAttach_asked hr
  have hf := h.seated f' List.mem_cons_self
  rw [hsession]
  refine ⟨?_, fun q hq => ?_, h.symbols, h.pending⟩
  · rw [List.flatMap_cons, hmotion]
    exact h.growing
  · rcases List.mem_cons.1 hq with rfl | hq
    · refine ⟨fun scope hs => hf.seat scope (hscope scope hs), fun tree key htree => ?_⟩
      refine ⟨h.growing.motions_lt tree (List.mem_append_right _ ?_), by simp [hmotion]⟩
      exact List.mem_append_left _ (Option.mem_toList.2 (hslot tree key htree))
    · exact h.seated q hq

/-! ## Detaching -/

omit [Host η] in
/-- A change of the graph that lets layers grow. -/
theorem changed {stack' : List Frame} (h : Owned stack s) (hsub : stack' ⊆ stack)
    (hg : s'.controller.Growing { motions := stack'.flatMap (·.motion?.toList) })
    (hc : s.controller.Extends s'.controller)
    (hm : s.controller.motions.size ≤ s'.controller.motions.size)
    (hsymbols : s'.symbols = s.symbols) (hpending : s'.pending ⊆ s.pending) : Owned stack' s' where
  growing := hg
  seated f hf := (h.seated f (hsub hf)).mono hc hm
  symbols layer entry he := (h.symbols layer entry (hsymbols ▸ he)).mono hc
  pending p hp := (h.pending p (hpending hp)).mono hc

theorem linkDefault (h : Owned stack s) {machine : MachineId} {layer : Nat}
    (hm : s.controller.InLayer layer (.machine machine)) (path : Path) (use : NameUse) :
    Owned stack (s.linkDefault machine layer path use) := by
  unfold Session.linkDefault
  extract_lets target
  split
  · rename_i id hid
    have hw := h.growing.wellFormed
    have hg : s.controller.Growing (Controller.Loose.and {}
      { motions := stack.flatMap (·.motion?.toList) }) := h.growing
    refine h.changed (List.Subset.refl _) ?_ (.modifyMachine _ _ fun m =>
      ⟨List.Subset.refl _, List.Subset.refl _⟩) (Nat.le_refl _) rfl (List.Subset.refl _)
    refine hg.modifyMachine (hw.has hm) (fun m => ?_) rfl (by simp)
      (by simp [Controller.Reaches]) fun m => .inr ⟨id, rfl, hw.has (h.lookup hid)⟩
    refine ⟨?_, ?_, ?_, ?_⟩ <;> simp [Machine.children, Machine.members, Machine.listed]
  · exact h.changed (List.Subset.refl _) h.growing (.of_eq rfl rfl) (Nat.le_refl _) rfl
      (List.Subset.refl _)

omit [Host η] in
/-- What a transition is linked to is in its layer. -/
theorem resolution (h : Owned stack s) {p : Pending} {d : Destination}
    (hr : s.resolution p = .found d) : s.controller.LeadsInto p.layer d := by
  unfold Session.resolution at hr
  split at hr
  · cases hr
    trivial
  · cases hr
  · split at hr <;> cases hr
    all_goals exact h.lookup ‹_›

theorem linkTo (h : Owned stack s) {p : Pending} {d : Destination}
    (hp : s.controller.InLayer p.layer p.home.node) (hd : s.controller.LeadsInto p.layer d) :
    Owned stack (s.linkTo p d) ∧ s.controller.Extends (s.linkTo p d).controller := by
  have hadd := h.growing.addTransition { p.transition with destination := d }
  have hextends : s.controller.Extends
      (s.controller.addTransition { p.transition with destination := d }).2 := .of_eq rfl rfl
  have hattach := hextends.trans (.attach _ p.home ⟨s.controller.transitions.size⟩)
  have hg := hadd.attach (h.growing.wellFormed.has hp) ⟨p.layer, hp.mono hextends, by
    have hnew : (s.controller.addTransition { p.transition with destination := d }).2.transition
        ⟨s.controller.transitions.size⟩ = { p.transition with destination := d } := by
      simp [Controller.transition, Controller.addTransition]
    rw [hnew]
    exact hd.mono hextends⟩
  refine ⟨h.changed (List.Subset.refl _) hg hattach (Nat.le_of_eq ?_) rfl (List.Subset.refl _),
    hattach⟩
  exact congrArg Array.size (Controller.attach_motions
    (s.controller.addTransition { p.transition with destination := d }).2 p.home
    ⟨s.controller.transitions.size⟩).symm

theorem link (h : Owned stack s) {p : Pending} (hp : s.controller.InLayer p.layer p.home.node)
    (parent : Option MachineId) : Owned stack (Session.link parent s p) ∧
      s.controller.Extends (Session.link parent s p).controller := by
  have same {s' : Session η} (hc : s'.controller = s.controller) (hs : s'.symbols = s.symbols)
      (hpending : s'.pending = s.pending) :
      Owned stack s' ∧ s.controller.Extends s'.controller := by
    have hextends : s.controller.Extends s'.controller := hc ▸ .of_eq rfl rfl
    exact ⟨h.changed (List.Subset.refl _) (hc ▸ h.growing) hextends (Nat.le_of_eq (by rw [hc])) hs
      (hpending ▸ List.Subset.refl _), hextends⟩
  unfold Session.link
  split
  · exact h.linkTo hp (h.resolution ‹_›)
  · exact same rfl rfl rfl
  · refine ⟨⟨h.growing, h.seated, h.symbols, fun q hq => ?_⟩, .of_eq rfl rfl⟩
    rcases List.mem_append.1 hq with hq | hq
    · exact h.pending q hq
    · rw [List.mem_singleton.1 hq]
      exact hp
  · exact same rfl rfl rfl

theorem linkAll (parent : Option MachineId) (ps : List Pending) (h : Owned stack s)
    (hps : ∀ p ∈ ps, s.controller.InLayer p.layer p.home.node) :
    Owned stack (ps.foldl (Session.link parent) s) := by
  induction ps generalizing s with
  | nil => exact h
  | cons p ps ih =>
    obtain ⟨hlink, hc⟩ := h.link (hps p List.mem_cons_self) parent
    exact ih hlink fun q hq => (hps q (List.mem_cons_of_mem _ hq)).mono hc

theorem linkScope (h : Owned stack s) (machine : MachineId) (parent : Option MachineId) :
    Owned stack (s.linkScope machine parent) := by
  unfold Session.linkScope
  rw [List.partition_eq_filter_filter]
  refine linkAll parent _ ⟨h.growing, h.seated, h.symbols, fun p hp => ?_⟩ fun p hp => ?_
  · exact h.pending p (List.mem_of_mem_filter hp)
  · exact h.pending p (List.mem_of_mem_filter hp)

theorem linkSync (h : Owned stack s) (layer : Nat) (use : NameUse) :
    Owned stack (s.linkSync layer use) := by
  unfold Session.linkSync
  split
  · rename_i index hi
    obtain ⟨hlt, -⟩ := Array.findIdx?_eq_some_iff_getElem.1 hi
    refine h.changed (List.Subset.refl _) ?_ (.modifyLayer _ _ fun l => rfl) (Nat.le_refl _) rfl
      (List.Subset.refl _)
    exact h.growing.modifyLayer layer fun l => ⟨rfl, .inr ⟨index, rfl, hlt⟩⟩
  · exact h.changed (List.Subset.refl _) h.growing (.of_eq rfl rfl) (Nat.le_refl _) rfl
      (List.Subset.refl _)

theorem linkSyncs (h : Owned stack s) : Owned stack s.linkSyncs := by
  have all (syncs : List (Nat × NameUse)) {s : Session η} (h : Owned stack s) :
      Owned stack (syncs.foldl (fun s sync => s.linkSync sync.1 sync.2) s) := by
    induction syncs generalizing s with
    | nil => exact h
    | cons sync syncs ih => exact ih (h.linkSync sync.1 sync.2)
  exact all s.syncs ⟨h.growing, h.seated, h.symbols, h.pending⟩

omit [Host η] in
theorem place {r : MotionRule} (h : Owned (.motion r :: parents) s) :
    Owned parents (s.modify r.place) := by
  have hg : s.controller.Growing (Controller.Loose.and { motions := r.motion.toList }
    { motions := parents.flatMap (·.motion?.toList) }) := h.growing
  have hsub := List.subset_cons_self (Frame.motion r) parents
  unfold MotionRule.place
  cases hslot : r.slot with
  | root =>
    exact h.changed hsub (hg.drop (List.sublist_append_right _ _)) (.of_eq rfl rfl) (Nat.le_refl _)
      rfl (List.Subset.refl _)
  | state id =>
    refine h.changed hsub ?_ (.of_eq rfl rfl) (Nat.le_refl _) rfl (List.Subset.refl _)
    refine hg.modifyState (by simp) (fun st => ⟨?_, ?_, ?_⟩) ⟨rfl, rfl⟩
      (by simp [Controller.Reaches])
    · simp [MotionRule.fillState]
    · simp [MotionRule.fillState]
    · exact (List.sublist_append_right _ _).subperm
  | child tree key =>
    obtain ⟨-, hlt⟩ := (h.seated _ List.mem_cons_self).slot tree key (congrArg some hslot)
    refine h.changed hsub ?_ (.of_eq rfl rfl) (Nat.le_of_eq Array.size_modify.symm) rfl
      (List.Subset.refl _)
    refine hg.modifyMotion (fun m => ?_) rfl fun id hid => hlt id (Option.mem_toList.1 hid)
    cases m with
    | clip asset => exact List.nil_subperm
    | tree t =>
      have hfilled : (r.slotOf key).motion = r.motion := by cases key <;> rfl
      simp only [Motion.modifyTree, Controller.Motion.childMotions, List.filterMap_append,
        List.filterMap_cons, List.filterMap_nil, hfilled]
      cases r.motion with
      | none => simpa using List.Subperm.refl _
      | some id => exact .refl _

/-- A rule is detached. -/
theorem close {f : Frame} (h : Owned (f :: parents) s) : Owned parents (f.close s) := by
  have hf := h.seated f List.mem_cons_self
  have drop (hm : f.motion? = none) : Owned parents s := by
    have hg := h.growing
    rw [List.flatMap_cons, hm] at hg
    exact h.changed (List.subset_cons_self _ _) hg (.of_eq rfl rfl) (Nat.le_refl _) rfl
      (List.Subset.refl _)
  cases f with
  | motion r => exact h.place
  | document => exact (drop rfl).linkSyncs
  | machine r =>
    cases r with
    | unnamed nested outer => exact drop rfl
    | named m x =>
      simp only [Frame.close, MachineRule.close]
      cases m.default with
      | none => exact (drop rfl).linkScope _ _
      | some use => exact ((drop rfl).linkDefault (hf.seat _ rfl).machine _ use).linkScope _ _
  | parameter | state | transition | record => exact drop rfl

end Owned

/-! ## All readings -/

/-- A rule has handled a token. -/
theorem Owned.token {f : Frame} {parents : List Frame} {s : Session η}
    (h : Owned (f :: parents) s) (e : Event) :
    Owned (((Grammar.document η).onToken e f s).subject :: parents)
      ((Grammar.document η).onToken e f s).session := by
  simp only [Grammar.document, Frame.onToken]
  cases hr : f.react e s with
  | ok step => exact h.turn hr
  | error d => exact h

theorem Controller.Growing.empty (name : String) : ({ name } : Controller).Growing {} where
  machine_lt _ _ hi := absurd hi List.not_mem_nil
  motion_lt _ _ hc := absurd hc List.not_mem_nil
  defaults_lt _ hm := absurd hm (Array.not_mem_empty _)
  synced_lt _ hl := absurd hl (Array.not_mem_empty _)
  destinations node _ hid := by cases node <;> exact absurd hid List.not_mem_nil
  parameters := List.nodup_nil
  named _ hp := absurd hp List.not_mem_nil
  machines := .refl _
  states := .refl _
  transitions := .refl _
  records := .refl _
  motions := List.nodup_nil
  motions_lt _ hid := absurd hid List.not_mem_nil

theorem Grammar.Reached.owned {name : String} {host : η} {stack : List Frame} {s : Session η}
    {calls : List (Grammar.Call Frame (Session η))}
    (h : (Grammar.document η).Reached .document { controller := { name }, host } stack s calls) :
    Owned stack s := by
  induction h with
  | root =>
    refine ⟨.empty name, fun f hf => ?_, fun _ _ he => absurd he List.not_mem_nil,
      fun _ hp => absurd hp List.not_mem_nil⟩
    rw [List.mem_singleton.1 hf]
    exact ⟨by rintro scope ⟨⟩, by rintro tree key ⟨⟩⟩
  | stay e h hstay ih => exact ih.token e
  | @attach top parents s calls e rule forward h hask ih =>
    have hturn := ih.token e
    simp only [Grammar.document, Frame.onToken] at hask hturn ⊢
    cases hr : top.react e s with
    | error d =>
      rw [hr] at hask
      cases hask
    | ok step =>
      rw [hr] at hask hturn
      obtain ⟨f', s', control⟩ := step
      cases hask
      exact hturn.attach hr
  | detach e forward h hask ih => exact (ih.token e).close
  | unwind h ih => exact ih.close

/-- The graph of a document that can be read is a forest: every node has one place, children come
after their parents, so that walks end, and references stay in range and in their layer. -/
theorem read_wellFormed {source name : String} {host host' : η} {doc : Document}
    (h : Document.read source name host = (.ok doc, host')) :
    doc.controller.WellFormed ∧ doc.controller.WalksEnd ∧
      (∀ node, doc.controller.Has node → ∃! layer, doc.controller.InLayer layer node) ∧
      ∀ layer node, doc.controller.InLayer layer node → doc.controller.Has node := by
  have howned := (Grammar.reached_calls (g := Grammar.document η) .document Frame.document source
    { controller := { name }, host }).owned
  have hdoc : doc.controller = ((Grammar.document η).parse .document Frame.document source
      { controller := { name }, host }).2.controller := by
    simp only [Document.read] at h
    split at h
    · cases h
    · cases h
      rfl
  have hw : doc.controller.WellFormed := hdoc ▸ howned.growing.wellFormed
  refine ⟨hw, hw.walksEnd, fun node hn => ?_, fun layer node => hw.has⟩
  obtain ⟨layer, hl⟩ := hw.inLayer hn
  exact ⟨layer, hl, fun other ho => hw.layer_unique ho hl⟩

/-- A document with nested machines, blend trees, a motion that is replaced and a parameter that is
declared twice. -/
def Document.nested : String :=
  "bool b; bool b; layer L \x7b stateMachine M \x7b state A \x7b clip x; " ++
    "blendtree T simple1D(p) \x7b 0: clip y; 1: blendtree U direct \x7b b: empty; \x7d \x7d " ++
    "goto /S; \x7d \x7d state S \x7b goto M; \x7d default S; \x7d " ++
    "layer K \x7b sync L; state S \x7b end; \x7d \x7d"

theorem read_wellFormed_nested :
    ∃ doc host', Document.read Document.nested "Hero" ({} : MemoryHost) = (.ok doc, host') ∧
      (doc.controller.WellFormed ∧ doc.controller.WalksEnd) ∧
      doc.controller.nodePaths =
        [(.machine ⟨1⟩, ⟨["L", "M"]⟩), (.state ⟨0⟩, ⟨["L", "M", "A"]⟩), (.machine ⟨0⟩, ⟨["L"]⟩),
          (.state ⟨1⟩, ⟨["L", "S"]⟩), (.machine ⟨2⟩, ⟨["K"]⟩), (.state ⟨2⟩, ⟨["K", "S"]⟩)] ∧
      doc.controller.states.toList.map (fun st => (st.motion, st.transitions)) =
        [(some ⟨1⟩, [⟨0⟩]), (none, [⟨1⟩]), (none, [⟨2⟩])] ∧
      doc.controller.transitions.toList.map (·.destination) =
        [.state ⟨1⟩, .machine ⟨1⟩, .exit] ∧
      doc.controller.placedMotions = [⟨1⟩, ⟨2⟩, ⟨3⟩] ∧
      doc.controller.parameters.map (·.name) = ["b"] :=
  Document.exists_read_and
    (fun _ _ h => ⟨(read_wellFormed h).1, (read_wellFormed h).2.1⟩) (by decide +kernel)

end MotionScript
