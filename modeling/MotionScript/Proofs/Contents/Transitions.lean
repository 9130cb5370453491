import MotionScript.Proofs.Contents.Statements
import MotionScript.Proofs.Ownership.Declared
/-!
# Transitions of parsed graphs

No transition leads to the machine of a layer, and no condition without a comparison has a threshold.
The machine of a layer has the name of the layer.
-/

namespace MotionScript

variable {η : Type} [Host η]

/-! ## All moments of a reading -/

/-- Whether the tables of a session know nodes by the paths that lead to them. -/
def Session.Finds (s : Session η) : Prop :=
  ∀ layer path node, s.lookup? layer path = some node → s.controller.HasPath layer node path

omit [Host η] in
theorem Session.Finds.mono {s s' : Session η} (h : s.Finds) (hw : s.controller.WellFormed)
    (hc : s.controller.Retains s'.controller) (hsymbols : s'.symbols = s.symbols) : s'.Finds := by
  intro layer path node hnode
  refine (h layer path node ?_).mono hw hc
  rwa [Session.lookup?, ← hsymbols]

theorem Session.Finds.link {s : Session η} (h : s.Finds) (hw : s.controller.WellFormed)
    (parent : Option MachineId) (p : Pending) : (s.link parent p).Finds := by
  refine h.mono hw (s.steady_link parent p).toRetains ?_
  unfold Session.link
  split <;> rfl

theorem Session.Finds.linkDefault {s : Session η} (h : s.Finds) (hw : s.controller.WellFormed)
    (machine : MachineId) (layer : Nat) (path : Path) (use : NameUse) :
    (s.linkDefault machine layer path use).Finds := by
  refine h.mono hw (s.retains_linkDefault machine layer path use) ?_
  unfold Session.linkDefault
  extract_lets target
  split <;> rfl

theorem Moment.finds {stack : List Frame} {s : Session η}
    {calls : List (Grammar.Call Frame (Session η))} (h : Moment stack s calls)
    (hc : Charted stack s.controller (calls.flatMap Grammar.Call.nodes)) : s.Finds := by
  intro layer path node hnode
  rw [h.lookup?] at hnode
  exact hc.paths _ (exists_of_firstNode? hnode)

/-- What holds at the start of a reading, and what turns, attaching and detaching keep, holds at every
moment of it. -/
theorem Grammar.Reached.invariant {I : List Frame → Session η → Prop} {name : String} {host : η}
    (start : I [.document]
      (({ controller := { name }, host } : Session η).persist [] .controller name))
    (turn : ∀ (e : Event) (f f' : Frame) (parents : List Frame) (s s' : Session η)
      (control : Control Frame), Owned (f :: parents) s → I (f :: parents) s →
      f.react e s = .ok (f', s', control) → I (f' :: parents) s')
    (attach : ∀ (e : Event) (f f' g : Frame) (parents : List Frame) (s₀ s : Session η)
      (forward : Bool), I (f' :: parents) s →
      f.react e s₀ = .ok (f', s, some (.attach g forward)) →
      I ((g.onAttach f'.context s).subject :: f' :: parents) s)
    (close : ∀ (f : Frame) (parents : List Frame) (s : Session η), Owned (f :: parents) s →
      s.Finds → I (f :: parents) s → I parents (f.close s))
    {stack : List Frame} {s : Session η} {calls : List (Grammar.Call Frame (Session η))}
    (h : (Grammar.document η).Reached .document { controller := { name }, host } stack s calls) :
    I stack s := by
  -- A rule has handled a token, whatever it asks for.
  have token {f : Frame} {parents : List Frame} {s : Session η} (ho : Owned (f :: parents) s)
      (h : I (f :: parents) s) (e : Event) :
      I ((f.onToken e s).subject :: parents) (f.onToken e s).session := by
    rw [Frame.onToken]
    cases hr : f.react e s with
    | ok step => exact turn e f _ parents s _ _ ho h hr
    | error d => exact h
  induction h with
  | root => exact start
  | stay e h hstay ih => exact token h.owned ih e
  | @attach top parents s calls e rule forward h hask ih =>
    have hturn := token h.owned ih e
    simp only [Grammar.document, Frame.onToken] at hask hturn ⊢
    cases hr : top.react e s with
    | error d =>
      rw [hr] at hask
      cases hask
    | ok step =>
      rw [hr] at hask hturn
      obtain ⟨f', s', control⟩ := step
      cases hask
      show I _ (rule.onAttach f'.context s').session
      rw [(Owned.onAttach_asked hr).1]
      exact attach e top f' rule parents s s' forward hturn hr
  | detach e forward h hask ih =>
    refine close _ _ _ (h.owned.token e) ((h.moment.token e).finds ?_) (token h.owned ih e)
    exact h.charted.token h.owned.growing.wellFormed h.moment.sound.stacked e
  | unwind h ih => exact close _ _ _ h.owned (h.moment.finds h.charted) ih

/-! ## Layers and their machines -/

namespace Controller

variable {c c' : Controller} {layer : Nat}

theorem Retains.childMachines (h : c.Retains c') : c.childMachines ⊆ c'.childMachines := by
  intro id hid
  obtain ⟨i, hi⟩ := exists_of_mem_flatMap hid
  exact mem_childMachines (h.machines ⟨i⟩ hi.2)

/-- A machine that is not that of a layer is a child of another one. -/
theorem HasPath.mem_childMachines {id : MachineId} {path : Path}
    (h : c.HasPath layer (.machine id) path) (hp : 2 ≤ path.depth) : id ∈ c.childMachines := by
  generalize hn : NodeRef.machine id = node at h
  cases h with
  | root => exact absurd hp (by simp [Path.depth])
  | machine ho hi =>
    cases hn
    exact Controller.mem_childMachines hi
  | state => cases hn

theorem attach_layers (c : Controller) (home : Home) (id : TransitionId) :
    (c.attach home id).layers = c.layers := by
  cases home <;> rfl

theorem attach_transitions (c : Controller) (home : Home) (id : TransitionId) :
    (c.attach home id).transitions = c.transitions := by
  cases home <;> rfl

/-- Whether the machines of layers have the names of these. -/
def RootsNamed (c : Controller) : Prop := ∀ l ∈ c.layers, (c.machine l.machine).name = l.name

theorem RootsNamed.mono (h : c.RootsNamed) (hc : c.Retains c') (hw : c.WellFormed)
    (hl : ∀ l' ∈ c'.layers, ∃ l ∈ c.layers, l'.machine = l.machine ∧ l'.name = l.name) :
    c'.RootsNamed := by
  intro l' hl'
  obtain ⟨l, hl, hmachine, hname⟩ := hl l' hl'
  obtain ⟨i, hi⟩ := Array.getElem?_of_mem hl
  have hkept := (hc.names (.machine l.machine) (hw.has (.root hi))).2
  rw [hmachine, hname, ← h l hl]
  exact hkept

theorem RootsNamed.modifyLayer (h : c.RootsNamed) {i : Nat} {f : Layer → Layer}
    (hf : ∀ l, (f l).machine = l.machine ∧ (f l).name = l.name) : (c.modifyLayer i f).RootsNamed := by
  intro l' hl'
  rcases mem_modify hl' with hl | ⟨l, hl, rfl⟩
  · exact h l' hl
  · rw [(hf l).1, (hf l).2]
    exact h l hl

theorem RootsNamed.growth {f f' : Frame} (h : c.RootsNamed) (hw : c.WellFormed)
    (hg : f.Growth c c' f') : c'.RootsNamed := by
  have hc := hg.steady.toRetains
  cases hg with
  | edit hc' =>
    cases hc' with
    | layer i f hf => exact h.modifyLayer fun l => ⟨(hf l).1, (hf l).2.2⟩
    | _ => exact h.mono hc hw fun l hl => ⟨l, hl, rfl, rfl⟩
  | layer name =>
    intro l' hl'
    rcases Array.mem_push.1 hl' with hl | rfl
    · obtain ⟨i, hi⟩ := Array.getElem?_of_mem hl
      rw [← h l' hl]
      exact (hc.names (.machine l'.machine) (hw.has (.root hi))).2
    · simp [addLayer, addMachine, machine]
  | record outer ho record =>
    refine h.mono hc hw fun l hl => ⟨l, ?_, rfl, rfl⟩
    unfold placeRecord at hl
    split at hl <;> exact hl
  | _ => exact h.mono hc hw fun l hl => ⟨l, hl, rfl, rfl⟩

end Controller

/-! ## What is known of transitions -/

/-- The scope of a rule that declares nodes or leads to them. -/
def Frame.pathScope? : Frame → Option Scope
  | .motion _ | .record _ => none
  | f => f.scope?

/-- Whether a transition that waits has plain conditions, and leads below the machine of a layer. -/
structure Pending.Plain (p : Pending) : Prop where
  conditions : ∀ x ∈ p.transition.conditions, x.Plain
  target : ∀ path, p.target = .node path → 2 ≤ path.depth

/-- Whether a transition has plain conditions, and leads to no machine of a layer. -/
structure Transition.PlainIn (c : Controller) (t : Transition) : Prop where
  conditions : ∀ x ∈ t.conditions, x.Plain
  destination : ∀ id, t.destination = .machine id → id ∈ c.childMachines

theorem Transition.PlainIn.mono {t : Transition} {c c' : Controller} (h : t.PlainIn c)
    (hc : c.Retains c') : t.PlainIn c' :=
  ⟨h.conditions, fun id hd => hc.childMachines (h.destination id hd)⟩

omit [Host η] in
/-- No turn puts a rule where a path is empty. -/
theorem Turn.scopes {e : Event} {s s' : Session η} {f f' : Frame} {control : Control Frame}
    (h : Turn e s s' f f' control) (hf : ∀ scope ∈ f.pathScope?, scope.path.segments ≠ []) :
    ∀ scope ∈ f'.pathScope?, scope.path.segments ≠ [] := by
  intro scope hs
  cases h with
  | quiet hw hkeeps =>
    cases hkeeps with
    | machine m m' x x' hscope =>
      cases hs
      exact hf _ (congrArg some hscope.symm)
    | transition r r' hscope =>
      change scope ∈ r'.scope at hs
      rw [hscope] at hs
      exact hf scope hs
    | motion | record => cases hs
    | _ => exact hf scope hs
  | statement r r' hscope =>
    change scope ∈ r'.scope at hs
    rw [hscope] at hs
    exact hf scope hs
  | layer =>
    cases hs
    exact List.cons_ne_nil _ _
  | machine outer name =>
    cases hs
    exact List.append_ne_nil_of_right_ne_nil _ (List.cons_ne_nil _ _)
  | state outer name =>
    cases hs
    exact hf outer rfl

/-- What holds at every moment of a reading. -/
structure Plain (stack : List Frame) (s : Session η) : Prop where
  statements : ∀ r, .transition r ∈ stack → r.Sane
  scopes : ∀ f ∈ stack, ∀ scope ∈ f.pathScope?, scope.path.segments ≠ []
  pending : ∀ p ∈ s.pending, p.Plain
  transitions : ∀ t ∈ s.controller.transitions, t.PlainIn s.controller
  roots : s.controller.RootsNamed

namespace Plain

variable {stack parents : List Frame} {s s' : Session η}

/-! ### Turns -/

theorem turn {e : Event} {f f' : Frame} {control : Control Frame} (ho : Owned (f :: parents) s)
    (h : Plain (f :: parents) s) (hr : f.react e s = .ok (f', s', control)) :
    Plain (f' :: parents) s' := by
  have hw := ho.growing.wellFormed
  have hg := Frame.react_growth hr
  have ht := Frame.react_turn hr
  have hscopes := ht.scopes (h.scopes f List.mem_cons_self)
  have hstatement : ∀ r', f' = .transition r' → r'.Sane ∧ ∀ p ∈ s'.pending, p.Plain := by
    rintro r' rfl
    cases Frame.react_move hr with
    | @transition r _ _ _ hq =>
      have hsane := h.statements r List.mem_cons_self
      obtain ⟨hleads, rfl, -⟩ := TransitionRule.react_ok hq
      refine ⟨(hsane.begun e).leads hleads,
        List.forall_mem_append.2 ⟨h.pending, fun p hp => ?_⟩⟩
      obtain ⟨scope, hscope, hconditions, htarget⟩ := hsane.queuedBy hp
      have hpath := h.scopes _ List.mem_cons_self scope hscope
      exact ⟨hconditions, fun path ht => htarget path ht hpath⟩
  have hpending : ∀ p ∈ s'.pending, p.Plain := by
    change ∀ p ∈ s'.wiring.pending, p.Plain
    cases ht with
    | statement r r' => exact (hstatement r' rfl).2
    | quiet hw =>
      rw [hw]
      exact h.pending
    | layer outer name hn hw | machine scope name hn hw | state scope name hn hw =>
      rw [hw, Wiring.register_pending]
      exact h.pending
  have htransitions : s'.controller.transitions = s.controller.transitions := by
    change s'.wiring.transitions = s.wiring.transitions
    cases ht with
    | quiet hw => rw [hw]
    | statement r r' hs hw => rw [hw]; rfl
    | layer outer name hn hw | machine scope name hn hw | state scope name hn hw =>
      rw [hw, Wiring.register_transitions]
      rfl
  refine ⟨fun r hmem => ?_, List.forall_mem_cons.2 ⟨hscopes, fun g hg =>
    h.scopes g (List.mem_cons_of_mem _ hg)⟩, hpending, fun t hmem => ?_, h.roots.growth hw hg⟩
  · rcases List.mem_cons.1 hmem with heq | hmem
    · exact (hstatement r heq.symm).1
    · exact h.statements r (List.mem_cons_of_mem _ hmem)
  · rw [htransitions] at hmem
    exact (h.transitions t hmem).mono hg.steady.toRetains

/-! ### Attaching -/

theorem attach {e : Event} {f f' g : Frame} {forward : Bool} {s₀ : Session η}
    (h : Plain (f' :: parents) s) (hr : f.react e s₀ = .ok (f', s, some (.attach g forward))) :
    Plain ((g.onAttach f'.context s).subject :: f' :: parents) s := by
  have hf := h.scopes f' List.mem_cons_self
  have ha := (Frame.react_turn hr).asks
  refine { h with
    statements := fun r hmem => ?_
    scopes := List.forall_mem_cons.2 ⟨fun scope hs => ?_, h.scopes⟩ }
  · rcases List.mem_cons.1 hmem with heq | hmem
    · cases ha with
      | machineTransition | stateTransition =>
        cases heq
        exact ⟨fun g hg => absurd hg List.not_mem_nil, trivial, by rintro segments ⟨⟩⟩
      | _ => cases heq
    · exact h.statements r hmem
  · cases ha with
    | layer | parameter | motion | child | machineRecord | stateRecord => cases hs
    | state | machine | machineTransition | stateTransition => exact hf scope hs

/-! ### Detaching -/

omit [Host η] in
/-- A change of the graph in which nodes keep their names. -/
theorem changed {stack' : List Frame} (h : Plain stack s) (hsub : stack' ⊆ stack)
    (hc : s.controller.Retains s'.controller) (hpending : ∀ p ∈ s'.pending, p.Plain)
    (htransitions : ∀ t ∈ s'.controller.transitions,
      t ∈ s.controller.transitions ∨ t.PlainIn s'.controller)
    (hroots : s'.controller.RootsNamed) : Plain stack' s' where
  statements r hr := h.statements r (hsub hr)
  scopes f hf := h.scopes f (hsub hf)
  pending := hpending
  transitions t ht := (htransitions t ht).elim (fun ht => (h.transitions t ht).mono hc) id
  roots := hroots

theorem linkDefault (h : Plain stack s) (hw : s.controller.WellFormed) (machine : MachineId)
    (layer : Nat) (path : Path) (use : NameUse) :
    Plain stack (s.linkDefault machine layer path use) := by
  have hc := s.retains_linkDefault machine layer path use
  have hsame : (s.linkDefault machine layer path use).pending = s.pending ∧
      (s.linkDefault machine layer path use).controller.transitions = s.controller.transitions ∧
      (s.linkDefault machine layer path use).controller.layers = s.controller.layers := by
    unfold Session.linkDefault
    extract_lets target
    split <;> exact ⟨rfl, rfl, rfl⟩
  obtain ⟨hpending, htransitions, hlayers⟩ := hsame
  exact h.changed (List.Subset.refl _) hc (hpending ▸ h.pending)
    (fun t ht => .inl (htransitions ▸ ht))
    (h.roots.mono hc hw fun l hl => ⟨l, hlayers ▸ hl, rfl, rfl⟩)

theorem linkTo (h : Plain stack s) (hw : s.controller.WellFormed) (hfinds : s.Finds) {p : Pending}
    {d : Destination} (hp : p.Plain) (hr : s.resolution p = .found d) :
    Plain stack (s.linkTo p d) := by
  have hadd : s.controller.Steady
      (s.controller.addTransition { p.transition with destination := d }).2 := .of_eq rfl rfl rfl
  have hc := (hadd.trans (.attach _ p.home ⟨s.controller.transitions.size⟩)).toRetains
  have hmachine : ∀ id, d = .machine id → id ∈ s.controller.childMachines := by
    rintro id rfl
    unfold Session.resolution at hr
    split at hr
    · cases hr
    · cases hr
    · rename_i path htarget
      split at hr <;> cases hr
      exact (hfinds _ _ _ ‹_›).mem_childMachines (hp.target path htarget)
  refine h.changed (List.Subset.refl _) hc h.pending (fun t ht => ?_)
    (h.roots.mono hc hw fun l hl => ⟨l, ?_, rfl, rfl⟩)
  · change t ∈ ((s.controller.addTransition { p.transition with destination := d }).2.attach
      p.home ⟨s.controller.transitions.size⟩).transitions at ht
    rw [Controller.attach_transitions] at ht
    rcases Array.mem_push.1 ht with ht | rfl
    · exact .inl ht
    · exact .inr ⟨hp.conditions, fun id hd => hc.childMachines (hmachine id hd)⟩
  · change l ∈ ((s.controller.addTransition { p.transition with destination := d }).2.attach
      p.home ⟨s.controller.transitions.size⟩).layers at hl
    rwa [Controller.attach_layers] at hl

theorem link (h : Plain stack s) (hw : s.controller.WellFormed) (hfinds : s.Finds) {p : Pending}
    (hp : p.Plain) (parent : Option MachineId) : Plain stack (Session.link parent s p) := by
  unfold Session.link
  split
  · exact h.linkTo hw hfinds hp ‹_›
  · exact { h with }
  · refine { h with pending := List.forall_mem_append.2 ⟨h.pending, ?_⟩ }
    exact List.forall_mem_singleton.2 ⟨hp.conditions, hp.target⟩
  · exact { h with }

theorem linkAll (parent : Option MachineId) (ps : List Pending) (ho : Owned stack s)
    (hfinds : s.Finds) (h : Plain stack s)
    (hin : ∀ p ∈ ps, s.controller.InLayer p.layer p.home.node) (hps : ∀ p ∈ ps, p.Plain) :
    Plain stack (ps.foldl (Session.link parent) s) := by
  induction ps generalizing s with
  | nil => exact h
  | cons p ps ih =>
    rw [List.forall_mem_cons] at hps hin
    have hw := ho.growing.wellFormed
    obtain ⟨hlink, hc⟩ := ho.link hin.1 parent
    exact ih hlink (hfinds.link hw parent p) (h.link hw hfinds hps.1 parent)
      (fun q hq => (hin.2 q hq).mono hc) hps.2

theorem linkScope (ho : Owned stack s) (hfinds : s.Finds) (h : Plain stack s) (machine : MachineId)
    (parent : Option MachineId) : Plain stack (s.linkScope machine parent) := by
  unfold Session.linkScope
  rw [List.partition_eq_filter_filter]
  refine linkAll parent _ ⟨ho.growing, ho.seated, ho.symbols, fun p hp => ?_⟩ hfinds
    { h with pending := fun p hp => ?_ } (fun p hp => ?_) fun p hp => ?_
  · exact ho.pending p (List.mem_of_mem_filter hp)
  · exact h.pending p (List.mem_of_mem_filter hp)
  · exact ho.pending p (List.mem_of_mem_filter hp)
  · exact h.pending p (List.mem_of_mem_filter hp)

theorem linkSync (h : Plain stack s) (layer : Nat) (use : NameUse) :
    Plain stack (s.linkSync layer use) := by
  unfold Session.linkSync
  split
  · rename_i index _
    have hc : s.controller.Steady (s.controller.modifyLayer layer fun l =>
        { l with synced := some index }) := .modifyLayer _ _ fun l => ⟨rfl, rfl⟩
    exact h.changed (List.Subset.refl _) hc.toRetains h.pending (fun t ht => .inl ht)
      (h.roots.modifyLayer fun l => ⟨rfl, rfl⟩)
  · exact { h with }

theorem linkSyncs (h : Plain stack s) : Plain stack s.linkSyncs := by
  have all (syncs : List (Nat × NameUse)) {s : Session η} (h : Plain stack s) :
      Plain stack (syncs.foldl (fun s sync => s.linkSync sync.1 sync.2) s) := by
    induction syncs generalizing s with
    | nil => exact h
    | cons sync syncs ih => exact ih (h.linkSync sync.1 sync.2)
  exact all s.syncs { h with }

omit [Host η] in
theorem place (hw : s.controller.WellFormed) (h : Plain stack s) (r : MotionRule) :
    Plain stack (s.modify r.place) := by
  have hsame : (r.place s.controller).transitions = s.controller.transitions ∧
      (r.place s.controller).layers = s.controller.layers := by
    unfold MotionRule.place
    split <;> exact ⟨rfl, rfl⟩
  have hc := (r.steady_place s.controller).toRetains
  exact h.changed (List.Subset.refl _) hc h.pending (fun t ht => .inl (hsame.1 ▸ ht))
    (h.roots.mono hc hw fun l hl => ⟨l, hsame.2 ▸ hl, rfl, rfl⟩)

/-- A rule is detached. -/
theorem close {f : Frame} (ho : Owned (f :: parents) s) (hfinds : s.Finds)
    (h : Plain (f :: parents) s) : Plain parents (f.close s) := by
  have drop {s : Session η} (h : Plain (f :: parents) s) : Plain parents s :=
    { h with
      statements := fun r hr => h.statements r (List.mem_cons_of_mem _ hr)
      scopes := fun g hg => h.scopes g (List.mem_cons_of_mem _ hg) }
  have hw := ho.growing.wellFormed
  cases f with
  | motion r => exact drop (place hw h r)
  | document => exact drop h.linkSyncs
  | machine r =>
    cases r with
    | unnamed nested outer => exact drop h
    | named m x =>
      refine drop ?_
      have hseat := (ho.seated _ List.mem_cons_self).seat m.scope rfl
      simp only [Frame.close, MachineRule.close]
      cases m.default with
      | none => exact linkScope ho hfinds h _ _
      | some use =>
        exact linkScope (ho.linkDefault hseat.machine _ use) (hfinds.linkDefault hw _ _ _ use)
          (h.linkDefault hw _ _ _ use) _ _
  | parameter | state | transition | record => exact drop h

end Plain

/-- What holds of the transitions and layers at every moment of a reading. -/
theorem Grammar.Reached.plain {name : String} {host : η} {stack : List Frame} {s : Session η}
    {calls : List (Grammar.Call Frame (Session η))}
    (h : (Grammar.document η).Reached .document { controller := { name }, host } stack s calls) :
    Plain stack s := by
  refine h.invariant ?_ (fun e f f' parents s s' control => Plain.turn)
    (fun e f f' g parents s₀ s forward => Plain.attach) fun f parents s => Plain.close
  exact
    { statements := by simp
      scopes := by simp [Frame.pathScope?, Frame.scope?]
      pending := fun _ hp => absurd hp List.not_mem_nil
      transitions := fun _ ht => absurd ht (Array.not_mem_empty _)
      roots := fun _ hl => absurd hl (Array.not_mem_empty _) }

end MotionScript
