import MotionScript.Proofs.Linking.Ledger
/-!
# Readings

Every reading of a document keeps its stack sound, and at every moment its wiring shows the ledger
of what has been read so far.
-/

namespace MotionScript

variable {η : Type} [Host η]

/-! ## Nodes that become known -/

namespace Wiring

theorem node?_register {w : Wiring} {layer : Nat} (path : Path) (node : NodeRef)
    (h : layer < w.symbols.size) (layer' : Nat) (path' : Path) :
    (w.register layer path node).node? layer' path' =
      (w.node? layer' path').or (if layer = layer' ∧ path = path' then some node else none) := by
  unfold register
  split
  · rename_i hs
    split
    · rename_i heq
      obtain ⟨rfl, rfl⟩ := heq
      obtain ⟨n, hn⟩ := Option.isSome_iff_exists.1 hs
      simp [hn]
    · simp
  · rename_i hs
    simp only [Option.not_isSome_iff_eq_none] at hs
    simp only [node?] at hs ⊢
    rw [getD_modify _ _ _ _ _ h]
    by_cases hl : layer = layer'
    · subst hl
      rw [if_pos rfl, List.lookup_append]
      by_cases hp : path = path'
      · subst hp; simp
      · have hne : (path' == path) = false := by simpa using fun h => hp h.symm
        simp [List.lookup_cons, hne, hp]
    · rw [if_neg hl]
      simp [hl]

theorem node?_addLayer (w : Wiring) (layer : Nat) (path : Path) :
    w.addLayer.node? layer path = w.node? layer path := by
  simp only [addLayer, node?, Array.getD_eq_getD_getElem?, Array.getElem?_push]
  split
  · rename_i h
    subst h
    simp
  · rfl

/-- Whether one wiring is another with further nodes, which nothing is known of yet. -/
structure Gains (w w' : Wiring) : Prop where
  pending : w'.pending = w.pending
  transitions : w'.transitions = w.transitions
  dropped : w'.dropped = w.dropped
  ids : ∀ home, w'.ids home = w.ids home
  nodes : ∀ layer path, w'.node? layer path = w.node? layer path
  machines : w.machines.size ≤ w'.machines.size
  states : w.states.size ≤ w'.states.size

theorem Gains.trans {w w' w'' : Wiring} (h : w.Gains w') (h' : w'.Gains w'') : w.Gains w'' where
  pending := h'.pending.trans h.pending
  transitions := h'.transitions.trans h.transitions
  dropped := h'.dropped.trans h.dropped
  ids home := (h'.ids home).trans (h.ids home)
  nodes layer path := (h'.nodes layer path).trans (h.nodes layer path)
  machines := Nat.le_trans h.machines h'.machines
  states := Nat.le_trans h.states h'.states

theorem gains_addMachine (w : Wiring) : w.Gains w.addMachine where
  pending := rfl
  transitions := rfl
  dropped := rfl
  ids home := by
    cases home with
    | state i => rfl
    | entry m | any m =>
      simp only [ids, addMachine, Array.getD_eq_getD_getElem?, Array.getElem?_push]
      split <;> simp_all
  nodes _ _ := rfl
  machines := by simp [addMachine]
  states := Nat.le_refl _

theorem gains_addState (w : Wiring) : w.Gains w.addState where
  pending := rfl
  transitions := rfl
  dropped := rfl
  ids home := by
    cases home with
    | entry m | any m => rfl
    | state i =>
      simp only [ids, addState, Array.getD_eq_getD_getElem?, Array.getElem?_push]
      split <;> simp_all
  nodes _ _ := rfl
  machines := Nat.le_refl _
  states := by simp [addState]

theorem gains_addLayer (w : Wiring) : w.Gains w.addLayer where
  pending := rfl
  transitions := rfl
  dropped := rfl
  ids home := by cases home <;> rfl
  nodes := w.node?_addLayer
  machines := Nat.le_refl _
  states := Nat.le_refl _

end Wiring

theorem firstNode?_append (nodes : List Declared) (node : Declared) (layer : Nat) (path : Path) :
    firstNode? (nodes ++ [node]) layer path =
      (firstNode? nodes layer path).or
        (if node.1 = layer ∧ node.2.1 = path then some node.2.2 else none) := by
  simp only [firstNode?, List.find?_append]
  cases List.find? (fun node => decide (node.1 = layer ∧ node.2.1 = path)) nodes with
  | some n => rfl
  | none => by_cases h : node.1 = layer ∧ node.2.1 = path <;> simp [h]

omit [Host η] in
theorem Shows.declare {w w' : Wiring} {l : Ledger} (h : Shows w l) (hw : w.Gains w') {layer : Nat}
    {path : Path} {node : NodeRef} (hl : layer < w'.symbols.size) :
    Shows (w'.register layer path node) (l.step (.declare (layer, path, node))) := by
  refine ⟨?_, ?_, ?_, ?_, ?_, ?_⟩
  · intro i q
    rw [Wiring.node?_register _ _ hl, Ledger.step, firstNode?_append, hw.nodes, h.nodes]
  · rw [Wiring.register_pending, hw.pending]; exact h.pending
  · rw [Wiring.register_transitions, hw.transitions]; exact h.transitions
  · intro home
    have : (w'.register layer path node).ids home = w'.ids home := by
      cases home <;> simp [Wiring.ids]
    rw [this, hw.ids]; exact h.ids home
  · rw [Wiring.register_dropped, hw.dropped]; exact h.dropped
  · intro p hp
    exact (h.within p hp).mono (by simpa using hw.machines) (by simpa using hw.states)

/-! ## Statements -/

omit [Host η] in
theorem TransitionRule.ended?_of_error {e : Event} {s : Session η} {fuel : Nat}
    {r q : TransitionRule} {d : Diagnostic} (h : lookAgain e s fuel r = .error d)
    (hq : ended? e fuel r = some q) : q.scope = none := by
  induction fuel generalizing r with
  | zero => cases h
  | succ fuel ih =>
    simp only [lookAgain, ended?] at h hq
    split at h
    · rename_i hends
      rw [if_pos hends] at hq
      unfold finish at h
      split at h
      · rename_i hb
        rw [if_pos hb] at hq
        cases hq
      · rename_i hb
        rw [if_neg hb] at hq
        cases hq
        split at h
        · assumption
        · cases h
    · rename_i hends
      rw [if_neg hends] at hq
      cases hl : r.look e with
      | error d' => rw [hl] at hq; cases hq
      | ok l =>
        rw [hl] at h hq
        simp only [bind, Except.bind] at h hq
        split at h
        · rename_i hagain
          rw [if_pos hagain] at hq
          exact ih h hq
        · cases h

omit [Host η] in
theorem TransitionRule.queuedBy_of_error {e : Event} {s : Session η} {r : TransitionRule}
    {d : Diagnostic} (h : r.react e s = .error d) : r.queuedBy s.controller e = [] := by
  unfold queuedBy
  cases hq : ended? e maxLooks (r.begun e) with
  | none => rfl
  | some q => simp only [ended?_of_error h hq]

/-- A rule that refuses a token declares nothing with it. -/
theorem Frame.declared?_of_error {e : Event} {s : Session η} {f : Frame} {d : Diagnostic}
    (h : f.react e s = .error d) : f.declared? e s = none := by
  have noName {expected : String} {d : Diagnostic} (h : e.name expected = .error d) :
      e.name? = none := by
    unfold Event.name at h
    split at h
    · cases h
    · assumption
  cases f with
  | machine r =>
    cases r with
    | unnamed nested outer =>
      simp only [Frame.react, Frame.lift, MachineRule.react] at h
      cases hn : e.name "a name" with
      | error d' => cases nested <;> cases outer <;> simp [Frame.declared?, noName hn]
      | ok name =>
        rw [hn] at h
        cases nested with
        | false => cases h
        | true =>
          cases outer with
          | none => rfl
          | some scope => cases h
    | named m x => rfl
  | state r =>
    cases r with
    | unnamed outer =>
      simp only [Frame.react, Frame.lift, StateRule.react] at h
      cases outer with
      | none => rfl
      | some scope =>
        cases hn : e.name "a state name" with
        | error d' => simp [Frame.declared?, noName hn]
        | ok name => rw [hn] at h; cases h
    | named scope id x => rfl
  | _ => rfl

/-! ## Turns -/

omit [Host η] in
/-- What is declared in a machine is declared in a layer. -/
theorem Sound.layer_lt {f : Frame} {scope : Scope} {parents : List Frame} {w : Wiring}
    (h : Sound (f :: parents) w)
    (hf : f = .machine (.unnamed true (some scope)) ∨ f = .state (.unnamed (some scope))) :
    scope.layer < w.symbols.size := by
  obtain ⟨⟨hfit, -⟩, hwithin, hsymbols⟩ := h
  obtain ⟨m, x, hbelow, rfl⟩ := hfit.below_name hf
  obtain ⟨rest, rfl⟩ := List.head?_eq_some_iff.1 hbelow
  obtain ⟨-, hlayer, -⟩ := hwithin _ (List.mem_cons_of_mem _ List.mem_cons_self)
  omega

omit [Host η] in
/-- The lists that a statement is written for exist. -/
theorem Sound.home_within {r : TransitionRule} {scope : Scope} {parents : List Frame} {w : Wiring}
    (h : Sound (.transition r :: parents) w) (hs : r.scope = some scope) (any : Bool) :
    (TransitionRule.home scope any).Within w := by
  obtain ⟨⟨hfit, hstack⟩, hwithin, -⟩ := h
  generalize hb : parents.head? = below at hfit
  cases hfit with
  | transition _ m x hm =>
    obtain ⟨rest, rfl⟩ := List.head?_eq_some_iff.1 hb
    obtain ⟨hi, -, hst⟩ := hwithin _ (List.mem_cons_of_mem _ List.mem_cons_self)
    obtain rfl : scope = m.scope := Option.some.inj (hs.symm.trans hm)
    simp only [TransitionRule.home, hst]
    split <;> exact hi
  | stateTransition _ sc id x hm =>
    obtain ⟨rest, rfl⟩ := List.head?_eq_some_iff.1 hb
    have hi := hwithin _ (List.mem_cons_of_mem _ List.mem_cons_self)
    obtain rfl : scope = sc := Option.some.inj (hs.symm.trans hm)
    obtain ⟨hf, -⟩ := hstack
    generalize rest.head? = outer at hf
    cases hf with
    | state _ _ m _ y hid =>
      simp only [TransitionRule.home, hid]
      exact hi

/-- What a token adds to the ledger. -/
theorem Shows.turn {e : Event} {s s' : Session η} {l : Ledger} {f f' : Frame}
    {parents : List Frame} {control : Control Frame} (h : Shows s.wiring l)
    (hs : Sound (f :: parents) s.wiring) (ht : Turn e s s' f f' control) :
    Shows s'.wiring ((Grammar.Call.token e f s).entries.foldl Ledger.step l) := by
  cases ht with
  | quiet hw hk ha hd hq =>
    rw [hw]
    cases f with
    | transition r =>
      rw [Grammar.Call.entries, hd, hq r rfl]
      simpa [Ledger.step] using h
    | _ => simpa [Grammar.Call.entries, hd] using h
  | layer outer name hn hw =>
    simp only [Grammar.Call.entries, Frame.declared?, hn, hw]
    refine h.declare (s.wiring.gains_addMachine.trans (Wiring.gains_addLayer _)) ?_
    simp only [Wiring.addLayer, Wiring.addMachine, Array.size_push, hs.symbols]
    exact Nat.lt_succ_of_le (Nat.le_of_eq rfl)
  | machine scope name hn hw =>
    simp only [Grammar.Call.entries, Frame.declared?, hn, hw]
    exact h.declare s.wiring.gains_addMachine (hs.layer_lt (.inl rfl))
  | state scope name hn hw =>
    simp only [Grammar.Call.entries, Frame.declared?, hn, hw]
    exact h.declare s.wiring.gains_addState (hs.layer_lt (.inr rfl))
  | statement r r' hscope hw =>
    rw [Grammar.Call.entries, hw]
    refine ⟨h.nodes, congrArg (· ++ _) h.pending, h.transitions, h.ids, h.dropped, fun p hp => ?_⟩
    rcases List.mem_append.1 hp with hp | hp
    · rcases List.mem_append.1 hp with hp | hp
      · exact h.within p (List.mem_append_left _ hp)
      · obtain ⟨scope, any, hsc, hhome, -, -⟩ := TransitionRule.mem_queuedBy hp
        exact hhome ▸ hs.home_within hsc any
    · exact h.within p (List.mem_append_right _ hp)

/-! ## Ends of machines -/

/-- Whether two wirings have the same nodes and lists. -/
structure Wiring.SameNodes (w w' : Wiring) : Prop where
  machines : w'.machines.size = w.machines.size
  states : w'.states.size = w.states.size
  layers : w'.layers = w.layers
  symbols : w'.symbols = w.symbols

namespace Wiring.SameNodes

variable {w w' w'' : Wiring}

theorem of_eq (h : w' = w) : w.SameNodes w' := by subst h; exact ⟨rfl, rfl, rfl, rfl⟩

theorem trans (h : w.SameNodes w') (h' : w'.SameNodes w'') : w.SameNodes w'' :=
  ⟨h'.machines.trans h.machines, h'.states.trans h.states, h'.layers.trans h.layers,
    h'.symbols.trans h.symbols⟩

theorem homeWithin (h : w.SameNodes w') {home : Home} (hh : home.Within w) : home.Within w' :=
  hh.mono (Nat.le_of_eq h.machines.symm) (Nat.le_of_eq h.states.symm)

end Wiring.SameNodes

theorem Session.wiring_linkDefault (s : Session η) (machine : MachineId) (layer : Nat)
    (path : Path) (use : NameUse) :
    (s.linkDefault machine layer path use).wiring = s.wiring := by
  simp only [linkDefault]
  split
  · exact Controller.wiring_modifyMachine s _ _ _ fun _ => ⟨rfl, rfl⟩
  · exact s.wiring_warn _ rfl

theorem Session.wiring_linkSyncs (s : Session η) : s.linkSyncs.wiring = s.wiring := by
  have hsync (s : Session η) (layer : Nat) (use : NameUse) :
      (s.linkSync layer use).wiring = s.wiring := by
    unfold linkSync
    split
    · exact Controller.wiring_modifyLayer s _ _
    · exact s.wiring_warn _ rfl
  have hfold (syncs : List (Nat × NameUse)) (s : Session η) :
      (syncs.foldl (fun s sync => s.linkSync sync.1 sync.2) s).wiring = s.wiring := by
    induction syncs generalizing s with
    | nil => rfl
    | cons sync syncs ih => rw [List.foldl_cons, ih, hsync]
  exact hfold _ { s with syncs := [] }

/-- Linking a transition makes no list and no layer. -/
theorem Session.link_sameNodes (s : Session η) (parent : Option MachineId) (p : Pending) :
    s.wiring.SameNodes (s.link parent p).wiring := by
  unfold Session.link
  split
  · rw [s.wiring_linkTo]
    obtain ⟨-, h2, -, -, h5, h6, h7⟩ := Wiring.attach_fields
      { s.wiring with transitions := s.wiring.transitions.push (p.linked _) } p.home
      ⟨s.wiring.transitions.size⟩
    exact ⟨h6, h7, h5, h2⟩
  · exact ⟨rfl, rfl, rfl, rfl⟩
  · exact ⟨rfl, rfl, rfl, rfl⟩
  · exact ⟨rfl, rfl, rfl, rfl⟩

/-- Linking transitions one after another keeps what the session shows. -/
theorem Shows.linkAll {s : Session η} {l : Ledger} (h : Shows s.wiring l)
    (parent : Option MachineId) (ps : List Pending) (hp : ∀ p ∈ ps, p.home.Within s.wiring) :
    Shows (ps.foldl (Session.link parent) s).wiring (ps.foldl (Ledger.link parent) l) ∧
      s.wiring.SameNodes (ps.foldl (Session.link parent) s).wiring := by
  induction ps generalizing s l with
  | nil => exact ⟨h, .of_eq rfl⟩
  | cons p ps ih =>
    have hn := s.link_sameNodes parent p
    have h1 := h.linkOne parent p (hp p List.mem_cons_self)
    obtain ⟨h2, h3⟩ := ih h1 fun q hq => hn.homeWithin (hp q (List.mem_cons_of_mem p hq))
    exact ⟨h2, hn.trans h3⟩

theorem Shows.linkScope {s : Session η} {l : Ledger} (h : Shows s.wiring l) (machine : MachineId)
    (parent : Option MachineId) :
    Shows (s.linkScope machine parent).wiring (l.step (.close machine parent)) ∧
      s.wiring.SameNodes (s.linkScope machine parent).wiring := by
  have hp : s.pending = l.pending := h.pending
  have hothers : l.pending.filter (not ∘ fun p => decide (p.owner = machine)) =
      l.pending.filter (·.owner ≠ machine) := by
    congr 1; funext p; simp
  simp only [Session.linkScope, Ledger.step, List.partition_eq_filter_filter, hp, hothers]
  obtain ⟨h1, h2⟩ := Shows.linkAll (s := { s with pending := l.pending.filter (·.owner ≠ machine) })
    (l := { l with pending := l.pending.filter (·.owner ≠ machine) })
    ⟨h.nodes, rfl, h.transitions, h.ids, h.dropped, fun p hp => by
      rcases List.mem_append.1 hp with hp | hp
      · exact h.within p (List.mem_append_left _ (List.mem_of_mem_filter hp))
      · exact h.within p (List.mem_append_right _ hp)⟩
    parent (l.pending.filter (·.owner = machine))
    fun p hp => h.within p (List.mem_append_left _ (List.mem_of_mem_filter hp))
  exact ⟨h1, ⟨h2.machines, h2.states, h2.layers, h2.symbols⟩⟩

/-- What the end of a rule adds to the ledger. -/
theorem Shows.detach {s : Session η} {l : Ledger} (h : Shows s.wiring l) (f : Frame) :
    Shows (f.close s).wiring ((Grammar.Call.detach f s).entries.foldl Ledger.step l) ∧
      s.wiring.SameNodes (f.close s).wiring := by
  cases f with
  | document => exact ⟨s.wiring_linkSyncs ▸ h, .of_eq s.wiring_linkSyncs⟩
  | machine r =>
    cases r with
    | unnamed nested outer => exact ⟨h, .of_eq rfl⟩
    | named m x =>
      simp only [Frame.close, MachineRule.close, Grammar.Call.entries, List.foldl_cons,
        List.foldl_nil]
      cases m.default with
      | none => exact h.linkScope _ _
      | some use =>
        have hw := s.wiring_linkDefault m.scope.machine m.scope.layer m.scope.path use
        have hl := Shows.linkScope (hw.symm ▸ h) m.scope.machine m.parent
        exact ⟨hl.1, hw ▸ hl.2⟩
  | motion r => exact ⟨r.wiring_place s ▸ h, .of_eq (r.wiring_place s)⟩
  | _ => exact ⟨h, .of_eq rfl⟩

omit [Host η] in
theorem Sound.detach {s : Session η} {f : Frame} {parents : List Frame} {w : Wiring}
    (h : Sound (f :: parents) s.wiring) (hn : s.wiring.SameNodes w) : Sound parents w := by
  refine ⟨h.stacked.2, ?_, ?_⟩
  · intro g hg
    exact (h.within g (List.mem_cons_of_mem f hg)).mono (Nat.le_of_eq hn.machines.symm)
      (Nat.le_of_eq hn.states.symm) hn.layers
  · rw [hn.symbols, hn.layers]; exact h.symbols

end MotionScript
