import MotionScript.Proofs.RoundTrip.Trees
/-!
# Documents that are read back

The canonical text of a controller is read without a warning, and gives a controller that is equal to
the first one as a tree: each transition that waits finds the node that it led to.
-/

namespace MotionScript

/-! ## Links -/

/-- Transitions that are equal are equal with any other destination. -/
theorem Transition.beq_destination {t t' : Transition} (h : (t' == t) = true) (d : Destination) :
    (({ t' with destination := d } : Transition) == { t with destination := d }) = true := by
  rw [beq_iff] at h ⊢
  exact ⟨rfl, h.2⟩

theorem forall₂_filterMap {α β γ : Type} {R : α → β → Prop} {S : α → γ → Prop} {f : β → Option γ}
    {xs : List α} {ys : List β} (h : List.Forall₂ R xs ys)
    (hf : ∀ x ∈ xs, ∀ y, R x y → ∃ z, f y = some z ∧ S x z) :
    List.Forall₂ S xs (ys.filterMap f) := by
  induction h with
  | nil => exact .nil
  | cons hxy _ ih =>
    rw [List.forall_mem_cons] at hf
    obtain ⟨z, hz, hs⟩ := hf.1 _ hxy
    rw [List.filterMap_cons_some hz]
    exact .cons hs (ih hf.2)

/-- A waiting transition has the path of the node that it led to, which is in its layer. -/
theorem TransitionRule.Queues.leads {c : Controller} (hf : c.Forest) {scope : Scope} {any : Bool}
    {t : Transition} {p : Pending} (hq : Queues c.nodePaths scope any t p)
    (hd : c.LeadsBelow scope.layer t.destination) :
    t.destination = .exit ∧ p.target = .exit ∨ ∃ node path, t.destination = node.destination ∧
      c.HasPath scope.layer node path ∧ p.target = .node path := by
  obtain ⟨path, hwithin, htarget⟩ := hq.target
  cases path with
  | none => exact .inl ⟨hwithin, htarget⟩
  | some path =>
    obtain ⟨⟨node, hnode, hpath⟩, -⟩ := hwithin
    obtain ⟨layer', hp⟩ := hf.path?_eq_some.1 hpath
    refine .inr ⟨node, path, hnode, ?_, htarget⟩
    rcases hd with hexit | ⟨node', hnode', hin, -⟩
    · rw [hexit] at hnode
      cases node <;> cases hnode
    · obtain rfl := NodeRef.destination_injective (hnode.symm.trans hnode')
      obtain ⟨path', hp'⟩ := hin.exists_path
      obtain ⟨rfl, rfl⟩ := hf.path_unique hp hp'
      exact hp

namespace Controller

/-- What is known of a session at the end of a reading: its tables hold the nodes of the journal, and
its transitions are linked. -/
structure Settled (s : Session MemoryHost) (j : Journal) : Prop where
  nodes : ∀ layer path, firstNode? j.nodes layer path = s.outline.lookup? layer path
  linked : Document.LinkedBy ⟨s.controller, s.warnings⟩ j
  ordered : Document.OrderedBy ⟨s.controller, s.warnings⟩ j

variable {c : Controller} {s : Session MemoryHost} {j : Journal} {roots : List MachineId}
  {registry : Registry} {layer : Nat}

theorem Settled.of_moment {calls : List (Grammar.Call Frame (Session MemoryHost))}
    (h : Moment [] s calls) : Settled s (calls.flatMap Grammar.Call.entries) where
  nodes layer path := by
    rw [← h.written.accounts.nodes, ← h.shows.nodes]
    rfl
  linked := h.shows.linkedBy h.written rfl
  ordered := h.shows.orderedBy h.written rfl

namespace ReadBack

/-- The machine of a layer ends in none. -/
theorem close_mem (h : c.ReadBack s j roots) (hf : c.Forest) {l' : Layer}
    (hl' : s.controller.layers[layer]? = some l') : Entry.close l'.machine none ∈ j := by
  obtain ⟨l, hl, -⟩ := h.layer_eq hl'
  have hmem : Entry.close l.machine none ∈ c.walk := by
    refine List.mem_flatMap.2 ⟨(l, layer), ?_, by simp [walkLayer]⟩
    exact List.mem_zipIdx_iff_getElem?.2 (by simpa using hl)
  obtain ⟨e, he, hread⟩ := exists_forall₂_right h.walk.flip hmem
  cases hread with
  | @close k _ m' _ _ hm hparent =>
    cases hparent
    have hc := h.counterpart hf hm
    obtain ⟨path, hp, -⟩ := hm
    obtain ⟨rfl, -⟩ := hf.path_unique hp (.root hl)
    obtain rfl := NodeRef.machine.inj (hc.unique hf (.root hl hl'))
    exact (List.mem_filter.1 he).1

/-- A transition that waits is linked to the counterpart of the node that it led to. -/
theorem exists_linked (h : c.ReadBack s j roots) (hs : Settled s j) (hf : c.Forest)
    {scope : Scope} {any : Bool} {t : Transition} {p : Pending}
    (hq : TransitionRule.Queues c.nodePaths scope any t p.bare)
    (hd : c.LeadsBelow scope.layer t.destination) :
    ∃ d, p.resolve? j.nodes = some d ∧
      SameTransition c s.controller scope.layer t (p.linked d) := by
  have htransition : (p.transition == { t with destination := .exit }) = true := hq.transition
  have hmodifiers (d : Destination) : ({ p.linked d with destination := .exit } ==
      ({ t with destination := .exit } : Transition)) = true :=
    Transition.beq_destination htransition .exit
  have hlayer : p.layer = scope.layer := hq.layer
  rcases hq.leads hf hd with ⟨hexit, htarget⟩ | ⟨node, path, hnode, hp, htarget⟩
  · have htarget : p.target = .exit := htarget
    refine ⟨.exit, by rw [Pending.resolve?, htarget], hmodifiers _, ?_⟩
    rw [hexit]
    exact .exit
  · have htarget : p.target = .node path := htarget
    obtain ⟨node', hcounter, hlookup⟩ := h.exists_counterpart hf hp
    refine ⟨node'.destination, ?_, hmodifiers _, ?_⟩
    · rw [Pending.resolve?, htarget, hlayer]
      show (firstNode? j.nodes scope.layer path).map _ = _
      rw [hs.nodes, hlookup]
      rfl
    · rw [hnode]
      exact .node hcounter

/-- The transitions that wait for a list are those written for it. -/
theorem filter_bare (j : Journal) (home : Home) :
    (j.groups.map Pending.bare).filter (·.home = home) = (j.groupsOf home).map Pending.bare :=
  List.filter_map

/-- What is written in the machine of a layer, or directly in a state of it, is linked in written
order. -/
theorem transitionsOf_outermost (h : c.ReadBack s j roots) (hs : Settled s j) (hf : c.Forest)
    {owner : MachineId} {home : Home} (howner : ∀ p ∈ j.groupsOf home, p.owner = owner)
    (hroot : s.controller.isRoot layer owner = true) :
    s.controller.transitionsOf home =
      (j.groupsOf home).filterMap fun p => (p.resolve? j.nodes).map p.linked := by
  refine hs.ordered.outermost home fun p hp => ?_
  obtain ⟨l', hl', hmachine⟩ : ∃ l', s.controller.layers[layer]? = some l' ∧
      l'.machine = owner := by simpa [isRoot] using hroot
  rw [howner p hp, ← hmachine]
  exact h.close_mem hf hl'

/-- A list of transitions is linked. -/
theorem sameTransitions (h : c.ReadBack s j roots) (hs : Settled s j) (hf : c.Forest)
    {owner : MachineId} {home : Home} {ids : List TransitionId}
    (hw : c.Waiting layer owner ids ((j.groups.map Pending.bare).filter (·.home = home)))
    (hd : ∀ id ∈ ids, c.LeadsBelow layer (c.transition id).destination) :
    SameTransitions c s.controller layer (s.controller.isRoot layer owner = true) ids
      (s.controller.transitionIds home) := by
  obtain ⟨scope, any, rfl, rfl, ⟨hq, -⟩⟩ := hw
  rw [filter_bare, List.forall₂_map_left_iff, List.forall₂_map_right_iff] at hq
  refine ⟨(j.groupsOf home).filterMap fun p => (p.resolve? j.nodes).map p.linked,
    (hs.linked.lists home).symm, fun hroot => ?_, ?_⟩
  · refine (h.transitionsOf_outermost hs hf (fun p hp => ?_) hroot).symm
    obtain ⟨id, -, hp⟩ := exists_forall₂_right hq hp
    exact hp.owner
  · rw [List.forall₂_map_left_iff]
    refine forall₂_filterMap hq fun id hid p hp => ?_
    obtain ⟨d, hd, hsame⟩ := h.exists_linked hs hf hp (hd id hid)
    exact ⟨_, by rw [hd]; rfl, hsame⟩

/-! ## Nodes -/

theorem sameMachine (h : c.ReadBack s j roots) (hs : Settled s j) (hw : c.TreeWritable registry)
    {m m' : MachineId} (hm : ReadMachine c layer s.outline (j.groups.map Pending.bare) m m') :
    SameMachine c s.controller layer m m' := by
  have hmachine : s.outline.controller.machine m' = (s.controller.machine m').unlinked :=
    s.controller.machine_unlinked m'
  obtain ⟨path, hp, -⟩ := hm.found
  have hlisted := (hw.machine layer m hp.inLayer).transitions
  have hname := hm.name
  have hdefault := hm.defaultState
  have hrecords := hm.records
  rw [hmachine] at hname hdefault hrecords
  refine ⟨hname, ?_, hrecords, ?_, ?_⟩
  · refine Option.Rel.rec (motive := fun s s' _ => Option.Rel _ s s') ?_ ?_ hdefault
    · exact fun hfound => .some (h.counterpart hw.toForest hfound)
    · exact .none
  · exact h.sameTransitions hs hw.toForest hm.entry fun id hid =>
      (hlisted id (List.mem_append_left _ hid)).destination
  · exact h.sameTransitions hs hw.toForest hm.any fun id hid =>
      (hlisted id (List.mem_append_right _ hid)).destination

theorem sameMember (h : c.ReadBack s j roots) (hs : Settled s j) (hw : c.TreeWritable registry)
    {owner : MachineId} {st st' : StateId}
    (hst : ReadState c layer s.outline (j.groups.map Pending.bare) owner st st') :
    SameMember c s.controller layer owner st st' := by
  obtain ⟨path, hp, -⟩ := hst.found
  have hsame := (hst.back s.controller rfl).same (hw.state layer st hp.inLayer).1
  have hstate : s.outline.controller.state st' = (s.controller.state st').unlinked :=
    s.controller.state_unlinked st'
  rw [hstate] at hsame
  exact ⟨⟨hsame.settings, hsame.motion, hsame.records⟩,
    h.sameTransitions hs hw.toForest hst.transitions (hw.state layer st hp.inLayer).2⟩

/-- The machines of a layer are equal. -/
theorem sameMachines (h : c.ReadBack s j roots) (hs : Settled s j) (hw : c.TreeWritable registry)
    {l l' : Layer} (hl : c.layers[layer]? = some l) (hl' : s.controller.layers[layer]? = some l') :
    Matches c s.controller (SameMachine c s.controller layer) (SameMember c s.controller layer)
      l.machine l'.machine :=
  (h.matches_root l l' hl hl').imp (fun _ => rfl) (fun _ => rfl) (fun _ _ => h.sameMachine hs hw)
    fun _ _ _ _ _ _ => h.sameMember hs hw

/-! ## Warnings -/

/-- Every transition that has been read is linked. -/
theorem exists_resolved (h : c.ReadBack s j roots) (hs : Settled s j) (hw : c.TreeWritable registry)
    (hwell : s.controller.WellFormed) {p : Pending} (hp : p ∈ j.groups) :
    ∃ d, p.resolve? j.nodes = some d := by
  have hwaiting {layer : Nat} {owner : MachineId} {ids : List TransitionId}
      (hwait : c.Waiting layer owner ids ((j.groups.map Pending.bare).filter (·.home = p.home)))
      (hd : ∀ id ∈ ids, c.LeadsBelow layer (c.transition id).destination) :
      ∃ d, p.resolve? j.nodes = some d := by
    obtain ⟨scope, any, rfl, rfl, ⟨hq, -⟩⟩ := hwait
    rw [filter_bare, List.forall₂_map_left_iff, List.forall₂_map_right_iff] at hq
    obtain ⟨id, hid, hq⟩ := exists_forall₂_right hq
      (List.mem_filter.2 ⟨hp, decide_eq_true rfl⟩)
    obtain ⟨d, hd, -⟩ := h.exists_linked hs hw.toForest hq (hd id hid)
    exact ⟨d, hd⟩
  -- Its list is that of a node with a counterpart.
  have hhas := h.homes p hp
  generalize p.home = home at hhas hwaiting
  obtain ⟨layer, hin⟩ := hwell.inLayer hhas
  obtain ⟨node, hc⟩ := h.exists_original hin
  have hm := hc.matches h.matches_root
  cases home with
  | entry m' | any m' =>
    cases node with
    | state => exact hm.elim
    | machine m =>
      have hlisted := (hw.machine layer m hc.inLayer).transitions
      first
      | exact hwaiting hm.own.entry fun id hid =>
          (hlisted id (List.mem_append_left _ hid)).destination
      | exact hwaiting hm.own.any fun id hid =>
          (hlisted id (List.mem_append_right _ hid)).destination
  | state st' =>
    cases node with
    | machine => exact hm.elim
    | state st =>
      obtain ⟨m, m', -, -, -, hst⟩ := hm
      exact hwaiting hst.transitions (hw.state layer st hc.inLayer).2

theorem warnings_eq (h : c.ReadBack s j roots) (hs : Settled s j) (hw : c.TreeWritable registry)
    (hwell : s.controller.WellFormed) : s.warnings = [] := by
  have hnone : (j.groups.filter fun p => p.resolve? j.nodes = none) = [] := by
    refine List.filter_eq_nil_iff.2 fun p hp => ?_
    obtain ⟨d, hd⟩ := h.exists_resolved hs hw hwell hp
    simp [hd]
  have hdrops := hs.linked.warned
  rw [hnone, List.map_nil, List.perm_nil, List.map_eq_nil_iff] at hdrops
  -- No warning is about a transition, and no other one is shown.
  refine List.eq_nil_iff_forall_not_mem.2 fun d hd => ?_
  cases hdrop : d.isDrop with
  | true => exact List.filter_eq_nil_iff.1 hdrops d hd hdrop
  | false => exact List.filter_eq_nil_iff.1 h.warnings d hd (by simp [hdrop])

end ReadBack

/-! ## Controllers -/

/-- A layer is read back as an equal one. -/
theorem LayerWritable.beq_readBack {l : Layer} (h : c.LayerWritable l) (id : MachineId) :
    ({ (l.readBack id).following l.synced with machine := l.machine } == l) = true := by
  have hweight : ((l.readBack id).weight == l.weight) = true := by
    have hself := Binary.beq_self h.weight
    rw [Layer.readBack]
    dsimp only
    split
    · exact hself
    · rename_i hone
      exact BEq.symm (by simpa [bne] using hone)
  show instBEqLayer.beq _ _ = true
  obtain ⟨name, machine, weight, blending, mask, synced, syncTiming, ikPass⟩ := l
  have hmachine : (machine == machine) = true := beq_self_eq_true machine.index
  simpa [instBEqLayer.beq, Layer.readBack, Layer.following, hmachine] using hweight

theorem ReadBack.sameTree (h : c.ReadBack s j roots) (hs : Settled s j)
    (hw : c.Writable registry) : c.SameTree s.controller where
  name := h.name
  parameters := h.parameters
  layers := by
    have hlength := h.trees.length_eq
    rw [List.length_zipIdx] at hlength
    rw [h.layers]
    refine List.forall₂_iff_get.2 ⟨by simp [hlength], fun i hi _ => ?_⟩
    simp only [List.get_eq_getElem, List.getElem_zipWith]
    exact (hw.layers _ (Array.mem_def.2 (List.getElem_mem hi))).beq_readBack _
  machines i l l' hl hl' := h.sameMachines hs hw.toTreeWritable hl hl'

/-- The canonical text of a controller that can be written is read without a failure or a warning, and
the controller that is read is equal to it as a tree, positions aside. -/
theorem Writable.read_canonicalText {host : MemoryHost} (h : c.Writable host.registry)
    (hroot : host.assetRoot = none) :
    ∃ doc host', Document.read c.canonicalText c.name host = (.ok doc, host') ∧
      doc.warnings = [] ∧ c.SameTree doc.controller := by
  obtain ⟨s, hread, hreached, roots, hback⟩ := h.exists_readBack hroot
  have hs : Settled s (Document.journal c.canonicalText c.name host) := .of_moment hreached.moment
  exact ⟨_, _, hread,
    hback.warnings_eq hs h.toTreeWritable hreached.owned.growing.wellFormed,
    hback.sameTree hs h⟩

/-- A layer with a nested machine: transitions into it and out of it, and a clip. -/
def nestedClip : Controller :=
  { name := "Hero"
    parameters := [⟨"b", .bool true⟩]
    layers := #[{ name := "L", machine := ⟨0⟩ }]
    machines := #[
      { name := "L", states := [{ node := ⟨0⟩ }], machines := [{ node := ⟨1⟩ }],
        defaultState := some ⟨0⟩ },
      { name := "M", states := [{ node := ⟨1⟩ }], anyTransitions := [⟨2⟩] }]
    states := #[{ name := "A", transitions := [⟨0⟩] },
      { name := "B c", motion := some ⟨0⟩, transitions := [⟨1⟩] }]
    transitions := #[
      { Transition.new (.state ⟨1⟩) with conditions := [⟨"b", .holds, .zero⟩] },
      Transition.new (.state ⟨0⟩), { Transition.new .exit with exitTime := some .one }]
    motions := #[.clip ⟨"walk.anim", .animationClip⟩] }

theorem writable_nestedClip : nestedClip.Writable ({} : MemoryHost).registry := by
  have hlayer {layer : Nat} {node : NodeRef} (h : nestedClip.InLayer layer node) : layer = 0 := by
    induction h with
    | root h => exact Nat.lt_one_iff.1 (Array.getElem?_eq_some_iff.1 h).1
    | machine _ _ ih | state _ _ ih => exact ih
  have hroot : nestedClip.InLayer 0 (.machine ⟨0⟩) := .root (l := { name := "L", machine := ⟨0⟩ }) rfl
  have hinner : nestedClip.InLayer 0 (.machine ⟨1⟩) := hroot.machine List.mem_cons_self
  have hleads (id : StateId) (h : nestedClip.InLayer 0 (.state id)) :
      nestedClip.LeadsBelow 0 (.state id) := .inr ⟨.state id, rfl, h, nofun⟩
  have h0 := hleads ⟨0⟩ (hroot.state List.mem_cons_self)
  have h1 := hleads ⟨1⟩ (hinner.state List.mem_cons_self)
  have hwritable (id : TransitionId) : TransitionRule.Writable (nestedClip.transition id) := by
    obtain ⟨i⟩ := id
    match i with
    | 0 | 1 | 2 => exact ⟨by decide, by decide, by decide, by decide, by decide, by decide⟩
    | i + 3 =>
      show TransitionRule.Writable (.new .exit)
      exact ⟨by decide, by decide, by decide, by decide, by decide, by decide⟩
  have hfinite (id : StateId) : (nestedClip.state id).Finite := by
    obtain ⟨i⟩ := id
    match i with
    | 0 | 1 | i + 2 => exact ⟨by rintro _ ⟨⟩; rfl, by rintro _ ⟨⟩; rfl⟩
  have hclip : nestedClip.MotionWritable 1 (some ⟨0⟩) := .clip _ rfl (.inr (by decide))
  refine
    { machines := by decide
      states := by decide
      machines_lt := by decide
      machine := fun layer id h => ?_
      state := fun layer id h => ?_
      parameters := ?_
      parameterNames := by decide
      layers := ?_
      layerNames := by decide }
  · obtain rfl := hlayer h
    obtain ⟨i⟩ := id
    match i with
    | 0 => exact ⟨by decide, by rintro _ ⟨⟩; exact List.mem_cons_self, nofun, nofun⟩
    | 1 =>
      refine ⟨by decide, nofun, ?_, nofun⟩
      rintro id hid
      obtain rfl : id = ⟨2⟩ := List.mem_singleton.1 hid
      exact ⟨hwritable _, .inl rfl⟩
    | i + 2 => exact ⟨List.nodup_nil, nofun, nofun, nofun⟩
  · obtain rfl := hlayer h
    obtain ⟨i⟩ := id
    match i with
    | 0 =>
      refine ⟨⟨hfinite _, .empty _, nofun, fun id _ => hwritable id⟩, ?_⟩
      rintro id hid
      obtain rfl : id = ⟨0⟩ := List.mem_singleton.1 hid
      exact h1
    | 1 =>
      refine ⟨⟨hfinite _, hclip, nofun, fun id _ => hwritable id⟩, ?_⟩
      rintro id hid
      obtain rfl : id = ⟨1⟩ := List.mem_singleton.1 hid
      exact h0
    | i + 2 => exact ⟨⟨hfinite _, .empty _, nofun, nofun⟩, nofun⟩
  · intro p hp
    obtain rfl := List.mem_singleton.1 hp
    exact ⟨by decide, trivial⟩
  · intro l hl
    obtain rfl := List.mem_singleton.1 (Array.mem_def.1 hl)
    exact ⟨rfl, by decide, nofun, nofun⟩

theorem read_canonicalText_nestedClip :
    ∃ doc host', Document.read nestedClip.canonicalText "Hero" ({} : MemoryHost) =
        (.ok doc, host') ∧ doc.warnings = [] ∧ nestedClip.SameTree doc.controller :=
  writable_nestedClip.read_canonicalText rfl

end Controller

end MotionScript
