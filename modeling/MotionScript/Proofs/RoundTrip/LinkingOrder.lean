import MotionScript.Proofs.RoundTrip.Documents
import MotionScript.Proofs.RoundTrip.Texts
/-!
# Canonical text in linking order

Canonical text declares the states of a machine before the machines nested in it, so its transitions
are linked at other moments than those of the text that a controller was read from. The lists that are
in the order of these moments keep it, and the text of a controller with no other lists is read back
to a controller with the same text.
-/

namespace MotionScript

/-! ## Sorted lists -/

theorem filter_lt_succ {α : Type} {f : α → Nat} {xs : List α} (h : xs.Pairwise (f · ≤ f ·)) (n : Nat) :
    xs.filter (f · < n + 1) = xs.filter (f · < n) ++ xs.filter (f · = n) := by
  induction xs with
  | nil => rfl
  | cons x xs ih =>
    obtain ⟨hx, hxs⟩ := List.pairwise_cons.1 h
    simp only [List.filter_cons, decide_eq_true_eq]
    rcases Nat.lt_trichotomy (f x) n with hlt | heq | hgt
    · rw [if_pos (Nat.lt_succ_of_lt hlt), if_pos hlt, if_neg (Nat.ne_of_lt hlt), ih hxs]
      rfl
    · have hnone : xs.filter (f · < n) = [] :=
        List.filter_eq_nil_iff.2 fun y hy => by simpa [heq] using hx y hy
      rw [if_pos (heq ▸ Nat.lt_succ_self _), if_neg (heq ▸ Nat.lt_irrefl _), if_pos heq, ih hxs, hnone]
      rfl
    · rw [if_neg (Nat.not_lt.2 hgt), if_neg (Nat.lt_asymm hgt), if_neg (Nat.ne_of_gt hgt), ih hxs]

/-- A sorted list is made of what has one value after another. -/
theorem flatMap_range_filter {α : Type} {f : α → Nat} {xs : List α} (h : xs.Pairwise (f · ≤ f ·))
    (n : Nat) : ((List.range n).flatMap fun k => xs.filter (f · = k)) = xs.filter (f · < n) := by
  induction n with
  | zero => simp
  | succ n ih => rw [List.range_succ, List.flatMap_append, ih, List.flatMap_singleton, filter_lt_succ h]

theorem forall₂_takeWhile {α β : Type} {R : α → β → Prop} {P : α → Bool} {P' : β → Bool}
    {xs : List α} {ys : List β} (h : List.Forall₂ R xs ys) (hP : ∀ x y, R x y → P x = P' y) :
    List.Forall₂ R (xs.takeWhile P) (ys.takeWhile P') := by
  induction h with
  | nil => exact .nil
  | cons hxy _ ih =>
    rw [List.takeWhile_cons, List.takeWhile_cons, hP _ _ hxy]
    split
    · exact .cons hxy ih
    · exact .nil

/-! ## Ranks -/

namespace Journal

theorem walk_takeWhile {P : Entry → Bool} (hP : ∀ groups, P (.queue groups) = true) (j : Journal) :
    Journal.walk (j.takeWhile P) = j.walk.takeWhile P := by
  induction j with
  | nil => rfl
  | cons e j ih =>
    have hwalk (h : ∀ groups, e ≠ .queue groups) (j : Journal) :
        Journal.walk (e :: j) = e :: Journal.walk j := by
      cases e with
      | queue groups => exact absurd rfl (h groups)
      | declare | close => rfl
    by_cases he : ∃ groups, e = .queue groups
    · obtain ⟨groups, rfl⟩ := he
      rw [List.takeWhile_cons_of_pos (hP groups)]
      exact ih
    · have he := not_exists.1 he
      rw [hwalk he, List.takeWhile_cons, List.takeWhile_cons]
      split
      · rw [hwalk he, ih]
      · rfl

theorem foldl_climb_walk (x : Option MachineId × Nat) (j : Journal) :
    j.walk.foldl Entry.climb x = j.foldl Entry.climb x := by
  induction j generalizing x with
  | nil => rfl
  | cons e j ih => cases e <;> exact ih _

/-- Ranks do not depend on what else is queued. -/
theorem rank_walk (j : Journal) (p : Pending) : j.walk.rank p = j.rank p := by
  unfold rank before
  split
  · rfl
  · rw [← walk_takeWhile fun _ => rfl]
    exact congrArg Prod.snd (foldl_climb_walk _ _)

/-- Transitions that are written in the order of their ranks are linked in written order. -/
theorem byRank_of_sorted {j : Journal} {home : Home}
    (h : (j.groupsOf home).Pairwise fun p q => j.rank p ≤ j.rank q) :
    j.byRank home = j.groupsOf home := by
  rw [byRank, flatMap_range_filter h]
  refine List.filter_eq_self.2 fun p _ => decide_eq_true (Nat.lt_succ_of_le ?_)
  have hbefore : (j.before p).length ≤ j.length := by
    unfold before
    split
    · exact Nat.zero_le _
    · exact (List.takeWhile_prefix _).length_le
  have hle := climb_le (some p.owner, 0) (j.before p)
  exact Nat.le_trans hle (by rwa [Nat.zero_add])

end Journal

/-- Whether an entry of a journal declares what a destination leads to. -/
def Entry.declares (d : Destination) : Entry → Bool
  | .declare (_, _, node) => node.destination = d
  | _ => false

namespace Controller

/-- How many machines around the block of `owner` end in canonical text before a destination is
declared. -/
def linkRank (c : Controller) (owner : MachineId) (d : Destination) : Nat :=
  if d = .exit then 0
  else (Journal.climb owner (c.walk.takeWhile fun e => !e.declares d)).2

/-- Whether a list in the block of a machine is in the order in which canonical text links it. -/
def ListedInOrder (c : Controller) (owner : MachineId) (ids : List TransitionId) : Prop :=
  ids.Pairwise fun t t' =>
    c.linkRank owner (c.transition t).destination ≤ c.linkRank owner (c.transition t').destination

/-- Whether the lists in nested machines are in the order in which canonical text links them. -/
structure InLinkingOrder (c : Controller) : Prop where
  machine : ∀ layer m, c.InLayer layer (.machine m) → c.isRoot layer m = false →
    c.ListedInOrder m (c.machine m).entryTransitions ∧ c.ListedInOrder m (c.machine m).anyTransitions
  state : ∀ layer m, c.InLayer layer (.machine m) → c.isRoot layer m = false →
    ∀ s ∈ (c.machine m).members, c.ListedInOrder m (c.state s).transitions

/-- What lies in two layers of a forest, lies in one. -/
theorem Forest.layer_unique {c : Controller} (hf : c.Forest) {layer layer' : Nat} {n : NodeRef}
    (h : c.InLayer layer n) (h' : c.InLayer layer' n) : layer = layer' := by
  obtain ⟨_, hp⟩ := h.exists_path
  obtain ⟨_, hp'⟩ := h'.exists_path
  exact (hf.path_unique hp hp').1

/-- Nodes of forests are told apart like their counterparts. -/
theorem Counterpart.eq_iff {c c' : Controller} (hf : c.Forest) (hf' : c'.Forest)
    {layer layer' : Nat} {n n' k k' : NodeRef} (h : Counterpart c c' layer n n')
    (h' : Counterpart c c' layer' k k') : n = k ↔ n' = k' := by
  constructor
  · rintro rfl
    obtain rfl := hf.layer_unique h.inLayer h'.inLayer
    exact h.unique hf h'
  · rintro rfl
    obtain rfl := hf'.layer_unique h.symm.inLayer h'.symm.inLayer
    exact h.symm.unique hf' h'.symm

namespace ReadBack

variable {c : Controller} {s : Session MemoryHost} {j : Journal} {roots : List MachineId}
  {registry : Registry} {layer : Nat}

/-- As many machines end in what has been read as in the text. -/
theorem foldl_climb_eq (h : c.ReadBack s j roots) (hf : c.Forest) (hf' : s.controller.Forest)
    {es es' : Journal} (hes : List.Forall₂ (ReadEntry c s.outline) es es')
    {a a' : Option MachineId} (hx : Option.Rel (fun m m' => ∃ layer,
      Counterpart c s.controller layer (.machine m) (.machine m')) a a') (n : Nat) :
    (es.foldl Entry.climb (a, n)).2 = (es'.foldl Entry.climb (a', n)).2 := by
  induction hes generalizing a a' n with
  | nil => rfl
  | @cons e e' es es' he _ ih =>
    rw [List.foldl_cons, List.foldl_cons]
    cases he with
    | declare => exact ih hx n
    | @close layer m m' parent parent' hm hparent =>
      have hiff : a = some m ↔ a' = some m' := by
        cases hx with
        | none => simp
        | some hc =>
          obtain ⟨_, hc⟩ := hc
          have heq := hc.eq_iff hf hf' (h.counterpart hf hm)
          simpa using heq
      simp only [Entry.climb, hiff]
      split
      · refine ih ?_ (n + 1)
        cases hparent with
        | none => exact .none
        | some ho => exact .some ⟨_, h.counterpart hf ho⟩
      · exact ih hx n

/-- Transitions have the rank in what has been read that they have in the text. -/
theorem rank_eq (h : c.ReadBack s j roots) (hf : c.Forest) (hf' : s.controller.Forest)
    {scope : Scope} {any : Bool} {t : Transition} {p : Pending} {m : MachineId}
    (hm : Counterpart c s.controller scope.layer (.machine m) (.machine scope.machine))
    (hq : TransitionRule.Queues c.nodePaths scope any t p.bare)
    (hd : c.LeadsBelow scope.layer t.destination) :
    j.rank p = c.linkRank m t.destination := by
  have howner : p.owner = scope.machine := hq.owner
  have hlayer : p.layer = scope.layer := hq.layer
  rcases hq.leads hf hd with ⟨hexit, htarget⟩ | ⟨node, path, hnode, hp, htarget⟩
  · have htarget : p.target = .exit := htarget
    rw [linkRank, if_pos hexit, Journal.rank, Journal.before, if_pos htarget]
    rfl
  have htarget : p.target = .node path := htarget
  obtain ⟨node', hc, hlookup⟩ := h.exists_counterpart hf hp
  rw [← Journal.rank_walk, linkRank, if_neg (by rw [hnode]; cases node <;> rintro ⟨⟩),
    Journal.rank, Journal.before, if_neg (by rw [htarget]; rintro ⟨⟩), howner]
  have hstart : Option.Rel (fun m m' => ∃ layer,
      Counterpart c s.controller layer (.machine m) (.machine m')) (some m) (some scope.machine) :=
    .some ⟨_, hm⟩
  refine (h.foldl_climb_eq hf hf' (forall₂_takeWhile h.walk fun e e' he => ?_) hstart 0).symm
  -- The same entry declares the destination.
  cases he with
  | close => rfl
  | @declare layer path' k k' hk hlookup' =>
    have hiff : k = node ↔ layer = scope.layer ∧ path' = path := by
      constructor
      · rintro rfl
        exact hf.path_unique hk hp
      · rintro ⟨rfl, rfl⟩
        have hk' := h.counterpart hf ⟨_, hk, hlookup'⟩
        obtain rfl := Option.some.inj (hlookup'.symm.trans hlookup)
        exact (hk'.eq_iff hf hf' hc).2 rfl
    simp [Entry.declares, Pending.declaredBy, hnode, hlayer, htarget,
      NodeRef.destination_injective.eq_iff, hiff, eq_comm]

/-- A list in linking order is linked in written order. -/
theorem transitionsOf_listed (h : c.ReadBack s j roots) (hs : Settled s j) (hf : c.Forest)
    (hf' : s.controller.Forest) {scope : Scope} {any : Bool} {m : MachineId} {home : Home}
    {ids : List TransitionId}
    (hm : Counterpart c s.controller scope.layer (.machine m) (.machine scope.machine))
    (hq : List.Forall₂ (fun id p => TransitionRule.Queues c.nodePaths scope any (c.transition id)
      p.bare) ids (j.groupsOf home))
    (hd : ∀ id ∈ ids, c.LeadsBelow scope.layer (c.transition id).destination)
    (ho : c.ListedInOrder m ids) :
    s.controller.transitionsOf home =
      (j.groupsOf home).filterMap fun p => (p.resolve? j.nodes).map p.linked := by
  have hrank (i : Nat) (hi : i < (j.groupsOf home).length) (hi' : i < ids.length) :
      j.rank (j.groupsOf home)[i] = c.linkRank m (c.transition ids[i]).destination :=
    h.rank_eq hf hf' hm (hq.get hi' hi) (hd _ (List.getElem_mem hi'))
  have hsorted : (j.groupsOf home).Pairwise fun p q => j.rank p ≤ j.rank q := by
    refine List.pairwise_iff_getElem.2 fun i k hi hk hik => ?_
    have hi' : i < ids.length := hq.length_eq ▸ hi
    have hk' : k < ids.length := hq.length_eq ▸ hk
    rw [hrank i hi hi', hrank k hk hk']
    exact List.pairwise_iff_getElem.1 ho i k hi' hk' hik
  rw [← Journal.byRank_of_sorted hsorted]
  exact hs.ordered.lists home

/-- A list of the machine of a layer, or one in linking order, is read back exactly. -/
theorem reread (h : c.ReadBack s j roots) (hs : Settled s j) (hf : c.Forest)
    (hf' : s.controller.Forest) {owner m : MachineId} {home : Home} {ids : List TransitionId}
    (hm : Counterpart c s.controller layer (.machine m) (.machine owner))
    (hw : c.Waiting layer owner ids ((j.groups.map Pending.bare).filter (·.home = home)))
    (hd : ∀ id ∈ ids, c.LeadsBelow layer (c.transition id).destination)
    (ho : s.controller.isRoot layer owner = true ∨ c.ListedInOrder m ids) :
    Reread c s.controller layer (ids.map c.transition) (s.controller.transitionsOf home) := by
  obtain ⟨scope, any, rfl, rfl, ⟨hq, hback⟩⟩ := hw
  rw [filter_bare] at hq hback
  rw [List.forall₂_map_left_iff, List.forall₂_map_right_iff] at hq
  have hlisted : s.controller.transitionsOf home =
      (j.groupsOf home).filterMap fun p => (p.resolve? j.nodes).map p.linked := by
    rcases ho with hroot | ho
    · refine h.transitionsOf_outermost hs hf (fun p hp => ?_) hroot
      obtain ⟨id, -, hp⟩ := exists_forall₂_right hq hp
      exact hp.owner
    · exact h.transitionsOf_listed hs hf hf' hm hq hd ho
  rw [hlisted]
  constructor
  · have hunled : ((j.groupsOf home).filterMap fun p =>
        ((p.resolve? j.nodes).map p.linked).map Transition.unled) =
        (j.groupsOf home).filterMap fun p => some p.transition.unled := by
      refine List.filterMap_congr fun p hp => ?_
      obtain ⟨id, hid, hp⟩ := exists_forall₂_right hq hp
      obtain ⟨d, hd, -⟩ := h.exists_linked hs hf hp (hd id hid)
      rw [hd]
      rfl
    have hbacks := congrArg (List.map Transition.unled) hback
    rw [List.map_flatMap, List.map_map, List.map_map] at hbacks
    rw [List.map_filterMap, hunled, List.filterMap_eq_map']
    refine hbacks.trans (List.flatMap_congr fun g _ => ?_)
    exact TransitionRule.unled_groupBack g
  · rw [List.forall₂_map_left_iff]
    refine forall₂_filterMap hq fun id hid p hp => ?_
    obtain ⟨d, hd, hsame⟩ := h.exists_linked hs hf hp (hd id hid)
    exact ⟨_, by rw [hd]; rfl, hsame⟩

/-- A controller with all lists in linking order is read back exactly. -/
theorem rereadAs (h : c.ReadBack s j roots) (hs : Settled s j) (hw : c.TreeWritable registry)
    (hf' : s.controller.Forest) (ho : c.InLinkingOrder) : c.RereadAs s.controller where
  parameters := h.parameters
  layers := by
    refine List.forall₂_iff_get.2 ⟨?_, fun i hi hi' => ?_⟩
    · have hlength := h.trees.length_eq
      rw [List.length_zipIdx] at hlength
      rw [h.layers, List.length_zipWith, hlength, Nat.min_self]
    · rw [List.get_eq_getElem, Array.length_toList] at *
      have hl' := Array.getElem?_eq_getElem hi'
      obtain ⟨l, hl, -, heq⟩ := h.layer_eq hl'
      rw [Array.getElem?_eq_getElem hi] at hl
      obtain rfl := Option.some.inj hl
      simpa using heq
  trees layer l l' hl hl' := by
    have hlist {m m' : MachineId} (hm : Counterpart c s.controller layer (.machine m) (.machine m'))
        {ids : List TransitionId} (ho : c.isRoot layer m = false → c.ListedInOrder m ids) :
        s.controller.isRoot layer m' = true ∨ c.ListedInOrder m ids := by
      cases hroot : c.isRoot layer m with
      | false => exact .inr (ho hroot)
      | true =>
        obtain ⟨k, hk, rfl⟩ := Option.map_eq_some_iff.1 (of_decide_eq_true hroot)
        obtain rfl := Option.some.inj (hl.symm.trans hk)
        obtain rfl := NodeRef.machine.inj (hm.unique hw.toForest (.root hl hl'))
        exact .inl (decide_eq_true (by rw [hl']; rfl))
    refine (h.matches_root l l' hl hl').imp (fun _ => rfl) (fun _ => rfl) (fun m m' hm => ?_)
      fun m m' st st' hm hmem hst => ?_
    · have hc := h.counterpart hw.toForest hm.found
      have hsame := h.sameMachine hs hw hm
      have hlisted := (hw.machine layer m hc.inLayer).transitions
      refine ⟨hsame.name, hsame.defaultState, hsame.records, ?_, ?_⟩
      · exact h.reread hs hw.toForest hf' hc hm.entry
          (fun id hid => (hlisted id (List.mem_append_left _ hid)).destination)
          (hlist hc fun hroot => (ho.machine layer m hc.inLayer hroot).1)
      · exact h.reread hs hw.toForest hf' hc hm.any
          (fun id hid => (hlisted id (List.mem_append_right _ hid)).destination)
          (hlist hc fun hroot => (ho.machine layer m hc.inLayer hroot).2)
    · have hc := h.counterpart hw.toForest hm.found
      have hin := hc.inLayer.state hmem
      have hstate : s.outline.controller.state st' = (s.controller.state st').unlinked :=
        s.controller.state_unlinked st'
      have hback := hst.back s.controller rfl
      rw [hstate] at hback
      exact ⟨⟨hback.settings, hback.motion, hback.records⟩,
        h.reread hs hw.toForest hf' hc hst.transitions (hw.state layer st hin).2
          (hlist hc fun hroot => ho.state layer m hc.inLayer hroot st hmem)⟩

end ReadBack

/-! ## Canonical text that is read again -/

/-- Whether the lists of nodes in the same place hold the same transitions in the same order. -/
structure SameOrder (c c' : Controller) : Prop where
  machine : ∀ layer m m', Counterpart c c' layer (.machine m) (.machine m') →
    List.Forall₂ (SameTransition c c' layer) ((c.machine m).entryTransitions.map c.transition)
      ((c'.machine m').entryTransitions.map c'.transition) ∧
    List.Forall₂ (SameTransition c c' layer) ((c.machine m).anyTransitions.map c.transition)
      ((c'.machine m').anyTransitions.map c'.transition)
  state : ∀ layer st st', Counterpart c c' layer (.state st) (.state st') →
    List.Forall₂ (SameTransition c c' layer) ((c.state st).transitions.map c.transition)
      ((c'.state st').transitions.map c'.transition)

theorem RereadAs.sameOrder {c c' : Controller} (h : c.RereadAs c') : c.SameOrder c' where
  machine _ _ _ hm := ⟨(h.machine hm).own.entry.same, (h.machine hm).own.any.same⟩
  state _ _ _ hs := (h.state hs).transitions.same

/-- The canonical text of a well-formed controller that can be written is read back to a controller
that is equal to it as a tree; and with all lists in linking order, they keep their order, and the
controller that is read back has the text that it was read from. -/
theorem Writable.reread_canonicalText {c : Controller} {host : MemoryHost}
    (h : c.Writable host.registry) (hwell : c.WellFormed) (hroot : host.assetRoot = none) :
    ∃ doc host', Document.read c.canonicalText c.name host = (.ok doc, host') ∧
      doc.warnings = [] ∧ c.SameTree doc.controller ∧
      (c.InLinkingOrder → c.SameOrder doc.controller ∧
        doc.controller.canonicalText = c.canonicalText) := by
  obtain ⟨s, hread, hreached, roots, hback⟩ := h.exists_readBack hroot
  have hs : Settled s (Document.journal c.canonicalText c.name host) := .of_moment hreached.moment
  have hwell' := hreached.owned.growing.wellFormed
  refine ⟨_, _, hread, hback.warnings_eq hs h.toTreeWritable hwell', hback.sameTree hs h,
    fun ho => ?_⟩
  have hreread := hback.rereadAs hs h.toTreeWritable hwell'.forest ho
  exact ⟨hreread.sameOrder, hreread.canonicalText_eq hwell hwell'⟩

end Controller

end MotionScript
