import Mathlib.Data.List.TakeWhile
import MotionScript.Proofs.Linking.Statements
/-!
# The order of linking

A transition is linked when the first machine around it ends after its destination is declared. So a
list holds its transitions by how many machines have to end first, and in written order among those
for which as many have to. In the machine of a layer and in its direct states this is the written
order.
-/

namespace MotionScript

/-! ## Ranks -/

/-- One entry on the way out of a machine: the machine that is waited for, and how many have
ended. -/
def Entry.climb (x : Option MachineId × Nat) : Entry → Option MachineId × Nat
  | .close machine parent => if x.1 = some machine then (parent, x.2 + 1) else x
  | _ => x

/-- Whether an entry declares what a transition leads to. -/
def Pending.declaredBy (p : Pending) : Entry → Bool
  | .declare (layer, path, _) => layer = p.layer ∧ p.target = .node path
  | _ => false

namespace Journal

/-- The machine that transitions of `machine` wait for, and how many machines around them have
ended. -/
def climb (machine : MachineId) (j : Journal) : Option MachineId × Nat :=
  j.foldl Entry.climb (some machine, 0)

/-- What is written before the destination of a transition is declared. -/
def before (j : Journal) (p : Pending) : Journal :=
  if p.target = .exit then [] else j.takeWhile fun e => !p.declaredBy e

/-- How many machines around a transition end before its destination is declared. -/
def rank (j : Journal) (p : Pending) : Nat := ((j.before p).climb p.owner).2

/-- The rank of a transition and where it leads. -/
def reach (j : Journal) (p : Pending) : Option (Nat × Destination) :=
  (p.resolve? j.nodes).map (j.rank p, ·)

theorem climb_append (machine : MachineId) (j j' : Journal) :
    (j ++ j').climb machine = j'.foldl Entry.climb (j.climb machine) := List.foldl_append

/-- Machines around a machine do not begin to wait again. -/
theorem le_climb (x : Option MachineId × Nat) (j : Journal) :
    x.2 ≤ (j.foldl Entry.climb x).2 := by
  induction j generalizing x with
  | nil => exact Nat.le_refl _
  | cons e j ih =>
    refine Nat.le_trans ?_ (ih (e.climb x))
    cases e with
    | declare | queue => exact Nat.le_refl _
    | close machine parent =>
      simp only [Entry.climb]
      split
      · exact Nat.le_succ _
      · exact Nat.le_refl _

theorem climb_le (x : Option MachineId × Nat) (j : Journal) :
    (j.foldl Entry.climb x).2 ≤ x.2 + j.length := by
  induction j generalizing x with
  | nil => exact Nat.le_refl _
  | cons e j ih =>
    refine Nat.le_trans (ih (e.climb x)) ?_
    have he : (e.climb x).2 ≤ x.2 + 1 := by
      cases e with
      | declare | queue => exact Nat.le_succ _
      | close machine parent =>
        simp only [Entry.climb]
        split
        · exact Nat.le_refl _
        · exact Nat.le_succ _
    rw [List.length_cons]
    omega

/-- A machine that has not ended is still waited for. -/
theorem climb_open {machine : MachineId} {j : Journal}
    (h : ∀ parent, .close machine parent ∉ j) : j.climb machine = (some machine, 0) := by
  unfold climb
  induction j with
  | nil => rfl
  | cons e j ih =>
    have he : e.climb (some machine, 0) = (some machine, 0) := by
      cases e with
      | declare | queue => rfl
      | close other parent =>
        refine if_neg fun heq => ?_
        obtain rfl : machine = other := Option.some.inj heq
        exact h parent List.mem_cons_self
    rw [List.foldl_cons, he]
    exact ih fun parent hm => h parent (List.mem_cons_of_mem e hm)

/-! ## Ranks as a journal grows -/

theorem resolve?_isSome {j : Journal} {p : Pending} (ht : p.target ≠ .exit) :
    (p.resolve? j.nodes).isSome = j.any p.declaredBy := by
  unfold Pending.resolve?
  cases h : p.target with
  | exit => exact absurd h ht
  | missing =>
    have hnone (e : Entry) : p.declaredBy e = false := by cases e <;> simp [Pending.declaredBy, h]
    simp [hnone]
  | node path =>
    rw [Bool.eq_iff_iff]
    simp only [Option.isSome_map, firstNode?, nodes, List.find?_isSome,
      List.any_eq_true, List.mem_filterMap, decide_eq_true_eq]
    constructor
    · rintro ⟨node, ⟨e, he, hn⟩, hl, hp⟩
      refine ⟨e, he, ?_⟩
      cases e with
      | declare n =>
        obtain rfl := Option.some.inj hn
        simp [Pending.declaredBy, hl, hp, h]
      | queue | close => cases hn
    · rintro ⟨e, he, hd⟩
      cases e with
      | declare n =>
        simp only [Pending.declaredBy, h, Target.node.injEq, decide_eq_true_eq] at hd
        exact ⟨n, ⟨_, he, rfl⟩, hd.1, hd.2.symm⟩
      | queue | close => cases hd

/-- Until the destination of a transition is declared, everything is written before it. -/
theorem before_of_unresolved {j : Journal} {p : Pending} (h : p.resolve? j.nodes = none)
    (j' : Journal) : (j ++ j').before p = j ++ Journal.before j' p := by
  have ht : p.target ≠ .exit := by
    intro ht
    rw [Pending.resolve?, ht] at h
    cases h
  have hall : ∀ e ∈ j, (!p.declaredBy e) = true := by
    have hnone := resolve?_isSome (j := j) ht
    rw [h, Option.isSome_none, eq_comm, List.any_eq_false] at hnone
    simpa using hnone
  rw [before, if_neg ht, before, if_neg ht, List.takeWhile_append_of_pos hall]

theorem before_of_resolved {j : Journal} {p : Pending} (h : (p.resolve? j.nodes).isSome = true)
    (j' : Journal) : (j ++ j').before p = j.before p := by
  unfold before
  split
  · rfl
  · rename_i ht
    rw [resolve?_isSome ht, List.any_eq_true] at h
    obtain ⟨e, he, hd⟩ := h
    rw [List.takeWhile_append, if_neg]
    intro hlen
    have hall := List.takeWhile_eq_self_iff.1 ((List.takeWhile_prefix _).eq_of_length hlen) e he
    simp [hd] at hall

theorem reach_append {j : Journal} {p : Pending} {x : Nat × Destination} (h : j.reach p = some x)
    (j' : Journal) : (j ++ j').reach p = some x := by
  obtain ⟨d, hd, rfl⟩ := Option.map_eq_some_iff.1 h
  rw [reach, nodes_append, Pending.resolve?_append hd, rank,
    before_of_resolved (Option.isSome_iff_exists.2 ⟨d, hd⟩)]
  rfl

theorem reach_le {j : Journal} {p : Pending} {x : Nat × Destination} (h : j.reach p = some x) :
    x.1 ≤ (j.climb p.owner).2 := by
  obtain ⟨d, -, rfl⟩ := Option.map_eq_some_iff.1 h
  have hprefix : j.before p <+: j := by
    unfold before
    split
    · exact List.nil_prefix
    · exact List.takeWhile_prefix _
  obtain ⟨rest, hrest⟩ := hprefix
  rw [show j.climb p.owner = _ from congrArg (climb p.owner) hrest.symm, climb_append]
  exact le_climb _ rest

/-- A destination that becomes known has as many ends before it as there have been. -/
theorem reach_new {j : Journal} {p : Pending} {e : Entry} {x : Nat × Destination}
    (h : j.reach p = none) (hx : (j ++ [e]).reach p = some x) : x.1 = (j.climb p.owner).2 := by
  have hnone : p.resolve? j.nodes = none := Option.map_eq_none_iff.1 h
  obtain ⟨d, hd, rfl⟩ := Option.map_eq_some_iff.1 hx
  have ht : p.target ≠ .exit := by
    intro ht
    rw [Pending.resolve?, ht] at hnone
    cases hnone
  have hsome := resolve?_isSome (j := j ++ [e]) ht
  rw [hd, Option.isSome_some, List.any_append, ← resolve?_isSome ht, hnone] at hsome
  have hdecl : p.declaredBy e = true := by simpa using hsome.symm
  rw [rank, before_of_unresolved hnone, before, if_neg ht]
  simp [hdecl]

theorem reach_other {j : Journal} {e : Entry} (h : Journal.nodes [e] = []) (p : Pending) :
    (j ++ [e]).reach p = j.reach p := by
  cases hr : j.reach p with
  | some x => exact reach_append hr [e]
  | none =>
    rw [reach, nodes_append, h, List.append_nil, Option.map_eq_none_iff]
    exact Option.map_eq_none_iff.1 hr

/-- An end of a machine moves those on that wait for it. -/
theorem climb_close (machine o : MachineId) (parent : Option MachineId) (j : Journal) :
    (j ++ [Entry.close o parent]).climb machine =
      if (j.climb machine).1 = some o then (parent, (j.climb machine).2 + 1)
      else j.climb machine :=
  climb_append machine j _

theorem climb_other {e : Entry} (h : ∀ o parent, e ≠ .close o parent) (machine : MachineId)
    (j : Journal) : (j ++ [e]).climb machine = j.climb machine := by
  rw [climb_append]
  cases e with
  | declare | queue => rfl
  | close o parent => exact absurd rfl (h o parent)

/-- In a layer that is over no destination becomes known. -/
theorem reach_over {j : Journal} {a b : Spot} {node : Declared} {p : Pending}
    {x : Nat × Destination} (ho : a.Over p.layer) (hn : a.Next b [.declare node])
    (h : (j ++ [Entry.declare node]).reach p = some x) : j.reach p = some x := by
  cases hr : j.reach p with
  | some y => rw [← reach_append hr [.declare node], h]
  | none =>
    have hnone := Pending.resolve?_append_none (Option.map_eq_none_iff.1 hr)
      (.inr (ho.declare hn))
    rw [reach, nodes_append, show Journal.nodes [.declare node] = [node] from rfl, hnone] at h
    cases h

/-! ## Machines in machines -/

/-- What is known of the machines and homes of a journal. -/
structure Nested (j : Journal) (a : Spot) : Prop where
  nodup : a.machines.Nodup
  opened : ∀ o ∈ a.machines, o.index < a.machineCount ∧ ∀ parent, Entry.close o parent ∉ j
  closed : ∀ o parent, Entry.close o parent ∈ j → o.index < a.machineCount
  state : ∀ id, a.state = some id → id.index < a.stateCount
  homes : ∀ p ∈ j.groups, match p.home with
    | .entry m | .any m => p.owner = m
    | .state id => id.index < a.stateCount ∧ (a.state = some id → a.machines.head? = some p.owner)
  /-- A list is written in one machine. -/
  owners : ∀ p ∈ j.groups, ∀ q ∈ j.groups, p.home = q.home → p.owner = q.owner
  waits : ∀ p ∈ j.groups, match (j.climb p.owner).1 with
    | some o => o ∈ a.machines ∧ p.layer + 1 = a.layerCount
    | none => a.Over p.layer ∧ ∀ x, j.reach p = some x → x.1 < (j.climb p.owner).2

namespace Nested

/-- A declaration of a node. -/
theorem declare {j : Journal} {a b : Spot} {node : Declared} (h : j.Nested a)
    (hn : a.Next b [.declare node]) (hnodup : b.machines.Nodup)
    (hnew : ∀ o ∈ b.machines, o ∈ a.machines ∨ a.machineCount ≤ o.index ∧ o.index < b.machineCount)
    (hcount : a.machineCount ≤ b.machineCount)
    (hstate : ∀ id, b.state = some id → id.index < b.stateCount)
    (hhomes : ∀ p ∈ j.groups, ∀ id, p.home = .state id → id.index < b.stateCount ∧
      (b.state = some id → b.machines.head? = some p.owner))
    (hwaits : ∀ p : Pending, ∀ o ∈ a.machines, p.layer + 1 = a.layerCount →
      o ∈ b.machines ∧ p.layer + 1 = b.layerCount) :
    (j ++ [Entry.declare node]).Nested b := by
  have hgroups : (j ++ [Entry.declare node]).groups = j.groups := by
    rw [groups_append]; exact List.append_nil _
  have hclose (o : MachineId) (parent : Option MachineId) :
      Entry.close o parent ∈ j ++ [.declare node] ↔ .close o parent ∈ j := by simp
  have hclimb (m : MachineId) : (j ++ [Entry.declare node]).climb m = j.climb m :=
    climb_other (by simp) m j
  refine ⟨hnodup, ?_, ?_, hstate, ?_, ?_, ?_⟩
  · intro o ho
    simp only [hclose]
    rcases hnew o ho with ho | ⟨ho, hlt⟩
    · exact ⟨Nat.lt_of_lt_of_le (h.opened o ho).1 hcount, (h.opened o ho).2⟩
    · exact ⟨hlt, fun parent hm => Nat.not_lt.2 ho (h.closed o parent hm)⟩
  · intro o parent hm
    exact Nat.lt_of_lt_of_le (h.closed o parent ((hclose o parent).1 hm)) hcount
  · intro p hp
    rw [hgroups] at hp
    have hhome := h.homes p hp
    cases hh : p.home with
    | entry m | any m => rw [hh] at hhome; exact hhome
    | state id => exact hhomes p hp id hh
  · rw [hgroups]; exact h.owners
  · intro p hp
    rw [hgroups] at hp
    have hwait := h.waits p hp
    rw [hclimb]
    cases hc : (j.climb p.owner).1 with
    | some o => rw [hc] at hwait; exact hwaits p o hwait.1 hwait.2
    | none =>
      rw [hc] at hwait
      exact ⟨hwait.1.next hn, fun x hx => hwait.2 x (reach_over hwait.1 hn hx)⟩

theorem queue {j : Journal} {o : MachineId} {os : List MachineId} {state : Option StateId}
    {l m s : Nat} {groups : List Pending} (h : j.Nested ⟨o :: os, state, l + 1, m, s⟩)
    (hw : ∀ p ∈ groups, p.WrittenIn o state l) :
    (j ++ [Entry.queue groups]).Nested ⟨o :: os, state, l + 1, m, s⟩ := by
  have hgroups : (j ++ [Entry.queue groups]).groups = j.groups ++ groups := by
    rw [groups_append]
    simp [Journal.groups]
  have hclose (q : MachineId) (parent : Option MachineId) :
      Entry.close q parent ∈ j ++ [.queue groups] ↔ .close q parent ∈ j := by simp
  have hclimb (m : MachineId) : (j ++ [Entry.queue groups]).climb m = j.climb m :=
    climb_other (by simp) m j
  have howner {p q : Pending} (hp : p ∈ j.groups) (hq : q ∈ groups) (hh : p.home = q.home) :
      p.owner = o := by
    have hhome := h.homes p hp
    obtain ⟨-, -, hwritten⟩ := hw q hq
    rw [hh] at hhome
    cases state with
    | none => rcases hwritten with hq | hq <;> rw [hq] at hhome <;> exact hhome
    | some id =>
      rw [show q.home = .state id from hwritten] at hhome
      exact (Option.some.inj (hhome.2 rfl)).symm
  refine ⟨h.nodup, ?_, ?_, h.state, ?_, ?_, ?_⟩
  · simp only [hclose]; exact h.opened
  · simp only [hclose]; exact h.closed
  · intro p hp
    rw [hgroups] at hp
    rcases List.mem_append.1 hp with hp | hp
    · exact h.homes p hp
    · obtain ⟨ho, -, hwritten⟩ := hw p hp
      cases state with
      | none => rcases hwritten with hq | hq <;> rw [hq] <;> exact ho
      | some id =>
        rw [show p.home = .state id from hwritten]
        exact ⟨h.state id rfl, fun _ => by rw [ho]; rfl⟩
  · intro p hp q hq hh
    rw [hgroups] at hp hq
    rcases List.mem_append.1 hp with hp | hp <;> rcases List.mem_append.1 hq with hq | hq
    · exact h.owners p hp q hq hh
    · rw [howner hp hq hh, (hw q hq).owner]
    · rw [howner hq hp hh.symm, (hw p hp).owner]
    · rw [(hw p hp).owner, (hw q hq).owner]
  · intro p hp
    rw [hgroups] at hp
    simp only [hclimb, reach_other (e := .queue groups) rfl]
    rcases List.mem_append.1 hp with hp | hp
    · exact h.waits p hp
    · obtain ⟨ho, hl, -⟩ := hw p hp
      rw [ho, climb_open (h.opened o List.mem_cons_self).2]
      exact ⟨List.mem_cons_self, by rw [hl]⟩

theorem close {j : Journal} {o : MachineId} {os : List MachineId} {l m s : Nat}
    (h : j.Nested ⟨o :: os, none, l, m, s⟩) :
    (j ++ [Entry.close o os.head?]).Nested ⟨os, none, l, m, s⟩ := by
  have hgroups : (j ++ [Entry.close o os.head?]).groups = j.groups := by
    rw [groups_append]; exact List.append_nil _
  obtain ⟨hfresh, hnodup⟩ := List.nodup_cons.1 h.nodup
  have hclose (q : MachineId) (parent : Option MachineId) :
      Entry.close q parent ∈ j ++ [.close o os.head?] ↔
        .close q parent ∈ j ∨ q = o ∧ parent = os.head? := by simp
  refine ⟨hnodup, ?_, ?_, fun id h => (by cases h), ?_, ?_, ?_⟩
  · intro q hq
    obtain ⟨hlt, hopen⟩ := h.opened q (List.mem_cons_of_mem o hq)
    refine ⟨hlt, fun parent hm => ?_⟩
    rcases (hclose q parent).1 hm with hm | ⟨rfl, -⟩
    · exact hopen parent hm
    · exact hfresh hq
  · intro q parent hm
    rcases (hclose q parent).1 hm with hm | ⟨rfl, -⟩
    · exact h.closed q parent hm
    · exact (h.opened q List.mem_cons_self).1
  · intro p hp
    rw [hgroups] at hp
    have hhome := h.homes p hp
    cases hh : p.home with
    | entry m | any m => rw [hh] at hhome; exact hhome
    | state id => rw [hh] at hhome; exact ⟨hhome.1, fun h => by cases h⟩
  · rw [hgroups]; exact h.owners
  · intro p hp
    rw [hgroups] at hp
    have hwait := h.waits p hp
    simp only [climb_close, reach_other (e := .close o os.head?) rfl]
    by_cases hc : (j.climb p.owner).1 = some o
    · rw [hc] at hwait
      rw [if_pos hc]
      cases os with
      | nil =>
        exact ⟨⟨Nat.lt_of_lt_of_eq (Nat.lt_succ_self _) hwait.2, .inl rfl⟩,
          fun x hx => Nat.lt_succ_of_le (reach_le hx)⟩
      | cons q os => exact ⟨List.mem_cons_self, hwait.2⟩
    · rw [if_neg hc]
      cases hq : (j.climb p.owner).1 with
      | none =>
        rw [hq] at hwait
        exact ⟨hwait.1.next (.close o os l m s), hwait.2⟩
      | some q =>
        rw [hq] at hwait hc
        exact ⟨(List.mem_cons.1 hwait.1).resolve_left fun h => hc (by rw [h]), hwait.2⟩

theorem next {j j' : Journal} {a b : Spot} (h : j.Nested a) (hn : a.Next b j') :
    (j ++ j').Nested b := by
  cases hn with
  | stay => simpa using h
  | layer l m s path =>
    refine h.declare (.layer l m s path) (List.nodup_singleton _) ?_ (Nat.le_succ m)
      (fun id h => by cases h) ?_ (fun p o ho => by cases ho)
    · intro o ho
      rw [List.mem_singleton.1 ho]
      exact .inr ⟨Nat.le_refl m, Nat.lt_succ_self m⟩
    · intro p hp id hh
      have hhome := h.homes p hp
      rw [hh] at hhome
      exact ⟨hhome.1, fun h => by cases h⟩
  | machine o os l m s path =>
    refine h.declare (.machine o os l m s path) ?_ ?_ (Nat.le_succ m) (fun id h => by cases h) ?_
      (fun p q hq hl => ⟨List.mem_cons_of_mem _ hq, hl⟩)
    · refine List.nodup_cons.2 ⟨fun hm => ?_, h.nodup⟩
      exact Nat.lt_irrefl m (h.opened ⟨m⟩ hm).1
    · intro q hq
      rcases List.mem_cons.1 hq with rfl | hq
      · exact .inr ⟨Nat.le_refl m, Nat.lt_succ_self m⟩
      · exact .inl hq
    · intro p hp id hh
      have hhome := h.homes p hp
      rw [hh] at hhome
      exact ⟨hhome.1, fun h => by cases h⟩
  | state o os l m s path =>
    refine h.declare (.state o os l m s path) h.nodup (fun q hq => .inl hq) (Nat.le_refl m) ?_ ?_
      (fun p q hq hl => ⟨hq, hl⟩)
    · intro id hid
      obtain rfl : ⟨s⟩ = id := Option.some.inj hid
      exact Nat.lt_succ_self s
    · intro p hp id hh
      have hhome := h.homes p hp
      rw [hh] at hhome
      refine ⟨Nat.lt_succ_of_lt hhome.1, fun hid => ?_⟩
      obtain rfl : ⟨s⟩ = id := Option.some.inj hid
      exact absurd hhome.1 (Nat.lt_irrefl s)
  | stateEnd os id l m s =>
    rw [List.append_nil]
    refine ⟨h.nodup, h.opened, h.closed, fun id h => (by cases h), ?_, h.owners, h.waits⟩
    intro p hp
    have hhome := h.homes p hp
    cases hh : p.home with
    | entry m | any m => rw [hh] at hhome; exact hhome
    | state id => rw [hh] at hhome; exact ⟨hhome.1, fun h => by cases h⟩
  | queue o os state l m s groups hw ht => exact h.queue hw
  | close o os l m s => exact h.close

end Nested

theorem written_nested {a : Spot} {j : Journal} (h : Written a j) :
    j.Nested a := by
  induction h with
  | start => exact ⟨List.nodup_nil, by simp, by simp, by simp, by simp [Journal.groups],
      by simp [Journal.groups], by simp [Journal.groups]⟩
  | step h hn ih => exact ih.next hn

end Journal

/-! ## Lists in order -/

namespace Ledger

/-- What becomes of a waiting transition that is not linked. -/
def carried (parent : Option MachineId) (nodes : List Declared) (p : Pending) : Option Pending :=
  match p.resolve? nodes, parent with
  | none, some outer => if p.target = .missing then none else some { p with owner := outer }
  | _, _ => none

/-- Linking transitions one after another appends to every list in their order. -/
theorem linkAll_order (parent : Option MachineId) (home : Home) (l : Ledger) (ps : List Pending) :
    (ps.foldl (link parent) l).linksOf home = l.linksOf home ++
      (ps.filter (·.home = home)).filterMap (fun p => (p.resolve? l.nodes).map (p, ·)) ∧
    (ps.foldl (link parent) l).pending.filter (·.home = home) = l.pending.filter (·.home = home) ++
      (ps.filter (·.home = home)).filterMap (carried parent l.nodes) := by
  induction ps generalizing l with
  | nil => simp
  | cons p ps ih =>
    obtain ⟨h1, h2⟩ := ih (l.link parent p)
    rw [List.foldl_cons, h1, h2]
    obtain ⟨d, hr, h⟩ | ⟨outer, hr, ht, rfl, h⟩ | ⟨hr, hd, h⟩ := l.link_cases parent p
    · rw [h]
      by_cases hh : p.home = home <;> simp [linksOf, hh, hr, carried]
    · rw [h]
      by_cases hh : p.home = home <;> simp [linksOf, hh, hr, carried, ht]
    · have hc : carried parent l.nodes p = none := by
        rcases hd with hd | rfl
        · cases parent <;> simp [carried, hr, hd]
        · simp [carried, hr]
      rw [h]
      by_cases hh : p.home = home <;> simp [linksOf, hh, hr, hc]

end Ledger

namespace Journal

/-- The transitions written for a home, in order. -/
def groupsOf (j : Journal) (home : Home) : List Pending := j.groups.filter (·.home = home)

/-- The link of a transition if its rank is `k`. -/
def linkAt (j : Journal) (k : Nat) (p : Pending) : Option (Pending × Destination) :=
  (j.reach p).bind fun x => if x.1 = k then some (p.unowned, x.2) else none

/-- Whether a transition waits when `n` machines around it have ended. -/
def waitsAt (j : Journal) (n : Nat) (p : Pending) : Bool :=
  (j.reach p).all (n ≤ ·.1) && (n = 0 || p.target ≠ .missing)

/-- Whether the transitions of a home, which are written in `machine`, are linked by rank. -/
structure Ordered (j : Journal) (home : Home) (machine : MachineId) (l : Ledger) : Prop where
  links : (l.linksOf home).map (fun x => (x.1.unowned, x.2)) =
    (List.range (j.climb machine).2).flatMap fun k => (j.groupsOf home).filterMap (j.linkAt k)
  pending : l.pending.filter (·.home = home) =
    (j.climb machine).1.elim [] fun o =>
      ((j.groupsOf home).filter (j.waitsAt (j.climb machine).2)).map ({ · with owner := o })

theorem linkAt_grow {j : Journal} {p : Pending} {k : Nat} (hk : k < (j.climb p.owner).2)
    (e : Entry) : (j ++ [e]).linkAt k p = j.linkAt k p := by
  unfold linkAt
  cases hr : j.reach p with
  | some x => rw [reach_append hr]
  | none =>
    cases hx : (j ++ [e]).reach p with
    | none => rfl
    | some x => exact if_neg (Nat.ne_of_gt (reach_new hr hx ▸ hk))

theorem waitsAt_grow (j : Journal) (p : Pending) (e : Entry) :
    (j ++ [e]).waitsAt (j.climb p.owner).2 p = j.waitsAt (j.climb p.owner).2 p := by
  unfold waitsAt
  cases hr : j.reach p with
  | some x => rw [reach_append hr]
  | none =>
    cases hx : (j ++ [e]).reach p with
    | none => rfl
    | some x => simp [reach_new hr hx]

/-- A waiting transition is linked just if its rank is the number of machines that have ended. -/
theorem linkAt_waiting (j : Journal) (p : Pending) (o : MachineId) :
    (if j.waitsAt (j.climb p.owner).2 p = true then
      (p.resolve? j.nodes).map (({ p with owner := o } : Pending), ·)
    else none).map (fun x => (x.1.unowned, x.2)) = j.linkAt (j.climb p.owner).2 p := by
  cases hr : p.resolve? j.nodes with
  | none => simp [linkAt, reach, hr]
  | some d =>
    have hreach : j.reach p = some (j.rank p, d) := by rw [reach, hr]; rfl
    have hle := reach_le hreach
    have ht : p.target ≠ .missing := by
      intro ht
      rw [Pending.resolve?, ht] at hr
      cases hr
    simp only [linkAt, waitsAt, hreach, Option.bind_some, Option.all_some]
    by_cases hk : j.rank p = (j.climb p.owner).2
    · simp [hk, ht]
    · have hlt : ¬(j.climb p.owner).2 ≤ j.rank p := by
        simp only at hle
        omega
      simp [hk, hlt]

/-- A waiting transition that is not linked is carried on. -/
theorem carried_waiting (j : Journal) (p : Pending) (o outer : MachineId) :
    (if j.waitsAt (j.climb p.owner).2 p = true then
      Ledger.carried (some outer) j.nodes { p with owner := o }
    else none) =
      if j.waitsAt ((j.climb p.owner).2 + 1) p = true then some { p with owner := outer }
      else none := by
  have hresolve : ({ p with owner := o } : Pending).resolve? j.nodes = p.resolve? j.nodes := rfl
  cases hr : p.resolve? j.nodes with
  | none =>
    have hcarried : Ledger.carried (some outer) j.nodes { p with owner := o } =
        if p.target = .missing then none else some { p with owner := outer } := by
      simp only [Ledger.carried, hresolve, hr]
    rw [hcarried]
    by_cases ht : p.target = .missing <;> simp [waitsAt, reach, hr, ht]
  | some d =>
    have hreach : j.reach p = some (j.rank p, d) := by rw [reach, hr]; rfl
    have hlt : decide ((j.climb p.owner).2 + 1 ≤ j.rank p) = false := by
      have hle := reach_le hreach
      simp only at hle
      exact decide_eq_false (by omega)
    have hcarried : Ledger.carried (some outer) j.nodes { p with owner := o } = none := by
      simp only [Ledger.carried, hresolve, hr]
    simp only [hcarried, waitsAt, hreach, Option.all_some, hlt, Bool.false_and, ite_self,
      Bool.false_eq_true, if_false]

namespace Ordered

variable {j : Journal} {home : Home} {machine : MachineId} {l : Ledger}

/-- An entry that writes no transition for the home and ends no machine that it waits for. -/
theorem grow (h : j.Ordered home machine l) {e : Entry} {l' : Ledger}
    (hm : ∀ p ∈ j.groupsOf home, p.owner = machine)
    (hg : (j ++ [e]).groupsOf home = j.groupsOf home)
    (hc : (j ++ [e]).climb machine = j.climb machine)
    (hl : l'.linksOf home = l.linksOf home)
    (hp : l'.pending.filter (·.home = home) = l.pending.filter (·.home = home)) :
    (j ++ [e]).Ordered home machine l' := by
  refine ⟨?_, ?_⟩
  · rw [hl, hc, hg, h.links]
    refine List.flatMap_congr fun k hk => List.filterMap_congr fun p hpm => ?_
    refine (linkAt_grow ?_ e).symm
    rw [hm p hpm]
    exact List.mem_range.1 hk
  · rw [hp, hc, hg, h.pending]
    congr 1
    funext o
    congr 1
    refine List.filter_congr fun p hpm => ?_
    have hw := waitsAt_grow j p e
    rw [hm p hpm] at hw
    exact hw.symm

/-- More transitions of one statement. -/
theorem queue (h : j.Ordered home machine l) {groups : List Pending} {o : MachineId}
    (hm : ∀ p ∈ (j ++ [Entry.queue groups]).groupsOf home, p.owner = machine)
    (hopen : j.climb o = (some o, 0)) (hw : ∀ p ∈ groups, p.owner = o) :
    (j ++ [Entry.queue groups]).Ordered home machine (l.step (.queue groups)) := by
  have hg : (j ++ [Entry.queue groups]).groupsOf home =
      j.groupsOf home ++ groups.filter (·.home = home) := by
    simp only [groupsOf, groups_append, List.filter_append]
    simp [Journal.groups]
  have hc : (j ++ [Entry.queue groups]).climb machine = j.climb machine :=
    climb_other (by simp) machine j
  cases hnew : groups.filter (·.home = home) with
  | nil =>
    rw [hnew, List.append_nil] at hg
    refine h.grow (fun p hp => hm p (hg ▸ hp)) hg hc rfl ?_
    simp only [Ledger.step, List.filter_append, hnew, List.append_nil]
  | cons p ps =>
    have hp : p ∈ groups ∧ p.home = home := by
      have := List.mem_filter.1 (hnew ▸ List.mem_cons_self : p ∈ groups.filter (·.home = home))
      simpa using this
    obtain rfl : machine = o := by
      rw [← hw p hp.1]
      refine (hm p ?_).symm
      rw [hg, hnew]
      exact List.mem_append_right _ List.mem_cons_self
    have hall (j : Journal) (ps : List Pending) (h : ∀ p ∈ ps, p.owner = machine) :
        (ps.filter (j.waitsAt 0)).map ({ · with owner := machine }) = ps := by
      have hf : ps.filter (j.waitsAt 0) = ps :=
        List.filter_eq_self.2 fun p _ => by cases j.reach p <;> simp [waitsAt]
      rw [hf]
      refine (List.map_congr_left fun p hp => ?_).trans (List.map_id ps)
      rw [← h p hp]
      rfl
    have hlinks := h.links
    have hpending := h.pending
    rw [hopen] at hlinks hpending hc
    refine ⟨?_, ?_⟩
    · rw [hc]
      exact hlinks
    · rw [hc]
      simp only [Ledger.step, List.filter_append, hpending, Option.elim_some]
      rw [hall, hall, hg]
      · exact hm
      · exact fun p hp => hm p (by rw [hg]; exact List.mem_append_left _ hp)

/-- The end of a machine. -/
theorem close (h : j.Ordered home machine l) {o : MachineId} {parent : Option MachineId}
    (hm : ∀ p ∈ j.groupsOf home, p.owner = machine) (hnodes : l.nodes = j.nodes) :
    (j ++ [Entry.close o parent]).Ordered home machine (l.step (.close o parent)) := by
  have hg : (j ++ [Entry.close o parent]).groupsOf home = j.groupsOf home := by
    rw [groupsOf, groups_append]
    simp [groupsOf, Journal.groups]
  have hpending := h.pending
  have hfilter (q : Pending → Bool) : (l.pending.filter q).filter (·.home = home) =
      (l.pending.filter (·.home = home)).filter q := List.filter_comm ..
  obtain ⟨hl, hp⟩ := Ledger.linkAll_order parent home
    { l with pending := l.pending.filter (·.owner ≠ o) } (l.pending.filter (·.owner = o))
  by_cases hc : (j.climb machine).1 = some o
  · rw [hc, Option.elim_some] at hpending
    have hmine : (l.pending.filter (·.owner = o)).filter (·.home = home) =
        ((j.groupsOf home).filter (j.waitsAt (j.climb machine).2)).map ({ · with owner := o }) := by
      rw [hfilter, hpending, List.filter_eq_self]
      intro p hp
      obtain ⟨x, -, rfl⟩ := List.mem_map.1 hp
      simp
    have hothers : (l.pending.filter (·.owner ≠ o)).filter (·.home = home) = [] := by
      rw [hfilter, hpending, List.filter_eq_nil_iff]
      intro p hp
      obtain ⟨x, -, rfl⟩ := List.mem_map.1 hp
      simp
    rw [hmine, List.filterMap_map, List.filterMap_filter] at hl hp
    rw [hothers, List.nil_append] at hp
    have hc' : (j ++ [Entry.close o parent]).climb machine =
        (parent, (j.climb machine).2 + 1) := by rw [climb_close, if_pos hc]
    have hreach (p : Pending) : (j ++ [Entry.close o parent]).reach p = j.reach p :=
      reach_other rfl p
    have hlinkAt : (j ++ [Entry.close o parent]).linkAt = j.linkAt := by
      funext k p
      rw [linkAt, hreach, linkAt]
    refine ⟨?_, ?_⟩
    · show (Ledger.linksOf _ home).map _ = _
      rw [Ledger.step, hl, hc', hg, List.range_succ, List.flatMap_append, List.map_append]
      rw [hlinkAt]
      congr 1
      · exact h.links
      · rw [List.map_filterMap, List.flatMap_singleton]
        refine List.filterMap_congr fun p hpm => ?_
        have hlink := linkAt_waiting j p o
        rw [hm p hpm] at hlink
        rw [hnodes]
        exact hlink
    · rw [Ledger.step, hp, hc', hg]
      cases parent with
      | none =>
        refine List.filterMap_eq_nil_iff.2 fun p _ => ?_
        have hnone : Ledger.carried none l.nodes { p with owner := o } = none := by
          simp only [Ledger.carried]
          split <;> simp_all
        simp [hnone]
      | some outer =>
        rw [Option.elim_some, ← List.filterMap_eq_map, List.filterMap_filter]
        refine List.filterMap_congr fun p hpm => ?_
        have hcarried := carried_waiting j p o outer
        rw [hm p hpm] at hcarried
        simp only [waitsAt, hreach, hnodes]
        exact hcarried
  · -- Nothing of the home waits for this machine.
    have howner : ∀ p ∈ l.pending.filter (·.home = home), p.owner ≠ o := by
      intro p hp
      rw [hpending] at hp
      cases hq : (j.climb machine).1 with
      | none => rw [hq] at hp; cases hp
      | some q =>
        rw [hq] at hp hc
        obtain ⟨x, -, rfl⟩ := List.mem_map.1 hp
        exact fun h => hc (by rw [← h])
    have hmine : (l.pending.filter (·.owner = o)).filter (·.home = home) = [] := by
      rw [hfilter, List.filter_eq_nil_iff]
      exact fun p hp => by simpa using howner p hp
    have hothers : (l.pending.filter (·.owner ≠ o)).filter (·.home = home) =
        l.pending.filter (·.home = home) := by
      rw [hfilter, List.filter_eq_self]
      exact fun p hp => by simpa using howner p hp
    rw [hmine, List.filterMap_nil, List.append_nil] at hl hp
    rw [hothers] at hp
    exact h.grow hm hg (by rw [climb_close, if_neg hc]) hl hp

end Ordered

end Journal

/-- Every list is in order, in every journal of a reading. -/
theorem Written.ordered {a : Spot} {j : Journal} (h : Written a j) {home : Home}
    {machine : MachineId} (hm : ∀ p ∈ j.groupsOf home, p.owner = machine) :
    j.Ordered home machine j.ledger := by
  induction h with
  | start => exact ⟨rfl, rfl⟩
  | @step a b j j' h hn ih =>
    have hsub {j' : Journal} {p : Pending} (hp : p ∈ j.groupsOf home) :
        p ∈ (j ++ j').groupsOf home := by
      rw [Journal.groupsOf, Journal.groups_append, List.filter_append]
      exact List.mem_append_left _ hp
    have ih := ih fun p hp => hm p (hsub hp)
    have hdeclare (node : Declared) (hm : ∀ p ∈ j.groupsOf home, p.owner = machine) :
        (j ++ [Entry.declare node]).Ordered home machine (j.ledger.step (.declare node)) := by
      refine ih.grow hm ?_ (Journal.climb_other (by simp) machine j) rfl rfl
      rw [Journal.groupsOf, Journal.groups_append]
      simp [Journal.groupsOf, Journal.groups]
    rw [Journal.ledger_append]
    cases hn with
    | stay | stateEnd => simpa using ih
    | layer | machine | state => exact hdeclare _ fun p hp => hm p (hsub hp)
    | queue o os state l m s groups hw ht =>
      refine ih.queue hm ?_ fun p hp => (hw p hp).owner
      exact Journal.climb_open (Journal.written_nested h |>.opened o List.mem_cons_self).2
    | close o os l m s =>
      exact ih.close (fun p hp => hm p (hsub hp)) h.accounts.nodes

/-! ## Documents that have been read -/

namespace Journal

/-- The transitions written for a home by rank, and in written order among those of one rank. -/
def byRank (j : Journal) (home : Home) : List Pending :=
  (List.range (j.length + 1)).flatMap fun k => (j.groupsOf home).filter (j.rank · = k)

/-- In a layer that has ended, only the ranks below the number of ended machines lead somewhere. -/
theorem filterMap_byRank {α : Type} {j : Journal} {home : Home} {n : Nat} {f : Pending → Option α}
    (hn : n ≤ j.length + 1) (h : ∀ p ∈ j.groupsOf home, n ≤ j.rank p → f p = none) :
    (j.byRank home).filterMap f = (List.range n).flatMap fun k =>
      ((j.groupsOf home).filter (j.rank · = k)).filterMap f := by
  obtain ⟨m, hm⟩ := Nat.le.dest hn
  have hrest : ((List.range m).map (n + ·)).flatMap (fun k =>
      ((j.groupsOf home).filter (j.rank · = k)).filterMap f) = [] := by
    refine List.flatMap_eq_nil_iff.2 fun k hk => List.filterMap_eq_nil_iff.2 fun p hp => ?_
    obtain ⟨i, -, rfl⟩ := List.mem_map.1 hk
    obtain ⟨hp, hr⟩ := List.mem_filter.1 hp
    have hr : j.rank p = n + i := by simpa using hr
    exact h p hp (hr ▸ Nat.le_add_right n i)
  rw [byRank, ← hm, List.range_add, List.flatMap_append, List.filterMap_append,
    List.filterMap_flatMap, List.filterMap_flatMap, hrest, List.append_nil]

/-- The end of a machine that is nested in none. -/
theorem climb_root {a : Spot} {j : Journal} (h : Written a j) {o : MachineId}
    (ho : Entry.close o none ∈ j) : j.climb o = (none, 1) := by
  induction h with
  | start => cases ho
  | @step a b j j' h hn ih =>
    rcases List.mem_append.1 ho with ho | ho
    · rw [climb_append, ih ho]
      cases hn with
      | close q os l m s => simp [Entry.climb]
      | _ => rfl
    · cases hn with
      | close q os l m s =>
        obtain ⟨rfl, hos⟩ := Entry.close.inj (List.mem_singleton.1 ho)
        have hopen := climb_open ((written_nested h).opened o List.mem_cons_self).2
        rw [climb_close, hopen, if_pos rfl, hos]
      | _ => simp at ho

/-- The transitions of a statement have one rank. -/
theorem rank_statement {a : Spot} {j : Journal} (h : Written a j) {groups : List Pending}
    (hg : Entry.queue groups ∈ j) {p q : Pending} (hp : p ∈ groups) (hq : q ∈ groups) :
    p.owner = q.owner ∧ p.layer = q.layer ∧ p.target = q.target := by
  induction h with
  | start => cases hg
  | @step a b j j' h hn ih =>
    rcases List.mem_append.1 hg with hg | hg
    · exact ih hg
    · cases hn with
      | queue o os state l m s gs hw ht =>
        obtain rfl := Entry.queue.inj (List.mem_singleton.1 hg)
        exact ⟨(hw p hp).owner.trans (hw q hq).owner.symm,
          (hw p hp).layer.trans (hw q hq).layer.symm, ht p hp q hq⟩
      | _ => simp at hg

end Journal

/-- How the lists of a document are ordered. -/
structure Document.OrderedBy (doc : Document) (j : Journal) : Prop where
  lists : ∀ home, doc.controller.transitionsOf home =
    (j.byRank home).filterMap fun p => (p.resolve? j.nodes).map p.linked
  /-- What is written in the machine of a layer, or directly in a state of it, is in written
  order. -/
  outermost : ∀ home, (∀ p ∈ j.groupsOf home, Entry.close p.owner none ∈ j) →
    doc.controller.transitionsOf home =
      (j.groupsOf home).filterMap fun p => (p.resolve? j.nodes).map p.linked
  /-- The transitions of one statement are in written order. -/
  statements : ∀ groups, Entry.queue groups ∈ j → ∀ p ∈ groups, ∀ q ∈ groups,
    j.rank p = j.rank q

/-- The list of a home, by rank up to the number of machines that have ended. -/
theorem Shows.transitionsOf_rank {η : Type} {s : Session η} {j : Journal} {a : Spot}
    (h : Shows s.wiring j.ledger) (hw : Written a j) {home : Home} {machine : MachineId}
    (hm : ∀ p ∈ j.groupsOf home, p.owner = machine) :
    s.controller.transitionsOf home = (List.range (j.climb machine).2).flatMap fun k =>
      ((j.groupsOf home).filter (j.rank · = k)).filterMap fun p =>
        (p.resolve? j.nodes).map p.linked := by
  have hlinks := (hw.ordered hm).links
  have hmap : (j.ledger.linksOf home).map (fun x => x.1.linked x.2) =
      ((j.ledger.linksOf home).map fun x => (x.1.unowned, x.2)).map fun x => x.1.linked x.2 := by
    rw [List.map_map]; rfl
  rw [h.transitionsOf]
  refine hmap.trans ?_
  rw [hlinks, List.map_flatMap]
  refine List.flatMap_congr fun k _ => ?_
  rw [List.map_filterMap, List.filterMap_filter]
  refine List.filterMap_congr fun p _ => ?_
  cases hr : p.resolve? j.nodes with
  | none => simp [Journal.linkAt, Journal.reach, hr]
  | some d =>
    by_cases hk : j.rank p = k
    · simp [Journal.linkAt, Journal.reach, hr, hk]; rfl
    · simp [Journal.linkAt, Journal.reach, hr, hk]

theorem Shows.orderedBy {η : Type} {s : Session η} {j : Journal} {a : Spot}
    (h : Shows s.wiring j.ledger) (hw : Written a j) (ha : a.machines = []) :
    Document.OrderedBy ⟨s.controller, s.warnings⟩ j := by
  have hnest := Journal.written_nested hw
  have howner (home : Home) : ∃ machine, ∀ p ∈ j.groupsOf home, p.owner = machine := by
    cases hg : j.groupsOf home with
    | nil => exact ⟨⟨0⟩, by simp⟩
    | cons q qs =>
      have hmem {p : Pending} (hp : p ∈ q :: qs) : p ∈ j.groups ∧ p.home = home := by
        rw [← hg] at hp
        simpa [Journal.groupsOf] using hp
      refine ⟨q.owner, fun p hp => ?_⟩
      have hq := hmem (List.mem_cons_self (a := q) (l := qs))
      exact hnest.owners p (hmem hp).1 q hq.1 ((hmem hp).2.trans hq.2.symm)
  have hrank {home : Home} {p : Pending} (hp : p ∈ j.groupsOf home)
      (hr : (j.climb p.owner).2 ≤ j.rank p) : (p.resolve? j.nodes).map p.linked = none := by
    have hwait := hnest.waits p (List.mem_of_mem_filter hp)
    cases hc : (j.climb p.owner).1 with
    | some o => rw [hc, ha] at hwait; cases hwait.1
    | none =>
      rw [hc] at hwait
      cases hres : p.resolve? j.nodes with
      | none => rfl
      | some d =>
        have hlt := hwait.2 (j.rank p, d) (by rw [Journal.reach, hres]; rfl)
        exact absurd hlt (Nat.not_lt.2 hr)
  refine ⟨?_, ?_, ?_⟩
  · intro home
    obtain ⟨machine, hm⟩ := howner home
    rw [h.transitionsOf_rank hw hm]
    refine (Journal.filterMap_byRank ?_ fun p hp hr => hrank hp (by rw [hm p hp]; exact hr)).symm
    have hle := Journal.climb_le (some machine, 0) j
    rw [Nat.zero_add] at hle
    exact Nat.le_succ_of_le hle
  · intro home hroot
    obtain ⟨machine, hm⟩ := howner home
    rw [h.transitionsOf_rank hw hm]
    cases hg : j.groupsOf home with
    | nil => simp
    | cons q qs =>
      have hq : q ∈ j.groupsOf home := hg ▸ List.mem_cons_self
      have hc := Journal.climb_root hw (hroot q hq)
      rw [hm q hq] at hc
      rw [hc, ← hg, List.range_one, List.flatMap_singleton, List.filterMap_filter]
      refine List.filterMap_congr fun p hp => ?_
      by_cases hr : j.rank p = 0
      · simp [hr]
      · have hnone := hrank hp (by rw [hm p hp, hc]; omega)
        simp [hr, hnone]
  · intro groups hg p hp q hq
    obtain ⟨ho, hl, ht⟩ := Journal.rank_statement hw hg hp hq
    have hdecl : p.declaredBy = q.declaredBy := by
      funext e
      cases e <;> simp [Pending.declaredBy, hl, ht]
    simp only [Journal.rank, Journal.before, ho, ht, hdecl]

variable {η : Type} [Host η]

/-- Lists are ordered by how many machines end before a destination is declared, and then by what
is written first. -/
theorem linking_order {source name : String} {host host' : η} {doc : Document}
    (h : Document.read source name host = (.ok doc, host')) :
    (Document.journal source name host).QueuedBy (Document.statements source name host) ∧
      doc.OrderedBy (Document.journal source name host) := by
  have hqueued := Document.journal_queuedBy h
  obtain ⟨s, hm, rfl⟩ := Document.read_moment h
  exact ⟨hqueued, hm.shows.orderedBy hm.written rfl⟩

theorem linking_order_carried :
    ∃ doc host', Document.read Document.carried "Hero" ({} : MemoryHost) = (.ok doc, host') ∧
      doc.OrderedBy (Document.journal Document.carried "Hero" ({} : MemoryHost)) ∧
      (doc.controller.transitionsOf (.state ⟨0⟩)).map (·.destination) = [.state ⟨1⟩, .state ⟨2⟩] ∧
      ((Document.journal Document.carried "Hero" ({} : MemoryHost)).groupsOf (.state ⟨0⟩)).map
        (fun p => (p.target, (Document.journal Document.carried "Hero" ({} : MemoryHost)).rank p)) =
        [(.node ⟨["L", "B"]⟩, 1), (.node ⟨["L", "M", "C"]⟩, 0), (.node ⟨["L", "M", "D"]⟩, 2)] ∧
      doc.warnings.map (·.code) = [some .unresolvedDestination] :=
  Document.exists_read_and (fun _ _ h => (linking_order h).2) (by decide +kernel)

/-- A transition that waits for the end of the layer is linked behind one that is written after
it. -/
theorem not_written_order :
    ¬∀ (source name : String) (host host' : MemoryHost) (doc : Document),
      Document.read source name host = (.ok doc, host') → ∀ home,
        doc.controller.transitionsOf home =
          ((Document.journal source name host).groupsOf home).filterMap fun p =>
            (p.resolve? (Document.journal source name host).nodes).map p.linked := by
  intro h
  obtain ⟨doc, host', hread, -, hdoc⟩ : ∃ doc host',
      Document.read Document.carried "Hero" ({} : MemoryHost) = (.ok doc, host') ∧ True ∧
        (doc.controller.transitionsOf (.state ⟨0⟩)).map (·.destination) =
          [.state ⟨1⟩, .state ⟨2⟩] :=
    Document.exists_read_and (fun _ _ _ => trivial) (by decide +kernel)
  have hlist := congrArg (List.map (·.destination)) (h _ _ _ _ _ hread (.state ⟨0⟩))
  have hwritten : ((((Document.journal Document.carried "Hero" ({} : MemoryHost)).groupsOf
      (.state ⟨0⟩)).filterMap fun p => (p.resolve? (Document.journal Document.carried "Hero"
        ({} : MemoryHost)).nodes).map p.linked).map (·.destination)) =
      [.state ⟨2⟩, .state ⟨1⟩] := by decide +kernel
  rw [hdoc, hwritten] at hlist
  cases hlist

end MotionScript
