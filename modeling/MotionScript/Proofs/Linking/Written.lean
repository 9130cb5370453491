import Mathlib.Data.List.Perm.Basic
import MotionScript.Proofs.Linking.Ledger
/-!
# Journals of readings

Which entry can follow where in the journal of a reading. From this alone, without the rules of the
grammar, the ledger keeps account of every queued transition: it waits for a machine that is still
open, is linked to the first node with its path, or is dropped because there can be no such node.
-/

namespace MotionScript

/-! ## Spots -/

/-- Where in a document a reading is. -/
structure Spot where
  /-- The machines that have not ended, innermost first. -/
  machines : List MachineId
  state : Option StateId
  layerCount : Nat
  machineCount : Nat
  stateCount : Nat

/-- Whether a transition is written in a machine, or in a state of it. -/
structure Pending.WrittenIn (p : Pending) (machine : MachineId) (state : Option StateId)
    (layer : Nat) : Prop where
  owner : p.owner = machine
  layer : p.layer = layer
  home : match state with
    | some id => p.home = .state id
    | none => p.home = .entry machine ∨ p.home = .any machine

namespace Spot

/-- What a reading can write on its way from one spot to the next. -/
inductive Next : Spot → Spot → Journal → Prop where
  | stay (a : Spot) : Next a a []
  | layer (l m s : Nat) (path : Path) :
    Next ⟨[], none, l, m, s⟩ ⟨[⟨m⟩], none, l + 1, m + 1, s⟩ [.declare (l, path, .machine ⟨m⟩)]
  | machine (o : MachineId) (os : List MachineId) (l m s : Nat) (path : Path) :
    Next ⟨o :: os, none, l + 1, m, s⟩ ⟨⟨m⟩ :: o :: os, none, l + 1, m + 1, s⟩
      [.declare (l, path, .machine ⟨m⟩)]
  | state (o : MachineId) (os : List MachineId) (l m s : Nat) (path : Path) :
    Next ⟨o :: os, none, l + 1, m, s⟩ ⟨o :: os, some ⟨s⟩, l + 1, m, s + 1⟩
      [.declare (l, path, .state ⟨s⟩)]
  | stateEnd (os : List MachineId) (id : StateId) (l m s : Nat) :
    Next ⟨os, some id, l, m, s⟩ ⟨os, none, l, m, s⟩ []
  /-- The transitions of one statement lead to the same place. -/
  | queue (o : MachineId) (os : List MachineId) (state : Option StateId) (l m s : Nat)
    (groups : List Pending) (hw : ∀ p ∈ groups, p.WrittenIn o state l)
    (ht : ∀ p ∈ groups, ∀ q ∈ groups, p.target = q.target) :
    Next ⟨o :: os, state, l + 1, m, s⟩ ⟨o :: os, state, l + 1, m, s⟩ [.queue groups]
  | close (o : MachineId) (os : List MachineId) (l m s : Nat) :
    Next ⟨o :: os, none, l, m, s⟩ ⟨os, none, l, m, s⟩ [.close o os.head?]

/-- Whether nothing can be declared in a layer any more. -/
def Over (a : Spot) (layer : Nat) : Prop :=
  layer < a.layerCount ∧ (a.machines = [] ∨ layer + 1 < a.layerCount)

theorem Over.next {a b : Spot} {j : Journal} {layer : Nat} (h : a.Over layer)
    (hn : a.Next b j) : b.Over layer := by
  obtain ⟨hl, hm | hm⟩ := h
  · cases hn with
    | stay | stateEnd => exact ⟨hl, .inl hm⟩
    | layer => exact ⟨Nat.lt_succ_of_lt hl, .inr (Nat.succ_lt_succ hl)⟩
    | machine | state | queue | close => cases hm
  · cases hn with
    | layer => exact ⟨Nat.lt_succ_of_lt hl, .inr (Nat.lt_succ_of_lt hm)⟩
    | _ => exact ⟨hl, .inr hm⟩

/-- A layer that is over declares nothing. -/
theorem Over.declare {a b : Spot} {layer : Nat} {node : Declared} (h : a.Over layer)
    (hn : a.Next b [.declare node]) : node.1 ≠ layer := by
  obtain ⟨hl, hm⟩ := h
  cases hn with
  | layer => exact Nat.ne_of_gt hl
  | machine | state =>
    rcases hm with hm | hm
    · cases hm
    · exact fun h => by simp_all

end Spot

/-- The journals of readings, with the spots where they end. -/
inductive Written : Spot → Journal → Prop where
  | start : Written ⟨[], none, 0, 0, 0⟩ []
  | step {a b : Spot} {j j' : Journal} (h : Written a j) (hn : a.Next b j') : Written b (j ++ j')

/-! ## Where transitions lead -/

namespace Pending

/-- A transition without the machine it waits for. -/
def unowned (p : Pending) : Pending := { p with owner := ⟨0⟩ }

@[simp]
theorem unowned_carry (p : Pending) (machine : MachineId) :
    { p with owner := machine }.unowned = p.unowned := rfl

theorem resolve?_append {p : Pending} {nodes : List Declared} {d : Destination}
    (h : p.resolve? nodes = some d) (more : List Declared) :
    p.resolve? (nodes ++ more) = some d := by
  unfold resolve? at h ⊢
  cases ht : p.target with
  | exit | missing => rw [ht] at h; exact h
  | node path =>
    simp only [ht, Option.map_eq_some_iff] at h ⊢
    obtain ⟨n, hn, hd⟩ := h
    refine ⟨n, ?_, hd⟩
    simp only [firstNode?, Option.map_eq_some_iff, List.find?_append] at hn ⊢
    obtain ⟨x, hx, rfl⟩ := hn
    exact ⟨x, by rw [hx]; rfl, rfl⟩

theorem resolve?_append_none {p : Pending} {nodes : List Declared} {node : Declared}
    (h : p.resolve? nodes = none) (hn : p.target = .missing ∨ node.1 ≠ p.layer) :
    p.resolve? (nodes ++ [node]) = none := by
  unfold resolve? at h ⊢
  cases ht : p.target with
  | exit => rw [ht] at h; cases h
  | missing => rfl
  | node path =>
    have hl : node.1 ≠ p.layer := hn.resolve_left (by rw [ht]; simp)
    simp only [ht, Option.map_eq_none_iff, firstNode?, List.find?_append] at h ⊢
    rw [h]
    simp [hl]

end Pending

/-! ## Accounts -/

namespace Ledger

/-- All transitions that a ledger knows. -/
def all (l : Ledger) : List Pending := l.links.map (·.1) ++ l.dropped ++ l.pending

/-- A transition is linked, carried or dropped. -/
theorem link_cases (parent : Option MachineId) (l : Ledger) (p : Pending) :
    (∃ d, p.resolve? l.nodes = some d ∧
      l.link parent p = { l with links := l.links ++ [(p, d)] }) ∨
    (∃ outer, p.resolve? l.nodes = none ∧ p.target ≠ .missing ∧ parent = some outer ∧
      l.link parent p = { l with pending := l.pending ++ [{ p with owner := outer }] }) ∨
    (p.resolve? l.nodes = none ∧ (p.target = .missing ∨ parent = none) ∧
      l.link parent p = { l with dropped := l.dropped ++ [p] }) := by
  unfold link
  cases hr : p.resolve? l.nodes with
  | some d => exact .inl ⟨d, rfl, rfl⟩
  | none =>
    cases parent with
    | none => exact .inr (.inr ⟨rfl, .inr rfl, rfl⟩)
    | some outer =>
      by_cases ht : p.target = .missing
      · exact .inr (.inr ⟨rfl, .inl ht, if_pos ht⟩)
      · exact .inr (.inl ⟨outer, rfl, ht, rfl, if_neg ht⟩)

theorem all_link (parent : Option MachineId) (l : Ledger) (p : Pending) :
    ((l.link parent p).all.map Pending.unowned).Perm (l.all.map Pending.unowned ++ [p.unowned]) := by
  obtain ⟨d, -, h⟩ | ⟨outer, -, -, -, h⟩ | ⟨-, -, h⟩ := l.link_cases parent p
  · rw [h]
    simp only [all, List.map_append, List.map_cons, List.map_nil, List.append_assoc]
    rw [← List.append_assoc (l.dropped.map _)]
    exact List.Perm.append_left _ List.perm_append_comm
  · rw [h]
    simp [all]
  · rw [h]
    simp only [all, List.map_append, List.map_cons, List.map_nil, List.append_assoc]
    refine List.Perm.append_left _ (List.Perm.append_left _ ?_)
    exact List.perm_append_comm

/-- What linking transitions one after another does to a ledger. -/
theorem linkAll_all (parent : Option MachineId) (l : Ledger) (ps : List Pending) :
    ((ps.foldl (link parent) l).all.map Pending.unowned).Perm
      (l.all.map Pending.unowned ++ ps.map Pending.unowned) := by
  induction ps generalizing l with
  | nil => simp
  | cons p ps ih =>
    refine (ih (l.link parent p)).trans ?_
    rw [List.map_cons, List.append_cons]
    exact (l.all_link parent p).append_right _

/-- Which ledgers linking can lead to: everything in them was there before or is one of `ps`. -/
structure LinkedFrom (parent : Option MachineId) (l : Ledger) (ps : List Pending) (l' : Ledger) :
    Prop where
  nodes : l'.nodes = l.nodes
  links : ∀ link ∈ l'.links, link ∈ l.links ∨ link.1.resolve? l.nodes = some link.2
  pending : ∀ p ∈ l'.pending,
    p ∈ l.pending ∨ ∃ q ∈ ps, ∃ outer, parent = some outer ∧ p = { q with owner := outer }
  dropped : ∀ p ∈ l'.dropped, p ∈ l.dropped ∨
    p ∈ ps ∧ p.resolve? l.nodes = none ∧ (p.target = .missing ∨ parent = none)

theorem linkAll_from (parent : Option MachineId) (l : Ledger) (ps : List Pending) :
    LinkedFrom parent l ps (ps.foldl (link parent) l) := by
  induction ps generalizing l with
  | nil => exact ⟨rfl, fun _ h => .inl h, fun _ h => .inl h, fun _ h => .inl h⟩
  | cons p ps ih =>
    have hl := ih (l.link parent p)
    have hmem {q : Pending} (h : q ∈ ps) : q ∈ p :: ps := List.mem_cons_of_mem p h
    obtain ⟨d, hr, h⟩ | ⟨outer, hr, -, ho, h⟩ | ⟨hr, hd, h⟩ := l.link_cases parent p
    all_goals
      rw [List.foldl_cons]
      rw [h] at hl ⊢
      refine ⟨hl.nodes, fun link hm => ?_, fun q hm => ?_, fun q hm => ?_⟩
    · rcases hl.links link hm with hm | hm
      · rcases List.mem_append.1 hm with hm | hm
        · exact .inl hm
        · rw [List.mem_singleton.1 hm]; exact .inr hr
      · exact .inr hm
    · exact (hl.pending q hm).imp_right fun ⟨x, hx, h⟩ => ⟨x, hmem hx, h⟩
    · exact (hl.dropped q hm).imp_right fun ⟨hx, h⟩ => ⟨hmem hx, h⟩
    · exact hl.links link hm
    · rcases hl.pending q hm with hm | ⟨x, hx, h⟩
      · rcases List.mem_append.1 hm with hm | hm
        · exact .inl hm
        · exact .inr ⟨p, List.mem_cons_self, outer, ho, List.mem_singleton.1 hm⟩
      · exact .inr ⟨x, hmem hx, h⟩
    · exact (hl.dropped q hm).imp_right fun ⟨hx, h⟩ => ⟨hmem hx, h⟩
    · exact hl.links link hm
    · exact (hl.pending q hm).imp_right fun ⟨x, hx, h⟩ => ⟨x, hmem hx, h⟩
    · rcases hl.dropped q hm with hm | ⟨hx, h⟩
      · rcases List.mem_append.1 hm with hm | hm
        · exact .inl hm
        · rw [List.mem_singleton.1 hm]; exact .inr ⟨List.mem_cons_self, hr, hd⟩
      · exact .inr ⟨hmem hx, h⟩

/-- What holds between a ledger and the journal it is of. -/
structure Accounts (l : Ledger) (a : Spot) (j : Journal) : Prop where
  nodes : l.nodes = j.nodes
  /-- Every queued transition is linked, dropped or still waiting, exactly once. -/
  all : (j.groups.map Pending.unowned).Perm (l.all.map Pending.unowned)
  links : ∀ link ∈ l.links, link.1.resolve? l.nodes = some link.2
  pending : ∀ p ∈ l.pending, p.owner ∈ a.machines ∧ p.layer + 1 = a.layerCount
  dropped : ∀ p ∈ l.dropped, p.resolve? l.nodes = none ∧ (p.target = .missing ∨ a.Over p.layer)

theorem Accounts.declare {l : Ledger} {a b : Spot} {j : Journal} {node : Declared}
    (h : l.Accounts a j) (hn : a.Next b [.declare node])
    (hp : ∀ p ∈ l.pending, p.owner ∈ b.machines ∧ p.layer + 1 = b.layerCount) :
    (l.step (.declare node)).Accounts b (j ++ [.declare node]) := by
  refine ⟨?_, ?_, ?_, hp, ?_⟩
  · rw [Journal.nodes_append, ← h.nodes]; rfl
  · rw [Journal.groups_append]
    simpa [Journal.groups, step, Ledger.all] using h.all
  · exact fun link hm => Pending.resolve?_append (h.links link hm) [node]
  · intro p hm
    obtain ⟨hr, ho⟩ := h.dropped p hm
    exact ⟨Pending.resolve?_append_none hr (ho.imp_right fun ho => ho.declare hn),
      ho.imp_right fun ho => ho.next hn⟩

theorem Accounts.close {l : Ledger} {j : Journal} {o : MachineId} {os : List MachineId}
    {n m s : Nat} (h : l.Accounts ⟨o :: os, none, n, m, s⟩ j) :
    (l.step (.close o os.head?)).Accounts ⟨os, none, n, m, s⟩ (j ++ [.close o os.head?]) := by
  have hf := linkAll_from os.head? { l with pending := l.pending.filter (·.owner ≠ o) }
    (l.pending.filter (·.owner = o))
  have ha := linkAll_all os.head? { l with pending := l.pending.filter (·.owner ≠ o) }
    (l.pending.filter (·.owner = o))
  have hnodes : (j ++ [Entry.close o os.head?]).nodes = j.nodes := by
    rw [Journal.nodes_append]; exact List.append_nil _
  have hgroups : (j ++ [Entry.close o os.head?]).groups = j.groups := by
    rw [Journal.groups_append]; exact List.append_nil _
  simp only [step]
  refine ⟨?_, ?_, ?_, ?_, ?_⟩
  · rw [hf.nodes, hnodes]; exact h.nodes
  · rw [hgroups]
    refine h.all.trans (.trans ?_ ha.symm)
    simp only [Ledger.all, List.map_append, List.append_assoc]
    refine List.Perm.append_left _ (List.Perm.append_left _ ?_)
    rw [← List.map_append]
    refine List.Perm.map _ ?_
    have hsplit := (List.filter_append_perm (fun p : Pending => decide (p.owner = o)) l.pending).symm
    refine hsplit.trans (List.perm_append_comm.trans ?_)
    simp
  · intro link hm
    rw [hf.nodes]
    exact (hf.links link hm).elim (h.links link) id
  · intro p hm
    rcases hf.pending p hm with hm | ⟨q, hq, outer, ho, rfl⟩
    · obtain ⟨hm, hne⟩ := List.mem_filter.1 hm
      obtain ⟨hmem, hl⟩ := h.pending p hm
      exact ⟨(List.mem_cons.1 hmem).resolve_left (by simpa using hne), hl⟩
    · obtain ⟨rest, rfl⟩ := List.head?_eq_some_iff.1 ho
      exact ⟨List.mem_cons_self, (h.pending q (List.mem_of_mem_filter hq)).2⟩
  · intro p hm
    rw [hf.nodes]
    rcases hf.dropped p hm with hm | ⟨hm, hr, hd⟩
    · obtain ⟨hr, ho⟩ := h.dropped p hm
      exact ⟨hr, ho.imp_right fun ho => ho.next (.close o os n m s)⟩
    · have hl := (h.pending p (List.mem_of_mem_filter hm)).2
      refine ⟨hr, hd.imp_right fun hd => ⟨?_, .inl (List.head?_eq_none_iff.1 hd)⟩⟩
      exact Nat.lt_of_lt_of_eq (Nat.lt_succ_self _) hl

/-- Every step of a reading keeps the account. -/
theorem Accounts.next {l : Ledger} {a b : Spot} {j j' : Journal} (h : l.Accounts a j)
    (hn : a.Next b j') : (j'.foldl step l).Accounts b (j ++ j') := by
  cases hn with
  | stay => simpa using h
  | layer n m s path =>
    exact h.declare (.layer n m s path) fun p hp => by cases (h.pending p hp).1
  | machine o os n m s path =>
    exact h.declare (.machine o os n m s path) fun p hp =>
      ⟨List.mem_cons_of_mem _ (h.pending p hp).1, (h.pending p hp).2⟩
  | state o os n m s path => exact h.declare (.state o os n m s path) h.pending
  | stateEnd os id n m s =>
    rw [List.append_nil]
    exact ⟨h.nodes, h.all, h.links, h.pending, h.dropped⟩
  | queue o os state n m s groups hw ht =>
    refine ⟨?_, ?_, h.links, ?_, h.dropped⟩
    · rw [Journal.nodes_append, h.nodes.symm]; exact (List.append_nil _).symm
    · have hall : (l.step (.queue groups)).all = l.all ++ groups := by simp [step, Ledger.all]
      rw [Journal.groups_append, List.map_append, List.foldl_cons, List.foldl_nil, hall,
        List.map_append]
      simpa [Journal.groups] using h.all.append_right _
    · intro p hp
      rcases List.mem_append.1 hp with hp | hp
      · exact h.pending p hp
      · obtain ⟨ho, hl, -⟩ := hw p hp
        exact ⟨by rw [ho]; exact List.mem_cons_self, by rw [hl]⟩
  | close o os n m s => exact h.close

end Ledger

theorem Written.accounts {a : Spot} {j : Journal} (h : Written a j) : j.ledger.Accounts a j := by
  induction h with
  | start => exact ⟨rfl, .refl _, by simp [Journal.ledger], by simp [Journal.ledger],
      by simp [Journal.ledger]⟩
  | step h hn ih =>
    rw [Journal.ledger_append]
    exact ih.next hn

end MotionScript
