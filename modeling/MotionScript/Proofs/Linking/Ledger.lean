import Mathlib.Data.List.Basic
import MotionScript.Proofs.Linking.Stack
/-!
# The ledger of linking

A reading is summed up by a journal of declared nodes, queued transitions and closed machines. The
ledger is what this journal means: which transitions wait, which are linked where, and which are
dropped. In every reading the wiring shows the ledger of its journal.
-/

namespace MotionScript

/-! ## Journals -/

/-- A node with its layer and its path. -/
abbrev Declared := Nat × Path × NodeRef

/-- What a reading does that concerns linking. -/
inductive Entry where
  | declare (node : Declared)
  /-- The transitions of a statement, one for each alternative. -/
  | queue (groups : List Pending)
  /-- A machine ends below `parent`. -/
  | close (machine : MachineId) (parent : Option MachineId)

abbrev Journal := List Entry

namespace Journal

/-- The declared nodes, in order. -/
def nodes (j : Journal) : List Declared :=
  j.filterMap fun
    | .declare node => some node
    | _ => none

/-- The queued transitions, in order. -/
def groups (j : Journal) : List Pending :=
  j.flatMap fun
    | .queue groups => groups
    | _ => []

@[simp]
theorem nodes_append (j j' : Journal) : (j ++ j').nodes = j.nodes ++ j'.nodes :=
  List.filterMap_append

@[simp]
theorem groups_append (j j' : Journal) : (j ++ j').groups = j.groups ++ j'.groups :=
  List.flatMap_append

end Journal

/-- The first node of a layer with a path. -/
def firstNode? (nodes : List Declared) (layer : Nat) (path : Path) : Option NodeRef :=
  (nodes.find? fun node => node.1 = layer ∧ node.2.1 = path).map (·.2.2)

/-- The destination that leads to a node. -/
def NodeRef.destination : NodeRef → Destination
  | state id => .state id
  | machine id => .machine id

/-- Where a waiting transition leads among the declared nodes. -/
def Pending.resolve? (p : Pending) (nodes : List Declared) : Option Destination :=
  match p.target with
  | .exit => some .exit
  | .missing => none
  | .node path => (firstNode? nodes p.layer path).map NodeRef.destination

/-- The transition once it is known where it leads. -/
def Pending.linked (p : Pending) (destination : Destination) : Transition :=
  { p.transition with destination }

/-- Where a statement is written. -/
def Pending.place (p : Pending) : Span × Position := (p.span, p.position)

/-- Where the source of a warning is written. -/
def Diagnostic.place? (d : Diagnostic) : Option (Span × Position) :=
  d.labels.head?.bind fun label => d.position.map fun position => (label.span, position)

/-! ## Ledgers -/

structure Ledger where
  nodes : List Declared := []
  pending : List Pending := []
  /-- Linked transitions, in the order in which they were linked. -/
  links : List (Pending × Destination) := []
  dropped : List Pending := []

namespace Ledger

/-- Links a transition, carries it to `parent`, or drops it. -/
def link (parent : Option MachineId) (l : Ledger) (p : Pending) : Ledger :=
  match p.resolve? l.nodes, parent with
  | some destination, _ => { l with links := l.links ++ [(p, destination)] }
  | none, some parent =>
    if p.target = .missing then { l with dropped := l.dropped ++ [p] }
    else { l with pending := l.pending ++ [{ p with owner := parent }] }
  | none, none => { l with dropped := l.dropped ++ [p] }

def step (l : Ledger) : Entry → Ledger
  | .declare node => { l with nodes := l.nodes ++ [node] }
  | .queue groups => { l with pending := l.pending ++ groups }
  | .close machine parent =>
    (l.pending.filter (·.owner = machine)).foldl (link parent)
      { l with pending := l.pending.filter (·.owner ≠ machine) }

end Ledger

def Journal.ledger (j : Journal) : Ledger := j.foldl Ledger.step {}

theorem Journal.ledger_append (j j' : Journal) :
    (j ++ j').ledger = j'.foldl Ledger.step j.ledger := List.foldl_append

/-- The journal entries of a hook call. -/
def Grammar.Call.entries {η : Type} [Host η] : Grammar.Call Frame (Session η) → List Entry
  | .token e f s =>
    (f.declared? e s).toList.map .declare ++
      match f with
      | .transition r => [.queue (r.queuedBy s.controller e)]
      | _ => []
  | .detach (.machine (.named m _)) _ => [.close m.scope.machine m.parent]
  | _ => []

/-- The calls of hooks by which a document is read. -/
def Document.calls {η : Type} [Host η] (source name : String) (host : η) :
    List (Grammar.Call Frame (Session η)) :=
  (Grammar.document η).calls .document Frame.document source { controller := { name }, host }

/-- What reading a document does that concerns linking. -/
def Document.journal {η : Type} [Host η] (source name : String) (host : η) : Journal :=
  (Document.calls source name host).flatMap Grammar.Call.entries

/-! ## The wiring shows the ledger -/

namespace Wiring

/-- The ids in the list that a home stands for. -/
def ids (w : Wiring) : Home → List TransitionId
  | .entry m => (w.machines.getD m.index ([], [])).1
  | .any m => (w.machines.getD m.index ([], [])).2
  | .state s => w.states.getD s.index []

end Wiring

/-- Whether the list of a home exists. -/
def Home.Within (w : Wiring) : Home → Prop
  | .entry m | .any m => m.index < w.machines.size
  | .state s => s.index < w.states.size

/-- The ids of the linked transitions of a home: their places in the order of linking. -/
def Ledger.ids (l : Ledger) (home : Home) : List TransitionId :=
  (l.links.zipIdx.filter fun (link, _) => link.1.home = home).map fun (_, i) => ⟨i⟩

structure Shows (w : Wiring) (l : Ledger) : Prop where
  nodes : ∀ layer path, w.node? layer path = firstNode? l.nodes layer path
  pending : w.pending = l.pending
  transitions : w.transitions.toList = l.links.map fun (p, d) => p.linked d
  ids : ∀ home, w.ids home = l.ids home
  dropped : w.dropped.map Diagnostic.place? = l.dropped.map fun p => some p.place
  within : ∀ p ∈ l.pending ++ l.links.map (·.1), p.home.Within w

theorem Session.ids_wiring {η : Type} (s : Session η) (home : Home) :
    s.wiring.ids home = s.controller.transitionIds home := by
  cases home with
  | entry m | any m =>
    simp only [Wiring.ids, Session.wiring, Controller.transitionIds, Controller.machine,
      Array.getD_eq_getD_getElem?, Array.getElem?_map]
    cases s.controller.machines[m.index]? <;> rfl
  | state i =>
    simp only [Wiring.ids, Session.wiring, Controller.transitionIds, Controller.state,
      Array.getD_eq_getD_getElem?, Array.getElem?_map]
    cases s.controller.states[i.index]? <;> rfl

theorem Ledger.ids_link (l : Ledger) (p : Pending) (d : Destination) (home : Home) :
    ({ l with links := l.links ++ [(p, d)] } : Ledger).ids home =
      l.ids home ++ if p.home = home then [⟨l.links.length⟩] else [] := by
  simp only [Ledger.ids, List.zipIdx_append, List.filter_append, List.map_append]
  congr 1
  by_cases h : p.home = home <;> simp [h]

/-! ## Linking one transition -/

namespace Wiring

/-- Adds an id to the list of a home. -/
def attach (w : Wiring) (home : Home) (id : TransitionId) : Wiring :=
  match home with
  | .entry m => { w with machines := w.machines.modify m.index fun (a, b) => (a ++ [id], b) }
  | .any m => { w with machines := w.machines.modify m.index fun (a, b) => (a, b ++ [id]) }
  | .state s => { w with states := w.states.modify s.index (· ++ [id]) }

/-- Adds a linked transition. -/
def link (w : Wiring) (p : Pending) (d : Destination) : Wiring :=
  { w with transitions := w.transitions.push (p.linked d) }.attach p.home ⟨w.transitions.size⟩

theorem attach_fields (w : Wiring) (home : Home) (id : TransitionId) :
    (w.attach home id).transitions = w.transitions ∧ (w.attach home id).symbols = w.symbols ∧
      (w.attach home id).pending = w.pending ∧ (w.attach home id).dropped = w.dropped ∧
      (w.attach home id).layers = w.layers ∧
      (w.attach home id).machines.size = w.machines.size ∧
      (w.attach home id).states.size = w.states.size := by
  cases home <;> simp [attach]

theorem getD_modify {α : Type} (xs : Array α) (i j : Nat) (f : α → α) (x : α)
    (hi : i < xs.size) :
    (xs.modify i f).getD j x = if i = j then f (xs.getD j x) else xs.getD j x := by
  by_cases hij : i = j
  · subst hij
    simp [Array.getD_eq_getD_getElem?, hi, Array.getElem_modify]
  · simp [Array.getD_eq_getD_getElem?, Array.getElem?_modify, hij]

theorem ids_attach (w : Wiring) (home home' : Home) (id : TransitionId) (h : home.Within w) :
    (w.attach home id).ids home' = w.ids home' ++ if home = home' then [id] else [] := by
  rcases home with ⟨⟨i⟩⟩ | ⟨⟨i⟩⟩ | ⟨⟨i⟩⟩ <;> rcases home' with ⟨⟨k⟩⟩ | ⟨⟨k⟩⟩ | ⟨⟨k⟩⟩ <;>
    simp only [Home.Within] at h <;> simp [attach, ids, -Array.getD_eq_getD_getElem?]
  all_goals
    rw [getD_modify _ _ _ _ _ h]
    split <;> simp_all

end Wiring

theorem Home.Within.mono {home : Home} {w w' : Wiring} (h : home.Within w)
    (hm : w.machines.size ≤ w'.machines.size) (hs : w.states.size ≤ w'.states.size) :
    home.Within w' := by
  cases home with
  | entry m | any m => exact Nat.lt_of_lt_of_le (show m.index < w.machines.size from h) hm
  | state s => exact Nat.lt_of_lt_of_le (show s.index < w.states.size from h) hs

theorem Shows.link {w : Wiring} {l : Ledger} (h : Shows w l) (p : Pending) (d : Destination)
    (hp : p.home.Within w) :
    Shows (w.link p d) { l with links := l.links ++ [(p, d)] } := by
  obtain ⟨h1, h2, h3, h4, h5, h6, h7⟩ :=
    Wiring.attach_fields { w with transitions := w.transitions.push (p.linked d) } p.home
      ⟨w.transitions.size⟩
  have hlen : w.transitions.size = l.links.length := by
    rw [← Array.length_toList, h.transitions, List.length_map]
  refine ⟨?_, ?_, ?_, ?_, ?_, ?_⟩
  · intro layer path
    simp only [Wiring.link, Wiring.node?, h2]
    exact h.nodes layer path
  · simp only [Wiring.link, h3]
    exact h.pending
  · simp only [Wiring.link, h1, Array.toList_push, h.transitions, List.map_append, List.map_cons,
      List.map_nil]
  · intro home
    rw [Ledger.ids_link, ← h.ids, ← hlen]
    exact Wiring.ids_attach _ _ _ _ hp
  · simp only [Wiring.link, h4]
    exact h.dropped
  · intro q hq
    have hq' : q.home.Within w := by
      simp only [List.map_append, List.map_cons, List.map_nil, ← List.append_assoc] at hq
      rcases List.mem_append.1 hq with hq | hq
      · exact h.within q hq
      · rw [List.mem_singleton.1 hq]; exact hp
    exact hq'.mono (Nat.le_of_eq h6.symm) (Nat.le_of_eq h7.symm)

variable {η : Type} [Host η]

theorem Session.wiring_linkTo (s : Session η) (p : Pending) (d : Destination) :
    (s.linkTo p d).wiring = s.wiring.link p d := by
  have map_modify' {α β : Type} (xs : Array α) (i : Nat) (f : α → α) (g : α → β) (f' : β → β)
      (h : ∀ x, g (f x) = f' (g x)) : (xs.modify i f).map g = (xs.map g).modify i f' := by
    apply Array.ext
    · simp
    · intro j hj _
      simp only [Array.getElem_map, Array.getElem_modify]
      split <;> simp [h]
  unfold linkTo
  rw [wiring_persist]
  cases hh : p.home <;>
    simp only [Wiring.link, Wiring.attach, hh, Session.wiring, Controller.attach,
      Controller.addTransition, Controller.modifyMachine, Controller.modifyState, Pending.linked,
      Wiring.mk.injEq, true_and, and_true]
  · exact map_modify' _ _ _ _ _ fun _ => rfl
  · exact map_modify' _ _ _ _ _ fun _ => rfl
  · exact map_modify' _ _ _ _ _ fun _ => rfl

omit [Host η] in
theorem Session.resolution_eq {s : Session η} {l : Ledger} (h : Shows s.wiring l) (p : Pending) :
    match p.resolve? l.nodes with
    | some d => s.resolution p = .found d
    | none => (p.target = .missing ∧ s.resolution p = .missing) ∨
      ∃ path, p.target = .node path ∧ s.resolution p = .unknown path := by
  have hn (path : Path) : s.lookup? p.layer path = firstNode? l.nodes p.layer path :=
    h.nodes p.layer path
  unfold Pending.resolve? Session.resolution
  cases p.target with
  | exit => rfl
  | missing => exact .inl ⟨rfl, rfl⟩
  | node path =>
    simp only [hn]
    cases firstNode? l.nodes p.layer path with
    | none => exact .inr ⟨path, rfl, rfl⟩
    | some node => cases node <;> rfl

omit [Host η] in
theorem Session.dropWarning_place (s : Session η) (p : Pending) (unknown : Option Path) :
    (s.dropWarning p unknown).isDrop = true ∧ (s.dropWarning p unknown).place? = some p.place := by
  unfold dropWarning
  split <;> exact ⟨rfl, rfl⟩

theorem Session.shows_warn {s : Session η} {l : Ledger} (h : Shows s.wiring l) (p : Pending)
    (unknown : Option Path) :
    Shows (s.warn (s.dropWarning p unknown)).wiring { l with dropped := l.dropped ++ [p] } := by
  obtain ⟨hd, hp⟩ := s.dropWarning_place p unknown
  refine ⟨h.nodes, h.pending, h.transitions, h.ids, ?_, h.within⟩
  have hw := h.dropped
  simp only [Session.wiring] at hw
  simp [Session.wiring, Session.warn, hd, hp, hw]

theorem Shows.linkOne {s : Session η} {l : Ledger} (h : Shows s.wiring l)
    (parent : Option MachineId) (p : Pending) (hp : p.home.Within s.wiring) :
    Shows (s.link parent p).wiring (l.link parent p) := by
  have hr := s.resolution_eq h p
  unfold Session.link Ledger.link
  cases hd : p.resolve? l.nodes with
  | some d =>
    rw [hd] at hr
    simp only at hr
    rw [hr, s.wiring_linkTo]
    exact h.link p d hp
  | none =>
    rw [hd] at hr
    rcases hr with ⟨ht, hr⟩ | ⟨path, ht, hr⟩
    · rw [hr]
      cases parent <;> simp only [ht, if_true] <;> exact s.shows_warn h p none
    · rw [hr]
      cases parent with
      | none => exact s.shows_warn h p _
      | some parent =>
        simp only [ht, reduceCtorEq, if_false]
        refine ⟨h.nodes, ?_, h.transitions, h.ids, h.dropped, ?_⟩
        · show s.pending ++ _ = _
          rw [show s.pending = l.pending from h.pending]
        · intro q hq
          simp only [List.append_assoc, List.mem_append, List.mem_singleton] at hq
          rcases hq with hq | rfl | hq
          · exact h.within q (List.mem_append_left _ hq)
          · exact hp
          · exact h.within q (List.mem_append_right _ hq)

end MotionScript
