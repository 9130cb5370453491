import Mathlib.Data.List.Perm.Subperm
import MotionScript.Proofs.Ownership.Growth
/-!
# What a reading reports

A reading warns about the document and hands the objects of its graph to the host. Every warning
points at one place, no name is given to two objects, and at every moment the host has been handed
exactly the objects that the graph has.
-/

namespace MotionScript

/-! ## Fresh names -/

/-- The candidates for the name of an object. -/
def numbered (base : String) (n : Nat) : String := if n = 0 then base else base ++ toString n

theorem numbered_injective (base : String) : Function.Injective (numbered base) := by
  intro m n h
  unfold numbered at h
  have hlist := congrArg String.toList h
  split at hlist <;> split at hlist
  · omega
  · simp at hlist
  · simp at hlist
  · simp only [String.toList_append, List.append_cancel_left_eq] at hlist
    have hvalue := congrArg (fun ds => Nat.ofDigitChars 10 ds 0) hlist
    simpa [Nat.toString_eq_ofList_toDigits] using hvalue

/-- The search for a fresh name ends behind the first candidate that is not used, and one of the
first is not, for there are more of them than used names. -/
theorem freshName_first (used : List String) (base : String) :
    ∃ n ≤ used.length, freshName used base = numbered base n ∧ numbered base n ∉ used ∧
      ∀ m < n, numbered base m ∈ used := by
  have hname : freshName used base = (((List.range (used.length + 1)).map (numbered base)).find?
      (!used.contains ·)).getD base := rfl
  rw [hname, List.find?_map]
  cases hfind : (List.range (used.length + 1)).find? ((!used.contains ·) ∘ numbered base) with
  | none =>
    have hused : (List.range (used.length + 1)).map (numbered base) ⊆ used := by
      intro name hname
      obtain ⟨n, hn, rfl⟩ := List.mem_map.1 hname
      simpa using List.find?_eq_none.1 hfind n hn
    have hnodup := (List.nodup_range (n := used.length + 1)).map (numbered_injective base)
    have hlength := (List.subperm_of_subset hnodup hused).length_le
    simp only [List.length_map, List.length_range] at hlength
    omega
  | some n =>
    obtain ⟨hfree, hn, hbefore⟩ := List.find?_range_eq_some.1 hfind
    refine ⟨n, Nat.le_of_lt_succ (List.mem_range.1 hn), rfl, by simpa using hfree, fun m hm => ?_⟩
    simpa using hbefore m hm

theorem freshName_notMem (used : List String) (base : String) : freshName used base ∉ used := by
  obtain ⟨n, -, hname, hfree, -⟩ := freshName_first used base
  exact hname ▸ hfree

/-! ## Objects of a graph -/

def Motion.isTree : Motion → Bool
  | clip _ => false
  | tree _ => true

@[simp]
theorem Motion.isTree_modifyTree (f : BlendTree → BlendTree) (m : Motion) :
    (m.modifyTree f).isTree = m.isTree := by
  cases m <;> rfl

namespace Controller

/-- Whether a graph has an object that is stored: itself, a machine, a state, a transition, a record
or a blend tree. Layers and clips are not stored. -/
def stores (c : Controller) : ObjectRef → Bool
  | .controller => true
  | .layer _ => false
  | .machine id => id.index < c.machines.size
  | .state id => id.index < c.states.size
  | .transition id => id.index < c.transitions.size
  | .motion id => c.motions[id.index]?.any Motion.isTree
  | .record id => id.index < c.records.size

variable (c : Controller)

@[simp]
theorem stores_modifyLayer (i : Nat) (f : Layer → Layer) : (c.modifyLayer i f).stores = c.stores :=
  rfl

@[simp]
theorem stores_modifyMachine (id : MachineId) (f : Machine → Machine) :
    (c.modifyMachine id f).stores = c.stores := by
  funext object
  cases object with
  | machine => simp [stores, modifyMachine]
  | _ => rfl

@[simp]
theorem stores_modifyState (id : StateId) (f : State → State) :
    (c.modifyState id f).stores = c.stores := by
  funext object
  cases object with
  | state => simp [stores, modifyState]
  | _ => rfl

@[simp]
theorem stores_modifyRecord (id : RecordId) (f : Record → Record) :
    (c.modifyRecord id f).stores = c.stores := by
  funext object
  cases object with
  | record => simp [stores, modifyRecord]
  | _ => rfl

@[simp]
theorem stores_modifyTree (id : MotionId) (f : BlendTree → BlendTree) :
    (c.modifyMotion id (·.modifyTree f)).stores = c.stores := by
  funext object
  cases object with
  | motion other =>
    simp only [stores, modifyMotion, Array.getElem?_modify]
    split
    · cases c.motions[other.index]? <;> simp
    · rfl
  | _ => rfl

@[simp]
theorem stores_attach (home : Home) (id : TransitionId) : (c.attach home id).stores = c.stores := by
  cases home <;> simp [attach]

@[simp]
theorem stores_addLayer (layer : Layer) : (c.addLayer layer).2.stores = c.stores := rfl

variable {c}

theorem Edit.stores {c' : Controller} (h : c.Edit c') : c'.stores = c.stores := by
  cases h with
  | same | parameter => rfl
  | layer i f => exact c.stores_modifyLayer i f
  | state id f => exact c.stores_modifyState id f
  | tree id f => exact c.stores_modifyTree id f
  | record id f => exact c.stores_modifyRecord id f

variable (c)

theorem decide_lt_succ (i n : Nat) : decide (i < n + 1) = (decide (i < n) || decide (i = n)) := by
  rw [decide_eq_decide.2 Nat.lt_succ_iff_lt_or_eq, Bool.decide_or]

/-- Whether a graph has one more object that is stored than another one. -/
structure Gains (object : ObjectRef) (c' : Controller) : Prop where
  new : c.stores object = false
  stores : ∀ other, c'.stores other = (c.stores other || decide (other = object))

theorem gains_machine (m : Machine) : c.Gains (.machine ⟨c.machines.size⟩) (c.addMachine m).2 := by
  refine ⟨by simp [stores], fun object => ?_⟩
  cases object with
  | machine id =>
    obtain ⟨i⟩ := id
    simp only [stores, addMachine, Array.size_push, decide_lt_succ, ObjectRef.machine.injEq,
      MachineId.mk.injEq]
  | _ => exact (Bool.or_false _).symm

theorem gains_state (s : State) : c.Gains (.state ⟨c.states.size⟩) (c.addState s).2 := by
  refine ⟨by simp [stores], fun object => ?_⟩
  cases object with
  | state id =>
    obtain ⟨i⟩ := id
    simp only [stores, addState, Array.size_push, decide_lt_succ, ObjectRef.state.injEq,
      StateId.mk.injEq]
  | _ => exact (Bool.or_false _).symm

theorem gains_transition (t : Transition) :
    c.Gains (.transition ⟨c.transitions.size⟩) (c.addTransition t).2 := by
  refine ⟨by simp [stores], fun object => ?_⟩
  cases object with
  | transition id =>
    obtain ⟨i⟩ := id
    simp only [stores, addTransition, Array.size_push, decide_lt_succ, ObjectRef.transition.injEq,
      TransitionId.mk.injEq]
  | _ => exact (Bool.or_false _).symm

theorem gains_record (r : Record) : c.Gains (.record ⟨c.records.size⟩) (c.addRecord r).2 := by
  refine ⟨by simp [stores], fun object => ?_⟩
  cases object with
  | record id =>
    obtain ⟨i⟩ := id
    simp only [stores, addRecord, Array.size_push, decide_lt_succ, ObjectRef.record.injEq,
      RecordId.mk.injEq]
  | _ => exact (Bool.or_false _).symm

theorem gains_tree (t : BlendTree) :
    c.Gains (.motion ⟨c.motions.size⟩) (c.addMotion (.tree t)).2 := by
  refine ⟨by simp [stores], fun object => ?_⟩
  cases object with
  | motion id =>
    obtain ⟨i⟩ := id
    simp only [stores, addMotion, Array.getElem?_push]
    split
    · simp [Motion.isTree, *]
    · simp [*]
  | _ => exact (Bool.or_false _).symm

@[simp]
theorem stores_addClip (asset : Asset) : (c.addMotion (.clip asset)).2.stores = c.stores := by
  funext object
  cases object with
  | motion id =>
    simp only [stores, addMotion, Array.getElem?_push]
    split
    · simp [Motion.isTree, *]
    · rfl
  | _ => rfl

variable {c} {object : ObjectRef} {c' c'' : Controller}

theorem Gains.of_eq (h : c.Gains object c') (hc : c''.stores = c'.stores) : c.Gains object c'' :=
  ⟨h.new, hc ▸ h.stores⟩

end Controller

/-! ## Books of a session -/

/-- Whether a diagnostic points at one place: it has a code, a position and one label, on a span of
which `P` holds. -/
structure Diagnostic.Points (d : Diagnostic) (P : Span → Prop) : Prop where
  code : d.code.isSome
  position : d.position.isSome
  label : ∃ label, d.labels = [label] ∧ P label.span

/-- What becomes of a host that is asked for references and shown warnings, and that is handed the
listed objects, each with its name. -/
inductive Host.Told {η : Type} [Host η] : η → List (ObjectRef × String) → η → Prop where
  | nothing (h : η) : Told h [] h
  | resolve {h h' : η} {stored : List (ObjectRef × String)} (ht : Told h stored h')
    (reference : String) (kind : AssetKind) : Told h stored (Host.resolve h' reference kind).2
  | warn {h h' : η} {stored : List (ObjectRef × String)} (ht : Told h stored h')
    (message : String) : Told h stored (Host.warn h' message)
  | persist {h h' : η} {stored : List (ObjectRef × String)} (ht : Told h stored h')
    (object : ObjectRef) (name : String) :
    Told h (stored ++ [(object, name)]) (Host.persist h' object name)

/-- What a session keeps besides the graph and its tables. -/
structure Books (η : Type) where
  host : η
  pending : List Pending
  syncs : List (Nat × NameUse)
  usedNames : List String
  warnings : List Diagnostic

def Session.books {η : Type} (s : Session η) : Books η :=
  ⟨s.host, s.pending, s.syncs, s.usedNames, s.warnings⟩

/-- Whether books are right about a graph: since the reading began with `host`, the objects of the
graph have been stored under different names. What waits and what was warned of is at places of
which `P` holds. -/
structure Books.Right {η : Type} [Host η] (P : Span → Prop) (host : η) (c : Controller)
    (b : Books η) : Prop where
  pending : ∀ p ∈ b.pending, P p.span
  syncs : ∀ sync ∈ b.syncs, P sync.2.span
  warnings : ∀ d ∈ b.warnings, d.Points P
  names : b.usedNames.Nodup
  stored : ∃ stored, Host.Told host stored b.host ∧ stored.map (·.2) = b.usedNames.reverse ∧
    ∀ object, (stored.map (·.1)).count object = if c.stores object then 1 else 0

theorem Session.dropWarning_points {η : Type} (s : Session η) {P : Span → Prop} {p : Pending}
    (hp : P p.span) (unknown : Option Path) : (s.dropWarning p unknown).Points P := by
  refine ⟨rfl, rfl, ⟨p.span, "in this transition"⟩, ?_, hp⟩
  unfold dropWarning
  split <;> rfl

variable {η : Type} [Host η]

namespace Books.Right

variable {P : Span → Prop} {host : η} {c c' : Controller} {s : Session η}

theorem of_eq {b : Books η} (h : b.Right P host c) (hc : c'.stores = c.stores) :
    b.Right P host c' :=
  { h with stored := hc ▸ h.stored }

theorem warn (h : s.books.Right P host c) {d : Diagnostic} (hd : d.Points P) :
    (s.warn d).books.Right P host c := by
  obtain ⟨stored, htold, hnames, hcount⟩ := h.stored
  refine ⟨h.pending, h.syncs, fun d' hd' => ?_, h.names,
    stored, htold.warn d.message, hnames, hcount⟩
  rcases List.mem_append.1 hd' with hd' | hd'
  · exact h.warnings d' hd'
  · exact List.mem_singleton.1 hd' ▸ hd

theorem resolve (h : s.books.Right P host c) (reference : String) (kind : AssetKind) :
    (s.resolve reference kind).2.books.Right P host c := by
  obtain ⟨stored, htold, hnames, hcount⟩ := h.stored
  exact ⟨h.pending, h.syncs, h.warnings, h.names,
    stored, htold.resolve reference kind, hnames, hcount⟩

/-- An object that is new in the graph is stored. -/
theorem persist (h : s.books.Right P host c) {object : ObjectRef} (hc : c.Gains object c')
    (hint : List String) (name : String) : (s.persist hint object name).books.Right P host c' := by
  obtain ⟨stored, htold, hnames, hcount⟩ := h.stored
  refine ⟨h.pending, h.syncs, h.warnings, List.nodup_cons.2 ⟨freshName_notMem _ _, h.names⟩,
    _, htold.persist object _, ?_, fun other => ?_⟩
  · rw [List.map_append, hnames]
    exact (List.reverse_cons ..).symm
  · rw [List.map_append, List.count_append, hcount, hc.stores]
    by_cases ho : other = object
    · subst ho
      simp [hc.new]
    · simp [ho, Ne.symm ho]

theorem register (h : s.books.Right P host c) (layer : Nat) (path : Path) (node : NodeRef)
    {e : Event} (he : P e.span) : (s.register layer path node e).books.Right P host c := by
  unfold Session.register
  split
  · exact h.warn ⟨rfl, rfl, _, rfl, he⟩
  · exact h

/-! ## Linking -/

theorem linkTo (h : s.books.Right P host s.controller) (p : Pending) (d : Destination) :
    (s.linkTo p d).books.Right P host (s.linkTo p d).controller :=
  Books.Right.persist (s := { s with controller := _ }) h
    ((s.controller.gains_transition _).of_eq (Controller.stores_attach _ _ _)) _ _

theorem link (h : s.books.Right P host s.controller) {p : Pending} (hp : P p.span)
    (parent : Option MachineId) :
    (Session.link parent s p).books.Right P host (Session.link parent s p).controller := by
  unfold Session.link
  split
  · exact h.linkTo p _
  · exact h.warn (s.dropWarning_points hp none)
  · refine { h with pending := fun q hq => ?_ }
    rcases List.mem_append.1 hq with hq | hq
    · exact h.pending q hq
    · exact List.mem_singleton.1 hq ▸ hp
  · exact h.warn (s.dropWarning_points hp _)

theorem linkScope (h : s.books.Right P host s.controller) (machine : MachineId)
    (parent : Option MachineId) :
    (s.linkScope machine parent).books.Right P host (s.linkScope machine parent).controller := by
  have all (ps : List Pending) (hps : ∀ p ∈ ps, P p.span) {s : Session η}
      (h : s.books.Right P host s.controller) :
      (ps.foldl (Session.link parent) s).books.Right P host
        (ps.foldl (Session.link parent) s).controller := by
    induction ps generalizing s with
    | nil => exact h
    | cons p ps ih =>
      exact ih (fun q hq => hps q (List.mem_cons_of_mem _ hq)) (h.link (hps p List.mem_cons_self) _)
  unfold Session.linkScope
  rw [List.partition_eq_filter_filter]
  refine all _ (fun p hp => h.pending p (List.mem_of_mem_filter hp)) { h with pending := ?_ }
  exact fun p hp => h.pending p (List.mem_of_mem_filter hp)

theorem linkDefault (h : s.books.Right P host s.controller) (machine : MachineId) (layer : Nat)
    (path : Path) {use : NameUse} (hu : P use.span) :
    (s.linkDefault machine layer path use).books.Right P host
      (s.linkDefault machine layer path use).controller := by
  unfold Session.linkDefault
  extract_lets target
  split
  · exact h.of_eq (Controller.stores_modifyMachine _ _ _)
  · exact h.warn ⟨rfl, rfl, _, rfl, hu⟩

theorem linkSyncs (h : s.books.Right P host s.controller) :
    s.linkSyncs.books.Right P host s.linkSyncs.controller := by
  have one (layer : Nat) {use : NameUse} (hu : P use.span) {s : Session η}
      (h : s.books.Right P host s.controller) :
      (s.linkSync layer use).books.Right P host (s.linkSync layer use).controller := by
    unfold Session.linkSync
    split
    · exact h.of_eq (Controller.stores_modifyLayer _ _ _)
    · exact h.warn ⟨rfl, rfl, _, rfl, hu⟩
  have all (syncs : List (Nat × NameUse)) (hsyncs : ∀ sync ∈ syncs, P sync.2.span)
      {s : Session η} (h : s.books.Right P host s.controller) :
      (syncs.foldl (fun s sync => s.linkSync sync.1 sync.2) s).books.Right P host
        (syncs.foldl (fun s sync => s.linkSync sync.1 sync.2) s).controller := by
    induction syncs generalizing s with
    | nil => exact h
    | cons sync syncs ih =>
      exact ih (fun q hq => hsyncs q (List.mem_cons_of_mem _ hq))
        (one sync.1 (hsyncs sync List.mem_cons_self) h)
  exact all s.syncs h.syncs { h with syncs := by simp [Session.books] }

end Books.Right

end MotionScript
