import MotionScript.Proofs.Feeding.States
/-!
# What items of a machine add

Items of a machine add nodes behind those there are, and join the lists of the machine. What has been
added lasts while further items are read.
-/

namespace MotionScript

open Canonical (Line)

variable {κ : Knowledge}

/-! ## Items of machines -/

/-- What a machine has in its lists. -/
inductive Item where
  | state (id : StateId)
  | machine (id : MachineId)
  | record (id : RecordId)

namespace Item

def state? : Item → Option StateId
  | state id => some id
  | _ => none

def machine? : Item → Option MachineId
  | machine id => some id
  | _ => none

def record? : Item → Option RecordId
  | record id => some id
  | _ => none

end Item

/-- A machine with further items. -/
def Machine.withItems (m : Machine) (xs : List Item) : Machine :=
  { m with
    states := m.states ++ (xs.filterMap Item.state?).map (⟨·, none⟩)
    machines := m.machines ++ (xs.filterMap Item.machine?).map (⟨·, none⟩)
    records := m.records ++ xs.filterMap Item.record? }

@[simp]
theorem Machine.withItems_nil (m : Machine) : m.withItems [] = m := by
  simp [withItems]

@[simp]
theorem Machine.withItems_append (m : Machine) (xs ys : List Item) :
    m.withItems (xs ++ ys) = (m.withItems xs).withItems ys := by
  simp [withItems]

/-! ## What lasts -/

namespace Outline

/-- Whether an outline has at most as many nodes as another one. -/
structure Smaller (o o' : Outline) : Prop where
  machines : o.controller.machines.size ≤ o'.controller.machines.size
  states : o.controller.states.size ≤ o'.controller.states.size
  motions : o.controller.motions.size ≤ o'.controller.motions.size
  records : o.controller.records.size ≤ o'.controller.records.size

theorem Smaller.trans {o o₁ o₂ : Outline} (h : o.Smaller o₁) (h' : o₁.Smaller o₂) : o.Smaller o₂ where
  machines := Nat.le_trans h.machines h'.machines
  states := Nat.le_trans h.states h'.states
  motions := Nat.le_trans h.motions h'.motions
  records := Nat.le_trans h.records h'.records

/-- Whether a third outline has all nodes that the second one has and the first one has not, and all
paths of the second one. -/
structure Lasts (o o' O : Outline) : Prop where
  machines : AgreesOn o.controller.machines.size o'.controller.machines.size
    o'.controller.machines O.controller.machines
  states : AgreesOn o.controller.states.size o'.controller.states.size
    o'.controller.states O.controller.states
  motions : AgreesOn o.controller.motions.size o'.controller.motions.size
    o'.controller.motions O.controller.motions
  records : AgreesOn o.controller.records.size o'.controller.records.size
    o'.controller.records O.controller.records
  nodes : ∀ layer path node, o'.lookup? layer path = some node → O.lookup? layer path = some node

namespace Lasts

variable {o o₁ o₂ O : Outline}

theorem refl (o o' : Outline) : o.Lasts o' o' where
  machines := .refl _ _ _
  states := .refl _ _ _
  motions := .refl _ _ _
  records := .refl _ _ _
  nodes _ _ _ h := h

theorem trans (h : o.Lasts o₁ o₂) (hs : o₁.Smaller o₂) (h' : o.Lasts o₂ O) : o.Lasts o₁ O where
  machines := h.machines.trans (h'.machines.mono (Nat.le_refl _) hs.machines)
  states := h.states.trans (h'.states.mono (Nat.le_refl _) hs.states)
  motions := h.motions.trans (h'.motions.mono (Nat.le_refl _) hs.motions)
  records := h.records.trans (h'.records.mono (Nat.le_refl _) hs.records)
  nodes layer path node hn := h'.nodes layer path node (h.nodes layer path node hn)

theorem mono (hs : o.Smaller o₁) (h : o.Lasts o₂ O) : o₁.Lasts o₂ O where
  machines := h.machines.mono hs.machines (Nat.le_refl _)
  states := h.states.mono hs.states (Nat.le_refl _)
  motions := h.motions.mono hs.motions (Nat.le_refl _)
  records := h.records.mono hs.records (Nat.le_refl _)
  nodes := h.nodes

end Lasts

end Outline

/-- Whether a list belongs to a node that the second outline has and the first one has not. -/
def Home.Added (o o' : Outline) : Home → Prop
  | .entry m | .any m =>
    o.controller.machines.size ≤ m.index ∧ m.index < o'.controller.machines.size
  | .state s => o.controller.states.size ≤ s.index ∧ s.index < o'.controller.states.size

namespace Home.Added

variable {o o₁ o₂ : Outline} {home : Home}

theorem mono_right (hs : o₁.Smaller o₂) (h : home.Added o o₁) : home.Added o o₂ := by
  cases home with
  | entry m | any m => exact ⟨h.1, Nat.lt_of_lt_of_le h.2 hs.machines⟩
  | state s => exact ⟨h.1, Nat.lt_of_lt_of_le h.2 hs.states⟩

theorem mono_left (hs : o.Smaller o₁) (h : home.Added o₁ o₂) : home.Added o o₂ := by
  cases home with
  | entry m | any m => exact ⟨Nat.le_trans hs.machines h.1, h.2⟩
  | state s => exact ⟨Nat.le_trans hs.states h.1, h.2⟩

theorem apart (h : home.Added o o₁) : ¬home.Added o₁ o₂ := by
  cases home with
  | entry m | any m => exact fun h' => Nat.not_lt.2 h'.1 h.2
  | state s => exact fun h' => Nat.not_lt.2 h'.1 h.2

end Home.Added

theorem filter_home_eq_nil {gs : List Pending} {P : Home → Prop} (h : ∀ g ∈ gs, P g.home)
    {home : Home} (hn : ¬P home) : gs.filter (·.home = home) = [] := by
  refine List.filter_eq_nil_iff.2 fun g hg he => hn ?_
  rw [← of_decide_eq_true he]
  exact h g hg

/-- Whether what has been added lasts in an outline, and `G` are all transitions that wait for the
lists of the nodes added, which are among `gs`. -/
structure Outline.Kept (o o' : Outline) (gs : List Pending) (O : Outline) (G : List Pending) : Prop
    extends o.Lasts o' O where
  groups : ∀ home : Home, home.Added o o' → G.filter (·.home = home) = gs.filter (·.home = home)

namespace Outline.Kept

variable {o o₁ o₂ O : Outline} {gs gs₁ gs₂ G : List Pending}

theorem refl (o o' : Outline) (gs : List Pending) : o.Kept o' gs o' gs :=
  ⟨.refl o o', fun _ _ => rfl⟩

theorem first (h : o.Kept o₂ (gs₁ ++ gs₂) O G) (hl : o.Lasts o₁ o₂) (hs : o₁.Smaller o₂)
    (hg : ∀ g ∈ gs₂, g.home.Added o₁ o₂) : o.Kept o₁ gs₁ O G := by
  refine ⟨hl.trans hs h.toLasts, fun home hh => ?_⟩
  rw [h.groups home (hh.mono_right hs), List.filter_append, filter_home_eq_nil hg hh.apart,
    List.append_nil]

theorem second (h : o.Kept o₂ (gs₁ ++ gs₂) O G) (hs : o.Smaller o₁)
    (hg : ∀ g ∈ gs₁, g.home.Added o o₁) : o₁.Kept o₂ gs₂ O G := by
  refine ⟨.mono hs h.toLasts, fun home hh => ?_⟩
  rw [h.groups home (hh.mono_left hs), List.filter_append,
    filter_home_eq_nil hg fun hn => hn.apart hh, List.nil_append]

end Outline.Kept

/-! ## Growing -/

/-- An outline without its nodes and their paths. -/
def Outline.rest (o : Outline) : Outline :=
  { o with
    controller := { o.controller with machines := #[], states := #[], motions := #[], records := #[] }
    symbols := #[] }

/-- Whether no node has a path that starts with `path`. -/
def Outline.Free (o : Outline) (layer : Nat) (path : Path) : Prop :=
  ∀ entry ∈ o.symbols.getD layer [], ¬path.segments <+: entry.1.segments

theorem Outline.Free.lookup?_eq_none {o : Outline} {layer : Nat} {path : Path}
    (h : o.Free layer path) : o.lookup? layer path = none :=
  List.lookup_eq_none_iff.2 fun entry he => by
    simpa using fun hp : path = entry.1 => h entry he (hp ▸ List.prefix_refl _)

/-- How the items `xs` with the names `names`, which are in the block of `scope`, change an outline;
they queue the transitions `gs`. -/
structure Outline.Grows (scope : Scope) (names : List String) (o o' : Outline) (xs : List Item)
    (gs : List Pending) : Prop where
  machines : Extended (o.controller.machines.modify scope.machine.index (·.withItems xs))
    o'.controller.machines
  states : Extended o.controller.states o'.controller.states
  motions : Extended o.controller.motions o'.controller.motions
  records : Extended o.controller.records o'.controller.records
  symbols : ∃ table : SymbolTable, o'.symbols = o.symbols.modify scope.layer (· ++ table) ∧
    ∀ entry ∈ table, ∃ name ∈ names, (scope.path.join name).segments <+: entry.1.segments
  rest : o'.rest = o.rest
  homes : ∀ g ∈ gs, g.home.Added o o'

/-- Lists with one element of another one appended look the same in front of it. -/
theorem lookup_append_of_some {α β : Type} [BEq α] {xs ys : List (α × β)} {a : α} {b : β}
    (h : xs.lookup a = some b) : (xs ++ ys).lookup a = some b := by
  rw [List.lookup_append, h]
  rfl

namespace Outline.Grows

variable {scope : Scope} {names names₁ names₂ : List String} {o o₁ o₂ : Outline}
  {xs xs₁ xs₂ : List Item} {gs gs₁ gs₂ : List Pending}

theorem smaller (h : o.Grows scope names o₁ xs gs) : o.Smaller o₁ where
  machines := by
    have := h.machines.size_le
    rwa [Array.size_modify] at this
  states := h.states.size_le
  motions := h.motions.size_le
  records := h.records.size_le

theorem table_eq (h : o.Grows scope names o₁ xs gs) (layer : Nat) : ∃ table : SymbolTable,
    o₁.symbols.getD layer [] = o.symbols.getD layer [] ++ table ∧ (layer = scope.layer →
      ∀ entry ∈ table, ∃ name ∈ names, (scope.path.join name).segments <+: entry.1.segments) := by
  obtain ⟨table, ht, hpaths⟩ := h.symbols
  rw [ht]
  simp only [Array.getD_eq_getD_getElem?, Array.getElem?_modify]
  by_cases hl : scope.layer = layer
  · subst hl
    cases hs : o.symbols[scope.layer]? with
    | none => exact ⟨[], by simp, by simp⟩
    | some t => exact ⟨table, by simp, fun _ => hpaths⟩
  · exact ⟨[], by simp [hl], by simp⟩

theorem lookup? (h : o.Grows scope names o₁ xs gs) {layer : Nat} {path : Path} {node : NodeRef}
    (hn : o.lookup? layer path = some node) : o₁.lookup? layer path = some node := by
  obtain ⟨table, ht, -⟩ := h.table_eq layer
  rw [Outline.lookup?, ht]
  exact lookup_append_of_some hn

/-- What was added before lasts. -/
theorem lasts (h : o₁.Grows scope names o₂ xs gs)
    (hm : scope.machine.index < o.controller.machines.size) : o.Lasts o₁ o₂ where
  machines := (AgreesOn.modify _ (.inl hm)).trans ((h.machines.agrees.mono (Nat.zero_le _) (by simp)))
  states := h.states.agrees.mono (Nat.zero_le _) (Nat.le_refl _)
  motions := h.motions.agrees.mono (Nat.zero_le _) (Nat.le_refl _)
  records := h.records.agrees.mono (Nat.zero_le _) (Nat.le_refl _)
  nodes _ _ _ hn := h.lookup? hn

theorem refl (scope : Scope) (o : Outline) : o.Grows scope [] o [] [] where
  machines := by
    rw [modify_self _ Machine.withItems_nil]
    exact .refl _
  states := .refl _
  motions := .refl _
  records := .refl _
  symbols := ⟨[], (modify_self _ List.append_nil).symm, by simp⟩
  rest := rfl
  homes := by simp

theorem trans (h : o.Grows scope names₁ o₁ xs₁ gs₁) (h' : o₁.Grows scope names₂ o₂ xs₂ gs₂) :
    o.Grows scope (names₁ ++ names₂) o₂ (xs₁ ++ xs₂) (gs₁ ++ gs₂) where
  machines := by
    have hmodify : o.controller.machines.modify scope.machine.index (·.withItems (xs₁ ++ xs₂)) =
        (o.controller.machines.modify scope.machine.index (·.withItems xs₁)).modify
          scope.machine.index (·.withItems xs₂) := by
      apply Array.ext
      · simp
      · intro i _ _
        simp only [Array.getElem_modify]
        split <;> simp
    rw [hmodify]
    exact (h.machines.modify _ _).trans h'.machines
  states := h.states.trans h'.states
  motions := h.motions.trans h'.motions
  records := h.records.trans h'.records
  symbols := by
    obtain ⟨table, ht, hpaths⟩ := h.symbols
    obtain ⟨table', ht', hpaths'⟩ := h'.symbols
    refine ⟨table ++ table', ?_, fun entry he => ?_⟩
    · rw [ht', ht]
      apply Array.ext
      · simp
      · intro i _ _
        simp only [Array.getElem_modify]
        split <;> simp
    · rcases List.mem_append.1 he with he | he
      · obtain ⟨name, hn, hp⟩ := hpaths entry he
        exact ⟨name, List.mem_append_left _ hn, hp⟩
      · obtain ⟨name, hn, hp⟩ := hpaths' entry he
        exact ⟨name, List.mem_append_right _ hn, hp⟩
  rest := h'.rest.trans h.rest
  homes g hg := (List.mem_append.1 hg).elim (fun hg => (h.homes g hg).mono_right h'.smaller)
    fun hg => (h'.homes g hg).mono_left h.smaller

end Outline.Grows

/-! ## Blocks of machines -/

/-- Whether items with these names can be read in the block of `scope`. -/
structure Outline.Ready (scope : Scope) (o : Outline) (names : List String) : Prop where
  machine : scope.machine.index < o.controller.machines.size
  layer : scope.layer < o.symbols.size
  found : o.lookup? scope.layer scope.path = some (.machine scope.machine)
  free : ∀ name ∈ names, o.Free scope.layer (scope.path.join name)

theorem Path.eq_of_join_prefix {p : Path} {a b : String} {q : List String}
    (ha : (p.join a).segments <+: q) (hb : (p.join b).segments <+: q) : a = b := by
  obtain ⟨s, hs⟩ := ha
  obtain ⟨t, ht⟩ := hb
  rw [← ht] at hs
  simpa [Path.join] using (List.append_inj hs (by simp [Path.join])).1

namespace Outline.Ready

variable {scope : Scope} {names names₁ names₂ : List String} {o o₁ : Outline}
  {xs : List Item} {gs : List Pending}

theorem mono (h : o.Ready scope names) (hsub : names₁ ⊆ names) : o.Ready scope names₁ :=
  { h with free := fun name hn => h.free name (hsub hn) }

/-- Items with other names can be read behind an item. -/
theorem grows (h : o.Ready scope names) (hg : o.Grows scope names₁ o₁ xs gs)
    (hsub : names₂ ⊆ names) (hd : List.Disjoint names₁ names₂) : o₁.Ready scope names₂ where
  machine := Nat.lt_of_lt_of_le h.machine hg.smaller.machines
  layer := by
    obtain ⟨table, ht, -⟩ := hg.symbols
    rw [ht, Array.size_modify]
    exact h.layer
  found := hg.lookup? h.found
  free name hn entry he hp := by
    obtain ⟨table, ht, hpaths⟩ := hg.table_eq scope.layer
    rw [ht] at he
    rcases List.mem_append.1 he with he | he
    · exact h.free name (hsub hn) entry he hp
    · obtain ⟨name', hn', hp'⟩ := hpaths rfl entry he
      exact hd hn' (Path.eq_of_join_prefix hp hp' ▸ hn)

end Outline.Ready

/-- Whether lines in the block of a machine add items with these names; `K` holds of the items and of
what is declared and ends with them, whatever is read behind them. -/
def Adds (κ : Knowledge) (scope : Scope) (parent : Option MachineId) (names : List String)
    (ls : List Line) (o : Outline) (K : Outline → List Pending → List Item → Journal → Prop) : Prop :=
  ∃ o' xs gs w, Keeps κ ls (MachineRule.atItem scope parent) o o' ⟨gs, w⟩ ∧
    o.Grows scope names o' xs gs ∧ ∀ O G, o.Kept o' gs O G → K O G xs w

/-- Items with different names are read one after another. -/
theorem Adds.flatMap {α : Type} {scope : Scope} {parent : Option MachineId}
    {items : List α} {name : α → List String} {f : α → List Line} {walk : α → Journal}
    {K : Outline → List Pending → α → Item → Prop} {R : Outline → Entry → Entry → Prop}
    (h : ∀ a ∈ items, ∀ o : Outline, o.Ready scope (name a) →
      Adds κ scope parent (name a) (f a) o fun O G xs w =>
        (∃ x, xs = [x] ∧ K O G a x) ∧ List.Forall₂ (R O) (walk a) w)
    {o : Outline} (hr : o.Ready scope (items.flatMap name))
    (hn : (items.flatMap name).Nodup) :
    Adds κ scope parent (items.flatMap name) (items.flatMap f) o fun O G xs w =>
      List.Forall₂ (K O G) items xs ∧ List.Forall₂ (R O) (items.flatMap walk) w := by
  induction items generalizing o with
  | nil => exact ⟨o, [], [], [], .nil _ o, .refl scope o, fun _ _ _ => ⟨.nil, .nil⟩⟩
  | cons a items ih =>
    rw [List.forall_mem_cons] at h
    rw [List.flatMap_cons] at hr hn
    obtain ⟨-, hn', hd⟩ := List.nodup_append'.1 hn
    obtain ⟨o₁, xs₁, gs₁, w₁, hk₁, hg₁, hK₁⟩ := h.1 o (hr.mono (List.subset_append_left _ _))
    obtain ⟨o₂, xs₂, gs₂, w₂, hk₂, hg₂, hK₂⟩ :=
      ih h.2 (hr.grows hg₁ (List.subset_append_right _ _) hd) hn'
    refine ⟨o₂, xs₁ ++ xs₂, gs₁ ++ gs₂, w₁ ++ w₂, hk₁.append hk₂, hg₁.trans hg₂, fun O G hO => ?_⟩
    obtain ⟨⟨x, rfl, hx⟩, hw₁⟩ := hK₁ O G (hO.first (hg₂.lasts hr.machine) hg₂.smaller hg₂.homes)
    obtain ⟨hxs, hw₂⟩ := hK₂ O G (hO.second hg₁.smaller hg₁.homes)
    exact ⟨.cons hx hxs, List.rel_append hw₁ hw₂⟩

end MotionScript
