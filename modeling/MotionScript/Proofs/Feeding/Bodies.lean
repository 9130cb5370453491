import MotionScript.Proofs.Feeding.Children
/-!
# Reading bodies of machines

A machine is read back once all its items are: its default state is linked, and the transitions in
its block wait for its lists.
-/

namespace MotionScript

open Canonical (Line lineFor)

variable {κ : Knowledge}

/-! ## The last line of a block -/

/-- An outline in which a machine has a default state. -/
def Outline.setDefault (o : Outline) (machine : MachineId) : Option StateId → Outline
  | none => o
  | some s => { o with
      controller := o.controller.modifyMachine machine ({ · with defaultState := some s }) }

section

variable (o : Outline) (machine : MachineId) (d : Option StateId)

theorem Outline.setDefault_machines : (o.setDefault machine d).controller.machines =
    o.controller.machines.modify machine.index fun m =>
      { m with defaultState := d.or m.defaultState } := by
  cases d with
  | none => exact (modify_self _ fun _ => rfl).symm
  | some s => rfl

@[simp]
theorem Outline.setDefault_nodes : (o.setDefault machine d).controller.states = o.controller.states ∧
    (o.setDefault machine d).controller.motions = o.controller.motions ∧
    (o.setDefault machine d).controller.records = o.controller.records := by
  cases d <;> exact ⟨rfl, rfl, rfl⟩

@[simp]
theorem Outline.setDefault_rest : (o.setDefault machine d).symbols = o.symbols ∧
    (o.setDefault machine d).rest = o.rest := by
  cases d <;> exact ⟨rfl, rfl⟩

end

namespace MachineRule

variable {scope : Scope} {parent : Option MachineId} {o o' : Outline}

/-- What the end of a machine tells. -/
def ended (scope : Scope) (parent : Option MachineId) : Told :=
  ⟨[], [.close scope.machine parent]⟩

/-- A machine ends with a brace. -/
theorem leads_close {default : Option NameUse} {d : Option StateId}
    (hd : Option.Rel (fun use s => o.lookup? scope.layer (scope.path.join use.name) =
      some (.state s)) default d) (below : Frame) (rest : List Frame) :
    Leads κ [(Form.symbol '\x7d').joined]
      (.machine (named ⟨scope, parent, default⟩ .item) :: below :: rest)
      o (below :: rest) (o.setDefault scope.machine d) (ended scope parent) := by
  refine .detach (.machine (named ⟨scope, parent, default⟩ .item)) (by simp) fun e s he hs =>
    ⟨s, ?_, ?_, ?_⟩
  · simp [Frame.react, Frame.lift, react, reactItem, he.is.symbol_isSymbol, Except.map]
  · subst hs
    cases hd with
    | none => exact s.outline_linkScope _ _
    | some hd =>
      show ((s.linkDefault _ _ _ _).linkScope _ _).outline = _
      rw [Session.outline_linkScope, Session.outline_linkDefault s hd]
      rfl
  · rfl

/-! ## The default state -/

theorem reactItem_default {η : Type} {m : OpenMachine} {e : Event} (s : Session η)
    (he : e.Is (.word "default")) : reactItem m e s = .ok (named m .default, s, none) := by
  have havoid : Avoids "default" (if m.parent.isNone then optionWords else []) := by
    have hwords : Avoids "default" optionWords := by
      simp only [Avoids]
      decide
    split
    · exact hwords
    · simp [Avoids]
  simp +decide [reactItem, he.word_isSymbol, he.word_isKeyword, layerOption?_word s he havoid]

/-- The line for the default state is kept in mind by the rule. -/
theorem exists_default (scope : Scope) (parent : Option MachineId) (depth : Nat)
    (name : Option String) :
    ∃ ps, Spells (lineFor name depth fun n => s!"default {Canonical.name n};") ps ∧
      ∀ qs rest stack o o' t, (∀ default : Option NameUse, default.map (·.name) = name →
        Leads κ qs (.machine (named ⟨scope, parent, default⟩ .item) :: rest) o stack o' t) →
        Leads κ (ps ++ qs) (.machine (named ⟨scope, parent, none⟩ .item) :: rest) o stack o' t := by
  cases name with
  | none => exact ⟨[], .nil, fun qs rest stack o o' t h => h none rfl⟩
  | some n =>
    have hchunk : Chunk s!"default {Canonical.name n};".toList
        [(Form.word "default").joined, (Form.name n).spaced, (Form.symbol ';').joined] :=
      ⟨by simp, by simp +decide⟩
    refine ⟨_, hchunk.line depth, fun qs rest stack o o' t h => ?_⟩
    refine .read (.machine (named ⟨scope, parent, none⟩ .default)) (by simp) (fun e s he => ?_) ?_
    · rw [Frame.react, react, reactItem_default s he.is]
      rfl
    rw [← t.nil_append]
    refine .cons fun e s he _ ho => ⟨.machine (named ⟨scope, parent, some (use e n)⟩ .stop) :: rest, s,
      _, .stay ?_, ho, Frame.quiet_machine _ _ e s, ?_⟩
    · simp [Frame.react, react, he.is.name_name]
      rfl
    refine .read (.machine (named ⟨scope, parent, some (use e n)⟩ .item)) (by simp)
      (fun e s he => ?_) (h _ rfl)
    simp [Frame.react, Frame.lift, react, he.is.symbol_isSymbol, Except.map]

end MachineRule

/-! ## What a block adds -/

/-- Whether the second outline has a further machine, without items, in whose block `scope` is. -/
structure Outline.Opens (o : Outline) (scope : Scope) (name : String) (o' : Outline) : Prop where
  index : scope.machine.index = o.controller.machines.size
  machines : o'.controller.machines.size = o.controller.machines.size + 1
  machine : o'.controller.machines[scope.machine.index]? = some { name }
  states : o'.controller.states = o.controller.states
  motions : o'.controller.motions = o.controller.motions
  records : o'.controller.records = o.controller.records

/-- How the block of a machine that has been added last changes an outline. -/
structure Outline.Fills (scope : Scope) (o o' : Outline) (gs : List Pending) : Prop where
  machines : AgreesOn 0 scope.machine.index o.controller.machines o'.controller.machines
  machines_size : o.controller.machines.size ≤ o'.controller.machines.size
  states : Extended o.controller.states o'.controller.states
  motions : Extended o.controller.motions o'.controller.motions
  records : Extended o.controller.records o'.controller.records
  symbols : ∃ table : SymbolTable, o'.symbols = o.symbols.modify scope.layer (· ++ table) ∧
    ∀ entry ∈ table, scope.path.segments <+: entry.1.segments
  rest : o'.rest = o.rest
  homes : ∀ g ∈ gs, g.home = .entry scope.machine ∨ g.home = .any scope.machine ∨
    g.home.Added o o'

/-! ## Items -/

def Machine.items (m : Machine) : List Item :=
  m.members.map .state ++ m.children.map .machine ++ m.records.map .record

/-- What is declared and ends while an item of the machine `owner` at `scope` is read, if `body` says
so for the block of a nested machine with its path. -/
def Item.walk (c : Controller) (layer : Nat) (owner : MachineId) (scope : Path)
    (body : MachineId → Path → Journal) : Item → Journal
  | .state s => [.declare (layer, scope.join (c.state s).name, .state s)]
  | .machine m =>
    .declare (layer, scope.join (c.machine m).name, .machine m) ::
      body m (scope.join (c.machine m).name) ++ [.close m (some owner)]
  | .record _ => []

/-- What is declared and ends in the block of a machine with a path in canonical text. Nesting is
followed as deep as `fuel`. -/
def Controller.walkBody (c : Controller) (layer : Nat) : Nat → MachineId → Path → Journal
  | 0, _, _ => []
  | fuel + 1, m, path =>
    (c.machine m).items.flatMap (Item.walk c layer m path (c.walkBody layer fuel))

section Items

variable {c : Controller} {layer : Nat} {O : Outline} {G : List Pending} {owner : MachineId}
  {xs ys : List Item}

theorem ReadItem.states (h : List.Forall₂ (ReadItem c layer O G owner) ys xs) :
    List.Forall₂ (ReadState c layer O G owner) (ys.filterMap Item.state?)
      (xs.filterMap Item.state?) := by
  refine List.rel_filterMap (R := ReadItem c layer O G owner) (fun y x hyx => ?_) h
  cases hyx with
  | state h => exact .some h
  | machine | record => exact .none

theorem ReadItem.machines (h : List.Forall₂ (ReadItem c layer O G owner) ys xs) :
    List.Forall₂ (ReadTree c layer O G) (ys.filterMap Item.machine?)
      (xs.filterMap Item.machine?) := by
  refine List.rel_filterMap (R := ReadItem c layer O G owner) (fun y x hyx => ?_) h
  cases hyx with
  | machine h => exact .some h
  | state | record => exact .none

theorem ReadItem.records (h : List.Forall₂ (ReadItem c layer O G owner) ys xs) :
    (xs.filterMap Item.record?).map O.controller.record =
      (ys.filterMap Item.record?).map c.record := by
  induction h with
  | nil => rfl
  | cons hyx _ ih =>
    cases hyx with
    | record h => simpa [Item.record?, h] using ih
    | state | machine => exact ih

theorem Machine.items_states (m : Machine) : m.items.filterMap Item.state? = m.members := by
  simp [items, List.filterMap_append, List.filterMap_map, Function.comp_def, Item.state?]

theorem Machine.items_machines (m : Machine) : m.items.filterMap Item.machine? = m.children := by
  simp [items, List.filterMap_append, List.filterMap_map, Function.comp_def, Item.machine?]

theorem Machine.items_records (m : Machine) : m.items.filterMap Item.record? = m.records := by
  simp [items, List.filterMap_append, List.filterMap_map, Function.comp_def, Item.record?]

end Items

/-! ## Bodies -/

section Bodies

variable {c : Controller} {registry : Registry} {scope : Scope} {id : MachineId}

/-- The default state is found among the states that have been read. -/
theorem ReadState.exists_default (h : c.Forest) {O : Outline} {G : List Pending} {owner : MachineId}
    (hp : c.HasPath scope.layer (.machine id) scope.path)
    (hd : ∀ s, (c.machine id).defaultState = some s → s ∈ (c.machine id).members)
    {xs : List StateId}
    (hxs : List.Forall₂ (ReadState c scope.layer O G owner) (c.machine id).members xs) :
    ∃ d, Option.Rel (fun s s' => ∃ path, path = scope.path.join (c.state s).name ∧
        c.HasPath scope.layer (.state s) path ∧ O.lookup? scope.layer path = some (.state s'))
      (c.machine id).defaultState d := by
  cases hs : (c.machine id).defaultState with
  | none => exact ⟨none, .none⟩
  | some s =>
    have hmem := hd s hs
    obtain ⟨i, hi, rfl⟩ := List.mem_iff_getElem.1 hmem
    obtain ⟨path, hpath, hfound⟩ := (hxs.get hi (hxs.length_eq ▸ hi)).found
    exact ⟨_, .some ⟨path, (h.path_unique hpath (hp.state hmem)).2, hpath, hfound⟩⟩

namespace Outline

variable {o₁ o o₂ O : Outline} {name : String} {names : List String} {xs : List Item}
  {gs₁ gs₂ gs₃ G : List Pending} {d : Option StateId}

theorem Opens.smaller (h : o₁.Opens scope name o) : o₁.Smaller o where
  machines := by rw [h.machines]; exact Nat.le_succ _
  states := by rw [h.states]
  motions := by rw [h.motions]
  records := by rw [h.records]

theorem Opens.index_lt (h : o₁.Opens scope name o) :
    scope.machine.index < o.controller.machines.size := by
  rw [h.machines, h.index]
  exact Nat.lt_succ_self _

theorem setDefault_smaller (o : Outline) (machine : MachineId) (d : Option StateId) :
    o.Smaller (o.setDefault machine d) := by
  obtain ⟨hs, hm, hr⟩ := o.setDefault_nodes machine d
  refine ⟨?_, ?_, ?_, ?_⟩
  · rw [setDefault_machines, Array.size_modify]
  · rw [hs]
  · rw [hm]
  · rw [hr]

theorem setDefault_lasts {machine : MachineId} (h : machine.index < o.controller.machines.size)
    (d : Option StateId) : o.Lasts o₂ (o₂.setDefault machine d) := by
  obtain ⟨hs, hm, hr⟩ := o₂.setDefault_nodes machine d
  refine ⟨?_, ?_, ?_, ?_, fun layer path node hn => ?_⟩
  · rw [setDefault_machines]
    exact .modify _ (.inl h)
  · rw [hs]
    exact .refl _ _ _
  · rw [hm]
    exact .refl _ _ _
  · rw [hr]
    exact .refl _ _ _
  · rw [lookup?, (o₂.setDefault_rest machine d).1]
    exact hn

/-- What items and the default state add to an outline. -/
theorem Grows.fills (h : o.Grows scope names o₂ xs gs₃)
    (hlt : scope.machine.index < o.controller.machines.size)
    (h₁ : ∀ g ∈ gs₁, g.home = .entry scope.machine) (h₂ : ∀ g ∈ gs₂, g.home = .any scope.machine) :
    o.Fills scope (o₂.setDefault scope.machine d) (gs₁ ++ gs₂ ++ gs₃) := by
  have hsmaller := o₂.setDefault_smaller scope.machine d
  obtain ⟨hs, hm, hr⟩ := o₂.setDefault_nodes scope.machine d
  obtain ⟨hsymbols, hrest⟩ := o₂.setDefault_rest scope.machine d
  refine ⟨?_, Nat.le_trans h.smaller.machines hsmaller.machines, hs ▸ h.states, hm ▸ h.motions,
    hr ▸ h.records, ?_, hrest.trans h.rest, fun g hg => ?_⟩
  · rw [setDefault_machines]
    intro i _ hi
    rw [Array.getElem?_modify, if_neg (Nat.ne_of_gt hi), h.machines.agrees i (Nat.zero_le _)
      (by simpa using Nat.lt_trans hi hlt), Array.getElem?_modify, if_neg (Nat.ne_of_gt hi)]
  · obtain ⟨table, ht, hpaths⟩ := h.symbols
    refine ⟨table, hsymbols.trans ht, fun entry he => ?_⟩
    obtain ⟨name, -, hp⟩ := hpaths entry he
    exact (List.prefix_append _ _).trans hp
  · simp only [List.mem_append] at hg
    rcases hg with (hg | hg) | hg
    · exact .inl (h₁ g hg)
    · exact .inr (.inl (h₂ g hg))
    · exact .inr (.inr ((h.homes g hg).mono_right hsmaller))

/-- The machine as it is in the end. -/
theorem Grows.machine_eq (h : o.Grows scope names o₂ xs gs₃) (hopen : o₁.Opens scope name o)
    (hO : o₁.Lasts (o₂.setDefault scope.machine d) O) :
    O.controller.machine scope.machine =
      { ({ name } : Machine).withItems xs with defaultState := d } := by
  have hlt : scope.machine.index < o₂.controller.machines.size :=
    Nat.lt_of_lt_of_le hopen.index_lt h.smaller.machines
  have hget : O.controller.machines[scope.machine.index]? =
      some { ({ name } : Machine).withItems xs with defaultState := d } := by
    rw [hO.machines _ (Nat.le_of_eq hopen.index.symm) (by
        rw [setDefault_machines, Array.size_modify]
        exact hlt), setDefault_machines, Array.getElem?_modify, if_pos rfl,
      h.machines.agrees _ (Nat.zero_le _) (by simpa using hopen.index_lt), Array.getElem?_modify,
      if_pos rfl, hopen.machine]
    cases d <;> rfl
  rw [Controller.machine, Array.getD_eq_getD_getElem?, hget, Option.getD_some]

/-- Items are kept when their machine is. -/
theorem Opens.kept (hopen : o₁.Opens scope name o)
    (h₁ : ∀ g ∈ gs₁, g.home = .entry scope.machine) (h₂ : ∀ g ∈ gs₂, g.home = .any scope.machine)
    (hO : o₁.Kept (o₂.setDefault scope.machine d) (gs₁ ++ gs₂ ++ gs₃) O G) : o.Kept o₂ gs₃ O G := by
  have hsmaller := o₂.setDefault_smaller scope.machine d
  have hnew (home : Home) (hh : home = .entry scope.machine ∨ home = .any scope.machine) :
      ¬home.Added o o₂ := by
    rcases hh with rfl | rfl
    all_goals exact fun hn => Nat.not_lt.2 hn.1 hopen.index_lt
  refine ⟨(setDefault_lasts hopen.index_lt d).trans hsmaller (hO.toLasts.mono hopen.smaller),
    fun home hh => ?_⟩
  rw [hO.groups home ((hh.mono_left hopen.smaller).mono_right hsmaller), List.filter_append,
    List.filter_append,
    filter_home_eq_nil (P := (· = .entry scope.machine)) h₁ fun he => hnew home (.inl he) hh,
    filter_home_eq_nil (P := (· = .any scope.machine)) h₂ fun he => hnew home (.inr he) hh,
    List.nil_append, List.nil_append]

/-- The transitions that wait for the lists of the machine itself. -/
theorem Grows.groups_own (h : o.Grows scope names o₂ xs gs₃) (hopen : o₁.Opens scope name o)
    (h₁ : ∀ g ∈ gs₁, g.home = .entry scope.machine) (h₂ : ∀ g ∈ gs₂, g.home = .any scope.machine)
    (hO : o₁.Kept (o₂.setDefault scope.machine d) (gs₁ ++ gs₂ ++ gs₃) O G) :
    G.filter (·.home = .entry scope.machine) = gs₁ ∧
      G.filter (·.home = .any scope.machine) = gs₂ := by
  have hlt := Nat.lt_of_lt_of_le hopen.index_lt
    (h.smaller.trans (o₂.setDefault_smaller scope.machine d)).machines
  have hnew (home : Home) (hh : home = .entry scope.machine ∨ home = .any scope.machine) :
      home.Added o₁ (o₂.setDefault scope.machine d) ∧ ¬home.Added o o₂ := by
    rcases hh with rfl | rfl
    all_goals
      exact ⟨⟨Nat.le_of_eq hopen.index.symm, hlt⟩, fun hn => Nat.not_lt.2 hn.1 hopen.index_lt⟩
  obtain ⟨hentry, hentry'⟩ := hnew _ (.inl rfl)
  obtain ⟨hany, hany'⟩ := hnew _ (.inr rfl)
  constructor
  · rw [hO.groups _ hentry, List.filter_append, List.filter_append, filter_home_eq_self h₁,
      filter_home_eq_nil (P := (· = .any scope.machine)) h₂ (by simp),
      filter_home_eq_nil h.homes hentry', List.append_nil, List.append_nil]
  · rw [hO.groups _ hany, List.filter_append, List.filter_append, filter_home_eq_self h₂,
      filter_home_eq_nil (P := (· = .entry scope.machine)) h₁ (by simp),
      filter_home_eq_nil h.homes hany', List.append_nil, List.nil_append]

end Outline

/-- The transitions of a machine wait for its own lists. -/
theorem homes_of_machine (hstate : scope.state = none) {any : Bool} {ts : List Transition}
    {gs : List Pending} (h : TransitionRule.QueuesAll c.nodePaths scope any ts gs) :
    ∀ g ∈ gs, g.home = if any then .any scope.machine else .entry scope.machine := by
  intro g hg
  rw [homes_of_queues h.each g hg, TransitionRule.home, hstate]

/-- The tree of a machine of which the items, the default state and the lists have been read. -/
theorem ReadTree.of_items (hp : c.HasPath scope.layer (.machine id) scope.path)
    {o₁ o o₂ O : Outline} {gs₁ gs₂ gs₃ G : List Pending} {names : List String} {xs : List Item}
    {d : Option StateId} (hopen : o₁.Opens scope (c.machine id).name o)
    (hfound : o.lookup? scope.layer scope.path = some (.machine scope.machine))
    (hstate : scope.state = none) (hgrow : o.Grows scope names o₂ xs gs₃)
    (hq₁ : TransitionRule.QueuesAll c.nodePaths scope false
      ((c.machine id).entryTransitions.map c.transition) gs₁)
    (hq₂ : TransitionRule.QueuesAll c.nodePaths scope true
      ((c.machine id).anyTransitions.map c.transition) gs₂)
    (hd : Option.Rel (fun s s' => ∃ path, path = scope.path.join (c.state s).name ∧
        c.HasPath scope.layer (.state s) path ∧ o₂.lookup? scope.layer path = some (.state s'))
      (c.machine id).defaultState d)
    (hO : o₁.Kept (o₂.setDefault scope.machine d) (gs₁ ++ gs₂ ++ gs₃) O G)
    (hitems : List.Forall₂ (ReadItem c scope.layer O G scope.machine) (c.machine id).items xs) :
    ReadTree c scope.layer O G id scope.machine := by
  obtain ⟨hentry, hany⟩ :=
    hgrow.groups_own hopen (homes_of_machine hstate hq₁) (homes_of_machine hstate hq₂) hO
  have hm := hgrow.machine_eq hopen hO.toLasts
  have hstates := ReadItem.states hitems
  have hmachines := ReadItem.machines hitems
  have hrecords := ReadItem.records hitems
  rw [Machine.items_states, Machine.members, List.forall₂_map_left_iff] at hstates
  rw [Machine.items_machines, Machine.children, List.forall₂_map_left_iff] at hmachines
  rw [Machine.items_records] at hrecords
  have hlookup := ((Outline.setDefault_lasts hopen.index_lt d).trans
    (o₂.setDefault_smaller scope.machine d) (hO.toLasts.mono hopen.smaller)).nodes
  refine .node ⟨?_, ?_, ?_, ?_, ?_, ?_⟩ ?_ ?_
  · rw [hm]
    rfl
  · exact ⟨_, hp, hlookup _ _ _ (hgrow.lookup? hfound)⟩
  · rw [hm]
    generalize (c.machine id).defaultState = state at hd
    cases hd with
    | none => exact .none
    | some hs =>
      obtain ⟨path, -, hpath, hs⟩ := hs
      exact .some ⟨path, hpath, hlookup _ _ _ hs⟩
  · rw [hm]
    exact hrecords
  · exact ⟨scope, false, rfl, rfl, hentry.symm ▸ hq₁⟩
  · exact ⟨scope, true, rfl, rfl, hany.symm ▸ hq₂⟩
  · rw [hm]
    simpa [Machine.withItems] using hstates
  · show List.Forall₂ (fun (a b : Placed MachineId) => ReadTree c scope.layer O G a.node b.node) _ _
    rw [hm]
    simpa [Machine.withItems] using hmachines

namespace MachineRule

variable {parent : Option MachineId} {o₁ o₀ o o₂ : Outline}

/-- The block of a machine from its options to its brace. The default state is linked by the
brace. -/
theorem exists_block {options lines : List Line} {told : Told} {state d : Option StateId}
    (hoptions : Keeps κ options (atItem scope parent) o₀ o {})
    (hlines : Keeps κ lines (atItem scope parent) o o₂ told)
    (hd : Option.Rel (fun s s' => ∃ path, path = scope.path.join (c.state s).name ∧
        c.HasPath scope.layer (.state s) path ∧ o₂.lookup? scope.layer path = some (.state s'))
      state d)
    (depth close : Nat) :
    ∃ ps, Spells (options ++
        (lineFor state depth (fun id => s!"default {Canonical.name (c.state id).name};") ++
          (lines ++ [.text close "\x7d"]))) ps ∧
      ∀ below rest, Leads κ ps (.machine (named ⟨scope, parent, none⟩ .item) :: below :: rest) o₀
        (below :: rest) (o₂.setDefault scope.machine d) (told ++ ended scope parent) := by
  obtain ⟨ps₀, hspells₀, hleads₀⟩ := hoptions
  obtain ⟨psd, hspellsd, hleadsd⟩ :=
    exists_default scope parent depth (state.map fun s => (c.state s).name)
  obtain ⟨ps, hspells, hleads⟩ := hlines
  have hclose : Chunk "\x7d".toList [(Form.symbol '\x7d').joined] := ⟨by simp, by simp +decide⟩
  have hdefault : lineFor (state.map fun s => (c.state s).name) depth
      (fun n => s!"default {Canonical.name n};") = lineFor state depth
        (fun id => s!"default {Canonical.name (c.state id).name};") := by
    simp [lineFor, Function.comp_def]
  rw [hdefault] at hspellsd
  refine ⟨ps₀ ++ (psd ++ (ps ++ [(Form.symbol '\x7d').joined])),
    hspells₀.append (hspellsd.append (hspells.append (hclose.line close))), fun below rest => ?_⟩
  have hbody := hleads₀ (.machine (named ⟨scope, parent, none⟩ .item)) (below :: rest) ⟨none, rfl⟩
  rw [← Told.nil_append (told ++ ended scope parent)]
  refine hbody.append (hleadsd _ _ _ _ _ _ fun default hname =>
    (hleads _ (below :: rest) ⟨default, rfl⟩).append (leads_close ?_ below rest))
  cases hd with
  | none =>
    obtain rfl : default = none := by simpa using hname
    exact .none
  | @some s s' hs =>
    obtain ⟨use, rfl, huse⟩ : ∃ use, default = some use ∧ use.name = (c.state s).name := by
      simpa using hname
    obtain ⟨path, rfl, -, hlookup⟩ := hs
    exact .some (huse ▸ hlookup)

/-- A machine is read back if its items are. -/
theorem body_of_items (h : c.TreeWritable registry)
    (hp : c.HasPath scope.layer (.machine id) scope.path) (hstate : scope.state = none)
    (hopen : o₁.Opens scope (c.machine id).name o)
    (hfound : o.lookup? scope.layer scope.path = some (.machine scope.machine))
    {options : List Line} (hoptions : Keeps κ options (atItem scope parent) o₀ o {})
    {names : List String} {items : List Line} {walk : Journal}
    (hitems : Adds κ scope parent names items o fun O G xs w =>
      List.Forall₂ (ReadItem c scope.layer O G scope.machine) (c.machine id).items xs ∧
        List.Forall₂ (ReadEntry c O) walk w)
    (depth close : Nat) :
    ∃ ps o' gs w,
      Spells (options ++
        lineFor (c.machine id).defaultState depth
          (fun id => s!"default {Canonical.name (c.state id).name};") ++
        Canonical.statements c c.nodePaths scope.path false depth (c.machine id).entryTransitions ++
        Canonical.statements c c.nodePaths scope.path true depth (c.machine id).anyTransitions ++
        (items ++ [.text close "\x7d"])) ps ∧
      (∀ below rest, Leads κ ps (.machine (named ⟨scope, parent, none⟩ .item) :: below :: rest) o₀
        (below :: rest) o' (⟨gs, w⟩ ++ ended scope parent)) ∧
      o.Fills scope o' gs ∧
      ∀ O G, o₁.Kept o' gs O G → ReadTree c scope.layer O G id scope.machine ∧
        List.Forall₂ (ReadEntry c O) walk w := by
  have hw := h.machine _ _ hp.inLayer
  have hblock : ∀ f, atItem scope parent f → f.Block scope (words parent.isNone) := by
    rintro f ⟨default, rfl⟩
    exact block ⟨scope, parent, default⟩
  have hwithin : ∀ t ∈ (c.machine id).listed, TransitionRule.Writable (c.transition t) ∧
      ∃ path, TransitionRule.Within c.nodePaths scope (c.transition t).destination path :=
    fun t ht => ⟨(hw.transitions t ht).toWritable,
      (hw.transitions t ht).destination.within h.toForest hp⟩
  obtain ⟨hentry, hany⟩ := List.forall_mem_append.1 hwithin
  obtain ⟨gs₁, hk₁, hq₁⟩ : ∃ gs, Keeps κ _ (atItem scope parent) o o ⟨gs, []⟩ ∧
      TransitionRule.QueuesAll c.nodePaths scope false _ gs :=
    Keeps.statements hblock c depth o (fun t ht => (hentry t ht).1) fun t ht => (hentry t ht).2
  obtain ⟨gs₂, hk₂, hq₂⟩ : ∃ gs, Keeps κ _ (atItem scope parent) o o ⟨gs, []⟩ ∧
      TransitionRule.QueuesAll c.nodePaths scope true _ gs :=
    Keeps.statements hblock c depth o (fun t ht => (hany t ht).1) fun t ht => (hany t ht).2
  obtain ⟨o₂, xs, gs₃, w, hk₃, hgrow, hread⟩ := hitems
  have hhome₁ := homes_of_machine hstate hq₁
  have hhome₂ := homes_of_machine hstate hq₂
  -- The default state, which is linked when all states are known.
  have hstates := ReadItem.states (hread o₂ gs₃ (.refl o o₂ gs₃)).1
  rw [Machine.items_states] at hstates
  obtain ⟨d, hd⟩ := ReadState.exists_default h.toForest hp hw.defaultState hstates
  obtain ⟨ps, hspells, hleads⟩ :=
    exists_block hoptions ((hk₁.append hk₂).append hk₃) hd depth close
  refine ⟨ps, o₂.setDefault scope.machine d, gs₁ ++ gs₂ ++ gs₃, w, ?_, hleads,
    hgrow.fills hopen.index_lt hhome₁ hhome₂, fun O G hO => ?_⟩
  · simpa only [List.append_assoc] using hspells
  · obtain ⟨hitems, hwalk⟩ := hread O G (hopen.kept hhome₁ hhome₂ hO)
    exact ⟨.of_items hp hopen hfound hstate hgrow hq₁ hq₂ hd hO hitems, hwalk⟩

end MachineRule

end Bodies

end MotionScript
