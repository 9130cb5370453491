import MotionScript.Proofs.Feeding.Machines
/-!
# Reading layers

The options of a layer are read back one after another, and then its machine.
-/

namespace MotionScript

open Canonical (Line lineIf lineFor)

variable {κ : Knowledge}

/-- An outline with a further layer. -/
def Outline.putLayer (o : Outline) (l : Layer) : Outline :=
  { o with controller := { o.controller with layers := o.controller.layers.push l } }

namespace MachineRule

/-! ## Options -/

section Options

variable {scope : Scope} {o o' : Outline} {l : Layer}

/-- A change of the layer that has been added last. -/
theorem outline_layer {η : Type} [Host η] {s : Session η} (f : Layer → Layer)
    (hlayer : scope.layer = o.controller.layers.size) (hs : s.outline = o.putLayer l) :
    (s.modify (·.modifyLayer scope.layer f)).outline = o.putLayer (f l) := by
  rw [s.outline_modify (f := fun c => c.modifyLayer scope.layer f) rfl, hs, hlayer]
  simp only [Outline.putLayer, Controller.modifyLayer, modify_push_size]

/-- The semicolon behind an option. -/
theorem leads_stop (m : OpenMachine) (rest : List Frame) (o : Outline) :
    Leads κ [(Form.symbol ';').joined] (.machine (named m .stop) :: rest) o
      (.machine (named m .item) :: rest) o {} := by
  refine .read (.machine (named m .item)) (by simp) (fun e s he => ?_) (.nil _ _)
  simp [Frame.react, Frame.lift, react, he.is.symbol_isSymbol, Except.map]

/-- An option that is a word. -/
theorem keeps_word (word : String) (f : Layer → Layer)
    (hw : Canonical.isBare word.toList = true) (hlayer : scope.layer = o.controller.layers.size)
    (h : ∀ {η : Type} [Host η] m (e : Event) (s : Session η), m.parent = none → e.Is (.word word) →
      reactItem m e s = .ok (named m .stop, s.modify (·.modifyLayer m.scope.layer f), none))
    (depth : Nat) (l : Layer) :
    Keeps κ [.text depth (word ++ ";")] (atItem scope none) (o.putLayer l) (o.putLayer (f l)) {} := by
  have hchunk : Chunk (word ++ ";").toList
      [(Form.word word).joined, (Form.symbol ';').joined] := by
    refine ⟨by simp, ?_⟩
    simp +decide [hw]
  refine ⟨_, hchunk.line depth, fun top rest htop => ?_⟩
  obtain ⟨default, rfl⟩ := htop
  refine .stay (.machine (named ⟨scope, none, default⟩ .stop)) (by simp) (fun e s he hs => ?_)
    (leads_stop ⟨scope, none, default⟩ rest _)
  refine ⟨_, ?_, outline_layer f hlayer hs⟩
  simp only [Frame.react, Frame.lift, react, h ⟨scope, none, default⟩ e s rfl he.is, Except.map]

/-- An option with a value. -/
theorem keeps_value (word : String) {value : String} (v : Form) (x : MachineExpect)
    (hw : Canonical.isBare word.toList = true) (hv : v.Valid) (hc : v.chars = value.toList)
    (hj : v.Joins (.symbol ';'))
    (h : ∀ {η : Type} [Host η] m (e : Event) (s : Session η), m.parent = none → e.Is (.word word) →
      reactItem m e s = .ok (named m x, s, none))
    (h' : ∀ {η : Type} [Host η] default (e : Event) (s : Session η), e.Is v → κ.Holds s.host →
      s.outline = o → ∃ s', react e s (named ⟨scope, none, default⟩ x) =
        .ok (named ⟨scope, none, default⟩ .stop, s', none) ∧ s'.outline = o')
    (depth : Nat) :
    Keeps κ [.text depth (word ++ " " ++ value ++ ";")] (atItem scope none) o o' {} := by
  have hchunk : Chunk (word ++ " " ++ value ++ ";").toList
      [(Form.word word).joined, v.spaced, (Form.symbol ';').joined] := by
    refine ⟨by simp [hc], ?_⟩
    simp +decide [hw, hv, hj]
  refine ⟨_, hchunk.line depth, fun top rest htop => ?_⟩
  obtain ⟨default, rfl⟩ := htop
  refine .read (.machine (named ⟨scope, none, default⟩ x)) (by simp) (fun e s he => ?_)
    (.ask (.machine (named ⟨scope, none, default⟩ .stop)) (by simp) (fun e s he hk hs => ?_)
      (leads_stop ⟨scope, none, default⟩ rest _))
  · simp only [Frame.react, Frame.lift, react, h ⟨scope, none, default⟩ e s rfl he.is, Except.map]
  · obtain ⟨s', hr, ho⟩ := h' default e s he.is hk hs
    exact ⟨s', by rw [Frame.react, hr]; rfl, ho⟩

theorem keeps_weight (hlayer : scope.layer = o.controller.layers.size) (depth : Nat)
    (hl : l.weight = .one) {x : Single} (hx : x.isFinite = true) :
    Keeps κ (lineIf (x != .one) depth s!"weight {x};") (atItem scope none) (o.putLayer l)
      (o.putLayer { l with weight := if x != .one then x else .one }) {} := by
  refine Keeps.lineIf (fun hb => ?_) fun hb => ?_
  · rw [if_pos hb]
    refine keeps_value "weight" (.float x) .weight (by decide) (Form.valid_single hx) (by simp)
      (by simp) (fun m e s hm he => ?_) (fun default e s he hk hs => ?_) depth
    · simp +decide [reactItem, layerOption?, hm, he.word_isSymbol, he.word_isKeyword]
    · refine ⟨_, ?_, outline_layer ({ · with weight := x }) hlayer hs⟩
      rw [react, he.float_number hx]
      rfl
  · rw [hb, ← hl]
    exact ⟨rfl, rfl⟩

theorem keeps_blending (hlayer : scope.layer = o.controller.layers.size) (depth : Nat)
    (hl : l.blending = .override) (b : Blending) :
    Keeps κ (lineIf (b != .override) depth s!"{Keyword.spelling b};") (atItem scope none)
      (o.putLayer l) (o.putLayer { l with blending := b }) {} := by
  refine Keeps.lineIf (fun hb => ?_) fun hb => ?_
  · refine keeps_word (Keyword.spelling b) ({ · with blending := b }) ?_ hlayer
      (fun m e s hm he => ?_) depth l
    · cases b <;> decide
    · cases b
      all_goals
        simp +decide [reactItem, layerOption?, hm, he.word_isSymbol, he.word_isKeyword,
          he.word_text]
        rfl
  · obtain rfl : b = .override := by simpa using hb
    rw [← hl]
    exact ⟨rfl, rfl⟩

theorem keeps_ikPass (hlayer : scope.layer = o.controller.layers.size) (depth : Nat)
    (hl : l.ikPass = false) (b : Bool) :
    Keeps κ (lineIf b depth "ikPass;") (atItem scope none) (o.putLayer l)
      (o.putLayer { l with ikPass := b }) {} := by
  refine Keeps.lineIf (fun hb => ?_) fun hb => ?_
  · subst hb
    refine keeps_word "ikPass" ({ · with ikPass := true }) (by decide) hlayer
      (fun m e s hm he => ?_) depth l
    simp +decide [reactItem, layerOption?, hm, he.word_isSymbol, he.word_isKeyword, he.word_text]
    rfl
  · rw [hb, ← hl]
    exact ⟨rfl, rfl⟩

theorem keeps_syncTiming (hlayer : scope.layer = o.controller.layers.size) (depth : Nat)
    (hl : l.syncTiming = false) (b : Bool) :
    Keeps κ (lineIf b depth "syncTiming;") (atItem scope none) (o.putLayer l)
      (o.putLayer { l with syncTiming := b }) {} := by
  refine Keeps.lineIf (fun hb => ?_) fun hb => ?_
  · subst hb
    refine keeps_word "syncTiming" ({ · with syncTiming := true }) (by decide) hlayer
      (fun m e s hm he => ?_) depth l
    simp +decide [reactItem, layerOption?, hm, he.word_isSymbol, he.word_isKeyword, he.word_text]
    rfl
  · rw [hb, ← hl]
    exact ⟨rfl, rfl⟩

theorem keeps_mask (hlayer : scope.layer = o.controller.layers.size) (depth : Nat)
    (hl : l.mask = none) {mask : Option Asset}
    (hm : ∀ a ∈ mask, a.kind = .avatarMask ∧ κ.finds a.reference .avatarMask) :
    Keeps κ (lineFor mask depth fun a => s!"mask {Canonical.string a.reference};")
      (atItem scope none) (o.putLayer l) (o.putLayer { l with mask }) {} := by
  cases mask with
  | none =>
    rw [show { l with mask := none } = l by rw [← hl]]
    exact .nil _ _
  | some a =>
    obtain ⟨reference, kind⟩ := a
    obtain ⟨rfl, hfinds⟩ : kind = .avatarMask ∧ κ.finds reference .avatarMask := hm _ rfl
    refine keeps_value "mask" (.string reference) .mask (by decide) (by simp) (by simp) (by simp)
      (fun m e s hm he => ?_) (fun default e s he hk hs => ?_) depth
    · simp +decide [reactItem, layerOption?, hm, he.word_isSymbol, he.word_isKeyword]
    · obtain ⟨s', hresolve, ho, -⟩ := Session.exists_resolve hk hfinds
      refine ⟨_, ?_, outline_layer ({ · with mask := some ⟨reference, .avatarMask⟩ }) hlayer
        (ho.trans hs)⟩
      simp only [react, he.string_name, bind, Except.bind, hresolve]

/-- The layer that is followed is kept in mind until all layers are known. -/
theorem keeps_sync (depth : Nat) (followed : Option Layer) :
    Keeps κ (lineFor followed depth fun l => s!"sync {Canonical.name l.name};") (atItem scope none) o
      { o with syncs := o.syncs ++ followed.toList.map fun l => (scope.layer, l.name) } {} := by
  cases followed with
  | none =>
    rw [Option.toList_none, List.map_nil, List.append_nil]
    exact .nil _ _
  | some l =>
    refine keeps_value "sync" (.name l.name) .sync (by decide) (by simp) (by simp) (by simp)
      (fun m e s hm he => ?_) (fun default e s he hk hs => ?_) depth
    · simp +decide [reactItem, layerOption?, hm, he.word_isSymbol, he.word_isKeyword]
    · subst hs
      refine ⟨{ s with syncs := s.syncs ++ [(scope.layer, use e l.name)] }, ?_, ?_⟩
      · simp only [react, he.name_name]
        rfl
      · simp [Session.outline, use]

end Options

end MachineRule

/-! ## Layers -/

/-- A layer as it is read back, before it follows another one. -/
def Layer.readBack (l : Layer) (id : MachineId) : Layer where
  name := l.name
  machine := id
  weight := if l.weight != .one then l.weight else .one
  blending := l.blending
  mask := l.mask
  syncTiming := l.syncTiming
  ikPass := l.ikPass

namespace Controller

/-- Whether the options of a layer can be written. -/
structure LayerWritable (c : Controller) (l : Layer) : Prop where
  root : (c.machine l.machine).name = l.name
  weight : l.weight.isFinite = true
  mask : ∀ a ∈ l.mask, a.kind = .avatarMask ∧ Asset.Resolves a.reference
  synced : ∀ i, l.synced = some i → i < c.layers.size

/-- The layer that a layer follows, as it is kept in mind while layers are read. -/
def syncOf (c : Controller) (layer : Nat) (l : Layer) : List (Nat × String) :=
  (l.synced.bind (c.layers[·]?)).toList.map fun followed => (layer, followed.name)

end Controller

variable {c : Controller} {registry : Registry}

theorem MachineRule.keeps_layerOptions {l : Layer} (hl : c.LayerWritable l) {scope : Scope}
    {o : Outline} (hlayer : scope.layer = o.controller.layers.size) (id : MachineId) :
    Keeps (.rootless registry) (Canonical.layerOptions c l) (atItem scope none)
      (o.putLayer { name := l.name, machine := id })
      { o.putLayer (l.readBack id) with syncs := o.syncs ++ c.syncOf scope.layer l } {} := by
  -- The layer as it is in front of each option.
  let l₁ : Layer := { name := l.name, machine := id, weight := (l.readBack id).weight }
  let l₂ : Layer := { l₁ with blending := l.blending }
  let l₃ : Layer := { l₂ with ikPass := l.ikPass }
  let l₄ : Layer := { l₃ with mask := l.mask }
  let o' : Outline := { o with syncs := o.syncs ++ c.syncOf scope.layer l }
  let keeps (ls : List Line) (o o' : Outline) : Prop :=
    Keeps (.rootless registry) ls (atItem scope none) o o' {}
  have hweight : keeps _ (o.putLayer { name := l.name, machine := id }) (o.putLayer l₁) :=
    keeps_weight hlayer 1 rfl hl.weight
  have hblending : keeps _ (o.putLayer l₁) (o.putLayer l₂) :=
    keeps_blending hlayer 1 rfl l.blending
  have hikPass : keeps _ (o.putLayer l₂) (o.putLayer l₃) := keeps_ikPass hlayer 1 rfl l.ikPass
  have hmask : keeps _ (o.putLayer l₃) (o.putLayer l₄) := keeps_mask hlayer 1 rfl hl.mask
  have hsync : keeps _ (o.putLayer l₄) (o'.putLayer l₄) := keeps_sync 1 _
  have hsyncTiming : keeps _ (o'.putLayer l₄) (o'.putLayer (l.readBack id)) :=
    keeps_syncTiming (o := o') (l := l₄) hlayer 1 rfl l.syncTiming
  exact ((((hweight.append hblending).append hikPass).append hmask).append hsync).append
    hsyncTiming

/-- An outline in which the next machine belongs to a new layer, which is to be added, and is found
by its path. -/
def Outline.openLayer (o : Outline) (name : String) : Outline :=
  { o with
    controller := (o.controller.addMachine { name }).2
    symbols := o.symbols.push [(⟨[name]⟩, .machine ⟨o.controller.machines.size⟩)] }

/-- The scope of the items of a layer. -/
def Outline.layerScope (o : Outline) (name : String) : Scope :=
  ⟨[name], o.controller.layers.size, ⟨o.controller.machines.size⟩, none, ⟨[name]⟩⟩

/-- The name of a layer adds it and its machine. -/
theorem MachineRule.react_layer {η : Type} [Host η] {s : Session η} {name : String} {o : Outline}
    (hs : s.outline = o) (hsymbols : o.symbols.size = o.controller.layers.size) {e : Event}
    (he : e.Is (.name name)) :
    ∃ s', react e s (unnamed false none) =
        .ok (named ⟨o.layerScope name, none, none⟩ .openBrace, s', none) ∧
      s'.outline = (o.openLayer name).putLayer
        { name, machine := ⟨o.controller.machines.size⟩ } := by
  subst hs
  have hsize : s.outline.controller.machines.size = s.controller.machines.size := by
    simp [Session.outline]
  have hlayers : s.symbols.size = s.controller.layers.size := hsymbols
  rw [Outline.layerScope, hsize]
  refine ⟨_, except_bind_ok.2 ⟨name, he.name_name _, rfl⟩, ?_⟩
  rw [Session.outline_persist, Session.outline_register]
  · have hmodify : (s.symbols.push []).modify s.controller.layers.size
        (· ++ [((⟨[name]⟩ : Path), NodeRef.machine ⟨s.controller.machines.size⟩)]) =
          s.symbols.push [(⟨[name]⟩, NodeRef.machine ⟨s.controller.machines.size⟩)] := by
      rw [← hlayers, modify_push_size, List.nil_append]
    simp only [Session.outline, Outline.openLayer, Outline.putLayer, Controller.addMachine,
      Controller.unlinked, Array.size_map, hmodify, Array.map_push]
    rfl
  · simp [Outline.lookup?, Session.outline, ← hlayers]

/-! ## What layers add -/

/-- An outline without anything that layers add. -/
def Outline.frame (o : Outline) : Outline :=
  { o.rest with controller := { o.rest.controller with layers := #[] }, syncs := [] }

/-- How layers change an outline; they queue the transitions `gs`. -/
structure Outline.GrowsBy (o o' : Outline) (layers : List Layer) (syncs : List (Nat × String))
    (gs : List Pending) : Prop where
  machines : Extended o.controller.machines o'.controller.machines
  states : Extended o.controller.states o'.controller.states
  motions : Extended o.controller.motions o'.controller.motions
  records : Extended o.controller.records o'.controller.records
  layers_eq : o'.controller.layers.toList = o.controller.layers.toList ++ layers
  symbols : Extended o.symbols o'.symbols
  symbols_size : o'.symbols.size = o.symbols.size + layers.length
  syncs_eq : o'.syncs = o.syncs ++ syncs
  frame : o'.frame = o.frame
  homes : ∀ g ∈ gs, g.home.Added o o'

namespace Outline.GrowsBy

variable {o o₁ o₂ : Outline} {layers layers₁ layers₂ : List Layer}
  {syncs syncs₁ syncs₂ : List (Nat × String)} {gs gs₁ gs₂ : List Pending}

theorem smaller (h : o.GrowsBy o₁ layers syncs gs) : o.Smaller o₁ :=
  ⟨h.machines.size_le, h.states.size_le, h.motions.size_le, h.records.size_le⟩

/-- What was added before lasts. -/
theorem lasts (h : o₁.GrowsBy o₂ layers syncs gs) : o.Lasts o₁ o₂ where
  machines := h.machines.agrees.mono (Nat.zero_le _) (Nat.le_refl _)
  states := h.states.agrees.mono (Nat.zero_le _) (Nat.le_refl _)
  motions := h.motions.agrees.mono (Nat.zero_le _) (Nat.le_refl _)
  records := h.records.agrees.mono (Nat.zero_le _) (Nat.le_refl _)
  nodes layer path node hn := by
    by_cases hl : layer < o₁.symbols.size
    · simp only [lookup?, Array.getD_eq_getD_getElem?] at hn ⊢
      rw [h.symbols.agrees layer (Nat.zero_le _) hl]
      exact hn
    · simp [lookup?, Array.getD_eq_getD_getElem?, Nat.le_of_not_lt hl] at hn

theorem refl (o : Outline) : o.GrowsBy o [] [] [] where
  machines := .refl _
  states := .refl _
  motions := .refl _
  records := .refl _
  layers_eq := (List.append_nil _).symm
  symbols := .refl _
  symbols_size := rfl
  syncs_eq := (List.append_nil _).symm
  frame := rfl
  homes := by simp

theorem trans (h : o.GrowsBy o₁ layers₁ syncs₁ gs₁) (h' : o₁.GrowsBy o₂ layers₂ syncs₂ gs₂) :
    o.GrowsBy o₂ (layers₁ ++ layers₂) (syncs₁ ++ syncs₂) (gs₁ ++ gs₂) where
  machines := h.machines.trans h'.machines
  states := h.states.trans h'.states
  motions := h.motions.trans h'.motions
  records := h.records.trans h'.records
  layers_eq := by rw [h'.layers_eq, h.layers_eq, List.append_assoc]
  symbols := h.symbols.trans h'.symbols
  symbols_size := by rw [h'.symbols_size, h.symbols_size, List.length_append, Nat.add_assoc]
  syncs_eq := by rw [h'.syncs_eq, h.syncs_eq, List.append_assoc]
  frame := h'.frame.trans h.frame
  homes g hg := (List.mem_append.1 hg).elim (fun hg => (h.homes g hg).mono_right h'.smaller)
    fun hg => (h'.homes g hg).mono_left h.smaller

end Outline.GrowsBy

/-- An outline in front of the items of a layer, the options of which have been read. -/
def Outline.beginLayer (o : Outline) (l : Layer) (syncs : List (Nat × String)) : Outline :=
  { (o.openLayer l.name).putLayer (l.readBack ⟨o.controller.machines.size⟩) with
    syncs := o.syncs ++ syncs }

namespace Outline

variable {o o' : Outline} {l : Layer} {syncs : List (Nat × String)}

theorem opens_beginLayer (o : Outline) (l : Layer) (syncs : List (Nat × String)) :
    o.Opens (o.layerScope l.name) l.name (o.beginLayer l syncs) where
  index := rfl
  machines := Array.size_push _
  machine := Array.getElem?_push_size
  states := rfl
  motions := rfl
  records := rfl

theorem symbols_beginLayer (hsymbols : o.symbols.size = o.controller.layers.size) :
    (o.beginLayer l syncs).symbols.getD o.controller.layers.size [] =
      [(⟨[l.name]⟩, .machine ⟨o.controller.machines.size⟩)] := by
  show (o.symbols.push _).getD o.controller.layers.size [] = _
  rw [← hsymbols]
  simp

/-- Nothing is known yet below the path of a layer. -/
theorem ready_beginLayer (hsymbols : o.symbols.size = o.controller.layers.size)
    (names : List String) : (o.beginLayer l syncs).Ready (o.layerScope l.name) names := by
  refine ⟨(o.opens_beginLayer l syncs).index_lt, ?_, ?_, fun name _ entry he hp => ?_⟩
  · show o.controller.layers.size < (o.symbols.push _).size
    rw [Array.size_push, hsymbols]
    exact Nat.lt_succ_self _
  · rw [lookup?, show (o.layerScope l.name).layer = o.controller.layers.size from rfl,
      symbols_beginLayer hsymbols]
    exact List.lookup_cons_self
  · rw [show (o.layerScope l.name).layer = o.controller.layers.size from rfl,
      symbols_beginLayer hsymbols, List.mem_singleton] at he
    subst he
    have := hp.length_le
    simp [layerScope, Path.join] at this

/-- What is read in the block of a layer comes with the layer. -/
theorem Fills.growsBy {gs : List Pending} (hsymbols : o.symbols.size = o.controller.layers.size)
    (h : (o.beginLayer l syncs).Fills (o.layerScope l.name) o' gs) :
    o.GrowsBy o' [l.readBack ⟨o.controller.machines.size⟩] syncs gs := by
  have hopen := o.opens_beginLayer l syncs
  have hsize : o.controller.machines.size < o'.controller.machines.size :=
    Nat.lt_of_lt_of_le hopen.index_lt h.machines_size
  obtain ⟨table, htable, -⟩ := h.symbols
  have hsymbols' : o'.symbols =
      o.symbols.push ([(⟨[l.name]⟩, .machine ⟨o.controller.machines.size⟩)] ++ table) := by
    rw [htable]
    show (o.symbols.push _).modify o.controller.layers.size _ = _
    rw [← hsymbols, modify_push_size]
  refine ⟨⟨Nat.le_of_lt hsize, fun i _ hi => ?_⟩, h.states, h.motions, h.records, ?_, ?_, ?_, ?_,
    ?_, fun g hg => ?_⟩
  · rw [h.machines i (Nat.zero_le _) hi]
    exact AgreesOn.push _ 0 i (Nat.zero_le _) hi
  · have hlayers : o'.controller.layers = (o.beginLayer l syncs).controller.layers :=
      congrArg (·.controller.layers) h.rest
    rw [hlayers]
    exact Array.toList_push ..
  · rw [hsymbols']
    exact .push _ _
  · rw [hsymbols', Array.size_push]
    rfl
  · exact congrArg Outline.syncs h.rest
  · exact congrArg (fun r : Outline =>
      { r with controller := { r.controller with layers := #[] }, syncs := [] }) h.rest
  · rcases h.homes g hg with hg | hg | hg
    · rw [hg]
      exact ⟨Nat.le_refl _, hsize⟩
    · rw [hg]
      exact ⟨Nat.le_refl _, hsize⟩
    · exact hg.mono_left hopen.smaller

end Outline

/-- The header of a layer leads to its items. -/
theorem MachineRule.leads_layer {o : Outline} (hsymbols : o.symbols.size = o.controller.layers.size)
    (name : String) (rest : List Frame) :
    Leads κ [(Form.word "layer").joined, (Form.name name).spaced, (Form.symbol '\x7b').spaced]
      (.document :: rest) o
      (.machine (.named ⟨o.layerScope name, none, none⟩ .item) :: .document :: rest)
      ((o.openLayer name).putLayer { name, machine := ⟨o.controller.machines.size⟩ })
      ⟨[], [.declare (o.controller.layers.size, ⟨[name]⟩,
        .machine ⟨o.controller.machines.size⟩)]⟩ := by
  refine .header (f := .machine (.unnamed false none)) (.machine (.unnamed false none))
    (.machine (.named ⟨o.layerScope name, none, none⟩ .openBrace)) _ _ (by simp) (by simp)
    (fun e s he => ?_) (fun _ => rfl) (fun e t he ht => ⟨?_, ?_⟩) (fun e s he => ?_)
  · simp +decide [Frame.react, Frame.reactDocument, he.word_isKeyword]
  · obtain ⟨t', hreact, ht'⟩ := react_layer ht hsymbols he
    exact ⟨t', by rw [Frame.react, hreact]; rfl, ht'⟩
  · subst ht
    simp [Grammar.Call.entries, Frame.declared?, Event.name_eq (he.name_name ""),
      Session.outline, Controller.unlinked]
  · simp [Frame.react, Frame.lift, react, he.symbol_isSymbol, Except.map]

/-- What is declared and ends while a layer is read. -/
def Controller.walkLayer (c : Controller) (layer : Nat) (l : Layer) : Journal :=
  .declare (layer, ⟨[l.name]⟩, .machine l.machine) ::
    c.walkBody layer c.machines.size l.machine ⟨[l.name]⟩ ++ [.close l.machine none]

/-- A layer is read back with its machine. -/
theorem Keeps.layer (h : c.TreeWritable registry) {layer : Nat} {l : Layer}
    (hl : c.layers[layer]? = some l) (hw : c.LayerWritable l) {o : Outline}
    (hlayer : o.controller.layers.size = layer) (hsymbols : o.symbols.size = layer) :
    ∃ o' gs w, Keeps (.rootless registry) (Canonical.layer c c.nodePaths l) (· = .document) o o'
        ⟨gs, w⟩ ∧
      o.GrowsBy o' [l.readBack ⟨o.controller.machines.size⟩] (c.syncOf layer l) gs ∧
      ∀ O G, o.Kept o' gs O G → ReadTree c layer O G l.machine ⟨o.controller.machines.size⟩ ∧
        List.Forall₂ (ReadEntry c O) (c.walkLayer layer l) w := by
  subst hlayer
  have hopen : o.Opens (o.layerScope l.name) (c.machine l.machine).name
      (o.beginLayer l (c.syncOf o.controller.layers.size l)) := by
    rw [hw.root]
    exact o.opens_beginLayer l _
  have hpath : c.HasPath o.controller.layers.size (.machine l.machine) ⟨[l.name]⟩ := .root hl
  obtain ⟨ps, o', gs, w, hspells, hleads, hfills, hread⟩ :=
    h.bodyReads hpath rfl (o.layerScope l.name) none 1 0 rfl rfl rfl
      (by simp [Controller.isRoot, hl]) hopen (Outline.ready_beginLayer hsymbols)
      (MachineRule.keeps_layerOptions (o := o.openLayer l.name) hw rfl
        ⟨o.controller.machines.size⟩)
  have hheader : Chunk s!"layer {Canonical.name l.name} \x7b".toList
      [(Form.word "layer").joined, (Form.name l.name).spaced, (Form.symbol '\x7b').spaced] :=
    ⟨by simp, by simp +decide⟩
  refine ⟨o', gs, .declare (o.controller.layers.size, ⟨[l.name]⟩,
      .machine ⟨o.controller.machines.size⟩) :: w ++ [.close ⟨o.controller.machines.size⟩ none],
    ⟨_, (hheader.line 0).append hspells, fun top rest htop => ?_⟩, hfills.growsBy hsymbols,
    fun O G hO => ?_⟩
  · subst htop
    have hall := (MachineRule.leads_layer hsymbols l.name rest).append (hleads .document rest)
    have htold : (⟨[], [.declare (o.controller.layers.size, ⟨[l.name]⟩,
          .machine ⟨o.controller.machines.size⟩)]⟩ ++
        (⟨gs, w⟩ ++ MachineRule.ended (o.layerScope l.name) none) : Told) =
          ⟨gs, .declare (o.controller.layers.size, ⟨[l.name]⟩,
            .machine ⟨o.controller.machines.size⟩) :: w ++
              [.close ⟨o.controller.machines.size⟩ none]⟩ :=
      congrArg (Told.mk · _) (List.append_nil gs)
    rwa [htold] at hall
  · obtain ⟨htree, hwalk⟩ := hread O G hO
    obtain ⟨path, hp, hlookup⟩ := htree.own.found
    obtain rfl := (h.toForest.path_unique hp hpath).2
    exact ⟨htree, .cons (.declare hp hlookup)
      (List.rel_append hwalk (.cons (.close htree.own.found .none) .nil))⟩

/-- Layers are read back one after another. -/
theorem Keeps.layers (h : c.TreeWritable registry) {ls : List Layer} {n : Nat}
    (hls : c.layers.toList.drop n = ls) (hw : ∀ l ∈ ls, c.LayerWritable l) {o : Outline}
    (hlayers : o.controller.layers.size = n) (hsymbols : o.symbols.size = n) :
    ∃ o' gs ids w, Keeps (.rootless registry) (ls.flatMap (Canonical.layer c c.nodePaths))
        (· = .document) o o' ⟨gs, w⟩ ∧
      o.GrowsBy o' (List.zipWith Layer.readBack ls ids)
        ((ls.zipIdx n).flatMap fun (l, i) => c.syncOf i l) gs ∧
      ∀ O G, o.Kept o' gs O G →
        List.Forall₂ (fun (l, i) id => ReadTree c i O G l.machine id) (ls.zipIdx n) ids ∧
        List.Forall₂ (ReadEntry c O) ((ls.zipIdx n).flatMap fun (l, i) => c.walkLayer i l) w := by
  induction ls generalizing n o with
  | nil => exact ⟨o, [], [], [], .nil _ o, .refl o, fun _ _ _ => ⟨.nil, .nil⟩⟩
  | cons l ls ih =>
    rw [List.forall_mem_cons] at hw
    have hl : c.layers[n]? = some l := by
      have := congrArg (·[0]?) hls
      simpa using this
    have hls' : c.layers.toList.drop (n + 1) = ls := by
      have := congrArg List.tail hls
      simpa using this
    obtain ⟨o₁, gs₁, w₁, hk₁, hg₁, hr₁⟩ := Keeps.layer h hl hw.1 hlayers hsymbols
    have hlayers₁ : o₁.controller.layers.size = n + 1 := by
      rw [← Array.length_toList, hg₁.layers_eq, List.length_append, Array.length_toList, hlayers]
      rfl
    have hsymbols₁ : o₁.symbols.size = n + 1 := by
      rw [hg₁.symbols_size, hsymbols]
      rfl
    obtain ⟨o₂, gs₂, ids, w₂, hk₂, hg₂, hr₂⟩ := ih hls' hw.2 hlayers₁ hsymbols₁
    refine ⟨o₂, gs₁ ++ gs₂, ⟨o.controller.machines.size⟩ :: ids, w₁ ++ w₂, hk₁.append hk₂,
      hg₁.trans hg₂, fun O G hO => ?_⟩
    obtain ⟨htree, hwalk⟩ := hr₁ O G (hO.first hg₂.lasts hg₂.smaller hg₂.homes)
    obtain ⟨htrees, hwalks⟩ := hr₂ O G (hO.second hg₁.smaller hg₁.homes)
    exact ⟨.cons htree htrees, List.rel_append hwalk hwalks⟩

end MotionScript
