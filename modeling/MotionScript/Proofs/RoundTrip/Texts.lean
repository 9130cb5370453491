import MotionScript.Proofs.Ownership.Walks
import MotionScript.Proofs.RoundTrip.Statements
/-!
# Controllers with the same text

A controller that has been read back exactly, with every list in the order in which it was written,
has the canonical text that it was read from.
-/

namespace MotionScript

open Canonical

/-! ## Motions and options -/

namespace Canonical

theorem childKey_readBack (m : ChildMotion) (b : BlendType) :
    childKey (m.readBack b) b = childKey m b := by
  cases b <;> rfl

theorem offset?_isZero {x : Single} (h : x.isZero = true) : offset? x = none := by
  simp [offset?, Binary.isNegative, Binary.isPositive, h]

theorem childModifiers_readBack (m : ChildMotion) (b : BlendType) :
    childModifiers (m.readBack b) = childModifiers m := by
  have hmodifiers : childModifiers (m.readBack b) = childModifiers { m with
      timeScale := (if m.timeScale != .one then some m.timeScale else none).getD .one
      cycleOffset := (if m.cycleOffset.isZero then none else some m.cycleOffset).getD .zero } := by
    cases b <;> rfl
  have hoffset : offset? ((if m.cycleOffset.isZero then none else some m.cycleOffset).getD .zero) =
      offset? m.cycleOffset := by
    split
    · rename_i h
      rw [offset?_isZero h, Option.getD_none, offset?_isZero (by decide)]
    · rfl
  have hone : (Single.one != .one) = false := by decide
  rw [hmodifiers]
  simp only [childModifiers, hoffset]
  by_cases h : (m.timeScale != .one) = true
  · simp only [h, if_true, Option.getD_some]
  · simp only [h, if_false, Option.getD_none, hone, Bool.false_eq_true]

theorem bindingLines_readBack (word : String) (standard : Single) (x : Binding Single)
    (depth : Nat) (hs : (standard != standard) = false) :
    bindingLines word standard (x.readBack standard) depth = bindingLines word standard x depth := by
  cases x with
  | parameter p => rfl
  | literal x =>
    simp only [Binding.readBack, bindingLines]
    by_cases h : (x != standard) = true
    · rw [if_pos h]
    · rw [if_neg h]
      simp only [lineIf, hs, h, Bool.false_eq_true, if_false]

end Canonical

/-- A child of a blend tree is written like the slot it was read back from. -/
theorem ChildMotion.written_eq {m n : ChildMotion} {b : BlendType}
    (h : { n with motion := none } = m.readBack b) :
    childKey n b = childKey m b ∧ childModifiers n = childModifiers m := by
  have hkey : childKey n b = childKey { n with motion := none } b := rfl
  have hmodifiers : childModifiers n = childModifiers { n with motion := none } := rfl
  exact ⟨by rw [hkey, h, childKey_readBack], by rw [hmodifiers, h, childModifiers_readBack]⟩

/-- A motion that has been read back is written as it was. -/
theorem ReadMotion.motionLines_eq {c c' : Controller} (hw : c.WellFormed) (hw' : c'.WellFormed)
    {fuel fuel' : Nat} {motion motion' : Option MotionId} (h : ReadMotion c c' motion motion')
    (hf : ∀ id ∈ motion, c.motions.size ≤ id.index + fuel)
    (hf' : ∀ id ∈ motion', c'.motions.size ≤ id.index + fuel') (depth : Nat)
    (key modifiers : String) :
    motionLines c' fuel' depth key modifiers motion' =
      motionLines c fuel depth key modifiers motion := by
  induction fuel generalizing fuel' motion motion' depth key modifiers with
  | zero =>
    cases h with
    | none => cases fuel' <;> rfl
    | clip h hc =>
      obtain ⟨asset, hc⟩ := hc
      rw [motionLines.eq_def, motionLines.eq_def]
      simp only [h, hc]
    | tree h _ _ _ =>
      have := hf _ rfl
      have := Controller.lt_size_of_tree h
      omega
  | succ fuel ih =>
    cases h with
    | none => cases fuel' <;> rfl
    | clip h hc =>
      obtain ⟨asset, hc⟩ := hc
      rw [motionLines.eq_def, motionLines.eq_def]
      simp only [h, hc]
    | @tree id id' t children h h' slots motions =>
      have hid := hf _ rfl
      have hid' := hf' _ rfl
      have hlt := Controller.lt_size_of_tree h
      have hlt' := Controller.lt_size_of_tree h'
      obtain ⟨fuel', rfl⟩ : ∃ n, fuel' = n + 1 := ⟨fuel' - 1, by omega⟩
      have hinner {c : Controller} (hw : c.WellFormed) {id : MotionId} {t : BlendTree} {fuel : Nat}
          (h : c.motion id = .tree t) (hid : c.motions.size ≤ id.index + (fuel + 1))
          {m : ChildMotion} (hm : m ∈ t.children) :
          ∀ inner ∈ m.motion, c.motions.size ≤ inner.index + fuel := by
        intro inner hi
        have hslot : inner ∈ Controller.Motion.childMotions (c.motion id) := by
          rw [h]
          exact List.mem_filterMap.2 ⟨m, hm, hi⟩
        have := (hw.slot_lt hslot).1
        omega
      have hchildren : (children.flatMap fun m => motionLines c' fuel' (depth + 1)
            (childKey m t.blendType) (childModifiers m) m.motion) =
          t.children.flatMap fun m => motionLines c fuel (depth + 1) (childKey m t.blendType)
            (childModifiers m) m.motion := by
        have hm := fun m => hinner hw h hid (m := m)
        have hm' := fun m => hinner hw' h' hid' (m := m)
        dsimp only at hm'
        generalize t.children = ms at slots motions hm
        clear h h'
        induction slots with
        | nil => simp only [List.flatMap_nil]
        | @cons a b as bs hslot _ ihs =>
          rw [List.forall_mem_cons] at hm hm'
          cases motions with
          | cons hmotion hmotions =>
            obtain ⟨hkey, hmodifiers⟩ := ChildMotion.written_eq hslot
            rw [List.flatMap_cons, List.flatMap_cons, ihs hm'.2 hmotions hm.2, hkey, hmodifiers,
              ih hmotion hm.1 hm'.1]
      rw [motionLines.eq_def c', motionLines.eq_def c]
      simp only [h, h', hchildren]
      rfl

/-! ## Nodes -/

namespace Controller

/-- Whether a state has been read back exactly, its transitions in the order in which they were
written. -/
structure RereadState (c c' : Controller) (layer : Nat) (s s' : StateId) : Prop where
  back : (c.state s).ReadAs c c' (c'.state s')
  transitions : Reread c c' layer ((c.state s).transitions.map c.transition)
    ((c'.state s').transitions.map c'.transition)

/-- Whether a machine has been read back exactly, what is nested in it aside. -/
structure RereadMachine (c c' : Controller) (layer : Nat) (m m' : MachineId) : Prop where
  name : (c'.machine m').name = (c.machine m).name
  defaultState : Option.Rel (fun s s' => Counterpart c c' layer (.state s) (.state s'))
    (c.machine m).defaultState (c'.machine m').defaultState
  records : (c'.machine m').records.map c'.record = (c.machine m).records.map c.record
  entry : Reread c c' layer ((c.machine m).entryTransitions.map c.transition)
    ((c'.machine m').entryTransitions.map c'.transition)
  any : Reread c c' layer ((c.machine m).anyTransitions.map c.transition)
    ((c'.machine m').anyTransitions.map c'.transition)

/-- Whether a controller has been read back exactly. -/
structure RereadAs (c c' : Controller) : Prop where
  parameters : c'.parameters = c.parameters
  layers : List.Forall₂ (fun l l' => l' = (l.readBack l'.machine).following l.synced)
    c.layers.toList c'.layers.toList
  trees : ∀ (layer : Nat) (l l' : Layer), c.layers[layer]? = some l → c'.layers[layer]? = some l' →
    Matches c c' (RereadMachine c c' layer) (fun _ => RereadState c c' layer) l.machine l'.machine

namespace RereadAs

variable {c c' : Controller} {layer : Nat} {scope : Path}

theorem layer_eq (h : c.RereadAs c') {l l' : Layer} (hl : c.layers[layer]? = some l)
    (hl' : c'.layers[layer]? = some l') : l' = (l.readBack l'.machine).following l.synced :=
  forall₂_getElem? h.layers (by simpa using hl) (by simpa using hl')

theorem root (h : c.RereadAs c') (l l' : Layer) (hl : c.layers[layer]? = some l)
    (hl' : c'.layers[layer]? = some l') : l'.name = l.name ∧
      Matches c c' (RereadMachine c c' layer) (fun _ => RereadState c c' layer) l.machine
        l'.machine :=
  ⟨(congrArg Layer.name (h.layer_eq hl hl') :), h.trees layer l l' hl hl'⟩

theorem machine (h : c.RereadAs c') {m m' : MachineId}
    (hm : Counterpart c c' layer (.machine m) (.machine m')) :
    Matches c c' (RereadMachine c c' layer) (fun _ => RereadState c c' layer) m m' :=
  hm.matches fun l l' hl hl' => (h.root l l' hl hl').2

theorem state (h : c.RereadAs c') {s s' : StateId}
    (hs : Counterpart c c' layer (.state s) (.state s')) : RereadState c c' layer s s' := by
  obtain ⟨_, _, _, _, _, hs⟩ := hs.matches fun l l' hl hl' => (h.root l l' hl hl').2
  exact hs

theorem stateName (h : c.RereadAs c') {s s' : StateId}
    (hs : Counterpart c c' layer (.state s) (.state s')) : (c'.state s').name = (c.state s).name :=
  (congrArg State.name (h.state hs).back.settings :)

variable (h : c.RereadAs c') (hw : c.WellFormed) (hw' : c'.WellFormed)

include h hw hw'

/-- Nodes in the same place are written with the same path. -/
theorem exists_path {n n' : NodeRef} (hn : Counterpart c c' layer n n') :
    ∃ path, c.nodePaths.path? n = some path ∧ c'.nodePaths.path? n' = some path := by
  obtain ⟨path, hp, hp'⟩ := hn.exists_path h.root (fun _ _ hm => hm.name)
    fun _ _ _ hs => (congrArg State.name hs.back.settings :)
  exact ⟨path, hw.forest.path?_eq_some.2 ⟨_, hp⟩, hw'.forest.path?_eq_some.2 ⟨_, hp'⟩⟩

theorem destination_eq {d d' : Destination} (hd : SameDestination c c' layer d d') :
    destination c' c'.nodePaths scope d' = destination c c.nodePaths scope d := by
  cases hd with
  | exit => rfl
  | @node n n' hn =>
    obtain ⟨path, hp, hp'⟩ := h.exists_path hw hw' hn
    have hgoto {c : Controller} {n : NodeRef} : destination c c.nodePaths scope n.destination =
        destination.goto c c.nodePaths scope n := by cases n <;> rfl
    rw [hgoto, hgoto, destination.goto, destination.goto, hp, hp']

omit h in
theorem toldApart (layer : Nat) : ToldApart c c' layer := by
  intro a a' b b' ha hb
  cases ha with
  | exit =>
    cases hb with
    | exit => exact iff_of_true rfl rfl
    | @node n n' hn =>
      refine iff_of_false ?_ ?_
      · cases n <;> exact nofun
      · cases n' <;> exact nofun
  | @node k k' hk =>
    cases hb with
    | exit =>
      refine iff_of_false ?_ ?_
      · cases k <;> exact nofun
      · cases k' <;> exact nofun
    | @node n n' hn =>
      rw [NodeRef.destination_injective.eq_iff, NodeRef.destination_injective.eq_iff]
      refine ⟨fun heq => ?_, fun heq => ?_⟩
      · subst heq
        exact hk.unique hw.forest hn
      · subst heq
        exact hk.symm.unique hw'.forest hn.symm

theorem statements_eq {ids ids' : List TransitionId}
    (ht : Reread c c' layer (ids.map c.transition) (ids'.map c'.transition)) (any : Bool)
    (depth : Nat) : statements c' c'.nodePaths scope any depth ids' =
      statements c c.nodePaths scope any depth ids :=
  statements_reread (toldApart hw hw' layer) ht (fun _ _ hd => h.destination_eq hw hw' hd) depth

theorem state_eq {s s' : StateId} (hs : Counterpart c c' layer (.state s) (.state s'))
    (depth : Nat) : Canonical.state c' c'.nodePaths scope depth (c'.state s') =
      Canonical.state c c.nodePaths scope depth (c.state s) := by
  obtain ⟨⟨hsettings, hmotion, hrecords⟩, htransitions⟩ := h.state hs
  have hname : (c'.state s').name = (c.state s).name := (congrArg State.name hsettings :)
  have htime : (c'.state s').time = (c.state s).time := (congrArg State.time hsettings :)
  have hspeed : (c'.state s').speed = (c.state s).speed.readBack .one :=
    (congrArg State.speed hsettings :)
  have hoffset : (c'.state s').cycleOffset = (c.state s).cycleOffset.readBack .zero :=
    (congrArg State.cycleOffset hsettings :)
  have hmirror : (c'.state s').mirror = (c.state s).mirror := (congrArg State.mirror hsettings :)
  have hfeet : (c'.state s').ikOnFeet = (c.state s).ikOnFeet := (congrArg State.ikOnFeet hsettings :)
  have hdefaults : (c'.state s').writeDefaults = (c.state s).writeDefaults :=
    (congrArg State.writeDefaults hsettings :)
  have htag : (c'.state s').tag = (c.state s).tag := (congrArg State.tag hsettings :)
  have hlines : ((c'.state s').motion.map (Canonical.motion c' (depth + 1))).getD [] =
      ((c.state s).motion.map (Canonical.motion c (depth + 1))).getD [] := by
    have hall (a b : Option MotionId) (hab : ReadMotion c c' a b) :
        (b.map (Canonical.motion c' (depth + 1))).getD [] =
          (a.map (Canonical.motion c (depth + 1))).getD [] := by
      have heq := hab.motionLines_eq hw hw' (fun id _ => Nat.le_add_left _ id.index)
        (fun id _ => Nat.le_add_left _ id.index) (depth + 1) "" ""
      cases hab with
      | none => rfl
      | clip | tree => exact heq
    exact hall _ _ hmotion
  have hbodies : ((c'.state s').records.flatMap fun id => Canonical.record (c'.record id) (depth + 1)) =
      (c.state s).records.flatMap fun id => Canonical.record (c.record id) (depth + 1) := by
    have := congrArg (List.flatMap (Canonical.record · (depth + 1))) hrecords
    rwa [List.flatMap_map, List.flatMap_map] at this
  simp only [Canonical.state, hname, htime, hspeed, hoffset, hmirror, hfeet, hdefaults, htag, hlines,
    hbodies, h.statements_eq hw hw' htransitions,
    bindingLines_readBack _ .one _ _ (by decide), bindingLines_readBack _ .zero _ _ (by decide)]

theorem machineBody_eq {fuel fuel' : Nat} {m m' : MachineId}
    (hm : Counterpart c c' layer (.machine m) (.machine m'))
    (hf : c.machines.size ≤ m.index + fuel) (hf' : c'.machines.size ≤ m'.index + fuel')
    (depth : Nat) (options : List Line) :
    machineBody c' c'.nodePaths fuel' m' depth options =
      machineBody c c.nodePaths fuel m depth options := by
  induction fuel generalizing fuel' m m' depth options with
  | zero =>
    have := hw.has hm.inLayer
    rw [Has] at this
    omega
  | succ fuel ih =>
    have hlt' := hw'.has hm.symm.inLayer
    rw [Has] at hlt'
    obtain ⟨fuel', rfl⟩ : ∃ n, fuel' = n + 1 := ⟨fuel' - 1, by omega⟩
    have hmatches := h.machine hm
    obtain ⟨hname, hdefault, hrecords, hentry, hany⟩ := hmatches.own
    obtain ⟨path, hp, hp'⟩ := h.exists_path hw hw' hm
    have hdefaults (line : String → String) :
        lineFor (c'.machine m').defaultState depth (fun id => line (c'.state id).name) =
          lineFor (c.machine m).defaultState depth fun id => line (c.state id).name := by
      generalize (c'.machine m').defaultState = d', (c.machine m).defaultState = d at hdefault
      cases hdefault with
      | none => rfl
      | some hs => simp only [lineFor, Option.map_some, h.stateName hs]
    have hstates : ((c'.machine m').states.map fun x =>
          Canonical.state c' c'.nodePaths path depth (c'.state x.node)) =
        (c.machine m).states.map fun x =>
          Canonical.state c c.nodePaths path depth (c.state x.node) := by
      refine List.ext_getElem ?_ fun i hi hi' => ?_
      · rw [List.length_map, List.length_map, hmatches.states.length_eq]
      · rw [List.length_map] at hi hi'
        rw [List.getElem_map, List.getElem_map]
        exact h.state_eq hw hw' (hm.state (List.getElem?_eq_getElem hi')
          (List.getElem?_eq_getElem hi)) depth
    have hmachines (line : String → Line) : ((c'.machine m').machines.map fun x =>
          line (c'.machine x.node).name ::
            machineBody c' c'.nodePaths fuel' x.node (depth + 1) [] ++ [.text depth "\x7d"]) =
        (c.machine m).machines.map fun x => line (c.machine x.node).name ::
          machineBody c c.nodePaths fuel x.node (depth + 1) [] ++ [.text depth "\x7d"] := by
      refine List.ext_getElem ?_ fun i hi hi' => ?_
      · rw [List.length_map, List.length_map, hmatches.machines.length_eq]
      · rw [List.length_map] at hi hi'
        have hinner := hm.machine (List.getElem?_eq_getElem hi') (List.getElem?_eq_getElem hi)
        have hchild := (hw.inner_lt (List.getElem_mem hi')).1
        have hchild' := (hw'.inner_lt (List.getElem_mem hi)).1
        rw [List.getElem_map, List.getElem_map, (h.machine hinner).own.name,
          ih hinner (by omega) (by omega)]
    have hbodies : ((c'.machine m').records.map fun id => Canonical.record (c'.record id) depth) =
        (c.machine m).records.map fun id => Canonical.record (c.record id) depth := by
      have := congrArg (List.map (Canonical.record · depth)) hrecords
      rwa [List.map_map, List.map_map] at this
    simp only [machineBody, hp, hp', Option.getD_some, hstates, hbodies,
      hdefaults fun name => s!"default {Canonical.name name};",
      hmachines fun name => Line.text depth s!"stateMachine {Canonical.name name} \x7b",
      h.statements_eq hw hw' hentry, h.statements_eq hw hw' hany]

omit hw hw' in
theorem layerOptions_eq {l l' : Layer} (hl : c.layers[layer]? = some l)
    (hl' : c'.layers[layer]? = some l') : layerOptions c' l' = layerOptions c l := by
  have hfollowed : (l.synced.bind (c'.layers[·]?)).map (·.name) =
      (l.synced.bind (c.layers[·]?)).map (·.name) := by
    cases l.synced with
    | none => rfl
    | some i =>
      rw [Option.bind_some, Option.bind_some]
      have hsize : c'.layers.size = c.layers.size := h.layers.length_eq.symm
      cases hk : c.layers[i]? with
      | none =>
        rw [Array.getElem?_eq_none_iff] at hk
        rw [Array.getElem?_eq_none (hsize ▸ hk)]
      | some k =>
        obtain ⟨hi, -⟩ := Array.getElem?_eq_some_iff.1 hk
        rw [Array.getElem?_eq_getElem (hsize.symm ▸ hi)]
        exact congrArg some (h.root k _ hk (Array.getElem?_eq_getElem (hsize.symm ▸ hi))).1
  have hsync : lineFor (l.synced.bind (c'.layers[·]?)) 1
        (fun l => s!"sync {Canonical.name l.name};") =
      lineFor (l.synced.bind (c.layers[·]?)) 1 fun l => s!"sync {Canonical.name l.name};" := by
    have := congrArg (fun x : Option String =>
      (x.map fun n => Line.text 1 s!"sync {Canonical.name n};").toList) hfollowed
    rw [Option.map_map, Option.map_map] at this
    exact this
  have hone : (Single.one != .one) = false := by decide
  rw [h.layer_eq hl hl']
  simp only [layerOptions, Layer.following, Layer.readBack, hsync]
  by_cases hweight : (l.weight != .one) = true
  · simp only [hweight, if_true]
  · simp only [hweight, hone, lineIf, Bool.false_eq_true, if_false]

theorem layer_text_eq {l l' : Layer} (hl : c.layers[layer]? = some l)
    (hl' : c'.layers[layer]? = some l') :
    Canonical.layer c' c'.nodePaths l' = Canonical.layer c c.nodePaths l := by
  have hname : l'.name = l.name := (h.root l l' hl hl').1
  rw [Canonical.layer, Canonical.layer, hname, h.layerOptions_eq hl hl',
    h.machineBody_eq hw hw' (.root hl hl') (Nat.le_add_left _ _) (Nat.le_add_left _ _)]

/-- What has been read back exactly has the canonical text that it was read from. -/
theorem canonicalText_eq : c'.canonicalText = c.canonicalText := by
  have hlayers : c'.layers.toList.map (Canonical.layer c' c'.nodePaths) =
      c.layers.toList.map (Canonical.layer c c.nodePaths) := by
    refine List.ext_getElem ?_ fun i hi hi' => ?_
    · rw [List.length_map, List.length_map, h.layers.length_eq]
    · rw [List.length_map, Array.length_toList] at hi hi'
      rw [List.getElem_map, List.getElem_map, Array.getElem_toList, Array.getElem_toList]
      exact h.layer_text_eq hw hw' (Array.getElem?_eq_getElem hi') (Array.getElem?_eq_getElem hi)
  rw [canonicalText, canonicalText, lines, lines, h.parameters, hlayers]

end RereadAs

end Controller

end MotionScript
