import MotionScript.Canonical.Document
import MotionScript.Proofs.Feeding.Records
import MotionScript.Proofs.Feeding.StateMotions
import MotionScript.Proofs.Graph.Trees
/-!
# Reading states

A written state adds a state with the same options, motion and records, and queues its transitions.
-/

namespace MotionScript

open Canonical (Line lineIf lineFor bindingLines mirrorLines)

variable {κ : Knowledge}

/-- A line that may be left out. -/
theorem Keeps.lineIf {b : Bool} {depth : Nat} {content : String} {F : Frame → Prop} {o o' : Outline}
    {t : Told} (h : b = true → Keeps κ [.text depth content] F o o' t)
    (h' : b = false → o = o' ∧ t = {}) : Keeps κ (lineIf b depth content) F o o' t := by
  cases b with
  | true => exact h rfl
  | false =>
    obtain ⟨rfl, rfl⟩ := h' rfl
    exact .nil F o

/-! ## The state that has been added last -/

/-- An outline with a further state. -/
def Outline.putState (o : Outline) (st : State) : Outline :=
  { o with controller := { o.controller with states := o.controller.states.push st } }

namespace StateRule

/-- A state as it is at an item of its block. -/
def atItem (scope : Scope) (id : StateId) (f : Frame) : Prop :=
  f = .state (named scope id .item)

variable {scope : Scope} {id : StateId} {f : State → State} {o : Outline} {st : State}

/-- A change of the state that has been added last. -/
theorem outline_change {η : Type} [Host η] {s : Session η}
    (hf : ∀ st, (f st).unlinked = f st.unlinked)
    (hid : id = ⟨o.controller.states.size⟩) (hs : s.outline = o.putState st) :
    (s.modify (·.modifyState id f)).outline = o.putState (f st) := by
  rw [s.outline_modify (s.controller.unlinked_modifyState id hf), hs, hid]
  simp only [Outline.putState, Controller.modifyState, modify_push_size]

/-- The semicolon behind an option. -/
theorem leads_stop (rest : List Frame) (o : Outline) :
    Leads κ [(Form.symbol ';').joined] (.state (named scope id .stop) :: rest) o
      (.state (named scope id .item) :: rest) o {} := by
  refine .read (.state (named scope id .item)) (by simp) (fun e s he => ?_) (.nil _ _)
  simp [Frame.react, Frame.lift, react, he.is.symbol_isSymbol, Except.map]

/-- An option that is a word. -/
theorem keeps_word (word : String) (set : Bool → State → State)
    (hw : Canonical.isBare word.toList = true)
    (hset : ∀ b st, (set b st).unlinked = set b st.unlinked)
    (hid : id = ⟨o.controller.states.size⟩)
    (h : ∀ {η : Type} [Host η] (e : Event) (s : Session η), e.Is (.word word) → reactItem scope id e s =
      .ok (named scope id .stop, s.modify (·.modifyState id (set true)), none))
    (hst : set false st = st) (depth : Nat) (b : Bool) :
    Keeps κ (lineIf b depth (word ++ ";")) (atItem scope id) (o.putState st) (o.putState (set b st))
      {} := by
  refine Keeps.lineIf (fun hb => ?_) fun hb => ?_
  · subst hb
    have hchunk : Chunk (word ++ ";").toList
        [(Form.word word).joined, (Form.symbol ';').joined] := by
      refine ⟨by simp, ?_⟩
      simp +decide [hw]
    refine ⟨_, hchunk.line depth, fun top rest htop => ?_⟩
    subst htop
    refine .stay (.state (named scope id .stop)) (by simp) (fun e s he hs => ?_) (leads_stop rest _)
    exact ⟨_, by simp only [Frame.react, Frame.lift, react, h e s he.is, Except.map],
      outline_change (hset true) hid hs⟩
  · subst hb
    rw [hst]
    exact ⟨rfl, rfl⟩

/-- An option with a value. -/
theorem keeps_value (word : String) {value : String} (v : Form) (x : StateExpect)
    (f : State → State) (hw : Canonical.isBare word.toList = true) (hv : v.Valid)
    (hc : v.chars = value.toList)
    (hj : v.Joins (.symbol ';')) (hf : ∀ st, (f st).unlinked = f st.unlinked)
    (hid : id = ⟨o.controller.states.size⟩)
    (h : ∀ {η : Type} [Host η] (e : Event) (s : Session η), e.Is (.word word) →
      reactItem scope id e s = .ok (named scope id x, s, none))
    (h' : ∀ {η : Type} [Host η] (e : Event) (s : Session η), e.Is v → react e s (named scope id x) =
      .ok (named scope id .stop, s.modify (·.modifyState id f), none))
    (depth : Nat) (st : State) :
    Keeps κ [.text depth (word ++ " " ++ value ++ ";")] (atItem scope id) (o.putState st)
      (o.putState (f st)) {} := by
  have hchunk : Chunk (word ++ " " ++ value ++ ";").toList
      [(Form.word word).joined, v.spaced, (Form.symbol ';').joined] := by
    refine ⟨by simp [hc], ?_⟩
    simp +decide [hw, hv, hj]
  refine ⟨_, hchunk.line depth, fun top rest htop => ?_⟩
  subst htop
  refine .read (.state (named scope id x)) (by simp) (fun e s he => ?_)
    (.stay (.state (named scope id .stop)) (by simp) (fun e s he hs => ?_) (leads_stop rest _))
  · simp only [Frame.react, Frame.lift, react, h e s he.is, Except.map]
  · exact ⟨_, by rw [Frame.react, h' e s he.is]; rfl, outline_change hf hid hs⟩

/-! ## Options -/

theorem keeps_time (hid : id = ⟨o.controller.states.size⟩) (depth : Nat) (h : st.time = none)
    (time : Option String) :
    Keeps κ (lineFor time depth fun p => s!"time {Canonical.name p};") (atItem scope id)
      (o.putState st) (o.putState { st with time }) {} := by
  cases time with
  | none =>
    rw [show { st with time := none } = st by rw [← h]]
    exact .nil _ _
  | some p =>
    refine keeps_value "time" (.name p) .time ({ · with time := some p }) (by decide) (by simp)
      (by simp) (by simp) (fun _ => rfl) hid (fun e s he => ?_) (fun e s he => ?_) depth st
    · simp +decide [reactItem, he.word_isSymbol, he.word_isKeyword]
    · simp [react, he.name_name]
      rfl

end StateRule

/-! ### Numbers -/

/-- A number as it is read back: a literal `standard` is left out. -/
def Binding.readBack (standard : Single) : Binding Single → Binding Single
  | .parameter p => .parameter p
  | .literal x => .literal (if x != standard then x else standard)

namespace State

/-- The options of a state as they are read back. -/
def optionsBack (s : State) : State where
  name := s.name
  time := s.time
  speed := s.speed.readBack .one
  cycleOffset := s.cycleOffset.readBack .zero
  mirror := s.mirror
  ikOnFeet := s.ikOnFeet
  writeDefaults := s.writeDefaults
  tag := s.tag

/-- Whether the numbers of a state can be written. -/
structure Finite (s : State) : Prop where
  speed : ∀ x, s.speed = .literal x → x.isFinite = true
  cycleOffset : ∀ x, s.cycleOffset = .literal x → x.isFinite = true

end State

namespace StateRule

variable {scope : Scope} {id : StateId} {o : Outline} {st : State}

theorem keeps_binding (word : String) (standard : Single) (x : StateExpect)
    (set : Binding Single → State → State) (hw : Canonical.isBare word.toList = true)
    (hset : ∀ b st, (set b st).unlinked = set b st.unlinked)
    (hid : id = ⟨o.controller.states.size⟩)
    (h : ∀ {η : Type} [Host η] (e : Event) (s : Session η), e.Is (.word word) →
      reactItem scope id e s = .ok (named scope id x, s, none))
    (h' : ∀ {η : Type} [Host η] (e : Event) (s : Session η) b, binding e = .ok b →
      react e s (named scope id x) =
        .ok (named scope id .stop, s.modify (·.modifyState id (set b)), none))
    (hst : set (.literal standard) st = st) (depth : Nat) (b : Binding Single)
    (hb : ∀ y, b = .literal y → y.isFinite = true) :
    Keeps κ (bindingLines word standard b depth) (atItem scope id) (o.putState st)
      (o.putState (set (b.readBack standard) st)) {} := by
  cases b with
  | parameter p =>
    refine keeps_value word (.name p) x (set (.parameter p)) hw (by simp) (by simp) (by simp)
      (hset _) hid h (fun e s he => h' e s _ ?_) depth st
    rw [binding, he.name_kind_ne, he.name_name]
    rfl
  | literal y =>
    refine Keeps.lineIf (fun hy => ?_) fun hy => ?_
    · have hback : (Binding.literal y).readBack standard = .literal y := by
        rw [Binding.readBack, if_pos hy]
      rw [hback]
      have hfin := hb y rfl
      refine keeps_value word (.float y) x (set (.literal y)) hw (Form.valid_single hfin) (by simp)
        (by simp) (hset _) hid h (fun e s he => h' e s _ ?_) depth st
      rw [binding, he.number_kind, he.float_number hfin]
      rfl
    · have hback : (Binding.literal y).readBack standard = .literal standard := by
        rw [Binding.readBack, hy]
        rfl
      rw [hback, hst]
      exact ⟨rfl, rfl⟩

theorem keeps_mirror (hid : id = ⟨o.controller.states.size⟩) (depth : Nat)
    (h : st.mirror = .literal false) (b : Binding Bool) :
    Keeps κ (mirrorLines b depth) (atItem scope id) (o.putState st)
      (o.putState { st with mirror := b }) {} := by
  have hword : ∀ {η : Type} [Host η] (e : Event) (s : Session η), e.Is (.word "mirror") →
      reactItem scope id e s = .ok (named scope id .mirror, s, none) := by
    intro η _ e s he
    simp +decide [reactItem, he.word_isSymbol, he.word_isKeyword]
  cases b with
  | parameter p =>
    refine keeps_value "mirror" (.name p) .mirror ({ · with mirror := .parameter p }) (by decide)
      (by simp) (by simp) (by simp) (fun _ => rfl) hid hword (fun e s he => ?_) depth st
    simp [react, he.name_isSymbol, he.name_name]
    rfl
  | literal b =>
    refine Keeps.lineIf (fun hb => ?_) fun hb => ?_
    · -- The semicolon means that the state is mirrored.
      subst hb
      have hchunk : Chunk "mirror;".toList
          [(Form.word "mirror").joined, (Form.symbol ';').joined] := ⟨by simp, by simp +decide⟩
      refine ⟨_, hchunk.line depth, fun top rest htop => ?_⟩
      subst htop
      refine .read (.state (named scope id .mirror)) (by simp) (fun e s he => ?_)
        (.stay (.state (named scope id .item)) (by simp) (fun e s he hs => ?_) (.nil _ _))
      · simp only [Frame.react, Frame.lift, react, hword e s he.is, Except.map]
      · refine ⟨_, ?_, outline_change (f := ({ · with mirror := .literal true })) (fun _ => rfl)
          hid hs⟩
        simp [Frame.react, Frame.lift, react, he.is.symbol_isSymbol, Except.map]
    · subst hb
      rw [show { st with mirror := .literal false } = st by rw [← h]]
      exact ⟨rfl, rfl⟩

theorem keeps_tag (hid : id = ⟨o.controller.states.size⟩) (depth : Nat) (h : st.tag = "")
    (tag : String) :
    Keeps κ (lineIf (tag != "") depth s!"tag {Canonical.string tag};") (atItem scope id)
      (o.putState st) (o.putState { st with tag }) {} := by
  refine Keeps.lineIf (fun ht => ?_) fun ht => ?_
  · refine keeps_value "tag" (.string tag) .tag ({ · with tag }) (by decide) (by simp) (by simp)
      (by simp) (fun _ => rfl) hid (fun e s he => ?_) (fun e s he => ?_) depth st
    · simp +decide [reactItem, he.word_isSymbol, he.word_isKeyword]
    · simp [react, he.string_name]
      rfl
  · obtain rfl : tag = "" := by simpa using ht
    rw [show { st with tag := "" } = st by rw [← h]]
    exact ⟨rfl, rfl⟩

/-- The options of a state are read back one after another. -/
theorem keeps_options {s : State} (hs : s.Finite) (hid : id = ⟨o.controller.states.size⟩)
    (depth : Nat) :
    Keeps κ (lineFor s.time depth (fun p => s!"time {Canonical.name p};") ++
        bindingLines "speed" .one s.speed depth ++
        bindingLines "cycleOffset" .zero s.cycleOffset depth ++ mirrorLines s.mirror depth ++
        lineIf s.ikOnFeet depth "ikOnFeet;" ++ lineIf s.writeDefaults depth "writeDefaults;" ++
        lineIf (s.tag != "") depth s!"tag {Canonical.string s.tag};")
      (atItem scope id) (o.putState { name := s.name }) (o.putState s.optionsBack) {} := by
  -- The state as it is in front of each option.
  let st₁ : State := { name := s.name, time := s.time }
  let st₂ : State := { st₁ with speed := s.speed.readBack .one }
  let st₃ : State := { st₂ with cycleOffset := s.cycleOffset.readBack .zero }
  let st₄ : State := { st₃ with mirror := s.mirror }
  let st₅ : State := { st₄ with ikOnFeet := s.ikOnFeet }
  let st₆ : State := { st₅ with writeDefaults := s.writeDefaults }
  let keeps (ls : List Line) (st st' : State) : Prop :=
    Keeps κ ls (atItem scope id) (o.putState st) (o.putState st') {}
  have htime : keeps _ { name := s.name } st₁ := keeps_time hid depth rfl s.time
  have hspeed : keeps _ st₁ st₂ :=
    keeps_binding "speed" .one .speed (fun speed => ({ · with speed })) (by decide) (fun _ _ => rfl)
      hid (fun e s he => by simp +decide [reactItem, he.word_isSymbol, he.word_isKeyword])
      (fun e s b hb => by rw [react, hb]; rfl) rfl depth s.speed hs.speed
  have hoffset : keeps _ st₂ st₃ :=
    keeps_binding "cycleOffset" .zero .cycleOffset (fun cycleOffset => ({ · with cycleOffset }))
      (by decide) (fun _ _ => rfl) hid
      (fun e s he => by simp +decide [reactItem, he.word_isSymbol, he.word_isKeyword])
      (fun e s b hb => by rw [react, hb]; rfl) rfl depth s.cycleOffset hs.cycleOffset
  have hmirror : keeps _ st₃ st₄ := keeps_mirror hid depth rfl s.mirror
  have hfeet : keeps _ st₄ st₅ :=
    keeps_word "ikOnFeet" (fun ikOnFeet => ({ · with ikOnFeet })) (by decide) (fun _ _ => rfl) hid
      (fun e s he => by simp +decide [reactItem, he.word_isSymbol, he.word_isKeyword]) rfl depth
      s.ikOnFeet
  have hdefaults : keeps _ st₅ st₆ :=
    keeps_word "writeDefaults" (fun writeDefaults => ({ · with writeDefaults })) (by decide)
      (fun _ _ => rfl) hid
      (fun e s he => by simp +decide [reactItem, he.word_isSymbol, he.word_isKeyword]) rfl depth
      s.writeDefaults
  have htag : keeps _ st₆ s.optionsBack := keeps_tag hid depth rfl s.tag
  exact (((((htime.append hspeed).append hoffset).append hmirror).append hfeet).append
    hdefaults).append htag

end StateRule

/-! ## Equality of options -/

theorem Binding.readBack_beq {standard : Single} {b : Binding Single}
    (hb : ∀ x, b = .literal x → x.isFinite = true) : (b.readBack standard == b) = true := by
  cases b with
  | parameter p => exact beq_self_eq_true p
  | literal x =>
    show ((if x != standard then x else standard) == x) = true
    split
    · exact Binary.beq_self (hb x rfl)
    · rename_i hx
      exact BEq.symm (by simpa [bne] using hx)

theorem State.optionsBack_beq {s : State} (hs : s.Finite) :
    (s.optionsBack == s.settings) = true := by
  have hmirror : (s.mirror == s.mirror) = true := by
    cases s.mirror with
    | literal b => exact beq_self_eq_true b
    | parameter p => exact beq_self_eq_true p
  show instBEqState.beq _ _ = true
  simp [instBEqState.beq, State.optionsBack, State.settings, Binding.readBack_beq hs.speed,
    Binding.readBack_beq hs.cycleOffset, hmirror]

/-! ## Motion and records -/

/-- An outline with other records. -/
def Outline.withRecords (o : Outline) (records : Array Record) : Outline :=
  { o with controller := { o.controller with records } }

/-- Records are read back in order. `put` is how a list of records is changed in an outline. -/
theorem Keeps.records {F : Frame → Prop} {scope : Scope} {depth : Nat} {rs : List Record}
    (h : ∀ r ∈ rs, ∀ o, Keeps κ (Canonical.record r depth) F o (o.addRecord scope r) {})
    (put : Array Record → List RecordId → Outline)
    (hput : ∀ records ids r, (put records ids).addRecord scope r =
      put (records.push r) (ids ++ [⟨records.size⟩]))
    (records : Array Record) (ids : List RecordId) :
    ∃ records' ids', Keeps κ (rs.flatMap fun r => Canonical.record r depth) F (put records ids)
        (put records' (ids ++ ids')) {} ∧
      Extended records records' ∧ ∀ c' : Controller,
        AgreesOn records.size records'.size records' c'.records → ids'.map c'.record = rs := by
  induction rs generalizing records ids with
  | nil =>
    refine ⟨records, [], ?_, .refl records, fun c' _ => rfl⟩
    rw [List.append_nil]
    exact .nil F _
  | cons r rs ih =>
    rw [List.forall_mem_cons] at h
    have hfirst := h.1 (put records ids)
    rw [hput] at hfirst
    obtain ⟨records', ids', hrest, hext, hsame⟩ := ih h.2 (records.push r) (ids ++ [⟨records.size⟩])
    have hsize : records.size < records'.size := by
      have := hext.size_le
      rw [Array.size_push] at this
      exact this
    refine ⟨records', ⟨records.size⟩ :: ids', ?_, (Extended.push records r).trans hext,
      fun c' hc => ?_⟩
    · rw [List.append_assoc] at hrest
      exact hfirst.append hrest
    · have hget : c'.records[records.size]? = some r := by
        rw [hc _ (Nat.le_refl _) hsize, hext.agrees _ (Nat.zero_le _) (by simp)]
        simp
      have hlow : (records.push r).size ≤ records'.size := hext.size_le
      rw [List.map_cons, hsame c' (hc.mono (by simp) (Nat.le_refl _)), Controller.record,
        Array.getD_eq_getD_getElem?, hget, Option.getD_some]

namespace StateRule

variable {scope : Scope} {id : StateId} {o : Outline} {st : State}

theorem putState_addRecord (o : Outline) (st : State) (hs : scope.state = some id)
    (hid : id = ⟨o.controller.states.size⟩) (r : Record) : (o.putState st).addRecord scope r =
      (o.withRecords (o.controller.records.push r)).putState
        { st with records := st.records ++ [⟨o.controller.records.size⟩] } := by
  simp only [Outline.addRecord, hs, hid, Outline.putState, Outline.withRecords,
    Controller.addRecord, Controller.modifyState, modify_push_size]

theorem keeps_records {c : Controller} {registry : Registry} (o : Outline) (st : State)
    (hs : scope.state = some id) (hid : id = ⟨o.controller.states.size⟩) (depth : Nat)
    {ids : List RecordId} (hr : ∀ id ∈ ids, (c.record id).Writable registry words)
    (hst : st.records = []) :
    ∃ records ids', Keeps (.rootless registry)
        (ids.flatMap fun id => Canonical.record (c.record id) depth) (atItem scope id)
        (o.putState st) ((o.withRecords records).putState { st with records := ids' }) {} ∧
      Extended o.controller.records records ∧ ∀ c' : Controller,
        AgreesOn o.controller.records.size records.size records c'.records →
          ids'.map c'.record = ids.map c.record := by
  have hblock : ∀ f, atItem scope id f → f.Block scope words := fun f hf => hf ▸ block scope id
  have hkeeps : ∀ r ∈ ids.map c.record, ∀ o, Keeps (.rootless registry) (Canonical.record r depth)
      (atItem scope id) o (o.addRecord scope r) {} := by
    intro r hmem o
    obtain ⟨id, hid, rfl⟩ := List.mem_map.1 hmem
    exact (hr id hid).keeps hblock o depth
  obtain ⟨records, ids', hk, hext, hsame⟩ := Keeps.records hkeeps
    (fun records ids => (o.withRecords records).putState { st with records := ids })
    (fun records ids r => putState_addRecord (o.withRecords records) { st with records := ids } hs
      hid r) o.controller.records []
  refine ⟨records, ids', ?_, hext, hsame⟩
  rw [List.flatMap_map] at hk
  have hstart : { st with records := [] } = st := by rw [← hst]
  rw [hstart] at hk
  exact hk

theorem keeps_motion {c : Controller} (o : Outline) (st : State) (hs : scope.state = some id)
    (hid : id = ⟨o.controller.states.size⟩) (depth : Nat) {motion : Option MotionId}
    (hm : c.MotionWritableFor (κ.finds · .animationClip) c.motions.size motion)
    (hst : st.motion = none) :
    ∃ motions id', Keeps κ ((motion.map (Canonical.motion c depth)).getD []) (atItem scope id)
        (o.putState st) ((o.withMotions motions).putState { st with motion := id' }) {} ∧
      Extended o.controller.motions motions ∧ ∀ c' : Controller,
        AgreesOn o.controller.motions.size motions.size motions c'.motions →
          ReadMotion c c' motion id' := by
  cases motion with
  | none =>
    refine ⟨o.controller.motions, none, ?_, .refl _, fun _ _ => .none⟩
    have hst' : { st with motion := none } = st := by rw [← hst]
    rw [hst']
    exact .nil _ _
  | some m =>
    obtain ⟨motions, id', hk, hsize, hold, hsame⟩ := Keeps.motion hm depth hs (o.putState st)
    refine ⟨motions, id', ?_, ⟨hsize, hold⟩, hsame⟩
    have heq : (o.withMotions motions).putState { st with motion := id' } =
        { (o.putState st).withMotions motions with
          controller := ((o.putState st).withMotions motions).controller.modifyState id
            ({ · with motion := id' }) } := by
      simp only [hid, Outline.putState, Outline.withMotions, Controller.modifyState,
        modify_push_size]
    rw [heq]
    exact hk

end StateRule

/-! ## Blocks of states -/

/-- A machine as it is at an item of its block. -/
def MachineRule.atItem (scope : Scope) (parent : Option MachineId) (f : Frame) : Prop :=
  ∃ default, f = .machine (named ⟨scope, parent, default⟩ .item)

/-- The words `state` and `stateMachine` start the blocks of children. -/
theorem MachineRule.reactItem_child {m : OpenMachine} {e : Event} {text : String}
    (ht : text ∈ ["state", "stateMachine"]) {η : Type} [Host η] (s : Session η)
    (he : e.Is (.word text)) :
    reactItem m e s = .ok (named m .item, s, some (.attach (if text = "state"
      then .state (.unnamed none) else .machine (.unnamed true none)) false)) := by
  have havoid : ∀ text ∈ ["state", "stateMachine"], Avoids text optionWords := by
    simp only [Avoids]
    decide
  have hoption : layerOption? m e s = none := by
    refine layerOption?_word s he ?_
    split
    · exact havoid text ht
    · simp [Avoids]
  simp only [List.mem_cons, List.not_mem_nil, or_false] at ht
  rcases ht with rfl | rfl
  all_goals simp +decide [reactItem, he.word_isSymbol, he.word_isKeyword, hoption]

/-- The scope of the items of a state. -/
def Scope.ofState (scope : Scope) (id : StateId) (name : String) : Scope :=
  { scope with state := some id, hint := scope.hint ++ [name] }

/-- An outline in which the next state is the last child of a machine and found by its path. -/
def Outline.placeState (o : Outline) (scope : Scope) (name : String) : Outline :=
  { o with
    controller := o.controller.modifyMachine scope.machine fun m =>
      { m with states := m.states ++ [⟨⟨o.controller.states.size⟩, none⟩] }
    symbols := o.symbols.modify scope.layer
      (· ++ [(scope.path.join name, .state ⟨o.controller.states.size⟩)]) }

/-- Whether a state can be written. -/
structure Controller.StateWritable (c : Controller) (registry : Registry) (s : State) : Prop
    extends State.Finite s where
  motion : c.MotionWritable c.motions.size s.motion
  records : ∀ id ∈ s.records, (c.record id).Writable registry StateRule.words
  transitions : ∀ id ∈ s.transitions, TransitionRule.Writable (c.transition id)

/-- Whether a state has been read back, its transitions aside. -/
structure State.ReadAs (s : State) (c c' : Controller) (s' : State) : Prop where
  settings : s'.settings = s.optionsBack
  motion : ReadMotion c c' s.motion s'.motion
  records : s'.records.map c'.record = s.records.map c.record

/-- A state that is read back equals the one that was written. -/
theorem State.ReadAs.same {c c' : Controller} {registry : Registry} {s s' : State}
    (h : s.ReadAs c c' s') (hw : c.StateWritable registry s) : SameState c c' s s' where
  settings := by
    rw [h.settings]
    exact State.optionsBack_beq hw.toFinite
  motion := h.motion.same hw.motion.resolves
  records := h.records

/-- The name of a state adds it. -/
theorem StateRule.react_name {η : Type} [Host η] {s : Session η} {scope : Scope} {name : String}
    {o : Outline} (hs : s.outline = o)
    (hnew : o.lookup? scope.layer (scope.path.join name) = none) {e : Event}
    (he : e.Is (.name name)) :
    ∃ s', react e s (unnamed (some scope)) =
        .ok (named (scope.ofState ⟨o.controller.states.size⟩ name) ⟨o.controller.states.size⟩
          .openBrace, s', none) ∧
      s'.outline = (o.placeState scope name).putState { name } := by
  subst hs
  have hsize : s.outline.controller.states.size = s.controller.states.size := by
    simp [Session.outline]
  let place (m : Machine) : Machine :=
    { m with states := m.states ++ [⟨⟨s.controller.states.size⟩, none⟩] }
  have hc : ((s.controller.addState { name }).2.modifyMachine scope.machine place).unlinked =
      (s.outline.controller.addState { name }).2.modifyMachine scope.machine place := by
    have hplace : ∀ m, (place m).unlinked = place m.unlinked := fun _ => rfl
    rw [Controller.unlinked_modifyMachine _ _ hplace, Controller.unlinked_addState]
    rfl
  rw [hsize]
  refine ⟨_, except_bind_ok.2 ⟨name, he.name_name _, rfl⟩, ?_⟩
  rw [Session.outline_persist, Session.outline_register]
  · simp only [Outline.placeState, Outline.putState, hsize]
    exact congrArg (fun c => { s.outline with
      controller := c
      symbols := s.symbols.modify scope.layer
        (· ++ [(scope.path.join name, NodeRef.state ⟨s.controller.states.size⟩)]) }) hc
  · exact hnew

/-- The header of a state leads to its items. -/
theorem StateRule.leads_header {κ : Knowledge} {o : Outline} {scope : Scope} {name : String}
    (hnew : o.lookup? scope.layer (scope.path.join name) = none) (parent : Option MachineId)
    (default : Option NameUse) (rest : List Frame) :
    Leads κ [(Form.word "state").joined, (Form.name name).spaced, (Form.symbol '\x7b').spaced]
      (.machine (.named ⟨scope, parent, default⟩ .item) :: rest) o
      (.state (.named (scope.ofState ⟨o.controller.states.size⟩ name) ⟨o.controller.states.size⟩
        .item) :: .machine (.named ⟨scope, parent, default⟩ .item) :: rest)
      ((o.placeState scope name).putState { name })
      ⟨[], [.declare (scope.layer, scope.path.join name, .state ⟨o.controller.states.size⟩)]⟩ := by
  refine .header (f := .state (.unnamed none)) (.state (.unnamed (some scope)))
    (.state (.named (scope.ofState ⟨o.controller.states.size⟩ name) ⟨o.controller.states.size⟩
      .openBrace)) _ _ (Frame.quiet_machine _ _) (by simp) (fun e s he => ?_) (fun _ => rfl)
    (fun e t he ht => ⟨?_, ?_⟩) (fun e s he => ?_)
  · rw [Frame.react, MachineRule.react, MachineRule.reactItem_child (by simp) s he]
    rfl
  · obtain ⟨t', hname, ht'⟩ := react_name ht hnew he
    exact ⟨t', by rw [Frame.react, hname]; rfl, ht'⟩
  · subst ht
    simp [Grammar.Call.entries, Frame.declared?, Event.name_eq (he.name_name ""),
      Session.outline]
  · simp [Frame.react, Frame.lift, react, he.symbol_isSymbol, Except.map]

/-- A state ends with a brace. -/
theorem StateRule.leads_close {κ : Knowledge} (scope : Scope) (id : StateId) (below : Frame)
    (rest : List Frame) (o : Outline) :
    Leads κ [(Form.symbol '\x7d').joined] (.state (.named scope id .item) :: below :: rest) o
      (below :: rest) o {} := by
  refine .detach (.state (.named scope id .item)) (by simp) fun e s he hs => ⟨s, ?_, hs, rfl⟩
  simp [Frame.react, Frame.lift, react, reactItem, he.is.symbol_isSymbol, Except.map]

/-- A written state is added to its machine, with its path, and its transitions are queued. -/
theorem Keeps.state {c : Controller} {registry : Registry} {s : State}
    (h : c.StateWritable registry s) {o : Outline} {scope : Scope}
    (hnew : o.lookup? scope.layer (scope.path.join s.name) = none) {paths : Controller.NodePaths}
    (hd : ∀ id ∈ s.transitions, ∃ path,
      TransitionRule.Within paths scope (c.transition id).destination path)
    (parent : Option MachineId) (depth : Nat) :
    ∃ motions records st gs,
      Keeps (.rootless registry) (Canonical.state c paths scope.path depth s)
        (MachineRule.atItem scope parent) o
        ((((o.placeState scope s.name).withMotions motions).withRecords records).putState st)
        ⟨gs, [.declare (scope.layer, scope.path.join s.name, .state ⟨o.controller.states.size⟩)]⟩ ∧
      Extended o.controller.motions motions ∧ Extended o.controller.records records ∧
      (∀ c' : Controller, AgreesOn o.controller.motions.size motions.size motions c'.motions →
        AgreesOn o.controller.records.size records.size records c'.records → s.ReadAs c c' st) ∧
      TransitionRule.QueuesAll paths (scope.ofState ⟨o.controller.states.size⟩ s.name) false
        (s.transitions.map c.transition) gs := by
  let id : StateId := ⟨o.controller.states.size⟩
  let inner := scope.ofState id s.name
  let o₁ := o.placeState scope s.name
  have hid : id = ⟨o₁.controller.states.size⟩ := rfl
  have hinner : inner.state = some id := rfl
  have hoptions : Keeps (.rootless registry) _ (StateRule.atItem inner id)
      (o₁.putState { name := s.name })
    (o₁.putState s.optionsBack) {} := StateRule.keeps_options h.toFinite hid (depth + 1)
  have hwritable : c.MotionWritableFor ((Knowledge.rootless registry).finds · .animationClip)
    c.motions.size s.motion := h.motion.resolves
  obtain ⟨motions, motion, hmotion, hmotions, hsame⟩ :=
    StateRule.keeps_motion o₁ s.optionsBack hinner hid (depth + 1) hwritable rfl
  obtain ⟨records, ids, hrecords, hrecords', hvalues⟩ :=
    StateRule.keeps_records (o₁.withMotions motions) { s.optionsBack with motion } hinner hid
      (depth + 1) h.records rfl
  let st : State := { s.optionsBack with motion, records := ids }
  have hblock : ∀ f, StateRule.atItem inner id f → f.Block inner StateRule.words :=
    fun f hf => hf ▸ StateRule.block inner id
  let o₂ := ((o₁.withMotions motions).withRecords records).putState st
  have hstatements : ∃ gs, Keeps (.rootless registry)
      (Canonical.statements c paths scope.path false (depth + 1)
        s.transitions) (StateRule.atItem inner id) o₂ o₂ ⟨gs, []⟩ ∧
      TransitionRule.QueuesAll paths inner false (s.transitions.map c.transition) gs :=
    Keeps.statements hblock c (depth + 1) o₂ h.transitions hd
  obtain ⟨gs, hstatements, hqueues⟩ := hstatements
  refine ⟨motions, records, st, gs, ?_, hmotions, hrecords', fun c' hm hr => ?_, hqueues⟩
  · obtain ⟨ps, hspells, hleads⟩ :=
      ((hoptions.append hmotion).append hrecords).append hstatements
    have hopen : Chunk s!"state {Canonical.name s.name} \x7b".toList
        [(Form.word "state").joined, (Form.name s.name).spaced, (Form.symbol '\x7b').spaced] :=
      ⟨by simp, by simp +decide⟩
    have hclose : Chunk "\x7d".toList [(Form.symbol '\x7d').joined] := ⟨by simp, by simp +decide⟩
    refine ⟨_, ((hopen.line depth).append hspells).append (hclose.line depth),
      fun top rest htop => ?_⟩
    obtain ⟨default, rfl⟩ := htop
    have hall := ((StateRule.leads_header hnew parent default rest).append (hleads _ _ rfl)).append
      (StateRule.leads_close inner id _ rest o₂)
    simp only [Told.nil_append, Told.append_nil] at hall
    exact hall
  · exact ⟨rfl, hsame c' hm, hvalues c' hr⟩

end MotionScript
