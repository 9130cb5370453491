import MotionScript.Proofs.Linking.Turn
import MotionScript.Proofs.Ownership.Changes
import MotionScript.Proofs.Shape.Turn
/-!
# Growth

What the turn of a rule does to the graph: it changes a node or adds one, and a node that is added
gets its place at once. Only motions have to wait until their rule is detached.
-/

namespace MotionScript

namespace Controller

/-- A change of a graph that adds no node, takes nothing in and keeps all names. A state may drop its
motion. -/
inductive Edit (c : Controller) : Controller → Prop where
  | same : Edit c c
  | parameter (p : Parameter) (hname : p.name ≠ "") (hnew : p.name ∉ c.parameters.map (·.name)) :
    Edit c { c with parameters := c.parameters ++ [p] }
  | layer (i : Nat) (f : Layer → Layer)
    (hf : ∀ l, (f l).machine = l.machine ∧ (f l).synced = l.synced ∧ (f l).name = l.name) :
    Edit c (c.modifyLayer i f)
  | state (id : StateId) (f : State → State) (hf : ∀ st, (f st).transitions = st.transitions ∧
      (f st).records = st.records ∧ ((f st).motion = st.motion ∨ (f st).motion = none) ∧
      (f st).name = st.name) :
    Edit c (c.modifyState id f)
  | tree (id : MotionId) (f : BlendTree → BlendTree) (hf : ∀ t, (f t).children = t.children) :
    Edit c (c.modifyMotion id (·.modifyTree f))
  | record (id : RecordId) (f : Record → Record) : Edit c (c.modifyRecord id f)

/-- Adds a record to the state or the machine of a scope. -/
def placeRecord (c : Controller) (scope : Scope) (record : Record) : Controller :=
  match scope.state with
  | some state => (c.addRecord record).2.modifyState state fun st =>
      { st with records := st.records ++ [⟨c.records.size⟩] }
  | none => (c.addRecord record).2.modifyMachine scope.machine fun m =>
      { m with records := m.records ++ [⟨c.records.size⟩] }

end Controller

/-! ## What rules know -/

/-- Where a rule is. -/
structure Seat where
  layer : Nat
  machine : MachineId
  state : Option StateId

def Scope.seat (scope : Scope) : Seat := ⟨scope.layer, scope.machine, scope.state⟩

namespace Frame

/-- The scope a rule holds. -/
def scope? : Frame → Option Scope
  | .machine (.unnamed _ outer) | .state (.unnamed outer) | .record (.typeName outer _ _) => outer
  | .machine (.named m _) => some m.scope
  | .state (.named scope _ _) => some scope
  | .transition r => r.scope
  | .motion r => r.scope
  | .document | .parameter _ | .record (.body _ _) => none

/-- The motion a rule holds. -/
def motion? : Frame → Option MotionId
  | .motion r => r.motion
  | _ => none

/-- The slot of the motion of a rule. -/
def slot? : Frame → Option MotionSlot
  | .motion r => some r.slot
  | _ => none

/-- What the turn of a rule does to the graph. -/
inductive Growth (c : Controller) (f : Frame) : Controller → Frame → Prop where
  | edit {c' : Controller} {f' : Frame} (hc : c.Edit c')
    (hs : ∀ scope ∈ f'.scope?, ∃ old ∈ f.scope?, scope.seat = old.seat)
    (hm : f'.motion? = f.motion?) (hslot : f'.slot? = f.slot?) : Growth c f c' f'
  | layer {f' : Frame} (name : String)
    (hs : ∀ scope ∈ f'.scope?, scope.seat = ⟨c.layers.size, ⟨c.machines.size⟩, none⟩)
    (hm : f'.motion? = none) (hslot : f'.slot? = none) :
    Growth c f ((c.addMachine { name }).2.addLayer { name, machine := ⟨c.machines.size⟩ }).2 f'
  | machine {f' : Frame} (outer : Scope) (ho : outer ∈ f.scope?) (name : String)
    (hs : ∀ scope ∈ f'.scope?, scope.seat = ⟨outer.layer, ⟨c.machines.size⟩, none⟩)
    (hm : f'.motion? = none) (hslot : f'.slot? = none) :
    Growth c f ((c.addMachine { name }).2.modifyMachine outer.machine fun m =>
      { m with machines := m.machines ++ [⟨⟨c.machines.size⟩, none⟩] }) f'
  | state {f' : Frame} (outer : Scope) (ho : outer ∈ f.scope?) (name : String)
    (hs : ∀ scope ∈ f'.scope?, scope.seat = ⟨outer.layer, outer.machine, some ⟨c.states.size⟩⟩)
    (hm : f'.motion? = none) (hslot : f'.slot? = none) :
    Growth c f ((c.addState { name }).2.modifyMachine outer.machine fun m =>
      { m with states := m.states ++ [⟨⟨c.states.size⟩, none⟩] }) f'
  | record {f' : Frame} (outer : Scope) (ho : outer ∈ f.scope?) (record : Record)
    (hs : f'.scope? = none) (hm : f'.motion? = none) (hslot : f'.slot? = none) :
    Growth c f (c.placeRecord outer record) f'
  | motion {f' : Frame} (m : Motion) (hc : Controller.Motion.childMotions m = [])
    (hs : ∀ scope ∈ f'.scope?, ∃ old ∈ f.scope?, scope.seat = old.seat)
    (hm : f'.motion? = some ⟨c.motions.size⟩) (hslot : f'.slot? = f.slot?) :
    Growth c f (c.addMotion m).2 f'

end Frame

variable {η : Type} [Host η]

/-! ## Turns of the rules -/

theorem Session.resolve_controller {s s' : Session η} {reference : String} {kind : AssetKind}
    {asset : Option Asset} (h : s.resolve reference kind = (asset, s')) :
    s'.controller = s.controller := by
  cases h
  rfl

theorem Session.register_controller (s : Session η) (layer : Nat) (path : Path) (node : NodeRef)
    (e : Event) : (s.register layer path node e).controller = s.controller := by
  unfold register
  split <;> rfl

theorem ParameterRule.declare_edit (s : Session η) (d : Declaration) :
    s.controller.Edit (declare s d).controller := by
  unfold declare
  split
  · exact .same
  · rename_i hname
    split
    · rename_i c hc
      unfold Controller.addParameter? at hc
      split at hc
      · cases hc
      · rename_i hnew
        cases hc
        refine .parameter _ hname fun hmem => hnew ?_
        obtain ⟨p, hp, heq⟩ := List.mem_map.1 hmem
        exact List.find?_isSome.2 ⟨p, hp, by simpa using heq⟩
    · exact .same

theorem ParameterRule.Move.edit {e : Event} {s s' : Session η} {r r' : ParameterRule}
    {control : Control Frame} (h : Move e s r r' s' control) :
    s.controller.Edit s'.controller := by
  cases h with
  | declare => exact declare_edit s _
  | _ => exact .same

theorem MachineRule.Move.edit {m : OpenMachine} {x : MachineExpect} {e : Event}
    {s s' : Session η} {r' : MachineRule} {control : Control Frame}
    (h : Move e s (.named m x) r' s' control) : s.controller.Edit s'.controller := by
  cases h with
  | option _ _ hf => exact .layer _ _ hf
  | mask => exact .layer _ _ fun _ => ⟨rfl, rfl, rfl⟩
  | _ => exact .same

theorem StateRule.Move.edit {scope : Scope} {id : StateId} {x : StateExpect} {e : Event}
    {s s' : Session η} {r' : StateRule} {control : Control Frame}
    (h : Move e s (.named scope id x) r' s' control) :
    s.controller.Edit s'.controller := by
  cases h with
  | set _ _ _ _ hf => exact .state _ _ hf
  | _ => exact .same

namespace MotionRule

omit [Host η] in
theorem modifyTree_edit (r : MotionRule) (s : Session η) {f : BlendTree → BlendTree}
    (hf : ∀ t, (f t).children = t.children) : s.controller.Edit (r.modifyTree s f).controller := by
  unfold modifyTree
  split
  · exact .tree _ f hf
  · exact .same

/-- What a motion does to the graph: it becomes a new node, or it goes on with what it is. A clip that
it becomes is what the host finds for a reference. -/
theorem Move.growth {e : Event} {s s' : Session η} {r r' : MotionRule} {control : Control Frame}
    (h : Move e s r r' s' control) :
    (s.controller.Edit s'.controller ∧ r'.motion = r.motion) ∨
      ∃ m, Controller.Motion.childMotions m = [] ∧ s'.controller = (s.controller.addMotion m).2 ∧
        r'.motion = some ⟨s.controller.motions.size⟩ ∧ ∀ asset, m = .clip asset →
          ∃ reference, (Host.resolve s.host reference .animationClip).1 = some asset := by
  cases h with
  | clip reference =>
    unfold MotionRule.clip
    split
    · rename_i asset _ hr
      refine .inr ⟨.clip asset, rfl, by rw [s.resolve_controller hr],
        by rw [s.resolve_controller hr]; rfl, ?_⟩
      rintro _ ⟨⟩
      exact ⟨reference, congrArg Prod.fst hr⟩
    · rename_i hr
      rw [s.resolve_controller hr]
      exact .inl ⟨.same, rfl⟩
  | openTree name => exact .inr ⟨.tree { name }, rfl, rfl, rfl, nofun⟩
  | tree _ _ hf => exact .inl ⟨r.modifyTree_edit s hf, rfl⟩
  | expect | modify | closeTree | child | detach => exact .inl ⟨.same, rfl⟩

end MotionRule

/-! ## Turns of records -/

theorem OpenRecord.Change.edit {s s' : Session η} {id : RecordId} (h : Change s id s') :
    s.controller.Edit s'.controller := by
  cases h with
  | same | missing => exact .same
  | value | object => exact .record _ _

namespace RecordRule

theorem attach_controller (s : Session η) (scope : Scope) (record : Record) :
    (attach s scope record).2.controller = s.controller.placeRecord scope record := by
  unfold attach Controller.placeRecord
  cases scope.state <;> rfl

/-- What a record does to the graph: it becomes a new node, or it goes on with what it is. -/
theorem Move.growth {e : Event} {s s' : Session η} {r r' : RecordRule} {control : Control Frame}
    (h : Move e s r r' s' control) :
    (s.controller.Edit s'.controller ∧
      ∀ scope ∈ (Frame.record r').scope?, scope ∈ (Frame.record r).scope?) ∨
    ∃ scope record, scope ∈ (Frame.record r).scope? ∧ (Frame.record r').scope? = none ∧
      s'.controller = s.controller.placeRecord scope record := by
  cases h with
  | typeName => exact .inl ⟨.same, fun scope hs => hs⟩
  | openBody scope => exact .inr ⟨scope, _, rfl, rfl, attach_controller s _ _⟩
  | body _ _ hr => exact .inl ⟨hr.edit, nofun⟩
  | stop => exact .inl ⟨.same, nofun⟩

end RecordRule

/-! ## Declarations -/

namespace MachineRule

theorem declareLayer_controller (e : Event) (name : String) (s : Session η) :
    (declareLayer e name s).2.controller = ((s.controller.addMachine { name }).2.addLayer
      { name, machine := ⟨s.controller.machines.size⟩ }).2 :=
  Session.register_controller _ _ _ _ e

theorem declareNested_controller (scope : Scope) (e : Event) (name : String) (s : Session η) :
    (declareNested scope e name s).2.controller =
      (s.controller.addMachine { name }).2.modifyMachine scope.machine fun m =>
        { m with machines := m.machines ++ [⟨⟨s.controller.machines.size⟩, none⟩] } :=
  Session.register_controller _ _ _ _ e

theorem declareLayer_growth (outer : Option Scope) (e : Event) (name : String) (s : Session η)
    (x : MachineExpect) :
    (Frame.machine (.unnamed false outer)).Growth s.controller (declareLayer e name s).2.controller
      (.machine (.named (declareLayer e name s).1 x)) := by
  rw [declareLayer_controller]
  refine .layer name (fun scope hs => ?_) rfl rfl
  cases hs
  rfl

theorem declareNested_growth (scope : Scope) (e : Event) (name : String) (s : Session η)
    (x : MachineExpect) :
    (Frame.machine (.unnamed true (some scope))).Growth s.controller
      (declareNested scope e name s).2.controller
      (.machine (.named (declareNested scope e name s).1 x)) := by
  rw [declareNested_controller]
  refine .machine scope rfl name (fun scope hs => ?_) rfl rfl
  cases hs
  rfl

theorem Move.growth {nested : Bool} {outer : Option Scope} {e : Event} {s s' : Session η}
    {r' : MachineRule} {control : Control Frame}
    (h : Move e s (.unnamed nested outer) r' s' control) :
    (Frame.machine (.unnamed nested outer)).Growth s.controller s'.controller (.machine r') := by
  cases h with
  | layer => exact declareLayer_growth outer e _ s _
  | nested scope => exact declareNested_growth scope e _ s _

end MachineRule

theorem StateRule.Move.growth {outer : Option Scope} {e : Event} {s s' : Session η}
    {r' : StateRule} {control : Control Frame}
    (h : Move e s (.unnamed outer) r' s' control) :
    (Frame.state (.unnamed outer)).Growth s.controller s'.controller (.state r') := by
  cases h with
  | @declare scope name _ _ _ hd =>
    cases hd
    simp only [Session.persist, Session.register_controller]
    refine .state scope rfl name (fun scope' hs => ?_) rfl rfl
    cases hs
    rfl

/-! ## All turns -/

namespace Frame

theorem Keeps.seat {f f' : Frame} (h : f.Keeps f') (hm : ∀ r, f ≠ .motion r)
    (hr : ∀ r, f ≠ .record r) : ∀ scope ∈ f'.scope?, ∃ old ∈ f.scope?, scope.seat = old.seat := by
  intro scope hs
  cases h with
  | same => exact ⟨scope, hs, rfl⟩
  | parameter => cases hs
  | machine m m' x x' hscope hp => exact ⟨scope, by rwa [scope?, hscope] at hs, rfl⟩
  | state => exact ⟨scope, hs, rfl⟩
  | transition r r' hscope => exact ⟨scope, by rwa [scope?, hscope] at hs, rfl⟩
  | motion r => exact absurd rfl (hm r)
  | record r => exact absurd rfl (hr r)

/-- A turn that does not add a node. -/
theorem Keeps.growth {c c' : Controller} {f f' : Frame} (h : f.Keeps f') (hm : ∀ r, f ≠ .motion r)
    (hr : ∀ r, f ≠ .record r) (hc : c.Edit c') : f.Growth c c' f' := by
  refine .edit hc (h.seat hm hr) ?_ ?_ <;>
  · cases h with
    | motion r => exact absurd rfl (hm r)
    | _ => rfl

/-- Every turn of a rule lets the graph grow in one of these ways. -/
theorem react_growth {e : Event} {s s' : Session η} {f f' : Frame} {control : Control Frame}
    (h : f.react e s = .ok (f', s', control)) : f.Growth s.controller s'.controller f' := by
  have ht := Frame.react_turn h
  cases react_move h with
  | layer | declaration => exact (Keeps.same _).growth (by simp) (by simp) .same
  | parameter h => exact .edit h.edit (by simp [scope?]) rfl rfl
  | @machine r _ _ _ h =>
    cases r with
    | unnamed nested outer => exact h.growth
    | named m x =>
      cases ht with
      | quiet hw hk => exact hk.growth (by simp) (by simp) h.edit
  | @state r _ _ _ h =>
    cases r with
    | unnamed outer => exact h.growth
    | named scope id x =>
      cases ht with
      | quiet hw hk => exact hk.growth (by simp) (by simp) h.edit
  | @transition r r' _ _ h =>
    obtain ⟨hleads, rfl, -⟩ := TransitionRule.react_ok h
    exact (Keeps.transition r r' hleads.keeps.1).growth (by simp) (by simp) .same
  | @motion r r' _ _ h =>
    obtain ⟨names, hscope⟩ := h.goes.scope
    have hs : ∀ scope ∈ (motion r').scope?, ∃ old ∈ (motion r).scope?, scope.seat = old.seat := by
      intro scope hs
      rw [scope?, hscope] at hs
      obtain ⟨old, hold, rfl⟩ := Option.map_eq_some_iff.1 hs
      exact ⟨old, hold, rfl⟩
    have hslot : (motion r').slot? = (motion r).slot? := congrArg some h.goes.slot
    rcases h.growth with ⟨hc, hm⟩ | ⟨m, hm, hc, hid, -⟩
    · exact .edit hc hs hm hslot
    · exact hc ▸ .motion m hm hs hid hslot
  | record h =>
    rcases h.growth with ⟨hc, hs⟩ | ⟨scope, record, ho, hs, hc⟩
    · exact .edit hc (fun scope hscope => ⟨scope, hs scope hscope, rfl⟩) rfl rfl
    · exact hc ▸ .record scope ho record hs rfl rfl

end Frame

end MotionScript
