import MotionScript.Proofs.Shape.Stack
/-!
# Turns on a stack of the right shape

Whatever a rule does with a token, the stack keeps its shape: what the rule asks for can be attached
to it, and the document is never asked to leave.
-/

namespace MotionScript

/-! ## Turns of a motion -/

namespace MotionRule

/-- How a motion goes on after a token. -/
structure Goes (r r' : MotionRule) (control : Control Frame) : Prop where
  slot : r'.slot = r.slot
  scope : ∃ names, r'.scope = r.scope.map (·.deeper names)
  tree : (r.expect.inTree → r.motion.isSome) → r'.expect.inTree → r'.motion.isSome
  child : ∀ g forward, control = some (.attach g forward) → forward = false ∧ r'.expect = .key ∧
    ∃ tree key, r'.motion = some tree ∧ g = .motion (child tree key)
  onwards : control = some (.detach true) → r.expect = .modifier

/-- A motion that goes on to something else. -/
theorem Goes.stay {r r' : MotionRule} (hslot : r'.slot = r.slot) (hscope : r'.scope = r.scope)
    (ht : (r.expect.inTree → r.motion.isSome) → r'.expect.inTree → r'.motion.isSome) :
    Goes r r' none :=
  ⟨hslot, ⟨[], by simp [hscope]⟩, ht, by simp, by simp⟩

theorem Goes.expecting {r : MotionRule} (x : MotionExpect) (h : x.inTree → r.expect.inTree) :
    Goes r (r.expecting x) none :=
  .stay rfl rfl fun hr hx => hr (h hx)

theorem Goes.detach {r : MotionRule} (forward : Bool) (hx : r.expect = .modifier) :
    Goes r r (some (.detach forward)) :=
  ⟨rfl, ⟨[], by simp⟩, id, by simp, fun _ => hx⟩

variable {η : Type} [Host η]

theorem openTree_goes (r : MotionRule) (s : Session η) (name : String) :
    Goes r (r.openTree s name).1 none :=
  ⟨rfl, ⟨[name], rfl⟩, fun _ _ => rfl, by simp, by simp⟩

theorem clip_goes (r : MotionRule) (s : Session η) (reference : String) :
    Goes r (r.clip s reference).1 none := by
  unfold clip
  split
  · exact .stay rfl rfl (by simp [MotionExpect.inTree])
  · exact .expecting _ (by simp [MotionExpect.inTree])

theorem Move.goes {e : Event} {s s' : Session η} {r r' : MotionRule} {control : Control Frame}
    (h : Move e s r r' s' control) : Goes r r' control := by
  cases h with
  | expect _ ht => exact .expecting _ ht
  | modify | closeTree => exact .stay rfl rfl (by simp [MotionExpect.inTree])
  | clip reference => exact clip_goes r s reference
  | openTree name => exact openTree_goes r s name
  | tree _ ht => exact .expecting _ fun _ => ht
  | @child tree key htree =>
    exact ⟨rfl, ⟨[], by simp [expecting]⟩, fun _ _ => by simp [expecting, htree],
      fun g forward hc => by cases hc; exact ⟨rfl, rfl, tree, key, htree, rfl⟩, nofun⟩
  | detach forward hx => exact .detach forward hx

end MotionRule

/-! ## Turns keep the shape -/

variable {η : Type} [Host η]

/-- A record goes on with its type name or with its body. -/
theorem RecordRule.Move.goes {e : Event} {s s' : Session η} {r r' : RecordRule}
    {control : Control Frame} (h : Move e s r r' s' control) :
    (∃ outer mode text mode' text', r = .typeName outer mode text ∧
      r' = .typeName outer mode' text') ∨ ∃ q x, r' = .body q x := by
  cases h with
  | typeName => exact .inl ⟨_, _, _, _, _, rfl, rfl⟩
  | openBody | body | stop => exact .inr ⟨_, _, rfl⟩

theorem Nested.keeps {m m' : OpenMachine} {x : MachineExpect} {below : List Frame}
    (h : Nested m (.machine (.named m x) :: below)) (x' : MachineExpect)
    (hs : m'.scope = m.scope) (hp : m'.parent = m.parent) :
    Nested m' (.machine (.named m' x') :: below) := by
  cases h with
  | layer _ _ hp' hs' => exact .layer m' x' (hp.trans hp') (by rw [hs, hs'])
  | machine h _ _ name hp' hl hs' hpath hhint =>
    exact .machine h m' x' name (hp.trans hp') (by rw [hs, hl]) (by rw [hs, hs'])
      (by rw [hs, hpath]) (by rw [hs, hhint])

/-- The rule below a motion, and what a motion has to be to lie on it. -/
theorem Motions.goes {scope : Scope} {id : StateId} {r r' : MotionRule} {control : Control Frame}
    {below : List Frame} (h : Motions scope id (.motion r :: below)) (hg : r.Goes r' control) :
    Motions scope id (.motion r' :: below) := by
  obtain ⟨names', hscope⟩ := hg.scope
  cases h with
  | root h _ names hslot hs ht =>
    exact .root h r' (names ++ names') (hg.slot.trans hslot) (by simp [hscope, hs]) (hg.tree ht)
  | child h _ names tree key hkey htree hslot hs ht =>
    exact .child h r' (names ++ names') tree key hkey htree (hg.slot.trans hslot)
      (by simp [hscope, hs]) (hg.tree ht)

/-- A stack keeps its shape when its top rule handles a token. -/
theorem Shaped.turn {e : Event} {s s' : Session η} {f f' : Frame} {control : Control Frame}
    {below : List Frame} (h : Shaped (f :: below)) (hr : f.react e s = .ok (f', s', control)) :
    Shaped (f' :: below) := by
  have ht := Frame.react_turn hr
  cases h with
  | document =>
    cases ht with
    | quiet hw hk ha hd hq => cases hk; exact .document
  | parameter r =>
    cases ht with
    | quiet hw hk ha hd hq => cases hk <;> exact .parameter _
  | layerName =>
    cases ht with
    | quiet hw hk ha hd hq => cases hk; exact .layerName
    | layer outer name hn hw => exact .block (.machine (.layer _ _ rfl rfl))
  | machineName h =>
    cases ht with
    | quiet hw hk ha hd hq => cases hk; exact .machineName h
    | machine scope name hn hw =>
      exact .block (.machine (.machine h _ _ name rfl rfl rfl rfl rfl))
  | stateName h =>
    cases ht with
    | quiet hw hk ha hd hq => cases hk; exact .stateName h
    | state scope name hn hw => exact .block (.state h _ name _)
  | block h =>
    cases h with
    | machine h =>
      obtain ⟨x, rfl⟩ := h.top
      cases ht with
      | quiet hw hk ha hd hq =>
        cases hk with
        | same => exact .block (.machine h)
        | machine _ m' _ x' hs hp => exact .block (.machine (h.keeps x' hs hp))
    | state h id name x =>
      cases ht with
      | quiet hw hk ha hd hq => cases hk <;> exact .block (.state h id name _)
  | transition h r hs =>
    cases ht with
    | quiet hw hk ha hd hq =>
      cases hk with
      | same => exact .transition h r hs
      | transition _ r' hs' => exact .transition h r' (hs'.trans hs)
    | statement _ r' hs' hw => exact .transition h r' (hs'.trans hs)
  | typeName h mode text =>
    cases Frame.react_move hr with
    | record hr =>
      obtain ⟨outer, _, _, mode', text', ⟨⟩, rfl⟩ | ⟨q, x, rfl⟩ := hr.goes
      · exact .typeName h mode' text'
      · exact .record h q x
  | record h r x =>
    cases Frame.react_move hr with
    | record hr =>
      obtain ⟨outer, _, _, mode', text', ⟨⟩, rfl⟩ | ⟨q, x, rfl⟩ := hr.goes
      exact .record h q x
  | motions h =>
    obtain ⟨r, rfl⟩ := h.top
    cases Frame.react_move hr with
    | motion hr => exact .motions (h.goes hr.goes)

/-! ## Attaching -/

/-- How often a token that is given to a rule may still be handed on. -/
def Frame.passes : Frame → Nat
  | .motion r => if r.expect = .modifier then 2 else 0
  | .document | .machine _ | .state _ => 1
  | .parameter _ | .transition _ | .record _ => 0

theorem Shaped.nested {m : OpenMachine} {x : MachineExpect} {below : List Frame}
    (h : Shaped (.machine (.named m x) :: below)) : Nested m (.machine (.named m x) :: below) := by
  generalize hf : Frame.machine (.named m x) :: below = stack at h
  cases h with
  | block h =>
    cases h with
    | machine h =>
      obtain ⟨y, htop⟩ := (hf ▸ h).top
      cases htop
      exact hf ▸ h
    | state => cases hf
  | motions h =>
    obtain ⟨r, htop⟩ := (hf ▸ h).top
    cases htop
  | _ => cases hf

theorem Shaped.state {scope : Scope} {id : StateId} {x : StateExpect} {below : List Frame}
    (h : Shaped (.state (.named scope id x) :: below)) :
    Block scope (.state (.named scope id x) :: below) ∧ scope.state = some id := by
  generalize hf : Frame.state (.named scope id x) :: below = stack at h
  cases h with
  | block h =>
    cases h with
    | machine h =>
      obtain ⟨y, htop⟩ := (hf ▸ h).top
      cases htop
    | state h => cases hf; exact ⟨.state h _ _ _, rfl⟩
  | motions h =>
    obtain ⟨r, htop⟩ := (hf ▸ h).top
    cases htop
  | _ => cases hf

theorem Shaped.motion {r : MotionRule} {below : List Frame} (h : Shaped (.motion r :: below)) :
    ∃ scope id, Motions scope id (.motion r :: below) := by
  generalize hf : Frame.motion r :: below = stack at h
  cases h with
  | block h =>
    cases h with
    | machine h =>
      obtain ⟨y, htop⟩ := (hf ▸ h).top
      cases htop
    | state h => cases hf
  | motions h => exact ⟨_, _, h⟩
  | _ => cases hf

/-- Whether a rule can be attached to a stack without failing, and then keeps its shape. -/
def Attachable (η : Type) [Host η] (g top : Frame) (below : List Frame) : Prop :=
  ∀ s : Session η, ∃ g', g.onAttach top.context s = ⟨g', s, .ok ()⟩ ∧ g'.passes = g.passes ∧
    Shaped (g' :: top :: below)

omit [Host η] in
theorem Turn.passes {e : Event} {s s' : Session η} {f f' : Frame} {control : Control Frame}
    (h : Turn e s s' f f' control) (hm : ∀ r, f' ≠ .motion r) : f.passes = f'.passes := by
  cases h with
  | quiet hw hk ha hd hq =>
    cases hk with
    | motion r r' => exact absurd rfl (hm r')
    | _ => rfl
  | _ => rfl

/-- What a rule asks for can be attached to it. -/
theorem Shaped.attach {e : Event} {s s' : Session η} {f f' g : Frame} {forward : Bool}
    {below : List Frame} (h : Shaped (f :: below))
    (hr : f.react e s = .ok (f', s', some (.attach g forward))) :
    Attachable η g f' below ∧ (forward = true → g.passes < f.passes) := by
  have h' := h.turn hr
  have ht := Frame.react_turn hr
  have ha := ht.asks
  cases ha with
  | layer | parameter =>
    have hb : below = [] := by
      cases h' with
      | document => rfl
      | block h => cases h with | machine h => obtain ⟨x, htop⟩ := h.top; cases htop
      | motions h => obtain ⟨r, htop⟩ := h.top; cases htop
    subst hb
    rw [ht.passes (by simp)]
    first
      | exact ⟨fun _ => ⟨_, rfl, rfl, .layerName⟩, by simp⟩
      | exact ⟨fun _ => ⟨_, rfl, rfl, .parameter _⟩, fun _ => Nat.zero_lt_one⟩
  | state m x => exact ⟨fun _ => ⟨_, rfl, rfl, .stateName h'.nested⟩, by simp⟩
  | machine m x => exact ⟨fun _ => ⟨_, rfl, rfl, .machineName h'.nested⟩, by simp⟩
  | machineTransition m x =>
    rw [ht.passes (by simp)]
    exact ⟨fun _ => ⟨_, rfl, rfl, .transition (.machine h'.nested) _ rfl⟩, fun _ => Nat.zero_lt_one⟩
  | machineRecord m x =>
    rw [ht.passes (by simp)]
    exact ⟨fun _ => ⟨_, rfl, rfl, .typeName (.machine h'.nested) _ _⟩, fun _ => Nat.zero_lt_one⟩
  | motion scope id x =>
    obtain ⟨hb, hs⟩ := h'.state
    rw [ht.passes (by simp)]
    refine ⟨fun s => ⟨.motion { MotionRule.root with scope := some scope, slot := .state id },
      ?_, rfl, .motions (.root hb _ [] rfl (by simp)
        (by simp [MotionRule.root, MotionExpect.inTree]))⟩,
      fun _ => Nat.zero_lt_one⟩
    simp [Frame.onAttach, MotionRule.onAttach, MotionRule.root, Frame.context, hs]
  | stateTransition scope id x =>
    rw [ht.passes (by simp)]
    exact ⟨fun _ => ⟨_, rfl, rfl, .transition h'.state.1 _ rfl⟩, fun _ => Nat.zero_lt_one⟩
  | stateRecord scope id x =>
    rw [ht.passes (by simp)]
    exact ⟨fun _ => ⟨_, rfl, rfl, .typeName h'.state.1 _ _⟩, fun _ => Nat.zero_lt_one⟩
  | child r' tree key =>
    obtain ⟨scope, id, hm⟩ := h'.motion
    cases Frame.react_move hr with
    | motion hr =>
      obtain ⟨-, hkey, tree', key', htree, heq⟩ := hr.goes.child _ _ rfl
      cases heq
      obtain ⟨names, hs⟩ := hm.scope
      refine ⟨fun _ => ⟨_, rfl, rfl, .motions (.child hm _ names tree key hkey htree rfl hs ?_)⟩,
        by simp⟩
      simp [MotionRule.child, MotionExpect.inTree]

/-! ## Detaching on request -/

/-- The document stays, and the rule below one that hands a token on hands it on less often. -/
theorem Shaped.detach {e : Event} {s s' : Session η} {f f' : Frame} {forward : Bool}
    {below : List Frame} (h : Shaped (f :: below))
    (hr : f.react e s = .ok (f', s', some (.detach forward))) :
    ∃ g rest, below = g :: rest ∧ (forward = true → g.passes < f.passes) := by
  have h' := h.turn hr
  have ht := Frame.react_turn hr
  have ha := ht.asks
  cases below with
  | nil =>
    have hbottom := h'.bottom
    rw [List.getLast?_singleton] at hbottom
    cases hbottom
    cases ha
  | cons g rest =>
    refine ⟨g, rest, rfl, fun hforward => ?_⟩
    subst hforward
    cases ha with
    | motionEnd r' _ =>
      obtain ⟨scope, id, hm⟩ := h'.motion
      cases Frame.react_move hr with
      | motion hr =>
        have hx := hr.goes.onwards rfl
        cases hm with
        | root => simp [Frame.passes, hx]
        | child h _ names tree key hkey => simp [Frame.passes, hx, hkey]

end MotionScript
