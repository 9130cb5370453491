import MotionScript.Proofs.Reports.Accounts
/-!
# What rules report

The books of a session stay right whatever a rule makes of a token, and when it is detached. For
later reports rules remember nothing but spans of tokens.
-/

namespace MotionScript

/-- Whether `P` holds of the spans that a rule remembers. -/
def Frame.Marks (P : Span → Prop) : Frame → Prop
  | .parameter (.operator d) | .parameter (.value d) | .parameter (.stop d) => P d.span
  | .machine (.named m _) => ∀ use ∈ m.default, P use.span
  | .transition r => ∀ start ∈ r.start, P start.1
  | _ => True

variable {η : Type} [Host η] {P : Span → Prop} {host : η} {e : Event} {s s' : Session η}
  {control : Control Frame}

/-! ## Parameters -/

namespace ParameterRule

theorem declare_right (h : s.books.Right P host s.controller) {d : Declaration} (hd : P d.span) :
    (declare s d).books.Right P host (declare s d).controller := by
  unfold declare
  split
  · exact h
  · split
    · rename_i c hc
      unfold Controller.addParameter? at hc
      split at hc <;> cases hc
      exact h.of_eq rfl
    · exact h.warn ⟨rfl, rfl, _, rfl, hd⟩

theorem Move.right {r r' : ParameterRule} (h : s.books.Right P host s.controller)
    (he : P e.span) (hr : (Frame.parameter r).Marks P)
    (hmove : Move e s r r' s' control) :
    s'.books.Right P host s'.controller ∧ (Frame.parameter r').Marks P := by
  cases hmove with
  | kind | unnamed => exact ⟨h, trivial⟩
  | name => exact ⟨h, he⟩
  | equals | value => exact ⟨h, hr⟩
  | declare hd => obtain rfl | rfl := hd <;> exact ⟨declare_right h hr, hr⟩

end ParameterRule

/-! ## Statements -/

namespace TransitionRule

/-- Queued transitions are found where their statement starts. -/
theorem span_queuedBy {r : TransitionRule} {c : Controller} {p : Pending}
    (h : p ∈ r.queuedBy c e) : p.span = (r.start.getD (e.span, e.position)).1 := by
  unfold queuedBy at h
  split at h
  · rename_i q hq
    split at h
    · obtain ⟨conditions, -, rfl⟩ := List.mem_map.1 h
      exact congrArg (fun start => (start.getD (e.span, e.position)).1) (ended?_leads hq).1.keeps.2
    · cases h
  · cases h

theorem react_right {r r' : TransitionRule} (h : s.books.Right P host s.controller)
    (he : P e.span) (hr : (Frame.transition r).Marks P)
    (hreact : r.react e s = .ok (r', s', control)) :
    s'.books.Right P host s'.controller ∧ (Frame.transition r').Marks P := by
  have hstart : P (r.start.getD (e.span, e.position)).1 := by
    cases hs : r.start with
    | none => exact he
    | some start => exact hr start hs
  obtain ⟨hleads, rfl, -⟩ := react_ok hreact
  refine ⟨{ h with pending := fun p hp => ?_ }, fun start hs => ?_⟩
  · rcases List.mem_append.1 hp with hp | hp
    · exact h.pending p hp
    · exact span_queuedBy hp ▸ hstart
  · rw [hleads.keeps.2] at hs
    cases hs
    exact hstart

end TransitionRule

/-! ## Machines -/

namespace MachineRule

theorem Move.named_right {m : OpenMachine} {x : MachineExpect} {r' : MachineRule}
    (h : s.books.Right P host s.controller) (he : P e.span)
    (hm : (Frame.machine (.named m x)).Marks P)
    (hmove : Move e s (.named m x) r' s' control) :
    s'.books.Right P host s'.controller ∧ (Frame.machine r').Marks P := by
  have hc := h.of_eq hmove.edit.stores
  cases hmove with
  | mask m reference => exact ⟨hc.resolve reference .avatarMask, hm⟩
  | sync =>
    refine ⟨{ h with syncs := fun sync hsync => ?_ }, hm⟩
    rcases List.mem_append.1 hsync with hsync | hsync
    · exact h.syncs sync hsync
    · exact List.mem_singleton.1 hsync ▸ he
  | default =>
    refine ⟨h, fun use hu => ?_⟩
    cases hu
    exact he
  | go | option | close | state | machine | statement | record => exact ⟨hc, hm⟩

theorem declareLayer_right (h : s.books.Right P host s.controller) (he : P e.span)
    (name : String) :
    (declareLayer e name s).2.books.Right P host (declareLayer e name s).2.controller := by
  rw [declareLayer_controller]
  refine Books.Right.persist ?_
    ((s.controller.gains_machine { name }).of_eq (Controller.stores_addLayer _ _)) [] name
  refine Books.Right.register ?_ _ _ _ he
  exact h

theorem declareNested_right (h : s.books.Right P host s.controller) (he : P e.span)
    (scope : Scope) (name : String) :
    (declareNested scope e name s).2.books.Right P host
      (declareNested scope e name s).2.controller := by
  rw [declareNested_controller]
  refine Books.Right.persist ?_ ((s.controller.gains_machine { name }).of_eq
    (Controller.stores_modifyMachine _ _ _)) scope.hint name
  refine Books.Right.register ?_ _ _ _ he
  exact h

theorem Move.unnamed_right {nested : Bool} {outer : Option Scope} {r' : MachineRule}
    (h : s.books.Right P host s.controller) (he : P e.span)
    (hmove : Move e s (.unnamed nested outer) r' s' control) :
    s'.books.Right P host s'.controller ∧ (Frame.machine r').Marks P := by
  cases hmove with
  | layer => exact ⟨declareLayer_right h he _, nofun⟩
  | nested scope => exact ⟨declareNested_right h he scope _, nofun⟩

end MachineRule

/-! ## States -/

namespace StateRule

theorem Move.named_right {scope : Scope} {id : StateId} {x : StateExpect} {r' : StateRule}
    (h : s.books.Right P host s.controller)
    (hmove : Move e s (.named scope id x) r' s' control) :
    s'.books.Right P host s'.controller := by
  have hc := h.of_eq hmove.edit.stores
  cases hmove <;> exact hc

theorem Move.unnamed_right {outer : Option Scope} {r' : StateRule}
    (h : s.books.Right P host s.controller) (he : P e.span)
    (hmove : Move e s (.unnamed outer) r' s' control) :
    s'.books.Right P host s'.controller := by
  cases hmove with
  | @declare scope name _ _ _ hd =>
    cases hd
    simp only [Session.persist, Session.register_controller]
    refine Books.Right.persist ?_ ((s.controller.gains_state { name }).of_eq
      (Controller.stores_modifyMachine _ _ _)) scope.hint name
    refine Books.Right.register ?_ _ _ _ he
    exact h

end StateRule

/-! ## Motions -/

namespace MotionRule

theorem modifyTree_right (h : s.books.Right P host s.controller) (r : MotionRule)
    (f : BlendTree → BlendTree) :
    (r.modifyTree s f).books.Right P host (r.modifyTree s f).controller := by
  unfold modifyTree
  split
  · exact h.of_eq (Controller.stores_modifyTree _ _ _)
  · exact h

theorem clip_right (h : s.books.Right P host s.controller) (r : MotionRule) (reference : String) :
    (r.clip s reference).2.books.Right P host (r.clip s reference).2.controller := by
  have hresolve := h.resolve reference .animationClip
  unfold clip
  split
  · rename_i asset s' hs
    rw [hs] at hresolve
    rw [s.resolve_controller hs]
    exact hresolve.of_eq (Controller.stores_addClip _ _)
  · rename_i s' hs
    rw [hs] at hresolve
    rw [s.resolve_controller hs]
    exact hresolve

theorem openTree_right (h : s.books.Right P host s.controller) (r : MotionRule) (name : String) :
    (r.openTree s name).2.books.Right P host (r.openTree s name).2.controller := by
  refine Books.Right.persist ?_ (s.controller.gains_tree { name }) _ name
  exact h

theorem Move.right {r r' : MotionRule} (h : s.books.Right P host s.controller)
    (hmove : Move e s r r' s' control) : s'.books.Right P host s'.controller := by
  cases hmove with
  | clip reference => exact clip_right h r reference
  | openTree name => exact openTree_right h r name
  | tree => exact modifyTree_right h r _
  | expect | modify | closeTree | child | detach => exact h

theorem place_right (h : s.books.Right P host s.controller) (r : MotionRule) :
    (s.modify r.place).books.Right P host (s.modify r.place).controller := by
  refine h.of_eq ?_
  show (r.place s.controller).stores = _
  unfold place
  split
  · rfl
  · exact Controller.stores_modifyState _ _ _
  · exact Controller.stores_modifyTree _ _ _

end MotionRule

/-! ## Records -/

theorem OpenRecord.Change.right {id : RecordId} (h : s.books.Right P host s.controller)
    (hc : Change s id s') : s'.books.Right P host s'.controller := by
  cases hc with
  | same => exact h
  | value => exact h.of_eq (Controller.stores_modifyRecord _ _ _)
  | missing reference => exact h.resolve reference .object
  | object _ _ reference =>
    exact (h.resolve reference .object).of_eq (Controller.stores_modifyRecord _ _ _)

namespace RecordRule

theorem attach_right (h : s.books.Right P host s.controller) (scope : Scope) (record : Record) :
    (attach s scope record).2.books.Right P host (attach s scope record).2.controller := by
  have hstores : (s.controller.placeRecord scope record).stores =
      (s.controller.addRecord record).2.stores := by
    unfold Controller.placeRecord
    split <;> simp
  rw [attach_controller]
  refine Books.Right.persist ?_ ((s.controller.gains_record record).of_eq hstores) _ _
  exact h

theorem Move.right {r r' : RecordRule} (h : s.books.Right P host s.controller)
    (hmove : Move e s r r' s' control) : s'.books.Right P host s'.controller := by
  cases hmove with
  | typeName | stop => exact h
  | openBody => exact attach_right h _ _
  | body _ _ hc => exact hc.right h

end RecordRule

/-! ## All rules -/

namespace Frame

theorem react_right {f f' : Frame} (h : s.books.Right P host s.controller) (he : P e.span)
    (hf : f.Marks P) (hreact : f.react e s = .ok (f', s', control)) :
    s'.books.Right P host s'.controller ∧ f'.Marks P := by
  cases react_move hreact with
  | layer | declaration => exact ⟨h, trivial⟩
  | parameter hm => exact hm.right h he hf
  | @machine r _ _ _ hm =>
    cases r with
    | unnamed nested outer => exact hm.unnamed_right h he
    | named m x => exact hm.named_right h he hf
  | @state r _ _ _ hm =>
    cases r with
    | unnamed outer => exact ⟨hm.unnamed_right h he, trivial⟩
    | named scope id x => exact ⟨hm.named_right h, trivial⟩
  | transition hr => exact TransitionRule.react_right h he hf hr
  | motion hm => exact ⟨hm.right h, trivial⟩
  | record hm => exact ⟨hm.right h, trivial⟩

/-- A rule that is attached remembers nothing yet. -/
theorem Asks.marks {f g : Frame} {forward : Bool} (h : f.Asks (some (.attach g forward)))
    (outer : Option Scope) (s : Session η) : (g.onAttach outer s).subject.Marks P := by
  cases h with
  | machineTransition | stateTransition => rintro start ⟨⟩
  | _ => trivial

theorem close_right {f : Frame} (h : s.books.Right P host s.controller) (hf : f.Marks P) :
    (f.close s).books.Right P host (f.close s).controller := by
  cases f with
  | document => exact h.linkSyncs
  | machine r =>
    cases r with
    | unnamed nested outer => exact h
    | named m x =>
      simp only [close, MachineRule.close]
      cases hd : m.default with
      | none => exact h.linkScope _ _
      | some use => exact (h.linkDefault _ _ _ (hf use hd)).linkScope _ _
  | motion r => exact MotionRule.place_right h r
  | parameter | state | transition | record => exact h

end Frame

end MotionScript
