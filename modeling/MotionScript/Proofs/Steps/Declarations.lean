import Mathlib.Logic.Basic
import MotionScript.Grammar.Document
/-!
# Steps of declarations

All that the rules of parameters, machines and states can do with a token. Whatever else is known of
what they do is a case analysis over these steps.
-/

namespace MotionScript

/-! ## Results -/

theorem except_bind_ok {ε α β : Type} {x : Except ε α} {f : α → Except ε β} {b : β} :
    (x >>= f) = .ok b ↔ ∃ a, x = .ok a ∧ f a = .ok b := by
  cases x <;> simp [bind, Except.bind]

theorem except_map_ok {ε α β : Type} {x : Except ε α} {f : α → β} {b : β} :
    x.map f = .ok b ↔ ∃ a, x = .ok a ∧ f a = b := by
  cases x <;> simp [Except.map]

theorem Event.name_eq {e : Event} {expected name : String} (h : e.name expected = .ok name) :
    e.name? = some name := by
  unfold Event.name at h
  split at h <;> cases h
  assumption

variable {η : Type} [Host η] {e : Event} {s s' : Session η} {control : Control Frame}

/-! ## Parameters -/

namespace ParameterRule

/-- What the declaration of a parameter does with a token. -/
inductive Move (e : Event) (s : Session η) :
    ParameterRule → ParameterRule → Session η → Control Frame → Prop where
  | kind (k : ParameterKind) : Move e s .kind (.name k) s none
  | unnamed (k : ParameterKind) (he : e.isSymbol ';' = true) :
    Move e s (.name k) (.name k) s (some (.detach false))
  | name (k : ParameterKind) {text : String} (hn : e.name? = some text) :
    Move e s (.name k) (.operator ⟨⟨text, .zero k⟩, e.span, e.position⟩) s none
  | equals (d : Declaration) : Move e s (.operator d) (.value d) s none
  | value (d : Declaration) : Move e s (.value d) (.stop (assign d e)) s none
  | declare {r : ParameterRule} {d : Declaration} (hr : r = .operator d ∨ r = .stop d)
    (he : e.isSymbol ';' = true) : Move e s r r (declare s d) (some (.detach false))

theorem react_move {r r' : ParameterRule} (h : r.react e s = .ok (r', s', control)) :
    Move e s r r' s' control := by
  unfold react at h
  split at h
  · split at h <;> cases h
    exact .kind _
  · split at h
    · cases h
      exact .unnamed _ ‹_›
    · obtain ⟨text, hn, h⟩ := except_bind_ok.1 h
      cases h
      exact .name _ (e.name_eq hn)
  · split at h
    · cases h
      exact .equals _
    · split at h <;> cases h
      exact .declare (.inl rfl) ‹_›
  · cases h
    exact .value _
  · split at h <;> cases h
    exact .declare (.inr rfl) ‹_›

end ParameterRule

/-! ## Machines -/

namespace MachineRule

/-- What a layer or a nested machine does with a token. -/
inductive Move (e : Event) (s : Session η) :
    MachineRule → MachineRule → Session η → Control Frame → Prop where
  | layer (outer : Option Scope) {name : String} (hn : e.name? = some name) :
    Move e s (.unnamed false outer) (.named (declareLayer e name s).1 .openBrace)
      (declareLayer e name s).2 none
  | nested (scope : Scope) {name : String} (hn : e.name? = some name) :
    Move e s (.unnamed true (some scope)) (.named (declareNested scope e name s).1 .openBrace)
      (declareNested scope e name s).2 none
  | go (m : OpenMachine) (x x' : MachineExpect) : Move e s (.named m x) (.named m x') s none
  | option (m : OpenMachine) (x : MachineExpect) {f : Layer → Layer}
    (hf : ∀ l, (f l).machine = l.machine ∧ (f l).synced = l.synced ∧ (f l).name = l.name)
    (hmask : ∀ l, (f l).mask = l.mask) :
    Move e s (.named m x) (.named m .stop) (s.modify (·.modifyLayer m.scope.layer f)) none
  | mask (m : OpenMachine) (reference : String) :
    Move e s (.named m .mask) (.named m .stop)
      ((s.resolve reference .avatarMask).2.modify (·.modifyLayer m.scope.layer
        ({ · with mask := (s.resolve reference .avatarMask).1 }))) none
  | sync (m : OpenMachine) (name : String) :
    Move e s (.named m .sync) (.named m .stop)
      { s with syncs := s.syncs ++ [(m.scope.layer, use e name)] } none
  | default (m : OpenMachine) (name : String) :
    Move e s (.named m .default) (.named { m with default := some (use e name) } .stop) s none
  | close (m : OpenMachine) (he : e.isSymbol '}' = true) :
    Move e s (.named m .item) (.named m .item) s (some (.detach false))
  | state (m : OpenMachine) :
    Move e s (.named m .item) (.named m .item) s
      (some (.attach (.state (.unnamed none)) false))
  | machine (m : OpenMachine) :
    Move e s (.named m .item) (.named m .item) s
      (some (.attach (.machine (.unnamed true none)) false))
  | statement (m : OpenMachine) :
    Move e s (.named m .item) (.named m .item) s (some (.attach (.transition {}) true))
  | record (m : OpenMachine) :
    Move e s (.named m .item) (.named m .item) s
      (some (.attach (.record (.typeName none none "")) true))

theorem layerOption?_move {m : OpenMachine} {r' : MachineRule}
    (h : layerOption? m e s = some (r', s', control)) (x : MachineExpect) :
    Move e s (.named m x) r' s' control := by
  unfold layerOption? at h
  repeat' split at h
  all_goals first
    | (cases h; done)
    | (cases h; exact .go ..)
    | (cases h; exact .option _ _ (fun _ => ⟨rfl, rfl, rfl⟩) fun _ => rfl)

theorem reactItem_move {m : OpenMachine} {r' : MachineRule}
    (h : reactItem m e s = .ok (r', s', control)) : Move e s (.named m .item) r' s' control := by
  unfold reactItem at h
  split at h
  · cases h
    exact .close m ‹_›
  split at h
  · cases h
    exact .go ..
  split at h
  · rename_i hl
    cases h
    exact layerOption?_move hl .item
  split at h
  · cases h
    exact .go ..
  split at h
  · cases h
    exact .state m
  split at h
  · cases h
    exact .machine m
  split at h
  · cases h
    exact .statement m
  split at h
  · cases h
    exact .record m
  · cases h

theorem react_move {r r' : MachineRule} (h : r.react e s = .ok (r', s', control)) :
    Move e s r r' s' control := by
  cases r with
  | unnamed nested outer =>
    obtain ⟨name, hn, h⟩ := except_bind_ok.1 h
    obtain ⟨⟨m, s''⟩, hd, h⟩ := except_bind_ok.1 h
    cases h
    cases nested with
    | false =>
      cases hd
      exact .layer outer (e.name_eq hn)
    | true =>
      cases outer with
      | none => cases hd
      | some scope =>
        cases hd
        exact .nested scope (e.name_eq hn)
  | named m x =>
    cases x <;> simp only [react] at h
    case item => exact reactItem_move h
    case openBrace | stop =>
      all_goals
        split at h <;> cases h
        exact .go ..
    case weight =>
      obtain ⟨weight, -, h⟩ := except_bind_ok.1 h
      cases h
      exact .option m _ (fun _ => ⟨rfl, rfl, rfl⟩) fun _ => rfl
    case mask =>
      obtain ⟨reference, -, h⟩ := except_bind_ok.1 h
      cases h
      exact .mask m reference
    case sync =>
      obtain ⟨name, -, h⟩ := except_bind_ok.1 h
      cases h
      exact .sync m name
    case default =>
      obtain ⟨name, -, h⟩ := except_bind_ok.1 h
      cases h
      exact .default m name

end MachineRule

/-! ## States -/

namespace StateRule

/-- What a state does with a token. -/
inductive Move (e : Event) (s : Session η) :
    StateRule → StateRule → Session η → Control Frame → Prop where
  | declare (scope : Scope) {name : String} {r : StateRule} {s' : Session η}
    (hn : e.name? = some name) (hd : declare (some scope) e name s = .ok (r, s')) :
    Move e s (.unnamed (some scope)) r s' none
  | go (scope : Scope) (id : StateId) (x x' : StateExpect) :
    Move e s (.named scope id x) (.named scope id x') s none
  | set (scope : Scope) (id : StateId) (x x' : StateExpect) {f : State → State}
    (hf : ∀ st, (f st).transitions = st.transitions ∧ (f st).records = st.records ∧
      ((f st).motion = st.motion ∨ (f st).motion = none) ∧ (f st).name = st.name) :
    Move e s (.named scope id x) (.named scope id x') (s.modify (·.modifyState id f)) none
  | close (scope : Scope) (id : StateId) (he : e.isSymbol '}' = true) :
    Move e s (.named scope id .item) (.named scope id .item) s (some (.detach false))
  | motion (scope : Scope) (id : StateId) :
    Move e s (.named scope id .item) (.named scope id .item) s
      (some (.attach (.motion MotionRule.root) true))
  | statement (scope : Scope) (id : StateId) :
    Move e s (.named scope id .item) (.named scope id .item) s
      (some (.attach (.transition {}) true))
  | record (scope : Scope) (id : StateId) :
    Move e s (.named scope id .item) (.named scope id .item) s
      (some (.attach (.record (.typeName none none "")) true))

theorem reactItem_move {scope : Scope} {id : StateId} {r' : StateRule}
    (h : reactItem scope id e s = .ok (r', s', control)) :
    Move e s (.named scope id .item) r' s' control := by
  unfold reactItem at h
  rcases ite_eq_iff.1 h with ⟨hclose, h⟩ | ⟨-, h⟩
  · cases h
    exact .close scope id hclose
  iterate 6
    rcases ite_eq_iff.1 h with ⟨-, h⟩ | ⟨-, h⟩
    · cases h
      exact .go ..
  iterate 3
    rcases ite_eq_iff.1 h with ⟨-, h⟩ | ⟨-, h⟩
    · cases h
      exact .set _ _ _ _ fun _ => ⟨rfl, rfl, by simp, rfl⟩
  rcases ite_eq_iff.1 h with ⟨-, h⟩ | ⟨-, h⟩
  · cases h
    exact .motion scope id
  rcases ite_eq_iff.1 h with ⟨-, h⟩ | ⟨-, h⟩
  · cases h
    exact .statement scope id
  rcases ite_eq_iff.1 h with ⟨-, h⟩ | ⟨-, h⟩
  · cases h
    exact .record scope id
  cases h

theorem react_move {r r' : StateRule} (h : r.react e s = .ok (r', s', control)) :
    Move e s r r' s' control := by
  cases r with
  | unnamed outer =>
    obtain ⟨name, hn, h⟩ := except_bind_ok.1 h
    obtain ⟨⟨r'', s''⟩, hd, h⟩ := except_bind_ok.1 h
    cases h
    cases outer with
    | none => cases hd
    | some scope => exact .declare scope (e.name_eq hn) hd
  | named scope id x =>
    cases x <;> simp only [react] at h
    case item => exact reactItem_move h
    case openBrace | stop =>
      all_goals
        split at h <;> cases h
        exact .go ..
    case mirror =>
      split at h
      · cases h
        exact .set _ _ _ _ fun _ => ⟨rfl, rfl, .inl rfl, rfl⟩
      · obtain ⟨name, -, h⟩ := except_bind_ok.1 h
        cases h
        exact .set _ _ _ _ fun _ => ⟨rfl, rfl, .inl rfl, rfl⟩
    all_goals
      obtain ⟨y, -, h⟩ := except_bind_ok.1 h
      cases h
      exact .set _ _ _ _ fun _ => ⟨rfl, rfl, .inl rfl, rfl⟩

end StateRule

end MotionScript
