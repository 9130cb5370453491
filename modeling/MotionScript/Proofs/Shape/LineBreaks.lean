import MotionScript.Proofs.Shape.Ending
/-!
# Symbols that start a line

Whether a symbol starts a line matters to a rule only if it is a sign behind a blend tree that has
just been closed. Inside a run of symbols this is so only right behind the brace that closes the
tree.
-/

namespace MotionScript

variable {η : Type} [Host η]

/-- The event as one inside a line. -/
def Event.inLine (e : Event) : Event := { e with lineBreak := false }

/-- The symbols that modifiers of motions start with. -/
def Event.isSign (e : Event) : Bool := e.isSymbol '*' || e.isSymbol '+' || e.isSymbol '-'

/-- Whether a rule is behind a motion, where modifiers are written. -/
def Frame.AwaitsModifier (f : Frame) : Prop := ∃ r, f = .motion r ∧ r.expect = .modifier

/-! ## Single turns -/

/-- A symbol that is no sign ends the modifiers. -/
theorem MotionRule.reactModifier_unsigned {e : Event} (r : MotionRule) (hk : e.kind = .symbol)
    (hs : e.isSign = false) :
    r.reactModifier e =
      if e.isSymbol ';' then .ok (r, some (.detach false))
      else if r.closedTree then .ok (r, some (.detach true))
      else .error (e.unexpected "a motion modifier or `;`") := by
  simp only [Event.isSign, Bool.or_eq_false_iff] at hs
  obtain ⟨⟨h1, h2⟩, h3⟩ := hs
  have hnumber : (e.kind == .number) = false := by rw [hk]; rfl
  unfold reactModifier
  simp only [h1, h2, h3, hnumber, Event.isKeyword_symbol hk, Bool.false_eq_true, if_false]
  cases r.closedTree <;> cases e.lineBreak <;> rfl

theorem Frame.react_inLine {e : Event} {s : Session η} (f : Frame) (hk : e.kind = .symbol)
    (h : f.AwaitsModifier → e.isSign = false) : f.react e.inLine s = f.react e s := by
  cases f with
  | motion r =>
    refine congrArg (lift motion) ?_
    unfold MotionRule.react
    cases hx : r.expect with
    | modifier =>
      have hs := h ⟨r, rfl, hx⟩
      have hm : r.reactModifier e.inLine = r.reactModifier e := by
        rw [r.reactModifier_unsigned hk hs, r.reactModifier_unsigned (e := e.inLine) hk hs]
        rfl
      dsimp only
      rw [hm]
    | _ => rfl
  | document => rfl
  | parameter r => rfl
  | machine r => rfl
  | state r => rfl
  | transition r => rfl
  | record r => rfl

/-- The only symbol that makes a motion ready for modifiers is the brace that closes a blend
tree. -/
theorem MotionRule.Move.symbol {e : Event} {s s' : Session η} {r r' : MotionRule}
    (hk : e.kind = .symbol) (hb : e.isSymbol '}' = false)
    (h : Move e s r r' s' none) : r'.expect ≠ .modifier := by
  cases h with
  | expect hx => exact hx hk
  | modify _ _ _ hk' | clip _ hk' => exact absurd hk hk'
  | closeTree he => simp [hb] at he
  | openTree => exact nofun
  | tree hx => exact hx

namespace Frame

/-- A rule that goes on with a token does not change its kind. -/
theorem react_motion {e : Event} {s s' : Session η} {f : Frame} {q : MotionRule}
    {control : Control Frame} (h : f.react e s = .ok (.motion q, s', control)) :
    ∃ r, f = .motion r ∧ MotionRule.Move e s r q s' control := by
  cases react_move h with
  | motion h => exact ⟨_, rfl, h⟩

theorem onAttach_motion {f : Frame} {outer : Option Scope} {s : Session η} {q : MotionRule}
    (h : (f.onAttach outer s).subject = .motion q) : ∃ r, f = .motion r ∧ q.expect = r.expect := by
  cases f with
  | motion r =>
    cases h
    exact ⟨r, rfl, by dsimp only; split <;> rfl⟩
  | document | parameter | transition => cases h
  | machine r => cases r <;> cases h
  | state r => cases r <;> cases h
  | record r => cases r <;> cases h

variable {e : Event} {s s' : Session η} {f f' : Frame}

theorem react_onwards (h : f.react e s = .ok (f', s', some (.detach true))) :
    f.AwaitsModifier := by
  have hasks := (Frame.react_turn h).asks
  cases hasks with
  | motionEnd q =>
    obtain ⟨r, rfl, hr⟩ := react_motion h
    exact ⟨r, rfl, hr.goes.onwards rfl⟩

/-- Modifiers are written on top of the stack only. -/
theorem react_attach {g : Frame} {forward : Bool}
    (h : f.react e s = .ok (f', s', some (.attach g forward))) :
    ¬f'.AwaitsModifier ∧
      ∀ outer (t : Session η), ¬(g.onAttach outer t).subject.AwaitsModifier := by
  constructor
  · rintro ⟨q, rfl, hq⟩
    obtain ⟨r, rfl, hr⟩ := react_motion h
    obtain ⟨-, hkey, -⟩ := hr.goes.child _ _ rfl
    rw [hkey] at hq
    cases hq
  · rintro outer t ⟨q, hq, hx⟩
    obtain ⟨r, rfl, hr⟩ := onAttach_motion hq
    rw [hr] at hx
    have hasks := (Frame.react_turn h).asks
    cases hasks <;> cases hx

theorem react_symbol (hk : e.kind = .symbol) (hb : e.isSymbol '}' = false)
    (h : f.react e s = .ok (f', s', none)) : ¬f'.AwaitsModifier := by
  rintro ⟨q, rfl, hq⟩
  obtain ⟨r, rfl, hr⟩ := react_motion h
  exact hr.symbol hk hb hq

theorem onToken_ok {control : Control Frame} (h : (f.onToken e s).result = .ok control) :
    ∃ f' s', f.react e s = .ok (f', s', control) ∧ (f.onToken e s).subject = f' := by
  unfold onToken at h ⊢
  cases hr : f.react e s with
  | error d => rw [hr] at h; cases h
  | ok step =>
    obtain ⟨f', s', control'⟩ := step
    rw [hr] at h
    cases h
    exact ⟨f', s', rfl, rfl⟩

end Frame

/-! ## The stack -/

/-- Whether modifiers are written on top of a stack only. -/
def Settled (stack : List Frame) : Prop := ∀ f ∈ stack.tail, ¬f.AwaitsModifier

namespace Grammar

theorem document_attach {e : Event} {s : Session η} {f g : Frame} {forward : Bool}
    (h : ((document η).onToken e f s).result = .ok (some (.attach g forward))) :
    ¬((document η).onToken e f s).subject.AwaitsModifier ∧
      ∀ outer (t : Session η), ¬(g.onAttach outer t).subject.AwaitsModifier := by
  obtain ⟨f', s', hr, hf⟩ := Frame.onToken_ok h
  exact hf ▸ Frame.react_attach hr

theorem document_onwards {e : Event} {s : Session η} {f : Frame}
    (h : ((document η).onToken e f s).result = .ok (some (.detach true))) : f.AwaitsModifier := by
  obtain ⟨f', s', hr, -⟩ := Frame.onToken_ok h
  exact Frame.react_onwards hr

theorem document_symbol {e : Event} {s : Session η} {f : Frame} (hk : e.kind = .symbol)
    (hb : e.isSymbol '}' = false) (h : ((document η).onToken e f s).result = .ok none) :
    ¬((document η).onToken e f s).subject.AwaitsModifier := by
  obtain ⟨f', s', hr, hf⟩ := Frame.onToken_ok h
  exact hf ▸ Frame.react_symbol hk hb hr

/-- Whether a symbol starts a line only matters to a sign behind a blend tree. -/
theorem dispatch_inLine {e : Event} (hk : e.kind = .symbol) (fuel : Nat) (stack : List Frame)
    (s : Session η) (h : ∀ top ∈ stack.head?, top.AwaitsModifier → e.isSign = false) :
    (document η).dispatch e.inLine fuel stack s = (document η).dispatch e fuel stack s := by
  induction fuel generalizing stack s with
  | zero => rfl
  | succ fuel ih =>
    cases stack with
    | nil => rfl
    | cons top parents =>
      have htop := h top rfl
      have htoken : (document η).onToken e.inLine top s = (document η).onToken e top s := by
        simp only [document, Frame.onToken, top.react_inLine hk htop]
      have hattach (g : Frame) (forward : Bool) :=
        @document_attach η _ e s top g forward
      have honwards := document_onwards (e := e) (s := s) (f := top)
      simp only [dispatch, htoken]
      generalize (document η).onToken e top s = x at hattach honwards ⊢
      obtain ⟨f, s', result⟩ := x
      rcases result with d | _ | ⟨g, forward⟩ | ⟨forward⟩
      · rfl
      · rfl
      · dsimp only
        obtain ⟨-, hg⟩ := hattach g forward rfl
        cases hp : ((document η).push g (f :: parents) s').result with
        | error d => rfl
        | ok u =>
          cases forward with
          | false => rfl
          | true =>
            refine ih _ _ fun top ht hawaits => ?_
            cases ht
            exact absurd hawaits (hg _ _)
      · cases parents with
        | nil => rfl
        | cons parent parents =>
          cases forward with
          | false => rfl
          | true => exact ih _ _ fun _ _ _ => htop (honwards rfl)

/-- Modifiers are written on top of the stack only, and of all symbols only the brace that closes a
blend tree leads there. -/
theorem dispatch_settled (e : Event) (fuel : Nat) {stack : List Frame} (s : Session η)
    (h : Settled stack) :
    Settled ((document η).dispatch e fuel stack s).subject ∧
      (e.kind = .symbol → e.isSymbol '}' = false →
        ((document η).dispatch e fuel stack s).result = .ok () →
          ∀ top ∈ ((document η).dispatch e fuel stack s).subject.head?, ¬top.AwaitsModifier) := by
  induction fuel generalizing stack s with
  | zero => exact ⟨h, fun _ _ hr => by cases hr⟩
  | succ fuel ih =>
    cases stack with
    | nil => exact ⟨h, fun _ _ _ _ htop => by cases htop⟩
    | cons top parents =>
      have hattach (g : Frame) (forward : Bool) :=
        @document_attach η _ e s top g forward
      have hsymbol := fun hk hb => document_symbol (e := e) (s := s) (f := top) hk hb
      simp only [dispatch]
      generalize (document η).onToken e top s = x at hattach hsymbol ⊢
      obtain ⟨f, s', result⟩ := x
      rcases result with d | _ | ⟨g, forward⟩ | ⟨forward⟩
      · exact ⟨h, fun _ _ hr => by cases hr⟩
      · refine ⟨h, fun hk hb _ t ht => ?_⟩
        cases ht
        exact hsymbol hk hb rfl
      · dsimp only
        obtain ⟨hf, hg⟩ := hattach g forward rfl
        have hpush : Settled ((document η).push g (f :: parents) s').subject :=
          List.forall_mem_cons.2 ⟨hf, h⟩
        cases hp : ((document η).push g (f :: parents) s').result with
        | error d => exact ⟨hpush, fun _ _ hr => by rw [hp] at hr; cases hr⟩
        | ok u =>
          cases forward with
          | false =>
            refine ⟨hpush, fun _ _ _ t ht => ?_⟩
            cases ht
            exact hg _ _
          | true => exact ih _ hpush
      · cases parents with
        | nil => exact ⟨h, fun _ _ hr => by cases hr⟩
        | cons parent parents =>
          have hparents : Settled (parent :: parents) := fun q hq => h q (List.mem_cons_of_mem _ hq)
          cases forward with
          | false =>
            refine ⟨hparents, fun _ _ _ t ht => ?_⟩
            cases ht
            exact h parent List.mem_cons_self
          | true => exact ih _ hparents

end Grammar

end MotionScript
