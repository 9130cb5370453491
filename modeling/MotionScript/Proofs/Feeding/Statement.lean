import MotionScript.Canonical.Statement
import MotionScript.Proofs.Feeding.Leads
import MotionScript.Proofs.Linking.Turn
/-!
# Reading statements

A written statement queues the transitions it was written for.
-/

namespace MotionScript

/-- Whether events queue transitions and change nothing else in the session; `gs` says which ones,
wherever they are written. -/
def Enqueues {η : Type} [Host η] (es : List Event) (stack : List Frame) (s : Session η)
    (stack' : List Frame) (gs : List Pending) : Prop :=
  ∃ queued j, queued.map Pending.bare = gs ∧
    Feeds es stack s stack' { s with pending := s.pending ++ queued } j ∧ j.told = ⟨gs, []⟩

namespace Enqueues

variable {η : Type} [Host η] {e : Event} {es es' : List Event} {stack stack' stack'' : List Frame}
  {s : Session η} {gs gs' : List Pending}

theorem nil (stack : List Frame) (s : Session η) : Enqueues [] stack s stack [] := by
  refine ⟨[], [], rfl, ?_, rfl⟩
  rw [List.append_nil]
  exact .nil stack s

/-- An event in front that queues nothing. -/
theorem cons {j : Journal} (h : Enqueues es stack' s stack'' gs) (ht : Takes e stack s stack' s j)
    (hj : j.told = ⟨[], []⟩) : Enqueues (e :: es) stack s stack'' gs := by
  obtain ⟨queued, j', hbare, hfeeds, hj'⟩ := h
  refine ⟨queued, j ++ j', hbare, .cons ht hfeeds, ?_⟩
  rw [Journal.told_append, hj, hj']
  rfl

theorem append (h : Enqueues es stack s stack' gs)
    (h' : ∀ s : Session η, Enqueues es' stack' s stack'' gs') :
    Enqueues (es ++ es') stack s stack'' (gs ++ gs') := by
  obtain ⟨queued, j, hbare, hfeeds, hj⟩ := h
  obtain ⟨queued', j', hbare', hfeeds', hj'⟩ := h' { s with pending := s.pending ++ queued }
  refine ⟨queued ++ queued', j ++ j', by rw [List.map_append, hbare, hbare'], ?_, ?_⟩
  · rw [← List.append_assoc]
    exact hfeeds.append hfeeds'
  · rw [Journal.told_append, hj, hj']
    rfl

end Enqueues

namespace TransitionRule

/-! ## Steps of a statement -/

/-- The rule of a statement that starts elsewhere. -/
def startedAt (r : TransitionRule) (start : Option (Span × Position)) : TransitionRule :=
  { r with start }

/-- Whether reading forms from a rule on ends its statement and queues transitions; `gs` says which
ones, wherever they are written. -/
structure Goes (fs : List Form) (r : TransitionRule) (gs : List Pending) : Prop where
  enqueues : ∀ {η : Type} [Host η] (es : List Event) (s : Session η) start below rest,
    List.Forall₂ Event.Is es fs →
      Enqueues es (.transition (r.startedAt start) :: below :: rest) s (below :: rest) gs

variable {η : Type} [Host η] {f : Form} {fs fs' : List Form} {r q : TransitionRule}
  {gs : List Pending}

theorem told_queue {e : Event} {s : Session η} {groups : List Pending}
    (h : r.queuedBy s.controller e = groups) :
    Journal.told (Grammar.Call.token e (.transition r) s).entries =
      ⟨groups.map Pending.bare, []⟩ := by
  have he : (Grammar.Call.token e (.transition r) s).entries = [.queue groups] := by rw [← h]; rfl
  rw [he]
  simp [Journal.told, Journal.groups, Journal.walk]

/-- The rule goes on to another one without ending its statement. -/
theorem Goes.token
    (h : ∀ {η : Type} e start (s : Session η), e.Is f →
      ∃ start', (r.startedAt start).react e s = .ok (q.startedAt start', s, none))
    (hs : Goes fs q gs) : Goes (f :: fs) r gs := by
  constructor
  intro η _ es s start below rest hes
  cases hes with
  | @cons e _ es _ he hes =>
    obtain ⟨start', hr⟩ := h e start s he
    have hq : (r.startedAt start).queuedBy s.controller e = [] := by
      obtain ⟨-, -, ⟨hq, -⟩ | ⟨⟨⟩, -⟩⟩ := react_ok hr
      exact hq
    have htakes : Takes e (.transition (r.startedAt start) :: below :: rest) s
        (.transition (q.startedAt start') :: below :: rest) s _ :=
      .stay (by simp only [Frame.react, Frame.lift, hr, Except.map])
    exact (hs.enqueues es s start' below rest hes).cons htakes (told_queue hq)

/-- The rule looks at a token once. -/
theorem Goes.look
    (h : ∀ e start, e.Is f → (r.startedAt start).ends e = false ∧
      (r.startedAt start).look e = .ok ⟨q.startedAt start, false⟩)
    (hs : Goes fs q gs) : Goes (f :: fs) r gs := by
  refine token (fun e start s he => ?_) hs
  obtain ⟨hends, hlook⟩ := h e (some (start.getD (e.span, e.position))) he
  refine ⟨some (start.getD (e.span, e.position)), ?_⟩
  show lookAgain e s 2 (r.startedAt (some (start.getD (e.span, e.position)))) = _
  rw [lookAgain, hends, hlook]
  rfl

/-- The rule looks at a token twice. -/
theorem Goes.lookTwice (q' : TransitionRule)
    (h : ∀ e start, e.Is f → (r.startedAt start).ends e = false ∧
      (r.startedAt start).look e = .ok ⟨q'.startedAt start, true⟩)
    (h' : ∀ e start, e.Is f → (q'.startedAt start).ends e = false ∧
      (q'.startedAt start).look e = .ok ⟨q.startedAt start, false⟩)
    (hs : Goes fs q gs) : Goes (f :: fs) r gs := by
  refine token (fun e start s he => ?_) hs
  obtain ⟨hends, hlook⟩ := h e (some (start.getD (e.span, e.position))) he
  obtain ⟨hends', hlook'⟩ := h' e (some (start.getD (e.span, e.position))) he
  refine ⟨some (start.getD (e.span, e.position)), ?_⟩
  show lookAgain e s 2 (r.startedAt (some (start.getD (e.span, e.position)))) = _
  rw [lookAgain, hends, hlook]
  show lookAgain e s 1 (q'.startedAt (some (start.getD (e.span, e.position)))) = _
  rw [lookAgain, hends', hlook']
  rfl

/-! ### The end of a statement -/

/-- The transitions of a statement with a destination, wherever it is written. -/
def bareQueued (r : TransitionRule) (scope : Scope) : List Pending :=
  (if r.groups.isEmpty then [[]] else r.groups).map fun conditions =>
    { transition := { r.modifiers with conditions }
      target := target default scope r.goto
      home := home scope r.any
      owner := scope.machine
      layer := scope.layer
      hint := []
      span := ⟨0, 0⟩
      position := ⟨0, 0⟩ }

theorem bare_queued (c : Controller) (scope : Scope) (start : Span × Position)
    (hg : r.goto.isSome = true) : (r.queued c scope start).map Pending.bare = r.bareQueued scope := by
  obtain ⟨g, hg⟩ := Option.isSome_iff_exists.1 hg
  simp only [queued, bareQueued, List.map_map, hg]
  refine List.map_congr_left fun conditions _ => ?_
  cases g <;> rfl

/-- The semicolon ends a statement; a destination in front of it is looked at first. -/
theorem Goes.finish {scope : Scope} (hscope : q.scope = some scope)
    (hx : q.expect = .modifier none) (hb : q.bracket = false) (hg : q.goto.isSome = true)
    (h : r = q ∨ ∀ e start, e.Is (.symbol ';') → (r.startedAt start).ends e = false ∧
      (r.startedAt start).look e = .ok ⟨q.startedAt start, true⟩) :
    Goes [.symbol ';'] r (q.bareQueued scope) := by
  constructor
  intro η _ es s start below rest hes
  obtain ⟨e, rfl, he⟩ : ∃ e, es = [e] ∧ e.Is (.symbol ';') := by
    cases hes with
    | cons he hes =>
      cases hes
      exact ⟨_, rfl, he⟩
  have hends (start : Option (Span × Position)) : (q.startedAt start).ends e = true := by
    simp [ends, startedAt, hx, he.symbol_isSymbol]
  -- What the rule does once it is at a modifier again.
  have hq (n : Nat) (start : Option (Span × Position)) :
      ended? e (n + 1) (q.startedAt start) = some (q.startedAt start) ∧
        lookAgain e s (n + 1) (q.startedAt start) = .ok (q.startedAt start,
          { s with pending := s.pending ++
              q.queued s.controller scope (start.getD (e.span, e.position)) },
          some (.detach false)) := by
    constructor
    · rw [ended?, if_pos (hends start), startedAt, hb, if_neg Bool.false_ne_true]
    · rw [lookAgain, if_pos (hends start), TransitionRule.finish, startedAt, hb,
        if_neg Bool.false_ne_true, hscope]
      rfl
  have hr (start : Option (Span × Position)) :
      ended? e 2 (r.startedAt start) = some (q.startedAt start) ∧
        lookAgain e s 2 (r.startedAt start) = .ok (q.startedAt start,
          { s with pending := s.pending ++
              q.queued s.controller scope (start.getD (e.span, e.position)) },
          some (.detach false)) := by
    rcases h with rfl | h
    · exact hq 1 start
    · obtain ⟨hn, hl⟩ := h e start he
      rw [ended?, lookAgain, hn, hl]
      exact hq 0 start
  have hqueued : (r.startedAt start).queuedBy s.controller e =
      q.queued s.controller scope (start.getD (e.span, e.position)) := by
    have hbegun : ended? e maxLooks ((r.startedAt start).begun e) = _ :=
      (hr (some (start.getD (e.span, e.position)))).1
    rw [queuedBy, hbegun]
    simp only [startedAt, hscope, Option.getD_some]
    rfl
  have hreact : (Frame.transition (r.startedAt start)).react e s = .ok
      (.transition (q.startedAt (some (start.getD (e.span, e.position)))),
        { s with pending := s.pending ++
            q.queued s.controller scope (start.getD (e.span, e.position)) },
        some (.detach false)) := by
    have hlook : (r.startedAt start).react e s = _ :=
      (hr (some (start.getD (e.span, e.position)))).2
    rw [Frame.react, Frame.lift, hlook]
    rfl
  refine ⟨_, _, bare_queued s.controller scope (start.getD (e.span, e.position)) hg,
    .cons (.detach hreact) (.nil _ _), ?_⟩
  rw [Journal.told_append, Journal.told_append, told_queue hqueued, bare_queued _ _ _ hg,
    Journal.told_nil, Told.append_nil]
  exact Told.append_nil _

end TransitionRule

end MotionScript
