import MotionScript.Proofs.Feeding.Blocks
import MotionScript.Proofs.Feeding.Transitions
import MotionScript.Proofs.Graph.Equality
/-!
# Reading items

The items of a block are read one after another. The statements of a list of transitions queue
transitions equal to these, in the same order.
-/

namespace MotionScript

open Canonical (Line)

/-- Whether reading lines in a block leads from one outline to another, whichever of the rules `F`
reads them, and leaves the rule as it is. -/
def Keeps (κ : Knowledge) (ls : List Line) (F : Frame → Prop) (o o' : Outline) (t : Told) : Prop :=
  ∃ ps, Spells ls ps ∧ ∀ f rest, F f → Leads κ ps (f :: rest) o (f :: rest) o' t

namespace Keeps

variable {κ : Knowledge} {ls ls' : List Line} {F : Frame → Prop} {o o₁ o₂ : Outline} {t t' : Told}

theorem nil (F : Frame → Prop) (o : Outline) : Keeps κ [] F o o {} :=
  ⟨[], .nil, fun f rest _ => .nil (f :: rest) o⟩

theorem append (h : Keeps κ ls F o o₁ t) (h' : Keeps κ ls' F o₁ o₂ t') :
    Keeps κ (ls ++ ls') F o o₂ (t ++ t') := by
  obtain ⟨ps, hs, hl⟩ := h
  obtain ⟨ps', hs', hl'⟩ := h'
  exact ⟨ps ++ ps', hs.append hs', fun f rest hf => (hl f rest hf).append (hl' f rest hf)⟩

end Keeps

/-! ## Rules that are handed a token -/

section Settling

variable {η : Type} [Host η]

/-- Whether a rule asks for no other rule on a token, and does not hand it on. -/
def Frame.Settles (f : Frame) (e : Event) (s : Session η) : Prop :=
  match f.react e s with
  | .error _ | .ok (_, _, none) | .ok (_, _, some (.detach false)) => True
  | .ok (_, _, some _) => False

/-- So it does not matter how often the token has been handed on. -/
theorem Frame.Settles.dispatch_eq {f : Frame} {e : Event} {s : Session η}
    (h : f.Settles e s) (rest : List Frame) (n m : Nat) :
    (Grammar.document η).dispatch e (n + 1) (f :: rest) s =
        (Grammar.document η).dispatch e (m + 1) (f :: rest) s ∧
      (Grammar.document η).dispatchCalls e (n + 1) (f :: rest) s =
        (Grammar.document η).dispatchCalls e (m + 1) (f :: rest) s := by
  unfold Frame.Settles at h
  split at h
  case h_1 d hr | h_2 r' s' hr =>
    simp only [Grammar.dispatch, Grammar.dispatchCalls, Grammar.document, Frame.onToken, hr, and_self]
  case h_3 r' s' hr =>
    simp only [Grammar.dispatch, Grammar.dispatchCalls, Grammar.document, Frame.onToken, hr,
      Bool.false_eq_true, if_false, and_self]
  case h_4 => exact h.elim

/-- A rule is attached for a token that it settles. -/
theorem Takes.forwardTo {e : Event} {f g top : Frame} {rest stack : List Frame}
    {s s' : Session η} {j : Journal}
    (h : top.react e s = .ok (top, s, some (.attach f true)))
    (ha : f.onAttach top.context s = ⟨g, s, .ok ()⟩) (hg : g.Settles e s)
    (ht : Takes e (g :: top :: rest) s stack s' j) :
    Takes e (top :: rest) s stack s' ((Grammar.Call.token e top s).entries ++ j) := by
  have hpush : (Grammar.document η).push f (top :: rest) s = ⟨g :: top :: rest, s, .ok ()⟩ := by
    simp [Grammar.push, Grammar.document, ha]
  have htoken : (Grammar.document η).onToken e top s = ⟨top, s, .ok (some (.attach f true))⟩ := by
    simp [Grammar.document, Frame.onToken, h]
  obtain ⟨hd, hj⟩ := hg.dispatch_eq (top :: rest) 62 63
  constructor
  · rw [Grammar.maxForwards, Grammar.dispatch, htoken]
    simp only [hpush, if_true]
    rw [hd]
    exact ht.dispatch
  · rw [Grammar.maxForwards, Grammar.dispatchCalls, htoken]
    simp only [hpush, if_true, List.flatMap_cons]
    rw [hj]
    exact congrArg ((Grammar.Call.token e top s).entries ++ ·) ht.journal

/-- A list of events starts with one for which a rule is attached that settles it. -/
theorem Feeds.forwardTo {e : Event} {es : List Event} {f g top : Frame} {rest stack : List Frame}
    {s s' : Session η} {j : Journal} (hq : top.Quiet)
    (h : top.react e s = .ok (top, s, some (.attach f true)))
    (ha : f.onAttach top.context s = ⟨g, s, .ok ()⟩) (hg : g.Settles e s)
    (hs : Feeds (e :: es) (g :: top :: rest) s stack s' j) :
    ∃ j', Feeds (e :: es) (top :: rest) s stack s' j' ∧ j'.told = j.told := by
  cases hs with
  | cons htakes hrest =>
    refine ⟨_, .cons (htakes.forwardTo h ha hg) hrest, ?_⟩
    rw [Journal.told_append, Journal.told_append, hq, Told.nil_append, ← Journal.told_append]

end Settling

section Forwarding

variable {p : Piece} {ps : List Piece} {f g top : Frame} {rest stack : List Frame}

/-- A part that starts with a rule of its own is met in a block. -/
theorem Leads.forwardTo {κ : Knowledge} {o o' : Outline} {t : Told} (hq : top.Quiet)
    (h : ∀ {η : Type} [Host η] (e : Event) (s : Session η), p.Reads e →
      top.react e s = .ok (top, s, some (.attach f true)))
    (ha : ∀ {η : Type} [Host η] (s : Session η), f.onAttach top.context s = ⟨g, s, .ok ()⟩)
    (hg : ∀ {η : Type} [Host η] (e : Event) (s : Session η), g.Settles e s)
    (hs : Leads κ (p :: ps) (g :: top :: rest) o stack o' t) :
    Leads κ (p :: ps) (top :: rest) o stack o' t := by
  intro η _ es s hes hk ho
  obtain ⟨s', j, hfeeds, ho', hj⟩ := hs η _ s hes hk ho
  cases hes with
  | cons he hes =>
    obtain ⟨j', hfeeds', hj'⟩ := hfeeds.forwardTo hq (h _ s he) (ha s) (hg _ s)
    exact ⟨s', j', hfeeds', ho', hj'.trans hj⟩

theorem Passes.forwardTo (hq : top.Quiet)
    (h : ∀ {η : Type} [Host η] (e : Event) (s : Session η), p.Reads e →
      top.react e s = .ok (top, s, some (.attach f true)))
    (ha : ∀ {η : Type} [Host η] (s : Session η), f.onAttach top.context s = ⟨g, s, .ok ()⟩)
    (hg : ∀ {η : Type} [Host η] (e : Event) (s : Session η), g.Settles e s)
    (hs : Passes (p :: ps) (g :: top :: rest) stack) : Passes (p :: ps) (top :: rest) stack := by
  intro η _ es s hes
  obtain ⟨j, hfeeds, hj⟩ := hs η _ s hes
  cases hes with
  | cons he hes =>
    obtain ⟨j', hfeeds', hj'⟩ := hfeeds.forwardTo hq (h _ s he) (ha s) (hg _ s)
    exact ⟨j', hfeeds', hj'.trans hj⟩

end Forwarding

/-! ## Statements in a block -/

section Statements

variable {η : Type} [Host η]

theorem TransitionRule.settles (r : TransitionRule) (e : Event) (s : Session η) :
    (Frame.transition r).Settles e s := by
  unfold Frame.Settles
  simp only [Frame.react, Frame.lift]
  cases hr : r.react e s with
  | error d => trivial
  | ok step =>
    obtain ⟨r', s', control⟩ := step
    obtain ⟨-, -, ⟨-, rfl⟩ | ⟨rfl, -⟩⟩ := react_ok hr
    · trivial
    · trivial

/-- A statement that is met in a block. -/
theorem TransitionRule.Goes.enqueuesIn {f : Form} {ps : List Piece} {top : Frame} {scope : Scope}
    {words : List String} {gs : List Pending} (hb : top.Block scope words) (hf : f.Starts)
    (h : Goes (f :: ps.map Piece.form) { scope := some scope } gs) {es : List Event}
    (hes : List.Forall₂ Piece.Reads es (f.joined :: ps)) (s : Session η) (rest : List Frame) :
    Enqueues es (top :: rest) s (top :: rest) gs := by
  have his : List.Forall₂ Event.Is es (f :: ps.map Piece.form) := by
    have hforms : List.Forall₂ (fun e (p : Piece) => e.Is p.form) es (f.joined :: ps) :=
      hes.imp fun e p he => he.is
    exact List.forall₂_map_right_iff.2 hforms
  obtain ⟨queued, j, hbare, hfeeds, hj⟩ := h.enqueues es s none top rest his
  cases hes with
  | cons he hes =>
    have hattach : (Frame.transition {}).onAttach top.context s =
        ⟨.transition { scope := some scope }, s, .ok ()⟩ := by
      rw [hb.context]
      rfl
    obtain ⟨j', hfeeds', hj'⟩ := hfeeds.forwardTo hb.quiet (hb.statement f hf _ s he.is) hattach
      (settles { scope := some scope } _ s)
    exact ⟨queued, j', hbare, hfeeds', hj'.trans hj⟩

end Statements

/-! ## Lists of statements -/

namespace Canonical

theorem gather_spec (first : Transition) (rest ts : List Transition)
    (h : ∀ t ∈ rest, sameStatement first t = true) :
    (groupStatements.gather (first :: rest) first ts).flatten = first :: rest ++ ts ∧
      ∀ g ∈ groupStatements.gather (first :: rest) first ts, ∃ first rest, g = first :: rest ∧
        ∀ t ∈ rest, sameStatement first t = true := by
  induction ts generalizing first rest with
  | nil =>
    refine ⟨by simp [groupStatements.gather], fun g hg => ?_⟩
    exact ⟨first, rest, List.mem_singleton.1 hg, h⟩
  | cons t ts ih =>
    rw [groupStatements.gather]
    cases hs : sameStatement first t with
    | true =>
      have hrest : ∀ u ∈ rest ++ [t], sameStatement first u = true := by
        simpa [or_imp, forall_and] using ⟨h, hs⟩
      rw [if_pos rfl, List.cons_append]
      simpa using ih first (rest ++ [t]) hrest
    | false =>
      rw [if_neg Bool.false_ne_true]
      obtain ⟨hflat, hgroups⟩ := ih t [] (by simp)
      refine ⟨by rw [List.flatten_cons, hflat]; rfl, fun g hg => ?_⟩
      rcases List.mem_cons.1 hg with rfl | hg
      · exact ⟨first, rest, rfl, h⟩
      · exact hgroups g hg

/-- Statements are written for all transitions, in order. -/
theorem groupStatements_spec (ts : List Transition) : (groupStatements ts).flatten = ts ∧
    ∀ g ∈ groupStatements ts, ∃ first rest, g = first :: rest ∧
      ∀ t ∈ rest, sameStatement first t = true := by
  cases ts with
  | nil => exact ⟨rfl, by simp [groupStatements]⟩
  | cons t ts => exact gather_spec t [] ts (by simp)

end Canonical

namespace TransitionRule

open Canonical

theorem Writable.time_beq {t : Transition} (h : Writable t) : (t.exitTime == t.exitTime) = true := by
  cases ht : t.exitTime with
  | none => rfl
  | some x => exact Binary.beq_self (h.exitTime x ht)

theorem modifiersBack_beq {t : Transition} (h : Writable t) :
    (modifiersBack t == { t with destination := .exit, conditions := [] }) = true := by
  have hduration : ((modifiersBack t).duration == t.duration) = true := by
    show ((if t.duration != .zero || t.fixedDuration then t.duration else .zero) == t.duration) = true
    split
    · exact Binary.beq_self h.duration
    · rename_i hd
      simp only [Bool.or_eq_true, bne, Bool.not_eq_true', not_or] at hd
      exact BEq.symm (Bool.not_eq_false _ ▸ hd.1)
  have hoffset : ((modifiersBack t).offset == t.offset) = true := by
    show ((if t.offset.isZero then .zero else t.offset) == t.offset) = true
    split
    · rename_i hz
      exact Binary.beq_zero hz h.offset
    · exact Binary.beq_self h.offset
  exact (Transition.beq_iff _ _).2 ⟨rfl, rfl, rfl, rfl, h.time_beq, hduration, rfl, hoffset, rfl, rfl,
    rfl⟩

theorem readBack_beq {c : Condition} (h : c.threshold.isFinite = true)
    (hz : c.mode = .holds ∨ c.mode = .fails → c.threshold.isZero = true) :
    (c.readBack == c) = true := by
  rw [Condition.beq_iff]
  obtain ⟨parameter, mode, threshold⟩ := c
  cases mode
  case holds => exact ⟨rfl, rfl, Binary.beq_zero (hz (.inl rfl)) h⟩
  case fails => exact ⟨rfl, rfl, Binary.beq_zero (hz (.inr rfl)) h⟩
  all_goals exact ⟨rfl, rfl, Binary.beq_self h⟩

/-- Whether a transition waits for linking as one that equals `t` up to its destination, to which its
target leads. -/
structure Queues (paths : Controller.NodePaths) (scope : Scope) (any : Bool) (t : Transition)
    (p : Pending) : Prop where
  transition : (p.transition == { t with destination := .exit }) = true
  target : ∃ path, Within paths scope t.destination path ∧ p.target = targetOf path
  home : p.home = TransitionRule.home scope any
  owner : p.owner = scope.machine
  layer : p.layer = scope.layer

/-- The transitions of a statement as they are read back: each one gets the modifiers of the first. -/
def groupBack (group : List Transition) : List Transition :=
  group.head?.elim [] fun first => group.map fun t =>
    { modifiersBack first with conditions := t.conditions.map Condition.readBack }

/-- Whether a list of transitions waits for linking as it is read back, statement by statement. -/
structure QueuesAll (paths : Controller.NodePaths) (scope : Scope) (any : Bool)
    (ts : List Transition) (ps : List Pending) : Prop where
  each : List.Forall₂ (Queues paths scope any) ts ps
  transitions : ps.map (·.transition) = (Canonical.groupStatements ts).flatMap groupBack

theorem queues_pendingOf {paths : Controller.NodePaths} {scope : Scope} {any : Bool}
    {first t : Transition} {path : Option Path} (hfirst : Writable first) (ht : Writable t)
    (hs : t = first ∨ sameStatement first t = true) (hd : Within paths scope first.destination path) :
    Queues paths scope any t (pendingOf scope any path first t) := by
  -- The members of a group differ in their conditions only.
  have hsame : ({ first with conditions := [] } == { t with conditions := [] }) = true := by
    rcases hs with rfl | hs
    · exact (Transition.beq_iff _ _).2 ⟨rfl, rfl, rfl, rfl, ht.time_beq, Binary.beq_self ht.duration,
        rfl, Binary.beq_self ht.offset, rfl, rfl, rfl⟩
    · simp only [sameStatement, Bool.and_eq_true] at hs
      exact hs.2
  obtain ⟨hd', -, h1, h2, h3, h4, h5, h6, h7, h8, h9⟩ := (Transition.beq_iff _ _).1 hsame
  obtain ⟨-, -, -, -, -, k4, -, k6, -, -, -⟩ := (Transition.beq_iff _ _).1 (modifiersBack_beq hfirst)
  refine ⟨?_, ⟨path, ?_, rfl⟩, rfl, rfl, rfl⟩
  · refine (Transition.beq_iff _ _).2 ⟨rfl, ?_, h1, h2, h3, BEq.trans k4 h4, h5, BEq.trans k6 h6, h7,
      h8, h9⟩
    exact beq_map fun c hc => readBack_beq (ht.thresholds c hc) (ht.zeros c hc)
  · rw [← show first.destination = t.destination from hd']
    exact hd

end TransitionRule

/-- Whether reading lines in a block queues transitions and changes nothing else, whichever of the
rules `F` reads them. -/
def Queueing (ls : List Line) (F : Frame → Prop) (gs : List Pending) : Prop :=
  ∃ ps, Spells ls ps ∧ ∀ (η : Type) [Host η] f rest es (s : Session η), F f →
    List.Forall₂ Piece.Reads es ps → Enqueues es (f :: rest) s (f :: rest) gs

namespace Queueing

variable {ls ls' : List Line} {F : Frame → Prop} {gs gs' : List Pending}

theorem nil (F : Frame → Prop) : Queueing [] F [] := by
  refine ⟨[], .nil, fun η _ f rest es s _ hes => ?_⟩
  cases hes
  exact .nil _ s

theorem append (h : Queueing ls F gs) (h' : Queueing ls' F gs') :
    Queueing (ls ++ ls') F (gs ++ gs') := by
  obtain ⟨ps, hs, hq⟩ := h
  obtain ⟨ps', hs', hq'⟩ := h'
  refine ⟨ps ++ ps', hs.append hs', fun η _ f rest es s hf hes => ?_⟩
  obtain ⟨es₁, es₂, h₁, h₂, rfl⟩ := Piece.exists_reads_append hes
  exact (hq η f rest es₁ s hf h₁).append fun s => hq' η f rest es₂ s hf h₂

theorem keeps (h : Queueing ls F gs) (κ : Knowledge) (o : Outline) : Keeps κ ls F o o ⟨gs, []⟩ := by
  obtain ⟨ps, hs, hq⟩ := h
  refine ⟨ps, hs, fun f rest hf η _ es s hes _ ho => ?_⟩
  obtain ⟨queued, j, -, hfeeds, hj⟩ := hq η f rest es s hf hes
  exact ⟨_, j, hfeeds, ho, hj⟩

/-- A statement queues the transitions of its group. -/
theorem statement {scope : Scope} {words : List String} (hF : ∀ f, F f → f.Block scope words)
    (c : Controller) {paths : Controller.NodePaths} {any : Bool} (depth : Nat) {first : Transition}
    {rest : List Transition} (hw : ∀ t ∈ first :: rest, TransitionRule.Writable t)
    (hd : ∃ path, TransitionRule.Within paths scope first.destination path)
    (hs : ∀ t ∈ rest, Canonical.sameStatement first t = true) :
    ∃ gs, Queueing [.text depth (Canonical.statement c paths scope.path any first (first :: rest))] F
        gs ∧
      List.Forall₂ (TransitionRule.Queues paths scope any) (first :: rest) gs ∧
      gs.map (·.transition) = TransitionRule.groupBack (first :: rest) := by
  obtain ⟨path, hd⟩ := hd
  have hconditions (t : Transition) (ht : t ∈ rest) :
      first.conditions ≠ [] ∧ t.conditions ≠ [] := by
    have := hs t ht
    simp only [Canonical.sameStatement, Bool.and_eq_true, Bool.not_eq_true'] at this
    simpa using this.1
  have hsome : first.conditions ≠ [] → ∀ t ∈ first :: rest, t.conditions ≠ [] := by
    intro hne t ht
    rcases List.mem_cons.1 ht with rfl | ht
    · exact hne
    · exact (hconditions t ht).2
  have hnone : first.conditions = [] → first :: rest = [first] := by
    intro he
    cases rest with
    | nil => rfl
    | cons t rest => exact absurd he (hconditions t List.mem_cons_self).1
  obtain ⟨f, ps, hchunk, hstarts, hgoes⟩ :=
    TransitionRule.goes_statement c hw List.mem_cons_self hsome hnone hd
  refine ⟨(first :: rest).map (TransitionRule.pendingOf scope any path first),
    ⟨_, hchunk.line depth, fun η _ top below es s hF' hes => ?_⟩, ?_, ?_⟩
  · exact hgoes.enqueuesIn (hF top hF') hstarts hes s below
  · rw [List.forall₂_map_right_iff, List.forall₂_same]
    intro t ht
    refine TransitionRule.queues_pendingOf (hw first List.mem_cons_self) (hw t ht) ?_ hd
    exact (List.mem_cons.1 ht).imp_right (hs t)
  · rw [List.map_map]
    rfl

/-- The statements of a list of transitions queue these transitions in order. -/
theorem statements {scope : Scope} {words : List String} (hF : ∀ f, F f → f.Block scope words)
    (c : Controller) {paths : Controller.NodePaths} (any : Bool) (depth : Nat)
    {ids : List TransitionId} (h : ∀ id ∈ ids, TransitionRule.Writable (c.transition id))
    (hd : ∀ id ∈ ids, ∃ path,
      TransitionRule.Within paths scope (c.transition id).destination path) :
    ∃ gs, Queueing (Canonical.statements c paths scope.path any depth ids) F gs ∧
      TransitionRule.QueuesAll paths scope any (ids.map c.transition) gs := by
  have hall (groups : List (List Transition))
      (hg : ∀ g ∈ groups, ∃ first rest, g = first :: rest ∧
        ∀ t ∈ rest, Canonical.sameStatement first t = true)
      (hw : ∀ t ∈ groups.flatten, TransitionRule.Writable t)
      (hd : ∀ t ∈ groups.flatten, ∃ path, TransitionRule.Within paths scope t.destination path) :
      ∃ gs, Queueing (groups.filterMap fun group => group.head?.map fun first =>
          .text depth (Canonical.statement c paths scope.path any first group)) F gs ∧
        List.Forall₂ (TransitionRule.Queues paths scope any) groups.flatten gs ∧
        gs.map (·.transition) = groups.flatMap TransitionRule.groupBack := by
    induction groups with
    | nil => exact ⟨[], .nil F, .nil, rfl⟩
    | cons g groups ih =>
      rw [List.forall_mem_cons] at hg
      rw [List.flatten_cons, List.forall_mem_append] at hw hd
      obtain ⟨gs, hk, hq, hback⟩ := ih hg.2 hw.2 hd.2
      obtain ⟨⟨first, rest, rfl, hs⟩, -⟩ := hg
      obtain ⟨gs', hk', hq', hback'⟩ := statement hF c depth hw.1 (hd.1 first List.mem_cons_self) hs
      refine ⟨gs' ++ gs, hk'.append hk, List.rel_append hq' hq, ?_⟩
      rw [List.map_append, hback, hback', List.flatMap_cons]
  obtain ⟨hflat, hg⟩ := Canonical.groupStatements_spec (ids.map c.transition)
  have hall := hall _ hg
  rw [hflat] at hall
  obtain ⟨gs, hqueueing, hqueues, hback⟩ := hall (by simpa using h) (by simpa using hd)
  exact ⟨gs, hqueueing, hqueues, hback⟩

end Queueing

/-- The statements of a list of transitions leave the outline as it is. -/
theorem Keeps.statements {κ : Knowledge} {F : Frame → Prop} {scope : Scope} {words : List String}
    (hF : ∀ f, F f → f.Block scope words) (c : Controller) {paths : Controller.NodePaths}
    {any : Bool} (depth : Nat) {ids : List TransitionId} (o : Outline)
    (h : ∀ id ∈ ids, TransitionRule.Writable (c.transition id))
    (hd : ∀ id ∈ ids, ∃ path,
      TransitionRule.Within paths scope (c.transition id).destination path) :
    ∃ gs, Keeps κ (Canonical.statements c paths scope.path any depth ids) F o o ⟨gs, []⟩ ∧
      TransitionRule.QueuesAll paths scope any (ids.map c.transition) gs := by
  obtain ⟨gs, hqueueing, hqueues⟩ := Queueing.statements hF c any depth h hd
  exact ⟨gs, hqueueing.keeps κ o, hqueues⟩

end MotionScript
