import MotionScript.Proofs.Feeding.Events
import MotionScript.Proofs.Feeding.Outline
import MotionScript.Proofs.Token.Lines
/-!
# Reading pieces

What a part of a document does is stated for the pieces it is written with: whatever events they are
read as, and with every host of which as much is known, feeding these leads from one stack and
outline to others and tells a journal the same, positions aside. Statements about parts are put
together to one about the whole.
-/

namespace MotionScript

/-! ## What a journal tells -/

/-- A waiting transition wherever it is written. -/
def Pending.bare (p : Pending) : Pending :=
  { p with hint := [], span := ⟨0, 0⟩, position := ⟨0, 0⟩ }

/-- The nodes that are declared and the machines that end. -/
def Journal.walk (j : Journal) : Journal :=
  j.filter fun
    | .queue _ => false
    | _ => true

/-- What a journal tells, positions aside. -/
structure Told where
  groups : List Pending := []
  walk : Journal := []

namespace Told

instance : Append Told :=
  ⟨fun t t' => ⟨t.groups ++ t'.groups, t.walk ++ t'.walk⟩⟩

variable (t t' t'' : Told)

@[simp]
theorem groups_append : (t ++ t').groups = t.groups ++ t'.groups := rfl

@[simp]
theorem walk_append : (t ++ t').walk = t.walk ++ t'.walk := rfl

@[simp]
theorem append_nil : t ++ ({} : Told) = t := by
  show Told.mk _ _ = t
  simp

@[simp]
theorem nil_append : ({} : Told) ++ t = t := rfl

end Told

namespace Journal

def told (j : Journal) : Told := ⟨j.groups.map Pending.bare, j.walk⟩

@[simp]
theorem told_nil : told [] = {} := rfl

@[simp]
theorem told_append (j j' : Journal) : (j ++ j').told = j.told ++ j'.told := by
  simp only [told, groups_append, walk, List.map_append, List.filter_append]
  rfl

end Journal

/-- What is read as two lists of pieces, falls into what is read as each. -/
theorem Piece.exists_reads_append {es : List Event} {ps qs : List Piece}
    (h : List.Forall₂ Piece.Reads es (ps ++ qs)) :
    ∃ es₁ es₂, List.Forall₂ Piece.Reads es₁ ps ∧ List.Forall₂ Piece.Reads es₂ qs ∧
      es = es₁ ++ es₂ :=
  ⟨_, _, List.forall₂_take_append es ps qs h, List.forall₂_drop_append es ps qs h,
    (List.take_append_drop ps.length es).symm⟩

/-! ## Leading from one outline to another -/

def Leads (κ : Knowledge) (ps : List Piece) (stack : List Frame) (o : Outline)
    (stack' : List Frame) (o' : Outline) (t : Told) : Prop :=
  ∀ (η : Type) [Host η] (es : List Event) (s : Session η), List.Forall₂ Piece.Reads es ps →
    κ.Holds s.host → s.outline = o →
      ∃ s' j, Feeds es stack s stack' s' j ∧ s'.outline = o' ∧ j.told = t

/-- Whether a rule tells nothing while it handles tokens. -/
def Frame.Quiet (f : Frame) : Prop :=
  ∀ {η : Type} [Host η] (e : Event) (s : Session η),
    Journal.told (Grammar.Call.token e f s).entries = {}

namespace Frame

@[simp]
theorem quiet_document : document.Quiet := by
  intro η _ e s
  rfl

@[simp]
theorem quiet_parameter (r : ParameterRule) : (parameter r).Quiet := by
  intro η _ e s
  rfl

@[simp]
theorem quiet_machine (m : OpenMachine) (x : MachineExpect) : (machine (.named m x)).Quiet := by
  intro η _ e s
  rfl

@[simp]
theorem quiet_state (scope : Scope) (id : StateId) (x : StateExpect) :
    (state (.named scope id x)).Quiet := by
  intro η _ e s
  rfl

@[simp]
theorem quiet_motion (r : MotionRule) : (motion r).Quiet := by
  intro η _ e s
  rfl

@[simp]
theorem quiet_record (r : RecordRule) : (record r).Quiet := by
  intro η _ e s
  rfl

end Frame

namespace Leads

variable {κ : Knowledge} {p : Piece} {ps qs : List Piece} {stack stack' stack'' rest : List Frame}
  {o o₁ o₂ : Outline} {t t₁ t₂ : Told} {top : Frame}

theorem nil (stack : List Frame) (o : Outline) : Leads κ [] stack o stack o {} := by
  intro η _ es s hes _ ho
  cases hes
  exact ⟨s, [], .nil stack s, ho, rfl⟩

theorem append (h : Leads κ ps stack o stack' o₁ t₁) (h' : Leads κ qs stack' o₁ stack'' o₂ t₂) :
    Leads κ (ps ++ qs) stack o stack'' o₂ (t₁ ++ t₂) := by
  intro η _ es s hes hk ho
  obtain ⟨es₁, es₂, h₁, h₂, rfl⟩ := Piece.exists_reads_append hes
  obtain ⟨s₁, j₁, hf₁, ho₁, hj₁⟩ := h η es₁ s h₁ hk ho
  obtain ⟨s₂, j₂, hf₂, ho₂, hj₂⟩ := h' η es₂ s₁ h₂ (hf₁.holds hk) ho₁
  exact ⟨s₂, j₁ ++ j₂, hf₁.append hf₂, ho₂, by rw [Journal.told_append, hj₁, hj₂]⟩

/-- The first event decides on the stack for the others. -/
theorem cons (h : ∀ {η : Type} [Host η] (e : Event) (s : Session η), p.Reads e → κ.Holds s.host →
      s.outline = o → ∃ stack₁ s₁ j, Takes e stack s stack₁ s₁ j ∧ s₁.outline = o₁ ∧ j.told = t₁ ∧
        Leads κ ps stack₁ o₁ stack' o₂ t₂) :
    Leads κ (p :: ps) stack o stack' o₂ (t₁ ++ t₂) := by
  intro η _ es s hes hk ho
  cases hes with
  | cons he hes =>
    obtain ⟨stack₁, s₁, j₁, ht, ho₁, hj₁, hs⟩ := h _ s he hk ho
    obtain ⟨stored, htold⟩ := ht.told
    obtain ⟨s₂, j₂, hf, ho₂, hj₂⟩ := hs η _ s₁ hes (hk.told htold) ho₁
    exact ⟨s₂, j₁ ++ j₂, .cons ht hf, ho₂, by rw [Journal.told_append, hj₁, hj₂]⟩

/-- A rule handles the first piece with what is known of the host, and waits for the next. -/
theorem ask {m : Outline} (top' : Frame) (hq : top.Quiet)
    (h : ∀ {η : Type} [Host η] (e : Event) (s : Session η), p.Reads e → κ.Holds s.host →
      s.outline = o → ∃ s', top.react e s = .ok (top', s', none) ∧ s'.outline = m)
    (hs : Leads κ ps (top' :: rest) m stack' o₂ t) :
    Leads κ (p :: ps) (top :: rest) o stack' o₂ t := by
  rw [← t.nil_append]
  apply cons
  intro η _ e s he hk ho
  obtain ⟨s', hr, ho'⟩ := h e s he hk ho
  exact ⟨_, s', _, .stay hr, ho', hq e s, hs⟩

/-- A rule handles the first piece and waits for the next. -/
theorem stay {m : Outline} (top' : Frame) (hq : top.Quiet)
    (h : ∀ {η : Type} [Host η] (e : Event) (s : Session η), p.Reads e → s.outline = o →
      ∃ s', top.react e s = .ok (top', s', none) ∧ s'.outline = m)
    (hs : Leads κ ps (top' :: rest) m stack' o₂ t) :
    Leads κ (p :: ps) (top :: rest) o stack' o₂ t :=
  ask top' hq (fun e s he _ ho => h e s he ho) hs

/-- A rule declares a node with the first piece. -/
theorem declare {m : Outline} (top' : Frame) (node : Declared)
    (h : ∀ {η : Type} [Host η] (e : Event) (s : Session η), p.Reads e → s.outline = o →
      (∃ s', top.react e s = .ok (top', s', none) ∧ s'.outline = m) ∧
        (Grammar.Call.token e top s).entries = [.declare node])
    (hs : Leads κ ps (top' :: rest) m stack' o₂ t) :
    Leads κ (p :: ps) (top :: rest) o stack' o₂ (⟨[], [.declare node]⟩ ++ t) := by
  apply cons
  intro η _ e s he _ ho
  obtain ⟨⟨s', hr, ho'⟩, hentries⟩ := h e s he ho
  exact ⟨_, s', _, .stay hr, ho', by rw [hentries]; rfl, hs⟩

/-- A rule handles the first piece and leaves the session alone. -/
theorem read (top' : Frame) (hq : top.Quiet)
    (h : ∀ {η : Type} [Host η] (e : Event) (s : Session η), p.Reads e →
      top.react e s = .ok (top', s, none))
    (hs : Leads κ ps (top' :: rest) o stack' o₂ t) :
    Leads κ (p :: ps) (top :: rest) o stack' o₂ t :=
  stay top' hq (fun e s he ho => ⟨s, h e s he, ho⟩) hs

/-- A rule attaches another one for the next piece. -/
theorem attach {f : Frame} (top' g : Frame) (hq : top.Quiet)
    (h : ∀ {η : Type} [Host η] (e : Event) (s : Session η), p.Reads e →
      top.react e s = .ok (top', s, some (.attach f false)))
    (ha : ∀ {η : Type} [Host η] (s : Session η), f.onAttach top'.context s = ⟨g, s, .ok ()⟩)
    (hs : Leads κ ps (g :: top' :: rest) o stack' o₂ t) :
    Leads κ (p :: ps) (top :: rest) o stack' o₂ t := by
  rw [← t.nil_append]
  apply cons
  intro η _ e s he _ ho
  exact ⟨_, s, _, .attach (h e s he) (ha s), ho, hq e s, hs⟩

/-- A rule attaches another one, which is told the name of the node that it declares. A brace opens the
block of the node. -/
theorem header {f : Frame} (unnamed opened item : Frame) (node : Declared) {word name : String}
    (hq : top.Quiet) (hopened : opened.Quiet)
    (hattach : ∀ {η : Type} [Host η] (e : Event) (s : Session η), e.Is (.word word) →
      top.react e s = .ok (top, s, some (.attach f false)))
    (ha : ∀ {η : Type} [Host η] (s : Session η), f.onAttach top.context s = ⟨unnamed, s, .ok ()⟩)
    (hname : ∀ {η : Type} [Host η] (e : Event) (s : Session η), e.Is (.name name) → s.outline = o →
      (∃ s', unnamed.react e s = .ok (opened, s', none) ∧ s'.outline = o₁) ∧
        (Grammar.Call.token e unnamed s).entries = [.declare node])
    (hbrace : ∀ {η : Type} [Host η] (e : Event) (s : Session η), e.Is (.symbol '\x7b') →
      opened.react e s = .ok (item, s, none)) :
    Leads κ [(Form.word word).joined, (Form.name name).spaced, (Form.symbol '\x7b').spaced]
      (top :: rest) o (item :: top :: rest) o₁ ⟨[], [.declare node]⟩ := by
  have h : Leads κ [(Form.word word).joined, (Form.name name).spaced, (Form.symbol '\x7b').spaced]
      (top :: rest) o (item :: top :: rest) o₁ (⟨[], [.declare node]⟩ ++ {}) :=
    .attach top unnamed hq (fun e s he => hattach e s he.is) ha
      (.declare opened node (fun e s he ho => hname e s he.is ho)
        (.read item hopened (fun e s he => hbrace e s he.is) (.nil _ _)))
  rwa [Told.append_nil] at h

/-- A rule attaches another one that handles the piece. -/
theorem forward {f g : Frame} (top' g' : Frame) (hq : top.Quiet) (hg : g.Quiet)
    (h : ∀ {η : Type} [Host η] (e : Event) (s : Session η), p.Reads e →
      top.react e s = .ok (top', s, some (.attach f true)))
    (ha : ∀ {η : Type} [Host η] (s : Session η), f.onAttach top'.context s = ⟨g, s, .ok ()⟩)
    (hr : ∀ {η : Type} [Host η] (e : Event) (s : Session η), p.Reads e → s.outline = o →
      ∃ s', g.react e s = .ok (g', s', none) ∧ s'.outline = o₁)
    (hs : Leads κ ps (g' :: top' :: rest) o₁ stack' o₂ t) :
    Leads κ (p :: ps) (top :: rest) o stack' o₂ t := by
  rw [← t.nil_append]
  apply cons
  intro η _ e s he _ ho
  obtain ⟨s', hr, ho'⟩ := hr e s he ho
  exact ⟨_, s', _, .forward (h e s he) (ha s) hr, ho', by rw [Journal.told_append, hq, hg]; rfl,
    hs⟩

/-- A rule ends with the piece. -/
theorem detach {below : Frame} (top' : Frame) (hq : top.Quiet)
    (h : ∀ {η : Type} [Host η] (e : Event) (s : Session η), p.Reads e → s.outline = o →
      ∃ s', top.react e s = .ok (top', s', some (.detach false)) ∧
        (top'.close s').outline = o₁ ∧
          Journal.told (Grammar.Call.detach top' s').entries = t) :
    Leads κ [p] (top :: below :: rest) o (below :: rest) o₁ t := by
  rw [← t.append_nil]
  apply cons
  intro η _ e s he _ ho
  obtain ⟨s', hr, ho', hj⟩ := h e s he ho
  exact ⟨_, _, _, .detach hr, ho', by rw [Journal.told_append, hq, hj]; rfl, .nil _ _⟩

/-- Lines that lead from one outline to another are read without a failure. -/
theorem feed_render {ls : List Canonical.Line} (hs : Spells ls ps)
    (hl : Leads κ ps stack o stack' o₁ t) {η : Type} [Host η] {s : Session η}
    (hk : κ.Holds s.host) (ho : s.outline = o) (p : Position) :
    let stream := Lexer.tokenize .document (Canonical.render ls)
    stream.failure = none ∧ ∃ s' p',
      (Grammar.document η).feed (Event.ofTokens stream.tokens) ⟨stack, s, p, none⟩ =
        ⟨stack', s', p', none⟩ ∧ s'.outline = o₁ := by
  obtain ⟨hfailure, hreads⟩ := hs.reads
  obtain ⟨s', j, hfeeds, ho', -⟩ := hl η _ s hreads hk ho
  obtain ⟨⟨p', hfeed⟩, -⟩ := hfeeds.feed p
  exact ⟨hfailure, s', p', hfeed, ho'⟩

end Leads

/-! ## Leading from one stack to another -/

/-- Whether reading pieces leads from one stack to another and leaves the session alone. -/
def Passes (ps : List Piece) (stack stack' : List Frame) : Prop :=
  ∀ (η : Type) [Host η] (es : List Event) (s : Session η), List.Forall₂ Piece.Reads es ps →
    ∃ j, Feeds es stack s stack' s j ∧ j.told = {}

namespace Passes

variable {p : Piece} {ps : List Piece} {stack stack' rest : List Frame} {top : Frame}

theorem nil (stack : List Frame) : Passes [] stack stack := by
  intro η _ es s hes
  cases hes
  exact ⟨[], .nil stack s, rfl⟩

/-- A rule handles the first piece and leaves the session alone. -/
theorem read (top' : Frame) (hq : top.Quiet)
    (h : ∀ {η : Type} [Host η] (e : Event) (s : Session η), p.Reads e →
      top.react e s = .ok (top', s, none))
    (hs : Passes ps (top' :: rest) stack') : Passes (p :: ps) (top :: rest) stack' := by
  intro η _ es s hes
  cases hes with
  | cons he hes =>
    obtain ⟨j, hf, hj⟩ := hs η _ s hes
    exact ⟨_, .cons (.stay (h _ s he)) hf, by rw [Journal.told_append, hq, hj]; rfl⟩

theorem leads (h : Passes ps stack stack') (κ : Knowledge) (o : Outline) :
    Leads κ ps stack o stack' o {} := by
  intro η _ es s hes _ ho
  obtain ⟨j, hf, hj⟩ := h η es s hes
  exact ⟨s, j, hf, ho, hj⟩

end Passes

end MotionScript
