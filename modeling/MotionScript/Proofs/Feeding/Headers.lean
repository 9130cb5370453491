import MotionScript.Proofs.Feeding.Records
/-!
# Reading headers of records

A record starts with its type name and a brace. A block takes a name that is written as a string for
the start of a record, but for a layer, to which it may be a blending mode. Where the name is written
bare, its first part may be a word of the block, and what follows it is refused.
-/

namespace MotionScript

open Canonical (typeNameParts)
open TransitionRule (starters)

/-- Whether a rule is at an item of the block of a layer, a nested machine or a state, in which
records can be written. `words` start its other items. -/
inductive Frame.OwnsRecords : Frame → Scope → List String → Prop
  | machine {m : OpenMachine} (h : m.scope.state = none) :
    OwnsRecords (.machine (.named m .item)) m.scope (MachineRule.words m.parent.isNone)
  | state {scope : Scope} {id : StateId} (h : scope.state = some id) :
    OwnsRecords (.state (.named scope id .item)) scope StateRule.words

theorem Frame.OwnsRecords.block {top : Frame} {scope : Scope} {words : List String}
    (h : top.OwnsRecords scope words) : top.Block scope words := by
  cases h with
  | machine => exact MachineRule.block _
  | state => exact StateRule.block _ _

/-- Whether a block takes a string for a type name: a layer takes the name of a blending mode for an
option. -/
def Frame.TakesString : Frame → String → Prop
  | .machine (.named m _), text => m.parent = none → (Keyword.read? text : Option Blending) = none
  | _, _ => True

/-! ## Refusing what follows -/

/-- Whether a symbol can stand behind the first part of a header. -/
def FollowsPart (c : Char) : Prop := IsJoint c ∨ c = '\x7b'

theorem FollowsPart.isSymbol {c : Char} (h : FollowsPart c) {e : Event} (he : e.Is (.symbol c))
    {d : Char} (hd : d ∉ ['.', ',', ':', '\x7b']) : e.isSymbol d = false := by
  rw [he.symbol_isSymbol, beq_eq_false_iff_ne]
  rintro rfl
  rcases h with (rfl | rfl | rfl) | rfl <;> exact hd (by decide)

/-- Whether a rule refuses what follows the first part of a header. -/
def Frame.Refuses (f : Frame) : Prop :=
  ∀ c, FollowsPart c → ∀ {η : Type} [Host η] (e : Event) (s : Session η), e.Is (.symbol c) →
    ∃ d, f.react e s = .error d

namespace MachineRule

theorem refuses_unnamed (nested : Bool) (outer : Option Scope) :
    (Frame.machine (unnamed nested outer)).Refuses := by
  intro c _ η _ e s he
  simp [Frame.react, Frame.lift, react, he.symbol_name, Except.map, bind, Except.bind]

theorem refuses_named (m : OpenMachine) {x : MachineExpect} (hx : x ≠ .openBrace ∧ x ≠ .item) :
    (Frame.machine (named m x)).Refuses := by
  intro c hc η _ e s he
  have hstop : e.isSymbol ';' = false := hc.isSymbol he (by decide)
  cases x with
  | openBrace => exact absurd rfl hx.1
  | item => exact absurd rfl hx.2
  | weight | mask | sync | default | stop =>
    simp [Frame.react, Frame.lift, react, he.symbol_name, he.symbol_number, hstop, Except.map,
      bind, Except.bind]

end MachineRule

namespace StateRule

theorem refuses_unnamed (outer : Option Scope) : (Frame.state (unnamed outer)).Refuses := by
  intro c _ η _ e s he
  simp [Frame.react, Frame.lift, react, he.symbol_name, Except.map, bind, Except.bind]

theorem refuses_named (scope : Scope) (id : StateId) {x : StateExpect}
    (hx : x ≠ .openBrace ∧ x ≠ .item) : (Frame.state (named scope id x)).Refuses := by
  intro c hc η _ e s he
  have hstop : e.isSymbol ';' = false := hc.isSymbol he (by decide)
  cases x with
  | openBrace => exact absurd rfl hx.1
  | item => exact absurd rfl hx.2
  | speed | cycleOffset | time | mirror | tag | stop =>
    simp [Frame.react, Frame.lift, react, binding, he.symbol_name, he.symbol_kind, hstop,
      Except.map, bind, Except.bind]

end StateRule

theorem MotionRule.refuses {r : MotionRule}
    (hr : r.expect = .clipReference ∨ r.expect = .treeName) : (Frame.motion r).Refuses := by
  intro c _ η _ e s he
  rcases hr with hr | hr
  all_goals
    simp [Frame.react, Frame.lift, react, hr, he.symbol_name, Except.map, bind, Except.bind]

namespace TransitionRule

/-- What a statement expects behind its first word. -/
def firstExpects : List TransitionExpect :=
  [.condition true, .modifier none, .waitOpen, .fadeOpen, .gotoStart, .ordered]

section Words

variable {e : Event} {text : String}

/-- One of the words for an interruption, if it is none of the others. -/
theorem exists_interruption (he : e.Is (.word text)) (hs : starts e = true)
    (hw : ∀ w ∈ ["if", "any", "noSelf", "muted", "solo", "wait", "fade", "end", "goto"],
      e.isKeyword w = false) : ∃ i, (Keyword.read? e.text : Option Interruption) = some i := by
  rw [starts, he.word_kind] at hs
  obtain ⟨w, hmem, hword⟩ := List.any_eq_true.1 hs
  have hrest : w ∈ (Keyword.all : List Interruption).map Keyword.spelling := by
    have hsplit : ∀ w ∈ starters,
        w ∈ ["if", "any", "noSelf", "muted", "solo", "wait", "fade", "end", "goto"] ∨
          w ∈ (Keyword.all : List Interruption).map Keyword.spelling := by decide
    refine (hsplit w hmem).resolve_left fun hmem => ?_
    rw [hw w hmem] at hword
    cases hword
  obtain ⟨i, hi, rfl⟩ := List.mem_map.1 hrest
  rw [he.word_isKeyword, equalsIgnoringCase_comm, ← he.word_text] at hword
  exact Option.isSome_iff_exists.1 (List.find?_isSome.2 ⟨i, hi, hword⟩)

/-- A statement that starts with a word goes on. -/
theorem exists_look_starter (he : e.Is (.word text)) (hs : starts e = true) {r : TransitionRule}
    (hr : r.expect = .modifier none) (hb : r.bracket = false) :
    ∃ r', r.look e = .ok ⟨r', false⟩ ∧ r'.expect ∈ firstExpects ∧ r'.bracket = false := by
  simp only [look, hr, modifier, he.word_kind, wordModifier]
  split_ifs with h1 h2 h3 h4 h5 h6 h7 h8 h9
  case neg =>
    obtain ⟨i, hi⟩ := exists_interruption he hs (by simp [*])
    rw [hi]
    exact ⟨_, rfl, by simp [firstExpects, expecting], hb⟩
  all_goals exact ⟨_, rfl, by simp [firstExpects, expecting, modified], hb⟩

theorem exists_react_starter {η : Type} (he : e.Is (.word text)) (hs : starts e = true)
    (s : Session η) (scope : Scope) :
    ∃ r, react e s { scope := some scope } = .ok (r, s, none) ∧ r.expect ∈ firstExpects ∧
      r.bracket = false := by
  obtain ⟨r, hr, hexpect, hbracket⟩ := exists_look_starter he hs
    (r := { scope := some scope, start := some (e.span, e.position) }) rfl rfl
  refine ⟨r, ?_, hexpect, hbracket⟩
  simp only [react, maxLooks, lookAgain, ends, he.word_isSymbol, Bool.and_false,
    Bool.false_eq_true, if_false, Option.getD_none, hr]
  rfl

end Words

section Symbols

variable {e : Event} {c : Char} {r : TransitionRule}

theorem exists_look_refused (hc : FollowsPart c) (he : e.Is (.symbol c))
    (hr : r.expect ∈ firstExpects) (hx : r.expect ≠ .ordered) (hb : r.bracket = false) :
    ∃ d, r.look e = .error d := by
  have hsymbol (d : Char) (hd : d ∉ ['.', ',', ':', '\x7b']) : e.isSymbol d = false :=
    hc.isSymbol he hd
  simp only [firstExpects, List.mem_cons, List.not_mem_nil, or_false] at hr
  rcases hr with hr | hr | hr | hr | hr | hr
  case inr.inr.inr.inr.inr => exact absurd hr hx
  all_goals
    simp [look, hr, modifier, symbolModifier, hsymbol, he.symbol_kind, he.symbol_name,
      he.symbol_number, hb, bind, Except.bind]

theorem lookAgain_refused {η : Type} (hc : FollowsPart c) (he : e.Is (.symbol c)) (s : Session η)
    (n : Nat) {d : Diagnostic} (h : r.look e = .error d) : lookAgain e s (n + 1) r = .error d := by
  have hends : r.ends e = false := by
    rw [ends, hc.isSymbol he (by decide), Bool.and_false]
  rw [lookAgain, hends, h]
  rfl

theorem refuses (hr : r.expect ∈ firstExpects) (hb : r.bracket = false) :
    (Frame.transition r).Refuses := by
  intro c hc η _ e s he
  have hrefused : ∃ d, react e s r = .error d := by
    rw [react]
    by_cases hx : r.expect = .ordered
    · -- The rule looks at the token once more as at a modifier.
      obtain ⟨d, hd⟩ := exists_look_refused hc he (r := { r with
        expect := .modifier none, start := some (r.start.getD (e.span, e.position)) })
        (by simp [firstExpects]) (by simp) hb
      refine ⟨d, ?_⟩
      rw [maxLooks, lookAgain]
      have hstop : e.isSymbol ';' = false := hc.isSymbol he (by decide)
      simp only [ends, hx, look, he.symbol_isKeyword, expecting, hstop]
      exact lookAgain_refused hc he s 0 hd
    · obtain ⟨d, hd⟩ := exists_look_refused hc he (r := { r with
        start := some (r.start.getD (e.span, e.position)) }) hr hx hb
      exact ⟨d, lookAgain_refused hc he s 1 hd⟩
  obtain ⟨d, hd⟩ := hrefused
  exact ⟨d, by rw [Frame.react, hd]; rfl⟩

end Symbols

end TransitionRule

/-! ## Words of a block -/

section Words

variable {η : Type} [Host η] {e : Event} {text : String}

/-- Whether an event leads to a rule that refuses what follows the first part of a header. -/
def Frame.Misreads (top : Frame) (e : Event) (s : Session η) (below : List Frame) : Prop :=
  ∃ f stack s' j, Takes e (top :: below) s (f :: stack) s' j ∧ f.Refuses

theorem Frame.Misreads.stay {top top' : Frame} {s s' : Session η} (below : List Frame)
    (h : top.react e s = .ok (top', s', none)) (hf : top'.Refuses) : top.Misreads e s below :=
  ⟨top', below, s', _, .stay h, hf⟩

theorem Frame.Misreads.attach {top f g : Frame} {s : Session η} (below : List Frame)
    (h : top.react e s = .ok (top, s, some (.attach f false)))
    (ha : f.onAttach top.context s = ⟨g, s, .ok ()⟩) (hg : g.Refuses) : top.Misreads e s below :=
  ⟨g, top :: below, s, _, .attach h ha, hg⟩

/-- A word that starts a statement is misread. -/
theorem Frame.Misreads.statement {top : Frame} {s : Session η} {scope : Scope} (below : List Frame)
    (he : e.Is (.word text)) (hs : TransitionRule.starts e = true) (hc : top.context = some scope)
    (h : top.react e s = .ok (top, s, some (.attach (.transition {}) true))) :
    top.Misreads e s below := by
  obtain ⟨r, hr, hexpect, hbracket⟩ := TransitionRule.exists_react_starter he hs s scope
  have hattach : (Frame.transition {}).onAttach top.context s =
      ⟨.transition { scope := some scope }, s, .ok ()⟩ := by
    rw [hc]
    rfl
  have hreact : (Frame.transition { scope := some scope }).react e s =
      .ok (.transition r, s, none) := by
    rw [Frame.react, hr]
    rfl
  exact ⟨.transition r, top :: below, s, _, .forward h hattach hreact,
    TransitionRule.refuses hexpect hbracket⟩

namespace MachineRule

omit [Host η] in
/-- A layer goes on behind the first word of an option. -/
theorem exists_layerOption (m : OpenMachine) (s : Session η) (h : layerOption? m e s ≠ none) :
    ∃ x s', layerOption? m e s = some (named m x, s', none) ∧ x ≠ .openBrace ∧ x ≠ .item := by
  simp only [layerOption?] at h ⊢
  cases hread : (Keyword.read? e.text : Option Blending) with
  | none =>
    simp only [hread] at h ⊢
    split_ifs at h ⊢
    · exact absurd rfl h
    · exact ⟨.weight, s, rfl, by simp⟩
    · exact ⟨.mask, s, rfl, by simp⟩
    · exact ⟨.sync, s, rfl, by simp⟩
    · exact ⟨.stop, _, rfl, by simp⟩
    · exact ⟨.stop, _, rfl, by simp⟩
    · exact absurd rfl h
  | some blending =>
    simp only [hread] at h ⊢
    split_ifs at h ⊢
    · exact absurd rfl h
    · exact ⟨.weight, s, rfl, by simp⟩
    · exact ⟨.mask, s, rfl, by simp⟩
    · exact ⟨.sync, s, rfl, by simp⟩
    · exact ⟨.stop, _, rfl, by simp⟩

omit [Host η] in
/-- A layer takes the first word of an option for one. -/
theorem avoids_optionWords (he : e.Is (.word text)) {m : OpenMachine} {s : Session η}
    (h : layerOption? m e s = none) :
    Avoids text (if m.parent.isNone then optionWords else []) := by
  cases hp : m.parent with
  | some parent => simp [Avoids]
  | none =>
    cases hread : (Keyword.read? e.text : Option Blending) with
    | some blending =>
      simp only [layerOption?, hp, hread, Option.isSome_none, Bool.false_eq_true, if_false] at h
      split_ifs at h
    | none =>
      simp only [layerOption?, hp, hread, Option.isSome_none, Bool.false_eq_true, if_false] at h
      split_ifs at h with h1 h2 h3 h4 h5
      have hblending : ∀ b ∈ (Keyword.all : List Blending),
          Text.equalsIgnoringCase text (Keyword.spelling b) = false := by
        intro b hb
        rw [Keyword.read?, he.word_text, List.find?_eq_none] at hread
        rw [equalsIgnoringCase_comm]
        exact Bool.eq_false_iff.2 (hread b hb)
      rw [he.word_isKeyword, Bool.not_eq_true] at h1 h2 h3 h4 h5
      have hoverride := hblending .override (by decide)
      have hadditive := hblending .additive (by decide)
      simp only [Option.isNone_none, if_true, Avoids, optionWords, List.forall_mem_cons]
      exact ⟨h1, h2, h3, hoverride, hadditive, h4, h5, by simp⟩

/-- A word of the block of a machine is misread. -/
theorem misreads (he : e.Is (.word text)) (m : OpenMachine) (s : Session η) (below : List Frame)
    (hw : ¬Avoids text (words m.parent.isNone ++ starters)) :
    (Frame.machine (named m .item)).Misreads e s below := by
  have hreact : (Frame.machine (named m .item)).react e s = Frame.lift .machine (reactItem m e s) :=
    rfl
  by_cases hoption : layerOption? m e s = none
  · have havoid := avoids_optionWords he hoption
    simp only [reactItem, he.word_isSymbol, hoption, Bool.false_eq_true, if_false] at hreact
    split_ifs at hreact with h1 h2 h3 h4
    · exact Frame.Misreads.stay below hreact (refuses_named m (by simp))
    · exact .attach below hreact rfl (StateRule.refuses_unnamed _)
    · exact .attach below hreact rfl (refuses_unnamed _ _)
    · exact .statement below he h4 rfl hreact
    -- The word starts no other item.
    all_goals
      refine absurd ?_ hw
      have hstarters := (starts_eq_false_iff he).1 (Bool.eq_false_iff.2 h4)
      rw [he.word_isKeyword, Bool.not_eq_true] at h1 h2 h3
      simp only [Avoids, words, List.forall_mem_append, List.forall_mem_cons]
      exact ⟨⟨⟨h1, h2, h3, by simp⟩, havoid⟩, hstarters⟩
  · obtain ⟨x, s', hx, hexpect⟩ := exists_layerOption m s hoption
    simp only [reactItem, he.word_isSymbol, hx, Bool.false_eq_true, if_false] at hreact
    exact Frame.Misreads.stay below hreact (refuses_named m hexpect)

end MachineRule

namespace StateRule

/-- A word of the block of a state is misread. -/
theorem misreads (he : e.Is (.word text)) {scope : Scope} {id : StateId}
    (hscope : scope.state = some id) (s : Session η) (below : List Frame)
    (hw : ¬Avoids text (words ++ starters)) :
    (Frame.state (named scope id .item)).Misreads e s below := by
  have hreact : (Frame.state (named scope id .item)).react e s =
      Frame.lift .state (reactItem scope id e s) := rfl
  by_cases havoid : Avoids text words
  · have hstarts : TransitionRule.starts e = true := by
      by_contra hstarts
      have hstarters := (starts_eq_false_iff he).1 (Bool.eq_false_iff.2 hstarts)
      exact hw (List.forall_mem_append.2 ⟨havoid, hstarters⟩)
    rw [reactItem_word s he havoid, hstarts] at hreact
    exact .statement below he hstarts rfl hreact
  · obtain ⟨w, hmem, hequals⟩ : ∃ w ∈ words, Text.equalsIgnoringCase text w = true := by
      simpa [Avoids] using havoid
    have hkeyword := Event.isKeyword_eq ((he.word_isKeyword w).trans hequals)
    have hnamed {x : StateExpect} {s' : Session η} (hx : x ≠ .openBrace ∧ x ≠ .item)
        (h : (Frame.state (named scope id .item)).react e s =
          .ok (.state (named scope id x), s', none)) :
        (Frame.state (named scope id .item)).Misreads e s below :=
      .stay below h (refuses_named scope id hx)
    have hmotion {x : MotionExpect} (hx : x = .clipReference ∨ x = .treeName)
        (h : (Frame.state (named scope id .item)).react e s =
          .ok (.state (named scope id .item), s, some (.attach (.motion MotionRule.root) true)))
        (hstart : ({ slot := .state id, scope := some scope } : MotionRule).reactStart e =
          .ok { slot := .state id, scope := some scope, expect := x }) :
        (Frame.state (named scope id .item)).Misreads e s below := by
      have hattach : (Frame.motion MotionRule.root).onAttach (some scope) s =
          ⟨.motion { slot := .state id, scope := some scope }, s, .ok ()⟩ := by
        simp [Frame.onAttach, MotionRule.onAttach, MotionRule.root, hscope]
      refine ⟨.motion { slot := .state id, scope := some scope, expect := x }, _, s, _,
        .forward h hattach ?_, MotionRule.refuses hx⟩
      rw [Frame.react, MotionRule.react, hstart]
      rfl
    simp only [words, List.mem_cons, List.not_mem_nil, or_false] at hmem
    rcases hmem with rfl | rfl | rfl | rfl | rfl | rfl | rfl | rfl | rfl | rfl
    all_goals simp +decide only [reactItem, he.word_isSymbol, hkeyword, if_true, if_false] at hreact
    · exact hnamed (x := .speed) (by simp) hreact
    · exact hnamed (x := .cycleOffset) (by simp) hreact
    · exact hnamed (x := .time) (by simp) hreact
    · exact hnamed (x := .mirror) (by simp) hreact
    · exact hnamed (x := .tag) (by simp) hreact
    · exact hnamed (x := .stop) (by simp) hreact
    · exact hnamed (x := .stop) (by simp) hreact
    · exact hnamed (x := .stop) (by simp) hreact
    · refine hmotion (.inl rfl) hreact ?_
      simp +decide only [MotionRule.reactStart, hkeyword, if_true]
      rfl
    · refine hmotion (.inr rfl) hreact ?_
      simp +decide only [MotionRule.reactStart, hkeyword, if_true, if_false]
      rfl

end StateRule

theorem Frame.OwnsRecords.misreads {top : Frame} {scope : Scope} {words : List String}
    (h : top.OwnsRecords scope words) (he : e.Is (.word text)) (s : Session η) (below : List Frame)
    (hw : ¬Avoids text (words ++ starters)) : top.Misreads e s below := by
  cases h with
  | machine => exact MachineRule.misreads he _ s below hw
  | state hscope => exact StateRule.misreads he hscope s below hw

/-- What follows a word that is misread is refused. -/
theorem Frame.Misreads.refused {top : Frame} {s : Session η} {below : List Frame}
    (h : top.Misreads e s below) {c : Char} (hc : FollowsPart c) {e' : Event}
    (he' : e'.Is (.symbol c)) (es : List Event) (p : Position) :
    ∃ d, ((Grammar.document η).feed (e :: e' :: es) ⟨top :: below, s, p, none⟩).failure = some d := by
  obtain ⟨f, stack, s', j, ht, hf⟩ := h
  obtain ⟨d, hd⟩ := hf c hc e' s' he'
  have hrefused : (Grammar.document η).dispatch e' Grammar.maxForwards (f :: stack) s' =
      ⟨f :: stack, s', .error d⟩ := by
    simp [Grammar.dispatch, Grammar.maxForwards, Grammar.document, Frame.onToken, hd]
  simp only [Grammar.feed, ht.dispatch, hrefused]
  exact ⟨_, rfl⟩

end Words

/-! ## Headers -/

namespace RecordRule

variable {η : Type} [Host η]

/-- Whether a line, met as an item of a block, opens a record of a type in a scope. -/
def Opens (line : String) (depth : Nat) (block : Frame) (scope : Scope) (name : String)
    (schema : Schema) (s : Session η) : Prop :=
  let stream := Lexer.tokenize .document (Canonical.render [.text depth line])
  stream.failure = none ∧ ∀ below p, ∃ p',
    (Grammar.document η).feed (Event.ofTokens stream.tokens) ⟨block :: below, s, p, none⟩ =
      ⟨.record (.body ⟨name, schema, (attach s scope (.new name schema)).1, []⟩ .field) :: block ::
        below, (attach s scope (.new name schema)).2, p', none⟩

/-- Whether a line, met as an item of a block, ends the reading with a failure. -/
def Refused (line : String) (depth : Nat) (block : Frame) (s : Session η) : Prop :=
  let stream := Lexer.tokenize .document (Canonical.render [.text depth line])
  stream.failure = none ∧ ∀ below p, ∃ failure,
    ((Grammar.document η).feed (Event.ofTokens stream.tokens) ⟨block :: below, s, p, none⟩).failure =
      some failure

section Blocks

variable {block : Frame} {scope : Scope} {words : List String} {name : String} {schema : Schema}
  {s : Session η}

/-- A block reads a type name, and behind it the brace. -/
theorem opens_of_passes (hb : block.Block scope words) (hn : name ≠ "")
    (hs : Host.schema? s.host name = some schema) {text : String} {f : Form} {ps : List Piece}
    (hchunk : Chunk text.toList (f.joined :: ps))
    (hstart : ∀ {η : Type} [Host η] (e : Event) (s : Session η), e.Is f →
      block.react e s = .ok (block, s, some (.attach (.record (.typeName none none "")) true)))
    (hname : ∀ below, ∃ mode,
      Passes (f.joined :: ps) (.record (typeName (some scope) none "") :: below)
        (.record (typeName (some scope) mode name) :: below)) (depth : Nat) :
    Opens (text ++ " \x7b") depth block scope name schema s := by
  obtain ⟨hfailure, hreads⟩ := ((chunk_header hchunk).line depth).reads
  refine ⟨hfailure, fun below p => ?_⟩
  obtain ⟨mode, hname⟩ := hname (block :: below)
  have hpasses : Passes (f.joined :: ps) (block :: below)
      (.record (typeName (some scope) mode name) :: block :: below) := by
    refine hname.forwardTo (f := .record (.typeName none none "")) hb.quiet
      (fun e s he => hstart e s he.is) (fun s => ?_) (settles_typeName (some scope))
    rw [hb.context]
    rfl
  rw [← List.cons_append] at hreads
  obtain ⟨es, es', hes, hes', heq⟩ := Piece.exists_reads_append hreads
  obtain ⟨j, hfeeds, -⟩ := hpasses η es s hes
  cases hes' with
  | cons he hnil =>
    cases hnil
    have htakes : Takes _ (.record (typeName (some scope) mode name) :: block :: below) s _ _ _ :=
      .stay (react_brace he.is hn hs scope mode)
    have hbrace := Feeds.cons htakes (.nil _ _)
    obtain ⟨⟨p', hfeed⟩, -⟩ := (hfeeds.append hbrace).feed p
    rw [heq]
    exact ⟨p', hfeed⟩

/-- A record whose type name is written as a string is opened, unless a layer takes the name for an
option. -/
theorem string_opens (h : block.OwnsRecords scope words) (hn : name ≠ "")
    (hs : Host.schema? s.host name = some schema) (ht : block.TakesString name) (depth : Nat) :
    Opens (Canonical.string name ++ " \x7b") depth block scope name schema s := by
  refine opens_of_passes h.block hn hs (chunk_string name) (fun e s he => ?_)
    (fun below => ⟨_, passes_string (some scope) below name⟩) depth
  cases h with
  | machine =>
    rw [Frame.react, MachineRule.react, MachineRule.reactItem_string s he ht]
    rfl
  | state =>
    rw [Frame.react, StateRule.react, StateRule.reactItem_string s he]
    rfl

/-- What stands behind the first part of a header. -/
theorem exists_follows {more : List (Char × List Char)} (hj : ∀ x ∈ more, IsJoint x.1) :
    ∃ p ps c, more.flatMap partPieces ++ [(Form.symbol '\x7b').spaced] = p :: ps ∧
      p.form = .symbol c ∧ FollowsPart c := by
  cases more with
  | nil => exact ⟨_, [], '\x7b', rfl, rfl, .inr rfl⟩
  | cons x more => exact ⟨_, _, x.1, rfl, rfl, .inl (hj x List.mem_cons_self)⟩

/-- A header whose first part is a word of the block is refused. -/
theorem header_refused (h : block.OwnsRecords scope words) (hn : name ≠ "")
    (hw : ¬TypeNameWritable words name) (depth : Nat) :
    Refused (Canonical.typeName name ++ " \x7b") depth block s := by
  obtain ⟨hall, hfirst⟩ : (typeNameParts name.toList).all Canonical.isBare = true ∧
      ¬∀ part ∈ (typeNameParts name.toList).head?,
        Avoids (String.ofList part) (words ++ starters) := by
    by_contra hnot
    exact hw ⟨hn, fun hall => by_contra fun hfirst => hnot ⟨hall, hfirst⟩⟩
  obtain ⟨first, more, hhead, -, hmore, hchunk⟩ := exists_bareName hall
  obtain ⟨q, qs, c, hq, hform, hc⟩ := exists_follows hmore
  have hheader := chunk_header hchunk
  rw [hq] at hheader
  obtain ⟨hfailure, hreads⟩ := (hheader.line depth).reads
  refine ⟨hfailure, fun below p => ?_⟩
  rw [hhead] at hfirst
  have hword : ¬Avoids (String.ofList first) (words ++ starters) :=
    fun havoid => hfirst fun part hpart => by cases hpart; exact havoid
  generalize Event.ofTokens (Lexer.tokenize .document _).tokens = es at hreads
  cases hreads with
  | cons he hes =>
    cases hes with
    | cons he' hes => exact (h.misreads he.is s below hword).refused hc (hform ▸ he'.is) _ p

/-- Headers of records are read back, or refused. In the block of a layer, a nested machine or a
state, a record of a known type that is named by a string is opened, unless a layer takes the string
for a blending mode. The header that is written for the type opens one as well, unless the name is
written bare and its first part is a word of the block or starts a statement: what follows such a word
is refused, so that the document is not read. -/
theorem header_read (h : block.OwnsRecords scope words) (hn : name ≠ "")
    (hs : Host.schema? s.host name = some schema) (depth : Nat) :
    (block.TakesString name →
      Opens (Canonical.string name ++ " \x7b") depth block scope name schema s) ∧
    (TypeNameWritable words name →
      Opens (Canonical.typeName name ++ " \x7b") depth block scope name schema s) ∧
    (¬TypeNameWritable words name →
      Refused (Canonical.typeName name ++ " \x7b") depth block s) := by
  refine ⟨?_, ?_, ?_⟩
  · exact fun ht => string_opens h hn hs ht depth
  · intro hw
    obtain ⟨f, ps, hchunk, hstarts, hname⟩ := exists_typeName hw
    exact opens_of_passes h.block hn hs hchunk (hstarts h.block) (hname (some scope)) depth
  · exact fun hw => header_refused h hn hw depth

theorem Opens.not_refused {line : String} {depth : Nat}
    (h : Opens line depth block scope name schema s) : ¬Refused line depth block s := by
  rintro ⟨-, hrefused⟩
  obtain ⟨p', hopened⟩ := h.2 [] ⟨0, 0⟩
  obtain ⟨failure, hfailure⟩ := hrefused [] ⟨0, 0⟩
  rw [hopened] at hfailure
  cases hfailure

end Blocks

/-- A session in a layer, with a host that knows a type with a qualified name, and one with the name
of a word. -/
def twoTypes : Session MemoryHost where
  controller := { name := "Hero", machines := #[{ name := "L" }] }
  host := { registry := ⟨[("Game.Steps", []), ("state", [])]⟩ }

/-- The block of that layer. -/
def openLayer : OpenMachine := ⟨⟨["L"], 0, ⟨0⟩, none, ⟨["L"]⟩⟩, none, none⟩

theorem owns_openLayer : (Frame.machine (.named openLayer .item)).OwnsRecords openLayer.scope
    (MachineRule.words true) := .machine rfl

theorem header_read_qualified :
    Opens (Canonical.typeName "Game.Steps" ++ " \x7b") 1 (.machine (.named openLayer .item))
      openLayer.scope "Game.Steps" [] twoTypes := by
  have hhead : (typeNameParts "Game.Steps".toList).head? = some "Game".toList := by decide
  have havoid : Avoids "Game" (MachineRule.words true ++ starters) := by
    simp only [Avoids]
    decide
  have hw : TypeNameWritable (MachineRule.words true) "Game.Steps" := by
    refine ⟨by decide, fun _ part hpart => ?_⟩
    rw [hhead] at hpart
    cases hpart
    exact havoid
  exact (header_read owns_openLayer (by decide) rfl 1).2.1 hw

/-- A bare name is refused where the same name in quotes is taken. -/
theorem not_header_read :
    ¬∀ (s : Session MemoryHost) (block : Frame) (scope : Scope) (words : List String)
      (name : String) (schema : Schema) (depth : Nat), block.OwnsRecords scope words → name ≠ "" →
      Host.schema? s.host name = some schema →
      Opens (Canonical.string name ++ " \x7b") depth block scope name schema s →
      Opens (Canonical.typeName name ++ " \x7b") depth block scope name schema s := by
  intro h
  have hschema : Host.schema? twoTypes.host "state" = some [] := rfl
  have hquoted : Opens (Canonical.string "state" ++ " \x7b") 1 _ _ "state" [] twoTypes :=
    string_opens owns_openLayer (by decide) hschema (fun _ => by decide) 1
  have hbare := h _ _ _ _ _ _ 1 owns_openLayer (by decide) hschema hquoted
  have hw : ¬TypeNameWritable (MachineRule.words true) "state" := by
    intro hw
    have havoid := hw.first (by decide) "state".toList (by decide)
    exact absurd (havoid "state" (by decide)) (by decide)
  exact hbare.not_refused (header_refused owns_openLayer (by decide) hw 1)

end RecordRule

end MotionScript
