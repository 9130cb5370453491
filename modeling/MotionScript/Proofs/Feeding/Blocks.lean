import MotionScript.Grammar.Document
import MotionScript.Proofs.Feeding.Modifiers
/-!
# Reading blocks

What the rules of machines and states make of the first token of an item. The items of a block are
read one after another and leave its rule as it is.
-/

namespace MotionScript

open TransitionRule (starters)

/-- Whether a text is none of some words, ignoring case. -/
def Avoids (text : String) (words : List String) : Prop :=
  ∀ w ∈ words, Text.equalsIgnoringCase text w = false

theorem equalsIgnoringCase_comm (s t : String) :
    Text.equalsIgnoringCase s t = Text.equalsIgnoringCase t s := by
  rw [Text.equalsIgnoringCase, Text.equalsIgnoringCase]
  exact BEq.comm

theorem letter_of_toLower {c d : Char} (h : c.toLower = d) (hd : d ∈ "overidat".toList) :
    Text.isIdentifierChar c = true ∧ c.isDigit = false := by
  unfold Char.toLower at h
  split at h
  · rename_i hu
    have hupper : 65 ≤ c.toNat ∧ c.toNat ≤ 90 := hu
    constructor
    · have halpha : c.isAlphanum = true := by
        have hletter : c.isUpper = true := decide_eq_true hu
        show (c.isUpper || c.isLower || c.isDigit) = true
        rw [hletter, Bool.true_or, Bool.true_or]
      have hascii : c.toNat < 0x80 := by omega
      rw [Text.isIdentifierChar, Text.isAlphanumeric, if_pos hascii, halpha, Bool.or_true]
    · rw [Char.isDigit, Bool.and_eq_false_iff]
      right
      have : ¬c.toNat ≤ 57 := by omega
      exact decide_eq_false this
  · subst h
    have hall : ("overidat".toList.all fun d => Text.isIdentifierChar d && !d.isDigit) = true := by
      decide
    simpa using List.all_eq_true.1 hall c hd

/-- The words for blending modes are bare, however their letters are written. -/
theorem blending_eq_none {text : String} (h : Canonical.isBare text.toList = false) :
    (Keyword.read? text : Option Blending) = none := by
  have hword (w : String)
      (hw : (w.toList.map Char.toLower).all ("overidat".toList.contains ·) = true)
      (hne : w.toList ≠ []) : Text.equalsIgnoringCase w text = false := by
    by_contra heq
    have hmap : w.toList.map Char.toLower = text.toList.map Char.toLower := by
      simpa [Text.equalsIgnoringCase] using heq
    rw [hmap] at hw
    have hall : ∀ c ∈ text.toList, Text.isIdentifierChar c = true ∧ c.isDigit = false :=
      fun c hc => letter_of_toLower rfl
        (by simpa using List.all_eq_true.1 hw _ (List.mem_map_of_mem hc))
    cases ht : text.toList with
    | nil => rw [ht] at hmap; exact hne (List.map_eq_nil_iff.1 hmap)
    | cons c cs =>
      rw [ht] at h hall
      rw [List.forall_mem_cons] at hall
      have : Canonical.isBare (c :: cs) = true := by
        simp only [Canonical.isBare, hall.1.1, hall.1.2, Bool.not_false, Bool.and_self, Bool.true_and,
          List.all_eq_true]
        exact fun d hd => (hall.2 d hd).1
      rw [h] at this
      cases this
  have h1 := hword "override" (by decide) (by decide)
  have h2 := hword "additive" (by decide) (by decide)
  simp [Keyword.read?, Keyword.all, Keyword.spelling, h1, h2]

/-- Whether a rule is at an item of a block: it takes the start of a statement for one, and the start
of a type name for a record, unless the name is one of `words`. -/
structure Frame.Block (scope : Scope) (words : List String) (f : Frame) : Prop where
  quiet : f.Quiet
  context : f.context = some scope
  statement : ∀ form : Form, form.Starts → ∀ {η : Type} [Host η] (e : Event) (s : Session η),
    e.Is form → f.react e s = .ok (f, s, some (.attach (.transition {}) true))
  word : ∀ text, Avoids text (words ++ starters) → ∀ {η : Type} [Host η] (e : Event) (s : Session η),
    e.Is (.word text) → f.react e s = .ok (f, s, some (.attach (.record (.typeName none none "")) true))
  string : ∀ text, Canonical.isBare text.toList = false →
    ∀ {η : Type} [Host η] (e : Event) (s : Session η), e.Is (.string text) →
      f.react e s = .ok (f, s, some (.attach (.record (.typeName none none "")) true))

/-- Words that start the options of a layer. -/
def MachineRule.optionWords : List String :=
  ["weight", "mask", "sync", "override", "additive", "ikPass", "syncTiming"]

/-- Words that start other items of a machine; `layer` if it is the machine of a layer. -/
def MachineRule.words (layer : Bool) : List String :=
  ["default", "state", "stateMachine"] ++ if layer then optionWords else []

/-- Words that start other items of a state. -/
def StateRule.words : List String :=
  ["speed", "cycleOffset", "time", "mirror", "tag", "ikOnFeet", "writeDefaults", "empty", "clip",
    "blendtree"]

theorem starts_of_starters {e : Event} {text : String} (he : e.Is (.word text)) :
    TransitionRule.starts e = starters.any (Text.equalsIgnoringCase text ·) := by
  simp only [TransitionRule.starts, he.word_kind, he.word_isKeyword]

theorem starts_eq_false_iff {e : Event} {text : String} (he : e.Is (.word text)) :
    TransitionRule.starts e = false ↔ Avoids text starters := by
  rw [starts_of_starters he, List.any_eq_false]
  simp only [Avoids, Bool.not_eq_true]

theorem starts_string {e : Event} {text : String} (he : e.Is (.string text)) :
    TransitionRule.starts e = false := by
  have := he.string_isString
  unfold TransitionRule.starts
  split <;> simp_all [TokenKind.isString]

namespace MachineRule

variable {η : Type}

theorem layerOption?_word {m : OpenMachine} {e : Event} {text : String} (s : Session η)
    (he : e.Is (.word text)) (h : Avoids text (if m.parent.isNone then optionWords else [])) :
    layerOption? m e s = none := by
  unfold layerOption?
  cases hp : m.parent with
  | some parent => rfl
  | none =>
    rw [hp] at h
    simp only [Avoids, optionWords, Option.isNone_none, if_true, List.forall_mem_cons] at h
    have hread : (Keyword.read? text : Option Blending) = none := by
      simp [Keyword.read?, Keyword.all, Keyword.spelling, equalsIgnoringCase_comm _ text, h]
    simp [he.word_isKeyword, h, he.word_text, hread]

theorem reactItem_word {m : OpenMachine} {e : Event} {text : String} (s : Session η)
    (he : e.Is (.word text)) (h : Avoids text (words m.parent.isNone)) :
    reactItem m e s = .ok (named m .item, s, some (if TransitionRule.starts e then
      .attach (.transition {}) true else .attach (.record (.typeName none none "")) true)) := by
  have hname : e.kind.isName = true := by rw [he.word_kind]; rfl
  have hoption := layerOption?_word (m := m) s he fun w hw => h w (List.mem_append_right _ hw)
  simp only [Avoids, words, List.forall_mem_append, List.forall_mem_cons] at h
  simp [reactItem, he.word_isSymbol, he.word_isKeyword, hoption, h, hname]
  split <;> rfl

theorem reactItem_string {m : OpenMachine} {e : Event} {text : String} (s : Session η)
    (he : e.Is (.string text))
    (h : m.parent = none → (Keyword.read? text : Option Blending) = none) :
    reactItem m e s =
      .ok (named m .item, s, some (.attach (.record (.typeName none none "")) true)) := by
  have hoption : layerOption? m e s = none := by
    cases hp : m.parent with
    | some parent => simp [layerOption?, hp]
    | none => simp [layerOption?, hp, he.string_isKeyword, he.string_text, h hp]
  simp [reactItem, he.string_isSymbol, he.string_isKeyword, hoption, starts_string he,
    he.string_isName]

/-- A sign starts a statement. -/
theorem reactItem_sign {m : OpenMachine} {e : Event} {c : Char} (s : Session η)
    (he : e.Is (.symbol c)) (hc : c = '+' ∨ c = '-') :
    reactItem m e s = .ok (named m .item, s, some (.attach (.transition {}) true)) := by
  have hread : (Keyword.read? e.text : Option Blending) = none := by
    rw [he.symbol_text]
    rcases hc with rfl | rfl <;> decide
  have hoption : layerOption? m e s = none := by
    simp [layerOption?, he.symbol_isKeyword, hread]
  have hstarts : TransitionRule.starts e = true := by
    simp only [TransitionRule.starts, he.symbol_kind, he.symbol_isSymbol]
    rcases hc with rfl | rfl <;> rfl
  rcases hc with rfl | rfl
  all_goals
    simp [reactItem, he.symbol_isSymbol, he.symbol_isKeyword, hoption, hstarts]

theorem block (m : OpenMachine) :
    (Frame.machine (named m .item)).Block m.scope (words m.parent.isNone) := by
  refine ⟨Frame.quiet_machine _ _, rfl, ?_, ?_, ?_⟩
  · intro form hf η _ e s he
    cases form with
    | word text =>
      have hstart : text ∈ starters := hf
      have hall : ∀ text ∈ starters, Avoids text (words true) ∧
          starters.any (Text.equalsIgnoringCase text ·) = true := by
        simp only [Avoids]
        decide
      have hsub : ∀ layer, ∀ w ∈ words layer, w ∈ words true := by decide
      have havoid : Avoids text (words m.parent.isNone) :=
        fun w hw => (hall text hstart).1 w (hsub _ w hw)
      rw [Frame.react, react, reactItem_word s he havoid, starts_of_starters he, (hall text hstart).2]
      rfl
    | symbol c =>
      rw [Frame.react, react, reactItem_sign s he hf]
      rfl
    | string text | number text => exact hf.elim
  · intro text ht η _ e s he
    have havoid : Avoids text (words m.parent.isNone) := fun w hw => ht w (by simp [hw])
    have hstarts : TransitionRule.starts e = false :=
      (starts_eq_false_iff he).2 fun w hw => ht w (by simp [hw])
    rw [Frame.react, react, reactItem_word s he havoid, hstarts]
    rfl
  · intro text ht η _ e s he
    rw [Frame.react, react, reactItem_string s he fun _ => blending_eq_none ht]
    rfl

end MachineRule

namespace StateRule

variable {η : Type}

theorem reactItem_word {scope : Scope} {id : StateId} {e : Event} {text : String}
    (s : Session η) (he : e.Is (.word text)) (h : Avoids text words) :
    reactItem scope id e s = .ok (named scope id .item, s, some (if TransitionRule.starts e then
      .attach (.transition {}) true else .attach (.record (.typeName none none "")) true)) := by
  have hname : e.kind.isName = true := by rw [he.word_kind]; rfl
  simp only [Avoids, words, List.forall_mem_cons] at h
  simp [reactItem, he.word_isSymbol, he.word_isKeyword, h, hname]
  split <;> rfl

theorem reactItem_string {scope : Scope} {id : StateId} {e : Event} {text : String}
    (s : Session η) (he : e.Is (.string text)) :
    reactItem scope id e s =
      .ok (named scope id .item, s, some (.attach (.record (.typeName none none "")) true)) := by
  simp [reactItem, he.string_isSymbol, he.string_isKeyword, starts_string he, he.string_isName]

theorem block (scope : Scope) (id : StateId) :
    (Frame.state (named scope id .item)).Block scope words := by
  refine ⟨Frame.quiet_state _ _ _, rfl, ?_, ?_, ?_⟩
  · intro form hf η _ e s he
    cases form with
    | word text =>
      have hstart : text ∈ starters := hf
      have hall : ∀ text ∈ starters, Avoids text words ∧
          starters.any (Text.equalsIgnoringCase text ·) = true := by
        simp only [Avoids]
        decide
      rw [Frame.react, react, reactItem_word s he (hall text hstart).1, starts_of_starters he,
        (hall text hstart).2]
      rfl
    | symbol c =>
      have hstarts : TransitionRule.starts e = true := by
        simp only [TransitionRule.starts, he.symbol_kind, he.symbol_isSymbol]
        rcases hf with rfl | rfl <;> rfl
      rcases hf with rfl | rfl
      all_goals
        simp [Frame.react, Frame.lift, react, reactItem, he.symbol_isSymbol, he.symbol_isKeyword,
          hstarts]
        rfl
    | string text | number text => exact hf.elim
  · intro text ht η _ e s he
    have hstarts : TransitionRule.starts e = false :=
      (starts_eq_false_iff he).2 fun w hw => ht w (by simp [hw])
    rw [Frame.react, react, reactItem_word s he fun w hw => ht w (by simp [hw]), hstarts]
    rfl
  · intro text ht η _ e s he
    rw [Frame.react, react, reactItem_string s he]
    rfl

end StateRule

end MotionScript
