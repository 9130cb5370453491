import MotionScript.Canonical.Document
import MotionScript.Proofs.Feeding.Items
/-!
# Reading parameters

The written declaration of a parameter adds this parameter.
-/

namespace MotionScript

variable {κ : Knowledge}

/-- Whether the declaration of a parameter can be written. -/
structure Parameter.Writable (p : Parameter) : Prop where
  name : p.name ≠ ""
  value : match p.value with
    | .float x => x.isFinite = true
    | .int n => -2 ^ 31 ≤ n ∧ n < 2 ^ 31
    | _ => True

/-- An outline with a further parameter. -/
def Outline.addParameter (o : Outline) (p : Parameter) : Outline :=
  { o with controller := { o.controller with parameters := o.controller.parameters ++ [p] } }

namespace ParameterRule

variable {o : Outline} {p : Parameter}

theorem outline_declare {η : Type} [Host η] {s : Session η} {d : Declaration} (hp : d.parameter = p)
    (hn : p.name ≠ "") (hnew : ∀ q ∈ s.outline.controller.parameters, q.name ≠ p.name) :
    (declare s d).outline = s.outline.addParameter p := by
  have hnone : s.controller.parameter? p.name = none := by
    rw [Controller.parameter?, List.find?_eq_none]
    exact fun q hq => by simpa using hnew q hq
  subst hp
  rw [declare, if_neg hn, Controller.addParameter?, hnone]
  rfl

/-- The end of a declaration. -/
theorem leads_stop {r : Declaration → ParameterRule} {d : Declaration} (hr : r = operator ∨ r = stop)
    (hp : d.parameter = p) (hn : p.name ≠ "") (hnew : ∀ q ∈ o.controller.parameters, q.name ≠ p.name)
    (below : Frame) (rest : List Frame) :
    Leads κ [(Form.symbol ';').joined] (.parameter (r d) :: below :: rest) o (below :: rest)
      (o.addParameter p) {} := by
  refine Leads.detach (.parameter (r d)) (by simp) fun e s he ho => ?_
  subst ho
  refine ⟨declare s d, ?_, outline_declare hp hn hnew, rfl⟩
  have he := he.is
  rcases hr with rfl | rfl
  all_goals
    simp [Frame.react, Frame.lift, react, he.symbol_isSymbol]
    rfl

/-- A literal that fits, and the end of the declaration. -/
theorem leads_value {v : Form} {d : Declaration} {value : ParameterValue}
    (hp : { d.parameter with value } = p) (hn : p.name ≠ "")
    (hv : ∀ e, e.Is v → literal? d.parameter.value.kind e = some value)
    (hnew : ∀ q ∈ o.controller.parameters, q.name ≠ p.name) (below : Frame) (rest : List Frame) :
    Leads κ [(Form.symbol '=').spaced, v.spaced, (Form.symbol ';').joined]
      (.parameter (operator d) :: below :: rest) o (below :: rest) (o.addParameter p) {} := by
  refine Leads.read (.parameter (.value d)) (by simp) (fun e s he => ?_) ?_
  · have he := he.is
    simp [Frame.react, Frame.lift, react, he.symbol_isSymbol]
    rfl
  refine Leads.read (.parameter (.stop { d with parameter := p })) (by simp)
    (fun e s he => ?_) ?_
  · rw [Frame.react, react, assign, hv e he.is, Option.getD_some, hp]
    rfl
  exact leads_stop (.inr rfl) rfl hn hnew below rest

theorem leads_head {k : ParameterKind} {name : String} {ps : List Piece} {o' : Outline} {t : Told}
    {rest : List Frame}
    (h : ∀ d : Declaration, d.parameter = ⟨name, .zero k⟩ →
      Leads κ ps (.parameter (operator d) :: .document :: rest) o (.document :: rest) o' t) :
    Leads κ ((Form.word (Keyword.spelling k)).joined :: (Form.name name).spaced :: ps)
      (.document :: rest) o (.document :: rest) o' t := by
  have hread (e : Event) (he : e.Is (.word (Keyword.spelling k))) :
      e.kind = .identifier ∧ e.isKeyword "layer" = false ∧
        (Keyword.read? e.text : Option ParameterKind) = some k := by
    refine ⟨he.word_kind, ?_, ?_⟩
    · rw [he.word_isKeyword]
      cases k <;> decide
    · rw [he.word_text]
      cases k <;> decide
  refine Leads.forward (f := .parameter .kind) .document (.parameter (.name k)) (by simp) (by simp)
    (fun e s he => ?_) (fun s => rfl) (fun e s he ho => ⟨s, ?_, ho⟩) ?_
  · obtain ⟨h1, h2, h3⟩ := hread e he.is
    simp [Frame.react, Frame.reactDocument, h1, h2, h3]
  · obtain ⟨-, -, h3⟩ := hread e he.is
    simp [Frame.react, Frame.lift, react, h3]
    rfl
  rw [← t.nil_append]
  apply Leads.cons
  intro η _ e s he _ ho
  have he := he.is
  refine ⟨_, s, _, .stay ?_, ho, rfl,
    h ⟨⟨name, .zero k⟩, e.span, e.position⟩ rfl⟩
  simp [Frame.react, Frame.lift, react, he.name_isSymbol, he.name_name]
  rfl

/-- A declaration with a literal. -/
theorem leads_literal {k : ParameterKind} {name : String} {value : ParameterValue} {v : Form}
    (hk : value.kind = k) (hn : name ≠ "") (hv : ∀ e, e.Is v → literal? k e = some value)
    (hnew : ∀ q ∈ o.controller.parameters, q.name ≠ name) (rest : List Frame) :
    Leads κ [(Form.word (Keyword.spelling k)).joined, (Form.name name).spaced,
        (Form.symbol '=').spaced, v.spaced, (Form.symbol ';').joined]
      (.document :: rest) o (.document :: rest) (o.addParameter ⟨name, value⟩) {} := by
  refine leads_head fun d hd => ?_
  have hkind : d.parameter.value.kind = k := by
    rw [hd]
    cases k <;> rfl
  refine leads_value (p := ⟨name, value⟩) (by rw [hd]) hn (fun e he => ?_) hnew .document rest
  rw [hkind]
  exact hv e he

end ParameterRule

theorem ParameterKind.isBare_spelling (k : ParameterKind) :
    Canonical.isBare (Keyword.spelling k).toList = true := by
  cases k <;> decide

open ParameterRule in
/-- A declaration that is written with a literal. -/
theorem Keeps.literal {o : Outline} {name : String} {value : ParameterValue} (hn : name ≠ "")
    (hnew : ∀ q ∈ o.controller.parameters, q.name ≠ name) (v : Form) (text : String)
    (htext : Canonical.parameter ⟨name, value⟩ =
      Keyword.spelling value.kind ++ " " ++ Canonical.name name ++ " = " ++ text ++ ";")
    (hvalid : v.Valid) (hchars : v.chars = text.toList) (hends : v.Joins (.symbol ';'))
    (hv : ∀ e, e.Is v → literal? value.kind e = some value) :
    Keeps κ [.text 0 (Canonical.parameter ⟨name, value⟩)] (· = .document) o
      (o.addParameter ⟨name, value⟩) {} := by
  have hchunk : Chunk (Canonical.parameter ⟨name, value⟩).toList
      ((Form.word (Keyword.spelling value.kind)).joined :: [(Form.name name).spaced,
        (Form.symbol '=').spaced, v.spaced, (Form.symbol ';').joined]) := by
    refine ⟨?_, ?_⟩
    · rw [htext]
      simp [hchars]
    · simp +decide [value.kind.isBare_spelling, hvalid, hends]
  refine ⟨_, hchunk.line 0, fun f rest hf => ?_⟩
  subst hf
  exact leads_literal rfl hn hv hnew rest

open ParameterRule in
/-- The declaration of a parameter with a new name. -/
theorem Keeps.parameter {o : Outline} {p : Parameter} (hp : p.Writable)
    (hnew : ∀ q ∈ o.controller.parameters, q.name ≠ p.name) :
    Keeps κ [.text 0 (Canonical.parameter p)] (· = .document) o (o.addParameter p) {} := by
  obtain ⟨name, value⟩ := p
  obtain ⟨hn, hvalue⟩ := hp
  cases value with
  | float x =>
    refine .literal hn hnew (.float x) (toString x) (by simp [Canonical.parameter])
      (Form.valid_single hvalue) (by simp) (by simp) fun e he => ?_
    have hs : e.single? = some x := he.float_numeral? (by decide) hvalue
    rw [ParameterValue.kind, literal?.eq_def]
    simp only [hs, Option.map_some]
  | int n =>
    refine .literal hn hnew (.int n) (toString n) (by simp [Canonical.parameter]) (by simp)
      (by simp) (by simp) fun e he => ?_
    have hi := he.int_integer? (by have := hvalue.1; omega) (by have := hvalue.2; omega)
    rw [ParameterValue.kind, literal?.eq_def]
    simp only [hi, Option.bind_some]
    exact if_pos hvalue
  | bool b =>
    cases b with
    | true =>
      refine .literal hn hnew (.word "true") (toString true) (by simp [Canonical.parameter])
        (by simp +decide) rfl (by simp) fun e he => ?_
      simp +decide [literal?, ParameterValue.kind, he.word_isKeyword]
    | false =>
      refine .literal hn hnew (.word "false") (toString false) (by simp [Canonical.parameter])
        (by simp +decide) rfl (by simp) fun e he => ?_
      simp +decide [literal?, ParameterValue.kind, he.word_isKeyword]
  | trigger b =>
    cases b with
    | true =>
      refine .literal hn hnew (.word "true") "true" ?_ (by simp +decide) (by simp) (by simp)
        fun e he => ?_
      · rw [← String.toList_inj]
        simp [Canonical.parameter]
      simp +decide [literal?, ParameterValue.kind, he.word_isKeyword]
    | false =>
      -- A trigger that is off has no literal.
      have hchunk : Chunk (Canonical.parameter ⟨name, .trigger false⟩).toList
          ((Form.word (Keyword.spelling ParameterKind.trigger)).joined ::
            [(Form.name name).spaced, (Form.symbol ';').joined]) := by
        refine ⟨?_, ?_⟩
        · simp [Canonical.parameter, ParameterValue.kind]
        · simp +decide
      refine ⟨_, hchunk.line 0, fun f rest hf => ?_⟩
      subst hf
      exact leads_head fun d hd => leads_stop (.inl rfl) hd hn hnew .document rest

/-- The declarations of parameters with different names, in order. -/
theorem Keeps.parameters {o : Outline} {ps : List Parameter} (hp : ∀ p ∈ ps, p.Writable)
    (hn : ((o.controller.parameters ++ ps).map (·.name)).Nodup) :
    Keeps κ (ps.map fun p => .text 0 (Canonical.parameter p)) (· = .document) o
      { o with controller := { o.controller with parameters := o.controller.parameters ++ ps } }
      {} := by
  induction ps generalizing o with
  | nil => simpa using Keeps.nil _ o
  | cons p ps ih =>
    rw [List.forall_mem_cons] at hp
    have hnew : ∀ q ∈ o.controller.parameters, q.name ≠ p.name := by
      rw [List.map_append, List.nodup_append] at hn
      exact fun q hq => hn.2.2 _ (List.mem_map_of_mem hq) _ (by simp)
    have hrest := ih (o := o.addParameter p) hp.2 (by simpa [Outline.addParameter] using hn)
    have := (Keeps.parameter hp.1 hnew).append hrest
    simpa [Outline.addParameter] using this

end MotionScript
