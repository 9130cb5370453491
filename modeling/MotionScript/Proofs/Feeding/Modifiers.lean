import MotionScript.Proofs.Feeding.Conditions
/-!
# Reading modifiers

Each part of a written statement sets the modifier it was written for, and the statement queues one
transition for each alternative.
-/

namespace MotionScript

/-! ## Texts joined by spaces -/

/-- Whether texts are written with these forms, each text as a chunk that a semicolon can follow. -/
inductive Joined : List String → List Form → Prop where
  | nil : Joined [] []
  | cons {w : String} {f : Form} {ps : List Piece} {ws : List String} {fs : List Form}
    (h : Chunk w.toList (f.joined :: ps))
    (hl : Ends (f.joined :: ps) ';') (hs : Joined ws fs) :
    Joined (w :: ws) (f :: ps.map Piece.form ++ fs)

namespace Joined

variable {ws ws' : List String} {fs fs' : List Form}

theorem append (h : Joined ws fs) (h' : Joined ws' fs') : Joined (ws ++ ws') (fs ++ fs') := by
  induction h with
  | nil => exact h'
  | cons hc hl _ ih =>
    rw [List.cons_append, List.append_assoc]
    exact .cons hc hl ih

/-- Joined texts are one chunk, with the semicolon behind them. -/
theorem chunk (h : Joined ws fs) (hne : ws ≠ []) :
    ∃ f ps, Chunk (" ".intercalate ws ++ ";").toList (f.joined :: ps) ∧ f ∈ fs.head? ∧
      f :: ps.map Piece.form = fs ++ [.symbol ';'] := by
  obtain ⟨w, ws, rfl⟩ := List.exists_cons_of_ne_nil hne
  induction ws generalizing w fs with
  | nil =>
    cases h with
    | @cons _ f ps _ _ hc hl hs =>
      cases hs
      refine ⟨f, ps ++ [(Form.symbol ';').joined], ?_, by simp, by simp⟩
      rw [String.intercalate_singleton, String.toList_append]
      exact hc.close (by decide) hl
  | cons w' ws ih =>
    cases h with
    | @cons _ f ps _ fs hc hl hs =>
      obtain ⟨f', ps', hc', -, hf'⟩ := ih w' hs (by simp)
      refine ⟨f, ps ++ f'.spaced :: ps', ?_, by simp, ?_⟩
      · have hsplit : (" ".intercalate (w :: w' :: ws) ++ ";").toList =
            w.toList ++ ' ' :: (" ".intercalate (w' :: ws) ++ ";").toList := by
          rw [String.intercalate_cons_cons]
          simp
        rw [hsplit]
        refine hc.append hc'.spaced fun p _ q hq => ?_
        obtain rfl : f'.spaced = q := by simpa using hq
        exact p.follows_spaced f'
      · simp [hf']

end Joined

/-- Whether a form starts a statement. -/
def Form.Starts : Form → Prop
  | .word text => text ∈ TransitionRule.starters
  | .symbol c => c = '+' ∨ c = '-'
  | _ => False

namespace TransitionRule

open Canonical

/-! ## Parts of a statement -/

/-- Whether written parts lead from one rule to another. -/
structure Says (ws : List String) (fs : List Form) (r q : TransitionRule) : Prop where
  joined : Joined ws fs
  starts : ∀ f ∈ fs.head?, f.Starts
  turns : Turns fs r q

namespace Says

variable {ws ws' : List String} {fs fs' : List Form} {r q q' : TransitionRule}

theorem refl (r : TransitionRule) : Says [] [] r r := ⟨.nil, by simp, .refl r⟩

theorem trans (h : Says ws fs r q) (h' : Says ws' fs' q q') :
    Says (ws ++ ws') (fs ++ fs') r q' := by
  refine ⟨h.joined.append h'.joined, fun f hf => ?_, h.turns.trans h'.turns⟩
  rw [List.head?_append] at hf
  cases hfs : fs.head? with
  | some g =>
    rw [hfs] at hf
    obtain rfl : g = f := by simpa using hf
    exact h.starts g hfs
  | none =>
    rw [hfs] at hf
    exact h'.starts f hf

theorem one {w : String} (f : Form) (ps : List Piece) (h : Chunk w.toList (f.joined :: ps))
    (hl : Ends (f.joined :: ps) ';') (hf : f.Starts)
    (ht : Turns (f :: ps.map Piece.form) r q) : Says [w] (f :: ps.map Piece.form) r q := by
  refine ⟨?_, by simpa using hf, ht⟩
  simpa using Joined.cons h hl .nil

end Says

/-- A word that is written if a condition holds. -/
theorem says_wordIf {b : Bool} {w : String} {r q : TransitionRule} (hw : w ∈ starters)
    (hv : isBare w.toList = true) (hx : r.expect = .modifier none) (hf : b = false → q = r)
    (hl : ∀ e start, e.Is (.word w) → b = true →
      (r.startedAt start).wordModifier e = .ok ⟨q.startedAt start, false⟩) :
    ∃ fs, Says (wordIf b w) fs r q := by
  cases b with
  | false => exact ⟨[], hf rfl ▸ .refl _⟩
  | true =>
    refine ⟨_, .one (.word w) [] ⟨by simp, by simpa using hv⟩ (by simp) hw ?_⟩
    apply Turns.look
    intro e start he
    refine ⟨by simp [ends, he.word_isSymbol], ?_⟩
    rw [← hl e start he rfl]
    simp only [look, startedAt, hx, modifier, he.word_kind]

/-- The rule once a modifier has been set. -/
theorem modified_eq {r : TransitionRule} (hx : r.expect = .modifier none)
    {f : Transition → Transition} (h : f r.modifiers = r.modifiers) : r.modified f = r := by
  rw [modified, h, ← hx]

variable {r : TransitionRule}

theorem says_muted (hx : r.expect = .modifier none) (h : r.modifiers.muted = false) (b : Bool) :
    ∃ fs, Says (wordIf b "muted") fs r (r.modified ({ · with muted := b })) := by
  refine says_wordIf (by decide) (by decide) hx (fun hb => ?_) fun e start he hb => ?_
  · exact modified_eq hx (by rw [hb, ← h])
  · simp +decide [hb, wordModifier, he.word_isKeyword, modified, startedAt]

theorem says_solo (hx : r.expect = .modifier none) (h : r.modifiers.solo = false) (b : Bool) :
    ∃ fs, Says (wordIf b "solo") fs r (r.modified ({ · with solo := b })) := by
  refine says_wordIf (by decide) (by decide) hx (fun hb => ?_) fun e start he hb => ?_
  · exact modified_eq hx (by rw [hb, ← h])
  · simp +decide [hb, wordModifier, he.word_isKeyword, modified, startedAt]

theorem says_noSelf (hx : r.expect = .modifier none) (h : r.modifiers.toSelf = true) (b : Bool) :
    ∃ fs, Says (wordIf (!b) "noSelf") fs r (r.modified ({ · with toSelf := b })) := by
  refine says_wordIf (by decide) (by decide) hx (fun hb => ?_) fun e start he hb => ?_
  · have hb : b = true := by simpa using hb
    exact modified_eq hx (by rw [hb, ← h])
  · have hb : b = false := by simpa using hb
    simp +decide [hb, wordModifier, he.word_isKeyword, modified, startedAt]

theorem says_any (hx : r.expect = .modifier none) (h : r.any = false) (b : Bool) :
    ∃ fs, Says (wordIf b "any") fs r { r with any := b } := by
  refine says_wordIf (by decide) (by decide) hx (fun hb => ?_) fun e start he hb => ?_
  · rw [hb, ← h]
  · simp +decide [hb, wordModifier, he.word_isKeyword, startedAt]

/-- A word and an opening bracket behind it. -/
theorem turns_word {w : String} {x : TransitionExpect} (hx : r.expect = .modifier none)
    (h : ∀ e start, e.Is (.word w) →
      (r.startedAt start).wordModifier e = .ok ⟨(r.expecting x).startedAt start, false⟩) :
    Turns [.word w] r (r.expecting x) := by
  apply Turns.look
  intro e start he
  refine ⟨by simp [ends, he.word_isSymbol], ?_⟩
  rw [← h e start he]
  simp only [look, startedAt, hx, modifier, he.word_kind]

theorem says_wait {time : Option Single} (hx : r.expect = .modifier none)
    (h : r.modifiers.exitTime = none) (ht : ∀ x ∈ time, x.isFinite = true) :
    ∃ fs, Says (time.map fun time => s!"wait({time})").toList fs r
      (r.modified ({ · with exitTime := time })) := by
  cases time with
  | none => exact ⟨[], (modified_eq hx (f := ({ · with exitTime := none })) (by rw [← h])) ▸ .refl _⟩
  | some x =>
    have hfin : x.isFinite = true := ht x rfl
    have hv := Form.valid_single hfin
    refine ⟨_, .one (.word "wait")
      [(Form.symbol '(').joined, (Form.float x).joined, (Form.symbol ')').joined]
      ⟨by simp, by simp +decide [hv]⟩ (by simp) (by decide : "wait" ∈ starters) ?_⟩
    have hword : Turns [.word "wait"] r (r.expecting .waitOpen) := by
      refine turns_word hx fun e start he => ?_
      simp +decide [wordModifier, he.word_isKeyword, expecting, startedAt]
    have hopen : Turns [.symbol '('] (r.expecting .waitOpen) (r.expecting .waitValue) := by
      apply Turns.look
      intro e start he
      simp [ends, look, startedAt, expecting, he.symbol_isSymbol]
    have hvalue : Turns [.float x] (r.expecting .waitValue)
        ((r.modified ({ · with exitTime := some x })).expecting .waitClose) := by
      apply Turns.look
      intro e start he
      simp [ends, look, startedAt, expecting, he.float_number hfin]
      rfl
    have hclose : Turns [.symbol ')']
        ((r.modified ({ · with exitTime := some x })).expecting .waitClose)
        (r.modified ({ · with exitTime := some x })) := by
      apply Turns.look
      intro e start he
      simp [ends, look, startedAt, expecting, he.symbol_isSymbol, modified]
    exact hword.trans (hopen.trans (hvalue.trans hclose))

theorem says_if {css : List (List Condition)} (hx : r.expect = .modifier none)
    (hg : r.groups = []) (hb : r.bracket = false) (hne : css ≠ [])
    (h : ∀ cs ∈ css, cs ≠ [] ∧ ∀ c ∈ cs, c.threshold.isFinite = true) :
    ∃ fs, Says ["if(" ++ " || ".intercalate
        (css.map fun cs => " && ".intercalate (cs.map condition)) ++ ")"] fs r
      { r with groups := css.map fun cs => cs.map Condition.readBack } := by
  obtain ⟨cs, css, rfl⟩ := List.exists_cons_of_ne_nil hne
  have hopen : Chunk "if(".toList [(Form.word "if").joined, (Form.symbol '(').joined] :=
    ⟨by simp, by simp +decide⟩
  have hhead : ∃ f ps, alternativePieces (cs :: css) = Form.joined f :: ps ∧
      (Form.symbol '(').Joins f := by
    obtain ⟨c, cs, rfl⟩ := List.exists_cons_of_ne_nil (h cs List.mem_cons_self).1
    rw [alternativePieces, conjunctionPieces]
    unfold conditionPieces
    cases c.mode <;> exact ⟨_, _, rfl, by simp⟩
  obtain ⟨f, ps, hps, hf⟩ := hhead
  have hchunk : Chunk ("if(" ++ " || ".intercalate ((cs :: css).map fun cs =>
      " && ".intercalate (cs.map condition)) ++ ")").toList
        ((Form.word "if").joined :: ((Form.symbol '(').joined :: (alternativePieces (cs :: css) ++
          [(Form.symbol ')').joined]))) := by
    rw [String.toList_append, String.toList_append]
    refine Chunk.close (hopen.append (chunk_alternatives hne h) fun p hp q hq => ?_) (by decide)
      (.append (by simp) (ends_alternatives (by decide) _))
    rw [hps] at hq
    obtain rfl : f.joined = q := by simpa using hq
    obtain rfl : (Form.symbol '(').joined = p := by simpa using hp
    simpa using hf
  refine ⟨_, .one _ _ hchunk ?_ (by decide : "if" ∈ starters) ?_⟩
  · rw [← List.cons_append, ← List.cons_append, Ends.append_singleton_iff]
    simp
  · have hword : Turns [.word "if"] r (r.openGroup.expecting (.condition true)) := by
      apply Turns.look
      intro e start he
      simp +decide [ends, look, hx, modifier, startedAt, he.word_isSymbol, he.word_kind,
        wordModifier, he.word_isKeyword, expecting, openGroup]
    have hbracket : Turns [.symbol '('] (r.openGroup.expecting (.condition true))
        ({ r with groups := [[]], bracket := true }.expecting (.condition false)) := by
      apply Turns.look
      intro e start he
      simp [ends, look, startedAt, expecting, he.symbol_isSymbol, openGroup, hb, hg]
    have hone : ({ r with groups := [[]], bracket := true } : TransitionRule).groups =
        [] ++ [[]] := rfl
    have halternatives := turns_alternatives Piece.form_joined false hone rfl h
    have hend : { r with groups := [[]], bracket := true }.alternatives [] (cs :: css) =
        { r with groups := (cs :: css).map fun cs => cs.map Condition.readBack } := by
      rw [alternatives, ← hx, ← hb]
      rfl
    rw [hend] at halternatives
    simpa [alternativePieces] using hword.trans (hbracket.trans halternatives)

theorem says_fade (duration : Single) (fixed : Bool) (hx : r.expect = .modifier none)
    (hd : r.modifiers.duration = .zero) (hf : r.modifiers.fixedDuration = false)
    (h : duration.isFinite = true) :
    ∃ fs, Says (wordIf (duration != .zero || fixed)
        ("fade(" ++ toString duration ++ (if fixed then "s)" else ")"))) fs r
      (r.modified fun t => { t with
        duration := if duration != .zero || fixed then duration else .zero
        fixedDuration := fixed }) := by
  have hv := Form.valid_single h
  cases hw : duration != .zero || fixed with
  | false =>
    have hfixed : fixed = false := (Bool.or_eq_false_iff.1 hw).2
    refine ⟨[], (modified_eq hx (f := fun t => { t with
      duration := if false then duration else .zero, fixedDuration := fixed }) ?_) ▸ .refl _⟩
    simp only [Bool.false_eq_true, if_false]
    rw [hfixed, ← hf, ← hd]
  | true =>
    have hword : Turns [.word "fade"] r (r.expecting .fadeOpen) := by
      refine turns_word hx fun e start he => ?_
      simp +decide [wordModifier, he.word_isKeyword, expecting, startedAt]
    have hopen : Turns [.symbol '('] (r.expecting .fadeOpen) (r.expecting .fadeValue) := by
      apply Turns.look
      intro e start he
      simp [ends, look, startedAt, expecting, he.symbol_isSymbol]
    have hvalue : Turns [.float duration] (r.expecting .fadeValue)
        ((r.modified ({ · with duration })).expecting (.fadeUnit true)) := by
      apply Turns.look
      intro e start he
      simp [ends, look, startedAt, expecting, he.float_number h]
      rfl
    cases fixed with
    | true =>
      have hunit : Turns [.word "s"] ((r.modified ({ · with duration })).expecting (.fadeUnit true))
          ((r.modified ({ · with duration, fixedDuration := true })).expecting .fadeClose) := by
        apply Turns.look
        intro e start he
        simp +decide [ends, look, startedAt, expecting, he.word_isKeyword, modified]
      have hclose : Turns [.symbol ')']
          ((r.modified ({ · with duration, fixedDuration := true })).expecting .fadeClose)
          (r.modified ({ · with duration, fixedDuration := true })) := by
        apply Turns.look
        intro e start he
        simp [ends, look, startedAt, expecting, he.symbol_isSymbol, modified]
      refine ⟨_, .one (.word "fade") [(Form.symbol '(').joined, (Form.float duration).joined,
        (Form.word "s").joined, (Form.symbol ')').joined] ⟨by simp, by simp +decide [hv]⟩ (by simp)
        (by decide : "fade" ∈ starters) ?_⟩
      exact hword.trans (hopen.trans (hvalue.trans (hunit.trans hclose)))
    | false =>
      have hclose : Turns [.symbol ')']
          ((r.modified ({ · with duration })).expecting (.fadeUnit true))
          (r.modified ({ · with duration, fixedDuration := false })) := by
        refine ⟨fun hs => Goes.lookTwice ((r.modified ({ · with duration })).expecting .fadeClose)
          (fun e start he => ?_) (fun e start he => ?_) hs⟩
        · simp [ends, look, startedAt, expecting, he.symbol_isKeyword]
        · simp [ends, look, startedAt, expecting, he.symbol_isSymbol, modified, ← hf]
      refine ⟨_, .one (.word "fade") [(Form.symbol '(').joined, (Form.float duration).joined,
        (Form.symbol ')').joined] ⟨by simp, by simp +decide [hv]⟩ (by simp)
        (by decide : "fade" ∈ starters) ?_⟩
      exact hword.trans (hopen.trans (hvalue.trans hclose))

/-- A written offset: both zeros are left out. -/
def offsetBack (x : Single) : Single := if x.isZero then .zero else x

theorem says_offset {x : Single} (hx : r.expect = .modifier none)
    (h : r.modifiers.offset = .zero) (hf : x.isFinite = true) :
    ∃ fs, Says (offset? x).toList fs r (r.modified ({ · with offset := offsetBack x })) := by
  have hnan : x.isNaN = false := by
    simp only [Binary.isFinite, Binary.isNaN, decide_eq_true_eq, decide_eq_false_iff_not] at hf ⊢
    omega
  -- The sign that is written, and the number behind it.
  have hsigned (c : Char) (y : Single) (hc : c = '+' ∧ y = x ∨ c = '-' ∧ y = -x)
      (hb : offsetBack x = x) (ht : offset? x = some (c.toString ++ " " ++ toString y)) :
      ∃ fs, Says (offset? x).toList fs r (r.modified ({ · with offset := offsetBack x })) := by
    have hy : y.isFinite = true := by rcases hc with ⟨-, rfl⟩ | ⟨-, rfl⟩ <;> exact hf
    have hv := Form.valid_single hy
    have hsign : Turns [.symbol c] r (r.expecting (.offset (c == '-'))) := by
      apply Turns.look
      intro e start he
      rcases hc with ⟨rfl, -⟩ | ⟨rfl, -⟩
      all_goals
        simp [ends, look, hx, modifier, startedAt, he.symbol_isSymbol, he.symbol_kind,
          symbolModifier, expecting]
    have hvalue : Turns [.float y] (r.expecting (.offset (c == '-')))
        (r.modified ({ · with offset := offsetBack x })) := by
      apply Turns.look
      intro e start he
      have hs : signed (c == '-') y = x := by
        rcases hc with ⟨rfl, rfl⟩ | ⟨rfl, rfl⟩
        · rfl
        · show Binary.neg (Binary.neg x) = x
          simp [Binary.neg]
      simp [ends, look, startedAt, expecting, he.number_isSymbol, he.float_number hy, modified, hb,
        bind, Except.bind, hs]
    rw [ht]
    refine ⟨_, .one (.symbol c) [(Form.float y).spaced] ⟨?_, ?_⟩ (by simp) ?_ (hsign.trans hvalue)⟩
    · simp [Char.toString]
    · rcases hc with ⟨rfl, -⟩ | ⟨rfl, -⟩ <;> simp +decide [hv]
    · exact hc.imp And.left And.left
  cases hz : x.isZero with
  | true =>
    have hnone : offset? x = none := by
      simp [offset?, Binary.isNegative, Binary.isPositive, hz]
    rw [hnone]
    refine ⟨[], (modified_eq hx (f := ({ · with offset := offsetBack x })) ?_) ▸ .refl _⟩
    rw [offsetBack, hz, if_pos rfl, ← h]
  | false =>
    have hb : offsetBack x = x := by rw [offsetBack, hz, if_neg Bool.false_ne_true]
    cases hn : x.negative with
    | true =>
      refine hsigned '-' (-x) (.inr ⟨rfl, rfl⟩) hb ?_
      simp [offset?, Binary.isNegative, hz, hn, hnan, Char.toString]
    | false =>
      refine hsigned '+' x (.inl ⟨rfl, rfl⟩) hb ?_
      simp [offset?, Binary.isNegative, Binary.isPositive, hz, hn, hnan, Char.toString]

end TransitionRule

end MotionScript
