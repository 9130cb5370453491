import MotionScript.Proofs.Token.Layout
import MotionScript.Proofs.Token.Places
/-!
# Faults that stay

A fault that does not wait for more text stays where it is whatever follows, as long as what follows
cannot continue a token. So the tokens of a text are the first ones of every text that goes on with
a separator, and such a fault ends the tokens of both.
-/

namespace MotionScript.Lexer

open Text

/-- Whether more text could mend a fault. -/
def Fault.openEnded : Fault → Bool
  | unterminatedString _ | escapeAtEnd | escapeCutOff => true
  | escapeWithoutDigits | escapeOutOfRange | radixWithoutDigits | noToken => false

theorem Fault.openEnded_eq_false {fault : Fault} (hs : fault.code ≠ .unterminatedString)
    (he : fault.code ≠ .unterminatedEscape) : fault.openEnded = false := by
  cases fault with
  | unterminatedString => exact absurd rfl hs
  | escapeAtEnd | escapeCutOff => exact absurd rfl he
  | _ => rfl

/-- The same place with more text behind. -/
def Stuck.followedBy (stuck : Stuck) (z : List Char) : Stuck := ⟨stuck.fault, stuck.rest ++ z⟩

variable {z : List Char} {stuck : Stuck}

/-! ## Escapes, strings and words -/

theorem numericEscape_fault (h : Cuts z) (hf : stuck.fault.openEnded = false)
    {leading : List Char} {limit base : Nat} {a : List Char}
    (hr : numericEscape leading limit base a = .error stuck) :
    numericEscape leading limit base (a ++ z) = .error (stuck.followedBy z) := by
  have hlen : ((a.take limit).takeWhile (isDigitOf base)).length ≤ a.length :=
    (List.takeWhile_prefix _).length_le.trans (List.length_take_le' _ _)
  have hdigits : ((a ++ z).take limit).takeWhile (isDigitOf base) =
      (a.take limit).takeWhile (isDigitOf base) := by
    have hcut : ((a ++ z).take limit).takeWhile (isDigitOf base) =
        ((a ++ []).take limit).takeWhile (isDigitOf base) :=
      digits_cut h (by rwa [List.append_nil])
    rwa [List.append_nil] at hcut
  simp only [numericEscape, hdigits, List.drop_append_of_le_length hlen] at hr ⊢
  split at hr
  · rename_i hnone
    rw [if_pos hnone]
    cases hr
    split at hf
    · cases hf
    · rename_i hrest
      have hmore : ¬ (a.drop ((a.take limit).takeWhile (isDigitOf base)).length ++ z).isEmpty := by
        rw [List.isEmpty_iff, List.append_eq_nil_iff, ← List.isEmpty_iff]
        exact fun hempty => hrest hempty.1
      rw [if_neg hmore, Stuck.followedBy, if_neg hrest]
  · rename_i hsome
    rw [if_neg hsome]
    cases hscalar : scalar? (ofDigitsIn base
        (leading ++ (a.take limit).takeWhile (isDigitOf base))) with
    | some c =>
      rw [hscalar] at hr
      cases hr
    | none =>
      rw [hscalar] at hr
      cases hr
      rfl

theorem escape_fault (h : Cuts z) (hf : stuck.fault.openEnded = false) {a : List Char}
    (hr : escape a = .error stuck) : escape (a ++ z) = .error (stuck.followedBy z) := by
  cases a with
  | nil =>
    cases hr
    cases hf
  | cons c a =>
    have hite {p : Prop} [Decidable p] {x y x' y' : Reading Char}
        (hx : x = .error stuck → x' = .error (stuck.followedBy z))
        (hy : y = .error stuck → y' = .error (stuck.followedBy z))
        (hxy : (if p then x else y) = .error stuck) :
        (if p then x' else y') = .error (stuck.followedBy z) := by
      split at hxy
      · rename_i hp; rw [if_pos hp]; exact hx hxy
      · rename_i hp; rw [if_neg hp]; exact hy hxy
    have hself : (.ok (c, a) : Reading Char) = .error stuck →
        (.ok (c, a ++ z) : Reading Char) = .error (stuck.followedBy z) := nofun
    simp only [List.cons_append, escape] at hr ⊢
    split at hr
    · cases hr
    · exact hite (numericEscape_fault h hf) (hite (numericEscape_fault h hf)
        (hite (numericEscape_fault h hf) (hite (numericEscape_fault h hf)
          (hite (numericEscape_fault h hf) hself)))) hr

theorem quoted_fault (h : Cuts z) (hf : stuck.fault.openEnded = false) {quote : Char}
    {a : List Char} (hr : quoted quote a = .error stuck) :
    quoted quote (a ++ z) = .error (stuck.followedBy z) := by
  match a with
  | [] =>
    rw [quoted] at hr
    cases hr
    cases hf
  | c :: a =>
    rw [List.cons_append, quoted]
    rw [quoted] at hr
    by_cases hq : c = quote
    · rw [if_pos hq] at hr
      cases hr
    rw [if_neg hq] at hr ⊢
    by_cases hb : c = '\\'
    · rw [if_pos hb] at hr ⊢
      split at hr
      · rename_i he
        cases hr
        rw [escape_fault h hf he]
      · rename_i decoded rest he
        have hshort : rest.length < a.length := escape_length he
        have he' : escape (a ++ z) = .ok (decoded, rest ++ z) :=
          escape_cut (z := []) h (by simpa only [List.append_nil] using he)
        rw [he']
        exact Reading.cons_eq_error.2 (quoted_fault h hf (Reading.cons_eq_error.1 hr))
    · rw [if_neg hb] at hr ⊢
      exact Reading.cons_eq_error.2 (quoted_fault h hf (Reading.cons_eq_error.1 hr))
termination_by a.length
decreasing_by all_goals (simp only [List.length_cons]; omega)

theorem identifierTail_fault (h : Cuts z) (hf : stuck.fault.openEnded = false) {a : List Char}
    (hr : identifierTail a = .error stuck) :
    identifierTail (a ++ z) = .error (stuck.followedBy z) := by
  match a with
  | [] =>
    rw [identifierTail] at hr
    cases hr
  | c :: a =>
    rw [List.cons_append, identifierTail]
    rw [identifierTail] at hr
    by_cases hc : isIdentifierChar c = true
    · rw [if_pos hc] at hr ⊢
      exact Reading.cons_eq_error.2 (identifierTail_fault h hf (Reading.cons_eq_error.1 hr))
    rw [if_neg hc] at hr ⊢
    by_cases hb : c = '\\'
    · rw [if_pos hb] at hr ⊢
      split at hr
      · rename_i he
        cases hr
        rw [escape_fault h hf he]
      · rename_i decoded rest he
        have hshort : rest.length < a.length := escape_length he
        have he' : escape (a ++ z) = .ok (decoded, rest ++ z) :=
          escape_cut (z := []) h (by simpa only [List.append_nil] using he)
        rw [he']
        exact Reading.cons_eq_error.2 (identifierTail_fault h hf (Reading.cons_eq_error.1 hr))
    · rw [if_neg hb] at hr
      cases hr
termination_by a.length
decreasing_by all_goals (simp only [List.length_cons]; omega)

/-! ## Tokens -/

theorem afterNumber_fault (h : Cuts z) {c : Char} {a : List Char}
    (hs : startsNumber (c :: a) = true) (hr : afterNumber (c :: a) = .error stuck) :
    afterNumber (c :: a ++ z) = .error (stuck.followedBy z) := by
  have hne : (Decimal.takeSign (c :: a)).2 ≠ [] := by
    intro hnil
    have hu := startsNumber_takeSign hs
    rw [hnil] at hu
    cases hu
  simp only [afterNumber, takeSign_cut] at hr ⊢
  generalize (Decimal.takeSign (c :: a)).2 = u at hne hr ⊢
  rw [takeRadix_cut h hne]
  cases hradix : Numeral.takeRadix u with
  | none =>
    rw [hradix] at hr
    cases hr
  | some x =>
    obtain ⟨base, body⟩ := x
    rw [hradix] at hr
    simp only [Option.map_some, dropWhile_cut h.not_digit, List.length_append,
      Nat.add_right_cancel_iff, h.head_word] at hr ⊢
    split at hr
    · rename_i hcond
      rw [if_pos hcond]
      cases hr
      rfl
    · cases hr

/-- A token that ends with the text ends there in front of a text that cannot continue it. -/
theorem lexeme_append (h : CutsAlike [] z) {c : Char} {a : List Char} {l : Lexeme}
    (hl : lexeme .document (c :: a) = .ok l) :
    lexeme .document (c :: (a ++ z)) = .ok ⟨l.kind, l.text, l.rest ++ z⟩ :=
  lexeme_cut .document h (List.cons_ne_nil c a) (by simpa only [List.append_nil] using hl)

theorem lexeme_fault (h : Cuts z) (hf : stuck.fault.openEnded = false) {c : Char} {a : List Char}
    (hl : lexeme .document (c :: a) = .error stuck) :
    lexeme .document (c :: (a ++ z)) = .error (stuck.followedBy z) := by
  have hnumber : startsNumber (c :: (a ++ z)) = startsNumber (c :: a) := startsNumber_cut h (c :: a)
  simp only [lexeme, hnumber] at hl ⊢
  by_cases hq : c = '"'
  · rw [if_pos hq] at hl ⊢
    exact decoded_eq_error.2 (quoted_fault h hf (decoded_eq_error.1 hl))
  rw [if_neg hq] at hl ⊢
  by_cases hs : c = '\x27'
  · rw [if_pos hs] at hl ⊢
    exact decoded_eq_error.2 (quoted_fault h hf (decoded_eq_error.1 hl))
  rw [if_neg hs] at hl ⊢
  by_cases hn : startsNumber (c :: a) = true
  · rw [if_pos hn] at hl ⊢
    cases hr : afterNumber (c :: a) with
    | ok rest =>
      rw [hr] at hl
      cases hl
    | error stuck' =>
      rw [hr] at hl
      cases hl
      have hr' := afterNumber_fault h hn hr
      rw [List.cons_append] at hr'
      rw [hr']
      rfl
  rw [if_neg hn] at hl ⊢
  by_cases hsym : SymbolSet.document.contains c = true
  · rw [if_pos hsym] at hl
    cases hl
  rw [if_neg hsym] at hl ⊢
  refine decoded_eq_error.2 ?_
  have hi := decoded_eq_error.1 hl
  simp only [identifier] at hi ⊢
  by_cases hb : c = '\\'
  · rw [if_pos hb] at hi ⊢
    exact identifierTail_fault (a := c :: a) h hf hi
  · rw [if_neg hb] at hi ⊢
    exact Reading.cons_eq_error.2 (identifierTail_fault h hf (Reading.cons_eq_error.1 hi))

/-! ## Streams -/

/-- The place of a fault does not depend on what follows. -/
theorem Stuck.failure_followedBy {cs : List Char} (h : stuck.rest <:+ cs) (hne : stuck.rest ≠ cs)
    (start : Nat) (p : Position) :
    (stuck.followedBy z).failure start p (cs ++ z) = stuck.failure start p cs := by
  obtain ⟨read, rfl⟩ := h
  have hpos : 0 < byteSize read := byteSize_pos fun hread => hne (by rw [hread, List.nil_append])
  have htaken : taken (read ++ stuck.rest ++ z) (stuck.rest ++ z) =
      taken (read ++ stuck.rest) stuck.rest := taken_append _ _ _
  have hread : taken (read ++ stuck.rest) stuck.rest = read := by simp [taken]
  have hstop : min (max (start + byteSize read) (start + 1))
        (start + byteSize (read ++ stuck.rest ++ z)) =
      min (max (start + byteSize read) (start + 1)) (start + byteSize (read ++ stuck.rest)) := by
    simp only [byteSize_append]
    omega
  simp only [Stuck.failure, Stuck.followedBy, htaken, hread, hstop]

/-- The tokens of a text are the first ones of a text that goes on behind it, and a fault that more
text cannot mend ends both. -/
theorem streamFrom_append (h : CutsAlike [] z) (cs : List Char) (o : Nat) (p : Position) :
    (streamFrom .document cs o p).tokens <+: (streamFrom .document (cs ++ z) o p).tokens ∧
      ∀ f, (streamFrom .document cs o p).failure = some f →
        f.code ≠ some .unterminatedString → f.code ≠ some .unterminatedEscape →
        streamFrom .document (cs ++ z) o p = streamFrom .document cs o p := by
  rcases separators_or_token cs with hall | ⟨gap, c, body, rfl, hg, hc⟩
  · have hnone : streamFrom .document cs o p = ⟨[], none⟩ := streamFrom_gap hall o p
    rw [hnone]
    exact ⟨List.nil_prefix, nofun⟩
  rw [List.append_assoc, List.cons_append, streamFrom_gap_append hg hc,
    streamFrom_gap_append hg hc]
  simp only [streamAt]
  cases hl : lexeme .document (c :: body) with
  | error stuck =>
    refine ⟨List.nil_prefix, fun f hf hs he => ?_⟩
    obtain ⟨-, hrest⟩ := lexeme_stuck hl
    have hne : stuck.rest ≠ c :: body := fun heq => by
      have := hrest.length_le
      rw [heq, List.length_cons] at this
      omega
    have hcode : f.code = some stuck.fault.code := by cases hf; rfl
    rw [hcode] at hs he
    have hopen := Fault.openEnded_eq_false (fun hs' => hs (congrArg some hs'))
      (fun he' => he (congrArg some he'))
    rw [lexeme_fault h.after hopen hl]
    simp only [← List.cons_append,
      Stuck.failure_followedBy (hrest.trans (List.suffix_cons c body)) hne]
  | ok l =>
    have hshort : l.rest.length < (gap ++ c :: body).length := by
      have := lexeme_length hl
      rw [List.length_append]
      omega
    have hread : taken (c :: (body ++ z)) (l.rest ++ z) = taken (c :: body) l.rest :=
      taken_append (c :: body) l.rest z
    obtain ⟨htokens, hfailure⟩ := streamFrom_append h l.rest
      (o + byteSize gap + byteSize (taken (c :: body) l.rest))
      ((p.walk gap).walk (taken (c :: body) l.rest))
    rw [lexeme_append h hl]
    simp only [hread]
    refine ⟨(List.prefix_append_right_inj _).2 htokens, fun f hf hs he => ?_⟩
    rw [hfailure f hf hs he]
termination_by cs.length

theorem tokenize_append {gap : String} (hne : gap ≠ "")
    (hgap : ∀ c ∈ gap.toList, isSeparator c = true) (text more : String) :
    (tokenize .document text).tokens <+: (tokenize .document (text ++ gap ++ more)).tokens ∧
      ∀ f, (tokenize .document text).failure = some f →
        f.code ≠ some .unterminatedString → f.code ≠ some .unterminatedEscape →
        tokenize .document (text ++ gap ++ more) = tokenize .document text := by
  have hcuts := CutsAlike.separators (fun hnil => hne (String.toList_inj.1 hnil)) hgap more.toList
  unfold tokenize
  rw [String.toList_append, String.toList_append, List.append_assoc]
  exact streamFrom_append hcuts text.toList 0 ⟨0, 0⟩

end MotionScript.Lexer
