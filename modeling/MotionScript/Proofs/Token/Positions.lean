import MotionScript.Proofs.Token.Layout
/-!
# Positions of tokens

The column of a token is the number of characters behind the last line break in front of it. Its row
is the number of line breaks in front of it, where a carriage return and a line feed are two of them
if a token ends in between.
-/

namespace MotionScript

/-! ## Lines of a text -/

/-- The number of line breaks in a text: a line feed, a carriage return, or both in this order as
one. -/
def lineBreaks : List Char → Nat
  | [] => 0
  | c :: cs => lineBreaks cs + if c = '\n' ∨ c = '\r' ∧ cs.head? ≠ some '\n' then 1 else 0

/-- How many characters follow the last line break of a text. -/
def columnBehind (cs : List Char) : Nat :=
  (cs.reverse.takeWhile fun c => !(c == '\n' || c == '\r')).length

/-- Whether a byte offset of a text parts a carriage return from a line feed. -/
def partsBreak (offset : Nat) : List Char → Bool
  | c :: d :: cs => decide (offset = c.utf8Size ∧ c = '\r' ∧ d = '\n') ||
      decide (c.utf8Size ≤ offset) && partsBreak (offset - c.utf8Size) (d :: cs)
  | _ => false

/-- Whether a line break is parted between two texts. -/
def BreakBetween (xs ys : List Char) : Prop := xs.getLast? = some '\r' ∧ ys.head? = some '\n'

instance (xs ys : List Char) : Decidable (BreakBetween xs ys) :=
  inferInstanceAs (Decidable (_ ∧ _))

theorem partsBreak_byteSize (xs ys : List Char) :
    partsBreak (byteSize xs) (xs ++ ys) = decide (BreakBetween xs ys) := by
  have hsize (c : Char) (cs : List Char) : byteSize (c :: cs) = c.utf8Size + byteSize cs := rfl
  have hnone (ys : List Char) : partsBreak 0 ys = false := by
    match ys with
    | [] | [c] => rfl
    | c :: d :: ys =>
      have hpos := c.utf8Size_pos
      have hne : ¬ 0 = c.utf8Size := by omega
      have hle : ¬ c.utf8Size ≤ 0 := by omega
      simp [partsBreak, hne, hle]
  induction xs with
  | nil => exact hnone ys
  | cons c xs ih =>
    have hsub : byteSize (c :: xs) - c.utf8Size = byteSize xs := Nat.add_sub_cancel_left ..
    have hle : c.utf8Size ≤ byteSize (c :: xs) := Nat.le_add_right ..
    cases xs with
    | nil =>
      cases ys with
      | nil => simp [partsBreak, BreakBetween]
      | cons d ys =>
        have hend : partsBreak (byteSize []) (d :: ys) = false := hnone _
        simp only [List.cons_append, List.nil_append, partsBreak, hsub, hend]
        simp [BreakBetween, byteSize]
    | cons d xs =>
      have hne : ¬ byteSize (c :: d :: xs) = c.utf8Size := by
        have := d.utf8Size_pos
        rw [hsize, hsize]
        omega
      rw [List.cons_append] at ih
      rw [List.cons_append, List.cons_append, partsBreak, hsub, ih, Bool.eq_iff_iff]
      simp only [Bool.or_eq_true, Bool.and_eq_true, decide_eq_true_iff, hne, hle]
      simp [BreakBetween]

/-- Line breaks of two texts are counted one by one, unless one of them is parted in between. -/
theorem lineBreaks_append (xs ys : List Char) :
    lineBreaks (xs ++ ys) + (if BreakBetween xs ys then 1 else 0) =
      lineBreaks xs + lineBreaks ys := by
  induction xs with
  | nil => simp [BreakBetween, lineBreaks]
  | cons c xs ih =>
    cases xs with
    | nil =>
      by_cases hr : c = '\r'
      · subst hr
        by_cases hn : ys.head? = some '\n' <;> simp [lineBreaks, BreakBetween, hn, Nat.add_comm]
      · simp [lineBreaks, BreakBetween, hr, Nat.add_comm]
    | cons d xs =>
      have hlast : BreakBetween (c :: d :: xs) ys ↔ BreakBetween (d :: xs) ys := by
        simp [BreakBetween]
      have hcons (cs : List Char) : lineBreaks (c :: d :: cs) = lineBreaks (d :: cs) +
          if c = '\n' ∨ c = '\r' ∧ some d ≠ some '\n' then 1 else 0 := rfl
      simp only [hlast, List.cons_append, hcons] at ih ⊢
      omega

theorem columnBehind_concat (cs : List Char) (c : Char) :
    columnBehind (cs ++ [c]) = if c = '\n' ∨ c = '\r' then 0 else columnBehind cs + 1 := by
  by_cases h : c = '\n' ∨ c = '\r'
  · rw [if_pos h]
    rcases h with rfl | rfl <;> simp [columnBehind]
  · rw [if_neg h]
    rw [not_or] at h
    simp [columnBehind, h.1, h.2]

namespace Position

theorem walk_lineBreaks (p : Position) (cs : List Char) :
    (p.walk cs).row = p.row + lineBreaks cs := by
  fun_induction walk p cs with
  | case1 => rfl
  | case2 p rest ih => rw [ih]; simp [lineBreaks]; omega
  | case3 p c rest hcr ih =>
    have hhead : c = '\r' → rest.head? ≠ some '\n' := head_of_not_crlf hcr
    rw [ih, lineBreaks]
    by_cases hn : c = '\n'
    · simp [hn]; omega
    · by_cases hr : c = '\r'
      · simp [hr, hhead hr]; omega
      · simp [hn, hr, advance]

theorem walk_column {p : Position} {done : List Char} (h : p.column = columnBehind done)
    (cs : List Char) : (p.walk cs).column = columnBehind (done ++ cs) := by
  fun_induction walk p cs generalizing done with
  | case1 => simpa using h
  | case2 p rest ih =>
    rw [List.append_cons, List.append_cons]
    exact ih (by rw [columnBehind_concat]; rfl)
  | case3 p c rest hcr ih =>
    rw [List.append_cons]
    refine ih ?_
    rw [columnBehind_concat, ← h]
    split <;> rfl

end Position

namespace Lexer

/-- How the tokens of a text behind `done` are placed: the rows count a line break twice if a token
parts it. -/
theorem Laid.placed {done cs : List Char} {p : Position} {s : Stream} (h : Laid done p cs s)
    (hp : p.column = columnBehind done) {earlier later : List Token} {t : Token}
    (ht : s.tokens = earlier ++ t :: later) :
    ∃ front back, cs = front ++ back ∧ t.span.start = byteSize (done ++ front) ∧
      t.position.row + lineBreaks done = p.row + lineBreaks (done ++ front) +
        (if BreakBetween done cs then 1 else 0) +
        earlier.countP (fun u => partsBreak u.span.stop (done ++ cs)) ∧
      t.position.column = columnBehind (done ++ front) := by
  induction h generalizing earlier with
  | done => simp at ht
  | fault => simp at ht
  | @token done p gap read rest s kind text hg hread hstart htext h ih =>
    have hcolumn := p.walk_column hp gap
    have hread_head : read.head? ≠ some '\n' := fun hd => by cases hstart _ hd
    have hgap : BreakBetween done (gap ++ (read ++ rest)) ↔ BreakBetween done gap := by
      rw [BreakBetween, BreakBetween, List.head?_append, List.head?_append_of_ne_nil _ hread]
      cases gap with
      | nil => simp [hread_head]
      | cons c gap => rfl
    have hrow := p.walk_lineBreaks gap
    have hbreaks := lineBreaks_append done gap
    simp only [hgap]
    cases earlier with
    | nil =>
      obtain ⟨rfl, -⟩ := List.cons.inj ht
      refine ⟨gap, read ++ rest, rfl, rfl, ?_, hcolumn⟩
      simp only [List.countP_nil]
      omega
    | cons u earlier =>
      obtain ⟨hu, htail⟩ := List.cons.inj ht
      subst hu
      obtain ⟨front, back, rfl, hspan, hrow', hcol⟩ :=
        ih (Position.walk_column hcolumn read) htail
      have hread_row := (p.walk gap).walk_lineBreaks read
      have hread_breaks := lineBreaks_append (done ++ gap) read
      rw [if_neg fun hb : BreakBetween (done ++ gap) read => hread_head hb.2] at hread_breaks
      have hfirst := partsBreak_byteSize (done ++ gap ++ read) (front ++ back)
      have hsource : done ++ (gap ++ (read ++ (front ++ back))) =
          done ++ gap ++ read ++ (front ++ back) := by
        simp only [List.append_assoc]
      have hfront : done ++ (gap ++ (read ++ front)) = done ++ gap ++ read ++ front := by
        simp only [List.append_assoc]
      refine ⟨gap ++ (read ++ front), back, by simp only [List.append_assoc], hfront ▸ hspan, ?_,
        hfront ▸ hcol⟩
      rw [hfront, hsource, List.countP_cons, hfirst]
      simp only [decide_eq_true_eq]
      omega

/-- The column of a token is true, and so is its row, but for line breaks that earlier tokens part:
where a token ends between a carriage return and a line feed, both start a row. -/
theorem tokenize_positions (symbols : SymbolSet) (text : String) {earlier later : List Token}
    {t : Token} (h : (tokenize symbols text).tokens = earlier ++ t :: later) :
    ∃ front back, text.toList = front ++ back ∧ t.span.start = byteSize front ∧
      t.position = ⟨lineBreaks front +
        earlier.countP (fun u => partsBreak u.span.stop text.toList), columnBehind front⟩ := by
  obtain ⟨front, back, hsource, hspan, hrow, hcolumn⟩ :=
    (streamFrom_laid symbols [] text.toList ⟨0, 0⟩).placed rfl h
  refine ⟨front, back, hsource, hspan, ?_⟩
  rw [if_neg fun hb : BreakBetween [] text.toList => nomatch hb.1] at hrow
  simp only [List.nil_append, lineBreaks, Nat.add_zero, Nat.zero_add] at hrow hcolumn
  rw [← hrow, ← hcolumn]

/-- A word that ends with an escaped carriage return, in front of a line feed. -/
def parted : String := "a\\\r\nb"

theorem tokenize_parted : (tokenize .document parted).tokens =
    [⟨.identifier, "a\r", ⟨0, 3⟩, ⟨0, 0⟩⟩, ⟨.identifier, "b", ⟨4, 5⟩, ⟨2, 0⟩⟩] := by
  decide +kernel

theorem tokenize_positions_parted :
    ∃ a b front back, (tokenize .document parted).tokens = [a, b] ∧
      parted.toList = front ++ back ∧ b.span.start = byteSize front ∧
      b.position = ⟨lineBreaks front +
        [a].countP (fun u => partsBreak u.span.stop parted.toList), columnBehind front⟩ := by
  have hsecond : (tokenize .document parted).tokens = [_] ++ _ :: [] := tokenize_parted
  obtain ⟨front, back, hplaced⟩ := tokenize_positions .document parted hsecond
  exact ⟨_, _, front, back, tokenize_parted, hplaced⟩

/-- Rows do not count line breaks only. -/
theorem not_tokenize_positions :
    ¬ ∀ (symbols : SymbolSet) (text : String), ∀ t ∈ (tokenize symbols text).tokens,
      ∃ front back, text.toList = front ++ back ∧ t.span.start = byteSize front ∧
        t.position = ⟨lineBreaks front, columnBehind front⟩ := by
  intro h
  obtain ⟨front, back, hsource, hstart, hposition⟩ := h .document parted
    ⟨.identifier, "b", ⟨4, 5⟩, ⟨2, 0⟩⟩ (by rw [tokenize_parted]; simp)
  obtain ⟨rfl, -⟩ := append_inj_of_byteSize (a := ['a', '\\', '\r', '\n']) (b := ['b'])
    hsource hstart
  cases hposition

end Lexer

end MotionScript
