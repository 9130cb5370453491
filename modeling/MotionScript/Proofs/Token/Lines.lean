import MotionScript.Canonical.Line
import MotionScript.Proofs.Token.Spelling
/-!
# Reading lines

The lines of canonical text as pieces: the events of the text are the pieces of its lines.
-/

namespace MotionScript

open Canonical (Line)

/-- Whether a line is written with these pieces. -/
inductive LineSpells : Line → List Piece → Prop where
  | blank : LineSpells .blank []
  | text (depth : Nat) {content : String} {f : Form} {ps : List Piece}
    (hc : content.toList = (⟨false, f⟩ :: ps : List Piece).flatMap Piece.chars)
    (hr : Readable (⟨false, f⟩ :: ps)) : LineSpells (.text depth content) (⟨false, f⟩ :: ps)

/-- Whether lines are written with these pieces. -/
inductive Spells : List Line → List Piece → Prop where
  | nil : Spells [] []
  | cons {l : Line} {ls : List Line} {ps qs : List Piece} (h : LineSpells l ps)
    (hs : Spells ls qs) : Spells (l :: ls) (ps ++ qs)

namespace Spells

theorem singleton {l : Line} {ps : List Piece} (h : LineSpells l ps) : Spells [l] ps := by
  simpa using Spells.cons h .nil

theorem append {ls ls' : List Line} {ps ps' : List Piece} (h : Spells ls ps)
    (h' : Spells ls' ps') : Spells (ls ++ ls') (ps ++ ps') := by
  induction h with
  | nil => exact h'
  | cons hl hs ih =>
    rw [List.cons_append, List.append_assoc]
    exact .cons hl ih

end Spells

/-! ## Atoms of lines -/

theorem isGap_lineFeed : IsGap ['\n'] := by simp [IsGap]

/-- Whether an atom is a piece. -/
structure Piece.IsAtom (a : Atom) (p : Piece) : Prop where
  form : a.2 = p.form
  spaced : p.spaced = true → a.1 = [' ']

/-- A piece behind the first one of a line, as an atom. -/
def Piece.atom (p : Piece) : Atom := (if p.spaced then [' '] else [], p.form)

theorem Piece.isAtom_atom (ps : List Piece) : List.Forall₂ Piece.IsAtom (ps.map Piece.atom) ps := by
  rw [List.forall₂_map_left_iff]
  exact List.forall₂_same.2 fun p _ => ⟨rfl, fun h => by simp [Piece.atom, h]⟩

theorem Piece.reads_of_atoms {es : List Event} {atoms : List Atom} {ps : List Piece}
    (h : List.Forall₂ Atom.Reads es atoms) (h' : List.Forall₂ Piece.IsAtom atoms ps) :
    List.Forall₂ Piece.Reads es ps := by
  induction h generalizing ps with
  | nil => cases h'; exact .nil
  | cons hr _ ih =>
    cases h' with
    | cons ha hs =>
      exact .cons ⟨ha.form ▸ hr.kind, ha.form ▸ hr.text, fun h => hr.sameLine (ha.spaced h)⟩ (ih hs)

theorem spell_append (tail : List Char) (as bs : List Atom) :
    spell tail (as ++ bs) = spell (spell tail bs) as := by
  induction as with
  | nil => rfl
  | cons a as ih => simp only [List.cons_append, spell, ih]

theorem spell_atoms (tail : List Char) (ps : List Piece) :
    spell tail (ps.map Piece.atom) = ps.flatMap Piece.chars ++ tail := by
  induction ps with
  | nil => rfl
  | cons p ps ih =>
    simp [spell, Piece.atom, Piece.chars, ih]

theorem Canonical.toList_render (lines : List Line) :
    (Canonical.render lines).toList = lines.flatMap fun l => l.render.toList := by
  simp [Canonical.render, List.flatMap_map]

theorem Canonical.Line.toList_render (depth : Nat) (content : String) :
    (Line.text depth content).render.toList =
      List.replicate (2 * depth) ' ' ++ (content.toList ++ ['\n']) := by
  have hpush (n : Nat) : ("".pushn ' ' n).toList = List.replicate n ' ' := by
    rw [String.pushn_eq_repeat_push]
    induction n with
    | zero => rfl
    | succ n ih => rw [Nat.repeat, String.toList_push, ih, List.replicate_succ']
  simp [Line.render, hpush]

/-- Written lines are spelled with their pieces, behind any gap. -/
theorem Spells.exists_atoms {ls : List Line} {ps : List Piece} (h : Spells ls ps)
    {gap : List Char} (hg : IsGap gap) :
    ∃ atoms tail, IsGap tail ∧ spell tail atoms = gap ++ (Canonical.render ls).toList ∧
      Spelled atoms ∧ List.Forall₂ Piece.IsAtom atoms ps ∧
      ∀ a ∈ atoms.head?, ∃ more, a.1 = gap ++ more ∧ more ≠ [' '] := by
  induction h generalizing gap with
  | nil => exact ⟨[], gap, hg, by simp [spell, Canonical.toList_render], ⟨by simp, by simp, .nil⟩,
      .nil, by simp⟩
  | @cons l ls ps qs hl hs ih =>
    cases hl with
    | blank =>
      obtain ⟨atoms, tail, ht, hspell, hok, hatoms, hhead⟩ := ih (hg.append isGap_lineFeed)
      refine ⟨atoms, tail, ht, ?_, hok, hatoms, fun a ha => ?_⟩
      · rw [hspell]
        simp [Canonical.toList_render, Line.render]
      · obtain ⟨more, hmore, -⟩ := hhead a ha
        exact ⟨'\n' :: more, by simp [hmore], by simp⟩
    | @text depth content f ps hc hr =>
      obtain ⟨atoms, tail, ht, hspell, hok, hatoms, hhead⟩ := ih isGap_lineFeed
      have hindent : IsGap (List.replicate (2 * depth) ' ') :=
        fun c hc => .inl (List.eq_of_mem_replicate hc)
      refine ⟨(gap ++ List.replicate (2 * depth) ' ', f) :: (ps.map Piece.atom ++ atoms), tail, ht,
        ?_, ⟨?_, ?_, ?_⟩, ?_, ?_⟩
      · rw [spell, spell_append, hspell, spell_atoms]
        simp [Canonical.toList_render, Canonical.Line.toList_render, hc, Piece.chars]
      · simp only [List.forall_mem_cons, List.forall_mem_append, List.forall_mem_map]
        refine ⟨hg.append hindent, fun p _ => ?_, hok.gaps⟩
        unfold Piece.atom
        split <;> simp [IsGap]
      · simp only [List.forall_mem_cons, List.forall_mem_append, List.forall_mem_map]
        exact ⟨hr.valid ⟨false, f⟩ (by simp), fun p hp => hr.valid p (by simp [hp]), hok.valid⟩
      · have hchain : (((⟨false, f⟩ :: ps : List Piece)).map Piece.atom).IsChain
            fun a b => b.1 ≠ [] ∨ a.2.Joins b.2 := by
          refine List.isChain_map_of_isChain Piece.atom (fun p q hpq => ?_) hr.chain
          exact hpq.imp_left fun hq => by simp [Piece.atom, hq]
        rw [← List.cons_append]
        have hfirst : List.IsChain (fun a b : Atom => b.1 ≠ [] ∨ a.2.Joins b.2)
            ((gap ++ List.replicate (2 * depth) ' ', f) :: ps.map Piece.atom) :=
          List.IsChain.cons_of_imp (a := ([], f)) (fun c hc => hc) hchain
        refine hfirst.append hok.chain ?_
        intro x _ y hy
        obtain ⟨more, hmore, -⟩ := hhead y hy
        exact .inl (by simp [hmore])
      · exact .cons ⟨rfl, by simp⟩ (List.rel_append (Piece.isAtom_atom ps) hatoms)
      · intro a ha
        cases ha
        refine ⟨_, rfl, fun h => ?_⟩
        have := congrArg List.length h
        simp at this

/-- Every event of written lines is a piece that has been read. -/
theorem Spells.reads {ls : List Line} {ps : List Piece} (h : Spells ls ps) :
    (Lexer.tokenize .document (Canonical.render ls)).failure = none ∧
      List.Forall₂ Piece.Reads
        (Event.ofTokens (Lexer.tokenize .document (Canonical.render ls)).tokens) ps := by
  obtain ⟨atoms, tail, ht, hspell, hok, hatoms, hhead⟩ := h.exists_atoms isGap_nil
  obtain ⟨hfail, hreads⟩ := hok.reads ht 0 ⟨0, 0⟩ none 0 (.inr fun a ha => by
    obtain ⟨more, hmore, hne⟩ := hhead a ha
    rw [hmore]
    exact hne)
  rw [hspell, List.nil_append] at hfail hreads
  refine ⟨hfail, ?_⟩
  exact Piece.reads_of_atoms hreads hatoms

end MotionScript
