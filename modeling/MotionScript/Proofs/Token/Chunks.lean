import MotionScript.Proofs.Token.Lines
/-!
# Chunks of lines

A line is put together from chunks, each written with pieces of its own.
-/

namespace MotionScript

/-! ## Forms of names and numbers -/

namespace Form

/-- A name, bare where possible. -/
def name (text : String) : Form :=
  if Canonical.isBare text.toList then word text else string text

/-- A number. -/
def float {f : Format} (x : Binary f) : Form := number x.text

def int (n : Int) : Form := number (toString n).toList

def spaced (f : Form) : Piece := ⟨true, f⟩

def joined (f : Form) : Piece := ⟨false, f⟩

theorem name_cases (text : String) : name text = word text ∨ name text = string text := by
  unfold name
  split
  · exact .inl rfl
  · exact .inr rfl

@[simp]
theorem valid_name (text : String) : (name text).Valid := by
  unfold name
  split
  · assumption
  · trivial

@[simp]
theorem chars_name (text : String) : (name text).chars = (Canonical.name text).toList := by
  unfold name Canonical.name Canonical.string
  split <;> simp [chars]

theorem valid_float {f : Format} {x : Binary f} (hp : 1 ≤ f.precision) (hx : x.isFinite = true) :
    (float x).Valid := by
  obtain ⟨p, hp, -⟩ := Binary.exists_numeral hp hx
  exact ⟨x.negative, p, hp⟩

theorem valid_single {x : Single} (hx : x.isFinite = true) : (float x).Valid :=
  valid_float (by decide) hx

theorem valid_double {x : Double} (hx : x.isFinite = true) : (float x).Valid :=
  valid_float (by decide) hx

@[simp]
theorem valid_int (n : Int) : (int n).Valid := by
  obtain ⟨p, hp, -⟩ := exists_numeral_int n
  exact ⟨_, p, hp⟩

@[simp]
theorem valid_string (text : String) : (string text).Valid := trivial

@[simp]
theorem valid_word (text : String) : (word text).Valid ↔ Canonical.isBare text.toList = true :=
  Iff.rfl

@[simp]
theorem valid_symbol (c : Char) : (symbol c).Valid ↔ SymbolSet.document.contains c = true :=
  Iff.rfl

@[simp]
theorem chars_float {f : Format} (x : Binary f) : (float x).chars = (toString x).toList :=
  String.toList_ofList.symm

@[simp]
theorem chars_int (n : Int) : (int n).chars = (toString n).toList := rfl

@[simp]
theorem chars_word (text : String) : (word text).chars = text.toList := rfl

@[simp]
theorem chars_symbol (c : Char) : (symbol c).chars = [c] := rfl

@[simp]
theorem chars_string (text : String) : (string text).chars = (Canonical.string text).toList :=
  String.toList_ofList.symm

/-! ### What joins -/

@[simp]
theorem word_joins_symbol (text : String) (c : Char) : (word text).Joins (symbol c) := trivial

@[simp]
theorem string_joins (text : String) (f : Form) : (string text).Joins f := by cases f <;> trivial

@[simp]
theorem name_joins_symbol (text : String) (c : Char) : (name text).Joins (symbol c) := by
  rcases name_cases text with h | h <;> rw [h] <;> trivial

@[simp]
theorem symbol_joins_name (c : Char) (text : String) : (symbol c).Joins (name text) := by
  rcases name_cases text with h | h <;> rw [h] <;> trivial

@[simp]
theorem symbol_joins_word (c : Char) (text : String) : (symbol c).Joins (word text) := trivial

@[simp]
theorem symbol_joins_float {f : Format} (c : Char) (x : Binary f) :
    (symbol c).Joins (float x) ↔ c = '(' := Iff.rfl

@[simp]
theorem float_joins_symbol {f : Format} (x : Binary f) (c : Char) :
    (float x).Joins (symbol c) ↔ c ≠ '.' := Iff.rfl

@[simp]
theorem float_joins_word {f : Format} (x : Binary f) (text : String) :
    (float x).Joins (word text) ↔ text = "s" := Iff.rfl

@[simp]
theorem int_joins_symbol (n : Int) (c : Char) : (int n).Joins (symbol c) ↔ c ≠ '.' := Iff.rfl

@[simp]
theorem symbol_joins_symbol (c d : Char) :
    (symbol c).Joins (symbol d) ↔ c ≠ '+' ∧ c ≠ '-' ∧ c ≠ '.' := Iff.rfl

end Form

/-- The text of a text is itself. -/
@[simp]
theorem toString_string (text : String) : toString text = text := rfl

namespace Piece

@[simp]
theorem form_spaced (f : Form) : f.spaced.form = f := rfl

@[simp]
theorem form_joined (f : Form) : f.joined.form = f := rfl

@[simp]
theorem chars_spaced (f : Form) : f.spaced.chars = ' ' :: f.chars := rfl

@[simp]
theorem chars_joined (f : Form) : f.joined.chars = f.chars := rfl

@[simp]
theorem follows_spaced (p : Piece) (f : Form) : p.Follows f.spaced := .inl rfl

@[simp]
theorem follows_joined (p : Piece) (f : Form) : p.Follows f.joined ↔ p.form.Joins f := by
  simp [Follows, Form.joined]

end Piece

/-! ## Chunks -/

/-- Whether a text is written with these pieces, each of which is read as one token. -/
structure Chunk (text : List Char) (ps : List Piece) : Prop where
  chars : text = ps.flatMap Piece.chars
  readable : Readable ps

/-- Whether a symbol can stand right behind pieces. -/
def Ends (ps : List Piece) (c : Char) : Prop := ∀ p ∈ ps.getLast?, p.form.Joins (.symbol c)

namespace Ends

variable {p q : Piece} {ps qs : List Piece} {c : Char}

@[simp]
theorem singleton_iff : Ends [p] c ↔ p.form.Joins (.symbol c) := by simp [Ends]

@[simp]
theorem cons_cons_iff : Ends (p :: q :: ps) c ↔ Ends (q :: ps) c := by simp [Ends]

@[simp]
theorem append_singleton_iff : Ends (ps ++ [p]) c ↔ p.form.Joins (.symbol c) := by simp [Ends]

theorem append (h : Ends ps c) (h' : Ends qs c) : Ends (ps ++ qs) c := by
  intro p hp
  rw [List.getLast?_append, Option.mem_def, Option.or_eq_some_iff] at hp
  rcases hp with hp | ⟨-, hp⟩
  · exact h' p hp
  · exact h p hp

theorem flatMap {α : Type} {g : α → List Piece} {xs : List α} (h : ∀ x ∈ xs, Ends (g x) c) :
    Ends (xs.flatMap g) c := by
  induction xs with
  | nil => simp [Ends]
  | cons x xs ih =>
    rw [List.forall_mem_cons] at h
    exact h.1.append (ih h.2)

end Ends

namespace Readable

variable {p q : Piece} {ps : List Piece}

theorem nil : Readable [] := ⟨by simp, .nil⟩

@[simp]
theorem singleton_iff : Readable [p] ↔ p.form.Valid :=
  ⟨fun h => h.valid p (by simp), fun h => ⟨by simpa using h, .singleton p⟩⟩

@[simp]
theorem cons_cons_iff :
    Readable (p :: q :: ps) ↔ p.form.Valid ∧ p.Follows q ∧ Readable (q :: ps) := by
  constructor
  · rintro ⟨hv, hc⟩
    rw [List.forall_mem_cons] at hv
    rw [List.isChain_cons_cons] at hc
    exact ⟨hv.1, hc.1, hv.2, hc.2⟩
  · rintro ⟨hp, hf, hv, hc⟩
    exact ⟨List.forall_mem_cons.2 ⟨hp, hv⟩, hc.cons_cons hf⟩

end Readable

namespace Chunk

variable {cs ds : List Char} {ps qs : List Piece}

theorem nil : Chunk [] [] := ⟨rfl, .nil⟩

theorem append (h : Chunk cs ps) (h' : Chunk ds qs)
    (hj : ∀ p ∈ ps.getLast?, ∀ q ∈ qs.head?, p.Follows q) : Chunk (cs ++ ds) (ps ++ qs) := by
  refine ⟨?_, ?_, ?_⟩
  · rw [h.chars, h'.chars, List.flatMap_append]
  · exact List.forall_mem_append.2 ⟨h.readable.valid, h'.readable.valid⟩
  · exact List.isChain_append.2 ⟨h.readable.chain, h'.readable.chain, hj⟩

/-- A chunk set apart by a space. -/
theorem spaced {f : Form} (h : Chunk cs (f.joined :: ps)) : Chunk (' ' :: cs) (f.spaced :: ps) := by
  refine ⟨?_, ?_, ?_⟩
  · rw [h.chars]; rfl
  · intro p hp
    rcases List.mem_cons.1 hp with rfl | hp
    · exact h.readable.valid f.joined List.mem_cons_self
    · exact h.readable.valid p (List.mem_cons_of_mem _ hp)
  · exact List.IsChain.cons_of_imp (a := f.joined) (fun c hc => hc) h.readable.chain

/-- A chunk and further ones that are set apart from what stands in front of them. -/
theorem append_flatMap {α : Type} {f : α → List Char} {g : α → List Piece} {xs : List α}
    (h : Chunk cs ps) (hx : ∀ x ∈ xs, Chunk (f x) (g x))
    (hj : ∀ x ∈ xs, ∃ form more, g x = Form.spaced form :: more) :
    Chunk (cs ++ xs.flatMap f) (ps ++ xs.flatMap g) := by
  induction xs generalizing cs ps with
  | nil => simpa using h
  | cons x xs ih =>
    rw [List.forall_mem_cons] at hx hj
    rw [List.flatMap_cons, List.flatMap_cons, ← List.append_assoc, ← List.append_assoc]
    refine ih (h.append hx.1 fun p _ q hq => ?_) hx.2 hj.2
    obtain ⟨form, more, hg⟩ := hj.1
    rw [hg] at hq
    obtain rfl : form.spaced = q := by simpa using hq
    exact p.follows_spaced form

/-- A chunk and a symbol right behind it. -/
theorem close {c : Char} (h : Chunk cs ps) (hc : SymbolSet.document.contains c = true)
    (he : Ends ps c) : Chunk (cs ++ [c]) (ps ++ [(Form.symbol c).joined]) := by
  refine h.append ⟨by simp, by simpa using hc⟩ fun p hp q hq => ?_
  obtain rfl : (Form.symbol c).joined = q := by simpa using hq
  simpa using he p hp

theorem line {content : String} {f : Form} (h : Chunk content.toList (f.joined :: ps))
    (depth : Nat) : Spells [.text depth content] (f.joined :: ps) :=
  .singleton (.text depth h.chars h.readable)

end Chunk

/-- A list with separators starts with its first text, and each other one follows a separator. -/
theorem toList_intercalate_cons (sep w : String) (ws : List String) :
    (sep.intercalate (w :: ws)).toList =
      w.toList ++ ws.flatMap fun x => sep.toList ++ x.toList := by
  induction ws generalizing w with
  | nil => simp
  | cons x ws ih =>
    rw [String.intercalate_cons_cons, String.toList_append, String.toList_append, ih]
    simp

/-! ## Lines with a key -/

/-- What a line starts with, and how the form behind it is set apart. -/
structure LeadIn (key : String) (ps : List Piece) (lead : Form → Piece) : Prop where
  form : ∀ f, (lead f).form = f
  line : ∀ {content : String} {f : Form} {qs : List Piece} (depth : Nat),
    Chunk content.toList (f.joined :: qs) →
      Spells [.text depth (key ++ content)] (ps ++ lead f :: qs)

theorem LeadIn.nothing : LeadIn "" [] Form.joined := by
  refine ⟨Piece.form_joined, fun depth h => ?_⟩
  rw [String.empty_append]
  exact h.line depth

/-- Pieces and a space. -/
theorem LeadIn.spaced {key : String} {f : Form} {ps : List Piece}
    (h : Chunk key.toList (f.joined :: ps)) : LeadIn (key ++ " ") (f.joined :: ps) Form.spaced := by
  refine ⟨Piece.form_spaced, fun {content g qs} depth hc => ?_⟩
  have hall : Chunk (key ++ " " ++ content).toList (f.joined :: (ps ++ g.spaced :: qs)) := by
    have hsplit : (key ++ " " ++ content).toList = key.toList ++ ' ' :: content.toList := by simp
    rw [hsplit, ← List.cons_append]
    refine h.append hc.spaced fun p _ q hq => ?_
    obtain rfl : g.spaced = q := by simpa using hq
    exact p.follows_spaced g
  exact hall.line depth

end MotionScript
