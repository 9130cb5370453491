import MotionScript.Host.Memory
import MotionScript.Proofs.Images.Elsewhere
import MotionScript.Proofs.Shape.LineBreaks
/-!
# Spaces between symbols

Apart from where things are found, a document means the same if a run of symbols in it is parted by
a space. The exception are signs behind the brace of a blend tree, at the start of a line: all
symbols of a run that starts a line are taken to start it, and there are no modifiers on a new line.
-/

namespace MotionScript

variable {η : Type} [Host η]

/-! ## Runs that are parted -/

/-- Whether two neighbouring symbols are something else than a brace and the sign of a modifier. -/
def Unsigned (c d : Char) : Prop := c = '}' → d ∉ ['*', '+', '-']

instance (c d : Char) : Decidable (Unsigned c d) :=
  inferInstanceAs (Decidable (c = '}' → d ∉ ['*', '+', '-']))

theorem Event.isSymbol_symbol (lineBreak : Bool) (indent : Nat) (c d : Char) :
    (Event.symbol lineBreak indent c).isSymbol d = decide (c = d) := by
  have htext : (c.toString == d.toString) = decide (c = d) := by
    rw [Bool.eq_iff_iff, beq_iff_eq, decide_eq_true_iff]
    exact String.singleton_inj
  exact htext

theorem Event.isSign_symbol {lineBreak : Bool} {indent : Nat} {c : Char} :
    (Event.symbol lineBreak indent c).isSign = true ↔ c ∈ ['*', '+', '-'] := by
  simp [Event.isSign, Event.isSymbol_symbol, or_assoc]

namespace Grammar

theorem feed_settled (es : List Event) {r : Run Frame (Session η)} (h : Settled r.stack) :
    Settled ((document η).feed es r).stack := by
  induction es generalizing r with
  | nil => exact h
  | cons e es ih =>
    have hd := (dispatch_settled e maxForwards r.session h).1
    rw [feed]
    cases ((document η).dispatch e maxForwards r.stack r.session).result with
    | error d => exact hd
    | ok u => exact ih hd

/-- Behind a symbol, a run of symbols is the same at the start of a line and inside it. -/
theorem feed_run {c : Char} {cs : List Char} (hc : (c :: cs).IsChain Unsigned) (lineBreak : Bool)
    (indent : Nat) {r : Run Frame (Session η)} (h : Settled r.stack)
    (htop : c ≠ '}' → ∀ top ∈ r.stack.head?, ¬top.AwaitsModifier) :
    (document η).feed (cs.map (Event.symbol false indent)) r =
      (document η).feed (cs.map (Event.symbol lineBreak indent)) r := by
  induction cs generalizing c r with
  | nil => rfl
  | cons d cs ih =>
    obtain ⟨hcd, hrest⟩ := List.isChain_cons_cons.1 hc
    have hsigns : ∀ top ∈ r.stack.head?, top.AwaitsModifier →
        (Event.symbol lineBreak indent d).isSign = false := by
      intro top ht hawaits
      by_contra hsign
      have hd := Event.isSign_symbol.1 (Bool.not_eq_false _ ▸ hsign)
      exact htop (fun hbrace => hcd hbrace hd) top ht hawaits
    have hdispatch := dispatch_inLine (e := .symbol lineBreak indent d) rfl maxForwards r.stack
      r.session hsigns
    obtain ⟨hsettled, hnext⟩ := dispatch_settled (Event.symbol lineBreak indent d) maxForwards
      r.session h
    rw [List.map_cons, List.map_cons, feed, feed,
      show Event.symbol false indent d = (Event.symbol lineBreak indent d).inLine from rfl,
      hdispatch]
    cases hr : ((document η).dispatch (Event.symbol lineBreak indent d) maxForwards r.stack
        r.session).result with
    | error d => rfl
    | ok u =>
      refine ih hrest hsettled fun hd => hnext rfl ?_ hr
      rw [Event.isSymbol_symbol]
      exact decide_eq_false hd

/-- The rules behind a symbol that is no brace. -/
theorem feed_symbol {es : List Event} {e : Event} {r : Run Frame (Session η)}
    (h : Settled r.stack) (hr : r.failure = none) (hk : e.kind = .symbol)
    (hb : e.isSymbol '}' = false) (hfeed : ((document η).feed (es ++ [e]) r).failure = none) :
    ∀ top ∈ ((document η).feed (es ++ [e]) r).stack.head?, ¬top.AwaitsModifier := by
  rw [feed_append _ _ hr] at hfeed ⊢
  split at hfeed
  · rename_i hnone
    rw [if_pos hnone]
    rw [feed] at hfeed ⊢
    have hnext := (dispatch_settled e maxForwards ((document η).feed es r).session
      (feed_settled es h)).2 hk hb
    cases hd : ((document η).dispatch e maxForwards ((document η).feed es r).stack
        ((document η).feed es r).session).result with
    | error d => simp [hd] at hfeed
    | ok u => exact hnext hd
  · rename_i hsome
    exact absurd (Option.isNone_iff_eq_none.2 hfeed) hsome

end Grammar

namespace RunPlace

variable (w : RunPlace)

/-- The last symbol in front of the place. -/
def before : Char := w.left.getLast w.left_ne_nil

/-- Whether no sign of a modifier behind the place directly follows a brace. -/
def NoSign : Prop := (w.before :: w.right).IsChain Unsigned

instance : Decidable w.NoSign :=
  inferInstanceAs (Decidable ((w.before :: w.right).IsChain Unsigned))

end RunPlace

/-- Whether the symbols behind the place start a line makes no difference. -/
theorem RunPlace.feed_right (w : RunPlace) {lineBreak : Bool} (h : lineBreak = true → w.NoSign)
    (indent : Nat) (earlier later : List Event) {r : Grammar.Run Frame (Session η)}
    (hr : r.failure = none) (hs : Settled r.stack) :
    (Grammar.document η).feed (earlier ++ (w.left.map (Event.symbol lineBreak indent) ++
        (w.right.map (Event.symbol false indent) ++ later))) r =
      (Grammar.document η).feed (earlier ++ (w.left.map (Event.symbol lineBreak indent) ++
        (w.right.map (Event.symbol lineBreak indent) ++ later))) r := by
  cases lineBreak with
  | false => rfl
  | true =>
    have hlast : earlier ++ w.left.map (Event.symbol true indent) =
        (earlier ++ w.left.dropLast.map (Event.symbol true indent)) ++
          [Event.symbol true indent w.before] := by
      rw [List.append_assoc, ← List.map_singleton, ← List.map_append, before,
        List.dropLast_append_getLast]
    rw [← List.append_assoc earlier, ← List.append_assoc earlier,
      Grammar.feed_append (earlier ++ _) _ hr, Grammar.feed_append (earlier ++ _) _ hr]
    split
    · rename_i hnone
      rw [Option.isNone_iff_eq_none] at hnone
      have hright := Grammar.feed_run (h rfl) true indent
        (Grammar.feed_settled (earlier ++ w.left.map (Event.symbol true indent)) hs)
        fun hbrace => by
          rw [hlast] at hnone ⊢
          refine Grammar.feed_symbol hs hr rfl ?_ hnone
          rw [Event.isSymbol_symbol]
          exact decide_eq_false hbrace
      rw [Grammar.feed_append _ _ hnone, Grammar.feed_append _ _ hnone, hright]
    · rfl

/-- Spaces between symbols do not change what a document means, unless they part a run that starts
its line and has, behind the space, the sign of a modifier right behind a brace. -/
theorem read_spaced (w : RunPlace) (h : w.StartsLine → w.NoSign) (name : String) (host : η) :
    Document.SameResult (Document.read w.source name host).1 (Document.read w.spaced name host).1 ∧
      (Document.read w.spaced name host).2 = (Document.read w.source name host).2 := by
  obtain ⟨earlier, later, lineBreak, indent, hline, hsource, hspaced⟩ := w.events
  obtain ⟨-, -, -, -, -, -, -, -, -, -, -, hfailure⟩ := w.tokens
  refine Document.sameResult_of_elsewhere (fun _ => ⟨0, 0⟩) (fun _ => ⟨0, 0⟩) ?_ hfailure
  have hevent : (Stage.elsewhere η name (fun _ => ⟨0, 0⟩) fun _ => ⟨0, 0⟩).event =
      Event.unplaced := rfl
  have hsettled : Settled (Document.start name host).stack := fun f hf => by cases hf
  rw [hevent, hsource, hspaced]
  exact w.feed_right (fun hl => h (hline hl)) indent earlier later rfl hsettled

/-- The end of a state, on a line of its own. -/
def RunPlace.ending : RunPlace where
  front := "layer L \x7b state A \x7b clip x\n".toList
  left := [';']
  right := ['}']
  rest := " \x7d".toList
  run := ⟨.symbol, ";\x7d", ⟨27, 29⟩, ⟨1, 0⟩⟩
  left_ne_nil := by simp
  right_ne_nil := by simp
  mem := by decide +kernel
  isSymbol := rfl
  text := rfl
  start := rfl

theorem read_spaced_ending :
    RunPlace.ending.NoSign ∧
      Document.SameResult (Document.read RunPlace.ending.source "Hero" ({} : MemoryHost)).1
        (Document.read RunPlace.ending.spaced "Hero" ({} : MemoryHost)).1 := by
  have h : RunPlace.ending.NoSign := by decide
  exact ⟨h, (read_spaced RunPlace.ending (fun _ => h) "Hero" ({} : MemoryHost)).1⟩

/-- The end of a blend tree, on a line of its own, with a modifier. -/
def RunPlace.signed : RunPlace where
  front := "layer L \x7b state A \x7b blendtree t simple1D \x7b\n".toList
  left := ['}']
  right := ['-']
  rest := " 0.5; \x7d \x7d".toList
  run := ⟨.symbol, "\x7d-", ⟨43, 45⟩, ⟨1, 0⟩⟩
  left_ne_nil := by simp
  right_ne_nil := by simp
  mem := by decide +kernel
  isSymbol := rfl
  text := rfl
  start := rfl

/-- With a space, the offset is a modifier of the blend tree, and without it one of a transition. -/
theorem not_read_spaced :
    ¬∀ w : RunPlace, Document.SameResult (Document.read w.source "Hero" ({} : MemoryHost)).1
      (Document.read w.spaced "Hero" ({} : MemoryHost)).1 := by
  intro h
  have hsource : ((Document.read RunPlace.signed.source "Hero" ({} : MemoryHost)).1.toOption.map
      (·.controller.transitions.size)) = some 1 := by decide +kernel
  have hspaced : ((Document.read RunPlace.signed.spaced "Hero" ({} : MemoryHost)).1.toOption.map
      (·.controller.transitions.size)) = some 0 := by decide +kernel
  have hsame := h RunPlace.signed
  generalize (Document.read RunPlace.signed.source "Hero" ({} : MemoryHost)).1 = x at hsource hsame
  generalize (Document.read RunPlace.signed.spaced "Hero" ({} : MemoryHost)).1 = y at hspaced hsame
  cases hsame with
  | ok hc =>
    simp only [Except.toOption, Option.map_some, Option.some.injEq] at hsource hspaced
    rw [hc, hsource] at hspaced
    cases hspaced
  | error => cases hsource

end MotionScript
