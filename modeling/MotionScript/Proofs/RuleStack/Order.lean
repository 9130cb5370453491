import MotionScript.Proofs.RuleStack.Notes
import Mathlib.Data.List.Basic
/-!
# The order of calls

Rules are attached because the top rule asked for them, and only the top rule is called. So rules
leave the stack in the reverse order in which they came, and no hook of a rule runs after it has
been detached.
-/

namespace MotionScript.Notes

variable {ρ : Type}

/-- Whether a call can come next: a rule is attached only right after a hook that succeeded asked
for exactly this rule, unless it is the root, and only the top rule is called or detached. -/
def Follows (notes : Notes ρ) : Note ρ → Prop
  | .attach n asked _ _ =>
    n = notes.attached.length ∧
      (notes = [] ∨ ∃ earlier m e requester forward,
        notes = earlier ++ [.token m e requester (some (.attach asked forward)) (.ok ())])
  | .token n _ _ _ _ => notes.stack.head?.map (·.number) = some n
  | .detach n rule _ => notes.stack.head? = some ⟨n, rule⟩

/-- Notes of calls each of which could come next. -/
inductive Regular : Notes ρ → Prop where
  | nil : Regular []
  | concat {notes : Notes ρ} {note : Note ρ} (h : Regular notes) (follows : Follows notes note) :
    Regular (notes ++ [note])

/-- What is noted before a call is regular, and the call could come next. -/
theorem Regular.split {notes : Notes ρ} (h : Regular notes) {before after : Notes ρ}
    {note : Note ρ}
    (heq : notes = before ++ note :: after) :
    Regular before ∧ Follows before note := by
  induction h generalizing after with
  | nil => simp at heq
  | concat h follows ih =>
    rcases List.eq_nil_or_concat after with rfl | ⟨rest, last, rfl⟩
    · obtain ⟨rfl, hlast⟩ := List.append_inj' heq rfl
      obtain rfl := List.head_eq_of_cons_eq hlast
      exact ⟨h, follows⟩
    · rw [List.concat_eq_append, ← List.cons_append, ← List.append_assoc] at heq
      exact ih (List.append_inj' heq rfl).1

/-- Rules are numbered in the order in which they are attached. -/
theorem Regular.numbered {notes : Notes ρ} (h : Regular notes) :
    notes.attached = List.range notes.attached.length := by
  induction h with
  | nil => rfl
  | @concat notes note h follows ih =>
    cases note with
    | attach n asked rule result =>
      have hn : n = notes.attached.length := follows.1
      rw [attached_concat, Note.attached?, Option.toList_some, List.length_append,
        List.length_singleton, List.range_succ, ← ih, hn]
    | token | detach => simpa [Note.attached?] using ih

/-- A rule that handles an event is the top of the stack, before and after. -/
theorem Follows.token_stack {notes : Notes ρ} {n : Nat} {e : Event} {rule : ρ} {change : Control ρ}
    {result : Except Diagnostic Unit} (follows : Follows notes (.token n e rule change result)) :
    (stack (notes ++ [.token n e rule change result])).map (·.number) =
      notes.stack.map (·.number) := by
  rw [stack_concat]
  cases hs : notes.stack with
  | nil => simp [Follows, hs] at follows
  | cons top parents =>
    simp only [Follows, hs, List.head?_cons, Option.map_some, Option.some.injEq] at follows
    simp [Note.next, follows]

/-- A rule that is detached was the top of the stack. -/
theorem Follows.detach_stack {notes : Notes ρ} {n : Nat} {rule : ρ}
    {result : Except Diagnostic Unit} (follows : Follows notes (.detach n rule result)) :
    notes.stack = ⟨n, rule⟩ :: stack (notes ++ [.detach n rule result]) := by
  rw [stack_concat]
  cases hs : notes.stack with
  | nil => simp [Follows, hs] at follows
  | cons top parents =>
    simp only [Follows, hs, List.head?_cons, Option.some.injEq] at follows
    simp [Note.next, follows]

/-- The rules that were attached are those that were detached and those on the stack. -/
theorem Regular.balanced {notes : Notes ρ} (h : Regular notes) :
    (notes.detached ++ notes.stack.map (·.number)).Perm notes.attached := by
  induction h with
  | nil => exact .nil
  | @concat notes note h follows ih =>
    cases note with
    | attach n asked rule result =>
      have hn := List.perm_middle.trans ((ih.cons n).trans (List.perm_append_singleton n _).symm)
      simpa [Note.detached?, Note.attached?, Note.next] using hn
    | token n e rule change result =>
      rw [follows.token_stack]
      simpa [Note.detached?, Note.attached?] using ih
    | detach n rule result =>
      rw [follows.detach_stack, List.map_cons] at ih
      simpa [Note.detached?, Note.attached?] using ih

theorem Regular.number_lt {notes : Notes ρ} (h : Regular notes) {n : Nat}
    (hn : n ∈ notes.stack.map (·.number)) : n < notes.attached.length := by
  have hmem : n ∈ notes.attached := h.balanced.subset (List.mem_append_right _ hn)
  rw [h.numbered] at hmem
  exact List.mem_range.1 hmem

/-- The rules on the stack are numbered upwards. -/
theorem Regular.sorted {notes : Notes ρ} (h : Regular notes) :
    (notes.stack.map (·.number)).Pairwise (· > ·) := by
  induction h with
  | nil => exact .nil
  | @concat notes note h follows ih =>
    cases note with
    | attach n asked rule result =>
      rw [stack_concat, Note.next, List.map_cons, List.pairwise_cons]
      exact ⟨fun m hm => by rw [follows.1]; exact h.number_lt hm, ih⟩
    | token n e rule change result => rwa [follows.token_stack]
    | detach n rule result =>
      rw [follows.detach_stack, List.map_cons] at ih
      exact ih.of_cons

/-- A rule is on the stack from its attachment until it is detached. -/
theorem Regular.on_stack {notes : Notes ρ} (h : Regular notes) {n : Nat} :
    n ∈ notes.stack.map (·.number) ↔ n ∈ notes.attached ∧ n ∉ notes.detached := by
  have hnodup : (notes.detached ++ notes.stack.map (·.number)).Nodup := by
    rw [h.balanced.nodup_iff, h.numbered]
    exact List.nodup_range
  rw [← h.balanced.mem_iff, List.mem_append]
  constructor
  · exact fun hn => ⟨.inr hn, fun hd => (List.nodup_append.1 hnodup).2.2 _ hd _ hn rfl⟩
  · rintro ⟨hd | hs, hn⟩
    · exact absurd hd hn
    · exact hs

/-- What the notes of a whole reading say about the order of its calls. -/
structure Clean (notes : Notes ρ) : Prop where
  /-- Rules are numbered in the order in which they are attached. -/
  numbered : notes.attached = List.range notes.attached.length
  /-- Every rule that is attached is detached exactly once. -/
  once : notes.detached.Perm notes.attached
  /-- A hook other than the one for attaching runs only after the rule was attached and before it is
  detached. -/
  between : ∀ (before : Notes ρ) note after, notes = before ++ note :: after →
    note.attached? = none → note.number ∈ before.attached ∧ note.number ∉ before.detached
  /-- Among the rules on the stack, the one attached last is detached. -/
  nested : ∀ (before : Notes ρ) n rule result after,
    notes = before ++ .detach n rule result :: after →
      ∀ m ∈ before.attached, m ∉ before.detached → m ≤ n
  /-- Every rule but the root is attached because a hook that has just succeeded asked for it. -/
  asked : ∀ (before : Notes ρ) n asked rule result after,
    notes = before ++ .attach n asked rule result :: after →
    before = [] ∨ ∃ earlier m e requester forward,
      before = earlier ++ [.token m e requester (some (.attach asked forward)) (.ok ())]
  /-- In the end the stack is empty. -/
  unwound : notes.stack = []

/-- Regular notes that end with an empty stack tell of a clean reading. -/
theorem Regular.clean {notes : Notes ρ} (h : Regular notes) (hs : notes.stack = []) :
    Clean notes where
  numbered := h.numbered
  once := by simpa [hs] using h.balanced
  between before note after heq hnote := by
    obtain ⟨hb, follows⟩ := h.split heq
    rw [← hb.on_stack]
    cases note with
    | attach n asked rule result => cases hnote
    | token n e rule change result =>
      obtain ⟨top, htop, rfl⟩ := Option.map_eq_some_iff.1 follows
      exact List.mem_map_of_mem (List.mem_of_mem_head? htop)
    | detach n rule result =>
      exact List.mem_map_of_mem (List.mem_of_mem_head? follows)
  nested before n rule result after heq m hm hd := by
    obtain ⟨hb, follows⟩ := h.split heq
    have hmem := hb.on_stack.2 ⟨hm, hd⟩
    have hsorted := hb.sorted
    rw [follows.detach_stack, List.map_cons] at hmem hsorted
    rcases List.mem_cons.1 hmem with rfl | hmem
    · exact Nat.le_refl _
    · exact Nat.le_of_lt (List.rel_of_pairwise_cons hsorted hmem)
  asked before n asked rule result after heq := (h.split heq).2.2
  unwound := hs

end MotionScript.Notes
