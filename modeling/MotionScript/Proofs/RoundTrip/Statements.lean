import MotionScript.Proofs.RoundTrip.Trees
/-!
# Statements that are written again

Transitions that have been read back from the statements they were written in are written in the same
statements again.
-/

namespace MotionScript

open Canonical (groupStatements sameStatement)

/-! ## Groups -/

namespace Canonical

/-- Whether transitions are written as one statement. -/
def IsStatement (group : List Transition) : Prop :=
  ∃ first rest, group = first :: rest ∧ ∀ t ∈ rest, sameStatement first t = true

/-- Whether a group of transitions starts another statement than the one in front of it. -/
def Apart (group next : List Transition) : Prop :=
  ∀ a ∈ group.head?, ∀ b ∈ next.head?, sameStatement a b = false

theorem gather_append (group : List Transition) (first : Transition) {ts : List Transition}
    (h : ∀ t ∈ ts, sameStatement first t = true) (rest : List Transition) :
    groupStatements.gather group first (ts ++ rest) =
      groupStatements.gather (group ++ ts) first rest := by
  induction ts generalizing group with
  | nil => simp
  | cons t ts ih =>
    rw [List.forall_mem_cons] at h
    rw [List.cons_append, groupStatements.gather, if_pos h.1, ih _ h.2, List.append_assoc]
    rfl

/-- Transitions that are in groups are put into these groups. -/
theorem groupStatements_flatten {groups : List (List Transition)}
    (h : ∀ g ∈ groups, IsStatement g) (ha : groups.IsChain Apart) :
    groupStatements groups.flatten = groups := by
  induction groups with
  | nil => rfl
  | cons g groups ih =>
    rw [List.forall_mem_cons] at h
    obtain ⟨⟨first, rest, rfl, hrest⟩, hgroups⟩ := h
    have htail := ih hgroups ha.tail
    rw [List.flatten_cons, List.cons_append, groupStatements, gather_append _ _ hrest]
    cases groups with
    | nil => rfl
    | cons next groups =>
      obtain ⟨⟨first', rest', rfl, -⟩, -⟩ := List.forall_mem_cons.1 hgroups
      have hapart : sameStatement first first' = false := (List.isChain_cons_cons.1 ha).1 _ rfl _ rfl
      rw [List.flatten_cons, List.cons_append] at htail
      simp only [List.flatten_cons, List.cons_append, List.nil_append]
      rw [groupStatements.gather, if_neg (by simp [hapart])]
      exact congrArg _ htail

theorem gather_apart (first : Transition) (rest ts : List Transition) :
    ∃ rest' groups, groupStatements.gather (first :: rest) first ts = (first :: rest') :: groups ∧
      (groupStatements.gather (first :: rest) first ts).IsChain Apart := by
  induction ts generalizing first rest with
  | nil => exact ⟨rest, [], rfl, .singleton _⟩
  | cons t ts ih =>
    rw [groupStatements.gather]
    split
    · exact ih first (rest ++ [t])
    · rename_i hapart
      obtain ⟨rest', groups, heq, hchain⟩ := ih t []
      refine ⟨rest, _, rfl, ?_⟩
      rw [heq] at hchain ⊢
      refine List.isChain_cons_cons.2 ⟨?_, hchain⟩
      rintro a ⟨⟩ b ⟨⟩
      exact Bool.eq_false_iff.2 hapart

/-- Neighbouring statements cannot be one. -/
theorem groupStatements_apart (ts : List Transition) : (groupStatements ts).IsChain Apart := by
  cases ts with
  | nil => exact .nil
  | cons t ts =>
    obtain ⟨-, -, -, hchain⟩ := gather_apart t [] ts
    exact hchain

end Canonical

/-! ## Transitions that have been read back -/

/-- A transition without its destination. -/
def Transition.unled (t : Transition) : Transition := { t with destination := .exit }

/-- Whether transitions of a second controller are equal to those of a first one, and are read back
from the statements of these. -/
structure Reread (c c' : Controller) (layer : Nat) (ts ts' : List Transition) : Prop where
  transitions : ts'.map Transition.unled = (groupStatements ts).flatMap TransitionRule.groupBack
  same : List.Forall₂ (Controller.SameTransition c c' layer) ts ts'

/-- Whether transitions of a second controller are equal to those of a first one, and are read back
from one statement. -/
structure RereadGroup (c c' : Controller) (layer : Nat) (group group' : List Transition) : Prop where
  transitions : group'.map Transition.unled = TransitionRule.groupBack group
  same : List.Forall₂ (Controller.SameTransition c c' layer) group group'

theorem forall₂_append_left {α β : Type} {R : α → β → Prop} {xs xs' : List α} {ys : List β}
    (h : List.Forall₂ R (xs ++ xs') ys) :
    ∃ zs zs', ys = zs ++ zs' ∧ List.Forall₂ R xs zs ∧ List.Forall₂ R xs' zs' := by
  induction xs generalizing ys with
  | nil => exact ⟨[], ys, rfl, .nil, h⟩
  | cons x xs ih =>
    cases h with
    | cons hxy h =>
      obtain ⟨zs, zs', rfl, hzs, hzs'⟩ := ih h
      exact ⟨_ :: zs, zs', rfl, .cons hxy hzs, hzs'⟩

namespace TransitionRule

@[simp]
theorem length_groupBack (group : List Transition) : (groupBack group).length = group.length := by
  cases group <;> simp [groupBack]

/-- Transitions are read back before they are linked. -/
theorem unled_groupBack (group : List Transition) :
    (groupBack group).map Transition.unled = groupBack group := by
  cases group with
  | nil => rfl
  | cons first rest => simp [groupBack, modifiersBack, Transition.unled, Function.comp_def]

end TransitionRule

variable {c c' : Controller} {layer : Nat}

/-- Transitions that have been read back fall into the groups that they were written in. -/
theorem exists_rereadGroups {groups : List (List Transition)} {ts' : List Transition}
    (h : ts'.map Transition.unled = groups.flatMap TransitionRule.groupBack)
    (hs : List.Forall₂ (Controller.SameTransition c c' layer) groups.flatten ts') :
    ∃ groups', ts' = groups'.flatten ∧ List.Forall₂ (RereadGroup c c' layer) groups groups' := by
  induction groups generalizing ts' with
  | nil =>
    cases hs
    exact ⟨[], rfl, .nil⟩
  | cons g groups ih =>
    rw [List.flatten_cons] at hs
    obtain ⟨g', rest, rfl, hg, hrest⟩ := forall₂_append_left hs
    rw [List.flatMap_cons, List.map_append] at h
    obtain ⟨hback, hbacks⟩ := List.append_inj h (by simp [hg.length_eq])
    obtain ⟨groups', rfl, hgroups⟩ := ih hbacks hrest
    exact ⟨g' :: groups', rfl, .cons ⟨hback, hg⟩ hgroups⟩

/-- The conditions of a group, and the modifiers of its first member. -/
theorem RereadGroup.unled {first first' : Transition} {rest rest' : List Transition}
    (h : RereadGroup c c' layer (first :: rest) (first' :: rest')) :
    first'.unled = { TransitionRule.modifiersBack first with
      conditions := first.conditions.map Condition.readBack } ∧
    (first' :: rest').map (·.conditions) =
      (first :: rest).map fun t => t.conditions.map Condition.readBack := by
  have heq : (first' :: rest').map Transition.unled = (first :: rest).map fun t =>
      { TransitionRule.modifiersBack first with
        conditions := t.conditions.map Condition.readBack } := h.transitions
  refine ⟨(List.cons.inj heq).1, ?_⟩
  have hconditions := congrArg (List.map Transition.conditions) heq
  rwa [List.map_map, List.map_map] at hconditions

/-! ## Statements -/

namespace Canonical

theorem condition_readBack (x : Condition) : condition x.readBack = condition x := by
  obtain ⟨parameter, mode, threshold⟩ := x
  cases mode <;> rfl

theorem offset?_offsetBack (x : Single) : offset? (TransitionRule.offsetBack x) = offset? x := by
  unfold TransitionRule.offsetBack
  split
  · rename_i h
    simp +decide [offset?, Binary.isNegative, Binary.isPositive, h]
  · rfl

variable {paths paths' : Controller.NodePaths} {scope : Path} {any : Bool}
  {first first' : Transition} {rest rest' : List Transition}

/-- A statement that has been read back is written as it was. -/
theorem statement_reread (h : RereadGroup c c' layer (first :: rest) (first' :: rest'))
    (hd : destination c' paths' scope first'.destination =
      destination c paths scope first.destination) :
    statement c' paths' scope any first' (first' :: rest') =
      statement c paths scope any first (first :: rest) := by
  obtain ⟨hfirst, hconditions⟩ := h.unled
  have halternatives : (first' :: rest').map (fun t => " && ".intercalate (t.conditions.map condition)) =
      (first :: rest).map (fun t => " && ".intercalate (t.conditions.map condition)) := by
    have hmap := congrArg (List.map fun xs : List Condition => " && ".intercalate (xs.map condition))
      hconditions
    rw [List.map_map, List.map_map] at hmap
    refine hmap.trans (List.map_congr_left fun t _ => ?_)
    simp [Function.comp_def, condition_readBack]
  obtain ⟨destination', conditions', muted', solo', exitTime', duration', fixed', offset',
    interruption', ordered', toSelf'⟩ := first'
  simp only [Transition.unled, TransitionRule.modifiersBack, Transition.mk.injEq] at hfirst
  obtain ⟨-, rfl, rfl, rfl, rfl, rfl, rfl, rfl, rfl, rfl, rfl⟩ := hfirst
  have hduration : wordIf ((if first.duration != .zero || first.fixedDuration then first.duration
        else Binary.zero) != .zero || first.fixedDuration)
      ("fade(" ++ toString (if first.duration != .zero || first.fixedDuration then first.duration
        else Binary.zero) ++ (if first.fixedDuration then "s)" else ")")) =
      wordIf (first.duration != .zero || first.fixedDuration)
        ("fade(" ++ toString first.duration ++ (if first.fixedDuration then "s)" else ")")) := by
    by_cases h : (first.duration != .zero || first.fixedDuration) = true
    · simp only [h, if_true]
    · simp only [Bool.or_eq_true, not_or, Bool.not_eq_true] at h
      simp [h, wordIf]
      decide
  simp only [statement, halternatives, hduration, offset?_offsetBack, List.isEmpty_map] at hd ⊢
  rw [hd]

/-! ### Lists of statements -/

/-- Whether destinations of one controller are told apart like those in their places in the other. -/
def ToldApart (c c' : Controller) (layer : Nat) : Prop :=
  ∀ a a' b b', Controller.SameDestination c c' layer a a' →
    Controller.SameDestination c c' layer b b' → (a = b ↔ a' = b')

/-- Equal transitions are written as one statement together. -/
theorem sameStatement_same (hu : ToldApart c c' layer) {a a' b b' : Transition}
    (ha : Controller.SameTransition c c' layer a a') (hb : Controller.SameTransition c c' layer b b') :
    sameStatement a' b' = sameStatement a b := by
  have hempty {t t' : Transition} (h : Controller.SameTransition c c' layer t t') :
      t'.conditions.isEmpty = t.conditions.isEmpty := by
    have hconditions := ((Transition.beq_iff _ _).1 h.modifiers).2.1
    cases ht : t.conditions <;> cases ht' : t'.conditions <;> simp_all
  simp only [sameStatement, hempty ha, hempty hb]
  congr 1
  have hd := hu _ _ _ _ ha.destination hb.destination
  obtain ⟨-, -, a1, a2, a3, a4, a5, a6, a7, a8, a9⟩ := (Transition.beq_iff _ _).1 ha.modifiers
  obtain ⟨-, -, b1, b2, b3, b4, b5, b6, b7, b8, b9⟩ := (Transition.beq_iff _ _).1 hb.modifiers
  have hper {α : Type} [BEq α] [PartialEquivBEq α] {x x' y y' : α} (hx : (x' == x) = true)
      (hy : (y' == y) = true) : (x' == y') = true ↔ (x == y) = true :=
    ⟨fun h => BEq.trans (BEq.trans (BEq.symm hx) h) hy,
      fun h => BEq.trans (BEq.trans hx h) (BEq.symm hy)⟩
  have htime : (a'.exitTime == b'.exitTime) = true ↔ (a.exitTime == b.exitTime) = true := by
    dsimp only at a3 b3
    generalize a.exitTime = x, a'.exitTime = x', b.exitTime = y, b'.exitTime = y' at a3 b3
    cases x <;> cases x' <;> cases y <;> cases y' <;> simp at a3 b3 ⊢
    exact Bool.eq_iff_iff.2 (hper a3 b3)
  rw [Bool.eq_iff_iff, Transition.beq_iff, Transition.beq_iff]
  dsimp only at *
  rw [a1, a2, a5, a7, a8, a9, b1, b2, b5, b7, b8, b9, htime, hper a4 b4, hper a6 b6, hd]

theorem isChain_forall₂ {α β : Type} {R : α → α → Prop} {S : α → β → Prop} {R' : β → β → Prop}
    (hR : ∀ a a' b b', R a b → S a a' → S b b' → R' a' b') {xs : List α} {ys : List β}
    (h : xs.IsChain R) (hs : List.Forall₂ S xs ys) : ys.IsChain R' := by
  induction hs with
  | nil => exact .nil
  | @cons a a' xs ys ha hs ih =>
    cases hs with
    | nil => exact .singleton _
    | cons hb hs =>
      obtain ⟨hab, hrest⟩ := List.isChain_cons_cons.1 h
      exact List.isChain_cons_cons.2 ⟨hR _ _ _ _ hab ha hb, ih hrest⟩

/-- Transitions that have been read back are put into the groups that they were written in. -/
theorem groups_reread (hu : ToldApart c c' layer) {ts ts' : List Transition}
    (h : Reread c c' layer ts ts') :
    List.Forall₂ (RereadGroup c c' layer) (groupStatements ts) (groupStatements ts') := by
  obtain ⟨hflat, hgroups⟩ := groupStatements_spec ts
  obtain ⟨groups', rfl, hsame⟩ := exists_rereadGroups h.transitions (hflat.symm ▸ h.same)
  rw [groupStatements_flatten]
  · exact hsame
  · intro g' hg'
    obtain ⟨g, hg, hgg'⟩ := exists_forall₂_right hsame hg'
    obtain ⟨first, rest, rfl, hrest⟩ := hgroups g hg
    cases hgg'.same with
    | cons hfirst hsame =>
      refine ⟨_, _, rfl, fun t' ht' => ?_⟩
      obtain ⟨t, ht, htt'⟩ := exists_forall₂_right hsame ht'
      rw [sameStatement_same hu hfirst htt']
      exact hrest t ht
  · refine isChain_forall₂ (fun g g' k k' hgk hg hk => ?_) (groupStatements_apart ts) hsame
    rintro a' ha' b' hb'
    cases hg.same with
    | nil => cases ha'
    | cons ha _ =>
      cases hk.same with
      | nil => cases hb'
      | cons hb _ =>
        obtain rfl := Option.some.inj ha'
        obtain rfl := Option.some.inj hb'
        rw [sameStatement_same hu ha hb]
        exact hgk _ rfl _ rfl

/-- Transitions that have been read back are written as they were. -/
theorem statements_reread (hu : ToldApart c c' layer) {ids ids' : List TransitionId}
    (h : Reread c c' layer (ids.map c.transition) (ids'.map c'.transition))
    (hd : ∀ d d', Controller.SameDestination c c' layer d d' →
      destination c' paths' scope d' = destination c paths scope d) (depth : Nat) :
    statements c' paths' scope any depth ids' = statements c paths scope any depth ids := by
  have hgroups := groups_reread hu h
  unfold statements
  generalize groupStatements (ids.map c.transition) = groups,
    groupStatements (ids'.map c'.transition) = groups' at hgroups
  induction hgroups with
  | nil => simp only [List.filterMap_nil]
  | @cons g g' groups groups' hg _ ih =>
    have hline : (g'.head?.map fun first => Line.text depth (statement c' paths' scope any first g')) =
        g.head?.map fun first => Line.text depth (statement c paths scope any first g) := by
      cases hsame : hg.same with
      | nil => simp only [List.head?_nil, Option.map_none]
      | cons hfirst _ =>
        rw [List.head?_cons, List.head?_cons, Option.map_some, Option.map_some,
          statement_reread hg (hd _ _ hfirst.destination)]
    simp only [List.filterMap_cons, hline, ih]

end Canonical

end MotionScript
