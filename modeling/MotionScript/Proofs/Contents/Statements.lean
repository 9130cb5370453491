import MotionScript.Proofs.Linking.Turn
/-!
# What statements queue

A condition without a comparison has no threshold, and an absolute destination has segments, at every
moment at which a statement is read. So the transitions that it queues have this too.
-/

namespace MotionScript

/-- Whether the threshold of a condition says nothing that its mode does not use. -/
def Condition.Plain (c : Condition) : Prop :=
  c.mode = .holds ∨ c.mode = .fails → c.threshold.isZero = true

namespace TransitionRule

/-- What is true of a statement while it is read. -/
structure Sane (r : TransitionRule) : Prop where
  groups : ∀ g ∈ r.groups, ∀ c ∈ g, c.Plain
  expect : Expectable r.expect
  goto : ∀ segments, r.goto = some (.absolute segments) → segments ≠ []

namespace Sane

variable {r : TransitionRule}

theorem expecting (h : r.Sane) {x : TransitionExpect} (hx : Expectable x) : (r.expecting x).Sane :=
  ⟨h.groups, hx, h.goto⟩

theorem modified (h : r.Sane) (f : Transition → Transition) : (r.modified f).Sane :=
  ⟨h.groups, trivial, h.goto⟩

theorem openGroup (h : r.Sane) : r.openGroup.Sane := by
  refine ⟨fun g hg => ?_, h.expect, h.goto⟩
  rcases List.mem_append.1 hg with hg | hg
  · exact h.groups g hg
  · rw [List.mem_singleton.1 hg]
    exact fun c hc => absurd hc List.not_mem_nil

theorem addCondition {groups : List (List Condition)} (h : ∀ g ∈ groups, ∀ c ∈ g, c.Plain)
    {c : Condition} (hc : c.Plain) : ∀ g ∈ TransitionRule.addCondition groups c, ∀ c ∈ g, c.Plain := by
  induction groups with
  | nil => exact h
  | cons group groups ih =>
    rw [List.forall_mem_cons] at h
    cases groups with
    | nil =>
      rw [TransitionRule.addCondition, List.forall_mem_singleton]
      exact List.forall_mem_append.2 ⟨h.1, by rwa [List.forall_mem_singleton]⟩
    | cons next groups => exact List.forall_mem_cons.2 ⟨h.1, ih h.2⟩

theorem commit (h : r.Sane) {c : Condition} (hc : c.Plain) : (r.commit c).Sane :=
  ⟨addCondition h.groups hc, trivial, h.goto⟩

end Sane

/-- A token that does not end a statement leaves it sane. -/
theorem Sane.look {r : TransitionRule} (h : r.Sane) {e : Event} {l : Look} (hl : r.look e = .ok l) :
    l.rule.Sane := by
  have hexpect := h.expect
  cases look_advance hl with
  | expect hx => exact h.expecting hx
  | alternative => exact h.openGroup.expecting trivial
  | bracket _ hx => exact ⟨h.groups, hx, h.goto⟩
  | any => exact ⟨h.groups, hexpect, h.goto⟩
  | modify f => exact h.modified f
  | modifyFirst f hx => exact (h.modified f).expecting hx
  | compare hx x =>
    rw [hx] at hexpect
    exact h.commit fun hmode => absurd hmode (not_or.2 hexpect)
  | exit => exact ⟨h.groups, hexpect, nofun⟩
  | test _ parameter mode =>
    have hzero : (Binary.zero : Single).isZero = true := by decide
    exact h.commit fun _ => hzero
  | complete _ hx =>
    refine h.expecting ?_
    obtain rfl | rfl := hx <;> exact trivial
  | lead hx hg =>
    rw [hx] at hexpect
    refine ⟨h.groups, trivial, fun segments' hs => ?_⟩
    rw [hg segments' (Option.some.inj hs)]
    exact hexpect

theorem Sane.begun {r : TransitionRule} (h : r.Sane) (e : Event) : (r.begun e).Sane :=
  ⟨h.groups, h.expect, h.goto⟩

theorem Sane.leads {r q : TransitionRule} (h : r.Sane) {e : Event} (hleads : Leads e r q) :
    q.Sane := by
  induction hleads with
  | refl r => exact h
  | look hl _ ih => exact ih (h.look hl)

/-- The transitions of a statement have plain conditions, and paths below the machine of a layer. -/
theorem Sane.queued {r : TransitionRule} (h : r.Sane) {c : Controller} {scope : Scope}
    {start : Span × Position} {p : Pending} (hp : p ∈ r.queued c scope start) :
    (∀ x ∈ p.transition.conditions, x.Plain) ∧
      ∀ path, p.target = .node path → scope.path.segments ≠ [] → 2 ≤ path.depth := by
  obtain ⟨conditions, hc, rfl⟩ := List.mem_map.1 hp
  refine ⟨?_, fun path ht hpath => ?_⟩
  · split at hc
    · rw [List.mem_singleton.1 hc]
      exact fun x hx => absurd hx List.not_mem_nil
    · exact h.groups conditions hc
  · have hdepth : 1 ≤ scope.path.depth := List.length_pos_iff.2 hpath
    dsimp only at ht
    unfold target at ht
    split at ht
    · cases ht
    · cases ht
      simp [Path.join, Path.depth] at hdepth ⊢
      omega
    · rename_i segments hgoto
      cases ht
      have hlength := List.length_pos_iff.2 (h.goto segments hgoto)
      simp only [Path.depth, List.length_append, List.length_take] at hdepth ⊢
      omega
    · split at ht
      · cases ht
        simp [Path.join, Path.depth] at hdepth ⊢
        omega
      · cases ht

theorem Sane.queuedBy {r : TransitionRule} (h : r.Sane) {c : Controller} {e : Event} {p : Pending}
    (hp : p ∈ r.queuedBy c e) : ∃ scope, r.scope = some scope ∧
      (∀ x ∈ p.transition.conditions, x.Plain) ∧
        ∀ path, p.target = .node path → scope.path.segments ≠ [] → 2 ≤ path.depth := by
  unfold TransitionRule.queuedBy at hp
  split at hp
  · rename_i q hq
    split at hp
    · rename_i scope hs
      obtain ⟨hleads, -⟩ := ended?_leads hq
      exact ⟨scope, hleads.keeps.1.symm.trans hs, ((h.begun e).leads hleads).queued hp⟩
    · cases hp
  · cases hp

end TransitionRule

end MotionScript
