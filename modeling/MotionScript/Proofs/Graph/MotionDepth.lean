import Mathlib.Data.Fintype.Card
import MotionScript.Proofs.Graph.Motions
/-!
# How deep motions nest

Blend trees that hold each other have no end, and no text. What has one nests no more trees than the
controller has motions, so following that many finds all of it.
-/

namespace MotionScript.Controller

variable {c : Controller} {finds : String → Prop} {depth depth' : Nat} {motion : Option MotionId}

theorem lt_size_of_tree {id : MotionId} {t : BlendTree} (h : c.motion id = .tree t) :
    id.index < c.motions.size := by
  by_contra hsize
  have hnone : c.motions[id.index]? = none := Array.getElem?_eq_none (Nat.not_lt.1 hsize)
  rw [Controller.motion, Array.getD_eq_getD_getElem?, hnone] at h
  cases h

theorem MotionWritableFor.mono (h : c.MotionWritableFor finds depth motion) (hd : depth ≤ depth') :
    c.MotionWritableFor finds depth' motion := by
  induction h generalizing depth' with
  | empty => exact .empty depth'
  | clip _ h hr => exact .clip depth' h hr
  | tree h ht hs _ ih =>
    obtain ⟨d, rfl⟩ := Nat.exists_eq_add_of_lt hd
    exact .tree h ht hs fun m hm => ih m hm (Nat.le_add_right _ _)

/-- Whether a motion nests so many trees, and no fewer. -/
structure Nests (c : Controller) (finds : String → Prop) (depth : Nat) (motion : Option MotionId) :
    Prop where
  writable : c.MotionWritableFor finds depth motion
  least : ∀ d < depth, ¬c.MotionWritableFor finds d motion

namespace Nests

theorem unique (h : c.Nests finds depth motion) (h' : c.Nests finds depth' motion) :
    depth = depth' := by
  rcases Nat.lt_trichotomy depth depth' with hlt | heq | hlt
  · exact absurd h.writable (h'.least depth hlt)
  · exact heq
  · exact absurd h'.writable (h.least depth' hlt)

/-- A motion that nests trees is one, and one of its children nests one tree fewer. -/
theorem exists_child (h : c.Nests finds (depth + 1) motion) :
    (∃ id, motion = some id ∧ id.index < c.motions.size) ∧ ∃ child, c.Nests finds depth child := by
  obtain ⟨hwritable, hleast⟩ := h
  cases hwritable with
  | empty => exact absurd (.empty 0) (hleast 0 (Nat.succ_pos depth))
  | clip _ hc hr => exact absurd (.clip 0 hc hr) (hleast 0 (Nat.succ_pos depth))
  | @tree _ id t ht hw hs hm =>
    refine ⟨⟨id, rfl, lt_size_of_tree ht⟩, ?_⟩
    cases depth with
    | zero => exact ⟨none, .empty 0, fun d hd => absurd hd (Nat.not_lt_zero d)⟩
    | succ depth =>
      by_contra hnone
      -- Then every child nests fewer trees, and so does the motion.
      have hfewer : ∀ m ∈ t.children, c.MotionWritableFor finds depth m.motion := by
        intro m hmem
        by_contra hdeep
        refine hnone ⟨m.motion, hm m hmem, fun d hd hw' => hdeep ?_⟩
        exact hw'.mono (Nat.le_of_lt_succ hd)
      exact hleast (depth + 1) (Nat.lt_succ_self _) (.tree ht hw hs hfewer)

/-- For every number of trees up to the depth of a motion there is one that nests so many. -/
theorem exists_between (h : c.Nests finds depth motion) :
    ∀ d < depth, ∃ id : MotionId, id.index < c.motions.size ∧ c.Nests finds (d + 1) (some id) := by
  induction depth generalizing motion with
  | zero => exact fun d hd => absurd hd (Nat.not_lt_zero d)
  | succ depth ih =>
    obtain ⟨⟨id, rfl, hid⟩, child, hchild⟩ := h.exists_child
    intro d hd
    rcases Nat.lt_succ_iff_lt_or_eq.1 hd with hd | rfl
    · exact ih hchild d hd
    · exact ⟨id, hid, h⟩

theorem le_size (h : c.Nests finds depth motion) : depth ≤ c.motions.size := by
  choose id hid hnests using h.exists_between
  let f : Fin depth → Fin c.motions.size := fun d => ⟨(id d d.isLt).index, hid d d.isLt⟩
  have hf : Function.Injective f := by
    intro d d' heq
    have hsame : id d d.isLt = id d' d'.isLt := congrArg MotionId.mk (congrArg Fin.val heq)
    have hd := hnests d d.isLt
    rw [hsame] at hd
    exact Fin.ext (Nat.succ.inj (hd.unique (hnests d' d'.isLt)))
  simpa only [Fintype.card_fin] using Fintype.card_le_of_injective f hf

end Nests

/-- A motion that can be written at all can be written by following as many trees as there are
motions. -/
theorem MotionWritableFor.all (h : c.MotionWritableFor finds depth motion) :
    c.MotionWritableFor finds c.motions.size motion := by
  classical
  have hexists : ∃ d, c.MotionWritableFor finds d motion := ⟨depth, h⟩
  have hnests : c.Nests finds (Nat.find hexists) motion :=
    ⟨Nat.find_spec hexists, fun _ hd => Nat.find_min hexists hd⟩
  exact hnests.writable.mono hnests.le_size

end MotionScript.Controller
