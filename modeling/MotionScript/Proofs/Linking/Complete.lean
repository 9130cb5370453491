import Mathlib.Data.List.Nodup
import MotionScript.Proofs.Linking.Moment
/-!
# Linking is complete

In a document that has been read, every transition that was written with a destination that exists
in its layer is in the list it was written for, once, and nothing else is; for every other one there
is one warning. It does not matter where the destination is declared.
-/

namespace MotionScript

/-! ## Lists -/

namespace Ledger

/-- The linked transitions of a home, in the order in which they were linked. -/
def linksOf (l : Ledger) (home : Home) : List (Pending × Destination) :=
  l.links.filter (·.1.home = home)

theorem ids_lt {l : Ledger} {home : Home} {id : TransitionId} (h : id ∈ l.ids home) :
    id.index < l.links.length := by
  obtain ⟨⟨link, i⟩, hm, rfl⟩ := List.mem_map.1 h
  exact (List.mem_zipIdx' (List.mem_of_mem_filter hm)).1

theorem mem_ids {l : Ledger} {home : Home} {i : Nat} (h : i < l.links.length) :
    ⟨i⟩ ∈ l.ids home ↔ l.links[i].1.home = home := by
  simp only [ids, List.mem_map, List.mem_filter, TransitionId.mk.injEq]
  constructor
  · rintro ⟨⟨link, k⟩, ⟨hm, hh⟩, rfl⟩
    obtain ⟨-, hlink⟩ := List.mem_zipIdx' hm
    simpa [hlink] using hh
  · intro hh
    exact ⟨(l.links[i], i), ⟨by simp [List.mk_mem_zipIdx_iff_getElem?], by simpa using hh⟩, rfl⟩

theorem nodup_ids (l : Ledger) (home : Home) : (l.ids home).Nodup := by
  have hsub : ((l.links.zipIdx.filter fun x => x.1.1.home = home).map Prod.snd).Nodup := by
    refine (List.filter_sublist.map Prod.snd).nodup ?_
    rw [List.zipIdx_map_snd]
    exact List.nodup_range'
  have hmap : l.ids home = ((l.links.zipIdx.filter fun x => x.1.1.home = home).map
      Prod.snd).map TransitionId.mk := by
    rw [List.map_map]; rfl
  rw [hmap]
  exact List.Nodup.map (fun _ _ h => TransitionId.mk.inj h) hsub

end Ledger

theorem Shows.transitionsOf {η : Type} {s : Session η} {l : Ledger} (h : Shows s.wiring l)
    (home : Home) :
    s.controller.transitionsOf home = (l.linksOf home).map fun (p, d) => p.linked d := by
  have hget {link : Pending × Destination} {i : Nat} (hm : (link, i) ∈ l.links.zipIdx) :
      s.controller.transition ⟨i⟩ = link.1.linked link.2 := by
    have hi := List.mk_mem_zipIdx_iff_getElem?.1 hm
    have ht : s.controller.transitions.toList = _ := h.transitions
    rw [Controller.transition, Array.getD_eq_getD_getElem?, ← Array.getElem?_toList, ht,
      List.getElem?_map, hi]
    rfl
  rw [Controller.transitionsOf, ← s.ids_wiring, h.ids, Ledger.ids, Ledger.linksOf, List.map_map]
  have hfst : l.links.filter (·.1.home = home) =
      (l.links.zipIdx.filter fun x => x.1.1.home = home).map Prod.fst := by
    rw [← List.zipIdx_map_fst 0 l.links, List.filter_map, List.zipIdx_map_fst]
    rfl
  rw [hfst, List.map_map]
  refine List.map_congr_left fun x hx => ?_
  exact hget (List.mem_of_mem_filter hx)

/-! ## Documents that have been read -/

variable {η : Type} [Host η]

/-- A document that has been read comes from the last moment of its reading. -/
theorem Document.read_moment {source name : String} {host host' : η} {doc : Document}
    (h : Document.read source name host = (.ok doc, host')) :
    ∃ s : Session η, Moment [] s (Document.calls source name host) ∧
      doc = ⟨s.controller, s.warnings⟩ := by
  refine ⟨_, (Grammar.reached_calls .document Frame.document source _).moment, ?_⟩
  simp only [Document.read] at h
  split at h
  · cases h
  · obtain ⟨hdoc, -⟩ := Prod.mk.inj h
    exact Except.ok.inj hdoc.symm

theorem Document.exists_read {source name : String} {host : η}
    (h : (Document.read source name host).1.isOk = true) :
    ∃ doc host', Document.read source name host = (.ok doc, host') := by
  rcases hr : Document.read source name host with ⟨_ | doc, host'⟩
  · rw [hr] at h; cases h
  · exact ⟨doc, host', rfl⟩

/-- A document that can be read, with what holds of all documents and what can be decided of this
one. -/
theorem Document.exists_read_and {P Q : Document → Prop} [DecidablePred Q] {source name : String}
    {host : η} (hall : ∀ doc host', Document.read source name host = (.ok doc, host') → P doc)
    (h : ((Document.read source name host).1.toOption.any fun doc => Q doc) = true) :
    ∃ doc host', Document.read source name host = (.ok doc, host') ∧ P doc ∧ Q doc := by
  rcases hr : Document.read source name host with ⟨_ | doc, host'⟩
  · rw [hr] at h
    cases h
  · rw [hr] at h
    exact ⟨doc, host', rfl, hall doc host' hr, of_decide_eq_true h⟩

/-- What linking makes of the transitions that a document queues. -/
structure Document.LinkedBy (doc : Document) (j : Journal) : Prop where
  /-- A list holds just the transitions written for it that lead somewhere. -/
  lists : ∀ home, (doc.controller.transitionsOf home).Perm
    ((j.groups.filter (·.home = home)).filterMap fun p => (p.resolve? j.nodes).map p.linked)
  /-- Every transition is in one list, at one place. -/
  once : ∀ i < doc.controller.transitions.size,
    ∃! home, ⟨i⟩ ∈ doc.controller.transitionIds home
  nodup : ∀ home, (doc.controller.transitionIds home).Nodup
  within : ∀ home, ∀ id ∈ doc.controller.transitionIds home,
    id.index < doc.controller.transitions.size
  /-- There is one warning for each transition that leads nowhere. -/
  warned : ((doc.warnings.filter Diagnostic.isDrop).map Diagnostic.place?).Perm
    ((j.groups.filter fun p => p.resolve? j.nodes = none).map fun p => some p.place)

/-- The fate of a transition does not depend on the machine it waits for. -/
theorem Journal.groups_filterMap {α : Type} {j : Journal} {a : Spot} (h : Written a j)
    (ha : a.machines = []) (f : Pending → Option α) (hf : ∀ p, f p.unowned = f p) :
    (j.groups.filterMap f).Perm
      ((j.ledger.links.map (·.1) ++ j.ledger.dropped).filterMap f) := by
  have hacc := h.accounts
  have hpending : j.ledger.pending = [] := by
    refine List.eq_nil_iff_forall_not_mem.2 fun p hp => ?_
    have hm := (hacc.pending p hp).1
    rw [ha] at hm
    cases hm
  have hmap (ps : List Pending) : ps.filterMap f = (ps.map Pending.unowned).filterMap f := by
    rw [List.filterMap_map]
    exact List.filterMap_congr fun p _ => (hf p).symm
  rw [hmap, hmap (_ ++ _)]
  refine List.Perm.filterMap f ?_
  simpa [Ledger.all, hpending] using hacc.all

omit [Host η] in
theorem Shows.linkedBy {s : Session η} {j : Journal} {a : Spot} (h : Shows s.wiring j.ledger)
    (hw : Written a j) (ha : a.machines = []) :
    Document.LinkedBy ⟨s.controller, s.warnings⟩ j := by
  have hacc := hw.accounts
  have hlinks : ∀ link ∈ j.ledger.links, link.1.resolve? j.nodes = some link.2 :=
    hacc.nodes ▸ hacc.links
  have hdropped : ∀ p ∈ j.ledger.dropped, p.resolve? j.nodes = none :=
    hacc.nodes ▸ fun p hp => (hacc.dropped p hp).1
  have hsize : s.controller.transitions.size = j.ledger.links.length := by
    rw [← Array.length_toList, show s.controller.transitions.toList = _ from h.transitions,
      List.length_map]
  have hids (home : Home) : s.controller.transitionIds home = j.ledger.ids home :=
    (s.ids_wiring home).symm.trans (h.ids home)
  refine ⟨?_, ?_, ?_, ?_, ?_⟩
  · intro home
    rw [h.transitionsOf, List.filterMap_filter]
    refine .trans ?_ (Journal.groups_filterMap hw ha _ fun p => rfl).symm
    have hnone : j.ledger.dropped.filterMap (fun p =>
        if decide (p.home = home) = true then (p.resolve? j.nodes).map p.linked else none) = [] := by
      refine List.filterMap_eq_nil_iff.2 fun p hp => ?_
      simp [hdropped p hp]
    rw [List.filterMap_append, hnone, List.append_nil, List.filterMap_map, Ledger.linksOf,
      ← List.filterMap_eq_map, List.filterMap_filter]
    refine .of_eq (List.filterMap_congr fun link hl => ?_)
    simp [hlinks link hl]
  · intro i hi
    rw [hsize] at hi
    simp only [hids, Ledger.mem_ids hi]
    exact ⟨_, rfl, fun home h => h.symm⟩
  · intro home
    simp only [hids]
    exact Ledger.nodup_ids _ home
  · intro home id hid
    simp only [hids] at hid
    rw [hsize]
    exact Ledger.ids_lt hid
  · rw [show (s.warnings.filter Diagnostic.isDrop).map Diagnostic.place? = _ from h.dropped,
      ← List.filterMap_eq_map, List.filterMap_filter]
    refine .trans ?_ (Journal.groups_filterMap hw ha _ fun p => rfl).symm
    have hnone : (j.ledger.links.map (·.1)).filterMap (fun p =>
        if decide (p.resolve? j.nodes = none) = true then (some ∘ fun p => some p.place) p else none)
        = [] := by
      refine List.filterMap_eq_nil_iff.2 fun p hp => ?_
      obtain ⟨link, hl, rfl⟩ := List.mem_map.1 hp
      simp [hlinks link hl]
    rw [List.filterMap_append, hnone, List.nil_append]
    refine .of_eq (List.filterMap_congr fun p hp => ?_)
    simp [hdropped p hp]

end MotionScript
