import MotionScript.Proofs.Feeding.Layers
import MotionScript.Proofs.Feeding.Parameters
import MotionScript.Proofs.Images.Reading
import MotionScript.Proofs.Linking.Moment
import MotionScript.Proofs.Ownership.Reading
/-!
# Reading canonical texts

The canonical text of a controller is read without a failure: its parameters, its layers with all
that is nested in them, and at the end which layer follows which.
-/

namespace MotionScript

/-! ## Layers that follow other ones -/

/-- A layer that follows another one, or none. -/
def Layer.following (l : Layer) (followed : Option Nat) : Layer := { l with synced := followed }

/-- An outline with other layers. -/
def Outline.withLayers (o : Outline) (layers : List Layer) : Outline :=
  { o with controller := { o.controller with layers := layers.toArray } }

theorem Outline.withLayers_of_eq {o : Outline} {layers : List Layer}
    (h : o.controller.layers.toList = layers) : o.withLayers layers = o := by
  rw [withLayers, ← h]

section Syncs

variable {c : Controller}

/-- The first layer with the name of a layer is this layer. -/
theorem findIdx?_name {xs : Array Layer} (hn : (c.layers.toList.map (·.name)).Nodup)
    (hx : xs.toList.map (·.name) = c.layers.toList.map (·.name)) {i : Nat} {l : Layer}
    (hl : c.layers[i]? = some l) : xs.findIdx? (·.name = l.name) = some i := by
  have hname : (xs.toList.map (·.name))[i]? = some l.name := by
    rw [hx]
    simp [hl]
  obtain ⟨hi, hxi⟩ := List.getElem?_eq_some_iff.1 hname
  rw [List.length_map, Array.length_toList] at hi
  rw [List.getElem_map, Array.getElem_toList] at hxi
  refine Array.findIdx?_eq_some_iff_getElem.2 ⟨hi, by simpa using hxi, fun j hj => ?_⟩
  have hne := List.pairwise_iff_getElem.1 (hx ▸ hn) j i (by simp; omega) (by simpa using hi) hj
  simp only [List.getElem_map, Array.getElem_toList] at hne
  simpa [← hxi] using hne

/-- Layers are linked to the layers that they followed when they were written. -/
theorem Session.outline_foldl_linkSync (hn : (c.layers.toList.map (·.name)).Nodup)
    {ls : List Layer} (hle : ∀ l ∈ ls, ∀ i, l.synced = some i → i < c.layers.size)
    {syncs : List (Nat × NameUse)} {n : Nat} {done todo : List Layer} {η : Type} [Host η]
    {s : Session η}
    (hs : syncs.map (fun (layer, use) => (layer, use.name)) =
      (ls.zipIdx n).flatMap fun (l, i) => c.syncOf i l)
    (hlayers : s.outline.controller.layers.toList = done ++ todo) (hdone : done.length = n)
    (hlength : todo.length = ls.length) (hfree : ∀ l ∈ todo, l.synced = none)
    (hnames : (done ++ todo).map (·.name) = c.layers.toList.map (·.name)) :
    (syncs.foldl (fun s (layer, use) => s.linkSync layer use) s).outline =
      s.outline.withLayers (done ++ List.zipWith (fun x l => x.following l.synced) todo ls) := by
  induction ls generalizing syncs n done todo s with
  | nil =>
    obtain rfl : syncs = [] := by simpa using hs
    obtain rfl : todo = [] := List.length_eq_zero_iff.1 hlength
    exact (Outline.withLayers_of_eq hlayers).symm
  | cons l ls ih =>
    obtain ⟨x, todo, rfl⟩ : ∃ x xs, todo = x :: xs := List.exists_cons_of_length_eq_add_one hlength
    rw [List.forall_mem_cons] at hle hfree
    have hs : syncs.map (fun (layer, use) => (layer, use.name)) =
        c.syncOf n l ++ (ls.zipIdx (n + 1)).flatMap fun (l, i) => c.syncOf i l := hs
    -- The layer in front is linked first.
    have hrest (syncs : List (Nat × NameUse)) (t : Session η)
        (hs : syncs.map (fun (layer, use) => (layer, use.name)) =
          (ls.zipIdx (n + 1)).flatMap fun (l, i) => c.syncOf i l)
        (ht : t.outline = s.outline.withLayers (done ++ x.following l.synced :: todo)) :
        (syncs.foldl (fun s (layer, use) => s.linkSync layer use) t).outline =
          s.outline.withLayers (done ++ List.zipWith (fun x l => x.following l.synced) (x :: todo)
            (l :: ls)) := by
      have hnames' : ((done ++ [x.following l.synced]) ++ todo).map (·.name) =
          c.layers.toList.map (·.name) := by
        rw [← hnames]
        simp [Layer.following]
      rw [ih hle.2 hs (by rw [ht]; simp [Outline.withLayers]) (by simp [hdone])
        (Nat.succ.inj hlength) hfree.2 hnames', ht]
      simp [Outline.withLayers]
    cases hl : l.synced with
    | none =>
      rw [Controller.syncOf, hl] at hs
      refine hrest syncs s hs (Outline.withLayers_of_eq ?_).symm
      rw [hlayers, hl, Layer.following, ← hfree.1]
    | some i =>
      obtain ⟨followed, hget⟩ : ∃ l, c.layers[i]? = some l :=
        ⟨_, Array.getElem?_eq_getElem (hle.1 i hl)⟩
      rw [Controller.syncOf, hl, Option.bind_some, hget] at hs
      obtain ⟨⟨layer, use⟩, syncs, rfl⟩ : ∃ y ys, syncs = y :: ys := by
        cases syncs with
        | nil => cases hs
        | cons y ys => exact ⟨y, ys, rfl⟩
      obtain ⟨hhead, htail⟩ := List.cons.inj hs
      obtain ⟨rfl, huse⟩ := Prod.mk.inj hhead
      rw [List.foldl_cons]
      refine hrest syncs _ htail ?_
      have hfind : s.outline.controller.layers.findIdx? (·.name = use.name) = some i := by
        have huse : use.name = followed.name := huse
        rw [huse]
        exact findIdx?_name hn (by rw [hlayers, hnames]) hget
      rw [s.outline_linkSync hfind]
      have hmodify : s.outline.controller.layers.modify layer ({ · with synced := some i }) =
          (done ++ x.following l.synced :: todo).toArray := by
        apply Array.toList_inj.1
        rw [Array.toList_modify, hlayers, ← hdone, Value.modify_length, hl]
        rfl
      simp only [Controller.modifyLayer, hmodify]
      rfl

end Syncs

/-! ## Documents -/

namespace Controller

/-- Whether a controller can be written: it is a forest, names tell nodes apart, numbers are finite,
references can be resolved, records are of known types, and what the text has no words for is at its
default. -/
structure Writable (c : Controller) (registry : Registry) : Prop
    extends TreeWritable c registry where
  parameters : ∀ p ∈ c.parameters, p.Writable
  parameterNames : (c.parameters.map (·.name)).Nodup
  layers : ∀ l ∈ c.layers, c.LayerWritable l
  layerNames : (c.layers.toList.map (·.name)).Nodup

/-- What is declared and ends while the canonical text of a controller is read. -/
def walk (c : Controller) : Journal :=
  c.layers.toList.zipIdx.flatMap fun (l, i) => c.walkLayer i l

/-- What is known of the session in which a written controller has been read back. `roots` are the
machines of its layers. -/
structure ReadBack (c : Controller) {η : Type} [Host η] (s : Session η) (j : Journal)
    (roots : List MachineId) : Prop where
  name : s.controller.name = c.name
  parameters : s.controller.parameters = c.parameters
  layers : s.controller.layers.toList =
    List.zipWith (fun l id => (l.readBack id).following l.synced) c.layers.toList roots
  warnings : s.warnings.filter (!·.isDrop) = []
  walk : List.Forall₂ (ReadEntry c s.outline) c.walk j.walk
  homes : ∀ p ∈ j.groups, s.controller.Has p.home.node
  trees : List.Forall₂ (fun (l, i) id =>
    ReadTree c i s.outline (j.groups.map Pending.bare) l.machine id) c.layers.toList.zipIdx roots

end Controller

/-- The outline in front of the first token. -/
def Outline.start (name : String) : Outline where
  controller := { name }
  symbols := #[]
  syncs := []
  warnings := []

/-- The outline behind the parameters. -/
def Outline.declared (c : Controller) : Outline :=
  { Outline.start c.name with
    controller := { name := c.name, parameters := c.parameters } }

variable {c : Controller} {host : MemoryHost}

/-- The lines of a document are read one after another. -/
theorem Keeps.document {registry : Registry} (h : c.Writable registry) :
    ∃ o gs roots w, Keeps (.rootless registry) (Canonical.lines c) (· = .document) (.start c.name) o
        ⟨gs, w⟩ ∧
      (Outline.declared c).GrowsBy o (List.zipWith Layer.readBack c.layers.toList roots)
        (c.layers.toList.zipIdx.flatMap fun (l, i) => c.syncOf i l) gs ∧
      ∀ O G, (Outline.declared c).Kept o gs O G →
        List.Forall₂ (fun (l, i) id => ReadTree c i O G l.machine id) c.layers.toList.zipIdx roots ∧
        List.Forall₂ (ReadEntry c O) c.walk w := by
  have hparameters : Keeps (.rootless registry)
      (c.parameters.map fun p => .text 0 (Canonical.parameter p)) (· = .document) (.start c.name) (.declared c) {} :=
    Keeps.parameters (o := .start c.name) h.parameters h.parameterNames
  have hall : c.layers.toList.drop 0 = c.layers.toList := rfl
  obtain ⟨o, gs, roots, w, hlayers, hgrows, htrees⟩ :=
    Keeps.layers h.toTreeWritable hall (fun l hl => h.layers l (Array.mem_def.2 hl))
      (o := .declared c) rfl rfl
  refine ⟨o, gs, roots, w, ?_, hgrows, htrees⟩
  obtain ⟨ps, hspells, hleads⟩ := hparameters.append hlayers
  refine ⟨ps, ?_, hleads⟩
  have hset : Spells ((c.parameters.map fun p => .text 0 (Canonical.parameter p)) ++
      ((c.layers.toList.map (Canonical.layer c c.nodePaths)).flatten ++ [])) ps := by
    rw [List.append_nil, ← List.flatMap_def]
    exact hspells
  have := hset.setApart
  rw [List.append_nil] at this
  exact this

/-- The layers are linked once all of them are known. -/
theorem Outline.GrowsBy.outline_linkSyncs {registry : Registry} (h : c.Writable registry)
    {o o' : Outline} {roots : List MachineId} {gs : List Pending}
    (hlength : roots.length = c.layers.size)
    (hstart : o.controller.layers = #[] ∧ o.syncs = [])
    (hg : o.GrowsBy o' (List.zipWith Layer.readBack c.layers.toList roots)
      (c.layers.toList.zipIdx.flatMap fun (l, i) => c.syncOf i l) gs)
    {η : Type} [Host η] {s : Session η} (hs : s.outline = o') :
    s.linkSyncs.outline = ({ o' with syncs := [] } : Outline).withLayers
      (List.zipWith (fun l id => (l.readBack id).following l.synced) c.layers.toList roots) := by
  have hlayers : s.outline.controller.layers.toList =
      [] ++ List.zipWith Layer.readBack c.layers.toList roots := by
    rw [hs, hg.layers_eq, hstart.1]
  have hsyncs : s.syncs.map (fun (layer, use) => (layer, use.name)) =
      c.layers.toList.zipIdx.flatMap fun (l, i) => c.syncOf i l := by
    show s.outline.syncs = _
    rw [hs, hg.syncs_eq, hstart.2, List.nil_append]
  have hlength' : c.layers.toList.length = roots.length := by rw [hlength, Array.length_toList]
  have hnames : (List.zipWith Layer.readBack c.layers.toList roots).map (·.name) =
      c.layers.toList.map (·.name) := by
    refine List.ext_getElem (by simp [hlength']) fun i _ _ => ?_
    simp [Layer.readBack]
  have hlinked := Session.outline_foldl_linkSync (s := { s with syncs := [] }) h.layerNames
    (fun l hl => (h.layers l (Array.mem_def.2 hl)).synced) hsyncs hlayers rfl
    (by simp [hlength']) (fun l hl => ?_) hnames
  · have hfollow : List.zipWith (fun x l => x.following l.synced)
        (List.zipWith Layer.readBack c.layers.toList roots) c.layers.toList =
          List.zipWith (fun l id => (l.readBack id).following l.synced) c.layers.toList roots := by
      refine List.ext_getElem (by simp [hlength']) fun i _ _ => ?_
      simp
    rw [List.nil_append, hfollow] at hlinked
    subst hs
    exact hlinked
  · obtain ⟨i, hi, rfl⟩ := List.getElem_of_mem hl
    rw [List.getElem_zipWith]
    rfl

/-- The lists that transitions were queued for exist in a session with the nodes of the outline. -/
theorem Outline.GrowsBy.has_home {o o' : Outline} {layers : List Layer}
    {syncs : List (Nat × String)} {gs : List Pending} (hg : o.GrowsBy o' layers syncs gs) {η : Type}
    {s : Session η} (hmachines : s.outline.controller.machines = o'.controller.machines)
    (hstates : s.outline.controller.states = o'.controller.states) {g : Pending} (hmem : g ∈ gs) :
    s.controller.Has g.home.node := by
  have hm : o'.controller.machines.size = s.controller.machines.size :=
    hmachines ▸ s.controller.size_unlinked_machines
  have hs : o'.controller.states.size = s.controller.states.size :=
    hstates ▸ s.controller.size_unlinked_states
  have hhome := hg.homes g hmem
  cases hh : g.home with
  | entry m | any m =>
    rw [hh] at hhome
    exact Nat.lt_of_lt_of_eq hhome.2 hm
  | state st =>
    rw [hh] at hhome
    exact Nat.lt_of_lt_of_eq hhome.2 hs

namespace Document

variable {name : String} {s : Session MemoryHost} {j : Journal}

/-- A document that the rules read up to its end is read without a failure. -/
theorem read_of_feeds (source : String) (hlex : (Lexer.tokenize .document source).failure = none)
    (h : Feeds (Event.ofTokens (Lexer.tokenize .document source).tokens) [.document]
      (Document.start name host).session [.document] s j) :
    Document.read source name host = (.ok ⟨s.linkSyncs.controller, s.linkSyncs.warnings⟩,
        s.linkSyncs.host) ∧
      (Grammar.document MemoryHost).Reached .document { controller := { name }, host } []
        s.linkSyncs (Document.calls source name host) ∧
      Document.journal source name host = j := by
  obtain ⟨⟨p, hfeed⟩, hcalls⟩ := h.feed ⟨0, 0⟩
  have hrun : Document.run source name host = ⟨[.document], s, p, none⟩ :=
    (Document.run_eq_feed hlex name host).trans hfeed
  have hfinish : (Document.run source name host).finish = s.linkSyncs := by
    rw [hrun]
    rfl
  refine ⟨?_, ?_, ?_⟩
  · rw [Document.read_eq, hfinish, hrun]
  · have hparse : ((Grammar.document MemoryHost).parse .document Frame.document source
        { controller := { name }, host }).2 = s.linkSyncs :=
      (Grammar.unwind_session _ _ _ _).trans hfinish
    rw [← hparse]
    exact Grammar.reached_calls .document Frame.document source _
  -- The end of the document links layers and tells nothing.
  · have hcalls' : Document.calls source name host =
        .attach .document { controller := { name }, host } ::
          ((Grammar.document MemoryHost).feedCalls
              (Event.ofTokens (Lexer.tokenize .document source).tokens) [.document]
              (Document.start name host).session ++
            (Grammar.document MemoryHost).unwindCalls (Document.run source name host).stack
              (Document.run source name host).session) := rfl
    rw [Document.journal, hcalls', hrun, List.flatMap_cons, List.flatMap_append]
    exact (List.append_nil _).trans hcalls

end Document

/-- The canonical text of a controller that can be written is read back. -/
theorem Controller.Writable.exists_readBack (h : c.Writable host.registry)
    (hroot : host.assetRoot = none) :
    ∃ s : Session MemoryHost,
      Document.read c.canonicalText c.name host = (.ok ⟨s.controller, s.warnings⟩, s.host) ∧
      (Grammar.document MemoryHost).Reached .document { controller := { name := c.name }, host } []
        s (Document.calls c.canonicalText c.name host) ∧
      ∃ roots, c.ReadBack s (Document.journal c.canonicalText c.name host) roots := by
  obtain ⟨o, gs, roots, w, ⟨ps, hspells, hleads⟩, hgrows, htrees⟩ := Keeps.document h
  obtain ⟨hlex, hreads⟩ := hspells.reads
  have hstart : (Document.start c.name host).session.outline = .start c.name := by
    simp [Document.start, Frame.onAttach, Session.outline, Session.persist, Controller.unlinked,
      Outline.start, Host.persist]
  have hholds : (Knowledge.rootless host.registry).Holds (Document.start c.name host).session.host :=
    MemoryHost.rootless hroot
  obtain ⟨s, j, hfeeds, ho, hj⟩ := hleads .document [] rfl _ _ _ hreads hholds hstart
  obtain ⟨hread, hreached, hjournal⟩ := Document.read_of_feeds c.canonicalText hlex hfeeds
  refine ⟨s.linkSyncs, hread, hreached, roots, ?_⟩
  obtain ⟨hgroups, hwalk⟩ := Told.mk.inj hj
  have hlength : roots.length = c.layers.size := by
    have := (htrees o gs (.refl _ _ _)).1.length_eq
    rw [List.length_zipIdx, Array.length_toList] at this
    exact this.symm
  have hlinked := hgrows.outline_linkSyncs h hlength ⟨rfl, rfl⟩ ho
  have hkept : (Outline.declared c).Kept o gs s.linkSyncs.outline gs := by
    rw [hlinked]
    exact ⟨⟨.refl _ _ _, .refl _ _ _, .refl _ _ _, .refl _ _ _, fun _ _ _ hn => hn⟩,
      fun _ _ => rfl⟩
  obtain ⟨hroots, hentries⟩ := htrees _ _ hkept
  rw [hjournal]
  refine ⟨?_, ?_, ?_, ?_, hwalk ▸ hentries, fun p hp => ?_, hgroups ▸ hroots⟩
  · show s.linkSyncs.outline.controller.name = _
    rw [hlinked]
    exact congrArg (·.controller.name) hgrows.frame
  · show s.linkSyncs.outline.controller.parameters = _
    rw [hlinked]
    exact congrArg (·.controller.parameters) hgrows.frame
  · show s.linkSyncs.outline.controller.layers.toList = _
    rw [hlinked]
    rfl
  · show s.linkSyncs.outline.warnings = _
    rw [hlinked]
    exact congrArg (·.warnings) hgrows.frame
  · exact hgrows.has_home (g := p.bare) (by rw [hlinked]; rfl) (by rw [hlinked]; rfl)
      (hgroups ▸ List.mem_map_of_mem hp)

end MotionScript
