import MotionScript.Proofs.Contents.Transitions
import MotionScript.Proofs.Graph.Motions
import MotionScript.Proofs.Reports.FirstError
import MotionScript.Proofs.Reports.Labels
/-!
# What parsed graphs are made of

Parameters have values of their kinds, and masks and clips are what the host has found for references
of their kinds.
-/

namespace MotionScript

variable {η : Type} [Host η]

/-! ## What rules leave alone -/

namespace Controller

def withoutParameters (c : Controller) : Controller := { c with parameters := [] }

def withoutLayers (c : Controller) : Controller := { c with layers := #[], machines := #[] }

def withoutNodes (c : Controller) : Controller := { c with machines := #[], states := #[] }

def withoutMotions (c : Controller) : Controller := { c with motions := #[] }

def withoutRecords (c : Controller) : Controller :=
  { c with machines := #[], states := #[], records := #[] }

end Controller

section Rest

variable {e : Event} {s s' : Session η} {control : Control Frame}

theorem ParameterRule.declare_rest (s : Session η) (d : Declaration) :
    (declare s d).controller.withoutParameters = s.controller.withoutParameters := by
  unfold declare
  split
  · rfl
  · split
    · rename_i c hc
      unfold Controller.addParameter? at hc
      split at hc <;> cases hc
      rfl
    · rfl

theorem ParameterRule.Move.rest {r r' : ParameterRule} (h : Move e s r r' s' control) :
    s'.controller.withoutParameters = s.controller.withoutParameters := by
  cases h with
  | declare => exact declare_rest s _
  | _ => rfl

namespace MachineRule

/-- In the block of a machine no node is added, and the mask of a layer is what the host finds. -/
theorem Move.named_layers {m : OpenMachine} {x : MachineExpect} {r' : MachineRule}
    (h : Move e s (.named m x) r' s' control) :
    s'.controller = s.controller ∨ ∃ i f, s'.controller = s.controller.modifyLayer i f ∧
      ((∀ l, (f l).mask = l.mask) ∨
        ∃ reference, ∀ l, (f l).mask = (Host.resolve s.host reference .avatarMask).1) := by
  cases h with
  | option _ _ _ hmask => exact .inr ⟨_, _, rfl, .inl hmask⟩
  | mask m reference => exact .inr ⟨_, _, rfl, .inr ⟨reference, fun _ => rfl⟩⟩
  | go | sync | default | close | state | machine | statement | record => exact .inl rfl

/-- A layer that is declared has no mask yet. -/
theorem Move.unnamed_layers {nested : Bool} {outer : Option Scope} {r' : MachineRule}
    (h : Move e s (.unnamed nested outer) r' s' control) :
    s'.controller.layers = s.controller.layers ∨
      ∃ l : Layer, l.mask = none ∧ s'.controller.layers = s.controller.layers.push l := by
  cases h with
  | @layer _ name =>
    refine .inr ⟨{ name, machine := ⟨s.controller.machines.size⟩ }, rfl, ?_⟩
    have hc := congrArg Controller.layers (declareLayer_controller e name s)
    exact hc
  | @nested scope name =>
    have hc := congrArg Controller.layers (declareNested_controller scope e name s)
    exact .inl hc

theorem Move.rest {r r' : MachineRule} (h : Move e s r r' s' control) :
    s'.controller.withoutLayers = s.controller.withoutLayers := by
  cases h with
  | layer => exact (congrArg Controller.withoutLayers (declareLayer_controller e _ s)).trans rfl
  | nested scope =>
    exact (congrArg Controller.withoutLayers (declareNested_controller scope e _ s)).trans rfl
  | _ => rfl

end MachineRule

theorem StateRule.Move.rest {r r' : StateRule} (h : Move e s r r' s' control) :
    s'.controller.withoutNodes = s.controller.withoutNodes := by
  cases h with
  | declare scope hn hd =>
    cases hd
    exact (congrArg Controller.withoutNodes (Session.register_controller _ _ _ _ e)).trans rfl
  | _ => rfl

namespace MotionRule

omit [Host η] in
theorem modifyTree_rest (r : MotionRule) (s : Session η) (f : BlendTree → BlendTree) :
    (r.modifyTree s f).controller.withoutMotions = s.controller.withoutMotions := by
  unfold modifyTree
  split <;> rfl

theorem clip_rest (r : MotionRule) (s : Session η) (reference : String) :
    (r.clip s reference).2.controller.withoutMotions = s.controller.withoutMotions := by
  unfold clip
  split <;>
  · rename_i hr
    have hc := congrArg Controller.withoutMotions (s.resolve_controller hr)
    exact hc

theorem Move.rest {r r' : MotionRule} (h : Move e s r r' s' control) :
    s'.controller.withoutMotions = s.controller.withoutMotions := by
  cases h with
  | clip reference => exact r.clip_rest s reference
  | tree => exact r.modifyTree_rest s _
  | _ => rfl

end MotionRule

/-- Whether a graph is changed at most in one record, whose type stays the same. -/
inductive Controller.EditsRecord (c : Controller) (id : RecordId) : Controller → Prop where
  | same : EditsRecord c id c
  | change (f : Record → Record)
    (hf : ∀ record, (f record).typeName = record.typeName ∧ (f record).schema = record.schema) :
    EditsRecord c id (c.modifyRecord id f)

theorem OpenRecord.Change.records {id : RecordId} (h : Change s id s') :
    s.controller.EditsRecord id s'.controller := by
  cases h with
  | same | missing => exact .same
  | value _ hr | object _ hr => exact hr ▸ .change _ fun _ => ⟨rfl, rfl⟩

namespace RecordRule

/-- In the block of a record nothing but the record is changed. -/
theorem Move.records {r : OpenRecord} {x : RecordExpect} {r' : RecordRule}
    (h : Move e s (.body r x) r' s' control) :
    s.controller.EditsRecord r.id s'.controller := by
  cases h with
  | body _ _ hc => exact hc.records
  | stop => exact .same

theorem Move.rest {r r' : RecordRule} (h : Move e s r r' s' control) :
    s'.controller.withoutRecords = s.controller.withoutRecords := by
  cases h with
  | typeName | stop => rfl
  | openBody scope =>
    rw [attach_controller]
    unfold Controller.placeRecord
    split <;> rfl
  | body _ _ hc =>
    have hedit := hc.records
    generalize s'.controller = c' at hedit
    cases hedit <;> rfl

end RecordRule

end Rest

/-! ## What linking leaves alone -/

def Controller.withoutLinks (c : Controller) : Controller :=
  { c with machines := #[], states := #[], transitions := #[] }

namespace Session

variable (s : Session η)

theorem link_rest (parent : Option MachineId) (p : Pending) :
    (link parent s p).controller.withoutLinks = s.controller.withoutLinks := by
  have hattach (c : Controller) (id : TransitionId) :
      (c.attach p.home id).withoutLinks = c.withoutLinks := by
    cases p.home <;> rfl
  unfold link
  split
  · exact (hattach _ _).trans rfl
  · rfl
  · rfl
  · rfl

theorem linkScope_rest (machine : MachineId) (parent : Option MachineId) :
    (s.linkScope machine parent).controller.withoutLinks = s.controller.withoutLinks := by
  have all (ps : List Pending) (s : Session η) :
      (ps.foldl (link parent) s).controller.withoutLinks = s.controller.withoutLinks := by
    induction ps generalizing s with
    | nil => rfl
    | cons p ps ih => exact (ih _).trans (s.link_rest parent p)
  exact all _ _

theorem linkDefault_rest (machine : MachineId) (layer : Nat) (path : Path) (use : NameUse) :
    (s.linkDefault machine layer path use).controller.withoutLinks = s.controller.withoutLinks := by
  unfold linkDefault
  extract_lets target
  split <;> rfl

theorem linkSync_records (layer : Nat) (use : NameUse) :
    (s.linkSync layer use).controller.records = s.controller.records := by
  unfold linkSync
  split <;> rfl

theorem linkSyncs_records : s.linkSyncs.controller.records = s.controller.records := by
  have all (syncs : List (Nat × NameUse)) (s : Session η) :
      (syncs.foldl (fun s sync => s.linkSync sync.1 sync.2) s).controller.records =
        s.controller.records := by
    induction syncs generalizing s with
    | nil => rfl
    | cons sync syncs ih => exact (ih _).trans (s.linkSync_records sync.1 sync.2)
  exact all s.syncs _

end Session

theorem MachineRule.close_rest (r : MachineRule) (s : Session η) :
    (r.close s).controller.withoutLinks = s.controller.withoutLinks := by
  cases r with
  | unnamed nested outer => rfl
  | named m x =>
    simp only [close]
    cases m.default with
    | none => exact s.linkScope_rest _ _
    | some use => exact (Session.linkScope_rest _ _ _).trans (s.linkDefault_rest _ _ _ use)

/-! ## Parameters, masks and clips -/

/-- Whether a value is in the range of its kind. -/
def ParameterValue.InRange : ParameterValue → Prop
  | .int n => -2 ^ 31 ≤ n ∧ n < 2 ^ 31
  | _ => True

/-- The parameter that a rule declares. -/
def Frame.declaration? : Frame → Option Parameter
  | .parameter (.operator d) | .parameter (.value d) | .parameter (.stop d) => some d.parameter
  | _ => none

/-- Whether an asset is what a host that has been told more finds for a reference. `null` refers to
no object. -/
def Host.Found (host : η) (kind : AssetKind) (asset : Asset) : Prop :=
  ∃ stored h reference, Host.Told host stored h ∧
    (Host.resolve h reference kind).1 = some asset ∧ (kind = .object → reference ≠ "null")

/-- What is known of the parts of a graph that has been read with a host. -/
structure Controller.Stocked (c : Controller) (host : η) : Prop where
  parameters : ∀ p ∈ c.parameters, p.value.InRange
  masks : ∀ l ∈ c.layers, ∀ asset ∈ l.mask, Host.Found host .avatarMask asset
  clips : ∀ asset, .clip asset ∈ c.motions → Host.Found host .animationClip asset

/-- What holds at every moment of a reading that began with a host. -/
structure Stocked (host : η) (stack : List Frame) (s : Session η) : Prop where
  books : s.books.Right (fun _ => True) host s.controller
  declared : ∀ f ∈ stack, ∀ p ∈ f.declaration?, p.value.InRange
  graph : s.controller.Stocked host

theorem Frame.marks_true (f : Frame) : f.Marks fun _ => True := by
  unfold Marks
  split <;> simp

namespace ParameterRule

theorem literal?_inRange {k : ParameterKind} {e : Event} {v : ParameterValue}
    (h : literal? k e = some v) : v.InRange := by
  cases k <;> simp only [literal?] at h
  case float =>
    obtain ⟨x, -, rfl⟩ := Option.map_eq_some_iff.1 h
    trivial
  case int =>
    obtain ⟨n, -, h⟩ := Option.bind_eq_some_iff.1 h
    split at h <;> cases h
    assumption
  all_goals
    repeat' split at h
    all_goals cases h
    all_goals trivial

theorem zero_inRange (k : ParameterKind) : (ParameterValue.zero k).InRange := by
  cases k <;> simp [ParameterValue.zero, ParameterValue.InRange]

variable {e : Event} {s s' : Session η} {control : Control Frame}

theorem declare_inRange {d : Declaration} (hd : d.parameter.value.InRange)
    (h : ∀ p ∈ s.controller.parameters, p.value.InRange) :
    ∀ p ∈ (declare s d).controller.parameters, p.value.InRange := by
  unfold declare
  split
  · exact h
  · split
    · rename_i c hc
      unfold Controller.addParameter? at hc
      split at hc <;> cases hc
      exact List.forall_mem_append.2 ⟨h, List.forall_mem_singleton.2 hd⟩
    · exact h

theorem Move.inRange {r r' : ParameterRule}
    (h : ∀ p ∈ s.controller.parameters, p.value.InRange)
    (hd : ∀ p ∈ (Frame.parameter r).declaration?, p.value.InRange)
    (hr : Move e s r r' s' control) :
    (∀ p ∈ s'.controller.parameters, p.value.InRange) ∧
      ∀ p ∈ (Frame.parameter r').declaration?, p.value.InRange := by
  cases hr with
  | kind | unnamed => exact ⟨h, nofun⟩
  | name =>
    refine ⟨h, ?_⟩
    rintro p ⟨⟩
    exact zero_inRange _
  | equals => exact ⟨h, hd⟩
  | value d =>
    refine ⟨h, ?_⟩
    rintro p ⟨⟩
    simp only [assign]
    cases hl : literal? d.parameter.value.kind e with
    | none => exact hd _ rfl
    | some v => exact literal?_inRange hl
  | declare hdeclare =>
    obtain rfl | rfl := hdeclare <;> exact ⟨declare_inRange (hd _ rfl) h, hd⟩

end ParameterRule

namespace Controller.Stocked

variable {c c' : Controller} {host : η}

theorem of_eq (h : c.Stocked host) (hp : c'.parameters = c.parameters) (hl : c'.layers = c.layers)
    (hm : c'.motions = c.motions) : c'.Stocked host :=
  ⟨hp ▸ h.parameters, hl ▸ h.masks, hm ▸ h.clips⟩

theorem modifyLayer (h : c.Stocked host) {i : Nat} {f : Layer → Layer}
    (hf : ∀ l, (f l).mask = l.mask ∨ ∀ asset ∈ (f l).mask, Host.Found host .avatarMask asset) :
    (c.modifyLayer i f).Stocked host where
  parameters := h.parameters
  masks l' hl' := by
    rcases mem_modify hl' with hl | ⟨l, hl, rfl⟩
    · exact h.masks l' hl
    · rcases hf l with hmask | hmask
      · exact hmask ▸ h.masks l hl
      · exact hmask
  clips := h.clips

theorem modifyTree (h : c.Stocked host) (id : MotionId) (f : BlendTree → BlendTree) :
    (c.modifyMotion id (·.modifyTree f)).Stocked host where
  parameters := h.parameters
  masks := h.masks
  clips asset ha := by
    rcases mem_modify ha with ha | ⟨m, hm, heq⟩
    · exact h.clips asset ha
    · cases m with
      | tree t => cases heq
      | clip other =>
        cases heq
        exact h.clips asset hm

end Controller.Stocked

namespace Stocked

variable {host : η} {stack parents : List Frame} {s s' : Session η}

theorem found (h : s.books.Right (fun _ => True) host s.controller) {kind : AssetKind}
    {reference : String} {asset : Asset}
    (hr : (Host.resolve s.host reference kind).1 = some asset)
    (hn : kind = .object → reference ≠ "null") : Host.Found host kind asset := by
  obtain ⟨stored, htold, -⟩ := h.stored
  exact ⟨stored, _, reference, htold, hr, hn⟩

theorem turn {e : Event} {f f' : Frame} {control : Control Frame} (h : Stocked host (f :: parents) s)
    (hr : f.react e s = .ok (f', s', control)) : Stocked host (f' :: parents) s' := by
  have hbooks := (Frame.react_right h.books trivial f.marks_true hr).1
  have hgraph := h.graph
  have hparents : ∀ g ∈ parents, ∀ p ∈ g.declaration?, p.value.InRange :=
    fun g hg => h.declared g (List.mem_cons_of_mem _ hg)
  have done (hf : ∀ p ∈ f'.declaration?, p.value.InRange) (hc : s'.controller.Stocked host) :
      Stocked host (f' :: parents) s' :=
    ⟨hbooks, List.forall_mem_cons.2 ⟨hf, hparents⟩, hc⟩
  cases Frame.react_move hr with
  | layer | declaration => exact done nofun hgraph
  | parameter hm =>
    have hrest := hm.rest
    obtain ⟨hparameters, hdeclared⟩ :=
      hm.inRange hgraph.parameters (h.declared _ List.mem_cons_self)
    have hl : s'.controller.layers = s.controller.layers := (congrArg Controller.layers hrest :)
    have hm : s'.controller.motions = s.controller.motions := (congrArg Controller.motions hrest :)
    exact done hdeclared ⟨hparameters, hl ▸ hgraph.masks, hm ▸ hgraph.clips⟩
  | @machine r _ _ _ hm =>
    refine done nofun ?_
    have hrest := hm.rest
    cases r with
    | named m x =>
      rcases hm.named_layers with hc | ⟨i, f, hc, hf⟩ <;> rw [hc]
      · exact hgraph
      · refine hgraph.modifyLayer fun l => hf.imp (fun hf => hf l) ?_
        rintro ⟨reference, hf⟩ asset ha
        exact found h.books ((hf l).symm.trans ha) nofun
    | unnamed nested outer =>
      have hp : s'.controller.parameters = s.controller.parameters :=
        (congrArg Controller.parameters hrest :)
      have hclips : s'.controller.motions = s.controller.motions :=
        (congrArg Controller.motions hrest :)
      refine ⟨hp ▸ hgraph.parameters, fun l hl => ?_, hclips ▸ hgraph.clips⟩
      rcases hm.unnamed_layers with hlayers | ⟨new, hmask, hlayers⟩ <;> rw [hlayers] at hl
      · exact hgraph.masks l hl
      · rcases Array.mem_push.1 hl with hl | rfl
        · exact hgraph.masks l hl
        · simp [hmask]
  | state hm =>
    have hrest := hm.rest
    exact done nofun (hgraph.of_eq (congrArg Controller.parameters hrest :)
      (congrArg Controller.layers hrest :) (congrArg Controller.motions hrest :))
  | transition hr =>
    obtain ⟨-, rfl, -⟩ := TransitionRule.react_ok hr
    exact done nofun hgraph
  | motion hm =>
    have hrest := hm.rest
    have hp : s'.controller.parameters = s.controller.parameters :=
      (congrArg Controller.parameters hrest :)
    have hl : s'.controller.layers = s.controller.layers := (congrArg Controller.layers hrest :)
    refine done nofun ?_
    rcases hm.growth with ⟨hedit, -⟩ | ⟨m, -, hc, -, hclip⟩
    · generalize s'.controller = c' at hedit hp hl
      cases hedit with
      | tree id f => exact hgraph.modifyTree id f
      | _ => exact hgraph.of_eq hp hl rfl
    · rw [hc]
      refine ⟨hgraph.parameters, hgraph.masks, fun asset ha => ?_⟩
      rcases Array.mem_push.1 ha with ha | rfl
      · exact hgraph.clips asset ha
      · obtain ⟨reference, hreference⟩ := hclip asset rfl
        exact found h.books hreference nofun
  | record hm =>
    have hrest := hm.rest
    exact done nofun (hgraph.of_eq (congrArg Controller.parameters hrest :)
      (congrArg Controller.layers hrest :) (congrArg Controller.motions hrest :))

theorem attach {e : Event} {f f' g : Frame} {forward : Bool} {s₀ : Session η}
    (h : Stocked host (f' :: parents) s) (hr : f.react e s₀ = .ok (f', s, some (.attach g forward))) :
    Stocked host ((g.onAttach f'.context s).subject :: f' :: parents) s := by
  refine { h with declared := List.forall_mem_cons.2 ⟨?_, h.declared⟩ }
  cases (Frame.react_turn hr).asks <;> rintro p ⟨⟩

theorem linkSync (h : s.controller.Stocked host) (layer : Nat) (use : NameUse) :
    (s.linkSync layer use).controller.Stocked host := by
  unfold Session.linkSync
  split
  · exact h.modifyLayer fun l => .inl rfl
  · exact h

theorem linkSyncs (h : s.controller.Stocked host) : s.linkSyncs.controller.Stocked host := by
  have all (syncs : List (Nat × NameUse)) {s : Session η} (h : s.controller.Stocked host) :
      (syncs.foldl (fun s sync => s.linkSync sync.1 sync.2) s).controller.Stocked host := by
    induction syncs generalizing s with
    | nil => exact h
    | cons sync syncs ih => exact ih (linkSync h sync.1 sync.2)
  exact all s.syncs h

/-- A rule is detached. -/
theorem close {f : Frame} (h : Stocked host (f :: parents) s) : Stocked host parents (f.close s) := by
  refine ⟨Frame.close_right h.books f.marks_true,
    fun g hg => h.declared g (List.mem_cons_of_mem _ hg), ?_⟩
  cases f with
  | document => exact linkSyncs h.graph
  | machine r =>
    have hrest := r.close_rest s
    exact h.graph.of_eq (congrArg Controller.parameters hrest :) (congrArg Controller.layers hrest :)
      (congrArg Controller.motions hrest :)
  | motion r =>
    show (r.place s.controller).Stocked host
    unfold MotionRule.place
    split
    · exact h.graph
    · exact h.graph.of_eq rfl rfl rfl
    · exact h.graph.modifyTree _ _
  | parameter | state | transition | record => exact h.graph

end Stocked

theorem Stocked.start (name : String) (host : η) :
    Stocked host [.document]
      (({ controller := { name }, host } : Session η).persist [] .controller name) := by
  refine ⟨(Document.start_reporting name host).books, by simp [Frame.declaration?], ?_⟩
  exact ⟨fun _ hp => absurd hp List.not_mem_nil, fun _ hl => absurd hl (Array.not_mem_empty _),
    fun _ hm => absurd hm (Array.not_mem_empty _)⟩

/-- A host that keeps everything finds nothing but what a host without asset root finds too. -/
theorem MemoryHost.of_found {host : MemoryHost} {kind : AssetKind} {asset : Asset}
    (hf : Host.Found host kind asset) :
    asset.kind = kind ∧ Asset.Resolves asset.reference ∧
      (kind = .object → asset.reference ≠ "null") := by
  obtain ⟨stored, told, reference, htold, hr, hn⟩ := hf
  rw [(host.answers stored told htold).1] at hr
  simp only [MemoryHost.resolve] at hr
  split at hr
  · rename_i hguid
    cases hr
    exact ⟨rfl, .inl hguid, hn⟩
  · split at hr <;> cases hr
    rename_i hpath
    refine ⟨rfl, .inr fun hempty => hpath ?_, hn⟩
    simp [hempty]

end MotionScript
