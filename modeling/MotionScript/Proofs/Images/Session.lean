import MotionScript.Grammar.Document
import MotionScript.Proofs.Images.Graph
/-!
# Readings behind a backdrop

A document can be read after others have been: their graph, names and warnings are a backdrop,
behind which the session takes place. What the session holds is then moved up in the graph and in
the text. A session is like another one if it is the other one behind a backdrop.
-/

namespace MotionScript

/-- What a reading takes place behind: a graph with the tables of its layers and warnings. The text
is placed elsewhere, too. -/
structure Backdrop where
  graph : Controller
  symbols : Array SymbolTable
  warnings : List Diagnostic
  span : Span → Span
  position : Position → Position
  aligned : symbols.size = graph.layers.size

namespace Backdrop

variable (b : Backdrop)

/-! ## Images -/

abbrev offsets : Offsets := b.graph.offsets

def event (e : Event) : Event := { e with span := b.span e.span, position := b.position e.position }

def label (l : Label) : Label := ⟨b.span l.span, l.message⟩

def diagnostic (d : Diagnostic) : Diagnostic :=
  { d with labels := d.labels.map b.label, position := d.position.map b.position }

def failure (f : Failure) : Failure := ⟨b.diagnostic f.diagnostic, b.position f.position⟩

def use (u : NameUse) : NameUse := ⟨u.name, b.span u.span, b.position u.position⟩

def layer (index : Nat) : Nat := b.offsets.layers + index

def scope (s : Scope) : Scope :=
  { s with
    layer := b.layer s.layer
    machine := b.offsets.machineId s.machine
    state := s.state.map b.offsets.stateId }

def home : Home → Home
  | .entry machine => .entry (b.offsets.machineId machine)
  | .any machine => .any (b.offsets.machineId machine)
  | .state state => .state (b.offsets.stateId state)

def pending (p : Pending) : Pending :=
  { p with
    home := b.home p.home
    owner := b.offsets.machineId p.owner
    layer := b.layer p.layer
    span := b.span p.span
    position := b.position p.position }

def sync (x : Nat × NameUse) : Nat × NameUse := (b.layer x.1, b.use x.2)

def table (t : SymbolTable) : SymbolTable := t.map fun x => (x.1, b.offsets.node x.2)

def object : ObjectRef → ObjectRef
  | .controller => .controller
  | .layer index => .layer (b.layer index)
  | .machine id => .machine (b.offsets.machineId id)
  | .state id => .state (b.offsets.stateId id)
  | .transition id => .transition (b.offsets.transitionId id)
  | .motion id => .motion (b.offsets.motionId id)
  | .record id => .record (b.offsets.recordId id)

@[simp]
theorem label_object (o : ObjectRef) : (b.object o).label = o.label := by cases o <;> rfl

theorem located (d : Diagnostic) (p : Position) :
    Failure.located (b.diagnostic d) (b.position p) = b.failure (.located d p) := by
  obtain ⟨severity, code, message, labels, position, help⟩ := d
  cases position <;> rfl

theorem lookup_table (t : SymbolTable) (path : Path) :
    (b.table t).lookup path = (t.lookup path).map b.offsets.node := by
  induction t with
  | nil => rfl
  | cons entry t ih =>
    obtain ⟨other, node⟩ := entry
    simp only [table, List.map_cons, List.lookup_cons] at ih ⊢
    cases path == other with
    | true => rfl
    | false => exact ih

end Backdrop

/-- A backdrop, and what the hosts and names in front of it and behind it have in common. -/
structure Stage (η θ : Type) [Host η] [Host θ] extends Backdrop where
  /-- Whether a host that knows some names answers like another one. -/
  Agree : η → List String → θ → List String → Prop
  resolve : ∀ {h : η} {h' : θ} {names names' : List String}, Agree h names h' names' →
    ∀ reference kind, (Host.resolve h reference kind).1 = (Host.resolve h' reference kind).1 ∧
      Agree (Host.resolve h reference kind).2 names (Host.resolve h' reference kind).2 names'
  schema : ∀ {h : η} {h' : θ} {names names' : List String}, Agree h names h' names' →
    ∀ name, Host.schema? h name = Host.schema? h' name
  warn : ∀ {h : η} {h' : θ} {names names' : List String}, Agree h names h' names' →
    ∀ message, Agree (Host.warn h message) names (Host.warn h' message) names'
  persist : ∀ {h : η} {h' : θ} {names names' : List String}, Agree h names h' names' →
    ∀ object base,
      Agree (Host.persist h object (freshName names base)) (freshName names base :: names)
        (Host.persist h' (toBackdrop.object object) (freshName names' base))
        (freshName names' base :: names')

variable {η θ : Type} [Host η] [Host θ]

/-- Whether a session is another one behind the backdrop. -/
structure Stage.Like (b : Stage η θ) (s : Session η) (t : Session θ) : Prop where
  controller : t.controller = b.graph.followedBy s.controller
  symbols : t.symbols = b.symbols ++ s.symbols.map b.table
  pending : t.pending = s.pending.map b.pending
  syncs : t.syncs = s.syncs.map b.sync
  warnings : t.warnings = b.warnings ++ s.warnings.map b.diagnostic
  agree : b.Agree s.host s.usedNames t.host t.usedNames

variable {b : Stage η θ} {s : Session η} {t : Session θ}

namespace Stage.Like

/-! ## Services of the session -/

theorem lookup? (h : b.Like s t) (layer : Nat) (path : Path) :
    t.lookup? (b.layer layer) path = (s.lookup? layer path).map b.offsets.node := by
  have hlayer : b.layer layer = b.symbols.size + layer := by
    rw [b.aligned]
    rfl
  rw [Session.lookup?, Session.lookup?, h.symbols, hlayer,
    ← b.lookup_table]
  exact congrArg (List.lookup path) (append_map_getD b.symbols s.symbols b.table [] layer)

theorem modify (h : b.Like s t) {f f' : Controller → Controller}
    (hf : f' (b.graph.followedBy s.controller) = b.graph.followedBy (f s.controller)) :
    b.Like (s.modify f) (t.modify f') :=
  { h with controller := by simp only [Session.modify, h.controller, hf] }

theorem warn (h : b.Like s t) (d : Diagnostic) :
    b.Like (s.warn d) (t.warn (b.diagnostic d)) :=
  { h with
    warnings := by simp [Session.warn, h.warnings]
    agree := b.warn h.agree d.message }

theorem persist (h : b.Like s t) (hint : List String) (object : ObjectRef) (name : String) :
    b.Like (s.persist hint object name) (t.persist hint (b.object object) name) :=
  { h with
    agree := by
      simp only [Session.persist, Session.qualifiedName, b.label_object]
      exact b.persist h.agree object _ }

theorem resolve (h : b.Like s t) (reference : String) (kind : AssetKind) :
    (t.resolve reference kind).1 = (s.resolve reference kind).1 ∧
      b.Like (s.resolve reference kind).2 (t.resolve reference kind).2 := by
  obtain ⟨hasset, hagree⟩ := b.resolve h.agree reference kind
  exact ⟨hasset.symm, { h with agree := hagree }⟩

theorem register (h : b.Like s t) (layer : Nat) (path : Path) (node : NodeRef) (e : Event) :
    b.Like (s.register layer path node e)
      (t.register (b.layer layer) path (b.offsets.node node) (b.event e)) := by
  have hsome : (t.lookup? (b.layer layer) path).isSome = (s.lookup? layer path).isSome := by
    rw [h.lookup?, Option.isSome_map]
  simp only [Session.register, hsome]
  cases (s.lookup? layer path).isSome with
  | true => exact h.warn _
  | false =>
    refine { h with symbols := ?_ }
    have hlayer : b.layer layer = b.symbols.size + layer := by
      rw [b.aligned]
      rfl
    simp only [Bool.false_eq_true, if_false, h.symbols, hlayer]
    exact append_map_modify _ _ (fun t => by simp [Backdrop.table]) layer

end Stage.Like

/-! ## Linking -/

theorem Backdrop.followedBy_attach (b : Backdrop) (c : Controller) (home : Home)
    (id : TransitionId) :
    (b.graph.followedBy c).attach (b.home home) (b.offsets.transitionId id) =
      b.graph.followedBy (c.attach home id) := by
  cases home with
  | entry machine | any machine =>
    exact Controller.followedBy_modifyMachine (fun m => by simp [Offsets.machine]) machine
  | state state => exact Controller.followedBy_modifyState (fun s => by simp [Offsets.state]) state

namespace Stage.Like

theorem linkTo (h : b.Like s t) (p : Pending) (d : Destination) :
    b.Like (s.linkTo p d) (t.linkTo (b.pending p) (b.offsets.destination d)) := by
  have hadd := b.graph.followedBy_addTransition s.controller { p.transition with destination := d }
  simp only [Session.linkTo, h.controller]
  rw [show ({ (b.pending p).transition with destination := b.offsets.destination d } : Transition) =
    b.offsets.transition { p.transition with destination := d } from rfl, hadd]
  refine Stage.Like.persist ?_ p.hint (.transition _) ""
  exact { h with controller := b.followedBy_attach _ p.home _ }

theorem resolution (h : b.Like s t) (p : Pending) :
    t.resolution (b.pending p) =
      match s.resolution p with
      | .found d => .found (b.offsets.destination d)
      | .unknown path => .unknown path
      | .missing => .missing := by
  obtain ⟨transition, target, home, owner, layer, hint, span, position⟩ := p
  cases target with
  | exit | missing => rfl
  | node path =>
    simp only [Session.resolution, Backdrop.pending, h.lookup?]
    rcases s.lookup? layer path with _ | ⟨_ | _⟩ <;> rfl

theorem dropWarning (h : b.Like s t) (p : Pending) (unknown : Option Path) :
    t.dropWarning (b.pending p) unknown = b.diagnostic (s.dropWarning p unknown) := by
  obtain ⟨transition, target, home, owner, layer, hint, span, position⟩ := p
  rcases unknown with _ | path
  · rfl
  · cases home with
    | entry | any => rfl
    | state id =>
      have hname : (t.controller.state (b.offsets.stateId id)).name =
          (s.controller.state id).name := by
        rw [h.controller, Controller.followedBy_state]
        rfl
      simp only [Session.dropWarning, Backdrop.pending, Backdrop.home, hname]
      rfl

theorem drop (h : b.Like s t) (p : Pending) (unknown : Option Path) :
    b.Like (s.warn (s.dropWarning p unknown)) (t.warn (t.dropWarning (b.pending p) unknown)) := by
  rw [h.dropWarning]
  exact h.warn _

theorem link (h : b.Like s t) (parent : Option MachineId) (p : Pending) :
    b.Like (s.link parent p) (t.link (parent.map b.offsets.machineId) (b.pending p)) := by
  unfold Session.link
  rw [h.resolution]
  cases s.resolution p with
  | found d => exact h.linkTo p d
  | missing => exact h.drop p none
  | unknown path =>
    cases parent with
    | none => exact h.drop p (some path)
    | some parent => exact { h with pending := by simp [h.pending, Backdrop.pending] }

theorem linkAll (h : b.Like s t) (parent : Option MachineId) (ps : List Pending) :
    b.Like (ps.foldl (Session.link parent) s)
      ((ps.map b.pending).foldl (Session.link (parent.map b.offsets.machineId)) t) := by
  induction ps generalizing s t with
  | nil => exact h
  | cons p ps ih => exact ih (h.link parent p)

theorem linkScope (h : b.Like s t) (scope : MachineId) (parent : Option MachineId) :
    b.Like (s.linkScope scope parent)
      (t.linkScope (b.offsets.machineId scope) (parent.map b.offsets.machineId)) := by
  have howner (p : Pending) :
      decide ((b.pending p).owner = b.offsets.machineId scope) = decide (p.owner = scope) :=
    decide_eq_decide.2 (b.offsets.machineId_injective.eq_iff)
  have hmine : t.pending.filter (·.owner = b.offsets.machineId scope) =
      (s.pending.filter (·.owner = scope)).map b.pending := by
    simp only [h.pending, List.filter_map, Function.comp_def, howner]
  have hothers : t.pending.filter (not ∘ fun p => decide (p.owner = b.offsets.machineId scope)) =
      (s.pending.filter (not ∘ fun p => decide (p.owner = scope))).map b.pending := by
    simp only [h.pending, List.filter_map, Function.comp_def, howner]
  simp only [Session.linkScope, List.partition_eq_filter_filter, hmine]
  refine linkAll ?_ parent _
  exact ⟨h.controller, h.symbols, hothers, h.syncs, h.warnings, h.agree⟩

theorem linkDefault (h : b.Like s t) (scope : MachineId) (layer : Nat) (path : Path)
    (use : NameUse) :
    b.Like (s.linkDefault scope layer path use)
      (t.linkDefault (b.offsets.machineId scope) (b.layer layer) path (b.use use)) := by
  simp only [Session.linkDefault, h.lookup?, show (b.use use).name = use.name from rfl]
  rcases s.lookup? layer (path.join use.name) with _ | ⟨id | id⟩
  · exact h.warn _
  · refine h.modify ?_
    refine Controller.followedBy_modifyMachine (fun m => ?_) scope
    rfl
  · exact h.warn _

/-- A layer without others in front of it follows the same layer. -/
theorem linkSync (h : b.Like s t) (hb : b.graph.layers = #[]) (layer : Nat) (use : NameUse) :
    b.Like (s.linkSync layer use) (t.linkSync (b.layer layer) (b.use use)) := by
  have hfind : t.controller.layers.findIdx? (·.name = (b.use use).name) =
      s.controller.layers.findIdx? (·.name = use.name) := by
    rw [h.controller]
    simp only [Controller.followedBy, hb, Array.empty_append, Array.findIdx?_map]
    rfl
  simp only [Session.linkSync, hfind]
  cases s.controller.layers.findIdx? (·.name = use.name) with
  | none => exact h.warn _
  | some index =>
    refine h.modify ?_
    refine Controller.followedBy_modifyLayer (fun l => ?_) layer
    simp [Offsets.layer, Controller.offsets, hb]

/-- Layers follow the same layers if there are none in front of them, or none follows another. -/
theorem linkSyncs (h : b.Like s t) (hb : b.graph.layers = #[] ∨ s.syncs = []) :
    b.Like s.linkSyncs t.linkSyncs := by
  have hfold (hb : b.graph.layers = #[]) (syncs : List (Nat × NameUse)) :
      ∀ {s : Session η} {t : Session θ}, b.Like s t →
        b.Like (syncs.foldl (fun s sync => s.linkSync sync.1 sync.2) s)
          ((syncs.map b.sync).foldl (fun t sync => t.linkSync sync.1 sync.2) t) := by
    induction syncs with
    | nil => exact fun h => h
    | cons sync syncs ih => exact fun h => ih (h.linkSync hb sync.1 sync.2)
  have h0 : b.Like { s with syncs := [] } { t with syncs := [] } :=
    ⟨h.controller, h.symbols, h.pending, rfl, h.warnings, h.agree⟩
  simp only [Session.linkSyncs, h.syncs]
  rcases hb with hb | hs
  · exact hfold hb s.syncs h0
  · rw [hs]
    exact h0

end Stage.Like

end MotionScript
