import MotionScript.Grammar.Session
/-!
# Linking

Transitions name their destinations by path and may be written before them, so they wait until the
machine they were written in ends. One that cannot be resolved then is carried to the enclosing
machine; at the end of the layer it is dropped with a warning.
-/

namespace MotionScript

variable {η : Type} [Host η]

/-- Adds a transition to the list it belongs to. -/
def Controller.attach (c : Controller) (home : Home) (id : TransitionId) : Controller :=
  match home with
  | .entry machine =>
    c.modifyMachine machine fun m => { m with entryTransitions := m.entryTransitions ++ [id] }
  | .any machine =>
    c.modifyMachine machine fun m => { m with anyTransitions := m.anyTransitions ++ [id] }
  | .state state => c.modifyState state fun s => { s with transitions := s.transitions ++ [id] }

namespace Session

/-- The outcome of looking for a destination. -/
inductive Resolution where
  | found (destination : Destination)
  | unknown (path : Path)
  | missing
deriving DecidableEq, Repr

omit [Host η] in
def resolution (s : Session η) (p : Pending) : Resolution :=
  match p.target with
  | .exit => .found .exit
  | .missing => .missing
  | .node path =>
    match s.lookup? p.layer path with
    | some (.state id) => .found (.state id)
    | some (.machine id) => .found (.machine id)
    | none => .unknown path

/-- Adds a resolved transition to the graph and hands it to the host. -/
def linkTo (s : Session η) (p : Pending) (destination : Destination) : Session η :=
  let (id, controller) := s.controller.addTransition { p.transition with destination }
  { s with controller := controller.attach p.home id }.persist p.hint (.transition id) ""

omit [Host η] in
/-- The warning for a transition that is dropped. -/
def dropWarning (s : Session η) (p : Pending) (unknown : Option Path) : Diagnostic :=
  let d :=
    match unknown, p.home with
    | none, _ =>
      (Diagnostic.warning "transition has no destination and was dropped").withHelp
        "add `goto <state>` or `end`"
    | some path, .state id =>
      let source := (s.controller.state id).name
      .warning s!"destination `{path}` of a transition from `{source}` not found"
    | some path, _ => .warning s!"destination `{path}` not found"
  (d.withCode .unresolvedDestination).withLabel p.span "in this transition"
    |>.withPosition p.position

/-- Links a transition, carries it to `parent`, or drops it. -/
def link (parent : Option MachineId) (s : Session η) (p : Pending) : Session η :=
  match s.resolution p, parent with
  | .found destination, _ => s.linkTo p destination
  | .missing, _ => s.warn (s.dropWarning p none)
  | .unknown _, some parent => { s with pending := s.pending ++ [{ p with owner := parent }] }
  | .unknown path, none => s.warn (s.dropWarning p (some path))

/-- Links the transitions that wait for the end of `scope`. -/
def linkScope (s : Session η) (scope : MachineId) (parent : Option MachineId) : Session η :=
  let (mine, others) := s.pending.partition (·.owner = scope)
  mine.foldl (link parent) { s with pending := others }

/-- Sets the default state of a machine from the name written for it. -/
def linkDefault (s : Session η) (scope : MachineId) (layer : Nat) (path : Path) (use : NameUse) :
    Session η :=
  let target := path.join use.name
  match s.lookup? layer target with
  | some (.state id) =>
    s.modify (·.modifyMachine scope fun m => { m with defaultState := some id })
  | _ =>
    s.warn (((Diagnostic.warning s!"default state `{target}` not found").withCode .unresolvedDefault
      |>.withLabel use.span "no state with this name").withPosition use.position)

/-- Lets a layer follow the first layer with the name written for it. -/
def linkSync (s : Session η) (layer : Nat) (use : NameUse) : Session η :=
  match s.controller.layers.findIdx? (·.name = use.name) with
  | some index => s.modify (·.modifyLayer layer fun l => { l with synced := some index })
  | none =>
    s.warn (((Diagnostic.warning s!"Sync layer \"{use.name}\" not found").withCode .unresolvedSync
      |>.withLabel use.span "no layer with this name").withPosition use.position)

/-- Links the layers that follow other ones, once every layer is known. -/
def linkSyncs (s : Session η) : Session η :=
  s.syncs.foldl (fun s (layer, use) => s.linkSync layer use) { s with syncs := [] }

end Session

end MotionScript
