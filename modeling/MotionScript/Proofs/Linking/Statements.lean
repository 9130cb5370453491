import MotionScript.Proofs.Conditions.Statements
import MotionScript.Proofs.Contents.Transitions
/-!
# What statements queue

Every statement of a document that has been read is queued once, in written order, as one transition
for each alternative of its condition. The transition has the modifiers that are written, it is
written for a list of the machine or state around the statement, and it leads where the statement
says. Linking then puts it into this list, or there is a warning.
-/

namespace MotionScript

open TransitionRule (Part)

variable {η : Type}

/-! ## The statements of a document -/

/-- Where a token is. -/
def Event.place (e : Event) : Span × Position := (e.span, e.position)

/-- The tokens of a statement, and the scope that it is written in. -/
structure Document.Statement where
  scope : Option Scope
  tokens : List Event

/-- The statements that have ended, and the tokens so far of the one that was begun last. -/
structure Transcript where
  ended : List Document.Statement := []
  begun : List Event := []

namespace Transcript

/-- A statement begins when its rule is attached. It has the tokens that the rule is given, the last
of which is a semicolon. -/
def next (t : Transcript) : Grammar.Call Frame (Session η) → Transcript
  | .attach (.transition _) _ => { t with begun := [] }
  | .token e (.transition r) _ =>
    if e.isSymbol ';' then { t with ended := t.ended ++ [⟨r.scope, t.begun ++ [e]⟩] }
    else { t with begun := t.begun ++ [e] }
  | _ => t

/-- What calls of hooks give to the rules of statements. -/
def ofCalls (calls : List (Grammar.Call Frame (Session η))) : Transcript := calls.foldl next {}

theorem ofCalls_concat (calls : List (Grammar.Call Frame (Session η)))
    (call : Grammar.Call Frame (Session η)) :
    ofCalls (calls ++ [call]) = (ofCalls calls).next call := by
  simp [ofCalls]

theorem next_token_of_ne (t : Transcript) {e : Event} {f : Frame} {s : Session η}
    (h : ∀ r, f ≠ .transition r) : t.next (.token e f s) = t := by
  cases f with
  | transition r => exact absurd rfl (h r)
  | _ => rfl

end Transcript

/-- The statements of a document, in written order. -/
def Document.statements [Host η] (source name : String) (host : η) : List Document.Statement :=
  (Transcript.ofCalls (Document.calls source name host)).ended

namespace Journal

/-- The transitions that are queued together, in order. -/
def statements (j : Journal) : List (List Pending) :=
  j.filterMap fun
    | .queue (p :: ps) => some (p :: ps)
    | _ => none

@[simp]
theorem statements_append (j j' : Journal) : (j ++ j').statements = j.statements ++ j'.statements :=
  List.filterMap_append

/-- Every queued transition is queued by a statement. -/
theorem flatten_statements (j : Journal) : j.statements.flatten = j.groups := by
  induction j with
  | nil => rfl
  | cons entry j ih =>
    rw [← List.singleton_append, statements_append, groups_append, List.flatten_append, ih]
    congr 1
    rcases entry with _ | ⟨_ | _⟩ | _ <;> simp [statements, groups]

end Journal

/-! ## What a statement says -/

namespace Scope

/-- Whether the machine of a scope is declared with the path of the scope, and its state right below
this path. -/
structure Located (scope : Scope) (nodes : List Declared) : Prop where
  machine : (scope.layer, scope.path, .machine scope.machine) ∈ nodes
  state : ∀ id ∈ scope.state, ∃ name, (scope.layer, scope.path.join name, .state id) ∈ nodes

/-- The list that transitions in a scope are written for: that of the state, or one of the two of the
machine. -/
inductive ListedIn (scope : Scope) (any : Bool) : Home → Prop where
  | state {id : StateId} (hs : scope.state = some id) : ListedIn scope any (.state id)
  | any (hs : scope.state = none) (h : any = true) : ListedIn scope any (.any scope.machine)
  | entry (hs : scope.state = none) (h : any = false) : ListedIn scope any (.entry scope.machine)

/-- Where a written destination leads from a scope: a name to a node of the machine, a path to one
below the layer. Without a destination, transitions of a state lead back to it. -/
inductive LeadsTo (scope : Scope) (nodes : List Declared) : Option Goto → Target → Prop where
  | exit : LeadsTo scope nodes (some .exit) .exit
  | relative (name : String) :
    LeadsTo scope nodes (some (.relative name)) (.node (scope.path.join name))
  | absolute (names : List String) :
    LeadsTo scope nodes (some (.absolute names)) (.node ⟨scope.path.segments.take 1 ++ names⟩)
  | back {id : StateId} {path : Path} (hs : scope.state = some id)
    (h : (scope.layer, path, .state id) ∈ nodes) : LeadsTo scope nodes none (.node path)
  | missing (hs : scope.state = none) : LeadsTo scope nodes none .missing

end Scope

namespace Document.Statement

/-- Whether a transition is that of an alternative of a statement with these parts. -/
structure Renders (statement : Statement) (nodes : List Declared) (scope : Scope) (ps : List Part)
    (conditions : List Condition) (p : Pending) : Prop where
  transition : p.transition = { (Part.applyAll {} ps).modifiers with conditions }
  listed : scope.ListedIn (Part.applyAll {} ps).any p.home
  leads : scope.LeadsTo nodes (Part.applyAll {} ps).goto p.target
  owner : p.owner = scope.machine
  layer : p.layer = scope.layer
  place : statement.tokens.head?.map Event.place = some p.place

/-- Whether transitions are those of a statement: one for each alternative of its words, in order. -/
def Queues (nodes : List Declared) (statement : Statement) (groups : List Pending) : Prop :=
  ∃ scope body stop ws ps, statement = ⟨some scope, body ++ [stop]⟩ ∧ scope.Located nodes ∧
    Worded ws ps false body ∧ stop.isSymbol ';' = true ∧
    List.Forall₂ (statement.Renders nodes scope ps) (groupsOf ws) groups

end Document.Statement

/-! ### More nodes -/

section

variable {scope : Scope} {nodes : List Declared}

theorem Scope.Located.append (h : scope.Located nodes) (more : List Declared) :
    scope.Located (nodes ++ more) where
  machine := List.mem_append_left _ h.machine
  state id hid := (h.state id hid).imp fun _ hname => List.mem_append_left _ hname

theorem Scope.LeadsTo.append {goto : Option Goto} {target : Target}
    (h : scope.LeadsTo nodes goto target) (more : List Declared) :
    scope.LeadsTo (nodes ++ more) goto target := by
  cases h with
  | exit => exact .exit
  | relative name => exact .relative name
  | absolute names => exact .absolute names
  | back hs h => exact .back hs (List.mem_append_left _ h)
  | missing hs => exact .missing hs

theorem Document.Statement.Queues.append {statement : Document.Statement} {groups : List Pending}
    (h : statement.Queues nodes groups) (more : List Declared) :
    statement.Queues (nodes ++ more) groups := by
  obtain ⟨scope, body, stop, ws, ps, rfl, hscope, hworded, hstop, hall⟩ := h
  exact ⟨scope, body, stop, ws, ps, rfl, hscope.append more, hworded, hstop,
    hall.imp fun conditions p h => { h with leads := h.leads.append more }⟩

end

/-! ## Tokens of a statement -/

namespace TransitionRule

variable {r r' : TransitionRule} {es : List Event} {e : Event} {s s' : Session η}
  {control : Control Frame}

/-- A semicolon completes what was begun: it is no part of it. -/
theorem Tracks.look_stop (hr : r.Tracks es) (he : e.isSymbol ';' = true) {l : Look}
    (h : r.look e = .ok l) : l.again = true := by
  obtain ⟨ws, ps, f, done, begun, rfl, hr⟩ := hr
  have hbegun := hr.begun
  have he := Event.isSymbol_is he
  unfold look at h
  cases hx : r.expect <;> simp only [hx] at h hbegun
  case modifier half =>
    cases half with
    | none => simp [modifier, symbolModifier, he.symbol_kind, he.symbol_isSymbol] at h
    | some c =>
      cases hbegun with
      | connective hc => rcases hc with rfl | rfl <;> simp [connective, he.symbol_isSymbol] at h
  case operator parameter negated half =>
    cases half with
    | none =>
      obtain rfl : _ = l := by simpa [operator, he.symbol_isSymbol] using h
      rfl
    | some c => simp [operator, he.symbol_isSymbol] at h
  case fadeUnit | ordered =>
    all_goals
      rw [he.symbol_isKeyword, if_neg Bool.false_ne_true] at h
      cases h
      rfl
  case gotoNext =>
    rw [he.symbol_isSymbol, if_neg (by decide)] at h
    cases h
    rfl
  -- Anything else is refused.
  all_goals
    simp [he.symbol_isSymbol, he.symbol_name, he.symbol_number, bind, Except.bind] at h

/-- A semicolon that is not refused ends the statement. -/
theorem Tracks.react_stop (hr : r.Tracks es) (he : e.isSymbol ';' = true)
    (h : r.react e s = .ok (r', s', control)) : control = some (.detach false) := by
  have hfinish {q : TransitionRule} (hf : q.finish e s = .ok (r', s', control)) :
      control = some (.detach false) := by
    unfold finish at hf
    split at hf
    · cases hf
    · split at hf <;> cases hf
      rfl
  have hr := hr.begun e
  change lookAgain e s maxLooks (r.begun e) = _ at h
  simp only [maxLooks, lookAgain] at h
  split at h
  · exact hfinish h
  obtain ⟨l, hl, h⟩ := except_bind_ok.1 h
  have hagain := hr.look_stop he hl
  rw [if_pos hagain] at h
  split at h
  · exact hfinish h
  obtain ⟨l', hl', h⟩ := except_bind_ok.1 h
  have hlook := look_tracks hr hl
  rw [if_pos hagain] at hlook
  -- Behind a look that calls for another one the rule is settled.
  have honce := (look_settled hl hagain).once hl'
  rw [hlook.look_stop he hl'] at honce
  cases honce

/-- Any other token becomes part of the statement. -/
theorem Tracks.react_reads [Host η] (hr : r.Tracks es) (he : e.isSymbol ';' = false)
    (h : r.react e s = .ok (r', s', control)) :
    r.queuedBy s.controller e = [] ∧ r'.Tracks (es ++ [e]) := by
  obtain ⟨-, -, ⟨hqueued, -⟩ | ⟨-, hstop⟩⟩ := react_ok h
  · rcases react_tracks hr h with ⟨-, -, hreads⟩ | ⟨_, _, _, -, hstop, -⟩
    · exact ⟨hqueued, hreads⟩
    · rw [he] at hstop
      cases hstop
  · rw [he] at hstop
    cases hstop

/-- Where the first of some tokens is. -/
theorem head?_place (hstart : r.start = es.head?.map Event.place) (e : Event) :
    (es ++ [e]).head?.map Event.place = some (r.start.getD e.place) := by
  cases es with
  | nil =>
    rw [hstart]
    rfl
  | cons e' es =>
    rw [hstart]
    rfl

/-- The target of a statement is where its destination leads. -/
theorem leadsTo_target {scope : Scope} {nodes : List Declared} {c : Controller}
    (hscope : scope.Located nodes) (hpaths : ∀ d ∈ nodes, c.HasPath d.1 d.2.2 d.2.1)
    (goto : Option Goto) : scope.LeadsTo nodes goto (target c scope goto) := by
  rcases goto with _ | _ | name | names
  · cases hs : scope.state with
    | none =>
      simp only [target, hs]
      exact .missing hs
    | some id =>
      obtain ⟨name, hname⟩ := hscope.state id hs
      simp only [target, hs]
      refine .back hs ?_
      -- A node has one path, and so the name in the path is that of the state.
      have hpath := hpaths _ hname
      generalize hjoin : scope.path.join name = joined at hpath hname
      cases hpath with
      | state hp hi =>
        rwa [(Path.join_inj.1 hjoin).1]
  · exact .exit
  · exact .relative name
  · exact .absolute names

theorem listedIn_home (scope : Scope) (any : Bool) : scope.ListedIn any (home scope any) := by
  unfold home
  cases hs : scope.state with
  | some id => exact .state hs
  | none =>
    cases any with
    | false => exact .entry hs rfl
    | true => exact .any hs rfl

/-- A statement has at least one transition: without a condition there is one that needs none. -/
theorem queued_ne_nil (r : TransitionRule) (c : Controller) (scope : Scope)
    (start : Span × Position) : r.queued c scope start ≠ [] := by
  rw [queued, Ne, List.map_eq_nil_iff]
  cases hgroups : r.groups with
  | nil => exact List.cons_ne_nil _ _
  | cons group groups => exact List.cons_ne_nil group groups

/-- The semicolon queues the transitions of the statement. -/
theorem Tracks.react_queues [Host η] {nodes : List Declared} (hr : r.Tracks es)
    (he : e.isSymbol ';' = true) (h : r.react e s = .ok (r', s', control))
    (hstart : r.start = es.head?.map Event.place)
    (hscope : ∀ scope ∈ r.scope, scope.Located nodes)
    (hpaths : ∀ d ∈ nodes, s.controller.HasPath d.1 d.2.2 d.2.1) :
    Document.Statement.Queues nodes ⟨r.scope, es ++ [e]⟩ (r.queuedBy s.controller e) ∧
      r.queuedBy s.controller e ≠ [] := by
  have hcontrol := hr.react_stop he h
  obtain ⟨hleads, hs, -⟩ := react_ok h
  obtain ⟨hsame, hstarts⟩ := hleads.keeps
  rcases react_tracks hr h with ⟨hnone, -⟩ | ⟨scope, ws, ps, -, -, hfinished, hfound, hs'⟩
  · rw [hnone] at hcontrol
    cases hcontrol
  have hqueued : r.queuedBy s.controller e =
      r'.queued s.controller scope (r'.start.getD (e.span, e.position)) := by
    rw [hs] at hs'
    exact List.append_cancel_left (congrArg Session.pending hs')
  have hrule : r.scope = some scope := hsame.symm.trans hfound
  rw [hqueued]
  refine ⟨⟨scope, es, e, ws, ps, by rw [hrule], hscope scope hrule, hfinished.worded, he, ?_⟩,
    r'.queued_ne_nil _ _ _⟩
  rw [queued, hfinished.alternatives, List.forall₂_map_right_iff, List.forall₂_same]
  intro conditions _
  obtain ⟨hmodifiers, hany, hgoto⟩ := hfinished.agrees
  refine ⟨?_, ?_, ?_, rfl, rfl, ?_⟩
  · rw [hmodifiers]
    rfl
  · rw [hany]
    exact listedIn_home scope _
  · rw [hgoto]
    exact leadsTo_target (hscope scope hrule) hpaths _
  · rw [hstarts]
    exact head?_place hstart e

end TransitionRule

/-! ## All readings -/

variable [Host η]

omit [Host η] in
/-- A rule stays where the nodes are declared. -/
theorem Turn.located {e : Event} {s s' : Session η} {f f' : Frame} {control : Control Frame}
    (h : Turn e s s' f f' control) {nodes : List Declared}
    (hf : ∀ scope ∈ f.pathScope?, scope.Located nodes) :
    ∀ scope ∈ f'.pathScope?, scope.Located (nodes ++ (f.declared? e s).toList) := by
  intro scope hs
  cases h with
  | quiet hw hkeeps =>
    refine Scope.Located.append ?_ _
    cases hkeeps with
    | machine m m' x x' hscope =>
      cases hs
      exact hf _ (congrArg some hscope.symm)
    | transition r r' hscope =>
      change scope ∈ r'.scope at hs
      rw [hscope] at hs
      exact hf scope hs
    | motion | record => cases hs
    | _ => exact hf scope hs
  | statement r r' hscope =>
    change scope ∈ r'.scope at hs
    rw [hscope] at hs
    exact (hf scope hs).append _
  | layer outer name hn =>
    cases hs
    refine ⟨?_, by rintro id ⟨⟩⟩
    simp [Frame.declared?, hn]
  | machine outer name hn =>
    cases hs
    refine ⟨?_, by rintro id ⟨⟩⟩
    simp [Frame.declared?, hn]
  | state outer name hn =>
    cases hs
    refine ⟨List.mem_append_left _ (hf outer rfl).machine, ?_⟩
    rintro id ⟨⟩
    exact ⟨name, by simp [Frame.declared?, hn]⟩

/-- What holds of the statements that have ended, and of the rules on the stack. -/
structure Transcribed (stack : List Frame) (t : Transcript) (j : Journal) : Prop where
  ended : List.Forall₂ (Document.Statement.Queues j.nodes) t.ended j.statements
  scopes : ∀ f ∈ stack, ∀ scope ∈ f.pathScope?, scope.Located j.nodes

/-- Whether the rule of a statement that is being read has kept its tokens. -/
def Underway (stack : List Frame) (t : Transcript) : Prop :=
  ∀ r, stack.head? = some (.transition r) →
    r.Tracks t.begun ∧ r.start = t.begun.head?.map Event.place

theorem Grammar.Call.statements_token {f : Frame} (hf : ∀ r, f ≠ .transition r) (e : Event)
    (s : Session η) : Journal.statements (Grammar.Call.token e f s).entries = [] := by
  have hdeclared : (Grammar.Call.token e f s).entries = (f.declared? e s).toList.map .declare := by
    cases f with
    | transition r => exact absurd rfl (hf r)
    | _ => exact List.append_nil _
  rw [hdeclared]
  cases f.declared? e s <;> rfl

/-- Nothing lies on the rule of a statement. -/
theorem Frame.Fits.on_transition {f : Frame} {below : Option Frame} (h : f.Fits below)
    (r : TransitionRule) : below ≠ some (.transition r) := by
  cases h <;> simp

namespace Transcribed

variable {stack parents : List Frame} {t : Transcript} {j : Journal} {s : Session η}

omit [Host η] in
theorem ended_append {j' : Journal} (h : Transcribed stack t j) (hj : j'.statements = []) :
    List.Forall₂ (Document.Statement.Queues (j ++ j').nodes) t.ended (j ++ j').statements := by
  rw [Journal.statements_append, hj, List.append_nil, Journal.nodes_append]
  exact h.ended.imp fun _ _ hq => hq.append _

/-- A token is read by the rule of a statement. -/
theorem statement {e : Event} {r r' : TransitionRule} {s' : Session η} {control : Control Frame}
    (h : Transcribed (.transition r :: parents) t j) (hu : Underway (.transition r :: parents) t)
    (hpaths : ∀ d ∈ j.nodes, s.controller.HasPath d.1 d.2.2 d.2.1)
    (hr : r.react e s = .ok (r', s', control)) :
    List.Forall₂ (Document.Statement.Queues j.nodes) (t.next (.token e (.transition r) s)).ended
      (j ++ [Entry.queue (r.queuedBy s.controller e)]).statements ∧
      (control = none → Underway (.transition r' :: parents)
        (t.next (.token e (.transition r) s))) := by
  obtain ⟨htracks, hstart⟩ := hu r rfl
  rw [Transcript.next, Journal.statements_append]
  cases he : e.isSymbol ';' with
  | true =>
    have hscope := h.scopes (.transition r) List.mem_cons_self
    obtain ⟨hqueues, hne⟩ := htracks.react_queues he hr hstart hscope hpaths
    refine ⟨?_, fun hnone => ?_⟩
    · obtain ⟨p, ps, hps⟩ := List.exists_cons_of_ne_nil hne
      rw [hps] at hqueues ⊢
      exact List.rel_append h.ended (.cons hqueues .nil)
    · rw [htracks.react_stop he hr] at hnone
      cases hnone
  | false =>
    obtain ⟨hqueued, hreads⟩ := htracks.react_reads he hr
    refine ⟨?_, fun _ q hq => ?_⟩
    · rw [hqueued]
      simpa [Journal.statements] using h.ended
    · obtain rfl : r' = q := by simpa using hq
      refine ⟨hreads, ?_⟩
      rw [(TransitionRule.react_ok hr).1.keeps.2]
      exact (TransitionRule.head?_place hstart e).symm

/-- A rule has handled a token. -/
theorem turn {e : Event} {f f' : Frame} {s' : Session η} {control : Control Frame}
    (h : Transcribed (f :: parents) t j) (hu : Underway (f :: parents) t)
    (hpaths : ∀ d ∈ j.nodes, s.controller.HasPath d.1 d.2.2 d.2.1)
    (hr : f.react e s = .ok (f', s', control)) :
    Transcribed (f' :: parents) (t.next (.token e f s)) (j ++ (Grammar.Call.token e f s).entries) ∧
      (control = none → Underway (f' :: parents) (t.next (.token e f s))) := by
  have hnodes : (j ++ (Grammar.Call.token e f s).entries).nodes =
      j.nodes ++ (f.declared? e s).toList := by
    rw [Journal.nodes_append]
    exact congrArg _ (Grammar.Call.nodes_token e f s)
  have hscopes : ∀ g ∈ f' :: parents, ∀ scope ∈ g.pathScope?,
      scope.Located (j ++ (Grammar.Call.token e f s).entries).nodes := by
    rw [hnodes]
    refine List.forall_mem_cons.2 ⟨(Frame.react_turn hr).located ?_, fun g hg scope hs => ?_⟩
    · exact h.scopes f List.mem_cons_self
    · exact (h.scopes g (List.mem_cons_of_mem _ hg) scope hs).append _
  by_cases hf : ∀ r, f ≠ .transition r
  · refine ⟨⟨?_, hscopes⟩, fun _ r' hr' => ?_⟩
    · rw [t.next_token_of_ne hf]
      exact h.ended_append (Grammar.Call.statements_token hf e s)
    · obtain rfl : f' = .transition r' := Option.some.inj hr'
      cases Frame.react_move hr
      exact absurd rfl (hf _)
  · obtain ⟨r, hf⟩ := not_forall.1 hf
    obtain rfl := not_not.1 hf
    cases Frame.react_move hr with
    | transition hr =>
      obtain ⟨hended, hunderway⟩ := h.statement hu hpaths hr
      refine ⟨⟨?_, hscopes⟩, hunderway⟩
      rw [Journal.nodes_append]
      simpa [Grammar.Call.entries, Frame.declared?, Journal.nodes] using hended

theorem token {e : Event} {f : Frame} {control : Control Frame}
    (h : Transcribed (f :: parents) t j) (hu : Underway (f :: parents) t)
    (hpaths : ∀ d ∈ j.nodes, s.controller.HasPath d.1 d.2.2 d.2.1)
    (hr : (f.onToken e s).result = .ok control) :
    Transcribed ((f.onToken e s).subject :: parents) (t.next (.token e f s))
        (j ++ (Grammar.Call.token e f s).entries) ∧
      (control = none → Underway ((f.onToken e s).subject :: parents) (t.next (.token e f s))) := by
  unfold Frame.onToken at hr ⊢
  split at hr
  · rename_i hreact
    cases hr
    exact h.turn hu hpaths hreact
  · cases hr

/-- A rule has been attached. -/
theorem attach {f g : Frame} {forward : Bool} (h : Transcribed (f :: parents) t j)
    (ha : f.Asks (some (.attach g forward))) (s : Session η) :
    Transcribed ((g.onAttach f.context s).subject :: f :: parents) (t.next (.attach g s)) j ∧
      Underway ((g.onAttach f.context s).subject :: f :: parents) (t.next (.attach g s)) := by
  have hf := h.scopes f List.mem_cons_self
  refine ⟨⟨?_, List.forall_mem_cons.2 ⟨fun scope hs => ?_, h.scopes⟩⟩, fun r hr => ?_⟩
  · cases ha <;> exact h.ended
  · cases ha with
    | layer | parameter | motion | child | machineRecord | stateRecord => cases hs
    | state | machine | machineTransition | stateTransition => exact hf scope hs
  · have hr := Option.some.inj hr
    cases ha with
    | machineTransition | stateTransition =>
      obtain rfl := Frame.transition.inj hr
      exact ⟨TransitionRule.tracks_nil _, rfl⟩
    | _ => cases hr

/-- A rule has been detached. -/
theorem detach {f : Frame} (h : Transcribed (f :: parents) t j) (hs : Stacked (f :: parents))
    (s : Session η) :
    Transcribed parents (t.next (.detach f s)) (j ++ (Grammar.Call.detach f s).entries) ∧
      Underway parents (t.next (.detach f s)) := by
  have hentries : Journal.statements (Grammar.Call.detach f s).entries = [] := by
    cases f with
    | machine r => cases r <;> rfl
    | _ => rfl
  refine ⟨⟨h.ended_append hentries, fun g hg scope hscope => ?_⟩, fun r hr => ?_⟩
  · rw [Journal.nodes_append]
    exact (h.scopes g (List.mem_cons_of_mem _ hg) scope hscope).append _
  · exact absurd hr (hs.1.on_transition r)

end Transcribed

/-- What holds of statements at every moment of a reading in which no token has been refused. -/
theorem Grammar.Reached.transcribed {name : String} {host : η} {stack : List Frame} {s : Session η}
    {calls : List (Grammar.Call Frame (Session η))}
    (h : (Grammar.document η).Reached .document { controller := { name }, host } stack s calls)
    (hcalls : ∀ call ∈ calls, call.Accepted (Grammar.document η)) :
    Transcribed stack (Transcript.ofCalls calls) (calls.flatMap Grammar.Call.entries) ∧
      Underway stack (Transcript.ofCalls calls) := by
  have paths {stack : List Frame} {s : Session η} {calls : List (Grammar.Call Frame (Session η))}
      (h : (Grammar.document η).Reached .document { controller := { name }, host } stack s calls) :
      ∀ d ∈ Journal.nodes (calls.flatMap Grammar.Call.entries),
        s.controller.HasPath d.1 d.2.2 d.2.1 := by
    rw [Grammar.Call.nodes_entries]
    exact h.charted.paths
  induction h with
  | root =>
    refine ⟨⟨.nil, ?_⟩, by rintro r ⟨⟩⟩
    rintro f hf scope hs
    rw [List.mem_singleton.1 hf] at hs
    cases hs
  | @stay top parents s calls e h hstay ih =>
    rw [List.forall_mem_append, List.forall_mem_singleton] at hcalls
    obtain ⟨htranscribed, hunderway⟩ := ih hcalls.1
    obtain ⟨control, hok⟩ := hcalls.2
    obtain ⟨hnext, hnone⟩ := htranscribed.token hunderway (paths h) hok
    rw [Transcript.ofCalls_concat, List.flatMap_append, List.flatMap_singleton]
    refine ⟨hnext, ?_⟩
    cases control with
    | none => exact hnone rfl
    | some change =>
      -- Only the root asks for what is not done, and it is not the rule of a statement.
      obtain ⟨rfl, -⟩ := hstay change hok
      intro r hr
      have hfits := (h.moment.token e).sound.stacked.1
      rw [Option.some.inj hr] at hfits
      cases hfits
  | attach e rule forward h hask ih =>
    rw [List.forall_mem_append] at hcalls
    obtain ⟨htranscribed, hunderway⟩ := ih hcalls.1
    obtain ⟨hnext, -⟩ := htranscribed.token hunderway (paths h) hask
    rw [List.append_cons, Transcript.ofCalls_concat, Transcript.ofCalls_concat,
      List.flatMap_append, List.flatMap_append, List.flatMap_singleton, List.flatMap_singleton]
    exact (List.append_nil _).symm ▸ hnext.attach (Frame.onToken_asks hask) _
  | detach e forward h hask ih =>
    rw [List.forall_mem_append] at hcalls
    obtain ⟨htranscribed, hunderway⟩ := ih hcalls.1
    obtain ⟨hnext, -⟩ := htranscribed.token hunderway (paths h) hask
    rw [List.append_cons, Transcript.ofCalls_concat, Transcript.ofCalls_concat,
      List.flatMap_append, List.flatMap_append, List.flatMap_singleton, List.flatMap_singleton]
    exact hnext.detach (h.moment.token e).sound.stacked _
  | unwind h ih =>
    rw [List.forall_mem_append] at hcalls
    rw [Transcript.ofCalls_concat, List.flatMap_append, List.flatMap_singleton]
    exact (ih hcalls.1).1.detach h.moment.sound.stacked _

/-! ## Documents that have been read -/

/-- Where a document has been read, no token was refused. -/
theorem Document.accepted {source name : String} {host host' : η} {doc : Document}
    (h : Document.read source name host = (.ok doc, host')) :
    ∀ call ∈ Document.calls source name host, call.Accepted (Grammar.document η) := by
  refine Grammar.calls_accepted ?_
  simp only [Document.read] at h
  split at h
  · cases h
  · assumption

/-- Whether what a journal queues are the transitions of statements, one statement after another. -/
structure Journal.QueuedBy (j : Journal) (statements : List Document.Statement) : Prop where
  statements : List.Forall₂ (Document.Statement.Queues j.nodes) statements j.statements
  groups : j.statements.flatten = j.groups

theorem Document.journal_queuedBy {source name : String} {host host' : η} {doc : Document}
    (h : Document.read source name host = (.ok doc, host')) :
    (Document.journal source name host).QueuedBy (Document.statements source name host) := by
  have hreached := Grammar.reached_calls (g := Grammar.document η) .document Frame.document source
    { controller := { name }, host }
  exact ⟨(hreached.transcribed (Document.accepted h)).1.ended, Journal.flatten_statements _⟩

/-- Linking loses nothing that a statement says and duplicates nothing, wherever destinations are
declared; when a layer has ended, no transition of it waits any more. -/
theorem linking_complete {source name : String} {host host' : η} {doc : Document}
    (h : Document.read source name host = (.ok doc, host')) :
    (Document.journal source name host).QueuedBy (Document.statements source name host) ∧
      (∃ a, Written a (Document.journal source name host)) ∧
      doc.LinkedBy (Document.journal source name host) ∧
      (Document.calls source name host).Pairwise fun a b =>
        ∀ p ∈ b.session.pending, a.endedLayer? ≠ some p.layer := by
  have hqueued := Document.journal_queuedBy h
  obtain ⟨s, hm, rfl⟩ := Document.read_moment h
  exact ⟨hqueued, ⟨_, hm.written⟩, hm.shows.linkedBy hm.written rfl, hm.settled⟩

/-- A document with a transition that is carried out of a machine, one that is linked at its end, and
one that is dropped. -/
def Document.carried : String :=
  "layer L { stateMachine M { state A { goto /B; goto C; goto D; } state C { } } state B { } }"

theorem linking_complete_carried :
    ∃ doc host', Document.read Document.carried "Hero" ({} : MemoryHost) = (.ok doc, host') ∧
      ((Document.journal Document.carried "Hero" ({} : MemoryHost)).QueuedBy
          (Document.statements Document.carried "Hero" ({} : MemoryHost)) ∧
        doc.LinkedBy (Document.journal Document.carried "Hero" ({} : MemoryHost))) ∧
      ((Document.statements Document.carried "Hero" ({} : MemoryHost)).map fun statement =>
        statement.tokens.map (·.text)) =
        [["goto", "/", "B", ";"], ["goto", "C", ";"], ["goto", "D", ";"]] ∧
      (doc.controller.transitionsOf (.state ⟨0⟩)).map (·.destination) = [.state ⟨1⟩, .state ⟨2⟩] ∧
      doc.warnings.map (·.code) = [some .unresolvedDestination] :=
  Document.exists_read_and
    (fun _ _ h => ⟨(linking_complete h).1, (linking_complete h).2.2.1⟩) (by decide +kernel)

end MotionScript
