import MotionScript.Proofs.Feeding.Modifiers
/-!
# Reading transitions

A written statement queues the transitions of its group, with the destination they had.
-/

namespace MotionScript.TransitionRule

open Canonical

variable {r : TransitionRule}

/-! ## Interruptions -/

/-- Whether a rule waits for a modifier; behind an interruption source it also takes `ordered`. -/
def AtModifier (r : TransitionRule) : Prop := r.expect = .modifier none ∨ r.expect = .ordered

theorem says_interruption {i : Interruption} {ordered : Bool} (hx : r.expect = .modifier none)
    (hi : r.modifiers.interruption = .none) (ho : r.modifiers.ordered = false)
    (h : i = .none → ordered = false) :
    ∃ fs q, Says (if i = .none then [] else Keyword.spelling i :: wordIf ordered "ordered") fs r q ∧
      q.AtModifier ∧
      q.expecting (.modifier none) = r.modified ({ · with interruption := i, ordered }) := by
  by_cases hn : i = .none
  · rw [if_pos hn]
    refine ⟨[], r, .refl r, .inl hx, ?_⟩
    rw [hn, h hn, expecting, modified, ← hx, ← hi, ← ho]
  · have hspell : Canonical.isBare (Keyword.spelling i).toList = true ∧
        Keyword.spelling i ∈ starters ∧ ∀ r : TransitionRule, ∀ e : Event,
          e.Is (.word (Keyword.spelling i)) → r.wordModifier e =
            .ok ⟨(r.modified ({ · with interruption := i })).expecting .ordered, false⟩ := by
      cases i with
      | none => exact absurd rfl hn
      | _ =>
        refine ⟨by decide, by decide, fun r e he => ?_⟩
        simp +decide [wordModifier, he.word_isKeyword, he.word_text]
        rfl
    obtain ⟨hv, hs, hr⟩ := hspell
    rw [if_neg hn]
    have hsource : Turns [.word (Keyword.spelling i)] r
        ((r.modified ({ · with interruption := i })).expecting .ordered) := by
      apply Turns.look
      intro e start he
      refine ⟨by simp [ends, he.word_isSymbol], ?_⟩
      simp only [look, startedAt, hx, modifier, he.word_kind, hr _ e he]
      rfl
    cases ordered with
    | false =>
      refine ⟨_, _, .one (.word (Keyword.spelling i)) [] ⟨by simp, by simpa using hv⟩ (by simp) hs
        hsource, .inr rfl, ?_⟩
      simp [expecting, modified, ← ho]
    | true =>
      refine ⟨[.word (Keyword.spelling i), .word "ordered"],
        r.modified ({ · with interruption := i, ordered := true }), ⟨?_, ?_, ?_⟩, .inl rfl, rfl⟩
      · exact @Joined.cons _ _ [] _ _ ⟨by simp, by simpa using hv⟩ (by simp)
          (@Joined.cons _ _ [] _ _ ⟨by simp, by simp +decide⟩ (by simp) .nil)
      · intro f hf
        obtain rfl : Form.word (Keyword.spelling i) = f := by simpa using hf
        exact hs
      · show Turns ([_] ++ [_]) _ _
        refine hsource.trans (Turns.look fun e start he => ?_)
        simp +decide [ends, look, startedAt, expecting, he.word_isKeyword, modified]

/-! ## Destinations -/

/-- A word is read at a modifier, whether or not `ordered` could stand there. -/
theorem AtModifier.turns {w : String} {q : TransitionRule} (h : r.AtModifier)
    (hw : Text.equalsIgnoringCase w "ordered" = false)
    (hl : ∀ e start, e.Is (.word w) →
      ((r.expecting (.modifier none)).startedAt start).wordModifier e =
        .ok ⟨q.startedAt start, false⟩) : Turns [.word w] r q := by
  have hlook (e : Event) (start : Option (Span × Position)) (he : e.Is (.word w)) :
      ((r.expecting (.modifier none)).startedAt start).ends e = false ∧
        ((r.expecting (.modifier none)).startedAt start).look e = .ok ⟨q.startedAt start, false⟩ := by
    refine ⟨by simp [ends, he.word_isSymbol], ?_⟩
    rw [← hl e start he]
    simp only [look, startedAt, expecting, modifier, he.word_kind]
  rcases h with h | h
  · have hr : r.expecting (.modifier none) = r := by rw [expecting, ← h]
    rw [hr] at hlook
    exact .look hlook
  · refine ⟨fun hs => .lookTwice _ (fun e start he => ?_) hlook hs⟩
    simp [ends, look, startedAt, expecting, h, he.word_isKeyword, hw]

/-- The rule once it knows its destination. -/
def leading (r : TransitionRule) (g : Goto) : TransitionRule :=
  { r with goto := some g, expect := .modifier none }

/-- Whether only the semicolon is missing. -/
def Leading (r q : TransitionRule) : Prop :=
  r = q ∨ ∀ e start, e.Is (.symbol ';') → (r.startedAt start).ends e = false ∧
    (r.startedAt start).look e = .ok ⟨q.startedAt start, true⟩

theorem says_end (h : r.AtModifier) :
    ∃ fs, Says ["end"] fs r (r.leading .exit) := by
  refine ⟨_, .one (.word "end") [] ⟨by simp, by simp +decide⟩ (by simp)
    (by decide : "end" ∈ starters) (h.turns (by decide) fun e start he => ?_)⟩
  simp +decide [wordModifier, he.word_isKeyword, expecting, startedAt, leading]

theorem turns_goto (h : r.AtModifier) : Turns [.word "goto"] r (r.expecting .gotoStart) := by
  refine h.turns (by decide) fun e start he => ?_
  simp +decide [wordModifier, he.word_isKeyword, expecting, startedAt]

theorem turns_first (n : String) : Turns [.name n] (r.expecting .gotoStart)
    (r.expecting (.gotoNext false [n])) := by
  apply Turns.look
  intro e start he
  simp [ends, look, startedAt, expecting, he.name_isSymbol, he.name_name]
  rfl

/-- The first name of a path that starts with a slash. -/
theorem turns_root (n : String) : Turns [.symbol '/', .name n] (r.expecting .gotoStart)
    (r.expecting (.gotoNext true [n])) := by
  show Turns ([.symbol '/'] ++ [.name n]) _ _
  refine Turns.trans (q := r.expecting (.gotoSegment true [])) ?_ ?_
  · apply Turns.look
    intro e start he
    simp [ends, look, startedAt, expecting, he.symbol_isSymbol]
  · apply Turns.look
    intro e start he
    simp [ends, look, startedAt, expecting, he.name_name]
    rfl

theorem turns_segment (absolute : Bool) (ns : List String) (n : String) :
    Turns [.symbol '/', .name n] (r.expecting (.gotoNext absolute ns))
      (r.expecting (.gotoNext true (ns ++ [n]))) := by
  show Turns ([.symbol '/'] ++ [.name n]) _ _
  refine Turns.trans (q := r.expecting (.gotoSegment true ns)) ?_ ?_
  · apply Turns.look
    intro e start he
    simp [ends, look, startedAt, expecting, he.symbol_isSymbol]
  · apply Turns.look
    intro e start he
    simp [ends, look, startedAt, expecting, he.name_name]
    rfl

theorem turns_segments (ns ns' : List String) :
    ∃ absolute, (ns' ≠ [] → absolute = true) ∧
      Turns (ns'.flatMap fun n => [.symbol '/', .name n]) (r.expecting (.gotoNext false ns))
        (r.expecting (.gotoNext absolute (ns ++ ns'))) := by
  have habsolute (ns ns' : List String) :
      Turns (ns'.flatMap fun n => [.symbol '/', .name n]) (r.expecting (.gotoNext true ns))
        (r.expecting (.gotoNext true (ns ++ ns'))) := by
    induction ns' generalizing ns with
    | nil => simpa using Turns.refl _
    | cons n ns' ih =>
      have := (turns_segment (r := r) true ns n).trans (ih (ns ++ [n]))
      simpa using this
  cases ns' with
  | nil => exact ⟨false, by simp, by simpa using Turns.refl _⟩
  | cons n ns' =>
    refine ⟨true, fun _ => rfl, ?_⟩
    have := (turns_segment (r := r) false ns n).trans (habsolute (ns ++ [n]) ns')
    simpa using this

theorem leading_next {absolute : Bool} {ns : List String} {g : Goto}
    (hg : g = match absolute, ns with
      | false, [n] => .relative n
      | _, ns => .absolute ns) :
    Leading (r.expecting (.gotoNext absolute ns)) (r.leading g) := by
  refine .inr fun e start he => ?_
  simp only [ends, look, startedAt, expecting, he.symbol_isSymbol, leading, hg]
  exact ⟨rfl, rfl⟩

/-- Names behind slashes, right behind a name. -/
theorem chunk_slashes {cs : List Char} {ps : List Piece} (h : Chunk cs ps) (he : Ends ps '/')
    (ns : List String) :
    Chunk (cs ++ ns.flatMap fun n => '/' :: (Canonical.name n).toList)
      (ps ++ ns.flatMap fun n => [(Form.symbol '/').joined, (Form.name n).joined]) ∧
    (Ends ps ';' → Ends (ps ++ ns.flatMap fun n =>
      [(Form.symbol '/').joined, (Form.name n).joined]) ';') := by
  induction ns generalizing cs ps with
  | nil => simpa using h
  | cons n ns ih =>
    have hname : Chunk ((cs ++ ['/']) ++ (Canonical.name n).toList)
        ((ps ++ [(Form.symbol '/').joined]) ++ [(Form.name n).joined]) := by
      refine (h.close (by decide) he).append ⟨by simp, by simp⟩ fun p hp q hq => ?_
      obtain rfl : (Form.name n).joined = q := by simpa using hq
      obtain rfl : (Form.symbol '/').joined = p := by simpa using hp
      simp
    obtain ⟨hc, hends⟩ := ih hname (Ends.append_singleton_iff.2 (by simp))
    refine ⟨by simpa using hc, fun _ => ?_⟩
    simpa using hends (Ends.append_singleton_iff.2 (by simp))

/-- What a transition of a statement in `scope` needs to have for a destination, where `paths` says
which path a node has: the exit, or a node of the layer below its root machine. -/
def Within (paths : Controller.NodePaths) (scope : Scope) (d : Destination) : Option Path → Prop
  | none => d = .exit
  | some path => (∃ node, d = NodeRef.destination node ∧ paths.path? node = some path) ∧
      ∃ layer n ns, path = ⟨layer :: n :: ns⟩ ∧ scope.path.segments.head? = some layer

/-- The target of a transition that leads to a node with a path. -/
def targetOf : Option Path → Target
  | none => .exit
  | some path => .node path

theorem starts_goto : (Form.word "goto").Starts := (by decide : "goto" ∈ starters)

/-- A child of the enclosing machine is written with its name alone. -/
theorem says_child (h : r.AtModifier) (n : String) :
    ∃ fs q, Says ["goto " ++ Canonical.name n] fs r q ∧ Leading q (r.leading (.relative n)) := by
  refine ⟨_, _, .one (.word "goto") [(Form.name n).spaced] ⟨by simp, by simp +decide⟩ (by simp)
    starts_goto ((turns_goto h).trans (turns_first n)), leading_next rfl⟩

/-- A child of the root machine is written behind a slash. -/
theorem says_rooted (h : r.AtModifier) (n : String) :
    ∃ fs q, Says ["goto /" ++ Canonical.name n] fs r q ∧ Leading q (r.leading (.absolute [n])) := by
  refine ⟨_, r.expecting (.gotoNext true [n]), .one (.word "goto") [(Form.symbol '/').spaced,
    (Form.name n).joined] ⟨by simp, by simp +decide⟩ (by simp) starts_goto
      ((turns_goto h).trans (turns_root n)), leading_next rfl⟩

/-- Any other node is written with its path below the layer. -/
theorem says_path (h : r.AtModifier) (n n' : String) (ns : List String) :
    ∃ fs q, Says ["goto " ++ "/".intercalate ((n :: n' :: ns).map Canonical.name)] fs r q ∧
      Leading q (r.leading (.absolute (n :: n' :: ns))) := by
  obtain ⟨absolute, habs, hturns⟩ := turns_segments (r := r) [n] (n' :: ns)
  obtain rfl : absolute = true := habs (by simp)
  have hfirst : Chunk ("goto ".toList ++ (Canonical.name n).toList)
      [(Form.word "goto").joined, (Form.name n).spaced] := ⟨by simp, by simp +decide⟩
  obtain ⟨hc, hends⟩ := chunk_slashes hfirst (by simp) (n' :: ns)
  have hpieces : ((n' :: ns).flatMap fun n =>
      [(Form.symbol '/').joined, (Form.name n).joined]).map Piece.form =
        (n' :: ns).flatMap fun n => [.symbol '/', .name n] := by
    rw [List.map_flatMap]
    rfl
  refine ⟨_, r.expecting (.gotoNext true ([n] ++ n' :: ns)),
    .one (.word "goto") ((Form.name n).spaced :: (n' :: ns).flatMap fun n =>
      [(Form.symbol '/').joined, (Form.name n).joined]) ?_ (hends (by simp)) starts_goto ?_,
    leading_next rfl⟩
  · have hsplit : ("goto " ++ "/".intercalate
        (List.map Canonical.name (n :: n' :: ns))).toList = "goto ".toList ++
          (Canonical.name n).toList ++
            (n' :: ns).flatMap fun n => '/' :: (Canonical.name n).toList := by
      rw [String.toList_append, List.map_cons, toList_intercalate_cons, List.flatMap_map,
        List.append_assoc]
      simp
    rw [← hsplit] at hc
    exact hc
  · rw [List.map_cons, hpieces]
    exact (turns_goto h).trans ((turns_first n).trans hturns)

theorem says_destination (h : r.AtModifier) (c : Controller) {paths : Controller.NodePaths}
    {scope : Scope} {d : Destination} {path : Option Path} (hd : Within paths scope d path) :
    ∃ fs q g, Says [destination c paths scope.path d] fs r q ∧ Leading q (r.leading g) ∧
      target default scope (some g) = targetOf path := by
  cases path with
  | none =>
    obtain rfl : d = .exit := hd
    obtain ⟨fs, hs⟩ := says_end h
    exact ⟨fs, _, .exit, hs, .inl rfl, rfl⟩
  | some path =>
    obtain ⟨⟨node, rfl, hpath⟩, layer, n, ns, rfl, hlayer⟩ := hd
    have htext : destination c paths scope.path node.destination =
        destination.goto c paths scope.path node := by cases node <;> rfl
    have htake : scope.path.segments.take 1 = [layer] := by
      rw [List.take_one, hlayer]
      rfl
    rw [htext, destination.goto, hpath]
    simp only
    by_cases hparent : Path.parent? ⟨layer :: n :: ns⟩ = some scope.path
    · obtain ⟨m, hm⟩ : ∃ m, (layer :: n :: ns).getLast? = some m := by
        exact ⟨_, List.getLast?_eq_some_getLast (by simp)⟩
      have hname : (Path.name? ⟨layer :: n :: ns⟩) = some m := by simp [Path.name?, hm]
      have hjoin : scope.path.join m = ⟨layer :: n :: ns⟩ := by
        have hscope : scope.path = ⟨(layer :: n :: ns).dropLast⟩ := by
          simpa [Path.parent?, Path.isRoot] using hparent.symm
        rw [hscope, Path.join, List.dropLast_append_getLast? m hm]
      rw [if_pos hparent, hname]
      obtain ⟨fs, q, hsays, hleads⟩ := says_child h m
      exact ⟨fs, q, .relative m, hsays, hleads, congrArg Target.node hjoin⟩
    · rw [if_neg hparent]
      have htarget : target default scope (some (.absolute (n :: ns))) =
          targetOf (some ⟨layer :: n :: ns⟩) := by
        rw [target, htake]
        rfl
      cases ns with
      | nil =>
        obtain ⟨fs, q, hsays, hleads⟩ := says_rooted h n
        exact ⟨fs, q, _, hsays, hleads, htarget⟩
      | cons n' ns =>
        obtain ⟨fs, q, hsays, hleads⟩ := says_path h n n' ns
        exact ⟨fs, q, _, hsays, hleads, htarget⟩

/-! ## Statements -/

/-- The modifiers of a transition as they are read back. -/
def modifiersBack (t : Transition) : Transition :=
  { t with
    destination := .exit
    conditions := []
    duration := if t.duration != .zero || t.fixedDuration then t.duration else .zero
    offset := offsetBack t.offset }

/-- What a statement that starts with `first` queues for a transition of its group. -/
def pendingOf (scope : Scope) (any : Bool) (path : Option Path) (first t : Transition) : Pending where
  transition := { modifiersBack first with conditions := t.conditions.map Condition.readBack }
  target := targetOf path
  home := home scope any
  owner := scope.machine
  layer := scope.layer
  hint := []
  span := ⟨0, 0⟩
  position := ⟨0, 0⟩

/-- Whether a statement can be written for a transition. -/
structure Writable (t : Transition) : Prop where
  exitTime : ∀ x ∈ t.exitTime, x.isFinite = true
  duration : t.duration.isFinite = true
  offset : t.offset.isFinite = true
  thresholds : ∀ c ∈ t.conditions, c.threshold.isFinite = true
  /-- Thresholds that mean nothing are not written. -/
  zeros : ∀ c ∈ t.conditions, c.mode = .holds ∨ c.mode = .fails → c.threshold.isZero = true
  ordered : t.interruption = .none → t.ordered = false

theorem says_alternatives {first : Transition} {group : List Transition}
    (hx : r.expect = .modifier none) (hg : r.groups = []) (hb : r.bracket = false)
    (h : ∀ t ∈ group, Writable t) (hfirst : first ∈ group)
    (hsome : first.conditions ≠ [] → ∀ t ∈ group, t.conditions ≠ [])
    (hnone : first.conditions = [] → group = [first]) :
    ∃ fs groups, Says (wordIf (!first.conditions.isEmpty) ("if(" ++ " || ".intercalate
        (group.map fun t => " && ".intercalate (t.conditions.map condition)) ++ ")")) fs r
        { r with groups } ∧
      (if groups.isEmpty then [[]] else groups) =
        group.map fun t => t.conditions.map Condition.readBack := by
  by_cases hc : first.conditions = []
  · refine ⟨[], r.groups, by simpa [hc, wordIf] using Says.refl r, ?_⟩
    rw [hnone hc]
    simp [hg, hc]
  · have hne : group.map (·.conditions) ≠ [] := by
      rintro h
      rw [List.map_eq_nil_iff.1 h] at hfirst
      cases hfirst
    have hall : ∀ cs ∈ group.map (·.conditions),
        cs ≠ [] ∧ ∀ c ∈ cs, c.threshold.isFinite = true := by
      intro cs hcs
      obtain ⟨t, ht, rfl⟩ := List.mem_map.1 hcs
      exact ⟨hsome hc t ht, (h t ht).thresholds⟩
    obtain ⟨fs, hs⟩ := says_if hx hg hb hne hall
    refine ⟨fs, (group.map (·.conditions)).map fun cs => cs.map Condition.readBack, ?_, ?_⟩
    · simpa [hc, wordIf, List.map_map, Function.comp_def] using hs
    · have hgroup : group ≠ [] := List.ne_nil_of_mem hfirst
      simp [hgroup, Function.comp_def]

/-- A written statement queues the transitions of its group. -/
theorem goes_statement (c : Controller) {paths : Controller.NodePaths} {scope : Scope} {any : Bool}
    {first : Transition} {group : List Transition} {path : Option Path}
    (h : ∀ t ∈ group, Writable t) (hfirst : first ∈ group)
    (hsome : first.conditions ≠ [] → ∀ t ∈ group, t.conditions ≠ [])
    (hnone : first.conditions = [] → group = [first])
    (hd : Within paths scope first.destination path) :
    ∃ f ps, Chunk (statement c paths scope.path any first group).toList (f.joined :: ps) ∧
      f.Starts ∧ Goes (f :: ps.map Piece.form) { scope := some scope }
        (group.map (pendingOf scope any path first)) := by
  have hf := h first hfirst
  -- The rule in front of the condition, with the modifiers that are written before it.
  let r₀ : TransitionRule := { scope := some scope }
  let r₁ := r₀.modified ({ · with muted := first.muted })
  let r₂ := r₁.modified ({ · with solo := first.solo })
  let r₃ := { r₂ with any }
  let r₄ := r₃.modified ({ · with toSelf := first.toSelf })
  let r₅ := r₄.modified ({ · with exitTime := first.exitTime })
  obtain ⟨_, h₁⟩ := says_muted (r := r₀) rfl rfl first.muted
  obtain ⟨_, h₂⟩ := says_solo (r := r₁) rfl rfl first.solo
  obtain ⟨_, h₃⟩ := says_any (r := r₂) rfl rfl any
  obtain ⟨_, h₄⟩ := says_noSelf (r := r₃) rfl rfl first.toSelf
  obtain ⟨_, h₅⟩ := says_wait (r := r₄) rfl rfl hf.exitTime
  obtain ⟨_, groups, h₆, hgroups⟩ := says_alternatives (r := r₅) rfl rfl rfl h hfirst hsome hnone
  let r₆ := { r₅ with groups }
  obtain ⟨_, h₇⟩ := says_fade (r := r₆) first.duration first.fixedDuration rfl rfl rfl hf.duration
  let r₇ := r₆.modified fun t => { t with
    duration := if first.duration != .zero || first.fixedDuration then first.duration else .zero
    fixedDuration := first.fixedDuration }
  obtain ⟨_, h₈⟩ := says_offset (r := r₇) rfl rfl hf.offset
  let r₈ := r₇.modified ({ · with offset := offsetBack first.offset })
  obtain ⟨_, r₉, h₉, hat, hr₉⟩ := says_interruption (r := r₈) rfl rfl rfl hf.ordered
  obtain ⟨_, q, g, h₁₀, hlead, htarget⟩ := says_destination hat c hd
  have hall := ((((((((h₁.trans h₂).trans h₃).trans h₄).trans h₅).trans h₆).trans h₇).trans
    h₈).trans h₉).trans h₁₀
  obtain ⟨f, ps, hchunk, hhead, hforms⟩ :=
    hall.joined.chunk (List.append_ne_nil_of_right_ne_nil _ (List.cons_ne_nil _ _))
  refine ⟨f, ps, hchunk, hall.starts f hhead, ?_⟩
  have hq : r₉.leading g = (r₉.expecting (.modifier none)).leading g := rfl
  rw [hr₉] at hq
  have hqueued : (r₉.leading g).bareQueued scope = group.map (pendingOf scope any path first) := by
    have hpending (conditions : List Condition) : (⟨{ modifiersBack first with conditions },
        target default scope (some g), home scope any, scope.machine, scope.layer, [], ⟨0, 0⟩,
          ⟨0, 0⟩⟩ : Pending) = ⟨{ modifiersBack first with conditions }, targetOf path,
            home scope any, scope.machine, scope.layer, [], ⟨0, 0⟩, ⟨0, 0⟩⟩ := by rw [htarget]
    rw [hq, bareQueued]
    show (if groups.isEmpty then [[]] else groups).map _ = _
    rw [hgroups, List.map_map]
    exact List.map_congr_left fun t _ => hpending _
  rw [hforms, ← hqueued]
  refine hall.turns.goes (Goes.finish ?_ ?_ ?_ rfl hlead)
  · rw [hq]
    rfl
  · rfl
  · rw [hq]
    rfl

end MotionScript.TransitionRule
