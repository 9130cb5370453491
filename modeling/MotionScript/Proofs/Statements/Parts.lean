import MotionScript.Proofs.Conditions.Meaning
import MotionScript.Proofs.Feeding.Blocks
/-!
# The parts of a statement

A statement is made of parts, each a modifier, a condition or a destination. What a part says is kept
in a field of the rule that no part of another kind touches, so the order of the parts does not
matter. Some parts can be written in several ways, with brackets and without them.
-/

namespace MotionScript

/-! ## Tests -/

namespace Relation

/-- The symbols of a comparison. -/
inductive Spells : Relation → List Event → Prop where
  | greater {e : Event} (h : e.isSymbol '>' = true) : Spells .greater [e]
  | less {e : Event} (h : e.isSymbol '<' = true) : Spells .less [e]
  | equals {e e' : Event} (h : e.isSymbol '=' = true) (h' : e'.isSymbol '=' = true) :
    Spells .equals [e, e']
  | notEqual {e e' : Event} (h : e.isSymbol '!' = true) (h' : e'.isSymbol '=' = true) :
    Spells .notEqual [e, e']

end Relation

namespace Test

/-- The tokens of a test. -/
inductive Spells : Test → List Event → Prop where
  | bare {e : Event} {parameter : String} (h : e.name? = some parameter) :
    Spells (.bare parameter) [e]
  | negated {e e' : Event} {parameter : String} (h : e.isSymbol '!' = true)
    (h' : e'.name? = some parameter) : Spells (.negated parameter) [e, e']
  | compared {e e' : Event} {es : List Event} {parameter : String} {relation : Relation}
    {threshold : Single} (h : e.name? = some parameter) (hes : relation.Spells es)
    (h' : e'.single? = some threshold) :
    Spells (.compared parameter relation threshold) (e :: (es ++ [e']))

end Test

namespace TransitionRule

/-! ## Parts -/

/-- What a part of a statement says. -/
inductive Part where
  | muted
  | solo
  | any
  | noSelf
  /-- A condition in its alternatives, each a conjunction. -/
  | condition (alternatives : List (List Test))
  | wait (time : Single)
  | fade (duration : Single) (seconds : Bool)
  | offset (x : Single)
  | interruption (i : Interruption) (ordered : Bool)
  | goto (g : Goto)
deriving DecidableEq, Repr

namespace Part

/-- The kinds of parts. The exit is a destination like any other. -/
inductive Kind where
  | muted
  | solo
  | any
  | noSelf
  | condition
  | wait
  | fade
  | offset
  | interruption
  | destination
deriving DecidableEq, Repr

def kind : Part → Kind
  | muted => .muted
  | solo => .solo
  | any => .any
  | noSelf => .noSelf
  | condition _ => .condition
  | wait _ => .wait
  | fade .. => .fade
  | offset _ => .offset
  | interruption .. => .interruption
  | goto _ => .destination

/-- What a part adds to the rule of its statement. -/
def apply (r : TransitionRule) : Part → TransitionRule
  | muted => r.modified ({ · with muted := true })
  | solo => r.modified ({ · with solo := true })
  | any => { r with any := true }
  | noSelf => r.modified ({ · with toSelf := false })
  | condition alternatives =>
    { r with groups := r.groups ++ alternatives.map fun tests => tests.map Test.condition }
  | wait time => r.modified ({ · with exitTime := some time })
  | fade duration seconds => r.modified fun t =>
    { t with duration, fixedDuration := seconds || t.fixedDuration }
  | offset x => r.modified ({ · with offset := x })
  | interruption i ordered => r.modified fun t =>
    { t with interruption := i, ordered := ordered || t.ordered }
  | goto g => { r with goto := some g }

/-- The rule of a statement behind its parts. -/
def applyAll (r : TransitionRule) (ps : List Part) : TransitionRule := ps.foldl apply r

variable {p q : Part} {ps ps' : List Part} {r : TransitionRule}

/-! ### The order of parts -/

/-- Parts of different kinds change different fields. -/
theorem apply_comm (h : p.kind ≠ q.kind) (r : TransitionRule) :
    (p.apply r |> q.apply) = (q.apply r |> p.apply) := by
  cases p <;> cases q <;> first | rfl | exact absurd rfl h

theorem applyAll_perm (hp : ps.Perm ps') (h : (ps.map kind).Nodup) (r : TransitionRule) :
    applyAll r ps = applyAll r ps' := by
  refine hp.foldl_eq' (fun p hp q hq r => ?_) r
  by_cases hk : p.kind = q.kind
  · rw [List.inj_on_of_nodup_map h hp hq hk]
  · exact apply_comm hk r

/-! ### What parts leave alone -/

theorem apply_expect (h : r.expect = .modifier none) (p : Part) :
    (p.apply r).expect = .modifier none := by
  cases p <;> first | exact h | rfl

@[simp]
theorem apply_bracket (r : TransitionRule) (p : Part) : (p.apply r).bracket = r.bracket := by
  cases p <;> rfl

@[simp]
theorem applyAll_bracket (r : TransitionRule) (ps : List Part) :
    (applyAll r ps).bracket = r.bracket := by
  induction ps generalizing r with
  | nil => rfl
  | cons p ps ih => exact (ih (p.apply r)).trans (apply_bracket r p)

/-- The statement says the same wherever it stands. -/
theorem applyAll_placed (r : TransitionRule) (ps : List Part) (scope : Option Scope)
    (start : Option (Span × Position)) :
    applyAll { r with scope, start } ps = { applyAll r ps with scope, start } := by
  induction ps generalizing r with
  | nil => rfl
  | cons p ps ih =>
    have hp : p.apply { r with scope, start } = { p.apply r with scope, start } := by cases p <;> rfl
    rw [applyAll, List.foldl_cons, hp]
    exact ih (p.apply r)

end Part

/-! ## How parts are written -/

/-- Tokens that can stand between brackets. -/
inductive Bracketed (spells : List Event → Prop) : List Event → Prop where
  | bare {es : List Event} (h : spells es) : Bracketed spells es
  | within {e e' : Event} {es : List Event} (he : e.isSymbol '(' = true) (h : spells es)
    (he' : e'.isSymbol ')' = true) : Bracketed spells (e :: (es ++ [e']))

/-- A word that need not be there. -/
inductive Marked (w : String) : Bool → List Event → Prop where
  | absent : Marked w false []
  | present {e : Event} (h : e.isKeyword w = true) : Marked w true [e]

/-- The tokens of a condition: `&&` joins the tests of a conjunction, `||` starts the next one. -/
inductive Alternatives : List (List Test) → List Event → Prop where
  | test {t : Test} {es : List Event} (ht : t.Spells es) : Alternatives [[t]] es
  | and {tss : List (List Test)} {ts : List Test} {t : Test} {es es' : List Event} {e e' : Event}
    (h : Alternatives (tss ++ [ts]) es) (he : e.isSymbol '&' = true) (he' : e'.isSymbol '&' = true)
    (ht : t.Spells es') : Alternatives (tss ++ [ts ++ [t]]) (es ++ (e :: e' :: es'))
  | or {tss : List (List Test)} {t : Test} {es es' : List Event} {e e' : Event}
    (h : Alternatives tss es) (he : e.isSymbol '|' = true) (he' : e'.isSymbol '|' = true)
    (ht : t.Spells es') : Alternatives (tss ++ [[t]]) (es ++ (e :: e' :: es'))

/-- A number, and the word behind it for seconds. -/
inductive Duration (duration : Single) (seconds : Bool) : List Event → Prop where
  | mk {e : Event} {es : List Event} (h : e.single? = some duration) (hes : Marked "s" seconds es) :
    Duration duration seconds (e :: es)

/-- Signs in front of a number, and whether they make it negative. -/
inductive Signs : Bool → List Event → Prop where
  | nil : Signs false []
  | plus {negative : Bool} {es : List Event} {e : Event} (h : Signs negative es)
    (he : e.isSymbol '+' = true) : Signs negative (es ++ [e])
  | minus {negative : Bool} {es : List Event} {e : Event} (h : Signs negative es)
    (he : e.isSymbol '-' = true) : Signs (!negative) (es ++ [e])

/-- The names of a path, and whether a slash stands in front of them or between them. -/
inductive Names : Bool → List String → List Event → Prop where
  | relative {e : Event} {n : String} (h : e.name? = some n) : Names false [n] [e]
  | root {e e' : Event} {n : String} (he : e.isSymbol '/' = true) (h : e'.name? = some n) :
    Names true [n] [e, e']
  | into {absolute : Bool} {ns : List String} {n : String} {es : List Event} {e e' : Event}
    (h : Names absolute ns es) (he : e.isSymbol '/' = true) (h' : e'.name? = some n) :
    Names true (ns ++ [n]) (es ++ [e, e'])

/-- Where a path leads. -/
def goal (absolute : Bool) (ns : List String) : Goto :=
  match absolute, ns with
  | false, [n] => .relative n
  | _, ns => .absolute ns

/-- The tokens of a part. -/
inductive Part.Spells : Part → List Event → Prop where
  | muted {e : Event} (h : e.isKeyword "muted" = true) : Spells .muted [e]
  | solo {e : Event} (h : e.isKeyword "solo" = true) : Spells .solo [e]
  | any {e : Event} (h : e.isKeyword "any" = true) : Spells .any [e]
  | noSelf {e : Event} (h : e.isKeyword "noSelf" = true) : Spells .noSelf [e]
  | condition {e : Event} {tss : List (List Test)} {es : List Event} (h : e.isKeyword "if" = true)
    (hes : Bracketed (Alternatives tss) es) : Spells (.condition tss) (e :: es)
  | wait {e : Event} {time : Single} {es : List Event} (h : e.isKeyword "wait" = true)
    (hes : Bracketed (fun es => ∃ e, es = [e] ∧ e.single? = some time) es) :
    Spells (.wait time) (e :: es)
  | fade {e : Event} {duration : Single} {seconds : Bool} {es : List Event}
    (h : e.isKeyword "fade" = true) (hes : Bracketed (Duration duration seconds) es) :
    Spells (.fade duration seconds) (e :: es)
  | offset {negative : Bool} {x : Single} {es : List Event} {e : Event} (hes : Signs negative es)
    (h : e.single? = some x) : Spells (.offset (signed negative x)) (es ++ [e])
  | interruption {e : Event} {i : Interruption} {ordered : Bool} {es : List Event}
    (h : e.isKeyword (Keyword.spelling i) = true) (hes : Marked "ordered" ordered es) :
    Spells (.interruption i ordered) (e :: es)
  | exit {e : Event} (h : e.isKeyword "end" = true) : Spells (.goto .exit) [e]
  | goto {e : Event} {absolute : Bool} {ns : List String} {es : List Event}
    (h : e.isKeyword "goto" = true) (hes : Names absolute ns es) :
    Spells (.goto (goal absolute ns)) (e :: es)

/-- The tokens of parts one after another. -/
inductive Statement : List Part → List Event → Prop where
  | nil : Statement [] []
  | cons {p : Part} {ps : List Part} {es es' : List Event} (h : p.Spells es) (hs : Statement ps es') :
    Statement (p :: ps) (es ++ es')

end TransitionRule

end MotionScript
