import MotionScript.Grammar.Transition
/-!
# What a condition clause means

The words of a condition clause are read with the usual precedence: brackets group what is in them, a
conjunction binds tighter than an alternative. A statement keeps a list of conjunctions, to which each
word adds from left to right. The list has the value of the clause where no conjunction has an
alternative inside.
-/

namespace MotionScript

open TransitionRule (addCondition)

/-! ## Tests -/

/-- How a parameter is compared with a number. -/
inductive Relation where
  | greater
  | less
  | equals
  | notEqual
deriving DecidableEq, Repr

def Relation.mode : Relation → ConditionMode
  | greater => .greater
  | less => .less
  | equals => .equals
  | notEqual => .notEqual

/-- A test as it is written. -/
inductive Test where
  | bare (parameter : String)
  | negated (parameter : String)
  | compared (parameter : String) (relation : Relation) (threshold : Single)
deriving DecidableEq, Repr

/-- The condition that a test becomes. -/
def Test.condition : Test → Condition
  | bare parameter => ⟨parameter, .holds, .zero⟩
  | negated parameter => ⟨parameter, .fails, .zero⟩
  | compared parameter relation threshold => ⟨parameter, relation.mode, threshold⟩

/-- Truth values of the atomic tests, each one parameter with a mode and a threshold. -/
abbrev Assignment := Condition → Bool

/-- The value of a test as it is written. -/
def Test.value (v : Assignment) : Test → Bool
  | bare parameter => v ⟨parameter, .holds, .zero⟩
  | negated parameter => !v ⟨parameter, .holds, .zero⟩
  | compared parameter relation threshold => v ⟨parameter, relation.mode, threshold⟩

/-- The value of a condition of a transition. That a parameter fails is that it does not hold. -/
def Condition.value (v : Assignment) (c : Condition) : Bool :=
  match c.mode with
  | .fails => !v { c with mode := .holds }
  | _ => v c

@[simp]
theorem Test.value_condition (v : Assignment) (t : Test) : t.condition.value v = t.value v := by
  cases t with
  | compared parameter relation threshold => cases relation <;> rfl
  | _ => rfl

/-- Whether the conditions of one of several transitions hold. -/
def anyHolds (v : Assignment) (groups : List (List Condition)) : Bool :=
  groups.any fun group => group.all (·.value v)

@[simp]
theorem anyHolds_append (v : Assignment) (groups groups' : List (List Condition)) :
    anyHolds v (groups ++ groups') = (anyHolds v groups || anyHolds v groups') := by
  simp [anyHolds]

/-! ## Words and formulas -/

/-- The words of a condition clause. -/
inductive Word where
  /-- `if`, which starts a clause or a further alternative. -/
  | start
  | or
  | and
  | opening
  | closing
  | test (t : Test)
deriving DecidableEq, Repr

def Word.isAlternative : Word → Bool
  | start | or => true
  | _ => false

def Word.isBracket : Word → Bool
  | opening | closing => true
  | _ => false

inductive Formula where
  | test (t : Test)
  | and (f g : Formula)
  | or (f g : Formula)

namespace Formula

def value (v : Assignment) : Formula → Bool
  | test t => t.value v
  | and f g => f.value v && g.value v
  | or f g => f.value v || g.value v

/-- Whether there is an alternative in a formula. -/
def hasOr : Formula → Bool
  | test _ => false
  | and f g => f.hasOr || g.hasOr
  | or _ _ => true

/-- Whether no conjunction has an alternative inside. -/
def isNormal : Formula → Bool
  | test _ => true
  | and f g => !f.hasOr && !g.hasOr
  | or f g => f.isNormal && g.isNormal

end Formula

/-- How tight the words of a formula hold together. -/
inductive Level where
  | factor
  | conjunction
  | disjunction
deriving DecidableEq, Repr

/-- What words are read as. -/
inductive Reads : Level → List Word → Formula → Prop where
  | test (t : Test) : Reads .factor [.test t] (.test t)
  | bracket {ws : List Word} {f : Formula} (h : Reads .disjunction ws f) :
    Reads .factor (.opening :: (ws ++ [.closing])) f
  | factor {ws : List Word} {f : Formula} (h : Reads .factor ws f) : Reads .conjunction ws f
  | and {ws ws' : List Word} {f g : Formula} (h : Reads .conjunction ws f)
    (h' : Reads .factor ws' g) : Reads .conjunction (ws ++ .and :: ws') (.and f g)
  | conjunction {ws : List Word} {f : Formula} (h : Reads .conjunction ws f) :
    Reads .disjunction ws f
  | or {ws ws' : List Word} {f g : Formula} {w : Word} (h : Reads .disjunction ws f)
    (hw : w.isAlternative = true) (h' : Reads .conjunction ws' g) :
    Reads .disjunction (ws ++ w :: ws') (.or f g)

/-- A further factor joins the last conjunction. -/
theorem Reads.append_and {ws ws' : List Word} {f g : Formula} (h : Reads .disjunction ws f)
    (h' : Reads .factor ws' g) : ∃ f', Reads .disjunction (ws ++ .and :: ws') f' := by
  cases h with
  | conjunction h => exact ⟨_, .conjunction (h.and h')⟩
  | @or ws₁ ws₂ f₁ f₂ w h₁ hw h₂ =>
    rw [List.append_assoc, List.cons_append]
    exact ⟨_, .or h₁ hw (h₂.and h')⟩

/-- There is an alternative inside of a conjunction only in brackets. -/
theorem Reads.isNormal {level : Level} {ws : List Word} {f : Formula} (h : Reads level ws f)
    (hws : ∀ w ∈ ws, w.isBracket = false) :
    f.isNormal = true ∧ (level ≠ .disjunction → f.hasOr = false) := by
  induction h with
  | test t => exact ⟨rfl, fun _ => rfl⟩
  | bracket h ih => exact absurd (hws _ List.mem_cons_self) (by decide)
  | factor h ih => exact ⟨(ih hws).1, fun _ => (ih hws).2 (by decide)⟩
  | and h h' ih ih' =>
    simp only [List.forall_mem_append, List.forall_mem_cons] at hws
    have hf := (ih hws.1).2 (by decide)
    have hg := (ih' hws.2.2).2 (by decide)
    exact ⟨by simp [Formula.isNormal, hf, hg], fun _ => by simp [Formula.hasOr, hf, hg]⟩
  | conjunction h ih => exact ⟨(ih hws).1, fun hl => absurd rfl hl⟩
  | or h hw h' ih ih' =>
    simp only [List.forall_mem_append, List.forall_mem_cons] at hws
    exact ⟨by simp [Formula.isNormal, (ih hws.1).1, (ih' hws.2.2).1], fun hl => absurd rfl hl⟩

/-! ## The alternatives of a clause -/

/-- What a word does to the alternatives: a new one begins, or the last one gets a condition. -/
def Word.extend (groups : List (List Condition)) : Word → List (List Condition)
  | start | or => groups ++ [[]]
  | test t => addCondition groups t.condition
  | and | opening | closing => groups

/-- The alternatives of a clause, each a conjunction. Brackets have no part in them. -/
def conjunctions (ws : List Word) : List (List Condition) := ws.foldl Word.extend []

theorem conjunctions_append (ws : List Word) (w : Word) :
    conjunctions (ws ++ [w]) = w.extend (conjunctions ws) := by
  simp [conjunctions]

theorem addCondition_cons {groups : List (List Condition)} (h : groups ≠ []) (group : List Condition)
    (c : Condition) : addCondition (group :: groups) c = group :: addCondition groups c := by
  cases groups with
  | nil => exact absurd rfl h
  | cons g gs => rfl

/-- Only the last alternative is added to. -/
theorem Word.extend_append (groups : List (List Condition)) {groups' : List (List Condition)}
    (h : groups' ≠ []) (w : Word) :
    w.extend (groups ++ groups') = groups ++ w.extend groups' ∧ w.extend groups' ≠ [] := by
  cases w with
  | test t =>
    refine ⟨?_, ?_⟩
    · induction groups with
      | nil => rfl
      | cons group groups ih =>
        rw [List.cons_append, extend, addCondition_cons (by simp [h])]
        exact congrArg (group :: ·) ih
    · cases groups' with
      | nil => exact absurd rfl h
      | cons g gs => cases gs <;> simp [extend, addCondition]
  | _ => simp [extend, h]

theorem foldl_extend_append (ws : List Word) (groups : List (List Condition))
    {groups' : List (List Condition)} (h : groups' ≠ []) :
    ws.foldl Word.extend (groups ++ groups') = groups ++ ws.foldl Word.extend groups' := by
  induction ws generalizing groups' with
  | nil => rfl
  | cons w ws ih =>
    obtain ⟨happend, hne⟩ := Word.extend_append groups h w
    rw [List.foldl_cons, List.foldl_cons, happend, ih hne]

/-- Brackets do not change the alternatives. -/
theorem conjunctions_unbracketed (ws : List Word) :
    conjunctions (ws.filter (!·.isBracket)) = conjunctions ws := by
  unfold conjunctions
  generalize ([] : List (List Condition)) = groups
  induction ws generalizing groups with
  | nil => rfl
  | cons w ws ih =>
    cases hw : w.isBracket with
    | false => simp [hw, ih]
    | true =>
      have hextend : w.extend groups = groups := by cases w <;> first | rfl | cases hw
      simp [hw, ih, hextend]

section

variable {level : Level} {ws : List Word} {f : Formula}

/-- Words without an alternative add to the present one. -/
theorem Reads.foldl_extend_group (v : Assignment) (h : Reads level ws f) (hf : f.hasOr = false)
    (group : List Condition) : ∃ group', ws.foldl Word.extend [group] = [group'] ∧
      group'.all (·.value v) = (group.all (·.value v) && f.value v) := by
  induction h generalizing group with
  | test t => exact ⟨group ++ [t.condition], rfl, by simp [Formula.value]⟩
  | bracket h ih =>
    obtain ⟨group', hgroup, hv⟩ := ih hf group
    exact ⟨group', by simp [Word.extend, hgroup], hv⟩
  | factor h ih => exact ih hf group
  | and h h' ih ih' =>
    rw [Formula.hasOr, Bool.or_eq_false_iff] at hf
    obtain ⟨group₁, hgroup₁, hv₁⟩ := ih hf.1 group
    obtain ⟨group₂, hgroup₂, hv₂⟩ := ih' hf.2 group₁
    refine ⟨group₂, by simp [hgroup₁, Word.extend, hgroup₂], ?_⟩
    rw [hv₂, hv₁, Formula.value, Bool.and_assoc]
  | conjunction h ih => exact ih hf group
  | or h hw h' => cases hf

/-- If no conjunction has an alternative inside, one of the alternatives holds just if the formula
does. -/
theorem Reads.anyHolds_extend (v : Assignment) (h : Reads level ws f) (hf : f.isNormal = true) :
    anyHolds v (ws.foldl Word.extend [[]]) = f.value v ∧ ws.foldl Word.extend [[]] ≠ [] := by
  have hgroup {level : Level} {ws : List Word} {f : Formula} (h : Reads level ws f)
      (hf : f.hasOr = false) : anyHolds v (ws.foldl Word.extend [[]]) = f.value v ∧
        ws.foldl Word.extend [[]] ≠ [] := by
    obtain ⟨group, hgroup, hv⟩ := h.foldl_extend_group v hf []
    rw [hgroup]
    exact ⟨by simp [anyHolds, hv], by simp⟩
  induction h with
  | test t => exact hgroup (.test t) rfl
  | bracket h ih => simpa [Word.extend] using ih hf
  | factor h ih => exact ih hf
  | and h h' =>
    refine hgroup (h.and h') ?_
    simpa [Formula.isNormal, Formula.hasOr] using hf
  | conjunction h ih => exact ih hf
  | @or ws₁ ws₂ f₁ f₂ w h₁ hw h₂ ih₁ ih₂ =>
    simp only [Formula.isNormal, Bool.and_eq_true] at hf
    have hextend (groups : List (List Condition)) : w.extend groups = groups ++ [[]] := by
      cases w <;> first | rfl | cases hw
    rw [List.foldl_append, List.foldl_cons, hextend,
      foldl_extend_append ws₂ _ (List.cons_ne_nil _ _), anyHolds_append, (ih₁ hf.1).1, (ih₂ hf.2).1]
    exact ⟨rfl, by simp [(ih₁ hf.1).2]⟩

/-- The alternatives of a clause that has been started. -/
theorem Reads.anyHolds_conjunctions (v : Assignment) (h : Reads level ws f)
    (hf : f.isNormal = true) : anyHolds v (conjunctions (.start :: ws)) = f.value v :=
  (h.anyHolds_extend v hf).1

end

/-! ## Clauses -/

/-- What the words of a statement are read as: no condition, or a clause behind its `if`. -/
inductive Clause : List Word → Option Formula → Prop where
  | none : Clause [] none
  | some {ws : List Word} {f : Formula} (h : Reads .disjunction ws f) :
    Clause (.start :: ws) (some f)

/-- The conditions of the transitions of a statement, by the words of its clause. -/
def groupsOf (ws : List Word) : List (List Condition) := if ws.isEmpty then [[]] else conjunctions ws

/-- The value of a clause; a statement without one holds always. -/
def Clause.value (v : Assignment) (f : Option Formula) : Bool := f.elim true (·.value v)

theorem Clause.anyHolds_groupsOf {ws : List Word} {f : Option Formula} (h : Clause ws f)
    (hf : ∀ g ∈ f, g.isNormal = true) (v : Assignment) :
    anyHolds v (groupsOf ws) = Clause.value v f := by
  cases h with
  | none => rfl
  | some h => exact h.anyHolds_conjunctions v (hf _ rfl)

/-! ## Clauses word by word -/

/-- Whether words are a formula. -/
def Whole (ws : List Word) : Prop := ∃ f, Reads .disjunction ws f

/-- Words behind which an operand is expected, and a bracket if `opening`. -/
inductive Awaits : Bool → List Word → Prop where
  | first {opening : Bool} : Awaits opening []
  | alternative {opening : Bool} {ws : List Word} {w : Word} (h : Whole ws)
    (hw : w.isAlternative = true) : Awaits opening (ws ++ [w])
  | and {ws : List Word} (h : Whole ws) : Awaits false (ws ++ [.and])

theorem Awaits.weaken {opening : Bool} {ws : List Word} (h : Awaits opening ws) :
    Awaits false ws := by
  cases h with
  | first => exact .first
  | alternative h hw => exact .alternative h hw
  | and h => exact .and h

theorem Awaits.factor {opening : Bool} {ws ws' : List Word} {f : Formula} (h : Awaits opening ws)
    (h' : Reads .factor ws' f) : Whole (ws ++ ws') := by
  cases h with
  | first => exact ⟨_, .conjunction (.factor h')⟩
  | alternative h hw =>
    obtain ⟨g, h⟩ := h
    rw [List.append_assoc, List.singleton_append]
    exact ⟨_, .or h hw (.factor h')⟩
  | and h =>
    obtain ⟨g, h⟩ := h
    rw [List.append_assoc, List.singleton_append]
    exact h.append_and h'

/-- How far a clause has been written: whether a bracket is open and, if an operand is expected,
whether one may open in front of it. -/
inductive Standing : Bool → Option Bool → List Word → Prop where
  | empty : Standing false none []
  | whole {ws : List Word} (h : Whole ws) : Standing false none (.start :: ws)
  | awaits {opening : Bool} {ws : List Word} (h : Awaits opening ws) :
    Standing false (some opening) (.start :: ws)
  | openWhole {ws ws' : List Word} (h : Awaits true ws) (h' : Whole ws') :
    Standing true none (.start :: (ws ++ .opening :: ws'))
  | openAwaits {opening : Bool} {ws ws' : List Word} (h : Awaits true ws) (h' : Awaits false ws') :
    Standing true (some opening) (.start :: (ws ++ .opening :: ws'))

namespace Standing

variable {bracket o : Bool} {ws : List Word}

theorem weaken (h : Standing bracket (some o) ws) : Standing bracket (some false) ws := by
  cases h with
  | awaits h => exact .awaits h.weaken
  | openAwaits h h' => exact .openAwaits h h'

theorem start (h : Standing bracket none ws) : Standing bracket (some true) (ws ++ [.start]) := by
  cases h with
  | empty => exact .awaits .first
  | whole h => exact .awaits (.alternative h rfl)
  | @openWhole ws ws' h h' =>
    have hnext : Standing true (some true) _ := .openAwaits h (.alternative (w := .start) h' rfl)
    simpa using hnext

theorem or (h : Standing bracket none ws) (hne : ws ≠ []) :
    Standing bracket (some !bracket) (ws ++ [.or]) := by
  cases h with
  | empty => exact absurd rfl hne
  | whole h => exact .awaits (.alternative h rfl)
  | @openWhole ws ws' h h' =>
    have hnext : Standing true (some false) _ := .openAwaits h (.alternative (w := .or) h' rfl)
    simpa using hnext

theorem and (h : Standing bracket none ws) (hne : ws ≠ []) :
    Standing bracket (some false) (ws ++ [.and]) := by
  cases h with
  | empty => exact absurd rfl hne
  | whole h => exact .awaits (.and h)
  | @openWhole ws ws' h h' =>
    have hnext : Standing true (some false) _ := .openAwaits h (.and h')
    simpa using hnext

theorem opening (h : Standing false (some true) ws) :
    Standing true (some false) (ws ++ [.opening]) := by
  cases h with
  | awaits h => exact .openAwaits h .first

theorem test (h : Standing bracket (some o) ws) (t : Test) :
    Standing bracket none (ws ++ [.test t]) := by
  cases h with
  | awaits h => exact .whole (h.factor (.test t))
  | @openAwaits _ ws ws' h h' =>
    have hnext := Standing.openWhole h (h'.factor (.test t))
    simpa using hnext

theorem closing (h : Standing true none ws) : Standing false none (ws ++ [.closing]) := by
  cases h with
  | @openWhole ws ws' h h' =>
    obtain ⟨f, h'⟩ := h'
    have hnext := Standing.whole (h.factor (.bracket h'))
    simpa using hnext

/-- A statement that ends while no bracket is open can be read. -/
theorem clause (h : Standing false none ws) : ∃ f, Clause ws f := by
  cases h with
  | empty => exact ⟨none, .none⟩
  | whole h =>
    obtain ⟨f, h⟩ := h
    exact ⟨some f, .some h⟩

end Standing

/-- The words of a clause without its brackets. -/
def unbracketed (ws : List Word) : List Word := ws.filter (!·.isBracket)

/-- The alternatives are those of the clause without its brackets. -/
theorem Clause.anyHolds_unbracketed {ws : List Word} {f : Option Formula}
    (h : Clause (unbracketed ws) f) (hne : unbracketed ws = [] → ws = []) (v : Assignment) :
    anyHolds v (groupsOf ws) = Clause.value v f := by
  have hgroups : groupsOf (unbracketed ws) = groupsOf ws := by
    cases hws : unbracketed ws with
    | nil => rw [hne hws]
    | cons w ws' =>
      have hne : ws ≠ [] := by
        rintro rfl
        cases hws
      rw [← hws, groupsOf, groupsOf, if_neg (by simp [hws]), if_neg (by simpa using hne)]
      exact conjunctions_unbracketed ws
  rw [← hgroups]
  refine h.anyHolds_groupsOf (fun g hg => ?_) v
  cases hws : unbracketed ws with
  | nil =>
    rw [hws] at h
    cases h
    cases hg
  | cons w ws' =>
    have hmem : ∀ w ∈ unbracketed ws, w.isBracket = false := fun w hw => by
      simpa using (List.mem_filter.1 hw).2
    rw [hws] at h hmem
    cases h with
    | some h =>
      obtain rfl := Option.some.inj hg
      exact (h.isNormal fun w hw => hmem w (List.mem_cons_of_mem _ hw)).1

end MotionScript
