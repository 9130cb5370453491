import MotionScript.Proofs.Feeding.Statement
/-!
# Reading conditions

The written alternatives of a condition are read back, each as the conjunction it was.
-/

namespace MotionScript

/-! ## Written conditions -/

/-- A condition as it is read back: thresholds that mean nothing are not written. -/
def Condition.readBack (c : Condition) : Condition :=
  match c.mode with
  | .holds | .fails => { c with threshold := .zero }
  | _ => c

namespace Canonical

/-- The pieces of a condition; `lead` says whether a space stands in front of it. -/
def conditionPieces (lead : Form → Piece) (c : Condition) : List Piece :=
  match c.mode with
  | .holds => [lead (.name c.parameter)]
  | .fails => [lead (.symbol '!'), (Form.name c.parameter).joined]
  | .greater => [lead (.name c.parameter), (Form.symbol '>').spaced, (Form.float c.threshold).spaced]
  | .less => [lead (.name c.parameter), (Form.symbol '<').spaced, (Form.float c.threshold).spaced]
  | .equals => [lead (.name c.parameter), (Form.symbol '=').spaced, (Form.symbol '=').joined,
      (Form.float c.threshold).spaced]
  | .notEqual => [lead (.name c.parameter), (Form.symbol '!').spaced, (Form.symbol '=').joined,
      (Form.float c.threshold).spaced]

/-- A symbol written twice behind a space. -/
def twice (c : Char) : List Piece := [(Form.symbol c).spaced, (Form.symbol c).joined]

def conjunctionPieces (lead : Form → Piece) : List Condition → List Piece
  | [] => []
  | c :: cs => conditionPieces lead c ++
      cs.flatMap fun d => twice '&' ++ conditionPieces Form.spaced d

def alternativePieces : List (List Condition) → List Piece
  | [] => []
  | cs :: rest => conjunctionPieces Form.joined cs ++
      rest.flatMap fun ds => twice '|' ++ conjunctionPieces Form.spaced ds

theorem exists_conditionPieces (lead : Form → Piece) (c : Condition) :
    ∃ f ps, conditionPieces lead c = lead f :: ps := by
  unfold conditionPieces
  cases c.mode <;> exact ⟨_, _, rfl⟩

/-- A symbol can stand right behind a condition. -/
theorem ends_condition {lead : Form → Piece} (hl : ∀ f, (lead f).form = f) {c : Char} (hc : c ≠ '.')
    (condition : Condition) : Ends (conditionPieces lead condition) c := by
  unfold conditionPieces
  cases condition.mode <;> simp [hl, hc]

theorem ends_conjunction {lead : Form → Piece} (hl : ∀ f, (lead f).form = f) {c : Char}
    (hc : c ≠ '.') (cs : List Condition) : Ends (conjunctionPieces lead cs) c := by
  cases cs with
  | nil => simp [conjunctionPieces, Ends]
  | cons d cs =>
    refine (ends_condition hl hc d).append (Ends.flatMap fun x _ => ?_)
    exact Ends.append (by simp [twice]) (ends_condition Piece.form_spaced hc x)

theorem ends_alternatives {c : Char} (hc : c ≠ '.') (css : List (List Condition)) :
    Ends (alternativePieces css) c := by
  cases css with
  | nil => simp [alternativePieces, Ends]
  | cons ds css =>
    refine (ends_conjunction Piece.form_joined hc ds).append (Ends.flatMap fun x _ => ?_)
    exact Ends.append (by simp [twice]) (ends_conjunction Piece.form_spaced hc x)

theorem chunk_condition {c : Condition} (h : c.threshold.isFinite = true) :
    Chunk (condition c).toList (conditionPieces Form.joined c) := by
  have hv := Form.valid_single h
  unfold condition conditionPieces
  cases c.mode <;> exact ⟨by simp, by simp +decide [hv]⟩

theorem chunk_condition_spaced {c : Condition} (h : c.threshold.isFinite = true) :
    Chunk (' ' :: (condition c).toList) (conditionPieces Form.spaced c) := by
  have hj := chunk_condition h
  unfold conditionPieces at hj ⊢
  cases hm : c.mode
  all_goals
    rw [hm] at hj
    exact hj.spaced

theorem chunk_twice {c : Char} (hc : SymbolSet.document.contains c = true)
    (hj : c ≠ '+' ∧ c ≠ '-' ∧ c ≠ '.') : Chunk [' ', c, c] (twice c) :=
  ⟨by simp [twice], by simp [twice, hc, hj]⟩

theorem chunk_and {c : Condition} (h : c.threshold.isFinite = true) :
    Chunk (" && ".toList ++ (condition c).toList) (twice '&' ++ conditionPieces Form.spaced c) := by
  have hsplit : " && ".toList ++ (condition c).toList =
      [' ', '&', '&'] ++ ' ' :: (condition c).toList := by simp
  rw [hsplit]
  refine (chunk_twice (by decide) (by decide)).append (chunk_condition_spaced h) ?_
  intro p _ q hq
  obtain ⟨f, ps, hp⟩ := exists_conditionPieces Form.spaced c
  rw [hp] at hq
  obtain rfl : f.spaced = q := by simpa using hq
  exact p.follows_spaced f

/-- A conjunction, behind a space or not. -/
theorem chunk_conjunction {lead : Form → Piece} (gap : List Char)
    (hlead : ∀ c : Condition, c.threshold.isFinite = true →
      Chunk (gap ++ (condition c).toList) (conditionPieces lead c))
    {cs : List Condition} (hne : cs ≠ []) (h : ∀ c ∈ cs, c.threshold.isFinite = true) :
    Chunk (gap ++ (" && ".intercalate (cs.map condition)).toList) (conjunctionPieces lead cs) := by
  obtain ⟨c, cs, rfl⟩ := List.exists_cons_of_ne_nil hne
  rw [List.forall_mem_cons] at h
  rw [List.map_cons, toList_intercalate_cons, List.flatMap_map, ← List.append_assoc]
  exact (hlead c h.1).append_flatMap (fun d hd => chunk_and (h.2 d hd)) fun d _ => ⟨_, _, rfl⟩

theorem chunk_alternatives {css : List (List Condition)} (hne : css ≠ [])
    (h : ∀ cs ∈ css, cs ≠ [] ∧ ∀ c ∈ cs, c.threshold.isFinite = true) :
    Chunk (" || ".intercalate (css.map fun cs => " && ".intercalate (cs.map condition))).toList
      (alternativePieces css) := by
  obtain ⟨cs, css, rfl⟩ := List.exists_cons_of_ne_nil hne
  rw [List.forall_mem_cons] at h
  have hfirst := chunk_conjunction [] (fun c hc => chunk_condition hc) h.1.1 h.1.2
  rw [List.map_cons, toList_intercalate_cons, List.flatMap_map]
  refine hfirst.append_flatMap (fun ds hds => ?_) fun d _ => ⟨_, _, rfl⟩
  have hsplit : " || ".toList ++ (" && ".intercalate (ds.map condition)).toList =
      [' ', '|', '|'] ++ ([' '] ++ (" && ".intercalate (ds.map condition)).toList) := by simp
  have hrest := chunk_conjunction [' '] (fun c hc => chunk_condition_spaced hc)
    (h.2 ds hds).1 (h.2 ds hds).2
  rw [hsplit]
  refine (chunk_twice (by decide) (by decide)).append hrest fun p _ q hq => ?_
  obtain ⟨d, ds, rfl⟩ := List.exists_cons_of_ne_nil (h.2 ds hds).1
  obtain ⟨f, ps, hp⟩ := exists_conditionPieces Form.spaced d
  rw [conjunctionPieces, hp] at hq
  obtain rfl : f.spaced = q := by simpa using hq
  exact p.follows_spaced f

end Canonical

/-! ## Reading conditions -/

namespace TransitionRule

/-- Whether reading forms leads from one rule to another within a statement. -/
structure Turns (fs : List Form) (r q : TransitionRule) : Prop where
  goes : ∀ {fs' gs}, Goes fs' q gs → Goes (fs ++ fs') r gs

namespace Turns

theorem refl (r : TransitionRule) : Turns [] r r := ⟨id⟩

theorem trans {fs fs' : List Form} {r q q' : TransitionRule} (h : Turns fs r q)
    (h' : Turns fs' q q') : Turns (fs ++ fs') r q' := by
  constructor
  intro fs'' gs hs
  rw [List.append_assoc]
  exact h.goes (h'.goes hs)

/-- A rule that looks once at a token. -/
theorem look {f : Form} {r q : TransitionRule}
    (h : ∀ e start, e.Is f → (r.startedAt start).ends e = false ∧
      (r.startedAt start).look e = .ok ⟨q.startedAt start, false⟩) : Turns [f] r q :=
  ⟨fun hs => .look h hs⟩

end Turns

/-- The rule behind a condition: the end of a parameter that is tested alone is not seen before the
next token. -/
def behind (r : TransitionRule) (c : Condition) : TransitionRule :=
  match c.mode with
  | .holds => r.expecting (.operator c.parameter false none)
  | .fails => r.expecting (.operator c.parameter true none)
  | _ => r.commit c.readBack

variable {r : TransitionRule} {c : Condition}

/-- A bracket can only open in front of the first condition, and canonical text opens one there. -/
theorem turns_name (parameter : String) (opening : Bool) : Turns [.name parameter]
    (r.expecting (.condition opening)) (r.expecting (.operator parameter false none)) := by
  apply Turns.look
  intro e start he
  refine ⟨by simp [ends, startedAt, expecting], ?_⟩
  simp [TransitionRule.look, startedAt, expecting, he.name_isSymbol, he.name_name]
  rfl

theorem turns_threshold {threshold : Single} (h : threshold.isFinite = true) (parameter : String)
    (mode : ConditionMode) : Turns [.float threshold] (r.expecting (.threshold parameter mode))
      (r.commit ⟨parameter, mode, threshold⟩) := by
  apply Turns.look
  intro e start he
  refine ⟨by simp [ends, startedAt, expecting], ?_⟩
  simp [TransitionRule.look, startedAt, expecting, he.float_number h]
  rfl

/-- A comparison of one symbol. -/
theorem turns_compare (parameter : String) {d : Char} {mode : ConditionMode}
    (hd : d = '>' ∧ mode = .greater ∨ d = '<' ∧ mode = .less) :
    Turns [.symbol d] (r.expecting (.operator parameter false none))
      (r.expecting (.threshold parameter mode)) := by
  apply Turns.look
  intro e start he
  refine ⟨by simp [ends, startedAt, expecting], ?_⟩
  rcases hd with ⟨rfl, rfl⟩ | ⟨rfl, rfl⟩
  all_goals
    simp [TransitionRule.look, startedAt, expecting, operator, he.symbol_isSymbol]

/-- A comparison of two symbols. -/
theorem turns_compareTwice (parameter : String) {d : Char} {mode : ConditionMode}
    (hd : d = '=' ∧ mode = .equals ∨ d = '!' ∧ mode = .notEqual) :
    Turns [.symbol d, .symbol '='] (r.expecting (.operator parameter false none))
      (r.expecting (.threshold parameter mode)) := by
  show Turns ([.symbol d] ++ [.symbol '=']) _ _
  refine Turns.trans (q := r.expecting (.operator parameter false (some d))) ?_ ?_
  · apply Turns.look
    intro e start he
    refine ⟨by simp [ends, startedAt, expecting], ?_⟩
    rcases hd with ⟨rfl, -⟩ | ⟨rfl, -⟩
    all_goals
      simp [TransitionRule.look, startedAt, expecting, operator, he.symbol_isSymbol]
  · apply Turns.look
    intro e start he
    refine ⟨by simp [ends, startedAt, expecting], ?_⟩
    rcases hd with ⟨rfl, rfl⟩ | ⟨rfl, rfl⟩
    all_goals
      simp [TransitionRule.look, startedAt, expecting, operator, he.symbol_isSymbol]

theorem turns_condition {lead : Form → Piece} (hl : ∀ f, (lead f).form = f)
    (hb : r.bracket = true) (h : c.threshold.isFinite = true) (opening : Bool) :
    Turns ((Canonical.conditionPieces lead c).map Piece.form)
      (r.expecting (.condition opening)) (r.behind c) := by
  obtain ⟨parameter, mode, threshold⟩ := c
  unfold Canonical.conditionPieces behind
  cases mode <;> simp only [List.map_cons, List.map_nil, hl, Piece.form_joined, Piece.form_spaced]
  case holds => exact turns_name parameter opening
  case fails =>
    show Turns ([.symbol '!'] ++ [.name parameter]) _ _
    refine Turns.trans (q := r.expecting .negated) ?_ ?_
    · apply Turns.look
      intro e start he
      refine ⟨by simp [ends, startedAt, expecting], ?_⟩
      simp [TransitionRule.look, startedAt, expecting, hb, he.symbol_isSymbol]
    · apply Turns.look
      intro e start he
      refine ⟨by simp [ends, startedAt, expecting], ?_⟩
      simp [TransitionRule.look, startedAt, expecting, he.name_name]
      rfl
  case greater =>
    exact ((turns_name parameter opening).trans (turns_compare _ (.inl ⟨rfl, rfl⟩))).trans
      (turns_threshold h _ _)
  case less =>
    exact ((turns_name parameter opening).trans (turns_compare _ (.inr ⟨rfl, rfl⟩))).trans
      (turns_threshold h _ _)
  case equals =>
    exact ((turns_name parameter opening).trans (turns_compareTwice _ (.inl ⟨rfl, rfl⟩))).trans
      (turns_threshold h _ _)
  case notEqual =>
    exact ((turns_name parameter opening).trans (turns_compareTwice _ (.inr ⟨rfl, rfl⟩))).trans
      (turns_threshold h _ _)

/-! ### What follows a condition -/

theorem commit_nonempty {groups : List (List Condition)} (h : groups ≠ []) (c : Condition) :
    addCondition groups c ≠ [] := by
  cases groups with
  | nil => exact absurd rfl h
  | cons g gs => cases gs <;> simp [addCondition]

/-- A symbol that no condition goes on with is read as if the condition had been complete before. -/
theorem turns_behind {d : Char} {q : TransitionRule} (hd : d ∉ ['>', '<', '=', '!', ';'])
    (h : ∀ e start, e.Is (.symbol d) →
      ((r.commit c.readBack).startedAt start).symbolModifier e = .ok ⟨q.startedAt start, false⟩) :
    Turns [.symbol d] (r.behind c) q := by
  simp only [List.mem_cons, List.not_mem_nil, or_false, not_or] at hd
  have hcommit (e : Event) (start : Option (Span × Position)) (he : e.Is (.symbol d)) :
      ((r.commit c.readBack).startedAt start).ends e = false ∧
        ((r.commit c.readBack).startedAt start).look e = .ok ⟨q.startedAt start, false⟩ := by
    refine ⟨by simp [ends, he.symbol_isSymbol, hd], ?_⟩
    rw [← h e start he]
    simp only [TransitionRule.look, commit, startedAt, modifier, he.symbol_kind]
  constructor
  intro fs' gs hs
  obtain ⟨parameter, mode, threshold⟩ := c
  unfold behind
  cases mode
  case holds | fails =>
    refine Goes.lookTwice (r.commit (Condition.readBack _))
      (fun e start he => ⟨by simp [ends, startedAt, expecting], ?_⟩) hcommit hs
    simp [TransitionRule.look, startedAt, expecting, operator, he.symbol_isSymbol, hd, commit,
      Condition.readBack]
  all_goals exact .look hcommit hs

theorem turns_and (hg : r.groups ≠ []) : Turns ((Canonical.twice '&').map Piece.form) (r.behind c)
    ((r.commit c.readBack).expecting (.condition false)) := by
  show Turns ([.symbol '&'] ++ [.symbol '&']) _ _
  refine Turns.trans (q := (r.commit c.readBack).expecting (.modifier (some '&'))) ?_ ?_
  · refine turns_behind (by simp) fun e start he => ?_
    simp [symbolModifier, he.symbol_isSymbol]
    rfl
  · apply Turns.look
    intro e start he
    refine ⟨by simp [ends, startedAt, expecting], ?_⟩
    simp [TransitionRule.look, startedAt, expecting, connective, he.symbol_isSymbol, commit,
      commit_nonempty hg]

theorem turns_or (hg : r.groups ≠ []) : Turns ((Canonical.twice '|').map Piece.form) (r.behind c)
    ((r.commit c.readBack).openGroup.expecting (.condition (!r.bracket))) := by
  show Turns ([.symbol '|'] ++ [.symbol '|']) _ _
  refine Turns.trans (q := (r.commit c.readBack).expecting (.modifier (some '|'))) ?_ ?_
  · refine turns_behind (by simp) fun e start he => ?_
    simp [symbolModifier, he.symbol_isSymbol]
    rfl
  · apply Turns.look
    intro e start he
    refine ⟨by simp [ends, startedAt, expecting], ?_⟩
    simp [TransitionRule.look, startedAt, expecting, connective, he.symbol_isSymbol, commit,
      commit_nonempty hg, openGroup]

theorem turns_close (hb : r.bracket = true) : Turns [.symbol ')'] (r.behind c)
    { r.commit c.readBack with bracket := false } := by
  refine turns_behind (by simp) fun e start he => ?_
  simp [symbolModifier, he.symbol_isSymbol, commit, startedAt, hb]

/-! ### Alternatives -/

theorem addCondition_append (gs : List (List Condition)) (g : List Condition) (c : Condition) :
    addCondition (gs ++ [g]) c = gs ++ [g ++ [c]] := by
  induction gs with
  | nil => rfl
  | cons h gs ih =>
    cases gs with
    | nil => rfl
    | cons h' gs =>
      show h :: addCondition (h' :: gs ++ [g]) c = _
      rw [ih, List.cons_append, List.cons_append, List.cons_append]

/-- The rule with a conjunction added to its last alternative. -/
def conjoin (r : TransitionRule) (gs : List (List Condition)) (g cs : List Condition) :
    TransitionRule :=
  { r with groups := gs ++ [g ++ cs.map Condition.readBack], expect := .modifier none }

theorem turns_conjunction {lead : Form → Piece} (hl : ∀ f, (lead f).form = f) {c : Condition}
    {cs : List Condition} {gs : List (List Condition)} {g : List Condition} (opening : Bool)
    (hg : r.groups = gs ++ [g]) (hb : r.bracket = true)
    (h : ∀ d ∈ c :: cs, d.threshold.isFinite = true) :
    ∃ (q : TransitionRule) (d : Condition), q.commit d.readBack = r.conjoin gs g (c :: cs) ∧
      q.groups ≠ [] ∧ q.bracket = true ∧
        Turns ((Canonical.conjunctionPieces lead (c :: cs)).map Piece.form)
          (r.expecting (.condition opening)) (q.behind d) := by
  rw [List.forall_mem_cons] at h
  have hgroups : r.groups ≠ [] := by simp [hg]
  have hfirst := turns_condition hl hb h.1 opening
  rw [Canonical.conjunctionPieces, List.map_append]
  induction cs generalizing r c g lead opening with
  | nil =>
    refine ⟨r, c, ?_, hgroups, hb, by simpa using hfirst⟩
    simp [commit, conjoin, hg, addCondition_append]
  | cons d cs ih =>
    rw [List.forall_mem_cons] at h
    have hcommit : (r.commit c.readBack).groups = gs ++ [g ++ [c.readBack]] := by
      simp [commit, hg, addCondition_append]
    obtain ⟨q, d', hq, hqg, hqb, ht⟩ := ih Piece.form_spaced false hcommit hb h.2
      (by simp [hcommit])
      (turns_condition (r := r.commit c.readBack) Piece.form_spaced hb h.2.1 false)
    refine ⟨q, d', ?_, hqg, hqb, ?_⟩
    · rw [hq]
      simp [conjoin, commit]
    · rw [List.flatMap_cons, List.map_append, List.map_append, List.append_assoc]
      exact hfirst.trans ((turns_and hgroups).trans ht)

/-- The rule behind the closing bracket of a condition. -/
def alternatives (r : TransitionRule) (gs css : List (List Condition)) : TransitionRule :=
  { r with
    groups := gs ++ css.map fun cs => cs.map Condition.readBack
    bracket := false
    expect := .modifier none }

theorem turns_alternatives {lead : Form → Piece} (hl : ∀ f, (lead f).form = f)
    {cs : List Condition} {css gs : List (List Condition)} (opening : Bool)
    (hg : r.groups = gs ++ [[]]) (hb : r.bracket = true)
    (h : ∀ ds ∈ cs :: css, ds ≠ [] ∧ ∀ c ∈ ds, c.threshold.isFinite = true) :
    Turns ((Canonical.conjunctionPieces lead cs ++ css.flatMap fun ds =>
        Canonical.twice '|' ++ Canonical.conjunctionPieces Form.spaced ds).map Piece.form ++
          [.symbol ')'])
      (r.expecting (.condition opening)) (r.alternatives gs (cs :: css)) := by
  induction css generalizing r cs gs lead opening with
  | nil =>
    obtain ⟨hne, hfin⟩ := h cs List.mem_cons_self
    obtain ⟨c, cs, rfl⟩ := List.exists_cons_of_ne_nil hne
    obtain ⟨q, d, hq, hqg, hqb, ht⟩ := turns_conjunction hl opening hg hb hfin
    have hclose := turns_close (c := d) hqb
    rw [hq] at hclose
    rw [List.flatMap_nil, List.append_nil]
    exact ht.trans hclose
  | cons ds css ih =>
    rw [List.forall_mem_cons] at h
    obtain ⟨hne, hfin⟩ := h.1
    obtain ⟨c, cs, rfl⟩ := List.exists_cons_of_ne_nil hne
    obtain ⟨q, d, hq, hqg, hqb, ht⟩ := turns_conjunction hl opening hg hb hfin
    have hor := turns_or (c := d) hqg
    rw [hq, hqb] at hor
    have hopen : (r.conjoin gs [] (c :: cs)).openGroup.groups =
        (gs ++ [(c :: cs).map Condition.readBack]) ++ [[]] := by simp [openGroup, conjoin]
    have hrest := ih Piece.form_spaced false hopen hb h.2
    have hend : (r.conjoin gs [] (c :: cs)).openGroup.alternatives
        (gs ++ [(c :: cs).map Condition.readBack]) (ds :: css) =
          r.alternatives gs ((c :: cs) :: ds :: css) := by
      simp [alternatives, openGroup, conjoin]
    rw [hend] at hrest
    simp only [List.flatMap_cons, List.map_append, List.append_assoc] at hrest ht hor ⊢
    exact ht.trans (hor.trans hrest)

end TransitionRule

end MotionScript
