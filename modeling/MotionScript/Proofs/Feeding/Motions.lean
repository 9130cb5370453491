import MotionScript.Proofs.Feeding.Items
import MotionScript.Proofs.Graph.Motions
import MotionScript.Proofs.Graph.Ranges
/-!
# Reading motions

A written motion is read back as the same tree, in a state or in a blend tree.
-/

namespace MotionScript

open Canonical (Line)

variable {κ : Knowledge}

namespace MotionRule

/-! ## Steps of a motion -/

/-- Whether reading pieces leads from one rule to another and leaves the session alone. -/
structure Moves (ps : List Piece) (r q : MotionRule) : Prop where
  leads : ∀ {κ qs rest stack o o' t}, Leads κ qs (.motion q :: rest) o stack o' t →
    Leads κ (ps ++ qs) (.motion r :: rest) o stack o' t

namespace Moves

variable {p : Piece} {ps qs : List Piece} {r q q' : MotionRule}

theorem refl (r : MotionRule) : Moves [] r r := ⟨id⟩

theorem trans (h : Moves ps r q) (h' : Moves qs q q') : Moves (ps ++ qs) r q' := by
  constructor
  intro κ rs rest stack o o' t hs
  rw [List.append_assoc]
  exact h.leads (h'.leads hs)

theorem one (h : ∀ {η : Type} [Host η] (e : Event) (s : Session η), p.Reads e →
      r.react e s = .ok (q, s, none)) :
    Moves [p] r q := by
  refine ⟨fun hs => .read (.motion q) (by simp) (fun e s he => ?_) hs⟩
  rw [Frame.react, h e s he]
  rfl

end Moves

/-! ## Keys -/

end MotionRule

/-- The key of a child as it is read back. -/
def ChildMotion.key (m : ChildMotion) : BlendType → ChildKey
  | .direct => .parameter m.directParameter
  | .simple1D => .threshold m.threshold
  | _ => .position m.position.x m.position.y

namespace MotionRule

/-- The rule of a child that has just been attached. -/
def childOf (r : MotionRule) (tree : MotionId) (key : ChildKey) : MotionRule :=
  { child tree key with scope := r.scope }

/-- Whether pieces spell a key, up to the colon behind it. -/
structure SpellsKey (text : String) (f : Form) (ps : List Piece) (key : ChildKey) : Prop where
  chunk : Chunk text.toList (f.joined :: ps)
  ends : Ends (f.joined :: ps) ':'
  moves : ∀ {r : MotionRule}, r.expect = .key →
    Moves (f.joined :: ps) r (r.expecting (.colon key))

namespace SpellsKey

variable {text : String} {f : Form} {ps : List Piece} {key : ChildKey}

theorem leadIn (h : SpellsKey text f ps key) :
    LeadIn (text ++ ":" ++ " ") (f.joined :: (ps ++ [(Form.symbol ':').joined])) Form.spaced := by
  refine .spaced ?_
  rw [String.toList_append, ← List.cons_append]
  exact h.chunk.close (by decide) h.ends

/-- The colon attaches the child to the tree. -/
theorem leads (h : SpellsKey text f ps key) {r : MotionRule} {tree : MotionId} {qs rest stack o o' t}
    (hr : r.expect = .key) (htree : r.motion = some tree)
    (hs : Leads κ qs (.motion (r.childOf tree key) :: .motion r :: rest) o stack o' t) :
    Leads κ ((f.joined :: (ps ++ [(Form.symbol ':').joined])) ++ qs) (.motion r :: rest)
      o stack o' t := by
  rw [← List.cons_append, List.append_assoc]
  refine (h.moves hr).leads (Leads.attach (f := .motion (child tree key)) (.motion r)
    (.motion (r.childOf tree key)) (by simp) (fun e s he => ?_) (fun s => rfl) hs)
  have he := he.is
  rw [Frame.react, react]
  simp only [expecting, he.symbol_isSymbol, htree]
  simp [Frame.lift, Except.map, ← hr]
  rw [← htree]

theorem name (p : String) : SpellsKey (Canonical.name p) (.name p) [] (.parameter p) := by
  refine ⟨⟨by simp, by simp⟩, by simp, fun hr => Moves.one fun e s he => ?_⟩
  have he := he.is
  simp [react, hr, reactKey, he.name_isSymbol, he.name_kind_ne, he.name_name]
  rfl

theorem threshold {x : Single} (hx : x.isFinite = true) :
    SpellsKey (toString x) (.float x) [] (.threshold x) := by
  have hv := Form.valid_single hx
  refine ⟨⟨by simp, by simpa using hv⟩, by simp, fun hr => Moves.one fun e s he => ?_⟩
  have he := he.is
  simp [react, hr, reactKey, he.number_isSymbol, he.number_kind, he.float_number hx]
  rfl

theorem position {x y : Single} (hx : x.isFinite = true) (hy : y.isFinite = true) :
    SpellsKey s!"({x}, {y})" (.symbol '(') [(Form.float x).joined, (Form.symbol ',').joined,
      (Form.float y).spaced, (Form.symbol ')').joined] (.position x y) := by
  have hvx := Form.valid_single hx
  have hvy := Form.valid_single hy
  refine ⟨⟨by simp, by simp +decide [hvx, hvy]⟩, by simp, fun {r} hr => ?_⟩
  have hopen : Moves [(Form.symbol '(').joined] r (r.expecting .keyX) := by
    refine Moves.one fun e s he => ?_
    simp [react, hr, reactKey, he.is.symbol_isSymbol, Except.map]
  have hfirst : Moves [(Form.float x).joined] (r.expecting .keyX)
      (r.expecting (.keyComma x)) := by
    refine Moves.one fun e s he => ?_
    simp [react, expecting, he.is.float_number hx]
    rfl
  have hcomma : Moves [(Form.symbol ',').joined] (r.expecting (.keyComma x))
      (r.expecting (.keyY x)) := by
    refine Moves.one fun e s he => ?_
    simp [react, expecting, expectSymbol, he.is.symbol_isSymbol, Except.map]
  have hsecond : Moves [(Form.float y).spaced] (r.expecting (.keyY x))
      (r.expecting (.keyClose x y)) := by
    refine Moves.one fun e s he => ?_
    simp [react, expecting, he.is.float_number hy]
    rfl
  have hclose : Moves [(Form.symbol ')').joined] (r.expecting (.keyClose x y))
      (r.expecting (.colon (.position x y))) := by
    refine Moves.one fun e s he => ?_
    simp [react, expecting, expectSymbol, he.is.symbol_isSymbol, Except.map]
  exact hopen.trans (hfirst.trans (hcomma.trans (hsecond.trans hclose)))

end SpellsKey

theorem exists_spellsKey {m : ChildMotion} {b : BlendType} (hm : m.Keyed b) :
    ∃ text f ps, Canonical.childKey m b = text ++ ":" ++ " " ∧ SpellsKey text f ps (m.key b) := by
  cases b with
  | direct => exact ⟨_, _, _, String.toList_inj.1 (by simp [Canonical.childKey]), .name _⟩
  | simple1D => exact ⟨_, _, _, String.toList_inj.1 (by simp [Canonical.childKey]), .threshold hm.1⟩
  | _ => exact ⟨_, _, _, String.toList_inj.1 (by simp [Canonical.childKey]), .position hm.1 hm.2.1⟩

theorem exists_key {m : ChildMotion} {b : BlendType} (hm : m.Keyed b) :
    ∃ ps, LeadIn (Canonical.childKey m b) ps Form.spaced ∧
      ∀ {r : MotionRule} {tree : MotionId} {qs rest stack o o' t}, r.expect = .key →
        r.motion = some tree →
        Leads κ qs (.motion (r.childOf tree (m.key b)) :: .motion r :: rest) o stack o' t →
        Leads κ (ps ++ qs) (.motion r :: rest) o stack o' t := by
  obtain ⟨text, f, ps, htext, hkey⟩ := exists_spellsKey hm
  exact ⟨_, htext ▸ hkey.leadIn, hkey.leads⟩

/-! ## Modifiers -/

/-- The pieces of a factor, an offset and the word for mirroring, each part behind a space. -/
def speedPieces (x : Single) : List Piece :=
  if x != .one then [(Form.symbol '*').spaced, (Form.float x).spaced] else []

def offsetPieces (x : Single) : List Piece :=
  if x.isZero then []
  else if x.negative then [(Form.symbol '-').spaced, (Form.float (-x)).spaced]
  else [(Form.symbol '+').spaced, (Form.float x).spaced]

def mirrorPieces (b : Bool) : List Piece := if b then [(Form.word "mirror").spaced] else []

/-- The pieces of the modifiers of a child, and of the semicolon behind them. -/
def endPieces (m : ChildMotion) : List Piece :=
  speedPieces m.timeScale ++ (offsetPieces m.cycleOffset ++ (mirrorPieces m.mirror ++
    [(Form.symbol ';').joined]))

/-- The rule once it has read the modifiers of a child. -/
def withModifiers (r : MotionRule) (m : ChildMotion) : MotionRule :=
  { r with
    speed := if m.timeScale != .one then some m.timeScale else none
    offset := if m.cycleOffset.isZero then none else some m.cycleOffset
    mirror := m.mirror }

theorem offset_cases {x : Single} (h : x.isFinite = true) : Canonical.offset? x =
    if x.isZero then none else if x.negative then some s!"- {-x}" else some s!"+ {x}" := by
  have hnan := Binary.isNaN_of_isFinite h
  simp only [Canonical.offset?, Binary.isNegative, Binary.isPositive, hnan]
  cases x.isZero <;> cases x.negative <;> rfl

/-- Modifiers behind a chunk, and the semicolon. -/
theorem chunk_modifiers {cs : List Char} {f : Form} {ps : List Piece} {m : ChildMotion}
    (hm : m.Finite) (h : Chunk cs (f.joined :: ps)) (he : Ends (f.joined :: ps) ';') :
    Chunk (cs ++ (Canonical.childModifiers m ++ ";").toList)
      (f.joined :: (ps ++ endPieces m)) := by
  -- A part with pieces behind spaces, behind others.
  have hstep {cs ds : List Char} {ps qs : List Piece} (h : Chunk cs ps ∧ Ends ps ';')
      (h' : Chunk ds qs ∧ Ends qs ';') (hs : ∀ q ∈ qs.head?, q.spaced = true) :
      Chunk (cs ++ ds) (ps ++ qs) ∧ Ends (ps ++ qs) ';' :=
    ⟨h.1.append h'.1 fun p _ q hq => .inl (hs q hq), h.2.append h'.2⟩
  have hspeed : (Chunk (if m.timeScale != .one then s!" * {m.timeScale}" else "").toList
      (speedPieces m.timeScale) ∧ Ends (speedPieces m.timeScale) ';') ∧
        ∀ q ∈ (speedPieces m.timeScale).head?, q.spaced = true := by
    have hv := Form.valid_single hm.timeScale
    unfold speedPieces
    split
    · exact ⟨⟨⟨by simp, by simp +decide [hv]⟩, by simp⟩, by simp [Form.spaced]⟩
    · exact ⟨⟨.nil, by simp [Ends]⟩, by simp⟩
  have hoffset : (Chunk (((Canonical.offset? m.cycleOffset).map (" " ++ ·)).getD "").toList
      (offsetPieces m.cycleOffset) ∧ Ends (offsetPieces m.cycleOffset) ';') ∧
        ∀ q ∈ (offsetPieces m.cycleOffset).head?, q.spaced = true := by
    have hv := Form.valid_single hm.cycleOffset
    have hn : (Form.float (-m.cycleOffset)).Valid := Form.valid_single hm.cycleOffset
    rw [offset_cases hm.cycleOffset]
    unfold offsetPieces
    split
    · exact ⟨⟨.nil, by simp [Ends]⟩, by simp⟩
    · split
      · exact ⟨⟨⟨by simp, by simp +decide [hn]⟩, by simp⟩, by simp [Form.spaced]⟩
      · exact ⟨⟨⟨by simp, by simp +decide [hv]⟩, by simp⟩, by simp [Form.spaced]⟩
  have hmirror : (Chunk (if m.mirror then " mirror" else "").toList (mirrorPieces m.mirror) ∧
      Ends (mirrorPieces m.mirror) ';') ∧ ∀ q ∈ (mirrorPieces m.mirror).head?, q.spaced = true := by
    unfold mirrorPieces
    split
    · exact ⟨⟨⟨by simp, by simp +decide⟩, by simp⟩, by simp [Form.spaced]⟩
    · exact ⟨⟨.nil, by simp [Ends]⟩, by simp⟩
  obtain ⟨hc, hl⟩ := hstep (hstep (hstep ⟨h, he⟩ hspeed.1 hspeed.2) hoffset.1 hoffset.2) hmirror.1
    hmirror.2
  have := hc.close (by decide) hl
  simpa [Canonical.childModifiers, endPieces] using this

theorem moves_speed {r : MotionRule} (hx : r.expect = .modifier) (hr : r.speed = none) {x : Single}
    (h : x.isFinite = true) :
    Moves (speedPieces x) r { r with speed := if x != .one then some x else none } := by
  unfold speedPieces
  split
  · have hstar : Moves [(Form.symbol '*').spaced] r (r.expecting .speed) := by
      refine Moves.one fun e s he => ?_
      simp [react, hx, reactModifier, he.is.symbol_isSymbol, he.sameLine rfl, Except.map]
    have hvalue : Moves [(Form.float x).spaced] (r.expecting .speed)
        { r with speed := some x } := by
      refine Moves.one fun e s he => ?_
      simp [react, expecting, he.is.float_number h, ← hx]
      rfl
    exact hstar.trans hvalue
  · rw [← hr]
    exact .refl r

theorem moves_offset {r : MotionRule} (hx : r.expect = .modifier) (hr : r.offset = none)
    {x : Single} (h : x.isFinite = true) :
    Moves (offsetPieces x) r { r with offset := if x.isZero then none else some x } := by
  -- The sign that is written, and the number behind it.
  have hsigned (c : Char) (y : Single) (hc : c = '+' ∧ y = x ∨ c = '-' ∧ y = -x) :
      Moves [(Form.symbol c).spaced, (Form.float y).spaced] r { r with offset := some x } := by
    have hy : y.isFinite = true := by rcases hc with ⟨-, rfl⟩ | ⟨-, rfl⟩ <;> exact h
    have hs : TransitionRule.signed (c == '-') y = x := by
      rcases hc with ⟨rfl, rfl⟩ | ⟨rfl, rfl⟩
      · rfl
      · show Binary.neg (Binary.neg x) = x
        simp [Binary.neg]
    have hsign : Moves [(Form.symbol c).spaced] r (r.expecting (.offset (c == '-'))) := by
      refine Moves.one fun e s he => ?_
      rcases hc with ⟨rfl, -⟩ | ⟨rfl, -⟩
      all_goals
        simp [react, hx, reactModifier, he.is.symbol_isSymbol, he.sameLine rfl, Except.map]
    have hvalue : Moves [(Form.float y).spaced] (r.expecting (.offset (c == '-')))
        { r with offset := some x } := by
      refine Moves.one fun e s he => ?_
      simp [react, expecting, he.is.number_isSymbol, he.is.float_number hy, ← hx, bind, Except.bind,
        hs]
    exact hsign.trans hvalue
  unfold offsetPieces
  split
  · rw [← hr]
    exact .refl r
  · split
    · exact hsigned '-' (-x) (.inr ⟨rfl, rfl⟩)
    · exact hsigned '+' x (.inl ⟨rfl, rfl⟩)

theorem moves_mirror {r : MotionRule} (hx : r.expect = .modifier) (hr : r.mirror = false)
    (b : Bool) : Moves (mirrorPieces b) r { r with mirror := b } := by
  cases b with
  | false =>
    show Moves [] r _
    rw [← hr]
    exact .refl r
  | true =>
    refine Moves.one fun e s he => ?_
    simp +decide [react, hx, reactModifier, he.is.word_isSymbol, he.sameLine rfl, he.is.word_kind,
      he.is.word_isKeyword, Except.map]

/-! ## The end of a motion -/

theorem unlinked_place (r : MotionRule) (c : Controller) :
    (r.place c).unlinked = r.place c.unlinked := by
  unfold place
  split
  · rfl
  · exact c.unlinked_modifyState _ fun _ => rfl
  · rfl

variable (κ) in
/-- Modifiers and the semicolon: the motion takes its place. -/
theorem leads_modifiers {r : MotionRule} {m : ChildMotion} (hm : m.Finite)
    (hx : r.expect = .modifier) (hs : r.speed = none) (ho : r.offset = none)
    (hr : r.mirror = false) (below : Frame) (rest : List Frame) (o : Outline) :
    Leads κ (endPieces m) (.motion r :: below :: rest) o (below :: rest)
      { o with controller := (r.withModifiers m).place o.controller } {} := by
  refine (moves_speed hx hs hm.timeScale).leads ?_
  refine (moves_offset (by exact hx) (by exact ho) hm.cycleOffset).leads ?_
  refine (moves_mirror (by exact hx) (by exact hr) m.mirror).leads ?_
  refine Leads.detach (.motion (r.withModifiers m)) (by simp) fun e s he ho => ⟨s, ?_, ?_, rfl⟩
  · simp [Frame.react, react, hx, reactModifier, he.is.symbol_isSymbol, Frame.lift, Except.map,
      withModifiers]
  · subst ho
    exact s.outline_modify (unlinked_place _ _)

/-! ## The line that opens a blend tree -/

end MotionRule

/-- An outline with a further motion. -/
def Outline.addMotion (o : Outline) (m : Motion) : Outline :=
  { o with controller := (o.controller.addMotion m).2 }

namespace MotionRule

/-- Whether reading pieces leads from one rule to another and shapes the tree that is read. -/
structure Shapes (ps : List Piece) (r q : MotionRule) (t t' : BlendTree) : Prop where
  motion : q.motion = r.motion
  leads : ∀ {κ qs rest stack} {o o' : Outline} {told}, r.motion = some ⟨o.controller.motions.size⟩ →
    Leads κ qs (.motion q :: rest) (o.addMotion (.tree t')) stack o' told →
    Leads κ (ps ++ qs) (.motion r :: rest) (o.addMotion (.tree t)) stack o' told

namespace Shapes

variable {p : Piece} {ps qs : List Piece} {r q q' : MotionRule} {t t' t'' : BlendTree}

theorem trans (h : Shapes ps r q t t') (h' : Shapes qs q q' t' t'') :
    Shapes (ps ++ qs) r q' t t'' := by
  refine ⟨h'.motion.trans h.motion, fun hr hs => ?_⟩
  rw [List.append_assoc]
  exact h.leads hr (h'.leads (h.motion.trans hr) hs)

theorem moves (h : Moves ps r q) (hm : q.motion = r.motion) : Shapes ps r q t t :=
  ⟨hm, fun _ hs => h.leads hs⟩

/-- A rule that changes the tree and goes on. -/
theorem one (x : MotionExpect) (f : BlendTree → BlendTree)
    (h : ∀ {η : Type} [Host η] (e : Event) (s : Session η), p.Reads e →
      r.react e s = .ok (r.expecting x, r.modifyTree s f, none)) :
    Shapes [p] r (r.expecting x) t (f t) := by
  refine ⟨rfl, fun {κ qs rest stack o o' told} hr hs => ?_⟩
  refine .stay (.motion (r.expecting x)) (by simp) (fun e s he ho => ?_) hs
  refine ⟨r.modifyTree s f, ?_, ?_⟩
  · rw [Frame.react, h e s he]
    rfl
  · rw [modifyTree, hr]
    simp only
    rw [s.outline_modify (f := (·.modifyMotion _ (·.modifyTree f))) rfl, ho]
    simp only [Outline.addMotion, Controller.addMotion, Controller.modifyMotion,
      modify_push_size, Motion.modifyTree]

end Shapes

variable {r : MotionRule} {t : BlendTree}

theorem shapes_type (hx : r.expect = .treeType) (b : BlendType) :
    Shapes [(Form.word (Keyword.spelling b)).spaced] r (r.expecting .afterType) t
      { t with blendType := b } := by
  refine Shapes.one .afterType ({ · with blendType := b }) fun e s he => ?_
  have hread : (Keyword.read e.text : Except String BlendType) = .ok b := by
    rw [he.is.word_text]
    cases b <;> decide
  simp only [react, hx, blendType, hread]
  rfl

theorem shapes_parameter (hx : r.expect = .afterType) (p : String) :
    Shapes [(Form.symbol '(').joined, (Form.name p).joined] r (r.expecting (.parameterNext true)) t
      { t with parameter := p } := by
  have hopen : Moves [(Form.symbol '(').joined] r (r.expecting .firstParameter) := by
    refine Moves.one fun e s he => ?_
    simp [react, hx, reactAfterType, he.is.symbol_isSymbol, Except.map]
  refine (Shapes.moves hopen rfl).trans (Shapes.one (.parameterNext true)
    ({ · with parameter := p }) fun e s he => ?_)
  simp [react, expecting, he.is.name_name]
  rfl

theorem shapes_parameterY (p : String) :
    Shapes [(Form.symbol ',').joined, (Form.name p).spaced] (r.expecting (.parameterNext true))
      (r.expecting (.parameterNext false)) t { t with parameterY := p } := by
  have hcomma : Moves [(Form.symbol ',').joined] (r.expecting (.parameterNext true))
      (r.expecting .secondParameter) := by
    refine Moves.one fun e s he => ?_
    simp [react, expecting, he.is.symbol_isSymbol]
  refine (Shapes.moves hcomma rfl).trans (Shapes.one (.parameterNext false)
    ({ · with parameterY := p }) fun e s he => ?_)
  simp [react, expecting, he.is.name_name]
  rfl

theorem shapes_close (first : Bool) :
    Shapes [(Form.symbol ')').joined] (r.expecting (.parameterNext first)) (r.expecting .afterType)
      t t := by
  refine Shapes.moves (Moves.one fun e s he => ?_) rfl
  simp [react, expecting, expectSymbol, he.is.symbol_isSymbol, Except.map]

theorem shapes_thresholds (hx : r.expect = .afterType) {least greatest : Single}
    (hl : least.isFinite = true) (hg : greatest.isFinite = true) :
    Shapes [(Form.word "threshold").spaced, (Form.symbol '(').joined, (Form.float least).joined,
      (Form.symbol ',').joined, (Form.float greatest).spaced, (Form.symbol ')').joined] r
        (r.expecting .afterType) t { t with thresholds := some (least, greatest) } := by
  have hword : Moves [(Form.word "threshold").spaced] r (r.expecting .thresholdOpen) := by
    refine Moves.one fun e s he => ?_
    simp +decide [react, hx, reactAfterType, he.is.word_isSymbol, he.is.word_isKeyword, Except.map]
  have hopen : Moves [(Form.symbol '(').joined] (r.expecting .thresholdOpen)
      (r.expecting .thresholdMin) := by
    refine Moves.one fun e s he => ?_
    simp [react, expecting, expectSymbol, he.is.symbol_isSymbol, Except.map]
  have hleast : Shapes [(Form.float least).joined] (r.expecting .thresholdMin)
      (r.expecting .thresholdComma) t { t with thresholds := some (least, least) } := by
    refine Shapes.one .thresholdComma ({ · with thresholds := some (least, least) })
      fun e s he => ?_
    simp [react, expecting, he.is.float_number hl]
    rfl
  have hcomma : Moves [(Form.symbol ',').joined] (r.expecting .thresholdComma)
      (r.expecting .thresholdMax) := by
    refine Moves.one fun e s he => ?_
    simp [react, expecting, expectSymbol, he.is.symbol_isSymbol, Except.map]
  have hgreatest : Shapes [(Form.float greatest).spaced] (r.expecting .thresholdMax)
      (r.expecting .thresholdClose) { t with thresholds := some (least, least) }
        { t with thresholds := some (least, greatest) } := by
    refine Shapes.one .thresholdClose (fun t => { t with
      thresholds := t.thresholds.map fun p => (p.1, greatest) }) fun e s he => ?_
    simp [react, expecting, he.is.float_number hg]
    rfl
  have hclose : Moves [(Form.symbol ')').joined] (r.expecting .thresholdClose)
      (r.expecting .afterType) := by
    refine Moves.one fun e s he => ?_
    simp [react, expecting, expectSymbol, he.is.symbol_isSymbol, Except.map]
  exact ((((Shapes.moves (hword.trans hopen) rfl).trans hleast).trans (.moves hcomma rfl)).trans
    hgreatest).trans (.moves hclose rfl)

/-- The pieces between the name of a tree and its thresholds. -/
def parameterPieces (t : BlendTree) : List Piece :=
  match t.blendType.parameterCount with
  | 0 => []
  | 1 => [(Form.symbol '(').joined, (Form.name t.parameter).joined, (Form.symbol ')').joined]
  | _ => [(Form.symbol '(').joined, (Form.name t.parameter).joined, (Form.symbol ',').joined,
      (Form.name t.parameterY).spaced, (Form.symbol ')').joined]

def thresholdPieces : Option (Single × Single) → List Piece
  | none => []
  | some (least, greatest) => [(Form.word "threshold").spaced, (Form.symbol '(').joined,
      (Form.float least).joined, (Form.symbol ',').joined, (Form.float greatest).spaced,
      (Form.symbol ')').joined]

def headerPieces (t : BlendTree) : List Piece :=
  (Form.string t.name).spaced :: (Form.word (Keyword.spelling t.blendType)).spaced ::
    (parameterPieces t ++ (thresholdPieces t.thresholds ++ [(Form.symbol '{').spaced]))

theorem chunk_header (ht : t.Writable) :
    Chunk (Canonical.treeHeader t).toList ((Form.word "blendtree").joined :: headerPieces t) := by
  obtain ⟨name, b, p, q, thresholds, children⟩ := t
  have hv : ∀ x ∈ thresholds, (Form.float x.1).Valid ∧ (Form.float x.2).Valid := fun x hx =>
    ⟨Form.valid_single (ht.thresholds x hx).1, Form.valid_single (ht.thresholds x hx).2⟩
  -- Each type writes its own parameters, in front of thresholds or of none.
  constructor
  · cases thresholds <;> cases b <;> simp [Canonical.treeHeader, headerPieces, parameterPieces,
      thresholdPieces, BlendType.parameterCount]
  · cases thresholds with
    | none => cases b <;> simp +decide [headerPieces, parameterPieces, thresholdPieces,
        BlendType.parameterCount]
    | some x =>
      obtain ⟨hl, hg⟩ := hv x rfl
      cases b <;> simp +decide [headerPieces, parameterPieces, thresholdPieces,
        BlendType.parameterCount, hl, hg]

/-- The parameters of a tree; those its type does not use are empty. -/
theorem exists_shapes_parameters (ht : t.Writable) {r : MotionRule} (hx : r.expect = .afterType) :
    Shapes (parameterPieces t) r r { name := t.name, blendType := t.blendType }
      { t with thresholds := none, children := [] } := by
  obtain ⟨name, b, p, q, thresholds, children⟩ := t
  have hr : r.expecting .afterType = r := by rw [expecting, ← hx]
  have hone : Shapes [(Form.symbol '(').joined, (Form.name p).joined, (Form.symbol ')').joined] r r
      { name, blendType := b } { name, blendType := b, parameter := p } := by
    have := (shapes_parameter (t := { name, blendType := b }) hx p).trans (shapes_close true)
    rwa [hr] at this
  have htwo : Shapes [(Form.symbol '(').joined, (Form.name p).joined, (Form.symbol ',').joined,
      (Form.name q).spaced, (Form.symbol ')').joined] r r
        { name, blendType := b } { name, blendType := b, parameter := p, parameterY := q } := by
    have := ((shapes_parameter (t := { name, blendType := b }) hx p).trans
      (shapes_parameterY q)).trans (shapes_close false)
    rwa [hr] at this
  cases b with
  | direct =>
    obtain rfl : p = "" := ht.parameter rfl
    obtain rfl : q = "" := ht.parameterY rfl
    exact Shapes.moves (.refl r) rfl
  | simple1D =>
    obtain rfl : q = "" := ht.parameterY rfl
    exact hone
  | _ => exact htwo

/-- The rule of a blend tree between two of its children. -/
def opened (slot : MotionSlot) (scope : Option Scope) (name : String) (id : MotionId) : MotionRule where
  slot
  scope := scope.map fun scope => { scope with hint := scope.hint ++ [name] }
  expect := .key
  motion := some id

theorem leads_header (ht : t.Writable) {lead : Form → Piece} (hlead : ∀ f, (lead f).form = f)
    {slot : MotionSlot} {scope : Option Scope} {qs : List Piece} {rest stack : List Frame}
    {o o' : Outline} {told : Told}
    (hs : Leads κ qs (.motion (opened slot scope t.name ⟨o.controller.motions.size⟩) :: rest)
      (o.addMotion (.tree { t with children := [] })) stack o' told) :
    Leads κ (lead (.word "blendtree") :: (headerPieces t ++ qs)) (.motion { slot, scope } :: rest) o
      stack o' told := by
  let r : MotionRule := { slot, scope }
  refine .read (.motion (r.expecting .treeName)) (by simp) (fun e s he => ?_) ?_
  · have he := hlead _ ▸ he.is
    rw [Frame.react, react]
    simp +decide [reactStart, he.word_isKeyword, Frame.lift, Except.map, r]
  let q : MotionRule := { opened slot scope t.name ⟨o.controller.motions.size⟩ with
    expect := .treeType }
  refine .stay (m := o.addMotion (.tree { name := t.name })) (.motion q) (by simp)
    (fun e s he ho => ?_) ?_
  · subst ho
    refine ⟨(openTree r s t.name).2, ?_, rfl⟩
    rw [Frame.react, react]
    simp only [expecting, he.is.string_name]
    rfl
  -- The type, the parameters and the thresholds change the tree that has been added.
  have htype := shapes_type (r := q) (t := { name := t.name }) rfl t.blendType
  have hparameters := exists_shapes_parameters ht (r := q.expecting .afterType) rfl
  have hthresholds : Shapes (thresholdPieces t.thresholds) (q.expecting .afterType)
      (q.expecting .afterType) { t with thresholds := none, children := [] }
        { t with children := [] } := by
    cases hx : t.thresholds with
    | none => exact Shapes.moves (.refl _) rfl
    | some x =>
      obtain ⟨least, greatest⟩ := x
      obtain ⟨hl, hg⟩ := ht.thresholds _ hx
      exact shapes_thresholds (r := q.expecting .afterType) rfl hl hg
  have hbrace : Moves [(Form.symbol '\x7b').spaced] (q.expecting .afterType) (q.expecting .key) := by
    refine Moves.one fun e s he => ?_
    simp [react, expecting, reactAfterType, he.is.symbol_isSymbol, he.is.symbol_isKeyword, Except.map]
  have hall := htype.trans (hparameters.trans (hthresholds.trans (.moves hbrace rfl)))
  exact hall.leads rfl hs

/-! ## Motions in a tree and in a state -/

end MotionRule

/-- An outline with other motions. -/
def Outline.withMotions (o : Outline) (motions : Array Motion) : Outline :=
  { o with controller := { o.controller with motions } }

namespace MotionRule

/-- The rule of a motion that has been read. -/
def filled (slot : MotionSlot) (motion : Option MotionId) (m : ChildMotion) : MotionRule :=
  withModifiers { slot, motion } m

end MotionRule

/-- A child slot as it is read back in a tree of a type, whatever fills it. -/
def ChildMotion.readBack (m : ChildMotion) (b : BlendType) : ChildMotion :=
  (MotionRule.filled .root none m).slotOf (m.key b)

/-- Whether a motion of one controller has been read back as one of another controller. -/
inductive ReadMotion (c c' : Controller) : Option MotionId → Option MotionId → Prop where
  | none : ReadMotion c c' none none
  | clip {id id' : MotionId} (h : c'.motion id' = c.motion id)
    (hc : ∃ asset, c.motion id = .clip asset) : ReadMotion c c' (some id) (some id')
  | tree {id id' : MotionId} {t : BlendTree} {children : List ChildMotion}
    (h : c.motion id = .tree t) (h' : c'.motion id' = .tree { t with children })
    (slots : List.Forall₂ (fun a b => { b with motion := .none } = a.readBack t.blendType) t.children
      children)
    (motions : List.Forall₂ (fun a b => ReadMotion c c' a.motion b.motion) t.children children) :
    ReadMotion c c' (some id) (some id')

namespace MotionRule

/-- Whether a written motion is read back as the same tree: it adds motions and takes its place. -/
def Rereads (κ : Knowledge) (c : Controller) (depth : Nat) (motion : Option MotionId) : Prop :=
  ∀ {m : ChildMotion}, m.Finite → ∀ {key : String} {ps : List Piece} {lead : Form → Piece},
    LeadIn key ps lead → ∀ indent, ∃ word qs,
      (motion = none ∨ word = "clip" ∨ word = "blendtree") ∧
      Spells (Canonical.motionLines c depth indent key (Canonical.childModifiers m) motion)
        (ps ++ lead (.word word) :: qs) ∧
      ∀ (slot : MotionSlot) (o : Outline), (motion = none → isChild { slot } = true) →
        ∃ motions id,
            (∀ (scope : Option Scope) (below : Frame) (rest : List Frame),
              Leads κ (lead (.word word) :: qs) (.motion { slot, scope } :: below :: rest) o
                (below :: rest) { o.withMotions motions with
                  controller := (filled slot id m).place (o.withMotions motions).controller } {}) ∧
            o.controller.motions.size ≤ motions.size ∧
            AgreesOn 0 o.controller.motions.size o.controller.motions motions ∧
            ∀ c' : Controller, AgreesOn o.controller.motions.size motions.size motions c'.motions →
              ReadMotion c c' motion id

theorem rereads_empty (c : Controller) (depth : Nat) : Rereads κ c depth none := by
  intro m hm key ps lead hlead indent
  have hc : Chunk "empty".toList [(Form.word "empty").joined] := ⟨by simp, by simp +decide⟩
  have hchunk : Chunk ("empty" ++ (Canonical.childModifiers m ++ ";")).toList
      ((Form.word "empty").joined :: ([] ++ endPieces m)) := by
    rw [String.toList_append]
    exact chunk_modifiers hm hc (by simp)
  have hline := hlead.line indent hchunk
  refine ⟨"empty", endPieces m, .inl rfl, ?_, fun slot o hslot => ?_⟩
  · have htext : key ++ ("empty" ++ (Canonical.childModifiers m ++ ";")) =
        key ++ "empty" ++ Canonical.childModifiers m ++ ";" := by simp only [String.append_assoc]
    rw [htext] at hline
    rw [Canonical.motionLines]
    exact hline
  · refine ⟨o.controller.motions, none, fun scope below rest => ?_, Nat.le_refl _, .refl _ _ _,
      fun c' _ => .none⟩
    refine .read (.motion { slot, scope, expect := .modifier }) (by simp) (fun e s he => ?_) ?_
    · have he := hlead.form _ ▸ he.is
      have hchild : isChild { slot, scope } = true := hslot rfl
      rw [Frame.react, react]
      simp +decide [reactStart, he.word_isKeyword, hchild, Frame.lift, Except.map, expecting]
    · exact leads_modifiers κ hm rfl rfl rfl rfl below rest o

end MotionRule

theorem Controller.motion_eq {c : Controller} {id : MotionId} {m : Motion}
    (h : c.motions[id.index]? = some m) : c.motion id = m := by
  rw [Controller.motion, Array.getD_eq_getD_getElem?, h, Option.getD_some]

namespace MotionRule

theorem rereads_clip {c : Controller} (depth : Nat) {id : MotionId} {reference : String}
    (h : c.motion id = .clip ⟨reference, .animationClip⟩)
    (hr : κ.finds reference .animationClip) : Rereads κ c depth (some id) := by
  intro m hm key ps lead hlead indent
  have hc : Chunk ("clip " ++ Canonical.string reference).toList
      [(Form.word "clip").joined, (Form.string reference).spaced] := ⟨by simp, by simp +decide⟩
  have hchunk : Chunk ("clip " ++ Canonical.string reference ++
      (Canonical.childModifiers m ++ ";")).toList
        ((Form.word "clip").joined :: ([(Form.string reference).spaced] ++ endPieces m)) := by
    rw [String.toList_append]
    exact chunk_modifiers hm hc (by simp)
  have hline := hlead.line indent hchunk
  refine ⟨"clip", (Form.string reference).spaced :: endPieces m, .inr (.inl rfl), ?_,
    fun slot o _ => ?_⟩
  · have htext : key ++ ("clip " ++ Canonical.string reference ++ (Canonical.childModifiers m ++ ";")) =
        key ++ "clip " ++ Canonical.string reference ++ Canonical.childModifiers m ++ ";" := by
      simp only [String.append_assoc]
    rw [htext] at hline
    rw [Canonical.motionLines.eq_def]
    simp only [h]
    exact hline
  · let clip : Motion := .clip ⟨reference, .animationClip⟩
    refine ⟨o.controller.motions.push clip, some ⟨o.controller.motions.size⟩,
      fun scope below rest => ?_, by simp, .push _ _, fun c' hc' => ?_⟩
    · refine .read (.motion { slot, scope, expect := .clipReference }) (by simp)
        (fun e s he => ?_) ?_
      · have he := hlead.form _ ▸ he.is
        rw [Frame.react, react]
        simp +decide [reactStart, he.word_isKeyword, Frame.lift, Except.map, expecting]
      · refine .ask (m := o.withMotions (o.controller.motions.push clip))
          (.motion { slot, scope, motion := some ⟨o.controller.motions.size⟩, expect := .modifier })
          (by simp) (fun e s he hs ho => ?_) ?_
        · subst ho
          obtain ⟨s', hs', ho', hcontroller⟩ := Session.exists_resolve hs hr
          refine ⟨{ s' with controller := (s'.controller.addMotion clip).2 }, ?_, ?_⟩
          · rw [Frame.react, react]
            simp only [he.is.string_name, bind, Except.bind, MotionRule.clip, hs', hcontroller]
            rfl
          · simp only [Session.outline] at ho' ⊢
            simp only [Outline.mk.injEq] at ho'
            obtain ⟨-, h1, h2, h3⟩ := ho'
            simp only [h1, h2, h3, hcontroller, Outline.withMotions]
            rfl
        · exact leads_modifiers κ hm rfl rfl rfl rfl below rest _
    · have hget := hc' o.controller.motions.size (Nat.le_refl _) (by simp)
      rw [Array.getElem?_push_size] at hget
      exact .clip ((Controller.motion_eq hget).trans h.symm) ⟨_, h⟩

/-- The slot a child fills is the one it was written for. -/
theorem slotOf_filled (m : ChildMotion) (b : BlendType) (slot : MotionSlot) (id : Option MotionId) :
    { (filled slot id m).slotOf (m.key b) with motion := none } = m.readBack b := by
  cases b <;> rfl

/-- A slot that is read back equals the one that was written. -/
theorem sameSlot_readBack {m n : ChildMotion} {b : BlendType} (hm : m.Finite) (hk : m.Keyed b)
    (hn : { n with motion := none } = m.readBack b) : m.SameSlot n := by
  have hback : m.SameSlot (m.readBack b) → m.SameSlot n := by
    intro h
    have hnone : { m.readBack b with motion := none } = m.readBack b := by cases b <;> rfl
    rwa [ChildMotion.SameSlot, hnone, ← hn] at h
  have hspeed : (m.timeScale == (if m.timeScale != .one then some m.timeScale else none).getD .one) =
      true := by
    split
    · exact Binary.beq_self hm.timeScale
    · rename_i h
      simpa [bne] using h
  have hoffset : (m.cycleOffset ==
      (if m.cycleOffset.isZero then none else some m.cycleOffset).getD .zero) = true := by
    split
    · rename_i h
      exact BEq.symm (Binary.beq_zero h hm.cycleOffset)
    · exact Binary.beq_self hm.cycleOffset
  have hzero {x : Single} (h : x.isZero = true) : (x == .zero) = true :=
    BEq.symm (Binary.beq_zero h (Binary.isFinite_of_isZero h))
  refine hback ((ChildMotion.sameSlot_iff _ _).2 ?_)
  cases b with
  | direct =>
    obtain ⟨h1, h2, h3⟩ := hk
    exact ⟨hzero h1, (Vec2.beq_iff _ _).2 ⟨hzero h2, hzero h3⟩, rfl, hspeed, hoffset, rfl⟩
  | simple1D =>
    obtain ⟨h1, h2, h3, h4⟩ := hk
    exact ⟨Binary.beq_self h1, (Vec2.beq_iff _ _).2 ⟨h2, hzero h3⟩, h4, hspeed, hoffset, rfl⟩
  | _ =>
    obtain ⟨h1, h2, h3, h4⟩ := hk
    exact ⟨h3, (Vec2.beq_iff _ _).2 ⟨Binary.beq_self h1, Binary.beq_self h2⟩, h4, hspeed, hoffset,
      rfl⟩

/-- A blend tree with further children. -/
def addChildren (children : List ChildMotion) : Motion → Motion :=
  (·.modifyTree fun t => { t with children := t.children ++ children })

@[simp]
theorem addChildren_nil (m : Motion) : addChildren [] m = m := by
  cases m <;> simp [addChildren, Motion.modifyTree]

@[simp]
theorem addChildren_addChildren (as bs : List ChildMotion) (m : Motion) :
    addChildren bs (addChildren as m) = addChildren (as ++ bs) m := by
  cases m <;> simp [addChildren, Motion.modifyTree]

@[simp]
theorem slotOf_motion (r : MotionRule) (key : ChildKey) : (r.slotOf key).motion = r.motion := by
  cases key <;> rfl

/-- The children of a blend tree are added to it in order. -/
theorem rereads_children {c : Controller} {depth : Nat} {b : BlendType} {ms : List ChildMotion}
    (h : ∀ m ∈ ms, (m.Finite ∧ m.Keyed b) ∧ Rereads κ c depth m.motion) (indent : Nat) :
    ∃ qs, Spells (ms.flatMap fun m => Canonical.motionLines c depth indent (Canonical.childKey m b)
        (Canonical.childModifiers m) m.motion) qs ∧
      ∀ (tree : MotionId) (o : Outline), tree.index < o.controller.motions.size →
        ∃ motions children,
            (∀ (r : MotionRule) (rest : List Frame), r.expect = .key → r.motion = some tree →
              Leads κ qs (.motion r :: rest) o (.motion r :: rest) (o.withMotions motions) {}) ∧
            o.controller.motions.size ≤ motions.size ∧
            AgreesOn 0 o.controller.motions.size
              (o.controller.motions.modify tree.index (addChildren children)) motions ∧
            ∀ c' : Controller, AgreesOn o.controller.motions.size motions.size motions c'.motions →
              List.Forall₂ (fun a x => { x with motion := none } = a.readBack b) ms children ∧
                List.Forall₂ (fun a x => ReadMotion c c' a.motion x.motion) ms children := by
  induction ms with
  | nil =>
    refine ⟨[], .nil, fun tree o ht => ⟨o.controller.motions, [],
      fun r rest _ _ => .nil _ _, Nat.le_refl _, fun i _ hi => ?_, fun c' _ => ⟨.nil, .nil⟩⟩⟩
    rw [Array.getElem?_modify, show addChildren [] = id from funext addChildren_nil]
    simp
  | cons m ms ih =>
    rw [List.forall_mem_cons] at h
    obtain ⟨⟨⟨hfin, hkeyed⟩, hm⟩, hms⟩ := h
    obtain ⟨qs', hspells', hreads'⟩ := ih hms
    obtain ⟨ks, hlead, hkey⟩ := exists_key hkeyed
    obtain ⟨word, qs, -, hspells, hreads⟩ := hm hfin hlead indent
    refine ⟨ks ++ Form.spaced (.word word) :: qs ++ qs', hspells.append hspells', fun tree o ht => ?_⟩
    obtain ⟨motions, id, hleads, hsize, hold, hsame⟩ :=
      hreads (.child tree (m.key b)) o (fun _ => rfl)
    -- The tree with this child.
    let slot := (filled (.child tree (m.key b)) id m).slotOf (m.key b)
    let o₁ := o.withMotions (motions.modify tree.index (addChildren [slot]))
    have hsize₁ : o₁.controller.motions.size = motions.size := Array.size_modify
    obtain ⟨motions', children, hleads', hsize', hold', hsame'⟩ :=
      hreads' tree o₁ (by omega)
    rw [hsize₁] at hsize' hold' hsame'
    have hchild (c' : Controller)
        (hc' : AgreesOn o.controller.motions.size motions'.size motions' c'.motions) :
        AgreesOn o.controller.motions.size motions.size motions c'.motions := by
      have hplaced : AgreesOn o.controller.motions.size motions.size motions
          o₁.controller.motions := .modify _ (.inl ht)
      have hlater : AgreesOn o.controller.motions.size motions.size o₁.controller.motions motions' :=
        (AgreesOn.modify (addChildren children) (.inl ht)).trans
          (hold'.mono (Nat.zero_le _) (Nat.le_refl _))
      exact (hplaced.trans hlater).trans (hc'.mono (Nat.le_refl _) hsize')
    refine ⟨motions', slot :: children, fun r rest hx hr => ?_, by omega, ?_, fun c' hc' => ?_⟩
    · rw [List.append_assoc, ← Told.nil_append {}]
      refine hkey hx hr ?_
      exact (hleads r.scope (.motion r) rest).append (hleads' r rest hx hr)
    · -- The tree gets the first child and then the others.
      intro i hl hi
      rw [hold' i hl (by omega)]
      simp only [o₁, Outline.withMotions, Array.getElem?_modify, hold i hl hi]
      split
      · cases o.controller.motions[i]? <;> simp
      · rfl
    · obtain ⟨hslots, hmotions⟩ := hsame' c' (hc'.mono hsize (Nat.le_refl _))
      refine ⟨.cons (slotOf_filled m b _ id) hslots, .cons ?_ hmotions⟩
      rw [slotOf_motion]
      exact hsame c' (hchild c' hc')

theorem rereads_tree {c : Controller} {depth : Nat} {id : MotionId} {t : BlendTree}
    (h : c.motion id = .tree t) (ht : t.Writable)
    (hs : ∀ m ∈ t.children, (m.Finite ∧ m.Keyed t.blendType) ∧ Rereads κ c depth m.motion) :
    Rereads κ c (depth + 1) (some id) := by
  intro m hm key ps lead hlead indent
  obtain ⟨qs, hspells, hreads⟩ := rereads_children hs (indent + 1)
  have hheader := hlead.line indent (chunk_header ht)
  have hchunk : Chunk ("\x7d" ++ (Canonical.childModifiers m ++ ";")).toList
      ((Form.symbol '\x7d').joined :: ([] ++ endPieces m)) := by
    rw [String.toList_append]
    exact chunk_modifiers hm ⟨by simp, by simp +decide⟩ (by simp)
  refine ⟨"blendtree", headerPieces t ++ (qs ++ (Form.symbol '\x7d').joined :: endPieces m),
    .inr (.inr rfl), ?_, fun slot o _ => ?_⟩
  · rw [Canonical.motionLines.eq_def]
    simp only [h]
    have hall := hheader.append (hspells.append (hchunk.line indent))
    simpa [String.append_assoc] using hall
  · let tree : MotionId := ⟨o.controller.motions.size⟩
    let o₁ := o.addMotion (.tree { t with children := [] })
    have hsize₁ : o₁.controller.motions.size = o.controller.motions.size + 1 := Array.size_push _
    obtain ⟨motions, children, hleads, hsize, hold, hsame⟩ :=
      hreads tree o₁ (by rw [hsize₁]; exact Nat.lt_succ_self _)
    rw [hsize₁] at hsize hold hsame
    refine ⟨motions, some tree, fun scope below rest => ?_, by omega, ?_, fun c' hc' => ?_⟩
    · rw [← Told.nil_append {}]
      refine leads_header ht hlead.form ?_
      refine (hleads (opened slot scope t.name tree) (below :: rest) rfl rfl).append
        (.read (.motion { opened slot scope t.name tree with
          closedTree := true, expect := .modifier }) (by simp) (fun e s he => ?_) ?_)
      · rw [Frame.react, react]
        simp [opened, reactKey, he.is.symbol_isSymbol, Frame.lift, Except.map]
      · have hend := leads_modifiers κ hm (r := { opened slot scope t.name tree with
          closedTree := true, expect := .modifier }) rfl rfl rfl rfl below rest
            (o₁.withMotions motions)
        cases slot <;> exact hend
    · -- The motions that were there already are not the new tree.
      intro i hl hi
      rw [hold i hl (by omega), AgreesOn.modify _ (.inr (Nat.le_refl _)) i hl hi]
      exact AgreesOn.push _ 0 i hl hi
    · obtain ⟨hslots, hmotions⟩ := hsame c' (hc'.mono (by omega) (Nat.le_refl _))
      refine .tree h ?_ hslots hmotions
      refine Controller.motion_eq ?_
      rw [hc' _ (Nat.le_refl _) hsize, hold _ (Nat.zero_le _) (Nat.lt_succ_self _),
        Array.getElem?_modify, if_pos rfl]
      simp [o₁, Outline.addMotion, Controller.addMotion, addChildren, Motion.modifyTree]

end MotionRule

/-- A motion that is read back is the same tree. -/
theorem ReadMotion.same {c c' : Controller} {finds : String → Prop} {depth : Nat}
    {motion motion' : Option MotionId} (h : ReadMotion c c' motion motion')
    (hw : c.MotionWritableFor finds depth motion) : SameMotion c c' motion motion' := by
  induction hw generalizing motion' with
  | empty =>
    cases h
    exact .none
  | clip depth hclip =>
    cases h with
    | clip h hc => exact .clip h hc
    | tree h => cases hclip.symm.trans h
  | tree htree ht hs _ ih =>
    cases h with
    | clip _ hc =>
      obtain ⟨asset, hc⟩ := hc
      cases htree.symm.trans hc
    | tree h h' slots motions =>
      obtain rfl := Motion.tree.inj (htree.symm.trans h)
      refine .tree h h' ?_ ?_
      · exact ((List.forall₂_and_left _ _).2 ⟨hs, slots⟩).imp fun m n ⟨hm, hn⟩ =>
          MotionRule.sameSlot_readBack hm.1 hm.2 hn
      · exact ((List.forall₂_and_left _ _).2 ⟨ih, motions⟩).imp fun m n ⟨hm, hn⟩ => hm hn

/-- A motion that can be written is read back as the same tree. -/
theorem Controller.MotionWritableFor.rereads {c : Controller} {depth : Nat}
    {motion : Option MotionId} (h : c.MotionWritableFor (κ.finds · .animationClip) depth motion) :
    MotionRule.Rereads κ c depth motion := by
  induction h with
  | empty depth => exact MotionRule.rereads_empty c depth
  | clip depth hc hr => exact MotionRule.rereads_clip depth hc hr
  | tree hc ht hs hm ih => exact MotionRule.rereads_tree hc ht fun m hm => ⟨hs m hm, ih m hm⟩

end MotionScript
