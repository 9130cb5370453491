import MotionScript.Proofs.Steps.Declarations
/-!
# Steps of motions

All that the rule of a motion can do with a token.
-/

namespace MotionScript

namespace Event

variable {e : Event}

/-- Neither words nor names nor numbers are symbols. -/
theorem isKeyword_symbol (hk : e.kind = .symbol) (word : String) : e.isKeyword word = false := by
  rw [Token.isKeyword, hk]
  rfl

theorem name_not_symbol {expected name : String} (h : e.name expected = .ok name) :
    e.kind ≠ .symbol := by
  intro hk
  rw [Event.name, Token.name?, hk] at h
  cases h

theorem number_not_symbol {x : Single} (h : e.number = .ok x) : e.kind ≠ .symbol := by
  intro hk
  rw [Event.number, Token.single?, Token.numeral?, hk] at h
  cases h

end Event

/-- Whether a motion is a blend tree that has been added to the graph but not closed. -/
def MotionExpect.inTree : MotionExpect → Bool
  | .start | .clipReference | .treeName | .modifier | .speed | .offset _ => false
  | _ => true

namespace MotionRule

variable {η : Type} [Host η] {e : Event} {s s' : Session η} {r r' : MotionRule}
  {control : Control Frame}

/-- What a motion does with a token. -/
inductive Move (e : Event) (s : Session η) (r : MotionRule) :
    MotionRule → Session η → Control Frame → Prop where
  /-- Something else is expected; no symbol makes a motion ready for its modifiers. -/
  | expect {x : MotionExpect} (hx : e.kind = .symbol → x ≠ .modifier)
    (ht : x.inTree → r.expect.inTree) : Move e s r (r.expecting x) s none
  | modify (speed offset : Option Single) (mirror : Bool) (hk : e.kind ≠ .symbol) :
    Move e s r { r with speed, offset, mirror, expect := .modifier } s none
  | closeTree (he : e.isSymbol '}' = true) :
    Move e s r { r with closedTree := true, expect := .modifier } s none
  | clip (reference : String) (hk : e.kind ≠ .symbol) :
    Move e s r (r.clip s reference).1 (r.clip s reference).2 none
  | openTree (name : String) : Move e s r (r.openTree s name).1 (r.openTree s name).2 none
  | tree {x : MotionExpect} {f : BlendTree → BlendTree} (hx : x ≠ .modifier)
    (ht : r.expect.inTree) (hf : ∀ t, (f t).children = t.children) :
    Move e s r (r.expecting x) (r.modifyTree s f) none
  | child {tree : MotionId} (key : ChildKey) (htree : r.motion = some tree) :
    Move e s r (r.expecting .key) s (some (.attach (.motion (child tree key)) false))
  | detach (forward : Bool) (hx : r.expect = .modifier)
    (he : e.isSymbol ';' = true ∨ r.closedTree = true) : Move e s r r s (some (.detach forward))

/-- A symbol that has to come is read. -/
theorem expectSymbol_move {symbol : Char} {expected : String} {next : MotionExpect}
    (h : (r.expectSymbol e symbol expected next).map (fun q => (q, s, none)) = .ok (r', s', control))
    (hx : next ≠ .modifier) (ht : r.expect.inTree) : Move e s r r' s' control := by
  obtain ⟨q, hq, h⟩ := except_map_ok.1 h
  cases h
  unfold expectSymbol at hq
  split at hq <;> cases hq
  exact .expect (fun _ => hx) fun _ => ht

theorem reactStart_move (h : r.reactStart e = .ok r') : Move e s r r' s none := by
  unfold reactStart at h
  split at h
  · cases h
    exact .expect (fun _ => nofun) nofun
  split at h
  · cases h
    exact .expect (fun _ => nofun) nofun
  split at h
  · rename_i hempty
    cases h
    refine .expect (fun hk => ?_) nofun
    rw [Event.isKeyword_symbol hk] at hempty
    cases hempty
  · cases h

theorem reactAfterType_move (h : r.reactAfterType e = .ok r') (ht : r.expect.inTree) :
    Move e s r r' s none := by
  unfold reactAfterType at h
  repeat' split at h
  all_goals
    cases h
    try exact .expect (fun _ => nofun) fun _ => ht

theorem reactKey_move (h : r.reactKey e = .ok r') (ht : r.expect.inTree) :
    Move e s r r' s none := by
  unfold reactKey at h
  split at h
  · cases h
    exact .closeTree ‹_›
  split at h
  · cases h
    exact .expect (fun _ => nofun) fun _ => ht
  split at h <;>
  · obtain ⟨y, -, h⟩ := except_bind_ok.1 h
    cases h
    exact .expect (fun _ => nofun) fun _ => ht

theorem reactModifier_move (h : r.reactModifier e = .ok (r', control)) (hx : r.expect = .modifier) :
    Move e s r r' s control := by
  have modify {offset : Option Single} {mirror : Bool} (hk : e.kind ≠ .symbol) :
      Move e s r { r with offset, mirror } s none :=
    hx ▸ .modify r.speed offset mirror hk
  unfold reactModifier at h
  split at h
  · cases h
    exact .detach false hx (.inl ‹_›)
  split at h
  · rename_i hclosed
    cases h
    exact .detach true hx (.inr (Bool.and_eq_true_iff.1 hclosed).1)
  iterate 3
    split at h
    · cases h
      exact .expect (fun _ => nofun) nofun
  split at h
  · obtain ⟨x, hnumber, h⟩ := except_bind_ok.1 h
    cases h
    exact modify (Event.number_not_symbol hnumber)
  split at h
  · rename_i hmirror
    cases h
    refine modify fun hk => ?_
    rw [Event.isKeyword_symbol hk] at hmirror
    cases hmirror
  split at h
  · cases h
    exact .detach true hx (.inr ‹_›)
  · cases h

theorem react_move (h : r.react e s = .ok (r', s', control)) : Move e s r r' s' control := by
  unfold react at h
  cases hx : r.expect <;> simp only [hx] at h
  case start =>
    obtain ⟨q, hq, h⟩ := except_map_ok.1 h
    cases h
    exact reactStart_move hq
  case clipReference =>
    obtain ⟨reference, hname, h⟩ := except_bind_ok.1 h
    cases h
    exact .clip reference (Event.name_not_symbol hname)
  case treeName =>
    obtain ⟨name, -, h⟩ := except_bind_ok.1 h
    cases h
    exact .openTree name
  case modifier =>
    obtain ⟨⟨q, control'⟩, hq, h⟩ := except_map_ok.1 h
    cases h
    exact reactModifier_move hq hx
  case speed =>
    obtain ⟨x, hnumber, h⟩ := except_bind_ok.1 h
    cases h
    exact .modify (some x) r.offset r.mirror (Event.number_not_symbol hnumber)
  case offset negative =>
    split at h
    · cases h
      exact .expect (fun _ => nofun) nofun
    split at h
    · cases h
      exact .expect (x := r.expect) (fun _ => by simp [hx]) id
    · obtain ⟨x, hnumber, h⟩ := except_bind_ok.1 h
      cases h
      exact .modify r.speed _ r.mirror (Event.number_not_symbol hnumber)
  -- What is left belongs to a blend tree whose name has been read.
  all_goals have ht : r.expect.inTree := by rw [hx]; rfl
  case afterType =>
    obtain ⟨q, hq, h⟩ := except_map_ok.1 h
    cases h
    exact reactAfterType_move hq ht
  case key =>
    obtain ⟨q, hq, h⟩ := except_map_ok.1 h
    cases h
    exact reactKey_move hq ht
  case parameterNext first =>
    split at h
    · cases h
      exact .expect (fun _ => nofun) fun _ => ht
    · exact expectSymbol_move h nofun ht
  case thresholdOpen | thresholdComma | thresholdClose | keyComma | keyClose =>
    all_goals exact expectSymbol_move h nofun ht
  case treeType | firstParameter | secondParameter | thresholdMin | thresholdMax =>
    all_goals
      obtain ⟨x, -, h⟩ := except_bind_ok.1 h
      cases h
      exact .tree nofun ht fun _ => rfl
  case keyX | keyY =>
    all_goals
      obtain ⟨x, -, h⟩ := except_bind_ok.1 h
      cases h
      exact .expect (fun _ => nofun) fun _ => ht
  case colon key =>
    split at h
    · cases h
    · split at h <;> cases h
      exact .child key ‹_›

end MotionRule

end MotionScript
