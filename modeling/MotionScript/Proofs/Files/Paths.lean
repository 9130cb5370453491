import MotionScript.FileTree
/-!
# Where paths lead

A path leads to the names that its components spell from the directory where it starts. A path that
is appended to another one starts where that one leads, and it stays inside the directory if it
never climbs above it.
-/

namespace MotionScript

/-! ## Components -/

theorem splitSlashes_ne_nil (cs : List Char) : splitSlashes cs ≠ [] := by
  cases cs with
  | nil => simp [splitSlashes]
  | cons c cs =>
    by_cases hc : c = '/'
    · simp [hc, splitSlashes]
    · rw [splitSlashes.eq_3 c cs hc]
      split <;> exact List.cons_ne_nil _ _

theorem splitSlashes_append (xs ys : List Char) :
    splitSlashes (xs ++ '/' :: ys) = splitSlashes xs ++ splitSlashes ys := by
  induction xs with
  | nil => rfl
  | cons c xs ih =>
    by_cases hc : c = '/'
    · subst hc
      rw [List.cons_append, splitSlashes, splitSlashes, ih, List.cons_append]
    · rw [List.cons_append, splitSlashes.eq_3 _ _ hc, splitSlashes.eq_3 _ _ hc, ih]
      cases hx : splitSlashes xs with
      | nil => exact absurd hx (splitSlashes_ne_nil xs)
      | cons part parts => rfl

theorem splitSlashes_of_notMem {cs : List Char} (h : '/' ∉ cs) : splitSlashes cs = [cs] := by
  induction cs with
  | nil => rfl
  | cons c cs ih =>
    rw [List.mem_cons, not_or] at h
    rw [splitSlashes.eq_3 _ _ (Ne.symm h.1), ih h.2]

/-- A component is not longer than the path. -/
theorem length_le_of_mem_splitSlashes {cs part : List Char} (h : part ∈ splitSlashes cs) :
    part.length ≤ cs.length := by
  induction cs generalizing part with
  | nil =>
    obtain rfl : part = [] := by simpa [splitSlashes] using h
    exact Nat.le_refl _
  | cons c cs ih =>
    by_cases hc : c = '/'
    · subst hc
      rcases List.mem_cons.1 h with rfl | h
      · exact Nat.zero_le _
      · exact Nat.le_succ_of_le (ih h)
    · rw [splitSlashes.eq_3 _ _ hc] at h
      cases hcs : splitSlashes cs with
      | nil => exact absurd hcs (splitSlashes_ne_nil cs)
      | cons first parts =>
        rw [hcs] at h ih
        rcases List.mem_cons.1 h with rfl | h
        · exact Nat.succ_le_succ (ih List.mem_cons_self)
        · exact Nat.le_succ_of_le (ih (List.mem_cons_of_mem _ h))

namespace FileTree

/-! ## Following components -/

/-- The names that a component leads to from a directory. -/
def enter (names : List String) (part : List Char) : List String :=
  if part = [] ∨ part = ['.'] then names
  else if part = ['.', '.'] then names.dropLast
  else names ++ [String.ofList part]

/-- The directory where a path starts. -/
def origin (here : List String) (path : String) : List String :=
  if path.startsWith "/" then [] else here

theorem absoluteNames_eq (here : List String) (path : String) :
    absoluteNames here path = (splitSlashes path.toList).foldl enter (origin here path) := rfl

variable {t : FileTree} {dir names : List String} {parts : List (List Char)}

/-- A component that can be followed stands in a directory. -/
theorem follow?_directory {part : List Char} {rest : List String}
    (h : t.follow? dir (String.ofList part :: rest) = some names) :
    t.entry? dir = some .directory ∧ t.follow? (enter dir part) rest = some names := by
  have hword (word : String) : String.ofList part = word ↔ part = word.toList :=
    ⟨fun h => by rw [← h, String.toList_ofList], fun h => by rw [h, String.ofList_toList]⟩
  have hnothing : String.ofList part = "" ↔ part = [] := hword ""
  have hhere : String.ofList part = "." ↔ part = ['.'] := hword "."
  have habove : String.ofList part = ".." ↔ part = ['.', '.'] := hword ".."
  rw [follow?] at h
  simp only [hnothing, hhere, habove] at h
  split at h
  · rename_i hdir
    refine ⟨hdir, ?_⟩
    by_cases hstay : part = [] ∨ part = ['.']
    · rw [if_pos hstay] at h
      rwa [enter, if_pos hstay]
    · rw [if_neg hstay] at h
      rw [enter, if_neg hstay]
      by_cases hup : part = ['.', '.']
      · rw [if_pos hup] at h
        rwa [if_pos hup]
      · rw [if_neg hup] at h
        rwa [if_neg hup]
  · cases h

/-- What is reached is where the components lead. -/
theorem names_of_follow? (h : t.follow? dir (parts.map String.ofList) = some names) :
    names = parts.foldl enter dir := by
  induction parts generalizing dir with
  | nil => exact (Option.some.inj h).symm
  | cons part parts ih => exact ih (follow?_directory h).2

/-- What is passed on the way is a directory. -/
theorem directory_of_follow? {part : List Char} {rest : List (List Char)}
    (h : t.follow? dir ((parts ++ part :: rest).map String.ofList) = some names) :
    t.entry? (parts.foldl enter dir) = some .directory := by
  induction parts generalizing dir with
  | nil => exact (follow?_directory h).1
  | cons first parts ih => exact ih (follow?_directory h).2

theorem follow?_of_locate? {path : String} (h : t.locate? path = some names) :
    t.follow? (origin t.here path) ((splitSlashes path.toList).map String.ofList) = some names := by
  rw [locate?] at h
  split at h
  · cases h
  · exact h

/-- A file is found at the names that its path stands for. -/
theorem entry?_of_isFile {path : String} (h : t.isFile path = true) :
    t.locate? path = some (absoluteNames t.here path) ∧
      ∃ content, t.entry? (absoluteNames t.here path) = some (.file content) := by
  rw [isFile, read?] at h
  split at h
  · rename_i content hlookup
    obtain ⟨names, hnames, hentry⟩ := Option.bind_eq_some_iff.1 hlookup
    obtain rfl := names_of_follow? (follow?_of_locate? hnames)
    exact ⟨hnames, content, hentry⟩
  · cases h

/-! ## Paths behind paths -/

theorem startsWith_slash {path : String} :
    path.startsWith "/" = true ↔ ∃ cs, path.toList = '/' :: cs := by
  rw [String.startsWith_string_iff]
  exact ⟨fun ⟨cs, h⟩ => ⟨cs, h.symm⟩, fun ⟨cs, h⟩ => ⟨cs, h.symm⟩⟩

theorem startsWith_append {root : String} (hroot : root ≠ "") (path : String) :
    (root ++ path).startsWith "/" = root.startsWith "/" := by
  obtain ⟨c, cs, hcs⟩ := List.exists_cons_of_ne_nil fun h => hroot (String.toList_inj.1 h)
  rw [Bool.eq_iff_iff, startsWith_slash, startsWith_slash, String.toList_append, hcs]
  simp

/-- The components of an appended path follow those of the path in front of it. -/
theorem exists_parts (root : String) {path : String} (hpath : path.startsWith "/" = false) :
    ∃ parts, splitSlashes (joinFilePath root path).toList = parts ++ splitSlashes path.toList ∧
      ∀ here, parts.foldl enter (origin here (joinFilePath root path)) = absoluteNames here root := by
  by_cases hroot : root = ""
  · refine ⟨[], by simp [joinFilePath, hroot], fun here => ?_⟩
    subst hroot
    simp [joinFilePath, origin, hpath]
    rfl
  have hstart (more : String) (here : List String) : origin here (root ++ more) = origin here root := by
    rw [origin, startsWith_append hroot, origin]
  have hjoin : joinFilePath root path =
      if root.endsWith "/" then root ++ path else root ++ "/" ++ path := by
    rw [joinFilePath, if_neg (by simp [hpath, hroot])]
  rw [hjoin]
  split
  · rename_i hslash
    obtain ⟨front, hfront⟩ : ['/'] <:+ root.toList := by
      simpa using (String.Slice.endsWith_string_iff (s := root.toSlice)).1 hslash
    refine ⟨splitSlashes front, ?_, fun here => ?_⟩
    · rw [String.toList_append, ← hfront, List.append_assoc]
      exact splitSlashes_append _ _
    · rw [hstart, absoluteNames_eq, ← hfront, splitSlashes_append, List.foldl_append]
      rfl
  · refine ⟨splitSlashes root.toList, ?_, fun here => ?_⟩
    · rw [String.toList_append, String.toList_append, List.append_assoc]
      exact splitSlashes_append _ _
    · rw [String.append_assoc, hstart, absoluteNames_eq]

/-- A file behind a directory's path is reached through the directory. -/
theorem directory_of_isFile {root path : String} (hpath : path.startsWith "/" = false)
    (h : t.isFile (joinFilePath root path) = true) :
    t.entry? (absoluteNames t.here root) = some .directory := by
  obtain ⟨parts, hparts, hroot⟩ := exists_parts root hpath
  have hfollow := follow?_of_locate? (entry?_of_isFile h).1
  obtain ⟨part, rest, hrest⟩ := List.exists_cons_of_ne_nil (splitSlashes_ne_nil path.toList)
  rw [hparts, hrest] at hfollow
  rw [← hroot t.here]
  exact directory_of_follow? hfollow

theorem absoluteNames_join (here : List String) (root : String) {path : String}
    (hpath : path.startsWith "/" = false) :
    absoluteNames here (joinFilePath root path) =
      (splitSlashes path.toList).foldl enter (absoluteNames here root) := by
  obtain ⟨parts, hparts, hroot⟩ := exists_parts root hpath
  rw [absoluteNames_eq, hparts, List.foldl_append, hroot]

/-! ## Paths that stay inside -/

/-- Whether components never climb above the directory `depth` levels up. -/
def stays (depth : Nat) : List (List Char) → Bool
  | [] => true
  | part :: rest =>
    if part = [] ∨ part = ['.'] then stays depth rest
    else if part = ['.', '.'] then decide (0 < depth) && stays (depth - 1) rest
    else stays (depth + 1) rest

/-- Whether a path stays inside the directory that it is appended to, whichever this is. -/
def Confined (path : String) : Prop :=
  path.startsWith "/" = false ∧ stays 0 (splitSlashes path.toList) = true

instance (path : String) : Decidable (Confined path) := inferInstanceAs (Decidable (_ ∧ _))

/-- Components that stay below a directory lead to a place below it. -/
theorem exists_inside (root : List String) {inside : List String} (h : stays inside.length parts = true) :
    ∃ below, parts.foldl enter (root ++ inside) = root ++ below := by
  induction parts generalizing inside with
  | nil => exact ⟨inside, rfl⟩
  | cons part rest ih =>
    rw [List.foldl_cons, enter]
    rw [stays] at h
    split at h
    · rename_i hstay
      rw [if_pos hstay]
      exact ih h
    rename_i hstay
    rw [if_neg hstay]
    split at h
    · rename_i hup
      rw [Bool.and_eq_true, decide_eq_true_iff] at h
      rw [if_pos hup, List.dropLast_append_of_ne_nil (List.length_pos_iff.1 h.1)]
      exact ih (by rw [List.length_dropLast]; exact h.2)
    · rename_i hup
      rw [if_neg hup, List.append_assoc]
      exact ih (by rw [List.length_append]; exact h)

section Fresh

variable {name : String} (hfresh : ∀ part ∈ parts, String.ofList part ≠ name)

include hfresh

/-- Components lead to no name that they do not spell. -/
theorem notMem_foldl_enter (h : name ∉ names) : name ∉ parts.foldl enter names := by
  induction parts generalizing names with
  | nil => exact h
  | cons part rest ih =>
    rw [List.forall_mem_cons] at hfresh
    refine ih hfresh.2 ?_
    unfold enter
    split
    · exact h
    split
    · exact fun hmem => h (List.dropLast_subset _ hmem)
    · rw [List.mem_append, List.mem_singleton]
      exact fun hmem => hmem.elim h fun heq => hfresh.1 heq.symm

/-- Components that climb above a directory whose name they do not spell leave it. -/
theorem notMem_of_climbs {inside : List String} (hinside : name ∉ inside)
    (h : stays inside.length parts = false) : name ∉ parts.foldl enter (name :: inside) := by
  induction parts generalizing inside with
  | nil => cases h
  | cons part rest ih =>
    rw [List.forall_mem_cons] at hfresh
    rw [List.foldl_cons, enter]
    rw [stays] at h
    split at h
    · rename_i hstay
      rw [if_pos hstay]
      exact ih hfresh.2 hinside h
    rename_i hstay
    rw [if_neg hstay]
    split at h
    · rename_i hup
      rw [if_pos hup]
      cases inside with
      | nil =>
        -- The directory itself is left, and nothing leads back to its name.
        exact notMem_foldl_enter hfresh.2 (by simp)
      | cons first inside =>
        rw [List.dropLast_cons_of_ne_nil (List.cons_ne_nil _ _)]
        refine ih hfresh.2 (fun hmem => hinside (List.dropLast_subset _ hmem)) ?_
        rw [List.length_dropLast]
        simpa using h
    · rename_i hup
      rw [if_neg hup, List.cons_append]
      refine ih hfresh.2 ?_ (by rw [List.length_append]; exact h)
      rw [List.mem_append, List.mem_singleton]
      exact fun hmem => hmem.elim hinside fun heq => hfresh.1 heq.symm

end Fresh

/-- The confined paths are those that lead below every directory that they are appended to. -/
theorem confined_iff (path : String) :
    Confined path ↔ ∀ here root,
      absoluteNames here root <+: absoluteNames here (joinFilePath root path) := by
  constructor
  · rintro ⟨hpath, hstays⟩ here root
    obtain ⟨below, hbelow⟩ : ∃ below, (splitSlashes path.toList).foldl enter
        (absoluteNames here root ++ []) = absoluteNames here root ++ below :=
      exists_inside _ hstays
    rw [List.append_nil] at hbelow
    exact ⟨below, by rw [absoluteNames_join here root hpath, hbelow]⟩
  · intro h
    -- A directory whose name is too long to be spelled by the path.
    let name := String.ofList (List.replicate (path.toList.length + 1) 'x')
    have hname : name.toList = List.replicate (path.toList.length + 1) 'x' := String.toList_ofList
    have hroot : absoluteNames [] ("/" ++ name) = [name] := by
      have hslash : '/' ∉ name.toList := by
        rw [hname]
        exact fun h => absurd (List.eq_of_mem_replicate h) (by decide)
      have hcons : ("/" ++ name).toList = '/' :: name.toList := String.toList_append
      have hword : enter [] name.toList = [name] := by
        rw [enter, hname, List.replicate_succ]
        simp [name, List.replicate_succ]
      have hstart : origin [] ("/" ++ name) = [] := ite_self _
      rw [absoluteNames_eq, hcons, splitSlashes, splitSlashes_of_notMem hslash, hstart]
      exact hword
    have hfresh : ∀ part ∈ splitSlashes path.toList, String.ofList part ≠ name := by
      intro part hpart heq
      have hlong := congrArg (·.toList.length) heq
      simp only [String.toList_ofList, hname, List.length_replicate] at hlong
      have := length_le_of_mem_splitSlashes hpart
      omega
    have hmem : name ∈ absoluteNames [] (joinFilePath ("/" ++ name) path) :=
      (h [] ("/" ++ name)).subset (by rw [hroot]; exact List.mem_singleton_self name)
    have hpath : path.startsWith "/" = false := by
      refine Bool.eq_false_iff.2 fun hslash => ?_
      rw [joinFilePath, if_pos (.inl hslash), absoluteNames_eq] at hmem
      exact notMem_foldl_enter hfresh (by simp [origin]) hmem
    refine ⟨hpath, ?_⟩
    rw [absoluteNames_join [] _ hpath, hroot] at hmem
    cases hstays : stays 0 (splitSlashes path.toList) with
    | true => rfl
    | false => exact absurd hmem (notMem_of_climbs hfresh List.not_mem_nil hstays)

end FileTree

end MotionScript
