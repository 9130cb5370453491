import MotionScript.Host.Memory
import MotionScript.Proofs.Files.Paths
/-!
# References below the asset root

A reference that is looked up as a file is found where its path leads from the asset root. That is
below the root if the path never climbs above it; otherwise it need not be. What was found is noted
once each, in the order of first use.
-/

namespace MotionScript

/-- What becomes of a host that is used in any way, and the references that it resolved, in the order
in which it was asked for them. -/
inductive Host.Asked {η : Type} [Host η] : η → List String → η → Prop where
  | nothing (h : η) : Asked h [] h
  | resolve {h h' : η} {found : List String} (ha : Asked h found h') (reference : String)
    (kind : AssetKind) :
    Asked h (found ++ if (Host.resolve h' reference kind).1.isSome then [reference] else [])
      (Host.resolve h' reference kind).2
  | warn {h h' : η} {found : List String} (ha : Asked h found h') (message : String) :
    Asked h found (Host.warn h' message)
  | persist {h h' : η} {found : List String} (ha : Asked h found h') (object : ObjectRef)
    (name : String) : Asked h found (Host.persist h' object name)

theorem eraseDups_concat (xs : List String) (x : String) :
    (xs ++ [x]).eraseDups = if x ∈ xs then xs.eraseDups else xs.eraseDups ++ [x] := by
  have hlast : [x].removeAll xs = if x ∈ xs then [] else [x] := by
    by_cases h : x ∈ xs <;> simp [List.removeAll, h]
  rw [List.eraseDups_append, hlast]
  split
  · rw [List.eraseDups_nil, List.append_nil]
  · rw [List.eraseDups_cons, List.filter_nil, List.eraseDups_nil]

namespace MemoryHost

/-- The path that is looked up below the asset root for a reference. -/
def soughtPath (reference : String) : String :=
  String.ofList (trimHere (Asset.splitFragment reference).1.toList)

/-- What is noted when a reference has been resolved. -/
def noted (reference : String) : String :=
  if (Asset.guidOf? reference).isSome then reference else (Asset.splitFragment reference).1

variable {host h : MemoryHost} {root reference : String} {kind : AssetKind} {asset : Asset}

/-! ## One lookup -/

theorem depend_dependencies (h : MemoryHost) (text : String) :
    (h.depend text).dependencies =
      if text ∈ h.dependencies then h.dependencies else h.dependencies ++ [text] := by
  unfold depend
  simp only [List.contains_iff_mem]
  split <;> rfl

/-- What is resolved is noted, and nothing else is. -/
theorem resolve_dependencies (h : MemoryHost) (reference : String) (kind : AssetKind) :
    (h.resolve reference kind).2.dependencies =
      if (h.resolve reference kind).1.isSome then (h.depend (noted reference)).dependencies
      else h.dependencies := by
  unfold resolve noted
  split
  · rfl
  · dsimp only
    split <;> rfl

/-- A path is resolved below a root exactly if it leads to a file there. -/
theorem resolve_eq_some (hroot : host.assetRoot = some root)
    (hguid : Asset.guidOf? reference = none) :
    (host.resolve reference kind).1 = some asset ↔
      asset = ⟨reference, kind⟩ ∧ (Asset.splitFragment reference).1 ≠ "" ∧
        host.files.isFile (joinFilePath root (soughtPath reference)) = true := by
  have hfile : assetFile root (Asset.splitFragment reference).1 =
      joinFilePath root (soughtPath reference) := rfl
  simp only [resolve, hguid, hroot, Option.isSome_none, Option.all_some, hfile]
  by_cases hpath : (Asset.splitFragment reference).1 = ""
  · simp [hpath]
  · cases host.files.isFile (joinFilePath root (soughtPath reference)) <;> simp [hpath, eq_comm]

/-- A file that is found by a confined path is below the root, and not the root itself. -/
theorem exists_below (hconfined : FileTree.Confined (soughtPath reference))
    (hfile : host.files.isFile (joinFilePath root (soughtPath reference)) = true) :
    ∃ below, below ≠ [] ∧
      FileTree.absoluteNames host.files.here (joinFilePath root (soughtPath reference)) =
        FileTree.absoluteNames host.files.here root ++ below := by
  obtain ⟨below, hbelow⟩ := (FileTree.confined_iff _).1 hconfined host.files.here root
  refine ⟨below, ?_, hbelow.symm⟩
  rintro rfl
  -- The root is a directory, since the path leads through it.
  have hdirectory := FileTree.directory_of_isFile hconfined.1 hfile
  obtain ⟨-, content, hentry⟩ := FileTree.entry?_of_isFile hfile
  rw [← hbelow, List.append_nil, hdirectory] at hentry
  cases hentry

/-! ## Runs of lookups -/

/-- The dependencies of a run are what was noted for the references that it resolved. -/
theorem dependencies_of_asked {found : List String} (ha : Host.Asked host found h)
    (hnew : host.dependencies = []) : h.dependencies = (found.map noted).eraseDups := by
  induction ha with
  | nothing => exact hnew
  | @resolve h' found _ reference kind ih =>
    -- A lookup adds at most one dependency, which may be there already.
    show (h'.resolve reference kind).2.dependencies = _
    rw [resolve_dependencies]
    show _ = ((found ++ if (h'.resolve reference kind).1.isSome then [reference] else []).map
      noted).eraseDups
    split
    · rw [depend_dependencies, ih, List.map_append, List.map_singleton, eraseDups_concat]
      simp only [List.mem_eraseDups]
    · rw [List.append_nil, ih]
  | warn _ _ ih => exact ih
  | persist _ _ _ ih => exact ih

/-! ## References below the root -/

/-- A reference that is no `guid` is resolved to itself, where there is an asset root, exactly if its
path leads to a file from there. The file is below the root if the path is confined, and these are the
paths that lead below every root. The dependencies of a run of lookups are the paths of the references
that it resolved, or whole references if they are `guid`s, once each and in the order of first use. -/
theorem references_below (host : MemoryHost) :
    (∀ root reference kind, host.assetRoot = some root → Asset.guidOf? reference = none →
      (∀ asset, (host.resolve reference kind).1 = some asset ↔
        asset = ⟨reference, kind⟩ ∧ (Asset.splitFragment reference).1 ≠ "" ∧
          host.files.isFile (joinFilePath root (soughtPath reference)) = true) ∧
      ((host.resolve reference kind).1.isSome = true → FileTree.Confined (soughtPath reference) →
        ∃ below, below ≠ [] ∧
          FileTree.absoluteNames host.files.here (joinFilePath root (soughtPath reference)) =
            FileTree.absoluteNames host.files.here root ++ below)) ∧
    (∀ path, FileTree.Confined path ↔ ∀ here root, FileTree.absoluteNames here root <+:
      FileTree.absoluteNames here (joinFilePath root path)) ∧
    ∀ found h, Host.Asked host found h → host.dependencies = [] →
      h.dependencies = (found.map noted).eraseDups := by
  refine ⟨fun root reference kind hroot hguid => ⟨fun asset => resolve_eq_some hroot hguid, ?_⟩,
    FileTree.confined_iff, fun found h ha hnew => dependencies_of_asked ha hnew⟩
  intro hsome hconfined
  obtain ⟨asset, hasset⟩ := Option.isSome_iff_exists.1 hsome
  exact exists_below hconfined ((resolve_eq_some hroot hguid).1 hasset).2.2

/-- A clip below the asset root and one beside it. -/
def besideRoot : MemoryHost where
  assetRoot := some "assets"
  files := .ofPaths ["project"] [("assets/clips/walk.anim", ""), ("other.anim", "")]

theorem references_below_walk :
    (FileTree.Confined (soughtPath "./clips/../clips/walk.anim#Walk") ∧
      ∃ below, below ≠ [] ∧
        FileTree.absoluteNames besideRoot.files.here
            (joinFilePath "assets" (soughtPath "./clips/../clips/walk.anim#Walk")) =
          FileTree.absoluteNames besideRoot.files.here "assets" ++ below) ∧
    ∃ h, Host.Asked besideRoot ["clips/walk.anim#Walk", "{0a}", "clips/walk.anim"] h ∧
      h.dependencies = ["clips/walk.anim", "{0a}"] := by
  obtain ⟨hlookup, -, hrun⟩ := references_below besideRoot
  obtain ⟨-, hbelow⟩ := hlookup "assets" "./clips/../clips/walk.anim#Walk" .animationClip rfl
    (by decide +kernel)
  have hconfined : FileTree.Confined (soughtPath "./clips/../clips/walk.anim#Walk") := by
    decide +kernel
  refine ⟨⟨hconfined, hbelow (by decide +kernel) hconfined⟩, ?_⟩
  have hasked := ((((Host.Asked.nothing besideRoot).resolve "clips/walk.anim#Walk"
    .animationClip).resolve "clips/run.anim" .animationClip).resolve "{0a}" .object).resolve
      "clips/walk.anim" .object
  refine ⟨_, Eq.mp (congrArg (Host.Asked besideRoot · _) ?_) hasked,
    (hrun _ _ hasked rfl).trans ?_⟩ <;> decide +kernel

/-- A reference that climbs above the asset root is resolved, too. -/
theorem not_references_below :
    ¬∀ (host : MemoryHost) (root reference : String) (kind : AssetKind) (asset : Asset),
      host.assetRoot = some root → Asset.guidOf? reference = none →
      (host.resolve reference kind).1 = some asset →
      FileTree.absoluteNames host.files.here root <+:
        FileTree.absoluteNames host.files.here (joinFilePath root (soughtPath reference)) := by
  intro h
  have hbelow := h besideRoot "assets" "../other.anim" .animationClip
    ⟨"../other.anim", .animationClip⟩ rfl (by decide +kernel) (by decide +kernel)
  exact absurd hbelow (by decide +kernel)

end MemoryHost

end MotionScript
