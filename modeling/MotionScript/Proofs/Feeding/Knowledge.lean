import MotionScript.Proofs.Feeding.Basic
import MotionScript.Proofs.Graph.Motions
import MotionScript.Proofs.Reports.FirstError
/-!
# What is known of a host

A text refers to assets and record types that only the host knows. It is read back with every host
that finds these whenever it is asked.
-/

namespace MotionScript

/-- What is known of a host: references that it finds as they are, and record types that it has. -/
structure Knowledge where
  finds : String → AssetKind → Prop
  has : String → Schema → Prop

variable {η : Type} [Host η]

/-- Whether a host answers as it is known to, whatever it is told. -/
def Knowledge.Holds (κ : Knowledge) (host : η) : Prop :=
  ∀ stored h, Host.Told host stored h →
    (∀ reference kind, κ.finds reference kind →
      (Host.resolve h reference kind).1 = some ⟨reference, kind⟩) ∧
    ∀ name schema, κ.has name schema → Host.schema? h name = some schema

namespace Knowledge.Holds

variable {κ : Knowledge} {host h : η}

/-- A host that has been told more still answers as it is known to. -/
theorem told (hk : κ.Holds host) {stored : List (ObjectRef × String)}
    (ht : Host.Told host stored h) : κ.Holds h :=
  fun _ _ ht' => hk _ _ (ht.trans ht')

theorem resolve (hk : κ.Holds host) {reference : String} {kind : AssetKind}
    (hr : κ.finds reference kind) :
    (Host.resolve host reference kind).1 = some ⟨reference, kind⟩ :=
  (hk _ _ (.nothing host)).1 reference kind hr

theorem schema (hk : κ.Holds host) {name : String} {schema : Schema} (hs : κ.has name schema) :
    Host.schema? host name = some schema :=
  (hk _ _ (.nothing host)).2 name schema hs

end Knowledge.Holds

/-! ## What a host answers -/

/-- Whether a host finds a reference as it is, whatever it is told. -/
def Host.Finds (host : η) (reference : String) (kind : AssetKind) : Prop :=
  ∀ stored h, Host.Told host stored h → (Host.resolve h reference kind).1 = some ⟨reference, kind⟩

/-- Whether a host knows a record type, whatever it is told. -/
def Host.Knows (host : η) (name : String) (schema : Schema) : Prop :=
  ∀ stored h, Host.Told host stored h → Host.schema? h name = some schema

/-- All that is known of a host. -/
def Knowledge.of (host : η) : Knowledge := ⟨Host.Finds host, Host.Knows host⟩

theorem Knowledge.of_holds (host : η) : (Knowledge.of host).Holds host :=
  fun stored h ht => ⟨fun _ _ hr => hr stored h ht, fun _ _ hs => hs stored h ht⟩

/-! ## Hosts without asset root -/

/-- What is known of a host without asset root that keeps everything. -/
def Knowledge.rootless (registry : Registry) : Knowledge where
  finds reference _ := Asset.Resolves reference
  has name schema := registry.schema? name = some schema

theorem MemoryHost.rootless {host : MemoryHost} (h : host.assetRoot = none) :
    (Knowledge.rootless host.registry).Holds host := by
  intro stored h' ht
  obtain ⟨hassets, hschemas⟩ := host.answers stored h' ht
  refine ⟨fun reference kind hr => ?_, fun name schema hs => (hschemas name).trans hs⟩
  rw [hassets]
  simp only [MemoryHost.resolve]
  by_cases hg : (Asset.guidOf? reference).isSome = true
  · rw [if_pos hg]
  · have hpath : (Asset.splitFragment reference).1 ≠ "" := hr.resolve_left hg
    rw [if_neg hg, if_neg (by simp [hpath, h])]

theorem MemoryHost.finds {host : MemoryHost} (h : host.assetRoot = none) {reference : String}
    (hr : Asset.Resolves reference) (kind : AssetKind) : Host.Finds host reference kind :=
  fun stored h' ht => (MemoryHost.rootless h stored h' ht).1 reference kind hr

/-! ## Readings -/

/-- A host and the same host, which has been told more than another one. -/
def Host.toldStage (host : η) (name : String) : Stage η η where
  toBackdrop := .still name
  Agree h names h' names' := (∃ stored, Host.Told host stored h) ∧ h' = h ∧ names' = names
  resolve := by
    rintro h _ names _ ⟨⟨stored, ht⟩, rfl, rfl⟩ reference kind
    exact ⟨rfl, ⟨stored, ht.resolve reference kind⟩, rfl, rfl⟩
  schema := by
    rintro h _ names _ ⟨-, rfl, -⟩ name
    rfl
  warn := by
    rintro h _ names _ ⟨⟨stored, ht⟩, rfl, rfl⟩ message
    exact ⟨⟨stored, ht.warn message⟩, rfl, rfl⟩
  persist := by
    rintro h _ names _ ⟨⟨stored, ht⟩, rfl, rfl⟩ object base
    rw [Backdrop.object_nothing rfl]
    exact ⟨⟨_, ht.persist object _⟩, rfl, rfl⟩

variable {e : Event} {es : List Event} {stack stack' : List Frame} {s s' : Session η} {j : Journal}

/-- The host is only told more while the rules handle a token. -/
theorem Takes.told (h : Takes e stack s stack' s' j) : ∃ stored, Host.Told s.host stored s'.host := by
  let b := Host.toldStage s.host s.controller.name
  have hlike : b.Like s s := .self rfl ⟨⟨[], .nothing _⟩, rfl, rfl⟩
  have hdispatch := Grammar.dispatch_alike e Grammar.maxForwards stack hlike
  have hagree := hdispatch.session.agree
  rw [h.dispatch] at hagree
  exact hagree.1

theorem Feeds.holds {κ : Knowledge} (h : Feeds es stack s stack' s' j) (hk : κ.Holds s.host) :
    κ.Holds s'.host := by
  induction h with
  | nil => exact hk
  | cons ht _ ih =>
    obtain ⟨stored, htold⟩ := ht.told
    exact ih (hk.told htold)

end MotionScript
