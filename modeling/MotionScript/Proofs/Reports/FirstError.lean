import MotionScript.Proofs.Images.Layers
import MotionScript.Proofs.Reports.Names
import MotionScript.Proofs.Token.Faults
/-!
# The first error

What follows an error is not looked at. A text that cannot be read fails with the same error when it
goes on, and the host hears the same of it, unless more text could mend the error: a string or an
escape that is not closed.
-/

namespace MotionScript

open Text

/-! ## Hosts -/

variable {η θ : Type} [Host η] [Host θ]

/-- Whether a host answers by reference alone: whatever it has been told, it finds the assets of one
table and the record types of another one. -/
def Host.Answers (host : η) (assets : String → AssetKind → Option Asset)
    (schemas : String → Option Schema) : Prop :=
  ∀ stored h, Host.Told host stored h →
    (∀ reference kind, (Host.resolve h reference kind).1 = assets reference kind) ∧
      ∀ name, Host.schema? h name = schemas name

theorem Host.Told.trans {h h' h'' : η} {stored stored' : List (ObjectRef × String)}
    (ht : Host.Told h stored h') (ht' : Host.Told h' stored' h'') :
    Host.Told h (stored ++ stored') h'' := by
  induction ht' with
  | nothing => rwa [List.append_nil]
  | resolve _ reference kind ih => exact ih.resolve reference kind
  | warn _ message ih => exact ih.warn message
  | persist _ object name ih =>
    rw [← List.append_assoc]
    exact ih.persist object name

/-- A host that answers by reference alone still does when it has been told more. -/
theorem Host.Answers.told {host h : η} {assets : String → AssetKind → Option Asset}
    {schemas : String → Option Schema} {stored : List (ObjectRef × String)}
    (ha : Host.Answers host assets schemas) (ht : Host.Told host stored h) :
    Host.Answers h assets schemas :=
  fun _ _ ht' => ha _ _ (ht.trans ht')

/-- Hosts that keep everything answer by reference alone. -/
theorem MemoryHost.answers (host : MemoryHost) :
    Host.Answers host (fun reference kind => (host.resolve reference kind).1)
      host.registry.schema? := by
  intro stored h ht
  have hserves : h.Serves host := by
    induction ht with
    | nothing => exact .refl host
    | resolve _ reference kind ih => exact (ih.resolve reference kind).2
    | warn _ message ih => exact ⟨ih.registry, ih.assetRoot, ih.files⟩
    | persist _ object name ih => exact ⟨ih.registry, ih.assetRoot, ih.files⟩
  refine ⟨fun reference kind => (hserves.resolve reference kind).1, fun name => ?_⟩
  show h.registry.schema? name = _
  rw [hserves.registry]

/-- What a host hears of a reading. -/
inductive Notice where
  | stored (object : ObjectRef) (name : String)
  | warned (message : String)
deriving DecidableEq, Repr

/-- A host that notes what it hears, and otherwise leaves everything to another host. -/
structure Listener (η : Type) where
  host : η
  heard : List Notice := []

namespace Listener

instance : Host (Listener η) where
  resolve j reference kind :=
    let (asset, host) := Host.resolve j.host reference kind
    (asset, { j with host })
  persist j object name := ⟨Host.persist j.host object name, j.heard ++ [.stored object name]⟩
  schema? j name := Host.schema? j.host name
  warn j message := ⟨Host.warn j.host message, j.heard ++ [.warned message]⟩

/-- A host, and the same host with a listener. -/
def stage (η : Type) [Host η] (name : String) : Stage η (Listener η) where
  toBackdrop := .still name
  Agree host names j names' := j.host = host ∧ names' = names
  resolve := by
    rintro _ j names _ ⟨rfl, rfl⟩ reference kind
    exact ⟨rfl, rfl, rfl⟩
  schema := by
    rintro _ j names _ ⟨rfl, rfl⟩ name
    rfl
  warn := by
    rintro _ j names _ ⟨rfl, rfl⟩ message
    exact ⟨rfl, rfl⟩
  persist := by
    rintro _ j names _ ⟨rfl, rfl⟩ object base
    rw [Backdrop.object_nothing rfl]
    exact ⟨rfl, rfl⟩

/-- Two listening hosts that answer alike. -/
def pair (η θ : Type) [Host η] [Host θ] (name : String)
    (assets : String → AssetKind → Option Asset) (schemas : String → Option Schema) :
    Stage (Listener η) (Listener θ) where
  toBackdrop := .still name
  Agree j names j' names' := Host.Answers j.host assets schemas ∧
    Host.Answers j'.host assets schemas ∧ j'.heard = j.heard ∧ names' = names
  resolve := by
    rintro j j' names _ ⟨h, h', hheard, rfl⟩ reference kind
    have hj := (h _ _ (.nothing _)).1 reference kind
    have hj' := (h' _ _ (.nothing _)).1 reference kind
    exact ⟨hj.trans hj'.symm, h.told ((Host.Told.nothing _).resolve reference kind),
      h'.told ((Host.Told.nothing _).resolve reference kind), hheard, rfl⟩
  schema := by
    rintro j j' names _ ⟨h, h', hheard, rfl⟩ name
    exact ((h _ _ (.nothing _)).2 name).trans ((h' _ _ (.nothing _)).2 name).symm
  warn := by
    rintro j j' names _ ⟨h, h', hheard, rfl⟩ message
    exact ⟨h.told ((Host.Told.nothing _).warn message),
      h'.told ((Host.Told.nothing _).warn message),
      congrArg (· ++ [Notice.warned message]) hheard, rfl⟩
  persist := by
    rintro j j' names _ ⟨h, h', hheard, rfl⟩ object base
    rw [Backdrop.object_nothing rfl]
    exact ⟨h.told ((Host.Told.nothing _).persist object _),
      h'.told ((Host.Told.nothing _).persist object _),
      congrArg (· ++ [Notice.stored object _]) hheard, rfl⟩

end Listener

namespace Document

/-- A listener changes nothing about a reading. -/
theorem read_listener (source name : String) (host : η) :
    (read source name (⟨host, []⟩ : Listener η)).1 = (read source name host).1 ∧
      (read source name (⟨host, []⟩ : Listener η)).2.host = (read source name host).2 := by
  obtain ⟨hresult, hhost, -⟩ := read_alike (Listener.stage η name) rfl
    (show (⟨host, []⟩ : Listener η).host = host ∧ [] = [] from ⟨rfl, rfl⟩) source
  exact ⟨hresult, hhost⟩

/-- What a reading tells its host, in order: the objects that it stores, with their names, and the
warnings that it shows. -/
def heard (source name : String) (host : η) : List Notice :=
  (read source name (⟨host, []⟩ : Listener η)).2.heard

/-- Hosts that answer alike hear the same of a document, and it is read to the same result. -/
theorem read_answers {host : η} {host' : θ} {assets : String → AssetKind → Option Asset}
    {schemas : String → Option Schema} (h : Host.Answers host assets schemas)
    (h' : Host.Answers host' assets schemas) (source name : String) :
    (read source name host').1 = (read source name host).1 ∧
      heard source name host' = heard source name host := by
  have hagree : (Listener.pair η θ name assets schemas).Agree ⟨host, []⟩ [] ⟨host', []⟩ [] :=
    ⟨h, h', rfl, rfl⟩
  obtain ⟨hresult, -, -, hheard, -⟩ := read_alike _ rfl hagree source
  exact ⟨by rw [← (read_listener source name host').1, hresult, (read_listener source name host).1],
    hheard⟩

/-! ## Errors -/

/-- What follows an error changes nothing about the reading. -/
theorem read_append {text gap more name : String} {host : η} {f : Failure}
    (hf : (read text name host).1 = .error f) (hs : f.code ≠ some .unterminatedString)
    (he : f.code ≠ some .unterminatedEscape) (hne : gap ≠ "")
    (hgap : ∀ c ∈ gap.toList, isSeparator c = true) :
    read (text ++ gap ++ more) name host = read text name host := by
  obtain ⟨htokens, hfaulty⟩ := Lexer.tokenize_append hne hgap text more
  have hfailure : (run text name host).failure = some f := by
    rw [read_eq] at hf
    split at hf
    · rename_i failure hfailure
      rw [hfailure, Except.error.inj hf]
    · cases hf
  suffices hrun : run (text ++ gap ++ more) name host = run text name host by
    rw [read_eq, read_eq, hrun]
  simp only [run_eq] at hfailure ⊢
  cases hfeed : ((Grammar.document η).feed
      (Event.ofTokens (Lexer.tokenize .document text).tokens) (start name host)).failure with
  | none =>
    -- The rules accept all tokens, so the error is the fault behind them.
    rw [hfeed] at hfailure
    rw [hfaulty f hfailure hs he, hfeed]
  | some failure =>
    obtain ⟨events, hevents⟩ := Event.ofTokensFrom_prefix htokens none 0
    have hall : (Grammar.document η).feed
        (Event.ofTokens (Lexer.tokenize .document (text ++ gap ++ more)).tokens)
          (start name host) =
        (Grammar.document η).feed (Event.ofTokens (Lexer.tokenize .document text).tokens)
          (start name host) := by
      rw [Event.ofTokens, ← hevents, Grammar.feed_append _ _ rfl]
      rw [Event.ofTokens] at hfeed
      exact if_neg (by simp [hfeed])
    rw [hall, hfeed]
    rfl

/-- The first error is final. A text that fails with an error that more text cannot mend fails with
the same error when it goes on behind a separator, and it has told its host the same until then. The
second reading may have another host, if both answer by reference alone. -/
theorem first_error_final {host : η} {host' : θ} {assets : String → AssetKind → Option Asset}
    {schemas : String → Option Schema} (h : Host.Answers host assets schemas)
    (h' : Host.Answers host' assets schemas) {text gap name : String} {f : Failure}
    (hf : (read text name host).1 = .error f) (hs : f.code ≠ some .unterminatedString)
    (he : f.code ≠ some .unterminatedEscape) (hne : gap ≠ "")
    (hgap : ∀ c ∈ gap.toList, isSeparator c = true) (more : String) :
    (read (text ++ gap ++ more) name host').1 = .error f ∧
      heard (text ++ gap ++ more) name host' = heard text name host ∧
      ∀ source, (read source name (⟨host', []⟩ : Listener θ)).1 = (read source name host').1 ∧
        (read source name (⟨host', []⟩ : Listener θ)).2.host = (read source name host').2 := by
  obtain ⟨hresult, hheard⟩ := read_answers h h' text name
  rw [hf] at hresult
  refine ⟨?_, ?_, fun source => read_listener source name host'⟩
  · rw [read_append hresult hs he hne hgap, hresult]
  · have hlistener := (read_listener text name host').1.trans hresult
    rw [heard, read_append hlistener hs he hne hgap]
    exact hheard

/-- A comma where nothing is listed, behind a state that has been stored. -/
def misplaced : String := "layer B \x7b state A \x7b \x7d ,"

/-- A string that is not closed further on changes nothing. -/
theorem first_error_final_misplaced :
    ∃ f, f.code = some .unexpectedToken ∧
      (read misplaced "Hero" ({} : MemoryHost)).1 = .error f ∧
      (read (misplaced ++ " " ++ "\"") "Hero" ({} : MemoryHost)).1 = .error f ∧
      heard (misplaced ++ " " ++ "\"") "Hero" ({} : MemoryHost) =
        [.stored .controller "Hero", .stored (.machine ⟨0⟩) "B", .stored (.state ⟨0⟩) "B/A"] := by
  have hheard : heard misplaced "Hero" ({} : MemoryHost) =
      [.stored .controller "Hero", .stored (.machine ⟨0⟩) "B", .stored (.state ⟨0⟩) "B/A"] := by
    decide +kernel
  have hcode : (match (read misplaced "Hero" ({} : MemoryHost)).1 with
      | .error f => f.code
      | .ok _ => none) = some .unexpectedToken := by decide +kernel
  cases hread : (read misplaced "Hero" ({} : MemoryHost)).1 with
  | ok doc =>
    rw [hread] at hcode
    cases hcode
  | error f =>
    rw [hread] at hcode
    dsimp only at hcode
    have h := MemoryHost.answers ({} : MemoryHost)
    have hgap : ∀ c ∈ " ".toList, isSeparator c = true := by
      intro c hc
      obtain rfl : c = ' ' := by simpa using hc
      rfl
    obtain ⟨hsame, htold, -⟩ := first_error_final h h hread (by rw [hcode]; decide)
      (by rw [hcode]; decide) (show " " ≠ "" by decide) hgap "\""
    exact ⟨f, hcode, rfl, hsame, htold.trans hheard⟩

end Document

end MotionScript
