import MotionScript.Host.Memory
import MotionScript.Proofs.Images.Reading
import MotionScript.Proofs.Token.Places
/-!
# Layers below layers

Documents of whole layers can be written one below the other. When the first one ends, no rule is
open and no transition waits, so what has been read of it is no more than a backdrop for the second
one, which is read behind it as it is read alone.
-/

namespace MotionScript

/-! ## Events further down -/

namespace Event

/-- The event with more text in front and above. -/
def shifted (bytes rows : Nat) (e : Event) : Event :=
  { e with span := e.span.later bytes, position := e.position.down rows }

/-- The indentation of what is written above does not matter below. -/
theorem ofTokensFrom_append {ts us : List Token}
    (h : ∀ t ∈ ts, ∀ u ∈ us, t.position.row < u.position.row) {row : Option Nat}
    (hrow : ∀ r ∈ row, ∀ u ∈ us, r < u.position.row) (indent : Nat) :
    ofTokensFrom row indent (ts ++ us) = ofTokensFrom row indent ts ++ ofTokens us := by
  induction ts generalizing row indent with
  | nil =>
    cases us with
    | nil => rfl
    | cons u us =>
      have hbreak : row.all (· < u.position.row) = true := by
        cases row with
        | none => rfl
        | some r => exact decide_eq_true (hrow r rfl u List.mem_cons_self)
      simp [ofTokens, ofTokensFrom, hbreak]
  | cons t ts ih =>
    simp only [List.cons_append, ofTokensFrom, List.append_assoc]
    rw [ih fun t' ht => h t' (List.mem_cons_of_mem _ ht)]
    rintro _ ⟨⟩
    exact h t List.mem_cons_self

theorem symbolsOf_shifted (cs : List Char) (bytes rows offset : Nat) (p : Position) :
    symbolsOf cs (offset + bytes) (p.down rows) =
      (symbolsOf cs offset p).map (·.shifted bytes rows) := by
  induction cs generalizing offset p with
  | nil => rfl
  | cons c cs ih =>
    have hnext := ih (offset + c.utf8Size) (p.advance 1)
    rw [Nat.add_right_comm] at hnext
    simp only [symbolsOf, List.map_cons, Token.shifted, Span.later,
      Nat.add_right_comm offset] at hnext ⊢
    exact congrArg _ hnext

theorem splitRun_shifted (t : Token) (bytes rows : Nat) :
    splitRun (t.shifted bytes rows) = (splitRun t).map (·.shifted bytes rows) := by
  unfold splitRun
  change (if t.kind == .symbol && decide (1 < t.text.toList.length) then _ else _) = _
  cases t.kind == .symbol && decide (1 < t.text.toList.length) with
  | true => exact symbolsOf_shifted t.text.toList bytes rows t.span.start t.position
  | false => rfl

theorem ofTokensFrom_shifted (ts : List Token) (row : Option Nat) (indent bytes rows : Nat) :
    ofTokensFrom (row.map (· + rows)) indent (ts.map (·.shifted bytes rows)) =
      (ofTokensFrom row indent ts).map (·.shifted bytes rows) := by
  induction ts generalizing row indent with
  | nil => rfl
  | cons t ts ih =>
    have hbreak : (row.map (· + rows)).all (· < (t.shifted bytes rows).position.row) =
        row.all (· < t.position.row) := by
      cases row <;> simp [Token.shifted, Position.down]
    have hrest := ih (some t.position.row) (if row.all (· < t.position.row) then t.position.column
      else indent)
    simp only [List.map_cons, ofTokensFrom, List.map_append, hbreak, splitRun_shifted]
    simp only [List.map_map]
    exact congrArg₂ _ rfl hrest

end Event

/-! ## Hosts that keep everything -/

/-- Whether a host has the record types and files of another one. -/
structure MemoryHost.Serves (h host : MemoryHost) : Prop where
  registry : h.registry = host.registry
  assetRoot : h.assetRoot = host.assetRoot
  files : h.files = host.files

namespace MemoryHost.Serves

variable {h h' host : MemoryHost}

theorem refl (host : MemoryHost) : host.Serves host := ⟨rfl, rfl, rfl⟩

theorem resolve (hs : h.Serves host) (reference : String) (kind : AssetKind) :
    (h.resolve reference kind).1 = (host.resolve reference kind).1 ∧
      (h.resolve reference kind).2.Serves host := by
  have hdepend (reference : String) : (h.depend reference).Serves host := by
    unfold depend
    split
    · exact hs
    · exact ⟨hs.registry, hs.assetRoot, hs.files⟩
  simp only [MemoryHost.resolve, hs.assetRoot, hs.files]
  split
  · exact ⟨rfl, hdepend _⟩
  · split
    · exact ⟨rfl, hs⟩
    · exact ⟨rfl, hdepend _⟩

end MemoryHost.Serves

/-- Hosts that keep everything answer alike whatever they have been handed. -/
def MemoryHost.stage (host : MemoryHost) (b : Backdrop) : Stage MemoryHost MemoryHost :=
  { b with
    Agree := fun h _ h' _ => h.Serves host ∧ h'.Serves host
    resolve := fun hs reference kind =>
      ⟨((hs.1.resolve reference kind).1).trans (hs.2.resolve reference kind).1.symm,
        (hs.1.resolve reference kind).2, (hs.2.resolve reference kind).2⟩
    schema := fun hs name => by
      show Registry.schema? _ name = Registry.schema? _ name
      rw [hs.1.registry, hs.2.registry]
    warn := fun hs _ => ⟨⟨hs.1.registry, hs.1.assetRoot, hs.1.files⟩,
      ⟨hs.2.registry, hs.2.assetRoot, hs.2.files⟩⟩
    persist := fun hs _ _ => ⟨⟨hs.1.registry, hs.1.assetRoot, hs.1.files⟩,
      ⟨hs.2.registry, hs.2.assetRoot, hs.2.files⟩⟩ }

/-! ## The end of layers -/

variable {η : Type} [Host η]

theorem Session.linkSyncs_nil {s : Session η} (h : s.syncs = []) : s.linkSyncs = s := by
  obtain ⟨controller, host, symbols, pending, syncs, usedNames, warnings⟩ := s
  obtain rfl : syncs = [] := h
  rfl

namespace Document

/-- A document that consists of complete layers without `sync` options: nothing is open when it
ends, no parameter has been declared, and no layer follows another one. -/
structure OnlyLayers (source name : String) (host : η) : Prop where
  complete : (run source name host).stack = [.document]
  parameters : (run source name host).session.controller.parameters = []
  syncs : (run source name host).session.syncs = []

instance (stack : List Frame) : Decidable (stack = [.document]) :=
  decidable_of_iff ((match stack with | [.document] => true | _ => false) = true) (by
    split
    · simp
    · rename_i h
      simpa using h)

instance (source name : String) (host : η) : Decidable (OnlyLayers source name host) :=
  decidable_of_iff ((run source name host).stack = [.document] ∧
    (run source name host).session.controller.parameters = [] ∧
    (run source name host).session.syncs = [])
    ⟨fun ⟨complete, parameters, syncs⟩ => ⟨complete, parameters, syncs⟩,
      fun ⟨complete, parameters, syncs⟩ => ⟨complete, parameters, syncs⟩⟩

/-- Nothing is left to be done at the end of such a document. -/
theorem OnlyLayers.finish {source name : String} {host : η} (h : OnlyLayers source name host) :
    (run source name host).finish = (run source name host).session := by
  rw [Grammar.Run.finish, h.complete]
  exact Session.linkSyncs_nil h.syncs

theorem OnlyLayers.read_ok {source name : String} {host host' : η} {doc : Document}
    (hl : OnlyLayers source name host) (h : read source name host = (.ok doc, host')) :
    (run source name host).failure = none ∧
      doc = ⟨(run source name host).session.controller,
        (run source name host).session.warnings⟩ := by
  rw [read_eq, hl.finish] at h
  cases hf : (run source name host).failure with
  | none =>
    rw [hf] at h
    exact ⟨rfl, (Except.ok.inj (congrArg Prod.fst h)).symm⟩
  | some failure =>
    rw [hf] at h
    cases h

/-- The hosts of a reading stay as they were, but for what they have been handed. -/
theorem run_serves (source name : String) (host : MemoryHost) :
    (run source name host).session.host.Serves host := by
  have hhost : (start name host).session.host.Serves host := ⟨rfl, rfl, rfl⟩
  exact (Grammar.feed_alike (Event.ofTokens (Lexer.tokenize .document source).tokens)
    (start_alike (b := host.stage ⟨{ name }, #[], [], id, id, rfl⟩) rfl rfl rfl
      ⟨hhost, hhost⟩)).session.agree.1

end Document

/-- The diagnostic for a text with more in front and above. -/
def Diagnostic.shifted (bytes rows : Nat) (d : Diagnostic) : Diagnostic :=
  { d with
    labels := d.labels.map fun l => ⟨l.span.later bytes, l.message⟩
    position := d.position.map (·.down rows) }

namespace Document

/-- At the end of layers, nothing waits to be linked. -/
theorem OnlyLayers.settled {source name : String} {host : η} (h : OnlyLayers source name host) :
    (run source name host).session.pending = [] ∧
      (run source name host).session.symbols.size =
        (run source name host).session.controller.layers.size := by
  have hroot : (Grammar.document η).Reached .document { controller := { name }, host }
      (start name host).stack (start name host).session _ := .root
  have hmoment := (hroot.feed (Event.ofTokens (Lexer.tokenize .document source).tokens)).moment
  rw [show ((Grammar.document η).feed _ (start name host)).stack = [.document] from h.complete]
    at hmoment
  refine ⟨List.eq_nil_iff_forall_not_mem.2 fun p hp => ?_, hmoment.sound.symbols⟩
  obtain ⟨howner, -⟩ := hmoment.written.accounts.pending p (hmoment.shows.pending ▸ hp)
  cases howner

/-- What has been read of layers, as a backdrop for a text further down. -/
def OnlyLayers.backdrop {source name : String} {host : η} (h : OnlyLayers source name host)
    (bytes rows : Nat) : Backdrop where
  graph := (run source name host).session.controller
  symbols := (run source name host).session.symbols
  warnings := (run source name host).session.warnings
  span := .later bytes
  position := .down rows
  aligned := h.settled.2

/-- Behind layers a reading starts as it starts alone. -/
theorem OnlyLayers.start_alike {source name : String} {host : MemoryHost}
    (h : OnlyLayers source name host) (hr : (run source name host).failure = none)
    (bytes rows : Nat) :
    (start name host).Like (host.stage (h.backdrop bytes rows)) (run source name host) where
  stack := h.complete
  session := by
    refine ⟨?_, ?_, h.settled.1, h.syncs, ?_, ⟨⟨rfl, rfl, rfl⟩, run_serves source name host⟩⟩
    · exact (Controller.followedBy_empty h.parameters name).symm
    · show _ = _ ++ Array.map _ #[]
      rw [Array.map_empty, Array.append_empty]
      rfl
    · show _ = _ ++ List.map _ []
      rw [List.map_nil, List.append_nil]
      rfl
  failure := hr

/-- Layers do not interfere: documents of whole layers that can be read can be read one below the
other. The layers of the first one come first, then those of the second one with all they hold,
whose indices are moved up by what the first one has of each kind, and likewise the warnings, moved
down in the text as far as the tokens are. -/
theorem layers_follow {above below name : String} {host host₁ host₂ : MemoryHost}
    {doc₁ doc₂ : Document} (h₁ : read above name host = (.ok doc₁, host₁))
    (h₂ : read below name host = (.ok doc₂, host₂)) (hl₁ : OnlyLayers above name host)
    (hl₂ : OnlyLayers below name host) :
    ∃ rows doc host', read (above ++ "\n" ++ below) name host = (.ok doc, host') ∧
      OnlyLayers (above ++ "\n" ++ below) name host ∧
      doc.controller = doc₁.controller.followedBy doc₂.controller ∧
      doc.warnings =
        doc₁.warnings ++ doc₂.warnings.map (·.shifted (byteSize above.toList + 1) rows) ∧
      (∀ t ∈ (Lexer.tokenize .document above).tokens, t.position.row < rows) ∧
      (Lexer.tokenize .document (above ++ "\n" ++ below)).tokens =
        (Lexer.tokenize .document above).tokens ++ (Lexer.tokenize .document below).tokens.map
          (·.shifted (byteSize above.toList + 1) rows) := by
  obtain ⟨hr₁, rfl⟩ := hl₁.read_ok h₁
  obtain ⟨hr₂, rfl⟩ := hl₂.read_ok h₂
  have hstream₁ := stream_of_run hr₁
  have hstream₂ := stream_of_run hr₂
  obtain ⟨rows, hrows, htokens, hfailure⟩ := Lexer.tokenize_below hstream₁ below
  have hstream : (Lexer.tokenize .document (above ++ "\n" ++ below)).failure = none := by
    rwa [← Option.isNone_iff_eq_none, hfailure, Option.isNone_iff_eq_none]
  have hevents : Event.ofTokens (Lexer.tokenize .document (above ++ "\n" ++ below)).tokens =
      Event.ofTokens (Lexer.tokenize .document above).tokens ++
        (Event.ofTokens (Lexer.tokenize .document below).tokens).map
          (·.shifted (byteSize above.toList + 1) rows) := by
    rw [htokens, Event.ofTokens, Event.ofTokensFrom_append]
    · exact congrArg₂ _ rfl (Event.ofTokensFrom_shifted _ none 0 _ _)
    · intro t ht u hu
      obtain ⟨u, -, rfl⟩ := List.mem_map.1 hu
      exact Nat.lt_of_lt_of_le (hrows t ht) (Nat.le_add_left _ _)
    · rintro _ ⟨⟩
  have hrun : run (above ++ "\n" ++ below) name host =
      (Grammar.document MemoryHost).feed
        ((Event.ofTokens (Lexer.tokenize .document below).tokens).map
          (·.shifted (byteSize above.toList + 1) rows)) (run above name host) := by
    rw [run_eq_feed hstream, hevents, Grammar.feed_append _ _ rfl, ← run_eq_feed hstream₁, hr₁]
    rfl
  -- The second document is read behind what has been read of the first one.
  have hlike : (run below name host).Like
      (host.stage (hl₁.backdrop (byteSize above.toList + 1) rows))
      (run (above ++ "\n" ++ below) name host) := by
    rw [hrun, run_eq_feed hstream₂]
    exact Grammar.feed_alike _ (hl₁.start_alike hr₁ _ rows)
  have hl : OnlyLayers (above ++ "\n" ++ below) name host := by
    refine ⟨?_, ?_, ?_⟩
    · rw [hlike.stack, hl₂.complete]
      rfl
    · rw [hlike.session.controller]
      exact hl₂.parameters
    · rw [hlike.session.syncs, hl₂.syncs]
      rfl
  have hread := read_eq (above ++ "\n" ++ below) name host
  rw [hl.finish, hlike.failure, hr₂] at hread
  exact ⟨rows, _, _, hread, hl, hlike.session.controller, hlike.session.warnings, hrows, htokens⟩

/-- A layer with nested nodes that share a name, and a transition that leads nowhere. -/
def twin : String :=
  "layer L \x7b state A \x7b clip x; goto B; goto Nowhere; \x7d stateMachine M \x7b " ++
    "state A \x7b goto /B; \x7d \x7d state B \x7b goto M; \x7d \x7d"

theorem layers_follow_twins :
    ∃ (rows : Nat) (doc both : Document) (host' : MemoryHost),
      read (twin ++ "\n" ++ twin) "Hero" {} = (.ok both, host') ∧
      OnlyLayers twin "Hero" ({} : MemoryHost) ∧
      doc.controller.states.size = 3 ∧ doc.warnings.length = 1 ∧
      both.controller = doc.controller.followedBy doc.controller ∧
      both.warnings =
        doc.warnings ++ doc.warnings.map (·.shifted (byteSize twin.toList + 1) rows) := by
  have hlayers : OnlyLayers twin "Hero" ({} : MemoryHost) := by decide +kernel
  have hsizes : ((read twin "Hero" ({} : MemoryHost)).1.toOption.map fun doc =>
      (doc.controller.states.size, doc.warnings.length)) = some (3, 1) := by decide +kernel
  obtain ⟨doc, host', h⟩ := exists_read
    (show (read twin "Hero" ({} : MemoryHost)).1.isOk = true by decide +kernel)
  rw [h] at hsizes
  obtain ⟨rows, both, host'', hread, -, hcontroller, hwarnings, -⟩ :=
    layers_follow h h hlayers hlayers
  exact ⟨rows, doc, both, host'', hread, hlayers, (Prod.ext_iff.1 (Option.some.inj hsizes)).1,
    (Prod.ext_iff.1 (Option.some.inj hsizes)).2, hcontroller, hwarnings⟩

end Document

end MotionScript
