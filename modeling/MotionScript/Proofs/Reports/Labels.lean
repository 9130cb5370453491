import MotionScript.Host.Memory
import MotionScript.Proofs.Images.Reading
import MotionScript.Proofs.Reports.Turns
import MotionScript.Proofs.Shape.Failures
import MotionScript.Proofs.Token.Layout
/-!
# Labels

Errors and warnings point into the document. Labels are at tokens, at single symbols of a run, or at
the text in which a fault was found; rules remember spans of tokens only, so that a diagnostic that
comes late does so, too.
-/

namespace MotionScript

/-! ## Spans of a text -/

/-- Whether a span selects characters of a text: it is not empty, lies within the text, and parts no
character. -/
structure Span.Selects (s : Span) (text : String) : Prop where
  nonempty : s.start < s.stop
  start : (⟨s.start⟩ : String.Pos.Raw).IsValid text
  stop : (⟨s.stop⟩ : String.Pos.Raw).IsValid text

theorem byteSize_eq (cs : List Char) : byteSize cs = (String.ofList cs).utf8ByteSize := by
  induction cs with
  | nil => rfl
  | cons c cs ih =>
    rw [String.ofList_cons, String.utf8ByteSize_append, String.utf8ByteSize_singleton, ← ih]
    rfl

/-- The front of a text ends between two characters. -/
theorem byteSize_isValid {front rest : List Char} {text : String}
    (h : text.toList = front ++ rest) : (⟨byteSize front⟩ : String.Pos.Raw).IsValid text := by
  rw [String.Pos.Raw.isValid_iff_exists_append]
  refine ⟨String.ofList front, String.ofList rest, ?_, ?_⟩
  · rw [← String.ofList_append, ← h, String.ofList_toList]
  · rw [byteSize_eq]
    rfl

theorem Span.Holds.selects {s : Span} {read : List Char} {text : String}
    (h : s.Holds read text.toList) (hread : read ≠ []) : s.Selects text := by
  obtain ⟨before, after, hsource, rfl⟩ := h
  have hfront : text.toList = before ++ (read ++ after) := by rw [hsource, List.append_assoc]
  refine ⟨?_, byteSize_isValid hfront, byteSize_isValid hsource⟩
  have hpos := byteSize_pos hread
  simp only [byteSize_append]
  omega

/-! ## Events -/

namespace Event

/-- A single symbol of a run is a character of the text. -/
theorem symbolsOf_holds {cs : List Char} {before after : List Char} {p : Position} {t : Token}
    (h : t ∈ symbolsOf cs (byteSize before) p) :
    ∃ c, t.span.Holds [c] (before ++ cs ++ after) := by
  induction cs generalizing before p with
  | nil => cases h
  | cons c cs ih =>
    have hsize : byteSize before + c.utf8Size = byteSize (before ++ [c]) := by
      rw [byteSize_append]
      rfl
    rcases List.mem_cons.1 h with rfl | h
    · exact ⟨c, before, cs ++ after, by simp, by rw [← hsize]⟩
    · rw [hsize] at h
      simpa using ih h

theorem mem_ofTokensFrom {row : Option Nat} {indent : Nat} {ts : List Token} {e : Event}
    (h : e ∈ ofTokensFrom row indent ts) : ∃ t ∈ ts, e.toToken ∈ splitRun t := by
  induction ts generalizing row indent with
  | nil => cases h
  | cons t ts ih =>
    rcases List.mem_append.1 h with h | h
    · obtain ⟨u, hu, rfl⟩ := List.mem_map.1 h
      exact ⟨t, List.mem_cons_self, hu⟩
    · obtain ⟨u, hu, he⟩ := ih h
      exact ⟨u, List.mem_cons_of_mem _ hu, he⟩

/-- Every event of a text selects characters of it. -/
theorem selects {symbols : SymbolSet} {text : String} {e : Event}
    (h : e ∈ ofTokens (Lexer.tokenize symbols text).tokens) : e.span.Selects text := by
  obtain ⟨t, ht, he⟩ := mem_ofTokensFrom h
  obtain ⟨read, hread, hholds, htext⟩ := (Lexer.tokenize_laid symbols text).holds t ht
  unfold splitRun at he
  split at he
  · rename_i hrun
    have hkind : t.kind = .symbol := by simpa using (Bool.and_eq_true_iff.1 hrun).1
    obtain ⟨before, after, hsource, hspan⟩ := hholds
    rw [htext (.inr hkind), hspan] at he
    obtain ⟨c, hc⟩ : ∃ c, e.span.Holds [c] (before ++ read ++ after) := symbolsOf_holds he
    rw [← hsource] at hc
    exact hc.selects (List.cons_ne_nil c [])
  · rw [List.mem_singleton.1 he]
    exact hholds.selects hread

end Event

/-! ## Failures -/

theorem Diagnostic.At.points {d : Diagnostic} {e : Event} {P : Span → Prop} (h : d.At e)
    (he : P e.span) (p : Position) : (Failure.located d p).diagnostic.Points P := by
  obtain ⟨⟨code, hcode, -⟩, ⟨message, hlabel⟩, -, -⟩ := h
  exact ⟨Option.isSome_iff_exists.2 ⟨code, hcode⟩, rfl, ⟨e.span, message⟩, hlabel, he⟩

/-- The fault of the lexer selects what was read of its token. -/
theorem Lexer.failure_points {symbols : SymbolSet} {text : String} {failure : Failure}
    (h : failure ∈ (Lexer.tokenize symbols text).failure) :
    failure.diagnostic.Points (·.Selects text) := by
  obtain ⟨stuck, start, q, read, -, hread, rfl, hholds, -⟩ :=
    (Lexer.tokenize_laid symbols text).faulty h
  exact ⟨rfl, rfl, _, stuck.failure_labels start q hread, hholds.selects hread⟩

/-! ## Readings -/

/-- What holds between the turns of rules: the stack has its shape, the rules on it remember spans
of which `P` holds, and the books are right. -/
structure Reporting {η : Type} [Host η] (P : Span → Prop) (host : η) (stack : List Frame)
    (s : Session η) : Prop where
  shaped : Shaped stack
  marks : ∀ f ∈ stack, f.Marks P
  books : s.books.Right P host s.controller

variable {η : Type} [Host η] {P : Span → Prop} {host : η}

namespace Grammar

/-- Whatever a token leads to is reported where the token is. -/
theorem dispatch_reporting {e : Event} (he : P e.span) (fuel : Nat) {stack : List Frame}
    {s : Session η} (h : Reporting P host stack s) :
    Reporting P host ((document η).dispatch e fuel stack s).subject
        ((document η).dispatch e fuel stack s).session ∧
      ∀ d, ((document η).dispatch e fuel stack s).result = .error d →
        (Failure.located d e.position).diagnostic.Points P := by
  induction fuel generalizing stack s with
  | zero =>
    refine ⟨h, ?_⟩
    rintro _ ⟨⟩
    exact ⟨rfl, rfl, _, rfl, he⟩
  | succ fuel ih =>
    cases stack with
    | nil => exact absurd h.shaped.bottom (by simp)
    | cons top parents =>
      have htop := h.marks top List.mem_cons_self
      have hparents := fun f hf => h.marks f (List.mem_cons_of_mem top hf)
      have htoken : (document η).onToken e top s = top.onToken e s := rfl
      simp only [dispatch, htoken, Frame.onToken]
      cases hr : top.react e s with
      | error d =>
        refine ⟨h, ?_⟩
        rintro _ ⟨⟩
        exact (h.shaped.failsAt e s d hr).points he _
      | ok step =>
        obtain ⟨f, s', control⟩ := step
        have hturn := h.shaped.turn hr
        obtain ⟨hbooks, hf⟩ := Frame.react_right h.books he htop hr
        have hmarks : ∀ g ∈ f :: parents, g.Marks P := List.forall_mem_cons.2 ⟨hf, hparents⟩
        rcases control with _ | ⟨rule, forward⟩ | ⟨forward⟩
        · exact ⟨⟨hturn, hmarks, hbooks⟩, by rintro _ ⟨⟩⟩
        · obtain ⟨g, hg, -, hattached⟩ := (h.shaped.attach hr).1 s'
          have hpush : (document η).push rule (f :: parents) s' =
              ⟨g :: f :: parents, s', .ok ()⟩ := by
            simp only [push, document, List.head?_cons, Option.bind_some, hg]
          have hgm : g.Marks P := by
            have := (Frame.react_turn hr).asks.marks (P := P) f.context s'
            rwa [hg] at this
          have hmoment : Reporting P host (g :: f :: parents) s' :=
            ⟨hattached, List.forall_mem_cons.2 ⟨hgm, hmarks⟩, hbooks⟩
          simp only [hpush]
          cases forward with
          | false => exact ⟨hmoment, by rintro _ ⟨⟩⟩
          | true => exact ih hmoment
        · obtain ⟨parent, rest, rfl, -⟩ := h.shaped.detach hr
          have hmoment : Reporting P host (parent :: rest) (f.close s') :=
            ⟨hturn.tail.resolve_left (by simp), hparents, Frame.close_right hbooks hf⟩
          simp only [List.isEmpty_cons, Bool.false_eq_true, if_false]
          cases forward with
          | false => exact ⟨hmoment, by rintro _ ⟨⟩⟩
          | true => exact ih hmoment

/-- The same for all tokens up to the first that fails. -/
theorem feed_reporting {es : List Event} (hes : ∀ e ∈ es, P e.span) {r : Run Frame (Session η)}
    (h : Reporting P host r.stack r.session)
    (hf : ∀ failure ∈ r.failure, failure.diagnostic.Points P) :
    Reporting P host ((document η).feed es r).stack ((document η).feed es r).session ∧
      ∀ failure ∈ ((document η).feed es r).failure, failure.diagnostic.Points P := by
  induction es generalizing r with
  | nil => exact ⟨h, hf⟩
  | cons e es ih =>
    obtain ⟨hmoment, hfailure⟩ :=
      dispatch_reporting (hes e List.mem_cons_self) maxForwards h
    simp only [feed]
    cases hr : ((document η).dispatch e maxForwards r.stack r.session).result with
    | ok _ =>
      exact ih (fun e he => hes e (List.mem_cons_of_mem _ he)) hmoment (by rintro failure ⟨⟩)
    | error d =>
      refine ⟨hmoment, ?_⟩
      rintro _ ⟨⟩
      exact hfailure d hr

theorem Run.finish_right {r : Run Frame (Session η)} (h : Reporting P host r.stack r.session) :
    r.finish.books.Right P host r.finish.controller := by
  have all (stack : List Frame) (hm : ∀ f ∈ stack, f.Marks P) {s : Session η}
      (h : s.books.Right P host s.controller) :
      (stack.foldl (fun s f => f.close s) s).books.Right P host
        (stack.foldl (fun s f => f.close s) s).controller := by
    induction stack generalizing s with
    | nil => exact h
    | cons f stack ih =>
      exact ih (fun g hg => hm g (List.mem_cons_of_mem _ hg))
        (Frame.close_right h (hm f List.mem_cons_self))
  exact all r.stack h.marks h.books

end Grammar

namespace Document

theorem start_reporting (name : String) (host : η) :
    Reporting P host (start name host).stack (start name host).session := by
  refine ⟨.document, by simp [start, Frame.Marks], ?_, ?_, ?_, List.nodup_singleton _,
    [(.controller, _)], (Host.Told.nothing host).persist .controller _, rfl, fun object => ?_⟩
  · rintro p ⟨⟩
  · rintro sync ⟨⟩
  · rintro d ⟨⟩
  · cases object <;> simp [start, Frame.onAttach, Session.persist, Controller.stores]

/-- At the end of every run, what has been reported is about the text and about the graph. -/
theorem run_reporting (source name : String) (host : η) :
    Reporting (·.Selects source) host (run source name host).stack (run source name host).session ∧
      ∀ failure ∈ (run source name host).failure,
        failure.diagnostic.Points (·.Selects source) := by
  have hevents : ∀ e ∈ Event.ofTokens (Lexer.tokenize .document source).tokens,
      e.span.Selects source := fun e => Event.selects
  obtain ⟨hmoment, hfailure⟩ := Grammar.feed_reporting (P := (·.Selects source)) hevents
    (start_reporting name host) (by rintro failure ⟨⟩)
  refine ⟨hmoment, fun failure hf => ?_⟩
  simp only [run_eq, Option.orElse_eq_orElse, Option.orElse_eq_or, Option.mem_def,
    Option.or_eq_some_iff] at hf
  rcases hf with hf | ⟨-, hf⟩
  · exact hfailure failure hf
  · exact Lexer.failure_points hf

/-- The diagnostics of a reading: its failure, or the warnings of the document. -/
def reported : Except Failure Document → List Diagnostic
  | .ok doc => doc.warnings
  | .error failure => [failure.diagnostic]

/-- Every diagnostic points into the document: it has a code, a position and one label, whose span
is not empty, lies within the text and parts no character. -/
theorem reported_points (source name : String) (host : η) :
    ∀ d ∈ reported (read source name host).1, d.Points (·.Selects source) := by
  obtain ⟨hmoment, hfailure⟩ := run_reporting source name host
  intro d hd
  rw [read_eq] at hd
  cases hf : (run source name host).failure with
  | none =>
    simp only [hf] at hd
    exact (Grammar.Run.finish_right hmoment).warnings d hd
  | some failure =>
    simp only [hf] at hd
    rw [List.mem_singleton.1 hd]
    exact hfailure failure hf

/-- The destination is missed only at the end of the layer, long after the statement. -/
def dropping : String := "layer L \x7b state Ä \x7b goto Ö; \x7d state B \x7b \x7d \x7d"

theorem reported_points_dropping :
    ∃ d, d ∈ reported (read dropping "Hero" ({} : MemoryHost)).1 ∧
      d.Points (·.Selects dropping) := by
  have hlength : (reported (read dropping "Hero" ({} : MemoryHost)).1).length = 1 := by
    decide +kernel
  obtain ⟨d, hd⟩ := List.exists_mem_of_length_pos (hlength ▸ Nat.zero_lt_one)
  exact ⟨d, hd, reported_points dropping "Hero" ({} : MemoryHost) d hd⟩

end Document

end MotionScript
