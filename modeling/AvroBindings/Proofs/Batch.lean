import AvroBindings.Proofs.Files.Discovery
import AvroBindings.Proofs.Success

/-! Batches that go on after errors. Documents are converted one after another, each on its own. A
document that fails is skipped if its error is one that a batch may go on after, and ends the batch
otherwise, so that the batch returns exactly if no document fails by another error. -/

namespace AvroBindings

theorem Emitting.map_error {ω α β : Type} (emitted : List ω) (e : Error) (f : α → β) :
    (f <$> ⟨emitted, .error e⟩ : Emitting ω β) = ⟨emitted, .error e⟩ := rfl

namespace Report

theorem text_append (left right : List Report) : text (left ++ right) = text left ++ text right := by
  unfold text
  rw [List.map_append, String.join_append]

theorem text_events (events : List Event) : text (events.map .event) = "" := by
  induction events with
  | nil => rfl
  | cons first rest ih => simpa [text, String.join_cons] using ih

end Report

namespace FileSystem

/-- The document does not fail, or fails by an error that a batch may go on after. -/
def Spares (files : FileSystem) (options : Options) (path : String) : Prop :=
  ∀ e, (files.convert options path).result = .error e → e.isSkippable

instance (files : FileSystem) (options : Options) (path : String) :
    Decidable (files.Spares options path) :=
  match h : (files.convert options path).result with
  | .ok _ => .isTrue fun e he => by cases h.symm.trans he
  | .error e => decidable_of_iff (e.isSkippable = true)
      ⟨fun hs e he => by cases h.symm.trans he; exact hs, fun hs => hs e h⟩

def converts (files : FileSystem) (options : Options) (path : String) : Bool :=
  (files.convert options path).result.isOk

def texts (files : FileSystem) (options : Options) (paths : List String) : List String :=
  paths.filterMap fun path => (files.convert options path).result.toOption

/-- What a document puts out in a batch that goes on after it: what its conversion reports, and its
text or that it is skipped. -/
def reports (files : FileSystem) (options : Options) (path : String) : List Report :=
  (files.convert options path).emitted.map .event ++
    match (files.convert options path).result with
    | .ok text => [.output text]
    | .error error => [.event (.skipped path error)]

variable {files : FileSystem} {options : Options} {path : String} {paths : List String}

theorem text_reports :
    Report.text (files.reports options path) = String.join (files.texts options [path]) := by
  unfold reports texts
  rw [Report.text_append, Report.text_events]
  cases hr : (files.convert options path).result <;> simp [hr, Report.text, Except.toOption]

theorem text_flatMap_reports (paths : List String) :
    Report.text (paths.flatMap (files.reports options)) =
      String.join (files.texts options paths) := by
  induction paths with
  | nil => rfl
  | cons first rest ih =>
    have hs : files.texts options (first :: rest) =
        files.texts options [first] ++ files.texts options rest :=
      List.filterMap_append (l := [first])
    rw [List.flatMap_cons, Report.text_append, text_reports, ih, hs, String.join_append]

/-- The batch goes on after the document. -/
def GoesOnAfter (files : FileSystem) (options : Options) (continueOnError : Bool) (path : String) :
    Prop :=
  ∀ e, (files.convert options path).result = .error e → continueOnError ∧ e.isSkippable

section Each

variable {continueOnError : Bool}

theorem convertEach_cons_of_goesOn (h : files.GoesOnAfter options continueOnError path) :
    files.convertEach options continueOnError (path :: paths) =
      ⟨files.reports options path ++ (files.convertEach options continueOnError paths).emitted,
        (files.convertEach options continueOnError paths).result.map
          ([path].filter (files.converts options) ++ ·)⟩ := by
  unfold reports converts
  rw [convertEach]
  -- the rest of the batch may still fail, so that both of its outcomes are told
  cases files.convertEach options continueOnError paths with
  | mk emitted result =>
    cases hr : (files.convert options path).result with
    | ok text =>
      cases result <;>
        simp [hr, Emitting.emitAll, Emitting.emit, Emitting.bind_ok, Emitting.map_ok,
          Emitting.map_error, Except.map, Except.isOk, Except.toBool]
    | error e =>
      obtain ⟨hc, he⟩ := h e hr
      cases result <;>
        simp [hr, hc, he, Emitting.emitAll, Emitting.emit, Emitting.bind_ok, Except.map,
          Except.isOk, Except.toBool]

theorem convertEach_cons_of_stop {e : Error} (hr : (files.convert options path).result = .error e)
    (he : ¬(continueOnError ∧ e.isSkippable)) :
    files.convertEach options continueOnError (path :: paths) =
      ⟨(files.convert options path).emitted.map .event, .error e⟩ := by
  have hb : (continueOnError && e.isSkippable) = false := by simpa using he
  rw [convertEach]
  simp [hr, hb, Emitting.emitAll, Emitting.fail, Emitting.bind_ok]

theorem convertEach_append {before : List String}
    (h : ∀ path ∈ before, files.GoesOnAfter options continueOnError path) (after : List String) :
    files.convertEach options continueOnError (before ++ after) =
      ⟨before.flatMap (files.reports options) ++
          (files.convertEach options continueOnError after).emitted,
        (files.convertEach options continueOnError after).result.map
          (before.filter (files.converts options) ++ ·)⟩ := by
  induction before with
  | nil =>
    rw [List.nil_append]
    cases files.convertEach options continueOnError after with
    | mk emitted result => cases result <;> rfl
  | cons first rest ih =>
    have hf : files.GoesOnAfter options continueOnError first := h first List.mem_cons_self
    have hr := ih fun path hm => h path (List.mem_cons_of_mem first hm)
    rw [List.cons_append, convertEach_cons_of_goesOn hf, hr]
    have hs : (first :: rest).filter (files.converts options) =
        [first].filter (files.converts options) ++ rest.filter (files.converts options) :=
      List.filter_append [first] rest
    cases (files.convertEach options continueOnError after).result <;>
      simp [hs, Except.map, List.flatMap_cons]

theorem convertEach_of_goesOn (h : ∀ path ∈ paths, files.GoesOnAfter options continueOnError path) :
    files.convertEach options continueOnError paths =
      ⟨paths.flatMap (files.reports options), .ok (paths.filter (files.converts options))⟩ := by
  have ha := convertEach_append h []
  rw [List.append_nil] at ha
  rw [ha, convertEach]
  simp [Except.map]

theorem convertEach_of_stop {before after : List String} {e : Error}
    (h : ∀ path ∈ before, files.GoesOnAfter options continueOnError path)
    (hr : (files.convert options path).result = .error e)
    (he : ¬(continueOnError ∧ e.isSkippable)) :
    files.convertEach options continueOnError (before ++ path :: after) =
      ⟨before.flatMap (files.reports options) ++ (files.convert options path).emitted.map .event,
        .error e⟩ := by
  rw [convertEach_append h, convertEach_cons_of_stop hr he]
  rfl

end Each

theorem Spares.goesOnAfter (h : files.Spares options path) :
    files.GoesOnAfter options true path := fun e he => ⟨rfl, h e he⟩

theorem convertEach_of_spares (h : ∀ path ∈ paths, files.Spares options path) :
    files.convertEach options true paths =
      ⟨paths.flatMap (files.reports options), .ok (paths.filter (files.converts options))⟩ :=
  convertEach_of_goesOn fun path hm => (h path hm).goesOnAfter

theorem convertEach_of_fatal {before after : List String} {e : Error}
    (h : ∀ path ∈ before, files.Spares options path)
    (hr : (files.convert options path).result = .error e) (he : ¬e.isSkippable) :
    files.convertEach options true (before ++ path :: after) =
      ⟨before.flatMap (files.reports options) ++ (files.convert options path).emitted.map .event,
        .error e⟩ :=
  convertEach_of_stop (fun path hm => (h path hm).goesOnAfter) hr fun hs => he hs.2

theorem exists_fatal (h : ¬∀ path ∈ paths, files.Spares options path) :
    ∃ before path after e, paths = before ++ path :: after ∧
      (∀ other ∈ before, files.Spares options other) ∧
      (files.convert options path).result = .error e ∧ ¬e.isSkippable := by
  push Not at h
  obtain ⟨before, path, after, he, hp, hb⟩ := Traversal.exists_first h
  unfold Spares at hp
  push Not at hp
  obtain ⟨e, hr, hs⟩ := hp
  exact ⟨before, path, after, e, he, fun other ho => not_not.1 (hb other ho), hr, hs⟩

/-- The batch returns exactly if every document is spared. -/
theorem convertEach_returns_iff :
    (∃ converted, (files.convertEach options true paths).result = .ok converted) ↔
      ∀ path ∈ paths, files.Spares options path := by
  constructor
  · rintro ⟨converted, hr⟩
    by_contra h
    obtain ⟨before, path, after, e, rfl, hb, he, hs⟩ := exists_fatal h
    rw [convertEach_of_fatal hb he hs] at hr
    cases hr
  · intro h
    rw [convertEach_of_spares h]
    exact ⟨_, rfl⟩

theorem exists_collectAll (hn : paths ≠ [])
    (h : ∀ path ∈ paths, (files.find? (files.absolute path)).isSome) :
    ∃ collected, files.collectAll paths = .ok collected := by
  obtain ⟨results, -, hc⟩ := collectAll_of_found hn h
  exact ⟨results.flatten, hc⟩

theorem convertAll_of_collectAll {collected : List String}
    (h : files.collectAll paths = .ok collected) (continueOnError : Bool) :
    files.convertAll options continueOnError paths =
      files.convertEach options continueOnError collected := by
  unfold convertAll
  rw [h]
  rfl

theorem isSkippable_of_generate {document : Schema} (h : document.WellFormed) {e : Error}
    (he : (generate options document).result = .error e) : e.isSkippable := by
  by_cases hu : document.Unambiguous
  · obtain ⟨_, -, -, rfl⟩ | ⟨_, -, rfl⟩ | ⟨-, _, _, -, -, -, rfl⟩ :=
      (Schema.generate_of_defect h hu options).2 e he <;> rfl
  · obtain ⟨name, -, -, hr⟩ := @Schema.generate_of_ambiguous document options h hu
    rw [hr] at he
    cases he
    rfl

theorem spares_of_wellFormed {document : Json} (hl : files.load path = .ok document)
    (h : (Schema.ofJson document).WellFormed) : files.Spares options path := by
  intro e he
  unfold convert at he
  simp only [Emitting.result_bind, Emitting.result_lift, hl, Traversal.ok_bind] at he
  cases hg : (generate options (Schema.ofJson document)).result with
  | ok text =>
    rw [hg] at he
    cases he
  | error fault =>
    rw [hg] at he
    cases he
    exact isSkippable_of_generate h hg

theorem not_spares_of_undecodable {content : ByteArray} {fault : Utf8.Fault}
    (hf : files.find? path = some (.file content))
    (hd : Utf8.decode content.toList = .error fault) : ¬files.Spares options path := by
  intro h
  have hl : files.load path = .error (.invalidEncoding fault) := by
    unfold load
    rw [hf]
    simp only [hd]
    rfl
  have hr : (files.convert options path).result = .error (.invalidEncoding fault) := by
    unfold convert
    rw [Emitting.result_bind, Emitting.result_lift, hl]
    rfl
  cases h _ hr

/-- A batch that goes on after errors collects its documents and returns exactly if each of them is
spared, as all well-formed ones are and none whose bytes are no text. Then it converts those that
can be converted alone, in order, and puts out their texts and nothing else but what is reported.
Otherwise it ends at the first document that is not spared, with its error, and has put out the
texts before it.

Three things are out of reach here: putting out a text never fails, an escape of half a surrogate pair
is read as U+FFFD (`Json.unitChar`), and documents may nest to any depth, for no limit on recursion is
modelled. -/
theorem convertAll_skips (hn : paths ≠ [])
    (he : ∀ path ∈ paths, (files.find? (files.absolute path)).isSome) (options : Options) :
    ∃ collected, files.collectAll paths = .ok collected ∧
      ((∃ converted, (files.convertAll options true paths).result = .ok converted) ↔
        ∀ path ∈ collected, files.Spares options path) ∧
      ((∀ path ∈ collected, files.Spares options path) →
        files.convertAll options true paths =
          ⟨collected.flatMap (files.reports options),
            .ok (collected.filter (files.converts options))⟩ ∧
        Report.text (files.convertAll options true paths).emitted =
          String.join (files.texts options collected)) ∧
      (∀ before path after e, collected = before ++ path :: after →
        (∀ other ∈ before, files.Spares options other) →
        (files.convert options path).result = .error e → ¬e.isSkippable →
        (files.convertAll options true paths).result = .error e ∧
        Report.text (files.convertAll options true paths).emitted =
          String.join (files.texts options before)) ∧
      (∀ path document, files.load path = .ok document →
        (Schema.ofJson document).WellFormed → files.Spares options path) ∧
      ∀ path content fault, files.find? path = some (.file content) →
        Utf8.decode content.toList = .error fault → ¬files.Spares options path := by
  obtain ⟨collected, hc⟩ := exists_collectAll hn he
  rw [convertAll_of_collectAll hc]
  refine ⟨collected, hc, convertEach_returns_iff, fun hs => ?_, ?_,
    fun path document => spares_of_wellFormed,
    fun path content fault => not_spares_of_undecodable⟩
  · rw [convertEach_of_spares hs]
    exact ⟨rfl, text_flatMap_reports collected⟩
  · rintro before path after e rfl hb hr hf
    rw [convertEach_of_fatal hb hr hf]
    refine ⟨rfl, ?_⟩
    rw [Report.text_append, text_flatMap_reports, Report.text_events, String.append_empty]

def besideEnum (first : String) : FileSystem where
  root := .directory [("a.avsc", .file first.toUTF8),
    ("b.avsc", .file (String.toUTF8
      "\x7b\"type\": \"enum\", \"name\": \"B\", \"symbols\": [\"X\"]\x7d"))]
  workingDirectory := []

def unreadable : FileSystem := besideEnum "["

def nameless : FileSystem := besideEnum "\x7b\"type\": \"record\"\x7d"

theorem convertAll_skips_unreadable :
    (∀ path ∈ ["a.avsc", "b.avsc"], (unreadable.find? (unreadable.absolute path)).isSome) ∧
    (unreadable.convertAll {} true ["a.avsc", "b.avsc"]).result = .ok ["/b.avsc"] ∧
    Report.text (unreadable.convertAll {} true ["a.avsc", "b.avsc"]).emitted =
      "// Generated from b.avsc\n\nexport enum B \x7b\n  X = 'X',\n\x7d\n" := by
  have he : ∀ path ∈ ["a.avsc", "b.avsc"],
      (unreadable.find? (unreadable.absolute path)).isSome := by decide +kernel
  have ho : unreadable.collectAll ["a.avsc", "b.avsc"] = .ok ["/a.avsc", "/b.avsc"] := rfl
  obtain ⟨collected, hc, -, hs, -⟩ := convertAll_skips (by decide) he {}
  cases ho.symm.trans hc
  obtain ⟨hr, ht⟩ := hs (by decide +kernel)
  have hb : ["/a.avsc", "/b.avsc"].filter (unreadable.converts {}) = ["/b.avsc"] := by
    decide +kernel
  refine ⟨he, ?_, ?_⟩
  · rw [hr, hb]
  · rw [ht]
    decide +kernel

theorem convertAll_ends_at_nameless :
    nameless.collectAll ["a.avsc", "b.avsc"] = .ok ["/a.avsc", "/b.avsc"] ∧
    nameless.converts {} "/b.avsc" ∧
    (nameless.convertAll {} true ["a.avsc", "b.avsc"]).result =
      .error (.missingAttribute "name") := by
  refine ⟨rfl, by decide +kernel, ?_⟩
  -- errors have no decidable equality
  have he : (match (nameless.convertAll {} true ["a.avsc", "b.avsc"]).result with
    | .error (.missingAttribute key) => key == "name"
    | _ => false) = true := by decide +kernel
  split at he
  · next key hr => rw [hr, eq_of_beq he]
  · cases he

end FileSystem

end AvroBindings
