import AvroBindings.Proofs.Batch
import Mathlib.Data.List.Find
import Mathlib.Data.List.TakeWhile

/-! Batches that end at their first error. They have put out the texts of the documents before it,
each as it is converted alone, and nothing at all if an input is missing. An output file that is
none of the documents holds this text in the end, whether an error came or not. -/

namespace AvroBindings

namespace FileSystem

variable {files made : FileSystem} {options : Options} {path : String} {paths : List String}

/-- The texts of the documents before the first that cannot be converted alone. -/
def textBeforeError (files : FileSystem) (options : Options) (paths : List String) : String :=
  String.join (files.texts options (paths.takeWhile (files.converts options)))

/-- All paths, or else the error of the first document that cannot be converted alone. -/
def firstError (files : FileSystem) (options : Options) (paths : List String) :
    Except Error (List String) :=
  match paths.find? fun path => !files.converts options path with
  | none => .ok paths
  | some path => (files.convert options path).result.map fun _ => paths

theorem converts_eq_false_iff :
    files.converts options path = false ↔ ∃ e, (files.convert options path).result = .error e := by
  unfold converts
  cases (files.convert options path).result <;> simp [Except.isOk, Except.toBool]

theorem goesOnAfter_of_converts (h : files.converts options path) (continueOnError : Bool) :
    files.GoesOnAfter options continueOnError path := by
  intro e he
  rw [converts_eq_false_iff.2 ⟨e, he⟩] at h
  cases h

theorem convertEach_aborts (files : FileSystem) (options : Options) (paths : List String) :
    Report.text (files.convertEach options false paths).emitted =
        files.textBeforeError options paths ∧
      (files.convertEach options false paths).result = files.firstError options paths := by
  unfold textBeforeError firstError
  by_cases h : ∀ path ∈ paths, files.converts options path
  · have hg := convertEach_of_goesOn fun path hm => goesOnAfter_of_converts (h path hm) false
    have hf : paths.find? (fun path => !files.converts options path) = none :=
      List.find?_eq_none.2 fun path hm => by simp [h path hm]
    rw [hg, hf, List.takeWhile_eq_self_iff.2 h, List.filter_eq_self.2 h]
    exact ⟨text_flatMap_reports paths, rfl⟩
  · push Not at h
    obtain ⟨before, path, after, rfl, hp, hb⟩ := Traversal.exists_first h
    have hc : ∀ other ∈ before, files.converts options other := fun other ho => by
      simpa using hb other ho
    have hp : files.converts options path = false := by simpa using hp
    obtain ⟨e, he⟩ := converts_eq_false_iff.1 hp
    have hg : ∀ other ∈ before, files.GoesOnAfter options false other :=
      fun other ho => goesOnAfter_of_converts (hc other ho) false
    have hf : (before ++ path :: after).find? (fun path => !files.converts options path) =
        some path := by
      rw [List.find?_append, List.find?_eq_none.2 fun other ho => by simp [hc other ho]]
      simp [hp]
    have ht : (before ++ path :: after).takeWhile (files.converts options) = before := by
      rw [List.takeWhile_append_of_pos hc, List.takeWhile_cons_of_neg (by simp [hp]),
        List.append_nil]
    rw [convertEach_of_stop hg he (by simp), hf, ht]
    refine ⟨?_, by simp [he, Except.map]⟩
    rw [Report.text_append, text_flatMap_reports, Report.text_events, String.append_empty]

section Congr

variable (h : ∀ path ∈ paths, made.convert options path = files.convert options path)

include h

theorem converts_congr {path : String} (hm : path ∈ paths) :
    made.converts options path = files.converts options path := by
  unfold converts
  rw [h path hm]

theorem takeWhile_converts_congr :
    paths.takeWhile (made.converts options) = paths.takeWhile (files.converts options) := by
  induction paths with
  | nil => rfl
  | cons first rest ih =>
    have hr := ih fun path hm => h path (List.mem_cons_of_mem first hm)
    rw [List.takeWhile_cons, List.takeWhile_cons, converts_congr h List.mem_cons_self, hr]

theorem textBeforeError_congr :
    made.textBeforeError options paths = files.textBeforeError options paths := by
  unfold textBeforeError texts
  rw [takeWhile_converts_congr h]
  refine congrArg String.join (List.filterMap_congr fun path hm => ?_)
  rw [h path (List.takeWhile_subset _ hm)]

theorem firstError_congr : made.firstError options paths = files.firstError options paths := by
  have hf : paths.find? (fun path => !made.converts options path) =
      paths.find? fun path => !files.converts options path :=
    List.find?_congr fun path hm => congrArg not (converts_congr h hm)
  unfold firstError
  rw [hf]
  cases hp : paths.find? fun path => !files.converts options path with
  | none => rfl
  | some path =>
    have hc := h path (List.mem_of_find?_eq_some hp)
    exact congrArg (fun run => run.result.map fun _ => paths) hc

end Congr

theorem convertAll_of_missing (h : ∃ path ∈ paths, files.find? (files.absolute path) = none)
    (options : Options) (continueOnError : Bool) :
    ∃ before first after, paths = before ++ first :: after ∧
      (∀ other ∈ before, (files.find? (files.absolute other)).isSome) ∧
      files.find? (files.absolute first) = none ∧
      files.convertAll options continueOnError paths =
        ⟨[], .error (.inputNotFound (files.absolute first))⟩ := by
  obtain ⟨before, first, after, hp, hs, hf, hc⟩ := collectAll_of_missing h
  refine ⟨before, first, after, hp, hs, hf, ?_⟩
  unfold convertAll
  rw [hc]
  rfl

end FileSystem

namespace CommandLine

open FileSystem

variable {files made : FileSystem} {options : Options} {settings : Settings}

theorem ne_empty_of_makeOutput {output : String} (h : makeOutput files output = .ok made) :
    output ≠ "" := by
  rintro rfl
  cases h

theorem invoke_of_makeOutput (ho : settings.checkedOptions = .ok options)
    (hc : settings.continueOnError = false) (hm : makeOutput files settings.output = .ok made) :
    (invoke files (.convert settings)).status =
        statusOf (made.convertAll options false settings.paths).result ∧
      (invoke files (.convert settings)).stdout = announcement settings ++
        failureText (made.convertAll options false settings.paths).result ∧
      (invoke files (.convert settings)).written = some (settings.output,
        Report.text (made.convertAll options false settings.paths).emitted) := by
  have hn : settings.output.isEmpty = false := by simpa using ne_empty_of_makeOutput hm
  have hr : convert made settings = made.convertAll options false settings.paths := by
    unfold convert
    rw [ho, hc]
    rfl
  unfold invoke convertToFile
  simp [hn, ho, hm, hr, Except.bind]

/-- A batch that ends at its first error puts out nothing if no input is given or one is missing.
Otherwise it puts out the texts of its documents up to the first that cannot be converted alone, and
fails with the error of that one or gives back all of its documents. With a file for its output that
can be made and is none of the documents, these texts are what the file holds in the end. -/
theorem ends_at_first_error (files : FileSystem) (options : Options) (paths : List String) :
    (paths = [] → files.convertAll options false paths = ⟨[], .error .missingInput⟩) ∧
    ((∃ path ∈ paths, files.find? (files.absolute path) = none) →
      ∃ before first after, paths = before ++ first :: after ∧
        (∀ other ∈ before, (files.find? (files.absolute other)).isSome) ∧
        files.find? (files.absolute first) = none ∧
        files.convertAll options false paths =
          ⟨[], .error (.inputNotFound (files.absolute first))⟩) ∧
    (paths ≠ [] → (∀ path ∈ paths, (files.find? (files.absolute path)).isSome) →
      ∃ collected, files.collectAll paths = .ok collected ∧
        Report.text (files.convertAll options false paths).emitted =
          files.textBeforeError options collected ∧
        (files.convertAll options false paths).result = files.firstError options collected) ∧
    ∀ settings made, files.Proper → settings.checkedOptions = .ok options →
      settings.paths = paths → settings.continueOnError = false →
      makeOutput files settings.output = .ok made →
      (paths = [] ∨ (∃ path ∈ paths, made.find? (made.absolute path) = none) →
        (invoke files (.convert settings)).status = .failure ∧
        (invoke files (.convert settings)).written = some (settings.output, "")) ∧
      (paths ≠ [] → (∀ path ∈ paths, (made.find? (made.absolute path)).isSome) →
        ∃ collected, made.collectAll paths = .ok collected ∧
          ((∀ path ∈ collected, files.place path ≠ files.place settings.output) →
            (invoke files (.convert settings)).status =
              statusOf (files.firstError options collected) ∧
            (invoke files (.convert settings)).stdout = announcement settings ++
              failureText (files.firstError options collected) ∧
            (invoke files (.convert settings)).written =
              some (settings.output, files.textBeforeError options collected))) := by
  refine ⟨?_, fun h => convertAll_of_missing h options false, fun hn he => ?_, ?_⟩
  · rintro rfl
    rfl
  · obtain ⟨collected, hc⟩ := exists_collectAll hn he
    rw [convertAll_of_collectAll hc]
    exact ⟨collected, hc, convertEach_aborts files options collected⟩
  · rintro settings made hf ho rfl hc hm
    obtain ⟨hs, hout, hw⟩ := invoke_of_makeOutput ho hc hm
    rw [hs, hout, hw]
    refine ⟨fun h => ?_, fun hn he => ?_⟩
    · obtain h | h := h
      · rw [h]
        exact ⟨rfl, rfl⟩
      · obtain ⟨-, first, -, -, -, -, ha⟩ := convertAll_of_missing h options false
        rw [ha]
        exact ⟨rfl, rfl⟩
    · obtain ⟨collected, hcollected⟩ := exists_collectAll hn he
      refine ⟨collected, hcollected, fun hne => ?_⟩
      have hsame : ∀ path ∈ collected,
          made.convert options path = files.convert options path :=
        fun path hp => convert_of_makeOutput hf hm hcollected hp (hne path hp) options
      obtain ⟨ht, hr⟩ := convertEach_aborts made options collected
      rw [convertAll_of_collectAll hcollected, ht, hr, textBeforeError_congr hsame,
        firstError_congr hsame]
      exact ⟨rfl, rfl, rfl⟩

def unreadableBetween : FileSystem :=
  let enum := FileTree.file
    (String.toUTF8 "\x7b\"type\": \"enum\", \"name\": \"B\", \"symbols\": [\"X\"]\x7d")
  { root := .directory [("a.avsc", enum), ("b.avsc", .file "[".toUTF8), ("c.avsc", enum)]
    workingDirectory := [] }

theorem proper_unreadableBetween : unreadableBetween.Proper := by
  refine ⟨.directory _ (by decide) (by decide +kernel) fun entry hm => ?_, ?_⟩
  · simp only [List.mem_cons, List.not_mem_nil, or_false] at hm
    obtain rfl | rfl | rfl := hm <;> exact .file _
  · simp [unreadableBetween]

theorem ends_at_unreadable :
    (invoke unreadableBetween (.convert
        { paths := ["a.avsc", "b.avsc", "c.avsc"], output := "out.ts" })).status = .failure ∧
      (invoke unreadableBetween (.convert
        { paths := ["a.avsc", "b.avsc", "c.avsc"], output := "out.ts" })).written =
        some ("out.ts", "// Generated from a.avsc\n\nexport enum B \x7b\n  X = 'X',\n\x7d\n") ∧
      unreadableBetween.convertAll {} false ["a.avsc", "d.avsc"] =
        ⟨[], .error (.inputNotFound "/d.avsc")⟩ := by
  let settings : Settings := { paths := ["a.avsc", "b.avsc", "c.avsc"], output := "out.ts" }
  obtain ⟨made, hm, hg⟩ : ∃ made, makeOutput unreadableBetween "out.ts" = .ok made ∧
    made.collectAll settings.paths = .ok ["/a.avsc", "/b.avsc", "/c.avsc"] := ⟨_, rfl, rfl⟩
  have he : ∀ path ∈ settings.paths, (made.find? (made.absolute path)).isSome := by
    cases hm
    decide +kernel
  obtain ⟨-, -, -, hf⟩ := ends_at_first_error unreadableBetween {} settings.paths
  obtain ⟨-, hf⟩ := hf settings made proper_unreadableBetween rfl rfl rfl hm
  obtain ⟨collected, hc, hf⟩ := hf (by decide) he
  cases hg.symm.trans hc
  obtain ⟨hs, -, hw⟩ := hf (by decide +kernel)
  obtain ⟨-, hmissing, -⟩ := ends_at_first_error unreadableBetween {} ["a.avsc", "d.avsc"]
  refine ⟨?_, ?_, ?_⟩
  · rw [hs]
    decide +kernel
  · rw [hw]
    decide +kernel
  · obtain ⟨before, first, after, hp, -, hn, ha⟩ :=
      hmissing ⟨"d.avsc", by simp, Option.isNone_iff_eq_none.1 (by decide +kernel)⟩
    rw [ha]
    obtain _ | ⟨_, _ | _⟩ := before
    · cases hp
      exact absurd (Option.isNone_iff_eq_none.2 hn) (by decide +kernel)
    · cases hp
      have hd : unreadableBetween.absolute "d.avsc" = "/d.avsc" := by decide +kernel
      rw [hd]
    · simp at hp

end CommandLine

end AvroBindings
