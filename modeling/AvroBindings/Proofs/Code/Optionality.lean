import AvroBindings.Proofs.Code.Listings
import AvroBindings.Proofs.Code.NullTests

/-! Fields that may be missing, because null comes first in their types. Their properties are marked
in the interface and in the class, and in both methods their entries begin with a test for null that
holds of undefined too. -/

namespace AvroBindings

open Layout

variable {s : Spelling}

def Listing.entries (direction : Direction) (text : String) : List (List String) :=
  let inside := below 4 direction.construction (lines text.toList)
  (sections (fun line => (readAt 6 labelled? line).isSome) inside).map fun entry =>
    entry.map fun line => String.ofList (outdent 6 line)

theorem ClassDeclaration.entries_render {own : ClassDeclaration} (h : own.Worded s)
    (hd : ∀ direction, (own.method direction).direction = direction) (direction : Direction) :
    Listing.entries direction own.render = (own.method direction).assignments.map fun assignment =>
      (lines assignment.text.toList).map String.ofList := by
  have hs : sections (fun line => (readAt 6 labelled? line).isSome)
      ((own.method direction).assignments.flatMap fun assignment =>
        (lines assignment.text.toList).map (indentLine 6)) =
      (own.method direction).assignments.map fun assignment =>
        (lines assignment.text.toList).map (indentLine 6) := by
    refine sections_flatMap fun assignment hm => ?_
    obtain ⟨first, rest, hl, hf, hr⟩ :=
      Assignment.readAt_lines ((h.method direction).assignments assignment hm)
    refine ⟨indentLine 6 first, rest.map (indentLine 6), by rw [hl, List.map_cons], ?_,
      List.forall_mem_map.2 fun line hm => ?_⟩
    · rw [hf]
      rfl
    · rw [hr line hm]
      rfl
  rw [Listing.entries, below_method h hd, Method.entryLines, List.map_flatMap, hs, List.map_map]
  refine List.map_congr_left fun assignment _ => ?_
  rw [Function.comp_apply, List.map_map]
  refine List.map_congr_left fun line _ => ?_
  rw [Function.comp_apply, outdent_indentLine]

namespace Branch

theorem conditional_cons (branch : String × String) (branches : List (String × String)) :
    ∃ others, conditional (branch :: branches) = clause branch ++ others := by
  rw [conditional_eq, List.map_cons]
  cases branches with
  | nil => exact ⟨"", by rw [List.map_nil, String.intercalate_singleton, String.append_empty]⟩
  | cons second rest =>
    rw [List.map_cons, String.intercalate_cons_cons, String.append_assoc]
    exact ⟨_, rfl⟩

theorem nullBranches_eq (direction : Direction) (optional : Bool) (access : Access)
    {alternatives : List Schema} (h : alternatives.any Schema.isNull) :
    nullBranches direction optional access alternatives = [ofNull direction optional access] :=
  if_pos h

end Branch

theorem Conversion.lines_dispatch {front : String} (hf : Single front) (direction : Direction)
    {branch : Branch} (hc : Single branch.render.1) (ha : Single branch.render.2)
    (branches : List Branch) (back : String) :
    ∃ others, lines (front ++ (dispatch direction (branch :: branches)).render ++ back).toList =
      (front ++ "(() => " ++ "\x7b").toList ::
        indentLine 2 ("if (" ++ branch.render.1 ++ ") " ++ "\x7b").toList ::
          indentLine 4 branch.render.2.toList :: others := by
  obtain ⟨more, hm⟩ := Branch.conditional_cons branch.render (Branch.renderAll branches)
  have hs : front ++ (dispatch direction (branch :: branches)).render ++ back =
      (front ++ "(() => ") ++ braces ("if (" ++ branch.render.1 ++ ") " ++
        braces branch.render.2 ++ (more ++ ("\nthrow new TypeError('" ++ direction.failure ++
          "')"))) ++ (")()" ++ back) := by
    rw [render, Layout.dispatch, Branch.renderAll, hm]
    simp only [selfExecuting, Branch.clause, String.append_assoc]
  have ho : Single (front ++ "(() => ") := hf.append (by decide)
  have hi : Single ("if (" ++ branch.render.1 ++ ") ") :=
    .append (.append (by decide) hc) (by decide)
  rw [hs, lines_braces_append ho, lines_braces_append hi, ha.lines_eq]
  simp only [List.map_cons, List.map_nil, List.cons_append, List.nil_append,
    indentLine_indentLine]
  exact ⟨_, rfl⟩

def Direction.missing : Direction → String
  | deserialize => "undefined"
  | serialize => "null"

namespace Field

/-- The first lines of the entry of a field whose conversion begins with a test for null. -/
def nullTest (field : Field) (comparison answer : String) : List String :=
  [field.label ++ ": (() => \x7b",
    "  if (input." ++ field.label ++ comparison ++ ") \x7b",
    "    return " ++ answer]

/-- Null is tested first in the entry of a field whose type is a union of several alternatives, one
of them null. The test holds of undefined too where null comes first. -/
def TestsNull (direction : Direction) (field : Field) (entry : List String) : Prop :=
  ∀ alternatives, field.type? = some (.union alternatives) → 2 ≤ alternatives.length →
    alternatives.any Schema.isNull →
    (if field.optional then field.nullTest " == null" direction.missing
      else field.nullTest " === null" "null") <+: entry

end Field

theorem Branch.render_ofNull (direction : Direction) (optional : Bool) (name : String) :
    (ofNull direction optional (.field name)).render =
      ("input." ++ name ++ (if optional then " == null" else " === null"),
        "return " ++ if optional then direction.missing else "null") := by
  cases direction <;> cases optional <;> rfl

theorem Field.toList_nullTest (field : Field) (comparison answer : String) :
    (field.nullTest comparison answer).map String.toList =
      [(field.label ++ ": " ++ "(() => " ++ "\x7b").toList,
        indentLine 2 ("if (" ++ ("input." ++ field.label ++ comparison) ++ ") " ++ "\x7b").toList,
        indentLine 4 ("return " ++ answer).toList] := by
  have ho : ": (() => \x7b" = ": " ++ ("(() => " ++ "\x7b") := rfl
  have hi : "if (input." = "if (" ++ "input." := rfl
  have hc : ") \x7b" = ") " ++ "\x7b" := rfl
  have hl : ∀ rest, ("  if (input." ++ rest).toList = indentLine 2 ("if (input." ++ rest).toList :=
    toList_indented (by decide) (by decide)
  have ha : ("    return " ++ answer).toList = indentLine 4 ("return " ++ answer).toList :=
    toList_indented (by decide) (by decide) answer
  simp only [nullTest, List.map_cons, List.map_nil, String.append_assoc, hl, ha, ho, hi, hc]

theorem Assignment.nullTest_isPrefix {field : Field} (hw : Word field.label) {direction : Direction}
    {optional : Bool} {branches : List Branch} {assignment : Assignment}
    (hn : assignment.name = field.label) (hv : assignment.value =
      .dispatch direction (.ofNull direction optional (.field field.label) :: branches)) :
    field.nullTest (if optional then " == null" else " === null")
        (if optional then direction.missing else "null") <+:
      (lines assignment.text.toList).map String.ofList := by
  have hq := hw.wordy.quiet.single
  have hr := Branch.render_ofNull direction optional field.label
  have hc : Single (Branch.ofNull direction optional (.field field.label)).render.1 := by
    have ht : Single (if optional then " == null" else " === null") := by split <;> decide
    rw [hr]
    exact .append (.append (by decide) hq) ht
  have ha : Single (Branch.ofNull direction optional (.field field.label)).render.2 := by
    have hm : Single (if optional then direction.missing else "null") := by
      cases direction <;> cases optional <;> decide
    rw [hr]
    exact .append (by decide) hm
  have hf : Single (field.label ++ ": ") := hq.append (by decide)
  obtain ⟨others, hl⟩ := Conversion.lines_dispatch hf direction hc ha branches ","
  have ht : lines assignment.text.toList =
      (field.nullTest (if optional then " == null" else " === null")
        (if optional then direction.missing else "null")).map String.toList ++ others := by
    rw [text, hn, hv, hl, hr, Field.toList_nullTest]
    rfl
  have ho : ∀ first : List String, (first.map String.toList).map String.ofList = first := by simp
  rw [ht, List.map_append, ho]
  exact List.prefix_append _ _

theorem Assignment.testsNull {context : Context} {direction : Direction} {field : Field}
    {assignment : Assignment} (h : assignment.Worded s)
    (ho : ofField context direction field = .ok assignment) :
    field.TestsNull direction ((lines assignment.text.toList).map String.ofList) := by
  intro alternatives hu hl hn
  obtain ⟨type, ht, hf, hv⟩ := of_ofField ho
  rw [hu] at ht
  cases ht
  rw [Conversion.ofSchema_union _ _ _ _ _ (by omega)] at hv
  obtain ⟨branches, -, hv⟩ := Traversal.bind_eq_ok_iff.1 hv
  rw [Branch.nullBranches_eq _ _ _ hn] at hv
  have hp := nullTest_isPrefix (hf ▸ h.name) hf (Except.ok.inj hv).symm
  rw [← Field.optional_eq hu] at hp
  cases ho : field.optional with
  | false => simpa [ho] using hp
  | true => simpa [ho] using hp

namespace Record

variable {context : Context} {record : Record}

/-- Where a record is made of words, its interface and its class mark the same fields as optional,
those whose types have null first. The entry of a field begins with a test for null in both methods
if null is one of several alternatives. Null has two equals signs in no other tests than those where
it comes first, whatever unions there are further in. -/
theorem optionality_agrees (h : record.Worded context) {interface : Declaration}
    {own : ClassDeclaration} (hi : Declaration.ofRecord context record = .ok interface)
    (hc : ClassDeclaration.ofRecord context record = .ok own) :
    Listing.ofInterface interface.render =
        record.fieldList.map (fun field => (field.label, field.optional)) ∧
      Listing.ofClass own.render =
        record.fieldList.map (fun field => (field.label, field.optional)) ∧
      ∀ direction,
        List.Forall₂ (Field.TestsNull direction) record.fieldList
          (Listing.entries direction own.render) ∧
        occurrencesOf " == null".toList (own.method direction).render.toList =
          record.fieldList.countP Field.testsLoosely := by
  have ho := ClassDeclaration.of_eq_ok hc
  have hw := h.loose.classDeclaration ho
  have hd := fun direction => (Method.of_ofRecord (ho.method direction)).2.1
  refine ⟨?_, ?_, fun direction => ⟨?_, Method.looseTests_render h (ho.method direction)⟩⟩
  · obtain ⟨name, properties, -, hp, rfl⟩ := Declaration.of_ofRecord hi
    rw [Listing.ofInterface,
      Declaration.listing_interface (Declaration.worded_ofRecord (s := .loose) h hi)]
    exact marks_properties hp
  · rw [Listing.ofClass, ClassDeclaration.listing_properties hw]
    exact marks_properties ho.properties
  · obtain ⟨-, -, ha⟩ := Method.of_ofRecord (ho.method direction)
    rw [ClassDeclaration.entries_render hw hd, List.forall₂_map_right_iff]
    exact (Traversal.forall₂_of_mapM ha fun field hm _ hf =>
      Assignment.testsNull (h.loose.assignment hm hf) hf).flip

def route : Record :=
  .mk [("type", .str "record"), ("name", .str "Route"), ("namespace", .str "geo")]
    (.listed [
      .mk [("name", .str "start")]
        (some (.union [.primitive .null none, .reference "Point", .primitive .string none])) [],
      .mk [("name", .str "note")]
        (some (.union [.primitive .string none, .primitive .null none])) [],
      .mk [("name", .str "stops")] (some (.array [("type", .str "array")]
        (some (.union [.primitive .null none, .reference "Point"])) [])) []]) []

theorem worded_route : route.Worded .point := by
  have hd : ∀ name : String, isDotted name → Word name := fun _ => word_of_isDotted
  have hn : ∀ field ∈ route.fieldList, isDotted field.label := by decide
  have hs : Schema.Worded .point
      (.union [.primitive .null none, .reference "Point", .primitive .string none]) :=
    .union (by simp [Schema.worded_point, Schema.Worded.primitive])
  have ho : (Schema.union [.primitive .string none, .primitive .null none]).Worded .point :=
    .union (by simp [Schema.Worded.primitive])
  have hi : (Schema.union [.primitive .null none, .reference "Point"]).Worded .point :=
    .union (by simp [Schema.worded_point, Schema.Worded.primitive])
  refine ⟨⟨(hd "Route" (by decide)).wordy, (hd "geo" (by decide)).wordy⟩,
    fun field hm => hd field.label (hn field hm), ?_⟩
  change ∀ type ∈ [_, _, _], Schema.Worded .point type
  simp only [List.forall_mem_cons]
  exact ⟨hs, ho, .array hi, List.forall_mem_nil _⟩

theorem optionality_agrees_route :
    ∃ interface own, route.Worded .point ∧ Declaration.ofRecord .point route = .ok interface ∧
      ClassDeclaration.ofRecord .point route = .ok own ∧
      Listing.ofInterface interface.render =
        [("start", true), ("note", false), ("stops", false)] ∧
      Listing.ofClass own.render = [("start", true), ("note", false), ("stops", false)] ∧
      ∀ direction,
        List.Forall₂ (Field.TestsNull direction) route.fieldList
          (Listing.entries direction own.render) ∧
        occurrencesOf " == null".toList (own.method direction).render.toList = 1 :=
  ⟨_, _, worded_route, rfl, rfl, optionality_agrees worded_route rfl rfl⟩

end Record

end AvroBindings
