import AvroBindings.Proofs.Code.Lines
import AvroBindings.Proofs.Code.Rows

/-! The listings of the fields of a record in its interface and its class, read back from the lines
of the text. The properties of both, the assignments of the constructor and the entries of the
objects in both methods name the fields in their order. -/

namespace AvroBindings

open Layout

variable {s : Spelling}

namespace Method

variable {method : Method} {α : Type} {read : List Char → Option α}

/-- Nothing is found in a method but at its heading and its opening, or in its entries. -/
theorem listing_within (h : method.Worded s) {width : Nat} (hr : Skips read) (hw : width < 6)
    (hh : width = 2 → read (method.heading ++ "\x7b").toList = none)
    (ho : width = 4 → ∀ rest, read (method.opening ++ "\x7b" ++ rest).toList = none) :
    listing width read ((lines method.render.toList).map (indentLine 2)) = [] := by
  obtain ⟨rest, closing, hl, hc⟩ := lines_within h
  have hb : Closes "\x7d".toList := rfl
  rw [hl, listing_cons_of_none (readAt_eq_none (flush_heading method) fun he => hh he.symm),
    listing_cons_of_none (readAt_eq_none (flush_opening method rest) fun he => ho he.symm rest),
    listing_append, listing_append, listing_indent_of_lt hr hw,
    listing_eq_nil (List.forall_mem_map.2 fun line hm =>
      readAt_of_closes hr (hc line hm) width 4),
    listing_cons_of_none (readAt_of_closes hr hb width 2)]
  rfl

end Method

namespace ClassDeclaration

variable {own : ClassDeclaration} {α : Type} {read : List Char → Option α}

theorem listing_head {width : Nat} (hr : Skips read) (hw : width ≠ 0)
    (hf : width = 2 → read ("public static FQN = '" ++ own.fullName ++ "'").toList = none) :
    listing width read own.headLines = listing width read (own.properties.map fun property =>
      indentLine 2 ("public readonly " ++ property.text).toList) := by
  have hc : Flush
      ("export class " ++ own.name ++ " implements " ++ own.interface ++ " \x7b").toList := by
    simp only [String.append_assoc]
    exact flush_append (by decide) _
  have hx : Flush ("public static FQN = '" ++ own.fullName ++ "'").toList := by
    simp only [String.append_assoc]
    exact flush_append (by decide) _
  have hn : readAt width read [] = none := readAt_of_blank hr rfl
  rw [headLines, listing_cons_of_none (readAt_of_flush hc hw),
    listing_cons_of_none (readAt_eq_none hx fun h => hf h.symm), listing_append,
    listing_cons_of_none hn, listing_nil, List.append_nil]

theorem listing_front {width : Nat} (hr : Skips read)
    (hc : width = 2 → read own.constructorLine = none)
    (hk : width = 4 → ∀ line ∈ own.keptLines, read line = none) :
    listing width read own.frontLines = listing width read own.headLines := by
  have hb : Closes "\x7d".toList := rfl
  have hn : readAt width read [] = none := readAt_of_blank hr rfl
  rw [frontLines, listing_append,
    listing_cons_of_none (readAt_eq_none own.flush_constructorLine fun h => hc h.symm),
    listing_append, listing_eq_nil (List.forall_mem_map.2 fun line hm =>
      readAt_eq_none (own.flush_kept line hm) fun h => hk h.symm line hm),
    listing_cons_of_none (readAt_of_closes hr hb width 2), listing_cons_of_none hn, listing_nil,
    List.append_nil, List.append_nil]

end ClassDeclaration

def Direction.construction : Direction → String
  | deserialize => "return new "
  | serialize => "return \x7b"

theorem Assignment.readAt_lines {assignment : Assignment} (h : assignment.Worded s) :
    ∃ first rest, lines assignment.text.toList = first :: rest ∧
      readAt 6 labelled? (indentLine 6 first) = some (assignment.name, false) ∧
      ∀ line ∈ rest, readAt 6 labelled? (indentLine 6 line) = none := by
  obtain ⟨first, others, hl, ho⟩ := Assignment.lines_eq h
  refine ⟨_, others, hl, ?_, fun line hm => ?_⟩
  · rw [readAt_indentLine (((flush_of_word h.name).append _).append _), if_pos rfl]
    exact labelled?_plain h.name.wordy first
  · exact readAt_indentLine_of_aside skips_labelled? (ho line hm)

namespace Method

variable {method : Method}

/-- The object that a method builds is read back wherever the method stands. -/
theorem below_construction (h : method.Worded s) {direction : Direction}
    (hd : method.direction = direction) {before : List (List Char)}
    (hb : listing 4 (opens direction.construction) before = []) (others : List (List Char)) :
    below 4 direction.construction
        (before ++ ((lines method.render.toList).map (indentLine 2) ++ others)) =
      method.entryLines.map (indentLine 6) := by
  subst hd
  obtain ⟨rest, closing, hl, hc⟩ := lines_within h
  have ho : readAt 4 (opens method.direction.construction)
      (indentLine 4 (method.opening ++ "\x7b" ++ rest).toList) = some () := by
    rw [readAt_indentLine (flush_opening method rest), if_pos rfl]
    unfold opening
    cases method.direction with
    | deserialize =>
      simp only [String.append_assoc]
      rw [String.toList_append]
      exact after_append ..
    | serialize =>
      have he : "return " ++ "\x7b" = "return \x7b" := rfl
      simp only [he]
      rw [String.toList_append]
      exact after_append ..
  have hh : readAt 4 (opens method.direction.construction)
      (indentLine 2 (method.heading ++ "\x7b").toList) = none :=
    readAt_eq_none (flush_heading method) fun he => absurd he (by decide)
  have hi : ∀ line ∈ method.entryLines.map (indentLine 6), line.all isBlank ∨ 4 < margin line :=
    List.forall_mem_map.2 fun line _ => (blank_or_le_margin 6 line).imp id (by omega)
  have hs : listing 4 (opens method.direction.construction)
      (before ++ [indentLine 2 (method.heading ++ "\x7b").toList]) = [] := by
    rw [listing_append, hb, listing_cons_of_none hh]
    rfl
  -- the object ends where its brace is closed, or where the method is if the object is empty
  obtain ⟨last, tail, he, hf, hw⟩ : ∃ (last : List Char) (tail : List (List Char)),
      closing.map (indentLine 4) ++ indentLine 2 "\x7d".toList :: others = last :: tail ∧
        ¬last.all isBlank ∧ margin last ≤ 4 := by
    cases closing with
    | nil =>
      have hb : Closes "\x7d".toList := rfl
      exact ⟨_, _, rfl, hb.flush.not_blank_indentLine 2,
        (hb.flush.margin_indentLine 2).trans_le (by decide)⟩
    | cons line rest =>
      have hf := (hc line List.mem_cons_self).flush
      exact ⟨_, _, rfl, hf.not_blank_indentLine 4, (hf.margin_indentLine 4).le⟩
  have hr : below 4 method.direction.construction
      ((before ++ [indentLine 2 (method.heading ++ "\x7b").toList]) ++
        indentLine 4 (method.opening ++ "\x7b" ++ rest).toList ::
          (method.entryLines.map (indentLine 6) ++ last :: tail)) =
        method.entryLines.map (indentLine 6) := below_append hs ho hi hf hw tail
  rw [hl]
  simpa only [List.cons_append, List.append_assoc, List.nil_append, he] using hr

theorem listing_entryLines (h : method.Worded s) :
    listing 6 labelled? (method.entryLines.map (indentLine 6)) =
      method.assignments.map fun assignment => (assignment.name, false) := by
  obtain ⟨-, ha⟩ := h
  unfold entryLines
  generalize method.assignments = assignments at ha ⊢
  induction assignments with
  | nil => rfl
  | cons assignment rest ih =>
    obtain ⟨hf, hr⟩ := List.forall_mem_cons.1 ha
    obtain ⟨first, others, hl, hn, ho⟩ := Assignment.readAt_lines hf
    rw [List.flatMap_cons, List.map_append, listing_append, ih hr, hl, List.map_cons,
      listing_cons_of_some hn, listing_eq_nil (List.forall_mem_map.2 ho)]
    rfl

end Method

theorem Property.labelled?_text {property : Property} (h : property.Worded) :
    labelled? property.text.toList = some (property.name, property.optional) := by
  have hn := h.name.wordy
  unfold text
  cases property.optional with
  | false =>
    rw [if_neg Bool.false_ne_true, String.append_empty, String.toList_append, String.toList_append]
    exact labelled?_plain hn _
  | true =>
    have hm : "?" ++ ": " = "?: " := rfl
    have he : property.name ++ "?" ++ ": " = property.name ++ "?: " := by
      rw [String.append_assoc, hm]
    rw [if_pos rfl, he, String.toList_append, String.toList_append]
    exact labelled?_optional hn _

namespace Declaration

theorem listing_interface {name : String} {properties : List Property}
    (h : (interface name properties).Worded s) :
    listing 2 labelled? (lines (interface name properties).render.toList) =
      properties.map fun property => (property.name, property.optional) := by
  obtain ⟨hn, hp⟩ := h
  have hs : (interface name properties).render =
      ("export interface " ++ name ++ " \x7b") ++ "\n" ++
        (ClassDeclaration.lineEach (fun property => "  " ++ property.text) properties ++
          "\x7d") := by
    have hb : " \x7b\n" = " \x7b" ++ "\n" := rfl
    unfold render
    simp only [hb, String.append_assoc]
  have hh : Single ("export interface " ++ name ++ " \x7b") :=
    .append (.append (by decide) hn.quiet.single) (by decide)
  have hf : Flush ("export interface " ++ name ++ " \x7b").toList := by
    simp only [String.append_assoc]
    exact flush_append (by decide) _
  have hl : ∀ property ∈ properties, Single ("  " ++ property.text) :=
    fun property hm => .append (by decide) (Property.single (hp property hm))
  have hb : Closes "\x7d".toList := rfl
  have he : Single "\x7d" := by decide
  rw [hs, hh.lines_below, listing_cons_of_none (readAt_of_flush hf (by decide)),
    ClassDeclaration.lines_lineEach hl, listing_append, listing_map, he.lines_eq,
    listing_cons_of_none (readAt_of_flush hb.flush (by decide)), listing_nil, List.append_nil]
  intro property hm
  have hw := hp property hm
  have hi : ("  " ++ property.text).toList = indentLine 2 property.text.toList := by
    rw [String.toList_append, (Property.flush hw).indentLine_eq]
    rfl
  rw [hi, readAt_indentLine (Property.flush hw), if_pos rfl]
  exact Property.labelled?_text hw

end Declaration

namespace ClassDeclaration

variable {own : ClassDeclaration}

theorem listing_properties (h : own.Worded s) :
    listing 2 (after "public readonly " labelled?) (lines own.render.toList) =
      own.properties.map fun property => (property.name, property.optional) := by
  have hr := @skips_after _ "public readonly " (by decide) labelled?
  have hm : ∀ method : Method, method.Worded s →
      listing 2 (after "public readonly " labelled?)
        ((lines method.render.toList).map (indentLine 2)) = [] := by
    intro method hw
    refine Method.listing_within hw hr (by decide) (fun _ => ?_) fun he => absurd he (by decide)
    unfold Method.heading
    split
    all_goals
      simp only [String.append_assoc]
      exact after_append_eq_none (by decide) (by decide) _
  have hf : after "public readonly " labelled?
      ("public static FQN = '" ++ own.fullName ++ "'").toList = none := by
    simp only [String.append_assoc]
    exact after_append_eq_none (by decide) (by decide) _
  have hc : after "public readonly " labelled? own.constructorLine = none := by
    unfold constructorLine
    simp only [String.append_assoc]
    exact after_append_eq_none (by decide) (by decide) _
  have hb : Closes "\x7d".toList := rfl
  have hd := hm own.deserializer (h.method .deserialize)
  have hs := hm own.serializer (h.method .serialize)
  rw [lines_render h, listing_append,
    listing_front hr (fun _ => hc) (fun he => absurd he (by decide)),
    listing_head hr (by decide) (fun _ => hf), listing_append, hd,
    listing_cons_of_none (readAt_of_blank hr rfl), listing_append, hs,
    listing_cons_of_none (readAt_of_flush hb.flush (by decide)), listing_nil, List.append_nil,
    List.append_nil, List.append_nil]
  refine listing_map fun property hp => ?_
  rw [readAt_indentLine (flush_append (by decide) _), if_pos rfl, String.toList_append,
    after_append]
  exact Property.labelled?_text (h.properties property hp)

theorem below_constructor (h : own.Worded s) :
    below 2 "constructor(" (lines own.render.toList) = own.keptLines.map (indentLine 4) := by
  have hr := @skips_after _ "constructor(" (by decide) fun _ => some ()
  have hf : opens "constructor("
      ("public static FQN = '" ++ own.fullName ++ "'").toList = none := by
    simp only [String.append_assoc]
    exact after_append_eq_none (by decide) (by decide) _
  have hs : listing 2 (opens "constructor(") own.headLines = [] := by
    unfold opens at hf ⊢
    rw [listing_head hr (by decide) fun _ => hf]
    refine listing_eq_nil (List.forall_mem_map.2 fun property _ => ?_)
    exact readAt_eq_none (flush_append (by decide) _) fun _ =>
      after_append_eq_none (by decide) (by decide) _
  have hl : readAt 2 (opens "constructor(") (indentLine 2 own.constructorLine) = some () := by
    rw [readAt_indentLine own.flush_constructorLine, if_pos rfl]
    have he : "constructor(input: Partial<" = "constructor(" ++ "input: Partial<" := rfl
    unfold constructorLine
    simp only [he, String.append_assoc]
    rw [String.toList_append]
    exact after_append ..
  have hi : ∀ line ∈ own.keptLines.map (indentLine 4), line.all isBlank ∨ 2 < margin line :=
    List.forall_mem_map.2 fun line _ => (blank_or_le_margin 4 line).imp id (by omega)
  have hb : Closes "\x7d".toList := rfl
  have hn := below_append hs hl hi (hb.flush.not_blank_indentLine 2)
    (hb.flush.margin_indentLine 2).le
  rw [lines_render h, frontLines, List.append_assoc, List.cons_append, List.append_assoc]
  exact hn _

theorem listing_kept (h : own.Worded s) :
    listing 4 (after "this." kept?) (own.keptLines.map (indentLine 4)) =
      own.properties.map Property.name := by
  unfold keptLines
  split
  next he =>
    rw [List.isEmpty_iff.1 he]
    rfl
  next =>
    rw [List.map_map]
    refine listing_map fun property hm => ?_
    have hn := (h.properties property hm).name.wordy
    simp only [Function.comp_apply, String.append_assoc]
    rw [readAt_indentLine (flush_append (by decide) _), if_pos rfl, String.toList_append,
      after_append, String.toList_append, String.toList_append]
    exact kept?_append hn

theorem listing_opening (own : ClassDeclaration) (direction : Direction) :
    listing 4 (opens direction.construction) own.frontLines = [] := by
  have ho : Opening direction.construction := by cases direction <;> decide
  have hr := skips_after ho fun _ => some ()
  have hk : ∀ line ∈ own.keptLines, opens direction.construction line = none := by
    unfold keptLines
    split
    next => exact List.forall_mem_singleton.2 (after_eq_none (by cases direction <;> decide))
    next =>
      refine List.forall_mem_map.2 fun property _ => ?_
      simp only [String.append_assoc]
      exact after_append_eq_none (by cases direction <;> decide) (by cases direction <;> decide) _
  unfold opens at hk ⊢
  rw [listing_front hr (fun he => absurd he (by decide)) fun _ => hk,
    listing_head hr (by decide) fun he => absurd he (by decide)]
  exact listing_eq_nil (List.forall_mem_map.2 fun property _ =>
    readAt_eq_none (flush_append (by decide) _) fun he => absurd he (by decide))

theorem below_method (h : own.Worded s)
    (hd : ∀ direction, (own.method direction).direction = direction) (direction : Direction) :
    below 4 direction.construction (lines own.render.toList) =
      (own.method direction).entryLines.map (indentLine 6) := by
  have hf := own.listing_opening
  rw [lines_render h]
  cases direction with
  | deserialize =>
    exact Method.below_construction (h.method .deserialize) (hd .deserialize) (hf _) _
  | serialize =>
    have hr := @skips_after _ (Direction.construction .serialize) (by decide) fun _ => some ()
    have hs : listing 4 (opens (Direction.construction .serialize))
        (own.frontLines ++ ((lines own.deserializer.render.toList).map (indentLine 2) ++ [[]])) =
          [] := by
      have ho : ∀ rest, opens (Direction.construction .serialize)
          (own.deserializer.opening ++ "\x7b" ++ rest).toList = none := by
        intro rest
        have hd : own.deserializer.direction = .deserialize := hd .deserialize
        unfold Method.opening
        rw [hd]
        simp only [String.append_assoc]
        exact after_append_eq_none (by decide) (by decide) _
      have hl : listing 4 (opens (Direction.construction .serialize))
          ((lines own.deserializer.render.toList).map (indentLine 2)) = [] :=
        Method.listing_within (h.method .deserialize) hr (by decide)
          (fun he => absurd he (by decide)) fun _ => ho
      have hb : readAt 4 (opens (Direction.construction .serialize)) [] = none :=
        readAt_of_blank hr rfl
      rw [listing_append, hf, listing_append, hl, listing_cons_of_none hb]
      rfl
    have hb := Method.below_construction (h.method .serialize) (hd .serialize) hs ["\x7d".toList]
    simp only [List.append_assoc, List.cons_append, List.nil_append] at hb
    exact hb

end ClassDeclaration

/-! The listings as a reader finds them in a text, each by the lines of its own indentation. -/

namespace Listing

/-- The properties of an interface, and whether they are optional. -/
def ofInterface (text : String) : List (String × Bool) := listing 2 labelled? (lines text.toList)

/-- The properties of a class, and whether they are optional. -/
def ofClass (text : String) : List (String × Bool) :=
  listing 2 (after "public readonly " labelled?) (lines text.toList)

/-- The properties that a constructor takes from the property of the same name of its input. -/
def ofConstructor (text : String) : List String :=
  listing 4 (after "this." kept?) (below 2 "constructor(" (lines text.toList))

/-- The entries of the object that a method of a class builds. -/
def ofMethod (direction : Direction) (text : String) : List String :=
  (listing 6 labelled? (below 4 direction.construction (lines text.toList))).map (·.1)

end Listing

theorem Schema.worded_point : (Schema.reference "Point").Worded .point :=
  .of_resolve rfl
    ⟨(word_of_isDotted (by decide)).wordy, (word_of_isDotted (by decide)).wordy⟩

namespace Record

variable {context : Context} {record : Record}

def labels (record : Record) : List String := record.fieldList.map Field.label

theorem marks_properties {properties : List Property}
    (h : record.fieldList.mapM (Property.ofField context) = .ok properties) :
    (properties.map fun property => (property.name, property.optional)) =
      record.fieldList.map fun field => (field.label, field.optional) :=
  Traversal.map_eq_of_forall₂ <| Traversal.forall₂_of_mapM h fun _ _ _ ho =>
    let ⟨_, ht, hn, hm, _⟩ := Property.of_ofField ho
    Prod.ext hn (hm.trans (Field.optional_eq ht).symm)

theorem names_properties {properties : List Property}
    (h : record.fieldList.mapM (Property.ofField context) = .ok properties) :
    properties.map Property.name = record.labels := by
  have hm := congrArg (List.map (·.1)) (marks_properties h)
  rwa [List.map_map, List.map_map] at hm

theorem names_assignments {direction : Direction} {assignments : List Assignment}
    (h : record.fieldList.mapM (Assignment.ofField context direction) = .ok assignments) :
    assignments.map Assignment.name = record.labels :=
  Traversal.map_eq_of_forall₂ <| Traversal.forall₂_of_mapM h fun _ _ _ ho =>
    let ⟨_, _, hn, _⟩ := Assignment.of_ofField ho
    hn

/-- Where a record is made of words, the interface and the class list the same names five times,
those of the fields in their order: as properties of both, in the constructor, and in the objects
that the methods build, whatever lines the conversions of the fields take. -/
theorem listings_agree (h : record.Worded context) {interface own : Declaration}
    (hi : Declaration.ofRecord context record = .ok interface)
    (hc : Declaration.classOfRecord context record = .ok own) :
    (Listing.ofInterface interface.render).map (·.1) = record.labels ∧
      (Listing.ofClass own.render).map (·.1) = record.labels ∧
      Listing.ofConstructor own.render = record.labels ∧
      Listing.ofMethod .deserialize own.render = record.labels ∧
      Listing.ofMethod .serialize own.render = record.labels := by
  obtain ⟨declaration, hd, rfl⟩ := Traversal.map_eq_ok_iff.1 hc
  have ho := ClassDeclaration.of_eq_ok hd
  have hw := h.loose.classDeclaration ho
  have hn := names_properties ho.properties
  have hm : ∀ direction, Listing.ofMethod direction declaration.render = record.labels := by
    intro direction
    obtain ⟨-, hb, ha⟩ := Method.of_ofRecord (ho.method direction)
    have hd := fun direction => (Method.of_ofRecord (ho.method direction)).2.1
    rw [Listing.ofMethod, ClassDeclaration.below_method hw hd,
      Method.listing_entryLines (hw.method direction), List.map_map]
    exact names_assignments ha
  have hr : (Declaration.classOf declaration).render = declaration.render := rfl
  rw [hr]
  refine ⟨?_, ?_, ?_, hm .deserialize, hm .serialize⟩
  · obtain ⟨name, properties, -, hp, rfl⟩ := Declaration.of_ofRecord hi
    rw [Listing.ofInterface,
      Declaration.listing_interface (Declaration.worded_ofRecord (s := .loose) h hi),
      List.map_map]
    exact names_properties hp
  · rw [Listing.ofClass, ClassDeclaration.listing_properties hw, List.map_map]
    exact hn
  · rw [Listing.ofConstructor, ClassDeclaration.below_constructor hw,
      ClassDeclaration.listing_kept hw]
    exact hn

def nested : Record :=
  .mk [("type", .str "record"), ("name", .str "Shape"), ("namespace", .str "geo")]
    (.listed [
      .mk [("name", .str "id")] (some (.primitive .string none)) [],
      .mk [("name", .str "at")]
        (some (.union [.primitive .null none, .reference "Point", .primitive .string none])) [],
      .mk [("name", .str "tags")] (some (.map [("type", .str "map")]
        (some (.array [("type", .str "array")]
          (some (.union [.primitive .null none, .primitive .int none])) [])) [])) []]) []

theorem worded_nested : nested.Worded .point := by
  have hd : ∀ name : String, isDotted name → Word name := fun _ => word_of_isDotted
  have hn : ∀ field ∈ nested.fieldList, isDotted field.label := by decide
  have hu : Schema.Worded .point
      (.union [.primitive .null none, .reference "Point", .primitive .string none]) :=
    .union (by simp [Schema.worded_point, Schema.Worded.primitive])
  have hi : (Schema.union [.primitive .null none, .primitive .int none]).Worded .point :=
    .union (by simp [Schema.Worded.primitive])
  refine ⟨⟨(hd "Shape" (by decide)).wordy, (hd "geo" (by decide)).wordy⟩,
    fun field hm => hd field.label (hn field hm), ?_⟩
  change ∀ type ∈ [_, _, _], Schema.Worded .point type
  simp only [List.forall_mem_cons]
  exact ⟨.primitive .string none, hu, .map (.array hi), List.forall_mem_nil _⟩

theorem listings_agree_nested :
    ∃ interface own, nested.Worded .point ∧
      Declaration.ofRecord .point nested = .ok interface ∧
      Declaration.classOfRecord .point nested = .ok own ∧
      (Listing.ofInterface interface.render).map (·.1) = ["id", "at", "tags"] ∧
      (Listing.ofClass own.render).map (·.1) = ["id", "at", "tags"] ∧
      Listing.ofConstructor own.render = ["id", "at", "tags"] ∧
      Listing.ofMethod .deserialize own.render = ["id", "at", "tags"] ∧
      Listing.ofMethod .serialize own.render = ["id", "at", "tags"] :=
  ⟨_, _, worded_nested, rfl, rfl, listings_agree worded_nested rfl rfl⟩

end Record

end AvroBindings
