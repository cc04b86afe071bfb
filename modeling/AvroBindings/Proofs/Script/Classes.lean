import AvroBindings.Proofs.Code.Fields
import AvroBindings.Proofs.Script.Conversions

/-! Reading classes. Where the names in a class are identifiers, its text is read as the class
itself, but for the types in it. -/

namespace AvroBindings

open Script

theorem Script.mapM_eq_some {α β γ : Type} {items : α → β} {f : β → Option γ} {result : α → γ}
    {entries : List α} (h : ∀ entry ∈ entries, f (items entry) = some (result entry)) :
    (entries.map items).mapM f = some (entries.map result) := by
  induction entries with
  | nil => rfl
  | cons first rest ih =>
    obtain ⟨hf, hr⟩ := List.forall_mem_cons.1 h
    rw [List.map_cons, List.mapM_cons, hf, ih hr]
    rfl

section Methods

def Assignment.untyped (assignment : Assignment) : Assignment :=
  ⟨assignment.name, assignment.value.untyped⟩

def Assignment.items (assignment : Assignment) : List Item :=
  .word assignment.name :: .mark ":" :: (assignment.value.items ++ [Item.mark ","])

theorem Assignment.items_inline (assignment : Assignment) :
    ∀ item ∈ assignment.items, ¬item.isLine := by
  simpa [items, Item.isLine, or_imp, forall_and] using assignment.value.items_inline

theorem Assignment.readAssignment_items {assignment : Assignment} (h : assignment.Worded .strict) :
    readAssignment assignment.items = some assignment.untyped := by
  simp [items, readAssignment, Conversion.readConversion_items h.2, untyped]

theorem Assignment.closed_text {assignment : Assignment} (h : assignment.Worded .strict) :
    Closed assignment.text assignment.items := by
  have hm : Closed ": " [.mark ":"] := fun _ _ => rfl
  have he : Closed "," [.mark ","] := fun _ _ => rfl
  exact (((spells_word h.1).append_closed hm rfl).append_spells
    (assignment.value.spells h.2)).append_closed he rfl

theorem closed_lines {α : Type} {text : α → String} {items : α → List Item} {entries : List α}
    (h : ∀ entry ∈ entries, Closed (text entry) (items entry)) (hn : entries ≠ []) :
    ∃ xs, Closed ("\n".intercalate (entries.map text)) xs ∧
      block [xs] = block (entries.map items) := by
  have hl : Closed "\n" [.line] := fun _ _ => rfl
  induction entries with
  | nil => exact absurd rfl hn
  | cons first rest ih =>
    obtain ⟨hf, hr⟩ := List.forall_mem_cons.1 h
    cases rest with
    | nil => exact ⟨items first, by simpa using hf, rfl⟩
    | cons second rest =>
      obtain ⟨xs, hx, he⟩ := ih hr (List.cons_ne_nil _ _)
      refine ⟨items first ++ [Item.line] ++ xs, ?_, ?_⟩
      · rw [List.map_cons, List.map_cons, String.intercalate_cons_cons]
        exact (hf.append hl).append hx
      · simp only [block, List.map_cons, List.flatMap_cons] at he ⊢
        simp_all

theorem Method.closed_object {assignments : List Assignment}
    (h : ∀ assignment ∈ assignments, assignment.Worded .strict) :
    ∃ content, Closed (object assignments) [.group content] ∧
      (content = .nothing ∧ assignments = [] ∨
        content = .object (assignments.map Assignment.untyped)) := by
  cases assignments with
  | nil => exact ⟨.nothing, fun _ _ => rfl, .inl ⟨rfl, rfl⟩⟩
  | cons first rest =>
    obtain ⟨xs, hx, he⟩ := closed_lines (fun assignment hm =>
      Assignment.closed_text (h assignment hm)) (List.cons_ne_nil first rest)
    have hb := hx.spells.braces
    have hi : Script.Inline ((first :: rest).map Assignment.items) :=
      List.forall_mem_map.2 fun assignment _ => assignment.items_inline
    have hr := Script.mapM_eq_some fun assignment hm =>
      Assignment.readAssignment_items (h assignment hm)
    rw [he, curly_block hi, readStatements, hr] at hb
    exact ⟨_, hb, .inr rfl⟩

def Method.items (method : Method) : List Item :=
  let assignments := method.assignments.map Assignment.untyped
  match method.direction with
  | .deserialize => [.word "public", .word "static", .word "deserialize",
      .group (.parameter "input"), .mark ":", .word method.className,
      .group (.result method.className assignments)]
  | .serialize => [.word "public", .word "static", .word "serialize", .group (.parameter "input"),
      .mark ":", .word "object", .group (.result none assignments)]

theorem Method.items_inline (method : Method) : ∀ item ∈ method.items, ¬item.isLine := by
  unfold items
  cases method.direction <;> simp [Item.isLine]

theorem Method.curly_result {content : Content} {assignments : List Assignment}
    (h : content = .nothing ∧ assignments = [] ∨
      content = .object (assignments.map Assignment.untyped)) (className : String) :
    curly (block [[.word "return", .group content]]) =
        .result none (assignments.map Assignment.untyped) ∧
      curly (block [[.word "return", .word "new", .word className, .group content]]) =
        .result className (assignments.map Assignment.untyped) := by
  have hn : namedAccess? "new" = none := by decide
  constructor
  · refine curly_return (by simp [Item.isLine]) (by simp) ?_
    obtain ⟨rfl, rfl⟩ | rfl := h <;> simp [readReturn, readConversion, readAccess]
  · refine curly_return (by simp [Item.isLine]) (by simp) ?_
    obtain ⟨rfl, rfl⟩ | rfl := h <;> simp [readReturn, readConversion, readAccess, hn]

theorem Method.closed_render {method : Method} (h : method.Worded .strict) :
    Closed method.render method.items := by
  obtain ⟨className, direction, assignments⟩ := method
  obtain ⟨hn, h⟩ := h
  obtain ⟨content, ho, hc⟩ := closed_object h
  have he : Closed " " [] := fun _ _ => rfl
  cases direction with
  | deserialize =>
    have hp : Closed "public static deserialize(input: any): " [.word "public", .word "static",
      .word "deserialize", .group (.parameter "input"), .mark ":"] := fun _ _ => rfl
    have hr : Closed "return new " [.word "return", .word "new"] := fun _ _ => rfl
    have hb := ((hr.append_spells (spells_word hn)).append_closed ho.spells.round
      (apart_round _)).spells.braces.of_group (curly_result hc className).2
    have hx := ((hp.append_spells (spells_word hn)).append_closed he rfl).append hb
    rw [← String.append_assoc, ← String.append_assoc] at hx
    exact hx
  | serialize =>
    have hp : Spells "public static serialize" [.word "public", .word "static",
      .word "serialize"] := .of_word fun _ _ => rfl
    have hi : Closed "input: " [.word "input", .mark ":"] := fun _ _ => rfl
    have ht : Closed ": object " [.mark ":", .word "object"] := fun _ _ => rfl
    have hr : Closed "return " [.word "return"] := fun _ _ => rfl
    have hb := (hr.append ho).spells.braces.of_group (curly_result hc className).1
    have hx := ((hp.append_closed (hi.append_spells (spells_word hn)).round (apart_round _)).append
      ht).append hb
    have hl : "public static serialize(input: " = "public static serialize" ++ "(" ++ "input: " :=
      rfl
    have he : "): object " = ")" ++ ": object " := rfl
    have ht : render ⟨className, .serialize, assignments⟩ = "public static serialize(input: " ++
      className ++ "): object " ++ Layout.braces ("return " ++ object assignments) := rfl
    rw [ht, hl, he]
    simp only [String.append_assoc] at hx ⊢
    exact hx

end Methods

section Classes

theorem closed_lineEach {α : Type} {line : α → String} {items : α → List Item} {entries : List α}
    (h : ∀ entry ∈ entries, Spells (line entry) (items entry)) :
    Closed (ClassDeclaration.lineEach line entries)
      ((entries.map items).flatMap (· ++ [Item.line])) := by
  have hl : Closed "\n" [.line] := fun _ _ => rfl
  unfold ClassDeclaration.lineEach
  induction entries with
  | nil => exact fun _ _ => rfl
  | cons first rest ih =>
    obtain ⟨hf, hr⟩ := List.forall_mem_cons.1 h
    rw [List.map_cons, String.join_cons]
    exact (hf.append_closed hl rfl).append (ih hr)

def Property.keptItems (property : Property) : List Item :=
  [.word ("this." ++ property.name), .mark "=", .word ("input." ++ property.name)]

theorem Property.readKept_keptItems (property : Property) :
    readKept property.keptItems = some [property.name] := by
  simp [keptItems, readKept, after?_append]

theorem Property.spells_kept {property : Property} (h : Wordy property.name) :
    Spells ("    this." ++ property.name ++ " = input." ++ property.name) property.keptItems := by
  have hb : Closed "    " [] := fun _ _ => rfl
  have he : Closed " = " [.mark "="] := fun _ _ => rfl
  have ht : Word ("this." ++ property.name) := h.memberOf (wordy_of_all (by decide)) (by decide)
  have hi : Word ("input." ++ property.name) := h.memberOf (wordy_of_all (by decide)) (by decide)
  have hx := ((hb.append_spells (spells_word ht)).append_closed he rfl).append_spells
    (spells_word hi)
  have hl : "    this." = "    " ++ "this." := rfl
  have hr : " = input." = " = " ++ "input." := rfl
  rw [hl, hr]
  simp only [String.append_assoc] at hx ⊢
  exact hx

def keptItems (properties : List Property) : List (List Item) :=
  if properties.isEmpty then [[.mark "/*", .word "noop", .mark "*/"]]
  else properties.map Property.keptItems

theorem curly_keptItems (properties : List Property) :
    curly (block (keptItems properties)) = .kept (properties.map Property.name) := by
  have hi : Script.Inline (keptItems properties) := by
    unfold keptItems
    split
    next => simp [Script.Inline, Item.isLine]
    next => exact List.forall_mem_map.2 fun property _ => by simp [Property.keptItems, Item.isLine]
  have hr : (keptItems properties).mapM readKept =
      some (if properties.isEmpty then [[]] else properties.map fun property => [property.name]) := by
    unfold keptItems
    split
    next => rfl
    next => exact Script.mapM_eq_some fun property _ => property.readKept_keptItems
  have hn : (keptItems properties).mapM readAssignment = none := by
    cases properties <;> rfl
  rw [curly_block hi, readStatements, hn, hr]
  cases properties with
  | nil => rfl
  | cons property rest => simp [← List.flatMap_def, ← List.map_eq_flatMap]

theorem closed_kept {properties : List Property}
    (h : ∀ property ∈ properties, Wordy property.name) :
    Closed ("\x7b" ++ ("\n" ++ (if properties.isEmpty then "    /* noop */\n"
        else ClassDeclaration.lineEach
          (fun property => "    this." ++ property.name ++ " = input." ++ property.name)
          properties) ++ "  ") ++ "\x7d")
      [.group (.kept (properties.map Property.name))] := by
  have hl : Closed "\n" [.line] := fun _ _ => rfl
  have he : Closed "  " [] := fun _ _ => rfl
  have hb : Closed (if properties.isEmpty then "    /* noop */\n" else ClassDeclaration.lineEach
      (fun property => "    this." ++ property.name ++ " = input." ++ property.name) properties)
      ((keptItems properties).flatMap (· ++ [Item.line])) := by
    unfold keptItems
    split
    next => exact fun _ _ => rfl
    next => exact closed_lineEach fun property hm => Property.spells_kept (h property hm)
  have hx := ((hl.append hb).append he).spells.curly
  rw [List.append_nil] at hx
  exact hx.of_group (curly_keptItems properties)

theorem closed_constructor {interface : String} (hi : Word interface) {body : String}
    {content : Content} (h : Closed ("\x7b" ++ ("\n" ++ body ++ "  ") ++ "\x7d") [.group content]) :
    Closed ("  constructor(input: Partial<" ++ interface ++ ">) \x7b\n" ++ body ++ "  \x7d")
      [.word "constructor", .group (.parameter "input"), .group content] := by
  have hc : Spells "  constructor" [.word "constructor"] := .of_word fun _ _ => rfl
  have hp : Closed "input: Partial<" [.word "input", .mark ":", .word "Partial", .mark "<"] :=
    fun _ _ => rfl
  have he : Closed " " [] := fun _ _ => rfl
  have ht : Spells (interface ++ ">") [.word interface, .mark ">"] :=
    .of_mark fun outer before => (scans_word hi outer before).append rfl
  have hx := ((hc.append_closed (hp.append_spells ht).round (apart_round _)).append he).append h
  have hl : "  constructor(input: Partial<" = "  constructor" ++ "(" ++ "input: Partial<" := rfl
  have hr : ">) \x7b\n" = ">" ++ ")" ++ " " ++ "\x7b" ++ "\n" := rfl
  have hb : "  \x7d" = "  " ++ "\x7d" := rfl
  rw [hl, hr, hb]
  simp only [String.append_assoc] at hx ⊢
  exact hx

theorem Property.exists_items {property : Property} (h : property.Worded) :
    ∃ items, Spells ("  public readonly " ++ property.text) items ∧
      (∀ item ∈ items, ¬item.isLine) ∧ isProperty items := by
  -- whatever is read of the type, it stays within the line
  obtain ⟨types, hs, hi⟩ := property.type.spans h.type
  let mark : List Item := if property.optional then [.mark "?"] else []
  have hp : Closed "  public readonly " [.word "public", .word "readonly"] := fun _ _ => rfl
  have hm : Closed ((if property.optional then "?" else "") ++ ": ") (mark ++ [Item.mark ":"]) := by
    unfold mark
    split <;> exact fun _ _ => rfl
  have ha : Apart ((if property.optional then "?" else "") ++ ": ") := by
    split <;> rfl
  have hx := ((hp.append_spells (spells_word h.name)).append_closed hm ha).append_spells hs
  have hl : "  public readonly " ++ property.text = "  public readonly " ++ property.name ++
      ((if property.optional then "?" else "") ++ ": ") ++ property.type.render := by
    simp only [text, String.append_assoc]
  have hmark : ∀ item ∈ mark, ¬item.isLine := by
    unfold mark
    split <;> simp [Item.isLine]
  refine ⟨_, hl ▸ hx, ?_, rfl⟩
  simpa [Item.isLine, or_imp, forall_and] using And.intro hmark hi

/-- A class without the types in it. -/
def ClassDeclaration.untyped (declaration : ClassDeclaration) : ClassDeclaration where
  name := declaration.name
  interface := declaration.interface
  fullName := declaration.fullName
  properties := declaration.properties.map fun property => ⟨property.name, false, .any⟩
  deserializer := { declaration.deserializer with
    assignments := declaration.deserializer.assignments.map Assignment.untyped }
  serializer := { declaration.serializer with
    assignments := declaration.serializer.assignments.map Assignment.untyped }

/-- What the members of a class are read from. -/
def ClassDeclaration.members (declaration : ClassDeclaration) (properties : List (List Item)) :
    List (List Item) :=
  [.word "public", .word "static", .word "FQN", .mark "=", .quoted declaration.fullName] ::
    properties ++ [[], [.word "constructor", .group (.parameter "input"),
        .group (.kept (declaration.properties.map Property.name))],
      [], declaration.deserializer.items, [], declaration.serializer.items]

namespace ClassDeclaration

variable {declaration : ClassDeclaration} {properties : List (List Item)}

theorem inline_members (h : Script.Inline properties) :
    Script.Inline (declaration.members properties) := by
  have hr := declaration.deserializer.items_inline
  have hw := declaration.serializer.items_inline
  simp only [Script.Inline, members, List.mem_append, List.mem_cons, List.not_mem_nil] at h ⊢
  rintro statement ((rfl | hm) | rfl | rfl | rfl | rfl | rfl | rfl | hm)
  · simp [Item.isLine]
  · exact h statement hm
  · exact List.forall_mem_nil _
  · simp [Item.isLine]
  · exact List.forall_mem_nil _
  · exact hr
  · exact List.forall_mem_nil _
  · exact hw
  · cases hm

theorem exists_properties (h : declaration.Worded .strict) : ∃ properties,
    Closed (lineEach (fun property => "  public readonly " ++ property.text)
      declaration.properties) (properties.flatMap (· ++ [Item.line])) ∧
    Script.Inline properties ∧ ∀ statement ∈ properties, isProperty statement := by
  have he : ∀ property ∈ declaration.properties, ∃ items,
      Spells ("  public readonly " ++ property.text) items ∧
        (∀ item ∈ items, ¬item.isLine) ∧ isProperty items := fun property hm =>
    Property.exists_items (h.properties property hm)
  choose! items hs hi hp using he
  exact ⟨declaration.properties.map items, closed_lineEach hs, List.forall_mem_map.2 hi,
    List.forall_mem_map.2 hp⟩

-- The methods of a class are its own.
variable (hm : ∀ direction, ∃ assignments,
  declaration.method direction = ⟨declaration.name, direction, assignments⟩)

include hm

theorem readBlock_members (hp : ∀ statement ∈ properties, isProperty statement) :
    readBlock (declaration.members properties) =
      some (.members { declaration.untyped with interface := "" }) := by
  obtain ⟨reads, hr⟩ := hm .deserialize
  obtain ⟨writes, hw⟩ := hm .serialize
  simp only [method] at hr hw
  have hb (first : List Item) (rest : List (List Item)) (hl : 4 ≤ rest.length) :
      readBlock (first :: rest) = (readMembers first rest).map .members := by
    unfold readBlock
    split <;> simp_all
  rw [members, List.cons_append, hb _ _ (by simp)]
  rw [readMembers, List.dropWhile_append_of_pos hp]
  simp [List.dropWhile, isProperty, readFullName, readConstructor, hr, hw, Method.items,
    readDeserializer, readSerializer, untyped, Function.comp_def]

theorem curly_members (hi : Script.Inline properties)
    (hp : ∀ statement ∈ properties, isProperty statement) :
    curly (block (declaration.members properties)) =
      .members { declaration.untyped with interface := "" } := by
  rw [curly_block (inline_members hi), readStatements, readBlock_members hm hp]
  rfl

theorem closed_members (h : declaration.Worded .strict) : ∃ body,
    Closed ("\x7b" ++ body ++ "\x7d")
      [.group (.members { declaration.untyped with interface := "" })] ∧
    declaration.render = "export class " ++ declaration.name ++ " implements " ++
      declaration.interface ++ " " ++ ("\x7b" ++ body ++ "\x7d") := by
  obtain ⟨properties, hp, hi, ho⟩ := exists_properties h
  have hmethod : ∀ direction, Closed (declaration.method direction).render
      (declaration.method direction).items :=
    fun direction => Method.closed_render (h.method direction)
  have hdeserializer := hmethod .deserialize
  have hserializer := hmethod .serialize
  simp only [method] at hdeserializer hserializer
  have hconstructor := closed_constructor h.interface
    (closed_kept fun property hm => (h.properties property hm).name.wordy)
  have hl : Closed "\n" [.line] := fun _ _ => rfl
  have hf : Closed "  public static FQN = " [.word "public", .word "static", .word "FQN",
    .mark "="] := fun _ _ => rfl
  have hx := (((((((((hl.append (hf.append (closed_quoted h.fullName))).append hl).append hp).append
    hl).append hconstructor).append hl).append hl).append_spells
      hdeserializer.spells.indent).append_closed (hl.append hl) rfl).append_spells
        hserializer.spells.indent |>.append_closed hl rfl
  refine ⟨_, hx.spells.curly.of_group ?_, ?_⟩
  · rw [← curly_members hm hi ho]
    simp [block, members]
  · have hopen : " \x7b\n" = " " ++ ("\x7b" ++ "\n") := rfl
    have hfull : "  public static FQN = '" = "  public static FQN = " ++ "'" := rfl
    have hquote : "'\n" = "'" ++ "\n" := rfl
    have hconstructor : "\n  constructor(input: Partial<" =
      "\n" ++ "  constructor(input: Partial<" := rfl
    have hkept : "  \x7d\n\n" = "  \x7d" ++ ("\n" ++ "\n") := rfl
    have hmethods : "\n\n" = "\n" ++ "\n" := rfl
    have hclose : "\n\x7d" = "\n" ++ "\x7d" := rfl
    delta render
    rw [hopen, hfull, hquote, hconstructor, hkept, hmethods, hclose]
    simp only [String.append_assoc, -String.reduceAppend]

/-- The text of a class is read as the class itself, but for the types in it. -/
theorem read_render (h : declaration.Worded .strict) :
    read declaration.render = some declaration.untyped := by
  obtain ⟨body, hb, ht⟩ := closed_members hm h
  have hc : Closed "export class " [.word "export", .word "class"] := fun _ _ => rfl
  have hi : Closed " implements " [.word "implements"] := fun _ _ => rfl
  have he : Closed " " [] := fun _ _ => rfl
  have hx := ((((hc.append_spells (spells_word h.name)).append_closed hi rfl).append_spells
    (spells_word h.interface)).append_closed he rfl).append hb
  obtain ⟨reads, hr⟩ := hm .deserialize
  simp only [method] at hr
  rw [read, ht, hx.items_eq]
  simp [readClass, untyped, hr]

end ClassDeclaration

theorem ClassDeclaration.Of.read_render {context : Context} {record : Record}
    {own : ClassDeclaration} (ho : own.Of context record) (h : record.WordedBy .strict context) :
    read own.render = some own.untyped := by
  refine ClassDeclaration.read_render (fun direction => ?_) (h.classDeclaration ho)
  obtain ⟨hn, hd, -⟩ := Method.of_ofRecord (ho.method direction)
  refine ⟨(own.method direction).assignments, ?_⟩
  rw [ho.name, ← hn]
  exact congrArg (Method.mk _ · _) hd

end Classes

end AvroBindings
