import AvroBindings.Proofs.Code.Fields
import AvroBindings.Proofs.Text.Listings

/-! The lines of generated code that is made of words. A conversion is one line, or a body between
the line that opens it and the one that closes it, so that every line below the first one is further
in or begins with a closing brace. -/

namespace AvroBindings

open Layout

variable {s : Spelling}

theorem Binding.quiet (binding : Binding) : Quiet binding.text := by
  refine .append ?_ ?_
  · cases binding.role <;> decide
  · split
    next => decide
    next =>
      cases binding.depth with
      | ofNat n => exact (wordy_repr n).quiet
      | negSucc n =>
        have hm : Quiet "-" := by decide
        exact hm.append (wordy_repr (n + 1)).quiet

theorem Tag.quiet {tag : Tag} (h : tag.Worded) : Quiet tag.text := by
  cases tag with
  | fullName className => exact .append (Wordy.quiet h) (by decide)
  | literal text => exact .append (.append (by decide) (Wordy.quiet h)) (by decide)

theorem Access.quiet {access : Access} (h : access.Worded s) : Quiet access.text := by
  induction access with
  | given text => cases h
  | field name => exact .append (by decide) (s.wordy_field h).quiet
  | bound binding => exact binding.quiet
  | tagged access tag ih =>
    exact .append (.append (.append (ih h.1) (by decide)) (Tag.quiet h.2)) (by decide)

theorem TypeExpr.composes_quiet : Composes Quiet where
  wordy h := h.quiet
  union h := by
    have hs : Quiet " | " := by decide
    exact hs.intercalate h
  grouped h := .append (.append (by decide) h) (by decide)
  array h := .append h (by decide)
  index h := .append (.append (by decide) h) (by decide)

theorem TypeExpr.quiet (type : TypeExpr) (h : type.Worded) : Quiet type.render :=
  composes_quiet.render type h

theorem Conversion.quiet_call {className : String} (hc : Wordy className) (direction : Direction)
    {access : Access} (ha : access.Worded s) :
    Quiet (className ++ "." ++ direction.method ++ "(" ++ access.text ++ ")") := by
  have hm : Quiet direction.method := by cases direction <;> decide
  exact .append (.append (.append (.append (.append hc.quiet (by decide)) hm) (by decide))
    (Access.quiet ha)) (by decide)

theorem Conversion.shaped (conversion : Conversion) (h : conversion.Worded s) :
    Shaped conversion.render := by
  cases conversion with
  | same access => exact .single (Access.quiet h).single
  | call className direction access =>
    exact .single (quiet_call h.1 direction h.2).single
  | elements access element braced body =>
    have hf : Single (access.text ++ ".map((" ++ element.text ++ ": any) => ") :=
      .append (.append (.append (Access.quiet h.1).single (by decide)) element.quiet.single)
        (by decide)
    refine .append (hf.shaped_append ?_) (by decide)
    split
    next => exact shaped_braces _
    next => exact body.shaped h.2.2
  | entries access depth type body => exact shaped_selfExecuting _
  | dispatch direction branches => exact shaped_selfExecuting _

theorem Property.single {property : Property} (h : property.Worded) : Single property.text := by
  have hm : Single (if property.optional then "?" else "") := by split <;> decide
  exact .append (.append (.append h.name.wordy.quiet.single hm) (by decide))
    (property.type.quiet h.type).single

namespace Assignment

theorem lines_eq {assignment : Assignment} (h : assignment.Worded s) :
    ∃ first rest,
      lines assignment.text.toList = (assignment.name.toList ++ ": ".toList ++ first) :: rest ∧
      ∀ line ∈ rest, Aside line := by
  have hf : Single (assignment.name ++ ": ") := .append h.name.wordy.quiet.single (by decide)
  have hc : Single "," := by decide
  have hs := (assignment.value.shaped h.value).append hc
  have he : assignment.text = (assignment.name ++ ": ") ++ (assignment.value.render ++ ",") :=
    String.append_assoc ..
  rw [he, ← String.toList_append]
  exact hs.lines_eq hf

end Assignment

/-- The lines of the entries in the object that a method builds. -/
def Method.entryLines (method : Method) : List (List Char) :=
  method.assignments.flatMap fun assignment => lines assignment.text.toList

namespace Method

variable {method : Method}

theorem lines_object {front back : String} (hf : Single front) (hb : Single back)
    (method : Method) :
    ∃ rest closing,
      lines (front ++ object method.assignments ++ back).toList =
        (front ++ "\x7b" ++ rest).toList :: (method.entryLines.map (indentLine 2) ++ closing) ∧
      ∀ line ∈ closing, Closes line := by
  obtain ⟨className, direction, assignments⟩ := method
  unfold object entryLines
  cases assignments with
  | nil =>
    refine ⟨"\x7d" ++ back, [], ?_, List.forall_mem_nil _⟩
    have hs : Single (front ++ "\x7b\x7d" ++ back) := .append (.append hf (by decide)) hb
    have he : front ++ "\x7b\x7d" ++ back = front ++ "\x7b" ++ ("\x7d" ++ back) := by
      have ho : "\x7b\x7d" = "\x7b" ++ "\x7d" := rfl
      simp only [ho, String.append_assoc]
    rw [List.isEmpty_nil, if_pos rfl, hs.lines_eq, he]
    rfl
  | cons first rest =>
    refine ⟨"", [("\x7d" ++ back).toList], ?_, ?_⟩
    · rw [List.isEmpty_cons, if_neg Bool.false_ne_true, lines_braces hf _ hb, List.map_cons,
        lines_intercalate, String.append_empty, ← List.map_cons, List.flatMap_map]
    · exact List.forall_mem_singleton.2 (closes_append back)

def heading (method : Method) : String :=
  match method.direction with
  | .deserialize => "public static deserialize(input: any): " ++ method.className ++ " "
  | .serialize => "public static serialize(input: " ++ method.className ++ "): object "

def opening (method : Method) : String :=
  match method.direction with
  | .deserialize => "return new " ++ method.className ++ "("
  | .serialize => "return "

theorem lines_render (h : method.Worded s) :
    ∃ rest closing,
      lines method.render.toList = (method.heading ++ "\x7b").toList ::
        (((method.opening ++ "\x7b" ++ rest).toList ::
          (method.entryLines.map (indentLine 2) ++ closing)).map (indentLine 2) ++
            ["\x7d".toList]) ∧
      ∀ line ∈ closing, Closes line := by
  have hc := (s.wordy_className h.className).quiet.single
  have hh : Single method.heading := by
    unfold heading
    split <;> exact .append (.append (by decide) hc) (by decide)
  have ho : Single method.opening := by
    unfold opening
    split
    next => exact .append (.append (by decide) hc) (by decide)
    next => decide
  have hr : ∃ back, Single back ∧ method.render =
      method.heading ++ braces (method.opening ++ object method.assignments ++ back) ++ "" := by
    unfold render heading opening
    cases method.direction with
    | deserialize => exact ⟨")", by decide, by rw [String.append_empty]⟩
    | serialize => exact ⟨"", by decide, by rw [String.append_empty, String.append_empty]⟩
  obtain ⟨back, hb, hr⟩ := hr
  obtain ⟨rest, closing, hl, ha⟩ := lines_object ho hb method
  refine ⟨rest, closing, ?_, ha⟩
  rw [hr, lines_braces hh _ (by decide), hl, String.append_empty]

end Method

theorem flush_of_word {name : String} (h : Word name) : Flush name.toList := by
  cases hc : name.toList with
  | nil => exact absurd (String.toList_eq_nil_iff.1 hc) h.ne_empty
  | cons c rest =>
    have hw := h.wordy c (hc ▸ List.mem_cons_self)
    refine ⟨c, rfl, ?_⟩
    obtain hw | rfl := hw
    · exact isBlank_of_isWordChar hw
    · decide

theorem Property.flush {property : Property} (h : property.Worded) :
    Flush property.text.toList := by
  unfold text
  rw [String.append_assoc, String.append_assoc, String.toList_append]
  exact (flush_of_word h.name).append _

namespace ClassDeclaration

theorem lines_lineEach {α : Type} {line : α → String} {items : List α}
    (h : ∀ item ∈ items, Single (line item)) (rest : String) :
    lines (lineEach line items ++ rest).toList =
      (items.map fun item => (line item).toList) ++ lines rest.toList := by
  unfold lineEach
  induction items with
  | nil => rw [List.map_nil, List.map_nil, String.join_nil, String.empty_append, List.nil_append]
  | cons item others ih =>
    obtain ⟨hi, ho⟩ := List.forall_mem_cons.1 h
    rw [List.map_cons, String.join_cons, String.append_assoc, hi.lines_below, ih ho, List.map_cons,
      List.cons_append]

def keptLines (declaration : ClassDeclaration) : List (List Char) :=
  if declaration.properties.isEmpty then ["/* noop */".toList]
  else declaration.properties.map fun property =>
    ("this." ++ property.name ++ " = input." ++ property.name).toList

variable {own : ClassDeclaration}

theorem lines_kept (h : own.Worded s) (rest : String) :
    lines ((if own.properties.isEmpty then "    /* noop */\n"
      else lineEach (fun property => "    this." ++ property.name ++ " = input." ++ property.name)
        own.properties) ++ rest).toList =
      own.keptLines.map (indentLine 4) ++ lines rest.toList := by
  unfold keptLines
  split
  next =>
    have hs : Single "    /* noop */" := by decide
    have hr : "    /* noop */\n" ++ rest = "    /* noop */" ++ "\n" ++ rest := rfl
    rw [hr, hs.lines_below]
    rfl
  next =>
    have hk : ∀ property ∈ own.properties,
        Single ("    this." ++ property.name ++ " = input." ++ property.name) := by
      intro property hm
      have hn := (h.properties property hm).name.wordy.quiet.single
      exact .append (.append (.append (by decide) hn) (by decide)) hn
    rw [lines_lineEach hk, List.map_map]
    congr 1
    refine List.map_congr_left fun property _ => ?_
    simp only [Function.comp_apply, String.append_assoc]
    exact toList_indented (by decide) (by decide) _

def headLines (declaration : ClassDeclaration) : List (List Char) :=
  ("export class " ++ declaration.name ++ " implements " ++ declaration.interface ++
      " \x7b").toList ::
    indentLine 2 ("public static FQN = '" ++ declaration.fullName ++ "'").toList ::
    ((declaration.properties.map fun property =>
      indentLine 2 ("public readonly " ++ property.text).toList) ++ [[]])

def constructorLine (declaration : ClassDeclaration) : List Char :=
  ("constructor(input: Partial<" ++ declaration.interface ++ ">) \x7b").toList

/-- The lines of a class up to the first line of a method that it holds. -/
def frontLines (declaration : ClassDeclaration) : List (List Char) :=
  declaration.headLines ++ indentLine 2 declaration.constructorLine ::
    (declaration.keptLines.map (indentLine 4) ++ indentLine 2 "\x7d".toList :: [[]])

theorem lines_render (h : own.Worded s) :
    lines own.render.toList = own.frontLines ++
      ((lines own.deserializer.render.toList).map (indentLine 2) ++ [] ::
        ((lines own.serializer.render.toList).map (indentLine 2) ++ ["\x7d".toList])) := by
  have hp : ∀ property ∈ own.properties, Single ("  public readonly " ++ property.text) :=
    fun property hm => .append (by decide) (Property.single (h.properties property hm))
  have hc : Single ("export class " ++ own.name ++ " implements " ++ own.interface ++ " \x7b") :=
    .append (.append (.append (.append (by decide) (s.wordy_className h.name).quiet.single) (by decide))
      (s.wordy_className h.interface).quiet.single) (by decide)
  have hf : Single ("  public static FQN = '" ++ own.fullName ++ "'") :=
    .append (.append (by decide) h.fullName.quiet.single) (by decide)
  have hi : Single ("  constructor(input: Partial<" ++ own.interface ++ ">) \x7b") :=
    .append (.append (by decide) (s.wordy_className h.interface).quiet.single) (by decide)
  have he : Single "" := by decide
  have hb : Single "  \x7d" := by decide
  have hl : Single "\x7d" := by decide
  have hs : own.render =
      ("export class " ++ own.name ++ " implements " ++ own.interface ++ " \x7b") ++ "\n" ++
      (("  public static FQN = '" ++ own.fullName ++ "'") ++ "\n" ++
      (lineEach (fun property => "  public readonly " ++ property.text) own.properties ++
      ("" ++ "\n" ++ (("  constructor(input: Partial<" ++ own.interface ++ ">) \x7b") ++ "\n" ++
      ((if own.properties.isEmpty then "    /* noop */\n"
        else lineEach (fun property => "    this." ++ property.name ++ " = input." ++ property.name)
          own.properties) ++
      ("  \x7d" ++ "\n" ++ ("" ++ "\n" ++ (indent own.deserializer.render ++ "\n" ++ ("" ++ "\n" ++
      (indent own.serializer.render ++ "\n" ++ "\x7d")))))))))) := by
    have h1 : " \x7b\n" = " \x7b" ++ "\n" := rfl
    have h2 : "'\n" = "'" ++ "\n" := rfl
    have h3 : "\n  constructor(input: Partial<" = "\n" ++ "  constructor(input: Partial<" := rfl
    have h4 : ">) \x7b\n" = ">) \x7b" ++ "\n" := rfl
    have h5 : "  \x7d\n\n" = "  \x7d" ++ ("\n" ++ "\n") := rfl
    have h6 : "\n\n" = "\n" ++ "\n" := rfl
    have h7 : "\n\x7d" = "\n" ++ "\x7d" := rfl
    unfold render
    simp only [h1, h2, h3, h4, h5, h6, h7, String.append_assoc, String.empty_append]
  have hx : ("  public static FQN = '" ++ own.fullName ++ "'").toList =
      indentLine 2 ("public static FQN = '" ++ own.fullName ++ "'").toList := by
    simp only [String.append_assoc]
    exact toList_indented (by decide) (by decide) _
  have hy : ("  constructor(input: Partial<" ++ own.interface ++ ">) \x7b").toList =
      indentLine 2 ("constructor(input: Partial<" ++ own.interface ++ ">) \x7b").toList := by
    simp only [String.append_assoc]
    exact toList_indented (by decide) (by decide) _
  have hz : ∀ property ∈ own.properties, ("  public readonly " ++ property.text).toList =
      indentLine 2 ("public readonly " ++ property.text).toList :=
    fun property _ => toList_indented (by decide) (by decide) _
  rw [hs, hc.lines_below, hf.lines_below, lines_lineEach hp, he.lines_below, hi.lines_below,
    lines_kept h, hb.lines_below, he.lines_below, Layout.lines_below, lines_indent, he.lines_below,
    Layout.lines_below, lines_indent, hl.lines_eq, hx, hy, List.map_congr_left hz]
  simp only [frontLines, headLines, constructorLine, List.append_assoc, List.cons_append,
    List.nil_append]
  rfl

end ClassDeclaration

namespace Method

variable {method : Method}

theorem flush_heading (method : Method) : Flush (method.heading ++ "\x7b").toList := by
  unfold heading
  split
  all_goals
    simp only [String.append_assoc]
    exact flush_append (by decide) _

theorem flush_opening (method : Method) (rest : String) :
    Flush (method.opening ++ "\x7b" ++ rest).toList := by
  unfold opening
  split
  all_goals
    simp only [String.append_assoc]
    exact flush_append (by decide) _

/-- The lines of a method in its class. -/
theorem lines_within (h : method.Worded s) :
    ∃ (rest : String) (closing : List (List Char)),
      (lines method.render.toList).map (indentLine 2) =
        indentLine 2 (method.heading ++ "\x7b").toList ::
          indentLine 4 (method.opening ++ "\x7b" ++ rest).toList ::
            (method.entryLines.map (indentLine 6) ++
              (closing.map (indentLine 4) ++ [indentLine 2 "\x7d".toList])) ∧
      ∀ line ∈ closing, Closes line := by
  obtain ⟨rest, closing, hl, hc⟩ := lines_render h
  have hi : ∀ outer inner, indentLine outer ∘ indentLine inner = indentLine (outer + inner) :=
    fun outer inner => funext (indentLine_indentLine outer inner)
  refine ⟨rest, closing, ?_, hc⟩
  rw [hl]
  simp only [List.map_cons, List.map_append, List.map_map, List.map_nil, hi, indentLine_indentLine,
    List.cons_append, List.append_assoc]

end Method

namespace ClassDeclaration

theorem flush_kept (own : ClassDeclaration) : ∀ line ∈ own.keptLines, Flush line := by
  unfold keptLines
  split
  next => exact List.forall_mem_singleton.2 (by decide)
  next =>
    refine List.forall_mem_map.2 fun property _ => ?_
    simp only [String.append_assoc]
    exact flush_append (by decide) _

theorem flush_constructorLine (own : ClassDeclaration) : Flush own.constructorLine := by
  unfold constructorLine
  simp only [String.append_assoc]
  exact flush_append (by decide) _

end ClassDeclaration

end AvroBindings
