import AvroBindings.Proofs.Code.Fields
import AvroBindings.Proofs.Text.Reader

/-! Reading the code of type expressions, conversions and declarations that are made of words.
Whatever stands around it, it closes all it opens, and none of its lines goes on from the one before.
Each declaration can begin a line, and ends inside of a line. -/

namespace AvroBindings

open Reader

variable {s : Spelling}

namespace Layout

variable {body message : String} {branches : List (String × String)}

theorem inline_braces (h : Begins 1 body) : Inline (braces body) :=
  fun _ => .append (.append rfl (reads_indent.2 (h _))) rfl

theorem inline_selfExecuting (h : Begins 1 body) : Inline (selfExecuting body) :=
  fun _ => .append (.append rfl (inline_braces h _)) rfl

/-- A condition that can be read inside of brackets, with a body that begins a line. -/
def ReadsWell (branch : String × String) : Prop := Inline branch.1 ∧ Begins 1 branch.2

theorem reads_branch {branch : String × String} (h : ReadsWell branch) {before : Reader}
    {pending : List Char} (hb : Reads "if (" before ⟨')' :: pending, .inside⟩) :
    Reads ("if (" ++ branch.1 ++ ") " ++ braces branch.2) before ⟨pending, .inside⟩ :=
  .append (.append (.append hb (h.1 _)) rfl) (inline_braces h.2 pending)

theorem begins_dispatch (h : ∀ branch ∈ branches, ReadsWell branch) (hm : Inline message) :
    Begins 1 (conditional branches ++ "\nthrow new TypeError('" ++ message ++ "')") := by
  intro pending
  cases branches with
  | nil => exact .append (.append rfl (hm _)) rfl
  | cons first rest =>
    obtain ⟨hf, hr⟩ := List.forall_mem_cons.1 h
    have hb : Reads ("if (" ++ first.1 ++ ") " ++ braces first.2) ⟨pending, .start 1⟩
        ⟨pending, .inside⟩ := reads_branch hf rfl
    have hs : Reads " else " ⟨pending, .inside⟩ ⟨pending, .inside⟩ := rfl
    have hc := reads_intercalate hb hs
      (List.forall_mem_map.2 fun branch hm => reads_branch (hr branch hm) rfl)
    exact .append (.append (.append hc rfl) (hm _)) rfl

theorem inline_dispatch (h : ∀ branch ∈ branches, ReadsWell branch) (hm : Inline message) :
    Inline (dispatch branches message) :=
  inline_selfExecuting (begins_dispatch h hm)

end Layout

theorem inline_toString (depth : Int) : Inline (toString depth) := by
  cases depth with
  | ofNat n => exact (wordy_repr n).inline
  | negSucc n => exact fun pending => .append rfl ((wordy_repr (n + 1)).inline pending)

theorem Binding.inline_depth (binding : Binding) :
    Inline (if binding.depth = 0 then "" else toString binding.depth) := by
  split
  next => exact fun _ => rfl
  next => exact inline_toString binding.depth

theorem Binding.reads_text (binding : Binding) (reader : Reader) :
    Reads binding.text reader ⟨reader.pending, .inside⟩ :=
  .append (reads_word binding.role.word reader) (binding.inline_depth _)

theorem Binding.inline (binding : Binding) : Inline binding.text :=
  fun pending => binding.reads_text ⟨pending, .inside⟩

theorem TypeExpr.composes_inline : Composes Inline where
  wordy h := h.inline
  union h := by
    have hs : Inline " | " := fun _ => rfl
    exact hs.intercalate h
  grouped h _ := .append (.append rfl (h _)) rfl
  array h _ := .append (h _) rfl
  index h _ := .append (.append rfl (h _)) rfl

theorem TypeExpr.inline (type : TypeExpr) (h : type.Worded) : Inline type.render :=
  composes_inline.render type h

theorem Tag.inline {tag : Tag} (h : tag.Worded) : Inline tag.text := by
  cases tag with
  | fullName className => exact fun _ => .append (h.inline _) rfl
  | literal text => exact fun _ => .append (.append rfl (h.inline _)) rfl

theorem Tag.inline_key {tag : Tag} (h : tag.Worded) : Inline tag.key := by
  cases tag with
  | fullName className =>
    exact fun _ => .append (.append rfl (@Tag.inline (.fullName className) h _)) rfl
  | literal text => exact @Tag.inline (.literal text) h

theorem Access.inline {access : Access} (h : access.Worded s) : Inline access.text := by
  induction access with
  | given text => cases h
  | field name => exact fun _ => .append rfl ((s.wordy_field h).inline _)
  | bound binding => exact binding.inline
  | tagged access tag ih =>
    exact fun _ => .append (.append (.append (ih h.1 _) rfl) (Tag.inline h.2 _)) rfl

theorem inline_quoted {words : List String} (h : ∀ word ∈ words, Wordy word) {separator : String}
    (hs : Inline separator) :
    Inline (separator.intercalate (words.map fun word => "'" ++ word ++ "'")) :=
  hs.intercalate <| List.forall_mem_map.2 fun word hm _ =>
    .append (.append rfl ((h word hm).inline _)) rfl

theorem Test.inline {test : Test} (h : test.Worded s) {value : String} (hv : Inline value) :
    Inline (test.text value) := by
  cases test with
  | isNull => exact fun _ => .append (hv _) rfl
  | isNullOrUndefined => exact fun _ => .append (hv _) rfl
  | isDefined => exact fun _ => .append (hv _) rfl
  | hasType name =>
    exact fun _ => .append (.append (.append (.append rfl (hv _)) rfl) (Wordy.inline h _)) rfl
  | isInteger => exact fun _ => .append (.append rfl (hv _)) rfl
  | isBuffer => exact fun _ => .append (.append rfl (hv _)) rfl
  | isArray => exact fun _ => .append (.append rfl (hv _)) rfl
  | isInstance className => exact fun _ => .append (.append (hv _) rfl) ((s.wordy_className h).inline _)
  | isOneOf symbols =>
    have hs := @inline_quoted symbols h ", " fun _ => rfl
    exact fun _ => .append (.append (.append (.append (.append (.append rfl (hv _)) rfl)
      (hs _)) rfl) (hv _)) rfl
  | isPlainObject =>
    exact fun _ => .append (.append (.append (.append (.append (.append rfl (hv _)) rfl)
      (hv _)) rfl) (hv _)) rfl

namespace Conversion

variable {access : Access}

theorem inline_call (h : Inline access.text) {className : String} (hc : Wordy className)
    (direction : Direction) : Inline (call className direction access).render := by
  cases direction <;>
    exact fun _ => .append (.append (.append (.append (.append (hc.inline _) rfl) rfl) rfl) (h _))
      rfl

theorem inline_elements (h : Inline access.text) (element : Binding) (braced : Bool)
    {body : Conversion} (hb : Inline body.render) :
    Inline (elements access element braced body).render := by
  have hr : Begins 1 ("return " ++ body.render) := fun _ => .append rfl (hb _)
  have hi : Inline (if braced then Layout.braces ("return " ++ body.render) else body.render) := by
    split
    next => exact Layout.inline_braces hr
    next => exact hb
  exact fun _ => .append (.append (.append (.append (.append (h _) rfl) (element.inline _)) rfl)
    (hi _)) rfl

theorem begins_entry {key value output body input : String} (hi : Inline input) (hk : Inline key)
    (hv : Inline value) (ho : ∀ reader, Reads output reader ⟨reader.pending, .inside⟩)
    (hb : Inline body) :
    Begins 1 ("const " ++ value ++ " = " ++ input ++ "[" ++ key ++ "]\n" ++ output ++ "[" ++ key ++
      "] = " ++ body) := by
  intro pending
  simp only [String.append_assoc]
  exact .append rfl <| .append (hv _) <| .append rfl <| .append (hi _) <| .append rfl <|
    .append (hk _) <| .append rfl <| .append (ho _) <| .append rfl <| .append (hk _) <|
    .append rfl (hb _)

theorem begins_entries {keys output key input type loop : String} (hs : Inline keys)
    (ho : Inline output) (hk : Inline key) (hi : Inline input) (ht : Inline type)
    (hl : Inline loop) :
    Begins 1 ("const " ++ keys ++ " = Object.keys(" ++ input ++ ")\n" ++
      "const " ++ output ++ ": " ++ type ++ " = \x7b\x7d\n" ++
      "for (const " ++ key ++ " of " ++ keys ++ ") " ++ loop ++ "\nreturn " ++ output) := by
  intro pending
  simp only [String.append_assoc]
  exact .append rfl <| .append (hs _) <| .append rfl <| .append (hi _) <| .append rfl <|
    .append rfl <| .append (ho _) <| .append rfl <| .append (ht _) <| .append rfl <|
    .append rfl <| .append (hk _) <| .append rfl <| .append (hs _) <| .append rfl <|
    .append (hl _) <| .append rfl (ho _)

theorem inline_entries (h : Inline access.text) (depth : Int) {type : TypeExpr}
    (ht : Inline type.render) {body : Conversion} (hb : Inline body.render) :
    Inline (entries access depth type body).render := by
  have hk := (Binding.mk .mapKey depth).inline
  have hl := begins_entry h hk (Binding.mk .mapValue depth).inline
    (Binding.mk .output depth).reads_text hb
  exact Layout.inline_selfExecuting <| begins_entries (Binding.mk .keys depth).inline
    (Binding.mk .output depth).inline hk h ht (Layout.inline_braces hl)

end Conversion

mutual
/-- The code of a conversion can be read wherever a value can stand. -/
theorem Conversion.inline (conversion : Conversion) (h : conversion.Worded s) :
    Inline conversion.render := by
  cases conversion with
  | same access => exact Access.inline h
  | call className direction access =>
    exact Conversion.inline_call (Access.inline h.2) h.1 direction
  | elements access element braced body =>
    exact Conversion.inline_elements (Access.inline h.1) element braced (body.inline h.2.2)
  | entries access depth type body =>
    exact Conversion.inline_entries (Access.inline h.1) depth (type.inline h.2.2.1)
      (body.inline h.2.2.2)
  | dispatch direction branches =>
    have hm : Inline direction.failure := by cases direction <;> exact fun _ => rfl
    exact Layout.inline_dispatch (Branch.readsWell_renderAll branches h) hm

theorem Branch.readsWell_renderAll (branches : List Branch) (h : Branch.WordedAll s branches) :
    ∀ branch ∈ Branch.renderAll branches, Layout.ReadsWell branch := by
  cases branches with
  | nil => exact List.forall_mem_nil _
  | cons branch rest =>
    exact List.forall_mem_cons.2
      ⟨branch.readsWell h.1, Branch.readsWell_renderAll rest h.2⟩

theorem Branch.readsWell (branch : Branch) (h : branch.Worded s) :
    Layout.ReadsWell branch.render := by
  obtain ⟨access, test, answer⟩ := branch
  obtain ⟨ha, ht, hb⟩ := h
  exact ⟨Test.inline ht (Access.inline ha), answer.begins hb⟩

theorem Answer.begins (answer : Answer) (h : answer.Worded s) : Begins 1 answer.render := by
  cases answer with
  | undefined => exact fun _ => rfl
  | null => exact fun _ => rfl
  | value conversion =>
    have hc := conversion.inline h
    exact fun _ => .append rfl (hc _)
  | wrapped tag conversion =>
    have hk := Tag.inline_key h.1
    have hc := conversion.inline h.2
    exact fun _ => .append (.append (.append (.append rfl (hk _)) rfl) (hc _)) rfl
end

open ClassDeclaration

theorem Property.reads_text (property : Property) (h : property.Worded) (reader : Reader) :
    Reads property.text reader ⟨reader.pending, .inside⟩ := by
  have hm : Inline (if property.optional then "?" else "") := by
    split <;> exact fun _ => rfl
  exact .append (.append (.append (reads_word h.name reader) (hm _)) rfl)
    (property.type.inline h.type _)

theorem Assignment.begins_text (assignment : Assignment) (h : assignment.Worded s) :
    Begins 1 assignment.text :=
  fun _ => .append (.append (.append (reads_word h.name _) rfl) (assignment.value.inline h.value _))
    rfl

namespace Method

theorem inline_object {assignments : List Assignment}
    (h : ∀ assignment ∈ assignments, Begins 1 assignment.text) : Inline (object assignments) := by
  unfold object
  cases assignments with
  | nil => exact fun _ => rfl
  | cons first rest =>
    obtain ⟨hf, hr⟩ := List.forall_mem_cons.1 h
    refine Layout.inline_braces fun pending => ?_
    have hs : Reads "\n" ⟨pending, .inside⟩ ⟨pending, .start 1⟩ := rfl
    exact reads_intercalate (hf pending) hs
      (List.forall_mem_map.2 fun assignment hm => hr assignment hm pending)

theorem begins_render {method : Method} (h : method.Worded s) : Begins 2 method.render := by
  have hc := s.wordy_className h.className
  have ho := inline_object fun assignment hm => assignment.begins_text (h.assignments assignment hm)
  unfold render
  cases method.direction with
  | deserialize =>
    have hb : Begins 1 ("return new " ++ method.className ++ "(" ++ object method.assignments ++
        ")") :=
      fun _ => .append (.append (.append (.append rfl (hc.inline _)) rfl) (ho _)) rfl
    exact fun _ => .append (.append (.append rfl (hc.inline _)) rfl) (Layout.inline_braces hb _)
  | serialize =>
    have hb : Begins 1 ("return " ++ object method.assignments) := fun _ => .append rfl (ho _)
    exact fun _ => .append (.append (.append rfl (hc.inline _)) rfl) (Layout.inline_braces hb _)

end Method

namespace ClassDeclaration

theorem reads_lineEach {α : Type} {line : α → String} {items : List α}
    (h : ∀ item ∈ items, Begins 1 (line item)) (pending : List Char) :
    Reads (lineEach line items) ⟨pending, .start 1⟩ ⟨pending, .start 1⟩ := by
  unfold lineEach
  induction items with
  | nil => rfl
  | cons item rest ih =>
    rw [List.map_cons, String.join_cons]
    exact .append (.append (h item List.mem_cons_self pending) rfl)
      (ih (List.forall_mem_cons.1 h).2)

theorem reads_constructor {properties : List Property}
    (h : ∀ property ∈ properties, property.Worded) (pending : List Char) :
    Reads (if properties.isEmpty then "    /* noop */\n"
      else lineEach (fun property => "    this." ++ property.name ++ " = input." ++ property.name)
        properties) ⟨pending, .start 1⟩ ⟨pending, .start 1⟩ := by
  split
  next => rfl
  next =>
    refine reads_lineEach (fun property hm => fun _ => ?_) pending
    have hn := (h property hm).name.wordy.inline
    exact .append (.append (.append rfl (hn _)) rfl) (hn _)

theorem begins_render {declaration : ClassDeclaration} (h : declaration.Worded s) :
    Begins 2 declaration.render := by
  have hn := s.wordy_className h.name
  have hi := s.wordy_className h.interface
  have hl : ∀ property ∈ declaration.properties,
      Begins 1 ("  public readonly " ++ property.text) :=
    fun property hm _ => .append rfl (property.reads_text (h.properties property hm) _)
  have hc := reads_constructor h.properties
  have hd := Method.begins_render (h.method .deserialize)
  have hs := Method.begins_render (h.method .serialize)
  intro pending
  unfold render
  simp only [String.append_assoc] at hc ⊢
  exact .append rfl <| .append (hn.inline _) <| .append rfl <| .append (hi.inline _) <|
    .append rfl <| .append rfl <| .append (h.fullName.inline _) <| .append rfl <|
    .append (reads_lineEach hl _) <| .append rfl <| .append (hi.inline _) <| .append rfl <|
    .append (hc _) <| .append rfl <| .append (reads_indent.2 (hd _)) <| .append rfl <|
    .append (reads_indent.2 (hs _)) rfl

end ClassDeclaration

namespace Declaration

theorem begins_interface {name : String} (hn : Wordy name) {properties : List Property}
    (hp : ∀ property ∈ properties, property.Worded) :
    Begins 2 (interface name properties).render := by
  have hl : ∀ property ∈ properties, Begins 1 ("  " ++ property.text) :=
    fun property hm _ => .append rfl (property.reads_text (hp property hm) _)
  exact fun _ => .append (.append (.append (.append rfl (hn.inline _)) rfl)
    (reads_lineEach hl _)) rfl

theorem begins_enumeration {name : String} (hn : Wordy name) {symbols : List String}
    (hs : ∀ symbol ∈ symbols, Word symbol) (constant : Bool) :
    Begins 2 (enumeration constant name symbols).render := by
  have hl : ∀ symbol ∈ symbols, Begins 1 ("  " ++ symbol ++ " = '" ++ symbol ++ "',") :=
    fun symbol hm _ => .append (.append (.append (.append rfl (reads_word (hs symbol hm) _)) rfl)
      ((hs symbol hm).wordy.inline _)) rfl
  have hc : Inline (if constant then "const " else "") := by
    split <;> exact fun _ => rfl
  exact fun _ => .append (.append (.append (.append (.append (.append rfl (hc _)) rfl)
    (hn.inline _)) rfl) (reads_lineEach hl _)) rfl

theorem begins_stringUnion {name : String} (hn : Wordy name) {symbols : List String}
    (hs : ∀ symbol ∈ symbols, Word symbol) : Begins 2 (stringUnion name symbols).render := by
  have hq := @inline_quoted symbols (fun symbol hm => (hs symbol hm).wordy) " | " fun _ => rfl
  exact fun _ => .append (.append (.append rfl (hn.inline _)) rfl) (hq _)

theorem begins {own : Declaration} (h : own.Worded s) : Begins 2 own.render := by
  cases own with
  | enumeration constant name symbols => exact begins_enumeration h.1 h.2 constant
  | stringUnion name symbols => exact begins_stringUnion h.1 h.2
  | interface name properties => exact begins_interface h.1 h.2
  | classOf declaration => exact ClassDeclaration.begins_render h

end Declaration

end AvroBindings
