import AvroBindings.Proofs.Code.Mentions
import AvroBindings.Proofs.Schema.Words

/-! Generated code that is made of words. Where the definitions that a type leads to are made of
words, so is all that is generated for the type: the names in its type expression, and what its
conversions call, test and access. -/

namespace AvroBindings

theorem Role.word (role : Role) : Word role.name := by
  cases role <;> exact word_of_isDotted (by decide)

/-- What the names of fields and those of classes are made of: words, in any case. -/
structure Spelling where
  field : String → Prop
  className : String → Prop
  wordy_field : ∀ {name}, field name → Wordy name
  wordy_className : ∀ {name}, className name → Wordy name

namespace Spelling

def loose : Spelling := ⟨Wordy, Wordy, id, id⟩

/-- Fields have identifiers for names, so that an access to one is nothing else. -/
def strict : Spelling :=
  ⟨fun name => isIdentifier name.toList, Word, fun h => (word_of_isIdentifier h).wordy, Word.wordy⟩

end Spelling

def TypeExpr.Worded (type : TypeExpr) : Prop :=
  ∀ mention ∈ type.mentions, Wordy mention.name.text

def Tag.Worded : Tag → Prop
  | fullName className => Wordy className
  | literal text => Wordy text

section Spelled

variable (s : Spelling)

def Test.Worded : Test → Prop
  | hasType name => Wordy name
  | isInstance className => s.className className
  | isOneOf symbols => ∀ symbol ∈ symbols, Wordy symbol
  | _ => True

/-- The words in an access to a field, or to a variable of a conversion. -/
def Access.Worded : Access → Prop
  | given _ => False
  | field name => s.field name
  | bound binding => ∃ depth : Nat, binding.depth = depth
  | tagged access tag => access.Worded ∧ tag.Worded

mutual
def Conversion.Worded : Conversion → Prop
  | .same access => access.Worded s
  | .call className _ access => Wordy className ∧ access.Worded s
  | .elements access element _ body =>
    access.Worded s ∧ (∃ depth : Nat, element.depth = depth) ∧ body.Worded
  | .entries access depth type body =>
    access.Worded s ∧ (∃ own : Nat, depth = own) ∧ type.Worded ∧ body.Worded
  | .dispatch _ branches => Branch.WordedAll branches

def Branch.WordedAll : List Branch → Prop
  | [] => True
  | branch :: rest => branch.Worded ∧ Branch.WordedAll rest

def Branch.Worded : Branch → Prop
  | .mk access test answer => access.Worded s ∧ test.Worded s ∧ answer.Worded

def Answer.Worded : Answer → Prop
  | .undefined | .null => True
  | .value conversion => conversion.Worded
  | .wrapped tag conversion => tag.Worded ∧ conversion.Worded
end

end Spelled

variable {s : Spelling}

theorem Branch.wordedAll_iff {branches : List Branch} :
    WordedAll s branches ↔ ∀ branch ∈ branches, branch.Worded s := by
  induction branches with
  | nil => simp [WordedAll]
  | cons branch rest ih => simp [WordedAll, ih]

theorem TypeExpr.worded_named {name : Json} (h : Wordy name.text) : (named name).Worded :=
  List.forall_mem_singleton.2 h

/-- Texts that type expressions of words are put together from, each of them one as well. -/
structure TypeExpr.Composes (texts : String → Prop) : Prop where
  wordy {text : String} (h : Wordy text) : texts text
  union {parts : List String} (h : ∀ part ∈ parts, texts part) : texts (" | ".intercalate parts)
  grouped {text : String} (h : texts text) : texts ("(" ++ text ++ ")[]")
  array {text : String} (h : texts text) : texts (text ++ "[]")
  index {text : String} (h : texts text) : texts ("\x7b [index:string]: " ++ text ++ " \x7d")

mutual
theorem TypeExpr.Composes.render {texts : String → Prop} (hc : Composes texts) (type : TypeExpr)
    (h : type.Worded) : texts type.render := by
  cases type with
  | builtin type => cases type <;> exact hc.wordy (wordy_of_isDotted (by decide))
  | named name => exact hc.wordy (h (.type name) List.mem_cons_self)
  | union alternatives =>
    rw [render_union]
    exact hc.union (List.forall_mem_map.2 (TypeExpr.Composes.render_each hc alternatives h))
  | array item =>
    have hi := TypeExpr.Composes.render hc item h
    rw [render_array]
    split
    next => exact hc.grouped hi
    next => exact hc.array hi
  | index value => exact hc.index (TypeExpr.Composes.render hc value h)
  | any => exact hc.wordy (wordy_of_isDotted (by decide))

theorem TypeExpr.Composes.render_each {texts : String → Prop} (hc : Composes texts)
    (types : List TypeExpr)
    (h : ∀ mention ∈ TypeExpr.mentionsAll types, Wordy mention.name.text) :
    ∀ type ∈ types, texts type.render := by
  cases types with
  | nil => simp
  | cons type rest =>
    have ht := TypeExpr.Composes.render hc type fun mention hm => h mention (List.mem_append_left _ hm)
    have hr := TypeExpr.Composes.render_each hc rest
      fun mention hm => h mention (List.mem_append_right _ hm)
    exact List.forall_mem_cons.2 ⟨ht, hr⟩
end

def Definition.Spelled (s : Spelling) (options : Options) : Definition → Prop
  | enum _ => True
  | record own =>
    ∀ name, own.attributes.qualifiedDeclarationName options = .ok name → s.className name.text

namespace Definition.Worded

variable {definition : Definition} {options : Options}

theorem spelled_loose (h : definition.Worded) : definition.Spelled .loose options := by
  cases definition with
  | enum own => trivial
  | record own => exact fun name hn => h.attributes.wordy_qualifiedDeclarationName hn

theorem type (h : definition.Worded) {type : TypeExpr}
    (ht : TypeExpr.ofDefinition options definition = .ok type) : type.Worded := by
  cases definition with
  | enum own =>
    obtain ⟨name, hn, rfl⟩ := Traversal.map_eq_ok_iff.1 ht
    exact TypeExpr.worded_named (h.attributes.wordy_qualifiedDeclarationName hn)
  | record own =>
    obtain ⟨name, hn, rfl⟩ := Traversal.map_eq_ok_iff.1 ht
    exact TypeExpr.worded_named (h.attributes.wordy_qualifiedInterfaceName hn)

theorem tag (h : definition.Worded) {tag : Tag}
    (ht : Tag.ofDefinition options definition = .ok tag) : tag.Worded := by
  cases definition with
  | enum own =>
    obtain ⟨name, hn, rfl⟩ := Traversal.map_eq_ok_iff.1 ht
    exact h.attributes.wordy_qualifiedName hn
  | record own =>
    obtain ⟨name, hn, rfl⟩ := Traversal.map_eq_ok_iff.1 ht
    exact h.attributes.wordy_qualifiedDeclarationName hn

theorem test (h : definition.Worded) (hc : definition.Spelled s options) {test : Test}
    (ht : Test.ofDefinition options definition = .ok test) : test.Worded s := by
  cases definition with
  | enum own =>
    obtain ⟨symbols, hs, rfl⟩ := Traversal.map_eq_ok_iff.1 ht
    have hw := h.2
    rw [Enum.symbolTexts, hs] at hw
    exact fun symbol hm => (hw symbol hm).wordy
  | record own =>
    obtain ⟨name, hn, rfl⟩ := Traversal.map_eq_ok_iff.1 ht
    exact hc name hn

theorem conversion (h : definition.Worded) {direction : Direction} {access : Access}
    (ha : access.Worded s) {conversion : Conversion}
    (hc : Conversion.ofDefinition direction options access definition = .ok conversion) :
    conversion.Worded s := by
  cases definition with
  | enum own =>
    rw [Conversion.ofDefinition_enum] at hc
    cases hc
    exact ha
  | record own =>
    rw [Conversion.ofDefinition_record] at hc
    obtain ⟨name, hn, rfl⟩ := Traversal.map_eq_ok_iff.1 hc
    exact ⟨h.attributes.wordy_qualifiedDeclarationName hn, ha⟩

end Definition.Worded

variable {context : Context}

def Schema.Worded (context : Context) (schema : Schema) : Prop :=
  ∀ node ∈ schema.constituents, ∀ definition, context.Leads node definition → definition.Worded

namespace Schema.Worded

variable {schema : Schema}

theorem operand (h : schema.Worded context) {operand : Schema} (ho : operand ∈ schema.operands) :
    operand.Worded context :=
  fun node hn => h node (constituents_of_operand ho hn)

theorem leads (h : schema.Worded context) {definition : Definition}
    (hl : context.Leads schema definition) : definition.Worded :=
  h schema schema.self_mem_constituents definition hl

theorem of_operands (hd : context.definition? schema = none)
    (ho : ∀ operand ∈ schema.operands, operand.Worded context) : schema.Worded context := by
  intro node hn definition hl
  obtain rfl | ⟨operand, hm, hn⟩ := mem_constituents.1 hn
  · exact absurd hl (Context.not_leads hd)
  · exact ho operand hm node hn definition hl

theorem primitive (name : Primitive) (wrapper : Option Attributes) :
    (Schema.primitive name wrapper).Worded context :=
  .of_operands rfl (List.forall_mem_nil _)

theorem union {alternatives : List Schema}
    (h : ∀ alternative ∈ alternatives, alternative.Worded context) :
    (Schema.union alternatives).Worded context :=
  .of_operands rfl h

theorem array {before after : Attributes} {items : Schema} (h : items.Worded context) :
    (Schema.array before (some items) after).Worded context :=
  .of_operands rfl (List.forall_mem_singleton.2 h)

theorem map {before after : Attributes} {values : Schema} (h : values.Worded context) :
    (Schema.map before (some values) after).Worded context :=
  .of_operands rfl (List.forall_mem_singleton.2 h)

theorem of_resolve {name : String} {definition : Definition}
    (hr : context.resolve (.str name) = .ok definition) (h : definition.Worded) :
    (Schema.reference name).Worded context := by
  intro node hn other hl
  rw [constituents_leaf rfl, List.mem_singleton] at hn
  subst hn
  rwa [hl.unique (.reference name definition hr)]

end Schema.Worded

/-- Whatever definition is met below a type is made of words that are spelled so. -/
def Schema.WordedBy (s : Spelling) (context : Context) (schema : Schema) : Prop :=
  ∀ node ∈ schema.constituents, ∀ definition, context.Leads node definition →
    definition.Worded ∧ definition.Spelled s context.options

namespace Schema.WordedBy

variable {schema : Schema}

theorem worded (h : schema.WordedBy s context) : schema.Worded context :=
  fun node hn definition hl => (h node hn definition hl).1

theorem operand (h : schema.WordedBy s context) {operand : Schema}
    (ho : operand ∈ schema.operands) : operand.WordedBy s context :=
  fun node hn => h node (constituents_of_operand ho hn)

theorem leads (h : schema.WordedBy s context) {definition : Definition}
    (hl : context.Leads schema definition) :
    definition.Worded ∧ definition.Spelled s context.options :=
  h schema schema.self_mem_constituents definition hl

end Schema.WordedBy

theorem Schema.Worded.loose {schema : Schema} (h : schema.Worded context) :
    schema.WordedBy .loose context :=
  fun node hn definition hl => ⟨h node hn definition hl, (h node hn definition hl).spelled_loose⟩

theorem TypeExpr.worded_ofSchema {schema : Schema} (h : schema.Worded context) {type : TypeExpr}
    (ht : ofSchema context schema = .ok type) : type.Worded := by
  induction ht using formed_induction with
  | primitive name wrapper => exact List.forall_mem_nil _
  | definition node definition type ht hl hd => exact (h.leads hl).type hd
  | union alternatives types ht hs ih =>
    intro mention hm
    obtain ⟨type, ho, hm⟩ := mem_mentionsAll.1 hm
    obtain ⟨alternative, ha, ho⟩ := Traversal.of_mem_mapM hs ho
    exact ih alternative ha type ho (h.operand ha) mention hm
  | array before items after item ht hi ih => exact ih (h.operand (by simp))
  | map before values after value ht hv ih => exact ih (h.operand (by simp))

theorem TypeExpr.worded_ofProperty {schema : Schema} (h : schema.Worded context) {type : TypeExpr}
    (ht : ofProperty context schema = .ok type) : type.Worded := by
  unfold ofProperty at ht
  split at ht
  next first second rest =>
    split at ht
    next =>
      have hr : ∀ other ∈ second :: rest, other.Worded context :=
        fun other ho => h.operand (List.mem_cons_of_mem first ho)
      exact worded_ofSchema (.union hr) ht
    next => exact worded_ofSchema h ht
  next => exact worded_ofSchema h ht

theorem Tag.worded_ofSchema {schema : Schema} (h : schema.Worded context) {tag : Tag}
    (ht : ofSchema context schema = .ok tag) : tag.Worded := by
  cases forms ht with
  | definition _ definition _ hl hd => exact (h.leads hl).tag (Tag.choice_ofDefinition ▸ hd)
  | primitive name => cases name <;> exact wordy_of_isDotted (by decide)
  | array => exact wordy_of_isDotted (by decide)
  | map => exact wordy_of_isDotted (by decide)

theorem Test.worded_ofSchema {schema : Schema} (h : schema.WordedBy s context) {test : Test}
    (ht : ofSchema context schema = .ok test) : test.Worded s := by
  cases forms ht with
  | definition _ definition _ hl hd =>
    exact (h.leads hl).1.test (h.leads hl).2 (Test.choice_ofDefinition ▸ hd)
  | primitive name => cases name <;> first | trivial | exact wordy_of_isDotted (by decide)
  | array => trivial
  | map => trivial

theorem TypeExpr.worded_entriesType {values : Schema} (h : values.Worded context)
    {direction : Direction} {type : TypeExpr}
    (ht : Conversion.entriesType context values direction = .ok type) : type.Worded := by
  cases direction with
  | deserialize =>
    obtain ⟨value, hv, rfl⟩ := Traversal.map_eq_ok_iff.1 ht
    have hw : value.Worded := worded_ofSchema h hv
    exact hw
  | serialize =>
    cases ht
    exact List.forall_mem_nil _

namespace Branch

variable {direction : Direction} {access : Access}

theorem worded_ofNull (ha : access.Worded s) (direction : Direction) (optional : Bool) :
    (ofNull direction optional access).Worded s := by
  cases direction <;> cases optional <;> exact ⟨ha, trivial, trivial⟩

theorem worded_of_nullBranches (ha : access.Worded s) {optional : Bool}
    {alternatives : List Schema} :
    ∀ branch ∈ nullBranches direction optional access alternatives, branch.Worded s := by
  unfold nullBranches
  split
  next => exact List.forall_mem_singleton.2 (worded_ofNull ha direction optional)
  next => exact List.forall_mem_nil _

end Branch

namespace Conversion

/-- A value that is accessed by words is converted by words. -/
def KeepsWords (s : Spelling) (direction : Direction) (context : Context) (schema : Schema) :
    Prop :=
  ∀ access (depth : Nat) optional conversion, Access.Worded s access →
    ofSchema direction context schema access depth optional = .ok conversion →
    conversion.Worded s

end Conversion

theorem Branch.worded_ofAlternative {direction : Direction} {alternative : Schema}
    (h : alternative.WordedBy s context)
    (hk : Conversion.KeepsWords s direction context alternative) {access : Access}
    (ha : access.Worded s) {depth : Nat} {branch : Branch}
    (hb : ofAlternative direction context access depth alternative = .ok branch) :
    branch.Worded s := by
  cases hb using formed_cases with
  | deserialize tag conversion hb ht hc =>
    have ht : (access.tagged tag).Worded s := ⟨ha, Tag.worded_ofSchema h.worded ht⟩
    exact ⟨ht, trivial, hk _ _ _ _ ht hc⟩
  | serialize test tag conversion hb hs ht hc =>
    exact ⟨ha, Test.worded_ofSchema h hs, Tag.worded_ofSchema h.worded ht, hk _ _ _ _ ha hc⟩

theorem Conversion.keepsWords (direction : Direction) {schema : Schema}
    (h : schema.WordedBy s context) : KeepsWords s direction context schema := by
  intro access depth optional conversion ha hc
  generalize hd : (depth : Int) = level at hc
  induction hc using formed_induction generalizing depth with
  | primitive => exact ha
  | definition node definition access level optional conversion hc hl ho =>
    exact (h.leads hl).1.conversion ha ho
  | array before items after access level optional body hc hb ih =>
    exact ⟨ha, ⟨depth, hd.symm⟩, ih (h.operand (by simp)) (depth + 1) ⟨depth, hd.symm⟩
      (by rw [← hd, Int.natCast_succ])⟩
  | map before values after access level optional type body hc hb ht ih =>
    have hv : values.WordedBy s context := h.operand (by simp)
    exact ⟨ha, ⟨depth, hd.symm⟩, TypeExpr.worded_entriesType hv.worded ht,
      ih hv (depth + 1) ⟨depth, hd.symm⟩ (by rw [← hd, Int.natCast_succ])⟩
  | single only access level optional conversion hc ho ih =>
    exact ih (h.operand (by simp)) depth ha hd
  | union alternatives access level optional branches hc hl hb ih =>
    subst hd
    refine Branch.wordedAll_iff.2 (List.forall_mem_append.2
      ⟨Branch.worded_of_nullBranches ha, fun branch hm => ?_⟩)
    obtain ⟨alternative, hn, hs⟩ := Traversal.of_mem_mapM hb hm
    have ho := (Schema.mem_nonNull.1 hn).1
    have hk : KeepsWords s direction context alternative :=
      fun _ depth _ _ ha hc => ih alternative ho _ _ _ _ hc (h.operand ho) depth ha rfl
    exact Branch.worded_ofAlternative (h.operand ho) hk ha hs

end AvroBindings
