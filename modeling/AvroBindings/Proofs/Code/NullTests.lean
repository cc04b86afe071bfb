import AvroBindings.Proofs.Code.Lines
import AvroBindings.Proofs.Text.Counting
import Mathlib.Algebra.BigOperators.Group.List.Basic

/-! Tests for null in the methods of a class. A value of a field may be missing where null comes
first in its type, and only there null is compared by two equals signs: the flag is lost below the
union of the field. -/

namespace AvroBindings

open Layout

variable {s : Spelling}

def Test.looseTests : Test → Nat
  | isNullOrUndefined => 1
  | _ => 0

mutual
def Conversion.looseTests : Conversion → Nat
  | .same _ | .call .. => 0
  | .elements _ _ _ body => body.looseTests
  | .entries _ _ _ body => body.looseTests
  | .dispatch _ branches => Branch.looseTestsAll branches

def Branch.looseTestsAll : List Branch → Nat
  | [] => 0
  | branch :: rest => branch.looseTests + Branch.looseTestsAll rest

def Branch.looseTests : Branch → Nat
  | .mk _ test answer => test.looseTests + answer.looseTests

def Answer.looseTests : Answer → Nat
  | .undefined | .null => 0
  | .value conversion => conversion.looseTests
  | .wrapped _ conversion => conversion.looseTests
end

theorem Branch.looseTestsAll_eq (branches : List Branch) :
    looseTestsAll branches = (branches.map looseTests).sum := by
  induction branches with
  | nil => rfl
  | cons branch rest ih => rw [looseTestsAll, ih, List.map_cons, List.sum_cons]

section Text

theorem Tag.quiet_key {tag : Tag} (h : tag.Worded) : Quiet tag.key := by
  cases tag with
  | fullName className => exact .append (.append (by decide) (Tag.quiet h)) (by decide)
  | literal text => exact Tag.quiet h

theorem Test.loose {test : Test} (h : test.Worded s) {value : String} (hv : Quiet value) :
    Loose test.looseTests (test.text value) := by
  have hl := hv.loose
  have ht : Loose 0 "typeof " := .of_code (by decide)
  cases test with
  | isNull => exact hl.append_code (.of_code (by decide))
  | isNullOrUndefined => exact hl.code_append (.of_code (by decide))
  | isDefined => exact hl.append_code (.of_code (by decide))
  | hasType name =>
    have hn : Quiet name := Wordy.quiet h
    exact .append_code (.append_code (.append_code (.append_code ht hl) (.of_code (by decide)))
      hn.loose) (.of_code (by decide))
  | isInteger =>
    have hq : Quiet ("Number.isInteger(" ++ value ++ ")") :=
      .append (.append (by decide) hv) (by decide)
    exact hq.loose
  | isBuffer =>
    have hq : Quiet ("Buffer.isBuffer(" ++ value ++ ")") :=
      .append (.append (by decide) hv) (by decide)
    exact hq.loose
  | isArray =>
    have hq : Quiet ("Array.isArray(" ++ value ++ ")") :=
      .append (.append (by decide) hv) (by decide)
    exact hq.loose
  | isInstance className =>
    have hq : Quiet (value ++ " instanceof " ++ className) :=
      .append (.append hv (by decide)) (s.wordy_className h).quiet
    exact hq.loose
  | isOneOf symbols =>
    have hs : Quiet (", ".intercalate (symbols.map fun symbol => "'" ++ symbol ++ "'")) := by
      have hc : Quiet ", " := by decide
      refine hc.intercalate (List.forall_mem_map.2 fun symbol hm => ?_)
      exact .append (.append (by decide) (Wordy.quiet (h symbol hm))) (by decide)
    exact .append_code (.append_code (.append_code (.append_code (.append_code (.append_code ht hl)
      (.of_code (by decide))) hs.loose) (.of_code (by decide))) hl) (.of_code (by decide))
  | isPlainObject =>
    exact .append_code (.append_code (.append_code (.append_code (.append_code (.append_code ht hl)
      (.of_code (by decide))) hl) (.of_code (by decide))) hl) (.of_code (by decide))

namespace Conversion

variable {access : Access} {body : Conversion} {count : Nat}

theorem loose_elements (ha : access.Worded s) (hb : Loose count body.render) (element : Binding)
    (braced : Bool) : Loose count (elements access element braced body).render := by
  have hf : Loose 0 (access.text ++ ".map((" ++ element.text ++ ": any) => ") :=
    .append_code (.append_code (.append_code (Access.quiet ha).loose (.of_code (by decide)))
      element.quiet.loose) (.of_code (by decide))
  refine .append_code (hf.code_append ?_) (.of_code (by decide))
  split
  next =>
    have hr : Loose 0 "return " := .of_code (by decide)
    exact (hr.code_append hb).braces
  next => exact hb

theorem loose_entries (ha : access.Worded s) {type : TypeExpr} (ht : type.Worded)
    (hb : Loose count body.render) (depth : Int) :
    Loose count (entries access depth type body).render := by
  have hv := fun role => (Binding.mk role depth).quiet.loose
  have ha := (Access.quiet ha).loose
  have ht := (TypeExpr.quiet type ht).loose
  -- the lines in the function and in its loop, each behind those above it
  have hk : Loose 0 ("const " ++ (Binding.mk .keys depth).text ++ " = Object.keys(" ++
      access.text ++ ")\n") :=
    .append_code (.append_code (.append_code (.append_code (.of_code (by decide)) (hv .keys))
      (.of_code (by decide))) ha) (.of_code (by decide))
  have ho : ∀ {above}, Loose 0 above → Loose 0 (above ++ "const " ++
      (Binding.mk .output depth).text ++ ": " ++ type.render ++ " = \x7b\x7d\n") := fun hl =>
    .append_code (.append_code (.append_code (.append_code (.append_code hl
      (.of_code (by decide))) (hv .output)) (.of_code (by decide))) ht) (.of_code (by decide))
  have hf : ∀ {above}, Loose 0 above → Loose 0 (above ++ "for (const " ++
      (Binding.mk .mapKey depth).text ++ " of " ++ (Binding.mk .keys depth).text ++ ") ") :=
    fun hl => .append_code (.append_code (.append_code (.append_code (.append_code hl
      (.of_code (by decide))) (hv .mapKey)) (.of_code (by decide))) (hv .keys))
      (.of_code (by decide))
  have hs : Loose 0 ("const " ++ (Binding.mk .mapValue depth).text ++ " = " ++ access.text ++
      "[" ++ (Binding.mk .mapKey depth).text ++ "]\n") :=
    .append_code (.append_code (.append_code (.append_code (.append_code (.append_code
      (.of_code (by decide)) (hv .mapValue)) (.of_code (by decide))) ha) (.of_code (by decide)))
      (hv .mapKey)) (.of_code (by decide))
  have he : ∀ {above}, Loose 0 above → Loose 0 (above ++ (Binding.mk .output depth).text ++ "[" ++
      (Binding.mk .mapKey depth).text ++ "] = ") := fun hl =>
    .append_code (.append_code (.append_code (.append_code hl (hv .output))
      (.of_code (by decide))) (hv .mapKey)) (.of_code (by decide))
  exact .selfExecuting (.append_code (.append_code (.code_append (hf (ho hk))
    (.braces (.code_append (he hs) hb))) (.of_code (by decide))) (hv .output))

end Conversion

mutual
/-- The tests in the text of a conversion are those of its tree. -/
theorem Conversion.loose (conversion : Conversion) (h : conversion.Worded s) :
    Loose conversion.looseTests conversion.render := by
  cases conversion with
  | same access => exact (Access.quiet h).loose
  | call className direction access =>
    exact (Conversion.quiet_call h.1 direction h.2).loose
  | elements access element braced body =>
    exact Conversion.loose_elements h.1 (body.loose h.2.2) element braced
  | entries access depth type body =>
    exact Conversion.loose_entries h.1 h.2.2.1 (body.loose h.2.2.2) depth
  | dispatch direction branches =>
    have hb := Branch.looseAll branches h
    have hd : Loose 0 ("\nthrow new TypeError('" ++ direction.failure ++ "')") := by
      cases direction <;> exact .of_code (by decide)
    have hs : Loose 0 " else " := .of_code (by decide)
    have hc := hs.intercalate hb
    have hr : (Branch.renderAll branches).map Branch.clause =
        branches.map fun branch => Branch.clause branch.render := by
      rw [Branch.renderAll_eq, List.map_map]
      rfl
    rw [← Branch.looseTestsAll_eq, ← hr, ← Branch.conditional_eq] at hc
    rw [Conversion.looseTests, Conversion.render, Layout.dispatch]
    simp only [String.append_assoc] at hd ⊢
    exact (hc.append_code hd).selfExecuting

theorem Branch.looseAll (branches : List Branch) (h : Branch.WordedAll s branches) :
    ∀ branch ∈ branches, Loose branch.looseTests (Branch.clause branch.render) := by
  cases branches with
  | nil => simp
  | cons branch rest =>
    exact List.forall_mem_cons.2 ⟨branch.loose h.1, Branch.looseAll rest h.2⟩

theorem Branch.loose (branch : Branch) (h : branch.Worded s) :
    Loose branch.looseTests (Branch.clause branch.render) := by
  obtain ⟨access, test, answer⟩ := branch
  have ht := Test.loose h.2.1 (Access.quiet h.1)
  have ha := (answer.loose h.2.2).braces
  have hf : Loose 0 "if (" := .of_code (by decide)
  have hm : Loose 0 ") " := .of_code (by decide)
  exact ((hf.code_append ht).append_code hm).append ha

theorem Answer.loose (answer : Answer) (h : answer.Worded s) :
    Loose answer.looseTests answer.render := by
  have hr : Loose 0 "return " := .of_code (by decide)
  cases answer with
  | undefined => exact .of_code (by decide)
  | null => exact .of_code (by decide)
  | value conversion => exact hr.code_append (conversion.loose h)
  | wrapped tag conversion =>
    have hk := (Tag.quiet_key h.1).loose
    have ho : Loose 0 "return \x7b " := .of_code (by decide)
    have hc : Loose 0 ": " := .of_code (by decide)
    have he : Loose 0 " \x7d" := .of_code (by decide)
    exact .append_code (.code_append (.append_code (.append_code ho hk) hc)
      (conversion.loose h.2)) he
end

end Text

section Generation

variable {context : Context} {direction : Direction} {access : Access} {depth : Int}

theorem Test.looseTests_ofSchema {schema : Schema} {test : Test}
    (h : ofSchema context schema = .ok test) : test.looseTests = 0 := by
  cases forms h with
  | definition _ definition _ hl hd =>
    cases definition with
    | enum own =>
      obtain ⟨symbols, -, rfl⟩ := Traversal.map_eq_ok_iff.1 hd
      rfl
    | record own =>
      obtain ⟨name, -, rfl⟩ := Traversal.map_eq_ok_iff.1 hd
      rfl
  | primitive name => cases name <;> rfl
  | array => rfl
  | map => rfl

/-- Where no value may be missing, null is compared by three equals signs, at any depth. -/
def Conversion.Strict (direction : Direction) (context : Context) (schema : Schema) : Prop :=
  ∀ access depth conversion, ofSchema direction context schema access depth false = .ok conversion →
    conversion.looseTests = 0

theorem Conversion.looseTests_ofDefinition {definition : Definition} {conversion : Conversion}
    (h : ofDefinition direction context.options access definition = .ok conversion) :
    conversion.looseTests = 0 := by
  cases definition with
  | enum own =>
    rw [ofDefinition_enum] at h
    cases h
    rfl
  | record own =>
    rw [ofDefinition_record] at h
    obtain ⟨name, -, rfl⟩ := Traversal.map_eq_ok_iff.1 h
    rfl

theorem Branch.looseTests_ofAlternative {alternative : Schema}
    (hs : Conversion.Strict direction context alternative) {branch : Branch}
    (h : ofAlternative direction context access depth alternative = .ok branch) :
    branch.looseTests = 0 := by
  cases h using formed_cases with
  | deserialize tag conversion h ht hc =>
    exact (Nat.zero_add _).trans (hs _ _ _ hc)
  | serialize test tag conversion h hk ht hc =>
    have hn := hs _ _ _ hc
    rw [looseTests, Test.looseTests_ofSchema hk, Answer.looseTests, hn]

theorem Branch.looseTests_nullBranches (direction : Direction) (optional : Bool) (access : Access)
    (alternatives : List Schema) :
    looseTestsAll (nullBranches direction optional access alternatives) =
      if optional && alternatives.any Schema.isNull then 1 else 0 := by
  unfold nullBranches
  cases alternatives.any Schema.isNull <;> cases direction <;> cases optional <;> rfl

theorem Conversion.looseTests_dispatch {alternatives : List Schema}
    (hs : ∀ alternative ∈ alternatives, Strict direction context alternative)
    (hl : alternatives.length ≠ 1) {optional : Bool} {conversion : Conversion}
    (h : ofSchema direction context (.union alternatives) access depth optional = .ok conversion) :
    conversion.looseTests = if optional && alternatives.any Schema.isNull then 1 else 0 := by
  rw [ofSchema_union direction context access depth optional hl] at h
  obtain ⟨branches, hb, h⟩ := Traversal.bind_eq_ok_iff.1 h
  cases h
  have hn : ∀ branch ∈ branches, branch.looseTests = 0 := by
    intro branch hm
    obtain ⟨alternative, ha, ho⟩ := Traversal.of_mem_mapM hb hm
    exact Branch.looseTests_ofAlternative (hs alternative (Schema.mem_nonNull.1 ha).1) ho
  have hz : (branches.map Branch.looseTests).sum = 0 :=
    List.sum_eq_zero (List.forall_mem_map.2 hn)
  rw [looseTests, Branch.looseTestsAll_eq, List.map_append, List.sum_append, hz, Nat.add_zero,
    ← Branch.looseTestsAll_eq, Branch.looseTests_nullBranches]

theorem Conversion.strict (direction : Direction) (context : Context) (schema : Schema) :
    Strict direction context schema := by
  intro access depth conversion h
  generalize ho : false = optional at h
  induction h using formed_induction with
  | primitive => rfl
  | definition node definition access depth optional conversion h hl hd =>
    exact looseTests_ofDefinition hd
  | array before items after access depth optional body h hb ih => exact ih rfl
  | map before values after access depth optional type body h hb ht ih => exact ih rfl
  | single only access depth optional conversion h hs ih => exact ih ho
  | union alternatives access depth optional branches h hl hb ih =>
    have hs : ∀ alternative ∈ alternatives, Strict direction context alternative :=
      fun alternative ha _ _ _ hc => ih alternative ha _ _ _ _ hc rfl
    rw [looseTests_dispatch hs hl h, ← ho]
    rfl

/-- The type of a field is tested loosely once, where it is a union of several alternatives of which
the first one is null. -/
theorem Conversion.looseTests_ofField {type : Schema} {conversion : Conversion}
    (h : ofSchema direction context type access depth type.isOptional = .ok conversion) :
    conversion.looseTests = if type.isOptional && type.isMultiUnion then 1 else 0 := by
  cases ho : type.isOptional with
  | false =>
    rw [ho] at h
    exact strict direction context type _ _ _ h
  | true =>
    obtain ⟨wrapper, rest, rfl⟩ := Schema.isOptional_iff.1 ho
    rw [ho] at h
    cases rest with
    | nil =>
      rw [ofSchema_single, ofSchema_primitive] at h
      cases h
      rfl
    | cons second rest =>
      have hs : ∀ alternative ∈ .primitive .null wrapper :: second :: rest,
          Strict direction context alternative := fun _ _ => strict direction context _
      rw [looseTests_dispatch hs (by simp) h]
      rfl

end Generation

namespace Method

theorem loose {method : Method} (h : method.Worded s) :
    Loose (method.assignments.map fun assignment => assignment.value.looseTests).sum
      method.render := by
  obtain ⟨className, direction, assignments⟩ := method
  have hl : ∀ assignment ∈ assignments, Loose assignment.value.looseTests assignment.text := by
    intro assignment hm
    have ha := h.assignments assignment hm
    have hn := ha.name.wordy.quiet.loose
    exact .append_code (.code_append (.append_code hn (.of_code (by decide)))
      (assignment.value.loose ha.value)) (.of_code (by decide))
  have ho : Loose (assignments.map fun assignment => assignment.value.looseTests).sum
      (object assignments) := by
    unfold object
    split
    next he =>
      rw [List.isEmpty_iff.1 he]
      exact .of_code (by decide)
    next =>
      have hs : Loose 0 "\n" := .of_code (by decide)
      exact (hs.intercalate hl).braces
  have hc := (s.wordy_className h.className).quiet.loose
  cases direction with
  | deserialize =>
    have hr : Loose 0 "return new " := .of_code (by decide)
    have hp : Loose 0 "(" := .of_code (by decide)
    have hd : Loose 0 "public static deserialize(input: any): " := .of_code (by decide)
    have hb : Loose 0 " " := .of_code (by decide)
    have he : Loose 0 ")" := .of_code (by decide)
    exact ((hd.append_code hc).append_code hb).code_append
      ((((hr.append_code hc).append_code hp).code_append ho).append_code he).braces
  | serialize =>
    have hr : Loose 0 "return " := .of_code (by decide)
    have hd : Loose 0 "public static serialize(input: " := .of_code (by decide)
    have hb : Loose 0 "): object " := .of_code (by decide)
    exact ((hd.append_code hc).append_code hb).code_append (hr.code_append ho).braces

end Method

/-- Null comes first in the type of a field, before other alternatives. -/
def Field.testsLoosely (field : Field) : Bool :=
  field.type?.any fun type => type.isOptional && type.isMultiUnion

/-- A method has one loose test for each field that asks for one. -/
theorem Method.looseTests_render {context : Context} {record : Record} (h : record.Worded context)
    {direction : Direction} {method : Method}
    (ho : ofRecord context direction record = .ok method) :
    looseTests method.render.toList = record.fieldList.countP Field.testsLoosely := by
  obtain ⟨-, -, ha⟩ := of_ofRecord ho
  have hm : (method.assignments.map fun assignment => assignment.value.looseTests) =
      record.fieldList.map fun field => if field.testsLoosely then 1 else 0 := by
    refine Traversal.map_eq_of_forall₂ <|
      Traversal.forall₂_of_mapM ha fun field _ assignment ho => ?_
    obtain ⟨type, ht, -, hv⟩ := Assignment.of_ofField ho
    rw [Conversion.looseTests_ofField hv, Field.testsLoosely, ht, Option.any_some]
  rw [(loose (h.loose.method ho)).looseTests_eq, hm]
  induction record.fieldList with
  | nil => rfl
  | cons field rest ih => rw [List.map_cons, List.sum_cons, ih, List.countP_cons, Nat.add_comm]

end AvroBindings
