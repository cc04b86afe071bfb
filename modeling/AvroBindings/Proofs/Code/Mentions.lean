import AvroBindings.Proofs.Code.Faults

/-! The names that generated code mentions. A type expression mentions the types of definitions,
and a conversion the classes of records too. Each of them belongs to a definition that stands below
the type the code is generated for, in its place or through a reference. -/

namespace AvroBindings

/-- A name of a type, or the name of a class in a conversion, a test or a tag. -/
inductive Mention where
  | type (name : Json)
  | value (className : String)

def Mention.name : Mention → Json
  | .type name => name
  | .value className => .str className

mutual
def TypeExpr.mentions : TypeExpr → List Mention
  | .named name => [.type name]
  | .union alternatives => TypeExpr.mentionsAll alternatives
  | .array item => item.mentions
  | .index value => value.mentions
  | .builtin _ | .any => []

def TypeExpr.mentionsAll : List TypeExpr → List Mention
  | [] => []
  | type :: rest => type.mentions ++ TypeExpr.mentionsAll rest
end

def Tag.mentions : Tag → List Mention
  | fullName className => [.value className]
  | literal _ => []

def Access.mentions : Access → List Mention
  | tagged access tag => access.mentions ++ tag.mentions
  | given _ | field _ | bound _ => []

def Test.mentions : Test → List Mention
  | isInstance className => [.value className]
  | _ => []

mutual
def Conversion.mentions : Conversion → List Mention
  | .same access => access.mentions
  | .call className _ access => .value className :: access.mentions
  | .elements access _ _ body => access.mentions ++ body.mentions
  | .entries access _ type body => access.mentions ++ type.mentions ++ body.mentions
  | .dispatch _ branches => Branch.mentionsAll branches

def Branch.mentionsAll : List Branch → List Mention
  | [] => []
  | branch :: rest => branch.mentions ++ Branch.mentionsAll rest

def Branch.mentions : Branch → List Mention
  | .mk access test answer => access.mentions ++ test.mentions ++ answer.mentions

def Answer.mentions : Answer → List Mention
  | .undefined | .null => []
  | .value conversion => conversion.mentions
  | .wrapped tag conversion => tag.mentions ++ conversion.mentions
end

theorem TypeExpr.mem_mentionsAll {types : List TypeExpr} {mention : Mention} :
    mention ∈ mentionsAll types ↔ ∃ type ∈ types, mention ∈ type.mentions := by
  induction types with
  | nil => simp [mentionsAll]
  | cons type rest ih => simp [mentionsAll, ih]

theorem Branch.mem_mentionsAll {branches : List Branch} {mention : Mention} :
    mention ∈ mentionsAll branches ↔ ∃ branch ∈ branches, mention ∈ branch.mentions := by
  induction branches with
  | nil => simp [mentionsAll]
  | cons branch rest ih => simp [mentionsAll, ih]

mutual
theorem TypeExpr.mentions_type (type : TypeExpr) :
    ∀ mention ∈ type.mentions, ∃ name, mention = .type name := by
  intro mention hm
  cases type with
  | named name => exact ⟨name, List.mem_singleton.1 hm⟩
  | union alternatives => exact TypeExpr.mentionsAll_type alternatives mention hm
  | array item => exact item.mentions_type mention hm
  | index value => exact value.mentions_type mention hm
  | builtin type => cases hm
  | any => cases hm

theorem TypeExpr.mentionsAll_type (types : List TypeExpr) :
    ∀ mention ∈ TypeExpr.mentionsAll types, ∃ name, mention = .type name := by
  intro mention hm
  cases types with
  | nil => cases hm
  | cons type rest =>
    obtain hm | hm := List.mem_append.1 hm
    · exact type.mentions_type mention hm
    · exact TypeExpr.mentionsAll_type rest mention hm
end

namespace Definition

/-- A name that generated code has for a definition. -/
inductive Names (options : Options) : Definition → Mention → Prop where
  | type (definition : Definition) :
    Names options definition (.type (.str (definition.typeName options)))
  | value (own : Record) : Names options (.record own) (.value ((record own).className options))

end Definition

/-- The mention names a definition that is met below a type, outside of the fields of records. -/
def Schema.Accounts (context : Context) (schema : Schema) (mention : Mention) : Prop :=
  ∃ node ∈ schema.constituents, ∃ definition, context.Leads node definition ∧
    definition.Names context.options mention

namespace Schema

variable {context : Context} {schema : Schema} {mention : Mention}

theorem accounts_of_leads {definition : Definition} (h : context.Leads schema definition)
    (hn : definition.Names context.options mention) : schema.Accounts context mention :=
  ⟨schema, self_mem_constituents schema, definition, h, hn⟩

theorem accounts_of_operand {operand : Schema} (ho : operand ∈ schema.operands)
    (h : operand.Accounts context mention) : schema.Accounts context mention := by
  obtain ⟨node, hn, hd⟩ := h
  exact ⟨node, constituents_of_operand ho hn, hd⟩

end Schema

variable {context : Context} {mention : Mention}

theorem TypeExpr.accounts_of_ofSchema (hc : context.Proper) {schema : Schema}
    (h : schema.WellFormed) {type : TypeExpr} (ht : ofSchema context schema = .ok type)
    (hm : mention ∈ type.mentions) : schema.Accounts context mention := by
  induction ht using formed_induction with
  | primitive name wrapper => cases hm
  | definition node definition type ht hl hd =>
    rw [ofDefinition_eq context.options (hl.proper hc h.proper).legible] at hd
    cases hd
    cases List.mem_singleton.1 hm
    exact Schema.accounts_of_leads hl (.type definition)
  | union alternatives types ht hs ih =>
    obtain ⟨type, ho, hm⟩ := mem_mentionsAll.1 hm
    obtain ⟨alternative, ha, ho⟩ := Traversal.of_mem_mapM hs ho
    exact Schema.accounts_of_operand ha
      (ih alternative ha type ho (Schema.wellFormed_union.1 h alternative ha) hm)
  | array before items after item ht hi ih =>
    have ho : items ∈ (Schema.array before (some items) after).children := by simp
    exact Schema.accounts_of_operand ho (ih (h.child ho) hm)
  | map before values after value ht hv ih =>
    have ho : values ∈ (Schema.map before (some values) after).children := by simp
    exact Schema.accounts_of_operand ho (ih (h.child ho) hm)

theorem TypeExpr.accounts_of_ofProperty (hc : context.Proper) {schema : Schema}
    (h : schema.WellFormed) {type : TypeExpr} (ht : ofProperty context schema = .ok type)
    (hm : mention ∈ type.mentions) : schema.Accounts context mention := by
  unfold ofProperty at ht
  split at ht
  next first second rest =>
    split at ht
    next =>
      have hw : (Schema.union (second :: rest)).WellFormed := by
        rw [Schema.wellFormed_union] at h ⊢
        exact fun other ho => h other (List.mem_cons_of_mem first ho)
      obtain ⟨node, hn, definition, hl, ha⟩ := accounts_of_ofSchema hc hw ht hm
      obtain rfl | ⟨operand, ho, hn⟩ := Schema.mem_constituents.1 hn
      · generalize hu : Schema.union (second :: rest) = node at hl
        cases hl with
        | inline => cases definition <;> cases hu
        | reference => cases hu
      · have hs : operand ∈ (Schema.union (first :: second :: rest)).operands :=
          List.mem_cons_of_mem first ho
        exact ⟨node, Schema.constituents_of_operand hs hn, definition, hl, ha⟩
    next => exact accounts_of_ofSchema hc h ht hm
  next => exact accounts_of_ofSchema hc h ht hm

theorem TypeExpr.accounts_of_entriesType (hc : context.Proper) {values : Schema}
    (h : values.WellFormed) {direction : Direction} {type : TypeExpr}
    (ht : Conversion.entriesType context values direction = .ok type)
    (hm : mention ∈ type.mentions) : values.Accounts context mention := by
  cases direction with
  | deserialize =>
    obtain ⟨value, hv, rfl⟩ := Traversal.map_eq_ok_iff.1 ht
    exact accounts_of_ofSchema hc h hv hm
  | serialize =>
    cases ht
    cases hm

theorem Schema.Classed.accounts (hc : context.Proper) {schema : Schema} (h : schema.Proper)
    {className : String} (hn : schema.Classed context className) :
    schema.Accounts context (.value className) := by
  obtain ⟨own, hl, hn⟩ := hn
  have hp : (Definition.record own).Legible := (hl.proper hc h).legible
  have ht : own.attributes.Titled := hp.titled
  rw [ht.qualifiedDeclarationName] at hn
  cases hn
  exact accounts_of_leads hl (.value own)

theorem Tag.accounts_of_ofSchema (hc : context.Proper) {schema : Schema} (h : schema.Proper)
    {tag : Tag} (ht : ofSchema context schema = .ok tag) (hm : mention ∈ tag.mentions) :
    schema.Accounts context mention := by
  cases tag with
  | fullName className =>
    cases List.mem_singleton.1 hm
    exact (classed ht).accounts hc h
  | literal text => cases hm

theorem Test.accounts_of_ofSchema (hc : context.Proper) {schema : Schema} (h : schema.Proper)
    {test : Test} (ht : ofSchema context schema = .ok test) (hm : mention ∈ test.mentions) :
    schema.Accounts context mention := by
  cases test with
  | isInstance className =>
    cases List.mem_singleton.1 hm
    exact (classed ht).accounts hc h
  | _ => cases hm

namespace Conversion

def Accounted (direction : Direction) (context : Context) (schema : Schema) : Prop :=
  ∀ access depth optional conversion,
    ofSchema direction context schema access depth optional = .ok conversion →
    ∀ mention ∈ conversion.mentions, mention ∈ access.mentions ∨ schema.Accounts context mention

theorem accounted_of_leads (hc : context.Proper) {direction : Direction} {schema : Schema}
    (h : schema.Proper) {definition : Definition} (hl : context.Leads schema definition) :
    Accounted direction context schema := by
  intro access depth optional conversion ho mention hm
  rw [hl.conversion (hl.proper hc h).legible] at ho
  cases ho
  cases definition with
  | enum own => exact .inl hm
  | record own =>
    obtain rfl | hm := List.mem_cons.1 hm
    · exact .inr (Schema.accounts_of_leads hl (.value own))
    · exact .inl hm

end Conversion

theorem Branch.accounted (hc : context.Proper) {direction : Direction} {alternative : Schema}
    (h : alternative.Proper) (ha : Conversion.Accounted direction context alternative)
    {access : Access} {depth : Int} {branch : Branch}
    (hb : ofAlternative direction context access depth alternative = .ok branch)
    (hm : mention ∈ branch.mentions) :
    mention ∈ access.mentions ∨ alternative.Accounts context mention := by
  cases hb using formed_cases with
  | deserialize tag conversion hb ht hv =>
    have hg : mention ∈ tag.mentions → alternative.Accounts context mention :=
      Tag.accounts_of_ofSchema hc h ht
    have hi := ha _ _ _ _ hv mention
    simp only [mentions, Access.mentions, Test.mentions, Answer.mentions, List.mem_append,
      List.not_mem_nil, or_false] at hm hi
    tauto
  | serialize test tag conversion hb hs ht hv =>
    have hg : mention ∈ tag.mentions → alternative.Accounts context mention :=
      Tag.accounts_of_ofSchema hc h ht
    have hk : mention ∈ test.mentions → alternative.Accounts context mention :=
      Test.accounts_of_ofSchema hc h hs
    have hi := ha _ _ _ _ hv mention
    simp only [mentions, Answer.mentions, List.mem_append] at hm
    tauto

theorem Branch.mentions_nullBranches {direction : Direction} {optional : Bool} {access : Access}
    {alternatives : List Schema} {branch : Branch}
    (h : branch ∈ nullBranches direction optional access alternatives)
    (hm : mention ∈ branch.mentions) : mention ∈ access.mentions := by
  unfold nullBranches at h
  split at h
  next =>
    cases List.mem_singleton.1 h
    cases direction <;> cases optional <;>
      simpa [ofNull, mentions, Test.mentions, Answer.mentions] using hm
  next => cases h

namespace Conversion

/-- What a conversion mentions is accounted for by its schema, up to what its access mentions. -/
theorem accounted (hc : context.Proper) (direction : Direction) {schema : Schema}
    (h : schema.WellFormed) : Accounted direction context schema := by
  intro access depth optional conversion ho
  induction ho using formed_induction with
  | primitive name wrapper access depth optional ho => exact fun mention => .inl
  | definition node definition access depth optional conversion ho hl hd =>
    exact accounted_of_leads hc h.proper hl _ _ _ _ ho
  | array before items after access depth optional body ho hb ih =>
    intro mention hm
    obtain hm | hm := List.mem_append.1 hm
    · exact .inl hm
    · have hs : items ∈ (Schema.array before (some items) after).operands := by
        simp [Schema.operands]
      obtain hm | ha := ih (Schema.wellFormed_array.1 h) mention hm
      · cases hm
      · exact .inr (Schema.accounts_of_operand hs ha)
  | map before values after access depth optional type body ho hb ht ih =>
    intro mention hm
    have hs : values ∈ (Schema.map before (some values) after).operands := by
      simp [Schema.operands]
    have hw := Schema.wellFormed_map.1 h
    obtain hm | hm := List.mem_append.1 hm
    · obtain hm | hm := List.mem_append.1 hm
      · exact .inl hm
      · exact .inr (Schema.accounts_of_operand hs (TypeExpr.accounts_of_entriesType hc hw ht hm))
    · obtain hm | ha := ih hw mention hm
      · cases hm
      · exact .inr (Schema.accounts_of_operand hs ha)
  | single only access depth optional conversion ho hs ih =>
    intro mention hm
    have ha : only ∈ (Schema.union [only]).operands := by simp [Schema.operands]
    have hw := Schema.wellFormed_union.1 h only ha
    exact (ih hw mention hm).imp id (Schema.accounts_of_operand ha)
  | union alternatives access depth optional branches ho hl hb ih =>
    intro mention hm
    obtain ⟨branch, hr, hm⟩ := Branch.mem_mentionsAll.1 hm
    obtain hn | hr := List.mem_append.1 hr
    · exact .inl (Branch.mentions_nullBranches hn hm)
    · obtain ⟨alternative, ha, hs⟩ := Traversal.of_mem_mapM hb hr
      have ha := (Schema.mem_nonNull.1 ha).1
      have hw := Schema.wellFormed_union.1 h alternative ha
      have hv : Accounted direction context alternative :=
        fun _ _ _ _ hv => ih alternative ha _ _ _ _ hv hw
      exact (Branch.accounted hc hw.proper hv hs hm).imp id (Schema.accounts_of_operand ha)

end Conversion

end AvroBindings
