import AvroBindings.Proofs.Code.Rows
import AvroBindings.Proofs.EffectiveNames
import Mathlib.Data.List.Nodup

/-! How far tags tell the alternatives of a union apart. An alternative has a name that the options do
not change: a full name, or the name of a built-in type. Tags of different names differ, but for two
records that are declared under one short name where namespaces are left out. -/

namespace AvroBindings

/-- The name of an alternative: the full name of a definition, in place or by reference, or the name
of a built-in type. -/
inductive Context.BranchName (context : Context) : Schema → String → Prop where
  | definition {node : Schema} {own : Definition} {full : Json} (h : context.Leads node own)
    (hq : own.attributes.qualifiedName = .ok full) : BranchName context node full.text
  | primitive (name : Primitive) (wrapper : Option Attributes) :
    BranchName context (.primitive name wrapper) name.name
  | array (before after : Attributes) (items : Option Schema) :
    BranchName context (.array before items after) "array"
  | map (before after : Attributes) (values : Option Schema) :
    BranchName context (.map before values after) "map"

theorem Tag.text_injective : Function.Injective Tag.text := by
  intro first second h
  have hl := congrArg (fun text => text.toList.reverse.head?) h
  cases first with
  | fullName own =>
    cases second with
    | fullName other => rw [(String.append_left_inj _).1 h]
    | literal other => simp [text] at hl
  | literal own =>
    cases second with
    | fullName other => simp [text] at hl
    | literal other =>
      rw [(String.append_right_inj _).1 ((String.append_left_inj _).1 h)]

theorem Attributes.name_eq_of_qualifiedName {attributes : Attributes} {full : Json}
    (h : attributes.qualifiedName = .ok full) :
    ∃ name, attributes.name = .ok name ∧ attributes.shortName = name.text ∧
      full = fullName attributes.space name := by
  obtain ⟨name, hn, rfl⟩ := Traversal.map_eq_ok_iff.1 h
  refine ⟨name, hn, ?_, rfl⟩
  rw [shortName, hn]

namespace Context

/-- Two nodes stand for records of one short name. -/
def SharesShortName (context : Context) (left right : Schema) : Prop :=
  ∃ first second, context.Leads left (.record first) ∧ context.Leads right (.record second) ∧
    first.attributes.shortName = second.attributes.shortName

variable {context : Context} {node : Schema}

theorem BranchName.tag_cases {name : String} (h : context.BranchName node name) {tag : Tag}
    (ht : Tag.ofSchema context node = .ok tag) :
    ((∀ record, ¬context.Leads node (.record record)) ∧ tag = .literal name) ∨
      ∃ record, context.Leads node (.record record) ∧ tag = .fullName
        (if context.options.withoutNamespaces then record.attributes.shortName else name) := by
  cases h with
  | primitive name wrapper =>
    cases ht
    exact .inl ⟨fun record => not_leads rfl, rfl⟩
  | array before after items =>
    cases ht
    exact .inl ⟨fun record => not_leads rfl, rfl⟩
  | map before after values =>
    cases ht
    exact .inl ⟨fun record => not_leads rfl, rfl⟩
  | @definition _ own full hl hq =>
    rw [hl.tag_eq] at ht
    cases own with
    | enum own =>
      refine .inl ⟨fun record hr => ?_, ?_⟩
      · cases hl.unique hr
      · obtain ⟨other, ho, rfl⟩ := Traversal.map_eq_ok_iff.1 ht
        cases hq.symm.trans ho
        rfl
    | record own =>
      obtain ⟨short, hs, hsn, rfl⟩ := Attributes.name_eq_of_qualifiedName hq
      refine .inr ⟨own, hl, ?_⟩
      obtain ⟨other, ho, rfl⟩ := Traversal.map_eq_ok_iff.1 ht
      have hs : own.attributes.name = .ok short := hs
      rw [Attributes.qualifiedDeclarationName, hs] at ho
      cases ho
      unfold Attributes.referenceName
      split
      · exact congrArg Tag.fullName hsn.symm
      · rfl

theorem BranchName.tag_eq_iff {other : Schema} {first second : String} {tag own : Tag}
    (h : context.BranchName node first) (ho : context.BranchName other second)
    (ht : Tag.ofSchema context node = .ok tag) (ht' : Tag.ofSchema context other = .ok own)
    (hne : first ≠ second) :
    tag = own ↔ context.options.withoutNamespaces ∧ context.SharesShortName node other := by
  unfold SharesShortName
  obtain ⟨hn, rfl⟩ | ⟨left, hl, rfl⟩ := h.tag_cases ht
  · constructor
    · intro he
      obtain ⟨-, rfl⟩ | ⟨right, -, rfl⟩ := ho.tag_cases ht'
      · cases he
        exact absurd rfl hne
      · cases he
    · rintro ⟨-, left, -, hl, -⟩
      exact absurd hl (hn left)
  · obtain ⟨hn, rfl⟩ | ⟨right, hr, rfl⟩ := ho.tag_cases ht'
    · constructor
      · intro he
        cases he
      · rintro ⟨-, -, right, -, hr, -⟩
        exact absurd hr (hn right)
    · cases hw : context.options.withoutNamespaces with
      | false => simp [hne]
      | true =>
        simp only [if_true, Tag.fullName.injEq, true_and]
        constructor
        · exact fun he => ⟨left, right, hl, hr, he⟩
        · rintro ⟨left', right', hl', hr', he⟩
          cases hl.unique hl'
          cases hr.unique hr'
          exact he

/-- The tags of alternatives with different names all differ exactly if, where namespaces are left
out, no two of the alternatives share a short name. -/
theorem nodup_tags_iff {nodes : List Schema} {names : List String} {tags : List Tag}
    (hn : List.Forall₂ context.BranchName nodes names) (hd : names.Nodup)
    (ht : nodes.mapM (Tag.ofSchema context) = .ok tags) :
    tags.Nodup ↔ (context.options.withoutNamespaces →
      nodes.Pairwise fun left right => ¬context.SharesShortName left right) := by
  obtain ⟨hl, ht⟩ := List.forall₂_iff_get.1 (Traversal.mapM_eq_ok_iff.1 ht)
  obtain ⟨hl', hn⟩ := List.forall₂_iff_get.1 hn
  have hp : ∀ (i j : Nat) (hi : i < nodes.length) (hj : j < nodes.length), i < j →
      (tags[i] = tags[j] ↔
        context.options.withoutNamespaces ∧ context.SharesShortName nodes[i] nodes[j]) := by
    intro i j hi hj hij
    exact (hn i hi (hl' ▸ hi)).tag_eq_iff (hn j hj (hl' ▸ hj)) (ht i hi (hl ▸ hi))
      (ht j hj (hl ▸ hj)) (List.pairwise_iff_getElem.1 hd i j _ _ hij)
  rw [List.Nodup, List.pairwise_iff_getElem, List.pairwise_iff_getElem]
  constructor
  · intro h hw i j hi hj hij hs
    exact h i j _ _ hij ((hp i j hi hj hij).2 ⟨hw, hs⟩)
  · intro h i j hi hj hij he
    obtain ⟨hw, hs⟩ := (hp i j (hl ▸ hi) (hl ▸ hj) hij).1 he
    exact h hw i j _ _ hij hs

end Context

def Branch.condition : Branch → String
  | .mk access test _ => test.text access.text

def Access.definedness (access : Access) (tag : Tag) : String :=
  access.text ++ "[" ++ tag.text ++ "]" ++ " !== undefined"

theorem Access.definedness_injective (access : Access) : Function.Injective access.definedness := by
  intro first second h
  have hb := (String.append_left_inj _).1 ((String.append_left_inj _).1 h)
  exact Tag.text_injective ((String.append_right_inj _).1 hb)

theorem Branch.map_condition {context : Context} {access : Access} {depth : Int}
    {nodes : List Schema} {tags : List Tag} {branches : List Branch}
    (ht : nodes.mapM (Tag.ofSchema context) = .ok tags)
    (hb : nodes.mapM (ofAlternative .deserialize context access depth) = .ok branches) :
    branches.map condition = tags.map access.definedness := by
  replace ht := Traversal.mapM_eq_ok_iff.1 ht
  replace hb := Traversal.mapM_eq_ok_iff.1 hb
  induction hb generalizing tags with
  | nil =>
    cases ht
    rfl
  | cons hf _ ih =>
    cases ht with
    | cons ht hr =>
      obtain ⟨tag, hs, hf⟩ := Traversal.bind_eq_ok_iff.1 hf
      cases ht.symm.trans hs
      obtain ⟨value, -, hf⟩ := Traversal.bind_eq_ok_iff.1 hf
      cases hf
      rw [List.map_cons, List.map_cons, ih hr]
      rfl

theorem Branch.condition_ofNull_ne (optional : Bool) (access : Access) (tag : Tag) :
    (ofNull .deserialize optional access).condition ≠ access.definedness tag := by
  have hn (before other : String) {null : String} (h : null.toList.reverse.head? = some 'l') :
      before ++ null ≠ other ++ " !== undefined" := by
    intro he
    have hl := congrArg (fun text : String => text.toList.reverse.head?) he
    simp [h] at hl
  cases optional with
  | true => exact hn access.text _ rfl
  | false => exact hn access.text _ rfl

/-- A test of a tag is not a test for null, and tests of different tags differ. -/
theorem Branch.nodup_conditions_iff {optional : Bool} {access : Access}
    {alternatives : List Schema} {tags : List Tag} {branches : List Branch}
    (hb : branches.map condition = tags.map access.definedness) :
    ((nullBranches .deserialize optional access alternatives ++ branches).map condition).Nodup ↔
      (tags.map Tag.text).Nodup := by
  have hn : ∀ own ∈ (nullBranches .deserialize optional access alternatives).map condition,
      own ∉ tags.map access.definedness := by
    intro own hm ht
    obtain ⟨tag, -, rfl⟩ := List.mem_map.1 ht
    obtain ⟨branch, hb, he⟩ := List.mem_map.1 hm
    unfold nullBranches at hb
    split at hb
    next =>
      cases List.mem_singleton.1 hb
      exact condition_ofNull_ne optional access tag he
    next => cases hb
  have hs : ((nullBranches .deserialize optional access alternatives).map condition).Nodup := by
    unfold nullBranches
    split <;> simp
  rw [List.map_append, hb, List.nodup_append, List.nodup_map_iff access.definedness_injective,
    List.nodup_map_iff Tag.text_injective]
  constructor
  · exact fun h => h.2.1
  · exact fun h => ⟨hs, h, fun own hm other ho he => hn own hm (he ▸ ho)⟩

/-- Where the alternatives other than null have tags, and different names, their tags are pairwise
different texts, but for records of one short name where namespaces are left out. Exactly then no
two branches have the same condition where a value is taken from the wire. -/
theorem union_tags {context : Context} {alternatives : List Schema} {names : List String}
    {tags : List Tag} (hn : List.Forall₂ context.BranchName (Schema.nonNull alternatives) names)
    (hd : names.Nodup)
    (ht : (Schema.nonNull alternatives).mapM (Tag.ofSchema context) = .ok tags) :
    ((tags.map Tag.text).Nodup ↔ (context.options.withoutNamespaces →
      (Schema.nonNull alternatives).Pairwise fun left right =>
        ¬context.SharesShortName left right)) ∧
    ∀ access depth optional conversion, 2 ≤ alternatives.length →
      Conversion.deserialize context (.union alternatives) access depth optional = .ok conversion →
      ∃ branches, conversion = .dispatch .deserialize branches ∧
        ((branches.map Branch.condition).Nodup ↔ (tags.map Tag.text).Nodup) := by
  refine ⟨?_, fun access depth optional conversion hl hc => ?_⟩
  · rw [List.nodup_map_iff Tag.text_injective]
    exact Context.nodup_tags_iff hn hd ht
  · replace hc := (Conversion.ofSchema_union .deserialize context access depth optional
      (by omega)).symm.trans hc
    obtain ⟨branches, hb, hc⟩ := Traversal.bind_eq_ok_iff.1 hc
    cases hc
    exact ⟨_, rfl, Branch.nodup_conditions_iff (Branch.map_condition ht hb)⟩

def Context.points (options : Options) : Context where
  options := options
  registry := ⟨["geo.Point", "plane.Point"], []⟩
  table := ["geo", "plane"].map fun space => (.str (space ++ ".Point"),
    .record (.mk [("type", .str "record"), ("name", .str "Point"), ("namespace", .str space)]
      .absent []))

theorem Context.branchName_points (options : Options) :
    List.Forall₂ (points options).BranchName
      (Schema.nonNull [.reference "geo.Point", .primitive .null none, .reference "plane.Point"])
      ["geo.Point", "plane.Point"] := by
  have hg := @BranchName.definition (points options) _ _ (.str "geo.Point")
    (.reference "geo.Point" _ rfl) rfl
  have hp := @BranchName.definition (points options) _ _ (.str "plane.Point")
    (.reference "plane.Point" _ rfl) rfl
  exact .cons hg (.cons hp .nil)

theorem union_tags_points :
    ∃ tags, (Schema.nonNull [.reference "geo.Point", .primitive .null none,
        .reference "plane.Point"]).mapM (Tag.ofSchema (.points {})) = .ok tags ∧
      tags.map Tag.text = ["geo.Point.FQN", "plane.Point.FQN"] ∧ (tags.map Tag.text).Nodup := by
  refine ⟨_, rfl, rfl, ?_⟩
  refine (union_tags (Context.branchName_points {}) (by decide) rfl).1.2 fun hw => ?_
  cases hw

/-- Without namespaces they share one, though their names differ. -/
theorem union_tags_flattened :
    ∃ (context : Context) (alternatives : List Schema) (names : List String) (tags : List Tag),
      List.Forall₂ context.BranchName (Schema.nonNull alternatives) names ∧ names.Nodup ∧
      (Schema.nonNull alternatives).mapM (Tag.ofSchema context) = .ok tags ∧
      ¬(tags.map Tag.text).Nodup :=
  ⟨_, _, _, _, Context.branchName_points { withoutNamespaces := true }, by decide, rfl, by decide⟩

end AvroBindings
