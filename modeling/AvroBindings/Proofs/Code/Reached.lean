import AvroBindings.Proofs.Code.Mentions
import AvroBindings.Proofs.Code.Occurrences
import AvroBindings.Proofs.Code.Tags
import AvroBindings.Proofs.Runtime.Evaluation
import Mathlib.Data.List.Nodup

/-! What may stand where in the code of a conversion. Nodes of a type are reached through unions,
arrays and maps, and the code for a node stands in the constructs of those passed. Each array and
each object that is gone through numbers its variables by a level of its own, so that no two in scope
have one name. The code for a node may use the expression that is converted, the variables in scope,
and the class that the node belongs to. -/

namespace AvroBindings

/-- A name with the number of a level, none at level zero. -/
def numbered (base : String) (level : Nat) : String :=
  base ++ if level = 0 then "" else toString level

namespace Binding

theorem text_eq (role : Role) (level : Nat) :
    (Binding.mk role level).text = numbered role.name level := by
  unfold text numbered
  cases level <;> rfl

end Binding

theorem numbered_injective {left right : Role} {level other : Nat}
    (h : numbered left.name level = numbered right.name other) : left = right ∧ level = other := by
  rw [← Binding.text_eq, ← Binding.text_eq] at h
  have hl : level = other := by
    by_contra hn
    exact Binding.text_ne hn h
  subst hl
  have ht := congrArg String.toList h
  rw [Binding.toList_text, Binding.toList_text, List.append_left_inj] at ht
  refine ⟨?_, rfl⟩
  cases left <;> cases right <;> simp_all [Role.name]

namespace Construct

theorem callback_eq (level : Nat) :
    callback (Binding.mk .element level).text = callback (numbered "e" level) := by
  rw [Binding.text_eq]
  rfl

theorem functionAt_eq (level : Nat) :
    functionAt level = function (numbered "keys" level) (numbered "output" level) := by
  rw [functionAt, Binding.text_eq, Binding.text_eq]
  rfl

theorem loopAt_eq (level : Nat) :
    loopAt level = loop (numbered "mapKey" level) (numbered "mapValue" level) := by
  rw [loopAt, Binding.text_eq, Binding.text_eq]
  rfl

end Construct

/-- Constructs with so many levels among them, from a level on. Arrays and objects add a level each,
by whose number all their variables are told from those of other levels. -/
inductive Nested (start : Nat) : Nat → List Construct → Prop where
  | outside : Nested start 0 []
  | callback {levels : Nat} {around : List Construct} (h : Nested start levels around) :
    Nested start (levels + 1) (.callback (numbered "e" (start + levels)) :: around)
  | function {levels : Nat} {around : List Construct} (h : Nested start levels around) :
    Nested start (levels + 1)
      (.function (numbered "keys" (start + levels)) (numbered "output" (start + levels)) :: around)
  | loop {levels : Nat} {around : List Construct} (h : Nested start levels around) :
    Nested start (levels + 1)
      (.loop (numbered "mapKey" (start + levels)) (numbered "mapValue" (start + levels)) ::
        .function (numbered "keys" (start + levels)) (numbered "output" (start + levels)) :: around)

namespace Nested

variable {start levels : Nat} {around : List Construct}

theorem exists_level_append (roles : List Role) {name : String}
    (ih : name ∈ around.flatMap Construct.names →
      ∃ (role : Role) (level : Nat), level < start + levels ∧ name = numbered role.name level)
    (hn : name ∈ roles.map (fun role => numbered role.name (start + levels)) ++
      around.flatMap Construct.names) :
    ∃ (role : Role) (level : Nat), level < start + (levels + 1) ∧
      name = numbered role.name level := by
  obtain hn | hn := List.mem_append.1 hn
  · obtain ⟨role, -, rfl⟩ := List.mem_map.1 hn
    exact ⟨role, start + levels, Nat.lt_succ_self _, rfl⟩
  · obtain ⟨role, level, hl, he⟩ := ih hn
    exact ⟨role, level, Nat.lt_succ_of_lt hl, he⟩

/-- All variables in scope are numbered by levels that have been entered. -/
theorem exists_level (h : Nested start levels around) {name : String}
    (hn : name ∈ around.flatMap Construct.names) :
    ∃ (role : Role) (level : Nat), level < start + levels ∧ name = numbered role.name level := by
  induction h with
  | outside => cases hn
  | callback h ih => exact exists_level_append [.element] ih hn
  | function h ih => exact exists_level_append [.keys, .output] ih hn
  | loop h ih => exact exists_level_append [.mapKey, .mapValue, .keys, .output] ih hn

theorem fresh (h : Nested start levels around) (role : Role) :
    numbered role.name (start + levels) ∉ around.flatMap Construct.names := by
  intro hn
  obtain ⟨other, level, hl, he⟩ := h.exists_level hn
  obtain ⟨-, rfl⟩ := numbered_injective he
  exact Nat.lt_irrefl _ hl

theorem nodup_append (h : Nested start levels around)
    (hn : (around.flatMap Construct.names).Nodup) {roles : List Role} (hr : roles.Nodup) :
    (roles.map (fun role => numbered role.name (start + levels)) ++
      around.flatMap Construct.names).Nodup := by
  have hm : (roles.map fun role => numbered role.name (start + levels)).Nodup :=
    List.Nodup.map (fun _ _ he => (numbered_injective he).1) hr
  refine List.nodup_append'.2 ⟨hm, hn, fun name ho => ?_⟩
  obtain ⟨role, -, rfl⟩ := List.mem_map.1 ho
  exact h.fresh role

/-- No variable has the name of another one in scope. -/
theorem nodup (h : Nested start levels around) : (around.flatMap Construct.names).Nodup := by
  induction h with
  | outside => exact List.nodup_nil
  | callback h ih => exact h.nodup_append ih (List.nodup_singleton Role.element)
  | function h ih =>
    have hr : [Role.keys, Role.output].Nodup := by decide
    exact h.nodup_append ih hr
  | loop h ih =>
    have hr : [Role.mapKey, Role.mapValue, Role.keys, Role.output].Nodup := by decide
    exact h.nodup_append ih hr

end Nested

namespace Schema

/-- A node that is converted for a value of a type, by the constructs that its code stands in and
the number of levels among them. -/
inductive Reached (type : Schema) (start : Nat) : Nat → List Construct → Schema → Prop where
  | top : Reached type start 0 [] type
  | alternative {levels : Nat} {around : List Construct} {alternatives : List Schema}
    (h : Reached type start levels around (.union alternatives)) {alternative : Schema}
    (ha : alternative ∈ alternatives) : Reached type start levels around alternative
  | items {levels : Nat} {around : List Construct} {before after : Attributes} {items : Schema}
    (h : Reached type start levels around (.array before (some items) after)) :
    Reached type start (levels + 1) (.callback (numbered "e" (start + levels)) :: around) items
  | values {levels : Nat} {around : List Construct} {before after : Attributes} {values : Schema}
    (h : Reached type start levels around (.map before (some values) after)) :
    Reached type start (levels + 1)
      (.loop (numbered "mapKey" (start + levels)) (numbered "mapValue" (start + levels)) ::
        .function (numbered "keys" (start + levels)) (numbered "output" (start + levels)) :: around)
      values

theorem Reached.nested {type node : Schema} {start levels : Nat} {around : List Construct}
    (h : type.Reached start levels around node) : Nested start levels around := by
  induction h with
  | top => exact .outside
  | alternative h ha ih => exact ih
  | items h ih => exact ih.callback
  | values h ih => exact ih.loop

end Schema

/-- A piece that uses nothing but what belongs to a given access, variables in scope, and some
classes. -/
def Piece.Uses (source : Access) (scope : List String) (classes : String → Prop) (piece : Piece) :
    Prop :=
  match piece with
  | .code _ => True
  | .given _ => piece ∈ source.pieces
  | .binds _ => False
  | .reads name => piece ∈ source.pieces ∨ name ∈ scope
  | .names className => piece ∈ source.pieces ∨ classes className

theorem Piece.Uses.mono {source : Access} {scope wider : List String} {classes more : String → Prop}
    {piece : Piece} (h : piece.Uses source scope classes) (hs : scope ⊆ wider)
    (hc : ∀ className, classes className → more className) : piece.Uses source wider more := by
  cases piece with
  | code text => trivial
  | given text => exact h
  | binds name => exact h
  | reads name => exact h.imp id fun hn => hs hn
  | names className => exact h.imp id (hc className)

namespace Piece

/-- A piece inside a construct that binds one of its variables, or uses no class. -/
def Fits (source : Access) (construct : Construct) (around : List Construct) (piece : Piece) :
    Prop :=
  (∃ name ∈ construct.names, piece = .binds name) ∨
    piece.Uses source ((construct :: around).flatMap Construct.names) fun _ => False

section Fits

variable {source : Access} {construct : Construct} {around : List Construct}

@[simp] theorem fits_code (text : String) : (code text).Fits source construct around := .inr trivial

@[simp] theorem fits_binds {name : String} :
    (binds name).Fits source construct around ↔ name ∈ construct.names := by
  simp [Fits, Uses]

@[simp] theorem fits_reads {name : String} :
    (reads name).Fits source construct around ↔ reads name ∈ source.pieces ∨
      name ∈ construct.names ∨ name ∈ around.flatMap Construct.names := by
  rw [Fits, Uses, List.flatMap_cons, List.mem_append]
  simp

end Fits

end Piece

/-- What is right about a piece of the code of a conversion in its place. -/
structure Occurrence.Sound (context : Context) (type : Schema) (start : Nat) (source : Access)
    (occurrence : Occurrence) : Prop where
  nested : ∃ levels, Nested start levels occurrence.around
  /-- A variable is bound in the scope of the construct that binds it. -/
  binds : ∀ name, occurrence.piece = .binds name →
    ∃ construct others, occurrence.around = construct :: others ∧ name ∈ construct.names
  reads : ∀ name, occurrence.piece = .reads name →
    occurrence.piece ∈ source.pieces ∨ name ∈ occurrence.scope
  given : ∀ text, occurrence.piece = .given text → occurrence.piece ∈ source.pieces
  /-- A class is named for a node that is converted there. -/
  names : ∀ className, occurrence.piece = .names className → occurrence.piece ∈ source.pieces ∨
    ∃ levels node, type.Reached start levels occurrence.around node ∧
      node.Classed context className

namespace Occurrence

variable {context : Context} {type node : Schema} {start levels : Nat} {source : Access}
  {around : List Construct} {pieces : List Piece}

theorem sound_of_uses (hn : Nested start levels around)
    {classes : String → Prop} (hc : ∀ className, classes className → ∃ levels node,
      type.Reached start levels around node ∧ node.Classed context className) {piece : Piece}
    (h : piece.Uses source (around.flatMap Construct.names) classes) :
    (mk around piece).Sound context type start source where
  nested := ⟨levels, hn⟩
  binds := by
    rintro name he
    obtain rfl : piece = .binds name := he
    cases h
  reads := by
    rintro name he
    obtain rfl : piece = .reads name := he
    exact h
  given := by
    rintro text he
    obtain rfl : piece = .given text := he
    exact h
  names := by
    rintro className he
    obtain rfl : piece = .names className := he
    exact h.imp id (hc className)

theorem sound_place (hr : type.Reached start levels around node)
    (h : ∀ piece ∈ pieces,
      piece.Uses source (around.flatMap Construct.names) (node.Classed context)) :
    ∀ occurrence ∈ place around pieces, occurrence.Sound context type start source := by
  intro occurrence ho
  obtain ⟨piece, hp, rfl⟩ := List.mem_map.1 ho
  exact sound_of_uses hr.nested (fun className hc => ⟨levels, node, hr, hc⟩) (h piece hp)

theorem sound_code (hn : Nested start levels around) (text : String) :
    ∀ occurrence ∈ place around [.code text], occurrence.Sound context type start source := by
  intro occurrence ho
  cases List.mem_singleton.1 ho
  exact sound_of_uses hn (fun _ (hf : False) => hf.elim) trivial

theorem sound_within {construct : Construct} (hn : Nested start levels (construct :: around))
    (h : ∀ piece ∈ pieces, piece.Fits source construct around) :
    ∀ occurrence ∈ place (construct :: around) pieces,
      occurrence.Sound context type start source := by
  intro occurrence ho
  obtain ⟨piece, hp, rfl⟩ := List.mem_map.1 ho
  obtain ⟨name, hm, rfl⟩ | hu := h piece hp
  · exact {
      nested := ⟨levels, hn⟩
      binds := by
        rintro _ ⟨⟩
        exact ⟨construct, around, rfl, hm⟩
      reads := fun _ he => nomatch he
      given := fun _ he => nomatch he
      names := fun _ he => nomatch he }
  · exact sound_of_uses hn (fun _ hf => hf.elim) hu

end Occurrence

section Pieces

variable {source : Access} {scope : List String} {classes : String → Prop} {piece : Piece}

theorem Tag.uses_pieces {tag : Tag} (h : ∀ className, tag = .fullName className → classes className)
    (hp : piece ∈ tag.pieces) : piece.Uses source scope classes := by
  cases tag with
  | fullName className =>
    obtain rfl | hp := List.mem_cons.1 hp
    · exact .inr (h className rfl)
    · cases List.mem_singleton.1 hp
      trivial
  | literal text =>
    simp only [pieces, List.mem_cons, List.not_mem_nil, or_false] at hp
    obtain rfl | rfl | rfl := hp <;> trivial

theorem Tag.uses_keyPieces {tag : Tag}
    (h : ∀ className, tag = .fullName className → classes className)
    (hp : piece ∈ tag.keyPieces) : piece.Uses source scope classes := by
  have hk : piece ∈ tag.pieces ∨ ∃ text, piece = .code text := by
    cases tag with
    | fullName className =>
      simp only [keyPieces, List.cons_append, List.mem_cons, List.mem_append] at hp
      obtain rfl | hp | rfl | hp := hp
      · exact .inr ⟨_, rfl⟩
      · exact .inl hp
      · exact .inr ⟨_, rfl⟩
      · cases hp
    | literal text => exact .inl hp
  obtain hk | ⟨text, rfl⟩ := hk
  · exact uses_pieces h hk
  · trivial

theorem Test.uses_pieces {test : Test} {value : List Piece}
    (h : ∀ className, test = .isInstance className → classes className)
    (hv : ∀ own ∈ value, own.Uses source scope classes) (hp : piece ∈ test.pieces value) :
    piece.Uses source scope classes := by
  have hk : piece ∈ value ∨ (∃ text, piece = .code text) ∨
      ∃ className, test = .isInstance className ∧ piece = .names className := by
    cases test <;>
      simp only [pieces, List.cons_append, List.mem_cons, List.mem_append, List.not_mem_nil,
        or_false] at hp <;> grind
  obtain hk | ⟨text, rfl⟩ | ⟨className, rfl, rfl⟩ := hk
  · exact hv piece hk
  · trivial
  · exact .inr (h className rfl)

theorem Access.uses_tagged {access : Access} {tag : Tag}
    (ha : ∀ own ∈ access.pieces, own.Uses source scope classes)
    (h : ∀ className, tag = .fullName className → classes className)
    (hp : piece ∈ (access.tagged tag).pieces) : piece.Uses source scope classes := by
  simp only [pieces, List.mem_append, List.mem_cons, List.not_mem_nil, or_false] at hp
  obtain (hp | rfl | hp) | rfl := hp
  · exact ha piece hp
  · trivial
  · exact Tag.uses_pieces h hp
  · trivial

end Pieces

end AvroBindings
