import AvroBindings.Proofs.Schema.WellFormed

/-! Effective names. A dotted name has a last segment, and only one. Below a namespace that is null
or a text that is not empty, a definition with a text as its name gets such a namespace again, and a
name without dots. -/

namespace AvroBindings

/-- A name is two texts around its last dot. -/
structure Dotted (before after name : String) : Prop where
  eq : name = before ++ "." ++ after
  last : '.' ∉ after.toList

/-- A text without dots is the part of a name after its last dot, or the whole of a name. -/
structure LastSegment (segment name : String) : Prop where
  undotted : '.' ∉ segment.toList
  ends : name = segment ∨ ∃ before, name = before ++ "." ++ segment

theorem Dotted.splitLast_eq {before after name : String} (h : Dotted before after name) :
    splitLast '.' name.toList = some (before.toList, after.toList) := by
  rw [h.eq, String.toList_append, String.toList_append, List.append_assoc]
  exact splitLast_append h.last

theorem Dotted.of_splitLast {before after : List Char} {name : String}
    (h : splitLast '.' name.toList = some (before, after)) :
    Dotted (String.ofList before) (String.ofList after) name := by
  obtain ⟨he, hd⟩ := eq_of_splitLast h
  refine ⟨?_, by rwa [String.toList_ofList]⟩
  apply String.toList_injective
  rw [he]
  simp

theorem Dotted.unique {before after name other rest : String} (h : Dotted before after name)
    (ho : Dotted other rest name) : before = other ∧ after = rest := by
  have he := h.splitLast_eq.symm.trans ho.splitLast_eq
  rw [Option.some.injEq, Prod.mk.injEq] at he
  exact ⟨String.toList_injective he.1, String.toList_injective he.2⟩

theorem Dotted.dot_mem {before after name : String} (h : Dotted before after name) :
    '.' ∈ name.toList := by
  rw [h.eq]
  simp

theorem lastSegment_eq_iff {name segment : String} :
    lastSegment name = segment ↔ LastSegment segment name := by
  unfold lastSegment afterLast
  constructor
  · rintro rfl
    cases hs : splitLast '.' name.toList with
    | none =>
      have hd := (splitLast_eq_none_iff name.toList).1 hs
      exact ⟨by rwa [String.toList_ofList], .inl (by rw [String.ofList_toList])⟩
    | some parts =>
      obtain ⟨before, after⟩ := parts
      have hn := Dotted.of_splitLast hs
      exact ⟨hn.last, .inr ⟨_, hn.eq⟩⟩
  · rintro ⟨hd, rfl | ⟨before, rfl⟩⟩
    · rw [(splitLast_eq_none_iff name.toList).2 hd, String.ofList_toList]
    · rw [(Dotted.mk rfl hd).splitLast_eq, String.ofList_toList]

theorem LastSegment.unique {segment other name : String} (h : LastSegment segment name)
    (ho : LastSegment other name) : segment = other :=
  (lastSegment_eq_iff.2 h).symm.trans (lastSegment_eq_iff.2 ho)

inductive Json.IsSpace : Json → Prop where
  | none : IsSpace .null
  | text (space : String) (h : space ≠ "") : IsSpace (.str space)

/-- A namespace that is given as a text or not at all. -/
def Json.ofSpace (space : Option String) : Json := space.elim .null .str

namespace Attributes

theorem isSpace_orNull_str (text : String) : (Json.orNull (.str text)).IsSpace := by
  unfold Json.orNull
  split
  next h => exact .text text (by rintro rfl; simp [Json.isTruthy] at h)
  next => exact .none

/-- A settled definition has an effective namespace and a name without dots. -/
structure Settled (attributes : Attributes) : Prop where
  name : ∃ name, attributes.name = .ok (.str name) ∧ '.' ∉ name.toList
  space : attributes.space.IsSpace

theorem Settled.named {attributes : Attributes} (h : attributes.Settled) : attributes.Named where
  name := h.name.imp fun _ hn => hn.1
  space := by
    cases hs : attributes.space with
    | null => exact .inl rfl
    | str space => exact .inr ⟨space, rfl⟩
    | _ => have := hs ▸ h.space; cases this

@[simp] theorem name_rename (attributes : Attributes) (space name : Json) :
    (attributes.rename space name).name = .ok name := by
  unfold rename Attributes.name
  rw [get?_set_of_ne (by decide), get?_set_self]

@[simp] theorem space_rename (attributes : Attributes) (space name : Json) :
    (attributes.rename space name).space = space := by
  unfold rename Attributes.space
  rw [get?_set_self]
  rfl

theorem get?_rename {key : String} (hn : key ≠ "name") (hs : key ≠ "namespace")
    (attributes : Attributes) (space name : Json) :
    (attributes.rename space name).get? key = attributes.get? key := by
  unfold rename
  rw [get?_set_of_ne hs.symm, get?_set_of_ne hn.symm]

theorem isSpace_own {attributes : Attributes} (h : attributes.Named) {parent : Json}
    (hp : parent.IsSpace) :
    Json.IsSpace (match attributes.space with
      | .null => parent
      | space => space.orNull) := by
  obtain hs | ⟨space, hs⟩ := h.space
  · rw [hs]
    exact hp
  · rw [hs]
    exact isSpace_orNull_str space

theorem effectiveName_of_named {attributes : Attributes} (h : attributes.Named) {parent : Json}
    (hp : parent.IsSpace) :
    ∃ space name, attributes.effectiveName parent = .ok (space, .str name) ∧
      space.IsSpace ∧ '.' ∉ name.toList := by
  obtain ⟨text, hn⟩ := h.name
  have ho := isSpace_own h hp
  cases hd : splitLast '.' text.toList with
  | some parts =>
    obtain ⟨before, after⟩ := parts
    refine ⟨_, String.ofList after, ?_, isSpace_orNull_str (String.ofList before), ?_⟩
    · simp only [effectiveName, hn, bind, Except.bind, hd]
      rfl
    · rw [String.toList_ofList]
      exact (eq_of_splitLast hd).2
  | none =>
    refine ⟨_, text, ?_, ho, (splitLast_eq_none_iff _).1 hd⟩
    simp only [effectiveName, hn, bind, Except.bind, hd]
    cases attributes.space <;> rfl

/-- The namespace and the attributes that a definition gets below a parent namespace. A definition
that cannot be named stays as it is. -/
def settle (parent : Json) (attributes : Attributes) : Json × Attributes :=
  match attributes.effectiveName parent with
  | .ok (space, name) => (space, attributes.rename space name)
  | .error _ => (parent, attributes)

theorem settle_eq {parent space name : Json} {attributes : Attributes}
    (h : attributes.effectiveName parent = .ok (space, name)) :
    attributes.settle parent = (space, attributes.rename space name) := by
  unfold settle
  rw [h]

theorem isSpace_settle {attributes : Attributes} (h : attributes.Named) {parent : Json}
    (hp : parent.IsSpace) : (attributes.settle parent).1.IsSpace := by
  obtain ⟨space, name, he, hs, -⟩ := effectiveName_of_named h hp
  rw [settle_eq he]
  exact hs

theorem settled_settle {attributes : Attributes} (h : attributes.Named) {parent : Json}
    (hp : parent.IsSpace) : (attributes.settle parent).2.Settled := by
  obtain ⟨space, name, he, hs, hd⟩ := effectiveName_of_named h hp
  rw [settle_eq he]
  exact ⟨⟨name, name_rename .., hd⟩, by rw [space_rename]; exact hs⟩

/-- The text of the full name, empty if there is no name. -/
def qualifiedText (attributes : Attributes) : String :=
  match attributes.qualifiedName with
  | .ok name => name.text
  | .error _ => ""

theorem Titled.qualifiedName {attributes : Attributes} (h : attributes.Titled) :
    attributes.qualifiedName = .ok (.str attributes.qualifiedText) := by
  obtain ⟨name, hn⟩ := h
  have hq : attributes.qualifiedName = .ok (fullName attributes.space (.str name)) := by
    rw [Attributes.qualifiedName, hn]
    rfl
  unfold qualifiedText
  rw [hq]
  unfold fullName
  split <;> rfl

theorem Named.qualifiedName {attributes : Attributes} (h : attributes.Named) :
    attributes.qualifiedName = .ok (.str attributes.qualifiedText) :=
  h.titled.qualifiedName

def shortName (attributes : Attributes) : String :=
  match attributes.name with
  | .ok name => name.text
  | .error _ => ""

theorem Titled.name_eq {attributes : Attributes} (h : attributes.Titled) :
    attributes.name = .ok (.str attributes.shortName) := by
  obtain ⟨name, hn⟩ := h
  unfold shortName
  rw [hn]
  rfl

theorem assign_of_named {attributes : Attributes} (h : attributes.Named) {parent : Json}
    (hp : parent.IsSpace) :
    attributes.assign parent =
      ⟨[(attributes.settle parent).2.qualifiedText], .ok (attributes.settle parent)⟩ := by
  obtain ⟨space, name, he, -, -⟩ := effectiveName_of_named h hp
  have hf := (settled_settle h hp).named.qualifiedName
  rw [settle_eq he] at hf ⊢
  have hr : Registry.registeredName space (.str name) =
      .ok (attributes.rename space (.str name)).qualifiedText := by
    have hn : fullName space (.str name) =
        .str (attributes.rename space (.str name)).qualifiedText := by
      simpa [Attributes.qualifiedName, Except.map] using hf
    rw [Registry.registeredName, hn]
  unfold Attributes.assign
  rw [he]
  change (do
    Emitting.emit (← liftM (Registry.registeredName space (.str name)))
    return (space, attributes.rename space (.str name)) : Emitting String (Json × Attributes)) = _
  rw [hr]
  rfl

end Attributes

def Options.interfaceText (options : Options) (name : String) : String :=
  if options.withClasses then "I" ++ name else name

def Options.refer (options : Options) (space : Json) (name : String) : String :=
  if options.withoutNamespaces then name
  else if space.isTruthy then space.text ++ "." ++ name else name

namespace Attributes

variable {attributes : Attributes}

theorem referenceName_str (options : Options) (attributes : Attributes) (name : String) :
    attributes.referenceName options (.str name) = .str (options.refer attributes.space name) := by
  unfold referenceName Options.refer fullName
  split
  · rfl
  · split <;> rfl

theorem Titled.interfaceName (h : attributes.Titled) (options : Options) :
    attributes.interfaceName options = .ok (.str (options.interfaceText attributes.shortName)) := by
  unfold Attributes.interfaceName Options.interfaceText
  rw [h.name_eq]
  simp only [Except.map, Json.text_str]
  split <;> rfl

theorem Titled.qualifiedInterfaceName (h : attributes.Titled) (options : Options) :
    attributes.qualifiedInterfaceName options =
      .ok (.str (options.refer attributes.space (options.interfaceText attributes.shortName))) := by
  unfold Attributes.qualifiedInterfaceName
  rw [h.interfaceName, Except.map, referenceName_str]

theorem Titled.qualifiedDeclarationName (h : attributes.Titled) (options : Options) :
    attributes.qualifiedDeclarationName options =
      .ok (.str (options.refer attributes.space attributes.shortName)) := by
  unfold Attributes.qualifiedDeclarationName
  rw [h.name_eq, Except.map, referenceName_str]

end Attributes

end AvroBindings
