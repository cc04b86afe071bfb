import AvroBindings.Proofs.Naming

/-! What definitions say about namespaces, told from a definition outward. A definition decides a
namespace by a dotted name or by an attribute, and the nearest one that decides is followed. Below
a parent namespace, a definition gets what is followed when it is looked at first. -/

namespace AvroBindings

def Json.space : Option String → Json
  | none => .null
  | some text => .str text

def qualify : Option String → String → String
  | none, name => name
  | some space, name => space ++ "." ++ name

namespace Attributes

/-- A definition decides a namespace by what stands before the last dot of its name, or where its
name has no dot by an attribute. -/
inductive Decides (attributes : Attributes) : String → Prop where
  | byName {before after name : String} (hn : attributes.name = .ok (.str name))
    (hd : Dotted before after name) : Decides attributes before
  | byAttribute {name space : String} (hn : attributes.name = .ok (.str name))
    (hd : '.' ∉ name.toList) (hs : attributes.space = .str space) : Decides attributes space

/-- The namespace that is decided by the first of some definitions that decides one, where the
empty text means none, or a given one if none of them decides. -/
inductive Nearest (outer : Option String) : List Attributes → Option String → Prop where
  | undecided : Nearest outer [] outer
  | decided {first : Attributes} {others : List Attributes} {text : String}
    (h : first.Decides text) : Nearest outer (first :: others) (if text = "" then none else some text)
  | passed {first : Attributes} {others : List Attributes} {space : Option String}
    (h : ∀ text, ¬first.Decides text) (hn : Nearest outer others space) :
    Nearest outer (first :: others) space

theorem Decides.unique {attributes : Attributes} {text other : String} (h : attributes.Decides text)
    (ho : attributes.Decides other) : text = other := by
  cases h with
  | byName hn hd =>
    cases ho with
    | byName hn' hd' =>
      rw [hn, Except.ok.injEq, Json.str.injEq] at hn'
      exact (hd.unique (hn' ▸ hd')).1
    | byAttribute hn' hd' hs =>
      rw [hn, Except.ok.injEq, Json.str.injEq] at hn'
      exact absurd (hn' ▸ hd.dot_mem) hd'
  | byAttribute hn hd hs =>
    cases ho with
    | byName hn' hd' =>
      rw [hn, Except.ok.injEq, Json.str.injEq] at hn'
      exact absurd (hn' ▸ hd'.dot_mem) hd
    | byAttribute hn' hd' hs' =>
      rw [hs, Json.str.injEq] at hs'
      exact hs'

namespace Nearest

variable {outer space other : Option String} {definitions inner : List Attributes}

theorem unique (h : Nearest outer definitions space) (ho : Nearest outer definitions other) :
    space = other := by
  induction h with
  | undecided =>
    cases ho
    rfl
  | decided hd =>
    cases ho with
    | decided hd' => rw [hd.unique hd']
    | passed hp hn => exact absurd hd (hp _)
  | passed hp hn ih =>
    cases ho with
    | decided hd => exact absurd hd (hp _)
    | passed hp' hn' => exact ih hn'

theorem exists_nearest (outer : Option String) (definitions : List Attributes) :
    ∃ space, Nearest outer definitions space := by
  induction definitions with
  | nil => exact ⟨outer, .undecided⟩
  | cons first others ih =>
    by_cases h : ∃ text, first.Decides text
    · obtain ⟨text, hd⟩ := h
      exact ⟨_, .decided hd⟩
    · obtain ⟨space, hn⟩ := ih
      exact ⟨space, .passed (not_exists.1 h) hn⟩

theorem append_iff :
    Nearest outer (inner ++ definitions) space ↔
      ∃ between, Nearest outer definitions between ∧ Nearest between inner space := by
  induction inner with
  | nil =>
    constructor
    · exact fun h => ⟨space, h, .undecided⟩
    · rintro ⟨between, h, hb⟩
      cases hb
      exact h
  | cons first others ih =>
    constructor
    · intro h
      cases h with
      | decided hd =>
        obtain ⟨between, hb⟩ := exists_nearest outer definitions
        exact ⟨between, hb, .decided hd⟩
      | passed hp hn =>
        obtain ⟨between, hb, hi⟩ := ih.1 hn
        exact ⟨between, hb, .passed hp hi⟩
    · rintro ⟨between, hb, hi⟩
      cases hi with
      | decided hd => exact .decided hd
      | passed hp hn => exact .passed hp (ih.2 ⟨between, hb, hn⟩)

theorem ne_empty (h : Nearest none definitions space) : space ≠ some "" := by
  induction h with
  | undecided => simp
  | decided hd => split <;> simp_all
  | passed hp hn ih => exact ih

end Nearest

theorem orNull_str (text : String) :
    Json.orNull (.str text) = .space (if text = "" then none else some text) := by
  unfold Json.orNull Json.isTruthy
  by_cases h : text = "" <;> simp [h, Json.space]

/-- A definition gets the namespace that is nearest to it, and keeps the last segment of its
name. -/
theorem effectiveName_of_nearest {attributes : Attributes} (h : attributes.Named)
    {outer space : Option String} (hn : Nearest outer [attributes] space) :
    ∃ own name, attributes.name = .ok (.str own) ∧ LastSegment name own ∧
      attributes.effectiveName (.space outer) = .ok (.space space, .str name) := by
  obtain ⟨own, ho⟩ := h.name
  cases hs : splitLast '.' own.toList with
  | some parts =>
    obtain ⟨before, after⟩ := parts
    have hd := Dotted.of_splitLast hs
    have hf : Nearest outer [attributes] _ := .decided (.byName ho hd)
    refine ⟨own, String.ofList after, ho, ⟨hd.last, .inr ⟨_, hd.eq⟩⟩, ?_⟩
    rw [hn.unique hf, ← orNull_str]
    simp only [effectiveName, ho, bind, Except.bind, hs]
    rfl
  | none =>
    have hd := (splitLast_eq_none_iff own.toList).1 hs
    refine ⟨own, own, ho, ⟨hd, .inl rfl⟩, ?_⟩
    simp only [effectiveName, ho, bind, Except.bind, hs]
    obtain ha | ⟨text, ha⟩ := h.space
    · have hp : ∀ text, ¬attributes.Decides text := by
        intro text hd'
        cases hd' with
        | byName hn' hd' =>
          rw [ho, Except.ok.injEq, Json.str.injEq] at hn'
          exact hd (hn' ▸ hd'.dot_mem)
        | byAttribute _ _ hs' =>
          rw [ha] at hs'
          cases hs'
      rw [hn.unique (.passed hp .undecided), ha]
      rfl
    · rw [hn.unique (.decided (.byAttribute ho hd ha)), ← orNull_str, ha]
      rfl

theorem settle_of_nearest {attributes : Attributes} (h : attributes.Named)
    {outer space : Option String} (hn : Nearest outer [attributes] space) :
    ∃ own name, attributes.name = .ok (.str own) ∧ LastSegment name own ∧
      attributes.settle (.space outer) =
        (.space space, attributes.rename (.space space) (.str name)) := by
  obtain ⟨own, name, ho, hl, he⟩ := effectiveName_of_nearest h hn
  exact ⟨own, name, ho, hl, settle_eq he⟩

theorem qualifiedText_rename (attributes : Attributes) {space : Option String} (h : space ≠ some "")
    (name : String) :
    (attributes.rename (.space space) (.str name)).qualifiedText = qualify space name := by
  unfold qualifiedText Attributes.qualifiedName
  rw [name_rename, space_rename]
  cases space with
  | none => rfl
  | some text =>
    have ht : Json.isTruthy (.str text) = true := by
      simp only [Json.isTruthy]
      simpa using h
    simp [Except.map, fullName, Json.space, ht, qualify]

end Attributes

end AvroBindings
