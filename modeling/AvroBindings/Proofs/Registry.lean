import AvroBindings.Naming

/-! What names stand for in a registry that holds texts only. A name that is registered stands for
itself, another one for the only full name that ends in it, and a name that several full names end
in is ambiguous. -/

namespace AvroBindings.Registry

/-- A name that is not registered and that two registered names end in. -/
def IsAmbiguous (registry : Registry) (name : String) : Prop :=
  name ∉ registry.names ∧ ∃ first ∈ registry.names, ∃ second ∈ registry.names,
    first ≠ second ∧ lastSegment first = name ∧ lastSegment second = name

/-- Some registered name is the given one or ends in it. -/
def Knows (registry : Registry) (name : String) : Prop :=
  ∃ full ∈ registry.names, full = name ∨ lastSegment full = name

theorem others_insert (registry : Registry) (name : String) :
    (registry.insert name).others = registry.others := by
  unfold insert
  split <;> rfl

theorem others_insertAll (registry : Registry) (names : List String) :
    (registry.insertAll names).others = registry.others := by
  induction names generalizing registry with
  | nil => rfl
  | cons name rest ih =>
    simp only [insertAll, List.foldl_cons] at ih ⊢
    rw [ih, others_insert]

theorem nodup_insertAll {registry : Registry} (h : registry.names.Nodup) (names : List String) :
    (registry.insertAll names).names.Nodup := by
  induction names generalizing registry with
  | nil => exact h
  | cons name rest ih =>
    simp only [insertAll, List.foldl_cons] at ih ⊢
    exact ih (nodup_insert h name)

theorem mem_candidates {registry : Registry} {name full : String} :
    full ∈ registry.candidates name ↔ full ∈ registry.names ∧ lastSegment full = name := by
  simp [candidates]

theorem find_of_mem {registry : Registry} {name : String} (h : name ∈ registry.names) :
    registry.find name = .ok (some name) := by
  unfold find
  rw [if_pos h]

theorem mem_of_find {registry : Registry} {name full : String}
    (h : registry.find name = .ok (some full)) : full ∈ registry.names := by
  unfold find at h
  split at h
  next hm => cases h; exact hm
  next =>
    split at h
    next => cases h
    next =>
      split at h
      next => cases h
      next only hc =>
        cases h
        exact (mem_candidates.1 (hc ▸ List.mem_singleton.2 rfl)).1
      next => cases h

theorem find_eq_some {registry : Registry} {name full : String}
    (h : registry.find name = .ok (some full)) :
    (name ∈ registry.names ∧ full = name) ∨
      (name ∉ registry.names ∧ registry.candidates name = [full]) := by
  unfold find at h
  split at h
  next hm =>
    cases h
    exact .inl ⟨hm, rfl⟩
  next hm =>
    split at h
    next => cases h
    next =>
      split at h
      next => cases h
      next only hc =>
        cases h
        exact .inr ⟨hm, hc⟩
      next => cases h

/-- Looking up a name fails exactly if the name is ambiguous, and then lists what it could be. It
gives a full name exactly if it is not, and some name is known for it. -/
theorem find_cases {registry : Registry} (ho : registry.others = []) (hn : registry.names.Nodup)
    (name : String) :
    (¬registry.IsAmbiguous name ∧ registry.Knows name ∧
        ∃ full, registry.find name = .ok (some full)) ∨
      (¬registry.IsAmbiguous name ∧ ¬registry.Knows name ∧ registry.find name = .ok none) ∨
      (registry.IsAmbiguous name ∧ registry.find name =
        .error (.ambiguousReference name (sorted (registry.candidates name)))) := by
  by_cases hm : name ∈ registry.names
  · exact .inl ⟨fun h => h.1 hm, ⟨name, hm, .inl rfl⟩, name, find_of_mem hm⟩
  · unfold find
    rw [if_neg hm, ho]
    simp only
    cases hc : registry.candidates name with
    | nil =>
      have hs : ∀ full ∈ registry.names, lastSegment full ≠ name := by
        intro full hf hs
        have hm := mem_candidates.2 ⟨hf, hs⟩
        rw [hc] at hm
        cases hm
      refine .inr (.inl ⟨?_, ?_, rfl⟩)
      · rintro ⟨-, first, hf, -, -, -, hl, -⟩
        exact hs first hf hl
      · rintro ⟨full, hf, rfl | hl⟩
        · exact hm hf
        · exact hs full hf hl
    | cons first rest =>
      have hd : (first :: rest).Nodup := hc ▸ hn.filter _
      have hf : first ∈ registry.names ∧ lastSegment first = name :=
        mem_candidates.1 (hc ▸ List.mem_cons_self)
      cases rest with
      | nil =>
        refine .inl ⟨?_, ⟨first, hf.1, .inr hf.2⟩, first, rfl⟩
        rintro ⟨-, one, ho, other, ht, hne, hs, hs'⟩
        have h1 : one = first := List.mem_singleton.1 (hc ▸ mem_candidates.2 ⟨ho, hs⟩)
        have h2 : other = first := List.mem_singleton.1 (hc ▸ mem_candidates.2 ⟨ht, hs'⟩)
        exact hne (h1.trans h2.symm)
      | cons second rest =>
        have hs : second ∈ registry.names ∧ lastSegment second = name :=
          mem_candidates.1 (hc ▸ List.mem_cons_of_mem first List.mem_cons_self)
        have hne : first ≠ second := fun h => (List.nodup_cons.1 hd).1 (h ▸ List.mem_cons_self)
        exact .inr (.inr ⟨⟨hm, first, hf.1, second, hs.1, hne, hf.2, hs.2⟩, rfl⟩)

theorem exists_find {registry : Registry} (ho : registry.others = []) (hn : registry.names.Nodup)
    {name : String} (ha : ¬registry.IsAmbiguous name) :
    ∃ full, registry.find name = .ok full := by
  obtain ⟨-, -, full, hf⟩ | ⟨-, -, hf⟩ | ⟨h, -⟩ := find_cases ho hn name
  · exact ⟨some full, hf⟩
  · exact ⟨none, hf⟩
  · exact absurd h ha

theorem find_of_ambiguous {registry : Registry} (ho : registry.others = [])
    (hn : registry.names.Nodup) {name : String} (ha : registry.IsAmbiguous name) :
    registry.find name =
      .error (.ambiguousReference name (sorted (registry.candidates name))) := by
  obtain ⟨h, -, -⟩ | ⟨h, -, -⟩ | ⟨-, hf⟩ := find_cases ho hn name
  · exact absurd ha h
  · exact absurd ha h
  · exact hf

theorem pairwise_le_sorted (names : List String) : (sorted names).Pairwise (· ≤ ·) := by
  have hs : (sorted names).Pairwise fun left right => decide (left ≤ right) = true := by
    apply List.pairwise_mergeSort
    · intro a b c hab hbc
      exact decide_eq_true (String.le_trans (of_decide_eq_true hab) (of_decide_eq_true hbc))
    · intro a b
      simpa using String.le_total a b
  exact hs.imp of_decide_eq_true

theorem mem_sorted {names : List String} {name : String} : name ∈ sorted names ↔ name ∈ names :=
  (List.mergeSort_perm names _).mem_iff

theorem pairwise_sorted {names : List String} (h : names.Nodup) :
    (sorted names).Pairwise (· < ·) := by
  have hn : (sorted names).Nodup := (List.mergeSort_perm names _).nodup_iff.2 h
  exact ((pairwise_le_sorted names).and hn).imp fun ⟨hle, hne⟩ => Std.lt_of_le_of_ne hle hne

theorem sorted_perm {left right : List String} (h : left.Perm right) :
    sorted left = sorted right := by
  have hp : (sorted left).Perm (sorted right) :=
    (List.mergeSort_perm left _).trans (h.trans (List.mergeSort_perm right _).symm)
  exact hp.eq_of_pairwise (fun _ _ _ _ => String.le_antisymm) (pairwise_le_sorted left)
    (pairwise_le_sorted right)

theorem find_perm {left right : Registry} (h : left.names.Perm right.names)
    (ho : left.others = right.others) (name : String) : left.find name = right.find name := by
  have hc : (left.candidates name).Perm (right.candidates name) := h.filter _
  unfold find
  simp only [h.mem_iff, ho]
  -- beside the order of the candidates, only their number counts
  match hl : left.candidates name, hr : right.candidates name with
  | [], [] => rfl
  | [first], [second] =>
    rw [hl, hr] at hc
    rw [List.singleton_perm_singleton.1 hc]
  | _ :: _ :: _, _ :: _ :: _ =>
    rw [hl, hr] at hc
    simp only [sorted_perm hc]
  | [], _ :: _ | _ :: _, [] | [_], _ :: _ :: _ | _ :: _ :: _, [_] =>
    have hs := hc.length_eq
    rw [hl, hr] at hs
    simp at hs

end AvroBindings.Registry
