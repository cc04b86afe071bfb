import AvroBindings.Error
import Mathlib.Data.List.Forall2

/-! Lists gone through with errors. The whole succeeds exactly if every element does, and fails as
the first element that fails. -/

namespace AvroBindings.Traversal

variable {α β ε : Type} {f : α → Except ε β}

theorem ok_bind (a : α) (next : α → Except ε β) : (.ok a >>= next) = next a := rfl

theorem bind_eq_ok_iff {x : Except ε α} {next : α → Except ε β} {b : β} :
    (x >>= next) = .ok b ↔ ∃ a, x = .ok a ∧ next a = .ok b := by
  cases x with
  | error e => simp [bind, Except.bind]
  | ok a => simp [bind, Except.bind]

theorem map_eq_ok_iff {x : Except ε α} {g : α → β} {b : β} :
    x.map g = .ok b ↔ ∃ a, x = .ok a ∧ g a = b := by
  cases x with
  | error e => simp [Except.map]
  | ok a => simp [Except.map]

theorem mapM_eq_ok_iff {items : List α} {results : List β} :
    items.mapM f = .ok results ↔ List.Forall₂ (fun item result => f item = .ok result)
      items results := by
  induction items generalizing results with
  | nil => cases results <;> simp [pure, Except.pure]
  | cons item rest ih =>
    rw [List.mapM_cons]
    cases hf : f item with
    | error e => cases results <;> simp [bind, Except.bind, hf]
    | ok first =>
      cases hr : rest.mapM f with
      | error e => cases results <;> simp [bind, Except.bind, ← ih, hr, hf]
      | ok others => cases results <;> simp [bind, Except.bind, pure, Except.pure, ← ih, hr, hf]

theorem mapM_congr {g : α → Except ε β} {items : List α} (h : ∀ item ∈ items, f item = g item) :
    items.mapM f = items.mapM g := by
  induction items with
  | nil => rfl
  | cons item rest ih =>
    have hr := ih fun other ho => h other (List.mem_cons_of_mem item ho)
    rw [List.mapM_cons, List.mapM_cons, h item List.mem_cons_self, hr]

theorem mapM_eq_error_iff {items : List α} {e : ε} :
    items.mapM f = .error e ↔ ∃ before item after, items = before ++ item :: after ∧
      (∀ other ∈ before, ∃ result, f other = .ok result) ∧ f item = .error e := by
  induction items with
  | nil => simp [pure, Except.pure]
  | cons item rest ih =>
    rw [List.mapM_cons]
    constructor
    · intro h
      cases hf : f item with
      | error e' =>
        rw [hf] at h
        cases h
        exact ⟨[], item, rest, rfl, by simp, hf⟩
      | ok first =>
        cases hr : rest.mapM f with
        | ok others => rw [hf, hr] at h; cases h
        | error e' =>
          rw [hf, hr] at h
          cases h
          obtain ⟨before, bad, after, rfl, hb, he⟩ := ih.1 hr
          refine ⟨item :: before, bad, after, rfl, ?_, he⟩
          intro other ho
          obtain rfl | ho := List.mem_cons.1 ho
          · exact ⟨first, hf⟩
          · exact hb other ho
    · rintro ⟨before, bad, after, hs, hb, he⟩
      cases before with
      | nil =>
        cases hs
        rw [he]
        rfl
      | cons first before =>
        cases hs
        obtain ⟨result, hr⟩ := hb item List.mem_cons_self
        have ht := ih.2 ⟨before, bad, after, rfl,
          fun other ho => hb other (List.mem_cons_of_mem item ho), he⟩
        rw [hr, ht]
        rfl

theorem exists_mapM_eq_ok {items : List α} (h : ∀ item ∈ items, ∃ result, f item = .ok result) :
    ∃ results, items.mapM f = .ok results := by
  cases hm : items.mapM f with
  | ok results => exact ⟨results, rfl⟩
  | error e =>
    obtain ⟨before, item, after, rfl, -, he⟩ := mapM_eq_error_iff.1 hm
    obtain ⟨result, hr⟩ := h item (by simp)
    rw [hr] at he
    cases he

theorem ok_of_mapM {items : List α} {results : List β} (h : items.mapM f = .ok results)
    {item : α} (hi : item ∈ items) : ∃ result ∈ results, f item = .ok result := by
  have hf := mapM_eq_ok_iff.1 h
  clear h
  induction hf with
  | nil => cases hi
  | cons hf _ ih =>
    obtain rfl | hi := List.mem_cons.1 hi
    · exact ⟨_, List.mem_cons_self, hf⟩
    · obtain ⟨result, hm, hr⟩ := ih hi
      exact ⟨result, List.mem_cons_of_mem _ hm, hr⟩

theorem of_mem_mapM {items : List α} {results : List β} (h : items.mapM f = .ok results)
    {result : β} (hr : result ∈ results) : ∃ item ∈ items, f item = .ok result := by
  have hf := mapM_eq_ok_iff.1 h
  clear h
  induction hf with
  | nil => cases hr
  | cons hf _ ih =>
    obtain rfl | hr := List.mem_cons.1 hr
    · exact ⟨_, List.mem_cons_self, hf⟩
    · obtain ⟨item, hm, hi⟩ := ih hr
      exact ⟨item, List.mem_cons_of_mem _ hm, hi⟩

theorem forall₂_of_mapM {items : List α} {results : List β} (h : items.mapM f = .ok results)
    {p : β → α → Prop} (hp : ∀ item ∈ items, ∀ result, f item = .ok result → p result item) :
    List.Forall₂ p results items := by
  have hf := mapM_eq_ok_iff.1 h
  clear h
  induction hf with
  | nil => exact .nil
  | cons hf _ ih =>
    refine .cons (hp _ List.mem_cons_self _ hf) (ih fun item hi => ?_)
    exact hp item (List.mem_cons_of_mem _ hi)

theorem isEmpty_eq_of_forall₂ {p : α → β → Prop} {items : List α} {results : List β}
    (h : List.Forall₂ p items results) : items.isEmpty = results.isEmpty := by
  cases h <;> rfl

theorem map_eq_of_forall₂ {γ : Type} {image : α → γ} {other : β → γ} {items : List α}
    {results : List β}
    (h : List.Forall₂ (fun item result => image item = other result) items results) :
    items.map image = results.map other := by
  rw [← List.forall₂_eq_eq_eq, List.forall₂_map_left_iff, List.forall₂_map_right_iff]
  exact h

theorem mem_iff_of_mapM {items : List α} {results : List β} (h : items.mapM f = .ok results)
    {result : β} : result ∈ results ↔ ∃ item ∈ items, f item = .ok result := by
  constructor
  · exact of_mem_mapM h
  · rintro ⟨item, hi, hf⟩
    obtain ⟨other, hm, ho⟩ := ok_of_mapM h hi
    rw [hf] at ho
    cases ho
    exact hm

theorem mapM_append_cons {before after : List α} {item : α} {results : List β}
    (h : (before ++ item :: after).mapM f = .ok results) :
    ∃ first result last, results = first ++ result :: last ∧ before.mapM f = .ok first ∧
      f item = .ok result := by
  rw [List.mapM_append, List.mapM_cons] at h
  obtain ⟨first, hf, h⟩ := bind_eq_ok_iff.1 h
  obtain ⟨others, ho, h⟩ := bind_eq_ok_iff.1 h
  obtain ⟨result, hr, ho⟩ := bind_eq_ok_iff.1 ho
  obtain ⟨last, -, ho⟩ := bind_eq_ok_iff.1 ho
  cases ho
  cases h
  exact ⟨first, result, last, rfl, hf, hr⟩

theorem invariant_of_foldlM {p : β → Prop} {step : β → α → Except ε β}
    (h : ∀ state item result, p state → step state item = .ok result → p result) {items : List α}
    {start result : β} (hs : p start) (hf : items.foldlM step start = .ok result) : p result := by
  induction items generalizing start with
  | nil =>
    cases hf
    exact hs
  | cons item rest ih =>
    rw [List.foldlM_cons] at hf
    obtain ⟨middle, hm, hf⟩ := bind_eq_ok_iff.1 hf
    exact ih (h start item middle hs hm) hf

theorem exists_first {p : α → Prop} {items : List α} (h : ∃ item ∈ items, p item) :
    ∃ before item after, items = before ++ item :: after ∧ p item ∧
      ∀ other ∈ before, ¬p other := by
  classical
  obtain ⟨item, hm, hp⟩ := h
  have hs : (items.find? fun other => decide (p other)).isSome :=
    List.find?_isSome.2 ⟨item, hm, decide_eq_true hp⟩
  obtain ⟨first, hf⟩ := Option.isSome_iff_exists.1 hs
  obtain ⟨hp, before, after, he, hb⟩ := List.find?_eq_some_iff_append.1 hf
  exact ⟨before, first, after, he, of_decide_eq_true hp, fun other ho => by simpa using hb other ho⟩

end AvroBindings.Traversal
