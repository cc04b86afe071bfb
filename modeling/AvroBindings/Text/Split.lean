/-! Splitting a text at a character: everywhere, or at its last occurrence. -/

namespace AvroBindings

/-- The parts before and after the last occurrence of a character, if there is one. -/
def splitLast (separator : Char) : List Char → Option (List Char × List Char)
  | [] => none
  | c :: rest =>
    match splitLast separator rest with
    | some (before, after) => some (c :: before, after)
    | none => if c = separator then some ([], rest) else none

def afterLast (separator : Char) (text : List Char) : List Char :=
  match splitLast separator text with
  | some (_, after) => after
  | none => text

variable {separator : Char}

theorem notMem_of_mem_splitOn {text part : List Char} (h : part ∈ text.splitOn separator) :
    separator ∉ part := by
  induction text generalizing part with
  | nil =>
    cases List.mem_singleton.1 h
    exact List.not_mem_nil
  | cons first rest ih =>
    rw [List.splitOn_cons_eq_if_modifyHead] at h
    split at h
    next =>
      obtain rfl | h := List.mem_cons.1 h
      · exact List.not_mem_nil
      · exact ih h
    next hf =>
      have hf : separator ≠ first := fun he => hf (beq_iff_eq.2 he.symm)
      obtain ⟨next, parts, hs⟩ := List.exists_cons_of_ne_nil (List.splitOn_ne_nil separator rest)
      rw [hs] at ih h
      obtain rfl | h := List.mem_cons.1 h
      · exact List.not_mem_cons_of_ne_of_not_mem hf (ih List.mem_cons_self)
      · exact ih (List.mem_cons_of_mem next h)

theorem mem_splitOn {c : Char} {text : List Char} (h : c ∈ text) :
    c = separator ∨ ∃ part ∈ text.splitOn separator, c ∈ part := by
  induction text with
  | nil => cases h
  | cons first rest ih =>
    rw [List.splitOn_cons_eq_if_modifyHead]
    split
    next hf =>
      obtain rfl | hr := List.mem_cons.1 h
      · exact .inl (eq_of_beq hf)
      · exact (ih hr).imp_right fun ⟨part, hp, hc⟩ => ⟨part, List.mem_cons_of_mem _ hp, hc⟩
    next =>
      obtain ⟨next, parts, hs⟩ := List.exists_cons_of_ne_nil (List.splitOn_ne_nil separator rest)
      rw [hs] at ih ⊢
      obtain rfl | hr := List.mem_cons.1 h
      · exact .inr ⟨c :: next, List.mem_cons_self, List.mem_cons_self⟩
      · refine (ih hr).imp_right ?_
        rintro ⟨part, hp, hc⟩
        obtain rfl | hp := List.mem_cons.1 hp
        · exact ⟨first :: part, List.mem_cons_self, List.mem_cons_of_mem first hc⟩
        · exact ⟨part, List.mem_cons_of_mem _ hp, hc⟩

theorem splitOn_append {before : List Char} (h : separator ∉ before) (after : List Char) :
    (before ++ after).splitOn separator = (after.splitOn separator).modifyHead (before ++ ·) := by
  induction before with
  | nil => exact (congrFun List.modifyHead_id _).symm
  | cons c rest ih =>
    have hc : c ≠ separator := (List.ne_of_not_mem_cons h).symm
    have hr := ih (List.not_mem_of_not_mem_cons h)
    simp [List.splitOn_cons_eq_if_modifyHead, hr, hc, Function.comp_def]

theorem splitLast_eq_none_iff (text : List Char) :
    splitLast separator text = none ↔ separator ∉ text := by
  induction text with
  | nil => simp [splitLast]
  | cons c rest ih =>
    rw [splitLast]
    split
    next h => simp [h] at ih; simp [ih]
    next h => simp [h] at ih; by_cases hc : c = separator <;> simp_all [eq_comm]

theorem eq_of_splitLast {text before after : List Char}
    (h : splitLast separator text = some (before, after)) :
    text = before ++ separator :: after ∧ separator ∉ after := by
  induction text generalizing before with
  | nil => simp [splitLast] at h
  | cons c rest ih =>
    rw [splitLast] at h
    split at h
    next b a hr =>
      cases h
      exact ⟨by simp [(ih hr).1], (ih hr).2⟩
    next hr =>
      split at h
      next hc => cases h; exact ⟨by simp [hc], (splitLast_eq_none_iff _).1 hr⟩
      next => cases h

theorem splitLast_append {before after : List Char} (h : separator ∉ after) :
    splitLast separator (before ++ separator :: after) = some (before, after) := by
  induction before with
  | nil =>
    rw [List.nil_append, splitLast, (splitLast_eq_none_iff after).2 h]
    exact if_pos rfl
  | cons c rest ih => rw [List.cons_append, splitLast, ih]

end AvroBindings
