import AvroBindings.Proofs.Text.Words

/-! Reading generated code, its brackets and its lines at once. A reader stops at an opening bracket
before which a line has nothing but its indentation, and at a third line feed in a row. Code is put
together from pieces, and indented as a whole; what is read of it comes from the pieces. -/

namespace AvroBindings

def Layout.firstMark (line : List Char) : Option Char := (line.dropWhile isBlank).head?

/-- Code goes on from the line before, if a line begins like that. -/
def Layout.GoesOn (line : List Char) : Prop :=
  firstMark line = some '(' ∨ firstMark line = some '['

/-- Where in a text a reader is. -/
inductive Place where
  /-- At the start of a line, after so many line feeds in a row. -/
  | start (feeds : Nat)
  | margin
  | inside
deriving DecidableEq

namespace Place

def next (place : Place) (c : Char) : Option Place :=
  if c = '\n' then
    match place with
    | start feeds => if feeds < 2 then some (start (feeds + 1)) else none
    | _ => some (start 1)
  else if Layout.isBlank c then
    if place = inside then some inside else some margin
  else if c = '(' ∨ c = '[' then
    if place = inside then some inside else none
  else some inside

variable {place result : Place} {c : Char} {text : List Char}

theorem next_feed (h : place.next '\n' = some result) : ∃ feeds, result = start (feeds + 1) := by
  cases place with
  | start feeds =>
    simp only [next, if_true, Option.ite_none_right_eq_some] at h
    exact ⟨feeds, (Option.some.inj h.2).symm⟩
  | margin => exact ⟨0, (Option.some.inj h).symm⟩
  | inside => exact ⟨0, (Option.some.inj h).symm⟩

theorem lines_of_foldlM (h : text.foldlM next place = some result) :
    ∃ first rest, Layout.lines text = first :: rest ∧ (∀ line ∈ rest, ¬Layout.GoesOn line) ∧
      (place = inside ∨ ¬Layout.GoesOn first) := by
  induction text generalizing place with
  | nil => exact ⟨[], [], rfl, by simp, .inr (by simp [Layout.GoesOn, Layout.firstMark])⟩
  | cons c text ih =>
    rw [List.foldlM_cons] at h
    obtain ⟨after, hn, h⟩ := Option.bind_eq_some_iff.1 h
    obtain ⟨first, rest, hl, hr, hf⟩ := ih h
    unfold Layout.lines at hl ⊢
    rw [List.splitOn_cons_eq_if_modifyHead, hl]
    by_cases hc : c = '\n'
    · subst hc
      obtain ⟨feeds, rfl⟩ := next_feed hn
      refine ⟨[], first :: rest, if_pos rfl, ?_, .inr (by simp [Layout.GoesOn, Layout.firstMark])⟩
      exact List.forall_mem_cons.2 ⟨hf.resolve_left (by simp), hr⟩
    · refine ⟨c :: first, rest, if_neg (by simpa using hc), hr, ?_⟩
      simp only [next, if_neg hc] at hn
      simp only [Layout.GoesOn, Layout.firstMark, List.dropWhile_cons] at hf ⊢
      split at hn
      next hb =>
        rw [if_pos hb]
        split at hn
        next hp => exact .inl hp
        next =>
          cases hn
          exact .inr (hf.resolve_left (by simp))
      next hb =>
        rw [if_neg hb]
        split at hn
        next =>
          split at hn
          next hp => exact .inl hp
          next => cases hn
        next ho => exact .inr (by simpa using ho)

theorem foldlM_feeds (place : Place) : ['\n', '\n', '\n'].foldlM next place = none := by
  cases place with
  | start feeds =>
    match feeds with
    | 0 => rfl
    | 1 => rfl
    | feeds + 2 => rfl
  | margin => rfl
  | inside => rfl

theorem not_infix_of_foldlM (h : text.foldlM next place = some result) :
    ¬['\n', '\n', '\n'] <:+: text := by
  rintro ⟨before, after, rfl⟩
  rw [List.foldlM_append, List.foldlM_append] at h
  obtain ⟨middle, hm, -⟩ := Option.bind_eq_some_iff.1 h
  obtain ⟨first, -, hm⟩ := Option.bind_eq_some_iff.1 hm
  rw [foldlM_feeds] at hm
  cases hm

theorem getLast?_of_foldlM (h : text.foldlM next place = some inside) :
    text.getLast? ≠ some '\n' := by
  intro hl
  obtain ⟨before, rfl⟩ := List.getLast?_eq_some_iff.1 hl
  rw [List.foldlM_append] at h
  obtain ⟨middle, -, hm⟩ := Option.bind_eq_some_iff.1 h
  obtain ⟨after, hn, hm⟩ := Option.bind_eq_some_iff.1 hm
  obtain ⟨feeds, rfl⟩ := next_feed hn
  cases hm

end Place

/-- Blanks that a step is given at the start of a line do not matter, in states of some kind. -/
structure Layout.SkipsBlanks {σ : Type} (step : σ → Char → Option σ) (p : σ → Prop) : Prop where
  blank : ∀ state, p state → ∀ c, c ≠ '\n' → (step state ' ').bind (step · c) = step state c
  keeps : ∀ state after, p state → step state ' ' = some after → p after
  feed : ∀ state after, step state '\n' = some after → p after

namespace Layout.SkipsBlanks

variable {σ : Type} {step : σ → Char → Option σ} {p : σ → Prop} {state : σ}

theorem foldlM_blanks (h : SkipsBlanks step p) {first : Char} (hf : first ≠ '\n')
    (rest : List Char) (width : Nat) (hp : p state) :
    (List.replicate width ' ' ++ first :: rest).foldlM step state =
      (first :: rest).foldlM step state := by
  induction width generalizing state with
  | zero => rfl
  | succ width ih =>
    rw [List.replicate_succ, List.cons_append, List.foldlM_cons, List.foldlM_cons,
      ← h.blank state hp first hf]
    change (step state ' ').bind _ = ((step state ' ').bind _).bind _
    rw [Option.bind_assoc]
    refine Option.bind_congr fun after ha => ?_
    rw [ih (h.keeps state after hp ha)]
    rfl

theorem foldlM_indentLine (h : SkipsBlanks step p) {line : List Char} (hl : '\n' ∉ line)
    (width : Nat) (hp : p state) :
    (indentLine width line).foldlM step state = line.foldlM step state := by
  unfold indentLine
  split
  next => rfl
  next =>
    cases line with
    | nil => contradiction
    | cons first rest => exact h.foldlM_blanks (List.ne_of_not_mem_cons hl).symm rest width hp

theorem foldlM_indentLines (h : SkipsBlanks step p) {lines : List (List Char)}
    (hl : ∀ line ∈ lines, '\n' ∉ line) (width : Nat) (hp : p state) :
    (joinLines (lines.map (indentLine width))).foldlM step state =
      (joinLines lines).foldlM step state := by
  unfold joinLines
  induction lines generalizing state with
  | nil => rfl
  | cons line rest ih =>
    have hf := h.foldlM_indentLine (hl line List.mem_cons_self) width hp
    cases rest with
    | nil =>
      rw [List.map_singleton, List.intercalate_singleton, List.intercalate_singleton, hf]
    | cons second rest =>
      rw [List.map_cons, List.map_cons, List.intercalate_cons_cons, List.intercalate_cons_cons,
        ← List.map_cons, List.append_assoc, List.append_assoc, List.foldlM_append,
        List.foldlM_append, hf]
      refine Option.bind_congr fun middle _ => ?_
      change (step middle '\n').bind _ = (step middle '\n').bind _
      exact Option.bind_congr fun after ha =>
        ih (List.forall_mem_cons.1 hl).2 (h.feed middle after ha)

theorem foldlM_indent (h : SkipsBlanks step p) (hp : p state) (text : String) :
    (indent text).toList.foldlM step state = text.toList.foldlM step state := by
  unfold indent
  rw [toList_indentBy, lines, h.foldlM_indentLines (fun _ => notMem_of_mem_splitOn) _ hp,
    joinLines, List.intercalate_splitOn]

end Layout.SkipsBlanks

/-- A reader of code knows the closing brackets that are due, and where in a line it is. -/
structure Reader where
  pending : List Char
  place : Place
deriving DecidableEq

namespace Reader

def next (reader : Reader) (c : Char) : Option Reader := do
  return ⟨← Brackets.due reader.pending c, ← reader.place.next c⟩

def Reads (text : String) (before after : Reader) : Prop :=
  text.toList.foldlM next before = some after

variable {text other : String} {before middle after : Reader} {pending : List Char}

theorem Reads.append (h : Reads text before middle) (ho : Reads other middle after) :
    Reads (text ++ other) before after := by
  unfold Reads at *
  rw [String.toList_append, List.foldlM_append, h]
  exact ho

theorem next_eq {reader result : Reader} {c : Char} (h : reader.next c = some result) :
    Brackets.due reader.pending c = some result.pending ∧
      reader.place.next c = some result.place := by
  obtain ⟨pending, hd, h⟩ := Option.bind_eq_some_iff.1 h
  obtain ⟨place, hn, h⟩ := Option.bind_eq_some_iff.1 h
  cases h
  exact ⟨hd, hn⟩

theorem foldlM_parts {chars : List Char} (h : chars.foldlM next before = some after) :
    chars.foldlM Brackets.due before.pending = some after.pending ∧
      chars.foldlM Place.next before.place = some after.place := by
  induction chars generalizing before with
  | nil =>
    cases h
    exact ⟨rfl, rfl⟩
  | cons c rest ih =>
    obtain ⟨middle, hn, h⟩ := Option.bind_eq_some_iff.1 h
    obtain ⟨hd, hp⟩ := next_eq hn
    rw [List.foldlM_cons, List.foldlM_cons, hd, hp]
    exact ih h

theorem next_word {c : Char} (h : isWordChar c ∨ c = '.') (reader : Reader) :
    reader.next c = some ⟨reader.pending, .inside⟩ := by
  have hm : c ∉ Brackets.all := by
    obtain h | rfl := h
    · exact Brackets.notMem_of_isWordChar h
    · decide
  have hb : Layout.isBlank c = false := by
    obtain h | rfl := h
    · exact isBlank_of_isWordChar h
    · rfl
  have hf : c ≠ '\n' := by
    rintro rfl
    cases hb
  have ho : ¬(c = '(' ∨ c = '[') := by
    rintro (rfl | rfl)
    · exact hm (by decide)
    · exact hm (by decide)
  have hp : reader.place.next c = some .inside := by
    simp only [Place.next, if_neg hf, hb, if_neg ho]
    rfl
  rw [next, Brackets.due_of_notMem hm, hp]
  rfl

theorem reads_word (h : Word text) (reader : Reader) :
    Reads text reader ⟨reader.pending, .inside⟩ := by
  cases hc : text.toList with
  | nil => exact absurd (String.toList_eq_nil_iff.1 hc) h.ne_empty
  | cons c rest =>
    have hw := h.wordy
    unfold Wordy at hw
    rw [hc] at hw
    obtain ⟨hf, hr⟩ := List.forall_mem_cons.1 hw
    rw [Reads, hc, List.foldlM_cons, next_word hf]
    exact foldlM_fixed fun c hm => next_word (hr c hm) _

theorem reads_intercalate {separator first : String} {rest : List String} {start : Reader}
    (hf : Reads first start after) (hs : Reads separator after before)
    (hr : ∀ text ∈ rest, Reads text before after) :
    Reads (separator.intercalate (first :: rest)) start after := by
  induction rest generalizing first start with
  | nil => rwa [String.intercalate_singleton]
  | cons second rest ih =>
    rw [String.intercalate_cons_cons]
    have ht := ih (hr second List.mem_cons_self) (List.forall_mem_cons.1 hr).2
    exact (hf.append hs).append ht

theorem next_blank {c : Char} (h : c ≠ '\n') (reader : Reader) :
    (reader.next ' ').bind (next · c) = reader.next c := by
  obtain ⟨pending, place⟩ := reader
  cases place <;> simp [next, Place.next, h, Brackets.due_of_notMem (c := ' ') (by decide)] <;> rfl

theorem skipsBlanks : Layout.SkipsBlanks next fun _ => True where
  blank reader _ _ h := next_blank h reader
  keeps _ _ _ _ := trivial
  feed _ _ _ := trivial

/-- Indented code is read like the code itself. -/
theorem reads_indent : Reads (Layout.indent text) before after ↔ Reads text before after := by
  unfold Reads
  rw [skipsBlanks.foldlM_indent trivial]

end Reader

open Reader

/-- Code inside of a line, whatever stands around it. It may go over several lines. -/
def Inline (text : String) : Prop :=
  ∀ pending, Reads text ⟨pending, .inside⟩ ⟨pending, .inside⟩

/-- Code that begins a line, after so many line feeds. -/
def Begins (feeds : Nat) (text : String) : Prop :=
  ∀ pending, Reads text ⟨pending, .start feeds⟩ ⟨pending, .inside⟩

variable {text other separator : String}

theorem Wordy.inline (h : Wordy text) : Inline text := by
  intro pending
  by_cases hn : text = ""
  · rw [hn]
    rfl
  · exact reads_word ⟨h, hn⟩ ⟨pending, .inside⟩

theorem Inline.intercalate (hs : Inline separator) {texts : List String}
    (h : ∀ text ∈ texts, Inline text) : Inline (separator.intercalate texts) := by
  intro pending
  cases texts with
  | nil => rfl
  | cons first rest =>
    obtain ⟨hf, hr⟩ := List.forall_mem_cons.1 h
    exact reads_intercalate (hf pending) (hs pending) fun text hm => hr text hm pending

theorem Begins.of_two (h : Begins 2 text) (feeds : Nat) : Begins feeds text := by
  intro pending
  have hp := h pending
  unfold Reads at hp ⊢
  cases hc : text.toList with
  | nil =>
    rw [hc] at hp
    cases hp
  | cons c rest =>
    rw [hc, List.foldlM_cons] at hp
    have hn : c ≠ '\n' := by
      rintro rfl
      cases hp
    have he : next ⟨pending, .start feeds⟩ c = next ⟨pending, .start 2⟩ c := by
      simp [next, Place.next, hn]
    rw [List.foldlM_cons, he]
    exact hp

end AvroBindings
