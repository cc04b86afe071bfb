import AvroBindings.Proofs.Text.Lines
import AvroBindings.Proofs.Text.Words
import Mathlib.Data.List.DropRight
import Mathlib.Data.List.TakeWhile

/-! Listings in generated code, read back from its lines. The items of a listing begin in lines of
one margin. Lines further in belong to the item above them, and so do lines that begin with a
closing brace. Indentation goes line by line, and no two texts become the same by it. -/

namespace AvroBindings

theorem Wordy.quiet {text : String} (h : Wordy text) : Layout.Quiet text := by
  intro c hc
  constructor <;> rintro rfl <;> exact absurd (h _ hc) (by decide)

namespace Layout

def margin (line : List Char) : Nat := (line.takeWhile (· == ' ')).length

def Flush (line : List Char) : Prop := ∃ c ∈ line.head?, isBlank c = false

instance (line : List Char) : Decidable (Flush line) := Option.decidableExistsMem line.head?

section Margin

variable {line : List Char} {width other : Nat}

theorem margin_append (width : Nat) (line : List Char) :
    margin (List.replicate width ' ' ++ line) = width + margin line := by
  have hs : ∀ c ∈ List.replicate width ' ', (c == ' ') = true :=
    fun c hc => beq_iff_eq.2 (List.eq_of_mem_replicate hc)
  rw [margin, List.takeWhile_append_of_pos hs, List.length_append, List.length_replicate]
  rfl

theorem Flush.margin_eq_zero (h : Flush line) : margin line = 0 := by
  obtain ⟨c, hc, hb⟩ := h
  cases line with
  | nil => cases hc
  | cons first rest =>
    cases hc
    have hn : ¬(c == ' ') := fun he => by
      rw [beq_iff_eq.1 he] at hb
      cases hb
    simp only [margin, List.takeWhile_cons, if_neg hn, List.length_nil]

theorem Flush.append (h : Flush line) (rest : List Char) : Flush (line ++ rest) := by
  obtain ⟨c, hc, hb⟩ := h
  cases line with
  | nil => cases hc
  | cons first others => exact ⟨c, hc, hb⟩

theorem Flush.not_blank (h : Flush line) : ¬line.all isBlank := by
  obtain ⟨c, hc, hb⟩ := h
  intro ha
  rw [List.all_eq_true.1 ha c (List.mem_of_mem_head? hc)] at hb
  cases hb

theorem Flush.indentLine_eq (h : Flush line) (width : Nat) :
    indentLine width line = List.replicate width ' ' ++ line :=
  indentLine_of_not_blank h.not_blank width

theorem Flush.margin_indentLine (h : Flush line) (width : Nat) :
    margin (indentLine width line) = width := by
  rw [h.indentLine_eq, margin_append, h.margin_eq_zero, Nat.add_zero]

theorem Flush.not_blank_indentLine (h : Flush line) (width : Nat) :
    ¬(indentLine width line).all isBlank := by
  rw [h.indentLine_eq, all_isBlank_margin]
  exact h.not_blank

theorem flush_append {text : String} (h : Flush text.toList) (rest : String) :
    Flush (text ++ rest).toList := by
  rw [String.toList_append]
  exact h.append _

theorem toList_indented {front text : String}
    (he : front.toList = List.replicate width ' ' ++ text.toList) (h : Flush text.toList)
    (rest : String) : (front ++ rest).toList = indentLine width (text ++ rest).toList := by
  rw [(flush_append h rest).indentLine_eq, String.toList_append, String.toList_append, he,
    List.append_assoc]

theorem blank_or_le_margin (width : Nat) (line : List Char) :
    (indentLine width line).all isBlank ∨ width ≤ margin (indentLine width line) := by
  by_cases h : line.all isBlank
  · rw [indentLine_of_blank h]
    exact .inl h
  · rw [indentLine_of_not_blank h, margin_append]
    exact .inr (Nat.le_add_right width _)

/-- No item begins in a line that is empty, or begins with white space or a closing brace. -/
def Aside (line : List Char) : Prop := ∀ c ∈ line.head?, isBlank c ∨ c = '\x7d'

def Closes (line : List Char) : Prop := line.head? = some '\x7d'

theorem closes_append (rest : String) : Closes ("\x7d" ++ rest).toList := by
  rw [String.toList_append]
  rfl

theorem Closes.flush (h : Closes line) : Flush line := ⟨'\x7d', h, by decide⟩

theorem Closes.aside (h : Closes line) : Aside line := by
  intro c hc
  rw [h] at hc
  cases hc
  exact .inr rfl

theorem aside_of_blank (h : line.all isBlank) : Aside line := by
  intro c hc
  exact .inl (List.all_eq_true.1 h c (List.mem_of_mem_head? hc))

theorem aside_indentLine (line : List Char) : Aside (indentLine (width + 1) line) := by
  by_cases h : line.all isBlank
  · rw [indentLine_of_blank h]
    exact aside_of_blank h
  · rw [indentLine_of_not_blank h]
    rintro c ⟨⟩
    exact .inl (by decide)

end Margin

section Shaped

/-- A text of one line, or an indented one between a line that opens it and one that closes it. -/
inductive Shaped : String → Prop where
  | single {text : String} (h : Single text) : Shaped text
  | block {before after : String} (hb : Single before) (body : String) (ha : Single after) :
    Shaped (before ++ braces body ++ after)

variable {text other : String}

theorem Shaped.append (h : Shaped text) (ho : Single other) : Shaped (text ++ other) := by
  cases h with
  | single h => exact .single (h.append ho)
  | @block before after hb body ha =>
    rw [String.append_assoc]
    exact .block hb body (ha.append ho)

theorem Single.shaped_append (h : Single text) (ho : Shaped other) : Shaped (text ++ other) := by
  cases ho with
  | single ho => exact .single (h.append ho)
  | @block before after hb body ha =>
    rw [← String.append_assoc, ← String.append_assoc]
    exact .block (h.append hb) body ha

theorem shaped_braces (body : String) : Shaped (braces body) := by
  have he : braces body = "" ++ braces body ++ "" := by
    rw [String.empty_append, String.append_empty]
  rw [he]
  exact .block (by decide) body (by decide)

theorem shaped_selfExecuting (body : String) : Shaped (selfExecuting body) :=
  .block (by decide) body (by decide)

theorem Shaped.lines_eq (h : Shaped text) {front : String} (hf : Single front) :
    ∃ first rest, lines (front ++ text).toList = (front.toList ++ first) :: rest ∧
      ∀ line ∈ rest, Aside line := by
  cases h with
  | single h =>
    refine ⟨text.toList, [], ?_, List.forall_mem_nil _⟩
    rw [(hf.append h).lines_eq, String.toList_append]
  | @block before after hb body ha =>
    refine ⟨(before ++ "\x7b").toList, (lines body.toList).map (indentLine 2) ++
      [("\x7d" ++ after).toList], ?_, List.forall_mem_append.2 ⟨?_, ?_⟩⟩
    · rw [← String.append_assoc, ← String.append_assoc, lines_braces (hf.append hb) body ha,
        String.append_assoc, String.toList_append]
    · exact List.forall_mem_map.2 fun line _ => aside_indentLine line
    · exact List.forall_mem_singleton.2 (closes_append after).aside

end Shaped

/-- What a reader finds behind a margin of a certain width. -/
def readAt {α : Type} (width : Nat) (read : List Char → Option α) (line : List Char) : Option α :=
  if margin line = width then read (line.drop width) else none

/-- The items of a listing. -/
def listing {α : Type} (width : Nat) (read : List Char → Option α) (lines : List (List Char)) :
    List α :=
  lines.filterMap (readAt width read)

/-- A reader that finds nothing where no item begins. -/
def Skips {α : Type} (read : List Char → Option α) : Prop := ∀ line, Aside line → read line = none

section Listing

variable {α : Type} {width other : Nat} {read : List Char → Option α} {line : List Char}
  {lines : List (List Char)}

theorem readAt_indentLine (h : Flush line) (width other : Nat) (read : List Char → Option α) :
    readAt width read (indentLine other line) = if other = width then read line else none := by
  unfold readAt
  rw [h.margin_indentLine, h.indentLine_eq]
  split
  next he =>
    subst he
    rw [List.drop_left' List.length_replicate]
  next => rfl

theorem readAt_of_blank (hr : Skips read) (h : line.all isBlank) :
    readAt width read line = none := by
  unfold readAt
  split
  next =>
    refine hr _ (aside_of_blank (List.all_eq_true.2 fun c hc => ?_))
    exact List.all_eq_true.1 h c (List.mem_of_mem_drop hc)
  next => rfl

theorem readAt_eq_none (h : Flush line) (hn : other = width → read line = none) :
    readAt width read (indentLine other line) = none := by
  rw [readAt_indentLine h]
  split
  next he => exact hn he
  next => rfl

theorem readAt_of_closes (hr : Skips read) (h : Closes line) (width other : Nat) :
    readAt width read (indentLine other line) = none :=
  readAt_eq_none h.flush fun _ => hr line h.aside

theorem readAt_of_flush (h : Flush line) (hw : width ≠ 0) : readAt width read line = none :=
  if_neg (by rw [h.margin_eq_zero]; exact hw.symm)

theorem readAt_indentLine_of_lt (hr : Skips read) (h : width < other) (line : List Char) :
    readAt width read (indentLine other line) = none := by
  obtain hb | hm := blank_or_le_margin other line
  · exact readAt_of_blank hr hb
  · exact if_neg (by omega)

theorem readAt_indentLine_of_aside (hr : Skips read) (h : Aside line) :
    readAt width read (indentLine width line) = none := by
  by_cases hb : line.all isBlank
  · rw [indentLine_of_blank hb]
    exact readAt_of_blank hr hb
  · unfold readAt
    rw [indentLine_of_not_blank hb]
    split
    next => rw [List.drop_left' List.length_replicate, hr line h]
    next => rfl

@[simp] theorem listing_nil : listing width read [] = [] := rfl

@[simp] theorem listing_append (first second : List (List Char)) :
    listing width read (first ++ second) = listing width read first ++ listing width read second :=
  List.filterMap_append

theorem listing_cons_of_none (h : readAt width read line = none) (lines : List (List Char)) :
    listing width read (line :: lines) = listing width read lines :=
  List.filterMap_cons_none h

theorem listing_cons_of_some {item : α} (h : readAt width read line = some item)
    (lines : List (List Char)) :
    listing width read (line :: lines) = item :: listing width read lines :=
  List.filterMap_cons_some h

theorem listing_eq_nil (h : ∀ line ∈ lines, readAt width read line = none) :
    listing width read lines = [] :=
  List.filterMap_eq_nil_iff.2 h

theorem listing_map {β : Type} {line : β → List Char} {item : β → α} {items : List β}
    (h : ∀ own ∈ items, readAt width read (line own) = some (item own)) :
    listing width read (items.map line) = items.map item := by
  induction items with
  | nil => rfl
  | cons own rest ih =>
    obtain ⟨ho, hr⟩ := List.forall_mem_cons.1 h
    rw [List.map_cons, listing_cons_of_some ho, ih hr, List.map_cons]

theorem listing_indent_of_lt (hr : Skips read) (h : width < other) (lines : List (List Char)) :
    listing width read (lines.map (indentLine other)) = [] :=
  listing_eq_nil (List.forall_mem_map.2 fun line _ => readAt_indentLine_of_lt hr h line)

end Listing

def after {α : Type} (text : String) (read : List Char → Option α) (line : List Char) : Option α :=
  if text.toList <+: line then read (line.drop text.toList.length) else none

section After

variable {α : Type} {text : String} {read : List Char → Option α}

theorem after_append (text : String) (read : List Char → Option α) (line : List Char) :
    after text read (text.toList ++ line) = read line := by
  rw [after, if_pos (List.prefix_append _ _), List.drop_left]

theorem after_eq_none {line : List Char} (h : ¬text.toList <+: line) :
    after text read line = none :=
  if_neg h

theorem after_append_eq_none {front : String} (hn : ¬text.toList <+: front.toList)
    (hf : ¬front.toList <+: text.toList) (rest : String) :
    after text read (front ++ rest).toList = none := by
  refine after_eq_none fun hp => ?_
  rw [String.toList_append] at hp
  obtain hp | hp := List.prefix_or_prefix_of_prefix hp (List.prefix_append _ _)
  · exact hn hp
  · exact hf hp

/-- A text that begins with no white space and no closing brace. -/
def Opening (text : String) : Prop :=
  ∃ c ∈ text.toList.head?, isBlank c = false ∧ c ≠ '\x7d'

instance (text : String) : Decidable (Opening text) :=
  Option.decidableExistsMem text.toList.head?

theorem skips_after (h : Opening text) (read : List Char → Option α) : Skips (after text read) := by
  intro line ha
  refine after_eq_none fun hp => ?_
  obtain ⟨c, hc, hb, hn⟩ := h
  cases ht : text.toList with
  | nil =>
    rw [ht] at hc
    cases hc
  | cons first rest =>
    rw [ht] at hc hp
    cases hc
    obtain ⟨tail, rfl⟩ := hp
    obtain hl | rfl := ha c rfl
    · rw [hb] at hl
      cases hl
    · exact hn rfl

end After

/-- A character of a dotted name. -/
def isNameChar (c : Char) : Bool := isWordChar c || c == '.'

/-- The name before a colon, and whether a question mark follows it. -/
def labelled? (line : List Char) : Option (String × Bool) :=
  match line.dropWhile isNameChar with
  | ':' :: ' ' :: _ => some (String.ofList (line.takeWhile isNameChar), false)
  | '?' :: ':' :: ' ' :: _ => some (String.ofList (line.takeWhile isNameChar), true)
  | _ => none

/-- The name that is assigned to the property of the same name. -/
def kept? (line : List Char) : Option String :=
  let name := line.takeWhile isNameChar
  if line.dropWhile isNameChar = " = input.".toList ++ name then some (String.ofList name) else none

section Names

variable {name : String} {line : List Char}

theorem isNameChar_of_wordy (h : Wordy name) : ∀ c ∈ name.toList, isNameChar c = true := by
  intro c hc
  obtain hw | rfl := h c hc
  · simp [isNameChar, hw]
  · rfl

theorem span_name (h : Wordy name) {c : Char} (hc : isNameChar c = false) (rest : List Char) :
    (name.toList ++ c :: rest).takeWhile isNameChar = name.toList ∧
      (name.toList ++ c :: rest).dropWhile isNameChar = c :: rest := by
  have hn := isNameChar_of_wordy h
  have hf : ¬isNameChar c := by simp [hc]
  rw [List.takeWhile_append_of_pos hn, List.dropWhile_append_of_pos hn,
    List.takeWhile_cons_of_neg hf, List.dropWhile_cons_of_neg hf, List.append_nil]
  exact ⟨rfl, rfl⟩

theorem labelled?_plain (h : Wordy name) (rest : List Char) :
    labelled? (name.toList ++ ": ".toList ++ rest) = some (name, false) := by
  have hs := span_name h (c := ':') (by decide) (' ' :: rest)
  have he : name.toList ++ ": ".toList ++ rest = name.toList ++ ':' :: ' ' :: rest := by simp
  simp only [labelled?, he, hs.1, hs.2, String.ofList_toList]

theorem labelled?_optional (h : Wordy name) (rest : List Char) :
    labelled? (name.toList ++ "?: ".toList ++ rest) = some (name, true) := by
  have hs := span_name h (c := '?') (by decide) (':' :: ' ' :: rest)
  have he : name.toList ++ "?: ".toList ++ rest = name.toList ++ '?' :: ':' :: ' ' :: rest := by
    simp
  simp only [labelled?, he, hs.1, hs.2, String.ofList_toList]

theorem isNameChar_of_isBlank {c : Char} (h : isBlank c) : isNameChar c = false := by
  cases hn : isNameChar c with
  | false => rfl
  | true =>
    simp only [isNameChar, Bool.or_eq_true, beq_iff_eq] at hn
    obtain hn | rfl := hn
    · rw [isBlank_of_isWordChar hn] at h
      cases h
    · cases h

theorem skips_labelled? : Skips labelled? := by
  intro line ha
  cases line with
  | nil => rfl
  | cons c rest =>
    have hc := ha c rfl
    have hn : isNameChar c = false := hc.elim isNameChar_of_isBlank fun he => he ▸ by decide
    have hf : c ≠ ':' ∧ c ≠ '?' := by
      constructor <;> rintro rfl <;> revert hc <;> decide
    unfold labelled?
    rw [List.dropWhile_cons_of_neg (by simp [hn])]
    split
    next he => exact absurd (List.head_eq_of_cons_eq he) hf.1
    next he => exact absurd (List.head_eq_of_cons_eq he) hf.2
    next => rfl

theorem kept?_append (h : Wordy name) :
    kept? (name.toList ++ (" = input.".toList ++ name.toList)) = some name := by
  have hs := span_name h (c := ' ') (by decide) ("= input.".toList ++ name.toList)
  have he : " = input.".toList ++ name.toList = ' ' :: ("= input.".toList ++ name.toList) := by simp
  rw [he]
  simp only [kept?, hs.1, hs.2, he, if_true, String.ofList_toList]

end Names

def opens (text : String) : List Char → Option Unit := after text fun _ => some ()

/-- The lines below the first one that begins with a heading behind a margin, as far as they are
further in. -/
def below (width : Nat) (heading : String) (lines : List (List Char)) : List (List Char) :=
  ((lines.dropWhile fun line => (readAt width (opens heading) line).isNone).drop 1).takeWhile
    fun line => line.all isBlank || width < margin line

theorem below_append {width : Nat} {heading : String} {before inside : List (List Char)}
    {line last : List Char} (hb : listing width (opens heading) before = [])
    (hl : readAt width (opens heading) line = some ())
    (hi : ∀ line ∈ inside, line.all isBlank ∨ width < margin line) (hn : ¬last.all isBlank)
    (hm : margin last ≤ width) (rest : List (List Char)) :
    below width heading (before ++ line :: (inside ++ last :: rest)) = inside := by
  have hd : ∀ line ∈ before, (readAt width (opens heading) line).isNone = true :=
    fun line hm => Option.isNone_iff_eq_none.2 (List.filterMap_eq_nil_iff.1 hb line hm)
  have ht : ∀ line ∈ inside, (line.all isBlank || decide (width < margin line)) = true := by
    simpa using hi
  unfold below
  rw [List.dropWhile_append_of_pos hd, List.dropWhile_cons_of_neg (by simp [hl]), List.drop_one,
    List.tail_cons, List.takeWhile_append_of_pos ht,
    List.takeWhile_cons_of_neg (by simpa [hm] using hn), List.append_nil]

/-- The parts of some lines, each of them with the line that it begins in. -/
def sections (begins : List Char → Bool) : List (List Char) → List (List (List Char))
  | [] => []
  | line :: rest =>
    if begins line then (line :: rest.takeWhile (!begins ·)) :: sections begins rest
    else sections begins rest

section Sections

variable {begins : List Char → Bool} {inside rest : List (List Char)}

theorem sections_append (h : ∀ line ∈ inside, begins line = false) :
    sections begins (inside ++ rest) = sections begins rest := by
  induction inside with
  | nil => rfl
  | cons line inside ih =>
    obtain ⟨hl, hi⟩ := List.forall_mem_cons.1 h
    rw [List.cons_append, sections, hl, if_neg Bool.false_ne_true, ih hi]

theorem sections_flatMap {α : Type} {lines : α → List (List Char)} {items : List α}
    (h : ∀ item ∈ items, ∃ first others, lines item = first :: others ∧ begins first ∧
      ∀ line ∈ others, begins line = false) :
    sections begins (items.flatMap lines) = items.map lines := by
  induction items with
  | nil => rfl
  | cons item items ih =>
    obtain ⟨⟨first, others, hl, hf, ho⟩, hi⟩ := List.forall_mem_cons.1 h
    have ht : (items.flatMap lines).takeWhile (!begins ·) = [] := by
      cases items with
      | nil => rfl
      | cons second rest =>
        obtain ⟨next, more, hs, hn, -⟩ := hi second List.mem_cons_self
        rw [List.flatMap_cons, hs, List.cons_append, List.takeWhile_cons_of_neg (by simp [hn])]
    have hp : ∀ line ∈ others, (!begins line) = true := fun line hm => by rw [ho line hm]; rfl
    rw [List.flatMap_cons, List.map_cons, hl, List.cons_append, sections, if_pos hf,
      sections_append ho, ih hi, List.takeWhile_append_of_pos hp, ht, List.append_nil]

end Sections

def outdent (width : Nat) (line : List Char) : List Char :=
  if line.all isBlank then line else line.drop width

theorem outdent_indentLine (width : Nat) (line : List Char) :
    outdent width (indentLine width line) = line := by
  unfold outdent
  by_cases h : line.all isBlank
  · rw [indentLine_of_blank h, if_pos h]
  · rw [indentLine_of_not_blank h, if_neg (by rwa [all_isBlank_margin]),
      List.drop_left' List.length_replicate]

def strip (line : List Char) : List Char := (line.dropWhile isBlank).rdropWhile isBlank

theorem strip_indentLine (width : Nat) (line : List Char) :
    strip (indentLine width line) = strip line := by
  by_cases h : line.all isBlank
  · rw [indentLine_of_blank h]
  · have hs : ∀ c ∈ List.replicate width ' ', isBlank c = true :=
      fun c hc => List.eq_of_mem_replicate hc ▸ by decide
    unfold strip
    rw [indentLine_of_not_blank h, List.dropWhile_append_of_pos hs]

theorem indentLine_injective (width : Nat) : Function.Injective (indentLine width) :=
  Function.LeftInverse.injective (outdent_indentLine width)

theorem indentLine_eq_iff {line : List Char} (h : line.all isBlank) (width : Nat)
    (own : List Char) : indentLine width own = line ↔ own = line := by
  constructor
  · intro he
    apply indentLine_injective width
    rw [he, indentLine_of_blank h]
  · rintro rfl
    exact indentLine_of_blank h width

theorem eq_of_lines {text other : String} (h : lines text.toList = lines other.toList) :
    text = other := by
  rw [← String.toList_inj, ← joinLines_lines text.toList, h, joinLines_lines]

section Texts

variable (levels : Int) (text : String)

theorem indentBy_below (other : String) :
    indentBy levels (text ++ "\n" ++ other) =
      indentBy levels text ++ "\n" ++ indentBy levels other := by
  apply eq_of_lines
  rw [lines_indentBy, lines_below, lines_below, lines_indentBy, lines_indentBy, List.map_append]

-- a negative level counts as none, hence the bounds
theorem indentBy_indentBy {outer inner : Int} (ho : 0 ≤ outer) (hi : 0 ≤ inner) :
    indentBy outer (indentBy inner text) = indentBy (inner + outer) text := by
  have hw : 2 * (inner + outer).toNat = 2 * outer.toNat + 2 * inner.toNat := by omega
  apply eq_of_lines
  rw [lines_indentBy, lines_indentBy, lines_indentBy, List.map_map, hw]
  exact List.map_congr_left fun line _ => indentLine_indentLine _ _ line

theorem indentBy_injective : Function.Injective (indentBy levels) := by
  intro text other h
  have hm : (lines text.toList).map (indentLine (2 * levels.toNat)) =
      (lines other.toList).map (indentLine (2 * levels.toNat)) := by
    rw [← lines_indentBy, h, lines_indentBy]
  exact eq_of_lines (List.map_injective_iff.2 (indentLine_injective _) hm)

theorem map_strip_indentBy :
    (lines (indentBy levels text).toList).map strip = (lines text.toList).map strip := by
  rw [lines_indentBy, List.map_map]
  exact List.map_congr_left fun line _ => strip_indentLine _ line

theorem getElem?_lines_indentBy (i : Nat) :
    (lines (indentBy levels text).toList)[i]? =
      (lines text.toList)[i]?.map (indentLine (2 * levels.toNat)) := by
  rw [lines_indentBy, List.getElem?_map]

end Texts

/-- Indentation may be done piece by piece and level by level. It keeps the number of lines, what
stands in each of them between white space, and all blank lines at their places. Two spaces a level
come before any other line. No two texts are indented to the same one. -/
theorem indentation_compositional (inner outer : Nat) (text other : String) :
    indentBy inner (text ++ "\n" ++ other) =
      indentBy inner text ++ "\n" ++ indentBy inner other ∧
    indentBy outer (indentBy inner text) = indentBy (inner + outer) text ∧
    (lines (indentBy inner text).toList).length = (lines text.toList).length ∧
    (lines (indentBy inner text).toList).map strip = (lines text.toList).map strip ∧
    (∀ (i : Nat) (line : List Char), line.all isBlank →
      ((lines (indentBy inner text).toList)[i]? = some line ↔
        (lines text.toList)[i]? = some line)) ∧
    (∀ (i : Nat) (line : List Char), ¬line.all isBlank → (lines text.toList)[i]? = some line →
      (lines (indentBy inner text).toList)[i]? =
        some (List.replicate (2 * inner) ' ' ++ line)) ∧
    (indentBy inner text = indentBy inner other ↔ text = other) := by
  refine ⟨indentBy_below inner text other,
    indentBy_indentBy text (Int.natCast_nonneg outer) (Int.natCast_nonneg inner), ?_,
    map_strip_indentBy inner text, ?_, ?_, (indentBy_injective inner).eq_iff⟩
  · rw [lines_indentBy, List.length_map]
  · intro i line hb
    rw [getElem?_lines_indentBy, Option.map_eq_some_iff]
    simp only [indentLine_eq_iff hb, exists_eq_right]
  · intro i line hb hl
    rw [getElem?_lines_indentBy, hl, Option.map_some, indentLine_of_not_blank hb, Int.toNat_natCast]

theorem indentation_compositional_gap :
    (lines (indentBy 2 "a\n\t\nb").toList)[1]? = some ['\t'] ∧
      (lines (indentBy 2 "a\n\t\nb").toList)[2]? = some "    b".toList := by
  obtain ⟨-, -, -, -, hb, hn, -⟩ := indentation_compositional 2 0 "a\n\t\nb" ""
  exact ⟨(hb 1 ['\t'] (by decide)).2 (by decide), hn 2 ['b'] (by decide) (by decide)⟩

end Layout

end AvroBindings
