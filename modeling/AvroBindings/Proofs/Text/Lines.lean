import AvroBindings.Code.Bundle

/-! Lines of texts. A text below another one keeps its lines, and so does one between braces, where
each of them is indented. Indentation adds up, and can be taken back. -/

namespace AvroBindings.Layout

theorem forall_mem_intercalate {p : Char → Prop} {separator : String} {texts : List String}
    (hs : ∀ c ∈ separator.toList, p c) (h : ∀ text ∈ texts, ∀ c ∈ text.toList, p c) :
    ∀ c ∈ (separator.intercalate texts).toList, p c := by
  induction texts with
  | nil => exact List.forall_mem_nil _
  | cons first rest ih =>
    obtain ⟨hf, hr⟩ := List.forall_mem_cons.1 h
    cases rest with
    | nil => rwa [String.intercalate_singleton]
    | cons second rest =>
      rw [String.intercalate_cons_cons, String.toList_append, String.toList_append,
        List.forall_mem_append, List.forall_mem_append]
      exact ⟨⟨hf, hs⟩, ih hr⟩

theorem notMem_intercalate {c : Char} {separator : String} {texts : List String}
    (hs : c ∉ separator.toList) (h : ∀ text ∈ texts, c ∉ text.toList) :
    c ∉ (separator.intercalate texts).toList := by
  have hn : ∀ other ∈ (separator.intercalate texts).toList, other ≠ c :=
    forall_mem_intercalate (fun _ ho he => hs (he ▸ ho)) fun text hm _ ho he => h text hm (he ▸ ho)
  exact fun hm => hn c hm rfl

def Single (text : String) : Prop := '\n' ∉ text.toList

instance (text : String) : Decidable (Single text) := inferInstanceAs (Decidable (_ ∉ _))

def Quiet (text : String) : Prop := ∀ c ∈ text.toList, c ≠ '\n' ∧ c ≠ '='

-- by the characters of the text, not by going through all there are
instance (text : String) : Decidable (Quiet text) := List.decidableBAll _ text.toList

namespace Quiet

variable {text other separator : String}

theorem single (h : Quiet text) : Single text := fun hm => (h '\n' hm).1 rfl

theorem append (h : Quiet text) (ho : Quiet other) : Quiet (text ++ other) := by
  intro c hc
  rw [String.toList_append] at hc
  exact (List.mem_append.1 hc).elim (h c) (ho c)

theorem intercalate (hs : Quiet separator) {texts : List String}
    (h : ∀ text ∈ texts, Quiet text) : Quiet (separator.intercalate texts) :=
  forall_mem_intercalate hs h

end Quiet

section Lines

variable {text line : List Char}

theorem joinLines_lines (text : List Char) : joinLines (lines text) = text :=
  List.intercalate_splitOn '\n'

theorem notMem_of_mem_lines (h : line ∈ lines text) : '\n' ∉ line := notMem_of_mem_splitOn h

theorem lines_joinLines {first : List Char} {rest : List (List Char)}
    (h : ∀ line ∈ first :: rest, '\n' ∉ line) :
    lines (joinLines (first :: rest)) = first :: rest :=
  List.splitOn_intercalate '\n' h (List.cons_ne_nil first rest)

end Lines

section Indentation

variable {line : List Char} {width : Nat}

theorem notMem_indentLine (h : '\n' ∉ line) (width : Nat) : '\n' ∉ indentLine width line := by
  unfold indentLine
  split
  next => exact h
  next =>
    intro hm
    obtain hm | hm := List.mem_append.1 hm
    · exact absurd (List.eq_of_mem_replicate hm) (by decide)
    · exact h hm

theorem indentLine_of_blank (h : line.all isBlank) (width : Nat) : indentLine width line = line :=
  if_pos h

theorem indentLine_of_not_blank (h : ¬line.all isBlank) (width : Nat) :
    indentLine width line = List.replicate width ' ' ++ line :=
  if_neg h

theorem all_isBlank_margin (width : Nat) (line : List Char) :
    (List.replicate width ' ' ++ line).all isBlank = line.all isBlank := by
  have hs : (List.replicate width ' ').all isBlank = true :=
    List.all_eq_true.2 fun c hc => List.eq_of_mem_replicate hc ▸ by decide
  rw [List.all_append, hs, Bool.true_and]

theorem indentLine_indentLine (outer inner : Nat) (line : List Char) :
    indentLine outer (indentLine inner line) = indentLine (outer + inner) line := by
  by_cases h : line.all isBlank
  · rw [indentLine_of_blank h, indentLine_of_blank h, indentLine_of_blank h]
  · rw [indentLine_of_not_blank h, indentLine_of_not_blank h, indentLine_of_not_blank,
      ← List.append_assoc, List.replicate_append_replicate]
    rwa [all_isBlank_margin]

theorem lines_indentBy (levels : Int) (text : String) :
    lines (indentBy levels text).toList =
      (lines text.toList).map (indentLine (2 * levels.toNat)) := by
  rw [toList_indentBy]
  cases hl : lines text.toList with
  | nil => exact absurd hl (List.splitOn_ne_nil _ _)
  | cons first rest =>
    have hn : ∀ line ∈ (first :: rest).map (indentLine (2 * levels.toNat)), '\n' ∉ line := by
      intro line hm
      obtain ⟨own, ho, rfl⟩ := List.mem_map.1 hm
      exact notMem_indentLine (notMem_of_mem_lines (hl ▸ ho)) _
    exact lines_joinLines hn

theorem lines_indent (text : String) :
    lines (indent text).toList = (lines text.toList).map (indentLine 2) :=
  lines_indentBy 1 text

end Indentation

/-- A line without the two spaces that indentation puts before it, unless it is blank. -/
def outdentLine (line : List Char) : List Char :=
  if line.all isBlank then line
  else
    match line with
    | ' ' :: ' ' :: rest => rest
    | _ => line

theorem outdentLine_indentLine (line : List Char) : outdentLine (indentLine 2 line) = line := by
  unfold outdentLine
  by_cases h : line.all isBlank
  · rw [indentLine_of_blank h, if_pos h]
  · rw [indentLine_of_not_blank h, if_neg (by rwa [all_isBlank_margin])]
    rfl

/-- The text between the first and the last line of a text, with its indentation taken back. -/
def content (text : String) : String :=
  String.ofList (joinLines ((lines text.toList).tail.dropLast.map outdentLine))

section Texts

variable {text other before after : String}

theorem Single.append (h : Single text) (ho : Single other) : Single (text ++ other) := by
  unfold Single at *
  rw [String.toList_append]
  exact List.not_mem_append h ho

theorem Single.lines_eq (h : Single text) : lines text.toList = [text.toList] :=
  List.splitOn_eq_singleton h

theorem lines_below (text other : String) :
    lines (text ++ "\n" ++ other).toList = lines text.toList ++ lines other.toList := by
  rw [String.toList_append, String.toList_append, List.append_assoc]
  exact List.splitOn_append_cons_self _ _

theorem Single.lines_below (h : Single text) (other : String) :
    lines (text ++ "\n" ++ other).toList = text.toList :: lines other.toList := by
  rw [Layout.lines_below, h.lines_eq]
  rfl

theorem lines_intercalate (first : String) (rest : List String) :
    lines ("\n".intercalate (first :: rest)).toList =
      (first :: rest).flatMap fun text => lines text.toList := by
  induction rest generalizing first with
  | nil => simp
  | cons second rest ih =>
    rw [String.intercalate_cons_cons, lines_below, ih, List.flatMap_cons, List.flatMap_cons,
      List.flatMap_cons]

theorem lines_braces_append (hb : Single before) (body after : String) :
    lines (before ++ braces body ++ after).toList =
      (before ++ "\x7b").toList ::
        ((lines body.toList).map (indentLine 2) ++ lines ("\x7d" ++ after).toList) := by
  have hs : before ++ braces body ++ after =
      (before ++ "\x7b") ++ "\n" ++ (indent body ++ "\n" ++ ("\x7d" ++ after)) := by
    have ho : "\x7b\n" = "\x7b" ++ "\n" := rfl
    have hc : "\n\x7d" = "\n" ++ "\x7d" := rfl
    simp only [braces, ho, hc, String.append_assoc]
  have ho : Single (before ++ "\x7b") := hb.append (by decide)
  rw [hs, ho.lines_below, lines_below, lines_indent]

theorem lines_braces (hb : Single before) (body : String) (ha : Single after) :
    lines (before ++ braces body ++ after).toList =
      (before ++ "\x7b").toList ::
        ((lines body.toList).map (indentLine 2) ++ [("\x7d" ++ after).toList]) := by
  have hc : Single ("\x7d" ++ after) := .append (by decide) ha
  rw [lines_braces_append hb, hc.lines_eq]

theorem content_braces (hb : Single before) (body : String) (ha : Single after) :
    content (before ++ braces body ++ after) = body := by
  have ho : (lines body.toList).map (outdentLine ∘ indentLine 2) = lines body.toList :=
    List.map_id'' outdentLine_indentLine _
  unfold content
  rw [lines_braces hb body ha, List.tail_cons, List.dropLast_concat, List.map_map, ho,
    joinLines_lines, String.ofList_toList]

end Texts

end AvroBindings.Layout
