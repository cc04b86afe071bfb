import AvroBindings.Proofs.Script.Reading
import AvroBindings.Proofs.Text.Reader

/-! Scanning generated code. A scanner goes through the characters of code once. It puts words and
marks together, and reads what stands between two brackets where the second one closes them. Code
that is put together from pieces is scanned piece by piece. -/

namespace AvroBindings

namespace Script

/-- What the last character was a part of, if the next one may be too. -/
inductive Mode where
  | apart
  | word
  | mark
  | quoted
deriving DecidableEq

/-- A scanner knows the brackets around the place it is at, each with what comes before it, and what
comes after the innermost one, the last item first. -/
structure Scanner where
  outer : List (Char × List Item)
  items : List Item
  mode : Mode

def pushLast (c : Char) : List Item → List Item
  | .word text :: rest => .word (text.push c) :: rest
  | .quoted text :: rest => .quoted (text.push c) :: rest
  | .mark text :: rest => .mark (text.push c) :: rest
  | items => items

namespace Scanner

def inWord (c : Char) : Bool := isWordChar c || c == '.'

/-- Characters of which marks may have more than one. -/
def isOperator (c : Char) : Bool := c ∈ ['=', '!', '>', '&', '|', '/', '*']

def close (c : Char) (items : List Item) : List (Char × List Item) → Option Scanner
  | (closer, before) :: outer =>
    if c = closer then some ⟨outer, .group (Content.of c items.reverse) :: before, .apart⟩ else none
  | [] => none

def nextMark (outer : List (Char × List Item)) (items : List Item) (marking : Bool) (c : Char) :
    Option Scanner :=
  if c = '\n' then some ⟨outer, .line :: items, .apart⟩
  else if Layout.isBlank c then some ⟨outer, items, .apart⟩
  else if c = '\'' then some ⟨outer, .quoted "" :: items, .quoted⟩
  else match Brackets.closer? c with
    | some closer => some ⟨(closer, items) :: outer, [], .apart⟩
    | none =>
      if Brackets.isCloser c then close c items outer
      else if isOperator c then
        some ⟨outer, if marking then pushLast c items else .mark c.toString :: items, .mark⟩
      else some ⟨outer, .mark c.toString :: items, .apart⟩

def next : Scanner → Char → Option Scanner
  | ⟨outer, items, .quoted⟩, c =>
    if c = '\'' then some ⟨outer, items, .apart⟩
    else if c = '\n' ∨ c = '\\' then none
    else some ⟨outer, pushLast c items, .quoted⟩
  | ⟨outer, items, .word⟩, c =>
    if inWord c then some ⟨outer, pushLast c items, .word⟩ else nextMark outer items false c
  | ⟨outer, items, mode⟩, c =>
    if inWord c then some ⟨outer, .word c.toString :: items, .word⟩
    else nextMark outer items (mode == .mark) c

end Scanner

def Scans (text : String) (before after : Scanner) : Prop :=
  text.toList.foldlM Scanner.next before = some after

/-- Wherever a text stands, it is so many items. A word or a mark at its end may go on. -/
def Spells (text : String) (items : List Item) : Prop :=
  ∀ outer before, ∃ mode, mode ≠ .quoted ∧
    Scans text ⟨outer, before, .apart⟩ ⟨outer, items.reverse ++ before, mode⟩

/-- No word and no mark is open at the end of a text. -/
def Closed (text : String) (items : List Item) : Prop :=
  ∀ outer before, Scans text ⟨outer, before, .apart⟩ ⟨outer, items.reverse ++ before, .apart⟩

/-- A text begins with a character that no word and no mark goes on with. -/
def Apart (text : String) : Prop :=
  text.toList.head?.any fun c => !Scanner.inWord c && !Scanner.isOperator c

variable {text other : String} {xs ys : List Item} {before middle after : Scanner}

theorem Scans.append (h : Scans text before middle) (ho : Scans other middle after) :
    Scans (text ++ other) before after := by
  unfold Scans at *
  rw [String.toList_append, List.foldlM_append, h]
  exact ho

theorem Apart.append (h : Apart text) (other : String) : Apart (text ++ other) := by
  unfold Apart at *
  rw [String.toList_append, List.head?_append]
  cases hc : text.toList.head? with
  | none => simp [hc] at h
  | some c => simpa [hc] using h

theorem apart_round (text : String) : Apart ("(" ++ text ++ ")") :=
  ((show Apart "(" from rfl).append _).append _

theorem apart_square (text : String) : Apart ("[" ++ text ++ "]") :=
  ((show Apart "[" from rfl).append _).append _

theorem Apart.scans (h : Apart text) {outer : List (Char × List Item)} {items : List Item}
    {mode : Mode} (hm : mode ≠ .quoted) (hs : Scans text ⟨outer, items, .apart⟩ after) :
    Scans text ⟨outer, items, mode⟩ after := by
  unfold Scans Apart at *
  cases hc : text.toList with
  | nil => simp [hc] at h
  | cons c rest =>
    rw [hc] at h hs
    obtain ⟨hw, ho⟩ : Scanner.inWord c = false ∧ Scanner.isOperator c = false := by simpa using h
    have hn : Scanner.next ⟨outer, items, mode⟩ c = Scanner.next ⟨outer, items, .apart⟩ c := by
      cases mode with
      | quoted => exact absurd rfl hm
      | _ => simp [Scanner.next, Scanner.nextMark, hw, ho]
    rw [List.foldlM_cons] at hs ⊢
    rw [hn, hs]

theorem closed_empty : Closed "" [] := fun _ _ => rfl

namespace Closed

theorem spells (h : Closed text xs) : Spells text xs :=
  fun outer before => ⟨.apart, nofun, h outer before⟩

theorem of_group {content read : Content} (h : Closed text [.group content])
    (hr : content = read) : Closed text [.group read] :=
  hr ▸ h

theorem append (h : Closed text xs) (ho : Closed other ys) :
    Closed (text ++ other) (xs ++ ys) := by
  intro outer before
  have hs := (h outer before).append (ho outer (xs.reverse ++ before))
  rwa [← List.append_assoc, ← List.reverse_append] at hs

theorem append_spells (h : Closed text xs) (ho : Spells other ys) :
    Spells (text ++ other) (xs ++ ys) := by
  intro outer before
  obtain ⟨mode, hm, hs⟩ := ho outer (xs.reverse ++ before)
  have hs := (h outer before).append hs
  rw [← List.append_assoc, ← List.reverse_append] at hs
  exact ⟨mode, hm, hs⟩

end Closed

namespace Spells

theorem of_word (h : ∀ outer before,
    Scans text ⟨outer, before, .apart⟩ ⟨outer, xs.reverse ++ before, .word⟩) : Spells text xs :=
  fun outer before => ⟨.word, nofun, h outer before⟩

theorem of_mark (h : ∀ outer before,
    Scans text ⟨outer, before, .apart⟩ ⟨outer, xs.reverse ++ before, .mark⟩) : Spells text xs :=
  fun outer before => ⟨.mark, nofun, h outer before⟩

theorem append_closed (h : Spells text xs) (ho : Closed other ys) (ha : Apart other) :
    Closed (text ++ other) (xs ++ ys) := by
  intro outer before
  obtain ⟨mode, hm, hs⟩ := h outer before
  have hs := hs.append (ha.scans hm (ho outer (xs.reverse ++ before)))
  rwa [← List.append_assoc, ← List.reverse_append] at hs

theorem append (h : Spells text xs) (ho : Spells other ys) (ha : Apart other) :
    Spells (text ++ other) (xs ++ ys) := by
  intro outer before
  obtain ⟨mode, hm, hs⟩ := h outer before
  obtain ⟨last, hl, ho⟩ := ho outer (xs.reverse ++ before)
  have hs := hs.append (ha.scans hm ho)
  rw [← List.append_assoc, ← List.reverse_append] at hs
  exact ⟨last, hl, hs⟩

/-- Code in brackets is one item. -/
theorem group {opening closing : String} (closer : Char) (h : Spells text xs)
    (ho : ∀ outer before,
      Scans opening ⟨outer, before, .apart⟩ ⟨(closer, before) :: outer, [], .apart⟩)
    (hc : ∀ outer before items, Scans closing ⟨(closer, before) :: outer, items, .apart⟩
      ⟨outer, .group (Content.of closer items.reverse) :: before, .apart⟩) (ha : Apart closing) :
    Closed (opening ++ text ++ closing) [.group (Content.of closer xs)] := by
  intro outer before
  obtain ⟨mode, hm, hs⟩ := h ((closer, before) :: outer) []
  have hc := hc outer before (xs.reverse ++ [])
  rw [List.append_nil, List.reverse_reverse] at hc
  rw [List.append_nil] at hs
  exact ((ho outer before).append hs).append (ha.scans hm hc)

theorem round (h : Spells text xs) : Closed ("(" ++ text ++ ")") [.group (Script.rounded xs)] :=
  h.group ')' (fun _ _ => rfl) (fun _ _ _ => rfl) rfl

theorem square (h : Spells text xs) : Closed ("[" ++ text ++ "]") [.group (Script.square xs)] :=
  h.group ']' (fun _ _ => rfl) (fun _ _ _ => rfl) rfl

theorem curly (h : Spells text xs) :
    Closed ("\x7b" ++ text ++ "\x7d") [.group (Script.curly xs)] :=
  h.group '\x7d' (fun _ _ => rfl) (fun _ _ _ => rfl) rfl

end Spells

theorem inWord_of_wordy (h : Wordy text) : ∀ c ∈ text.toList, Scanner.inWord c := by
  intro c hc
  simpa [Scanner.inWord] using h c hc

theorem foldlM_word {chars : List Char} (h : ∀ c ∈ chars, Scanner.inWord c)
    (outer : List (Char × List Item)) (before : List Item) (text : String) :
    chars.foldlM Scanner.next ⟨outer, .word text :: before, .word⟩ =
      some ⟨outer, .word (text ++ String.ofList chars) :: before, .word⟩ := by
  induction chars generalizing text with
  | nil => simp
  | cons c rest ih =>
    obtain ⟨hc, hr⟩ := List.forall_mem_cons.1 h
    have ht : text ++ String.ofList (c :: rest) = text.push c ++ String.ofList rest := by
      apply String.toList_inj.1
      simp
    rw [List.foldlM_cons, ht, ← ih hr]
    simp [Scanner.next, hc, pushLast]

theorem scans_word (h : Word text) (outer : List (Char × List Item)) (before : List Item) :
    Scans text ⟨outer, before, .apart⟩ ⟨outer, .word text :: before, .word⟩ := by
  unfold Scans
  cases hc : text.toList with
  | nil => exact absurd (String.toList_eq_nil_iff.1 hc) h.ne_empty
  | cons c rest =>
    obtain ⟨hf, hr⟩ := List.forall_mem_cons.1 (hc ▸ inWord_of_wordy h.wordy)
    have ht : text = c.toString ++ String.ofList rest := by
      apply String.toList_inj.1
      simp [hc]
    rw [ht, ← foldlM_word hr outer before c.toString]
    simp [Scanner.next, hf]

theorem spells_word (h : Word text) : Spells text [.word text] :=
  .of_word (scans_word h)

theorem foldlM_quoted {chars : List Char} (h : ∀ c ∈ chars, Scanner.inWord c)
    (outer : List (Char × List Item)) (before : List Item) (text : String) :
    chars.foldlM Scanner.next ⟨outer, .quoted text :: before, .quoted⟩ =
      some ⟨outer, .quoted (text ++ String.ofList chars) :: before, .quoted⟩ := by
  induction chars generalizing text with
  | nil => simp
  | cons c rest ih =>
    obtain ⟨hc, hr⟩ := List.forall_mem_cons.1 h
    have ht : text ++ String.ofList (c :: rest) = text.push c ++ String.ofList rest := by
      apply String.toList_inj.1
      simp
    have hn : c ≠ '\'' ∧ c ≠ '\n' ∧ c ≠ '\\' := by
      refine ⟨?_, ?_, ?_⟩ <;> rintro rfl <;> revert hc <;> decide
    rw [List.foldlM_cons, ht, ← ih hr]
    simp [Scanner.next, hn, pushLast]

theorem closed_quoted (h : Wordy text) : Closed ("'" ++ text ++ "'") [.quoted text] := by
  intro outer before
  have hq : Scans text ⟨outer, .quoted "" :: before, .quoted⟩
      ⟨outer, .quoted text :: before, .quoted⟩ := by
    have ht := foldlM_quoted (inWord_of_wordy h) outer before ""
    rwa [String.empty_append, String.ofList_toList] at ht
  have ho : Scans "'" ⟨outer, before, .apart⟩ ⟨outer, .quoted "" :: before, .quoted⟩ := rfl
  exact (ho.append hq).append rfl

theorem skipsBlanks : Layout.SkipsBlanks Scanner.next fun scanner => scanner.mode = .apart where
  blank scanner hm c _ := by
    have hs : scanner.next ' ' = some scanner := by
      obtain ⟨outer, items, mode⟩ := scanner
      cases hm
      rfl
    rw [hs]
    rfl
  keeps scanner after hm hs := by
    obtain ⟨outer, items, mode⟩ := scanner
    cases hm
    cases hs
    rfl
  feed scanner after hs := by
    obtain ⟨outer, items, mode⟩ := scanner
    cases mode with
    | quoted => simp [Scanner.next] at hs
    | _ =>
      cases hs
      rfl

theorem Spells.indent (h : Spells text xs) : Spells (Layout.indent text) xs := by
  intro outer before
  obtain ⟨mode, hm, hs⟩ := h outer before
  refine ⟨mode, hm, ?_⟩
  unfold Scans at *
  rwa [skipsBlanks.foldlM_indent rfl]

/-- Statements on lines of their own. -/
def block (statements : List (List Item)) : List Item :=
  .line :: statements.flatMap (· ++ [Item.line])

theorem block_lines (first second : List Item) :
    block [first ++ Item.line :: second] = block [first, second] := by
  simp [block]

theorem Spells.braces (h : Spells text xs) :
    Closed (Layout.braces text) [.group (Script.curly (block [xs]))] := by
  have hf : Closed "\n" [.line] := fun _ _ => rfl
  have hx := (hf.append_spells h.indent).append_closed hf rfl
  have hl : Spells ("\n" ++ Layout.indent text ++ "\n") (block [xs]) := by
    simpa [block] using hx.spells
  have ht : Layout.braces text = "\x7b" ++ ("\n" ++ Layout.indent text ++ "\n") ++ "\x7d" := by
    have ho : "\x7b\n" = "\x7b" ++ "\n" := rfl
    have hc : "\n\x7d" = "\n" ++ "\x7d" := rfl
    rw [Layout.braces, ho, hc]
    simp only [String.append_assoc]
  rw [ht]
  exact hl.curly

/-- The items of a text, if its brackets are balanced and its quotes are closed. -/
def items (text : String) : Option (List Item) :=
  match text.toList.foldlM Scanner.next ⟨[], [], .apart⟩ with
  | some ⟨[], items, mode⟩ => if mode = .quoted then none else some items.reverse
  | _ => none

theorem Closed.items_eq (h : Closed text xs) : Script.items text = some xs := by
  have hs := h [] []
  unfold Scans at hs
  simp [Script.items, hs]

end Script

/-- The class that a text declares, without the types in it. -/
def ClassDeclaration.read (text : String) : Option ClassDeclaration :=
  (Script.items text).bind Script.readClass

end AvroBindings
