import AvroBindings.Code.Bundle

/-! Identifiers and dotted identifiers, by their characters, and brackets in a text. Every name that a
language of generated code takes for an identifier is one here, whatever script it is written in.
A reader of brackets keeps the closing ones that are still due. -/

namespace AvroBindings

/-- Letters, digits, `_`, `$`, and all characters beyond ASCII but white space. -/
def isWordChar (c : Char) : Bool :=
  c.isAlphanum || c == '_' || c == '$' || (128 ≤ c.toNat && !Layout.isBlank c)

def isIdentifier : List Char → Bool
  | [] => false
  | first :: rest => !first.isDigit && (first :: rest).all isWordChar

def isDotted (text : String) : Bool := (text.toList.splitOn '.').all isIdentifier

/-- A text of word characters and dots. -/
def Wordy (text : String) : Prop := ∀ c ∈ text.toList, isWordChar c ∨ c = '.'

structure Word (text : String) : Prop where
  wordy : Wordy text
  ne_empty : text ≠ ""

theorem wordy_of_all {text : String}
    (h : text.toList.all fun c => isWordChar c || c == '.') : Wordy text := by
  intro c hc
  have hw := List.all_eq_true.1 h c hc
  simpa using hw

theorem isWordChar_of_isIdentifier {text : List Char} (h : isIdentifier text) :
    ∀ c ∈ text, isWordChar c := by
  cases text with
  | nil => cases h
  | cons first rest =>
    simp only [isIdentifier, Bool.and_eq_true] at h
    exact List.all_eq_true.1 h.2

theorem toNat_of_isAlphanum {c : Char} (h : c.isAlphanum) : 48 ≤ c.toNat ∧ c.toNat ≤ 122 := by
  delta Char.isAlphanum Char.isAlpha Char.isUpper Char.isLower Char.isDigit at h
  simp only [Bool.or_eq_true, Bool.and_eq_true, decide_eq_true_eq, UInt32.le_iff_toNat_le,
    ge_iff_le] at h
  change ((65 ≤ c.toNat ∧ c.toNat ≤ 90) ∨ (97 ≤ c.toNat ∧ c.toNat ≤ 122)) ∨
    (48 ≤ c.toNat ∧ c.toNat ≤ 57) at h
  omega

theorem isBlank_of_isWordChar {c : Char} (h : isWordChar c) : Layout.isBlank c = false := by
  simp only [isWordChar, Bool.or_eq_true, Bool.and_eq_true, Bool.not_eq_true', beq_iff_eq] at h
  obtain ((h | rfl) | rfl) | h := h
  · have hc := toNat_of_isAlphanum h
    simp only [Layout.isBlank, Bool.or_eq_false_iff, Bool.and_eq_false_iff, decide_eq_false_iff_not,
      beq_eq_false_iff_ne]
    omega
  · rfl
  · rfl
  · exact h.2

theorem ne_empty_of_isDotted {text : String} (h : isDotted text) : text ≠ "" := by
  rintro rfl
  cases h

theorem wordy_of_isDotted {text : String} (h : isDotted text) : Wordy text := by
  intro c hc
  obtain rfl | ⟨part, hp, hc⟩ := @mem_splitOn '.' c text.toList hc
  · exact .inr rfl
  · exact .inl (isWordChar_of_isIdentifier (List.all_eq_true.1 h part hp) c hc)

theorem word_of_isDotted {text : String} (h : isDotted text) : Word text :=
  ⟨wordy_of_isDotted h, ne_empty_of_isDotted h⟩

theorem word_of_isIdentifier {text : String} (h : isIdentifier text.toList) : Word text where
  wordy c hc := .inl (isWordChar_of_isIdentifier h c hc)
  ne_empty := by
    rintro rfl
    cases h

theorem Wordy.append {text other : String} (h : Wordy text) (ho : Wordy other) :
    Wordy (text ++ other) := by
  intro c hc
  rw [String.toList_append] at hc
  exact (List.mem_append.1 hc).elim (h c) (ho c)

theorem isWordChar_of_isDigit {c : Char} (h : c.isDigit) : isWordChar c := by
  simp [isWordChar, Char.isAlphanum, h]

theorem wordy_repr (n : Nat) : Wordy n.repr := by
  intro c hc
  rw [Nat.repr, String.toList_ofList] at hc
  exact .inl (isWordChar_of_isDigit (Nat.isDigit_of_mem_toDigits (by decide) (by decide) hc))

theorem foldlM_fixed {α β : Type} {step : β → α → Option β} {state : β} {items : List α}
    (h : ∀ item ∈ items, step state item = some state) : items.foldlM step state = some state := by
  induction items with
  | nil => rfl
  | cons item rest ih =>
    rw [List.foldlM_cons, h item List.mem_cons_self]
    exact ih fun other ho => h other (List.mem_cons_of_mem item ho)

namespace Brackets

def all : List Char := ['(', '[', '\x7b', ')', ']', '\x7d']

def closer? (c : Char) : Option Char :=
  if c = '(' then some ')' else if c = '[' then some ']' else if c = '\x7b' then some '\x7d'
  else none

def isCloser (c : Char) : Bool := c == ')' || c == ']' || c == '\x7d'

/-- The closing brackets due after a character, the next one first. None other than that one may
be closed. -/
def due (pending : List Char) (c : Char) : Option (List Char) :=
  match closer? c with
  | some closer => some (closer :: pending)
  | none =>
    if isCloser c then
      match pending with
      | next :: rest => if c = next then some rest else none
      | [] => none
    else some pending

/-- Round, square and curly brackets are closed in the reverse of the order they are opened in. -/
def Balanced (text : List Char) : Prop := text.foldlM due [] = some []

theorem due_of_notMem {c : Char} (h : c ∉ all) (pending : List Char) :
    due pending c = some pending := by
  simp only [all, List.mem_cons, List.not_mem_nil, or_false, not_or] at h
  simp [due, closer?, isCloser, h]

theorem notMem_of_isWordChar {c : Char} (h : isWordChar c) : c ∉ all := by
  have hb : all.all (fun c => !isWordChar c) = true := by decide
  intro hc
  simpa [h] using List.all_eq_true.1 hb c hc

theorem notMem_of_wordy {text : String} (h : Wordy text) : ∀ c ∈ text.toList, c ∉ all := by
  intro c hc
  obtain hw | rfl := h c hc
  · exact notMem_of_isWordChar hw
  · decide

end Brackets

end AvroBindings
