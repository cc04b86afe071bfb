import AvroBindings.Proofs.Text.Lines
import Mathlib.Algebra.GroupWithZero.Nat
import Mathlib.Data.List.Chain
import Mathlib.Data.List.Infix

/-! How often code compares with null by two equals signs. Such a test is never cut in two where
pieces of code meet, and indentation makes no new one, so the tests of a text are those of its
pieces. -/

namespace AvroBindings.Layout

def occurrencesOf (pattern : List Char) : List Char → Nat
  | [] => 0
  | c :: rest =>
    if pattern <+: c :: rest then occurrencesOf pattern rest + 1 else occurrencesOf pattern rest

/-- A comparison with null that holds of undefined too. -/
def looseTest : List Char := " == null".toList

theorem looseTest_eq : looseTest = [' ', '=', '=', ' ', 'n', 'u', 'l', 'l'] := rfl

def looseTests (text : List Char) : Nat := occurrencesOf looseTest text

section Occurrences

variable {pattern rest : List Char} {c : Char}

theorem isPrefix_append_cons_iff (h : c ∉ pattern) (before rest : List Char) :
    pattern <+: before ++ c :: rest ↔ pattern <+: before := by
  constructor
  · intro hp
    obtain hb | ⟨middle, rfl⟩ := List.prefix_or_prefix_of_prefix hp (List.prefix_append _ _)
    · exact hb
    · cases middle with
      | nil => exact ⟨[], by simp⟩
      | cons d middle =>
        have hm := (List.prefix_append_right_inj before).1 hp
        obtain rfl := (List.cons_prefix_cons.1 hm).1
        exact absurd (by simp) h
  · exact fun hp => hp.trans (List.prefix_append _ _)

theorem occurrencesOf_append_cons (hp : pattern ≠ []) (h : c ∉ pattern) (before rest : List Char) :
    occurrencesOf pattern (before ++ c :: rest) =
      occurrencesOf pattern before + occurrencesOf pattern rest := by
  induction before with
  | nil =>
    have hn : ¬pattern <+: c :: rest := fun hc =>
      hp (List.prefix_nil.1 ((isPrefix_append_cons_iff h [] rest).1 hc))
    simp only [List.nil_append, occurrencesOf, if_neg hn, Nat.zero_add]
  | cons d before ih =>
    have hc := isPrefix_append_cons_iff h (d :: before) rest
    simp only [List.cons_append] at hc ⊢
    rw [occurrencesOf, occurrencesOf, ih]
    simp only [hc]
    split <;> omega

end Occurrences

def Bare (text : List Char) : Prop := text.head? ≠ some '='

theorem bare_nil : Bare [] := (Option.some_ne_none _).symm

/-- Before a text that is bare, nothing completes a loose test: a text that could begin one has
nothing of it but the space. -/
def Settled (text : List Char) : Prop :=
  ∀ part ∈ text.tails, 2 ≤ part.length → part <+: looseTest → part = looseTest

instance (text : List Char) : Decidable (Settled text) :=
  inferInstanceAs (Decidable (∀ part ∈ text.tails, _))

section Settled

variable {text rest : List Char}

theorem isPrefix_append_iff {c : Char} (h : Settled (c :: text)) (hr : Bare rest) :
    looseTest <+: (c :: text) ++ rest ↔ looseTest <+: c :: text := by
  refine ⟨fun hp => ?_, fun hp => hp.trans (List.prefix_append _ _)⟩
  obtain hp | hs := List.prefix_or_prefix_of_prefix hp (List.prefix_append _ _)
  · exact hp
  · cases text with
    | nil =>
      -- after its space, the test goes on with the equals sign that `rest` does not begin with
      rw [looseTest_eq] at hp
      obtain ⟨-, hp⟩ := List.cons_prefix_cons.1 hp
      cases rest with
      | nil => cases List.prefix_nil.1 hp
      | cons d rest => exact absurd (congrArg some (List.cons_prefix_cons.1 hp).1.symm) hr
    | cons d text =>
      rw [h _ ((List.mem_tails _ _).2 List.suffix_rfl) (by simp) hs]

theorem looseTests_append (h : Settled text) (hr : Bare rest) :
    looseTests (text ++ rest) = looseTests text + looseTests rest := by
  induction text with
  | nil => simp [looseTests, occurrencesOf]
  | cons c text ih =>
    have hp := isPrefix_append_iff h hr
    have ht : Settled text := fun part hm =>
      h part ((List.mem_tails _ _).2 (((List.mem_tails _ _).1 hm).trans (List.suffix_cons c text)))
    have ih := ih ht
    unfold looseTests at ih ⊢
    rw [List.cons_append] at hp ⊢
    rw [occurrencesOf, occurrencesOf, ih]
    simp only [hp]
    split <;> omega

theorem settled_of_notMem (h : '=' ∉ text) : Settled text := by
  intro part hm hl hp
  obtain ⟨c, d, rest, rfl⟩ : ∃ c d rest, part = c :: d :: rest := by
    match part, hl with
    | c :: d :: rest, _ => exact ⟨c, d, rest, rfl⟩
  rw [looseTest_eq] at hp
  obtain ⟨-, hp⟩ := List.cons_prefix_cons.1 hp
  obtain ⟨rfl, -⟩ := List.cons_prefix_cons.1 hp
  exact absurd (((List.mem_tails _ _).1 hm).subset (by simp)) h

theorem looseTests_of_notMem (h : '=' ∉ text) : looseTests text = 0 := by
  unfold looseTests
  induction text with
  | nil => rfl
  | cons c text ih =>
    have hn : ¬looseTest <+: c :: text := fun hp => h (hp.subset (by decide))
    rw [occurrencesOf, if_neg hn, ih (List.not_mem_of_not_mem_cons h)]

theorem looseTests_spaces (hr : Bare rest) (width : Nat) :
    looseTests (List.replicate width ' ' ++ rest) = looseTests rest := by
  have hs : '=' ∉ List.replicate width ' ' := fun hm => by cases List.eq_of_mem_replicate hm
  rw [looseTests_append (settled_of_notMem hs) hr, looseTests_of_notMem hs, Nat.zero_add]

end Settled

/-- No line of a text that begins a line begins with an equals sign. -/
def BareLines (text : List Char) : Prop :=
  ('\n' :: text).IsChain fun c d => c = '\n' → d ≠ '='

instance (text : List Char) : Decidable (BareLines text) :=
  inferInstanceAs (Decidable (List.IsChain _ _))

section Lines

variable {text other rest : List Char}

theorem BareLines.bare (h : BareLines text) : Bare text := by
  cases text with
  | nil => exact bare_nil
  | cons c text =>
    rintro ⟨⟩
    exact (List.isChain_cons_cons.1 h).1 rfl rfl

theorem BareLines.append (h : BareLines text) (ho : BareLines other) :
    BareLines (text ++ other) := by
  have hb := ho.bare
  unfold BareLines at *
  rw [← List.cons_append, List.isChain_append]
  refine ⟨h, ho.tail, fun c _ d hd _ => ?_⟩
  rintro rfl
  exact hb hd

theorem Bare.append (h : Bare text) (hr : Bare rest) : Bare (text ++ rest) := by
  cases text with
  | nil => exact hr
  | cons c text => exact h

theorem Bare.bareLines {line : List Char} (h : Bare line) (hn : '\n' ∉ line) : BareLines line := by
  refine List.IsChain.cons ?_ fun c hc _ => ?_
  · exact List.Pairwise.isChain (List.Pairwise.imp_of_mem
      (fun hc _ _ he => absurd (he ▸ hc) hn) (List.pairwise_of_forall fun _ _ => trivial))
  · rintro rfl
    exact h hc

theorem bareLines_joinLines {first : List Char} {lines : List (List Char)}
    (h : ∀ line ∈ first :: lines, Bare line ∧ '\n' ∉ line) :
    BareLines (joinLines (first :: lines)) := by
  induction lines generalizing first with
  | nil =>
    obtain ⟨hb, hn⟩ := h first List.mem_cons_self
    rw [joinLines, List.intercalate_singleton]
    exact hb.bareLines hn
  | cons second lines ih =>
    obtain ⟨⟨hb, hn⟩, hr⟩ := List.forall_mem_cons.1 h
    have hf := hb.bareLines hn
    have hs : joinLines (first :: second :: lines) =
        first ++ '\n' :: joinLines (second :: lines) := by simp [joinLines]
    rw [hs]
    unfold BareLines at hf ⊢
    rw [← List.cons_append]
    refine hf.append (ih hr) fun c _ d hd _ => ?_
    cases hd
    decide

theorem BareLines.bare_of_mem (h : BareLines text) {line : List Char} (hm : line ∈ lines text) :
    Bare line := by
  have hg : ∀ (before : Char) (text : List Char),
      ((before :: text).IsChain fun c d => c = '\n' → d ≠ '=') →
      (before = '\n' → ∀ line ∈ lines text, Bare line) ∧
        ∀ line ∈ (lines text).tail, Bare line := by
    intro before text
    induction text generalizing before with
    | nil => simp [lines, Bare]
    | cons c text ih =>
      intro hc
      obtain ⟨hb, hc⟩ := List.isChain_cons_cons.1 hc
      obtain ⟨ha, ht⟩ := ih c hc
      unfold lines at ha ht ⊢
      rw [List.splitOn_cons_eq_if_modifyHead]
      split
      next he =>
        have ha := ha (eq_of_beq he)
        exact ⟨fun _ => List.forall_mem_cons.2 ⟨bare_nil, ha⟩, ha⟩
      next =>
        obtain ⟨first, others, hs⟩ := List.exists_cons_of_ne_nil (List.splitOn_ne_nil '\n' text)
        rw [hs] at ht ⊢
        exact ⟨fun hn => List.forall_mem_cons.2 ⟨fun he => hb hn (Option.some.inj he), ht⟩, ht⟩
  exact (hg '\n' text h).1 rfl line hm

theorem Bare.indentLine {line : List Char} (h : Bare line) (width : Nat) :
    Bare (indentLine width line) := by
  unfold Layout.indentLine
  split
  next => exact h
  next =>
    have hs : Bare (List.replicate width ' ') := by
      cases width with
      | zero => exact bare_nil
      | succ width =>
        rintro ⟨⟩
    exact hs.append h

theorem looseTests_indentLine {line : List Char} (h : Bare line) (width : Nat) (rest : List Char) :
    looseTests (indentLine width line ++ rest) = looseTests (line ++ rest) := by
  unfold indentLine
  split
  next => rfl
  next hb =>
    have hl : Bare (line ++ rest) := by
      cases line with
      | nil => exact absurd rfl hb
      | cons c line => exact h
    rw [List.append_assoc, looseTests_spaces hl]

theorem looseTests_indentLines {first : List Char} {lines : List (List Char)}
    (h : ∀ line ∈ first :: lines, Bare line) (width : Nat) (rest : List Char) :
    looseTests (joinLines ((first :: lines).map (indentLine width)) ++ rest) =
      looseTests (joinLines (first :: lines) ++ rest) := by
  induction lines generalizing first with
  | nil =>
    simpa [joinLines] using looseTests_indentLine (h first List.mem_cons_self) width rest
  | cons second lines ih =>
    obtain ⟨hf, hr⟩ := List.forall_mem_cons.1 h
    have hj : ∀ (first second : List Char) (lines : List (List Char)),
        joinLines (first :: second :: lines) ++ rest =
          first ++ '\n' :: (joinLines (second :: lines) ++ rest) := by simp [joinLines]
    have hs : ∀ before after : List Char, looseTests (before ++ '\n' :: after) =
        looseTests before + looseTests after :=
      occurrencesOf_append_cons (by decide) (by decide)
    have hi := looseTests_indentLine hf width []
    rw [List.append_nil, List.append_nil] at hi
    rw [List.map_cons, List.map_cons, hj, hj, hs, hs, ← List.map_cons, ih hr, hi]

end Lines

/-- A text has so many loose tests, and keeps them before whatever does not begin with an equals
sign. Neither does any line of it. -/
structure Loose (count : Nat) (text : String) : Prop where
  bareLines : BareLines text.toList
  count : ∀ rest, Bare rest → looseTests (text.toList ++ rest) = count + looseTests rest

section Loose

variable {text other : String} {count more : Nat}

theorem Loose.looseTests_eq (h : Loose count text) : looseTests text.toList = count := by
  have hc := h.count [] bare_nil
  rwa [List.append_nil] at hc

theorem Loose.append (h : Loose count text) (ho : Loose more other) :
    Loose (count + more) (text ++ other) := by
  constructor
  · rw [String.toList_append]
    exact h.bareLines.append ho.bareLines
  · intro rest hr
    rw [String.toList_append, List.append_assoc, h.count _ (ho.bareLines.bare.append hr),
      ho.count rest hr, Nat.add_assoc]

theorem Loose.indent (h : Loose count text) : Loose count (indent text) := by
  have hb : ∀ line ∈ lines text.toList, Bare line := fun _ => h.bareLines.bare_of_mem
  cases hl : lines text.toList with
  | nil => exact absurd hl (List.splitOn_ne_nil _ _)
  | cons first others =>
    rw [hl] at hb
    have ht := joinLines_lines text.toList
    rw [hl] at ht
    have hi : (Layout.indent text).toList = joinLines ((first :: others).map (indentLine 2)) := by
      rw [Layout.indent, toList_indentBy, hl]
      rfl
    constructor
    · rw [hi]
      have hs : ∀ line ∈ (first :: others).map (indentLine 2), Bare line ∧ '\n' ∉ line :=
        List.forall_mem_map.2 fun line hm =>
          ⟨(hb line hm).indentLine 2, notMem_indentLine (notMem_of_mem_lines (hl ▸ hm)) 2⟩
      exact bareLines_joinLines hs
    · intro rest hr
      rw [hi, looseTests_indentLines hb, ht]
      exact h.count rest hr

theorem Loose.of_code
    (h : BareLines text.toList ∧ Settled text.toList ∧ looseTests text.toList = count) :
    Loose count text where
  bareLines := h.1
  count rest hr := by rw [looseTests_append h.2.1 hr, h.2.2]

theorem Quiet.loose (h : Quiet text) : Loose 0 text := by
  have he : '=' ∉ text.toList := fun hm => (h '=' hm).2 rfl
  have hb : Bare text.toList := fun hh => he (List.mem_of_mem_head? hh)
  constructor
  · exact hb.bareLines h.single
  · intro rest hr
    rw [looseTests_append (settled_of_notMem he) hr, looseTests_of_notMem he]

theorem Loose.code_append (h : Loose 0 text) (ho : Loose count other) :
    Loose count (text ++ other) := by
  have ha := h.append ho
  rwa [Nat.zero_add] at ha

theorem Loose.append_code (h : Loose count text) (ho : Loose 0 other) :
    Loose count (text ++ other) := h.append ho

theorem Loose.braces (h : Loose count text) : Loose count (braces text) := by
  have ho : Loose 0 "\x7b\n" := .of_code (by decide)
  have hc : Loose 0 "\n\x7d" := .of_code (by decide)
  exact (ho.code_append h.indent).append_code hc

theorem Loose.selfExecuting (h : Loose count text) : Loose count (selfExecuting text) := by
  have ho : Loose 0 "(() => " := .of_code (by decide)
  have hc : Loose 0 ")()" := .of_code (by decide)
  exact (ho.code_append h.braces).append_code hc

theorem Loose.intercalate {α : Type} {separator : String} (hs : Loose 0 separator)
    {text : α → String} {count : α → Nat} {items : List α}
    (h : ∀ item ∈ items, Loose (count item) (text item)) :
    Loose (items.map count).sum (separator.intercalate (items.map text)) := by
  induction items with
  | nil =>
    have hn : Loose 0 "" := .of_code (by decide)
    exact hn
  | cons first rest ih =>
    obtain ⟨hf, hr⟩ := List.forall_mem_cons.1 h
    rw [List.map_cons, List.map_cons, List.sum_cons]
    cases rest with
    | nil =>
      rw [List.map_nil, List.map_nil, String.intercalate_singleton]
      exact hf
    | cons second rest =>
      have ih := ih hr
      rw [List.map_cons] at ih ⊢
      rw [List.map_cons, String.intercalate_cons_cons]
      exact (hf.append hs).append ih

end Loose

end AvroBindings.Layout
