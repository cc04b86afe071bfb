import AvroBindings.Proofs.Code.Faults
import AvroBindings.Proofs.Text.Words

/-! The text of a type expression tells its shape. Whoever reads the text outside of all brackets
meets a blank only between two alternatives of a union, and the last character of any other type
tells an array and an index map from a name. -/

namespace AvroBindings

/-- What a type is in TypeScript, however it is written down in Avro. -/
inductive TypeShape where
  | builtin (type : Builtin)
  | named (name : String)
  | array (item : TypeShape)
  | index (value : TypeShape)
  | union (alternatives : List TypeShape)

namespace TypeShape

def isUnion : TypeShape → Bool
  | union _ => true
  | _ => false

mutual
/-- The text of a shape. An array sets brackets around a union. -/
def letters : TypeShape → List Char
  | builtin type => type.name.toList
  | named name => name.toList
  | array item =>
    if item.isUnion then '(' :: (item.letters ++ [')', '[', ']']) else item.letters ++ ['[', ']']
  | index value => "\x7b [index:string]: ".toList ++ (value.letters ++ " \x7d".toList)
  | union alternatives => [' ', '|', ' '].intercalate (lettersAll alternatives)

def lettersAll : List TypeShape → List (List Char)
  | [] => []
  | shape :: rest => shape.letters :: lettersAll rest
end

theorem lettersAll_eq (shapes : List TypeShape) : lettersAll shapes = shapes.map letters := by
  induction shapes with
  | nil => rfl
  | cons shape rest ih => rw [lettersAll, ih, List.map_cons]

theorem letters_union (shapes : List TypeShape) :
    (union shapes).letters = [' ', '|', ' '].intercalate (shapes.map letters) := by
  rw [← lettersAll_eq]
  rfl

theorem letters_array (item : TypeShape) : (array item).letters =
    if item.isUnion then '(' :: (item.letters ++ [')', '[', ']']) else item.letters ++ ['[', ']'] :=
  rfl

theorem letters_index (value : TypeShape) : (index value).letters =
    "\x7b [index:string]: ".toList ++ (value.letters ++ " \x7d".toList) := rfl

/-- The names are dotted identifiers that are no built-in type, and unions have at least two
alternatives, of which none is a union. -/
inductive Sound : TypeShape → Prop where
  | builtin (type : Builtin) : Sound (builtin type)
  | named (name : String) (dotted : isDotted name) (other : ∀ type : Builtin, name ≠ type.name) :
    Sound (named name)
  | array (item : TypeShape) (h : Sound item) : Sound (array item)
  | index (value : TypeShape) (h : Sound value) : Sound (index value)
  | union (first second : TypeShape) (rest : List TypeShape)
    (h : ∀ shape ∈ first :: second :: rest, Sound shape)
    (flat : ∀ shape ∈ first :: second :: rest, shape.isUnion = false) :
    Sound (union (first :: second :: rest))

/-- The closing brackets due after a character. There is no blank outside of all brackets. -/
def nest (pending : List Char) (c : Char) : Option (List Char) :=
  if c = ' ' ∧ pending = [] then none else Brackets.due pending c

theorem isDotted_builtin (type : Builtin) : isDotted type.name := by
  cases type <;> decide

theorem nest_of_notMem {c : Char} (h : c ∉ Brackets.all) {pending : List Char}
    (hb : c ≠ ' ' ∨ pending ≠ []) : nest pending c = some pending := by
  unfold nest
  rw [if_neg (by tauto), Brackets.due_of_notMem h]

theorem nest_name {name : String} (h : isDotted name) (pending : List Char) :
    name.toList.foldlM nest pending = some pending := by
  have hw := wordy_of_isDotted h
  refine foldlM_fixed fun c hc => nest_of_notMem (Brackets.notMem_of_wordy hw c hc) (.inl ?_)
  rintro rfl
  obtain hw | hw := hw ' ' hc <;> cases hw

theorem nest_alternatives {first : List Char} {rest : List (List Char)} {next : Char}
    {pending : List Char}
    (h : ∀ text ∈ first :: rest, text.foldlM nest (next :: pending) = some (next :: pending)) :
    ([' ', '|', ' '].intercalate (first :: rest)).foldlM nest (next :: pending) =
      some (next :: pending) := by
  induction rest generalizing first with
  | nil =>
    rw [List.intercalate_singleton]
    exact h first List.mem_cons_self
  | cons second rest ih =>
    rw [List.intercalate_cons_cons, List.foldlM_append, List.foldlM_append,
      h first List.mem_cons_self]
    exact ih fun text ht => h text (List.mem_cons_of_mem first ht)

theorem nest_letters {shape : TypeShape} (h : shape.Sound) {pending : List Char}
    (hp : shape.isUnion = false ∨ pending ≠ []) :
    shape.letters.foldlM nest pending = some pending := by
  induction h generalizing pending with
  | builtin type => exact nest_name (isDotted_builtin type) pending
  | named name dotted other => exact nest_name dotted pending
  | array item h ih =>
    rw [letters_array]
    split
    next hu =>
      rw [List.foldlM_cons, show nest pending '(' = some (')' :: pending) from rfl,
        Option.bind_eq_bind, Option.bind_some, List.foldlM_append, ih (.inr (List.cons_ne_nil _ _))]
      rfl
    next hu =>
      rw [List.foldlM_append, ih (.inl (Bool.eq_false_iff.2 hu))]
      rfl
  | index value h ih =>
    rw [letters_index, List.foldlM_append,
      show "\x7b [index:string]: ".toList.foldlM nest pending = some ('\x7d' :: pending) from rfl,
      Option.bind_eq_bind, Option.bind_some, List.foldlM_append, ih (.inr (List.cons_ne_nil _ _))]
    rfl
  | union first second rest h flat ih =>
    have hn : pending ≠ [] := hp.resolve_left (by simp [isUnion])
    obtain ⟨next, others, rfl⟩ := List.exists_cons_of_ne_nil hn
    rw [letters_union]
    exact nest_alternatives (List.forall_mem_map.2 fun shape hs => ih shape hs (.inr hn))

theorem nest_letters_union {first second : TypeShape} {rest : List TypeShape} (h : first.Sound)
    (hf : first.isUnion = false) :
    (union (first :: second :: rest)).letters.foldlM nest [] = none := by
  rw [letters_union, List.map_cons, List.map_cons, List.intercalate_cons_cons, List.append_assoc,
    List.foldlM_append, nest_letters h (.inl hf)]
  rfl

theorem isUnion_eq {shape : TypeShape} (h : shape.Sound) :
    shape.isUnion = (shape.letters.foldlM nest []).isNone := by
  cases h with
  | union first second rest h flat =>
    rw [nest_letters_union (h first List.mem_cons_self) (flat first List.mem_cons_self)]
    rfl
  | builtin type => exact (nest_letters (.builtin type) (.inl rfl)) ▸ rfl
  | named name dotted other => exact (nest_letters (.named name dotted other) (.inl rfl)) ▸ rfl
  | array item h => exact (nest_letters (.array item h) (.inl rfl)) ▸ rfl
  | index value h => exact (nest_letters (.index value h) (.inl rfl)) ▸ rfl

def bracket? : TypeShape → Option Char
  | array _ => some ']'
  | index _ => some '\x7d'
  | _ => none

theorem getLast?_name {name : String} (h : isDotted name) :
    name.toList.getLast?.filter (· ∈ Brackets.all) = none := by
  have hw := Brackets.notMem_of_wordy (wordy_of_isDotted h)
  cases hl : name.toList.getLast? with
  | none => rfl
  | some c => exact Option.filter_some_neg (by simpa using hw c (List.mem_of_getLast? hl))

theorem getLast?_letters {shape : TypeShape} (h : shape.Sound) (hu : shape.isUnion = false) :
    shape.letters.getLast?.filter (· ∈ Brackets.all) = shape.bracket? := by
  cases h with
  | builtin type => exact getLast?_name (isDotted_builtin type)
  | named name dotted other => exact getLast?_name dotted
  | array item h =>
    have hl : ∃ text, (array item).letters = text ++ [']'] := by
      rw [letters_array]
      split
      next => exact ⟨'(' :: (item.letters ++ [')', '[']), by simp⟩
      next => exact ⟨item.letters ++ ['['], by simp⟩
    obtain ⟨text, hl⟩ := hl
    rw [hl, List.getLast?_concat]
    rfl
  | index value h =>
    have hl : (index value).letters =
        "\x7b [index:string]: ".toList ++ (value.letters ++ [' ']) ++ ['\x7d'] := by
      rw [letters_index]
      simp
    rw [hl, List.getLast?_concat]
    rfl
  | union => cases hu

theorem eq_nil_of_closed {text more after : List Char} (ht : text.foldlM nest [] = some [])
    (hm : (text ++ more).foldlM nest [] = some []) (hb : ∀ c ∈ (more ++ after).head?, c = ' ') :
    more = [] := by
  cases more with
  | nil => rfl
  | cons c more =>
    obtain rfl : c = ' ' := hb c rfl
    rw [List.foldlM_append, ht] at hm
    cases hm

theorem first_unique {text other after beyond : List Char} (ht : text.foldlM nest [] = some [])
    (ho : other.foldlM nest [] = some []) (ha : ∀ c ∈ after.head?, c = ' ')
    (hb : ∀ c ∈ beyond.head?, c = ' ') (h : text ++ after = other ++ beyond) :
    text = other ∧ after = beyond := by
  obtain ⟨more, rfl, rfl⟩ | ⟨more, rfl, rfl⟩ := List.append_eq_append_iff.1 h
  · obtain rfl := eq_nil_of_closed ht ho ha
    simp
  · obtain rfl := eq_nil_of_closed ho ht hb
    simp

def further (texts : List (List Char)) : List Char := texts.flatMap ([' ', '|', ' '] ++ ·)

theorem further_cons (text : List Char) (rest : List (List Char)) :
    further (text :: rest) = [' ', '|', ' '] ++ (text ++ further rest) := by
  simp [further]

theorem intercalate_eq_further (first : List Char) (rest : List (List Char)) :
    [' ', '|', ' '].intercalate (first :: rest) = first ++ further rest := by
  induction rest generalizing first with
  | nil => simp [further]
  | cons second rest ih =>
    rw [List.intercalate_cons_cons, ih, List.append_assoc, further_cons]

theorem head?_further (texts : List (List Char)) : ∀ c ∈ (further texts).head?, c = ' ' := by
  cases texts <;> simp [further]

theorem alternatives_unique {first other : List Char} {rest others : List (List Char)}
    (hf : ∀ text ∈ first :: rest, text.foldlM nest [] = some [])
    (ho : ∀ text ∈ other :: others, text.foldlM nest [] = some [])
    (h : first ++ further rest = other ++ further others) : first :: rest = other :: others := by
  induction rest generalizing first other others with
  | nil =>
    obtain ⟨rfl, hr⟩ := first_unique (hf first List.mem_cons_self) (ho other List.mem_cons_self)
      (head?_further _) (head?_further _) h
    cases others with
    | nil => rfl
    | cons second others => cases hr
  | cons second rest ih =>
    obtain ⟨rfl, hr⟩ := first_unique (hf first List.mem_cons_self) (ho other List.mem_cons_self)
      (head?_further _) (head?_further _) h
    cases others with
    | nil => cases hr
    | cons beyond others =>
      rw [further_cons, further_cons, List.append_cancel_left_eq] at hr
      rw [ih (List.forall_mem_cons.1 hf).2 (List.forall_mem_cons.1 ho).2 hr]

theorem eq_of_map_letters {shapes others : List TypeShape}
    (h : ∀ shape ∈ shapes, ∀ other : TypeShape, other.Sound → shape.letters = other.letters →
      shape = other)
    (ho : ∀ other ∈ others, other.Sound) (he : shapes.map letters = others.map letters) :
    shapes = others := by
  induction shapes generalizing others with
  | nil => exact (List.map_eq_nil_iff.1 he.symm).symm
  | cons shape shapes ih =>
    cases others with
    | nil => cases he
    | cons other others =>
      obtain ⟨hh, ht⟩ := List.cons_eq_cons.1 he
      rw [h shape List.mem_cons_self other (ho other List.mem_cons_self) hh,
        ih (List.forall_mem_cons.1 h).2 (List.forall_mem_cons.1 ho).2 ht]

/-- What stands before the brackets of an array tells whether they belong to a union. -/
theorem item_unique {item other : TypeShape} (hi : item.Sound) (ho : other.Sound)
    (h : (array item).letters = (array other).letters) : item.letters = other.letters := by
  have apart {union plain : TypeShape} (hp : plain.Sound) (hu : plain.isUnion = false)
      (h : '(' :: (union.letters ++ [')', '[', ']']) = plain.letters ++ ['[', ']']) : False := by
    have hl : plain.letters = '(' :: union.letters ++ [')'] := by
      rw [← List.append_cancel_right_eq _ ['[', ']'], ← h]
      simp
    have hb := getLast?_letters hp hu
    rw [hl, List.getLast?_concat] at hb
    cases plain <;> cases hb
  rw [letters_array, letters_array] at h
  cases hu : item.isUnion <;> cases hv : other.isUnion <;> simp only [hu, hv] at h
  · exact List.append_cancel_right h
  · exact (apart hi hu h.symm).elim
  · exact (apart ho hv h).elim
  · exact List.append_cancel_right (List.cons.inj h).2

theorem bracket?_of_isUnion {shape : TypeShape} (h : shape.isUnion = true) :
    shape.bracket? = none := by
  cases shape with
  | union => rfl
  | _ => cases h

def kind (shape : TypeShape) : Bool × Option Char := (shape.isUnion, shape.bracket?)

theorem kind_unique {shape other : TypeShape} (hs : shape.Sound) (ho : other.Sound)
    (h : shape.letters = other.letters) : shape.kind = other.kind := by
  have hu : shape.isUnion = other.isUnion := by rw [isUnion_eq hs, isUnion_eq ho, h]
  refine Prod.ext hu ?_
  change shape.bracket? = other.bracket?
  cases hn : shape.isUnion with
  | false => rw [← getLast?_letters hs hn, ← getLast?_letters ho (hu ▸ hn), h]
  | true => rw [bracket?_of_isUnion hn, bracket?_of_isUnion (hu ▸ hn)]

theorem name_injective : Function.Injective Builtin.name := by
  intro type other h
  cases type <;> cases other <;> first | rfl | simp [Builtin.name] at h

/-- Two shapes with the same text are the same. -/
theorem letters_unique {shape other : TypeShape} (hs : shape.Sound) (ho : other.Sound)
    (h : shape.letters = other.letters) : shape = other := by
  have hk := kind_unique hs ho h
  induction hs generalizing other with
  | builtin type =>
    cases ho with
    | builtin second => rw [name_injective (String.toList_inj.1 h)]
    | named name dotted distinct => exact absurd (String.toList_inj.1 h.symm) (distinct type)
    | _ => cases hk
  | named name dotted distinct =>
    cases ho with
    | builtin type => exact absurd (String.toList_inj.1 h) (distinct type)
    | named second => rw [String.toList_inj.1 h]
    | _ => cases hk
  | array item hi ih =>
    cases ho with
    | array second ho =>
      have hl := item_unique hi ho h
      rw [ih ho hl (kind_unique hi ho hl)]
    | _ => cases hk
  | index value hv ih =>
    cases ho with
    | index second ho =>
      rw [letters_index, letters_index] at h
      have hl := List.append_cancel_right (List.append_cancel_left h)
      rw [ih ho hl (kind_unique hv ho hl)]
    | _ => cases hk
  | union first second rest hs flat ih =>
    cases ho with
    | union head next tail ho level =>
      have closed {shapes : List TypeShape} (hs : ∀ shape ∈ shapes, shape.Sound)
          (hu : ∀ shape ∈ shapes, shape.isUnion = false) :
          ∀ text ∈ shapes.map letters, text.foldlM nest [] = some [] :=
        List.forall_mem_map.2 fun shape hm => nest_letters (hs shape hm) (.inl (hu shape hm))
      simp only [letters_union, List.map_cons, intercalate_eq_further] at h
      have hl := alternatives_unique (closed hs flat) (closed ho level) h
      refine congrArg union (eq_of_map_letters (fun shape hm other ho h => ?_) ho hl)
      exact ih shape hm ho h (kind_unique (hs shape hm) ho h)
    | _ => cases hk

end TypeShape

end AvroBindings
