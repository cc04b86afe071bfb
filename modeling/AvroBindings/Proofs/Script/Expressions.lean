import AvroBindings.Proofs.Code.Worded
import AvroBindings.Proofs.Script.Scanner

/-! Reading the expressions in generated code. Where the names in them are identifiers, accesses and
tests are read back from their texts, and types are skipped. -/

namespace AvroBindings

open Script

/-- Code within a line. -/
def Spans (text : String) : Prop := ∃ items, Spells text items ∧ ∀ item ∈ items, ¬item.isLine

theorem spans_empty : Spans "" :=
  ⟨[], closed_empty.spells, List.forall_mem_nil _⟩

theorem Wordy.spans {text : String} (h : Wordy text) : Spans text := by
  by_cases hn : text = ""
  · rw [hn]
    exact spans_empty
  · exact ⟨[.word text], spells_word ⟨h, hn⟩, by simp [Item.isLine]⟩

theorem spans_intercalate {separator : String} {xs : List Item} (hs : Closed separator xs)
    (ha : Apart separator) (hx : ∀ item ∈ xs, ¬item.isLine) {texts : List String}
    (h : ∀ text ∈ texts, Spans text) : Spans (separator.intercalate texts) := by
  induction texts with
  | nil => exact spans_empty
  | cons first rest ih =>
    obtain ⟨⟨ys, hf, hy⟩, hr⟩ := List.forall_mem_cons.1 h
    cases rest with
    | nil =>
      rw [String.intercalate_singleton]
      exact ⟨ys, hf, hy⟩
    | cons second rest =>
      obtain ⟨zs, hr, hz⟩ := ih hr
      rw [String.intercalate_cons_cons]
      refine ⟨ys ++ xs ++ zs, (hf.append_closed hs ha).append_spells hr, ?_⟩
      exact List.forall_mem_append.2 ⟨List.forall_mem_append.2 ⟨hy, hx⟩, hz⟩

theorem TypeExpr.composes_spans : Composes Spans where
  wordy h := h.spans
  union h := by
    have hs : Closed " | " [.mark "|"] := fun _ _ => rfl
    exact spans_intercalate hs rfl (by simp [Item.isLine]) h
  grouped := by
    rintro text ⟨xs, hs, hx⟩
    have hb : Closed "[]" [.group (square [])] := fun _ _ => rfl
    have hc : ")[]" = ")" ++ "[]" := rfl
    rw [hc, ← String.append_assoc]
    exact ⟨_, (hs.round.append hb).spells, by simp [Item.isLine]⟩
  array := by
    rintro text ⟨xs, hs, hx⟩
    have hb : Closed "[]" [.group (square [])] := fun _ _ => rfl
    refine ⟨_, (hs.append_closed hb rfl).spells, List.forall_mem_append.2 ⟨hx, ?_⟩⟩
    simp [Item.isLine]
  index := by
    rintro text ⟨xs, hs, hx⟩
    have hi : Closed " [index:string]: " [.group (square [.word "index", .mark ":", .word "string"]),
      .mark ":"] := fun _ _ => rfl
    have hb : Closed " " [] := fun _ _ => rfl
    have ho : "\x7b [index:string]: " = "\x7b" ++ " [index:string]: " := rfl
    have hc : " \x7d" = " " ++ "\x7d" := rfl
    have ht : "\x7b [index:string]: " ++ text ++ " \x7d" =
        "\x7b" ++ (" [index:string]: " ++ text ++ " ") ++ "\x7d" := by
      rw [ho, hc]
      simp only [String.append_assoc]
    rw [ht]
    exact ⟨_, ((hi.append_spells hs).append_closed hb rfl).spells.curly.spells,
      by simp [Item.isLine]⟩

/-- A type stands within a line, whatever is read of it. -/
theorem TypeExpr.spans (type : TypeExpr) (h : type.Worded) : Spans type.render :=
  composes_spans.render type h

def Tag.content : Tag → Content
  | fullName className => .name (className ++ ".FQN")
  | literal text => .texts [text]

theorem Wordy.member {name : String} (h : Wordy name) {member : String}
    (hm : Wordy member) (hn : member ≠ "") : Word (name ++ member) where
  wordy := h.append hm
  ne_empty he := hn (String.append_eq_empty_iff.1 he).2

theorem Wordy.memberOf {name : String} (h : Wordy name) {owner : String}
    (ho : Wordy owner) (hn : owner ≠ "") : Word (owner ++ name) where
  wordy := Wordy.append ho h
  ne_empty he := hn (String.append_eq_empty_iff.1 he).1

theorem Tag.closed_brackets {tag : Tag} (h : tag.Worded) :
    Closed ("[" ++ tag.text ++ "]") [.group tag.content] := by
  cases tag with
  | fullName className =>
    have hw : Word (className ++ ".FQN") := Wordy.member h (wordy_of_all (by decide)) (by decide)
    exact (spells_word hw).square
  | literal text => exact (closed_quoted h).spells.square

/-- What an access is read from. -/
def Access.items : Access → List Item
  | given text => [.word text]
  | field name => [.word ("input." ++ name)]
  | bound binding => [.word binding.text]
  | tagged access tag => access.items ++ [Item.group tag.content]

theorem Access.word_field {name : String} (h : isIdentifier name.toList) :
    Word ("input." ++ name) :=
  (word_of_isIdentifier h).wordy.memberOf (wordy_of_all (by decide)) (by decide)

theorem Binding.word {binding : Binding} (h : ∃ depth : Nat, binding.depth = depth) :
    Word binding.text := by
  obtain ⟨role, _⟩ := binding
  obtain ⟨depth, rfl⟩ := h
  have hr := role.word
  refine ⟨hr.wordy.append ?_, fun he => hr.ne_empty (String.append_eq_empty_iff.1 he).1⟩
  split
  next => exact fun _ hc => nomatch hc
  next => exact wordy_repr depth

theorem Access.closed_tagged {access : Access} {tag : Tag} (h : Spells access.text access.items)
    (ht : tag.Worded) : Closed (tagged access tag).text (tagged access tag).items := by
  have hs : (tagged access tag).text = access.text ++ ("[" ++ tag.text ++ "]") := by
    rw [text, String.append_assoc, String.append_assoc, String.append_assoc]
  rw [hs]
  exact h.append_closed (Tag.closed_brackets ht) (apart_square _)

theorem Access.spells {access : Access} (h : access.Worded .strict) :
    Spells access.text access.items := by
  induction access with
  | given text => cases h
  | field name => exact spells_word (Access.word_field h)
  | bound binding => exact spells_word (Binding.word h)
  | tagged access tag ih => exact (closed_tagged (ih h.1) h.2).spells

theorem after?_append (beginning text : String) :
    after? beginning (beginning ++ text) = some text := by
  unfold after?
  rw [String.toList_append, List.dropPrefix?_append_of_beq _ (beq_self_eq_true _)]
  simp

theorem before?_append (text ending : String) : before? ending (text ++ ending) = some text := by
  unfold before?
  have hs : (text ++ ending).toList.dropSuffix? ending.toList = some text.toList :=
    List.dropSuffix?_eq_some_iff.2 ⟨ending.toList, String.toList_append, beq_self_eq_true _⟩
  rw [hs]
  simp

theorem namedAccess?_field {name : String} (h : isIdentifier name.toList) :
    namedAccess? ("input." ++ name) = some (.field name) := by
  have hn : '.' ∉ name.toList := by
    intro hm
    have hw := isWordChar_of_isIdentifier h '.' hm
    revert hw
    decide
  unfold namedAccess?
  rw [after?_append]
  simp [hn]

theorem namedAccess?_bound {binding : Binding} (h : ∃ depth : Nat, binding.depth = depth) :
    namedAccess? binding.text = some (.bound binding) := by
  obtain ⟨role, _⟩ := binding
  obtain ⟨depth, rfl⟩ := h
  have ha : after? "input." (Binding.mk role depth).text = none := by
    unfold after?
    rw [Binding.toList_text]
    cases role <;> simp [Role.name, List.dropPrefix?]
  unfold namedAccess?
  rw [ha]
  simp [Binding.ofName?_text]

theorem readAccess_items {access : Access} (h : access.Worded .strict) (rest : List Item) :
    readAccess (access.items ++ rest) = some (readTags access rest) := by
  induction access generalizing rest with
  | given text => cases h
  | field name =>
    change (namedAccess? ("input." ++ name)).map _ = _
    rw [namedAccess?_field h]
    rfl
  | bound binding =>
    change (namedAccess? binding.text).map _ = _
    rw [namedAccess?_bound h]
    rfl
  | tagged access tag ih =>
    rw [Access.items, List.append_assoc, ih h.1]
    cases tag with
    | fullName className =>
      simp [Tag.content, readTags, before?_append]
    | literal text => simp [Tag.content, readTags]

theorem Access.exists_items (access : Access) : ∃ (name : String) (tags : List Tag),
    access.items = .word name :: tags.map fun tag => .group tag.content := by
  induction access with
  | given text => exact ⟨text, [], rfl⟩
  | field name => exact ⟨_, [], rfl⟩
  | bound binding => exact ⟨_, [], rfl⟩
  | tagged access tag ih =>
    obtain ⟨name, tags, he⟩ := ih
    exact ⟨name, tags ++ [tag], by simp [items, he]⟩

theorem Access.rounded_items {access : Access} (h : access.Worded .strict) :
    rounded access.items = .value access := by
  have hr := readAccess_items h []
  obtain ⟨name, tags, he⟩ := access.exists_items
  rw [List.append_nil, he] at hr
  rw [he]
  cases tags <;> simp_all [rounded, readTags]

def Test.items (access : Access) : Test → List Item
  | isNull => access.items ++ [Item.mark "===", .word "null"]
  | isNullOrUndefined => access.items ++ [Item.mark "==", .word "null"]
  | isDefined => access.items ++ [Item.mark "!==", .word "undefined"]
  | hasType name => Item.word "typeof" :: access.items ++ [Item.mark "===", .quoted name]
  | isInteger => [.word "Number.isInteger", .group (.value access)]
  | isBuffer => [.word "Buffer.isBuffer", .group (.value access)]
  | isArray => [.word "Array.isArray", .group (.value access)]
  | isInstance className => access.items ++ [Item.word "instanceof", .word className]
  | isOneOf symbols => Item.word "typeof" :: access.items ++ [Item.mark "===", .quoted "string",
      .mark "&&", .group (.texts symbols), .word ".indexOf", .group (.value access), .mark ">=",
      .word "0"]
  | isPlainObject => Item.word "typeof" :: access.items ++
      [Item.mark "===", .quoted "object", .mark "&&"] ++
      access.items ++ [Item.mark "!==", .word "null", .mark "&&", .word "Object.getPrototypeOf",
        .group (.value access), .mark "===", .word "Object.prototype"]

theorem rounded_comparison {access : Access} (h : access.Worded .strict) {rest : List Item}
    {test : Test} (ht : readComparison rest = some test) :
    rounded (access.items ++ rest) = .condition access test := by
  obtain ⟨name, tags, he⟩ := access.exists_items
  have hr := readAccess_items h rest
  rw [he] at hr ⊢
  unfold readComparison at ht
  split at ht <;> cases ht <;> cases tags <;>
    simp_all [rounded, readTest, readTags, readComparison]

theorem rounded_function {name : String} {test : Test} (h : functionTest? name = some test)
    (access : Access) : rounded [.word name, .group (.value access)] = .condition access test := by
  have hn : namedAccess? name = none := by
    unfold functionTest? at h
    split at h
    next he => rw [he]; decide
    split at h
    next he => rw [he]; decide
    split at h
    next he => rw [he]; decide
    next => cases h
  simp [rounded, readTest, readAccess, hn, h]

theorem rounded_typeof {access : Access} (h : access.Worded .strict) {rest : List Item} {test : Test}
    (hr : readTags access rest = (access, rest)) (ht : readTypeTest access rest = some test) :
    rounded (Item.word "typeof" :: access.items ++ rest) = .condition access test := by
  have ha := readAccess_items h rest
  have hw (items : List Item) : readAccess (.word "typeof" :: items) = none := by
    have hn : namedAccess? "typeof" = none := by decide
    rw [readAccess, hn]
    rfl
  obtain ⟨name, tags, he⟩ := access.exists_items
  rw [he] at ha ⊢
  simp_all [rounded, readTest]

theorem Test.rounded_items {access : Access} (ha : access.Worded .strict) (test : Test) :
    rounded (test.items access) = .condition access test := by
  cases test with
  | isNull => exact rounded_comparison ha rfl
  | isNullOrUndefined => exact rounded_comparison ha rfl
  | isDefined => exact rounded_comparison ha rfl
  | isInstance className => exact rounded_comparison ha rfl
  | isInteger => exact rounded_function rfl access
  | isBuffer => exact rounded_function rfl access
  | isArray => exact rounded_function rfl access
  | hasType name => exact rounded_typeof ha rfl rfl
  | isOneOf symbols => exact rounded_typeof ha rfl (if_pos rfl)
  | isPlainObject =>
    let last : List Item := [.mark "!==", .word "null", .mark "&&",
      .word "Object.getPrototypeOf", .group (.value access), .mark "===", .word "Object.prototype"]
    have hr : readAccess (access.items ++ last) = some (access, last) := readAccess_items ha last
    have ht : readTypeTest access
        ([Item.mark "===", .quoted "object", .mark "&&"] ++ (access.items ++ last)) =
          some .isPlainObject := by
      simp [readTypeTest, hr, last]
    rw [Test.items, List.append_assoc, List.append_assoc]
    exact rounded_typeof ha rfl ht

theorem closed_argument {access : Access} (h : access.Worded .strict) :
    Closed ("(" ++ access.text ++ ")") [.group (.value access)] := by
  have hs := (Access.spells h).round
  rwa [Access.rounded_items h] at hs

theorem exists_spells_symbols {symbols : List String} (h : ∀ symbol ∈ symbols, Wordy symbol) :
    ∃ xs, Spells (", ".intercalate (symbols.map fun symbol => "'" ++ symbol ++ "'")) xs ∧
      square xs = .texts symbols ∧ readTexts xs = some symbols := by
  induction symbols with
  | nil => exact ⟨[], closed_empty.spells, rfl, rfl⟩
  | cons first rest ih =>
    obtain ⟨hf, hr⟩ := List.forall_mem_cons.1 h
    have hq := closed_quoted hf
    cases rest with
    | nil => exact ⟨[.quoted first], hq.spells, rfl, rfl⟩
    | cons second rest =>
      obtain ⟨xs, hx, -, ht⟩ := ih hr
      have hc : Closed ", " [.mark ","] := fun _ _ => rfl
      refine ⟨.quoted first :: .mark "," :: xs, ?_, ?_, ?_⟩
      · rw [List.map_cons, List.map_cons, String.intercalate_cons_cons]
        exact (hq.append hc).append_spells hx
      · simp [square, readTexts, ht]
      · simp [readTexts, ht]

theorem closed_symbols {symbols : List String} (h : ∀ symbol ∈ symbols, Wordy symbol) :
    Closed ("[" ++ ", ".intercalate (symbols.map fun symbol => "'" ++ symbol ++ "'") ++ "]")
      [.group (.texts symbols)] := by
  obtain ⟨xs, hx, hs, -⟩ := exists_spells_symbols h
  have hc := hx.square
  rwa [hs] at hc

theorem spells_function {access : Access} (h : access.Worded .strict) {name : String}
    (hn : Word name) :
    Spells (name ++ "(" ++ access.text ++ ")") [.word name, .group (.value access)] := by
  have hs := (spells_word hn).append_closed (closed_argument h) (apart_round _)
  rw [← String.append_assoc, ← String.append_assoc] at hs
  exact hs.spells

theorem spells_typeof {access : Access} (h : access.Worded .strict) :
    Spells ("typeof " ++ access.text) (.word "typeof" :: access.items) := by
  have ht : Closed "typeof " [.word "typeof"] := fun _ _ => rfl
  exact ht.append_spells (Access.spells h)

theorem Test.spells_hasType {access : Access} (ha : access.Worded .strict) {name : String}
    (h : Wordy name) :
    Spells ((hasType name).text access.text) ((hasType name).items access) := by
  have he : Closed " === " [.mark "==="] := fun _ _ => rfl
  have hs := ((spells_typeof ha).append_closed he rfl).append (closed_quoted h)
  have hl : " === '" = " === " ++ "'" := rfl
  have ht : (hasType name).text access.text =
      "typeof " ++ access.text ++ " === '" ++ name ++ "'" := rfl
  rw [ht, hl]
  simpa only [items, List.append_assoc, String.append_assoc, List.cons_append, List.nil_append]
    using hs.spells

theorem Test.spells_isOneOf {access : Access} (ha : access.Worded .strict) {symbols : List String}
    (h : ∀ symbol ∈ symbols, Wordy symbol) :
    Spells ((isOneOf symbols).text access.text) ((isOneOf symbols).items access) := by
  have he : Closed " === 'string' && " [.mark "===", .quoted "string", .mark "&&"] :=
    fun _ _ => rfl
  have hn : Spells ".indexOf" [.word ".indexOf"] := .of_word fun _ _ => rfl
  have hl : Spells " >= 0" [.mark ">=", .word "0"] := .of_word fun _ _ => rfl
  have hs := ((((spells_typeof ha).append_closed he rfl).append (closed_symbols h)).append_spells
    hn).append_closed (closed_argument ha) (apart_round _)
  have hx := hs.append_spells hl
  have ho : " === 'string' && [" = " === 'string' && " ++ "[" := rfl
  have hc : "].indexOf(" = "]" ++ ".indexOf" ++ "(" := rfl
  have hf : ") >= 0" = ")" ++ " >= 0" := rfl
  have ht : (isOneOf symbols).text access.text = "typeof " ++ access.text ++
      " === 'string' && [" ++ ", ".intercalate (symbols.map fun symbol => "'" ++ symbol ++ "'") ++
      "].indexOf(" ++ access.text ++ ") >= 0" := rfl
  rw [ht, ho, hc, hf]
  simpa only [items, List.append_assoc, String.append_assoc, List.cons_append, List.nil_append]
    using hx

theorem Test.spells_isPlainObject {access : Access} (ha : access.Worded .strict) :
    Spells (isPlainObject.text access.text) (isPlainObject.items access) := by
  have he : Closed " === 'object' && " [.mark "===", .quoted "object", .mark "&&"] :=
    fun _ _ => rfl
  have hn : Spells " !== null && Object.getPrototypeOf" [.mark "!==", .word "null", .mark "&&",
    .word "Object.getPrototypeOf"] := .of_word fun _ _ => rfl
  have hl : Spells " === Object.prototype" [.mark "===", .word "Object.prototype"] :=
    .of_word fun _ _ => rfl
  have hs := (((spells_typeof ha).append_closed he rfl).append_spells (Access.spells ha)).append
    hn rfl
  have hx := (hs.append_closed (closed_argument ha) (apart_round _)).append_spells hl
  have ho : " !== null && Object.getPrototypeOf(" = " !== null && Object.getPrototypeOf" ++ "(" :=
    rfl
  have hc : ") === Object.prototype" = ")" ++ " === Object.prototype" := rfl
  have ht : isPlainObject.text access.text = "typeof " ++ access.text ++ " === 'object' && " ++
      access.text ++ " !== null && Object.getPrototypeOf(" ++ access.text ++
      ") === Object.prototype" := rfl
  rw [ht, ho, hc]
  simpa only [items, List.append_assoc, String.append_assoc, List.cons_append, List.nil_append]
    using hx

theorem Test.spells {access : Access} (ha : access.Worded .strict) {test : Test}
    (h : test.Worded .strict) :
    Spells (test.text access.text) (test.items access) := by
  have hv := Access.spells ha
  cases test with
  | isNull =>
    have he : Spells " === null" [.mark "===", .word "null"] := .of_word fun _ _ => rfl
    exact hv.append he rfl
  | isNullOrUndefined =>
    have he : Spells " == null" [.mark "==", .word "null"] := .of_word fun _ _ => rfl
    exact hv.append he rfl
  | isDefined =>
    have he : Spells " !== undefined" [.mark "!==", .word "undefined"] :=
      .of_word fun _ _ => rfl
    exact hv.append he rfl
  | isInstance className =>
    have hi : Closed " instanceof " [.word "instanceof"] := fun _ _ => rfl
    have hs := (hv.append_closed hi rfl).append_spells (spells_word h)
    rwa [List.append_assoc] at hs
  | hasType name => exact spells_hasType ha h
  | isInteger =>
    have hn : Word "Number.isInteger" := word_of_isDotted (by decide)
    have ht : isInteger.text access.text = "Number.isInteger" ++ "(" ++ access.text ++ ")" := rfl
    rw [ht]
    exact spells_function ha hn
  | isBuffer =>
    have hn : Word "Buffer.isBuffer" := word_of_isDotted (by decide)
    have ht : isBuffer.text access.text = "Buffer.isBuffer" ++ "(" ++ access.text ++ ")" := rfl
    rw [ht]
    exact spells_function ha hn
  | isArray =>
    have hn : Word "Array.isArray" := word_of_isDotted (by decide)
    have ht : isArray.text access.text = "Array.isArray" ++ "(" ++ access.text ++ ")" := rfl
    rw [ht]
    exact spells_function ha hn
  | isOneOf symbols => exact spells_isOneOf ha h
  | isPlainObject => exact spells_isPlainObject ha

end AvroBindings
