import AvroBindings.Proofs.Script.Expressions

/-! Reading the code of conversions. Where the names in a conversion are identifiers, its text reads
as the conversion itself, but for the types in it. -/

namespace AvroBindings

open Script

mutual
/-- A conversion without the types in it. -/
def Conversion.untyped : Conversion → Conversion
  | .same access => .same access
  | .call className direction access => .call className direction access
  | .elements access element braced body => .elements access element braced body.untyped
  | .entries access depth _ body => .entries access depth .any body.untyped
  | .dispatch direction branches => .dispatch direction (Branch.untypedAll branches)

def Branch.untypedAll : List Branch → List Branch
  | [] => []
  | branch :: rest => branch.untyped :: Branch.untypedAll rest

def Branch.untyped : Branch → Branch
  | .mk access test answer => .mk access test answer.untyped

def Answer.untyped : Answer → Answer
  | .undefined => .undefined
  | .null => .null
  | .value conversion => .value conversion.untyped
  | .wrapped tag conversion => .wrapped tag conversion.untyped
end

def Access.mapItems : Access → List Item
  | given text => [.word (text ++ ".map")]
  | field name => [.word ("input." ++ name ++ ".map")]
  | bound binding => [.word (binding.text ++ ".map")]
  | tagged access tag => (tagged access tag).items ++ [Item.word ".map"]

/-- What a conversion is read from. -/
def Conversion.items : Conversion → List Item
  | .same access => access.items
  | .call className direction access =>
    [.word (className ++ "." ++ direction.method), .group (.value access)]
  | .elements access element braced body =>
    access.mapItems ++ [Item.group (.mapped element braced body.untyped)]
  | .entries access depth _ body =>
    [.group (.function (.entries access depth .any body.untyped)), .group .nothing]
  | .dispatch direction branches =>
    [.group (.function (.dispatch direction (Branch.untypedAll branches))), .group .nothing]

theorem methodOf?_append (className : String) (direction : Direction) :
    methodOf? (className ++ "." ++ direction.method) = some (className, direction) := by
  unfold methodOf?
  cases direction with
  | deserialize =>
    have hs : className ++ "." ++ Direction.deserialize.method = className ++ ".deserialize" :=
      String.append_assoc
    rw [hs, before?_append]
  | serialize =>
    have hs : className ++ "." ++ Direction.serialize.method = className ++ ".serialize" :=
      String.append_assoc
    have hn : before? ".deserialize" (className ++ ".serialize") = none := by
      unfold before?
      rw [Option.map_eq_none_iff, Option.eq_none_iff_forall_ne_some]
      intro start he
      obtain ⟨ending, he, hb⟩ := List.dropSuffix?_eq_some_iff.1 he
      have hr := congrArg List.reverse he
      rw [eq_of_beq hb] at hr
      simp at hr
    rw [hs, hn, before?_append]
    rfl

theorem Access.items_inline (access : Access) : ∀ item ∈ access.items, ¬item.isLine := by
  obtain ⟨name, tags, he⟩ := access.exists_items
  rw [he]
  simp [Item.isLine]

theorem Access.mapItems_inline (access : Access) : ∀ item ∈ access.mapItems, ¬item.isLine := by
  cases access with
  | tagged access tag =>
    exact List.forall_mem_append.2 ⟨(tagged access tag).items_inline, by simp [Item.isLine]⟩
  | _ => simp [mapItems, Item.isLine]

theorem Access.readConversion_map {access : Access} (h : access.Worded .strict) (element : Binding)
    (braced : Bool) (body : Conversion) :
    readConversion (access.mapItems ++ [Item.group (.mapped element braced body)]) =
      some (.elements access element braced body) := by
  cases access with
  | given text => cases h
  | field name =>
    simp [mapItems, readConversion, before?_append, namedAccess?_field h]
  | bound binding =>
    simp [mapItems, readConversion, before?_append, namedAccess?_bound h]
  | tagged access tag =>
    have hr := readAccess_items h [.word ".map", .group (.mapped element braced body)]
    obtain ⟨name, tags, he⟩ := (tagged access tag).exists_items
    rw [mapItems, List.append_assoc]
    rw [he] at hr ⊢
    cases tags <;> simp_all [readConversion, readTags]

/-- A conversion is read back from its items. -/
theorem Conversion.readConversion_items {conversion : Conversion} (h : conversion.Worded .strict) :
    readConversion conversion.items = some conversion.untyped := by
  cases conversion with
  | same access =>
    have hr := readAccess_items (show access.Worded .strict from h) []
    obtain ⟨name, tags, he⟩ := access.exists_items
    rw [List.append_nil, he] at hr
    rw [items, he]
    rcases tags with _ | ⟨tag, _ | ⟨second, rest⟩⟩ <;>
      simp_all [readConversion, readTags, untyped]
    cases tag <;> simp_all [Tag.content]
  | call className direction access =>
    simp [items, readConversion, methodOf?_append, untyped]
  | elements access element braced body =>
    exact Access.readConversion_map h.1 element braced body.untyped
  | entries => rfl
  | dispatch => rfl

/-- No statement goes over the end of a line. -/
def Script.Inline (statements : List (List Item)) : Prop :=
  ∀ statement ∈ statements, ∀ item ∈ statement, ¬item.isLine

theorem Script.curly_block {statements : List (List Item)} (h : Script.Inline statements) :
    curly (block statements) = (readStatements statements).getD .unread := by
  have hs : (statements.flatMap (· ++ [Item.line])).splitOnP Item.isLine = statements ++ [[]] := by
    induction statements with
    | nil => rfl
    | cons statement rest ih =>
      obtain ⟨hf, hr⟩ := List.forall_mem_cons.1 h
      have hf : ∀ item ∈ statement, item.isLine = false := by simpa using hf
      rw [List.flatMap_cons, List.append_assoc, List.singleton_append,
        List.splitOnP_append_cons_of_forall_mem hf _ rfl, ih hr, List.cons_append]
  have hl : (block statements).splitOnP Item.isLine = [] :: (statements ++ [[]]) := by
    rw [block, ← hs]
    exact List.splitOnP_append_cons_of_forall_mem (List.forall_mem_nil _) _ rfl _
  rw [block] at hl
  simp [block, curly, hl, readLines]

theorem Script.curly_return {items : List Item} (h : ∀ item ∈ items, ¬item.isLine)
    (hn : ∀ text rest, items ≠ .mark text :: rest) {content : Content}
    (hr : readReturn (.word "return" :: items) = some content) :
    curly (block [.word "return" :: items]) = content := by
  have hi : Script.Inline [.word "return" :: items] := by
    simpa [Script.Inline, Item.isLine] using h
  have ha : readAssignment (.word "return" :: items) = none := by
    unfold readAssignment
    split
    next he => cases he; exact absurd rfl (hn _ _)
    next => rfl
  have hk : readKept (.word "return" :: items) = none := by
    unfold readKept
    split
    next he => cases he; exact absurd rfl (hn _ _)
    next he => cases he
    next => rfl
  rw [curly_block hi]
  simp [readStatements, ha, hk, readBlock, hr]

theorem Conversion.items_inline (conversion : Conversion) :
    ∀ item ∈ conversion.items, ¬item.isLine := by
  cases conversion with
  | same access => exact access.items_inline
  | elements access element braced body =>
    exact List.forall_mem_append.2 ⟨access.mapItems_inline, by simp [Item.isLine]⟩
  | _ => simp [items, Item.isLine]

theorem Conversion.items_ne_mark (conversion : Conversion) (text : String) (rest : List Item) :
    conversion.items ≠ .mark text :: rest := by
  cases conversion with
  | same access =>
    obtain ⟨name, tags, he⟩ := access.exists_items
    simp [items, he]
  | elements access element braced body =>
    cases access with
    | tagged access tag =>
      obtain ⟨name, tags, he⟩ := (access.tagged tag).exists_items
      simp [items, Access.mapItems, he]
    | _ => simp [items, Access.mapItems]
  | _ => simp [items]

def Tag.keyItem : Tag → Item
  | fullName className => .group (.name (className ++ ".FQN"))
  | literal text => .quoted text

theorem Tag.closed_key {tag : Tag} (h : tag.Worded) : Closed tag.key [tag.keyItem] := by
  cases tag with
  | fullName className => exact @Tag.closed_brackets (fullName className) h
  | literal text => exact closed_quoted h

theorem Tag.readKey_keyItem (tag : Tag) : readKey tag.keyItem = some tag := by
  cases tag with
  | fullName className => simp [keyItem, readKey, before?_append]
  | literal text => rfl

def Answer.items : Answer → List Item
  | .undefined => [.word "undefined"]
  | .null => [.word "null"]
  | .value conversion => conversion.items
  | .wrapped tag conversion => [.group (.wrapped tag conversion.untyped)]

theorem Answer.items_inline (answer : Answer) : ∀ item ∈ answer.items, ¬item.isLine := by
  cases answer with
  | value conversion => exact conversion.items_inline
  | _ => simp [items, Item.isLine]

theorem Answer.items_ne_mark (answer : Answer) (text : String) (rest : List Item) :
    answer.items ≠ .mark text :: rest := by
  cases answer with
  | value conversion => exact conversion.items_ne_mark text rest
  | _ => simp [items]

theorem Answer.readReturn_items {answer : Answer} (h : answer.Worded .strict) :
    readReturn (.word "return" :: answer.items) = some (.answer answer.untyped) := by
  cases answer with
  | undefined =>
    have hn : namedAccess? "undefined" = none := by decide
    simp [items, readReturn, readConversion, readAccess, hn, untyped]
  | null =>
    have hn : namedAccess? "null" = none := by decide
    simp [items, readReturn, readConversion, readAccess, hn, untyped]
  | value conversion =>
    have hc := Conversion.readConversion_items (show conversion.Worded .strict from h)
    simp [items, readReturn, hc, untyped]
  | wrapped tag conversion => rfl

theorem Answer.curly_items {answer : Answer} (h : answer.Worded .strict) :
    curly (block [.word "return" :: answer.items]) = .answer answer.untyped :=
  curly_return answer.items_inline answer.items_ne_mark (readReturn_items h)

theorem closed_wrapped {tag : Tag} (ht : tag.Worded) {conversion : Conversion}
    (hc : conversion.Worded .strict) (hs : Spells conversion.render conversion.items) :
    Closed ("\x7b" ++ (" " ++ tag.key ++ ": " ++ conversion.render ++ " ") ++ "\x7d")
      [.group (.wrapped tag conversion.untyped)] := by
  have hb : Closed " " [] := fun _ _ => rfl
  have hm : Closed ": " [.mark ":"] := fun _ _ => rfl
  have hx := ((((hb.append (Tag.closed_key ht)).append hm).append_spells hs).append_closed hb
    rfl).spells.curly
  have hr : curly (tag.keyItem :: .mark ":" :: conversion.items) =
      .wrapped tag conversion.untyped := by
    have hc := Conversion.readConversion_items hc
    cases tag with
    | fullName className =>
      have hk := Tag.readKey_keyItem (.fullName className)
      simp only [Tag.keyItem] at hk
      simp [Tag.keyItem, curly, hk, hc]
    | literal text => simp [Tag.keyItem, curly, readKey, hc]
  have he : [] ++ [tag.keyItem] ++ [Item.mark ":"] ++ conversion.items ++ [] =
      tag.keyItem :: .mark ":" :: conversion.items := by
    simp
  rwa [he, hr] at hx

theorem closed_selfExecuting {body : String} {xs : List Item} (h : Spells body xs)
    {conversion : Conversion} (hc : curly (block [xs]) = .block conversion) :
    Closed (Layout.selfExecuting body) [.group (.function conversion), .group .nothing] := by
  have ho : Closed "() => " [.group .nothing, .mark "=>"] := fun _ _ => rfl
  have he : Closed "()" [.group .nothing] := fun _ _ => rfl
  have hb := h.braces
  rw [hc] at hb
  have hf := (ho.append hb).spells.round.append he
  have ht : Layout.selfExecuting body = "(" ++ ("() => " ++ Layout.braces body) ++ ")" ++ "()" := by
    have hl : "(() => " = "(" ++ "() => " := rfl
    have hr : ")()" = ")" ++ "()" := rfl
    rw [Layout.selfExecuting, hl, hr]
    simp only [String.append_assoc]
  rw [ht]
  exact hf

def Branch.itemsAll : List Branch → List Item
  | [] => []
  | .mk access test answer :: rest =>
    [Item.word "if", .group (.condition access test), .group (.answer answer.untyped)] ++
      if rest.isEmpty then [] else .word "else" :: Branch.itemsAll rest

theorem Branch.itemsAll_inline (branches : List Branch) :
    ∀ item ∈ itemsAll branches, ¬item.isLine := by
  induction branches with
  | nil => simp [itemsAll]
  | cons branch rest ih =>
    obtain ⟨access, test, answer⟩ := branch
    rw [itemsAll]
    refine List.forall_mem_append.2 ⟨by simp [Item.isLine], ?_⟩
    split
    next => exact List.forall_mem_nil _
    next => exact List.forall_mem_cons.2 ⟨by simp [Item.isLine], ih⟩

theorem Branch.readBranches_itemsAll (branches : List Branch) :
    readBranches (itemsAll branches) = some (untypedAll branches) := by
  have hc : branches ≠ [] → readChain (itemsAll branches) = some (untypedAll branches) := by
    intro hn
    induction branches with
    | nil => exact absurd rfl hn
    | cons branch rest ih =>
      obtain ⟨access, test, answer⟩ := branch
      cases rest with
      | nil => rfl
      | cons second rest => simp [itemsAll, readChain, ih, untypedAll, untyped]
  cases branches with
  | nil => rfl
  | cons branch rest =>
    obtain ⟨access, test, answer⟩ := branch
    exact hc (List.cons_ne_nil _ _)

theorem Branch.closed_clause {access : Access} (ha : access.Worded .strict) {test : Test}
    (ht : test.Worded .strict) {answer : Answer} (hc : answer.Worded .strict)
    (hs : Spells answer.render (.word "return" :: answer.items)) :
    Closed (clause (test.text access.text, answer.render))
      [.word "if", .group (.condition access test), .group (.answer answer.untyped)] := by
  have hi : Closed "if " [.word "if"] := fun _ _ => rfl
  have hb : Closed " " [] := fun _ _ => rfl
  have hg := (Test.spells ha ht).round
  have hx := hs.braces
  rw [Test.rounded_items ha] at hg
  rw [Answer.curly_items hc] at hx
  have he : clause (test.text access.text, answer.render) = "if " ++
      ("(" ++ test.text access.text ++ ")") ++ " " ++ Layout.braces answer.render := by
    have hl : "if (" = "if " ++ "(" := rfl
    have hr : ") " = ")" ++ " " := rfl
    rw [clause, hl, hr]
    simp only [String.append_assoc]
  rw [he]
  exact ((hi.append hg).append hb).append hx

theorem Branch.curly_itemsAll (direction : Direction) (branches : List Branch) :
    curly (block [itemsAll branches, [.word "throw", .word "new", .word "TypeError",
      .group (.message direction.failure)]]) =
      .block (.dispatch direction (untypedAll branches)) := by
  let thrown : List Item :=
    [.word "throw", .word "new", .word "TypeError", .group (.message direction.failure)]
  have hi : Script.Inline [itemsAll branches, thrown] := by
    refine List.forall_mem_cons.2 ⟨itemsAll_inline branches, ?_⟩
    simp [thrown, Item.isLine]
  have hf : failing? direction.failure = some direction := by
    cases direction <;> rfl
  have hd : readDispatch (itemsAll branches) direction.failure =
      some (.dispatch direction (untypedAll branches)) := by
    simp [readDispatch, hf, readBranches_itemsAll]
  have hs : readStatements [itemsAll branches, thrown] =
      some (.block (.dispatch direction (untypedAll branches))) := by
    have ha : readAssignment (itemsAll branches) = none := by
      rcases branches with _ | ⟨⟨access, test, answer⟩, rest⟩ <;> rfl
    have hk : readKept (itemsAll branches) = none := by
      rcases branches with _ | ⟨⟨access, test, answer⟩, rest⟩ <;> rfl
    simp [readStatements, ha, hk, readBlock, thrown, readThrow, hd]
  exact (curly_block hi).trans (by rw [hs]; rfl)

theorem closed_dispatch (direction : Direction) {branches : List Branch}
    (hs : Spells (Layout.conditional (Branch.renderAll branches)) (Branch.itemsAll branches)) :
    Closed (Conversion.dispatch direction branches).render
      (Conversion.dispatch direction branches).items := by
  have ht : Closed ("\nthrow new TypeError('" ++ direction.failure ++ "')") [.line, .word "throw",
      .word "new", .word "TypeError", .group (.message direction.failure)] := by
    cases direction <;> exact fun _ _ => rfl
  have ha : Apart ("\nthrow new TypeError('" ++ direction.failure ++ "')") :=
    ((show Apart "\nthrow new TypeError('" from rfl).append _).append _
  have hb := hs.append_closed ht ha
  rw [← String.append_assoc, ← String.append_assoc] at hb
  have hc := Branch.curly_itemsAll direction branches
  rw [← block_lines] at hc
  exact closed_selfExecuting hb.spells hc

theorem Access.spells_map {access : Access} (h : access.Worded .strict) :
    Spells (access.text ++ ".map") access.mapItems := by
  have hw : Wordy ".map" := wordy_of_all (by decide)
  have hn : ".map" ≠ "" := by decide
  cases access with
  | given text => cases h
  | field name => exact spells_word (Wordy.member (Access.word_field h).wordy hw hn)
  | bound binding => exact spells_word (Wordy.member (Binding.word h).wordy hw hn)
  | tagged access tag =>
    have hm : Spells ".map" [.word ".map"] := .of_word fun _ _ => rfl
    exact (closed_tagged (Access.spells h.1) h.2).append_spells hm

theorem Binding.ofName?_of_natural {binding : Binding} (h : ∃ depth : Nat, binding.depth = depth) :
    ofName? binding.text = some binding := by
  obtain ⟨role, _⟩ := binding
  obtain ⟨depth, rfl⟩ := h
  exact ofName?_text role depth

theorem rounded_mapped {element : Binding} (he : ∃ depth : Nat, element.depth = depth)
    {body : Conversion} (hb : body.Worded .strict) : rounded (.group (.parameter element.text) ::
      .mark "=>" :: body.items) = .mapped element false body.untyped := by
  have hr := Conversion.readConversion_items hb
  have hm : readMapped element.text body.items = some (.mapped element false body.untyped) := by
    simp only [readMapped, Binding.ofName?_of_natural he, Option.bind_eq_bind, Option.bind_some]
    split
    next he =>
      rw [he] at hr
      cases hr
    next => rw [hr]; rfl
  simp [rounded, hm]

theorem rounded_mapped_braces {element : Binding} (he : ∃ depth : Nat, element.depth = depth)
    (body : Conversion) : rounded [.group (.parameter element.text), .mark "=>",
      .group (.answer (.value body))] = .mapped element true body := by
  simp [rounded, readMapped, Binding.ofName?_of_natural he]

theorem closed_mapped {element : Binding} (he : ∃ depth : Nat, element.depth = depth)
    {body : Conversion} (hb : body.Worded .strict) (hs : Spells body.render body.items)
    (braced : Bool) :
    Closed ("(" ++ ("(" ++ (element.text ++ ": any") ++ ")" ++ " => " ++
        (if braced then Layout.braces ("return " ++ body.render) else body.render)) ++ ")")
      [.group (.mapped element braced body.untyped)] := by
  have hm : Spells ": any" [.mark ":", .word "any"] := .of_word fun _ _ => rfl
  have ha : Closed " => " [.mark "=>"] := fun _ _ => rfl
  have hp := ((spells_word (Binding.word he)).append hm rfl).round.append ha
  cases braced with
  | false =>
    have hx := (hp.append_spells hs).round
    exact rounded_mapped he hb ▸ hx
  | true =>
    have hr : Closed "return " [.word "return"] := fun _ _ => rfl
    have hc := Answer.curly_items (show (Answer.value body).Worded .strict from hb)
    have hx := (hr.append_spells hs).braces.of_group hc
    have hy := (hp.append hx).spells.round
    exact rounded_mapped_braces he body.untyped ▸ hy

theorem closed_elements {access : Access} (ha : access.Worded .strict) {element : Binding}
    (he : ∃ depth : Nat, element.depth = depth) {body : Conversion} (hb : body.Worded .strict)
    (hs : Spells body.render body.items) (braced : Bool) :
    Closed (Conversion.elements access element braced body).render
      (Conversion.elements access element braced body).items := by
  have hx := (Access.spells_map ha).append_closed (closed_mapped he hb hs braced) (apart_round _)
  have ht : (Conversion.elements access element braced body).render = access.text ++ ".map((" ++
      element.text ++ ": any) => " ++
      (if braced then Layout.braces ("return " ++ body.render) else body.render) ++ ")" := rfl
  have hl : ".map((" = ".map" ++ "(" ++ "(" := rfl
  have hr : ": any) => " = ": any" ++ ")" ++ " => " := rfl
  rw [ht, hl, hr]
  simp only [String.append_assoc] at hx ⊢
  exact hx

theorem before?_eq_none {text : String} (h : '.' ∉ text.toList) : before? ".FQN" text = none := by
  unfold before?
  rw [Option.map_eq_none_iff, Option.eq_none_iff_forall_ne_some]
  intro start he
  obtain ⟨ending, he, hb⟩ := List.dropSuffix?_eq_some_iff.1 he
  rw [he, eq_of_beq hb] at h
  simp at h

theorem Binding.notMem_dot (role : Role) (depth : Nat) : '.' ∉ (mk role depth).text.toList := by
  rw [toList_text, List.mem_append, not_or]
  refine ⟨by cases role <;> decide, ?_⟩
  unfold suffix
  split
  next => exact List.not_mem_nil
  next =>
    intro hm
    have hd := Nat.isDigit_of_mem_toDigits (by decide) (by decide) hm
    revert hd
    decide

section Entries

variable {access : Access} {depth : Nat} {body : Conversion}

theorem spells_local (role : Role) (depth : Nat) :
    Spells (Binding.mk role depth).text [.word (Binding.mk role depth).text] :=
  spells_word (Binding.word ⟨depth, rfl⟩)

def entryItems (access : Access) (depth : Int) (body : Conversion) : List (List Item) :=
  let key : Item := .group (.name (Binding.mk .mapKey depth).text)
  [.word "const" :: .word (Binding.mk .mapValue depth).text :: .mark "=" :: (access.items ++ [key]),
    .word (Binding.mk .output depth).text :: key :: .mark "=" :: body.items]

theorem inline_entryItems (access : Access) (depth : Int) (body : Conversion) :
    Script.Inline (entryItems access depth body) := by
  simpa [entryItems, Script.Inline, Item.isLine, or_imp, forall_and] using
    And.intro access.items_inline body.items_inline

theorem curly_entry (ha : access.Worded .strict) (hb : body.Worded .strict) :
    curly (block (entryItems access depth body)) = .entry (Binding.mk .mapValue depth).text access
      (Binding.mk .mapKey depth).text (Binding.mk .output depth).text body.untyped := by
  have hk := before?_eq_none (Binding.notMem_dot .mapKey depth)
  have hl : readLookup (.word "const" :: .word (Binding.mk .mapValue depth).text :: .mark "=" ::
      (access.items ++ [Item.group (.name (Binding.mk .mapKey depth).text)])) =
        some ((Binding.mk .mapValue depth).text, access, (Binding.mk .mapKey depth).text) := by
    simp [readLookup, readAccess_items ha, readTags, hk]
  have hu : readUpdate (.word (Binding.mk .output depth).text ::
      .group (.name (Binding.mk .mapKey depth).text) :: .mark "=" :: body.items) =
        some ((Binding.mk .output depth).text, (Binding.mk .mapKey depth).text, body.untyped) := by
    simp [readUpdate, Conversion.readConversion_items hb]
  rw [curly_block (inline_entryItems access depth body)]
  simp [entryItems, readStatements, readAssignment, readKept, readBlock, readThrow, readEntry, hl,
    hu]

theorem closed_entry (depth : Nat) (ha : access.Worded .strict) (hb : body.Worded .strict)
    (hs : Spells body.render body.items) :
    Closed (Layout.braces ("const " ++ (Binding.mk .mapValue depth).text ++ " = " ++ access.text ++
        "[" ++ (Binding.mk .mapKey depth).text ++ "]\n" ++ (Binding.mk .output depth).text ++ "[" ++
        (Binding.mk .mapKey depth).text ++ "] = " ++ body.render))
      [.group (.entry (Binding.mk .mapValue depth).text access (Binding.mk .mapKey depth).text
        (Binding.mk .output depth).text body.untyped)] := by
  have hc : Closed "const " [.word "const"] := fun _ _ => rfl
  have he : Closed " = " [.mark "="] := fun _ _ => rfl
  have hl : Closed "\n" [.line] := fun _ _ => rfl
  have hk := (spells_local .mapKey depth).square
  have ho := apart_square (Binding.mk .mapKey depth).text
  have hlookup := (((hc.append_spells (spells_local .mapValue depth)).append_closed he
    rfl).append_spells (Access.spells ha)).append_closed hk ho
  have hupdate := (((spells_local .output depth).append_closed hk ho).append he).append_spells hs
  have hg := @curly_entry access depth body ha hb
  rw [entryItems, ← block_lines] at hg
  have hx := (hlookup.append_spells (hl.append_spells hupdate)).braces.of_group hg
  -- pieces end with the brackets around them, and not with a line
  have hr : "]\n" = "]" ++ "\n" := rfl
  have hw : "] = " = "]" ++ " = " := rfl
  rw [hr, hw]
  simp only [String.append_assoc] at hx ⊢
  exact hx

def entriesItems (access : Access) (depth : Int) (type : List Item) (body : Conversion) :
    List (List Item) :=
  let keys := (Binding.mk .keys depth).text
  let output := (Binding.mk .output depth).text
  let key := (Binding.mk .mapKey depth).text
  [[.word "const", .word keys, .mark "=", .word "Object.keys", .group (.value access)],
    .word "const" :: .word output :: .mark ":" :: (type ++ [Item.mark "=", .group .nothing]),
    [.word "for", .group (.each key keys),
      .group (.entry (Binding.mk .mapValue depth).text access key output body.untyped)],
    [.word "return", .word output]]

theorem inline_entriesItems (access : Access) (depth : Int) {type : List Item}
    (ht : ∀ item ∈ type, ¬item.isLine) (body : Conversion) :
    Script.Inline (entriesItems access depth type body) := by
  simpa [entriesItems, Script.Inline, Item.isLine, or_imp, forall_and] using ht

theorem curly_entries (access : Access) (depth : Nat) {type : List Item}
    (ht : ∀ item ∈ type, ¬item.isLine) (body : Conversion) :
    curly (block (entriesItems access depth type body)) =
      .block (.entries access depth .any body.untyped) := by
  have hn : readNew (.word "const" :: .word (Binding.mk .output depth).text :: .mark ":" ::
      (type ++ [Item.mark "=", .group .nothing])) = some (Binding.mk .output depth).text := by
    simp [readNew]
  rw [curly_block (inline_entriesItems access depth ht body)]
  simp [entriesItems, readStatements, readAssignment, readKept, readBlock, readKeys, readEntries, hn,
    Binding.ofName?_text]

theorem closed_keys (ha : access.Worded .strict) (depth : Nat) :
    Closed ("const " ++ (Binding.mk .keys depth).text ++ " = Object.keys(" ++ access.text ++ ")")
      [.word "const", .word (Binding.mk .keys depth).text, .mark "=", .word "Object.keys",
        .group (.value access)] := by
  have hc : Closed "const " [.word "const"] := fun _ _ => rfl
  have hk : Spells " = Object.keys" [.mark "=", .word "Object.keys"] :=
    .of_word fun _ _ => rfl
  have hl : " = Object.keys(" = " = Object.keys" ++ "(" := rfl
  have hx := ((hc.append_spells (spells_local .keys depth)).append hk rfl).append_closed
    (closed_argument ha) (apart_round _)
  rw [hl]
  simp only [String.append_assoc] at hx ⊢
  exact hx

theorem closed_new {type : TypeExpr} {types : List Item} (h : Spells type.render types)
    (depth : Nat) :
    Closed ("const " ++ (Binding.mk .output depth).text ++ ": " ++ type.render ++ " = \x7b\x7d")
      (.word "const" :: .word (Binding.mk .output depth).text :: .mark ":" ::
        (types ++ [Item.mark "=", .group .nothing])) := by
  have hc : Closed "const " [.word "const"] := fun _ _ => rfl
  have hm : Closed ": " [.mark ":"] := fun _ _ => rfl
  have hn : Closed " = \x7b\x7d" [.mark "=", .group .nothing] := fun _ _ => rfl
  exact (((hc.append_spells (spells_local .output depth)).append_closed hm
    rfl).append_spells h).append_closed hn rfl

theorem closed_loop {entry : String} {content : Content}
    (h : Closed (Layout.braces entry) [.group content]) (depth : Nat) :
    Closed ("for (const " ++ (Binding.mk .mapKey depth).text ++ " of " ++
        (Binding.mk .keys depth).text ++ ") " ++ Layout.braces entry)
      [.word "for", .group (.each (Binding.mk .mapKey depth).text (Binding.mk .keys depth).text),
        .group content] := by
  have hc : Closed "const " [.word "const"] := fun _ _ => rfl
  have hf : Closed "for " [.word "for"] := fun _ _ => rfl
  have ho : Closed " of " [.word "of"] := fun _ _ => rfl
  have he : Closed " " [] := fun _ _ => rfl
  have hg := (((hc.append_spells (spells_local .mapKey depth)).append_closed ho
    rfl).append_spells (spells_local .keys depth)).round
  have hl : "for (const " = "for " ++ "(" ++ "const " := rfl
  have hr : ") " = ")" ++ " " := rfl
  have hx := ((hf.append hg).append he).append h
  rw [hl, hr]
  simp only [String.append_assoc] at hx ⊢
  exact hx

theorem closed_entries (ha : access.Worded .strict) {type : TypeExpr} (ht : type.Worded)
    (hb : body.Worded .strict) (hs : Spells body.render body.items) :
    Closed (Conversion.entries access depth type body).render
      (Conversion.entries access depth type body).items := by
  obtain ⟨types, htype, hi⟩ := type.spans ht
  have hl : Closed "\n" [.line] := fun _ _ => rfl
  have hr : Closed "return " [.word "return"] := fun _ _ => rfl
  have hloop := closed_loop (closed_entry depth ha hb hs) depth
  have hx := (((((closed_keys ha depth).append hl).append ((closed_new htype depth).append
    hl)).append hloop).append hl).append_spells (hr.append_spells (spells_local .output depth))
  have hcurly : Closed _ (Conversion.entries access depth type body).items :=
    closed_selfExecuting hx (by
      rw [← curly_entries access depth hi body]
      simp [block, entriesItems])
  have hkeys : ")\n" = ")" ++ "\n" := rfl
  have hnew : " = \x7b\x7d\n" = " = \x7b\x7d" ++ "\n" := rfl
  have hreturn : "\nreturn " = "\n" ++ "return " := rfl
  rw [Conversion.render, hkeys, hnew, hreturn]
  simp only [String.append_assoc] at hcurly ⊢
  exact hcurly

end Entries

theorem Direction.word_method (direction : Direction) {className : String} (h : Wordy className) :
    Word (className ++ "." ++ direction.method) := by
  rw [String.append_assoc]
  cases direction <;> exact Wordy.member h (wordy_of_all (by decide)) (by decide)

mutual
/-- The text of a conversion is scanned as the items that the conversion is read from. -/
theorem Conversion.spells (conversion : Conversion) (h : conversion.Worded .strict) :
    Spells conversion.render conversion.items := by
  cases conversion with
  | same access => exact Access.spells h
  | call className direction access => exact spells_function h.2 (direction.word_method h.1)
  | elements access element braced body =>
    obtain ⟨ha, he, hb⟩ := h
    exact (closed_elements ha he hb (body.spells hb) braced).spells
  | entries access depth type body =>
    obtain ⟨ha, ⟨depth, rfl⟩, ht, hb⟩ := h
    exact (closed_entries ha ht hb (body.spells hb)).spells
  | dispatch direction branches =>
    exact (closed_dispatch direction (Branch.spells_conditional branches h)).spells

theorem Branch.spells_conditional (branches : List Branch) (h : Branch.WordedAll .strict branches) :
    Spells (Layout.conditional (Branch.renderAll branches)) (Branch.itemsAll branches) := by
  cases branches with
  | nil => exact closed_empty.spells
  | cons branch rest =>
    obtain ⟨hb, hr⟩ := h
    cases branch with
    | mk access test answer =>
      have hc := Branch.closed_clause hb.1 hb.2.1 hb.2.2 (answer.spells hb.2.2)
      have ho := Branch.spells_conditional rest hr
      rw [Branch.conditional_eq] at ho ⊢
      cases rest with
      | nil =>
        rw [Branch.itemsAll, if_pos (by rfl), List.append_nil]
        exact hc.spells
      | cons second rest =>
        have he : Closed " else " [.word "else"] := fun _ _ => rfl
        have hx := (hc.append he).append_spells ho
        rw [List.append_assoc] at hx
        rw [Branch.renderAll, Branch.renderAll, List.map_cons, List.map_cons,
          String.intercalate_cons_cons]
        exact hx

theorem Answer.spells (answer : Answer) (h : answer.Worded .strict) :
    Spells answer.render (.word "return" :: answer.items) := by
  have hr : Closed "return " [.word "return"] := fun _ _ => rfl
  cases answer with
  | undefined => exact .of_word fun _ _ => rfl
  | null => exact .of_word fun _ _ => rfl
  | value conversion => exact hr.append_spells (conversion.spells h)
  | wrapped tag conversion =>
    obtain ⟨ht, hc⟩ := h
    have hx := (hr.append (closed_wrapped ht hc (conversion.spells hc))).spells
    have ho : "return \x7b " = "return " ++ "\x7b" ++ " " := rfl
    have he : " \x7d" = " " ++ "\x7d" := rfl
    rw [Answer.render, ho, he]
    simp only [String.append_assoc] at hx ⊢
    exact hx
end

end AvroBindings
