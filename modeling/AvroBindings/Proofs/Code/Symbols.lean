import AvroBindings.Proofs.Code.Lines

/-! The symbols of an enum, read back from generated code by its literals in single quotes. A
declaration has a literal for each of them in every style, and so does the test that finds a value
of the enum in a union. -/

namespace AvroBindings

namespace Layout

def Unquoted (text : String) : Prop := '\'' ∉ text.toList

instance (text : String) : Decidable (Unquoted text) := inferInstanceAs (Decidable (_ ∉ _))

def enclosed {α : Type} : List α → List α
  | _ :: inside :: outside :: rest => inside :: enclosed (outside :: rest)
  | _ => []

/-- The contents of the literals in a text. -/
def literals (text : String) : List String :=
  (enclosed (text.toList.splitOn '\'')).map String.ofList

section Literals

variable {text other separator : String} {texts : List String}

theorem Unquoted.append (h : Unquoted text) (ho : Unquoted other) : Unquoted (text ++ other) := by
  unfold Unquoted at *
  rw [String.toList_append]
  exact List.not_mem_append h ho

theorem enclosed_cons {α : Type} (part other : α) (parts : List α) :
    enclosed (part :: parts) = enclosed (other :: parts) := by
  obtain _ | ⟨inside, _ | ⟨outside, rest⟩⟩ := parts <;> rfl

theorem Unquoted.literals_append (h : Unquoted text) (rest : String) :
    literals (text ++ rest) = literals rest := by
  obtain ⟨part, parts, hr⟩ := List.exists_cons_of_ne_nil (List.splitOn_ne_nil '\'' rest.toList)
  unfold literals
  rw [String.toList_append, splitOn_append h, hr, List.modifyHead_cons, enclosed_cons]

theorem literals_quoted (h : Unquoted text) (rest : String) :
    literals ("'" ++ text ++ "'" ++ rest) = text :: literals rest := by
  have hs : ("'" ++ text ++ "'" ++ rest).toList.splitOn '\'' =
      [] :: text.toList :: rest.toList.splitOn '\'' := by
    have he : ("'" ++ text ++ "'" ++ rest).toList =
        [] ++ '\'' :: (text.toList ++ '\'' :: rest.toList) := by simp
    rw [he, List.splitOn_append_cons_self, List.splitOn_append_cons_self,
      List.splitOn_eq_singleton h]
    rfl
  unfold literals
  rw [hs]
  obtain ⟨part, parts, hr⟩ := List.exists_cons_of_ne_nil (List.splitOn_ne_nil '\'' rest.toList)
  rw [hr, enclosed, List.map_cons, String.ofList_toList]

theorem literals_of_unquoted (h : Unquoted text) : literals text = [] := by
  unfold literals
  rw [List.splitOn_eq_singleton h]
  rfl

theorem literals_empty : literals "" = [] := literals_of_unquoted (by decide)

theorem literals_intercalate (hs : Unquoted separator) (h : ∀ text ∈ texts, Unquoted text) :
    literals (separator.intercalate (texts.map fun text => "'" ++ text ++ "'")) = texts := by
  induction texts with
  | nil => exact literals_empty
  | cons first texts ih =>
    obtain ⟨hf, ht⟩ := List.forall_mem_cons.1 h
    cases texts with
    | nil =>
      have hl := literals_quoted hf ""
      rw [String.append_empty, literals_empty] at hl
      rwa [List.map_singleton, String.intercalate_singleton]
    | cons second texts =>
      rw [List.map_cons, List.map_cons, String.intercalate_cons_cons, String.append_assoc,
        literals_quoted hf, hs.literals_append]
      exact congrArg (first :: ·) (ih ht)

end Literals

def bracketed (text : String) : Option (List String) :=
  if text.toList.getLast? = some ']' then
    some (literals (String.ofList (afterLast '[' text.toList.dropLast)))
  else none

theorem bracketed_append {inside : String} (h : '[' ∉ inside.toList) (before : String) :
    bracketed (before ++ "[" ++ inside ++ "]") = some (literals inside) := by
  have he : (before ++ "[" ++ inside ++ "]").toList =
      before.toList ++ '[' :: inside.toList ++ [']'] := by simp
  unfold bracketed
  rw [he, List.getLast?_concat, if_pos rfl, List.dropLast_concat, afterLast, splitLast_append h,
    String.ofList_toList]

def member? (line : List Char) : Option (String × String) :=
  let name := String.ofList (line.takeWhile isNameChar)
  match literals (String.ofList line) with
  | [value] =>
    if String.ofList line = name ++ " = '" ++ value ++ "'," then some (name, value) else none
  | _ => none

def members (text : String) : List (String × String) := listing 2 member? (lines text.toList)

end Layout

open Layout

theorem Wordy.unquoted {text : String} (h : Wordy text) : Unquoted text := by
  intro hm
  obtain hw | he := h _ hm
  · exact absurd hw (by decide)
  · exact absurd he (by decide)

namespace Declaration

variable {name : String} {symbols : List String}

def member (symbol : String) : String := symbol ++ " = '" ++ symbol ++ "',"

theorem literals_member {symbol : String} (h : Word symbol) (rest : String) :
    literals (member symbol ++ rest) = symbol :: literals rest := by
  have he : member symbol ++ rest = (symbol ++ " = ") ++ ("'" ++ symbol ++ "'" ++ ("," ++ rest)) := by
    have hb : " = '" = " = " ++ "'" := rfl
    have ha : "'," = "'" ++ "," := rfl
    simp only [member, hb, ha, String.append_assoc]
  have hc : Unquoted "," := by decide
  rw [he, (h.wordy.unquoted.append (by decide)).literals_append, literals_quoted h.wordy.unquoted,
    hc.literals_append]

theorem literals_members (h : ∀ symbol ∈ symbols, Word symbol) (rest : String) :
    literals (ClassDeclaration.lineEach (fun symbol => "  " ++ member symbol) symbols ++ rest) =
      symbols ++ literals rest := by
  unfold ClassDeclaration.lineEach
  induction symbols with
  | nil => exact congrArg literals String.empty_append
  | cons symbol symbols ih =>
    obtain ⟨hs, hr⟩ := List.forall_mem_cons.1 h
    have hb : Unquoted "  " := by decide
    have hn : Unquoted "\n" := by decide
    rw [List.map_cons, String.join_cons, String.append_assoc, String.append_assoc,
      String.append_assoc, hb.literals_append, literals_member hs, hn.literals_append, ih hr]
    rfl

theorem member?_member {symbol : String} (h : Word symbol) :
    member? (member symbol).toList = some (symbol, symbol) := by
  have ht : (member symbol).toList.takeWhile isNameChar = symbol.toList := by
    have he : (member symbol).toList = symbol.toList ++ ' ' :: ("= '" ++ symbol ++ "',").toList := by
      simp [member]
    rw [he]
    exact (span_name h.wordy (by decide) _).1
  have hl : literals (member symbol) = [symbol] := by
    have hl := literals_member h ""
    rwa [String.append_empty] at hl
  unfold member?
  rw [String.ofList_toList, ht, String.ofList_toList, hl]
  exact if_pos rfl

def opening (constant : Bool) (name : String) : String :=
  "export " ++ (if constant then "const " else "") ++ "enum " ++ name ++ " \x7b"

theorem render_enumeration (constant : Bool) (name : String) (symbols : List String) :
    (enumeration constant name symbols).render = opening constant name ++ "\n" ++
      (ClassDeclaration.lineEach (fun symbol => "  " ++ member symbol) symbols ++ "\x7d") := by
  have ho : " \x7b\n" = " \x7b" ++ "\n" := rfl
  unfold render opening member
  simp only [ho, String.append_assoc]

theorem render_stringUnion (name : String) (symbols : List String) :
    (stringUnion name symbols).render = "export type " ++ name ++ " = " ++
      " | ".intercalate (symbols.map fun symbol => "'" ++ symbol ++ "'") := rfl

variable (hn : Wordy name) (hs : ∀ symbol ∈ symbols, Word symbol) (constant : Bool)

include hn hs

theorem literals_enumeration : literals (enumeration constant name symbols).render = symbols := by
  have hc : Unquoted ("export " ++ (if constant then "const " else "") ++ "enum ") := by
    cases constant <;> decide
  have ho : Unquoted (opening constant name ++ "\n") :=
    ((hc.append hn.unquoted).append (by decide)).append (by decide)
  have hb : Unquoted "\x7d" := by decide
  rw [render_enumeration, ho.literals_append, literals_members hs, literals_of_unquoted hb,
    List.append_nil]

theorem members_enumeration : members (enumeration constant name symbols).render =
    symbols.map fun symbol => (symbol, symbol) := by
  have ho : Single (opening constant name) := by
    have hc : Single ("export " ++ (if constant then "const " else "") ++ "enum ") := by
      cases constant <;> decide
    exact (hc.append hn.quiet.single).append (by decide)
  have hf : Flush (opening constant name).toList := by
    unfold opening
    simp only [String.append_assoc]
    exact flush_append (by decide) _
  have hm : ∀ symbol ∈ symbols, Single ("  " ++ member symbol) := fun symbol hm =>
    have hq := (hs symbol hm).wordy.quiet.single
    .append (by decide) (((hq.append (by decide)).append hq).append (by decide))
  have hb : Closes "\x7d".toList := rfl
  have he : Single "\x7d" := by decide
  unfold members
  rw [render_enumeration, ho.lines_below, listing_cons_of_none (readAt_of_flush hf (by decide)),
    ClassDeclaration.lines_lineEach hm, listing_append, listing_map, he.lines_eq,
    listing_cons_of_none (readAt_of_flush hb.flush (by decide)), listing_nil, List.append_nil]
  intro symbol hm
  have hw := hs symbol hm
  have hl : Flush (member symbol).toList := by
    unfold member
    simp only [String.append_assoc]
    exact flush_append (flush_of_word hw) _
  have hi : ("  " ++ member symbol).toList = indentLine 2 (member symbol).toList := by
    rw [String.toList_append, hl.indentLine_eq]
    rfl
  rw [hi, readAt_indentLine hl, if_pos rfl]
  exact member?_member hw

theorem literals_stringUnion : literals (stringUnion name symbols).render = symbols := by
  have ho : Unquoted ("export type " ++ name ++ " = ") :=
    .append (.append (by decide) hn.unquoted) (by decide)
  have hb : Unquoted " | " := by decide
  rw [render_stringUnion, ho.literals_append]
  exact literals_intercalate hb fun symbol hm => (hs symbol hm).wordy.unquoted

end Declaration

namespace Test

variable {symbols : List String}

/-- The symbols as literals with commas between them. -/
def listed (symbols : List String) : String :=
  ", ".intercalate (symbols.map fun symbol => "'" ++ symbol ++ "'")

theorem text_isOneOf (symbols : List String) (value : String) :
    (isOneOf symbols).text value = ("typeof " ++ value ++ " === 'string' && ") ++ "[" ++
      listed symbols ++ "]" ++ ".indexOf(" ++ value ++ ") >= 0" := by
  have ho : " === 'string' && [" = " === 'string' && " ++ "[" := rfl
  have hc : "].indexOf(" = "]" ++ ".indexOf(" := rfl
  unfold text listed
  simp only [ho, hc, String.append_assoc]

variable (hs : ∀ symbol ∈ symbols, Word symbol)

include hs

theorem notMem_listed : '[' ∉ (listed symbols).toList := by
  refine Layout.notMem_intercalate (by decide) (List.forall_mem_map.2 fun symbol hm => ?_)
  have hw : '[' ∉ symbol.toList := fun hc => absurd ((hs symbol hm).wordy _ hc) (by decide)
  rw [String.toList_append, String.toList_append]
  exact List.not_mem_append (List.not_mem_append (by decide) hw) (by decide)

theorem bracketed_isOneOf (value : String) :
    ∃ before, (isOneOf symbols).text value = before ++ ".indexOf(" ++ value ++ ") >= 0" ∧
      bracketed before = some symbols := by
  have hc : Unquoted ", " := by decide
  refine ⟨_, text_isOneOf symbols value, ?_⟩
  rw [bracketed_append (notMem_listed hs)]
  exact congrArg some (literals_intercalate hc fun symbol hm => (hs symbol hm).wordy.unquoted)

end Test

/-- The symbols of an enum with identifiers are read back from its declaration in any style, and from
the test that tells a value of the enum. The members of an enum have their own names as values. -/
theorem Enum.symbols_read_back {definition : Enum} {name : String} {symbols : List String}
    (hn : definition.attributes.name = .ok (.str name)) (hi : isIdentifier name.toList)
    (hs : definition.symbols = .ok symbols) (hw : ∀ symbol ∈ symbols, isIdentifier symbol.toList)
    (context : Context) :
    (∃ declaration, Declaration.ofEnum context.options definition = .ok declaration ∧
      literals declaration.render = symbols ∧
      (context.options.effectiveStyle ≠ .stringUnion →
        members declaration.render = symbols.map fun symbol => (symbol, symbol))) ∧
    ∃ test, Test.ofSchema context (.enum definition) = .ok test ∧
      ∀ value, ∃ before, test.text value = before ++ ".indexOf(" ++ value ++ ") >= 0" ∧
        bracketed before = some symbols := by
  have hname := (word_of_isIdentifier hi).wordy
  have hwords : ∀ symbol ∈ symbols, Word symbol :=
    fun symbol hm => word_of_isIdentifier (hw symbol hm)
  constructor
  · unfold Declaration.ofEnum
    rw [hn, Traversal.ok_bind, hs, Traversal.ok_bind]
    cases context.options.effectiveStyle with
    | stringUnion =>
      exact ⟨_, rfl, Declaration.literals_stringUnion hname hwords, fun hne => absurd rfl hne⟩
    | constEnum =>
      exact ⟨_, rfl, Declaration.literals_enumeration hname hwords true,
        fun _ => Declaration.members_enumeration hname hwords true⟩
    | enum =>
      exact ⟨_, rfl, Declaration.literals_enumeration hname hwords false,
        fun _ => Declaration.members_enumeration hname hwords false⟩
  · refine ⟨.isOneOf symbols, ?_, Test.bracketed_isOneOf hwords⟩
    rw [Test.ofSchema, Test.ofDefinition, hs]
    rfl

def suit : Enum := ⟨[("type", .str "enum"), ("name", .str "Suit"),
  ("symbols", .arr [.str "HEARTS", .str "SPADES"])]⟩

theorem Enum.symbols_read_back_suit :
    ∃ declaration,
      Declaration.ofEnum ⟨false, false, .constEnum, false⟩ suit = .ok declaration ∧
      literals declaration.render = ["HEARTS", "SPADES"] ∧
      members declaration.render = [("HEARTS", "HEARTS"), ("SPADES", "SPADES")] := by
  have hw : ∀ symbol ∈ ["HEARTS", "SPADES"], isIdentifier symbol.toList := by decide
  obtain ⟨⟨declaration, hd, hl, hm⟩, -⟩ := @symbols_read_back suit "Suit" ["HEARTS", "SPADES"] rfl
    (by decide) rfl hw { options := ⟨false, false, .constEnum, false⟩ }
  exact ⟨declaration, hd, hl, hm (by decide)⟩

end AvroBindings
