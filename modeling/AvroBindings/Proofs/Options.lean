import AvroBindings.Options
import AvroBindings.Proofs.Traversal
import Mathlib.Data.List.Nodup

/-! Options set by the entries of an object. An option that is on or off has two keys, and the last
value that is not null under either of them decides. Only the name of an enum style can be wrong,
whatever else the object holds. Entries of other keys do not matter, and neither does the order of
the entries, as long as the two keys of an option keep theirs. -/

namespace AvroBindings

open Uppercase (upper)

namespace EnumStyle

theorem label_of_ofLabel? {text : String} {style : EnumStyle} (h : ofLabel? text = some style) :
    style.label = text := by
  unfold ofLabel? at h
  split at h <;> cases h <;> rfl

theorem ofLabel?_eq_none_iff {text : String} :
    ofLabel? text = none ↔ ∀ style : EnumStyle, style.label ≠ text := by
  constructor
  · rintro h style rfl
    rw [ofLabel?_label] at h
    cases h
  · intro h
    cases ho : ofLabel? text with
    | none => rfl
    | some style => exact absurd (label_of_ofLabel? ho) (h style)

theorem label_injective : Function.Injective label := by
  intro style other h
  rw [← Option.some_inj, ← ofLabel?_label, h, ofLabel?_label]

end EnumStyle

namespace Attributes

/-- The value of an entry with one of some keys, unless it is null. -/
def given? (keys : List String) : String × Json → Option Json
  | (_, .null) => none
  | (key, value) => if key ∈ keys then some value else none

/-- The last value other than null that an object has under some keys. -/
def last? (keys : List String) (entries : Attributes) : Option Json :=
  (entries.filterMap (given? keys)).getLast?

variable {keys : List String} {entries others : Attributes} {entry : String × Json}

theorem given?_eq_some_iff {value : Json} :
    given? keys entry = some value ↔ entry.1 ∈ keys ∧ entry.2 ≠ .null ∧ entry.2 = value := by
  unfold given?
  split
  next => simp
  next key own hn =>
    rw [Option.ite_none_right_eq_some, Option.some_inj]
    exact ⟨fun ⟨hk, he⟩ => ⟨hk, hn, he⟩, fun ⟨hk, _, he⟩ => ⟨hk, he⟩⟩

theorem given?_of_mem (h : entry.1 ∈ keys) (hn : entry.2 ≠ .null) :
    given? keys entry = some entry.2 :=
  given?_eq_some_iff.2 ⟨h, hn, rfl⟩

theorem given?_of_notMem (h : entry.1 ∉ keys) : given? keys entry = none :=
  Option.eq_none_iff_forall_ne_some.2 fun _ hv => h (given?_eq_some_iff.1 hv).1

theorem given?_of_null (h : entry.2 = .null) : given? keys entry = none :=
  Option.eq_none_iff_forall_ne_some.2 fun _ hv => (given?_eq_some_iff.1 hv).2.1 h

theorem last?_cons (keys : List String) (entry : String × Json) (rest : Attributes) :
    last? keys (entry :: rest) = (last? keys rest).or (given? keys entry) := by
  unfold last?
  cases h : given? keys entry with
  | none => rw [List.filterMap_cons_none h, Option.or_none]
  | some value =>
    rw [List.filterMap_cons_some h, List.getLast?_cons]
    cases (rest.filterMap (given? keys)).getLast? <;> rfl

theorem last?_singleton (keys : List String) (entry : String × Json) :
    last? keys [entry] = given? keys entry := by
  rw [last?_cons]
  rfl

theorem getD_last?_cons {α : Type} (keys : List String) (entry : String × Json)
    (rest : Attributes) (f : Json → α) (a : α) :
    ((last? keys (entry :: rest)).map f).getD a =
      ((last? keys rest).map f).getD (((last? keys [entry]).map f).getD a) := by
  rw [last?_cons, last?_singleton]
  cases last? keys rest <;> rfl

theorem last?_filter {p : String → Bool} (h : ∀ key ∈ keys, p key) (entries : Attributes) :
    last? keys (entries.filter fun entry => p entry.1) = last? keys entries := by
  induction entries with
  | nil => rfl
  | cons entry rest ih =>
    by_cases hp : p entry.1
    · rw [List.filter_cons, if_pos hp, last?_cons, last?_cons, ih]
    · rw [List.filter_cons, if_neg hp, last?_cons, ih,
        given?_of_notMem fun hm => hp (h entry.1 hm), Option.or_none]

theorem mem_of_last? {key : String} {value : Json} (h : last? [key] entries = some value) :
    (key, value) ∈ entries ∧ value ≠ .null := by
  obtain ⟨entry, hm, hg⟩ := List.mem_filterMap.1 (List.mem_of_getLast? h)
  obtain ⟨hk, hn, rfl⟩ := given?_eq_some_iff.1 hg
  exact ⟨List.mem_singleton.1 hk ▸ hm, hn⟩

theorem last?_key_eq_some_iff (nodup : (entries.map Prod.fst).Nodup) {key : String}
    {value : Json} : last? [key] entries = some value ↔ (key, value) ∈ entries ∧ value ≠ .null := by
  refine ⟨mem_of_last?, fun ⟨hm, hn⟩ => ?_⟩
  cases hl : last? [key] entries with
  | none =>
    have hv : value ∈ entries.filterMap (given? [key]) :=
      List.mem_filterMap.2 ⟨_, hm, given?_eq_some_iff.2 ⟨List.mem_singleton_self key, hn, rfl⟩⟩
    rw [List.getLast?_eq_none_iff.1 hl] at hv
    cases hv
  | some other =>
    have he := List.inj_on_of_nodup_map nodup (mem_of_last? hl).1 hm rfl
    rw [(Prod.mk.inj he).2]

theorem eq_of_map_fst (nodup : (entries.map Prod.fst).Nodup) (hs : others ⊆ entries)
    (h : others.map Prod.fst = entries.map Prod.fst) : others = entries := by
  have hl : others.length = entries.length := by simpa using congrArg List.length h
  refine List.ext_getElem hl fun i ho he => ?_
  have hk : (others.map Prod.fst)[i]? = (entries.map Prod.fst)[i]? := by rw [h]
  refine List.inj_on_of_nodup_map nodup (hs (List.getElem_mem ho)) (List.getElem_mem he) ?_
  simpa [ho, he] using hk

theorem last?_perm (nodup : (entries.map Prod.fst).Nodup) (hp : entries.Perm others)
    (h : (others.map Prod.fst).filter (· ∈ keys) = (entries.map Prod.fst).filter (· ∈ keys)) :
    last? keys others = last? keys entries := by
  have hk : ∀ key ∈ keys, decide (key ∈ keys) := fun key hm => decide_eq_true hm
  have hf : others.filter (fun entry => entry.1 ∈ keys) =
      entries.filter fun entry => entry.1 ∈ keys := by
    refine eq_of_map_fst ?_ (hp.symm.filter _).subset ?_
    · exact nodup.sublist (List.filter_sublist.map Prod.fst)
    · rwa [List.filter_map, List.filter_map] at h
  rw [← last?_filter hk others, hf, last?_filter hk]

end Attributes

namespace Options

/-- The options that are on or off. -/
inductive Toggle where
  | enumsAsUnions
  | withoutNamespaces
  | withClasses
deriving DecidableEq, Repr

namespace Toggle

/-- The two keys of an option. -/
def spellings : Toggle → List String
  | enumsAsUnions => ["convert_enum_to_type", "convertEnumToType"]
  | withoutNamespaces => ["remove_namespace", "removeNameSpace"]
  | withClasses => ["custom_mode", "customMode"]

def isOn (options : Options) : Toggle → Bool
  | enumsAsUnions => options.enumsAsUnions
  | withoutNamespaces => options.withoutNamespaces
  | withClasses => options.withClasses

def put (options : Options) (value : Bool) : Toggle → Options
  | enumsAsUnions => { options with enumsAsUnions := value }
  | withoutNamespaces => { options with withoutNamespaces := value }
  | withClasses => { options with withClasses := value }

variable {options : Options} {toggle other : Toggle}

theorem isOn_put (value : Bool) : toggle.isOn (toggle.put options value) = value := by
  cases toggle <;> rfl

theorem isOn_put_of_ne (h : other ≠ toggle) (value : Bool) :
    other.isOn (toggle.put options value) = other.isOn options := by
  cases toggle <;> cases other <;> grind [isOn, put]

theorem enumStyle_put (value : Bool) :
    (toggle.put options value).enumStyle = options.enumStyle := by
  cases toggle <;> rfl

theorem eq_of_mem_spellings {key : String} (h : key ∈ toggle.spellings)
    (ho : key ∈ other.spellings) : other = toggle := by
  have hd : ∀ key ∈ toggle.spellings, key ∈ other.spellings → other = toggle := by
    cases toggle <;> cases other <;> decide
  exact hd key h ho

theorem ne_enums_of_mem_spellings {key : String} (h : key ∈ toggle.spellings) : key ≠ "enums" := by
  have hd : ∀ key ∈ toggle.spellings, key ≠ "enums" := by
    cases toggle <;> decide
  exact hd key h

end Toggle

def keys : List String :=
  "enums" :: [Toggle.enumsAsUnions, .withoutNamespaces, .withClasses].flatMap Toggle.spellings

theorem mem_keys_iff {key : String} :
    key ∈ keys ↔ key = "enums" ∨ ∃ toggle : Toggle, key ∈ toggle.spellings := by
  rw [keys, List.mem_cons, List.mem_flatMap]
  refine or_congr_right ⟨fun ⟨toggle, _, h⟩ => ⟨toggle, h⟩, fun ⟨toggle, h⟩ => ⟨toggle, ?_, h⟩⟩
  cases toggle <;> decide

theorem Toggle.spellings_subset_keys (toggle : Toggle) : toggle.spellings ⊆ keys :=
  fun _ h => mem_keys_iff.2 (.inr ⟨toggle, h⟩)

/-- An entry with a name, other than null, that no enum style has. -/
def Misnames (entry : String × Json) : Prop :=
  entry.1 = "enums" ∧ entry.2 ≠ .null ∧ ∀ style : EnumStyle, style.label ≠ upper entry.2.text

/-- What options have become by some entries: the last value other than null decides, and without
one an option is what it was. -/
structure Merged (entries : Attributes) (options next : Options) : Prop where
  toggles : ∀ toggle : Toggle, toggle.isOn next =
    ((entries.last? toggle.spellings).map Json.isTruthy).getD (toggle.isOn options)
  style : next.enumStyle.label =
    ((entries.last? ["enums"]).map fun value => upper value.text).getD options.enumStyle.label

variable {options middle next other : Options} {key : String} {value : Json}
  {entry : String × Json} {entries others : Attributes}

theorem eq_of_toggles (h : ∀ toggle : Toggle, toggle.isOn options = toggle.isOn other)
    (hs : options.enumStyle = other.enumStyle) : options = other := by
  cases options
  cases other
  cases hs
  cases h .enumsAsUnions
  cases h .withoutNamespaces
  cases h .withClasses
  rfl

namespace Merged

theorem nil (options : Options) : Merged [] options options := ⟨fun _ => rfl, rfl⟩

theorem cons (h : Merged [entry] options middle) (hr : Merged entries middle next) :
    Merged (entry :: entries) options next := by
  constructor
  · intro toggle
    rw [hr.toggles, h.toggles, Attributes.getD_last?_cons _ entry entries]
  · rw [hr.style, h.style, Attributes.getD_last?_cons _ entry entries]

theorem unique (h : Merged entries options next) (ho : Merged entries options other) :
    next = other := by
  refine eq_of_toggles (fun toggle => ?_) (EnumStyle.label_injective ?_)
  · rw [h.toggles, ho.toggles]
  · rw [h.style, ho.style]

end Merged

/-- A null, or any value of a key that sets no option. -/
def IsSilent (entry : String × Json) : Prop := entry.2 = .null ∨ entry.1 ∉ keys

theorem IsSilent.given?_eq_none (h : IsSilent entry) {own : List String} (hs : own ⊆ keys) :
    Attributes.given? own entry = none :=
  h.elim Attributes.given?_of_null fun hk => Attributes.given?_of_notMem fun hm => hk (hs hm)

theorem IsSilent.merged (h : IsSilent entry) (options : Options) :
    Merged [entry] options options := by
  constructor
  · intro toggle
    rw [Attributes.last?_singleton, h.given?_eq_none toggle.spellings_subset_keys]
    rfl
  · rw [Attributes.last?_singleton, h.given?_eq_none (by decide)]
    rfl

theorem merged_put {toggle : Toggle} (h : entry.1 ∈ toggle.spellings) (hn : entry.2 ≠ .null)
    (options : Options) : Merged [entry] options (toggle.put options entry.2.isTruthy) := by
  constructor
  · intro other
    rw [Attributes.last?_singleton]
    by_cases ho : other = toggle
    · rw [ho, Toggle.isOn_put, Attributes.given?_of_mem h hn]
      rfl
    · rw [Toggle.isOn_put_of_ne ho,
        Attributes.given?_of_notMem fun hm => ho (Toggle.eq_of_mem_spellings h hm)]
      rfl
  · have he : entry.1 ∉ ["enums"] := fun hm =>
      toggle.ne_enums_of_mem_spellings h (List.mem_singleton.1 hm)
    rw [Attributes.last?_singleton, Attributes.given?_of_notMem he, Toggle.enumStyle_put]
    rfl

theorem merged_style {style : EnumStyle} (h : style.label = upper value.text)
    (hn : value ≠ .null) (options : Options) :
    Merged [("enums", value)] options { options with enumStyle := style } := by
  constructor
  · intro toggle
    have he : ("enums", value).1 ∉ toggle.spellings := fun hm =>
      toggle.ne_enums_of_mem_spellings hm rfl
    rw [Attributes.last?_singleton, Attributes.given?_of_notMem he]
    cases toggle <;> rfl
  · rw [Attributes.last?_singleton,
      Attributes.given?_of_mem (List.mem_singleton_self "enums") hn]
    exact h

section Set

variable (options : Options)

theorem set_of_silent (h : IsSilent entry) : options.set entry.1 entry.2 = .ok options := by
  obtain ⟨key, value⟩ := entry
  obtain rfl | (hk : key ∉ keys) := h
  · rfl
  · change options.set key value = .ok options
    unfold set
    split
    next => rfl
    next =>
      split
      case h_8 => rfl
      -- the keys that are told apart all set an option
      all_goals exact absurd (by decide) hk

theorem set_of_spelling {toggle : Toggle} (h : key ∈ toggle.spellings) (hn : value ≠ .null) :
    options.set key value = .ok (toggle.put options value.isTruthy) := by
  unfold set
  split
  next => exact absurd rfl hn
  next => cases toggle <;> obtain rfl | rfl := List.mem_pair.1 h <;> rfl

theorem set_enums (hn : value ≠ .null) :
    options.set "enums" value =
      match EnumStyle.ofLabel? (upper value.text) with
      | some style => .ok { options with enumStyle := style }
      | none => .error (.unknownEnumStyle (upper value.text)) := by
  unfold set
  split
  next => exact absurd rfl hn
  next => rfl

theorem set_cases (entry : String × Json) :
    (∃ next, options.set entry.1 entry.2 = .ok next ∧ ¬Misnames entry ∧
        Merged [entry] options next) ∨
      (Misnames entry ∧
        options.set entry.1 entry.2 = .error (.unknownEnumStyle (upper entry.2.text))) := by
  by_cases hs : IsSilent entry
  · refine .inl ⟨options, set_of_silent options hs, ?_, hs.merged options⟩
    rintro ⟨hk, hn, -⟩
    exact hs.elim hn fun hm => hm (hk ▸ by decide)
  · obtain ⟨key, value⟩ := entry
    obtain ⟨hn, hk⟩ := not_or.1 hs
    obtain rfl | ⟨toggle, ht⟩ := mem_keys_iff.1 (not_not.1 hk)
    · rw [set_enums options hn]
      cases ho : EnumStyle.ofLabel? (upper value.text) with
      | none => exact .inr ⟨⟨rfl, hn, EnumStyle.ofLabel?_eq_none_iff.1 ho⟩, rfl⟩
      | some style =>
        have hl := EnumStyle.label_of_ofLabel? ho
        exact .inl ⟨_, rfl, fun h => h.2.2 style hl, merged_style hl hn options⟩
    · exact .inl ⟨_, set_of_spelling options ht hn,
        fun h => toggle.ne_enums_of_mem_spellings ht h.1, merged_put ht hn options⟩

end Set

def setAll (options : Options) (entries : Attributes) : Except Error Options :=
  entries.foldlM (fun options entry => options.set entry.1 entry.2) options

theorem ofJson_obj (entries : Attributes) : ofJson (.obj entries) = setAll {} entries := rfl

/-- Entries fail exactly if one of them misnames the enum style, and for that reason. -/
theorem setAll_cases (options : Options) (entries : Attributes) :
    (∃ next, setAll options entries = .ok next ∧ (∀ entry ∈ entries, ¬Misnames entry) ∧
        Merged entries options next) ∨
      ∃ entry ∈ entries, Misnames entry ∧
        setAll options entries = .error (.unknownEnumStyle (upper entry.2.text)) := by
  induction entries generalizing options with
  | nil => exact .inl ⟨options, rfl, List.forall_mem_nil _, .nil options⟩
  | cons entry rest ih =>
    obtain ⟨middle, hs, hm, hg⟩ | ⟨hm, hs⟩ := set_cases options entry
    · have hr : setAll options (entry :: rest) = setAll middle rest := by
        rw [setAll, List.foldlM_cons, hs]
        rfl
      rw [hr]
      refine (ih middle).imp ?_ ?_
      · rintro ⟨next, hn, ho, hg'⟩
        exact ⟨next, hn, List.forall_mem_cons.2 ⟨hm, ho⟩, hg.cons hg'⟩
      · rintro ⟨other, ho, hb⟩
        exact ⟨other, List.mem_cons_of_mem entry ho, hb⟩
    · refine .inr ⟨entry, List.mem_cons_self, hm, ?_⟩
      rw [setAll, List.foldlM_cons, hs]
      rfl

theorem setAll_eq_ok_iff : setAll options entries = .ok next ↔
    (∀ entry ∈ entries, ¬Misnames entry) ∧ Merged entries options next := by
  obtain ⟨other, hs, hm, hg⟩ | ⟨entry, he, hm, hs⟩ := setAll_cases options entries
  · rw [hs]
    constructor
    · rintro ⟨⟩
      exact ⟨hm, hg⟩
    · rintro ⟨-, ho⟩
      rw [hg.unique ho]
  · rw [hs]
    exact iff_of_false nofun fun ⟨ho, _⟩ => ho entry he hm

theorem setAll_eq_error_iff (nodup : (entries.map Prod.fst).Nodup) {error : Error} :
    setAll options entries = .error error ↔
      ∃ entry ∈ entries, Misnames entry ∧ error = .unknownEnumStyle (upper entry.2.text) := by
  obtain ⟨next, hs, hm, -⟩ | ⟨entry, he, hm, hs⟩ := setAll_cases options entries
  · rw [hs]
    exact iff_of_false nofun fun ⟨entry, he, hb, _⟩ => hm entry he hb
  · rw [hs]
    constructor
    · rintro ⟨⟩
      exact ⟨entry, he, hm, rfl⟩
    · rintro ⟨other, ho, hb, rfl⟩
      rw [List.inj_on_of_nodup_map nodup he ho (hm.1.trans hb.1.symm)]

theorem Merged.congr (h : Merged entries options next)
    (ht : ∀ toggle : Toggle, others.last? toggle.spellings = entries.last? toggle.spellings)
    (hs : others.last? ["enums"] = entries.last? ["enums"]) : Merged others options next :=
  ⟨fun toggle => by rw [ht, h.toggles], by rw [hs, h.style]⟩

theorem setAll_congr (nodup : (entries.map Prod.fst).Nodup) (nodup' : (others.map Prod.fst).Nodup)
    (hm : ∀ entry, Misnames entry → (entry ∈ others ↔ entry ∈ entries))
    (ht : ∀ toggle : Toggle, others.last? toggle.spellings = entries.last? toggle.spellings)
    (hs : others.last? ["enums"] = entries.last? ["enums"]) :
    setAll options others = setAll options entries := by
  cases hr : setAll options entries with
  | ok next =>
    obtain ⟨hn, hg⟩ := setAll_eq_ok_iff.1 hr
    exact setAll_eq_ok_iff.2 ⟨fun entry he hb => hn entry ((hm entry hb).1 he) hb, hg.congr ht hs⟩
  | error error =>
    obtain ⟨entry, he, hb, hr⟩ := (setAll_eq_error_iff nodup).1 hr
    exact (setAll_eq_error_iff nodup').2 ⟨entry, (hm entry hb).2 he, hb, hr⟩

/-- An object, which has no key twice, sets options by its entries. It fails exactly if it has a
name other than null that no enum style has. Otherwise the last value other than null under its two
keys turns an option on or off, and an option without one has its default. Other keys do not matter,
and neither does the order of the entries, as long as the two keys of each option keep theirs. -/
theorem entries_merged {entries : Attributes} (nodup : (entries.map Prod.fst).Nodup) :
    (∀ error, ofJson (.obj entries) = .error error ↔
      ∃ entry ∈ entries, Misnames entry ∧ error = .unknownEnumStyle (upper entry.2.text)) ∧
    (∀ options, ofJson (.obj entries) = .ok options ↔
      (∀ entry ∈ entries, ¬Misnames entry) ∧ Merged entries {} options) ∧
    ofJson (.obj (entries.filter fun entry => entry.1 ∈ keys)) = ofJson (.obj entries) ∧
    ∀ others, entries.Perm others →
      (∀ toggle : Toggle, (others.map Prod.fst).filter (· ∈ toggle.spellings) =
        (entries.map Prod.fst).filter (· ∈ toggle.spellings)) →
      ofJson (.obj others) = ofJson (.obj entries) := by
  simp only [ofJson_obj]
  refine ⟨fun error => setAll_eq_error_iff nodup, fun options => setAll_eq_ok_iff, ?_, ?_⟩
  · have hk : ∀ own ⊆ keys, ∀ key ∈ own, decide (key ∈ keys) :=
      fun own hs key hm => decide_eq_true (hs hm)
    refine setAll_congr nodup (nodup.sublist (List.filter_sublist.map Prod.fst)) ?_ ?_ ?_
    · intro entry hm
      have he : entry.1 ∈ keys := hm.1 ▸ by decide
      rw [List.mem_filter, and_iff_left (decide_eq_true he)]
    · exact fun toggle => Attributes.last?_filter (hk _ toggle.spellings_subset_keys) entries
    · exact Attributes.last?_filter (hk _ (by decide)) entries
  · intro others hp ht
    have nodup' : (others.map Prod.fst).Nodup := (hp.map Prod.fst).nodup_iff.1 nodup
    refine setAll_congr nodup nodup' (fun entry _ => hp.mem_iff.symm) ?_ ?_
    · exact fun toggle => Attributes.last?_perm nodup hp (ht toggle)
    · refine Option.ext fun value => ?_
      rw [Attributes.last?_key_eq_some_iff nodup', Attributes.last?_key_eq_some_iff nodup,
        hp.mem_iff]

def spaced : Attributes :=
  [("removeNameSpace", .bool true), ("unknown", .bool true), ("remove_namespace", .null)]

def styled : Attributes :=
  [("customMode", .int 1), ("enums", .str "const_enum"), ("custom_mode", .str "")]

theorem entries_merged_styled :
    ofJson (.obj (spaced ++ styled)) = .ok ⟨false, true, .constEnum, false⟩ ∧
      ofJson (.obj (styled ++ spaced)) = ofJson (.obj (spaced ++ styled)) := by
  have nodup : ((spaced ++ styled).map Prod.fst).Nodup := by decide
  obtain ⟨-, hok, -, hperm⟩ := entries_merged nodup
  have hl : EnumStyle.constEnum.label = upper "const_enum" := by decide +kernel
  constructor
  · refine (hok _).2 ⟨fun entry he hb => ?_, fun toggle => by cases toggle <;> rfl, hl⟩
    have hs : ("enums", .str "const_enum") ∈ spaced ++ styled := by simp [styled]
    cases List.inj_on_of_nodup_map nodup he hs hb.1
    exact hb.2.2 .constEnum hl
  · exact hperm _ List.perm_append_comm fun toggle => by cases toggle <;> decide

end Options

end AvroBindings
