import AvroBindings.Proofs.Naming
import AvroBindings.Proofs.Registry
import AvroBindings.Proofs.Traversal

/-! Registering names one after the other. What a name stands for afterwards depends on nothing but
the set of full names that came of it, so neither on their order nor on how often each was
registered. -/

namespace AvroBindings

/-- What a name stands for among some full names: itself if it is one of them, else the only one it
is the last segment of. Where it is that of several, they are listed in order. -/
inductive Stands (names : List String) (name : String) : Except Error (Option Json) → Prop where
  | full (h : name ∈ names) : Stands names name (.ok (some (.str name)))
  | short {full : String} (hn : name ∉ names) (hf : full ∈ names) (hs : LastSegment name full)
    (hu : ∀ other ∈ names, LastSegment name other → other = full) :
    Stands names name (.ok (some (.str full)))
  | unknown (hn : name ∉ names) (hs : ∀ other ∈ names, ¬LastSegment name other) :
    Stands names name (.ok none)
  | several {candidates : List String} (hn : name ∉ names) (hl : 2 ≤ candidates.length)
    (hp : candidates.Pairwise (· < ·))
    (hc : ∀ full, full ∈ candidates ↔ full ∈ names ∧ LastSegment name full) :
    Stands names name (.error (.ambiguousReference name candidates))

namespace Stands

variable {names : List String} {name : String}

theorem exists_full {value : Json} (h : Stands names name (.ok (some value))) :
    ∃ full ∈ names, value = .str full := by
  cases h with
  | full h => exact ⟨name, h, rfl⟩
  | short hn hf hs hu => exact ⟨_, hf, rfl⟩

theorem eq_of_dotted {answer : Except Error (Option Json)} (h : Stands names name answer)
    (hd : '.' ∈ name.toList) (hn : name ∉ names) : answer = .ok none := by
  cases h with
  | full h => exact absurd h hn
  | short _ _ hs _ => exact absurd hd hs.undotted
  | unknown _ _ => rfl
  | several _ hl _ hc =>
    obtain ⟨first, hf⟩ := List.exists_mem_of_length_pos (Nat.lt_of_lt_of_le Nat.two_pos hl)
    exact absurd hd ((hc first).1 hf).2.undotted

end Stands

namespace Registry

theorem two_le_length {names : List String} {first second : String} (hf : first ∈ names)
    (hs : second ∈ names) (hne : first ≠ second) : 2 ≤ names.length := by
  match names with
  | [only] => exact absurd ((List.mem_singleton.1 hf).trans (List.mem_singleton.1 hs).symm) hne
  | _ :: _ :: _ => exact Nat.le_add_left 2 _

theorem stands_get {registry : Registry} (ho : registry.others = []) (hn : registry.names.Nodup)
    {names : List String} (he : ∀ full, full ∈ registry.names ↔ full ∈ names) (name : String) :
    Stands names name (registry.get (.str name)) := by
  change Stands names name ((registry.find name).map (·.map .str))
  have hc : ∀ full, full ∈ registry.candidates name ↔ full ∈ names ∧ LastSegment name full :=
    fun full => by rw [mem_candidates, lastSegment_eq_iff, he]
  obtain ⟨-, -, full, hf⟩ | ⟨-, hk, hf⟩ | ⟨ha, hf⟩ := find_cases ho hn name
  · rw [hf]
    obtain ⟨hm, rfl⟩ | ⟨hm, hs⟩ := find_eq_some hf
    · exact .full ((he _).1 hm)
    · rw [hs] at hc
      obtain ⟨hf, hl⟩ := (hc full).1 List.mem_cons_self
      exact .short (mt (he name).2 hm) hf hl fun other ho hl =>
        List.mem_singleton.1 ((hc other).2 ⟨ho, hl⟩)
  · rw [hf]
    refine .unknown (fun hm => hk ⟨name, (he name).2 hm, .inl rfl⟩) fun other ho hl => ?_
    exact hk ⟨other, (he other).2 ho, .inr (lastSegment_eq_iff.2 hl)⟩
  · rw [hf]
    obtain ⟨hm, first, hf, second, hs, hne, hl, hl'⟩ := ha
    have hf := mem_sorted.2 (mem_candidates.2 ⟨hf, hl⟩)
    have hs := mem_sorted.2 (mem_candidates.2 ⟨hs, hl'⟩)
    refine .several (mt (he name).2 hm) (two_le_length hf hs hne) (pairwise_sorted (hn.filter _))
      fun full => by rw [mem_sorted, hc]

def fullText (call : Option String × String) : String :=
  (fullName (.ofSpace call.1) (.str call.2)).text

/-- Registers names in order, each within a namespace or none, and gives their full names. -/
def addAll (registry : Registry) :
    List (Option String × String) → Except Error (List Json × Registry)
  | [] => return ([], registry)
  | call :: rest => do
    let (full, extended) ← registry.add (.ofSpace call.1) (.str call.2)
    let (others, result) ← extended.addAll rest
    return (full :: others, result)

theorem add_text (registry : Registry) (call : Option String × String) :
    registry.add (.ofSpace call.1) (.str call.2) =
      .ok (.str (fullText call), registry.insert (fullText call)) := by
  have hf : fullName (.ofSpace call.1) (.str call.2) = .str (fullText call) := by
    unfold fullText fullName
    split <;> rfl
  rw [add, hf]

theorem addAll_eq (registry : Registry) (calls : List (Option String × String)) :
    registry.addAll calls =
      .ok ((calls.map fullText).map .str, registry.insertAll (calls.map fullText)) := by
  induction calls generalizing registry with
  | nil => rfl
  | cons call rest ih =>
    rw [addAll, add_text, Traversal.ok_bind]
    simp only [ih]
    rfl

theorem get_congr {names others : List String} (h : ∀ name, name ∈ names ↔ name ∈ others)
    (name : String) :
    (insertAll {} names).get (.str name) = (insertAll {} others).get (.str name) := by
  have hm : ∀ full, full ∈ (insertAll {} names).names ↔ full ∈ (insertAll {} others).names := by
    simpa using h
  have hn (names : List String) : (insertAll {} names).names.Nodup :=
    nodup_insertAll List.nodup_nil names
  have hp := (List.perm_ext_iff_of_nodup (hn names) (hn others)).2 hm
  have ho : (insertAll {} names).others = (insertAll {} others).others := by
    rw [others_insertAll, others_insertAll]
  rw [get, get, find_perm hp ho]

/-- What a name stands for after some names were registered. It depends on the set of their full
names alone, so that neither the order nor the repetition of names matters. What it stands for is one
of them and stands for itself, also after further names are registered, and a name with a dot stands
for nothing else. -/
theorem get_addAll (calls : List (Option String × String)) :
    ∃ names registry, addAll {} calls = .ok (names.map .str, registry) ∧
      (∀ name, Stands names name (registry.get (.str name))) ∧
      (∀ others found other, addAll {} others = .ok (List.map .str found, other) →
        (∀ full, full ∈ found ↔ full ∈ names) →
          ∀ name, other.get (.str name) = registry.get (.str name)) ∧
      (∀ others, (∀ call, call ∈ others ↔ call ∈ calls) →
        ∃ found other, addAll {} others = .ok (found, other) ∧
          ∀ name, other.get (.str name) = registry.get (.str name)) ∧
      (∀ name value, registry.get (.str name) = .ok (some value) →
        ∃ full ∈ names, value = .str full ∧ ∀ more, ∃ found extended,
          registry.addAll more = .ok (found, extended) ∧
            extended.get (.str full) = .ok (some (.str full))) ∧
      ∀ name, '.' ∈ name.toList → name ∉ names → registry.get (.str name) = .ok none := by
  have hs : ∀ name, Stands (calls.map fullText) name
      ((insertAll {} (calls.map fullText)).get (.str name)) :=
    stands_get (others_insertAll {} _) (nodup_insertAll List.nodup_nil _) fun full => by simp
  refine ⟨calls.map fullText, _, addAll_eq {} calls, hs, ?_, ?_, ?_,
    fun name hd hn => (hs name).eq_of_dotted hd hn⟩
  · intro others found other ha hm
    rw [addAll_eq, Except.ok.injEq, Prod.mk.injEq, List.map_inj_right fun _ _ => Json.str.inj] at ha
    obtain ⟨rfl, rfl⟩ := ha
    exact get_congr hm
  · intro others hm
    refine ⟨_, _, addAll_eq {} others, get_congr fun name => ?_⟩
    simp only [List.mem_map, hm]
  · intro name value hg
    obtain ⟨full, hf, rfl⟩ := (hg ▸ hs name).exists_full
    refine ⟨full, hf, rfl, fun more => ⟨_, _, addAll_eq _ more, ?_⟩⟩
    rw [get, find_of_mem (by simp [hf])]
    rfl

end Registry

end AvroBindings
