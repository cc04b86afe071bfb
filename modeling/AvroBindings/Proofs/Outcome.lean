import AvroBindings.Proofs.Traversal

/-! Computations told by all that can go wrong in them, and outcomes that correspond. A computation
fails exactly by some faults if it succeeds where there is none of them, and fails with one of them
otherwise. Two computations correspond if both succeed, with results that are related, or both fail,
and then with errors that differ at most in how a union is written. -/

namespace AvroBindings

section Faults

variable {α β : Type} {faults more : Error → Prop}

def FailsBy (faults : Error → Prop) : Except Error α → Prop
  | .ok _ => ∀ e, ¬faults e
  | .error e => faults e

namespace FailsBy

theorem ok (a : α) : FailsBy (fun _ => False) (.ok a : Except Error α) := fun _ h => h

theorem ok_of_eq {x : Except Error α} (h : ∃ a, x = .ok a) : FailsBy (fun _ => False) x := by
  obtain ⟨a, rfl⟩ := h
  exact ok a

theorem error (e : Error) : FailsBy (· = e) (.error e : Except Error α) := rfl

theorem congr {x : Except Error α} (h : FailsBy faults x) (he : ∀ e, faults e ↔ more e) :
    FailsBy more x := by
  cases x with
  | ok a => exact fun e hm => h e ((he e).2 hm)
  | error e => exact (he e).1 h

theorem bind {x : Except Error α} {f : α → Except Error β} (hx : FailsBy faults x)
    (hf : ∀ a, x = .ok a → FailsBy more (f a)) :
    FailsBy (fun e => faults e ∨ more e) (x >>= f) := by
  cases x with
  | error e => exact .inl hx
  | ok a =>
    have ha : FailsBy more (f a) := hf a rfl
    change FailsBy _ (f a)
    cases hr : f a with
    | ok b =>
      rw [hr] at ha
      rintro e (he | he)
      · exact hx e he
      · exact ha e he
    | error e =>
      rw [hr] at ha
      exact .inr ha

theorem map {x : Except Error α} (hx : FailsBy faults x) (f : α → β) :
    FailsBy faults (x.map f) := by
  cases x <;> exact hx

theorem bind_ok {x : Except Error α} {f : α → Except Error β} (hx : FailsBy faults x)
    (hf : ∀ a, x = .ok a → ∃ b, f a = .ok b) : FailsBy faults (x >>= f) :=
  (hx.bind fun a ha => ok_of_eq (hf a ha)).congr fun e => by simp

theorem mapM {f : α → Except Error β} {items : List α} {own : α → Error → Prop}
    (h : ∀ item ∈ items, FailsBy (own item) (f item)) :
    FailsBy (fun e => ∃ item ∈ items, own item e) (items.mapM f) := by
  cases hm : items.mapM f with
  | ok results =>
    rintro e ⟨item, hi, he⟩
    obtain ⟨result, -, hr⟩ := Traversal.ok_of_mapM hm hi
    have ho := h item hi
    rw [hr] at ho
    exact ho e he
  | error e =>
    obtain ⟨before, item, after, rfl, -, he⟩ := Traversal.mapM_eq_error_iff.1 hm
    have hi : item ∈ before ++ item :: after := by simp
    have ho := h item hi
    rw [he] at ho
    exact ⟨item, hi, ho⟩

theorem exists_ok_iff {x : Except Error α} (h : FailsBy faults x) :
    (∃ a, x = .ok a) ↔ ∀ e, ¬faults e := by
  cases x with
  | ok a => exact ⟨fun _ => h, fun _ => ⟨a, rfl⟩⟩
  | error e =>
    constructor
    · rintro ⟨a, ha⟩
      cases ha
    · exact fun hn => absurd h (hn e)

theorem of_error {x : Except Error α} (h : FailsBy faults x) {e : Error} (hx : x = .error e) :
    faults e := by
  rw [hx] at h
  exact h

end FailsBy

end Faults

/-- Errors that are the same, but that the union which stands in the way may be written otherwise. -/
inductive Error.Alike : Error → Error → Prop
  | refl (e : Error) : Alike e e
  | union (left right : List Json) : Alike (.unknownType (.arr left)) (.unknownType (.arr right))

namespace Error.Alike

theorem symm {first second : Error} (h : first.Alike second) : second.Alike first := by
  cases h with
  | refl => exact .refl first
  | union left right => exact .union right left

theorem trans {first second third : Error} (h : first.Alike second) (ht : second.Alike third) :
    first.Alike third := by
  cases h with
  | refl => exact ht
  | union left right =>
    cases ht with
    | refl => exact .union left right
    | union _ third => exact .union left third

end Error.Alike

/-- Both fail alike, or both succeed with related results. -/
inductive Corresponds {α β : Type} (related : α → β → Prop) : Except Error α → Except Error β → Prop
  | ok {a : α} {b : β} (h : related a b) : Corresponds related (.ok a) (.ok b)
  | error {first second : Error} (h : first.Alike second) :
    Corresponds related (.error first) (.error second)

namespace Corresponds

variable {α β γ δ : Type} {related : α → β → Prop} {x : Except Error α} {y : Except Error β}

theorem refl {same : α → α → Prop} (h : ∀ a, same a a) (x : Except Error α) :
    Corresponds same x x := by
  cases x with
  | ok a => exact .ok (h a)
  | error e => exact .error (.refl e)

theorem of_eq {same : α → α → Prop} (h : ∀ a, same a a) {x other : Except Error α}
    (he : x = other) : Corresponds same x other :=
  he ▸ refl h x

theorem symm {inverse : β → α → Prop} (h : Corresponds related x y)
    (hs : ∀ a b, related a b → inverse b a) : Corresponds inverse y x := by
  cases h with
  | ok h => exact .ok (hs _ _ h)
  | error h => exact .error h.symm

theorem trans {next : β → γ → Prop} {far : α → γ → Prop} {z : Except Error γ}
    (h : Corresponds related x y) (ht : Corresponds next y z)
    (hf : ∀ a b c, related a b → next b c → far a c) : Corresponds far x z := by
  cases h with
  | ok h =>
    cases ht with
    | ok ht => exact .ok (hf _ _ _ h ht)
  | error h =>
    cases ht with
    | error ht => exact .error (h.trans ht)

theorem exists_of_isOk {other : Except Error α} (h : Corresponds Eq x other) (hk : x.isOk) :
    ∃ a, x = .ok a ∧ other = .ok a := by
  cases h with
  | ok h => exact ⟨_, rfl, h ▸ rfl⟩
  | error h => cases hk

theorem bind {more : γ → δ → Prop} {f : α → Except Error γ} {g : β → Except Error δ}
    (h : Corresponds related x y)
    (hf : ∀ a b, x = .ok a → y = .ok b → related a b → Corresponds more (f a) (g b)) :
    Corresponds more (x >>= f) (y >>= g) := by
  cases h with
  | ok h => exact hf _ _ rfl rfl h
  | error h => exact .error h

theorem map {more : γ → δ → Prop} {f : α → γ} {g : β → δ} (h : Corresponds related x y)
    (hf : ∀ a b, related a b → more (f a) (g b)) : Corresponds more (x.map f) (y.map g) := by
  cases h with
  | ok h => exact .ok (hf _ _ h)
  | error h => exact .error h

theorem mapM {f : γ → Except Error α} {g : δ → Except Error β} (image : γ → δ) {items : List γ}
    (h : ∀ item ∈ items, Corresponds related (f item) (g (image item))) :
    Corresponds (List.Forall₂ related) (items.mapM f) ((items.map image).mapM g) := by
  induction items with
  | nil => exact .ok .nil
  | cons item rest ih =>
    rw [List.map_cons, List.mapM_cons, List.mapM_cons]
    refine (h item List.mem_cons_self).bind fun a b _ _ hab => ?_
    have hr := ih fun other ho => h other (List.mem_cons_of_mem item ho)
    exact hr.bind fun as bs _ _ hs => .ok (.cons hab hs)

end Corresponds

/-- An error without the reference or the schema that it quotes. -/
def Error.unquoted : Error → Error
  | .unresolvedReference _ => .unresolvedReference .null
  | .unknownType _ => .unknownType .null
  | e => e

section Unquoted

variable {α β : Type}

def unquoted (x : Except Error α) : Except Error α := x.mapError Error.unquoted

theorem unquoted_bind (x : Except Error α) (next : α → Except Error β) :
    unquoted (x >>= next) = unquoted x >>= fun a => unquoted (next a) := by
  cases x <;> rfl

theorem unquoted_map (x : Except Error α) (f : α → β) : unquoted (x.map f) = (unquoted x).map f := by
  cases x <;> rfl

theorem unquoted_mapM (f : α → Except Error β) (items : List α) :
    unquoted (items.mapM f) = items.mapM fun item => unquoted (f item) := by
  induction items with
  | nil => rfl
  | cons item rest ih =>
    rw [List.mapM_cons, List.mapM_cons, unquoted_bind]
    congr 1
    funext first
    rw [unquoted_bind, ih]
    rfl

theorem unquoted_mapM_map {f : α → Except Error β} {image : α → α} {items : List α}
    (h : ∀ item ∈ items, unquoted (f (image item)) = unquoted (f item)) :
    unquoted ((items.map image).mapM f) = unquoted (items.mapM f) := by
  rw [List.mapM_map, unquoted_mapM, unquoted_mapM]
  exact Traversal.mapM_congr h

end Unquoted

end AvroBindings
