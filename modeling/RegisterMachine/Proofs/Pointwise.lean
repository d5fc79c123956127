/-
# Lists related element by element

Programs are compared statement by statement, with what they mean, with the
lines that show them and with each other, so `List.Forall₂` is the relation
that all of the theory is about. Here is what it needs of it beyond the
library, and how results that may be errors are taken apart: a stage that
succeeds has succeeded in all of its parts.

Key theorems: `exists_left_of_forall₂`, `getElem?_of_forall₂`,
`exists_forall₂`, `guard_eq_ok_iff`, `exists_eq_error_iff`, `map_eq_ok_iff`,
`bind_eq_ok_iff`, `mapM_eq_ok_iff`, `mapM_eq_ok_iff_map`, `mapM_eq_error_iff`.
-/
import Mathlib.Data.List.Forall2

namespace RegisterMachine

/-! ### Members and places -/

section

variable {α β : Type} {R : α → β → Prop}

theorem exists_left_of_forall₂ {as : List α} {bs : List β} (h : List.Forall₂ R as bs) :
    ∀ b ∈ bs, ∃ a ∈ as, R a b := by
  induction h with
  | nil => simp
  | cons hab _ ih =>
    intro c hc
    rcases List.mem_cons.mp hc with rfl | hc
    · exact ⟨_, List.mem_cons_self, hab⟩
    · obtain ⟨a, ha, hac⟩ := ih c hc
      exact ⟨a, List.mem_cons_of_mem _ ha, hac⟩

theorem exists_right_of_forall₂ {as : List α} {bs : List β} (h : List.Forall₂ R as bs) :
    ∀ a ∈ as, ∃ b ∈ bs, R a b :=
  exists_left_of_forall₂ (R := flip R) (List.Forall₂.flip h)

theorem getElem?_of_forall₂ {as : List α} {bs : List β} (h : List.Forall₂ R as bs) :
    ∀ k : Nat, (as[k]? = none ∧ bs[k]? = none) ∨
      ∃ a b, as[k]? = some a ∧ bs[k]? = some b ∧ R a b := by
  induction h with
  | nil => exact fun k => Or.inl ⟨rfl, rfl⟩
  | cons hab _ ih =>
    intro k
    cases k with
    | zero => exact Or.inr ⟨_, _, rfl, rfl, hab⟩
    | succ k => simpa using ih k

theorem exists_forall₂ : ∀ {as : List α}, (∀ a ∈ as, ∃ b, R a b) → ∃ bs, List.Forall₂ R as bs
  | [], _ => ⟨[], .nil⟩
  | a :: as, h => by
    obtain ⟨b, hab⟩ := h a List.mem_cons_self
    obtain ⟨bs, hbs⟩ := exists_forall₂ fun c hc => h c (List.mem_cons_of_mem _ hc)
    exact ⟨b :: bs, .cons hab hbs⟩

/-- What is asked of the elements of the second list alone can be asked apart. -/
theorem forall₂_and_right {P : β → Prop} {as : List α} {bs : List β} :
    List.Forall₂ (fun a b => P b ∧ R a b) as bs ↔ (∀ b ∈ bs, P b) ∧ List.Forall₂ R as bs := by
  have hflip := List.forall₂_and_left (p := P) (R := flip R) bs as
  constructor
  · intro h
    obtain ⟨hbs, hR⟩ := hflip.mp h.flip
    exact ⟨hbs, hR.flip⟩
  · rintro ⟨hbs, hR⟩
    exact (hflip.mpr ⟨hbs, hR.flip⟩).flip

end

/-! ### Results that may be errors -/

section

variable {α β ε : Type}

theorem guard_eq_ok_iff {c : Prop} [Decidable c] {error : ε} {x : Except ε α} {a : α} :
    (if c then .error error else x) = .ok a ↔ ¬ c ∧ x = .ok a := by
  by_cases h : c <;> simp [h]

theorem exists_eq_error_iff {x : Except ε α} : (∃ error, x = .error error) ↔ ∀ a, x ≠ .ok a := by
  cases x <;> simp

theorem map_eq_ok_iff {f : α → β} {x : Except ε α} {b : β} :
    x.map f = .ok b ↔ ∃ a, x = .ok a ∧ f a = b := by
  cases x <;> simp [Except.map]

theorem map_eq_error_iff {f : α → β} {x : Except ε α} {error : ε} :
    x.map f = .error error ↔ x = .error error := by
  cases x <;> simp [Except.map]

theorem bind_eq_ok_iff {f : α → Except ε β} {x : Except ε α} {b : β} :
    x >>= f = .ok b ↔ ∃ a, x = .ok a ∧ f a = .ok b := by
  cases x <;> simp [bind, Except.bind]

theorem mapM_eq_ok_iff {f : α → Except ε β} : ∀ {as : List α} {bs : List β},
    as.mapM f = .ok bs ↔ List.Forall₂ (fun a b => f a = .ok b) as bs
  | [], bs => by cases bs <;> simp [pure, Except.pure]
  | a :: as, bs => by
    rw [List.mapM_cons, List.forall₂_cons_left_iff, bind_eq_ok_iff]
    constructor
    · rintro ⟨b, hb, h⟩
      obtain ⟨rest, hrest, h⟩ := bind_eq_ok_iff.mp h
      cases h
      exact ⟨b, rest, hb, mapM_eq_ok_iff.mp hrest, rfl⟩
    · rintro ⟨b, rest, hb, hrest, rfl⟩
      exact ⟨b, hb, bind_eq_ok_iff.mpr ⟨rest, mapM_eq_ok_iff.mpr hrest, rfl⟩⟩

/-- A map that gives the value of `g` where an element is good gets through if all elements are. -/
theorem mapM_eq_ok_iff_map {f : α → Except ε β} {good : α → Prop} {g : α → β} :
    ∀ {as : List α} {bs : List β}, (∀ a ∈ as, ∀ b, f a = .ok b ↔ good a ∧ b = g a) →
      (as.mapM f = .ok bs ↔ (∀ a ∈ as, good a) ∧ bs = as.map g)
  | [], bs, _ => by simp [pure, Except.pure, eq_comm]
  | a :: as, bs, h => by
    have ih (rest : List β) :
        as.mapM f = .ok rest ↔ (∀ c ∈ as, good c) ∧ rest = as.map g :=
      mapM_eq_ok_iff_map fun c hc => h c (List.mem_cons_of_mem _ hc)
    rw [mapM_eq_ok_iff, List.forall₂_cons_left_iff, List.forall_mem_cons, List.map_cons]
    simp only [h a List.mem_cons_self, ← mapM_eq_ok_iff, ih]
    constructor
    · rintro ⟨b, rest, ⟨ha, rfl⟩, ⟨has, rfl⟩, rfl⟩
      exact ⟨⟨ha, has⟩, rfl⟩
    · rintro ⟨⟨ha, has⟩, rfl⟩
      exact ⟨_, _, ⟨ha, rfl⟩, ⟨has, rfl⟩, rfl⟩

/-- A map that can fail fails at the first element that it fails at. -/
theorem mapM_eq_error_iff {f : α → Except ε β} {error : ε} : ∀ {as : List α},
    as.mapM f = .error error ↔
      ∃ before a after, as = before ++ a :: after ∧ (∀ b ∈ before, ∃ c, f b = .ok c) ∧
        f a = .error error
  | [] => by simp [pure, Except.pure]
  | a :: as => by
    rw [List.mapM_cons]
    cases ha : f a with
    | error cause =>
      constructor
      · intro h
        cases h
        exact ⟨[], a, as, rfl, by simp, ha⟩
      · rintro ⟨_ | ⟨b, before⟩, c, after, heq, hbefore, hc⟩
        · obtain ⟨rfl, rfl⟩ := List.cons.inj heq
          rw [ha] at hc
          cases hc
          rfl
        · obtain ⟨rfl, rfl⟩ := List.cons.inj heq
          obtain ⟨d, hd⟩ := hbefore a List.mem_cons_self
          rw [ha] at hd
          cases hd
    | ok b =>
      have hrest : (Except.ok b >>= fun b => as.mapM f >>= fun bs => pure (b :: bs)) =
          (as.mapM f).map (b :: ·) := by cases as.mapM f <;> rfl
      rw [hrest, map_eq_error_iff, mapM_eq_error_iff]
      constructor
      · rintro ⟨before, c, after, rfl, hbefore, hc⟩
        refine ⟨a :: before, c, after, rfl, ?_, hc⟩
        simpa using ⟨⟨b, ha⟩, hbefore⟩
      · rintro ⟨_ | ⟨d, before⟩, c, after, heq, hbefore, hc⟩
        · obtain ⟨rfl, rfl⟩ := List.cons.inj heq
          rw [ha] at hc
          cases hc
        · obtain ⟨rfl, rfl⟩ := List.cons.inj heq
          exact ⟨before, c, after, rfl, fun d hd => hbefore d (List.mem_cons_of_mem _ hd), hc⟩

end

end RegisterMachine
