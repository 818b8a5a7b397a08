import Mathlib.Data.List.Forall2
import Mathlib.Order.Lattice
import Mathlib.Tactic.Common

/-!
# Selecting from a list

The first element with a property does not depend on the order of the list where no two elements
have it (`find?_perm`), and the searches through two lists that are related element by element
end at related elements (`forall₂_find?`).

`runMax k x ys` walks the list `ys` with the best element so far, starting from `x`, and replaces
it by each element that is strictly better under `k`. The key of the result is the greatest key
met (`le_key_runMax`, `key_le_runMax_of_mem`) and grows with the start and with the elements
(`key_runMax_mono`); of the start nothing is left once an element beats it
(`runMax_eq_of_beaten`).
-/

namespace UpdateCheck

/-! ## The first match -/

section Find

variable {α β : Type*} {p : α → Bool} {q : β → Bool}

theorem find?_perm {xs ys : List α} (h : xs.Perm ys)
    (hp : xs.Pairwise fun x y => ¬ (p x = true ∧ p y = true)) : xs.find? p = ys.find? p := by
  induction h with
  | nil => rfl
  | cons x _ ih => rw [List.find?_cons, List.find?_cons, ih (List.pairwise_cons.mp hp).2]
  | swap x y xs =>
    have hxy := (List.pairwise_cons.mp hp).1 x List.mem_cons_self
    simp only [List.find?_cons]
    cases hx : p x <;> cases hy : p y <;> simp_all
  | trans h _ ih ih' =>
    rw [ih hp, ih' ((h.pairwise_iff fun hab hba => hab hba.symm).mp hp)]

theorem forall₂_find? {R : α → β → Prop} {xs : List α} {ys : List β} (h : List.Forall₂ R xs ys)
    (hpq : ∀ x y, R x y → p x = q y) :
    (xs.find? p = none ∧ ys.find? q = none) ∨
      ∃ x y, xs.find? p = some x ∧ ys.find? q = some y ∧ R x y := by
  induction h with
  | nil => exact Or.inl ⟨rfl, rfl⟩
  | @cons x y xs ys hxy _ ih =>
    rw [List.find?_cons, List.find?_cons, hpq x y hxy]
    cases q y with
    | true => exact Or.inr ⟨x, y, rfl, rfl, hxy⟩
    | false => exact ih

theorem forall₂_takeWhile {R : α → β → Prop} {xs : List α} {ys : List β}
    (h : List.Forall₂ R xs ys) (hpq : ∀ x y, R x y → p x = q y) :
    List.Forall₂ R (xs.takeWhile p) (ys.takeWhile q) := by
  induction h with
  | nil => exact .nil
  | @cons x y xs ys hxy _ ih =>
    rw [List.takeWhile_cons, List.takeWhile_cons, hpq x y hxy]
    split_ifs
    · exact .cons hxy ih
    · exact .nil

theorem forall₂_forall_iff {R : α → β → Prop} {P : α → Prop} {Q : β → Prop} {xs : List α}
    {ys : List β} (h : List.Forall₂ R xs ys) (hPQ : ∀ x y, R x y → (P x ↔ Q y)) :
    (∀ x ∈ xs, P x) ↔ ∀ y ∈ ys, Q y := by
  induction h with
  | nil => exact iff_of_true (List.forall_mem_nil _) (List.forall_mem_nil _)
  | @cons x y xs ys hxy _ ih =>
    rw [List.forall_mem_cons, List.forall_mem_cons, hPQ x y hxy, ih]

end Find

/-! ## Running maxima -/

section RunMax

variable {α β : Type*} [LinearOrder β] (k : α → β)

/-- The best element so far, replaced by each strictly better one. -/
def runMax (x : α) : List α → α
  | [] => x
  | y :: ys => runMax (if k x < k y then y else x) ys

variable {k}

theorem runMax_append (x : α) (ys zs : List α) :
    runMax k x (ys ++ zs) = runMax k (runMax k x ys) zs := by
  induction ys generalizing x with
  | nil => rfl
  | cons y ys ih => exact ih _

theorem runMax_mem (x : α) (ys : List α) : runMax k x ys = x ∨ runMax k x ys ∈ ys := by
  induction ys generalizing x with
  | nil => exact Or.inl rfl
  | cons y ys ih =>
    rw [runMax]
    rcases ih (if k x < k y then y else x) with h | h
    · split at h
      · rename_i hlt
        rw [if_pos hlt, h]
        exact Or.inr List.mem_cons_self
      · rename_i hlt
        rw [if_neg hlt, h]
        exact Or.inl rfl
    · exact Or.inr (List.mem_cons_of_mem _ h)

theorem le_key_runMax (x : α) (ys : List α) : k x ≤ k (runMax k x ys) := by
  induction ys generalizing x with
  | nil => exact le_rfl
  | cons y ys ih =>
    rw [runMax]
    split
    · rename_i hlt
      exact hlt.le.trans (ih y)
    · exact ih x

theorem key_le_runMax_of_mem (x : α) {ys : List α} {y : α} (hy : y ∈ ys) :
    k y ≤ k (runMax k x ys) := by
  induction ys generalizing x with
  | nil => cases hy
  | cons z ys ih =>
    rw [runMax]
    rcases List.mem_cons.mp hy with rfl | hy
    · split
      · exact le_key_runMax _ _
      · rename_i hlt
        exact (not_lt.mp hlt).trans (le_key_runMax _ _)
    · exact ih _ hy

/-- Where nothing is strictly better than the start, the start itself comes back. -/
theorem runMax_eq_start {x : α} {ys : List α} (h : ∀ y ∈ ys, k y ≤ k x) :
    runMax k x ys = x := by
  induction ys with
  | nil => rfl
  | cons y ys ih =>
    rw [runMax, if_neg (not_lt.mpr (h y List.mem_cons_self))]
    exact ih fun z hz => h z (List.mem_cons_of_mem _ hz)

/-- A greater start and more elements give a greater running maximum. -/
theorem key_runMax_mono {x x' : α} {ys ys' : List α} (hx : k x ≤ k x')
    (hys : ∀ y ∈ ys, y ∈ ys') : k (runMax k x ys) ≤ k (runMax k x' ys') := by
  rcases runMax_mem (k := k) x ys with h | h
  · rw [h]
    exact hx.trans (le_key_runMax _ _)
  · exact key_le_runMax_of_mem x' (hys _ h)

/-- The key of the result depends on the keys only. -/
theorem key_runMax_congr {x x' : α} {ys ys' : List α} (hx : k x = k x')
    (hys : List.Forall₂ (fun y y' => k y = k y') ys ys') :
    k (runMax k x ys) = k (runMax k x' ys') := by
  induction hys generalizing x x' with
  | nil => exact hx
  | @cons y y' ys ys' hy _ ih =>
    rw [runMax, runMax, hx, hy]
    split_ifs
    · exact ih hy
    · exact ih hx

/-- Two starts that one listed element beats lead to the same element. -/
theorem runMax_eq_of_beaten {x x' : α} {ys : List α} (h : ∃ y ∈ ys, k x < k y ∧ k x' < k y) :
    runMax k x ys = runMax k x' ys := by
  induction ys generalizing x x' with
  | nil =>
    obtain ⟨y, hy, -⟩ := h
    cases hy
  | cons z ys ih =>
    obtain ⟨y, hy, hx, hx'⟩ := h
    rw [runMax, runMax]
    rcases List.mem_cons.mp hy with rfl | hy
    · rw [if_pos hx, if_pos hx']
    · split_ifs with hz hz' hz'
      · rfl
      · exact ih ⟨y, hy, (not_lt.mp hz').trans_lt hx', hx'⟩
      · exact ih ⟨y, hy, hx, (not_lt.mp hz).trans_lt hx⟩
      · exact ih ⟨y, hy, hx, hx'⟩

end RunMax

end UpdateCheck
