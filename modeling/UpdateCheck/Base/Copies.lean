import UpdateCheck.Base.Effects

/-!
# Programs that only copy

A program that makes copies and changes nothing else is described by what it computes and by how
many requests its copies make: with that many granted it ends as it should and moves the clock, and
otherwise it throws for want of memory (`Copies`). The judgements `Computes`, `Decides` and `Checks`
forget the number; each has its counted counterpart here, with a rule for each way to build a
program.
-/

namespace UpdateCheck

namespace Ledger

/-- The ledger after requests that acquired nothing. -/
def advance (L : Ledger) (n : Nat) : Ledger := { L with clock := L.clock + n }

/-- The next requests are granted. -/
def GrantsNext (L : Ledger) (n : Nat) : Prop := ∀ i < n, L.grant (L.clock + i) = true

theorem advance_advance (L : Ledger) (n k : Nat) : (L.advance n).advance k = L.advance (n + k) := by
  simp only [advance, Nat.add_assoc]

theorem grantsNext_zero (L : Ledger) : L.GrantsNext 0 := fun i hi => absurd hi (Nat.not_lt_zero i)

theorem grantsNext_one (L : Ledger) : L.GrantsNext 1 ↔ L.grant L.clock = true := by
  constructor
  · intro h
    exact h 0 Nat.zero_lt_one
  · intro h i hi
    obtain rfl : i = 0 := by omega
    exact h

theorem grantsNext_add (L : Ledger) (n k : Nat) :
    L.GrantsNext (n + k) ↔ L.GrantsNext n ∧ (L.advance n).GrantsNext k := by
  constructor
  · intro h
    refine ⟨fun i hi => h i (by omega), fun i hi => ?_⟩
    have hnext := h (n + i) (by omega)
    rwa [← Nat.add_assoc] at hnext
  · intro h i hi
    by_cases hin : i < n
    · exact h.1 i hin
    · have hnext := h.2 (i - n) (by omega)
      have hsum : L.clock + n + (i - n) = L.clock + i := by omega
      rwa [advance, hsum] at hnext

theorem AllGranted.grantsNext {L : Ledger} (h : L.AllGranted) (n : Nat) : L.GrantsNext n :=
  fun _ _ => h _

end Ledger

section Copies

variable {ε σ α β : Type} [Exhaustible ε]

/-- The program makes `n` requests and computes `r`, unless one of the requests is refused. -/
def Copies (n : Nat) (m : Prog ε σ α) (r : Except ε α) : Prop :=
  ∀ x L, (L.GrantsNext n → m.exec x L = (r, x, L.advance n)) ∧
    (¬ L.GrantsNext n → ∃ k, m.exec x L = (.error Exhaustible.badAlloc, x, L.advance k))

namespace Copies

theorem pure {a : α} : Copies 0 (Pure.pure a : Prog ε σ α) (.ok a) :=
  fun _ L => ⟨fun _ => rfl, fun h => absurd L.grantsNext_zero h⟩

theorem throw {e : ε} : Copies 0 (MonadExcept.throw e : Prog ε σ α) (.error e) :=
  fun _ L => ⟨fun _ => rfl, fun h => absurd L.grantsNext_zero h⟩

theorem request :
    Copies 1 (UpdateCheck.request Exhaustible.badAlloc : Prog ε σ Unit) (.ok ()) := by
  intro x L
  rw [L.grantsNext_one]
  unfold UpdateCheck.request
  rw [exec_of]
  constructor
  · intro h
    rw [if_pos h]
    rfl
  · intro h
    rw [if_neg h]
    exact ⟨1, rfl⟩

theorem bind {n k : Nat} {m : Prog ε σ α} {a : α} {f : α → Prog ε σ β} {r : Except ε β}
    (hm : Copies n m (.ok a)) (hf : Copies k (f a) r) : Copies (n + k) (m >>= f) r := by
  intro x L
  rw [L.grantsNext_add, exec_bind]
  obtain ⟨hgranted, hrefused⟩ := hm x L
  by_cases hn : L.GrantsNext n
  · rw [hgranted hn, ← L.advance_advance n k]
    constructor
    · intro h
      exact (hf x (L.advance n)).1 h.2
    · intro h
      obtain ⟨j, hj⟩ := (hf x (L.advance n)).2 fun hk => h ⟨hn, hk⟩
      exact ⟨n + j, by rw [← L.advance_advance n j]; exact hj⟩
  · constructor
    · intro h
      exact absurd h.1 hn
    · intro _
      obtain ⟨j, hj⟩ := hrefused hn
      exact ⟨j, by rw [hj]⟩

/-- A program without requests in front of another. -/
theorem bind_zero {n : Nat} {m : Prog ε σ α} {a : α} {f : α → Prog ε σ β} {r : Except ε β}
    (hm : Copies 0 m (.ok a)) (hf : Copies n (f a) r) : Copies n (m >>= f) r := by
  rw [← Nat.zero_add n]
  exact hm.bind hf

theorem copied {v : α} (n : Nat) :
    Copies n (UpdateCheck.copied Exhaustible.badAlloc v n : Prog ε σ α) (.ok v) := by
  induction n with
  | zero => exact pure
  | succ n ih =>
    have hcopies := bind (f := fun _ => UpdateCheck.copied Exhaustible.badAlloc v n) request ih
    rw [Nat.add_comm] at hcopies
    exact hcopies

theorem bind_error {n : Nat} {m : Prog ε σ α} {e : ε} {f : α → Prog ε σ β}
    (hm : Copies n m (.error e)) : Copies n (m >>= f) (.error e) := by
  intro x L
  rw [exec_bind]
  obtain ⟨hgranted, hrefused⟩ := hm x L
  constructor
  · intro h
    rw [hgranted h]
  · intro h
    obtain ⟨j, hj⟩ := hrefused h
    exact ⟨j, by rw [hj]⟩

/-- A program without requests ends as it should. -/
theorem bind_attempt {m : Prog ε σ α} {r : Except ε α} {f : Except ε α → Prog ε σ β}
    {P : σ → Ledger → Prop} {Q : β → σ → Ledger → Prop} {E : ε → σ → Ledger → Prop}
    (hm : Copies 0 m r) (hf : Triple P (f r) Q E) : Triple P (UpdateCheck.attempt m >>= f) Q E := by
  intro x L hx
  rw [exec_bind, UpdateCheck.attempt, exec_of, (hm x L).1 L.grantsNext_zero]
  exact hf x L hx

/-- Without the number of its requests. -/
theorem computes {n : Nat} {m : Prog ε σ α} {r : Except ε α} (h : Copies n m r) :
    Computes m r := by
  intro x L
  by_cases hn : L.GrantsNext n
  · exact ⟨r, _, (h x L).1 hn, rfl, Or.inl rfl⟩
  · obtain ⟨k, hk⟩ := (h x L).2 hn
    exact ⟨_, _, hk, rfl, Or.inr ⟨rfl, fun hall => hn (hall.grantsNext n)⟩⟩

end Copies

/-- The program decides `φ` with `n` requests. -/
def DecidesWith (n : Nat) (m : Prog ε σ Bool) (φ : Prop) : Prop :=
  ∃ b, Copies n m (.ok b) ∧ (b = true ↔ φ)

namespace DecidesWith

theorem pure {b : Bool} : DecidesWith 0 (Pure.pure b : Prog ε σ Bool) (b = true) :=
  ⟨b, Copies.pure, Iff.rfl⟩

theorem bind {n k : Nat} {m : Prog ε σ α} {a : α} {f : α → Prog ε σ Bool} {φ : Prop}
    (hm : Copies n m (.ok a)) (hf : DecidesWith k (f a) φ) : DecidesWith (n + k) (m >>= f) φ := by
  obtain ⟨b, hb, hφ⟩ := hf
  exact ⟨b, hm.bind hb, hφ⟩

/-- `if (!c) return false;` -/
theorem guard {c : Bool} {n : Nat} {m : Prog ε σ Bool} {φ : Prop}
    (h : c = true → DecidesWith n m φ) :
    DecidesWith (if c then n else 0) (if (!c) = true then Pure.pure false else m)
      (c = true ∧ φ) := by
  cases c with
  | true =>
    obtain ⟨b, hb, hφ⟩ := h rfl
    exact ⟨b, hb, by simpa using hφ⟩
  | false => exact ⟨false, Copies.pure, by simp⟩

theorem congr {n k : Nat} {m : Prog ε σ Bool} {φ ψ : Prop} (h : DecidesWith n m φ) (hn : n = k)
    (hiff : φ ↔ ψ) : DecidesWith k m ψ := by
  obtain ⟨b, hb, hφ⟩ := h
  exact ⟨b, hn ▸ hb, hφ.trans hiff⟩

theorem decides {n : Nat} {m : Prog ε σ Bool} {φ : Prop} (h : DecidesWith n m φ) : Decides m φ := by
  obtain ⟨b, hb, hφ⟩ := h
  exact ⟨b, hb.computes, hφ⟩

end DecidesWith

/-- With `n` requests the program ends normally if `φ` holds and throws `e` otherwise. -/
def ChecksWith (n : Nat) (m : Prog ε σ Unit) (e : ε) (φ : Prop) : Prop :=
  (φ → Copies n m (.ok ())) ∧ (¬ φ → Copies n m (.error e))

namespace ChecksWith

theorem throwIf {c : Bool} {e : ε} :
    ChecksWith 0 (UpdateCheck.throwIf c e : Prog ε σ Unit) e (c = false) := by
  cases c with
  | true => exact ⟨fun h => (Bool.noConfusion h), fun _ => Copies.throw⟩
  | false => exact ⟨fun _ => Copies.pure, fun h => absurd rfl h⟩

theorem throwIf_bind {c : Bool} {e : ε} {n : Nat} {φ : Prop} {f : Unit → Prog ε σ Unit}
    (h : c = false → ChecksWith n (f ()) e φ) :
    ChecksWith (if c then 0 else n) (UpdateCheck.throwIf c e >>= f) e (c = false ∧ φ) := by
  cases c with
  | true => exact ⟨fun h => (Bool.noConfusion h.1), fun _ => .bind_error .throw⟩
  | false =>
    have hrest := h rfl
    constructor
    · intro hφ
      exact Nat.zero_add n ▸ Copies.pure.bind (hrest.1 hφ.2)
    · intro hφ
      exact Nat.zero_add n ▸ Copies.pure.bind (hrest.2 fun hp => hφ ⟨rfl, hp⟩)

theorem bind {n k : Nat} {m : Prog ε σ α} {a : α} {f : α → Prog ε σ Unit} {e : ε} {φ : Prop}
    (hm : Copies n m (.ok a)) (hf : ChecksWith k (f a) e φ) :
    ChecksWith (n + k) (m >>= f) e φ :=
  ⟨fun h => hm.bind (hf.1 h), fun h => hm.bind (hf.2 h)⟩

/-- `if (!check()) throw e;` -/
theorem throwUnless {n k : Nat} {m : Prog ε σ Bool} {e : ε} {φ ψ : Prop} [Decidable φ]
    {f : Unit → Prog ε σ Unit} (hm : DecidesWith n m φ) (h : φ → ChecksWith k (f ()) e ψ) :
    ChecksWith (n + if φ then k else 0)
      (m >>= fun b => UpdateCheck.throwIf (!b) e >>= f) e (φ ∧ ψ) := by
  obtain ⟨b, hb, hφ⟩ := hm
  cases b with
  | true =>
    have hp := hφ.mp rfl
    rw [if_pos hp, ← Nat.zero_add k]
    constructor
    · intro hψ
      exact hb.bind (Copies.pure.bind ((h hp).1 hψ.2))
    · intro hψ
      exact hb.bind (Copies.pure.bind ((h hp).2 fun hp' => hψ ⟨hp, hp'⟩))
  | false =>
    have hp : ¬ φ := fun hp => Bool.false_ne_true (hφ.mpr hp)
    rw [if_neg hp]
    constructor
    · intro hψ
      exact absurd hψ.1 hp
    · intro _
      exact hb.bind (.bind_error .throw)

theorem congr {n k : Nat} {m : Prog ε σ Unit} {e : ε} {φ ψ : Prop} (h : ChecksWith n m e φ)
    (hn : n = k) (hiff : φ ↔ ψ) : ChecksWith k m e ψ := by
  subst hn
  exact ⟨fun hψ => h.1 (hiff.mpr hψ), fun hψ => h.2 (mt hiff.mp hψ)⟩

theorem checks {n : Nat} {m : Prog ε σ Unit} {e : ε} {φ : Prop} (h : ChecksWith n m e φ) :
    Checks m e φ :=
  ⟨fun hφ => (h.1 hφ).computes, fun hφ => (h.2 hφ).computes⟩

end ChecksWith

end Copies

end UpdateCheck
