import UpdateCheck.Base.Copies

/-!
# Ownership of blocks

`Owes live` says of a ledger that the blocks acquired so far are the live ones and the released ones:
who owes the live ones has to release them (`Owes.balanced_iff`).

Where it depends on the requests whether a program keeps this up, its requests are listed in their
order, each with a tag that tells who makes it. `refusal` is the tag of the first one that is refused.
`Due tags r live` is the state in front of the requests `tags`, of which `r` will be the first to be
refused; there is a rule for each program that makes requests, with the case that `r` is its own.
-/

namespace UpdateCheck

variable {κ : Type}

/-- The block behind a pointer, where it is not null. -/
def Ptr.ids {α : Type} (p : Ptr α) : List Nat := (p.map Block.id).toList

@[simp] theorem Ptr.ids_none {α : Type} : Ptr.ids (none : Ptr α) = [] := rfl

@[simp] theorem Ptr.ids_some {α : Type} (b : Block α) : Ptr.ids (some b) = [b.id] := rfl

/-- The tag of the first of some requests that is refused. -/
def refusal (grant : Nat → Bool) (clock : Nat) : List κ → Option κ
  | [] => none
  | tag :: tags => if grant clock then refusal grant (clock + 1) tags else some tag

namespace Ledger

/-- The acquired blocks are the live ones and the released ones, and no block was acquired twice. -/
structure Owes (live : List Nat) (L : Ledger) : Prop where
  blocks : L.acquired.Perm (live ++ L.released)
  nodup : L.acquired.Nodup
  fresh : ∀ i ∈ L.acquired, i < L.clock

namespace Owes

variable {live live' : List Nat} {L : Ledger}

theorem start (grant : Nat → Bool) : Owes [] (start grant) :=
  ⟨.nil, List.nodup_nil, fun i hi => by cases hi⟩

theorem perm (h : Owes live L) (hperm : live.Perm live') : Owes live' L :=
  ⟨h.blocks.trans (hperm.append_right _), h.nodup, h.fresh⟩

theorem advance (h : Owes live L) (n : Nat) : Owes live (L.advance n) :=
  ⟨h.blocks, h.nodup, fun i hi => Nat.lt_of_lt_of_le (h.fresh i hi) (Nat.le_add_right _ n)⟩

theorem acquire (h : Owes live L) : Owes (L.clock :: live)
    { L with clock := L.clock + 1, acquired := L.clock :: L.acquired } := by
  refine ⟨h.blocks.cons _, List.nodup_cons.mpr ⟨?_, h.nodup⟩, ?_⟩
  · intro hmem
    exact Nat.lt_irrefl _ (h.fresh _ hmem)
  · intro i hi
    rcases List.mem_cons.mp hi with rfl | hi
    · exact Nat.lt_succ_self _
    · exact Nat.lt_succ_of_lt (h.fresh i hi)

theorem release {i : Nat} (h : Owes (i :: live) L) :
    Owes live { L with released := i :: L.released } :=
  ⟨h.blocks.trans List.perm_middle.symm, h.nodup, h.fresh⟩

/-- All blocks are released where none is live. -/
theorem balanced_iff (h : Owes live L) : L.Balanced ↔ live = [] := by
  constructor
  · intro hbalanced
    have hlen := h.blocks.length_eq
    have hlen' := hbalanced.length_eq
    rw [List.length_append] at hlen
    exact List.length_eq_zero_iff.mp (by omega)
  · intro hlive
    have hblocks := h.blocks
    rw [hlive, List.nil_append] at hblocks
    exact hblocks.symm

end Owes

/-- `Owes` on a ledger with the answers `grant`. -/
def OwesUnder (grant : Nat → Bool) (live : List Nat) (L : Ledger) : Prop :=
  Owes live L ∧ L.grant = grant

theorem OwesUnder.perm {grant : Nat → Bool} {live live' : List Nat} {L : Ledger}
    (h : OwesUnder grant live L) (hperm : live.Perm live') : OwesUnder grant live' L :=
  ⟨h.1.perm hperm, h.2⟩

/-- The requests `tags` are still to be made, and `r` tells which of them is refused first. -/
def Due (tags : List κ) (r : Option κ) (live : List Nat) (L : Ledger) : Prop :=
  Owes live L ∧ refusal L.grant L.clock tags = r

theorem Due.perm {tags : List κ} {r : Option κ} {live live' : List Nat} {L : Ledger}
    (h : Due tags r live L) (hperm : live.Perm live') : Due tags r live' L :=
  ⟨h.1.perm hperm, h.2⟩

theorem refusal_of_all {grant : Nat → Bool} (h : ∀ n, grant n = true) (clock : Nat)
    (tags : List κ) : refusal grant clock tags = none := by
  induction tags generalizing clock with
  | nil => rfl
  | cons tag tags ih =>
    rw [refusal, if_pos (h clock)]
    exact ih (clock + 1)

theorem refusal_replicate_of_grants {L : Ledger} {n : Nat} (h : L.GrantsNext n) (tag : κ)
    (tags : List κ) : refusal L.grant L.clock (List.replicate n tag ++ tags) =
      refusal L.grant (L.clock + n) tags := by
  induction n generalizing L with
  | zero => rfl
  | succ n ih =>
    have hfirst : L.grant L.clock = true := h 0 (Nat.zero_lt_succ n)
    have hrest := ih (L := L.advance 1) fun i hi => by
      have hnext := h (i + 1) (by omega)
      rwa [Nat.add_comm i, ← Nat.add_assoc] at hnext
    rw [List.replicate_succ, List.cons_append, refusal, if_pos hfirst, Nat.add_comm n,
      ← Nat.add_assoc]
    exact hrest

theorem refusal_replicate_of_not_grants {L : Ledger} {n : Nat} (h : ¬ L.GrantsNext n) (tag : κ)
    (tags : List κ) : refusal L.grant L.clock (List.replicate n tag ++ tags) = some tag := by
  induction n generalizing L with
  | zero => exact absurd L.grantsNext_zero h
  | succ n ih =>
    rw [List.replicate_succ, List.cons_append, refusal]
    split
    · rename_i hfirst
      refine ih (L := L.advance 1) fun hrest => h ?_
      rw [Nat.add_comm, L.grantsNext_add, L.grantsNext_one]
      exact ⟨hfirst, hrest⟩
    · rfl

end Ledger

/-! ## Rules -/

section Rules

open Ledger

variable {ε σ α β : Type} {tag : κ} {tags : List κ} {r : Option κ} {live : List Nat}
  {P : σ → Prop} {E : ε → σ → Ledger → Prop} {Q : β → σ → Ledger → Prop}

namespace Copies

variable [Exhaustible ε] {n : Nat} {m : Prog ε σ α}

/-- The copies are granted, or one of them is the first request that is refused. -/
theorem exec_due {x : Except ε α} (hm : Copies n m x) {L : Ledger}
    (h : Due (List.replicate n tag ++ tags) r live L) (s : σ) :
    (∃ L', m.exec s L = (x, s, L') ∧ Due tags r live L') ∨
      (r = some tag ∧ ∃ L', m.exec s L = (.error Exhaustible.badAlloc, s, L') ∧ Owes live L') := by
  obtain ⟨howes, hr⟩ := h
  obtain ⟨hgranted, hrefused⟩ := hm s L
  by_cases hn : L.GrantsNext n
  · rw [refusal_replicate_of_grants hn] at hr
    exact Or.inl ⟨_, hgranted hn, howes.advance n, hr⟩
  · rw [refusal_replicate_of_not_grants hn] at hr
    obtain ⟨k, hk⟩ := hrefused hn
    exact Or.inr ⟨hr.symm, _, hk, howes.advance k⟩

theorem bind_due {a : α} {f : α → Prog ε σ β} (hm : Copies n m (.ok a))
    (hf : Triple (Within (Due tags r live) P) (f a) Q E)
    (hrefused : r = some tag → ∀ s L, P s → Owes live L → E Exhaustible.badAlloc s L) :
    Triple (Within (Due (List.replicate n tag ++ tags) r live) P) (m >>= f) Q E := by
  intro s L hstate
  obtain ⟨hP, hdue⟩ := hstate
  rw [exec_bind]
  rcases hm.exec_due hdue s with ⟨L', hexec, hdue'⟩ | ⟨hr, L', hexec, howes⟩
  · rw [hexec]
    exact hf s L' ⟨hP, hdue'⟩
  · rw [hexec]
    exact hrefused hr s L' hP howes

theorem bind_error_due {e : ε} {f : α → Prog ε σ β} (hm : Copies n m (.error e))
    (hthrown : ∀ s L, P s → Due tags r live L → E e s L)
    (hrefused : r = some tag → ∀ s L, P s → Owes live L → E Exhaustible.badAlloc s L) :
    Triple (Within (Due (List.replicate n tag ++ tags) r live) P) (m >>= f) Q E := by
  intro s L hstate
  obtain ⟨hP, hdue⟩ := hstate
  rw [exec_bind]
  rcases hm.exec_due hdue s with ⟨L', hexec, hdue'⟩ | ⟨hr, L', hexec, howes⟩
  · rw [hexec]
    exact hthrown s L' hP hdue'
  · rw [hexec]
    exact hrefused hr s L' hP howes

/-- A caught refusal is not followed by requests of the list. -/
theorem bind_attempt_due {x : Except ε α} {f : Except ε α → Prog ε σ β} (hm : Copies n m x)
    (hf : Triple (Within (Due tags r live) P) (f x) Q E)
    (hrefused : r = some tag → Triple (Within (Owes live) P)
      (f (.error Exhaustible.badAlloc)) Q E) :
    Triple (Within (Due (List.replicate n tag ++ tags) r live) P)
      (UpdateCheck.attempt m >>= f) Q E := by
  intro s L hstate
  obtain ⟨hP, hdue⟩ := hstate
  rw [exec_bind, UpdateCheck.attempt, exec_of]
  rcases hm.exec_due hdue s with ⟨L', hexec, hdue'⟩ | ⟨hr, L', hexec, howes⟩
  · rw [hexec]
    exact hf s L' ⟨hP, hdue'⟩
  · rw [hexec]
    exact hrefused hr s L' ⟨hP, howes⟩

end Copies

namespace Triple

/-- A granted block is live, a refused one is the first that was refused. -/
theorem bind_malloc_due {v : α} {f : Ptr α → Prog ε σ β}
    (hsome : ∀ b : Block α, b.val = v →
      Triple (Within (Due tags r (b.id :: live)) P) (f (some b)) Q E)
    (hnone : r = some tag → Triple (Within (Owes live) P) (f none) Q E) :
    Triple (Within (Due (tag :: tags) r live) P) (UpdateCheck.malloc v >>= f) Q E := by
  intro x L hstate
  obtain ⟨hP, howes, hr⟩ := hstate
  rw [exec_bind, UpdateCheck.malloc, exec_of]
  rw [refusal] at hr
  cases hg : L.grant L.clock with
  | true =>
    rw [if_pos hg] at hr
    exact hsome ⟨L.clock, v⟩ rfl x _ ⟨hP, howes.acquire, hr⟩
  | false =>
    rw [hg] at hr
    exact hnone hr.symm x (L.advance 1) ⟨hP, howes.advance 1⟩

/-- A released block is no longer live. -/
theorem bind_free_due {b : Block α} {f : Unit → Prog ε σ β}
    (hf : Triple (Within (Due tags r live) P) (f ()) Q E) :
    Triple (Within (Due tags r (b.id :: live)) P) (UpdateCheck.free (some b) >>= f) Q E := by
  intro x L hstate
  obtain ⟨hP, howes, hr⟩ := hstate
  rw [exec_bind, UpdateCheck.free, exec_of]
  exact hf x _ ⟨hP, howes.release, hr⟩

/-! ### Requests without a tag -/

theorem bind_malloc_owes {v : α} {f : Ptr α → Prog ε σ β}
    (hsome : ∀ b : Block α, b.val = v → Triple (Within (Owes (b.id :: live)) P) (f (some b)) Q E)
    (hnone : Triple (Within (Owes live) P) (f none) Q E) :
    Triple (Within (Owes live) P) (UpdateCheck.malloc v >>= f) Q E := by
  intro x L hstate
  obtain ⟨hP, howes⟩ := hstate
  rw [exec_bind, UpdateCheck.malloc, exec_of]
  cases hg : L.grant L.clock with
  | true => exact hsome ⟨L.clock, v⟩ rfl x _ ⟨hP, howes.acquire⟩
  | false => exact hnone x (L.advance 1) ⟨hP, howes.advance 1⟩

/-- A granted `realloc` puts a new block in the place of the old one. -/
theorem bind_realloc_owes {p : Ptr α} {v : α} {f : Ptr α → Prog ε σ β}
    (hsome : ∀ b : Block α, b.val = v → Triple (Within (Owes (b.id :: live)) P) (f (some b)) Q E)
    (hnone : Triple (Within (Owes (p.ids ++ live)) P) (f none) Q E) :
    Triple (Within (Owes (p.ids ++ live)) P) (UpdateCheck.realloc p v >>= f) Q E := by
  intro x L hstate
  obtain ⟨hP, howes⟩ := hstate
  rw [exec_bind, UpdateCheck.realloc, exec_of]
  cases hg : L.grant L.clock with
  | true =>
    refine hsome ⟨L.clock, v⟩ rfl x _ ⟨hP, ?_⟩
    cases p with
    | none => exact howes.acquire
    | some old => exact (howes.acquire.perm (.swap _ _ _)).release
  | false => exact hnone x (L.advance 1) ⟨hP, howes.advance 1⟩

theorem bind_free_owes {p : Ptr α} {f : Unit → Prog ε σ β}
    (hf : Triple (Within (Owes live) P) (f ()) Q E) :
    Triple (Within (Owes (p.ids ++ live)) P) (UpdateCheck.free p >>= f) Q E := by
  intro x L hstate
  obtain ⟨hP, howes⟩ := hstate
  rw [exec_bind, UpdateCheck.free, exec_of]
  cases p with
  | none => exact hf x L ⟨hP, howes⟩
  | some b => exact hf x _ ⟨hP, howes.release⟩

end Triple

theorem free_owes {p : Ptr α} :
    Triple (fun _ L => Owes (p.ids ++ live) L) (free p : Prog ε σ Unit)
      (fun _ _ L => Owes live L) (fun _ _ _ => False) := by
  apply Triple.free
  · rintro rfl x L h
    exact h
  · rintro b rfl x L h
    exact h.release

/-- A release of blocks of its own leaves the object and the answers as they are. -/
theorem Releases.bind_owes {grant : Nat → Bool} {own : List Nat} {m : Prog ε σ Unit}
    {f : Unit → Prog ε σ β} (hm : Releases m)
    (howes : Triple (fun _ L => Owes (own ++ live) L) m (fun _ _ L => Owes live L)
      fun _ _ _ => False)
    (hf : Triple (Within (OwesUnder grant live) P) (f ()) Q E) :
    Triple (Within (OwesUnder grant (own ++ live)) P) (m >>= f) Q E := by
  intro x L hstate
  obtain ⟨hx, hL, hgrant⟩ := hstate
  obtain ⟨released, hexec⟩ := hm x L
  have hpost := howes x L hL
  rw [hexec] at hpost
  rw [exec_bind, hexec]
  exact hf x _ ⟨hx, hpost, hgrant⟩

end Rules

end UpdateCheck
