import Mathlib.Tactic.Common
import Mathlib.Data.List.Perm.Basic

/-!
# Programs with exceptions, an object under construction and a heap ledger

A `Prog ε σ α` computes an `α` or throws an `ε`. It works on one object of type `σ`, the target
of an out pointer, whose changes survive an exception, and on a `Ledger`, which answers every
allocation request and records the blocks acquired and released.

A pointer carries the contents of the block it owns next to the block's number (`Ptr`); a block
is released by its number, so a pointer that was released keeps its number and the ledger shows
a second release.

`Triple P m Q E` is the usual judgement: from `P`, the program `m` ends normally in `Q` or throws
in `E`. There is a rule for each way to build a program.
-/

namespace UpdateCheck

/-! ## The ledger -/

/-- The heap as a client sees it: which requests are granted, how many were made, and the
numbers of the blocks acquired and released, newest first. -/
structure Ledger where
  grant : Nat → Bool
  clock : Nat
  acquired : List Nat
  released : List Nat

namespace Ledger

/-- A ledger before the first request. -/
def start (grant : Nat → Bool) : Ledger := ⟨grant, 0, [], []⟩

def AllGranted (L : Ledger) : Prop := ∀ n, L.grant n = true

/-- Every acquired block is released exactly once, and nothing else is released. -/
def Balanced (L : Ledger) : Prop := L.released.Perm L.acquired

end Ledger

/-- A block of the heap: its number and its contents. -/
structure Block (α : Type) where
  id : Nat
  val : α
  deriving DecidableEq

/-- A pointer to a block; `none` is the null pointer. -/
abbrev Ptr (α : Type) := Option (Block α)

/-- The contents behind a pointer, where it is not null. -/
def Ptr.val? {α : Type} (p : Ptr α) : Option α := p.map Block.val

/-! ## Programs -/

/-- A program over an object `σ` and the ledger. -/
abbrev Prog (ε σ α : Type) := ExceptT ε (StateM (σ × Ledger)) α

section Prog

variable {ε σ τ α β : Type}

def Prog.exec (m : Prog ε σ α) (x : σ) (L : Ledger) : Except ε α × σ × Ledger :=
  Id.run (StateT.run (ExceptT.run m) (x, L))

/-- A program given by its effect. -/
def Prog.of (f : σ → Ledger → Except ε α × σ × Ledger) : Prog ε σ α :=
  ExceptT.mk (fun s => f s.1 s.2)

/-- `malloc` (or `calloc`) of a block with the given contents; null where the request is
refused. -/
def malloc (v : α) : Prog ε σ (Ptr α) :=
  .of fun x L =>
    if L.grant L.clock then
      (.ok (some ⟨L.clock, v⟩), x,
        { L with clock := L.clock + 1, acquired := L.clock :: L.acquired })
    else (.ok none, x, { L with clock := L.clock + 1 })

/-- `free`: null is ignored. -/
def free (p : Ptr α) : Prog ε σ Unit :=
  .of fun x L =>
    match p with
    | none => (.ok (), x, L)
    | some b => (.ok (), x, { L with released := b.id :: L.released })

/-- `realloc`: a block with the given contents in the place of the old one; null where the
request is refused, and the old block is kept. -/
def realloc (p : Ptr α) (v : α) : Prog ε σ (Ptr α) :=
  .of fun x L =>
    if L.grant L.clock then
      (.ok (some ⟨L.clock, v⟩), x,
        { L with clock := L.clock + 1, acquired := L.clock :: L.acquired,
                 released := (p.map Block.id).toList ++ L.released })
    else (.ok none, x, { L with clock := L.clock + 1 })

/-- A request of a C++ object for memory that its own destructor releases: `e` is thrown where it is
refused. -/
def request (e : ε) : Prog ε σ Unit :=
  .of fun x L =>
    (if L.grant L.clock then .ok () else .error e, x, { L with clock := L.clock + 1 })

/-- A copy of a C++ object, with the number of the requests that it makes. -/
def copied (e : ε) (v : α) : Nat → Prog ε σ α
  | 0 => pure v
  | n + 1 => do
    request e
    copied e v n

def ofExcept : Except ε α → Prog ε σ α
  | .ok a => pure a
  | .error e => throw e

/-- `if (c) throw e;` -/
def throwIf (c : Bool) (e : ε) : Prog ε σ Unit := if c then throw e else pure ()

def readObj : Prog ε σ σ := .of fun x L => (.ok x, x, L)

def modifyObj (f : σ → σ) : Prog ε σ Unit := .of fun x L => (.ok (), f x, L)

/-- `try`: run a program and hand over how it ended. -/
def attempt (m : Prog ε σ α) : Prog ε σ (Except ε α) :=
  .of fun x L => let r := m.exec x L; (.ok r.1, r.2)

def onPart (get : σ → τ) (set : τ → σ → σ) (m : Prog ε τ α) : Prog ε σ α :=
  .of fun x L => let r := m.exec (get x) L; (r.1, set r.2.1 x, r.2.2)

/-- Run a program on a local object and return it beside the result. -/
def withObj (x₀ : τ) (m : Prog ε τ α) : Prog ε σ (α × τ) :=
  .of fun x L => let r := m.exec x₀ L; (r.1.map (·, r.2.1), x, r.2.2)

@[simp] theorem exec_of (f : σ → Ledger → Except ε α × σ × Ledger) (x : σ) (L : Ledger) :
    (Prog.of f).exec x L = f x L := rfl

@[simp] theorem exec_pure (a : α) (x : σ) (L : Ledger) :
    (pure a : Prog ε σ α).exec x L = (.ok a, x, L) := rfl

@[simp] theorem exec_throw (e : ε) (x : σ) (L : Ledger) :
    (throw e : Prog ε σ α).exec x L = (.error e, x, L) := rfl

theorem exec_bind (m : Prog ε σ α) (f : α → Prog ε σ β) (x : σ) (L : Ledger) :
    (m >>= f).exec x L =
      match m.exec x L with
      | (.ok a, y, L') => (f a).exec y L'
      | (.error e, y, L') => (.error e, y, L') := by
  change (ExceptT.bindCont (fun a => f a) (m.exec x L).1) (m.exec x L).2 = _
  rcases m.exec x L with ⟨_ | a, y, L'⟩ <;> rfl

end Prog

/-! ## Triples -/

section Triple

variable {ε σ τ α β : Type}

/-- From `P` the program ends normally in `Q` or throws in `E`. -/
def Triple (P : σ → Ledger → Prop) (m : Prog ε σ α) (Q : α → σ → Ledger → Prop)
    (E : ε → σ → Ledger → Prop) : Prop :=
  ∀ x L, P x L →
    match m.exec x L with
    | (.ok a, y, L') => Q a y L'
    | (.error e, y, L') => E e y L'

variable {P P' : σ → Ledger → Prop} {Q Q' : α → σ → Ledger → Prop}
  {E E' : ε → σ → Ledger → Prop} {R : β → σ → Ledger → Prop}

namespace Triple

theorem pure {a : α} (h : ∀ x L, P x L → Q a x L) :
    Triple P (Pure.pure a : Prog ε σ α) Q E := fun x L hP => h x L hP

theorem throw {e : ε} (h : ∀ x L, P x L → E e x L) :
    Triple P (MonadExcept.throw e : Prog ε σ α) Q E := fun x L hP => h x L hP

theorem bind {m : Prog ε σ α} {f : α → Prog ε σ β} (hm : Triple P m Q E)
    (hf : ∀ a, Triple (Q a) (f a) R E) : Triple P (m >>= f) R E := by
  intro x L hP
  have h := hm x L hP
  rw [exec_bind]
  rcases hr : m.exec x L with ⟨e | a, y, L'⟩
  · rw [hr] at h
    exact h
  · rw [hr] at h
    exact hf a y L' h

theorem bind_pure {a : α} {f : α → Prog ε σ β} (h : Triple P (f a) R E) :
    Triple P (Pure.pure a >>= f) R E := fun x L hP => h x L hP

theorem conseq {m : Prog ε σ α} (h : Triple P m Q E) (hP : ∀ x L, P' x L → P x L)
    (hQ : ∀ a x L, Q a x L → Q' a x L) (hE : ∀ e x L, E e x L → E' e x L) :
    Triple P' m Q' E' := by
  intro x L hx
  have h := h x L (hP x L hx)
  rcases hr : m.exec x L with ⟨e | a, y, L'⟩
  · rw [hr] at h
    exact hE _ _ _ h
  · rw [hr] at h
    exact hQ _ _ _ h

theorem pre {m : Prog ε σ α} (h : Triple P m Q E) (hP : ∀ x L, P' x L → P x L) :
    Triple P' m Q E := h.conseq hP (fun _ _ _ => id) (fun _ _ _ => id)

theorem post {m : Prog ε σ α} (h : Triple P m Q E) (hQ : ∀ a x L, Q a x L → Q' a x L) :
    Triple P m Q' E := h.conseq (fun _ _ => id) hQ (fun _ _ _ => id)

/-- Two judgements on one program. -/
theorem and {m : Prog ε σ α} (h : Triple P m Q E) (h' : Triple P' m Q' E') :
    Triple (fun x L => P x L ∧ P' x L) m (fun a x L => Q a x L ∧ Q' a x L)
      (fun e x L => E e x L ∧ E' e x L) := by
  intro x L hstate
  have hpost := h x L hstate.1
  have hpost' := h' x L hstate.2
  rcases hr : m.exec x L with ⟨e | a, y, L'⟩
  · rw [hr] at hpost hpost'
    exact ⟨hpost, hpost'⟩
  · rw [hr] at hpost hpost'
    exact ⟨hpost, hpost'⟩

/-- A fact of the precondition that does not speak of the state is a hypothesis. -/
theorem assume {m : Prog ε σ α} {φ : Prop} (h : φ → Triple P m Q E) :
    Triple (fun x L => φ ∧ P x L) m Q E := fun x L hx => h hx.1 x L hx.2

/-- What is known of the state is known of the object it starts with. -/
theorem fixed {m : Prog ε σ α} (h : ∀ x, Triple (fun y L => y = x ∧ P x L) m Q E) :
    Triple P m Q E := fun x L hP => h x x L ⟨rfl, hP⟩

/-- A program that cannot throw satisfies any exceptional postcondition. -/
theorem weaken_error {m : Prog ε σ α} (h : Triple P m Q fun _ _ _ => False) : Triple P m Q E :=
  h.conseq (fun _ _ => id) (fun _ _ _ => id) (fun _ _ _ => False.elim)

theorem modifyObj {f : σ → σ} {Q : Unit → σ → Ledger → Prop}
    (h : ∀ x L, P x L → Q () (f x) L) : Triple P (UpdateCheck.modifyObj f) Q E :=
  fun x L hP => h x L hP

theorem readObj {Q : σ → σ → Ledger → Prop} (h : ∀ x L, P x L → Q x x L) :
    Triple P UpdateCheck.readObj Q E := fun x L hP => h x L hP

theorem malloc {v : α} {Q : Ptr α → σ → Ledger → Prop}
    (hsome : ∀ x L, P x L → L.grant L.clock = true →
      Q (some ⟨L.clock, v⟩) x { L with clock := L.clock + 1, acquired := L.clock :: L.acquired })
    (hnone : ∀ x L, P x L → L.grant L.clock = false →
      Q none x { L with clock := L.clock + 1 }) :
    Triple P (UpdateCheck.malloc v) Q E := by
  intro x L hP
  rw [UpdateCheck.malloc, exec_of]
  cases h : L.grant L.clock with
  | true => exact hsome x L hP h
  | false => exact hnone x L hP h

theorem realloc {p : Ptr α} {v : α} {Q : Ptr α → σ → Ledger → Prop}
    (hsome : ∀ x L, P x L → L.grant L.clock = true →
      Q (some ⟨L.clock, v⟩) x { L with clock := L.clock + 1, acquired := L.clock :: L.acquired,
                                       released := (p.map Block.id).toList ++ L.released })
    (hnone : ∀ x L, P x L → L.grant L.clock = false →
      Q none x { L with clock := L.clock + 1 }) :
    Triple P (UpdateCheck.realloc p v) Q E := by
  intro x L hP
  rw [UpdateCheck.realloc, exec_of]
  cases h : L.grant L.clock with
  | true => exact hsome x L hP h
  | false => exact hnone x L hP h

theorem free {p : Ptr α} {Q : Unit → σ → Ledger → Prop}
    (hnull : p = none → ∀ x L, P x L → Q () x L)
    (hsome : ∀ b, p = some b → ∀ x L, P x L → Q () x { L with released := b.id :: L.released }) :
    Triple P (UpdateCheck.free p) Q E := by
  intro x L hP
  cases p with
  | none => exact hnull rfl x L hP
  | some b => exact hsome b rfl x L hP

/-- Releasing a block leaves the object as it is. -/
theorem free_keeps {K : σ → Prop} {p : Ptr α} :
    Triple (fun x _ => K x) (UpdateCheck.free p) (fun _ x _ => K x) E :=
  Triple.free (fun _ _ _ h => h) fun _ _ _ _ h => h

/-- The outcome of an attempt is the outcome of the program; the attempt itself never throws. -/
theorem attempt {m : Prog ε σ α} (h : Triple P m Q E') :
    Triple P (UpdateCheck.attempt m)
      (fun r x L => match r with | .ok a => Q a x L | .error e => E' e x L) E := by
  intro x L hP
  have h := h x L hP
  rw [UpdateCheck.attempt, exec_of]
  rcases hr : m.exec x L with ⟨e | a, y, L'⟩ <;> rw [hr] at h <;> exact h

theorem onPart {get : σ → τ} {set : τ → σ → σ} {m : Prog ε τ α}
    (h : ∀ x, Triple (fun t L => t = get x ∧ P x L) m (fun a t L => Q a (set t x) L)
      (fun e t L => E e (set t x) L)) :
    Triple P (UpdateCheck.onPart get set m) Q E := by
  intro x L hP
  have h := h x (get x) L ⟨rfl, hP⟩
  rw [UpdateCheck.onPart, exec_of]
  rcases hr : m.exec (get x) L with ⟨e | a, y, L'⟩ <;> rw [hr] at h <;> exact h

/-- A program on a local object leaves what is known of the object as it is. -/
theorem bind_withObj_kept {K : σ → Prop} {x₀ : τ} {m : Prog ε τ α} {f : α × τ → Prog ε σ β}
    {T : α → τ → Prop}
    (hm : Triple (fun t _ => t = x₀) m (fun a t _ => T a t) (fun _ _ _ => False))
    (hf : ∀ a t, T a t → Triple (fun x _ => K x) (f (a, t)) R E) :
    Triple (fun x _ => K x) (UpdateCheck.withObj x₀ m >>= f) R E := by
  intro x L hx
  have h := hm x₀ L rfl
  rw [exec_bind, UpdateCheck.withObj, exec_of]
  rcases hr : m.exec x₀ L with ⟨e | a, t, L'⟩
  · rw [hr] at h
    exact h.elim
  · rw [hr] at h
    exact hf a t h x L' hx

/-- A program on a local object leaves the object as it is and may change what is known of the
ledger. -/
theorem bind_withObj_ledger {K : σ → Prop} {G : Ledger → Prop} {x₀ : τ} {m : Prog ε τ α}
    {f : α × τ → Prog ε σ β} {T : α → τ → Ledger → Prop} {F : ε → Ledger → Prop}
    (hm : Triple (fun t L => t = x₀ ∧ G L) m T fun e _ L => F e L)
    (hE : ∀ e x L, K x → F e L → E e x L)
    (hf : ∀ a t, Triple (fun x L => K x ∧ T a t L) (f (a, t)) R E) :
    Triple (fun x L => K x ∧ G L) (UpdateCheck.withObj x₀ m >>= f) R E := by
  intro x L hstate
  obtain ⟨hx, hL⟩ := hstate
  have h := hm x₀ L ⟨rfl, hL⟩
  rw [exec_bind, UpdateCheck.withObj, exec_of]
  rcases hr : m.exec x₀ L with ⟨e | a, t, L'⟩
  · rw [hr] at h
    exact hE e x L' hx h
  · rw [hr] at h
    exact hf a t x L' ⟨hx, h⟩

/-- Read a triple off a run, where one relation says how the program ends. -/
theorem ends {m : Prog ε σ α} {T : Except ε α → σ → Ledger → Prop}
    (h : Triple P m (fun a => T (.ok a)) fun e => T (.error e)) {x : σ} {L : Ledger} (hP : P x L) :
    ∃ r y L', m.exec x L = (r, y, L') ∧ T r y L' := by
  have h := h x L hP
  rcases hr : m.exec x L with ⟨e | a, y, L'⟩ <;> rw [hr] at h <;> exact ⟨_, y, L', rfl, h⟩

/-- Read a triple without exceptions off a run. -/
theorem run {m : Prog ε σ α} (h : Triple P m Q fun _ _ _ => False) {x : σ} {L : Ledger}
    (hP : P x L) : ∃ a y L', m.exec x L = (.ok a, y, L') ∧ Q a y L' := by
  have h := h x L hP
  rcases hr : m.exec x L with ⟨e | a, y, L'⟩
  · rw [hr] at h
    exact h.elim
  · rw [hr] at h
    exact ⟨a, y, L', rfl, h⟩

end Triple

end Triple

/-! ## Runs under a condition on the ledger -/

/-- A condition on the ledger that speaks only of how requests are answered. -/
class Stable (G : Ledger → Prop) : Prop where
  congr : ∀ {L L' : Ledger}, L'.grant = L.grant → G L → G L'

instance : Stable Ledger.AllGranted := ⟨fun h hL => by rwa [Ledger.AllGranted, h]⟩

instance : Stable fun _ => True := ⟨fun _ _ => trivial⟩

instance (grant : Nat → Bool) : Stable fun L => L.grant = grant := ⟨fun h hL => h.trans hL⟩

/-- The condition, where memory was exhausted on the way. -/
def Starved (G : Ledger → Prop) (L : Ledger) : Prop := G L ∧ ¬ L.AllGranted

instance {G : Ledger → Prop} [Stable G] : Stable (Starved G) :=
  ⟨fun h hL => ⟨Stable.congr h hL.1, fun hall => hL.2 (Stable.congr h.symm hall)⟩⟩

section Within

variable {ε σ τ α β : Type}

/-- The object satisfies `P` and the ledger `G`. -/
def Within (G : Ledger → Prop) (P : σ → Prop) : σ → Ledger → Prop := fun x L => P x ∧ G L

/-- The object satisfies `P` and every allocation succeeds. -/
abbrev Granted (P : σ → Prop) : σ → Ledger → Prop := Within Ledger.AllGranted P

variable {G : Ledger → Prop} [Stable G] {P : σ → Prop} {E : ε → σ → Ledger → Prop}

namespace Triple

/-- A request may be refused where the ledger does not grant all of them. -/
theorem bind_malloc_or_null {v : α} {f : Ptr α → Prog ε σ β} {Q : β → σ → Ledger → Prop}
    (h : ∀ b : Block α, b.val = v → Triple (Within G P) (f (some b)) Q E)
    (hnull : Triple (fun x L => Within G P x L ∧ ¬ L.AllGranted) (f none) Q E) :
    Triple (Within G P) (UpdateCheck.malloc v >>= f) Q E := by
  intro x L hx
  rw [exec_bind, UpdateCheck.malloc, exec_of]
  cases hg : L.grant L.clock with
  | true => exact h _ rfl x _ ⟨hx.1, Stable.congr (by rfl) hx.2⟩
  | false =>
    refine hnull x _ ⟨⟨hx.1, Stable.congr (by rfl) hx.2⟩, fun hall => ?_⟩
    exact Bool.false_ne_true (hg.symm.trans (hall L.clock))

theorem bind_malloc {v : α} {f : Ptr α → Prog ε σ β} {Q : β → σ → Ledger → Prop}
    (h : ∀ b : Block α, b.val = v → Triple (Granted P) (f (some b)) Q E) :
    Triple (Granted P) (UpdateCheck.malloc v >>= f) Q E :=
  bind_malloc_or_null h fun _ _ hx => absurd hx.1.2 hx.2

theorem bind_realloc_or_null {p : Ptr α} {v : α} {f : Ptr α → Prog ε σ β}
    {Q : β → σ → Ledger → Prop}
    (h : ∀ b : Block α, b.val = v → Triple (Within G P) (f (some b)) Q E)
    (hnull : Triple (fun x L => Within G P x L ∧ ¬ L.AllGranted) (f none) Q E) :
    Triple (Within G P) (UpdateCheck.realloc p v >>= f) Q E := by
  intro x L hx
  rw [exec_bind, UpdateCheck.realloc, exec_of]
  cases hg : L.grant L.clock with
  | true => exact h _ rfl x _ ⟨hx.1, Stable.congr (by rfl) hx.2⟩
  | false =>
    refine hnull x _ ⟨⟨hx.1, Stable.congr (by rfl) hx.2⟩, fun hall => ?_⟩
    exact Bool.false_ne_true (hg.symm.trans (hall L.clock))

theorem bind_free {p : Ptr α} {f : Unit → Prog ε σ β} {Q : β → σ → Ledger → Prop}
    (h : Triple (Within G P) (f ()) Q E) : Triple (Within G P) (UpdateCheck.free p >>= f) Q E :=
  Triple.bind (Q := fun _ => Within G P)
    (Triple.free (fun _ _ _ hx => hx) fun _ _ _ _ hx => ⟨hx.1, Stable.congr (by rfl) hx.2⟩) fun _ => h

omit [Stable G] in
theorem bind_modifyObj {g : σ → σ} {f : Unit → Prog ε σ β} {K : σ → Prop}
    {Q : β → σ → Ledger → Prop} (hP : ∀ x, P x → K (g x))
    (h : Triple (Within G K) (f ()) Q E) :
    Triple (Within G P) (UpdateCheck.modifyObj g >>= f) Q E :=
  Triple.bind (Q := fun _ => Within G K)
    (Triple.modifyObj fun x _ hx => ⟨hP x hx.1, hx.2⟩) fun _ => h

omit [Stable G] in
/-- A program on a local object, whose result is described by `R` and its exceptions by `F`. -/
theorem bind_withObj_throws {x₀ : τ} {m : Prog ε τ α} {f : α × τ → Prog ε σ β}
    {R : α → τ → Prop} {F : ε → Prop} {Q : β → σ → Ledger → Prop}
    (hm : Triple (Within G (· = x₀)) m (fun a => Within G (R a)) (fun e => Within G fun _ => F e))
    (hE : ∀ e x L, F e → Within G P x L → E e x L)
    (hf : ∀ a t, R a t → Triple (Within G P) (f (a, t)) Q E) :
    Triple (Within G P) (UpdateCheck.withObj x₀ m >>= f) Q E := by
  intro x L hstate
  obtain ⟨hx, hL⟩ := hstate
  have h := hm x₀ L ⟨rfl, hL⟩
  rw [exec_bind, UpdateCheck.withObj, exec_of]
  rcases hr : m.exec x₀ L with ⟨e | a, t, L'⟩
  · rw [hr] at h
    exact hE e x L' h.1 ⟨hx, h.2⟩
  · rw [hr] at h
    exact hf a t h.1 x L' ⟨hx, h.2⟩

omit [Stable G] in
theorem bind_withObj {x₀ : τ} {m : Prog ε τ α} {f : α × τ → Prog ε σ β} {R : α → τ → Prop}
    {Q : β → σ → Ledger → Prop}
    (hm : Triple (Within G (· = x₀)) m (fun a => Within G (R a)) (fun _ _ _ => False))
    (hf : ∀ a t, R a t → Triple (Within G P) (f (a, t)) Q E) :
    Triple (Within G P) (UpdateCheck.withObj x₀ m >>= f) Q E :=
  bind_withObj_throws (F := fun _ => False) hm.weaken_error (fun _ _ _ => False.elim) hf

omit [Stable G] in
theorem bind_readObj {f : σ → Prog ε σ β} {Q : β → σ → Ledger → Prop}
    (h : ∀ x, P x → Triple (Within G (· = x)) (f x) Q E) :
    Triple (Within G P) (UpdateCheck.readObj >>= f) Q E :=
  Triple.bind (Q := fun y => Within G fun x => P y ∧ x = y)
    (Triple.readObj fun _ _ hx => ⟨⟨hx.1, rfl⟩, hx.2⟩)
    fun y x L hx => h y hx.1.1 x L ⟨hx.1.2, hx.2⟩

end Triple

end Within

/-! ## Programs that only release -/

section Releases

variable {ε σ α β : Type}

/-- The program ends normally and changes nothing but the blocks released. -/
def Releases (m : Prog ε σ Unit) : Prop :=
  ∀ x L, ∃ released, m.exec x L = (.ok (), x, { L with released := released })

namespace Releases

theorem pure : Releases (Pure.pure () : Prog ε σ Unit) := fun _ L => ⟨L.released, rfl⟩

theorem free {p : Ptr α} : Releases (UpdateCheck.free p : Prog ε σ Unit) := by
  intro x L
  cases p with
  | none => exact ⟨L.released, rfl⟩
  | some b => exact ⟨b.id :: L.released, rfl⟩

theorem bind {m m' : Prog ε σ Unit} (hm : Releases m) (hm' : Releases m') :
    Releases (m >>= fun _ => m') := by
  intro x L
  obtain ⟨released, h⟩ := hm x L
  obtain ⟨released', h'⟩ := hm' x { L with released := released }
  exact ⟨released', by rw [exec_bind, h]; exact h'⟩

/-- What does not look at the blocks released is kept. -/
theorem bind_triple {m : Prog ε σ Unit} {f : Unit → Prog ε σ β} {P : σ → Ledger → Prop}
    {Q : β → σ → Ledger → Prop} {E : ε → σ → Ledger → Prop} (hm : Releases m)
    (hP : ∀ x L released, P x L → P x { L with released := released }) (hf : Triple P (f ()) Q E) :
    Triple P (m >>= f) Q E := by
  intro x L hx
  obtain ⟨released, h⟩ := hm x L
  rw [exec_bind, h]
  exact hf x _ (hP x L released hx)

end Releases

end Releases

/-! ## Programs that leave the answers of the ledger alone -/

section Steady

variable {ε σ τ α β : Type}

/-- However the program ends, later requests are answered as before. -/
def Steady (m : Prog ε σ α) : Prop := ∀ x L, (m.exec x L).2.2.grant = L.grant

namespace Steady

theorem pure {a : α} : Steady (Pure.pure a : Prog ε σ α) := fun _ _ => rfl

theorem bind {m : Prog ε σ α} {f : α → Prog ε σ β} (hm : Steady m) (hf : ∀ a, Steady (f a)) :
    Steady (m >>= f) := by
  intro x L
  have h := hm x L
  rw [exec_bind]
  rcases hr : m.exec x L with ⟨e | a, y, L'⟩ <;> rw [hr] at h
  · exact h
  · exact (hf a y L').trans h

theorem malloc {v : α} : Steady (UpdateCheck.malloc v : Prog ε σ (Ptr α)) := by
  intro x L
  rw [UpdateCheck.malloc, exec_of]
  split <;> rfl

theorem realloc {p : Ptr α} {v : α} : Steady (UpdateCheck.realloc p v : Prog ε σ (Ptr α)) := by
  intro x L
  rw [UpdateCheck.realloc, exec_of]
  split <;> rfl

theorem free {p : Ptr α} : Steady (UpdateCheck.free p : Prog ε σ Unit) := by
  intro x L
  cases p <;> rfl

theorem readObj : Steady (UpdateCheck.readObj : Prog ε σ σ) := fun _ _ => rfl

theorem modifyObj {f : σ → σ} : Steady (UpdateCheck.modifyObj f : Prog ε σ Unit) := fun _ _ => rfl

theorem onPart {get : σ → τ} {set : τ → σ → σ} {m : Prog ε τ α} (hm : Steady m) :
    Steady (UpdateCheck.onPart get set m) := fun x L => hm (get x) L

theorem withObj {x₀ : τ} {m : Prog ε τ α} (hm : Steady m) :
    Steady (UpdateCheck.withObj x₀ m : Prog ε σ (α × τ)) := fun _ L => hm x₀ L

end Steady

end Steady

/-! ## Programs that only compute -/

/-- The exception thrown where memory is exhausted. -/
class Exhaustible (ε : Type) where
  badAlloc : ε

section Computes

variable {ε σ α β : Type} [Exhaustible ε]

/-- The program leaves the object alone and computes `r`, unless it throws for want of memory. -/
def Computes (m : Prog ε σ α) (r : Except ε α) : Prop :=
  ∀ x L, ∃ r' L', m.exec x L = (r', x, L') ∧ L'.grant = L.grant ∧
    (r' = r ∨ r' = .error Exhaustible.badAlloc ∧ ¬ L.AllGranted)

namespace Computes

variable {G : Ledger → Prop} [Stable G] {P : σ → Prop} {E : ε → σ → Ledger → Prop}

theorem pure {a : α} : Computes (Pure.pure a : Prog ε σ α) (.ok a) :=
  fun _ L => ⟨_, L, rfl, rfl, Or.inl rfl⟩

theorem free {p : Ptr α} : Computes (UpdateCheck.free p : Prog ε σ Unit) (.ok ()) := by
  intro x L
  cases p with
  | none => exact ⟨_, L, rfl, rfl, Or.inl rfl⟩
  | some b => exact ⟨_, { L with released := b.id :: L.released }, rfl, rfl, Or.inl rfl⟩

theorem bind {m : Prog ε σ α} {a : α} {f : α → Prog ε σ β} {r : Except ε β}
    (hm : Computes m (.ok a)) (hf : Computes (f a) r) : Computes (m >>= f) r := by
  intro x L
  obtain ⟨_, L', h, hg, rfl | ⟨rfl, hnot⟩⟩ := hm x L
  · obtain ⟨r'', L'', h', hg', hr⟩ := hf x L'
    refine ⟨r'', L'', ?_, hg'.trans hg, hr.imp_right fun hr => ⟨hr.1, fun hL => ?_⟩⟩
    · rw [exec_bind, h]
      exact h'
    · exact hr.2 (Stable.congr hg hL)
  · exact ⟨_, L', by rw [exec_bind, h], hg, Or.inr ⟨rfl, hnot⟩⟩

/-- A computation in front of a program that works on the object. -/
theorem bind_within {m : Prog ε σ α} {a : α} {f : α → Prog ε σ β} {Q : β → σ → Ledger → Prop}
    (hm : Computes m (.ok a)) (hf : Triple (Within G P) (f a) Q E)
    (hE : ∀ x L, Within G P x L → ¬ L.AllGranted → E Exhaustible.badAlloc x L) :
    Triple (Within G P) (m >>= f) Q E := by
  intro x L hstate
  obtain ⟨hx, hL⟩ := hstate
  obtain ⟨_, L', h, hg, rfl | ⟨rfl, hnot⟩⟩ := hm x L
  · rw [exec_bind, h]
    exact hf x L' ⟨hx, Stable.congr hg hL⟩
  · rw [exec_bind, h]
    exact hE x L' ⟨hx, Stable.congr hg hL⟩ fun hall => hnot (Stable.congr hg.symm hall)

theorem bind_triple {m : Prog ε σ α} {a : α} {f : α → Prog ε σ β} {Q : β → σ → Ledger → Prop}
    (hm : Computes m (.ok a)) (hf : Triple (Granted P) (f a) Q E) :
    Triple (Granted P) (m >>= f) Q E :=
  hm.bind_within hf fun _ _ hx hnot => absurd hx.2 hnot

theorem bind_error_within {m : Prog ε σ α} {e : ε} {f : α → Prog ε σ β}
    {Q : β → σ → Ledger → Prop} (hm : Computes m (.error e))
    (h : ∀ x L, Within G P x L → E e x L)
    (hE : ∀ x L, Within G P x L → ¬ L.AllGranted → E Exhaustible.badAlloc x L) :
    Triple (Within G P) (m >>= f) Q E := by
  intro x L hstate
  obtain ⟨hx, hL⟩ := hstate
  obtain ⟨_, L', h', hg, rfl | ⟨rfl, hnot⟩⟩ := hm x L
  · rw [exec_bind, h']
    exact h x L' ⟨hx, Stable.congr hg hL⟩
  · rw [exec_bind, h']
    exact hE x L' ⟨hx, Stable.congr hg hL⟩ fun hall => hnot (Stable.congr hg.symm hall)

/-- An attempt hands over the result, or the exception for want of memory. -/
theorem bind_attempt {m : Prog ε σ α} {r : Except ε α} {f : Except ε α → Prog ε σ β}
    {Q : β → σ → Ledger → Prop} (hm : Computes m r) (hf : Triple (Within G P) (f r) Q E)
    (hE : Triple (fun x L => Within G P x L ∧ ¬ L.AllGranted)
      (f (.error Exhaustible.badAlloc)) Q E) :
    Triple (Within G P) (UpdateCheck.attempt m >>= f) Q E := by
  intro x L hstate
  obtain ⟨hx, hL⟩ := hstate
  obtain ⟨_, L', h, hg, rfl | ⟨rfl, hnot⟩⟩ := hm x L
  · rw [exec_bind, UpdateCheck.attempt, exec_of, h]
    exact hf x L' ⟨hx, Stable.congr hg hL⟩
  · rw [exec_bind, UpdateCheck.attempt, exec_of, h]
    exact hE x L' ⟨⟨hx, Stable.congr hg hL⟩, fun hall => hnot (Stable.congr hg.symm hall)⟩

end Computes

/-- The program decides `φ`, memory permitting. -/
def Decides (m : Prog ε σ Bool) (φ : Prop) : Prop := ∃ b, Computes m (.ok b) ∧ (b = true ↔ φ)

/-- Memory permitting, the program ends normally if `φ` holds and throws `e` otherwise. -/
def Checks (m : Prog ε σ Unit) (e : ε) (φ : Prop) : Prop :=
  (φ → Computes m (.ok ())) ∧ (¬ φ → Computes m (.error e))

end Computes

end UpdateCheck
