import UpdateCheck.Updater.Ownership

/-!
# Applications

An application calls the library in any order, with any arguments and against any libcurl, and any
request for memory may be refused. It keeps the results and the arrays that came without an error,
and releases each of them at most once and nothing else, as the header asks. Where an exception
leaves the library, it catches it, keeps nothing, and goes on.

`App.Keeps` is what holds after every call: the blocks acquired and not released are those it holds,
and as many others as the calls have left behind.
-/

namespace UpdateCheck.Updater

open Comparator ListParser Fetcher Ledger

/-- A call of the library. The objects behind the out pointers may hold anything. -/
inductive Call where
  | check (env : Env) (url : List CChar) (inSoftware : EupdInSoftware) (allowInsecure : Int32)
      (result : EupdResult)
  | checkMany (env : Env) (url : List CChar) (inSoftwareList : List EupdInSoftware)
      (allowInsecure : Int32) (out : CheckMany)
  | freeResult (i : Nat)
  | freeResultList (i : Nat)

/-- The results and the arrays that an application has to release, and the heap. -/
structure App where
  results : List EupdResult
  arrays : List CheckMany
  ledger : Ledger

namespace App

/-- An application that made no call yet. -/
def start (grant : Nat → Bool) : App := ⟨[], [], .start grant⟩

/-- The blocks that an application has to release. -/
def held (app : App) : List Nat := linkBlocks app.results ++ app.arrays.flatMap CheckMany.blocks

/-- One call. There is none where there is nothing to release. -/
def step (app : App) : Call → Option App
  | .check env url inSoftware allowInsecure result =>
    match (updaterCheck env url inSoftware allowInsecure).exec result app.ledger with
    | (.ok ret, result, L) =>
      if ret.isError then some { app with ledger := L }
      else some { app with results := result :: app.results, ledger := L }
    | (.error _, _, L) => some { app with ledger := L }
  | .checkMany env url inSoftwareList allowInsecure out =>
    match (updaterCheckMany env url inSoftwareList allowInsecure).exec out app.ledger with
    | (.ok ret, out, L) =>
      if ret.isError then some { app with ledger := L }
      else some { app with arrays := out :: app.arrays, ledger := L }
    | (.error _, _, L) => some { app with ledger := L }
  | .freeResult i =>
    match app.results[i]? with
    | some result =>
      let r := (updaterFreeResult result : Prog Raised Unit Unit).exec () app.ledger
      some { app with results := app.results.eraseIdx i, ledger := r.2.2 }
    | none => none
  | .freeResultList i =>
    match app.arrays[i]? with
    | some out =>
      let r := (updaterFreeResultList out.outResults out.numResults : Prog Raised Unit Unit).exec ()
        app.ledger
      some { app with arrays := app.arrays.eraseIdx i, ledger := r.2.2 }
    | none => none

def run (app : App) : List Call → Option App
  | [] => some app
  | call :: calls => (app.step call).bind fun app => app.run calls

/-- An exception leaves the call. -/
def raises (app : App) : Call → Bool
  | .check env url inSoftware allowInsecure result =>
    !((updaterCheck env url inSoftware allowInsecure).exec result app.ledger).1.isOk
  | .checkMany env url inSoftwareList allowInsecure out =>
    !((updaterCheckMany env url inSoftwareList allowInsecure).exec out app.ledger).1.isOk
  | .freeResult _ => false
  | .freeResultList _ => false

/-- The number of the blocks that a call leaves behind where an exception leaves it: the text of the
document, and the array of a batch. -/
def thrownBlocks : Call → Nat
  | .check .. => 1
  | .checkMany .. => 2
  | .freeResult _ => 0
  | .freeResultList _ => 0

/-- The number of the blocks that a call leaves behind where it returns. -/
def walkedBlocks (app : App) : Call → Nat
  | .check env url inSoftware allowInsecure _ =>
    if checkInput inSoftware then
      leftBehindBy env url allowInsecure (some inSoftware) app.ledger
    else 0
  | .checkMany env url _ allowInsecure _ => manyLeftBehindBy env url allowInsecure app.ledger
  | .freeResult _ => 0
  | .freeResultList _ => 0

def abandons (app : App) (call : Call) : Nat := if app.raises call then thrownBlocks call else 0

/-- The number of the blocks that a call leaves behind. -/
def leavesBehind (app : App) (call : Call) : Nat :=
  if app.raises call then thrownBlocks call else app.walkedBlocks call

/-- The sum of a number over the calls, each counted where it is made. -/
def total (count : App → Call → Nat) (app : App) : List Call → Nat
  | [] => 0
  | call :: calls => count app call + ((app.step call).map fun app => app.total count calls).getD 0

/-- The number of the blocks that the calls leave behind. -/
def lost (app : App) (calls : List Call) : Nat := app.total leavesBehind calls

/-- The number of those that exceptions leave behind. -/
def abandoned (app : App) (calls : List Call) : Nat := app.total abandons calls

/-! ## One call -/

/-- The application holds what is acquired and not released, next to `n` blocks left behind. -/
def Keeps (grant : Nat → Bool) (n : Nat) (app : App) : Prop :=
  ∃ left, OwesUnder grant (app.held ++ left) app.ledger ∧ left.length = n

variable {grant : Nat → Bool} {n : Nat} {app app' : App}

/-- What a call acquired stands before what was held, and what it left behind joins the rest. -/
theorem Keeps.of_call (own : List Nat) {more left : List Nat}
    (h : OwesUnder grant (own ++ (more ++ (app.held ++ left))) app'.ledger)
    (hheld : app'.held.Perm (own ++ app.held)) (hleft : left.length = n) :
    Keeps grant (n + more.length) app' := by
  refine ⟨more ++ left, h.perm ?_, by rw [List.length_append, hleft, Nat.add_comm]⟩
  have hmoved : (own ++ (more ++ (app.held ++ left))).Perm (own ++ (app.held ++ (more ++ left))) :=
    (List.perm_append_comm_assoc _ _ _).append_left _
  rw [← List.append_assoc own app.held] at hmoved
  exact hmoved.trans (hheld.symm.append_right _)

theorem leavesBehind_of_raises {call : Call} (h : app.raises call = true) :
    app.leavesBehind call = thrownBlocks call := if_pos h

theorem leavesBehind_of_returns {call : Call} (h : app.raises call = false) :
    app.leavesBehind call = app.walkedBlocks call := by
  rw [leavesBehind, h]
  rfl

/-- A call that an exception leaves holds nothing more, and abandons `k` blocks. -/
theorem Keeps.of_thrown {left : List Nat} {e : Raised} {k : Nat}
    (h : Thrown grant (app.held ++ left) k e app'.ledger) (hheld : app'.held = app.held)
    (hleft : left.length = n) : Keeps grant (n + k) app' := by
  obtain ⟨-, more, hL, rfl⟩ := h
  exact .of_call [] hL (.of_eq hheld) hleft

theorem Keeps.check {env : Env} {url : List CChar} {sw : EupdInSoftware} {allowInsecure : Int32}
    {result : EupdResult} (h : app.Keeps grant n)
    (hstep : app.step (.check env url sw allowInsecure result) = some app') :
    app'.Keeps grant (n + app.leavesBehind (.check env url sw allowInsecure result)) := by
  obtain ⟨left, ⟨howes, hgrant⟩, hleft⟩ := h
  rw [step] at hstep
  cases hsw : checkInput sw with
  | false =>
    rw [updaterCheck_rejects env url hsw] at hstep
    cases hstep
    rw [leavesBehind_of_returns (by rw [raises, updaterCheck_rejects env url hsw]; rfl),
      walkedBlocks, hsw]
    exact ⟨left, ⟨howes, hgrant⟩, hleft⟩
  | true =>
    have hpost := updaterCheck_owns env url hsw allowInsecure howes result app.ledger rfl
    rcases hexec : (updaterCheck env url sw allowInsecure).exec result app.ledger with
      ⟨e | ret, r, L⟩
    · rw [hexec] at hstep hpost
      cases hstep
      rw [leavesBehind_of_raises (by rw [raises, hexec]; rfl)]
      rw [hgrant] at hpost
      exact .of_thrown hpost rfl hleft
    · rw [hexec] at hstep hpost
      obtain ⟨hmade, more, hL, hmore⟩ := hpost
      rw [hgrant] at hL
      rw [leavesBehind_of_returns (by rw [raises, hexec]; rfl), walkedBlocks, if_pos hsw, ← hmore]
      dsimp only at hstep
      split at hstep
      · rename_i herr
        cases hstep
        rw [ItemMade, if_pos herr] at hmade
        rw [hmade] at hL
        exact .of_call [] hL .rfl hleft
      · cases hstep
        refine .of_call _ hL (.of_eq ?_) hleft
        rw [held, held, linkBlocks, List.flatMap_cons, List.append_assoc]
        rfl

theorem Keeps.checkMany {env : Env} {url : List CChar} {sws : List EupdInSoftware}
    {allowInsecure : Int32} {out : CheckMany} (h : app.Keeps grant n)
    (hstep : app.step (.checkMany env url sws allowInsecure out) = some app') :
    app'.Keeps grant (n + app.leavesBehind (.checkMany env url sws allowInsecure out)) := by
  obtain ⟨left, ⟨howes, hgrant⟩, hleft⟩ := h
  rw [step] at hstep
  have hpost := updaterCheckMany_owns env url sws allowInsecure howes out app.ledger ⟨rfl, rfl⟩
  rcases hexec : (updaterCheckMany env url sws allowInsecure).exec out app.ledger with
    ⟨e | ret, out', L⟩
  · rw [hexec] at hstep hpost
    cases hstep
    rw [leavesBehind_of_raises (by rw [raises, hexec]; rfl)]
    rw [hgrant] at hpost
    exact .of_thrown hpost rfl hleft
  · rw [hexec] at hstep hpost
    obtain ⟨more, hmore, hL⟩ := hpost
    rw [hgrant] at hL
    rw [leavesBehind_of_returns (by rw [raises, hexec]; rfl), walkedBlocks, ← hmore]
    dsimp only at hstep
    split at hstep
    · rename_i herr
      cases hstep
      rw [if_pos herr] at hL
      exact .of_call [] hL.2 .rfl hleft
    · rename_i herr
      cases hstep
      rw [if_neg herr] at hL
      refine .of_call _ hL.2 ?_ hleft
      rw [held, held, List.flatMap_cons]
      exact List.perm_append_comm_assoc _ _ _

/-- What a call releases stood in front of what is held. -/
theorem Keeps.of_release (own : List Nat) {m : Prog Raised Unit Unit} (h : app.Keeps grant n)
    (hm : Releases m)
    (howes : ∀ live, Triple (fun _ L => Owes (own ++ live) L) m (fun _ _ L => Owes live L)
      fun _ _ _ => False)
    (hheld : app.held.Perm (own ++ app'.held)) (hledger : app'.ledger = (m.exec () app.ledger).2.2) :
    app'.Keeps grant n := by
  obtain ⟨left, ⟨hL, hgrant⟩, hleft⟩ := h
  have hL' := hL.perm (hheld.append_right left)
  rw [List.append_assoc] at hL'
  obtain ⟨released, hexec⟩ := hm () app.ledger
  have hpost := howes (app'.held ++ left) () app.ledger hL'
  rw [hexec] at hpost hledger
  exact ⟨left, ⟨by rw [hledger]; exact hpost, by rw [hledger]; exact hgrant⟩, hleft⟩

/-- An element and the list without it. -/
theorem flatMap_eraseIdx_perm {α : Type} {f : α → List Nat} {l : List α} {i : Nat} {a : α}
    (h : l[i]? = some a) : (l.flatMap f).Perm (f a ++ (l.eraseIdx i).flatMap f) := by
  obtain ⟨hi, rfl⟩ := List.getElem?_eq_some_iff.mp h
  exact (List.getElem_cons_eraseIdx_perm hi).symm.flatMap_right f

theorem Keeps.freeResult {i : Nat} (h : app.Keeps grant n)
    (hstep : app.step (.freeResult i) = some app') : app'.Keeps grant n := by
  rw [step] at hstep
  split at hstep
  · rename_i result hresult
    cases hstep
    refine h.of_release result.link.ids .free (fun _ => free_owes) ?_ rfl
    rw [held, held, ← List.append_assoc]
    exact (flatMap_eraseIdx_perm hresult).append_right _
  · cases hstep

theorem Keeps.freeResultList {i : Nat} (h : app.Keeps grant n)
    (hstep : app.step (.freeResultList i) = some app') : app'.Keeps grant n := by
  rw [step] at hstep
  split at hstep
  · rename_i out hout
    cases hstep
    refine h.of_release _ (updaterFreeResultList_releases _ _)
      (fun _ => updaterFreeResultList_owes out) ?_ rfl
    rw [held, held]
    exact ((flatMap_eraseIdx_perm hout).append_left _).trans (List.perm_append_comm_assoc _ _ _)
  · cases hstep

theorem Keeps.step {call : Call} (h : app.Keeps grant n) (hstep : app.step call = some app') :
    app'.Keeps grant (n + app.leavesBehind call) := by
  cases call with
  | check => exact h.check hstep
  | checkMany => exact h.checkMany hstep
  | freeResult => exact h.freeResult hstep
  | freeResultList => exact h.freeResultList hstep

/-! ## Whole runs -/

theorem Keeps.run {calls : List Call} (h : app.Keeps grant n) (hrun : app.run calls = some app') :
    app'.Keeps grant (n + app.lost calls) := by
  induction calls generalizing app n with
  | nil =>
    cases hrun
    exact h
  | cons call calls ih =>
    rw [App.run] at hrun
    obtain ⟨next, hstep, hrest⟩ := Option.bind_eq_some_iff.mp hrun
    have hnext := ih (h.step hstep) hrest
    rw [lost, total, hstep]
    rw [Nat.add_assoc] at hnext
    exact hnext

theorem walkedBlocks_of_allGranted (h : app.ledger.AllGranted) (call : Call) :
    app.walkedBlocks call = 0 := by
  cases call with
  | check =>
    rw [walkedBlocks]
    split
    · exact leftBehindBy_of_allGranted h _ _
    · rfl
  | checkMany =>
    rw [walkedBlocks, manyLeftBehindBy, if_pos (h _)]
    exact leftBehindBy_of_allGranted (by exact h) _ _
  | freeResult => rfl
  | freeResultList => rfl

theorem leavesBehind_of_allGranted (h : app.ledger.AllGranted) (call : Call) :
    app.leavesBehind call = app.abandons call := by
  cases hraises : app.raises call with
  | true => rw [leavesBehind_of_raises hraises, abandons, if_pos hraises]
  | false =>
    rw [leavesBehind_of_returns hraises, abandons, hraises]
    exact walkedBlocks_of_allGranted h call

/-- Only exceptions leave blocks behind where every request is granted. -/
theorem lost_of_allGranted (hgrant : ∀ n, grant n = true) {calls : List Call}
    (h : app.Keeps grant n) : app.lost calls = app.abandoned calls := by
  induction calls generalizing app n with
  | nil => rfl
  | cons call calls ih =>
    obtain ⟨left, ⟨-, hanswers⟩, -⟩ := id h
    have hall : app.ledger.AllGranted := fun n => by rw [hanswers]; exact hgrant n
    rw [lost, abandoned, total, total, leavesBehind_of_allGranted hall]
    cases hstep : app.step call with
    | none => rfl
    | some next => exact congrArg _ (ih (h.step hstep))

theorem start_keeps (grant : Nat → Bool) : (start grant).Keeps grant 0 :=
  ⟨[], ⟨Owes.start grant, rfl⟩, rfl⟩

/-- **The blocks of an application.** After any calls, each block that was acquired is held, left
behind or released, and no two of these: nothing is released twice, and nothing that is held was
released. All blocks are released exactly where the application holds none and none was left behind,
and only exceptions leave blocks behind where every request is granted. -/
theorem run_owns (grant : Nat → Bool) (calls : List Call) {app : App}
    (hrun : (start grant).run calls = some app) :
    (∃ left, left.length = (start grant).lost calls ∧
      app.ledger.acquired.Perm (app.held ++ (left ++ app.ledger.released))) ∧
    app.ledger.acquired.Nodup ∧ app.ledger.released.Nodup ∧
    (∀ i ∈ app.held, i ∉ app.ledger.released) ∧
    (app.ledger.Balanced ↔ app.held = [] ∧ (start grant).lost calls = 0) ∧
    ((∀ n, grant n = true) → (start grant).lost calls = (start grant).abandoned calls) := by
  obtain ⟨left, ⟨howes, -⟩, hleft⟩ := (start_keeps grant).run hrun
  rw [Nat.zero_add] at hleft
  have hblocks := howes.blocks
  rw [List.append_assoc] at hblocks
  have hnodup := hblocks.nodup_iff.mp howes.nodup
  refine ⟨⟨left, hleft, hblocks⟩, howes.nodup, ?_, ?_, ?_, ?_⟩
  · exact (List.nodup_append.mp (List.nodup_append.mp hnodup).2.1).2.1
  · intro i hi hreleased
    exact List.disjoint_of_nodup_append hnodup hi (List.mem_append_right _ hreleased)
  · rw [howes.balanced_iff, List.append_eq_nil_iff, ← hleft, List.length_eq_zero_iff]
  · exact fun hgrant => lost_of_allGranted hgrant (start_keeps grant)

theorem exists_step_check (app : App) (env : Env) (url : List CChar) (sw : EupdInSoftware)
    (allowInsecure : Int32) (result : EupdResult) :
    ∃ app', app.step (.check env url sw allowInsecure result) = some app' := by
  rw [step]
  rcases (updaterCheck env url sw allowInsecure).exec result app.ledger with ⟨e | ret, r, L⟩
  · exact ⟨_, rfl⟩
  · dsimp only
    split <;> exact ⟨_, rfl⟩

/-- Two checks of the sample. -/
def sampleCalls : List Call :=
  List.replicate 2 (.check sampleEnv [] (sampleInstalled (Vector.replicate _ 0)) 0 .zero)

/-- The requests are refused from the fourth on. -/
theorem run_owns_sample :
    ∃ app, (start fun n => n < 3).run sampleCalls = some app ∧
      (∃ left, left.length = (start fun n => n < 3).lost sampleCalls ∧
        app.ledger.acquired.Perm (app.held ++ (left ++ app.ledger.released))) ∧
      app.ledger.released.Nodup ∧ (∀ i ∈ app.held, i ∉ app.ledger.released) ∧
      (app.ledger.Balanced ↔ app.held = [] ∧ (start fun n => n < 3).lost sampleCalls = 0) := by
  obtain ⟨app₁, hfirst⟩ := exists_step_check (start fun n => n < 3) sampleEnv []
    (sampleInstalled (Vector.replicate _ 0)) 0 .zero
  obtain ⟨app₂, hsecond⟩ := exists_step_check app₁ sampleEnv []
    (sampleInstalled (Vector.replicate _ 0)) 0 .zero
  have hrun : (start fun n => n < 3).run sampleCalls = some app₂ := by
    change ((start fun n => n < 3).step _).bind _ = _
    rw [hfirst]
    change (app₁.step _).bind _ = _
    rw [hsecond]
    rfl
  obtain ⟨hblocks, -, hreleased, hheld, hbalanced, -⟩ := run_owns (fun n => n < 3) _ hrun
  exact ⟨app₂, hrun, hblocks, hreleased, hheld, hbalanced⟩

end App

end UpdateCheck.Updater
