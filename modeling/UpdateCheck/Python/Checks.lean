import UpdateCheck.Python.Results
import UpdateCheck.Updater.Ownership
import UpdateCheck.Updater.Refinement

/-!
# Checks from Python

The two calls of the wrapper. Whatever the transfer library answers and whatever requests for memory
are refused, nothing raises between a call of the library that returned without an error and the
release of its results, so a check leaves no more behind than the library does, the exception that
may leave it included (`check_owns`, `checkMany_owns`). The memory of the interpreter is not looked
at. What a check returns is what the library is for, decoded (`check_tells`, `checkMany_tells`).
-/

namespace UpdateCheck.Python

open ListParser Fetcher Updater Ledger

/-! ## Calls of the library -/

section Call

variable {σ α : Type} {P : σ → Ledger → Prop} {Q : α → σ → Ledger → Prop}
  {E : Raised → σ → Ledger → Prop}

theorem call_triple {m : Prog Raised σ α} (h : Triple P m Q E) :
    Triple P (call m) Q fun e x L => ∃ raised, e = .library raised ∧ E raised x L := by
  intro x L hx
  have h := h x L hx
  rw [call, exec_of]
  rcases hr : m.exec x L with ⟨e | a, y, L'⟩
  · rw [hr] at h
    exact ⟨e, rfl, h⟩
  · rw [hr] at h
    exact h

theorem releases_call {m : Prog Raised σ Unit} (h : Releases m) : Releases (call m) := by
  intro x L
  obtain ⟨released, hr⟩ := h x L
  refine ⟨released, ?_⟩
  rw [call, exec_of, hr]
  rfl

end Call

/-- What a call releases is owed no more. -/
theorem call_bind_owes {σ β : Type} {grant : Nat → Bool} {own live : List Nat}
    {m : Prog Raised σ Unit} (hm : Releases m)
    (howes : Triple (fun _ L => Owes (own ++ live) L) m (fun _ _ L => Owes live L)
      fun _ _ _ => False) {P : σ → Prop} {f : Unit → Prog PyError σ β} {Q : β → σ → Ledger → Prop}
    {E : PyError → σ → Ledger → Prop} (hf : Triple (Within (OwesUnder grant live) P) (f ()) Q E) :
    Triple (Within (OwesUnder grant (own ++ live)) P) (call m >>= f) Q E := by
  refine (releases_call hm).bind_owes ?_ hf
  refine (call_triple howes).conseq (fun _ _ h => h) (fun _ _ _ h => h) ?_
  intro e x L h
  obtain ⟨raised, -, hnot⟩ := h
  exact hnot

theorem internalIsError_code (ret : EupdRetCode) : internalIsError ret.code = ret.isError := rfl

theorem encodeAscii_error {s : List Char} {e : PyError} (h : encodeAscii s = .error e) :
    e = .unicodeEncodeError := by
  unfold encodeAscii at h
  split at h
  · cases h
  · exact (Except.error.inj h).symm

/-- A check returns a result exactly where its code is no error. -/
structure Agrees {α : Type} (p : Bool × Nat × Option α) : Prop where
  success : p.1 = true ↔ errorType p.2.1 = .noError
  result : p.2.2.isSome = p.1

section Agrees

variable {α : Type} {ret : EupdRetCode}

theorem errorType_code : errorType ret.code = .noError ↔ ret.isError = false := by
  cases ret <;> decide

theorem agrees_failed (h : ret.isError = true) :
    Agrees ((false, ret.code, none) : Bool × Nat × Option α) := by
  refine ⟨?_, rfl⟩
  rw [errorType_code, h]
  simp

theorem agrees_answered (h : ret.isError = false) (a : α) : Agrees (true, ret.code, some a) := by
  refine ⟨?_, rfl⟩
  rw [errorType_code, h]
  simp

end Agrees

variable {env : Env} {live : List Nat} {grant : Nat → Bool}

/-! ## One software -/

/-- The number of the blocks that a check leaves behind. -/
def checkLeaves (env : Env) (url : List CChar) (inSoftware : EupdInSoftware) (allowInsecure : Int32)
    (L : Ledger) : Nat :=
  if checkInput inSoftware then leftBehindBy env url allowInsecure (some inSoftware) L else 0

/-- A check on a zeroed struct, of a software that may be rejected. -/
theorem updaterCheck_made (env : Env) (url : List CChar) (sw : EupdInSoftware)
    (allowInsecure : Int32) {L : Ledger} (hL : Owes live L) :
    Triple (fun r K => r = EupdResult.zero ∧ K = L) (updaterCheck env url sw allowInsecure)
      (Answered L.grant live (checkLeaves env url sw allowInsecure L) sw)
      (fun e _ => Thrown L.grant live 1 e) := by
  unfold checkLeaves
  cases hsw : checkInput sw with
  | false =>
    intro r K hstate
    obtain ⟨rfl, rfl⟩ := hstate
    rw [updaterCheck_rejects env url hsw]
    exact ⟨rfl, [], ⟨hL, rfl⟩, rfl⟩
  | true => exact (updaterCheck_owns env url hsw allowInsecure hL).pre fun _ _ h => h.2

/-- What is raised is the exception of the library, with `n` blocks left behind, or that of a URL that
is not ASCII, before anything is done. -/
def Raises (L : Ledger) (live : List Nat) (n : Nat) (e : PyError) (K : Ledger) : Prop :=
  (∃ raised, e = .library raised ∧ Thrown L.grant live n raised K) ∨
    e = .unicodeEncodeError ∧ K = L

/-- **The blocks of a check.** Whatever the transfer library answers and whatever requests are
refused, `check` raises nothing but the exception of the library, which leaves the text of the
document behind, and that of a URL that is not ASCII before anything is done. What it returns agrees
in its parts, and of what was acquired nothing is left but what the library leaves behind. -/
theorem check_owns (env : Env) (url : List Char) (software : Software) (allowInsecure : Bool)
    {L : Ledger} (hL : Owes live L) :
    Triple (fun _ K => K = L) (check env url software allowInsecure)
      (fun p _ K => Agrees p ∧ ∃ asc left, encodeAscii url = .ok asc ∧ Owes (left ++ live) K ∧
        left.length = checkLeaves env (content asc.val) software.inSw (cInt allowInsecure) L)
      (fun e _ K => Raises L live 1 e K) := by
  unfold check
  cases hurl : encodeAscii url with
  | error e => exact Triple.throw fun _ _ h => Or.inr ⟨encodeAscii_error hurl, h⟩
  | ok asc =>
    refine Triple.bind_pure ?_
    refine Triple.pre (P := fun _ K => True ∧ K = L) ?_ fun _ _ h => ⟨trivial, h⟩
    refine Triple.bind_withObj_ledger
      (F := fun e K => ∃ raised, e = .library raised ∧ Thrown L.grant live 1 raised K)
      (call_triple (updaterCheck_made env _ software.inSw _ hL)) (fun _ _ _ _ h => Or.inl h) ?_
    intro ret r
    dsimp only
    rw [internalIsError_code]
    rintro x K ⟨-, hmade, left, howes, hleft⟩
    cases herr : ret.isError with
    | true =>
      rw [ItemMade, if_pos herr] at hmade
      rw [hmade] at howes
      exact ⟨agrees_failed herr, asc, left, rfl, howes.1, hleft⟩
    | false =>
      rw [ItemMade, herr] at hmade
      obtain ⟨entries, hentries, hshows⟩ := hmade
      rw [if_neg (by decide)]
      split_ifs with hstatus
      · have hlink : r.link = none := hshows.link_eq_none (libStatus_eq_iff.mp hstatus)
        rw [hlink] at howes
        exact ⟨agrees_answered herr _, asc, left, rfl, howes.1, hleft⟩
      · obtain ⟨res, hres, -⟩ := exists_usrRes hentries hshows (mt libStatus_eq_iff.mpr hstatus)
        rw [hres]
        refine (?_ : Triple (Within (OwesUnder L.grant (r.link.ids ++ (left ++ live)))
          fun _ => True) _ _ _) x K ⟨trivial, howes⟩
        refine Triple.bind_pure (call_bind_owes Releases.free free_owes (Triple.pure ?_))
        exact fun x K h => ⟨agrees_answered herr _, asc, left, rfl, h.2.1, hleft⟩

/-- What the user is told of the outcome of a check. -/
inductive CheckTold : CheckOutcome → Except PyError (Bool × Nat × Option Result) → Prop
  | rejected : CheckTold .rejected (.ok (false, EupdRetCode.eInvalidArgument.code, none))
  | raised (e : Raised) : CheckTold (.raised e) (.error (.library e))
  | failed {ret : EupdRetCode} {a : Answer} : ret.isError = true →
      CheckTold (.answered ret a) (.ok (false, ret.code, none))
  | answered {ret : EupdRetCode} {a : Answer} {res : Result} : ret.isError = false → Tells a res →
      CheckTold (.answered ret a) (.ok (true, ret.code, some res))

theorem outcomeList_publishable {o : Outcome} {code : EupdRetCode} {entries : List Entry}
    (h : outcomeList o = .ok (code, entries)) : ∀ e ∈ entries, e.Publishable := by
  cases o with
  | received body => exact publishable_of_documentList h
  | failed ret text =>
    cases h
    exact List.forall_mem_nil _

/-- The answers of a check are those of a list that can be published. -/
theorem exists_entries {url : List CChar} {sw : EupdInSoftware} {allowInsecure : Int32}
    {ret : EupdRetCode} {a : Answer} (h : checkOutcome env url sw allowInsecure = .answered ret a) :
    ∃ entries : List Entry, (∀ e ∈ entries, e.Publishable) ∧ a = answer entries sw := by
  unfold checkOutcome at h
  split at h
  · split at h
    · rename_i code entries hlist
      cases h
      exact ⟨entries, outcomeList_publishable hlist, rfl⟩
    · cases h
  · cases h

/-- **A check from Python tells what the check is for.** Whatever the library answers, with every
request granted `check` ends as the abstract check does, with its answer decoded. -/
theorem check_tells {url : List Char} {asc : Ascii} (hurl : encodeAscii url = .ok asc)
    (hb : BoundedFor env.curl (content asc.val)) (software : Software) (allowInsecure : Bool)
    {L : Ledger} (hL : L.AllGranted) :
    ∃ x L', (check env url software allowInsecure).exec () L = (x, (), L') ∧
      CheckTold (checkOutcome env (content asc.val) software.inSw (cInt allowInsecure)) x := by
  have hshown := updaterCheck_shown hb software.inSw (cInt allowInsecure) .zero
  have hentries := @exists_entries env (content asc.val) software.inSw (cInt allowInsecure)
  generalize checkOutcome env (content asc.val) software.inSw (cInt allowInsecure) = outcome
    at hshown hentries ⊢
  have htriple : Triple (Granted fun _ => True) (check env url software allowInsecure)
      (fun p => Granted fun _ => CheckTold outcome (.ok p))
      (fun e => Granted fun _ => CheckTold outcome (.error e)) := by
    unfold check
    rw [hurl]
    refine Triple.bind_pure ?_
    refine Triple.bind_withObj_throws (F := fun e => CheckTold outcome (.error e))
      ((call_triple hshown).conseq (fun _ _ h => h) (fun _ _ _ h => h) ?_)
      (fun e x L he hx => ⟨he, hx.2⟩) ?_
    · rintro e r L ⟨raised, rfl, hends, hL⟩
      refine ⟨?_, hL⟩
      cases outcome with
      | rejected => cases hends.1
      | raised e =>
        obtain rfl := Except.error.inj hends.1
        exact .raised _
      | answered => cases hends.1
    intro ret r hends
    dsimp only
    rw [internalIsError_code]
    cases outcome with
    | rejected =>
      obtain rfl := Except.ok.inj hends.1
      exact Triple.pure fun x L h => ⟨.rejected, h.2⟩
    | raised e => cases hends.1
    | answered ret' a =>
      obtain ⟨entries, hpublishable, rfl⟩ := hentries rfl
      obtain ⟨hret, hshows⟩ := hends
      obtain rfl := Except.ok.inj hret
      split_ifs with herr hstatus
      · exact Triple.pure fun x L h => ⟨.failed herr, h.2⟩
      · have hunknown := hshows.status.symm.trans (libStatus_eq_iff.mp hstatus)
        exact Triple.pure fun x L h => ⟨.answered (by simpa using herr) (.notKnown hunknown), h.2⟩
      · obtain ⟨res, hres, htells⟩ :=
          exists_usrRes hpublishable hshows (mt libStatus_eq_iff.mpr hstatus)
        rw [hres]
        refine Triple.bind_pure ((releases_call Releases.free).bind_triple (fun _ _ _ h => h) ?_)
        exact Triple.pure fun x L h => ⟨.answered (by simpa using herr) htells, h.2⟩
  obtain ⟨x, _, L', hexec, htold, -⟩ :=
    htriple.ends (T := fun x => Granted fun _ => CheckTold outcome x) (x := ()) ⟨trivial, hL⟩
  exact ⟨x, L', hexec, htold⟩

/-- The software `ed` in version 1.0. -/
def sampleSoftware : Software := ⟨⟨ascii "ed", rfl⟩, ⟨1, 0, ⟨[], rfl⟩, by decide⟩, by decide⟩

/-- The requests are refused from the fourth on. -/
theorem check_owns_sample :
    Triple (fun _ K => K = .start fun n => n < 3) (check sampleEnv ['h'] sampleSoftware false)
      (fun p _ K => Agrees p ∧ ∃ asc left, encodeAscii ['h'] = .ok asc ∧ Owes (left ++ []) K ∧
        left.length = checkLeaves sampleEnv (content asc.val) sampleSoftware.inSw (cInt false)
          (.start fun n => n < 3))
      (fun e _ K => Raises (.start fun n => n < 3) [] 1 e K) :=
  check_owns sampleEnv ['h'] sampleSoftware false (Owes.start _)

/-- The list has 1.0a, with a critical fix. -/
theorem check_tells_sample :
    ∃ x L', (check sampleEnv ['h'] sampleSoftware false).exec () (.start fun _ => true) =
        (x, (), L') ∧ ∃ res, x = .ok (true, 0, some res) ∧ res.status = .updateRequired := by
  obtain ⟨x, L', hexec, htold⟩ := @check_tells sampleEnv ['h'] ⟨['h'.toUInt8], rfl⟩ rfl
    (sampleEnv_delivers _).bounded sampleSoftware false (.start fun _ => true) fun _ => rfl
  refine ⟨x, L', hexec, ?_⟩
  have hstatus : (answer sampleEntries sampleSoftware.inSw).status = .updateRequired := by
    decide +kernel
  have hcode : checkCode .ok (answer sampleEntries sampleSoftware.inSw) = .ok := by
    rw [checkCode_eq (Or.inl rfl), if_neg (by decide), hstatus, if_neg (by decide)]
  have houtcome := checkOutcome_of_delivers (sampleEnv_delivers ['h'.toUInt8])
    (by decide : checkInput sampleSoftware.inSw = true) 0 documentList_sample
  rw [hcode] at houtcome
  rw [show content ['h'.toUInt8] = ['h'.toUInt8] from rfl, show cInt false = 0 from rfl,
    houtcome] at htold
  generalize answer sampleEntries sampleSoftware.inSw = a at hstatus htold
  cases htold with
  | failed herr => cases herr
  | answered _ htells =>
    refine ⟨_, rfl, ?_⟩
    cases htells with
    | notKnown hunknown => cases hstatus.symm.trans hunknown
    | known => exact congrArg usrStatus hstatus

/-! ## Many softwares -/

/-- A count that a `c_int` holds. -/
theorem toNat_cInt {n : Nat} (h : n < 2 ^ 31) : (Int32.ofNat n).toInt.toNat = n := by
  rw [Int32.toInt_ofNat_of_lt h]
  exact Int.toNat_natCast n

theorem toNat_cInt_widened {n : Nat} (h : n < 2 ^ 31) :
    ((Int32.ofNat n).toInt % 2 ^ 64).toNat = n := by
  rw [Int32.toInt_ofNat_of_lt h]
  omega

/-- The results of an array that is counted in full. -/
theorem take_results {out : CheckMany} {results : List EupdResult}
    (hval : out.outResults.val? = some results) (hnum : out.numResults = results.length) :
    (out.outResults.val?.getD []).take out.numResults = results := by
  rw [hval, hnum]
  exact List.take_length

/-- **The blocks of a batch.** Whatever the transfer library answers and whatever requests are
refused, `check_many` raises nothing but the exception of the library, which leaves the text of the
document and the array behind, and that of a URL that is not ASCII before anything is done. Without an
error it returns an item for each software, and of what was acquired nothing is left but what the
library leaves behind. -/
theorem checkMany_owns (env : Env) (url : List Char) {softwareList : List Software}
    (hlen : softwareList.length < 2 ^ 31) (allowInsecure : Bool) {L : Ledger} (hL : Owes live L) :
    Triple (fun _ K => K = L) (checkMany env url softwareList allowInsecure)
      (fun p _ K => (Agrees p ∧ ∀ outs, p.2.2 = some outs → outs.length = softwareList.length) ∧
        ∃ asc left, encodeAscii url = .ok asc ∧ Owes (left ++ live) K ∧
          left.length = manyLeftBehindBy env (content asc.val) (cInt allowInsecure) L)
      (fun e _ K => Raises L live 2 e K) := by
  unfold checkMany
  cases hurl : encodeAscii url with
  | error e => exact Triple.throw fun _ _ h => Or.inr ⟨encodeAscii_error hurl, h⟩
  | ok asc =>
    refine Triple.bind_pure ?_
    refine Triple.pre (P := fun _ K => True ∧ K = L) ?_ fun _ _ h => ⟨trivial, h⟩
    refine Triple.bind_withObj_ledger
      (F := fun e K => ∃ raised, e = .library raised ∧ Thrown L.grant live 2 raised K)
      ((call_triple (@updaterCheckMany_owns live env _ (softwareList.map Software.inSw) _ none L
        hL)).pre ?_) (fun _ _ _ _ h => Or.inl h) ?_
    · rintro out K ⟨rfl, rfl⟩
      exact ⟨rfl, rfl⟩
    intro ret out
    dsimp only
    rw [internalIsError_code]
    rintro x K ⟨-, left, hleft, hends⟩
    cases herr : ret.isError with
    | true =>
      rw [if_pos herr] at hends
      exact ⟨⟨agrees_failed herr, fun _ h => (nomatch h)⟩, asc, left, rfl, hends.2.1, hleft⟩
    | false =>
      rw [herr] at hends
      obtain ⟨⟨results, hval, hnum, hanswers⟩, howes⟩ := hends
      have hshort : out.numResults < 2 ^ 31 := by
        rw [hnum, ← hanswers.length_eq, List.length_map]
        exact hlen
      rw [if_neg (by decide), toNat_cInt hshort, toNat_cInt_widened hshort, take_results hval hnum]
      have hout : List.Forall₂ (fun software r => ∀ idx, softwareList[idx]? = some software →
          ∃ out, resultOut softwareList idx r = .ok out ∧ True) softwareList results := by
        refine (List.forall₂_map_left_iff.mp hanswers).imp ?_
        rintro software r ⟨entries, hentries, hshows⟩ idx hidx
        obtain ⟨out, hres, -⟩ := exists_resultOut hentries hshows hidx
        exact ⟨out, hres, trivial⟩
      obtain ⟨outs, houts, hlength⟩ := @exists_resultsOut _ _ _ _ hout 0 rfl
      rw [houts]
      refine (?_ : Triple (Within (OwesUnder L.grant (out.blocks ++ (left ++ live)))
        fun _ => True) _ _ _) x K ⟨trivial, howes⟩
      refine Triple.bind_pure (call_bind_owes (updaterFreeResultList_releases _ _)
        (updaterFreeResultList_owes out) (Triple.pure fun x K h => ?_))
      refine ⟨⟨agrees_answered herr _, fun _ hsome => ?_⟩, asc, left, rfl, h.2.1, hleft⟩
      cases hsome
      exact hlength.length_eq.symm

/-- What the user is told of the outcome of a batch. -/
inductive BatchTold (softwareList : List Software) :
    BatchOutcome → Except PyError (Bool × Nat × Option (List ResultOut)) → Prop
  | raised (e : Raised) : BatchTold softwareList (.raised e) (.error (.library e))
  | failed {ret : EupdRetCode} : ret.isError = true →
      BatchTold softwareList (.failed ret) (.ok (false, ret.code, none))
  | answered {ret : EupdRetCode} {answers : List Answer} {outs : List ResultOut} :
      ret.isError = false →
      List.Forall₂ (fun p out => TellsOut p.1 p.2 out) (softwareList.zip answers) outs →
      BatchTold softwareList (.answered ret answers) (.ok (true, ret.code, some outs))

theorem batchOutcome_failed {url : List CChar} {sws : List EupdInSoftware} {allowInsecure : Int32}
    {ret : EupdRetCode} (h : batchOutcome env url sws allowInsecure = .failed ret) :
    ret.isError = true := by
  unfold batchOutcome at h
  split at h
  · split_ifs at h with hcode
    · cases h
      exact hcode
    · cases h
      rfl
  · cases h

theorem batchOutcome_answered {url : List CChar} {sws : List EupdInSoftware}
    {allowInsecure : Int32} {ret : EupdRetCode} {answers : List Answer}
    (h : batchOutcome env url sws allowInsecure = .answered ret answers) :
    ret.isError = false ∧ ∃ entries : List Entry, (∀ e ∈ entries, e.Publishable) ∧
      answers = sws.map (answer entries) := by
  unfold batchOutcome at h
  split at h
  · rename_i code entries hlist
    split_ifs at h with hcode hall
    cases h
    refine ⟨batchCode_isError (by simpa using hcode) sws, entries, ?_, rfl⟩
    exact outcomeList_publishable hlist
  · cases h

/-- **A batch from Python tells what the batch is for.** Whatever the library answers, with every
request granted `check_many` ends as the abstract batch does, with its answers decoded. -/
theorem checkMany_tells {url : List Char} {asc : Ascii} (hurl : encodeAscii url = .ok asc)
    (hb : BoundedFor env.curl (content asc.val)) {softwareList : List Software}
    (hlen : softwareList.length < 2 ^ 31) (allowInsecure : Bool) {L : Ledger}
    (hL : L.AllGranted) :
    ∃ x L', (checkMany env url softwareList allowInsecure).exec () L = (x, (), L') ∧
      BatchTold softwareList (batchOutcome env (content asc.val)
        (softwareList.map Software.inSw) (cInt allowInsecure)) x := by
  have hshown := updaterCheckMany_shown hb (softwareList.map Software.inSw) (cInt allowInsecure)
    none
  have hfailed := @batchOutcome_failed env (content asc.val) (softwareList.map Software.inSw)
    (cInt allowInsecure)
  have hanswered := @batchOutcome_answered env (content asc.val)
    (softwareList.map Software.inSw) (cInt allowInsecure)
  generalize batchOutcome env (content asc.val) (softwareList.map Software.inSw)
    (cInt allowInsecure) = outcome at hshown hfailed hanswered ⊢
  have htriple : Triple (Granted fun _ => True) (checkMany env url softwareList allowInsecure)
      (fun p => Granted fun _ => BatchTold softwareList outcome (.ok p))
      (fun e => Granted fun _ => BatchTold softwareList outcome (.error e)) := by
    unfold checkMany
    rw [hurl]
    refine Triple.bind_pure ?_
    refine Triple.bind_withObj_throws (F := fun e => BatchTold softwareList outcome (.error e))
      ((call_triple hshown).conseq ?_ (fun _ _ _ h => h) ?_) (fun e x L he hx => ⟨he, hx.2⟩) ?_
    · rintro _ L ⟨rfl, hL⟩
      exact ⟨rfl, hL⟩
    · rintro e out L ⟨raised, rfl, hends, hL⟩
      refine ⟨?_, hL⟩
      cases outcome with
      | raised e =>
        obtain rfl := Except.error.inj hends.1
        exact .raised _
      | failed => cases hends.1
      | answered => cases hends.1
    intro ret out hends
    dsimp only
    rw [internalIsError_code]
    cases outcome with
    | raised e => cases hends.1
    | failed ret' =>
      have herr := hfailed rfl
      obtain rfl := Except.ok.inj hends.1
      rw [if_pos herr]
      exact Triple.pure fun x L h => ⟨.failed herr, h.2⟩
    | answered ret' answers =>
      obtain ⟨herr, entries, hentries, rfl⟩ := hanswered rfl
      obtain ⟨hret, hnum, results, hval, hshows⟩ := hends
      obtain rfl := Except.ok.inj hret
      have hshort : out.numResults < 2 ^ 31 := by
        rw [hnum, List.length_map, List.length_map]
        exact hlen
      rw [if_neg (by simp [herr]), toNat_cInt hshort, toNat_cInt_widened hshort,
        take_results hval (hnum.trans hshows.length_eq.symm)]
      have hout : List.Forall₂ (fun software r => ∀ idx, softwareList[idx]? = some software →
          ∃ out, resultOut softwareList idx r = .ok out ∧
            TellsOut software (answer entries software.inSw) out) softwareList results := by
        rw [List.map_map, List.forall₂_map_right_iff] at hshows
        exact hshows.flip.imp fun software r hr idx hidx => exists_resultOut hentries hr hidx
      obtain ⟨outs, houts, htells⟩ := @exists_resultsOut _ _ _ _ hout 0 rfl
      rw [houts]
      refine Triple.bind_pure ((releases_call (updaterFreeResultList_releases _ _)).bind_triple
        (fun _ _ _ h => h) (Triple.pure fun x L h => ⟨.answered herr ?_, h.2⟩))
      have hzip := @List.zip_map' _ _ _ id (answer entries ∘ Software.inSw) softwareList
      rw [List.map_id] at hzip
      rw [List.map_map, hzip, List.forall₂_map_left_iff]
      exact htells
  obtain ⟨x, _, L', hexec, htold, -⟩ := htriple.ends
    (T := fun x => Granted fun _ => BatchTold softwareList outcome x) (x := ()) ⟨trivial, hL⟩
  exact ⟨x, L', hexec, htold⟩

theorem checkMany_owns_sample :
    Triple (fun _ K => K = .start fun n => n < 3)
      (checkMany sampleEnv ['h'] [sampleSoftware, sampleSoftware] false)
      (fun p _ K => (Agrees p ∧ ∀ outs, p.2.2 = some outs → outs.length = 2) ∧
        ∃ asc left, encodeAscii ['h'] = .ok asc ∧ Owes (left ++ []) K ∧ left.length =
          manyLeftBehindBy sampleEnv (content asc.val) (cInt false) (.start fun n => n < 3))
      (fun e _ K => Raises (.start fun n => n < 3) [] 2 e K) :=
  @checkMany_owns [] sampleEnv ['h'] [sampleSoftware, sampleSoftware] (by decide) false _
    (Owes.start _)

theorem checkMany_tells_sample :
    ∃ x L', (checkMany sampleEnv ['h'] [sampleSoftware] false).exec () (.start fun _ => true) =
        (x, (), L') ∧ BatchTold [sampleSoftware]
          (batchOutcome sampleEnv (content ['h'.toUInt8]) [sampleSoftware.inSw] (cInt false)) x :=
  @checkMany_tells sampleEnv ['h'] ⟨['h'.toUInt8], rfl⟩ rfl (sampleEnv_delivers _).bounded
    [sampleSoftware] (by decide) false (.start fun _ => true) fun _ => rfl

end UpdateCheck.Python
