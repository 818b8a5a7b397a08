import UpdateCheck.Updater.Answer

/-!
# The check of many

The loop of `updater_check_many` hands the code of each item to the next one. It leaves behind the
results answered so far and zero structs (`Filled`), so `process_item` finds every slot as
`updater_check` leaves its own; the code that goes round is the first warning met (`batchCode`).
From the two, a batch of accepted softwares agrees item by item with the single checks, and a
rejected software anywhere ends in an error that keeps the results away from the caller
(`updaterCheckMany_agrees`).
-/

namespace UpdateCheck.Updater

open Comparator ListParser Fetcher

/-! ## The code of a batch -/

/-- The code that comes out of the loop that was entered with `code`. -/
def batchCode (entries : List Entry) (code : EupdRetCode) (sws : List EupdInSoftware) :
    EupdRetCode :=
  sws.foldl (fun code sw => itemCode code (answer entries sw)) code

theorem itemCode_isError {code : EupdRetCode} (h : code.isError = false) (a : Answer) :
    (itemCode code a).isError = false := by
  unfold itemCode
  split_ifs
  · exact h
  · rfl
  · rfl

/-- A warning goes through the loop unchanged. -/
theorem batchCode_of_isWarning {entries : List Entry} {code : EupdRetCode}
    (h : code.isWarning = true) (sws : List EupdInSoftware) : batchCode entries code sws = code := by
  induction sws with
  | nil => rfl
  | cons sw sws ih =>
    rw [batchCode, List.foldl_cons, itemCode, if_pos h]
    exact ih

/-- Without an earlier warning the code tells whether a software was not found. -/
theorem batchCode_ok (entries : List Entry) (sws : List EupdInSoftware) :
    batchCode entries .ok sws =
      if ∃ sw ∈ sws, (answer entries sw).status = .unknown then .wNotFound else .ok := by
  induction sws with
  | nil => simp [batchCode]
  | cons sw sws ih =>
    rw [batchCode, List.foldl_cons, itemCode, if_neg (by decide)]
    by_cases h : (answer entries sw).status = .unknown
    · rw [if_pos h, if_pos ⟨sw, List.mem_cons_self, h⟩]
      exact batchCode_of_isWarning rfl sws
    · rw [if_neg h]
      refine ih.trans ?_
      simp [h]

theorem batchCode_isError {entries : List Entry} {code : EupdRetCode} (h : code.isError = false)
    (sws : List EupdInSoftware) : (batchCode entries code sws).isError = false := by
  induction sws generalizing code with
  | nil => exact h
  | cons sw sws ih => exact ih (itemCode_isError h _)

/-! ## The loop -/

def Answers (entries : List Entry) (results : List EupdResult) (sws : List EupdInSoftware) :
    Prop :=
  List.Forall₂ (fun result sw => Shows result (answer entries sw)) results sws

/-- The array in the middle of the loop: the results of `seen`, then `rest` zero structs. -/
def Filled (entries : List Entry) (seen : List EupdInSoftware) (rest : Nat)
    (results : Ptr (List EupdResult)) : Prop :=
  ∃ shown, results.val? = some (shown ++ List.replicate rest EupdResult.zero) ∧
    Answers entries shown seen

theorem Filled.next {entries : List Entry} {seen : List EupdInSoftware} {rest : Nat}
    {results : Ptr (List EupdResult)} (h : Filled entries seen (rest + 1) results) :
    (results.val?.getD []).getD seen.length .zero = EupdResult.zero := by
  obtain ⟨shown, hval, hanswers⟩ := h
  rw [hval, ← hanswers.length_eq]
  simp [List.replicate_succ]

theorem Filled.set {entries : List Entry} {seen : List EupdInSoftware} {rest : Nat}
    {results : Ptr (List EupdResult)} (h : Filled entries seen (rest + 1) results)
    {sw : EupdInSoftware} {result : EupdResult} (hr : Shows result (answer entries sw)) :
    Filled entries (seen ++ [sw]) rest (setResult seen.length result results) := by
  obtain ⟨shown, hval, hanswers⟩ := h
  obtain ⟨b, rfl, hb⟩ := Option.map_eq_some_iff.mp hval
  refine ⟨shown ++ [result], ?_, List.rel_append hanswers (.cons hr .nil)⟩
  refine congrArg some ?_
  change b.val.set seen.length result = _
  rw [hb, ← hanswers.length_eq, List.replicate_succ, List.set_append_right _ _ le_rfl,
    Nat.sub_self, List.set_cons_zero, List.append_assoc]
  rfl

/-- What the loop leaves behind, entered with `code` after `seen`. -/
def LoopEnds (entries : List Entry) (code : EupdRetCode) (seen sws : List EupdInSoftware)
    (outResults : Ptr (List EupdResult)) (r : EupdRetCode × Ptr (List EupdResult))
    (out : CheckMany) : Prop :=
  out.outResults = outResults ∧
    if ∀ sw ∈ sws, checkInput sw = true then
      r.1 = batchCode entries code sws ∧ out.numResults = seen.length + sws.length ∧
        Filled entries (seen ++ sws) 0 r.2
    else r.1 = .eInvalidArgument

variable {G : Ledger → Prop} [Stable G]

/-- The loop answers the softwares one after the other, up to the first that is rejected or whose
link finds no memory. -/
theorem checkItems_ends {list : SoftwareList} {entries : List Entry} (h : Holds list entries)
    (hnamed : ∀ e ∈ entries, ∀ lv ∈ e.history, lv.severity.Named)
    {outResults : Ptr (List EupdResult)} (sws seen : List EupdInSoftware) {code : EupdRetCode}
    (hcode : code.isError = false) {results : Ptr (List EupdResult)}
    (hfilled : Filled entries seen sws.length results) :
    Triple (Within G fun out => out.outResults = outResults ∧ out.numResults = seen.length)
      (checkItems list seen.length code results sws)
      (fun r out L => (LoopEnds entries code seen sws outResults r out ∨
        out.outResults = outResults ∧ r.1 = .eNoMemory ∧ ¬ L.AllGranted) ∧ G L)
      (fun _ _ _ => False) := by
  induction sws generalizing seen code results with
  | nil =>
    refine Triple.pure fun out L hout => ⟨Or.inl ⟨hout.1.1, ?_⟩, hout.2⟩
    rw [if_pos (by simp), List.append_nil]
    exact ⟨rfl, hout.1.2, hfilled⟩
  | cons sw sws ih =>
    unfold checkItems
    cases hsw : checkInput sw with
    | false =>
      refine Triple.pure fun out L hout => ⟨Or.inl ⟨hout.1.1, ?_⟩, hout.2⟩
      rw [if_neg fun hall => by simpa [hsw] using hall sw List.mem_cons_self]
    | true =>
      have herr := itemCode_isError hcode (answer entries sw)
      dsimp only [Bool.not_true, Bool.false_eq_true, if_false]
      rw [hfilled.next]
      refine Triple.bind_withObj_ledger (F := fun _ _ => False)
        (processItem_ends (G := G) h hnamed sw code) (fun _ _ _ _ => False.elim) ?_
      intro ret result
      rintro out L ⟨⟨hout, hnum⟩, ⟨rfl, hshows⟩ | ⟨rfl, hlink, hnot⟩, hL⟩
      · dsimp only
        rw [herr]
        refine (?_ : Triple (Within G (· = out)) _ _ _) out L ⟨rfl, hL⟩
        refine Triple.bind_modifyObj (K := fun out => out.outResults = outResults ∧
          out.numResults = (seen ++ [sw]).length) ?_ ?_
        · rintro _ rfl
          exact ⟨hout, by simp⟩
        · have hrest := ih (seen ++ [sw]) herr (hfilled.set hshows)
          rw [List.length_append, List.length_singleton] at hrest ⊢
          refine hrest.post ?_
          intro r out L hstate
          obtain ⟨⟨hout, hends⟩ | hgiven, hL⟩ := hstate
          · refine ⟨Or.inl ⟨hout, ?_⟩, hL⟩
            simp only [List.forall_mem_cons, hsw, true_and]
            split_ifs at hends ⊢ with hall
            · obtain ⟨hret, hnum, hfill⟩ := hends
              refine ⟨hret, ?_, by simpa using hfill⟩
              rw [hnum]
              simp only [List.length_append, List.length_cons, List.length_nil]
              omega
            · exact hends
          · exact ⟨Or.inr hgiven, hL⟩
      · exact ⟨Or.inr ⟨hout, rfl, hnot⟩, hL⟩

/-- With every allocation granted no link is missing. -/
theorem checkItems_spec {list : SoftwareList} {entries : List Entry} (h : Holds list entries)
    (hnamed : ∀ e ∈ entries, ∀ lv ∈ e.history, lv.severity.Named)
    {outResults : Ptr (List EupdResult)} (sws seen : List EupdInSoftware) {code : EupdRetCode}
    (hcode : code.isError = false) {results : Ptr (List EupdResult)}
    (hfilled : Filled entries seen sws.length results) :
    Triple (Granted fun out => out.outResults = outResults ∧ out.numResults = seen.length)
      (checkItems list seen.length code results sws)
      (fun r => Granted (LoopEnds entries code seen sws outResults r))
      (fun _ _ _ => False) := by
  refine (checkItems_ends h hnamed sws seen hcode hfilled).post ?_
  intro r out L hstate
  obtain ⟨hends | ⟨-, -, hnot⟩, hL⟩ := hstate
  · exact ⟨hends, hL⟩
  · exact absurd hL hnot

/-! ## The batch -/

section Release

variable {σ : Type}

theorem freeResults_computes (results : List EupdResult) :
    Computes (freeResults results : Prog Raised σ Unit) (.ok ()) := by
  induction results with
  | nil => exact .pure
  | cons result results ih => exact .bind .free ih

theorem updaterFreeResultList_computes (results : Ptr (List EupdResult)) (numResults : Nat) :
    Computes (updaterFreeResultList results numResults : Prog Raised σ Unit) (.ok ()) :=
  .bind (freeResults_computes _) .free

end Release

variable {env : Env} {url doc : List CChar}

/-- What a batch on a list that came with `code` leaves behind. -/
def BatchEnds (entries : List Entry) (code : EupdRetCode) (sws : List EupdInSoftware)
    (outResults : Ptr (List EupdResult)) (ret : EupdRetCode) (out : CheckMany) : Prop :=
  if ∀ sw ∈ sws, checkInput sw = true then
    ret = batchCode entries code sws ∧ out.numResults = sws.length ∧
      Filled entries sws 0 out.outResults
  else ret = .eInvalidArgument ∧ out.outResults = outResults

/-- A batch ends as its loop does on the list that the remote side gives. Where there is no list it
releases the array and returns the code of the failure. -/
theorem updaterCheckMany_outcome (hb : BoundedFor env.curl url) (sws : List EupdInSoftware)
    (allowInsecure : Int32) (outResults : Ptr (List EupdResult)) :
    Triple (Granted fun out => out.outResults = outResults)
      (updaterCheckMany env url sws allowInsecure)
      (fun ret => Granted fun out => ∃ code entries,
        listFor env url allowInsecure none = .ok (code, entries) ∧
          if code.isError then ret = code ∧ out.outResults = outResults
          else BatchEnds entries code sws outResults ret out)
      (fun e => Granted fun out => listFor env url allowInsecure none = .error e ∧
        out.outResults = outResults) := by
  refine Triple.bind_malloc fun b hb' => ?_
  rw [if_neg (by simp)]
  refine Triple.bind_modifyObj
    (K := fun out => out.outResults = outResults ∧ out.numResults = 0) ?_ ?_
  · exact fun out hout => ⟨hout, rfl⟩
  refine Triple.bind_withObj_throws (makeList_outcome hb allowInsecure none)
    (fun e out L he hout => ⟨⟨he, hout.1.1⟩, hout.2⟩) ?_
  intro code list hstate
  obtain ⟨entries, hlistFor, hlist⟩ := hstate
  -- both ways out with an error release the list and the array
  have hfail : ∀ (ret : EupdRetCode) (results : Ptr (List EupdResult)),
      Triple (Granted fun out : CheckMany => out.outResults = outResults)
        (do
          let out ← readObj
          parserFreeList list
          updaterFreeResultList results out.numResults
          return ret : Prog Raised CheckMany EupdRetCode)
        (fun ret' => Granted fun out => ret' = ret ∧ out.outResults = outResults)
        (fun _ _ _ => False) := by
    intro ret results
    refine Triple.bind_readObj fun out hout => ?_
    refine (parserFreeList_computes list).bind_triple ?_
    refine (updaterFreeResultList_computes results _).bind_triple (Triple.pure ?_)
    rintro _ L ⟨rfl, hL⟩
    exact ⟨⟨rfl, hout⟩, hL⟩
  dsimp only
  cases hcode : code.isError with
  | true =>
    refine ((hfail code (some b)).weaken_error.conseq (fun out L h => ⟨h.1.1, h.2⟩) ?_
      fun _ _ _ h => h)
    intro ret out L h
    exact ⟨⟨code, entries, hlistFor, by rw [if_pos hcode]; exact h.1⟩, h.2⟩
  | false =>
    have hzero : Filled entries [] sws.length (some b) := ⟨[], congrArg some hb', .nil⟩
    refine Triple.bind ((checkItems_spec hlist (outcomeList_named hlistFor) sws [] hcode
      hzero).weaken_error) ?_
    rintro ⟨ret, results⟩ out L ⟨⟨hout, hends⟩, hL⟩
    refine (?_ : Triple (Granted (· = out)) _ _ _) out L ⟨rfl, hL⟩
    by_cases hall : ∀ sw ∈ sws, checkInput sw = true
    · rw [if_pos hall] at hends
      obtain ⟨rfl, hnum, hfilled⟩ := hends
      dsimp only
      rw [batchCode_isError hcode sws]
      refine (parserFreeList_computes list).bind_triple ?_
      refine Triple.bind_modifyObj (K := (· = { out with outResults := results })) ?_ ?_
      · rintro _ rfl
        rfl
      · refine Triple.pure ?_
        rintro _ L ⟨rfl, hL⟩
        refine ⟨⟨code, entries, hlistFor, ?_⟩, hL⟩
        rw [hcode, BatchEnds, if_pos hall]
        exact ⟨rfl, by simpa using hnum, hfilled⟩
    · rw [if_neg hall] at hends
      obtain rfl : ret = .eInvalidArgument := hends
      dsimp only
      rw [if_pos (by decide)]
      refine (hfail _ results).weaken_error.conseq (fun out' L h => ⟨by rw [h.1]; exact hout, h.2⟩)
        ?_ fun _ _ _ h => h
      intro ret' out' L h
      refine ⟨⟨code, entries, hlistFor, ?_⟩, h.2⟩
      rw [hcode, BatchEnds, if_neg hall]
      exact h.1

theorem updaterCheckMany_spec (hd : Delivers env.curl url doc) {code : EupdRetCode}
    {entries : List Entry} (hdoc : documentList (doc ++ [0]) = .ok (code, entries))
    (hcode : code.isError = false) (sws : List EupdInSoftware) (allowInsecure : Int32)
    {outResults : Ptr (List EupdResult)} :
    Triple (Granted fun out => out.outResults = outResults)
      (updaterCheckMany env url sws allowInsecure)
      (fun ret => Granted (BatchEnds entries code sws outResults ret))
      (fun _ _ _ => False) := by
  rw [← listFor_of_delivers hd allowInsecure none] at hdoc
  refine (updaterCheckMany_outcome hd.bounded sws allowInsecure outResults).conseq (fun _ _ => id) ?_ ?_
  · rintro ret out L ⟨⟨code', entries', hlist, hends⟩, hL⟩
    cases hdoc.symm.trans hlist
    rw [hcode] at hends
    exact ⟨hends, hL⟩
  · rintro e out L ⟨⟨hthrows, -⟩, -⟩
    cases hdoc.symm.trans hthrows

/-! ## Batch and single check -/

/-- The code of a batch of accepted softwares. -/
theorem batchCode_eq {list : SoftwareList} {entries : List Entry} (h : Holds list entries)
    {code : EupdRetCode} (hcode : code = .ok ∨ code = .wListIncomplete)
    (sws : List EupdInSoftware) :
    batchCode entries code sws =
      if code = .wListIncomplete then .wListIncomplete
      else if ∃ sw ∈ sws, firstMatch list sw.name = none then .wNotFound else .ok := by
  rcases hcode with rfl | rfl
  · rw [batchCode_ok]
    simp [answer_unknown_iff h]
  · exact batchCode_of_isWarning rfl sws

/-- **A batch agrees with single checks.** Where a document that the parser accepts is delivered
to both entry points and every allocation is granted, a batch of accepted softwares returns no
error and one result for each of them, the same as a single check of it gives, wherever in the
batch it stands. The code tells an incomplete list first and a software not found second. A
software that is rejected, at any position, makes the batch fail and leaves `*out_results`
alone. -/
theorem updaterCheckMany_agrees {env env' : Env} {url url' doc : List CChar}
    (hd : Delivers env.curl url doc) (hd' : Delivers env'.curl url' doc) {code : EupdRetCode}
    {list : SoftwareList} {K : Ledger}
    (hparse : (parserParse (doc ++ [0])).exec .zero (.start fun _ => true) = (.ok code, list, K))
    (hcode : code = .ok ∨ code = .wListIncomplete) (inSoftwareList : List EupdInSoftware)
    (allowInsecure allowInsecure' : Int32) (out : CheckMany) (L : Ledger) (hL : L.AllGranted) :
    ((∀ sw ∈ inSoftwareList, checkInput sw = true) → ∃ ret out' L' results,
      (updaterCheckMany env url inSoftwareList allowInsecure).exec out L = (.ok ret, out', L') ∧
      ret.isError = false ∧ out'.numResults = inSoftwareList.length ∧
      out'.outResults.val? = some results ∧
      List.Forall₂ (fun sw result => ∀ result₀ L₀, L₀.AllGranted → ∃ ret₁ result₁ L₁,
        (updaterCheck env' url' sw allowInsecure').exec result₀ L₀ = (.ok ret₁, result₁, L₁) ∧
          SameResult result result₁) inSoftwareList results ∧
      ret = if code = .wListIncomplete then .wListIncomplete
        else if ∃ sw ∈ inSoftwareList, firstMatch list sw.name = none then .wNotFound else .ok) ∧
    ((∃ sw ∈ inSoftwareList, checkInput sw = false) → ∃ out' L',
      (updaterCheckMany env url inSoftwareList allowInsecure).exec out L =
        (.ok .eInvalidArgument, out', L') ∧ out'.outResults = out.outResults) := by
  obtain ⟨entries, hdoc, hlist⟩ := parserParse_exec (fun _ => rfl) hparse
  have herr : code.isError = false := by
    rcases hcode with rfl | rfl <;> rfl
  obtain ⟨ret, out', L', hexec, hends, -⟩ :=
    (updaterCheckMany_spec hd hdoc herr inSoftwareList allowInsecure).run (x := out) ⟨rfl, hL⟩
  rw [BatchEnds] at hends
  constructor
  · intro hall
    rw [if_pos hall] at hends
    obtain ⟨rfl, hnum, shown, hshown, hanswers⟩ := hends
    refine ⟨_, out', L', shown, hexec, batchCode_isError herr _, hnum, ?_, ?_,
      batchCode_eq hlist hcode _⟩
    · simpa using hshown
    · refine ((List.forall₂_and_left _ _).mpr ⟨hall, hanswers.flip⟩).imp ?_
      rintro sw result ⟨hsw, hshows⟩ result₀ L₀ hL₀
      obtain ⟨result₁, L₁, hcheck, hshows₁⟩ :=
        updaterCheck_run hd' hsw allowInsecure' hdoc result₀ hL₀
      exact ⟨_, result₁, L₁, hcheck, hshows.sameResult hshows₁⟩
  · rintro ⟨sw, hsw, hrejected⟩
    rw [if_neg fun hall => by simpa [hrejected] using hall sw hsw] at hends
    obtain ⟨rfl, hout⟩ := hends
    exact ⟨out', L', hexec, hout⟩

/-- A batch of a software that is listed and one that is not, and a batch of a rejected one. -/
theorem updaterCheckMany_agrees_sample :
    (∃ ret out' L' results,
      (updaterCheckMany sampleEnv [] [sampleInstalled #v[0, 0, 0, 0],
        ⟨strncpyBuf (ascii "vi") nameSize, .zero⟩] 0).exec ⟨none, 7⟩ (.start fun _ => true) =
          (.ok ret, out', L') ∧ ret.isError = false ∧ out'.numResults = 2 ∧
        out'.outResults.val? = some results) ∧
    (∃ out' L', (updaterCheckMany sampleEnv [] [⟨strncpyBuf [] nameSize, .zero⟩] 0).exec
        ⟨none, 7⟩ (.start fun _ => true) = (.ok .eInvalidArgument, out', L') ∧
      out'.outResults = none) := by
  have hd := sampleEnv_delivers []
  obtain ⟨list, K, hparse, -⟩ :=
    parserParse_run documentList_sample (L := .start fun _ => true) fun _ => rfl
  constructor
  · obtain ⟨ret, out', L', results, hexec, herr, hnum, hval, -⟩ :=
      (updaterCheckMany_agrees hd hd hparse (Or.inl rfl) [sampleInstalled #v[0, 0, 0, 0],
        ⟨strncpyBuf (ascii "vi") nameSize, .zero⟩] 0 0 ⟨none, 7⟩ (.start fun _ => true)
        fun _ => rfl).1 (by decide +kernel)
    exact ⟨ret, out', L', results, hexec, herr, hnum, hval⟩
  · exact (updaterCheckMany_agrees hd hd hparse (Or.inl rfl) [⟨strncpyBuf [] nameSize, .zero⟩] 0 0
      ⟨none, 7⟩ (.start fun _ => true) fun _ => rfl).2 (by decide +kernel)

end UpdateCheck.Updater
