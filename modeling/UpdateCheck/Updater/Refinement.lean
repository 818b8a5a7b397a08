import UpdateCheck.ListParser.Image
import UpdateCheck.Updater.Batch
import UpdateCheck.Updater.Body

/-!
# The entry points and what they are for

Two levels of the same component. `checkOutcome` and `batchOutcome` say what a check and a batch are
for: they know of the library only the outcome of a download, and nothing of sessions, buffers,
lists of structs and ownership. The entry points end as these say, whatever the library answers:
with a rejected argument, with the code of a failed download, with the exception of the parser, or
with the answers of the document that was received. Each list that can be published has a document of
which all checks end so: `published_answers`.
-/

namespace UpdateCheck.Updater

open Comparator ListParser Fetcher

variable {env : Env} {url : List CChar}

/-! ## One software -/

/-- How a check may end. -/
inductive CheckOutcome where
  /-- nothing was done -/
  | rejected
  | raised (e : Raised)
  | answered (ret : EupdRetCode) (a : Answer)

/-- What a check is for. -/
def checkOutcome (env : Env) (url : List CChar) (inSoftware : EupdInSoftware)
    (allowInsecure : Int32) : CheckOutcome :=
  if checkInput inSoftware then
    match listFor env url allowInsecure (some inSoftware) with
    | .ok (code, entries) =>
      .answered (checkCode code (answer entries inSoftware)) (answer entries inSoftware)
    | .error e => .raised e
  else .rejected

/-- The code and the result that a check ends with, where it started on `result`. -/
def CheckOutcome.Shown (result : EupdResult) :
    CheckOutcome → Except Raised EupdRetCode → EupdResult → Prop
  | rejected, x, r => x = .ok .eInvalidArgument ∧ r = result
  | raised e, x, r => x = .error e ∧ r = .zero
  | answered ret a, x, r => x = .ok ret ∧ Shows r a

theorem updaterCheck_shown (hb : BoundedFor env.curl url) (inSoftware : EupdInSoftware)
    (allowInsecure : Int32) (result : EupdResult) :
    Triple (Granted (· = result)) (updaterCheck env url inSoftware allowInsecure)
      (fun ret => Granted
        ((checkOutcome env url inSoftware allowInsecure).Shown result (.ok ret)))
      (fun e => Granted
        ((checkOutcome env url inSoftware allowInsecure).Shown result (.error e))) := by
  unfold checkOutcome
  cases hsw : checkInput inSoftware with
  | false =>
    rintro _ L ⟨rfl, hL⟩
    rw [updaterCheck_rejects env url hsw]
    exact ⟨⟨rfl, rfl⟩, hL⟩
  | true =>
    refine (updaterCheck_outcome hb hsw allowInsecure).conseq (fun _ _ h => ⟨trivial, h.2⟩) ?_ ?_
    · rintro ret r L ⟨⟨code, entries, hlist, hret, hshows⟩, hL⟩
      rw [hlist]
      exact ⟨⟨congrArg Except.ok hret, hshows⟩, hL⟩
    · rintro e r L ⟨⟨hlist, hzero⟩, hL⟩
      rw [hlist]
      exact ⟨⟨rfl, hzero⟩, hL⟩

/-- **A check does what it is for.** Whatever the library answers, with every request granted
`updater_check` ends as the abstract check does. -/
theorem updaterCheck_refines (hb : BoundedFor env.curl url) (inSoftware : EupdInSoftware)
    (allowInsecure : Int32) (result : EupdResult) {L : Ledger} (hL : L.AllGranted) :
    ∃ x r L', (updaterCheck env url inSoftware allowInsecure).exec result L = (x, r, L') ∧
      (checkOutcome env url inSoftware allowInsecure).Shown result x r := by
  obtain ⟨x, r, L', hexec, hshown, -⟩ := (updaterCheck_shown hb inSoftware allowInsecure
    result).ends (T := fun x => Granted
      ((checkOutcome env url inSoftware allowInsecure).Shown result x)) ⟨rfl, hL⟩
  exact ⟨x, r, L', hexec, hshown⟩

/-- A document that is delivered answers a software that is not rejected. -/
theorem checkOutcome_of_delivers {doc : List CChar} (hd : Delivers env.curl url doc)
    {sw : EupdInSoftware} (hsw : checkInput sw = true) (allowInsecure : Int32) {code : EupdRetCode}
    {entries : List Entry} (hdoc : documentList (doc ++ [0]) = .ok (code, entries)) :
    checkOutcome env url sw allowInsecure =
      .answered (checkCode code (answer entries sw)) (answer entries sw) := by
  rw [checkOutcome, if_pos hsw, listFor_of_delivers hd, hdoc]

theorem updaterCheck_refines_sample :
    ∃ x r L', (updaterCheck sampleEnv [104] (sampleInstalled #v[0, 0, 0, 0]) 0).exec .zero
        (.start fun _ => true) = (x, r, L') ∧
      r.status = .updateRequired ∧ r.link.val? = some (ascii "l" ++ [0]) := by
  obtain ⟨x, r, L', hexec, hshown⟩ := @updaterCheck_refines sampleEnv [104]
    (sampleEnv_delivers [104]).bounded (sampleInstalled #v[0, 0, 0, 0]) 0 .zero
    (.start fun _ => true) fun _ => rfl
  rw [checkOutcome_of_delivers (sampleEnv_delivers [104]) (by decide) 0 documentList_sample]
    at hshown
  have hstatus : (answer sampleEntries (sampleInstalled #v[0, 0, 0, 0])).status =
      .updateRequired := by decide +kernel
  have hlink : (answer sampleEntries (sampleInstalled #v[0, 0, 0, 0])).link =
      some (ascii "l" ++ [0]) := by decide +kernel
  exact ⟨x, r, L', hexec, hshown.2.status.trans hstatus, hshown.2.link.trans hlink⟩

/-! ## Many softwares -/

/-- How a batch may end. -/
inductive BatchOutcome where
  | raised (e : Raised)
  /-- with an error, and without results -/
  | failed (ret : EupdRetCode)
  | answered (ret : EupdRetCode) (answers : List Answer)

/-- What a batch is for. A software that is rejected is seen only where there is a list. -/
def batchOutcome (env : Env) (url : List CChar) (inSoftwareList : List EupdInSoftware)
    (allowInsecure : Int32) : BatchOutcome :=
  match listFor env url allowInsecure none with
  | .ok (code, entries) =>
    if code.isError then .failed code
    else if ∀ sw ∈ inSoftwareList, checkInput sw = true then
      .answered (batchCode entries code inSoftwareList) (inSoftwareList.map (answer entries))
    else .failed .eInvalidArgument
  | .error e => .raised e

/-- The code and the targets that a batch ends with, where the pointer to the results was
`outResults`. -/
def BatchOutcome.Shown (outResults : Ptr (List EupdResult)) :
    BatchOutcome → Except Raised EupdRetCode → CheckMany → Prop
  | raised e, x, out => x = .error e ∧ out.outResults = outResults
  | failed ret, x, out => x = .ok ret ∧ out.outResults = outResults
  | answered ret answers, x, out => x = .ok ret ∧ out.numResults = answers.length ∧
      ∃ results, out.outResults.val? = some results ∧ List.Forall₂ Shows results answers

theorem updaterCheckMany_shown (hb : BoundedFor env.curl url)
    (inSoftwareList : List EupdInSoftware) (allowInsecure : Int32)
    (outResults : Ptr (List EupdResult)) :
    Triple (Granted fun out => out.outResults = outResults)
      (updaterCheckMany env url inSoftwareList allowInsecure)
      (fun ret => Granted
        ((batchOutcome env url inSoftwareList allowInsecure).Shown outResults (.ok ret)))
      (fun e => Granted
        ((batchOutcome env url inSoftwareList allowInsecure).Shown outResults (.error e))) := by
  unfold batchOutcome
  refine (updaterCheckMany_outcome hb inSoftwareList allowInsecure outResults).conseq
    (fun _ _ => id) ?_ ?_
  · rintro ret out L ⟨⟨code, entries, hlist, hends⟩, hL⟩
    refine ⟨?_, hL⟩
    rw [hlist]
    dsimp only
    split_ifs at hends ⊢ with hcode hall
    · exact ⟨congrArg Except.ok hends.1, hends.2⟩
    · rw [BatchEnds, if_pos hall] at hends
      obtain ⟨rfl, hnum, shown, hshown, hanswers⟩ := hends
      refine ⟨rfl, by simpa using hnum, shown, by simpa using hshown, ?_⟩
      exact List.forall₂_map_right_iff.mpr hanswers
    · rw [BatchEnds, if_neg hall] at hends
      exact ⟨congrArg Except.ok hends.1, hends.2⟩
  · rintro e out L ⟨⟨hlist, hout⟩, hL⟩
    rw [hlist]
    exact ⟨⟨rfl, hout⟩, hL⟩

/-- **A batch does what it is for.** Whatever the library answers, with every request granted
`updater_check_many` ends as the abstract batch does. -/
theorem updaterCheckMany_refines (hb : BoundedFor env.curl url)
    (inSoftwareList : List EupdInSoftware) (allowInsecure : Int32) (out : CheckMany) {L : Ledger}
    (hL : L.AllGranted) :
    ∃ x out' L', (updaterCheckMany env url inSoftwareList allowInsecure).exec out L =
        (x, out', L') ∧
      (batchOutcome env url inSoftwareList allowInsecure).Shown out.outResults x out' := by
  obtain ⟨x, out', L', hexec, hshown, -⟩ := (updaterCheckMany_shown hb inSoftwareList allowInsecure
    out.outResults).ends (T := fun x => Granted
      ((batchOutcome env url inSoftwareList allowInsecure).Shown out.outResults x)) ⟨rfl, hL⟩
  exact ⟨x, out', L', hexec, hshown⟩

/-- A list that is delivered answers softwares of which none is rejected. -/
theorem batchOutcome_of_delivers {doc : List CChar} (hd : Delivers env.curl url doc)
    {sws : List EupdInSoftware} (hall : ∀ sw ∈ sws, checkInput sw = true) (allowInsecure : Int32)
    {code : EupdRetCode} (hcode : code.isError = false) {entries : List Entry}
    (hdoc : documentList (doc ++ [0]) = .ok (code, entries)) :
    batchOutcome env url sws allowInsecure =
      .answered (batchCode entries code sws) (sws.map (answer entries)) := by
  rw [batchOutcome, listFor_of_delivers hd, hdoc]
  dsimp only
  rw [if_neg (by simp [hcode]), if_pos hall]

theorem updaterCheckMany_refines_sample :
    ∃ x out' L', (updaterCheckMany sampleEnv [104]
        (List.replicate 2 (sampleInstalled #v[0, 0, 0, 0])) 0).exec ⟨none, 0⟩
        (.start fun _ => true) = (x, out', L') ∧
      out'.numResults = 2 ∧ ∃ results, out'.outResults.val? = some results ∧
        List.Forall₂ Shows results
          (List.replicate 2 (answer sampleEntries (sampleInstalled #v[0, 0, 0, 0]))) := by
  obtain ⟨x, out', L', hexec, hshown⟩ := @updaterCheckMany_refines sampleEnv [104]
    (sampleEnv_delivers [104]).bounded (List.replicate 2 (sampleInstalled #v[0, 0, 0, 0])) 0
    ⟨none, 0⟩ (.start fun _ => true) fun _ => rfl
  rw [batchOutcome_of_delivers (sampleEnv_delivers [104]) (by decide) 0 rfl documentList_sample]
    at hshown
  obtain ⟨-, hnum, results, hval, hshows⟩ := hshown
  exact ⟨x, out', L', hexec, hnum, results, hval, hshows⟩

/-! ## Published lists -/

/-- **Every list can be published.** For each list of entries that can be published there is one
document, and wherever it is delivered each check and each batch ends with the answers of the list. -/
theorem published_answers {entries : List Entry} (h : ∀ e ∈ entries, e.Publishable) :
    ∃ doc, 0 ∉ doc ∧ ∀ (env : Env) (url : List CChar), Delivers env.curl url doc →
      (∀ sw allowInsecure result L, checkInput sw = true → L.AllGranted →
        ∃ r L', (updaterCheck env url sw allowInsecure).exec result L =
            (.ok (checkCode .ok (answer entries sw)), r, L') ∧ Shows r (answer entries sw)) ∧
      ∀ sws allowInsecure out L, (∀ sw ∈ sws, checkInput sw = true) → L.AllGranted →
        ∃ out' L', (updaterCheckMany env url sws allowInsecure).exec out L =
            (.ok (batchCode entries .ok sws), out', L') ∧ out'.numResults = sws.length ∧
          ∃ results, out'.outResults.val? = some results ∧ Answers entries results sws := by
  obtain ⟨doc, hzero, hdocument⟩ := exists_document h
  have hdoc : documentList (doc ++ [0]) = .ok (.ok, entries) := by
    rw [← hdocument, documentList, documentList, parse_append_zero]
  refine ⟨doc, hzero, fun env url hd => ⟨?_, ?_⟩⟩
  · intro sw allowInsecure result L hsw hL
    exact updaterCheck_run hd hsw allowInsecure hdoc result hL
  · intro sws allowInsecure out L hall hL
    have hshown := updaterCheckMany_shown hd.bounded sws allowInsecure out.outResults out L
      ⟨rfl, hL⟩
    rw [batchOutcome_of_delivers hd hall allowInsecure rfl hdoc] at hshown
    rcases hexec : (updaterCheckMany env url sws allowInsecure).exec out L with ⟨e | ret, out', L'⟩
    · rw [hexec] at hshown
      cases hshown.1.1
    · rw [hexec] at hshown
      obtain ⟨⟨hret, hnum, results, hval, hshows⟩, -⟩ := hshown
      obtain rfl := Except.ok.inj hret
      rw [List.length_map] at hnum
      exact ⟨out', L', rfl, hnum, results, hval, List.forall₂_map_right_iff.mp hshows⟩

theorem published_answers_sample :
    ∃ doc, 0 ∉ doc ∧ ∀ (env : Env) (url : List CChar), Delivers env.curl url doc →
      (∀ sw allowInsecure result L, checkInput sw = true → L.AllGranted →
        ∃ r L', (updaterCheck env url sw allowInsecure).exec result L =
            (.ok (checkCode .ok (answer sampleEntries sw)), r, L') ∧
          Shows r (answer sampleEntries sw)) ∧
      ∀ sws allowInsecure out L, (∀ sw ∈ sws, checkInput sw = true) → L.AllGranted →
        ∃ out' L', (updaterCheckMany env url sws allowInsecure).exec out L =
            (.ok (batchCode sampleEntries .ok sws), out', L') ∧ out'.numResults = sws.length ∧
          ∃ results, out'.outResults.val? = some results ∧ Answers sampleEntries results sws :=
  published_answers (publishable_of_documentList documentList_sample)

end UpdateCheck.Updater
