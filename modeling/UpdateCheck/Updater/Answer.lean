import UpdateCheck.Fetcher.Secure
import UpdateCheck.ListParser.Walk
import UpdateCheck.Updater.Check

/-!
# The answer to a check

What a check is for, without pointers and loops: the first entry with the installed name answers
with the status and the newest version of its history and with its link (`answer`). Where a
document is delivered and every allocation is granted, `updater_check` returns exactly this
(`updaterCheck_spec`); neither of the two searches over the list, which compare the names in
opposite order, ends elsewhere than the other, and no `abort` is reached.
-/

namespace UpdateCheck.Updater

open Comparator ListParser Fetcher

/-- A status with a version and a link. -/
structure Answer where
  status : EupdUpdateStatus
  version : EupdVersion
  link : Option (List CChar)

def entryFor (entries : List Entry) (name : Vector CChar nameSize) : Option Entry :=
  entries.find? fun e => SameName e.name name

/-- The answer for an installed software. -/
def answer (entries : List Entry) (sw : EupdInSoftware) : Answer :=
  match entryFor entries sw.name with
  | none => ⟨.unknown, .zero, none⟩
  | some e =>
    ⟨statusFor sw.version e.history, latestVersion sw.version e.history,
      some (content e.link ++ [0])⟩

/-- Two results agree in status, version and the content of their links. -/
structure SameResult (r r' : EupdResult) : Prop where
  status : r.status = r'.status
  version : r.version = r'.version
  link : r.link.val? = r'.link.val?

structure Shows (result : EupdResult) (a : Answer) : Prop where
  status : result.status = a.status
  version : result.version = a.version
  link : result.link.val? = a.link

theorem Shows.sameResult {r r' : EupdResult} {a : Answer} (h : Shows r a) (h' : Shows r' a) :
    SameResult r r' :=
  ⟨h.status.trans h'.status.symm, h.version.trans h'.version.symm, h.link.trans h'.link.symm⟩

/-- The code of a check whose list came with the code `inRet`. -/
def itemCode (inRet : EupdRetCode) (a : Answer) : EupdRetCode :=
  if inRet.isWarning then inRet else if a.status = .unknown then .wNotFound else .ok

/-- The code of a check on a list that may be unusable. -/
def checkCode (code : EupdRetCode) (a : Answer) : EupdRetCode :=
  if code.isError then code else itemCode code a

theorem statusFor_ne_unknown (checked : EupdVersion) (history : List ListVersion) :
    statusFor checked history ≠ .unknown := by
  unfold statusFor gradeOf
  split_ifs <;> decide

theorem answer_of_none {entries : List Entry} {sw : EupdInSoftware}
    (h : entryFor entries sw.name = none) : answer entries sw = ⟨.unknown, .zero, none⟩ := by
  rw [answer, h]

theorem answer_of_some {entries : List Entry} {sw : EupdInSoftware} {e : Entry}
    (h : entryFor entries sw.name = some e) : answer entries sw =
      ⟨statusFor sw.version e.history, latestVersion sw.version e.history,
        some (content e.link ++ [0])⟩ := by
  rw [answer, h]

/-- The code of a check on an accepted list. -/
theorem checkCode_eq {code : EupdRetCode} (h : code = .ok ∨ code = .wListIncomplete) (a : Answer) :
    checkCode code a = if code = .wListIncomplete then .wListIncomplete
      else if a.status = .unknown then .wNotFound else .ok := by
  rcases h with rfl | rfl <;> rfl

/-- An answer has a link exactly where the software was found. -/
theorem answer_link_isSome_iff (entries : List Entry) (sw : EupdInSoftware) :
    (answer entries sw).link.isSome = true ↔ (answer entries sw).status ≠ .unknown := by
  cases h : entryFor entries sw.name with
  | none => simp [answer_of_none h]
  | some e => simp [answer_of_some h, statusFor_ne_unknown]

/-- A result that is unknown has no link. -/
theorem Shows.link_eq_none {r : EupdResult} {entries : List Entry} {sw : EupdInSoftware}
    (h : Shows r (answer entries sw)) (hstatus : r.status = .unknown) : r.link = none := by
  have hnot : (answer entries sw).link.isSome ≠ true := by
    intro hlink
    exact (answer_link_isSome_iff entries sw).mp hlink (h.status.symm.trans hstatus)
  rw [← h.link] at hnot
  simpa [Ptr.val?] using hnot

/-! ## The two searches -/

/-- The search of the comparator finds the item of the entry. -/
theorem firstMatch_entryFor {list : SoftwareList} {entries : List Entry} (h : Holds list entries)
    (name : Vector CChar nameSize) :
    (firstMatch list name = none ∧ entryFor entries name = none) ∨
      ∃ sw e, firstMatch list name = some sw ∧ entryFor entries name = some e ∧ Stores sw e :=
  forall₂_find? h.2 fun sw e hst => by rw [hst.name]

/-- The status is unknown exactly where no item has the name. -/
theorem answer_unknown_iff {list : SoftwareList} {entries : List Entry} (h : Holds list entries)
    (sw : EupdInSoftware) :
    (answer entries sw).status = .unknown ↔ firstMatch list sw.name = none := by
  rcases firstMatch_entryFor h sw.name with ⟨hf, he⟩ | ⟨item, e, hf, he, -⟩
  · simp [hf, answer_of_none he]
  · simp [hf, answer_of_some he, statusFor_ne_unknown]

variable {G : Ledger → Prop} [Stable G]

/-- The search of `parser_set_link` ends at the item the comparator has found, whose link is copied
unless the block for it is refused. -/
theorem parserSetLink_ends {list : SoftwareList} {name : Vector CChar nameSize} {sw : Software}
    (h : firstMatch list name = some sw) {status : EupdUpdateStatus} {version : EupdVersion} :
    Triple (Within G fun r => r.status = status ∧ r.version = version) (parserSetLink list name)
      (fun ret r L => (r.status = status ∧ r.version = version ∧
        (ret = .ok ∧ r.link.val? = some (content sw.linkBytes ++ [0]) ∨
          ret = .eNoMemory ∧ r.link = none ∧ ¬ L.AllGranted)) ∧ G L)
      (fun _ _ _ => False) := by
  have hswap : ∀ item : Software, strncasecmp name.toList item.name.toList nameSize = 0 ↔
      SameName item.name name := fun item => by
    rw [strncasecmp_comm (by simp) (by simp), strncasecmp_eq_zero_iff (by simp) (by simp)]
    rfl
  unfold firstMatch at h
  unfold parserSetLink
  generalize list.visible = items at h ⊢
  induction items with
  | nil => cases h
  | cons item items ih =>
    rw [List.find?_cons] at h
    rw [setLinkFrom]
    by_cases hname : SameName item.name name
    · rw [decide_eq_true hname] at h
      obtain rfl : item = sw := Option.some.inj h
      rw [if_pos ((hswap item).mpr hname)]
      refine Triple.bind_malloc_or_null (fun b hb => ?_) ?_
      · refine Triple.bind_modifyObj (K := fun r => r.status = status ∧
          r.version = version ∧ r.link.val? = some (content item.linkBytes ++ [0])) ?_ ?_
        · exact fun r hr => ⟨hr.1, hr.2, congrArg some hb⟩
        · exact Triple.pure fun r L hr => ⟨⟨hr.1.1, hr.1.2.1, Or.inl ⟨rfl, hr.1.2.2⟩⟩, hr.2⟩
      · exact fun r L hr => ⟨⟨hr.1.1.1, hr.1.1.2, Or.inr ⟨rfl, rfl, hr.2⟩⟩, hr.1.2⟩
    · rw [decide_eq_false hname] at h
      rw [if_neg fun hs => hname ((hswap item).mp hs)]
      exact ih h

/-! ## One item -/

theorem severitiesNamed_of_holds {list : SoftwareList} {entries : List Entry}
    (h : Holds list entries) (hnamed : ∀ e ∈ entries, ∀ lv ∈ e.history, lv.severity.Named) :
    SeveritiesNamed list := by
  intro sw hsw lv hlv
  obtain ⟨i, hi, rfl⟩ := List.getElem_of_mem hsw
  have hlen := h.2.length_eq
  have hst := List.Forall₂.get h.2 hi (hlen ▸ hi)
  rw [List.get_eq_getElem, List.get_eq_getElem] at hst
  rw [hst.history_eq] at hlv
  exact hnamed _ (List.getElem_mem _) lv hlv

/-- How `process_item` ends: with the answer, or without a link where the block for it is refused. -/
def ItemEnds (inRet : EupdRetCode) (a : Answer) (ret : EupdRetCode) (r : EupdResult) (L : Ledger) :
    Prop :=
  ret = itemCode inRet a ∧ Shows r a ∨ ret = .eNoMemory ∧ r.link = none ∧ ¬ L.AllGranted

/-- `process_item` on a zeroed result. -/
theorem processItem_ends {list : SoftwareList} {entries : List Entry} (h : Holds list entries)
    (hnamed : ∀ e ∈ entries, ∀ lv ∈ e.history, lv.severity.Named) (sw : EupdInSoftware)
    (inRet : EupdRetCode) :
    Triple (Within G (· = EupdResult.zero)) (processItem list sw inRet)
      (fun ret r L => ItemEnds inRet (answer entries sw) ret r L ∧ G L)
      (fun _ _ _ => False) := by
  have hsev := severitiesNamed_of_holds h hnamed
  refine Triple.bind_readObj ?_
  rintro _ rfl
  rcases firstMatch_entryFor h sw.name with ⟨hf, he⟩ | ⟨item, e, hf, he, hst⟩
  · have hcompare : comparatorCompare list sw EupdResult.zero.version =
        .ok (.wNotFound, .unknown, .zero) := by
      rw [comparatorCompare_eq, hf]
      rfl
    rw [hcompare, answer_of_none he]
    refine Triple.bind_pure ?_
    refine Triple.bind_modifyObj (K := fun r => Shows r ⟨.unknown, .zero, none⟩) ?_ ?_
    · rintro _ rfl
      exact ⟨rfl, rfl, rfl⟩
    · refine Triple.pure fun r L hr => ⟨Or.inl ⟨?_, hr.1⟩, hr.2⟩
      simp [itemCode]
  · have hcompare : comparatorCompare list sw EupdResult.zero.version =
        .ok (.ok, statusFor sw.version e.history, latestVersion sw.version e.history) := by
      rw [← hst.history_eq]
      exact comparatorCompare_found hsev hf sw.version _
    rw [hcompare, answer_of_some he]
    refine Triple.bind_pure ?_
    refine Triple.bind_modifyObj (K := fun r => r.status = statusFor sw.version e.history ∧
      r.version = latestVersion sw.version e.history) (fun _ _ => ⟨rfl, rfl⟩) ?_
    dsimp only
    rw [if_neg (by decide : ¬ EupdRetCode.ok.isError = true),
      if_pos (statusFor_ne_unknown sw.version e.history)]
    refine Triple.bind (parserSetLink_ends hf) fun ret => ?_
    -- the code of `parser_set_link` is returned only where there was no warning before
    rintro r L ⟨⟨hstatus, hversion, ⟨rfl, hlink⟩ | ⟨rfl, hlink, hnot⟩⟩, hL⟩
    · rw [hst.linkBytes_eq] at hlink
      have hshows : Shows r ⟨statusFor sw.version e.history, latestVersion sw.version e.history,
          some (content e.link ++ [0])⟩ := ⟨hstatus, hversion, hlink⟩
      have hok : EupdRetCode.ok.isError = false ∧ EupdRetCode.ok.isWarning = false := by decide
      cases hw : inRet.isWarning with
      | true => simp [hw, hok, itemCode, hshows, hL, ItemEnds]
      | false => simp [hw, hok, itemCode, statusFor_ne_unknown, hshows, hL, ItemEnds]
    · exact ⟨Or.inr ⟨rfl, hlink, hnot⟩, hL⟩

theorem processItem_spec {list : SoftwareList} {entries : List Entry} (h : Holds list entries)
    (hnamed : ∀ e ∈ entries, ∀ lv ∈ e.history, lv.severity.Named) (sw : EupdInSoftware)
    (inRet : EupdRetCode) :
    Triple (Granted (· = EupdResult.zero)) (processItem list sw inRet)
      (fun ret => Granted fun r => ret = itemCode inRet (answer entries sw) ∧
        Shows r (answer entries sw))
      (fun _ _ _ => False) := by
  refine (processItem_ends h hnamed sw inRet).post ?_
  intro ret r L hstate
  obtain ⟨hends | ⟨-, -, hnot⟩, hL⟩ := hstate
  · exact ⟨hends, hL⟩
  · exact absurd hL hnot

/-! ## The list -/

section Lists

variable {σ : Type}

theorem fetcherListCleanup_computes (dl : DownloadedList) :
    Computes (fetcherListCleanup dl : Prog Raised σ Unit) (.ok ()) := .bind .free .free

theorem freeItems_computes (items : List Software) :
    Computes (freeItems items : Prog Raised σ Unit) (.ok ()) := by
  induction items with
  | nil => exact .pure
  | cons sw items ih => exact .bind .free (.bind .free ih)

theorem parserFreeList_computes (list : SoftwareList) :
    Computes (parserFreeList list : Prog Raised σ Unit) (.ok ()) :=
  .bind (freeItems_computes _) .free

end Lists

variable {env : Env} {url doc : List CChar}

/-- The user agent of a check, as the library reads it. -/
def userAgentOf (behind : List CChar) (inSoftware : Option EupdInSoftware) : List CChar :=
  strncpy ((userAgentText behind inSoftware).take (maxSize - 1)) maxSize

/-- What a download gives a check to work with: the list of the document, or the code of the failure
and no entries. -/
def outcomeList : Outcome → Except Raised (EupdRetCode × List Entry)
  | .received body => documentList (body ++ [0])
  | .failed ret _ => .ok (ret, [])

/-- What the remote side gives a check to work with. -/
def listFor (env : Env) (url : List CChar) (allowInsecure : Int32)
    (inSoftware : Option EupdInSoftware) : Except Raised (EupdRetCode × List Entry) :=
  outcomeList (fetchOutcome env.curl url allowInsecure (some (userAgentOf env.behind inSoftware)))

theorem listFor_of_delivers (hd : Delivers env.curl url doc) (allowInsecure : Int32)
    (inSoftware : Option EupdInSoftware) :
    listFor env url allowInsecure inSoftware = documentList (doc ++ [0]) := by
  rw [listFor, hd.outcome]
  rfl

theorem outcomeList_named {o : Outcome} {code : EupdRetCode} {entries : List Entry}
    (h : outcomeList o = .ok (code, entries)) :
    ∀ e ∈ entries, ∀ lv ∈ e.history, lv.severity.Named := by
  cases o with
  | received body => exact documentList_named h
  | failed ret text =>
    cases h
    exact fun e he => (nomatch he)

/-- Where there is an error there are no entries. -/
theorem outcomeList_of_isError {o : Outcome} {code : EupdRetCode} {entries : List Entry}
    (h : outcomeList o = .ok (code, entries)) (herr : code.isError = true) : entries = [] := by
  cases o with
  | received body =>
    rcases documentList_code h with rfl | rfl | ⟨-, hempty⟩
    · cases herr
    · cases herr
    · exact hempty
  | failed ret text =>
    cases h
    rfl

theorem fetch_outcome (hb : BoundedFor env.curl url) (allowInsecure : Int32)
    (inSoftware : Option EupdInSoftware) {o : Outcome} (ho : fetchOutcome env.curl url allowInsecure
      (some (userAgentOf env.behind inSoftware)) = o) :
    Triple (Granted fun _ => True) (fetch env url allowInsecure inSoftware)
      (fun ret => Granted fun dl => ret = o.code ∧ dl.list.val? = o.list)
      (fun _ _ _ => False) := by
  refine Triple.bind_malloc fun userAgent hval => ?_
  have hends := fetcherFetch_ends (G := Ledger.AllGranted) hb allowInsecure (some userAgent)
  have hagent : Ptr.val? (some userAgent) = some (userAgentOf env.behind inSoftware) :=
    congrArg some hval
  rw [hagent, ho] at hends
  refine Triple.bind (hends.post ?_) fun ret => Triple.bind_free (Triple.pure fun _ _ h => h)
  rintro ret dl L ⟨⟨hret, hlist, -⟩ | ⟨-, hnot⟩, hL⟩
  · exact ⟨⟨hret, hlist⟩, hL⟩
  · exact absurd hL hnot

/-- `make_list` ends with the list that the remote side gives. -/
theorem makeList_outcome (hb : BoundedFor env.curl url) (allowInsecure : Int32)
    (inSoftware : Option EupdInSoftware) :
    Triple (Granted (· = SoftwareList.zero)) (makeList env url allowInsecure inSoftware)
      (fun code => Granted fun list => ∃ entries,
        listFor env url allowInsecure inSoftware = .ok (code, entries) ∧ Holds list entries)
      (fun e => Granted fun _ => listFor env url allowInsecure inSoftware = .error e) := by
  unfold listFor
  cases ho : fetchOutcome env.curl url allowInsecure
    (some (userAgentOf env.behind inSoftware)) with
  | received body =>
    refine Triple.bind_withObj ((fetch_outcome hb allowInsecure inSoftware ho).pre fun _ _ h =>
      ⟨trivial, h.2⟩) ?_
    intro _ dl hstate
    obtain ⟨rfl, hdl⟩ := hstate
    dsimp only [Outcome.code, Outcome.list] at hdl ⊢
    rw [if_neg (by decide), hdl]
    refine Triple.bind (parserParse_documentList _) fun code => ?_
    exact (fetcherListCleanup_computes dl).bind_triple (Triple.pure fun _ _ h => h)
  | failed ret text =>
    refine Triple.bind_withObj ((fetch_outcome hb allowInsecure inSoftware ho).pre fun _ _ h =>
      ⟨trivial, h.2⟩) ?_
    intro _ dl hstate
    obtain ⟨rfl, -⟩ := hstate
    dsimp only [Outcome.code]
    rw [if_pos (fetchOutcome_isError ho)]
    refine (fetcherListCleanup_computes dl).bind_triple (Triple.pure ?_)
    rintro _ L ⟨rfl, hL⟩
    exact ⟨⟨[], rfl, holds_zero⟩, hL⟩

/-- `make_list` ends as the parser does on the delivered document. -/
theorem makeList_spec (hd : Delivers env.curl url doc) (allowInsecure : Int32)
    (inSoftware : Option EupdInSoftware) :
    Triple (Granted (· = SoftwareList.zero)) (makeList env url allowInsecure inSoftware)
      (fun code => Granted fun list =>
        ∃ entries, documentList (doc ++ [0]) = .ok (code, entries) ∧ Holds list entries)
      (fun e => Granted fun _ => documentList (doc ++ [0]) = .error e) := by
  rw [← listFor_of_delivers hd allowInsecure inSoftware]
  exact makeList_outcome hd.bounded allowInsecure inSoftware

theorem makeList_returns (hd : Delivers env.curl url doc) (allowInsecure : Int32)
    (inSoftware : Option EupdInSoftware) {code : EupdRetCode} {entries : List Entry}
    (hdoc : documentList (doc ++ [0]) = .ok (code, entries)) :
    Triple (Granted (· = SoftwareList.zero)) (makeList env url allowInsecure inSoftware)
      (fun ret => Granted fun list => ret = code ∧ Holds list entries)
      (fun _ _ _ => False) := by
  refine (makeList_spec hd allowInsecure inSoftware).conseq (fun _ _ => id) ?_ ?_
  · intro ret list L hstate
    obtain ⟨⟨entries', hdoc', hlist⟩, hL⟩ := hstate
    cases hdoc.symm.trans hdoc'
    exact ⟨⟨rfl, hlist⟩, hL⟩
  · intro e list L hstate
    obtain ⟨herr, -⟩ := hstate
    cases hdoc.symm.trans herr

/-! ## A check -/

/-- A check of an accepted software returns the answer of the list that the remote side gives, or ends
in the exception of the parser and leaves a zero struct. -/
theorem updaterCheck_outcome (hb : BoundedFor env.curl url) {sw : EupdInSoftware}
    (hsw : checkInput sw = true) (allowInsecure : Int32) :
    Triple (Granted fun _ => True) (updaterCheck env url sw allowInsecure)
      (fun ret => Granted fun r => ∃ code entries,
        listFor env url allowInsecure (some sw) = .ok (code, entries) ∧
          ret = checkCode code (answer entries sw) ∧ Shows r (answer entries sw))
      (fun e => Granted fun r => listFor env url allowInsecure (some sw) = .error e ∧ r = .zero) := by
  unfold updaterCheck
  rw [hsw]
  refine Triple.bind_modifyObj (K := (· = EupdResult.zero)) (fun _ _ => rfl) ?_
  refine Triple.bind_withObj_throws (makeList_outcome hb allowInsecure _)
    (fun e x L he hx => ⟨⟨he, hx.1⟩, hx.2⟩) ?_
  intro code list hstate
  obtain ⟨entries, hdoc, hlist⟩ := hstate
  dsimp only
  cases herr : code.isError with
  | true =>
    obtain rfl := outcomeList_of_isError hdoc herr
    refine (parserFreeList_computes list).bind_triple (Triple.pure ?_)
    intro _ L hstate
    obtain ⟨rfl, hL⟩ := hstate
    exact ⟨⟨code, [], hdoc, (if_pos herr).symm, rfl, rfl, rfl⟩, hL⟩
  | false =>
    refine Triple.bind ((processItem_spec hlist (outcomeList_named hdoc) sw code).weaken_error)
      fun ret => ?_
    refine (parserFreeList_computes list).bind_triple (Triple.pure ?_)
    intro r L hstate
    obtain ⟨⟨rfl, hshows⟩, hL⟩ := hstate
    have hcode : checkCode code (answer entries sw) = itemCode code (answer entries sw) :=
      if_neg (by simp [herr])
    exact ⟨⟨code, entries, hdoc, hcode.symm, hshows⟩, hL⟩

/-- A check of an accepted software returns the answer, or ends in the exception of the parser and
leaves a zero struct. -/
theorem updaterCheck_spec (hd : Delivers env.curl url doc) {sw : EupdInSoftware}
    (hsw : checkInput sw = true) (allowInsecure : Int32) :
    Triple (Granted fun _ => True) (updaterCheck env url sw allowInsecure)
      (fun ret => Granted fun r => ∃ code entries,
        documentList (doc ++ [0]) = .ok (code, entries) ∧
          ret = checkCode code (answer entries sw) ∧ Shows r (answer entries sw))
      (fun e => Granted fun r => documentList (doc ++ [0]) = .error e ∧ r = .zero) := by
  rw [← listFor_of_delivers hd allowInsecure (some sw)]
  exact updaterCheck_outcome hd.bounded hsw allowInsecure

/-- Whatever the result held before, it shows the answer afterwards. -/
theorem updaterCheck_run (hd : Delivers env.curl url doc) {sw : EupdInSoftware}
    (hsw : checkInput sw = true) (allowInsecure : Int32) {code : EupdRetCode}
    {entries : List Entry} (hdoc : documentList (doc ++ [0]) = .ok (code, entries))
    (result : EupdResult) {L : Ledger} (hL : L.AllGranted) :
    ∃ r L', (updaterCheck env url sw allowInsecure).exec result L =
      (.ok (checkCode code (answer entries sw)), r, L') ∧ Shows r (answer entries sw) := by
  have h := updaterCheck_spec hd hsw allowInsecure result L ⟨trivial, hL⟩
  rcases hr : (updaterCheck env url sw allowInsecure).exec result L with ⟨e | ret, r, L'⟩
  · rw [hr] at h
    cases hdoc.symm.trans h.1.1
  · rw [hr] at h
    obtain ⟨code', entries', hdoc', rfl, hshows⟩ := h.1
    cases hdoc.symm.trans hdoc'
    exact ⟨r, L', rfl, hshows⟩

theorem updaterCheck_throws (hd : Delivers env.curl url doc) {sw : EupdInSoftware}
    (hsw : checkInput sw = true) (allowInsecure : Int32) {e : Raised}
    (hdoc : documentList (doc ++ [0]) = .error e) (result : EupdResult) {L : Ledger}
    (hL : L.AllGranted) :
    ∃ L', (updaterCheck env url sw allowInsecure).exec result L = (.error e, .zero, L') := by
  have h := updaterCheck_spec hd hsw allowInsecure result L ⟨trivial, hL⟩
  rcases hr : (updaterCheck env url sw allowInsecure).exec result L with ⟨e' | ret, r, L'⟩
  · rw [hr] at h
    obtain ⟨⟨hdoc', rfl⟩, -⟩ := h
    cases hdoc.symm.trans hdoc'
    exact ⟨L', rfl⟩
  · rw [hr] at h
    obtain ⟨code, entries, hdoc', -⟩ := h.1
    cases hdoc.symm.trans hdoc'

/-- A rejected software is answered without a request and without a write. -/
theorem updaterCheck_rejects (env : Env) (url : List CChar) {sw : EupdInSoftware}
    (hsw : checkInput sw = false) (allowInsecure : Int32) (result : EupdResult) (L : Ledger) :
    (updaterCheck env url sw allowInsecure).exec result L = (.ok .eInvalidArgument, result, L) := by
  unfold updaterCheck
  rw [hsw]
  rfl

/-! ## A sample document -/

/-- A list with one software, `ed`, in one version, 1.0a, and a library that delivers it. -/
def sampleDocument : List CChar :=
  ascii "\x7b\"software\":[\x7b\"name\":\"ed\",\"link\":\"l\",\"versions\":[\x7b\"major\":1," ++
    ascii "\"minor\":0,\"revision\":\"a\",\"severity\":2\x7d]\x7d]\x7d"

def sampleEnv : Env := ⟨serving .https [] sampleDocument, [0]⟩

/-- An installed version 1.0 with the given revision bytes. -/
def sampleInstalled (revision : Vector CChar revisionSize) : EupdInSoftware :=
  ⟨sampleName, ⟨1, 0, revision⟩⟩

theorem sampleEnv_delivers (url : List CChar) : Delivers sampleEnv.curl url sampleDocument :=
  serving_delivers _ _ (by decide +kernel) url

/-- What the list of the document holds. -/
def sampleEntries : List Entry :=
  [⟨sampleName, ascii "l" ++ [0], [⟨⟨1, 0, strncpyBuf (ascii "a") revisionSize⟩, sevCritical⟩]⟩]

theorem documentList_sample : documentList (sampleDocument ++ [0]) = .ok (.ok, sampleEntries) := by
  decide +kernel

end UpdateCheck.Updater
