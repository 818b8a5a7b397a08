import UpdateCheck.Updater.Batch

/-!
# Checks without memory

Any request of a check may be refused: that of the user agent, of the session, of the room for a
chunk, of the list and its items, of a copy made for an item, of the link. A refusal ends the
check with an error, or cuts the list off behind some of its entries. The first entry with a name is
the same in a list and in a longer one, so a check that names a status has the one it would have
with all the memory in the world (`updaterCheck_refused`), and so has each result of a batch
(`updaterCheckMany_refused`).
-/

namespace UpdateCheck.Updater

open Comparator ListParser Fetcher

variable {env : Env} {url doc : List CChar} {G : Ledger → Prop} [Stable G]

/-! ## Shorter lists -/

theorem entryFor_of_held {held entries : List Entry} (h : held <+: entries)
    {name : Vector CChar nameSize} {e : Entry} (he : entryFor held name = some e) :
    entryFor entries name = some e := by
  obtain ⟨rest, rfl⟩ := h
  unfold entryFor at he ⊢
  rw [List.find?_append, he]
  rfl

/-- What a part of the list knows of a software, the list knows too. -/
theorem answer_of_held {held entries : List Entry} (h : held <+: entries) {sw : EupdInSoftware}
    (hstatus : (answer held sw).status ≠ .unknown) : answer held sw = answer entries sw := by
  cases he : entryFor held sw.name with
  | none =>
    rw [answer_of_none he] at hstatus
    exact absurd rfl hstatus
  | some e => rw [answer_of_some he, answer_of_some (entryFor_of_held h he)]

/-! ## The list -/

/-- The codes of a check that is given up for want of memory. -/
def GivenUp (ret : EupdRetCode) : Prop := ret = .eNoMemory ∨ ret = .eTransferError

theorem GivenUp.isError {ret : EupdRetCode} (h : GivenUp ret) : ret.isError = true := by
  rcases h with rfl | rfl <;> rfl

/-- How the list of a document is made: as the parser makes it, memory permitting, or not at all. -/
def ListEnds (doc : List CChar) (code : EupdRetCode) (list : SoftwareList) (L : Ledger) : Prop :=
  (∃ full entries, documentList (doc ++ [0]) = .ok (full, entries) ∧
      WalkEnds full entries code list L) ∨
    GivenUp code ∧ ¬ L.AllGranted

theorem fetch_ends (hd : Delivers env.curl url doc) (allowInsecure : Int32)
    (inSoftware : Option EupdInSoftware) :
    Triple (Within G fun _ => True) (fetch env url allowInsecure inSoftware)
      (fun ret dl L => FetchEnds (.received doc) ret dl L ∧ G L) (fun _ _ _ => False) := by
  -- a user agent that is refused is not set, and the download goes on
  have hfetch : ∀ userAgent : Ptr (List CChar), Triple (Within G fun _ => True)
      (do
        let tRet ← fetcherFetch env.curl url allowInsecure userAgent
        free userAgent
        return tRet)
      (fun ret dl L => FetchEnds (.received doc) ret dl L ∧ G L) (fun _ _ _ => False) := by
    intro userAgent
    refine Triple.bind (fetcherFetch_document hd allowInsecure userAgent) fun ret => ?_
    refine Triple.bind (Q := fun _ dl L => FetchEnds (.received doc) ret dl L ∧ G L) ?_ fun _ =>
      Triple.pure fun _ _ h => h
    exact Triple.free (fun _ _ _ h => h) fun _ _ _ _ h => ⟨h.1, Stable.congr (by rfl) h.2⟩
  refine Triple.bind_malloc_or_null (fun userAgent _ => hfetch _) ?_
  exact (hfetch none).pre fun _ _ h => ⟨trivial, h.1.2⟩

theorem parserParse_ends (listString : List CChar) :
    Triple (Within G (· = SoftwareList.zero)) (parserParse listString)
      (fun code list L => (∃ full entries, documentList listString = .ok (full, entries) ∧
        WalkEnds full entries code list L) ∧ G L)
      (fun e _ L => documentList listString = .error e ∧ G L) := by
  cases hp : Json.parse listString with
  | ok root =>
    rw [parserParse_of_ok hp]
    refine (walkList_ends root).conseq (fun _ _ => id) ?_ fun _ _ _ => False.elim
    exact fun code list L h => ⟨⟨_, _, documentList_of_ok hp, h.1⟩, h.2⟩
  | error e =>
    unfold parserParse documentList
    rw [hp]
    rcases Json.parse_error hp with rfl | rfl
    · refine Triple.pure ?_
      intro _ L hstate
      obtain ⟨rfl, hL⟩ := hstate
      exact ⟨⟨.eMalformedList, [], rfl, Or.inl ⟨rfl, holds_zero⟩⟩, hL⟩
    · exact Triple.throw fun _ L h => ⟨rfl, h.2⟩

section Releases

variable {σ : Type}

theorem fetcherListCleanup_releases (dl : DownloadedList) :
    Releases (fetcherListCleanup dl : Prog Raised σ Unit) := .bind .free .free

theorem freeItems_releases (items : List Software) :
    Releases (freeItems items : Prog Raised σ Unit) := by
  induction items with
  | nil => exact .pure
  | cons sw items ih => exact .bind .free (.bind .free ih)

theorem parserFreeList_releases (list : SoftwareList) :
    Releases (parserFreeList list : Prog Raised σ Unit) := .bind (freeItems_releases _) .free

theorem freeResults_releases (results : List EupdResult) :
    Releases (freeResults results : Prog Raised σ Unit) := by
  induction results with
  | nil => exact .pure
  | cons result results ih => exact .bind .free ih

theorem updaterFreeResultList_releases (results : Ptr (List EupdResult)) (numResults : Nat) :
    Releases (updaterFreeResultList results numResults : Prog Raised σ Unit) :=
  .bind (freeResults_releases _) .free

end Releases

theorem makeList_ends (hd : Delivers env.curl url doc) (allowInsecure : Int32)
    (inSoftware : Option EupdInSoftware) :
    Triple (Within G (· = SoftwareList.zero)) (makeList env url allowInsecure inSoftware)
      (fun code list L => ListEnds doc code list L ∧ G L)
      (fun e _ L => documentList (doc ++ [0]) = .error e ∧ G L) := by
  refine Triple.bind_withObj_ledger (F := fun _ _ => False)
    ((fetch_ends (G := G) hd allowInsecure inSoftware).pre fun _ _ h => ⟨trivial, h.2⟩)
    (fun _ _ _ _ => False.elim) ?_
  intro ret dl
  dsimp only
  split
  · rename_i herr
    refine (fetcherListCleanup_releases dl).bind_triple
      (fun _ _ _ h => ⟨h.1, h.2.1, Stable.congr (by rfl) h.2.2⟩) (Triple.pure fun list L h => ?_)
    obtain ⟨-, ⟨rfl, -⟩ | ⟨hret, hnot⟩, hL⟩ := h
    · cases herr
    · exact ⟨Or.inr ⟨hret, hnot⟩, hL⟩
  · rename_i herr
    refine Triple.pre (Triple.assume (φ := dl.list.val? = some (doc ++ [0])) fun hdl => ?_)
      (P := fun list L => dl.list.val? = some (doc ++ [0]) ∧
        Within G (· = SoftwareList.zero) list L) ?_
    · rw [hdl]
      refine Triple.bind (parserParse_ends (doc ++ [0])) fun code => ?_
      refine (fetcherListCleanup_releases dl).bind_triple
        (fun _ _ _ h => ⟨h.1, Stable.congr (by rfl) h.2⟩) (Triple.pure fun list L h => ?_)
      exact ⟨Or.inl h.1, h.2⟩
    · intro list L h
      obtain ⟨hlist, ⟨-, hdl, -⟩ | ⟨hret, -⟩, hL⟩ := h
      · exact ⟨hdl, hlist, hL⟩
      · exact absurd (GivenUp.isError hret) herr

/-! ## One software -/

/-- A document with an error code has no entries. -/
theorem entries_of_isError {code : EupdRetCode} {entries : List Entry}
    (hdoc : documentList (doc ++ [0]) = .ok (code, entries)) (herr : code.isError = true) :
    entries = [] := by
  rcases documentList_code hdoc with rfl | rfl | ⟨-, hempty⟩
  · cases herr
  · cases herr
  · exact hempty

/-- How a check ends: with the answer of the document, with that of a part of its list, or without
an answer. -/
def CheckEnds (doc : List CChar) (sw : EupdInSoftware) (ret : EupdRetCode) (r : EupdResult)
    (L : Ledger) : Prop :=
  (∃ full entries, documentList (doc ++ [0]) = .ok (full, entries) ∧
      (ret = checkCode full (answer entries sw) ∧ Shows r (answer entries sw) ∨
        full.isError = false ∧ ret = .wListIncomplete ∧ ¬ L.AllGranted ∧
          ∃ held, held <+: entries ∧ Shows r (answer held sw))) ∨
    GivenUp ret ∧ r.link = none ∧ ¬ L.AllGranted

theorem walkEnds_holds {full code : EupdRetCode} {entries : List Entry} {list : SoftwareList}
    {L : Ledger} (h : WalkEnds full entries code list L) :
    ∃ held, held <+: entries ∧ Holds list held ∧
      (code = full ∧ held = entries ∨
        full.isError = false ∧ (code = .wListIncomplete ∨ code = .eNoMemory) ∧ ¬ L.AllGranted) := by
  rcases h with ⟨hcode, hlist⟩ | ⟨hnot, hfull, hcode, held, hheld, hlist⟩
  · exact ⟨entries, List.prefix_rfl, hlist, Or.inl ⟨hcode, rfl⟩⟩
  · exact ⟨held, hheld, hlist, Or.inr ⟨hfull, hcode, hnot⟩⟩

theorem updaterCheck_ends (hd : Delivers env.curl url doc) {sw : EupdInSoftware}
    (hsw : checkInput sw = true) (allowInsecure : Int32) :
    Triple (Within G fun _ => True) (updaterCheck env url sw allowInsecure)
      (fun ret r L => CheckEnds doc sw ret r L ∧ G L)
      (fun e r L => (documentList (doc ++ [0]) = .error e ∧ r = .zero) ∧ G L) := by
  unfold updaterCheck
  rw [hsw]
  refine Triple.bind_modifyObj (K := (· = EupdResult.zero)) (fun _ _ => rfl) ?_
  refine Triple.bind_withObj_ledger (F := fun e L => documentList (doc ++ [0]) = .error e ∧ G L)
    (makeList_ends hd allowInsecure _) (fun e r L hr h => ⟨⟨h.1, hr⟩, h.2⟩) ?_
  intro code list
  dsimp only
  split
  · rename_i herr
    refine (parserFreeList_releases list).bind_triple
      (fun _ _ _ h => ⟨h.1, h.2.1, Stable.congr (by rfl) h.2.2⟩) (Triple.pure ?_)
    rintro r L ⟨rfl, ⟨full, entries, hdoc, hwalk⟩ | ⟨hcode, hnot⟩, hL⟩
    · obtain ⟨held, -, -, ⟨rfl, -⟩ | ⟨-, rfl | rfl, hnot⟩⟩ := walkEnds_holds hwalk
      · obtain rfl := entries_of_isError hdoc herr
        exact ⟨Or.inl ⟨code, [], hdoc, Or.inl ⟨(if_pos herr).symm, rfl, rfl, rfl⟩⟩, hL⟩
      · cases herr
      · exact ⟨Or.inr ⟨Or.inl rfl, rfl, hnot⟩, hL⟩
    · exact ⟨Or.inr ⟨hcode, rfl, hnot⟩, hL⟩
  · rename_i herr
    have herr : code.isError = false := by simpa using herr
    intro r L hstate
    obtain ⟨rfl, ⟨full, entries, hdoc, hwalk⟩ | ⟨hcode, -⟩, hL⟩ := hstate
    swap
    · rw [hcode.isError] at herr
      cases herr
    obtain ⟨held, hheld, hlist, hcase⟩ := walkEnds_holds hwalk
    have hnamed : ∀ e ∈ held, ∀ lv ∈ e.history, lv.severity.Named := fun e he =>
      documentList_named hdoc e (hheld.subset he)
    refine (Triple.bind (Q := fun ret r L' =>
      ItemEnds code (answer held sw) ret r L' ∧ L'.grant = L.grant)
      ((processItem_ends (G := fun L' => L'.grant = L.grant) hlist hnamed sw
        code).weaken_error) fun ret => ?_) .zero L ⟨rfl, rfl⟩
    refine (parserFreeList_releases list).bind_triple (fun _ _ _ h => h) (Triple.pure ?_)
    rintro r L' ⟨hends, hgrant⟩
    have hL' : G L' := Stable.congr hgrant hL
    have hstill : ¬ L.AllGranted → ¬ L'.AllGranted := fun hnot hall =>
      hnot (Stable.congr hgrant.symm hall)
    refine ⟨?_, hL'⟩
    rcases hends with ⟨rfl, hshows⟩ | ⟨rfl, hlink, hnot⟩
    · refine Or.inl ⟨full, entries, hdoc, ?_⟩
      rcases hcase with ⟨rfl, rfl⟩ | ⟨hfull, rfl | rfl, hnot⟩
      · exact Or.inl ⟨by rw [checkCode, herr]; rfl, hshows⟩
      · exact Or.inr ⟨hfull, rfl, hstill hnot, held, hheld, hshows⟩
      · cases herr
    · exact Or.inr ⟨Or.inl rfl, hlink, hnot⟩

/-- A document that is not a list answers without a link. -/
theorem link_of_isError {full : EupdRetCode} {entries : List Entry}
    (hdoc : documentList (doc ++ [0]) = .ok (full, entries)) {sw : EupdInSoftware} {r : EupdResult}
    (hshows : Shows r (answer entries sw))
    (herr : (checkCode full (answer entries sw)).isError = true) :
    r.link = none := by
  cases hfull : full.isError with
  | true =>
    obtain rfl := entries_of_isError hdoc hfull
    exact Option.map_eq_none_iff.mp hshows.link
  | false =>
    rw [checkCode, hfull, if_neg (by decide), itemCode_isError hfull] at herr
    cases herr

/-- **A check without memory.** Against a check of the same document with every request granted:
a refused request makes no exception of its own; `EUPD_OK` and `EUPD_W_NOT_FOUND` come with the same
result; a status that is named is the same, with the same version and link; and an error leaves no
link behind and is the error of the document, `EUPD_E_NO_MEMORY` or `EUPD_E_TRANSFER_ERROR`. -/
theorem updaterCheck_refused {env env₀ : Env} {url url₀ doc : List CChar}
    (hd : Delivers env.curl url doc) (hd₀ : Delivers env₀.curl url₀ doc) {sw : EupdInSoftware}
    (hsw : checkInput sw = true) (allowInsecure allowInsecure₀ : Int32)
    {result result₀ r r₀ : EupdResult} {L L' L₀ L₀' : Ledger} (hL₀ : L₀.AllGranted)
    {x x₀ : Except Raised EupdRetCode}
    (hrun : (updaterCheck env url sw allowInsecure).exec result L = (x, r, L'))
    (hrun₀ : (updaterCheck env₀ url₀ sw allowInsecure₀).exec result₀ L₀ = (x₀, r₀, L₀')) :
    (∀ e, x = .error e → x₀ = .error e) ∧
    (∀ ret, x = .ok ret →
      (ret = .ok ∨ ret = .wNotFound → x₀ = .ok ret ∧ SameResult r r₀) ∧
      (ret.isError = false → r.status ≠ .unknown →
        (∃ ret₀, x₀ = .ok ret₀ ∧ ret₀.isError = false) ∧ SameResult r r₀) ∧
      (ret.isError = true → r.link = none ∧ (x₀ = .ok ret ∨ GivenUp ret))) := by
  have hends := updaterCheck_ends (G := fun _ => True) hd hsw allowInsecure result L
    ⟨trivial, trivial⟩
  rw [hrun] at hends
  cases hdoc : documentList (doc ++ [0]) with
  | error e₀ =>
    obtain ⟨K, hthrows⟩ := updaterCheck_throws hd₀ hsw allowInsecure₀ hdoc result₀ hL₀
    cases hrun₀.symm.trans hthrows
    cases x with
    | error e =>
      obtain ⟨⟨he, -⟩, -⟩ := hends
      cases hdoc.symm.trans he
      exact ⟨fun _ h => h, fun _ h => (nomatch h)⟩
    | ok ret =>
      obtain ⟨⟨full, entries, hdoc', -⟩ | ⟨hgiven, hlink, -⟩, -⟩ := hends
      · cases hdoc.symm.trans hdoc'
      · refine ⟨fun _ h => (nomatch h), fun ret' h => ?_⟩
        obtain rfl := Except.ok.inj h
        refine ⟨?_, fun herr => ?_, fun _ => ⟨hlink, Or.inr hgiven⟩⟩
        · rcases hgiven with rfl | rfl <;> simp
        · rw [hgiven.isError] at herr
          cases herr
  | ok p =>
    obtain ⟨full, entries⟩ := p
    obtain ⟨r₁, K, hcheck, hshows₀⟩ := updaterCheck_run hd₀ hsw allowInsecure₀ hdoc result₀ hL₀
    cases hrun₀.symm.trans hcheck
    cases x with
    | error e =>
      obtain ⟨⟨he, -⟩, -⟩ := hends
      cases hdoc.symm.trans he
    | ok ret =>
      refine ⟨fun _ h => (nomatch h), fun ret' h => ?_⟩
      obtain rfl := Except.ok.inj h
      obtain ⟨⟨full', entries', hdoc', hcase⟩ | ⟨hgiven, hlink, -⟩, -⟩ := hends
      · cases hdoc.symm.trans hdoc'
        rcases hcase with ⟨rfl, hshows⟩ | ⟨hfull, rfl, -, held, hheld, hshows⟩
        · have hsame := hshows.sameResult hshows₀
          refine ⟨fun _ => ⟨rfl, hsame⟩, fun herr _ => ⟨⟨_, rfl, herr⟩, hsame⟩, fun herr => ?_⟩
          exact ⟨link_of_isError hdoc hshows herr, Or.inl rfl⟩
        · refine ⟨?_, fun _ hstatus => ⟨⟨_, rfl, ?_⟩, ?_⟩, ?_⟩
          · simp
          · rw [checkCode, hfull]
            exact itemCode_isError hfull _
          · rw [hshows.status] at hstatus
            rw [answer_of_held hheld hstatus] at hshows
            exact hshows.sameResult hshows₀
          · exact fun herr => (nomatch herr)
      · refine ⟨?_, fun herr => ?_, fun _ => ⟨hlink, Or.inr hgiven⟩⟩
        · rcases hgiven with rfl | rfl <;> simp
        · rw [hgiven.isError] at herr
          cases herr

/-- The sample with the requests refused from the fourth on, which is that of the list. -/
theorem updaterCheck_refused_sample :
    ∃ x r L' x₀ r₀ L₀',
      (updaterCheck sampleEnv [] (sampleInstalled #v[0, 0, 0, 0]) 0).exec .zero
        (.start fun n => n < 3) = (x, r, L') ∧
      (updaterCheck sampleEnv [] (sampleInstalled #v[0, 0, 0, 0]) 0).exec .zero
        (.start fun _ => true) = (x₀, r₀, L₀') ∧
      (∀ e, x = .error e → x₀ = .error e) ∧
      (∀ ret, x = .ok ret →
        (ret = .ok ∨ ret = .wNotFound → x₀ = .ok ret ∧ SameResult r r₀) ∧
        (ret.isError = false → r.status ≠ .unknown →
          (∃ ret₀, x₀ = .ok ret₀ ∧ ret₀.isError = false) ∧ SameResult r r₀) ∧
        (ret.isError = true → r.link = none ∧ (x₀ = .ok ret ∨ GivenUp ret))) := by
  have hrun : ∀ p : Except Raised EupdRetCode × EupdResult × Ledger, p = (p.1, p.2.1, p.2.2) :=
    fun _ => rfl
  exact ⟨_, _, _, _, _, _, hrun _, hrun _, updaterCheck_refused (sampleEnv_delivers [])
    (sampleEnv_delivers []) (by decide) 0 0 (fun _ => rfl) (hrun _) (hrun _)⟩

/-! ## Many softwares -/

/-- How a batch ends: with an error, or with the answers of a part of the list. -/
def ManyEnds (doc : List CChar) (sws : List EupdInSoftware) (outResults : Ptr (List EupdResult))
    (ret : EupdRetCode) (out : CheckMany) : Prop :=
  ret.isError = true ∧ out.outResults = outResults ∨
    ret.isError = false ∧ (∀ sw ∈ sws, checkInput sw = true) ∧ out.numResults = sws.length ∧
      ∃ full entries held, documentList (doc ++ [0]) = .ok (full, entries) ∧ held <+: entries ∧
        Filled held sws 0 out.outResults

theorem updaterCheckMany_ends (hd : Delivers env.curl url doc) (sws : List EupdInSoftware)
    (allowInsecure : Int32) (outResults : Ptr (List EupdResult)) :
    Triple (Within G fun out => out.outResults = outResults)
      (updaterCheckMany env url sws allowInsecure)
      (fun ret => Within G (ManyEnds doc sws outResults ret))
      (fun e => Within G fun out => documentList (doc ++ [0]) = .error e ∧
        out.outResults = outResults) := by
  refine Triple.bind_malloc_or_null (fun b hb => ?_) ?_
  swap
  · exact fun out L h => ⟨Or.inl ⟨rfl, h.1.1⟩, h.1.2⟩
  rw [if_neg (by simp)]
  refine Triple.bind_modifyObj
    (K := fun out => out.outResults = outResults ∧ out.numResults = 0) ?_ ?_
  · exact fun out hout => ⟨hout, rfl⟩
  refine Triple.bind_withObj_ledger (F := fun e L => documentList (doc ++ [0]) = .error e ∧ G L)
    (makeList_ends hd allowInsecure _) (fun e out L hout h => ⟨⟨h.1, hout.1⟩, h.2⟩) ?_
  intro code list
  dsimp only
  -- both ways out with an error release what was allocated
  have hfail : ∀ {ret : EupdRetCode} {results : Ptr (List EupdResult)}, ret.isError = true →
      Triple (Within G fun out => out.outResults = outResults)
        (do
          let out ← readObj
          parserFreeList list
          updaterFreeResultList results out.numResults
          return ret)
        (fun ret => Within G (ManyEnds doc sws outResults ret))
        (fun e => Within G fun out => documentList (doc ++ [0]) = .error e ∧
          out.outResults = outResults) := by
    intro ret results herr
    refine Triple.bind_readObj fun out hout => ?_
    refine (parserFreeList_releases list).bind_triple
      (fun _ _ _ h => ⟨h.1, Stable.congr (by rfl) h.2⟩) ?_
    refine (updaterFreeResultList_releases results _).bind_triple
      (fun _ _ _ h => ⟨h.1, Stable.congr (by rfl) h.2⟩) (Triple.pure ?_)
    rintro _ L ⟨rfl, hL⟩
    exact ⟨Or.inl ⟨herr, hout⟩, hL⟩
  split
  · rename_i herr
    exact (hfail herr).pre fun out L h => ⟨h.1.1, h.2.2⟩
  · rename_i herr
    have herr : code.isError = false := by simpa using herr
    rintro out L ⟨⟨hout, hnum⟩, ⟨full, entries, hdoc, hwalk⟩ | ⟨hcode, -⟩, hL⟩
    swap
    · rw [hcode.isError] at herr
      cases herr
    obtain ⟨held, hheld, hlist, -⟩ := walkEnds_holds hwalk
    have hnamed : ∀ e ∈ held, ∀ lv ∈ e.history, lv.severity.Named := fun e he =>
      documentList_named hdoc e (hheld.subset he)
    have hzero : Filled held [] sws.length (some b) := ⟨[], congrArg some hb, .nil⟩
    refine (?_ : Triple (Within G fun out => out.outResults = outResults ∧ out.numResults = 0)
      _ _ _) out L ⟨⟨hout, hnum⟩, hL⟩
    refine Triple.bind ((checkItems_ends hlist hnamed sws [] herr hzero).weaken_error) ?_
    rintro ⟨ret, results⟩
    dsimp only
    split
    · rename_i hret
      refine (hfail hret).pre fun out L h => ⟨?_, h.2⟩
      rcases h.1 with ⟨hout, -⟩ | ⟨hout, -⟩
      · exact hout
      · exact hout
    · rename_i hret
      refine (parserFreeList_releases list).bind_triple
        (fun _ _ _ h => ⟨h.1, Stable.congr (by rfl) h.2⟩) ?_
      refine Triple.bind (Q := fun _ => Within G (ManyEnds doc sws outResults ret)) ?_
        fun _ => Triple.pure fun _ _ h => h
      refine Triple.modifyObj fun out L h => ⟨Or.inr ?_, h.2⟩
      obtain ⟨⟨-, hends⟩ | ⟨-, rfl, -⟩, -⟩ := h
      · split_ifs at hends with hall
        · obtain ⟨-, hnum, hfilled⟩ := hends
          exact ⟨by simpa using hret, hall, by simpa using hnum, full, entries, held, hdoc, hheld,
            hfilled⟩
        · obtain rfl : ret = .eInvalidArgument := hends
          exact absurd rfl hret
      · exact absurd rfl hret

/-- **A batch without memory.** Whatever requests are refused, a batch throws only what each single
check of the document throws with every request granted, and leaves the caller's pointer alone; so does
a batch that returns an error. One that returns no error has a result for each of its softwares, and
each of them is unknown or the one of a single check with every request granted. -/
theorem updaterCheckMany_refused {env env₀ : Env} {url url₀ doc : List CChar}
    (hd : Delivers env.curl url doc) (hd₀ : Delivers env₀.curl url₀ doc)
    (sws : List EupdInSoftware) (allowInsecure allowInsecure₀ : Int32) {out out' : CheckMany}
    {L L' : Ledger} {x : Except Raised EupdRetCode}
    (hrun : (updaterCheckMany env url sws allowInsecure).exec out L = (x, out', L')) :
    (∀ e, x = .error e → out'.outResults = out.outResults ∧
      ∀ sw result₀ L₀, checkInput sw = true → L₀.AllGranted → ∃ L₀',
        (updaterCheck env₀ url₀ sw allowInsecure₀).exec result₀ L₀ = (.error e, .zero, L₀')) ∧
    (∀ ret, x = .ok ret →
      (ret.isError = true → out'.outResults = out.outResults) ∧
      (ret.isError = false → out'.numResults = sws.length ∧ ∃ results,
        out'.outResults.val? = some results ∧
        List.Forall₂ (fun sw result => result.status = .unknown ∧ result.link = none ∨
          ∀ result₀ L₀, L₀.AllGranted → ∃ ret₀ r₀ L₀',
            (updaterCheck env₀ url₀ sw allowInsecure₀).exec result₀ L₀ = (.ok ret₀, r₀, L₀') ∧
              ret₀.isError = false ∧ SameResult result r₀) sws results)) := by
  have hends := updaterCheckMany_ends (G := fun _ => True) hd sws allowInsecure out.outResults
    out L ⟨rfl, trivial⟩
  rw [hrun] at hends
  cases x with
  | error e =>
    obtain ⟨⟨hdoc, hout⟩, -⟩ := hends
    refine ⟨fun e' he => ?_, fun ret hret => (nomatch hret)⟩
    obtain rfl := Except.error.inj he
    exact ⟨hout, fun sw result₀ L₀ hsw hL₀ =>
      updaterCheck_throws hd₀ hsw allowInsecure₀ hdoc result₀ hL₀⟩
  | ok ret =>
    refine ⟨fun e he => (nomatch he), fun ret' hret' => ?_⟩
    obtain rfl := Except.ok.inj hret'
    obtain ⟨⟨herr, hout⟩ | ⟨herr, hall, hnum, full, entries, held, hdoc, hheld, hfilled⟩, -⟩ :=
      hends
    · refine ⟨fun _ => hout, fun hnot => ?_⟩
      rw [herr] at hnot
      cases hnot
    · obtain ⟨shown, hshown, hanswers⟩ := hfilled
      refine ⟨fun hnot => ?_, fun _ => ⟨hnum, shown, by simpa using hshown, ?_⟩⟩
      · rw [herr] at hnot
        cases hnot
      · refine ((List.forall₂_and_left _ _).mpr ⟨hall, hanswers.flip⟩).imp ?_
        rintro sw result ⟨hsw, hshows⟩
        by_cases hstatus : (answer held sw).status = .unknown
        · have hunknown := hshows.status.trans hstatus
          exact Or.inl ⟨hunknown, hshows.link_eq_none hunknown⟩
        · refine Or.inr fun result₀ L₀ hL₀ => ?_
          obtain ⟨r₀, L₀', hcheck, hshows₀⟩ :=
            updaterCheck_run hd₀ hsw allowInsecure₀ hdoc result₀ hL₀
          rw [answer_of_held hheld hstatus] at hshows hstatus
          refine ⟨_, r₀, L₀', hcheck, ?_, hshows.sameResult hshows₀⟩
          rw [Bool.eq_false_iff]
          intro hcode
          cases hfull : full.isError with
          | true =>
            obtain rfl := entries_of_isError hdoc hfull
            exact hstatus rfl
          | false =>
            rw [checkCode, hfull, if_neg (by decide), itemCode_isError hfull] at hcode
            cases hcode

/-- The sample twice, with the requests refused from the fifth on. -/
theorem updaterCheckMany_refused_sample :
    ∃ x out' L', (updaterCheckMany sampleEnv [] (List.replicate 2 (sampleInstalled #v[0, 0, 0, 0]))
        0).exec ⟨none, 0⟩ (.start fun n => n < 4) = (x, out', L') ∧
      (∀ e, x = .error e → out'.outResults = none) ∧
      ∀ ret, x = .ok ret → (ret.isError = true → out'.outResults = none) ∧
        (ret.isError = false → out'.numResults = 2 ∧ ∃ results, out'.outResults.val? = some results ∧
          List.Forall₂ (fun sw result => result.status = .unknown ∧ result.link = none ∨
            ∀ result₀ L₀, L₀.AllGranted → ∃ ret₀ r₀ L₀',
              (updaterCheck sampleEnv [] sw 0).exec result₀ L₀ = (.ok ret₀, r₀, L₀') ∧
                ret₀.isError = false ∧ SameResult result r₀)
            (List.replicate 2 (sampleInstalled #v[0, 0, 0, 0])) results) := by
  have hrun : ∀ p : Except Raised EupdRetCode × CheckMany × Ledger, p = (p.1, p.2.1, p.2.2) :=
    fun _ => rfl
  have hrefused := updaterCheckMany_refused (sampleEnv_delivers []) (sampleEnv_delivers [])
    (List.replicate 2 (sampleInstalled #v[0, 0, 0, 0])) 0 0 (hrun ((updaterCheckMany sampleEnv []
      (List.replicate 2 (sampleInstalled #v[0, 0, 0, 0])) 0).exec ⟨none, 0⟩ (.start fun n => n < 4)))
  exact ⟨_, _, _, hrun _, fun e he => (hrefused.1 e he).1, hrefused.2⟩

end UpdateCheck.Updater
