import UpdateCheck.Fetcher.Ownership
import UpdateCheck.ListParser.Image
import UpdateCheck.ListParser.Ownership
import UpdateCheck.Updater.Exhaustion

/-!
# The blocks of a check

What the entry points leave on the heap, whatever the transfer library answers and whatever requests
are refused: a check owns the link of its result, a batch its array and the links in it, and an
error leaves nothing with the caller. The two blocks that a refused copy in `parse_version` makes a
walk forget stay behind (`leftBehindBy`), and so does what is not released where the parser throws:
the text of the document, and the array of a batch (`Thrown`).

An application that releases each result once, and none that came with an error, as the header asks,
may call the library in any order: `App.run_owns`.
-/

namespace UpdateCheck.Updater

open Comparator ListParser Fetcher Ledger

variable {env : Env} {url : List CChar} {live : List Nat} {grant : Nat → Bool}

/-! ## The list -/

theorem fetch_owns (allowInsecure : Int32) (inSoftware : Option EupdInSoftware) :
    Triple (fun _ L => Owes live L) (fetch env url allowInsecure inSoftware) (Handed live)
      (fun _ _ _ => False) := by
  refine Triple.pre (P := Within (Owes live) fun _ => True) ?_ fun _ _ h => ⟨trivial, h⟩
  have hfree : ∀ (userAgent : Ptr (List CChar)) (ret : EupdRetCode),
      Triple (Handed (userAgent.ids ++ live) ret)
        (do free userAgent; return ret : Prog Raised DownloadedList EupdRetCode) (Handed live)
        (fun _ _ _ => False) := by
    intro userAgent ret
    refine Triple.fixed fun dl => ?_
    refine Triple.pre (P := Within (Owes (userAgent.ids ++ (dl.blocks ++ live)))
      fun x => x = dl ∧ Fetched ret dl) (Triple.bind_free_owes (Triple.pure ?_)) ?_
    · rintro _ L ⟨⟨rfl, hfetched⟩, howes⟩
      exact ⟨hfetched, howes⟩
    · rintro _ L ⟨rfl, hfetched, howes⟩
      exact ⟨⟨rfl, hfetched⟩, howes.perm (List.perm_append_comm_assoc _ _ _)⟩
  refine Triple.bind_malloc_owes (fun b _ => ?_) ?_
  · refine Triple.bind ((fetcherFetch_owns url allowInsecure (some b)).pre fun _ _ h => h.2) ?_
    exact hfree (some b)
  · refine Triple.bind ((fetcherFetch_owns url allowInsecure none).pre fun _ _ h => h.2) ?_
    exact hfree none

theorem fetch_steady (env : Env) (url : List CChar) (allowInsecure : Int32)
    (inSoftware : Option EupdInSoftware) :
    Steady (fetch env url allowInsecure inSoftware) := by
  refine .bind .malloc fun userAgent => ?_
  exact .bind (fetcherFetch_steady _ _ _) fun _ => .bind .free fun _ => .pure

/-- The document that `make_list` gives to the parser, with the ledger at that time; none where the
download fails. -/
def received (env : Env) (url : List CChar) (allowInsecure : Int32)
    (inSoftware : Option EupdInSoftware) (L : Ledger) : Option (List CChar × Ledger) :=
  match (fetch env url allowInsecure inSoftware).exec .zero L with
  | (.ok ret, dl, L') => if ret.isError then none else some (dl.list.val?.getD [], L')
  | (.error _, _, _) => none

/-- The number of the blocks that the walk over a document leaves behind. -/
def walkLeaves (listString : List CChar) (L : Ledger) : Nat :=
  match Json.parse listString with
  | .ok root => leftBehind (refusal L.grant L.clock (walkRequests root))
  | .error _ => 0

/-- The number of the blocks that `make_list` leaves behind. -/
def leftBehindBy (env : Env) (url : List CChar) (allowInsecure : Int32)
    (inSoftware : Option EupdInSoftware) (L : Ledger) : Nat :=
  match received env url allowInsecure inSoftware L with
  | some (listString, L') => walkLeaves listString L'
  | none => 0

theorem received_grant {allowInsecure : Int32} {inSoftware : Option EupdInSoftware}
    {L L' : Ledger} {listString : List CChar}
    (h : received env url allowInsecure inSoftware L = some (listString, L')) :
    L'.grant = L.grant := by
  have hgrant := fetch_steady env url allowInsecure inSoftware .zero L
  unfold received at h
  split at h
  · rename_i ret dl L₁ hexec
    rw [hexec] at hgrant
    split at h
    · cases h
    · cases h
      exact hgrant
  · cases h

theorem walkLeaves_of_allGranted {L : Ledger} (h : L.AllGranted) (listString : List CChar) :
    walkLeaves listString L = 0 := by
  unfold walkLeaves
  split
  · rw [refusal_of_all h]
    rfl
  · rfl

theorem leftBehindBy_of_allGranted {L : Ledger} (h : L.AllGranted) (allowInsecure : Int32)
    (inSoftware : Option EupdInSoftware) : leftBehindBy env url allowInsecure inSoftware L = 0 := by
  unfold leftBehindBy
  split
  · rename_i listString L' hreceived
    exact walkLeaves_of_allGranted (fun n => by rw [received_grant hreceived]; exact h n) _
  · rfl

/-- The list holds entries that can be published. -/
def Parsed (list : SoftwareList) : Prop :=
  ∃ entries, Holds list entries ∧ ∀ e ∈ entries, e.Publishable

theorem parsed_zero : Parsed .zero := ⟨[], holds_zero, fun _ he => nomatch he⟩

/-- A list that was made, next to what was live before and `n` blocks that are left behind. -/
def Made (grant : Nat → Bool) (live : List Nat) (n : Nat) (list : SoftwareList) (L : Ledger) :
    Prop :=
  Parsed list ∧ ∃ left, OwesUnder grant (listBlocks list ++ (left ++ live)) L ∧ left.length = n

theorem Made.zero {L : Ledger} (h : OwesUnder grant live L) : Made grant live 0 .zero L :=
  ⟨parsed_zero, [], h, rfl⟩

/-- An exception that leaves the library, next to what was live before and `n` blocks that are left
behind. -/
def Thrown (grant : Nat → Bool) (live : List Nat) (n : Nat) (e : Raised) (L : Ledger) : Prop :=
  e = .outOfRange ∧ ∃ left, OwesUnder grant (left ++ live) L ∧ left.length = n

theorem walkList_made {root : Json} (hroot : Json.Printable root) (L : Ledger) :
    Triple (fun list K => list = SoftwareList.zero ∧ K = L ∧ OwesUnder grant live K) (walkList root)
      (fun _ => Made grant live (leftBehind (refusal L.grant L.clock (walkRequests root))))
      (fun _ _ _ => False) := by
  have howns := @walkList_ownsBeside (refusal L.grant L.clock (walkRequests root)) live root
  refine (howns.and (walkList_ends (G := fun K => K.grant = grant) root)).conseq ?_ ?_
    fun _ _ _ h => h.1
  · rintro _ _ ⟨rfl, rfl, howes, hgrant⟩
    exact ⟨⟨rfl, howes, rfl⟩, rfl, hgrant⟩
  · rintro code list L' ⟨⟨left, howes, hleft⟩, hends, hgrant⟩
    obtain ⟨held, hheld, hlist, -⟩ := walkEnds_holds hends
    refine ⟨⟨held, hlist, fun e he => ?_⟩, left, ⟨howes, hgrant⟩, hleft⟩
    exact publishable_entriesOf hroot e (hheld.subset he)

theorem parserParse_made (listString : List CChar) (L : Ledger) :
    Triple (fun list K => list = SoftwareList.zero ∧ K = L ∧ OwesUnder grant live K)
      (parserParse listString) (fun _ => Made grant live (walkLeaves listString L))
      (fun e _ => Thrown grant live 0 e) := by
  unfold walkLeaves
  cases hp : Json.parse listString with
  | ok root =>
    rw [parserParse_of_ok hp]
    exact (walkList_made (Json.printable_of_parse hp) L).weaken_error
  | error e =>
    unfold parserParse
    rw [hp]
    rcases Json.parse_error hp with rfl | rfl
    · refine Triple.pure ?_
      rintro _ _ ⟨rfl, -, howes⟩
      exact .zero howes
    · exact Triple.throw fun _ _ h => ⟨rfl, [], h.2.2, rfl⟩

/-- What is handed out without an error is one block, the text. -/
theorem length_blocks_of_fetched {ret : EupdRetCode} {dl : DownloadedList} (h : Fetched ret dl)
    (hret : ret.isError = false) : dl.blocks.length = 1 := by
  have hok : ret = .ok := h.code.resolve_right (by simp [hret])
  obtain ⟨b, hlist⟩ := Option.isSome_iff_exists.mp (h.list.mpr hok)
  have herror : dl.errorString = none := by
    cases herror : dl.errorString with
    | none => rfl
    | some c =>
      have hnetwork := h.errorString (by rw [herror]; rfl)
      rw [hok] at hnetwork
      cases hnetwork
  rw [DownloadedList.blocks, hlist, herror]
  rfl

/-- `make_list` releases the download, unless `out_of_range` passes it. -/
theorem makeList_made {allowInsecure : Int32} {inSoftware : Option EupdInSoftware} {L : Ledger}
    (hL : Owes live L) :
    Triple (fun list K => list = SoftwareList.zero ∧ K = L)
      (makeList env url allowInsecure inSoftware)
      (fun _ => Made L.grant live (leftBehindBy env url allowInsecure inSoftware L))
      (fun e _ => Thrown L.grant live 1 e) := by
  obtain ⟨ret, dl, L₁, hexec, hfetched, howes⟩ :=
    (@fetch_owns env url live allowInsecure inSoftware).run (x := .zero) hL
  have hgrant := fetch_steady env url allowInsecure inSoftware .zero L
  rw [hexec] at hgrant
  have hreceived : received env url allowInsecure inSoftware L =
      if ret.isError then none else some (dl.list.val?.getD [], L₁) := by
    rw [received, hexec]
  intro list K hstate
  obtain ⟨rfl, rfl⟩ := hstate
  rw [makeList, exec_bind, withObj, exec_of, hexec]
  dsimp only [Except.map]
  rw [leftBehindBy, hreceived]
  have howes' : OwesUnder K.grant (dl.blocks ++ live) L₁ := ⟨howes, hgrant⟩
  refine (?_ : Triple (fun list K' => list = SoftwareList.zero ∧ K' = L₁) _ _ _) .zero L₁ ⟨rfl, rfl⟩
  split
  · refine Triple.pre (P := Within (OwesUnder K.grant (dl.blocks ++ live)) (· = SoftwareList.zero))
      ((fetcherListCleanup_releases dl).bind_owes (fetcherListCleanup_owes dl) (Triple.pure ?_)) ?_
    · rintro _ L ⟨rfl, hL⟩
      exact .zero hL
    · rintro _ _ ⟨rfl, rfl⟩
      exact ⟨rfl, howes'⟩
  · rename_i hret
    have hlength := length_blocks_of_fetched hfetched (by simpa using hret)
    refine Triple.bind ((@parserParse_made (dl.blocks ++ live) K.grant
      (dl.list.val?.getD []) L₁).conseq ?_ (fun _ _ _ h => h) ?_) fun code => ?_
    · rintro _ _ ⟨rfl, rfl⟩
      exact ⟨rfl, rfl, howes'⟩
    · rintro e _ L ⟨rfl, left, hL, hleft⟩
      obtain rfl := List.length_eq_zero_iff.mp hleft
      exact ⟨rfl, dl.blocks, hL, hlength⟩
    · refine Triple.fixed fun list => ?_
      intro l L h
      obtain ⟨hl, hparsed, left, howes, hleft⟩ := h
      subst l
      -- the blocks of the download stand behind those of the list
      have hperm : (listBlocks list ++ (left ++ (dl.blocks ++ live))).Perm
          (dl.blocks ++ (listBlocks list ++ (left ++ live))) := by
        refine (List.Perm.append_left _ (List.perm_append_comm_assoc _ _ _)).trans ?_
        exact List.perm_append_comm_assoc _ _ _
      refine (?_ : Triple (Within (OwesUnder K.grant
        (dl.blocks ++ (listBlocks list ++ (left ++ live)))) (· = list)) _ _ _) list L
        ⟨rfl, howes.perm hperm⟩
      refine (fetcherListCleanup_releases dl).bind_owes (fetcherListCleanup_owes dl)
        (Triple.pure ?_)
      rintro _ L ⟨rfl, hL⟩
      exact ⟨hparsed, left, hL, hleft⟩

/-! ## One software -/

theorem setLinkFrom_owes (name : Vector CChar nameSize) (items : List Software) :
    Triple (Within (Owes live) fun r => r.link = none) (setLinkFrom name items)
      (fun _ r L => Owes (r.link.ids ++ live) L) (fun _ _ _ => True) := by
  induction items with
  | nil => exact Triple.throw fun _ _ _ => trivial
  | cons sw items ih =>
    rw [setLinkFrom]
    split
    · refine Triple.bind_malloc_owes (fun b _ => ?_) ?_
      · refine Triple.bind_modifyObj (K := fun r => r.link = some b) (fun _ _ => rfl) ?_
        refine Triple.pure fun r L h => ?_
        rw [h.1]
        exact h.2
      · exact fun r L h => h.2
    · exact ih

theorem processItem_owes (list : SoftwareList) (sw : EupdInSoftware) (inRet : EupdRetCode) :
    Triple (Within (Owes live) fun r => r.link = none) (processItem list sw inRet)
      (fun _ r L => Owes (r.link.ids ++ live) L) (fun _ _ _ => True) := by
  refine Triple.bind_readObj fun result hlink => ?_
  have hkept : ∀ ret : EupdRetCode, Triple (Within (Owes live) fun r => r.link = none)
      (Pure.pure ret : Prog Raised EupdResult EupdRetCode)
      (fun _ r L => Owes (r.link.ids ++ live) L) (fun _ _ _ => True) := fun ret =>
    Triple.pure fun r L h => by
      rw [h.1]
      exact h.2
  cases comparatorCompare list sw result.version with
  | error e =>
    refine Triple.bind (Q := fun _ _ _ => False) (Triple.throw fun _ _ _ => trivial) ?_
    exact fun _ _ _ h => h.elim
  | ok p =>
    obtain ⟨tRet, status, version⟩ := p
    refine Triple.bind_pure ?_
    refine Triple.bind_modifyObj (K := fun r => r.link = none) ?_ ?_
    · rintro _ rfl
      exact hlink
    · dsimp only
      split
      · exact hkept _
      · split
        · refine Triple.bind (setLinkFrom_owes sw.name list.visible) fun tRetTwo => ?_
          have hdone : ∀ ret : EupdRetCode, Triple (fun r L => Owes (r.link.ids ++ live) L)
              (Pure.pure ret : Prog Raised EupdResult EupdRetCode)
              (fun _ r L => Owes (r.link.ids ++ live) L) (fun _ _ _ => True) :=
            fun _ => Triple.pure fun _ _ h => h
          repeat' split
          all_goals exact hdone _
        · exact hkept _

/-- The result shows the answer of a list that can be published. -/
def AnswerOf (sw : EupdInSoftware) (r : EupdResult) : Prop :=
  ∃ entries : List Entry, (∀ e ∈ entries, e.Publishable) ∧ Shows r (answer entries sw)

/-- A result is an answer, or it comes with an error and has no link. -/
def ItemMade (sw : EupdInSoftware) (ret : EupdRetCode) (r : EupdResult) : Prop :=
  if ret.isError then r.link = none else AnswerOf sw r

/-- A check on a list that was parsed reaches no `abort`, and owns a link only where it returns no
error. -/
theorem processItem_owns {list : SoftwareList} (h : Parsed list) (sw : EupdInSoftware)
    {inRet : EupdRetCode} (hret : inRet.isError = false) :
    Triple (Within (OwesUnder grant live) (· = EupdResult.zero)) (processItem list sw inRet)
      (fun ret r L => OwesUnder grant (r.link.ids ++ live) L ∧ ItemMade sw ret r)
      (fun _ _ _ => False) := by
  obtain ⟨entries, hlist, hpublishable⟩ := h
  have hnamed : ∀ e ∈ entries, ∀ lv ∈ e.history, lv.severity.Named := fun e he =>
    (hpublishable e he).severities
  refine ((@processItem_owes live list sw inRet).and (processItem_ends
    (G := fun L => L.grant = grant) hlist hnamed sw inRet)).conseq ?_ ?_ fun _ _ _ h => h.2
  · rintro _ L ⟨rfl, hL, hgrant⟩
    exact ⟨⟨rfl, hL⟩, rfl, hgrant⟩
  · rintro ret r L ⟨howes, ⟨rfl, hshows⟩ | ⟨rfl, hlink, -⟩, hgrant⟩
    · refine ⟨⟨howes, hgrant⟩, ?_⟩
      rw [ItemMade, itemCode_isError hret]
      exact ⟨entries, hpublishable, hshows⟩
    · exact ⟨⟨howes, hgrant⟩, hlink⟩

theorem parserFreeList_bind_owes {σ β : Type} (list : SoftwareList) {P : σ → Prop}
    {f : Unit → Prog Raised σ β} {Q : β → σ → Ledger → Prop} {E : Raised → σ → Ledger → Prop}
    (hf : Triple (Within (OwesUnder grant live) P) (f ()) Q E) :
    Triple (Within (OwesUnder grant (listBlocks list ++ live)) P) (parserFreeList list >>= f) Q E :=
  (parserFreeList_releases list).bind_owes (parserFreeList_owes list) hf

/-- The result of a check with its link, next to what was live before and what is left behind. -/
def Answered (grant : Nat → Bool) (live : List Nat) (n : Nat) (sw : EupdInSoftware)
    (ret : EupdRetCode) (r : EupdResult) (L : Ledger) : Prop :=
  ItemMade sw ret r ∧ ∃ left, OwesUnder grant (r.link.ids ++ (left ++ live)) L ∧ left.length = n

theorem updaterCheck_owns (env : Env) (url : List CChar) {sw : EupdInSoftware}
    (hsw : checkInput sw = true)
    (allowInsecure : Int32) {L : Ledger} (hL : Owes live L) :
    Triple (fun _ K => K = L) (updaterCheck env url sw allowInsecure)
      (Answered L.grant live (leftBehindBy env url allowInsecure (some sw) L) sw)
      (fun e _ => Thrown L.grant live 1 e) := by
  unfold updaterCheck
  rw [hsw]
  refine Triple.pre (P := fun _ K => True ∧ K = L) ?_ fun _ _ h => ⟨trivial, h⟩
  refine Triple.bind (Q := fun _ r K => r = EupdResult.zero ∧ K = L)
    (Triple.modifyObj fun _ _ h => ⟨rfl, h.2⟩) fun _ => ?_
  refine Triple.bind_withObj_ledger (F := Thrown L.grant live 1) (makeList_made hL)
    (fun _ _ _ _ h => h) ?_
  intro code list
  dsimp only
  intro r K hstate
  obtain ⟨rfl, hparsed, left, howes, hleft⟩ := hstate
  rw [← hleft]
  refine (?_ : Triple (Within (OwesUnder L.grant (listBlocks list ++ (left ++ live)))
    (· = EupdResult.zero))
    _ _ _) .zero K ⟨rfl, howes⟩
  split
  · rename_i herr
    refine parserFreeList_bind_owes list (Triple.pure ?_)
    rintro _ K ⟨rfl, hK⟩
    refine ⟨?_, left, hK, rfl⟩
    rw [ItemMade, if_pos herr]
    rfl
  · rename_i herr
    refine Triple.bind ((@processItem_owns (listBlocks list ++ (left ++ live)) L.grant
      list hparsed sw _ (by simpa using herr)).weaken_error)
      fun ret => ?_
    refine Triple.fixed fun r => ?_
    refine Triple.pre (P := Within (OwesUnder L.grant
      (listBlocks list ++ (r.link.ids ++ (left ++ live))))
      fun r' => r' = r ∧ ItemMade sw ret r)
      (parserFreeList_bind_owes list (Triple.pure ?_)) ?_
    · rintro _ K ⟨⟨rfl, hmade⟩, hK⟩
      exact ⟨hmade, left, hK, rfl⟩
    · rintro _ K ⟨rfl, hK, hmade⟩
      exact ⟨⟨rfl, hmade⟩, hK.perm (List.perm_append_comm_assoc _ _ _)⟩

/-! ## Many softwares -/

/-- The links of some results. -/
def linkBlocks (results : List EupdResult) : List Nat := results.flatMap fun r => r.link.ids

/-- What an array of results owns: itself, and the links of the results that are counted. -/
def CheckMany.blocks (out : CheckMany) : List Nat :=
  out.outResults.ids ++ linkBlocks ((out.outResults.val?.getD []).take out.numResults)

theorem freeResults_owes {σ : Type} (results : List EupdResult) :
    Triple (fun _ L => Owes (linkBlocks results ++ live) L)
      (freeResults results : Prog Raised σ Unit) (fun _ _ L => Owes live L)
      (fun _ _ _ => False) := by
  induction results with
  | nil => exact Triple.pure fun _ _ h => h
  | cons r results ih =>
    rw [linkBlocks, List.flatMap_cons, List.append_assoc]
    exact Triple.bind free_owes fun _ => ih

theorem updaterFreeResultList_owes {σ : Type} (out : CheckMany) :
    Triple (fun _ L => Owes (out.blocks ++ live) L)
      (updaterFreeResultList out.outResults out.numResults : Prog Raised σ Unit)
      (fun _ _ L => Owes live L) (fun _ _ _ => False) := by
  refine Triple.pre (Triple.bind (freeResults_owes _) fun _ => free_owes) fun _ L h => ?_
  rw [CheckMany.blocks, List.append_assoc] at h
  exact h.perm (List.perm_append_comm_assoc _ _ _)

theorem updaterFreeResultList_bind_owes {σ β : Type} (out : CheckMany) {P : σ → Prop}
    {f : Unit → Prog Raised σ β} {Q : β → σ → Ledger → Prop} {E : Raised → σ → Ledger → Prop}
    (hf : Triple (Within (OwesUnder grant live) P) (f ()) Q E) :
    Triple (Within (OwesUnder grant (out.blocks ++ live)) P)
      (updaterFreeResultList out.outResults out.numResults >>= f) Q E :=
  (updaterFreeResultList_releases _ _).bind_owes (updaterFreeResultList_owes out) hf

/-- The blocks of an array of which the results in front are counted. -/
theorem CheckMany.blocks_of_append {done rest : List EupdResult} {b : Block (List EupdResult)}
    (h : b.val = done ++ rest) :
    (CheckMany.mk (some b) done.length).blocks = b.id :: linkBlocks done := by
  have htake : (done ++ rest).take done.length = done := List.take_left
  change b.id :: linkBlocks (b.val.take done.length) = _
  rw [h, htake]

/-- An array that counts one answer for each software. -/
def BatchMade (sws : List EupdInSoftware) (out : CheckMany) : Prop :=
  ∃ results, out.outResults.val? = some results ∧ out.numResults = results.length ∧
    List.Forall₂ AnswerOf sws results

/-- The loop owns the array with the links of the results that it counts, and without an error it
counts an answer for each software. -/
theorem checkItems_owes {list : SoftwareList} (h : Parsed list) (sws seen : List EupdInSoftware)
    {outResults : Ptr (List EupdResult)} {ret : EupdRetCode} (hret : ret.isError = false)
    {done : List EupdResult} (hdone : List.Forall₂ AnswerOf seen done)
    {b : Block (List EupdResult)} (hb : b.val = done ++ List.replicate sws.length .zero) :
    Triple (Within (OwesUnder grant (b.id :: linkBlocks done ++ live))
        fun out => out.outResults = outResults ∧ out.numResults = done.length)
      (checkItems list done.length ret (some b) sws)
      (fun p out L => out.outResults = outResults ∧
        (p.1.isError = false → BatchMade (seen ++ sws) ⟨p.2, out.numResults⟩) ∧
        OwesUnder grant ((CheckMany.mk p.2 out.numResults).blocks ++ live) L)
      (fun _ _ _ => False) := by
  induction sws generalizing seen done b ret with
  | nil =>
    refine Triple.pure fun out L hstate => ?_
    obtain ⟨⟨hout, hnum⟩, hL⟩ := hstate
    refine ⟨hout, fun _ => ⟨done, ?_, hnum, ?_⟩, ?_⟩
    · exact congrArg some (hb.trans (List.append_nil done))
    · rwa [List.append_nil]
    · rw [hnum, CheckMany.blocks_of_append hb]
      exact hL
  | cons sw sws ih =>
    unfold checkItems
    cases hsw : checkInput sw with
    | false =>
      refine Triple.pure fun out L hstate => ?_
      obtain ⟨⟨hout, hnum⟩, hL⟩ := hstate
      refine ⟨hout, fun hnot => Bool.noConfusion hnot, ?_⟩
      rw [hnum, CheckMany.blocks_of_append hb]
      exact hL
    | true =>
      have hslot : b.val.getD done.length .zero = .zero := by
        rw [hb, List.length_cons, List.replicate_succ]
        simp
      dsimp only [Bool.not_true, Bool.false_eq_true, if_false]
      refine Triple.bind_withObj_ledger (F := fun _ _ => False)
        (K := fun out : CheckMany => out.outResults = outResults ∧ out.numResults = done.length)
        ((@processItem_owns (b.id :: linkBlocks done ++ live) grant list h sw ret hret).pre ?_)
        (fun _ _ _ _ => False.elim) ?_
      · rintro _ L ⟨rfl, hL⟩
        exact ⟨hslot, hL⟩
      intro ret r
      have hstored : b.val.set done.length r = (done ++ [r]) ++ List.replicate sws.length .zero := by
        rw [hb, List.length_cons, List.replicate_succ, List.set_append_right _ _ le_rfl,
          Nat.sub_self, List.set_cons_zero, List.append_assoc]
        rfl
      dsimp only
      split
      · rename_i herr
        -- the result of an error is not counted, and it has no link
        refine Triple.pure fun out L hstate => ?_
        obtain ⟨⟨hout, hnum⟩, hL, hmade⟩ := hstate
        rw [ItemMade, if_pos herr] at hmade
        rw [hmade] at hL
        refine ⟨hout, fun hnot => absurd herr (by simp [hnot]), ?_⟩
        rw [hnum]
        change OwesUnder grant ((CheckMany.mk (some { b with val := b.val.set done.length r })
          done.length).blocks ++ live) L
        rw [CheckMany.blocks_of_append (hstored.trans (List.append_assoc _ _ _))]
        exact hL
      · rename_i herr
        refine Triple.pre (P := fun out L => AnswerOf sw r ∧ out.outResults = outResults ∧
          OwesUnder grant (b.id :: linkBlocks (done ++ [r]) ++ live) L)
          (Triple.assume fun hanswer => ?_) ?_
        · refine Triple.bind (Q := fun _ => Within (OwesUnder grant
            (b.id :: linkBlocks (done ++ [r]) ++ live))
            fun out => out.outResults = outResults ∧ out.numResults = done.length + 1)
            (Triple.modifyObj fun out L hstate => ⟨⟨hstate.1, rfl⟩, hstate.2⟩) fun _ => ?_
          have hnext : List.Forall₂ AnswerOf (seen ++ [sw]) (done ++ [r]) :=
            List.rel_append hdone (.cons hanswer .nil)
          have hrest := @ih (seen ++ [sw]) ret (by simpa using herr) (done ++ [r]) hnext
            { b with val := b.val.set done.length r } hstored
          rw [List.length_append, List.length_singleton, List.append_assoc] at hrest
          exact hrest
        · rintro out L ⟨⟨hout, -⟩, hL, hmade⟩
          rw [ItemMade, if_neg herr] at hmade
          refine ⟨hmade, hout, hL.perm ?_⟩
          rw [linkBlocks, linkBlocks, List.flatMap_append, List.flatMap_singleton]
          exact (List.perm_append_comm_assoc _ _ _).trans (by simp)

/-- The number of the blocks that a batch leaves behind: those of its list, where the array is
granted. -/
def manyLeftBehindBy (env : Env) (url : List CChar) (allowInsecure : Int32) (L : Ledger) : Nat :=
  if L.grant L.clock then
    leftBehindBy env url allowInsecure none
      { L with clock := L.clock + 1, acquired := L.clock :: L.acquired }
  else 0

/-- The array of a batch, next to what was live before and what is left behind. -/
def ManyAnswered (grant : Nat → Bool) (live : List Nat) (n : Nat) (sws : List EupdInSoftware)
    (outResults : Ptr (List EupdResult)) (ret : EupdRetCode) (out : CheckMany) (L : Ledger) : Prop :=
  ∃ left, left.length = n ∧
    if ret.isError then out.outResults = outResults ∧ OwesUnder grant (left ++ live) L
    else BatchMade sws out ∧ OwesUnder grant (out.blocks ++ (left ++ live)) L

/-- The way out of a batch with an error. -/
theorem releaseMany_owes (list : SoftwareList) {results outResults : Ptr (List EupdResult)}
    {ret : EupdRetCode} (herr : ret.isError = true) (left : List Nat) {sws : List EupdInSoftware}
    {E : Raised → CheckMany → Ledger → Prop} :
    Triple (fun out L => out.outResults = outResults ∧
        OwesUnder grant (listBlocks list ++
          ((CheckMany.mk results out.numResults).blocks ++ (left ++ live))) L)
      (do
        let out ← readObj
        parserFreeList list
        updaterFreeResultList results out.numResults
        return ret)
      (ManyAnswered grant live left.length sws outResults) E := by
  refine Triple.fixed fun out => ?_
  refine Triple.pre (P := Within (OwesUnder grant (listBlocks list ++
    ((CheckMany.mk results out.numResults).blocks ++ (left ++ live))))
    fun out' => out' = out ∧ out.outResults = outResults) ?_ ?_
  · refine Triple.bind_readObj fun out' hout' => ?_
    obtain ⟨rfl, hout⟩ := hout'
    refine parserFreeList_bind_owes list ?_
    refine updaterFreeResultList_bind_owes ⟨results, out'.numResults⟩ (Triple.pure ?_)
    rintro _ L ⟨rfl, hL⟩
    refine ⟨left, rfl, ?_⟩
    rw [if_pos herr]
    exact ⟨hout, hL⟩
  · rintro _ L ⟨rfl, hout, hL⟩
    exact ⟨⟨rfl, hout⟩, hL⟩

theorem updaterCheckMany_owns (env : Env) (url : List CChar) (sws : List EupdInSoftware)
    (allowInsecure : Int32)
    {outResults : Ptr (List EupdResult)} {L : Ledger} (hL : Owes live L) :
    Triple (fun out K => out.outResults = outResults ∧ K = L)
      (updaterCheckMany env url sws allowInsecure)
      (ManyAnswered L.grant live (manyLeftBehindBy env url allowInsecure L) sws outResults)
      (fun e _ => Thrown L.grant live 2 e) := by
  intro out K hstate
  obtain ⟨hout, hK⟩ := hstate
  subst K
  rw [updaterCheckMany, exec_bind, malloc, exec_of, manyLeftBehindBy]
  cases hg : L.grant L.clock with
  | false => exact ⟨[], rfl, hout, hL.advance 1, rfl⟩
  | true =>
    have hacquired := hL.acquire
    rw [if_pos rfl, if_pos rfl]
    have hgrant : ({ L with clock := L.clock + 1, acquired := L.clock :: L.acquired } :
      Ledger).grant = L.grant := rfl
    generalize ({ L with clock := L.clock + 1, acquired := L.clock :: L.acquired } : Ledger) = L₁
      at hacquired hgrant ⊢
    rw [← hgrant]
    dsimp only [Option.isNone]
    refine (?_ : Triple (fun out K => out.outResults = outResults ∧ K = L₁) _ _ _) out L₁
      ⟨hout, rfl⟩
    refine Triple.bind (Q := fun _ out K => (out.outResults = outResults ∧ out.numResults = 0) ∧
      K = L₁) (Triple.modifyObj fun out _ h => ⟨⟨h.1, rfl⟩, h.2⟩) fun _ => ?_
    refine Triple.bind_withObj_ledger (F := Thrown L₁.grant (L.clock :: live) 1)
      (makeList_made hacquired) ?_ ?_
    · rintro e _ K - ⟨rfl, left, hK, hleft⟩
      refine ⟨rfl, left ++ [L.clock], ?_, by rw [List.length_append, hleft]; rfl⟩
      rw [List.append_assoc]
      exact hK
    intro code list
    dsimp only
    intro out K hstate
    obtain ⟨hout, hparsed, left, howes, hleft⟩ := hstate
    rw [← hleft]
    have hzero : (List.replicate sws.length EupdResult.zero) =
        [] ++ List.replicate sws.length .zero := rfl
    refine (?_ : Triple (Within (OwesUnder L₁.grant (listBlocks list ++ (left ++ L.clock :: live)))
      fun out => out.outResults = outResults ∧ out.numResults = 0) _ _ _) out K ⟨hout, howes⟩
    split
    · rename_i herr
      refine (releaseMany_owes list herr left).pre fun out K hstate => ?_
      obtain ⟨⟨hout, hnum⟩, hK⟩ := hstate
      refine ⟨hout, ?_⟩
      rw [hnum]
      exact hK.perm (List.perm_middle.append_left _)
    · rename_i herr
      refine Triple.bind ((@checkItems_owes (listBlocks list ++ (left ++ live)) L₁.grant list
        hparsed sws [] outResults code (by simpa using herr) [] .nil _
        hzero).weaken_error.pre ?_) ?_
      · rintro out K ⟨hout, hK⟩
        refine ⟨hout, hK.perm ?_⟩
        have hperm := @List.perm_middle _ L.clock (listBlocks list ++ left) live
        rwa [List.append_assoc, List.append_assoc] at hperm
      · rintro ⟨ret, results⟩
        dsimp only
        split
        · rename_i hret
          refine (releaseMany_owes list hret left).pre fun out K hstate => ?_
          exact ⟨hstate.1, hstate.2.2.perm (List.perm_append_comm_assoc _ _ _)⟩
        · rename_i hret
          refine Triple.fixed fun out => ?_
          refine Triple.pre (P := Within (OwesUnder L₁.grant (listBlocks list ++
            ((CheckMany.mk results out.numResults).blocks ++ (left ++ live))))
            fun out' => out' = out ∧ BatchMade sws ⟨results, out.numResults⟩) ?_ ?_
          · refine parserFreeList_bind_owes list ?_
            refine Triple.bind (Q := fun _ =>
              ManyAnswered L₁.grant live left.length sws outResults ret)
              (Triple.modifyObj ?_) fun _ => Triple.pure fun _ _ h => h
            rintro _ K ⟨⟨rfl, hmade⟩, hK⟩
            refine ⟨left, rfl, ?_⟩
            rw [if_neg hret]
            exact ⟨hmade, hK⟩
          · rintro _ K ⟨rfl, -, hmade, hK⟩
            exact ⟨⟨rfl, hmade (by simpa using hret)⟩,
              hK.perm (List.perm_append_comm_assoc _ _ _)⟩

end UpdateCheck.Updater
