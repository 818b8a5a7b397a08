import UpdateCheck.Updater.Answer

/-!
# Coherence of a check

Whatever the allocations, the list of a document that the parser accepts keeps the bounds that the
two searches rely on (`Coherent`): no item is without versions, every severity is a named one and
every revision is a short string with its padding. With these neither `abort` is reached, and
status, version and link come from one item (`updaterCheck_coherent`).
-/

namespace UpdateCheck.Updater

open Comparator ListParser Fetcher

/-! ## Items -/

/-- The item holds the versions of the array, one for one, and their data are in range. -/
structure Coherent (sw : Software) (vers : List Json) : Prop where
  nonempty : 1 ≤ sw.numVersions
  count : sw.numVersions = vers.length
  stored : sw.history.length = sw.numVersions
  severities : ∀ lv ∈ sw.history, lv.severity.Named
  revisions : ∀ lv ∈ sw.history, PaddedRevision lv.version.revision

theorem coherent_of_stores {sw : Software} {item : Json} (h : ValidItem item)
    (hst : Stores sw (storedItem item)) :
    ∃ vers, item.find? VERSIONS = some (.array vers) ∧ Coherent sw vers := by
  obtain ⟨⟨-, -, -, j, hj, harray⟩, hversions⟩ := h
  rw [Bool.and_eq_true, decide_eq_true_iff] at harray
  obtain ⟨vers, rfl⟩ := Json.isArray_iff.mp harray.1
  have hvers : versionsField item = vers := by
    rw [versionsField, field_of_find? hj]
    rfl
  have hhistory : sw.history = vers.map storedVersion := by
    rw [hst.history_eq, storedItem, hvers]
  have hcount : sw.numVersions = vers.length := by
    rw [hst.numVersions, storedItem, hvers, List.length_map]
  rw [hvers] at hversions
  refine ⟨vers, hj, ?_, hcount, ?_, ?_, ?_⟩
  · rw [hcount]
    exact harray.2
  · rw [hhistory, hcount, List.length_map]
  · rw [hhistory, List.forall_mem_map]
    exact fun v hv => storedVersion_named (hversions v hv)
  · rw [hhistory, List.forall_mem_map]
    exact fun v hv => storedVersion_padded (hversions v hv)

/-! ## Lists -/

/-- The items of the list are those of the array, one for one, as far as the list goes. -/
def CoherentList (list : SoftwareList) (items : List Json) : Prop :=
  List.Forall₂ (fun sw item => ∃ vers, item.find? VERSIONS = some (.array vers) ∧ Coherent sw vers)
    list.visible (items.take list.length)

theorem coherentList_of_holds {list : SoftwareList} {items : List Json} {held : List Entry}
    (h : Holds list held) (hheld : held <+: validPrefix items) : CoherentList list items := by
  obtain ⟨front, hfront, rfl⟩ := List.prefix_map_iff.mp hheld
  obtain ⟨hlen, hstores⟩ := h
  have hvalid : ∀ item ∈ front, ValidItem item := fun item hitem => by
    simpa using List.mem_takeWhile_imp (hfront.subset hitem)
  have htake : items.take list.length = front := by
    rw [hlen, List.length_map]
    exact (List.prefix_iff_eq_take.mp (hfront.trans (List.takeWhile_prefix _))).symm
  rw [CoherentList, htake]
  rw [List.forall₂_map_right_iff] at hstores
  refine (((List.forall₂_and_left _ _).mpr ⟨hvalid, hstores.flip⟩).imp ?_).flip
  intro item sw hboth
  obtain ⟨hitem, hst⟩ := hboth
  exact coherent_of_stores hitem hst

/-- Whatever the allocations, an accepted document has a root with a `software` array and the list
holds the first of its items. -/
theorem parserParse_held {listString : List CChar} {L L' : Ledger} {code : EupdRetCode}
    {list : SoftwareList} (h : (parserParse listString).exec .zero L = (.ok code, list, L'))
    (hcode : code = .ok ∨ code = .wListIncomplete) :
    ∃ root held, Json.parse listString = .ok root ∧ HasSoftware root ∧ held <+: entriesOf root ∧
      Holds list held := by
  cases hp : Json.parse listString with
  | error e =>
    rw [parserParse, hp] at h
    rcases Json.parse_error hp with rfl | rfl
    · cases h
      simp at hcode
    · cases h
  | ok root =>
    have hends := walkList_ends (G := fun _ => True) root .zero L ⟨rfl, trivial⟩
    rw [parserParse_of_ok hp] at h
    rw [h] at hends
    obtain ⟨⟨rfl, hlist⟩ | ⟨-, herr, -, held, hheld, hlist⟩, -⟩ := hends
    · refine ⟨root, _, rfl, ?_, List.prefix_refl _, hlist⟩
      by_contra hs
      simp [codeOf, hs] at hcode
    · refine ⟨root, held, rfl, ?_, hheld, hlist⟩
      by_contra hs
      rw [codeOf, if_neg hs] at herr
      cases herr

/-! ## The check -/

/-- The item that answers is the one both searches find. -/
theorem answer_item {list : SoftwareList} {entries : List Entry} (h : Holds list entries)
    (hnamed : ∀ e ∈ entries, ∀ lv ∈ e.history, lv.severity.Named) (sw : EupdInSoftware)
    (hfound : (answer entries sw).status ≠ .unknown) :
    ∃ item, firstMatch list sw.name = some item ∧
      (∀ v, compareItem item sw.version v =
        .ok (.ok, (answer entries sw).status, (answer entries sw).version)) ∧
      (answer entries sw).link = some (content item.linkBytes ++ [0]) := by
  rcases firstMatch_entryFor h sw.name with ⟨-, he⟩ | ⟨item, e, hf, he, hst⟩
  · rw [answer_of_none he] at hfound
    exact absurd rfl hfound
  · rw [answer_of_some he]
    refine ⟨item, hf, fun v => ?_, by rw [hst.linkBytes_eq]⟩
    rw [compareItem_ok (severitiesNamed_of_holds h hnamed item (firstMatch_mem hf)),
      hst.history_eq]

/-- **Coherence of a check.** Whatever the allocations, each item of the list of an accepted
document has one version for each element of its `versions` array and at least one, named
severities and padded revisions. With every allocation granted a check of an accepted software
against it ends normally, so no `abort` is reached; it has a link exactly where its status is
known; status, version and link come from one item, the first with the name; and the code tells
an incomplete list first and a software not found second. -/
theorem updaterCheck_coherent (doc : List CChar) {L L' : Ledger} {code : EupdRetCode}
    {list : SoftwareList}
    (hparse : (parserParse (doc ++ [0])).exec .zero L = (.ok code, list, L'))
    (hcode : code = .ok ∨ code = .wListIncomplete) :
    (∃ root items, Json.parse (doc ++ [0]) = .ok root ∧
      root.find? SOFTWARE = some (.array items) ∧ CoherentList list items) ∧
    (L.AllGranted → ∀ (env : Env) (url : List CChar), Delivers env.curl url doc →
      ∀ sw, checkInput sw = true → ∀ allowInsecure result K, K.AllGranted → ∃ ret r K',
        (updaterCheck env url sw allowInsecure).exec result K = (.ok ret, r, K') ∧
        (r.link.isSome = true ↔ r.status ≠ .unknown) ∧
        (r.status ≠ .unknown → ∃ item, firstMatch list sw.name = some item ∧
          (∀ v, compareItem item sw.version v = .ok (.ok, r.status, r.version)) ∧
          r.link.val? = some (content item.linkBytes ++ [0])) ∧
        ret = if code = .wListIncomplete then .wListIncomplete
          else if r.status = .unknown then .wNotFound else .ok) := by
  constructor
  · obtain ⟨root, held, hroot, hs, hheld, hlist⟩ := parserParse_held hparse hcode
    obtain ⟨items, hitems⟩ := hasSoftware_iff.mp hs
    refine ⟨root, items, hroot, hitems, coherentList_of_holds hlist ?_⟩
    rwa [entriesOf, softwareField, field_of_find? hitems] at hheld
  · intro hL env url hd sw hsw allowInsecure result K hK
    obtain ⟨entries, hdoc, hlist⟩ := parserParse_exec hL hparse
    obtain ⟨r, K', hexec, hshows⟩ := updaterCheck_run hd hsw allowInsecure hdoc result hK
    refine ⟨_, r, K', hexec, ?_, ?_, ?_⟩
    · rw [hshows.status, ← answer_link_isSome_iff, ← hshows.link]
      simp [Ptr.val?]
    · rw [hshows.status, hshows.version, hshows.link]
      exact answer_item hlist (documentList_named hdoc) sw
    · rw [checkCode_eq hcode, hshows.status]

theorem updaterCheck_coherent_sample :
    ∃ list L', (parserParse (sampleDocument ++ [0])).exec .zero (.start fun _ => true) =
        (.ok .ok, list, L') ∧
      (∃ root items, Json.parse (sampleDocument ++ [0]) = .ok root ∧
        root.find? SOFTWARE = some (.array items) ∧ CoherentList list items) ∧
      ∃ ret r K', (updaterCheck sampleEnv [] (sampleInstalled #v[0, 0, 0, 0]) 0).exec .zero
          (.start fun _ => true) = (.ok ret, r, K') ∧
        (r.link.isSome = true ↔ r.status ≠ .unknown) := by
  obtain ⟨list, L', hparse, -⟩ :=
    parserParse_run documentList_sample (L := .start fun _ => true) fun _ => rfl
  obtain ⟨hlist, hcheck⟩ := updaterCheck_coherent sampleDocument hparse (Or.inl rfl)
  obtain ⟨ret, r, K', hexec, hlink, -⟩ := hcheck (fun _ => rfl) sampleEnv []
    (sampleEnv_delivers []) (sampleInstalled #v[0, 0, 0, 0]) (by decide +kernel) 0 .zero
    (.start fun _ => true) fun _ => rfl
  exact ⟨list, L', hparse, hlist, ret, r, K', hexec, hlink⟩

end UpdateCheck.Updater
