import UpdateCheck.Comparator.Convergence
import UpdateCheck.Updater.Answer

/-!
# The order of the list

A publisher may order the items of a list, and the versions of each item, as he likes: where the
names are different the first match is the only one, and the two maxima over its versions do not
look at their order (`updaterCheck_reordered`). Versions that differ only in the case of a letter
compare as the same; which of them is reported does depend on the order.
-/

namespace UpdateCheck.Updater

open Comparator ListParser Fetcher

/-! ## Reordered items -/

/-- The item with its versions in another order. -/
def ReorderedItem (item item' : Json) : Prop :=
  (∀ key, key ≠ VERSIONS → item.find? key = item'.find? key) ∧
    ∃ vers vers', item.find? VERSIONS = some (.array vers) ∧
      item'.find? VERSIONS = some (.array vers') ∧ vers.Perm vers'

/-- The items in another order, and each with its versions in another order. -/
def Reordered (items items' : List Json) : Prop :=
  ∃ middle, items.Perm middle ∧ List.Forall₂ ReorderedItem middle items'

/-- The entry with its history in another order. -/
structure ReorderedEntry (e e' : Entry) : Prop where
  name : e.name = e'.name
  link : e.link = e'.link
  history : e.history.Perm e'.history

theorem versionsField_of_find? {item : Json} {vers : List Json}
    (h : item.find? VERSIONS = some (.array vers)) : versionsField item = vers := by
  rw [versionsField, field_of_find? h]
  rfl

theorem ReorderedItem.hasField {item item' : Json} (h : ReorderedItem item item')
    {key : List CChar} (hkey : key ≠ VERSIONS) {p : Json → Bool} (hp : HasField item key p) :
    HasField item' key p := by
  unfold HasField at hp ⊢
  rwa [← h.1 key hkey]

theorem ReorderedItem.validItem {item item' : Json} (h : ReorderedItem item item')
    (hvalid : ValidItem item) : ValidItem item' := by
  obtain ⟨⟨-, hname, hlink, hvers⟩, hall⟩ := hvalid
  obtain ⟨vers, vers', hv, hv', hperm⟩ := h.2
  rw [versionsField_of_find? hv] at hall
  obtain ⟨j, hj, hlen⟩ := hvers
  cases hv.symm.trans hj
  have hvers' : HasField item' VERSIONS fun vers => vers.isArray && 1 ≤ vers.elements.length := by
    refine ⟨_, hv', ?_⟩
    rw [Bool.and_eq_true, decide_eq_true_iff] at hlen ⊢
    exact ⟨rfl, hlen.2.trans_eq hperm.length_eq⟩
  refine ⟨⟨isObject_of_hasField hvers', h.hasField (by decide) hname,
    h.hasField (by decide) hlink, hvers'⟩, ?_⟩
  rw [versionsField_of_find? hv']
  exact fun v hv => hall v (hperm.mem_iff.mpr hv)

theorem ReorderedItem.storedItem {item item' : Json} (h : ReorderedItem item item') :
    ReorderedEntry (storedItem item) (storedItem item') := by
  have hstring : ∀ key, key ≠ VERSIONS → stringField item key = stringField item' key :=
    fun key hkey => by rw [stringField, stringField, field, field, h.1 key hkey]
  obtain ⟨-, vers, vers', hv, hv', hperm⟩ := h
  constructor
  · rw [ListParser.storedItem, ListParser.storedItem, hstring NAME (by decide)]
  · rw [ListParser.storedItem, ListParser.storedItem, hstring LINK (by decide)]
  · rw [ListParser.storedItem, ListParser.storedItem, versionsField_of_find? hv,
      versionsField_of_find? hv']
    exact hperm.map _

theorem Reordered.validItem {items items' : List Json} (h : Reordered items items')
    (hvalid : ∀ item ∈ items, ValidItem item) : ∀ item ∈ items', ValidItem item := by
  obtain ⟨middle, hperm, hforall⟩ := h
  have hmiddle : ∀ item ∈ middle, ValidItem item := fun item hitem =>
    hvalid item (hperm.mem_iff.mpr hitem)
  have hboth : List.Forall₂ (fun item' item => ValidItem item' ∧ ReorderedItem item item')
      items' middle :=
    (((List.forall₂_and_left _ _).mpr ⟨hmiddle, hforall⟩).imp fun item item' h =>
      (⟨h.2.validItem h.1, h.2⟩ : ValidItem item' ∧ ReorderedItem item item')).flip
  exact ((List.forall₂_and_left _ _).mp hboth).1

/-! ## Reordered lists -/

/-- Two answers that a user cannot tell apart but for the case of a revision letter. -/
structure SameAnswer (a a' : Answer) : Prop where
  status : a.status = a'.status
  version : compareVersion a.version a'.version = .same
  link : a.link = a'.link

/-- With different names the answer does not depend on the order of the entries. -/
theorem answer_reordered {entries middle entries' : List Entry}
    (hnames : entries.Pairwise fun a b => ¬ SameName a.name b.name) (hperm : entries.Perm middle)
    (hreordered : List.Forall₂ ReorderedEntry middle entries') (sw : EupdInSoftware) :
    SameAnswer (answer entries sw) (answer entries' sw) := by
  have hsame : entryFor entries sw.name = entryFor middle sw.name := by
    refine find?_perm hperm (hnames.imp fun hab h => hab ?_)
    simp only [decide_eq_true_iff] at h
    exact SameFold.trans h.1 (SameFold.symm h.2)
  have hsearch : (entryFor middle sw.name = none ∧ entryFor entries' sw.name = none) ∨
      ∃ e e', entryFor middle sw.name = some e ∧ entryFor entries' sw.name = some e' ∧
        ReorderedEntry e e' :=
    forall₂_find? hreordered fun e e' h => by rw [h.name]
  rcases hsearch with ⟨h, h'⟩ | ⟨e, e', h, h', hname, hlink, hhistory⟩
  · rw [answer_of_none (hsame.trans h), answer_of_none h']
    exact ⟨rfl, compareVersion_same.mpr rfl, rfl⟩
  · rw [answer_of_some (hsame.trans h), answer_of_some h']
    refine ⟨statusFor_congr _ fun lv => hhistory.mem_iff, compareVersion_same.mpr ?_, ?_⟩
    · exact versionKey_latestVersion_congr _ fun lv => hhistory.mem_iff
    · rw [hlink]

/-- **The order of the list does not matter.** From a document of valid items with different names
and a document with its items, and the versions of each, in another order, every check returns
the same code, the same status, the same link and versions that compare as the same. -/
theorem updaterCheck_reordered (env env' : Env) {url url' doc doc' : List CChar}
    (hd : Delivers env.curl url doc) (hd' : Delivers env'.curl url' doc') {root root' : Json}
    {items items' : List Json} (hroot : Json.parse (doc ++ [0]) = .ok root)
    (hroot' : Json.parse (doc' ++ [0]) = .ok root')
    (hitems : root.find? SOFTWARE = some (.array items))
    (hitems' : root'.find? SOFTWARE = some (.array items'))
    (hvalid : ∀ item ∈ items, ValidItem item)
    (hnames : items.Pairwise fun a b => ¬ SameName (storedItem a).name (storedItem b).name)
    (hreordered : Reordered items items') (sw : EupdInSoftware)
    (allowInsecure allowInsecure' : Int32) (result : EupdResult) {L L' : Ledger}
    (hL : L.AllGranted) (hL' : L'.AllGranted) :
    ∃ ret r r' K K',
      (updaterCheck env url sw allowInsecure).exec result L = (.ok ret, r, K) ∧
      (updaterCheck env' url' sw allowInsecure').exec result L' = (.ok ret, r', K') ∧
      r.status = r'.status ∧ r.link.val? = r'.link.val? ∧
      compareVersion r.version r'.version = .same := by
  have hvalid' := hreordered.validItem hvalid
  obtain ⟨middle, hperm, hforall⟩ := hreordered
  cases hsw : checkInput sw with
  | false =>
    exact ⟨_, _, _, _, _, updaterCheck_rejects env url hsw allowInsecure result L,
      updaterCheck_rejects env' url' hsw allowInsecure' result L', rfl, rfl,
      compareVersion_same.mpr rfl⟩
  | true =>
    have hdoc := documentList_of_valid hroot hitems hvalid
    have hdoc' := documentList_of_valid hroot' hitems' hvalid'
    obtain ⟨r, K, hexec, hshows⟩ := updaterCheck_run hd hsw allowInsecure hdoc result hL
    obtain ⟨r', K', hexec', hshows'⟩ := updaterCheck_run hd' hsw allowInsecure' hdoc' result hL'
    have hanswer : SameAnswer (answer (items.map storedItem) sw)
        (answer (items'.map storedItem) sw) := by
      refine answer_reordered ?_ (hperm.map storedItem) ?_ sw
      · rwa [List.pairwise_map]
      · rw [List.forall₂_map_left_iff, List.forall₂_map_right_iff]
        exact hforall.imp fun item item' h => h.storedItem
    have hcode : checkCode .ok (answer (items'.map storedItem) sw) =
        checkCode .ok (answer (items.map storedItem) sw) := by
      rw [checkCode, checkCode, itemCode, itemCode, hanswer.status]
    rw [hcode] at hexec'
    refine ⟨_, r, r', K, K', hexec, hexec', ?_, ?_, ?_⟩
    · rw [hshows.status, hshows'.status, hanswer.status]
    · rw [hshows.link, hshows'.link, hanswer.link]
    · rw [hshows.version, hshows'.version, hanswer.version]

/-! ## Two orders of one list -/

/-- A version 1.0 or 1.1 as it is written in a list, and its value. -/
def versionText (minor : String) : List CChar :=
  ascii "\x7b\"major\":1,\"minor\":" ++ ascii minor ++ ascii ",\"revision\":\"\",\"severity\":0\x7d"

def versionObject (minor : UInt64) : Json :=
  .object [(MAJOR, .numberUnsigned 1), (MINOR, .numberUnsigned minor), (REVISION, .string []),
    (SEVERITY, .numberUnsigned 0)]

/-- An item with the given name and versions, and its value. -/
def itemText (name : String) (versions : List CChar) : List CChar :=
  ascii "\x7b\"name\":\"" ++ ascii name ++ ascii "\",\"link\":\"l\",\"versions\":[" ++ versions ++
    ascii "]\x7d"

def itemObject (name : String) (versions : List Json) : Json :=
  .object [(NAME, .string (ascii name)), (LINK, .string (ascii "l")), (VERSIONS, .array versions)]

def listText (items : List CChar) : List CChar := ascii "\x7b\"software\":[" ++ items ++ ascii "]\x7d"

def listObject (items : List Json) : Json := .object [(SOFTWARE, .array items)]

/-- Two documents with the same items in two orders. -/
def orderedText : List CChar :=
  listText (itemText "ed" (versionText "0" ++ ascii "," ++ versionText "1") ++ ascii "," ++
    itemText "vi" (versionText "0"))

def reorderedText : List CChar :=
  listText (itemText "vi" (versionText "0") ++ ascii "," ++
    itemText "ed" (versionText "1" ++ ascii "," ++ versionText "0"))

set_option maxRecDepth 20000 in
theorem parse_orderedText : Json.parse (orderedText ++ [0]) =
    .ok (listObject [itemObject "ed" [versionObject 0, versionObject 1],
      itemObject "vi" [versionObject 0]]) := by
  rfl

set_option maxRecDepth 20000 in
theorem parse_reorderedText : Json.parse (reorderedText ++ [0]) =
    .ok (listObject [itemObject "vi" [versionObject 0],
      itemObject "ed" [versionObject 1, versionObject 0]]) := by
  rfl

theorem reorderedItem_itemObject (name : String) {vers vers' : List Json} (h : vers.Perm vers') :
    ReorderedItem (itemObject name vers) (itemObject name vers') := by
  refine ⟨fun key hkey => ?_, vers, vers', rfl, rfl, h⟩
  simp only [itemObject, Json.find?, Json.lookup_cons_eq, if_neg hkey]

theorem updaterCheck_reordered_sample :
    ∃ ret r r' K K',
      (updaterCheck ⟨serving .https [] orderedText, [0]⟩ []
        (sampleInstalled #v[0, 0, 0, 0]) 0).exec .zero (.start fun _ => true) = (.ok ret, r, K) ∧
      (updaterCheck ⟨serving .https [] reorderedText, [0]⟩ []
        (sampleInstalled #v[0, 0, 0, 0]) 0).exec .zero (.start fun _ => true) =
          (.ok ret, r', K') ∧
      r.status = r'.status ∧ r.link.val? = r'.link.val? ∧
      compareVersion r.version r'.version = .same :=
  updaterCheck_reordered ⟨serving .https [] orderedText, [0]⟩
    ⟨serving .https [] reorderedText, [0]⟩
    (serving_delivers _ _ (by decide +kernel) []) (serving_delivers _ _ (by decide +kernel) [])
    parse_orderedText parse_reorderedText rfl rfl (by decide +kernel) (by decide +kernel)
    ⟨_, .swap _ _ _, .cons (reorderedItem_itemObject "vi" (.refl _))
      (.cons (reorderedItem_itemObject "ed" (.swap _ _ _)) .nil)⟩
    _ 0 0 .zero (fun _ => rfl) fun _ => rfl

end UpdateCheck.Updater
