import UpdateCheck.Base.Fold
import UpdateCheck.Updater.Reorder

/-!
# The spelling of the list

The format says that all string operations are case insensitive, and it names the members that an
object has to have. A list may be spelled anew: its names and revisions in other letter case, and
any other members beside those named. Whatever becomes of the list, a check of a software that is
spelled anew itself ends as before (`updaterCheck_respelled`), also where the list is cut off at an
item or is no list at all.
-/

namespace UpdateCheck.Updater

open Comparator ListParser Fetcher

/-! ## Values -/

/-- The same value, or strings that agree up to letter case. -/
inductive Recased : Json → Json → Prop
  | refl (j : Json) : Recased j j
  | string {s t : List CChar} : SameFold s t → Recased (.string s) (.string t)

/-- The same value, or arrays whose elements are related. -/
inductive Elementwise (R : Json → Json → Prop) : Json → Json → Prop
  | refl (j : Json) : Elementwise R j j
  | array {xs ys : List Json} : List.Forall₂ R xs ys → Elementwise R (.array xs) (.array ys)

/-- A version with its revision in other letter case. -/
structure RespelledVersion (v v' : Json) : Prop where
  major : v.find? MAJOR = v'.find? MAJOR
  minor : v.find? MINOR = v'.find? MINOR
  revision : Option.Rel Recased (v.find? REVISION) (v'.find? REVISION)
  severity : v.find? SEVERITY = v'.find? SEVERITY

/-- An item with its name and its revisions in other letter case. -/
structure RespelledItem (item item' : Json) : Prop where
  name : Option.Rel Recased (item.find? NAME) (item'.find? NAME)
  link : item.find? LINK = item'.find? LINK
  versions : Option.Rel (Elementwise RespelledVersion) (item.find? VERSIONS) (item'.find? VERSIONS)

/-- A root with the items of its list spelled anew. -/
def Respelled (root root' : Json) : Prop :=
  Option.Rel (Elementwise RespelledItem) (root.find? SOFTWARE) (root'.find? SOFTWARE)

theorem RespelledVersion.refl (v : Json) : RespelledVersion v v := by
  refine ⟨rfl, rfl, ?_, rfl⟩
  cases v.find? REVISION with
  | none => exact .none
  | some j => exact .some (.refl j)

theorem RespelledItem.refl (item : Json) : RespelledItem item item := by
  refine ⟨?_, rfl, ?_⟩
  · cases item.find? NAME with
    | none => exact .none
    | some j => exact .some (.refl j)
  · cases item.find? VERSIONS with
    | none => exact .none
    | some j => exact .some (.refl j)

/-! ## Fields -/

/-- A test that related values pass alike. -/
theorem hasField_congr {R : Json → Json → Prop} {o o' : Json} {key : List CChar} {p : Json → Bool}
    (h : Option.Rel R (o.find? key) (o'.find? key)) (hp : ∀ j j', R j j' → p j = p j') :
    HasField o key p ↔ HasField o' key p := by
  unfold HasField
  generalize o.find? key = x, o'.find? key = x' at h ⊢
  cases h with
  | none => exact .rfl
  | @some j j' hj =>
    simp only [Option.some.injEq, exists_eq_left', hp j j' hj]

theorem hasField_of_find?_eq {o o' : Json} {key : List CChar} {p : Json → Bool}
    (h : o.find? key = o'.find? key) : HasField o key p ↔ HasField o' key p := by
  unfold HasField
  rw [h]

/-- The strings of a field agree up to letter case. -/
theorem sameFold_stringField {o o' : Json} {key : List CChar}
    (h : Option.Rel Recased (o.find? key) (o'.find? key)) :
    SameFold (stringField o key) (stringField o' key) := by
  unfold stringField field
  generalize o.find? key = x, o'.find? key = x' at h ⊢
  cases h with
  | none => rfl
  | some hj =>
    cases hj with
    | refl j => rfl
    | string hs => exact hs

/-- The elements of a field are related. -/
theorem forall₂_elements {R : Json → Json → Prop} (hR : ∀ j, R j j) {o o' : Json}
    {key : List CChar} (h : Option.Rel (Elementwise R) (o.find? key) (o'.find? key)) :
    List.Forall₂ R (field o key).elements (field o' key).elements := by
  unfold field
  generalize o.find? key = x, o'.find? key = x' at h ⊢
  cases h with
  | none => exact .nil
  | some hj =>
    cases hj with
    | refl j => exact List.forall₂_same.mpr fun x _ => hR x
    | array hall => exact hall

/-! ## Versions -/

theorem isRevisionTailValid_fold {s t : List CChar} (h : SameFold s t) :
    isRevisionTailValid s = isRevisionTailValid t := by
  rw [sameFold_iff] at h
  induction h with
  | nil => rfl
  | cons hcd _ ih =>
    rw [isRevisionTailValid, isRevisionTailValid, CChar.isalpha_eq hcd, CChar.isdigit_eq hcd, ih]
    simp only [CChar.eq_zero_iff hcd]

theorem isRevisionValid_fold {s t : List CChar} (h : SameFold s t) (n : Nat) :
    isRevisionValid s n = isRevisionValid t n := by
  have htake := sameFold_iff.mp (h.take n)
  unfold isRevisionValid
  generalize s.take n = buffer, t.take n = buffer' at htake ⊢
  cases htake with
  | nil => rfl
  | @cons c d rest rest' hcd hrest =>
    dsimp only
    rw [CChar.isalpha_eq hcd, isRevisionTailValid_fold (sameFold_iff.mpr hrest)]
    simp only [CChar.eq_zero_iff hcd]

theorem isJsonRevisionValid_fold {s t : List CChar} (h : SameFold s t) :
    isJsonRevisionValid s = isJsonRevisionValid t := by
  unfold isJsonRevisionValid
  rw [h.length_eq]
  exact isRevisionValid_fold h t.length

theorem RespelledVersion.valid_iff {v v' : Json} (h : RespelledVersion v v') :
    ValidVersion v ↔ ValidVersion v' := by
  have hrevision : HasField v REVISION (isStringWith isJsonRevisionValid) ↔
      HasField v' REVISION (isStringWith isJsonRevisionValid) := by
    refine hasField_congr h.revision fun j j' hj => ?_
    cases hj with
    | refl => rfl
    | string hs => exact isJsonRevisionValid_fold hs
  unfold ValidVersion
  rw [hasField_of_find?_eq h.major, hasField_of_find?_eq h.minor, hrevision,
    hasField_of_find?_eq h.severity]

/-- Two listed versions that no check tells apart. -/
structure Alike (lv lv' : ListVersion) : Prop where
  key : versionKey lv.version = versionKey lv'.version
  severity : lv.severity = lv'.severity

theorem revisionKey_eq {r r' : Vector CChar revisionSize} (h : SameFold r.toList r'.toList) :
    revisionKey r = revisionKey r' := map_ltrToLwr_inj.mpr h

theorem RespelledVersion.alike {v v' : Json} (h : RespelledVersion v v') :
    Alike (storedVersion v) (storedVersion v') := by
  have hint : ∀ {key : List CChar}, v.find? key = v'.find? key → intField v key = intField v' key :=
    fun hkey => by rw [intField, intField, field, field, hkey]
  have hrevision : revisionKey (strncpyBuf (stringField v REVISION) revisionSize) =
      revisionKey (strncpyBuf (stringField v' REVISION) revisionSize) :=
    revisionKey_eq ((sameFold_stringField h.revision).strncpy _)
  constructor
  · unfold versionKey storedVersion
    dsimp only
    rw [hint h.major, hint h.minor, hrevision]
  · unfold storedVersion
    dsimp only
    rw [hint h.severity]

/-! ## Items -/

/-- An entry with its name in other letter case and a history that no check tells apart. -/
structure RespelledEntry (e e' : Entry) : Prop where
  name : SameFold e.name.toList e'.name.toList
  link : e.link = e'.link
  history : List.Forall₂ Alike e.history e'.history

theorem RespelledItem.versionsField {item item' : Json} (h : RespelledItem item item') :
    List.Forall₂ RespelledVersion (versionsField item) (versionsField item') :=
  forall₂_elements .refl h.versions

theorem RespelledItem.valid_iff {item item' : Json} (h : RespelledItem item item') :
    ValidItem item ↔ ValidItem item' := by
  have hname : ∀ j j', Recased j j' →
      isStringWith (fun s => s.length ≤ nameSize && isSoftwareNameValid s.length) j =
        isStringWith (fun s => s.length ≤ nameSize && isSoftwareNameValid s.length) j' := by
    intro j j' hj
    cases hj with
    | refl => rfl
    | string hs =>
      simp only [isStringWith]
      rw [hs.length_eq]
  have hversions : ∀ j j', Elementwise RespelledVersion j j' →
      (j.isArray && decide (1 ≤ j.elements.length)) =
        (j'.isArray && decide (1 ≤ j'.elements.length)) := by
    intro j j' hj
    cases hj with
    | refl => rfl
    | @array xs ys hall =>
      have hlength : (Json.array xs).elements.length = (Json.array ys).elements.length :=
        hall.length_eq
      rw [hlength]
      rfl
  have hobject : ∀ o, CheckedItem o ↔
      HasField o NAME (isStringWith fun s => s.length ≤ nameSize && isSoftwareNameValid s.length) ∧
      HasField o LINK (isStringWith fun s => 1 ≤ s.length) ∧
      HasField o VERSIONS (fun vers => vers.isArray && 1 ≤ vers.elements.length) := fun o =>
    and_iff_right_of_imp fun h => isObject_of_hasField h.1
  unfold ValidItem
  rw [hobject, hobject, hasField_congr h.name hname, hasField_of_find?_eq h.link,
    hasField_congr h.versions hversions,
    forall₂_forall_iff h.versionsField fun _ _ hv => hv.valid_iff]

theorem RespelledItem.storedItem {item item' : Json} (h : RespelledItem item item') :
    RespelledEntry (storedItem item) (storedItem item') := by
  constructor
  · unfold ListParser.storedItem
    rw [toList_strncpyBuf, toList_strncpyBuf]
    exact (sameFold_stringField h.name).strncpy nameSize
  · have hlink : stringField item LINK = stringField item' LINK := by
      rw [stringField, stringField, field, field, h.link]
    unfold ListParser.storedItem
    rw [hlink]
  · unfold ListParser.storedItem
    rw [List.forall₂_map_left_iff, List.forall₂_map_right_iff]
    exact h.versionsField.imp fun _ _ hv => hv.alike

/-! ## Lists -/

theorem Respelled.softwareField {root root' : Json} (h : Respelled root root') :
    List.Forall₂ RespelledItem (softwareField root) (softwareField root') :=
  forall₂_elements .refl h

/-- The list is cut off at the same item. -/
theorem Respelled.entriesOf {root root' : Json} (h : Respelled root root') :
    List.Forall₂ RespelledEntry (entriesOf root) (entriesOf root') := by
  unfold ListParser.entriesOf validPrefix
  rw [List.forall₂_map_left_iff, List.forall₂_map_right_iff]
  refine (forall₂_takeWhile h.softwareField fun item item' hitem => ?_).imp
    fun _ _ hitem => hitem.storedItem
  exact decide_eq_decide.mpr hitem.valid_iff

theorem Respelled.codeOf {root root' : Json} (h : Respelled root root') :
    codeOf root = codeOf root' := by
  have hsoftware : HasSoftware root ↔ HasSoftware root' := by
    refine hasField_congr h fun j j' hj => ?_
    cases hj with
    | refl => rfl
    | array => rfl
  have hwalk : walkCode (ListParser.softwareField root) =
      walkCode (ListParser.softwareField root') := by
    unfold walkCode
    simp only [forall₂_forall_iff h.softwareField fun _ _ hitem => hitem.valid_iff]
  unfold ListParser.codeOf
  simp only [hsoftware, hwalk]

/-! ## Histories -/

section Histories

variable {checked checked' : EupdVersion} {history history' : List ListVersion}

theorem newerVersions_alike (hkey : versionKey checked = versionKey checked')
    (h : List.Forall₂ Alike history history') :
    List.Forall₂ Alike (newerVersions checked history) (newerVersions checked' history') := by
  refine List.rel_filter (fun lv lv' hlv => ?_) h
  simp only [decide_eq_true_iff]
  rw [hkey, hlv.key]

theorem statusFor_alike (hkey : versionKey checked = versionKey checked')
    (h : List.Forall₂ Alike history history') :
    statusFor checked history = statusFor checked' history' := by
  have hnewer := newerVersions_alike hkey h
  have htop : topSeverity (newerVersions checked history) =
      topSeverity (newerVersions checked' history') := by
    refine @key_runMax_congr _ _ _ id _ _ _ _ rfl ?_
    rw [List.forall₂_map_left_iff, List.forall₂_map_right_iff]
    exact hnewer.imp fun _ _ hlv => hlv.severity
  have hnil : newerVersions checked history = [] ↔ newerVersions checked' history' = [] := by
    rw [← List.length_eq_zero_iff, hnewer.length_eq, List.length_eq_zero_iff]
  unfold statusFor
  simp only [hnil, htop]

theorem versionKey_latestVersion_alike (hkey : versionKey checked = versionKey checked')
    (h : List.Forall₂ Alike history history') :
    versionKey (latestVersion checked history) = versionKey (latestVersion checked' history') := by
  refine key_runMax_congr hkey ?_
  rw [List.forall₂_map_left_iff, List.forall₂_map_right_iff]
  exact h.imp fun _ _ hlv => hlv.key

end Histories

/-! ## Checks -/

/-- An installed software with its name and its revision in other letter case. -/
structure RecasedInput (sw sw' : EupdInSoftware) : Prop where
  name : SameFold sw.name.toList sw'.name.toList
  major : sw.version.major = sw'.version.major
  minor : sw.version.minor = sw'.version.minor
  revision : SameFold sw.version.revision.toList sw'.version.revision.toList

variable {sw sw' : EupdInSoftware}

theorem RecasedInput.checkInput (h : RecasedInput sw sw') : checkInput sw = checkInput sw' := by
  unfold UpdateCheck.checkInput
  rw [getSoftwareNameLength_eq, getSoftwareNameLength_eq, h.name.content.length_eq,
    isRevisionValid_fold h.revision]

theorem RecasedInput.versionKey (h : RecasedInput sw sw') :
    versionKey sw.version = versionKey sw'.version := by
  unfold Comparator.versionKey
  rw [h.major, h.minor, revisionKey_eq h.revision]

theorem answer_respelled {entries entries' : List Entry}
    (h : List.Forall₂ RespelledEntry entries entries') (hsw : RecasedInput sw sw') :
    SameAnswer (answer entries sw) (answer entries' sw') := by
  have hname : ∀ e e', RespelledEntry e e' →
      decide (SameName e.name sw.name) = decide (SameName e'.name sw'.name) := by
    intro e e' he
    refine decide_eq_decide.mpr ⟨fun hs => ?_, fun hs => ?_⟩
    · exact he.name.content.symm.trans (SameFold.trans hs hsw.name.content)
    · exact he.name.content.trans (SameFold.trans hs hsw.name.content.symm)
  rcases forall₂_find? h hname with ⟨he, he'⟩ | ⟨e, e', he, he', hentry⟩
  · rw [answer_of_none he, answer_of_none he']
    exact ⟨rfl, compareVersion_same.mpr rfl, rfl⟩
  · rw [answer_of_some he, answer_of_some he']
    refine ⟨statusFor_alike hsw.versionKey hentry.history, compareVersion_same.mpr ?_, ?_⟩
    · exact versionKey_latestVersion_alike hsw.versionKey hentry.history
    · rw [hentry.link]

/-- **The spelling of the list does not matter.** From two documents of which one spells the other's
list anew, a check of a software and one of the software with its name and revision in other letter
case return the same code, the same status, the same link and versions that compare as the same. -/
theorem updaterCheck_respelled (env env' : Env) {url url' doc doc' : List CChar}
    (hd : Delivers env.curl url doc) (hd' : Delivers env'.curl url' doc') {root root' : Json}
    (hroot : Json.parse (doc ++ [0]) = .ok root) (hroot' : Json.parse (doc' ++ [0]) = .ok root')
    (h : Respelled root root') (hsw : RecasedInput sw sw') (allowInsecure allowInsecure' : Int32)
    (result : EupdResult) {L L' : Ledger} (hL : L.AllGranted) (hL' : L'.AllGranted) :
    ∃ ret r r' K K',
      (updaterCheck env url sw allowInsecure).exec result L = (.ok ret, r, K) ∧
      (updaterCheck env' url' sw' allowInsecure').exec result L' = (.ok ret, r', K') ∧
      r.status = r'.status ∧ r.link.val? = r'.link.val? ∧
      compareVersion r.version r'.version = .same := by
  cases hinput : checkInput sw with
  | false =>
    have hinput' : checkInput sw' = false := hsw.checkInput ▸ hinput
    exact ⟨_, _, _, _, _, updaterCheck_rejects env url hinput allowInsecure result L,
      updaterCheck_rejects env' url' hinput' allowInsecure' result L', rfl, rfl,
      compareVersion_same.mpr rfl⟩
  | true =>
    have hinput' : checkInput sw' = true := hsw.checkInput ▸ hinput
    have hdoc := documentList_of_ok hroot
    have hdoc' := documentList_of_ok hroot'
    obtain ⟨r, K, hexec, hshows⟩ := updaterCheck_run hd hinput allowInsecure hdoc result hL
    obtain ⟨r', K', hexec', hshows'⟩ :=
      updaterCheck_run hd' hinput' allowInsecure' hdoc' result hL'
    have hanswer := answer_respelled h.entriesOf hsw
    have hcode : checkCode (ListParser.codeOf root') (answer (ListParser.entriesOf root') sw') =
        checkCode (ListParser.codeOf root) (answer (ListParser.entriesOf root) sw) := by
      rw [checkCode, checkCode, itemCode, itemCode, hanswer.status, h.codeOf]
    rw [hcode] at hexec'
    refine ⟨_, r, r', K, K', hexec, hexec', ?_, ?_, ?_⟩
    · rw [hshows.status, hshows'.status, hanswer.status]
    · rw [hshows.link, hshows'.link, hanswer.link]
    · rw [hshows.version, hshows'.version]
      exact hanswer.version

/-! ## Two spellings of one list -/

/-- A list of one software in version 1.0 with a revision, and other members behind its own. -/
def spelledText (name revision more : String) : List CChar :=
  ascii "\x7b\"software\":[\x7b\"name\":\"" ++ ascii name ++
    ascii "\",\"link\":\"l\",\"versions\":[\x7b\"major\":1,\"minor\":0,\"revision\":\"" ++
    ascii revision ++ ascii "\",\"severity\":2\x7d]" ++ ascii more ++ ascii "\x7d]\x7d"

/-- The value of such a list. -/
def spelledValue (name revision : String) (more : List (List CChar × Json)) : Json :=
  .object [(SOFTWARE, .array [.object ([(NAME, .string (ascii name)), (LINK, .string (ascii "l")),
    (VERSIONS, .array [.object [(MAJOR, .numberUnsigned 1), (MINOR, .numberUnsigned 0),
      (REVISION, .string (ascii revision)), (SEVERITY, .numberUnsigned 2)]])] ++ more)])]

def plainText : List CChar := spelledText "ed" "b" ""

def respelledText : List CChar := spelledText "Ed" "B" ",\"id\":1"

set_option maxRecDepth 20000 in
theorem parse_plainText : Json.parse (plainText ++ [0]) = .ok (spelledValue "ed" "b" []) := by
  rfl

set_option maxRecDepth 20000 in
theorem parse_respelledText : Json.parse (respelledText ++ [0]) =
    .ok (spelledValue "Ed" "B" [(ascii "id", .numberUnsigned 1)]) := by
  rfl

theorem respelled_spelledValue : Respelled (spelledValue "ed" "b" [])
    (spelledValue "Ed" "B" [(ascii "id", .numberUnsigned 1)]) := by
  have hversion : RespelledVersion
      (.object [(MAJOR, .numberUnsigned 1), (MINOR, .numberUnsigned 0),
        (REVISION, .string (ascii "b")), (SEVERITY, .numberUnsigned 2)])
      (.object [(MAJOR, .numberUnsigned 1), (MINOR, .numberUnsigned 0),
        (REVISION, .string (ascii "B")), (SEVERITY, .numberUnsigned 2)]) :=
    ⟨rfl, rfl, .some (.string (by decide)), rfl⟩
  refine .some (.array (.cons ⟨.some (.string (by decide)), rfl, ?_⟩ .nil))
  exact .some (.array (.cons hversion .nil))

/-- The installed software is that of the list, in an earlier revision. -/
theorem updaterCheck_respelled_sample :
    ∃ ret r r' K K',
      (updaterCheck ⟨serving .https [] plainText, [0]⟩ []
        ⟨strncpyBuf (ascii "eD") nameSize, ⟨1, 0, #v[97, 0, 0, 0]⟩⟩ 0).exec
        .zero (.start fun _ => true) = (.ok ret, r, K) ∧
      (updaterCheck ⟨serving .https [] respelledText, [0]⟩ []
        ⟨strncpyBuf (ascii "ED") nameSize, ⟨1, 0, #v[65, 0, 0, 0]⟩⟩ 0).exec .zero
        (.start fun _ => true) = (.ok ret, r', K') ∧
      r.status = r'.status ∧ r.link.val? = r'.link.val? ∧
      compareVersion r.version r'.version = .same := by
  have hsw : RecasedInput ⟨strncpyBuf (ascii "eD") nameSize, ⟨1, 0, #v[97, 0, 0, 0]⟩⟩
      ⟨strncpyBuf (ascii "ED") nameSize, ⟨1, 0, #v[65, 0, 0, 0]⟩⟩ :=
    ⟨by decide, rfl, rfl, by decide⟩
  have hd := @serving_delivers .https [] plainText (by decide +kernel) []
  have hd' := @serving_delivers .https [] respelledText (by decide +kernel) []
  exact updaterCheck_respelled ⟨serving .https [] plainText, [0]⟩
    ⟨serving .https [] respelledText, [0]⟩ hd hd' parse_plainText parse_respelledText
    respelled_spelledValue hsw 0 0 .zero (fun _ => rfl) fun _ => rfl

end UpdateCheck.Updater
