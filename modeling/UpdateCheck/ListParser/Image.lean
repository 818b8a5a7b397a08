import UpdateCheck.Json.Image
import UpdateCheck.ListParser.Numbers
import UpdateCheck.ListParser.Strings
import UpdateCheck.ListParser.Walk

/-!
# The lists of documents

Which lists a document may be held as, and that each of them can be published. What is held for a
software is a name and a link in UTF-8, each padded with NULs, and a history that is not empty, with
revisions of the documented form and severities that have a name (`Entry.Publishable`). Whatever has
this form is what some complete document is held as: `documentList_image_iff`.
-/

namespace UpdateCheck.ListParser

open Json

/-- What can be published for a software. -/
structure Entry.Publishable (e : Entry) : Prop where
  name : Utf8 (content e.name.toList)
  padded : e.name.toList = strncpy (content e.name.toList) nameSize
  link : Utf8 (content e.link)
  terminated : ∃ k, e.link = content e.link ++ List.replicate (k + 1) 0
  linked : 2 ≤ e.link.length
  history : e.history ≠ []
  revisions : ∀ lv ∈ e.history, PaddedRevision lv.version.revision
  severities : ∀ lv ∈ e.history, lv.severity.Named

/-! ## Held entries can be published -/

theorem Printable.find? {o j : Json} {key : List CChar} (ho : Printable o)
    (h : o.find? key = some j) : Printable j := by
  cases ho with
  | object _ _ hvalues =>
    obtain ⟨l, r, rfl, -⟩ := List.lookup_eq_some_iff.mp h
    exact hvalues (key, j) (by simp)
  | _ => cases h

theorem Printable.stringField {o : Json} {key s : List CChar} (ho : Printable o)
    (h : o.find? key = some (.string s)) : Utf8 s := by
  cases Printable.find? ho h with
  | string hs => exact hs

theorem Printable.elements {j : Json} (hj : Printable j) : ∀ v ∈ j.elements, Printable v := by
  cases hj with
  | array helems => exact helems
  | _ => exact fun _ hv => nomatch hv

theorem printable_field {o : Json} (ho : Printable o) (key : List CChar) :
    Printable (field o key) := by
  unfold field
  cases h : o.find? key with
  | none => exact .null
  | some j => exact Printable.find? ho h

theorem content_strncpy_of_fits {s : List CChar} {n : Nat} (h : (content s).length ≤ n) :
    content (strncpy s n) = content s := by
  rw [content_strncpy, List.take_of_length_le h]

theorem strncpy_content (s : List CChar) (n : Nat) : strncpy (content s) n = strncpy s n := by
  rw [strncpy_eq, strncpy_eq, content_eq_self (zero_notMem_content s)]

/-- A link is stored with a terminator. -/
theorem strncpy_terminated (s : List CChar) :
    strncpy s (s.length + 1) =
      content s ++ List.replicate (s.length - (content s).length + 1) 0 := by
  have hle := length_content_le s
  rw [strncpy_eq, List.take_of_length_le (by omega), Nat.sub_add_comm hle]

theorem publishable_storedItem {item : Json} (hitem : Printable item) (hvalid : ValidItem item) :
    (storedItem item).Publishable := by
  obtain ⟨⟨-, hname, hlink, hvers⟩, hversions⟩ := hvalid
  obtain ⟨name, hname, hnameLen⟩ := hasField_string_iff.mp hname
  obtain ⟨link, hlink, hlinkLen⟩ := hasField_string_iff.mp hlink
  rw [Bool.and_eq_true, decide_eq_true_eq] at hnameLen
  rw [decide_eq_true_eq] at hlinkLen
  have hnameFits : (content name).length ≤ nameSize := (length_content_le name).trans hnameLen.1
  have hlinkFits : (content link).length ≤ link.length + 1 :=
    (length_content_le link).trans (Nat.le_succ _)
  have hnameEq : (storedItem item).name.toList = strncpy name nameSize := by
    rw [storedItem, stringField_of_find? hname, toList_strncpyBuf]
  have hlinkEq : (storedItem item).link = strncpy link (link.length + 1) := by
    rw [storedItem, stringField_of_find? hlink]
  constructor
  · rw [hnameEq, content_strncpy_of_fits hnameFits]
    exact (Printable.stringField hitem hname).content
  · rw [hnameEq, content_strncpy_of_fits hnameFits, strncpy_content]
  · rw [hlinkEq, content_strncpy_of_fits hlinkFits]
    exact (Printable.stringField hitem hlink).content
  · rw [hlinkEq, content_strncpy_of_fits hlinkFits]
    exact ⟨_, strncpy_terminated link⟩
  · rw [hlinkEq, length_strncpy]
    omega
  · obtain ⟨j, hj, hlen⟩ := hvers
    rw [Bool.and_eq_true, decide_eq_true_eq] at hlen
    rw [storedItem, versionsField, field_of_find? hj]
    exact mt List.map_eq_nil_iff.mp (List.length_pos_iff.mp hlen.2)
  · intro lv hlv
    obtain ⟨v, hv, rfl⟩ := List.mem_map.mp hlv
    exact storedVersion_padded (hversions v hv)
  · intro lv hlv
    obtain ⟨v, hv, rfl⟩ := List.mem_map.mp hlv
    exact storedVersion_named (hversions v hv)

theorem publishable_entriesOf {root : Json} (hroot : Printable root) :
    ∀ e ∈ entriesOf root, e.Publishable := by
  intro e he
  obtain ⟨item, hitem, rfl⟩ := List.mem_map.mp he
  have hvalid := List.mem_takeWhile_imp hitem
  have hmem : item ∈ softwareField root := (List.takeWhile_sublist _).mem hitem
  have hprintable := printable_field hroot SOFTWARE
  exact publishable_storedItem (Printable.elements hprintable item hmem) (by simpa using hvalid)

/-- What a document is held as can be published. -/
theorem publishable_of_documentList {listString : List CChar} {code : EupdRetCode}
    {entries : List Entry} (h : documentList listString = .ok (code, entries)) :
    ∀ e ∈ entries, e.Publishable := by
  intro e he
  unfold documentList at h
  split at h
  · rename_i root hroot
    cases h
    exact publishable_entriesOf (printable_of_parse hroot) e he
  · cases h
    cases he
  · cases h

/-! ## What can be published is held -/

/-- A JSON number of an `int`. -/
def intValue (i : Int32) : Json :=
  if 0 ≤ i.toInt then .numberUnsigned (UInt64.ofNat i.toInt.toNat) else .numberInteger i.toInt64

/-- The object that is published for a version. -/
def versionValue (lv : ListVersion) : Json :=
  .object [(MAJOR, intValue lv.version.major), (MINOR, intValue lv.version.minor),
    (REVISION, .string (content lv.version.revision.toList)),
    (SEVERITY, .numberUnsigned (UInt64.ofNat lv.severity))]

/-- The name that is published: one that is stored as empty is a NUL. -/
def nameValue (e : Entry) : List CChar :=
  if content e.name.toList = [] then [0] else content e.name.toList

/-- The object that is published for a software. -/
def itemValue (e : Entry) : Json :=
  .object [(NAME, .string (nameValue e)), (LINK, .string e.link.dropLast),
    (VERSIONS, .array (e.history.map versionValue))]

/-- The document of a list. -/
def listValue (entries : List Entry) : Json := .object [(SOFTWARE, .array (entries.map itemValue))]

/-- An object under keys of the format. -/
theorem printable_object {fields : List (List CChar × Json)} {keys : List (List CChar)}
    (hkeys : fields.map Prod.fst = keys) (hnodup : keys.Nodup)
    (hascii : (keys.all fun k => k.all fun c => c.toNat < 0x80) = true)
    (hvalues : ∀ p ∈ fields, Printable p.2) : Printable (.object fields) := by
  subst hkeys
  refine .object hnodup (fun p hp => utf8_of_ascii fun c hc => ?_) hvalues
  have hkey := List.all_eq_true.mp hascii p.1 (List.mem_map_of_mem hp)
  exact of_decide_eq_true (List.all_eq_true.mp hkey c hc)

theorem getInt_intValue (i : Int32) : (intValue i).getInt = .ok i := by
  unfold intValue
  split_ifs with h
  · have hlt := i.toInt_lt
    have hnat : (UInt64.ofNat i.toInt.toNat).toNat = i.toInt.toNat := by
      rw [UInt64.toNat_ofNat']
      omega
    have hint := @toInt_toInt32_of_lt (UInt64.ofNat i.toInt.toNat) (by omega)
    have hi : (UInt64.ofNat i.toInt.toNat).toUInt32.toInt32 = i := by
      apply Int32.toInt_inj.mp
      rw [hint, hnat]
      omega
    rw [Json.getInt, hi]
  · rw [Json.getInt, Int32.toInt32_toInt64]

theorem isNumber_intValue (i : Int32) : (intValue i).isNumber = true := by
  unfold intValue
  split_ifs <;> rfl

theorem printable_intValue (i : Int32) : Printable (intValue i) := by
  unfold intValue
  split_ifs with h
  · exact .numberUnsigned _
  · refine .numberInteger ?_
    rw [Int32.toInt_toInt64]
    omega

theorem isJsonRevisionValid_of_form {s : List CChar} (h : RevisionForm s)
    (hlen : s.length ≤ revisionSize) : isJsonRevisionValid s = true := by
  apply isRevisionValid_iff.mpr
  refine Or.inr ⟨hlen, fun c rest hcons => ?_⟩
  rw [List.take_length] at hcons
  subst hcons
  have hzero : 0 ∉ rest := fun hmem => h.zero_notMem (.tail _ hmem)
  rw [content_eq_self hzero]
  exact ⟨Or.inl h.1, h.2⟩

theorem PaddedRevision.exists_form {r : Vector CChar revisionSize} (h : PaddedRevision r) :
    ∃ s, content r.toList = s ∧ RevisionForm s ∧ s.length ≤ revisionSize ∧
      r.toList = s ++ List.replicate (revisionSize - s.length) 0 := by
  obtain ⟨s, hform, hlen, hr⟩ := h
  refine ⟨s, ?_, hform, hlen, hr⟩
  rw [hr, content_append_replicate, content_eq_self hform.zero_notMem]

theorem PaddedRevision.ascii {r : Vector CChar revisionSize} (h : PaddedRevision r) :
    ∀ c ∈ content r.toList, c.toNat < 0x80 := by
  obtain ⟨s, hs, hform, -⟩ := h.exists_form
  rw [hs]
  exact fun c hc => (hform.isAlnum c hc).lt

/-- A revision that was stored is a string of the documented form in its buffer. -/
theorem PaddedRevision.stored {r : Vector CChar revisionSize} (h : PaddedRevision r) :
    isJsonRevisionValid (content r.toList) = true ∧
      strncpyBuf (content r.toList) revisionSize = r := by
  obtain ⟨s, hs, hform, hlen, hr⟩ := h.exists_form
  rw [hs]
  refine ⟨isJsonRevisionValid_of_form hform hlen, Vector.toList_inj.mp ?_⟩
  rw [toList_strncpyBuf, strncpy_eq, content_eq_self hform.zero_notMem,
    List.take_of_length_le hlen, hr]

theorem validVersion_versionValue {lv : ListVersion} (hrev : PaddedRevision lv.version.revision)
    (hsev : lv.severity.Named) : ValidVersion (versionValue lv) := by
  refine ⟨⟨_, rfl, isNumber_intValue _⟩, ⟨_, rfl, isNumber_intValue _⟩,
    ⟨_, rfl, hrev.stored.1⟩, ⟨_, rfl, ?_⟩⟩
  rcases hsev with h | h | h <;> rw [h] <;> decide

theorem storedVersion_versionValue {lv : ListVersion} (hrev : PaddedRevision lv.version.revision)
    (hsev : lv.severity.Named) : storedVersion (versionValue lv) = lv := by
  have hmajor : intField (versionValue lv) MAJOR = lv.version.major :=
    intField_of_find? rfl (getInt_intValue _)
  have hminor : intField (versionValue lv) MINOR = lv.version.minor :=
    intField_of_find? rfl (getInt_intValue _)
  have hstring : stringField (versionValue lv) REVISION = content lv.version.revision.toList :=
    stringField_of_find? rfl
  have hseverity : (intField (versionValue lv) SEVERITY).toInt.toNat = lv.severity := by
    rw [@intField_of_find? (versionValue lv) _ SEVERITY _ rfl rfl]
    rcases hsev with h | h | h <;> rw [h] <;> rfl
  rw [storedVersion, hmajor, hminor, hstring, hrev.stored.2, hseverity]

theorem printable_versionValue {lv : ListVersion} (hrev : PaddedRevision lv.version.revision) :
    Printable (versionValue lv) := by
  have hrevision : Utf8 (content lv.version.revision.toList) := utf8_of_ascii hrev.ascii
  apply @printable_object _ [MAJOR, MINOR, REVISION, SEVERITY] rfl (by decide) (by decide)
  simp only [List.forall_mem_cons]
  exact ⟨printable_intValue _, printable_intValue _, .string hrevision, .numberUnsigned _,
    fun _ hp => nomatch hp⟩

theorem map_storedVersion {history : List ListVersion}
    (hrev : ∀ lv ∈ history, PaddedRevision lv.version.revision)
    (hsev : ∀ lv ∈ history, lv.severity.Named) :
    (history.map versionValue).map storedVersion = history := by
  rw [List.map_map]
  refine (List.map_congr_left fun lv hlv => ?_).trans (List.map_id _)
  exact storedVersion_versionValue (hrev lv hlv) (hsev lv hlv)

theorem nameValue_length (e : Entry) :
    1 ≤ (nameValue e).length ∧ (nameValue e).length ≤ nameSize := by
  have hle := length_content_le e.name.toList
  have hsize : e.name.toList.length = nameSize := e.name.length_toList
  unfold nameValue
  split_ifs with hempty
  · exact ⟨le_rfl, by decide⟩
  · exact ⟨List.length_pos_iff.mpr hempty, by omega⟩

theorem content_nameValue (e : Entry) : content (nameValue e) = content e.name.toList := by
  unfold nameValue
  split_ifs with hempty
  · rw [hempty]
    rfl
  · exact content_eq_self (zero_notMem_content _)

namespace Entry.Publishable

variable {e : Entry}

theorem strncpy_nameValue (h : e.Publishable) : strncpyBuf (nameValue e) nameSize = e.name := by
  apply Vector.toList_inj.mp
  rw [toList_strncpyBuf, ← strncpy_content, content_nameValue]
  exact h.padded.symm

/-- The terminator is the last byte of what is stored for a link. -/
theorem dropLast_link (h : e.Publishable) :
    ∃ k, e.link.dropLast = content e.link ++ List.replicate k 0 ∧
      e.link = content e.link ++ List.replicate (k + 1) 0 := by
  obtain ⟨k, hk⟩ := h.terminated
  refine ⟨k, ?_, hk⟩
  rw [hk, content_append_replicate, content_eq_self (zero_notMem_content _),
    List.dropLast_append_of_ne_nil (by simp), List.dropLast_replicate, Nat.add_sub_cancel]

theorem strncpy_link (h : e.Publishable) :
    strncpy e.link.dropLast (e.link.dropLast.length + 1) = e.link := by
  obtain ⟨k, hdrop, hlink⟩ := h.dropLast_link
  have hcontent : content e.link.dropLast = content e.link := by
    rw [hdrop, content_append_replicate, content_eq_self (zero_notMem_content _)]
  have hlength : e.link.dropLast.length = (content e.link).length + k := by
    rw [hdrop, List.length_append, List.length_replicate]
  rw [strncpy_terminated, hcontent, hlength, Nat.add_sub_cancel_left]
  exact hlink.symm

theorem validItem (h : e.Publishable) : ValidItem (itemValue e) := by
  obtain ⟨hpos, hlen⟩ := nameValue_length e
  have hlink := h.linked
  have hhistory := List.length_pos_iff.mpr h.history
  refine ⟨⟨rfl, ⟨_, rfl, ?_⟩, ⟨_, rfl, ?_⟩, ⟨_, rfl, ?_⟩⟩, ?_⟩
  · simp [isStringWith, isSoftwareNameValid, hlen]
    omega
  · simp [isStringWith]
    omega
  · simp [isArray, Json.elements]
    omega
  · intro v hv
    obtain ⟨lv, hlv, rfl⟩ := List.mem_map.mp hv
    exact validVersion_versionValue (h.revisions lv hlv) (h.severities lv hlv)

theorem storedItem_itemValue (h : e.Publishable) : storedItem (itemValue e) = e := by
  have hname : stringField (itemValue e) NAME = nameValue e := stringField_of_find? rfl
  have hlink : stringField (itemValue e) LINK = e.link.dropLast := stringField_of_find? rfl
  have hversions : versionsField (itemValue e) = e.history.map versionValue := rfl
  rw [storedItem, hname, hlink, hversions, h.strncpy_nameValue, h.strncpy_link,
    map_storedVersion h.revisions h.severities]

theorem printable (h : e.Publishable) : Printable (itemValue e) := by
  obtain ⟨k, hdrop, -⟩ := h.dropLast_link
  have hname : Utf8 (nameValue e) := by
    unfold nameValue
    split_ifs
    · exact utf8_of_ascii (List.forall_mem_singleton.mpr (by decide))
    · exact h.name
  have hlink : Utf8 e.link.dropLast := by
    rw [hdrop]
    refine h.link.append (utf8_of_ascii fun c hc => ?_)
    rw [List.eq_of_mem_replicate hc]
    decide
  have hversions : ∀ v ∈ e.history.map versionValue, Printable v := by
    intro v hv
    obtain ⟨lv, hlv, rfl⟩ := List.mem_map.mp hv
    exact printable_versionValue (h.revisions lv hlv)
  apply @printable_object _ [NAME, LINK, VERSIONS] rfl (by decide) (by decide)
  simp only [List.forall_mem_cons]
  exact ⟨.string hname, .string hlink, .array hversions, fun _ hp => nomatch hp⟩

end Entry.Publishable

theorem printable_listValue {entries : List Entry} (h : ∀ e ∈ entries, e.Publishable) :
    Printable (listValue entries) := by
  have hitems : ∀ v ∈ entries.map itemValue, Printable v := by
    intro v hv
    obtain ⟨e, he, rfl⟩ := List.mem_map.mp hv
    exact (h e he).printable
  apply @printable_object _ [SOFTWARE] rfl (by decide) (by decide)
  simp only [List.forall_mem_cons]
  exact ⟨.array hitems, fun _ hp => nomatch hp⟩

/-- Every list can be published: a document without a NUL is held as it, and completely. -/
theorem exists_document {entries : List Entry} (h : ∀ e ∈ entries, e.Publishable) :
    ∃ listString, 0 ∉ listString ∧ documentList listString = .ok (.ok, entries) := by
  obtain ⟨listString, hzero, hparse⟩ := (printable_listValue h).exists_text
  have hvalid : ∀ item ∈ entries.map itemValue, ValidItem item := by
    intro v hv
    obtain ⟨e, he, rfl⟩ := List.mem_map.mp hv
    exact (h e he).validItem
  have hstored : (entries.map itemValue).map storedItem = entries := by
    rw [List.map_map]
    refine (List.map_congr_left fun e he => ?_).trans (List.map_id _)
    exact (h e he).storedItem_itemValue
  have hdocument := documentList_of_valid hparse rfl hvalid
  rw [hstored] at hdocument
  exact ⟨listString, hzero, hdocument⟩

/-- **The lists of documents.** A list is what some document is held as exactly where each of its
entries can be published, and then it is what a complete document is held as. -/
theorem documentList_image_iff {entries : List Entry} :
    ((∃ listString code, documentList listString = .ok (code, entries)) ↔
        ∀ e ∈ entries, e.Publishable) ∧
      ((∃ listString, 0 ∉ listString ∧ documentList listString = .ok (.ok, entries)) ↔
        ∀ e ∈ entries, e.Publishable) := by
  refine ⟨⟨?_, fun h => ?_⟩, ?_, exists_document⟩
  · rintro ⟨listString, code, h⟩
    exact publishable_of_documentList h
  · obtain ⟨listString, -, hdocument⟩ := exists_document h
    exact ⟨listString, .ok, hdocument⟩
  · rintro ⟨listString, -, h⟩
    exact publishable_of_documentList h

end UpdateCheck.ListParser
