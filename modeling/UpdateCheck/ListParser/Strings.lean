import UpdateCheck.ListParser.Entries

/-!
# The strings of an item

The validation looks at the length of a `std::string`, and what is stored is a C string. Where no
string holds a NUL the two agree: a name fits its 32 bytes, a revision its 4, both perhaps without a
terminator, and the block of a link is made as long as it has to be. A NUL, which an escape can
bring into any string, cuts off what stands behind it; the validation of a revision does not look
there either (`parseItem_strings_iff`).
-/

namespace UpdateCheck.ListParser

/-! ## Kept strings -/

/-- Each version holds the whole revision string of its object. -/
def KeepsRevisions (history : List ListVersion) (vers : List Json) : Prop :=
  List.Forall₂ (fun lv v => v.find? REVISION = some (.string (content lv.version.revision.toList)))
    history vers

/-- The struct holds the whole strings of the item, and these are of the documented form. -/
structure KeepsStrings (item : Json) (sw : Software) : Prop where
  name : item.find? NAME = some (.string (content sw.name.toList))
  link : item.find? LINK = some (.string (content sw.linkBytes))
  revisions : KeepsRevisions sw.history (versionsField item)
  named : content sw.name.toList ≠ []
  linked : content sw.linkBytes ≠ []
  documented : ∀ v ∈ versionsField item, ∃ s, v.find? REVISION = some (.string s) ∧
    RevisionForm s ∧ s.length ≤ revisionSize

/-- None of the stored strings of the item holds a NUL. -/
def NulFree (item : Json) : Prop :=
  0 ∉ stringField item NAME ∧ 0 ∉ stringField item LINK ∧
    ∀ v ∈ versionsField item, 0 ∉ stringField v REVISION

theorem content_strncpy_of_le {s : List CChar} {n : Nat} (hs : 0 ∉ s) (hn : s.length ≤ n) :
    content (strncpy s n) = s := by
  rw [content_strncpy, content_eq_self hs, List.take_of_length_le hn]

/-- A revision string without a NUL that is accepted is of the documented form as a whole. -/
theorem documented_of_isJsonRevisionValid {s : List CChar} (hs : 0 ∉ s)
    (h : isJsonRevisionValid s = true) : RevisionForm s ∧ s.length ≤ revisionSize := by
  have hform := content_of_isRevisionValid h
  rw [List.take_length, content_eq_self hs] at hform
  exact ⟨hform, length_le_of_isJsonRevisionValid h⟩

/-- The string a valid version has for its revision. -/
theorem ValidVersion.revision {v : Json} (h : ValidVersion v) :
    v.find? REVISION = some (.string (stringField v REVISION)) ∧
      isJsonRevisionValid (stringField v REVISION) = true := by
  obtain ⟨s, hs, hvalid⟩ := hasField_string_iff.mp h.2.2.1
  rw [stringField_of_find? hs]
  exact ⟨hs, hvalid⟩

theorem storedVersion_revision {v : Json} (h : ValidVersion v) (hs : 0 ∉ stringField v REVISION) :
    content (storedVersion v).version.revision.toList = stringField v REVISION := by
  obtain ⟨-, hlen⟩ := documented_of_isJsonRevisionValid hs h.revision.2
  exact content_strncpy_of_le hs hlen

/-- A stored item without NULs holds the strings of its object. -/
theorem keepsStrings_of_stores {item : Json} {sw : Software} (hvalid : ValidItem item)
    (hfree : NulFree item) (hst : Stores sw (storedItem item)) : KeepsStrings item sw := by
  obtain ⟨⟨-, hname, hlink, -⟩, hversions⟩ := hvalid
  obtain ⟨hnameFree, hlinkFree, hrevFree⟩ := hfree
  obtain ⟨name, hname, hnameLen⟩ := hasField_string_iff.mp hname
  obtain ⟨link, hlink, hlinkLen⟩ := hasField_string_iff.mp hlink
  rw [stringField_of_find? hname] at hnameFree
  rw [stringField_of_find? hlink] at hlinkFree
  simp only [Bool.and_eq_true, decide_eq_true_eq, isSoftwareNameValid] at hnameLen hlinkLen
  have hnameKept : content sw.name.toList = name := by
    rw [hst.name, storedItem, stringField_of_find? hname]
    exact content_strncpy_of_le hnameFree hnameLen.1
  have hlinkKept : content sw.linkBytes = link := by
    rw [hst.linkBytes_eq, storedItem, stringField_of_find? hlink]
    exact content_strncpy_of_le hlinkFree (Nat.le_succ _)
  refine ⟨by rw [hnameKept, hname], by rw [hlinkKept, hlink], ?_, ?_, ?_, ?_⟩
  · rw [KeepsRevisions, hst.history_eq, storedItem, List.forall₂_map_left_iff, List.forall₂_same]
    intro v hv
    rw [storedVersion_revision (hversions v hv) (hrevFree v hv)]
    exact (hversions v hv).revision.1
  · rw [hnameKept]
    exact List.length_pos_iff.mp hnameLen.2.1
  · rw [hlinkKept]
    exact List.length_pos_iff.mp hlinkLen
  · intro v hv
    have hrev := (hversions v hv).revision
    exact ⟨_, hrev.1, documented_of_isJsonRevisionValid (hrevFree v hv) hrev.2⟩

/-- What is read back from a C string holds no NUL. -/
theorem KeepsStrings.nulFree {item : Json} {sw : Software} (h : KeepsStrings item sw) :
    NulFree item := by
  refine ⟨?_, ?_, fun v hv => ?_⟩
  · rw [stringField_of_find? h.name]
    exact zero_notMem_content _
  · rw [stringField_of_find? h.link]
    exact zero_notMem_content _
  · obtain ⟨s, hs, hform, -⟩ := h.documented v hv
    rw [stringField_of_find? hs]
    exact hform.zero_notMem

/-! ## Accepted items -/

/-- Different strings of the two items are stored differently. -/
structure ToldApart (item item' : Json) (sw sw' : Software) : Prop where
  name : content sw.name.toList = content sw'.name.toList → item.find? NAME = item'.find? NAME
  link : content sw.linkBytes = content sw'.linkBytes → item.find? LINK = item'.find? LINK
  revision : ∀ p ∈ sw.history.zip (versionsField item),
    ∀ p' ∈ sw'.history.zip (versionsField item'),
      content p.1.version.revision.toList = content p'.1.version.revision.toList →
        p.2.find? REVISION = p'.2.find? REVISION

theorem KeepsStrings.toldApart {item item' : Json} {sw sw' : Software} (h : KeepsStrings item sw)
    (h' : KeepsStrings item' sw') : ToldApart item item' sw sw' := by
  constructor
  · intro heq
    rw [h.name, h'.name, heq]
  · intro heq
    rw [h.link, h'.link, heq]
  · intro p hp p' hp' heq
    rw [(List.forall₂_iff_zip.mp h.revisions).2 hp, (List.forall₂_iff_zip.mp h'.revisions).2 hp', heq]

/-- A run of `parse_item` that ends normally has stored a valid item. -/
theorem stores_of_parseItem {item : Json} {sw sw' : Software} {L L' : Ledger}
    (h : (parseItem item).exec sw L = (.ok (), sw', L')) :
    ValidItem item ∧ Stores sw' (storedItem item) := by
  have hspec := parseItem_spec (G := fun _ => True) item sw L ⟨trivial, trivial⟩
  rw [h] at hspec
  exact hspec.1

theorem parseItem_of_valid {item : Json} (h : ValidItem item) (sw : Software) {L : Ledger}
    (hL : L.AllGranted) : ∃ sw' L', (parseItem item).exec sw L = (.ok (), sw', L') := by
  have hspec := parseItem_spec item sw L ⟨trivial, hL⟩
  rcases hr : (parseItem item).exec sw L with ⟨e | u, sw', L'⟩
  · rw [hr] at hspec
    obtain ⟨⟨-, hnot⟩ | ⟨-, hnot⟩, hgrant⟩ := hspec
    · exact absurd h hnot
    · exact absurd hgrant hnot
  · exact ⟨sw', L', rfl⟩

theorem keepsStrings_iff (item : Json) :
    (∀ (sw sw' : Software) (L L' : Ledger), (parseItem item).exec sw L = (.ok (), sw', L') →
      KeepsStrings item sw') ↔ (ValidItem item → NulFree item) := by
  constructor
  · intro h hvalid
    obtain ⟨sw', L', hexec⟩ := parseItem_of_valid hvalid .zero (L := .start fun _ => true) fun _ => rfl
    exact (h .zero sw' _ L' hexec).nulFree
  · intro h sw sw' L L' hexec
    obtain ⟨hvalid, hst⟩ := stores_of_parseItem hexec
    exact keepsStrings_of_stores hvalid (h hvalid) hst

/-- **Strings are kept where they hold no NUL.** The struct of an accepted item holds its strings as
a whole, none of them empty where it must not be and every revision of the documented form, exactly
if the item is rejected anyway or none of its strings holds a NUL. Of two such items different
strings are stored differently. -/
theorem parseItem_strings_iff (item : Json) :
    ((∀ (sw sw' : Software) (L L' : Ledger),
      (parseItem item).exec sw L = (.ok (), sw', L') → KeepsStrings item sw') ↔
        (ValidItem item → NulFree item)) ∧
    ((ValidItem item → NulFree item) →
      ∀ item' : Json, (ValidItem item' → NulFree item') →
      ∀ (sw₁ sw sw₁' sw' : Software) (L K L' K' : Ledger),
        (parseItem item).exec sw₁ L = (.ok (), sw, K) →
        (parseItem item').exec sw₁' L' = (.ok (), sw', K') → ToldApart item item' sw sw') := by
  refine ⟨keepsStrings_iff item, ?_⟩
  intro hfree item' hfree' sw₁ sw sw₁' sw' L K L' K' hexec hexec'
  have hkeeps := (keepsStrings_iff item).mpr hfree sw₁ sw L K hexec
  have hkeeps' := (keepsStrings_iff item').mpr hfree' sw₁' sw' L' K' hexec'
  exact hkeeps.toldApart hkeeps'

/-- An item with the name `ed`, a NUL and an `x`, as the escape `\u0000` writes it, a link that is
just a NUL, and a revision that goes on behind a NUL. -/
def nulItem : Json :=
  .object [(NAME, .string [0x65, 0x64, 0, 0x78]), (LINK, .string [0]),
    (VERSIONS, .array [.object [(MAJOR, .numberUnsigned 1), (MINOR, .numberUnsigned 0),
      (REVISION, .string [0x61, 0, 0x21]), (SEVERITY, .numberUnsigned 0)]])]

/-- The item is stored under the name `ed`, with an empty link and the revision `a`. -/
theorem parseItem_nul :
    (∃ sw L', (parseItem nulItem).exec .zero (.start fun _ => true) = (.ok (), sw, L') ∧
      content sw.name.toList = [0x65, 0x64] ∧ content sw.linkBytes = [] ∧
      sw.history.map (fun lv => content lv.version.revision.toList) = [[0x61]]) ∧
    ¬ ∀ (item : Json) (sw sw' : Software) (L L' : Ledger),
      (parseItem item).exec sw L = (.ok (), sw', L') → KeepsStrings item sw' := by
  have hvalid : ValidItem nulItem := by decide +kernel
  obtain ⟨sw, L', hexec⟩ := parseItem_of_valid hvalid .zero (L := .start fun _ => true) fun _ => rfl
  have hst := (stores_of_parseItem hexec).2
  refine ⟨⟨sw, L', hexec, ?_, ?_, ?_⟩, fun h => ?_⟩
  · rw [hst.name]
    decide +kernel
  · rw [hst.linkBytes_eq]
    decide +kernel
  · rw [hst.history_eq]
    decide +kernel
  · have hfree := (h nulItem .zero sw _ L' hexec).nulFree.2.1
    revert hfree
    decide +kernel

end UpdateCheck.ListParser
