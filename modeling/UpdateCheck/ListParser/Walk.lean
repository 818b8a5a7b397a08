import UpdateCheck.ListParser.Entries
import UpdateCheck.Json.Grammar
import Mathlib.Data.List.Forall2

/-!
# The list of a document

`walkItems_spec`: the loop over the items stores the translations of the leading valid items and
stops at the first invalid one, whose half-filled slot stays outside the list. From it the two
results on the entry points of the parser:

* `walkList_longestPrefix`: the list holds exactly the longest valid prefix of the array;
* `parserParse_returns_iff`: a document makes the parser end in an exception exactly when it
  holds a number literal that overflows.
-/

namespace UpdateCheck.ListParser

/-- The list holds the entries, and nothing else is visible in it. -/
def Holds (list : SoftwareList) (entries : List Entry) : Prop :=
  list.length = entries.length ∧ List.Forall₂ Stores list.visible entries

/-- The list in the middle of the loop over the items. -/
def Walked (seen : List Entry) (total : Nat) (list : SoftwareList) : Prop :=
  ∃ block, list.items.val? = some block ∧ block.length = total ∧
    List.Forall₂ Stores (block.take seen.length) seen

/-- The return code for an array of items. -/
def walkCode (items : List Json) : EupdRetCode :=
  if ∀ item ∈ items, ValidItem item then .ok else .wListIncomplete

theorem holds_zero : Holds .zero [] := ⟨rfl, .nil⟩

theorem Walked.holds {seen : List Entry} {total : Nat} {list : SoftwareList}
    (h : Walked seen total list) : Holds { list with length := seen.length } seen := by
  obtain ⟨block, hblock, -, hstores⟩ := h
  refine ⟨rfl, ?_⟩
  rw [SoftwareList.visible, hblock]
  exact hstores

/-- What happens to a slot behind the entries leaves them as they are. -/
theorem Walked.setSlot {seen : List Entry} {total : Nat} {list : SoftwareList}
    (h : Walked seen total list) (sw : Software) : Walked seen total (setSlot seen.length sw list) := by
  obtain ⟨block, hblock, hlen, hstores⟩ := h
  obtain ⟨b, hb, rfl⟩ := Option.map_eq_some_iff.mp hblock
  refine ⟨b.val.set seen.length sw, ?_, by simpa using hlen, ?_⟩
  · rw [ListParser.setSlot, hb]
    rfl
  · rwa [List.take_set_of_le le_rfl]

theorem Walked.store {seen : List Entry} {total : Nat} {list : SoftwareList}
    (h : Walked seen total list) {sw : Software} {e : Entry} (hsw : Stores sw e)
    (hlt : seen.length < total) : Walked (seen ++ [e]) total (ListParser.setSlot seen.length sw list) := by
  obtain ⟨block, hblock, hlen, hstores⟩ := h
  obtain ⟨b, hb, rfl⟩ := Option.map_eq_some_iff.mp hblock
  refine ⟨b.val.set seen.length sw, ?_, by simpa using hlen, ?_⟩
  · rw [ListParser.setSlot, hb]
    rfl
  · rw [List.length_append, List.length_singleton, List.take_add_one, List.take_set_of_le le_rfl,
      List.getElem?_set_self (by omega)]
    exact List.rel_append hstores (.cons hsw .nil)

/-- How a walk ends that finds `entries` in its document: with the code `full` and all of them, or,
where the document is usable and memory is exhausted, with the first of them. -/
def WalkEnds (full : EupdRetCode) (entries : List Entry) (code : EupdRetCode)
    (list : SoftwareList) (L : Ledger) : Prop :=
  (code = full ∧ Holds list entries) ∨
    (¬ L.AllGranted ∧ full.isError = false ∧ (code = .wListIncomplete ∨ code = .eNoMemory) ∧
      ∃ held, held <+: entries ∧ Holds list held)

theorem walkCode_isError (items : List Json) : (walkCode items).isError = false := by
  unfold walkCode
  split <;> rfl

variable {G : Ledger → Prop} [Stable G]

/-- `parse_item` on a slot of the list. -/
theorem parseSlot_spec {seen : List Entry} {total : Nat} (hlt : seen.length < total) (item : Json) :
    Triple (Within G (Walked seen total))
      (onPart (slot seen.length) (setSlot seen.length) (parseItem item))
      (fun _ => Within G fun list => ValidItem item ∧ Walked (seen ++ [storedItem item]) total list)
      (fun e list L => Refused (¬ ValidItem item) e L ∧ Within G (Walked seen total) list L) := by
  refine Triple.onPart fun list => ?_
  refine Triple.pre (Triple.assume (φ := Walked seen total list) fun hw => ?_)
    (P := fun t L => Walked seen total list ∧ Within G (fun _ => True) t L) ?_
  · refine (parseItem_spec item).conseq (fun _ _ => id) ?_ ?_
    · intro _ sw L hstate
      obtain ⟨⟨hvalid, hst⟩, hL⟩ := hstate
      exact ⟨⟨hvalid, hw.store hst hlt⟩, hL⟩
    · intro e sw L hstate
      obtain ⟨he, hL⟩ := hstate
      exact ⟨he, hw.setSlot sw, hL⟩
  · intro t L hstate
    obtain ⟨-, hw, hL⟩ := hstate
    exact ⟨hw, trivial, hL⟩

theorem validPrefix_cons_of_valid {item : Json} (h : ValidItem item) (items : List Json) :
    validPrefix (item :: items) = storedItem item :: validPrefix items := by
  simp [validPrefix, h]

theorem validPrefix_cons_of_invalid {item : Json} (h : ¬ ValidItem item) (items : List Json) :
    validPrefix (item :: items) = [] := by
  simp [validPrefix, h]

/-- The loop keeps the translations of the leading valid items. -/
theorem walkItems_spec (seen : List Entry) (items : List Json) :
    Triple (Within G (Walked seen (seen.length + items.length))) (walkItems seen.length items)
      (fun code list L => WalkEnds (walkCode items) (seen ++ validPrefix items) code list L ∧ G L)
      (fun _ _ _ => False) := by
  induction items generalizing seen with
  | nil =>
    refine Triple.bind_modifyObj (K := fun list => Holds list seen) ?_ ?_
    · exact fun list h => h.holds
    · refine Triple.pure fun list L h => ⟨Or.inl ⟨by simp [walkCode], ?_⟩, h.2⟩
      simpa [validPrefix] using h.1
  | cons item items ih =>
    refine Triple.bind (parseSlot_spec (by simp) item).attempt fun r => ?_
    cases r with
    | ok _ =>
      dsimp only
      refine Triple.pre (Triple.assume (φ := ValidItem item) fun hv => ?_)
        (P := fun list L => ValidItem item ∧
          Within G (Walked (seen ++ [storedItem item]) (seen.length + (item :: items).length)) list L)
        fun list L h => ⟨h.1.1, h.1.2, h.2⟩
      have hrest := ih (seen ++ [storedItem item])
      have htotal : seen.length + (item :: items).length = seen.length + 1 + items.length := by
        simp only [List.length_cons]
        omega
      have hcode : walkCode (item :: items) = walkCode items := by
        unfold walkCode
        simp only [List.forall_mem_cons, hv, true_and]
      rw [List.length_append, List.length_singleton, List.append_assoc, List.singleton_append]
        at hrest
      rw [htotal, hcode, validPrefix_cons_of_valid hv]
      exact hrest
    | error e =>
      dsimp only
      intro list L hstate
      obtain ⟨⟨rfl, hv⟩ | ⟨rfl, hnot⟩, hw, hL⟩ := hstate
      · refine ⟨Or.inl ⟨?_, ?_⟩, hL⟩
        · unfold walkCode
          rw [if_neg fun hall => hv (List.forall_mem_cons.mp hall).1]
        · rw [validPrefix_cons_of_invalid hv, List.append_nil]
          exact hw.holds
      · exact ⟨Or.inr ⟨hnot, walkCode_isError _, Or.inl rfl, seen, List.prefix_append _ _,
          hw.holds⟩, hL⟩

/-! ## The root -/

/-- The root is an object with an array in its member `software`. -/
def HasSoftware (root : Json) : Prop := HasField root SOFTWARE Json.isArray

instance (root : Json) : Decidable (HasSoftware root) := inferInstanceAs (Decidable (HasField ..))

def softwareField (root : Json) : List Json := (field root SOFTWARE).elements

/-- The entries of a document with the given root. -/
def entriesOf (root : Json) : List Entry := validPrefix (softwareField root)

/-- The return code for a document with the given root. -/
def codeOf (root : Json) : EupdRetCode :=
  if HasSoftware root then walkCode (softwareField root) else .eMalformedList

theorem isObject_of_hasField {o : Json} {key : List CChar} {p : Json → Bool}
    (h : HasField o key p) : o.isObject = true := by
  obtain ⟨j, hj, -⟩ := h
  cases o with
  | object fields => rfl
  | _ => cases hj

theorem entriesOf_of_not_hasSoftware {root : Json} (h : ¬ HasSoftware root) :
    entriesOf root = [] := by
  have helems : softwareField root = [] := by
    unfold softwareField
    cases hf : field root SOFTWARE with
    | array elems =>
      have hentry : hasEntry root SOFTWARE = true := by
        unfold field at hf
        cases hfind : root.find? SOFTWARE with
        | none => simp [hfind] at hf
        | some j => simp [hasEntry, hfind]
      exact absurd (hasField_iff.mpr ⟨hentry, by rw [hf]; rfl⟩) h
    | _ => rfl
  rw [entriesOf, helems]
  rfl

theorem walkList_of_hasSoftware {root : Json} (hs : HasSoftware root) : walkList root = (do
    let items ← malloc (List.replicate (softwareField root).length Software.zero)
    modifyObj fun list => { list with items := items }
    if items.isNone then return .eNoMemory
    walkItems 0 (softwareField root)) := by
  obtain ⟨hentry, harray⟩ := hasField_iff.mp hs
  unfold walkList
  rw [isObject_of_hasField hs, entry_eq (by simp [hentry]), hentry]
  simp only [pure_bind, harray, Bool.not_true, Bool.false_eq_true, if_false]
  rfl

theorem walkList_of_not_hasSoftware {root : Json} (hs : ¬ HasSoftware root) :
    walkList root = pure .eMalformedList := by
  unfold walkList
  split
  · rfl
  · split
    · rfl
    · rename_i hentry
      have hentry : (!hasEntry root SOFTWARE) = false := by simpa using hentry
      have harray : (field root SOFTWARE).isArray = false := by
        rw [Bool.eq_false_iff]
        exact fun h => hs (hasField_iff.mpr ⟨by simpa using hentry, h⟩)
      rw [entry_eq hentry, pure_bind, harray]
      rfl

/-- `walk_list` stores the entries of the root. -/
theorem walkList_ends (root : Json) :
    Triple (Within G (· = SoftwareList.zero)) (walkList root)
      (fun code list L => WalkEnds (codeOf root) (entriesOf root) code list L ∧ G L)
      (fun _ _ _ => False) := by
  by_cases hs : HasSoftware root
  · rw [walkList_of_hasSoftware hs, codeOf, if_pos hs]
    refine Triple.bind_malloc_or_null (fun b hb => ?_) ?_
    · refine Triple.bind_modifyObj (K := Walked [] (0 + (softwareField root).length)) ?_ ?_
      · rintro list rfl
        exact ⟨b.val, rfl, by simp [hb], .nil⟩
      · exact walkItems_spec [] (softwareField root)
    · intro _ L hstate
      obtain ⟨⟨rfl, hL⟩, hnot⟩ := hstate
      exact ⟨Or.inr ⟨hnot, walkCode_isError _, Or.inr rfl, [], List.nil_prefix, holds_zero⟩, hL⟩
  · rw [walkList_of_not_hasSoftware hs, codeOf, if_neg hs, entriesOf_of_not_hasSoftware hs]
    refine Triple.pure fun list L hstate => ?_
    obtain ⟨rfl, hL⟩ := hstate
    exact ⟨Or.inl ⟨rfl, holds_zero⟩, hL⟩

/-- With every allocation granted no entry is missing. -/
theorem walkList_spec (root : Json) :
    Triple (Granted (· = SoftwareList.zero)) (walkList root)
      (fun code => Granted fun list => code = codeOf root ∧ Holds list (entriesOf root))
      (fun _ _ _ => False) := by
  refine (walkList_ends root).post ?_
  intro code list L hstate
  obtain ⟨hends | ⟨hnot, -⟩, hL⟩ := hstate
  · exact ⟨hends, hL⟩
  · exact absurd hL hnot

theorem hasSoftware_iff {root : Json} :
    HasSoftware root ↔ ∃ items, root.find? SOFTWARE = some (.array items) := by
  constructor
  · rintro ⟨j, hj, harray⟩
    obtain ⟨items, rfl⟩ := Json.isArray_iff.mp harray
    exact ⟨items, hj⟩
  · rintro ⟨items, hitems⟩
    exact ⟨_, hitems, rfl⟩

theorem not_hasSoftware_iff {root : Json} : ¬ HasSoftware root ↔
    root.isObject = false ∨ hasEntry root SOFTWARE = false ∨
      (field root SOFTWARE).isArray = false := by
  constructor
  · intro h
    rw [HasSoftware, hasField_iff, not_and_or, Bool.not_eq_true, Bool.not_eq_true] at h
    exact Or.inr h
  · intro h hs
    have hobject := isObject_of_hasField hs
    obtain ⟨hentry, harray⟩ := hasField_iff.mp hs
    simp [hobject, hentry, harray] at h

theorem validPrefix_eq (items : List Json) : validPrefix items =
    (items.take (items.findIdx fun item => ¬ ValidItem item)).map storedItem := by
  rw [validPrefix, List.takeWhile_eq_take_findIdx_not]
  simp only [decide_not]

theorem length_validPrefix (items : List Json) :
    (validPrefix items).length = items.findIdx fun item => ¬ ValidItem item := by
  rw [validPrefix_eq, List.length_map, List.length_take, min_eq_left List.findIdx_le_length]

theorem walkCode_eq_ok_iff {items : List Json} :
    walkCode items = .ok ↔ ∀ item ∈ items, ValidItem item := by
  unfold walkCode
  split <;> simp_all

theorem walkCode_eq_wListIncomplete_iff {items : List Json} :
    walkCode items = .wListIncomplete ↔ ∃ item ∈ items, ¬ ValidItem item := by
  unfold walkCode
  split <;> simp_all

/-- **The longest valid prefix.** With every allocation granted `walk_list` rejects a root
without a `software` array and leaves the list empty. Of an array it stores, in order and with
all their versions, the translations of the items before the first invalid one, and nothing
else; it returns `EUPD_OK` exactly when there is no invalid one. -/
theorem walkList_longestPrefix (root : Json) (L : Ledger) (hL : L.AllGranted) :
    ∃ code list L', (walkList root).exec .zero L = (.ok code, list, L') ∧
      (code = .eMalformedList ∧ list.visible = [] ↔
        root.isObject = false ∨ hasEntry root SOFTWARE = false ∨
          (field root SOFTWARE).isArray = false) ∧
      ∀ items, root.find? SOFTWARE = some (.array items) →
        list.length = items.findIdx (fun item => ¬ ValidItem item) ∧
        List.Forall₂ (fun sw item => Stores sw (storedItem item)) list.visible
          (items.take list.length) ∧
        (code = .ok ↔ ∀ item ∈ items, ValidItem item) ∧
        (code = .wListIncomplete ↔ ∃ item ∈ items, ¬ ValidItem item) := by
  obtain ⟨code, list, L', hexec, ⟨rfl, hlen, hstores⟩, -⟩ :=
    (walkList_spec root).run (x := .zero) ⟨rfl, hL⟩
  refine ⟨_, list, L', hexec, ?_, ?_⟩
  · rw [← not_hasSoftware_iff]
    constructor
    · rintro ⟨hcode, -⟩ hs
      rw [codeOf, if_pos hs, walkCode] at hcode
      split at hcode <;> cases hcode
    · intro hs
      rw [entriesOf_of_not_hasSoftware hs] at hstores
      exact ⟨if_neg hs, List.forall₂_nil_right_iff.mp hstores⟩
  · intro items hitems
    have hcode : codeOf root = walkCode items := by
      rw [codeOf, if_pos (hasSoftware_iff.mpr ⟨items, hitems⟩), softwareField,
        field_of_find? hitems]
      rfl
    have hentries : entriesOf root = validPrefix items := by
      rw [entriesOf, softwareField, field_of_find? hitems]
      rfl
    rw [hentries, length_validPrefix] at hlen
    rw [hentries, validPrefix_eq, List.forall₂_map_right_iff, ← hlen] at hstores
    rw [hcode]
    exact ⟨hlen, hstores, walkCode_eq_ok_iff, walkCode_eq_wListIncomplete_iff⟩

/-- A version object and an item with it. -/
def sampleItem : Json :=
  .object [(NAME, .string (ascii "a")), (LINK, .string (ascii "l")),
    (VERSIONS, .array [.object [(MAJOR, .numberUnsigned 1), (MINOR, .numberUnsigned 0),
      (REVISION, .string (ascii "b")), (SEVERITY, .numberUnsigned 2)]])]

/-- A list with one valid item, a broken one and another valid one. -/
def sampleRoot : Json := .object [(SOFTWARE, .array [sampleItem, .null, sampleItem])]

theorem walkList_longestPrefix_sample :
    ∃ code list L', (walkList sampleRoot).exec .zero (.start fun _ => true) = (.ok code, list, L') ∧
      (code = .eMalformedList ∧ list.visible = [] ↔
        sampleRoot.isObject = false ∨ hasEntry sampleRoot SOFTWARE = false ∨
          (field sampleRoot SOFTWARE).isArray = false) ∧
      ∀ items, sampleRoot.find? SOFTWARE = some (.array items) →
        list.length = items.findIdx (fun item => ¬ ValidItem item) ∧
        List.Forall₂ (fun sw item => Stores sw (storedItem item)) list.visible
          (items.take list.length) ∧
        (code = .ok ↔ ∀ item ∈ items, ValidItem item) ∧
        (code = .wListIncomplete ↔ ∃ item ∈ items, ¬ ValidItem item) :=
  walkList_longestPrefix sampleRoot (.start fun _ => true) fun _ => rfl

/-! ## Documents -/

theorem parserParse_of_ok {listString : List CChar} {root : Json}
    (h : Json.parse listString = .ok root) : parserParse listString = walkList root := by
  rw [parserParse, h]

/-- A document that is a JSON text is answered with the entries of its root. -/
theorem parserParse_spec {listString : List CChar} {root : Json}
    (h : Json.parse listString = .ok root) :
    Triple (Granted (· = SoftwareList.zero)) (parserParse listString)
      (fun code => Granted fun list => code = codeOf root ∧ Holds list (entriesOf root))
      (fun _ _ _ => False) := by
  rw [parserParse_of_ok h]
  exact walkList_spec root

/-- What `parser_parse` makes of a document: its code and entries, or its exception. -/
def documentList (listString : List CChar) : Except Raised (EupdRetCode × List Entry) :=
  match Json.parse listString with
  | .ok root => .ok (codeOf root, entriesOf root)
  | .error .parseError => .ok (.eMalformedList, [])
  | .error e => .error e

theorem documentList_of_ok {listString : List CChar} {root : Json}
    (h : Json.parse listString = .ok root) :
    documentList listString = .ok (codeOf root, entriesOf root) := by
  rw [documentList, h]

theorem parserParse_documentList (listString : List CChar) :
    Triple (Granted (· = SoftwareList.zero)) (parserParse listString)
      (fun code => Granted fun list =>
        ∃ entries, documentList listString = .ok (code, entries) ∧ Holds list entries)
      (fun e => Granted fun _ => documentList listString = .error e) := by
  cases hp : Json.parse listString with
  | ok root =>
    refine (parserParse_spec hp).conseq (fun _ _ => id) ?_ fun _ _ _ => False.elim
    intro _ list L hstate
    obtain ⟨⟨rfl, hl⟩, hL⟩ := hstate
    exact ⟨⟨_, documentList_of_ok hp, hl⟩, hL⟩
  | error e =>
    unfold parserParse documentList
    rw [hp]
    rcases Json.parse_error hp with rfl | rfl
    · refine Triple.pure ?_
      intro _ L hstate
      obtain ⟨rfl, hL⟩ := hstate
      exact ⟨⟨[], rfl, holds_zero⟩, hL⟩
    · exact Triple.throw fun _ L h => ⟨rfl, h.2⟩

theorem parserParse_exec {listString : List CChar} {code : EupdRetCode} {list : SoftwareList}
    {L L' : Ledger} (hL : L.AllGranted)
    (h : (parserParse listString).exec .zero L = (.ok code, list, L')) :
    ∃ entries, documentList listString = .ok (code, entries) ∧ Holds list entries := by
  have hpost := parserParse_documentList listString .zero L ⟨rfl, hL⟩
  rw [h] at hpost
  exact hpost.1

theorem parserParse_run {listString : List CChar} {code : EupdRetCode} {entries : List Entry}
    (h : documentList listString = .ok (code, entries)) {L : Ledger} (hL : L.AllGranted) :
    ∃ list L', (parserParse listString).exec .zero L = (.ok code, list, L') ∧
      Holds list entries := by
  have hpost := parserParse_documentList listString .zero L ⟨rfl, hL⟩
  rcases hr : (parserParse listString).exec .zero L with ⟨e | ret, list, L'⟩
  · rw [hr] at hpost
    cases h.symm.trans hpost.1
  · rw [hr] at hpost
    obtain ⟨entries', hdoc, hlist⟩ := hpost.1
    cases h.symm.trans hdoc
    exact ⟨list, L', rfl, hlist⟩

/-- A document of valid items only is held whole. -/
theorem documentList_of_valid {listString : List CChar} {root : Json} {items : List Json}
    (hroot : Json.parse listString = .ok root) (hitems : root.find? SOFTWARE = some (.array items))
    (hvalid : ∀ item ∈ items, ValidItem item) :
    documentList listString = .ok (.ok, items.map storedItem) := by
  have hfield : softwareField root = items := by
    rw [softwareField, field_of_find? hitems]
    rfl
  have hall : items.takeWhile (fun item => ValidItem item) = items := by
    simpa [List.takeWhile_eq_self_iff] using hvalid
  rw [documentList_of_ok hroot, codeOf, if_pos (hasSoftware_iff.mpr ⟨items, hitems⟩), walkCode,
    entriesOf, hfield, if_pos hvalid, validPrefix, hall]

/-- The entries of a document are stored versions of valid items. -/
theorem documentList_mem {listString : List CChar} {code : EupdRetCode} {entries : List Entry}
    (h : documentList listString = .ok (code, entries)) {e : Entry} (he : e ∈ entries) :
    ∃ item, ValidItem item ∧ e = storedItem item := by
  unfold documentList at h
  split at h
  · cases h
    obtain ⟨item, hitem, rfl⟩ := List.mem_map.mp he
    exact ⟨item, by simpa using List.mem_takeWhile_imp hitem, rfl⟩
  · cases h
    cases he
  · cases h

theorem documentList_named {listString : List CChar} {code : EupdRetCode} {entries : List Entry}
    (h : documentList listString = .ok (code, entries)) :
    ∀ e ∈ entries, ∀ lv ∈ e.history, lv.severity.Named := by
  intro e he lv hlv
  obtain ⟨item, hvalid, rfl⟩ := documentList_mem h he
  obtain ⟨v, hv, rfl⟩ := List.mem_map.mp hlv
  exact storedVersion_named (hvalid.2 v hv)

theorem documentList_padded {listString : List CChar} {code : EupdRetCode} {entries : List Entry}
    (h : documentList listString = .ok (code, entries)) :
    ∀ e ∈ entries, ∀ lv ∈ e.history, PaddedRevision lv.version.revision := by
  intro e he lv hlv
  obtain ⟨item, hvalid, rfl⟩ := documentList_mem h he
  obtain ⟨v, hv, rfl⟩ := List.mem_map.mp hlv
  exact storedVersion_padded (hvalid.2 v hv)

/-- The code is an error only where there are no entries. -/
theorem documentList_code {listString : List CChar} {code : EupdRetCode} {entries : List Entry}
    (h : documentList listString = .ok (code, entries)) :
    code = .ok ∨ code = .wListIncomplete ∨ code = .eMalformedList ∧ entries = [] := by
  unfold documentList at h
  split at h
  · rename_i root _
    cases h
    unfold codeOf walkCode
    split_ifs with hs hall
    · exact Or.inl rfl
    · exact Or.inr (Or.inl rfl)
    · exact Or.inr (Or.inr ⟨rfl, entriesOf_of_not_hasSoftware hs⟩)
  · cases h
    exact Or.inr (Or.inr ⟨rfl, rfl⟩)
  · cases h

theorem codeOf_cases (root : Json) :
    codeOf root = .ok ∨ codeOf root = .wListIncomplete ∨ codeOf root = .eMalformedList := by
  unfold codeOf walkCode
  split_ifs <;> simp

/-- **The exceptions of `parser_parse`.** With every allocation granted the call returns one of
its three codes exactly when the document holds no number literal that overflows in a place
where a value may stand: `parse_error` is caught, `out_of_range` is not, and no accessor behind
the parser throws. -/
theorem parserParse_returns_iff (listString : List CChar) (L : Ledger) (hL : L.AllGranted) :
    (∃ code list L', (parserParse listString).exec .zero L = (.ok code, list, L') ∧
      (code = .ok ∨ code = .wListIncomplete ∨ code = .eMalformedList)) ↔
      ¬ Json.Overflows listString := by
  rw [← Json.parse_outOfRange_iff]
  cases hp : Json.parse listString with
  | ok root =>
    refine iff_of_true ?_ (by simp)
    obtain ⟨code, list, L', hexec, ⟨rfl, -⟩, -⟩ :=
      (parserParse_spec hp).run (x := .zero) ⟨rfl, hL⟩
    exact ⟨_, list, L', hexec, codeOf_cases root⟩
  | error e =>
    unfold parserParse
    rw [hp]
    rcases Json.parse_error hp with rfl | rfl
    · exact iff_of_true ⟨_, _, _, rfl, Or.inr (Or.inr rfl)⟩ (by simp)
    · refine iff_of_false ?_ (by simp)
      rintro ⟨code, list, L', hexec, -⟩
      cases hexec

/-- A number literal beyond the greatest double, as a whole document. -/
def overflowing : List CChar := ascii "1e400" ++ [0]

theorem overflows_overflowing : Json.Overflows overflowing := by
  refine ⟨[], ascii "1e400", ?_, ⟨[], _, .scalar rfl⟩, ?_⟩
  · decide +kernel
  · exact Json.strtod_eq_none_iff.mp (by decide +kernel)

/-- The document `1e400` makes `parser_parse` end in an exception. -/
theorem parserParse_overflowing :
    (parserParse overflowing).exec .zero (.start fun _ => true) =
        (.error .outOfRange, .zero, .start fun _ => true) ∧
      ¬ ∀ (listString : List CChar) (L : Ledger), L.AllGranted →
        ∃ code list L', (parserParse listString).exec .zero L = (.ok code, list, L') ∧
          (code = .ok ∨ code = .wListIncomplete ∨ code = .eMalformedList) := by
  have hexec : (parserParse overflowing).exec .zero (.start fun _ => true) =
      (.error .outOfRange, .zero, .start fun _ => true) := by
    unfold parserParse
    rw [Json.parse_outOfRange_iff.mpr overflows_overflowing]
    rfl
  refine ⟨hexec, fun h => ?_⟩
  obtain ⟨code, list, L', hok, -⟩ := h overflowing (.start fun _ => true) fun _ => rfl
  rw [hexec] at hok
  cases hok

theorem parserParse_returns_iff_sample :
    (∃ code list L', (parserParse overflowing).exec .zero (.start fun _ => true) =
        (.ok code, list, L') ∧
      (code = .ok ∨ code = .wListIncomplete ∨ code = .eMalformedList)) ↔
      ¬ Json.Overflows overflowing :=
  parserParse_returns_iff overflowing (.start fun _ => true) fun _ => rfl

end UpdateCheck.ListParser
