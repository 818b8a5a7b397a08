import UpdateCheck.Base.Copies
import UpdateCheck.ListParser.Parse

/-!
# What the list parser accepts and stores

The decisions of the validators are predicates on JSON values (`ValidVersion`, `ValidItem`) and
what is stored for a valid item is an `Entry`, a value without pointers. With every allocation
granted the programs of `Parse.lean` compute exactly these:

* `isVersionItem_decides`, `checkItem_checks`: the validators decide the predicates;
* `parseVersion_computes`, `parseItem_spec`: a valid item is stored as its entry, and any other
  is refused with `InvalidItemError`; no accessor throws anything else.
-/

namespace UpdateCheck.ListParser

/-! ## Fields -/

/-- The object has a member of the given name whose value satisfies `p`. -/
def HasField (o : Json) (key : List CChar) (p : Json → Bool) : Prop :=
  ∃ j, o.find? key = some j ∧ p j = true

instance (o : Json) (key : List CChar) (p : Json → Bool) : Decidable (HasField o key p) :=
  decidable_of_iff ((o.find? key).any p = true) (by
    unfold HasField
    cases o.find? key <;> simp)

/-- The member of an object, null where there is none. -/
def field (o : Json) (key : List CChar) : Json := (o.find? key).getD .null

/-- The bytes of a string member. -/
def stringField (o : Json) (key : List CChar) : List CChar :=
  match field o key with
  | .string s => s
  | _ => []

/-- The `int` a member converts to. -/
def intField (o : Json) (key : List CChar) : Int32 :=
  match (field o key).getInt with
  | .ok i => i
  | .error _ => 0

/-- A string whose bytes satisfy `p`. -/
def isStringWith (p : List CChar → Bool) : Json → Bool
  | .string s => p s
  | _ => false

theorem hasEntry_iff {o : Json} {key : List CChar} :
    hasEntry o key = true ↔ ∃ j, o.find? key = some j := Option.isSome_iff_exists

theorem field_of_find? {o j : Json} {key : List CChar} (h : o.find? key = some j) :
    field o key = j := by
  rw [field, h]
  rfl

theorem field_of_missing {o : Json} {key : List CChar} (h : hasEntry o key = false) :
    field o key = .null := by
  have hnone : o.find? key = none := Option.not_isSome_iff_eq_none.mp (by simpa [hasEntry] using h)
  rw [field, hnone]
  rfl

/-- There is nothing to copy where there is no string. -/
theorem stringRequests_of_not_isString {o : Json} {key : List CChar}
    (h : (field o key).isString = false) : stringRequests (stringField o key) = 0 := by
  unfold stringField
  cases hfield : field o key with
  | string s =>
    rw [hfield] at h
    cases h
  | _ => rfl

theorem stringRequests_of_missing {o : Json} {key : List CChar} (h : hasEntry o key = false) :
    stringRequests (stringField o key) = 0 := by
  apply stringRequests_of_not_isString
  rw [field_of_missing h]
  rfl

theorem stringField_of_find? {o : Json} {key s : List CChar} (h : o.find? key = some (.string s)) :
    stringField o key = s := by
  rw [stringField, field_of_find? h]

theorem hasField_iff {o : Json} {key : List CChar} {p : Json → Bool} :
    HasField o key p ↔ hasEntry o key = true ∧ p (field o key) = true := by
  rw [hasEntry_iff]
  constructor
  · rintro ⟨j, hj, hp⟩
    exact ⟨⟨j, hj⟩, by rwa [field_of_find? hj]⟩
  · rintro ⟨⟨j, hj⟩, hp⟩
    exact ⟨j, hj, by rwa [field_of_find? hj] at hp⟩

theorem isStringWith_field {o : Json} {key : List CChar} {p : List CChar → Bool} :
    isStringWith p (field o key) = true ↔
      (field o key).isString = true ∧ p (stringField o key) = true := by
  unfold stringField
  cases field o key <;> simp [isStringWith, Json.isString]

theorem isStringWith_iff {p : List CChar → Bool} {j : Json} :
    isStringWith p j = true ↔ ∃ s, j = .string s ∧ p s = true := by
  cases j <;> simp [isStringWith]

theorem hasField_string_iff {o : Json} {key : List CChar} {p : List CChar → Bool} :
    HasField o key (isStringWith p) ↔ ∃ s, o.find? key = some (.string s) ∧ p s = true := by
  constructor
  · rintro ⟨j, hj, hp⟩
    obtain ⟨s, rfl, hs⟩ := isStringWith_iff.mp hp
    exact ⟨s, hj, hs⟩
  · rintro ⟨s, hj, hs⟩
    exact ⟨_, hj, isStringWith_iff.mpr ⟨s, rfl, hs⟩⟩

/-! ## Versions -/

/-- What `is_version_item` accepts. -/
def ValidVersion (v : Json) : Prop :=
  HasField v MAJOR Json.isNumber ∧ HasField v MINOR Json.isNumber ∧
    HasField v REVISION (isStringWith isJsonRevisionValid) ∧
    HasField v SEVERITY fun sev => sev.ge 0 && sev.lt 3

instance (v : Json) : Decidable (ValidVersion v) := inferInstanceAs (Decidable (_ ∧ _))

/-- The requests of the copies that `is_version_item` makes: of the revision, where it comes to that,
and of the severity behind a valid revision. -/
def checkedCopies (v : Json) : Nat :=
  if hasEntry v MAJOR && (field v MAJOR).isNumber && hasEntry v MINOR && (field v MINOR).isNumber &&
      hasEntry v REVISION && (field v REVISION).isString then
    stringRequests (stringField v REVISION) +
      if isJsonRevisionValid (stringField v REVISION) && hasEntry v SEVERITY then
        (field v SEVERITY).copyRequests
      else 0
  else 0

/-- What `parse_version` stores for a version it accepts. -/
def storedVersion (v : Json) : ListVersion :=
  ⟨⟨intField v MAJOR, intField v MINOR, strncpyBuf (stringField v REVISION) revisionSize⟩,
    (intField v SEVERITY).toInt.toNat⟩

section Programs

variable {σ : Type}

/-- The look at a member that is there needs no memory. -/
theorem entry_eq {o : Json} {key : List CChar} (h : (!hasEntry o key) = false) :
    (entry o key : Prog Raised σ Json) = pure (field o key) := by
  obtain ⟨j, hj⟩ := hasEntry_iff.mp (by simpa using h)
  rw [entry, Json.get_of_find? hj, field_of_find? hj]
  rfl

theorem field_copies {o : Json} {key : List CChar} (h : (!hasEntry o key) = false) :
    Copies 0 (entry o key : Prog Raised σ Json) (.ok (field o key)) := by
  rw [entry_eq h]
  exact Copies.pure

theorem getString_copies (s : List CChar) :
    Copies (stringRequests s) (getString (.string s) : Prog Raised σ (List CChar)) (.ok s) := by
  rw [← Nat.zero_add (stringRequests s)]
  exact Copies.bind .pure (.copied _)

theorem stringField_copies {o : Json} {key : List CChar} (h : (!(field o key).isString) = false) :
    Copies (stringRequests (stringField o key))
      (getString (field o key) : Prog Raised σ (List CChar)) (.ok (stringField o key)) := by
  obtain ⟨s, hs⟩ := Json.isString_iff.mp (by simpa using h)
  rw [stringField, hs]
  exact getString_copies s

/-- `if (!has_entry(o, key)) return false;` in front of a look at the member. -/
theorem decides_entry {o : Json} {key : List CChar} {n : Nat} {f : Json → Prog Raised σ Bool}
    {φ : Prop} (h : DecidesWith n (f (field o key)) φ) :
    DecidesWith (if hasEntry o key then n else 0)
      (if (!hasEntry o key) = true then Pure.pure false else entry o key >>= f)
      (hasEntry o key = true ∧ φ) := by
  apply DecidesWith.guard
  intro hentry
  rw [entry_eq (by rw [hentry]; rfl), pure_bind]
  exact h

/-- The copies made on the way can only fail by `bad_alloc`: no accessor throws. -/
theorem isVersionItem_decidesWith (v : Json) :
    DecidesWith (checkedCopies v) (isVersionItem v : Prog Raised σ Bool) (ValidVersion v) := by
  refine DecidesWith.congr (decides_entry (.guard fun _ => decides_entry (.guard fun _ =>
    decides_entry (.guard fun hs => .bind (stringField_copies (by rw [hs]; rfl)) (.guard fun _ =>
      decides_entry (.bind (.copied _) .pure)))))) ?_ ?_
  · simp only [checkedCopies, Bool.and_eq_true, ite_and, Nat.add_zero]
  · rw [ValidVersion, hasField_iff, hasField_iff, hasField_iff, hasField_iff, isStringWith_field]
    simp only [and_assoc]

theorem isVersionItem_decides (v : Json) :
    Decides (isVersionItem v : Prog Raised σ Bool) (ValidVersion v) :=
  (isVersionItem_decidesWith v).decides

end Programs

/-! ## Severities -/

def IsSeverity (i : Int32) : Prop := i = 0 ∨ i = 1 ∨ i = 2

theorem intOfDouble_of_trunc {d : Double} {n : Int} (h : d.trunc = n) (hn : 0 ≤ n) (hn' : n < 3) :
    IsSeverity (Json.intOfDouble d) := by
  have hrange : -2 ^ 31 ≤ d.trunc ∧ d.trunc < 2 ^ 31 := by omega
  rw [Json.intOfDouble, if_pos hrange, h]
  obtain rfl | rfl | rfl : n = 0 ∨ n = 1 ∨ n = 2 := by omega
  · exact Or.inl rfl
  · exact Or.inr (Or.inl rfl)
  · exact Or.inr (Or.inr rfl)

theorem int64_of_range {i : Int64} (h : 0 ≤ i.toInt) (h' : i.toInt < 3) :
    i = 0 ∨ i = 1 ∨ i = 2 := by
  obtain h | h | h : i.toInt = 0 ∨ i.toInt = 1 ∨ i.toInt = 2 := by omega
  · exact Or.inl (Int64.toInt_inj.mp h)
  · exact Or.inr (Or.inl (Int64.toInt_inj.mp h))
  · exact Or.inr (Or.inr (Int64.toInt_inj.mp h))

/-- The comparison of the severity admits numbers only: every other type is on the same side of
all numbers. A number between the two bounds converts to 0, 1 or 2, in each of its
representations. -/
theorem getInt_of_range {sev : Json} (h : sev.ge 0 = true) (h' : sev.lt 3 = true) :
    ∃ i, sev.getInt = .ok i ∧ IsSeverity i := by
  have hlow : sev.lt 0 = false := by simpa [Json.ge] using h
  cases sev with
  | numberInteger i =>
    have hge : 0 ≤ i.toInt := by simpa [Json.lt] using hlow
    have hlt : i.toInt < 3 := by simpa [Json.lt] using h'
    rcases int64_of_range hge hlt with rfl | rfl | rfl
    · exact ⟨_, rfl, Or.inl rfl⟩
    · exact ⟨_, rfl, Or.inr (Or.inl rfl)⟩
    · exact ⟨_, rfl, Or.inr (Or.inr rfl)⟩
  | numberUnsigned u =>
    have hge : 0 ≤ u.toInt64.toInt := by simpa [Json.lt] using hlow
    have hlt : u.toInt64.toInt < 3 := by simpa [Json.lt] using h'
    have hu : u = u.toInt64.toUInt64 := (UInt64.toUInt64_toInt64 u).symm
    rcases int64_of_range hge hlt with h | h | h
    · exact ⟨_, rfl, Or.inl (by rw [hu, h]; rfl)⟩
    · exact ⟨_, rfl, Or.inr (Or.inl (by rw [hu, h]; rfl))⟩
    · exact ⟨_, rfl, Or.inr (Or.inr (by rw [hu, h]; rfl))⟩
  | numberFloat d =>
    have hge : 0 ≤ d.val := by simpa [Json.lt] using hlow
    have hlt : d.val < 3 := by simpa [Json.lt] using h'
    have htrunc : d.trunc = ⌊d.val⌋ := by rw [Double.trunc, if_pos hge]
    refine ⟨_, rfl, intOfDouble_of_trunc htrunc (Int.floor_nonneg.mpr hge) ?_⟩
    rw [Int.floor_lt]
    exact_mod_cast hlt
  | null => exact absurd hlow (by decide)
  | boolean b => exact absurd hlow (by simp [Json.lt, Json.typeOrder])
  | string s => exact absurd h' (by simp [Json.lt, Json.typeOrder])
  | array elems => exact absurd h' (by simp [Json.lt, Json.typeOrder])
  | object fields => exact absurd h' (by simp [Json.lt, Json.typeOrder])

theorem severityOfInt_ok {i : Int32} (h : IsSeverity i) :
    severityOfInt i = .ok i.toInt.toNat := by
  rcases h with rfl | rfl | rfl <;> rfl

theorem named_of_isSeverity {i : Int32} (h : IsSeverity i) :
    Severity.Named i.toInt.toNat := by
  rcases h with rfl | rfl | rfl <;> decide

theorem intField_of_find? {o j : Json} {key : List CChar} {i : Int32} (h : o.find? key = some j)
    (hi : j.getInt = .ok i) : intField o key = i := by
  rw [intField, field_of_find? h, hi]

/-- The severity stored for a valid version is one of the three. -/
theorem storedVersion_named {v : Json} (h : ValidVersion v) : (storedVersion v).severity.Named := by
  obtain ⟨-, -, -, sev, hsev, hrange⟩ := h
  rw [Bool.and_eq_true] at hrange
  obtain ⟨i, hi, his⟩ := getInt_of_range hrange.1 hrange.2
  rw [storedVersion, intField_of_find? hsev hi]
  exact named_of_isSeverity his

/-! ## Revisions -/

/-- A revision buffer with a documented string and NULs behind it. -/
def PaddedRevision (r : Vector CChar revisionSize) : Prop :=
  ∃ s, RevisionForm s ∧ s.length ≤ revisionSize ∧
    r.toList = s ++ List.replicate (revisionSize - s.length) 0

theorem length_le_of_isJsonRevisionValid {s : List CChar} (h : isJsonRevisionValid s = true) :
    s.length ≤ revisionSize := by
  rcases isRevisionValid_iff.mp h with h0 | ⟨hle, -⟩
  · omega
  · exact hle

theorem paddedRevision_of_valid {s : List CChar} (h : isJsonRevisionValid s = true) :
    PaddedRevision (strncpyBuf s revisionSize) := by
  have hlen := length_le_of_isJsonRevisionValid h
  have hcontent : (content s).length ≤ revisionSize := (length_content_le s).trans hlen
  have hform := content_of_isRevisionValid h
  rw [List.take_length] at hform
  refine ⟨content s, hform, hcontent, ?_⟩
  rw [toList_strncpyBuf, strncpy_eq, List.take_of_length_le hcontent]

theorem storedVersion_padded {v : Json} (h : ValidVersion v) :
    PaddedRevision (storedVersion v).version.revision := by
  obtain ⟨-, -, hrev, -⟩ := h
  obtain ⟨s, hs, hvalid⟩ := hasField_string_iff.mp hrev
  rw [storedVersion, stringField_of_find? hs]
  exact paddedRevision_of_valid hvalid

/-! ## Storing a version -/

section Programs

variable {σ : Type}

/-- A revision that is valid is copied without a request. -/
theorem stringRequests_of_valid {v : Json} (h : ValidVersion v) :
    stringRequests (stringField v REVISION) = 0 := by
  have hvalid := (isStringWith_field.mp (hasField_iff.mp h.2.2.1).2).2
  have hlen := length_le_of_isJsonRevisionValid hvalid
  rw [stringRequests, if_pos]
  exact hlen.trans (by decide)

/-- So is a severity that is valid, which is a number. -/
theorem copyRequests_of_range {sev : Json} (h : sev.ge 0 = true) (h' : sev.lt 3 = true) :
    sev.copyRequests = 0 := by
  cases sev with
  | string s => exact absurd h' (by simp [Json.lt, Json.typeOrder])
  | array elems => exact absurd h' (by simp [Json.lt, Json.typeOrder])
  | object fields => exact absurd h' (by simp [Json.lt, Json.typeOrder])
  | _ => rfl

theorem checkedCopies_of_valid {v : Json} (h : ValidVersion v) : checkedCopies v = 0 := by
  have hrange := (hasField_iff.mp h.2.2.2).2
  rw [Bool.and_eq_true] at hrange
  rw [checkedCopies, stringRequests_of_valid h, copyRequests_of_range hrange.1 hrange.2]
  simp

/-- A valid version is stored as `storedVersion`; none of its conversions can fail, and none of its
copies needs memory. -/
theorem parseVersion_copies {v : Json} (h : ValidVersion v) :
    Copies 0 (parseVersion v : Prog Raised σ ListVersion) (.ok (storedVersion v)) := by
  obtain ⟨b, hb, hiff⟩ := isVersionItem_decidesWith (σ := σ) v
  obtain rfl : b = true := hiff.mpr h
  rw [checkedCopies_of_valid h] at hb
  have hrevision := stringRequests_of_valid h
  obtain ⟨hmajor, hminor, hrev, hsev⟩ := h
  obtain ⟨hmajor, hmajorNum⟩ := hasField_iff.mp hmajor
  obtain ⟨hminor, hminorNum⟩ := hasField_iff.mp hminor
  obtain ⟨hrev, hrevString⟩ := hasField_iff.mp hrev
  obtain ⟨hsev, hrange⟩ := hasField_iff.mp hsev
  obtain ⟨i, hi⟩ := Json.getInt_of_isNumber hmajorNum
  obtain ⟨j, hj⟩ := Json.getInt_of_isNumber hminorNum
  rw [Bool.and_eq_true] at hrange
  obtain ⟨k, hk, hseverity⟩ := getInt_of_range hrange.1 hrange.2
  have hentry : ∀ {key : List CChar}, hasEntry v key = true →
      Copies 0 (entry v key : Prog Raised σ Json) (.ok (field v key)) := fun h =>
    field_copies (by rw [h]; rfl)
  have hint : ∀ {o : Json} {n : Int32}, o.getInt = .ok n →
      Copies 0 (getInt o : Prog Raised σ Int32) (.ok n) := fun ho => by
    rw [getInt, ho]
    exact .pure
  have hswitch : Copies 0 (ofExcept (severityOfInt k) : Prog Raised σ Severity)
      (.ok k.toInt.toNat) := by
    rw [severityOfInt_ok hseverity]
    exact .pure
  have hstring := @stringField_copies σ v REVISION
    (by rw [(isStringWith_field.mp hrevString).1]; rfl)
  rw [storedVersion, intField, intField, intField, hi, hj, hk]
  have hrest : Copies 0 (do
      let sev ← getInt (← entry v SEVERITY)
      let severity ← ofExcept (severityOfInt sev)
      return ⟨⟨i, j, strncpyBuf (stringField v REVISION) revisionSize⟩, severity⟩ :
        Prog Raised σ ListVersion)
      (.ok ⟨⟨i, j, strncpyBuf (stringField v REVISION) revisionSize⟩, k.toInt.toNat⟩) :=
    (hentry hsev).bind_zero ((hint hk).bind_zero (hswitch.bind_zero .pure))
  rw [hrevision] at hstring
  refine hb.bind_zero (Copies.pure.bind_zero ?_)
  refine (hentry hmajor).bind_zero ((hint hi).bind_zero ?_)
  refine (hentry hminor).bind_zero ((hint hj).bind_zero ?_)
  exact (hentry hrev).bind_zero (hstring.bind_zero hrest)

theorem parseVersion_refusesWith {v : Json} (h : ¬ ValidVersion v) :
    Copies (checkedCopies v) (parseVersion v : Prog Raised σ ListVersion)
      (.error .invalidItemError) := by
  obtain ⟨b, hb, hiff⟩ := isVersionItem_decidesWith (σ := σ) v
  obtain rfl : b = false := by
    rw [Bool.eq_false_iff]
    exact mt hiff.mp h
  exact hb.bind (k := 0) (.bind_error .throw)

theorem parseVersion_computes {v : Json} (h : ValidVersion v) :
    Computes (parseVersion v : Prog Raised σ ListVersion) (.ok (storedVersion v)) :=
  (parseVersion_copies h).computes

theorem parseVersion_refuses {v : Json} (h : ¬ ValidVersion v) :
    Computes (parseVersion v : Prog Raised σ ListVersion) (.error .invalidItemError) :=
  (parseVersion_refusesWith h).computes

end Programs

/-! ## Items -/

/-- What `check_item` accepts. -/
def CheckedItem (item : Json) : Prop :=
  item.isObject = true ∧
    HasField item NAME (isStringWith fun s => s.length ≤ nameSize && isSoftwareNameValid s.length) ∧
    HasField item LINK (isStringWith fun s => 1 ≤ s.length) ∧
    HasField item VERSIONS fun vers => vers.isArray && 1 ≤ vers.elements.length

instance (item : Json) : Decidable (CheckedItem item) := inferInstanceAs (Decidable (_ ∧ _))

def versionsField (item : Json) : List Json := (field item VERSIONS).elements

/-- An item that is parsed without an error: its fields are fine and so is every version. -/
def ValidItem (item : Json) : Prop :=
  CheckedItem item ∧ ∀ v ∈ versionsField item, ValidVersion v

instance (item : Json) : Decidable (ValidItem item) := inferInstanceAs (Decidable (_ ∧ _))

/-- What a list holds for one software, without pointers. -/
structure Entry where
  name : Vector CChar nameSize
  link : List CChar
  history : List ListVersion
  deriving DecidableEq

/-- What `parse_item` stores for a valid item. -/
def storedItem (item : Json) : Entry :=
  ⟨strncpyBuf (stringField item NAME) nameSize,
    strncpy (stringField item LINK) ((stringField item LINK).length + 1),
    (versionsField item).map storedVersion⟩

/-- The entries of the leading valid items. -/
def validPrefix (items : List Json) : List Entry :=
  (items.takeWhile fun item => ValidItem item).map storedItem

/-- The struct holds the entry. -/
structure Stores (sw : Software) (e : Entry) : Prop where
  name : sw.name = e.name
  link : sw.link.val? = some e.link
  versions : sw.versions.val? = some e.history
  numVersions : sw.numVersions = e.history.length

theorem Stores.history_eq {sw : Software} {e : Entry} (h : Stores sw e) :
    sw.history = e.history := by
  rw [Software.history, h.versions, h.numVersions]
  exact List.take_length

theorem Stores.linkBytes_eq {sw : Software} {e : Entry} (h : Stores sw e) :
    sw.linkBytes = e.link := by
  rw [Software.linkBytes, h.link]
  rfl

section Programs

variable {σ : Type}

/-- The length is compared twice: before the call of `is_software_name_valid` and in it. -/
theorem isJsonSoftwareValid_decidesWith (o : Json) (key : List CChar) :
    DecidesWith (stringRequests (stringField o key))
      (isJsonSoftwareValid (field o key) : Prog Raised σ Bool)
      (isStringWith (fun s => s.length ≤ nameSize && isSoftwareNameValid s.length)
        (field o key) = true) := by
  unfold stringField
  cases field o key with
  | string s =>
    refine DecidesWith.bind (k := 0) (getString_copies s) ?_
    by_cases hlen : s.length ≤ nameSize
    · rw [if_neg (not_lt.mpr hlen)]
      exact DecidesWith.pure.congr rfl (by simp [isStringWith, hlen])
    · rw [if_pos (not_le.mp hlen)]
      exact DecidesWith.pure.congr rfl (by simp [isStringWith, hlen])
  | _ => exact DecidesWith.pure.congr rfl (by simp [isStringWith])

/-- The requests of the copies that `check_item` makes: of the name, and of the link behind a valid
name, where these are strings. -/
def itemCopies (item : Json) : Nat :=
  if item.isObject then
    stringRequests (stringField item NAME) +
      if isStringWith (fun s => s.length ≤ nameSize && isSoftwareNameValid s.length)
        (field item NAME) then stringRequests (stringField item LINK) else 0
  else 0

theorem checkItem_checksWith (item : Json) :
    ChecksWith (itemCopies item) (checkItem item : Prog Raised σ Unit) .invalidItemError
      (CheckedItem item) := by
  refine ChecksWith.congr (.throwIf_bind fun _ => .throwIf_bind fun hname =>
    .bind (field_copies hname) (.throwUnless (isJsonSoftwareValid_decidesWith _ _) fun _ =>
      .throwIf_bind fun hlink => .bind (field_copies hlink) (.throwIf_bind fun hs =>
        .bind (stringField_copies hs) (.throwIf_bind fun _ => .throwIf_bind fun hvers =>
          .bind (field_copies hvers) (.throwIf_bind fun _ => .throwIf))))) ?_ ?_
  · simp only [itemCopies, Nat.add_zero, Nat.zero_add, ite_self]
    cases item.isObject with
    | false => rfl
    | true =>
      cases hname : hasEntry item NAME with
      | false =>
        rw [stringRequests_of_missing hname, field_of_missing hname]
        rfl
      | true =>
        cases hlink : hasEntry item LINK with
        | false =>
          rw [stringRequests_of_missing hlink]
          simp
        | true =>
          cases hstring : (field item LINK).isString with
          | false =>
            rw [stringRequests_of_not_isString hstring]
            simp
          | true => simp
  · rw [CheckedItem, hasField_iff, hasField_iff, hasField_iff, @isStringWith_field item LINK]
    simp only [Bool.not_eq_false', Bool.and_eq_true, decide_eq_true_eq, decide_eq_false_iff_not,
      not_lt, and_assoc]

theorem checkItem_checks (item : Json) :
    Checks (checkItem item : Prog Raised σ Unit) .invalidItemError (CheckedItem item) :=
  (checkItem_checksWith item).checks

end Programs

/-! ## Storing an item -/

/-- The slot in the middle of the loop over the versions: name and link are stored, and so are
the versions `seen`. -/
structure Filling (e : Entry) (seen : List ListVersion) (total : Nat) (sw : Software) : Prop where
  name : sw.name = e.name
  link : sw.link.val? = some e.link
  versions : ∃ block, sw.versions.val? = some block ∧ block.length = total ∧
    block.take seen.length = seen

theorem Filling.store {e : Entry} {seen : List ListVersion} {total : Nat} {sw : Software}
    (h : Filling e seen total sw) (lv : ListVersion) (hlt : seen.length < total) :
    Filling e (seen ++ [lv]) total (setVersion seen.length lv sw) := by
  obtain ⟨hname, hlink, block, hblock, hlen, htake⟩ := h
  obtain ⟨b, hb, rfl⟩ := Option.map_eq_some_iff.mp hblock
  refine ⟨hname, hlink, b.val.set seen.length lv, ?_, by simpa using hlen, ?_⟩
  · rw [setVersion, hb]
    rfl
  · rw [List.length_append, List.length_singleton, List.take_add_one, List.take_set_of_le le_rfl,
      htake, List.getElem?_set_self (by omega)]
    rfl

/-- How a parse ends that stores nothing: `φ` tells what is wrong with its input, or memory is
exhausted. -/
def Refused (φ : Prop) (e : Raised) (L : Ledger) : Prop :=
  e = .invalidItemError ∧ φ ∨ e = .badAlloc ∧ ¬ L.AllGranted

variable {G : Ledger → Prop} [Stable G]

/-- The loop over the versions stores them all, or releases the item at the first invalid one. -/
theorem parseVersions_spec {e : Entry} (seen : List ListVersion) (vers : List Json)
    (he : e.history = seen ++ vers.map storedVersion) :
    Triple (Within G (Filling e seen (seen.length + vers.length)))
      (parseVersions seen.length vers)
      (fun _ => Within G fun sw => (∀ v ∈ vers, ValidVersion v) ∧ Stores sw e)
      (fun r _ L => Refused (¬ ∀ v ∈ vers, ValidVersion v) r L ∧ G L) := by
  induction vers generalizing seen with
  | nil =>
    refine Triple.modifyObj fun sw L h => ⟨⟨by simp, ?_⟩, h.2⟩
    obtain ⟨hname, hlink, block, hblock, hlen, htake⟩ := h.1
    have hseen : block = seen := by
      rw [← htake, List.take_of_length_le (by simp [hlen])]
    have hhistory : e.history = seen := by simpa using he
    exact ⟨hname, hlink, by rw [hblock, hseen, hhistory], by rw [hhistory]⟩
  | cons v vers ih =>
    by_cases hv : ValidVersion v
    · refine (parseVersion_computes hv).bind_attempt ?_ ?_
      · refine Triple.bind_modifyObj (K := Filling e (seen ++ [storedVersion v])
          (seen.length + (v :: vers).length)) ?_ ?_
        · intro sw h
          exact h.store _ (by simp)
        · have hrest := ih (seen ++ [storedVersion v]) (by simpa using he)
          rw [List.length_append, List.length_singleton] at hrest
          have htotal : seen.length + (v :: vers).length = seen.length + 1 + vers.length := by
            simp only [List.length_cons]
            omega
          rw [htotal]
          refine hrest.conseq (fun _ _ => id) ?_ ?_
          · intro _ sw L hstate
            obtain ⟨⟨hall, hst⟩, hL⟩ := hstate
            exact ⟨⟨List.forall_mem_cons.mpr ⟨hv, hall⟩, hst⟩, hL⟩
          · intro r sw L hstate
            obtain ⟨hr, hL⟩ := hstate
            exact ⟨hr.imp_left fun hr => ⟨hr.1, fun h => hr.2 (List.forall_mem_cons.mp h).2⟩, hL⟩
      · exact Triple.throw fun sw L h => ⟨Or.inr ⟨rfl, h.2⟩, h.1.2⟩
    · refine (parseVersion_refuses hv).bind_attempt ?_ ?_
      · refine Triple.bind_readObj fun sw _ => Triple.bind_free (Triple.bind_free ?_)
        refine Triple.bind_modifyObj (K := fun _ => True) (fun _ _ => trivial) ?_
        refine Triple.throw fun _ L h => ⟨Or.inl ⟨rfl, fun hall => hv ?_⟩, h.2⟩
        exact (List.forall_mem_cons.mp hall).1
      · exact Triple.throw fun sw L h => ⟨Or.inr ⟨rfl, h.2⟩, h.1.2⟩

/-- `parse_item` stores a valid item as its entry and refuses any other item with
`InvalidItemError`. -/
theorem parseItem_spec (item : Json) :
    Triple (Within G fun _ => True) (parseItem item)
      (fun _ => Within G fun sw => ValidItem item ∧ Stores sw (storedItem item))
      (fun e _ L => Refused (¬ ValidItem item) e L ∧ G L) := by
  have hexhausted : ∀ {P : Software → Prop} (sw : Software) (L : Ledger), Within G P sw L →
      ¬ L.AllGranted → Refused (¬ ValidItem item) .badAlloc L ∧ G L := fun sw L h hnot =>
    ⟨Or.inr ⟨rfl, hnot⟩, h.2⟩
  by_cases hc : CheckedItem item
  · have hname := (hasField_iff.mp hc.2.1).1
    have hlink := (hasField_iff.mp hc.2.2.1).1
    have hvers := (hasField_iff.mp hc.2.2.2).1
    have hnameString := (isStringWith_field.mp (hasField_iff.mp hc.2.1).2).1
    have hlinkString := (isStringWith_field.mp (hasField_iff.mp hc.2.2.1).2).1
    refine ((checkItem_checks item).1 hc).bind_within ?_ hexhausted
    refine (field_copies (by simp [hname])).computes.bind_within ?_ hexhausted
    refine (stringField_copies (by simp [hnameString])).computes.bind_within ?_ hexhausted
    refine (field_copies (by simp [hlink])).computes.bind_within ?_ hexhausted
    refine (stringField_copies (by simp [hlinkString])).computes.bind_within ?_ hexhausted
    refine (field_copies (by simp [hvers])).computes.bind_within ?_ hexhausted
    refine Triple.bind_modifyObj (K := (· = Software.zero)) (fun _ _ => rfl) ?_
    refine Triple.bind_malloc_or_null (fun versions hversions => ?_) ?_
    · refine Triple.bind_modifyObj (K := fun sw => sw.versions = some versions)
        (fun _ _ => rfl) ?_
      refine Computes.pure.bind_within ?_ hexhausted
      refine Triple.bind_malloc_or_null (fun linkBlock hlinkBlock => ?_) ?_
      · refine Triple.bind_modifyObj
          (K := fun sw => sw.versions = some versions ∧ sw.link = some linkBlock)
          (fun _ h => ⟨h, rfl⟩) ?_
        refine Triple.bind_modifyObj
          (K := Filling (storedItem item) [] (0 + (versionsField item).length)) ?_ ?_
        · intro sw hstate
          obtain ⟨hv, hl⟩ := hstate
          refine ⟨rfl, ?_, versions.val, ?_, ?_, rfl⟩
          · simp [Ptr.val?, hl, hlinkBlock, storedItem]
          · simp [Ptr.val?, hv]
          · simp [hversions, versionsField]
        · refine (parseVersions_spec [] (versionsField item) rfl).conseq
            (fun _ _ => id) ?_ ?_
          · intro _ sw L hstate
            obtain ⟨⟨hall, hst⟩, hL⟩ := hstate
            exact ⟨⟨⟨hc, hall⟩, hst⟩, hL⟩
          · intro e sw L hstate
            obtain ⟨he, hL⟩ := hstate
            exact ⟨he.imp_left fun he => ⟨he.1, fun hvalid => he.2 hvalid.2⟩, hL⟩
      · exact fun sw L h => ⟨Or.inr ⟨rfl, h.2⟩, Stable.congr (by rfl) h.1.2⟩
    · exact fun sw L h => ⟨Or.inr ⟨rfl, h.2⟩, h.1.2⟩
  · refine ((checkItem_checks item).2 hc).bind_error_within (fun sw L h => ?_) hexhausted
    exact ⟨Or.inl ⟨rfl, fun hvalid => hc hvalid.1⟩, h.2⟩

end UpdateCheck.ListParser
