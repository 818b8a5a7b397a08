import UpdateCheck.ListParser.Entries

/-!
# The numbers of an item

Every conversion behind the validation finds a value it can convert: `parse_item` ends normally, or
in `InvalidItemError`, or for want of memory, and a severity that was let through is one of the
three the `switch` knows (`parseItem_ends`).

Whether the numbers survive their conversion is another matter. The validation asks for a number
where the format asks for an integer, and `get<int>` narrows whatever it is given; the stored
numbers are those of the document exactly where these fit an `int` (`parseVersion_numbers_iff`).
-/

namespace UpdateCheck

namespace Json

/-- The number a JSON value is. -/
def number? : Json → Option ℚ
  | numberUnsigned u => some u.toNat
  | numberInteger i => some i.toInt
  | numberFloat d => some d.val
  | _ => none

/-- The value is the integer. -/
def IsInt (j : Json) (i : Int32) : Prop := j.number? = some (i.toInt : ℚ)

/-- A number without a fractional part in the range of an `int`, by its representation. -/
def FitsInt : Json → Prop
  | numberUnsigned u => u.toNat < 2 ^ 31
  | numberInteger i => -2 ^ 31 ≤ i.toInt ∧ i.toInt < 2 ^ 31
  | numberFloat d => (⌊d.val⌋ : ℚ) = d.val ∧ -2 ^ 31 ≤ ⌊d.val⌋ ∧ ⌊d.val⌋ < 2 ^ 31
  | _ => False

theorem toInt_toInt32_of_lt {u : UInt64} (h : u.toNat < 2 ^ 31) :
    u.toUInt32.toInt32.toInt = u.toNat := by
  have hnat : u.toUInt32.toNat = u.toNat := by
    rw [UInt64.toNat_toUInt32]
    exact Nat.mod_eq_of_lt (by omega)
  change u.toUInt32.toBitVec.toInt = _
  rw [BitVec.toInt_eq_toNat_of_lt]
  · exact congrArg Nat.cast hnat
  · change 2 * u.toUInt32.toNat < _
    omega

theorem toInt_toInt32_of_range {i : Int64} (h : -2 ^ 31 ≤ i.toInt) (h' : i.toInt < 2 ^ 31) :
    i.toInt32.toInt = i.toInt := by
  rw [Int64.toInt_toInt32]
  exact Int.bmod_eq_of_le_mul_two (by omega) (by omega)

theorem trunc_of_floor {d : Double} (h : (⌊d.val⌋ : ℚ) = d.val) : d.trunc = ⌊d.val⌋ := by
  rw [Double.trunc]
  split
  · rfl
  · rw [← h, Int.ceil_intCast, Int.floor_intCast]

/-- A number that fits is converted to itself. -/
theorem FitsInt.getInt {j : Json} (h : j.FitsInt) : ∃ i, j.getInt = .ok i ∧ j.IsInt i := by
  cases j with
  | numberUnsigned u =>
    refine ⟨_, rfl, congrArg some ?_⟩
    rw [toInt_toInt32_of_lt h]
    rfl
  | numberInteger i =>
    refine ⟨_, rfl, congrArg some ?_⟩
    rw [toInt_toInt32_of_range h.1 h.2]
  | numberFloat d =>
    obtain ⟨hfloor, hlow, hhigh⟩ := h
    have htrunc := trunc_of_floor hfloor
    have hrange : -2 ^ 31 ≤ d.trunc ∧ d.trunc < 2 ^ 31 := by
      rw [htrunc]
      exact ⟨hlow, hhigh⟩
    refine ⟨_, rfl, congrArg some ?_⟩
    rw [intOfDouble, if_pos hrange, Int32.toInt_ofInt_of_le hrange.1 hrange.2, htrunc, hfloor]
  | _ => exact absurd h id

theorem IsInt.fitsInt {j : Json} {i : Int32} (h : j.IsInt i) : j.FitsInt := by
  have hlow := i.le_toInt
  have hhigh := i.toInt_lt
  cases j with
  | numberUnsigned u =>
    have hval : (u.toNat : ℚ) = (i.toInt : ℚ) := Option.some.inj h
    have hint : (u.toNat : Int) = i.toInt := by exact_mod_cast hval
    change u.toNat < 2 ^ 31
    omega
  | numberInteger k =>
    have hval : (k.toInt : ℚ) = (i.toInt : ℚ) := Option.some.inj h
    have hint : k.toInt = i.toInt := by exact_mod_cast hval
    change -2 ^ 31 ≤ k.toInt ∧ k.toInt < 2 ^ 31
    rw [hint]
    exact ⟨hlow, hhigh⟩
  | numberFloat d =>
    have hval : d.val = (i.toInt : ℚ) := Option.some.inj h
    have hfloor : ⌊d.val⌋ = i.toInt := by rw [hval, Int.floor_intCast]
    change (⌊d.val⌋ : ℚ) = d.val ∧ -2 ^ 31 ≤ ⌊d.val⌋ ∧ ⌊d.val⌋ < 2 ^ 31
    rw [hfloor]
    exact ⟨hval.symm, hlow, hhigh⟩
  | _ => cases h

end Json

namespace ListParser

/-! ## No access fails -/

/-- **Validation covers every later access.** Whatever the JSON value, `parse_item` ends normally or
in `InvalidItemError`, or in `std::bad_alloc` where a request is refused; and a version that
`is_version_item` accepts has a severity that converts to one of the values of the `switch`. -/
theorem parseItem_ends :
    (∀ (item : Json) (sw : Software) (L : Ledger),
      ((parseItem item).exec sw L).1 = .ok () ∨
        ((parseItem item).exec sw L).1 = .error .invalidItemError ∨
        ((parseItem item).exec sw L).1 = .error .badAlloc ∧ ¬ L.AllGranted) ∧
    (∀ (v : Json) (sw sw' : Software) (L L' : Ledger),
      (isVersionItem v).exec sw L = (.ok true, sw', L') →
        ∃ sev i severity, v.get SEVERITY = .ok sev ∧ sev.getInt = .ok i ∧
          (i = 0 ∨ i = 1 ∨ i = 2) ∧ severityOfInt i = .ok severity) := by
  constructor
  · intro item sw L
    have hspec := parseItem_spec (G := fun L' => L'.grant = L.grant) item sw L ⟨trivial, rfl⟩
    rcases hr : (parseItem item).exec sw L with ⟨e | u, sw', L'⟩
    · rw [hr] at hspec
      obtain ⟨⟨rfl, -⟩ | ⟨rfl, hnot⟩, hgrant⟩ := hspec
      · exact Or.inr (Or.inl rfl)
      · exact Or.inr (Or.inr ⟨rfl, fun hall => hnot (Stable.congr hgrant hall)⟩)
    · exact Or.inl rfl
  · intro v sw sw' L L' hexec
    obtain ⟨b, hb, hvalid⟩ := isVersionItem_decides (σ := Software) v
    obtain ⟨r, K, hrun, -, hr⟩ := hb sw L
    rw [hrun] at hexec
    have hok : r = .ok true := congrArg Prod.fst hexec
    obtain rfl : b = true := by
      rcases hr with hr | ⟨hr, -⟩
      · exact Except.ok.inj (hr.symm.trans hok)
      · cases hr.symm.trans hok
    obtain ⟨-, -, -, sev, hsev, hrange⟩ := hvalid.mp rfl
    rw [Bool.and_eq_true] at hrange
    obtain ⟨i, hi, hthree⟩ := getInt_of_range hrange.1 hrange.2
    exact ⟨sev, i, _, Json.get_of_find? hsev, hi, hthree, severityOfInt_ok hthree⟩

/-! ## Kept numbers -/

/-- The version holds the integers the object has for its numbers. -/
structure KeepsNumbers (v : Json) (lv : ListVersion) : Prop where
  major : (field v MAJOR).IsInt lv.version.major
  minor : (field v MINOR).IsInt lv.version.minor
  severity : lv.severity.Named ∧ (field v SEVERITY).number? = some (lv.severity : ℚ)

/-- The numbers of the object are those of some version. -/
def WholeNumbers (v : Json) : Prop := ∃ lv, KeepsNumbers v lv

/-- The numbers of the object have no fractional parts and are in the range of an `int`. -/
def NumbersFit (v : Json) : Prop :=
  (field v MAJOR).FitsInt ∧ (field v MINOR).FitsInt ∧ (field v SEVERITY).FitsInt

theorem intField_of_getInt {o : Json} {key : List CChar} {i : Int32}
    (h : (field o key).getInt = .ok i) : intField o key = i := by
  rw [intField, h]

theorem IsSeverity.cast_toNat {i : Int32} (h : IsSeverity i) :
    ((i.toInt.toNat : Severity) : ℚ) = (i.toInt : ℚ) := by
  rcases h with rfl | rfl | rfl <;> decide

theorem keepsNumbers_storedVersion {v : Json} (hvalid : ValidVersion v) (hfit : NumbersFit v) :
    KeepsNumbers v (storedVersion v) := by
  obtain ⟨hmajor, hminor, hseverity⟩ := hfit
  obtain ⟨major, hmajor, hmajorInt⟩ := hmajor.getInt
  obtain ⟨minor, hminor, hminorInt⟩ := hminor.getInt
  obtain ⟨severity, hseverity, hseverityInt⟩ := hseverity.getInt
  have hnamed := storedVersion_named hvalid
  rw [storedVersion, intField_of_getInt hmajor, intField_of_getInt hminor]
  refine ⟨hmajorInt, hminorInt, hnamed, ?_⟩
  obtain ⟨-, -, -, sev, hsev, hrange⟩ := hvalid
  rw [Bool.and_eq_true] at hrange
  obtain ⟨i, hi, hthree⟩ := getInt_of_range hrange.1 hrange.2
  rw [field_of_find? hsev] at hseverity hseverityInt
  cases hi.symm.trans hseverity
  rw [intField_of_find? hsev hi, hthree.cast_toNat, field_of_find? hsev]
  exact hseverityInt

theorem KeepsNumbers.numbersFit {v : Json} {lv : ListVersion} (h : KeepsNumbers v lv) :
    NumbersFit v := by
  obtain ⟨hmajor, hminor, hnamed, hseverity⟩ := h
  refine ⟨hmajor.fitsInt, hminor.fitsInt, Json.IsInt.fitsInt (i := Int32.ofNat lv.severity) ?_⟩
  rw [Json.IsInt, hseverity]
  rcases hnamed with h | h | h <;> rw [h] <;> rfl

/-- An outcome of `parse_version` that keeps the numbers or refuses the object. -/
def Preserves (v : Json) (r : Except Raised ListVersion) (L : Ledger) : Prop :=
  (∀ lv, r = .ok lv → KeepsNumbers v lv) ∧
    (¬ WholeNumbers v → r = .error .invalidItemError ∨ r = .error .badAlloc ∧ ¬ L.AllGranted)

/-- **Numbers are kept where they fit.** Every run of `parse_version` on an object keeps its numbers,
or refuses it for them, exactly if the object is refused for something else than the fit of its
numbers, or the numbers fit an `int`. -/
theorem parseVersion_numbers_iff (v : Json) :
    (∀ (sw : Software) (L : Ledger), Preserves v ((parseVersion v).exec sw L).1 L) ↔
      (ValidVersion v → NumbersFit v) := by
  constructor
  · intro h hvalid
    obtain ⟨r, L', hexec, -, rfl | ⟨-, hnot⟩⟩ :=
      parseVersion_computes (σ := Software) hvalid .zero (.start fun _ => true)
    · have hkeeps := (h .zero (.start fun _ => true)).1 (storedVersion v) (by rw [hexec])
      exact hkeeps.numbersFit
    · exact absurd (fun _ => rfl) hnot
  · intro h sw L
    by_cases hvalid : ValidVersion v
    · have hkeeps := keepsNumbers_storedVersion hvalid (h hvalid)
      obtain ⟨r, L', hexec, -, hr⟩ := parseVersion_computes (σ := Software) hvalid sw L
      rw [hexec]
      refine ⟨fun lv hlv => ?_, fun hwhole => absurd ⟨_, hkeeps⟩ hwhole⟩
      rcases hr with rfl | ⟨rfl, -⟩
      · cases hlv
        exact hkeeps
      · cases hlv
    · obtain ⟨r, L', hexec, -, hr⟩ := parseVersion_refuses (σ := Software) hvalid sw L
      rw [hexec]
      refine ⟨fun lv hlv => ?_, fun _ => hr⟩
      rcases hr with rfl | ⟨rfl, -⟩ <;> cases hlv

/-- A version object with major number 4294967297, one more than an `int` has values. -/
def wideVersion : Json :=
  .object [(MAJOR, .numberUnsigned 4294967297), (MINOR, .numberUnsigned 0),
    (REVISION, .string []), (SEVERITY, .numberUnsigned 0)]

/-- The major number 4294967297 is stored as 1. -/
theorem parseVersion_wide :
    ((parseVersion wideVersion).exec Software.zero (.start fun _ => true)).1 =
        .ok ⟨⟨1, 0, strncpyBuf [] revisionSize⟩, sevFeature⟩ ∧
      ¬ ∀ (v : Json) (sw : Software) (L : Ledger),
        Preserves v ((parseVersion v).exec sw L).1 L := by
  have hexec : ((parseVersion wideVersion).exec Software.zero (.start fun _ => true)).1 =
      .ok ⟨⟨1, 0, strncpyBuf [] revisionSize⟩, sevFeature⟩ := rfl
  refine ⟨hexec, fun h => ?_⟩
  have hfit := ((h wideVersion .zero (.start fun _ => true)).1 _ hexec).numbersFit.1
  revert hfit
  change ¬ (4294967297 : UInt64).toNat < 2 ^ 31
  decide

end ListParser

end UpdateCheck
