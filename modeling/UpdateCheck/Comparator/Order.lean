import UpdateCheck.Types
import Mathlib.Data.List.Lex
import Mathlib.Data.Prod.Lex

/-!
# The version order

`compareVersion` is written as the source writes it: three keys compared in turn, the third one
byte by byte over the whole revision buffer. It is then shown to compare in the linear order of
`versionKey`, lexicographically the major number, the minor number and the folded revision
(`compareVersion_eq`). Everything else about the order follows from that one equation.

On revisions of the documented form the NUL padding stands in for the length of the string, and
the comparison is the documented one of the strings themselves (`compareRevision_documented`).
-/

namespace UpdateCheck.Comparator

/-! ## The comparison of the source -/

inductive VersionDiff where
  | older
  | same
  | newer
  deriving DecidableEq, Repr

/-- `COMP_NUM`, followed by what comes next where it does not return. -/
def compNum (l r : Int) (next : VersionDiff) : VersionDiff :=
  if l > r then .newer else if l < r then .older else next

def ltrToLwr (c : CChar) : Int := if isalpha c.toInt then tolower c.toInt else c.toInt

/-- The loop of `compare_revision` from one position on. -/
def compareRevisionFrom : List CChar → List CChar → VersionDiff
  | l :: first, r :: second => compNum (ltrToLwr l) (ltrToLwr r) (compareRevisionFrom first second)
  | _, _ => .same

def compareRevision (first second : Vector CChar revisionSize) : VersionDiff :=
  compareRevisionFrom first.toList second.toList

/-- `copy_version`: the new destination. -/
def copyVersion (dst src : EupdVersion) : EupdVersion :=
  { dst with major := src.major, minor := src.minor, revision := src.revision }

def compareVersion (first second : EupdVersion) : VersionDiff :=
  compNum first.major.toInt second.major.toInt <|
    compNum first.minor.toInt second.minor.toInt <|
      compareRevision first.revision second.revision

@[simp] theorem copyVersion_eq (dst src : EupdVersion) : copyVersion dst src = src := rfl

/-! ## Comparison in a linear order -/

section Compare

variable {β : Type*} [LinearOrder β]

/-- The three-way comparison of a linear order. -/
def VersionDiff.of (a b : β) : VersionDiff := if b < a then .newer else if a < b then .older else .same

variable {a b : β}

@[simp] theorem VersionDiff.of_eq_newer : VersionDiff.of a b = .newer ↔ b < a := by
  unfold VersionDiff.of
  split_ifs with h h'
  · simp [h]
  · simp [h]
  · simp [h]

@[simp] theorem VersionDiff.of_eq_older : VersionDiff.of a b = .older ↔ a < b := by
  unfold VersionDiff.of
  split_ifs with h h'
  · simp [h.le]
  · simp [h']
  · simp [h']

@[simp] theorem VersionDiff.of_eq_same : VersionDiff.of a b = .same ↔ a = b := by
  unfold VersionDiff.of
  split_ifs with h h'
  · simp [h.ne']
  · simp [h'.ne]
  · simpa using le_antisymm (not_lt.mp h) (not_lt.mp h')

theorem compNum_eq (l r : Int) (x y : β) :
    compNum l r (VersionDiff.of x y) = VersionDiff.of (toLex (l, x)) (toLex (r, y)) := by
  unfold compNum VersionDiff.of
  simp only [gt_iff_lt, Prod.Lex.toLex_lt_toLex]
  rcases lt_trichotomy l r with h | h | h
  · simp [h, h.not_gt, h.ne']
  · simp [h]
  · simp [h]

end Compare

/-! ## Keys -/

/-- The folded bytes of a revision buffer. -/
def revisionKey (r : Vector CChar revisionSize) : List Int := r.toList.map ltrToLwr

/-- The three keys of a version, most significant first. -/
def versionKey (v : EupdVersion) : ℤ ×ₗ ℤ ×ₗ List ℤ :=
  toLex (v.major.toInt, toLex (v.minor.toInt, revisionKey v.revision))

theorem ltrToLwr_eq (c : CChar) : ltrToLwr c = c.lower.toInt := (CChar.toInt_lower c).symm

theorem map_ltrToLwr_inj {a b : List CChar} :
    a.map ltrToLwr = b.map ltrToLwr ↔ SameFold a b := by
  have h : ∀ s : List CChar, s.map ltrToLwr = (s.map CChar.lower).map CChar.toInt := fun s => by
    rw [List.map_map]
    exact List.map_congr_left fun c _ => ltrToLwr_eq c
  rw [h, h]
  exact (List.map_injective_iff.mpr fun x y => CChar.toInt_inj.mp).eq_iff

theorem cons_of (l r : Int) (x y : List Int) :
    VersionDiff.of (toLex (l, x)) (toLex (r, y)) = VersionDiff.of (l :: x) (r :: y) := by
  unfold VersionDiff.of
  simp only [Prod.Lex.toLex_lt_toLex, List.cons_lt_cons_iff]

/-- The loop over two buffers of one length compares their folded bytes lexicographically. -/
theorem compareRevisionFrom_eq {a b : List CChar} (h : a.length = b.length) :
    compareRevisionFrom a b = VersionDiff.of (a.map ltrToLwr) (b.map ltrToLwr) := by
  induction a generalizing b with
  | nil =>
    obtain rfl := List.length_eq_zero_iff.mp h.symm
    exact (VersionDiff.of_eq_same.mpr rfl).symm
  | cons x a ih =>
    cases b with
    | nil => cases h
    | cons y b =>
      rw [compareRevisionFrom, ih (by simpa using h), compNum_eq, cons_of]
      rfl

theorem compareRevision_eq (a b : Vector CChar revisionSize) :
    compareRevision a b = VersionDiff.of (revisionKey a) (revisionKey b) :=
  compareRevisionFrom_eq (by simp)

/-- `compare_version` is the comparison of the keys. -/
theorem compareVersion_eq (a b : EupdVersion) :
    compareVersion a b = VersionDiff.of (versionKey a) (versionKey b) := by
  rw [compareVersion, compareRevision_eq, compNum_eq, compNum_eq]
  rfl

@[simp] theorem compareVersion_newer {a b : EupdVersion} :
    compareVersion a b = .newer ↔ versionKey b < versionKey a := by
  rw [compareVersion_eq, VersionDiff.of_eq_newer]

@[simp] theorem compareVersion_older {a b : EupdVersion} :
    compareVersion a b = .older ↔ versionKey a < versionKey b := by
  rw [compareVersion_eq, VersionDiff.of_eq_older]

@[simp] theorem compareVersion_same {a b : EupdVersion} :
    compareVersion a b = .same ↔ versionKey a = versionKey b := by
  rw [compareVersion_eq, VersionDiff.of_eq_same]

theorem compareVersion_not_newer {a b : EupdVersion} :
    compareVersion a b ≠ .newer ↔ versionKey a ≤ versionKey b := by
  rw [ne_eq, compareVersion_newer, not_lt]

/-- Two versions have the same key exactly when their numbers are equal and their revisions
agree byte for byte up to letter case. -/
theorem versionKey_inj {a b : EupdVersion} :
    versionKey a = versionKey b ↔ a.major = b.major ∧ a.minor = b.minor ∧
      SameFold a.revision.toList b.revision.toList := by
  rw [versionKey, versionKey, toLex_inj, Prod.mk.injEq, toLex_inj, Prod.mk.injEq, Int32.toInt_inj,
    Int32.toInt_inj, revisionKey, revisionKey, map_ltrToLwr_inj]

/-! ## The documented order of revisions -/

/-- A revision string of the documented form, of at most four characters. -/
def DocumentedRevision (s : List CChar) : Prop := s.length ≤ revisionSize ∧ RevisionForm s

/-- The documented significance of a revision string: the ASCII codes of its lower-cased
characters, compared lexicographically, so that a proper prefix is lower than its extensions
and the empty string is the lowest. -/
def documentedKey (s : List CChar) : List Nat := s.map fun c => c.lower.toNat

theorem ltrToLwr_of_isAlnum {c : CChar} (h : c.IsAlnum) : ltrToLwr c = c.lower.toNat := by
  have hpos := h.pos
  have hb := c.toNat_lt
  rw [ltrToLwr_eq]
  have hl := CChar.lower_toNat c
  unfold CChar.toInt at hpos ⊢
  rw [hl]
  grind

theorem lower_pos {c : CChar} (h : c.IsAlnum) : 0 < c.lower.toNat := by
  have := h.ne_zero
  rw [Nat.pos_iff_ne_zero]
  intro h0
  exact this (CChar.lower_eq_zero.mp (UInt8.toNat_inj.mp h0))

/-- The zero padding of one buffer never outweighs a character of the other. -/
theorem compareRevisionFrom_padded {s t : List CChar} (hs : ∀ c ∈ s, c.IsAlnum)
    (ht : ∀ c ∈ t, c.IsAlnum) (m k : Nat) (hlen : s.length + m = t.length + k) :
    compareRevisionFrom (s ++ List.replicate m 0) (t ++ List.replicate k 0) =
      VersionDiff.of (documentedKey s) (documentedKey t) := by
  induction s generalizing t m k with
  | nil =>
    cases t with
    | nil =>
      obtain rfl : m = k := by simpa using hlen
      rw [compareRevisionFrom_eq rfl, VersionDiff.of_eq_same.mpr rfl]
      exact (VersionDiff.of_eq_same.mpr rfl).symm
    | cons y t =>
      obtain ⟨m, rfl⟩ : ∃ m', m = m' + 1 := ⟨m - 1, by simp at hlen; omega⟩
      have hy := ht y List.mem_cons_self
      have hlt : ltrToLwr 0 < ltrToLwr y := by
        rw [ltrToLwr_of_isAlnum hy]
        have := lower_pos hy
        change (0 : Int) < _
        omega
      have hkey : VersionDiff.of (documentedKey []) (documentedKey (y :: t)) = .older :=
        VersionDiff.of_eq_older.mpr (List.nil_lt_cons _ _)
      rw [hkey, List.nil_append, List.replicate_succ, List.cons_append, compareRevisionFrom,
        compNum, if_neg (by omega), if_pos hlt]
  | cons x s ih =>
    have hx := hs x List.mem_cons_self
    have hs' : ∀ c ∈ s, c.IsAlnum := fun c hc => hs c (List.mem_cons_of_mem _ hc)
    cases t with
    | nil =>
      obtain ⟨k, rfl⟩ : ∃ k', k = k' + 1 := ⟨k - 1, by simp at hlen; omega⟩
      have hlt : ltrToLwr 0 < ltrToLwr x := by
        rw [ltrToLwr_of_isAlnum hx]
        have := lower_pos hx
        change (0 : Int) < _
        omega
      have hkey : VersionDiff.of (documentedKey (x :: s)) (documentedKey []) = .newer :=
        VersionDiff.of_eq_newer.mpr (List.nil_lt_cons _ _)
      rw [hkey, List.nil_append, List.replicate_succ, List.cons_append, compareRevisionFrom,
        compNum, if_pos hlt]
    | cons y t =>
      have hy := ht y List.mem_cons_self
      have ht' : ∀ c ∈ t, c.IsAlnum := fun c hc => ht c (List.mem_cons_of_mem _ hc)
      rw [List.cons_append, List.cons_append, compareRevisionFrom,
        ih hs' ht' m k (by simp at hlen; omega), compNum_eq, ltrToLwr_of_isAlnum hx,
        ltrToLwr_of_isAlnum hy]
      unfold VersionDiff.of documentedKey
      simp only [Prod.Lex.toLex_lt_toLex, List.map_cons, List.cons_lt_cons_iff, Int.ofNat_lt,
        Int.ofNat_inj]

theorem compareRevision_documented {s t : List CChar} (hs : DocumentedRevision s)
    (ht : DocumentedRevision t) :
    compareRevision (strncpyBuf s revisionSize) (strncpyBuf t revisionSize) =
      VersionDiff.of (documentedKey s) (documentedKey t) := by
  have hpad : ∀ {u : List CChar}, DocumentedRevision u →
      strncpy u revisionSize = u ++ List.replicate (revisionSize - u.length) 0 := by
    intro u hu
    rw [strncpy_eq, content_eq_self hu.2.zero_notMem, List.take_of_length_le hu.1]
  rw [compareRevision, toList_strncpyBuf, toList_strncpyBuf, hpad hs, hpad ht]
  have h1 := hs.1
  have h2 := ht.1
  exact compareRevisionFrom_padded hs.2.isAlnum ht.2.isAlnum _ _ (by omega)

/-! ## The law of the comparison -/

/-- **The version order.** `compare_version` is a total preorder in which the major number
dominates the minor number and the minor number the revision; two versions are the same exactly
when their numbers are equal and their revisions agree up to letter case; on revisions of the
documented form the comparison is the documented one. -/
theorem compareVersion_order :
    (∀ a : EupdVersion, compareVersion a a = .same) ∧
    (∀ a b : EupdVersion, compareVersion a b = .newer ↔ compareVersion b a = .older) ∧
    (∀ a b c : EupdVersion, compareVersion a b ≠ .newer → compareVersion b c ≠ .newer →
      compareVersion a c ≠ .newer) ∧
    (∀ a b : EupdVersion, compareVersion a b = .same ↔
      a.major = b.major ∧ a.minor = b.minor ∧ SameFold a.revision.toList b.revision.toList) ∧
    (∀ a b : EupdVersion, a.major < b.major → compareVersion a b = .older) ∧
    (∀ a b : EupdVersion, a.major = b.major → a.minor < b.minor → compareVersion a b = .older) ∧
    (∀ a b : EupdVersion, a.major = b.major → a.minor = b.minor →
      compareVersion a b = compareRevision a.revision b.revision) ∧
    (∀ s t : List CChar, DocumentedRevision s → DocumentedRevision t →
      compareRevision (strncpyBuf s revisionSize) (strncpyBuf t revisionSize) =
        VersionDiff.of (documentedKey s) (documentedKey t)) := by
  refine ⟨?_, ?_, ?_, ?_, ?_, ?_, ?_, ?_⟩
  · intro a
    exact compareVersion_same.mpr rfl
  · intro a b
    rw [compareVersion_newer, compareVersion_older]
  · intro a b c hab hbc
    rw [compareVersion_not_newer] at hab hbc ⊢
    exact hab.trans hbc
  · intro a b
    rw [compareVersion_same, versionKey_inj]
  · intro a b h
    rw [compareVersion_older, versionKey, versionKey, Prod.Lex.toLex_lt_toLex]
    exact Or.inl (Int32.lt_iff_toInt_lt.mp h)
  · intro a b hmaj hmin
    rw [compareVersion_older, versionKey, versionKey, Prod.Lex.toLex_lt_toLex,
      Prod.Lex.toLex_lt_toLex, hmaj]
    exact Or.inr ⟨rfl, Or.inl (Int32.lt_iff_toInt_lt.mp hmin)⟩
  · intro a b hmaj hmin
    rw [compareVersion, hmaj, hmin]
    simp [compNum]
  · intro s t
    exact compareRevision_documented

end UpdateCheck.Comparator
