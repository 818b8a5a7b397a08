import Mathlib.Data.List.TakeWhile
import Mathlib.Tactic.Common

/-!
# Characters and strings of C

A `char` is one byte. On the targets of the library it is signed, so a byte from `0x80` on
promotes to a negative `int` (`CChar.toInt`); the functions of `ctype.h` are those of the C
locale. A C string is the part of a byte block before its first NUL (`content`); a block that
holds no NUL is a full, unterminated buffer and counts to its end.

* `content_strncpy`: what `strncpy` stores is the leading part of its source.
* `strncasecmp_eq_zero_iff`: two buffers of the compared length are equal for `strncasecmp`
  exactly when their contents agree up to letter case.
-/

namespace UpdateCheck

abbrev CChar := UInt8

/-! ## Characters -/

/-- The value of a `char` promoted to `int`, where `char` is a signed type. -/
def CChar.toInt (c : CChar) : Int :=
  if c.toNat < 128 then c.toNat else (c.toNat : Int) - 256

/-- `isalpha` in the C locale. -/
def isalpha (c : Int) : Bool := (65 ≤ c && c ≤ 90) || (97 ≤ c && c ≤ 122)

def isdigit (c : Int) : Bool := 48 ≤ c && c ≤ 57

/-- `tolower` in the C locale. -/
def tolower (c : Int) : Int := if 65 ≤ c ∧ c ≤ 90 then c + 32 else c

/-- The byte with an upper-case letter replaced by its lower-case one. -/
def CChar.lower (c : CChar) : CChar := if 65 ≤ c.toNat ∧ c.toNat ≤ 90 then c + 32 else c

def CChar.IsLetter (c : CChar) : Prop := isalpha c.toInt = true

def CChar.IsAlnum (c : CChar) : Prop := isalpha c.toInt = true ∨ isdigit c.toInt = true

instance (c : CChar) : Decidable c.IsLetter := inferInstanceAs (Decidable (_ = true))

instance (c : CChar) : Decidable c.IsAlnum := inferInstanceAs (Decidable (_ ∨ _))

namespace CChar

theorem toInt_inj {a b : CChar} : a.toInt = b.toInt ↔ a = b := by
  have ha := a.toNat_lt
  have hb := b.toNat_lt
  rw [← UInt8.toNat_inj]
  unfold toInt
  split <;> split <;> omega

@[simp] theorem toInt_zero : toInt 0 = 0 := rfl

theorem toInt_eq_zero {c : CChar} : c.toInt = 0 ↔ c = 0 := by
  rw [← toInt_zero, toInt_inj]

theorem toInt_neg_iff (c : CChar) : c.toInt < 0 ↔ 128 ≤ c.toNat := by
  have := c.toNat_lt
  unfold toInt
  split <;> omega

theorem lower_toNat (c : CChar) :
    c.lower.toNat = if 65 ≤ c.toNat ∧ c.toNat ≤ 90 then c.toNat + 32 else c.toNat := by
  unfold lower
  split
  · rw [UInt8.toNat_add]
    simp only [UInt8.reduceToNat]
    omega
  · rfl

@[simp] theorem lower_zero : lower 0 = 0 := rfl

theorem lower_eq_zero {c : CChar} : c.lower = 0 ↔ c = 0 := by
  rw [← UInt8.toNat_inj, ← UInt8.toNat_inj, lower_toNat]
  simp only [UInt8.toNat_zero]
  split <;> omega

/-- A case fold that looks at the promoted value agrees with the fold of the byte: no negative
`char` is a letter. -/
theorem toInt_lower (c : CChar) :
    c.lower.toInt = if isalpha c.toInt then tolower c.toInt else c.toInt := by
  have := c.toNat_lt
  have hl := lower_toNat c
  unfold toInt isalpha tolower
  simp only [Bool.or_eq_true, Bool.and_eq_true, decide_eq_true_eq]
  rw [hl]
  grind

/-- The fold of the unsigned byte, as `strncasecmp` makes it, separates the same bytes. -/
theorem tolower_toNat_inj {a b : CChar} :
    tolower (a.toNat : Int) = tolower (b.toNat : Int) ↔ a.lower = b.lower := by
  rw [← UInt8.toNat_inj, lower_toNat, lower_toNat]
  unfold tolower
  grind

theorem IsAlnum.pos {c : CChar} (h : c.IsAlnum) : 0 < c.toInt := by
  simp only [IsAlnum, isalpha, isdigit, Bool.or_eq_true, Bool.and_eq_true,
    decide_eq_true_eq] at h
  omega

theorem IsLetter.isAlnum {c : CChar} (h : c.IsLetter) : c.IsAlnum := Or.inl h

theorem IsAlnum.ne_zero {c : CChar} (h : c.IsAlnum) : c ≠ 0 := by
  rintro rfl
  exact absurd h.pos (by decide)

end CChar

/-! ## Strings -/

/-- The content of a byte block read as a C string: the bytes before the first NUL, or all of
them where there is none. -/
def content (s : List CChar) : List CChar := s.takeWhile (· != 0)

/-- `strncpy` of at most `n` bytes: the source up to its terminator, then NULs up to `n`. The
end of the list stands for the terminator of `std::string::c_str`. -/
def strncpy : List CChar → Nat → List CChar
  | _, 0 => []
  | [], n + 1 => 0 :: strncpy [] n
  | c :: cs, n + 1 => if c = 0 then 0 :: strncpy [] n else c :: strncpy cs n

/-- `strncasecmp`: the difference of the first two folded bytes that differ, `0` where the
strings end together or the first `n` bytes agree. -/
def strncasecmp : List CChar → List CChar → Nat → Int
  | a :: as, b :: bs, n + 1 =>
    let l := tolower a.toNat
    let r := tolower b.toNat
    if l ≠ r then l - r
    else if a = 0 then 0
    else strncasecmp as bs n
  | _, _, _ => 0

/-- Two contents agree byte for byte up to ASCII letter case. -/
def SameFold (a b : List CChar) : Prop := a.map CChar.lower = b.map CChar.lower

instance (a b : List CChar) : Decidable (SameFold a b) := inferInstanceAs (Decidable (_ = _))

theorem SameFold.refl (a : List CChar) : SameFold a a := rfl

theorem SameFold.symm {a b : List CChar} (h : SameFold a b) : SameFold b a := Eq.symm h

theorem SameFold.trans {a b c : List CChar} (h : SameFold a b) (h' : SameFold b c) :
    SameFold a c := Eq.trans h h'

@[simp] theorem content_nil : content [] = [] := rfl

theorem content_cons (c : CChar) (s : List CChar) :
    content (c :: s) = if c = 0 then [] else c :: content s := by
  by_cases h : c = 0 <;> simp [content, h]

@[simp] theorem content_zero_cons (s : List CChar) : content (0 :: s) = [] := rfl

theorem zero_notMem_content (s : List CChar) : 0 ∉ content s := by
  intro h
  simpa using List.mem_takeWhile_imp h

theorem content_eq_self {s : List CChar} (h : 0 ∉ s) : content s = s := by
  rw [content, List.takeWhile_eq_self_iff]
  intro c hc
  simp only [bne_iff_ne]
  rintro rfl
  exact h hc

theorem content_append_zero (s t : List CChar) : content (s ++ 0 :: t) = content s := by
  induction s with
  | nil => rfl
  | cons c s ih => simp only [List.cons_append, content_cons, ih]

theorem content_append_replicate (s : List CChar) (n : Nat) :
    content (s ++ List.replicate n 0) = content s := by
  cases n with
  | zero => simp
  | succ n => rw [List.replicate_succ, content_append_zero]

theorem content_append_of_mem {s : List CChar} (h : 0 ∈ s) (t : List CChar) :
    content (s ++ t) = content s := by
  obtain ⟨before, after, rfl⟩ := List.append_of_mem h
  rw [List.append_assoc, List.cons_append, content_append_zero, content_append_zero]

theorem content_append_of_notMem {s : List CChar} (h : 0 ∉ s) (t : List CChar) :
    content (s ++ t) = s ++ content t := by
  induction s with
  | nil => rfl
  | cons c s ih =>
    rw [List.mem_cons, not_or] at h
    obtain ⟨hc, hs⟩ := h
    rw [List.cons_append, content_cons, if_neg (Ne.symm hc), ih hs, List.cons_append]

theorem length_content_lt {s : List CChar} (h : 0 ∈ s) : (content s).length < s.length := by
  obtain ⟨before, after, rfl⟩ := List.append_of_mem h
  rw [content_append_zero, List.length_append, List.length_cons]
  have hle := (List.takeWhile_sublist (· != 0) (l := before)).length_le
  exact Nat.lt_of_le_of_lt hle (by omega)

/-- Behind the content of a buffer that is longer stands its terminator. -/
theorem getElem?_length_content {s : List CChar} (h : (content s).length < s.length) :
    s[(content s).length]? = some 0 := by
  induction s with
  | nil => exact absurd h (Nat.lt_irrefl 0)
  | cons c s ih =>
    rw [content_cons] at h ⊢
    by_cases hc : c = 0
    · rw [if_pos hc, hc]
      rfl
    · rw [if_neg hc] at h ⊢
      rw [List.length_cons, List.getElem?_cons_succ]
      exact ih (by simpa using h)

theorem length_content_le (s : List CChar) : (content s).length ≤ s.length :=
  (List.takeWhile_sublist _).length_le

theorem strncpy_nil (n : Nat) : strncpy [] n = List.replicate n 0 := by
  induction n with
  | zero => rfl
  | succ n ih => rw [strncpy, ih, List.replicate_succ]

theorem strncpy_eq (s : List CChar) (n : Nat) :
    strncpy s n = (content s).take n ++ List.replicate (n - (content s).length) 0 := by
  induction s generalizing n with
  | nil => simp [strncpy_nil]
  | cons c s ih =>
    cases n with
    | zero => simp [strncpy]
    | succ n =>
      rw [strncpy, content_cons]
      split
      · simp [strncpy_nil, List.replicate_succ]
      · simp [ih]

@[simp] theorem length_strncpy (s : List CChar) (n : Nat) : (strncpy s n).length = n := by
  rw [strncpy_eq]
  simp only [List.length_append, List.length_take, List.length_replicate]
  omega

/-- `strncpy` into a fixed buffer, all of it. -/
def strncpyBuf (s : List CChar) (n : Nat) : Vector CChar n :=
  ⟨(strncpy s n).toArray, by rw [List.size_toArray, length_strncpy]⟩

@[simp] theorem toList_strncpyBuf (s : List CChar) (n : Nat) :
    (strncpyBuf s n).toList = strncpy s n := rfl

@[simp] theorem content_strncpy (s : List CChar) (n : Nat) :
    content (strncpy s n) = (content s).take n := by
  rw [strncpy_eq, content_append_replicate]
  exact content_eq_self fun h => zero_notMem_content s (List.mem_of_mem_take h)

/-- Buffers of the compared length are equal for `strncasecmp` exactly when their contents agree
up to letter case. -/
theorem strncasecmp_eq_zero_iff {n : Nat} {a b : List CChar} (ha : a.length = n)
    (hb : b.length = n) : strncasecmp a b n = 0 ↔ SameFold (content a) (content b) := by
  induction n generalizing a b with
  | zero =>
    obtain rfl := List.length_eq_zero_iff.mp ha
    obtain rfl := List.length_eq_zero_iff.mp hb
    simp [strncasecmp, SameFold]
  | succ n ih =>
    obtain ⟨x, a, rfl⟩ := List.exists_cons_of_length_eq_add_one ha
    obtain ⟨y, b, rfl⟩ := List.exists_cons_of_length_eq_add_one hb
    have hrec := ih (a := a) (b := b) (by simpa using ha) (by simpa using hb)
    simp only [strncasecmp, content_cons]
    by_cases hxy : x.lower = y.lower
    · have hfold := CChar.tolower_toNat_inj.mpr hxy
      by_cases hx : x = 0
      · have hy : y = 0 := by
          rw [← CChar.lower_eq_zero, ← hxy, CChar.lower_eq_zero]
          exact hx
        simp [hx, hy, SameFold]
      · have hy : y ≠ 0 := fun hy => hx (by
          rw [← CChar.lower_eq_zero, hxy, CChar.lower_eq_zero]
          exact hy)
        simp only [hfold, ne_eq, not_true_eq_false, if_false, hx, hy, hrec]
        simp [SameFold, hxy]
    · have hne : tolower (x.toNat : Int) ≠ tolower (y.toNat : Int) := fun h =>
        hxy (CChar.tolower_toNat_inj.mp h)
      rw [if_pos hne]
      refine iff_of_false (by omega) ?_
      intro h
      by_cases hx : x = 0 <;> by_cases hy : y = 0 <;> simp_all [SameFold]

/-- Equality for `strncasecmp` does not depend on the order of its arguments. -/
theorem strncasecmp_comm {n : Nat} {a b : List CChar} (ha : a.length = n) (hb : b.length = n) :
    strncasecmp a b n = 0 ↔ strncasecmp b a n = 0 := by
  rw [strncasecmp_eq_zero_iff ha hb, strncasecmp_eq_zero_iff hb ha]
  exact ⟨SameFold.symm, SameFold.symm⟩

/-! ## Reading a string from memory -/

/-- The bytes that reading a C string from the start of a stretch of memory looks at: the content
and its terminator. -/
def readString (mem : List CChar) : List CChar := mem.take ((content mem).length + 1)

theorem content_readString (mem : List CChar) : content (readString mem) = content mem := by
  unfold readString
  induction mem with
  | nil => rfl
  | cons c mem ih =>
    rw [content_cons]
    split
    · rename_i hc
      rw [hc]
      rfl
    · rename_i hc
      rw [List.length_cons, List.take_succ_cons, content_cons, if_neg hc, ih]

/-- A string is read within its buffer exactly where the buffer holds a terminator. -/
theorem length_readString_append_le_iff {buf behind : List CChar} (hbehind : behind ≠ []) :
    (readString (buf ++ behind)).length ≤ buf.length ↔ 0 ∈ buf := by
  have hpos := List.length_pos_iff.mpr hbehind
  rw [readString, List.length_take, List.length_append]
  constructor
  · intro h
    by_contra hnot
    rw [content_append_of_notMem hnot, List.length_append] at h
    omega
  · intro h
    have hlt := length_content_lt h
    rw [content_append_of_mem h]
    omega

end UpdateCheck
