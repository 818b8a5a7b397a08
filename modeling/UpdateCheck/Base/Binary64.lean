import Mathlib.Algebra.Order.Floor.Ring
import Mathlib.Algebra.Order.Field.Power
import Mathlib.Data.Rat.Floor
import Mathlib.Data.Nat.Log
import Mathlib.Tactic.Linarith
import Mathlib.Tactic.Positivity
import Mathlib.Tactic.FieldSimp
import Mathlib.Tactic.NormNum
import Mathlib.Tactic.Ring

/-!
# Finite doubles

A finite `double` is a rational number `m · 2^e` with a 53-bit mantissa and an exponent in the
range of the format (`IsBinary64`). The two zeros are one value here: neither comparison nor
truncation tells them apart.

`roundDouble` rounds a rational to the nearest double, ties to the even mantissa, and has no
result where the rounded value leaves the range. This happens exactly from `2^1024 - 2^970` on
(`roundDouble_eq_none_iff`): half a unit above the greatest finite double.
-/

namespace UpdateCheck

/-- The values of finite doubles. -/
def IsBinary64 (q : ℚ) : Prop :=
  ∃ m e : ℤ, |m| < 2 ^ 53 ∧ -1074 ≤ e ∧ e ≤ 971 ∧ q = m * 2 ^ e

/-- A finite `double`. -/
structure Double where
  val : ℚ
  finite : IsBinary64 val
  deriving DecidableEq

/-- The value from which on rounding leaves the range of the format. -/
def overflowBound : ℚ := 2 ^ (1024 : ℤ) - 2 ^ (970 : ℤ)

/-! ## Rounding -/

/-- Rounding to an integer, ties to even. -/
def roundHalfEven (x : ℚ) : ℤ :=
  if x - ⌊x⌋ < 1 / 2 then ⌊x⌋
  else if 1 / 2 < x - ⌊x⌋ then ⌊x⌋ + 1
  else if ⌊x⌋ % 2 = 0 then ⌊x⌋ else ⌊x⌋ + 1

/-- The binary exponent of a positive rational. -/
def exponentOf (x : ℚ) : ℤ :=
  let k : ℤ := (Nat.log2 x.num.toNat : ℤ) - Nat.log2 x.den
  if (2 : ℚ) ^ k ≤ x then k else k - 1

/-- The exponent of the unit in the last place of a double near a positive rational. -/
def unitExponent (x : ℚ) : ℤ := max (exponentOf x - 52) (-1074)

/-- The mantissa of a positive rational after rounding. -/
def roundMantissa (x : ℚ) : ℤ := roundHalfEven (x / 2 ^ unitExponent x)

/-- A positive rational rounded as if the exponent had no upper bound. -/
def roundMagnitude (x : ℚ) : ℚ := roundMantissa x * 2 ^ unitExponent x

theorem floor_le_roundHalfEven (x : ℚ) : ⌊x⌋ ≤ roundHalfEven x := by
  unfold roundHalfEven
  split_ifs <;> omega

theorem roundHalfEven_le (x : ℚ) : roundHalfEven x ≤ ⌊x⌋ + 1 := by
  unfold roundHalfEven
  split_ifs <;> omega

/-- An integer bound on the argument bounds the rounded value. -/
theorem roundHalfEven_le_of_lt {x : ℚ} {n : ℤ} (h : x < n) : roundHalfEven x ≤ n := by
  have := Int.floor_lt.mpr h
  have := roundHalfEven_le x
  omega

theorem le_roundHalfEven_of_le {x : ℚ} {n : ℤ} (h : (n : ℚ) ≤ x) : n ≤ roundHalfEven x :=
  (Int.le_floor.mpr h).trans (floor_le_roundHalfEven x)

/-- Just below an even integer the tie goes up: from half a unit below it on the rounded value
is that integer, and before that it is smaller. -/
theorem le_roundHalfEven_iff {x : ℚ} {n : ℤ} (hn : n % 2 = 0) (hx : x < n) :
    n ≤ roundHalfEven x ↔ (n : ℚ) - 1 / 2 ≤ x := by
  have hlt := Int.floor_lt.mpr hx
  have hfl := Int.floor_le x
  have hsucc := Int.lt_floor_add_one x
  constructor
  · intro h
    have hle := roundHalfEven_le x
    have hf : ⌊x⌋ = n - 1 := by omega
    by_contra hnot
    have hsmall : x - ⌊x⌋ < 1 / 2 := by
      rw [hf]
      push_cast
      linarith
    rw [roundHalfEven, if_pos hsmall] at h
    omega
  · intro h
    have hf : ⌊x⌋ = n - 1 := by
      have : n - 1 ≤ ⌊x⌋ := Int.le_floor.mpr (by push_cast; linarith)
      omega
    have hlow : ¬ x - ⌊x⌋ < 1 / 2 := by
      rw [hf]
      push_cast
      linarith
    have hodd : ¬ ⌊x⌋ % 2 = 0 := by omega
    rw [roundHalfEven, if_neg hlow]
    split_ifs <;> omega

theorem zpow_log2_le {n : ℕ} (hn : n ≠ 0) : (2 : ℚ) ^ (Nat.log2 n : ℤ) ≤ n := by
  rw [zpow_natCast]
  exact_mod_cast Nat.log2_self_le hn

theorem lt_zpow_log2_succ (n : ℕ) : (n : ℚ) < 2 ^ ((Nat.log2 n : ℤ) + 1) := by
  have h : n < 2 ^ (Nat.log2 n + 1) := Nat.lt_log2_self
  exact_mod_cast h

/-- `exponentOf` is the position of the leading bit. -/
theorem exponentOf_spec {x : ℚ} (hx : 0 < x) :
    (2 : ℚ) ^ exponentOf x ≤ x ∧ x < 2 ^ (exponentOf x + 1) := by
  obtain ⟨n, hn⟩ : ∃ n : ℕ, x.num = n := Int.eq_ofNat_of_zero_le (Rat.num_nonneg.mpr hx.le)
  have hnpos : n ≠ 0 := by
    rintro rfl
    exact hx.ne' (Rat.num_eq_zero.mp (by simpa using hn))
  have hd : (0 : ℚ) < x.den := by exact_mod_cast x.den_pos
  have hxeq : x = n / x.den := by
    conv_lhs => rw [← Rat.num_div_den x, hn]
    rfl
  have h2 : (2 : ℚ) ≠ 0 := by norm_num
  have hup : x < 2 ^ ((Nat.log2 n : ℤ) - Nat.log2 x.den + 1) := by
    have h := lt_zpow_log2_succ n
    have hden := zpow_log2_le x.den_nz
    calc x = n / x.den := hxeq
      _ < 2 ^ ((Nat.log2 n : ℤ) + 1) / x.den := div_lt_div_of_pos_right h hd
      _ ≤ 2 ^ ((Nat.log2 n : ℤ) + 1) / 2 ^ (Nat.log2 x.den : ℤ) :=
        div_le_div_of_nonneg_left (by positivity) (by positivity) hden
      _ = 2 ^ ((Nat.log2 n : ℤ) - Nat.log2 x.den + 1) := by
        rw [← zpow_sub₀ h2]
        congr 1
        omega
  have hlow : (2 : ℚ) ^ ((Nat.log2 n : ℤ) - Nat.log2 x.den - 1) ≤ x := by
    have h := zpow_log2_le hnpos
    have hden := (lt_zpow_log2_succ x.den).le
    calc (2 : ℚ) ^ ((Nat.log2 n : ℤ) - Nat.log2 x.den - 1)
        = 2 ^ (Nat.log2 n : ℤ) / 2 ^ ((Nat.log2 x.den : ℤ) + 1) := by
          rw [← zpow_sub₀ h2]
          congr 1
          omega
      _ ≤ n / 2 ^ ((Nat.log2 x.den : ℤ) + 1) := div_le_div_of_nonneg_right h (by positivity)
      _ ≤ n / x.den := div_le_div_of_nonneg_left (by positivity) hd hden
      _ = x := hxeq.symm
  have htn : x.num.toNat = n := by omega
  unfold exponentOf
  simp only [htn]
  split_ifs with h
  · exact ⟨h, hup⟩
  · refine ⟨hlow, ?_⟩
    rw [sub_add_cancel]
    exact not_le.mp h

/-! ## The range -/

theorem two_zpow_add (a b : ℤ) : (2 : ℚ) ^ (a + b) = 2 ^ a * 2 ^ b :=
  zpow_add₀ (by norm_num) a b

theorem two_zpow_pos (e : ℤ) : (0 : ℚ) < 2 ^ e := by positivity

theorem roundMantissa_nonneg {x : ℚ} (hx : 0 < x) : 0 ≤ roundMantissa x := by
  apply le_roundHalfEven_of_le
  have := two_zpow_pos (unitExponent x)
  simp only [Int.cast_zero]
  positivity

/-- The scaled argument has at most 53 bits. -/
theorem scaled_lt {x : ℚ} (hx : 0 < x) : x / 2 ^ unitExponent x < ((2 ^ 53 : ℤ) : ℚ) := by
  rw [div_lt_iff₀ (two_zpow_pos _)]
  calc x < 2 ^ (exponentOf x + 1) := (exponentOf_spec hx).2
    _ ≤ 2 ^ (53 + unitExponent x) := by
      apply zpow_le_zpow_right₀ (by norm_num)
      unfold unitExponent
      omega
    _ = ((2 ^ 53 : ℤ) : ℚ) * 2 ^ unitExponent x := by
      rw [zpow_add₀ (by norm_num)]
      norm_num

theorem roundMantissa_le {x : ℚ} (hx : 0 < x) : roundMantissa x ≤ 2 ^ 53 :=
  roundHalfEven_le_of_lt (scaled_lt hx)

/-- Above the subnormal range the mantissa has all 53 bits. -/
theorem le_roundMantissa {x : ℚ} (hx : 0 < x) (h : -1074 < unitExponent x) :
    2 ^ 52 ≤ roundMantissa x := by
  apply le_roundHalfEven_of_le
  rw [le_div_iff₀ (two_zpow_pos _)]
  have he : exponentOf x = 52 + unitExponent x := by
    unfold unitExponent at h ⊢
    omega
  calc ((2 ^ 52 : ℤ) : ℚ) * 2 ^ unitExponent x = 2 ^ exponentOf x := by
        rw [he, zpow_add₀ (by norm_num)]
        norm_num
    _ ≤ x := (exponentOf_spec hx).1

/-- A unit above that of the greatest finite double puts the rounded value out of range. -/
theorem le_roundMagnitude_of_unitExponent {x : ℚ} (hx : 0 < x) (h : 971 < unitExponent x) :
    2 ^ (1024 : ℤ) ≤ roundMagnitude x := by
  have hm : ((2 ^ 52 : ℤ) : ℚ) ≤ roundMantissa x := by
    exact_mod_cast le_roundMantissa hx (by omega)
  calc (2 : ℚ) ^ (1024 : ℤ) = ((2 ^ 52 : ℤ) : ℚ) * 2 ^ (972 : ℤ) := by
        rw [show (1024 : ℤ) = 52 + 972 by norm_num, two_zpow_add]
        norm_num
    _ ≤ ((2 ^ 52 : ℤ) : ℚ) * 2 ^ unitExponent x := by
      apply mul_le_mul_of_nonneg_left _ (by norm_num)
      exact zpow_le_zpow_right₀ (by norm_num) (by omega)
    _ ≤ roundMagnitude x := mul_le_mul_of_nonneg_right hm (two_zpow_pos _).le

/-- A rounded magnitude in the range is the value of a double. -/
theorem isBinary64_roundMagnitude {x : ℚ} (hx : 0 < x) (h : roundMagnitude x < 2 ^ (1024 : ℤ)) :
    IsBinary64 (roundMagnitude x) := by
  have hnn := roundMantissa_nonneg hx
  have hle := roundMantissa_le hx
  have hlow : -1074 ≤ unitExponent x := le_max_right _ _
  rcases hle.lt_or_eq with hlt | heq
  · refine ⟨roundMantissa x, unitExponent x, ?_, hlow, ?_, rfl⟩
    · rw [abs_of_nonneg hnn]
      exact hlt
    · by_contra hbig
      have := le_roundMagnitude_of_unitExponent hx (by omega)
      linarith
  · have hval : roundMagnitude x = 2 ^ (53 + unitExponent x) := by
      rw [roundMagnitude, heq, zpow_add₀ (by norm_num)]
      norm_num
    refine ⟨2 ^ 52, unitExponent x + 1, by norm_num, by omega, ?_, ?_⟩
    · rw [hval, zpow_lt_zpow_iff_right₀ (by norm_num)] at h
      omega
    · rw [hval, show (53 : ℤ) + unitExponent x = 52 + (unitExponent x + 1) by ring,
        zpow_add₀ (by norm_num)]
      norm_num

/-- Rounding leaves the range exactly from the overflow bound on. -/
theorem le_roundMagnitude_iff {x : ℚ} (hx : 0 < x) :
    2 ^ (1024 : ℤ) ≤ roundMagnitude x ↔ overflowBound ≤ x := by
  have hspec := exponentOf_spec hx
  unfold overflowBound
  rcases lt_trichotomy (unitExponent x) 971 with hlt | heq | hgt
  · have hsmall : roundMagnitude x ≤ 2 ^ (1023 : ℤ) := by
      have hm : (roundMantissa x : ℚ) ≤ ((2 ^ 53 : ℤ) : ℚ) := by
        exact_mod_cast roundMantissa_le hx
      calc roundMagnitude x ≤ ((2 ^ 53 : ℤ) : ℚ) * 2 ^ unitExponent x :=
            mul_le_mul_of_nonneg_right hm (two_zpow_pos _).le
        _ ≤ ((2 ^ 53 : ℤ) : ℚ) * 2 ^ (970 : ℤ) := by
            apply mul_le_mul_of_nonneg_left _ (by norm_num)
            exact zpow_le_zpow_right₀ (by norm_num) (by omega)
        _ = 2 ^ (1023 : ℤ) := by
            rw [show (1023 : ℤ) = 53 + 970 by norm_num, two_zpow_add]
            norm_num
    have hxs : x < 2 ^ (1023 : ℤ) := by
      calc x < 2 ^ (exponentOf x + 1) := hspec.2
        _ ≤ 2 ^ (1023 : ℤ) := by
          apply zpow_le_zpow_right₀ (by norm_num)
          unfold unitExponent at hlt
          omega
    have htwo : (2 : ℚ) ^ (1024 : ℤ) = 2 * 2 ^ (1023 : ℤ) := by
      rw [show (1024 : ℤ) = 1 + 1023 by norm_num, two_zpow_add, zpow_one]
    have hlt' : (2 : ℚ) ^ (970 : ℤ) < 2 ^ (1023 : ℤ) :=
      zpow_lt_zpow_right₀ (by norm_num) (by norm_num)
    have hpos := two_zpow_pos 1023
    generalize (2 : ℚ) ^ (1024 : ℤ) = limit at htwo ⊢
    generalize (2 : ℚ) ^ (1023 : ℤ) = half at *
    generalize (2 : ℚ) ^ (970 : ℤ) = unit at *
    constructor <;> intro h <;> linarith
  · have hpow : (2 : ℚ) ^ (1024 : ℤ) = ((2 ^ 53 : ℤ) : ℚ) * 2 ^ (971 : ℤ) := by
      rw [show (1024 : ℤ) = 53 + 971 by norm_num, two_zpow_add]
      norm_num
    have hscaled := scaled_lt hx
    have hm := le_roundHalfEven_iff (x := x / 2 ^ (971 : ℤ)) (n := 2 ^ 53) (by norm_num)
      (by rwa [heq] at hscaled)
    have hunit : (2 : ℚ) ^ (970 : ℤ) = 1 / 2 * 2 ^ (971 : ℤ) := by
      rw [show (971 : ℤ) = 1 + 970 by norm_num, two_zpow_add, zpow_one]
      ring
    rw [roundMagnitude, roundMantissa, heq, hpow, mul_le_mul_iff_left₀ (two_zpow_pos _),
      Int.cast_le, hm, le_div_iff₀ (two_zpow_pos _), sub_mul, ← hunit]
  · have hbig := le_roundMagnitude_of_unitExponent hx hgt
    have hxb : (2 : ℚ) ^ (1024 : ℤ) ≤ x := by
      have hexp : (1024 : ℤ) ≤ exponentOf x := by
        unfold unitExponent at hgt
        omega
      exact (zpow_le_zpow_right₀ (by norm_num) hexp).trans hspec.1
    have hpos := two_zpow_pos 970
    generalize (2 : ℚ) ^ (1024 : ℤ) = limit at *
    generalize (2 : ℚ) ^ (970 : ℤ) = unit at *
    constructor
    · intro _
      linarith
    · intro _
      exact hbig

/-! ## Doubles -/

theorem IsBinary64.neg {q : ℚ} (h : IsBinary64 q) : IsBinary64 (-q) := by
  obtain ⟨m, e, hm, h1, h2, rfl⟩ := h
  exact ⟨-m, e, by rwa [abs_neg], h1, h2, by push_cast; ring⟩

theorem isBinary64_zero : IsBinary64 0 := ⟨0, 0, by norm_num, by norm_num, by norm_num, by norm_num⟩

theorem roundHalfEven_intCast (n : ℤ) : roundHalfEven (n : ℚ) = n := by
  unfold roundHalfEven
  rw [Int.floor_intCast, sub_self, if_pos (by norm_num)]

/-- Rounding keeps a positive value of the format. -/
theorem roundMagnitude_of_isBinary64 {x : ℚ} (hx : 0 < x) (h : IsBinary64 x) :
    roundMagnitude x = x := by
  obtain ⟨m, e, hm, he, -, rfl⟩ := h
  have hunit : unitExponent (m * 2 ^ e) ≤ e := by
    have hlow := (exponentOf_spec hx).1
    have hhigh : (m : ℚ) * 2 ^ e < 2 ^ (53 + e) := by
      rw [two_zpow_add]
      apply mul_lt_mul_of_pos_right _ (two_zpow_pos e)
      have hlt : m < 2 ^ 53 := (le_abs_self m).trans_lt hm
      exact_mod_cast hlt
    have hexp : exponentOf (m * 2 ^ e) < 53 + e :=
      (zpow_lt_zpow_iff_right₀ (by norm_num)).mp (hlow.trans_lt hhigh)
    unfold unitExponent
    omega
  obtain ⟨k, hk⟩ : ∃ k : ℕ, e = k + unitExponent (m * 2 ^ e) :=
    ⟨(e - unitExponent (m * 2 ^ e)).toNat, by omega⟩
  have hscaled : (m : ℚ) * 2 ^ e / 2 ^ unitExponent (m * 2 ^ e) = ((m * 2 ^ k : ℤ) : ℚ) := by
    rw [div_eq_iff (two_zpow_pos _).ne']
    generalize unitExponent (m * 2 ^ e) = u at hk
    rw [hk, two_zpow_add, zpow_natCast]
    push_cast
    ring
  rw [roundMagnitude, roundMantissa, hscaled, roundHalfEven_intCast, ← hscaled,
    div_mul_cancel₀ _ (two_zpow_pos _).ne']

theorem IsBinary64.abs {x : ℚ} (h : IsBinary64 x) : IsBinary64 |x| := by
  rcases abs_choice x with hx | hx
  · rwa [hx]
  · rw [hx]
    exact h.neg

theorem IsBinary64.abs_lt {x : ℚ} (h : IsBinary64 x) : |x| < 2 ^ (1024 : ℤ) := by
  obtain ⟨m, e, hm, -, he, rfl⟩ := h
  have hm' : |(m : ℚ)| < 2 ^ (53 : ℤ) := by exact_mod_cast hm
  calc |(m : ℚ) * 2 ^ e| = |(m : ℚ)| * 2 ^ e := by rw [abs_mul, abs_of_pos (two_zpow_pos e)]
    _ < 2 ^ (53 : ℤ) * 2 ^ e := mul_lt_mul_of_pos_right hm' (two_zpow_pos e)
    _ ≤ 2 ^ (53 : ℤ) * 2 ^ (971 : ℤ) := by
      apply mul_le_mul_of_nonneg_left _ (two_zpow_pos 53).le
      exact zpow_le_zpow_right₀ (by norm_num) he
    _ = 2 ^ (1024 : ℤ) := (two_zpow_add 53 971).symm

/-- The double nearest to a rational, none where it would be infinite. -/
def roundDouble (x : ℚ) : Option Double :=
  if hx : x = 0 then some ⟨0, isBinary64_zero⟩
  else if h : roundMagnitude |x| < 2 ^ (1024 : ℤ) then
    if 0 < x then some ⟨roundMagnitude |x|, isBinary64_roundMagnitude (abs_pos.mpr hx) h⟩
    else some ⟨-roundMagnitude |x|, (isBinary64_roundMagnitude (abs_pos.mpr hx) h).neg⟩
  else none

/-- A rational has no nearest finite double exactly from the overflow bound on. -/
theorem roundDouble_eq_none_iff (x : ℚ) : roundDouble x = none ↔ overflowBound ≤ |x| := by
  unfold roundDouble
  by_cases hx : x = 0
  · subst hx
    have hlt : (2 : ℚ) ^ (970 : ℤ) < 2 ^ (1024 : ℤ) :=
      zpow_lt_zpow_right₀ (by norm_num) (by norm_num)
    simpa [overflowBound] using hlt
  · rw [dif_neg hx, ← le_roundMagnitude_iff (abs_pos.mpr hx)]
    split_ifs with h h'
    · simpa using h
    · simpa using h
    · simpa using h

/-- A finite double is the one nearest to its value. -/
theorem roundDouble_val (d : Double) : roundDouble d.val = some d := by
  obtain ⟨x, hx⟩ := d
  unfold roundDouble
  by_cases hzero : x = 0
  · rw [dif_pos hzero]
    simp [hzero]
  · have hpos := abs_pos.mpr hzero
    have hround := roundMagnitude_of_isBinary64 hpos hx.abs
    rw [dif_neg hzero, dif_pos (by rw [hround]; exact hx.abs_lt)]
    split_ifs with hsign
    · rw [Option.some.injEq, Double.mk.injEq, hround]
      exact abs_of_pos hsign
    · rw [Option.some.injEq, Double.mk.injEq, hround, abs_of_nonpos (not_lt.mp hsign), neg_neg]

/-- Conversion to an integer: truncation towards zero. -/
def Double.trunc (d : Double) : Int := if 0 ≤ d.val then ⌊d.val⌋ else ⌈d.val⌉

end UpdateCheck
