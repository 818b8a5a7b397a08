import UpdateCheck.Base.Utf8
import UpdateCheck.Json.Lexer

/-!
# String literals

The spellings of a character in a string literal: itself, a one-letter escape, its code point in
four hexadecimal digits, or the two halves of a surrogate pair. The scanner of strings reads exactly
the texts that are spelled so, and what it stores are the bytes of the text: `scanString_iff`. So
every string of a parsed document is UTF-8, whatever the document holds.
-/

namespace UpdateCheck.Json

/-! ## Spellings -/

/-- Four hexadecimal digits, with their value. -/
def FourDigits (ds : List CChar) (n : Nat) : Prop :=
  ds.length = 4 ∧ (∀ d ∈ ds, 0 ≤ hexDigit d) ∧
    n = ds.foldl (fun n d => 16 * n + (hexDigit d).toNat) 0

/-- A character that stands for itself in a literal. -/
def Unescaped (c : Char) : Prop := 0x20 ≤ c.toNat ∧ c.toNat ≠ 0x22 ∧ c.toNat ≠ 0x5C

/-- The first and the second half of a surrogate pair. -/
def HighSurrogate (n : Nat) : Prop := 0xD800 ≤ n ∧ n ≤ 0xDBFF

def LowSurrogate (n : Nat) : Prop := 0xDC00 ≤ n ∧ n ≤ 0xDFFF

/-- The spellings of a character. -/
inductive Spelled : Char → List CChar → Prop
  | plain {c} : Unescaped c → Spelled c (String.utf8EncodeChar c)
  | letter {c l} : simpleEscape l = some (UInt8.ofNat c.toNat) → c.toNat < 0x80 →
      Spelled c [0x5C, l]
  | codepoint {c ds} : FourDigits ds c.toNat → Spelled c (0x5C :: chr 'u' :: ds)
  | pair {c ds es m n} : FourDigits ds m → FourDigits es n → HighSurrogate m → LowSurrogate n →
      c.toNat = 0x10000 + (m - 0xD800) * 0x400 + (n - 0xDC00) →
      Spelled c (0x5C :: chr 'u' :: ds ++ 0x5C :: chr 'u' :: es)

/-- The spellings of a text. -/
inductive SpelledText : List Char → List CChar → Prop
  | nil : SpelledText [] []
  | cons {c s cs t} : Spelled c s → SpelledText cs t → SpelledText (c :: cs) (s ++ t)

/-! ## Code points -/

theorem hexDigit_lt (d : CChar) : hexDigit d < 16 := by
  unfold hexDigit
  simp only [UInt8.le_iff_toNat_le]
  split_ifs <;> simp at * <;> omega

theorem foldl_hex_lt {ds : List CChar} (hds : ∀ d ∈ ds, 0 ≤ hexDigit d) (m : Nat) :
    ds.foldl (fun n d => 16 * n + (hexDigit d).toNat) m < (m + 1) * 16 ^ ds.length := by
  induction ds generalizing m with
  | nil => simp
  | cons d ds ih =>
    have hd := hexDigit_lt d
    have hnext := ih (fun e he => hds e (.tail _ he)) (16 * m + (hexDigit d).toNat)
    rw [List.foldl_cons, List.length_cons, pow_succ']
    calc _ < (16 * m + (hexDigit d).toNat + 1) * 16 ^ ds.length := hnext
      _ ≤ (m + 1) * 16 * 16 ^ ds.length := Nat.mul_le_mul_right _ (by omega)
      _ = (m + 1) * (16 * 16 ^ ds.length) := Nat.mul_assoc _ _ _

theorem FourDigits.lt {ds : List CChar} {n : Nat} (h : FourDigits ds n) : n < 0x10000 := by
  obtain ⟨hlen, hds, rfl⟩ := h
  have hlt := foldl_hex_lt hds 0
  rw [hlen] at hlt
  simpa using hlt

theorem or_of_lt {k b : Nat} (a : Nat) (h : b < 2 ^ k) : 2 ^ k * a ||| b = b + 2 ^ k * a := by
  rw [← Nat.two_pow_add_eq_or_of_lt h, Nat.add_comm]

theorem tail_eq (n : Nat) : 0x80 ||| (n &&& 0x3F) = n % 0x40 + 0x80 := by
  have hand : n &&& 0x3F = n % 0x40 := Nat.and_two_pow_sub_one_eq_mod n 6
  rw [hand]
  exact @or_of_lt 6 (n % 0x40) 2 (by omega)

/-- `encode` is UTF-8. -/
theorem encode_toNat (c : Char) : encode c.toNat = String.utf8EncodeChar c := by
  have hvalid := toNat_valid c
  unfold encode String.utf8EncodeChar
  simp only [show c.val.toNat = c.toNat from rfl, tail_eq, Nat.shiftRight_eq_div_pow]
  by_cases h1 : c.toNat ≤ 0x7F
  · rw [if_pos (by omega), if_pos h1]
  · rw [if_neg (by omega), if_neg h1]
    by_cases h2 : c.toNat ≤ 0x7FF
    · have hlead : 0xC0 ||| c.toNat / 2 ^ 6 = c.toNat / 64 % 0x20 + 0xC0 := by
        rw [Nat.mod_eq_of_lt (by omega)]
        exact @or_of_lt 5 (c.toNat / 2 ^ 6) 6 (by omega)
      rw [if_pos h2, if_pos h2, hlead]
    · rw [if_neg h2, if_neg h2]
      by_cases h3 : c.toNat ≤ 0xFFFF
      · have hlead : 0xE0 ||| c.toNat / 2 ^ 12 = c.toNat / 4096 % 0x10 + 0xE0 := by
          rw [Nat.mod_eq_of_lt (by omega)]
          exact @or_of_lt 4 (c.toNat / 2 ^ 12) 14 (by omega)
        rw [if_pos h3, if_pos h3, hlead]
      · have hlead : 0xF0 ||| c.toNat / 2 ^ 18 = c.toNat / 262144 % 0x08 + 0xF0 := by
          rw [Nat.mod_eq_of_lt (by omega)]
          exact @or_of_lt 3 (c.toNat / 2 ^ 18) 30 (by omega)
        rw [if_neg h3, if_neg h3, hlead]

/-! ## Moves -/

/-- The scan behind a move that was made on the byte before `rest`. -/
def StringMove.follow (buffer rest : List CChar) : StringMove → Token × List CChar
  | goto added st => scanStringFrom st (buffer ++ added) rest
  | done => (.valueString buffer, rest)
  | error => (.parseError, rest)

theorem scanStringFrom_cons (st : StringState) (buffer : List CChar) (c : CChar)
    (rest : List CChar) :
    scanStringFrom st buffer (c :: rest) = (stringMove st c).follow buffer rest := by
  rw [scanStringFrom]
  cases stringMove st c <;> rfl

theorem hexMove_eq {high : Option Nat} {due sum : Nat} {d : CChar} (hd : 0 ≤ hexDigit d) :
    stringMove (.hex high (due + 1) (sum * 16 ^ (due + 1))) d =
      if due = 0 then codepointMove high (16 * sum + (hexDigit d).toNat)
      else .goto [] (.hex high due ((16 * sum + (hexDigit d).toNat) * 16 ^ due)) := by
  have hsum : sum * 16 ^ (due + 1) + (hexDigit d).toNat <<< (4 * (due + 1 - 1)) =
      (16 * sum + (hexDigit d).toNat) * 16 ^ due := by
    rw [Nat.add_sub_cancel, Nat.shiftLeft_eq, pow_mul, pow_succ]
    ring
  rw [stringMove, if_neg (by omega)]
  dsimp only
  rw [hsum, Nat.add_sub_cancel]
  by_cases hdue : due = 0
  · rw [if_pos (by omega), if_pos hdue, hdue, pow_zero, mul_one]
  · rw [if_neg (by omega), if_neg hdue]

/-- The digits of a code point are read up to its end. -/
theorem scanStringFrom_digits {high : Option Nat} {ds : List CChar} {sum : Nat}
    (hne : ds ≠ []) (hds : ∀ d ∈ ds, 0 ≤ hexDigit d) (buffer rest : List CChar) :
    scanStringFrom (.hex high ds.length (sum * 16 ^ ds.length)) buffer (ds ++ rest) =
      (codepointMove high (ds.foldl (fun n d => 16 * n + (hexDigit d).toNat) sum)).follow
        buffer rest := by
  induction ds generalizing sum with
  | nil => exact absurd rfl hne
  | cons d ds ih =>
    have hd := hds d (.head _)
    rw [List.cons_append, scanStringFrom_cons, List.length_cons, hexMove_eq hd, List.foldl_cons]
    cases ds with
    | nil => rfl
    | cons e es =>
      rw [if_neg (by simp)]
      show scanStringFrom _ (buffer ++ []) _ = _
      rw [List.append_nil]
      exact ih (by simp) fun x hx => hds x (.tail _ hx)

/-- A scan that ends well has read the digits that were due. -/
theorem digits_of_scanStringFrom {high : Option Nat} {due sum : Nat} {buffer s b rest : List CChar}
    (h : scanStringFrom (.hex high (due + 1) sum) buffer s = (.valueString b, rest)) :
    ∃ ds more, s = ds ++ more ∧ ds.length = due + 1 ∧ ∀ d ∈ ds, 0 ≤ hexDigit d := by
  induction due generalizing sum buffer s with
  | zero =>
    cases s with
    | nil => cases h
    | cons d s =>
      rw [scanStringFrom_cons, stringMove] at h
      split_ifs at h with hd hdue
      · cases h
      · refine ⟨[d], s, rfl, rfl, ?_⟩
        simpa using hd
      · omega
  | succ due ih =>
    cases s with
    | nil => cases h
    | cons d s =>
      rw [scanStringFrom_cons, stringMove] at h
      split_ifs at h with hd hdue
      · cases h
      · omega
      · obtain ⟨ds, more, rfl, hlen, hds⟩ := ih h
        refine ⟨d :: ds, more, rfl, by rw [List.length_cons, hlen], ?_⟩
        exact List.forall_mem_cons.mpr ⟨not_lt.mp hd, hds⟩

theorem FourDigits.scan {ds : List CChar} {n : Nat} (h : FourDigits ds n) (high : Option Nat)
    (buffer rest : List CChar) :
    scanStringFrom (.hex high 4 0) buffer (ds ++ rest) =
      (codepointMove high n).follow buffer rest := by
  obtain ⟨hlen, hds, rfl⟩ := h
  have hne : ds ≠ [] := fun hnil => by simp [hnil] at hlen
  have hscan := @scanStringFrom_digits high ds 0 hne hds buffer rest
  rw [hlen, Nat.zero_mul] at hscan
  exact hscan

theorem fourDigits_of_scan {high : Option Nat} {buffer s b rest : List CChar}
    (h : scanStringFrom (.hex high 4 0) buffer s = (.valueString b, rest)) :
    ∃ ds n more, s = ds ++ more ∧ FourDigits ds n ∧
      (codepointMove high n).follow buffer more = (.valueString b, rest) := by
  obtain ⟨ds, more, rfl, hlen, hds⟩ := digits_of_scanStringFrom h
  have hfour : FourDigits ds _ := ⟨hlen, hds, rfl⟩
  rw [hfour.scan] at h
  exact ⟨ds, _, more, rfl, hfour, h⟩

/-! ## Sequences -/

/-- The bytes lie in the ranges. -/
def Fits (ranges : List (CChar × CChar)) (s : List CChar) : Prop :=
  List.Forall₂ (fun r b => r.1 ≤ b ∧ b ≤ r.2) ranges s

theorem Fits.scan {ranges : List (CChar × CChar)} {s : List CChar} (h : Fits ranges s)
    (hne : ranges ≠ []) (buffer rest : List CChar) :
    scanStringFrom (.inRange ranges) buffer (s ++ rest) =
      scanStringFrom .plain (buffer ++ s) rest := by
  induction h generalizing buffer with
  | nil => exact absurd rfl hne
  | @cons r b ranges s hb hrest ih =>
    rw [List.cons_append, scanStringFrom_cons, stringMove, if_pos hb]
    cases hrest with
    | nil => rfl
    | cons =>
      show scanStringFrom (.inRange _) (buffer ++ [b]) _ = _
      rw [ih (by simp), List.append_assoc]
      rfl

theorem fits_of_scan {ranges : List (CChar × CChar)} {buffer s b rest : List CChar}
    (h : scanStringFrom (.inRange ranges) buffer s = (.valueString b, rest)) :
    ∃ t more, s = t ++ more ∧ Fits ranges t := by
  induction ranges generalizing buffer s with
  | nil => cases s <;> cases h
  | cons r ranges ih =>
    cases s with
    | nil => cases h
    | cons c s =>
      rw [scanStringFrom_cons, stringMove] at h
      split_ifs at h with hc hend
      · obtain rfl := List.isEmpty_iff.mp hend
        exact ⟨[c], s, rfl, .cons hc .nil⟩
      · obtain ⟨t, more, rfl, ht⟩ := ih h
        exact ⟨c :: t, more, rfl, .cons hc ht⟩
      · cases h

theorem fits_two_iff {r q : CChar × CChar} {s : List CChar} :
    Fits [r, q] s ↔ ∃ b c, s = [b, c] ∧ (r.1 ≤ b ∧ b ≤ r.2) ∧ (q.1 ≤ c ∧ c ≤ q.2) := by
  constructor
  · rintro (_ | ⟨hb, _ | ⟨hc, _ | _⟩⟩)
    exact ⟨_, _, rfl, hb, hc⟩
  · rintro ⟨b, c, rfl, hb, hc⟩
    exact .cons hb (.cons hc .nil)

theorem fits_three_iff {r q p : CChar × CChar} {s : List CChar} :
    Fits [r, q, p] s ↔ ∃ b c d, s = [b, c, d] ∧ (r.1 ≤ b ∧ b ≤ r.2) ∧ (q.1 ≤ c ∧ c ≤ q.2) ∧
      (p.1 ≤ d ∧ d ≤ p.2) := by
  constructor
  · rintro (_ | ⟨hb, _ | ⟨hc, _ | ⟨hd, _ | _⟩⟩⟩)
    exact ⟨_, _, _, rfl, hb, hc, hd⟩
  · rintro ⟨b, c, d, rfl, hb, hc, hd⟩
    exact .cons hb (.cons hc (.cons hd .nil))

theorem sequence_of_fits {a : CChar} {ranges : List (CChar × CChar)} {s : List CChar}
    (hranges : continuation a = some ranges) (hfits : Fits ranges s) : Sequence (a :: s) := by
  unfold continuation at hranges
  simp only [UInt8.le_iff_toNat_le, ← UInt8.toNat_inj, UInt8.reduceToNat] at hranges
  split_ifs at hranges
  all_goals obtain rfl := Option.some.inj hranges
  · obtain _ | ⟨hb, _ | _⟩ := hfits
    exact .two (by omega) (by omega) ⟨hb.1, hb.2⟩
  iterate 3
    obtain ⟨b, c, rfl, hb, hc⟩ := fits_two_iff.mp hfits
    simp only [UInt8.le_iff_toNat_le, UInt8.reduceToNat] at hb hc
    refine .three (by omega) (by omega) ⟨by omega, by omega⟩ hc ?_ ?_ <;> omega
  iterate 3
    obtain ⟨b, c, d, rfl, hb, hc, hd⟩ := fits_three_iff.mp hfits
    simp only [UInt8.le_iff_toNat_le, UInt8.reduceToNat] at hb hc hd
    refine .four (by omega) (by omega) ⟨by omega, by omega⟩ hc hd ?_ ?_ <;> omega

theorem fits_of_sequence {a : CChar} {s : List CChar} (h : Sequence (a :: s)) :
    ∃ ranges, continuation a = some ranges ∧ Fits ranges s := by
  unfold continuation
  simp only [UInt8.le_iff_toNat_le, ← UInt8.toNat_inj, UInt8.reduceToNat]
  cases h with
  | two ha ha' hb =>
    rw [if_pos ⟨ha, ha'⟩]
    exact ⟨_, rfl, .cons hb .nil⟩
  | three ha ha' hb hc he0 hed =>
    rw [if_neg (by omega)]
    split_ifs with h0 hd h1
    · exact ⟨_, rfl, fits_two_iff.mpr ⟨_, _, rfl, ⟨he0 h0, hb.2⟩, hc⟩⟩
    · exact ⟨_, rfl, fits_two_iff.mpr ⟨_, _, rfl, ⟨hb.1, hed hd⟩, hc⟩⟩
    · exact ⟨_, rfl, fits_two_iff.mpr ⟨_, _, rfl, hb, hc⟩⟩
    all_goals omega
  | four ha ha' hb hc hd hf0 hf4 =>
    rw [if_neg (by omega), if_neg (by omega), if_neg (by omega), if_neg (by omega)]
    split_ifs with h0 h1 h4
    · exact ⟨_, rfl, fits_three_iff.mpr ⟨_, _, _, rfl, ⟨hf0 h0, hb.2⟩, hc, hd⟩⟩
    · exact ⟨_, rfl, fits_three_iff.mpr ⟨_, _, _, rfl, hb, hc, hd⟩⟩
    · exact ⟨_, rfl, fits_three_iff.mpr ⟨_, _, _, rfl, ⟨hb.1, hf4 h4⟩, hc, hd⟩⟩
    · omega

/-! ## One character -/

theorem continuation_ne_nil {a : CChar} {ranges : List (CChar × CChar)}
    (h : continuation a = some ranges) : ranges ≠ [] := by
  unfold continuation at h
  split_ifs at h
  all_goals
    obtain rfl := Option.some.inj h
    exact List.cons_ne_nil _ _

theorem scanStringFrom_ascii {c : CChar} (h : 0x20 ≤ c.toNat) (h' : c.toNat < 0x80)
    (hquote : c.toNat ≠ 0x22) (hback : c.toNat ≠ 0x5C) (buffer rest : List CChar) :
    scanStringFrom .plain buffer (c :: rest) = scanStringFrom .plain (buffer ++ [c]) rest := by
  have hmove : stringMove .plain c = .goto [c] .plain := by
    unfold stringMove
    simp only [UInt8.lt_iff_toNat_lt, ← UInt8.toNat_inj, UInt8.reduceToNat]
    rw [if_neg hquote, if_neg hback, if_neg (by omega), if_pos h']
  rw [scanStringFrom_cons, hmove]
  rfl

theorem scanStringFrom_sequence {s : List CChar} (h : Sequence s) (buffer rest : List CChar) :
    scanStringFrom .plain buffer (s ++ rest) = scanStringFrom .plain (buffer ++ s) rest := by
  cases s with
  | nil => cases h
  | cons a s =>
    have ha := h.tails a (.head _)
    obtain ⟨ranges, hranges, hfits⟩ := fits_of_sequence h
    have hmove : stringMove .plain a = .goto [a] (.inRange ranges) := by
      unfold stringMove
      simp only [UInt8.lt_iff_toNat_lt, ← UInt8.toNat_inj, UInt8.reduceToNat]
      rw [if_neg (by omega), if_neg (by omega), if_neg (by omega), if_neg (by omega), hranges]
    rw [List.cons_append, scanStringFrom_cons, hmove]
    show scanStringFrom (.inRange ranges) (buffer ++ [a]) (s ++ rest) = _
    rw [hfits.scan (continuation_ne_nil hranges), List.append_assoc]
    rfl

theorem codepointMove_none {c : Char} :
    codepointMove none c.toNat = .goto (String.utf8EncodeChar c) .plain := by
  have hvalid := toNat_valid c
  unfold codepointMove
  dsimp only
  rw [if_neg (by omega), if_neg (by omega), encode_toNat]

theorem codepointMove_high {n : Nat} (h : HighSurrogate n) :
    codepointMove none n = .goto [] (.pairBackslash n) := by
  unfold codepointMove
  exact if_pos h

theorem codepointMove_low {m n : Nat} {c : Char} (hm : HighSurrogate m) (hn : LowSurrogate n)
    (hc : c.toNat = 0x10000 + (m - 0xD800) * 0x400 + (n - 0xDC00)) :
    codepointMove (some m) n = .goto (String.utf8EncodeChar c) .plain := by
  have hcode : (m <<< 10) + n - 0x35FDC00 = c.toNat := by
    obtain ⟨hm, hm'⟩ := hm
    obtain ⟨hn, hn'⟩ := hn
    rw [Nat.shiftLeft_eq]
    omega
  unfold codepointMove
  dsimp only
  rw [hcode, encode_toNat]
  exact if_pos hn

theorem follow_goto_nil (buffer rest : List CChar) (st : StringState) :
    (StringMove.goto [] st).follow buffer rest = scanStringFrom st buffer rest := by
  rw [StringMove.follow, List.append_nil]

/-- `\u` behind which a code point is due. -/
theorem scanStringFrom_u (buffer s : List CChar) :
    scanStringFrom .plain buffer (0x5C :: chr 'u' :: s) =
      scanStringFrom (.hex none 4 0) buffer s := by
  rw [scanStringFrom_cons, show stringMove .plain 0x5C = .goto [] .escape from rfl,
    follow_goto_nil, scanStringFrom_cons]
  exact follow_goto_nil buffer s _

theorem scanStringFrom_pairU (m : Nat) (buffer s : List CChar) :
    scanStringFrom (.pairBackslash m) buffer (0x5C :: chr 'u' :: s) =
      scanStringFrom (.hex (some m) 4 0) buffer s := by
  rw [scanStringFrom_cons, show stringMove (.pairBackslash m) 0x5C = .goto [] (.pairU m) from rfl,
    follow_goto_nil, scanStringFrom_cons]
  exact follow_goto_nil buffer s _

/-- A spelled character is read as a whole, and its bytes are stored. -/
theorem Spelled.scan {c : Char} {s : List CChar} (h : Spelled c s) (buffer rest : List CChar) :
    scanStringFrom .plain buffer (s ++ rest) =
      scanStringFrom .plain (buffer ++ String.utf8EncodeChar c) rest := by
  cases h with
  | plain hc =>
    obtain ⟨h20, hquote, hback⟩ := hc
    by_cases hascii : c.toNat < 0x80
    · have hnat : (UInt8.ofNat c.toNat).toNat = c.toNat := by
        rw [UInt8.toNat_ofNat']
        omega
      rw [utf8EncodeChar_of_lt hascii, List.singleton_append]
      apply scanStringFrom_ascii <;> rw [hnat] <;> assumption
    · exact scanStringFrom_sequence (sequence_iff.mpr ⟨c, by omega, rfl⟩) buffer rest
  | @letter l hl hascii =>
    have hu : l ≠ chr 'u' := by
      rintro rfl
      cases hl
    have hmove : stringMove .escape l = .goto [UInt8.ofNat c.toNat] .plain := by
      unfold stringMove
      dsimp only
      rw [if_neg hu, hl]
    show (stringMove .plain 0x5C).follow buffer (l :: rest) = _
    rw [show stringMove .plain 0x5C = .goto [] .escape from rfl, follow_goto_nil,
      scanStringFrom_cons, hmove, utf8EncodeChar_of_lt hascii]
    rfl
  | codepoint hds =>
    show scanStringFrom .plain buffer (0x5C :: chr 'u' :: (_ ++ rest)) = _
    rw [scanStringFrom_u, hds.scan, codepointMove_none]
    rfl
  | @pair ds es m n hds hes hm hn hc =>
    have hspelled : 0x5C :: chr 'u' :: ds ++ 0x5C :: chr 'u' :: es ++ rest =
        0x5C :: chr 'u' :: (ds ++ 0x5C :: chr 'u' :: (es ++ rest)) := by simp
    rw [hspelled, scanStringFrom_u, hds.scan, codepointMove_high hm, follow_goto_nil,
      scanStringFrom_pairU, hes.scan, codepointMove_low hm hn hc]
    rfl

theorem simpleEscape_lt {l b : CChar} (h : simpleEscape l = some b) : b.toNat < 0x80 := by
  unfold simpleEscape at h
  split_ifs at h with hself
  · obtain rfl := Option.some.inj h
    rcases hself with rfl | rfl | rfl <;> decide
  all_goals
    obtain rfl := Option.some.inj h
    decide

/-- An escape of one letter spells a character. -/
theorem Spelled.of_letter {l b : CChar} (h : simpleEscape l = some b) : ∃ c, Spelled c [0x5C, l] := by
  have hb := simpleEscape_lt h
  have hn := @toNat_ofNat b.toNat (by omega)
  refine ⟨Char.ofNat b.toNat, .letter ?_ (by omega)⟩
  rw [hn, UInt8.ofNat_toNat, h]

/-- What is read behind a second `\u` completes the pair. -/
theorem spelled_of_pair {ds s buffer b rest : List CChar} {m : Nat} (hds : FourDigits ds m)
    (hm : HighSurrogate m)
    (h : scanStringFrom (.pairBackslash m) buffer s = (.valueString b, rest)) :
    ∃ c t more, s = t ++ more ∧ Spelled c (0x5C :: chr 'u' :: ds ++ t) := by
  cases s with
  | nil => cases h
  | cons a s =>
    rw [scanStringFrom_cons, stringMove] at h
    split_ifs at h with ha
    · rw [follow_goto_nil] at h
      cases s with
      | nil => cases h
      | cons u s =>
        rw [scanStringFrom_cons, stringMove] at h
        split_ifs at h with hu
        · rw [follow_goto_nil] at h
          obtain ⟨es, n, more, rfl, hes, hfollow⟩ := fourDigits_of_scan h
          unfold codepointMove at hfollow
          dsimp only at hfollow
          split_ifs at hfollow with hn
          · have hc := @toNat_ofNat (0x10000 + (m - 0xD800) * 0x400 + (n - 0xDC00)) (by
              obtain ⟨hm, hm'⟩ := hm
              omega)
            rw [ha, hu]
            exact ⟨_, 0x5C :: chr 'u' :: es, more, rfl, .pair hds hes hm hn hc⟩
          · cases hfollow
        · cases h
    · cases h

theorem spelled_of_escape {s buffer b rest : List CChar}
    (h : scanStringFrom .escape buffer s = (.valueString b, rest)) :
    ∃ c t more, s = t ++ more ∧ Spelled c (0x5C :: t) := by
  cases s with
  | nil => cases h
  | cons l s =>
    rw [scanStringFrom_cons] at h
    unfold stringMove at h
    dsimp only at h
    split_ifs at h with hu
    · rw [follow_goto_nil] at h
      obtain ⟨ds, n, more, rfl, hds, hfollow⟩ := fourDigits_of_scan h
      have hlt := hds.lt
      unfold codepointMove at hfollow
      dsimp only at hfollow
      split_ifs at hfollow with hhigh hlow
      · rw [follow_goto_nil] at hfollow
        obtain ⟨c, t, more, rfl, ht⟩ := spelled_of_pair hds hhigh hfollow
        exact ⟨c, l :: ds ++ t, more, by simp, hu ▸ ht⟩
      · cases hfollow
      · have hc := @toNat_ofNat n (by omega)
        rw [← hc] at hds
        exact ⟨_, l :: ds, more, rfl, hu ▸ Spelled.codepoint hds⟩
    · split at h
      · rename_i hl
        obtain ⟨c, hc⟩ := Spelled.of_letter hl
        exact ⟨c, [l], s, rfl, hc⟩
      · cases h

/-- A scan that ends well meets the closing quote or a spelled character. -/
theorem spelled_of_scan {buffer s b rest : List CChar}
    (h : scanStringFrom .plain buffer s = (.valueString b, rest)) :
    s = 0x22 :: rest ∧ b = buffer ∨
      ∃ c t more, s = t ++ more ∧ Spelled c t ∧
        scanStringFrom .plain (buffer ++ String.utf8EncodeChar c) more = (.valueString b, rest) := by
  -- what is spelled is read by `Spelled.scan`, so it is enough to find the spelling
  suffices hfind : s = 0x22 :: rest ∧ b = buffer ∨ ∃ c t more, s = t ++ more ∧ Spelled c t by
    rcases hfind with hend | ⟨c, t, more, rfl, ht⟩
    · exact Or.inl hend
    · rw [ht.scan] at h
      exact Or.inr ⟨c, t, more, rfl, ht, h⟩
  cases s with
  | nil => cases h
  | cons a s =>
    rw [scanStringFrom_cons] at h
    unfold stringMove at h
    dsimp only at h
    split_ifs at h with hquote hback hcontrol hascii
    · obtain ⟨hb, rfl⟩ := Prod.mk.inj h
      exact Or.inl ⟨by rw [hquote], (Token.valueString.inj hb).symm⟩
    · rw [follow_goto_nil] at h
      obtain ⟨c, t, more, rfl, ht⟩ := spelled_of_escape h
      exact Or.inr ⟨c, a :: t, more, rfl, hback ▸ ht⟩
    · cases h
    · simp only [UInt8.lt_iff_toNat_lt, ← UInt8.toNat_inj, UInt8.reduceToNat] at *
      have hc := @toNat_ofNat a.toNat (by omega)
      have hplain := @Spelled.plain (Char.ofNat a.toNat) ⟨by omega, by omega, by omega⟩
      rw [utf8EncodeChar_of_lt (by omega), hc, UInt8.ofNat_toNat] at hplain
      exact Or.inr ⟨_, [a], s, rfl, hplain⟩
    · split at h
      · rename_i ranges hranges
        obtain ⟨t, more, rfl, ht⟩ := fits_of_scan h
        obtain ⟨c, hc, hencode⟩ := sequence_iff.mp (sequence_of_fits hranges ht)
        have hplain := @Spelled.plain c ⟨by omega, by omega, by omega⟩
        rw [hencode] at hplain
        exact Or.inr ⟨c, a :: t, more, rfl, hplain⟩
      · cases h

/-! ## Whole literals -/

theorem Spelled.ne_nil {c : Char} {s : List CChar} (h : Spelled c s) : s ≠ [] := by
  cases h with
  | plain => exact String.utf8EncodeChar_ne_nil
  | _ => exact List.cons_ne_nil _ _

theorem SpelledText.scan {cs : List Char} {s : List CChar} (h : SpelledText cs s)
    (buffer rest : List CChar) :
    scanStringFrom .plain buffer (s ++ 0x22 :: rest) = (.valueString (buffer ++ utf8 cs), rest) := by
  induction h generalizing buffer with
  | nil =>
    rw [utf8_nil, List.append_nil]
    rfl
  | cons hc _ ih => rw [List.append_assoc, hc.scan, ih, List.append_assoc, utf8_cons]

theorem spelledText_of_scan {buffer s b rest : List CChar}
    (h : scanStringFrom .plain buffer s = (.valueString b, rest)) :
    ∃ cs t, s = t ++ 0x22 :: rest ∧ SpelledText cs t ∧ b = buffer ++ utf8 cs := by
  generalize hn : s.length = n
  induction n using Nat.strongRecOn generalizing buffer s with
  | ind n ih =>
    obtain ⟨rfl, rfl⟩ | ⟨c, t, more, rfl, ht, hscan⟩ := spelled_of_scan h
    · exact ⟨[], [], rfl, .nil, (List.append_nil _).symm⟩
    · have hpos := List.length_pos_iff.mpr ht.ne_nil
      rw [List.length_append] at hn
      obtain ⟨cs, u, rfl, hu, rfl⟩ := ih more.length (by omega) hscan rfl
      exact ⟨c :: cs, t ++ u, by simp, .cons ht hu, by simp⟩

/-- **String literals.** The scanner reads exactly the spellings of texts up to the closing quote,
and stores the bytes of the text. -/
theorem scanString_iff {s b rest : List CChar} :
    scanString s = (.valueString b, rest) ↔
      ∃ cs t, s = t ++ 0x22 :: rest ∧ SpelledText cs t ∧ b = utf8 cs := by
  constructor
  · exact spelledText_of_scan
  · rintro ⟨cs, t, rfl, ht, rfl⟩
    exact ht.scan [] rest

end UpdateCheck.Json
