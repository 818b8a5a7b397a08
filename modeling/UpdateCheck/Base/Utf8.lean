import UpdateCheck.Base.CString

/-!
# UTF-8

The bytes of a text, and the byte strings that are the bytes of some text. The sequences of more
than one byte are those of the table of the standard, with its four lead bytes that narrow the byte
behind them: `sequence_iff` says that they encode exactly the characters from `0x80` on. A NUL in
the bytes is a NUL in the text, so a C string cut from a text is a text again (`Utf8.content`).
-/

namespace UpdateCheck

/-- The bytes of a text. -/
def utf8 (cs : List Char) : List CChar := cs.flatMap String.utf8EncodeChar

/-- The bytes of some text. -/
def Utf8 (s : List CChar) : Prop := ∃ cs, s = utf8 cs

@[simp] theorem utf8_nil : utf8 [] = [] := rfl

@[simp] theorem utf8_cons (c : Char) (cs : List Char) :
    utf8 (c :: cs) = String.utf8EncodeChar c ++ utf8 cs := rfl

@[simp] theorem utf8_append (cs ds : List Char) : utf8 (cs ++ ds) = utf8 cs ++ utf8 ds :=
  List.flatMap_append

theorem Utf8.nil : Utf8 [] := ⟨[], rfl⟩

theorem Utf8.append {s t : List CChar} (hs : Utf8 s) (ht : Utf8 t) : Utf8 (s ++ t) := by
  obtain ⟨cs, rfl⟩ := hs
  obtain ⟨ds, rfl⟩ := ht
  exact ⟨cs ++ ds, (utf8_append cs ds).symm⟩

/-! ## Characters by their number -/

theorem toNat_ofNat {n : Nat} (h : n < 0xD800 ∨ 0xDFFF < n ∧ n < 0x110000) :
    (Char.ofNat n).toNat = n := by
  have hvalid : n.isValidChar := h
  rw [Char.ofNat, dif_pos hvalid]
  rfl

theorem toNat_valid (c : Char) : c.toNat < 0xD800 ∨ 0xDFFF < c.toNat ∧ c.toNat < 0x110000 :=
  c.valid

theorem utf8EncodeChar_of_lt {c : Char} (h : c.toNat < 0x80) :
    String.utf8EncodeChar c = [UInt8.ofNat c.toNat] := by
  rw [String.utf8EncodeChar]
  exact if_pos (Nat.le_of_lt_succ h)

/-- Bytes below `0x80` are a text of as many characters. -/
theorem utf8_of_ascii {s : List CChar} (h : ∀ c ∈ s, c.toNat < 0x80) : Utf8 s := by
  induction s with
  | nil => exact .nil
  | cons c s ih =>
    obtain ⟨hc, hs⟩ := List.forall_mem_cons.mp h
    have hn := @toNat_ofNat c.toNat (by omega)
    have hhead : Utf8 [c] := by
      refine ⟨[Char.ofNat c.toNat], ?_⟩
      rw [utf8_cons, utf8_nil, List.append_nil, utf8EncodeChar_of_lt (by omega), hn,
        UInt8.ofNat_toNat]
    exact hhead.append (ih hs)

theorem CChar.IsAlnum.lt {c : CChar} (h : c.IsAlnum) : c.toNat < 0x80 := by
  by_contra hc
  have hneg := (CChar.toInt_neg_iff c).mpr (by omega)
  simp only [CChar.IsAlnum, isalpha, isdigit, Bool.or_eq_true, Bool.and_eq_true,
    decide_eq_true_eq] at h
  omega

/-! ## Sequences of more than one byte -/

/-- A byte behind a lead byte. -/
def Tail (b : CChar) : Prop := 0x80 ≤ b.toNat ∧ b.toNat ≤ 0xBF

/-- The table of the sequences of more than one byte. -/
inductive Sequence : List CChar → Prop
  | two {a b} : 0xC2 ≤ a.toNat → a.toNat ≤ 0xDF → Tail b → Sequence [a, b]
  | three {a b c} : 0xE0 ≤ a.toNat → a.toNat ≤ 0xEF → Tail b → Tail c →
      (a.toNat = 0xE0 → 0xA0 ≤ b.toNat) → (a.toNat = 0xED → b.toNat ≤ 0x9F) → Sequence [a, b, c]
  | four {a b c d} : 0xF0 ≤ a.toNat → a.toNat ≤ 0xF4 → Tail b → Tail c → Tail d →
      (a.toNat = 0xF0 → 0x90 ≤ b.toNat) → (a.toNat = 0xF4 → b.toNat ≤ 0x8F) → Sequence [a, b, c, d]

theorem Sequence.tails {s : List CChar} (h : Sequence s) : ∀ b ∈ s, 0x80 ≤ b.toNat := by
  intro x hx
  cases h with
  | two ha _ hb =>
    simp only [List.mem_cons, List.not_mem_nil, or_false] at hx
    rcases hx with rfl | rfl
    · omega
    · exact hb.1
  | three ha _ hb hc =>
    simp only [List.mem_cons, List.not_mem_nil, or_false] at hx
    rcases hx with rfl | rfl | rfl
    · omega
    · exact hb.1
    · exact hc.1
  | four ha _ hb hc hd =>
    simp only [List.mem_cons, List.not_mem_nil, or_false] at hx
    rcases hx with rfl | rfl | rfl | rfl
    · omega
    · exact hb.1
    · exact hc.1
    · exact hd.1

/-- A character from `0x80` on is encoded by a sequence of the table. -/
theorem utf8EncodeChar_sequence {c : Char} (h : 0x80 ≤ c.toNat) :
    Sequence (String.utf8EncodeChar c) := by
  have hvalid := toNat_valid c
  unfold String.utf8EncodeChar
  simp only [show c.val.toNat = c.toNat from rfl]
  split_ifs with h1 h2 h3
  · omega
  · constructor
    all_goals simp [Tail]
    all_goals omega
  · constructor
    all_goals simp [Tail]
    all_goals omega
  · constructor
    all_goals simp [Tail]
    all_goals omega

/-- A sequence of the table encodes the character that its bits add up to. -/
theorem Sequence.encodes {s : List CChar} (h : Sequence s) :
    ∃ c : Char, 0x80 ≤ c.toNat ∧ String.utf8EncodeChar c = s := by
  cases h with
  | @two a b ha ha' hb =>
    obtain ⟨hb, hb'⟩ := hb
    have hn := @toNat_ofNat ((a.toNat - 0xC0) * 64 + (b.toNat - 0x80)) (by omega)
    refine ⟨_, by rw [hn]; omega, ?_⟩
    unfold String.utf8EncodeChar
    simp only [show ∀ c : Char, c.val.toNat = c.toNat from fun _ => rfl, hn]
    rw [if_neg (by omega), if_pos (by omega)]
    simp only [List.cons.injEq, ← UInt8.toNat_inj, UInt8.toNat_ofNat', and_true]
    constructor <;> omega
  | @three a b c ha ha' hb hc he0 hed =>
    obtain ⟨hb, hb'⟩ := hb
    obtain ⟨hc, hc'⟩ := hc
    have hn := @toNat_ofNat
      ((a.toNat - 0xE0) * 4096 + (b.toNat - 0x80) * 64 + (c.toNat - 0x80)) (by omega)
    refine ⟨_, by rw [hn]; omega, ?_⟩
    unfold String.utf8EncodeChar
    simp only [show ∀ c : Char, c.val.toNat = c.toNat from fun _ => rfl, hn]
    rw [if_neg (by omega), if_neg (by omega), if_pos (by omega)]
    simp only [List.cons.injEq, ← UInt8.toNat_inj, UInt8.toNat_ofNat', and_true]
    refine ⟨?_, ?_, ?_⟩ <;> omega
  | @four a b c d ha ha' hb hc hd hf0 hf4 =>
    obtain ⟨hb, hb'⟩ := hb
    obtain ⟨hc, hc'⟩ := hc
    obtain ⟨hd, hd'⟩ := hd
    have hn := @toNat_ofNat ((a.toNat - 0xF0) * 262144 + (b.toNat - 0x80) * 4096 +
      (c.toNat - 0x80) * 64 + (d.toNat - 0x80)) (by omega)
    refine ⟨_, by rw [hn]; omega, ?_⟩
    unfold String.utf8EncodeChar
    simp only [show ∀ c : Char, c.val.toNat = c.toNat from fun _ => rfl, hn]
    rw [if_neg (by omega), if_neg (by omega), if_neg (by omega)]
    simp only [List.cons.injEq, ← UInt8.toNat_inj, UInt8.toNat_ofNat', and_true]
    refine ⟨?_, ?_, ?_, ?_⟩ <;> omega

theorem sequence_iff {s : List CChar} :
    Sequence s ↔ ∃ c : Char, 0x80 ≤ c.toNat ∧ String.utf8EncodeChar c = s := by
  constructor
  · exact Sequence.encodes
  · rintro ⟨c, hc, rfl⟩
    exact utf8EncodeChar_sequence hc

/-! ## C strings -/

theorem zero_mem_utf8EncodeChar_iff {c : Char} : 0 ∈ String.utf8EncodeChar c ↔ c.toNat = 0 := by
  constructor
  · intro hmem
    by_cases h : c.toNat < 0x80
    · rw [utf8EncodeChar_of_lt h, List.mem_singleton, ← UInt8.toNat_inj] at hmem
      simp only [UInt8.toNat_ofNat'] at hmem
      simp at hmem
      omega
    · exact absurd ((utf8EncodeChar_sequence (by omega)).tails 0 hmem) (by decide)
  · intro h
    rw [utf8EncodeChar_of_lt (by omega), h]
    exact .head _

/-- What stands before the first NUL of a text is a text. -/
theorem Utf8.content {s : List CChar} (h : Utf8 s) : Utf8 (content s) := by
  obtain ⟨cs, rfl⟩ := h
  induction cs with
  | nil => exact .nil
  | cons c cs ih =>
    rw [utf8_cons]
    by_cases hc : c.toNat = 0
    · rw [utf8EncodeChar_of_lt (by omega), hc]
      exact .nil
    · have hzero : 0 ∉ String.utf8EncodeChar c := mt zero_mem_utf8EncodeChar_iff.mp hc
      rw [content_append_of_notMem hzero]
      exact .append ⟨[c], by simp⟩ ih

end UpdateCheck
