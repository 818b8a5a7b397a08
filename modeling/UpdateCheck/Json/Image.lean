import UpdateCheck.Json.Text

/-!
# The values of texts

Which values a text may have. A parsed value holds UTF-8 in its strings and keys, no key twice in an
object, and a signed number only where it is not positive; and every value of that kind is the value
of some text: `parse_image_iff`. A finite double has a decimal literal that denotes it exactly,
since ten is even.
-/

namespace UpdateCheck.Json

/-- The values of texts. -/
inductive Printable : Json → Prop
  | null : Printable .null
  | boolean (b : Bool) : Printable (.boolean b)
  | numberUnsigned (u : UInt64) : Printable (.numberUnsigned u)
  | numberInteger {i : Int64} : i.toInt ≤ 0 → Printable (.numberInteger i)
  | numberFloat (d : Double) : Printable (.numberFloat d)
  | string {s} : Utf8 s → Printable (.string s)
  | array {elems} : (∀ v ∈ elems, Printable v) → Printable (.array elems)
  | object {fields} : (fields.map Prod.fst).Nodup →
      (∀ p ∈ fields, Utf8 p.1) → (∀ p ∈ fields, Printable p.2) → Printable (.object fields)

/-! ## Parsed values -/

theorem mem_assign {fields : List (List CChar × Json)} {key : List CChar} {v : Json}
    {p : List CChar × Json} (h : p ∈ assign fields key v) : p ∈ fields ∨ p = (key, v) := by
  induction fields with
  | nil => exact Or.inr (List.mem_singleton.mp h)
  | cons q rest ih =>
    obtain ⟨k, w⟩ := q
    rw [assign] at h
    split_ifs at h with hk
    · rcases List.mem_cons.mp h with rfl | hrest
      · exact Or.inr (by rw [hk])
      · exact Or.inl (.tail _ hrest)
    · rcases List.mem_cons.mp h with rfl | hrest
      · exact Or.inl (.head _)
      · exact (ih hrest).imp_left (.tail _)

/-- The keys of an object to which a member was added. -/
theorem keys_assign (fields : List (List CChar × Json)) (key : List CChar) (v : Json) :
    (assign fields key v).map Prod.fst =
      if key ∈ fields.map Prod.fst then fields.map Prod.fst else fields.map Prod.fst ++ [key] := by
  induction fields with
  | nil => rfl
  | cons q rest ih =>
    obtain ⟨k, w⟩ := q
    rw [assign]
    by_cases hk : key = k
    · simp [hk]
    · rw [if_neg hk, List.map_cons, ih]
      split_ifs with hmem hmem' <;> simp_all

theorem nodup_keys_assign {fields : List (List CChar × Json)} {key : List CChar} {v : Json}
    (h : (fields.map Prod.fst).Nodup) : ((assign fields key v).map Prod.fst).Nodup := by
  rw [keys_assign]
  split_ifs with hmem
  · exact h
  · exact h.append (List.nodup_singleton key) (by simpa using hmem)

/-- A token of a text. -/
def Token.Clean : Token → Prop
  | valueString s => Utf8 s
  | valueInteger i => i.toInt ≤ 0
  | _ => True

/-- What `strtoll` reads behind a minus sign is not positive. -/
theorem strtoll_nonpos {text : List CChar} {i : Int64} (h : strtoll text = some i) :
    i.toInt ≤ 0 := by
  unfold strtoll at h
  dsimp only at h
  split_ifs at h with hrange
  rw [← Option.some.inj h, Int64.toInt_ofInt_of_le (by omega) (by omega)]
  omega

theorem clean_convertNumber (t : NumberType) (text : List CChar) :
    (convertNumber t text).Clean := by
  unfold convertNumber
  split
  · split <;> trivial
  · split
    · rename_i hi
      exact strtoll_nonpos hi
    · trivial
  · trivial

theorem Spells.clean {t : Token} {s : List CChar} (h : Spells t s) : t.Clean := by
  cases h with
  | @string cs s h => exact ⟨cs, rfl⟩
  | number h => exact clean_convertNumber _ _
  | _ => trivial

theorem Laid.clean {s : List CChar} {ts : List Token} (h : Laid s ts) : ∀ t ∈ ts, t.Clean := by
  induction h with
  | done => exact fun _ ht => nomatch ht
  | token _ hspells _ _ ih => exact List.forall_mem_cons.mpr ⟨hspells.clean, ih⟩

/-- What a phrase of such tokens denotes. -/
def Shape.Printable : Shape → Prop
  | value v => Json.Printable v
  | elements vs => ∀ v ∈ vs, Json.Printable v
  | members fields => (fields.map Prod.fst).Nodup ∧ (∀ p ∈ fields, Utf8 p.1) ∧
      ∀ p ∈ fields, Json.Printable p.2

theorem printable_scalar {t : Token} {v : Json} (ht : t.Clean) (h : Json.scalar t = .ok v) :
    Printable v := by
  cases t with
  | literalTrue => cases h; exact .boolean true
  | literalFalse => cases h; exact .boolean false
  | literalNull => cases h; exact .null
  | valueString s => cases h; exact .string ht
  | valueUnsigned u => cases h; exact .numberUnsigned u
  | valueInteger i => cases h; exact .numberInteger ht
  | valueFloat text =>
    rw [Json.scalar] at h
    split at h
    · cases h
      exact .numberFloat _
    · cases h
  | _ => cases h

theorem Shape.Printable.assign {fields : List (List CChar × Json)} {k : List CChar} {v : Json}
    (h : (Shape.members fields).Printable) (hk : Utf8 k) (hv : Json.Printable v) :
    (Shape.members (assign fields k v)).Printable := by
  obtain ⟨hnodup, hkeys, hvalues⟩ := h
  refine ⟨nodup_keys_assign hnodup, fun p hp => ?_, fun p hp => ?_⟩
  · rcases mem_assign hp with hp | rfl
    · exact hkeys p hp
    · exact hk
  · rcases mem_assign hp with hp | rfl
    · exact hvalues p hp
    · exact hv

theorem Denotes.printable {ts : List Token} {shape : Shape} (h : Denotes ts shape)
    (hclean : ∀ t ∈ ts, t.Clean) : shape.Printable := by
  induction h with
  | scalar hs => exact printable_scalar (hclean _ (.head _)) hs
  | emptyArray => exact .array fun _ hv => nomatch hv
  | array _ ih => exact .array (ih fun t ht => hclean t (by simp [ht]))
  | emptyObject => exact .object .nil (fun _ hp => nomatch hp) fun _ hp => nomatch hp
  | object _ ih =>
    obtain ⟨hnodup, hkeys, hvalues⟩ := ih fun t ht => hclean t (by simp [ht])
    exact .object hnodup hkeys hvalues
  | element _ ih =>
    intro v hv
    rw [List.mem_singleton.mp hv]
    exact ih hclean
  | nextElement _ _ ih ih' =>
    intro v hv
    rcases List.mem_append.mp hv with hv | hv
    · exact ih (fun t ht => hclean t (by simp [ht])) v hv
    · rw [List.mem_singleton.mp hv]
      exact ih' fun t ht => hclean t (by simp [ht])
  | member _ ih =>
    have hempty : (Shape.members []).Printable :=
      ⟨.nil, fun _ hp => (nomatch hp), fun _ hp => (nomatch hp)⟩
    exact hempty.assign (hclean _ (.head _)) (ih fun t ht => hclean t (by simp [ht]))
  | @nextMember _ _ k _ _ _ _ ih ih' =>
    have hfields := ih fun t ht => hclean t (by simp [ht])
    have hk : Utf8 k := hclean (.valueString k) (by simp)
    exact hfields.assign hk (ih' fun t ht => hclean t (by simp [ht]))

/-- A parsed value is one of those. -/
theorem printable_of_parse {s : List CChar} {root : Json} (h : parse s = .ok root) :
    Printable root := by
  obtain ⟨text, ts, -, hlexed, hroot⟩ := wholeText_content_iff.mpr h
  exact Denotes.printable hroot (laid_iff.mpr hlexed).clean

/-! ## Texts of numbers -/

theorem isDigit_ofNat {n : Nat} (h : n < 10) : isDigit (UInt8.ofNat (0x30 + n)) = true := by
  have hn : (UInt8.ofNat (0x30 + n)).toNat = 0x30 + n := by
    rw [UInt8.toNat_ofNat']
    omega
  rw [isDigit, Bool.and_eq_true, decide_eq_true_eq, decide_eq_true_eq, UInt8.le_iff_toNat_le,
    UInt8.le_iff_toNat_le, hn]
  show 48 ≤ 0x30 + n ∧ 0x30 + n ≤ 57
  omega

theorem digitsValue_append (ds : List CChar) (c : CChar) :
    digitsValue (ds ++ [c]) = 10 * digitsValue ds + (c.toNat - 0x30) := by
  rw [digitsValue, List.foldl_append]
  rfl

/-- The decimal digits of a number, without a leading zero. -/
theorem exists_decimal (n : Nat) : ∃ ds, IntPart ds ∧ Digits ds ∧ ds ≠ [] ∧ digitsValue ds = n := by
  induction n using Nat.strongRecOn with
  | ind n ih =>
    by_cases hn : n < 10
    · have hdigits : Digits [UInt8.ofNat (0x30 + n)] := .cons (isDigit_ofNat hn) .nil
      have hvalue : digitsValue [UInt8.ofNat (0x30 + n)] = n := by
        simp [digitsValue]
        omega
      refine ⟨[UInt8.ofNat (0x30 + n)], ?_, hdigits, List.cons_ne_nil _ _, hvalue⟩
      by_cases hzero : UInt8.ofNat (0x30 + n) = chr '0'
      · exact Or.inl (by rw [hzero])
      · exact Or.inr ⟨List.cons_ne_nil _ _, hdigits, by simpa using hzero⟩
    · obtain ⟨ds, hint, hdigits, hne, hvalue⟩ := ih (n / 10) (by omega)
      have hlast := isDigit_ofNat (Nat.mod_lt n (by decide : 0 < 10))
      obtain rfl | ⟨-, -, hhead⟩ := hint
      · have hzero : n / 10 = 0 := hvalue.symm
        omega
      · have hdigits' : Digits (ds ++ [UInt8.ofNat (0x30 + n % 10)]) :=
          List.forall_mem_append.mpr ⟨hdigits, Digits.cons hlast .nil⟩
        have hhead' : (ds ++ [UInt8.ofNat (0x30 + n % 10)]).head? ≠ some (chr '0') := by
          rwa [List.head?_append_of_ne_nil _ hne]
        refine ⟨_, Or.inr ⟨by simp, hdigits', hhead'⟩, hdigits', by simp, ?_⟩
        rw [digitsValue_append, hvalue, UInt8.toNat_ofNat']
        omega

theorem any_isFloating_of_digits {ds : List CChar} (h : Digits ds) : ds.any isFloating = false := by
  rw [List.any_eq_false]
  intro c hc
  simp [not_isFloating_of_isDigit (h c hc)]

/-- A token has a spelling. -/
def Spellable (t : Token) : Prop := ∃ s, Spells t s

theorem spellable_unsigned (u : UInt64) : Spellable (.valueUnsigned u) := by
  obtain ⟨ds, hint, hdigits, hne, hvalue⟩ := exists_decimal u.toNat
  have htext : NumberText ds := ⟨[], ds, [], [], by simp, Or.inl rfl, hint, Or.inl rfl, Or.inl rfl⟩
  have hminus : ds.head? ≠ some (chr '-') := by
    intro hhead
    have hmem := hdigits _ (List.mem_of_head? hhead)
    cases hmem
  have hconvert : convertNumber (numberTypeOf ds) ds = .valueUnsigned u := by
    rw [numberTypeOf, any_isFloating_of_digits hdigits, if_neg Bool.false_ne_true, if_neg hminus,
      convertNumber, strtoull, hvalue, if_pos u.toNat_lt, UInt64.ofNat_toNat]
  exact ⟨ds, hconvert ▸ Spells.number htext⟩

theorem spellable_integer {i : Int64} (hi : i.toInt ≤ 0) : Spellable (.valueInteger i) := by
  obtain ⟨ds, hint, hdigits, hne, hvalue⟩ := exists_decimal (-i.toInt).toNat
  have htext : NumberText (chr '-' :: ds) :=
    ⟨[chr '-'], ds, [], [], by simp, Or.inr rfl, hint, Or.inl rfl, Or.inl rfl⟩
  have hfloating : (chr '-' :: ds).any isFloating = false := by
    rw [List.any_cons, any_isFloating_of_digits hdigits]
    rfl
  have hlow := i.le_toInt
  have hneg : -(digitsValue ds : Int) = i.toInt := by
    rw [hvalue]
    omega
  have hread : strtoll (chr '-' :: ds) = some i := by
    simp only [strtoll, List.tail_cons, hneg]
    rw [if_pos hlow, Int64.ofInt_toInt]
  have hconvert :
      convertNumber (numberTypeOf (chr '-' :: ds)) (chr '-' :: ds) = .valueInteger i := by
    rw [numberTypeOf, hfloating, if_neg Bool.false_ne_true, if_pos List.head?_cons, convertNumber,
      hread]
  exact ⟨_, hconvert ▸ Spells.number htext⟩

/-- A literal of an integer and a negative exponent. -/
def scaledText (ds ks : List CChar) : List CChar := ds ++ (chr 'e' :: chr '-' :: ks)

theorem splitSign_of_digits {ds : List CChar} (hne : ds ≠ []) (hdigits : Digits ds)
    (s : List CChar) : splitSign (ds ++ s) = (false, ds ++ s) := by
  cases ds with
  | nil => exact absurd rfl hne
  | cons c ds =>
    have hsign := not_isSign_of_isDigit (hdigits c (.head _))
    rw [List.cons_append, splitSign, if_neg fun h => hsign (Or.inr h),
      if_neg fun h => hsign (Or.inl h)]

theorem decimalValue_of_split {text ds ks : List CChar} {negative : Bool} (hdigits : Digits ds)
    (h : splitSign text = (negative, scaledText ds ks)) :
    decimalValue text =
      if negative then -((digitsValue ds : ℚ) * 10 ^ (-(digitsValue ks : ℤ)))
      else (digitsValue ds : ℚ) * 10 ^ (-(digitsValue ks : ℤ)) := by
  have hpos : ∀ c ∈ ds, isDigit c = true := hdigits
  have htake : (scaledText ds ks).takeWhile isDigit = ds := by
    rw [scaledText, List.takeWhile_append_of_pos hpos, List.takeWhile_cons_of_neg (by decide),
      List.append_nil]
  have hdrop : (scaledText ds ks).dropWhile isDigit = chr 'e' :: chr '-' :: ks := by
    rw [scaledText, List.dropWhile_append_of_pos hpos, List.dropWhile_cons_of_neg (by decide)]
  have hpoint : (chr 'e' :: chr '-' :: ks).head? ≠ some (chr '.') := by
    rw [List.head?_cons]
    decide
  have hsplit : splitSign (chr '-' :: ks) = (true, ks) := by rw [splitSign, if_pos rfl]
  unfold decimalValue
  rw [h]
  dsimp only
  rw [htake, hdrop, if_neg hpoint, if_neg hpoint, List.tail_cons, hsplit, List.append_nil,
    List.length_nil, Nat.cast_zero, sub_zero]
  rfl

/-- A finite double is an integer over a power of ten. -/
theorem exists_scaled (d : Double) : ∃ n k : ℕ, |d.val| = (n : ℚ) * 10 ^ (-(k : ℤ)) := by
  obtain ⟨q, m, e, -, -, -, rfl⟩ := d
  have habs : |(m : ℚ) * 2 ^ e| = (m.natAbs : ℚ) * 2 ^ e := by
    rw [abs_mul, abs_of_pos (two_zpow_pos e), Nat.cast_natAbs, Int.cast_abs]
  rw [habs]
  obtain ⟨a, rfl | rfl⟩ := e.eq_nat_or_neg
  · refine ⟨m.natAbs * 2 ^ a, 0, ?_⟩
    rw [zpow_natCast, Nat.cast_zero, neg_zero, zpow_zero, mul_one]
    push_cast
    rfl
  · refine ⟨m.natAbs * 5 ^ a, a, ?_⟩
    have hten : (10 : ℚ) ^ a = 2 ^ a * 5 ^ a := by rw [← mul_pow]; norm_num
    rw [zpow_neg, zpow_neg, zpow_natCast, zpow_natCast, hten]
    push_cast
    field_simp

theorem spells_float {text : List CChar} (htext : NumberText text)
    (hfloating : chr 'e' ∈ text) : Spells (.valueFloat text) text := by
  have htype : numberTypeOf text = .float := by
    rw [numberTypeOf, if_pos (List.any_eq_true.mpr ⟨chr 'e', hfloating, rfl⟩)]
  have hspells := Spells.number htext
  rw [htype] at hspells
  exact hspells

/-- A finite double has a literal of its very value. -/
theorem spellable_float (d : Double) :
    ∃ text, strtod text = some d ∧ Spellable (.valueFloat text) := by
  obtain ⟨n, k, hval⟩ := exists_scaled d
  obtain ⟨ds, hint, hdigits, hne, rfl⟩ := exists_decimal n
  obtain ⟨ks, -, hkdigits, hkne, rfl⟩ := exists_decimal k
  have hexp : ExpPart (chr 'e' :: chr '-' :: ks) :=
    Or.inr ⟨chr 'e', [chr '-'], ks, rfl, rfl, Or.inr (Or.inr rfl), hkne, hkdigits⟩
  have hmem : chr 'e' ∈ scaledText ds ks := List.mem_append_right _ (.head _)
  by_cases hneg : d.val < 0
  · have hsplit : splitSign (chr '-' :: scaledText ds ks) = (true, scaledText ds ks) := by
      rw [splitSign, if_pos rfl]
    have htext : NumberText (chr '-' :: scaledText ds ks) :=
      ⟨[chr '-'], ds, [], _, by simp [scaledText], Or.inr rfl, hint, Or.inl rfl, hexp⟩
    have hvalue : decimalValue (chr '-' :: scaledText ds ks) = d.val := by
      rw [decimalValue_of_split hdigits hsplit, if_pos rfl, ← hval, abs_of_neg hneg, neg_neg]
    exact ⟨_, by rw [strtod, hvalue, roundDouble_val], _, spells_float htext (.tail _ hmem)⟩
  · have hsplit : splitSign (scaledText ds ks) = (false, scaledText ds ks) :=
      splitSign_of_digits hne hdigits _
    have htext : NumberText (scaledText ds ks) :=
      ⟨[], ds, [], _, by simp [scaledText], Or.inl rfl, hint, Or.inl rfl, hexp⟩
    have hvalue : decimalValue (scaledText ds ks) = d.val := by
      rw [decimalValue_of_split hdigits hsplit, if_neg Bool.false_ne_true, ← hval,
        abs_of_nonneg (not_lt.mp hneg)]
    exact ⟨_, by rw [strtod, hvalue, roundDouble_val], _, spells_float htext hmem⟩

/-! ## Texts of strings -/

/-- A hexadecimal digit. -/
def hexChr (n : Nat) : CChar := UInt8.ofNat (if n < 10 then 0x30 + n else 0x57 + n)

theorem hexDigit_hexChr : ∀ n < 16, hexDigit (hexChr n) = (n : Int) := by decide

theorem spelled_control {c : Char} (h : c.toNat < 0x20) : ∃ s, Spelled c s := by
  have hzero := hexDigit_hexChr 0 (by decide)
  have hhigh := hexDigit_hexChr (c.toNat / 16) (by omega)
  have hlow := hexDigit_hexChr (c.toNat % 16) (by omega)
  have hdigits : FourDigits
      [hexChr 0, hexChr 0, hexChr (c.toNat / 16), hexChr (c.toNat % 16)] c.toNat := by
    refine ⟨rfl, ?_, ?_⟩
    · simp [hzero, hhigh, hlow]
      omega
    · simp only [List.foldl_cons, List.foldl_nil, hzero, hhigh, hlow, Int.toNat_natCast]
      omega
  exact ⟨_, .codepoint hdigits⟩

theorem exists_spelled (c : Char) : ∃ s, Spelled c s := by
  by_cases hcontrol : c.toNat < 0x20
  · exact spelled_control hcontrol
  · by_cases hquote : c.toNat = 0x22
    · exact ⟨[0x5C, 0x22], .letter (by rw [hquote]; rfl) (by omega)⟩
    · by_cases hback : c.toNat = 0x5C
      · exact ⟨[0x5C, 0x5C], .letter (by rw [hback]; rfl) (by omega)⟩
      · exact ⟨_, .plain ⟨by omega, hquote, hback⟩⟩

theorem exists_spelledText (cs : List Char) : ∃ s, SpelledText cs s := by
  induction cs with
  | nil => exact ⟨[], .nil⟩
  | cons c cs ih =>
    obtain ⟨s, hs⟩ := exists_spelled c
    obtain ⟨t, ht⟩ := ih
    exact ⟨s ++ t, .cons hs ht⟩

theorem spellable_string {s : List CChar} (h : Utf8 s) : Spellable (.valueString s) := by
  obtain ⟨cs, rfl⟩ := h
  obtain ⟨t, ht⟩ := exists_spelledText cs
  exact ⟨_, .string ht⟩

/-! ## Texts of values -/

/-- A phrase whose tokens have spellings. -/
def Written (shape : Shape) : Prop := ∃ ts, Denotes ts shape ∧ ∀ t ∈ ts, Spellable t

theorem Written.scalar {t : Token} {v : Json} (h : Json.scalar t = .ok v) (ht : Spellable t) :
    Written (.value v) := ⟨[t], .scalar h, by simpa using ht⟩

theorem written_elements {vs : List Json} (hne : vs ≠ [])
    (h : ∀ v ∈ vs, Written (.value v)) : Written (.elements vs) := by
  induction vs using List.reverseRecOn with
  | nil => exact absurd rfl hne
  | append_singleton vs v ih =>
    obtain ⟨us, hus, hspell⟩ := h v (by simp)
    by_cases hvs : vs = []
    · subst hvs
      exact ⟨us, .element hus, hspell⟩
    · obtain ⟨ts, hts, hspell'⟩ := ih hvs fun w hw => h w (by simp [hw])
      refine ⟨_, .nextElement hts hus, ?_⟩
      simp only [List.forall_mem_append, List.forall_mem_cons]
      exact ⟨hspell', ⟨_, .valueSeparator⟩, hspell⟩

theorem assign_of_notMem {fields : List (List CChar × Json)} {k : List CChar}
    (h : k ∉ fields.map Prod.fst) (v : Json) : assign fields k v = fields ++ [(k, v)] := by
  induction fields with
  | nil => rfl
  | cons p rest ih =>
    rw [List.map_cons, List.mem_cons, not_or] at h
    rw [assign, if_neg h.1, ih h.2, List.cons_append]

theorem written_members {fields : List (List CChar × Json)} (hne : fields ≠ [])
    (hnodup : (fields.map Prod.fst).Nodup) (hkeys : ∀ p ∈ fields, Utf8 p.1)
    (h : ∀ p ∈ fields, Written (.value p.2)) : Written (.members fields) := by
  induction fields using List.reverseRecOn with
  | nil => exact absurd rfl hne
  | append_singleton fields p ih =>
    obtain ⟨k, v⟩ := p
    obtain ⟨us, hus, hspell⟩ := h (k, v) (by simp)
    have hk := spellable_string (hkeys (k, v) (by simp))
    rw [List.map_append, List.nodup_append'] at hnodup
    have hnew : k ∉ fields.map Prod.fst := fun hmem => hnodup.2.2 hmem (by simp)
    rw [← assign_of_notMem hnew]
    by_cases hfields : fields = []
    · subst hfields
      refine ⟨_, .member hus, ?_⟩
      simp only [List.forall_mem_cons]
      exact ⟨hk, ⟨_, .nameSeparator⟩, hspell⟩
    · obtain ⟨ts, hts, hspell'⟩ := ih hfields hnodup.1 (fun q hq => hkeys q (by simp [hq]))
        fun q hq => h q (by simp [hq])
      refine ⟨_, .nextMember hts hus, ?_⟩
      simp only [List.forall_mem_append, List.forall_mem_cons]
      exact ⟨hspell', ⟨_, .valueSeparator⟩, hk, ⟨_, .nameSeparator⟩, hspell⟩

theorem spellable_between {b e : Token} {ts : List Token} (hb : Spellable b) (he : Spellable e)
    (h : ∀ t ∈ ts, Spellable t) : ∀ t ∈ b :: ts ++ [e], Spellable t := by
  rw [List.forall_mem_append, List.forall_mem_cons, List.forall_mem_singleton]
  exact ⟨⟨hb, h⟩, he⟩

theorem spellable_array {ts : List Token} (h : ∀ t ∈ ts, Spellable t) :
    ∀ t ∈ .beginArray :: ts ++ [.endArray], Spellable t :=
  spellable_between ⟨_, .beginArray⟩ ⟨_, .endArray⟩ h

theorem spellable_object {ts : List Token} (h : ∀ t ∈ ts, Spellable t) :
    ∀ t ∈ .beginObject :: ts ++ [.endObject], Spellable t :=
  spellable_between ⟨_, .beginObject⟩ ⟨_, .endObject⟩ h

theorem Printable.written {v : Json} (h : Printable v) : Written (.value v) := by
  induction h with
  | null => exact @Written.scalar .literalNull _ rfl ⟨_, .literalNull⟩
  | boolean b =>
    cases b with
    | false => exact @Written.scalar .literalFalse _ rfl ⟨_, .literalFalse⟩
    | true => exact @Written.scalar .literalTrue _ rfl ⟨_, .literalTrue⟩
  | numberUnsigned u => exact @Written.scalar (.valueUnsigned u) _ rfl (spellable_unsigned u)
  | numberInteger hi => exact @Written.scalar (.valueInteger _) _ rfl (spellable_integer hi)
  | numberFloat d =>
    obtain ⟨text, hread, hspell⟩ := spellable_float d
    exact @Written.scalar (.valueFloat text) _ (by rw [Json.scalar, hread]) hspell
  | string hs => exact @Written.scalar (.valueString _) _ rfl (spellable_string hs)
  | @array elems _ ih =>
    by_cases hne : elems = []
    · exact hne ▸ ⟨_, .emptyArray, @spellable_array [] (List.forall_mem_nil _)⟩
    · obtain ⟨ts, hts, hspell⟩ := written_elements hne ih
      exact ⟨_, .array hts, spellable_array hspell⟩
  | @object fields hnodup hkeys _ ih =>
    by_cases hne : fields = []
    · exact hne ▸ ⟨_, .emptyObject, @spellable_object [] (List.forall_mem_nil _)⟩
    · obtain ⟨ts, hts, hspell⟩ := written_members hne hnodup hkeys ih
      exact ⟨_, .object hts, spellable_object hspell⟩

/-! ## Texts -/

theorem space_notMem_of_accepts {st : NumberState} {s : List CChar} (h : accepts st s = true) :
    0x20 ∉ s := by
  induction s generalizing st with
  | nil => exact List.not_mem_nil
  | cons c s ih =>
    obtain ⟨st', hmove, hrest⟩ := accepts_cons_iff.mp h
    rw [List.mem_cons, not_or]
    refine ⟨?_, ih hrest⟩
    rintro rfl
    cases st <;> cases hmove

/-- A space ends a number. -/
theorem not_extends_space (s rest : List CChar) : ¬ Extends s (0x20 :: rest) := by
  rintro ⟨c, r, more, hcons, hmore⟩
  obtain ⟨rfl, -⟩ := List.cons.inj hcons
  exact space_notMem_of_accepts (accepts_iff.mpr hmore) (by simp)

/-- Tokens with spellings can be laid out, with a space in front of each. -/
theorem exists_laid {ts : List Token} (h : ∀ t ∈ ts, Spellable t) :
    ∃ s, Laid s ts ∧ (s = [] ∨ ∃ r, s = 0x20 :: r) := by
  induction ts with
  | nil => exact ⟨[], .done fun _ hc => (nomatch hc), Or.inl rfl⟩
  | cons t ts ih =>
    obtain ⟨⟨u, hu⟩, hrest⟩ := List.forall_mem_cons.mp h
    obtain ⟨s, hs, hhead⟩ := ih hrest
    have hspace : Spaces [0x20] := by
      intro c hc
      rw [List.mem_singleton.mp hc]
      rfl
    have hnot : ¬ Extends u s := by
      obtain rfl | ⟨r, rfl⟩ := hhead
      · rintro ⟨c, r, more, hnil, -⟩
        cases hnil
      · exact not_extends_space u r
    exact ⟨_, .token hspace hu hnot hs, Or.inr ⟨_, rfl⟩⟩

theorem skipBom_of_space {s : List CChar} (h : s = [] ∨ ∃ r, s = 0x20 :: r) : skipBom s = some s := by
  obtain rfl | ⟨r, rfl⟩ := h
  · rfl
  · exact if_neg (by simp)

/-- Every such value has a text, and one without a NUL. -/
theorem Printable.exists_text {v : Json} (h : Printable v) : ∃ s, 0 ∉ s ∧ parse s = .ok v := by
  obtain ⟨ts, hts, hspell⟩ := h.written
  obtain ⟨s, hs, hhead⟩ := exists_laid hspell
  exact ⟨s, wholeText_iff.mp ⟨s, ts, skipBom_of_space hhead, laid_iff.mp hs, hts⟩⟩

/-- **The image of the parser.** A value is the value of some document exactly where its strings and
keys are UTF-8, no key comes twice in an object and no signed number is positive. -/
theorem parse_image_iff {v : Json} : (∃ s, parse s = .ok v) ↔ Printable v := by
  constructor
  · rintro ⟨s, hs⟩
    exact printable_of_parse hs
  · intro h
    obtain ⟨s, -, hs⟩ := h.exists_text
    exact ⟨s, hs⟩

end UpdateCheck.Json
