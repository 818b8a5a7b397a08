import UpdateCheck.Json.NumberLiterals
import UpdateCheck.Json.StringLiterals
import UpdateCheck.Json.Whole

/-!
# Texts

The spellings of the tokens, and the texts that lay out a list of tokens, with white space wherever
one likes and with each number as long as it can be. The lexer reads exactly these texts
(`laid_iff`), so the parser accepts exactly the documents that the grammar derives, down to their
bytes: `parse_text_iff`.
-/

namespace UpdateCheck.Json

/-! ## Tokens -/

/-- The spellings of a token. -/
inductive Spells : Token → List CChar → Prop
  | beginArray : Spells .beginArray [chr '[']
  | endArray : Spells .endArray [chr ']']
  | beginObject : Spells .beginObject [0x7B]
  | endObject : Spells .endObject [0x7D]
  | nameSeparator : Spells .nameSeparator [chr ':']
  | valueSeparator : Spells .valueSeparator [chr ',']
  | literalTrue : Spells .literalTrue (ascii "true")
  | literalFalse : Spells .literalFalse (ascii "false")
  | literalNull : Spells .literalNull (ascii "null")
  | string {cs s} : SpelledText cs s → Spells (.valueString (utf8 cs)) (0x22 :: (s ++ [0x22]))
  | number {s} : NumberText s → Spells (convertNumber (numberTypeOf s) s) s

def Spaces (s : List CChar) : Prop := ∀ c ∈ s, isSpace c = true

/-- The texts that lay out a list of tokens. -/
inductive Laid : List CChar → List Token → Prop
  | done {s} : Spaces s → Laid s []
  | token {gap s rest t ts} : Spaces gap → Spells t s → ¬ Extends s rest → Laid rest ts →
      Laid (gap ++ (s ++ rest)) (t :: ts)

/-! ## One token -/

theorem number_head {s : List CChar} (h : NumberText s) :
    ∃ c r, s = c :: r ∧ (c = chr '-' ∨ isDigit c = true) := by
  rw [← accepts_iff] at h
  cases s with
  | nil => cases h
  | cons c r =>
    obtain ⟨q, hmove, -⟩ := accepts_cons_iff.mp h
    refine ⟨c, r, rfl, ?_⟩
    unfold numberMove at hmove
    dsimp only at hmove
    split_ifs at hmove with hminus hzero hdigit
    · exact Or.inl hminus
    · exact Or.inr (by rw [hzero]; rfl)
    · exact Or.inr hdigit

/-- What begins like no number is followed by anything. -/
theorem not_extends {c : CChar} {s rest : List CChar} (hminus : c ≠ chr '-')
    (hdigit : isDigit c = false) : ¬ Extends (c :: s) rest := by
  rintro ⟨d, r, more, -, hmore⟩
  obtain ⟨c', r', hcons, hhead⟩ := number_head hmore
  obtain ⟨rfl, -⟩ := List.cons.inj hcons
  rcases hhead with h | h
  · exact hminus h
  · rw [hdigit] at h
    cases h

theorem Spells.last {t : Token} {s : List CChar} (h : Spells t s) : t.last = false := by
  cases h with
  | number h =>
    unfold convertNumber
    repeat' split
    all_goals rfl
  | _ => rfl

theorem scanFrom_number {c : CChar} (hc : c = chr '-' ∨ isDigit c = true) (rest : List CChar) :
    scanFrom c rest = scanNumber (c :: rest) := by
  rcases hc with rfl | hc
  · rfl
  · have hne : ∀ d, isDigit d = false → c ≠ d := by
      rintro d hd rfl
      rw [hc] at hd
      cases hd
    unfold scanFrom
    rw [if_neg (hne _ rfl), if_neg (hne _ rfl), if_neg (hne _ rfl), if_neg (hne _ rfl),
      if_neg (hne _ rfl), if_neg (hne _ rfl), if_neg (hne _ rfl), if_neg (hne _ rfl),
      if_neg (hne _ rfl), if_neg (hne _ rfl), if_pos (Or.inr hc)]

theorem scan_cons {c : CChar} (hc : isSpace c = false) (rest : List CChar) :
    scan (c :: rest) = scanFrom c rest := by
  rw [scan, List.dropWhile_cons_of_neg (by simp [hc])]

theorem not_isSpace {c : CChar} (hc : c = chr '-' ∨ isDigit c = true) : isSpace c = false := by
  by_contra h
  simp only [isSpace, Bool.not_eq_false, Bool.or_eq_true, decide_eq_true_eq] at h
  rcases h with ((rfl | rfl) | rfl) | rfl
  all_goals rcases hc with hc | hc <;> cases hc

/-- A spelled token is read as a whole. -/
theorem Spells.scan {t : Token} {s : List CChar} (h : Spells t s) {rest : List CChar}
    (hrest : ¬ Extends s rest) : Json.scan (s ++ rest) = (t, rest) := by
  cases h with
  | @string cs s h =>
    rw [List.cons_append, scan_cons rfl, List.append_assoc, List.singleton_append]
    exact scanString_iff.mpr ⟨cs, s, rfl, h, rfl⟩
  | number h =>
    obtain ⟨c, r, rfl, hc⟩ := number_head h
    rw [List.cons_append, scan_cons (not_isSpace hc), scanFrom_number hc]
    exact (scanNumber_iff (convertNumber_ne_parseError _ _)).mpr ⟨c :: r, rfl, h, hrest, rfl⟩
  | _ => rfl

/-- The token of a scan is spelled by what was read, as long as it can be. -/
def Reads (s : List CChar) (r : Token × List CChar) : Prop :=
  r.1.last = false → ∃ text, s = text ++ r.2 ∧ Spells r.1 text ∧ ¬ Extends text r.2

theorem Reads.of_last {s : List CChar} {r : Token × List CChar} (h : r.1.last = true) :
    Reads s r := by
  intro hlast
  rw [h] at hlast
  cases hlast

theorem Reads.byte {c : CChar} {t : Token} (h : Spells t [c]) (hminus : c ≠ chr '-')
    (hdigit : isDigit c = false) (rest : List CChar) : Reads (c :: rest) (t, rest) :=
  fun _ => ⟨[c], rfl, h, not_extends hminus hdigit⟩

theorem Reads.literal {c : CChar} {literal : List CChar} {t : Token}
    (h : Spells t (c :: literal)) (hminus : c ≠ chr '-') (hdigit : isDigit c = false)
    (rest : List CChar) : Reads (c :: rest) (scanLiteral literal t rest) := by
  unfold scanLiteral
  split_ifs with hprefix
  · obtain ⟨more, rfl⟩ := List.isPrefixOf_iff_prefix.mp hprefix
    rw [List.drop_left]
    exact fun _ => ⟨c :: literal, rfl, h, not_extends hminus hdigit⟩
  · exact .of_last rfl

theorem scanStringFrom_cases (st : StringState) (buffer s : List CChar) :
    (∃ b, (scanStringFrom st buffer s).1 = .valueString b) ∨
      (scanStringFrom st buffer s).1 = .parseError := by
  induction s generalizing st buffer with
  | nil => exact Or.inr rfl
  | cons c s ih =>
    rw [scanStringFrom]
    split
    · exact ih _ _
    · exact Or.inl ⟨buffer, rfl⟩
    · exact Or.inr rfl

theorem Reads.string (rest : List CChar) : Reads (0x22 :: rest) (scanString rest) := by
  rcases hscan : scanString rest with ⟨t, more⟩
  have hcases := scanStringFrom_cases .plain [] rest
  rw [show scanStringFrom .plain [] rest = (t, more) from hscan] at hcases
  obtain ⟨b, rfl⟩ | rfl := hcases
  · obtain ⟨cs, body, rfl, hbody, rfl⟩ := scanString_iff.mp hscan
    exact fun _ => ⟨0x22 :: (body ++ [0x22]), by simp, .string hbody, not_extends (by decide) rfl⟩
  · exact .of_last rfl

theorem Reads.number {c : CChar} (rest : List CChar) : Reads (c :: rest) (scanNumber (c :: rest)) := by
  intro hlast
  rcases hscan : scanNumber (c :: rest) with ⟨t, more⟩
  rw [hscan] at hlast
  have hne : t ≠ .parseError := by
    rintro rfl
    cases hlast
  obtain ⟨text, hcons, htext, hnot, rfl⟩ := (scanNumber_iff hne).mp hscan
  exact ⟨text, hcons, .number htext, hnot⟩

theorem scanFrom_reads (c : CChar) (rest : List CChar) : Reads (c :: rest) (scanFrom c rest) := by
  unfold scanFrom
  refine iteInduction (fun h => ?_) fun _ => ?_
  · exact h ▸ .byte .beginArray (by decide) rfl rest
  refine iteInduction (fun h => ?_) fun _ => ?_
  · exact h ▸ .byte .endArray (by decide) rfl rest
  refine iteInduction (fun h => ?_) fun _ => ?_
  · exact h ▸ .byte .beginObject (by decide) rfl rest
  refine iteInduction (fun h => ?_) fun _ => ?_
  · exact h ▸ .byte .endObject (by decide) rfl rest
  refine iteInduction (fun h => ?_) fun _ => ?_
  · exact h ▸ .byte .nameSeparator (by decide) rfl rest
  refine iteInduction (fun h => ?_) fun _ => ?_
  · exact h ▸ .byte .valueSeparator (by decide) rfl rest
  refine iteInduction (fun h => ?_) fun _ => ?_
  · exact h ▸ .literal .literalTrue (by decide) rfl rest
  refine iteInduction (fun h => ?_) fun _ => ?_
  · exact h ▸ .literal .literalFalse (by decide) rfl rest
  refine iteInduction (fun h => ?_) fun _ => ?_
  · exact h ▸ .literal .literalNull (by decide) rfl rest
  refine iteInduction (fun h => ?_) fun _ => ?_
  · exact h ▸ .string rest
  refine iteInduction (fun _ => .number rest) fun _ => ?_
  exact iteInduction (fun _ => .of_last rfl) fun _ => .of_last rfl

/-! ## Whole texts -/

theorem scan_of_spaces_append {gap s : List CChar} (h : Spaces gap) :
    scan (gap ++ s) = scan s := by
  rw [scan, scan, List.dropWhile_append_of_pos h]

theorem Laid.lexed {s : List CChar} {ts : List Token} (h : Laid s ts) : Lexed s ts := by
  induction h with
  | done hs => exact .done (List.dropWhile_eq_nil_iff.mpr hs)
  | @token gap s rest t ts hgap hspells hrest _ ih =>
    have hscan : Json.scan (gap ++ (s ++ rest)) = (t, rest) := by
      rw [scan_of_spaces_append hgap, hspells.scan hrest]
    have hlexed := @Lexed.token (gap ++ (s ++ rest)) ts
    rw [hscan] at hlexed
    exact hlexed hspells.last ih

theorem scan_reads (s : List CChar) : Reads (s.dropWhile isSpace) (scan s) := by
  unfold scan
  split
  · exact .of_last rfl
  · rename_i c rest hcons
    rw [hcons]
    exact scanFrom_reads c rest

theorem laid_of_lexed {s : List CChar} {ts : List Token} (h : Lexed s ts) : Laid s ts := by
  induction h with
  | done hs => exact .done (List.dropWhile_eq_nil_iff.mp hs)
  | @token s ts hlast _ ih =>
    obtain ⟨text, htext, hspells, hrest⟩ := scan_reads s hlast
    have hgap : Spaces (s.takeWhile isSpace) := fun c hc => List.mem_takeWhile_imp hc
    have hlaid := Laid.token hgap hspells hrest ih
    rw [← htext, List.takeWhile_append_dropWhile] at hlaid
    exact hlaid

/-- The lexer reads exactly the laid out texts. -/
theorem laid_iff {s : List CChar} {ts : List Token} : Laid s ts ↔ Lexed s ts :=
  ⟨Laid.lexed, laid_of_lexed⟩

/-- **Texts.** The parser returns a value exactly for the documents whose part before the first NUL
is a text of it, behind a byte order mark or none. -/
theorem parse_text_iff {s : List CChar} {root : Json} :
    parse s = .ok root ↔
      ∃ text ts, skipBom (content s) = some text ∧ Laid text ts ∧ TextOf ts root := by
  rw [← wholeText_content_iff, WholeText]
  simp only [laid_iff]

end UpdateCheck.Json
