import UpdateCheck.Json.Grammar

/-!
# Whole inputs

The parser is given a C string, so it reads an input up to its first NUL. `WholeText` says of an
input that all of it, whatever bytes it holds, is one JSON text. No token holds a NUL
(`Lexed.zero_notMem`), so the two readings agree exactly on the inputs without one:
`wholeText_iff`.
-/

namespace UpdateCheck.Json

/-- The tokens of an input that is used up by them, up to white space. -/
inductive Lexed : List CChar → List Token → Prop
  | done {s} : s.dropWhile isSpace = [] → Lexed s []
  | token {s ts} : (scan s).1.last = false → Lexed (scan s).2 ts → Lexed s ((scan s).1 :: ts)

/-- The whole input, behind a byte order mark, is a JSON text of the given value. -/
def WholeText (s : List CChar) (root : Json) : Prop :=
  ∃ text ts, skipBom s = some text ∧ Lexed text ts ∧ TextOf ts root

/-! ## No token holds a NUL -/

/-- A NUL in the input of a scanner is left for the scans behind it, unless it ends them. -/
def LeavesNul (s : List CChar) (r : Token × List CChar) : Prop :=
  r.1.last = false → 0 ∈ s → 0 ∈ r.2

theorem LeavesNul.of_last {s : List CChar} {r : Token × List CChar} (h : r.1.last = true) :
    LeavesNul s r := by
  intro hlast
  rw [h] at hlast
  cases hlast

/-- The ranges still due hold no NUL. -/
def StringState.Clean : StringState → Prop
  | .inRange ranges => ∀ r ∈ ranges, ¬ r.1 ≤ 0
  | _ => True

/-- The state a move leads to, where there is one, is clean. -/
def StringMove.Clean : StringMove → Prop
  | .goto _ st => st.Clean
  | _ => True

theorem clean_continuation {c : CChar} {ranges : List (CChar × CChar)}
    (h : continuation c = some ranges) : (StringState.inRange ranges).Clean := by
  unfold continuation at h
  unfold StringState.Clean
  split_ifs at h
  all_goals
    obtain rfl := Option.some.inj h
    simp

theorem codepointMove_clean (high : Option Nat) (codepoint : Nat) :
    (codepointMove high codepoint).Clean := by
  unfold codepointMove
  split <;> split_ifs <;> trivial

theorem stringMove_clean {st : StringState} (hst : st.Clean) (c : CChar) :
    (stringMove st c).Clean := by
  cases st with
  | plain =>
    unfold stringMove
    dsimp only
    split_ifs
    iterate 4 trivial
    split
    · rename_i hranges
      exact clean_continuation hranges
    · trivial
  | escape =>
    unfold stringMove
    dsimp only
    split_ifs
    · trivial
    · split <;> trivial
  | hex high due sum =>
    unfold stringMove
    dsimp only
    split_ifs
    · trivial
    · exact codepointMove_clean _ _
    · trivial
  | inRange ranges =>
    unfold stringMove
    cases ranges with
    | nil => trivial
    | cons r rest =>
      dsimp only
      split_ifs
      · trivial
      · exact fun r' hr' => hst r' (.tail _ hr')
      · trivial
  | _ =>
    unfold stringMove
    dsimp only
    split_ifs <;> trivial

/-- A NUL is an error everywhere in a string. -/
theorem stringMove_zero {st : StringState} (hst : st.Clean) : stringMove st 0 = .error := by
  cases st with
  | inRange ranges =>
    cases ranges with
    | nil => rfl
    | cons r rest =>
      have hlow := hst r (.head _)
      unfold stringMove
      exact if_neg fun h => hlow h.1
  | _ => rfl

theorem scanStringFrom_leavesNul {st : StringState} (hst : st.Clean) (buffer s : List CChar) :
    LeavesNul s (scanStringFrom st buffer s) := by
  induction s generalizing st buffer with
  | nil => exact .of_last rfl
  | cons c rest ih =>
    rw [scanStringFrom]
    by_cases hc : c = 0
    · rw [hc, stringMove_zero hst]
      exact .of_last rfl
    · have hclean := stringMove_clean hst c
      have hrest : 0 ∈ c :: rest → 0 ∈ rest := fun hmem =>
        (List.mem_cons.mp hmem).resolve_left (Ne.symm hc)
      split
      · rename_i added st' hmove
        rw [hmove] at hclean
        exact fun hlast hmem => ih hclean (buffer ++ added) hlast (hrest hmem)
      · exact fun _ => hrest
      · exact .of_last rfl

theorem numberMove_goto {st st' : NumberState} {c : CChar} (h : numberMove st c = .goto st') :
    c ≠ 0 := by
  rintro rfl
  cases st <;> cases h

theorem scanNumberFrom_leavesNul (st : NumberState) (t : NumberType) (buffer s : List CChar)
    (h : (scanNumberFrom st t buffer s).1 ≠ none) (hmem : 0 ∈ s) :
    0 ∈ (scanNumberFrom st t buffer s).2 := by
  induction s generalizing st t buffer with
  | nil => cases hmem
  | cons c rest ih =>
    rw [scanNumberFrom] at h ⊢
    cases hmove : numberMove st c with
    | goto st' =>
      rw [hmove] at h
      have hc := numberMove_goto hmove
      exact ih _ _ _ h ((List.mem_cons.mp hmem).resolve_left hc.symm)
    | done => exact hmem
    | error =>
      rw [hmove] at h
      exact absurd rfl h

theorem scanNumber_leavesNul (s : List CChar) : LeavesNul s (scanNumber s) := by
  have h := scanNumberFrom_leavesNul .init .unsigned [] s
  unfold scanNumber
  split
  · rename_i heq
    rw [heq] at h
    exact fun _ => h (by simp)
  · exact .of_last rfl

theorem scanLiteral_leavesNul {literal : List CChar} (t : Token) (s : List CChar)
    (hliteral : 0 ∉ literal) : LeavesNul s (scanLiteral literal t s) := by
  unfold scanLiteral
  split
  · rename_i hpre
    obtain ⟨rest, rfl⟩ := List.isPrefixOf_iff_prefix.mp hpre
    intro _ hmem
    rw [List.drop_left]
    exact (List.mem_append.mp hmem).resolve_left hliteral
  · exact .of_last rfl

theorem scanFrom_leavesNul (c : CChar) (rest : List CChar) : LeavesNul rest (scanFrom c rest) := by
  apply scanFrom_cases
  · exact fun _ _ _ hmem => hmem
  · exact fun l t hl _ => scanLiteral_leavesNul t rest hl
  · exact scanStringFrom_leavesNul (show StringState.Clean .plain from trivial) [] rest
  · exact fun hlast hmem => scanNumber_leavesNul _ hlast (.tail _ hmem)
  · exact fun _ => .of_last rfl

theorem scan_leavesNul (s : List CChar) : LeavesNul s (scan s) := by
  intro hlast hmem
  rw [← List.takeWhile_append_dropWhile (p := isSpace) (l := s), List.mem_append] at hmem
  have hspaces : 0 ∉ s.takeWhile isSpace := fun h => by
    have hzero := List.mem_takeWhile_imp h
    revert hzero
    decide
  have hdrop := hmem.resolve_left hspaces
  unfold scan at hlast ⊢
  split
  · rename_i heq
    rw [heq] at hdrop
    cases hdrop
  · rename_i c rest heq
    rw [heq] at hdrop hlast
    rcases List.mem_cons.mp hdrop with rfl | hrest
    · cases hlast
    · exact scanFrom_leavesNul c rest hlast hrest

theorem Lexed.zero_notMem {s : List CChar} {ts : List Token} (h : Lexed s ts) : 0 ∉ s := by
  induction h with
  | @done s hs =>
    intro hmem
    have hspace := List.dropWhile_eq_nil_iff.mp hs 0 hmem
    revert hspace
    decide
  | @token s ts hlast _ ih => exact fun hmem => ih (scan_leavesNul s hlast hmem)

/-! ## The end of the input -/

theorem scanStringFrom_ne_endOfInput (st : StringState) (buffer s : List CChar) :
    (scanStringFrom st buffer s).1 ≠ .endOfInput := by
  induction s generalizing st buffer with
  | nil => exact Token.noConfusion
  | cons c rest ih =>
    rw [scanStringFrom]
    split
    · exact ih _ _
    · exact Token.noConfusion
    · exact Token.noConfusion

theorem scanNumber_ne_endOfInput (s : List CChar) : (scanNumber s).1 ≠ .endOfInput := by
  unfold scanNumber
  split
  · unfold convertNumber
    repeat' split
    all_goals exact Token.noConfusion
  · exact Token.noConfusion

theorem scanLiteral_ne_endOfInput {t : Token} (ht : t ≠ .endOfInput) (literal s : List CChar) :
    (scanLiteral literal t s).1 ≠ .endOfInput := by
  unfold scanLiteral
  split
  · exact ht
  · exact Token.noConfusion

/-- A byte other than NUL is never the end of the input. -/
theorem scanFrom_ne_endOfInput {c : CChar} (hc : c ≠ 0) (rest : List CChar) :
    (scanFrom c rest).1 ≠ .endOfInput := by
  apply scanFrom_cases (P := fun r => r.1 ≠ .endOfInput)
  · exact fun _ ht => ht
  · exact fun l t _ ht => scanLiteral_ne_endOfInput ht l rest
  · exact scanStringFrom_ne_endOfInput .plain [] rest
  · exact scanNumber_ne_endOfInput (c :: rest)
  · exact fun h => absurd h hc

theorem scan_endOfInput {s : List CChar} (hs : 0 ∉ s) (h : (scan s).1 = .endOfInput) :
    s.dropWhile isSpace = [] := by
  unfold scan at h
  split at h
  · assumption
  · rename_i c rest heq
    have hmem : c ∈ s := (List.dropWhile_suffix isSpace).mem (by rw [heq]; exact .head _)
    exact absurd h (scanFrom_ne_endOfInput (fun hc => hs (hc ▸ hmem)) rest)

theorem scan_of_spaces {s : List CChar} (h : s.dropWhile isSpace = []) :
    scan s = (.endOfInput, []) := by
  rw [scan, h]

/-- Without a NUL, the tokens of a whole input are those the parser reads. -/
theorem lexed_iff {fuel : Nat} {s : List CChar} {ts : List Token} (hfuel : s.length < fuel)
    (hs : 0 ∉ s) : Lexed s ts ↔ tokensFrom fuel s = ts ++ [.endOfInput] := by
  induction fuel generalizing s ts with
  | zero => exact absurd hfuel (Nat.not_lt_zero _)
  | succ fuel ih =>
    unfold tokensFrom
    dsimp only
    cases hlast : (scan s).1.last with
    | true =>
      constructor
      · intro h
        cases h with
        | done hspaces =>
          rw [scan_of_spaces hspaces]
          rfl
        | token hnot =>
          rw [hlast] at hnot
          cases hnot
      · intro h
        cases ts with
        | nil => exact .done (scan_endOfInput hs (List.cons.inj h).1)
        | cons u us => cases us <;> cases h
    | false =>
      have hrest : 0 ∉ (scan s).2 := fun hmem => hs ((scan_suffix s).mem hmem)
      have hlt := length_scan_lt hlast
      constructor
      · intro h
        cases h with
        | done hspaces =>
          rw [scan_of_spaces hspaces] at hlast
          cases hlast
        | token _ htail =>
          exact congrArg (List.cons _) ((ih (by omega) hrest).mp htail)
      · intro h
        cases ts with
        | nil =>
          rw [(List.cons.inj h).1] at hlast
          cases hlast
        | cons u us =>
          obtain ⟨rfl, htail⟩ := List.cons.inj h
          exact .token hlast ((ih (by omega) hrest).mpr htail)

/-! ## Whole texts -/

/-- The byte order mark holds no NUL. -/
theorem zero_mem_skipBom {s text : List CChar} (h : skipBom s = some text) : 0 ∈ s ↔ 0 ∈ text := by
  unfold skipBom at h
  split_ifs at h with hmark hrest
  · obtain rfl := Option.some.inj h
    cases s with
    | nil => cases hmark
    | cons c s =>
      obtain rfl := Option.some.inj hmark
      obtain ⟨rest, rfl⟩ := List.isPrefixOf_iff_prefix.mp hrest
      simp
  · rw [Option.some.inj h]

theorem tokens_of_skipBom {s text : List CChar} (h : skipBom s = some text) :
    tokens s = tokensFrom (text.length + 1) text := by
  rw [tokens, h]

/-- An input is a JSON text as a whole exactly where it holds no NUL and the parser accepts it. -/
theorem wholeText_iff {s : List CChar} {root : Json} :
    WholeText s root ↔ 0 ∉ s ∧ parse s = .ok root := by
  rw [parse_ok_iff]
  constructor
  · intro h
    obtain ⟨text, ts, hbom, hlexed, htext⟩ := h
    have hclean := hlexed.zero_notMem
    have hs : 0 ∉ s := fun hmem => hclean ((zero_mem_skipBom hbom).mp hmem)
    refine ⟨hs, ts, ?_, htext⟩
    rw [content_eq_self hs, tokens_of_skipBom hbom]
    exact (lexed_iff (Nat.lt_succ_self _) hclean).mp hlexed
  · intro h
    obtain ⟨hs, ts, htokens, htext⟩ := h
    rw [content_eq_self hs] at htokens
    cases hbom : skipBom s with
    | none =>
      rw [tokens, hbom] at htokens
      cases ts with
      | nil => cases htokens
      | cons u us => cases us <;> cases htokens
    | some text =>
      rw [tokens_of_skipBom hbom] at htokens
      have hclean : 0 ∉ text := fun hmem => hs ((zero_mem_skipBom hbom).mpr hmem)
      exact ⟨text, ts, hbom, (lexed_iff (Nat.lt_succ_self _) hclean).mpr htokens, htext⟩

/-- The parser accepts the inputs whose part before the first NUL is a JSON text. -/
theorem wholeText_content_iff {s : List CChar} {root : Json} :
    WholeText (content s) root ↔ parse s = .ok root := by
  have hparse : parse (content s) = parse s := by
    rw [parse, parse, content_eq_self (zero_notMem_content s)]
  rw [wholeText_iff, and_iff_right (zero_notMem_content s), hparse]

end UpdateCheck.Json
