import UpdateCheck.Json.Lexer

/-!
# Number literals

The grammar of number literals: a sign or none, an integer without a leading zero, and perhaps a
fraction and an exponent. The automaton of the library accepts exactly these texts (`accepts_iff`),
and the scanner reads the longest of them that stands at the head of its input, with the type that
its text has: `scanNumber_iff`.
-/

namespace UpdateCheck.Json

/-! ## The grammar -/

def Digits (s : List CChar) : Prop := ∀ c ∈ s, isDigit c = true

def IntPart (s : List CChar) : Prop :=
  s = [chr '0'] ∨ s ≠ [] ∧ Digits s ∧ s.head? ≠ some (chr '0')

def FracPart (s : List CChar) : Prop :=
  s = [] ∨ ∃ ds, s = chr '.' :: ds ∧ ds ≠ [] ∧ Digits ds

def ExpPart (s : List CChar) : Prop :=
  s = [] ∨ ∃ e sign ds, s = e :: (sign ++ ds) ∧ isExponent e = true ∧
    (sign = [] ∨ sign = [chr '+'] ∨ sign = [chr '-']) ∧ ds ≠ [] ∧ Digits ds

/-- A number literal. -/
def NumberText (s : List CChar) : Prop :=
  ∃ sign int frac exp, s = sign ++ int ++ frac ++ exp ∧ (sign = [] ∨ sign = [chr '-']) ∧
    IntPart int ∧ FracPart frac ∧ ExpPart exp

/-- A longer literal, or the beginning of one, stands here. -/
def Extends (text rest : List CChar) : Prop :=
  ∃ c r more, rest = c :: r ∧ NumberText (text ++ c :: more)

/-- The bytes that only a floating-point number holds. -/
def isFloating (c : CChar) : Bool := c = chr '.' || isExponent c

/-- The type of a literal by its text. -/
def numberTypeOf (text : List CChar) : NumberType :=
  if text.any isFloating then .float
  else if text.head? = some (chr '-') then .integer
  else .unsigned

/-! ## The automaton -/

/-- The automaton accepts a text as a whole. -/
def accepts (st : NumberState) : List CChar → Bool
  | [] => st.accepting
  | c :: s =>
    match numberMove st c with
    | .goto st => accepts st s
    | _ => false

theorem accepts_cons_iff {st : NumberState} {c : CChar} {s : List CChar} :
    accepts st (c :: s) = true ↔ ∃ st', numberMove st c = .goto st' ∧ accepts st' s = true := by
  rw [accepts]
  cases numberMove st c with
  | goto st' => simp
  | _ => simp

/-! ### What is accepted is a literal -/

/-- What the automaton reads from one of its states on, up to an accepting one. -/
def NumberState.Reads : NumberState → List CChar → Prop
  | init, s => NumberText s
  | minus, s => ∃ int frac exp, s = int ++ frac ++ exp ∧ IntPart int ∧ FracPart frac ∧ ExpPart exp
  | zero, s => ∃ frac exp, s = frac ++ exp ∧ FracPart frac ∧ ExpPart exp
  | any1, s => ∃ ds frac exp, s = ds ++ frac ++ exp ∧ Digits ds ∧ FracPart frac ∧ ExpPart exp
  | decimal1, s => ∃ ds exp, s = ds ++ exp ∧ ds ≠ [] ∧ Digits ds ∧ ExpPart exp
  | decimal2, s => ∃ ds exp, s = ds ++ exp ∧ Digits ds ∧ ExpPart exp
  | exponent, s => ∃ sign ds, s = sign ++ ds ∧
      (sign = [] ∨ sign = [chr '+'] ∨ sign = [chr '-']) ∧ ds ≠ [] ∧ Digits ds
  | sign, s => s ≠ [] ∧ Digits s
  | any2, s => Digits s

theorem Digits.nil : Digits [] := fun _ h => nomatch h

theorem Digits.cons {c : CChar} {s : List CChar} (hc : isDigit c = true) (hs : Digits s) :
    Digits (c :: s) := List.forall_mem_cons.mpr ⟨hc, hs⟩

theorem reads_nil {st : NumberState} (h : st.accepting = true) : st.Reads [] := by
  cases st with
  | zero => exact ⟨[], [], rfl, Or.inl rfl, Or.inl rfl⟩
  | any1 => exact ⟨[], [], [], rfl, .nil, Or.inl rfl, Or.inl rfl⟩
  | decimal2 => exact ⟨[], [], rfl, .nil, Or.inl rfl⟩
  | any2 => exact Digits.nil
  | _ => cases h

/-- An exponent behind its letter. -/
theorem NumberState.Reads.expPart {c : CChar} {s : List CChar} (hc : isExponent c = true)
    (h : NumberState.exponent.Reads s) : ExpPart (c :: s) := by
  obtain ⟨sign, ds, rfl, hsign, hne, hds⟩ := h
  exact Or.inr ⟨c, sign, ds, rfl, hc, hsign, hne, hds⟩

/-- A fraction and what may follow it, behind the point. -/
theorem NumberState.Reads.fracPart {s : List CChar} (h : NumberState.decimal1.Reads s) :
    NumberState.zero.Reads (chr '.' :: s) := by
  obtain ⟨ds, exp, rfl, hne, hds, hexp⟩ := h
  exact ⟨chr '.' :: ds, exp, rfl, Or.inr ⟨ds, rfl, hne, hds⟩, hexp⟩

/-- An integer whose first digit was read. -/
theorem NumberState.Reads.intPart {c : CChar} {s : List CChar} (hc : isDigit c = true)
    (hzero : c ≠ chr '0') (h : NumberState.any1.Reads s) : NumberState.minus.Reads (c :: s) := by
  obtain ⟨ds, frac, exp, rfl, hds, hfrac, hexp⟩ := h
  exact ⟨c :: ds, frac, exp, rfl,
    Or.inr ⟨List.cons_ne_nil _ _, .cons hc hds, by simpa using hzero⟩, hfrac, hexp⟩

theorem NumberState.Reads.intZero {s : List CChar} (h : NumberState.zero.Reads s) :
    NumberState.minus.Reads (chr '0' :: s) := by
  obtain ⟨frac, exp, rfl, hfrac, hexp⟩ := h
  exact ⟨[chr '0'], frac, exp, rfl, Or.inl rfl, hfrac, hexp⟩

theorem NumberState.Reads.unsigned {s : List CChar} (h : NumberState.minus.Reads s) :
    NumberText s := by
  obtain ⟨int, frac, exp, rfl, hint, hfrac, hexp⟩ := h
  exact ⟨[], int, frac, exp, rfl, Or.inl rfl, hint, hfrac, hexp⟩

theorem NumberState.Reads.signed {s : List CChar} (h : NumberState.minus.Reads s) :
    NumberText (chr '-' :: s) := by
  obtain ⟨int, frac, exp, rfl, hint, hfrac, hexp⟩ := h
  exact ⟨[chr '-'], int, frac, exp, rfl, Or.inr rfl, hint, hfrac, hexp⟩

theorem NumberState.Reads.anyOfZero {s : List CChar} (h : NumberState.zero.Reads s) :
    NumberState.any1.Reads s := by
  obtain ⟨frac, exp, rfl, hfrac, hexp⟩ := h
  exact ⟨[], frac, exp, rfl, .nil, hfrac, hexp⟩

theorem reads_cons {st st' : NumberState} {c : CChar} {s : List CChar}
    (hmove : numberMove st c = .goto st') (h : st'.Reads s) : st.Reads (c :: s) := by
  cases st with
  | init =>
    unfold numberMove at hmove
    dsimp only at hmove
    split_ifs at hmove with hminus hzero hdigit
    all_goals obtain rfl := NumberMove.goto.inj hmove
    · exact hminus ▸ h.signed
    · exact hzero ▸ h.intZero.unsigned
    · exact (h.intPart hdigit hzero).unsigned
  | minus =>
    unfold numberMove at hmove
    dsimp only at hmove
    split_ifs at hmove with hzero hdigit
    all_goals obtain rfl := NumberMove.goto.inj hmove
    · exact hzero ▸ h.intZero
    · exact h.intPart hdigit hzero
  | zero =>
    unfold numberMove at hmove
    dsimp only at hmove
    split_ifs at hmove with hpoint hexp
    all_goals obtain rfl := NumberMove.goto.inj hmove
    · exact hpoint ▸ h.fracPart
    · exact ⟨[], _, rfl, Or.inl rfl, h.expPart hexp⟩
  | any1 =>
    unfold numberMove at hmove
    dsimp only at hmove
    split_ifs at hmove with hdigit hpoint hexp
    all_goals obtain rfl := NumberMove.goto.inj hmove
    · obtain ⟨ds, frac, exp, rfl, hds, hparts⟩ := h
      exact ⟨c :: ds, frac, exp, rfl, .cons hdigit hds, hparts⟩
    · exact hpoint ▸ h.fracPart.anyOfZero
    · exact ⟨[], [], _, rfl, .nil, Or.inl rfl, h.expPart hexp⟩
  | decimal1 =>
    unfold numberMove at hmove
    dsimp only at hmove
    split_ifs at hmove with hdigit
    obtain rfl := NumberMove.goto.inj hmove
    obtain ⟨ds, exp, rfl, hds, hexp⟩ := h
    exact ⟨c :: ds, exp, rfl, List.cons_ne_nil _ _, .cons hdigit hds, hexp⟩
  | decimal2 =>
    unfold numberMove at hmove
    dsimp only at hmove
    split_ifs at hmove with hdigit hexp
    all_goals obtain rfl := NumberMove.goto.inj hmove
    · obtain ⟨ds, exp, rfl, hds, hexp⟩ := h
      exact ⟨c :: ds, exp, rfl, .cons hdigit hds, hexp⟩
    · exact ⟨[], _, rfl, .nil, h.expPart hexp⟩
  | exponent =>
    unfold numberMove at hmove
    dsimp only at hmove
    split_ifs at hmove with hsign hdigit
    all_goals obtain rfl := NumberMove.goto.inj hmove
    · exact ⟨[c], s, rfl, Or.inr (by simpa using hsign), h⟩
    · exact ⟨[], c :: s, rfl, Or.inl rfl, List.cons_ne_nil _ _, .cons hdigit h⟩
  | sign =>
    unfold numberMove at hmove
    dsimp only at hmove
    split_ifs at hmove with hdigit
    obtain rfl := NumberMove.goto.inj hmove
    exact ⟨List.cons_ne_nil _ _, .cons hdigit h⟩
  | any2 =>
    unfold numberMove at hmove
    dsimp only at hmove
    split_ifs at hmove with hdigit
    obtain rfl := NumberMove.goto.inj hmove
    exact Digits.cons hdigit h

theorem reads_of_accepts {st : NumberState} {s : List CChar} (h : accepts st s = true) :
    st.Reads s := by
  induction s generalizing st with
  | nil => exact reads_nil h
  | cons c s ih =>
    obtain ⟨st', hmove, hrest⟩ := accepts_cons_iff.mp h
    exact reads_cons hmove (ih hrest)

/-! ### Every literal is accepted -/

theorem accepts_digits {st : NumberState} (hst : ∀ c, isDigit c = true → numberMove st c = .goto st)
    {ds : List CChar} (hds : Digits ds) (s : List CChar) : accepts st (ds ++ s) = accepts st s := by
  induction ds with
  | nil => rfl
  | cons c ds ih =>
    obtain ⟨hc, hrest⟩ := List.forall_mem_cons.mp hds
    rw [List.cons_append, accepts, hst c hc]
    exact ih hrest

theorem accepts_someDigits {st st' : NumberState}
    (hst : ∀ c, isDigit c = true → numberMove st c = .goto st')
    (hst' : ∀ c, isDigit c = true → numberMove st' c = .goto st') {ds : List CChar} (hne : ds ≠ [])
    (hds : Digits ds) (s : List CChar) : accepts st (ds ++ s) = accepts st' s := by
  cases ds with
  | nil => exact absurd rfl hne
  | cons c ds =>
    obtain ⟨hc, hrest⟩ := List.forall_mem_cons.mp hds
    rw [List.cons_append, accepts, hst c hc]
    exact accepts_digits hst' hrest s

theorem not_isSign_of_isDigit {c : CChar} (h : isDigit c = true) : ¬ (c = chr '+' ∨ c = chr '-') := by
  rintro (rfl | rfl) <;> cases h

theorem numberMove_any1 {c : CChar} (h : isDigit c = true) : numberMove .any1 c = .goto .any1 :=
  if_pos h

theorem numberMove_decimal1 {c : CChar} (h : isDigit c = true) :
    numberMove .decimal1 c = .goto .decimal2 := if_pos h

theorem numberMove_decimal2 {c : CChar} (h : isDigit c = true) :
    numberMove .decimal2 c = .goto .decimal2 := if_pos h

theorem numberMove_exponent {c : CChar} (h : isDigit c = true) :
    numberMove .exponent c = .goto .any2 := by
  rw [numberMove, if_neg (not_isSign_of_isDigit h), if_pos h]

theorem numberMove_sign {c : CChar} (h : isDigit c = true) : numberMove .sign c = .goto .any2 :=
  if_pos h

theorem numberMove_any2 {c : CChar} (h : isDigit c = true) : numberMove .any2 c = .goto .any2 :=
  if_pos h

theorem isExponent_iff {c : CChar} : isExponent c = true ↔ c = chr 'e' ∨ c = chr 'E' := by
  simp [isExponent]

/-- A state behind which an exponent may stand, or nothing. -/
structure NumberState.Closing (st : NumberState) : Prop where
  accepting : st.accepting = true
  exponent : ∀ c, isExponent c = true → numberMove st c = .goto .exponent

theorem closing_zero : NumberState.zero.Closing := by
  refine ⟨rfl, fun c hc => ?_⟩
  rcases isExponent_iff.mp hc with rfl | rfl <;> rfl

theorem closing_any1 : NumberState.any1.Closing := by
  refine ⟨rfl, fun c hc => ?_⟩
  rcases isExponent_iff.mp hc with rfl | rfl <;> rfl

theorem closing_decimal2 : NumberState.decimal2.Closing := by
  refine ⟨rfl, fun c hc => ?_⟩
  rcases isExponent_iff.mp hc with rfl | rfl <;> rfl

theorem ExpPart.accepted {st : NumberState} (hst : st.Closing) {s : List CChar} (h : ExpPart s) :
    accepts st s = true := by
  obtain rfl | ⟨e, sign, ds, rfl, he, hsign, hne, hds⟩ := h
  · exact hst.accepting
  · rw [accepts, hst.exponent e he]
    show accepts .exponent (sign ++ ds) = true
    have hdigits : accepts .sign ds = true := by
      have hsome := accepts_someDigits @numberMove_sign @numberMove_any2 hne hds []
      rw [List.append_nil] at hsome
      exact hsome
    rcases hsign with rfl | rfl | rfl
    · have hsome := accepts_someDigits @numberMove_exponent @numberMove_any2 hne hds []
      rw [List.append_nil] at hsome
      exact hsome
    · exact hdigits
    · exact hdigits

theorem FracPart.accepted {st : NumberState} (hst : st.Closing)
    (hpoint : numberMove st (chr '.') = .goto .decimal1) {frac exp : List CChar}
    (hfrac : FracPart frac) (hexp : ExpPart exp) : accepts st (frac ++ exp) = true := by
  obtain rfl | ⟨ds, rfl, hne, hds⟩ := hfrac
  · exact hexp.accepted hst
  · rw [List.cons_append, accepts, hpoint]
    show accepts .decimal1 (ds ++ exp) = true
    rw [accepts_someDigits @numberMove_decimal1 @numberMove_decimal2 hne hds]
    exact hexp.accepted closing_decimal2

theorem IntPart.accepted {st : NumberState} (hzero : numberMove st (chr '0') = .goto .zero)
    (hdigit : ∀ c, isDigit c = true → c ≠ chr '0' → numberMove st c = .goto .any1)
    {int frac exp : List CChar} (hint : IntPart int) (hfrac : FracPart frac) (hexp : ExpPart exp) :
    accepts st (int ++ (frac ++ exp)) = true := by
  obtain rfl | ⟨hne, hds, hhead⟩ := hint
  · rw [List.singleton_append, accepts, hzero]
    exact hfrac.accepted closing_zero rfl hexp
  · cases int with
    | nil => exact absurd rfl hne
    | cons c ds =>
      obtain ⟨hc, hrest⟩ := List.forall_mem_cons.mp hds
      rw [List.cons_append, accepts, hdigit c hc (by simpa using hhead)]
      show accepts .any1 (ds ++ (frac ++ exp)) = true
      rw [accepts_digits @numberMove_any1 hrest]
      exact hfrac.accepted closing_any1 rfl hexp

/-- The automaton accepts exactly the number literals. -/
theorem accepts_iff {s : List CChar} : accepts .init s = true ↔ NumberText s := by
  constructor
  · exact reads_of_accepts
  · rintro ⟨sign, int, frac, exp, rfl, hsign, hint, hfrac, hexp⟩
    have hdigit : ∀ c, isDigit c = true → c ≠ chr '0' → numberMove .init c = .goto .any1 := by
      intro c hc hzero
      have hminus : c ≠ chr '-' := fun h => not_isSign_of_isDigit hc (Or.inr h)
      rw [numberMove, if_neg hminus, if_neg hzero, if_pos hc]
    have hdigit' : ∀ c, isDigit c = true → c ≠ chr '0' → numberMove .minus c = .goto .any1 := by
      intro c hc hzero
      rw [numberMove, if_neg hzero, if_pos hc]
    rcases hsign with rfl | rfl
    · rw [List.nil_append, List.append_assoc]
      exact hint.accepted rfl hdigit hfrac hexp
    · rw [List.append_assoc, List.append_assoc]
      exact hint.accepted rfl hdigit' hfrac hexp

/-! ## The scanner -/

/-- The state behind a text that the automaton reads, with the type of the number. -/
def numberRun (st : NumberState) (t : NumberType) : List CChar → Option (NumberState × NumberType)
  | [] => some (st, t)
  | c :: s =>
    match numberMove st c with
    | .goto st => numberRun st (t.enter st) s
    | _ => none

theorem numberRun_cons_iff {st st' : NumberState} {t t' : NumberType} {c : CChar} {s : List CChar} :
    numberRun st t (c :: s) = some (st', t') ↔
      ∃ q, numberMove st c = .goto q ∧ numberRun q (t.enter q) s = some (st', t') := by
  rw [numberRun]
  cases numberMove st c with
  | goto q => simp
  | _ => simp

/-- What is accepted is what leads to an accepting state. -/
theorem accepts_append {st st' : NumberState} {t t' : NumberType} {s : List CChar}
    (h : numberRun st t s = some (st', t')) (more : List CChar) :
    accepts st (s ++ more) = accepts st' more := by
  induction s generalizing st t with
  | nil =>
    cases h
    rfl
  | cons c s ih =>
    obtain ⟨q, hmove, hrun⟩ := numberRun_cons_iff.mp h
    rw [List.cons_append, accepts, hmove]
    exact ih hrun

theorem numberRun_of_accepts {st : NumberState} {s : List CChar} (h : accepts st s = true)
    (t : NumberType) : ∃ st' t', numberRun st t s = some (st', t') ∧ st'.accepting = true := by
  induction s generalizing st t with
  | nil => exact ⟨st, t, rfl, h⟩
  | cons c s ih =>
    obtain ⟨q, hmove, hrest⟩ := accepts_cons_iff.mp h
    obtain ⟨st', t', hrun, hst'⟩ := ih hrest (t.enter q)
    exact ⟨st', t', numberRun_cons_iff.mpr ⟨q, hmove, hrun⟩, hst'⟩

/-- Every state can be led to an accepting one. -/
theorem exists_accepts (st : NumberState) : ∃ s, accepts st s = true := by
  cases st with
  | zero => exact ⟨[], rfl⟩
  | any1 => exact ⟨[], rfl⟩
  | decimal2 => exact ⟨[], rfl⟩
  | any2 => exact ⟨[], rfl⟩
  | _ => exact ⟨[chr '0'], rfl⟩

theorem accepting_of_done {st : NumberState} {c : CChar} (h : numberMove st c = .done) :
    st.accepting = true := by
  cases st
  all_goals
    first
    | rfl
    | unfold numberMove at h
      dsimp only at h
      split_ifs at h

theorem numberMove_ne_error {st : NumberState} (hst : st.accepting = true) (c : CChar) :
    numberMove st c ≠ .error := by
  intro h
  cases st
  all_goals
    first
    | exact absurd hst (by decide)
    | unfold numberMove at h
      dsimp only at h
      split_ifs at h

/-- The automaton stops before the rest. -/
def NumberState.StopsAt (st : NumberState) (rest : List CChar) : Prop :=
  ∀ c r, rest = c :: r → numberMove st c = .done

/-- It stops exactly where no longer literal begins. -/
theorem stopsAt_iff {st : NumberState} {t t' : NumberType} {text rest : List CChar}
    (hrun : numberRun .init t text = some (st, t')) (hst : st.accepting = true) :
    st.StopsAt rest ↔ ¬ Extends text rest := by
  constructor
  · rintro hstop ⟨c, r, more, rfl, hmore⟩
    rw [← accepts_iff, accepts_append hrun] at hmore
    obtain ⟨q, hmove, -⟩ := accepts_cons_iff.mp hmore
    rw [hstop c r rfl] at hmove
    cases hmove
  · intro hnot c r hrest
    cases hmove : numberMove st c with
    | done => rfl
    | error => exact absurd hmove (numberMove_ne_error hst c)
    | goto q =>
      obtain ⟨more, hmore⟩ := exists_accepts q
      refine absurd ⟨c, r, more, hrest, ?_⟩ hnot
      rw [← accepts_iff, accepts_append hrun]
      exact accepts_cons_iff.mpr ⟨q, hmove, hmore⟩

theorem scanNumberFrom_append {st st' : NumberState} {t t' : NumberType} {body : List CChar}
    (h : numberRun st t body = some (st', t')) (buffer rest : List CChar) :
    scanNumberFrom st t buffer (body ++ rest) = scanNumberFrom st' t' (buffer ++ body) rest := by
  induction body generalizing st t buffer with
  | nil =>
    cases h
    rw [List.nil_append, List.append_nil]
  | cons c body ih =>
    obtain ⟨q, hmove, hrun⟩ := numberRun_cons_iff.mp h
    rw [List.cons_append, scanNumberFrom, hmove]
    show scanNumberFrom q (t.enter q) (buffer ++ [c]) (body ++ rest) = _
    rw [ih hrun, List.append_assoc, List.singleton_append]

theorem scanNumberFrom_stops {st : NumberState} {rest : List CChar} (hst : st.accepting = true)
    (hstop : st.StopsAt rest) (t : NumberType) (buffer : List CChar) :
    scanNumberFrom st t buffer rest = (some (t, buffer), rest) := by
  cases rest with
  | nil => rw [scanNumberFrom, if_pos hst]
  | cons c r => rw [scanNumberFrom, hstop c r rfl]

theorem run_of_scanNumberFrom {st : NumberState} {t t' : NumberType} {buffer s text rest : List CChar}
    (h : scanNumberFrom st t buffer s = (some (t', text), rest)) :
    ∃ body st', s = body ++ rest ∧ text = buffer ++ body ∧ numberRun st t body = some (st', t') ∧
      st'.accepting = true ∧ st'.StopsAt rest := by
  induction s generalizing st t buffer with
  | nil =>
    rw [scanNumberFrom] at h
    split_ifs at h with hst
    · cases h
      refine ⟨[], st, rfl, (List.append_nil _).symm, rfl, hst, ?_⟩
      exact fun _ _ hr => absurd hr.symm (List.cons_ne_nil _ _)
    · cases h
  | cons c s ih =>
    rw [scanNumberFrom] at h
    cases hmove : numberMove st c with
    | goto q =>
      rw [hmove] at h
      obtain ⟨body, st', rfl, rfl, hrun, hend⟩ := ih h
      exact ⟨c :: body, st', rfl, by simp, numberRun_cons_iff.mpr ⟨q, hmove, hrun⟩, hend⟩
    | done =>
      rw [hmove] at h
      cases h
      refine ⟨[], st, rfl, (List.append_nil _).symm, rfl, accepting_of_done hmove, ?_⟩
      intro c' r' hr
      rw [← (List.cons.inj hr).1, hmove]
    | error =>
      rw [hmove] at h
      cases h

/-! ### Types -/

theorem not_isFloating_of_isDigit {c : CChar} (h : isDigit c = true) : isFloating c = false := by
  by_contra hc
  simp only [isFloating, isExponent, Bool.not_eq_false, Bool.or_eq_true, decide_eq_true_eq] at hc
  rcases hc with rfl | rfl | rfl <;> cases h

/-- A point and an exponent lead to states of their own. -/
theorem isFloating_of_goto {st st' : NumberState} {c : CChar}
    (hmove : numberMove st c = .goto st') :
    (st' = .decimal1 ∨ st' = .exponent) ∧ isFloating c = true ∨
      (st' ≠ .decimal1 ∧ st' ≠ .exponent) ∧ isFloating c = false := by
  cases st
  all_goals
    unfold numberMove at hmove
    dsimp only at hmove
    split_ifs at hmove
  all_goals
    obtain rfl := NumberMove.goto.inj hmove
    rename_i hc
    first
    | exact Or.inr ⟨⟨NumberState.noConfusion, NumberState.noConfusion⟩, not_isFloating_of_isDigit hc⟩
    | exact Or.inr ⟨⟨NumberState.noConfusion, NumberState.noConfusion⟩, by rw [hc]; rfl⟩
    | exact Or.inr ⟨⟨NumberState.noConfusion, NumberState.noConfusion⟩, by rcases hc with rfl | rfl <;> rfl⟩
    | exact Or.inl ⟨Or.inl rfl, by rw [hc]; rfl⟩
    | exact Or.inl ⟨Or.inr rfl, by rw [isFloating, hc, Bool.or_true]⟩

/-- The automaton is at a sign behind the first byte only. -/
theorem init_of_goto_minus {st : NumberState} {c : CChar} (hmove : numberMove st c = .goto .minus) :
    st = .init := by
  cases st
  all_goals
    first
    | rfl
    | unfold numberMove at hmove
      dsimp only at hmove
      split_ifs at hmove
      all_goals cases NumberMove.goto.inj hmove

theorem ne_init_of_goto {st st' : NumberState} {c : CChar} (hmove : numberMove st c = .goto st') :
    st' ≠ .init := by
  rintro rfl
  cases st
  all_goals
    unfold numberMove at hmove
    dsimp only at hmove
    split_ifs at hmove
  all_goals cases NumberMove.goto.inj hmove

/-- Behind the first byte the type of a number changes at a point and at an exponent only. -/
theorem enter_eq {st st' : NumberState} {c : CChar} (hst : st ≠ .init)
    (hmove : numberMove st c = .goto st') (t : NumberType) :
    t.enter st' = if isFloating c then .float else t := by
  obtain ⟨rfl | rfl, hc⟩ | ⟨⟨hdecimal, hexponent⟩, hc⟩ := isFloating_of_goto hmove
  · rw [hc]
    rfl
  · rw [hc]
    rfl
  · rw [hc, NumberType.enter]
    · rfl
    · rintro rfl
      exact hst (init_of_goto_minus hmove)
    · exact hdecimal
    · exact hexponent

theorem numberRun_type {st st' : NumberState} {t t' : NumberType} {s : List CChar}
    (hst : st ≠ .init) (h : numberRun st t s = some (st', t')) :
    t' = if s.any isFloating then .float else t := by
  induction s generalizing st t with
  | nil =>
    cases h
    rfl
  | cons c s ih =>
    obtain ⟨q, hmove, hrun⟩ := numberRun_cons_iff.mp h
    rw [ih (ne_init_of_goto hmove) hrun, enter_eq hst hmove, List.any_cons]
    cases isFloating c <;> simp

theorem numberRun_init_type {st' : NumberState} {t' : NumberType} {s : List CChar} (hne : s ≠ [])
    (h : numberRun .init .unsigned s = some (st', t')) : t' = numberTypeOf s := by
  cases s with
  | nil => exact absurd rfl hne
  | cons c s =>
    obtain ⟨q, hmove, hrun⟩ := numberRun_cons_iff.mp h
    rw [numberRun_type (ne_init_of_goto hmove) hrun, numberTypeOf, List.any_cons]
    unfold numberMove at hmove
    dsimp only at hmove
    split_ifs at hmove with hminus hzero hdigit
    all_goals obtain rfl := NumberMove.goto.inj hmove
    · rw [hminus]
      rfl
    · rw [hzero]
      rfl
    · have hhead : (c :: s).head? ≠ some (chr '-') := fun h => hminus (Option.some.inj h)
      rw [not_isFloating_of_isDigit hdigit, Bool.false_or, if_neg hhead]
      rfl

/-! ### The longest literal -/

theorem NumberText.ne_nil {s : List CChar} (h : NumberText s) : s ≠ [] := by
  rintro rfl
  rw [← accepts_iff] at h
  cases h

theorem convertNumber_ne_parseError (t : NumberType) (text : List CChar) :
    convertNumber t text ≠ .parseError := by
  unfold convertNumber
  repeat' split
  all_goals exact Token.noConfusion

/-- **Number literals.** The scanner reads the literal at the head of its input that no longer one
begins with, and converts it by the type its text has. -/
theorem scanNumber_iff {s rest : List CChar} {t : Token} (ht : t ≠ .parseError) :
    scanNumber s = (t, rest) ↔
      ∃ text, s = text ++ rest ∧ NumberText text ∧ ¬ Extends text rest ∧
        t = convertNumber (numberTypeOf text) text := by
  constructor
  · intro h
    unfold scanNumber at h
    split at h
    · rename_i ty text rest' hscan
      obtain ⟨rfl, rfl⟩ := Prod.mk.inj h
      obtain ⟨body, st, rfl, htext, hrun, hst, hstop⟩ := run_of_scanNumberFrom hscan
      rw [List.nil_append] at htext
      subst htext
      have hbody : NumberText text := by
        have haccepts := accepts_append hrun []
        rw [List.append_nil] at haccepts
        exact accepts_iff.mp (haccepts.trans hst)
      refine ⟨text, rfl, hbody, (stopsAt_iff hrun hst).mp hstop, ?_⟩
      rw [numberRun_init_type hbody.ne_nil hrun]
    · exact absurd (Prod.mk.inj h).1.symm ht
  · rintro ⟨text, rfl, htext, hnot, rfl⟩
    obtain ⟨st, ty, hrun, hst⟩ := numberRun_of_accepts (accepts_iff.mpr htext) .unsigned
    have hstop := (stopsAt_iff hrun hst).mpr hnot
    unfold scanNumber
    rw [scanNumberFrom_append hrun, scanNumberFrom_stops hst hstop,
      numberRun_init_type htext.ne_nil hrun]
    rfl

end UpdateCheck.Json
