import UpdateCheck.Json.Parser

/-!
# The grammar of JSON texts

`Denotes ts (.value v)` is the grammar over tokens, with the value a text denotes. The parser
accepts exactly the texts of the grammar and returns the values they denote (`parse_ok_iff`): a
derivation drives the parser (`Denotes.run`), and a state of the parser is always justified by
derivations for what was read (`Reached.step`).

A prefix that leads to a state where a value is due can be completed to a text
(`Opening.complete`). This gives the exact condition for an overflow: `parse_outOfRange_iff`.
-/

namespace UpdateCheck.Json

/-- What a list of tokens may denote: a value, the elements of an array or the members of an
object, one or more, without the brackets. -/
inductive Shape where
  | value (v : Json)
  | elements (vs : List Json)
  | members (fields : List (List CChar × Json))

/-- The grammar. -/
inductive Denotes : List Token → Shape → Prop
  | scalar {t v} : scalar t = .ok v → Denotes [t] (.value v)
  | emptyArray : Denotes [.beginArray, .endArray] (.value (.array []))
  | array {ts vs} : Denotes ts (.elements vs) →
      Denotes (.beginArray :: ts ++ [.endArray]) (.value (.array vs))
  | emptyObject : Denotes [.beginObject, .endObject] (.value (.object []))
  | object {ts fields} : Denotes ts (.members fields) →
      Denotes (.beginObject :: ts ++ [.endObject]) (.value (.object fields))
  | element {ts v} : Denotes ts (.value v) → Denotes ts (.elements [v])
  | nextElement {ts vs us v} : Denotes ts (.elements vs) → Denotes us (.value v) →
      Denotes (ts ++ .valueSeparator :: us) (.elements (vs ++ [v]))
  | member {k ts v} : Denotes ts (.value v) →
      Denotes (.valueString k :: .nameSeparator :: ts) (.members (assign [] k v))
  | nextMember {ts fields k us v} : Denotes ts (.members fields) → Denotes us (.value v) →
      Denotes (ts ++ .valueSeparator :: .valueString k :: .nameSeparator :: us)
        (.members (assign fields k v))

/-- The tokens of a document make up a JSON text of the given value. -/
def TextOf (ts : List Token) (v : Json) : Prop := Denotes ts (.value v)

/-! ## Derivations drive the parser -/

/-- How a phrase of the given shape starts. -/
theorem Denotes.head {ts : List Token} {shape : Shape} (h : Denotes ts shape) :
    ∃ t rest, ts = t :: rest ∧ t ≠ .endArray ∧
      ((∃ fields, shape = .members fields) → ∃ k, t = .valueString k) := by
  induction h with
  | @scalar t v hs =>
    refine ⟨t, [], rfl, ?_, ?_⟩
    · rintro rfl
      cases hs
    · rintro ⟨_, h⟩
      cases h
  | emptyArray => exact ⟨_, _, rfl, by decide, fun ⟨_, h⟩ => by cases h⟩
  | array => exact ⟨_, _, rfl, by decide, fun ⟨_, h⟩ => by cases h⟩
  | emptyObject => exact ⟨_, _, rfl, by decide, fun ⟨_, h⟩ => by cases h⟩
  | object => exact ⟨_, _, rfl, by decide, fun ⟨_, h⟩ => by cases h⟩
  | element _ ih =>
    obtain ⟨t, rest, rfl, hne, -⟩ := ih
    exact ⟨t, rest, rfl, hne, fun ⟨_, h⟩ => by cases h⟩
  | nextElement _ _ ih _ =>
    obtain ⟨t, rest, rfl, hne, -⟩ := ih
    exact ⟨t, _, rfl, hne, fun ⟨_, h⟩ => by cases h⟩
  | @member k => exact ⟨_, _, rfl, by simp, fun _ => ⟨k, rfl⟩⟩
  | nextMember _ _ ih _ =>
    obtain ⟨t, rest, rfl, hne, hk⟩ := ih
    exact ⟨t, _, rfl, hne, fun _ => hk ⟨_, rfl⟩⟩

/-- What the parser makes of a phrase. -/
def Shape.Read (ts : List Token) : Shape → Prop
  | value v => ∀ stack, run (.value stack) ts = .ok (complete v stack)
  | elements vs => ∀ stack, run (.value (.array [] :: stack)) ts = .ok (.afterElement vs stack)
  | members fields => ∀ stack, run (.key [] stack) ts = .ok (.afterMember fields stack)

theorem run_arrayStart {ts : List Token} {stack : List Frame}
    (h : ∃ t rest, ts = t :: rest ∧ t ≠ .endArray) :
    run (.arrayStart stack) ts = run (.value (.array [] :: stack)) ts := by
  obtain ⟨t, rest, rfl, hne⟩ := h
  rw [run, run, step, step, if_neg hne]

theorem run_objectStart {ts : List Token} {stack : List Frame}
    (h : ∃ k rest, ts = .valueString k :: rest) :
    run (.objectStart stack) ts = run (.key [] stack) ts := by
  obtain ⟨k, rest, rfl⟩ := h
  rfl

theorem run_scalar {t : Token} {v : Json} (h : scalar t = .ok v) (stack : List Frame) :
    run (.value stack) [t] = .ok (complete v stack) := by
  have hstep : step (.value stack) t = .ok (complete v stack) := by
    unfold step valueStep
    cases t with
    | beginObject => cases h
    | beginArray => cases h
    | _ => exact congrArg (Except.map (complete · stack)) h
  rw [run, hstep]
  rfl

/-- The parser reads a phrase of the grammar and arrives at what it denotes. -/
theorem Denotes.run {ts : List Token} {shape : Shape} (h : Denotes ts shape) : shape.Read ts := by
  induction h with
  | scalar hs => exact run_scalar hs
  | emptyArray => exact fun stack => rfl
  | @array ts vs hts ih =>
    intro stack
    obtain ⟨t, rest, hcons, hne, -⟩ := hts.head
    have hread : Json.run (.arrayStart stack) ts = .ok (.afterElement vs stack) := by
      rw [run_arrayStart ⟨t, rest, hcons, hne⟩]
      exact ih stack
    exact run_append_of_ok hread _
  | emptyObject => exact fun stack => rfl
  | @object ts fields hts ih =>
    intro stack
    obtain ⟨t, rest, hcons, -, hk⟩ := hts.head
    obtain ⟨k, rfl⟩ := hk ⟨_, rfl⟩
    have hread : Json.run (.objectStart stack) ts = .ok (.afterMember fields stack) := by
      rw [run_objectStart ⟨k, rest, hcons⟩]
      exact ih stack
    exact run_append_of_ok hread _
  | element _ ih => exact fun stack => ih (.array [] :: stack)
  | @nextElement ts vs us v _ _ ih ih' =>
    intro stack
    rw [run_append_of_ok (ih stack)]
    exact ih' (.array vs :: stack)
  | @member k ts v _ ih => exact fun stack => ih (.object [] k :: stack)
  | @nextMember ts fields k us v _ _ ih ih' =>
    intro stack
    rw [run_append_of_ok (ih stack)]
    exact ih' (.object fields k :: stack)

/-! ## States are justified by derivations -/

/-- The tokens open the frames of the stack, and a value is due behind them. -/
inductive Opening : List Token → List Frame → Prop
  | root : Opening [] []
  | firstElement {ts stack} : Opening ts stack →
      Opening (ts ++ [.beginArray]) (.array [] :: stack)
  | nextElement {ts stack us vs} : Opening ts stack → Denotes us (.elements vs) →
      Opening (ts ++ .beginArray :: us ++ [.valueSeparator]) (.array vs :: stack)
  | firstMember {ts stack k} : Opening ts stack →
      Opening (ts ++ [.beginObject, .valueString k, .nameSeparator]) (.object [] k :: stack)
  | nextMember {ts stack us fields k} : Opening ts stack → Denotes us (.members fields) →
      Opening (ts ++ .beginObject :: us ++ [.valueSeparator, .valueString k, .nameSeparator])
        (.object fields k :: stack)

/-- What was read when the parser is in a state. -/
def Reached (ts : List Token) : ParserState → Prop
  | .value stack => Opening ts stack
  | .arrayStart stack => ∃ us, ts = us ++ [.beginArray] ∧ Opening us stack
  | .objectStart stack => ∃ us, ts = us ++ [.beginObject] ∧ Opening us stack
  | .key fields stack => ∃ us ws, ts = us ++ .beginObject :: ws ++ [.valueSeparator] ∧
      Opening us stack ∧ Denotes ws (.members fields)
  | .separator fields element stack =>
      Opening (ts ++ [.nameSeparator]) (.object fields element :: stack)
  | .afterElement elems stack => ∃ us ws, ts = us ++ .beginArray :: ws ∧
      Opening us stack ∧ Denotes ws (.elements elems)
  | .afterMember fields stack => ∃ us ws, ts = us ++ .beginObject :: ws ∧
      Opening us stack ∧ Denotes ws (.members fields)
  | .done root => TextOf ts root
  | .finished root => ∃ us, ts = us ++ [.endOfInput] ∧ TextOf us root

/-- A value read where one was due justifies the state behind it. -/
theorem Opening.reached_complete {us ws : List Token} {stack : List Frame} {v : Json}
    (h : Opening us stack) (hv : Denotes ws (.value v)) :
    Reached (us ++ ws) (complete v stack) := by
  cases h with
  | root => exact hv
  | @firstElement ts stack ho =>
    exact ⟨ts, ws, by simp, ho, hv.element⟩
  | @nextElement ts stack us vs ho hus =>
    exact ⟨ts, us ++ .valueSeparator :: ws, by simp, ho, hus.nextElement hv⟩
  | @firstMember ts stack k ho =>
    exact ⟨ts, .valueString k :: .nameSeparator :: ws, by simp, ho, hv.member⟩
  | @nextMember ts stack us fields k ho hus =>
    exact ⟨ts, us ++ .valueSeparator :: .valueString k :: .nameSeparator :: ws, by simp, ho,
      hus.nextMember hv⟩

theorem Opening.reached_valueStep {ts : List Token} {stack : List Frame} {t : Token}
    {st : ParserState} (h : Opening ts stack) (hs : valueStep stack t = .ok st) :
    Reached (ts ++ [t]) st := by
  unfold valueStep at hs
  split at hs
  · cases hs
    exact ⟨ts, rfl, h⟩
  · cases hs
    exact ⟨ts, rfl, h⟩
  · cases hv : scalar t with
    | ok v =>
      rw [hv] at hs
      cases hs
      exact h.reached_complete (.scalar hv)
    | error e =>
      rw [hv] at hs
      cases hs

/-- One step keeps the state justified. -/
theorem Reached.step {ts : List Token} {st st' : ParserState} {t : Token} (h : Reached ts st)
    (hs : step st t = .ok st') : Reached (ts ++ [t]) st' := by
  cases st with
  | value stack => exact Opening.reached_valueStep h hs
  | arrayStart stack =>
    obtain ⟨us, rfl, ho⟩ := h
    unfold Json.step at hs
    dsimp only at hs
    split at hs
    · rename_i ht
      subst ht
      cases hs
      have hr := ho.reached_complete .emptyArray
      simpa using hr
    · exact Opening.reached_valueStep ho.firstElement hs
  | objectStart stack =>
    obtain ⟨us, rfl, ho⟩ := h
    unfold Json.step at hs
    dsimp only at hs
    split at hs
    · cases hs
      have hr := ho.reached_complete .emptyObject
      simpa using hr
    · rename_i k
      cases hs
      have hr := ho.firstMember (k := k)
      simpa [Reached] using hr
    · cases hs
  | key fields stack =>
    obtain ⟨us, ws, rfl, ho, hd⟩ := h
    unfold Json.step at hs
    dsimp only at hs
    split at hs
    · rename_i k
      cases hs
      have hr := ho.nextMember hd (k := k)
      simpa [Reached] using hr
    · cases hs
  | separator fields element stack =>
    unfold Json.step at hs
    dsimp only at hs
    split at hs
    · cases hs
      exact h
    · cases hs
  | afterElement elems stack =>
    obtain ⟨us, ws, rfl, ho, hd⟩ := h
    unfold Json.step at hs
    dsimp only at hs
    split at hs
    · cases hs
      exact ho.nextElement hd
    · cases hs
      have hr := ho.reached_complete hd.array
      simpa using hr
    · cases hs
  | afterMember fields stack =>
    obtain ⟨us, ws, rfl, ho, hd⟩ := h
    unfold Json.step at hs
    dsimp only at hs
    split at hs
    · cases hs
      exact ⟨us, ws, rfl, ho, hd⟩
    · cases hs
      have hr := ho.reached_complete hd.object
      simpa using hr
    · cases hs
  | done root =>
    unfold Json.step at hs
    dsimp only at hs
    split at hs
    · cases hs
      exact ⟨ts, rfl, h⟩
    · cases hs
  | finished root => cases hs

theorem Reached.run {ts us : List Token} {st st' : ParserState} (h : Reached ts st)
    (hr : run st us = .ok st') : Reached (ts ++ us) st' := by
  induction us generalizing ts st with
  | nil =>
    cases hr
    simpa using h
  | cons t us ih =>
    rw [Json.run] at hr
    split at hr
    · rename_i hs
      have hnext := ih (h.step hs) hr
      simpa using hnext
    · cases hr

/-- The state after a prefix of a document is justified by that prefix. -/
theorem reached_of_run {ts : List Token} {st : ParserState} (h : run (.value []) ts = .ok st) :
    Reached ts st := by
  have hroot : Reached [] (.value []) := Opening.root
  exact hroot.run h

/-! ## The parser and the grammar -/

/-- The parser accepts exactly the JSON texts and returns the values they denote. -/
theorem parse_ok_iff {s : List CChar} {v : Json} :
    parse s = .ok v ↔ ∃ ts, tokens (content s) = ts ++ [.endOfInput] ∧ TextOf ts v := by
  unfold parse
  constructor
  · intro h
    split at h
    · rename_i hr
      cases h
      exact reached_of_run hr
    · cases h
    · cases h
  · rintro ⟨ts, hts, hd⟩
    have hread : run (.value []) ts = .ok (.done v) := hd.run []
    rw [hts, run_append_of_ok hread]
    rfl

/-- A prefix at whose end a value is due can be completed to a text, whatever that value is. -/
theorem Opening.complete {us : List Token} {stack : List Frame} (h : Opening us stack)
    {ws : List Token} {v : Json} (hv : Denotes ws (.value v)) :
    ∃ rest root, TextOf (us ++ ws ++ rest) root := by
  induction h generalizing ws v with
  | root => exact ⟨[], v, by simpa [TextOf] using hv⟩
  | firstElement _ ih =>
    obtain ⟨rest, root, hr⟩ := ih hv.element.array
    exact ⟨.endArray :: rest, root, by simpa using hr⟩
  | nextElement _ hus ih =>
    obtain ⟨rest, root, hr⟩ := ih (hus.nextElement hv).array
    exact ⟨.endArray :: rest, root, by simpa using hr⟩
  | @firstMember _ _ k _ ih =>
    obtain ⟨rest, root, hr⟩ := ih (hv.member (k := k)).object
    exact ⟨.endObject :: rest, root, by simpa using hr⟩
  | @nextMember _ _ _ _ k _ hus ih =>
    obtain ⟨rest, root, hr⟩ := ih (hus.nextMember hv (k := k)).object
    exact ⟨.endObject :: rest, root, by simpa using hr⟩

/-- A value may stand behind the tokens: with some value there, they begin a JSON text. -/
def ValueDue (ts : List Token) : Prop :=
  ∃ rest root, TextOf (ts ++ .valueUnsigned 0 :: rest) root

theorem Opening.valueDue {ts : List Token} {stack : List Frame} (h : Opening ts stack) :
    ValueDue ts := by
  obtain ⟨rest, root, hr⟩ := h.complete (.scalar (t := .valueUnsigned 0) rfl)
  exact ⟨rest, root, by simpa using hr⟩

/-- Where a value may stand, the parser is ready for one. -/
theorem ValueDue.run {ts : List Token} (h : ValueDue ts) :
    ∃ st stack, run (.value []) ts = .ok st ∧ (st = .value stack ∨ st = .arrayStart stack) := by
  obtain ⟨rest, root, hd⟩ := h
  have hread : Json.run (.value []) (ts ++ .valueUnsigned 0 :: rest) = .ok (.done root) := hd.run []
  rw [run_append] at hread
  split at hread
  · rename_i st hst
    cases st with
    | value stack => exact ⟨_, stack, hst, Or.inl rfl⟩
    | arrayStart stack => exact ⟨_, stack, hst, Or.inr rfl⟩
    | _ => cases hread
  · cases hread

/-- The document holds a number literal out of the range of a double in a place where a value
may stand. -/
def Overflows (s : List CChar) : Prop :=
  ∃ ts text, ts ++ [.valueFloat text] <+: tokens (content s) ∧ ValueDue ts ∧
    overflowBound ≤ |decimalValue text|

/-- The parser throws `out_of_range` exactly on the documents with such a literal. -/
theorem parse_outOfRange_iff {s : List CChar} : parse s = .error .outOfRange ↔ Overflows s := by
  constructor
  · intro h
    unfold parse at h
    split at h
    · cases h
    · cases h
    · rename_i hr
      cases h
      obtain ⟨ts, t, rest, st, hts, hst, hstep⟩ := run_error hr
      rcases step_error hstep with he | ⟨-, ⟨text, rfl, hd⟩, stack, hst'⟩
      · cases he
      · refine ⟨ts, text, ⟨rest, by simp [hts]⟩, ?_, strtod_eq_none_iff.mp hd⟩
        have hreached := reached_of_run hst
        rcases hst' with rfl | rfl
        · exact Opening.valueDue hreached
        · obtain ⟨us, rfl, ho⟩ := hreached
          exact ho.firstElement.valueDue
  · rintro ⟨ts, text, ⟨rest, hts⟩, hdue, hbound⟩
    obtain ⟨st, stack, hst, hst'⟩ := hdue.run
    have hnone := strtod_eq_none_iff.mpr hbound
    have hvalue : ∀ stack, valueStep stack (.valueFloat text) = .error .outOfRange := fun stack => by
      simp [valueStep, scalar, hnone, Except.map]
    have hstep : step st (.valueFloat text) = .error .outOfRange := by
      rcases hst' with rfl | rfl
      · exact hvalue stack
      · exact hvalue (.array [] :: stack)
    unfold parse
    rw [← hts, List.append_assoc, run_append_of_ok hst, List.singleton_append, run, hstep]

end UpdateCheck.Json
