import UpdateCheck.Json.Lexer

/-!
# The parser

`json_t::parse` on a C string. The parser of the library is one loop around `get_token` with a
stack of open arrays and objects; its places between two tokens are the states here, and `step`
is what it does with the next token. The handler that builds the value keeps the elements and
members read so far in the frames of the same stack. A repeated key overwrites.

Two exceptions can leave the parser: `out_of_range`, for a floating-point number that is not
finite where a value is due, and `parse_error`, for everything else. The memory of the parsed
value is not part of the model.
-/

namespace UpdateCheck.Json

/-- An array or an object that was opened, with what it holds so far; in an object, the key of
the value that is due. -/
inductive Frame where
  | array (elems : List Json)
  | object (fields : List (List CChar × Json)) (element : List CChar)

/-- The places of the parser between two tokens. -/
inductive ParserState where
  /-- a value is due -/
  | value (stack : List Frame)
  /-- behind `[`: a value is due, or the end of the array -/
  | arrayStart (stack : List Frame)
  /-- behind an opening brace: a key is due, or the end of the object -/
  | objectStart (stack : List Frame)
  /-- behind a comma in an object: a key is due -/
  | key (fields : List (List CChar × Json)) (stack : List Frame)
  /-- behind a key -/
  | separator (fields : List (List CChar × Json)) (element : List CChar) (stack : List Frame)
  /-- behind an element of an array -/
  | afterElement (elems : List Json) (stack : List Frame)
  /-- behind a member of an object -/
  | afterMember (fields : List (List CChar × Json)) (stack : List Frame)
  /-- the value is complete; only the end of the input may follow -/
  | done (root : Json)
  /-- the end of the input was read -/
  | finished (root : Json)

/-- Put a complete value where it is due. -/
def complete (v : Json) : List Frame → ParserState
  | [] => .done v
  | .array elems :: stack => .afterElement (elems ++ [v]) stack
  | .object fields element :: stack => .afterMember (assign fields element v) stack

def scalar : Token → Except Raised Json
  | .literalTrue => .ok (.boolean true)
  | .literalFalse => .ok (.boolean false)
  | .literalNull => .ok .null
  | .valueString s => .ok (.string s)
  | .valueUnsigned u => .ok (.numberUnsigned u)
  | .valueInteger i => .ok (.numberInteger i)
  | .valueFloat text =>
    match strtod text with
    | some d => .ok (.numberFloat d)
    | none => .error .outOfRange
  | _ => .error .parseError

/-- The `switch` of `sax_parse_internal`. -/
def valueStep (stack : List Frame) (t : Token) : Except Raised ParserState :=
  match t with
  | .beginObject => .ok (.objectStart stack)
  | .beginArray => .ok (.arrayStart stack)
  | t => (scalar t).map (complete · stack)

/-- One token of `sax_parse_internal`, and of the check for the end of the input behind it. -/
def step (st : ParserState) (t : Token) : Except Raised ParserState :=
  match st with
  | .value stack => valueStep stack t
  | .arrayStart stack =>
    if t = .endArray then .ok (complete (.array []) stack) else valueStep (.array [] :: stack) t
  | .objectStart stack =>
    match t with
    | .endObject => .ok (complete (.object []) stack)
    | .valueString k => .ok (.separator [] k stack)
    | _ => .error .parseError
  | .key fields stack =>
    match t with
    | .valueString k => .ok (.separator fields k stack)
    | _ => .error .parseError
  | .separator fields element stack =>
    match t with
    | .nameSeparator => .ok (.value (.object fields element :: stack))
    | _ => .error .parseError
  | .afterElement elems stack =>
    match t with
    | .valueSeparator => .ok (.value (.array elems :: stack))
    | .endArray => .ok (complete (.array elems) stack)
    | _ => .error .parseError
  | .afterMember fields stack =>
    match t with
    | .valueSeparator => .ok (.key fields stack)
    | .endObject => .ok (complete (.object fields) stack)
    | _ => .error .parseError
  | .done root =>
    match t with
    | .endOfInput => .ok (.finished root)
    | _ => .error .parseError
  | .finished _ => .error .parseError

def run (st : ParserState) : List Token → Except Raised ParserState
  | [] => .ok st
  | t :: ts =>
    match step st t with
    | .ok st => run st ts
    | .error e => .error e

/-- `json_t::parse` of a C string: its content is parsed, and no more than white space may
follow the value. -/
def parse (s : List CChar) : Except Raised Json :=
  match run (.value []) (tokens (content s)) with
  | .ok (.finished root) => .ok root
  | .ok _ => .error .parseError
  | .error e => .error e

theorem run_append (st : ParserState) (ts us : List Token) :
    run st (ts ++ us) =
      match run st ts with
      | .ok st' => run st' us
      | .error e => .error e := by
  induction ts generalizing st with
  | nil => rfl
  | cons t ts ih =>
    rw [List.cons_append, run, run]
    cases step st t with
    | ok st' => exact ih st'
    | error e => rfl

theorem run_append_of_ok {st st' : ParserState} {ts : List Token} (h : run st ts = .ok st')
    (us : List Token) : run st (ts ++ us) = run st' us := by
  rw [run_append, h]

theorem scalar_error {t : Token} {e : Raised} (h : scalar t = .error e) :
    e = .parseError ∨ e = .outOfRange ∧ ∃ text, t = .valueFloat text ∧ strtod text = none := by
  cases t with
  | valueFloat text =>
    rw [scalar] at h
    split at h
    · cases h
    · rename_i hd
      cases h
      exact Or.inr ⟨rfl, text, rfl, hd⟩
  | _ => cases h <;> exact Or.inl rfl

/-- A value step that fails has met a token that is no value, or an infinite number. -/
theorem valueStep_error {stack : List Frame} {t : Token} {e : Raised}
    (h : valueStep stack t = .error e) :
    e = .parseError ∨ e = .outOfRange ∧ ∃ text, t = .valueFloat text ∧ strtod text = none := by
  unfold valueStep at h
  split at h
  · cases h
  · cases h
  · cases hs : scalar t with
    | ok v =>
      rw [hs] at h
      cases h
    | error e' =>
      rw [hs] at h
      cases h
      exact scalar_error hs

/-- The parser's exceptions: an infinite number where a value is due is out of range, and every
other failure is a syntax error. -/
theorem step_error {st : ParserState} {t : Token} {e : Raised} (h : step st t = .error e) :
    e = .parseError ∨ e = .outOfRange ∧ (∃ text, t = .valueFloat text ∧ strtod text = none) ∧
      ∃ stack, st = .value stack ∨ st = .arrayStart stack := by
  cases st with
  | value stack =>
    rcases valueStep_error h with he | ⟨he, ht⟩
    · exact Or.inl he
    · exact Or.inr ⟨he, ht, stack, Or.inl rfl⟩
  | arrayStart stack =>
    unfold step at h
    dsimp only at h
    split at h
    · cases h
    · rcases valueStep_error h with he | ⟨he, ht⟩
      · exact Or.inl he
      · exact Or.inr ⟨he, ht, stack, Or.inr rfl⟩
  | finished root =>
    cases h
    exact Or.inl rfl
  | _ =>
    unfold step at h
    dsimp only at h
    split at h
    all_goals
      cases h
      try exact Or.inl rfl

theorem run_error {st : ParserState} {ts : List Token} {e : Raised} (h : run st ts = .error e) :
    ∃ us t rest st', ts = us ++ t :: rest ∧ run st us = .ok st' ∧ step st' t = .error e := by
  induction ts generalizing st with
  | nil => cases h
  | cons t ts ih =>
    rw [run] at h
    cases hs : step st t with
    | ok st' =>
      rw [hs] at h
      obtain ⟨us, u, rest, st'', rfl, hr, he⟩ := ih h
      refine ⟨t :: us, u, rest, st'', rfl, ?_, he⟩
      rw [run, hs]
      exact hr
    | error e' =>
      rw [hs] at h
      cases h
      exact ⟨[], t, ts, st, rfl, rfl, hs⟩

theorem parse_error {s : List CChar} {e : Raised} (h : parse s = .error e) :
    e = .parseError ∨ e = .outOfRange := by
  unfold parse at h
  split at h
  · cases h
  · cases h
    exact Or.inl rfl
  · rename_i hr
    cases h
    obtain ⟨_, _, _, _, _, _, hstep⟩ := run_error hr
    rcases step_error hstep with he | ⟨he, _⟩
    · exact Or.inl he
    · exact Or.inr he

end UpdateCheck.Json
