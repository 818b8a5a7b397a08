import UpdateCheck.Json.Value

/-!
# The lexer

Each scanner of the library is a loop around `get()`; here it is a recursion on the remaining
input, with the place in the loop as a state. The end of the list is the end of the input.

* `scanString` follows the escapes, the surrogate pairs and the UTF-8 ranges of string literals;
* `scanNumber` is the library's automaton for numbers, followed by its choice of the type;
* `scan` skips white space and picks a scanner by the first byte;
* `tokens` lists what successive calls of `scan` return, up to the end of the input or the first
  error, behind which the parser never reads.
-/

namespace UpdateCheck.Json

abbrev chr (c : Char) : CChar := UInt8.ofNat c.toNat

/-- `token_type`, with the value the getters of the lexer return for it. A floating-point number
is kept as its text; `strtod` is its value. -/
inductive Token where
  | literalTrue
  | literalFalse
  | literalNull
  | valueString (s : List CChar)
  | valueUnsigned (u : UInt64)
  | valueInteger (i : Int64)
  | valueFloat (text : List CChar)
  | beginArray
  | beginObject
  | endArray
  | endObject
  | nameSeparator
  | valueSeparator
  | parseError
  | endOfInput
  deriving DecidableEq

/-! ## Strings -/

/-- The value of a hexadecimal digit, `-1` for any other byte. -/
def hexDigit (c : CChar) : Int :=
  if chr '0' ≤ c ∧ c ≤ chr '9' then c.toNat - 0x30
  else if chr 'A' ≤ c ∧ c ≤ chr 'F' then c.toNat - 0x37
  else if chr 'a' ≤ c ∧ c ≤ chr 'f' then c.toNat - 0x57
  else -1

def encode (codepoint : Nat) : List CChar :=
  let byte (n : Nat) : CChar := UInt8.ofNat n
  if codepoint < 0x80 then [byte codepoint]
  else if codepoint ≤ 0x7FF then
    [byte (0xC0 ||| (codepoint >>> 6)), byte (0x80 ||| (codepoint &&& 0x3F))]
  else if codepoint ≤ 0xFFFF then
    [byte (0xE0 ||| (codepoint >>> 12)), byte (0x80 ||| ((codepoint >>> 6) &&& 0x3F)),
      byte (0x80 ||| (codepoint &&& 0x3F))]
  else
    [byte (0xF0 ||| (codepoint >>> 18)), byte (0x80 ||| ((codepoint >>> 12) &&& 0x3F)),
      byte (0x80 ||| ((codepoint >>> 6) &&& 0x3F)), byte (0x80 ||| (codepoint &&& 0x3F))]

/-- The ranges that the bytes behind a lead byte must lie in, none for a byte that starts no
sequence. -/
def continuation (lead : CChar) : Option (List (CChar × CChar)) :=
  if 0xC2 ≤ lead ∧ lead ≤ 0xDF then some [(0x80, 0xBF)]
  else if lead = 0xE0 then some [(0xA0, 0xBF), (0x80, 0xBF)]
  else if lead = 0xED then some [(0x80, 0x9F), (0x80, 0xBF)]
  else if 0xE1 ≤ lead ∧ lead ≤ 0xEF then some [(0x80, 0xBF), (0x80, 0xBF)]
  else if lead = 0xF0 then some [(0x90, 0xBF), (0x80, 0xBF), (0x80, 0xBF)]
  else if 0xF1 ≤ lead ∧ lead ≤ 0xF3 then some [(0x80, 0xBF), (0x80, 0xBF), (0x80, 0xBF)]
  else if lead = 0xF4 then some [(0x80, 0x8F), (0x80, 0xBF), (0x80, 0xBF)]
  else none

/-- The places of `scan_string` at which a byte is read. -/
inductive StringState where
  /-- at the head of the loop -/
  | plain
  /-- behind a backslash -/
  | escape
  /-- in `get_codepoint`, with the digits still due and the sum so far; `high` is the first code
  point of a surrogate pair, where there is one -/
  | hex (high : Option Nat) (due : Nat) (sum : Nat)
  /-- behind the first half of a surrogate pair, where a backslash is due -/
  | pairBackslash (high : Nat)
  /-- behind that backslash, where the `u` is due -/
  | pairU (high : Nat)
  /-- in `next_byte_in_range`, with the ranges still due -/
  | inRange (ranges : List (CChar × CChar))

inductive StringMove where
  /-- bytes are added and the scan goes on -/
  | goto (added : List CChar) (st : StringState)
  /-- the closing quote -/
  | done
  | error

/-- The end of `get_codepoint`: the code point is kept as a first half, completes a pair or is
written out. -/
def codepointMove (high : Option Nat) (codepoint : Nat) : StringMove :=
  match high with
  | none =>
    if 0xD800 ≤ codepoint ∧ codepoint ≤ 0xDBFF then .goto [] (.pairBackslash codepoint)
    else if 0xDC00 ≤ codepoint ∧ codepoint ≤ 0xDFFF then .error
    else .goto (encode codepoint) .plain
  | some codepoint1 =>
    if 0xDC00 ≤ codepoint ∧ codepoint ≤ 0xDFFF then
      .goto (encode ((codepoint1 <<< 10) + codepoint - 0x35FDC00)) .plain
    else .error

/-- The byte a one-letter escape stands for. -/
def simpleEscape (c : CChar) : Option CChar :=
  if c = 0x22 ∨ c = 0x5C ∨ c = chr '/' then some c
  else if c = chr 'b' then some 0x08
  else if c = chr 'f' then some 0x0C
  else if c = chr 'n' then some 0x0A
  else if c = chr 'r' then some 0x0D
  else if c = chr 't' then some 0x09
  else none

/-- One turn of `scan_string`, on the byte just read. -/
def stringMove (st : StringState) (c : CChar) : StringMove :=
  match st with
  | .plain =>
    if c = 0x22 then .done
    else if c = 0x5C then .goto [] .escape
    else if c < 0x20 then .error
    else if c < 0x80 then .goto [c] .plain
    else
      match continuation c with
      | some ranges => .goto [c] (.inRange ranges)
      | none => .error
  | .escape =>
    if c = chr 'u' then .goto [] (.hex none 4 0)
    else
      match simpleEscape c with
      | some b => .goto [b] .plain
      | none => .error
  | .hex high due sum =>
    if hexDigit c < 0 then .error
    else
      -- a digit adds its value shifted by four bits for each digit still to come
      let sum := sum + ((hexDigit c).toNat <<< (4 * (due - 1)))
      if due ≤ 1 then codepointMove high sum else .goto [] (.hex high (due - 1) sum)
  | .pairBackslash high => if c = 0x5C then .goto [] (.pairU high) else .error
  | .pairU high => if c = chr 'u' then .goto [] (.hex (some high) 4 0) else .error
  | .inRange ranges =>
    match ranges with
    | [] => .error
    | (low, high) :: rest =>
      if low ≤ c ∧ c ≤ high then .goto [c] (if rest.isEmpty then .plain else .inRange rest)
      else .error

/-- `scan_string` from one of its places on, with the bytes in `token_buffer`. The end of the
input inside a string is an error. -/
def scanStringFrom (st : StringState) (buffer : List CChar) : List CChar → Token × List CChar
  | [] => (.parseError, [])
  | c :: rest =>
    match stringMove st c with
    | .goto added st => scanStringFrom st (buffer ++ added) rest
    | .done => (.valueString buffer, rest)
    | .error => (.parseError, rest)

/-- `scan_string`, behind the opening quote. -/
def scanString (s : List CChar) : Token × List CChar := scanStringFrom .plain [] s

/-! ## Numbers -/

/-- The states of the automaton of `scan_number`. -/
inductive NumberState where
  | init
  | minus
  | zero
  | any1
  | decimal1
  | decimal2
  | exponent
  | sign
  | any2
  deriving DecidableEq

/-- What a byte does to the automaton: `done` leaves the byte to the next token. -/
inductive NumberMove where
  | goto (st : NumberState)
  | done
  | error

def isDigit (c : CChar) : Bool := chr '0' ≤ c && c ≤ chr '9'

def isExponent (c : CChar) : Bool := c = chr 'e' || c = chr 'E'

def numberMove (st : NumberState) (c : CChar) : NumberMove :=
  match st with
  | .init =>
    if c = chr '-' then .goto .minus
    else if c = chr '0' then .goto .zero
    else if isDigit c then .goto .any1
    else .error
  | .minus =>
    if c = chr '0' then .goto .zero
    else if isDigit c then .goto .any1
    else .error
  | .zero =>
    if c = chr '.' then .goto .decimal1
    else if isExponent c then .goto .exponent
    else .done
  | .any1 =>
    if isDigit c then .goto .any1
    else if c = chr '.' then .goto .decimal1
    else if isExponent c then .goto .exponent
    else .done
  | .decimal1 => if isDigit c then .goto .decimal2 else .error
  | .decimal2 =>
    if isDigit c then .goto .decimal2
    else if isExponent c then .goto .exponent
    else .done
  | .exponent =>
    if c = chr '+' ∨ c = chr '-' then .goto .sign
    else if isDigit c then .goto .any2
    else .error
  | .sign => if isDigit c then .goto .any2 else .error
  | .any2 => if isDigit c then .goto .any2 else .done

def NumberState.accepting : NumberState → Bool
  | zero | any1 | decimal2 | any2 => true
  | _ => false

inductive NumberType where
  | unsigned
  | integer
  | float
  deriving DecidableEq

/-- `number_type` after a state was entered. -/
def NumberType.enter (t : NumberType) : NumberState → NumberType
  | .minus => integer
  | .decimal1 | .exponent => float
  | _ => t

/-- The automaton from a state on: the type of the number, its text and the remaining input. -/
def scanNumberFrom (st : NumberState) (t : NumberType) (buffer : List CChar) :
    List CChar → Option (NumberType × List CChar) × List CChar
  | [] => (if st.accepting then some (t, buffer) else none, [])
  | c :: rest =>
    match numberMove st c with
    | .goto st => scanNumberFrom st (t.enter st) (buffer ++ [c]) rest
    | .done => (some (t, buffer), c :: rest)
    | .error => (none, rest)

def digitsValue (s : List CChar) : Nat := s.foldl (fun n c => 10 * n + (c.toNat - 0x30)) 0

/-- `strtoull` on the text of an unsigned number, none for `ERANGE`. -/
def strtoull (text : List CChar) : Option UInt64 :=
  if digitsValue text < 2 ^ 64 then some (UInt64.ofNat (digitsValue text)) else none

/-- `strtoll` on the text of a number with a minus sign, none for `ERANGE`. -/
def strtoll (text : List CChar) : Option Int64 :=
  let value : Int := -digitsValue text.tail
  if -2 ^ 63 ≤ value then some (Int64.ofInt value) else none

/-- A minus sign, or none, and what stands behind it. -/
def splitSign : List CChar → Bool × List CChar
  | c :: rest => if c = chr '-' then (true, rest) else (false, if c = chr '+' then rest else c :: rest)
  | [] => (false, [])

/-- The rational a number literal denotes. -/
def decimalValue (text : List CChar) : ℚ :=
  let (negative, s) := splitSign text
  let whole := s.takeWhile isDigit
  let behind := s.dropWhile isDigit
  let fraction := if behind.head? = some (chr '.') then behind.tail.takeWhile isDigit else []
  let behind := if behind.head? = some (chr '.') then behind.tail.dropWhile isDigit else behind
  let (down, e) := splitSign behind.tail
  let exponent : Int := if down then -digitsValue e else digitsValue e
  let magnitude := (digitsValue (whole ++ fraction) : ℚ) * 10 ^ (exponent - fraction.length)
  if negative then -magnitude else magnitude

/-- `strtod`: the double nearest to the literal, none where it is infinite. -/
def strtod (text : List CChar) : Option Double := roundDouble (decimalValue text)

/-- The end of `scan_number`: integers are tried first, and one out of range falls back to a
floating-point number. -/
def convertNumber (t : NumberType) (text : List CChar) : Token :=
  match t with
  | .unsigned =>
    match strtoull text with
    | some u => .valueUnsigned u
    | none => .valueFloat text
  | .integer =>
    match strtoll text with
    | some i => .valueInteger i
    | none => .valueFloat text
  | .float => .valueFloat text

def scanNumber (s : List CChar) : Token × List CChar :=
  match scanNumberFrom .init .unsigned [] s with
  | (some (t, text), rest) => (convertNumber t text, rest)
  | (none, rest) => (.parseError, rest)

/-! ## Tokens -/

/-- `scan_literal`, behind the first byte. -/
def scanLiteral (literal : List CChar) (t : Token) (s : List CChar) : Token × List CChar :=
  if literal.isPrefixOf s then (t, s.drop literal.length) else (.parseError, s)

def isSpace (c : CChar) : Bool := c = 0x20 || c = 0x09 || c = 0x0A || c = 0x0D

def scanFrom (c : CChar) (rest : List CChar) : Token × List CChar :=
  if c = chr '[' then (.beginArray, rest)
  else if c = chr ']' then (.endArray, rest)
  else if c = 0x7B then (.beginObject, rest)
  else if c = 0x7D then (.endObject, rest)
  else if c = chr ':' then (.nameSeparator, rest)
  else if c = chr ',' then (.valueSeparator, rest)
  else if c = chr 't' then scanLiteral (ascii "rue") .literalTrue rest
  else if c = chr 'f' then scanLiteral (ascii "alse") .literalFalse rest
  else if c = chr 'n' then scanLiteral (ascii "ull") .literalNull rest
  else if c = 0x22 then scanString rest
  else if c = chr '-' ∨ isDigit c then scanNumber (c :: rest)
  else if c = 0 then (.endOfInput, rest)
  else (.parseError, rest)

/-- `scan`: the next token and the remaining input. -/
def scan (s : List CChar) : Token × List CChar :=
  match s.dropWhile isSpace with
  | [] => (.endOfInput, [])
  | c :: rest => scanFrom c rest

/-- A token behind which the parser reads no other. -/
def Token.last : Token → Bool
  | endOfInput | parseError => true
  | _ => false

/-- The tokens up to the last one, for at most `fuel` calls of `scan`. -/
def tokensFrom : Nat → List CChar → List Token
  | 0, _ => []
  | fuel + 1, s =>
    let (t, rest) := scan s
    if t.last then [t] else t :: tokensFrom fuel rest

/-- `skip_bom`: the input behind a byte order mark, none where the mark is broken. -/
def skipBom (s : List CChar) : Option (List CChar) :=
  if s.head? = some 0xEF then
    if [0xBB, 0xBF].isPrefixOf s.tail then some (s.drop 3) else none
  else some s

/-- The tokens of an input. Every call of `scan` before the last token consumes a byte, so the
length of the input is fuel enough. -/
def tokens (s : List CChar) : List Token :=
  match skipBom s with
  | some s => tokensFrom (s.length + 1) s
  | none => [.parseError]

/-! ## Progress -/

theorem scanStringFrom_suffix (st : StringState) (buffer s : List CChar) :
    (scanStringFrom st buffer s).2 <:+ s := by
  induction s generalizing st buffer with
  | nil => exact List.suffix_rfl
  | cons c rest ih =>
    rw [scanStringFrom]
    split
    · exact (ih _ _).trans (List.suffix_cons c rest)
    · exact List.suffix_cons c rest
    · exact List.suffix_cons c rest

theorem scanNumberFrom_suffix (st : NumberState) (t : NumberType) (buffer s : List CChar) :
    (scanNumberFrom st t buffer s).2 <:+ s := by
  induction s generalizing st t buffer with
  | nil => exact List.suffix_rfl
  | cons c rest ih =>
    rw [scanNumberFrom]
    split
    · exact (ih _ _ _).trans (List.suffix_cons c rest)
    · exact List.suffix_rfl
    · exact List.suffix_cons c rest

/-- The automaton never gives the first byte back: no move out of its first state is `done`. -/
theorem scanNumber_suffix (c : CChar) (rest : List CChar) :
    (scanNumber (c :: rest)).2 <:+ rest := by
  have h : (scanNumberFrom .init .unsigned [] (c :: rest)).2 <:+ rest := by
    rw [scanNumberFrom]
    split
    · exact scanNumberFrom_suffix _ _ _ _
    · rename_i hdone
      unfold numberMove at hdone
      split_ifs at hdone
    · exact List.suffix_rfl
  unfold scanNumber
  split <;> rename_i heq <;> rw [heq] at h <;> exact h

theorem scanLiteral_suffix (literal : List CChar) (t : Token) (s : List CChar) :
    (scanLiteral literal t s).2 <:+ s := by
  unfold scanLiteral
  split
  · exact List.drop_suffix _ _
  · exact List.suffix_rfl

/-- What `scanFrom` may return: one of the tokens that are a single byte, what a scanner returns, or
the end of the input at a NUL. -/
theorem scanFrom_cases {P : Token × List CChar → Prop} {c : CChar} {rest : List CChar}
    (byte : ∀ t, t ≠ .endOfInput → P (t, rest))
    (literal : ∀ l t, 0 ∉ l → t ≠ .endOfInput → P (scanLiteral l t rest))
    (string : P (scanString rest)) (number : P (scanNumber (c :: rest)))
    (nul : c = 0 → P (.endOfInput, rest)) : P (scanFrom c rest) := by
  unfold scanFrom
  refine iteInduction (fun _ => byte _ Token.noConfusion) fun _ => ?_
  refine iteInduction (fun _ => byte _ Token.noConfusion) fun _ => ?_
  refine iteInduction (fun _ => byte _ Token.noConfusion) fun _ => ?_
  refine iteInduction (fun _ => byte _ Token.noConfusion) fun _ => ?_
  refine iteInduction (fun _ => byte _ Token.noConfusion) fun _ => ?_
  refine iteInduction (fun _ => byte _ Token.noConfusion) fun _ => ?_
  refine iteInduction (fun _ => literal _ _ (by decide) Token.noConfusion) fun _ => ?_
  refine iteInduction (fun _ => literal _ _ (by decide) Token.noConfusion) fun _ => ?_
  refine iteInduction (fun _ => literal _ _ (by decide) Token.noConfusion) fun _ => ?_
  refine iteInduction (fun _ => string) fun _ => ?_
  refine iteInduction (fun _ => number) fun _ => ?_
  exact iteInduction nul fun _ => byte _ Token.noConfusion

theorem scanFrom_suffix (c : CChar) (rest : List CChar) : (scanFrom c rest).2 <:+ rest := by
  apply scanFrom_cases (P := fun r => r.2 <:+ rest)
  · exact fun _ _ => List.suffix_rfl
  · exact fun l t _ _ => scanLiteral_suffix l t rest
  · exact scanStringFrom_suffix .plain [] rest
  · exact scanNumber_suffix c rest
  · exact fun _ => List.suffix_rfl

theorem scan_suffix (s : List CChar) : (scan s).2 <:+ s := by
  have hdrop := List.dropWhile_suffix isSpace (l := s)
  unfold scan
  split
  · exact List.nil_suffix
  · rename_i c rest heq
    rw [heq] at hdrop
    exact ((scanFrom_suffix c rest).trans (List.suffix_cons c rest)).trans hdrop

/-- A call of `scan` that does not meet the end consumes a byte. -/
theorem length_scan_lt {s : List CChar} (h : (scan s).1.last = false) :
    (scan s).2.length < s.length := by
  have hdrop := (List.dropWhile_sublist isSpace (l := s)).length_le
  unfold scan at h ⊢
  split at h
  · cases h
  · rename_i c rest heq
    rw [heq] at hdrop
    exact (Nat.lt_succ_of_le (scanFrom_suffix c rest).length_le).trans_le hdrop

/-- A token list ends with its only last token. -/
def Terminated (ts : List Token) : Prop :=
  ∃ body t, ts = body ++ [t] ∧ t.last = true ∧ ∀ u ∈ body, u.last = false

theorem Terminated.cons {t : Token} {ts : List Token} (ht : t.last = false)
    (h : Terminated ts) : Terminated (t :: ts) := by
  obtain ⟨body, u, rfl, hu, hb⟩ := h
  exact ⟨t :: body, u, rfl, hu, List.forall_mem_cons.mpr ⟨ht, hb⟩⟩

theorem tokensFrom_terminated {fuel : Nat} {s : List CChar} (h : s.length < fuel) :
    Terminated (tokensFrom fuel s) := by
  induction fuel generalizing s with
  | zero => exact absurd h (Nat.not_lt_zero _)
  | succ fuel ih =>
    unfold tokensFrom
    dsimp only
    cases ht : (scan s).1.last with
    | true => exact ⟨[], _, rfl, ht, by simp⟩
    | false =>
      have hlt := length_scan_lt ht
      exact (ih (by omega)).cons ht

/-- The fuel of `tokens` suffices: the list ends with the end of the input or an error. -/
theorem tokens_terminated (s : List CChar) : Terminated (tokens s) := by
  unfold tokens
  split
  · exact tokensFrom_terminated (Nat.lt_succ_self _)
  · exact ⟨[], .parseError, rfl, rfl, by simp⟩

/-- `strtod` has no finite result exactly for literals from the overflow bound on. -/
theorem strtod_eq_none_iff {text : List CChar} :
    strtod text = none ↔ overflowBound ≤ |decimalValue text| := roundDouble_eq_none_iff _

end UpdateCheck.Json
