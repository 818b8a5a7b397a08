import UpdateCheck.Base.Binary64
import UpdateCheck.Types

/-!
# JSON values and their accessors

The value type of the bundled JSON library and the accessors the list parser calls: the lookup
of an object member, the conversion to `int` and to a string, and the comparison with an integer
literal. An accessor that throws ends in `Except.error`. An object keeps its members in an
association list without repeated keys; the library's map differs from it only in an iteration
order that nothing here looks at.

The comparison with a literal is the library's cross-type one: numbers compare by value, with an
unsigned value cast to the signed type first, and everything else by a fixed order of the types.
-/

namespace UpdateCheck

def ascii (s : String) : List CChar := s.toList.map fun c => UInt8.ofNat c.toNat

/-- `basic_json`: its type tag with the value stored under it. -/
inductive Json where
  | null
  | boolean (b : Bool)
  | numberInteger (i : Int64)
  | numberUnsigned (u : UInt64)
  | numberFloat (d : Double)
  | string (s : List CChar)
  | array (elems : List Json)
  | object (fields : List (List CChar × Json))

namespace Json

/-! ## Types -/

def isNumber : Json → Bool
  | numberInteger _ | numberUnsigned _ | numberFloat _ => true
  | _ => false

def isString : Json → Bool
  | string _ => true
  | _ => false

def isObject : Json → Bool
  | object _ => true
  | _ => false

def isArray : Json → Bool
  | array _ => true
  | _ => false

def typeOrder : Json → Nat
  | null => 0
  | boolean _ => 1
  | numberInteger _ | numberUnsigned _ | numberFloat _ => 2
  | object _ => 3
  | array _ => 4
  | string _ => 5

/-! ## Members -/

/-- `find`: the value under a key, none for `end()`, which a value other than an object always
answers with. -/
def find? (j : Json) (key : List CChar) : Option Json :=
  match j with
  | object fields => fields.lookup key
  | _ => none

/-- `operator[]` on a constant value. The assertion in it stops a lookup that finds nothing. -/
def get (j : Json) (key : List CChar) : Except Raised Json :=
  match j with
  | object fields =>
    match fields.lookup key with
    | some v => .ok v
    | none => .error .abort
  | _ => .error .typeError

/-- The assignment under a key of an object, which is added where it is missing. -/
def assign (fields : List (List CChar × Json)) (key : List CChar) (v : Json) :
    List (List CChar × Json) :=
  match fields with
  | [] => [(key, v)]
  | (k, w) :: rest => if key = k then (k, v) :: rest else (k, w) :: assign rest key v

/-- The elements of an array, none of any other value. -/
def elements : Json → List Json
  | array elems => elems
  | _ => []

/-! ## Conversions -/

/-- `static_cast<int>` of a double. It is not defined where the truncated value is no `int`; the
conversion instruction of the x86 targets answers the least `int` there. -/
def intOfDouble (d : Double) : Int32 :=
  if -2 ^ 31 ≤ d.trunc ∧ d.trunc < 2 ^ 31 then Int32.ofInt d.trunc else Int32.minValue

def getInt : Json → Except Raised Int32
  | numberUnsigned u => .ok u.toUInt32.toInt32
  | numberInteger i => .ok i.toInt32
  | numberFloat d => .ok (intOfDouble d)
  | boolean b => .ok (if b then 1 else 0)
  | _ => .error .typeError

/-- `get<std::string>`, less the memory of the copy. -/
def getString : Json → Except Raised (List CChar)
  | string s => .ok s
  | _ => .error .typeError

/-- `operator<` with an `int` on the right, which becomes a signed number of the library. The
conversion of an `int` to a double is exact. -/
def lt (lhs : Json) (rhs : Int32) : Bool :=
  match lhs with
  | numberInteger i => i.toInt < rhs.toInt
  | numberUnsigned u => u.toInt64.toInt < rhs.toInt
  | numberFloat d => d.val < rhs.toInt
  | j => j.typeOrder < (numberInteger rhs.toInt64).typeOrder

/-- `operator>=` with an `int` on the right. -/
def ge (lhs : Json) (rhs : Int32) : Bool := !lhs.lt rhs

end Json

/-! ## Copies -/

/-- The length up to which a `std::string` of libstdc++ keeps its characters in itself. -/
def stringCapacity : Nat := 15

/-- The requests for memory that the copy of a string makes. -/
def stringRequests (s : List CChar) : Nat := if s.length ≤ stringCapacity then 0 else 1

namespace Json

mutual

/-- The requests that the copy of a value makes. A number is copied in place; a string, an array and
an object are created on the heap, an array with a block for its elements where it has any, an object
with a node for each of its members. -/
def copyRequests : Json → Nat
  | string s => 1 + stringRequests s
  | array elems => 1 + (if elems.isEmpty then 0 else 1) + elementsRequests elems
  | object fields => 1 + fieldsRequests fields
  | _ => 0

def elementsRequests : List Json → Nat
  | [] => 0
  | j :: elems => copyRequests j + elementsRequests elems

def fieldsRequests : List (List CChar × Json) → Nat
  | [] => 0
  | (key, j) :: fields => 1 + stringRequests key + copyRequests j + fieldsRequests fields

end

/-! ## Lookups -/

theorem lookup_cons_eq (k key : List CChar) (v : Json) (rest : List (List CChar × Json)) :
    List.lookup k ((key, v) :: rest) = if k = key then some v else rest.lookup k := by
  rw [List.lookup_cons]
  by_cases h : k = key
  · rw [if_pos h, beq_iff_eq.mpr h]
  · rw [if_neg h, beq_eq_false_iff_ne.mpr h]

/-- An object answers with the last value of a key. -/
theorem lookup_assign (fields : List (List CChar × Json)) (key : List CChar) (v : Json)
    (k : List CChar) :
    (assign fields key v).lookup k = if k = key then some v else fields.lookup k := by
  induction fields with
  | nil => exact lookup_cons_eq k key v []
  | cons p rest ih =>
    obtain ⟨k', w⟩ := p
    unfold assign
    by_cases hk : key = k'
    · rw [if_pos hk, lookup_cons_eq, lookup_cons_eq, hk]
      split_ifs <;> rfl
    · rw [if_neg hk, lookup_cons_eq, lookup_cons_eq, ih]
      by_cases h : k = k'
      · have hne : k ≠ key := fun he => hk (he ▸ h)
        rw [if_pos h, if_neg hne, if_pos h]
      · rw [if_neg h, if_neg h]

theorem get_of_find? {j v : Json} {key : List CChar} (h : j.find? key = some v) :
    j.get key = .ok v := by
  cases j with
  | object fields =>
    rw [find?] at h
    rw [get, h]
  | _ => cases h

theorem isString_iff {j : Json} : j.isString = true ↔ ∃ s, j = string s := by
  cases j <;> simp [isString]

theorem isArray_iff {j : Json} : j.isArray = true ↔ ∃ elems, j = array elems := by
  cases j <;> simp [isArray]

/-- A number converts to `int`; what it converts to is another matter. -/
theorem getInt_of_isNumber {j : Json} (h : j.isNumber = true) : ∃ i, j.getInt = .ok i := by
  cases j with
  | numberInteger i => exact ⟨_, rfl⟩
  | numberUnsigned u => exact ⟨_, rfl⟩
  | numberFloat d => exact ⟨_, rfl⟩
  | _ => cases h

end Json

end UpdateCheck
