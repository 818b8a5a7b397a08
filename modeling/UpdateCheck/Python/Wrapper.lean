import UpdateCheck.Base.Utf8
import UpdateCheck.Updater.Check

/-!
# The Python wrapper

`echmetupdatecheck.py`: the class around the library. A `str` is a list of characters and `bytes` a
list of bytes; a version and a software hold what their constructors let through, so they keep it in
fields. What a call hands to the library is built of these, and what the library answers is decoded,
each step of which may raise (`PyError`). An exception that leaves the library itself ends the
process, and is kept among the others as `PyError.library`.
-/

namespace UpdateCheck.Python

open Updater

/-- The exceptions of the wrapper, and those that leave the library. -/
inductive PyError where
  | unicodeEncodeError
  | unicodeDecodeError
  | attributeError
  | indexError
  | invalidInputError
  | invalidOutputError
  | library (e : Raised)
  deriving DecidableEq

/-! ## Strings -/

def isAscii (s : List CChar) : Bool := s.all fun c => c.toNat < 0x80

/-- The `bytes` that are ASCII. -/
abbrev Ascii := { s : List CChar // isAscii s = true }

/-- The byte of each character of an ASCII text. -/
def asciiBytes (s : List Char) : List CChar := s.map fun c => UInt8.ofNat c.toNat

theorem isAscii_asciiBytes {s : List Char} (h : (s.all fun c => c.toNat < 0x80) = true) :
    isAscii (asciiBytes s) = true := by
  rw [isAscii, asciiBytes, List.all_map]
  refine List.all_eq_true.mpr fun c hc => ?_
  have hlt : c.toNat < 0x80 := of_decide_eq_true (List.all_eq_true.mp h c hc)
  have hbyte : (UInt8.ofNat c.toNat).toNat = c.toNat := by
    rw [UInt8.toNat_ofNat']
    omega
  exact decide_eq_true (hbyte.trans_lt hlt)

/-- `s.encode('ASCII')`. -/
def encodeAscii (s : List Char) : Except PyError Ascii :=
  if h : (s.all fun c => c.toNat < 0x80) = true then .ok ⟨asciiBytes s, isAscii_asciiBytes h⟩
  else .error .unicodeEncodeError

/-- `b.decode('ASCII')`. -/
def decodeAscii (b : List CChar) : Except PyError (List Char) :=
  if isAscii b then .ok (b.map fun c => Char.ofNat c.toNat) else .error .unicodeDecodeError

/-- `b.decode('UTF-8')`. -/
def decodeUtf8 (b : List CChar) : Except PyError (List Char) :=
  match b.toByteArray.utf8Decode? with
  | some s => .ok s.toList
  | none => .error .unicodeDecodeError

/-! ## Codes and status -/

inductive ErrorType where
  | noError
  | networkError
  | processingError
  deriving DecidableEq

inductive UpdateState where
  | upToDate
  | updateAvailable
  | updateRecommended
  | updateRequired
  | unknown
  deriving DecidableEq

def LIB_EUST_UNKWOWN : Nat := 0
def LIB_EUST_UP_TO_DATE : Nat := 1
def LIB_EUST_AVAILABLE : Nat := 2
def LIB_EUST_RECOMMENDED : Nat := 3
def LIB_EUST_REQUIRED : Nat := 4

def internalIsError (ret : Nat) : Bool := 0x200 ≤ ret

def internalIsNetworkError (ret : Nat) : Bool := 0x300 ≤ ret && ret < 0x400

def errorType (ret : Nat) : ErrorType :=
  if internalIsNetworkError ret then .networkError
  else if internalIsError ret then .processingError
  else .noError

/-- The integer that `LIB_RESULT` has for a status. -/
def libStatus : EupdUpdateStatus → Nat
  | .unknown => 0
  | .upToDate => 1
  | .updateAvailable => 2
  | .updateRecommended => 3
  | .updateRequired => 4

def libToUsrStatus (res : Nat) : Except PyError UpdateState :=
  if res = LIB_EUST_UP_TO_DATE then .ok .upToDate
  else if res = LIB_EUST_AVAILABLE then .ok .updateAvailable
  else if res = LIB_EUST_RECOMMENDED then .ok .updateRecommended
  else if res = LIB_EUST_REQUIRED then .ok .updateRequired
  else if res = LIB_EUST_UNKWOWN then .ok .unknown
  else .error .invalidOutputError

/-! ## Versions, softwares and results -/

/-- A `Version`. Its revision is ASCII and fits. -/
structure Version where
  major : Int32
  minor : Int32
  revision : Ascii
  fits : revision.val.length ≤ revisionSize

/-- The constructor of `Version`. A `c_int` keeps the low bits of its number. -/
def Version.init (major minor : Int) (revision : List Char) : Except PyError Version := do
  let asc ← encodeAscii revision
  if h : asc.val.length ≤ revisionSize then
    return ⟨Int32.ofInt major, Int32.ofInt minor, asc, h⟩
  else throw .invalidInputError

/-- A `Software`. Its name is ASCII and fits. -/
structure Software where
  name : Ascii
  version : Version
  fits : name.val.length ≤ nameSize

/-- The constructor of `Software`. -/
def Software.init (name : List Char) (version : Version) : Except PyError Software := do
  let asc ← encodeAscii name
  if h : asc.val.length ≤ nameSize then return ⟨asc, version, h⟩
  else throw .invalidInputError

/-- The `LIB_INSOFTWARE` of a software. A `c_char` field takes the bytes up to the first NUL. -/
def Software.inSw (sw : Software) : EupdInSoftware :=
  ⟨strncpyBuf sw.name.val nameSize,
    ⟨sw.version.major, sw.version.minor, strncpyBuf sw.version.revision.val revisionSize⟩⟩

structure Result where
  status : UpdateState
  version : Option Version
  link : List Char

/-- What a user is told of a software that is not known. -/
def Result.notKnown : Result := ⟨.unknown, none, []⟩

/-- `res.link.decode('UTF-8')`. A null pointer is read as `None`. -/
def decodeLink (link : Ptr (List CChar)) : Except PyError (List Char) :=
  match link.val? with
  | some bytes => decodeUtf8 (content bytes)
  | none => .error .attributeError

/-- The `Result` of a `LIB_RESULT` that is not unknown. -/
def usrRes (res : EupdResult) : Except PyError Result := do
  let status ← libToUsrStatus (libStatus res.status)
  let revision ← decodeAscii (content res.version.revision.toList)
  let version ← Version.init res.version.major.toInt res.version.minor.toInt revision
  let link ← decodeLink res.link
  return ⟨status, some version, link⟩

/-! ## Checks -/

section Call

variable {σ α : Type}

/-- A call of the library. -/
def call (m : Prog Raised σ α) : Prog PyError σ α :=
  .of fun x L => ((m.exec x L).1.mapError .library, (m.exec x L).2)

end Call

/-- `c_int(allow_insecure)`. -/
def cInt (allowInsecure : Bool) : Int32 := if allowInsecure then 1 else 0

/-- `check`. The URL is handed over as a C string. -/
def check (env : Env) (url : List Char) (software : Software) (allowInsecure : Bool) :
    Prog PyError Unit (Bool × Nat × Option Result) := do
  let asc ← ofExcept (encodeAscii url)
  let (tRet, res) ← withObj EupdResult.zero
    (call (updaterCheck env (content asc.val) software.inSw (cInt allowInsecure)))
  let ret := tRet.code
  if internalIsError ret then return (false, ret, none)
  else if libStatus res.status = LIB_EUST_UNKWOWN then return (true, ret, some .notKnown)
  else
    let usrRes ← ofExcept (usrRes res)
    call (updaterFreeResult res)
    return (true, ret, some usrRes)

/-- An item of the list that `check_many` returns: the result of a software that is not known comes
without its name. -/
inductive ResultOut where
  | bare (res : Result)
  | named (name : List Char) (res : Result)

def resultOut (softwareList : List Software) (idx : Nat) (rawRes : EupdResult) :
    Except PyError ResultOut :=
  if libStatus rawRes.status = LIB_EUST_UNKWOWN then .ok (.bare .notKnown)
  else do
    let software ← (softwareList[idx]?).elim (.error .indexError) .ok
    let name ← decodeAscii software.name.val
    let res ← usrRes rawRes
    return .named name res

/-- The loop of `check_many` from `idx` on. -/
def resultsOut (softwareList : List Software) (idx : Nat) :
    List EupdResult → Except PyError (List ResultOut)
  | [] => .ok []
  | rawRes :: results => do
    let res ← resultOut softwareList idx rawRes
    let rest ← resultsOut softwareList (idx + 1) results
    return res :: rest

/-- `check_many`. Its counts are a `c_int` each: `num_results` keeps the low bits of what the
library counts, and is widened again where it is handed back. A list is taken to be short enough for
its own number to be passed. -/
def checkMany (env : Env) (url : List Char) (softwareList : List Software) (allowInsecure : Bool) :
    Prog PyError Unit (Bool × Nat × Option (List ResultOut)) := do
  let asc ← ofExcept (encodeAscii url)
  let (tRet, out) ← withObj (CheckMany.mk none 0)
    (call (updaterCheckMany env (content asc.val) (softwareList.map Software.inSw)
      (cInt allowInsecure)))
  let ret := tRet.code
  if internalIsError ret then return (false, ret, none)
  else
    let numResults := (Int32.ofNat out.numResults).toInt
    let resultsOut ← ofExcept
      (resultsOut softwareList 0 ((out.outResults.val?.getD []).take numResults.toNat))
    call (updaterFreeResultList out.outResults (numResults % 2 ^ 64).toNat)
    return (true, ret, some resultsOut)

end UpdateCheck.Python
