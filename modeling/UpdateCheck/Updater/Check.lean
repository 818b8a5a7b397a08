import UpdateCheck.Comparator.Compare
import UpdateCheck.Fetcher.Fetch
import UpdateCheck.ListParser.Parse

/-!
# The entry points

`update_check.c`: the user agent, the download and parsing of the list, the check of one software
and the check of many. The programs work on the targets of their out pointers, which keep what
the caller left in them until they are written.

The user agent is built from memory. A name that fills its buffer is read on beyond it, first
through the rest of the struct and then through `behind`, whatever lies behind the struct.
-/

namespace UpdateCheck.Updater

open Comparator ListParser Fetcher

/-- What the entry points find around them: the transfer library, and the memory behind a
descriptor. -/
structure Env where
  curl : Curl
  behind : List CChar

/-! ## The user agent -/

/-- The four bytes of an `int` on a little-endian machine. -/
def intBytes (i : Int32) : List CChar :=
  let n := i.toUInt32.toNat
  [UInt8.ofNat n, UInt8.ofNat (n / 2 ^ 8), UInt8.ofNat (n / 2 ^ 16), UInt8.ofNat (n / 2 ^ 24)]

/-- The bytes of `struct EUPDInSoftware`. -/
def image (sw : EupdInSoftware) : List CChar :=
  sw.name.toList ++ intBytes sw.version.major ++ intBytes sw.version.minor ++
    sw.version.revision.toList

/-- The conversion `%d`. -/
def decimal (i : Int32) : List CChar :=
  let digits (n : Nat) := (Nat.toDigits 10 n).map Json.chr
  if i.toInt < 0 then Json.chr '-' :: digits i.toInt.natAbs else digits i.toInt.natAbs

def PREFIX : List CChar := ascii "ECHMETUpdateCheck"

def maxSize : Nat := 64

/-- The text given to `snprintf`. The revision is copied into a buffer with a terminator first. -/
def userAgentText (behind : List CChar) : Option EupdInSoftware → List CChar
  | none => PREFIX
  | some sw =>
    PREFIX ++ ascii " - " ++ content (image sw ++ behind) ++ ascii " " ++
      decimal sw.version.major ++ ascii "." ++ decimal sw.version.minor ++
      content (sw.version.revision.toList ++ [0])

variable {σ : Type}

def makeUserAgentStr (behind : List CChar) (inSoftware : Option EupdInSoftware) :
    Prog Raised σ (Ptr (List CChar)) :=
  malloc (strncpy ((userAgentText behind inSoftware).take (maxSize - 1)) maxSize)

/-! ## The list -/

/-- `fetch`. The set-up and the clean-up of the library's globals have no effect here. -/
def fetch (env : Env) (url : List CChar) (allowInsecure : Int32)
    (inSoftware : Option EupdInSoftware) : Prog Raised DownloadedList EupdRetCode := do
  let userAgent ← makeUserAgentStr env.behind inSoftware
  let tRet ← fetcherFetch env.curl url allowInsecure userAgent
  free userAgent
  return tRet

def makeList (env : Env) (url : List CChar) (allowInsecure : Int32)
    (inSoftware : Option EupdInSoftware) : Prog Raised SoftwareList EupdRetCode := do
  let (tRet, dlList) ← withObj DownloadedList.zero (fetch env url allowInsecure inSoftware)
  if tRet.isError then
    fetcherListCleanup dlList
    return tRet
  else
    let tRet ← parserParse (dlList.list.val?.getD [])
    fetcherListCleanup dlList
    return tRet

/-! ## One software -/

def processItem (swList : SoftwareList) (inSoftware : EupdInSoftware) (inRet : EupdRetCode) :
    Prog Raised EupdResult EupdRetCode := do
  let result ← readObj
  let (tRet, status, version) ← ofExcept (comparatorCompare swList inSoftware result.version)
  modifyObj fun result => { result with status := status, version := version }
  if tRet.isError then return tRet
  else
    let tRet := if inRet.isWarning then inRet else tRet
    if status ≠ .unknown then
      let tRetTwo ← parserSetLink swList inSoftware.name
      if tRetTwo.isError then return tRetTwo
      else if !tRet.isWarning then return tRetTwo
      else return tRet
    else return tRet

def updaterCheck (env : Env) (url : List CChar) (inSoftware : EupdInSoftware)
    (allowInsecure : Int32) : Prog Raised EupdResult EupdRetCode := do
  if !checkInput inSoftware then return .eInvalidArgument
  else
    modifyObj fun _ => EupdResult.zero
    let (tRet, swList) ← withObj SoftwareList.zero (makeList env url allowInsecure inSoftware)
    if tRet.isError then
      parserFreeList swList
      return tRet
    else
      let tRet ← processItem swList inSoftware tRet
      parserFreeList swList
      return tRet

def updaterFreeResult (result : EupdResult) : Prog Raised σ Unit := free result.link

/-- The loop of `updater_free_result_list`. -/
def freeResults : List EupdResult → Prog Raised σ Unit
  | [] => return ()
  | result :: results => do
    updaterFreeResult result
    freeResults results

def updaterFreeResultList (results : Ptr (List EupdResult)) (numResults : Nat) :
    Prog Raised σ Unit := do
  freeResults ((results.val?.getD []).take numResults)
  free results

/-! ## Many softwares -/

/-- The targets `*out_results` and `*num_results`. -/
structure CheckMany where
  outResults : Ptr (List EupdResult)
  numResults : Nat

/-- The store into `results[idx]`. -/
def setResult (idx : Nat) (result : EupdResult) (results : Ptr (List EupdResult)) :
    Ptr (List EupdResult) := results.map fun b => { b with val := b.val.set idx result }

/-- The loop of `updater_check_many`, from `idx` on, with `*num_results` as its counter. It returns
the code and the array. -/
def checkItems (swList : SoftwareList) (idx : Nat) (tRet : EupdRetCode)
    (results : Ptr (List EupdResult)) :
    List EupdInSoftware → Prog Raised CheckMany (EupdRetCode × Ptr (List EupdResult))
  | [] => return (tRet, results)
  | inSw :: inSoftwareList => do
    if !checkInput inSw then return (.eInvalidArgument, results)
    else
      let (tRet, result) ← withObj ((results.val?.getD []).getD idx .zero)
        (processItem swList inSw tRet)
      let results := setResult idx result results
      if tRet.isError then return (tRet, results)
      else
        modifyObj fun out => { out with numResults := idx + 1 }
        checkItems swList (idx + 1) tRet results inSoftwareList

def updaterCheckMany (env : Env) (url : List CChar) (inSoftwareList : List EupdInSoftware)
    (allowInsecure : Int32) : Prog Raised CheckMany EupdRetCode := do
  let results ← malloc (List.replicate inSoftwareList.length EupdResult.zero)
  if results.isNone then return .eNoMemory
  else
    modifyObj fun out => { out with numResults := 0 }
    let (tRet, swList) ← withObj SoftwareList.zero (makeList env url allowInsecure none)
    if tRet.isError then
      let out ← readObj
      parserFreeList swList
      updaterFreeResultList results out.numResults
      return tRet
    else
      let (tRet, results) ← checkItems swList 0 tRet results inSoftwareList
      if tRet.isError then
        let out ← readObj
        parserFreeList swList
        updaterFreeResultList results out.numResults
        return tRet
      else
        parserFreeList swList
        modifyObj fun out => { out with outResults := results }
        return tRet

end UpdateCheck.Updater
