import UpdateCheck.Base.Effects
import UpdateCheck.Fetcher.Curl
import Mathlib.Algebra.Ring.Int.Defs
import Mathlib.Algebra.Ring.Nat

/-!
# The list fetcher

`list_fetcher.c`. A session holds the handle, the error text and the buffer the body is collected
in; `writer` is the callback the transfer hands the chunks of the body to. The `goto` ladders at
the end of `init_session` and `fetcher_fetch` are written out at the places that jump to them. The
memory inside the library is its own; the ledger shows the blocks of the fetcher.
-/

namespace UpdateCheck.Fetcher

/-! ## The download buffer -/

/-- `struct Buffer`. The block behind `data` holds as many bytes as were allocated. -/
structure Buffer where
  data : Ptr (List CChar)
  length : Nat
  allocated : Nat

def Buffer.zero : Buffer := ⟨none, 0, 0⟩

/-- The sum of two values of `size_t`. -/
def sizeAdd (a b : Nat) : Nat := (a + b) % 2 ^ 64

/-- A `size_t` returned as an `int`. -/
def intOfSize (n : Nat) : Int := (((n : Int) + 2 ^ 31) % 2 ^ 32) - 2 ^ 31

/-- The bytes of a block grown to `n` bytes, the new ones of no particular value. -/
def resize (block : List CChar) (n : Nat) : List CChar :=
  block.take n ++ List.replicate (n - block.length) 0

/-- `memcpy` of some bytes to an offset of a block. -/
def writeAt (block : List CChar) (offset : Nat) (bytes : List CChar) : List CChar :=
  block.take offset ++ bytes ++ block.drop (offset + bytes.length)

def Buffer.bytes (buf : Buffer) : List CChar := buf.data.val?.getD []

/-- The store of a chunk behind the bytes of the buffer. -/
def Buffer.append (buf : Buffer) (chunk : List CChar) : Buffer :=
  { buf with
    data := buf.data.map fun b => { b with val := writeAt b.val buf.length chunk }
    length := sizeAdd buf.length chunk.length }

/-- `writer`, on a chunk of `size * nmemb` bytes. -/
def writer (chunk : List CChar) : Prog Raised Buffer Int := do
  let buf ← readObj
  if sizeAdd buf.length chunk.length > buf.allocated then
    let sizeNew := sizeAdd buf.allocated chunk.length
    let dataNew ← realloc buf.data (resize buf.bytes sizeNew)
    if dataNew.isNone then return 0
    modifyObj fun buf => { buf with data := dataNew, allocated := sizeNew }
    modifyObj fun buf => buf.append chunk
    return intOfSize chunk.length
  else
    modifyObj fun buf => buf.append chunk
    return intOfSize chunk.length

/-! ## The session -/

structure Session where
  connection : Option CurlHandle
  errorString : Ptr (List CChar)
  dataBuffer : Buffer

/-- A session struct filled with zero bytes. -/
def Session.zero : Session := ⟨none, none, .zero⟩

def curlErrorSize : Nat := 256

variable (curl : Curl)

/-- `curl_easy_setopt`. An option that is refused leaves the handle as it was. -/
def setopt (o : CurlOption) : Prog Raised Session CurlCode := do
  let s ← readObj
  match s.connection with
  | none => return .other 43
  | some h =>
    let code := curl.setopt h o
    if code = .ok then
      modifyObj fun s => { s with connection := some (h.set o) }
      return code
    else return code

/-- Options set one after another, up to the first that is refused; whether all were set. -/
def setAll : List CurlOption → Prog Raised Session Bool
  | [] => return true
  | o :: os => do
    let code ← setopt curl o
    if code = .ok then setAll os else return false

def destroySession (s : Session) {σ : Type} : Prog Raised σ Unit := do
  free s.dataBuffer.data
  free s.errorString

/-- The options `init_session` sets. -/
def sessionOptions : List CurlOption :=
  [.errorBuffer, .writeFunction, .writeData, .followLocation 1, .failOnError 1,
    .connectTimeout 10, .timeout 15]

def initSession : Prog Raised Session EupdRetCode := do
  modifyObj fun _ => Session.zero
  let errorString ← malloc (List.replicate curlErrorSize 0)
  modifyObj fun s => { s with errorString := errorString }
  if errorString.isNone then
    free errorString
    return .eNoMemory
  else if !curl.easyInit then
    free (none : Ptr (List CChar))
    free errorString
    return .eNoMemory
  else
    modifyObj fun s => { s with connection := some .fresh }
    if ← setAll curl sessionOptions then return .ok
    else
      let s ← readObj
      destroySession s
      return .eCurlSetup

/-! ## The transfer -/

/-- The chunks of a body given to the callback. The transfer ends with a write error where the
callback does not return the size of its chunk. -/
def deliver (code : CurlCode) : List (List CChar) → Prog Raised Session CurlCode
  | [] => return code
  | chunk :: chunks => do
    let written ← onPart Session.dataBuffer (fun buf s => { s with dataBuffer := buf })
      (writer chunk)
    if written = chunk.length then deliver code chunks else return .writeError

/-- `curl_easy_perform`, with the callback and the buffers `init_session` has set. -/
def easyPerform : Prog Raised Session CurlCode := do
  let s ← readObj
  match s.connection with
  | none => return .other 43
  | some h =>
    let t := curl.transfer h
    let text := strncpy (t.errorText.take (curlErrorSize - 1)) curlErrorSize
    modifyObj fun s => { s with errorString := s.errorString.map fun b => { b with val := text } }
    deliver t.code t.chunks

/-- The `switch (curl_ret)`: none where the transfer succeeded. -/
def retOfCurl : CurlCode → Option EupdRetCode
  | .ok => none
  | .couldntResolveHost => some .eCannotResolve
  | .couldntConnect => some .eConnectionFailed
  | .httpReturnedError => some .eHttpError
  | .writeError => some .eTransferError
  | .operationTimedout => some .eTimeout
  | .sslConnectError => some .eSsl
  | .other _ => some .eUnkwNetwork

theorem retOfCurl_isNetworkError {code : CurlCode} {ret : EupdRetCode}
    (h : retOfCurl code = some ret) : ret.isNetworkError = true := by
  cases code <;> cases h <;> rfl

/-- `struct DownloadedList`. The source does not keep `origin`, the requests of the transfer. -/
structure DownloadedList where
  list : Ptr (List CChar)
  errorString : Ptr (List CChar)
  origin : List Hop

def DownloadedList.zero : DownloadedList := ⟨none, none, []⟩

/-- The options `fetcher_fetch` adds. -/
def requestOptions (url : List CChar) (allowInsecure : Int32) : List CurlOption :=
  .url url :: if 0 < allowInsecure.toInt then [.sslVerifyPeer 0, .sslVerifyHost 0] else []

/-- The answer to the option for the user agent is not looked at. -/
def setUserAgent (userAgent : Ptr (List CChar)) : Prog Raised Session Unit := do
  match userAgent with
  | none => return ()
  | some b =>
    let _ ← setopt curl (.userAgent (content b.val))
    return ()

def originOf (s : Session) : List Hop :=
  match s.connection with
  | none => []
  | some h => (curl.transfer h).hops

/-- The end of `fetcher_fetch`, behind the transfer. -/
def finishFetch (s : Session) (code : CurlCode) : Prog Raised DownloadedList EupdRetCode := do
  match retOfCurl code with
  | none =>
    let list ← malloc (s.dataBuffer.bytes.take s.dataBuffer.length ++ [0])
    modifyObj fun dl => { dl with list := list }
    if list.isNone then
      destroySession s
      return .eNoMemory
    else
      destroySession s
      return .ok
  | some ret =>
    let errorString ← malloc (content (s.errorString.val?.getD []) ++ [0])
    modifyObj fun dl => { dl with errorString := errorString }
    if errorString.isNone then
      destroySession s
      return .eNoMemory
    else
      destroySession s
      return ret

/-- `fetcher_fetch`, behind `init_session`. -/
def fetchWith (url : List CChar) (allowInsecure : Int32) (userAgent : Ptr (List CChar))
    (s : Session) : Prog Raised DownloadedList EupdRetCode := do
  let (configured, s) ← withObj s (setAll curl (requestOptions (content url) allowInsecure))
  if !configured then
    destroySession s
    return .eCurlSetup
  else
    let (_, s) ← withObj s (setUserAgent curl userAgent)
    let (code, s) ← withObj s (easyPerform curl)
    modifyObj fun dl => { dl with origin := originOf curl s }
    finishFetch s code

def fetcherFetch (url : List CChar) (allowInsecure : Int32) (userAgent : Ptr (List CChar)) :
    Prog Raised DownloadedList EupdRetCode := do
  modifyObj fun _ => DownloadedList.zero
  let (ret, s) ← withObj Session.zero (initSession curl)
  if ret ≠ .ok then return ret else fetchWith curl url allowInsecure userAgent s

def fetcherListCleanup {σ : Type} (dl : DownloadedList) : Prog Raised σ Unit := do
  free dl.list
  free dl.errorString

end UpdateCheck.Fetcher
