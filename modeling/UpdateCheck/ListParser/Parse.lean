import UpdateCheck.Json.Parser
import UpdateCheck.Validator

/-!
# The list parser

`list_parser.cpp`, function by function. The programs work on the target of their out pointer: the
slot of an item for `parseItem`, the list for `walkList` and `parserParse`, the result for
`parserSetLink`. The copy of a string or of a JSON value may ask for memory, and `std::bad_alloc` is
thrown where it is refused. The requests of `json_t::parse` and those for an exception and its text
are not among those that may be refused here. `calloc` of no bytes is a request like any other.
-/

namespace UpdateCheck.ListParser

def LINK : List CChar := ascii "link"
def MAJOR : List CChar := ascii "major"
def MINOR : List CChar := ascii "minor"
def NAME : List CChar := ascii "name"
def REVISION : List CChar := ascii "revision"
def SEVERITY : List CChar := ascii "severity"
def SOFTWARE : List CChar := ascii "software"
def VERSIONS : List CChar := ascii "versions"

variable {σ : Type}

/-! ## Validation -/

def hasEntry (o : Json) (key : List CChar) : Bool := (o.find? key).isSome

def entry (o : Json) (key : List CChar) : Prog Raised σ Json := ofExcept (o.get key)

def getString (j : Json) : Prog Raised σ (List CChar) := do
  let s ← ofExcept j.getString
  copied .badAlloc s (stringRequests s)

def getInt (j : Json) : Prog Raised σ Int32 := ofExcept j.getInt

def isJsonRevisionValid (rev : List CChar) : Bool := isRevisionValid rev rev.length

def isJsonSoftwareValid (sw : Json) : Prog Raised σ Bool := do
  if !sw.isString then return false
  let name ← getString sw
  if name.length > nameSize then return false
  return isSoftwareNameValid name.length

def isVersionItem (o : Json) : Prog Raised σ Bool := do
  if !hasEntry o MAJOR then return false
  if !(← entry o MAJOR).isNumber then return false
  if !hasEntry o MINOR then return false
  if !(← entry o MINOR).isNumber then return false
  if !hasEntry o REVISION then return false
  let rev ← entry o REVISION
  if !rev.isString then return false
  if !isJsonRevisionValid (← getString rev) then return false
  if !hasEntry o SEVERITY then return false
  let severity ← entry o SEVERITY
  let sev ← copied .badAlloc severity severity.copyRequests
  return sev.ge 0 && sev.lt 3

def checkItem (item : Json) : Prog Raised σ Unit := do
  throwIf (!item.isObject) .invalidItemError
  throwIf (!hasEntry item NAME) .invalidItemError
  throwIf (!(← isJsonSoftwareValid (← entry item NAME))) .invalidItemError
  throwIf (!hasEntry item LINK) .invalidItemError
  let link ← entry item LINK
  throwIf (!link.isString) .invalidItemError
  throwIf ((← getString link).length < 1) .invalidItemError
  throwIf (!hasEntry item VERSIONS) .invalidItemError
  let vers ← entry item VERSIONS
  throwIf (!vers.isArray) .invalidItemError
  throwIf (vers.elements.length < 1) .invalidItemError

/-! ## Items -/

/-- The `switch (sev)` of `parse_version`. -/
def severityOfInt (sev : Int32) : Except Raised Severity :=
  if sev = 0 then .ok sevFeature
  else if sev = 1 then .ok sevBugfix
  else if sev = 2 then .ok sevCritical
  else .error .logicError

/-- `parse_version`: the version it stores. -/
def parseVersion (v : Json) : Prog Raised σ ListVersion := do
  throwIf (!(← isVersionItem v)) .invalidItemError
  let major ← getInt (← entry v MAJOR)
  let minor ← getInt (← entry v MINOR)
  let rev ← getString (← entry v REVISION)
  let sev ← getInt (← entry v SEVERITY)
  let severity ← ofExcept (severityOfInt sev)
  return ⟨⟨major, minor, strncpyBuf rev revisionSize⟩, severity⟩

/-- The store into `sw->versions[idx]`. -/
def setVersion (idx : Nat) (lv : ListVersion) (sw : Software) : Software :=
  { sw with versions := sw.versions.map fun b => { b with val := b.val.set idx lv } }

/-- The loop of `parse_item` over the versions, from `idx` on. An invalid version releases both
blocks of the item, `std::bad_alloc` leaves as it is. -/
def parseVersions (idx : Nat) : List Json → Prog Raised Software Unit
  | [] => modifyObj fun sw => { sw with numVersions := idx }
  | v :: vers => do
    match ← attempt (parseVersion v) with
    | .ok lv =>
      modifyObj (setVersion idx lv)
      parseVersions (idx + 1) vers
    | .error .invalidItemError =>
      let sw ← readObj
      free sw.link
      free sw.versions
      modifyObj fun sw => { sw with numVersions := idx }
      throw .invalidItemError
    | .error e => throw e

def parseItem (item : Json) : Prog Raised Software Unit := do
  checkItem item
  let name ← getString (← entry item NAME)
  let link ← getString (← entry item LINK)
  let vers ← entry item VERSIONS
  modifyObj fun _ => Software.zero
  let versions ← malloc (List.replicate vers.elements.length ListVersion.zero)
  modifyObj fun sw => { sw with versions := versions }
  throwIf versions.isNone .badAlloc
  -- the block is given with what `strncpy` stores in all of it below
  let linkBlock ← malloc (strncpy link (link.length + 1))
  modifyObj fun sw => { sw with link := linkBlock }
  if linkBlock.isNone then
    free versions
    throw .badAlloc
  else
    modifyObj fun sw => { sw with name := strncpyBuf name nameSize }
    parseVersions 0 vers.elements

/-! ## The list -/

/-- `sw_list->items[idx]`. -/
def slot (idx : Nat) (list : SoftwareList) : Software :=
  (list.items.val?.getD []).getD idx Software.zero

/-- The store into `sw_list->items[idx]`. -/
def setSlot (idx : Nat) (sw : Software) (list : SoftwareList) : SoftwareList :=
  { list with items := list.items.map fun b => { b with val := b.val.set idx sw } }

/-- The loop of `walk_list`, from `idx` on. -/
def walkItems (idx : Nat) : List Json → Prog Raised SoftwareList EupdRetCode
  | [] => do
    modifyObj fun list => { list with length := idx }
    return .ok
  | item :: items => do
    match ← attempt (onPart (slot idx) (setSlot idx) (parseItem item)) with
    | .ok _ => walkItems (idx + 1) items
    | .error .invalidItemError | .error .badAlloc =>
      modifyObj fun list => { list with length := idx }
      return .wListIncomplete
    | .error e => throw e

def walkList (root : Json) : Prog Raised SoftwareList EupdRetCode := do
  if !root.isObject then return .eMalformedList
  if !hasEntry root SOFTWARE then return .eMalformedList
  let software ← entry root SOFTWARE
  if !software.isArray then return .eMalformedList
  let items ← malloc (List.replicate software.elements.length Software.zero)
  modifyObj fun list => { list with items := items }
  if items.isNone then return .eNoMemory
  walkItems 0 software.elements

/-- The loop of `parser_free_list`. -/
def freeItems : List Software → Prog Raised σ Unit
  | [] => return ()
  | sw :: items => do
    free sw.link
    free sw.versions
    freeItems items

def parserFreeList (list : SoftwareList) : Prog Raised σ Unit := do
  freeItems list.visible
  free list.items

def parserParse (listString : List CChar) : Prog Raised SoftwareList EupdRetCode :=
  match Json.parse listString with
  | .ok j => walkList j
  | .error .parseError => return .eMalformedList
  | .error e => throw e

/-- The loop of `parser_set_link`. The names are compared the other way round than in
`comparator_compare`. -/
def setLinkFrom (name : Vector CChar nameSize) : List Software → Prog Raised EupdResult EupdRetCode
  | [] => throw .abort
  | sw :: items => do
    if strncasecmp name.toList sw.name.toList nameSize = 0 then
      let link ← malloc (content sw.linkBytes ++ [0])
      modifyObj fun result => { result with link := link }
      if link.isNone then return .eNoMemory
      return .ok
    else setLinkFrom name items

def parserSetLink (list : SoftwareList) (name : Vector CChar nameSize) :
    Prog Raised EupdResult EupdRetCode := setLinkFrom name list.visible

end UpdateCheck.ListParser
