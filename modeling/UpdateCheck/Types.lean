import UpdateCheck.Base.CString
import UpdateCheck.Base.Effects

/-!
# Data of the library

The return codes, the update status, the version and software descriptors of
`echmetupdatecheck.h` and the parsed list of `list_parser.h`. What models a type or a function of
the source has its name, in camel case. An `int` is an `Int32`, a fixed `char` array a `Vector` of
its length. A severity is kept as the integer the enumeration is stored in, so that a value outside
the three names can be written down.
-/

namespace UpdateCheck

/-- `STRUCT_MEM_SZ(struct EUPDVersion, revision)`. -/
abbrev revisionSize : Nat := 4

/-- `STRUCT_MEM_SZ(struct Software, name)`, which is also that of `struct EUPDInSoftware`. -/
abbrev nameSize : Nat := 32

/-! ## Return codes and status -/

inductive EupdRetCode where
  | ok
  | wListIncomplete
  | wNotFound
  | eNoMemory
  | eMalformedList
  | eInvalidArgument
  | eCurlSetup
  | eCannotResolve
  | eConnectionFailed
  | eHttpError
  | eTransferError
  | eTimeout
  | eSsl
  | eUnkwNetwork
  deriving DecidableEq, Repr

namespace EupdRetCode

def code : EupdRetCode → Nat
  | ok => 0
  | wListIncomplete => 0x100
  | wNotFound => 0x101
  | eNoMemory => 0x200
  | eMalformedList => 0x201
  | eInvalidArgument => 0x202
  | eCurlSetup => 0x300
  | eCannotResolve => 0x301
  | eConnectionFailed => 0x302
  | eHttpError => 0x303
  | eTransferError => 0x304
  | eTimeout => 0x305
  | eSsl => 0x306
  | eUnkwNetwork => 0x307

/-- `EUPD_IS_ERROR`. -/
def isError (err : EupdRetCode) : Bool := 0x200 ≤ err.code

/-- `EUPD_IS_NETWORK_ERROR`. -/
def isNetworkError (err : EupdRetCode) : Bool := 0x300 ≤ err.code && err.code < 0x400

/-- `EUPD_IS_WARNING`. -/
def isWarning (err : EupdRetCode) : Bool := 0x100 ≤ err.code && err.code < 0x200

theorem isError_of_isNetworkError {ret : EupdRetCode} (h : ret.isNetworkError = true) :
    ret.isError = true := by
  cases ret <;> first | rfl | cases h

end EupdRetCode

inductive EupdUpdateStatus where
  | unknown
  | upToDate
  | updateAvailable
  | updateRecommended
  | updateRequired
  deriving DecidableEq, Repr

/-- The rank of a status among those of a software that was found. -/
def EupdUpdateStatus.rank : EupdUpdateStatus → Nat
  | unknown => 0
  | upToDate => 1
  | updateAvailable => 2
  | updateRecommended => 3
  | updateRequired => 4

/-! ## Versions and software -/

structure EupdVersion where
  major : Int32
  minor : Int32
  revision : Vector CChar revisionSize
  deriving DecidableEq

def EupdVersion.zero : EupdVersion := ⟨0, 0, Vector.replicate _ 0⟩

/-- A revision as the list format documents it: empty, or a letter followed by letters and
digits. -/
def RevisionForm : List CChar → Prop
  | [] => True
  | c :: rest => c.IsLetter ∧ ∀ d ∈ rest, d.IsAlnum

theorem RevisionForm.isAlnum {s : List CChar} (h : RevisionForm s) : ∀ c ∈ s, c.IsAlnum := by
  cases s with
  | nil => exact List.forall_mem_nil _
  | cons c rest =>
    rw [List.forall_mem_cons]
    exact ⟨h.1.isAlnum, h.2⟩

theorem RevisionForm.zero_notMem {s : List CChar} (h : RevisionForm s) : 0 ∉ s :=
  fun hmem => (h.isAlnum 0 hmem).ne_zero rfl

structure EupdInSoftware where
  name : Vector CChar nameSize
  version : EupdVersion
  deriving DecidableEq

structure EupdResult where
  status : EupdUpdateStatus
  version : EupdVersion
  link : Ptr (List CChar)

def EupdResult.zero : EupdResult := ⟨.unknown, .zero, none⟩

/-! ## The parsed list -/

/-- `enum Severity`, by its integer. -/
abbrev Severity := Nat

def sevFeature : Severity := 0
def sevBugfix : Severity := 1
def sevCritical : Severity := 2

def Severity.Named (s : Severity) : Prop := s = sevFeature ∨ s = sevBugfix ∨ s = sevCritical

instance (s : Severity) : Decidable s.Named := inferInstanceAs (Decidable (_ ∨ _))

structure ListVersion where
  version : EupdVersion
  severity : Severity
  deriving DecidableEq

def ListVersion.zero : ListVersion := ⟨.zero, sevFeature⟩

structure Software where
  name : Vector CChar nameSize
  link : Ptr (List CChar)
  versions : Ptr (List ListVersion)
  numVersions : Nat

namespace Software

def zero : Software := ⟨Vector.replicate _ 0, none, none, 0⟩

/-- The versions a loop up to `num_versions` visits. -/
def history (sw : Software) : List ListVersion := (sw.versions.val?.getD []).take sw.numVersions

/-- The bytes behind the link pointer. -/
def linkBytes (sw : Software) : List CChar := sw.link.val?.getD []

end Software

structure SoftwareList where
  items : Ptr (List Software)
  length : Nat

namespace SoftwareList

def zero : SoftwareList := ⟨none, 0⟩

/-- The items a loop up to `length` visits. -/
def visible (l : SoftwareList) : List Software := (l.items.val?.getD []).take l.length

end SoftwareList

/-! ## Exceptions -/

/-- What leaves a function other than by its return: the C++ exceptions met in the library, or
`abort`, which no catch clause stops. -/
inductive Raised where
  | invalidItemError
  | badAlloc
  | parseError
  | outOfRange
  | typeError
  | logicError
  | abort
  deriving DecidableEq, Repr

instance : Exhaustible Raised := ⟨.badAlloc⟩

end UpdateCheck
