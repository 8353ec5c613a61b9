import MtpxCore.RelativePath

/-! The errors a transfer can end with: what the MTP library answers, what the local
filesystem answers, and the crate's own error type that lifts the former. -/
namespace MtpxCore

/-- An error of the MTP library; `other` stands for the ones no caller tells apart. -/
inductive MtpError where
  | staleHandle
  | disconnected
  | cancelled
  | noDevice
  | exclusiveAccess
  | permissionDenied
  | deviceReset
  | other (text : String)
  deriving DecidableEq, Repr

def MtpError.isStaleHandle : MtpError → Bool
  | .staleHandle => true
  | _ => false

/-- The kinds of filesystem error the code tells apart. -/
inductive IoErrorKind where
  | notFound
  | alreadyExists
  | isADirectory
  | notADirectory
  | invalidData
  | storageFull
  | readOnlyFilesystem
  | brokenPipe
  | other
  deriving DecidableEq, Repr

/-- The crate's error type, as far as transfers raise it. A local path is given relative to
the local root, by its names. -/
inductive Error where
  | conflicts (paths : List RelPath)
  | sourceVanished (path : RelPath)
  | lengthMismatch (path : RelPath) (expected actual : ℕ)
  | disconnected
  | cancelled
  | noDevice
  | exclusiveAccess
  | permissionDenied
  | unsupported (what : String)
  | invalidPath (reason : PathError)
  | remotePathNotFound
  | remotePathUndescribed (skipped : ℕ)
  | notADirectory
  | localNotADirectory
  | mtp (e : MtpError)
  | localIo (op : String) (path : List String) (kind : IoErrorKind)
  | io (kind : IoErrorKind)
  deriving DecidableEq, Repr

namespace Error

/-- `From<MtpError>`: the variants callers react to become the crate's own. -/
def ofMtp : MtpError → Error
  | .disconnected => .disconnected
  | .cancelled => .cancelled
  | .noDevice => .noDevice
  | .exclusiveAccess => .exclusiveAccess
  | .permissionDenied => .permissionDenied
  | e => .mtp e

/-- Whether the device re-keyed the object behind a cached handle. -/
def isStaleHandle : Error → Bool
  | .mtp e => e.isStaleHandle
  | _ => false

/-- Lifting keeps staleness, the one property recovery looks at. -/
theorem isStaleHandle_ofMtp (e : MtpError) : (ofMtp e).isStaleHandle = e.isStaleHandle := by
  cases e <;> rfl

end Error

/-- Why an object was left out of a listing. -/
inductive SkipCause where
  | reservedName
  | duplicateName
  | listedTwice
  | path (reason : PathError)
  | refused (e : MtpError)
  | unreadable
  deriving DecidableEq, Repr

def DUPLICATE_NAME : String := "duplicate name in folder"

def RESERVED_NAME : String := "name ends with a suffix mtpx reserves for transfers in progress"

def LISTED_TWICE : String := "folder listed twice"

/-- The reported reason, where the code fixes its text. -/
def SkipCause.text : SkipCause → Option String
  | .reservedName => some RESERVED_NAME
  | .duplicateName => some DUPLICATE_NAME
  | .listedTwice => some LISTED_TWICE
  | _ => none

end MtpxCore
