import MtpxCore.DeviceScan

/-! Finding the object a remote path names (`mtp/open.rs`), one folder for each segment from
the storage root down. -/
namespace MtpxCore

/-- What a streamed listing yields. -/
inductive ListingItem where
  | object (info : ObjectInfo)
  | skipped (object : SkippedObject)
  deriving DecidableEq, Repr

/-- How a device streams a folder's objects; `none` is the storage root. -/
abbrev ObjectStream := Option ObjectHandle → Except MtpError (List (Except MtpError ListingItem))

/-- Where a root lives: the folder to list under, and the file itself when it is one. -/
structure Target where
  folder : Option ObjectHandle
  file : Option ObjectInfo
  deriving DecidableEq, Repr

/-- A folder is the root itself, anything else a file inside `parent`. -/
def Target.found (parent : Option ObjectHandle) (info : ObjectInfo) : Target :=
  if info.folder then ⟨some info.handle, none⟩ else ⟨parent, some info⟩

def notFound (skipped : ℕ) : Error :=
  if skipped = 0 then .remotePathNotFound else .remotePathUndescribed skipped

/-- The loop of `find_child`: the first object with the name wins. -/
def pickChild (name : String) : ℕ → List (Except MtpError ListingItem) → Except Error ObjectInfo
  | skipped, [] => .error (notFound skipped)
  | _, .error e :: _ => .error (.ofMtp e)
  | skipped, .ok (.object info) :: items =>
    if info.filename = name then .ok info else pickChild name skipped items
  | skipped, .ok (.skipped _) :: items => pickChild name (skipped + 1) items

section Locate

variable (stream : ObjectStream)

def findChild (parent : Option ObjectHandle) (name : String) : Except Error ObjectInfo :=
  match stream parent with
  | .error e => .error (.ofMtp e)
  | .ok items => pickChild name 0 items

/-- The folders of a path; a file among them is an error. -/
def locateFolders : Option ObjectHandle → List String → Except Error (Option ObjectHandle)
  | folder, [] => .ok folder
  | folder, segment :: segments =>
    match findChild stream folder segment with
    | .error e => .error e
    | .ok info =>
      if info.folder then locateFolders (some info.handle) segments else .error .notADirectory

def locateRoot (root : RemotePath) : Except Error Target :=
  match root.rel.segments.getLast? with
  | none => .ok ⟨none, none⟩
  | some last =>
    match locateFolders stream none root.rel.segments.dropLast with
    | .error e => .error e
    | .ok folder =>
      match findChild stream folder last with
      | .error e => .error e
      | .ok info => .ok (Target.found folder info)

end Locate

/-- A child that is found is one of the stream's objects, and has the name. -/
theorem pickChild_ok {name : String} {skipped : ℕ} {items : List (Except MtpError ListingItem)}
    {info : ObjectInfo} (h : pickChild name skipped items = .ok info) :
    .ok (.object info) ∈ items ∧ info.filename = name := by
  induction items generalizing skipped with
  | nil => exact absurd h (by simp [pickChild])
  | cons item items ih =>
    match item, h with
    | .error e, h => exact absurd h (by simp [pickChild])
    | .ok (.object i), h =>
      rw [pickChild] at h
      split at h
      · rename_i hname
        obtain rfl := Except.ok.inj h
        exact ⟨List.mem_cons_self, hname⟩
      · exact ⟨List.mem_cons_of_mem _ (ih h).1, (ih h).2⟩
    | .ok (.skipped o), h =>
      rw [pickChild] at h
      exact ⟨List.mem_cons_of_mem _ (ih h).1, (ih h).2⟩

theorem findChild_ok {stream : ObjectStream} {parent : Option ObjectHandle} {name : String}
    {info : ObjectInfo} (h : findChild stream parent name = .ok info) :
    ∃ items, stream parent = .ok items ∧ .ok (.object info) ∈ items ∧ info.filename = name := by
  rw [findChild] at h
  split at h
  · exact absurd h (by simp)
  · rename_i items hitems
    exact ⟨items, hitems, pickChild_ok h⟩

end MtpxCore
