import MtpxCore.PartialRecords

/-! Listing device folders and walking a subtree with them (`mtp/scan.rs`). The device is
a parameter: what it answers when a folder is listed. -/
namespace MtpxCore

structure ObjectHandle where
  value : ℕ
  deriving DecidableEq, Repr

/-- What the device says about one object. -/
structure ObjectInfo where
  handle : ObjectHandle
  filename : String
  folder : Bool
  size : ℕ
  modified : Option ModifiedTime
  deriving DecidableEq, Repr

/-- A listed object the device would not describe. -/
structure SkippedObject where
  handle : ObjectHandle
  error : MtpError
  deriving DecidableEq, Repr

structure Collection where
  objects : List ObjectInfo
  skipped : List SkippedObject
  deriving DecidableEq, Repr

/-- One storage of a device; `none` lists the storage root, whose own handle is `rootHandle`. -/
structure Storage where
  rootHandle : ObjectHandle
  collectObjects : Option ObjectHandle → Except MtpError Collection

/-- One folder's children with their paths, plus every object that could not be named. -/
structure Listing where
  children : List (RelPath × ObjectInfo)
  skipped : List SkippedEntry
  deriving DecidableEq, Repr

/-- Everything a walk learned. -/
structure Walked where
  entries : List Entry
  handles : List (RelPath × ObjectHandle)
  skipped : List SkippedEntry
  deriving DecidableEq, Repr

/-- Which names repeat an earlier one of the same folder. -/
def repeatedNames : List String → List ObjectInfo → List Bool
  | _, [] => []
  | seen, info :: rest => decide (info.filename ∈ seen) :: repeatedNames (info.filename :: seen) rest

def childPath (parent : RelPath) (info : ObjectInfo) (isRepeat : Bool) :
    Except SkipCause RelPath :=
  -- such a name would collide with the resume files of its base name
  if isReservedName info.filename then .error .reservedName
  else match parent.join info.filename with
    | .error reason => .error (.path reason)
    | .ok path => if isRepeat then .error .duplicateName else .ok path

/-- Files one object of a listing as a child or as skipped. -/
def Listing.file (parentPath : RelPath) (listing : Listing) (item : ObjectInfo × Bool) : Listing :=
  match childPath parentPath item.1 item.2 with
  | .ok path => { listing with children := listing.children ++ [(path, item.1)] }
  | .error reason => { listing with skipped := listing.skipped ++ [⟨parentPath, reason⟩] }

/-- Names every object under `parentPath`; the first object with a given name wins. -/
def classify (parentPath : RelPath) (objects : List ObjectInfo) : Listing :=
  (objects.zip (repeatedNames [] objects)).foldl (Listing.file parentPath) ⟨[], []⟩

/-- What a listing comes to under `parentPath`, once the device has answered. -/
def describe (parentPath : RelPath) : Except MtpError Collection → Except Error Listing
  | .error e => .error (.ofMtp e)
  | .ok collection =>
    let listing := classify parentPath collection.objects
    .ok { listing with
      skipped := listing.skipped ++
        collection.skipped.map (fun refused => ⟨parentPath, .refused refused.error⟩) }

def listFolder (storage : Storage) (parent : Option ObjectHandle) (parentPath : RelPath) :
    Except Error Listing :=
  describe parentPath (storage.collectObjects parent)

def entryFrom (path : RelPath) (info : ObjectInfo) : Entry :=
  if info.folder then Entry.dir path info.modified else Entry.file path info.size info.modified

/-- The state of a walk: what is recorded, the folders left to list (last pushed first) and
the folder handles seen. -/
structure WalkState where
  walked : Walked
  pending : List (RelPath × Option ObjectHandle)
  visited : List ObjectHandle
  deriving DecidableEq, Repr

namespace WalkState

/-- `Walked::record`. -/
def record (state : WalkState) (path : RelPath) (info : ObjectInfo) : WalkState :=
  { state with
    pending := if info.folder then (path, some info.handle) :: state.pending else state.pending
    walked := { state.walked with
      handles := state.walked.handles ++ [(path, info.handle)]
      entries := state.walked.entries ++ [entryFrom path info] } }

/-- `Walked::skip`. -/
def skip (state : WalkState) (parent : RelPath) : WalkState :=
  { state with
    walked := { state.walked with skipped := state.walked.skipped ++ [⟨parent, .listedTwice⟩] } }

/-- One child of a listed folder; a folder whose handle was seen before is left out. -/
def child (parent : RelPath) (state : WalkState) (item : RelPath × ObjectInfo) : WalkState :=
  if item.2.folder then
    if item.2.handle ∈ state.visited then state.skip parent
    else ({ state with visited := item.2.handle :: state.visited }).record item.1 item.2
  else state.record item.1 item.2

/-- The folder `path` with its listing. -/
def visit (state : WalkState) (path : RelPath) (listing : Listing) : WalkState :=
  listing.children.foldl (child path)
    { state with
      walked := { state.walked with skipped := state.walked.skipped ++ listing.skipped } }

def start (storage : Storage) (root : Option ObjectHandle) : WalkState :=
  ⟨⟨[], [], []⟩, [(RelPath.root, root)], [root.getD storage.rootHandle]⟩

end WalkState

/-- The loop of `walk`; `cancelled n` is what the token says when it is asked the `n`-th
time. Out of fuel it has no answer. -/
def walkLoop (storage : Storage) (cancelled : ℕ → Bool) :
    ℕ → ℕ → WalkState → Option (Except Error Walked)
  | 0, _, _ => none
  | fuel + 1, asked, state =>
    match state.pending with
    | [] => some (.ok state.walked)
    | (path, handle) :: pending =>
      if cancelled asked then some (.error .cancelled)
      else match listFolder storage handle path with
        | .error e => some (.error e)
        | .ok listing =>
          walkLoop storage cancelled fuel (asked + 1)
            (({ state with pending := pending }).visit path listing)

/-- Lists every folder beneath `root`, last pushed first. -/
def walk (storage : Storage) (root : Option ObjectHandle) (cancelled : ℕ → Bool) (fuel : ℕ) :
    Option (Except Error Walked) :=
  walkLoop storage cancelled fuel 0 (WalkState.start storage root)

end MtpxCore
