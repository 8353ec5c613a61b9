import MtpxCore.LocalTree

/-! The local scan (`local/scan.rs`): the walk of a tree, what it lists, which partial
downloads it vouches for, and the shortcut that looks at one file only. -/
namespace MtpxCore

/-- What the directory walk yields: an object, or a place it could not read. -/
inductive WalkItem where
  | entry (node : Node)
  | unreadable (path : List OsName)
  deriving DecidableEq, Repr

def segmentOf (name : OsName) : Except PathError String :=
  match name.toStr with
  | some text => .ok text
  | none => .error (.invalidSegment name.lossy)

def segmentsOf : List OsName → Except PathError (List String)
  | [] => .ok []
  | name :: rest =>
    match segmentOf name with
    | .error e => .error e
    | .ok segment =>
      match segmentsOf rest with
      | .error e => .error e
      | .ok segments => .ok (segment :: segments)

/-- `Walker::relative`. -/
def relative (path : List OsName) : Except PathError RelPath :=
  match segmentsOf path with
  | .error e => .error e
  | .ok segments => RelPath.new segments

/-- Every folder above `path` can be listed, and none but the root was skipped for its name. -/
def reached (tree : LocalTree) (path : List OsName) : Bool :=
  (List.range path.length).all fun n =>
    decide (Node.mk (path.take n) (.dir true) ∈ tree) &&
      (decide (n = 0) || (relative (path.take n)).isOk)

/-- The walk of a tree beneath its root, to `maxDepth` if given. A dangling link gives an
error; a directory that cannot be listed gives itself and then an error. -/
def walkItems (tree : LocalTree) (maxDepth : Option ℕ) : List WalkItem :=
  (if decide (Node.mk [] (.dir false) ∈ tree) then [.unreadable []] else []) ++
    (tree.filter (fun node => decide (node.path ≠ []) &&
        maxDepth.all (fun depth => decide (node.path.length ≤ depth)) &&
        reached tree node.path)).flatMap fun node =>
      match node.obj with
      | .danglingLink => [.unreadable node.path]
      | .dir false =>
        if maxDepth.any (fun depth => decide (node.path.length = depth)) then [.entry node]
        else [.entry node, .unreadable node.path]
      | _ => [.entry node]

/-- The name an item is listed under, as text. -/
def Node.name (node : Node) : String := (node.path.getLast?.map OsName.lossy).getD ""

/-- `str::strip_prefix`. -/
def stripPrefix (name pre : String) : Option String :=
  if pre.toList.isPrefixOf name.toList then
    some (String.ofList (name.toList.drop pre.toList.length))
  else none

/-- In single-file mode only the file itself and its resume files matter. -/
def wanted (only : Option String) (node : Node) : Bool :=
  match only with
  | none => true
  | some name => (stripPrefix node.name name).any
      (fun rest => decide (rest = "") || decide (rest ∈ RESERVED_SUFFIXES))

/-- Only files and directories are described. -/
def kindOf : Obj → Option EntryKind
  | .dir _ => some .dir
  | .file _ _ => some .file
  | _ => none

/-- `Walker::record`; the modification time of a local object is not modelled. -/
def localEntry (path : RelPath) (obj : Obj) : Option Entry :=
  match kindOf obj with
  | some .dir => some (Entry.dir path none)
  | some .file => some (Entry.file path obj.len none)
  | none => none

/-- The final path a sidecar's own path stands for. -/
def finalPathOf (sidecar : List OsName) : Option (List OsName) :=
  match sidecar.getLast? with
  | some (.utf8 name) =>
    if endsWith name SIDECAR_SUFFIX then
      let stem := String.ofList (name.toList.take (name.toList.length - SIDECAR_SUFFIX.length))
      if stem = "" then none else some (sidecar.dropLast ++ [.utf8 stem])
    else none
  | _ => none

/-- `with_suffix` on a path of the volume. -/
def osWithSuffix (path : List OsName) (suffix : String) : List OsName :=
  match path.getLast? with
  | none => []
  | some (.utf8 name) => path.dropLast ++ [.utf8 (name ++ suffix)]
  | some (.raw lossy bytes) =>
    path.dropLast ++ [.raw (lossy ++ suffix) (bytes ++ suffix.toUTF8.toList)]

section Scan

variable (vol : Volume) (codec : SidecarCodec) (tree : LocalTree)

/-- `None` when absent, oversized or unparsable. -/
def readSidecar (finalPath : List OsName) : Except Error (Option Sidecar) :=
  match tree.get vol (osWithSuffix finalPath SIDECAR_SUFFIX) with
  | none => .ok none
  | some .danglingLink => .ok none
  | some (.file bytes true) =>
    if bytes.length > MAX_SIDECAR_BYTES then .ok none else .ok (codec.decode bytes)
  | some _ =>
    .error (.localIo "read sidecar" ((osWithSuffix finalPath SIDECAR_SUFFIX).map OsName.lossy) .other)

/-- The length of a regular file at `part`; anything else there means no part. -/
def partLen (part : List OsName) : Option ℕ :=
  match tree.get vol part with
  | some (.file bytes _) => some bytes.length
  | _ => none

/-- The sidecar and the length of the part it describes, when both exist on disk. -/
def loadPartial (sidecar : List OsName) : Except Error (Option (List OsName × Sidecar × ℕ)) :=
  match finalPathOf sidecar with
  | none => .ok none
  | some finalPath =>
    match readSidecar vol codec tree finalPath with
    | .error e => .error e
    | .ok none => .ok none
    | .ok (some record) =>
      match partLen vol tree (osWithSuffix finalPath PART_SUFFIX) with
      | none => .ok none
      | some len => .ok (some (finalPath, record, len))

/-- The partial a sidecar describes, unless anything about it fails to line up. -/
def collectPartial (peer : Identity) (sidecar : List OsName) :
    Except Error (Option (RelPath × PartialInfo)) :=
  match loadPartial vol codec tree sidecar with
  | .error e => .error e
  | .ok none => .ok none
  | .ok (some (finalPath, record, len)) =>
    match relative finalPath with
    | .error _ => .ok none
    | .ok path =>
      if record.isValidFor peer len && decide (record.path = path.display) then
        .ok (some (path, ⟨record.fingerprint, record.bytes⟩))
      else .ok none

/-- What the tree holds, accumulated as the walk goes. -/
structure Found where
  entries : List Entry
  partials : Partials
  skipped : List SkippedEntry

/-- One listed object. -/
def visit (peer : Identity) (node : Node) (found : Found) : Except Error Found :=
  if node.obj.isFile && isReservedName node.name then
    if endsWith node.name SIDECAR_SUFFIX then
      match collectPartial vol codec tree peer node.path with
      | .error e => .error e
      | .ok none => .ok found
      | .ok (some (path, info)) => .ok { found with partials := found.partials.insert path info }
    else .ok found
  else match relative node.path with
    | .error reason =>
      .ok { found with skipped := found.skipped ++
        [⟨((relative node.path.dropLast).toOption).getD RelPath.root, .path reason⟩] }
    | .ok path => .ok { found with entries := found.entries ++ (localEntry path node.obj).toList }

/-- The loop of `Walker::walk`; `cancelled n` is what the token says at the `n`-th item. -/
def walkFrom (peer : Identity) (only : Option String) (cancelled : ℕ → Bool) :
    ℕ → List WalkItem → Found → Except Error Found
  | _, [], found => .ok found
  | asked, item :: items, found =>
    if cancelled asked then .error .cancelled
    else match item with
      | .unreadable path =>
        walkFrom peer only cancelled (asked + 1) items
          { found with skipped := found.skipped ++
            [⟨((relative path.dropLast).toOption).getD RelPath.root, .unreadable⟩] }
      | .entry node =>
        if !wanted only node then walkFrom peer only cancelled (asked + 1) items found
        else match visit vol codec tree peer node found with
          | .error e => .error e
          | .ok found => walkFrom peer only cancelled (asked + 1) items found

/-- One side's full listing plus the partial downloads found there. -/
structure ScanResult where
  snapshot : Snapshot
  partials : Partials
  folding : NameFolding

/-- A missing root is an empty destination; a root that is no directory is an error. -/
def rootIsPresent : Except Error Bool :=
  match tree.get vol [] with
  | none => .ok false
  | some .danglingLink => .ok false
  | some (.dir _) => .ok true
  | some _ => .error .localNotADirectory

/-- `Walker::run`; `detected` is how the volume was found to compare names. -/
def scanLocal (label : String) (detected : NameFolding) (peer : Identity) (only : Option String)
    (cancelled : ℕ → Bool) : Except Error ScanResult :=
  match rootIsPresent vol tree with
  | .error e => .error e
  | .ok present =>
    let items := if present then walkItems tree (only.map (fun _ => 1)) else []
    match walkFrom vol codec tree peer only cancelled 0 items ⟨[], [], []⟩ with
    | .error e => .error e
    | .ok found =>
      if cancelled items.length then .error .cancelled
      else .ok ⟨Snapshot.new label found.entries found.skipped, found.partials, detected⟩

end Scan

end MtpxCore
