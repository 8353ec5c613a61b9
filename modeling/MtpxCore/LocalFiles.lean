import MtpxCore.CrashHoare
import MtpxCore.LocalScan

/-! The filesystem calls a transfer makes, on a local tree. Every call may fail, before or
after part of its effect, and the process may be killed in the middle of it; what the call
does to the tree is also told as an update of what each name leads to. -/
namespace MtpxCore

open CrashHoare

/-- A path as the volume compares it. -/
abbrev Key := List OsName

/-- What each name of the volume leads to. -/
abbrev Disk := Key → Option Obj

namespace LocalTree

variable (vol : Volume)

def disk (tree : LocalTree) : Disk := fun key =>
  (List.find? (fun node => decide (vol.foldPath node.path = key)) tree).map Node.obj

theorem get_eq_disk (tree : LocalTree) (path : List OsName) :
    tree.get vol path = tree.disk vol (vol.foldPath path) := rfl

/-- How a lookup of `path` ends that finds nothing: the walk down stops at the first name that
is no directory. Under a file the lookup is refused; under a dangling link nothing is found. -/
def lookupError (tree : LocalTree) (path : List OsName) : IoErrorKind :=
  (path.dropLast.inits.findSome? fun dir =>
    match tree.get vol dir with
    | some (.dir _) => none
    | some (.file _ _) | some .special => some .notADirectory
    | some .danglingLink | none => some .notFound).getD .notFound

/-- Puts `obj` under `path`. An existing object is replaced under the name it has; a new one
goes into the directory the volume finds, whatever that directory's spelling. -/
def put (tree : LocalTree) (path : List OsName) (obj : Obj) : Except IoErrorKind LocalTree :=
  match tree.find vol path with
  | some _ => .ok (tree.map fun node =>
      if vol.foldPath node.path = vol.foldPath path then { node with obj := obj } else node)
  | none =>
    match path.getLast? with
    | none => .ok (tree ++ [⟨[], obj⟩])
    | some name =>
      match tree.find vol path.dropLast with
      | some ⟨dir, .dir _⟩ => .ok (tree ++ [⟨dir ++ [name], obj⟩])
      | _ => .error (lookupError vol tree path)

def erase (tree : LocalTree) (path : List OsName) : LocalTree :=
  tree.filter (fun node => decide (vol.foldPath node.path ≠ vol.foldPath path))

variable {vol} {tree tree' : LocalTree} {path : List OsName} {obj : Obj}

theorem disk_put (h : tree.put vol path obj = .ok tree') :
    tree'.disk vol = Function.update (tree.disk vol) (vol.foldPath path) (some obj) := by
  have happend (node : Node) (hnone : tree.find vol path = none) (hobj : node.obj = obj)
      (hkey : vol.foldPath node.path = vol.foldPath path) :
      disk vol (tree ++ [node]) = Function.update (tree.disk vol) (vol.foldPath path) (some obj) := by
    funext key
    rw [disk, List.find?_append]
    by_cases hk : key = vol.foldPath path
    · subst hk
      rw [Function.update_self]
      change List.find? _ tree = none at hnone
      rw [hnone, Option.none_or, List.find?_singleton, if_pos (decide_eq_true hkey), Option.map_some,
        hobj]
    · rw [Function.update_of_ne hk, List.find?_singleton, if_neg, Option.or_none]
      · rfl
      · rw [hkey, decide_eq_true_eq]
        exact Ne.symm hk
  unfold put at h
  split at h
  · rename_i found hfound
    cases h
    funext key
    rw [disk, List.find?_map]
    have hcomp : ((fun node => decide (vol.foldPath node.path = key)) ∘ fun node : Node =>
        if vol.foldPath node.path = vol.foldPath path then { node with obj := obj } else node) =
          fun node => decide (vol.foldPath node.path = key) := by
      funext node
      simp only [Function.comp_apply]
      split <;> rfl
    rw [hcomp]
    by_cases hk : key = vol.foldPath path
    · subst hk
      have hpath := find_path hfound
      change List.find? _ tree = _ at hfound
      rw [Function.update_self, hfound, Option.map_some, Option.map_some, if_pos hpath]
    · rw [Function.update_of_ne hk, disk]
      cases hf : List.find? (fun node => decide (vol.foldPath node.path = key)) tree with
      | none => rfl
      | some node =>
        have hnode : vol.foldPath node.path = key := by simpa using List.find?_some hf
        rw [Option.map_some, Option.map_some, if_neg (by rw [hnode]; exact hk)]
        rfl
  · rename_i hnone
    split at h
    · rename_i hlast
      cases h
      apply happend _ hnone rfl
      rw [List.getLast?_eq_none_iff.mp hlast]
    · rename_i name hlast
      obtain ⟨dir, rfl⟩ := List.getLast?_eq_some_iff.mp hlast
      rw [List.dropLast_concat] at h
      split at h
      · rename_i stored readable hdir
        cases h
        apply happend _ hnone rfl
        -- the directory that was found compares equal to the one that was named
        have hstored := find_path hdir
        rw [Volume.foldPath, Volume.foldPath] at hstored ⊢
        rw [List.map_append, List.map_append, hstored]
      all_goals exact absurd h (by simp)

theorem disk_erase (tree : LocalTree) (path : List OsName) :
    (tree.erase vol path).disk vol = Function.update (tree.disk vol) (vol.foldPath path) none := by
  funext key
  rw [disk, erase, List.find?_filter]
  by_cases hk : key = vol.foldPath path
  · subst hk
    rw [Function.update_self, Option.map_eq_none_iff, List.find?_eq_none]
    intro node hm
    simp
  · rw [Function.update_of_ne hk, disk]
    congr 2
    funext node
    by_cases hn : vol.foldPath node.path = key
    · simp [hn, hk]
    · simp [hn]

end LocalTree

inductive Op where
  | stat
  | createDirs
  | create
  | «open»
  | fstat
  | setLen
  | seek
  | write
  | flush
  | writeFile
  | rename (src : List OsName)
  | remove
  | sync
  deriving DecidableEq, Repr

/-- One call, the path it was about, and how it ended. -/
structure Event where
  op : Op
  path : List OsName
  failure : Option IoErrorKind
  deriving DecidableEq, Repr

/-- Why a call fails that would have run. That nothing is there is never such a reason. -/
abbrev FaultKind := { kind : IoErrorKind // kind ≠ .notFound }

/-- What becomes of a call: it runs, it fails with part of its effect done, its failure is
only told by the next call on the file, or the process is killed with part of it done. -/
inductive Fault where
  | none
  | fail (kind : FaultKind) (done : ℕ)
  | late (kind : FaultKind) (done : ℕ)
  | die (done : ℕ)
  deriving DecidableEq, Repr

/-- What every call meets, by its number. -/
abbrev Weather := ℕ → Fault

/-- The local side of a run: the tree, the calls so far (latest first), and the failure of a
background write that the open file has not told yet. -/
structure World where
  tree : LocalTree
  trace : List Event
  pending : Option IoErrorKind
  deriving DecidableEq

namespace World

def fresh (tree : LocalTree) : World := ⟨tree, [], none⟩

def logged (w : World) (tree : LocalTree) (op : Op) (path : List OsName)
    (failure : Option IoErrorKind) : World :=
  { w with tree := tree, trace := ⟨op, path, failure⟩ :: w.trace }

end World

/-- A filesystem program. -/
abbrev Fs (α : Type) := CrashM World IoErrorKind α

section Calls

variable (vol : Volume) (env : Weather)

/-- A call that does `act`; cut short after `n` parts of its effect it leaves `torn n`. -/
def perform {α : Type} (op : Op) (path : List OsName)
    (act : LocalTree → Except IoErrorKind (α × LocalTree)) (torn : ℕ → LocalTree → LocalTree) :
    Fs α := fun w =>
  match env w.trace.length with
  | .die n => (.died, { w with tree := torn n w.tree })
  | .fail kind n => (.err kind, w.logged (torn n w.tree) op path (some kind))
  | _ =>
    match act w.tree with
    | .ok (a, tree) => (.ok a, w.logged tree op path none)
    | .error kind => (.err kind, w.logged w.tree op path (some kind))

/-- `Metadata` of an object: its kind and its length. -/
structure Metadata where
  isDir : Bool
  isFile : Bool
  len : ℕ
  deriving DecidableEq, Repr

def metadataOf : Obj → Metadata
  | .file bytes _ => ⟨false, true, bytes.length⟩
  | .dir _ => ⟨true, false, vol.dirLen⟩
  | _ => ⟨false, false, 0⟩

/-- `fs::metadata`: a dangling link leads nowhere. -/
def metadata (path : List OsName) : Fs Metadata :=
  perform env .stat path
    (fun tree => match tree.get vol path with
      | none => .error (tree.lookupError vol path)
      | some .danglingLink => .error .notFound
      | some obj => .ok (metadataOf vol obj, tree))
    (fun _ tree => tree)

/-- The folders from the root down to `dir` that are not there. -/
def missingDirs (tree : LocalTree) (dir : List OsName) : List (List OsName) :=
  dir.inits.filter (fun d => (tree.get vol d).isNone)

def addDirs (tree : LocalTree) : List (List OsName) → LocalTree
  | [] => tree
  | dir :: dirs =>
    match tree.put vol dir (.dir true) with
    | .ok tree => addDirs tree dirs
    | .error _ => tree

/-- How `create_dir_all` fails at the first name on the way that is there and no directory.
That name is tried in its turn, unless it is a file with more names under it. -/
def blockedError (tree : LocalTree) (dir : List OsName) : IoErrorKind :=
  (dir.inits.findSome? fun d =>
    match tree.get vol d with
    | none | some (.dir _) => none
    | some .danglingLink => some .alreadyExists
    | some _ => some (if d = dir then .alreadyExists else .notADirectory)).getD .alreadyExists

/-- `fs::create_dir_all`. -/
def createDirAll (dir : List OsName) : Fs Unit :=
  perform env .createDirs dir
    (fun tree =>
      if dir.inits.all (fun d => (tree.get vol d).all Obj.isDir) then
        .ok ((), addDirs vol tree (missingDirs vol tree dir))
      else .error (blockedError vol tree dir))
    (fun n tree =>
      if dir.inits.all (fun d => (tree.get vol d).all Obj.isDir) then
        addDirs vol tree ((missingDirs vol tree dir).take n)
      else tree)

/-- `fs::remove_file`: it removes a link itself, and no directory. -/
def removeFile (path : List OsName) : Fs Unit :=
  perform env .remove path
    (fun tree => match tree.get vol path with
      | none => .error (tree.lookupError vol path)
      | some (.dir _) => .error .isADirectory
      | some _ => .ok ((), tree.erase vol path))
    (fun _ tree => tree)

/-- Opens `path` for writing, created or cut to nothing, with `bytes` in it. Special files
are refused. A dangling link is not followed: the file takes the place of the link, where
the real call creates the file the link names, outside the tree. -/
def createWith (path : List OsName) (bytes : Bytes) (tree : LocalTree) :
    Except IoErrorKind LocalTree :=
  match tree.get vol path with
  | some (.dir _) => .error .isADirectory
  | some .special => .error .other
  | some (.file _ readable) => tree.put vol path (.file bytes readable)
  | _ => tree.put vol path (.file bytes true)

/-- An open file: its path and where the next byte goes. One file is open at a time, and no
name is changed under it. -/
structure File where
  path : List OsName
  pos : ℕ
  deriving DecidableEq, Repr

/-- `File::create`. -/
def createFile (path : List OsName) : Fs File := fun w =>
  perform env .create path
    (fun tree => (createWith vol path [] tree).map (fun tree => (⟨path, 0⟩, tree)))
    (fun _ tree => tree) { w with pending := none }

/-- `OpenOptions::new().write(true).open`. -/
def openWrite (path : List OsName) : Fs File := fun w =>
  perform env .open path
    (fun tree => match tree.get vol path with
      | some (.file _ _) => .ok (⟨path, 0⟩, tree)
      | some (.dir _) => .error .isADirectory
      | some .special => .error .other
      | some .danglingLink => .error .notFound
      | none => .error (tree.lookupError vol path))
    (fun _ tree => tree) { w with pending := none }

/-- What the open file holds. -/
def contents (tree : LocalTree) (file : File) : Bytes :=
  match tree.get vol file.path with
  | some (.file bytes _) => bytes
  | _ => []

/-- The same tree with other contents in the open file. -/
def setContents (tree : LocalTree) (file : File) (bytes : Bytes) : LocalTree :=
  match tree.get vol file.path with
  | some (.file _ readable) =>
    match tree.put vol file.path (.file bytes readable) with
    | .ok tree => tree
    | .error _ => tree
  | _ => tree

/-- `File::metadata`, of its length. -/
def fileLen (file : File) : Fs ℕ :=
  perform env .fstat file.path (fun tree => .ok ((contents vol tree file).length, tree))
    (fun _ tree => tree)

/-- `File::set_len`; a file that grows is filled with zeros. -/
def setLen (file : File) (len : ℕ) : Fs Unit :=
  perform env .setLen file.path
    (fun tree => .ok ((), setContents vol tree file
      ((contents vol tree file).take len ++
        List.replicate (len - (contents vol tree file).length) 0)))
    (fun _ tree => tree)

/-- `File::seek` from the start. -/
def seek (file : File) (pos : ℕ) : Fs File :=
  perform env .seek file.path (fun tree => .ok ({ file with pos := pos }, tree))
    (fun _ tree => tree)

/-- `chunk` over what stood at `pos`; a gap before it is filled with zeros. -/
def overwrite (bytes : Bytes) (pos : ℕ) (chunk : Bytes) : Bytes :=
  bytes.take pos ++ List.replicate (pos - bytes.length) 0 ++ chunk ++ bytes.drop (pos + chunk.length)

def landChunk (tree : LocalTree) (file : File) (chunk : Bytes) : LocalTree :=
  setContents vol tree file (overwrite (contents vol tree file) file.pos chunk)

/-- `write_all` on the buffered file: the bytes go out in the background, and a failure may
only be told by the next call. -/
def writeAll (file : File) (chunk : Bytes) : Fs File := fun w =>
  match w.pending with
  | some kind => (.err kind, { w.logged w.tree .write file.path (some kind) with pending := none })
  | none =>
    match env w.trace.length with
    | .late kind n =>
      (.ok { file with pos := file.pos + chunk.length },
        { w.logged (landChunk vol w.tree file (chunk.take n)) .write file.path none with
          pending := some kind })
    | _ =>
      perform env .write file.path
        (fun tree => .ok ({ file with pos := file.pos + chunk.length }, landChunk vol tree file chunk))
        (fun n tree => landChunk vol tree file (chunk.take n)) w

/-- `flush`: waits for what is under way and tells how it went. -/
def flush (file : File) : Fs Unit := fun w =>
  match w.pending with
  | some kind => (.err kind, { w.logged w.tree .flush file.path (some kind) with pending := none })
  | none => perform env .flush file.path (fun tree => .ok ((), tree)) (fun _ tree => tree) w

/-- `fs::write`. -/
def writeFile (path : List OsName) (bytes : Bytes) : Fs Unit :=
  perform env .writeFile path (fun tree => (createWith vol path bytes tree).map (fun tree => ((), tree)))
    (fun n tree => match n with
      | 0 => tree
      | n + 1 => ((createWith vol path (bytes.take n) tree).toOption).getD tree)

/-- `fs::rename` of a file over anything but a directory. -/
def renameTo (src dst : List OsName) (tree : LocalTree) : Except IoErrorKind LocalTree :=
  match tree.get vol src, tree.get vol dst with
  | none, _ => .error (tree.lookupError vol src)
  | some (.dir _), _ => .error .other
  | some _, some (.dir _) => .error .isADirectory
  | some obj, _ => ((tree.erase vol src).erase vol dst).put vol dst obj

def rename (src dst : List OsName) : Fs Unit :=
  perform env (.rename src) dst
    (fun tree => (renameTo vol src dst tree).map (fun tree => ((), tree))) (fun _ tree => tree)

/-- `File::sync_all`; the time stamp set before it is best-effort and not modelled. -/
def syncAll (file : File) : Fs Unit :=
  perform env .sync file.path (fun tree => .ok ((), tree)) (fun _ tree => tree)

end Calls

section PerformSpec

variable {env : Weather} {α : Type} {op : Op} {path : List OsName}
  {act : LocalTree → Except IoErrorKind (α × LocalTree)} {torn : ℕ → LocalTree → LocalTree}
  {P : World → Prop} {Q : Post World IoErrorKind α}

/-- The four ends of a call: it runs, it cannot, it is made to fail, it is killed. -/
theorem perform_triple
    (hok : ∀ w a tree, P w → act w.tree = .ok (a, tree) → Q.ok a (w.logged tree op path none))
    (herr : ∀ w kind, P w → act w.tree = .error kind →
      Q.err kind (w.logged w.tree op path (some kind)))
    (hfail : ∀ w kind n, P w → env w.trace.length = .fail kind n →
      Q.err kind (w.logged (torn n w.tree) op path (some kind)))
    (hdie : ∀ w n, P w → Q.died { w with tree := torn n w.tree }) :
    Triple P (perform env op path act torn) Q := by
  intro w hw
  have hrun : Q.Meets (match act w.tree with
      | .ok (a, tree) => (.ok a, w.logged tree op path none)
      | .error kind => (.err kind, w.logged w.tree op path (some kind))) := by
    cases hact : act w.tree with
    | ok r => exact hok w r.1 r.2 hw hact
    | error kind => exact herr w kind hw hact
  unfold perform
  cases henv : env w.trace.length with
  | none => exact hrun
  | late kind n => exact hrun
  | fail kind n => exact hfail w kind n hw henv
  | die n => exact hdie w n hw

/-- What depends on the tree alone survives a call that only looks. -/
theorem perform_reads {R : LocalTree → Prop} (hact : ∀ tree a tree', act tree = .ok (a, tree') →
      tree' = tree) (htorn : ∀ n tree, torn n tree = tree) :
    Triple (fun w => R w.tree) (perform env op path act torn)
      ⟨fun a w => R w.tree ∧ act w.tree = .ok (a, w.tree), fun _ w => R w.tree, fun w => R w.tree⟩ := by
  apply perform_triple
  · intro w a tree hw ha
    cases hact _ _ _ ha
    exact ⟨hw, ha⟩
  · intro w kind hw ha
    exact hw
  · intro w kind n hw _
    rw [htorn]
    exact hw
  · intro w n hw
    rw [htorn]
    exact hw

end PerformSpec

end MtpxCore
