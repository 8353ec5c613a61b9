import MtpxCore.LocalFiles

/-! The resumable write of `local/mod.rs` and the record keeping of `partial.rs`, step by step
over the filesystem calls. -/
namespace MtpxCore

open CrashHoare

/-- Everything a destination needs to receive one file. -/
structure WriteRequest where
  path : RelPath
  expectedSize : ℕ
  resumeFrom : ℕ
  modified : Option ModifiedTime
  deriving DecidableEq, Repr

/-- A stream of file bytes; what follows an error is never read. -/
abbrev ByteStream := List (Except Error Bytes)

/-- A local program, as the transfer code runs it. -/
abbrev Local (α : Type) := CrashM World Error α

/-- `Error::local_io`. -/
def localIo (op : String) (path : List OsName) (kind : IoErrorKind) : Error :=
  .localIo op (path.map OsName.lossy) kind

def localPartPath (finalPath : List OsName) : List OsName := osWithSuffix finalPath PART_SUFFIX

def localSidecarPath (finalPath : List OsName) : List OsName :=
  osWithSuffix finalPath SIDECAR_SUFFIX

def localSidecarTmpPath (finalPath : List OsName) : List OsName :=
  osWithSuffix finalPath SIDECAR_TMP_SUFFIX

/-- Bytes a part may grow between two records. -/
def CHECKPOINT_BYTES : ℕ := 64 * 1024 * 1024

def sidecarFor (peer : Identity) (request : WriteRequest) : Sidecar :=
  Sidecar.new peer request.path ⟨request.expectedSize, request.modified⟩ request.resumeFrom

section Records

variable (vol : Volume) (env : Weather) (codec : SidecarCodec)

def removeIfPresent (path : List OsName) : Local Unit := do
  match ← CrashM.attempt (removeFile vol env path) with
  | .ok () => pure ()
  | .error .notFound => pure ()
  | .error kind => CrashM.fail (localIo "remove" path kind)

def removeSidecar (finalPath : List OsName) : Local Unit := do
  removeIfPresent vol env (localSidecarTmpPath finalPath)
  removeIfPresent vol env (localSidecarPath finalPath)

def removePartial (finalPath : List OsName) : Local Unit := do
  removeIfPresent vol env (localPartPath finalPath)
  removeSidecar vol env finalPath

/-- The record is written aside and renamed over the old one. -/
def writeSidecar (finalPath : List OsName) (sidecar : Sidecar) : Local Unit := do
  CrashM.mapError (localIo "write sidecar" (localSidecarTmpPath finalPath))
    (writeFile vol env (localSidecarTmpPath finalPath) (codec.encode sidecar))
  CrashM.mapError (localIo "rename sidecar" (localSidecarTmpPath finalPath))
    (rename vol env (localSidecarTmpPath finalPath) (localSidecarPath finalPath))

/-- A directory at the final path can never be replaced by a file. -/
def refuseDirectory (finalPath : List OsName) : Local Unit := do
  match ← CrashM.attempt (metadata vol env finalPath) with
  | .ok m => if m.isDir then CrashM.fail (localIo "write" finalPath .isADirectory) else pure ()
  | .error .notFound => pure ()
  | .error kind => CrashM.fail (localIo "stat" finalPath kind)

def ensureParent (finalPath : List OsName) : Local Unit :=
  CrashM.mapError (localIo "create directory" finalPath.dropLast)
    (createDirAll vol env finalPath.dropLast)

/-- A part shorter than the planned offset restarts from zero. -/
def effectiveResume (part : List OsName) (requested : ℕ) : Local ℕ :=
  if requested = 0 then pure 0
  else do
    match ← CrashM.attempt (metadata vol env part) with
    | .ok m => pure (if requested ≤ m.len then requested else 0)
    | .error .notFound => pure (if requested ≤ 0 then requested else 0)
    | .error kind => CrashM.fail (localIo "stat" part kind)

def ensureStillHolds (file : File) (part : List OsName) (resumeFrom : ℕ) : Local Unit := do
  let len ← CrashM.mapError (localIo "stat" part) (fileLen vol env file)
  if resumeFrom ≤ len then pure () else CrashM.fail (localIo "open" part .invalidData)

/-- Opens an existing part positioned at `resumeFrom`; a tail past it is dropped. -/
def openResumed (part : List OsName) (resumeFrom : ℕ) : Local File := do
  let file ← CrashM.mapError (localIo "open" part) (openWrite vol env part)
  ensureStillHolds vol env file part resumeFrom
  CrashM.mapError (localIo "truncate" part) (setLen vol env file resumeFrom)
  CrashM.mapError (localIo "seek" part) (seek env file resumeFrom)

def openPart (part : List OsName) (resumeFrom : ℕ) : Local File :=
  if resumeFrom = 0 then CrashM.mapError (localIo "open" part) (createFile vol env part)
  else openResumed vol env part resumeFrom

/-- Drops the part and its record; a failure to do so is only logged. -/
def discardPartial (finalPath : List OsName) (error : Error) : Local Unit := do
  let _ : Except Error Unit ← CrashM.attempt (removePartial vol env finalPath)
  CrashM.fail error

/-- Writes the record; a failure to do so is only logged. -/
def keepPartial (finalPath : List OsName) (sidecar : Sidecar) (error : Error) : Local Unit := do
  let _ : Except Error Unit ← CrashM.attempt (writeSidecar vol env codec finalPath sidecar)
  CrashM.fail error

def commit (file : File) (part finalPath : List OsName) : Local Unit := do
  CrashM.mapError (localIo "sync" part) (syncAll env file)
  CrashM.mapError (localIo "rename" part) (rename vol env part finalPath)
  let _ : Except Error Unit ← CrashM.attempt (removeSidecar vol env finalPath)
  pure ()

end Records

/-- A part file open for appending, with the record that describes it if the write stops
early. `resumable` is false when the offset was reset after the source stream was opened at
the planned one. -/
structure PartWriter where
  file : File
  part : List OsName
  finalPath : List OsName
  sidecar : Sidecar
  resumable : Bool
  checkpointed : ℕ
  deriving DecidableEq, Repr

namespace PartWriter

variable (vol : Volume) (env : Weather) (codec : SidecarCodec)

def «open» (finalPath : List OsName) (sidecar : Sidecar) : Local PartWriter := do
  ensureParent vol env finalPath
  let part := localPartPath finalPath
  let planned := sidecar.bytes
  let bytes ← effectiveResume vol env part planned
  let resumable := decide (bytes = planned)
  -- the old record must go before the part regrows past its count
  if !resumable then removeSidecar vol env finalPath
  let file ← openPart vol env part bytes
  pure ⟨file, part, finalPath, { sidecar with bytes := bytes }, resumable, bytes⟩

/-- The writer with the outcome of a step that may fail; its counts survive the failure. -/
abbrev Step := Local (PartWriter × Except Error Unit)

def flush (writer : PartWriter) : Local (Except Error Unit) :=
  CrashM.attempt (CrashM.mapError (localIo "write" writer.part) (MtpxCore.flush env writer.file))

def checkpoint (writer : PartWriter) : Step := do
  match ← writer.flush env with
  | .error e => pure (writer, .error e)
  | .ok () =>
    match ← CrashM.attempt (writeSidecar vol env codec writer.finalPath writer.sidecar) with
    | .error e => pure (writer, .error e)
    | .ok () => pure ({ writer with checkpointed := writer.sidecar.bytes }, .ok ())

def countChunk (writer : PartWriter) (file : File) (chunk : Bytes) : PartWriter :=
  { writer with
    file := file
    sidecar := { writer.sidecar with bytes := writer.sidecar.bytes + chunk.length } }

def isDue (writer : PartWriter) : Bool :=
  writer.resumable && decide (CHECKPOINT_BYTES ≤ writer.sidecar.bytes - writer.checkpointed)

def copyChunks (writer : PartWriter) : ByteStream → Step
  | [] => pure (writer, .ok ())
  | .error e :: _ => pure (writer, .error e)
  | .ok chunk :: input => do
    match ← CrashM.attempt (CrashM.mapError (localIo "write" writer.part)
        (writeAll vol env writer.file chunk)) with
    | .error e => pure (writer, .error e)
    | .ok file =>
      let writer := writer.countChunk file chunk
      if writer.isDue then
        match ← writer.checkpoint vol env codec with
        | (writer, .error e) => pure (writer, .error e)
        | (writer, .ok ()) => copyChunks writer input
      else copyChunks writer input

/-- The bytes counted, or those on disk where they are fewer. -/
def landed (writer : PartWriter) : Local ℕ := do
  match ← CrashM.attempt (fileLen vol env writer.file) with
  | .ok len => pure (min writer.sidecar.bytes len)
  | .error (_ : IoErrorKind) => pure writer.sidecar.bytes

/-- Flushes even after a failed chunk, then trusts the disk over the counter. -/
def pump (writer : PartWriter) (input : ByteStream) : Step := do
  let (writer, copied) ← writer.copyChunks vol env codec input
  let flushed ← writer.flush env
  let bytes ← writer.landed vol env
  pure ({ writer with sidecar := { writer.sidecar with bytes := bytes } },
    match copied with
    | .ok () => flushed
    | .error e => .error e)

def expectLength (writer : PartWriter) (request : WriteRequest) : Except Error Unit :=
  if writer.sidecar.bytes = request.expectedSize then .ok ()
  else .error (.lengthMismatch request.path request.expectedSize writer.sidecar.bytes)

/-- Keeps whatever lets the next run resume, or nothing when the bytes were a stale tail. -/
def stop (writer : PartWriter) (error : Error) : Local Unit :=
  if writer.resumable then keepPartial vol env codec writer.finalPath writer.sidecar error
  else discardPartial vol env writer.finalPath error

/-- Every byte is on disk, so a failure while committing keeps the full part. -/
def finish (writer : PartWriter) : Local Unit := do
  match ← CrashM.attempt (commit vol env writer.file writer.part writer.finalPath) with
  | .ok () => pure ()
  | .error e => keepPartial vol env codec writer.finalPath writer.sidecar e

/-- The part of a write that comes after the part was opened. -/
def transfer (writer : PartWriter) (request : WriteRequest) (input : ByteStream) : Local Unit := do
  let (writer, pumped) ← writer.pump vol env codec input
  match pumped with
  | .error e => writer.stop vol env codec e
  | .ok () =>
    match writer.expectLength request with
    | .error e => writer.stop vol env codec e
    | .ok () => writer.finish vol env codec

end PartWriter

namespace LocalEndpoint

variable (vol : Volume) (env : Weather) (codec : SidecarCodec) (peer : Identity)

def resumeOffset (path : RelPath) (requested : ℕ) : Local ℕ :=
  effectiveResume vol env (localPartPath path.toLocalPath) requested

/-- The part of a write that comes before any byte of the stream is read. -/
def prepare (request : WriteRequest) : Local PartWriter := do
  refuseDirectory vol env request.path.toLocalPath
  PartWriter.open vol env request.path.toLocalPath (sidecarFor peer request)

def write (request : WriteRequest) (input : ByteStream) : Local Unit := do
  let writer ← prepare vol env peer request
  writer.transfer vol env codec request input

def mkdir (path : RelPath) : Local Unit :=
  CrashM.mapError (localIo "create directory" path.toLocalPath)
    (createDirAll vol env path.toLocalPath)

end LocalEndpoint

end MtpxCore
