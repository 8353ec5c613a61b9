import MtpxCore.PlanActions
import MtpxCore.PartWriterModel

/-! The executor of `executor.rs`: a plan run action by action against two endpoints. What
the endpoints, the cancel token, the clock and the receiver of the events do is arbitrary; a
scene records the events sent and the calls made, in order. -/
namespace MtpxCore

structure FailedFile where
  path : RelPath
  error : String
  deriving DecidableEq, Repr

/-- Totals for a finished, interrupted or aborted transfer. -/
structure Report where
  copied : ℕ
  bytes : ℕ
  skipped : ℕ
  failed : List FailedFile
  elapsed : ℕ
  interrupted : Bool
  deriving DecidableEq, Repr

/-- `Report::default`. -/
def Report.zero : Report := ⟨0, 0, 0, [], 0, false⟩

/-- The events of a run; those of the scans before it are left out. -/
inductive ProgressEvent where
  | fileStarted (path : RelPath) (size resumeFrom : ℕ)
  | fileProgress (path : RelPath) (bytes : ℕ)
  | fileFinished (path : RelPath) (bytes elapsed : ℕ)
  | fileFailed (path : RelPath) (error : String) (willRetry : Bool)
  | skipped (path : RelPath) (reason : SkipReason)
  | interrupted (remainingFiles : ℕ)
  | finished (report : Report)
  | aborted (report : Report) (remainingFiles : ℕ)
  deriving DecidableEq, Repr

/-- The calls a run makes on its endpoints; only a read is made on the source. -/
inductive Call where
  | mkdir (path : RelPath)
  | resumeOffset (path : RelPath) (requested : ℕ)
  | read (path : RelPath) (offset : ℕ)
  | write (request : WriteRequest)
  deriving DecidableEq, Repr

inductive Happening where
  | event (e : ProgressEvent)
  | call (c : Call)
  deriving DecidableEq, Repr

/-- The part of `Endpoint` a run uses; every call may move the world. A write also says how
many items of the stream it has taken. -/
structure Endpoint (σ : Type) where
  resumeOffset : RelPath → ℕ → σ → Except Error ℕ × σ
  read : RelPath → ℕ → σ → Except Error ByteStream × σ
  write : WriteRequest → ByteStream → σ → Except Error Unit × ℕ × σ
  mkdir : RelPath → σ → Except Error Unit × σ

/-- `Executor`, with what it meets outside the endpoints: the token, the receiver of the
events, the clock in milliseconds, and what other code says of an error. -/
structure Executor (σ : Type) where
  isCancelled : σ → Bool
  deliver : ProgressEvent → σ → σ
  hasRoom : σ → ℕ → Bool
  now : σ → ℕ
  sleep : ℕ → σ → σ
  isRetryable : MtpError → Bool
  text : Error → String
  sleep_now : ∀ d world, now world + d ≤ now (sleep d world)

structure Scene (σ : Type) where
  world : σ
  trace : List Happening

/-- Why a run stops before the last action. -/
inductive Stop where
  | interrupted
  | aborted (e : Error)
  deriving DecidableEq, Repr

def MAX_READ_RETRIES : ℕ := 3

def RETRY_BACKOFF : ℕ := 500

def CANCEL_POLL : ℕ := 100

/-- `+` on `u64` in a release build. -/
def wrappingAdd (a b : ℕ) : ℕ := (a + b) % 2 ^ 64

def IoErrorKind.isUnwritable : IoErrorKind → Bool
  | .storageFull | .readOnlyFilesystem => true
  | _ => false

/-- The errors after which no further endpoint call can succeed. -/
def abortsBatch : Error → Bool
  | .disconnected | .noDevice | .permissionDenied | .exclusiveAccess | .mtp .deviceReset => true
  | .io kind | .localIo _ _ kind => kind.isUnwritable
  | _ => false

def remainingCopies (actions : List Action) : ℕ := (actions.filter Action.isCopy).length

namespace Executor

variable {σ : Type} (ex : Executor σ)

def emit (event : ProgressEvent) (s : Scene σ) : Scene σ :=
  ⟨ex.deliver event s.world, s.trace ++ [.event event]⟩

def fail (report : Report) (path : RelPath) (error : Error) (s : Scene σ) :
    Except Stop Unit × Report × Scene σ :=
  if error = .cancelled then (.error .interrupted, report, s)
  else
    let message := ex.text error
    let report := { report with failed := report.failed ++ [⟨path, message⟩] }
    if abortsBatch error then (.error (.aborted error), report, s)
    else (.ok (), report, ex.emit (.fileFailed path message false) s)

def mkdir (dest : Endpoint σ) (path : RelPath) (report : Report) (s : Scene σ) :
    Except Stop Unit × Report × Scene σ :=
  let (answer, world) := dest.mkdir path s.world
  let s := ⟨world, s.trace ++ [.call (.mkdir path)]⟩
  match answer with
  | .ok () => (.ok (), report, s)
  | .error e => ex.fail report path e s

def skip (path : RelPath) (reason : SkipReason) (report : Report) (s : Scene σ) :
    Except Stop Unit × Report × Scene σ :=
  (.ok (), { report with skipped := report.skipped + 1 }, ex.emit (.skipped path reason) s)

/-- Announces `FileStarted` with the offset the copy will actually stream from. -/
def settle (dest : Endpoint σ) (request : WriteRequest) (s : Scene σ) :
    Except Error WriteRequest × Scene σ :=
  let (answer, world) := dest.resumeOffset request.path request.resumeFrom s.world
  let s := ⟨world, s.trace ++ [.call (.resumeOffset request.path request.resumeFrom)]⟩
  match answer with
  | .error e => (.error e, s)
  | .ok resumeFrom =>
    (.ok { request with resumeFrom := resumeFrom },
      ex.emit (.fileStarted request.path request.expectedSize resumeFrom) s)

/-- Sleeps until the deadline in short slices. Every slice takes a millisecond at least, so
`fuel` is never exhausted when it starts at the length of the backoff. -/
def backOff (deadline : ℕ) : ℕ → Scene σ → Except Error Unit × Scene σ
  | 0, s => (.ok (), s)
  | fuel + 1, s =>
    if ex.now s.world < deadline then
      if ex.isCancelled s.world then (.error .cancelled, s)
      else backOff deadline fuel
        { s with world := ex.sleep (min CANCEL_POLL (deadline - ex.now s.world)) s.world }
    else (.ok (), s)

/-- A cancel that landed with the error is honoured before a retry is announced. -/
def reportAndBackOff (path : RelPath) (error : MtpError) (backoff : ℕ) (s : Scene σ) :
    Except Error Unit × Scene σ :=
  if ex.isCancelled s.world then (.error .cancelled, s)
  else
    let s := ex.emit (.fileFailed path (ex.text (.mtp error)) true) s
    ex.backOff (ex.now s.world + backoff) backoff s

/-- Opens the source stream; `retries` more attempts follow a transient MTP error. -/
def readWithRetry (source : Endpoint σ) (path : RelPath) (offset : ℕ) :
    (retries backoff : ℕ) → Scene σ → Except Error ByteStream × Scene σ
  | 0, _, s =>
    let (answer, world) := source.read path offset s.world
    (answer, ⟨world, s.trace ++ [.call (.read path offset)]⟩)
  | retries + 1, backoff, s =>
    let (answer, world) := source.read path offset s.world
    let s := ⟨world, s.trace ++ [.call (.read path offset)]⟩
    match answer with
    | .error (.mtp e) =>
      if ex.isRetryable e then
        match ex.reportAndBackOff path e backoff s with
        | (.error e, s) => (.error e, s)
        | (.ok (), s) => readWithRetry source path offset retries (backoff * 2) s
      else (.error (.mtp e), s)
    | outcome => (outcome, s)

/-- What `progress_stream` reports of the chunks taken from a stream. -/
def progressEvents (path : RelPath) : ℕ → ByteStream → List ProgressEvent
  | _, [] => []
  | soFar, .error _ :: rest => progressEvents path soFar rest
  | soFar, .ok chunk :: rest =>
    .fileProgress path (soFar + chunk.length) :: progressEvents path (soFar + chunk.length) rest

/-- The reports a full channel has not dropped. -/
def delivered (world : σ) (events : List ProgressEvent) : List ProgressEvent :=
  (events.zipIdx.filter (fun p => ex.hasRoom world p.2)).map Prod.fst

/-- Returns the bytes that flowed this run. -/
def copyOne (source dest : Endpoint σ) (request : WriteRequest) (s : Scene σ) :
    Except Error ℕ × Scene σ :=
  let resumeFrom := request.resumeFrom
  match ex.readWithRetry source request.path resumeFrom MAX_READ_RETRIES RETRY_BACKOFF s with
  | (.error e, s) => (.error e, s)
  | (.ok raw, s) =>
    let since := ex.now s.world
    let bytes := request.expectedSize - resumeFrom
    let (answer, taken, world) := dest.write request raw s.world
    let progress := ex.delivered s.world (progressEvents request.path resumeFrom (raw.take taken))
    let s : Scene σ := ⟨world, s.trace ++ .call (.write request) :: progress.map .event⟩
    match answer with
    | .error e => (.error e, s)
    | .ok () =>
      (.ok bytes, ex.emit (.fileFinished request.path bytes (ex.now s.world - since)) s)

def copy (source dest : Endpoint σ) (request : WriteRequest) (report : Report) (s : Scene σ) :
    Except Stop Unit × Report × Scene σ :=
  match ex.settle dest request s with
  | (.error e, s) => ex.fail report request.path e s
  | (.ok request, s) =>
    match ex.copyOne source dest request s with
    | (.error e, s) => ex.fail report request.path e s
    | (.ok bytes, s) =>
      (.ok (), { report with
        copied := report.copied + 1
        bytes := wrappingAdd report.bytes bytes }, s)

def step (source dest : Endpoint σ) (action : Action) (report : Report) (s : Scene σ) :
    Except Stop Unit × Report × Scene σ :=
  if ex.isCancelled s.world then (.error .interrupted, report, s)
  else match action with
    | .mkdir path => ex.mkdir dest path report s
    | .skip path reason => ex.skip path reason report s
    | .copy path size modified resumeFrom _ =>
      ex.copy source dest ⟨path, size, resumeFrom, modified⟩ report s

def finish (report : Report) (since : ℕ) (s : Scene σ) : Report × Scene σ :=
  let report := { report with elapsed := ex.now s.world - since }
  (report, ex.emit (.finished report) s)

def interrupt (report : Report) (since remainingFiles : ℕ) (s : Scene σ) : Report × Scene σ :=
  let s := ex.emit (.interrupted remainingFiles) s
  ex.finish { report with interrupted := true } since s

def abort (report : Report) (since remainingFiles : ℕ) (s : Scene σ) : Scene σ :=
  let report := { report with elapsed := ex.now s.world - since }
  ex.emit (.aborted report remainingFiles) s

/-- The loop of `run` over the actions that are left. -/
def runFrom (source dest : Endpoint σ) (since : ℕ) :
    List Action → Report → Scene σ → Except Error Report × Scene σ
  | [], report, s =>
    let (report, s) := ex.finish report since s
    (.ok report, s)
  | a :: as, report, s =>
    match ex.step source dest a report s with
    | (.ok (), report, s) => runFrom source dest since as report s
    | (.error .interrupted, report, s) =>
      let (report, s) := ex.interrupt report since (remainingCopies (a :: as)) s
      (.ok report, s)
    | (.error (.aborted e), report, s) =>
      (.error e, ex.abort report since (remainingCopies (a :: as)) s)

/-- `Executor::run`: the outcome, and everything that was sent and called. -/
def run (plan : Plan) (source dest : Endpoint σ) (world : σ) : Except Error Report × Scene σ :=
  ex.runFrom source dest (ex.now world) plan.actions Report.zero ⟨world, []⟩

end Executor

end MtpxCore
