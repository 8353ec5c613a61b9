import MtpxCore.DeviceChoice
import MtpxCore.LossyChannel
import MtpxCore.LocalScan
import MtpxCore.PlannerModel
import MtpxCore.ProgressBars

/-! A transfer command while its device is open: `plan_pull` scans both sides at once and plans,
`execute` runs the plan, and everything they say goes through one channel to the renderer, which
also watches for a Ctrl-C. -/
namespace MtpxCore

/-- Which end of a transfer an event refers to. -/
inductive Side where
  | source
  | dest
  deriving DecidableEq, Repr

/-- Advice attached to a ready plan. -/
inductive Hint where
  | slowLink (bytes : ℕ)
  | deviceSkippedObjects (skipped : List SkippedEntry)
  | stalePartials (count bytes : ℕ)
  deriving DecidableEq, Repr

/-- Plans that move more than this over a USB 2.0 or slower link get a `SlowLink` hint. -/
def SLOW_LINK_BYTES : ℕ := 2 ^ 30

def isSlow : Option UsbSpeed → Bool
  | some .low | some .full | some .high => true
  | _ => false

/-- The entries of the map, each key with the value inserted last. -/
def Partials.iter : Partials → Partials
  | [] => []
  | p :: rest => p :: (Partials.iter rest).filter fun q => decide (q.1 ≠ p.1)

/-- Partials that no copy in `plan` will resume, and the bytes in them. -/
def stalePartials (plan : Plan) (partials : Partials) : ℕ × ℕ :=
  let resumed := (plan.actions.filter Action.isCopy).map Action.path
  (partials.iter.filter fun p => !decide (p.1 ∈ resumed)).foldl
    (fun (count, bytes) p => (count + 1, saturatingAdd bytes p.2.bytes)) (0, 0)

def hints (speed : Option UsbSpeed) (plan : Plan) (source : Snapshot) (partials : Partials) :
    List Hint :=
  let bytes := plan.summary.bytesToCopy
  let stale := stalePartials plan partials
  (if isSlow speed && decide (SLOW_LINK_BYTES < bytes) then [.slowLink bytes] else []) ++
    (if source.skipped = [] then [] else [.deviceSkippedObjects source.skipped]) ++
    (if 0 < stale.1 then [.stalePartials stale.1 stale.2] else [])

/-- The events of a whole command: those of the scans and the plan, and those of the run. -/
inductive SessionEvent where
  | scanStarted (side : Side)
  | scanProgress (side : Side) (found : ℕ)
  | scanFinished (side : Side) (entries skipped : ℕ)
  | planReady (summary : PlanSummary) (hints : List Hint)
  | run (event : ProgressEvent)
  deriving DecidableEq, Repr

namespace SessionEvent

/-- Whose scan an event is about. -/
def side : SessionEvent → Option Side
  | .scanStarted side => some side
  | .scanProgress side _ => some side
  | .scanFinished side _ _ => some side
  | .planReady _ _ => none
  | .run _ => none

def isReady : SessionEvent → Bool
  | .planReady _ _ => true
  | _ => false

end SessionEvent

/-- Reports that are tried, not awaited: a full channel drops them. -/
def ProgressEvent.isLossy : ProgressEvent → Bool
  | .fileProgress _ _ => true
  | _ => false

def SessionEvent.isLossy : SessionEvent → Bool
  | .scanProgress _ _ => true
  | .run event => event.isLossy
  | _ => false

/-- What a command produced when it did not fail. -/
inductive CommandOutcome where
  | done
  | dryRun (plan : Plan)
  | transferred (report : Report)
  deriving DecidableEq

/-- What the scan of one side does: the counts it reports as it walks, and its result. -/
structure SideScan where
  reports : List ℕ
  result : Except Error ScanResult

/-- A transfer command on an open device, with everything the two sides will answer. -/
structure Session (σ : Type) where
  tables : CaseTables
  speed : Option UsbSpeed
  opts : TransferOptions
  dryRun : Bool
  /-- `Device::endpoint`, on the storage picked at last. -/
  endpoint : Except ChoiceError Unit
  scan : Side → SideScan
  ex : Executor σ
  source : Endpoint σ
  dest : Endpoint σ
  world : σ

/-- Where the scan of one side is; it is polled first when both are. -/
inductive ScanState where
  | waiting
  | walking (left : List ℕ)
  | walked
  | finished
  deriving DecidableEq, Repr

/-- Where the command is. -/
inductive Phase where
  | opening
  | scanning (scan : Side → ScanState)
  | announcing (plan : Plan) (hints : List Hint)
  | bound (plan : Plan)
  | running (left : List ProgressEvent) (outcome : Except Error Report)
  | ended (outcome : Except ChoiceError CommandOutcome)

/-- The command, and the local walk it has left behind on a blocking thread, if any. -/
structure Core where
  phase : Phase
  stray : List ℕ

def Core.start : Core := ⟨.opening, []⟩

/-- What `execute` makes of a run. -/
def executed : Except Error Report → Except ChoiceError CommandOutcome
  | .ok report => .ok (.transferred report)
  | .error e => .error (.raised e)

/-- A failed scan drops the other one. The walk of the local side goes on by itself. -/
def strayWalk (failed : Side) (scan : Side → ScanState) : List ℕ :=
  match failed, scan .dest with
  | .source, .walking left => left
  | _, _ => []

namespace Session

variable {σ : Type} (S : Session σ)

def planOf (source dest : ScanResult) : Except (List RelPath) Plan :=
  plan S.tables source.snapshot dest.snapshot dest.folding dest.partials S.opts

/-- `PlanReady`, as `announce` sends it. -/
def hintsOf (p : Plan) (source dest : ScanResult) : List Hint :=
  hints S.speed p source.snapshot dest.partials

/-- The run of a plan, which tries every report: it is the channel that drops some. -/
def runOf (p : Plan) : Except Error Report × Scene σ :=
  { S.ex with hasRoom := fun _ _ => true }.run p S.source S.dest S.world

def runEvents (p : Plan) : List ProgressEvent := sent (S.runOf p).2.trace

def finishEvent (side : Side) (result : ScanResult) : SessionEvent :=
  .scanFinished side result.snapshot.entries.length result.snapshot.skipped.length

/-- The steps of the command, with the event each of them sends. -/
inductive Sends : Core → Option SessionEvent → Core → Prop
  | opened : S.endpoint = .ok () → Sends ⟨.opening, []⟩ none ⟨.scanning fun _ => .waiting, []⟩
  | refused {e : ChoiceError} : S.endpoint = .error e →
      Sends ⟨.opening, []⟩ none ⟨.ended (.error e), []⟩
  | start {scan : Side → ScanState} (side : Side) : scan side = .waiting →
      Sends ⟨.scanning scan, []⟩ (some (.scanStarted side))
        ⟨.scanning (Function.update scan side (.walking (S.scan side).reports)), []⟩
  | report {scan : Side → ScanState} (side : Side) {found : ℕ} {left : List ℕ} :
      scan side = .walking (found :: left) →
      Sends ⟨.scanning scan, []⟩ (some (.scanProgress side found))
        ⟨.scanning (Function.update scan side (.walking left)), []⟩
  | walked {scan : Side → ScanState} (side : Side) {result : ScanResult} :
      scan side = .walking [] → (S.scan side).result = .ok result →
      Sends ⟨.scanning scan, []⟩ none ⟨.scanning (Function.update scan side .walked), []⟩
  | failed {scan : Side → ScanState} (side : Side) {e : Error} :
      scan side = .walking [] → (S.scan side).result = .error e →
      Sends ⟨.scanning scan, []⟩ none ⟨.ended (.error (.raised e)), strayWalk side scan⟩
  | finish {scan : Side → ScanState} (side : Side) {result : ScanResult} :
      scan side = .walked → (S.scan side).result = .ok result →
      Sends ⟨.scanning scan, []⟩ (some (finishEvent side result))
        ⟨.scanning (Function.update scan side .finished), []⟩
  | planned {scan : Side → ScanState} {source dest : ScanResult} {p : Plan} :
      (∀ side, scan side = .finished) → (S.scan .source).result = .ok source →
      (S.scan .dest).result = .ok dest → S.planOf source dest = .ok p →
      Sends ⟨.scanning scan, []⟩ none ⟨.announcing p (S.hintsOf p source dest), []⟩
  | conflicts {scan : Side → ScanState} {source dest : ScanResult} {paths : List RelPath} :
      (∀ side, scan side = .finished) → (S.scan .source).result = .ok source →
      (S.scan .dest).result = .ok dest → S.planOf source dest = .error paths →
      Sends ⟨.scanning scan, []⟩ none ⟨.ended (.error (.raised (.conflicts paths))), []⟩
  | announce {p : Plan} {advice : List Hint} :
      Sends ⟨.announcing p advice, []⟩ (some (.planReady p.summary advice)) ⟨.bound p, []⟩
  | dryRun {p : Plan} : S.dryRun = true →
      Sends ⟨.bound p, []⟩ none ⟨.ended (.ok (.dryRun p)), []⟩
  | begin {p : Plan} : S.dryRun = false →
      Sends ⟨.bound p, []⟩ none ⟨.running (S.runEvents p) (S.runOf p).1, []⟩
  | emit {e : ProgressEvent} {left : List ProgressEvent} {outcome : Except Error Report} :
      Sends ⟨.running (e :: left) outcome, []⟩ (some (.run e)) ⟨.running left outcome, []⟩
  | returned {outcome : Except Error Report} :
      Sends ⟨.running [] outcome, []⟩ none ⟨.ended (executed outcome), []⟩
  | stray {outcome : Except ChoiceError CommandOutcome} {found : ℕ} {left : List ℕ} :
      Sends ⟨.ended outcome, found :: left⟩ (some (.scanProgress .dest found))
        ⟨.ended outcome, left⟩
  -- a stray walk that sees the token set, or comes to its end
  | strayStopped {outcome : Except ChoiceError CommandOutcome} {found : ℕ} {left : List ℕ} :
      Sends ⟨.ended outcome, found :: left⟩ none ⟨.ended outcome, []⟩

end Session

/-- The Ctrl-C handler of `main`; it is gone when no handler can be set. -/
inductive Signal where
  | waiting
  | pressed
  | gone
  deriving DecidableEq, Repr

/-- What the renderer shows: an event, or the line on the first Ctrl-C. -/
inductive Shown where
  | event (e : SessionEvent)
  | interrupting
  deriving DecidableEq, Repr

/-- The loop of `Renderer::run`, beside the signal it watches. -/
structure Watcher where
  signal : Signal
  announced : Bool
  planned : Bool
  shown : List Shown
  deriving DecidableEq, Repr

def Watcher.start : Watcher := ⟨.waiting, false, false, []⟩

def Watcher.handle (w : Watcher) (e : SessionEvent) : Watcher :=
  { w with planned := w.planned || e.isReady, shown := w.shown ++ [.event e] }

/-- `interrupting`: before the plan there is no window to finish. -/
def Watcher.interrupting (w : Watcher) : Watcher :=
  { w with announced := true, shown := if w.planned then w.shown ++ [.interrupting] else w.shown }

inductive Watcher.Receives : Watcher → Option SessionEvent → Watcher → Prop
  | handle (w : Watcher) (e : SessionEvent) : Receives w (some e) (w.handle e)
  | press (w : Watcher) : w.signal = .waiting → Receives w none { w with signal := .pressed }
  | lose (w : Watcher) : w.signal = .waiting → Receives w none { w with signal := .gone }
  | notice (w : Watcher) : w.announced = false → w.signal = .pressed →
      Receives w none w.interrupting
  | noticeGone (w : Watcher) : w.announced = false → w.signal = .gone →
      Receives w none { w with announced := true }

/-- The command, the channel and the renderer. -/
abbrev SessionState := LossyChannel.State Core Watcher SessionEvent

def SessionState.start : SessionState := LossyChannel.State.start Core.start Watcher.start

/-- The renderer's loop is over: every sender is gone and the channel is empty. -/
def SessionState.Closed (s : SessionState) (outcome : Except ChoiceError CommandOutcome) : Prop :=
  s.sender = ⟨.ended outcome, []⟩ ∧ s.buffer = []

abbrev SessionStep {σ : Type} (S : Session σ) (capacity : ℕ) : SessionState → SessionState → Prop :=
  LossyChannel.Step SessionEvent.isLossy capacity S.Sends Watcher.Receives

/-- Any interleaving of the scans, the run, the renderer and a Ctrl-C. -/
abbrev SessionRun {σ : Type} (S : Session σ) (capacity : ℕ) : SessionState → SessionState → Prop :=
  LossyChannel.Run SessionEvent.isLossy capacity S.Sends Watcher.Receives

end MtpxCore
