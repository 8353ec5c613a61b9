import MtpxCore.ExecutorModel

/-! The renderer of `progress.rs` on a terminal: what it keeps of the events of a run, and where it
puts its two bars. The lines printed above the bars and how a bar is drawn are left out. -/
namespace MtpxCore

def MAX_DISPLAY_CHARS : ℕ := 256

def isReordering (c : Char) : Bool :=
  c == '\u061C' || c == '\u200E' || c == '\u200F' || (0x2028 ≤ c.toNat && c.toNat ≤ 0x202E) ||
    (0x2066 ≤ c.toNat && c.toNat ≤ 0x2069)

/-- `char::is_control`: the Unicode category Cc. -/
def isControl (c : Char) : Bool := c.toNat < 0x20 || (0x7F ≤ c.toNat && c.toNat < 0xA0)

/-- Renders untrusted text safe for a terminal. -/
def sanitizeForDisplay (value : String) : String :=
  let shown := (value.toList.take MAX_DISPLAY_CHARS).map fun c =>
    if isControl c || isReordering c then '\uFFFD' else c
  String.ofList (if MAX_DISPLAY_CHARS < value.toList.length then shown ++ ['…'] else shown)

/-- A bar of `indicatif`, by what is set on it. -/
structure ProgressBar where
  length : Option ℕ
  position : ℕ
  message : String
  deriving DecidableEq, Repr

def ProgressBar.new : ProgressBar := ⟨none, 0, ""⟩

def fileCount (done total : ℕ) : String := s!"({done}/{total})"

/-- The two bars of a transfer; `shown` once they have been added below the printed lines. -/
structure Bars where
  file : ProgressBar
  overall : ProgressBar
  shown : Bool
  deriving DecidableEq, Repr

namespace Bars

def new : Bars := ⟨.new, .new, false⟩

/-- Reveals the transfer bars, sized to what the plan will move. -/
def showTransfer (bars : Bars) (bytes files : ℕ) : Bars :=
  if files = 0 then bars
  else
    { bars with
      overall := { bars.overall with length := some bytes, message := fileCount 0 files }
      shown := true }

def startFile (bars : Bars) (path : RelPath) (size resumeFrom : ℕ) : Bars :=
  { bars with file := ⟨some size, resumeFrom, sanitizeForDisplay (path.fileName.getD "")⟩ }

/-- Moves both bars; `overall` is the running byte total across files. -/
def advance (bars : Bars) (fileBytes overall : ℕ) : Bars :=
  { bars with
    file := { bars.file with position := fileBytes }
    overall := { bars.overall with position := overall } }

def finishFile (bars : Bars) (overall done total : ℕ) : Bars :=
  { bars with overall := { bars.overall with position := overall, message := fileCount done total } }

/-- `finish_and_clear`: takes the bars off the screen. That `indicatif` also moves the hidden bars
to their lengths is not counted. -/
def clear (bars : Bars) : Bars := { bars with shown := false }

end Bars

/-- Running file and byte counts across the transfer. `fileBase` has the bytes of every finished
file; the progress events of the current one include the prefix it resumed from. -/
structure Tally where
  totalFiles : ℕ
  doneFiles : ℕ
  fileBase : ℕ
  resumeFrom : ℕ
  deriving DecidableEq, Repr

/-- `Renderer`, drawing bars; `remaining` is the one count of `Omitted` that a run sends. -/
structure Renderer where
  bars : Bars
  tally : Tally
  remaining : ℕ
  planned : Bool
  deriving DecidableEq, Repr

namespace Renderer

def new : Renderer := ⟨.new, ⟨0, 0, 0, 0⟩, 0, false⟩

def planReady (r : Renderer) (summary : PlanSummary) : Renderer :=
  { r with
    tally := { r.tally with totalFiles := summary.filesToCopy }
    planned := true
    bars := r.bars.showTransfer summary.bytesToCopy summary.filesToCopy }

def fileStarted (r : Renderer) (path : RelPath) (size resumeFrom : ℕ) : Renderer :=
  { r with
    tally := { r.tally with resumeFrom := resumeFrom }
    bars := r.bars.startFile path size resumeFrom }

def fileProgress (r : Renderer) (bytes : ℕ) : Renderer :=
  let moved := bytes - r.tally.resumeFrom
  { r with bars := r.bars.advance bytes (wrappingAdd r.tally.fileBase moved) }

def fileFinished (r : Renderer) (bytes : ℕ) : Renderer :=
  let tally :=
    { r.tally with
      fileBase := wrappingAdd r.tally.fileBase bytes
      doneFiles := wrappingAdd r.tally.doneFiles 1 }
  { r with tally := tally, bars := r.bars.finishFile tally.fileBase tally.doneFiles tally.totalFiles }

/-- What an event does to the bars and the counts; failures and skips are only printed. -/
def handle (r : Renderer) : ProgressEvent → Renderer
  | .fileStarted path size resumeFrom => r.fileStarted path size resumeFrom
  | .fileProgress _ bytes => r.fileProgress bytes
  | .fileFinished _ bytes _ => r.fileFinished bytes
  | .fileFailed _ _ _ => r
  | .skipped _ _ => r
  | .interrupted remainingFiles => { r with remaining := remainingFiles }
  | .finished _ => { r with bars := r.bars.clear }
  | .aborted _ _ => { r with bars := r.bars.clear }

/-- The overall position: the bytes of the finished files and those moved of the current one. -/
def position (r : Renderer) : ℕ := r.bars.overall.position

/-- From one event to the next the overall position never falls, and never exceeds `limit`. -/
def Climbs (limit : ℕ) : Renderer → List ProgressEvent → Prop
  | r, [] => r.position ≤ limit
  | r, e :: es =>
    r.position ≤ limit ∧ r.position ≤ (r.handle e).position ∧ Climbs limit (r.handle e) es

instance decidableClimbs (limit : ℕ) : (r : Renderer) → (events : List ProgressEvent) →
    Decidable (Climbs limit r events)
  | r, [] => inferInstanceAs (Decidable (r.position ≤ limit))
  | r, e :: es =>
    have := decidableClimbs limit (r.handle e) es
    inferInstanceAs (Decidable
      (r.position ≤ limit ∧ r.position ≤ (r.handle e).position ∧ Climbs limit (r.handle e) es))

end Renderer

/-- The events of a trace, in order. -/
def sent (xs : List Happening) : List ProgressEvent :=
  xs.filterMap fun
    | .event e => some e
    | .call _ => none

@[simp] theorem sent_call (c : Call) (xs : List Happening) : sent (.call c :: xs) = sent xs := rfl

@[simp] theorem sent_event (e : ProgressEvent) (xs : List Happening) :
    sent (.event e :: xs) = e :: sent xs := rfl

theorem sent_append (xs ys : List Happening) : sent (xs ++ ys) = sent xs ++ sent ys :=
  List.filterMap_append

namespace Renderer

/-- The renderer after the events of a trace. -/
def watch (r : Renderer) (xs : List Happening) : Renderer := (sent xs).foldl handle r

theorem watch_append (r : Renderer) (xs ys : List Happening) :
    r.watch (xs ++ ys) = (r.watch xs).watch ys := by
  rw [watch, sent_append, List.foldl_append]
  rfl

@[simp] theorem planReady_position (r : Renderer) (summary : PlanSummary) :
    (r.planReady summary).position = r.position := by
  unfold planReady Bars.showTransfer position
  split
  · rfl
  · rfl

@[simp] theorem fileStarted_position (r : Renderer) (path : RelPath) (size resumeFrom : ℕ) :
    (r.fileStarted path size resumeFrom).position = r.position := rfl

@[simp] theorem fileProgress_position (r : Renderer) (bytes : ℕ) :
    (r.fileProgress bytes).position =
      wrappingAdd r.tally.fileBase (bytes - r.tally.resumeFrom) := rfl

@[simp] theorem fileProgress_tally (r : Renderer) (bytes : ℕ) :
    (r.fileProgress bytes).tally = r.tally := rfl

@[simp] theorem fileFinished_position (r : Renderer) (bytes : ℕ) :
    (r.fileFinished bytes).position = wrappingAdd r.tally.fileBase bytes := rfl

@[simp] theorem fileFinished_base (r : Renderer) (bytes : ℕ) :
    (r.fileFinished bytes).tally.fileBase = wrappingAdd r.tally.fileBase bytes := rfl

variable {limit : ℕ} {r : Renderer} {xs ys : List Happening}

theorem Climbs.le {events : List ProgressEvent} (h : r.Climbs limit events) :
    r.position ≤ limit := by
  cases events with
  | nil => exact h
  | cons e es => exact h.1

theorem Climbs.append (hx : r.Climbs limit (sent xs)) (hy : (r.watch xs).Climbs limit (sent ys)) :
    r.Climbs limit (sent (xs ++ ys)) := by
  rw [sent_append]
  unfold watch at hy
  generalize sent xs = es at hx hy
  induction es generalizing r with
  | nil => exact hy
  | cons e es ih => exact ⟨hx.1, hx.2.1, ih hx.2.2 hy⟩

end Renderer

end MtpxCore
