import MtpxCore.TransferSession

/-! What the commands print: the formatting of `ui/format.rs`, the tables of `ui/table.rs`, the lists
of `ui/diagnostic.rs`, and the lines of `ui/progress.rs` when no bars are drawn, in the colors of
`ui/theme.rs`. -/
namespace MtpxCore

/-- A text a terminal shows as it stands, on one line. -/
def Printable (text : String) : Prop :=
  text.toList.all (fun c => !isControl c && !isReordering c) = true

instance (text : String) : Decidable (Printable text) := inferInstanceAs (Decidable (_ = _))

def spaces (n : ℕ) : String := String.ofList (List.replicate n ' ')

/-- The styles of `ui/theme.rs`. -/
inductive Style where
  | green
  | yellow
  | red
  | dim
  | bold
  deriving DecidableEq, Repr

/-- The formatting that other crates do, the codes around a painted text among it, and what a device
or a path error says of an object that could not be listed. -/
structure TextFormats where
  size : ℕ → String
  /-- The reason for a skip, where the code fixes no text of its own. -/
  otherReason : SkipCause → String
  /-- A time in the zone of the system, when it is in range. -/
  zoned : ModifiedTime → Option String
  width : String → ℕ
  pad : String → ℕ → Bool → String
  size_printable : ∀ bytes, Printable (size bytes)
  zoned_printable : ∀ time text, zoned time = some text → Printable text
  pad_spaces : ∀ text width right, ∃ l r, pad text width right = spaces l ++ text ++ spaces r
  /-- What a terminal is sent before a text in a style, and after it. -/
  opening : Style → String
  closing : String
  opening_inline : ∀ style, '\n' ∉ (opening style).toList
  closing_inline : '\n' ∉ closing.toList

/-! `ui/theme.rs`: what the theme makes of a text when color is on -/

/-- A text, and the style it is painted in, if any. -/
structure Painted where
  style : Option Style
  text : String
  deriving DecidableEq, Repr

namespace Theme

def plain (text : String) : Painted := ⟨none, text⟩

@[simp] theorem plain_text (text : String) : (plain text).text = text := rfl

def ok (text : String) : Painted := ⟨some .green, text⟩

def warn (text : String) : Painted := ⟨some .yellow, text⟩

def err (text : String) : Painted := ⟨some .red, text⟩

def dim (text : String) : Painted := ⟨some .dim, text⟩

def bold (text : String) : Painted := ⟨some .bold, text⟩

end Theme

/-! `ui/format.rs` -/

def THOUSANDS_GROUP : ℕ := 3

def MAX_LISTED : ℕ := 20

def ROOT_LABEL : String := "."

/-- The loop of `count` over the digits, from the place `index` of `total` on. -/
def groupDigits (total : ℕ) : ℕ → List Char → List Char
  | _, [] => []
  | index, digit :: digits =>
    (if 0 < index ∧ (total - index) % THOUSANDS_GROUP = 0 then [','] else []) ++
      digit :: groupDigits total (index + 1) digits

/-- `1,102` style counts. -/
def count (value : ℕ) : String :=
  String.ofList (groupDigits value.repr.toList.length 0 value.repr.toList)

/-- A count with its noun. -/
def counted (one many : String) (value : ℕ) : String :=
  if value = 1 then one else count value ++ many

def files : ℕ → String := counted "1 file" " files"

def objects : ℕ → String := counted "1 object" " objects"

def partialDownloads : ℕ → String := counted "1 partial download" " partial downloads"

def shownPath (path : RelPath) : String := sanitizeForDisplay path.display

def skipReason : SkipReason → String
  | .identical => "identical"
  | .conflict => "conflict"
  | .kindConflict => "kind conflict"
  | .nameCollision => "name collision"

def skipIsNotable : SkipReason → Bool
  | .identical => false
  | _ => true

/-- At most `MAX_LISTED` of the items, indented, then how many were cut. -/
def cappedList (items : List String) : List String :=
  (items.take MAX_LISTED).map ("  " ++ ·) ++
    if 0 < items.length - MAX_LISTED then
      ["  ... and " ++ count (items.length - MAX_LISTED) ++ " more"]
    else []

/-- The serial of a device, unless it has none or an empty one. -/
def DeviceSummary.shownSerial (device : DeviceSummary) : Option String :=
  device.serial.filter fun serial => decide (serial ≠ "")

def shownDevice (device : DeviceSummary) : String :=
  match device.shownSerial with
  | some serial => sanitizeForDisplay device.label ++ " (" ++ sanitizeForDisplay serial ++ ")"
  | none => sanitizeForDisplay device.label

/-- `{:02}` -/
def twoDigits (n : ℕ) : String := if n < 10 then "0" ++ n.repr else n.repr

/-- `{:04x}` of a `u16` -/
def fourHex (n : ℕ) : String :=
  String.ofList ([n / 4096 % 16, n / 256 % 16, n / 16 % 16, n % 16].map Nat.digitChar)

/-- A duration, given in milliseconds. -/
def duration (elapsed : ℕ) : String :=
  let total := elapsed / 1000
  let hours := total / 3600
  let minutes := total % 3600 / 60
  let seconds := total % 60
  if 0 < hours then hours.repr ++ "h " ++ twoDigits minutes ++ "m"
  else if 0 < minutes then minutes.repr ++ "m " ++ twoDigits seconds ++ "s"
  else seconds.repr ++ "s"

/-- Files the summary must mention that `Report` does not count. -/
structure Omitted where
  remaining : ℕ
  leftOut : ℕ
  deriving DecidableEq, Repr

def failedDetail (report : Report) : String :=
  if report.failed = [] then "" else ", " ++ count report.failed.length ++ " failed"

def leftOutDetail (leftOut : ℕ) : String :=
  if leftOut = 0 then "" else ", " ++ count leftOut ++ " left out"

def abortedLine (report : Report) (remaining total : ℕ) : String :=
  "Aborted after " ++ duration total ++ ": " ++ count report.copied ++ " copied, " ++ count remaining ++
    " remaining, re-run to resume"

namespace TextFormats

variable (F : TextFormats)

def storage (storage : StorageSummary) : String :=
  sanitizeForDisplay storage.name ++ " (" ++ F.size storage.free ++ " free of " ++
    F.size storage.total ++ ")"

/-- `Theme::paint`: a text as it is when color is off. -/
def paint (color : Bool) (painted : Painted) : String :=
  match painted.style with
  | some style => if color then F.opening style ++ painted.text ++ F.closing else painted.text
  | none => painted.text

def reason (cause : SkipCause) : String := cause.text.getD (F.otherReason cause)

/-- One line for each refused object, capped. -/
def skippedLines (skipped : List SkippedEntry) : List String :=
  cappedList (skipped.map fun entry =>
    (if entry.parent.isRoot then ROOT_LABEL else sanitizeForDisplay entry.parent.display) ++ ": " ++
      sanitizeForDisplay (F.reason entry.reason))

def rate (bytes elapsed : ℕ) : String :=
  F.size (if elapsed = 0 then 0 else min (bytes * 1000 / elapsed) U64_MAX) ++ "/s"

def planLine (summary : PlanSummary) : String :=
  "Plan: copy " ++ files summary.filesToCopy ++ " (" ++ F.size summary.bytesToCopy ++
    (if 0 < summary.resumableBytes then ", " ++ F.size summary.resumableBytes ++ " resumable" else "") ++
    "), skip " ++ count summary.filesToSkip

def copiedDetail (report : Report) : String :=
  if report.copied = 0 then ""
  else " (" ++ F.size report.bytes ++ ", " ++ F.rate report.bytes report.elapsed ++ " avg)"

def summaryLine (report : Report) (omitted : Omitted) (total : ℕ) : String :=
  if report.interrupted then
    "Interrupted after " ++ duration total ++ ": " ++ count report.copied ++ " copied" ++
      failedDetail report ++ ", " ++ count omitted.remaining ++ " remaining" ++
      leftOutDetail omitted.leftOut ++ ", re-run to resume"
  else
    "Done in " ++ duration total ++ ": " ++ count report.copied ++ " copied" ++ F.copiedDetail report ++
      ", " ++ count report.skipped ++ " skipped, " ++ count report.failed.length ++ " failed" ++
      leftOutDetail omitted.leftOut

/-! `ui/table.rs` -/

def COLUMN_GAP : String := "  "

def ABSENT : String := "-"

/-- The one right-aligned column of a long listing. -/
def SIZE_COLUMN : ℕ := 1

def speed : Option UsbSpeed → String
  | some .low => "USB 1.0 Low Speed"
  | some .full => "USB 1.1 Full Speed"
  | some .high => "USB 2.0 High Speed"
  | some .super => "USB 3.0 SuperSpeed"
  | some .superPlus => "USB 3.1 SuperSpeed+"
  | none => ABSENT

/-- `char::is_whitespace` -/
def isWhitespace (c : Char) : Bool :=
  (0x9 ≤ c.toNat && c.toNat ≤ 0xD) || c.toNat == 0x20 || c.toNat == 0x85 || c.toNat == 0xA0 ||
    c.toNat == 0x1680 || (0x2000 ≤ c.toNat && c.toNat ≤ 0x200A) || c.toNat == 0x2028 ||
    c.toNat == 0x2029 || c.toNat == 0x202F || c.toNat == 0x205F || c.toNat == 0x3000

/-- `str::trim_end` -/
def trimEnd (text : String) : String :=
  String.ofList (text.toList.reverse.dropWhile isWhitespace).reverse

/-- The widest cell of each column. -/
def widths (rows : List (List String)) : List ℕ :=
  let columns := (rows.map List.length).foldl max 0
  (List.range columns).map fun column =>
    ((rows.filterMap fun row => row[column]?).map F.width).foldl max 0

def line (row : List String) (widths : List ℕ) (right : List ℕ) : String :=
  trimEnd (COLUMN_GAP.intercalate (row.zipIdx.map fun (cell, column) =>
    F.pad cell (widths[column]?.getD 0) (decide (column ∈ right))))

/-- The lines of a table, each column padded to its widest cell. -/
def tableLines (rows : List (List String)) (right : List ℕ) : List String :=
  rows.map fun row => F.line row (F.widths rows) right

def render (rows : List (List String)) (right : List ℕ) : String :=
  if rows = [] then "" else "\n".intercalate (F.tableLines rows right) ++ "\n"

def deviceRow (device : DeviceSummary) (index : ℕ) : List String :=
  [index.repr, sanitizeForDisplay device.label,
    fourHex device.vendorId ++ ":" ++ fourHex device.productId,
    (device.shownSerial.map sanitizeForDisplay).getD ABSENT, speed device.speed]

def deviceRows (devices : List DeviceSummary) : List (List String) :=
  ["INDEX", "DEVICE", "ID", "SERIAL", "SPEED"] ::
    devices.zipIdx.map fun (device, index) => deviceRow device index

/-- Attached devices, one for each row. -/
def devices (devices : List DeviceSummary) : String := F.render (deviceRows devices) []

/-- An entry of the short listing, without the end of its line. -/
def entryLine (e : Entry) : String :=
  match e.kind with
  | .dir => shownPath e.path ++ "/"
  | .file => shownPath e.path

def entryRow (e : Entry) : List String :=
  [match e.kind with
    | .dir => "dir"
    | .file => "file",
    match e.kind with
    | .dir => ABSENT
    | .file => F.size e.size,
    (e.modified.bind F.zoned).getD ABSENT, shownPath e.path]

/-- A listing: names only, or a row for each entry. -/
def ls (snapshot : Snapshot) (long : Bool) : String :=
  if long then F.render (snapshot.entries.map F.entryRow) [SIZE_COLUMN]
  else String.join (snapshot.entries.map fun e => entryLine e ++ "\n")

/-- The lines that `mtpx ls` adds on stderr for what its listing lacks, even when quiet. -/
def leftOutLines (skipped : List SkippedEntry) : List String :=
  if skipped = [] then []
  else (objects skipped.length ++ " the device refused to describe were left out") ::
    F.skippedLines skipped

def lsNote (skipped : List SkippedEntry) : String :=
  String.join ((F.leftOutLines skipped).map (· ++ "\n"))

def copyDetail (size resumeFrom : ℕ) : String :=
  if resumeFrom = 0 then F.size size else F.size size ++ ", resume from " ++ F.size resumeFrom

/-- The line of an action that changes something or was refused. -/
def actionLine : Action → Option String
  | .mkdir path => some ("mkdir " ++ shownPath path)
  | .copy path size _ resumeFrom _ =>
    some ("copy  " ++ shownPath path ++ " (" ++ F.copyDetail size resumeFrom ++ ")")
  | .skip _ .identical => none
  | .skip path reason => some ("skip  " ++ shownPath path ++ " (" ++ skipReason reason ++ ")")

def plan (p : Plan) : String :=
  String.join (p.actions.filterMap fun a => (F.actionLine a).map (· ++ "\n"))

/-! `ui/diagnostic.rs` -/

def PICK_DEVICE_HELP : String := "Pick one with --device <SERIAL|INDEX>:"

def PICK_STORAGE_HELP : String := "Pick one with --storage <NAME|INDEX>:"

def NO_STORAGE_HELP : String := "Unlock the phone, then retry."

def CONFLICTS_HELP : String := "use --overwrite to replace them or --skip-existing to leave them"

def pickDevice (devices : List DeviceSummary) : String :=
  PICK_DEVICE_HELP ++ String.join (devices.zipIdx.map fun (device, index) =>
    "\n  " ++ index.repr ++ ": " ++ shownDevice device)

def pickStorage (storages : List StorageSummary) : String :=
  if storages = [] then NO_STORAGE_HELP
  else PICK_STORAGE_HELP ++ String.join (storages.map fun storage =>
    "\n  " ++ storage.index.repr ++ ": " ++ F.storage storage)

def conflictsHeading (count : ℕ) : String :=
  files count ++ " " ++ (if count = 1 then "differs" else "differ") ++ ":"

def conflicts (paths : List RelPath) : String :=
  "\n".intercalate
    (conflictsHeading paths.length :: cappedList (paths.map shownPath) ++ [CONFLICTS_HELP])

/-! `ui/progress.rs`, without bars -/

def sideName : Side → String
  | .source => "the device"
  | .dest => "the local directory"

def skippedNote : Side → String
  | .source => "the device refused to describe"
  | .dest => "unreadable or unusably named, left out"

def failedLine (path : RelPath) (error : String) (willRetry : Bool) : String :=
  (if willRetry then "retrying" else "failed") ++ " " ++ shownPath path ++ ": " ++
    sanitizeForDisplay error

def skippedObjectsLines (skipped : List SkippedEntry) : List String :=
  (objects skipped.length ++ " the device refused to describe were left out of the plan") ::
    F.skippedLines skipped

def hintLine : Hint → String
  | .slowLink bytes =>
    "The USB link is USB 2.0 or slower; " ++ F.size bytes ++ " will take a while"
  | .deviceSkippedObjects skipped => "\n".intercalate (F.skippedObjectsLines skipped)
  | .stalePartials count bytes => partialDownloads count ++ " (" ++ F.size bytes ++
      ") will never resume: the file is already complete or no longer on the device"

/-- A hint is advice, except for what is missing from the plan. -/
def hintIsAlways : Hint → Bool
  | .deviceSkippedObjects _ => true
  | _ => false

def paintedSummary (report : Report) (omitted : Omitted) (total : ℕ) : Painted :=
  let line := F.summaryLine report omitted total
  if report.interrupted then Theme.warn line
  else if report.failed = [] then Theme.ok line
  else Theme.err line

/-- What an event prints, and whether even when quiet; `total` is the time of the whole command. -/
def texts (omitted : Omitted) (total : ℕ) : SessionEvent → List (Painted × Bool)
  | .scanStarted _ => []
  | .scanProgress _ _ => []
  | .scanFinished side entries skipped =>
    [(Theme.plain ("Scanned " ++ sideName side ++ ": " ++ objects entries ++
      (if 0 < skipped then ", " ++ count skipped ++ " " ++ skippedNote side else "")), false)]
  | .planReady summary hints =>
    (Theme.bold (F.planLine summary), false) ::
      hints.map fun hint => (Theme.warn (F.hintLine hint), hintIsAlways hint)
  | .run (.fileStarted path size resumeFrom) =>
    [(Theme.plain (if 0 < resumeFrom then
        "resuming " ++ shownPath path ++ " from " ++ F.size resumeFrom ++ " of " ++ F.size size
      else "copying " ++ shownPath path ++ " (" ++ F.size size ++ ")"), false)]
  | .run (.fileProgress _ _) => []
  | .run (.fileFinished path bytes elapsed) =>
    [(Theme.plain ("copied " ++ shownPath path ++ " (" ++ F.size bytes ++ ", " ++
      F.rate bytes elapsed ++ ")"), false)]
  | .run (.fileFailed path error true) => [(Theme.dim (failedLine path error true), false)]
  | .run (.fileFailed path error false) => [(Theme.err (failedLine path error false), true)]
  | .run (.skipped path reason) =>
    if skipIsNotable reason then
      [(Theme.dim ("skipped " ++ shownPath path ++ " (" ++ skipReason reason ++ ")"), false)]
    else []
  | .run (.interrupted _) => []
  | .run (.finished report) => [(F.paintedSummary report omitted total, true)]
  | .run (.aborted report remaining) => [(Theme.err (abortedLine report remaining total), true)]

/-- What reaches stderr, as lines or when quiet. -/
def printed (quiet : Bool) (omitted : Omitted) (total : ℕ) (e : SessionEvent) : List Painted :=
  ((F.texts omitted total e).filter fun text => !quiet || text.2).map Prod.fst

end TextFormats

end MtpxCore
