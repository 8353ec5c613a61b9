import MtpxCore.PlanActions
import MtpxCore.CaseFolding

/-! The decision procedure of `planner.rs`: two passes over the sorted source, one that
collects conflicts and one that decides an action for every entry. -/
namespace MtpxCore

/-- `fold`, applied as the destination compares names; exact names are their own fold. -/
def RelPath.key (tables : CaseTables) (folding : NameFolding) (path : RelPath) : List String :=
  foldNames tables folding path.segments

/-- `HashMap::entry(..).or_insert(..)` on a list of pairs. -/
def orInsert {α : Type} (table : List (List String × α)) (key : List String) (value : α) :
    List (List String × α) :=
  if table.any (fun p => p.1 = key) then table else table ++ [(key, value)]

def lookup {α : Type} (table : List (List String × α)) (key : List String) : Option α :=
  (table.find? (fun p => decide (p.1 = key))).map Prod.snd

/-- The destination's entries, looked up the way the destination compares names. -/
inductive DestIndex where
  | exact (dest : Snapshot)
  | folded (table : List (List String × Entry))

namespace DestIndex

def new (tables : CaseTables) (dest : Snapshot) : NameFolding → DestIndex
  | .exact => .exact dest
  | .caseInsensitive => .folded <| dest.entries.foldl
      (fun table e => orInsert table (e.path.key tables .caseInsensitive) e) []

def get (tables : CaseTables) (path : RelPath) : DestIndex → Option Entry
  | .exact dest => dest.get path
  | .folded table => lookup table (path.key tables .caseInsensitive)

end DestIndex

/-- Which folded names the source has already claimed. -/
structure Claims where
  folding : NameFolding
  seen : List (List String × EntryKind)

namespace Claims

def new (folding : NameFolding) : Claims := ⟨folding, []⟩

/-- Records `e` and reports whether an earlier entry already owns its folded name. -/
def collides (tables : CaseTables) (claims : Claims) (e : Entry) : Bool × Claims :=
  if claims.folding = .exact then (false, claims)
  else
    let key := e.path.key tables claims.folding
    match lookup claims.seen key with
    | none => (false, { claims with seen := claims.seen ++ [(key, e.kind)] })
    | some owner => (!(decide (e.kind = .dir) && decide (owner = .dir)), claims)

end Claims

def isConflict (e existing : Entry) : Bool :=
  decide (e.kind ≠ existing.kind) || decide (e.size ≠ existing.size)

def skip (e : Entry) (reason : SkipReason) : Action := .skip e.path reason

def copy (file : Entry) (reason : CopyReason) (resumeFrom : ℕ) : Action :=
  .copy file.path file.size file.modified resumeFrom reason

/-- Bytes a partial lets the copy skip; zero unless it came from this exact object. -/
def resumeOffset (file : Entry) (partialInfo : Option PartialInfo) : ℕ :=
  match partialInfo with
  | none => 0
  | some info =>
    if info.fingerprint.matchesEntry file && decide (info.bytes ≤ file.size) then info.bytes
    else 0

inductive DirDecision where
  | mkdir
  | present
  | blocked
  deriving DecidableEq, Repr

def decideDir : Option Entry → DirDecision
  | none => .mkdir
  | some existing => if existing.kind = .dir then .present else .blocked

def decideFile (file : Entry) (existing : Option Entry) (partialInfo : Option PartialInfo)
    (conflict : ConflictPolicy) : Action :=
  match existing with
  | none => copy file .new (resumeOffset file partialInfo)
  | some existing =>
    if existing.kind ≠ file.kind then skip file .kindConflict
    -- a partial never outranks an identical file already on the destination
    else if !isConflict file existing then skip file .identical
    else match conflict with
      | .skip => skip file .conflict
      | .fail | .sourceWins => copy file .sizeDiffers (resumeOffset file partialInfo)

/-- One pass over the source in sorted order. -/
structure Decider where
  dest : DestIndex
  partials : Partials
  conflict : ConflictPolicy
  claims : Claims
  blocked : Option (RelPath × SkipReason)
  mkdirs : List Action
  files : List Action

namespace Decider

variable (tables : CaseTables)

def new (dest : DestIndex) (folding : NameFolding) (partials : Partials)
    (conflict : ConflictPolicy) : Decider :=
  ⟨dest, partials, conflict, Claims.new folding, none, [], []⟩

/-- The reason a refused directory above `path` blocks it; leaving that directory's subtree
clears the slot. -/
def blockingReason (d : Decider) (path : RelPath) : Option SkipReason × Decider :=
  match d.blocked with
  | none => (none, d)
  | some (pre, reason) =>
    if path.startsWith pre then (some reason, d) else (none, { d with blocked := none })

/-- Skips `e`; a directory takes everything beneath it along. -/
def refuse (d : Decider) (e : Entry) (reason : SkipReason) : Decider :=
  { d with
    blocked := if e.kind = .dir then some (e.path, reason) else d.blocked
    files := d.files ++ [skip e reason] }

def decideDirEntry (d : Decider) (dir : Entry) (existing : Option Entry) : Decider :=
  match decideDir existing with
  | .mkdir => { d with mkdirs := d.mkdirs ++ [.mkdir dir.path] }
  | .present => d
  | .blocked => d.refuse dir .kindConflict

def decideEntry (d : Decider) (e : Entry) : Decider :=
  match d.blockingReason e.path with
  | (some reason, d) => { d with files := d.files ++ [skip e reason] }
  | (none, d) =>
    match d.claims.collides tables e with
    | (true, claims) => { d with claims := claims }.refuse e .nameCollision
    | (false, claims) =>
      let d := { d with claims := claims }
      let existing := d.dest.get tables e.path
      match e.kind with
      | .dir => d.decideDirEntry e existing
      | .file =>
        { d with files := d.files ++ [decideFile e existing (d.partials.get e.path) d.conflict] }

/-- Every mkdir goes ahead of the other actions. -/
def intoPlan (d : Decider) : Plan := Plan.new (d.mkdirs ++ d.files)

end Decider

/-- The conflict pass: it claims the name of every entry and knows nothing of blocked
subtrees. -/
def collectFrom (tables : CaseTables) (dest : DestIndex) : Claims → List Entry → List RelPath
  | _, [] => []
  | claims, e :: es =>
    let (collides, claims) := claims.collides tables e
    let conflicts := collides || (dest.get tables e.path).any (fun existing => isConflict e existing)
    if conflicts then e.path :: collectFrom tables dest claims es
    else collectFrom tables dest claims es

def collectConflicts (tables : CaseTables) (source : Snapshot) (dest : DestIndex)
    (folding : NameFolding) : List RelPath :=
  collectFrom tables dest (Claims.new folding) source.entries

/-- `plan`; the error carries the paths of `Error::Conflicts`. -/
def plan (tables : CaseTables) (source dest : Snapshot) (folding : NameFolding)
    (partials : Partials) (opts : TransferOptions) : Except (List RelPath) Plan :=
  let index := DestIndex.new tables dest folding
  let conflicts := collectConflicts tables source index folding
  if opts.conflict = .fail && !conflicts.isEmpty then .error conflicts
  else
    .ok (source.entries.foldl (Decider.decideEntry tables)
      (Decider.new index folding partials opts.conflict)).intoPlan

section Tables

variable {α : Type} (table : List (List String × α)) (key k : List String) (value : α)

theorem lookup_nil : lookup ([] : List (List String × α)) key = none := rfl

theorem lookup_append (more : List (List String × α)) :
    lookup (table ++ more) key = (lookup table key).or (lookup more key) := by
  rw [lookup, lookup, lookup, List.find?_append]
  cases table.find? (fun p => decide (p.1 = key)) <;> rfl

theorem lookup_singleton : lookup [(key, value)] k = if key = k then some value else none := by
  by_cases h : key = k <;> simp [lookup, h]

theorem lookup_eq_none : lookup table key = none ↔ ∀ p ∈ table, p.1 ≠ key := by
  simp [lookup, List.find?_eq_none]

/-- Only the first value inserted under a key is ever found. -/
theorem lookup_orInsert :
    lookup (orInsert table key value) k =
      (lookup table k).or (if key = k then some value else none) := by
  rw [orInsert]
  split
  · rename_i h
    by_cases hk : key = k
    · subst hk
      cases hl : lookup table key with
      | some v => rfl
      | none =>
        obtain ⟨p, hp, he⟩ := List.any_eq_true.mp h
        exact absurd (of_decide_eq_true he) ((lookup_eq_none table key).mp hl p hp)
    · rw [if_neg hk, Option.or_none]
  · rw [lookup_append, lookup_singleton]

end Tables

section Keys

variable (tables : CaseTables) (folding : NameFolding)

@[simp] theorem RelPath.key_length (path : RelPath) :
    (path.key tables folding).length = path.segments.length :=
  foldNames_length tables folding path.segments

theorem RelPath.key_exact (path : RelPath) : path.key tables .exact = path.segments :=
  foldNames_exact tables path.segments

/-- The first listed entry that the destination takes for `key`. -/
def firstWithKey (es : List Entry) (key : List String) : Option Entry :=
  SortedTable.first (fun e => e.path.key tables folding) key es

theorem folded_table_lookup (es : List Entry) (table : List (List String × Entry))
    (key : List String) :
    lookup (es.foldl (fun t e => orInsert t (e.path.key tables .caseInsensitive) e) table) key =
      (lookup table key).or (firstWithKey tables .caseInsensitive es key) := by
  induction es generalizing table with
  | nil => simp [firstWithKey, SortedTable.first]
  | cons e es ih =>
    rw [List.foldl_cons, ih, lookup_orInsert, Option.or_assoc]
    congr 1
    rw [firstWithKey, firstWithKey, SortedTable.first_cons]
    split <;> simp

/-- Both indexes answer with the first entry the destination takes for the path. -/
theorem DestIndex.get_new (dest : Snapshot) (path : RelPath) :
    (DestIndex.new tables dest folding).get tables path =
      firstWithKey tables folding dest.entries (path.key tables folding) := by
  cases folding with
  | exact =>
    have hk : (fun e : Entry => e.path.key tables .exact) = fun e => e.path.segments := by
      funext e
      exact e.path.key_exact tables
    change dest.get path = _
    rw [dest.get_eq_first, firstWithKey, hk, path.key_exact, SortedTable.first,
      SortedTable.first]
    congr 1
    funext e
    exact decide_eq_decide.mpr RelPath.segments_injective.eq_iff.symm
  | caseInsensitive =>
    change lookup _ _ = _
    rw [folded_table_lookup, lookup_nil, Option.none_or]

end Keys

end MtpxCore
