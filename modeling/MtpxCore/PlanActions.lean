import MtpxCore.SnapshotEntries

/-! The plan of `plan.rs`, the transfer options, and what a partial download found on the
destination vouches for. The totals of a plan saturate at the largest 64-bit count. -/
namespace MtpxCore

/-- Why the planner decided a file must move. -/
inductive CopyReason where
  | new
  | sizeDiffers
  deriving DecidableEq, Repr

/-- Why the planner leaves a path untouched. -/
inductive SkipReason where
  | identical
  | conflict
  | kindConflict
  | nameCollision
  deriving DecidableEq, Repr

/-- One step of a plan. -/
inductive Action where
  | mkdir (path : RelPath)
  | copy (path : RelPath) (size : ℕ) (modified : Option ModifiedTime) (resumeFrom : ℕ)
      (reason : CopyReason)
  | skip (path : RelPath) (reason : SkipReason)
  deriving DecidableEq, Repr

def Action.path : Action → RelPath
  | .mkdir path => path
  | .copy path _ _ _ _ => path
  | .skip path _ => path

/-- A skip touches neither side; the other two actions write. -/
def Action.isSkip : Action → Bool
  | .skip _ _ => true
  | _ => false

def Action.isCopy : Action → Bool
  | .copy _ _ _ _ _ => true
  | _ => false

theorem Action.isSkip_of_isCopy {a : Action} (h : a.isCopy = true) : a.isSkip = false := by
  cases a with
  | mkdir path => rfl
  | copy path size modified resumeFrom reason => rfl
  | skip path reason => exact absurd h (by simp [isCopy])

/-- `u64::MAX`. -/
def U64_MAX : ℕ := 2 ^ 64 - 1

def saturatingAdd (a b : ℕ) : ℕ := min (a + b) U64_MAX

/-- Totals of a plan. -/
structure PlanSummary where
  filesToCopy : ℕ
  bytesToCopy : ℕ
  resumableBytes : ℕ
  filesToSkip : ℕ
  deriving DecidableEq, Repr

namespace PlanSummary

def zero : PlanSummary := ⟨0, 0, 0, 0⟩

def add (summary : PlanSummary) : Action → PlanSummary
  | .copy _ size _ resumeFrom _ =>
    { summary with
      filesToCopy := saturatingAdd summary.filesToCopy 1
      bytesToCopy := saturatingAdd summary.bytesToCopy (size - resumeFrom)
      resumableBytes := saturatingAdd summary.resumableBytes resumeFrom }
  | .skip _ _ => { summary with filesToSkip := saturatingAdd summary.filesToSkip 1 }
  | .mkdir _ => summary

end PlanSummary

/-- An ordered list of actions plus the totals they add up to. -/
structure Plan where
  actions : List Action
  summary : PlanSummary
  totals : summary = actions.foldl PlanSummary.add PlanSummary.zero
  deriving DecidableEq

namespace Plan

def new (actions : List Action) : Plan := ⟨actions, _, rfl⟩

@[simp] theorem new_actions (actions : List Action) : (new actions).actions = actions := rfl

end Plan

/-- What to do when the destination has a same-path file that is not equal to the source. -/
inductive ConflictPolicy where
  | fail
  | sourceWins
  | skip
  deriving DecidableEq, Repr

structure TransferOptions where
  conflict : ConflictPolicy
  deriving DecidableEq, Repr

namespace TransferOptions

def pull : TransferOptions := ⟨.fail⟩

def sync : TransferOptions := ⟨.sourceWins⟩

end TransferOptions

/-- Identity of the source object a partial download came from. -/
structure Fingerprint where
  size : ℕ
  modified : Option ModifiedTime
  deriving DecidableEq, Repr

/-- `Fingerprint::matches`; two unknown times are equal. -/
def Fingerprint.matchesEntry (fingerprint : Fingerprint) (e : Entry) : Bool :=
  fingerprint.size = e.size && fingerprint.modified = e.modified

/-- A partial download found on the destination. -/
structure PartialInfo where
  fingerprint : Fingerprint
  bytes : ℕ
  deriving DecidableEq, Repr

/-- The partial downloads by final path; a later insertion replaces an earlier one. -/
abbrev Partials := List (RelPath × PartialInfo)

namespace Partials

def insert (partials : Partials) (path : RelPath) (info : PartialInfo) : Partials :=
  (path, info) :: partials

def get (partials : Partials) (path : RelPath) : Option PartialInfo :=
  (partials.find? (fun p => decide (p.1 = path))).map Prod.snd

theorem mem_of_get {partials : Partials} {path : RelPath} {info : PartialInfo}
    (h : partials.get path = some info) : (path, info) ∈ partials := by
  obtain ⟨p, hp, rfl⟩ := Option.map_eq_some_iff.mp h
  have hpath : p.1 = path := by simpa using List.find?_some hp
  rw [← hpath]
  exact List.mem_of_find?_eq_some hp

theorem get_of_mem {partials : Partials} {path : RelPath} {info : PartialInfo}
    (h : (path, info) ∈ partials) : ∃ info', partials.get path = some info' := by
  rw [← Option.ne_none_iff_exists', get, ne_eq, Option.map_eq_none_iff, List.find?_eq_none]
  intro hall
  exact hall (path, info) h (decide_eq_true rfl)

/-- What is recorded about a path decides what is found, once it is recorded in one way. -/
theorem get_congr {a b : Partials} {path : RelPath}
    (h : ∀ info, (path, info) ∈ a ↔ (path, info) ∈ b)
    (hb : ∀ info info', (path, info) ∈ b → (path, info') ∈ b → info = info') :
    a.get path = b.get path := by
  cases ha : a.get path with
  | some info =>
    have hm := (h info).mp (mem_of_get ha)
    obtain ⟨info', hg⟩ := get_of_mem hm
    rw [hg, hb info info' hm (mem_of_get hg)]
  | none =>
    cases hg : b.get path with
    | none => rfl
    | some info =>
      obtain ⟨info', ha'⟩ := get_of_mem ((h info).mpr (mem_of_get hg))
      rw [ha] at ha'
      exact absurd ha' (by simp)

end Partials

end MtpxCore
