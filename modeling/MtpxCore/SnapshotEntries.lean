import MtpxCore.TransferErrors
import MtpxCore.SortedTable

/-! Entries and the sorted snapshot of `entry.rs`. That a directory has size zero and
that a snapshot is strictly sorted by path are fields of the two types. -/
namespace MtpxCore

inductive EntryKind where
  | file
  | dir
  deriving DecidableEq, Repr

/-- Whole seconds since the Unix epoch. -/
structure ModifiedTime where
  unixSeconds : ℕ
  deriving DecidableEq, Repr

/-- One file or directory of a scanned side. -/
structure Entry where
  path : RelPath
  kind : EntryKind
  size : ℕ
  modified : Option ModifiedTime
  dir_size : kind = EntryKind.dir → size = 0
  deriving DecidableEq, Repr

namespace Entry

def file (path : RelPath) (size : ℕ) (modified : Option ModifiedTime) : Entry :=
  ⟨path, .file, size, modified, by simp⟩

def dir (path : RelPath) (modified : Option ModifiedTime) : Entry :=
  ⟨path, .dir, 0, modified, fun _ => rfl⟩

@[simp] theorem file_path (path : RelPath) (size : ℕ) (modified : Option ModifiedTime) :
    (file path size modified).path = path := rfl

@[simp] theorem dir_path (path : RelPath) (modified : Option ModifiedTime) :
    (dir path modified).path = path := rfl

end Entry

/-- An object a side listed but could not describe. -/
structure SkippedEntry where
  parent : RelPath
  reason : SkipCause
  deriving DecidableEq, Repr

/-- Recursive listing of one root, sorted by path. -/
structure Snapshot where
  label : String
  entries : List Entry
  skipped : List SkippedEntry
  sorted : SortedTable.Strict Entry.path entries

namespace Snapshot

/-- `Snapshot::new`: entries sharing a path keep the first one given. -/
def new (label : String) (entries : List Entry) (skipped : List SkippedEntry) : Snapshot where
  label := label
  entries := SortedTable.build Entry.path entries
  skipped := skipped
  sorted := SortedTable.build_strict Entry.path entries

/-- `Snapshot::get`: exact-path lookup by binary search. -/
def get (snapshot : Snapshot) (path : RelPath) : Option Entry :=
  (SortedTable.binarySearchBy (fun e => compare e.path path) snapshot.entries).bind
    (fun i => snapshot.entries[i]?)

theorem get_eq_first (snapshot : Snapshot) (path : RelPath) :
    snapshot.get path = SortedTable.first Entry.path path snapshot.entries :=
  snapshot.sorted.binarySearchBy_eq_first path

theorem get_eq_some {snapshot : Snapshot} {path : RelPath} {e : Entry} :
    snapshot.get path = some e ↔ e ∈ snapshot.entries ∧ e.path = path := by
  rw [get_eq_first]
  constructor
  · intro h
    exact ⟨SortedTable.first_mem h, SortedTable.first_key h⟩
  · rintro ⟨hm, rfl⟩
    exact snapshot.sorted.first_eq hm

theorem new_get (label : String) (entries : List Entry) (skipped : List SkippedEntry)
    (path : RelPath) :
    (new label entries skipped).get path = SortedTable.first Entry.path path entries := by
  rw [get_eq_first]
  exact SortedTable.first_build Entry.path path entries

/-- A snapshot of entries told apart by their paths holds exactly these entries. -/
theorem mem_new {label : String} {entries : List Entry} {skipped : List SkippedEntry}
    (h : ∀ a ∈ entries, ∀ b ∈ entries, a.path = b.path → a = b) {e : Entry} :
    e ∈ (new label entries skipped).entries ↔ e ∈ entries := by
  constructor
  · intro he
    exact SortedTable.mem_of_mem_build Entry.path he
  · intro he
    have hf : SortedTable.first Entry.path e.path entries = some e := by
      cases hf : SortedTable.first Entry.path e.path entries with
      | none => exact absurd rfl (SortedTable.first_eq_none.mp hf e he)
      | some f =>
        exact congrArg some (h f (SortedTable.first_mem hf) e he (SortedTable.first_key hf))
    rw [← new_get label entries skipped, get_eq_some] at hf
    exact hf.1

/-- Two entries of a snapshot with one path are one entry. -/
theorem eq_of_path {snapshot : Snapshot} {a b : Entry} (ha : a ∈ snapshot.entries)
    (hb : b ∈ snapshot.entries) (h : a.path = b.path) : a = b :=
  snapshot.sorted.eq_of_key ha hb h

/-- The paths of a snapshot are the paths given. -/
theorem path_mem_new {label : String} {entries : List Entry} {skipped : List SkippedEntry}
    {path : RelPath} :
    (∃ e ∈ (new label entries skipped).entries, e.path = path) ↔ ∃ e ∈ entries, e.path = path := by
  constructor
  · rintro ⟨e, he, hpath⟩
    exact ⟨e, SortedTable.mem_of_mem_build Entry.path he, hpath⟩
  · rintro ⟨e, he, hpath⟩
    cases hf : SortedTable.first Entry.path path entries with
    | none => exact absurd hpath (SortedTable.first_eq_none.mp hf e he)
    | some f =>
      rw [← new_get label entries skipped, get_eq_some] at hf
      exact ⟨f, hf⟩

/-- What starts with the path of an entry stands in one run, right behind the entry. -/
theorem run_beneath (snapshot : Snapshot) {e : Entry} (he : e ∈ snapshot.entries) :
    ∃ before run after, snapshot.entries = before ++ e :: run ++ after ∧
      (∀ x ∈ run, x.path.startsWith e.path = true) ∧
      (∀ x ∈ before, x.path.startsWith e.path = false) ∧
      ∀ x ∈ after, x.path.startsWith e.path = false := by
  apply snapshot.sorted.exists_run he
  · intro x hx
    exact LexPrefix.prefix_le (RelPath.startsWith_iff.mp hx)
  · intro x y hy hex hxy
    exact RelPath.startsWith_iff.mpr
      (LexPrefix.prefix_of_between (RelPath.startsWith_iff.mp hy) hex hxy)

/-- A snapshot of any entries is sorted, holds the first entry given of every path and nothing
else, finds it by its path, and lists what lies beneath a directory right behind it. -/
theorem new_sorted_lookup (label : String) (entries : List Entry) (skipped : List SkippedEntry) :
    (new label entries skipped).entries.Pairwise (fun a b => a.path.segments < b.path.segments) ∧
    (∀ path, (∃ e ∈ (new label entries skipped).entries, e.path = path) ↔
      ∃ e ∈ entries, e.path = path) ∧
    (∀ e ∈ (new label entries skipped).entries,
      entries.find? (fun given => given.path = e.path) = some e) ∧
    (∀ path, (new label entries skipped).get path =
      entries.find? (fun given => given.path = path)) ∧
    (∀ path, (∀ e ∈ entries, e.path ≠ path) → (new label entries skipped).get path = none) ∧
    ∀ e ∈ (new label entries skipped).entries, ∃ before run after,
      (new label entries skipped).entries = before ++ e :: run ++ after ∧
      (∀ x ∈ run, x.path.startsWith e.path = true) ∧
      (∀ x ∈ before, x.path.startsWith e.path = false) ∧
      ∀ x ∈ after, x.path.startsWith e.path = false := by
  have hfirst : ∀ path, SortedTable.first Entry.path path entries =
      entries.find? (fun given => given.path = path) := by
    intro path
    apply congrArg (fun p => entries.find? p)
    funext given
    exact decide_eq_decide.mpr Iff.rfl
  have hget : ∀ path, (new label entries skipped).get path =
      entries.find? (fun given => given.path = path) := by
    intro path
    rw [new_get, hfirst]
  refine ⟨(new label entries skipped).sorted, fun _ => path_mem_new, ?_, hget, ?_, ?_⟩
  · intro e he
    rw [← hget]
    exact get_eq_some.mpr ⟨he, rfl⟩
  · intro path hnone
    rw [new_get]
    exact SortedTable.first_eq_none.mpr hnone
  · intro e he
    exact run_beneath _ he

end Snapshot

/-- A proper tree beneath its root: nothing is the root itself, and every proper
ancestor of an entry is listed as a directory. -/
structure AncestorClosed (snapshot : Snapshot) : Prop where
  nonroot : ∀ e ∈ snapshot.entries, e.path.segments ≠ []
  ancestor : ∀ e ∈ snapshot.entries, ∀ d : List String, d ≠ [] → d <+: e.path.segments →
    d ≠ e.path.segments → ∃ a ∈ snapshot.entries, a.path.segments = d ∧ a.kind = EntryKind.dir

/-- The same, checked on the listing. -/
def Snapshot.isTree (snapshot : Snapshot) : Bool :=
  snapshot.entries.all fun e => decide (e.path.segments ≠ []) &&
    (List.range e.path.segments.length).all fun n => decide (n = 0) ||
      snapshot.entries.any fun a =>
        decide (a.path.segments = e.path.segments.take n) && decide (a.kind = EntryKind.dir)

theorem Snapshot.ancestorClosed_of_isTree {snapshot : Snapshot} (h : snapshot.isTree = true) :
    AncestorClosed snapshot := by
  simp only [isTree, List.all_eq_true, Bool.and_eq_true, Bool.or_eq_true, decide_eq_true_eq,
    List.mem_range, List.any_eq_true] at h
  refine ⟨fun e he => (h e he).1, ?_⟩
  intro e he d hd hpre hne
  have hlt : d.length < e.path.segments.length :=
    lt_of_le_of_ne hpre.length_le (fun hl => hne (hpre.eq_of_length hl))
  obtain ⟨a, ha, hseg, hdir⟩ :=
    ((h e he).2 d.length hlt).resolve_left (fun h0 => hd (List.length_eq_zero_iff.mp h0))
  exact ⟨a, ha, hseg.trans (List.prefix_iff_eq_take.mp hpre).symm, hdir⟩

end MtpxCore
