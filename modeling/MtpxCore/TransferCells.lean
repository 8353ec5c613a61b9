import MtpxCore.LocalFiles

/-! The four names of one transfer: the final file, its part, the record of the part, and that
record while it is being replaced. They are always different names, so what a call does to one
of them is an update of one cell. -/
namespace MtpxCore

open CrashHoare

inductive Cell where
  | final
  | part
  | side
  | tmp
  deriving DecidableEq, Repr

def cellPath (finalPath : List OsName) : Cell → List OsName
  | .final => finalPath
  | .part => osWithSuffix finalPath PART_SUFFIX
  | .side => osWithSuffix finalPath SIDECAR_SUFFIX
  | .tmp => osWithSuffix finalPath SIDECAR_TMP_SUFFIX

/-- What the four names lead to. -/
abbrev Cells := Cell → Option Obj

def Cells.of (final part side tmp : Option Obj) : Cells
  | .final => final
  | .part => part
  | .side => side
  | .tmp => tmp

section CellsOf

variable (f p s t x : Option Obj)

@[simp] theorem Cells.of_final : Cells.of f p s t .final = f := rfl
@[simp] theorem Cells.of_part : Cells.of f p s t .part = p := rfl
@[simp] theorem Cells.of_side : Cells.of f p s t .side = s := rfl
@[simp] theorem Cells.of_tmp : Cells.of f p s t .tmp = t := rfl

@[simp] theorem Cells.update_final :
    Function.update (Cells.of f p s t) .final x = Cells.of x p s t := by
  funext c
  cases c <;> rfl

@[simp] theorem Cells.update_part :
    Function.update (Cells.of f p s t) .part x = Cells.of f x s t := by
  funext c
  cases c <;> rfl

@[simp] theorem Cells.update_side :
    Function.update (Cells.of f p s t) .side x = Cells.of f p x t := by
  funext c
  cases c <;> rfl

@[simp] theorem Cells.update_tmp :
    Function.update (Cells.of f p s t) .tmp x = Cells.of f p s x := by
  funext c
  cases c <;> rfl

end CellsOf

section Keys

variable (vol : Volume)

def cellKey (finalPath : List OsName) (x : Cell) : Key := vol.foldPath (cellPath finalPath x)

/-- What a cell's name ends in. -/
def Cell.suffix : Cell → String
  | .final => ""
  | .part => PART_SUFFIX
  | .side => SIDECAR_SUFFIX
  | .tmp => SIDECAR_TMP_SUFFIX

theorem cellPath_concat (dir : List OsName) (name : String) (x : Cell) :
    cellPath (dir ++ [.utf8 name]) x = dir ++ [.utf8 (name ++ x.suffix)] := by
  cases x with
  | final => simp [cellPath, Cell.suffix]
  | part => simp [cellPath, osWithSuffix, Cell.suffix]
  | side => simp [cellPath, osWithSuffix, Cell.suffix]
  | tmp => simp [cellPath, osWithSuffix, Cell.suffix]

/-- However letter case is folded, the four names have four lengths. -/
theorem foldName_cell_length (name : String) (x : Cell) :
    (foldName vol.tables vol.folding (name ++ x.suffix)).toList.length =
      (foldName vol.tables vol.folding name).toList.length + x.suffix.toList.length := by
  have hstem : (foldStem vol.tables vol.folding name).length =
      (foldName vol.tables vol.folding name).toList.length := by
    cases vol.folding with
    | exact => rfl
    | caseInsensitive =>
      rw [foldStem, foldName, CaseTables.toLowercase, String.toList_ofList]
      exact lowercaseIn_length vol.tables _ _ _ _
  have hsuffix (h : x.suffix ∈ RESERVED_SUFFIXES) :
      (foldName vol.tables vol.folding (name ++ x.suffix)).toList.length =
        (foldName vol.tables vol.folding name).toList.length + x.suffix.toList.length := by
    rw [foldName_suffix vol.tables vol.folding name h, List.length_append, hstem]
  cases x with
  | final => simp [Cell.suffix]
  | part => exact hsuffix (by decide)
  | side => exact hsuffix (by decide)
  | tmp => exact hsuffix (by decide)

theorem cellKey_concat (dir : List OsName) (name : String) (x : Cell) :
    cellKey vol (dir ++ [.utf8 name]) x =
      vol.foldPath dir ++ [.utf8 (foldName vol.tables vol.folding (name ++ x.suffix))] := by
  rw [cellKey, cellPath_concat, Volume.foldPath, List.map_append]
  rfl

theorem cellKey_injective (dir : List OsName) (name : String) :
    Function.Injective (cellKey vol (dir ++ [.utf8 name])) := by
  intro x y h
  rw [cellKey_concat, cellKey_concat] at h
  have hname := OsName.utf8.inj (List.singleton_inj.mp (List.append_cancel_left h))
  have hlen := congrArg (fun s => s.toList.length) hname
  rw [foldName_cell_length, foldName_cell_length, Nat.add_left_cancel_iff] at hlen
  have hall : ∀ x y : Cell, x.suffix.toList.length = y.suffix.toList.length → x = y := by
    intro x y
    cases x <;> cases y <;> decide
  exact hall x y hlen

theorem cellKey_length (dir : List OsName) (name : String) (x : Cell) :
    (cellKey vol (dir ++ [.utf8 name]) x).length = dir.length + 1 := by
  rw [cellKey_concat, List.length_append, Volume.foldPath, List.length_map, List.length_singleton]

end Keys

/-- Updating a value behind an injective name updates the extension. -/
theorem update_extend {ι κ υ : Type} {f : ι → κ} (hf : Function.Injective f) (c : ι → υ)
    (d : κ → υ) [DecidableEq ι] [DecidableEq κ] (x : ι) (v : υ) :
    Function.update (Function.extend f c d) (f x) v = Function.extend f (Function.update c x v) d := by
  funext k
  by_cases hk : ∃ y, f y = k
  · obtain ⟨y, rfl⟩ := hk
    rw [hf.extend_apply]
    by_cases hxy : y = x
    · rw [hxy, Function.update_self, Function.update_self]
    · rw [Function.update_of_ne hxy, Function.update_of_ne (fun h => hxy (hf h)), hf.extend_apply]
  · rw [Function.extend_apply' _ _ _ hk, Function.update_of_ne, Function.extend_apply' _ _ _ hk]
    rintro rfl
    exact hk ⟨x, rfl⟩

section Holds

variable (vol : Volume) (finalPath : List OsName)

/-- The cells lead to `c`, everything else to `d`. -/
def OnDisk (d : Disk) (c : Cells) (w : World) : Prop :=
  w.tree.disk vol = Function.extend (cellKey vol finalPath) c d

/-- The same; the open file owes `pending`, and at least `n` calls have been made. -/
def Holds (d : Disk) (c : Cells) (pending : Option IoErrorKind) (n : ℕ) (w : World) : Prop :=
  OnDisk vol finalPath d c w ∧ w.pending = pending ∧ n ≤ w.trace.length

variable {vol finalPath} {env : Weather} {d : Disk} {c : Cells} {pending : Option IoErrorKind}
  {n : ℕ} {w : World} (hk : Function.Injective (cellKey vol finalPath))

theorem Holds.logged {tree : LocalTree} {op : Op} {path : List OsName}
    {failure : Option IoErrorKind} {c' : Cells} (h : Holds vol finalPath d c pending n w)
    (ht : tree.disk vol = Function.extend (cellKey vol finalPath) c' d) :
    Holds vol finalPath d c' pending n (w.logged tree op path failure) := by
  refine ⟨ht, h.2.1, ?_⟩
  have hle : w.trace.length ≤ (w.logged tree op path failure).trace.length := by
    simp [World.logged]
  exact h.2.2.trans hle

include hk

theorem OnDisk.get (h : OnDisk vol finalPath d c w) (x : Cell) :
    w.tree.get vol (cellPath finalPath x) = c x := by
  rw [LocalTree.get_eq_disk, h]
  exact hk.extend_apply c d x

theorem OnDisk.put {x : Cell} {obj : Obj} {tree : LocalTree} (h : OnDisk vol finalPath d c w)
    (hp : w.tree.put vol (cellPath finalPath x) obj = .ok tree) :
    tree.disk vol = Function.extend (cellKey vol finalPath) (Function.update c x (some obj)) d := by
  rw [LocalTree.disk_put hp, h]
  exact update_extend hk c d x (some obj)

theorem OnDisk.erase (h : OnDisk vol finalPath d c w) (x : Cell) :
    (w.tree.erase vol (cellPath finalPath x)).disk vol =
      Function.extend (cellKey vol finalPath) (Function.update c x none) d := by
  rw [LocalTree.disk_erase, h]
  exact update_extend hk c d x none

end Holds

end MtpxCore
