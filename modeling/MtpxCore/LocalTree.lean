import MtpxCore.PartialRecords
import MtpxCore.CaseFolding

/-! A directory tree on a local volume. A tree is the list of its objects by path; every
lookup compares paths as the volume compares names, and an object keeps the spelling it was
created under. Paths are relative to the transfer root, whose own path is empty. Every name
has an object of its own: no two names are hard links of one file, and no name is a link to
another object of the tree. -/
namespace MtpxCore

/-- A file name. One that is not UTF-8 has a lossy text and is compared by its bytes. -/
inductive OsName where
  | utf8 (text : String)
  | raw (lossy : String) (bytes : Bytes)
  deriving DecidableEq, Repr

namespace OsName

/-- `to_string_lossy`. -/
def lossy : OsName → String
  | .utf8 text => text
  | .raw lossy _ => lossy

/-- `to_str`. -/
def toStr : OsName → Option String
  | .utf8 text => some text
  | .raw _ _ => none

end OsName

/-- What a name leads to, links followed. A dangling link leads nowhere but is there. -/
inductive Obj where
  | file (bytes : Bytes) (readable : Bool)
  | dir (readable : Bool)
  | special
  | danglingLink
  deriving DecidableEq, Repr

namespace Obj

def isFile : Obj → Bool
  | .file _ _ => true
  | _ => false

def isDir : Obj → Bool
  | .dir _ => true
  | _ => false

/-- `Metadata::len`, of a file. -/
def len : Obj → ℕ
  | .file bytes _ => bytes.length
  | _ => 0

end Obj

structure Node where
  path : List OsName
  obj : Obj
  deriving DecidableEq, Repr

/-- A volume: how it compares names, and the length it reports for a directory. -/
structure Volume where
  tables : CaseTables
  folding : NameFolding
  dirLen : ℕ

namespace Volume

variable (vol : Volume)

def foldOs : OsName → OsName
  | .utf8 text => .utf8 (foldName vol.tables vol.folding text)
  | .raw lossy bytes => .raw lossy bytes

def foldPath (path : List OsName) : List OsName := path.map vol.foldOs

end Volume

abbrev LocalTree := List Node

namespace LocalTree

variable (vol : Volume)

/-- The object the volume finds under `path`. -/
def find (tree : LocalTree) (path : List OsName) : Option Node :=
  List.find? (fun node => decide (vol.foldPath node.path = vol.foldPath path)) tree

def get (tree : LocalTree) (path : List OsName) : Option Obj := (tree.find vol path).map Node.obj

/-- No two objects under one name, for the volume. -/
def UniquePaths (tree : LocalTree) : Prop :=
  tree.Pairwise (fun a b => vol.foldPath a.path ≠ vol.foldPath b.path)

instance (tree : LocalTree) : Decidable (tree.UniquePaths vol) :=
  inferInstanceAs (Decidable (List.Pairwise _ _))

end LocalTree

/-- `RelPath::to_local_path`, relative to the root. -/
def RelPath.toLocalPath (path : RelPath) : List OsName := path.segments.map OsName.utf8

namespace LocalTree

variable {vol : Volume} {tree : LocalTree} {path : List OsName} {node : Node}

theorem find_mem (h : tree.find vol path = some node) : node ∈ tree :=
  List.mem_of_find?_eq_some h

theorem find_path (h : tree.find vol path = some node) :
    vol.foldPath node.path = vol.foldPath path := by
  simpa using List.find?_some h

theorem find_eq_none :
    tree.find vol path = none ↔ ∀ n ∈ tree, vol.foldPath n.path ≠ vol.foldPath path := by
  simp [find, List.find?_eq_none]

/-- In a well-formed tree every object is found under its path. -/
theorem UniquePaths.find (h : tree.UniquePaths vol) (hm : node ∈ tree)
    (hp : vol.foldPath node.path = vol.foldPath path) : tree.find vol path = some node := by
  induction tree with
  | nil => exact absurd hm List.not_mem_nil
  | cons n tree ih =>
    obtain ⟨hn, htree⟩ := List.pairwise_cons.mp h
    rw [LocalTree.find, List.find?_cons]
    rcases List.mem_cons.mp hm with rfl | hm
    · rw [decide_eq_true hp]
    · have hne : vol.foldPath n.path ≠ vol.foldPath path := hp ▸ hn node hm
      rw [decide_eq_false hne]
      exact ih htree hm

/-- Two objects under one name are one object. -/
theorem UniquePaths.eq (h : tree.UniquePaths vol) {a b : Node} (ha : a ∈ tree) (hb : b ∈ tree)
    (hp : vol.foldPath a.path = vol.foldPath b.path) : a = b := by
  have hfind : tree.find vol a.path = some a := h.find ha rfl
  rw [h.find hb hp.symm] at hfind
  exact (Option.some.inj hfind).symm

end LocalTree

end MtpxCore
