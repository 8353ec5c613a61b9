import MtpxCore.TransferCells
import Mathlib.Logic.Relation
import Mathlib.Data.List.Infix

/-! What a transfer may do to a tree, move by move: add a folder above its four names, put a
file under one of them, or erase what is under one of them. No move changes a folder that is
there, so the spelling of every folder is the one it was created under. -/
namespace MtpxCore

namespace LocalTree

variable (vol : Volume)

/-- No two objects under one name, and every object in a folder that is there. -/
structure WellFormed (tree : LocalTree) : Prop where
  unique : tree.UniquePaths vol
  nested : ∀ node ∈ tree, node.path ≠ [] → ∃ readable, Node.mk node.path.dropLast (.dir readable) ∈ tree

/-- Whatever `path` leads to, it is no folder. -/
def NoFolder (tree : LocalTree) (path : List OsName) : Prop :=
  (tree.get vol path).all (fun obj => !obj.isDir) = true

variable {vol} {tree tree' : LocalTree} {path : List OsName} {obj : Obj} {node : Node}

theorem get_of_find (h : tree.find vol path = some node) : tree.get vol path = some node.obj := by
  rw [get, h]
  rfl

theorem NoFolder.find (h : tree.NoFolder vol path) (hf : tree.find vol path = some node) :
    node.obj.isDir = false := by
  rw [NoFolder, get_of_find hf] at h
  simpa using h

theorem noFolder_of_find_none (h : tree.find vol path = none) : tree.NoFolder vol path := by
  rw [NoFolder, get, h]
  rfl

theorem noFolder_of_get (h : ∀ readable, tree.get vol path ≠ some (.dir readable)) :
    tree.NoFolder vol path := by
  rw [NoFolder]
  cases hget : tree.get vol path with
  | none => rfl
  | some obj =>
    cases obj with
    | dir readable => exact absurd hget (h readable)
    | file bytes readable => rfl
    | special => rfl
    | danglingLink => rfl

/-- A folder of the tree lies under another name. -/
theorem NoFolder.ne (h : tree.NoFolder vol path) (hu : tree.UniquePaths vol) (hm : node ∈ tree)
    (hdir : node.obj.isDir = true) : vol.foldPath node.path ≠ vol.foldPath path := by
  intro hp
  have hfile := h.find (hu.find hm hp)
  rw [hdir] at hfile
  exact absurd hfile (by simp)

/-- The new object of a put that finds nothing there: the root, or one more name in a folder
that is there, whatever its spelling. -/
structure Added (vol : Volume) (tree : LocalTree) (path : List OsName) (obj : Obj) (node : Node) :
    Prop where
  obj : node.obj = obj
  free : tree.find vol path = none
  key : vol.foldPath node.path = vol.foldPath path
  name : node.path.getLast? = path.getLast?
  folder : node.path ≠ [] → ∃ readable, Node.mk node.path.dropLast (.dir readable) ∈ tree

/-- The two ends of a put: it replaces, or it adds. -/
theorem put_cases (h : tree.put vol path obj = .ok tree') :
    ((∃ node, tree.find vol path = some node) ∧ tree' = tree.map fun node =>
        if vol.foldPath node.path = vol.foldPath path then { node with obj := obj } else node) ∨
      ∃ node, Added vol tree path obj node ∧ tree' = tree ++ [node] := by
  unfold put at h
  split at h
  · rename_i node hnode
    exact Or.inl ⟨⟨node, hnode⟩, (Except.ok.inj h).symm⟩
  · rename_i hnone
    right
    split at h
    · rename_i hlast
      have hroot := List.getLast?_eq_none_iff.mp hlast
      subst hroot
      exact ⟨_, ⟨rfl, hnone, rfl, rfl, fun hne => absurd rfl hne⟩, (Except.ok.inj h).symm⟩
    · rename_i name hlast
      split at h
      · rename_i dir readable hdir
        refine ⟨_, ⟨rfl, hnone, ?_, ?_, fun _ => ⟨readable, ?_⟩⟩, (Except.ok.inj h).symm⟩
        · obtain ⟨parent, rfl⟩ := List.getLast?_eq_some_iff.mp hlast
          rw [List.dropLast_concat] at hdir
          have hkey := find_path hdir
          rw [Volume.foldPath, Volume.foldPath] at hkey ⊢
          rw [List.map_append, List.map_append, hkey]
        · rw [List.getLast?_concat, hlast]
        · rw [List.dropLast_concat]
          exact find_mem hdir
      all_goals exact absurd h (by simp)

/-- A put leaves every other object. -/
theorem mem_put_of_ne (h : tree.put vol path obj = .ok tree') (hm : node ∈ tree)
    (hne : vol.foldPath node.path ≠ vol.foldPath path) : node ∈ tree' := by
  rcases put_cases h with ⟨-, rfl⟩ | ⟨added, -, rfl⟩
  · apply List.mem_map.mpr
    exact ⟨node, hm, if_neg hne⟩
  · exact List.mem_append_left _ hm

/-- A put brings no object under another name. -/
theorem mem_of_mem_put (h : tree.put vol path obj = .ok tree') (hm : node ∈ tree')
    (hne : vol.foldPath node.path ≠ vol.foldPath path) : node ∈ tree := by
  rcases put_cases h with ⟨-, rfl⟩ | ⟨added, hadded, rfl⟩
  · obtain ⟨old, hold, rfl⟩ := List.mem_map.mp hm
    by_cases hk : vol.foldPath old.path = vol.foldPath path
    · rw [if_pos hk] at hne
      exact absurd hk hne
    · rwa [if_neg hk]
  · rcases List.mem_append.mp hm with hm | hm
    · exact hm
    · rw [List.mem_singleton.mp hm] at hne
      exact absurd hadded.key hne

theorem mem_erase {path : List OsName} :
    node ∈ tree.erase vol path ↔ node ∈ tree ∧ vol.foldPath node.path ≠ vol.foldPath path := by
  simp [erase]

theorem find_erase (tree : LocalTree) (path : List OsName) : (tree.erase vol path).find vol path = none := by
  rw [find_eq_none]
  intro node hm
  exact (mem_erase.mp hm).2

/-- Names stay unique and folders stay where they are, as long as no folder is replaced. -/
theorem WellFormed.put (h : tree.WellFormed vol) (hp : tree.put vol path obj = .ok tree')
    (hno : tree.NoFolder vol path) : tree'.WellFormed vol := by
  have hparent {p : List OsName} (hex : ∃ readable, Node.mk p (.dir readable) ∈ tree) :
      ∃ readable, Node.mk p (.dir readable) ∈ tree' := by
    obtain ⟨readable, hm⟩ := hex
    exact ⟨readable, mem_put_of_ne hp hm (hno.ne h.unique hm rfl)⟩
  rcases put_cases hp with ⟨-, rfl⟩ | ⟨added, hadded, rfl⟩
  · refine ⟨?_, fun node hm hne => hparent ?_⟩
    · apply List.pairwise_map.mpr
      refine h.unique.imp fun {a b} hab => ?_
      have hpath (n : Node) : (if vol.foldPath n.path = vol.foldPath path then { n with obj := obj }
          else n).path = n.path := by
        split <;> rfl
      rwa [hpath, hpath]
    · obtain ⟨old, hold, rfl⟩ := List.mem_map.mp hm
      have hpath : (if vol.foldPath old.path = vol.foldPath path then { old with obj := obj }
          else old).path = old.path := by
        split <;> rfl
      rw [hpath] at hne ⊢
      exact h.nested old hold hne
  · refine ⟨?_, fun node hm hne => hparent ?_⟩
    · refine List.pairwise_append.mpr ⟨h.unique, List.pairwise_singleton _ _, ?_⟩
      intro a ha b hb
      rw [List.mem_singleton.mp hb, hadded.key]
      exact find_eq_none.mp hadded.free a ha
    · rcases List.mem_append.mp hm with hm | hm
      · exact h.nested node hm hne
      · rw [List.mem_singleton.mp hm] at hne ⊢
        exact hadded.folder hne

theorem WellFormed.erase (h : tree.WellFormed vol) (hno : tree.NoFolder vol path) :
    (tree.erase vol path).WellFormed vol := by
  refine ⟨List.Pairwise.filter _ h.unique, fun node hm hne => ?_⟩
  obtain ⟨readable, hparent⟩ := h.nested node (mem_erase.mp hm).1 hne
  exact ⟨readable, mem_erase.mpr ⟨hparent, hno.ne h.unique hparent rfl⟩⟩

end LocalTree

/-- One move of the transfer to `finalPath`. -/
inductive Move (vol : Volume) (finalPath : List OsName) (tree : LocalTree) : LocalTree → Prop
  | folder {dir : List OsName} {tree' : LocalTree} : dir ∈ finalPath.dropLast.inits →
      tree.find vol dir = none → tree.put vol dir (.dir true) = .ok tree' →
      Move vol finalPath tree tree'
  | file {x : Cell} {obj : Obj} {tree' : LocalTree} : tree.NoFolder vol (cellPath finalPath x) →
      tree.put vol (cellPath finalPath x) obj = .ok tree' → Move vol finalPath tree tree'
  | erase {x : Cell} : tree.NoFolder vol (cellPath finalPath x) →
      Move vol finalPath tree (tree.erase vol (cellPath finalPath x))

/-- Any number of moves. -/
abbrev Moves (vol : Volume) (finalPath : List OsName) : LocalTree → LocalTree → Prop :=
  Relation.ReflTransGen (Move vol finalPath)

/-- Whatever the volume finds for the folder `dir`, or for one above it, is that folder, spelled
so, and can be listed. -/
def Spelled (vol : Volume) (dir : List OsName) (tree : LocalTree) : Prop :=
  ∀ node ∈ tree, ∀ d ∈ dir.inits, vol.foldPath node.path = vol.foldPath d → node = ⟨d, .dir true⟩

section Moving

variable {vol : Volume} {finalPath : List OsName} {tree tree' : LocalTree} {node : Node}

theorem Volume.foldPath_length (vol : Volume) (path : List OsName) :
    (vol.foldPath path).length = path.length := List.length_map _

theorem Volume.length_eq_of_fold {vol : Volume} {a b : List OsName}
    (h : vol.foldPath a = vol.foldPath b) : a.length = b.length := by
  rw [← vol.foldPath_length a, h, vol.foldPath_length]

theorem Move.wellFormed (h : Move vol finalPath tree tree') (hw : tree.WellFormed vol) :
    tree'.WellFormed vol := by
  cases h with
  | folder _ hfree hput => exact hw.put hput (LocalTree.noFolder_of_find_none hfree)
  | file hno hput => exact hw.put hput hno
  | erase hno => exact hw.erase hno

theorem Moves.wellFormed (h : Moves vol finalPath tree tree') (hw : tree.WellFormed vol) :
    tree'.WellFormed vol := by
  induction h with
  | refl => exact hw
  | tail _ hmove ih => exact hmove.wellFormed ih

/-- The four names lie in the folder of the transfer. -/
theorem cellPath_length {name : OsName} {dir : List OsName} (x : Cell) :
    (cellPath (dir ++ [name]) x).length = dir.length + 1 := by
  have hsuffix (suffix : String) : (osWithSuffix (dir ++ [name]) suffix).length = dir.length + 1 := by
    unfold osWithSuffix
    rw [List.getLast?_concat]
    cases name <;> simp
  cases x with
  | final => simp [cellPath]
  | part => exact hsuffix _
  | side => exact hsuffix _
  | tmp => exact hsuffix _

/-- What is no deeper than the folder of the transfer lies under none of the four names. -/
theorem fold_ne_cell (hne : finalPath ≠ []) {path : List OsName}
    (hlen : path.length ≤ finalPath.dropLast.length) (x : Cell) :
    vol.foldPath path ≠ vol.foldPath (cellPath finalPath x) := by
  intro h
  have heq := Volume.length_eq_of_fold h
  rw [← List.dropLast_append_getLast hne, cellPath_length] at heq
  omega

/-- What is no deeper than the folder of the transfer stays as it is. -/
theorem Move.keeps (h : Move vol finalPath tree tree') (hne : finalPath ≠ []) (hm : node ∈ tree)
    (hlen : node.path.length ≤ finalPath.dropLast.length) : node ∈ tree' := by
  cases h with
  | folder _ hfree hput => exact LocalTree.mem_put_of_ne hput hm (LocalTree.find_eq_none.mp hfree node hm)
  | file _ hput => exact LocalTree.mem_put_of_ne hput hm (fold_ne_cell hne hlen _)
  | erase _ => exact LocalTree.mem_erase.mpr ⟨hm, fold_ne_cell hne hlen _⟩

theorem Moves.keeps (h : Moves vol finalPath tree tree') (hne : finalPath ≠ []) (hm : node ∈ tree)
    (hlen : node.path.length ≤ finalPath.dropLast.length) : node ∈ tree' := by
  induction h with
  | refl => exact hm
  | tail _ hmove ih => exact hmove.keeps hne ih hlen

/-- A new object is spelled as it was asked for where the folders above it are. -/
theorem LocalTree.Added.spelled {top d : List OsName} {obj : Obj}
    (h : LocalTree.Added vol tree d obj node) (hs : Spelled vol top tree) (hd : d ∈ top.inits) :
    node.path = d := by
  rcases List.eq_nil_or_concat d with rfl | ⟨parent, name, rfl⟩
  · exact List.length_eq_zero_iff.mp (Volume.length_eq_of_fold h.key)
  · have hkey := h.key
    have hlast := h.name
    rw [List.concat_eq_append] at hkey hlast hd ⊢
    rw [List.getLast?_concat] at hlast
    obtain ⟨init, hinit⟩ := List.getLast?_eq_some_iff.mp hlast
    have hfolder := h.folder
    rw [hinit, List.dropLast_concat] at hfolder
    obtain ⟨readable, hparent⟩ := hfolder (by simp)
    have hfold : vol.foldPath init = vol.foldPath parent := by
      rw [hinit, Volume.foldPath, Volume.foldPath, List.map_append, List.map_append] at hkey
      exact (List.append_inj' hkey rfl).1
    have habove : parent ∈ top.inits :=
      (List.mem_inits _ _).mpr ((List.prefix_append _ _).trans ((List.mem_inits _ _).mp hd))
    have hsame : init = parent := congrArg Node.path (hs _ hparent parent habove hfold)
    rw [hinit, hsame]

/-- A folder is added under the spelling the transfer gives it, if the folders above it have
theirs. -/
theorem Move.spelled (h : Move vol finalPath tree tree') (hne : finalPath ≠ [])
    (hs : Spelled vol finalPath.dropLast tree) : Spelled vol finalPath.dropLast tree' := by
  intro node hm d hd hkey
  have hlen : node.path.length ≤ finalPath.dropLast.length := by
    rw [Volume.length_eq_of_fold hkey]
    exact (List.mem_inits _ _ |>.mp hd).length_le
  cases h with
  | folder hdir hfree hput =>
    rename_i dir
    by_cases hk : vol.foldPath node.path = vol.foldPath dir
    · rcases LocalTree.put_cases hput with ⟨⟨old, hold⟩, -⟩ | ⟨added, hadded, rfl⟩
      · rw [hfree] at hold
        exact absurd hold (by simp)
      · have hnode : node = added := by
          rcases List.mem_append.mp hm with hm | hm
          · exact absurd hk (LocalTree.find_eq_none.mp hfree node hm)
          · exact List.mem_singleton.mp hm
        -- both `d` and `dir` lead to the new folder, and so are as long
        have hsame : d = dir := by
          have hl : d.length = dir.length := Volume.length_eq_of_fold (hkey.symm.trans hk)
          rw [List.prefix_iff_eq_take.mp ((List.mem_inits _ _).mp hd),
            List.prefix_iff_eq_take.mp ((List.mem_inits _ _).mp hdir), hl]
        have hpath : added.path = dir := hadded.spelled hs hdir
        have hobj := hadded.obj
        obtain ⟨p, o⟩ := added
        change p = dir at hpath
        change o = Obj.dir true at hobj
        rw [hnode, hsame, hpath, hobj]
    · exact hs node (LocalTree.mem_of_mem_put hput hm hk) d hd hkey
  | file _ hput =>
    exact hs node (LocalTree.mem_of_mem_put hput hm (fold_ne_cell hne hlen _)) d hd hkey
  | erase _ => exact hs node (LocalTree.mem_erase.mp hm).1 d hd hkey

theorem Moves.spelled (h : Moves vol finalPath tree tree') (hne : finalPath ≠ [])
    (hs : Spelled vol finalPath.dropLast tree) : Spelled vol finalPath.dropLast tree' := by
  induction h with
  | refl => exact hs
  | tail _ hmove ih => exact hmove.spelled hne ih

end Moving

end MtpxCore
