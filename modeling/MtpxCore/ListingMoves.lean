import MtpxCore.LocalListing
import MtpxCore.PartWriterGuards
import MtpxCore.PullHistories

/-! What the moves of a pull do to what a scan shows. Transfer files stay hidden, a folder that
is made shows as an empty folder, and a commit shows as the file that was copied. -/
namespace MtpxCore

open CrashHoare

/-- Whatever file lies under one of `names` has a reserved name itself. -/
def HiddenUnder (vol : Volume) (names : Set Key) (tree : LocalTree) : Prop :=
  ∀ node ∈ tree, vol.foldPath node.path ∈ names → node.obj.isFile = true →
    isReservedName node.name = true

/-- A plain tree that shows `held`, with the transfer files under `names` hidden. -/
structure Shows (vol : Volume) (names : Set Key) (held : Store) (tree : LocalTree) : Prop where
  wellFormed : tree.WellFormed vol
  plain : tree.Plain
  hidden : HiddenUnder vol names tree
  store : tree.store vol = held

section Names

variable {vol : Volume} {tree tree' : LocalTree} {path : List OsName} {obj : Obj} {node : Node}

theorem Node.name_concat {dir : List OsName} {name : String} (obj : Obj) :
    (Node.mk (dir ++ [.utf8 name]) obj).name = name := by
  rw [Node.name, List.getLast?_concat]
  rfl

theorem Node.name_of_getLast {other : List OsName} (h : node.path.getLast? = other.getLast?) (o : Obj) :
    node.name = (Node.mk other o).name := by
  rw [Node.name, h]
  rfl

theorem utf8_map_injective : Function.Injective (List.map OsName.utf8) :=
  List.map_injective_iff.mpr fun _ _ h => OsName.utf8.inj h

/-- A valid name in a folder that can be named can be named. -/
theorem relative_concat {dir : List OsName} {name : String}
    (hdir : ∃ path, relative dir = .ok path) (hname : validateSegment name = .ok ()) :
    ∃ path, relative (dir ++ [.utf8 name]) = .ok path := by
  obtain ⟨folder, hfolder⟩ := hdir
  have hvalid : ∀ segment ∈ folder.segments ++ [name], validateSegment segment = .ok () := by
    intro segment hm
    rcases List.mem_append.mp hm with hm | hm
    · exact folder.valid segment hm
    · rw [List.mem_singleton.mp hm]
      exact hname
  refine ⟨⟨folder.segments ++ [name], hvalid⟩, ?_⟩
  have hrel := relative_toLocalPath ⟨folder.segments ++ [name], hvalid⟩
  rw [relative_ok hfolder]
  rw [RelPath.toLocalPath, List.map_append] at hrel
  exact hrel

/-- The last name of a path is a valid one. -/
theorem toLocalPath_last {p : RelPath} (h : p.segments ≠ []) : ∃ dir name,
    p.toLocalPath = dir ++ [.utf8 name] ∧ p.segments.getLast? = some name ∧
      validateSegment name = .ok () := by
  obtain ⟨dir, name, hseg⟩ := List.eq_nil_or_concat p.segments |>.resolve_left h
  rw [List.concat_eq_append] at hseg
  refine ⟨dir.map OsName.utf8, name, ?_, ?_, p.valid name (by simp [hseg])⟩
  · rw [RelPath.toLocalPath, hseg, List.map_append]
    rfl
  · rw [hseg, List.getLast?_concat]

/-- The object a put leaves: under the name that was there, or under a new one. -/
theorem exists_put (h : tree.put vol path obj = .ok tree') : ∃ node ∈ tree', node.obj = obj ∧
    vol.foldPath node.path = vol.foldPath path ∧
      ((∃ old ∈ tree, old.path = node.path) ∨ LocalTree.Added vol tree path obj node) := by
  rcases LocalTree.put_cases h with ⟨⟨old, hold⟩, rfl⟩ | ⟨node, hadded, rfl⟩
  · have hm := LocalTree.find_mem hold
    have hkey := LocalTree.find_path hold
    refine ⟨{ old with obj := obj }, ?_, rfl, hkey, Or.inl ⟨old, hm, rfl⟩⟩
    refine List.mem_map.mpr ⟨old, hm, ?_⟩
    rw [if_pos hkey]
  · exact ⟨node, List.mem_append_right _ (List.mem_singleton_self node), hadded.obj, hadded.key,
      Or.inr hadded⟩

/-- A new object in a folder that can be named can be named. -/
theorem LocalTree.Added.named (h : LocalTree.Added vol tree path obj node) (hp : tree.Plain) {dir : List OsName}
    {name : String} (hpath : path = dir ++ [.utf8 name]) (hname : validateSegment name = .ok ()) :
    ∃ path, relative node.path = .ok path := by
  have hlast := h.name
  rw [hpath, List.getLast?_concat] at hlast
  obtain ⟨parent, hparent⟩ := List.getLast?_eq_some_iff.mp hlast
  have hfolder := h.folder
  rw [hparent, List.dropLast_concat] at hfolder
  obtain ⟨readable, hm⟩ := hfolder (by simp)
  rw [hparent]
  exact relative_concat (hp.names _ hm Node.isTransferFile_dir rfl) hname

end Names

section Changes

variable {vol : Volume} {names : Set Key} {held : Store} {tree tree' : LocalTree}
  {path : List OsName} {obj : Obj} {key : List String}

/-- Trees that agree away from `place` show the same away from it. -/
theorem store_of_agree (hu : tree.UniquePaths vol) (hu' : tree'.UniquePaths vol) {place : Key}
    (hsame : ∀ node, vol.foldPath node.path ≠ place → (node ∈ tree' ↔ node ∈ tree))
    (hkey : key.map OsName.utf8 ≠ place) : tree'.store vol key = tree.store vol key := by
  apply Option.ext
  intro x
  rw [hu.store_eq_some, hu'.store_eq_some]
  constructor
  · intro hex
    obtain ⟨node, hm, hplace, hheld⟩ := hex
    exact ⟨node, (hsame node (hplace ▸ hkey)).mp hm, hplace, hheld⟩
  · intro hex
    obtain ⟨node, hm, hplace, hheld⟩ := hex
    exact ⟨node, (hsame node (hplace ▸ hkey)).mpr hm, hplace, hheld⟩

theorem store_at (hu : tree.UniquePaths vol) {node : Node} (hm : node ∈ tree)
    (hkey : vol.foldPath node.path = key.map OsName.utf8) : tree.store vol key = node.held := by
  rw [LocalTree.store, hu.nodeAt_eq_some.mpr ⟨hm, hkey⟩]
  rfl

theorem store_none (hno : ∀ node ∈ tree, vol.foldPath node.path ≠ key.map OsName.utf8) :
    tree.store vol key = none := by
  have hnode : tree.nodeAt vol (key.map OsName.utf8) = none := by
    rw [LocalTree.nodeAt, List.find?_eq_none]
    intro node hm
    simpa using hno node hm
  rw [LocalTree.store, hnode]
  rfl

/-- Under one of the names a scan shows nothing but a folder. -/
theorem Shows.hides (h : Shows vol names held tree) {node : Node} (hm : node ∈ tree)
    (hin : vol.foldPath node.path ∈ names) (hdir : node.obj.isDir = false) : node.held = none := by
  rw [Node.held]
  split
  · rfl
  · rename_i hout
    rw [not_or, Bool.not_eq_true] at hout
    cases hobj : node.obj with
    | file bytes readable =>
      have hreserved := h.hidden node hm hin (by rw [hobj]; rfl)
      rw [Node.isTransferFile, hobj, hreserved] at hout
      exact absurd hout.2 (by simp [Obj.isFile])
    | dir readable =>
      rw [hobj] at hdir
      exact absurd hdir (by simp [Obj.isDir])
    | special => rfl
    | danglingLink => rfl

/-- A put away from any folder: what it leaves there shows, and nothing else changes. -/
theorem Shows.put (h : Shows vol names held tree) (hput : tree.put vol path obj = .ok tree')
    (hno : tree.NoFolder vol path) {node : Node} (hm : node ∈ tree')
    (hkey : vol.foldPath node.path = vol.foldPath path)
    (hlink : node.path ≠ [] → node.obj ≠ .danglingLink)
    (hfolder : node.obj.isDir = true → node.obj = .dir true)
    (hname : node.isTransferFile = false → (kindOf node.obj).isSome = true →
      ∃ p, relative node.path = .ok p)
    (hhidden : vol.foldPath path ∈ names → node.obj.isFile = true → isReservedName node.name = true) :
    Shows vol names (fun key => if key.map OsName.utf8 = vol.foldPath path then node.held
      else held key) tree' := by
  have hwell := h.wellFormed.put hput hno
  -- every other object was there before, and at another place
  have hother (n : Node) (hn : n ∈ tree') (hne : n ≠ node) :
      n ∈ tree ∧ vol.foldPath n.path ≠ vol.foldPath path := by
    have hplace : vol.foldPath n.path ≠ vol.foldPath path := fun heq =>
      hne (hwell.unique.eq hn hm (heq.trans hkey.symm))
    exact ⟨LocalTree.mem_of_mem_put hput hn hplace, hplace⟩
  refine ⟨hwell, ⟨fun n hn => ?_, fun n hn => ?_, fun n hn => ?_⟩, fun n hn hin => ?_, ?_⟩
  · by_cases hne : n = node
    · exact hne ▸ hlink
    · exact h.plain.links n (hother n hn hne).1
  · by_cases hne : n = node
    · exact hne ▸ hfolder
    · exact h.plain.folders n (hother n hn hne).1
  · by_cases hne : n = node
    · exact hne ▸ hname
    · exact h.plain.names n (hother n hn hne).1
  · by_cases hne : n = node
    · subst hne
      exact hhidden (hkey ▸ hin)
    · exact h.hidden n (hother n hn hne).1 hin
  · funext k
    split
    · rename_i hk
      exact store_at hwell.unique hm (hkey.trans hk.symm)
    · rename_i hk
      rw [store_of_agree h.wellFormed.unique hwell.unique (fun n hne => ?_) hk, h.store]
      exact ⟨fun hn => LocalTree.mem_of_mem_put hput hn hne,
        fun hn => LocalTree.mem_put_of_ne hput hn hne⟩

theorem Shows.erase (h : Shows vol names held tree) (hno : tree.NoFolder vol path) :
    Shows vol names (fun key => if key.map OsName.utf8 = vol.foldPath path then none else held key)
      (tree.erase vol path) := by
  have hwell := h.wellFormed.erase hno
  refine ⟨hwell, ⟨fun n hn => h.plain.links n (LocalTree.mem_erase.mp hn).1,
    fun n hn => h.plain.folders n (LocalTree.mem_erase.mp hn).1,
    fun n hn => h.plain.names n (LocalTree.mem_erase.mp hn).1⟩,
    fun n hn => h.hidden n (LocalTree.mem_erase.mp hn).1, ?_⟩
  funext k
  split
  · rename_i hk
    refine store_none fun n hn heq => ?_
    exact (LocalTree.mem_erase.mp hn).2 (heq.trans hk)
  · rename_i hk
    rw [store_of_agree h.wellFormed.unique hwell.unique (fun n hne => ?_) hk, h.store]
    exact ⟨fun hn => (LocalTree.mem_erase.mp hn).1, fun hn => LocalTree.mem_erase.mpr ⟨hn, hne⟩⟩

/-- What is under a hidden name and no folder does not show. -/
theorem Shows.held_hidden (h : Shows vol names held tree) (hin : vol.foldPath path ∈ names)
    (hno : tree.NoFolder vol path) (hk : key.map OsName.utf8 = vol.foldPath path) : held key = none := by
  rw [← h.store]
  cases hs : tree.store vol key with
  | none => rfl
  | some x =>
    obtain ⟨node, hm, hkey, hheld⟩ := h.wellFormed.unique.store_eq_some.mp hs
    have hplace : vol.foldPath node.path = vol.foldPath path := hkey.trans hk
    have hdir := hno.find (h.wellFormed.unique.find hm hplace)
    rw [h.hides hm (hplace ▸ hin) hdir] at hheld
    exact absurd hheld (by simp)

/-- A change under a hidden name that leaves nothing to show changes nothing that shows. -/
theorem Shows.still (h : Shows vol names held tree) (hin : vol.foldPath path ∈ names)
    (hno : tree.NoFolder vol path) {x : Option Held} (hx : x = none)
    (h' : Shows vol names (fun key => if key.map OsName.utf8 = vol.foldPath path then x
      else held key) tree') : Shows vol names held tree' := by
  have hsame : (fun key => if key.map OsName.utf8 = vol.foldPath path then x else held key) = held := by
    funext k
    split
    · rename_i hk
      rw [hx, h.held_hidden hin hno hk]
    · rfl
  rwa [hsame] at h'

theorem Shows.erase_hidden (h : Shows vol names held tree) (hin : vol.foldPath path ∈ names)
    (hno : tree.NoFolder vol path) : Shows vol names held (tree.erase vol path) :=
  h.still hin hno rfl (h.erase hno)

/-- A file or anything but a folder under a hidden name, where a file was or nothing. -/
theorem Shows.put_hidden (h : Shows vol names held tree) (hin : vol.foldPath path ∈ names)
    (hput : tree.put vol path obj = .ok tree') (hno : tree.NoFolder vol path)
    (hold : ∀ old ∈ tree, vol.foldPath old.path = vol.foldPath path → old.obj.isFile = true)
    (hreserved : isReservedName (Node.mk path obj).name = true) (hdir : obj.isDir = false)
    (hlink : obj ≠ .danglingLink) : Shows vol names held tree' := by
  obtain ⟨node, hm, hobj, hkey, hfrom⟩ := exists_put hput
  have hname : isReservedName node.name = true := by
    rcases hfrom with ⟨old, hmold, hpath⟩ | hadded
    · have hplace : vol.foldPath old.path = vol.foldPath path := by rw [hpath, hkey]
      have hreserved := h.hidden old hmold (hplace ▸ hin) (hold old hmold hplace)
      rwa [Node.name, hpath] at hreserved
    · rwa [Node.name_of_getLast hadded.name obj]
  have hnone : node.held = none := by
    rw [Node.held, Node.isTransferFile, hname, hobj]
    cases obj with
    | file bytes readable => exact if_pos (Or.inr rfl)
    | dir readable => exact absurd hdir (by simp [Obj.isDir])
    | special => exact ite_self _
    | danglingLink => exact ite_self _
  refine h.still hin hno hnone (h.put hput hno hm hkey (fun _ => hobj ▸ hlink) (fun hd => ?_)
    (fun htransfer hkind => ?_) fun _ _ => hname)
  · rw [hobj, hdir] at hd
    exact absurd hd (by simp)
  · rw [Node.isTransferFile, hname, Bool.and_true, hobj] at htransfer
    rw [hobj] at hkind
    cases obj with
    | file bytes readable => exact absurd htransfer (by simp [Obj.isFile])
    | dir readable => exact absurd hdir (by simp [Obj.isDir])
    | special => exact absurd hkind (by simp [kindOf])
    | danglingLink => exact absurd hkind (by simp [kindOf])

/-- The root of the transfer does not show. -/
theorem Shows.put_root (h : Shows vol names held tree) (hfree : tree.find vol [] = none)
    (hput : tree.put vol [] (.dir true) = .ok tree') : Shows vol names held tree' := by
  obtain ⟨node, hm, hobj, hkey, -⟩ := exists_put hput
  have hroot : node.path = [] := List.length_eq_zero_iff.mp (Volume.length_eq_of_fold hkey)
  have hput' := h.put hput (LocalTree.noFolder_of_find_none hfree) hm hkey
    (fun hne => absurd hroot hne) (fun _ => hobj) (fun _ _ => ⟨RelPath.root, by rw [hroot]; rfl⟩)
    (fun _ hfile => absurd hfile (by simp [hobj, Obj.isFile]))
  have hsame : (fun key => if key.map OsName.utf8 = vol.foldPath [] then node.held else held key) =
      held := by
    funext k
    split
    · rename_i hk
      rw [show node.held = none from if_pos (Or.inl hroot), ← h.store, store_none]
      intro n hn heq
      exact LocalTree.find_eq_none.mp hfree n hn (heq.trans hk)
    · rfl
  rwa [hsame] at hput'

/-- What a name leads to, told from what shows. -/
theorem Shows.exists_node (h : Shows vol names held tree) {p : RelPath} {x : Held}
    (hx : held (p.key vol.tables vol.folding) = some x) :
    ∃ node ∈ tree, vol.foldPath node.path = vol.foldPath p.toLocalPath ∧ node.held = some x := by
  rw [← h.store] at hx
  obtain ⟨node, hm, hkey, hheld⟩ := h.wellFormed.unique.store_eq_some.mp hx
  exact ⟨node, hm, hkey.trans (foldPath_toLocalPath vol p).symm, hheld⟩

/-- What shows at a path, told from the tree. -/
theorem Shows.held_at (h : Shows vol names held tree) {p : RelPath} {node : Node} (hm : node ∈ tree)
    (hkey : vol.foldPath node.path = vol.foldPath p.toLocalPath) :
    held (p.key vol.tables vol.folding) = node.held := by
  rw [← h.store]
  exact store_at h.wellFormed.unique hm (hkey.trans (foldPath_toLocalPath vol p))

end Changes

section Copies

variable {vol : Volume} {names : Set Key} {held : Store} {tree tree' : LocalTree} {p : RelPath}
  {x : Option Held}

/-- Every folder above `p` shows. -/
def FoldersShow (vol : Volume) (held : Store) (p : RelPath) : Prop :=
  ∀ q : RelPath, q.segments <+: p.segments → q.segments ≠ [] → q.segments ≠ p.segments →
    held (q.key vol.tables vol.folding) ≠ none

/-- The transfer files of `p` are among the hidden ones, and `p` is not. -/
structure NamedApart (vol : Volume) (names : Set Key) (p : RelPath) : Prop where
  nonroot : p.segments ≠ []
  transfer : ∀ x, x ≠ Cell.final → cellKey vol p.toLocalPath x ∈ names
  final : cellKey vol p.toLocalPath .final ∉ names

/-- The tree shows one of the destinations in `S`. -/
def ShowsOne (vol : Volume) (names : Set Key) (S : Set Store) (tree : LocalTree) : Prop :=
  ∃ held ∈ S, Shows vol names held tree

theorem showsOne_singleton : ShowsOne vol names {held} tree ↔ Shows vol names held tree := by
  simp [ShowsOne]

theorem update_shown : (fun key => if key.map OsName.utf8 = vol.foldPath p.toLocalPath then x
    else held key) = Function.update held (p.key vol.tables vol.folding) x := by
  funext key
  rw [Function.update_apply, foldPath_toLocalPath]
  by_cases hk : key = p.key vol.tables vol.folding
  · rw [if_pos hk, if_pos (congrArg _ hk)]
  · rw [if_neg hk, if_neg fun h => hk (utf8_map_injective h)]

theorem cell_reserved (hp : p.segments ≠ []) {x : Cell} (hx : x ≠ .final) (obj : Obj) :
    isReservedName (Node.mk (cellPath p.toLocalPath x) obj).name = true := by
  obtain ⟨dir, name, hlocal⟩ := toLocalPath_concat hp
  rw [hlocal, cellPath_concat, Node.name_concat]
  exact isReservedName_iff.mpr ⟨name, x.suffix, Cell.suffix_mem hx, rfl⟩

/-- A folder above `p` that is not the root has a path of its own. -/
theorem exists_above {d : List OsName} (hd : d <+: p.toLocalPath) :
    ∃ q : RelPath, d = q.toLocalPath ∧ q.segments <+: p.segments := by
  obtain ⟨q, hq⟩ : ∃ q : RelPath, relative d = .ok q := by
    have hok := relative_above hd
    cases hr : relative d with
    | error e =>
      rw [hr] at hok
      exact absurd hok (by simp [Except.isOk, Except.toBool])
    | ok q => exact ⟨q, rfl⟩
  have hdq := relative_ok hq
  rw [hdq, RelPath.toLocalPath, RelPath.toLocalPath] at hd
  have hlen := List.prefix_iff_eq_take.mp hd
  rw [List.length_map, ← List.map_take] at hlen
  exact ⟨q, hdq, List.prefix_iff_eq_take.mpr (utf8_map_injective hlen)⟩

/-- A folder above `p` that is not there can only be the root. -/
theorem FoldersShow.missing (hf : FoldersShow vol held p) (h : Shows vol names held tree)
    {d : List OsName} (hd : d <+: p.toLocalPath) (hne : d ≠ p.toLocalPath)
    (hfree : tree.find vol d = none) : d = [] := by
  by_contra hroot
  obtain ⟨q, rfl, hsegments⟩ := exists_above hd
  have hshown := hf q hsegments (fun hnil => hroot (by rw [RelPath.toLocalPath, hnil]; rfl))
    (fun heq => hne (by rw [RelPath.toLocalPath, RelPath.toLocalPath, heq]))
  obtain ⟨y, hy⟩ := Option.ne_none_iff_exists'.mp hshown
  obtain ⟨node, hm, hkey, -⟩ := h.exists_node hy
  exact LocalTree.find_eq_none.mp hfree node hm hkey

/-- What a rename of one transfer name over another moves, and that it is no folder. -/
theorem renameTo_cases {src dst : List OsName} (h : renameTo vol src dst tree = .ok tree') :
    ∃ node ∈ tree, vol.foldPath node.path = vol.foldPath src ∧ node.obj.isDir = false ∧
      tree.NoFolder vol src ∧ tree.NoFolder vol dst ∧
      ((tree.erase vol src).erase vol dst).put vol dst node.obj = .ok tree' := by
  unfold renameTo at h
  split at h
  · exact absurd h (by simp)
  · exact absurd h (by simp)
  · exact absurd h (by simp)
  · rename_i _ _ obj hsrcDir hsrc hdstDir
    have hno : tree.NoFolder vol src := LocalTree.noFolder_of_get fun readable hfolder =>
      hsrcDir readable (Option.some.inj (hsrc.symm.trans hfolder))
    rw [LocalTree.get, Option.map_eq_some_iff] at hsrc
    obtain ⟨node, hfind, rfl⟩ := hsrc
    exact ⟨node, LocalTree.find_mem hfind, LocalTree.find_path hfind, hno.find hfind, hno,
      LocalTree.noFolder_of_get hdstDir, h⟩

theorem NamedApart.cell_ne_root (ha : NamedApart vol names p) (x : Cell) {node : Node}
    (hkey : vol.foldPath node.path = cellKey vol p.toLocalPath x) : node.path ≠ [] := by
  intro hroot
  have hlen := congrArg List.length hkey
  rw [hroot, (nameable vol ha.nonroot).length, vol.foldPath_length] at hlen
  exact (nameable vol ha.nonroot).nonempty (List.length_eq_zero_iff.mp hlen.symm)

/-- What is written to a transfer file does not show. -/
theorem Shows.put_transfer (h : Shows vol names held tree) (ha : NamedApart vol names p) {x : Cell}
    (hx : x ≠ .final) {bytes : Bytes} {readable : Bool}
    (hfile : ∀ obj, tree.get vol (cellPath p.toLocalPath x) = some obj →
      obj.isFile = true ∨ obj = .danglingLink)
    (hput : tree.put vol (cellPath p.toLocalPath x) (.file bytes readable) = .ok tree') :
    Shows vol names held tree' := by
  have hold (old : Node) (hm : old ∈ tree)
      (hkey : vol.foldPath old.path = vol.foldPath (cellPath p.toLocalPath x)) :
      old.obj.isFile = true := by
    refine (hfile old.obj ?_).resolve_right (h.plain.links old hm (ha.cell_ne_root x hkey))
    rw [LocalTree.get, h.wellFormed.unique.find hm hkey]
    rfl
  have hno : tree.NoFolder vol (cellPath p.toLocalPath x) := by
    refine LocalTree.noFolder_of_get fun r hdir => ?_
    rcases hfile _ hdir with hwrong | hwrong
    · exact absurd hwrong (by simp [Obj.isFile])
    · exact absurd hwrong (by simp)
  exact h.put_hidden (ha.transfer x hx) hput hno hold (cell_reserved ha.nonroot hx _) rfl (by simp)

/-- Nor does the record that is put in its place. -/
theorem Shows.place_record (h : Shows vol names held tree) (ha : NamedApart vol names p)
    (hrename : renameTo vol (localSidecarTmpPath p.toLocalPath) (localSidecarPath p.toLocalPath) tree =
      .ok tree') : Shows vol names held tree' := by
  obtain ⟨node, hm, hkey, hdir, hsrc, hdst, hput⟩ := renameTo_cases hrename
  have hside : cellKey vol p.toLocalPath .side ∈ names := ha.transfer .side (by simp)
  have h₁ := h.erase_hidden (ha.transfer .tmp (by simp)) hsrc
  have h₂ : Shows vol names held ((tree.erase vol (localSidecarTmpPath p.toLocalPath)).erase vol
      (localSidecarPath p.toLocalPath)) := h₁.erase_hidden hside hdst.erase
  refine h₂.put_hidden hside hput (LocalTree.noFolder_of_find_none (LocalTree.find_erase _ _)) ?_
    (cell_reserved ha.nonroot (x := .side) (by simp) _) hdir
    (h.plain.links node hm (ha.cell_ne_root .tmp hkey))
  intro old hold hplace
  exact absurd hplace (LocalTree.mem_erase.mp hold).2

/-- The commit of a part shows as a file of its size. -/
theorem Shows.land (h : Shows vol names held tree) (ha : NamedApart vol names p) {size : ℕ}
    {dir : List OsName} {name : String} (hlocal : p.toLocalPath = dir ++ [.utf8 name])
    (hname : isReservedName name = false) (hpart : PartOf vol p.toLocalPath size tree)
    (hrename : renameTo vol (localPartPath p.toLocalPath) p.toLocalPath tree = .ok tree') :
    Shows vol names (Function.update held (p.key vol.tables vol.folding) (some ⟨.file, size⟩)) tree' := by
  obtain ⟨node, hm, hkey, hdir, hsrc, hdst, hput⟩ := renameTo_cases hrename
  have h₁ := h.erase_hidden (ha.transfer .part (by simp)) hsrc
  have h₂ : Shows vol names (fun key => if key.map OsName.utf8 = vol.foldPath p.toLocalPath then none
      else held key) ((tree.erase vol (localPartPath p.toLocalPath)).erase vol p.toLocalPath) :=
    h₁.erase hdst.erase
  have hfree : ((tree.erase vol (localPartPath p.toLocalPath)).erase vol p.toLocalPath).find vol
      p.toLocalPath = none := LocalTree.find_erase _ _
  obtain ⟨new, hnew, hobj, hplace, hfrom⟩ := exists_put hput
  have hadded : LocalTree.Added vol ((tree.erase vol (localPartPath p.toLocalPath)).erase vol
      p.toLocalPath) p.toLocalPath node.obj new := by
    rcases hfrom with ⟨old, hold, hpath⟩ | hadded
    · exact absurd (by rw [hpath, hplace]) ((LocalTree.mem_erase.mp hold).2)
    · exact hadded
  obtain ⟨dir', name', hlocal', -, hvalid⟩ := toLocalPath_last ha.nonroot
  have hlands := h₂.put hput (LocalTree.noFolder_of_find_none hfree) hnew hplace
    (fun _ => hobj ▸ h.plain.links node hm (ha.cell_ne_root .part hkey))
    (fun hd => absurd hd (by rw [hobj, hdir]; simp))
    (fun _ _ => hadded.named h₂.plain hlocal' hvalid) (fun hin => absurd hin ha.final)
  -- what lands is the part, under a name that is no transfer name
  obtain ⟨bytes, readable, hget, hsize⟩ := hpart
  rw [LocalTree.get, h.wellFormed.unique.find hm hkey] at hget
  have hfile : new.obj = .file bytes readable := hobj.trans (Option.some.inj hget)
  have hheld : new.held = some ⟨.file, size⟩ := by
    refine Node.held_eq_some.mpr ⟨ha.cell_ne_root .final hplace, ?_, ?_, ?_⟩
    · rw [Node.isTransferFile, Node.name_of_getLast hadded.name new.obj, hlocal, Node.name_concat, hname,
        Bool.and_false]
    · rw [hfile]
      rfl
    · rw [hfile, ← hsize]
      rfl
  rw [← update_shown, ← hheld]
  have hsame : (fun key => if key.map OsName.utf8 = vol.foldPath p.toLocalPath then new.held
      else if key.map OsName.utf8 = vol.foldPath p.toLocalPath then none else held key) =
      fun key => if key.map OsName.utf8 = vol.foldPath p.toLocalPath then new.held else held key := by
    funext key
    split <;> rfl
  rwa [hsame] at hlands

/-- The transfer of `p` shows nothing before its commit but the folders it has to make, and then the
file that lands at `p`. -/
theorem copy_guarded (ha : NamedApart vol names p) {size : ℕ} {dir : List OsName} {name : String}
    (hlocal : p.toLocalPath = dir ++ [.utf8 name]) (hname : isReservedName name = false) {S S' : Set Store}
    (hfolder : ∀ held ∈ S, ∀ d tree tree', Shows vol names held tree → d <+: p.toLocalPath →
      d ≠ p.toLocalPath → tree.find vol d = none → tree.put vol d (.dir true) = .ok tree' →
      ShowsOne vol names S tree')
    (hland : ∀ held ∈ S,
      Function.update held (p.key vol.tables vol.folding) (some ⟨.file, size⟩) ∈ S') :
    Guarded vol p.toLocalPath size (ShowsOne vol names S) (ShowsOne vol names S') := by
  refine ⟨?_, ?_, ?_, ?_, ?_, ?_⟩
  · intro d tree tree' h hdir hfree hput
    obtain ⟨held, hin, h⟩ := h
    have hbelow := (List.mem_inits _ _).mp hdir
    have hne : d ≠ p.toLocalPath := by
      intro heq
      have hlen := hbelow.length_le
      have hpos := List.length_pos_iff.mpr (nameable vol ha.nonroot).nonempty
      rw [heq, List.length_dropLast] at hlen
      omega
    exact hfolder held hin d tree tree' h (hbelow.trans (List.dropLast_prefix _)) hne hfree hput
  · intro x bytes readable tree tree' h hx hfile hput
    obtain ⟨held, hin, h⟩ := h
    exact ⟨held, hin, h.put_transfer ha hx hfile hput⟩
  · intro x tree h hx hno
    obtain ⟨held, hin, h⟩ := h
    exact ⟨held, hin, h.erase_hidden (ha.transfer x hx) hno⟩
  · intro tree tree' h hrename
    obtain ⟨held, hin, h⟩ := h
    exact ⟨held, hin, h.place_record ha hrename⟩
  · intro tree tree' h hpart hrename
    obtain ⟨held, hin, h⟩ := h
    exact ⟨_, hland held hin, h.land ha hlocal hname hpart hrename⟩
  · intro x tree h hx hno
    obtain ⟨held, hin, h⟩ := h
    exact ⟨held, hin, h.erase_hidden (ha.transfer x hx) hno⟩

end Copies

section Folders

variable {vol : Volume} {env : Weather} {names : Set Key} {held : Store} {tree : LocalTree}
  {p : RelPath}

def HasFolder (vol : Volume) (tree : LocalTree) (path : List OsName) : Prop :=
  ∃ readable, tree.get vol path = some (.dir readable)

/-- One folder of a path: it is made in its own folder, or was there. -/
theorem exists_addDir {missing : List OsName → Bool} {dir : List OsName}
    (hdir : missing dir = true ∧ tree.get vol dir = none ∨ missing dir = false ∧ HasFolder vol tree dir)
    (hparent : dir = [] ∨ HasFolder vol tree dir.dropLast) (dirs : List (List OsName)) : ∃ tree',
      addDirs vol tree ((dir :: dirs).filter missing) = addDirs vol tree' (dirs.filter missing) ∧
        HasFolder vol tree' dir ∧ ∀ d, d.length ≠ dir.length → tree'.get vol d = tree.get vol d := by
  rcases hdir with ⟨hm, hfree⟩ | ⟨hm, hthere⟩
  · have hfind : tree.find vol dir = none := by rwa [LocalTree.get, Option.map_eq_none_iff] at hfree
    obtain ⟨tree', hput⟩ : ∃ tree', tree.put vol dir (.dir true) = .ok tree' := by
      rw [LocalTree.put, hfind]
      dsimp only
      cases hlast : dir.getLast? with
      | none => exact ⟨_, rfl⟩
      | some name =>
        rcases hparent with rfl | ⟨readable, hdir⟩
        · exact absurd hlast (by simp)
        · rw [LocalTree.get, Option.map_eq_some_iff] at hdir
          obtain ⟨⟨path, obj⟩, hnode, rfl⟩ := hdir
          rw [hnode]
          exact ⟨_, rfl⟩
    rw [List.filter_cons_of_pos hm]
    refine ⟨tree', by rw [addDirs, hput], ⟨true, ?_⟩, fun d hd => ?_⟩
    · rw [LocalTree.get_eq_disk, LocalTree.disk_put hput, Function.update_self]
    · rw [LocalTree.get_eq_disk, LocalTree.disk_put hput, Function.update_of_ne, LocalTree.get_eq_disk]
      exact fun heq => hd (Volume.length_eq_of_fold heq)
  · rw [List.filter_cons_of_neg (by simp [hm])]
    exact ⟨tree, rfl, hthere, fun _ _ => rfl⟩

/-- Added from the top, the missing folders of a path are all made. -/
theorem addDirs_inits (missing : List OsName → Bool) (rest pre : List OsName) (tree : LocalTree)
    (hdirs : ∀ d ∈ rest.inits.map (pre ++ ·), missing d = true ∧ tree.get vol d = none ∨
      missing d = false ∧ HasFolder vol tree d)
    (hparent : pre = [] ∨ HasFolder vol tree pre.dropLast) :
    HasFolder vol (addDirs vol tree ((rest.inits.map (pre ++ ·)).filter missing)) (pre ++ rest) := by
  induction rest generalizing pre tree with
  | nil =>
    have hlist : ([] : List OsName).inits.map (pre ++ ·) = [pre] := by simp
    rw [hlist] at hdirs ⊢
    obtain ⟨tree', hadd, hdir, -⟩ := exists_addDir (hdirs pre List.mem_cons_self) hparent []
    rw [hadd, List.append_nil]
    exact hdir
  | cons name rest ih =>
    have hlist : (name :: rest).inits.map (pre ++ ·) = pre :: rest.inits.map (pre ++ [name] ++ ·) := by
      rw [List.inits_cons, List.map_cons, List.append_nil, List.map_map]
      congr 1
      refine List.map_congr_left fun d _ => ?_
      simp
    rw [hlist] at hdirs ⊢
    obtain ⟨tree', hadd, hdir, hother⟩ := exists_addDir (hdirs pre List.mem_cons_self) hparent
      (rest.inits.map (pre ++ [name] ++ ·))
    rw [hadd, show pre ++ name :: rest = pre ++ [name] ++ rest by simp]
    refine ih (pre ++ [name]) tree' (fun d hd => ?_) (Or.inr ?_)
    · -- the new folder is no deeper than any that is still to come
      have hsame : tree'.get vol d = tree.get vol d := by
        obtain ⟨tail, -, rfl⟩ := List.mem_map.mp hd
        exact hother _ (by simp)
      rw [HasFolder, hsame]
      exact hdirs d (List.mem_cons_of_mem _ hd)
    · rwa [List.dropLast_concat]

/-- Where `create_dir_all` returns, the folder is there. -/
theorem createDirAll_makes {dir : List OsName} :
    Triple (fun _ => True) (createDirAll vol env dir)
      ⟨fun _ w => HasFolder vol w.tree dir, fun _ _ => True, fun _ => True⟩ := by
  refine perform_triple (fun w _ tree _ h => ?_) (fun _ _ _ _ => trivial) (fun _ _ _ _ _ => trivial)
    (fun _ _ _ => trivial)
  split at h
  · rename_i hall
    cases h
    have hlist : dir.inits.map ([] ++ ·) = dir.inits := by simp
    have hdirs : ∀ d ∈ dir.inits.map ([] ++ ·),
        (w.tree.get vol d).isNone = true ∧ w.tree.get vol d = none ∨
          (w.tree.get vol d).isNone = false ∧ HasFolder vol w.tree d := by
      intro d hd
      have hdir := List.all_eq_true.mp hall d (hlist ▸ hd)
      rw [HasFolder]
      cases hget : w.tree.get vol d with
      | none => exact Or.inl ⟨rfl, rfl⟩
      | some obj =>
        rw [hget] at hdir
        cases obj with
        | dir readable => exact Or.inr ⟨rfl, readable, rfl⟩
        | file bytes readable => exact absurd hdir (by simp [Obj.isDir])
        | special => exact absurd hdir (by simp [Obj.isDir])
        | danglingLink => exact absurd hdir (by simp [Obj.isDir])
    have hmade := addDirs_inits (fun d => (w.tree.get vol d).isNone) dir [] w.tree hdirs (Or.inl rfl)
    rw [hlist] at hmade
    exact hmade
  · exact absurd h (by simp)

/-- A folder that is made shows, with what showed before. -/
theorem Shows.put_folder (h : Shows vol names held tree) (hp : p.segments ≠ []) {tree' : LocalTree}
    (hfree : tree.find vol p.toLocalPath = none)
    (hput : tree.put vol p.toLocalPath (.dir true) = .ok tree') :
    held (p.key vol.tables vol.folding) = none ∧
      Shows vol names (Function.update held (p.key vol.tables vol.folding) (some ⟨.dir, 0⟩)) tree' := by
  constructor
  · rw [← h.store, store_none]
    intro node hm hkey
    rw [← foldPath_toLocalPath] at hkey
    exact LocalTree.find_eq_none.mp hfree node hm hkey
  · obtain ⟨node, hm, hobj, hkey, hfrom⟩ := exists_put hput
    have hadded : LocalTree.Added vol tree p.toLocalPath (.dir true) node := by
      rcases hfrom with ⟨old, hold, hpath⟩ | hadded
      · exact absurd (by rw [hpath, hkey]) (LocalTree.find_eq_none.mp hfree old hold)
      · exact hadded
    obtain ⟨dir, name, hlocal, -, hvalid⟩ := toLocalPath_last hp
    have hne : node.path ≠ [] := by
      intro hroot
      have hlen := Volume.length_eq_of_fold hkey
      rw [hroot, hlocal] at hlen
      simp at hlen
    have hheld : node.held = some ⟨.dir, 0⟩ := by
      refine Node.held_eq_some.mpr ⟨hne, ?_, ?_, ?_⟩
      · rw [Node.isTransferFile, hobj]
        rfl
      · rw [hobj]
        rfl
      · rw [hobj]
        rfl
    rw [← update_shown, ← hheld]
    exact h.put hput (LocalTree.noFolder_of_find_none hfree) hm hkey (fun _ => by rw [hobj]; simp)
      (fun _ => hobj) (fun _ _ => hadded.named h.plain hlocal hvalid)
      (fun _ hfile => absurd hfile (by simp [hobj, Obj.isFile]))

theorem FoldersShow.update {x : Held} (hf : FoldersShow vol held p) {key : List String} :
    FoldersShow vol (Function.update held key (some x)) p := by
  intro q hq hroot hne
  rw [Function.update_apply]
  split
  · simp
  · exact hf q hq hroot hne

/-- A mkdir that returns shows as the replayed one. -/
theorem mkdir_shows (hp : p.segments ≠ []) (hf : FoldersShow vol held p) :
    Triple (fun w => Shows vol names held w.tree) (LocalEndpoint.mkdir vol env p)
      ⟨fun _ w => Shows vol names (held.act vol.tables vol.folding (.mkdir p)) w.tree,
        fun _ _ => True, fun _ => True⟩ := by
  -- each folder on the way is one that shows already, or the one to be made
  have hfolder (d : List OsName) (tree tree' : LocalTree)
      (h : Shows vol names held tree ∨ held (p.key vol.tables vol.folding) = none ∧
        Shows vol names (Function.update held (p.key vol.tables vol.folding) (some ⟨.dir, 0⟩)) tree)
      (hd : d ∈ p.toLocalPath.inits) (hfree : tree.find vol d = none)
      (hput : tree.put vol d (.dir true) = .ok tree') :
      Shows vol names held tree' ∨ held (p.key vol.tables vol.folding) = none ∧
        Shows vol names (Function.update held (p.key vol.tables vol.folding) (some ⟨.dir, 0⟩)) tree' := by
    have hbelow := (List.mem_inits _ _).mp hd
    by_cases hself : d = p.toLocalPath
    · subst hself
      rcases h with h | ⟨-, h⟩
      · exact Or.inr (h.put_folder hp hfree hput)
      · obtain ⟨node, hm, hkey, -⟩ := h.exists_node (p := p) (Function.update_self _ _ _)
        exact absurd hkey (LocalTree.find_eq_none.mp hfree node hm)
    · rcases h with h | ⟨hnone, h⟩
      · obtain rfl := hf.missing h hbelow hself hfree
        exact Or.inl (h.put_root hfree hput)
      · obtain rfl := hf.update.missing h hbelow hself hfree
        exact Or.inr ⟨hnone, h.put_root hfree hput⟩
  have hkeeps : Triple (fun w : World => Shows vol names held w.tree)
      (createDirAll vol env p.toLocalPath)
      ⟨fun _ w => Shows vol names held w.tree ∨ held (p.key vol.tables vol.folding) = none ∧
        Shows vol names (Function.update held (p.key vol.tables vol.folding) (some ⟨.dir, 0⟩)) w.tree,
        fun _ _ => True, fun _ => True⟩ :=
    Triple.weaken (createDirAll_guards hfolder) (fun _ h => Or.inl h)
      ⟨fun _ _ h => h.1, fun _ _ _ => trivial, fun _ _ => trivial⟩
  have hmakes : Triple (fun w : World => Shows vol names held w.tree)
      (createDirAll vol env p.toLocalPath)
      ⟨fun _ w => HasFolder vol w.tree p.toLocalPath, fun _ _ => True, fun _ => True⟩ :=
    createDirAll_makes.weaken (fun _ _ => trivial) ⟨fun _ _ h => h, fun _ _ h => h, fun _ h => h⟩
  refine (hkeeps.both hmakes).mapError.weaken (fun _ h => h)
    ⟨fun _ w h => ?_, fun _ _ _ => trivial, fun _ _ => trivial⟩
  obtain ⟨hshows, readable, hget⟩ := h
  rw [Store.act]
  rcases hshows with hshows | ⟨hnone, hshows⟩
  · -- the folder was there and still shows
    rw [LocalTree.get, Option.map_eq_some_iff] at hget
    obtain ⟨node, hfind, hobj⟩ := hget
    have hm := LocalTree.find_mem hfind
    have hkey := LocalTree.find_path hfind
    have hheld : node.held ≠ none := by
      have hne : node.path ≠ [] := by
        intro hroot
        have hlen := Volume.length_eq_of_fold hkey
        rw [hroot, RelPath.toLocalPath, List.length_map] at hlen
        exact hp (List.length_eq_zero_iff.mp hlen.symm)
      rw [Node.held, Node.isTransferFile, hobj, if_neg (by simp [hne, Obj.isFile])]
      simp [kindOf]
    rw [if_neg]
    · exact hshows
    · rw [hshows.held_at hm hkey, Option.isNone_iff_eq_none]
      exact hheld
  · rw [if_pos (by rw [hnone]; rfl)]
    exact hshows

end Folders

end MtpxCore
