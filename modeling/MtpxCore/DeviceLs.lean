import MtpxCore.WalkSlices
import MtpxCore.DeviceEndpoint

/-! `Device::ls` on the storage it is asked for: the children of one folder, or the whole subtree.
While the device stays as it is, the first is a slice of the second. -/
namespace MtpxCore

namespace MtpEndpoint

def isFile (endpoint : MtpEndpoint) : Bool := endpoint.target.file.isSome

/-- Lists the root's immediate children without descending into folders. -/
def list (endpoint : MtpEndpoint) (storage : Storage) : Except Error Snapshot :=
  match listFolder storage endpoint.target.folder RelPath.root with
  | .error e => .error e
  | .ok listing =>
    .ok (Snapshot.new endpoint.label (listing.children.map fun c => entryFrom c.1 c.2) listing.skipped)

end MtpEndpoint

/-- A storage of an open device: its answers, and what it is known by. -/
structure OpenStorage where
  storage : Storage
  stream : ObjectStream
  getObjectInfo : ObjectHandle → Except MtpError ObjectInfo
  index : ℕ
  description : String
  deviceSerial : String

/-- Lists `path`: its immediate children, or the whole subtree when `recursive`. The token is for
the walk: opening the path and listing one folder hand it to the library, which may then answer that
the call was cancelled. Out of fuel the walk has no answer. -/
def OpenStorage.ls (device : OpenStorage) (path : RemotePath) (recursive : Bool)
    (cancelled : ℕ → Bool) (fuel : ℕ) : Option (Except Error Snapshot) :=
  match MtpEndpoint.open device.stream device.index device.description path device.deviceSerial with
  | .error e => some (.error e)
  | .ok endpoint =>
    if endpoint.isFile then some (.error .notADirectory)
    else if recursive then endpoint.scan device.storage device.getObjectInfo cancelled fuel
    else some (endpoint.list device.storage)

def ListingItem.object? : ListingItem → Option ObjectInfo
  | .object info => some info
  | .skipped _ => none

/-- A folder that can be listed whole streams the same objects, in the same order. -/
def OpenStorage.StreamsAlike (device : OpenStorage) : Prop :=
  ∀ parent collection, device.storage.collectObjects parent = .ok collection →
    ∃ items : List ListingItem, device.stream parent = .ok (items.map .ok) ∧
      items.filterMap ListingItem.object? = collection.objects

section Under

/-- The entry as it is called from further up. -/
def Entry.under (dir : RelPath) (e : Entry) : Entry := { e with path := dir.append e.path }

def SkippedEntry.under (dir : RelPath) (s : SkippedEntry) : SkippedEntry :=
  { s with parent := dir.append s.parent }

variable {dir : RelPath}

theorem entryFrom_under (path : RelPath) (info : ObjectInfo) :
    entryFrom (dir.append path) info = (entryFrom path info).under dir := by
  rw [entryFrom, entryFrom]
  split <;> rfl

theorem append_lt {a b : RelPath} (h : a < b) : dir.append a < dir.append b :=
  List.append_left_lt (α := String) h

theorem join_under (name : String) :
    dir.join name = (RelPath.root.join name).map dir.append := by
  cases hvalid : validateSegment name with
  | ok u =>
    obtain ⟨child, hjoin, hsegments⟩ : ∃ child, RelPath.root.join name = .ok child ∧ _ :=
      RelPath.join_ok hvalid
    have hunder : (dir.append child).segments = dir.segments ++ [name] :=
      congrArg (dir.segments ++ ·) hsegments
    rw [hjoin]
    exact RelPath.join_eq hunder
  | error e =>
    rw [RelPath.join_error hvalid, RelPath.join_error hvalid]
    rfl

/-- Whether an object can be named does not depend on the folder it is in. -/
theorem childPath_under (info : ObjectInfo) (isRepeat : Bool) :
    childPath dir info isRepeat = (childPath RelPath.root info isRepeat).map dir.append := by
  rw [childPath, childPath, join_under]
  split
  · rfl
  · cases RelPath.root.join info.filename with
    | error e => rfl
    | ok path =>
      dsimp only [Except.map]
      split
      · rfl
      · rfl

def Listing.under (dir : RelPath) (listing : Listing) : Listing :=
  ⟨listing.children.map fun c => (dir.append c.1, c.2), listing.skipped.map (SkippedEntry.under dir)⟩

theorem root_under (reason : SkipCause) :
    (⟨RelPath.root, reason⟩ : SkippedEntry).under dir = ⟨dir, reason⟩ := by
  have hroot : dir.append RelPath.root = dir := RelPath.segments_injective (List.append_nil _)
  rw [SkippedEntry.under, hroot]

theorem classify_under (objects : List ObjectInfo) :
    classify dir objects = (classify RelPath.root objects).under dir := by
  have hfold (items : List (ObjectInfo × Bool)) (listing : Listing) :
      items.foldl (Listing.file dir) (listing.under dir) =
        (items.foldl (Listing.file RelPath.root) listing).under dir := by
    induction items generalizing listing with
    | nil => rfl
    | cons item items ih =>
      have hstep : Listing.file dir (listing.under dir) item =
          (Listing.file RelPath.root listing item).under dir := by
        rw [Listing.file, Listing.file, childPath_under]
        cases childPath RelPath.root item.1 item.2 with
        | ok path => simp [Except.map, Listing.under]
        | error reason => simp [Except.map, Listing.under, root_under]
      rw [List.foldl_cons, List.foldl_cons, hstep, ih]
  exact hfold _ ⟨[], []⟩

/-- Listing a folder under its path, or as a root of its own. -/
theorem listFolder_under {storage : Storage} {handle : Option ObjectHandle} {listing : Listing}
    (h : listFolder storage handle dir = .ok listing) :
    ∃ own, listFolder storage handle RelPath.root = .ok own ∧ listing = own.under dir := by
  rw [listFolder] at h ⊢
  cases hcollect : storage.collectObjects handle with
  | error e =>
    rw [hcollect] at h
    exact absurd h (by simp [describe])
  | ok collection =>
    rw [hcollect] at h
    obtain rfl := Except.ok.inj h
    refine ⟨_, rfl, ?_⟩
    rw [classify_under]
    simp [Listing.under, root_under]

end Under

section Finding

variable {device : OpenStorage} (halike : device.StreamsAlike)

/-- Of a listing only the first object of a name is a child. -/
theorem fresh_first {seen : List String} {objects : List ObjectInfo} {info : ObjectInfo}
    (h : info ∈ freshObjects seen objects) :
    objects.find? (fun i => decide (i.filename = info.filename)) = some info := by
  induction objects generalizing seen with
  | nil => exact absurd h List.not_mem_nil
  | cons first rest ih =>
    rw [freshObjects_cons] at h
    have hnot : info ∈ freshObjects (first.filename :: seen) rest →
        first.filename ≠ info.filename := by
      intro hin hname
      exact (freshObjects_names (first.filename :: seen) rest).1 info hin
        (hname ▸ List.mem_cons_self)
    have hlater (hin : info ∈ freshObjects (first.filename :: seen) rest) :
        (first :: rest).find? (fun i => decide (i.filename = info.filename)) = some info := by
      rw [List.find?_cons_of_neg (by simpa using hnot hin)]
      exact ih hin
    split at h
    · exact hlater h
    · rcases List.mem_cons.mp h with rfl | h
      · exact List.find?_cons_of_pos (by simp)
      · exact hlater h

theorem pickChild_first {name : String} {skipped : ℕ} {items : List ListingItem} {info : ObjectInfo}
    (h : (items.filterMap ListingItem.object?).find? (fun i => decide (i.filename = name)) =
      some info) : pickChild name skipped (items.map .ok) = .ok info := by
  induction items generalizing skipped with
  | nil => exact absurd h (by simp)
  | cons item items ih =>
    cases item with
    | object first =>
      rw [List.map_cons, pickChild]
      rw [List.filterMap_cons] at h
      dsimp only [ListingItem.object?] at h
      split
      · rename_i hname
        rw [List.find?_cons_of_pos (by simpa using hname)] at h
        exact congrArg Except.ok (Option.some.inj h)
      · rename_i hname
        rw [List.find?_cons_of_neg (by simpa using hname)] at h
        exact ih h
    | skipped object =>
      rw [List.map_cons, pickChild]
      exact ih h

include halike in
/-- A child of a listing is found by its name. -/
theorem findChild_listed {handle : Option ObjectHandle} {path : RelPath} {listing : Listing}
    (hlist : listFolder device.storage handle path = .ok listing) {c : RelPath × ObjectInfo}
    (hc : c ∈ listing.children) :
    findChild device.stream handle c.2.filename = .ok c.2 ∧
      c.1.segments = path.segments ++ [c.2.filename] := by
  obtain ⟨collection, hcollect, hchildren⟩ := listFolder_children hlist
  obtain ⟨items, hstream, hobjects⟩ := halike handle collection hcollect
  rw [hchildren] at hc
  refine ⟨?_, (classify_child hc).1⟩
  have hfresh : c.2 ∈ freshObjects [] collection.objects := by
    rw [classify, foldl_file, List.nil_append, List.mem_filterMap] at hc
    obtain ⟨item, hm, hcase⟩ := hc
    split at hcase
    · rename_i p hp
      obtain rfl := Option.some.inj hcase
      rw [freshObjects]
      refine List.mem_map.mpr ⟨item, List.mem_filter.mpr ⟨hm, ?_⟩, rfl⟩
      rw [(childPath_ok hp).2.2]
      rfl
    · exact absurd hcase (by simp)
  rw [findChild, hstream]
  apply pickChild_first
  rw [hobjects]
  exact fresh_first hfresh

theorem locateFolders_append {stream : ObjectStream} {handle : Option ObjectHandle}
    (above below : List String) : locateFolders stream handle (above ++ below) =
      (locateFolders stream handle above).bind fun middle => locateFolders stream middle below := by
  induction above generalizing handle with
  | nil => rfl
  | cons segment above ih =>
    rw [List.cons_append, locateFolders, locateFolders]
    cases findChild stream handle segment with
    | error e => rfl
    | ok info =>
      dsimp only
      split
      · exact ih
      · rfl

/-- The folders down to one more. -/
theorem locateFolders_child {stream : ObjectStream} {handle middle : Option ObjectHandle}
    {above : List String} {info : ObjectInfo} (h : locateFolders stream handle above = .ok middle)
    (hfind : findChild stream middle info.filename = .ok info) (hfolder : info.folder = true) :
    locateFolders stream handle (above ++ [info.filename]) = .ok (some info.handle) := by
  rw [locateFolders_append, h]
  change locateFolders stream middle [info.filename] = _
  rw [locateFolders, hfind]
  exact if_pos hfolder

/-- A root is a folder where every segment of its path is. -/
theorem locateRoot_folder {stream : ObjectStream} {root : RemotePath} {handle : Option ObjectHandle} :
    locateRoot stream root = .ok ⟨handle, none⟩ ↔
      locateFolders stream none root.rel.segments = .ok handle := by
  rw [locateRoot]
  rcases List.eq_nil_or_concat root.rel.segments with hnil | ⟨folders, last, hlast⟩
  · rw [hnil]
    simp [locateFolders]
  · rw [hlast, List.concat_eq_append, List.getLast?_concat, List.dropLast_concat, locateFolders_append]
    dsimp only
    cases locateFolders stream none folders with
    | error e => simp [Except.bind]
    | ok folder =>
      change _ ↔ locateFolders stream folder [last] = _
      rw [locateFolders]
      dsimp only
      cases findChild stream folder last with
      | error e => simp
      | ok info =>
        dsimp only [Target.found]
        split
        · simp [locateFolders]
        · simp

/-- A file is found in its folder. -/
theorem locateRoot_child {stream : ObjectStream} {root : RemotePath} {folder : Option ObjectHandle}
    {above : List String} {info : ObjectInfo} (hroot : root.rel.segments = above ++ [info.filename])
    (h : locateFolders stream none above = .ok folder)
    (hfind : findChild stream folder info.filename = .ok info) :
    locateRoot stream root = .ok (Target.found folder info) := by
  rw [locateRoot, hroot, List.getLast?_concat, List.dropLast_concat]
  dsimp only
  rw [h]
  dsimp only
  rw [hfind]

include halike in
/-- Every folder a walk listed is found, under its handle, by the names of its path. -/
theorem Slices.located {root : Option ObjectHandle} {listed : List (RelPath × Option ObjectHandle)}
    {state : WalkState} (h : Slices device.storage root listed state)
    {item : RelPath × Option ObjectHandle} (hitem : item ∈ listed) :
    locateFolders device.stream root item.1.segments = .ok item.2 := by
  induction hlength : item.1.segments.length generalizing item with
  | zero =>
    rcases h.reached item (List.mem_append_left _ hitem) with rfl | ⟨info, hin, -⟩
    · rfl
    · obtain ⟨dir, hdir, listing, hlist, hc⟩ := hin
      obtain ⟨-, hsegments⟩ := findChild_listed halike hlist hc
      rw [hsegments, List.length_append] at hlength
      simp at hlength
  | succ n ih =>
    rcases h.reached item (List.mem_append_left _ hitem) with rfl | ⟨info, hin, hfolder, hhandle⟩
    · rfl
    · -- through the folder that listed it, one segment shorter
      obtain ⟨dir, hdir, listing, hlist, hc⟩ := hin
      obtain ⟨hfind, hsegments⟩ := findChild_listed halike hlist hc
      have hshorter : dir.1.segments.length = n := by
        rw [hsegments, List.length_append] at hlength
        simpa using hlength
      have habove := ih hdir hshorter
      rw [hhandle, hsegments]
      exact locateFolders_child habove hfind hfolder

end Finding

section Slicing

variable {storage : Storage} {walked : Walked} {item : RelPath × Option ObjectHandle} {listing : Listing}
  {kept : List (RelPath × ObjectInfo)} {again : ℕ}

/-- The entries of a listing, as those of its folder alone. -/
theorem children_under {dir : RelPath} (own : Listing) :
    (own.under dir).children.map (fun c => entryFrom c.1 c.2) =
      (own.children.map fun c => entryFrom c.1 c.2).map (Entry.under dir) := by
  rw [Listing.under, List.map_map, List.map_map]
  apply List.map_congr_left
  intro c _
  exact entryFrom_under c.1 c.2

theorem strict_under {dir : RelPath} {entries : List Entry} (h : SortedTable.Strict Entry.path entries) :
    SortedTable.Strict Entry.path (entries.map (Entry.under dir)) :=
  List.pairwise_map.mpr (h.imp fun hlt => append_lt hlt)

theorem listFolder_nodup {handle : Option ObjectHandle} {path : RelPath}
    (h : listFolder storage handle path = .ok listing) :
    ((listing.children.map fun c => entryFrom c.1 c.2).map Entry.path).Nodup := by
  obtain ⟨collection, -, hchildren⟩ := listFolder_children h
  have hpaths : (listing.children.map fun c => entryFrom c.1 c.2).map Entry.path =
      listing.children.map Prod.fst := by
    rw [List.map_map]
    apply List.map_congr_left
    intro c _
    exact entryFrom_path c.1 c.2
  rw [hpaths, hchildren]
  exact classify_nodup path collection.objects

/-- What the snapshot of a walk holds beneath a folder it listed, against what the snapshot of the
folder alone holds. -/
theorem Slice.compares (h : Slice storage walked item listing kept again)
    (hnodup : (walked.entries.map Entry.path).Nodup) {own : Listing}
    (hown : listFolder storage item.2 RelPath.root = .ok own) (hunder : listing = own.under item.1)
    (label own_label : String) :
    (((Snapshot.new label walked.entries walked.skipped).entries.filter
        (fun e => beneath item.1 e.path)).Sublist
      ((Snapshot.new own_label (own.children.map fun c => entryFrom c.1 c.2)
        own.skipped).entries.map (Entry.under item.1))) ∧
    (Snapshot.new own_label (own.children.map fun c => entryFrom c.1 c.2) own.skipped).entries.length =
      ((Snapshot.new label walked.entries walked.skipped).entries.filter
        (fun e => beneath item.1 e.path)).length + again ∧
    ∀ e ∈ (Snapshot.new own_label (own.children.map fun c => entryFrom c.1 c.2) own.skipped).entries,
      e.kind = .file → e.under item.1 ∈ (Snapshot.new label walked.entries walked.skipped).entries := by
  subst hunder
  have hall : (SortedTable.build Entry.path walked.entries).Perm walked.entries :=
    SortedTable.build_perm hnodup
  have halone : (SortedTable.build Entry.path (own.children.map fun c => entryFrom c.1 c.2)).Perm
      (own.children.map fun c => entryFrom c.1 c.2) := SortedTable.build_perm (listFolder_nodup hown)
  have hslice : ((SortedTable.build Entry.path walked.entries).filter
      (fun e => beneath item.1 e.path)).Perm (kept.map fun r => entryFrom r.1 r.2) := by
    rw [← h.entries]
    exact hall.filter _
  have hchildren : ((SortedTable.build Entry.path (own.children.map fun c => entryFrom c.1 c.2)).map
      (Entry.under item.1)).Perm ((own.under item.1).children.map fun c => entryFrom c.1 c.2) := by
    rw [children_under]
    exact halone.map _
  refine ⟨?_, ?_, ?_⟩
  · have hsorted : SortedTable.Strict Entry.path ((SortedTable.build Entry.path walked.entries).filter
        (fun e => beneath item.1 e.path)) :=
      (SortedTable.build_strict Entry.path walked.entries).sublist List.filter_sublist
    -- two sorted lists without repeats: a subset is a sublist
    apply hsorted.sublist_of_subset (strict_under (SortedTable.build_strict Entry.path _))
    intro e he
    have hin := hslice.subset he
    exact hchildren.symm.subset ((h.among.map _).subset hin)
  · have hcount := h.count
    have hlength := hchildren.length_eq
    rw [List.length_map, List.length_map] at hlength
    change (SortedTable.build Entry.path (own.children.map fun c => entryFrom c.1 c.2)).length =
      ((SortedTable.build Entry.path walked.entries).filter
        (fun e => beneath item.1 e.path)).length + again
    rw [hslice.length_eq, List.length_map, hlength, hcount]
  · intro e he hfile
    have hin : e.under item.1 ∈ (own.under item.1).children.map fun c => entryFrom c.1 c.2 :=
      hchildren.subset (List.mem_map_of_mem he)
    obtain ⟨c, hc, hentry⟩ := List.mem_map.mp hin
    -- only folders are ever passed over, so a file was kept
    have hnot : c.2.folder = false := by
      apply Bool.eq_false_of_not_eq_true
      intro hfolder
      have hdir := entryFrom_folder c.1 hfolder
      rw [hentry] at hdir
      exact absurd (hfile.symm.trans hdir) (by decide)
    have hkept := h.files c hc hnot
    have hmem := hslice.symm.subset (List.mem_map_of_mem (f := fun r => entryFrom r.1 r.2) hkept)
    rw [hentry] at hmem
    exact List.mem_of_mem_filter hmem

end Slicing

section Agreeing

variable {device : OpenStorage} {path : RemotePath} {cancelled : ℕ → Bool} {fuel : ℕ}

def OpenStorage.endpoint (device : OpenStorage) (path : RemotePath) (target : Target) : MtpEndpoint :=
  ⟨device.index, path, target, ⟨device.deviceSerial, device.description⟩⟩

theorem ls_found {target : Target} {recursive : Bool}
    (h : locateRoot device.stream path = .ok target) : device.ls path recursive cancelled fuel =
      if target.file.isSome then some (.error .notADirectory)
      else if recursive then
        (device.endpoint path target).scan device.storage device.getObjectInfo cancelled fuel
      else some ((device.endpoint path target).list device.storage) := by
  rw [OpenStorage.ls, MtpEndpoint.open, h]
  rfl

/-- A recursive listing is the snapshot of a walk of the folder at `path`. -/
theorem ls_recursive {all : Snapshot} (h : device.ls path true cancelled fuel = some (.ok all)) :
    ∃ handle label walked, locateFolders device.stream none path.rel.segments = .ok handle ∧
      walk device.storage handle cancelled fuel = some (.ok walked) ∧
      all = Snapshot.new label walked.entries walked.skipped := by
  cases hroot : locateRoot device.stream path with
  | error e =>
    rw [OpenStorage.ls, MtpEndpoint.open, hroot] at h
    exact absurd h (by simp)
  | ok target =>
    rw [ls_found hroot] at h
    obtain ⟨handle, file⟩ := target
    cases file with
    | some info => exact absurd h (by simp)
    | none =>
      have hfolder := locateRoot_folder.mp hroot
      change (walk device.storage handle cancelled fuel).map _ = _ at h
      cases hw : walk device.storage handle cancelled fuel with
      | none =>
        rw [hw] at h
        exact absurd h (by simp)
      | some result =>
        rw [hw] at h
        cases result with
        | error e => exact absurd h (by simp [Except.map])
        | ok walked =>
          exact ⟨handle, _, walked, hfolder, hw, (Except.ok.inj (Option.some.inj h)).symm⟩

end Agreeing

/-- Listing any folder of a tree gives what listing the whole tree gave of it, by the names it has
from further up: the same files with the same data, the same objects left out for the same reasons,
and its folders but for those the walk had come by before, each of which it counts as listed twice.
Listing a file of the tree is refused. A plain listing does not ask its token itself. -/
theorem ls_slices_recursive (device : OpenStorage) (halike : device.StreamsAlike) (path : RemotePath)
    (cancelled : ℕ → Bool) (fuel : ℕ) (all : Snapshot)
    (hall : device.ls path true cancelled fuel = some (.ok all)) (cancelled' : ℕ → Bool) (fuel' : ℕ) :
    (∀ dir : RelPath, dir = RelPath.root ∨ (∃ e ∈ all.entries, e.path = dir ∧ e.kind = .dir) →
      ∃ one again, device.ls (path.join dir) false cancelled' fuel' = some (.ok one) ∧
        (all.entries.filter (fun e => beneath dir e.path)).Sublist (one.entries.map (Entry.under dir)) ∧
        one.entries.length = (all.entries.filter (fun e => beneath dir e.path)).length + again ∧
        (∀ e ∈ one.entries, e.kind = .file → e.under dir ∈ all.entries) ∧
        all.skipped.filter (fun s => decide (s.parent = dir)) =
          one.skipped.map (SkippedEntry.under dir) ++ List.replicate again ⟨dir, .listedTwice⟩) ∧
    ∀ e ∈ all.entries, e.kind = .file →
      device.ls (path.join e.path) false cancelled' fuel' = some (.error .notADirectory) := by
  obtain ⟨root, label, walked, hroot, hw, rfl⟩ := ls_recursive hall
  obtain ⟨listed, final, hslices, hdone, rfl⟩ := walk_slices hw
  have hnodup := hslices.tree.paths_nodup
  have hlocated {item : RelPath × Option ObjectHandle} (hitem : item ∈ listed) :
      locateFolders device.stream none (path.rel.segments ++ item.1.segments) = .ok item.2 := by
    rw [locateFolders_append, hroot]
    exact hslices.located halike hitem
  refine ⟨fun dir hdir => ?_, fun e he hfile => ?_⟩
  · have hopened : ∃ handle, (dir, handle) ∈ listed := by
      rcases hdir with rfl | ⟨e, he, rfl, hkind⟩
      · have hstart := hslices.start
        rw [hdone, List.append_nil] at hstart
        exact ⟨root, hstart⟩
      · obtain ⟨info, -, hentry, hopened⟩ := hslices.source e ((mem_new hnodup).mp he)
        rw [hentry] at hkind
        have hmem := hopened (folder_of_entryFrom hkind)
        rw [hdone, List.append_nil] at hmem
        exact ⟨_, hmem⟩
    obtain ⟨handle, hitem⟩ := hopened
    obtain ⟨listing, kept, again, hslice⟩ := hslices.slices _ hitem
    obtain ⟨own, hown, hunder⟩ := listFolder_under hslice.alone
    have hfound : locateRoot device.stream (path.join dir) = .ok ⟨handle, none⟩ :=
      locateRoot_folder.mpr (hlocated hitem)
    have hone : device.ls (path.join dir) false cancelled' fuel' = some (.ok (Snapshot.new
        (device.endpoint (path.join dir) ⟨handle, none⟩).label
        (own.children.map fun c => entryFrom c.1 c.2) own.skipped)) := by
      rw [ls_found hfound, MtpEndpoint.list]
      dsimp only [OpenStorage.endpoint]
      rw [hown]
      rfl
    obtain ⟨hsub, hcount, hfiles⟩ := hslice.compares hnodup hown hunder label
      (device.endpoint (path.join dir) ⟨handle, none⟩).label
    refine ⟨_, again, hone, hsub, hcount, hfiles, ?_⟩
    have hskipped := hslice.skipped
    rw [hunder] at hskipped
    exact hskipped
  · have hsource := hslices.source e ((mem_new hnodup).mp he)
    obtain ⟨info, hin, hentry, -⟩ := hsource
    obtain ⟨dir, hdir, listing, hlist, hc⟩ := hin
    obtain ⟨hfind, hsegments⟩ := findChild_listed halike hlist hc
    have hnot : info.folder = false := by
      apply Bool.eq_false_of_not_eq_true
      intro hfolder
      have hkind := entryFrom_folder e.path hfolder
      rw [← hentry] at hkind
      exact absurd (hfile.symm.trans hkind) (by decide)
    have hpath : (path.join e.path).rel.segments =
        path.rel.segments ++ dir.1.segments ++ [info.filename] := by
      change path.rel.segments ++ e.path.segments = _
      rw [hsegments, List.append_assoc]
    have hfound := locateRoot_child hpath (hlocated hdir) hfind
    rw [ls_found hfound, Target.found, hnot]
    rfl

/-! A phone on which a folder is listed again inside itself. -/

private def cameraFolder : List ObjectInfo :=
  [⟨⟨3⟩, "a1.jpg", false, 4, none⟩, ⟨⟨1⟩, "again", true, 0, none⟩]

private def rootFolder : List ObjectInfo :=
  [⟨⟨1⟩, "Roll", true, 0, none⟩, ⟨⟨2⟩, "memo9.txt", false, 6, none⟩]

private def refusedObject : SkippedObject := ⟨⟨4⟩, .staleHandle⟩

private def loopingPhone : OpenStorage where
  storage := ⟨⟨0⟩, fun
    | none => .ok ⟨rootFolder, []⟩
    | some ⟨1⟩ => .ok ⟨cameraFolder, [refusedObject]⟩
    | some _ => .ok ⟨[], []⟩⟩
  stream
    | none => .ok ((rootFolder.map .object).map .ok)
    | some ⟨1⟩ => .ok ((.skipped refusedObject :: cameraFolder.map .object).map .ok)
    | some _ => .ok []
  getObjectInfo _ := .error .staleHandle
  index := 0
  description := "Card"
  deviceSerial := "R58M"

private theorem loopingPhone_alike : loopingPhone.StreamsAlike := by
  intro parent collection h
  match parent with
  | none =>
    obtain rfl := Except.ok.inj h
    exact ⟨rootFolder.map .object, rfl, rfl⟩
  | some ⟨1⟩ =>
    obtain rfl := Except.ok.inj h
    exact ⟨.skipped refusedObject :: cameraFolder.map .object, rfl, rfl⟩
  | some ⟨0⟩ =>
    obtain rfl := Except.ok.inj h
    exact ⟨[], rfl, rfl⟩
  | some ⟨n + 2⟩ =>
    obtain rfl := Except.ok.inj h
    exact ⟨[], rfl, rfl⟩

private def albumFolder : RelPath := .ofSegments ["Roll"]

private def loopingAll : Snapshot :=
  Snapshot.new "R58M:Card:/" [Entry.dir albumFolder none, Entry.file (.ofSegments ["Roll", "a1.jpg"]) 4 none,
    Entry.file (.ofSegments ["memo9.txt"]) 6 none]
    [⟨albumFolder, .refused .staleHandle⟩, ⟨albumFolder, .listedTwice⟩]

theorem ls_slices_recursive_looping :
    ∃ one again, loopingPhone.ls (RemotePath.root.join albumFolder) false (fun _ => false) 0 = some (.ok one) ∧
      (loopingAll.entries.filter (fun e => beneath albumFolder e.path)).Sublist
        (one.entries.map (Entry.under albumFolder)) ∧
      one.entries.length =
        (loopingAll.entries.filter (fun e => beneath albumFolder e.path)).length + again ∧
      (∀ e ∈ one.entries, e.kind = .file → e.under albumFolder ∈ loopingAll.entries) ∧
      loopingAll.skipped.filter (fun s => decide (s.parent = albumFolder)) =
        one.skipped.map (SkippedEntry.under albumFolder) ++ List.replicate again ⟨albumFolder, .listedTwice⟩ :=
  (ls_slices_recursive loopingPhone loopingPhone_alike RemotePath.root (fun _ => false) 9 loopingAll
    rfl (fun _ => false) 0).1 albumFolder (Or.inr ⟨Entry.dir albumFolder none, by decide, rfl, rfl⟩)

end MtpxCore
