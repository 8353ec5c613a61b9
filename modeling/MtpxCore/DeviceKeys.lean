import MtpxCore.DeviceTree
import MtpxCore.DeviceRoots
import MtpxCore.ResolverModel

/-! One storage of a phone whose objects keep their paths while their handles change. Handles
are never used again for another object; a handle that was dropped answers as stale. -/
namespace MtpxCore

/-- An object of a storage, without its handle. -/
structure DeviceNode where
  path : List String
  folder : Bool
  size : ℕ
  modified : Option ModifiedTime
  deriving DecidableEq, Repr

/-- The objects of a storage: no two under one path, each inside the root or a folder. -/
structure DeviceObjects where
  nodes : List DeviceNode
  refused : List String → List SkippedObject
  distinct : nodes.Pairwise (fun a b => a.path ≠ b.path)
  named : ∀ n ∈ nodes, n.path ≠ []
  inside : ∀ n ∈ nodes, n.path.dropLast = [] ∨ ∃ d ∈ nodes, d.folder = true ∧ d.path = n.path.dropLast

/-- Which handle an object goes by, given its path. -/
abbrev Keying := List String → ObjectHandle

/-- A storage with every keying it ever had. A handle never stands for two objects. -/
structure KeyedStorage extends DeviceObjects where
  keyings : List Keying
  key : Keying
  current : key ∈ keyings
  fresh : ∀ k ∈ keyings, ∀ k' ∈ keyings, ∀ a ∈ nodes, ∀ b ∈ nodes, k a.path = k' b.path → a.path = b.path
  /-- Whether listing under a dropped handle fails as stale; else it yields no children. -/
  staleListing : ObjectHandle → Bool

namespace DeviceObjects

variable (objects : DeviceObjects)

/-- The object under a path. -/
def object (path : List String) : Option DeviceNode :=
  List.find? (fun n => decide (n.path = path)) objects.nodes

/-- The objects of one folder. -/
def inFolder (folder : List String) : List DeviceNode :=
  objects.nodes.filter (fun n => decide (n.path.dropLast = folder))

/-- The object a handle stands for under a keying. -/
def behind (key : Keying) (handle : ObjectHandle) : Option DeviceNode :=
  List.find? (fun n => decide (key n.path = handle)) objects.nodes

/-- How an object is described. -/
def info (key : Keying) (n : DeviceNode) : ObjectInfo :=
  ⟨key n.path, n.path.getLast?.getD "", n.folder, n.size, n.modified⟩

def collection (key : Keying) (folder : List String) : Collection :=
  ⟨(objects.inFolder folder).map (info key), objects.refused folder⟩

/-- The stream of a folder, as `open` reads it. -/
def stream (key : Keying) : ObjectStream := fun parent =>
  let items (folder : List String) : List (Except MtpError ListingItem) :=
    ((objects.inFolder folder).map (fun n => .ok (.object (info key n)))) ++
      (objects.refused folder).map (fun o => .ok (.skipped o))
  match parent with
  | none => .ok (items [])
  | some handle =>
    match objects.behind key handle with
    | some n => .ok (items n.path)
    | none => .error .staleHandle

end DeviceObjects

namespace KeyedStorage

variable (phone : KeyedStorage)

/-- What the phone answers now when a folder is listed. -/
def collectObjects (parent : Option ObjectHandle) : Except MtpError Collection :=
  match parent with
  | none => .ok (phone.collection phone.key [])
  | some handle =>
    match phone.behind phone.key handle with
    | some n => .ok (phone.collection phone.key n.path)
    | none => if phone.staleListing handle then .error .staleHandle else .ok ⟨[], []⟩

def getObjectInfo (handle : ObjectHandle) : Except MtpError ObjectInfo :=
  match phone.behind phone.key handle with
  | some n => .ok (DeviceObjects.info phone.key n)
  | none => .error .staleHandle

/-- A handle that stood for the object at `path` at some time. -/
def Was (handle : ObjectHandle) (path : List String) : Prop :=
  ∃ k ∈ phone.keyings, handle = k path

/-- A handle no object goes by any more. -/
def Dead (handle : ObjectHandle) : Prop := phone.behind phone.key handle = none

instance (handle : ObjectHandle) : Decidable (phone.Dead handle) :=
  inferInstanceAs (Decidable (_ = none))

end KeyedStorage

section Objects

variable {objects : DeviceObjects} {key : Keying} {n : DeviceNode}

theorem DeviceObjects.object_some {path : List String} (h : objects.object path = some n) :
    n ∈ objects.nodes ∧ n.path = path :=
  ⟨List.mem_of_find?_eq_some h, by simpa using List.find?_some h⟩

theorem DeviceObjects.path_inj {a b : DeviceNode} (ha : a ∈ objects.nodes) (hb : b ∈ objects.nodes)
    (h : a.path = b.path) : a = b :=
  List.inj_on_of_nodup_map (by
    rw [List.nodup_iff_pairwise_ne, List.pairwise_map]
    exact objects.distinct) ha hb h

theorem DeviceObjects.mem_inFolder {folder : List String} :
    n ∈ objects.inFolder folder ↔ n ∈ objects.nodes ∧ ∃ name, n.path = folder ++ [name] := by
  rw [DeviceObjects.inFolder, List.mem_filter, decide_eq_true_iff]
  constructor
  · rintro ⟨hn, rfl⟩
    exact ⟨hn, n.path.getLast (objects.named n hn), (List.dropLast_append_getLast _).symm⟩
  · rintro ⟨hn, name, hpath⟩
    exact ⟨hn, by rw [hpath, List.dropLast_concat]⟩

theorem DeviceObjects.info_filename {folder : List String} {name : String}
    (h : n.path = folder ++ [name]) : (DeviceObjects.info key n).filename = name := by
  simp [DeviceObjects.info, h]

/-- No two objects of a folder have one name. -/
theorem DeviceObjects.inFolder_names (objects : DeviceObjects) (key : Keying) (folder : List String) :
    (((objects.inFolder folder).map (DeviceObjects.info key)).map ObjectInfo.filename).Nodup := by
  rw [List.nodup_iff_pairwise_ne, List.pairwise_map, List.pairwise_map]
  refine (objects.distinct.filter _).imp_of_mem ?_
  intro a b ha hb hne hname
  obtain ⟨-, x, hx⟩ := DeviceObjects.mem_inFolder.mp ha
  obtain ⟨-, y, hy⟩ := DeviceObjects.mem_inFolder.mp hb
  rw [DeviceObjects.info_filename hx, DeviceObjects.info_filename hy] at hname
  exact hne (by rw [hx, hy, hname])

end Objects

section Listings

/-- Where no name repeats, no object is marked as a repeat. -/
theorem zip_repeatedNames {seen : List String} {objects : List ObjectInfo}
    (hnodup : (objects.map ObjectInfo.filename).Nodup)
    (hseen : ∀ info ∈ objects, info.filename ∉ seen) :
    objects.zip (repeatedNames seen objects) = objects.map (fun info => (info, false)) := by
  induction objects generalizing seen with
  | nil => rfl
  | cons info objects ih =>
    rw [List.map_cons, List.nodup_cons] at hnodup
    rw [repeatedNames, List.zip_cons_cons, List.map_cons, ih hnodup.2]
    · rw [decide_eq_false (hseen info List.mem_cons_self)]
    · intro other hother hmem
      rcases List.mem_cons.mp hmem with heq | hmem
      · exact hnodup.1 (heq ▸ List.mem_map_of_mem hother)
      · exact hseen other (List.mem_cons_of_mem _ hother) hmem

/-- A listed object with a name of its own is a child, unless its name is reserved. -/
theorem classify_mem {parentPath path : RelPath} {objects : List ObjectInfo} {info : ObjectInfo}
    (hnodup : (objects.map ObjectInfo.filename).Nodup) (hinfo : info ∈ objects)
    (hreserved : isReservedName info.filename = false)
    (hpath : path.segments = parentPath.segments ++ [info.filename]) :
    (path, info) ∈ (classify parentPath objects).children := by
  rw [classify, foldl_file, List.nil_append,
    zip_repeatedNames hnodup (fun _ _ => List.not_mem_nil), List.mem_filterMap]
  refine ⟨(info, false), List.mem_map_of_mem hinfo, ?_⟩
  have hchild : childPath parentPath info false = .ok path := by
    rw [childPath, hreserved, RelPath.join_eq hpath]
    rfl
  rw [hchild]

theorem reported_nodup (parentPath : RelPath) (objects : List ObjectInfo) :
    ((reported parentPath objects).map Prod.fst).Nodup := by
  have h := classify_nodup parentPath objects
  rwa [reported, List.map_map]

/-- What listing a folder of the storage reports: its objects, by the names that are not
reserved. -/
theorem mem_reported {objects : DeviceObjects} {key : Keying} {folder : List String}
    {parent path : RelPath} {handle : ObjectHandle} :
    (path, handle) ∈ reported parent ((objects.inFolder folder).map (DeviceObjects.info key)) ↔
      ∃ name n, path.segments = parent.segments ++ [name] ∧ n ∈ objects.nodes ∧
        n.path = folder ++ [name] ∧ handle = key n.path ∧ isReservedName name = false := by
  rw [reported, List.mem_map]
  constructor
  · rintro ⟨c, hc, heq⟩
    obtain ⟨hsegments, hreserved, hmem⟩ := classify_child hc
    obtain ⟨n, hn, hinfo⟩ := List.mem_map.mp hmem
    obtain ⟨hnode, name, hpath⟩ := DeviceObjects.mem_inFolder.mp hn
    have hname : c.2.filename = name := by rw [← hinfo, DeviceObjects.info_filename hpath]
    obtain ⟨rfl, rfl⟩ := Prod.mk.inj heq
    rw [hname] at hsegments hreserved
    exact ⟨name, n, hsegments, hnode, hpath, by rw [← hinfo]; rfl, hreserved⟩
  · rintro ⟨name, n, hsegments, hnode, hpath, rfl, hreserved⟩
    have hname : (DeviceObjects.info key n).filename = name := DeviceObjects.info_filename hpath
    refine ⟨(path, DeviceObjects.info key n), ?_, rfl⟩
    apply classify_mem (DeviceObjects.inFolder_names objects key folder)
    · exact List.mem_map_of_mem (DeviceObjects.mem_inFolder.mpr ⟨hnode, name, hpath⟩)
    · rw [hname, hreserved]
    · rw [hname, hsegments]

end Listings

section Handles

variable {phone : KeyedStorage} {n : DeviceNode} {handle : ObjectHandle}

theorem behind_key {k : Keying} (hk : k ∈ phone.keyings) (hn : n ∈ phone.nodes) :
    phone.behind k (k n.path) = some n := by
  cases h : phone.behind k (k n.path) with
  | none =>
    have hnone := List.find?_eq_none.mp h n hn
    simp at hnone
  | some m =>
    have hm := List.mem_of_find?_eq_some h
    have hkey : k m.path = k n.path := by simpa using List.find?_some h
    rw [DeviceObjects.path_inj hm hn (phone.fresh k hk k hk m hm n hn hkey)]

/-- A handle that stood for an object still does, or is dead. -/
theorem behind_was (hwas : phone.Was handle n.path) (hn : n ∈ phone.nodes) :
    phone.Dead handle ∨ (phone.behind phone.key handle = some n ∧ handle = phone.key n.path) := by
  obtain ⟨k, hk, rfl⟩ := hwas
  cases h : phone.behind phone.key (k n.path) with
  | none => exact Or.inl h
  | some m =>
    have hm := List.mem_of_find?_eq_some h
    have hkey : phone.key m.path = k n.path := by simpa using List.find?_some h
    have hsame := DeviceObjects.path_inj hm hn
      (phone.fresh phone.key phone.current k hk m hm n hn hkey)
    exact Or.inr ⟨by rw [hsame], by rw [← hkey, hsame]⟩

theorem not_dead_key (hn : n ∈ phone.nodes) : ¬phone.Dead (phone.key n.path) := by
  intro h
  rw [KeyedStorage.Dead, behind_key phone.current hn] at h
  exact absurd h (by simp)

end Handles

section Opening

variable {objects : DeviceObjects} {phone : KeyedStorage} {k : Keying}

/-- The folder a transfer lists under: the root path itself, or the folder above a file. -/
def Target.folderPath (target : Target) (root : RemotePath) : List String :=
  if target.file.isSome then root.rel.segments.dropLast else root.rel.segments

/-- A handle of a transfer root, `none` for the storage root. -/
def RootHandle (k : Keying) (folder : List String) : Option ObjectHandle :=
  if folder = [] then none else some (k folder)

theorem findChild_stream (hk : k ∈ phone.keyings) {folder : List String} {name : String}
    {info : ObjectInfo} (hfolder : folder ≠ [] → ∃ d ∈ phone.nodes, d.path = folder)
    (h : findChild (phone.stream k) (RootHandle k folder) name = .ok info) :
    ∃ n ∈ phone.nodes, n.path = folder ++ [name] ∧ info = DeviceObjects.info k n := by
  obtain ⟨items, hitems, hmem, hname⟩ := findChild_ok h
  have hlisted : items = ((phone.inFolder folder).map (fun n => .ok (.object (DeviceObjects.info k n)))) ++
      (phone.refused folder).map (fun o => .ok (.skipped o)) := by
    by_cases hroot : folder = []
    · subst hroot
      exact (Except.ok.inj hitems).symm
    · obtain ⟨d, hd, rfl⟩ := hfolder hroot
      rw [RootHandle, if_neg hroot, DeviceObjects.stream] at hitems
      dsimp only at hitems
      rw [behind_key hk hd] at hitems
      exact (Except.ok.inj hitems).symm
  rw [hlisted] at hmem
  rcases List.mem_append.mp hmem with hmem | hmem
  · obtain ⟨n, hn, heq⟩ := List.mem_map.mp hmem
    obtain ⟨hnode, other, hpath⟩ := DeviceObjects.mem_inFolder.mp hn
    obtain rfl : DeviceObjects.info k n = info := ListingItem.object.inj (Except.ok.inj heq)
    rw [DeviceObjects.info_filename hpath] at hname
    exact ⟨n, hnode, hname ▸ hpath, rfl⟩
  · obtain ⟨o, -, heq⟩ := List.mem_map.mp hmem
    exact absurd (Except.ok.inj heq) (by simp)

theorem locateFolders_stream (hk : k ∈ phone.keyings) {folder segments : List String}
    {found : Option ObjectHandle} (hfolder : folder ≠ [] → ∃ d ∈ phone.nodes, d.path = folder)
    (h : locateFolders (phone.stream k) (RootHandle k folder) segments = .ok found) :
    found = RootHandle k (folder ++ segments) ∧
      (folder ++ segments ≠ [] → ∃ d ∈ phone.nodes, d.path = folder ++ segments) := by
  induction segments generalizing folder with
  | nil =>
    rw [List.append_nil]
    exact ⟨(Except.ok.inj h).symm, hfolder⟩
  | cons segment segments ih =>
    rw [locateFolders] at h
    split at h
    · exact absurd h (by simp)
    · rename_i info hchild
      obtain ⟨n, hn, hpath, rfl⟩ := findChild_stream hk hfolder hchild
      split at h
      · have hnext : some (DeviceObjects.info k n).handle = RootHandle k (folder ++ [segment]) := by
          rw [RootHandle, if_neg (by simp), ← hpath]
          rfl
        rw [hnext] at h
        have := ih (fun _ => ⟨n, hn, hpath⟩) h
        simpa using this
      · exact absurd h (by simp)

/-- The root found by `open` is the handle its folder had then. -/
theorem locateRoot_stream (hk : k ∈ phone.keyings) {root : RemotePath} {target : Target}
    (h : locateRoot (phone.stream k) root = .ok target) :
    target.folder = RootHandle k (target.folderPath root) ∧
      (target.folderPath root ≠ [] → ∃ d ∈ phone.nodes, d.path = target.folderPath root) := by
  rw [locateRoot] at h
  split at h
  · rename_i hlast
    have hnil := List.getLast?_eq_none_iff.mp hlast
    obtain rfl := Except.ok.inj h
    rw [Target.folderPath, hnil]
    exact ⟨rfl, fun h => absurd rfl h⟩
  · rename_i last hlast
    have hsegments : root.rel.segments = root.rel.segments.dropLast ++ [last] := by
      rw [List.dropLast_append_getLast?]
      exact hlast
    split at h
    · exact absurd h (by simp)
    · rename_i folder hfolders
      have hstart : (none : Option ObjectHandle) = RootHandle k [] := rfl
      rw [hstart] at hfolders
      -- the folders above lead to the handle they have under this keying
      obtain ⟨hfolder, hthere⟩ := locateFolders_stream hk (fun h => absurd rfl h) hfolders
      rw [List.nil_append] at hfolder hthere
      split at h
      · exact absurd h (by simp)
      · rename_i info hchild
        rw [hfolder] at hchild
        obtain ⟨n, hn, hpath, rfl⟩ := findChild_stream hk hthere hchild
        obtain rfl := Except.ok.inj h
        rw [← hsegments] at hpath
        rw [Target.found]
        split
        · -- a folder is the root itself
          refine ⟨?_, fun _ => ⟨n, hn, hpath⟩⟩
          have hroot : Target.folderPath ⟨some (DeviceObjects.info k n).handle, none⟩ root = n.path :=
            hpath.symm
          rw [hroot, RootHandle, if_neg (phone.named n hn)]
          rfl
        · exact ⟨hfolder, hthere⟩

end Opening

end MtpxCore
