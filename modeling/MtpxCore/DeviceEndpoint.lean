import MtpxCore.DevicePaths
import MtpxCore.DevicePick
import MtpxCore.ResolverRecovers

/-! One storage of a device as the source of a transfer (`mtp/mod.rs`): opened at a folder or at
a single file, then scanned. What it lists are the objects below its folder. -/
namespace MtpxCore

/-- One storage on one device, rooted at a folder or a single file; `target` is the folder the
resolver starts from, and the file as seen at open. -/
structure MtpEndpoint where
  storage : ℕ
  root : RemotePath
  target : Target
  identity : Identity
  deriving DecidableEq, Repr

/-- An object of a device: where a read of it goes. -/
structure DeviceObject where
  deviceSerial : String
  storage : ℕ
  path : List String
  deriving DecidableEq, Repr

namespace MtpEndpoint

/-- Of the storage only its description gets into the identity. -/
def «open» (stream : ObjectStream) (storage : ℕ) (description : String) (path : RemotePath)
    (deviceSerial : String) : Except Error MtpEndpoint :=
  match locateRoot stream path with
  | .error e => .error e
  | .ok target => .ok ⟨storage, path, target, ⟨deviceSerial, description⟩⟩

def label (endpoint : MtpEndpoint) : String :=
  endpoint.identity.deviceSerial ++ ":" ++ endpoint.identity.storage ++ ":" ++ endpoint.root.display

/-- What a scan walks; `cancelled n` is what the token says when it is asked the `n`-th time. -/
def walked (endpoint : MtpEndpoint) (storage : Storage)
    (getObjectInfo : ObjectHandle → Except MtpError ObjectInfo) (cancelled : ℕ → Bool) (fuel : ℕ) :
    Option (Except Error Walked) :=
  match endpoint.target.file with
  | some info => some (pickFile storage getObjectInfo endpoint.target.folder info (cancelled 0))
  | none => walk storage endpoint.target.folder cancelled fuel

def scan (endpoint : MtpEndpoint) (storage : Storage)
    (getObjectInfo : ObjectHandle → Except MtpError ObjectInfo) (cancelled : ℕ → Bool) (fuel : ℕ) :
    Option (Except Error Snapshot) :=
  (endpoint.walked storage getObjectInfo cancelled fuel).map fun result =>
    result.map fun walked => Snapshot.new endpoint.label walked.entries walked.skipped

/-- The object that a transfer from this endpoint calls `path`. -/
def object (endpoint : MtpEndpoint) (path : RelPath) : DeviceObject :=
  ⟨endpoint.identity.deviceSerial, endpoint.storage,
    endpoint.target.folderPath endpoint.root ++ path.segments⟩

end MtpEndpoint

def KeyedStorage.storage (phone : KeyedStorage) (rootHandle : ObjectHandle) : Storage :=
  ⟨rootHandle, phone.collectObjects⟩

/-- An entry that is the object of the phone at its path below `folder`. -/
def KeyedStorage.Describes (phone : KeyedStorage) (folder : List String) (e : Entry) : Prop :=
  ∃ n ∈ phone.nodes, n.path = folder ++ e.path.segments ∧
    e = entryFrom e.path (DeviceObjects.info phone.key n)

/-- What a walk below `folder` has recorded are objects of the phone, and what it has still to
list are folders of it. -/
structure WalkState.Traces (phone : KeyedStorage) (folder : List String) (state : WalkState) :
    Prop where
  entries : ∀ e ∈ state.walked.entries, phone.Describes folder e
  handles : ∀ r ∈ state.walked.handles, r.1.segments ≠ [] ∧ phone.Was r.2 (folder ++ r.1.segments)
  pending : ∀ item ∈ state.pending, StandsFor phone item.2 (folder ++ item.1.segments)

section Walking

variable {phone : KeyedStorage} {folder : List String} {rootHandle : ObjectHandle} {state : WalkState}

/-- A child of a listing is the object of the phone at its path. -/
theorem listFolder_child {handle : Option ObjectHandle} {path : RelPath} {listing : Listing}
    (hstands : StandsFor phone handle (folder ++ path.segments))
    (h : listFolder (phone.storage rootHandle) handle path = .ok listing)
    {c : RelPath × ObjectInfo} (hc : c ∈ listing.children) :
    c.1.segments = path.segments ++ [c.2.filename] ∧ ∃ n ∈ phone.nodes,
      c.2 = DeviceObjects.info phone.key n ∧ n.path = folder ++ c.1.segments := by
  obtain ⟨collection, hcollect, hchildren⟩ := listFolder_children h
  rw [hchildren] at hc
  obtain ⟨hsegments, -, hmem⟩ := classify_child hc
  refine ⟨hsegments, ?_⟩
  change phone.collectObjects handle = .ok collection at hcollect
  rcases collectObjects_stands hstands with ⟨hlive, -⟩ | ⟨dead, -, -, hdead⟩
  · obtain rfl := Except.ok.inj (hlive.symm.trans hcollect)
    obtain ⟨n, hn, hinfo⟩ := List.mem_map.mp hmem
    obtain ⟨hnode, name, hpath⟩ := DeviceObjects.mem_inFolder.mp hn
    have hname : c.2.filename = name := by rw [← hinfo, DeviceObjects.info_filename hpath]
    refine ⟨n, hnode, hinfo.symm, ?_⟩
    rw [hpath, hsegments, hname, List.append_assoc]
  · -- a dropped handle lists nothing
    rw [hdead] at hcollect
    split at hcollect
    · exact absurd hcollect (by simp)
    · obtain rfl := Except.ok.inj hcollect
      exact absurd hmem List.not_mem_nil

theorem WalkState.Traces.child (h : state.Traces phone folder) {parent : RelPath}
    {item : RelPath × ObjectInfo} (hne : item.1.segments ≠ []) {n : DeviceNode} (hn : n ∈ phone.nodes)
    (hinfo : item.2 = DeviceObjects.info phone.key n) (hpath : n.path = folder ++ item.1.segments) :
    (WalkState.child parent state item).Traces phone folder := by
  have hwas : phone.Was item.2.handle (folder ++ item.1.segments) :=
    ⟨phone.key, phone.current, by rw [hinfo, ← hpath]; rfl⟩
  -- the record of a child says the same whether or not its handle is new
  have hrecord {visited : List ObjectHandle} :
      (({ state with visited := visited } : WalkState).record item.1 item.2).Traces phone folder := by
    refine ⟨?_, ?_, ?_⟩
    · intro e he
      rcases List.mem_append.mp he with he | he
      · exact h.entries e he
      · rw [List.mem_singleton.mp he]
        refine ⟨n, hn, ?_, ?_⟩
        · rw [entryFrom_path, hpath]
        · rw [entryFrom_path, hinfo]
    · intro r hr
      rcases List.mem_append.mp hr with hr | hr
      · exact h.handles r hr
      · rw [List.mem_singleton.mp hr]
        exact ⟨hne, hwas⟩
    · intro q hq
      have hpush : StandsFor phone (some item.2.handle) (folder ++ item.1.segments) :=
        Or.inr ⟨item.2.handle, n, rfl, hwas, hn, hpath⟩
      by_cases hfolder : item.2.folder = true
      · rw [WalkState.record, if_pos hfolder] at hq
        rcases List.mem_cons.mp hq with rfl | hq
        · exact hpush
        · exact h.pending q hq
      · rw [WalkState.record, if_neg hfolder] at hq
        exact h.pending q hq
  rw [WalkState.child]
  split
  · split
    · exact ⟨h.entries, h.handles, h.pending⟩
    · exact hrecord
  · exact hrecord

/-- Visiting the folder pushed last keeps to the objects of the phone. -/
theorem WalkState.Traces.visit {path : RelPath} {handle : Option ObjectHandle}
    {pending : List (RelPath × Option ObjectHandle)} {listing : Listing}
    (h : state.Traces phone folder) (hpending : state.pending = (path, handle) :: pending)
    (hl : listFolder (phone.storage rootHandle) handle path = .ok listing) :
    (({ state with pending := pending }).visit path listing).Traces phone folder := by
  have hstands : StandsFor phone handle (folder ++ path.segments) :=
    h.pending (path, handle) (hpending ▸ List.mem_cons_self)
  have hfold (children : List (RelPath × ObjectInfo)) (hsub : ∀ c ∈ children, c ∈ listing.children)
      {s : WalkState} (hs : s.Traces phone folder) :
      (children.foldl (WalkState.child path) s).Traces phone folder := by
    induction children generalizing s with
    | nil => exact hs
    | cons c children ih =>
      obtain ⟨hsegments, n, hn, hinfo, hpath⟩ := listFolder_child hstands hl (hsub c List.mem_cons_self)
      apply ih (fun c' hc' => hsub c' (List.mem_cons_of_mem c hc'))
      exact hs.child (by rw [hsegments]; simp) hn hinfo hpath
  apply hfold listing.children (fun c hc => hc)
  refine ⟨h.entries, h.handles, fun item hitem => h.pending item ?_⟩
  rw [hpending]
  exact List.mem_cons_of_mem _ hitem

theorem walkLoop_traces {cancelled : ℕ → Bool} {walked : Walked} (fuel : ℕ) {asked : ℕ}
    (h : state.Traces phone folder)
    (hw : walkLoop (phone.storage rootHandle) cancelled fuel asked state = some (.ok walked)) :
    (∀ e ∈ walked.entries, phone.Describes folder e) ∧
      ∀ r ∈ walked.handles, r.1.segments ≠ [] ∧ phone.Was r.2 (folder ++ r.1.segments) := by
  induction fuel generalizing asked state with
  | zero => exact absurd hw (by simp [walkLoop])
  | succ fuel ih =>
    rw [walkLoop] at hw
    split at hw
    · obtain rfl := Except.ok.inj (Option.some.inj hw)
      exact ⟨h.entries, h.handles⟩
    · rename_i path handle pending hp
      split at hw
      · exact absurd hw (by simp)
      · split at hw
        · exact absurd hw (by simp)
        · rename_i listing hl
          exact ih (h.visit hp hl) hw

end Walking

section Scanning

variable {phone : KeyedStorage} {rootHandle : ObjectHandle} {k : Keying} {endpoint : MtpEndpoint}
  {root : RemotePath} {target : Target} {info : ObjectInfo} {walked : Walked}

/-- The file that `open` saw is the object at the root path. -/
theorem locateRoot_file (hk : k ∈ phone.keyings)
    (h : locateRoot (phone.stream k) root = .ok target) (hfile : target.file = some info) :
    ∃ n ∈ phone.nodes, info = DeviceObjects.info k n ∧
      n.path = target.folderPath root ++ [info.filename] := by
  have hstream := (locateRoot_stream hk h).1
  rw [Target.folderPath, hfile, Option.isSome_some, if_pos rfl] at hstream ⊢
  rw [locateRoot] at h
  split at h
  · obtain rfl := Except.ok.inj h
    exact absurd hfile (by simp)
  · rename_i last hlast
    split at h
    · exact absurd h (by simp)
    · rename_i folder hfolders
      have hstart : (none : Option ObjectHandle) = RootHandle k [] := rfl
      rw [hstart] at hfolders
      obtain ⟨hfolder, hthere⟩ := locateFolders_stream hk (fun h => absurd rfl h) hfolders
      rw [List.nil_append] at hfolder hthere
      split at h
      · exact absurd h (by simp)
      · rename_i found hchild
        rw [hfolder] at hchild
        obtain ⟨n, hn, hpath, rfl⟩ := findChild_stream hk hthere hchild
        obtain rfl := Except.ok.inj h
        rw [Target.found] at hfile
        split at hfile
        · exact absurd hfile (by simp)
        · obtain rfl := Option.some.inj hfile
          refine ⟨n, hn, rfl, ?_⟩
          rw [DeviceObjects.info_filename hpath, hpath]

theorem walkedFile_ok {name : String} (h : walkedFile name info = .ok walked) :
    ∃ path : RelPath, path.segments = [name] ∧ walked.entries = [entryFrom path info] ∧
      walked.handles = [(path, info.handle)] := by
  rw [walkedFile] at h
  split at h
  · exact absurd h (by simp)
  · rename_i path hpath
    obtain rfl := Except.ok.inj h
    exact ⟨path, RelPath.new_ok hpath, rfl, rfl⟩

/-- The walk of one object of the phone with the name given. -/
theorem walkedFile_traces {folder : List String} {name : String} {n : DeviceNode} (hn : n ∈ phone.nodes)
    (hpath : n.path = folder ++ [name])
    (h : walkedFile name (DeviceObjects.info phone.key n) = .ok walked) :
    (∀ e ∈ walked.entries, phone.Describes folder e) ∧
      ∀ r ∈ walked.handles, r.1.segments ≠ [] ∧ phone.Was r.2 (folder ++ r.1.segments) := by
  obtain ⟨path, hsegments, hentries, hhandles⟩ := walkedFile_ok h
  constructor
  · intro e he
    rw [hentries] at he
    rw [List.mem_singleton.mp he]
    refine ⟨n, hn, ?_, ?_⟩
    · rw [entryFrom_path, hsegments, hpath]
    · rw [entryFrom_path]
  · intro r hr
    rw [hhandles] at hr
    rw [List.mem_singleton.mp hr]
    refine ⟨by rw [hsegments]; simp, phone.key, phone.current, ?_⟩
    rw [hsegments, ← hpath]
    rfl

/-- A handle that still names the file stands for the object it stood for. -/
theorem revalidate_keyed (hk : k ∈ phone.keyings) {n : DeviceNode} (hn : n ∈ phone.nodes)
    {fresh : ObjectInfo}
    (h : revalidate phone.getObjectInfo (DeviceObjects.info k n) = .ok (some fresh)) :
    fresh = DeviceObjects.info phone.key n := by
  rw [revalidate] at h
  split at h
  · rename_i again hagain
    split at h
    · obtain rfl := Option.some.inj (Except.ok.inj h)
      have hwas : phone.Was (DeviceObjects.info k n).handle n.path := ⟨k, hk, rfl⟩
      rw [KeyedStorage.getObjectInfo] at hagain
      rcases behind_was hwas hn with hdead | ⟨hlive, -⟩
      · rw [hdead] at hagain
        exact absurd hagain (by simp)
      · rw [hlive] at hagain
        exact (Except.ok.inj hagain).symm
    · exact absurd h (by simp)
  · split at h <;> exact absurd h (by simp)

/-- A file found by its name is the object of the phone with that path. -/
theorem findFile_keyed {folder : List String} {parent : Option ObjectHandle} {name : String}
    (hstands : StandsFor phone parent folder)
    (h : findFile (phone.storage rootHandle) parent name = .ok info) :
    ∃ n ∈ phone.nodes, info = DeviceObjects.info phone.key n ∧ n.path = folder ++ [name] := by
  have hroot : folder ++ RelPath.root.segments = folder := List.append_nil folder
  rw [findFile] at h
  split at h
  · exact absurd h (by simp)
  · rename_i listing hlisting
    split at h
    · rename_i i hfind
      obtain rfl := Except.ok.inj h
      obtain ⟨c, hc, rfl⟩ := List.mem_map.mp (List.mem_of_find?_eq_some hfind)
      have hname : c.2.filename = name := by
        have hboth := List.find?_some hfind
        simp only [Bool.and_eq_true, decide_eq_true_eq] at hboth
        exact hboth.1
      obtain ⟨hsegments, n, hn, hinfo, hpath⟩ := listFolder_child (hroot.symm ▸ hstands) hlisting hc
      refine ⟨n, hn, hinfo, ?_⟩
      rw [hpath, hsegments, hname]
      rfl
    · split at h <;> exact absurd h (by simp)

/-- Picking a file again finds the object of the phone that has its path now. -/
theorem pickFile_traces {folder : List String} {parent : Option ObjectHandle} {known : ObjectInfo}
    {cancelled : Bool} (hstands : StandsFor phone parent folder) (hk : k ∈ phone.keyings)
    {n : DeviceNode} (hn : n ∈ phone.nodes) (hknown : known = DeviceObjects.info k n)
    (hpath : n.path = folder ++ [known.filename])
    (h : pickFile (phone.storage rootHandle) phone.getObjectInfo parent known cancelled = .ok walked) :
    (∀ e ∈ walked.entries, phone.Describes folder e) ∧
      ∀ r ∈ walked.handles, r.1.segments ≠ [] ∧ phone.Was r.2 (folder ++ r.1.segments) := by
  rw [pickFile] at h
  split at h
  · exact absurd h (by simp)
  · split at h
    · exact absurd h (by simp)
    · rename_i fresh hfresh
      rw [hknown] at hfresh
      obtain rfl := revalidate_keyed hk hn hfresh
      exact walkedFile_traces hn hpath h
    · -- the handle is of no use any more
      split at h
      · exact absurd h (by simp)
      · rename_i found hfound
        obtain ⟨m, hm, rfl, hmpath⟩ := findFile_keyed hstands hfound
        exact walkedFile_traces hm hmpath h

/-- What a scan walks are the objects of the phone below the folder of the transfer, and the
handles it hands to the resolver are theirs. -/
theorem scan_walks (hk : k ∈ phone.keyings) {id : ℕ} {description serial : String}
    (hopen : MtpEndpoint.open (phone.stream k) id description root serial = .ok endpoint)
    {cancelled : ℕ → Bool} {fuel : ℕ}
    (hwalked : endpoint.walked (phone.storage rootHandle) phone.getObjectInfo cancelled fuel =
      some (.ok walked)) :
    (∀ e ∈ walked.entries, ∃ n ∈ phone.nodes, n.path = (endpoint.object e.path).path ∧
        e = entryFrom e.path (DeviceObjects.info phone.key n)) ∧
      phone.Learned (HandleCache.empty.prime walked.handles) (endpoint.target.folderPath endpoint.root) := by
  rw [MtpEndpoint.open] at hopen
  split at hopen
  · exact absurd hopen (by simp)
  · rename_i target hlocate
    obtain rfl := Except.ok.inj hopen
    have hstands := locateRoot_stands hk hlocate
    have htraces : (∀ e ∈ walked.entries, phone.Describes (target.folderPath root) e) ∧
        ∀ r ∈ walked.handles, r.1.segments ≠ [] ∧
          phone.Was r.2 (target.folderPath root ++ r.1.segments) := by
      rw [MtpEndpoint.walked] at hwalked
      split at hwalked
      · rename_i info hfile
        obtain ⟨n, hn, hinfo, hpath⟩ := locateRoot_file hk hlocate hfile
        exact pickFile_traces hstands hk hn hinfo hpath (Option.some.inj hwalked)
      · apply walkLoop_traces fuel ?_ hwalked
        refine ⟨fun e he => absurd he List.not_mem_nil, fun r hr => absurd hr List.not_mem_nil, ?_⟩
        intro item hitem
        rw [List.mem_singleton.mp hitem]
        have hroot : target.folderPath root ++ RelPath.root.segments = target.folderPath root :=
          List.append_nil _
        exact hroot.symm ▸ hstands
    refine ⟨htraces.1, fun q handle hget => ?_⟩
    rcases prime_cases .empty walked.handles q with hnone | ⟨handle', hsome, hmem⟩
    · rw [hnone] at hget
      exact absurd hget (by simp [HandleCache.empty])
    · obtain rfl := Option.some.inj (hsome.symm.trans hget)
      exact htraces.2 (q, handle') hmem

end Scanning

end MtpxCore
