import MtpxCore.DeviceEndpoint
import MtpxCore.PullSplices

/-! Which object of a device a resumed copy reads, two pulls into one directory being given. A
record names its file by the serial, the storage's description, the path below the transfer
root, the size and the time; neither the root nor the storage itself is in it. -/
namespace MtpxCore

open CrashHoare

/-- What tells the object that `second` calls `path` from the one that `first` does, should they
be two: the tree before the first pull has no record of that path about anything else, no file
lands under the record's name, and the listings differ where the objects do. -/
structure ToldApart (vol : Volume) (codec : SidecarCodec) (tree : LocalTree)
    (first second : MtpEndpoint) (pull pull' : Pull) (path : RelPath) : Prop where
  record : ∀ e ∈ pull.source.entries, e.path = path → ∀ record, RecordAt vol codec tree path record →
    record.path = path.display → record.About first.identity path ⟨e.size, e.modified⟩
  landing : ∀ e ∈ pull.source.entries, e.kind = .file →
    cellKey vol e.path.toLocalPath .final ≠ cellKey vol path.toLocalPath .side
  listed : ∀ e ∈ pull.source.entries, ∀ e' ∈ pull'.source.entries, e.path = path → e'.path = path →
    first.object path ≠ second.object path →
      first.identity ≠ second.identity ∨ e.size ≠ e'.size ∨ e.modified ≠ e'.modified

/-- Every record beside the part of `path` that names `path` is about this file. -/
def RecordsAbout (vol : Volume) (codec : SidecarCodec) (peer : Identity) (path : RelPath)
    (fingerprint : Fingerprint) (tree : LocalTree) : Prop :=
  ∀ record, RecordAt vol codec tree path record → record.path = path.display →
    record.About peer path fingerprint

section Vouching

variable {vol : Volume} {codec : SidecarCodec} {peer : Identity} {streams : Streams} {path : RelPath}
  {fingerprint : Fingerprint} {tree tree' : LocalTree}

theorem RecordsAbout.of_files (h : RecordsAbout vol codec peer path fingerprint tree)
    (hfiles : ∀ bytes readable,
      tree'.get vol (localSidecarPath path.toLocalPath) = some (.file bytes readable) →
        tree.get vol (localSidecarPath path.toLocalPath) = some (.file bytes readable)) :
    RecordsAbout vol codec peer path fingerprint tree' := by
  rintro record ⟨hversion, bytes, readable, hget, hdecode⟩ hpath
  exact h record ⟨hversion, bytes, readable, hfiles bytes readable hget, hdecode⟩ hpath

theorem RecordsAbout.grown {depth : ℕ} (h : RecordsAbout vol codec peer path fingerprint tree)
    (hgrown : Grown depth (tree.disk vol) (tree'.disk vol)) :
    RecordsAbout vol codec peer path fingerprint tree' :=
  h.of_files fun _ _ hget => hgrown.file hget

/-- A write puts no record of `path` beside it but one about the file it writes. -/
theorem RecordsAbout.write {request : WriteRequest} {input : ByteStream}
    (h : RecordsAbout vol codec peer path fingerprint tree) (hpath : path.segments ≠ [])
    (hrequest : request.path.segments ≠ [])
    (hlanding : cellKey vol request.path.toLocalPath .final ≠ cellKey vol path.toLocalPath .side)
    (hsame : request.path = path → fingerprint = ⟨request.expectedSize, request.modified⟩)
    (hleaves : Leaves vol codec peer request input tree tree') :
    RecordsAbout vol codec peer path fingerprint tree' := by
  have hk := (nameable vol hrequest).injective
  obtain ⟨d, f, p, s, t, hgrown, hdisk, hleft⟩ := hleaves
  by_cases hshare : cellKey vol request.path.toLocalPath .side = cellKey vol path.toLocalPath .side
  · have hget : tree'.get vol (localSidecarPath path.toLocalPath) = s := by
      change tree'.disk vol (cellKey vol path.toLocalPath .side) = s
      rw [← hshare, hdisk, hk.extend_apply]
      rfl
    have hbefore : tree.get vol (localSidecarPath request.path.toLocalPath) =
        tree.get vol (localSidecarPath path.toLocalPath) := by
      change tree.disk vol (cellKey vol request.path.toLocalPath .side) = _
      rw [hshare]
      rfl
    -- the record there is the old one, none, or this write's own
    have hside : s = tree.get vol (localSidecarPath request.path.toLocalPath) ∨ s = none ∨
        ∃ b readable, s = some (ownRecord codec peer request b readable) := by
      rcases hleft with huntouched | hunderway
      · exact huntouched.side.imp_right Or.inl
      · exact hunderway.side
    rintro record ⟨hversion, bytes, readable, hrecord, hdecode⟩ hnamed
    rw [hget] at hrecord
    rcases hside with hs | hs | ⟨b, readable', hs⟩
    · rw [hs, hbefore] at hrecord
      exact h record ⟨hversion, bytes, readable, hrecord, hdecode⟩ hnamed
    · rw [hs] at hrecord
      exact absurd hrecord (by simp)
    · -- a record of this write names the path of this write
      rw [hs] at hrecord
      cases hrecord
      rw [codec.round_trip] at hdecode
      cases hdecode
      have hpaths : request.path = path := RelPath.display_injective hnamed
      exact ⟨rfl, hnamed, (hsame hpaths).symm⟩
  · -- the record of `path` is out of the reach of this write
    refine h.of_files fun bytes readable hget => ?_
    change tree'.disk vol (cellKey vol path.toLocalPath .side) = _ at hget
    rw [hdisk, Function.extend_apply'] at hget
    · exact hgrown.file hget
    · rintro ⟨x, hx⟩
      by_cases hfinal : x = .final
      · exact hlanding (hfinal ▸ hx)
      · obtain ⟨rfl, -⟩ := transfer_key_shared hrequest hpath hfinal (by simp) hx
        exact hshare hx

/-- What a run leaves beside a file that it was planned to copy. -/
theorem Runs.recordsAbout {pull : Pull} {actions : List Action} {size r : ℕ}
    {modified : Option ModifiedTime} {reason : CopyReason}
    (hplans : pull.Plans vol codec tree actions)
    (hcopy : Action.copy path size modified r reason ∈ actions)
    (hlanding : ∀ e ∈ pull.source.entries, e.kind = .file →
      cellKey vol e.path.toLocalPath .final ≠ cellKey vol path.toLocalPath .side)
    (habout : RecordsAbout vol codec pull.peer path ⟨size, modified⟩ tree)
    (h : Runs vol codec pull.peer streams (fun _ _ => True) actions tree tree') :
    RecordsAbout vol codec pull.peer path ⟨size, modified⟩ tree' := by
  obtain ⟨e, he, rfl, -⟩ := hplans.copies hcopy
  have hpath := pull.named e he
  refine Runs.keeps
    (J := fun as t => (∀ a ∈ as, a ∈ actions) ∧
      RecordsAbout vol codec pull.peer e.path ⟨size, modified⟩ t)
    ?_ (fun _ _ hj => hj.2) h ⟨fun _ ha => ha, habout⟩
  intro a as o t t' _ hj hacts
  obtain ⟨hsub, hv⟩ := hj
  refine ⟨fun b hb => hsub b (List.mem_cons_of_mem a hb), ?_⟩
  cases a with
  | skip q why =>
    rw [hacts.2]
    exact hv
  | mkdir q => exact hv.grown (Acts.mkdir hacts)
  | copy q size' modified' planned why =>
    have hmem := hsub _ List.mem_cons_self
    obtain ⟨e', he', hq, hkind, -⟩ := hplans.copies hmem
    subst hq
    rcases Acts.copy (pull.named e' he') hacts with rfl | ⟨offset, input, -, -, hleaves⟩
    · exact hv
    · apply hv.write hpath (pull.named e' he') (hlanding e' he' hkind) ?_ hleaves
      intro hsame
      -- one path is copied once
      have hnodup : (actions.map Action.path).Nodup := List.pairwise_map.mpr hplans.paths
      have hone : Action.copy e'.path size' modified' planned why =
          Action.copy e.path size modified r reason :=
        List.inj_on_of_nodup_map hnodup hmem hcopy hsame
      obtain ⟨-, rfl, rfl, -⟩ := Action.copy.inj hone
      rfl

end Vouching

/-- A copy that goes on from a partial of an earlier pull reads the object that pull read. -/
theorem resume_same_object (vol : Volume) (codec : SidecarCodec) (first second : MtpEndpoint)
    (pull pull' : Pull) (hfirst : pull.peer = first.identity) (hsecond : pull'.peer = second.identity)
    (streams : Streams) (tree tree' tree'' : LocalTree) (actions actions' : List Action)
    (path : RelPath) (size size' r r' : ℕ) (modified modified' : Option ModifiedTime)
    (reason reason' : CopyReason)
    (hplans : pull.Plans vol codec tree actions)
    (hcopy : Action.copy path size modified r reason ∈ actions)
    (hruns : Runs vol codec pull.peer streams (fun _ _ => True) actions tree tree')
    (hleft : tree''.get vol (localSidecarPath path.toLocalPath) =
      tree'.get vol (localSidecarPath path.toLocalPath))
    (hplans' : pull'.Plans vol codec tree'' actions')
    (hcopy' : Action.copy path size' modified' r' reason' ∈ actions') (hresumes : 0 < r')
    (hapart : ToldApart vol codec tree first second pull pull' path) :
    first.object path = second.object path := by
  obtain ⟨e, he, hpath, -, hsize, hmodified⟩ := hplans.copies hcopy
  obtain ⟨e', he', hpath', -, hsize', hmodified'⟩ := hplans'.copies hcopy'
  have hbegin : RecordsAbout vol codec pull.peer path ⟨size, modified⟩ tree := by
    rw [hfirst, ← hsize, ← hmodified]
    exact hapart.record e he hpath
  have hend : RecordsAbout vol codec pull.peer path ⟨size, modified⟩ tree'' :=
    (hruns.recordsAbout hplans hcopy hapart.landing hbegin).of_files
      (fun _ _ hget => hleft.symm.trans hget)
  -- the record the second pull goes by is about both files
  obtain ⟨record, hrecord, habout, -⟩ := hplans'.pending path size' modified' r' reason' hcopy' hresumes
  obtain ⟨hidentity, -, hfingerprint⟩ := hend record hrecord habout.2.1
  obtain ⟨hidentity', -, hfingerprint'⟩ := habout
  have hpeer : first.identity = second.identity := by
    rw [← hfirst, ← hsecond, ← hidentity, hidentity']
  obtain ⟨rfl, rfl⟩ := Fingerprint.mk.inj (hfingerprint.symm.trans hfingerprint')
  by_contra hne
  rcases hapart.listed e he e' he' hpath hpath' hne with h | h | h
  · exact h hpeer
  · exact h (hsize.trans hsize'.symm)
  · exact h (hmodified.trans hmodified'.symm)

private theorem dcim_valid : ∀ segment ∈ ["DCIM"], validateSegment segment = .ok () := by decide

private theorem backup_valid : ∀ segment ∈ ["Backup"], validateSegment segment = .ok () := by decide

private def dcimRoot : RemotePath := ⟨.ofSegments ["DCIM"] dcim_valid⟩

private def backupRoot : RemotePath := ⟨.ofSegments ["Backup"] backup_valid⟩

private def handleAt (path : List String) : ObjectHandle :=
  if path = ["DCIM"] then ⟨1⟩ else if path = ["Backup"] then ⟨2⟩
  else if path = ["DCIM", "a.jpg"] then ⟨3⟩ else ⟨4⟩

/-- Two folders with a photo each, called the same and of one size; the phone tells no times. -/
private def twoFolders : KeyedStorage where
  nodes := [⟨["DCIM"], true, 0, none⟩, ⟨["Backup"], true, 0, none⟩, ⟨["DCIM", "a.jpg"], false, 4, none⟩,
    ⟨["Backup", "a.jpg"], false, 4, none⟩]
  refused := fun _ => []
  distinct := by decide
  named := by decide
  inside := by decide
  keyings := [handleAt]
  key := handleAt
  current := List.mem_cons_self
  fresh := by decide
  staleListing := fun _ => false

/-- The phone's folders; its card, which goes by the same description, has the same ones. -/
private def endpointAt (storage : ℕ) (root : RemotePath) (handle : ℕ) : MtpEndpoint :=
  ⟨storage, root, ⟨some ⟨handle⟩, none⟩, phoneA⟩

private def pullFrom (endpoint : MtpEndpoint) : Pull where
  peer := endpoint.identity
  source := Snapshot.new endpoint.label [Entry.file aPath 4 none] []
  only := none
  opts := .pull
  named := by
    intro e he
    rw [List.mem_singleton.mp (SortedTable.mem_of_mem_build Entry.path he)]
    decide

private def camera : MtpEndpoint := endpointAt 1 dcimRoot 1

/-- The photo in the camera's folder is all ones, every other all twos. -/
private def photoBytes (object : DeviceObject) : Bytes :=
  List.replicate 4 (if object = camera.object aPath then 1 else 2)

private def readsFrom (endpoint : MtpEndpoint) : Streams := fun path _ offset input =>
  okBytes input <+: (photoBytes (endpoint.object path)).drop offset

/-- The next two bytes of a photo, and perhaps the end of the cable. -/
private def readPhoto (bytes : Bytes) (unplugged : Bool) (offset : ℕ) : Except Error ByteStream :=
  .ok (.ok ((bytes.drop offset).take 2) :: if unplugged then [.error .disconnected] else [])

private noncomputable def copyPhoto (bytes : Bytes) (unplugged : Bool) (planned : ℕ)
    (tree : LocalTree) : Outcome Error Unit × World :=
  LocalEndpoint.copyOne plainVolume (fun _ => .none) .json phoneA ⟨aPath, 4, planned, none⟩
    (readPhoto bytes unplugged) (.fresh tree)

private theorem copyPhoto_runs {endpoint : MtpEndpoint} {bytes : Bytes} {unplugged : Bool}
    {planned : ℕ} {tree tree' : LocalTree} (hbytes : photoBytes (endpoint.object aPath) = bytes)
    (h : (copyPhoto bytes unplugged planned tree).2.tree = tree') :
    Runs plainVolume .json phoneA (readsFrom endpoint) (fun _ _ => True)
      [.copy aPath 4 none planned .new] tree tree' := by
  refine Runs.last (o := (copyPhoto bytes unplugged planned tree).1) trivial
    ⟨fun _ => .none, readPhoto bytes unplugged, .fresh tree,
      (copyPhoto bytes unplugged planned tree).2, rfl, h, ?_, rfl⟩
  intro offset input hread
  cases hread
  have hcable : okBytes (if unplugged then [.error .disconnected] else []) = [] := by
    cases unplugged <;> rfl
  rw [readsFrom, okBytes, hcable, List.append_nil, hbytes]
  exact List.take_prefix 2 _

private theorem plans_photo (endpoint : MtpEndpoint) :
    (pullFrom endpoint).Plans plainVolume .json emptyDir [.copy aPath 4 none 0 .new] :=
  ⟨"local", fun _ => false, _, _, rfl, rfl, rfl⟩

private theorem plans_rest {endpoint : MtpEndpoint} (hpeer : endpoint.identity = phoneA) :
    (pullFrom endpoint).Plans plainVolume .json (brokenTree [1, 1] (sidecarJson twoOnes))
      [.copy aPath 4 none 2 .new] := by
  have hscan : scanLocal plainVolume .json (brokenTree [1, 1] (sidecarJson twoOnes)) "local" .exact
      (pullFrom endpoint).peer none (fun _ => false) =
        .ok ⟨Snapshot.new "local" [] [], [(aPath, ⟨⟨4, none⟩, 2⟩)], .exact⟩ := by
    rw [show (pullFrom endpoint).peer = phoneA from hpeer]
    exact scan_twoOnes [1, 1] phoneA
  exact ⟨"local", fun _ => false, _, _, hscan, rfl, rfl⟩

set_option maxRecDepth 20000 in
private theorem photo_breaks_off : (copyPhoto [1, 1, 1, 1] true 0 emptyDir).2.tree =
    brokenTree [1, 1] (sidecarJson twoOnes) := rfl

private theorem other_goes_on :
    (copyPhoto [2, 2, 2, 2] false 2 (brokenTree [1, 1] (sidecarJson twoOnes))).2.tree =
      onlyFile [1, 1, 2, 2] := by decide +kernel

private theorem camera_leaves : Runs plainVolume .json phoneA (readsFrom camera) (fun _ _ => True)
    [.copy aPath 4 none 0 .new] emptyDir (brokenTree [1, 1] (sidecarJson twoOnes)) :=
  copyPhoto_runs rfl photo_breaks_off

/-- The folder is opened again under a new handle, and its photo goes on where it was. -/
theorem resume_same_object_reopened :
    camera.object aPath = (endpointAt 1 dcimRoot 11).object aPath := by
  refine resume_same_object plainVolume .json camera (endpointAt 1 dcimRoot 11) (pullFrom camera)
    (pullFrom (endpointAt 1 dcimRoot 11)) rfl rfl (readsFrom camera) emptyDir
    (brokenTree [1, 1] (sidecarJson twoOnes)) (brokenTree [1, 1] (sidecarJson twoOnes)) _ _ aPath 4 4 0 2
    none none .new .new (plans_photo camera) List.mem_cons_self camera_leaves rfl (plans_rest rfl)
    List.mem_cons_self (by decide) ⟨?_, ?_, ?_⟩
  · intro e _ _ record hrecord
    exact absurd hrecord (emptyDir_bare aPath record)
  · intro e he _
    rw [List.mem_singleton.mp (SortedTable.mem_of_mem_build Entry.path he)]
    decide
  · intro e _ e' _ _ _ hne
    exact absurd rfl hne

/-- The camera's folder breaks off; a pull of the other folder, or of the camera's folder on the
card, takes its partial for its own and makes one file of two photos. -/
theorem resume_reads_other_object :
    MtpEndpoint.open (twoFolders.stream handleAt) 1 "Internal" dcimRoot "A" = .ok camera ∧
      camera.scan (twoFolders.storage ⟨0⟩) twoFolders.getObjectInfo (fun _ => false) 5 =
        some (.ok (pullFrom camera).source) ∧
      (pullFrom camera).Plans plainVolume .json emptyDir [.copy aPath 4 none 0 .new] ∧
      Runs plainVolume .json phoneA (readsFrom camera) (fun _ _ => True) [.copy aPath 4 none 0 .new]
        emptyDir (brokenTree [1, 1] (sidecarJson twoOnes)) ∧
      ∀ other : MtpEndpoint, other = endpointAt 1 backupRoot 2 ∨ other = endpointAt 2 dcimRoot 1 →
        MtpEndpoint.open (twoFolders.stream handleAt) other.storage "Internal" other.root "A" =
            .ok other ∧
          other.scan (twoFolders.storage ⟨0⟩) twoFolders.getObjectInfo (fun _ => false) 5 =
            some (.ok (pullFrom other).source) ∧
          (pullFrom other).Plans plainVolume .json (brokenTree [1, 1] (sidecarJson twoOnes))
            [.copy aPath 4 none 2 .new] ∧
          camera.object aPath ≠ other.object aPath ∧
          Runs plainVolume .json phoneA (readsFrom other) (fun _ _ => True)
            [.copy aPath 4 none 2 .new] (brokenTree [1, 1] (sidecarJson twoOnes))
            (onlyFile [1, 1, 2, 2]) := by
  refine ⟨rfl, rfl, plans_photo camera, camera_leaves, ?_⟩
  rintro other (rfl | rfl)
  · exact ⟨rfl, rfl, plans_rest rfl, by decide, copyPhoto_runs rfl other_goes_on⟩
  · exact ⟨rfl, rfl, plans_rest rfl, by decide, copyPhoto_runs rfl other_goes_on⟩

end MtpxCore
