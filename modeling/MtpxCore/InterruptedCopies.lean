import MtpxCore.PartWriterMoves
import MtpxCore.PartWriterLeaves
import MtpxCore.SingleFileScan
import MtpxCore.PullRuns

/-! An interrupted copy and the run after it. The record of a part is written under the
source's spelling and found under the volume's, so it is found exactly when no folder on the
way to it has a spelling of its own. -/
namespace MtpxCore

open CrashHoare

/-- The write ended early, and the last thing it did was to record that `k` bytes of the file
are on its part. -/
structure StoppedAt (vol : Volume) (codec : SidecarCodec) (peer : Identity) (request : WriteRequest)
    (input : ByteStream) (k : ℕ) (w w' : World) : Prop where
  ended : ∃ env error, LocalEndpoint.write vol env codec peer request input w = (.err error, w')
  honoured : request.Honoured vol w.tree
  written : SidecarWritten request.path.toLocalPath w'
  counted : ∃ readable, w'.tree.get vol (localSidecarPath request.path.toLocalPath) =
    some (ownRecord codec peer request k readable)
  landed : ∃ bytes readable, w'.tree.get vol (localPartPath request.path.toLocalPath) =
    some (.file bytes readable) ∧ k ≤ bytes.length

/-- The scan reports the partial of the file, and any plan that copies the file unchanged goes
on at `k`. -/
def ResumesAt (vol : Volume) (request : WriteRequest) (k : ℕ) (result : ScanResult) : Prop :=
  result.partials.get request.path = some ⟨⟨request.expectedSize, request.modified⟩, k⟩ ∧
    ∀ source opts p r reason,
      plan vol.tables source result.snapshot result.folding result.partials opts = .ok p →
      Action.copy request.path request.expectedSize request.modified r reason ∈ p.actions → r = k

/-- The volume spells every folder on the way to the file as the source does, and can list it,
and the record is no longer than a scan reads. -/
def FoundAgain (vol : Volume) (codec : SidecarCodec) (peer : Identity) (request : WriteRequest) (k : ℕ)
    (tree : LocalTree) : Prop :=
  Spelled vol request.path.toLocalPath.dropLast tree ∧
    (codec.encode { sidecarFor peer request with bytes := k }).length ≤ MAX_SIDECAR_BYTES

section Reading

variable {vol : Volume} {codec : SidecarCodec} {tree : LocalTree} {peer : Identity}

/-- A place is reached through folders that can be listed and named. -/
theorem reached_iff {path : List OsName} : reached tree path = true ↔
    ∀ d, d <+: path → d ≠ path →
      Node.mk d (.dir true) ∈ tree ∧ (d = [] ∨ (relative d).isOk = true) := by
  rw [reached, List.all_eq_true]
  constructor
  · intro h d hd hne
    have hlt : d.length < path.length := by
      refine lt_of_le_of_ne hd.length_le fun hlen => hne ?_
      exact hd.eq_of_length hlen
    have hat := h d.length (List.mem_range.mpr hlt)
    rw [← List.prefix_iff_eq_take.mp hd, Bool.and_eq_true, decide_eq_true_eq, Bool.or_eq_true,
      decide_eq_true_eq, List.length_eq_zero_iff] at hat
    exact hat
  · intro h n hn
    have hlt := List.mem_range.mp hn
    have hlen : (path.take n).length = n := List.length_take_of_le hlt.le
    have hne : path.take n ≠ path := by
      intro heq
      rw [heq] at hlen
      omega
    obtain ⟨hm, hname⟩ := h _ (List.take_prefix n path) hne
    rw [Bool.and_eq_true, decide_eq_true_eq, Bool.or_eq_true, decide_eq_true_eq]
    refine ⟨hm, hname.imp_left fun hnil => ?_⟩
    rw [← hlen, hnil, List.length_nil]

/-- A path of the transfer is named by itself, and so is each above it. -/
theorem relative_above {path : RelPath} {d : List OsName} (hd : d <+: path.toLocalPath) :
    (relative d).isOk = true := by
  obtain ⟨segments, hseg⟩ : ∃ segments, segments <+: path.segments ∧ d = segments.map OsName.utf8 := by
    refine ⟨path.segments.take d.length, List.take_prefix _ _, ?_⟩
    rw [List.map_take]
    exact List.prefix_iff_eq_take.mp hd
  have hrel := relative_toLocalPath
    ⟨segments, fun segment hm => path.valid segment (hseg.1.subset hm)⟩
  rw [RelPath.toLocalPath] at hrel
  rw [hseg.2, hrel]
  rfl

theorem readSidecar_of {path : RelPath} {text : Bytes} {readable : Bool}
    (h : tree.get vol (localSidecarPath path.toLocalPath) = some (.file text readable)) :
    readSidecar vol codec tree path.toLocalPath =
      if readable = true then
        if text.length > MAX_SIDECAR_BYTES then .ok none else .ok (codec.decode text)
      else .error (.localIo "read sidecar"
        ((localSidecarPath path.toLocalPath).map OsName.lossy) .other) := by
  change tree.get vol (osWithSuffix path.toLocalPath SIDECAR_SUFFIX) = _ at h
  rw [readSidecar, h]
  cases readable <;> rfl

/-- A file and its record lie in one folder, under a name and the same name with a suffix. -/
theorem record_concat {path : RelPath} (h : path.segments ≠ []) :
    ∃ dir name, name ≠ "" ∧ path.toLocalPath = dir ++ [.utf8 name] ∧
      localSidecarPath path.toLocalPath = dir ++ [.utf8 (name ++ SIDECAR_SUFFIX)] := by
  obtain ⟨dir, name, hlocal⟩ := toLocalPath_concat h
  refine ⟨dir, name, ?_, hlocal, ?_⟩
  · rintro rfl
    obtain ⟨segment, hm, hseg⟩ : ∃ segment ∈ path.segments, OsName.utf8 segment = .utf8 "" := by
      apply List.mem_map.mp
      rw [← RelPath.toLocalPath, hlocal]
      exact List.mem_append_right _ (List.mem_singleton_self _)
    have hvalid := path.valid segment hm
    rw [OsName.utf8.inj hseg] at hvalid
    exact absurd hvalid (by decide)
  · rw [hlocal]
    exact cellPath_concat dir name .side

/-- A scan for one file looks at that file's record, which lies at the root then. -/
theorem wanted_record {path : RelPath} {only : Option String} (obj : Obj)
    (honly : ∀ name, only = some name → path.segments = [name]) :
    wanted only ⟨localSidecarPath path.toLocalPath, obj⟩ = true ∧
      (only.map (fun _ => 1)).all (fun depth =>
        decide ((localSidecarPath path.toLocalPath).length ≤ depth)) = true := by
  cases only with
  | none => exact ⟨rfl, rfl⟩
  | some n =>
    have hside : localSidecarPath path.toLocalPath = [.utf8 (n ++ SIDECAR_SUFFIX)] := by
      rw [RelPath.toLocalPath, honly n rfl]
      exact cellPath_concat [] n .side
    rw [hside]
    exact ⟨(wanted_iff rfl).mpr (Or.inr ⟨SIDECAR_SUFFIX, by decide, rfl⟩), rfl⟩

/-- Whoever can list the folders above a file comes to its record. -/
theorem reached_record {path : RelPath} (h : path.segments ≠ [])
    (habove : ∀ d ∈ path.toLocalPath.dropLast.inits, Node.mk d (.dir true) ∈ tree) :
    reached tree (localSidecarPath path.toLocalPath) = true := by
  obtain ⟨dir, name, -, hlocal, hside⟩ := record_concat h
  rw [hlocal, List.dropLast_concat] at habove
  rw [reached_iff, hside]
  intro d hd hne
  have hdir : d <+: dir := (List.prefix_concat_iff.mp hd).resolve_left hne
  have hbelow : d <+: path.toLocalPath := by
    rw [hlocal]
    exact hdir.trans (List.prefix_append _ _)
  exact ⟨habove d ((List.mem_inits _ _).mpr hdir), Or.inr (relative_above hbelow)⟩

/-- The name of a record gives back the name of its file. -/
theorem finalPathOf_record {dir : List OsName} {name : String} (hname : name ≠ "") :
    finalPathOf (dir ++ [.utf8 (name ++ SIDECAR_SUFFIX)]) = some (dir ++ [.utf8 name]) := by
  have htake : String.ofList ((name ++ SIDECAR_SUFFIX).toList.take
      ((name ++ SIDECAR_SUFFIX).toList.length - SIDECAR_SUFFIX.length)) = name := by
    apply String.toList_inj.mp
    rw [String.toList_ofList, String.toList_append, List.length_append, ← String.length_toList,
      Nat.add_sub_cancel_right, List.take_left]
  rw [finalPathOf, List.getLast?_concat]
  dsimp only
  rw [if_pos (endsWith_append name SIDECAR_SUFFIX), htake, if_neg hname, List.dropLast_concat]

/-- A record and a part that line up make a partial, whatever else the tree holds. -/
theorem collectPartial_of {sidecar : List OsName} {path : RelPath} {record : Sidecar} {len : ℕ}
    (hfinal : finalPathOf sidecar = some path.toLocalPath)
    (hread : readSidecar vol codec tree path.toLocalPath = .ok (some record))
    (hpart : partLen vol tree (localPartPath path.toLocalPath) = some len)
    (hvalid : record.isValidFor peer len = true) (hpath : record.path = path.display) :
    collectPartial vol codec tree peer sidecar =
      .ok (some (path, ⟨record.fingerprint, record.bytes⟩)) := by
  have hload : loadPartial vol codec tree sidecar = .ok (some (path.toLocalPath, record, len)) := by
    rw [loadPartial, hfinal]
    dsimp only
    rw [hread]
    dsimp only
    rw [show osWithSuffix path.toLocalPath PART_SUFFIX = localPartPath path.toLocalPath from rfl, hpart]
  rw [collectPartial, hload]
  dsimp only
  rw [relative_toLocalPath]
  dsimp only
  rw [if_pos]
  rw [hvalid, decide_eq_true hpath]
  rfl

end Reading

section Interrupted

variable {vol : Volume} {codec : SidecarCodec} {peer : Identity} {request : WriteRequest}
  {input : ByteStream} {k : ℕ} {w w' : World}

theorem StoppedAt.moved (h : StoppedAt vol codec peer request input k w w')
    (hpath : request.path.segments ≠ []) : Moved vol request.path.toLocalPath w.tree w' := by
  obtain ⟨env, error, hrun⟩ := h.ended
  exact (write_moved hpath).run_err rfl hrun

/-- Every folder above an object of a well-formed tree is there. -/
theorem LocalTree.WellFormed.above {tree : LocalTree} (h : tree.WellFormed vol) {d path : List OsName}
    (hd : d <+: path) {obj : Obj} (hm : Node.mk path obj ∈ tree) (hne : d ≠ path) :
    ∃ readable, Node.mk d (.dir readable) ∈ tree := by
  induction path using List.reverseRecOn generalizing obj with
  | nil => exact absurd (List.prefix_nil.mp hd) hne
  | append_singleton parent name ih =>
    have hparent := h.nested _ hm (by simp)
    obtain ⟨readable, hparent⟩ := hparent
    rw [show (Node.mk (parent ++ [name]) obj).path.dropLast = parent from List.dropLast_concat] at hparent
    have habove' : d <+: parent := (List.prefix_concat_iff.mp hd).resolve_left hne
    by_cases heq : d = parent
    · rw [heq]
      exact ⟨readable, hparent⟩
    · exact ih habove' hparent heq

/-- Where the folders had the source's spelling, the record lies where the scan looks for it. -/
theorem StoppedAt.placed (h : StoppedAt vol codec peer request input k w w')
    (hpath : request.path.segments ≠ []) (hw : w.tree.WellFormed vol)
    (hs : Spelled vol request.path.toLocalPath.dropLast w.tree) :
    (∃ readable, Node.mk (localSidecarPath request.path.toLocalPath)
        (ownRecord codec peer request k readable) ∈ w'.tree) ∧
      ∀ d ∈ request.path.toLocalPath.dropLast.inits, Node.mk d (.dir true) ∈ w'.tree := by
  obtain ⟨hmoves, hplaced⟩ := h.moved hpath
  have hwell := hmoves.wellFormed hw
  have hspelled := hmoves.spelled (nameable vol hpath).nonempty hs
  obtain ⟨⟨path, obj⟩, hm, hkey, hlast⟩ := hplaced h.written
  obtain ⟨readable, hcounted⟩ := h.counted
  obtain ⟨dir, name, -, hlocal, hside⟩ := record_concat hpath
  change vol.foldPath path = _ at hkey
  change path.getLast? = _ at hlast
  rw [hlocal, List.dropLast_concat] at hspelled ⊢
  rw [← hlocal]
  rw [hside, List.getLast?_concat] at hlast
  obtain ⟨init, rfl⟩ := List.getLast?_eq_some_iff.mp hlast
  have hobj : obj = ownRecord codec peer request k readable := by
    have hfind := hwell.unique.find hm hkey
    rw [LocalTree.get_of_find hfind] at hcounted
    exact Option.some.inj hcounted
  -- the folder of the record is the one the source names
  have hinit : init = dir := by
    obtain ⟨r, hfolder⟩ := hwell.above (List.prefix_append init _) hm (by simp)
    have hfold : vol.foldPath init = vol.foldPath dir := by
      rw [hside, Volume.foldPath, Volume.foldPath, List.map_append, List.map_append] at hkey
      exact (List.append_inj' hkey rfl).1
    exact congrArg Node.path (hspelled _ hfolder dir ((List.mem_inits _ _).mpr List.prefix_rfl) hfold)
  rw [hinit] at hm
  refine ⟨⟨readable, ?_⟩, fun d hd => ?_⟩
  · rw [hside, ← hobj]
    exact hm
  · have habove' := (List.mem_inits _ _).mp hd
    have hne : d ≠ dir ++ [.utf8 (name ++ SIDECAR_SUFFIX)] := by
      intro heq
      have hlen := habove'.length_le
      rw [heq, List.length_append, List.length_singleton] at hlen
      omega
    obtain ⟨r, hfolder⟩ := hwell.above (habove'.trans (List.prefix_append dir _)) hm hne
    rw [← hspelled _ hfolder d hd rfl]
    exact hfolder

/-- What a scan makes of the record, once it comes to it and can read it. -/
theorem StoppedAt.vouched (h : StoppedAt vol codec peer request input k w w')
    (hpath : request.path.segments ≠ []) (hserial : peer.deviceSerial ≠ "") {readable : Bool}
    (hside : w'.tree.get vol (localSidecarPath request.path.toLocalPath) =
      some (ownRecord codec peer request k readable))
    (hbreaks : ¬Breaks vol codec w'.tree peer
      ⟨localSidecarPath request.path.toLocalPath, ownRecord codec peer request k readable⟩)
    (hsize : (codec.encode { sidecarFor peer request with bytes := k }).length ≤ MAX_SIDECAR_BYTES) :
    Vouches vol codec w'.tree peer
      ⟨localSidecarPath request.path.toLocalPath, ownRecord codec peer request k readable⟩
      (request.path, ⟨⟨request.expectedSize, request.modified⟩, k⟩) := by
  obtain ⟨bytes, partReadable, hpart, hle⟩ := h.landed
  obtain ⟨dir, name, hname, hlocal, hrecord⟩ := record_concat hpath
  have hfinal : finalPathOf (localSidecarPath request.path.toLocalPath) =
      some request.path.toLocalPath := by
    rw [hrecord, finalPathOf_record hname, hlocal]
  have hnode (obj : Obj) : (Node.mk (localSidecarPath request.path.toLocalPath) obj).name =
      name ++ SIDECAR_SUFFIX := by
    rw [Node.name, hrecord, List.getLast?_concat]
    rfl
  have htransfer : (Node.mk (localSidecarPath request.path.toLocalPath)
      (ownRecord codec peer request k readable)).isTransferFile = true := by
    rw [Node.isTransferFile, hnode, Bool.and_eq_true]
    exact ⟨rfl, isReservedName_iff.mpr ⟨name, SIDECAR_SUFFIX, by decide, rfl⟩⟩
  have hsuffix : endsWith (Node.mk (localSidecarPath request.path.toLocalPath)
      (ownRecord codec peer request k readable)).name SIDECAR_SUFFIX = true := by
    rw [hnode]
    exact endsWith_append name SIDECAR_SUFFIX
  have hread : readSidecar vol codec w'.tree request.path.toLocalPath = _ := readSidecar_of hside
  cases readable with
  | false =>
    -- the scan would have ended here
    obtain ⟨e, he⟩ : ∃ e, readSidecar vol codec w'.tree request.path.toLocalPath = .error e :=
      ⟨_, hread⟩
    refine absurd ⟨htransfer, hsuffix, e, ?_⟩ hbreaks
    rw [collectPartial, loadPartial, hfinal]
    dsimp only
    rw [he]
  | true =>
    rw [if_pos rfl, if_neg (Nat.not_lt.mpr hsize), codec.round_trip] at hread
    have hlen : partLen vol w'.tree (localPartPath request.path.toLocalPath) = some bytes.length := by
      rw [partLen, hpart]
    exact ⟨htransfer, hsuffix, collectPartial_of hfinal hread hlen
      (Sidecar.isValidFor_iff.mpr ⟨rfl, hserial, rfl, hle⟩) rfl⟩

section Scanned

variable {label : String} {detected : NameFolding} {only : Option String} {cancelled : ℕ → Bool}
  {result : ScanResult}

/-- A scan that finds the record reports the partial. -/
theorem StoppedAt.reported (h : StoppedAt vol codec peer request input k w w')
    (hpath : request.path.segments ≠ []) (hw : w.tree.WellFormed vol)
    (hserial : peer.deviceSerial ≠ "")
    (honly : ∀ name, only = some name → request.path.segments = [name])
    (hscan : scanLocal vol codec w'.tree label detected peer only cancelled = .ok result)
    (hfound : FoundAgain vol codec peer request k w.tree) :
    (request.path, ⟨⟨request.expectedSize, request.modified⟩, k⟩) ∈ result.partials := by
  obtain ⟨⟨readable, hm⟩, habove⟩ := h.placed hpath hw hfound.1
  have hwell := (h.moved hpath).1.wellFormed hw
  obtain ⟨hbreaks, -, hpartials, -⟩ := scan_found hwell.unique hscan
  have hroot : rootIsPresent vol w'.tree = .ok true := by
    have hfind := hwell.unique.find (habove [] ((List.mem_inits _ _).mpr List.nil_prefix)) rfl
    rw [rootIsPresent, LocalTree.get_of_find hfind]
  obtain ⟨hwanted, hdepth⟩ := wanted_record (ownRecord codec peer request k readable) honly
  have hne : localSidecarPath request.path.toLocalPath ≠ [] := by
    obtain ⟨dir, name, -, -, hside⟩ := record_concat hpath
    rw [hside]
    simp
  have hlooked : Looked vol w'.tree only ⟨localSidecarPath request.path.toLocalPath,
      ownRecord codec peer request k readable⟩ :=
    ⟨hroot, mem_walkItems.mpr ⟨hm, hne, hdepth, reached_record hpath habove, by simp [ownRecord]⟩,
      hwanted⟩
  have hside := LocalTree.get_of_find (hwell.unique.find hm rfl)
  exact (hpartials _).mpr ⟨_, hlooked, h.vouched hpath hserial hside (hbreaks _ hlooked) hfound.2⟩

/-- A scan that reports any partial of the file has found the record. -/
theorem StoppedAt.found (h : StoppedAt vol codec peer request input k w w')
    (hpath : request.path.segments ≠ []) (hw : w.tree.WellFormed vol)
    (hscan : scanLocal vol codec w'.tree label detected peer only cancelled = .ok result)
    {info : PartialInfo} (hm : (request.path, info) ∈ result.partials) :
    FoundAgain vol codec peer request k w.tree := by
  have hmoves := (h.moved hpath).1
  have hwell := hmoves.wellFormed hw
  obtain ⟨-, -, hpartials, -⟩ := scan_found hwell.unique hscan
  obtain ⟨node, ⟨-, hitem, -⟩, -, -, hcollect⟩ := (hpartials _).mp hm
  obtain ⟨record, len, hfinal, hread, -⟩ := collectPartial_some hcollect
  obtain ⟨dir, stem, hlocal, hnode⟩ := finalPathOf_some hfinal
  obtain ⟨-, -, -, hreached, -⟩ := mem_walkItems.mp hitem
  rw [reached_iff, hnode] at hreached
  refine ⟨?_, ?_⟩
  · intro old hold d hd hkey
    rw [hlocal, List.dropLast_concat] at hd
    have habove' := (List.mem_inits _ _).mp hd
    have hlen : old.path.length ≤ request.path.toLocalPath.dropLast.length := by
      rw [Volume.length_eq_of_fold hkey, hlocal, List.dropLast_concat]
      exact habove'.length_le
    have hne : d ≠ dir ++ [.utf8 (stem ++ SIDECAR_SUFFIX)] := by
      intro heq
      have hle := habove'.length_le
      rw [heq, List.length_append, List.length_singleton] at hle
      omega
    obtain ⟨hthere, -⟩ := hreached d (habove'.trans (List.prefix_append dir _)) hne
    exact hwell.unique.eq (hmoves.keeps (nameable vol hpath).nonempty hold hlen) hthere hkey
  · obtain ⟨readable, hside⟩ := h.counted
    rw [readSidecar_of hside] at hread
    split at hread
    · split at hread
      · exact absurd hread (by simp)
      · rename_i hle
        exact Nat.not_lt.mp hle
    · exact absurd hread (by simp)

/-- The next run goes on where the copy stopped exactly when the record is found again. -/
theorem interrupted_resumes_iff (vol : Volume) (codec : SidecarCodec) (peer : Identity)
    (request : WriteRequest) (input : ByteStream) (k : ℕ) (w w' : World) (label : String)
    (detected : NameFolding) (only : Option String) (cancelled : ℕ → Bool) (result : ScanResult)
    (hpath : request.path.segments ≠ []) (hw : w.tree.WellFormed vol)
    (hserial : peer.deviceSerial ≠ "") (hk : k ≤ request.expectedSize)
    (hstopped : StoppedAt vol codec peer request input k w w')
    (honly : ∀ name, only = some name → request.path.segments = [name])
    (hscan : scanLocal vol codec w'.tree label detected peer only cancelled = .ok result) :
    ResumesAt vol request k result ↔ FoundAgain vol codec peer request k w.tree := by
  constructor
  · intro h
    exact hstopped.found hpath hw hscan (Partials.mem_of_get h.1)
  · intro hfound
    have hm := hstopped.reported hpath hw hserial honly hscan hfound
    have hget : result.partials.get request.path =
        some ⟨⟨request.expectedSize, request.modified⟩, k⟩ := by
      obtain ⟨info, hinfo⟩ := Partials.get_of_mem hm
      have hwell := (hstopped.moved hpath).1.wellFormed hw
      obtain ⟨-, -, hpartials, -⟩ := scan_found hwell.unique hscan
      obtain ⟨node, -, -, -, hcollect⟩ := (hpartials _).mp hm
      obtain ⟨node', -, -, -, hcollect'⟩ := (hpartials _).mp (Partials.mem_of_get hinfo)
      rw [hinfo, collectPartial_unique hcollect' hcollect]
    refine ⟨hget, fun source opts p r reason hplan hcopy => ?_⟩
    obtain ⟨e, -, -, -, hsize, hmodified, hoffset, -⟩ := planned_copy hplan hcopy
    rw [hoffset, hget, resumeOffset, Fingerprint.matchesEntry]
    dsimp only
    rw [hsize, hmodified, decide_eq_true rfl, decide_eq_true rfl, decide_eq_true hk]
    rfl

end Scanned

end Interrupted

private def macVolume : Volume := ⟨.ascii, .caseInsensitive, 64⟩

private def player : Identity := ⟨"ZY22", "Internal"⟩

private def trackPath : RelPath := .ofSegments ["Albums", "a.mp3"]

private def track : WriteRequest := ⟨trackPath, 4, 0, none⟩

private def halfTrack : Sidecar := { sidecarFor player track with bytes := 2 }

/-- Two of the four bytes, and the end of the cable. -/
private def cutShort : ByteStream := [.ok [1, 1], .error .disconnected]

/-- A library with one folder, which the phone calls `Albums`. -/
private def library (dir : String) : LocalTree := [⟨[], .dir true⟩, ⟨[.utf8 dir], .dir true⟩]

private def halfway (dir : String) (text : Bytes) : LocalTree := library dir ++
  [⟨[.utf8 dir, .utf8 "a.mp3.mtpx-part"], .file [1, 1] true⟩,
    ⟨[.utf8 dir, .utf8 "a.mp3.mtpx-part.json"], .file text true⟩]

private noncomputable def firstRun (dir : String) : Outcome Error Unit × World :=
  LocalEndpoint.write macVolume (fun _ => .none) .json player track cutShort (.fresh (library dir))

set_option maxRecDepth 20000 in
private theorem firstRun_ends {dir : String} (h : dir = "albums" ∨ dir = "Albums") :
    (firstRun dir).1 = .err .disconnected ∧
      (firstRun dir).2.tree = halfway dir (sidecarJson halfTrack) ∧
        SidecarWritten trackPath.toLocalPath (firstRun dir).2 := by
  rcases h with rfl | rfl <;> exact ⟨rfl, rfl, rfl⟩

private theorem halfway_side {dir : String} (h : dir = "albums" ∨ dir = "Albums") (text : Bytes) :
    (halfway dir text).get macVolume (localSidecarPath trackPath.toLocalPath) =
      some (.file text true) := by
  rcases h with rfl | rfl <;> rfl

private theorem firstRun_stopped {dir : String} (h : dir = "albums" ∨ dir = "Albums") :
    StoppedAt macVolume .json player track cutShort 2 (.fresh (library dir)) (firstRun dir).2 := by
  obtain ⟨herror, htree, hwritten⟩ := firstRun_ends h
  refine ⟨⟨fun _ => .none, .disconnected, Prod.ext herror rfl⟩, rfl, hwritten, ⟨true, ?_⟩,
    ⟨[1, 1], true, ?_, le_rfl⟩⟩
  · rw [htree, ← SidecarCodec.json_encode]
    exact halfway_side h (SidecarCodec.json.encode halfTrack)
  · rw [htree]
    rcases h with rfl | rfl <;> rfl

private theorem halfTrack_short : (sidecarJson halfTrack).length ≤ 200 := by decide +kernel

/-- The partial of the track, where the folder is the phone's. -/
private def foundIn (dir : String) : Partials :=
  if dir = "Albums" then [(trackPath, ⟨⟨4, none⟩, 2⟩)] else []

/-- What the second run's scan finds in either library. -/
private theorem scan_halfway {dir : String} (h : dir = "albums" ∨ dir = "Albums") :
    ∃ snapshot, scanLocal macVolume .json (halfway dir (sidecarJson halfTrack)) "local" .caseInsensitive
        player none (fun _ => false) = .ok ⟨snapshot, foundIn dir, .caseInsensitive⟩ ∧
      (plan macVolume.tables (Snapshot.new "phone" [Entry.file trackPath 4 none] []) snapshot
        .caseInsensitive (foundIn dir) .pull).map Plan.actions =
        .ok [.copy trackPath 4 none (if dir = "Albums" then 2 else 0) .new] := by
  -- the text of the record is long, so it is kept under a name
  obtain ⟨text, htext⟩ : ∃ text, text = sidecarJson halfTrack := ⟨_, rfl⟩
  have hshort := halfTrack_short
  have hdecode := SidecarCodec.json_decode halfTrack
  rw [← htext] at hshort hdecode ⊢
  clear htext
  have hread : readSidecar macVolume .json (halfway dir text) [.utf8 dir, .utf8 "a.mp3"] =
      .ok (some halfTrack) := by
    have hget : (halfway dir text).get macVolume
        (osWithSuffix [.utf8 dir, .utf8 "a.mp3"] SIDECAR_SUFFIX) = some (.file text true) := by
      rcases h with rfl | rfl <;> rfl
    apply readSidecar_short hget _ hdecode
    rw [MAX_SIDECAR_BYTES]
    omega
  have hload : loadPartial macVolume .json (halfway dir text)
      [.utf8 dir, .utf8 "a.mp3.mtpx-part.json"] =
        .ok (some ([.utf8 dir, .utf8 "a.mp3"], halfTrack, 2)) := by
    rw [loadPartial, show finalPathOf [.utf8 dir, .utf8 "a.mp3.mtpx-part.json"] =
      some [.utf8 dir, .utf8 "a.mp3"] from rfl]
    dsimp only
    rw [hread]
    rcases h with rfl | rfl <;> rfl
  have hcollect : collectPartial macVolume .json (halfway dir text) player
      [.utf8 dir, .utf8 "a.mp3.mtpx-part.json"] =
        .ok (if dir = "Albums" then some (trackPath, ⟨⟨4, none⟩, 2⟩) else none) := by
    rw [collectPartial, hload]
    rcases h with rfl | rfl <;> rfl
  have hpart (found : Found) : visit macVolume .json (halfway dir text) player
      ⟨[.utf8 dir, .utf8 "a.mp3.mtpx-part"], .file [1, 1] true⟩ found = .ok found := by
    have hname : Node.name ⟨[.utf8 dir, .utf8 "a.mp3.mtpx-part"], .file [1, 1] true⟩ =
        "a.mp3.mtpx-part" := rfl
    exact visit_passes rfl hname rfl (by decide) found
  have hside (found : Found) : visit macVolume .json (halfway dir text) player
      ⟨[.utf8 dir, .utf8 "a.mp3.mtpx-part.json"], .file text true⟩ found =
        .ok { found with partials := foundIn dir ++ found.partials } := by
    have hname : Node.name ⟨[.utf8 dir, .utf8 "a.mp3.mtpx-part.json"], .file text true⟩ =
        "a.mp3.mtpx-part.json" := rfl
    rw [visit_record rfl hname rfl rfl hcollect]
    rcases h with rfl | rfl <;> rfl
  have hitems : walkItems (halfway dir text) none =
      [.entry ⟨[.utf8 dir], .dir true⟩,
        .entry ⟨[.utf8 dir, .utf8 "a.mp3.mtpx-part"], .file [1, 1] true⟩,
        .entry ⟨[.utf8 dir, .utf8 "a.mp3.mtpx-part.json"], .file text true⟩] := by
    rcases h with rfl | rfl <;> rfl
  have hroot : rootIsPresent macVolume (halfway dir text) = .ok true := rfl
  obtain ⟨entry, hentry, hplan⟩ : ∃ entry, (∀ found, visit macVolume .json (halfway dir text) player
      ⟨[.utf8 dir], .dir true⟩ found = .ok { found with entries := found.entries ++ [entry] }) ∧
      (plan macVolume.tables (Snapshot.new "phone" [Entry.file trackPath 4 none] [])
        (Snapshot.new "local" [entry] []) .caseInsensitive (foundIn dir) .pull).map Plan.actions =
          .ok [.copy trackPath 4 none (if dir = "Albums" then 2 else 0) .new] := by
    rcases h with rfl | rfl
    · exact ⟨Entry.dir (.ofSegments ["albums"]) none, fun _ => rfl, rfl⟩
    · exact ⟨Entry.dir (.ofSegments ["Albums"]) none, fun _ => rfl, rfl⟩
  refine ⟨Snapshot.new "local" [entry] [], ?_, hplan⟩
  have hwalk : walkFrom macVolume .json (halfway dir text) player none (fun _ => false) 0
      (walkItems (halfway dir text) none) ⟨[], [], []⟩ = .ok ⟨[entry], foundIn dir, []⟩ := by
    rw [hitems]
    simp only [walkFrom, wanted, hentry, hpart, hside, Bool.not_true, Bool.false_eq_true, if_false,
      List.nil_append, List.append_nil]
  rw [scanLocal, hroot]
  dsimp only
  rw [if_pos rfl, Option.map_none, hwalk]
  rfl

private theorem library_wellFormed {dir : String} (h : dir = "albums" ∨ dir = "Albums") :
    (library dir).WellFormed macVolume := by
  refine ⟨?_, ?_⟩
  · rcases h with rfl | rfl <;> decide
  · intro node hm hne
    rcases List.mem_cons.mp hm with rfl | hm
    · exact absurd rfl hne
    · rw [List.mem_singleton.mp hm]
      exact ⟨true, List.mem_cons_self⟩

private theorem library_found : FoundAgain macVolume .json player track 2 (library "Albums") := by
  refine ⟨?_, ?_⟩
  · intro node hm d hd hkey
    have hinits : d = [] ∨ d = [.utf8 "Albums"] := by
      simpa using (show d ∈ [[], [OsName.utf8 "Albums"]] from hd)
    have hlen := Volume.length_eq_of_fold hkey
    rcases List.mem_cons.mp hm with rfl | hm
    · rcases hinits with rfl | rfl
      · rfl
      · exact absurd hlen (by decide)
    · rw [List.mem_singleton.mp hm] at hlen ⊢
      rcases hinits with rfl | rfl
      · exact absurd hlen (by decide)
      · rfl
  · have hshort := halfTrack_short
    change (SidecarCodec.json.encode halfTrack).length ≤ _
    rw [SidecarCodec.json_encode, MAX_SIDECAR_BYTES]
    omega

/-- The library has the phone's spelling: the second run goes on at the third byte. -/
theorem interrupted_resumes_iff_Albums : ∃ result,
    scanLocal macVolume .json (firstRun "Albums").2.tree "local" .caseInsensitive player none
        (fun _ => false) = .ok result ∧ ResumesAt macVolume track 2 result := by
  have h : "Albums" = "albums" ∨ "Albums" = "Albums" := Or.inr rfl
  obtain ⟨snapshot, hscan, -⟩ := scan_halfway h
  rw [← (firstRun_ends h).2.1] at hscan
  refine ⟨_, hscan, (interrupted_resumes_iff macVolume .json player track cutShort 2
    (.fresh (library "Albums")) (firstRun "Albums").2 "local" .caseInsensitive none (fun _ => false) _
    (by decide) (library_wellFormed h) (by decide) (by decide) (firstRun_stopped h)
    (fun _ hn => absurd hn (by simp)) hscan).mpr library_found⟩

/-- The library's folder is `albums`: the part and its record are there, and the second run
starts the file over. -/
theorem interrupted_starts_over : ∃ w' result,
    StoppedAt macVolume .json player track cutShort 2 (.fresh (library "albums")) w' ∧
      scanLocal macVolume .json w'.tree "local" .caseInsensitive player none (fun _ => false) = .ok result ∧
      result.partials.get trackPath = none ∧
      (plan macVolume.tables (Snapshot.new "phone" [Entry.file trackPath 4 none] []) result.snapshot
        result.folding result.partials .pull).map Plan.actions = .ok [.copy trackPath 4 none 0 .new] := by
  have h : "albums" = "albums" ∨ "albums" = "Albums" := Or.inl rfl
  obtain ⟨snapshot, hscan, hplan⟩ := scan_halfway h
  rw [← (firstRun_ends h).2.1] at hscan
  exact ⟨(firstRun "albums").2, _, firstRun_stopped h, hscan, rfl, hplan⟩

end MtpxCore
