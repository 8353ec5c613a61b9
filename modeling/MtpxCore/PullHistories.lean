import MtpxCore.PullRuns
import MtpxCore.PlannerExecutes

/-! Histories of pulls into one directory, and whether a record on disk tells the truth about
the part beside it. What a file holds is taken to be fixed by the device it is on, its path,
its size and its time. Every pull plans with the folding the volume has. -/
namespace MtpxCore

open CrashHoare

/-- What the file holds that a record can be about. -/
abbrev Contents := Identity → String → Fingerprint → Bytes

/-- The record beside the part of `path`, whatever its part is. -/
def RecordAt (vol : Volume) (codec : SidecarCodec) (tree : LocalTree) (path : RelPath)
    (record : Sidecar) : Prop :=
  record.version = SIDECAR_VERSION ∧ ∃ bytes readable,
    tree.get vol (localSidecarPath path.toLocalPath) = some (.file bytes readable) ∧
      codec.decode bytes = some record

/-- Every record whose part is long enough counts bytes of the file it names. -/
def Truthful (vol : Volume) (codec : SidecarCodec) (content : Contents) (tree : LocalTree) : Prop :=
  ∀ path : RelPath, path.segments ≠ [] → ∀ record, RecordAt vol codec tree path record →
    ∀ bytes readable, tree.get vol (localPartPath path.toLocalPath) = some (.file bytes readable) →
      record.bytes ≤ bytes.length →
        bytes.take record.bytes =
          (content record.identity record.path record.fingerprint).take record.bytes

/-- What a device sends: bytes of the file from the offset on, and perhaps an error. -/
def sends (content : Contents) (peer : Identity) : Streams := fun path fingerprint offset input =>
  okBytes input <+: (content peer path.display fingerprint).drop offset

/-- `path` itself is no transfer name of any file, for the volume. -/
def Plain (vol : Volume) (path : RelPath) : Prop :=
  ∀ (other : RelPath) (x : Cell), other.segments ≠ [] → x ≠ .final →
    cellKey vol path.toLocalPath .final ≠ cellKey vol other.toLocalPath x

/-- The record is about this file of this device. -/
def Sidecar.About (record : Sidecar) (peer : Identity) (path : RelPath) (fingerprint : Fingerprint) :
    Prop :=
  record.identity = peer ∧ record.path = path.display ∧ record.fingerprint = fingerprint

/-- A copy that starts from zero finds no record beside its part, or one about the same file,
and its final name is no transfer name. -/
def Clear (vol : Volume) (codec : SidecarCodec) (peer : Identity) : Action → LocalTree → Prop
  | .copy path size modified resumeFrom _, tree => Plain vol path ∧
      (resumePoint vol (tree.get vol (localPartPath path.toLocalPath)) resumeFrom = 0 →
        ∀ record, RecordAt vol codec tree path record → record.About peer path ⟨size, modified⟩)
  | _, _ => True

/-- Pulls into one directory, one after the other, each begun where the last one ended. -/
inductive History (vol : Volume) (codec : SidecarCodec) (content : Contents)
    (C : Identity → Action → LocalTree → Prop) : LocalTree → LocalTree → Prop
  | start (tree : LocalTree) : History vol codec content C tree tree
  | pull {pull : Pull} {actions : List Action} {tree tree' tree'' : LocalTree} :
      History vol codec content C tree tree' → pull.Plans vol codec tree' actions →
      Runs vol codec pull.peer (sends content pull.peer) (C pull.peer) actions tree' tree'' →
      History vol codec content C tree tree''

section Names

variable {vol : Volume}

theorem Cell.suffix_mem {x : Cell} (h : x ≠ .final) : x.suffix ∈ RESERVED_SUFFIXES := by
  cases x with
  | final => exact absurd rfl h
  | part => decide
  | side => decide
  | tmp => decide

theorem Cell.suffix_injective {x y : Cell} (h : x.suffix = y.suffix) : x = y := by
  cases x <;> cases y <;> first | rfl | exact absurd h (by decide)

/-- Two paths that share one transfer name share all three, each with its like. -/
theorem transfer_key_shared {p q : RelPath} (hp : p.segments ≠ []) (hq : q.segments ≠ []) {x y : Cell}
    (hx : x ≠ .final) (hy : y ≠ .final)
    (h : cellKey vol p.toLocalPath x = cellKey vol q.toLocalPath y) :
    x = y ∧ ∀ z, z ≠ .final → cellKey vol p.toLocalPath z = cellKey vol q.toLocalPath z := by
  obtain ⟨dir, name, hlocal⟩ := toLocalPath_concat hp
  obtain ⟨dir', name', hlocal'⟩ := toLocalPath_concat hq
  rw [hlocal, hlocal', cellKey_concat, cellKey_concat] at h
  obtain ⟨hdir, hname⟩ := List.append_inj' h rfl
  have hfold := congrArg String.toList (OsName.utf8.inj (List.singleton_inj.mp hname))
  rw [foldName_suffix vol.tables vol.folding name (Cell.suffix_mem hx),
    foldName_suffix vol.tables vol.folding name' (Cell.suffix_mem hy)] at hfold
  obtain ⟨hsuffix, hstem⟩ := suffix_inj (Cell.suffix_mem hx) (Cell.suffix_mem hy) hfold
  refine ⟨Cell.suffix_injective hsuffix, fun z hz => ?_⟩
  rw [hlocal, hlocal', cellKey_concat, cellKey_concat, hdir]
  have hz' : foldName vol.tables vol.folding (name ++ z.suffix) =
      foldName vol.tables vol.folding (name' ++ z.suffix) := by
    apply String.toList_inj.mp
    rw [foldName_suffix vol.tables vol.folding name (Cell.suffix_mem hz),
      foldName_suffix vol.tables vol.folding name' (Cell.suffix_mem hz), hstem]
  rw [hz']

end Names

section Truth

variable {vol : Volume} {codec : SidecarCodec} {content : Contents} {peer : Identity}
  {tree tree' : LocalTree}

/-- Whoever finds no new file under the two names finds no new lie there. -/
theorem Truthful.of_files (h : Truthful vol codec content tree) {path : RelPath}
    (hpath : path.segments ≠ [])
    (hfiles : ∀ x, x ≠ .final → ∀ bytes readable,
      tree'.disk vol (cellKey vol path.toLocalPath x) = some (.file bytes readable) →
        tree.disk vol (cellKey vol path.toLocalPath x) = some (.file bytes readable))
    {record : Sidecar} (hrecord : RecordAt vol codec tree' path record) {bytes : Bytes}
    {readable : Bool} (hpart : tree'.get vol (localPartPath path.toLocalPath) = some (.file bytes readable))
    (hle : record.bytes ≤ bytes.length) :
    bytes.take record.bytes =
      (content record.identity record.path record.fingerprint).take record.bytes := by
  obtain ⟨hversion, text, readable', hside, hdecode⟩ := hrecord
  exact h path hpath record ⟨hversion, text, readable', hfiles .side (by simp) _ _ hside, hdecode⟩ bytes
    readable (hfiles .part (by simp) _ _ hpart) hle

theorem Truthful.grown {depth : ℕ} (h : Truthful vol codec content tree)
    (hgrown : Grown depth (tree.disk vol) (tree'.disk vol)) : Truthful vol codec content tree' := by
  intro path hpath record hrecord bytes readable hpart hle
  exact h.of_files hpath (fun x _ _ _ hk => hgrown.file hk) hrecord hpart hle

/-- A prefix begins as the whole does. -/
theorem take_eq_of_prefix {a b : Bytes} (h : a <+: b) {n : ℕ} (hn : n ≤ a.length) :
    a.take n = b.take n := by
  obtain ⟨rest, rfl⟩ := h
  rw [List.take_append_of_le_length hn]

/-- A write of true bytes beside a record of its own, or none, leaves no lie. -/
theorem Truthful.write {request : WriteRequest} {input : ByteStream}
    (h : Truthful vol codec content tree) (hpath : request.path.segments ≠ [])
    (hplain : Plain vol request.path)
    (hown : ∀ record, RecordAt vol codec tree request.path record →
      record.About peer request.path ⟨request.expectedSize, request.modified⟩)
    (hbytes : request.keptBytes vol tree ++ okBytes input <+:
      content peer request.path.display ⟨request.expectedSize, request.modified⟩)
    (hleaves : Leaves vol codec peer request input tree tree') : Truthful vol codec content tree' := by
  have hk := (nameable vol hpath).injective
  obtain ⟨d, f, p, s, t, hgrown, hdisk, hleft⟩ := hleaves
  intro path hpath' record hrecord bytes readable hpart hle
  by_cases hshare : cellKey vol request.path.toLocalPath .side = cellKey vol path.toLocalPath .side
  · -- the record and the part are those of this write
    have hsame := (transfer_key_shared hpath hpath' (by simp) (by simp) hshare).2
    obtain ⟨hversion, text, readable', hside, hdecode⟩ := hrecord
    have hs : s = some (.file text readable') := by
      change tree'.disk vol (cellKey vol path.toLocalPath .side) = _ at hside
      rw [← hshare, hdisk, hk.extend_apply] at hside
      exact hside
    have hp : p = some (.file bytes readable) := by
      change tree'.disk vol (cellKey vol path.toLocalPath .part) = _ at hpart
      rw [← hsame .part (by simp), hdisk, hk.extend_apply] at hpart
      exact hpart
    have hold (hs' : s = tree.get vol (localSidecarPath request.path.toLocalPath)) :
        RecordAt vol codec tree request.path record :=
      ⟨hversion, text, readable', hs'.symm.trans hs, hdecode⟩
    -- either the record is an old one, or it was written in this write
    rcases hleft with huntouched | hunderway
    · rcases huntouched.side with hs' | hs'
      · exact h request.path hpath record (hold hs') bytes readable
          (huntouched.part.symm.trans hp) hle
      · rw [hs] at hs'
        exact absurd hs' (by simp)
    · have habout : record.About peer request.path ⟨request.expectedSize, request.modified⟩ := by
        rcases hunderway.side with hs' | hs' | ⟨b, readable'', hs'⟩
        · exact hown record (hold hs')
        · rw [hs] at hs'
          exact absurd hs' (by simp)
        · rw [hs] at hs'
          cases hs'
          rw [codec.round_trip] at hdecode
          cases hdecode
          exact ⟨rfl, rfl, rfl⟩
      obtain ⟨hidentity, hrpath, hfingerprint⟩ := habout
      rw [hidentity, hrpath, hfingerprint]
      rcases hunderway.part with hnone | ⟨landed, readable'', hlanded, hfile⟩
      · rw [hp] at hnone
        exact absurd hnone (by simp)
      · rw [hp] at hfile
        cases hfile
        exact take_eq_of_prefix
          (((List.prefix_append_right_inj _).mpr hlanded).trans hbytes) hle
  · -- the names of `path` are none of this write's
    refine h.of_files hpath' (fun x hx bytes readable hfile => ?_) hrecord hpart hle
    rw [hdisk, Function.extend_apply'] at hfile
    · exact hgrown.file hfile
    · rintro ⟨y, hy⟩
      by_cases hfinal : y = .final
      · subst hfinal
        exact hplain path x hpath' hx hy
      · exact hshare ((transfer_key_shared hpath hpath' hfinal hx hy).2 .side (by simp))

end Truth

/-- The offset `r` a copy was planned with: the record beside the part is about the file and
counts `r` bytes, and they are there. -/
def Backed (vol : Volume) (codec : SidecarCodec) (peer : Identity) (tree : LocalTree)
    (path : RelPath) (fingerprint : Fingerprint) (r : ℕ) : Prop :=
  ∃ record, RecordAt vol codec tree path record ∧ record.About peer path fingerprint ∧
    record.bytes = r ∧ ∃ bytes readable,
      tree.get vol (localPartPath path.toLocalPath) = some (.file bytes readable) ∧ r ≤ bytes.length

/-- Every copy still to come is backed as it was planned. -/
def Pending (vol : Volume) (codec : SidecarCodec) (peer : Identity) (tree : LocalTree)
    (actions : List Action) : Prop :=
  ∀ path size modified r reason, Action.copy path size modified r reason ∈ actions → 0 < r →
    Backed vol codec peer tree path ⟨size, modified⟩ r

section Planning

variable {vol : Volume} {codec : SidecarCodec} {content : Contents} {peer : Identity} {pull : Pull}
  {tree : LocalTree} {actions : List Action}

theorem readSidecar_some {path : RelPath} {record : Sidecar}
    (h : readSidecar vol codec tree path.toLocalPath = .ok (some record)) :
    ∃ bytes, tree.get vol (localSidecarPath path.toLocalPath) = some (.file bytes true) ∧
      codec.decode bytes = some record := by
  unfold readSidecar at h
  split at h
  · exact absurd h (by simp)
  · exact absurd h (by simp)
  · rename_i bytes hget
    split at h
    · exact absurd h (by simp)
    · exact ⟨bytes, hget, Except.ok.inj h⟩
  · exact absurd h (by simp)

theorem partLen_some {path : List OsName} {len : ℕ} (h : partLen vol tree path = some len) :
    ∃ bytes readable, tree.get vol path = some (.file bytes readable) ∧ bytes.length = len := by
  unfold partLen at h
  split at h
  · rename_i bytes readable hget
    exact ⟨bytes, readable, hget, Option.some.inj h⟩
  · exact absurd h (by simp)

/-- A partial that a scan reports stands on a record and a part. -/
theorem partial_backed {label : String} {detected : NameFolding} {only : Option String}
    {cancelled : ℕ → Bool} {result : ScanResult} {path : RelPath} {info : PartialInfo}
    (hscan : scanLocal vol codec tree label detected peer only cancelled = .ok result)
    (hm : (path, info) ∈ result.partials) :
    Backed vol codec peer tree path info.fingerprint info.bytes := by
  obtain ⟨present, found, -, hwalk, rfl⟩ := scanLocal_ok hscan
  obtain ⟨-, -, hpartials⟩ := walkFrom_ok hwalk
  rcases (hpartials _).mp hm with hnil | ⟨node, -, -, -, -, hcollect⟩
  · exact absurd hnil List.not_mem_nil
  · obtain ⟨record, len, -, hread, hlen, hvalid, hpath, rfl⟩ := collectPartial_some hcollect
    obtain ⟨text, hside, hdecode⟩ := readSidecar_some hread
    obtain ⟨bytes, readable, hpart, rfl⟩ := partLen_some hlen
    obtain ⟨hversion, -, hidentity, hle⟩ := Sidecar.isValidFor_iff.mp hvalid
    exact ⟨record, ⟨hversion, text, true, hside, hdecode⟩, ⟨hidentity, hpath, rfl⟩, rfl, bytes, readable,
      hpart, hle⟩

theorem Pull.Plans.pending (h : pull.Plans vol codec tree actions) :
    Pending vol codec pull.peer tree actions := by
  obtain ⟨label, cancelled, result, p, hscan, hplan, rfl⟩ := h
  intro path size modified r reason hm hr
  obtain ⟨e, -, -, -, hsize, hmodified, hoffset, -⟩ := planned_copy hplan hm
  unfold resumeOffset at hoffset
  split at hoffset
  · omega
  · rename_i info hinfo
    split at hoffset
    · rename_i hmatch
      rw [Bool.and_eq_true, Fingerprint.matchesEntry, Bool.and_eq_true] at hmatch
      obtain ⟨⟨hfs, hfm⟩, -⟩ := hmatch
      have hfingerprint : info.fingerprint = ⟨size, modified⟩ := by
        rw [← hsize, ← hmodified, ← of_decide_eq_true hfs, ← of_decide_eq_true hfm]
      rw [hoffset, ← hfingerprint]
      exact partial_backed hscan (Partials.mem_of_get hinfo)
    · omega

theorem Pull.Plans.paths (h : pull.Plans vol codec tree actions) :
    actions.Pairwise (fun a b => a.path ≠ b.path) := by
  obtain ⟨label, cancelled, result, p, -, hplan, rfl⟩ := h
  rw [plan_ok hplan]
  exact planned_paths _ _ _ _ _ _

/-- Where a copy is of a file of the source. -/
theorem Pull.Plans.copies (h : pull.Plans vol codec tree actions) {path : RelPath} {size r : ℕ}
    {modified : Option ModifiedTime} {reason : CopyReason}
    (hm : Action.copy path size modified r reason ∈ actions) :
    ∃ e ∈ pull.source.entries, e.path = path ∧ e.kind = .file ∧ e.size = size ∧
      e.modified = modified := by
  obtain ⟨label, cancelled, result, p, -, hplan, rfl⟩ := h
  obtain ⟨e, he, hpath, hkind, hsize, hmodified, -⟩ := planned_copy hplan hm
  exact ⟨e, he, hpath, hkind, hsize, hmodified⟩

end Planning

section Steps

variable {vol : Volume} {codec : SidecarCodec} {content : Contents} {peer : Identity}
  {tree tree' : LocalTree} {path : RelPath} {size planned : ℕ} {modified : Option ModifiedTime}
  {reason : CopyReason} {rest : List Action}

/-- The record beside the part of a copy that may begin is about the file it copies. -/
theorem own_of_clear (hclear : Clear vol codec peer (.copy path size modified planned reason) tree)
    (hbacked : 0 < planned → Backed vol codec peer tree path ⟨size, modified⟩ planned) :
    ∀ record, RecordAt vol codec tree path record → record.About peer path ⟨size, modified⟩ := by
  intro record hrecord
  by_cases hzero : resumePoint vol (tree.get vol (localPartPath path.toLocalPath)) planned = 0
  · exact hclear.2 hzero record hrecord
  · have hpos : 0 < planned := by
      rw [resumePoint] at hzero
      split at hzero <;> omega
    obtain ⟨record', ⟨-, text, readable, hside, hdecode⟩, habout, -⟩ := hbacked hpos
    obtain ⟨-, text', readable', hside', hdecode'⟩ := hrecord
    cases hside.symm.trans hside'
    cases hdecode.symm.trans hdecode'
    exact habout

/-- The bytes a copy goes on from are those of the file. -/
theorem kept_true (htruth : Truthful vol codec content tree) (hpath : path.segments ≠ [])
    (hbacked : 0 < planned → Backed vol codec peer tree path ⟨size, modified⟩ planned) {offset : ℕ}
    (hoffset : offset = resumePoint vol (tree.get vol (localPartPath path.toLocalPath)) planned) :
    WriteRequest.keptBytes vol ⟨path, size, offset, modified⟩ tree =
      (content peer path.display ⟨size, modified⟩).take offset := by
  rw [WriteRequest.keptBytes]
  by_cases hzero : offset = 0
  · subst hzero
    dsimp only
    rw [keptFrom, if_pos (Nat.zero_le _), List.take_zero, List.take_zero]
  · have hplanned : offset = planned := by
      rw [hoffset, resumePoint] at hzero ⊢
      split at hzero
      · rename_i hle
        exact if_pos hle
      · exact absurd rfl hzero
    have hpos : 0 < planned := by omega
    obtain ⟨record, hrecord, habout, hcount, bytes, readable, hpart, hle⟩ := hbacked hpos
    have htrue := htruth path hpath record hrecord bytes readable hpart (hcount ▸ hle)
    obtain ⟨hidentity, hrpath, hfingerprint⟩ := habout
    rw [hcount, hidentity, hrpath, hfingerprint] at htrue
    dsimp only
    rw [hpart, hplanned, keptFrom, if_pos (show planned ≤ (bytesOf (some (.file bytes readable))).length from hle)]
    exact htrue

/-- What a copy keeps and what it is sent make up a beginning of the file. -/
theorem kept_sent {kept input file : Bytes} {offset : ℕ} (hkept : kept = file.take offset)
    (hsent : input <+: file.drop offset) : kept ++ input <+: file := by
  obtain ⟨more, hmore⟩ := hsent
  refine ⟨more, ?_⟩
  rw [hkept, List.append_assoc, hmore, List.take_append_drop]

/-- The copies still to come are not touched by the one that runs. -/
theorem Pending.write {request : WriteRequest} {input : ByteStream} (hpath : request.path.segments ≠ [])
    (hplain : Plain vol request.path)
    (hown : ∀ record, RecordAt vol codec tree request.path record →
      record.About peer request.path ⟨request.expectedSize, request.modified⟩)
    (hnamed : ∀ a ∈ rest, a.isCopy = true → a.path.segments ≠ [])
    (hother : ∀ a ∈ rest, request.path ≠ a.path) (h : Pending vol codec peer tree rest)
    (hleaves : Leaves vol codec peer request input tree tree') : Pending vol codec peer tree' rest := by
  obtain ⟨d, f, p, s, t, hgrown, hdisk, -⟩ := hleaves
  intro path size modified r reason hm hr
  obtain ⟨record, hrecord, habout, hcount, bytes, readable, hpart, hle⟩ := h path size modified r reason hm hr
  have hpath' : path.segments ≠ [] := hnamed _ hm rfl
  -- a shared record would be about both files
  have hshare (x y : Cell) (hx : x ≠ .final) (hy : y ≠ .final) :
      cellKey vol request.path.toLocalPath y ≠ cellKey vol path.toLocalPath x := by
    intro hkey
    have hside := (transfer_key_shared hpath hpath' hy hx hkey).2 .side (by simp)
    obtain ⟨hversion, text, readable', hget, hdecode⟩ := hrecord
    have hmine : RecordAt vol codec tree request.path record := by
      refine ⟨hversion, text, readable', ?_, hdecode⟩
      change tree.disk vol (cellKey vol request.path.toLocalPath .side) = _
      rw [hside]
      exact hget
    have hsame := (hown record hmine).2.1.symm.trans habout.2.1
    exact hother _ hm (RelPath.display_injective hsame)
  have hkeep (x : Cell) (hx : x ≠ .final) {obj : Obj}
      (hobj : tree.disk vol (cellKey vol path.toLocalPath x) = some obj) :
      tree'.disk vol (cellKey vol path.toLocalPath x) = some obj := by
    rw [hdisk, Function.extend_apply']
    · exact hgrown.keeps hobj
    · rintro ⟨y, hy⟩
      by_cases hfinal : y = .final
      · subst hfinal
        exact hplain path x hpath' hx hy
      · exact hshare x y hx hfinal hy
  obtain ⟨hversion, text, readable', hget, hdecode⟩ := hrecord
  exact ⟨record, ⟨hversion, text, readable', hkeep .side (by simp) hget, hdecode⟩, habout, hcount, bytes,
    readable, hkeep .part (by simp) hpart, hle⟩

theorem Pending.grown {depth : ℕ} (h : Pending vol codec peer tree rest)
    (hgrown : Grown depth (tree.disk vol) (tree'.disk vol)) : Pending vol codec peer tree' rest := by
  intro path size modified r reason hm hr
  obtain ⟨record, ⟨hversion, text, readable, hget, hdecode⟩, habout, hcount, bytes, readable', hpart, hle⟩ :=
    h path size modified r reason hm hr
  exact ⟨record, ⟨hversion, text, readable, hgrown.keeps hget, hdecode⟩, habout, hcount, bytes, readable',
    hgrown.keeps hpart, hle⟩

end Steps

end MtpxCore
