import MtpxCore.PullHistories
import MtpxCore.SidecarJson

/-! Whether a history of pulls can ever put bytes of one file behind another's record, or under
its final name. -/
namespace MtpxCore

open CrashHoare

/-- Where `q` is no transfer name, a run leaves what was there, a new folder, or a file of the
source whole. -/
def Delivered (vol : Volume) (content : Contents) (pull : Pull) (before after : LocalTree) : Prop :=
  ∀ q : RelPath, q.segments ≠ [] → Plain vol q →
    after.get vol q.toLocalPath = before.get vol q.toLocalPath ∨
      after.get vol q.toLocalPath = some (.dir true) ∨
      ∃ e ∈ pull.source.entries, vol.foldPath e.path.toLocalPath = vol.foldPath q.toLocalPath ∧
        ∃ readable, after.get vol q.toLocalPath =
          some (.file (content pull.peer e.path.display ⟨e.size, e.modified⟩) readable)

section Runs

variable {vol : Volume} {codec : SidecarCodec} {content : Contents} {pull : Pull}
  {tree tree' tree'' : LocalTree} {actions : List Action}

theorem Delivered.grown {depth : ℕ} (h : Delivered vol content pull tree tree')
    (hgrown : Grown depth (tree'.disk vol) (tree''.disk vol)) :
    Delivered vol content pull tree tree'' := by
  intro q hq hplain
  rcases hgrown (vol.foldPath q.toLocalPath) with hsame | ⟨-, hdir, -⟩
  · rw [LocalTree.get_eq_disk vol tree'', hsame]
    exact h q hq hplain
  · exact Or.inr (Or.inl hdir)

/-- A write that is given the bytes of the file puts nothing else under its name. -/
theorem Delivered.write {request : WriteRequest} {input : ByteStream} {e : Entry}
    (h : Delivered vol content pull tree tree') (he : e ∈ pull.source.entries)
    (hrequest : e.path = request.path ∧ e.size = request.expectedSize ∧ e.modified = request.modified)
    (hsize : ∀ peer path fingerprint, (content peer path fingerprint).length = fingerprint.size)
    (hpath : request.path.segments ≠ [])
    (hbytes : request.keptBytes vol tree' ++ okBytes input <+:
      content pull.peer request.path.display ⟨request.expectedSize, request.modified⟩)
    (hleaves : Leaves vol codec pull.peer request input tree' tree'') :
    Delivered vol content pull tree tree'' := by
  have hk := (nameable vol hpath).injective
  obtain ⟨d, f, p, s, t, hgrown, hdisk, hleft⟩ := hleaves
  intro q hq hplain
  have hold := h q hq hplain
  -- a plain path is no transfer file, so it is the final file or out of reach
  by_cases hkey : ∃ x, cellKey vol request.path.toLocalPath x = vol.foldPath q.toLocalPath
  · obtain ⟨x, hx⟩ := hkey
    have hfinal : x = .final := by
      by_contra hne
      exact hplain request.path x hpath hne hx.symm
    subst hfinal
    have hget : tree''.get vol q.toLocalPath = f := by
      rw [LocalTree.get_eq_disk, ← hx, hdisk, hk.extend_apply]
      rfl
    have hsame (hf : f = tree'.get vol request.path.toLocalPath) :
        tree''.get vol q.toLocalPath = tree'.get vol q.toLocalPath := by
      rw [hget, hf, LocalTree.get_eq_disk, LocalTree.get_eq_disk, ← hx]
      rfl
    rcases hleft with huntouched | hunderway
    · rw [hsame huntouched.final]
      exact hold
    · rcases hunderway.final with hf | ⟨-, -, hlength, readable, hf⟩
      · rw [hsame hf]
        exact hold
      · -- as long as the file, so it is the file
        have hwhole := hbytes.eq_of_length (hlength.trans (hsize pull.peer request.path.display
          ⟨request.expectedSize, request.modified⟩).symm)
        refine Or.inr (Or.inr ⟨e, he, ?_, readable, ?_⟩)
        · rw [hrequest.1]
          exact hx
        · rw [hget, hf, hwhole, hrequest.1, hrequest.2.1, hrequest.2.2]
  · have hgrow := hgrown (vol.foldPath q.toLocalPath)
    have hget : tree''.get vol q.toLocalPath = d (vol.foldPath q.toLocalPath) := by
      rw [LocalTree.get_eq_disk, hdisk, Function.extend_apply' _ _ _ hkey]
    rcases hgrow with hsame | ⟨-, hdir, -⟩
    · rw [hget, hsame]
      exact hold
    · exact Or.inr (Or.inl (hget.trans hdir))

/-- A run begun on true records ends on true records, and delivers only whole files. -/
theorem Runs.true (hsize : ∀ peer path fingerprint,
      (content peer path fingerprint).length = fingerprint.size)
    (htruth : Truthful vol codec content tree) (hplans : pull.Plans vol codec tree actions)
    (h : Runs vol codec pull.peer (sends content pull.peer) (Clear vol codec pull.peer) actions
      tree tree') :
    Truthful vol codec content tree' ∧ Delivered vol content pull tree tree' := by
  have hsource : ∀ path size modified r reason, Action.copy path size modified r reason ∈ actions →
      ∃ e ∈ pull.source.entries, e.path = path ∧ e.kind = .file ∧ e.size = size ∧ e.modified = modified :=
    fun path size modified r reason hm => hplans.copies hm
  -- what is still to come is backed by true records, what was written is whole
  refine Runs.keeps
    (J := fun as t => (∀ a ∈ as, a ∈ actions) ∧ as.Pairwise (fun a b => a.path ≠ b.path) ∧
      Truthful vol codec content t ∧ Pending vol codec pull.peer t as ∧
      Delivered vol content pull tree t)
    (K := fun t => Truthful vol codec content t ∧ Delivered vol content pull tree t)
    ?_ (fun _ _ h => ⟨h.2.2.1, h.2.2.2.2⟩) h
    ⟨fun _ ha => ha, hplans.paths, htruth, hplans.pending, fun _ _ _ => Or.inl rfl⟩
  intro a as o t t' hclear hj hacts
  obtain ⟨hsub, hpairs, htrue, hpending, hdelivered⟩ := hj
  have hsub' : ∀ b ∈ as, b ∈ actions := fun b hb => hsub b (List.mem_cons_of_mem a hb)
  have hrest : Pending vol codec pull.peer t as :=
    fun path size modified r reason hm => hpending path size modified r reason (List.mem_cons_of_mem a hm)
  obtain ⟨hothers, hpairs'⟩ := List.pairwise_cons.mp hpairs
  refine ⟨hsub', hpairs', ?_⟩
  cases a with
  | skip path reason =>
    rw [hacts.2]
    exact ⟨htrue, hrest, hdelivered⟩
  | mkdir path =>
    have hgrown := Acts.mkdir hacts
    exact ⟨htrue.grown hgrown, hrest.grown hgrown, hdelivered.grown hgrown⟩
  | copy path size modified planned reason =>
    obtain ⟨e, he, rfl, -, rfl, rfl⟩ := hsource _ _ _ _ _ (hsub _ List.mem_cons_self)
    have hpath := pull.named e he
    have hbacked := hpending _ _ _ _ _ List.mem_cons_self
    have hown := own_of_clear hclear hbacked
    rcases Acts.copy hpath hacts with rfl | ⟨offset, input, hoffset, hsent, hleaves⟩
    · exact ⟨htrue, hrest, hdelivered⟩
    · have hbytes := kept_sent (kept_true htrue hpath hbacked hoffset) hsent
      refine ⟨htrue.write hpath hclear.1 hown hbytes hleaves, ?_,
        hdelivered.write he ⟨rfl, rfl, rfl⟩ hsize hpath hbytes hleaves⟩
      refine Pending.write hpath hclear.1 hown ?_ hothers hrest hleaves
      intro b hb hcopy
      cases b with
      | mkdir path => exact absurd hcopy (by simp [Action.isCopy])
      | skip path reason => exact absurd hcopy (by simp [Action.isCopy])
      | copy path size modified r reason =>
        obtain ⟨e', he', rfl, -⟩ := hsource _ _ _ _ _ (hsub' _ hb)
        exact pull.named e' he'

theorem History.true (hsize : ∀ peer path fingerprint,
      (content peer path fingerprint).length = fingerprint.size)
    (htruth : Truthful vol codec content tree)
    (h : History vol codec content (Clear vol codec) tree tree') : Truthful vol codec content tree' := by
  induction h with
  | start tree => exact htruth
  | pull _ hplans hruns ih => exact (Runs.true hsize (ih htruth) hplans hruns).1

/-- In a history whose copies all begin in the clear, a record that a pull would accept counts
bytes of the very file it is going to continue, and every file a run delivers is whole. -/
theorem history_never_splices (vol : Volume) (codec : SidecarCodec) (content : Contents)
    (hsize : ∀ peer path fingerprint, (content peer path fingerprint).length = fingerprint.size)
    (tree tree' : LocalTree) (hempty : ∀ path record, ¬RecordAt vol codec tree path record)
    (h : History vol codec content (Clear vol codec) tree tree') :
    (∀ (path : RelPath) (record : Sidecar) (bytes : Bytes) (readable : Bool) (peer : Identity)
        (e : Entry), path.segments ≠ [] → RecordAt vol codec tree' path record →
      tree'.get vol (localPartPath path.toLocalPath) = some (.file bytes readable) →
      record.isValidFor peer bytes.length = true → record.path = e.path.display →
      record.fingerprint.matchesEntry e = true →
        bytes.take record.bytes =
          (content peer e.path.display ⟨e.size, e.modified⟩).take record.bytes) ∧
      ∀ (pull : Pull) (actions : List Action) (tree'' : LocalTree),
        pull.Plans vol codec tree' actions →
        Runs vol codec pull.peer (sends content pull.peer) (Clear vol codec pull.peer) actions
          tree' tree'' →
        Delivered vol content pull tree' tree'' := by
  have hstart : Truthful vol codec content tree :=
    fun path _ record hrecord => absurd hrecord (hempty path record)
  have htruth := h.true hsize hstart
  refine ⟨?_, fun pull actions tree'' hplans hruns => (Runs.true hsize htruth hplans hruns).2⟩
  intro path record bytes readable peer e hpath hrecord hpart hvalid hrpath hmatch
  obtain ⟨-, -, hidentity, hle⟩ := Sidecar.isValidFor_iff.mp hvalid
  rw [Fingerprint.matchesEntry, Bool.and_eq_true] at hmatch
  have hfingerprint : record.fingerprint = ⟨e.size, e.modified⟩ := by
    rw [← of_decide_eq_true hmatch.1, ← of_decide_eq_true hmatch.2]
  have htrue := htruth path hpath record hrecord bytes readable hpart hle
  rwa [hidentity, hrpath, hfingerprint] at htrue

end Runs

/-- A name that ends in no reserved suffix once folded is no transfer name. -/
theorem plain_of_name {vol : Volume} {path : RelPath} {dir : List OsName} {name : String}
    (hpath : path.toLocalPath = dir ++ [.utf8 name])
    (h : ∀ suffix ∈ RESERVED_SUFFIXES,
      ¬suffix.toList <:+ (foldName vol.tables vol.folding name).toList) : Plain vol path := by
  intro other x hother hx hkey
  obtain ⟨dir', name', hlocal⟩ := toLocalPath_concat hother
  rw [hpath, hlocal, cellKey_concat, cellKey_concat] at hkey
  obtain ⟨-, hname⟩ := List.append_inj' hkey rfl
  have hfold := congrArg String.toList (OsName.utf8.inj (List.singleton_inj.mp hname))
  rw [foldName_suffix vol.tables vol.folding name' (Cell.suffix_mem hx)] at hfold
  apply h x.suffix (Cell.suffix_mem hx)
  rw [Cell.suffix, String.append_empty] at hfold
  exact ⟨_, hfold.symm⟩

def plainVolume : Volume := ⟨.ascii, .exact, 64⟩

def phoneA : Identity := ⟨"A", "Internal"⟩

private def phoneB : Identity := ⟨"B", "Internal"⟩

/-- Every file of the first phone is all ones, every other all twos. -/
private def onesAndTwos : Contents := fun peer _ fingerprint =>
  List.replicate fingerprint.size (if peer = phoneA then 1 else 2)

theorem aPath_valid : ∀ segment ∈ ["a.jpg"], validateSegment segment = .ok () := by decide

def aPath : RelPath := .ofSegments ["a.jpg"] aPath_valid

private def pullOf (peer : Identity) : Pull where
  peer := peer
  source := Snapshot.new "phone" [Entry.file aPath 4 none] []
  only := none
  opts := .pull
  named := by decide

def twoOnes : Sidecar := ⟨1, phoneA, "a.jpg", ⟨4, none⟩, 2⟩

def emptyDir : LocalTree := [⟨[], .dir true⟩]

/-- A part, with `text` for its record. -/
def brokenTree (part text : Bytes) : LocalTree :=
  [⟨[], .dir true⟩, ⟨[.utf8 "a.jpg.mtpx-part"], .file part true⟩,
    ⟨[.utf8 "a.jpg.mtpx-part.json"], .file text true⟩]

/-- The next bytes of a phone's file, at most `n`, and perhaps the end of the cable. -/
private def readA (peer : Identity) (n : ℕ) (unplugged : Bool) (offset : ℕ) : Except Error ByteStream :=
  .ok (.ok (((onesAndTwos peer "a.jpg" ⟨4, none⟩).drop offset).take n) ::
    if unplugged then [.error .disconnected] else [])

/-- A copy of the file from a phone. -/
private noncomputable def copyA (env : Weather) (peer : Identity) (n : ℕ) (unplugged : Bool)
    (planned : ℕ) (tree : LocalTree) : Outcome Error Unit × World :=
  LocalEndpoint.copyOne plainVolume env .json peer ⟨aPath, 4, planned, none⟩
    (readA peer n unplugged) (.fresh tree)

private theorem copyA_acts (env : Weather) (peer : Identity) (n : ℕ) (unplugged : Bool)
    (planned : ℕ) (tree : LocalTree) :
    Acts plainVolume .json peer (sends onesAndTwos peer) (.copy aPath 4 none planned .new) tree
      (copyA env peer n unplugged planned tree).1 (copyA env peer n unplugged planned tree).2.tree := by
  refine ⟨env, readA peer n unplugged, .fresh tree, (copyA env peer n unplugged planned tree).2, rfl, rfl,
    ?_, rfl⟩
  intro offset input h
  cases h
  have hbytes : okBytes (if unplugged then [.error .disconnected] else []) = [] := by
    cases unplugged <;> rfl
  rw [sends, okBytes, hbytes, List.append_nil]
  exact List.take_prefix n _

theorem twoOnes_short : (sidecarJson twoOnes).length ≤ 200 := by decide +kernel

theorem scan_broken {text : Bytes} (hshort : text.length ≤ 200)
    (hdecode : SidecarCodec.json.decode text = some twoOnes) (part : Bytes) (peer : Identity) :
    scanLocal plainVolume .json (brokenTree part text) "local" .exact peer none (fun _ => false) =
      .ok ⟨Snapshot.new "local" [] [],
        if twoOnes.isValidFor peer part.length then [(aPath, ⟨⟨4, none⟩, 2⟩)] else [], .exact⟩ := by
  have hget : (brokenTree part text).get plainVolume (osWithSuffix [.utf8 "a.jpg"] SIDECAR_SUFFIX) =
      some (.file text true) := rfl
  have hread : readSidecar plainVolume .json (brokenTree part text) [.utf8 "a.jpg"] =
      .ok (some twoOnes) := by
    apply readSidecar_short hget _ hdecode
    rw [MAX_SIDECAR_BYTES]
    omega
  have hload : loadPartial plainVolume .json (brokenTree part text) [.utf8 "a.jpg.mtpx-part.json"] =
      .ok (some ([.utf8 "a.jpg"], twoOnes, part.length)) := by
    rw [loadPartial, show finalPathOf [.utf8 "a.jpg.mtpx-part.json"] = some [.utf8 "a.jpg"] from rfl]
    dsimp only
    rw [hread]
    rfl
  have hcollect : collectPartial plainVolume .json (brokenTree part text) peer
      [.utf8 "a.jpg.mtpx-part.json"] =
        .ok (if twoOnes.isValidFor peer part.length then some (aPath, ⟨⟨4, none⟩, 2⟩) else none) := by
    rw [collectPartial, hload]
    dsimp only
    rw [show relative [.utf8 "a.jpg"] = .ok aPath from rfl]
    dsimp only
    rw [show decide (twoOnes.path = RelPath.display aPath) = true from rfl, Bool.and_true]
    split
    · rfl
    · rfl
  -- the walk meets the part, which it passes over, and then its record
  have hpart (found : Found) : visit plainVolume .json (brokenTree part text) peer
      ⟨[.utf8 "a.jpg.mtpx-part"], .file part true⟩ found = .ok found := by
    have hname : Node.name ⟨[.utf8 "a.jpg.mtpx-part"], .file part true⟩ = "a.jpg.mtpx-part" := rfl
    exact visit_passes rfl hname rfl (by decide) found
  have hside (found : Found) : visit plainVolume .json (brokenTree part text) peer
      ⟨[.utf8 "a.jpg.mtpx-part.json"], .file text true⟩ found = .ok { found with
        partials := if twoOnes.isValidFor peer part.length then
          found.partials.insert aPath ⟨⟨4, none⟩, 2⟩ else found.partials } := by
    have hname : Node.name ⟨[.utf8 "a.jpg.mtpx-part.json"], .file text true⟩ =
        "a.jpg.mtpx-part.json" := rfl
    rw [visit_record rfl hname rfl rfl hcollect]
    split
    · rfl
    · rfl
  have hwalk : walkFrom plainVolume .json (brokenTree part text) peer none (fun _ => false) 0
      [.entry ⟨[.utf8 "a.jpg.mtpx-part"], .file part true⟩,
        .entry ⟨[.utf8 "a.jpg.mtpx-part.json"], .file text true⟩] ⟨[], [], []⟩ =
      .ok ⟨[], if twoOnes.isValidFor peer part.length then [(aPath, ⟨⟨4, none⟩, 2⟩)] else [], []⟩ := by
    simp only [walkFrom, wanted, hpart, hside, Bool.not_true, Bool.false_eq_true, if_false]
    rfl
  have hitems : walkItems (brokenTree part text) (Option.map (fun _ => 1) (none : Option String)) =
      [.entry ⟨[.utf8 "a.jpg.mtpx-part"], .file part true⟩,
        .entry ⟨[.utf8 "a.jpg.mtpx-part.json"], .file text true⟩] := rfl
  rw [scanLocal, show rootIsPresent plainVolume (brokenTree part text) = .ok true from rfl]
  dsimp only
  rw [if_pos rfl, hitems, hwalk]
  rfl

def onlyFile (bytes : Bytes) : LocalTree := [⟨[], .dir true⟩, ⟨[.utf8 "a.jpg"], .file bytes true⟩]

set_option maxRecDepth 20000 in
private theorem first_breaks_off : (copyA (fun _ => .none) phoneA 2 true 0 emptyDir).2.tree =
    brokenTree [1, 1] (sidecarJson twoOnes) := rfl

/-- The second phone's run starts over, and is killed before it flushes its three bytes. -/
private theorem second_is_killed (text : Bytes) :
    (copyA (fun n => if n = 4 then .die 3 else .none) phoneB 3 false 0 (brokenTree [1, 1] text)).2.tree =
      brokenTree [2, 2, 2] text := rfl

private theorem first_goes_on :
    (copyA (fun _ => .none) phoneA 2 false 2 (brokenTree [1, 1] (sidecarJson twoOnes))).2.tree =
      onlyFile [1, 1, 1, 1] := by decide +kernel

private theorem first_splices :
    (copyA (fun _ => .none) phoneA 2 false 2 (brokenTree [2, 2, 2] (sidecarJson twoOnes))).2.tree =
      onlyFile [2, 2, 1, 1] := by decide +kernel

private theorem plans_start :
    (pullOf phoneA).Plans plainVolume .json emptyDir [.copy aPath 4 none 0 .new] :=
  ⟨"local", fun _ => false, _, _, rfl, rfl, rfl⟩

theorem scan_twoOnes (part : Bytes) (peer : Identity) :
    scanLocal plainVolume .json (brokenTree part (sidecarJson twoOnes)) "local" .exact peer none
        (fun _ => false) =
      .ok ⟨Snapshot.new "local" [] [],
        if twoOnes.isValidFor peer part.length then [(aPath, ⟨⟨4, none⟩, 2⟩)] else [], .exact⟩ :=
  scan_broken twoOnes_short (SidecarCodec.json_decode twoOnes) part peer

private theorem plans_broken {part : Bytes} {peer : Identity} {n : ℕ}
    (h : (plan plainVolume.tables (pullOf peer).source (Snapshot.new "local" [] []) .exact
      (if twoOnes.isValidFor peer part.length then [(aPath, ⟨⟨4, none⟩, 2⟩)] else []) .pull).map
        Plan.actions = .ok [.copy aPath 4 none n .new]) :
    (pullOf peer).Plans plainVolume .json (brokenTree part (sidecarJson twoOnes))
      [.copy aPath 4 none n .new] := by
  match hp : plan plainVolume.tables (pullOf peer).source (Snapshot.new "local" [] []) .exact
      (if twoOnes.isValidFor peer part.length then [(aPath, ⟨⟨4, none⟩, 2⟩)] else []) .pull, h with
  | .ok p, h => exact ⟨"local", fun _ => false, _, p, scan_twoOnes part peer, hp, Except.ok.inj h⟩

private theorem run_of {C : Action → LocalTree → Prop} {env : Weather} {peer : Identity} {n planned : ℕ}
    {unplugged : Bool} {tree tree' : LocalTree} (hc : C (.copy aPath 4 none planned .new) tree)
    (h : (copyA env peer n unplugged planned tree).2.tree = tree') :
    Runs plainVolume .json peer (sends onesAndTwos peer) C [.copy aPath 4 none planned .new] tree tree' :=
  h ▸ Runs.last hc (copyA_acts env peer n unplugged planned tree)

private theorem first_history {C : Identity → Action → LocalTree → Prop}
    (hc : C phoneA (.copy aPath 4 none 0 .new) emptyDir) :
    History plainVolume .json onesAndTwos C emptyDir (brokenTree [1, 1] (sidecarJson twoOnes)) :=
  (History.start emptyDir).pull plans_start (run_of hc first_breaks_off)

theorem emptyDir_bare (path : RelPath) (record : Sidecar) :
    ¬RecordAt plainVolume .json emptyDir path record := by
  rintro ⟨-, bytes, readable, hget, -⟩
  obtain ⟨node, hnode, hobj⟩ := Option.map_eq_some_iff.mp hget
  rw [List.mem_singleton.mp (List.mem_of_find?_eq_some hnode)] at hobj
  exact absurd hobj (by simp)

private theorem aPath_plain : Plain plainVolume aPath := by
  have hlocal : aPath.toLocalPath = [] ++ [.utf8 "a.jpg"] := rfl
  exact plain_of_name hlocal (by decide)

private theorem contents_size (peer : Identity) (path : String) (fingerprint : Fingerprint) :
    (onesAndTwos peer path fingerprint).length = fingerprint.size :=
  List.length_replicate

/-- The file's own phone goes on with it: the record tells the truth, and the file arrives. -/
theorem history_never_splices_unplugged :
    List.take 2 [1, 1] = (onesAndTwos phoneA "a.jpg" ⟨4, none⟩).take 2 ∧
      Delivered plainVolume onesAndTwos (pullOf phoneA) (brokenTree [1, 1] (sidecarJson twoOnes))
        (onlyFile [1, 1, 1, 1]) := by
  have hstart : Clear plainVolume .json phoneA (.copy aPath 4 none 0 .new) emptyDir :=
    ⟨aPath_plain, fun _ record h => absurd h (emptyDir_bare aPath record)⟩
  have hside : RecordAt plainVolume .json (brokenTree [1, 1] (sidecarJson twoOnes)) aPath twoOnes :=
    ⟨rfl, sidecarJson twoOnes, true, rfl, SidecarCodec.json_decode twoOnes⟩
  have hnext : Clear plainVolume .json phoneA (.copy aPath 4 none 2 .new)
      (brokenTree [1, 1] (sidecarJson twoOnes)) :=
    ⟨aPath_plain, fun h => absurd h (by decide)⟩
  have h := history_never_splices plainVolume .json onesAndTwos contents_size emptyDir
    (brokenTree [1, 1] (sidecarJson twoOnes)) emptyDir_bare (first_history hstart)
  exact ⟨h.1 aPath twoOnes [1, 1] true phoneA (Entry.file aPath 4 none) (by decide) hside rfl rfl rfl rfl,
    h.2 (pullOf phoneA) _ _ (plans_broken rfl) (run_of hnext first_goes_on)⟩

/-- The second phone's three bytes stand behind the first phone's record of two, and the first
phone goes on from there. -/
theorem history_splices :
    (∀ path record, ¬RecordAt plainVolume .json emptyDir path record) ∧
      History plainVolume .json onesAndTwos (fun _ _ _ => True) emptyDir
        (brokenTree [2, 2, 2] (sidecarJson twoOnes)) ∧
      RecordAt plainVolume .json (brokenTree [2, 2, 2] (sidecarJson twoOnes)) aPath twoOnes ∧
      (brokenTree [2, 2, 2] (sidecarJson twoOnes)).get plainVolume
        (localPartPath aPath.toLocalPath) = some (.file [2, 2, 2] true) ∧
      twoOnes.isValidFor phoneA 3 = true ∧ twoOnes.path = aPath.display ∧
      twoOnes.fingerprint.matchesEntry (Entry.file aPath 4 none) = true ∧
      List.take 2 [2, 2, 2] ≠ (onesAndTwos phoneA "a.jpg" ⟨4, none⟩).take 2 ∧
      History plainVolume .json onesAndTwos (fun _ _ _ => True) emptyDir (onlyFile [2, 2, 1, 1]) := by
  have hsecond : History plainVolume .json onesAndTwos (fun _ _ _ => True) emptyDir
      (brokenTree [2, 2, 2] (sidecarJson twoOnes)) :=
    (first_history trivial).pull (plans_broken rfl)
      (run_of trivial (second_is_killed (sidecarJson twoOnes)))
  refine ⟨emptyDir_bare, hsecond, ⟨rfl, sidecarJson twoOnes, true, rfl, SidecarCodec.json_decode twoOnes⟩,
    rfl, rfl, rfl, rfl, by decide, ?_⟩
  exact hsecond.pull (plans_broken rfl) (run_of trivial first_splices)

end MtpxCore
