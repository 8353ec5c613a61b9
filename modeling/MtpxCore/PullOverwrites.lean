import MtpxCore.PullRuns
import MtpxCore.SingleFileScan

/-! What a pull that may not replace anything does to the objects that were there. The planner
sees what the scan lists, and the write renames over whatever the volume finds. The folding the
plan goes by is the volume's own: that it was detected right is another matter. -/
namespace MtpxCore

open CrashHoare

/-- Outside its four names a write only adds folders. -/
theorem Leaves.keeps {vol : Volume} {codec : SidecarCodec} {peer : Identity}
    {request : WriteRequest} {input : ByteStream} {before after : LocalTree}
    (h : Leaves vol codec peer request input before after) {key : Key} {obj : Obj}
    (hobj : before.disk vol key = some obj)
    (hkey : ∀ x, cellKey vol request.path.toLocalPath x ≠ key) : after.disk vol key = some obj := by
  obtain ⟨d, f, p, s, t, hgrown, hdisk, -⟩ := h
  rw [hdisk, Function.extend_apply' _ _ _ (fun ⟨x, hx⟩ => hkey x hx)]
  exact hgrown.keeps hobj

/-- A directory under the final name is never replaced. -/
theorem Leaves.keeps_dir {vol : Volume} {codec : SidecarCodec} {peer : Identity}
    {request : WriteRequest} {input : ByteStream} {before after : LocalTree}
    (hk : Function.Injective (cellKey vol request.path.toLocalPath))
    (h : Leaves vol codec peer request input before after) {obj : Obj} (hdir : obj.isDir = true)
    (hobj : before.disk vol (cellKey vol request.path.toLocalPath .final) = some obj) :
    after.disk vol (cellKey vol request.path.toLocalPath .final) = some obj := by
  obtain ⟨d, f, p, s, t, -, hdisk, hleft⟩ := h
  have hget : before.get vol request.path.toLocalPath = some obj := hobj
  rw [hdisk, hk.extend_apply, Cells.of_final]
  rcases hleft with hsame | hgrown
  · rw [hsame.final, hget]
  · rcases hgrown.final with hsame | ⟨hnot, -⟩
    · rw [hsame, hget]
    · rw [hget, Option.all_some, hdir] at hnot
      exact absurd hnot (by simp)

/-- Whatever the volume finds under the name of a source file, the scan lists it, unless it is
a directory: it is a regular file, in folders that can all be listed, without a reserved name,
and in a pull of a single file spelled as the file is. -/
def Described (vol : Volume) (tree : LocalTree) (pull : Pull) : Prop :=
  ∀ e ∈ pull.source.entries, e.kind = .file → ∀ node ∈ tree, node.obj.isDir = false →
    vol.foldPath node.path = cellKey vol e.path.toLocalPath .final →
      Looked vol tree pull.only node ∧ ∃ x, Lists node x

/-- Whatever the volume finds under a transfer name of a source file has a reserved name. -/
def Reserved (vol : Volume) (tree : LocalTree) (pull : Pull) : Prop :=
  ∀ e ∈ pull.source.entries, e.kind = .file → ∀ x : Cell, x ≠ .final → ∀ node ∈ tree,
    vol.foldPath node.path = cellKey vol e.path.toLocalPath x → isReservedName node.name = true

section Keeping

variable {vol : Volume} {codec : SidecarCodec} {pull : Pull} {tree tree' : LocalTree}
  {actions : List Action} {streams : Streams} {C : Action → LocalTree → Prop}

/-- An object that the scan lists is an entry of the destination. -/
theorem destEntry_of_lists {label : String} {cancelled : ℕ → Bool} {result : ScanResult} {node : Node}
    {e x : Entry} (hu : tree.UniquePaths vol)
    (hscan : scanLocal vol codec tree label vol.folding pull.peer pull.only cancelled = .ok result)
    (hlooked : Looked vol tree pull.only node) (hlists : Lists node x)
    (hkey : vol.foldPath node.path = cellKey vol e.path.toLocalPath .final) :
    destEntry vol.tables result.snapshot result.folding e ≠ none := by
  obtain ⟨-, hentries, -, hfold⟩ := scan_found hu hscan
  have hx : x ∈ result.snapshot.entries := (hentries x).mpr ⟨node, hlooked, hlists⟩
  have hsame : x.path.key vol.tables vol.folding = e.path.key vol.tables vol.folding := by
    apply List.map_injective_iff.mpr (fun a b h => OsName.utf8.inj h)
    rw [← foldPath_toLocalPath, ← foldPath_toLocalPath, ← hlists.path, hkey]
    rfl
  intro hnone
  rw [destEntry, hfold] at hnone
  exact SortedTable.first_eq_none.mp hnone x hx hsame

/-- A pull that may not overwrite leaves every object that was there as it was, in every state of
every run, where the scan lists whatever lies under the name of a source file and only reserved
names lie under its transfer names. -/
theorem pull_keeps_objects (vol : Volume) (codec : SidecarCodec) (pull : Pull) (streams : Streams)
    (tree tree' : LocalTree) (actions : List Action) (hu : tree.UniquePaths vol)
    (hpolicy : pull.opts.conflict ≠ .sourceWins) (hdescribed : Described vol tree pull)
    (hreserved : Reserved vol tree pull) (hplans : pull.Plans vol codec tree actions)
    (hruns : Runs vol codec pull.peer streams (fun _ _ => True) actions tree tree') :
    ∀ node ∈ tree, isReservedName node.name = false → tree'.get vol node.path = some node.obj := by
  intro node hnode hname
  obtain ⟨label, cancelled, result, p, hscan, hplan, rfl⟩ := hplans
  have hfind := hu.find hnode rfl
  have hstart : tree.disk vol (vol.foldPath node.path) = some node.obj := by
    rw [← LocalTree.get_eq_disk, LocalTree.get, hfind]
    rfl
  -- no copy of the plan has a transfer name there, nor its final name unless a folder is there
  have hcopy (path : RelPath) (size resumeFrom : ℕ) (modified : Option ModifiedTime)
      (reason : CopyReason) (hm : Action.copy path size modified resumeFrom reason ∈ p.actions) :
      path.segments ≠ [] ∧ ∀ x, cellKey vol path.toLocalPath x = vol.foldPath node.path →
        x = .final ∧ node.obj.isDir = true := by
    obtain ⟨e, he, rfl, hkind, hnone⟩ := planned_copy_absent hplan hpolicy hm
    refine ⟨pull.named e he, fun x hx => ?_⟩
    by_cases hfinal : x = .final
    · subst hfinal
      refine ⟨rfl, ?_⟩
      by_contra hdir
      obtain ⟨hlooked, y, hlists⟩ := hdescribed e he hkind node hnode (Bool.eq_false_iff.mpr hdir) hx.symm
      exact destEntry_of_lists hu hscan hlooked hlists hx.symm hnone
    · have htrue := hreserved e he hkind x hfinal node hnode hx.symm
      exact absurd (htrue.symm.trans hname) (by simp)
  have hkeeps := Runs.keeps
    (J := fun as t => (∀ a ∈ as, a ∈ p.actions) ∧ t.disk vol (vol.foldPath node.path) = some node.obj)
    (K := fun t => t.disk vol (vol.foldPath node.path) = some node.obj) ?_ (fun _ _ h => h.2) hruns
    ⟨fun _ ha => ha, hstart⟩
  · exact hkeeps
  · intro a as o t t' _ hj hacts
    obtain ⟨hsub, hobj⟩ := hj
    refine ⟨fun b hb => hsub b (List.mem_cons_of_mem a hb), ?_⟩
    cases a with
    | skip path reason =>
      rw [hacts.2]
      exact hobj
    | mkdir path => exact (Acts.mkdir hacts).keeps hobj
    | copy path size modified resumeFrom reason =>
      obtain ⟨hpath, hcell⟩ := hcopy path size resumeFrom modified reason (hsub _ List.mem_cons_self)
      rcases Acts.copy hpath hacts with rfl | ⟨offset, input, -, -, hleaves⟩
      · exact hobj
      · by_cases hkey : ∃ x, cellKey vol path.toLocalPath x = vol.foldPath node.path
        · obtain ⟨x, hx⟩ := hkey
          obtain ⟨rfl, hdir⟩ := hcell x hx
          rw [← hx] at hobj ⊢
          exact hleaves.keeps_dir (nameable vol hpath).injective hdir hobj
        · exact hleaves.keeps hobj (fun x hx => hkey ⟨x, hx⟩)

end Keeping

private def unixVolume : Volume := ⟨.ascii, .exact, 64⟩

private theorem aJpg_valid : ∀ segment ∈ ["a.jpg"], validateSegment segment = .ok () := by decide

private def aJpg : Entry := Entry.file (.ofSegments ["a.jpg"] aJpg_valid) 1 none

private def bJpg : Entry := Entry.file (.ofSegments ["b.jpg"]) 1 none

private def calm : Weather := fun _ => .none

/-- What the source sends for every file of these examples. -/
private def oneByte : Streams := fun _ _ _ input => input = [.ok [7]]

/-- Two files on the phone, the second of which is there already. -/
private def twoJpgs : Pull where
  peer := ⟨"ZY22", "Internal"⟩
  source := Snapshot.new "phone" [aJpg, bJpg] []
  only := none
  opts := .pull
  named := by decide

private def secondJpg : LocalTree := [⟨[], .dir true⟩, ⟨[.utf8 "b.jpg"], .file [5] true⟩]

private noncomputable def secondJpgRun : Outcome Error Unit × World :=
  LocalEndpoint.copyOne unixVolume calm .json twoJpgs.peer ⟨aJpg.path, 1, 0, none⟩
    (fun _ => .ok [.ok [7]]) (.fresh secondJpg)

theorem pull_keeps_objects_secondJpg :
    secondJpgRun.2.tree.get unixVolume [.utf8 "a.jpg"] = some (.file [7] true) ∧
      secondJpgRun.2.tree.get unixVolume [.utf8 "b.jpg"] = some (.file [5] true) := by
  refine ⟨rfl, ?_⟩
  have hdescribed : Described unixVolume secondJpg twoJpgs := by
    intro e _ _ node hnode hdir _
    have hb : node = ⟨[.utf8 "b.jpg"], .file [5] true⟩ := by
      rcases List.mem_cons.mp hnode with rfl | hnode
      · exact absurd hdir (by decide)
      · exact List.mem_singleton.mp hnode
    subst hb
    exact ⟨⟨rfl, by decide, rfl⟩, bJpg, rfl, _, rfl, rfl⟩
  have hreserved : Reserved unixVolume secondJpg twoJpgs := by
    intro e he _ x hx node hnode hkey
    exfalso
    have he' : e = aJpg ∨ e = bJpg := by simpa using (show e ∈ [aJpg, bJpg] from he)
    have hnode' : node = ⟨[], .dir true⟩ ∨ node = ⟨[.utf8 "b.jpg"], .file [5] true⟩ := by
      simpa [secondJpg] using hnode
    rcases he' with rfl | rfl <;> rcases hnode' with rfl | rfl <;> cases x <;>
      first | exact hx rfl | exact absurd hkey (by decide)
  have hruns : Runs unixVolume .json twoJpgs.peer oneByte (fun _ _ => True)
      [.copy (.ofSegments ["a.jpg"]) 1 none 0 .new, .skip (.ofSegments ["b.jpg"]) .identical] secondJpg
      secondJpgRun.2.tree :=
    .last trivial ⟨calm, fun _ => .ok [.ok [7]], .fresh secondJpg, secondJpgRun.2, rfl, rfl,
      fun _ _ h => (Except.ok.inj h).symm, rfl⟩
  exact pull_keeps_objects unixVolume .json twoJpgs oneByte secondJpg secondJpgRun.2.tree _ (by decide)
    (by decide) hdescribed hreserved ⟨"local", fun _ => false, _, _, rfl, rfl, rfl⟩ hruns
    ⟨[.utf8 "b.jpg"], .file [5] true⟩ (by decide) (by decide)

/-- A pipe where the phone has a file. -/
private def pipe : LocalTree := [⟨[], .dir true⟩, ⟨[.utf8 "b.jpg"], .special⟩]

private noncomputable def besidePipeRun : Outcome Error Unit × World :=
  LocalEndpoint.copyOne unixVolume calm .json twoJpgs.peer ⟨aJpg.path, 1, 0, none⟩
    (fun _ => .ok [.ok [7]]) (.fresh pipe)

private noncomputable def pipeRun : Outcome Error Unit × World :=
  LocalEndpoint.copyOne unixVolume calm .json twoJpgs.peer ⟨bJpg.path, 1, 0, none⟩
    (fun _ => .ok [.ok [7]]) (.fresh besidePipeRun.2.tree)

/-- The scan leaves the pipe out, the plan takes both files for new, and both are copied: the
second write renames over the pipe. -/
theorem pull_replaces_pipe :
    ∃ actions, twoJpgs.Plans unixVolume .json pipe actions ∧
      ∃ tree, Runs unixVolume .json twoJpgs.peer oneByte (fun _ _ => True) actions pipe tree ∧
        isReservedName "b.jpg" = false ∧ pipe.get unixVolume [.utf8 "b.jpg"] = some .special ∧
          tree.get unixVolume [.utf8 "b.jpg"] = some (.file [7] true) := by
  refine ⟨[.copy (.ofSegments ["a.jpg"]) 1 none 0 .new, .copy (.ofSegments ["b.jpg"]) 1 none 0 .new],
    ⟨"local", fun _ => false, _, _, rfl, rfl, rfl⟩, pipeRun.2.tree, ?_, by decide, rfl, rfl⟩
  refine .next trivial (o := .ok ()) ⟨calm, fun _ => .ok [.ok [7]], .fresh pipe, besidePipeRun.2,
    rfl, rfl, fun _ _ h => (Except.ok.inj h).symm, rfl⟩ (by simp) ?_
  exact .last trivial ⟨calm, fun _ => .ok [.ok [7]], .fresh besidePipeRun.2.tree, pipeRun.2, rfl,
    rfl, fun _ _ h => (Except.ok.inj h).symm, rfl⟩

end MtpxCore
