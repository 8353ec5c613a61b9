import MtpxCore.PartWriterSpecs
import MtpxCore.TransferMoves

/-! A write makes nothing but the moves of its transfer, and a record that its last call put in
place has the spelling the write gave it. -/
namespace MtpxCore

open CrashHoare

/-- Something lies under the name of the record, and its last name is spelled as the transfer
spells it. -/
def Placed (vol : Volume) (finalPath : List OsName) (tree : LocalTree) : Prop :=
  ∃ node ∈ tree, vol.foldPath node.path = vol.foldPath (localSidecarPath finalPath) ∧
    node.path.getLast? = (localSidecarPath finalPath).getLast?

/-- The tree has come from `before` by moves of the transfer; a record that was just put in
place is spelled as the transfer spells it. -/
def Moved (vol : Volume) (finalPath : List OsName) (before : LocalTree) (w : World) : Prop :=
  Moves vol finalPath before w.tree ∧ (SidecarWritten finalPath w → Placed vol finalPath w.tree)

section Calls

variable {vol : Volume} {env : Weather} {codec : SidecarCodec} {finalPath : List OsName}
  {before : LocalTree}

/-- A call whose every effect is a run of moves. -/
theorem perform_moved {α : Type} {op : Op} {path : List OsName} {R : α → Prop}
    {act : LocalTree → Except IoErrorKind (α × LocalTree)} {torn : ℕ → LocalTree → LocalTree}
    (hact : ∀ tree a tree', act tree = .ok (a, tree') → Moves vol finalPath tree tree' ∧ R a ∧
      (op = .rename (localSidecarTmpPath finalPath) → Placed vol finalPath tree'))
    (htorn : ∀ n tree, Moves vol finalPath tree (torn n tree)) :
    Triple (fun w => Moves vol finalPath before w.tree) (perform env op path act torn)
      ⟨fun a w => Moved vol finalPath before w ∧ R a, fun _ => Moved vol finalPath before,
        fun _ => True⟩ := by
  have hfailed (w : World) (tree : LocalTree) (kind : IoErrorKind)
      (h : Moves vol finalPath before tree) :
      Moved vol finalPath before (w.logged tree op path (some kind)) := by
    refine ⟨h, fun hwritten => ?_⟩
    exact absurd (Option.some.inj hwritten) (by simp)
  apply perform_triple
  · intro w a tree hw ha
    obtain ⟨hmoves, hr, hplaced⟩ := hact _ _ _ ha
    refine ⟨⟨hw.trans hmoves, fun hwritten => hplaced ?_⟩, hr⟩
    exact congrArg Event.op (Option.some.inj hwritten)
  · intro w kind hw ha
    exact hfailed w w.tree kind hw
  · intro w kind n hw _
    exact hfailed w _ kind (hw.trans (htorn n w.tree))
  · intro w n hw
    trivial

/-- Calls other than the rename of a record. -/
theorem perform_keeps {α : Type} {op : Op} {path : List OsName} {R : α → Prop}
    {act : LocalTree → Except IoErrorKind (α × LocalTree)} {torn : ℕ → LocalTree → LocalTree}
    (hop : op ≠ .rename (localSidecarTmpPath finalPath))
    (hact : ∀ tree a tree', act tree = .ok (a, tree') → Moves vol finalPath tree tree' ∧ R a)
    (htorn : ∀ n tree, Moves vol finalPath tree (torn n tree)) :
    Preserves (Moved vol finalPath before) (perform env op path act torn) R :=
  (perform_moved (fun tree a tree' h => ⟨(hact tree a tree' h).1, (hact tree a tree' h).2,
    fun hrename => absurd hrename hop⟩) htorn).weaken (fun _ h => h.1)
    ⟨fun _ _ h => h, fun _ _ h => h, fun _ h => h⟩

/-- Calls that only look. -/
theorem look_keeps {α : Type} {op : Op} {path : List OsName} {R : α → Prop}
    {act : LocalTree → Except IoErrorKind (α × LocalTree)}
    (hop : op ≠ .rename (localSidecarTmpPath finalPath))
    (hact : ∀ tree a tree', act tree = .ok (a, tree') → tree' = tree ∧ R a) :
    Preserves (Moved vol finalPath before) (perform env op path act (fun _ tree => tree)) R := by
  refine perform_keeps hop (fun tree a tree' h => ?_) (fun _ _ => .refl)
  obtain ⟨rfl, hr⟩ := hact tree a tree' h
  exact ⟨.refl, hr⟩

/-- After a look at the tree the last call is none that places a record. -/
theorem metadata_moved {path : List OsName} :
    Triple (fun w => Moves vol finalPath before w.tree) (metadata vol env path)
      ⟨fun _ w => Moved vol finalPath before w ∧ True, fun _ => Moved vol finalPath before,
        fun _ => True⟩ := by
  refine perform_moved (fun tree m tree' h => ?_) (fun _ _ => .refl)
  have hsame : tree' = tree := by
    split at h
    · exact absurd h (by simp)
    · exact absurd h (by simp)
    · exact (congrArg Prod.snd (Except.ok.inj h)).symm
  subst hsame
  exact ⟨.refl, trivial, fun hop => absurd hop (by simp)⟩

theorem metadata_keeps {path : List OsName} :
    Preserves (Moved vol finalPath before) (metadata vol env path) (fun _ => True) :=
  metadata_moved.weaken (fun _ h => h.1) ⟨fun _ _ h => h, fun _ _ h => h, fun _ h => h⟩

theorem removeFile_keeps {x : Cell} :
    Preserves (Moved vol finalPath before) (removeFile vol env (cellPath finalPath x)) (fun _ => True) := by
  refine perform_keeps (by simp) (fun tree u tree' h => ⟨?_, trivial⟩) (fun _ _ => .refl)
  split at h
  · exact absurd h (by simp)
  · exact absurd h (by simp)
  · rename_i obj hdir hget
    cases h
    refine .single (.erase (LocalTree.noFolder_of_get fun readable hfolder => ?_))
    exact hdir readable (Option.some.inj (hget.symm.trans hfolder))

theorem createWith_moves {x : Cell} {bytes : Bytes} {tree tree' : LocalTree}
    (h : createWith vol (cellPath finalPath x) bytes tree = .ok tree') :
    Moves vol finalPath tree tree' := by
  unfold createWith at h
  split at h
  · exact absurd h (by simp)
  · exact absurd h (by simp)
  · rename_i old readable hget
    refine .single (.file (LocalTree.noFolder_of_get fun _ hfolder => ?_) h)
    exact absurd (hget.symm.trans hfolder) (by simp)
  · rename_i hdir _ _
    exact .single (.file (LocalTree.noFolder_of_get hdir) h)

/-- Opening a file starts with nothing owed. -/
theorem opened_keeps {α : Type} {R : α → Prop} {m : Fs α}
    (h : Preserves (Moved vol finalPath before) m R) :
    Preserves (Moved vol finalPath before) (fun w => m { w with pending := none }) R := by
  intro w hw
  exact h { w with pending := none } hw

theorem createFile_keeps :
    Preserves (Moved vol finalPath before) (createFile vol env (localPartPath finalPath))
      (fun file => file.path = localPartPath finalPath) := by
  refine opened_keeps (perform_keeps (by simp) (fun tree file tree' h => ?_) (fun _ _ => .refl))
  cases hc : createWith vol (localPartPath finalPath) [] tree with
  | error kind =>
    rw [hc] at h
    exact absurd h (by simp [Except.map])
  | ok t =>
    rw [hc] at h
    cases h
    exact ⟨createWith_moves (x := .part) hc, rfl⟩

theorem openWrite_keeps {path : List OsName} :
    Preserves (Moved vol finalPath before) (openWrite vol env path) (fun file => file.path = path) := by
  refine opened_keeps (look_keeps (by simp) fun tree file tree' h => ?_)
  split at h
  · cases h
    exact ⟨rfl, rfl⟩
  all_goals exact absurd h (by simp)

theorem setContents_moves {file : File} {bytes : Bytes} (hfile : file.path = localPartPath finalPath)
    (tree : LocalTree) : Moves vol finalPath tree (setContents vol tree file bytes) := by
  unfold setContents
  rw [hfile]
  split
  · rename_i old readable hget
    split
    · rename_i tree' hput
      have hno : tree.NoFolder vol (localPartPath finalPath) :=
        LocalTree.noFolder_of_get fun _ hfolder => absurd (hget.symm.trans hfolder) (by simp)
      exact .single (.file (x := .part) hno hput)
    · exact .refl
  · exact .refl

theorem fileLen_keeps {file : File} :
    Preserves (Moved vol finalPath before) (fileLen vol env file) (fun _ => True) :=
  look_keeps (by simp) fun _ _ _ h => ⟨(congrArg Prod.snd (Except.ok.inj h)).symm, trivial⟩

theorem setLen_keeps {file : File} {len : ℕ} (hfile : file.path = localPartPath finalPath) :
    Preserves (Moved vol finalPath before) (setLen vol env file len) (fun _ => True) := by
  refine perform_keeps (by simp) (fun tree u tree' h => ⟨?_, trivial⟩) (fun _ _ => .refl)
  cases h
  exact setContents_moves hfile tree

theorem seek_keeps {file : File} {pos : ℕ} :
    Preserves (Moved vol finalPath before) (seek env file pos) (fun file' => file'.path = file.path) := by
  refine look_keeps (by simp) fun tree file' tree' h => ?_
  cases h
  exact ⟨rfl, rfl⟩

theorem syncAll_keeps {file : File} :
    Preserves (Moved vol finalPath before) (syncAll env file) (fun _ => True) :=
  look_keeps (by simp) fun _ _ _ h => ⟨(congrArg Prod.snd (Except.ok.inj h)).symm, trivial⟩

/-- A call that was logged as anything but the rename of a record. -/
theorem Moved.logged {w : World} {tree : LocalTree} {op : Op} {path : List OsName}
    {failure : Option IoErrorKind} {pending : Option IoErrorKind}
    (h : Moves vol finalPath before tree) (hop : op ≠ .rename (localSidecarTmpPath finalPath)) :
    Moved vol finalPath before { w.logged tree op path failure with pending := pending } := by
  refine ⟨h, fun hwritten => ?_⟩
  exact absurd (congrArg Event.op (Option.some.inj hwritten)) hop

theorem writeAll_keeps {file : File} {chunk : Bytes} (hfile : file.path = localPartPath finalPath) :
    Preserves (Moved vol finalPath before) (writeAll vol env file chunk)
      (fun file' => file'.path = localPartPath finalPath) := by
  have hlands (tree : LocalTree) (part : Bytes) :
      Moves vol finalPath tree (landChunk vol tree file part) := setContents_moves hfile tree
  have hcall : Preserves (Moved vol finalPath before) (perform env .write file.path
      (fun tree => .ok ({ file with pos := file.pos + chunk.length }, landChunk vol tree file chunk))
      (fun n tree => landChunk vol tree file (chunk.take n)))
      (fun file' => file'.path = localPartPath finalPath) := by
    refine perform_keeps (by simp) (fun tree file' tree' h => ?_) (fun n tree => hlands tree _)
    cases h
    exact ⟨hlands tree chunk, hfile⟩
  intro w hw
  have hmeets := hcall w hw
  unfold writeAll
  split
  · exact Moved.logged hw.1 (by simp)
  · split
    · exact ⟨Moved.logged (hw.1.trans (hlands _ _)) (by simp), hfile⟩
    · exact hmeets

theorem flush_keeps {file : File} :
    Preserves (Moved vol finalPath before) (flush env file) (fun _ => True) := by
  have hcall : Preserves (Moved vol finalPath before) (perform env .flush file.path
      (fun tree => .ok ((), tree)) (fun _ tree => tree)) (fun _ => True) :=
    look_keeps (by simp) fun _ _ _ h => ⟨(congrArg Prod.snd (Except.ok.inj h)).symm, trivial⟩
  intro w hw
  have hmeets := hcall w hw
  unfold flush
  split
  · exact Moved.logged hw.1 (by simp)
  · exact hmeets

theorem writeFile_keeps {x : Cell} {bytes : Bytes} :
    Preserves (Moved vol finalPath before) (writeFile vol env (cellPath finalPath x) bytes)
      (fun _ => True) := by
  refine perform_keeps (by simp) (fun tree u tree' h => ⟨?_, trivial⟩) (fun n tree => ?_)
  · cases hc : createWith vol (cellPath finalPath x) bytes tree with
    | error kind =>
      rw [hc] at h
      exact absurd h (by simp [Except.map])
    | ok t =>
      rw [hc] at h
      cases h
      exact createWith_moves hc
  · cases n with
    | zero => exact .refl
    | succ n =>
      dsimp only
      cases hc : createWith vol (cellPath finalPath x) (bytes.take n) tree with
      | error kind => exact .refl
      | ok t => exact createWith_moves hc

theorem LocalTree.NoFolder.erase {tree : LocalTree} {path other : List OsName}
    (h : tree.NoFolder vol path) : (tree.erase vol other).NoFolder vol path := by
  rw [LocalTree.NoFolder, LocalTree.get_eq_disk] at h ⊢
  rw [LocalTree.disk_erase]
  by_cases hk : vol.foldPath path = vol.foldPath other
  · rw [hk, Function.update_self]
    rfl
  · rwa [Function.update_of_ne hk]

/-- A rename erases both names and puts the object back under the second, as that is spelled. -/
theorem renameTo_moves {x y : Cell} {tree tree' : LocalTree}
    (h : renameTo vol (cellPath finalPath x) (cellPath finalPath y) tree = .ok tree') :
    Moves vol finalPath tree tree' ∧ ∃ node ∈ tree',
      vol.foldPath node.path = vol.foldPath (cellPath finalPath y) ∧
        node.path.getLast? = (cellPath finalPath y).getLast? := by
  unfold renameTo at h
  split at h
  · exact absurd h (by simp)
  · exact absurd h (by simp)
  · exact absurd h (by simp)
  · rename_i _ _ obj hsrcDir hsrc hdstDir
    have hx : tree.NoFolder vol (cellPath finalPath x) := by
      refine LocalTree.noFolder_of_get fun readable hfolder => ?_
      exact hsrcDir readable (Option.some.inj (hsrc.symm.trans hfolder))
    have hy : tree.NoFolder vol (cellPath finalPath y) := LocalTree.noFolder_of_get hdstDir
    have hfree : ((tree.erase vol (cellPath finalPath x)).erase vol (cellPath finalPath y)).find vol
        (cellPath finalPath y) = none := LocalTree.find_erase _ _
    refine ⟨?_, ?_⟩
    · have hsource : Move vol finalPath tree (tree.erase vol (cellPath finalPath x)) := .erase hx
      exact ((Relation.ReflTransGen.single hsource).tail (.erase hy.erase)).tail
        (.file (LocalTree.noFolder_of_find_none hfree) h)
    · rcases LocalTree.put_cases h with ⟨⟨node, hnode⟩, -⟩ | ⟨node, hadded, rfl⟩
      · rw [hfree] at hnode
        exact absurd hnode (by simp)
      · exact ⟨node, List.mem_append_right _ (List.mem_singleton_self node), hadded.key, hadded.name⟩

theorem rename_act {src dst : List OsName} {tree tree' : LocalTree} {u : Unit}
    (h : (renameTo vol src dst tree).map (fun tree => ((), tree)) = .ok (u, tree')) :
    renameTo vol src dst tree = .ok tree' := by
  cases hr : renameTo vol src dst tree with
  | error kind =>
    rw [hr] at h
    exact absurd h (by simp [Except.map])
  | ok t =>
    rw [hr] at h
    cases h
    rfl

/-- The rename that puts a record in place spells it as the transfer does. -/
theorem placeRecord_keeps :
    Preserves (Moved vol finalPath before)
      (rename vol env (localSidecarTmpPath finalPath) (localSidecarPath finalPath)) (fun _ => True) := by
  refine (perform_moved (fun tree u tree' h => ?_) (fun _ _ => .refl)).weaken (fun _ h => h.1)
    ⟨fun _ _ h => h, fun _ _ h => h, fun _ h => h⟩
  obtain ⟨hmoves, hplaced⟩ := renameTo_moves (x := .tmp) (y := .side) (rename_act h)
  exact ⟨hmoves, trivial, fun _ => hplaced⟩

/-- Part and record have different names, so the rename of a part places no record. -/
theorem part_ne_tmp (hne : finalPath ≠ []) : localPartPath finalPath ≠ localSidecarTmpPath finalPath := by
  intro h
  obtain ⟨dir, name, rfl⟩ := List.eq_nil_or_concat finalPath |>.resolve_left hne
  rw [List.concat_eq_append, localPartPath, localSidecarTmpPath, osWithSuffix, osWithSuffix,
    List.getLast?_concat] at h
  cases name with
  | utf8 text =>
    have hname := OsName.utf8.inj (List.singleton_inj.mp (List.append_cancel_left h))
    have hlen := congrArg String.length hname
    rw [String.length_append, String.length_append] at hlen
    exact absurd (Nat.add_left_cancel hlen) (by decide)
  | raw lossy bytes =>
    have hname := (OsName.raw.inj (List.singleton_inj.mp (List.append_cancel_left h))).1
    have hlen := congrArg String.length hname
    rw [String.length_append, String.length_append] at hlen
    exact absurd (Nat.add_left_cancel hlen) (by decide)

theorem commitPart_keeps (hne : finalPath ≠ []) :
    Preserves (Moved vol finalPath before) (rename vol env (localPartPath finalPath) finalPath)
      (fun _ => True) := by
  refine perform_keeps ?_ (fun tree u tree' h => ⟨?_, trivial⟩) (fun _ _ => .refl)
  · intro hop
    exact part_ne_tmp hne (Op.rename.inj hop)
  · exact (renameTo_moves (x := .part) (y := .final) (rename_act h)).1

/-- Missing folders are added from the top, each below one that is there. -/
theorem addDirs_moves {dirs : List (List OsName)} (hinits : ∀ d ∈ dirs, d ∈ finalPath.dropLast.inits)
    (hdistinct : dirs.Pairwise (fun a b => a.length ≠ b.length)) {tree : LocalTree}
    (hfree : ∀ d ∈ dirs, tree.find vol d = none) : Moves vol finalPath tree (addDirs vol tree dirs) := by
  induction dirs generalizing tree with
  | nil => exact .refl
  | cons dir dirs ih =>
    obtain ⟨hdir, hrest⟩ := List.pairwise_cons.mp hdistinct
    unfold addDirs
    split
    · rename_i tree' hput
      have hmove : Move vol finalPath tree tree' :=
        .folder (hinits dir List.mem_cons_self) (hfree dir List.mem_cons_self) hput
      refine .head hmove (ih (fun d hd => hinits d (List.mem_cons_of_mem _ hd)) hrest fun d hd => ?_)
      -- the new folder is no deeper and no higher than any other that is missing
      rw [LocalTree.find_eq_none]
      intro node hm hkey
      by_cases hk : vol.foldPath node.path = vol.foldPath dir
      · exact hdir d hd (Volume.length_eq_of_fold (hk.symm.trans hkey))
      · exact LocalTree.find_eq_none.mp (hfree d (List.mem_cons_of_mem _ hd)) node
          (LocalTree.mem_of_mem_put hput hm hk) hkey
    · exact .refl

theorem missingDirs_moves {dirs : List (List OsName)} {tree : LocalTree}
    (hsub : dirs.Sublist (missingDirs vol tree finalPath.dropLast)) :
    Moves vol finalPath tree (addDirs vol tree dirs) := by
  have hmissing {d : List OsName} (hd : d ∈ dirs) :
      d ∈ finalPath.dropLast.inits ∧ tree.find vol d = none := by
    have hm := hsub.subset hd
    rw [missingDirs, List.mem_filter, LocalTree.get, Option.isNone_iff_eq_none,
      Option.map_eq_none_iff] at hm
    exact hm
  refine addDirs_moves (fun d hd => (hmissing hd).1) ?_ fun d hd => (hmissing hd).2
  exact (inits_lengths _).sublist (hsub.trans List.filter_sublist)

theorem createDirAll_keeps :
    Preserves (Moved vol finalPath before) (createDirAll vol env finalPath.dropLast) (fun _ => True) := by
  refine perform_keeps (by simp) (fun tree u tree' h => ⟨?_, trivial⟩) (fun n tree => ?_)
  · split at h
    · cases h
      exact missingDirs_moves (List.Sublist.refl _)
    · exact absurd h (by simp)
  · split
    · exact missingDirs_moves (List.take_sublist _ _)
    · exact .refl

end Calls

section Steps

variable {vol : Volume} {env : Weather} {codec : SidecarCodec} {finalPath : List OsName}
  {before : LocalTree}

theorem removeIfPresent_keeps {x : Cell} :
    Preserves (Moved vol finalPath before) (removeIfPresent vol env (cellPath finalPath x))
      (fun _ => True) := by
  refine removeFile_keeps.attempt.bind fun r _ => ?_
  cases r with
  | ok u => exact .pure trivial
  | error kind =>
    cases kind with
    | notFound => exact .pure trivial
    | _ => exact .fail

theorem removeSidecar_keeps :
    Preserves (Moved vol finalPath before) (removeSidecar vol env finalPath) (fun _ => True) :=
  (removeIfPresent_keeps (x := .tmp)).bind fun _ _ => removeIfPresent_keeps (x := .side)

theorem removePartial_keeps :
    Preserves (Moved vol finalPath before) (removePartial vol env finalPath) (fun _ => True) :=
  (removeIfPresent_keeps (x := .part)).bind fun _ _ => removeSidecar_keeps

theorem writeSidecar_keeps {sidecar : Sidecar} :
    Preserves (Moved vol finalPath before) (writeSidecar vol env codec finalPath sidecar)
      (fun _ => True) :=
  (writeFile_keeps (x := .tmp)).mapError.bind fun _ _ => placeRecord_keeps.mapError

/-- The first look of a write: whatever was called before, the last call places no record. -/
theorem refuseDirectory_moved :
    Triple (fun w => Moves vol finalPath before w.tree) (refuseDirectory vol env finalPath)
      ⟨fun _ w => Moved vol finalPath before w ∧ True, fun _ => Moved vol finalPath before,
        fun _ => True⟩ := by
  refine metadata_moved.attempt.bind (fun r => ?_) (fun _ _ h => h.elim) (fun _ h => h)
  cases r with
  | ok m =>
    dsimp only
    split
    · exact Triple.fail fun w h => h.1
    · exact Triple.pure fun w h => ⟨h.1, trivial⟩
  | error kind =>
    cases kind with
    | notFound => exact Triple.pure fun w h => ⟨h, trivial⟩
    | _ => exact Triple.fail fun w h => h

theorem effectiveResume_keeps {path : List OsName} {requested : ℕ} :
    Preserves (Moved vol finalPath before) (effectiveResume vol env path requested) (fun _ => True) := by
  unfold effectiveResume
  split
  · exact .pure trivial
  · refine metadata_keeps.attempt.bind fun r _ => ?_
    cases r with
    | ok m => exact .pure trivial
    | error kind =>
      cases kind with
      | notFound => exact .pure trivial
      | _ => exact .fail

theorem openResumed_keeps {resumeFrom : ℕ} :
    Preserves (Moved vol finalPath before) (openResumed vol env (localPartPath finalPath) resumeFrom)
      (fun file => file.path = localPartPath finalPath) := by
  unfold openResumed
  refine openWrite_keeps.mapError.bind fun file hfile => ?_
  have hholds : Preserves (Moved vol finalPath before)
      (ensureStillHolds vol env file (localPartPath finalPath) resumeFrom) (fun _ => True) := by
    refine fileLen_keeps.mapError.bind fun len _ => ?_
    split
    · exact .pure trivial
    · exact .fail
  refine hholds.bind fun _ _ => (setLen_keeps hfile).mapError.bind fun _ _ => ?_
  exact seek_keeps.mapError.weaken fun file' hseek => hseek.trans hfile

theorem openPart_keeps {resumeFrom : ℕ} :
    Preserves (Moved vol finalPath before) (openPart vol env (localPartPath finalPath) resumeFrom)
      (fun file => file.path = localPartPath finalPath) := by
  unfold openPart
  split
  · exact createFile_keeps.mapError
  · exact openResumed_keeps

theorem keepPartial_keeps {sidecar : Sidecar} {error : Error} :
    Preserves (Moved vol finalPath before) (keepPartial vol env codec finalPath sidecar error)
      (fun _ => True) :=
  writeSidecar_keeps.attempt.bind fun _ _ => .fail

theorem discardPartial_keeps {error : Error} :
    Preserves (Moved vol finalPath before) (discardPartial vol env finalPath error) (fun _ => True) :=
  removePartial_keeps.attempt.bind fun _ _ => .fail

theorem commit_keeps (hne : finalPath ≠ []) {file : File} :
    Preserves (Moved vol finalPath before)
      (commit vol env file (localPartPath finalPath) finalPath) (fun _ => True) := by
  refine syncAll_keeps.mapError.bind fun _ _ => (commitPart_keeps hne).mapError.bind fun _ _ => ?_
  exact removeSidecar_keeps.attempt.bind fun _ _ => .pure trivial

/-- The writer is for this transfer. -/
structure PartWriter.For (finalPath : List OsName) (writer : PartWriter) : Prop where
  file : writer.file.path = localPartPath finalPath
  part : writer.part = localPartPath finalPath
  finalPath : writer.finalPath = finalPath

theorem open_keeps {sidecar : Sidecar} :
    Preserves (Moved vol finalPath before) (PartWriter.open vol env finalPath sidecar)
      (PartWriter.For finalPath) := by
  unfold PartWriter.open
  refine createDirAll_keeps.mapError.bind fun _ _ => effectiveResume_keeps.bind fun bytes _ => ?_
  have hopen : Preserves (Moved vol finalPath before)
      (do
        let file ← openPart vol env (localPartPath finalPath) bytes
        pure (⟨file, localPartPath finalPath, finalPath, { sidecar with bytes := bytes },
          decide (bytes = sidecar.bytes), bytes⟩ : PartWriter))
      (PartWriter.For finalPath) :=
    openPart_keeps.bind fun file hfile => .pure ⟨hfile, rfl, rfl⟩
  dsimp only
  split
  · exact removeSidecar_keeps.bind fun _ _ => hopen
  · exact hopen

theorem writerFlush_keeps {writer : PartWriter} :
    Preserves (Moved vol finalPath before) (writer.flush env) (fun _ => True) :=
  flush_keeps.mapError.attempt.weaken fun _ _ => trivial

theorem checkpoint_keeps {writer : PartWriter} (hw : writer.For finalPath) :
    Preserves (Moved vol finalPath before) (writer.checkpoint vol env codec)
      (fun r => r.1.For finalPath) := by
  unfold PartWriter.checkpoint
  refine writerFlush_keeps.bind fun flushed _ => ?_
  cases flushed with
  | error e => exact .pure hw
  | ok u =>
    rw [hw.finalPath]
    refine writeSidecar_keeps.attempt.bind fun written _ => ?_
    cases written with
    | error e => exact .pure hw
    | ok u => exact .pure ⟨hw.file, hw.part, rfl⟩

/-- The loop over the chunks, by induction on the stream. -/
theorem copyChunks_keeps {input : ByteStream} {writer : PartWriter} (hw : writer.For finalPath) :
    Preserves (Moved vol finalPath before) (writer.copyChunks vol env codec input)
      (fun r => r.1.For finalPath) := by
  induction input generalizing writer with
  | nil => exact .pure hw
  | cons item input ih =>
    cases item with
    | error e => exact .pure hw
    | ok chunk =>
      refine (writeAll_keeps hw.file).mapError.attempt.bind fun r hr => ?_
      cases r with
      | error e => exact .pure hw
      | ok file =>
        have hnext : (writer.countChunk file chunk).For finalPath :=
          ⟨hr file rfl, hw.part, hw.finalPath⟩
        dsimp only
        split
        · refine (checkpoint_keeps hnext).bind fun checked hchecked => ?_
          obtain ⟨writer', outcome⟩ := checked
          cases outcome with
          | error e => exact .pure hchecked
          | ok u => exact ih hchecked
        · exact ih hnext

theorem pump_keeps {input : ByteStream} {writer : PartWriter} (hw : writer.For finalPath) :
    Preserves (Moved vol finalPath before) (writer.pump vol env codec input)
      (fun r => r.1.For finalPath) := by
  unfold PartWriter.pump
  refine (copyChunks_keeps hw).bind fun copied hcopied => ?_
  obtain ⟨writer', outcome⟩ := copied
  refine writerFlush_keeps.bind fun flushed _ => ?_
  have hlanded : Preserves (Moved vol finalPath before) (writer'.landed vol env) (fun _ => True) := by
    refine fileLen_keeps.attempt.bind fun r _ => ?_
    cases r with
    | ok len => exact .pure trivial
    | error kind => exact .pure trivial
  exact hlanded.bind fun bytes _ => .pure ⟨hcopied.file, hcopied.part, hcopied.finalPath⟩

theorem stop_keeps {writer : PartWriter} {error : Error} (hw : writer.For finalPath) :
    Preserves (Moved vol finalPath before) (writer.stop vol env codec error) (fun _ => True) := by
  unfold PartWriter.stop
  rw [hw.finalPath]
  split
  · exact keepPartial_keeps
  · exact discardPartial_keeps

theorem finish_keeps (hne : finalPath ≠ []) {writer : PartWriter} (hw : writer.For finalPath) :
    Preserves (Moved vol finalPath before) (writer.finish vol env codec) (fun _ => True) := by
  unfold PartWriter.finish
  rw [hw.part, hw.finalPath]
  refine (commit_keeps hne).attempt.bind fun r _ => ?_
  cases r with
  | ok u => exact .pure trivial
  | error e => exact keepPartial_keeps

theorem transfer_keeps (hne : finalPath ≠ []) {writer : PartWriter} {request : WriteRequest}
    {input : ByteStream} (hw : writer.For finalPath) :
    Preserves (Moved vol finalPath before) (writer.transfer vol env codec request input)
      (fun _ => True) := by
  refine (pump_keeps hw).bind fun pumped hpumped => ?_
  obtain ⟨writer', outcome⟩ := pumped
  cases outcome with
  | error e => exact stop_keeps hpumped
  | ok u =>
    dsimp only
    split
    · exact stop_keeps hpumped
    · exact finish_keeps hne hpumped

/-- A write that is not killed has only made the moves of its transfer. -/
theorem write_moved {peer : Identity} {request : WriteRequest} {input : ByteStream} {w : World}
    (hpath : request.path.segments ≠ []) :
    Triple (fun s => s = w) (LocalEndpoint.write vol env codec peer request input)
      ⟨fun _ => Moved vol request.path.toLocalPath w.tree,
        fun _ => Moved vol request.path.toLocalPath w.tree, fun _ => True⟩ := by
  have hprepare : Triple (fun s => s = w) (LocalEndpoint.prepare vol env peer request)
      ⟨fun writer s => Moved vol request.path.toLocalPath w.tree s ∧
          writer.For request.path.toLocalPath,
        fun _ => Moved vol request.path.toLocalPath w.tree, fun _ => True⟩ := by
    have hstart (s : World) (hs : s = w) :
        Moves vol request.path.toLocalPath w.tree s.tree := by
      rw [hs]
    have hopen : Preserves (Moved vol request.path.toLocalPath w.tree)
        (PartWriter.open vol env request.path.toLocalPath (sidecarFor peer request))
        (PartWriter.For request.path.toLocalPath) := open_keeps
    have hrefuse : Triple (fun s => s = w) (refuseDirectory vol env request.path.toLocalPath)
        ⟨fun _ s => Moved vol request.path.toLocalPath w.tree s ∧ True,
          fun _ => Moved vol request.path.toLocalPath w.tree, fun _ => True⟩ :=
      refuseDirectory_moved.weaken hstart ⟨fun _ _ h => h, fun _ _ h => h, fun _ h => h⟩
    refine hrefuse.bind (fun _ => ?_) (fun _ _ h => h) (fun _ h => h)
    exact Triple.weaken hopen (fun _ h => h.1) ⟨fun _ _ h => h, fun _ _ h => h, fun _ h => h⟩
  have htransfer (writer : PartWriter) (hw : writer.For request.path.toLocalPath) :
      Preserves (Moved vol request.path.toLocalPath w.tree)
        (writer.transfer vol env codec request input) (fun _ => True) :=
    transfer_keeps (nameable vol hpath).nonempty hw
  refine hprepare.bind (fun writer => Triple.given fun hw => ?_) (fun _ _ h => h) (fun _ h => h)
  exact Triple.weaken (htransfer writer hw) (fun _ h => h)
    ⟨fun _ _ h => h.1, fun _ _ h => h, fun _ h => h⟩

end Steps

end MtpxCore
