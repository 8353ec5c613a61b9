import MtpxCore.PartWriterAtomic
import MtpxCore.PartWriterMoves

/-! One rule for whatever is to be shown of a whole write: a property of trees that each of its
few moves keeps, and that the commit turns into another one, is turned so by the write. -/
namespace MtpxCore

open CrashHoare

/-- The part is a file of `size` bytes. -/
def PartOf (vol : Volume) (finalPath : List OsName) (size : ℕ) (tree : LocalTree) : Prop :=
  ∃ bytes readable, tree.get vol (localPartPath finalPath) = some (.file bytes readable) ∧
    bytes.length = size

/-- Every move of the transfer to `finalPath` keeps `I`; the commit of a part of `size` bytes makes it
`J`, and the removals after it keep that. -/
structure Guarded (vol : Volume) (finalPath : List OsName) (size : ℕ) (I J : LocalTree → Prop) :
    Prop where
  folder : ∀ dir tree tree', I tree → dir ∈ finalPath.dropLast.inits →
    tree.find vol dir = none → tree.put vol dir (.dir true) = .ok tree' → I tree'
  file : ∀ x bytes readable tree tree', I tree → x ≠ Cell.final →
    (∀ obj, tree.get vol (cellPath finalPath x) = some obj → obj.isFile = true ∨ obj = .danglingLink) →
    tree.put vol (cellPath finalPath x) (.file bytes readable) = .ok tree' → I tree'
  erase : ∀ x tree, I tree → x ≠ Cell.final → tree.NoFolder vol (cellPath finalPath x) →
    I (tree.erase vol (cellPath finalPath x))
  record : ∀ tree tree', I tree →
    renameTo vol (localSidecarTmpPath finalPath) (localSidecarPath finalPath) tree = .ok tree' →
    I tree'
  commit : ∀ tree tree', I tree → PartOf vol finalPath size tree →
    renameTo vol (localPartPath finalPath) finalPath tree = .ok tree' → J tree'
  tidy : ∀ x tree, J tree → x ≠ Cell.final → tree.NoFolder vol (cellPath finalPath x) →
    J (tree.erase vol (cellPath finalPath x))

/-- Folders added from the top, each where nothing was, keep what one added folder keeps. -/
theorem addDirs_guards {vol : Volume} {I : LocalTree → Prop} {dirs : List (List OsName)}
    (hfolder : ∀ dir tree tree', I tree → dir ∈ dirs → tree.find vol dir = none →
      tree.put vol dir (.dir true) = .ok tree' → I tree')
    (hdistinct : dirs.Pairwise (fun a b => a.length ≠ b.length)) {tree : LocalTree}
    (hfree : ∀ d ∈ dirs, tree.find vol d = none) (hi : I tree) : I (addDirs vol tree dirs) := by
  induction dirs generalizing tree with
  | nil => exact hi
  | cons dir dirs ih =>
    obtain ⟨hdir, hrest⟩ := List.pairwise_cons.mp hdistinct
    unfold addDirs
    split
    · rename_i tree' hput
      refine ih (fun d t t' ht hd => hfolder d t t' ht (List.mem_cons_of_mem _ hd)) hrest ?_
        (hfolder dir tree tree' hi List.mem_cons_self (hfree dir List.mem_cons_self) hput)
      intro d hd
      -- the new folder is no deeper and no higher than any other that is missing
      rw [LocalTree.find_eq_none]
      intro node hm hkey
      by_cases hk : vol.foldPath node.path = vol.foldPath dir
      · exact hdir d hd (Volume.length_eq_of_fold (hk.symm.trans hkey))
      · exact LocalTree.find_eq_none.mp (hfree d (List.mem_cons_of_mem _ hd)) node
          (LocalTree.mem_of_mem_put hput hm hk) hkey
    · exact hi

section Calls

variable {vol : Volume} {env : Weather} {codec : SidecarCodec} {finalPath : List OsName}
  {I J : LocalTree → Prop}

theorem perform_guards {α : Type} {op : Op} {path : List OsName} {R : α → Prop}
    {act : LocalTree → Except IoErrorKind (α × LocalTree)} {torn : ℕ → LocalTree → LocalTree}
    (hact : ∀ tree a tree', I tree → act tree = .ok (a, tree') → I tree' ∧ R a)
    (htorn : ∀ n tree, I tree → I (torn n tree)) :
    Withstands (fun w => I w.tree) (perform env op path act torn) R :=
  perform_triple (fun w a tree hw ha => hact w.tree a tree hw ha) (fun _ _ hw _ => hw)
    (fun w _ n hw _ => htorn n w.tree hw) (fun w n hw => htorn n w.tree hw)

/-- Calls that only look keep everything. -/
theorem look_guards {α : Type} {op : Op} {path : List OsName} {R : α → Prop}
    {act : LocalTree → Except IoErrorKind (α × LocalTree)}
    (hact : ∀ tree a tree', act tree = .ok (a, tree') → tree' = tree ∧ R a) :
    Withstands (fun w => I w.tree) (perform env op path act (fun _ tree => tree)) R := by
  refine perform_guards (fun tree a tree' hi h => ?_) (fun _ _ hi => hi)
  obtain ⟨rfl, hr⟩ := hact tree a tree' h
  exact ⟨hi, hr⟩

theorem metadata_guards {path : List OsName} :
    Withstands (fun w => I w.tree) (metadata vol env path) (fun _ => True) := by
  refine look_guards fun tree m tree' h => ⟨?_, trivial⟩
  split at h
  · exact absurd h (by simp)
  · exact absurd h (by simp)
  · exact (congrArg Prod.snd (Except.ok.inj h)).symm

/-- A removal keeps what erasing anything but a folder keeps. -/
theorem removeFile_guards {path : List OsName}
    (herase : ∀ tree, I tree → tree.NoFolder vol path → I (tree.erase vol path)) :
    Withstands (fun w => I w.tree) (removeFile vol env path) (fun _ => True) := by
  refine perform_guards (fun tree u tree' hi h => ⟨?_, trivial⟩) (fun _ _ hi => hi)
  split at h
  · exact absurd h (by simp)
  · exact absurd h (by simp)
  · rename_i obj hdir hget
    cases h
    refine herase tree hi (LocalTree.noFolder_of_get fun readable hfolder => ?_)
    exact hdir readable (Option.some.inj (hget.symm.trans hfolder))

theorem removeIfPresent_guards {path : List OsName}
    (herase : ∀ tree, I tree → tree.NoFolder vol path → I (tree.erase vol path)) :
    Withstands (fun w => I w.tree) (removeIfPresent vol env path) (fun _ => True) := by
  refine (removeFile_guards herase).attempt.bind fun r _ => ?_
  cases r with
  | ok u => exact .pure trivial
  | error kind =>
    cases kind with
    | notFound => exact .pure trivial
    | _ => exact .fail

theorem removeSidecar_guards
    (herase : ∀ x tree, I tree → x ≠ Cell.final → tree.NoFolder vol (cellPath finalPath x) →
      I (tree.erase vol (cellPath finalPath x))) :
    Withstands (fun w => I w.tree) (removeSidecar vol env finalPath) (fun _ => True) :=
  (removeIfPresent_guards fun tree hi hno => herase .tmp tree hi (by simp) hno).bind fun _ _ =>
    removeIfPresent_guards fun tree hi hno => herase .side tree hi (by simp) hno

theorem effectiveResume_guards {path : List OsName} {requested : ℕ} :
    Withstands (fun w => I w.tree) (effectiveResume vol env path requested) (fun _ => True) := by
  unfold effectiveResume
  split
  · exact .pure trivial
  · refine metadata_guards.attempt.bind fun r _ => ?_
    cases r with
    | ok m => exact .pure trivial
    | error kind =>
      cases kind with
      | notFound => exact .pure trivial
      | _ => exact .fail

theorem refuseDirectory_guards :
    Withstands (fun w => I w.tree) (refuseDirectory vol env finalPath) (fun _ => True) := by
  refine metadata_guards.attempt.bind fun r _ => ?_
  cases r with
  | ok m =>
    dsimp only
    split
    · exact .fail
    · exact .pure trivial
  | error kind =>
    cases kind with
    | notFound => exact .pure trivial
    | _ => exact .fail

/-- Creating the folders down to `dir` keeps what adding one of them keeps. -/
theorem createDirAll_guards {dir : List OsName}
    (hfolder : ∀ d tree tree', I tree → d ∈ dir.inits → tree.find vol d = none →
      tree.put vol d (.dir true) = .ok tree' → I tree') :
    Withstands (fun w => I w.tree) (createDirAll vol env dir) (fun _ => True) := by
  have hadd (tree : LocalTree) (hi : I tree) (dirs : List (List OsName))
      (hsub : dirs.Sublist (missingDirs vol tree dir)) : I (addDirs vol tree dirs) := by
    have hmissing {d : List OsName} (hd : d ∈ dirs) : d ∈ dir.inits ∧ tree.find vol d = none := by
      have hm := hsub.subset hd
      rw [missingDirs, List.mem_filter, LocalTree.get, Option.isNone_iff_eq_none,
        Option.map_eq_none_iff] at hm
      exact hm
    refine addDirs_guards (fun d t t' ht hd => hfolder d t t' ht (hmissing hd).1) ?_
      (fun d hd => (hmissing hd).2) hi
    exact (inits_lengths _).sublist (hsub.trans List.filter_sublist)
  refine perform_guards (fun tree u tree' hi h => ⟨?_, trivial⟩) (fun n tree hi => ?_)
  · split at h
    · cases h
      exact hadd tree hi _ (List.Sublist.refl _)
    · exact absurd h (by simp)
  · split
    · exact hadd tree hi _ (List.take_sublist _ _)
    · exact hi

/-- Opening a file starts with nothing owed. -/
theorem opened_guards {α : Type} {R : α → Prop} {m : Fs α}
    (h : Withstands (fun w => I w.tree) m R) :
    Withstands (fun w => I w.tree) (fun w => m { w with pending := none }) R := by
  intro w hw
  exact h { w with pending := none } hw

theorem fileLen_guards {file : File} :
    Withstands (fun w => I w.tree) (fileLen vol env file) (fun _ => True) :=
  look_guards fun _ _ _ h => ⟨(congrArg Prod.snd (Except.ok.inj h)).symm, trivial⟩

theorem seek_guards {file : File} {pos : ℕ} :
    Withstands (fun w => I w.tree) (seek env file pos) (fun file' => file'.path = file.path) := by
  refine look_guards fun tree file' tree' h => ?_
  cases h
  exact ⟨rfl, rfl⟩

theorem syncAll_guards {file : File} :
    Withstands (fun w => I w.tree) (syncAll env file) (fun _ => True) :=
  look_guards fun _ _ _ h => ⟨(congrArg Prod.snd (Except.ok.inj h)).symm, trivial⟩

theorem flush_guards {file : File} :
    Withstands (fun w => I w.tree) (flush env file) (fun _ => True) := by
  have hcall : Withstands (fun w => I w.tree) (perform env .flush file.path
      (fun tree => .ok ((), tree)) (fun _ tree => tree)) (fun _ => True) :=
    look_guards fun _ _ _ h => ⟨(congrArg Prod.snd (Except.ok.inj h)).symm, trivial⟩
  intro w hw
  have hmeets := hcall w hw
  unfold flush
  split
  · exact hw
  · exact hmeets

theorem openWrite_guards {path : List OsName} :
    Withstands (fun w => I w.tree) (openWrite vol env path) (fun file => file.path = path) := by
  refine opened_guards (look_guards fun tree file tree' h => ?_)
  split at h
  · cases h
    exact ⟨rfl, rfl⟩
  all_goals exact absurd h (by simp)

variable {size : ℕ} (g : Guarded vol finalPath size I J)
include g

theorem createWith_guards {x : Cell} (hx : x ≠ .final) {bytes : Bytes} {tree tree' : LocalTree}
    (hi : I tree) (h : createWith vol (cellPath finalPath x) bytes tree = .ok tree') : I tree' := by
  unfold createWith at h
  split at h
  · exact absurd h (by simp)
  · exact absurd h (by simp)
  · rename_i old readable hget
    refine g.file x bytes readable tree tree' hi hx (fun obj hobj => ?_) h
    rw [← Option.some.inj (hget.symm.trans hobj)]
    exact Or.inl rfl
  · rename_i hdir hspecial hfile
    refine g.file x bytes true tree tree' hi hx (fun obj hobj => ?_) h
    cases obj with
    | file bytes readable => exact absurd hobj (hfile bytes readable)
    | dir readable => exact absurd hobj (hdir readable)
    | special => exact absurd hobj hspecial
    | danglingLink => exact Or.inr rfl

theorem createFile_guards :
    Withstands (fun w => I w.tree) (createFile vol env (localPartPath finalPath))
      (fun file => file.path = localPartPath finalPath) := by
  refine opened_guards (perform_guards (fun tree file tree' hi h => ?_) (fun _ _ hi => hi))
  cases hc : createWith vol (localPartPath finalPath) [] tree with
  | error kind =>
    rw [hc] at h
    exact absurd h (by simp [Except.map])
  | ok t =>
    rw [hc] at h
    cases h
    exact ⟨createWith_guards g (x := .part) (by simp) hi hc, rfl⟩

theorem setContents_guards {file : File} {bytes : Bytes} (hfile : file.path = localPartPath finalPath)
    {tree : LocalTree} (hi : I tree) : I (setContents vol tree file bytes) := by
  unfold setContents
  rw [hfile]
  split
  · rename_i old readable hget
    split
    · rename_i tree' hput
      refine g.file .part bytes readable tree tree' hi (by simp) (fun obj hobj => ?_) hput
      rw [← Option.some.inj (hget.symm.trans hobj)]
      exact Or.inl rfl
    · exact hi
  · exact hi

theorem setLen_guards {file : File} {len : ℕ} (hfile : file.path = localPartPath finalPath) :
    Withstands (fun w => I w.tree) (setLen vol env file len) (fun _ => True) := by
  refine perform_guards (fun tree u tree' hi h => ⟨?_, trivial⟩) (fun _ _ hi => hi)
  cases h
  exact setContents_guards g hfile hi

theorem writeAll_guards {file : File} {chunk : Bytes} (hfile : file.path = localPartPath finalPath) :
    Withstands (fun w => I w.tree) (writeAll vol env file chunk)
      (fun file' => file'.path = localPartPath finalPath) := by
  have hcall : Withstands (fun w => I w.tree) (perform env .write file.path
      (fun tree => .ok ({ file with pos := file.pos + chunk.length }, landChunk vol tree file chunk))
      (fun n tree => landChunk vol tree file (chunk.take n)))
      (fun file' => file'.path = localPartPath finalPath) := by
    refine perform_guards (fun tree file' tree' hi h => ?_)
      (fun n tree hi => setContents_guards g hfile hi)
    cases h
    exact ⟨setContents_guards g hfile hi, hfile⟩
  intro w hw
  have hmeets := hcall w hw
  unfold writeAll
  split
  · exact hw
  · split
    · exact ⟨setContents_guards g hfile hw, hfile⟩
    · exact hmeets

theorem writeRecord_guards {bytes : Bytes} :
    Withstands (fun w => I w.tree) (writeFile vol env (localSidecarTmpPath finalPath) bytes)
      (fun _ => True) := by
  refine perform_guards (fun tree u tree' hi h => ⟨?_, trivial⟩) (fun n tree hi => ?_)
  · cases hc : createWith vol (localSidecarTmpPath finalPath) bytes tree with
    | error kind =>
      rw [hc] at h
      exact absurd h (by simp [Except.map])
    | ok t =>
      rw [hc] at h
      cases h
      exact createWith_guards g (x := .tmp) (by simp) hi hc
  · cases n with
    | zero => exact hi
    | succ n =>
      dsimp only
      cases hc : createWith vol (localSidecarTmpPath finalPath) (bytes.take n) tree with
      | error kind => exact hi
      | ok t => exact createWith_guards g (x := .tmp) (by simp) hi hc

theorem placeRecord_guards :
    Withstands (fun w => I w.tree)
      (rename vol env (localSidecarTmpPath finalPath) (localSidecarPath finalPath)) (fun _ => True) :=
  perform_guards (fun tree _ tree' hi h => ⟨g.record tree tree' hi (rename_act h), trivial⟩)
    (fun _ _ hi => hi)

theorem commitPart_guards :
    Triple (fun w => I w.tree ∧ PartOf vol finalPath size w.tree)
      (rename vol env (localPartPath finalPath) finalPath)
      ⟨fun _ w => J w.tree, fun _ w => I w.tree, fun w => I w.tree⟩ :=
  perform_triple (fun w _ tree hw ha => g.commit w.tree tree hw.1 hw.2 (rename_act ha))
    (fun _ _ hw _ => hw.1) (fun _ _ _ hw _ => hw.1) (fun _ _ hw => hw.1)

end Calls

section Steps

variable {vol : Volume} {env : Weather} {codec : SidecarCodec} {finalPath : List OsName}
  {size : ℕ} {I J : LocalTree → Prop} (g : Guarded vol finalPath size I J)
include g

theorem removePartial_guards :
    Withstands (fun w => I w.tree) (removePartial vol env finalPath) (fun _ => True) :=
  (removeIfPresent_guards fun tree hi hno => g.erase .part tree hi (by simp) hno).bind fun _ _ =>
    removeSidecar_guards g.erase

theorem writeSidecar_guards {sidecar : Sidecar} :
    Withstands (fun w => I w.tree) (writeSidecar vol env codec finalPath sidecar) (fun _ => True) :=
  (writeRecord_guards g).mapError.bind fun _ _ => (placeRecord_guards g).mapError

theorem openResumed_guards {resumeFrom : ℕ} :
    Withstands (fun w => I w.tree) (openResumed vol env (localPartPath finalPath) resumeFrom)
      (fun file => file.path = localPartPath finalPath) := by
  unfold openResumed
  refine openWrite_guards.mapError.bind fun file hfile => ?_
  have hholds : Withstands (fun w => I w.tree)
      (ensureStillHolds vol env file (localPartPath finalPath) resumeFrom) (fun _ => True) := by
    refine fileLen_guards.mapError.bind fun len _ => ?_
    split
    · exact .pure trivial
    · exact .fail
  refine hholds.bind fun _ _ => (setLen_guards g hfile).mapError.bind fun _ _ => ?_
  exact seek_guards.mapError.weaken fun file' hseek => hseek.trans hfile

theorem openPart_guards {resumeFrom : ℕ} :
    Withstands (fun w => I w.tree) (openPart vol env (localPartPath finalPath) resumeFrom)
      (fun file => file.path = localPartPath finalPath) := by
  unfold openPart
  split
  · exact (createFile_guards g).mapError
  · exact openResumed_guards g

theorem open_guards {sidecar : Sidecar} :
    Withstands (fun w => I w.tree) (PartWriter.open vol env finalPath sidecar)
      (PartWriter.For finalPath) := by
  unfold PartWriter.open
  refine (createDirAll_guards g.folder).mapError.bind fun _ _ =>
    effectiveResume_guards.bind fun bytes _ => ?_
  have hopen : Withstands (fun w => I w.tree)
      (do
        let file ← openPart vol env (localPartPath finalPath) bytes
        pure (⟨file, localPartPath finalPath, finalPath, { sidecar with bytes := bytes },
          decide (bytes = sidecar.bytes), bytes⟩ : PartWriter))
      (PartWriter.For finalPath) :=
    (openPart_guards g).bind fun file hfile => .pure ⟨hfile, rfl, rfl⟩
  dsimp only
  split
  · exact (removeSidecar_guards g.erase).bind fun _ _ => hopen
  · exact hopen

omit g in
theorem writerFlush_guards {writer : PartWriter} :
    Withstands (fun w => I w.tree) (writer.flush env) (fun _ => True) :=
  flush_guards.mapError.attempt.weaken fun _ _ => trivial

theorem checkpoint_guards {writer : PartWriter} (hw : writer.For finalPath) :
    Withstands (fun w => I w.tree) (writer.checkpoint vol env codec) (fun r => r.1.For finalPath) := by
  unfold PartWriter.checkpoint
  refine writerFlush_guards.bind fun flushed _ => ?_
  cases flushed with
  | error e => exact .pure hw
  | ok u =>
    rw [hw.finalPath]
    refine (writeSidecar_guards g).attempt.bind fun written _ => ?_
    cases written with
    | error e => exact .pure hw
    | ok u => exact .pure ⟨hw.file, hw.part, rfl⟩

/-- The loop over the chunks, by induction on the stream. -/
theorem copyChunks_guards {input : ByteStream} {writer : PartWriter} (hw : writer.For finalPath) :
    Withstands (fun w => I w.tree) (writer.copyChunks vol env codec input)
      (fun r => r.1.For finalPath) := by
  induction input generalizing writer with
  | nil => exact .pure hw
  | cons item input ih =>
    cases item with
    | error e => exact .pure hw
    | ok chunk =>
      refine (writeAll_guards g hw.file).mapError.attempt.bind fun r hr => ?_
      cases r with
      | error e => exact .pure hw
      | ok file =>
        have hnext : (writer.countChunk file chunk).For finalPath :=
          ⟨hr file rfl, hw.part, hw.finalPath⟩
        dsimp only
        split
        · refine (checkpoint_guards g hnext).bind fun checked hchecked => ?_
          obtain ⟨writer', outcome⟩ := checked
          cases outcome with
          | error e => exact .pure hchecked
          | ok u => exact ih hchecked
        · exact ih hnext

theorem pump_guards {input : ByteStream} {writer : PartWriter} (hw : writer.For finalPath) :
    Withstands (fun w => I w.tree) (writer.pump vol env codec input) (fun r => r.1.For finalPath) := by
  unfold PartWriter.pump
  refine (copyChunks_guards g hw).bind fun copied hcopied => ?_
  obtain ⟨writer', outcome⟩ := copied
  refine writerFlush_guards.bind fun flushed _ => ?_
  have hlanded : Withstands (fun w => I w.tree) (writer'.landed vol env) (fun _ => True) := by
    refine fileLen_guards.attempt.bind fun r _ => ?_
    cases r with
    | ok len => exact .pure trivial
    | error kind => exact .pure trivial
  exact hlanded.bind fun bytes _ => .pure ⟨hcopied.file, hcopied.part, hcopied.finalPath⟩

theorem keepPartial_guards {sidecar : Sidecar} {error : Error} :
    Triple (fun w => I w.tree) (keepPartial vol env codec finalPath sidecar error)
      ⟨fun _ _ => False, fun _ w => I w.tree, fun w => I w.tree⟩ :=
  (writeSidecar_guards g).attempt.seq (fun _ _ => Triple.fail fun _ h => h) (fun _ _ h => h)
    (fun _ h => h)

theorem discardPartial_guards {error : Error} :
    Triple (fun w => I w.tree) (discardPartial vol env finalPath error)
      ⟨fun _ _ => False, fun _ w => I w.tree, fun w => I w.tree⟩ :=
  (removePartial_guards g).attempt.seq (fun _ _ => Triple.fail fun _ h => h) (fun _ _ h => h)
    (fun _ h => h)

theorem stop_guards {writer : PartWriter} {error : Error} (hw : writer.For finalPath) :
    Triple (fun w => I w.tree) (writer.stop vol env codec error)
      ⟨fun _ _ => False, fun _ w => I w.tree, fun w => I w.tree⟩ := by
  unfold PartWriter.stop
  rw [hw.finalPath]
  split
  · exact keepPartial_guards g
  · exact discardPartial_guards g

/-- A commit that fails has not renamed the part. -/
theorem commit_guards {file : File} :
    Triple (fun w => I w.tree ∧ PartOf vol finalPath size w.tree)
      (commit vol env file (localPartPath finalPath) finalPath)
      ⟨fun _ w => J w.tree, fun _ w => I w.tree, fun w => I w.tree ∨ J w.tree⟩ := by
  have hsync : Withstands (fun w => I w.tree ∧ PartOf vol finalPath size w.tree) (syncAll env file)
      (fun _ => True) := syncAll_guards (I := fun tree => I tree ∧ PartOf vol finalPath size tree)
  unfold commit
  refine hsync.mapError.seq (fun _ _ => ?_) (fun _ _ h => h.1) (fun _ h => Or.inl h.1)
  refine (commitPart_guards g).mapError.bind (fun _ => ?_) ?_ (fun _ h => Or.inl h)
  · -- what becomes of the record no longer matters
    refine (Triple.attempt (removeSidecar_guards g.tidy)).bind (fun r => ?_) (fun _ _ h => h.elim)
      (fun _ h => Or.inr h)
    apply Triple.pure
    intro w h
    cases r with
    | ok u => exact h.1
    | error e => exact h
  · intro e w h
    obtain ⟨kind, -, h⟩ := h
    exact h

theorem finish_guards {writer : PartWriter} (hw : writer.For finalPath) :
    Triple (fun w => I w.tree ∧ PartOf vol finalPath size w.tree) (writer.finish vol env codec)
      ⟨fun _ w => J w.tree, fun _ w => I w.tree, fun w => I w.tree ∨ J w.tree⟩ := by
  unfold PartWriter.finish
  rw [hw.part, hw.finalPath]
  refine (commit_guards g).attempt.bind (fun r => ?_) (fun _ _ h => h.elim) (fun _ h => h)
  cases r with
  | ok u => exact Triple.pure fun _ h => h
  | error e =>
    exact (keepPartial_guards g).weaken (fun _ h => h)
      ⟨fun _ _ h => h.elim, fun _ _ h => h, fun _ h => Or.inl h⟩

end Steps

section Whole

variable {vol : Volume} {env : Weather} {codec : SidecarCodec} {peer : Identity} {request : WriteRequest}
  {input : ByteStream} {I J : LocalTree → Prop} {w : World}
  (g : Guarded vol request.path.toLocalPath request.expectedSize I J)

/-- The part that a whole stream has been pumped to. -/
theorem Opened.partOf {x : Writing} (hopened : Opened vol codec peer request w x) {total : Bytes} {n : ℕ}
    {s : World} (hgrow : x.Growing total none n s)
    (hsize : (x.pre ++ total).length = request.expectedSize) :
    PartOf vol request.path.toLocalPath request.expectedSize s.tree := by
  obtain ⟨side, tmp, -, hholds⟩ := hgrow
  exact ⟨x.pre ++ total, x.readable, hopened.get hholds.1 .part, hsize⟩

include g

theorem transfer_guards {x : Writing} {writer : PartWriter}
    (hopened : Opened vol codec peer request w x) (hat : x.WriterAt [] writer)
    (hw : writer.For request.path.toLocalPath) :
    Triple (fun s => I s.tree ∧ x.Growing [] none 0 s) (writer.transfer vol env codec request input)
      ⟨fun _ s => J s.tree, fun _ s => I s.tree, fun s => I s.tree ∨ J s.tree⟩ := by
  have hstop {writer' : PartWriter} (e : Error) (hw' : writer'.For request.path.toLocalPath) :
      Triple (fun s => I s.tree) (writer'.stop vol env codec e)
        ⟨fun _ s => J s.tree, fun _ s => I s.tree, fun s => I s.tree ∨ J s.tree⟩ :=
    (stop_guards g hw').weaken (fun _ h => h)
      ⟨fun _ _ h => h.elim, fun _ _ h => h, fun _ h => Or.inl h⟩
  have hkept : Triple (fun s => I s.tree ∧ x.Growing [] none 0 s) (writer.pump vol env codec input)
      ⟨fun r s => I s.tree ∧ r.1.For request.path.toLocalPath, fun _ s => I s.tree, fun s => I s.tree⟩ :=
    Triple.weaken (pump_guards g hw) (fun _ h => h.1) ⟨fun _ _ h => h, fun _ _ h => h, fun _ h => h⟩
  -- beside what the pump keeps, what it has written: the commit needs both
  have hpumped : Triple (fun s => I s.tree ∧ x.Growing [] none 0 s) (writer.pump vol env codec input)
      ⟨x.Pumped env input, fun _ _ => False, fun _ => True⟩ := by
    have hpump : Triple (x.Growing [] none 0) (writer.pump x.vol env x.codec input)
        ⟨x.Pumped env input, fun _ _ => False, x.Torn (okBytes input)⟩ := Writing.pump_triple hat
    rw [hopened.sameVol, hopened.sameCodec] at hpump
    exact hpump.weaken (fun _ h => h.2) ⟨fun _ _ h => h, fun _ _ h => h, fun _ _ => trivial⟩
  unfold PartWriter.transfer
  refine (hkept.both hpumped).bind (fun r => ?_) (fun _ _ h => h.1) (fun _ h => Or.inl h.1)
  obtain ⟨writer', outcome⟩ := r
  intro s h
  obtain ⟨⟨hi, hw'⟩, b, hcounted, hafter⟩ := h
  cases outcome with
  | error e => exact hstop e hw' s hi
  | ok u =>
    obtain ⟨-, hb, n, hgrow⟩ := hafter
    dsimp only
    by_cases hsize : writer'.sidecar.bytes = request.expectedSize
    · -- all the bytes counted are on the part
      have hbytes : (x.pre ++ okBytes input).length = request.expectedSize := by
        rw [hcounted.sidecar] at hsize
        exact hb.symm.trans hsize
      rw [PartWriter.expectLength, if_pos hsize]
      exact finish_guards g hw' s ⟨hi, hopened.partOf hgrow hbytes⟩
    · rw [PartWriter.expectLength, if_neg hsize]
      exact hstop _ hw' s hi

/-- A write that returns has made of `I` what the commit makes of it, one that fails has kept it, and
one that is killed has done either. -/
theorem write_guards (hpath : request.path.segments ≠ []) :
    Triple (fun s => I s.tree) (LocalEndpoint.write vol env codec peer request input)
      ⟨fun _ s => J s.tree, fun _ s => I s.tree, fun s => I s.tree ∨ J s.tree⟩ := by
  intro w hw
  have hprepare : Withstands (fun s => I s.tree) (LocalEndpoint.prepare vol env peer request)
      (PartWriter.For request.path.toLocalPath) :=
    refuseDirectory_guards.bind fun _ _ => open_guards g
  have hkept : Triple (fun s => s = w) (LocalEndpoint.prepare vol env peer request)
      ⟨fun writer s => I s.tree ∧ writer.For request.path.toLocalPath, fun _ s => I s.tree,
        fun s => I s.tree⟩ :=
    Triple.weaken hprepare (fun _ h => h ▸ hw) ⟨fun _ _ h => h, fun _ _ h => h, fun _ h => h⟩
  have hwhole : Triple (fun s => s = w) (LocalEndpoint.write vol env codec peer request input)
      ⟨fun _ s => J s.tree, fun _ s => I s.tree, fun s => I s.tree ∨ J s.tree⟩ := by
    refine (hkept.both (prepare_triple codec hpath)).bind (fun writer => ?_) (fun _ _ h => h.1)
      (fun _ h => Or.inl h.1)
    intro s h
    obtain ⟨⟨hi, hfor⟩, x, hopened, hat, hgrow⟩ := h
    exact transfer_guards g hopened hat hfor s ⟨hi, hgrow⟩
  exact hwhole w rfl

end Whole

end MtpxCore
