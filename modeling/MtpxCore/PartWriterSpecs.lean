import MtpxCore.PartWriterModel
import MtpxCore.TransferCalls

/-! One specification for each step of a write, over the four cells of its names. Every
specification also says what is on disk after an error and after a kill. -/
namespace MtpxCore

open CrashHoare

/-- The four names are different, and as long as the final path. -/
structure Nameable (vol : Volume) (finalPath : List OsName) : Prop where
  injective : Function.Injective (cellKey vol finalPath)
  length : ∀ x, (cellKey vol finalPath x).length = finalPath.length
  nonempty : finalPath ≠ []

theorem toLocalPath_concat {path : RelPath} (h : path.segments ≠ []) :
    ∃ dir name, path.toLocalPath = dir ++ [.utf8 name] := by
  obtain ⟨dir, name, hseg⟩ := (List.eq_nil_or_concat path.segments).resolve_left h
  refine ⟨dir.map OsName.utf8, name, ?_⟩
  rw [RelPath.toLocalPath, hseg, List.concat_eq_append, List.map_append]
  rfl

theorem nameable (vol : Volume) {path : RelPath} (h : path.segments ≠ []) :
    Nameable vol path.toLocalPath := by
  obtain ⟨dir, name, hpath⟩ := toLocalPath_concat h
  rw [hpath]
  refine ⟨cellKey_injective vol _ name, fun x => ?_, by simp⟩
  rw [cellKey_length, List.length_append, List.length_singleton]

/-- The last call was a removal that left nothing under `path`. -/
def Removed (path : List OsName) (w : World) : Prop :=
  ∃ failure, (failure = none ∨ failure = some .notFound) ∧
    w.trace.head? = some ⟨.remove, path, failure⟩

/-- The last call failed. -/
def JustFailed (w : World) : Prop :=
  ∃ op path kind, kind ≠ .notFound ∧ w.trace.head? = some ⟨op, path, some kind⟩

/-- The last call was the rename that puts the record in place. -/
def SidecarWritten (finalPath : List OsName) (w : World) : Prop :=
  w.trace.head? =
    some ⟨.rename (localSidecarTmpPath finalPath), localSidecarPath finalPath, none⟩

/-- How much of a part a stat reports; a link that leads nowhere counts as none. -/
def statLen (vol : Volume) : Option Obj → ℕ
  | none => 0
  | some .danglingLink => 0
  | some obj => (metadataOf vol obj).len

/-- Where a write that was to resume at `requested` starts. -/
def resumePoint (vol : Volume) (part : Option Obj) (requested : ℕ) : ℕ :=
  if requested ≤ statLen vol part then requested else 0

section Records

variable {vol : Volume} {env : Weather} {codec : SidecarCodec} {finalPath : List OsName} {d : Disk}
  {f p s t : Option Obj} {pending : Option IoErrorKind} {n : ℕ}
  (hk : Function.Injective (cellKey vol finalPath))
include hk

theorem removeIfPresent_triple {c : Cells} {x : Cell} : Triple (Holds vol finalPath d c pending n)
    (removeIfPresent vol env (cellPath finalPath x))
    ⟨fun _ w => Holds vol finalPath d (Function.update c x none) pending n w ∧
        Removed (cellPath finalPath x) w,
      fun _ w => Holds vol finalPath d c pending n w ∧ JustFailed w, OnDisk vol finalPath d c⟩ := by
  refine (removeFile_triple hk).attempt.bind ?_ (fun _ _ h => h.elim) (fun _ h => h)
  intro r
  cases r with
  | ok u =>
    apply Triple.pure
    intro w h
    exact ⟨h.1, none, Or.inl rfl, h.2⟩
  | error kind =>
    -- what is not there counts as removed
    by_cases hkind : kind = .notFound
    · subst hkind
      apply Triple.pure
      intro w h
      obtain ⟨hw, hnone, htrace⟩ := h
      refine ⟨?_, some .notFound, Or.inr rfl, htrace⟩
      rw [← hnone rfl, Function.update_eq_self]
      exact hw
    · have hfail : Triple (fun w => Holds vol finalPath d c pending n w ∧ (kind = .notFound → c x = none) ∧
          w.trace.head? = some ⟨.remove, cellPath finalPath x, some kind⟩)
          (CrashM.fail (localIo "remove" (cellPath finalPath x) kind) : Local Unit)
          ⟨fun _ w => Holds vol finalPath d (Function.update c x none) pending n w ∧
            Removed (cellPath finalPath x) w,
          fun _ w => Holds vol finalPath d c pending n w ∧ JustFailed w,
          OnDisk vol finalPath d c⟩ := by
        apply Triple.fail
        intro w h
        exact ⟨h.1, _, _, kind, hkind, h.2.2⟩
      cases kind with
      | notFound => exact absurd rfl hkind
      | _ => exact hfail

theorem removeSidecar_triple : Triple (Holds vol finalPath d (Cells.of f p s t) pending n)
    (removeSidecar vol env finalPath)
    ⟨fun _ w => Holds vol finalPath d (Cells.of f p none none) pending n w ∧
        Removed (localSidecarPath finalPath) w,
      fun _ w => (∃ t', Holds vol finalPath d (Cells.of f p s t') pending n w) ∧ JustFailed w,
      fun w => ∃ t', OnDisk vol finalPath d (Cells.of f p s t') w⟩ := by
  refine (removeIfPresent_triple hk (x := .tmp)).bind ?_ ?_ ?_
  · intro u
    refine (removeIfPresent_triple hk (x := .side)).weaken (fun w h => h.1) ⟨?_, ?_, ?_⟩
    · intro u w h
      rw [Cells.update_tmp, Cells.update_side] at h
      exact h
    · intro e w h
      rw [Cells.update_tmp] at h
      exact ⟨⟨_, h.1⟩, h.2⟩
    · intro w h
      rw [Cells.update_tmp] at h
      exact ⟨_, h⟩
  · intro e w h
    exact ⟨⟨_, h.1⟩, h.2⟩
  · intro w h
    exact ⟨_, h⟩

theorem removePartial_triple : Triple (Holds vol finalPath d (Cells.of f p s t) pending n)
    (removePartial vol env finalPath)
    ⟨fun _ w => Holds vol finalPath d (Cells.of f none none none) pending n w ∧
        Removed (localSidecarPath finalPath) w,
      fun _ w => (∃ p' t', (p' = p ∨ p' = none) ∧
        Holds vol finalPath d (Cells.of f p' s t') pending n w) ∧ JustFailed w,
      fun w => ∃ p' t', (p' = p ∨ p' = none) ∧ OnDisk vol finalPath d (Cells.of f p' s t') w⟩ := by
  refine (removeIfPresent_triple hk (x := .part)).bind ?_ ?_ ?_
  · intro u
    refine (removeSidecar_triple hk (p := none) (s := s) (t := t)).weaken (fun w h => ?_)
      ⟨fun _ _ h => h, ?_, ?_⟩
    · rw [← Cells.update_part]
      exact h.1
    · intro e w h
      obtain ⟨⟨t', ht⟩, hj⟩ := h
      exact ⟨⟨none, t', Or.inr rfl, ht⟩, hj⟩
    · intro w h
      obtain ⟨t', ht⟩ := h
      exact ⟨none, t', Or.inr rfl, ht⟩
  · intro e w h
    exact ⟨⟨p, t, Or.inl rfl, h.1⟩, h.2⟩
  · intro w h
    exact ⟨p, t, Or.inl rfl, h⟩

/-- The record is replaced whole or not at all, and no removal is the last thing done. -/
theorem writeSidecar_triple {sidecar : Sidecar} :
    Triple (Holds vol finalPath d (Cells.of f p s t) pending n)
    (writeSidecar vol env codec finalPath sidecar)
    ⟨fun _ w => (∃ readable, Holds vol finalPath d
        (Cells.of f p (some (.file (codec.encode sidecar) readable)) none) pending n w) ∧
        ¬Removed (localSidecarPath finalPath) w,
      fun _ w => (∃ t', Holds vol finalPath d (Cells.of f p s t') pending n w) ∧
        ¬SidecarWritten finalPath w ∧ ¬Removed (localSidecarPath finalPath) w,
      fun w => ∃ t', OnDisk vol finalPath d (Cells.of f p s t') w⟩ := by
  -- its last call is never a removal
  have hlast {w : World} {op : Op} {path : List OsName} {failure : Option IoErrorKind}
      (h : w.trace.head? = some ⟨op, path, failure⟩) (hop : op ≠ .remove) :
      ¬Removed (localSidecarPath finalPath) w := by
    rintro ⟨e, -, he⟩
    cases h.symm.trans he
    exact hop rfl
  have hfailed {w : World} {op : Op} {path : List OsName} {kind : IoErrorKind}
      (h : w.trace.head? = some ⟨op, path, some kind⟩) : ¬SidecarWritten finalPath w := by
    intro hwritten
    exact absurd (h.symm.trans hwritten) (by simp)
  refine (writeFile_triple hk (x := .tmp)).mapError.bind ?_ ?_ ?_
  · intro u
    apply Triple.exists
    intro readable
    rw [Cells.update_tmp]
    refine (rename_triple hk (x := .tmp) (y := .side)).mapError.weaken (fun _ h => h) ⟨?_, ?_, ?_⟩
    · intro u w h
      obtain ⟨⟨obj, hobj, hw⟩, htrace⟩ := h
      cases hobj
      rw [Cells.update_tmp, Cells.update_side] at hw
      exact ⟨⟨readable, hw⟩, hlast htrace (by simp)⟩
    · intro e w h
      obtain ⟨kind, -, hw, htrace⟩ := h
      exact ⟨⟨_, hw⟩, hfailed htrace, hlast htrace (by simp)⟩
    · intro w h
      exact ⟨_, h⟩
  · intro e w h
    obtain ⟨kind, -, ⟨o, hw⟩, htrace⟩ := h
    rw [Cells.update_tmp] at hw
    exact ⟨⟨_, hw⟩, hfailed htrace, hlast htrace (by simp)⟩
  · intro w h
    obtain ⟨o, hw⟩ := h
    rw [Cells.update_tmp] at hw
    exact ⟨_, hw⟩

end Records

section Opening

variable {vol : Volume} {env : Weather} {finalPath : List OsName} {d : Disk}
  {f p s t : Option Obj} {c : Cells} {pending : Option IoErrorKind} {n : ℕ}

/-- A part as `open_part` leaves it: its first `r` bytes. -/
def Cut (p : Option Obj) (r : ℕ) (p' : Option Obj) : Prop :=
  ∃ readable, p' = some (.file ((bytesOf p).take r) readable)

theorem refuseDirectory_triple (hk : Function.Injective (cellKey vol finalPath)) :
    Triple (Holds vol finalPath d c pending n) (refuseDirectory vol env finalPath)
      ⟨fun _ w => Holds vol finalPath d c pending n w ∧ (c .final).all (fun obj => !obj.isDir) = true,
        fun _ w => Holds vol finalPath d c pending n w, OnDisk vol finalPath d c⟩ := by
  refine (metadata_triple hk (x := .final)).attempt.bind ?_ (fun _ _ h => h.elim) (fun _ h => h)
  intro r
  cases r with
  | ok m =>
    dsimp only
    split
    · exact Triple.fail (fun w h => h.1)
    · rename_i hdir
      apply Triple.pure
      intro w h
      obtain ⟨hw, obj, hobj, -, rfl⟩ := h
      refine ⟨hw, ?_⟩
      rw [hobj, Option.all_some]
      cases obj with
      | dir readable => exact absurd rfl hdir
      | file bytes readable => rfl
      | special => rfl
      | danglingLink => rfl
  | error kind =>
    cases kind with
    | notFound =>
      apply Triple.pure
      intro w h
      refine ⟨h.1, ?_⟩
      -- a link to nothing is not found either
      rcases h.2 rfl with hnone | hlink
      · rw [hnone]
        rfl
      · rw [hlink]
        rfl
    | _ => exact Triple.fail (fun w h => h.1)

/-- Creating the parent leaves the four names alone, which lie deeper. -/
theorem ensureParent_triple (hn : Nameable vol finalPath) :
    Triple (Holds vol finalPath d c pending n) (ensureParent vol env finalPath)
      ⟨fun _ w => ∃ d', Grown finalPath.length d d' ∧ Holds vol finalPath d' c pending n w,
        fun _ w => ∃ d', Grown finalPath.length d d' ∧ Holds vol finalPath d' c pending n w,
        fun w => ∃ d', Grown finalPath.length d d' ∧ OnDisk vol finalPath d' c w⟩ := by
  have hshort : finalPath.dropLast.length < finalPath.length := by
    rw [List.length_dropLast]
    have hpos := List.length_pos_iff.mpr hn.nonempty
    omega
  have hsplit (w : World)
      (h : Grown finalPath.dropLast.length (Function.extend (cellKey vol finalPath) c d)
        (w.tree.disk vol)) :
      ∃ d', Grown finalPath.length d d' ∧ OnDisk vol finalPath d' c w := by
    -- outside the cells the new disk, on them whatever the old one had
    refine ⟨Function.extend (cellKey vol finalPath) (fun x => d (cellKey vol finalPath x))
      (w.tree.disk vol), ?_, ?_⟩
    · intro k
      by_cases hk : ∃ x, cellKey vol finalPath x = k
      · obtain ⟨x, rfl⟩ := hk
        exact Or.inl (hn.injective.extend_apply _ _ x)
      · rw [Function.extend_apply' _ _ _ hk]
        have hgrown := h k
        rw [Function.extend_apply' _ _ _ hk] at hgrown
        rcases hgrown with hsame | ⟨hnone, hdir, hl⟩
        · exact Or.inl hsame
        · exact Or.inr ⟨hnone, hdir, by omega⟩
    · funext k
      by_cases hk : ∃ x, cellKey vol finalPath x = k
      · obtain ⟨x, rfl⟩ := hk
        rw [hn.injective.extend_apply]
        have hgrown := h (cellKey vol finalPath x)
        rw [hn.injective.extend_apply] at hgrown
        rcases hgrown with hsame | ⟨-, -, hl⟩
        · exact hsame
        · have hlen := hn.length x
          omega
      · rw [Function.extend_apply' _ _ _ hk, Function.extend_apply' _ _ _ hk]
  refine (createDirAll_triple (R := fun w => w.pending = pending ∧ n ≤ w.trace.length) ?_).mapError.weaken
    (fun w h => h) ⟨?_, ?_, fun w h => hsplit w h⟩
  · intro w tree op path failure h
    refine ⟨h.1, h.2.trans ?_⟩
    simp [World.logged]
  · intro u w h
    obtain ⟨d', hg, hd⟩ := hsplit w h.1
    exact ⟨d', hg, hd, h.2⟩
  · intro e w h
    obtain ⟨kind, -, h⟩ := h
    obtain ⟨d', hg, hd⟩ := hsplit w h.1
    exact ⟨d', hg, hd, h.2⟩

theorem effectiveResume_triple (hk : Function.Injective (cellKey vol finalPath)) {requested : ℕ} :
    Triple (Holds vol finalPath d c pending n)
      (effectiveResume vol env (localPartPath finalPath) requested)
      ⟨fun r w => Holds vol finalPath d c pending n w ∧ r = resumePoint vol (c .part) requested,
        fun _ w => Holds vol finalPath d c pending n w, OnDisk vol finalPath d c⟩ := by
  unfold effectiveResume
  split
  · -- from the start the part is not even looked at
    rename_i hzero
    apply Triple.pure
    intro w hw
    refine ⟨hw, ?_⟩
    rw [hzero, resumePoint, if_pos (Nat.zero_le _)]
  · refine (metadata_triple hk (x := .part)).attempt.bind ?_ (fun _ _ h => h.elim) (fun _ h => h)
    intro r
    cases r with
    | ok m =>
      apply Triple.pure
      intro w h
      obtain ⟨hw, obj, hobj, hlink, rfl⟩ := h
      refine ⟨hw, ?_⟩
      rw [resumePoint, hobj]
      cases obj with
      | danglingLink => exact absurd rfl hlink
      | file bytes readable => rfl
      | dir readable => rfl
      | special => rfl
    | error kind =>
      cases kind with
      | notFound =>
        apply Triple.pure
        intro w h
        refine ⟨h.1, ?_⟩
        rcases h.2 rfl with hnone | hlink
        · rw [resumePoint, hnone, statLen]
        · rw [resumePoint, hlink, statLen]
      | _ => exact Triple.fail (fun w h => h.1)

theorem ensureStillHolds_triple (hk : Function.Injective (cellKey vol finalPath)) {r : ℕ}
    {bytes : Bytes} {readable : Bool} :
    Triple (Holds vol finalPath d (Cells.of f (some (.file bytes readable)) s t) none n)
      (ensureStillHolds vol env ⟨cellPath finalPath .part, 0⟩ (localPartPath finalPath) r)
      ⟨fun _ w => Holds vol finalPath d (Cells.of f (some (.file bytes readable)) s t) none n w ∧
          r ≤ bytes.length,
        fun _ w => Holds vol finalPath d (Cells.of f (some (.file bytes readable)) s t) none n w,
        OnDisk vol finalPath d (Cells.of f (some (.file bytes readable)) s t)⟩ := by
  unfold ensureStillHolds
  refine (fileLen_triple hk (x := .part) rfl).mapError.bind ?_ ?_ (fun _ h => h)
  · intro len
    split
    · rename_i hle
      exact Triple.pure (fun w h => ⟨h.1, h.2 ▸ hle⟩)
    · exact Triple.fail (fun w h => h.1)
  · intro e w h
    obtain ⟨kind, -, h, -⟩ := h
    exact h

/-- An existing part is cut only once it is known to be a file that is long enough. -/
theorem openResumed_triple (hk : Function.Injective (cellKey vol finalPath)) {r : ℕ} :
    Triple (Holds vol finalPath d (Cells.of f p s t) pending n)
      (openResumed vol env (localPartPath finalPath) r)
      ⟨fun file w => file = ⟨localPartPath finalPath, r⟩ ∧ r ≤ (bytesOf p).length ∧
          ∃ p', Cut p r p' ∧ Holds vol finalPath d (Cells.of f p' s t) none n w,
        fun _ w => ∃ p', (p' = p ∨ Cut p r p') ∧ Holds vol finalPath d (Cells.of f p' s t) none n w,
        fun w => ∃ p', (p' = p ∨ Cut p r p') ∧ OnDisk vol finalPath d (Cells.of f p' s t) w⟩ := by
  unfold openResumed
  refine (openWrite_triple hk (x := .part)).mapError.bind ?_ ?_ (fun w h => ⟨p, Or.inl rfl, h⟩)
  · intro file
    -- from here on the part is known to be a file
    apply Triple.given
    rintro ⟨rfl, bytes, readable, hp⟩
    change p = _ at hp
    subst hp
    have hcut : Cut (some (.file bytes readable)) r (some (.file (bytes.take r) readable)) :=
      ⟨readable, rfl⟩
    refine (ensureStillHolds_triple hk).bind (fun u => ?_) (fun e w h => ⟨_, Or.inl rfl, h⟩)
      (fun w h => ⟨_, Or.inl rfl, h⟩)
    apply Triple.given
    intro hle
    refine (setLen_triple hk (x := .part) rfl hle).mapError.bind (fun u => ?_) ?_
      (fun w h => ⟨_, Or.inl rfl, h⟩)
    · rw [Cells.update_part]
      refine seek_triple.mapError.weaken (fun _ h => h) ⟨?_, ?_, ?_⟩
      · intro file w h
        exact ⟨h.2, hle, _, hcut, h.1⟩
      · intro e w h
        obtain ⟨kind, -, h⟩ := h
        exact ⟨_, Or.inr hcut, h⟩
      · intro w h
        exact ⟨_, Or.inr hcut, h⟩
    · intro e w h
      obtain ⟨kind, -, h⟩ := h
      exact ⟨_, Or.inl rfl, h⟩
  · intro e w h
    obtain ⟨kind, -, h⟩ := h
    exact ⟨p, Or.inl rfl, h⟩

theorem openPart_triple (hk : Function.Injective (cellKey vol finalPath)) {r : ℕ} :
    Triple (Holds vol finalPath d (Cells.of f p s t) pending n)
      (openPart vol env (localPartPath finalPath) r)
      ⟨fun file w => file = ⟨localPartPath finalPath, r⟩ ∧ r ≤ (bytesOf p).length ∧
          ∃ p', Cut p r p' ∧ Holds vol finalPath d (Cells.of f p' s t) none n w,
        fun _ w => ∃ p', (p' = p ∨ Cut p r p') ∧ Holds vol finalPath d (Cells.of f p' s t) none n w,
        fun w => ∃ p', (p' = p ∨ Cut p r p') ∧ OnDisk vol finalPath d (Cells.of f p' s t) w⟩ := by
  unfold openPart
  split
  · rename_i hzero
    subst hzero
    refine (createFile_triple hk (x := .part)).mapError.weaken (fun _ h => h) ⟨?_, ?_, ?_⟩
    · intro file w h
      obtain ⟨hfile, readable, hw⟩ := h
      rw [Cells.update_part] at hw
      exact ⟨hfile, Nat.zero_le _, _, ⟨readable, by rw [List.take_zero]⟩, hw⟩
    · intro e w h
      obtain ⟨kind, -, hw⟩ := h
      exact ⟨p, Or.inl rfl, hw⟩
    · intro w h
      exact ⟨p, Or.inl rfl, h⟩
  · exact openResumed_triple hk

/-- What a writer is when its part has been opened, and what is on disk then: folders may
have been added, the part is cut to the bytes to keep, and where the offset was reset the
record is gone. -/
structure Ready (vol : Volume) (finalPath : List OsName) (d : Disk) (f p s t : Option Obj)
    (sidecar : Sidecar) (writer : PartWriter) (w : World) where
  grown : Disk
  part : Option Obj
  side : Option Obj
  tmp : Option Obj
  grows : Grown finalPath.length d grown
  cut : Cut p (resumePoint vol p sidecar.bytes) part
  enough : resumePoint vol p sidecar.bytes ≤ (bytesOf p).length
  holds : Holds vol finalPath grown (Cells.of f part side tmp) none 0 w
  eq : writer = ⟨⟨localPartPath finalPath, resumePoint vol p sidecar.bytes⟩, localPartPath finalPath,
    finalPath, { sidecar with bytes := resumePoint vol p sidecar.bytes },
    decide (resumePoint vol p sidecar.bytes = sidecar.bytes), resumePoint vol p sidecar.bytes⟩
  honoured : resumePoint vol p sidecar.bytes = sidecar.bytes → side = s ∧ tmp = t
  reset : resumePoint vol p sidecar.bytes ≠ sidecar.bytes → side = none ∧ tmp = none

/-- What is on disk when the part could not be opened. -/
def Unopened (vol : Volume) (finalPath : List OsName) (d : Disk) (f p s : Option Obj) (r : ℕ)
    (w : World) : Prop :=
  ∃ d' p' s' t', Grown finalPath.length d d' ∧ (p' = p ∨ Cut p r p') ∧ (s' = s ∨ s' = none) ∧
    OnDisk vol finalPath d' (Cells.of f p' s' t') w

theorem open_triple (hn : Nameable vol finalPath) {sidecar : Sidecar} :
    Triple (Holds vol finalPath d (Cells.of f p s t) pending 0)
      (PartWriter.open vol env finalPath sidecar)
      ⟨fun writer w => Nonempty (Ready vol finalPath d f p s t sidecar writer w),
        fun _ w => Unopened vol finalPath d f p s (resumePoint vol p sidecar.bytes) w,
        fun w => Unopened vol finalPath d f p s (resumePoint vol p sidecar.bytes) w⟩ := by
  have hk := hn.injective
  unfold PartWriter.open
  refine (ensureParent_triple hn).bind (fun u => ?_) ?_ ?_
  · apply Triple.exists
    intro d'
    have hunopened {p' s' t' : Option Obj} {w : World} (hg : Grown finalPath.length d d')
        (hp : p' = p ∨ Cut p (resumePoint vol p sidecar.bytes) p') (hs : s' = s ∨ s' = none)
        (h : OnDisk vol finalPath d' (Cells.of f p' s' t') w) :
        Unopened vol finalPath d f p s (resumePoint vol p sidecar.bytes) w :=
      ⟨d', p', s', t', hg, hp, hs, h⟩
    refine Triple.weaken (P := fun w => Holds vol finalPath d' (Cells.of f p s t) pending 0 w ∧
      Grown finalPath.length d d') (Triple.given fun hg => ?_) (fun w h => ⟨h.2, h.1⟩)
      ⟨fun _ _ h => h, fun _ _ h => h, fun _ h => h⟩
    refine (effectiveResume_triple hk).bind (fun r => ?_)
      (fun e w h => hunopened hg (Or.inl rfl) (Or.inl rfl) h.1)
      (fun w h => hunopened hg (Or.inl rfl) (Or.inl rfl) h)
    apply Triple.given
    intro hr
    change r = resumePoint vol p sidecar.bytes at hr
    -- the part is opened on whatever record is left
    have hopen (s' t' : Option Obj) (hs : s' = s ∨ s' = none)
        (hhon : r = sidecar.bytes → s' = s ∧ t' = t) (hres : r ≠ sidecar.bytes → s' = none ∧ t' = none) :
        Triple (Holds vol finalPath d' (Cells.of f p s' t') pending 0)
          (do
            let file ← openPart vol env (localPartPath finalPath) r
            pure (⟨file, localPartPath finalPath, finalPath, { sidecar with bytes := r },
              decide (r = sidecar.bytes), r⟩ : PartWriter))
          ⟨fun writer w => Nonempty (Ready vol finalPath d f p s t sidecar writer w),
            fun _ w => Unopened vol finalPath d f p s (resumePoint vol p sidecar.bytes) w,
            fun w => Unopened vol finalPath d f p s (resumePoint vol p sidecar.bytes) w⟩ := by
      subst hr
      refine (openPart_triple hk).bind (fun file => ?_) ?_ ?_
      · apply Triple.pure
        intro w h
        obtain ⟨rfl, hle, p', hcut, hw⟩ := h
        exact ⟨⟨d', p', s', t', hg, hcut, hle, hw, rfl, hhon, hres⟩⟩
      · intro e w h
        obtain ⟨p', hp, hw⟩ := h
        exact hunopened hg hp hs hw.1
      · intro w h
        obtain ⟨p', hp, hw⟩ := h
        exact hunopened hg hp hs hw
    dsimp only
    by_cases hhon : r = sidecar.bytes
    · rw [decide_eq_true hhon]
      have hgo := hopen s t (Or.inl rfl) (fun _ => ⟨rfl, rfl⟩) (fun hne => absurd hhon hne)
      rw [decide_eq_true hhon] at hgo
      exact hgo
    · rw [decide_eq_false hhon]
      refine (removeSidecar_triple hk).bind (fun u => ?_)
        (fun e w h => ?_) (fun w h => ?_)
      · have hgo := hopen none none (Or.inr rfl) (fun h => absurd h hhon) (fun _ => ⟨rfl, rfl⟩)
        rw [decide_eq_false hhon] at hgo
        exact hgo.weaken (fun w h => h.1) ⟨fun _ _ h => h, fun _ _ h => h, fun _ h => h⟩
      · obtain ⟨⟨t', ht⟩, -⟩ := h
        exact hunopened hg (Or.inl rfl) (Or.inl rfl) ht.1
      · obtain ⟨t', ht⟩ := h
        exact hunopened hg (Or.inl rfl) (Or.inl rfl) ht
  · intro e w h
    obtain ⟨d', hg, hw⟩ := h
    exact ⟨d', p, s, t, hg, Or.inl rfl, Or.inl rfl, hw.1⟩
  · intro w h
    obtain ⟨d', hg, hw⟩ := h
    exact ⟨d', p, s, t, hg, Or.inl rfl, Or.inl rfl, hw⟩

end Opening

end MtpxCore
