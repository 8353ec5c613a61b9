import MtpxCore.PartWriterEndings
import MtpxCore.SidecarJson

/-! A whole write: the final name changes at once or not at all, and what an error leaves is
either a part with a true record or nothing. -/
namespace MtpxCore

open CrashHoare

/-- The bytes a write that is to resume at `requested` builds on. -/
def keptFrom (part : Option Obj) (requested : ℕ) : ℕ :=
  if requested ≤ (bytesOf part).length then requested else 0

theorem statLen_eq {vol : Volume} {part : Option Obj} (h : part.all fun obj => !obj.isDir) :
    statLen vol part = (bytesOf part).length := by
  cases part with
  | none => rfl
  | some obj =>
    cases obj with
    | dir readable => exact absurd h (by simp [Obj.isDir])
    | file bytes readable => rfl
    | danglingLink => rfl
    | special => rfl

theorem length_le_statLen (vol : Volume) (part : Option Obj) :
    (bytesOf part).length ≤ statLen vol part := by
  by_cases h : part.all fun obj => !obj.isDir
  · exact (statLen_eq h).ge
  · cases part with
    | none => exact absurd rfl h
    | some obj =>
      cases obj with
      | dir readable => exact Nat.zero_le _
      | file bytes readable => exact le_rfl
      | danglingLink => exact le_rfl
      | special => exact le_rfl

/-- Where the part could be opened, it was as long as its length said. -/
theorem resumePoint_eq {vol : Volume} {part : Option Obj} {requested : ℕ}
    (h : resumePoint vol part requested ≤ (bytesOf part).length) :
    resumePoint vol part requested = keptFrom part requested := by
  rw [resumePoint] at h ⊢
  rw [keptFrom]
  by_cases hle : requested ≤ (bytesOf part).length
  · rw [if_pos hle, if_pos (hle.trans (length_le_statLen vol part))]
  · rw [if_neg hle]
    split at h
    · exact absurd h hle
    · rename_i hstat
      exact if_neg hstat

/-- The write whose part has been opened: what it started from and what it will record. -/
structure Opened (vol : Volume) (codec : SidecarCodec) (peer : Identity) (request : WriteRequest)
    (w : World) (x : Writing) : Prop where
  sameVol : x.vol = vol
  sameCodec : x.codec = codec
  finalPath : x.finalPath = request.path.toLocalPath
  disk : Grown request.path.toLocalPath.length (w.tree.disk vol) x.disk
  final : x.final = w.tree.get vol request.path.toLocalPath
  notDir : (w.tree.get vol request.path.toLocalPath).all (fun obj => !obj.isDir) = true
  pre : x.pre = (bytesOf (w.tree.get vol (localPartPath request.path.toLocalPath))).take
    (keptFrom (w.tree.get vol (localPartPath request.path.toLocalPath)) request.resumeFrom)
  sidecar : x.sidecar = sidecarFor peer request
  resumable : x.resumable = decide
    (keptFrom (w.tree.get vol (localPartPath request.path.toLocalPath)) request.resumeFrom =
      request.resumeFrom)
  honoured : x.resumable = true →
    x.side = w.tree.get vol (localSidecarPath request.path.toLocalPath)
  reset : x.resumable = false → x.side = none

section Write

variable {vol : Volume} {env : Weather} {codec : SidecarCodec} {peer : Identity}
  {request : WriteRequest} {input : ByteStream} {w : World}

/-- What is on disk if the part of a write could not be opened. -/
def NeverOpened (vol : Volume) (request : WriteRequest) (before after : World) : Prop :=
  Unopened vol request.path.toLocalPath (before.tree.disk vol)
    (before.tree.get vol request.path.toLocalPath)
    (before.tree.get vol (localPartPath request.path.toLocalPath))
    (before.tree.get vol (localSidecarPath request.path.toLocalPath))
    (resumePoint vol (before.tree.get vol (localPartPath request.path.toLocalPath))
      request.resumeFrom) after

theorem onDisk_start {s : World} (hs : s = w) (finalPath : List OsName) (hk : Function.Injective (cellKey vol finalPath)) :
    Holds vol finalPath (w.tree.disk vol) (Cells.of (w.tree.get vol finalPath)
      (w.tree.get vol (localPartPath finalPath)) (w.tree.get vol (localSidecarPath finalPath))
      (w.tree.get vol (localSidecarTmpPath finalPath))) w.pending 0 s := by
  subst hs
  refine ⟨?_, rfl, Nat.zero_le _⟩
  funext key
  by_cases hkey : ∃ x, cellKey vol finalPath x = key
  · obtain ⟨x, rfl⟩ := hkey
    rw [hk.extend_apply]
    cases x <;> rfl
  · rw [Function.extend_apply' _ _ _ hkey]

/-- The part is open, nothing has been handed to it, and the record is the one that was found. -/
structure Begun (x : Writing) (writer : PartWriter) (s : World) : Prop where
  checkpointed : writer.checkpointed = x.pre.length
  state : x.WriterAt [] writer
  holds : ∃ tmp, Holds x.vol x.finalPath x.disk (x.cells [] x.side tmp) none 0 s

theorem Begun.growing {x : Writing} {writer : PartWriter} {s : World} (h : Begun x writer s) :
    x.Growing [] none 0 s := by
  obtain ⟨tmp, hholds⟩ := h.holds
  exact ⟨x.side, tmp, Or.inl rfl, hholds⟩

variable (codec) in
/-- A writer that stands ready at the kept bytes is one that begins its writing. -/
theorem Ready.begun (hinjective : Function.Injective (cellKey vol request.path.toLocalPath))
    {writer : PartWriter} {s : World}
    (hnotDir : (w.tree.get vol request.path.toLocalPath).all (fun obj => !obj.isDir) = true)
    (ready : Ready vol request.path.toLocalPath (w.tree.disk vol)
      (w.tree.get vol request.path.toLocalPath)
      (w.tree.get vol (localPartPath request.path.toLocalPath))
      (w.tree.get vol (localSidecarPath request.path.toLocalPath))
      (w.tree.get vol (localSidecarTmpPath request.path.toLocalPath))
      (sidecarFor peer request) writer s) :
    ∃ x, Opened vol codec peer request w x ∧ Begun x writer s := by
  have hpoint : resumePoint vol (w.tree.get vol (localPartPath request.path.toLocalPath))
      (sidecarFor peer request).bytes =
        keptFrom (w.tree.get vol (localPartPath request.path.toLocalPath)) request.resumeFrom :=
    resumePoint_eq ready.enough
  have hlen := ready.enough
  have hcut := ready.cut
  have heq := ready.eq
  have hhon := ready.honoured
  have hreset := ready.reset
  rw [hpoint] at hlen hcut heq hhon hreset
  obtain ⟨readable, hpart⟩ := hcut
  have hholds := ready.holds
  rw [hpart] at hholds
  -- the offset is honoured exactly when the part still holds the bytes the request resumes from
  let x : Writing :=
    { vol := vol, codec := codec, finalPath := request.path.toLocalPath
      injective := hinjective, disk := ready.grown
      final := w.tree.get vol request.path.toLocalPath
      pre := (bytesOf (w.tree.get vol (localPartPath request.path.toLocalPath))).take
        (keptFrom (w.tree.get vol (localPartPath request.path.toLocalPath)) request.resumeFrom)
      readable := readable, sidecar := sidecarFor peer request
      resumable := decide
        (keptFrom (w.tree.get vol (localPartPath request.path.toLocalPath)) request.resumeFrom =
          request.resumeFrom)
      side := ready.side }
  have hpre : (x.pre ++ ([] : Bytes)).length =
      keptFrom (w.tree.get vol (localPartPath request.path.toLocalPath)) request.resumeFrom := by
    rw [List.append_nil]
    exact List.length_take_of_le hlen
  refine ⟨x, ⟨rfl, rfl, rfl, ready.grows, rfl, hnotDir, rfl, rfl, rfl, ?_, ?_⟩,
    ⟨?_, ⟨?_, ?_, ?_, ?_, ?_⟩, ready.tmp, ?_⟩⟩
  · intro h
    exact (hhon (of_decide_eq_true h)).1
  · intro h
    exact (hreset (of_decide_eq_false h)).1
  · rw [heq, ← hpre, List.append_nil]
  · rw [heq, hpre]
  · rw [heq]
  · rw [heq]
  · rw [heq, hpre]
  · rw [heq]
    rfl
  · rw [Writing.cells, List.append_nil]
    exact hholds

variable (codec) in
theorem prepare_begun (hpath : request.path.segments ≠ []) :
    Triple (fun s => s = w) (LocalEndpoint.prepare vol env peer request)
      ⟨fun writer s => ∃ x, Opened vol codec peer request w x ∧ Begun x writer s,
        fun _ s => NeverOpened vol request w s, fun s => NeverOpened vol request w s⟩ := by
  have hn := nameable vol hpath
  have hsame {s : World} (h : OnDisk vol request.path.toLocalPath (w.tree.disk vol)
      (Cells.of (w.tree.get vol request.path.toLocalPath)
        (w.tree.get vol (localPartPath request.path.toLocalPath))
        (w.tree.get vol (localSidecarPath request.path.toLocalPath))
        (w.tree.get vol (localSidecarTmpPath request.path.toLocalPath))) s) :
      NeverOpened vol request w s :=
    ⟨_, _, _, _, Grown.refl _ _, Or.inl rfl, Or.inl rfl, h⟩
  unfold LocalEndpoint.prepare
  refine Triple.weaken (Triple.bind (refuseDirectory_triple hn.injective) (fun u => ?_)
    (fun _ _ h => hsame h.1) (fun _ h => hsame h))
    (fun s hs => onDisk_start hs _ hn.injective)
    ⟨fun _ _ h => h, fun _ _ h => h, fun _ h => h⟩
  apply Triple.given
  intro hnotDir
  refine (open_triple hn).weaken (fun _ h => h) ⟨?_, fun _ _ h => h, fun _ h => h⟩
  rintro writer s ⟨ready⟩
  exact ready.begun codec hn.injective hnotDir

variable (codec) in
theorem prepare_triple (hpath : request.path.segments ≠ []) :
    Triple (fun s => s = w) (LocalEndpoint.prepare vol env peer request)
      ⟨fun writer s => ∃ x, Opened vol codec peer request w x ∧ x.WriterAt [] writer ∧
          x.Growing [] none 0 s,
        fun _ s => NeverOpened vol request w s, fun s => NeverOpened vol request w s⟩ := by
  refine (prepare_begun codec hpath).weaken (fun _ h => h) ⟨?_, fun _ _ h => h, fun _ h => h⟩
  intro writer s h
  obtain ⟨x, hopened, hbegun⟩ := h
  exact ⟨x, hopened, hbegun.state, hbegun.growing⟩

/-- A write before its part is open, or after. -/
theorem write_triple (hpath : request.path.segments ≠ []) :
    Triple (fun s => s = w) (LocalEndpoint.write vol env codec peer request input)
      ⟨fun u s => ∃ x, Opened vol codec peer request w x ∧ (x.ended env request input).ok u s,
        fun e s => NeverOpened vol request w s ∨
          ∃ x, Opened vol codec peer request w x ∧ (x.ended env request input).err e s,
        fun s => NeverOpened vol request w s ∨
          ∃ x, Opened vol codec peer request w x ∧ (x.ended env request input).died s⟩ := by
  unfold LocalEndpoint.write
  refine (prepare_triple codec hpath).bind (fun writer => ?_) (fun _ _ h => Or.inl h)
    (fun _ h => Or.inl h)
  apply Triple.exists
  intro x
  refine Triple.weaken (P := fun s => x.Growing [] none 0 s ∧
    (Opened vol codec peer request w x ∧ x.WriterAt [] writer)) (Triple.given fun hx => ?_)
    (fun s h => ⟨h.2.2, h.1, h.2.1⟩) ⟨fun _ _ h => h, fun _ _ h => h, fun _ h => h⟩
  obtain ⟨hopened, hat⟩ := hx
  have htransfer : Triple (x.Growing [] none 0) (writer.transfer x.vol env x.codec request input)
      (x.ended env request input) := Writing.transfer_triple hat
  rw [hopened.sameVol, hopened.sameCodec] at htransfer
  exact htransfer.weaken (fun _ h => h)
    ⟨fun _ _ h => ⟨x, hopened, h⟩, fun _ _ h => Or.inr ⟨x, hopened, h⟩,
      fun _ h => Or.inr ⟨x, hopened, h⟩⟩

end Write

/-- The old bytes a write goes on from. -/
def WriteRequest.keptBytes (vol : Volume) (request : WriteRequest) (tree : LocalTree) : Bytes :=
  (bytesOf (tree.get vol (localPartPath request.path.toLocalPath))).take
    (keptFrom (tree.get vol (localPartPath request.path.toLocalPath)) request.resumeFrom)

/-- The offset a plan asked for is the one the write goes on from. -/
def WriteRequest.Honoured (vol : Volume) (request : WriteRequest) (tree : LocalTree) : Prop :=
  keptFrom (tree.get vol (localPartPath request.path.toLocalPath)) request.resumeFrom =
    request.resumeFrom

/-- The final file is the old bytes followed by the whole stream, of the size asked for. -/
structure Replaced (vol : Volume) (request : WriteRequest) (input : ByteStream)
    (before after : LocalTree) : Prop where
  final : ∃ chunks : List Bytes, input = chunks.map .ok ∧
    (request.keptBytes vol before ++ chunks.flatten).length = request.expectedSize ∧
    ∃ readable, after.get vol request.path.toLocalPath =
      some (.file (request.keptBytes vol before ++ chunks.flatten) readable)
  part : after.get vol (localPartPath request.path.toLocalPath) = none

/-- The record describes the transfer, and counts bytes that are on the part and came from the
old part and the stream. -/
def TrueRecord (vol : Volume) (codec : SidecarCodec) (peer : Identity) (request : WriteRequest)
    (input : ByteStream) (before after : LocalTree) : Prop :=
  ∃ b bytes readable readable',
    after.get vol (localSidecarPath request.path.toLocalPath) =
      some (.file (codec.encode { sidecarFor peer request with bytes := b }) readable) ∧
    after.get vol (localPartPath request.path.toLocalPath) = some (.file bytes readable') ∧
    b ≤ bytes.length ∧ bytes.take b <+: request.keptBytes vol before ++ okBytes input

/-- Neither the part nor a record of it is there. -/
def NothingLeft (vol : Volume) (request : WriteRequest) (after : LocalTree) : Prop :=
  after.get vol (localPartPath request.path.toLocalPath) = none ∧
    after.get vol (localSidecarPath request.path.toLocalPath) = none

section Ends

variable {vol : Volume} {env : Weather} {codec : SidecarCodec} {peer : Identity}
  {request : WriteRequest} {input : ByteStream} {w w' : World} {x : Writing}

theorem Opened.get (h : Opened vol codec peer request w x) {d : Disk} {c : Cells}
    (hd : OnDisk x.vol x.finalPath d c w') (cell : Cell) :
    w'.tree.get vol (cellPath request.path.toLocalPath cell) = c cell := by
  have hget := hd.get x.injective cell
  rw [h.sameVol, h.finalPath] at hget
  exact hget

theorem Opened.replaced (h : Opened vol codec peer request w x)
    (hcomplete : x.Complete request input) (hw : x.Committed (okBytes input) w') :
    Replaced vol request input w.tree w'.tree := by
  obtain ⟨⟨chunks, rfl⟩, hsize⟩ := hcomplete
  obtain ⟨s, t, -, hd⟩ := hw
  have hpre : x.pre = request.keptBytes vol w.tree := h.pre
  rw [okBytes_ok] at hsize hd
  rw [hpre] at hsize hd
  exact ⟨⟨chunks, rfl, hsize, x.readable, h.get hd .final⟩, h.get hd .part⟩

theorem Opened.final_unchanged (h : Opened vol codec peer request w x)
    (hw : x.Refused env request input w') :
    w'.tree.get vol request.path.toLocalPath = w.tree.get vol request.path.toLocalPath := by
  rw [← h.final]
  obtain ⟨landed, b, -, ⟨-, ⟨s, t, hd, -⟩, -⟩ | ⟨-, p, s, t, hd, -⟩⟩ := hw
  · exact h.get hd .final
  · exact h.get hd .final

theorem Opened.trueRecord (h : Opened vol codec peer request w x) (hone : AtMostOneFault env)
    (hhon : request.Honoured vol w.tree) (hw : x.Refused env request input w')
    (hwritten : SidecarWritten request.path.toLocalPath w') :
    TrueRecord vol codec peer request input w.tree w'.tree := by
  have hpre : x.pre = request.keptBytes vol w.tree := h.pre
  have hresumable : x.resumable = true := h.resumable.trans (decide_eq_true hhon)
  obtain ⟨landed, b, hp, ⟨hb, ⟨s, t, hd, -, hside⟩, -⟩ | ⟨hfalse, -⟩⟩ := hw
  · rcases hside with ⟨-, hnot⟩ | ⟨readable, rfl⟩
    · rw [h.finalPath] at hnot
      exact absurd hwritten hnot
    · have hget := h.get hd .side
      rw [Writing.cells, Cells.of_side, h.sameCodec, h.sidecar] at hget
      refine ⟨b, x.pre ++ landed, readable, x.readable, hget, h.get hd .part, hb hone, ?_⟩
      rw [hpre]
      exact (List.take_prefix _ _).trans ((List.prefix_append_right_inj _).mpr hp)
  · exact absurd (hresumable.symm.trans hfalse) (by simp)

theorem NeverOpened.final_unchanged (hpath : request.path.segments ≠ [])
    (h : NeverOpened vol request w w') :
    w'.tree.get vol request.path.toLocalPath = w.tree.get vol request.path.toLocalPath := by
  obtain ⟨d, p, s, t, -, -, -, hd⟩ := h
  exact hd.get (nameable vol hpath).injective .final

theorem Opened.nothingLeft (h : Opened vol codec peer request w x)
    (hhon : ¬request.Honoured vol w.tree) (hw : x.Refused env request input w') :
    (Removed (localSidecarPath request.path.toLocalPath) w' → NothingLeft vol request w'.tree) ∧
      (Removed (localSidecarPath request.path.toLocalPath) w' ∨ JustFailed w' ∨
        x.Complete request input) := by
  have hresumable : x.resumable = false := h.resumable.trans (decide_eq_false hhon)
  obtain ⟨landed, b, -, ⟨-, ⟨s, t, hd, hnot, -⟩, hend⟩ | ⟨-, p, s, t, hd, hend⟩⟩ := hw
  · -- a commit that failed keeps even a part that was not resumed
    rw [h.finalPath] at hnot
    refine ⟨fun hr => absurd hr hnot, Or.inr (Or.inr ?_)⟩
    rcases hend with htrue | ⟨hcomplete, -⟩
    · exact absurd (hresumable.symm.trans htrue) (by simp)
    · exact hcomplete
  · rcases hend with ⟨rfl, rfl, hr⟩ | ⟨-, -, hfailed⟩
    · rw [h.finalPath] at hr
      exact ⟨fun _ => ⟨h.get hd .part, h.get hd .side⟩, Or.inl hr⟩
    · exact ⟨fun hr => absurd hr (Writing.JustFailed.not_removed hfailed), Or.inr (Or.inl hfailed)⟩

end Ends

section Root

variable {vol : Volume} {env : Weather} {tree : LocalTree}

theorem metadata_dir {path : List OsName} {readable : Bool}
    (hget : tree.get vol path = some (.dir readable)) :
    Triple (fun s => s.tree = tree) (metadata vol env path)
      ⟨fun m s => s.tree = tree ∧ m.isDir = true, fun kind s => s.tree = tree ∧ kind ≠ .notFound,
        fun s => s.tree = tree⟩ := by
  apply perform_triple
  · intro s m tree' hs hact
    rw [hs, hget] at hact
    cases hact
    exact ⟨rfl, rfl⟩
  · intro s kind hs hact
    rw [hs, hget] at hact
    exact absurd hact (by simp)
  · intro s kind n hs _
    exact ⟨hs, kind.2⟩
  · intro s n hs
    exact hs

/-- A write to the directory of the endpoint itself is refused before anything is touched. -/
theorem prepare_root {peer : Identity} {request : WriteRequest} (hpath : request.path.segments = [])
    (hroot : ∃ readable, tree.get vol [] = some (.dir readable)) :
    Triple (fun s => s.tree = tree) (LocalEndpoint.prepare vol env peer request)
      ⟨fun _ _ => False, fun _ s => s.tree = tree, fun s => s.tree = tree⟩ := by
  obtain ⟨readable, hget⟩ := hroot
  have hlocal : request.path.toLocalPath = [] := by
    rw [RelPath.toLocalPath, hpath]
    rfl
  have hrefuse : Triple (fun s => s.tree = tree) (refuseDirectory vol env [])
      ⟨fun _ _ => False, fun _ s => s.tree = tree, fun s => s.tree = tree⟩ := by
    refine (metadata_dir hget).attempt.bind (fun r => ?_) (fun _ _ h => h.elim) (fun _ h => h)
    cases r with
    | ok m =>
      intro s h
      dsimp only
      rw [if_pos h.2]
      exact h.1
    | error kind =>
      cases kind with
      | notFound => exact fun s h => absurd rfl h.2
      | _ => exact Triple.fail (fun s h => h.1)
  unfold LocalEndpoint.prepare
  rw [hlocal]
  exact hrefuse.bind (fun _ _ h => h.elim) (fun _ _ h => h) (fun _ h => h)

theorem write_root {codec : SidecarCodec} {peer : Identity} {request : WriteRequest}
    {input : ByteStream} (hpath : request.path.segments = [])
    (hroot : ∃ readable, tree.get vol [] = some (.dir readable)) :
    Triple (fun s => s.tree = tree) (LocalEndpoint.write vol env codec peer request input)
      ⟨fun _ _ => False, fun _ s => s.tree = tree, fun s => s.tree = tree⟩ :=
  (prepare_root hpath hroot).bind (fun _ _ h => h.elim) (fun _ _ h => h) (fun _ h => h)

end Root

/-- A write that ends well has put the stream under the final name whole; one that ends with an
error has left that name alone, and has either recorded what is on the part or removed it. -/
theorem write_atomic (vol : Volume) (env : Weather) (codec : SidecarCodec) (peer : Identity)
    (request : WriteRequest) (input : ByteStream) (w : World) (hone : AtMostOneFault env)
    (hroot : request.path.segments = [] → ∃ readable, w.tree.get vol [] = some (.dir readable)) :
    (∀ w', LocalEndpoint.write vol env codec peer request input w = (.ok (), w') →
        Replaced vol request input w.tree w'.tree) ∧
      (∀ e w', LocalEndpoint.write vol env codec peer request input w = (.err e, w') →
        w'.tree.get vol request.path.toLocalPath = w.tree.get vol request.path.toLocalPath) ∧
      ∀ e w' writer w₁, LocalEndpoint.prepare vol env peer request w = (.ok writer, w₁) →
        LocalEndpoint.write vol env codec peer request input w = (.err e, w') →
        (request.Honoured vol w.tree → SidecarWritten request.path.toLocalPath w' →
          TrueRecord vol codec peer request input w.tree w'.tree) ∧
        (¬request.Honoured vol w.tree →
          (Removed (localSidecarPath request.path.toLocalPath) w' →
            NothingLeft vol request w'.tree) ∧
          (Removed (localSidecarPath request.path.toLocalPath) w' ∨ JustFailed w' ∨
            ∃ chunks : List Bytes, input = chunks.map .ok ∧
              (request.keptBytes vol w.tree ++ chunks.flatten).length = request.expectedSize)) := by
  by_cases hpath : request.path.segments = []
  · refine ⟨?_, ?_, ?_⟩
    · intro w' h
      exact ((write_root hpath (hroot hpath)).run_ok rfl h).elim
    · intro e w' h
      rw [(write_root hpath (hroot hpath)).run_err rfl h]
    · intro e w' writer w₁ hready h
      exact ((prepare_root hpath (hroot hpath)).run_ok rfl hready).elim
  · refine ⟨?_, ?_, ?_⟩
    · intro w' h
      obtain ⟨x, hopened, hcomplete, hw⟩ := (write_triple hpath).run_ok rfl h
      exact hopened.replaced hcomplete hw
    · intro e w' h
      rcases (write_triple hpath).run_err rfl h with hnever | ⟨x, hopened, hw⟩
      · exact hnever.final_unchanged hpath
      · exact hopened.final_unchanged hw
    · intro e w' writer w₁ hready h
      -- the writer that was prepared is the one that transfers
      obtain ⟨x, hopened, hat, hgrow⟩ := (prepare_triple codec hpath).run_ok rfl hready
      have hrefused : x.Refused env request input w' := by
        have hrest : writer.transfer x.vol env x.codec request input w₁ = (.err e, w') := by
          rw [hopened.sameVol, hopened.sameCodec, ← h]
          exact (CrashM.bind_of_ok (f := fun writer => writer.transfer vol env codec request input)
            hready).symm
        exact (Writing.transfer_triple hat).run_err hgrow hrest
      refine ⟨fun hhon hwritten => hopened.trueRecord hone hhon hrefused hwritten, fun hhon => ?_⟩
      obtain ⟨hremoved, hend⟩ := hopened.nothingLeft hhon hrefused
      refine ⟨hremoved, hend.imp id (Or.imp id ?_)⟩
      -- the record may stay when every chunk came and the commit failed
      rintro ⟨⟨chunks, rfl⟩, hsize⟩
      rw [okBytes_ok] at hsize
      have hpre : x.pre = request.keptBytes vol w.tree := hopened.pre
      exact ⟨chunks, rfl, hpre ▸ hsize⟩

private def exactVolume : Volume := ⟨.ascii, .exact, 64⟩

/-- A part of three bytes, the last one stale, beside an older file. -/
private def stalePart : LocalTree :=
  [⟨[], .dir true⟩, ⟨[.utf8 "p.jpg"], .file [9] true⟩,
    ⟨[.utf8 "p.jpg.mtpx-part"], .file [1, 2, 7] true⟩]

private def resumeTwo : WriteRequest := ⟨.ofSegments ["p.jpg"], 4, 2, none⟩

/-- Only the removal of the old record fails, after the commit. -/
private def thirteenthFails : Weather := fun i =>
  if i = 13 then .fail ⟨.other, by decide⟩ 0 else .none

private noncomputable def staleRun : Outcome Error Unit × World :=
  LocalEndpoint.write exactVolume thirteenthFails .json ⟨"ZY22", "Internal"⟩ resumeTwo
    [.ok [3], .ok [4]] (.fresh stalePart)

theorem write_atomic_stalePart :
    staleRun.1 = .ok () ∧
      staleRun.2.tree.get exactVolume [.utf8 "p.jpg"] = some (.file [1, 2, 3, 4] true) ∧
      Replaced exactVolume resumeTwo [.ok [3], .ok [4]] stalePart staleRun.2.tree := by
  have hok : staleRun.1 = .ok () := rfl
  have hone : AtMostOneFault thirteenthFails := ⟨13, fun i hi => if_neg hi⟩
  refine ⟨hok, rfl, ?_⟩
  exact (write_atomic exactVolume thirteenthFails .json ⟨"ZY22", "Internal"⟩ resumeTwo
    [.ok [3], .ok [4]] (.fresh stalePart) hone (fun h => absurd h (by decide))).1 staleRun.2
      (Prod.ext hok rfl)

end MtpxCore
