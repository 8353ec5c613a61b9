import MtpxCore.CopySteps
import MtpxCore.PullHistories

/-! What a checkpoint is for: wherever a copy is killed, the record on disk counts no byte that
is not on the part, and little of what has arrived is missing from it. -/
namespace MtpxCore

open CrashHoare

namespace CopyState

/-- The length of a chunk that was taken and is not counted. -/
def inHand (s : CopyState) : ℕ :=
  match s.phase with
  | .write => s.chunk.length
  | .count _ => s.chunk.length
  | _ => 0

/-- What was written and is not counted. -/
def uncounted (s : CopyState) : Bytes :=
  match s.phase with
  | .count _ => s.chunk
  | _ => []

/-- How far past a checkpoint the count may be: by the chunk that made the checkpoint due. -/
def excess (s : CopyState) : ℕ :=
  match s.phase with
  | .flush => s.chunk.length
  | .aside => s.chunk.length
  | .replace => s.chunk.length
  | _ => 0

/-- The record on disk is the one the write came upon, or one of its own that counts `bytes`. -/
def Vouches (x : Writing) (recorded : Bool) (side : Option Obj) (bytes : ℕ) : Prop :=
  if recorded = true then
    ∃ readable, side = some (.file (x.codec.encode { x.sidecar with bytes := bytes }) readable)
  else side = x.side ∧ bytes = x.pre.length

/-- A state of the loop: what was handed over and counted, what lies on the disk, and the bytes
that the record vouches for. -/
structure View (x : Writing) (s : CopyState) where
  handed : Bytes
  landed : Bytes
  side : Option Obj
  tmp : Option Obj
  pending : Option IoErrorKind
  calls : ℕ
  vouched : ℕ
  writer : x.WriterAt handed s.writer
  holds : Holds x.vol x.finalPath x.disk (x.cells landed side tmp) pending calls s.world
  record : Vouches x s.recorded side vouched
  landed_eq : pending = none → landed = handed ++ s.uncounted
  received : s.received = (x.pre ++ handed).length + s.inHand
  checkpointed_le : s.writer.checkpointed ≤ vouched
  checkpointed : s.phase ≠ .mark → s.writer.checkpointed = vouched
  vouched_le_bytes : vouched ≤ (x.pre ++ handed).length
  vouched_le_flushed : vouched ≤ s.flushed
  flushed_le : s.flushed ≤ (x.pre ++ landed).length
  near : (x.pre ++ handed).length < vouched + CHECKPOINT_BYTES + s.excess
  file : ∀ file, s.phase = .count file →
    file = ⟨localPartPath x.finalPath, (x.pre ++ (handed ++ s.chunk)).length⟩
  flushed : s.phase = .aside ∨ s.phase = .replace → s.flushed = (x.pre ++ handed).length
  written : s.phase = .replace → ∃ readable,
    tmp = some (.file (x.codec.encode { x.sidecar with bytes := (x.pre ++ handed).length }) readable)
  noted : s.phase = .mark → vouched = (x.pre ++ handed).length

variable {x : Writing} {env : Weather} {s s' : CopyState}

theorem cells_part (x : Writing) (landed more : Bytes) (side tmp : Option Obj) :
    Function.update (x.cells landed side tmp) .part
      (some (.file (x.pre ++ landed ++ more) x.readable)) = x.cells (landed ++ more) side tmp := by
  rw [Writing.cells, Cells.update_part, Writing.cells, List.append_assoc]

/-- A chunk is handed to the part: whole, or partly with a failure owed. -/
theorem View.write (v : View x s) (hphase : s.phase = .write) {file : File} {world : World}
    (h : writeAll x.vol env s.writer.file s.chunk s.world = (.ok file, world)) :
    Nonempty (View x { s with phase := .count file, world := world }) := by
  obtain ⟨phase, writer, w, input, chunk, received, flushed, recorded⟩ := s
  cases hphase
  have hholds := v.holds
  cases hp : v.pending with
  | some kind =>
    rw [hp] at hholds
    -- a failure that is owed comes out at the next write, so this write did not return
    exact (writeAll_owed.run_ok hholds h).elim
  | none =>
    rw [hp] at hholds
    have hsame : v.landed = v.handed := (v.landed_eq hp).trans (List.append_nil v.handed)
    have hc : x.cells v.landed v.side v.tmp .part = some (.file (x.pre ++ v.landed) x.readable) := rfl
    rw [v.writer.file, ← hsame] at h
    obtain ⟨hfile, hlands⟩ := (writeAll_triple x.injective hc).run_ok hholds h
    have hlen : (x.pre ++ (v.handed ++ chunk)).length = (x.pre ++ v.landed).length + chunk.length := by
      rw [hsame, ← List.append_assoc, List.length_append]
    have hcounted : ∀ f, CopyPhase.count file = .count f →
        f = ⟨localPartPath x.finalPath, (x.pre ++ (v.handed ++ chunk)).length⟩ := by
      intro f hf
      rw [← CopyPhase.count.inj hf, hfile, hlen]
      rfl
    have hgrow (more : Bytes) : flushed ≤ (x.pre ++ (v.landed ++ more)).length := by
      rw [← List.append_assoc, List.length_append]
      exact v.flushed_le.trans (Nat.le_add_right _ _)
    -- all of the chunk, or a beginning of it with the error still to be reported
    rcases hlands with hw | ⟨m, i, kind, hw, -⟩
    · rw [cells_part] at hw
      exact ⟨{ v with
        landed := v.landed ++ chunk
        pending := none
        holds := hw
        landed_eq := fun _ => congrArg (· ++ chunk) hsame
        checkpointed := fun _ => v.checkpointed (by simp)
        flushed_le := hgrow chunk
        file := hcounted
        flushed := by simp
        written := by simp
        noted := by simp }⟩
    · rw [cells_part] at hw
      exact ⟨{ v with
        landed := v.landed ++ chunk.take m
        pending := some kind
        calls := i + 1
        holds := hw
        landed_eq := by simp
        checkpointed := fun _ => v.checkpointed (by simp)
        flushed_le := hgrow _
        file := hcounted
        flushed := by simp
        written := by simp
        noted := by simp }⟩

/-- A chunk is counted, and a record may have become due. -/
theorem View.count (v : View x s) {f : File} (hphase : s.phase = .count f) (hres : x.resumable = true) :
    Nonempty (View x { s with
      phase := if (s.writer.countChunk f s.chunk).isDue then .flush else .next
      writer := s.writer.countChunk f s.chunk }) := by
  obtain ⟨phase, writer, w, input, chunk, received, flushed, recorded⟩ := s
  cases hphase
  have hlen : (x.pre ++ (v.handed ++ chunk)).length = (x.pre ++ v.handed).length + chunk.length := by
    rw [← List.append_assoc, List.length_append]
  have hwriter : x.WriterAt (v.handed ++ chunk) (writer.countChunk f chunk) := by
    refine ⟨v.file f rfl, v.writer.part, v.writer.finalPath, ?_, v.writer.resumable⟩
    rw [PartWriter.countChunk, v.writer.sidecar, hlen]
  have hchecked : (writer.countChunk f chunk).checkpointed = v.vouched := v.checkpointed (by simp)
  -- a checkpoint is due once the count is that far past the last one
  have hdue : (writer.countChunk f chunk).isDue = true ↔
      CHECKPOINT_BYTES ≤ (x.pre ++ (v.handed ++ chunk)).length - v.vouched := by
    rw [PartWriter.isDue, hwriter.resumable, hres, hwriter.sidecar, hchecked]
    simp
  have hbytes : v.vouched ≤ (x.pre ++ (v.handed ++ chunk)).length := by
    rw [hlen]
    exact v.vouched_le_bytes.trans (Nat.le_add_right _ _)
  have hlanded (h : v.pending = none) : v.landed = v.handed ++ chunk ++ [] :=
    (v.landed_eq h).trans (List.append_nil _).symm
  split
  · -- the chunk went over the mark
    have hnear : (x.pre ++ (v.handed ++ chunk)).length <
        v.vouched + CHECKPOINT_BYTES + chunk.length := by
      have hbefore : (x.pre ++ v.handed).length < v.vouched + CHECKPOINT_BYTES + 0 := v.near
      omega
    exact ⟨{ v with
      handed := v.handed ++ chunk
      writer := hwriter
      landed_eq := hlanded
      received := v.received.trans hlen.symm
      checkpointed_le := hchecked.le
      checkpointed := fun _ => hchecked
      vouched_le_bytes := hbytes
      near := hnear
      file := by simp
      flushed := by simp
      written := by simp
      noted := by simp }⟩
  · rename_i hnot
    have hnear : (x.pre ++ (v.handed ++ chunk)).length < v.vouched + CHECKPOINT_BYTES + 0 := by
      rw [hdue] at hnot
      omega
    exact ⟨{ v with
      handed := v.handed ++ chunk
      writer := hwriter
      landed_eq := hlanded
      received := v.received.trans hlen.symm
      checkpointed_le := hchecked.le
      checkpointed := fun _ => hchecked
      vouched_le_bytes := hbytes
      near := hnear
      file := by simp
      flushed := by simp
      written := by simp
      noted := by simp }⟩

/-- A flush that returns has seen everything to the part. -/
theorem View.flush (v : View x s) (hphase : s.phase = .flush) {world : World}
    (h : MtpxCore.flush env s.writer.file s.world = (.ok (), world)) :
    Nonempty (View x { s with
      phase := .aside
      world := world
      flushed := (contents x.vol world.tree s.writer.file).length }) := by
  obtain ⟨phase, writer, w, input, chunk, received, flushed, recorded⟩ := s
  cases hphase
  obtain ⟨hw, hnone⟩ := flush_triple.run_ok v.holds h
  have hsame : v.landed = v.handed := (v.landed_eq hnone).trans (List.append_nil v.handed)
  have hc : x.cells v.landed v.side v.tmp .part = some (.file (x.pre ++ v.landed) x.readable) := rfl
  have hcontents : contents x.vol world.tree writer.file = x.pre ++ v.landed := by
    rw [v.writer.file]
    exact contents_eq x.injective hw.1 hc
  have hlen : (contents x.vol world.tree writer.file).length = (x.pre ++ v.handed).length := by
    rw [hcontents, hsame]
  exact ⟨{ v with
    pending := none
    holds := hw
    landed_eq := fun _ => v.landed_eq hnone
    checkpointed := fun _ => v.checkpointed (by simp)
    vouched_le_flushed := hlen ▸ v.vouched_le_bytes
    flushed_le := (congrArg List.length hcontents).le
    file := by simp
    flushed := fun _ => hlen
    written := by simp
    noted := by simp }⟩

/-- The record is written under its other name. -/
theorem View.aside (v : View x s) (hphase : s.phase = .aside) {world : World}
    (h : writeFile x.vol env (localSidecarTmpPath s.writer.finalPath)
      (x.codec.encode s.writer.sidecar) s.world = (.ok (), world)) :
    Nonempty (View x { s with phase := .replace, world := world }) := by
  obtain ⟨phase, writer, w, input, chunk, received, flushed, recorded⟩ := s
  cases hphase
  rw [v.writer.finalPath, v.writer.sidecar] at h
  obtain ⟨readable, hw⟩ := (writeFile_triple x.injective (x := .tmp)).run_ok v.holds h
  rw [Writing.cells, Cells.update_tmp] at hw
  exact ⟨{ v with
    tmp := _
    holds := hw
    checkpointed := fun _ => v.checkpointed (by simp)
    file := by simp
    flushed := fun _ => v.flushed (.inl rfl)
    written := fun _ => ⟨readable, rfl⟩
    noted := by simp }⟩

/-- The record takes the place of the old one, and vouches for what was flushed. -/
theorem View.replace (v : View x s) (hphase : s.phase = .replace) {world : World}
    (h : rename x.vol env (localSidecarTmpPath s.writer.finalPath)
      (localSidecarPath s.writer.finalPath) s.world = (.ok (), world)) :
    Nonempty (View x { s with phase := .mark, world := world, recorded := true }) := by
  obtain ⟨phase, writer, w, input, chunk, received, flushed, recorded⟩ := s
  cases hphase
  obtain ⟨readable, htmp⟩ := v.written rfl
  rw [v.writer.finalPath] at h
  obtain ⟨⟨obj, hobj, hw⟩, -⟩ :=
    (rename_triple x.injective (x := .tmp) (y := .side)).run_ok v.holds h
  rw [Writing.cells, Cells.update_tmp, Cells.update_side] at hw
  change v.tmp = some obj at hobj
  have hside : Vouches x true (some obj) (x.pre ++ v.handed).length := ⟨readable, hobj ▸ htmp⟩
  have hpos : (x.pre ++ v.handed).length < (x.pre ++ v.handed).length + CHECKPOINT_BYTES + 0 := by
    rw [CHECKPOINT_BYTES]
    omega
  exact ⟨{ v with
    side := some obj
    tmp := none
    vouched := (x.pre ++ v.handed).length
    holds := hw
    record := hside
    checkpointed_le := v.checkpointed_le.trans v.vouched_le_bytes
    checkpointed := by simp
    vouched_le_bytes := le_rfl
    vouched_le_flushed := (v.flushed (.inr rfl)).ge
    near := hpos
    file := by simp
    flushed := by simp
    written := by simp
    noted := fun _ => rfl }⟩

/-- The writer notes what the record vouches for. -/
theorem View.mark (v : View x s) (hphase : s.phase = .mark) :
    Nonempty (View x { s with
      phase := .next
      writer := { s.writer with checkpointed := s.writer.sidecar.bytes } }) := by
  obtain ⟨phase, writer, w, input, chunk, received, flushed, recorded⟩ := s
  cases hphase
  have hcount : writer.sidecar.bytes = v.vouched := by
    rw [v.writer.sidecar]
    exact (v.noted rfl).symm
  exact ⟨{ v with
    writer := ⟨v.writer.file, v.writer.part, v.writer.finalPath, v.writer.sidecar,
      v.writer.resumable⟩
    checkpointed_le := hcount.le
    checkpointed := fun _ => hcount
    file := by simp
    flushed := by simp
    written := by simp
    noted := by simp }⟩

/-- Whatever the next step is. -/
theorem View.step (v : View x s) (hres : x.resumable = true)
    (h : s.step x.vol env x.codec = some s') : Nonempty (View x s') := by
  obtain ⟨phase, writer, w, input, chunk, received, flushed, recorded⟩ := s
  cases phase with
  | next =>
    cases input with
    | nil => exact absurd h (by simp [CopyState.step])
    | cons item input =>
      cases item with
      | error e => exact absurd h (by simp [CopyState.step])
      | ok next =>
        cases h
        exact ⟨{ v with
          received := congrArg (· + next.length) v.received
          checkpointed := fun _ => v.checkpointed (by simp)
          file := by simp
          flushed := by simp
          written := by simp
          noted := by simp }⟩
  | write =>
    simp only [CopyState.step] at h
    split at h
    · rename_i hwrite
      cases h
      exact v.write rfl hwrite
    · exact absurd h (by simp)
  | count f =>
    cases h
    exact v.count rfl hres
  | flush =>
    simp only [CopyState.step] at h
    split at h
    · rename_i hflush
      cases h
      exact v.flush rfl hflush
    · exact absurd h (by simp)
  | aside =>
    simp only [CopyState.step] at h
    split at h
    · rename_i hwrite
      cases h
      exact v.aside rfl hwrite
    · exact absurd h (by simp)
  | replace =>
    simp only [CopyState.step] at h
    split at h
    · rename_i hrename
      cases h
      exact v.replace rfl hrename
    · exact absurd h (by simp)
  | mark =>
    cases h
    exact v.mark rfl

theorem View.reaches (v : View x s) (hres : x.resumable = true)
    (h : Reaches x.vol env x.codec s s') : Nonempty (View x s') := by
  induction h with
  | refl => exact ⟨v⟩
  | tail _ hstep ih => exact ih.some.step hres hstep

/-- A kill leaves the record that was there, and no less of the part. -/
theorem View.dies (v : View x s) {w : World} (h : s.Dies x.vol env x.codec w) :
    ∃ landed tmp, v.landed <+: landed ∧
      OnDisk x.vol x.finalPath x.disk (x.cells landed v.side tmp) w := by
  obtain ⟨phase, writer, world, input, chunk, received, flushed, recorded⟩ := s
  have hholds := v.holds
  have hfile := v.writer.file
  have hpath := v.writer.finalPath
  cases phase with
  | write =>
    change writeAll x.vol env writer.file chunk world = (.died, w) at h
    cases hp : v.pending with
    | some kind =>
      rw [hp] at hholds
      exact ⟨v.landed, v.tmp, List.prefix_rfl, writeAll_owed.run_died hholds h⟩
    | none =>
      rw [hp] at hholds
      have hsame : v.landed = v.handed := (v.landed_eq hp).trans (List.append_nil _)
      have hc : x.cells v.landed v.side v.tmp .part =
          some (.file (x.pre ++ v.landed) x.readable) := rfl
      rw [hfile, ← hsame] at h
      -- the kill leaves a beginning of the chunk on the part
      obtain ⟨m, hw⟩ := (writeAll_triple x.injective hc).run_died hholds h
      rw [cells_part] at hw
      exact ⟨_, v.tmp, List.prefix_append _ _, hw⟩
  | flush => exact ⟨v.landed, v.tmp, List.prefix_rfl, flush_triple.run_died hholds h⟩
  | aside =>
    change writeFile x.vol env (localSidecarTmpPath writer.finalPath) _ world = _ at h
    rw [hpath] at h
    -- only the temporary record can be torn
    obtain ⟨o, hw⟩ := (writeFile_triple x.injective (x := .tmp)).run_died hholds h
    rw [Writing.cells, Cells.update_tmp] at hw
    exact ⟨v.landed, o, List.prefix_rfl, hw⟩
  | replace =>
    change rename x.vol env (localSidecarTmpPath writer.finalPath)
      (localSidecarPath writer.finalPath) world = _ at h
    rw [hpath] at h
    exact ⟨v.landed, v.tmp, List.prefix_rfl,
      (rename_triple x.injective (x := .tmp) (y := .side)).run_died hholds h⟩
  | _ => exact h.elim

end CopyState

section Bounds

variable (vol : Volume) (codec : SidecarCodec) (request : WriteRequest)

/-- The write resumes from the record it comes upon. -/
def WriteRequest.Resumes (tree : LocalTree) : Prop :=
  ∃ record, RecordAt vol codec tree request.path record ∧ record.bytes = request.resumeFrom

/-- The bytes the record vouches for: the offset, until this write has put a record in place. -/
def CopyState.Vouched (s : CopyState) (bytes : ℕ) : Prop :=
  if s.recorded = true then
    ∃ record, RecordAt vol codec s.world.tree request.path record ∧ record.bytes = bytes
  else bytes = request.resumeFrom

/-- What a state of the loop owes to the checkpoints, for a write that began on `tree`. -/
structure CopyState.Bounded (tree : LocalTree) (s : CopyState) : Prop where
  noUnderflow : s.writer.checkpointed ≤ s.writer.sidecar.bytes
  record : s.recorded = true ∨ request.Resumes vol codec tree → ∃ record,
    RecordAt vol codec s.world.tree request.path record ∧ record.bytes ≤ s.flushed
  part : ∃ bytes readable, s.world.tree.get vol (localPartPath request.path.toLocalPath) =
    some (.file bytes readable) ∧ s.flushed ≤ bytes.length
  loss : ∃ vouched, s.Vouched vol codec request vouched ∧ vouched ≤ s.received ∧
    s.received < vouched + CHECKPOINT_BYTES + s.chunk.length ∧
      (s.phase = .next → s.received < vouched + CHECKPOINT_BYTES)

/-- A killed write leaves the record of the state it was killed in, and the flushed bytes. -/
structure CopyState.LeftBehind (s : CopyState) (w : World) : Prop where
  record : w.tree.get vol (localSidecarPath request.path.toLocalPath) =
    s.world.tree.get vol (localSidecarPath request.path.toLocalPath)
  part : ∃ bytes readable, w.tree.get vol (localPartPath request.path.toLocalPath) =
    some (.file bytes readable) ∧ s.flushed ≤ bytes.length

end Bounds

section Loss

variable {vol : Volume} {env : Weather} {codec : SidecarCodec} {peer : Identity}
  {request : WriteRequest} {w w₁ : World} {writer : PartWriter} {x : Writing}

/-- A write that resumes as planned builds on as many bytes as planned. -/
theorem Opened.pre_length (hopened : Opened vol codec peer request w x)
    (hres : x.resumable = true) : x.pre.length = request.resumeFrom := by
  have hkept : keptFrom (w.tree.get vol (localPartPath request.path.toLocalPath))
      request.resumeFrom = request.resumeFrom := of_decide_eq_true (hopened.resumable ▸ hres)
  have hlen : keptFrom (w.tree.get vol (localPartPath request.path.toLocalPath))
      request.resumeFrom ≤ (bytesOf (w.tree.get vol
        (localPartPath request.path.toLocalPath))).length := by
    rw [keptFrom]
    split
    · assumption
    · exact Nat.zero_le _
  rw [hopened.pre, List.length_take_of_le hlen, hkept]

theorem CopyState.View.recordAt {s : CopyState} (hopened : Opened vol codec peer request w x)
    (v : View x s) (hrecorded : s.recorded = true) : ∃ record,
      RecordAt vol codec s.world.tree request.path record ∧ record.bytes = v.vouched := by
  have hget := v.holds.1.get x.injective .side
  rw [hopened.sameVol, hopened.finalPath] at hget
  have hrecord := v.record
  rw [Vouches, if_pos hrecorded] at hrecord
  obtain ⟨readable, hside⟩ := hrecord
  refine ⟨{ x.sidecar with bytes := v.vouched }, ⟨?_, _, readable, hget.trans hside, ?_⟩, rfl⟩
  · rw [hopened.sidecar]
    rfl
  · rw [hopened.sameCodec]
    exact codec.round_trip _

theorem CopyState.View.bounded {s : CopyState} (hopened : Opened vol codec peer request w x)
    (hres : x.resumable = true) (v : View x s) : s.Bounded vol codec request w.tree := by
  have hcount : s.writer.sidecar.bytes = (x.pre ++ v.handed).length := by rw [v.writer.sidecar]
  -- until the write has a record of its own, the one it came upon vouches
  have hunrecorded (h : s.recorded = false) : v.side = x.side ∧ v.vouched = x.pre.length := by
    have hrecord := v.record
    rwa [Vouches, if_neg (by simp [h])] at hrecord
  refine ⟨?_, ?_, ?_, v.vouched, ?_, ?_, ?_, ?_⟩
  · rw [hcount]
    exact v.checkpointed_le.trans v.vouched_le_bytes
  · intro h
    cases hrecorded : s.recorded with
    | true =>
      obtain ⟨record, hat, hbytes⟩ := v.recordAt hopened hrecorded
      exact ⟨record, hat, hbytes ▸ v.vouched_le_flushed⟩
    | false =>
      obtain ⟨record, ⟨hversion, bytes, readable, hold, hdecode⟩, hbytes⟩ :=
        h.resolve_left (by simp [hrecorded])
      obtain ⟨hside, hvouched⟩ := hunrecorded hrecorded
      have hget := v.holds.1.get x.injective .side
      rw [hopened.sameVol, hopened.finalPath] at hget
      have hsame : v.side = some (.file bytes readable) :=
        hside.trans ((hopened.honoured hres).trans hold)
      refine ⟨record, ⟨hversion, bytes, readable, hget.trans hsame, hdecode⟩, ?_⟩
      rw [hbytes, ← hopened.pre_length hres, ← hvouched]
      exact v.vouched_le_flushed
  · have hget := v.holds.1.get x.injective .part
    rw [hopened.sameVol, hopened.finalPath] at hget
    exact ⟨_, _, hget, v.flushed_le⟩
  · rw [Vouched]
    cases hrecorded : s.recorded with
    | true => exact v.recordAt hopened hrecorded
    | false => exact (hunrecorded hrecorded).2.trans (hopened.pre_length hres)
  · rw [v.received]
    exact v.vouched_le_bytes.trans (Nat.le_add_right _ _)
  · -- a chunk in hand is not yet part of the excess
    have hnear := v.near
    have hsum : s.inHand + s.excess ≤ s.chunk.length := by
      rw [inHand, excess]
      cases s.phase <;> simp
    rw [v.received]
    omega
  · intro hnext
    have hnear := v.near
    have hzero : s.inHand = 0 ∧ s.excess = 0 := by
      rw [inHand, excess, hnext]
      exact ⟨rfl, rfl⟩
    rw [v.received]
    omega

/-- The loop begins with what was on the part, and with the record that was found. -/
theorem Begun.view {input : ByteStream} (h : Begun x writer w₁) :
    Nonempty (CopyState.View x (.start writer w₁ input)) := by
  obtain ⟨tmp, hholds⟩ := h.holds
  have hcount : writer.sidecar.bytes = (x.pre ++ []).length := by rw [h.state.sidecar]
  have hpre : (x.pre ++ []).length = x.pre.length := by rw [List.append_nil]
  have hrecord : CopyState.Vouches x false x.side x.pre.length := ⟨rfl, rfl⟩
  have hnear : (x.pre ++ []).length < x.pre.length + CHECKPOINT_BYTES + 0 := by
    rw [CHECKPOINT_BYTES]
    omega
  exact ⟨{
    handed := []
    landed := []
    side := x.side
    tmp := tmp
    pending := none
    calls := 0
    vouched := x.pre.length
    writer := h.state
    holds := hholds
    record := hrecord
    landed_eq := fun _ => rfl
    received := hcount
    checkpointed_le := h.checkpointed.le
    checkpointed := fun _ => h.checkpointed
    vouched_le_bytes := hpre.ge
    vouched_le_flushed := (hcount.trans hpre).ge
    flushed_le := hcount.le
    near := hnear
    file := by simp [CopyState.start]
    flushed := by simp [CopyState.start]
    written := by simp [CopyState.start]
    noted := by simp [CopyState.start] }⟩

/-- Wherever a write that resumes as planned is stopped in its copy, nothing underflows, the
record counts no byte that is not on the part, and what has arrived past the record is less than
a checkpoint and a chunk. A killed copy was killed at the next call of such a state. -/
theorem checkpoints_bound_loss (vol : Volume) (env : Weather) (codec : SidecarCodec)
    (peer : Identity) (request : WriteRequest) (input : ByteStream) (w w₁ : World)
    (writer : PartWriter)
    (hroot : request.path.segments = [] → ∃ readable, w.tree.get vol [] = some (.dir readable))
    (hready : LocalEndpoint.prepare vol env peer request w = (.ok writer, w₁))
    (hres : writer.resumable = true) :
    (∀ s, CopyState.Reaches vol env codec (.start writer w₁ input) s →
      s.Bounded vol codec request w.tree) ∧
    ∀ w₂, writer.copyChunks vol env codec input w₁ = (.died, w₂) →
      ∃ s, CopyState.Reaches vol env codec (.start writer w₁ input) s ∧
        s.Dies vol env codec w₂ ∧ s.LeftBehind vol request w₂ := by
  by_cases hpath : request.path.segments = []
  · exact ((prepare_root hpath (hroot hpath)).run_ok rfl hready).elim
  · obtain ⟨x, hopened, hbegun⟩ := (prepare_begun codec hpath).run_ok rfl hready
    have hx : x.resumable = true := hbegun.state.resumable.symm.trans hres
    have hview : ∀ s, CopyState.Reaches vol env codec (.start writer w₁ input) s →
        Nonempty (CopyState.View x s) := by
      intro s hs
      rw [← hopened.sameVol, ← hopened.sameCodec] at hs
      exact hbegun.view.some.reaches hx hs
    refine ⟨fun s hs => (hview s hs).some.bounded hopened hx, ?_⟩
    intro w₂ hdied
    obtain ⟨s, hs, hdies⟩ := CopyState.copyChunks_died hdied
    obtain ⟨v⟩ := hview s hs
    have hkilled : s.Dies x.vol env x.codec w₂ := by rwa [hopened.sameVol, hopened.sameCodec]
    obtain ⟨landed, tmp, hgrow, hw⟩ := v.dies hkilled
    have hbefore := v.holds.1.get x.injective .side
    have hafter := hw.get x.injective
    rw [hopened.sameVol, hopened.finalPath] at hbefore hafter
    refine ⟨s, hs, hdies, (hafter .side).trans hbefore.symm, _, _, hafter .part, ?_⟩
    rw [List.length_append]
    have hflushed := v.flushed_le
    rw [List.length_append] at hflushed
    exact hflushed.trans (Nat.add_le_add_left hgrow.length_le _)

end Loss

private def oneDrive : Volume := ⟨.ascii, .exact, 64⟩

private def halfCopied : WriteRequest := ⟨.ofSegments ["q.jpg"], 4, 2, none⟩

/-- Two bytes on the part, and the record that counts them. -/
private noncomputable def recordedHalf : LocalTree :=
  [⟨[], .dir true⟩, ⟨[.utf8 "q.jpg.mtpx-part"], .file [1, 2] true⟩,
    ⟨[.utf8 "q.jpg.mtpx-part.json"],
      .file (SidecarCodec.json.encode (sidecarFor ⟨"ZY22", "Internal"⟩ halfCopied)) true⟩]

/-- The process is killed as it hands over the second chunk. -/
private def ninthKills : Weather := fun i => if i = 8 then .die 0 else .none

private noncomputable def reopened : Outcome Error PartWriter × World :=
  LocalEndpoint.prepare oneDrive ninthKills ⟨"ZY22", "Internal"⟩ halfCopied (.fresh recordedHalf)

private def reopenedWriter : PartWriter :=
  ⟨⟨[.utf8 "q.jpg.mtpx-part"], 2⟩, [.utf8 "q.jpg.mtpx-part"], [.utf8 "q.jpg"],
    sidecarFor ⟨"ZY22", "Internal"⟩ halfCopied, true, 2⟩

private noncomputable def killedRun : Outcome Error (PartWriter × Except Error Unit) × World :=
  reopenedWriter.copyChunks oneDrive ninthKills .json [.ok [3], .ok [4]] reopened.2

theorem checkpoints_bound_loss_killed :
    halfCopied.Resumes oneDrive .json recordedHalf ∧ reopened.1 = .ok reopenedWriter ∧
      killedRun.1 = .died ∧ ∃ s : CopyState,
        s.Bounded oneDrive .json halfCopied recordedHalf ∧
          s.Dies oneDrive ninthKills .json killedRun.2 ∧
            s.LeftBehind oneDrive halfCopied killedRun.2 := by
  have hresumes : halfCopied.Resumes oneDrive .json recordedHalf :=
    ⟨_, ⟨rfl, _, true, rfl, SidecarCodec.json.round_trip _⟩, rfl⟩
  have hready : reopened.1 = .ok reopenedWriter := rfl
  have hdied : killedRun.1 = .died := rfl
  have hbounds := checkpoints_bound_loss oneDrive ninthKills .json ⟨"ZY22", "Internal"⟩ halfCopied
    [.ok [3], .ok [4]] (.fresh recordedHalf) reopened.2 reopenedWriter
    (fun h => absurd h (by decide)) (Prod.ext hready rfl) rfl
  obtain ⟨s, hs, hkilled, hleft⟩ := hbounds.2 killedRun.2 (Prod.ext hdied rfl)
  exact ⟨hresumes, hready, hdied, s, hbounds.1 s hs, hkilled, hleft⟩

end MtpxCore
