import MtpxCore.PartWriterModel
import Mathlib.Logic.Relation

/-! The copy loop one step at a time: taking a chunk, each call on the disk, each assignment. The
program ends as the steps end, so whatever holds at every step holds wherever it is stopped. -/
namespace MtpxCore

open CrashHoare

/-- Where the loop stands: before the next chunk, or in the middle of one. The last four belong
to the checkpoint: the part is flushed, the record written aside, put in place, and noted. -/
inductive CopyPhase where
  | next
  | write
  | count (file : File)
  | flush
  | aside
  | replace
  | mark
  deriving DecidableEq, Repr

/-- How many steps are left at most before the chunk is done with. -/
def CopyPhase.left : CopyPhase → ℕ
  | .next => 0
  | .write => 6
  | .count _ => 5
  | .flush => 4
  | .aside => 3
  | .replace => 2
  | .mark => 1

/-- The loop between two steps. The program itself does not keep `received`, the bytes taken off
the stream and the offset they follow; `flushed`, the bytes of the part that were there when it
was opened or last flushed; and `recorded`, whether a record of this write is in place. -/
structure CopyState where
  phase : CopyPhase
  writer : PartWriter
  world : World
  input : ByteStream
  chunk : Bytes
  received : ℕ
  flushed : ℕ
  recorded : Bool

namespace CopyState

variable (vol : Volume) (env : Weather) (codec : SidecarCodec)

def start (writer : PartWriter) (world : World) (input : ByteStream) : CopyState :=
  ⟨.next, writer, world, input, [], writer.sidecar.bytes, writer.sidecar.bytes, false⟩

/-- One step, if the stream goes on and the call does not fail. -/
def step (s : CopyState) : Option CopyState :=
  match s.phase with
  | .next =>
    match s.input with
    | .ok chunk :: input => some
        { s with
          phase := .write
          input := input
          chunk := chunk
          received := s.received + chunk.length }
    | _ => none
  | .write =>
    match writeAll vol env s.writer.file s.chunk s.world with
    | (.ok file, world) => some { s with phase := .count file, world := world }
    | _ => none
  | .count file =>
    let writer := s.writer.countChunk file s.chunk
    some { s with phase := if writer.isDue then .flush else .next, writer := writer }
  | .flush =>
    match MtpxCore.flush env s.writer.file s.world with
    | (.ok (), world) => some
        { s with
          phase := .aside
          world := world
          flushed := (contents vol world.tree s.writer.file).length }
    | _ => none
  | .aside =>
    match writeFile vol env (localSidecarTmpPath s.writer.finalPath)
        (codec.encode s.writer.sidecar) s.world with
    | (.ok (), world) => some { s with phase := .replace, world := world }
    | _ => none
  | .replace =>
    match rename vol env (localSidecarTmpPath s.writer.finalPath)
        (localSidecarPath s.writer.finalPath) s.world with
    | (.ok (), world) => some { s with phase := .mark, world := world, recorded := true }
    | _ => none
  | .mark => some
      { s with
        phase := .next
        writer := { s.writer with checkpointed := s.writer.sidecar.bytes } }

/-- The states the loop goes through. -/
def Reaches : CopyState → CopyState → Prop :=
  Relation.ReflTransGen (fun s s' => s.step vol env codec = some s')

/-- The loop after a checkpoint has ended. -/
def resume (input : ByteStream) : PartWriter × Except Error Unit → PartWriter.Step
  | (writer, .error e) => pure (writer, .error e)
  | (writer, .ok ()) => writer.copyChunks vol env codec input

/-- The end of a checkpoint, when the record has been written or not. -/
def noted (writer : PartWriter) : Except Error Unit → PartWriter × Except Error Unit
  | .error e => (writer, .error e)
  | .ok () => ({ writer with checkpointed := writer.sidecar.bytes }, .ok ())

/-- What is left of the program in a state of the loop. -/
def rest (s : CopyState) : PartWriter.Step :=
  match s.phase with
  | .next => s.writer.copyChunks vol env codec s.input
  | .write => s.writer.copyChunks vol env codec (.ok s.chunk :: s.input)
  | .count file =>
    if (s.writer.countChunk file s.chunk).isDue then
      (s.writer.countChunk file s.chunk).checkpoint vol env codec >>= resume vol env codec s.input
    else (s.writer.countChunk file s.chunk).copyChunks vol env codec s.input
  | .flush => s.writer.checkpoint vol env codec >>= resume vol env codec s.input
  | .aside => do
    let written ← CrashM.attempt (writeSidecar vol env codec s.writer.finalPath s.writer.sidecar)
    resume vol env codec s.input (noted s.writer written)
  | .replace => do
    let written ← CrashM.attempt (CrashM.mapError
      (localIo "rename sidecar" (localSidecarTmpPath s.writer.finalPath))
      (rename vol env (localSidecarTmpPath s.writer.finalPath)
        (localSidecarPath s.writer.finalPath)))
    resume vol env codec s.input (noted s.writer written)
  | .mark => resume vol env codec s.input (noted s.writer (.ok ()))

/-- The call the loop stands before is killed, and leaves `w`. -/
def Dies (s : CopyState) (w : World) : Prop :=
  match s.phase with
  | .write => writeAll vol env s.writer.file s.chunk s.world = (.died, w)
  | .flush => MtpxCore.flush env s.writer.file s.world = (.died, w)
  | .aside => writeFile vol env (localSidecarTmpPath s.writer.finalPath)
      (codec.encode s.writer.sidecar) s.world = (.died, w)
  | .replace => rename vol env (localSidecarTmpPath s.writer.finalPath)
      (localSidecarPath s.writer.finalPath) s.world = (.died, w)
  | _ => False

variable {vol env codec}

theorem checkpoint_flushed {writer : PartWriter} {w w' : World}
    (h : MtpxCore.flush env writer.file w = (.ok (), w')) :
    writer.checkpoint vol env codec w =
      (CrashM.attempt (writeSidecar vol env codec writer.finalPath writer.sidecar) >>=
        fun written => pure (noted writer written) : PartWriter.Step) w' := by
  have hflush : writer.flush env w = (.ok (.ok ()), w') := CrashM.attempt_of_ok (CrashM.mapError_of_ok h)
  rw [PartWriter.checkpoint, CrashM.bind_of_ok hflush]
  apply congrArg (fun f : Except Error Unit → PartWriter.Step =>
    (CrashM.attempt (writeSidecar vol env codec writer.finalPath writer.sidecar) >>= f) w')
  funext written
  cases written <;> rfl

/-- A step does what the program does next. -/
theorem rest_step {s s' : CopyState} (h : s.step vol env codec = some s') :
    s.rest vol env codec s.world = s'.rest vol env codec s'.world := by
  obtain ⟨phase, writer, world, input, chunk, received, flushed, recorded⟩ := s
  -- each phase stands before one call of the loop, and a step is that call returning
  cases phase with
  | next =>
    cases input with
    | nil => exact absurd h (by simp [step])
    | cons item input =>
      cases item with
      | error e => exact absurd h (by simp [step])
      | ok chunk =>
        cases h
        rfl
  | write =>
    simp only [step] at h
    split at h
    · rename_i file world' hwrite
      cases h
      change PartWriter.copyChunks vol env codec writer (.ok chunk :: input) world = _
      rw [PartWriter.copyChunks, CrashM.bind_of_ok (CrashM.attempt_of_ok (CrashM.mapError_of_ok hwrite))]
      rfl
    · exact absurd h (by simp)
  | count file =>
    cases h
    by_cases hdue : (writer.countChunk file chunk).isDue = true
    · simp only [rest, if_pos hdue]
    · simp only [rest, if_neg hdue]
  | flush =>
    simp only [step] at h
    split at h
    · rename_i world' hflush
      cases h
      change (writer.checkpoint vol env codec >>= resume vol env codec input) world = _
      rw [CrashM.bind_congr (checkpoint_flushed hflush), CrashM.bind_assoc]
      rfl
    · exact absurd h (by simp)
  | aside =>
    simp only [step] at h
    split at h
    · rename_i world' hwrite
      cases h
      change (CrashM.attempt (writeSidecar vol env codec writer.finalPath writer.sidecar) >>=
        fun written => resume vol env codec input (noted writer written)) world = _
      apply CrashM.bind_congr
      unfold CrashM.attempt writeSidecar
      rw [CrashM.bind_of_ok (CrashM.mapError_of_ok hwrite)]
    · exact absurd h (by simp)
  | replace =>
    simp only [step] at h
    split at h
    · rename_i world' hrename
      cases h
      exact CrashM.bind_of_ok (CrashM.attempt_of_ok (CrashM.mapError_of_ok hrename))
    · exact absurd h (by simp)
  | mark =>
    cases h
    rfl

theorem rest_reaches {s s' : CopyState} (h : Reaches vol env codec s s') :
    s.rest vol env codec s.world = s'.rest vol env codec s'.world := by
  induction h with
  | refl => rfl
  | tail _ hstep ih => exact ih.trans (rest_step hstep)

/-- Where the loop has no next step, only the call it stands before can be killed. -/
theorem rest_died {s : CopyState} {w : World} (hstuck : s.step vol env codec = none)
    (h : s.rest vol env codec s.world = (.died, w)) : s.Dies vol env codec w := by
  obtain ⟨phase, writer, world, input, chunk, received, flushed, recorded⟩ := s
  cases phase with
  | next =>
    cases input with
    | nil => exact absurd (congrArg Prod.fst h) (by simp [rest, PartWriter.copyChunks, pure])
    | cons item input =>
      cases item with
      | error e => exact absurd (congrArg Prod.fst h) (by simp [rest, PartWriter.copyChunks, pure])
      | ok chunk => exact absurd hstuck (by simp [step])
  | write =>
    have hok : (writeAll vol env writer.file chunk).Stuck world := by
      intro file w₁ hwrite
      simp [step, hwrite] at hstuck
    change PartWriter.copyChunks vol env codec writer (.ok chunk :: input) world = _ at h
    rw [PartWriter.copyChunks] at h
    exact CrashM.mapError_died (hok.mapError.attempt_died (fun e w₁ => by simp [pure]) h)
  | count file => exact absurd hstuck (by simp [step])
  | flush =>
    have hok : (MtpxCore.flush env writer.file).Stuck world := by
      intro u w₁ hflush
      simp [step, hflush] at hstuck
    change (writer.checkpoint vol env codec >>= resume vol env codec input) world = _ at h
    rw [PartWriter.checkpoint, CrashM.bind_assoc] at h
    exact CrashM.mapError_died (hok.mapError.attempt_died
      (fun e w₁ => by simp [bind, CrashM.bind, pure, resume]) h)
  | aside =>
    have hok : (writeFile vol env (localSidecarTmpPath writer.finalPath)
        (codec.encode writer.sidecar)).Stuck world := by
      intro u w₁ hwrite
      simp [step, hwrite] at hstuck
    have hfirst := hok.mapError (g := localIo "write sidecar" (localSidecarTmpPath writer.finalPath))
    -- the second call of the record is not reached
    have hwhole := (hfirst.bind fun _ =>
      CrashM.mapError (localIo "rename sidecar" (localSidecarTmpPath writer.finalPath))
        (rename vol env (localSidecarTmpPath writer.finalPath)
          (localSidecarPath writer.finalPath))).attempt_died
      (fun e w₁ => by simp [noted, resume, pure]) h
    exact CrashM.mapError_died (hfirst.bind_died hwhole)
  | replace =>
    have hok : (rename vol env (localSidecarTmpPath writer.finalPath)
        (localSidecarPath writer.finalPath)).Stuck world := by
      intro u w₁ hrename
      simp [step, hrename] at hstuck
    exact CrashM.mapError_died (hok.mapError.attempt_died
      (fun e w₁ => by simp [noted, resume, pure]) h)
  | mark => exact absurd hstuck (by simp [step])

/-- A step brings the end nearer. -/
theorem step_measure {s s' : CopyState} (h : s.step vol env codec = some s') :
    7 * s'.input.length + s'.phase.left < 7 * s.input.length + s.phase.left := by
  obtain ⟨phase, writer, world, input, chunk, received, flushed, recorded⟩ := s
  cases phase with
  | next =>
    cases input with
    | nil => exact absurd h (by simp [step])
    | cons item input =>
      cases item with
      | error e => exact absurd h (by simp [step])
      | ok chunk =>
        cases h
        simp [CopyPhase.left]
        omega
  | count file =>
    cases h
    dsimp only
    split
    · simp [CopyPhase.left]
    · simp [CopyPhase.left]
  | mark =>
    cases h
    simp [CopyPhase.left]
  | _ =>
    simp only [step] at h
    split at h
    · cases h
      simp [CopyPhase.left]
    · exact absurd h (by simp)

theorem exists_stuck (s : CopyState) :
    ∃ s', Reaches vol env codec s s' ∧ s'.step vol env codec = none := by
  induction hn : 7 * s.input.length + s.phase.left using Nat.strong_induction_on generalizing s with
  | _ n ih =>
    cases h : s.step vol env codec with
    | none => exact ⟨s, .refl, h⟩
    | some next =>
      obtain ⟨s', hreach, hstuck⟩ := ih _ (hn ▸ step_measure h) next rfl
      exact ⟨s', .head h hreach, hstuck⟩

/-- The program goes through the states of the loop, up to one that has no next step, and ends
as the program ends from there. -/
theorem copyChunks_steps (writer : PartWriter) (input : ByteStream) (w : World) :
    ∃ s, Reaches vol env codec (start writer w input) s ∧ s.step vol env codec = none ∧
      writer.copyChunks vol env codec input w = s.rest vol env codec s.world := by
  obtain ⟨s, hreach, hstuck⟩ := exists_stuck (start writer w input)
  exact ⟨s, hreach, hstuck, rest_reaches hreach⟩

/-- A kill of the program is a kill of the call that one of its states stands before. -/
theorem copyChunks_died {writer : PartWriter} {input : ByteStream} {w w' : World}
    (h : writer.copyChunks vol env codec input w = (.died, w')) :
    ∃ s, Reaches vol env codec (start writer w input) s ∧ s.Dies vol env codec w' := by
  obtain ⟨s, hreach, hstuck, hrun⟩ := copyChunks_steps writer input w
  exact ⟨s, hreach, rest_died hstuck (hrun.symm.trans h)⟩

end CopyState

end MtpxCore
