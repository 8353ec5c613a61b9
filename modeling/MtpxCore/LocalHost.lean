import MtpxCore.PullReplays

/-! The local endpoint as the destination of an executor. In weather that kills nothing, every
program of the endpoint returns or fails, and so its answers are those the executor gets. -/
namespace MtpxCore

open CrashHoare CrashM

/-- No call is where the process is killed. -/
def Calm (env : Weather) : Prop := ∀ i n, env i ≠ .die n

section Calls

variable {vol : Volume} {env : Weather} {codec : SidecarCodec} {finalPath : List OsName}
  (hcalm : Calm env)
include hcalm

theorem perform_survives {α : Type} {op : Op} {path : List OsName}
    {act : LocalTree → Except IoErrorKind (α × LocalTree)} {torn : ℕ → LocalTree → LocalTree} :
    (perform env op path act torn).Survives := by
  intro w
  unfold perform
  split
  · rename_i n hdie
    exact absurd hdie (hcalm _ _)
  · simp
  · split <;> simp

theorem removeIfPresent_survives {path : List OsName} : (removeIfPresent vol env path).Survives := by
  refine (perform_survives hcalm).attempt.bind fun r => ?_
  cases r with
  | ok u => exact .pure _
  | error kind =>
    cases kind with
    | notFound => exact .pure _
    | _ => exact .fail _

theorem removeSidecar_survives : (removeSidecar vol env finalPath).Survives :=
  (removeIfPresent_survives hcalm).bind fun _ => removeIfPresent_survives hcalm

theorem removePartial_survives : (removePartial vol env finalPath).Survives :=
  (removeIfPresent_survives hcalm).bind fun _ => removeSidecar_survives hcalm

theorem writeSidecar_survives {sidecar : Sidecar} :
    (writeSidecar vol env codec finalPath sidecar).Survives :=
  (Survives.mapError (perform_survives hcalm)).bind fun _ => Survives.mapError (perform_survives hcalm)

theorem refuseDirectory_survives : (refuseDirectory vol env finalPath).Survives := by
  refine (perform_survives hcalm).attempt.bind fun r => ?_
  cases r with
  | ok m =>
    dsimp only
    split
    · exact .fail _
    · exact .pure _
  | error kind =>
    cases kind with
    | notFound => exact .pure _
    | _ => exact .fail _

theorem effectiveResume_survives {part : List OsName} {requested : ℕ} :
    (effectiveResume vol env part requested).Survives := by
  unfold effectiveResume
  split
  · exact .pure _
  · refine (perform_survives hcalm).attempt.bind fun r => ?_
    cases r with
    | ok m => exact .pure _
    | error kind =>
      cases kind with
      | notFound => exact .pure _
      | _ => exact .fail _

theorem openPart_survives {part : List OsName} {resumeFrom : ℕ} :
    (openPart vol env part resumeFrom).Survives := by
  have hopen (path : List OsName) : (openWrite vol env path).Survives := fun w =>
    perform_survives hcalm { w with pending := none }
  have hcreate (path : List OsName) : (createFile vol env path).Survives := fun w =>
    perform_survives hcalm { w with pending := none }
  unfold openPart
  split
  · exact (hcreate part).mapError
  · refine (hopen part).mapError.bind fun file => Survives.bind ?_ fun _ => ?_
    · refine (Survives.mapError (perform_survives hcalm)).bind fun len => ?_
      split
      · exact .pure _
      · exact .fail _
    · exact (Survives.mapError (perform_survives hcalm)).bind fun _ =>
        Survives.mapError (perform_survives hcalm)

theorem flush_survives {file : File} : (MtpxCore.flush env file).Survives := by
  intro w
  unfold MtpxCore.flush
  split
  · simp
  · exact perform_survives hcalm w

theorem writeAll_survives {file : File} {chunk : Bytes} : (writeAll vol env file chunk).Survives := by
  intro w
  unfold writeAll
  split
  · simp
  · split
    · simp
    · exact perform_survives hcalm w

theorem keepPartial_survives {sidecar : Sidecar} {error : Error} :
    (keepPartial vol env codec finalPath sidecar error).Survives :=
  (writeSidecar_survives hcalm).attempt.bind fun _ => .fail _

theorem discardPartial_survives {error : Error} : (discardPartial vol env finalPath error).Survives :=
  (removePartial_survives hcalm).attempt.bind fun _ => .fail _

theorem commit_survives {file : File} {part : List OsName} :
    (commit vol env file part finalPath).Survives := by
  refine (Survives.mapError (perform_survives hcalm)).bind fun _ => ?_
  refine (Survives.mapError (perform_survives hcalm)).bind fun _ => ?_
  exact (removeSidecar_survives hcalm).attempt.bind fun _ => .pure _

end Calls

section Programs

variable {vol : Volume} {env : Weather} {codec : SidecarCodec} {peer : Identity} (hcalm : Calm env)
include hcalm

theorem checkpoint_survives {writer : PartWriter} : (writer.checkpoint vol env codec).Survives := by
  refine (Survives.mapError (flush_survives hcalm)).attempt.bind fun flushed => ?_
  cases flushed with
  | error e => exact .pure _
  | ok u =>
    refine (writeSidecar_survives hcalm).attempt.bind fun written => ?_
    cases written <;> exact .pure _

theorem copyChunks_survives {input : ByteStream} {writer : PartWriter} :
    (writer.copyChunks vol env codec input).Survives := by
  induction input generalizing writer with
  | nil => exact .pure _
  | cons item input ih =>
    cases item with
    | error e => exact .pure _
    | ok chunk =>
      refine (Survives.mapError (writeAll_survives hcalm)).attempt.bind fun r => ?_
      cases r with
      | error e => exact .pure _
      | ok file =>
        dsimp only
        split
        · refine (checkpoint_survives hcalm).bind fun checked => ?_
          obtain ⟨writer', outcome⟩ := checked
          cases outcome with
          | error e => exact .pure _
          | ok u => exact ih
        · exact ih

theorem pump_survives {input : ByteStream} {writer : PartWriter} :
    (writer.pump vol env codec input).Survives := by
  refine (copyChunks_survives hcalm).bind fun copied => ?_
  refine (Survives.mapError (flush_survives hcalm)).attempt.bind fun flushed => ?_
  refine Survives.bind ?_ fun bytes => .pure _
  refine (perform_survives hcalm).attempt.bind fun r => ?_
  cases r <;> exact .pure _

theorem stop_survives {writer : PartWriter} {error : Error} :
    (writer.stop vol env codec error).Survives := by
  unfold PartWriter.stop
  split
  · exact keepPartial_survives hcalm
  · exact discardPartial_survives hcalm

theorem transfer_survives {writer : PartWriter} {request : WriteRequest} {input : ByteStream} :
    (writer.transfer vol env codec request input).Survives := by
  refine (pump_survives hcalm).bind fun pumped => ?_
  obtain ⟨writer', outcome⟩ := pumped
  cases outcome with
  | error e => exact stop_survives hcalm
  | ok u =>
    dsimp only
    split
    · exact stop_survives hcalm
    · refine (commit_survives hcalm).attempt.bind fun r => ?_
      cases r with
      | ok u => exact .pure _
      | error e => exact keepPartial_survives hcalm

theorem write_survives {request : WriteRequest} {input : ByteStream} :
    (LocalEndpoint.write vol env codec peer request input).Survives := by
  refine Survives.bind ?_ fun writer => transfer_survives hcalm
  refine (refuseDirectory_survives hcalm).bind fun _ => ?_
  refine (Survives.mapError (perform_survives hcalm)).bind fun _ => ?_
  refine (effectiveResume_survives hcalm).bind fun bytes => ?_
  have hopen : (do
      let file ← openPart vol env (localPartPath request.path.toLocalPath) bytes
      pure (⟨file, localPartPath request.path.toLocalPath, request.path.toLocalPath,
        { sidecarFor peer request with bytes := bytes },
        decide (bytes = (sidecarFor peer request).bytes), bytes⟩ : PartWriter)).Survives :=
    (openPart_survives hcalm).bind fun _ => .pure _
  dsimp only
  split
  · exact (removeSidecar_survives hcalm).bind fun _ => hopen
  · exact hopen

end Programs

/-- The end of a program that was not killed, as an answer. -/
def answerOf {α : Type} : Outcome Error α → Except Error α
  | .ok a => .ok a
  | .err e => .error e
  | .died => .error .cancelled

section Host

variable {τ : Type} (vol : Volume) (env : Weather) (codec : SidecarCodec) (peer : Identity)
  (taken : WriteRequest → ByteStream → World → ℕ)

/-- A program of the volume, in a world that is more than the volume. -/
def hosted {α : Type} (m : Local α) (s : World × τ) : Except Error α × (World × τ) :=
  (answerOf (m s.1).1, (m s.1).2, s.2)

/-- The local endpoint. A pull does not read from it; how much of a stream a write takes is for
the events only. -/
def LocalEndpoint.host : Endpoint (World × τ) where
  resumeOffset path requested s := hosted (LocalEndpoint.resumeOffset vol env path requested) s
  read _ _ s := (.error .cancelled, s)
  write request input s :=
    ((hosted (LocalEndpoint.write vol env codec peer request input) s).1, taken request input s.1,
      (hosted (LocalEndpoint.write vol env codec peer request input) s).2)
  mkdir path s := hosted (LocalEndpoint.mkdir vol env path) s

theorem hosted_answers {α : Type} {m : Local α} (h : m.Survives) (s : World × τ) :
    Answers m s.1.tree (hosted m s).2.1.tree (hosted m s).1 := by
  refine ⟨s.1, (m s.1).2, rfl, rfl, ?_⟩
  have hm := h s.1
  rw [hosted]
  cases hr : m s.1 with
  | mk o w' =>
    rw [hr] at hm
    cases o with
    | ok a => rfl
    | err e => rfl
    | died => exact absurd rfl hm

variable {env}

/-- An executor whose other parts leave the volume alone runs on it. -/
theorem host_onVolume (hcalm : Calm env) {ex : Executor (World × τ)} {device : Endpoint (World × τ)}
    (hdeliver : ∀ e s, (ex.deliver e s).1 = s.1) (hsleep : ∀ d s, (ex.sleep d s).1 = s.1)
    (hread : ∀ path offset s, (device.read path offset s).2.1 = s.1) :
    OnVolume vol codec peer ex device (LocalEndpoint.host vol env codec peer taken)
      (fun s => s.1.tree) where
  deliver e s := congrArg World.tree (hdeliver e s)
  sleep d s := congrArg World.tree (hsleep d s)
  read path offset s := congrArg World.tree (hread path offset s)
  resumeOffset _ _ s := ⟨env, hosted_answers (effectiveResume_survives hcalm) s⟩
  write _ _ s := ⟨env, hosted_answers (write_survives hcalm) s⟩
  mkdir _ s := ⟨env, hosted_answers (Survives.mapError (perform_survives hcalm)) s⟩

end Host

end MtpxCore
