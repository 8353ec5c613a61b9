import MtpxCore.PartWriterSpecs

/-! The pump: chunks go to the part until the stream ends or something fails, with the record
rewritten now and then. What is on the part is always a prefix of what was handed over, and it
is all of it unless a failure is still owed. -/
namespace MtpxCore

open CrashHoare

/-- The bytes of a stream up to its first error. -/
def okBytes : ByteStream → Bytes
  | [] => []
  | .error _ :: _ => []
  | .ok chunk :: input => chunk ++ okBytes input

theorem okBytes_ok (chunks : List Bytes) : okBytes (chunks.map .ok) = chunks.flatten := by
  induction chunks with
  | nil => rfl
  | cons chunk chunks ih => rw [List.map_cons, okBytes, ih, List.flatten_cons]

/-- At most one call of a run fails. -/
def AtMostOneFault (env : Weather) : Prop := ∃ m, ∀ i, i ≠ m → env i = .none

/-- What stays fixed while a write pumps: the bytes that were on the part when it was opened,
the record as planned, and the record that was on disk. -/
structure Writing where
  vol : Volume
  codec : SidecarCodec
  finalPath : List OsName
  injective : Function.Injective (cellKey vol finalPath)
  disk : Disk
  final : Option Obj
  pre : Bytes
  readable : Bool
  sidecar : Sidecar
  resumable : Bool
  side : Option Obj

namespace Writing

variable (x : Writing) (env : Weather)

def cells (landed : Bytes) (s t : Option Obj) : Cells :=
  Cells.of x.final (some (.file (x.pre ++ landed) x.readable)) s t

/-- The record is the one that was there, or one of this write. -/
def Recorded (s : Option Obj) : Prop :=
  s = x.side ∨ x.resumable = true ∧
    ∃ b readable, s = some (.file (x.codec.encode { x.sidecar with bytes := b }) readable)

/-- The part holds what it held and `landed`. -/
def Growing (landed : Bytes) (pending : Option IoErrorKind) (n : ℕ) (w : World) : Prop :=
  ∃ s t, x.Recorded s ∧ Holds x.vol x.finalPath x.disk (x.cells landed s t) pending n w

/-- Everything handed over has landed, or the open file owes a failure. -/
def OnCourse (handed : Bytes) (w : World) : Prop :=
  (∃ n, x.Growing handed none n w) ∨
    ∃ landed kind i, landed <+: handed ∧ env i ≠ .none ∧ x.Growing landed (some kind) (i + 1) w

/-- Part of `total` has landed, and no less than what was handed over unless a call failed. -/
def Stopped (total handed : Bytes) (w : World) : Prop :=
  ∃ landed pending n, landed <+: total ∧ x.Growing landed pending n w ∧
    (handed.length ≤ landed.length ∨ ∃ i < n, env i ≠ .none)

/-- What a kill leaves: part of `total`, and a record of this write or the one before. -/
def Torn (total : Bytes) (w : World) : Prop :=
  ∃ landed s t, landed <+: total ∧ x.Recorded s ∧
    OnDisk x.vol x.finalPath x.disk (x.cells landed s t) w

/-- The writer when `handed` has been handed over. -/
structure WriterAt (handed : Bytes) (writer : PartWriter) : Prop where
  file : writer.file = ⟨localPartPath x.finalPath, (x.pre ++ handed).length⟩
  part : writer.part = localPartPath x.finalPath
  finalPath : writer.finalPath = x.finalPath
  sidecar : writer.sidecar = { x.sidecar with bytes := (x.pre ++ handed).length }
  resumable : writer.resumable = x.resumable

variable {x env}

theorem Growing.torn {landed total : Bytes} {pending : Option IoErrorKind} {n : ℕ} {w : World}
    (h : x.Growing landed pending n w) (hp : landed <+: total) : x.Torn total w := by
  obtain ⟨s, t, hs, hw⟩ := h
  exact ⟨landed, s, t, hp, hs, hw.1⟩

theorem Torn.mono {a b : Bytes} {w : World} (h : x.Torn a w) (hab : a <+: b) : x.Torn b w := by
  obtain ⟨landed, s, t, hp, hrest⟩ := h
  exact ⟨landed, s, t, hp.trans hab, hrest⟩

theorem Stopped.mono {a b handed : Bytes} {w : World} (h : x.Stopped env a handed w)
    (hab : a <+: b) : x.Stopped env b handed w := by
  obtain ⟨landed, pending, n, hp, hrest⟩ := h
  exact ⟨landed, pending, n, hp.trans hab, hrest⟩

theorem OnCourse.stopped {handed total : Bytes} {w : World} (h : x.OnCourse env handed w)
    (hp : handed <+: total) : x.Stopped env total handed w := by
  rcases h with ⟨n, h⟩ | ⟨landed, kind, i, hl, hi, h⟩
  · exact ⟨handed, none, n, hp, h, Or.inl le_rfl⟩
  · exact ⟨landed, some kind, i + 1, hl.trans hp, h, Or.inr ⟨i, Nat.lt_succ_self i, hi⟩⟩

/-- One chunk. -/
theorem writeAll_step {handed chunk : Bytes} :
    Triple (x.OnCourse env handed)
      (writeAll x.vol env ⟨localPartPath x.finalPath, (x.pre ++ handed).length⟩ chunk)
      ⟨fun file w => file = ⟨localPartPath x.finalPath, (x.pre ++ (handed ++ chunk)).length⟩ ∧
          x.OnCourse env (handed ++ chunk) w,
        fun _ w => x.Stopped env (handed ++ chunk) handed w, x.Torn (handed ++ chunk)⟩ := by
  have hpre : handed <+: handed ++ chunk := List.prefix_append _ _
  -- a write that fails has put down a first piece of the chunk
  have htake (m : ℕ) : handed ++ chunk.take m <+: handed ++ chunk :=
    (List.prefix_append_right_inj handed).mpr (List.take_prefix m chunk)
  have hcells (s t : Option Obj) (part : Bytes) :
      Function.update (x.cells handed s t) .part
        (some (.file (x.pre ++ handed ++ part) x.readable)) = x.cells (handed ++ part) s t := by
    rw [cells, Cells.update_part, cells, List.append_assoc]
  apply Triple.or
  · apply Triple.exists
    intro n
    apply Triple.exists
    intro s
    apply Triple.exists
    intro t
    refine Triple.weaken (Triple.given fun hs : x.Recorded s => ?_) (fun w h => ⟨h.2, h.1⟩)
      ⟨fun _ _ h => h, fun _ _ h => h, fun _ h => h⟩
    have hc : x.cells handed s t .part = some (.file (x.pre ++ handed) x.readable) := rfl
    refine (writeAll_triple x.injective hc).weaken (fun _ h => h) ⟨?_, ?_, ?_⟩
    · intro file w h
      obtain ⟨hfile, hland⟩ := h
      refine ⟨?_, ?_⟩
      · have hlen : (x.pre ++ (handed ++ chunk)).length = (x.pre ++ handed).length + chunk.length := by
          simp [Nat.add_assoc]
        rw [hfile, hlen]
        rfl
      · -- all of it is down, or less, with the failure still to be told
        rcases hland with hw | ⟨m, i, kind, hw, hi⟩
        · rw [hcells] at hw
          exact Or.inl ⟨n, s, t, hs, hw⟩
        · rw [hcells] at hw
          exact Or.inr ⟨_, kind, i, htake m, hi, s, t, hs, hw⟩
    · intro e w h
      obtain ⟨m, hw⟩ := h
      rw [hcells] at hw
      refine ⟨_, none, n, htake m, ⟨s, t, hs, hw⟩, Or.inl ?_⟩
      rw [List.length_append]
      exact Nat.le_add_right _ _
    · intro w h
      obtain ⟨m, hw⟩ := h
      rw [hcells] at hw
      exact ⟨_, s, t, htake m, hs, hw⟩
  · -- an owed failure is told, and nothing is written
    intro w hw
    obtain ⟨landed, kind, i, hl, hi, s, t, hs, hw⟩ := hw
    refine writeAll_owed.weaken (fun _ h => h) ⟨fun _ _ h => h.elim, ?_, ?_⟩ w hw
    · intro e w h
      exact ⟨landed, none, i + 1, hl.trans hpre, ⟨s, t, hs, h⟩,
        Or.inr ⟨i, Nat.lt_succ_self i, hi⟩⟩
    · intro w h
      exact ⟨landed, s, t, hl.trans hpre, hs, h⟩

theorem flush_step {handed : Bytes} {writer : PartWriter} :
    Triple (x.OnCourse env handed) (writer.flush env)
      ⟨fun r w => match r with
          | .ok () => ∃ n, x.Growing handed none n w
          | .error _ => x.Stopped env handed handed w,
        fun _ _ => False, x.Torn handed⟩ := by
  unfold PartWriter.flush
  apply Triple.or
  · apply Triple.exists
    intro n
    apply Triple.exists
    intro s
    apply Triple.exists
    intro t
    refine Triple.weaken (Triple.given fun hs : x.Recorded s => ?_) (fun w h => ⟨h.2, h.1⟩)
      ⟨fun _ _ h => h, fun _ _ h => h, fun _ h => h⟩
    refine flush_triple.mapError.attempt.weaken (fun _ h => h) ⟨?_, fun _ _ h => h.elim, ?_⟩
    · intro r w h
      cases r with
      | ok u => exact ⟨n, s, t, hs, h.1⟩
      | error e =>
        obtain ⟨kind, -, hw⟩ := h
        exact ⟨handed, none, n, List.prefix_rfl, ⟨s, t, hs, hw⟩, Or.inl le_rfl⟩
    · intro w h
      exact ⟨handed, s, t, List.prefix_rfl, hs, h⟩
  · -- the flush tells the failure that was owed
    intro w hw
    obtain ⟨landed, kind, i, hl, hi, s, t, hs, hw⟩ := hw
    refine flush_triple.mapError.attempt.weaken (fun _ h => h) ⟨?_, fun _ _ h => h.elim, ?_⟩ w hw
    · intro r w h
      cases r with
      | ok u => exact absurd h.2 (by simp)
      | error e =>
        obtain ⟨kind, -, hw⟩ := h
        exact ⟨landed, none, i + 1, hl, ⟨s, t, hs, hw⟩, Or.inr ⟨i, Nat.lt_succ_self i, hi⟩⟩
    · intro w h
      exact ⟨landed, s, t, hl, hs, h⟩

/-- After a failure a flush changes nothing that matters. -/
theorem flush_stopped {total handed : Bytes} {writer : PartWriter} :
    Triple (x.Stopped env total handed) (writer.flush env)
      ⟨fun _ => x.Stopped env total handed, fun _ _ => False, x.Torn total⟩ := by
  intro w hw
  obtain ⟨landed, pending, n, hl, ⟨s, t, hs, hw⟩, hcount⟩ := hw
  refine flush_triple.mapError.attempt.weaken (fun _ h => h) ⟨?_, fun _ _ h => h.elim, ?_⟩ w hw
  · intro r w h
    cases r with
    | ok u => exact ⟨landed, none, n, hl, ⟨s, t, hs, h.1⟩, hcount⟩
    | error e =>
      obtain ⟨kind, -, hw⟩ := h
      exact ⟨landed, none, n, hl, ⟨s, t, hs, hw⟩, hcount⟩
  · intro w h
    exact ⟨landed, s, t, hl, hs, h⟩

/-- Writing the record in mid-stream touches the part in no way. -/
theorem checkpoint_step {handed : Bytes} {writer : PartWriter} (hw : x.WriterAt handed writer)
    (hres : x.resumable = true) :
    Triple (x.OnCourse env handed) (writer.checkpoint x.vol env x.codec)
      ⟨fun r w => x.WriterAt handed r.1 ∧ match r.2 with
          | .ok () => x.OnCourse env handed w
          | .error _ => x.Stopped env handed handed w,
        fun _ _ => False, x.Torn handed⟩ := by
  unfold PartWriter.checkpoint
  refine flush_step.bind (fun r => ?_) (fun _ _ h => h.elim) (fun _ h => h)
  cases r with
  | error e => exact Triple.pure (fun w h => ⟨hw, h⟩)
  | ok u =>
    apply Triple.exists
    intro n
    apply Triple.exists
    intro s
    apply Triple.exists
    intro t
    refine Triple.weaken (Triple.given fun hs : x.Recorded s => ?_) (fun w h => ⟨h.2, h.1⟩)
      ⟨fun _ _ h => h, fun _ _ h => h, fun _ h => h⟩
    -- what is written is a record of this object, whoever may read it
    have hside : x.Recorded (some (.file (x.codec.encode writer.sidecar) true)) ∧
        ∀ readable, x.Recorded (some (.file (x.codec.encode writer.sidecar) readable)) := by
      rw [hw.sidecar]
      exact ⟨Or.inr ⟨hres, _, _, rfl⟩, fun readable => Or.inr ⟨hres, _, _, rfl⟩⟩
    rw [hw.finalPath]
    refine ((writeSidecar_triple x.injective).attempt).bind (fun r => ?_) (fun _ _ h => h.elim) ?_
    · cases r with
      | error e =>
        apply Triple.pure
        intro w h
        obtain ⟨⟨t', ht⟩, -⟩ := h
        exact ⟨hw, handed, none, n, List.prefix_rfl, ⟨s, t', hs, ht⟩, Or.inl le_rfl⟩
      | ok u =>
        apply Triple.pure
        intro w h
        obtain ⟨⟨readable, hd⟩, -⟩ := h
        refine ⟨⟨hw.file, hw.part, rfl, hw.sidecar, hw.resumable⟩, Or.inl ⟨n, ?_⟩⟩
        exact ⟨_, none, hside.2 readable, hd⟩
    · intro w h
      obtain ⟨t', ht⟩ := h
      exact ⟨handed, s, t', List.prefix_rfl, hs, ht⟩

/-- The loop, by induction on the stream: `total` is what was handed over and what the stream
still has before its first error. -/
theorem copyChunks_triple (total : Bytes) (input : ByteStream) {handed : Bytes} {writer : PartWriter}
    (hw : x.WriterAt handed writer) (htotal : handed ++ okBytes input = total) :
    Triple (x.OnCourse env handed) (writer.copyChunks x.vol env x.codec input)
      ⟨fun r w => ∃ handed', x.WriterAt handed' r.1 ∧ match r.2 with
          | .ok () => (∃ chunks : List Bytes, input = chunks.map .ok) ∧ handed' = total ∧ x.OnCourse env total w
          | .error _ => x.Stopped env total handed' w,
        fun _ _ => False, x.Torn total⟩ := by
  have hpre : handed <+: total := ⟨okBytes input, htotal⟩
  induction input generalizing handed writer with
  | nil =>
    apply Triple.pure
    intro w h
    rw [okBytes, List.append_nil] at htotal
    subst htotal
    exact ⟨handed, hw, ⟨[], rfl⟩, rfl, h⟩
  | cons item input ih =>
    cases item with
    | error e =>
      apply Triple.pure
      intro w h
      exact ⟨handed, hw, h.stopped hpre⟩
    | ok chunk =>
      rw [okBytes, ← List.append_assoc] at htotal
      have hchunk : handed ++ chunk <+: total := ⟨okBytes input, htotal⟩
      unfold PartWriter.copyChunks
      rw [hw.file]
      refine (writeAll_step.mapError.attempt).bind (fun r => ?_) (fun _ _ h => h.elim)
        (fun w h => h.mono hchunk)
      cases r with
      | error e =>
        -- part of the chunk may be on disk, but the writer still counts `handed`
        apply Triple.pure
        intro w h
        obtain ⟨kind, -, hstop⟩ := h
        exact ⟨handed, hw, hstop.mono hchunk⟩
      | ok file =>
        refine Triple.weaken (P := fun w => x.OnCourse env (handed ++ chunk) w ∧
          file = ⟨localPartPath x.finalPath, (x.pre ++ (handed ++ chunk)).length⟩)
          (Triple.given fun hfile => ?_) (fun w h => ⟨h.2, h.1⟩)
          ⟨fun _ _ h => h, fun _ _ h => h, fun _ h => h⟩
        have hcount : x.WriterAt (handed ++ chunk) (writer.countChunk file chunk) := by
          refine ⟨hfile, hw.part, hw.finalPath, ?_, hw.resumable⟩
          rw [PartWriter.countChunk, hw.sidecar]
          simp [Nat.add_assoc]
        -- what the rest of the stream does, given the rest of the loop
        have hrest (writer' : PartWriter) (hw' : x.WriterAt (handed ++ chunk) writer') :
            Triple (x.OnCourse env (handed ++ chunk)) (writer'.copyChunks x.vol env x.codec input)
              ⟨fun r w => ∃ handed', x.WriterAt handed' r.1 ∧ match r.2 with
                  | .ok () => (∃ chunks : List Bytes, .ok chunk :: input = chunks.map .ok) ∧ handed' = total ∧
                      x.OnCourse env total w
                  | .error _ => x.Stopped env total handed' w,
                fun _ _ => False, x.Torn total⟩ := by
          refine (ih hw' htotal hchunk).weaken (fun _ h => h) ⟨?_, fun _ _ h => h, fun _ h => h⟩
          rintro ⟨writer'', result⟩ w ⟨handed', hw'', h⟩
          refine ⟨handed', hw'', ?_⟩
          cases result with
          | error e => exact h
          | ok u =>
            obtain ⟨⟨chunks, rfl⟩, hh, hc⟩ := h
            exact ⟨⟨chunk :: chunks, rfl⟩, hh, hc⟩
        dsimp only
        split
        · rename_i hdue
          -- only a write that can be resumed is ever due
          have hres : x.resumable = true := by
            rw [← hcount.resumable]
            rw [PartWriter.isDue, Bool.and_eq_true] at hdue
            exact hdue.1
          refine (checkpoint_step hcount hres).bind ?_ (fun _ _ h => h.elim)
            (fun w h => h.mono hchunk)
          rintro ⟨writer', result⟩
          refine Triple.weaken (P := fun w => (match result with
            | .ok () => x.OnCourse env (handed ++ chunk) w
            | .error _ => x.Stopped env (handed ++ chunk) (handed ++ chunk) w) ∧
              x.WriterAt (handed ++ chunk) writer') (Triple.given fun hw' => ?_)
            (by cases result <;> exact fun w h => ⟨h.2, h.1⟩) ⟨fun _ _ h => h, fun _ _ h => h, fun _ h => h⟩
          cases result with
          | error e => exact Triple.pure (fun w h => ⟨_, hw', h.mono hchunk⟩)
          | ok u => exact hrest writer' hw'
        · exact hrest _ hcount

/-- The length on disk, cut to what was handed over; the count itself if it cannot be read. -/
theorem landed_step {landed handed : Bytes} {writer : PartWriter} (hw : x.WriterAt handed writer)
    {pending : Option IoErrorKind} {n : ℕ} :
    Triple (x.Growing landed pending n) (writer.landed x.vol env)
      ⟨fun b w => x.Growing landed pending n w ∧
          (b = min (x.pre ++ handed).length (x.pre ++ landed).length ∨
            b = (x.pre ++ handed).length ∧ ∃ m, n ≤ m ∧ env m ≠ .none),
        fun _ _ => False, x.Torn landed⟩ := by
  unfold PartWriter.landed
  apply Triple.exists
  intro s
  apply Triple.exists
  intro t
  refine Triple.weaken (Triple.given fun hs : x.Recorded s => ?_) (fun w h => ⟨h.2, h.1⟩)
    ⟨fun _ _ h => h, fun _ _ h => h, fun _ h => h⟩
  have hc : x.cells landed s t .part = some (.file (x.pre ++ landed) x.readable) := rfl
  rw [hw.file, hw.sidecar]
  refine (fileLen_triple x.injective hc).attempt.bind (fun r => ?_) (fun _ _ h => h.elim)
    (fun w h => ⟨landed, s, t, List.prefix_rfl, hs, h⟩)
  cases r with
  | ok len =>
    apply Triple.pure
    intro w h
    obtain ⟨h, rfl⟩ := h
    exact ⟨⟨s, t, hs, h⟩, Or.inl rfl⟩
  | error kind =>
    apply Triple.pure
    intro w h
    exact ⟨⟨s, t, hs, h.1⟩, Or.inr ⟨rfl, h.2⟩⟩

/-- The writer when it has counted `b` bytes and no more will come. -/
structure Counted (x : Writing) (b : ℕ) (writer : PartWriter) : Prop where
  part : writer.part = localPartPath x.finalPath
  finalPath : writer.finalPath = x.finalPath
  sidecar : writer.sidecar = { x.sidecar with bytes := b }
  resumable : writer.resumable = x.resumable

/-- `bytes` are counted no further than the part goes. -/
theorem counted_le {handed landed : Bytes} {n b : ℕ} (hone : AtMostOneFault env)
    (hstop : handed.length ≤ landed.length ∨ ∃ i < n, env i ≠ .none)
    (hb : b = min (x.pre ++ handed).length (x.pre ++ landed).length ∨
      b = (x.pre ++ handed).length ∧ ∃ m, n ≤ m ∧ env m ≠ .none) :
    b ≤ (x.pre ++ landed).length := by
  rcases hb with rfl | ⟨rfl, m, hm, hfault⟩
  · exact Nat.min_le_right _ _
  · rw [List.length_append, List.length_append]
    rcases hstop with hle | ⟨i, hi, hfault'⟩
    · omega
    · -- the failure that lost bytes is the only one, so the length could be read
      obtain ⟨k, hk⟩ := hone
      have hik : i = k := by_contra fun hne => hfault' (hk i hne)
      have hmk : m = k := by_contra fun hne => hfault (hk m hne)
      omega

/-- What the pump leaves, with `b` the bytes it counts. -/
def Pumped (x : Writing) (env : Weather) (input : ByteStream) (r : PartWriter × Except Error Unit)
    (w : World) : Prop :=
  ∃ b, x.Counted b r.1 ∧ match r.2 with
    | .ok () => (∃ chunks : List Bytes, input = chunks.map .ok) ∧
        b = (x.pre ++ okBytes input).length ∧ ∃ n, x.Growing (okBytes input) none n w
    | .error _ => ∃ landed pending n, landed <+: okBytes input ∧ x.Growing landed pending n w ∧
        (AtMostOneFault env → b ≤ (x.pre ++ landed).length)

theorem pump_triple {input : ByteStream} {writer : PartWriter} (hw : x.WriterAt [] writer) :
    Triple (x.Growing [] none 0) (writer.pump x.vol env x.codec input)
      ⟨x.Pumped env input, fun _ _ => False, x.Torn (okBytes input)⟩ := by
  unfold PartWriter.pump
  refine Triple.bind (Triple.weaken (copyChunks_triple (okBytes input) input hw rfl)
    (fun w h => Or.inl ⟨0, h⟩) ⟨fun _ _ h => h, fun _ _ h => h, fun _ h => h⟩) ?_
    (fun _ _ h => h.elim) (fun _ h => h)
  rintro ⟨writer', copied⟩
  apply Triple.exists
  intro handed
  refine Triple.weaken (P := fun w => (match copied with
      | .ok () => (∃ chunks : List Bytes, input = chunks.map .ok) ∧ handed = okBytes input ∧
          x.OnCourse env (okBytes input) w
      | .error _ => x.Stopped env (okBytes input) handed w) ∧ x.WriterAt handed writer')
    (Triple.given fun hw' => ?_) (by cases copied <;> exact fun w h => ⟨h.2, h.1⟩)
    ⟨fun _ _ h => h, fun _ _ h => h, fun _ h => h⟩
  -- an error is told once a flush and a count have gone by, whatever they bring
  have herror (e : Error) : Triple (x.Stopped env (okBytes input) handed)
      (do
        let bytes ← writer'.landed x.vol env
        pure ({ writer' with sidecar := { writer'.sidecar with bytes := bytes } }, .error e))
      ⟨x.Pumped env input, fun _ _ => False, x.Torn (okBytes input)⟩ := by
    apply Triple.exists
    intro landed
    apply Triple.exists
    intro pending
    apply Triple.exists
    intro n
    refine Triple.weaken (P := fun w => x.Growing landed pending n w ∧ (landed <+: okBytes input ∧
      (handed.length ≤ landed.length ∨ ∃ i < n, env i ≠ .none))) (Triple.given fun hg => ?_)
      (fun w h => ⟨h.2.1, h.1, h.2.2⟩) ⟨fun _ _ h => h, fun _ _ h => h, fun _ h => h⟩
    obtain ⟨hp, hstop⟩ := hg
    refine (landed_step hw').bind (fun b => ?_) (fun _ _ h => h.elim) (fun w h => h.mono hp)
    apply Triple.pure
    intro w h
    refine ⟨b, ⟨hw'.part, hw'.finalPath, ?_, hw'.resumable⟩, landed, pending, n, hp, h.1,
      fun hone => counted_le hone hstop h.2⟩
    rw [hw'.sidecar]
  cases copied with
  | error e =>
    refine flush_stopped.bind (fun flushed => ?_) (fun _ _ h => h.elim) (fun _ h => h)
    exact herror e
  | ok u =>
    refine Triple.weaken (P := fun w => x.OnCourse env (okBytes input) w ∧
      ((∃ chunks : List Bytes, input = chunks.map .ok) ∧ handed = okBytes input))
      (Triple.given fun hg => ?_) (fun w h => ⟨h.2.2, h.1, h.2.1⟩)
      ⟨fun _ _ h => h, fun _ _ h => h, fun _ h => h⟩
    obtain ⟨hchunks, rfl⟩ := hg
    refine flush_step.bind (fun flushed => ?_) (fun _ _ h => h.elim) (fun _ h => h)
    cases flushed with
    | error e => exact herror e
    | ok u =>
      apply Triple.exists
      intro n
      refine (landed_step hw').bind (fun b => ?_) (fun _ _ h => h.elim) (fun w h => h)
      apply Triple.pure
      intro w h
      have hb : b = (x.pre ++ okBytes input).length := by
        rcases h.2 with hmin | ⟨hcount, -⟩
        · rw [hmin, Nat.min_self]
        · exact hcount
      refine ⟨b, ⟨hw'.part, hw'.finalPath, ?_, hw'.resumable⟩, hchunks, hb, n, h.1⟩
      rw [hw'.sidecar]

end Writing

end MtpxCore
