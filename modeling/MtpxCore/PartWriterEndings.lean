import MtpxCore.PartWriterPump

/-! How a write ends: the part is committed, kept with a record of what is on it, or dropped
with its record. Only a commit touches the final name. -/
namespace MtpxCore

open CrashHoare

namespace Writing

variable (x : Writing)

/-- The stream ended by itself, at the length that was asked for. -/
def Complete (request : WriteRequest) (input : ByteStream) : Prop :=
  (∃ chunks : List Bytes, input = chunks.map .ok) ∧
    (x.pre ++ okBytes input).length = request.expectedSize

/-- Everything is under the final name, and no part is left. -/
def Committed (total : Bytes) (w : World) : Prop :=
  ∃ s t, (s = none ∨ x.Recorded s) ∧ OnDisk x.vol x.finalPath x.disk
    (Cells.of (some (.file (x.pre ++ total) x.readable)) none s t) w

/-- The part stays, and a record that was written counts `b` bytes of it. -/
def Kept (landed : Bytes) (b : ℕ) (w : World) : Prop :=
  ∃ s t, OnDisk x.vol x.finalPath x.disk (x.cells landed s t) w ∧
    ¬Removed (localSidecarPath x.finalPath) w ∧
    ((x.Recorded s ∧ ¬SidecarWritten x.finalPath w) ∨
      ∃ readable, s = some (.file (x.codec.encode { x.sidecar with bytes := b }) readable))

/-- The part and the record are gone, or a removal failed. -/
def Dropped (landed : Bytes) (w : World) : Prop :=
  ∃ p s t, OnDisk x.vol x.finalPath x.disk (Cells.of x.final p s t) w ∧
    ((p = none ∧ s = none ∧ Removed (localSidecarPath x.finalPath) w) ∨
      ((p = none ∨ p = some (.file (x.pre ++ landed) x.readable)) ∧ x.Recorded s ∧ JustFailed w))

/-- What a kill leaves as long as nothing was committed. -/
def Interrupted (total : Bytes) (w : World) : Prop :=
  ∃ p s t, (p = none ∨ ∃ landed, landed <+: total ∧
      p = some (.file (x.pre ++ landed) x.readable)) ∧ x.Recorded s ∧
    OnDisk x.vol x.finalPath x.disk (Cells.of x.final p s t) w

/-- What is on disk after an error. -/
def Refused (env : Weather) (request : WriteRequest) (input : ByteStream) (w : World) : Prop :=
  ∃ landed b, landed <+: okBytes input ∧
    (((AtMostOneFault env → b ≤ (x.pre ++ landed).length) ∧ x.Kept landed b w ∧
        (x.resumable = true ∨ x.Complete request input ∧ landed = okBytes input)) ∨
      x.resumable = false ∧ x.Dropped landed w)

/-- The three ends of a write whose part was opened. -/
def ended (env : Weather) (request : WriteRequest) (input : ByteStream) : Post World Error Unit where
  ok _ w := x.Complete request input ∧ x.Committed (okBytes input) w
  err _ := x.Refused env request input
  died w := x.Interrupted (okBytes input) w ∨
    x.Complete request input ∧ x.Committed (okBytes input) w

variable {x} {env : Weather} {landed total : Bytes} {pending : Option IoErrorKind} {n b : ℕ}
  {writer : PartWriter} {error : Error}

theorem Torn.interrupted {w : World} (h : x.Torn total w) : x.Interrupted total w := by
  obtain ⟨landed, s, t, hp, hs, hw⟩ := h
  exact ⟨_, s, t, Or.inr ⟨landed, hp, rfl⟩, hs, hw⟩

/-- A removal that succeeded did not just fail. -/
theorem JustFailed.not_removed {path : List OsName} {w : World} (h : JustFailed w) :
    ¬Removed path w := by
  obtain ⟨op, path', kind, hkind, htrace⟩ := h
  rintro ⟨failure, hfailure, htrace'⟩
  cases htrace.symm.trans htrace'
  rcases hfailure with h | h
  · exact absurd h (by simp)
  · exact hkind (Option.some.inj h)

theorem keepPartial_triple (hw : x.Counted b writer) :
    Triple (x.Growing landed pending n)
      (keepPartial x.vol env x.codec writer.finalPath writer.sidecar error)
      ⟨fun _ _ => False, fun _ => x.Kept landed b, x.Torn landed⟩ := by
  apply Triple.exists
  intro s
  apply Triple.exists
  intro t
  refine Triple.weaken (Triple.given fun hs : x.Recorded s => ?_) (fun w h => ⟨h.2, h.1⟩)
    ⟨fun _ _ h => h, fun _ _ h => h, fun _ h => h⟩
  unfold keepPartial
  rw [hw.finalPath, hw.sidecar]
  refine (writeSidecar_triple x.injective).attempt.bind (fun r => ?_) (fun _ _ h => h.elim) ?_
  · cases r with
    | error e =>
      apply Triple.fail
      intro w h
      obtain ⟨⟨t', ht⟩, hwritten, hremoved⟩ := h
      exact ⟨s, t', ht.1, hremoved, Or.inl ⟨hs, hwritten⟩⟩
    | ok u =>
      apply Triple.fail
      intro w h
      obtain ⟨⟨readable, hd⟩, hremoved⟩ := h
      exact ⟨_, none, hd.1, hremoved, Or.inr ⟨readable, rfl⟩⟩
  · intro w h
    obtain ⟨t', ht⟩ := h
    exact ⟨landed, s, t', List.prefix_rfl, hs, ht⟩

theorem discardPartial_triple (hw : x.Counted b writer) :
    Triple (x.Growing landed pending n) (discardPartial x.vol env writer.finalPath error)
      ⟨fun _ _ => False, fun _ => x.Dropped landed, x.Interrupted landed⟩ := by
  apply Triple.exists
  intro s
  apply Triple.exists
  intro t
  refine Triple.weaken (Triple.given fun hs : x.Recorded s => ?_) (fun w h => ⟨h.2, h.1⟩)
    ⟨fun _ _ h => h, fun _ _ h => h, fun _ h => h⟩
  unfold discardPartial
  rw [hw.finalPath]
  refine (removePartial_triple x.injective).attempt.bind (fun r => ?_) (fun _ _ h => h.elim) ?_
  · cases r with
    | error e =>
      apply Triple.fail
      intro w h
      obtain ⟨⟨p', t', hp, hd⟩, hfailed⟩ := h
      exact ⟨p', s, t', hd.1, Or.inr ⟨hp.symm, hs, hfailed⟩⟩
    | ok u =>
      apply Triple.fail
      intro w h
      exact ⟨none, none, none, h.1.1, Or.inl ⟨rfl, rfl, h.2⟩⟩
  · intro w h
    obtain ⟨p', t', hp, hd⟩ := h
    refine ⟨p', s, t', ?_, hs, hd⟩
    rcases hp with rfl | rfl
    · exact Or.inr ⟨landed, List.prefix_rfl, rfl⟩
    · exact Or.inl rfl

/-- A commit moves the part over the final name, or leaves both. -/
theorem commit_triple {file : File} :
    Triple (x.Growing total none n)
      (commit x.vol env file (localPartPath x.finalPath) x.finalPath)
      ⟨fun _ => x.Committed total, fun _ => x.Growing total none n,
        fun w => x.Torn total w ∨ x.Committed total w⟩ := by
  apply Triple.exists
  intro s
  apply Triple.exists
  intro t
  refine Triple.weaken (Triple.given fun hs : x.Recorded s => ?_) (fun w h => ⟨h.2, h.1⟩)
    ⟨fun _ _ h => h, fun _ _ h => h, fun _ h => h⟩
  -- killed before the rename: the part is whole, and the final file as it was
  have htorn (w : World) (h : OnDisk x.vol x.finalPath x.disk (x.cells total s t) w) :
      x.Torn total w ∨ x.Committed total w := Or.inl ⟨total, s, t, List.prefix_rfl, hs, h⟩
  unfold commit
  refine syncAll_triple.mapError.bind (fun u => ?_) ?_ htorn
  · refine (rename_triple x.injective (x := .part) (y := .final)).mapError.bind (fun u => ?_) ?_ htorn
    · refine Triple.weaken (P := Holds x.vol x.finalPath x.disk
        (Cells.of (some (.file (x.pre ++ total) x.readable)) none s t) none n) ?_ ?_
        ⟨fun _ _ h => h, fun _ _ h => h, fun _ h => h⟩
      · -- what becomes of the record no longer matters
        refine (removeSidecar_triple x.injective).attempt.bind (fun r => ?_) (fun _ _ h => h.elim) ?_
        · apply Triple.pure
          intro w h
          cases r with
          | ok u => exact ⟨none, none, Or.inl rfl, h.1.1⟩
          | error e =>
            obtain ⟨⟨t', ht⟩, -⟩ := h
            exact ⟨s, t', Or.inr hs, ht.1⟩
        · intro w h
          obtain ⟨t', ht⟩ := h
          exact Or.inr ⟨s, t', Or.inr hs, ht⟩
      · intro w h
        obtain ⟨⟨obj, hobj, hd⟩, -⟩ := h
        cases hobj
        rw [cells, Cells.update_part, Cells.update_final] at hd
        exact hd
    · intro e w h
      obtain ⟨kind, -, hd, -⟩ := h
      exact ⟨s, t, hs, hd⟩
  · intro e w h
    obtain ⟨kind, -, hd⟩ := h
    exact ⟨s, t, hs, hd⟩

/-- What stops a write is told, after the part was kept or dropped. -/
theorem stop_triple {request : WriteRequest} {input : ByteStream} (hw : x.Counted b writer)
    (hp : landed <+: okBytes input) (hb : AtMostOneFault env → b ≤ (x.pre ++ landed).length) :
    Triple (x.Growing landed pending n) (writer.stop x.vol env x.codec error)
      ⟨fun _ _ => False, fun _ => x.Refused env request input, x.Interrupted (okBytes input)⟩ := by
  unfold PartWriter.stop
  split
  · rename_i hres
    refine (keepPartial_triple hw).weaken (fun _ h => h) ⟨fun _ _ h => h, ?_, ?_⟩
    · intro e w h
      exact ⟨landed, b, hp, Or.inl ⟨hb, h, Or.inl (hw.resumable ▸ hres)⟩⟩
    · intro w h
      exact (h.mono hp).interrupted
  · rename_i hres
    refine (discardPartial_triple hw).weaken (fun _ h => h) ⟨fun _ _ h => h, ?_, ?_⟩
    · intro e w h
      refine ⟨landed, b, hp, Or.inr ⟨?_, h⟩⟩
      rw [← hw.resumable]
      exact Bool.eq_false_iff.mpr hres
    · intro w h
      obtain ⟨p, s, t, hpart, hrest⟩ := h
      refine ⟨p, s, t, hpart.imp id ?_, hrest⟩
      rintro ⟨landed', hl, heq⟩
      exact ⟨landed', hl.trans hp, heq⟩

theorem finish_triple {request : WriteRequest} {input : ByteStream} (hw : x.Counted b writer)
    (hcomplete : x.Complete request input) (hb : b = (x.pre ++ okBytes input).length) :
    Triple (x.Growing (okBytes input) none n) (writer.finish x.vol env x.codec)
      ⟨fun _ => x.Committed (okBytes input), fun _ => x.Refused env request input,
        fun w => x.Interrupted (okBytes input) w ∨ x.Committed (okBytes input) w⟩ := by
  unfold PartWriter.finish
  rw [hw.part]
  nth_rewrite 1 [hw.finalPath]
  refine commit_triple.attempt.bind (fun r => ?_) (fun _ _ h => h.elim)
    (fun w h => h.imp Torn.interrupted id)
  cases r with
  | ok u => exact Triple.pure (fun w h => h)
  | error e =>
    refine (keepPartial_triple hw).weaken (fun _ h => h) ⟨fun _ _ h => h.elim, ?_, ?_⟩
    · intro e w h
      exact ⟨okBytes input, b, List.prefix_rfl, Or.inl ⟨fun _ => hb.le, h, Or.inr ⟨hcomplete, rfl⟩⟩⟩
    · intro w h
      exact Or.inl h.interrupted

/-- Everything after the part was opened. -/
theorem transfer_triple {request : WriteRequest} {input : ByteStream} (hw : x.WriterAt [] writer) :
    Triple (x.Growing [] none 0) (writer.transfer x.vol env x.codec request input)
      (x.ended env request input) := by
  unfold PartWriter.transfer
  refine (pump_triple hw).bind ?_ (fun _ _ h => h.elim) (fun w h => Or.inl h.interrupted)
  rintro ⟨writer', pumped⟩
  apply Triple.exists
  intro b
  refine Triple.weaken (P := fun w => (match pumped with
      | .ok () => (∃ chunks : List Bytes, input = chunks.map .ok) ∧
          b = (x.pre ++ okBytes input).length ∧ ∃ n, x.Growing (okBytes input) none n w
      | .error _ => ∃ landed pending n, landed <+: okBytes input ∧ x.Growing landed pending n w ∧
          (AtMostOneFault env → b ≤ (x.pre ++ landed).length)) ∧ x.Counted b writer')
    (Triple.given fun hw' => ?_) (by cases pumped <;> exact fun w h => ⟨h.2, h.1⟩)
    ⟨fun _ _ h => h, fun _ _ h => h, fun _ h => h⟩
  -- every way out but the commit goes through `stop`
  have hstop (e : Error) {landed : Bytes} {pending : Option IoErrorKind} {n : ℕ}
      (hp : landed <+: okBytes input) (hb : AtMostOneFault env → b ≤ (x.pre ++ landed).length) :
      Triple (x.Growing landed pending n) (writer'.stop x.vol env x.codec e)
        (x.ended env request input) :=
    (stop_triple hw' hp hb).weaken (fun _ h => h)
      ⟨fun _ _ h => h.elim, fun _ _ h => h, fun _ h => Or.inl h⟩
  cases pumped with
  | error e =>
    intro w h
    obtain ⟨landed, pending, n, hp, hgrow, hb⟩ := h
    exact hstop e hp hb w hgrow
  | ok u =>
    intro w h
    obtain ⟨hchunks, hb, n, hgrow⟩ := h
    have hcount : writer'.sidecar.bytes = (x.pre ++ okBytes input).length := by
      rw [hw'.sidecar]
      exact hb
    dsimp only
    by_cases hsize : writer'.sidecar.bytes = request.expectedSize
    · have hcomplete : x.Complete request input := ⟨hchunks, hcount.symm.trans hsize⟩
      rw [PartWriter.expectLength, if_pos hsize]
      have hfinish : Triple (x.Growing (okBytes input) none n) (writer'.finish x.vol env x.codec)
          (x.ended env request input) :=
        (finish_triple hw' hcomplete hb).weaken (fun _ h => h)
          ⟨fun _ _ h => ⟨hcomplete, h⟩, fun _ _ h => h, fun _ h => h.imp id fun h => ⟨hcomplete, h⟩⟩
      exact hfinish w hgrow
    · rw [PartWriter.expectLength, if_neg hsize]
      -- the stream ended early, or ran on
      exact hstop _ List.prefix_rfl (fun _ => hb.le) w hgrow

end Writing

end MtpxCore
