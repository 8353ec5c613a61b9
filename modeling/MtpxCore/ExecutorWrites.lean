import MtpxCore.ExecutorEvents

/-! The write a step of a run comes to: where it starts, what it takes off its stream and how it
ends. From it follows what an observer who counts bytes is told of the step. -/
namespace MtpxCore

/-- The bytes of the chunks that come off a stream. -/
def chunkBytes : ByteStream → ℕ
  | [] => 0
  | .error _ :: rest => chunkBytes rest
  | .ok chunk :: rest => chunk.length + chunkBytes rest

/-- What a step asks of the destination and gets: the write as planned, the offset it is settled
at, the bytes it takes off the stream, and its answer. -/
structure Written where
  planned : WriteRequest
  offset : ℕ
  moved : ℕ
  answer : Except Error Unit

/-- The write starts where it was planned to, and takes no more than the file has left. -/
structure Written.AsPlanned (w : Written) : Prop where
  offset_eq : w.offset = w.planned.resumeFrom
  moved_le : w.moved ≤ w.planned.expectedSize - w.offset

/-- Bytes were taken, and then the write failed. -/
def Written.losesBytes (w : Written) : Bool :=
  match w.answer with
  | .error _ => decide (0 < w.moved)
  | .ok () => false

/-- What an observer counts of the write: its whole file at the end, or what came before it
broke off. -/
def Written.counted (w : Written) : ℕ :=
  match w.answer with
  | .error _ => w.moved
  | .ok () => w.planned.expectedSize - w.offset

namespace Executor

variable {σ : Type} (ex : Executor σ) (source dest : Endpoint σ)

/-- What the write of a settled copy takes and answers, unless no stream could be opened. -/
def taken (request : WriteRequest) (s : Scene σ) : Option (ℕ × Except Error Unit) :=
  match ex.readWithRetry source request.path request.resumeFrom MAX_READ_RETRIES RETRY_BACKOFF s with
  | (.error _, _) => none
  | (.ok raw, s) =>
    let (answer, taken, _) := dest.write request raw s.world
    some (chunkBytes (raw.take taken), answer)

/-- The write a copy comes to, unless it fails before. -/
def writeOf (planned : WriteRequest) (s : Scene σ) : Option Written :=
  match ex.settle dest planned s with
  | (.error _, _) => none
  | (.ok request, s) =>
    (ex.taken source dest request s).map fun (moved, answer) =>
      ⟨planned, request.resumeFrom, moved, answer⟩

/-- The write a step comes to. -/
def writes (a : Action) (s : Scene σ) : Option Written :=
  if ex.isCancelled s.world then none
  else match a with
  | .copy path size modified resumeFrom _ =>
    ex.writeOf source dest ⟨path, size, resumeFrom, modified⟩ s
  | _ => none

/-- Every write of the run goes as planned, and none starts once one has lost bytes. -/
def MovesAsPlanned : Bool → List Action → Report → Scene σ → Prop
  | _, [], _, _ => True
  | lost, a :: as, report, s =>
    (∀ w ∈ ex.writes source dest a s, w.AsPlanned ∧ lost = false) ∧
      match ex.step source dest a report s with
      | (.ok (), report, s') =>
        MovesAsPlanned (lost || (ex.writes source dest a s).any Written.losesBytes) as report s'
      | _ => True

/-- What the writes of a run are counted for. -/
def countedBytes : List Action → Report → Scene σ → ℕ
  | [], _, _ => 0
  | a :: as, report, s =>
    (ex.writes source dest a s).elim 0 Written.counted +
      match ex.step source dest a report s with
      | (.ok (), report, s') => countedBytes as report s'
      | _ => 0

end Executor

/-- Records that leave the counts of a renderer as they are. -/
def Happening.isQuiet : Happening → Bool
  | .event (.fileStarted _ _ _) => false
  | .event (.fileProgress _ _) => false
  | .event (.fileFinished _ _ _) => false
  | _ => true

/-- The reports of one stream. -/
def reports (path : RelPath) (bytes : List ℕ) : List Happening :=
  bytes.map (fun b => .event (.fileProgress path b))

section Steps

variable {σ : Type} (ex : Executor σ) {source dest : Endpoint σ} {s : Scene σ}

theorem progressEvents_le {path : RelPath} {soFar b : ℕ} {stream : ByteStream}
    (h : .fileProgress path b ∈ Executor.progressEvents path soFar stream) :
    b ≤ soFar + chunkBytes stream := by
  induction stream generalizing soFar with
  | nil => exact absurd h List.not_mem_nil
  | cons item rest ih =>
    cases item with
    | error e => exact ih h
    | ok chunk =>
      rw [Executor.progressEvents, List.mem_cons] at h
      rw [chunkBytes]
      rcases h with h | h
      · have hb : b = soFar + chunk.length := (ProgressEvent.fileProgress.inj h).2
        omega
      · have hrest := ih h
        omega

/-- The reported positions lie between the offset and the bytes taken past it. -/
theorem delivered_reports (path : RelPath) (offset : ℕ) (stream : ByteStream) (world : σ) :
    ∃ bytes : List ℕ, bytes.Pairwise (· ≤ ·) ∧
      (∀ b ∈ bytes, offset ≤ b ∧ b ≤ offset + chunkBytes stream) ∧
      (ex.delivered world (Executor.progressEvents path offset stream)).map .event =
        reports path bytes := by
  obtain ⟨bytes, hbytes, hsorted, hle⟩ := progress_shape ex path offset stream world
  refine ⟨bytes, hsorted, ?_, hbytes⟩
  intro b hb
  have hmem : Happening.event (.fileProgress path b) ∈
      (ex.delivered world (Executor.progressEvents path offset stream)).map .event := by
    rw [hbytes]
    exact List.mem_map_of_mem hb
  obtain ⟨e, he, heq⟩ := List.mem_map.mp hmem
  obtain ⟨p, hp, rfl⟩ := List.mem_map.mp he
  have hsent := List.fst_mem_of_mem_zipIdx (List.mem_filter.mp hp).1
  rw [Happening.event.inj heq] at hsent
  exact ⟨hle b hb, progressEvents_le hsent⟩

theorem Attempts.quiet {path : RelPath} {offset n : ℕ} {xs : List Happening}
    (h : Attempts path offset n xs) : ∀ x ∈ xs, x.isQuiet = true := by
  induction h with
  | none => simp
  | retry message _ ih => simpa [Happening.isQuiet] using ih

/-- What a settled copy tells an observer: nothing that counts before the write, then the reports
of its stream, and the end of the file if the write ends well. -/
inductive Told (path : RelPath) (size offset : ℕ) : Option (ℕ × Except Error Unit) →
    Except Error ℕ → List Happening → Prop
  | unwritten {xs : List Happening} (e : Error) : (∀ x ∈ xs, x.isQuiet = true) →
      Told path size offset none (.error e) xs
  | broken {xs : List Happening} {bytes : List ℕ} {n : ℕ} (e : Error) :
      (∀ x ∈ xs, x.isQuiet = true) → bytes.Pairwise (· ≤ ·) →
      (∀ b ∈ bytes, offset ≤ b ∧ b ≤ offset + n) →
      Told path size offset (some (n, .error e)) (.error e) (xs ++ reports path bytes)
  | whole {xs : List Happening} {bytes : List ℕ} {n : ℕ} (elapsed : ℕ) :
      (∀ x ∈ xs, x.isQuiet = true) → bytes.Pairwise (· ≤ ·) →
      (∀ b ∈ bytes, offset ≤ b ∧ b ≤ offset + n) →
      Told path size offset (some (n, .ok ())) (.ok (size - offset)) (xs ++ reports path bytes ++
        [.event (.fileFinished path (size - offset) elapsed)])

theorem copyOne_told (path : RelPath) (size offset : ℕ) (modified : Option ModifiedTime)
    {outcome : Except Error ℕ} {s' : Scene σ}
    (h : ex.copyOne source dest ⟨path, size, offset, modified⟩ s = (outcome, s')) :
    ∃ xs, s'.trace = s.trace ++ xs ∧
      Told path size offset (ex.taken source dest ⟨path, size, offset, modified⟩ s) outcome xs := by
  obtain ⟨n, xs, -, ha, hread⟩ := readWithRetry_shape ex path offset MAX_READ_RETRIES
    RETRY_BACKOFF s
  have hquiet : ∀ x ∈ xs ++ [.call (.read path offset)], x.isQuiet = true :=
    List.forall_mem_append.mpr ⟨ha.quiet, List.forall_mem_singleton.mpr rfl⟩
  rcases hopen : ex.readWithRetry source path offset MAX_READ_RETRIES RETRY_BACKOFF s
    with ⟨answer, s₁⟩
  rw [hopen] at hread
  cases answer with
  | error e =>
    simp only [Executor.copyOne, hopen] at h
    obtain ⟨rfl, rfl⟩ := Prod.mk.inj h
    simp only [Executor.taken, hopen]
    rcases hread with hr | ⟨hr, -⟩
    · exact ⟨_, hr.trans (List.append_assoc _ _ _), .unwritten e hquiet⟩
    · exact ⟨xs, hr, .unwritten e ha.quiet⟩
  | ok raw =>
    have hr : s₁.trace = s.trace ++ xs ++ [.call (.read path offset)] :=
      hread.resolve_right (fun hcan => absurd hcan.2 (by simp))
    rcases hwrite : dest.write ⟨path, size, offset, modified⟩ raw s₁.world
      with ⟨answer, taken, world⟩
    simp only [Executor.copyOne, hopen, hwrite] at h
    simp only [Executor.taken, hopen, hwrite]
    obtain ⟨bytes, hsorted, hle, hreports⟩ :=
      delivered_reports ex path offset (raw.take taken) s₁.world
    -- what reaches the channel is some of the reports, in order
    rw [hreports] at h
    have hcalls : ∀ x ∈ xs ++ [.call (.read path offset)] ++
        [.call (.write ⟨path, size, offset, modified⟩)], x.isQuiet = true :=
      List.forall_mem_append.mpr ⟨hquiet, List.forall_mem_singleton.mpr rfl⟩
    cases answer with
    | error e =>
      obtain ⟨rfl, rfl⟩ := Prod.mk.inj h
      refine ⟨_, ?_, .broken e hcalls hsorted hle⟩
      simp [hr]
    | ok =>
      obtain ⟨rfl, rfl⟩ := Prod.mk.inj h
      refine ⟨_, ?_, .whole (ex.now world - ex.now s₁.world) hcalls hsorted hle⟩
      simp [Executor.emit, hr]

/-- What a failure adds to the report: nothing is forgotten, and a run that goes on has listed it. -/
structure Noted (path : RelPath) (report : Report) (r : Except Stop Unit) (report' : Report) : Prop
    where
  kept : report.failed <+: report'.failed
  listed : r = .ok () → path ∈ report'.failed.map FailedFile.path

theorem fail_told {path : RelPath} {e : Error} {report report' : Report} {r : Except Stop Unit}
    {s' : Scene σ} (h : ex.fail report path e s = (r, report', s')) :
    Noted path report r report' ∧
      ∃ ys, s'.trace = s.trace ++ ys ∧ ∀ y ∈ ys, y.isQuiet = true := by
  unfold Executor.fail at h
  by_cases hcan : e = .cancelled
  · rw [if_pos hcan] at h
    cases h
    exact ⟨⟨List.prefix_rfl, by simp⟩, [], (List.append_nil _).symm, by simp⟩
  · rw [if_neg hcan] at h
    dsimp only at h
    by_cases hab : abortsBatch e = true
    · rw [if_pos hab] at h
      cases h
      exact ⟨⟨List.prefix_append _ _, by simp⟩, [], (List.append_nil _).symm, by simp⟩
    · rw [if_neg hab] at h
      cases h
      exact ⟨⟨List.prefix_append _ _, by simp⟩, [.event (.fileFailed path (ex.text e) false)], rfl,
        by simp [Happening.isQuiet]⟩

/-- What a step tells an observer, by the write it comes to. -/
inductive StepTold (a : Action) (report : Report) :
    Option Written → Except Stop Unit → Report → List Happening → Prop
  | still {r : Except Stop Unit} {report' : Report} {xs : List Happening} :
      (∀ x ∈ xs, x.isQuiet = true ∨ x.isStart = true) → report.failed <+: report'.failed →
      (r = .ok () → a.isCopy = true → a.path ∈ report'.failed.map FailedFile.path) →
      StepTold a report none r report' xs
  | broken {planned : WriteRequest} {reason : CopyReason} {offset n : ℕ} {e : Error}
      {bytes : List ℕ} {xs ys : List Happening} {r : Except Stop Unit} {report' : Report} :
      a = .copy planned.path planned.expectedSize planned.modified planned.resumeFrom reason →
      (∀ x ∈ xs, x.isQuiet = true) → bytes.Pairwise (· ≤ ·) →
      (∀ b ∈ bytes, offset ≤ b ∧ b ≤ offset + n) → (∀ y ∈ ys, y.isQuiet = true) →
      Noted a.path report r report' →
      StepTold a report (some ⟨planned, offset, n, .error e⟩) r report'
        (opening planned.path planned.expectedSize planned.resumeFrom offset ++
          (xs ++ reports planned.path bytes) ++ ys)
  | whole {planned : WriteRequest} {reason : CopyReason} {offset n elapsed : ℕ}
      {bytes : List ℕ} {xs : List Happening} {report' : Report} :
      a = .copy planned.path planned.expectedSize planned.modified planned.resumeFrom reason →
      (∀ x ∈ xs, x.isQuiet = true) → bytes.Pairwise (· ≤ ·) →
      (∀ b ∈ bytes, offset ≤ b ∧ b ≤ offset + n) → report.failed = report'.failed →
      StepTold a report (some ⟨planned, offset, n, .ok ()⟩) (.ok ()) report'
        (opening planned.path planned.expectedSize planned.resumeFrom offset ++
          (xs ++ reports planned.path bytes ++ [.event (.fileFinished planned.path
            (planned.expectedSize - offset) elapsed)]))

theorem copy_told (path : RelPath) (size requested : ℕ) (modified : Option ModifiedTime)
    (reason : CopyReason) {report report' : Report} {r : Except Stop Unit} {s' : Scene σ}
    (h : ex.copy source dest ⟨path, size, requested, modified⟩ report s = (r, report', s')) :
    ∃ xs, s'.trace = s.trace ++ xs ∧
      StepTold (.copy path size modified requested reason) report
        (ex.writeOf source dest ⟨path, size, requested, modified⟩ s) r report' xs := by
  rcases hoffset : dest.resumeOffset path requested s.world with ⟨answer, world⟩
  cases answer with
  | error e =>
    simp only [Executor.copy, Executor.settle, hoffset] at h
    simp only [Executor.writeOf, Executor.settle, hoffset]
    -- the offset is not even settled: nothing starts
    obtain ⟨hnoted, ys, ht, hy⟩ := fail_told ex h
    refine ⟨_, ht.trans (List.append_assoc _ _ _), .still ?_ hnoted.kept fun hr _ => hnoted.listed hr⟩
    exact List.forall_mem_append.mpr
      ⟨List.forall_mem_singleton.mpr (Or.inl rfl), fun y h => Or.inl (hy y h)⟩
  | ok offset =>
    simp only [Executor.copy, Executor.settle, hoffset] at h
    simp only [Executor.writeOf, Executor.settle, hoffset]
    rcases hcopy : ex.copyOne source dest ⟨path, size, offset, modified⟩
      (ex.emit (.fileStarted path size offset)
        ⟨world, s.trace ++ [.call (.resumeOffset path requested)]⟩) with ⟨outcome, s₁⟩
    obtain ⟨xs, ht, htold⟩ := copyOne_told ex path size offset modified hcopy
    have hopened : s₁.trace = s.trace ++ (opening path size requested offset ++ xs) := by
      rw [ht, Executor.emit, opening]
      simp
    rw [hcopy] at h
    generalize ex.taken source dest _ _ = t at htold
    cases htold with
    | unwritten e hx =>
      obtain ⟨hnoted, ys, ht', hy⟩ := fail_told ex h
      rw [hopened, List.append_assoc] at ht'
      refine ⟨_, ht', .still ?_ hnoted.kept fun hr _ => hnoted.listed hr⟩
      have hopening : ∀ x ∈ opening path size requested offset,
          x.isQuiet = true ∨ x.isStart = true := by
        simp [opening, Happening.isQuiet, Happening.isStart]
      exact List.forall_mem_append.mpr
        ⟨List.forall_mem_append.mpr ⟨hopening, fun x h => Or.inl (hx x h)⟩,
          fun y h => Or.inl (hy y h)⟩
    | @broken xs bytes n e hx hsorted hle =>
      obtain ⟨hnoted, ys, ht', hy⟩ := fail_told ex h
      rw [hopened, List.append_assoc] at ht'
      exact ⟨_, ht', .broken rfl hx hsorted hle hy hnoted⟩
    | @whole xs bytes n elapsed hx hsorted hle =>
      obtain ⟨rfl, hs⟩ := Prod.mk.inj h
      obtain ⟨rfl, rfl⟩ := Prod.mk.inj hs
      exact ⟨_, hopened, .whole rfl hx hsorted hle rfl⟩

theorem step_told (a : Action) {report report' : Report} {r : Except Stop Unit} {s' : Scene σ}
    (h : ex.step source dest a report s = (r, report', s')) :
    ∃ xs, s'.trace = s.trace ++ xs ∧
      StepTold a report (ex.writes source dest a s) r report' xs := by
  unfold Executor.step at h
  unfold Executor.writes
  by_cases hcan : ex.isCancelled s.world = true
  · rw [if_pos hcan] at h
    cases h
    rw [if_pos hcan]
    exact ⟨[], (List.append_nil _).symm, .still (by simp) List.prefix_rfl (by simp)⟩
  · rw [if_neg hcan] at h
    rw [if_neg hcan]
    cases a with
    | mkdir path =>
      rcases hmkdir : dest.mkdir path s.world with ⟨answer, world⟩
      simp only [Executor.mkdir, hmkdir] at h
      cases answer with
      | error e =>
        obtain ⟨hnoted, ys, ht, hy⟩ := fail_told ex h
        refine ⟨_, ht.trans (List.append_assoc _ _ _), .still ?_ hnoted.kept fun hr _ =>
          hnoted.listed hr⟩
        exact List.forall_mem_append.mpr
          ⟨List.forall_mem_singleton.mpr (Or.inl rfl), fun y h => Or.inl (hy y h)⟩
      | ok =>
        cases h
        exact ⟨_, rfl, .still (by simp [Happening.isQuiet]) List.prefix_rfl
          (by simp [Action.isCopy])⟩
    | skip path reason =>
      cases h
      exact ⟨_, rfl, .still (by simp [Happening.isQuiet]) List.prefix_rfl
        (by simp [Action.isCopy])⟩
    | copy path size modified requested reason =>
      exact copy_told ex path size requested modified reason h

end Steps

end MtpxCore
