import MtpxCore.ExecutorModel
import MtpxCore.BlockTrace

/-! The grammar of a run's trace. Every action leaves one block of calls and events; a run
ends after its last block, or inside a block that is cut before its final event. -/
namespace MtpxCore

open BlockTrace

/-- Reads of one offset that failed and were announced as to be retried. -/
inductive Attempts (path : RelPath) (offset : ℕ) : ℕ → List Happening → Prop
  | none : Attempts path offset 0 []
  | retry {n : ℕ} {xs : List Happening} (message : String) : Attempts path offset n xs →
      Attempts path offset (n + 1)
        (.call (.read path offset) :: .event (.fileFailed path message true) :: xs)

/-- The progress of one stream: positions in the file that never go back. -/
def Progress (path : RelPath) (offset : ℕ) (xs : List Happening) : Prop :=
  ∃ bytes : List ℕ, xs = bytes.map (fun b => .event (.fileProgress path b)) ∧
    bytes.Pairwise (· ≤ ·) ∧ ∀ b ∈ bytes, offset ≤ b

/-- The offset a copy goes on from is asked for, settled and announced. -/
def opening (path : RelPath) (size requested offset : ℕ) : List Happening :=
  [.call (.resumeOffset path requested), .event (.fileStarted path size offset)]

section Grammar

variable (P : ℕ → ℕ → Prop)

/-- What a copy leaves ahead of its last event: it ends while waiting for a retry, with a
read, or with the one write. `P` holds of the planned and the settled offset. -/
inductive Copying (path : RelPath) (size : ℕ) (modified : Option ModifiedTime) (requested : ℕ) :
    ℕ → List Happening → Prop
  | waiting {offset n : ℕ} {xs : List Happening} : P requested offset →
      Attempts path offset n xs → n ≤ MAX_READ_RETRIES →
      Copying path size modified requested offset (opening path size requested offset ++ xs)
  | read {offset n : ℕ} {xs : List Happening} : P requested offset →
      Attempts path offset n xs → n ≤ MAX_READ_RETRIES →
      Copying path size modified requested offset
        (opening path size requested offset ++ xs ++ [.call (.read path offset)])
  | written {offset n : ℕ} {xs ps : List Happening} : P requested offset →
      Attempts path offset n xs → n ≤ MAX_READ_RETRIES → Progress path offset ps →
      Copying path size modified requested offset
        (opening path size requested offset ++ xs ++ .call (.read path offset) ::
          .call (.write ⟨path, size, offset, modified⟩) :: ps)

/-- What an action has left when a run stops inside it. -/
inductive CutBlock : Action → List Happening → Prop
  | unstarted (a : Action) : CutBlock a []
  | mkdir (path : RelPath) : CutBlock (.mkdir path) [.call (.mkdir path)]
  | unsettled (path : RelPath) (size requested : ℕ) (modified : Option ModifiedTime)
      (reason : CopyReason) :
      CutBlock (.copy path size modified requested reason) [.call (.resumeOffset path requested)]
  | copying {path : RelPath} {size requested offset : ℕ} {modified : Option ModifiedTime}
      {reason : CopyReason} {xs : List Happening} :
      Copying P path size modified requested offset xs →
      CutBlock (.copy path size modified requested reason) xs

/-- What an action has left when the run goes on. -/
inductive Block : Action → List Happening → Prop
  | made (path : RelPath) : Block (.mkdir path) [.call (.mkdir path)]
  | skipped (path : RelPath) (reason : SkipReason) :
      Block (.skip path reason) [.event (.skipped path reason)]
  | failed {a : Action} {xs : List Happening} (message : String) : CutBlock P a xs → xs ≠ [] →
      Block a (xs ++ [.event (.fileFailed a.path message false)])
  | copied {path : RelPath} {size requested offset n : ℕ} {modified : Option ModifiedTime}
      {reason : CopyReason} {xs ps : List Happening} (elapsed : ℕ) :
      P requested offset → Attempts path offset n xs → n ≤ MAX_READ_RETRIES →
      Progress path offset ps →
      Block (.copy path size modified requested reason)
        (opening path size requested offset ++ xs ++ .call (.read path offset) ::
          .call (.write ⟨path, size, offset, modified⟩) :: ps ++
          [.event (.fileFinished path (size - offset) elapsed)])

end Grammar

/-- What one record adds to the totals. -/
def tally (report : Report) : Happening → Report
  | .event (.fileFinished _ bytes _) =>
    { report with copied := report.copied + 1, bytes := wrappingAdd report.bytes bytes }
  | .event (.skipped _ _) => { report with skipped := report.skipped + 1 }
  | .event (.fileFailed path error false) =>
    { report with failed := report.failed ++ [⟨path, error⟩] }
  | _ => report

/-- The totals of a trace. -/
def totals (xs : List Happening) : Report := xs.foldl tally Report.zero

/-- The shapes of a whole run, over the shapes of its blocks and of a cut one: the outcome
and the trace. The file in flight when a run aborts is among the failed. -/
inductive RunShape (B C : Action → List Happening → Prop) (actions : List Action) :
    Except Error Report → List Happening → Prop
  | finished {xs : List Happening} {report : Report} (elapsed : ℕ) : Blocks B actions xs →
      report = { totals xs with elapsed := elapsed } →
      RunShape B C actions (.ok report) (xs ++ [.event (.finished report)])
  | interrupted {done rest : List Action} {a : Action} {xs ys : List Happening}
      {report : Report} (elapsed : ℕ) : actions = done ++ a :: rest → Blocks B done xs → C a ys →
      report = { totals xs with elapsed := elapsed, interrupted := true } →
      RunShape B C actions (.ok report) (xs ++ ys ++
        [.event (.interrupted (remainingCopies (a :: rest))), .event (.finished report)])
  | aborted {done rest : List Action} {a : Action} {xs ys : List Happening} {report : Report}
      {e : Error} (elapsed : ℕ) (message : String) : actions = done ++ a :: rest →
      Blocks B done xs → C a ys → ys ≠ [] → abortsBatch e = true →
      report = { totals xs with
        elapsed := elapsed, failed := (totals xs).failed ++ [⟨a.path, message⟩] } →
      RunShape B C actions (.error e) (xs ++ ys ++
        [.event (.aborted report (remainingCopies (a :: rest)))])

/-- Records that only accompany a copy: no total counts them and nothing ends with them. -/
def Happening.isSilent : Happening → Bool
  | .call _ => true
  | .event (.fileStarted _ _ _) => true
  | .event (.fileProgress _ _) => true
  | .event (.fileFailed _ _ willRetry) => willRetry
  | .event _ => false

section Silent

variable {P : ℕ → ℕ → Prop}

theorem tally_silent {x : Happening} (h : x.isSilent = true) (report : Report) :
    tally report x = report := by
  cases x with
  | call c => rfl
  | event e =>
    cases e with
    | fileStarted path size resumeFrom => rfl
    | fileProgress path bytes => rfl
    | fileFailed path error willRetry =>
      obtain rfl : willRetry = true := h
      rfl
    | _ => exact absurd h (by simp [Happening.isSilent])

theorem foldl_silent {xs : List Happening} (h : ∀ x ∈ xs, x.isSilent = true) (report : Report) :
    xs.foldl tally report = report := by
  induction xs with
  | nil => rfl
  | cons x xs ih =>
    rw [List.foldl_cons, tally_silent (h x List.mem_cons_self)]
    exact ih (fun y hy => h y (List.mem_cons_of_mem x hy))

theorem Attempts.silent {path : RelPath} {offset n : ℕ} {xs : List Happening}
    (h : Attempts path offset n xs) : ∀ x ∈ xs, x.isSilent = true := by
  induction h with
  | none => simp
  | retry message _ ih => simpa [Happening.isSilent] using ih

theorem Progress.silent {path : RelPath} {offset : ℕ} {ps : List Happening}
    (h : Progress path offset ps) : ∀ x ∈ ps, x.isSilent = true := by
  obtain ⟨bytes, rfl, -, -⟩ := h
  intro x hx
  obtain ⟨b, -, rfl⟩ := List.mem_map.mp hx
  rfl

theorem Copying.silent {path : RelPath} {size requested offset : ℕ}
    {modified : Option ModifiedTime} {xs : List Happening}
    (h : Copying P path size modified requested offset xs) : ∀ x ∈ xs, x.isSilent = true := by
  cases h with
  | waiting _ ha _ => simpa [opening, Happening.isSilent] using ha.silent
  | read _ ha _ => simpa [opening, Happening.isSilent, or_imp, forall_and] using ha.silent
  | written _ ha _ hp =>
    simpa [opening, Happening.isSilent, or_imp, forall_and] using ⟨ha.silent, hp.silent⟩

theorem CutBlock.silent {a : Action} {xs : List Happening} (h : CutBlock P a xs) :
    ∀ x ∈ xs, x.isSilent = true := by
  cases h with
  | unstarted => simp
  | mkdir => simp [Happening.isSilent]
  | unsettled => simp [Happening.isSilent]
  | copying hc => exact hc.silent

end Silent

/-- What one step comes to: its block, or a stop that cuts it. -/
inductive StepShape {σ : Type} (ex : Executor σ) (P : ℕ → ℕ → Prop) (a : Action)
    (report : Report) (trace : List Happening) : Except Stop Unit → Report → List Happening → Prop
  | done {xs : List Happening} : Block P a xs →
      StepShape ex P a report trace (.ok ()) (xs.foldl tally report) (trace ++ xs)
  | interrupted {xs : List Happening} : CutBlock P a xs →
      StepShape ex P a report trace (.error .interrupted) report (trace ++ xs)
  | aborted {xs : List Happening} {e : Error} : CutBlock P a xs → xs ≠ [] → abortsBatch e = true →
      StepShape ex P a report trace (.error (.aborted e))
        { report with failed := report.failed ++ [⟨a.path, ex.text e⟩] } (trace ++ xs)

section Steps

variable {σ : Type} (ex : Executor σ) {P : ℕ → ℕ → Prop} {source dest : Endpoint σ}
  {report : Report} {s : Scene σ}

/-- A failure turns what an action has left so far into its block, or cuts it. -/
theorem fail_shape {a : Action} {xs trace : List Happening} (hc : CutBlock P a xs) (hne : xs ≠ [])
    (ht : s.trace = trace ++ xs) {e : Error} {r : Except Stop Unit} {report' : Report}
    {s' : Scene σ} (h : ex.fail report a.path e s = (r, report', s')) :
    StepShape ex P a report trace r report' s'.trace := by
  unfold Executor.fail at h
  by_cases hcan : e = .cancelled
  · rw [if_pos hcan] at h
    cases h
    rw [ht]
    exact .interrupted hc
  · rw [if_neg hcan] at h
    dsimp only at h
    by_cases hab : abortsBatch e = true
    · rw [if_pos hab] at h
      cases h
      rw [ht]
      exact .aborted hc hne hab
    · rw [if_neg hab] at h
      cases h
      have hblock : StepShape ex P a report trace (.ok ()) _ _ :=
        .done (Block.failed (ex.text e) hc hne)
      rw [List.foldl_append, foldl_silent hc.silent, ← List.append_assoc, ← ht] at hblock
      exact hblock

theorem backOff_trace (deadline fuel : ℕ) (s : Scene σ) :
    (ex.backOff deadline fuel s).2.trace = s.trace ∧
      ((ex.backOff deadline fuel s).1 = .ok () ∨ (ex.backOff deadline fuel s).1 = .error .cancelled) := by
  induction fuel generalizing s with
  | zero => exact ⟨rfl, Or.inl rfl⟩
  | succ fuel ih =>
    rw [Executor.backOff]
    split
    · split
      · exact ⟨rfl, Or.inr rfl⟩
      · exact ih _
    · exact ⟨rfl, Or.inl rfl⟩

/-- A backoff that is not cancelled lasts until its deadline. -/
theorem backOff_lasts (deadline fuel : ℕ) (s : Scene σ) (hf : deadline ≤ ex.now s.world + fuel)
    (hok : (ex.backOff deadline fuel s).1 = .ok ()) :
    deadline ≤ ex.now (ex.backOff deadline fuel s).2.world := by
  induction fuel generalizing s with
  | zero => exact hf
  | succ fuel ih =>
    rw [Executor.backOff] at hok ⊢
    by_cases hlt : ex.now s.world < deadline
    · rw [if_pos hlt] at hok ⊢
      by_cases hcan : ex.isCancelled s.world = true
      · rw [if_pos hcan] at hok
        exact absurd hok (by simp)
      · rw [if_neg hcan] at hok ⊢
        apply ih _ _ hok
        have hslept := ex.sleep_now (min CANCEL_POLL (deadline - ex.now s.world)) s.world
        have hslice : 1 ≤ min CANCEL_POLL (deadline - ex.now s.world) := by
          rw [le_min_iff, CANCEL_POLL]
          omega
        dsimp only
        omega
    · rw [if_neg hlt]
      exact not_lt.mp hlt

/-- A failed attempt is announced, unless a cancel came with it. -/
theorem reportAndBackOff_cases (path : RelPath) (error : MtpError) (backoff : ℕ) (s : Scene σ) :
    ex.reportAndBackOff path error backoff s = (.error .cancelled, s) ∨
      (ex.reportAndBackOff path error backoff s).2.trace =
          s.trace ++ [.event (.fileFailed path (ex.text (.mtp error)) true)] ∧
        ((ex.reportAndBackOff path error backoff s).1 = .ok () ∨
          (ex.reportAndBackOff path error backoff s).1 = .error .cancelled) := by
  rw [Executor.reportAndBackOff]
  by_cases hcan : ex.isCancelled s.world = true
  · rw [if_pos hcan]
    exact Or.inl rfl
  · rw [if_neg hcan]
    exact Or.inr (backOff_trace ex _ _ _)

/-- What opening a source stream leaves: some announced attempts, and a last read unless the
run was cancelled while waiting for it. -/
theorem readWithRetry_shape (path : RelPath) (offset retries backoff : ℕ) (s : Scene σ) :
    ∃ n xs, n ≤ retries ∧ Attempts path offset n xs ∧
      ((ex.readWithRetry source path offset retries backoff s).2.trace =
          s.trace ++ xs ++ [.call (.read path offset)] ∨
        (ex.readWithRetry source path offset retries backoff s).2.trace = s.trace ++ xs ∧
          (ex.readWithRetry source path offset retries backoff s).1 = .error .cancelled) := by
  induction retries generalizing backoff s with
  | zero =>
    refine ⟨0, [], le_rfl, .none, Or.inl ?_⟩
    rw [List.append_nil]
    rfl
  | succ retries ih =>
    -- an attempt that is not retried is the last read
    have hlast : ∃ n xs, n ≤ retries + 1 ∧ Attempts path offset n xs ∧
        s.trace ++ [.call (.read path offset)] = s.trace ++ xs ++ [.call (.read path offset)] :=
      ⟨0, [], Nat.zero_le _, .none, by rw [List.append_nil]⟩
    rw [Executor.readWithRetry]
    rcases hread : source.read path offset s.world with ⟨answer, world⟩
    dsimp only
    split
    · rename_i e
      by_cases hretry : ex.isRetryable e = true
      · rw [if_pos hretry]
        obtain ⟨n₀, xs₀, hn₀, ha₀, ht₀⟩ := hlast
        have hcases := reportAndBackOff_cases ex path e backoff
          ⟨world, s.trace ++ [.call (.read path offset)]⟩
        rcases hb : ex.reportAndBackOff path e backoff
          ⟨world, s.trace ++ [.call (.read path offset)]⟩ with ⟨outcome, s₁⟩
        rw [hb] at hcases
        simp only [hb]
        rcases hcases with hstop | ⟨ht₁, rfl | rfl⟩
        · obtain ⟨rfl, rfl⟩ := Prod.mk.inj hstop
          exact ⟨n₀, xs₀, hn₀, ha₀, Or.inl ht₀⟩
        · -- the announced attempt goes in front of those still to come
          obtain ⟨n, xs, hn, ha, hend⟩ := ih (backoff * 2) s₁
          refine ⟨n + 1, _, by omega, .retry (ex.text (.mtp e)) ha, ?_⟩
          rw [ht₁] at hend
          simpa using hend
        · refine ⟨1, _, by omega, .retry (ex.text (.mtp e)) .none, Or.inr ⟨?_, rfl⟩⟩
          rw [ht₁]
          simp
      · rw [if_neg hretry]
        obtain ⟨n, xs, hn, ha, ht⟩ := hlast
        exact ⟨n, xs, hn, ha, Or.inl ht⟩
    · obtain ⟨n, xs, hn, ha, ht⟩ := hlast
      exact ⟨n, xs, hn, ha, Or.inl ht⟩

/-- The reported positions start at the offset and never go back. -/
theorem progress_shape (path : RelPath) (offset : ℕ) (stream : ByteStream) (world : σ) :
    Progress path offset ((ex.delivered world (Executor.progressEvents path offset stream)).map .event) := by
  have hall (soFar : ℕ) : ∃ bytes : List ℕ,
      Executor.progressEvents path soFar stream = bytes.map (fun b => .fileProgress path b) ∧
        bytes.Pairwise (· ≤ ·) ∧ ∀ b ∈ bytes, soFar ≤ b := by
    induction stream generalizing soFar with
    | nil => exact ⟨[], rfl, List.Pairwise.nil, by simp⟩
    | cons item rest ih =>
      cases item with
      | error e => exact ih soFar
      | ok chunk =>
        obtain ⟨bytes, hb, hsorted, hle⟩ := ih (soFar + chunk.length)
        refine ⟨(soFar + chunk.length) :: bytes, ?_, List.pairwise_cons.mpr ⟨hle, hsorted⟩, ?_⟩
        · rw [Executor.progressEvents, hb, List.map_cons]
        · intro b hb
          rcases List.mem_cons.mp hb with rfl | hb
          · exact Nat.le_add_right soFar chunk.length
          · exact (Nat.le_add_right soFar chunk.length).trans (hle b hb)
  obtain ⟨bytes, hb, hsorted, hle⟩ := hall offset
  -- what a full channel drops leaves a sublist
  have hsub : (ex.delivered world (Executor.progressEvents path offset stream)).Sublist
      (bytes.map (fun b => .fileProgress path b)) := by
    rw [← hb, Executor.delivered]
    have hzip := (List.filter_sublist (p := fun p : ProgressEvent × ℕ => ex.hasRoom world p.2)
      (l := (Executor.progressEvents path offset stream).zipIdx)).map Prod.fst
    rwa [List.zipIdx_map_fst] at hzip
  obtain ⟨kept, hkept, hk⟩ := List.sublist_map_iff.mp hsub
  refine ⟨kept, ?_, hsorted.sublist hkept, fun b hb => hle b (hkept.subset hb)⟩
  rw [hk, List.map_map]
  rfl

/-- What a settled copy leaves: everything up to its last event, or its whole block. -/
theorem copyOne_shape {path : RelPath} {size requested offset : ℕ}
    {modified : Option ModifiedTime} (reason : CopyReason) {trace : List Happening}
    (hP : P requested offset) (ht : s.trace = trace ++ opening path size requested offset)
    {r : Except Error ℕ} {s' : Scene σ}
    (h : ex.copyOne source dest ⟨path, size, offset, modified⟩ s = (r, s')) :
    (∃ e xs, r = .error e ∧ Copying P path size modified requested offset xs ∧
      s'.trace = trace ++ xs) ∨
    ∃ xs elapsed, r = .ok (size - offset) ∧ s'.trace = trace ++ xs ∧
      Block P (.copy path size modified requested reason) xs ∧ ∀ report : Report,
        xs.foldl tally report = tally report (.event (.fileFinished path (size - offset) elapsed)) := by
  obtain ⟨n, xs, hn, ha, hread⟩ := readWithRetry_shape ex path offset MAX_READ_RETRIES
    RETRY_BACKOFF s
  rcases hopen : ex.readWithRetry source path offset MAX_READ_RETRIES RETRY_BACKOFF s
    with ⟨answer, s₁⟩
  rw [hopen] at hread
  cases answer with
  | error e =>
    simp only [Executor.copyOne, hopen] at h
    obtain ⟨rfl, rfl⟩ := Prod.mk.inj h
    left
    -- no stream: the last read failed, or the wait before it was cut short
    rcases hread with hr | ⟨hr, -⟩
    · exact ⟨e, _, rfl, .read hP ha hn, by rw [hr, ht]; simp⟩
    · exact ⟨e, _, rfl, .waiting hP ha hn, by rw [hr, ht]; simp⟩
  | ok raw =>
    have hr : s₁.trace = s.trace ++ xs ++ [.call (.read path offset)] :=
      hread.resolve_right (fun hcan => absurd hcan.2 (by simp))
    rcases hwrite : dest.write ⟨path, size, offset, modified⟩ raw s₁.world
      with ⟨answer, taken, world⟩
    simp only [Executor.copyOne, hopen, hwrite] at h
    -- the write asks for so many chunks, each reported as it is taken
    have hp := progress_shape ex path offset (raw.take taken) s₁.world
    cases answer with
    | error e =>
      obtain ⟨rfl, rfl⟩ := Prod.mk.inj h
      left
      exact ⟨e, _, rfl, .written hP ha hn hp, by rw [hr, ht]; simp⟩
    | ok =>
      obtain ⟨rfl, rfl⟩ := Prod.mk.inj h
      right
      refine ⟨_, ex.now world - ex.now s₁.world, rfl, ?_,
        .copied (ex.now world - ex.now s₁.world) hP ha hn hp, ?_⟩
      · rw [Executor.emit, hr, ht]
        simp
      · intro report
        have hcopying : Copying P path size modified requested offset _ := .written hP ha hn hp
        rw [List.foldl_append, foldl_silent hcopying.silent]
        rfl

variable (hsettle : ∀ path requested world offset world',
  dest.resumeOffset path requested world = (.ok offset, world') → P requested offset)

include hsettle in
theorem copy_shape (path : RelPath) (size requested : ℕ) (modified : Option ModifiedTime)
    (reason : CopyReason) {r : Except Stop Unit} {report' : Report} {s' : Scene σ}
    (h : ex.copy source dest ⟨path, size, requested, modified⟩ report s = (r, report', s')) :
    StepShape ex P (.copy path size modified requested reason) report s.trace r report'
      s'.trace := by
  rcases hoffset : dest.resumeOffset path requested s.world with ⟨answer, world⟩
  cases answer with
  | error e =>
    simp only [Executor.copy, Executor.settle, hoffset] at h
    exact fail_shape ex (.unsettled path size requested modified reason) (by simp) rfl h
  | ok offset =>
    have hP := hsettle path requested s.world offset world hoffset
    simp only [Executor.copy, Executor.settle, hoffset] at h
    rcases hcopy : ex.copyOne source dest ⟨path, size, offset, modified⟩
      (ex.emit (.fileStarted path size offset)
        ⟨world, s.trace ++ [.call (.resumeOffset path requested)]⟩) with ⟨answer, s₁⟩
    have hstart : (ex.emit (.fileStarted path size offset)
        ⟨world, s.trace ++ [.call (.resumeOffset path requested)]⟩).trace =
          s.trace ++ opening path size requested offset := by
      rw [Executor.emit, opening]
      simp
    rw [hcopy] at h
    rcases copyOne_shape ex reason hP hstart hcopy with
      ⟨e, xs, rfl, hc, ht⟩ | ⟨xs, elapsed, rfl, ht, hblock, htally⟩
    · have hne : xs ≠ [] := by
        rintro rfl
        cases hc
      exact fail_shape ex (.copying hc) hne ht h
    · obtain ⟨rfl, hs⟩ := Prod.mk.inj h
      obtain ⟨rfl, rfl⟩ := Prod.mk.inj hs
      rw [ht]
      have hdone : StepShape ex P _ report s.trace _ _ _ := .done hblock
      rw [htally] at hdone
      exact hdone

include hsettle in
/-- Every step leaves the block of its action, or stops and leaves it cut. -/
theorem step_shape (a : Action) {r : Except Stop Unit} {report' : Report} {s' : Scene σ}
    (h : ex.step source dest a report s = (r, report', s')) :
    StepShape ex P a report s.trace r report' s'.trace := by
  unfold Executor.step at h
  by_cases hcan : ex.isCancelled s.world = true
  · rw [if_pos hcan] at h
    cases h
    have hshape : StepShape ex P a report s.trace (.error .interrupted) report _ :=
      .interrupted (.unstarted a)
    rwa [List.append_nil] at hshape
  · rw [if_neg hcan] at h
    cases a with
    | mkdir path =>
      rcases hmkdir : dest.mkdir path s.world with ⟨answer, world⟩
      simp only [Executor.mkdir, hmkdir] at h
      cases answer with
      | error e => exact fail_shape ex (.mkdir path) (by simp) rfl h
      | ok =>
        cases h
        exact .done (.made path)
    | skip path reason =>
      cases h
      exact .done (.skipped path reason)
    | copy path size modified requested reason =>
      exact copy_shape ex hsettle path size requested modified reason h

include hsettle in
/-- A run from any action on: the blocks still to come, and its end. -/
theorem runFrom_shape (since : ℕ) (actions : List Action) {before : List Action}
    {pre : List Happening} (hpre : Blocks (Block P) before pre) (ht : s.trace = pre)
    {outcome : Except Error Report} {s' : Scene σ}
    (h : ex.runFrom source dest since actions (totals pre) s = (outcome, s')) :
    RunShape (Block P) (CutBlock P) (before ++ actions) outcome s'.trace := by
  induction actions generalizing before pre s with
  | nil =>
    rw [Executor.runFrom] at h
    cases h
    subst ht
    rw [List.append_nil]
    exact .finished _ hpre rfl
  | cons a as ih =>
    rcases hstep : ex.step source dest a (totals pre) s with ⟨r, report, s₁⟩
    have hshape := step_shape ex hsettle a hstep
    simp only [Executor.runFrom, hstep] at h
    rw [ht] at hshape
    generalize ht₁ : s₁.trace = trace at hshape
    cases hshape with
    | @done xs hblock =>
      rw [List.append_cons]
      -- one block more is behind; the totals go with it
      apply ih (hpre.snoc hblock) ht₁
      rw [totals, List.foldl_append]
      exact h
    | @interrupted xs hcut =>
      cases h
      have htrace : (ex.interrupt (totals pre) since (remainingCopies (a :: as)) s₁).2.trace =
          pre ++ xs ++ [.event (.interrupted (remainingCopies (a :: as))), .event (.finished
            (ex.interrupt (totals pre) since (remainingCopies (a :: as)) s₁).1)] := by
        rw [← ht₁]
        exact List.append_assoc _ _ _
      rw [htrace]
      exact .interrupted _ rfl hpre hcut rfl
    | @aborted xs e hcut hne hab =>
      cases h
      rw [Executor.abort, Executor.emit, ht₁]
      exact .aborted _ _ rfl hpre hcut hne hab rfl

end Steps

end MtpxCore
