import MtpxCore.ExecutorEvents
import MtpxCore.PlanTotals
import MtpxCore.PullRuns
import MtpxCore.PlannerExecutes

/-! The accounts of a run. The report adds up the events that were sent, and together with
what is reported as remaining it accounts for every copy of the plan. -/
namespace MtpxCore

open BlockTrace

def Happening.finishedBytes : Happening → Option ℕ
  | .event (.fileFinished _ bytes _) => some bytes
  | _ => none

def Happening.failedPath : Happening → Option RelPath
  | .event (.fileFailed path _ false) => some path
  | _ => none

def Happening.isSkipped : Happening → Bool
  | .event (.skipped _ _) => true
  | _ => false

/-- The bytes of the `FileFinished` events, in order. -/
def finishedBytes (xs : List Happening) : List ℕ := xs.filterMap Happening.finishedBytes

/-- The paths of the `FileFailed` events that are not retried, in order. -/
def failedPaths (xs : List Happening) : List RelPath := xs.filterMap Happening.failedPath

/-- The report adds up the events of a trace; `inFlight` failed without an event. -/
structure Sums (trace : List Happening) (report : Report) (inFlight : List RelPath) : Prop where
  copied : report.copied = (finishedBytes trace).length
  bytes : report.bytes = (finishedBytes trace).sum % 2 ^ 64
  skipped : report.skipped = trace.countP Happening.isSkipped
  failed : report.failed.map FailedFile.path = failedPaths trace ++ inFlight

/-- A path some action of the plan copies. -/
def Plan.copiesPath (p : Plan) (path : RelPath) : Bool :=
  p.actions.any (fun a => a.isCopy && decide (a.path = path))

/-- The failures of a report that are failed copies, not failed mkdirs. -/
def failedCopies (p : Plan) (report : Report) : ℕ :=
  report.failed.countP (fun f => p.copiesPath f.path)

section Sums

variable {xs ys : List Happening} {report : Report} {inFlight : List RelPath}

theorem finishedBytes_snoc (xs : List Happening) (x : Happening) :
    finishedBytes (xs ++ [x]) = finishedBytes xs ++ x.finishedBytes.toList := by
  rw [finishedBytes, List.filterMap_append, finishedBytes]
  cases h : x.finishedBytes <;> simp [h]

theorem failedPaths_snoc (xs : List Happening) (x : Happening) :
    failedPaths (xs ++ [x]) = failedPaths xs ++ x.failedPath.toList := by
  rw [failedPaths, List.filterMap_append, failedPaths]
  cases h : x.failedPath <;> simp [h]

theorem Sums.zero : Sums [] Report.zero [] := ⟨rfl, rfl, rfl, rfl⟩

/-- One more record that no total counts. -/
theorem Sums.neutral (h : Sums xs report inFlight) {x : Happening} (hb : x.finishedBytes = none)
    (hf : x.failedPath = none) (hs : x.isSkipped = false) : Sums (xs ++ [x]) report inFlight where
  copied := by rw [finishedBytes_snoc, hb, h.copied, Option.toList_none, List.append_nil]
  bytes := by rw [finishedBytes_snoc, hb, h.bytes, Option.toList_none, List.append_nil]
  skipped := by simp [hs, h.skipped]
  failed := by rw [failedPaths_snoc, hf, h.failed, Option.toList_none, List.append_nil]

/-- One more record, with what it is worth added to the report. -/
theorem Sums.add (h : Sums xs report []) {x : Happening} {report' : Report}
    (hc : report'.copied = report.copied + x.finishedBytes.toList.length)
    (hb : report'.bytes = wrappingAdd report.bytes x.finishedBytes.toList.sum)
    (hs : report'.skipped = report.skipped + if x.isSkipped = true then 1 else 0)
    (hf : report'.failed.map FailedFile.path =
      report.failed.map FailedFile.path ++ x.failedPath.toList) : Sums (xs ++ [x]) report' [] where
  copied := by rw [finishedBytes_snoc, List.length_append, hc, h.copied]
  bytes := by rw [finishedBytes_snoc, List.sum_append, hb, h.bytes, wrappingAdd, Nat.mod_add_mod]
  skipped := by rw [List.countP_append, List.countP_singleton, hs, h.skipped]
  failed := by rw [failedPaths_snoc, hf, h.failed, List.append_nil, List.append_nil]

/-- The totals follow the events one by one. -/
theorem Sums.snoc (h : Sums xs report []) (x : Happening) :
    Sums (xs ++ [x]) (tally report x) [] := by
  have hsame : report.failed.map FailedFile.path = report.failed.map FailedFile.path ++ [] :=
    (List.append_nil _).symm
  -- the counter is below the modulus, so adding nothing leaves it as it is
  have hbytes : report.bytes = wrappingAdd report.bytes 0 := by
    rw [h.bytes, wrappingAdd, Nat.add_zero, Nat.mod_mod]
  cases x with
  | call c => exact h.neutral rfl rfl rfl
  | event e =>
    cases e with
    | fileFinished path bytes elapsed => exact h.add rfl rfl rfl hsame
    | skipped path reason => exact h.add rfl hbytes rfl hsame
    | fileFailed path error willRetry =>
      cases willRetry with
      | true => exact h.neutral rfl rfl rfl
      | false => exact h.add rfl hbytes rfl List.map_append
    | _ => exact h.neutral rfl rfl rfl

/-- The totals of a trace are the sums over its events. -/
theorem Sums.totals (xs : List Happening) : Sums xs (totals xs) [] := by
  induction xs using List.reverseRecOn with
  | nil => exact Sums.zero
  | append_singleton xs x ih =>
    rw [MtpxCore.totals, List.foldl_concat]
    exact ih.snoc x

theorem neutral_of_silent {x : Happening} (h : x.isSilent = true) :
    x.finishedBytes = none ∧ x.failedPath = none ∧ x.isSkipped = false := by
  cases x with
  | call c => exact ⟨rfl, rfl, rfl⟩
  | event e =>
    cases e with
    | fileFinished path bytes elapsed => exact absurd h (by simp [Happening.isSilent])
    | skipped path reason => exact absurd h (by simp [Happening.isSilent])
    | fileFailed path error willRetry =>
      obtain rfl : willRetry = true := h
      exact ⟨rfl, rfl, rfl⟩
    | _ => exact ⟨rfl, rfl, rfl⟩

theorem Sums.silent (h : Sums xs report inFlight) (hy : ∀ y ∈ ys, y.isSilent = true) :
    Sums (xs ++ ys) report inFlight := by
  induction ys generalizing xs with
  | nil =>
    rw [List.append_nil]
    exact h
  | cons y ys ih =>
    obtain ⟨hb, hf, hs⟩ := neutral_of_silent (hy y List.mem_cons_self)
    rw [List.append_cons]
    exact ih (h.neutral hb hf hs) (fun z hz => hy z (List.mem_cons_of_mem y hz))

end Sums

section Counts

variable {P : ℕ → ℕ → Prop} {p : Plan}

/-- One for a copy that is over, finished or failed. -/
def Happening.settled (p : Plan) (x : Happening) : ℕ :=
  x.finishedBytes.toList.length + x.failedPath.toList.countP p.copiesPath

theorem sum_settled (p : Plan) (xs : List Happening) :
    (xs.map (Happening.settled p)).sum =
      (finishedBytes xs).length + (failedPaths xs).countP p.copiesPath := by
  induction xs using List.reverseRecOn with
  | nil => rfl
  | append_singleton xs x ih =>
    rw [List.map_append, List.sum_append, ih, finishedBytes_snoc, failedPaths_snoc,
      List.length_append, List.countP_append]
    simp only [List.map_cons, List.map_nil, List.sum_singleton, Happening.settled]
    omega

/-- A measure of what the totals count is nothing on silent records. -/
theorem sum_silent {m : Happening → ℕ} (hm : ∀ x, x.isSilent = true → m x = 0)
    {xs : List Happening} (h : ∀ x ∈ xs, x.isSilent = true) : (xs.map m).sum = 0 := by
  apply List.sum_eq_zero
  intro n hn
  obtain ⟨x, hx, rfl⟩ := List.mem_map.mp hn
  exact hm x (h x hx)

theorem settled_silent (x : Happening) (h : x.isSilent = true) : x.settled p = 0 := by
  obtain ⟨hb, hf, -⟩ := neutral_of_silent h
  rw [Happening.settled, hb, hf]
  rfl

/-- In a plan with distinct paths, the path of an action is copied exactly when it is a copy. -/
theorem copiesPath_iff (hpaths : p.actions.Pairwise (fun a b => a.path ≠ b.path)) {a : Action}
    (ha : a ∈ p.actions) : p.copiesPath a.path = a.isCopy := by
  have hnodup : (p.actions.map Action.path).Nodup := List.pairwise_map.mpr hpaths
  apply Bool.eq_iff_iff.mpr
  rw [Plan.copiesPath, List.any_eq_true]
  constructor
  · intro h
    obtain ⟨b, hb, hcopy⟩ := h
    rw [Bool.and_eq_true, decide_eq_true_eq] at hcopy
    rw [← List.inj_on_of_nodup_map hnodup hb ha hcopy.2]
    exact hcopy.1
  · intro h
    exact ⟨a, ha, by simp [h]⟩

/-- Every block settles its action, once. -/
theorem Block.sum_settled (hpaths : p.actions.Pairwise (fun a b => a.path ≠ b.path)) {a : Action}
    (ha : a ∈ p.actions) {xs : List Happening} (h : Block P a xs) :
    (xs.map (Happening.settled p)).sum = if a.isCopy = true then 1 else 0 := by
  have hpath := copiesPath_iff hpaths ha
  cases h with
  | made path => rfl
  | skipped path reason => rfl
  | failed message hc hne =>
    rw [List.map_append, List.sum_append, sum_silent settled_silent hc.silent, zero_add]
    simp [Happening.settled, Happening.finishedBytes, Happening.failedPath, hpath,
      List.countP_cons]
  | @copied path size requested offset n modified reason ys ps elapsed hP hat hn hp =>
    have hc : Copying P path size modified requested offset _ := .written hP hat hn hp
    rw [List.map_append, List.sum_append, sum_silent settled_silent hc.silent]
    rfl

theorem countP_eq_sum {α : Type} (f : α → Bool) (xs : List α) :
    xs.countP f = (xs.map (fun x => if f x = true then 1 else 0)).sum := by
  induction xs with
  | nil => rfl
  | cons x xs ih => rw [List.countP_cons, ih, List.map_cons, List.sum_cons, add_comm]

/-- The blocks of some actions settle their copies, each once. -/
theorem Blocks.settled (hpaths : p.actions.Pairwise (fun a b => a.path ≠ b.path))
    {done : List Action} (hsub : ∀ a ∈ done, a ∈ p.actions) {xs : List Happening}
    (h : Blocks (Block P) done xs) :
    (finishedBytes xs).length + (failedPaths xs).countP p.copiesPath = copies done := by
  rw [← sum_settled, copies, countP_eq_sum]
  apply h.within.measure
  intro a ys hb
  exact hb.2.2.sum_settled hpaths (hsub a hb.1)

/-- The totals after some actions account for their copies. -/
theorem totals_settled (hpaths : p.actions.Pairwise (fun a b => a.path ≠ b.path))
    {done : List Action} (hsub : ∀ a ∈ done, a ∈ p.actions) {xs : List Happening}
    (h : Blocks (Block P) done xs) :
    (totals xs).copied + failedCopies p (totals xs) = copies done := by
  have hs := Sums.totals xs
  have hfailed : failedCopies p (totals xs) = (failedPaths xs).countP p.copiesPath := by
    rw [← List.append_nil (failedPaths xs), ← hs.failed, List.countP_map]
    rfl
  rw [hs.copied, hfailed]
  exact Blocks.settled hpaths hsub h

theorem remainingCopies_eq (actions : List Action) : remainingCopies actions = copies actions :=
  List.countP_eq_length_filter.symm

end Counts

section Starts

variable {P : ℕ → ℕ → Prop} {path : RelPath} {size offset : ℕ}

/-- An announced offset is the settled one of the action's own copy. -/
theorem CutBlock.started {a : Action} {xs : List Happening} (h : CutBlock P a xs)
    (hm : .event (.fileStarted path size offset) ∈ xs) : ∃ modified requested reason,
      a = .copy path size modified requested reason ∧ P requested offset := by
  cases h with
  | unstarted => exact absurd hm List.not_mem_nil
  | mkdir => exact absurd hm (by simp)
  | unsettled => exact absurd hm (by simp)
  | @copying q n requested o modified reason xs hc =>
    obtain ⟨ys, rfl, hs, -⟩ := hc.calls
    have hP : P requested o := by cases hc <;> assumption
    rcases List.mem_append.mp hm with hm | hm
    · have he : path = q ∧ size = n ∧ offset = o := by simpa [opening] using hm
      obtain ⟨rfl, rfl, rfl⟩ := he
      exact ⟨modified, requested, reason, rfl, hP⟩
    · exact absurd rfl (List.countP_eq_zero.mp hs _ hm)

theorem Block.started {a : Action} {xs : List Happening} (h : Block P a xs)
    (hm : .event (.fileStarted path size offset) ∈ xs) : ∃ modified requested reason,
      a = .copy path size modified requested reason ∧ P requested offset := by
  cases h with
  | made => exact absurd hm (by simp)
  | skipped => exact absurd hm (by simp)
  | failed message hc hne =>
    exact hc.started (by simpa using hm)
  | @copied q n requested o k modified reason ys ps elapsed hP hat hn hp =>
    have hc : Copying P q n modified requested o _ := .written hP hat hn hp
    have hcut : CutBlock P (.copy q n modified requested reason) _ := .copying hc
    apply hcut.started
    simpa using hm

/-- So does every announcement of a run. -/
theorem RunShape.started {actions : List Action} {outcome : Except Error Report}
    {trace : List Happening} (h : RunShape (Block P) (CutBlock P) actions outcome trace)
    (hm : .event (.fileStarted path size offset) ∈ trace) : ∃ modified requested reason,
      .copy path size modified requested reason ∈ actions ∧ P requested offset := by
  have hblocks {done : List Action} {xs : List Happening} (hb : Blocks (Block P) done xs)
      (hx : .event (.fileStarted path size offset) ∈ xs) : ∃ modified requested reason,
        .copy path size modified requested reason ∈ done ∧ P requested offset := by
    obtain ⟨a, ha, ys, hy, hmy⟩ := hb.mem hx
    obtain ⟨modified, requested, reason, rfl, hP⟩ := hy.started hmy
    exact ⟨modified, requested, reason, ha, hP⟩
  -- an action that was begun is done or cut
  have hbegun {done rest : List Action} {a : Action} {xs ys : List Happening}
      (hs : actions = done ++ a :: rest) (hb : Blocks (Block P) done xs) (hc : CutBlock P a ys)
      (hx : .event (.fileStarted path size offset) ∈ xs ++ ys) : ∃ modified requested reason,
        .copy path size modified requested reason ∈ actions ∧ P requested offset := by
    rw [hs]
    rcases List.mem_append.mp hx with hx | hx
    · obtain ⟨modified, requested, reason, ha, hP⟩ := hblocks hb hx
      exact ⟨modified, requested, reason, List.mem_append_left _ ha, hP⟩
    · obtain ⟨modified, requested, reason, rfl, hP⟩ := hc.started hx
      exact ⟨modified, requested, reason, by simp, hP⟩
  cases h with
  | finished elapsed hb hr => exact hblocks hb (by simpa using hm)
  | interrupted elapsed hs hb hc hr => exact hbegun hs hb hc (by simpa using hm)
  | aborted elapsed message hs hb hc hne hab hr => exact hbegun hs hb hc (by simpa using hm)

end Starts

/-- The balance of a run, by the way it ended: the report is the sum of the events, and the
copies done, failed and remaining are those of the plan. The copy in flight when a run aborts
counts as failed and as remaining. -/
inductive AddsUp (p : Plan) (trace : List Happening) : Except Error Report → Prop
  | finished {report : Report} : report.interrupted = false → Sums trace report [] →
      report.copied + failedCopies p report = p.summary.filesToCopy →
      AddsUp p trace (.ok report)
  | interrupted {report : Report} {remaining : ℕ} : report.interrupted = true →
      .event (.interrupted remaining) ∈ trace → Sums trace report [] →
      report.copied + failedCopies p report + remaining = p.summary.filesToCopy →
      AddsUp p trace (.ok report)
  | aborted {report : Report} {remaining : ℕ} {e : Error} {a : Action} :
      trace.getLast? = some (.event (.aborted report remaining)) → a ∈ p.actions →
      a.isSkip = false → Sums trace report [a.path] →
      report.copied + failedCopies p report + remaining =
        p.summary.filesToCopy + (if a.isCopy = true then 1 else 0) →
      AddsUp p trace (.error e)

section Balance

variable {P : ℕ → ℕ → Prop} {p : Plan}

theorem Plan.filesToCopy_of_length (hlen : p.actions.length ≤ U64_MAX) :
    p.summary.filesToCopy = copies p.actions := by
  rw [p.filesToCopy_eq]
  exact min_eq_left (List.countP_le_length.trans hlen)

theorem copies_append (as bs : List Action) : copies (as ++ bs) = copies as + copies bs :=
  List.countP_append

theorem RunShape.balanced (hpaths : p.actions.Pairwise (fun a b => a.path ≠ b.path))
    (hlen : p.actions.length ≤ U64_MAX) {outcome : Except Error Report} {trace : List Happening}
    (h : RunShape (Block P) (CutBlock P) p.actions outcome trace) :
    AddsUp p trace outcome := by
  have hfiles := Plan.filesToCopy_of_length hlen
  cases h with
  | @finished xs report elapsed hb hr =>
    -- every action has its block, so every copy is settled
    have hcount := totals_settled hpaths (fun a ha => ha) hb
    have hs : Sums (xs ++ [.event (.finished report)]) (totals xs) [] :=
      (Sums.totals xs).neutral rfl rfl rfl
    have hs' : Sums (xs ++ [.event (.finished report)]) report [] := by
      rw [hr] at hs ⊢
      exact ⟨hs.copied, hs.bytes, hs.skipped, hs.failed⟩
    refine .finished ?_ hs' ?_
    · rw [hr]
      exact foldl_tally_interrupted xs Report.zero
    · rw [hfiles, ← hcount, hr]
      rfl
  | @interrupted done rest a xs ys report elapsed hsplit hb hc hr =>
    have hsub : ∀ b ∈ done, b ∈ p.actions := by
      intro b hb
      rw [hsplit]
      exact List.mem_append_left _ hb
    have hcount := totals_settled hpaths hsub hb
    have hs : Sums (xs ++ ys ++ [.event (.interrupted (remainingCopies (a :: rest)))] ++
        [.event (.finished report)]) (totals xs) [] :=
      (((Sums.totals xs).silent hc.silent).neutral rfl rfl rfl).neutral rfl rfl rfl
    rw [List.append_assoc (xs ++ ys)] at hs
    have htold : .event (.interrupted (remainingCopies (a :: rest))) ∈ xs ++ ys ++
        [.event (.interrupted (remainingCopies (a :: rest))), .event (.finished report)] := by
      simp
    refine .interrupted ?_ htold ?_ ?_
    · rw [hr]
    · rw [hr] at hs ⊢
      exact ⟨hs.copied, hs.bytes, hs.skipped, hs.failed⟩
    · rw [hfiles, hsplit, copies_append, ← hcount, ← remainingCopies_eq, hr]
      rfl
  | @aborted done rest a xs ys report e elapsed message hsplit hb hc hne hab hr =>
    have hsub : ∀ b ∈ done, b ∈ p.actions := by
      intro b hb
      rw [hsplit]
      exact List.mem_append_left _ hb
    have hcount := totals_settled hpaths hsub hb
    have ha : a ∈ p.actions := by simp [hsplit]
    have hs : Sums (xs ++ ys ++ [.event (.aborted report (remainingCopies (a :: rest)))])
        (totals xs) [] := ((Sums.totals xs).silent hc.silent).neutral rfl rfl rfl
    refine .aborted (a := a) (List.getLast?_concat ..) ha ?_ ?_ ?_
    · -- a skip calls nothing, so it is never cut
      cases hc with
      | unstarted => exact absurd rfl hne
      | mkdir => rfl
      | unsettled => rfl
      | copying => rfl
    · have hf := hs.failed
      rw [List.append_nil] at hf
      rw [hr] at hs hf ⊢
      exact ⟨hs.copied, hs.bytes, hs.skipped, by rw [← hf, List.map_append]; rfl⟩
    · -- the report has one failure more than the blocks: the one in flight
      have hflight : failedCopies p report =
          failedCopies p (totals xs) + if a.isCopy = true then 1 else 0 := by
        rw [failedCopies, hr]
        dsimp only
        rw [List.countP_append, List.countP_singleton, copiesPath_iff hpaths ha]
        rfl
      have hcopied : report.copied = (totals xs).copied := by rw [hr]
      rw [hfiles, hsplit, copies_append, ← hcount, ← remainingCopies_eq, hflight, hcopied]
      omega

/-- What a block moves, as the plan sees it: if nothing failed and the planned offset was
honoured, exactly what the action had left to move. -/
theorem Block.moved {a : Action} {xs : List Happening} (h : Block P a xs)
    (hf : ∀ path message, .event (.fileFailed path message false) ∉ xs)
    (hh : ∀ path size modified requested reason offset,
      a = .copy path size modified requested reason →
      .event (.fileStarted path size offset) ∈ xs → offset = requested) :
    (xs.map (fun x => x.finishedBytes.getD 0)).sum = a.bytesLeft := by
  cases h with
  | made path => rfl
  | skipped path reason => rfl
  | failed message hc hne => exact absurd (by simp) (hf a.path message)
  | @copied path size requested offset n modified reason ys ps elapsed hP hat hn hp =>
    have hc : Copying P path size modified requested offset _ := .written hP hat hn hp
    have hm : ∀ x : Happening, x.isSilent = true → x.finishedBytes.getD 0 = 0 := by
      intro x hx
      rw [(neutral_of_silent hx).1]
      rfl
    rw [List.map_append, List.sum_append, sum_silent hm hc.silent, zero_add,
      hh path size modified requested reason offset rfl (by simp [opening])]
    rfl

theorem Block.sum_skipped {a : Action} {xs : List Happening} (h : Block P a xs) :
    (xs.map (fun x => if x.isSkipped = true then 1 else 0)).sum =
      if a.isSkip = true then 1 else 0 := by
  have hm : ∀ x : Happening, x.isSilent = true → (if x.isSkipped = true then 1 else 0) = 0 := by
    intro x hx
    rw [(neutral_of_silent hx).2.2]
    rfl
  cases h with
  | made path => rfl
  | skipped path reason => rfl
  | failed message hc hne =>
    have hskip : a.isSkip = false := by
      cases hc with
      | unstarted => exact absurd rfl hne
      | mkdir => rfl
      | unsettled => rfl
      | copying => rfl
    rw [List.map_append, List.sum_append, sum_silent hm hc.silent, hskip]
    rfl
  | @copied path size requested offset n modified reason ys ps elapsed hP hat hn hp =>
    have hc : Copying P path size modified requested offset _ := .written hP hat hn hp
    rw [List.map_append, List.sum_append, sum_silent hm hc.silent]
    rfl

theorem sum_finishedBytes (xs : List Happening) :
    (xs.map (fun x => x.finishedBytes.getD 0)).sum = (finishedBytes xs).sum := by
  induction xs using List.reverseRecOn with
  | nil => rfl
  | append_singleton xs x ih =>
    rw [List.map_append, List.sum_append, ih, finishedBytes_snoc, List.sum_append]
    cases hx : x.finishedBytes <;> simp [hx]

/-- The report of a run in which nothing stopped and nothing failed, and every planned offset
was honoured. -/
theorem RunShape.complete (hlen : p.actions.length ≤ U64_MAX) {report : Report}
    {trace : List Happening}
    (h : RunShape (Block P) (CutBlock P) p.actions (.ok report) trace)
    (hi : report.interrupted = false) (hf : report.failed = [])
    (hh : ∀ path size modified requested reason offset,
      .copy path size modified requested reason ∈ p.actions →
      .event (.fileStarted path size offset) ∈ trace → offset = requested)
    (hsum : bytesLeft p.actions ≤ U64_MAX) :
    report.bytes = p.summary.bytesToCopy ∧ report.skipped = p.summary.filesToSkip := by
  cases h with
  | interrupted elapsed hsplit hb hc hr =>
    rw [hr] at hi
    exact absurd hi (by simp)
  | @finished xs _ elapsed hb hr =>
    have hs := Sums.totals xs
    have hnone : failedPaths xs = [] := by
      have hfailed := hs.failed
      rw [List.append_nil] at hfailed
      rw [← hfailed]
      rw [hr] at hf
      exact congrArg (List.map FailedFile.path) hf
    -- block by block: none failed, so each moved what its action had left
    have hbytes : (finishedBytes xs).sum = bytesLeft p.actions := by
      rw [← sum_finishedBytes, bytesLeft]
      apply hb.within.measure
      intro a ys hblock
      obtain ⟨ha, hsub, hblock⟩ := hblock
      apply hblock.moved
      · intro path message hm
        have hmem : path ∈ failedPaths xs := List.mem_filterMap.mpr ⟨_, hsub _ hm, rfl⟩
        rw [hnone] at hmem
        exact absurd hmem List.not_mem_nil
      · rintro path size modified requested reason offset rfl hm
        exact hh path size modified requested reason offset ha (List.mem_append_left _ (hsub _ hm))
    have hskipped : xs.countP Happening.isSkipped = skips p.actions := by
      rw [countP_eq_sum, skips, countP_eq_sum]
      exact hb.measure (fun a ys hblock => hblock.sum_skipped)
    have h1 : report.bytes = (totals xs).bytes := by rw [hr]
    have h2 : report.skipped = (totals xs).skipped := by rw [hr]
    have hskips : skips p.actions ≤ U64_MAX := List.countP_le_length.trans hlen
    rw [h1, h2, hs.bytes, hs.skipped, hbytes, hskipped, p.bytesToCopy_eq, p.filesToSkip_eq,
      min_eq_left hsum, min_eq_left hskips]
    refine ⟨Nat.mod_eq_of_lt ?_, rfl⟩
    rw [U64_MAX] at hsum
    omega

end Balance

theorem resumeOffset_le (file : Entry) (info : Option PartialInfo) :
    resumeOffset file info ≤ file.size := by
  unfold resumeOffset
  split
  · exact Nat.zero_le _
  · split
    · rename_i h
      exact of_decide_eq_true (Bool.and_eq_true _ _ ▸ h).2
    · exact Nat.zero_le _

/-- The accounts of every run of a planned transfer balance, whatever the endpoints answer and
whenever the token is set, if a write resumes at the planned offset or from zero. No resume
offset exceeds its file's size, and a run that nothing stopped reports the plan's own totals.
A vector of actions is never as long as `u64::MAX`. -/
theorem run_balances {σ : Type} (ex : Executor σ) (source dest : Endpoint σ) (world : σ)
    (tables : CaseTables) (listed there : Snapshot) (folding : NameFolding) (partials : Partials)
    (opts : TransferOptions) {p : Plan}
    (hplan : plan tables listed there folding partials opts = .ok p)
    (hlen : p.actions.length ≤ U64_MAX)
    (hsettle : ∀ path requested world offset world',
      dest.resumeOffset path requested world = (.ok offset, world') →
        offset = 0 ∨ offset = requested) :
    AddsUp p (ex.run p source dest world).2.trace (ex.run p source dest world).1 ∧
      (∀ path size offset,
        .event (.fileStarted path size offset) ∈ (ex.run p source dest world).2.trace →
          offset ≤ size) ∧
      ∀ report, (ex.run p source dest world).1 = .ok report → report.interrupted = false →
        report.failed = [] →
        (∀ path size modified requested reason offset,
          .copy path size modified requested reason ∈ p.actions →
          .event (.fileStarted path size offset) ∈ (ex.run p source dest world).2.trace →
            offset = requested) →
        bytesLeft p.actions ≤ U64_MAX →
          report.bytes = p.summary.bytesToCopy ∧ report.copied = p.summary.filesToCopy ∧
            report.skipped = p.summary.filesToSkip := by
  have hshape : RunShape (Block fun requested offset => offset = 0 ∨ offset = requested)
      (CutBlock fun requested offset => offset = 0 ∨ offset = requested) p.actions
      (ex.run p source dest world).1 (ex.run p source dest world).2.trace :=
    runFrom_shape ex hsettle (ex.now world) p.actions .nil rfl rfl
  have hpaths : p.actions.Pairwise (fun a b => a.path ≠ b.path) := by
    rw [plan_ok hplan]
    exact planned_paths tables listed there folding partials opts.conflict
  have hbal := hshape.balanced hpaths hlen
  refine ⟨hbal, ?_, ?_⟩
  · intro path size offset hm
    obtain ⟨modified, requested, reason, ha, hoffset⟩ := hshape.started hm
    -- the planned offset is within the file, and so is zero
    obtain ⟨e, -, -, -, rfl, -, hresume, -⟩ := planned_copy hplan ha
    rcases hoffset with rfl | rfl
    · exact Nat.zero_le _
    · rw [hresume]
      exact resumeOffset_le e _
  · intro report hok hi hf hh hsum
    rw [hok] at hshape hbal
    obtain ⟨hbytes, hskipped⟩ := hshape.complete hlen hi hf hh hsum
    refine ⟨hbytes, ?_, hskipped⟩
    cases hbal with
    | finished _ _ hcount => simpa [failedCopies, hf] using hcount
    | interrupted hi' => exact absurd (hi.symm.trans hi') (by simp)

private def giants : Snapshot :=
  Snapshot.new "device" [Entry.file (.ofSegments ["a"]) U64_MAX none,
    Entry.file (.ofSegments ["b"]) U64_MAX none] []

private def empty : Snapshot := Snapshot.new "local" [] []

private def giantCopies : Plan :=
  Plan.new [.copy (.ofSegments ["a"]) U64_MAX none 0 .new,
    .copy (.ofSegments ["b"]) U64_MAX none 0 .new]

private def willing : Endpoint ℕ where
  resumeOffset _ requested t := (.ok requested, t)
  read _ _ t := (.ok [], t)
  write _ _ t := (.ok (), 0, t)
  mkdir _ t := (.ok (), t)

private def undisturbed : Executor ℕ where
  isCancelled _ := false
  deliver _ t := t
  hasRoom _ _ := true
  now t := t
  sleep d t := t + d
  isRetryable _ := false
  text _ := "error"
  sleep_now _ _ := le_rfl

/-- Two files of the largest size: both are finished, and the plan is accounted for. -/
theorem run_balances_giants :
    plan .ascii giants empty .exact [] ⟨.skip⟩ = .ok giantCopies ∧
      AddsUp giantCopies (undisturbed.run giantCopies willing willing 0).2.trace
        (undisturbed.run giantCopies willing willing 0).1 := by
  have hplan : plan .ascii giants empty .exact [] ⟨.skip⟩ = .ok giantCopies := by decide
  refine ⟨hplan, (run_balances undisturbed willing willing 0 .ascii giants empty .exact [] ⟨.skip⟩
    hplan (by decide) ?_).1⟩
  intro path requested world offset world' h
  exact Or.inr (Except.ok.inj (Prod.mk.inj h).1).symm

/-- The same run: the bytes of its two `FileFinished` events add up to more than the report's
counter holds, and the report carries what is left after wrapping. -/
theorem report_bytes_wrap :
    plan .ascii giants empty .exact [] ⟨.skip⟩ = .ok giantCopies ∧
      ∃ report, (undisturbed.run giantCopies willing willing 0).1 = .ok report ∧
        finishedBytes (undisturbed.run giantCopies willing willing 0).2.trace =
          [U64_MAX, U64_MAX] ∧
        report.bytes = U64_MAX - 1 := by
  refine ⟨by decide, _, rfl, by decide, by decide⟩

end MtpxCore
