import MtpxCore.ExecutorAccounts
import MtpxCore.ExecutorWrites
import MtpxCore.ProgressBars

/-! The overall bar over a whole run. The renderer counts the bytes of finished files, and the
executor never tells it that the bytes of a failed file are gone, so the bar is right as long as
no copy goes on after such a loss and every copy moves what the plan had counted on. -/
namespace MtpxCore

theorem wrappingAdd_of_le {a b : ℕ} (h : a + b ≤ U64_MAX) : wrappingAdd a b = a + b := by
  apply Nat.mod_eq_of_lt
  rw [U64_MAX] at h
  omega

namespace Renderer

variable {limit : ℕ} {r : Renderer} {xs : List Happening}

theorem Climbs.position_le (h : r.Climbs limit (sent xs)) : r.position ≤ (r.watch xs).position := by
  unfold watch
  generalize sent xs = es at h
  induction es generalizing r with
  | nil => exact le_rfl
  | cons e es ih => exact h.2.1.trans (ih h.2.2)

theorem Climbs.end_le (h : r.Climbs limit (sent xs)) : (r.watch xs).position ≤ limit := by
  unfold watch
  generalize sent xs = es at h
  induction es generalizing r with
  | nil => exact h
  | cons e es ih => exact ih h.2.2

theorem handle_still {e : ProgressEvent}
    (h : (Happening.event e).isQuiet = true ∨ (Happening.event e).isStart = true) :
    (r.handle e).position = r.position ∧ (r.handle e).tally.fileBase = r.tally.fileBase := by
  cases e with
  | fileProgress path bytes => exact absurd h (by simp [Happening.isQuiet, Happening.isStart])
  | fileFinished path bytes elapsed =>
    exact absurd h (by simp [Happening.isQuiet, Happening.isStart])
  | _ => exact ⟨rfl, rfl⟩

theorem watch_still (hxs : ∀ x ∈ xs, x.isQuiet = true ∨ x.isStart = true)
    (hle : r.position ≤ limit) : r.Climbs limit (sent xs) ∧
      (r.watch xs).position = r.position ∧ (r.watch xs).tally.fileBase = r.tally.fileBase := by
  induction xs generalizing r with
  | nil => exact ⟨hle, rfl, rfl⟩
  | cons x xs ih =>
    have hrest : ∀ y ∈ xs, y.isQuiet = true ∨ y.isStart = true := fun y hy =>
      hxs y (List.mem_cons_of_mem x hy)
    cases x with
    | call c => exact ih hrest hle
    | event e =>
      obtain ⟨hposition, hbase⟩ := handle_still (r := r) (hxs _ List.mem_cons_self)
      obtain ⟨hclimbs, hp, hb⟩ := ih (r := r.handle e) hrest (hposition.trans_le hle)
      exact ⟨⟨hle, hposition.ge, hclimbs⟩, hp.trans hposition, hb.trans hbase⟩

theorem watch_quiet_tally (hxs : ∀ x ∈ xs, x.isQuiet = true) : (r.watch xs).tally = r.tally := by
  induction xs generalizing r with
  | nil => rfl
  | cons x xs ih =>
    have hrest := fun y hy => hxs y (List.mem_cons_of_mem x hy)
    have hx := hxs x List.mem_cons_self
    cases x with
    | call c => exact ih hrest
    | event e =>
      refine (ih (r := r.handle e) hrest).trans ?_
      cases e with
      | fileStarted path size resumeFrom => exact absurd hx (by simp [Happening.isQuiet])
      | fileProgress path bytes => exact absurd hx (by simp [Happening.isQuiet])
      | fileFinished path bytes elapsed => exact absurd hx (by simp [Happening.isQuiet])
      | _ => rfl

/-- The reports of a stream move the bar from the finished bytes up, by what has been taken. -/
theorem watch_reports (path : RelPath) {bytes : List ℕ} {n : ℕ}
    (hsorted : bytes.Pairwise (· ≤ ·))
    (hbytes : ∀ b ∈ bytes, r.tally.resumeFrom ≤ b ∧ b ≤ r.tally.resumeFrom + n)
    (hroom : r.tally.fileBase + n ≤ limit) (hlimit : limit ≤ U64_MAX)
    (hbelow : ∀ b ∈ bytes, r.position ≤ r.tally.fileBase + (b - r.tally.resumeFrom))
    (hle : r.position ≤ r.tally.fileBase + n) :
    r.Climbs limit (sent (reports path bytes)) ∧
      (r.watch (reports path bytes)).tally = r.tally ∧
      (r.watch (reports path bytes)).position ≤ r.tally.fileBase + n := by
  induction bytes generalizing r with
  | nil => exact ⟨hle.trans hroom, rfl, hle⟩
  | cons b bytes ih =>
    rw [List.pairwise_cons] at hsorted
    have hb := hbytes b List.mem_cons_self
    have hmoved : b - r.tally.resumeFrom ≤ n := Nat.sub_le_iff_le_add'.mpr hb.2
    have hposition : (r.fileProgress b).position =
        r.tally.fileBase + (b - r.tally.resumeFrom) := by
      rw [fileProgress_position]
      apply wrappingAdd_of_le
      omega
    have hnext := ih (r := r.fileProgress b) hsorted.2
      (fun c hc => hbytes c (List.mem_cons_of_mem b hc)) hroom
      (fun c hc => by
        rw [hposition]
        exact Nat.add_le_add_left (Nat.sub_le_sub_right (hsorted.1 c hc) _) _)
      (by
        rw [hposition]
        exact Nat.add_le_add_left hmoved _)
    exact ⟨⟨hle.trans hroom, hposition ▸ hbelow b List.mem_cons_self, hnext.1⟩, hnext.2⟩

/-- A copy up to the end of its stream, for a bar that is at the finished bytes. -/
theorem watch_stream (path : RelPath) (size requested : ℕ) {offset n : ℕ} {bytes : List ℕ}
    (hlevel : r.position = r.tally.fileBase) (hxs : ∀ x ∈ xs, x.isQuiet = true)
    (hsorted : bytes.Pairwise (· ≤ ·)) (hbytes : ∀ b ∈ bytes, offset ≤ b ∧ b ≤ offset + n)
    (hroom : r.tally.fileBase + n ≤ limit) (hlimit : limit ≤ U64_MAX) :
    r.Climbs limit (sent (opening path size requested offset ++ (xs ++ reports path bytes))) ∧
      (r.watch (opening path size requested offset ++
        (xs ++ reports path bytes))).tally.fileBase = r.tally.fileBase ∧
      (r.watch (opening path size requested offset ++ (xs ++ reports path bytes))).position ≤
        r.tally.fileBase + n := by
  let r₁ := r.fileStarted path size offset
  have hin : r.position ≤ limit := hlevel.trans_le ((Nat.le_add_right _ n).trans hroom)
  have hquiet : ∀ x ∈ xs, x.isQuiet = true ∨ x.isStart = true := fun x hx => Or.inl (hxs x hx)
  obtain ⟨hclimbs, hposition, -⟩ := watch_still (r := r₁) hquiet hin
  have htally : (r₁.watch xs).tally = r₁.tally := watch_quiet_tally hxs
  have hat : (r₁.watch xs).position = (r₁.watch xs).tally.fileBase := by
    rw [hposition, htally]
    exact hlevel
  obtain ⟨hreports, hend, hle⟩ := watch_reports (r := r₁.watch xs) path (n := n) hsorted
    (by rwa [htally]) (by rwa [htally]) hlimit (fun b _ => hat.trans_le (Nat.le_add_right _ _))
    (hat.trans_le (Nat.le_add_right _ _))
  have hwatch : r.watch (opening path size requested offset ++ (xs ++ reports path bytes)) =
      (r₁.watch xs).watch (reports path bytes) := by
    rw [watch_append, watch_append]
    rfl
  have hbase : (r₁.watch xs).tally.fileBase = r.tally.fileBase := by
    rw [htally]
    rfl
  rw [hwatch, hend, hbase]
  rw [hbase] at hle
  exact ⟨⟨hin, le_rfl, hclimbs.append hreports⟩, rfl, hle⟩

/-- The end of a file puts the bar at the finished bytes again. -/
theorem watch_finish (path : RelPath) (elapsed : ℕ) {bytes : ℕ}
    (hroom : r.tally.fileBase + bytes ≤ limit) (hlimit : limit ≤ U64_MAX)
    (hle : r.position ≤ r.tally.fileBase + bytes) :
    r.Climbs limit (sent [.event (.fileFinished path bytes elapsed)]) ∧
      (r.watch [.event (.fileFinished path bytes elapsed)]).position = r.tally.fileBase + bytes ∧
      (r.watch [.event (.fileFinished path bytes elapsed)]).tally.fileBase =
        r.tally.fileBase + bytes := by
  have hsum : wrappingAdd r.tally.fileBase bytes = r.tally.fileBase + bytes :=
    wrappingAdd_of_le (hroom.trans hlimit)
  have hposition : (r.fileFinished bytes).position = r.tally.fileBase + bytes := hsum
  have hbase : (r.fileFinished bytes).tally.fileBase = r.tally.fileBase + bytes := hsum
  refine ⟨⟨hle.trans hroom, ?_, ?_⟩, hposition, hbase⟩
  · exact hle.trans hposition.ge
  · exact hposition.trans_le hroom

end Renderer

/-- Between two actions: the bar is at the finished bytes or, once bytes were lost, past them, and
there is room for what is left in the plan and for what is still to be counted. Nothing is missing
unless a copy has failed. -/
structure OnTrack (p : Plan) (left counted : ℕ) (lost : Bool) (report : Report) (r : Renderer) :
    Prop where
  base_le : r.tally.fileBase ≤ r.position
  within : r.position + left ≤ bytesLeft p.actions
  fits : r.tally.fileBase + counted ≤ U64_MAX
  level : lost = false → r.position = r.tally.fileBase
  complete : failedCopies p report = 0 →
    lost = false ∧ r.tally.fileBase + left = bytesLeft p.actions

section OnTrack

variable {p : Plan} {a : Action} {left counted : ℕ} {lost : Bool} {report report' : Report}
  {r : Renderer}

theorem failedCopies_kept (h : report.failed <+: report'.failed) :
    failedCopies p report ≤ failedCopies p report' :=
  h.sublist.countP_le

/-- A copy that is listed as failed is counted. -/
theorem failedCopies_pos (ha : a ∈ p.actions) (hcopy : a.isCopy = true)
    (h : a.path ∈ report.failed.map FailedFile.path) : failedCopies p report ≠ 0 := by
  obtain ⟨f, hf, hpath⟩ := List.mem_map.mp h
  have hcounted : p.copiesPath f.path = true :=
    List.any_eq_true.mpr ⟨a, ha, by simp [hcopy, hpath]⟩
  exact (List.countP_pos_iff.mpr ⟨f, hf, hcounted⟩).ne'

/-- A write that goes as planned has left to move what its action has. -/
theorem Written.AsPlanned.toMove {planned : WriteRequest} {offset n : ℕ} {answer : Except Error Unit}
    (h : Written.AsPlanned ⟨planned, offset, n, answer⟩) (reason : CopyReason) :
    (Action.copy planned.path planned.expectedSize planned.modified planned.resumeFrom
        reason).bytesLeft = planned.expectedSize - offset ∧
      n ≤ planned.expectedSize - offset := by
  have hoffset : offset = planned.resumeFrom := h.offset_eq
  rw [hoffset]
  exact ⟨rfl, hoffset ▸ h.moved_le⟩

/-- A write that goes as planned is counted for no less than it took, and for no more than its
action had left. -/
theorem Written.AsPlanned.counted_bounds {w : Written} (h : w.AsPlanned) :
    w.moved ≤ w.counted ∧ w.counted ≤ w.planned.expectedSize - w.offset := by
  have hmoved := h.moved_le
  unfold Written.counted
  cases w.answer with
  | error e => exact ⟨le_rfl, hmoved⟩
  | ok u => exact ⟨hmoved, le_rfl⟩

/-- A copy that goes as planned, up to the end of its stream, for a bar on track. -/
theorem OnTrack.stream {planned : WriteRequest} {reason : CopyReason}
    {offset n : ℕ} {answer : Except Error Unit} {bytes : List ℕ} {xs : List Happening}
    (ht : OnTrack p (a.bytesLeft + left)
      (Written.counted ⟨planned, offset, n, answer⟩ + counted) lost report r)
    (hcopy : a =
      .copy planned.path planned.expectedSize planned.modified planned.resumeFrom reason)
    (hw : Written.AsPlanned ⟨planned, offset, n, answer⟩ ∧ lost = false)
    (hxs : ∀ x ∈ xs, x.isQuiet = true) (hsorted : bytes.Pairwise (· ≤ ·))
    (hbytes : ∀ b ∈ bytes, offset ≤ b ∧ b ≤ offset + n) :
    a.bytesLeft = planned.expectedSize - offset ∧ n ≤ a.bytesLeft ∧
      r.position = r.tally.fileBase ∧
      r.Climbs (min (bytesLeft p.actions) U64_MAX) (sent (opening planned.path
        planned.expectedSize planned.resumeFrom offset ++ (xs ++ reports planned.path bytes))) ∧
      (r.watch (opening planned.path planned.expectedSize planned.resumeFrom offset ++
        (xs ++ reports planned.path bytes))).tally.fileBase = r.tally.fileBase ∧
      (r.watch (opening planned.path planned.expectedSize planned.resumeFrom offset ++
        (xs ++ reports planned.path bytes))).position ≤ r.tally.fileBase + n := by
  obtain ⟨hleft, hmoved⟩ := hw.1.toMove reason
  rw [← hcopy] at hleft
  rw [← hleft] at hmoved
  have hlevel := ht.level hw.2
  have hwithin := ht.within
  have hfits := ht.fits
  have hcounted : n ≤ Written.counted ⟨planned, offset, n, answer⟩ := hw.1.counted_bounds.1
  have hroom : r.tally.fileBase + n ≤ min (bytesLeft p.actions) U64_MAX := by
    apply le_min <;> omega
  exact ⟨hleft, hmoved, hlevel, Renderer.watch_stream planned.path planned.expectedSize
    planned.resumeFrom hlevel hxs hsorted hbytes hroom (min_le_right _ _)⟩

/-- A step keeps the bar on track, if its write goes as planned and no bytes were lost before. -/
theorem StepTold.onTrack {w : Option Written} {outcome : Except Stop Unit} {xs : List Happening}
    (h : StepTold a report w outcome report' xs) (ha : a ∈ p.actions)
    (hw : ∀ v ∈ w, v.AsPlanned ∧ lost = false) (hin : r.position ≤ min (bytesLeft p.actions) U64_MAX)
    (ht : OnTrack p (a.bytesLeft + left) (w.elim 0 Written.counted + counted) lost report r) :
    r.Climbs (min (bytesLeft p.actions) U64_MAX) (sent xs) ∧ (outcome = .ok () →
      OnTrack p left counted (lost || w.any Written.losesBytes) report' (r.watch xs)) := by
  have hwithin := ht.within
  have hfits := ht.fits
  cases h with
  | still hxs hkept hlisted =>
    -- no byte moved, so an action that had some left is a copy that has just failed
    obtain ⟨hclimbs, hposition, hbase⟩ := Renderer.watch_still hxs hin
    refine ⟨hclimbs, fun hok => ⟨?_, ?_, ?_, ?_, ?_⟩⟩
    · rw [hposition, hbase]
      exact ht.base_le
    · rw [hposition]
      omega
    · rw [hbase]
      exact (Nat.zero_add counted) ▸ hfits
    · intro hlost
      rw [hposition, hbase]
      exact ht.level (by simpa using hlost)
    · intro hnone
      obtain ⟨hlost, hleft⟩ := ht.complete (Nat.le_zero.mp (hnone ▸ failedCopies_kept hkept))
      have hzero : a.bytesLeft = 0 := by
        cases a with
        | copy path size modified resumeFrom reason =>
          exact absurd hnone (failedCopies_pos ha rfl (hlisted hok rfl))
        | mkdir path => rfl
        | skip path reason => rfl
      rw [hbase]
      exact ⟨by simpa using hlost, by omega⟩
  | @broken planned reason offset n e bytes xs ys r' report' hcopy hxs hsorted hbytes hys hnoted =>
    have hlost := (hw _ rfl).2
    obtain ⟨-, hmoved, hlevel, hclimbs, hbase, hle⟩ :=
      ht.stream hcopy (hw _ rfl) hxs hsorted hbytes
    have hup := hclimbs.position_le
    obtain ⟨hclimbs', hposition', hbase'⟩ := Renderer.watch_still (fun y hy => Or.inl (hys y hy))
      hclimbs.end_le
    refine ⟨hclimbs.append hclimbs', fun hok => ?_⟩
    rw [Renderer.watch_append]
    refine ⟨?_, ?_, ?_, ?_, ?_⟩
    · rw [hposition', hbase', hbase]
      omega
    · rw [hposition']
      omega
    · rw [hbase', hbase]
      exact (Nat.add_le_add_left (Nat.le_add_left _ _) _).trans hfits
    · -- nothing was lost if the stream broke off before its first byte
      intro hnot
      have hzero : n = 0 := by simpa [hlost, Written.losesBytes] using hnot
      rw [hposition', hbase', hbase]
      omega
    · intro hnone
      have hlisted := hnoted.listed hok
      exact absurd hnone (failedCopies_pos ha (hcopy ▸ rfl) hlisted)
  | @whole planned reason offset n elapsed bytes xs report' hcopy hxs hsorted hbytes hfailed =>
    have hlost := (hw _ rfl).2
    obtain ⟨hleft, hmoved, hlevel, hclimbs, hbase, hle⟩ :=
      ht.stream hcopy (hw _ rfl) hxs hsorted hbytes
    have hwhole : r.tally.fileBase + (a.bytesLeft + counted) ≤ U64_MAX := hleft ▸ hfits
    have hroom : r.tally.fileBase + a.bytesLeft ≤ min (bytesLeft p.actions) U64_MAX := by
      apply le_min <;> omega
    rw [← List.append_assoc, ← hleft]
    generalize opening planned.path planned.expectedSize planned.resumeFrom offset ++
      (xs ++ reports planned.path bytes) = ys at hclimbs hbase hle ⊢
    obtain ⟨hfinish, hposition, hbase'⟩ := Renderer.watch_finish (r := r.watch ys) planned.path
      elapsed (hbase ▸ hroom) (min_le_right _ _)
      (hbase ▸ (by omega : (r.watch ys).position ≤ r.tally.fileBase + a.bytesLeft))
    refine ⟨hclimbs.append hfinish, fun _ => ?_⟩
    rw [Renderer.watch_append]
    refine ⟨hbase'.trans_le hposition.ge, ?_, ?_, fun _ => hposition.trans hbase'.symm, ?_⟩
    · rw [hposition, hbase]
      omega
    · rw [hbase', hbase]
      omega
    · intro hnone
      have hbefore : failedCopies p report = 0 := by
        rw [failedCopies, hfailed]
        exact hnone
      obtain ⟨-, hcomplete⟩ := ht.complete hbefore
      refine ⟨by rw [hlost]; rfl, ?_⟩
      rw [hbase', hbase]
      omega

end OnTrack

section Runs

variable {σ : Type} (ex : Executor σ) {source dest : Endpoint σ} {p : Plan} {r : Renderer}

/-- The events a run ends with leave the bar where it is. -/
theorem Renderer.Climbs.quiet {limit : ℕ} {xs : List Happening} (h : r.Climbs limit (sent xs))
    (ys : List Happening) (hys : ∀ y ∈ ys, y.isQuiet = true) :
    r.Climbs limit (sent (xs ++ ys)) ∧ (r.watch (xs ++ ys)).position = (r.watch xs).position := by
  obtain ⟨hclimbs, hposition, -⟩ := watch_still (fun y hy => Or.inl (hys y hy)) h.end_le
  rw [watch_append]
  exact ⟨h.append hclimbs, hposition⟩

/-- Under its plan a run is counted for no more than the plan has to move. -/
theorem Executor.MovesAsPlanned.counted_le {lost : Bool} {actions : List Action} {report : Report}
    {s : Scene σ} (h : ex.MovesAsPlanned source dest lost actions report s) :
    ex.countedBytes source dest actions report s ≤ bytesLeft actions := by
  induction actions generalizing lost report s with
  | nil => exact Nat.zero_le _
  | cons a as ih =>
    rcases hstep : ex.step source dest a report s with ⟨outcome, report', s'⟩
    obtain ⟨_, -, htold⟩ := step_told ex a hstep
    rw [Executor.MovesAsPlanned, hstep] at h
    rw [Executor.countedBytes, hstep, bytesLeft_cons]
    apply Nat.add_le_add
    · have hw := h.1
      cases hwrites : ex.writes source dest a s with
      | none => exact Nat.zero_le _
      | some w =>
        rw [hwrites] at htold hw
        have hplanned := (hw w rfl).1
        have hle := hplanned.counted_bounds.2
        rw [hplanned.offset_eq] at hle
        cases htold with
        | broken hcopy => exact hcopy ▸ hle
        | whole hcopy => exact hcopy ▸ hle
    · cases outcome with
      | error stop => exact Nat.zero_le _
      | ok => exact ih h.2

theorem runFrom_climbs (since : ℕ) (actions : List Action)
    {lost : Bool} {report : Report} {s : Scene σ} (hsub : ∀ a ∈ actions, a ∈ p.actions)
    (hplanned : ex.MovesAsPlanned source dest lost actions report s)
    (hclimbs : r.Climbs (min (bytesLeft p.actions) U64_MAX) (sent s.trace))
    (ht : OnTrack p (bytesLeft actions) (ex.countedBytes source dest actions report s) lost report
      (r.watch s.trace))
    {outcome : Except Error Report} {s' : Scene σ}
    (h : ex.runFrom source dest since actions report s = (outcome, s')) :
    r.Climbs (min (bytesLeft p.actions) U64_MAX) (sent s'.trace) ∧ ∀ report', outcome = .ok report' →
      report'.interrupted = false → failedCopies p report' = 0 →
        (r.watch s'.trace).position = min (bytesLeft p.actions) U64_MAX := by
  induction actions generalizing lost report s with
  | nil =>
    rw [Executor.runFrom] at h
    cases h
    obtain ⟨hend, hposition⟩ := hclimbs.quiet
      [.event (.finished (ex.finish report since s).1)] (by simp [Happening.isQuiet])
    refine ⟨hend, ?_⟩
    intro report' hreport _ hnone
    cases hreport
    obtain ⟨hlost, hcomplete⟩ := ht.complete hnone
    -- everything was copied, so the sum of the plan is the count of the run
    have hfits := ht.fits
    have hsum : bytesLeft p.actions ≤ U64_MAX := hcomplete ▸ hfits
    rw [min_eq_left hsum, ← hcomplete, ← ht.level hlost]
    exact hposition
  | cons a as ih =>
    rcases hstep : ex.step source dest a report s with ⟨outcome₁, report₁, s₁⟩
    obtain ⟨xs, htrace, htold⟩ := step_told ex a hstep
    rw [Executor.MovesAsPlanned, hstep] at hplanned
    rw [bytesLeft_cons, Executor.countedBytes, hstep] at ht
    obtain ⟨hstepped, hnext⟩ := htold.onTrack (hsub a List.mem_cons_self) hplanned.1
      hclimbs.end_le ht
    have hclimbs₁ : r.Climbs (min (bytesLeft p.actions) U64_MAX) (sent s₁.trace) := by
      rw [htrace]
      exact hclimbs.append hstepped
    simp only [Executor.runFrom, hstep] at h
    cases outcome₁ with
    | ok =>
      apply ih (fun b hb => hsub b (List.mem_cons_of_mem a hb)) hplanned.2 hclimbs₁ _ h
      rw [htrace, Renderer.watch_append]
      exact hnext rfl
    | error stop =>
      cases stop with
      | interrupted =>
        cases h
        obtain ⟨hend, -⟩ := hclimbs₁.quiet
          [.event (.interrupted (remainingCopies (a :: as))), .event (.finished
            (ex.interrupt report₁ since (remainingCopies (a :: as)) s₁).1)]
          (by simp [Happening.isQuiet])
        have htold₁ : (ex.interrupt report₁ since (remainingCopies (a :: as)) s₁).2.trace =
            s₁.trace ++ [.event (.interrupted (remainingCopies (a :: as))), .event (.finished
              (ex.interrupt report₁ since (remainingCopies (a :: as)) s₁).1)] :=
          List.append_assoc _ _ _
        rw [htold₁]
        refine ⟨hend, ?_⟩
        intro report' hreport hnot
        cases hreport
        exact absurd hnot (by simp [Executor.interrupt, Executor.finish])
      | aborted e =>
        cases h
        refine ⟨(hclimbs₁.quiet _ (by simp [Happening.isQuiet])).1, ?_⟩
        intro report' hreport
        exact absurd hreport (by simp)

end Runs

/-- The overall bar of a run never falls and never passes what the plan has to move, and when no
copy has failed and nothing was interrupted it ends there: in every run whose writes start at the
planned offset, take no more than their files have left, stop once one has lost bytes, and are
counted for no more than a `u64` holds. -/
theorem overall_bar_climbs {σ : Type} (ex : Executor σ) (p : Plan) (source dest : Endpoint σ)
    (world : σ) (hfits : ex.countedBytes source dest p.actions Report.zero ⟨world, []⟩ ≤ U64_MAX)
    (hplanned : ex.MovesAsPlanned source dest false p.actions Report.zero ⟨world, []⟩) :
    (Renderer.new.planReady p.summary).Climbs p.summary.bytesToCopy
        (sent (ex.run p source dest world).2.trace) ∧
      ∀ report, (ex.run p source dest world).1 = .ok report → report.interrupted = false →
        failedCopies p report = 0 →
          ((Renderer.new.planReady p.summary).watch (ex.run p source dest world).2.trace).position =
            p.summary.bytesToCopy := by
  have hstart : (Renderer.new.planReady p.summary).position = 0 :=
    Renderer.planReady_position _ _
  have hbase : (Renderer.new.planReady p.summary).tally.fileBase = 0 := rfl
  rw [p.bytesToCopy_eq]
  refine runFrom_climbs ex (ex.now world) p.actions (fun a ha => ha) hplanned ?_ ?_ rfl
  · exact hstart.trans_le (Nat.zero_le _)
  · refine ⟨hbase.trans_le (Nat.zero_le _), ?_, ?_, fun _ => hstart.trans hbase.symm,
      fun _ => ⟨rfl, ?_⟩⟩
    · exact (congrArg (· + bytesLeft p.actions) hstart).trans_le (Nat.zero_add _).le
    · exact (Nat.zero_add _).trans_le hfits
    · exact (congrArg (· + bytesLeft p.actions) hbase).trans (Nat.zero_add _)

private def pathA : RelPath := .ofSegments ["a.mov"]

private def pathB : RelPath := .ofSegments ["b.mov"]

/-- Two files of four bytes each, and two of the first one's on a part. -/
private def pairListed : Snapshot :=
  Snapshot.new "device" [Entry.file pathA 4 none, Entry.file pathB 4 none] []

private def pairPart : Partials := [(pathA, ⟨⟨4, none⟩, 2⟩)]

private def pairPlan : Plan := Plan.new [.copy pathA 4 none 2 .new, .copy pathB 4 none 0 .new]

private theorem pairPlan_planned :
    plan .ascii pairListed (Snapshot.new "local" [] []) .exact pairPart ⟨.skip⟩ = .ok pairPlan := by
  decide

private def patient : Executor ℕ where
  isCancelled _ := false
  deliver _ t := t
  hasRoom _ _ := true
  now t := t
  sleep d t := t + d + 1
  isRetryable _ := false
  text _ := "error"
  sleep_now _ _ := Nat.le_succ _

/-- The rest of a file, byte by byte. -/
private def byteByByte : Endpoint ℕ where
  resumeOffset _ requested t := (.ok requested, t)
  read _ offset t := (.ok (List.replicate (4 - offset) (.ok [0])), t)
  write _ _ t := (.ok (), 4, t)
  mkdir _ t := (.ok (), t)

/-- A destination that may forget its parts, and may lose a file after two bytes. -/
private def leaky (forgets : Bool) (lost : RelPath) : Endpoint ℕ where
  resumeOffset _ requested t := (.ok (if forgets then 0 else requested), t)
  read _ _ t := (.ok [], t)
  write request _ t :=
    if request.path = lost then (.error (.sourceVanished lost), 2, t) else (.ok (), 4, t)
  mkdir _ t := (.ok (), t)

/-- The last file is lost, or none is. -/
theorem overall_bar_climbs_pair :
    (Renderer.new.planReady pairPlan.summary).Climbs 6
        (sent (patient.run pairPlan byteByByte (leaky false pathB) 0).2.trace) ∧
      ((Renderer.new.planReady pairPlan.summary).watch
        (patient.run pairPlan byteByByte (leaky false .root) 0).2.trace).position = 6 := by
  have hplanned (path : RelPath) (h : path = pathB ∨ path = .root) :
      patient.MovesAsPlanned byteByByte (leaky false path) false pairPlan.actions Report.zero
        ⟨0, []⟩ := by
    rcases h with rfl | rfl
    all_goals
      refine ⟨?_, ?_, trivial⟩
      · rintro w ⟨⟩
        exact ⟨⟨rfl, by decide⟩, rfl⟩
      · rintro w ⟨⟩
        exact ⟨⟨rfl, by decide⟩, rfl⟩
  constructor
  · have hb := hplanned pathB (.inl rfl)
    exact (overall_bar_climbs patient pairPlan byteByByte (leaky false pathB) 0
      (hb.counted_le.trans (by decide)) hb).1
  · have hroot := hplanned .root (.inr rfl)
    exact (overall_bar_climbs patient pairPlan byteByByte (leaky false .root) 0
      (hroot.counted_le.trans (by decide)) hroot).2 _ rfl rfl (by decide)

/-- Where the first file is lost the bar goes back from two bytes to one, and where the part of
the first file is gone it ends at eight bytes of six. -/
theorem overall_bar_rewinds :
    plan .ascii pairListed (Snapshot.new "local" [] []) .exact pairPart ⟨.skip⟩ = .ok pairPlan ∧
      ¬(Renderer.new.planReady pairPlan.summary).Climbs pairPlan.summary.bytesToCopy
        (sent (patient.run pairPlan byteByByte (leaky false pathA) 0).2.trace) ∧
      ¬(Renderer.new.planReady pairPlan.summary).Climbs pairPlan.summary.bytesToCopy
        (sent (patient.run pairPlan byteByByte (leaky true .root) 0).2.trace) :=
  ⟨pairPlan_planned, by decide, by decide⟩

end MtpxCore
