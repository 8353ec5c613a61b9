import MtpxCore.SessionEvents

/-! A transfer comes to its end whatever the interleaving, and a Ctrl-C is announced once at most.
Every step uses up some of what a rank counts, and until the end there is always one to take. -/
namespace MtpxCore

open LossyChannel

namespace Session

variable {σ : Type} (S : Session σ)

/-- How many events the run of the plan sends, when there is a plan. -/
def runLength : ℕ :=
  match (S.scan .source).result, (S.scan .dest).result with
  | .ok source, .ok dest =>
    match S.planOf source dest with
    | .ok p => (S.runEvents p).length
    | .error _ => 0
  | _, _ => 0

def scanRank (side : Side) : ScanState → ℕ
  | .waiting => (S.scan side).reports.length + 4
  | .walking left => left.length + 3
  | .walked => 2
  | .finished => 0

def phaseRank : Phase → ℕ
  | .opening => (S.scan .source).reports.length + (S.scan .dest).reports.length + S.runLength + 14
  | .scanning scan => S.scanRank .source (scan .source) + S.scanRank .dest (scan .dest) + S.runLength + 5
  | .announcing p _ => (S.runEvents p).length + 4
  | .bound p => (S.runEvents p).length + 3
  | .running left _ => left.length + 2
  | .ended _ => 0

/-- What the command has left to do. -/
def coreRank (c : Core) : ℕ := S.phaseRank c.phase + c.stray.length

variable {S}

/-- A scan that moves on takes its side's share of the rank down. -/
theorem scanning_rank {scan : Side → ScanState} {side : Side} {next : ScanState}
    (h : S.scanRank side next < S.scanRank side (scan side)) :
    S.coreRank ⟨.scanning (Function.update scan side next), []⟩ < S.coreRank ⟨.scanning scan, []⟩ := by
  cases side with
  | source => simpa [coreRank, phaseRank, Function.update] using h
  | dest => simpa [coreRank, phaseRank, Function.update] using h

theorem strayWalk_rank (side : Side) (scan : Side → ScanState) :
    (strayWalk side scan).length ≤ S.scanRank .dest (scan .dest) := by
  unfold strayWalk
  split
  · rename_i left hleft
    rw [hleft, scanRank]
    exact Nat.le_add_right _ _
  · exact Nat.zero_le _

theorem Sends.rank_lt {c c' : Core} {l : Option SessionEvent} (h : S.Sends c l c') :
    S.coreRank c' < S.coreRank c := by
  cases h with
  | opened _ =>
    simp only [coreRank, phaseRank, scanRank, List.length_nil]
    omega
  | refused _ =>
    simp only [coreRank, phaseRank, List.length_nil]
    omega
  | start side hside =>
    apply scanning_rank
    rw [hside, scanRank, scanRank]
    omega
  | report side hside =>
    apply scanning_rank
    rw [hside, scanRank, scanRank, List.length_cons]
    omega
  | walked side hside _ =>
    apply scanning_rank
    rw [hside, scanRank, scanRank]
    omega
  | @failed scan side e hside _ =>
    -- the other walk may go on reporting, which is less than it had left
    have hstray := strayWalk_rank (S := S) side scan
    simp only [coreRank, phaseRank, List.length_nil]
    omega
  | finish side hside _ =>
    apply scanning_rank
    rw [hside, scanRank, scanRank]
    omega
  | @planned scan source dest p _ hsource hdest hplan =>
    -- the run that follows is as long as this plan makes it
    have hlength : S.runLength = (S.runEvents p).length := by
      simp only [runLength, hsource, hdest, hplan]
    simp only [coreRank, phaseRank, List.length_nil]
    omega
  | conflicts _ _ _ _ =>
    simp only [coreRank, phaseRank, List.length_nil]
    omega
  | announce =>
    simp only [coreRank, phaseRank]
    omega
  | dryRun _ =>
    simp only [coreRank, phaseRank]
    omega
  | begin _ =>
    simp only [coreRank, phaseRank]
    omega
  | emit =>
    simp only [coreRank, phaseRank, List.length_cons]
    omega
  | returned =>
    simp only [coreRank, phaseRank]
    omega
  | stray =>
    simp only [coreRank, phaseRank, List.length_cons]
    omega
  | strayStopped =>
    simp only [coreRank, phaseRank, List.length_cons, List.length_nil]
    omega

/-- A walk that is over without an error has a result. -/
def Settled (S : Session σ) (c : Core) : Prop :=
  ∀ scan, c.phase = .scanning scan → ∀ side, scan side = .walked ∨ scan side = .finished →
    ∃ result, (S.scan side).result = .ok result

theorem settled_update {scan : Side → ScanState} {side : Side} {next : ScanState}
    (h : S.Settled ⟨.scanning scan, []⟩)
    (hnext : next = .walked ∨ next = .finished → ∃ result, (S.scan side).result = .ok result) :
    S.Settled ⟨.scanning (Function.update scan side next), []⟩ := by
  intro scan' hscan' other hother
  rw [← Phase.scanning.inj hscan'] at hother
  by_cases hside : other = side
  · subst hside
    rw [Function.update_self] at hother
    exact hnext hother
  · rw [Function.update_of_ne hside] at hother
    exact h scan rfl other hother

theorem Settled.step {c c' : Core} {l : Option SessionEvent} (h : S.Settled c) (hs : S.Sends c l c') :
    S.Settled c' := by
  cases hs with
  | opened _ =>
    intro scan hscan side hside
    rw [← Phase.scanning.inj hscan] at hside
    exact absurd hside (by simp)
  | start side _ => exact settled_update h (by simp)
  | report side _ => exact settled_update h (by simp)
  | walked side _ hok => exact settled_update h fun _ => ⟨_, hok⟩
  | finish side _ hok => exact settled_update h fun _ => ⟨_, hok⟩
  | _ => exact fun scan hscan => nomatch hscan

theorem settled_of_trace {xs : List SessionEvent} {c : Core} (h : Trace S.Sends Core.start xs c) :
    S.Settled c := by
  induction h with
  | refl => exact fun scan hscan => nomatch hscan
  | silent _ hs ih => exact ih.step hs
  | label _ hs ih => exact ih.step hs

/-- Until both scans are finished one of them can go on. -/
theorem scan_goes_on {scan : Side → ScanState} (h : S.Settled ⟨.scanning scan, []⟩) {side : Side}
    (hside : scan side ≠ .finished) : ∃ l c, S.Sends ⟨.scanning scan, []⟩ l c := by
  cases hs : scan side with
  | waiting => exact ⟨_, _, .start side hs⟩
  | walking left =>
    cases left with
    | cons found left => exact ⟨_, _, .report side hs⟩
    | nil =>
      cases hr : (S.scan side).result with
      | ok result => exact ⟨_, _, .walked side hs hr⟩
      | error e => exact ⟨_, _, .failed side hs hr⟩
  | walked =>
    obtain ⟨result, hr⟩ := h scan rfl side (.inl hs)
    exact ⟨_, _, .finish side hs hr⟩
  | finished => exact absurd hs hside

/-- A command that has not ended has a step to take. -/
theorem goes_on {xs : List SessionEvent} {c : Core} (hsent : S.Sent xs c) (h : S.Settled c)
    (hc : ∀ outcome, c ≠ ⟨.ended outcome, []⟩) : ∃ l c', S.Sends c l c' := by
  cases hsent with
  | opening =>
    cases hopen : S.endpoint with
    | ok u => exact ⟨_, _, .opened hopen⟩
    | error e => exact ⟨_, _, .refused hopen⟩
  | @scanning xs scan _ _ _ =>
    by_cases hall : ∀ side, scan side = .finished
    · obtain ⟨source, hsource⟩ := h scan rfl .source (.inr (hall .source))
      obtain ⟨dest, hdest⟩ := h scan rfl .dest (.inr (hall .dest))
      cases hplan : S.planOf source dest with
      | ok p => exact ⟨_, _, .planned hall hsource hdest hplan⟩
      | error paths => exact ⟨_, _, .conflicts hall hsource hdest hplan⟩
    · obtain ⟨side, hside⟩ := not_forall.mp hall
      exact scan_goes_on h hside
  | announcing _ _ => exact ⟨_, _, .announce⟩
  | bound _ _ =>
    cases hdry : S.dryRun with
    | true => exact ⟨_, _, .dryRun hdry⟩
    | false => exact ⟨_, _, .begin hdry⟩
  | @running xs source dest p es left _ _ _ _ =>
    cases left with
    | nil => exact ⟨_, _, .returned⟩
    | cons e left => exact ⟨_, _, .emit⟩
  | @failed xs stray e side _ _ _ _ _ _ _ =>
    cases stray with
    -- nothing is left of the stray walk, so this is the end
    | nil => exact absurd rfl (hc _)
    | cons found left => exact ⟨_, _, .stray⟩
  | refused _ => exact absurd rfl (hc _)
  | conflicts _ _ _ _ _ => exact absurd rfl (hc _)
  | dryRun _ _ _ => exact absurd rfl (hc _)
  | ran _ _ _ => exact absurd rfl (hc _)

end Session

/-- The signal may still arrive, and the loop may still notice it. -/
def Watcher.rank (w : Watcher) : ℕ :=
  (if w.signal = .waiting then 1 else 0) + (if w.announced = true then 0 else 1)

theorem Watcher.idle_rank {w w' : Watcher} (h : w.Receives none w') : w'.rank < w.rank := by
  cases h with
  | press hsignal => simp [rank, hsignal]
  | lose hsignal => simp [rank, hsignal]
  | notice hnot hsignal => simp [rank, interrupting, hnot, hsignal]
  | noticeGone hnot hsignal => simp [rank, hnot, hsignal]

theorem Watcher.receives_some {w w' : Watcher} {e : SessionEvent} (h : w.Receives (some e) w') :
    w' = w.handle e := by
  cases h with
  | handle => rfl

/-- No interleaving goes on forever, and none gets stuck before the command has ended and the
renderer has heard all of it: without a further Ctrl-C there is always a step to take. -/
theorem session_ends {σ : Type} (S : Session σ) (capacity : ℕ) (hcapacity : 0 < capacity) :
    (WellFounded fun s' s => SessionStep S capacity s s') ∧
      ∀ s, SessionRun S capacity SessionState.start s → (∃ outcome, s.Closed outcome) ∨
        ∃ s', SessionStep S capacity s s' ∧ s'.receiver.signal = s.receiver.signal := by
  refine ⟨?_, fun s hrun => ?_⟩
  · apply LossyChannel.wellFounded (f := S.coreRank) (g := Watcher.rank)
    · exact fun c l c' h => h.rank_lt
    · exact fun w w' h => Watcher.idle_rank h
    · intro w e w' h
      rw [Watcher.receives_some h]
      exact le_rfl
  · obtain ⟨sent, hsender, -, -⟩ := hrun.sound
    by_cases hclosed : ∃ outcome, s.Closed outcome
    · exact .inl hclosed
    · right
      have hmore : (∃ l c, S.Sends s.sender l c) ∨ s.buffer ≠ [] := by
        by_cases hbuffer : s.buffer = []
        · left
          apply Session.goes_on (Session.sent_of_trace hsender) (Session.settled_of_trace hsender)
          exact fun outcome hended => hclosed ⟨outcome, hended, hbuffer⟩
        · exact .inr hbuffer
      have hready : ∀ (w : Watcher) (e : SessionEvent), ∃ w', w.Receives (some e) w' :=
        fun w e => ⟨_, .handle w e⟩
      have hnext : ∃ s', SessionStep S capacity s s' ∧
          (s'.receiver = s.receiver ∨ ∃ e, s.receiver.Receives (some e) s'.receiver) :=
        not_stuck hcapacity hready hmore
      obtain ⟨s', hstep, hreceiver⟩ := hnext
      refine ⟨s', hstep, ?_⟩
      rcases hreceiver with heq | ⟨e, he⟩
      · rw [heq]
      · rw [Watcher.receives_some he]
        rfl

/-! A pull of one file that is stopped by a Ctrl-C once the plan is shown. -/

private def memo : RelPath := .ofSegments ["m.pdf"]

private def memoScan : ScanResult := ⟨Snapshot.new "tablet" [Entry.file memo 5 none] [], [], .exact⟩

private def drawerScan : ScanResult := ⟨Snapshot.new "drawer" [] [], [], .exact⟩

private def deaf : Endpoint ℕ where
  resumeOffset _ _ s := (.error .cancelled, s + 1)
  read _ _ s := (.error .cancelled, s + 1)
  write _ _ s := (.error .cancelled, 0, s + 1)
  mkdir _ s := (.error .cancelled, s + 1)

def stoppedPull : Session ℕ where
  tables := .ascii
  speed := none
  opts := .sync
  dryRun := false
  endpoint := .ok ()
  scan
    | .source => ⟨[1], .ok memoScan⟩
    | .dest => ⟨[0], .ok drawerScan⟩
  ex :=
    { isCancelled := fun _ => true
      deliver := fun _ s => s
      hasRoom := fun _ _ => false
      now := fun s => s
      sleep := fun d s => s + d + 3
      isRetryable := fun _ => true
      text := fun _ => "cancelled"
      sleep_now := fun d s => Nat.le_add_right (s + d) 3 }
  source := deaf
  dest := deaf
  world := 7

private def memoPlan : Plan := Plan.new [.copy memo 5 none 0 .new]

def memoReport : Report := ⟨0, 0, 0, [], 0, true⟩

private def memoScans : List SessionEvent :=
  [.scanStarted .source, .scanProgress .source 1, .scanStarted .dest, .scanProgress .dest 0,
    .scanFinished .source 1 0, .scanFinished .dest 0 0, .planReady ⟨1, 5, 0, 0⟩ []]

private def memoRun : List SessionEvent := [.run (.interrupted 1), .run (.finished memoReport)]

def memoOver : SessionState :=
  ⟨⟨.ended (.ok (.transferred memoReport)), []⟩, [], memoScans ++ memoRun,
    ⟨.pressed, true, true, memoScans.map .event ++ [.interrupting] ++ memoRun.map .event⟩⟩

theorem memoOver_run : SessionRun stoppedPull 4 SessionState.start memoOver := by
  apply Relation.ReflTransGen.head (Step.work (.opened rfl))
  apply Relation.ReflTransGen.head (Step.send (.start .source rfl) (by decide))
  apply Relation.ReflTransGen.head (Step.send (.report .source rfl) (by decide))
  apply Relation.ReflTransGen.head (Step.send (.start .dest rfl) (by decide))
  apply Relation.ReflTransGen.head (Step.send (.report .dest rfl) (by decide))
  apply Relation.ReflTransGen.head (Step.receive rfl (.handle _ _))
  apply Relation.ReflTransGen.head (Step.receive rfl (.handle _ _))
  apply Relation.ReflTransGen.head (Step.receive rfl (.handle _ _))
  apply Relation.ReflTransGen.head (Step.work (.walked .source rfl rfl))
  apply Relation.ReflTransGen.head (Step.send (.finish .source rfl rfl) (by decide))
  apply Relation.ReflTransGen.head (Step.work (.walked .dest rfl rfl))
  apply Relation.ReflTransGen.head (Step.send (.finish .dest rfl rfl) (by decide))
  have hplan : stoppedPull.planOf memoScan drawerScan = .ok memoPlan := by decide
  apply Relation.ReflTransGen.head
    (Step.work (.planned (fun side => by cases side <;> rfl) rfl rfl hplan))
  apply Relation.ReflTransGen.head (Step.send .announce (by decide))
  apply Relation.ReflTransGen.head (Step.idle (.press _ rfl))
  apply Relation.ReflTransGen.head (Step.receive rfl (.handle _ _))
  apply Relation.ReflTransGen.head (Step.receive rfl (.handle _ _))
  apply Relation.ReflTransGen.head (Step.receive rfl (.handle _ _))
  apply Relation.ReflTransGen.head (Step.receive rfl (.handle _ _))
  apply Relation.ReflTransGen.head (Step.work (.begin rfl))
  apply Relation.ReflTransGen.head (Step.send .emit (by decide))
  apply Relation.ReflTransGen.head (Step.idle (.notice _ rfl rfl))
  apply Relation.ReflTransGen.head (Step.send .emit (by decide))
  apply Relation.ReflTransGen.head (Step.work .returned)
  apply Relation.ReflTransGen.head (Step.receive rfl (.handle _ _))
  exact Relation.ReflTransGen.single (Step.receive rfl (.handle _ _))

theorem session_ends_memo : (WellFounded fun s' s => SessionStep stoppedPull 4 s s') ∧
    ((∃ outcome, memoOver.Closed outcome) ∨ ∃ s', SessionStep stoppedPull 4 memoOver s' ∧
      s'.receiver.signal = memoOver.receiver.signal) := by
  have hends := session_ends stoppedPull 4 (by decide)
  exact ⟨hends.1, hends.2 memoOver memoOver_run⟩

namespace Watcher

/-- The line on the Ctrl-C, once, after the plan, and only when a Ctrl-C was pressed. -/
structure Told (before : List SessionEvent) (told : List Shown) (signal : Signal) : Prop where
  once : told = [.interrupting]
  planned : ∃ e ∈ before, e.isReady = true
  pressed : signal = .pressed

/-- What the loop has shown of the events it has received. -/
structure Fair (xs : List SessionEvent) (w : Watcher) : Prop where
  planned : w.planned = xs.any SessionEvent.isReady
  shown : ∃ before told later, xs = before ++ later ∧
    w.shown = before.map .event ++ told ++ later.map .event ∧
      (told = [] ∨ w.announced = true ∧ Told before told w.signal)

theorem Fair.handle {xs : List SessionEvent} {w : Watcher} (h : Fair xs w) (e : SessionEvent) :
    Fair (xs ++ [e]) (w.handle e) := by
  obtain ⟨before, told, later, hxs, hshown, htold⟩ := h.shown
  refine ⟨?_, before, told, later ++ [e], ?_, ?_, htold⟩
  · rw [Watcher.handle, h.planned, List.any_append, List.any_cons, List.any_nil, Bool.or_false]
  · rw [hxs, List.append_assoc]
  · rw [Watcher.handle, hshown, List.map_append, ← List.append_assoc]
    rfl

theorem Fair.idle {xs : List SessionEvent} {w w' : Watcher} (h : Fair xs w)
    (hr : w.Receives none w') : Fair xs w' := by
  obtain ⟨before, told, later, hxs, hshown, htold⟩ := h.shown
  cases hr with
  | press hsignal =>
    refine ⟨h.planned, before, told, later, hxs, hshown, ?_⟩
    rcases htold with hnone | ⟨_, hold⟩
    · exact .inl hnone
    · rw [hold.pressed] at hsignal
      exact absurd hsignal (by simp)
  | lose hsignal =>
    refine ⟨h.planned, before, told, later, hxs, hshown, ?_⟩
    rcases htold with hnone | ⟨_, hold⟩
    · exact .inl hnone
    · rw [hold.pressed] at hsignal
      exact absurd hsignal (by simp)
  | noticeGone hnot hsignal =>
    refine ⟨h.planned, before, told, later, hxs, hshown, ?_⟩
    rcases htold with hnone | ⟨hannounced, _⟩
    · exact .inl hnone
    · rw [hnot] at hannounced
      exact absurd hannounced Bool.false_ne_true
  | notice hnot hsignal =>
    -- nothing was told before, so all the events are in front of the line
    have hnone : told = [] := by
      rcases htold with hnone | ⟨hannounced, _⟩
      · exact hnone
      · rw [hnot] at hannounced
        exact absurd hannounced Bool.false_ne_true
    rw [hnone, List.append_nil, ← List.map_append, ← hxs] at hshown
    cases hplanned : w.planned with
    | false =>
      refine ⟨h.planned, xs, [], [], (List.append_nil xs).symm, ?_, .inl rfl⟩
      rw [Watcher.interrupting, hplanned, hshown]
      simp
    | true =>
      have hready : ∃ e ∈ xs, e.isReady = true := by
        rw [← List.any_eq_true, ← h.planned, hplanned]
      refine ⟨h.planned, xs, [.interrupting], [], (List.append_nil xs).symm, ?_,
        .inr ⟨rfl, rfl, hready, hsignal⟩⟩
      rw [Watcher.interrupting, hplanned, hshown]
      simp

theorem fair_of_trace {xs : List SessionEvent} {w : Watcher}
    (h : Trace Watcher.Receives Watcher.start xs w) : Fair xs w := by
  induction h with
  | refl => exact ⟨rfl, [], [], [], rfl, rfl, .inl rfl⟩
  | silent _ hr ih => exact ih.idle hr
  | label _ hr ih =>
    rw [receives_some hr]
    exact ih.handle _

end Watcher

/-- In every interleaving the renderer shows each event it hears, in order, and among them the line on
a Ctrl-C at most once: a Ctrl-C was pressed by then, and the plan was shown before. -/
theorem interrupt_told_once {σ : Type} (S : Session σ) (capacity : ℕ) (s : SessionState)
    (hrun : SessionRun S capacity SessionState.start s) :
    ∃ before told later, s.received = before ++ later ∧
      s.receiver.shown = before.map .event ++ told ++ later.map .event ∧
        (told = [] ∨ Watcher.Told before told s.receiver.signal) := by
  obtain ⟨sent, -, hreceiver, -⟩ := hrun.sound
  obtain ⟨before, told, later, hxs, hshown, htold⟩ := (Watcher.fair_of_trace hreceiver).shown
  refine ⟨before, told, later, hxs, hshown, ?_⟩
  rcases htold with hnone | ⟨_, hold⟩
  · exact .inl hnone
  · exact .inr hold

theorem interrupt_told_once_memo : memoOver.receiver.shown.count .interrupting = 1 ∧
    ∃ before told later, memoOver.received = before ++ later ∧
      memoOver.receiver.shown = before.map .event ++ told ++ later.map .event ∧
        (told = [] ∨ Watcher.Told before told memoOver.receiver.signal) :=
  ⟨by decide, interrupt_told_once stoppedPull 4 memoOver memoOver_run⟩

end MtpxCore
