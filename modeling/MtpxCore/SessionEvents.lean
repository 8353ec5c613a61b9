import MtpxCore.TransferSession

/-! What the renderer hears of a transfer, whatever the interleaving. The events of the two scans
come first, those of each side in the order of its scan; the plan is announced once both are in, and
the events of the run follow it. Only reports of progress may be missing. -/
namespace MtpxCore

open LossyChannel

/-- The events about one side's scan. -/
def ofSide (side : Side) (xs : List SessionEvent) : List SessionEvent :=
  xs.filter fun e => decide (e.side = some side)

/-- Nothing but events of the scans. -/
def Sided (xs : List SessionEvent) : Prop := ∀ e ∈ xs, e.side ≠ none

namespace Session

variable {σ : Type} (S : Session σ)

/-- The last event of a scan, if it succeeds. -/
def finishOf (side : Side) : List SessionEvent :=
  match (S.scan side).result with
  | .ok result => [finishEvent side result]
  | .error _ => []

/-- The events of one side's scan when it is not dropped for the other's failure. -/
def scanEvents (side : Side) : List SessionEvent :=
  .scanStarted side :: (S.scan side).reports.map (.scanProgress side) ++ S.finishOf side

/-- Those still to come. -/
def ahead (side : Side) : ScanState → List SessionEvent
  | .waiting => S.scanEvents side
  | .walking left => left.map (.scanProgress side) ++ S.finishOf side
  | .walked => S.finishOf side
  | .finished => []

/-- A plan that is made, and what it is made from. -/
structure Planned (source dest : ScanResult) (p : Plan) : Prop where
  opened : S.endpoint = .ok ()
  sourceScan : (S.scan .source).result = .ok source
  destScan : (S.scan .dest).result = .ok dest
  plan : S.planOf source dest = .ok p

def readyEvent (source dest : ScanResult) (p : Plan) : SessionEvent :=
  .planReady p.summary (S.hintsOf p source dest)

/-- Both scans, to their ends. -/
def Scanned (xs : List SessionEvent) : Prop := Sided xs ∧ ∀ side, ofSide side xs = S.scanEvents side

/-- What has been sent when the command has come to a phase. -/
inductive Sent : List SessionEvent → Core → Prop
  | opening : Sent [] ⟨.opening, []⟩
  | scanning {xs : List SessionEvent} {scan : Side → ScanState} : S.endpoint = .ok () → Sided xs →
      (∀ side, ofSide side xs ++ S.ahead side (scan side) = S.scanEvents side) →
      Sent xs ⟨.scanning scan, []⟩
  | announcing {xs : List SessionEvent} {source dest : ScanResult} {p : Plan} :
      S.Planned source dest p → S.Scanned xs → Sent xs ⟨.announcing p (S.hintsOf p source dest), []⟩
  | bound {xs : List SessionEvent} {source dest : ScanResult} {p : Plan} :
      S.Planned source dest p → S.Scanned xs →
      Sent (xs ++ [S.readyEvent source dest p]) ⟨.bound p, []⟩
  | running {xs : List SessionEvent} {source dest : ScanResult} {p : Plan}
      {es left : List ProgressEvent} : S.Planned source dest p → S.Scanned xs → S.dryRun = false →
      es ++ left = S.runEvents p →
      Sent (xs ++ S.readyEvent source dest p :: es.map .run) ⟨.running left (S.runOf p).1, []⟩
  | refused {e : ChoiceError} : S.endpoint = .error e → Sent [] ⟨.ended (.error e), []⟩
  | failed {xs : List SessionEvent} {stray : List ℕ} {e : Error} (side : Side) :
      S.endpoint = .ok () → (S.scan side).result = .error e → Sided xs →
      ofSide side xs = S.scanEvents side →
      (∀ other, ofSide other xs <+: S.scanEvents other) → (side = .dest → stray = []) →
      ofSide .dest xs ++ stray.map (.scanProgress .dest) <+: S.scanEvents .dest →
      Sent xs ⟨.ended (.error (.raised e)), stray⟩
  | conflicts {xs : List SessionEvent} {source dest : ScanResult} {paths : List RelPath} :
      S.endpoint = .ok () → (S.scan .source).result = .ok source →
      (S.scan .dest).result = .ok dest → S.planOf source dest = .error paths → S.Scanned xs →
      Sent xs ⟨.ended (.error (.raised (.conflicts paths))), []⟩
  | dryRun {xs : List SessionEvent} {source dest : ScanResult} {p : Plan} :
      S.Planned source dest p → S.Scanned xs → S.dryRun = true →
      Sent (xs ++ [S.readyEvent source dest p]) ⟨.ended (.ok (.dryRun p)), []⟩
  | ran {xs : List SessionEvent} {source dest : ScanResult} {p : Plan} :
      S.Planned source dest p → S.Scanned xs → S.dryRun = false →
      Sent (xs ++ S.readyEvent source dest p :: (S.runEvents p).map .run)
        ⟨.ended (executed (S.runOf p).1), []⟩

end Session

section Sides

variable {xs ys : List SessionEvent} {side : Side} {e : SessionEvent}

theorem ofSide_append (side : Side) (xs ys : List SessionEvent) :
    ofSide side (xs ++ ys) = ofSide side xs ++ ofSide side ys := List.filter_append ..

theorem ofSide_self (h : e.side = some side) : ofSide side [e] = [e] :=
  List.filter_cons_of_pos (decide_eq_true h)

theorem ofSide_other (h : e.side ≠ some side) : ofSide side [e] = [] :=
  List.filter_cons_of_neg (by simpa using h)

theorem Sided.snoc (h : Sided xs) (he : e.side = some side) : Sided (xs ++ [e]) := by
  intro x hx
  rcases List.mem_append.mp hx with hx | hx
  · exact h x hx
  · rw [List.mem_singleton.mp hx, he]
    exact Option.some_ne_none side

theorem Sided.heard (h : Sided xs) (hkept : Kept SessionEvent.isLossy xs ys) : Sided ys :=
  fun e he => h e (hkept.sublist.subset he)

theorem Sided.of_beginning (h : Sided ys) (hp : xs <+: ys) : Sided xs := fun x hx => h x (hp.subset hx)

theorem ofSide_begins (side : Side) (hp : xs <+: ys) : ofSide side xs <+: ofSide side ys :=
  hp.filter _

end Sides

namespace Session

variable {σ : Type} {S : Session σ} {xs : List SessionEvent} {c c' : Core}

/-- A side whose scan moves on, by an event or silently; the other side is where it was. -/
theorem ahead_update {scan : Side → ScanState} {side : Side} (sent : List SessionEvent)
    (next : ScanState) (hsided : ∀ e ∈ sent, e.side = some side)
    (hscan : ∀ other, ofSide other xs ++ S.ahead other (scan other) = S.scanEvents other)
    (hnext : S.ahead side (scan side) = sent ++ S.ahead side next) (other : Side) :
    ofSide other (xs ++ sent) ++ S.ahead other (Function.update scan side next other) =
      S.scanEvents other := by
  rw [← hscan other, ofSide_append, List.append_assoc]
  congr 1
  by_cases hside : other = side
  · subst hside
    rw [Function.update_self, hnext]
    congr 1
    exact List.filter_eq_self.mpr fun e he => decide_eq_true (hsided e he)
  · rw [Function.update_of_ne hside]
    have hnone : ofSide other sent = [] :=
      List.filter_eq_nil_iff.mpr fun e he => by
        rw [hsided e he]
        simpa using fun h => hside h.symm
    rw [hnone, List.nil_append]

/-- All scans are in: every event of theirs has been sent. -/
theorem scanned {scan : Side → ScanState} (hsided : Sided xs)
    (hscan : ∀ side, ofSide side xs ++ S.ahead side (scan side) = S.scanEvents side)
    (hall : ∀ side, scan side = .finished) : S.Scanned xs := by
  refine ⟨hsided, fun side => ?_⟩
  have hside := hscan side
  rwa [hall side, ahead, List.append_nil] at hside

theorem Sent.silent (h : S.Sent xs c) (hsends : S.Sends c none c') : S.Sent xs c' := by
  cases hsends with
  | opened hok =>
    cases h
    exact .scanning hok (fun e he => absurd he List.not_mem_nil) fun side => rfl
  | refused herr =>
    cases h
    exact .refused herr
  | @walked scan side result hside hok =>
    cases h with
    | scanning hopen hsided hscan =>
      refine .scanning hopen hsided fun other => ?_
      have hmoved := ahead_update [] .walked (fun e he => absurd he List.not_mem_nil) hscan
        (by rw [hside]; rfl) other
      rwa [List.append_nil] at hmoved
  | @failed scan side e hside herr =>
    cases h with
    | scanning hopen hsided hscan =>
      have hfinish : S.finishOf side = [] := by rw [finishOf, herr]
      -- the side that failed has reported all it will
      have hwhole := hscan side
      rw [hside, ahead, hfinish, List.map_nil, List.append_nil, List.append_nil] at hwhole
      refine .failed side hopen herr hsided hwhole (fun other => ⟨_, hscan other⟩) ?_ ?_
      · intro hdest
        rw [hdest]
        rfl
      · have hdest := hscan .dest
        unfold strayWalk
        split
        · rename_i left hleft
          rw [hleft, ahead, ← List.append_assoc] at hdest
          exact ⟨_, hdest⟩
        · rw [List.map_nil, List.append_nil]
          exact ⟨_, hdest⟩
  | planned hall hsource hdest hplan =>
    cases h with
    | scanning hopen hsided hscan =>
      exact .announcing ⟨hopen, hsource, hdest, hplan⟩ (scanned hsided hscan hall)
  | conflicts hall hsource hdest hplan =>
    cases h with
    | scanning hopen hsided hscan =>
      exact .conflicts hopen hsource hdest hplan (scanned hsided hscan hall)
  | dryRun hdry =>
    cases h with
    | bound hplanned hscanned => exact .dryRun hplanned hscanned hdry
  | begin hdry =>
    cases h with
    | bound hplanned hscanned => exact Sent.running hplanned hscanned hdry (List.nil_append _)
  | returned =>
    cases h with
    | running hplanned hscanned hdry hall =>
      rw [List.append_nil] at hall
      rw [hall]
      exact .ran hplanned hscanned hdry
  | strayStopped =>
    cases h with
    | failed side hopen herr hsided hwhole hothers hstray hdest =>
      refine .failed side hopen herr hsided hwhole hothers (fun _ => rfl) ?_
      rw [List.map_nil, List.append_nil]
      exact hothers .dest

theorem Sent.label {e : SessionEvent} (h : S.Sent xs c) (hsends : S.Sends c (some e) c') :
    S.Sent (xs ++ [e]) c' := by
  cases hsends with
  | start side hside =>
    cases h with
    | scanning hopen hsided hscan =>
      refine .scanning hopen (hsided.snoc rfl) (ahead_update _ _ (fun e he => ?_) hscan ?_)
      · rw [List.mem_singleton.mp he]
        rfl
      · rw [hside]
        rfl
  | report side hside =>
    cases h with
    | scanning hopen hsided hscan =>
      refine .scanning hopen (hsided.snoc rfl) (ahead_update _ _ (fun e he => ?_) hscan ?_)
      · rw [List.mem_singleton.mp he]
        rfl
      · rw [hside]
        rfl
  | finish side hside hok =>
    cases h with
    | scanning hopen hsided hscan =>
      refine .scanning hopen (hsided.snoc rfl) (ahead_update _ _ (fun e he => ?_) hscan ?_)
      · rw [List.mem_singleton.mp he]
        rfl
      · rw [hside, ahead, finishOf, hok]
        rfl
  | announce =>
    cases h with
    | announcing hplanned hscanned => exact .bound hplanned hscanned
  | @emit e left outcome =>
    cases h with
    | @running _ _ _ p es _ hplanned hscanned hdry hall =>
      have hsnoc : (es ++ [e]) ++ left = S.runEvents p := by
        rw [List.append_assoc]
        exact hall
      have hsent := Sent.running hplanned hscanned hdry hsnoc
      rwa [List.map_append, ← List.cons_append, ← List.append_assoc] at hsent
  | @stray outcome found left =>
    cases h with
    | failed side hopen herr hsided hwhole hothers hstray hdest =>
      -- only a local walk outlives the scan of the other side
      have hside : side = .source := by
        cases side with
        | source => rfl
        | dest => exact absurd (hstray rfl) (by simp)
      subst hside
      have hnew : ofSide .dest (xs ++ [.scanProgress .dest found]) =
          ofSide .dest xs ++ [.scanProgress .dest found] := by
        rw [ofSide_append, ofSide_self rfl]
      have hold : ofSide .source (xs ++ [.scanProgress .dest found]) = ofSide .source xs := by
        rw [ofSide_append, ofSide_other (by simp [SessionEvent.side]), List.append_nil]
      rw [List.map_cons] at hdest
      have hrest : ofSide .dest (xs ++ [.scanProgress .dest found]) ++
          left.map (.scanProgress .dest) <+: S.scanEvents .dest := by
        rw [hnew, List.append_assoc]
        exact hdest
      refine .failed .source hopen herr (hsided.snoc rfl) (hold.trans hwhole) ?_ (fun h => nomatch h) hrest
      intro other
      cases other with
      | source =>
        rw [hold]
        exact hothers .source
      | dest => exact (List.prefix_append _ _).trans hrest

/-- What has been sent, at any moment. -/
theorem sent_of_trace (h : Trace S.Sends Core.start xs c) : S.Sent xs c := by
  induction h with
  | refl => exact .opening
  | silent _ hsends ih => exact ih.silent hsends
  | label _ hsends ih => exact ih.label hsends

end Session

namespace Session

variable {σ : Type} (S : Session σ)

/-- Events of the scans, and of each side a beginning of its scan's. -/
def HeardScans (xs : List SessionEvent) : Prop :=
  Sided xs ∧ ∀ side, ∃ sent, sent <+: S.scanEvents side ∧
    Kept SessionEvent.isLossy sent (ofSide side xs)

/-- Events of the scans, to the ends of both. -/
def HeardBoth (xs : List SessionEvent) : Prop :=
  Sided xs ∧ ∀ side, Kept SessionEvent.isLossy (S.scanEvents side) (ofSide side xs)

/-- What the renderer has heard at some moment. -/
inductive Heard : List SessionEvent → Prop
  | scans {xs : List SessionEvent} : S.HeardScans xs → Heard xs
  | ready {xs : List SessionEvent} {source dest : ScanResult} {p : Plan}
      {sent es : List ProgressEvent} : S.Planned source dest p → S.HeardBoth xs →
      sent <+: S.runEvents p → (S.dryRun = true → sent = []) →
      Kept ProgressEvent.isLossy sent es →
      Heard (xs ++ S.readyEvent source dest p :: es.map .run)

/-- What it has heard by the end, by how the command ended. -/
inductive HeardAll : Except ChoiceError CommandOutcome → List SessionEvent → Prop
  | refused {e : ChoiceError} : S.endpoint = .error e → HeardAll (.error e) []
  | failed {xs : List SessionEvent} {e : Error} (side : Side) : S.endpoint = .ok () →
      (S.scan side).result = .error e → S.HeardScans xs →
      Kept SessionEvent.isLossy (S.scanEvents side) (ofSide side xs) →
      HeardAll (.error (.raised e)) xs
  | conflicts {xs : List SessionEvent} {source dest : ScanResult} {paths : List RelPath} :
      S.endpoint = .ok () → (S.scan .source).result = .ok source →
      (S.scan .dest).result = .ok dest → S.planOf source dest = .error paths → S.HeardBoth xs →
      HeardAll (.error (.raised (.conflicts paths))) xs
  | dryRun {xs : List SessionEvent} {source dest : ScanResult} {p : Plan} :
      S.Planned source dest p → S.dryRun = true → S.HeardBoth xs →
      HeardAll (.ok (.dryRun p)) (xs ++ [S.readyEvent source dest p])
  | ran {xs : List SessionEvent} {source dest : ScanResult} {p : Plan} {es : List ProgressEvent} :
      S.Planned source dest p → S.dryRun = false → S.HeardBoth xs →
      Kept ProgressEvent.isLossy (S.runEvents p) es →
      HeardAll (executed (S.runOf p).1) (xs ++ S.readyEvent source dest p :: es.map .run)

end Session

namespace Session

variable {σ : Type} {S : Session σ} {xs ys : List SessionEvent} {c : Core}

/-- What is heard of two whole scans. -/
theorem Scanned.heard (h : S.Scanned xs) (hkept : Kept SessionEvent.isLossy xs ys) :
    S.HeardBoth ys := by
  refine ⟨h.1.heard hkept, fun side => ?_⟩
  have hside := hkept.filter fun e => decide (e.side = some side)
  rw [← h.2 side]
  exact hside

/-- What is heard of scans in progress. -/
theorem heardScans (hsided : Sided xs) (hbegins : ∀ side, ofSide side xs <+: S.scanEvents side)
    (hkept : Kept SessionEvent.isLossy xs ys) : S.HeardScans ys :=
  ⟨hsided.heard hkept, fun side => ⟨_, hbegins side, hkept.filter _⟩⟩

theorem Scanned.heardScans {zs : List SessionEvent} (h : S.Scanned xs) (hp : zs <+: xs)
    (hkept : Kept SessionEvent.isLossy zs ys) : S.HeardScans ys := by
  apply Session.heardScans (h.1.of_beginning hp) _ hkept
  intro side
  rw [← h.2 side]
  exact ofSide_begins side hp

/-- What is heard of the scans, the plan and a part of the run. -/
theorem heard_run {zs : List SessionEvent} {source dest : ScanResult} {p : Plan}
    (es : List ProgressEvent) (h : S.Scanned xs) (hready : (S.readyEvent source dest p).isLossy = false)
    (hkept : Kept SessionEvent.isLossy (xs ++ S.readyEvent source dest p :: es.map .run) zs) :
    ∃ ys fs, zs = ys ++ S.readyEvent source dest p :: fs.map .run ∧ S.HeardBoth ys ∧
      Kept ProgressEvent.isLossy es fs := by
  obtain ⟨ys, zs', rfl, hscans, hrest⟩ := hkept.split
  cases hrest with
  | keep _ hrest =>
    have hlossy : ∀ e : ProgressEvent, (SessionEvent.run e).isLossy = e.isLossy := fun _ => rfl
    obtain ⟨fs, rfl, hfs⟩ := hrest.of_map hlossy
    exact ⟨ys, fs, rfl, h.heard hscans, hfs⟩
  | drop hlossy _ =>
    rw [hready] at hlossy
    exact absurd hlossy Bool.false_ne_true

/-- What is heard of a beginning of that. -/
theorem heard_beginning {zs : List SessionEvent} {source dest : ScanResult} {p : Plan}
    (es : List ProgressEvent) (hplanned : S.Planned source dest p) (h : S.Scanned xs)
    (hes : es <+: S.runEvents p) (hdry : S.dryRun = true → es = [])
    (hp : zs <+: xs ++ S.readyEvent source dest p :: es.map .run)
    (hkept : Kept SessionEvent.isLossy zs ys) : S.Heard ys := by
  rcases List.prefix_or_prefix_of_prefix hp (List.prefix_append _ _) with hshort | ⟨t, rfl⟩
  · exact .scans (h.heardScans hshort hkept)
  · rw [List.prefix_append_right_inj] at hp
    cases t with
    | nil =>
      rw [List.append_nil] at hkept
      exact .scans (h.heardScans List.prefix_rfl hkept)
    | cons e t =>
      obtain ⟨rfl, ht⟩ := List.cons_prefix_cons.mp hp
      obtain ⟨fs, hfs, rfl⟩ := List.prefix_map_iff.mp ht
      obtain ⟨zs, gs, rfl, hboth, hgs⟩ := heard_run _ h rfl hkept
      refine .ready hplanned hboth (hfs.trans hes) (fun hd => ?_) hgs
      rw [hdry hd] at hfs
      exact List.prefix_nil.mp hfs

theorem Sent.heard {zs : List SessionEvent} (h : S.Sent xs c) (hp : zs <+: xs)
    (hkept : Kept SessionEvent.isLossy zs ys) : S.Heard ys := by
  cases h with
  | opening =>
    rw [List.prefix_nil.mp hp] at hkept
    cases hkept
    exact .scans (heardScans (fun e he => absurd he List.not_mem_nil) (fun _ => List.nil_prefix) .nil)
  | scanning hopen hsided hscan =>
    refine .scans (heardScans (hsided.of_beginning hp) (fun side => ?_) hkept)
    exact (ofSide_begins side hp).trans ⟨_, hscan side⟩
  | announcing hplanned hscanned => exact .scans (hscanned.heardScans hp hkept)
  | bound hplanned hscanned =>
    exact heard_beginning [] hplanned hscanned List.nil_prefix (fun _ => rfl) hp hkept
  | running hplanned hscanned hdry hall =>
    refine heard_beginning _ hplanned hscanned ⟨_, hall⟩ (fun hd => ?_) hp hkept
    rw [hdry] at hd
    exact absurd hd Bool.false_ne_true
  | refused herr =>
    rw [List.prefix_nil.mp hp] at hkept
    cases hkept
    exact .scans (heardScans (fun e he => absurd he List.not_mem_nil) (fun _ => List.nil_prefix) .nil)
  | failed side hopen herr hsided hwhole hothers hstray hdest =>
    refine .scans (heardScans (hsided.of_beginning hp) (fun other => ?_) hkept)
    exact (ofSide_begins other hp).trans (hothers other)
  | conflicts hopen hsource hdest hplan hscanned => exact .scans (hscanned.heardScans hp hkept)
  | dryRun hplanned hscanned hdry =>
    exact heard_beginning [] hplanned hscanned List.nil_prefix (fun _ => rfl) hp hkept
  | ran hplanned hscanned hdry =>
    refine heard_beginning _ hplanned hscanned List.prefix_rfl (fun hd => ?_) hp hkept
    rw [hdry] at hd
    exact absurd hd Bool.false_ne_true

theorem Sent.heardAll {outcome : Except ChoiceError CommandOutcome} (h : S.Sent xs ⟨.ended outcome, []⟩)
    (hkept : Kept SessionEvent.isLossy xs ys) : S.HeardAll outcome ys := by
  cases h with
  | refused herr =>
    cases hkept
    exact .refused herr
  | failed side hopen herr hsided hwhole hothers hstray hdest =>
    have hside := hkept.filter fun e => decide (e.side = some side)
    refine .failed side hopen herr (heardScans hsided hothers hkept) ?_
    rw [← hwhole]
    exact hside
  | conflicts hopen hsource hdest hplan hscanned =>
    exact .conflicts hopen hsource hdest hplan (hscanned.heard hkept)
  | dryRun hplanned hscanned hdry =>
    obtain ⟨ys, fs, rfl, hboth, hfs⟩ := heard_run [] hscanned rfl hkept
    cases hfs
    exact .dryRun hplanned hdry hboth
  | ran hplanned hscanned hdry =>
    obtain ⟨ys, fs, rfl, hboth, hfs⟩ := heard_run _ hscanned rfl hkept
    exact .ran hplanned hdry hboth hfs

end Session

/-- In every interleaving the renderer hears the events of the two scans, of each side in order, then
the plan once both scans are in, then the run, of which only progress may be missing; by the end it
has heard all of what the command came to. -/
theorem session_heard {σ : Type} (S : Session σ) (capacity : ℕ) (s : SessionState)
    (hrun : SessionRun S capacity SessionState.start s) :
    S.Heard s.received ∧ ∀ outcome, s.Closed outcome → S.HeardAll outcome s.received := by
  obtain ⟨sent, hsender, -, hkept⟩ := hrun.sound
  have hsent := Session.sent_of_trace hsender
  obtain ⟨zs, hp, hheard⟩ := hkept.prefix_of
  refine ⟨hsent.heard hp hheard, fun outcome hclosed => ?_⟩
  obtain ⟨hsender, hbuffer⟩ := hclosed
  rw [hsender] at hsent
  rw [hbuffer, List.append_nil] at hkept
  exact hsent.heardAll hkept

/-! A dry run over a channel with room for one event, which drops a report of the local scan. -/

private def notice : RelPath := .ofSegments ["n.txt"]

private def noticeScan : ScanResult := ⟨Snapshot.new "phone" [Entry.file notice 3 none] [], [], .exact⟩

private def folderScan : ScanResult := ⟨Snapshot.new "folder" [] [], [], .exact⟩

private def oneNotice : Session ℕ where
  tables := .ascii
  speed := some .high
  opts := .pull
  dryRun := true
  endpoint := .ok ()
  scan
    | .source => ⟨[1], .ok noticeScan⟩
    | .dest => ⟨[0], .ok folderScan⟩
  ex :=
    { isCancelled := fun _ => false
      deliver := fun _ s => s
      hasRoom := fun _ _ => true
      now := id
      sleep := fun d s => s + d
      isRetryable := fun _ => false
      text := fun _ => ""
      sleep_now := fun _ _ => le_rfl }
  source :=
    ⟨fun _ n s => (.ok n, s), fun _ _ s => (.ok [], s), fun _ _ s => (.ok (), 0, s), fun _ s => (.ok (), s)⟩
  dest :=
    ⟨fun _ n s => (.ok n, s), fun _ _ s => (.ok [], s), fun _ _ s => (.ok (), 0, s), fun _ s => (.ok (), s)⟩
  world := 0

private def noticePlan : Plan := Plan.new [.copy notice 3 none 0 .new]

private def noticeHeard : List SessionEvent :=
  [.scanStarted .source, .scanStarted .dest, .scanProgress .source 1, .scanFinished .dest 0 0,
    .scanFinished .source 1 0, .planReady ⟨1, 3, 0, 0⟩ []]

private def noticeOver : SessionState :=
  ⟨⟨.ended (.ok (.dryRun noticePlan)), []⟩, [], noticeHeard,
    ⟨.waiting, false, true, noticeHeard.map .event⟩⟩

private theorem noticeOver_run : SessionRun oneNotice 1 SessionState.start noticeOver := by
  apply Relation.ReflTransGen.head (Step.work (.opened rfl))
  apply Relation.ReflTransGen.head (Step.send (.start .source rfl) (by decide))
  apply Relation.ReflTransGen.head (Step.receive rfl (.handle _ _))
  apply Relation.ReflTransGen.head (Step.send (.start .dest rfl) (by decide))
  apply Relation.ReflTransGen.head (Step.receive rfl (.handle _ _))
  apply Relation.ReflTransGen.head (Step.send (.report .source rfl) (by decide))
  apply Relation.ReflTransGen.head (Step.drop (.report .dest rfl) rfl (by decide))
  apply Relation.ReflTransGen.head (Step.receive rfl (.handle _ _))
  apply Relation.ReflTransGen.head (Step.work (.walked .dest rfl rfl))
  apply Relation.ReflTransGen.head (Step.work (.walked .source rfl rfl))
  apply Relation.ReflTransGen.head (Step.send (.finish .dest rfl rfl) (by decide))
  apply Relation.ReflTransGen.head (Step.receive rfl (.handle _ _))
  apply Relation.ReflTransGen.head (Step.send (.finish .source rfl rfl) (by decide))
  apply Relation.ReflTransGen.head (Step.receive rfl (.handle _ _))
  have hplan : oneNotice.planOf noticeScan folderScan = .ok noticePlan := by decide
  apply Relation.ReflTransGen.head
    (Step.work (.planned (fun side => by cases side <;> rfl) rfl rfl hplan))
  apply Relation.ReflTransGen.head (Step.send .announce (by decide))
  apply Relation.ReflTransGen.head (Step.receive rfl (.handle _ _))
  exact Relation.ReflTransGen.single (Step.work (.dryRun rfl))

theorem session_heard_notice : noticeOver.Closed (.ok (.dryRun noticePlan)) ∧
    oneNotice.HeardAll (.ok (.dryRun noticePlan)) noticeHeard :=
  ⟨⟨rfl, rfl⟩, (session_heard oneNotice 1 noticeOver noticeOver_run).2 _ ⟨rfl, rfl⟩⟩

end MtpxCore
