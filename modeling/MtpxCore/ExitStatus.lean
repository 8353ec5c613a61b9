import MtpxCore.DeviceChosen
import MtpxCore.TerminalSession

/-! Exit codes (`exit.rs`): what a script learns of a transfer from its status alone, against what
the renderer has heard of it. A dry run also has its plan to print. -/
namespace MtpxCore

open LossyChannel

namespace Exit

def SUCCESS : ℕ := 0

def GENERIC : ℕ := 1

def USAGE : ℕ := 2

def NO_DEVICE : ℕ := 3

def ACCESS_DENIED : ℕ := 4

def NOT_FOUND : ℕ := 5

def TRANSFER_FAILED : ℕ := 6

def CONFLICTS : ℕ := 7

/-- What a shell reports for a process killed by SIGINT. -/
def INTERRUPTED : ℕ := 130

def codeForError : Error → ℕ
  | .noDevice | .disconnected => NO_DEVICE
  | .exclusiveAccess | .permissionDenied => ACCESS_DENIED
  | .remotePathNotFound | .remotePathUndescribed _ | .notADirectory | .localNotADirectory => NOT_FOUND
  | .conflicts _ => CONFLICTS
  | .cancelled => INTERRUPTED
  | .invalidPath _ => USAGE
  | _ => GENERIC

/-- The errors of picking a device and a storage. -/
def codeForChoice : ChoiceError → ℕ
  | .noDevice | .deviceNotFound _ _ | .ambiguousDevice _ | .deviceUnresponsive | .noStorage => NO_DEVICE
  | .storageRequired _ | .storageNotFound _ _ => NOT_FOUND
  | .raised e => codeForError e

/-- An interrupt wins over failed files. -/
def codeForReport (report : Report) : ℕ :=
  if report.interrupted then INTERRUPTED
  else if report.failed.isEmpty then SUCCESS
  else TRANSFER_FAILED

def codeForOutcome : CommandOutcome → ℕ
  | .transferred report => codeForReport report
  | .done | .dryRun _ => SUCCESS

/-- The status of `main`. -/
def status : Except ChoiceError CommandOutcome → ℕ
  | .ok outcome => codeForOutcome outcome
  | .error e => codeForChoice e

/-- No error has the status of a finished transfer. -/
theorem codeForError_mem (e : Error) : codeForError e ∈
    [GENERIC, USAGE, NO_DEVICE, ACCESS_DENIED, NOT_FOUND, CONFLICTS, INTERRUPTED] := by
  cases e <;> simp [codeForError]

theorem codeForChoice_mem (e : ChoiceError) : codeForChoice e ∈
    [GENERIC, USAGE, NO_DEVICE, ACCESS_DENIED, NOT_FOUND, CONFLICTS, INTERRUPTED] := by
  cases e with
  | raised e => exact codeForError_mem e
  | _ => simp [codeForChoice]

/-- A device that is not opened is not taken for a path that is not found. -/
theorem codeForChoice_refused {ω δ α : Type} {usb : Usb ω δ α} {flag : Option String} {prompts : Bool}
    {pick : List DeviceSummary → Choice} {w w' : ω} {e : ChoiceError}
    (h : Refused usb flag prompts pick w e w') :
    codeForChoice e ∈ [GENERIC, NO_DEVICE, ACCESS_DENIED, INTERRUPTED] := by
  have hstack (he : e = .deviceUnresponsive ∨ ∃ raised : MtpError, e = .raised (.ofMtp raised)) :
      codeForChoice e ∈ [GENERIC, NO_DEVICE, ACCESS_DENIED, INTERRUPTED] := by
    rcases he with rfl | ⟨raised, rfl⟩
    · simp [codeForChoice]
    · cases raised <;> simp [codeForChoice, codeForError, Error.ofMtp]
  cases h with
  | unlisted _ _ => exact hstack (.inr ⟨_, rfl⟩)
  | unopened _ _ _ hopened => exact hstack (openListed_error hopened)
  | unloaded _ _ _ _ hload => exact hstack (load_error hload)
  | _ => simp [codeForChoice, codeForError]

/-- What ends a batch is told from what ends a plan, a path or a run. -/
theorem codeForError_aborts {e : Error} (h : abortsBatch e = true) :
    codeForError e ∈ [GENERIC, NO_DEVICE, ACCESS_DENIED] := by
  cases e with
  | disconnected => decide
  | noDevice => decide
  | exclusiveAccess => decide
  | permissionDenied => decide
  | mtp e => simp [codeForError]
  | io kind => simp [codeForError]
  | localIo op path kind => simp [codeForError]
  | conflicts paths => exact absurd h Bool.false_ne_true
  | sourceVanished path => exact absurd h Bool.false_ne_true
  | lengthMismatch path expected actual => exact absurd h Bool.false_ne_true
  | cancelled => exact absurd h Bool.false_ne_true
  | unsupported what => exact absurd h Bool.false_ne_true
  | invalidPath reason => exact absurd h Bool.false_ne_true
  | remotePathNotFound => exact absurd h Bool.false_ne_true
  | remotePathUndescribed skipped => exact absurd h Bool.false_ne_true
  | notADirectory => exact absurd h Bool.false_ne_true
  | localNotADirectory => exact absurd h Bool.false_ne_true

end Exit

/-- `commands::print`, after the write on stdout: a reader that closed the pipe early is no failure. -/
def quietWhenGone : Except IoErrorKind Unit → Except ChoiceError Unit
  | .ok () => .ok ()
  | .error .brokenPipe => .ok ()
  | .error kind => .error (.raised (.io kind))

/-- The end of `transfer::run`, once the renderer is done: a dry run prints its plan. -/
def showPlan (F : TextFormats) (write : String → Except IoErrorKind Unit) :
    Except ChoiceError CommandOutcome → Except ChoiceError CommandOutcome
  | .ok (.dryRun p) => (quietWhenGone (write (F.plan p))).map fun _ => .dryRun p
  | outcome => outcome

namespace Session

variable {σ : Type} (S : Session σ) (F : TextFormats) (write : String → Except IoErrorKind Unit)

/-- What keeps a plan from being made: the storage or the path, a scan, or conflicts. -/
inductive Unplanned : ChoiceError → Prop
  | refused {e : ChoiceError} : S.endpoint = .error e → Unplanned e
  | failed {e : Error} (side : Side) : (S.scan side).result = .error e → Unplanned (.raised e)
  | conflicts {source dest : ScanResult} {paths : List RelPath} :
      (S.scan .source).result = .ok source → (S.scan .dest).result = .ok dest →
      S.planOf source dest = .error paths → Unplanned (.raised (.conflicts paths))

/-- The statuses of a transfer, by what the renderer has heard last. -/
inductive ExitsAs : List SessionEvent → ℕ → Prop
  /-- No plan: nothing but scans, and no status of a finished transfer. -/
  | planless {xs : List SessionEvent} {e : ChoiceError} : S.Unplanned e →
      (∀ source dest p, ¬S.Planned source dest p) → Sided xs →
      Exit.codeForChoice e ∈ [Exit.GENERIC, Exit.USAGE, Exit.NO_DEVICE, Exit.ACCESS_DENIED,
        Exit.NOT_FOUND, Exit.CONFLICTS, Exit.INTERRUPTED] → ExitsAs xs (Exit.codeForChoice e)
  | dryRun {xs : List SessionEvent} {source dest : ScanResult} {p : Plan} : S.dryRun = true →
      S.Planned source dest p → Sided xs →
      write (F.plan p) = .ok () ∨ write (F.plan p) = .error .brokenPipe →
      ExitsAs (xs ++ [S.readyEvent source dest p]) Exit.SUCCESS
  /-- The plan was made, and could not be printed. -/
  | unprinted {xs : List SessionEvent} {source dest : ScanResult} {p : Plan} {kind : IoErrorKind} :
      S.dryRun = true → S.Planned source dest p → Sided xs → write (F.plan p) = .error kind →
      kind ≠ .brokenPipe → ExitsAs (xs ++ [S.readyEvent source dest p]) Exit.GENERIC
  | whole {xs : List SessionEvent} {source dest : ScanResult} {p : Plan} {report : Report} :
      S.dryRun = false → S.Planned source dest p → (S.runOf p).1 = .ok report → report.failed = [] →
      report.interrupted = false → report.copied = copies p.actions →
      ExitsAs (xs ++ [.run (.finished report)]) Exit.SUCCESS
  | failed {xs : List SessionEvent} {source dest : ScanResult} {p : Plan} {report : Report} :
      S.dryRun = false → S.Planned source dest p → (S.runOf p).1 = .ok report → report.failed ≠ [] →
      report.interrupted = false → report.copied + failedCopies p report = copies p.actions →
      ExitsAs (xs ++ [.run (.finished report)]) Exit.TRANSFER_FAILED
  | interrupted {xs : List SessionEvent} {source dest : ScanResult} {p : Plan} {report : Report}
      (remaining : ℕ) : S.dryRun = false → S.Planned source dest p → (S.runOf p).1 = .ok report →
      report.interrupted = true →
      report.copied + failedCopies p report + remaining = copies p.actions →
      ExitsAs (xs ++ [.run (.interrupted remaining), .run (.finished report)]) Exit.INTERRUPTED
  | aborted {xs : List SessionEvent} {source dest : ScanResult} {p : Plan} {report : Report}
      {e : Error} (remaining : ℕ) : S.dryRun = false → S.Planned source dest p →
      (S.runOf p).1 = .error e → report.failed ≠ [] →
      Exit.codeForError e ∈ [Exit.GENERIC, Exit.NO_DEVICE, Exit.ACCESS_DENIED] →
      ExitsAs (xs ++ [.run (.aborted report remaining)]) (Exit.codeForError e)

variable {S}

/-- The end of a dry run. -/
theorem dryRun_exits {xs : List SessionEvent} {source dest : ScanResult} {p : Plan}
    (hdry : S.dryRun = true) (hplanned : S.Planned source dest p) (hsided : Sided xs) :
    S.ExitsAs F write (xs ++ [S.readyEvent source dest p])
      (Exit.status (showPlan F write (.ok (.dryRun p)))) := by
  rw [showPlan]
  cases hwrite : write (F.plan p) with
  | ok written => exact .dryRun hdry hplanned hsided (.inl hwrite)
  | error kind =>
    by_cases hgone : kind = .brokenPipe
    · subst hgone
      exact .dryRun hdry hplanned hsided (.inr hwrite)
    · have hkind : quietWhenGone (.error kind) = .error (.raised (.io kind)) := by
        cases kind <;> first | rfl | exact absurd rfl hgone
      rw [hkind]
      exact .unprinted hdry hplanned hsided hwrite hgone

theorem showPlan_executed (outcome : Except Error Report) :
    showPlan F write (executed outcome) = executed outcome := by
  cases outcome <;> rfl

/-- A run comes back with an error only if that error ends the batch. -/
theorem runOf_aborts {p : Plan} {e : Error} (h : (S.runOf p).1 = .error e) : abortsBatch e = true := by
  have hshape : RunShape (Block fun _ _ => True) (CutBlock fun _ _ => True) p.actions (S.runOf p).1
      (S.runOf p).2.trace :=
    runFrom_shape _ (fun _ _ _ _ _ _ => trivial) _ p.actions .nil rfl rfl
  rw [h] at hshape
  generalize (S.runOf p).2.trace = trace at hshape
  cases hshape with
  | aborted elapsed message hsplit hblocks hcut hne hab hreport => exact hab

/-- The last events of a run are not lost on their way. -/
theorem kept_last {es last heard : List ProgressEvent} (hlast : ∀ e ∈ last, e.isLossy = false)
    (h : Kept ProgressEvent.isLossy (es ++ last) heard) : ∃ before, heard = before ++ last := by
  obtain ⟨before, after, rfl, -, hafter⟩ := h.split
  refine ⟨before, congrArg (before ++ ·) ?_⟩
  clear h
  induction last generalizing after with
  | nil =>
    cases hafter
    rfl
  | cons e last ih =>
    cases hafter with
    | keep _ hrest => exact congrArg (e :: ·) (ih (fun x hx => hlast x (List.mem_cons_of_mem e hx)) _ hrest)
    | drop hlossy _ =>
      rw [hlast e List.mem_cons_self] at hlossy
      exact absurd hlossy Bool.false_ne_true

/-- What is heard last of a run, with the status it ends with. -/
theorem ran_exits {source dest : ScanResult} {p : Plan} (hplanned : S.Planned source dest p)
    (hdry : S.dryRun = false) (xs : List SessionEvent) {es : List ProgressEvent}
    (hkept : Kept ProgressEvent.isLossy (S.runEvents p) es) :
    S.ExitsAs F write (xs ++ es.map .run)
      (Exit.status (showPlan F write (executed (S.runOf p).1))) := by
  rw [showPlan_executed]
  have htold := runOf_told hplanned
  have haborts (e : Error) : (S.runOf p).1 = .error e → abortsBatch e = true := runOf_aborts
  generalize houtcome : (S.runOf p).1 = outcome at htold haborts
  generalize S.runEvents p = events at htold hkept
  cases htold with
  | @finished sent report hes hflag hfailed hcount =>
    obtain ⟨before, rfl⟩ := kept_last (by simp [ProgressEvent.isLossy]) hkept
    rw [List.map_append, ← List.append_assoc]
    by_cases hnone : report.failed = []
    · have hstatus : Exit.status (executed (.ok report)) = Exit.SUCCESS := by
        simp [executed, Exit.status, Exit.codeForOutcome, Exit.codeForReport, hflag, hnone]
      have hcopied : report.copied = copies p.actions := by
        rw [failedCopies, hnone] at hcount
        exact hcount
      rw [hstatus]
      exact .whole hdry hplanned houtcome hnone hflag hcopied
    · have hstatus : Exit.status (executed (.ok report)) = Exit.TRANSFER_FAILED := by
        simp [executed, Exit.status, Exit.codeForOutcome, Exit.codeForReport, hflag, hnone]
      rw [hstatus]
      exact .failed hdry hplanned houtcome hnone hflag hcount
  | @interrupted sent report remaining hes hflag hfailed hcount =>
    obtain ⟨before, rfl⟩ := kept_last (by simp [ProgressEvent.isLossy]) hkept
    have hstatus : Exit.status (executed (.ok report)) = Exit.INTERRUPTED := by
      simp [executed, Exit.status, Exit.codeForOutcome, Exit.codeForReport, hflag]
    rw [List.map_append, ← List.append_assoc, hstatus]
    exact .interrupted remaining hdry hplanned houtcome hflag hcount
  | @aborted sent report e remaining inFlight hes hfailed hcount =>
    obtain ⟨before, rfl⟩ := kept_last (by simp [ProgressEvent.isLossy]) hkept
    rw [List.map_append, ← List.append_assoc]
    have hne : report.failed ≠ [] := by
      rw [hfailed]
      simp
    exact .aborted remaining hdry hplanned houtcome hne (Exit.codeForError_aborts (haborts e rfl))

theorem HeardAll.exitsAs {outcome : Except ChoiceError CommandOutcome} {xs : List SessionEvent}
    (h : S.HeardAll outcome xs) :
    S.ExitsAs F write xs (Exit.status (showPlan F write outcome)) := by
  cases h with
  | refused herr =>
    refine .planless (.refused herr) (fun source dest p hplanned => ?_)
      (fun e he => absurd he List.not_mem_nil) (Exit.codeForChoice_mem _)
    exact absurd (herr.symm.trans hplanned.opened) (by simp)
  | failed side hopen herr hscans hkept =>
    refine .planless (.failed side herr) (fun source dest p hplanned => ?_) hscans.1
      (Exit.codeForChoice_mem _)
    cases side with
    | source => exact absurd (herr.symm.trans hplanned.sourceScan) (by simp)
    | dest => exact absurd (herr.symm.trans hplanned.destScan) (by simp)
  | @conflicts xs source' dest' paths hopen hsource hdest hplan hboth =>
    refine .planless (.conflicts hsource hdest hplan) (fun source dest p hplanned => ?_) hboth.1
      (Exit.codeForChoice_mem _)
    obtain rfl := Except.ok.inj (hsource.symm.trans hplanned.sourceScan)
    obtain rfl := Except.ok.inj (hdest.symm.trans hplanned.destScan)
    exact absurd (hplan.symm.trans hplanned.plan) (by simp)
  | dryRun hplanned hdry hboth => exact dryRun_exits F write hdry hplanned hboth.1
  | @ran xs source dest p es hplanned hdry hboth hkept =>
    have hran := ran_exits F write hplanned hdry (xs ++ [S.readyEvent source dest p]) hkept
    rwa [List.append_assoc] at hran

end Session

/-- In every interleaving, whatever the channel drops and whenever a Ctrl-C comes, the status of a
transfer that has ended says how: 0 that every planned copy was made or that the plan was only shown,
6 that every copy that was not made has failed, 130 that some may be left, 1, 3 or 4 what ended the
run or kept a plan from being made or printed, and 2, 5 or 7 only why there was no plan. Without a
device the status is 1, 3, 4 or 130. -/
theorem exit_status_tells {σ : Type} (S : Session σ) (F : TextFormats)
    (write : String → Except IoErrorKind Unit) (capacity : ℕ) (s : SessionState)
    (hrun : SessionRun S capacity SessionState.start s)
    (outcome : Except ChoiceError CommandOutcome) (hclosed : s.Closed outcome) :
    S.ExitsAs F write s.received (Exit.status (showPlan F write outcome)) ∧
      ∀ {ω δ α : Type} (usb : Usb ω δ α) (flag : Option String) (prompts : Bool)
        (pick : List DeviceSummary → Choice) (w w' : ω) (e : ChoiceError),
        openDevice usb flag prompts pick w = (.error e, w') →
          Exit.status (.error e) ∈ [Exit.GENERIC, Exit.NO_DEVICE, Exit.ACCESS_DENIED, Exit.INTERRUPTED] := by
  refine ⟨?_, fun usb flag prompts pick w w' e h => Exit.codeForChoice_refused (openDevice_error.mp h)⟩
  obtain ⟨sent, hsender, -, hkept⟩ := hrun.sound
  have hsent := Session.sent_of_trace hsender
  obtain ⟨hended, hbuffer⟩ := hclosed
  rw [hended] at hsent
  rw [hbuffer, List.append_nil] at hkept
  exact (hsent.heardAll hkept).exitsAs F write

theorem exit_status_tells_memo : Exit.status (.ok (.transferred memoReport)) = 130 ∧
    stoppedPull.ExitsAs plainFormats (fun _ => .error .storageFull) memoOver.received
      (Exit.status (.ok (.transferred memoReport))) :=
  ⟨rfl, (exit_status_tells stoppedPull plainFormats (fun _ => .error .storageFull) 4 memoOver
    memoOver_run _ ⟨rfl, rfl⟩).1⟩

end MtpxCore
