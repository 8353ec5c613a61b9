import MtpxCore.ExecutorGrammar

/-! What an observer of a run sees, and what the endpoints are asked: the events of every
block, one settled offset for each copy, and a single ending that agrees with the outcome. -/
namespace MtpxCore

open BlockTrace

/-- The event an observer gets, best-effort progress left out. -/
def Happening.seen : Happening → Option ProgressEvent
  | .call _ => none
  | .event (.fileProgress _ _) => none
  | .event e => some e

def eventsOf (xs : List Happening) : List ProgressEvent := xs.filterMap Happening.seen

def retries (path : RelPath) (messages : List String) : List ProgressEvent :=
  messages.map (fun message => .fileFailed path message true)

/-- The events of an action that ran to its end. -/
inductive EventBlock : Action → List ProgressEvent → Prop
  | made (path : RelPath) : EventBlock (.mkdir path) []
  | notMade (path : RelPath) (message : String) :
      EventBlock (.mkdir path) [.fileFailed path message false]
  | skipped (path : RelPath) (reason : SkipReason) :
      EventBlock (.skip path reason) [.skipped path reason]
  | unsettled {path : RelPath} {size requested : ℕ} {modified : Option ModifiedTime}
      {reason : CopyReason} (message : String) :
      EventBlock (.copy path size modified requested reason) [.fileFailed path message false]
  | failed {path : RelPath} {size requested : ℕ} {modified : Option ModifiedTime}
      {reason : CopyReason} (offset : ℕ) (messages : List String) (message : String) :
      messages.length ≤ 3 →
      EventBlock (.copy path size modified requested reason)
        (.fileStarted path size offset :: retries path messages ++ [.fileFailed path message false])
  | finished {path : RelPath} {size requested : ℕ} {modified : Option ModifiedTime}
      {reason : CopyReason} (offset elapsed : ℕ) (messages : List String) :
      messages.length ≤ 3 →
      EventBlock (.copy path size modified requested reason)
        (.fileStarted path size offset :: retries path messages ++
          [.fileFinished path (size - offset) elapsed])

/-- The events of an action cut before its final one. -/
inductive EventCut : Action → List ProgressEvent → Prop
  | silent (a : Action) : EventCut a []
  | started {path : RelPath} {size requested : ℕ} {modified : Option ModifiedTime}
      {reason : CopyReason} (offset : ℕ) (messages : List String) : messages.length ≤ 3 →
      EventCut (.copy path size modified requested reason)
        (.fileStarted path size offset :: retries path messages)

def Happening.isRead : Happening → Bool
  | .call (.read _ _) => true
  | _ => false

def Happening.isWrite : Happening → Bool
  | .call (.write _) => true
  | _ => false

def Happening.isStart : Happening → Bool
  | .event (.fileStarted _ _ _) => true
  | _ => false

/-- At most four reads and one write, all at the one offset that was announced. A finished
copy has read at least once and written once. -/
structure OneOffset (a : Action) (xs : List Happening) : Prop where
  starts : xs.countP Happening.isStart ≤ 1
  reads : xs.countP Happening.isRead ≤ 4
  writes : xs.countP Happening.isWrite ≤ 1
  read_at : ∀ path offset, .call (.read path offset) ∈ xs →
    path = a.path ∧ ∃ size, .event (.fileStarted path size offset) ∈ xs
  write_at : ∀ request, .call (.write request) ∈ xs → request.path = a.path ∧
    .event (.fileStarted request.path request.expectedSize request.resumeFrom) ∈ xs
  finished : ∀ path bytes elapsed, .event (.fileFinished path bytes elapsed) ∈ xs →
    0 < xs.countP Happening.isRead ∧ xs.countP Happening.isWrite = 1

section Blocks

variable {P : ℕ → ℕ → Prop}

theorem eventsOf_append (xs ys : List Happening) :
    eventsOf (xs ++ ys) = eventsOf xs ++ eventsOf ys :=
  List.filterMap_append

theorem Attempts.events {path : RelPath} {offset n : ℕ} {xs : List Happening}
    (h : Attempts path offset n xs) :
    ∃ messages, messages.length = n ∧ eventsOf xs = retries path messages := by
  induction h with
  | none => exact ⟨[], rfl, rfl⟩
  | retry message _ ih =>
    obtain ⟨messages, hlen, he⟩ := ih
    refine ⟨message :: messages, by simp [hlen], ?_⟩
    rw [retries, List.map_cons, ← retries, ← he]
    rfl

theorem Progress.events {path : RelPath} {offset : ℕ} {ps : List Happening}
    (h : Progress path offset ps) : eventsOf ps = [] := by
  obtain ⟨bytes, rfl, -, -⟩ := h
  rw [eventsOf, List.filterMap_map]
  apply List.filterMap_eq_nil_iff.mpr
  intro b _
  rfl

theorem Copying.events {path : RelPath} {size requested offset : ℕ}
    {modified : Option ModifiedTime} {xs : List Happening}
    (h : Copying P path size modified requested offset xs) :
    ∃ messages, messages.length ≤ 3 ∧
      eventsOf xs = .fileStarted path size offset :: retries path messages := by
  have hopen : eventsOf (opening path size requested offset) = [.fileStarted path size offset] := rfl
  cases h with
  | waiting _ ha hn =>
    obtain ⟨messages, rfl, he⟩ := ha.events
    exact ⟨messages, hn, by rw [eventsOf_append, hopen, he]; rfl⟩
  | read _ ha hn =>
    obtain ⟨messages, rfl, he⟩ := ha.events
    refine ⟨messages, hn, ?_⟩
    rw [eventsOf_append, eventsOf_append, hopen, he]
    exact List.append_nil _
  | written _ ha hn hp =>
    obtain ⟨messages, rfl, he⟩ := ha.events
    refine ⟨messages, hn, ?_⟩
    have hlast : eventsOf (.call (.read path offset) ::
        .call (.write ⟨path, size, offset, modified⟩) :: _) = _ := hp.events
    rw [eventsOf_append, eventsOf_append, hopen, he, hlast]
    exact List.append_nil _

theorem CutBlock.events {a : Action} {xs : List Happening} (h : CutBlock P a xs) :
    EventCut a (eventsOf xs) := by
  cases h with
  | unstarted => exact .silent a
  | mkdir path => exact .silent _
  | unsettled => exact .silent _
  | copying hc =>
    obtain ⟨messages, hn, he⟩ := hc.events
    rw [he]
    exact .started _ messages hn

theorem Block.events {a : Action} {xs : List Happening} (h : Block P a xs) :
    EventBlock a (eventsOf xs) := by
  cases h with
  | made path => exact .made path
  | skipped path reason => exact .skipped path reason
  | failed message hc hne =>
    rw [eventsOf_append]
    cases hc with
    | unstarted => exact absurd rfl hne
    | mkdir path => exact .notMade path message
    | unsettled => exact .unsettled message
    | copying hc =>
      obtain ⟨messages, hn, he⟩ := hc.events
      rw [he]
      exact .failed _ messages message hn
  | copied elapsed hP ha hn hp =>
    obtain ⟨messages, hm, he⟩ := (Copying.written (P := P) hP ha hn hp).events
    rw [eventsOf_append, he]
    exact .finished _ elapsed messages hm

/-- Every announced attempt is one read at the offset. -/
theorem Attempts.counts {path : RelPath} {offset n : ℕ} {xs : List Happening}
    (h : Attempts path offset n xs) :
    xs.countP Happening.isStart = 0 ∧ xs.countP Happening.isRead = n ∧
      xs.countP Happening.isWrite = 0 := by
  induction h with
  | none => exact ⟨rfl, rfl, rfl⟩
  | retry message _ ih =>
    simpa [List.countP_cons, Happening.isStart, Happening.isRead, Happening.isWrite] using ih

theorem Attempts.mem {path : RelPath} {offset n : ℕ} {xs : List Happening}
    (h : Attempts path offset n xs) : ∀ c, .call c ∈ xs → c = .read path offset := by
  induction h with
  | none => simp
  | retry message _ ih => simpa using ih

theorem Progress.counts {path : RelPath} {offset : ℕ} {ps : List Happening}
    (h : Progress path offset ps) :
    ps.countP Happening.isStart = 0 ∧ ps.countP Happening.isRead = 0 ∧
      ps.countP Happening.isWrite = 0 := by
  obtain ⟨bytes, rfl, -, -⟩ := h
  simp [List.countP_map, Function.comp_def, Happening.isStart, Happening.isRead, Happening.isWrite]

theorem Progress.mem {path : RelPath} {offset : ℕ} {ps : List Happening}
    (h : Progress path offset ps) (c : Call) : .call c ∉ ps := by
  obtain ⟨bytes, rfl, -, -⟩ := h
  simp

/-- After the announcement a copy only asks for its source and its one write. -/
theorem Copying.calls {path : RelPath} {size requested offset : ℕ}
    {modified : Option ModifiedTime} {xs : List Happening}
    (h : Copying P path size modified requested offset xs) :
    ∃ ys, xs = opening path size requested offset ++ ys ∧ ys.countP Happening.isStart = 0 ∧
      ys.countP Happening.isRead ≤ 4 ∧ ys.countP Happening.isWrite ≤ 1 ∧
      ∀ c, .call c ∈ ys → c = .read path offset ∨ c = .write ⟨path, size, offset, modified⟩ := by
  cases h with
  | @waiting n ys hP ha hn =>
    obtain ⟨hs, hr, hw⟩ := ha.counts
    -- cut while waiting for another try: reads only, and none of the last kind
    refine ⟨ys, rfl, hs, ?_, by omega, fun c hc => Or.inl (ha.mem c hc)⟩
    rw [hr]
    exact hn.trans (by decide)
  | @read n ys hP ha hn =>
    obtain ⟨hs, hr, hw⟩ := ha.counts
    refine ⟨_, List.append_assoc _ _ _, ?_, ?_, ?_, ?_⟩
    · simp [hs, Happening.isStart]
    · simp only [List.countP_append, hr, List.countP_cons, List.countP_nil, Happening.isRead,
        if_true]
      exact Nat.succ_le_succ hn
    · simp [hw, Happening.isWrite]
    · intro c hc
      left
      rcases List.mem_append.mp hc with hc | hc
      · exact ha.mem c hc
      · simpa using hc
  | @written n ys ps hP ha hn hp =>
    obtain ⟨hs, hr, hw⟩ := ha.counts
    obtain ⟨hps, hpr, hpw⟩ := hp.counts
    refine ⟨_, List.append_assoc _ _ _, ?_, ?_, ?_, ?_⟩
    · simp [hs, hps, Happening.isStart]
    · simp only [List.countP_append, hr, List.countP_cons, hpr, Happening.isRead]
      exact Nat.succ_le_succ hn
    · simp [List.countP_cons, hw, hpw, Happening.isWrite]
    · intro c hc
      rcases List.mem_append.mp hc with hc | hc
      · exact Or.inl (ha.mem c hc)
      · simpa [hp.mem] using hc

theorem Copying.oneOffset {path : RelPath} {size requested offset : ℕ}
    {modified : Option ModifiedTime} {xs : List Happening} (reason : CopyReason)
    (h : Copying P path size modified requested offset xs) :
    OneOffset (.copy path size modified requested reason) xs := by
  obtain ⟨ys, rfl, hs, hr, hw, hcalls⟩ := h.calls
  have hmem : .event (.fileStarted path size offset) ∈ opening path size requested offset ++ ys := by
    simp [opening]
  constructor
  · simp [opening, List.countP_cons, hs, Happening.isStart]
  · simpa [opening, List.countP_cons, Happening.isRead] using hr
  · simpa [opening, List.countP_cons, Happening.isWrite] using hw
  · intro p o hc
    have hc' : .call (.read p o) ∈ ys := by simpa [opening] using hc
    rcases hcalls _ hc' with he | he
    · cases he
      exact ⟨rfl, size, hmem⟩
    · exact absurd he (by simp)
  · intro request hc
    have hc' : .call (.write request) ∈ ys := by simpa [opening] using hc
    rcases hcalls _ hc' with he | he
    · exact absurd he (by simp)
    · cases he
      exact ⟨rfl, hmem⟩
  · intro p bytes elapsed hfinished
    exact absurd (h.silent _ hfinished) (by simp [Happening.isSilent])

theorem CutBlock.oneOffset {a : Action} {xs : List Happening} (h : CutBlock P a xs) : OneOffset a xs := by
  cases h with
  | unstarted => constructor <;> simp
  | mkdir path =>
    constructor <;> simp [Happening.isStart, Happening.isRead, Happening.isWrite]
  | unsettled =>
    constructor <;> simp [Happening.isStart, Happening.isRead, Happening.isWrite]
  | copying hc => exact hc.oneOffset _

/-- One more event that announces no offset, and no end of a copy that was not written. -/
theorem OneOffset.snoc {a : Action} {xs : List Happening} (h : OneOffset a xs) {e : ProgressEvent}
    (he : (Happening.event e).isStart = false)
    (hwritten : ∀ path bytes elapsed, e = .fileFinished path bytes elapsed →
      0 < xs.countP Happening.isRead ∧ xs.countP Happening.isWrite = 1) :
    OneOffset a (xs ++ [.event e]) where
  starts := by simpa [List.countP_cons, he] using h.starts
  reads := by simpa [List.countP_cons, Happening.isRead] using h.reads
  writes := by simpa [List.countP_cons, Happening.isWrite] using h.writes
  read_at := by
    intro path offset hc
    obtain ⟨hp, size, hm⟩ := h.read_at path offset (by simpa using hc)
    exact ⟨hp, size, List.mem_append_left _ hm⟩
  write_at := by
    intro request hc
    obtain ⟨hp, hm⟩ := h.write_at request (by simpa using hc)
    exact ⟨hp, List.mem_append_left _ hm⟩
  finished := by
    intro path bytes elapsed hm
    have hcounts : 0 < xs.countP Happening.isRead ∧ xs.countP Happening.isWrite = 1 := by
      rcases List.mem_append.mp hm with hm | hm
      · exact h.finished path bytes elapsed hm
      · exact hwritten path bytes elapsed (Happening.event.inj (List.mem_singleton.mp hm)).symm
    simpa [List.countP_cons, Happening.isRead, Happening.isWrite] using hcounts

theorem Block.oneOffset {a : Action} {xs : List Happening} (h : Block P a xs) :
    OneOffset a xs := by
  cases h with
  | made path => exact (CutBlock.mkdir (P := P) path).oneOffset
  | skipped path reason => exact (CutBlock.unstarted (P := P) _).oneOffset.snoc rfl (by simp)
  | failed message hc hne => exact hc.oneOffset.snoc rfl (by simp)
  | copied elapsed hP ha hn hp =>
    apply ((Copying.written (P := P) hP ha hn hp).oneOffset _).snoc rfl
    obtain ⟨-, -, hwrites⟩ := ha.counts
    obtain ⟨-, -, hwrite⟩ := hp.counts
    -- the read that was answered comes on top of the failed ones
    intro _ _ _ _
    simp [opening, List.countP_cons, hwrites, hwrite, Happening.isRead, Happening.isWrite]

end Blocks

/-- The events with which a run ends. -/
def Happening.isEnding : Happening → Bool
  | .event (.interrupted _) => true
  | .event (.finished _) => true
  | .event (.aborted _ _) => true
  | _ => false

section Endings

variable {P : ℕ → ℕ → Prop} {B C B' C' : Action → List Happening → Prop} {actions : List Action}
  {outcome : Except Error Report} {trace : List Happening}

theorem not_ending_of_silent {x : Happening} (h : x.isSilent = true) : x.isEnding = false := by
  cases x with
  | call c => rfl
  | event e =>
    cases e with
    | interrupted n => exact absurd h (by simp [Happening.isSilent])
    | finished report => exact absurd h (by simp [Happening.isSilent])
    | aborted report n => exact absurd h (by simp [Happening.isSilent])
    | _ => rfl

theorem CutBlock.not_ending {a : Action} {xs : List Happening} (h : CutBlock P a xs) :
    ∀ x ∈ xs, x.isEnding = false :=
  fun x hx => not_ending_of_silent (h.silent x hx)

/-- No block holds an event that ends a run. -/
theorem Block.not_ending {a : Action} {xs : List Happening} (h : Block P a xs) :
    ∀ x ∈ xs, x.isEnding = false := by
  have hsnoc {ys : List Happening} {e : ProgressEvent} (hys : ∀ x ∈ ys, x.isSilent = true)
      (he : (Happening.event e).isEnding = false) :
      ∀ x ∈ ys ++ [.event e], x.isEnding = false := by
    intro x hx
    rcases List.mem_append.mp hx with hx | hx
    · exact not_ending_of_silent (hys x hx)
    · rw [List.mem_singleton.mp hx]
      exact he
  cases h with
  | made path => simp [Happening.isEnding]
  | skipped path reason => simp [Happening.isEnding]
  | failed message hc hne => exact hsnoc hc.silent rfl
  | copied elapsed hP ha hn hp => exact hsnoc (Copying.written (P := P) hP ha hn hp).silent rfl

theorem RunShape.mono (hB : ∀ a xs, B a xs → B' a xs) (hC : ∀ a xs, C a xs → C' a xs)
    (h : RunShape B C actions outcome trace) : RunShape B' C' actions outcome trace := by
  cases h with
  | finished elapsed hb hr => exact .finished elapsed (hb.mono hB) hr
  | interrupted elapsed hs hb hc hr => exact .interrupted elapsed hs (hb.mono hB) (hC _ _ hc) hr
  | aborted elapsed message hs hb hc hne hab hr =>
    exact .aborted elapsed message hs (hb.mono hB) (hC _ _ hc) hne hab hr

theorem foldl_tally_interrupted (xs : List Happening) (report : Report) :
    (xs.foldl tally report).interrupted = report.interrupted := by
  induction xs generalizing report with
  | nil => rfl
  | cons x xs ih =>
    rw [List.foldl_cons, ih]
    unfold tally
    split <;> rfl

/-- The last event tells the outcome. -/
theorem RunShape.last (h : RunShape B C actions outcome trace) :
    (∃ report, outcome = .ok report ∧ trace.getLast? = some (.event (.finished report))) ∨
      ∃ e report n, outcome = .error e ∧
        trace.getLast? = some (.event (.aborted report n)) := by
  cases h with
  | finished elapsed hb hr => exact Or.inl ⟨_, rfl, List.getLast?_concat ..⟩
  | interrupted elapsed hs hb hc hr => exact Or.inl ⟨_, rfl, by simp⟩
  | aborted elapsed message hs hb hc hne hab hr =>
    exact Or.inr ⟨_, _, _, rfl, List.getLast?_concat ..⟩

/-- A report says interrupted exactly when the observer was told so. -/
theorem RunShape.interrupted_iff (h : RunShape (Block P) (CutBlock P) actions outcome trace)
    {report : Report} (hok : outcome = .ok report) :
    report.interrupted = true ↔ ∃ n, .event (.interrupted n) ∈ trace := by
  cases h with
  | @finished xs report' elapsed hb hr =>
    cases hok
    have hflag : report.interrupted = false := by
      rw [hr]
      exact foldl_tally_interrupted xs Report.zero
    rw [hflag]
    simp only [Bool.false_eq_true, false_iff, not_exists, List.mem_append, not_or]
    intro n
    refine ⟨fun hm => ?_, by simp⟩
    obtain ⟨a, -, ys, hy, hmy⟩ := hb.mem hm
    exact absurd (hy.not_ending _ hmy) (by simp [Happening.isEnding])
  | interrupted elapsed hs hb hc hr =>
    cases hok
    rw [hr]
    simp only [true_iff]
    exact ⟨_, List.mem_append_right _ List.mem_cons_self⟩
  | aborted elapsed message hs hb hc hne hab hr => exact absurd hok (by simp)

end Endings

end MtpxCore
