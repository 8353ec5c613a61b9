import MtpxCore.ExecutorAccounts
import MtpxCore.SessionEnds
import MtpxCore.TerminalLines

/-! What stderr tells of a whole transfer when no bars are drawn. Each text stands on lines of its own,
and a quiet transfer tells exactly what its outcome says. -/
namespace MtpxCore

open BlockTrace LossyChannel

def INTERRUPTING : String := "interrupting, finishing the current window..."

def Omitted.keepHint (omitted : Omitted) : Hint → Omitted
  | .deviceSkippedObjects skipped => { omitted with leftOut := skipped.length }
  | _ => omitted

/-- What an event leaves for the summary to mention. -/
def Omitted.keep (omitted : Omitted) : SessionEvent → Omitted
  | .planReady _ hints => hints.foldl Omitted.keepHint omitted
  | .run (.interrupted remaining) => { omitted with remaining := remaining }
  | _ => omitted

/-- Lines, with something written before the first of them and after the last. -/
def enclosed (before after : String) : List String → List String
  | [] => []
  | [line] => [before ++ line ++ after]
  | line :: next :: rest => (before ++ line) :: enclosed "" after (next :: rest)

namespace TextFormats

variable (F : TextFormats)

/-- The texts of the renderer's loop; `total` is the time of the whole command. -/
def told (quiet : Bool) (total : ℕ) : Omitted → List Shown → List Painted
  | _, [] => []
  | omitted, .event e :: rest =>
    F.printed quiet (omitted.keep e) total e ++ told quiet total (omitted.keep e) rest
  | omitted, .interrupting :: rest =>
    (if quiet then [] else [Theme.warn INTERRUPTING]) ++ told quiet total omitted rest

/-- `stderr::line`, for each text as it is painted. -/
def stderr (color quiet : Bool) (total : ℕ) (shown : List Shown) : String :=
  String.join (((F.told quiet total ⟨0, 0⟩ shown).map (F.paint color)).map (· ++ "\n"))

/-- The lines of a text in color: the codes of its style stand before the first and after the last. -/
def coloredLines (painted : Painted) : List String :=
  match painted.style with
  | some style => enclosed (F.opening style) F.closing (split painted.text '\n')
  | none => split painted.text '\n'

/-! Lines -/

theorem printable_hint (hint : Hint) (h : ∀ skipped, hint ≠ .deviceSkippedObjects skipped) :
    Printable (F.hintLine hint) := by
  cases hint with
  | slowLink bytes =>
    have hlink : Printable "The USB link is USB 2.0 or slower; " := by decide +kernel
    have hsize := printable_append.mpr ⟨hlink, F.size_printable bytes⟩
    exact printable_append.mpr ⟨hsize, by decide⟩
  | deviceSkippedObjects skipped => exact absurd rfl (h skipped)
  | stalePartials count bytes =>
    have hcount := printable_append.mpr ⟨printable_partials count, (by decide : Printable " (")⟩
    have hsize := printable_append.mpr ⟨hcount, F.size_printable bytes⟩
    exact printable_append.mpr ⟨hsize, by decide +kernel⟩

/-- The text is one line, or the list of what the device refused to describe. -/
def FewLines (text : String) : Prop :=
  Printable text ∨ ∃ skipped, HasLines text (F.skippedObjectsLines skipped)

theorem paintedSummary_text (report : Report) (omitted : Omitted) (total : ℕ) :
    (F.paintedSummary report omitted total).text = F.summaryLine report omitted total := by
  unfold paintedSummary
  dsimp only
  split
  · rfl
  · split <;> rfl

theorem texts_lines (omitted : Omitted) (total : ℕ) (e : SessionEvent) :
    ∀ text ∈ F.texts omitted total e, F.FewLines text.1.text := by
  have hopen : Printable " (" := by decide
  have hclose : Printable ")" := by decide
  have hcomma : Printable ", " := by decide
  have hcolon : Printable ": " := by decide
  have hspace : Printable " " := by decide
  have hof : Printable " of " := by decide
  have hfrom : Printable " from " := by decide
  cases e with
  | scanStarted side => exact fun _ h => absurd h List.not_mem_nil
  | scanProgress side found => exact fun _ h => absurd h List.not_mem_nil
  | scanFinished side entries skipped =>
    have hscanned : Printable "Scanned " := by decide
    have hname : Printable (sideName side) := by cases side <;> decide
    have hnote : Printable (skippedNote side) := by cases side <;> decide
    have hrest : Printable (if 0 < skipped then ", " ++ count skipped ++ " " ++ skippedNote side else "") := by
      refine printable_ite ?_ (by decide)
      simp only [printable_append, printable_count, hcomma, hspace, hnote, and_self]
    refine List.forall_mem_singleton.mpr (.inl ?_)
    simp only [Theme.plain_text, printable_append, printable_objects, hscanned, hname, hcolon, hrest,
      and_self]
  | planReady summary hints =>
    intro text htext
    rcases List.mem_cons.mp htext with rfl | htext
    · exact .inl (F.printable_planLine summary)
    · obtain ⟨hint, -, rfl⟩ := List.mem_map.mp htext
      cases hint with
      | deviceSkippedObjects skipped =>
        exact .inr ⟨skipped, .joined (List.cons_ne_nil _ _) (F.printable_skippedObjects skipped)⟩
      | slowLink bytes => exact .inl (F.printable_hint (.slowLink bytes) fun _ h => nomatch h)
      | stalePartials count bytes =>
        exact .inl (F.printable_hint (.stalePartials count bytes) fun _ h => nomatch h)
  | run event =>
    cases event with
    | fileStarted path size resumeFrom =>
      have hresuming : Printable "resuming " := by decide
      have hcopying : Printable "copying " := by decide
      refine List.forall_mem_singleton.mpr (.inl (printable_ite ?_ ?_))
      · simp only [printable_append, printable_shownPath, F.size_printable, hresuming, hfrom, hof,
          and_self]
      · simp only [printable_append, printable_shownPath, F.size_printable, hcopying, hopen, hclose,
          and_self]
    | fileProgress path bytes => exact fun _ h => absurd h List.not_mem_nil
    | fileFinished path bytes elapsed =>
      have hcopied : Printable "copied " := by decide
      refine List.forall_mem_singleton.mpr (.inl ?_)
      simp only [Theme.plain_text, printable_append, printable_shownPath, F.size_printable,
        F.printable_rate, hcopied, hopen, hcomma, hclose, and_self]
    | fileFailed path error willRetry =>
      cases willRetry with
      | true => exact List.forall_mem_singleton.mpr (.inl (printable_failedLine path error true))
      | false => exact List.forall_mem_singleton.mpr (.inl (printable_failedLine path error false))
    | skipped path reason =>
      have hskipped : Printable "skipped " := by decide
      have hline : Printable ("skipped " ++ shownPath path ++ " (" ++ skipReason reason ++ ")") := by
        simp only [printable_append, printable_shownPath, printable_skipReason, hskipped, hopen,
          hclose, and_self]
      -- a skip that is not notable is left untold
      intro text htext
      rw [texts] at htext
      split at htext
      · rw [List.mem_singleton.mp htext]
        exact .inl hline
      · exact absurd htext List.not_mem_nil
    | interrupted remaining => exact fun _ h => absurd h List.not_mem_nil
    | finished report =>
      have hline : F.FewLines (F.paintedSummary report omitted total).text := by
        rw [F.paintedSummary_text]
        exact .inl (F.printable_summaryLine report omitted total)
      exact List.forall_mem_singleton.mpr hline
    | aborted report remaining =>
      exact List.forall_mem_singleton.mpr (.inl (printable_abortedLine report remaining total))

theorem told_lines (quiet : Bool) (total : ℕ) (omitted : Omitted) (shown : List Shown) :
    ∀ painted ∈ F.told quiet total omitted shown, F.FewLines painted.text := by
  induction shown generalizing omitted with
  | nil => exact fun _ h => absurd h List.not_mem_nil
  | cons x rest ih =>
    intro text htext
    cases x with
    | event e =>
      rcases List.mem_append.mp htext with htext | htext
      · obtain ⟨t, ht, rfl⟩ := List.mem_map.mp htext
        exact F.texts_lines _ total e t (List.mem_of_mem_filter ht)
      · exact ih _ text htext
    | interrupting =>
      rcases List.mem_append.mp htext with htext | htext
      · split at htext
        · exact absurd htext List.not_mem_nil
        · rw [List.mem_singleton.mp htext]
          exact .inl (by decide +kernel)
      · exact ih _ text htext

end TextFormats

section Streams

variable {before after text : String} {lines : List String}

/-- A text is its lines, joined again. -/
theorem intercalate_split (text : String) : "\n".intercalate (split text '\n') = text := by
  apply String.toList_inj.mp
  have hlists : (split text '\n').map String.toList = text.toList.splitOn '\n' := by
    rw [split, List.map_map]
    conv_rhs => rw [← List.map_id (text.toList.splitOn '\n')]
    exact List.map_congr_left fun l _ => String.toList_ofList
  rw [String.toList_intercalate, hlists]
  exact List.intercalate_splitOn '\n'

/-- What is written around lines, all of it inside a line, makes no line more. -/
theorem split_enclosed (hne : lines ≠ []) (hlines : ∀ line ∈ lines, '\n' ∉ line.toList)
    (hbefore : '\n' ∉ before.toList) (hafter : '\n' ∉ after.toList) :
    split (before ++ "\n".intercalate lines ++ after) '\n' = enclosed before after lines := by
  induction lines generalizing before with
  | nil => exact absurd rfl hne
  | cons line lines ih =>
    have hline : '\n' ∉ (before ++ line).toList := by
      rw [String.toList_append, List.mem_append, not_or]
      exact ⟨hbefore, hlines line List.mem_cons_self⟩
    cases lines with
    | nil =>
      have hwhole : '\n' ∉ (before ++ line ++ after).toList := by
        rw [String.toList_append, List.mem_append, not_or]
        exact ⟨hline, hafter⟩
      rw [String.intercalate_singleton, enclosed, split, List.splitOn_eq_singleton hwhole,
        List.map_singleton, String.ofList_toList]
    | cons next rest =>
      have hrest := ih (List.cons_ne_nil next rest) (fun l hl => hlines l (List.mem_cons_of_mem _ hl))
        (by decide : '\n' ∉ "".toList)
      have hjoined : before ++ "\n".intercalate (line :: next :: rest) ++ after =
          before ++ line ++ "\n" ++ ("" ++ "\n".intercalate (next :: rest) ++ after) := by
        rw [String.intercalate_cons_cons]
        simp only [String.append_assoc, String.empty_append]
      rw [hjoined, split_cons hline, hrest, enclosed]

end Streams

namespace TextFormats

variable {F : TextFormats} {text : String}

theorem FewLines.printable (h : F.FewLines text) : ∀ line ∈ split text '\n', Printable line := by
  rcases h with hone | ⟨skipped, hmany⟩
  · rw [split_printable hone]
    exact List.forall_mem_singleton.mpr hone
  · rw [hmany.splits]
    exact hmany.printable

theorem FewLines.split_cases (h : F.FewLines text) : split text '\n' = [text] ∨
    ∃ skipped, split text '\n' = F.skippedObjectsLines skipped ∧
      (F.skippedObjectsLines skipped).length ≤ MAX_LISTED + 2 := by
  rcases h with hone | ⟨skipped, hmany⟩
  · exact .inl (split_printable hone)
  · exact .inr ⟨skipped, hmany.splits, Nat.succ_le_succ (F.skippedLines_length skipped)⟩

theorem paint_plain (painted : Painted) : F.paint false painted = painted.text := by
  unfold paint
  split <;> rfl

/-- Color adds no line to a text. -/
theorem FewLines.split_paint {painted : Painted} (h : F.FewLines painted.text) :
    split (F.paint true painted) '\n' = F.coloredLines painted := by
  have hinline : ∀ line ∈ split painted.text '\n', '\n' ∉ line.toList :=
    fun line hline => (h.printable line hline).no_newline
  have hne : split painted.text '\n' ≠ [] := by
    rw [split, ne_eq, List.map_eq_nil_iff]
    exact List.splitOn_ne_nil '\n' painted.text.toList
  unfold paint coloredLines
  cases painted.style with
  | none => rfl
  | some style =>
    have hsplit := split_enclosed hne hinline (F.opening_inline style) F.closing_inline
    rw [intercalate_split] at hsplit
    exact hsplit

end TextFormats

/-- However the events and a Ctrl-C come, every text on stderr is one line that is safe for a terminal,
or the list of what the device refused to describe, of at most two lines more than are listed; and
color adds to these lines nothing but the codes before the first of a text and after its last. -/
theorem stderr_lines (F : TextFormats) (quiet : Bool) (total : ℕ) (shown : List Shown) :
    HasLines (F.stderr false quiet total shown)
      ((F.told quiet total ⟨0, 0⟩ shown).flatMap (fun painted => split painted.text '\n') ++ [""]) ∧
    split (F.stderr true quiet total shown) '\n' =
      (F.told quiet total ⟨0, 0⟩ shown).flatMap F.coloredLines ++ [""] ∧
    ∀ painted ∈ F.told quiet total ⟨0, 0⟩ shown, split painted.text '\n' = [painted.text] ∨
      ∃ skipped, split painted.text '\n' = F.skippedObjectsLines skipped ∧
        (F.skippedObjectsLines skipped).length ≤ MAX_LISTED + 2 := by
  have hfew := F.told_lines quiet total ⟨0, 0⟩ shown
  refine ⟨⟨?_, fun line hline => ?_⟩, ?_, fun painted hpainted => (hfew painted hpainted).split_cases⟩
  · rw [TextFormats.stderr, split_stream, List.flatMap_map]
    congr 1
    exact List.flatMap_congr fun painted _ => by rw [TextFormats.paint_plain]
  · rcases List.mem_append.mp hline with hline | hline
    · obtain ⟨painted, hpainted, hline⟩ := List.mem_flatMap.mp hline
      exact (hfew painted hpainted).printable line hline
    · rw [List.mem_singleton.mp hline]
      decide
  · rw [TextFormats.stderr, split_stream, List.flatMap_map]
    congr 1
    exact List.flatMap_congr fun painted hpainted => (hfew painted hpainted).split_paint

/-! What a quiet transfer tells -/

/-- A failure that is not retried. -/
def ProgressEvent.failure : ProgressEvent → Option FailedFile
  | .fileFailed path error false => some ⟨path, error⟩
  | _ => none

def failures (es : List ProgressEvent) : List FailedFile := es.filterMap ProgressEvent.failure

section Runs

variable {P : ℕ → ℕ → Prop} {xs : List Happening}

theorem failures_append (es fs : List ProgressEvent) :
    failures (es ++ fs) = failures es ++ failures fs := List.filterMap_append

theorem totals_failed (xs : List Happening) : (totals xs).failed = failures (sent xs) := by
  induction xs using List.reverseRecOn with
  | nil => rfl
  | append_singleton xs x ih =>
    rw [totals, List.foldl_concat, ← totals, sent_append, failures_append, ← ih]
    cases x with
    | call c => exact (List.append_nil _).symm
    | event e =>
      cases e with
      | fileFailed path error willRetry =>
        cases willRetry with
        | true => exact (List.append_nil _).symm
        | false => rfl
      | _ => exact (List.append_nil _).symm

theorem failures_of_silent (h : ∀ x ∈ xs, x.isSilent = true) : failures (sent xs) = [] := by
  rw [← totals_failed, totals, foldl_silent h]
  rfl

theorem sent_not_ending (h : ∀ x ∈ xs, x.isEnding = false) :
    ∀ e ∈ sent xs, (Happening.event e).isEnding = false := by
  intro e he
  obtain ⟨x, hx, hsent⟩ := List.mem_filterMap.mp he
  cases x with
  | call c => exact absurd hsent (by simp)
  | event e' =>
    obtain rfl := Option.some.inj hsent
    exact h _ hx

theorem blocks_not_ending {actions : List Action} (h : Blocks (Block P) actions xs) :
    ∀ x ∈ xs, x.isEnding = false := by
  intro x hx
  obtain ⟨a, -, ys, hblock, hmem⟩ := h.mem hx
  exact hblock.not_ending x hmem

end Runs

/-- How a run ends, and what it has announced by then: the failures of its report, but for the one
in flight when it aborts, and then its end. -/
inductive RunTold (p : Plan) : Except Error Report → List ProgressEvent → Prop
  | finished {es : List ProgressEvent} {report : Report} :
      (∀ e ∈ es, (Happening.event e).isEnding = false) → report.interrupted = false →
      failures es = report.failed → report.copied + failedCopies p report = copies p.actions →
      RunTold p (.ok report) (es ++ [.finished report])
  | interrupted {es : List ProgressEvent} {report : Report} (remaining : ℕ) :
      (∀ e ∈ es, (Happening.event e).isEnding = false) → report.interrupted = true →
      failures es = report.failed →
      report.copied + failedCopies p report + remaining = copies p.actions →
      RunTold p (.ok report) (es ++ [.interrupted remaining, .finished report])
  | aborted {es : List ProgressEvent} {report : Report} {e : Error} (remaining : ℕ)
      (inFlight : FailedFile) : (∀ e ∈ es, (Happening.event e).isEnding = false) →
      report.failed = failures es ++ [inFlight] →
      report.copied + failedCopies p report + remaining =
        copies p.actions + (if p.copiesPath inFlight.path = true then 1 else 0) →
      RunTold p (.error e) (es ++ [.aborted report remaining])

theorem RunShape.told {P : ℕ → ℕ → Prop} {p : Plan} {outcome : Except Error Report}
    {trace : List Happening} (hpaths : p.actions.Pairwise (fun a b => a.path ≠ b.path))
    (h : RunShape (Block P) (CutBlock P) p.actions outcome trace) : RunTold p outcome (sent trace) := by
  cases h with
  | @finished xs report elapsed hb hr =>
    have hcount := totals_settled hpaths (fun a ha => ha) hb
    rw [sent_append]
    refine .finished (sent_not_ending (blocks_not_ending hb)) ?_ ?_ ?_
    · rw [hr]
      exact foldl_tally_interrupted xs Report.zero
    · rw [hr, ← totals_failed]
    · rw [hr]
      exact hcount
  | @interrupted done rest a xs ys report elapsed hs hb hc hr =>
    have hsub : ∀ b ∈ done, b ∈ p.actions := fun b hb => hs ▸ List.mem_append_left _ hb
    have hcount := totals_settled hpaths hsub hb
    rw [sent_append, sent_append]
    refine .interrupted _ (fun e he => ?_) ?_ ?_ ?_
    · rcases List.mem_append.mp he with he | he
      · exact sent_not_ending (blocks_not_ending hb) e he
      · exact sent_not_ending hc.not_ending e he
    · rw [hr]
    · rw [hr, failures_append, failures_of_silent hc.silent, List.append_nil, ← totals_failed]
    · rw [hs, copies_append, ← hcount, ← remainingCopies_eq, hr]
      rfl
  | @aborted done rest a xs ys report e elapsed message hs hb hc hne hab hr =>
    have hsub : ∀ b ∈ done, b ∈ p.actions := fun b hb => hs ▸ List.mem_append_left _ hb
    have hcount := totals_settled hpaths hsub hb
    rw [sent_append, sent_append]
    refine .aborted _ ⟨a.path, message⟩ (fun e he => ?_) ?_ ?_
    · rcases List.mem_append.mp he with he | he
      · exact sent_not_ending (blocks_not_ending hb) e he
      · exact sent_not_ending hc.not_ending e he
    · rw [hr, failures_append, failures_of_silent hc.silent, List.append_nil, ← totals_failed]
    · -- the one in flight is the last failure of the report
      have hflight : failedCopies p report =
          failedCopies p (totals xs) + if p.copiesPath a.path = true then 1 else 0 := by
        rw [failedCopies, hr]
        dsimp only
        rw [List.countP_append, List.countP_singleton]
        rfl
      have hcopied : report.copied = (totals xs).copied := by rw [hr]
      rw [hs, copies_append, ← hcount, ← remainingCopies_eq, hflight, hcopied]
      dsimp only
      omega

namespace TextFormats

variable (F : TextFormats) {total : ℕ} {omitted : Omitted}

/-- A line on a Ctrl-C is not for a quiet transfer. -/
theorem told_quiet (before later : List SessionEvent) (told : List Shown)
    (h : told = [] ∨ told = [.interrupting]) :
    F.told true total omitted (before.map .event ++ told ++ later.map .event) =
      F.told true total omitted ((before ++ later).map .event) := by
  induction before generalizing omitted with
  | nil =>
    rcases h with rfl | rfl
    · rfl
    · rfl
  | cons x xs ih =>
    have hmore := @ih (omitted.keep x)
    simp only [List.cons_append, List.map_cons, TextFormats.told, hmore]

/-- Nothing that a full channel may drop is ever told. -/
theorem told_kept (quiet : Bool) {es fs : List ProgressEvent}
    (h : Kept ProgressEvent.isLossy es fs) :
    F.told quiet total omitted ((fs.map .run).map .event) =
      F.told quiet total omitted ((es.map .run).map .event) := by
  induction h generalizing omitted with
  | nil => rfl
  | keep e _ ih =>
    have hmore := @ih (omitted.keep (.run e))
    simp only [List.map_cons, told, hmore]
  | @drop es fs e hlossy _ ih =>
    cases e with
    | fileProgress path bytes =>
      rw [List.map_cons, List.map_cons, told, ih]
      exact (List.nil_append _).symm
    | _ => exact absurd hlossy Bool.false_ne_true

/-- The scans are not for a quiet transfer. -/
theorem told_scans {xs : List SessionEvent} (h : Sided xs) (ys : List SessionEvent) :
    F.told true total omitted ((xs ++ ys).map .event) = F.told true total omitted (ys.map .event) := by
  induction xs with
  | nil => rfl
  | cons x xs ih =>
    have hmore := ih fun y hy => h y (List.mem_cons_of_mem x hy)
    have hside := h x List.mem_cons_self
    rw [List.cons_append, List.map_cons, told, ← hmore]
    cases x with
    | planReady summary hints => exact absurd rfl hside
    | run event => exact absurd rfl hside
    | _ => exact List.nil_append _

/-- What a quiet transfer tells of the objects that are missing from its plan. -/
def leftOutTexts (skipped : List SkippedEntry) : List Painted :=
  if skipped = [] then [] else [Theme.warn ("\n".intercalate (F.skippedObjectsLines skipped))]

def failureTexts (failed : List FailedFile) : List Painted :=
  failed.map fun f => Theme.err (failedLine f.path f.error false)

theorem told_run {es : List ProgressEvent} (h : ∀ e ∈ es, (Happening.event e).isEnding = false)
    (fs : List ProgressEvent) :
    F.told true total omitted (((es ++ fs).map .run).map .event) =
      failureTexts (failures es) ++ F.told true total omitted ((fs.map .run).map .event) := by
  induction es with
  | nil => rfl
  | cons e es ih =>
    have hmore := ih fun e' he => h e' (List.mem_cons_of_mem e he)
    have hend := h e List.mem_cons_self
    rw [List.cons_append, List.map_cons, List.map_cons, told]
    cases e with
    | fileFailed path error willRetry =>
      cases willRetry with
      | true => exact hmore
      | false =>
        change Theme.err (failedLine path error false) :: F.told true total omitted
          (((es ++ fs).map .run).map .event) = _
        rw [hmore]
        rfl
    | skipped path reason => cases reason <;> exact hmore
    | fileStarted path size resumeFrom => exact hmore
    | fileProgress path bytes => exact hmore
    | fileFinished path bytes elapsed => exact hmore
    | interrupted remaining => exact absurd hend (by simp [Happening.isEnding])
    | finished report => exact absurd hend (by simp [Happening.isEnding])
    | aborted report remaining => exact absurd hend (by simp [Happening.isEnding])

end TextFormats

namespace Session

variable {σ : Type} (S : Session σ) (F : TextFormats) (total : ℕ)

/-- What a quiet transfer has told by its end. Before there is a plan, and of a dry run but for what
the device refused to describe, it tells nothing. -/
inductive QuietlyTold : Except ChoiceError CommandOutcome → List Painted → Prop
  | unplanned {e : ChoiceError} : (∀ source dest p, ¬S.Planned source dest p) → QuietlyTold (.error e) []
  | dryRun {source dest : ScanResult} {p : Plan} : S.Planned source dest p →
      QuietlyTold (.ok (.dryRun p)) (F.leftOutTexts source.snapshot.skipped)
  | transferred {source dest : ScanResult} {p : Plan} {report : Report} (remaining : ℕ) :
      S.Planned source dest p → (S.runOf p).1 = .ok report →
      (report.interrupted = false → remaining = 0) →
      report.copied + failedCopies p report + remaining = copies p.actions →
      QuietlyTold (.ok (.transferred report))
        (F.leftOutTexts source.snapshot.skipped ++ TextFormats.failureTexts report.failed ++
          [F.paintedSummary report ⟨remaining, source.snapshot.skipped.length⟩ total])
  | aborted {source dest : ScanResult} {p : Plan} {report : Report} {e : Error} (remaining : ℕ)
      (announced : List FailedFile) (inFlight : FailedFile) : S.Planned source dest p →
      (S.runOf p).1 = .error e → (S.runEvents p).getLast? = some (.aborted report remaining) →
      report.failed = announced ++ [inFlight] →
      report.copied + failedCopies p report + remaining =
        copies p.actions + (if p.copiesPath inFlight.path = true then 1 else 0) →
      QuietlyTold (.error (.raised e))
        (F.leftOutTexts source.snapshot.skipped ++ TextFormats.failureTexts announced ++
          [Theme.err (abortedLine report remaining total)])

variable {S}

theorem runOf_told {source dest : ScanResult} {p : Plan} (h : S.Planned source dest p) :
    RunTold p (S.runOf p).1 (S.runEvents p) := by
  have hpaths : p.actions.Pairwise (fun a b => a.path ≠ b.path) := by
    rw [plan_ok h.plan]
    exact planned_paths S.tables source.snapshot dest.snapshot dest.folding dest.partials S.opts.conflict
  have hshape : RunShape (Block fun _ _ => True) (CutBlock fun _ _ => True) p.actions (S.runOf p).1
      (S.runOf p).2.trace :=
    runFrom_shape _ (fun _ _ _ _ _ _ => trivial) _ p.actions .nil rfl rfl
  exact hshape.told hpaths

theorem told_ready (source dest : ScanResult) (p : Plan) (ys : List SessionEvent) :
    F.told true total ⟨0, 0⟩ ((S.readyEvent source dest p :: ys).map .event) =
      F.leftOutTexts source.snapshot.skipped ++
        F.told true total ⟨0, source.snapshot.skipped.length⟩ (ys.map .event) := by
  have hkeep : Omitted.keep ⟨0, 0⟩ (S.readyEvent source dest p) =
      ⟨0, source.snapshot.skipped.length⟩ := by
    simp only [readyEvent, hintsOf, hints, Omitted.keep]
    cases hskipped : source.snapshot.skipped with
    | nil =>
      rw [if_pos rfl]
      split <;> split <;> rfl
    | cons x xs =>
      rw [if_neg (List.cons_ne_nil x xs)]
      split <;> split <;> rfl
  have htexts (omitted : Omitted) : F.printed true omitted total (S.readyEvent source dest p) =
      F.leftOutTexts source.snapshot.skipped := by
    simp only [readyEvent, hintsOf, hints, TextFormats.leftOutTexts]
    cases hskipped : source.snapshot.skipped with
    | nil =>
      rw [if_pos rfl, if_pos rfl]
      split <;> split <;> rfl
    | cons x xs =>
      rw [if_neg (List.cons_ne_nil x xs), if_neg (List.cons_ne_nil x xs)]
      split <;> split <;> rfl
  rw [List.map_cons, TextFormats.told, hkeep, htexts]

/-- The quiet part of a run, heard through the channel. -/
theorem told_ran {source dest : ScanResult} {p : Plan} {es : List ProgressEvent}
    (h : S.Planned source dest p) (hkept : Kept ProgressEvent.isLossy (S.runEvents p) es) :
    S.QuietlyTold F total (executed (S.runOf p).1)
      (F.leftOutTexts source.snapshot.skipped ++
        F.told true total ⟨0, source.snapshot.skipped.length⟩ ((es.map .run).map .event)) := by
  rw [F.told_kept true hkept]
  have hrun := runOf_told h
  generalize houtcome : (S.runOf p).1 = outcome at hrun
  generalize hevents : S.runEvents p = events at hrun
  cases hrun with
  | @finished es report hes hflag hfailed hcount =>
    have htold : S.QuietlyTold F total _ _ := .transferred 0 h houtcome (fun _ => rfl) hcount
    rw [F.told_run hes, hfailed, ← List.append_assoc]
    exact htold
  | @interrupted es report remaining hes hflag hfailed hcount =>
    have hnone : report.interrupted = false → remaining = 0 := by
      intro hfalse
      rw [hflag] at hfalse
      exact absurd hfalse (by simp)
    rw [F.told_run hes, hfailed, ← List.append_assoc]
    exact .transferred remaining h houtcome hnone hcount
  | @aborted es report e remaining inFlight hes hfailed hcount =>
    have hlast : (S.runEvents p).getLast? = some (.aborted report remaining) := by
      rw [hevents, List.getLast?_concat]
    rw [F.told_run hes, ← List.append_assoc]
    exact .aborted remaining (failures es) inFlight h houtcome hlast hfailed hcount

theorem told_none {xs : List SessionEvent} (h : Sided xs) :
    F.told true total ⟨0, 0⟩ (xs.map .event) = [] := by
  rw [← List.append_nil xs, F.told_scans h []]
  rfl

/-- Of what is heard by the end, a quiet transfer tells what the outcome says. -/
theorem HeardAll.quietlyTold {outcome : Except ChoiceError CommandOutcome} {xs : List SessionEvent}
    (h : S.HeardAll outcome xs) :
    S.QuietlyTold F total outcome (F.told true total ⟨0, 0⟩ (xs.map .event)) := by
  cases h with
  | refused herr =>
    refine .unplanned fun source dest p hplanned => ?_
    exact absurd (herr.symm.trans hplanned.opened) (by simp)
  | failed side hopen herr hscans hkept =>
    rw [told_none F total hscans.1]
    refine .unplanned fun source dest p hplanned => ?_
    cases side with
    | source => exact absurd (herr.symm.trans hplanned.sourceScan) (by simp)
    | dest => exact absurd (herr.symm.trans hplanned.destScan) (by simp)
  | conflicts hopen hsource hdest hplan hboth =>
    rw [told_none F total hboth.1]
    refine .unplanned fun source dest p hplanned => ?_
    obtain rfl := Except.ok.inj (hsource.symm.trans hplanned.sourceScan)
    obtain rfl := Except.ok.inj (hdest.symm.trans hplanned.destScan)
    exact absurd (hplan.symm.trans hplanned.plan) (by simp)
  | dryRun hplanned hdry hboth =>
    rw [F.told_scans hboth.1, told_ready]
    have htold : S.QuietlyTold F total _ _ := .dryRun hplanned
    rw [← List.append_nil (F.leftOutTexts _)] at htold
    exact htold
  | ran hplanned hdry hboth hkept =>
    rw [F.told_scans hboth.1, told_ready]
    exact told_ran F total hplanned hkept

end Session

/-- In every interleaving, whatever a full channel drops and whenever a Ctrl-C comes, a quiet transfer
has told, by its end, what is missing from the plan, each failure of its report, and a summary with
the report's own counts and every file that is left. -/
theorem quiet_tells_outcome {σ : Type} (F : TextFormats) (S : Session σ) (capacity total : ℕ)
    (s : SessionState) (hrun : SessionRun S capacity SessionState.start s)
    (outcome : Except ChoiceError CommandOutcome) (hclosed : s.Closed outcome) :
    S.QuietlyTold F total outcome (F.told true total ⟨0, 0⟩ s.receiver.shown) := by
  obtain ⟨sent, hsender, hreceiver, hkept⟩ := hrun.sound
  have hsent := Session.sent_of_trace hsender
  obtain ⟨hended, hbuffer⟩ := hclosed
  rw [hended] at hsent
  rw [hbuffer, List.append_nil] at hkept
  obtain ⟨before, told, later, hxs, hshown, htold⟩ := (Watcher.fair_of_trace hreceiver).shown
  have honce : told = [] ∨ told = [.interrupting] := by
    rcases htold with hnone | ⟨-, hold⟩
    · exact .inl hnone
    · exact .inr hold.once
  rw [hshown, F.told_quiet before later told honce, ← hxs]
  exact (hsent.heardAll hkept).quietlyTold F total

/-- The number of a style in the codes of a terminal. -/
def Style.code : Style → ℕ
  | .red => 31
  | .green => 32
  | .yellow => 33
  | .bold => 1
  | .dim => 2

/-- Sizes in bytes and no times. -/
def plainFormats : TextFormats where
  size := count
  otherReason _ := "refused"
  opening style := "\x1b[" ++ style.code.repr ++ "m"
  closing := "\x1b[0m"
  opening_inline style := by cases style <;> decide
  closing_inline := by decide
  zoned _ := none
  width text := text.toList.length
  pad text width right :=
    let fill := spaces (width - text.toList.length)
    if right then fill ++ text else text ++ fill
  size_printable := printable_count
  zoned_printable _ _ h := nomatch h
  pad_spaces := by
    intro text width right
    cases right with
    | true => exact ⟨width - text.toList.length, 0, by simp [spaces]⟩
    | false => exact ⟨0, width - text.toList.length, by simp [spaces]⟩

theorem quiet_tells_outcome_memo :
    stoppedPull.QuietlyTold plainFormats 3000 (.ok (.transferred memoReport))
        (plainFormats.told true 3000 ⟨0, 0⟩ memoOver.receiver.shown) ∧
      plainFormats.told true 3000 ⟨0, 0⟩ memoOver.receiver.shown =
        [Theme.warn "Interrupted after 3s: 0 copied, 1 remaining, re-run to resume"] :=
  ⟨quiet_tells_outcome plainFormats stoppedPull 4 3000 memoOver memoOver_run _ ⟨rfl, rfl⟩,
    by decide +kernel⟩

end MtpxCore
