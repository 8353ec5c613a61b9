import MtpxCore.TerminalText

/-! Nothing that a device names can forge a line. Every text from outside is made printable before it
is printed, so what is printed has exactly the lines the program gives it. -/
namespace MtpxCore

section Printable

variable {a b text : String}

theorem printable_iff :
    Printable text ↔ ∀ c ∈ text.toList, isControl c = false ∧ isReordering c = false := by
  simp [Printable]

theorem printable_append : Printable (a ++ b) ↔ Printable a ∧ Printable b := by
  rw [Printable, String.toList_append, List.all_append, Bool.and_eq_true]
  rfl

theorem Printable.of_subset (h : Printable a) (hsub : ∀ c ∈ b.toList, c ∈ a.toList) : Printable b :=
  printable_iff.mpr fun c hc => printable_iff.mp h c (hsub c hc)

theorem Printable.no_newline (h : Printable text) : '\n' ∉ text.toList := by
  intro hmem
  have hnot := (printable_iff.mp h '\n' hmem).1
  exact absurd hnot (by decide)

theorem printable_sanitize (text : String) : Printable (sanitizeForDisplay text) := by
  have hshown : ∀ c ∈ ((text.toList.take MAX_DISPLAY_CHARS).map fun c =>
      if isControl c || isReordering c then '\uFFFD' else c),
      isControl c = false ∧ isReordering c = false := by
    intro c hc
    obtain ⟨d, -, rfl⟩ := List.mem_map.mp hc
    split
    · decide
    · rename_i hclean
      simpa using hclean
  rw [printable_iff, sanitizeForDisplay, String.toList_ofList]
  intro c hc
  split at hc
  · rcases List.mem_append.mp hc with hc | hc
    · exact hshown c hc
    · rw [List.mem_singleton.mp hc]
      decide
  · exact hshown c hc

theorem map_clean {chars : List Char}
    (h : ∀ c ∈ chars, isControl c = false ∧ isReordering c = false) :
    (chars.map fun c => if isControl c || isReordering c then '\uFFFD' else c) = chars := by
  conv_rhs => rw [← List.map_id chars]
  refine List.map_congr_left fun c hc => ?_
  obtain ⟨hcontrol, hreorder⟩ := h c hc
  rw [hcontrol, hreorder]
  rfl

/-- A text that is shown as it is. -/
def Verbatim (text : String) : Prop :=
  Printable text ∧ (text.toList.length ≤ MAX_DISPLAY_CHARS ∨
    text.toList.length = MAX_DISPLAY_CHARS + 1 ∧ text.toList.getLast? = some '…')

theorem sanitize_eq_iff : sanitizeForDisplay text = text ↔ Verbatim text := by
  constructor
  · intro h
    have hprintable := printable_sanitize text
    rw [h] at hprintable
    refine ⟨hprintable, ?_⟩
    by_cases hlong : MAX_DISPLAY_CHARS < text.toList.length
    · have hlist := congrArg String.toList h
      rw [sanitizeForDisplay, if_pos hlong, String.toList_ofList] at hlist
      have hlast := congrArg List.getLast? hlist
      have hlen := congrArg List.length hlist
      rw [List.getLast?_concat] at hlast
      rw [List.length_append, List.length_map, List.length_take, min_eq_left hlong.le] at hlen
      exact .inr ⟨hlen.symm, hlast.symm⟩
    · exact .inl (not_lt.mp hlong)
  · intro h
    obtain ⟨hprintable, hshort | ⟨hlen, hlast⟩⟩ := h
    · rw [sanitizeForDisplay, List.take_of_length_le hshort, map_clean (printable_iff.mp hprintable),
        if_neg (not_lt.mpr hshort), String.ofList_toList]
    · -- one character too long, and that one is the ellipsis
      have hne : text.toList ≠ [] := by
        intro hnil
        rw [hnil] at hlen
        exact absurd hlen (by decide)
      have htake : text.toList.take MAX_DISPLAY_CHARS = text.toList.dropLast := by
        rw [List.dropLast_eq_take, hlen]
        rfl
      have hclean := map_clean fun c hc =>
        printable_iff.mp hprintable c (List.dropLast_subset text.toList hc)
      have hend : text.toList.getLast hne = '…' := by
        rw [List.getLast?_eq_some_getLast hne] at hlast
        exact Option.some.inj hlast
      have hlong : MAX_DISPLAY_CHARS < text.toList.length := by omega
      rw [sanitizeForDisplay, htake, hclean, if_pos hlong, ← hend, List.dropLast_append_getLast hne,
        String.ofList_toList]

theorem printable_digit {c : Char} (h : c.isDigit = true) :
    isControl c = false ∧ isReordering c = false := by
  have hrange : 48 ≤ c.toNat ∧ c.toNat ≤ 57 := by
    simp only [Char.isDigit, Bool.and_eq_true, decide_eq_true_eq] at h
    exact ⟨UInt32.le_iff_toNat_le.mp h.1, UInt32.le_iff_toNat_le.mp h.2⟩
  have hfive : ∀ d : Char, 57 < d.toNat → c ≠ d := by
    intro d hd heq
    rw [heq] at hrange
    omega
  refine ⟨?_, ?_⟩
  · simp only [isControl, Bool.or_eq_false_iff, Bool.and_eq_false_iff, decide_eq_false_iff_not]
    omega
  · simp only [isReordering, Bool.or_eq_false_iff, Bool.and_eq_false_iff, decide_eq_false_iff_not,
      beq_eq_false_iff_ne]
    refine ⟨⟨⟨⟨hfive _ (by decide), hfive _ (by decide)⟩, hfive _ (by decide)⟩, ?_⟩, ?_⟩
    · omega
    · omega

theorem printable_repr (n : ℕ) : Printable n.repr := by
  rw [printable_iff]
  intro c hc
  rw [Nat.toList_repr] at hc
  exact printable_digit (Nat.isDigit_of_mem_toDigits (by decide) (by decide) hc)

theorem mem_groupDigits {total index : ℕ} {digits : List Char} {c : Char}
    (h : c ∈ groupDigits total index digits) : c = ',' ∨ c ∈ digits := by
  induction digits generalizing index with
  | nil => exact absurd h List.not_mem_nil
  | cons d ds ih =>
    rw [groupDigits] at h
    rcases List.mem_append.mp h with h | h
    · split at h
      · exact .inl (List.mem_singleton.mp h)
      · exact absurd h List.not_mem_nil
    · rcases List.mem_cons.mp h with rfl | h
      · exact .inr List.mem_cons_self
      · rcases ih h with hcomma | hmem
        · exact .inl hcomma
        · exact .inr (List.mem_cons_of_mem _ hmem)

theorem printable_count (n : ℕ) : Printable (count n) := by
  rw [printable_iff]
  intro c hc
  rw [count, String.toList_ofList] at hc
  rcases mem_groupDigits hc with rfl | hdigit
  · decide
  · exact printable_iff.mp (printable_repr n) c hdigit

theorem printable_counted {one many : String} (h : Printable one) (h' : Printable many) (n : ℕ) :
    Printable (counted one many n) := by
  unfold counted
  split
  · exact h
  · exact printable_append.mpr ⟨printable_count n, h'⟩

theorem printable_files (n : ℕ) : Printable (files n) := printable_counted (by decide) (by decide) n

theorem printable_objects (n : ℕ) : Printable (objects n) :=
  printable_counted (by decide) (by decide) n

theorem printable_partials (n : ℕ) : Printable (partialDownloads n) :=
  printable_counted (by decide) (by decide) n

theorem printable_ite {c : Prop} [Decidable c] (ha : Printable a) (hb : Printable b) :
    Printable (if c then a else b) := by
  split
  · exact ha
  · exact hb

theorem printable_twoDigits (n : ℕ) : Printable (twoDigits n) :=
  printable_ite (printable_append.mpr ⟨by decide, printable_repr n⟩) (printable_repr n)

theorem printable_fourHex (n : ℕ) : Printable (fourHex n) := by
  have hdigit : ∀ k < 16, isControl (Nat.digitChar k) = false ∧ isReordering (Nat.digitChar k) = false := by
    decide
  have hlt : ∀ m : ℕ, m % 16 < 16 := fun m => Nat.mod_lt m (by decide)
  rw [printable_iff, fourHex, String.toList_ofList]
  simp only [List.map_cons, List.map_nil, List.forall_mem_cons]
  exact ⟨hdigit _ (hlt _), hdigit _ (hlt _), hdigit _ (hlt _), hdigit _ (hlt _), fun _ h => nomatch h⟩

theorem printable_duration (elapsed : ℕ) : Printable (duration elapsed) := by
  unfold duration
  dsimp only
  refine printable_ite ?_ (printable_ite ?_ ?_)
  · simp only [printable_append, printable_repr, printable_twoDigits, true_and]
    decide
  · simp only [printable_append, printable_repr, printable_twoDigits, true_and]
    decide
  · simp only [printable_append, printable_repr, true_and]
    decide

theorem printable_shownPath (path : RelPath) : Printable (shownPath path) := printable_sanitize _

theorem printable_skipReason (reason : SkipReason) : Printable (skipReason reason) := by
  cases reason <;> decide

theorem printable_shownDevice (device : DeviceSummary) : Printable (shownDevice device) := by
  unfold shownDevice
  split
  · simp only [printable_append, printable_sanitize, true_and, and_true]
    decide
  · exact printable_sanitize _

theorem printable_cappedList {items : List String} (h : ∀ item ∈ items, Printable item) :
    ∀ line ∈ cappedList items, Printable line := by
  intro line hline
  rcases List.mem_append.mp hline with hline | hline
  · obtain ⟨item, hitem, rfl⟩ := List.mem_map.mp hline
    exact printable_append.mpr ⟨by decide, h item (List.mem_of_mem_take hitem)⟩
  · split at hline
    · rw [List.mem_singleton.mp hline]
      simp only [printable_append, printable_count, and_true]
      decide
    · exact absurd hline List.not_mem_nil

theorem cappedList_length (items : List String) : (cappedList items).length ≤ MAX_LISTED + 1 := by
  rw [cappedList, List.length_append, List.length_map]
  have htake := List.length_take_le MAX_LISTED items
  split
  · rw [List.length_singleton]
    omega
  · rw [List.length_nil]
    omega

theorem printable_spaces (n : ℕ) : Printable (spaces n) := by
  rw [printable_iff, spaces, String.toList_ofList]
  intro c hc
  rw [List.eq_of_mem_replicate hc]
  decide

end Printable

section Lines

variable {lines : List String}

theorem split_cons {line rest : String} (h : '\n' ∉ line.toList) :
    split (line ++ "\n" ++ rest) '\n' = line :: split rest '\n' := by
  have hlist : (line ++ "\n" ++ rest).toList = line.toList ++ '\n' :: rest.toList := by
    simp [String.toList_append]
  rw [split, hlist, List.splitOn_append_cons_self_of_not_mem h, List.map_cons, String.ofList_toList]
  rfl

theorem split_printable {text : String} (h : Printable text) : split text '\n' = [text] := by
  rw [split, List.splitOn_eq_singleton h.no_newline, List.map_singleton, String.ofList_toList]

/-- Texts that are ended one by one, whatever is in them. -/
theorem split_stream (texts : List String) :
    split (String.join (texts.map (· ++ "\n"))) '\n' =
      texts.flatMap (fun text => split text '\n') ++ [""] := by
  induction texts with
  | nil => decide
  | cons text texts ih =>
    have hlist : (text ++ "\n" ++ String.join (texts.map (· ++ "\n"))).toList =
        text.toList ++ '\n' :: (String.join (texts.map (· ++ "\n"))).toList := by
      simp [String.toList_append]
    rw [List.map_cons, String.join_cons, split, hlist, List.splitOn_append_cons_self, List.map_append,
      List.flatMap_cons, List.append_assoc, ← ih]
    rfl

/-- Lines that are ended one by one. -/
theorem split_ended (h : ∀ line ∈ lines, Printable line) :
    split (String.join (lines.map (· ++ "\n"))) '\n' = lines ++ [""] := by
  have hlines : lines.flatMap (fun line => split line '\n') = lines.flatMap fun line => [line] :=
    List.flatMap_congr fun line hline => split_printable (h line hline)
  rw [split_stream, hlines, List.flatMap_singleton']

/-- Lines that are joined. -/
theorem split_joined (hne : lines ≠ []) (h : ∀ line ∈ lines, Printable line) :
    split ("\n".intercalate lines) '\n' = lines := by
  have hmap : lines.map String.toList ≠ [] := by simpa using hne
  have hnone : ∀ l ∈ lines.map String.toList, '\n' ∉ l := by
    intro l hl
    obtain ⟨line, hline, rfl⟩ := List.mem_map.mp hl
    exact (h line hline).no_newline
  rw [split, String.toList_intercalate]
  change (([('\n')].intercalate (lines.map String.toList)).splitOn '\n').map String.ofList = lines
  rw [List.splitOn_intercalate '\n' hnone hmap, List.map_map]
  conv_rhs => rw [← List.map_id lines]
  exact List.map_congr_left fun line _ => String.ofList_toList

/-- Lines each begun by an end of line. -/
theorem split_begun {text : String} (htext : Printable text) (h : ∀ line ∈ lines, Printable line) :
    split (text ++ String.join (lines.map ("\n" ++ ·))) '\n' = text :: lines := by
  induction lines generalizing text with
  | nil => rw [List.map_nil, String.join_nil, String.append_empty, split_printable htext]
  | cons line lines ih =>
    have hline := h line List.mem_cons_self
    rw [List.map_cons, String.join_cons, String.append_assoc, ← String.append_assoc,
      split_cons htext.no_newline, ih hline fun l hl => h l (List.mem_cons_of_mem _ hl)]

end Lines

namespace TextFormats

variable (F : TextFormats)

theorem printable_rate (bytes elapsed : ℕ) : Printable (F.rate bytes elapsed) :=
  printable_append.mpr ⟨F.size_printable _, by decide⟩

theorem printable_storage (storage : StorageSummary) : Printable (F.storage storage) := by
  simp only [TextFormats.storage, printable_append, printable_sanitize, F.size_printable, true_and,
    and_true]
  decide

theorem printable_skippedLines (skipped : List SkippedEntry) :
    ∀ line ∈ F.skippedLines skipped, Printable line := by
  apply printable_cappedList
  intro item hitem
  obtain ⟨entry, -, rfl⟩ := List.mem_map.mp hitem
  have hparent : Printable
      (if entry.parent.isRoot = true then ROOT_LABEL else sanitizeForDisplay entry.parent.display) :=
    printable_ite (by decide) (printable_sanitize _)
  simp only [printable_append, hparent, printable_sanitize, true_and, and_true]
  decide

theorem printable_planLine (summary : PlanSummary) : Printable (F.planLine summary) := by
  have hresumable : Printable (if 0 < summary.resumableBytes then
      ", " ++ F.size summary.resumableBytes ++ " resumable" else "") := by
    refine printable_ite ?_ (by decide)
    simp only [printable_append, F.size_printable, and_true]
    decide
  simp only [planLine, printable_append, printable_files, F.size_printable, hresumable,
    printable_count, and_true]
  decide

theorem skippedLines_length (skipped : List SkippedEntry) :
    (F.skippedLines skipped).length ≤ MAX_LISTED + 1 := cappedList_length _

theorem leftOutLines_length (skipped : List SkippedEntry) :
    (F.leftOutLines skipped).length ≤ MAX_LISTED + 2 := by
  unfold leftOutLines
  split
  · exact Nat.zero_le _
  · exact Nat.succ_le_succ (F.skippedLines_length skipped)

theorem printable_leftOut (leftOut : ℕ) : Printable (leftOutDetail leftOut) := by
  refine printable_ite (by decide) ?_
  simp only [printable_append, printable_count, and_true]
  decide

theorem printable_summaryLine (report : Report) (omitted : Omitted) (total : ℕ) :
    Printable (F.summaryLine report omitted total) := by
  have hfailed : Printable (failedDetail report) := by
    refine printable_ite (by decide) ?_
    simp only [printable_append, printable_count, and_true]
    decide
  have hcopied : Printable (F.copiedDetail report) := by
    refine printable_ite (by decide) ?_
    simp only [printable_append, F.size_printable, F.printable_rate, and_true]
    decide
  refine printable_ite ?_ ?_
  · simp only [printable_append, printable_duration, printable_count, hfailed, printable_leftOut,
      and_true]
    decide
  · simp only [printable_append, printable_duration, printable_count, hcopied, printable_leftOut,
      and_true]
    decide

theorem printable_abortedLine (report : Report) (remaining total : ℕ) :
    Printable (abortedLine report remaining total) := by
  have hcopied : Printable (" copied, ") := by decide
  have hhint : Printable " remaining, re-run to resume" := by decide
  unfold abortedLine
  simp only [printable_append, printable_duration, printable_count, hcopied, hhint, and_true]
  decide

theorem printable_failedLine (path : RelPath) (error : String) (willRetry : Bool) :
    Printable (failedLine path error willRetry) := by
  have hverb : Printable (if willRetry = true then "retrying" else "failed") :=
    printable_ite (by decide) (by decide)
  simp only [failedLine, printable_append, hverb, printable_shownPath, printable_sanitize, true_and,
    and_true]
  decide

theorem printable_skippedObjects (skipped : List SkippedEntry) :
    ∀ line ∈ F.skippedObjectsLines skipped, Printable line := by
  intro line hline
  rcases List.mem_cons.mp hline with rfl | hline
  · exact printable_append.mpr ⟨printable_objects _, by decide⟩
  · exact F.printable_skippedLines skipped line hline

theorem printable_leftOutLines (skipped : List SkippedEntry) :
    ∀ line ∈ F.leftOutLines skipped, Printable line := by
  intro line hline
  unfold leftOutLines at hline
  split at hline
  · exact absurd hline List.not_mem_nil
  · rcases List.mem_cons.mp hline with rfl | hline
    · exact printable_append.mpr ⟨printable_objects _, by decide⟩
    · exact F.printable_skippedLines skipped line hline

/-! Tables -/

theorem printable_trimEnd {text : String} (h : Printable text) : Printable (trimEnd text) := by
  refine h.of_subset fun c hc => ?_
  rw [trimEnd, String.toList_ofList, List.mem_reverse] at hc
  exact List.mem_reverse.mp ((List.dropWhile_sublist _).subset hc)

theorem printable_pad {text : String} (h : Printable text) (width : ℕ) (right : Bool) :
    Printable (F.pad text width right) := by
  obtain ⟨l, r, heq⟩ := F.pad_spaces text width right
  rw [heq]
  simp only [printable_append, printable_spaces, h, and_self]

theorem printable_intercalate {gap : String} (hgap : Printable gap) {cells : List String}
    (h : ∀ cell ∈ cells, Printable cell) : Printable (gap.intercalate cells) := by
  induction cells with
  | nil =>
    rw [String.intercalate_nil]
    decide
  | cons cell cells ih =>
    have hcell := h cell List.mem_cons_self
    cases cells with
    | nil => rwa [String.intercalate_singleton]
    | cons next rest =>
      have hrest := ih fun c hc => h c (List.mem_cons_of_mem _ hc)
      rw [String.intercalate_cons_cons]
      exact printable_append.mpr ⟨printable_append.mpr ⟨hcell, hgap⟩, hrest⟩

theorem printable_line {row : List String} (h : ∀ cell ∈ row, Printable cell) (widths right : List ℕ) :
    Printable (F.line row widths right) := by
  apply printable_trimEnd
  apply printable_intercalate (by decide)
  intro cell hcell
  obtain ⟨⟨text, column⟩, hmem, rfl⟩ := List.mem_map.mp hcell
  exact F.printable_pad (h text (List.fst_mem_of_mem_zipIdx hmem)) _ _

theorem printable_tableLines {rows : List (List String)}
    (h : ∀ row ∈ rows, ∀ cell ∈ row, Printable cell) (right : List ℕ) :
    ∀ line ∈ F.tableLines rows right, Printable line := by
  intro line hline
  obtain ⟨row, hrow, rfl⟩ := List.mem_map.mp hline
  exact F.printable_line (h row hrow) _ _

/-- The lines of a table, none of which a cell can break. -/
theorem split_render {rows : List (List String)} (h : ∀ row ∈ rows, ∀ cell ∈ row, Printable cell)
    (right : List ℕ) : split (F.render rows right) '\n' = F.tableLines rows right ++ [""] := by
  have hlines := F.printable_tableLines h right
  unfold render
  by_cases hrows : rows = []
  · rw [if_pos hrows, hrows]
    rfl
  · rw [if_neg hrows]
    have hne : F.tableLines rows right ≠ [] := by simpa [tableLines] using hrows
    have hsplit : split ("\n".intercalate (F.tableLines rows right) ++ "\n") '\n' =
        split ("\n".intercalate (F.tableLines rows right)) '\n' ++ [""] := by
      have hlist : ("\n".intercalate (F.tableLines rows right) ++ "\n").toList =
          ("\n".intercalate (F.tableLines rows right)).toList ++ '\n' :: [] := by
        rw [String.toList_append]
        rfl
      rw [split, hlist, List.splitOn_append_cons_self, List.map_append]
      rfl
    rw [hsplit, split_joined hne hlines]

theorem printable_deviceRows (devices : List DeviceSummary) :
    ∀ row ∈ deviceRows devices, ∀ cell ∈ row, Printable cell := by
  intro row hrow
  rcases List.mem_cons.mp hrow with rfl | hrow
  · decide
  · obtain ⟨⟨device, index⟩, -, rfl⟩ := List.mem_map.mp hrow
    have hid : Printable (fourHex device.vendorId ++ ":" ++ fourHex device.productId) := by
      simp only [printable_append, printable_fourHex, true_and, and_true]
      decide
    have hserial : Printable ((device.shownSerial.map sanitizeForDisplay).getD ABSENT) := by
      cases device.shownSerial with
      | none => decide
      | some serial => exact printable_sanitize serial
    have hspeed : Printable (speed device.speed) := by
      cases device.speed with
      | none => decide
      | some speed => cases speed <;> decide
    simp only [deviceRow, List.forall_mem_cons]
    exact ⟨printable_repr _, printable_sanitize _, hid, hserial, hspeed, fun _ h => nomatch h⟩

theorem printable_entryRow (e : Entry) : ∀ cell ∈ F.entryRow e, Printable cell := by
  have htime : Printable ((e.modified.bind F.zoned).getD ABSENT) := by
    cases htime : e.modified.bind F.zoned with
    | none => decide
    | some text =>
      obtain ⟨time, -, hzoned⟩ := Option.bind_eq_some_iff.mp htime
      exact F.zoned_printable time text hzoned
  simp only [entryRow, List.forall_mem_cons]
  refine ⟨?_, ?_, htime, printable_shownPath _, fun _ h => nomatch h⟩
  · split <;> decide
  · split
    · have habsent : Printable ABSENT := by decide
      exact habsent
    · exact F.size_printable _

theorem printable_entryLine (e : Entry) : Printable (entryLine e) := by
  unfold entryLine
  split
  · exact printable_append.mpr ⟨printable_shownPath _, by decide⟩
  · exact printable_shownPath _

theorem printable_actionLine {a : Action} {line : String} (h : F.actionLine a = some line) :
    Printable line := by
  unfold actionLine at h
  split at h
  · rw [← Option.some.inj h]
    exact printable_append.mpr ⟨by decide, printable_shownPath _⟩
  · rename_i path size modified resumeFrom reason
    have hdetail : Printable (F.copyDetail size resumeFrom) := by
      refine printable_ite (F.size_printable _) ?_
      simp only [printable_append, F.size_printable, true_and, and_true]
      decide
    rw [← Option.some.inj h]
    simp only [printable_append, printable_shownPath, hdetail, and_true]
    decide
  · exact absurd h (by simp)
  · rw [← Option.some.inj h]
    simp only [printable_append, printable_shownPath, printable_skipReason, and_true]
    decide

end TextFormats

/-- A text that is these lines, each of them safe for a terminal. -/
structure HasLines (text : String) (lines : List String) : Prop where
  splits : split text '\n' = lines
  printable : ∀ line ∈ lines, Printable line

theorem HasLines.ended {lines : List String} (h : ∀ line ∈ lines, Printable line) :
    HasLines (String.join (lines.map (· ++ "\n"))) (lines ++ [""]) := by
  refine ⟨split_ended h, fun line hline => ?_⟩
  rcases List.mem_append.mp hline with hline | hline
  · exact h line hline
  · rw [List.mem_singleton.mp hline]
    decide

theorem HasLines.begun {text : String} {lines : List String} (htext : Printable text)
    (h : ∀ line ∈ lines, Printable line) :
    HasLines (text ++ String.join (lines.map ("\n" ++ ·))) (text :: lines) :=
  ⟨split_begun htext h, List.forall_mem_cons.mpr ⟨htext, h⟩⟩

theorem HasLines.joined {lines : List String} (hne : lines ≠ []) (h : ∀ line ∈ lines, Printable line) :
    HasLines ("\n".intercalate lines) lines :=
  ⟨split_joined hne h, h⟩

theorem HasLines.one {text : String} (h : Printable text) : HasLines text [text] :=
  ⟨split_printable h, List.forall_mem_singleton.mpr h⟩

namespace TextFormats

variable (F : TextFormats)

theorem hasLines_render {rows : List (List String)} (h : ∀ row ∈ rows, ∀ cell ∈ row, Printable cell)
    (right : List ℕ) : HasLines (F.render rows right) (F.tableLines rows right ++ [""]) := by
  refine ⟨F.split_render h right, fun line hline => ?_⟩
  rcases List.mem_append.mp hline with hline | hline
  · exact F.printable_tableLines h right line hline
  · rw [List.mem_singleton.mp hline]
    decide

theorem hasLines_plan (p : Plan) :
    HasLines (F.plan p) (p.actions.filterMap F.actionLine ++ [""]) := by
  have hlines : ∀ line ∈ p.actions.filterMap F.actionLine, Printable line := by
    intro line hline
    obtain ⟨a, -, hshown⟩ := List.mem_filterMap.mp hline
    exact F.printable_actionLine hshown
  have hplan : F.plan p = String.join ((p.actions.filterMap F.actionLine).map (· ++ "\n")) := by
    rw [plan, List.map_filterMap]
  rw [hplan]
  exact .ended hlines

theorem hasLines_ls (snapshot : Snapshot) :
    HasLines (F.ls snapshot false) (snapshot.entries.map entryLine ++ [""]) := by
  have hlines : ∀ line ∈ snapshot.entries.map entryLine, Printable line := by
    intro line hline
    obtain ⟨e, -, rfl⟩ := List.mem_map.mp hline
    exact printable_entryLine e
  have hls : F.ls snapshot false =
      String.join ((snapshot.entries.map entryLine).map (· ++ "\n")) := by
    rw [ls, if_neg Bool.false_ne_true, List.map_map]
    rfl
  rw [hls]
  exact .ended hlines

theorem hasLines_lsLong (snapshot : Snapshot) : HasLines (F.ls snapshot true)
    (F.tableLines (snapshot.entries.map F.entryRow) [SIZE_COLUMN] ++ [""]) := by
  have hrows : ∀ row ∈ snapshot.entries.map F.entryRow, ∀ cell ∈ row, Printable cell := by
    intro row hrow
    obtain ⟨e, -, rfl⟩ := List.mem_map.mp hrow
    exact F.printable_entryRow e
  rw [ls, if_pos rfl]
  exact F.hasLines_render hrows _

def deviceChoice (device : DeviceSummary) (index : ℕ) : String :=
  "  " ++ index.repr ++ ": " ++ shownDevice device

def storageChoice (storage : StorageSummary) : String :=
  "  " ++ storage.index.repr ++ ": " ++ F.storage storage

theorem hasLines_pickDevice (devices : List DeviceSummary) : HasLines (pickDevice devices)
    (PICK_DEVICE_HELP :: devices.zipIdx.map fun (device, index) => deviceChoice device index) := by
  have hlines : ∀ line ∈ devices.zipIdx.map fun (device, index) => deviceChoice device index,
      Printable line := by
    intro line hline
    obtain ⟨⟨device, index⟩, -, rfl⟩ := List.mem_map.mp hline
    have hgap : Printable ": " := by decide
    have hindent : Printable "  " := by decide
    simp only [deviceChoice, printable_append, printable_repr, printable_shownDevice, hgap, hindent,
      and_self]
  have hpick : pickDevice devices = PICK_DEVICE_HELP ++ String.join
      ((devices.zipIdx.map fun (device, index) => deviceChoice device index).map ("\n" ++ ·)) := by
    rw [pickDevice, List.map_map]
    rfl
  rw [hpick]
  exact .begun (by decide) hlines

theorem hasLines_pickStorage {storages : List StorageSummary} (h : storages ≠ []) :
    HasLines (F.pickStorage storages) (PICK_STORAGE_HELP :: storages.map F.storageChoice) := by
  have hlines : ∀ line ∈ storages.map F.storageChoice, Printable line := by
    intro line hline
    obtain ⟨storage, -, rfl⟩ := List.mem_map.mp hline
    have hgap : Printable ": " := by decide
    have hindent : Printable "  " := by decide
    simp only [storageChoice, printable_append, printable_repr, F.printable_storage, hgap, hindent,
      and_self]
  have hpick : F.pickStorage storages = PICK_STORAGE_HELP ++ String.join
      ((storages.map F.storageChoice).map ("\n" ++ ·)) := by
    rw [pickStorage, if_neg h, List.map_map]
    rfl
  rw [hpick]
  exact .begun (by decide) hlines

theorem hasLines_conflicts (paths : List RelPath) : HasLines (conflicts paths)
    (conflictsHeading paths.length :: cappedList (paths.map shownPath) ++ [CONFLICTS_HELP]) := by
  apply HasLines.joined (by simp)
  intro line hline
  have hverb : Printable (if paths.length = 1 then "differs" else "differ") :=
    printable_ite (by decide) (by decide)
  have hgap : Printable " " := by decide
  have hcolon : Printable ":" := by decide
  rcases List.mem_append.mp hline with hline | hline
  · rcases List.mem_cons.mp hline with rfl | hline
    · simp only [conflictsHeading, printable_append, printable_files, hverb, hgap, hcolon, and_self]
    · apply printable_cappedList _ line hline
      intro item hitem
      obtain ⟨path, -, rfl⟩ := List.mem_map.mp hitem
      exact printable_shownPath path
  · rw [List.mem_singleton.mp hline]
    decide

end TextFormats

/-- Whatever the names, serials, labels and reasons, the output of each command and the help of each
error have the lines the program gives them, and no line moves the cursor or reorders its text. -/
theorem output_lines (F : TextFormats) :
    (∀ devices, HasLines (F.devices devices) (F.tableLines (TextFormats.deviceRows devices) [] ++ [""])) ∧
    (∀ snapshot, HasLines (F.ls snapshot false) (snapshot.entries.map TextFormats.entryLine ++ [""])) ∧
    (∀ snapshot, HasLines (F.ls snapshot true)
      (F.tableLines (snapshot.entries.map F.entryRow) [TextFormats.SIZE_COLUMN] ++ [""])) ∧
    (∀ p, HasLines (F.plan p) (p.actions.filterMap F.actionLine ++ [""])) ∧
    (∀ devices, HasLines (TextFormats.pickDevice devices) (TextFormats.PICK_DEVICE_HELP ::
      devices.zipIdx.map fun (device, index) => TextFormats.deviceChoice device index)) ∧
    (∀ storages, HasLines (F.pickStorage storages)
      (if storages = [] then [TextFormats.NO_STORAGE_HELP]
        else TextFormats.PICK_STORAGE_HELP :: storages.map F.storageChoice)) ∧
    (∀ paths, HasLines (TextFormats.conflicts paths) (TextFormats.conflictsHeading paths.length ::
      cappedList (paths.map shownPath) ++ [TextFormats.CONFLICTS_HELP])) ∧
    ∀ skipped, HasLines (F.lsNote skipped) (F.leftOutLines skipped ++ [""]) ∧
      (F.leftOutLines skipped).length ≤ MAX_LISTED + 2 := by
  refine ⟨fun devices => ?_, F.hasLines_ls, F.hasLines_lsLong, F.hasLines_plan,
    TextFormats.hasLines_pickDevice, fun storages => ?_, TextFormats.hasLines_conflicts,
    fun skipped => ⟨.ended (F.printable_leftOutLines skipped), F.leftOutLines_length skipped⟩⟩
  · exact F.hasLines_render (TextFormats.printable_deviceRows devices) []
  · split
    · rename_i hnone
      rw [TextFormats.pickStorage, if_pos hnone]
      exact .one (by decide)
    · rename_i hsome
      exact F.hasLines_pickStorage hsome

/-! The short listing reads back -/

/-- A line of the short listing: a folder's ends with a slash. -/
def readEntry (line : String) : String × EntryKind :=
  if line.toList.getLast? = some '/' then (String.ofList line.toList.dropLast, .dir) else (line, .file)

/-- The lines of a listing, each ended. -/
def readListing (text : String) : List (String × EntryKind) :=
  (split text '\n').dropLast.map readEntry

theorem readEntry_dir (text : String) : readEntry (text ++ "/") = (text, .dir) := by
  have hlist : (text ++ "/").toList = text.toList ++ ['/'] := String.toList_append
  rw [readEntry, hlist, List.getLast?_concat, if_pos rfl, List.dropLast_concat, String.ofList_toList]

theorem readEntry_file {text : String} (h : text.toList.getLast? ≠ some '/') :
    readEntry text = (text, .file) := by
  rw [readEntry, if_neg h]

/-- Pieces that are joined by separators and have none themselves do not end with one. -/
theorem intercalate_last {pieces : List (List Char)} (hne : pieces ≠ [])
    (h : ∀ piece ∈ pieces, piece ≠ [] ∧ SEPARATOR ∉ piece) :
    ∃ c, ([SEPARATOR].intercalate pieces).getLast? = some c ∧ c ≠ SEPARATOR := by
  induction pieces with
  | nil => exact absurd rfl hne
  | cons piece pieces ih =>
    obtain ⟨hpiece, hsep⟩ := h piece List.mem_cons_self
    cases pieces with
    | nil =>
      have hlast := List.getLast?_eq_some_getLast hpiece
      refine ⟨piece.getLast hpiece, ?_, fun heq => hsep (heq ▸ List.getLast_mem hpiece)⟩
      rw [List.intercalate_singleton, hlast]
    | cons next rest =>
      obtain ⟨c, hlast, hc⟩ := ih (List.cons_ne_nil next rest) fun q hq => h q (List.mem_cons_of_mem _ hq)
      refine ⟨c, ?_, hc⟩
      rw [List.intercalate_cons_cons, List.getLast?_append, hlast]
      rfl

theorem display_last (path : RelPath) : path.display.toList.getLast? ≠ some '/' := by
  have hpieces : ∀ piece ∈ path.segments.map String.toList, piece ≠ [] ∧ SEPARATOR ∉ piece := by
    intro piece hpiece
    obtain ⟨segment, hsegment, rfl⟩ := List.mem_map.mp hpiece
    obtain ⟨hne, hsep, -⟩ := validateSegment_ok (path.valid segment hsegment)
    exact ⟨fun hnil => hne (String.toList_inj.mp hnil), hsep⟩
  rw [RelPath.display, String.toList_ofList]
  by_cases hroot : path.segments.map String.toList = []
  · rw [hroot]
    decide
  · obtain ⟨c, hlast, hc⟩ := intercalate_last hroot hpieces
    rw [hlast]
    exact fun heq => hc (Option.some.inj heq)

theorem sanitize_last {text : String} (h : text.toList.getLast? ≠ some '/') :
    (sanitizeForDisplay text).toList.getLast? ≠ some '/' := by
  rw [sanitizeForDisplay, String.toList_ofList]
  split
  · rw [List.getLast?_concat]
    decide
  · rename_i hshort
    rw [List.take_of_length_le (not_lt.mp hshort), List.getLast?_map]
    intro hlast
    obtain ⟨c, hc, heq⟩ := Option.map_eq_some_iff.mp hlast
    split at heq
    · exact absurd heq (by decide)
    · exact h (hc.trans (congrArg some heq))

theorem readEntry_entryLine (e : Entry) :
    readEntry (TextFormats.entryLine e) = (shownPath e.path, e.kind) := by
  unfold TextFormats.entryLine
  split
  · rename_i hkind
    rw [readEntry_dir, hkind]
  · rename_i hkind
    have hlast : (shownPath e.path).toList.getLast? ≠ some '/' := sanitize_last (display_last e.path)
    rw [readEntry_file hlast, hkind]

/-- The short listing tells of each entry, in order, its kind and its path as shown; and it tells every
path exactly when each is shown as it is. -/
theorem listing_reads_back (F : TextFormats) (snapshot : Snapshot) :
    readListing (F.ls snapshot false) = snapshot.entries.map (fun e => (shownPath e.path, e.kind)) ∧
    (readListing (F.ls snapshot false) = snapshot.entries.map (fun e => (e.path.display, e.kind)) ↔
      ∀ e ∈ snapshot.entries, Verbatim e.path.display) := by
  have hread : readListing (F.ls snapshot false) =
      snapshot.entries.map fun e => (shownPath e.path, e.kind) := by
    rw [readListing, (F.hasLines_ls snapshot).splits, List.dropLast_concat, List.map_map]
    exact List.map_congr_left fun e _ => readEntry_entryLine e
  refine ⟨hread, ?_⟩
  rw [hread, List.map_inj_left]
  refine forall₂_congr fun e _ => ?_
  rw [← sanitize_eq_iff, Prod.mk.injEq, and_iff_left rfl]
  rfl

end MtpxCore
