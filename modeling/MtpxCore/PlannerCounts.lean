import MtpxCore.PlannerExecutes
import MtpxCore.PlanTotals
import Mathlib.Data.List.Infix

/-! What the totals of a plan count. Every file of the source is counted once, as a copy or as a
skip; a directory that is refused is a skip too, so it is counted among the files. -/
namespace MtpxCore

theorem countP_eq_add {α : Type} {p q r : α → Bool} {xs : List α}
    (h : ∀ x ∈ xs, p x = (q x || r x)) (hqr : ∀ x ∈ xs, q x = true → r x = false) :
    xs.countP p = xs.countP q + xs.countP r := by
  induction xs with
  | nil => rfl
  | cons x xs ih =>
    have hrest := ih (fun y hy => h y (List.mem_cons_of_mem x hy))
      (fun y hy => hqr y (List.mem_cons_of_mem x hy))
    have hx := hqr x List.mem_cons_self
    rw [List.countP_cons, List.countP_cons, List.countP_cons, hrest, h x List.mem_cons_self]
    cases hq : q x with
    | false =>
      rw [Bool.false_or]
      simp only [Bool.false_eq_true, if_false]
      omega
    | true =>
      rw [hx hq]
      simp only [Bool.true_or, Bool.false_eq_true, if_true, if_false]
      omega

section Counts

variable {tables : CaseTables} {source dest : Snapshot} {folding : NameFolding}
  {partials : Partials} {conflict : ConflictPolicy}

instance (key : List String) : Decidable (Obstacle tables source dest folding key) :=
  decidable_of_iff ((firstWithKey tables folding source.entries key).any (·.kind = .file) = true ∨
      (firstWithKey tables folding dest.entries key).any (·.kind = .file) = true) (by
    simp [Obstacle, Option.any_eq_true])

instance (key : List String) : Decidable (Obstructed tables source dest folding key) :=
  decidable_of_iff (∃ k ∈ key.inits, k ≠ [] ∧ k ≠ key ∧ Obstacle tables source dest folding k) (by
    simp only [Obstructed, List.mem_inits]
    exact exists_congr fun k => and_left_comm)

variable (tables source dest folding) in
/-- A directory that is refused: there is an obstacle at its folded path, or at one above it. -/
def BlockedDir (e : Entry) : Prop :=
  e.kind = .dir ∧ (Obstacle tables source dest folding (e.path.key tables folding) ∨
    Obstructed tables source dest folding (e.path.key tables folding))

instance (e : Entry) : Decidable (BlockedDir tables source dest folding e) :=
  inferInstanceAs (Decidable (_ ∧ _))

/-- An entry that adds a copy or a skip to the plan. -/
def Verdict.counted : Verdict → Bool
  | .directory .mkdir => false
  | .directory .present => false
  | _ => true

variable (partials conflict) in
theorem Verdict.length_files (v : Verdict) (existing : Option Entry) (e : Entry) :
    (v.files existing partials conflict e).length = if v.counted = true then 1 else 0 := by
  cases v with
  | directory d => cases d <;> rfl
  | blocked reason => rfl
  | collision => rfl
  | file => rfl

theorem copies_add_skips (actions : List Action) :
    copies actions + skips actions =
      actions.countP (fun a => a.isCopy || a.isSkip) := by
  induction actions with
  | nil => rfl
  | cons a actions ih =>
    rw [copies_cons, skips_cons, List.countP_cons, ← ih]
    cases a with
    | mkdir path => simp [Action.isCopy, Action.isSkip]
    | copy path size modified resumeFrom reason => simp [Action.isCopy, Action.isSkip]; omega
    | skip path reason => simp [Action.isCopy, Action.isSkip]; omega

theorem Action.counted_iff {a : Action} :
    (a.isCopy || a.isSkip) = true ↔ ∀ path, a ≠ .mkdir path := by
  cases a <;> simp [Action.isCopy, Action.isSkip]

/-- The plan counts the entries whose verdict adds a copy or a skip. -/
theorem copies_add_skips_planned :
    copies (plannedActions tables source dest folding partials conflict) +
      skips (plannedActions tables source dest folding partials conflict) =
        (verdicts tables source dest folding).countP (fun p => p.2.counted) := by
  have hmkdirs : ((verdicts tables source dest folding).flatMap
      (fun p => p.2.mkdirs p.1)).countP (fun a => a.isCopy || a.isSkip) = 0 := by
    apply List.countP_eq_zero.mpr
    intro a ha
    obtain ⟨p, -, hp⟩ := List.mem_flatMap.mp ha
    rw [Action.counted_iff, (mem_mkdirs hp).2]
    exact fun hall => hall _ rfl
  have hfiles (ps : List (Entry × Verdict)) : (ps.flatMap fun p =>
      p.2.files (destEntry tables dest folding p.1) partials conflict p.1).countP
        (fun a => a.isCopy || a.isSkip) = ps.countP (fun p => p.2.counted) := by
    induction ps with
    | nil => rfl
    | cons p ps ih =>
      rw [List.flatMap_cons, List.countP_append, ih, List.countP_cons, add_comm,
        ← Verdict.length_files partials conflict p.2 (destEntry tables dest folding p.1) p.1]
      congr 1
      apply List.countP_eq_length.mpr
      intro a ha
      exact Action.counted_iff.mpr (mem_files partials conflict ha).2.2
  rw [copies_add_skips, plannedActions, List.countP_append, hmkdirs, hfiles, Nat.zero_add]

/-- A contested directory shares its folded name with a file that comes first. -/
theorem Contested.obstacle {e : Entry} (hdir : e.kind = .dir)
    (h : Contested tables source folding e) :
    Obstacle tables source dest folding (e.path.key tables folding) := by
  obtain ⟨o, ho, -, hkinds⟩ := h
  refine .inl ⟨o, ho, ?_⟩
  cases hk : o.kind with
  | file => rfl
  | dir => exact absurd ⟨hdir, hk⟩ hkinds

/-- A directory is counted exactly when it is refused. -/
theorem counted_iff_refused (hc : AncestorClosed source) {e : Entry} {v : Verdict}
    (h : (e, v) ∈ verdicts tables source dest folding) (hdir : e.kind = .dir) :
    v.counted = true ↔ BlockedDir tables source dest folding e := by
  have hset := settled hc h
  cases v with
  | blocked reason => exact ⟨fun _ => ⟨hdir, .inr hset.1⟩, fun _ => rfl⟩
  | collision => exact ⟨fun _ => ⟨hdir, .inl (hset.2.obstacle hdir)⟩, fun _ => rfl⟩
  | file => exact absurd (hdir.symm.trans hset.2.2) (by simp)
  | directory d =>
    obtain ⟨hopen, hcontested, -, rfl⟩ := hset
    -- the source has nothing in the way here, so all hangs on the destination
    have hrefused : BlockedDir tables source dest folding e ↔
        ∃ x, firstWithKey tables folding dest.entries (e.path.key tables folding) = some x ∧
          x.kind = .file := by
      constructor
      · rintro ⟨-, (⟨o, ho, hok⟩ | hdest) | hobstructed⟩
        · exact absurd ⟨o, ho, fun heq => by simp [heq, hdir] at hok, by simp [hok]⟩ hcontested
        · exact hdest
        · exact absurd hobstructed hopen
      · intro hdest
        exact ⟨hdir, .inl (.inr hdest)⟩
    rw [hrefused]
    cases firstWithKey tables folding dest.entries (e.path.key tables folding) with
    | none => simp [decideDir, Verdict.counted]
    | some x => cases hk : x.kind <;> simp [decideDir, Verdict.counted, hk]

/-- The highest refused directory has an obstacle at its own name. -/
theorem exists_obstacle_of_refused (hc : AncestorClosed source) {e : Entry}
    (he : e ∈ source.entries) (h : BlockedDir tables source dest folding e) :
    ∃ d ∈ source.entries, d.kind = .dir ∧
      Obstacle tables source dest folding (d.path.key tables folding) := by
  obtain ⟨hdir, hobstacle | ⟨k, hne, hpre, hproper, hobstacle⟩⟩ := h
  · exact ⟨e, he, hdir, hobstacle⟩
  · obtain ⟨d, hd, hddir, hkey, -⟩ := exists_ancestor hc he hne hpre hproper
    exact ⟨d, hd, hddir, hkey ▸ hobstacle⟩

/-- The totals are the number of files and of refused directories, so they are the number of
files just when no directory of the source is refused: none has a file of the destination at its
folded path, nor a file of the source that comes before it. -/
theorem summary_counts_files_iff (tables : CaseTables) (source dest : Snapshot)
    (folding : NameFolding) (partials : Partials) (opts : TransferOptions) (p : Plan)
    (hc : AncestorClosed source) (hlen : p.actions.length ≤ U64_MAX)
    (hplan : plan tables source dest folding partials opts = .ok p) :
    p.summary.filesToCopy + p.summary.filesToSkip =
        source.entries.countP (fun e => decide (e.kind = .file)) +
          source.entries.countP (fun e => decide (BlockedDir tables source dest folding e)) ∧
      (p.summary.filesToCopy + p.summary.filesToSkip =
          source.entries.countP (fun e => decide (e.kind = .file)) ↔
        ∀ e ∈ source.entries, e.kind = .dir →
          ¬Obstacle tables source dest folding (e.path.key tables folding)) := by
  have hcopies : p.summary.filesToCopy = copies p.actions :=
    p.filesToCopy_eq.trans (min_eq_left (List.countP_le_length.trans hlen))
  have hskips : p.summary.filesToSkip = skips p.actions :=
    p.filesToSkip_eq.trans (min_eq_left (List.countP_le_length.trans hlen))
  have hentries (q : Entry → Bool) : source.entries.countP q =
      (verdicts tables source dest folding).countP (fun p => q p.1) := by
    rw [← verdicts_map_fst tables source dest folding, List.countP_map]
    rfl
  have hcounted : ∀ p ∈ verdicts tables source dest folding, p.2.counted =
      (decide (p.1.kind = .file) || decide (BlockedDir tables source dest folding p.1)) := by
    rintro ⟨e, v⟩ hm
    cases hk : e.kind with
    | dir =>
      rw [Bool.eq_iff_iff, counted_iff_refused hc hm hk]
      simp
    | file =>
      -- a file is never judged as a directory, and every other verdict counts
      have hset := settled hc hm
      cases v with
      | directory d => exact absurd (hk.symm.trans hset.2.2.1) (by simp)
      | blocked reason => simp [Verdict.counted]
      | collision => simp [Verdict.counted]
      | file => simp [Verdict.counted]
  have hapart : ∀ p ∈ verdicts tables source dest folding, decide (p.1.kind = .file) = true →
      decide (BlockedDir tables source dest folding p.1) = false := by
    intro p _ hfile
    have hkind := of_decide_eq_true hfile
    simp [BlockedDir, hkind]
  have htotal : p.summary.filesToCopy + p.summary.filesToSkip =
      source.entries.countP (fun e => decide (e.kind = .file)) +
        source.entries.countP (fun e => decide (BlockedDir tables source dest folding e)) := by
    rw [hcopies, hskips, plan_ok hplan, copies_add_skips_planned, hentries, hentries]
    exact countP_eq_add hcounted hapart
  refine ⟨htotal, ?_⟩
  rw [htotal, Nat.add_eq_left, List.countP_eq_zero]
  constructor
  · intro h e he hdir hobstacle
    exact h e he (decide_eq_true ⟨hdir, .inl hobstacle⟩)
  · intro h e he hrefused
    obtain ⟨d, hd, hdir, hobstacle⟩ := exists_obstacle_of_refused hc he (of_decide_eq_true hrefused)
    exact h d hd hdir hobstacle

private def pickedFolder : Snapshot :=
  Snapshot.new "device" [Entry.dir (.ofSegments ["x"]) none,
    Entry.dir (.ofSegments ["x", "sub"]) none, Entry.file (.ofSegments ["x", "a"]) 10 none,
    Entry.file (.ofSegments ["x", "sub", "b"]) 20 none, Entry.file (.ofSegments ["y"]) 1 none] []

private def emptyFolder : Snapshot := Snapshot.new "local" [] []

private def fileAtX : Snapshot := Snapshot.new "local" [Entry.file (.ofSegments ["x"]) 5 none] []

/-- On an empty destination nothing is refused, and the three files are counted. -/
theorem summary_counts_files_iff_fresh : ∃ p,
    plan .ascii pickedFolder emptyFolder .exact [] .sync = .ok p ∧
      p.summary.filesToCopy + p.summary.filesToSkip = 3 := by
  have htree : AncestorClosed pickedFolder := Snapshot.ancestorClosed_of_isTree (by decide)
  have hplan : plan .ascii pickedFolder emptyFolder .exact [] .sync = .ok (Plan.new
      (plannedActions .ascii pickedFolder emptyFolder .exact [] .sourceWins)) := by decide
  have hfiles : pickedFolder.entries.countP (fun e => decide (e.kind = .file)) = 3 := by decide
  refine ⟨_, hplan, ?_⟩
  rw [← hfiles]
  apply (summary_counts_files_iff .ascii pickedFolder emptyFolder .exact [] .sync _ htree
    (by decide) hplan).2.mpr
  -- every name of the source is first its own, and the destination has none
  have hfirst : ∀ e ∈ pickedFolder.entries, e.kind = .dir →
      (firstWithKey .ascii .exact pickedFolder.entries (e.path.key .ascii .exact)).map Entry.kind =
        some .dir := by decide
  intro e he hdir hobstacle
  rcases hobstacle with ⟨o, ho, hok⟩ | ⟨x, hx, -⟩
  · have hmap := hfirst e he hdir
    rw [ho, Option.map_some, hok] at hmap
    exact absurd hmap (by simp)
  · exact absurd (SortedTable.first_mem hx) List.not_mem_nil

/-- A file of the destination stands where the first folder belongs: its three files and the
two folders that are refused make five. -/
theorem summary_counts_refused_dirs : ∃ p, AncestorClosed pickedFolder ∧
    plan .ascii pickedFolder fileAtX .exact [] .sync = .ok p ∧
      p.summary.filesToCopy + p.summary.filesToSkip = 5 ∧
        pickedFolder.entries.countP (fun e => decide (e.kind = .file)) = 3 := by
  have htree : AncestorClosed pickedFolder := Snapshot.ancestorClosed_of_isTree (by decide)
  have hplan : plan .ascii pickedFolder fileAtX .exact [] .sync = .ok (Plan.new
      (plannedActions .ascii pickedFolder fileAtX .exact [] .sourceWins)) := by decide
  exact ⟨_, htree, hplan, by decide, by decide⟩

end Counts

end MtpxCore
