import MtpxCore.PlannerSettled

/-! The actions of a plan, entry by entry: which entries of the source give a mkdir, a
copy or a skip, and which of them the conflict pass reports. -/
namespace MtpxCore

section FileDecisions

variable {file : Entry} {existing : Option Entry} {info : Option PartialInfo}
  {conflict : ConflictPolicy}

/-- A file is either copied whole or skipped. -/
theorem decideFile_cases (file : Entry) (existing : Option Entry) (info : Option PartialInfo)
    (conflict : ConflictPolicy) :
    (∃ reason, decideFile file existing info conflict =
        .copy file.path file.size file.modified (resumeOffset file info) reason ∧
      (existing = none ∨ ∃ x, existing = some x ∧ x.kind = file.kind ∧ x.size ≠ file.size ∧
        conflict ≠ .skip)) ∨
    ∃ reason x, decideFile file existing info conflict = .skip file.path reason ∧
      existing = some x ∧ (reason ≠ .identical ↔ isConflict file x = true) ∧
      (x.kind = file.kind → x.size ≠ file.size → conflict = .skip) := by
  cases existing with
  | none =>
    left
    exact ⟨.new, rfl, Or.inl rfl⟩
  | some x =>
    by_cases hk : x.kind = file.kind
    · by_cases hs : x.size = file.size
      · right
        have hi : isConflict file x = false := by simp [isConflict, hk, hs]
        refine ⟨.identical, x, ?_, rfl, ?_, fun _ h => absurd hs h⟩
        · unfold decideFile
          dsimp only
          rw [if_neg (by simp [hk]), if_pos (by simp [hi]), skip]
        · simp [hi]
      · have hi : isConflict file x = true := by simp [isConflict, Ne.symm hs]
        -- the sizes differ, so the policy decides
        have hd : decideFile file (some x) info conflict =
            if conflict = .skip then skip file .conflict
            else copy file .sizeDiffers (resumeOffset file info) := by
          unfold decideFile
          dsimp only
          rw [if_neg (by simp [hk]), if_neg (by simp [hi])]
          cases conflict <;> rfl
        cases conflict with
        | skip =>
          right
          exact ⟨.conflict, x, hd, rfl, by simp [hi], fun _ _ => rfl⟩
        | fail =>
          left
          exact ⟨.sizeDiffers, hd, Or.inr ⟨x, rfl, hk, hs, by simp⟩⟩
        | sourceWins =>
          left
          exact ⟨.sizeDiffers, hd, Or.inr ⟨x, rfl, hk, hs, by simp⟩⟩
    · right
      have hi : isConflict file x = true := by simp [isConflict, Ne.symm hk]
      refine ⟨.kindConflict, x, ?_, rfl, by simp [hi], fun h => absurd h hk⟩
      unfold decideFile
      dsimp only
      rw [if_pos hk, skip]

/-- The policy is asked only where sizes differ. -/
theorem decideFile_policy (h : ∀ x, existing = some x → isConflict file x = false)
    (c c' : ConflictPolicy) :
    decideFile file existing info c = decideFile file existing info c' := by
  cases existing with
  | none => rfl
  | some x =>
    have hi := h x rfl
    have hk : ¬x.kind ≠ file.kind := by
      intro hne
      rw [isConflict, decide_eq_true (Ne.symm hne), Bool.true_or] at hi
      exact absurd hi (by simp)
    unfold decideFile
    dsimp only
    rw [if_neg hk, if_neg hk, if_pos (by simp [hi]), if_pos (by simp [hi])]

end FileDecisions

/-- The action of an unhindered directory. -/
def dirAction (dir : Entry) (existing : Option Entry) : Option Action :=
  match decideDir existing with
  | .mkdir => some (.mkdir dir.path)
  | .present => none
  | .blocked => some (skip dir .kindConflict)

/-- The one action an entry adds to the plan, if any. -/
def Verdict.action (existing : Option Entry) (partials : Partials) (conflict : ConflictPolicy)
    (e : Entry) : Verdict → Option Action
  | .blocked reason => some (MtpxCore.skip e reason)
  | .collision => some (MtpxCore.skip e .nameCollision)
  | .directory .mkdir => some (.mkdir e.path)
  | .directory .present => none
  | .directory .blocked => some (MtpxCore.skip e .kindConflict)
  | .file => some (decideFile e existing (partials.get e.path) conflict)

/-- An existing entry at a directory's path conflicts with it exactly when it is a file. -/
theorem isConflict_dir {e x : Entry} (he : e.kind = .dir) :
    isConflict e x = true ↔ x.kind = .file := by
  cases hx : x.kind with
  | file => simp [isConflict, he, hx]
  | dir => simp [isConflict, he, hx, e.dir_size he, x.dir_size hx]

section Actions

variable (tables : CaseTables) (source dest : Snapshot) (folding : NameFolding)
  (partials : Partials) (conflict : ConflictPolicy)

/-- The destination's entry for the path of `e`. -/
def destEntry (e : Entry) : Option Entry :=
  firstWithKey tables folding dest.entries (e.path.key tables folding)

/-- The actions of a pass: every mkdir, then everything else, each in source order. -/
def plannedActions : List Action :=
  (verdicts tables source dest folding).flatMap (fun p => p.2.mkdirs p.1) ++
    (verdicts tables source dest folding).flatMap (fun p =>
      p.2.files (destEntry tables dest folding p.1) partials conflict p.1)

/-- The conflict pass reports `e`. -/
def Conflicting (e : Entry) : Prop :=
  Contested tables source folding e ∨
    ∃ x, destEntry tables dest folding e = some x ∧ isConflict e x = true

/-- Nothing above `e` is refused and no other entry owns its name. -/
def Unhindered (e : Entry) : Prop :=
  ¬Obstructed tables source dest folding (e.path.key tables folding) ∧
    ¬Contested tables source folding e

/-- A plan is the planned actions, unless the policy refuses the conflicts found first. -/
theorem plan_eq (opts : TransferOptions) :
    plan tables source dest folding partials opts =
      if opts.conflict = .fail &&
          !(collectConflicts tables source (DestIndex.new tables dest folding) folding).isEmpty then
        .error (collectConflicts tables source (DestIndex.new tables dest folding) folding)
      else .ok (Plan.new (plannedActions tables source dest folding partials opts.conflict)) := by
  obtain ⟨hm, hf⟩ := Decider.foldl_decideEntry tables source.entries
    (Decider.new (DestIndex.new tables dest folding) folding partials opts.conflict)
  simp only [plan, Decider.intoPlan, hm, hf]
  simp only [Decider.new, Decider.course, List.nil_append, DestIndex.get_new]
  rfl

variable {tables source dest folding partials conflict}

theorem plan_ok {opts : TransferOptions} {p : Plan}
    (h : plan tables source dest folding partials opts = .ok p) :
    p.actions = plannedActions tables source dest folding partials opts.conflict := by
  rw [plan_eq] at h
  split at h
  · exact absurd h (by simp)
  · rw [← Except.ok.inj h]
    rfl

theorem mem_plannedActions {a : Action} :
    a ∈ plannedActions tables source dest folding partials conflict ↔
      ∃ e v, (e, v) ∈ verdicts tables source dest folding ∧
        v.action (destEntry tables dest folding e) partials conflict e = some a := by
  have hentry (e : Entry) (v : Verdict) : (a ∈ v.mkdirs e ∨
      a ∈ v.files (destEntry tables dest folding e) partials conflict e) ↔
        v.action (destEntry tables dest folding e) partials conflict e = some a := by
    cases v with
    | directory d => cases d <;> simp [Verdict.mkdirs, Verdict.files, Verdict.action, eq_comm]
    | blocked r => simp [Verdict.mkdirs, Verdict.files, Verdict.action, eq_comm]
    | collision => simp [Verdict.mkdirs, Verdict.files, Verdict.action, eq_comm]
    | file => simp [Verdict.mkdirs, Verdict.files, Verdict.action, eq_comm]
  simp only [plannedActions, List.mem_append, List.mem_flatMap, Prod.exists, ← hentry]
  constructor
  · intro h
    rcases h with ⟨e, v, hm, ha⟩ | ⟨e, v, hm, ha⟩
    · exact ⟨e, v, hm, Or.inl ha⟩
    · exact ⟨e, v, hm, Or.inr ha⟩
  · intro h
    obtain ⟨e, v, hm, ha | ha⟩ := h
    · exact Or.inl ⟨e, v, hm, ha⟩
    · exact Or.inr ⟨e, v, hm, ha⟩

variable (hc : AncestorClosed source)

variable (partials conflict) in
include hc in
/-- The action of every entry, from the two sides alone. -/
theorem entry_action {e : Entry} {v : Verdict}
    (h : (e, v) ∈ verdicts tables source dest folding) :
    (Obstructed tables source dest folding (e.path.key tables folding) ∧
      ∃ reason, reason ≠ .identical ∧
        v.action (destEntry tables dest folding e) partials conflict e =
          some (.skip e.path reason)) ∨
    (¬Obstructed tables source dest folding (e.path.key tables folding) ∧
      Contested tables source folding e ∧
        v.action (destEntry tables dest folding e) partials conflict e =
          some (.skip e.path .nameCollision)) ∨
    (Unhindered tables source dest folding e ∧ e.kind = .dir ∧
      v.action (destEntry tables dest folding e) partials conflict e =
        dirAction e (destEntry tables dest folding e)) ∨
    (Unhindered tables source dest folding e ∧ e.kind = .file ∧
      v.action (destEntry tables dest folding e) partials conflict e =
        some (decideFile e (destEntry tables dest folding e) (partials.get e.path) conflict)) := by
  have hset := settled hc h
  cases v with
  | blocked reason =>
    left
    refine ⟨hset.1, reason, ?_, rfl⟩
    rcases hset.2 with rfl | rfl <;> simp
  | collision =>
    right; left
    exact ⟨hset.1, hset.2, rfl⟩
  | directory d =>
    right; right; left
    obtain ⟨hopen, hcon, hdir, rfl⟩ := hset
    refine ⟨⟨hopen, hcon⟩, hdir, ?_⟩
    rw [dirAction, destEntry]
    cases decideDir (firstWithKey tables folding dest.entries (e.path.key tables folding)) <;> rfl
  | file =>
    right; right; right
    exact ⟨⟨hset.1, hset.2.1⟩, hset.2.2, rfl⟩

include hc in
/-- A mkdir is planned for the unhindered directories the destination lacks. -/
theorem mem_mkdir_iff {path : RelPath} :
    Action.mkdir path ∈ plannedActions tables source dest folding partials conflict ↔
      ∃ e ∈ source.entries, e.path = path ∧ e.kind = .dir ∧
        Unhindered tables source dest folding e ∧ destEntry tables dest folding e = none := by
  have hdir (e : Entry) (existing : Option Entry) :
      dirAction e existing = some (.mkdir path) ↔ e.path = path ∧ existing = none := by
    cases existing with
    | none => simp [dirAction, decideDir]
    | some x =>
      by_cases hx : x.kind = .dir <;> simp [dirAction, decideDir, hx, skip]
  rw [mem_plannedActions]
  constructor
  · intro h
    obtain ⟨e, v, hm, ha⟩ := h
    rcases entry_action partials conflict hc hm with
      ⟨-, r, -, hv⟩ | ⟨-, -, hv⟩ | ⟨hun, hk, hv⟩ | ⟨-, -, hv⟩
    · rw [hv] at ha
      exact absurd ha (by simp)
    · rw [hv] at ha
      exact absurd ha (by simp)
    · -- only an unhindered directory gets this action
      rw [hv, hdir] at ha
      exact ⟨e, mem_of_verdict hm, ha.1, hk, hun, ha.2⟩
    · rw [hv] at ha
      rcases decideFile_cases e (destEntry tables dest folding e) (partials.get e.path) conflict with
        ⟨r, hd, -⟩ | ⟨r, x, hd, -⟩
      · rw [hd] at ha
        exact absurd ha (by simp)
      · rw [hd] at ha
        exact absurd ha (by simp)
  · intro h
    obtain ⟨e, he, hp, hk, hun, hnone⟩ := h
    -- the other way around the verdict of the entry is looked up
    obtain ⟨v, hm⟩ := exists_verdict tables dest folding he
    refine ⟨e, v, hm, ?_⟩
    rcases entry_action partials conflict hc hm with
      ⟨ho, -⟩ | ⟨-, hcon, -⟩ | ⟨-, -, hv⟩ | ⟨-, hf, -⟩
    · exact absurd ho hun.1
    · exact absurd hcon hun.2
    · rw [hv, hdir]
      exact ⟨hp, hnone⟩
    · exact absurd (hk.symm.trans hf) (by simp)

include hc in
/-- A copy is planned for the unhindered files whose decision is to copy. -/
theorem mem_copy_iff {path : RelPath} {size resumeFrom : ℕ} {modified : Option ModifiedTime}
    {reason : CopyReason} :
    Action.copy path size modified resumeFrom reason ∈
        plannedActions tables source dest folding partials conflict ↔
      ∃ e ∈ source.entries, e.kind = .file ∧ Unhindered tables source dest folding e ∧
        decideFile e (destEntry tables dest folding e) (partials.get e.path) conflict =
          .copy path size modified resumeFrom reason := by
  rw [mem_plannedActions]
  constructor
  · intro h
    obtain ⟨e, v, hm, ha⟩ := h
    rcases entry_action partials conflict hc hm with
      ⟨-, r, -, hv⟩ | ⟨-, -, hv⟩ | ⟨-, -, hv⟩ | ⟨hun, hk, hv⟩
    · rw [hv] at ha
      exact absurd ha (by simp)
    · rw [hv] at ha
      exact absurd ha (by simp)
    · rw [hv, dirAction] at ha
      split at ha <;> exact absurd ha (by simp [skip])
    · rw [hv] at ha
      exact ⟨e, mem_of_verdict hm, hk, hun, Option.some.inj ha⟩
  · intro h
    obtain ⟨e, he, hk, hun, hd⟩ := h
    obtain ⟨v, hm⟩ := exists_verdict tables dest folding he
    refine ⟨e, v, hm, ?_⟩
    rcases entry_action partials conflict hc hm with
      ⟨ho, -⟩ | ⟨-, hcon, -⟩ | ⟨-, hdir, -⟩ | ⟨-, -, hv⟩
    · exact absurd ho hun.1
    · exact absurd hcon hun.2
    · exact absurd (hk.symm.trans hdir) (by simp)
    · rw [hv, hd]

end Actions

end MtpxCore
