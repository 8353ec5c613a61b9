import MtpxCore.PlannerOutcome

/-! The conflict pass against the planning pass. The first claims every name and never
looks at blocked subtrees, the second claims only what it can reach; they agree on whether
anything is in the way, because whatever is obstructed has a conflict above it. -/
namespace MtpxCore

section Collecting

variable {tables : CaseTables} {source dest : Snapshot} {folding : NameFolding}

/-- The conflict pass collides exactly with the contested entries. -/
theorem collides_iff_contested {pre es : List Entry} {e : Entry} {claims : Claims}
    (hsplit : pre ++ e :: es = source.entries) (hfold : claims.folding = folding)
    (hseen : folding ≠ .exact → ∀ key,
      lookup claims.seen key = (firstWithKey tables folding pre key).map Entry.kind) :
    (claims.collides tables e).1 = true ↔ Contested tables source folding e := by
  have he : e ∈ source.entries := by
    rw [← hsplit]
    exact List.mem_append_right _ List.mem_cons_self
  by_cases hf : folding = .exact
  · subst hf
    rw [collides_exact tables hfold, Contested, first_exact he]
    simp
  · have hf' : claims.folding ≠ .exact := hfold ▸ hf
    rw [collides_iff tables hf' e, hfold, hseen hf, Contested, ← hsplit, firstWithKey, firstWithKey,
      SortedTable.first_append, SortedTable.first_cons, if_pos rfl]
    cases hpre : SortedTable.first (fun e => e.path.key tables folding)
        (e.path.key tables folding) pre with
    | none => simp
    | some o =>
      -- an earlier entry is never `e` itself, since paths increase
      have hoe : o ≠ e := by
        intro heq
        have hs := source.sorted
        rw [← hsplit] at hs
        have hlt := (List.pairwise_append.mp hs).2.2 o (SortedTable.first_mem hpre) e
          List.mem_cons_self
        rw [heq] at hlt
        exact lt_irrefl _ hlt
      simp [hoe]

open scoped Classical in
theorem collectFrom_eq {pre es : List Entry} {claims : Claims}
    (hsplit : pre ++ es = source.entries) (hfold : claims.folding = folding)
    (hseen : folding ≠ .exact → ∀ key,
      lookup claims.seen key = (firstWithKey tables folding pre key).map Entry.kind) :
    collectFrom tables (DestIndex.new tables dest folding) claims es =
      (es.filter (fun e => decide (Conflicting tables source dest folding e))).map Entry.path := by
  induction es generalizing pre claims with
  | nil => rfl
  | cons e es ih =>
    have hcol := collides_iff_contested hsplit hfold hseen
    have hdest : ((DestIndex.new tables dest folding).get tables e.path).any
        (fun x => isConflict e x) = true ↔
          ∃ x, destEntry tables dest folding e = some x ∧ isConflict e x = true := by
      rw [DestIndex.get_new, Option.any_eq_true]
      rfl
    have hconf : ((claims.collides tables e).1 ||
        ((DestIndex.new tables dest folding).get tables e.path).any
          (fun x => isConflict e x)) = true ↔ Conflicting tables source dest folding e := by
      rw [Bool.or_eq_true, hcol, hdest, Conflicting]
    -- the claims of the next entry hold the kind of the first with each key
    have hnext := @ih (pre ++ [e]) (claims.collides tables e).2
      (by rw [List.append_assoc]; exact hsplit)
      ((collides_folding tables e).trans hfold) (by
        intro hf key
        rw [collides_seen tables (by rwa [hfold]), hseen hf, hfold, firstWithKey, firstWithKey,
          SortedTable.first_append, SortedTable.first_cons]
        cases SortedTable.first (fun e => e.path.key tables folding) key pre with
        | some o => rfl
        | none =>
          simp only [Option.map_none, Option.none_or]
          split <;> rfl)
    rw [collectFrom]
    dsimp only
    rw [hnext, List.filter_cons]
    by_cases h : Conflicting tables source dest folding e
    · rw [if_pos (hconf.mpr h), if_pos (decide_eq_true h), List.map_cons]
    · rw [if_neg (fun hh => h (hconf.mp hh)), if_neg (by simpa using h)]

open scoped Classical in
/-- The conflicts, in source order. -/
theorem collectConflicts_eq :
    collectConflicts tables source (DestIndex.new tables dest folding) folding =
      (source.entries.filter
        (fun e => decide (Conflicting tables source dest folding e))).map Entry.path :=
  collectFrom_eq (List.nil_append _) rfl (fun _ _ => rfl)

theorem mem_collectConflicts {path : RelPath} :
    path ∈ collectConflicts tables source (DestIndex.new tables dest folding) folding ↔
      ∃ e ∈ source.entries, e.path = path ∧ Conflicting tables source dest folding e := by
  classical
  rw [collectConflicts_eq, List.mem_map]
  constructor
  · intro h
    obtain ⟨e, he, hp⟩ := h
    obtain ⟨hm, hconf⟩ := List.mem_filter.mp he
    exact ⟨e, hm, hp, of_decide_eq_true hconf⟩
  · intro h
    obtain ⟨e, hm, hp, hconf⟩ := h
    exact ⟨e, List.mem_filter.mpr ⟨hm, decide_eq_true hconf⟩, hp⟩

theorem collectConflicts_sublist :
    (collectConflicts tables source (DestIndex.new tables dest folding) folding).Sublist
      (source.entries.map Entry.path) := by
  classical
  rw [collectConflicts_eq]
  exact List.filter_sublist.map Entry.path

theorem paths_nodup (source : Snapshot) : (source.entries.map Entry.path).Nodup := by
  apply List.Pairwise.map Entry.path _ source.sorted
  intro a b hlt
  exact hlt.ne

end Collecting

section FailPass

variable {tables : CaseTables} {source dest : Snapshot} {folding : NameFolding}
  {partials : Partials}

/-- Whatever is obstructed has a conflicting directory of the source above it. -/
theorem exists_conflicting_above (hc : AncestorClosed source) {e : Entry}
    (he : e ∈ source.entries)
    (hobs : Obstructed tables source dest folding (e.path.key tables folding)) :
    ∃ d ∈ source.entries, d.kind = .dir ∧ Conflicting tables source dest folding d ∧
      d.path.segments <+: e.path.segments ∧ d.path ≠ e.path := by
  obtain ⟨k, hk, hpre, hne, hko, -⟩ := exists_topmost hobs
  obtain ⟨d, hd, hdir, rfl, hseg, hdne⟩ := exists_ancestor hc he hk hpre hne
  refine ⟨d, hd, hdir, ?_, hseg, hdne⟩
  rcases hko with ⟨o, ho, hok⟩ | ⟨x, hx, hxk⟩
  · left
    refine ⟨o, ho, ?_, ?_⟩
    · intro heq
      rw [heq, hdir] at hok
      exact absurd hok (by simp)
    · simp [hok]
  · right
    exact ⟨x, hx, (isConflict_dir hdir).mpr hxk⟩

/-- Under the skip policy an entry is skipped for another reason than being identical
exactly when it is obstructed or conflicting. -/
theorem skipped_iff (hc : AncestorClosed source) {path : RelPath} :
    (∃ reason, Action.skip path reason ∈ plannedActions tables source dest folding partials .skip ∧
        reason ≠ .identical) ↔
      ∃ e ∈ source.entries, e.path = path ∧
        (Obstructed tables source dest folding (e.path.key tables folding) ∨
          Conflicting tables source dest folding e) := by
  constructor
  · intro h
    obtain ⟨reason, ha, hr⟩ := h
    obtain ⟨e, v, hm, hv⟩ := mem_plannedActions.mp ha
    have he := mem_of_verdict hm
    rcases entry_action partials .skip hc hm with
      ⟨ho, r, -, hact⟩ | ⟨-, hcon, hact⟩ | ⟨hun, hdir, hact⟩ | ⟨hun, hfile, hact⟩
    · rw [hact] at hv
      exact ⟨e, he, congrArg Action.path (Option.some.inj hv), Or.inl ho⟩
    · rw [hact] at hv
      exact ⟨e, he, congrArg Action.path (Option.some.inj hv), Or.inr (Or.inl hcon)⟩
    · rw [hact, dirAction] at hv
      cases hx : destEntry tables dest folding e with
      | none =>
        rw [hx] at hv
        exact absurd hv (by simp [decideDir])
      | some x =>
        rw [hx] at hv
        cases hk : x.kind with
        | dir => exact absurd hv (by simp [decideDir, hk])
        | file =>
          have hp : skip e .kindConflict = .skip path reason := by
            simpa [decideDir, hk] using hv
          refine ⟨e, he, congrArg Action.path hp, Or.inr (Or.inr ⟨x, hx, ?_⟩)⟩
          exact (isConflict_dir hdir).mpr hk
    · rw [hact, Option.some.injEq] at hv
      rcases decideFile_cases e (destEntry tables dest folding e) (partials.get e.path) .skip with
        ⟨r, hd, -⟩ | ⟨r, x, hd, hx, hiff, -⟩
      · rw [hd] at hv
        exact absurd hv (by simp)
      · rw [hd, Action.skip.injEq] at hv
        obtain ⟨hp, rfl⟩ := hv
        exact ⟨e, he, hp, Or.inr (Or.inr ⟨x, hx, hiff.mp hr⟩)⟩
  · intro h
    obtain ⟨e, he, rfl, hcase⟩ := h
    obtain ⟨v, hm⟩ := exists_verdict tables dest folding he
    -- an entry that is not obstructed conflicts with the other entry or with the destination
    rcases entry_action partials .skip hc hm with
      ⟨-, r, hr, hact⟩ | ⟨-, -, hact⟩ | ⟨hun, hdir, hact⟩ | ⟨hun, hfile, hact⟩
    · exact ⟨r, mem_plannedActions.mpr ⟨e, v, hm, hact⟩, hr⟩
    · exact ⟨.nameCollision, mem_plannedActions.mpr ⟨e, v, hm, hact⟩, by simp⟩
    · obtain ⟨x, hx, hconf⟩ := (hcase.resolve_left hun.1).resolve_left hun.2
      refine ⟨.kindConflict, mem_plannedActions.mpr ⟨e, v, hm, ?_⟩, by simp⟩
      rw [hact, hx, dirAction, decideDir, if_neg (by simp [(isConflict_dir hdir).mp hconf])]
      rfl
    · obtain ⟨x, hx, hconf⟩ := (hcase.resolve_left hun.1).resolve_left hun.2
      rcases decideFile_cases e (destEntry tables dest folding e) (partials.get e.path) .skip with
        ⟨r, -, hnone⟩ | ⟨r, y, hd, hy, hiff, -⟩
      · rcases hnone with hnone | ⟨_, _, _, _, hpol⟩
        · rw [hx] at hnone
          exact absurd hnone (by simp)
        · exact absurd rfl hpol
      · rw [hx] at hy
        rw [← Option.some.inj hy] at hiff
        refine ⟨r, mem_plannedActions.mpr ⟨e, v, hm, ?_⟩, hiff.mpr hconf⟩
        rw [hact, hd]

/-- With no conflict anywhere the policy is never asked. -/
theorem plannedActions_policy
    (h : ∀ e ∈ source.entries, ¬Conflicting tables source dest folding e)
    (c c' : ConflictPolicy) :
    plannedActions tables source dest folding partials c =
      plannedActions tables source dest folding partials c' := by
  rw [plannedActions, plannedActions]
  congr 1
  rw [List.flatMap_def, List.flatMap_def]
  congr 1
  apply List.map_congr_left
  rintro ⟨e, v⟩ hm
  cases v with
  | file =>
    apply congrArg (fun a => [a])
    apply decideFile_policy
    intro x hx
    apply Bool.eq_false_of_not_eq_true
    intro hi
    exact h e (mem_of_verdict hm) (Or.inr ⟨x, hx, hi⟩)
  | blocked r => rfl
  | collision => rfl
  | directory d => cases d <;> rfl

/-- A plan that fails is one whose conflict pass found something, and fails with what it found. -/
theorem plan_fail_error {c : List RelPath} :
    plan tables source dest folding partials ⟨.fail⟩ = .error c ↔
      collectConflicts tables source (DestIndex.new tables dest folding) folding ≠ [] ∧
        collectConflicts tables source (DestIndex.new tables dest folding) folding = c := by
  rw [plan_eq]
  cases collectConflicts tables source (DestIndex.new tables dest folding) folding with
  | nil => simp
  | cons path rest => simp

/-- A plan that passes is the plan of every other policy. -/
theorem plan_fail_ok {p : Plan}
    (h : plan tables source dest folding partials ⟨.fail⟩ = .ok p) (c : ConflictPolicy)
    (hc : c ≠ .fail) : plan tables source dest folding partials ⟨c⟩ = .ok p := by
  have hempty : collectConflicts tables source (DestIndex.new tables dest folding) folding = [] := by
    by_contra hne
    have hbad := h.symm.trans (plan_fail_error.mpr ⟨hne, rfl⟩)
    cases hbad
  have hnone : ∀ e ∈ source.entries, ¬Conflicting tables source dest folding e := by
    intro e he hconf
    have hmem := mem_collectConflicts.mpr ⟨e, he, rfl, hconf⟩
    rw [hempty] at hmem
    cases hmem
  rw [plan_eq, hempty] at h
  obtain rfl := Except.ok.inj h
  rw [plan_eq, if_neg (by simp [hc]), plannedActions_policy hnone c .fail]

/-- Something is in the way of the pass exactly where skipping leaves something out. -/
theorem collectConflicts_ne_nil_iff (hc : AncestorClosed source) :
    collectConflicts tables source (DestIndex.new tables dest folding) folding ≠ [] ↔
      ∃ path reason, Action.skip path reason ∈
        plannedActions tables source dest folding partials .skip ∧ reason ≠ .identical := by
  constructor
  · intro h
    obtain ⟨path, hp⟩ := List.exists_mem_of_ne_nil _ h
    obtain ⟨e, he, rfl, hconf⟩ := mem_collectConflicts.mp hp
    exact ⟨e.path, (skipped_iff hc).mpr ⟨e, he, rfl, Or.inr hconf⟩⟩
  · intro h
    obtain ⟨path, hr⟩ := h
    obtain ⟨e, he, rfl, hcase⟩ := (skipped_iff hc).mp hr
    have hsome : ∃ d ∈ source.entries, Conflicting tables source dest folding d := by
      rcases hcase with ho | hconf
      · obtain ⟨d, hd, -, hconf, -⟩ := exists_conflicting_above hc he ho
        exact ⟨d, hd, hconf⟩
      · exact ⟨e, he, hconf⟩
    obtain ⟨d, hd, hconf⟩ := hsome
    exact List.ne_nil_of_mem (mem_collectConflicts.mpr ⟨d, hd, rfl, hconf⟩)

/-- A path skipped with no skipped directory above it is a conflict itself. -/
theorem mem_collectConflicts_of_skip (hc : AncestorClosed source) {path : RelPath}
    {reason : SkipReason}
    (hm : Action.skip path reason ∈ plannedActions tables source dest folding partials .skip)
    (hr : reason ≠ .identical)
    (hnot : ¬∃ d ∈ source.entries, d.kind = .dir ∧ d.path.segments <+: path.segments ∧
      d.path ≠ path ∧ ∃ r, Action.skip d.path r ∈
        plannedActions tables source dest folding partials .skip ∧ r ≠ .identical) :
    path ∈ collectConflicts tables source (DestIndex.new tables dest folding) folding := by
  obtain ⟨e, he, rfl, hcase⟩ := (skipped_iff hc).mp ⟨reason, hm, hr⟩
  rcases hcase with ho | hconf
  -- whatever obstructs it has a conflict above it, which is skipped as well
  · obtain ⟨d, hd, hdir, hconf, hpre, hne⟩ := exists_conflicting_above hc he ho
    exact absurd ⟨d, hd, hdir, hpre, hne, (skipped_iff hc).mpr ⟨d, hd, rfl, Or.inr hconf⟩⟩ hnot
  · exact mem_collectConflicts.mpr ⟨e, he, rfl, hconf⟩

/-- Planning under `Fail` agrees with planning under the other two policies. It fails
exactly when the plan under `Skip` skips something for another reason than being
identical; the conflicts then name such paths only, in source order and once each, and
every such path that is not beneath a refused directory; and where it succeeds all three
policies give one plan. -/
theorem fail_prepass_agrees (tables : CaseTables) (source dest : Snapshot)
    (folding : NameFolding) (partials : Partials) (hc : AncestorClosed source) :
    ∃ s, plan tables source dest folding partials ⟨.skip⟩ = .ok s ∧
      ((∃ c, plan tables source dest folding partials ⟨.fail⟩ = .error c) ↔
        ∃ path reason, Action.skip path reason ∈ s.actions ∧ reason ≠ .identical) ∧
      (∀ c, plan tables source dest folding partials ⟨.fail⟩ = .error c →
        c.Sublist (source.entries.map Entry.path) ∧ c.Nodup ∧
        (∀ path reason, Action.skip path reason ∈ s.actions → reason ≠ .identical →
          (¬∃ d ∈ source.entries, d.kind = .dir ∧ d.path.segments <+: path.segments ∧
            d.path ≠ path ∧ ∃ r, Action.skip d.path r ∈ s.actions ∧ r ≠ .identical) →
          path ∈ c) ∧
        ∀ path ∈ c, ∃ reason, Action.skip path reason ∈ s.actions ∧ reason ≠ .identical) ∧
      ∀ p, plan tables source dest folding partials ⟨.fail⟩ = .ok p →
        plan tables source dest folding partials ⟨.sourceWins⟩ = .ok p ∧
          plan tables source dest folding partials ⟨.skip⟩ = .ok p := by
  have hskip : plan tables source dest folding partials ⟨.skip⟩ =
      .ok (Plan.new (plannedActions tables source dest folding partials .skip)) := by
    rw [plan_eq, if_neg (by simp)]
  refine ⟨_, hskip, ?_, ?_, ?_⟩
  · constructor
    · intro h
      obtain ⟨c, hc'⟩ := h
      exact (collectConflicts_ne_nil_iff hc).mp (plan_fail_error.mp hc').1
    · intro h
      exact ⟨_, plan_fail_error.mpr ⟨(collectConflicts_ne_nil_iff hc).mpr h, rfl⟩⟩
  · intro c hc'
    obtain ⟨-, rfl⟩ := plan_fail_error.mp hc'
    refine ⟨collectConflicts_sublist, (paths_nodup source).sublist collectConflicts_sublist,
      fun path reason hm hr hnot => mem_collectConflicts_of_skip hc hm hr hnot, ?_⟩
    intro path hp
    obtain ⟨e, he, rfl, hconf⟩ := mem_collectConflicts.mp hp
    exact (skipped_iff hc).mpr ⟨e, he, rfl, Or.inr hconf⟩
  · intro p hp
    exact ⟨plan_fail_ok hp .sourceWins (by simp), plan_fail_ok hp .skip (by simp)⟩

private def missing : Snapshot :=
  Snapshot.new "device" [Entry.dir (.ofSegments ["Music"]) none,
    Entry.file (.ofSegments ["Music", "a.mp3"]) 3 none] []

private def inTheWay : Snapshot :=
  Snapshot.new "local" [Entry.file (.ofSegments ["music"]) 9 none] []

/-- A file in the place of a folded directory: the conflict is the directory, and the file
beneath it is skipped as well. -/
theorem fail_prepass_agrees_file_over_dir :
    missing.isTree = true ∧
      plan .ascii missing inTheWay .caseInsensitive [] ⟨.fail⟩ =
        .error [.ofSegments ["Music"]] ∧
      ∃ s, plan .ascii missing inTheWay .caseInsensitive [] ⟨.skip⟩ = .ok s ∧
        ((∃ c, plan .ascii missing inTheWay .caseInsensitive [] ⟨.fail⟩ = .error c) ↔
          ∃ path reason, Action.skip path reason ∈ s.actions ∧ reason ≠ .identical) := by
  have htree : missing.isTree = true := by decide
  obtain ⟨s, hs, hiff, -⟩ := fail_prepass_agrees .ascii missing inTheWay .caseInsensitive []
    (Snapshot.ancestorClosed_of_isTree htree)
  exact ⟨htree, by decide, s, hs, hiff⟩

end FailPass

end MtpxCore
