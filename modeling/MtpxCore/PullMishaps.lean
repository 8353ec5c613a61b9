import MtpxCore.PullReplays

/-! A run on a volume, however it ends: whole, with failures, aborted, cancelled or killed. What the
volume shows is always what some of the planned actions, done in some order, make of the listing. -/
namespace MtpxCore

open CrashHoare

/-- What nothing was done to hold, or more. -/
theorem replay_none {tables : CaseTables} {folding : NameFolding} {store : Store} {actions : List Action}
    {key : List String} (h : store.replay tables folding actions key = none) : store key = none := by
  induction actions generalizing store with
  | nil => exact h
  | cons a actions ih =>
    rw [Store.replay, List.foldl_cons] at h
    have hact := ih h
    cases a with
    | mkdir path =>
      by_cases hk : path.key tables folding = key ∧ store key = none
      · exact hk.2
      · rwa [act_mkdir, if_neg hk] at hact
    | copy path size modified resumeFrom reason =>
      rw [Store.act, Function.update_apply] at hact
      split at hact
      · exact absurd hact (by simp)
      · exact hact
    | skip path reason => exact hact

/-- What some of the planned actions make of the listing. -/
def PartlyDone (vol : Volume) (files listing : Snapshot) (partials : Partials) (conflict : ConflictPolicy) :
    Set Store :=
  {held | ∃ done : List Action,
    (∀ a ∈ done, a ∈ plannedActions vol.tables files listing vol.folding partials conflict) ∧
      held = (Store.of vol.tables vol.folding listing).replay vol.tables vol.folding done}

section Partly

variable {vol : Volume} {files listing : Snapshot} {partials : Partials} {conflict : ConflictPolicy}
  {names : Set Key} {held : Store} {tree tree' : LocalTree} {a : Action}

theorem partlyDone_start :
    Store.of vol.tables vol.folding listing ∈ PartlyDone vol files listing partials conflict :=
  ⟨[], fun _ h => absurd h List.not_mem_nil, rfl⟩

/-- One more of the planned actions. -/
theorem partlyDone_act (h : held ∈ PartlyDone vol files listing partials conflict)
    (ha : a ∈ plannedActions vol.tables files listing vol.folding partials conflict) :
    held.act vol.tables vol.folding a ∈ PartlyDone vol files listing partials conflict := by
  obtain ⟨done, hdone, rfl⟩ := h
  refine ⟨done ++ [a], fun b hb => ?_, ?_⟩
  · rcases List.mem_append.mp hb with hb | hb
    · exact hdone b hb
    · exact List.mem_singleton.mp hb ▸ ha
  · rw [Store.replay, Store.replay, List.foldl_append]
    rfl

/-- A folder that a call makes on the way to a planned path is itself planned. -/
theorem partly_folder (hc : AncestorClosed files)
    (ha : a ∈ plannedActions vol.tables files listing vol.folding partials conflict)
    (hwrites : a.isSkip = false) (h : held ∈ PartlyDone vol files listing partials conflict)
    (hshows : Shows vol names held tree) {d : List OsName} (hd : d <+: a.path.toLocalPath)
    (hself : d = a.path.toLocalPath → a = .mkdir a.path) (hfree : tree.find vol d = none)
    (hput : tree.put vol d (.dir true) = .ok tree') :
    ShowsOne vol names (PartlyDone vol files listing partials conflict) tree' := by
  obtain ⟨q, rfl, hsegments⟩ := exists_above hd
  by_cases hroot : q.segments = []
  · have hnil : q.toLocalPath = [] := by
      rw [RelPath.toLocalPath, hroot]
      rfl
    rw [hnil] at hfree hput
    exact ⟨held, h, hshows.put_root hfree hput⟩
  · obtain ⟨hnone, hmade⟩ := hshows.put_folder hroot hfree hput
    -- a planned mkdir has the name of this folder
    have hplanned : ∃ path, Action.mkdir path ∈
        plannedActions vol.tables files listing vol.folding partials conflict ∧
          path.key vol.tables vol.folding = q.key vol.tables vol.folding := by
      by_cases hqa : q.segments = a.path.segments
      · have hlocal : q.toLocalPath = a.path.toLocalPath := by
          rw [RelPath.toLocalPath, RelPath.toLocalPath, hqa]
        refine ⟨a.path, hself hlocal ▸ ha, ?_⟩
        rw [RelPath.key, RelPath.key, hqa]
      · obtain ⟨e, he, hep, hun, -⟩ := writes_of_mem hc ha hwrites
        rw [← hep] at hsegments hqa
        have hne : q.key vol.tables vol.folding ≠ e.path.key vol.tables vol.folding := by
          intro hkey
          have hlen := congrArg List.length hkey
          rw [RelPath.key_length, RelPath.key_length] at hlen
          exact hqa (hsegments.eq_of_length hlen)
        obtain ⟨f, -, -, hkey, -, -, hhere⟩ :=
          parent_dir partials conflict hc he hun (key_ne_nil hroot) (key_mono hsegments) hne
        rcases hhere with ⟨-, hmkdir⟩ | ⟨x, hx, -⟩
        · exact ⟨f.path, hmkdir, hkey⟩
        · -- a folder that was listed would still show
          obtain ⟨done, -, rfl⟩ := h
          have hlisted := replay_none hnone
          rw [← hkey, Store.of, Option.map_eq_none_iff] at hlisted
          rw [destEntry] at hx
          exact absurd (hx.symm.trans hlisted) (by simp)
    obtain ⟨path, hpath, hkey⟩ := hplanned
    refine ⟨_, partlyDone_act h hpath, ?_⟩
    rw [Store.act, hkey, if_pos (by rw [hnone]; rfl)]
    exact hmade

/-- The write of a planned copy, whatever becomes of it, leaves something partly done. -/
theorem write_partly {env : Weather} {codec : SidecarCodec} {peer : Identity} (hc : AncestorClosed files)
    (hu : Unreserved files) (request : WriteRequest) {resumeFrom : ℕ} {reason : CopyReason}
    (ha : .copy request.path request.expectedSize request.modified resumeFrom reason ∈
      plannedActions vol.tables files listing vol.folding partials conflict)
    (hnamed : NamedApart vol names request.path) {input : ByteStream} :
    Triple (fun w => ShowsOne vol names (PartlyDone vol files listing partials conflict) w.tree)
      (LocalEndpoint.write vol env codec peer request input)
      (Post.always fun w => ShowsOne vol names (PartlyDone vol files listing partials conflict) w.tree) := by
  have hlast : ∃ dir name, request.path.toLocalPath = dir ++ [OsName.utf8 name] ∧
      isReservedName name = false := by
    obtain ⟨e, he, -, hep, -⟩ := copied_at hc ha rfl
    obtain ⟨dir, name, hseg, hname⟩ := hu e he
    have hp : e.path = request.path := hep
    refine ⟨dir.map OsName.utf8, name, ?_, hname⟩
    rw [← hp, RelPath.toLocalPath, hseg, List.map_append]
    rfl
  obtain ⟨dir, name, hlocal, hname⟩ := hlast
  have g : Guarded vol request.path.toLocalPath request.expectedSize
      (ShowsOne vol names (PartlyDone vol files listing partials conflict))
      (ShowsOne vol names (PartlyDone vol files listing partials conflict)) := by
    apply copy_guarded hnamed hlocal hname
    · intro held hheld d tree tree' hshows hd hne hfree hput
      exact partly_folder hc ha rfl hheld hshows hd (fun heq => absurd heq hne) hfree hput
    · intro held hheld
      exact partlyDone_act hheld ha
  exact (write_guards g hnamed.nonroot).weaken (fun _ h => h)
    ⟨fun _ _ h => h, fun _ _ h => h, fun _ h => h.elim id id⟩

/-- So does the call that makes a planned folder. -/
theorem mkdir_partly {env : Weather} (hc : AncestorClosed files) {path : RelPath}
    (ha : .mkdir path ∈ plannedActions vol.tables files listing vol.folding partials conflict) :
    Triple (fun w => ShowsOne vol names (PartlyDone vol files listing partials conflict) w.tree)
      (LocalEndpoint.mkdir vol env path)
      (Post.always fun w => ShowsOne vol names (PartlyDone vol files listing partials conflict) w.tree) := by
  have hfolder (d : List OsName) (tree tree' : LocalTree)
      (h : ShowsOne vol names (PartlyDone vol files listing partials conflict) tree)
      (hd : d ∈ path.toLocalPath.inits) (hfree : tree.find vol d = none)
      (hput : tree.put vol d (.dir true) = .ok tree') :
      ShowsOne vol names (PartlyDone vol files listing partials conflict) tree' := by
    obtain ⟨held, hheld, hshows⟩ := h
    have hbelow := (List.mem_inits _ _).mp hd
    exact partly_folder hc ha rfl hheld hshows hbelow (fun _ => rfl) hfree hput
  have hkeeps : Withstands
      (fun w => ShowsOne vol names (PartlyDone vol files listing partials conflict) w.tree)
      (LocalEndpoint.mkdir vol env path) (fun _ => True) := (createDirAll_guards hfolder).mapError
  exact Triple.weaken hkeeps (fun _ h => h) ⟨fun _ _ h => h.1, fun _ _ h => h, fun _ h => h⟩

end Partly

section Ended

variable {vol : Volume} {codec : SidecarCodec} {peer : Identity} {σ : Type} {ex : Executor σ}
  {source dest : Endpoint σ} {tree : σ → LocalTree} {files listing : Snapshot} {partials : Partials}
  {conflict : ConflictPolicy} {names : Set Key}

/-- The local call of an action, on a volume where it is killed. -/
def DiesIn (vol : Volume) (codec : SidecarCodec) (peer : Identity) (before after : LocalTree) : Action → Prop
  | .mkdir path => ∃ env w w', w.tree = before ∧ w'.tree = after ∧
      LocalEndpoint.mkdir vol env path w = (.died, w')
  | .copy path size modified _ _ => ∃ env offset input w w', w.tree = before ∧ w'.tree = after ∧
      LocalEndpoint.write vol env codec peer ⟨path, size, offset, modified⟩ input w = (.died, w')
  | .skip _ _ => False

/-- The actions a run has got through. -/
inductive Executor.Passes (ex : Executor σ) (source dest : Endpoint σ) :
    List Action → Report → Scene σ → Report → Scene σ → Prop
  | nil {report : Report} {s : Scene σ} : ex.Passes source dest [] report s report s
  | cons {a : Action} {as : List Action} {report report₁ report' : Report} {s s₁ s' : Scene σ}
      (hstep : ex.step source dest a report s = (.ok (), report₁, s₁))
      (hrest : ex.Passes source dest as report₁ s₁ report' s') :
      ex.Passes source dest (a :: as) report s report' s'

/-- Where the process is killed in a run of `actions`: between two calls, or inside one. -/
def KilledRun (vol : Volume) (codec : SidecarCodec) (peer : Identity) (ex : Executor σ)
    (source dest : Endpoint σ) (tree : σ → LocalTree) (actions : List Action) (world : σ)
    (after : LocalTree) : Prop :=
  ∃ done rest report s', actions = done ++ rest ∧
    ex.Passes source dest done Report.zero ⟨world, []⟩ report s' ∧
      (tree s'.world = after ∨ ∃ a ∈ rest.head?, DiesIn vol codec peer (tree s'.world) after a)

variable (on : OnVolume vol codec peer ex source dest tree) (hc : AncestorClosed files)
  (hu : Unreserved files)
  (hnamed : ∀ a ∈ plannedActions vol.tables files listing vol.folding partials conflict,
    a.isCopy = true → NamedApart vol names a.path)
include on hc hu hnamed

/-- A planned action leaves something partly done, whether the run goes on after it or not. -/
theorem OnVolume.step_partly {a : Action}
    (ha : a ∈ plannedActions vol.tables files listing vol.folding partials conflict) (report : Report)
    {s : Scene σ}
    (h : ShowsOne vol names (PartlyDone vol files listing partials conflict) (tree s.world)) :
    ShowsOne vol names (PartlyDone vol files listing partials conflict)
      (tree (ex.step source dest a report s).2.2.world) := by
  unfold Executor.step
  split
  · exact h
  · cases a with
    | skip path reason => exact (on.deliver _ _).symm ▸ h
    | mkdir path =>
      dsimp only
      unfold Executor.mkdir
      dsimp only
      obtain ⟨env, w, w', hw, hw', hrun⟩ := on.mkdir path s.world
      have hmade : ShowsOne vol names (PartlyDone vol files listing partials conflict)
          (tree (dest.mkdir path s.world).2) :=
        hw' ▸ (mkdir_partly hc ha).run_always (hw ▸ h) hrun
      split
      · exact hmade
      · rw [on.fail_same]
        exact hmade
    | copy path size modified resumeFrom reason =>
      dsimp only
      -- whatever a write has come to, it was a write of this action
      have hwrote {after : LocalTree} {answer : Except Error Unit}
          (hw : Wrote vol codec peer ⟨path, size, resumeFrom, modified⟩ (tree s.world) after answer) :
          ShowsOne vol names (PartlyDone vol files listing partials conflict) after := by
        obtain ⟨env, offset, input, w, w', hw, rfl, hrun⟩ := hw
        exact (write_partly hc hu ⟨path, size, offset, modified⟩ ha
          (hnamed _ ha rfl)).run_always (hw ▸ h) hrun
      rcases on.copy_cases ⟨path, size, resumeFrom, modified⟩ report s with
        ⟨e, s₁, hcopy, hleft⟩ | ⟨r, s₁, hcopy, hdone⟩
      · rw [hcopy, on.fail_same]
        rcases hleft with hsame | hleft
        · exact hsame.symm ▸ h
        · exact hwrote hleft
      · rw [hcopy]
        exact hwrote hdone

theorem OnVolume.runFrom_partly {since : ℕ} {as : List Action}
    (has : ∀ a ∈ as, a ∈ plannedActions vol.tables files listing vol.folding partials conflict)
    {report : Report} {s : Scene σ}
    (h : ShowsOne vol names (PartlyDone vol files listing partials conflict) (tree s.world)) :
    ShowsOne vol names (PartlyDone vol files listing partials conflict)
      (tree (ex.runFrom source dest since as report s).2.world) := by
  induction as generalizing report s with
  | nil => exact (on.deliver _ _).symm ▸ h
  | cons a as ih =>
    have hstep := on.step_partly hc hu hnamed (has a List.mem_cons_self) report h
    have hrest : ∀ b ∈ as, b ∈ plannedActions vol.tables files listing vol.folding partials conflict :=
      fun b hb => has b (List.mem_cons_of_mem a hb)
    rw [Executor.runFrom]
    split
    · rename_i r s₁ hs
      rw [hs] at hstep
      exact ih hrest hstep
    · rename_i r s₁ hs
      rw [hs] at hstep
      refine (Eq.trans (on.deliver _ _) (on.deliver _ _)).symm ▸ hstep
    · rename_i e r s₁ hs
      rw [hs] at hstep
      exact (on.deliver _ _).symm ▸ hstep

theorem OnVolume.passes_partly {as : List Action}
    (has : ∀ a ∈ as, a ∈ plannedActions vol.tables files listing vol.folding partials conflict)
    {report report' : Report} {s s' : Scene σ} (hpass : ex.Passes source dest as report s report' s')
    (h : ShowsOne vol names (PartlyDone vol files listing partials conflict) (tree s.world)) :
    ShowsOne vol names (PartlyDone vol files listing partials conflict) (tree s'.world) := by
  induction hpass with
  | nil => exact h
  | @cons a as report report₁ report' s s₁ s' hstep _ ih =>
    have hnext := on.step_partly hc hu hnamed (has a List.mem_cons_self) report h
    rw [hstep] at hnext
    exact ih (fun b hb => has b (List.mem_cons_of_mem a hb)) hnext

/-- A run that is killed, wherever that is, leaves something partly done. -/
theorem OnVolume.killed_partly {as : List Action}
    (has : ∀ a ∈ as, a ∈ plannedActions vol.tables files listing vol.folding partials conflict)
    {world : σ} {after : LocalTree}
    (h : ShowsOne vol names (PartlyDone vol files listing partials conflict) (tree world))
    (hkilled : KilledRun vol codec peer ex source dest tree as world after) :
    ShowsOne vol names (PartlyDone vol files listing partials conflict) after := by
  obtain ⟨done, rest, report, s', rfl, hpass, hend⟩ := hkilled
  have hthere := on.passes_partly hc hu hnamed (fun a ha => has a (List.mem_append_left _ ha)) hpass h
  rcases hend with rfl | ⟨a, hhead, hdies⟩
  · exact hthere
  · have ha := has a (List.mem_append_right _ (List.mem_of_mem_head? hhead))
    cases a with
    | skip path reason => exact hdies.elim
    | mkdir path =>
      obtain ⟨env, w, w', hw, rfl, hrun⟩ := hdies
      exact (mkdir_partly hc ha).run_always (hw ▸ hthere) hrun
    | copy path size modified resumeFrom reason =>
      obtain ⟨env, offset, input, w, w', hw, rfl, hrun⟩ := hdies
      exact (write_partly hc hu ⟨path, size, offset, modified⟩ ha
        (hnamed _ ha rfl)).run_always (hw ▸ hthere) hrun

end Ended

end MtpxCore
