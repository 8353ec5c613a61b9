import MtpxCore.ListingMoves
import MtpxCore.ExecutorModel
import MtpxCore.PlannerResumes

/-! The executor's run on the local endpoint, against the replay of its plan. A run in which
nothing fails leaves a volume that shows exactly the actions done, so the next scan, and the
plan made from it, find what was planned. -/
namespace MtpxCore

open CrashHoare

/-- An answer of an endpoint, as the end of a program that was not killed. -/
def outcomeOf {α : Type} : Except Error α → Outcome Error α
  | .ok a => .ok a
  | .error e => .err e

/-- The answer, and what the call does to the tree, are those of the program. -/
def Answers {α : Type} (m : Local α) (tree tree' : LocalTree) (answer : Except Error α) : Prop :=
  ∃ w w', w.tree = tree ∧ w'.tree = tree' ∧ m w = (outcomeOf answer, w')

/-- The destination of the executor is a local volume, on which nothing else is at work. -/
structure OnVolume (vol : Volume) (codec : SidecarCodec) (peer : Identity) {σ : Type}
    (ex : Executor σ) (source dest : Endpoint σ) (tree : σ → LocalTree) : Prop where
  deliver : ∀ e s, tree (ex.deliver e s) = tree s
  sleep : ∀ d s, tree (ex.sleep d s) = tree s
  read : ∀ path offset s, tree (source.read path offset s).2 = tree s
  resumeOffset : ∀ path requested s, ∃ env, Answers (LocalEndpoint.resumeOffset vol env path requested)
    (tree s) (tree (dest.resumeOffset path requested s).2) (dest.resumeOffset path requested s).1
  write : ∀ request input s, ∃ env, Answers (LocalEndpoint.write vol env codec peer request input)
    (tree s) (tree (dest.write request input s).2.2) (dest.write request input s).1
  mkdir : ∀ path s, ∃ env, Answers (LocalEndpoint.mkdir vol env path) (tree s)
    (tree (dest.mkdir path s).2) (dest.mkdir path s).1

section Calls

variable {vol : Volume} {env : Weather} {codec : SidecarCodec} {peer : Identity} {names : Set Key}
  {held : Store} {p : RelPath}

/-- Until its commit a write shows nothing, and then the file it was to write. -/
theorem write_shows (request : WriteRequest) {input : ByteStream}
    (ha : NamedApart vol names request.path) (hf : FoldersShow vol held request.path)
    {dir : List OsName} {name : String} (hlocal : request.path.toLocalPath = dir ++ [.utf8 name])
    (hname : isReservedName name = false) :
    Triple (fun w => Shows vol names held w.tree) (LocalEndpoint.write vol env codec peer request input)
      ⟨fun _ w => Shows vol names (Function.update held (request.path.key vol.tables vol.folding)
          (some ⟨.file, request.expectedSize⟩)) w.tree,
        fun _ w => Shows vol names held w.tree, fun _ => True⟩ := by
  have g : Guarded vol request.path.toLocalPath request.expectedSize (ShowsOne vol names {held})
      (ShowsOne vol names {Function.update held (request.path.key vol.tables vol.folding)
        (some ⟨.file, request.expectedSize⟩)}) := by
    refine copy_guarded ha hlocal hname ?_ ?_
    · intro x hx d tree tree' h hd hne hfree hput
      obtain rfl := Set.mem_singleton_iff.mp hx
      obtain rfl := hf.missing h hd hne hfree
      exact showsOne_singleton.mpr (h.put_root hfree hput)
    · intro x hx
      rw [Set.mem_singleton_iff.mp hx]
      rfl
  refine (write_guards g ha.nonroot).weaken (fun _ h => showsOne_singleton.mpr h)
    ⟨fun _ _ h => showsOne_singleton.mp h, fun _ _ h => showsOne_singleton.mp h, fun _ _ => trivial⟩

/-- Making a folder is never cancelled. -/
theorem mkdir_not_cancelled : Triple (fun _ => True) (LocalEndpoint.mkdir vol env p)
    ⟨fun _ _ => True, fun e _ => e ≠ .cancelled, fun _ => True⟩ := by
  have hany : Triple (fun _ => True) (createDirAll vol env p.toLocalPath)
      ⟨fun _ _ => True, fun _ _ => True, fun _ => True⟩ :=
    perform_triple (fun _ _ _ _ _ => trivial) (fun _ _ _ _ => trivial) (fun _ _ _ _ _ => trivial)
      (fun _ _ _ => trivial)
  refine hany.mapError.weaken (fun _ h => h) ⟨fun _ _ h => h, fun e _ h => ?_, fun _ h => h⟩
  obtain ⟨kind, rfl, -⟩ := h
  simp [localIo]

theorem resumeOffset_keeps {requested : ℕ} {tree : LocalTree} :
    Triple (fun w => w.tree = tree) (LocalEndpoint.resumeOffset vol env p requested)
      ⟨fun _ w => w.tree = tree, fun _ w => w.tree = tree, fun _ => True⟩ :=
  Triple.weaken (effectiveResume_guards (I := fun t => t = tree)) (fun _ h => h)
    ⟨fun _ _ h => h.1, fun _ _ h => h, fun _ _ => trivial⟩

end Calls

section Failures

variable {σ : Type} (ex : Executor σ) {source dest : Endpoint σ}

/-- Every failure is added to the report, unless the run was cancelled. -/
theorem fail_cases (report : Report) (path : RelPath) (e : Error) (s : Scene σ) :
    e = .cancelled ∧ (ex.fail report path e s).1 = .error .interrupted ∧
        (ex.fail report path e s).2.1 = report ∨
      e ≠ .cancelled ∧ (ex.fail report path e s).2.1.failed ≠ [] ∧
        report.failed <+: (ex.fail report path e s).2.1.failed ∧
        (ex.fail report path e s).1 ≠ .error .interrupted := by
  rw [Executor.fail]
  by_cases he : e = .cancelled
  · rw [if_pos he]
    exact Or.inl ⟨he, rfl, rfl⟩
  · rw [if_neg he]
    right
    dsimp only
    split
    · exact ⟨he, by simp, List.prefix_append _ _, by simp⟩
    · exact ⟨he, by simp, List.prefix_append _ _, by simp⟩

theorem fail_failed (report : Report) (path : RelPath) (e : Error) (s : Scene σ) :
    report.failed <+: (ex.fail report path e s).2.1.failed := by
  rcases fail_cases ex report path e s with ⟨-, -, heq⟩ | ⟨-, -, hpre, -⟩
  · rw [heq]
  · exact hpre

/-- No action takes a failure out of the report. -/
theorem step_failed (source dest : Endpoint σ) (a : Action) (report : Report) (s : Scene σ) :
    report.failed <+: (ex.step source dest a report s).2.1.failed := by
  unfold Executor.step
  split
  · exact List.prefix_rfl
  · cases a with
    | mkdir path =>
      dsimp only
      rw [Executor.mkdir]
      dsimp only
      split
      · exact List.prefix_rfl
      · exact fail_failed ex _ _ _ _
    | skip path reason => exact List.prefix_rfl
    | copy path size modified resumeFrom reason =>
      dsimp only
      rw [Executor.copy]
      split
      · exact fail_failed ex _ _ _ _
      · split
        · exact fail_failed ex _ _ _ _
        · exact List.prefix_rfl

theorem runFrom_failed {ex : Executor σ} {since : ℕ} {actions : List Action} {report report' : Report} {s s' : Scene σ}
    (h : ex.runFrom source dest since actions report s = (.ok report', s')) :
    report.failed <+: report'.failed := by
  induction actions generalizing report s with
  | nil =>
    cases h
    exact List.prefix_rfl
  | cons a as ih =>
    rw [Executor.runFrom] at h
    have hstep := step_failed ex source dest a report s
    split at h
    · rename_i r s₁ hs
      rw [hs] at hstep
      exact hstep.trans (ih h)
    · rename_i r s₁ hs
      rw [hs] at hstep
      cases h
      exact hstep
    · exact absurd (congrArg Prod.fst h) (by simp)

end Failures

section Executing

variable {vol : Volume} {codec : SidecarCodec} {peer : Identity} {σ : Type} {ex : Executor σ}
  {source dest : Endpoint σ} {tree : σ → LocalTree} (on : OnVolume vol codec peer ex source dest tree)
include on

theorem OnVolume.resumeOffset_same (path : RelPath) (requested : ℕ) (s : σ) :
    tree (dest.resumeOffset path requested s).2 = tree s := by
  obtain ⟨env, w, w', hw, hw', hrun⟩ := on.resumeOffset path requested s
  rw [← hw']
  cases ha : (dest.resumeOffset path requested s).1 with
  | ok offset =>
    rw [ha] at hrun
    exact resumeOffset_keeps.run_ok hw hrun
  | error e =>
    rw [ha] at hrun
    exact resumeOffset_keeps.run_err hw hrun

theorem OnVolume.backOff_same (deadline fuel : ℕ) (s : Scene σ) :
    tree (ex.backOff deadline fuel s).2.world = tree s.world := by
  induction fuel generalizing s with
  | zero => rfl
  | succ fuel ih =>
    rw [Executor.backOff]
    split
    · split
      · rfl
      · exact (ih _).trans (on.sleep _ _)
    · rfl

theorem OnVolume.reportAndBackOff_same (path : RelPath) (e : MtpError) (backoff : ℕ) (s : Scene σ) :
    tree (ex.reportAndBackOff path e backoff s).2.world = tree s.world := by
  rw [Executor.reportAndBackOff]
  split
  · rfl
  · exact (on.backOff_same _ _ _).trans (on.deliver _ _)

/-- Opening the source, however often it is tried, leaves the volume alone. -/
theorem OnVolume.readWithRetry_same (path : RelPath) (offset retries backoff : ℕ) (s : Scene σ) :
    tree (ex.readWithRetry source path offset retries backoff s).2.world = tree s.world := by
  induction retries generalizing backoff s with
  | zero => exact on.read path offset s.world
  | succ retries ih =>
    have hread := on.read path offset s.world
    rw [Executor.readWithRetry]
    cases hr : source.read path offset s.world with
    | mk answer world =>
      rw [hr] at hread
      dsimp only at hread ⊢
      split
      · rename_i e
        split
        · have hback := on.reportAndBackOff_same path e backoff
            ⟨world, s.trace ++ [.call (.read path offset)]⟩
          split
          · rename_i s' hb
            rw [hb] at hback
            exact hback.trans hread
          · rename_i s' hb
            rw [hb] at hback
            exact (ih _ _).trans (hback.trans hread)
        · exact hread
      · exact hread

theorem OnVolume.fail_same (report : Report) (path : RelPath) (e : Error) (s : Scene σ) :
    tree (ex.fail report path e s).2.2.world = tree s.world := by
  rw [Executor.fail]
  split
  · rfl
  · dsimp only
    split
    · rfl
    · exact on.deliver _ _

/-- A copy of `request` whose write ended so, whatever offset it went on from. -/
def Wrote (vol : Volume) (codec : SidecarCodec) (peer : Identity) (request : WriteRequest)
    (before after : LocalTree) (answer : Except Error Unit) : Prop :=
  ∃ env offset input, Answers
    (LocalEndpoint.write vol env codec peer { request with resumeFrom := offset } input) before after answer

theorem OnVolume.copyOne_cases (request : WriteRequest) (s : Scene σ) :
    match ex.copyOne source dest request s with
    | (.error e, s') => tree s'.world = tree s.world ∨
        Wrote vol codec peer request (tree s.world) (tree s'.world) (.error e)
    | (.ok _, s') => Wrote vol codec peer request (tree s.world) (tree s'.world) (.ok ()) := by
  unfold Executor.copyOne
  dsimp only
  have hread := on.readWithRetry_same request.path request.resumeFrom MAX_READ_RETRIES RETRY_BACKOFF s
  cases hr : ex.readWithRetry source request.path request.resumeFrom MAX_READ_RETRIES RETRY_BACKOFF s with
  | mk answer s₁ =>
    rw [hr] at hread
    cases answer with
    | error e => exact Or.inl hread
    | ok raw =>
      dsimp only at hread ⊢
      obtain ⟨env, hwrite⟩ := on.write request raw s₁.world
      rw [hread] at hwrite
      cases ha : (dest.write request raw s₁.world).1 with
      | error e =>
        rw [ha] at hwrite
        exact Or.inr ⟨env, request.resumeFrom, raw, hwrite⟩
      | ok u =>
        rw [ha] at hwrite
        refine ⟨env, request.resumeFrom, raw, ?_⟩
        unfold Executor.emit
        dsimp only
        rw [on.deliver]
        exact hwrite

theorem OnVolume.copy_cases (request : WriteRequest) (report : Report) (s : Scene σ) :
    (∃ e s₁, ex.copy source dest request report s = ex.fail report request.path e s₁ ∧
      (tree s₁.world = tree s.world ∨
        Wrote vol codec peer request (tree s.world) (tree s₁.world) (.error e))) ∨
    ∃ report' s', ex.copy source dest request report s = (.ok (), report', s') ∧
      Wrote vol codec peer request (tree s.world) (tree s'.world) (.ok ()) := by
  rw [Executor.copy]
  -- settling the offset looks at the part and leaves it alone
  have hoffset := on.resumeOffset_same request.path request.resumeFrom s.world
  unfold Executor.settle
  dsimp only
  cases ha : (dest.resumeOffset request.path request.resumeFrom s.world).1 with
  | error e => exact Or.inl ⟨e, _, rfl, Or.inl hoffset⟩
  | ok resumeFrom =>
    dsimp only
    have hcopy := on.copyOne_cases { request with resumeFrom := resumeFrom }
      (ex.emit (.fileStarted request.path request.expectedSize resumeFrom)
        ⟨(dest.resumeOffset request.path request.resumeFrom s.world).2,
          s.trace ++ [.call (.resumeOffset request.path request.resumeFrom)]⟩)
    have hsame : tree (ex.emit (.fileStarted request.path request.expectedSize resumeFrom)
        ⟨(dest.resumeOffset request.path request.resumeFrom s.world).2,
          s.trace ++ [.call (.resumeOffset request.path request.resumeFrom)]⟩).world = tree s.world :=
      (on.deliver _ _).trans hoffset
    rw [hsame] at hcopy
    split
    · rename_i e s₁ hs
      rw [hs] at hcopy
      refine Or.inl ⟨e, s₁, rfl, hcopy.imp id fun h => ?_⟩
      exact h
    · rename_i bytes s₁ hs
      rw [hs] at hcopy
      exact Or.inr ⟨_, s₁, rfl, hcopy⟩

/-- The volume can take the action: the folders above are there, and a copy lands under a name
that is no transfer name. -/
def Fits (vol : Volume) (names : Set Key) (held : Store) : Action → Prop
  | .mkdir path => path.segments ≠ [] ∧ FoldersShow vol held path
  | .copy path _ _ _ _ => NamedApart vol names path ∧ FoldersShow vol held path ∧
      ∃ dir name, path.toLocalPath = dir ++ [.utf8 name] ∧ isReservedName name = false
  | .skip _ _ => True

variable {names : Set Key} {held : Store} {a : Action} {report report' : Report} {s s' : Scene σ}

/-- An action after which the run goes on, and no failure was reported, shows as replayed. -/
theorem OnVolume.step_shows (hfits : Fits vol names held a)
    (hshows : Shows vol names held (tree s.world))
    (hs : ex.step source dest a report s = (.ok (), report', s')) (hclean : report'.failed = []) :
    Shows vol names (held.act vol.tables vol.folding a) (tree s'.world) := by
  unfold Executor.step at hs
  split at hs
  · exact absurd (congrArg Prod.fst hs) (by simp)
  · -- a failure would be in the report
    have hfail {path : RelPath} {e : Error} {s₁ : Scene σ}
        (hf : ex.fail report path e s₁ = (.ok (), report', s')) : False := by
      rcases fail_cases ex report path e s₁ with ⟨-, hstop, -⟩ | ⟨-, hne, -⟩
      · rw [hf] at hstop
        exact absurd hstop (by simp)
      · rw [hf] at hne
        exact hne hclean
    cases a with
    | mkdir path =>
      dsimp only at hs
      unfold Executor.mkdir at hs
      dsimp only at hs
      obtain ⟨env, w, w', hw, hw', hrun⟩ := on.mkdir path s.world
      cases ha : (dest.mkdir path s.world).1 with
      | error e =>
        rw [ha] at hs
        exact (hfail hs).elim
      | ok u =>
        rw [ha] at hs hrun
        cases hs
        rw [← hw']
        exact (mkdir_shows hfits.1 hfits.2).run_ok (hw ▸ hshows) hrun
    | skip path reason =>
      cases hs
      exact (on.deliver _ _).symm ▸ hshows
    | copy path size modified resumeFrom reason =>
      dsimp only at hs
      rcases on.copy_cases ⟨path, size, resumeFrom, modified⟩ report s with
        ⟨e, s₁, hcopy, -⟩ | ⟨r, s₁, hcopy, env, offset, input, w, w', hw, hw', hrun⟩
      · rw [hcopy] at hs
        exact (hfail hs).elim
      · rw [hcopy] at hs
        cases hs
        obtain ⟨hapart, hfolders, dir, name, hlocal, hname⟩ := hfits
        rw [← hw']
        exact (write_shows ⟨path, size, offset, modified⟩ hapart hfolders hlocal
          hname).run_ok (hw ▸ hshows) hrun

/-- An action that the run is cancelled at shows nothing. -/
theorem OnVolume.step_interrupted (hfits : Fits vol names held a)
    (hshows : Shows vol names held (tree s.world))
    (hs : ex.step source dest a report s = (.error .interrupted, report', s')) :
    Shows vol names held (tree s'.world) := by
  unfold Executor.step at hs
  split at hs
  · cases hs
    exact hshows
  · -- only a cancelled action ends the run so, and it changes nothing more
    have hfail {path : RelPath} {e : Error} {s₁ : Scene σ}
        (hf : ex.fail report path e s₁ = (.error .interrupted, report', s')) :
        e = .cancelled ∧ s' = s₁ := by
      rcases fail_cases ex report path e s₁ with ⟨rfl, -, -⟩ | ⟨-, -, -, hne⟩
      · rw [Executor.fail, if_pos rfl] at hf
        exact ⟨rfl, (congrArg (fun r => r.2.2) hf).symm⟩
      · rw [hf] at hne
        exact absurd rfl hne
    cases a with
    | mkdir path =>
      dsimp only at hs
      unfold Executor.mkdir at hs
      dsimp only at hs
      obtain ⟨env, w, w', hw, hw', hrun⟩ := on.mkdir path s.world
      cases ha : (dest.mkdir path s.world).1 with
      | error e =>
        rw [ha] at hs hrun
        exact absurd (hfail hs).1 (mkdir_not_cancelled.run_err trivial hrun)
      | ok u =>
        rw [ha] at hs
        exact absurd (congrArg Prod.fst hs) (by simp)
    | skip path reason => exact absurd (congrArg Prod.fst hs) (by simp [Executor.skip])
    | copy path size modified resumeFrom reason =>
      dsimp only at hs
      rcases on.copy_cases ⟨path, size, resumeFrom, modified⟩ report s with
        ⟨e, s₁, hcopy, hleft⟩ | ⟨r, s₁, hcopy, -⟩
      · rw [hcopy] at hs
        obtain ⟨-, rfl⟩ := hfail hs
        rcases hleft with hsame | ⟨env, offset, input, w, w', hw, hw', hrun⟩
        · rwa [hsame]
        · obtain ⟨hapart, hfolders, dir, name, hlocal, hname⟩ := hfits
          rw [← hw']
          exact (write_shows ⟨path, size, offset, modified⟩ hapart hfolders hlocal
            hname).run_err (hw ▸ hshows) hrun
      · rw [hcopy] at hs
        exact absurd (congrArg Prod.fst hs) (by simp)

end Executing

section Planned

variable {vol : Volume} {source dest : Snapshot} {partials : Partials} {conflict : ConflictPolicy}
  {names : Set Key}

/-- Every entry has a last name, and it is no transfer name. -/
def Unreserved (source : Snapshot) : Prop :=
  ∀ e ∈ source.entries, ∃ dir name, e.path.segments = dir ++ [name] ∧ isReservedName name = false

/-- The names the copies use for their transfer files, as the volume compares them. -/
def transferKeys (vol : Volume) (actions : List Action) : Set Key :=
  {key | ∃ a ∈ actions, a.isCopy = true ∧ ∃ x, x ≠ Cell.final ∧ key = cellKey vol a.path.toLocalPath x}

/-- The folders above a path show if the one it is in does. -/
theorem Shows.foldersShow {held : Store} {tree : LocalTree} {p : RelPath}
    (h : Shows vol names held tree) (hready : ParentReady vol.tables vol.folding held p) :
    FoldersShow vol held p := by
  intro q hq hroot hne
  have hproper : q.segments <+: p.segments.dropLast := by
    rcases List.eq_nil_or_concat p.segments with hnil | ⟨dir, name, hp⟩
    · rw [hnil] at hq
      exact absurd (List.prefix_nil.mp hq) hroot
    · rw [hp, List.concat_eq_append] at hq hne ⊢
      rw [List.dropLast_concat]
      exact (List.prefix_concat_iff.mp hq).resolve_left hne
  have hp : p.segments ≠ [] := by
    rintro hnil
    rw [hnil] at hproper
    exact hroot (List.prefix_nil.mp hproper)
  let parent : RelPath := ⟨p.segments.dropLast, fun s hs => p.valid s (List.dropLast_subset _ hs)⟩
  have hparent : p.parent = some parent := by
    rw [RelPath.parent, if_neg hp]
  have htop : parent.segments ≠ [] := fun hnil => hroot (List.prefix_nil.mp (hnil ▸ hproper))
  obtain ⟨x, hx, -⟩ := hready parent hparent htop
  by_cases hself : q.segments = parent.segments
  · rw [RelPath.key, hself]
    rw [RelPath.key] at hx
    rw [hx]
    simp
  · obtain ⟨node, hm, hkey, -⟩ := h.exists_node hx
    -- the folder `q` lies above what is under the name of the parent
    have habove : node.path.take q.segments.length ≠ node.path := by
      intro heq
      have hlen := congrArg List.length heq
      have hle := Volume.length_eq_of_fold hkey
      rw [List.length_take] at hlen
      rw [RelPath.toLocalPath, List.length_map] at hle
      have hlt := lt_of_le_of_ne hproper.length_le fun hl => hself (hproper.eq_of_length hl)
      have hparentlen : parent.segments.length = p.segments.dropLast.length := rfl
      omega
    obtain ⟨readable, hfolder⟩ := h.wellFormed.above (List.take_prefix _ _) hm habove
    have hplace : vol.foldPath (node.path.take q.segments.length) = vol.foldPath q.toLocalPath := by
      rw [Volume.foldPath, List.map_take]
      rw [Volume.foldPath, Volume.foldPath] at hkey
      rw [hkey, ← List.map_take, Volume.foldPath, RelPath.toLocalPath, RelPath.toLocalPath,
        ← List.map_take]
      rw [show parent.segments.take q.segments.length = q.segments from
        (List.prefix_iff_eq_take.mp hproper).symm]
    rw [h.held_at hfolder hplace]
    intro hnone
    have hne' : node.path.take q.segments.length ≠ [] := by
      intro hnil
      have hlen := Volume.length_eq_of_fold hplace
      rw [hnil, RelPath.toLocalPath, List.length_map] at hlen
      exact hroot (List.length_eq_zero_iff.mp hlen.symm)
    rw [Node.held, if_neg (by simp [hne', Node.isTransferFile_dir])] at hnone
    exact absurd hnone (by simp [kindOf])

/-- Whatever a plan comes to, the volume can take it. -/
theorem planned_fits (hc : AncestorClosed source) (hu : Unreserved source)
    (hnamed : ∀ a ∈ plannedActions vol.tables source dest vol.folding partials conflict,
      a.isCopy = true → NamedApart vol names a.path) {pre post : List Action} {a : Action}
    (hsplit : plannedActions vol.tables source dest vol.folding partials conflict = pre ++ a :: post)
    {tree : LocalTree} (hshows : Shows vol names
      ((Store.of vol.tables vol.folding dest).replay vol.tables vol.folding pre) tree) :
    Fits vol names ((Store.of vol.tables vol.folding dest).replay vol.tables vol.folding pre) a := by
  have ha : a ∈ plannedActions vol.tables source dest vol.folding partials conflict :=
    hsplit ▸ List.mem_append_right _ List.mem_cons_self
  cases a with
  | skip path reason => trivial
  | mkdir path =>
    obtain ⟨e, he, rfl, -⟩ := (mem_mkdir_iff hc).mp ha
    exact ⟨hc.nonroot e he, hshows.foldersShow (parentReady hc hsplit rfl)⟩
  | copy path size modified resumeFrom reason =>
    refine ⟨hnamed _ ha rfl, hshows.foldersShow (parentReady hc hsplit rfl), ?_⟩
    obtain ⟨e, he, -, hep, -⟩ := copied_at hc ha rfl
    obtain ⟨dir, name, hseg, hname⟩ := hu e he
    have hp : e.path = path := hep
    refine ⟨dir.map OsName.utf8, name, ?_, hname⟩
    rw [← hp, RelPath.toLocalPath, hseg, List.map_append]
    rfl

end Planned

section Run

variable {vol : Volume} {codec : SidecarCodec} {peer : Identity} {σ : Type} {ex : Executor σ}
  {source dest : Endpoint σ} {tree : σ → LocalTree} {files listing : Snapshot} {partials : Partials}
  {conflict : ConflictPolicy} {names : Set Key}

/-- A run in which nothing fails shows what it has done, and has done all unless it was
interrupted. -/
theorem OnVolume.runFrom_shows (on : OnVolume vol codec peer ex source dest tree)
    (hc : AncestorClosed files) (hu : Unreserved files)
    (hnamed : ∀ a ∈ plannedActions vol.tables files listing vol.folding partials conflict,
      a.isCopy = true → NamedApart vol names a.path) {since : ℕ} {pre as : List Action}
    (hsplit : plannedActions vol.tables files listing vol.folding partials conflict = pre ++ as)
    {report report' : Report} {s s' : Scene σ} (hshows : Shows vol names
      ((Store.of vol.tables vol.folding listing).replay vol.tables vol.folding pre) (tree s.world))
    (hrun : ex.runFrom source dest since as report s = (.ok report', s'))
    (hclean : report'.failed = []) : ∃ done rest, as = done ++ rest ∧
      (report'.interrupted = false → rest = []) ∧ Shows vol names
        ((Store.of vol.tables vol.folding listing).replay vol.tables vol.folding (pre ++ done))
        (tree s'.world) := by
  induction as generalizing pre report s with
  | nil =>
    cases hrun
    refine ⟨[], [], rfl, fun _ => rfl, ?_⟩
    rw [List.append_nil]
    exact (on.deliver _ _).symm ▸ hshows
  | cons a as ih =>
    have hfits := planned_fits hc hu hnamed hsplit hshows
    rw [Executor.runFrom] at hrun
    split at hrun
    · rename_i r s₁ hs
      -- failures are only ever added
      have hclean' : r.failed = [] := by
        have hpre := runFrom_failed hrun
        rw [hclean] at hpre
        exact List.prefix_nil.mp hpre
      have hshows₁ := on.step_shows hfits hshows hs hclean'
      have hreplay : ((Store.of vol.tables vol.folding listing).replay vol.tables vol.folding pre).act
          vol.tables vol.folding a =
          (Store.of vol.tables vol.folding listing).replay vol.tables vol.folding (pre ++ [a]) := by
        rw [Store.replay, Store.replay, List.foldl_append]
        rfl
      rw [hreplay] at hshows₁
      obtain ⟨done, rest, hdone, hrest, hfinal⟩ := ih (by rw [hsplit]; simp) hshows₁ hrun
      refine ⟨a :: done, rest, by rw [hdone]; rfl, hrest, ?_⟩
      rw [List.append_assoc] at hfinal
      exact hfinal
    · -- the action it is cancelled at is not done
      rename_i r s₁ hs
      have hshows₁ := on.step_interrupted hfits hshows hs
      cases hrun
      refine ⟨[], a :: as, rfl, fun hnot => absurd hnot (by simp), ?_⟩
      rw [List.append_nil]
      unfold Executor.emit
      dsimp only
      rw [on.deliver, on.deliver]
      exact hshows₁
    · exact absurd (congrArg Prod.fst hrun) (by simp)

end Run

end MtpxCore
