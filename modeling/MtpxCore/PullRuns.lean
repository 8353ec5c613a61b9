import MtpxCore.PartWriterLeaves
import MtpxCore.LocalFindings
import MtpxCore.PlannerFailPass

/-! Whole pulls, as the local side sees them: a scan, a plan, and the plan's actions one after
the other, until the run ends or is ended. -/
namespace MtpxCore

open CrashHoare

section Actions

variable (vol : Volume) (env : Weather) (codec : SidecarCodec) (peer : Identity)

/-- `Executor::settle` and `Executor::copy_one` on the local side; `read` is what opening the
source stream at an offset comes to, retries included. -/
def LocalEndpoint.copyOne (request : WriteRequest) (read : ℕ → Except Error ByteStream) :
    Local Unit := do
  let resumeFrom ← LocalEndpoint.resumeOffset vol env request.path request.resumeFrom
  match read resumeFrom with
  | .error e => CrashM.fail e
  | .ok input => LocalEndpoint.write vol env codec peer { request with resumeFrom := resumeFrom } input

/-- The streams a source may open for a file, at an offset. -/
abbrev Streams := RelPath → Fingerprint → ℕ → ByteStream → Prop

/-- What one action can do to the tree, and how it can end. -/
def Acts (streams : Streams) : Action → LocalTree → Outcome Error Unit → LocalTree → Prop
  | .skip _ _, tree, o, tree' => o = .ok () ∧ tree' = tree
  | .mkdir path, tree, o, tree' => ∃ env w w', w.tree = tree ∧ w'.tree = tree' ∧
      LocalEndpoint.mkdir vol env path w = (o, w')
  | .copy path size modified resumeFrom _, tree, o, tree' => ∃ env read w w', w.tree = tree ∧
      w'.tree = tree' ∧
      (∀ offset input, read offset = .ok input → streams path ⟨size, modified⟩ offset input) ∧
      LocalEndpoint.copyOne vol env codec peer ⟨path, size, resumeFrom, modified⟩ read w = (o, w')

/-- The tree after some of a plan's actions, each begun in a state that meets `C`. After any
action the run may end; a killed one ends there. -/
inductive Runs (streams : Streams) (C : Action → LocalTree → Prop) :
    List Action → LocalTree → LocalTree → Prop
  | stop (actions : List Action) (tree : LocalTree) : Runs streams C actions tree tree
  | last {a : Action} {as : List Action} {o : Outcome Error Unit} {tree tree' : LocalTree} :
      C a tree → Acts vol codec peer streams a tree o tree' → Runs streams C (a :: as) tree tree'
  | next {a : Action} {as : List Action} {o : Outcome Error Unit} {tree tree' tree'' : LocalTree} :
      C a tree → Acts vol codec peer streams a tree o tree' → o ≠ .died →
      Runs streams C as tree' tree'' → Runs streams C (a :: as) tree tree''

end Actions

/-- One pull: whom the files come from, what was listed there, and how it is planned. A
listing never names its own folder. -/
structure Pull where
  peer : Identity
  source : Snapshot
  only : Option String
  opts : TransferOptions
  named : ∀ e ∈ source.entries, e.path.segments ≠ []

/-- A pull can come to plan these actions when it scans `tree`. -/
def Pull.Plans (pull : Pull) (vol : Volume) (codec : SidecarCodec) (tree : LocalTree)
    (actions : List Action) : Prop :=
  ∃ label cancelled result p,
    scanLocal vol codec tree label vol.folding pull.peer pull.only cancelled = .ok result ∧
      plan vol.tables pull.source result.snapshot result.folding result.partials pull.opts = .ok p ∧
      p.actions = actions

section Planned

variable {tables : CaseTables} {source dest : Snapshot} {folding : NameFolding} {partials : Partials}
  {opts : TransferOptions} {p : Plan} {path : RelPath} {size resumeFrom : ℕ}
  {modified : Option ModifiedTime} {reason : CopyReason}

/-- Every copy is of a file of the source, from the offset its partial allows, and the
destination has nothing there or a file of another size that may be replaced. -/
theorem planned_copy (h : plan tables source dest folding partials opts = .ok p)
    (hm : Action.copy path size modified resumeFrom reason ∈ p.actions) :
    ∃ e ∈ source.entries, e.path = path ∧ e.kind = .file ∧ e.size = size ∧ e.modified = modified ∧
      resumeFrom = resumeOffset e (partials.get path) ∧
      ∀ x, destEntry tables dest folding e = some x → isConflict e x = true ∧ opts.conflict ≠ .skip := by
  rw [plan_ok h] at hm
  obtain ⟨e, v, hv, ha⟩ := mem_plannedActions.mp hm
  obtain ⟨c, -, -, -, -, hverdict, -⟩ := verdict_split hv
  -- no other verdict has a copy in it
  have hcopy : v = .file ∧ decideFile e (destEntry tables dest folding e) (partials.get e.path)
      opts.conflict = .copy path size modified resumeFrom reason := by
    cases v with
    | blocked r => exact absurd (Option.some.inj ha) (by simp [skip])
    | collision => exact absurd (Option.some.inj ha) (by simp [skip])
    | directory d =>
      cases d with
      | mkdir => exact absurd (Option.some.inj ha) (by simp)
      | present => exact absurd ha (by simp [Verdict.action])
      | blocked => exact absurd (Option.some.inj ha) (by simp [skip])
    | file => exact ⟨rfl, Option.some.inj ha⟩
  obtain ⟨hfile, hcopy⟩ := hcopy
  have hkind : e.kind = .file := by
    rw [hfile, Course.verdict] at hverdict
    cases hk : e.kind with
    | file => rfl
    | dir =>
      rw [hk] at hverdict
      split at hverdict
      · exact absurd hverdict (by simp)
      · split at hverdict <;> exact absurd hverdict (by simp)
  rcases decideFile_cases e (destEntry tables dest folding e) (partials.get e.path) opts.conflict with
    ⟨r, hd, hdest⟩ | ⟨r, x, hd, -⟩
  · cases hcopy.symm.trans hd
    refine ⟨e, mem_of_verdict hv, rfl, hkind, rfl, rfl, rfl, ?_⟩
    intro x hx
    rcases hdest with hnone | ⟨y, hy, -, hsize, hpol⟩
    · exact absurd (hnone.symm.trans hx) (by simp)
    · cases hy.symm.trans hx
      exact ⟨by simp [isConflict, Ne.symm hsize], hpol⟩
  · exact absurd (hcopy.symm.trans hd) (by simp)

/-- Unless the source wins, a file is copied only where the destination has nothing. -/
theorem planned_copy_absent (h : plan tables source dest folding partials opts = .ok p)
    (hpolicy : opts.conflict ≠ .sourceWins)
    (hm : Action.copy path size modified resumeFrom reason ∈ p.actions) :
    ∃ e ∈ source.entries, e.path = path ∧ e.kind = .file ∧ destEntry tables dest folding e = none := by
  obtain ⟨e, he, hp, hkind, -, -, -, hdest⟩ := planned_copy h hm
  refine ⟨e, he, hp, hkind, ?_⟩
  cases hx : destEntry tables dest folding e with
  | none => rfl
  | some x =>
    obtain ⟨hconf, hskip⟩ := hdest x hx
    have hfail : opts.conflict = .fail := by
      cases hc : opts.conflict with
      | fail => rfl
      | sourceWins => exact absurd hc hpolicy
      | skip => exact absurd hc hskip
    -- the conflict pass would have reported the file
    have hmem := mem_collectConflicts.mpr ⟨e, he, rfl, Or.inr ⟨x, hx, hconf⟩⟩
    rw [plan_eq, hfail, if_pos] at h
    · exact absurd h (by simp)
    · simpa using List.ne_nil_of_mem hmem

end Planned

section Effects

variable {vol : Volume} {codec : SidecarCodec} {peer : Identity} {streams : Streams}
  {C : Action → LocalTree → Prop} {tree tree' : LocalTree} {o : Outcome Error Unit}

theorem resumeOffset_triple {env : Weather} {path : RelPath} {requested : ℕ}
    (hpath : path.segments ≠ []) :
    Triple (fun s => s.tree = tree) (LocalEndpoint.resumeOffset vol env path requested)
      ⟨fun r s => s.tree = tree ∧ r = resumePoint vol (tree.get vol (localPartPath path.toLocalPath))
          requested,
        fun _ s => s.tree = tree, fun s => s.tree = tree⟩ := by
  have hlook : Triple (fun s => s.tree = tree)
      (metadata vol env (localPartPath path.toLocalPath))
      ⟨fun _ s => s.tree = tree, fun _ s => s.tree = tree, fun s => s.tree = tree⟩ := by
    refine (perform_reads (R := fun t => t = tree) ?_ (fun _ _ => rfl)).weaken (fun _ h => h)
      ⟨fun _ _ h => h.1, fun _ _ h => h, fun _ h => h⟩
    intro t m t' h
    split at h
    · exact absurd h (by simp)
    · exact absurd h (by simp)
    · exact (congrArg Prod.snd (Except.ok.inj h)).symm
  have hkeep : Triple (fun s => s.tree = tree) (LocalEndpoint.resumeOffset vol env path requested)
      ⟨fun _ s => s.tree = tree, fun _ s => s.tree = tree, fun s => s.tree = tree⟩ := by
    unfold LocalEndpoint.resumeOffset effectiveResume
    split
    · exact Triple.pure (fun s h => h)
    · refine hlook.attempt.bind (fun r => ?_) (fun _ _ h => h.elim) (fun _ h => h)
      cases r with
      | ok m => exact Triple.pure (fun s h => h)
      | error kind =>
        cases kind with
        | notFound => exact Triple.pure (fun s h => h)
        | _ => exact Triple.fail (fun s h => h)
  have hk := (nameable vol hpath).injective
  -- the first triple keeps the tree, the second tells the offset from the cells
  intro s hs
  have hoffset : Triple (fun s' => s' = s) (LocalEndpoint.resumeOffset vol env path requested)
      ⟨fun r _ => r = resumePoint vol (tree.get vol (localPartPath path.toLocalPath)) requested,
        fun _ _ => True, fun _ => True⟩ := by
    refine (effectiveResume_triple hk).weaken (fun s' hs' => onDisk_start hs' _ hk)
      ⟨?_, fun _ _ _ => trivial, fun _ _ => trivial⟩
    intro r s' h
    rw [← hs]
    exact h.2
  have hsame : Triple (fun s' => s' = s) (LocalEndpoint.resumeOffset vol env path requested)
      ⟨fun _ s => s.tree = tree, fun _ s => s.tree = tree, fun s => s.tree = tree⟩ :=
    hkeep.weaken (fun s' hs' => hs' ▸ hs) ⟨fun _ _ h => h, fun _ _ h => h, fun _ h => h⟩
  have hboth : Triple (fun s' => s' = s) (LocalEndpoint.resumeOffset vol env path requested)
      ⟨fun r s => s.tree = tree ∧ r = resumePoint vol (tree.get vol (localPartPath path.toLocalPath))
          requested,
        fun _ s => s.tree = tree, fun s => s.tree = tree⟩ :=
    (hsame.both hoffset).weaken (fun _ h => h) ⟨fun _ _ h => h, fun _ _ h => h.1, fun _ h => h.1⟩
  exact hboth s rfl

/-- A copy leaves the tree as it was, or as a write leaves it that goes on from the part that
is there. -/
def Carried (vol : Volume) (codec : SidecarCodec) (peer : Identity) (streams : Streams)
    (request : WriteRequest) (tree tree' : LocalTree) : Prop :=
  tree' = tree ∨ ∃ offset input,
    offset = resumePoint vol (tree.get vol (localPartPath request.path.toLocalPath))
      request.resumeFrom ∧
    streams request.path ⟨request.expectedSize, request.modified⟩ offset input ∧
    Leaves vol codec peer { request with resumeFrom := offset } input tree tree'

theorem copyOne_triple {env : Weather} {request : WriteRequest}
    {read : ℕ → Except Error ByteStream} (hpath : request.path.segments ≠ [])
    (hread : ∀ offset input, read offset = .ok input →
      streams request.path ⟨request.expectedSize, request.modified⟩ offset input) :
    Triple (fun s => s.tree = tree) (LocalEndpoint.copyOne vol env codec peer request read)
      (Post.always fun s => Carried vol codec peer streams request tree s.tree) := by
  unfold LocalEndpoint.copyOne
  refine (resumeOffset_triple hpath).bind (fun offset => ?_) (fun _ _ h => Or.inl h)
    (fun _ h => Or.inl h)
  cases hr : read offset with
  | error e => exact Triple.fail (fun s h => Or.inl h.1)
  | ok input =>
    apply Triple.given
    intro hoffset s hs
    have hleaves {s' : World} (h : Leaves vol codec peer { request with resumeFrom := offset } input
        s.tree s'.tree) : Carried vol codec peer streams request tree s'.tree := by
      rw [hs] at h
      exact Or.inr ⟨offset, input, hoffset, hread offset input hr, h⟩
    have hsettled : ({ request with resumeFrom := offset } : WriteRequest).path.segments ≠ [] := hpath
    have hwrite : Triple (fun s' => s' = s)
        (LocalEndpoint.write vol env codec peer { request with resumeFrom := offset } input)
        (Post.always fun s' => Carried vol codec peer streams request tree s'.tree) :=
      (write_leaves hsettled).weaken (fun _ h => h)
        ⟨fun _ _ h => hleaves h, fun _ _ h => hleaves h, fun _ h => hleaves h⟩
    exact hwrite s rfl

theorem Acts.mkdir {path : RelPath} (h : Acts vol codec peer streams (.mkdir path) tree o tree') :
    Grown path.segments.length (tree.disk vol) (tree'.disk vol) := by
  obtain ⟨env, w, w', rfl, rfl, hrun⟩ := h
  have hlen : path.toLocalPath.length = path.segments.length := List.length_map _
  have hspec : Triple (fun s => s.tree.disk vol = w.tree.disk vol ∧ True)
      (LocalEndpoint.mkdir vol env path)
      (Post.always fun s => Grown path.segments.length (w.tree.disk vol) (s.tree.disk vol)) := by
    unfold LocalEndpoint.mkdir
    refine (createDirAll_triple (R := fun _ => True) fun _ _ _ _ _ _ => trivial).mapError.weaken
      (fun _ h => h) ⟨?_, ?_, ?_⟩
    · intro u s h
      exact hlen ▸ h.1
    · intro e s h
      obtain ⟨kind, -, h⟩ := h
      exact hlen ▸ h.1
    · intro s h
      exact hlen ▸ h
  exact hspec.run_always ⟨rfl, trivial⟩ hrun

theorem Acts.copy {path : RelPath} {size resumeFrom : ℕ} {modified : Option ModifiedTime}
    {reason : CopyReason} (hpath : path.segments ≠ [])
    (h : Acts vol codec peer streams (.copy path size modified resumeFrom reason) tree o tree') :
    Carried vol codec peer streams ⟨path, size, resumeFrom, modified⟩ tree tree' := by
  obtain ⟨env, read, w, w', rfl, rfl, hread, hrun⟩ := h
  exact (copyOne_triple hpath hread).run_always rfl hrun

/-- What every action keeps, with what it says about the actions still to come, a run keeps. -/
theorem Runs.keeps {J : List Action → LocalTree → Prop} {K : LocalTree → Prop}
    (hstep : ∀ a as o tree tree', C a tree → J (a :: as) tree →
      Acts vol codec peer streams a tree o tree' → J as tree')
    (hend : ∀ as tree, J as tree → K tree) {actions : List Action}
    (h : Runs vol codec peer streams C actions tree tree') (hj : J actions tree) : K tree' := by
  induction h with
  | stop actions tree => exact hend _ _ hj
  | last hc ha => exact hend _ _ (hstep _ _ _ _ _ hc hj ha)
  | next hc ha _ _ ih => exact ih (hstep _ _ _ _ _ hc hj ha)

end Effects

end MtpxCore
