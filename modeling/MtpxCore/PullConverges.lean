import MtpxCore.LocalHost
import MtpxCore.PullMishaps

/-! One pull after another into one directory. What a pull without failures leaves is what the
plan said of it, as far as the run went; so the next pull finds nothing to do, or goes on where
an interrupted one stopped and ends where that was to end. -/
namespace MtpxCore

open CrashHoare

/-- No transfer file of a copy is in another copy's way, or over a file that the scan listed. -/
def OutOfTheWay (vol : Volume) (listing : Snapshot) (actions : List Action) : Prop :=
  vol.folding = .exact ∨ NamesApart vol.tables vol.folding actions ∧
    ∀ a ∈ actions, a.isCopy = true → ∀ y ∈ transferNames a.path.segments, y ≠ a.path.segments →
      ∀ x ∈ listing.entries, x.kind = .file →
        foldNames vol.tables vol.folding y ≠ x.path.key vol.tables vol.folding

/-- A pull of a walked device onto a volume: the scan met nothing it had to skip, and the plan is
made from it. -/
structure PlannedPull (vol : Volume) (codec : SidecarCodec) (tree : LocalTree) (files : Snapshot)
    (opts : TransferOptions) (before : ScanResult) (p : Plan) : Prop where
  walked : ∃ storage root cancelled fuel walked label,
    walk storage root cancelled fuel = some (.ok walked) ∧
      files = Snapshot.new label walked.entries walked.skipped
  wellFormed : tree.WellFormed vol
  scanned : ∃ label peer cancelled,
    scanLocal vol codec tree label vol.folding peer none cancelled = .ok before
  whole : before.snapshot.skipped = []
  planned : plan vol.tables files before.snapshot vol.folding before.partials opts = .ok p
  apart : OutOfTheWay vol before.snapshot p.actions

section Names

variable {vol : Volume} {p q : RelPath}

/-- The transfer file of a path, name by name. -/
def transferName (path : List String) : Cell → List String
  | .final => path
  | .part => partPath path
  | .side => sidecarPath path
  | .tmp => sidecarTmpPath path

theorem transferName_mem (path : List String) (x : Cell) : transferName path x ∈ transferNames path := by
  cases x <;> simp [transferName, transferNames]

theorem transferName_concat (dir : List String) (name : String) (x : Cell) :
    transferName (dir ++ [name]) x = dir ++ [name ++ x.suffix] := by
  cases x with
  | final => simp [transferName, Cell.suffix]
  | part => exact withSuffix_append dir name _
  | side => exact withSuffix_append dir name _
  | tmp => exact withSuffix_append dir name _

/-- A transfer file of the volume, as the planner compares its name. -/
theorem cellKey_names (hp : p.segments ≠ []) (x : Cell) : cellKey vol p.toLocalPath x =
    (foldNames vol.tables vol.folding (transferName p.segments x)).map OsName.utf8 := by
  obtain ⟨dir, name, hseg⟩ := List.eq_nil_or_concat p.segments |>.resolve_left hp
  rw [List.concat_eq_append] at hseg
  have hlocal : p.toLocalPath = dir.map OsName.utf8 ++ [.utf8 name] := by
    rw [RelPath.toLocalPath, hseg, List.map_append]
    rfl
  rw [cellKey, hlocal, cellPath_concat, hseg, transferName_concat, Volume.foldPath, foldNames,
    List.map_map, List.map_append, List.map_append, List.map_map]
  rfl

/-- Copies that share no transfer name share none on the volume. -/
theorem cellKey_apart (hp : p.segments ≠ []) (hq : q.segments ≠ [])
    (h : ¬Coincide vol.tables vol.folding p.segments q.segments) (x y : Cell) :
    cellKey vol p.toLocalPath x ≠ cellKey vol q.toLocalPath y := by
  intro heq
  rw [cellKey_names hp, cellKey_names hq] at heq
  exact h ⟨_, transferName_mem _ x, _, transferName_mem _ y, utf8_map_injective heq⟩

theorem foldPath_exact (hexact : vol.folding = .exact) (path : List OsName) :
    vol.foldPath path = path := by
  have hname : vol.foldOs = id := by
    funext name
    cases name with
    | utf8 text => rw [Volume.foldOs, hexact]; rfl
    | raw lossy bytes => rfl
  rw [Volume.foldPath, hname, List.map_id]

end Names

section Pulls

variable {vol : Volume} {codec : SidecarCodec} {tree : LocalTree} {files : Snapshot}
  {opts : TransferOptions} {before : ScanResult} {p : Plan}

theorem PlannedPull.closed (h : PlannedPull vol codec tree files opts before p) :
    AncestorClosed files := by
  obtain ⟨storage, root, cancelled, fuel, walked, label, hw, rfl⟩ := h.walked
  exact walk_ancestorClosed hw label

theorem PlannedPull.unreserved (h : PlannedPull vol codec tree files opts before p) :
    Unreserved files := by
  obtain ⟨storage, root, cancelled, fuel, walked, label, hw, rfl⟩ := h.walked
  exact fun e he => walked_name hw he

/-- Where the volume tells every two names apart, the walk keeps transfer names apart. -/
theorem PlannedPull.namesApart (h : PlannedPull vol codec tree files opts before p) :
    NamesApart vol.tables vol.folding p.actions := by
  rcases h.apart with hexact | ⟨hapart, -⟩
  · intro i j a b hij hi hj hac hbc
    rw [plan_ok h.planned] at hi hj
    obtain ⟨e, he, -, hep, -⟩ := copied_at h.closed (List.mem_of_getElem? hi) hac
    obtain ⟨f, hf, -, hfp, -⟩ := copied_at h.closed (List.mem_of_getElem? hj) hbc
    obtain ⟨dir, name, hseg, hname⟩ := h.unreserved e he
    obtain ⟨dir', name', hseg', hname'⟩ := h.unreserved f hf
    have hne := planned_path_ne hij hi hj
    rw [← hep, ← hfp] at hne ⊢
    rw [hexact, hseg, hseg']
    refine not_coincide_exact vol.tables hname hname' fun heq => hne ?_
    exact RelPath.segments_injective (by rw [hseg, hseg', heq])
  · exact hapart

theorem PlannedPull.copy_nonroot (h : PlannedPull vol codec tree files opts before p) {a : Action}
    (ha : a ∈ p.actions) (hac : a.isCopy = true) : a.path.segments ≠ [] := by
  rw [plan_ok h.planned] at ha
  obtain ⟨e, he, -, hep, -⟩ := copied_at h.closed ha hac
  exact hep ▸ h.closed.nonroot e he

theorem PlannedPull.namedApart (h : PlannedPull vol codec tree files opts before p) {a : Action}
    (ha : a ∈ p.actions) (hac : a.isCopy = true) :
    NamedApart vol (transferKeys vol p.actions) a.path := by
  have hroot := h.copy_nonroot ha hac
  refine ⟨hroot, fun x hx => ⟨a, ha, hac, x, hx, rfl⟩, ?_⟩
  rintro ⟨b, hb, hbc, x, hx, heq⟩
  obtain ⟨i, hi⟩ := List.mem_iff_getElem?.mp ha
  obtain ⟨j, hj⟩ := List.mem_iff_getElem?.mp hb
  by_cases hij : i = j
  · rw [hij, hj] at hi
    rw [Option.some.inj hi] at heq
    exact hx ((nameable vol hroot).injective heq).symm
  · exact cellKey_apart hroot (h.copy_nonroot hb hbc) (h.namesApart i j a b hij hi hj hac hbc) _ _ heq

/-- Under the name of a transfer file the volume has none but such files. -/
theorem PlannedPull.hidden (h : PlannedPull vol codec tree files opts before p) :
    HiddenUnder vol (transferKeys vol p.actions) tree := by
  rintro node hm ⟨a, ha, hac, x, hx, hkey⟩ hfile
  have hroot := h.copy_nonroot ha hac
  -- a volume that keeps names apart has the reserved name itself there
  rcases h.apart with hexact | ⟨-, hlisted⟩
  · rw [cellKey, foldPath_exact hexact, foldPath_exact hexact] at hkey
    have hreserved := cell_reserved hroot hx node.obj
    rwa [← hkey] at hreserved
  · -- a file with another name would have been listed
    obtain ⟨label, peer, cancelled, hscan⟩ := h.scanned
    have hplain := plain_of_scan h.wellFormed hscan h.whole
    by_contra hname
    rw [Bool.not_eq_true] at hname
    have hne : node.path ≠ [] := by
      intro hnil
      have hlen := congrArg List.length hkey
      rw [hnil, (nameable vol hroot).length, vol.foldPath_length] at hlen
      exact (nameable vol hroot).nonempty (List.length_eq_zero_iff.mp hlen.symm)
    have hobj : ∃ bytes readable, node.obj = .file bytes readable := by
      cases hobj : node.obj with
      | file bytes readable => exact ⟨bytes, readable, rfl⟩
      | dir readable => exact absurd hfile (by simp [hobj, Obj.isFile])
      | special => exact absurd hfile (by simp [hobj, Obj.isFile])
      | danglingLink => exact absurd hfile (by simp [hobj, Obj.isFile])
    obtain ⟨bytes, readable, hobj⟩ := hobj
    have hheld : node.held = some ⟨.file, bytes.length⟩ := by
      refine Node.held_eq_some.mpr ⟨hne, ?_, ?_, ?_⟩
      · rw [Node.isTransferFile, hname, Bool.and_false]
      · rw [hobj]
        rfl
      · rw [hobj]
        rfl
    have hstore : tree.store vol (foldNames vol.tables vol.folding (transferName a.path.segments x)) =
        some ⟨.file, bytes.length⟩ := by
      rw [store_at h.wellFormed.unique hm (hkey.trans (cellKey_names hroot x)), hheld]
    rw [← store_of_scan h.wellFormed hplain hscan] at hstore
    obtain ⟨e, he, hk, -⟩ := Store.of_eq_some.mp hstore
    refine hlisted a ha hac _ (transferName_mem _ x) (fun heq => ?_) e (SortedTable.first_mem he) hk ?_
    · -- no transfer file has the name of its own file, which is shorter
      obtain ⟨dir, name, hseg⟩ := List.eq_nil_or_concat a.path.segments |>.resolve_left hroot
      rw [hseg, List.concat_eq_append, transferName_concat] at heq
      have hlen := congrArg String.length (List.singleton_inj.mp (List.append_cancel_left heq))
      rw [String.length_append] at hlen
      have hsuffix : ∀ y : Cell, y ≠ .final → y.suffix.length ≠ 0 := by
        intro y
        cases y <;> decide
      exact hsuffix x hx (by omega)
    · exact (SortedTable.first_key he).symm

theorem PlannedPull.shows (h : PlannedPull vol codec tree files opts before p) :
    Shows vol (transferKeys vol p.actions) (Store.of vol.tables vol.folding before.snapshot) tree := by
  obtain ⟨label, peer, cancelled, hscan⟩ := h.scanned
  have hplain := plain_of_scan h.wellFormed hscan h.whole
  exact ⟨h.wellFormed, hplain, h.hidden, (store_of_scan h.wellFormed hplain hscan).symm⟩

/-- What a scan lists of a tree that shows a destination is that destination. -/
theorem Shows.scan {names : Set Key} {held : Store} (h : Shows vol names held tree) {label : String}
    {peer : Identity} {cancelled : ℕ → Bool} {result : ScanResult}
    (hscan : scanLocal vol codec tree label vol.folding peer none cancelled = .ok result) :
    Store.of vol.tables vol.folding result.snapshot = held := by
  rw [store_of_scan h.wellFormed h.plain hscan, h.store]

end Pulls

section Runs

variable {vol : Volume} {codec : SidecarCodec} {peer : Identity} {σ : Type} {ex : Executor σ}
  {device dest : Endpoint σ} {tree : σ → LocalTree} {files listing : Snapshot} {partials : Partials}
  {opts : TransferOptions} {before : ScanResult} {p : Plan} {names : Set Key} {report : Report}
  {s' : Scene σ}

/-- A whole run, from a volume that shows the listing it was planned from. -/
theorem OnVolume.run_shows (on : OnVolume vol codec peer ex device dest tree)
    (hc : AncestorClosed files) (hu : Unreserved files)
    (hp : plan vol.tables files listing vol.folding partials opts = .ok p)
    (hnamed : ∀ a ∈ p.actions, a.isCopy = true → NamedApart vol names a.path) {world : σ}
    (hshows : Shows vol names (Store.of vol.tables vol.folding listing) (tree world))
    (hrun : ex.run p device dest world = (.ok report, s')) (hclean : report.failed = []) :
    ∃ done rest, p.actions = done ++ rest ∧ (report.interrupted = false → rest = []) ∧
      Shows vol names ((Store.of vol.tables vol.folding listing).replay vol.tables vol.folding done)
        (tree s'.world) := by
  have hstart : Shows vol names
      ((Store.of vol.tables vol.folding listing).replay vol.tables vol.folding []) (tree world) := hshows
  unfold Executor.run at hrun
  rw [plan_ok hp] at hrun hnamed ⊢
  exact on.runFrom_shows hc hu hnamed (List.nil_append _).symm hstart hrun hclean

end Runs

private def pulledVolume : Volume := ⟨.ascii, .exact, 96⟩

private def twoShots : Storage where
  rootHandle := ⟨0⟩
  collectObjects
    | none => .ok ⟨[⟨⟨1⟩, "b7.jpg", false, 2, none⟩, ⟨⟨2⟩, "c.jpg", false, 1, none⟩], []⟩
    | some _ => .ok ⟨[], []⟩

private def shotB : RelPath := .ofSegments ["b7.jpg"]

private def shotC : RelPath := .ofSegments ["c.jpg"]

private def shotWalk : Walked where
  entries := [Entry.file shotB 2 none, Entry.file shotC 1 none]
  handles := [(shotB, ⟨1⟩), (shotC, ⟨2⟩)]
  skipped := []

private def shots : Snapshot := Snapshot.new "phone" shotWalk.entries shotWalk.skipped

private def album : LocalTree := [⟨[], .dir true⟩, ⟨[.utf8 "a.txt"], .file [7] true⟩]

private def albumScan : ScanResult :=
  ⟨Snapshot.new "album" [Entry.file (.ofSegments ["a.txt"]) 1 none] [], [], .exact⟩

private def shotPlan : Plan := Plan.new [.copy shotB 2 none 0 .new, .copy shotC 1 none 0 .new]

private def phoneSide : Endpoint (World × ℕ) where
  resumeOffset _ requested s := (.ok requested, s)
  read path _ s := (.ok (if path = shotB then [.ok [1], .ok [2]] else [.ok [3]]), s)
  write _ _ s := (.error .cancelled, 0, s)
  mkdir _ s := (.error .cancelled, s)

/-- The clock counts the events; the token is cancelled from `limit` on. -/
private def stoppedAt (limit : ℕ) : Executor (World × ℕ) where
  isCancelled s := decide (limit ≤ s.2)
  deliver _ s := (s.1, s.2 + 1)
  hasRoom _ _ := true
  now s := s.2
  sleep d s := (s.1, s.2 + d)
  isRetryable _ := false
  text _ := "failed"
  sleep_now _ _ := le_rfl

private noncomputable def albumSide : Endpoint (World × ℕ) :=
  LocalEndpoint.host pulledVolume (fun _ => .none) .json ⟨"R58M", "Card"⟩ fun _ input _ => input.length

private theorem albumSide_onVolume (limit : ℕ) : OnVolume pulledVolume .json ⟨"R58M", "Card"⟩
    (stoppedAt limit) phoneSide albumSide (fun s => s.1.tree) :=
  host_onVolume pulledVolume .json ⟨"R58M", "Card"⟩ _ (fun _ _ => by simp) (fun _ _ => rfl)
    (fun _ _ => rfl) fun _ _ _ => rfl

private theorem album_planned :
    PlannedPull pulledVolume .json album shots .pull albumScan shotPlan where
  walked := ⟨twoShots, none, fun _ => false, 2, shotWalk, "phone", by decide, rfl⟩
  wellFormed := ⟨by decide, by decide⟩
  scanned := ⟨"album", ⟨"R58M", "Card"⟩, fun _ => false, rfl⟩
  whole := rfl
  planned := by decide
  apart := Or.inl rfl

private noncomputable def stoppedRun : Except Error Report × Scene (World × ℕ) :=
  (stoppedAt 2).run shotPlan phoneSide albumSide (.fresh album, 0)

/-- What the stopped pull leaves. -/
private def albumHalf : LocalTree :=
  [⟨[], .dir true⟩, ⟨[.utf8 "a.txt"], .file [7] true⟩, ⟨[.utf8 "b7.jpg"], .file [1, 2] true⟩]

private def halfScan : ScanResult :=
  ⟨Snapshot.new "album" [Entry.file (.ofSegments ["a.txt"]) 1 none, Entry.file shotB 2 none] [], [],
    .exact⟩

/-- A pull of `files`, however it ends: a scan, a plan made of it, and its run on the volume, in which
actions may fail, and which may be cancelled, aborted or killed. -/
def AnyPull (vol : Volume) (codec : SidecarCodec) (files : Snapshot) (opts : TransferOptions)
    (tree tree' : LocalTree) : Prop :=
  ∃ (label : String) (peer : Identity) (cancelled : ℕ → Bool) (scan : ScanResult) (q : Plan)
    (σ : Type) (ex : Executor σ) (device dest : Endpoint σ) (view : σ → LocalTree) (world : σ),
    scanLocal vol codec tree label vol.folding peer none cancelled = .ok scan ∧
      plan vol.tables files scan.snapshot vol.folding scan.partials opts = .ok q ∧
      OnVolume vol codec peer ex device dest view ∧ view world = tree ∧
      (view (ex.run q device dest world).2.world = tree' ∨
        KilledRun vol codec peer ex device dest view q.actions world tree')

/-- A pull that runs to the end of its plan, and in which nothing fails. -/
def CleanPull (vol : Volume) (codec : SidecarCodec) (files : Snapshot) (opts : TransferOptions)
    (tree tree' : LocalTree) : Prop :=
  ∃ (label : String) (peer : Identity) (cancelled : ℕ → Bool) (scan : ScanResult) (q : Plan)
    (σ : Type) (ex : Executor σ) (device dest : Endpoint σ) (view : σ → LocalTree) (world : σ)
    (report : Report) (s' : Scene σ),
    scanLocal vol codec tree label vol.folding peer none cancelled = .ok scan ∧
      plan vol.tables files scan.snapshot vol.folding scan.partials opts = .ok q ∧
      OnVolume vol codec peer ex device dest view ∧ view world = tree ∧ view s'.world = tree' ∧
      ex.run q device dest world = (.ok report, s') ∧ report.failed = [] ∧ report.interrupted = false

section Course

variable {vol : Volume} {codec : SidecarCodec} {files : Snapshot} {opts : TransferOptions}
  {tree tree' : LocalTree} {before : ScanResult} {p : Plan}

/-- A plan made from here ends where the plan `p` was to end, and copies nothing else. -/
def OnCourse (vol : Volume) (files : Snapshot) (opts : TransferOptions) (before : ScanResult)
    (p : Plan) (tree : LocalTree) : Prop :=
  ∃ held, Shows vol (transferKeys vol p.actions) held tree ∧
    ∀ (listing : Snapshot) (partials : Partials), Store.of vol.tables vol.folding listing = held →
      after vol.tables files listing vol.folding partials opts.conflict =
          (Store.of vol.tables vol.folding before.snapshot).replay vol.tables vol.folding p.actions ∧
        ∀ b ∈ plannedActions vol.tables files listing vol.folding partials opts.conflict,
          b.isCopy = true → ∃ a ∈ p.actions, a.isCopy = true ∧ a.path = b.path

theorem PlannedPull.onCourse (h : PlannedPull vol codec tree files opts before p) :
    OnCourse vol files opts before p tree := by
  refine ⟨_, h.shows, fun listing partials hstore => ?_⟩
  have hstarted : Started vol.tables files before.snapshot listing vol.folding before.partials
      opts.conflict [] := ⟨h.closed, by simp, hstore⟩
  rw [plan_ok h.planned]
  exact ⟨hstarted.arrives, fun b hb hbc => hstarted.copies_before hb hbc⟩

/-- The copies of a later plan keep clear of each other, as those of the first did. -/
theorem PlannedPull.apart_later (h : PlannedPull vol codec tree files opts before p) {actions : List Action}
    (hcopies : ∀ b ∈ actions, b.isCopy = true → ∃ a ∈ p.actions, a.isCopy = true ∧ a.path = b.path) :
    ∀ b ∈ actions, b.isCopy = true → NamedApart vol (transferKeys vol p.actions) b.path := by
  intro b hb hbc
  obtain ⟨a, ha, hac, hab⟩ := hcopies b hb hbc
  exact hab ▸ h.namedApart ha hac

/-- A pull, however it ends, leaves a volume on course. -/
theorem PlannedPull.next (h : PlannedPull vol codec tree files opts before p) {mid : LocalTree}
    (hcourse : OnCourse vol files opts before p mid) (hpull : AnyPull vol codec files opts mid tree') :
    OnCourse vol files opts before p tree' := by
  obtain ⟨held, hshows, hon⟩ := hcourse
  obtain ⟨label, peer, cancelled, scan, q, σ, ex, device, dest, view, world, hscan, hq, on, rfl,
    hend⟩ := hpull
  have hstore := hshows.scan hscan
  obtain ⟨harrives, hcopies⟩ := hon scan.snapshot scan.partials hstore
  have hnamed := h.apart_later hcopies
  have hactions := plan_ok hq
  have hstart : ShowsOne vol (transferKeys vol p.actions)
      (PartlyDone vol files scan.snapshot scan.partials opts.conflict) (view world) :=
    ⟨_, partlyDone_start, hstore ▸ hshows⟩
  have hall : ∀ a ∈ q.actions,
      a ∈ plannedActions vol.tables files scan.snapshot vol.folding scan.partials opts.conflict :=
    fun a ha => hactions ▸ ha
  have hleft : ShowsOne vol (transferKeys vol p.actions)
      (PartlyDone vol files scan.snapshot scan.partials opts.conflict) tree' := by
    rcases hend with hrun | hkilled
    · subst hrun
      exact on.runFrom_partly h.closed h.unreserved hnamed hall hstart
    · exact on.killed_partly h.closed h.unreserved hnamed hall hstart hkilled
  -- whatever was done of this plan, the next one ends where it was to end
  obtain ⟨held', ⟨done, hdone, rfl⟩, hshows'⟩ := hleft
  refine ⟨_, hshows', fun listing partials hlisting => ?_⟩
  have hstarted : Started vol.tables files scan.snapshot listing vol.folding scan.partials
      opts.conflict done := ⟨h.closed, hdone, hlisting⟩
  refine ⟨hstarted.arrives.trans harrives, fun b hb hbc => ?_⟩
  obtain ⟨c, hmem, hcc, hcb⟩ := hstarted.copies_before hb hbc
  obtain ⟨a, ha, hac, hab⟩ := hcopies c hmem hcc
  exact ⟨a, ha, hac, hab.trans hcb⟩

/-- A clean pull from a volume on course shows what the plan `p` was to leave. -/
theorem PlannedPull.last (h : PlannedPull vol codec tree files opts before p) {mid : LocalTree}
    (hcourse : OnCourse vol files opts before p mid) (hpull : CleanPull vol codec files opts mid tree') :
    Shows vol (transferKeys vol p.actions)
        ((Store.of vol.tables vol.folding before.snapshot).replay vol.tables vol.folding p.actions) tree' ∧
      ∃ listing partials q, plan vol.tables files listing vol.folding partials opts = .ok q ∧
        after vol.tables files listing vol.folding partials opts.conflict =
          (Store.of vol.tables vol.folding before.snapshot).replay vol.tables vol.folding p.actions := by
  obtain ⟨held, hshows, hon⟩ := hcourse
  obtain ⟨label, peer, cancelled, scan, q, σ, ex, device, dest, view, world, report, s', hscan, hq, on,
    rfl, rfl, hrun, hclean, hint⟩ := hpull
  have hstore := hshows.scan hscan
  obtain ⟨harrives, hcopies⟩ := hon scan.snapshot scan.partials hstore
  have hactions := plan_ok hq
  have hnamed := h.apart_later hcopies
  rw [← hactions] at hnamed
  rw [← hstore] at hshows
  obtain ⟨done, rest, hsplit, hrest, hdone⟩ :=
    on.run_shows h.closed h.unreserved hq hnamed hshows hrun hclean
  rw [hrest hint, List.append_nil] at hsplit
  rw [← hsplit, hactions] at hdone
  have hafter := harrives
  rw [after] at hafter
  rw [hafter] at hdone
  exact ⟨hdone, scan.snapshot, scan.partials, q, hq, harrives⟩

theorem PlannedPull.pulls (h : PlannedPull vol codec tree files opts before p) {mid : LocalTree}
    (hpulls : Relation.ReflTransGen (AnyPull vol codec files opts) tree mid) :
    OnCourse vol files opts before p mid := by
  induction hpulls with
  | refl => exact h.onCourse
  | tail _ hpull ih => exact h.next ih hpull

end Course

private def albumWhole : LocalTree := albumHalf ++ [⟨[.utf8 "c.jpg"], .file [3] true⟩]

private def wholeScan : ScanResult :=
  ⟨Snapshot.new "album" [Entry.file (.ofSegments ["a.txt"]) 1 none, Entry.file shotB 2 none,
    Entry.file shotC 1 none] [], [], .exact⟩

private def restPlan : Plan := Plan.new [.skip shotB .identical, .copy shotC 1 none 0 .new]

private noncomputable def wholeRun : Except Error Report × Scene (World × ℕ) :=
  (stoppedAt 99).run restPlan phoneSide albumSide (.fresh albumHalf, 0)

/-- A pull that is killed when its first part is written, and not yet renamed. -/
private def albumTorn : LocalTree := album ++ [⟨[.utf8 "b7.jpg.mtpx-part"], .file [1, 2] true⟩]

private def seventhKills : Weather := fun i => if i = 6 then .die 1 else .none

private noncomputable def killedWrite : Outcome Error Unit × World :=
  LocalEndpoint.write pulledVolume seventhKills .json ⟨"R58M", "Card"⟩ ⟨shotB, 2, 0, none⟩
    [.ok [1], .ok [2]] (.fresh album)

private def tornScan : ScanResult :=
  ⟨Snapshot.new "album" [Entry.file (.ofSegments ["a.txt"]) 1 none] [], [], .exact⟩

end MtpxCore
