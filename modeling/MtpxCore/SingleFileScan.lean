import MtpxCore.LocalFindings
import MtpxCore.PlannerOutcome
import MtpxCore.SidecarJson

/-! The single-file scan against the full one. The shortcut compares names byte for byte
while the planner looks them up as the volume does, so the two agree about a file exactly
when no listed object of the root has another spelling of its name. Both scans are taken to have
detected the folding of the volume. -/
namespace MtpxCore

/-- The transfer of one file: a source whose only entry is `f`. -/
def oneFile (label : String) (f : Entry) : Snapshot := Snapshot.new label [f] []

/-- A root-level object that the full scan lists. -/
def ListedAtRoot (tree : LocalTree) (name : String) (obj : Obj) : Prop :=
  Node.mk [] (.dir true) ∈ tree ∧ Node.mk [.utf8 name] obj ∈ tree ∧
    validateSegment name = .ok () ∧ (kindOf obj).isSome = true ∧
    (Node.mk [.utf8 name] obj).isTransferFile = false

/-- Whatever the volume takes for `name` at the root is spelled `name`. -/
def SpelledAlike (vol : Volume) (tree : LocalTree) (name : String) : Prop :=
  ∀ other obj, ListedAtRoot tree other obj →
    foldName vol.tables vol.folding other = foldName vol.tables vol.folding name → other = name

section OneFile

variable {tables : CaseTables} {folding : NameFolding}

/-- Planning one file asks the destination one question. -/
theorem plan_oneFile {f : Entry} (hf : f.kind = .file) (label : String) (dest : Snapshot)
    (partials : Partials) (opts : TransferOptions) :
    plan tables (oneFile label f) dest folding partials opts =
      if opts.conflict = .fail ∧ (destEntry tables dest folding f).any (isConflict f) = true then
        .error [f.path]
      else .ok (Plan.new [decideFile f (destEntry tables dest folding f) (partials.get f.path)
        opts.conflict]) := by
  -- the first claim of a name collides with none
  have hcol : (Claims.new folding).collides tables f =
      (false, ((Claims.new folding).collides tables f).2) := by
    cases folding <;> rfl
  rw [destEntry, ← DestIndex.get_new]
  have hconf : collectConflicts tables (oneFile label f) (DestIndex.new tables dest folding) folding =
      if ((DestIndex.new tables dest folding).get tables f.path).any (isConflict f) = true
        then [f.path] else [] := by
    change collectFrom tables _ _ [f] = _
    rw [collectFrom, hcol]
    simp only [Bool.false_or, collectFrom]
  have hfile : (Decider.decideEntry tables
      (Decider.new (DestIndex.new tables dest folding) folding partials opts.conflict) f).intoPlan =
      Plan.new [decideFile f ((DestIndex.new tables dest folding).get tables f.path)
        (partials.get f.path) opts.conflict] := by
    have hd : (Decider.new (DestIndex.new tables dest folding) folding partials
        opts.conflict).claims = Claims.new folding := rfl
    unfold Decider.decideEntry
    rw [Decider.new, Decider.blockingReason]
    dsimp only
    rw [hcol, hf]
    rfl
  have hplan : plan tables (oneFile label f) dest folding partials opts =
      let conflicts := collectConflicts tables (oneFile label f)
        (DestIndex.new tables dest folding) folding
      if opts.conflict = .fail && !conflicts.isEmpty then .error conflicts
      else .ok (Decider.decideEntry tables (Decider.new (DestIndex.new tables dest folding) folding
        partials opts.conflict) f).intoPlan := rfl
  rw [hplan, hconf, hfile]
  by_cases hany : ((DestIndex.new tables dest folding).get tables f.path).any (isConflict f) = true
  · simp [hany]
  · simp [hany]

/-- A copy of something the destination lacks is told from every other decision. -/
theorem decideFile_some_ne {f x : Entry} {info info' : Option PartialInfo}
    {conflict : ConflictPolicy} :
    decideFile f (some x) info conflict ≠ decideFile f none info' conflict := by
  intro h
  change _ = copy f .new (resumeOffset f info') at h
  unfold decideFile at h
  dsimp only at h
  split at h
  · exact absurd h (by simp [skip, copy])
  · split at h
    · exact absurd h (by simp [skip, copy])
    · split at h
      · exact absurd h (by simp [skip, copy])
      all_goals exact absurd h (by simp [copy])

/-- Two destinations give one file the same plan only if both have something at its path or
neither has. -/
theorem plan_oneFile_ne {f x : Entry} (hf : f.kind = .file) (label : String)
    {dest dest' : Snapshot} (partials partials' : Partials) (opts : TransferOptions)
    (h : destEntry tables dest folding f = none) (h' : destEntry tables dest' folding f = some x) :
    plan tables (oneFile label f) dest folding partials opts ≠
      plan tables (oneFile label f) dest' folding partials' opts := by
  rw [plan_oneFile hf, plan_oneFile hf, h, h', if_neg (by simp)]
  split
  · simp
  · intro heq
    have hactions := congrArg Plan.actions (Except.ok.inj heq)
    rw [Plan.new_actions, Plan.new_actions] at hactions
    exact decideFile_some_ne (List.singleton_inj.mp hactions).symm

end OneFile

section Wanted

variable {n m : String} {node : Node}

theorem Node.name_of_path (h : node.path = [.utf8 m]) : node.name = m := by
  rw [Node.name, h]
  rfl

/-- The shortcut looks at the file itself and at what its transfer files are called. -/
theorem wanted_iff (h : node.path = [.utf8 m]) :
    wanted (some n) node = true ↔ m = n ∨ ∃ suffix ∈ RESERVED_SUFFIXES, m = n ++ suffix := by
  rw [wanted, Node.name_of_path h, stripPrefix]
  constructor
  · intro hw
    split at hw
    · rename_i hpre
      obtain ⟨rest, hrest⟩ := List.isPrefixOf_iff_prefix.mp hpre
      have hm : m = n ++ String.ofList rest := by
        apply String.toList_inj.mp
        rw [String.toList_append, String.toList_ofList, hrest]
      rw [← hrest, List.drop_left, Option.any_some, Bool.or_eq_true, decide_eq_true_eq,
        decide_eq_true_eq] at hw
      rcases hw with hw | hw
      · left
        rw [hm, hw, String.append_empty]
      · exact Or.inr ⟨_, hw, hm⟩
    · exact absurd hw (by simp)
  · intro hm
    have hpre : n.toList.isPrefixOf m.toList = true := by
      apply List.isPrefixOf_iff_prefix.mpr
      rcases hm with rfl | ⟨suffix, -, rfl⟩
      · exact List.prefix_rfl
      · rw [String.toList_append]
        exact List.prefix_append _ _
    rw [if_pos hpre, Option.any_some, Bool.or_eq_true, decide_eq_true_eq, decide_eq_true_eq]
    rcases hm with rfl | ⟨suffix, hs, rfl⟩
    · left
      rw [List.drop_length]
    · right
      rwa [String.toList_append, List.drop_left, String.ofList_toList]

/-- No name is, for any volume, the name of one of its own transfer files. -/
theorem foldName_suffix_ne (tables : CaseTables) (folding : NameFolding) {suffix : String}
    (hs : suffix ∈ RESERVED_SUFFIXES) : foldName tables folding (n ++ suffix) ≠ foldName tables folding n := by
  intro h
  have hlen : (foldStem tables folding n).length = (foldName tables folding n).toList.length := by
    cases folding with
    | exact => rfl
    | caseInsensitive =>
      rw [foldStem, foldName, CaseTables.toLowercase, String.toList_ofList]
      exact lowercaseIn_length tables _ _ _ _
  have hl := congrArg List.length (foldName_suffix tables folding n hs)
  rw [h, List.length_append, hlen] at hl
  have hpos : ∀ s ∈ RESERVED_SUFFIXES, 0 < s.toList.length := by decide
  have hs' := hpos suffix hs
  omega

end Wanted

/-- Entries looked up by a name that only one spelling answers to. -/
theorem firstWithKey_spelled {tables : CaseTables} {folding : NameFolding} {es : List Entry}
    {path : RelPath}
    (h : ∀ e ∈ es, e.path.key tables folding = path.key tables folding → e.path = path) :
    firstWithKey tables folding es (path.key tables folding) = SortedTable.first Entry.path path es := by
  induction es with
  | nil => rfl
  | cons e es ih =>
    have htail := ih (fun a ha => h a (List.mem_cons_of_mem e ha))
    rw [firstWithKey, SortedTable.first_cons, SortedTable.first_cons]
    by_cases hk : e.path.key tables folding = path.key tables folding
    · rw [if_pos hk, if_pos (h e List.mem_cons_self hk)]
    · rw [if_neg hk, if_neg (fun hp => hk (by rw [hp]))]
      exact htail

section Scans

variable {vol : Volume} {codec : SidecarCodec} {tree : LocalTree} {label : String}
  {peer : Identity} {detected : NameFolding} {only : Option String} {cancelled : ℕ → Bool}
  {result : ScanResult}

theorem Lists.path {node : Node} {e : Entry} (h : Lists node e) : node.path = e.path.toLocalPath := by
  obtain ⟨-, path, hr, he⟩ := h
  have hp : e.path = path := by
    rw [localEntry] at he
    split at he
    · exact congrArg Entry.path (Option.some.inj he).symm
    · exact congrArg Entry.path (Option.some.inj he).symm
    · exact absurd he (by simp)
  rw [hp]
  exact relative_ok hr

theorem Lists.unique {node : Node} {e e' : Entry} (h : Lists node e) (h' : Lists node e') :
    e = e' := by
  obtain ⟨-, path, hr, he⟩ := h
  obtain ⟨-, path', hr', he'⟩ := h'
  cases hr.symm.trans hr'
  exact Option.some.inj (he.symm.trans he')

/-- The scan's walk reaches `node` and does not pass over it. -/
def Looked (vol : Volume) (tree : LocalTree) (only : Option String) (node : Node) : Prop :=
  rootIsPresent vol tree = .ok true ∧
    .entry node ∈ walkItems tree (only.map (fun _ => 1)) ∧ wanted only node = true

/-- What a scan reports, told from the tree. -/
theorem scan_found (hu : tree.UniquePaths vol)
    (h : scanLocal vol codec tree label detected peer only cancelled = .ok result) :
    (∀ node, Looked vol tree only node → ¬Breaks vol codec tree peer node) ∧
      (∀ e, e ∈ result.snapshot.entries ↔ ∃ node, Looked vol tree only node ∧ Lists node e) ∧
      (∀ p, p ∈ result.partials ↔ ∃ node, Looked vol tree only node ∧
        Vouches vol codec tree peer node p) ∧ result.folding = detected := by
  obtain ⟨present, found, hpres, hwalk, rfl⟩ := scanLocal_ok h
  obtain ⟨hb, he, hp⟩ := walkFrom_ok hwalk
  have hlooked (node : Node) : (.entry node ∈ (if present then
      walkItems tree (only.map (fun _ => 1)) else []) ∧ wanted only node = true) ↔
        Looked vol tree only node := by
    rw [Looked, hpres]
    cases present <;> simp
  have he' (e : Entry) : e ∈ found.entries ↔ ∃ node, Looked vol tree only node ∧ Lists node e := by
    simp only [he, List.not_mem_nil, false_or, ← and_assoc, hlooked]
  refine ⟨fun node hl => ?_, fun e => ?_, fun p => ?_, rfl⟩
  · obtain ⟨hm, hw⟩ := (hlooked node).mpr hl
    exact hb node hm hw
  · rw [← he']
    apply Snapshot.mem_new
    intro a ha b hb hab
    obtain ⟨x, hx, hxa⟩ := (he' a).mp ha
    obtain ⟨y, hy, hyb⟩ := (he' b).mp hb
    have hxy : x = y := by
      apply hu.eq (mem_walkItems.mp hx.2.1).1 (mem_walkItems.mp hy.2.1).1
      rw [hxa.path, hyb.path, hab]
    exact hxa.unique (hxy ▸ hyb)
  · simp only [hp, List.not_mem_nil, false_or, ← and_assoc, hlooked]

theorem foldPath_toLocalPath (vol : Volume) (path : RelPath) :
    vol.foldPath path.toLocalPath = (path.key vol.tables vol.folding).map OsName.utf8 := by
  rw [Volume.foldPath, RelPath.toLocalPath, RelPath.key, foldNames, List.map_map, List.map_map]
  rfl

/-- A scan never lists one object of the volume twice. -/
theorem scan_unique (hu : tree.UniquePaths vol)
    (h : scanLocal vol codec tree label detected peer only cancelled = .ok result) {a b : Entry}
    (ha : a ∈ result.snapshot.entries) (hb : b ∈ result.snapshot.entries)
    (hk : a.path.key vol.tables vol.folding = b.path.key vol.tables vol.folding) : a = b := by
  obtain ⟨-, he, -, -⟩ := scan_found hu h
  obtain ⟨x, hx, hxa⟩ := (he a).mp ha
  obtain ⟨y, hy, hyb⟩ := (he b).mp hb
  have hxy : x = y := by
    apply hu.eq (mem_walkItems.mp hx.2.1).1 (mem_walkItems.mp hy.2.1).1
    rw [hxa.path, hyb.path, foldPath_toLocalPath, foldPath_toLocalPath, hk]
  exact hxa.unique (hxy ▸ hyb)

/-- The shortcut looks at the objects of the root that the full walk looks at and wants. -/
theorem looked_single_iff {n : String} {node : Node} :
    Looked vol tree (some n) node ↔ Looked vol tree none node ∧
      (∃ name, node.path = [name]) ∧ wanted (some n) node = true := by
  rw [Looked, Looked, Option.map_some, Option.map_none, mem_walkItems, mem_walkItems]
  have hone : (node.path ≠ [] ∧ node.path.length ≤ 1) ↔ ∃ name, node.path = [name] := by
    rw [← List.length_eq_one_iff, ← List.length_pos_iff]
    omega
  constructor
  · intro h
    obtain ⟨hp, ⟨hm, hne, hd, hr, hobj⟩, hw⟩ := h
    have hd' : node.path.length ≤ 1 := by simpa using hd
    exact ⟨⟨hp, ⟨hm, hne, rfl, hr, hobj⟩, rfl⟩, hone.mp ⟨hne, hd'⟩, hw⟩
  · intro h
    obtain ⟨⟨hp, ⟨hm, hne, -, hr, hobj⟩, -⟩, hpath, hw⟩ := h
    have hd := (hone.mpr hpath).2
    exact ⟨hp, ⟨hm, hne, by simpa using hd, hr, hobj⟩, hw⟩

/-- Where the full scan succeeds, so does the shortcut. -/
theorem single_exists (n : String) (hu : tree.UniquePaths vol)
    (h : scanLocal vol codec tree label detected peer none cancelled = .ok result) :
    ∃ single, scanLocal vol codec tree label detected peer (some n) (fun _ => false) = .ok single := by
  obtain ⟨hb, -, -, -⟩ := scan_found hu h
  obtain ⟨present, -, hpres, -, -⟩ := scanLocal_ok h
  have hwalk : ∃ found, walkFrom vol codec tree peer (some n) (fun _ => false) 0
      (if present then walkItems tree (some 1) else []) ⟨[], [], []⟩ = .ok found := by
    apply walkFrom_exists
    intro node hm hw
    cases present with
    | false => exact absurd hm (by simp)
    | true =>
      have hl : Looked vol tree (some n) node := ⟨hpres, hm, hw⟩
      exact hb node (looked_single_iff.mp hl).1
  obtain ⟨found, hf⟩ := hwalk
  refine ⟨⟨Snapshot.new label found.entries found.skipped, found.partials, detected⟩, ?_⟩
  rw [scanLocal, hpres]
  dsimp only
  rw [Option.map_some, hf]
  simp

/-- The full scan lists `name` at the root exactly when something there is listed under it. -/
theorem full_lists_iff (hu : tree.UniquePaths vol)
    (h : scanLocal vol codec tree label detected peer none cancelled = .ok result) (name : String) :
    (∃ e ∈ result.snapshot.entries, e.path.segments = [name]) ↔ ∃ obj, ListedAtRoot tree name obj := by
  obtain ⟨-, he, -, -⟩ := scan_found hu h
  constructor
  · intro hex
    obtain ⟨e, hm, hseg⟩ := hex
    -- what is listed was walked, one name below the root
    obtain ⟨node, ⟨hp, hitem, -⟩, hl⟩ := (he e).mp hm
    obtain ⟨hn, -, -, hr, -⟩ := mem_walkItems.mp hitem
    have hpath : node.path = [.utf8 name] := by
      rw [hl.path, RelPath.toLocalPath, hseg]
      rfl
    obtain ⟨path, obj⟩ := node
    change path = _ at hpath
    subst hpath
    refine ⟨obj, ?_, hn, e.path.valid name (by simp [hseg]), ?_, hl.1⟩
    · exact reached_root.mp hr
    · obtain ⟨-, p, -, hle⟩ := hl
      rw [localEntry] at hle
      cases hk : kindOf obj with
      | some k => rfl
      | none =>
        rw [hk] at hle
        exact absurd hle (by simp)
  · intro hex
    obtain ⟨obj, hroot, hn, hv, hk, ht⟩ := hex
    have hrel := relative_toLocalPath ⟨[name], by simpa using hv⟩
    have hpres : rootIsPresent vol tree = .ok true := by
      rw [rootIsPresent, LocalTree.get, hu.find hroot rfl]
      rfl
    -- something of a kind that is listed has an entry
    obtain ⟨e, hle, hep⟩ : ∃ e, localEntry ⟨[name], by simpa using hv⟩ obj = some e ∧
        e.path.segments = [name] := by
      rw [localEntry]
      cases hk' : kindOf obj with
      | none =>
        rw [hk'] at hk
        exact absurd hk (by simp)
      | some k => cases k <;> exact ⟨_, rfl, rfl⟩
    refine ⟨e, (he e).mpr ⟨⟨[.utf8 name], obj⟩, ⟨hpres, ?_, rfl⟩, ht, _, hrel, hle⟩, hep⟩
    apply mem_walkItems.mpr
    refine ⟨hn, by simp, rfl, reached_root.mpr hroot, ?_⟩
    rintro rfl
    exact absurd hk (by simp [kindOf])

variable {n : String} {single : ScanResult}

/-- The two scans vouch alike for a partial of the file itself. -/
theorem partials_agree (hu : tree.UniquePaths vol)
    (hfull : scanLocal vol codec tree label detected peer none cancelled = .ok result)
    (hone : scanLocal vol codec tree label detected peer (some n) (fun _ => false) = .ok single)
    {path : RelPath} (hpath : path.segments = [n]) :
    single.partials.get path = result.partials.get path := by
  obtain ⟨-, -, hpf, -⟩ := scan_found hu hfull
  obtain ⟨-, -, hps, -⟩ := scan_found hu hone
  apply Partials.get_congr
  · intro info
    rw [hpf, hps]
    constructor
    · intro h
      obtain ⟨node, hl, hv⟩ := h
      exact ⟨node, (looked_single_iff.mp hl).1, hv⟩
    · intro h
      obtain ⟨node, hl, hv⟩ := h
      obtain ⟨record, len, hfp, -⟩ := collectPartial_some hv.2.2
      obtain ⟨dir, stem, hdir, hnode⟩ := finalPathOf_some hfp
      -- the record lies at the root and is called after the file
      have hroot : dir = [] ∧ stem = n := by
        rw [RelPath.toLocalPath, hpath, List.map_singleton] at hdir
        have hdir' : [] ++ [OsName.utf8 n] = dir ++ [OsName.utf8 stem] := hdir
        obtain ⟨hd, hs⟩ := List.append_inj' hdir' rfl
        exact ⟨hd.symm, (OsName.utf8.inj (List.singleton_inj.mp hs)).symm⟩
      rw [hroot.1, hroot.2, List.nil_append] at hnode
      refine ⟨node, looked_single_iff.mpr ⟨hl, ⟨_, hnode⟩, (wanted_iff hnode).mpr (Or.inr ?_)⟩, hv⟩
      exact ⟨SIDECAR_SUFFIX, by decide, rfl⟩
  · intro info info' h h'
    obtain ⟨node, -, hv⟩ := (hpf _).mp h
    obtain ⟨node', -, hv'⟩ := (hpf _).mp h'
    exact collectPartial_unique hv.2.2 hv'.2.2

/-- The two scans list alike what is spelled like the file, and the shortcut lists nothing
else that the volume takes for it. -/
theorem single_lists_iff (hu : tree.UniquePaths vol)
    (hfull : scanLocal vol codec tree label detected peer none cancelled = .ok result)
    (hone : scanLocal vol codec tree label detected peer (some n) (fun _ => false) = .ok single)
    (e : Entry) :
    e ∈ single.snapshot.entries ∧
        e.path.key vol.tables vol.folding = [foldName vol.tables vol.folding n] ↔
      e ∈ result.snapshot.entries ∧ e.path.segments = [n] := by
  obtain ⟨-, hef, -, -⟩ := scan_found hu hfull
  obtain ⟨-, hes, -, -⟩ := scan_found hu hone
  constructor
  · intro h
    obtain ⟨hm, hk⟩ := h
    obtain ⟨node, hl, hlist⟩ := (hes e).mp hm
    obtain ⟨hlf, ⟨name, hname⟩, hw⟩ := looked_single_iff.mp hl
    refine ⟨(hef e).mpr ⟨node, hlf, hlist⟩, ?_⟩
    have hlen : e.path.segments.length = 1 := by
      rw [← RelPath.key_length vol.tables vol.folding, hk]
      rfl
    obtain ⟨m, hm⟩ := List.length_eq_one_iff.mp hlen
    have hnode : node.path = [.utf8 m] := by
      rw [hlist.path, RelPath.toLocalPath, hm, List.map_singleton]
    rw [RelPath.key, hm, foldNames, List.map_singleton] at hk
    -- a transfer file's name is never taken for the file's own
    rcases (wanted_iff hnode).mp hw with rfl | ⟨suffix, hs, rfl⟩
    · exact hm
    · exact absurd (List.singleton_inj.mp hk) (foldName_suffix_ne _ _ hs)
  · intro h
    obtain ⟨hm, hseg⟩ := h
    obtain ⟨node, hl, hlist⟩ := (hef e).mp hm
    have hnode : node.path = [.utf8 n] := by
      rw [hlist.path, RelPath.toLocalPath, hseg, List.map_singleton]
    refine ⟨(hes e).mpr ⟨node, looked_single_iff.mpr ⟨hl, ⟨_, hnode⟩, ?_⟩, hlist⟩, ?_⟩
    · exact (wanted_iff hnode).mpr (Or.inl rfl)
    · rw [RelPath.key, hseg]
      rfl

end Scans

section Agreement

variable {vol : Volume} {codec : SidecarCodec} {tree : LocalTree} {peer : Identity}
  {cancelled : ℕ → Bool} {label : String} {full : ScanResult} {f : Entry} {n : String}

/-- Whether every listed object that the volume takes for the file is spelled like it. -/
theorem spelledAlike_iff (hu : tree.UniquePaths vol)
    (hfull : scanLocal vol codec tree label vol.folding peer none cancelled = .ok full)
    (hn : f.path.segments = [n]) :
    SpelledAlike vol tree n ↔ ∀ e ∈ full.snapshot.entries,
      e.path.key vol.tables vol.folding = f.path.key vol.tables vol.folding → e.path = f.path := by
  have hkey : f.path.key vol.tables vol.folding = [foldName vol.tables vol.folding n] := by
    rw [RelPath.key, hn]
    rfl
  constructor
  · intro h e he hk
    rw [hkey] at hk
    have hlen : e.path.segments.length = 1 := by
      rw [← RelPath.key_length vol.tables vol.folding, hk]
      rfl
    obtain ⟨m, hm⟩ := List.length_eq_one_iff.mp hlen
    obtain ⟨obj, hobj⟩ := (full_lists_iff hu hfull m).mp ⟨e, he, hm⟩
    rw [RelPath.key, hm, foldNames, List.map_singleton] at hk
    apply RelPath.segments_injective
    rw [hm, hn, h m obj hobj (List.singleton_inj.mp hk)]
  · intro h other obj hobj hfold
    obtain ⟨e, he, hseg⟩ := (full_lists_iff hu hfull other).mpr ⟨obj, hobj⟩
    have hk : e.path.key vol.tables vol.folding = f.path.key vol.tables vol.folding := by
      rw [hkey, RelPath.key, hseg, ← hfold]
      rfl
    have hp := congrArg RelPath.segments (h e he hk)
    rw [hseg, hn] at hp
    exact List.singleton_inj.mp hp

/-- Where the full scan succeeds, the shortcut does too, and the two plan the file alike
exactly when no listed object of the root is a different spelling of its name. -/
theorem single_file_plans_alike_iff (vol : Volume) (codec : SidecarCodec) (tree : LocalTree)
    (hu : tree.UniquePaths vol) (peer : Identity) (cancelled : ℕ → Bool) (label source : String)
    (full : ScanResult) (f : Entry) (n : String) (opts : TransferOptions)
    (hf : f.kind = .file) (hn : f.path.segments = [n])
    (hfull : scanLocal vol codec tree label vol.folding peer none cancelled = .ok full) :
    ∃ single, scanLocal vol codec tree label vol.folding peer (some n) (fun _ => false) = .ok single ∧
      (plan vol.tables (oneFile source f) single.snapshot single.folding single.partials opts =
          plan vol.tables (oneFile source f) full.snapshot full.folding full.partials opts ↔
        SpelledAlike vol tree n) := by
  obtain ⟨single, hone⟩ := single_exists n hu hfull
  refine ⟨single, hone, ?_⟩
  obtain ⟨-, -, -, hff⟩ := scan_found hu hfull
  obtain ⟨-, -, -, hfs⟩ := scan_found hu hone
  rw [hff, hfs, spelledAlike_iff hu hfull hn]
  have hkey : f.path.key vol.tables vol.folding = [foldName vol.tables vol.folding n] := by
    rw [RelPath.key, hn]
    rfl
  have hlists := single_lists_iff hu hfull hone
  have hpath (e : Entry) : e.path.segments = [n] ↔ e.path = f.path := by
    rw [← hn]
    exact RelPath.segments_injective.eq_iff
  constructor
  · intro heq e he hk
    by_contra hne
    -- the full scan finds something the shortcut does not
    have hsome : ∃ x, destEntry vol.tables full.snapshot vol.folding f = some x := by
      rw [← Option.ne_none_iff_exists']
      intro hnone
      exact SortedTable.first_eq_none.mp hnone e he hk
    have hnone : destEntry vol.tables single.snapshot vol.folding f = none := by
      apply SortedTable.first_eq_none.mpr
      intro e' he' hk'
      obtain ⟨hfull', hseg⟩ := (hlists e').mp ⟨he', hk'.trans hkey⟩
      apply hne
      rw [scan_unique hu hfull he hfull' (hk.trans hk'.symm), (hpath e').mp hseg]
    obtain ⟨x, hx⟩ := hsome
    exact plan_oneFile_ne hf source single.partials full.partials opts hnone hx heq
  · intro h
    have hdest : destEntry vol.tables single.snapshot vol.folding f =
        destEntry vol.tables full.snapshot vol.folding f := by
      rw [destEntry, destEntry, firstWithKey_spelled h, firstWithKey_spelled]
      · rw [← Snapshot.get_eq_first, ← Snapshot.get_eq_first]
        apply Option.ext
        intro e
        rw [Snapshot.get_eq_some, Snapshot.get_eq_some, ← hpath, ← hlists]
        constructor
        · intro hx
          refine ⟨hx.1, ?_⟩
          rw [RelPath.key, hx.2]
          rfl
        · intro hx
          exact ⟨hx.1, ((hlists e).mp hx).2⟩
      · intro e he hk
        exact (hpath e).mp ((hlists e).mp ⟨he, hk.trans hkey⟩).2
    rw [plan_oneFile hf, plan_oneFile hf, hdest, partials_agree hu hfull hone hn]

/-- A volume that folds case, with one file at the root. -/
private def foldingVolume : Volume := ⟨.ascii, .caseInsensitive, 64⟩

private def oneJpg : LocalTree := [⟨[], .dir true⟩, ⟨[.utf8 "a.jpg"], .file [1] true⟩]

private def anotherJpg : Entry := Entry.file (.ofSegments ["A.jpg"]) 2 none

private def phone : Identity := ⟨"ZY22", "Internal"⟩

private def oneJpgScan : ScanResult where
  snapshot := Snapshot.new "local" [Entry.file (.ofSegments ["a.jpg"]) 1 none] []
  partials := []
  folding := .caseInsensitive

theorem single_file_plans_alike_iff_oneJpg :
    ∃ single, scanLocal foldingVolume .json oneJpg "local" .caseInsensitive phone (some "A.jpg")
        (fun _ => false) = .ok single ∧
      (plan .ascii (oneFile "phone" anotherJpg) single.snapshot single.folding single.partials .pull =
          plan .ascii (oneFile "phone" anotherJpg) oneJpgScan.snapshot oneJpgScan.folding
            oneJpgScan.partials .pull ↔
        SpelledAlike foldingVolume oneJpg "A.jpg") :=
  single_file_plans_alike_iff foldingVolume .json oneJpg (by decide) phone (fun _ => false) "local"
    "phone" oneJpgScan anotherJpg "A.jpg" .pull rfl rfl rfl

/-- On a volume that folds case, with `a.jpg` there, the full scan refuses `A.jpg` and the
single-file scan plans it as new. -/
theorem single_file_scan_overlooks :
    ∃ full single, scanLocal foldingVolume .json oneJpg "local" .caseInsensitive phone none
        (fun _ => false) = .ok full ∧
      scanLocal foldingVolume .json oneJpg "local" .caseInsensitive phone (some "A.jpg")
        (fun _ => false) = .ok single ∧
      plan .ascii (oneFile "phone" anotherJpg) full.snapshot full.folding full.partials .pull =
        .error [.ofSegments ["A.jpg"]] ∧
      plan .ascii (oneFile "phone" anotherJpg) single.snapshot single.folding single.partials .pull =
        .ok (Plan.new [.copy (.ofSegments ["A.jpg"]) 2 none 0 .new]) := by
  exact ⟨_, _, rfl, rfl, rfl, rfl⟩

end Agreement

end MtpxCore
