import MtpxCore.PlannerReplay

/-! Every plan can be executed in order. Mkdirs come first and outermost first, the parent
of whatever is written is a directory by then, and what one action writes is neither
written nor passed through by another. -/
namespace MtpxCore

section Writes

variable {tables : CaseTables} {source dest : Snapshot} {folding : NameFolding}
  {partials : Partials} {conflict : ConflictPolicy}

/-- The entry behind a mkdir or a copy. -/
theorem writes_of_mem (hc : AncestorClosed source) {a : Action}
    (ha : a ∈ plannedActions tables source dest folding partials conflict)
    (hs : a.isSkip = false) :
    ∃ e ∈ source.entries, e.path = a.path ∧ Unhindered tables source dest folding e ∧
      (a = .mkdir e.path ∧ e.kind = .dir ∧ destEntry tables dest folding e = none ∨
        e.kind = .file ∧
          (∃ resumeFrom reason, a = .copy e.path e.size e.modified resumeFrom reason) ∧
          ∀ x, destEntry tables dest folding e = some x →
            x.kind = .file ∧ x.size ≠ e.size ∧ conflict ≠ .skip) := by
  cases a with
  | mkdir path =>
    obtain ⟨e, he, rfl, hk, hun, hnone⟩ := (mem_mkdir_iff hc).mp ha
    exact ⟨e, he, rfl, hun, Or.inl ⟨rfl, hk, hnone⟩⟩
  | copy path size modified resumeFrom reason =>
    obtain ⟨e, he, hk, hun, hd⟩ := (mem_copy_iff hc).mp ha
    rcases decideFile_cases e (destEntry tables dest folding e) (partials.get e.path) conflict with
      ⟨r, hcopy, hwhy⟩ | ⟨r, x, hskip, -⟩
    · rw [hcopy] at hd
      refine ⟨e, he, congrArg Action.path hd, hun, Or.inr ⟨hk, ⟨_, r, hd.symm⟩, ?_⟩⟩
      intro x hx
      rcases hwhy with hnone | ⟨y, hy, hyk, hys, hpol⟩
      · rw [hx] at hnone
        exact absurd hnone (by simp)
      · rw [hx] at hy
        rw [Option.some.inj hy]
        exact ⟨hyk.trans hk, hys, hpol⟩
    · rw [hskip] at hd
      exact absurd hd (by simp)
  | skip path reason => exact absurd hs (by simp [Action.isSkip])

/-- An uncontested entry shares its folded name with directories at most. -/
theorem first_of_uncontested {e : Entry} (he : e ∈ source.entries)
    (hcon : ¬Contested tables source folding e) :
    ∃ o, firstWithKey tables folding source.entries (e.path.key tables folding) = some o ∧
      (o = e ∨ e.kind = .dir ∧ o.kind = .dir) := by
  cases hf : firstWithKey tables folding source.entries (e.path.key tables folding) with
  | none => exact absurd rfl (SortedTable.first_eq_none.mp hf e he)
  | some o =>
    refine ⟨o, rfl, ?_⟩
    by_cases hoe : o = e
    · exact Or.inl hoe
    · right
      by_contra hdirs
      exact hcon ⟨o, hf, hoe, hdirs⟩

/-- The file behind a copy comes first under its folded name. -/
theorem first_of_copied {e : Entry} (he : e ∈ source.entries) (hk : e.kind = .file)
    (hun : Unhindered tables source dest folding e) :
    firstWithKey tables folding source.entries (e.path.key tables folding) = some e := by
  obtain ⟨o, ho, hor⟩ := first_of_uncontested he hun.2
  rcases hor with rfl | ⟨hdir, -⟩
  · exact ho
  · exact absurd (hk.symm.trans hdir) (by simp)

/-- A copied path is written, or passed through, by no other action. -/
theorem copy_apart (hc : AncestorClosed source) {a b : Action}
    (ha : a ∈ plannedActions tables source dest folding partials conflict)
    (hac : a.isCopy = true)
    (hb : b ∈ plannedActions tables source dest folding partials conflict)
    (hbs : b.isSkip = false)
    (hpre : a.key tables folding <+: b.key tables folding) : a.path = b.path := by
  obtain ⟨e, he, hep, hun, hwe⟩ := writes_of_mem hc ha (Action.isSkip_of_isCopy hac)
  obtain ⟨f, hf, hfp, hunf, -⟩ := writes_of_mem hc hb hbs
  have hek : e.kind = .file := by
    rcases hwe with ⟨rfl, -⟩ | ⟨hk, -⟩
    · exact absurd hac (by simp [Action.isCopy])
    · exact hk
  have hfirst := first_of_copied he hek hun
  rw [Action.key, Action.key, ← hep, ← hfp] at hpre
  by_cases heq : e.path.key tables folding = f.path.key tables folding
  · -- the two share a name, and a file shares its name with nothing
    obtain ⟨o, ho, hor⟩ := first_of_uncontested hf hunf.2
    rw [← heq, hfirst] at ho
    obtain rfl := Option.some.inj ho
    rcases hor with rfl | ⟨-, hdir⟩
    · rw [← hep, ← hfp]
    · exact absurd (hek.symm.trans hdir) (by simp)
  · exact absurd ⟨_, key_ne_nil (hc.nonroot e he), hpre, heq, Or.inl ⟨e, hfirst, hek⟩⟩ hunf.1

variable (partials conflict) in
/-- The directory above an unhindered entry is there already or gets a mkdir. -/
theorem parent_dir (hc : AncestorClosed source) {e : Entry} (he : e ∈ source.entries)
    (hun : Unhindered tables source dest folding e) {k : List String} (hk : k ≠ [])
    (hpre : k <+: e.path.key tables folding) (hne : k ≠ e.path.key tables folding) :
    ∃ d ∈ source.entries, d.kind = .dir ∧ d.path.key tables folding = k ∧ d.path < e.path ∧
      ¬Obstacle tables source dest folding k ∧
      (destEntry tables dest folding d = none ∧
          Action.mkdir d.path ∈ plannedActions tables source dest folding partials conflict ∨
        ∃ x, destEntry tables dest folding d = some x ∧ x.kind = .dir) := by
  obtain ⟨d, hd, hdir, rfl, hseg, hdne⟩ := exists_ancestor hc he hk hpre hne
  have hobs : ¬Obstacle tables source dest folding (d.path.key tables folding) :=
    fun ho => hun.1 ⟨_, hk, hpre, hne, ho⟩
  have hlt : d.path < e.path :=
    LexPrefix.prefix_lt hseg (fun hs => hdne (RelPath.segments_injective hs))
  refine ⟨d, hd, hdir, rfl, hlt, hobs, ?_⟩
  cases hx : destEntry tables dest folding d with
  | none =>
    left
    refine ⟨rfl, (mem_mkdir_iff hc).mpr ⟨d, hd, rfl, hdir, ⟨?_, ?_⟩, hx⟩⟩
    · intro ho
      obtain ⟨k, hk', hpre', hne', hobs'⟩ := ho
      -- above an unhindered entry nothing is hindered
      refine hun.1 ⟨k, hk', hpre'.trans hpre, ?_, hobs'⟩
      intro heq
      have hle := hpre'.length_le
      have hlt' := lt_of_le_of_ne hpre.length_le (fun hl => hne (hpre.eq_of_length hl))
      rw [heq] at hle
      omega
    · intro hcon
      obtain ⟨o, ho, -, hdirs⟩ := hcon
      -- a name shared with anything but a directory would be in the way of the entry
      apply hobs
      left
      refine ⟨o, ho, ?_⟩
      cases hok : o.kind with
      | file => rfl
      | dir => exact absurd ⟨hdir, hok⟩ hdirs
  | some x =>
    right
    refine ⟨x, rfl, ?_⟩
    cases hxk : x.kind with
    | dir => rfl
    | file => exact absurd (Or.inr ⟨x, hx, hxk⟩) hobs

end Writes

section Order

variable (tables : CaseTables) (source dest : Snapshot) (folding : NameFolding)
  (partials : Partials) (conflict : ConflictPolicy)

theorem verdicts_sorted : (verdicts tables source dest folding).Pairwise
    (fun p q => p.1.path < q.1.path) := by
  have hs := source.sorted
  rw [← verdicts_map_fst tables source dest folding, SortedTable.Strict,
    List.pairwise_map] at hs
  exact hs

theorem mem_mkdirs {e : Entry} {v : Verdict} {a : Action} (h : a ∈ v.mkdirs e) :
    v = .directory .mkdir ∧ a = .mkdir e.path := by
  unfold Verdict.mkdirs at h
  split at h
  · exact ⟨rfl, List.mem_singleton.mp h⟩
  · exact absurd h List.not_mem_nil

theorem mem_files {existing : Option Entry} {e : Entry} {v : Verdict} {a : Action}
    (h : a ∈ v.files existing partials conflict e) :
    v ≠ .directory .mkdir ∧ a.path = e.path ∧ ∀ q, a ≠ .mkdir q := by
  cases v with
  | blocked r =>
    rw [List.mem_singleton.mp h]
    exact ⟨by simp, rfl, by simp [MtpxCore.skip]⟩
  | collision =>
    rw [List.mem_singleton.mp h]
    exact ⟨by simp, rfl, by simp [MtpxCore.skip]⟩
  | directory d =>
    cases d with
    | mkdir => exact absurd h List.not_mem_nil
    | present => exact absurd h List.not_mem_nil
    | blocked =>
      rw [List.mem_singleton.mp h]
      exact ⟨by simp, rfl, by simp [MtpxCore.skip]⟩
  | file =>
    rw [List.mem_singleton.mp h]
    rcases decideFile_cases e existing (partials.get e.path) conflict with
      ⟨r, hd, -⟩ | ⟨r, x, hd, -⟩
    · rw [hd]
      exact ⟨by simp, rfl, by simp⟩
    · rw [hd]
      exact ⟨by simp, rfl, by simp⟩

/-- Only a mkdir of a smaller path precedes a mkdir. -/
theorem planned_order : (plannedActions tables source dest folding partials conflict).Pairwise
    (fun a b => ∀ q, b = .mkdir q → ∃ p, a = .mkdir p ∧ p < q) := by
  rw [plannedActions, List.pairwise_append]
  refine ⟨?_, ?_, ?_⟩
  · rw [List.pairwise_flatMap]
    constructor
    · intro p _
      cases p.2 with
      | directory d => cases d <;> simp [Verdict.mkdirs]
      | blocked r => exact List.Pairwise.nil
      | collision => exact List.Pairwise.nil
      | file => exact List.Pairwise.nil
    · apply (verdicts_sorted tables source dest folding).imp
      intro p q hlt a ha b hb r hr
      obtain ⟨-, rfl⟩ := mem_mkdirs ha
      obtain ⟨-, rfl⟩ := mem_mkdirs hb
      rw [← Action.mkdir.inj hr]
      exact ⟨p.1.path, rfl, hlt⟩
  · apply List.pairwise_of_forall_mem_list
    intro a _ b hb q hq
    obtain ⟨p, -, hb⟩ := List.mem_flatMap.mp hb
    exact absurd hq ((mem_files partials conflict hb).2.2 q)
  · intro a _ b hb q hq
    obtain ⟨p, -, hb⟩ := List.mem_flatMap.mp hb
    exact absurd hq ((mem_files partials conflict hb).2.2 q)

/-- Every entry is in the plan once at most. -/
theorem planned_paths : (plannedActions tables source dest folding partials conflict).Pairwise
    (fun a b => a.path ≠ b.path) := by
  -- within a pass the actions follow the source, which repeats no path
  have hpart (f : Entry × Verdict → List Action)
      (hpath : ∀ p, ∀ a ∈ f p, a.path = p.1.path)
      (hone : ∀ p, (f p).Pairwise (fun a b => a.path ≠ b.path)) :
      ((verdicts tables source dest folding).flatMap f).Pairwise
        (fun a b => a.path ≠ b.path) := by
    rw [List.pairwise_flatMap]
    refine ⟨fun p _ => hone p, ?_⟩
    apply (verdicts_sorted tables source dest folding).imp
    intro p q hlt a ha b hb
    rw [hpath p a ha, hpath q b hb]
    exact hlt.ne
  rw [plannedActions, List.pairwise_append]
  refine ⟨hpart _ ?_ ?_, hpart _ ?_ ?_, ?_⟩
  · intro p a ha
    rw [(mem_mkdirs ha).2]
    rfl
  · intro p
    cases p.2 with
    | directory d => cases d <;> simp [Verdict.mkdirs]
    | blocked r => exact List.Pairwise.nil
    | collision => exact List.Pairwise.nil
    | file => exact List.Pairwise.nil
  · intro p a ha
    exact (mem_files partials conflict ha).2.1
  · intro p
    cases p.2 with
    | directory d => cases d <;> simp [Verdict.files]
    | blocked r => exact List.pairwise_singleton _ _
    | collision => exact List.pairwise_singleton _ _
    | file => exact List.pairwise_singleton _ _
  · intro a ha b hb hab
    -- an entry has one verdict, which puts it into one pass
    obtain ⟨⟨e, v⟩, hp, ha⟩ := List.mem_flatMap.mp ha
    obtain ⟨⟨f, w⟩, hq, hb⟩ := List.mem_flatMap.mp hb
    obtain ⟨rfl, rfl⟩ := mem_mkdirs ha
    obtain ⟨hw, hbp, -⟩ := mem_files partials conflict hb
    have hef : e = f := Snapshot.eq_of_path (mem_of_verdict hp) (mem_of_verdict hq)
      (Eq.trans hab hbp)
    subst hef
    exact hw (verdict_unique hp hq).symm

variable {tables source dest folding partials conflict}

/-- Different places of a plan are about different paths. -/
theorem planned_path_ne {i j : ℕ} {a b : Action} (hij : i ≠ j)
    (hi : (plannedActions tables source dest folding partials conflict)[i]? = some a)
    (hj : (plannedActions tables source dest folding partials conflict)[j]? = some b) :
    a.path ≠ b.path := by
  have hnodup : (plannedActions tables source dest folding partials conflict).map
      Action.path |>.Nodup :=
    List.pairwise_map.mpr (planned_paths tables source dest folding partials conflict)
  intro hab
  apply hij
  have hli := (List.getElem?_eq_some_iff.mp hi).1
  apply (List.getElem?_inj (by rwa [List.length_map]) hnodup).mp
  rw [List.getElem?_map, List.getElem?_map, hi, hj, Option.map_some, Option.map_some, hab]

end Order

section Executes

variable (tables : CaseTables) (folding : NameFolding)

/-- The parent of `path` is a directory; the transfer root always is. -/
def ParentReady (store : Store) (path : RelPath) : Prop :=
  ∀ parent, path.parent = some parent → parent.segments ≠ [] →
    ∃ h, store (parent.key tables folding) = some h ∧ h.kind = .dir

/-- An action that a destination can carry out as it stands. -/
def Executable (store : Store) : Action → Prop
  | .mkdir path => ParentReady tables folding store path ∧
      ∀ h, store (path.key tables folding) = some h → h.kind = .dir
  | .copy path _ _ _ _ => ParentReady tables folding store path ∧
      ∀ h, store (path.key tables folding) = some h → h.kind = .file
  | .skip _ _ => True

variable {tables folding} {source dest : Snapshot} {partials : Partials}
  {conflict : ConflictPolicy}

/-- Whatever a plan writes finds its parent, with every earlier action done. -/
theorem parentReady (hc : AncestorClosed source) {pre post : List Action} {a : Action}
    (hsplit : plannedActions tables source dest folding partials conflict = pre ++ a :: post)
    (hs : a.isSkip = false) :
    ParentReady tables folding ((Store.of tables folding dest).replay tables folding pre)
      a.path := by
  have hmem (b : Action) (hb : b ∈ pre) :
      b ∈ plannedActions tables source dest folding partials conflict :=
    hsplit ▸ List.mem_append_left _ hb
  have ha : a ∈ plannedActions tables source dest folding partials conflict :=
    hsplit ▸ List.mem_append_right _ List.mem_cons_self
  obtain ⟨e, he, hep, hun, -⟩ := writes_of_mem hc ha hs
  intro parent hparent hne
  rw [RelPath.parent] at hparent
  split at hparent
  · exact absurd hparent (by simp)
  · rename_i hroot
    rw [← hep] at hparent hroot
    have hseg : parent.segments = e.path.segments.dropLast := by
      rw [← Option.some.inj hparent]
    have hpre : parent.segments <+: e.path.segments := hseg ▸ List.dropLast_prefix _
    have hkne : parent.key tables folding ≠ e.path.key tables folding := by
      intro hk
      have hl := congrArg List.length hk
      rw [RelPath.key_length, RelPath.key_length, hseg, List.length_dropLast] at hl
      have hpos := List.length_pos_iff.mpr hroot
      omega
    obtain ⟨d, hd, hdir, hdk, hlt, hobs, hhere⟩ :=
      parent_dir partials conflict hc he hun (key_ne_nil hne) (key_mono hpre) hkne
    -- a copy to the parent's name would be an obstacle above `e`
    have hno : ∀ b ∈ pre, b.isCopy = true → b.key tables folding ≠ parent.key tables folding := by
      intro b hb hbc hbk
      obtain ⟨f, hf, hfp, hunf, hwf⟩ :=
        writes_of_mem hc (hmem b hb) (Action.isSkip_of_isCopy hbc)
      rcases hwf with ⟨rfl, -⟩ | ⟨hfk, -⟩
      · exact absurd hbc (by simp [Action.isCopy])
      · rw [Action.key, ← hfp] at hbk
        exact hobs (Or.inl ⟨f, hbk ▸ first_of_copied hf hfk hunf, hfk⟩)
    rcases hhere with ⟨hnone, hmk⟩ | ⟨x, hx, hxk⟩
    · refine ⟨⟨.dir, 0⟩, ?_, rfl⟩
      have horder := planned_order tables source dest folding partials conflict
      rw [hsplit] at horder hmk
      have hin : Action.mkdir d.path ∈ pre := by
        rcases List.mem_append.mp hmk with h | h
        · exact h
        · exfalso
          rcases List.mem_cons.mp h with h | h
          · rw [← h] at hep
            exact hlt.ne hep.symm
          · obtain ⟨-, hrest, -⟩ := List.pairwise_append.mp horder
            obtain ⟨p, rfl, hpd⟩ := (List.pairwise_cons.mp hrest).1 _ h d.path rfl
            rw [hep] at hlt
            exact lt_asymm hlt hpd
      apply replay_mkdir _ hno hin hdk
      rw [Store.of, ← hdk, show firstWithKey tables folding dest.entries
        (d.path.key tables folding) = none from hnone]
      rfl
    · refine ⟨⟨x.kind, x.size⟩, ?_, hxk⟩
      apply replay_keeps _ hno
      rw [Store.of, ← hdk, show firstWithKey tables folding dest.entries
        (d.path.key tables folding) = some x from hx]
      rfl

/-- What a plan writes to holds nothing of the other kind when its turn comes. -/
theorem executable_at (hc : AncestorClosed source) {pre post : List Action} {a : Action}
    (hsplit : plannedActions tables source dest folding partials conflict = pre ++ a :: post) :
    Executable tables folding ((Store.of tables folding dest).replay tables folding pre) a := by
  have hmem (b : Action) (hb : b ∈ pre ++ a :: post) :
      b ∈ plannedActions tables source dest folding partials conflict := hsplit ▸ hb
  have ha := hmem a (List.mem_append_right _ List.mem_cons_self)
  have hpaths := planned_paths tables source dest folding partials conflict
  rw [hsplit] at hpaths
  have hother (b : Action) (hb : b ∈ pre) : b.path ≠ a.path :=
    (List.pairwise_append.mp hpaths).2.2 b hb a List.mem_cons_self
  cases a with
  | skip path reason => trivial
  | mkdir path =>
    refine ⟨parentReady hc hsplit rfl, ?_⟩
    intro h hh
    obtain ⟨e, he, rfl, hdir, hun, hnone⟩ := (mem_mkdir_iff hc).mp ha
    have hinit : (Store.of tables folding dest) (e.path.key tables folding) = none := by
      rw [Store.of, show firstWithKey tables folding dest.entries
        (e.path.key tables folding) = none from hnone]
      rfl
    have hno : ∀ b ∈ pre, b.isCopy = true →
        b.key tables folding ≠ e.path.key tables folding := by
      intro b hb hbc hbk
      exact hother b hb (copy_apart hc (hmem b (List.mem_append_left _ hb)) hbc ha rfl
        (hbk ▸ List.prefix_rfl))
    -- nothing or an earlier mkdir's directory
    by_cases hmk : ∃ q, Action.mkdir q ∈ pre ∧
        q.key tables folding = e.path.key tables folding
    · obtain ⟨q, hq, hqk⟩ := hmk
      rw [replay_mkdir hinit hno hq hqk] at hh
      rw [← Option.some.inj hh]
    · rw [replay_same, hinit] at hh
      · exact absurd hh (by simp)
      · intro b hb hbs hbk
        cases b with
        | mkdir q => exact hmk ⟨q, hb, hbk⟩
        | copy q size modified resumeFrom reason => exact hno _ hb rfl hbk
        | skip q reason => exact absurd hbs (by simp [Action.isSkip])
  | copy path size modified resumeFrom reason =>
    refine ⟨parentReady hc hsplit rfl, ?_⟩
    intro h hh
    rw [replay_same] at hh
    · obtain ⟨e, he, hep, hun, hw⟩ := writes_of_mem hc ha rfl
      rcases hw with ⟨hm, -⟩ | ⟨-, -, hdest⟩
      · exact absurd hm (by simp)
      · have hep' : e.path = path := hep
        rw [Store.of, ← hep'] at hh
        obtain ⟨x, hx, rfl⟩ := Option.map_eq_some_iff.mp hh
        exact (hdest x hx).1
    · intro b hb hbs hbk
      exact hother b hb (copy_apart hc ha rfl (hmem b (List.mem_append_left _ hb)) hbs
        (hbk ▸ List.prefix_rfl)).symm

/-- Replayed in order on the destination, every action of a plan finds its parent, meets
nothing of the other kind, and a copy shares its path with no other mkdir or copy and is
above none. -/
theorem plan_executes (tables : CaseTables) (source dest : Snapshot) (folding : NameFolding)
    (partials : Partials) (opts : TransferOptions) (hc : AncestorClosed source) (p : Plan)
    (hp : plan tables source dest folding partials opts = .ok p) :
    (∀ pre a post, p.actions = pre ++ a :: post →
      Executable tables folding ((Store.of tables folding dest).replay tables folding pre) a) ∧
    ∀ (i j : ℕ) (a b : Action), i ≠ j → p.actions[i]? = some a → p.actions[j]? = some b → a.isCopy = true →
      (b.isCopy = true → a.key tables folding ≠ b.key tables folding) ∧
        (b.isSkip = false → ¬a.key tables folding <+: b.key tables folding) := by
  have hactions := plan_ok hp
  constructor
  · intro pre a post hsplit
    rw [hactions] at hsplit
    exact executable_at hc hsplit
  · intro i j a b hij hi hj hac
    rw [hactions] at hi hj
    have hne : a.path ≠ b.path := planned_path_ne hij hi hj
    have hapart (hbs : b.isSkip = false) : ¬a.key tables folding <+: b.key tables folding :=
      fun hpre => hne (copy_apart hc (List.mem_of_getElem? hi) hac (List.mem_of_getElem? hj) hbs
        hpre)
    refine ⟨?_, hapart⟩
    intro hbc hk
    exact hapart (Action.isSkip_of_isCopy hbc) (hk ▸ List.prefix_rfl)

private def twoVideos : Snapshot :=
  Snapshot.new "device" [Entry.dir (.ofSegments ["Videos"]) none,
    Entry.file (.ofSegments ["Videos", "a.mp4"]) 1 none, Entry.dir (.ofSegments ["videos"]) none,
    Entry.file (.ofSegments ["videos", "b.mp4"]) 1 none] []

/-- Two spellings of one folder: both get a mkdir, ahead of the files of either. -/
theorem plan_executes_merged_dirs :
    ∃ p, plan .ascii twoVideos (Snapshot.new "local" [] []) .caseInsensitive [] .sync = .ok p ∧
      p.actions = [.mkdir (.ofSegments ["Videos"]), .mkdir (.ofSegments ["videos"]),
        .copy (.ofSegments ["Videos", "a.mp4"]) 1 none 0 .new,
        .copy (.ofSegments ["videos", "b.mp4"]) 1 none 0 .new] ∧
      ∀ pre a post, p.actions = pre ++ a :: post →
        Executable .ascii .caseInsensitive ((Store.of .ascii .caseInsensitive
          (Snapshot.new "local" [] [])).replay .ascii .caseInsensitive pre) a := by
  have hp : plan .ascii twoVideos (Snapshot.new "local" [] []) .caseInsensitive [] .sync =
      .ok (Plan.new [.mkdir (.ofSegments ["Videos"]), .mkdir (.ofSegments ["videos"]),
        .copy (.ofSegments ["Videos", "a.mp4"]) 1 none 0 .new,
        .copy (.ofSegments ["videos", "b.mp4"]) 1 none 0 .new]) := by decide
  have htree : twoVideos.isTree = true := by decide
  exact ⟨_, hp, rfl, (plan_executes .ascii twoVideos _ .caseInsensitive [] .sync
    (Snapshot.ancestorClosed_of_isTree htree) _ hp).1⟩

end Executes

end MtpxCore
