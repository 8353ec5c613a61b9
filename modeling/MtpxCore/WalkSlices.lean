import MtpxCore.DeviceLedger

/-! What a finished walk holds of each folder it listed: what listing that folder alone comes to,
but for the folders it had seen before. -/
namespace MtpxCore

/-- A child that listing one of the folders in `listed` gave. -/
def ListedIn (storage : Storage) (listed : List (RelPath × Option ObjectHandle))
    (c : RelPath × ObjectInfo) : Prop :=
  ∃ dir ∈ listed, ∃ listing, listFolder storage dir.2 dir.1 = .ok listing ∧ c ∈ listing.children

/-- What is recorded under a listed folder: its children but for `again` of its folders, each of
which was seen before, and its skips with one more for each of these. -/
structure Slice (storage : Storage) (walked : Walked) (item : RelPath × Option ObjectHandle)
    (listing : Listing) (kept : List (RelPath × ObjectInfo)) (again : ℕ) : Prop where
  alone : listFolder storage item.2 item.1 = .ok listing
  among : kept.Sublist listing.children
  count : listing.children.length = kept.length + again
  files : ∀ c ∈ listing.children, c.2.folder = false → c ∈ kept
  entries : walked.entries.filter (fun e => beneath item.1 e.path) =
    kept.map (fun r => entryFrom r.1 r.2)
  skipped : walked.skipped.filter (fun s => decide (s.parent = item.1)) =
    listing.skipped ++ List.replicate again ⟨item.1, .listedTwice⟩

/-- A walk with the folders in `listed` done. -/
structure Slices (storage : Storage) (root : Option ObjectHandle)
    (listed : List (RelPath × Option ObjectHandle)) (state : WalkState) : Prop where
  tree : state.Inv (listed.map Prod.fst)
  start : (RelPath.root, root) ∈ listed ++ state.pending
  reached : ∀ item ∈ listed ++ state.pending, item = (RelPath.root, root) ∨
    ∃ info, ListedIn storage listed (item.1, info) ∧ info.folder = true ∧ item.2 = some info.handle
  source : ∀ e ∈ state.walked.entries, ∃ info, ListedIn storage listed (e.path, info) ∧
    e = entryFrom e.path info ∧ (info.folder = true → (e.path, some info.handle) ∈ listed ++ state.pending)
  skipped : ∀ s ∈ state.walked.skipped, s.parent ∈ listed.map Prod.fst
  slices : ∀ item ∈ listed, ∃ listing kept again, Slice storage state.walked item listing kept again

section Visiting

variable {storage : Storage} {root : Option ObjectHandle}
  {listed : List (RelPath × Option ObjectHandle)} {state : WalkState}

theorem ListedIn.mono {item : RelPath × Option ObjectHandle} {c : RelPath × ObjectInfo}
    (h : ListedIn storage listed c) : ListedIn storage (item :: listed) c := by
  obtain ⟨dir, hdir, hrest⟩ := h
  exact ⟨dir, List.mem_cons_of_mem _ hdir, hrest⟩

theorem Slices.start_state (storage : Storage) (root : Option ObjectHandle) :
    Slices storage root [] (WalkState.start storage root) where
  tree := WalkState.inv_start storage root
  start := List.mem_cons_self
  reached := fun _ h => Or.inl (List.mem_singleton.mp h)
  source := fun _ h => absurd h List.not_mem_nil
  skipped := fun _ h => absurd h List.not_mem_nil
  slices := fun _ h => absurd h List.not_mem_nil

/-- A file is recorded whatever was seen before. -/
theorem foldl_child_file {dir : RelPath} {children : List (RelPath × ObjectInfo)} {before : WalkState}
    {c : RelPath × ObjectInfo} (hc : c ∈ children) (hfile : c.2.folder = false) :
    entryFrom c.1 c.2 ∈ (children.foldl (WalkState.child dir) before).walked.entries := by
  induction children generalizing before with
  | nil => exact absurd hc List.not_mem_nil
  | cons item children ih =>
    rw [List.foldl_cons]
    rcases List.mem_cons.mp hc with rfl | hc
    · have hchild : WalkState.child dir before c = before.record c.1 c.2 := by
        rw [WalkState.child, if_neg (by rw [hfile]; exact Bool.false_ne_true)]
      obtain ⟨kept, left, -, -, hbooks⟩ := foldl_child_books dir children (before.record c.1 c.2)
      rw [hchild, hbooks.entries]
      exact List.mem_append_left _ (List.mem_append_right _ List.mem_cons_self)
    · exact ih hc

theorem listFolder_parents {handle : Option ObjectHandle} {path : RelPath} {listing : Listing}
    (h : listFolder storage handle path = .ok listing) : ∀ s ∈ listing.skipped, s.parent = path := by
  rw [listFolder] at h
  cases hcollect : storage.collectObjects handle with
  | error e =>
    rw [hcollect] at h
    exact absurd h (by simp [describe])
  | ok collection =>
    obtain ⟨listing', dropped, reasons, hdescribe, -, hskipped, -⟩ := describe_split path collection
    rw [hcollect, hdescribe] at h
    obtain rfl := Except.ok.inj h
    intro s hs
    rw [hskipped] at hs
    obtain ⟨reason, -, rfl⟩ := List.mem_map.mp hs
    rfl

/-- What listing the folder pushed last adds to a walk, and what it leaves to list. -/
theorem visit_adds {path : RelPath} {handle : Option ObjectHandle} {listing : Listing}
    (hlist : listFolder storage handle path = .ok listing) (before : WalkState)
    (hnew : ∀ c ∈ listing.children, c.1 ∉ before.walked.entries.map Entry.path) :
    ∃ kept again, kept.Sublist listing.children ∧ listing.children.length = kept.length + again ∧
      (∀ c ∈ listing.children, c.2.folder = false → c ∈ kept) ∧
      Adds path before.walked (before.visit path listing).walked kept
        (listing.skipped ++ List.replicate again ⟨path, .listedTwice⟩) ∧
      (before.visit path listing).pending = ((kept.filter (fun r => r.2.folder)).map
        (fun r => (r.1, some r.2.handle))).reverse ++ before.pending := by
  obtain ⟨collection, -, hchildren⟩ := listFolder_children hlist
  obtain ⟨kept, left, hperm, hsub, hbooks⟩ := foldl_child_books path listing.children
    { before with
      walked := { before.walked with skipped := before.walked.skipped ++ listing.skipped } }
  have hnamed (r : RelPath × ObjectInfo) (hr : r ∈ kept) :
      r.1.segments = path.segments ++ [r.2.filename] := by
    have hmem := hsub.subset hr
    rw [hchildren] at hmem
    exact (classify_child hmem).1
  have hskips : left.map (fun _ => (⟨path, .listedTwice⟩ : SkippedEntry)) =
      List.replicate left.length ⟨path, .listedTwice⟩ := List.map_const' ..
  refine ⟨kept, left.length, hsub, ?_, ?_, ⟨hnamed, ?_, hbooks.entries, hbooks.handles, ?_⟩,
    hbooks.pending⟩
  · have hlength := hperm.length_eq
    rwa [List.length_append, List.length_map, List.length_map] at hlength
  · intro c hc hfile
    -- a file is recorded, whether or not its folder was met before
    have hentry : entryFrom c.1 c.2 ∈ (before.visit path listing).walked.entries :=
      foldl_child_file hc hfile
    rw [WalkState.visit, hbooks.entries] at hentry
    rcases List.mem_append.mp hentry with hold | hkept
    · refine absurd ?_ (hnew c hc)
      exact List.mem_map.mpr ⟨_, hold, entryFrom_path _ _⟩
    · -- its path is that of one kept child, and no other child has it
      obtain ⟨r, hr, hsame⟩ := List.mem_map.mp hkept
      have hpath : r.1 = c.1 := by
        rw [← entryFrom_path r.1 r.2, hsame, entryFrom_path]
      have hnodup := classify_nodup path collection.objects
      rw [← hchildren] at hnodup
      exact List.inj_on_of_nodup_map hnodup (hsub.subset hr) hc hpath ▸ hr
  · intro s hs
    rcases List.mem_append.mp hs with hs | hs
    · exact listFolder_parents hlist s hs
    · rw [(List.mem_replicate.mp hs).2]
  · rw [← List.append_assoc, ← hskips]
    exact hbooks.skipped

/-- What is recorded elsewhere leaves the slice of a folder alone. -/
theorem Slice.frame {walked after : Walked} {item : RelPath × Option ObjectHandle} {listing : Listing}
    {mine kept : List (RelPath × ObjectInfo)} {again : ℕ} {dir : RelPath} {skips : List SkippedEntry}
    (h : Slice storage walked item listing mine again) (hdir : dir ≠ item.1)
    (hadds : Adds dir walked after kept skips) : Slice storage after item listing mine again := by
  refine ⟨h.alone, h.among, h.count, h.files, ?_, ?_⟩
  · have hnone : (kept.map (fun r => entryFrom r.1 r.2)).filter
        (fun e => beneath item.1 e.path) = [] := by
      apply List.filter_eq_nil_iff.mpr
      intro e he
      obtain ⟨r, hr, rfl⟩ := List.mem_map.mp he
      rw [entryFrom_path]
      exact fun hin => hdir (beneath_unique (beneath_of_segments (hadds.named r hr)) hin)
    rw [hadds.entries, List.filter_append, hnone, List.append_nil, h.entries]
  · have hnone : skips.filter (fun s => decide (s.parent = item.1)) = [] := by
      apply List.filter_eq_nil_iff.mpr
      intro s hs
      rw [hadds.parents s hs, decide_eq_true_eq]
      exact hdir
    rw [hadds.skipped, List.filter_append, hnone, List.append_nil, h.skipped]

/-- Listing the folder pushed last gives it its slice. -/
theorem Slices.visit (h : Slices storage root listed state) {path : RelPath}
    {handle : Option ObjectHandle} {pending : List (RelPath × Option ObjectHandle)}
    (hpending : state.pending = (path, handle) :: pending) {listing : Listing}
    (hlist : listFolder storage handle path = .ok listing) :
    Slices storage root ((path, handle) :: listed)
      (({ state with pending := pending }).visit path listing) := by
  obtain ⟨collection, -, hchildren⟩ := listFolder_children hlist
  have hnew : ∀ c ∈ listing.children, c.1 ∉ state.walked.entries.map Entry.path := by
    intro c hc
    rw [hchildren] at hc
    exact h.tree.unlisted hpending (classify_child hc).1
  obtain ⟨kept, again, hsub, hcount, hfiles, hadds, hleft⟩ :=
    visit_adds hlist { state with pending := pending } hnew
  have hunlisted : path ∉ listed.map Prod.fst := by
    have hnodup := h.tree.folders_nodup
    rw [hpending, List.map_cons, List.nodup_middle, List.nodup_cons] at hnodup
    exact fun hmem => hnodup.1 (List.mem_append_left _ hmem)
  have hhere (r : RelPath × ObjectInfo) (hr : r ∈ kept) :
      ListedIn storage ((path, handle) :: listed) r :=
    ⟨_, List.mem_cons_self, listing, hlist, hsub.subset hr⟩
  have hstill (item : RelPath × Option ObjectHandle) (hitem : item ∈ listed ++ state.pending) :
      item ∈ (path, handle) :: listed ++
        (({ state with pending := pending }).visit path listing).pending := by
    rw [hleft]
    rw [hpending] at hitem
    simp only [List.mem_append, List.mem_cons] at hitem ⊢
    tauto
  refine ⟨h.tree.visit hpending hchildren, hstill _ h.start, ?_, ?_, ?_, ?_⟩
  · intro item hitem
    have hcases : item ∈ listed ++ state.pending ∨ ∃ r ∈ kept, r.2.folder = true ∧
        item = (r.1, some r.2.handle) := by
      rw [hleft] at hitem
      rw [hpending]
      simp only [List.mem_append, List.mem_cons, List.mem_reverse, List.mem_map, List.mem_filter]
        at hitem ⊢
      rcases hitem with (rfl | hitem) | ⟨r, ⟨hr, hfolder⟩, rfl⟩ | hitem
      · exact Or.inl (Or.inr (Or.inl rfl))
      · exact Or.inl (Or.inl hitem)
      · exact Or.inr ⟨r, hr, hfolder, rfl⟩
      · exact Or.inl (Or.inr (Or.inr hitem))
    rcases hcases with hold | ⟨r, hr, hfolder, rfl⟩
    · rcases h.reached item hold with hroot | ⟨info, hin, hrest⟩
      · exact Or.inl hroot
      · exact Or.inr ⟨info, hin.mono, hrest⟩
    · exact Or.inr ⟨r.2, hhere r hr, hfolder, rfl⟩
  · intro e he
    rw [hadds.entries] at he
    rcases List.mem_append.mp he with hold | hkept
    · obtain ⟨info, hin, hentry, hopened⟩ := h.source e hold
      exact ⟨info, hin.mono, hentry, fun hfolder => hstill _ (hopened hfolder)⟩
    · obtain ⟨r, hr, rfl⟩ := List.mem_map.mp hkept
      rw [entryFrom_path]
      refine ⟨r.2, hhere r hr, rfl, fun hfolder => ?_⟩
      rw [hleft]
      apply List.mem_append_right
      apply List.mem_append_left
      rw [List.mem_reverse]
      exact List.mem_map.mpr ⟨r, List.mem_filter.mpr ⟨hr, hfolder⟩, rfl⟩
  · intro s hs
    rw [hadds.skipped] at hs
    rcases List.mem_append.mp hs with hold | hnewskip
    · exact List.mem_cons_of_mem _ (h.skipped s hold)
    · rw [hadds.parents s hnewskip]
      exact List.mem_cons_self
  -- the listed folder gets its slice; those of the others are framed
  · intro item hitem
    rcases List.mem_cons.mp hitem with rfl | hitem
    · have hnone : state.walked.entries.filter (fun e => beneath path e.path) = [] := by
        apply List.filter_eq_nil_iff.mpr
        intro e he hin
        obtain ⟨dir, hdir, name, hsegments, -⟩ := h.tree.parent e he
        exact hunlisted (beneath_unique (beneath_of_segments hsegments) hin ▸ hdir)
      have hnoskip : state.walked.skipped.filter (fun s => decide (s.parent = path)) = [] := by
        apply List.filter_eq_nil_iff.mpr
        intro s hs
        rw [decide_eq_true_eq]
        exact fun hsame => hunlisted (hsame ▸ h.skipped s hs)
      refine ⟨listing, kept, again, hlist, hsub, hcount, hfiles, ?_, ?_⟩
      · rw [hadds.entries, List.filter_append]
        dsimp only
        rw [hnone, List.nil_append]
        apply List.filter_eq_self.mpr
        intro e he
        obtain ⟨r, hr, rfl⟩ := List.mem_map.mp he
        rw [entryFrom_path]
        exact beneath_of_segments (hadds.named r hr)
      · rw [hadds.skipped, List.filter_append]
        dsimp only
        rw [hnoskip, List.nil_append]
        apply List.filter_eq_self.mpr
        intro s hs
        exact decide_eq_true (hadds.parents s hs)
    · obtain ⟨listing', mine, again', hslice⟩ := h.slices item hitem
      refine ⟨listing', mine, again', hslice.frame ?_ hadds⟩
      intro hsame
      exact hunlisted (hsame ▸ List.mem_map_of_mem hitem)

/-- By induction on the folders that are listed. -/
theorem Slices.run {cancelled : ℕ → Bool} {walked : Walked} (fuel : ℕ) {asked : ℕ}
    (h : Slices storage root listed state)
    (hw : walkLoop storage cancelled fuel asked state = some (.ok walked)) :
    ∃ listed' final, Slices storage root listed' final ∧ final.pending = [] ∧
      final.walked = walked := by
  induction fuel generalizing asked state listed with
  | zero => exact absurd hw (by simp [walkLoop])
  | succ fuel ih =>
    rw [walkLoop] at hw
    split at hw
    · rename_i hp
      exact ⟨listed, state, h, hp, Except.ok.inj (Option.some.inj hw)⟩
    · rename_i path handle pending hp
      split at hw
      · exact absurd hw (by simp)
      · split at hw
        · exact absurd hw (by simp)
        · rename_i listing hlist
          exact ih (h.visit hp hlist) hw

theorem walk_slices {cancelled : ℕ → Bool} {fuel : ℕ} {walked : Walked}
    (h : walk storage root cancelled fuel = some (.ok walked)) :
    ∃ listed final, Slices storage root listed final ∧ final.pending = [] ∧ final.walked = walked :=
  (Slices.start_state storage root).run fuel h

end Visiting

end MtpxCore
