import MtpxCore.DeviceScan

/-! What a walk of the device records is a proper tree: every path once, every ancestor a
recorded directory, and no name with a reserved suffix. -/
namespace MtpxCore

section Listings

theorem repeatedNames_length (seen : List String) (objects : List ObjectInfo) :
    (repeatedNames seen objects).length = objects.length := by
  induction objects generalizing seen with
  | nil => rfl
  | cons info rest ih => rw [repeatedNames, List.length_cons, ih, List.length_cons]

/-- The objects that repeat no name, in listing order. -/
def freshObjects (seen : List String) (objects : List ObjectInfo) : List ObjectInfo :=
  ((objects.zip (repeatedNames seen objects)).filter (fun item => !item.2)).map Prod.fst

theorem freshObjects_cons (seen : List String) (info : ObjectInfo) (rest : List ObjectInfo) :
    freshObjects seen (info :: rest) =
      if info.filename ∈ seen then freshObjects (info.filename :: seen) rest
      else info :: freshObjects (info.filename :: seen) rest := by
  rw [freshObjects, repeatedNames, List.zip_cons_cons, List.filter_cons]
  by_cases h : info.filename ∈ seen
  · rw [if_neg (by simp [h]), if_pos h]
    rfl
  · rw [if_pos (by simp [h]), if_neg h]
    rfl

theorem freshObjects_names (seen : List String) (objects : List ObjectInfo) :
    (∀ info ∈ freshObjects seen objects, info.filename ∉ seen) ∧
      ((freshObjects seen objects).map ObjectInfo.filename).Nodup := by
  induction objects generalizing seen with
  | nil => exact ⟨fun info h => absurd h List.not_mem_nil, List.nodup_nil⟩
  | cons info rest ih =>
    obtain ⟨hnot, hnodup⟩ := ih (info.filename :: seen)
    have hseen : ∀ i ∈ freshObjects (info.filename :: seen) rest, i.filename ∉ seen :=
      fun i hi hs => hnot i hi (List.mem_cons_of_mem _ hs)
    rw [freshObjects_cons]
    split
    · exact ⟨hseen, hnodup⟩
    · rename_i hfresh
      constructor
      · intro i hi
        rcases List.mem_cons.mp hi with rfl | hi
        · exact hfresh
        · exact hseen i hi
      · rw [List.map_cons, List.nodup_cons]
        refine ⟨?_, hnodup⟩
        intro hm
        obtain ⟨i, hi, he⟩ := List.mem_map.mp hm
        exact hnot i hi (he ▸ List.mem_cons_self)

/-- The children of a listing, object by object. -/
theorem foldl_file (parentPath : RelPath) (items : List (ObjectInfo × Bool)) (listing : Listing) :
    (items.foldl (Listing.file parentPath) listing).children =
      listing.children ++ items.filterMap (fun item =>
        match childPath parentPath item.1 item.2 with
        | .ok path => some (path, item.1)
        | .error _ => none) := by
  induction items generalizing listing with
  | nil => simp
  | cons item items ih =>
    rw [List.foldl_cons, ih, Listing.file, List.filterMap_cons]
    cases childPath parentPath item.1 item.2 with
    | ok path => simp
    | error reason => rfl

theorem childPath_ok {parent path : RelPath} {info : ObjectInfo} {isRepeat : Bool}
    (h : childPath parent info isRepeat = .ok path) :
    path.segments = parent.segments ++ [info.filename] ∧ isReservedName info.filename = false ∧
      isRepeat = false := by
  rw [childPath] at h
  split at h
  · exact absurd h (by simp)
  · rename_i hres
    split at h
    · exact absurd h (by simp)
    · rename_i p hp
      split at h
      · exact absurd h (by simp)
      · rename_i hrep
        obtain rfl := Except.ok.inj h
        exact ⟨(RelPath.join_eq_ok hp).1, Bool.eq_false_of_not_eq_true hres,
          Bool.eq_false_of_not_eq_true hrep⟩

/-- A child of a listing is named under its folder, with no reserved suffix. -/
theorem classify_child {parentPath : RelPath} {objects : List ObjectInfo}
    {c : RelPath × ObjectInfo} (h : c ∈ (classify parentPath objects).children) :
    c.1.segments = parentPath.segments ++ [c.2.filename] ∧
      isReservedName c.2.filename = false ∧ c.2 ∈ objects := by
  rw [classify, foldl_file, List.nil_append, List.mem_filterMap] at h
  obtain ⟨item, hm, hc⟩ := h
  split at hc
  · rename_i path hp
    obtain rfl := Option.some.inj hc
    obtain ⟨hseg, hres, -⟩ := childPath_ok hp
    exact ⟨hseg, hres, (List.of_mem_zip (a := item.1) (b := item.2) hm).1⟩
  · exact absurd hc (by simp)

/-- No two children of a listing have one path. -/
theorem classify_nodup (parentPath : RelPath) (objects : List ObjectInfo) :
    ((classify parentPath objects).children.map Prod.fst).Nodup := by
  have hsub : ((classify parentPath objects).children.map
      (fun c => c.2.filename)).Sublist ((freshObjects [] objects).map ObjectInfo.filename) := by
    rw [classify, foldl_file, List.nil_append, freshObjects]
    generalize objects.zip (repeatedNames [] objects) = items
    induction items with
    | nil => exact List.Sublist.slnil
    | cons item items ih =>
      rw [List.filterMap_cons, List.filter_cons]
      cases hp : childPath parentPath item.1 item.2 with
      | ok path =>
        rw [if_pos (by simp [(childPath_ok hp).2.2])]
        exact ih.cons_cons _
      | error reason =>
        by_cases hr : (!item.2) = true
        · rw [if_pos hr]
          exact ih.cons _
        · rw [if_neg hr]
          exact ih
  have hnames := (freshObjects_names [] objects).2.sublist hsub
  rw [List.nodup_iff_pairwise_ne, List.pairwise_map] at hnames ⊢
  apply hnames.imp_of_mem
  intro a b ha hb hne hab
  apply hne
  have hseg := (classify_child ha).1
  rw [hab, (classify_child hb).1] at hseg
  exact (List.singleton_inj.mp (List.append_cancel_left hseg)).symm

theorem listFolder_children {storage : Storage} {handle : Option ObjectHandle} {path : RelPath}
    {listing : Listing} (h : listFolder storage handle path = .ok listing) :
    ∃ collection, storage.collectObjects handle = .ok collection ∧
      listing.children = (classify path collection.objects).children := by
  rw [listFolder, describe.eq_def] at h
  split at h
  · exact absurd h (by simp)
  · rename_i collection hc
    exact ⟨collection, hc, by rw [← Except.ok.inj h]⟩

end Listings

/-- What a walk has recorded while the folders in `done` are listed: each entry is a child
of a listed folder, and every folder listed or pending is the root or a recorded directory. -/
structure WalkState.Inv (done : List RelPath) (state : WalkState) : Prop where
  paths_nodup : (state.walked.entries.map Entry.path).Nodup
  parent : ∀ e ∈ state.walked.entries, ∃ dir ∈ done, ∃ name,
    e.path.segments = dir.segments ++ [name] ∧ isReservedName name = false
  folders_nodup : (done ++ state.pending.map Prod.fst).Nodup
  folder : ∀ p ∈ done ++ state.pending.map Prod.fst, p = RelPath.root ∨
    ∃ e ∈ state.walked.entries, e.path = p ∧ e.kind = EntryKind.dir

section Walks

variable {state : WalkState} {done : List RelPath}

@[simp] theorem entryFrom_path (path : RelPath) (info : ObjectInfo) :
    (entryFrom path info).path = path := by
  rw [entryFrom]
  split <;> rfl

theorem entryFrom_folder (path : RelPath) {info : ObjectInfo} (h : info.folder = true) :
    (entryFrom path info).kind = EntryKind.dir := by
  rw [entryFrom, if_pos h]
  rfl

theorem WalkState.inv_start (storage : Storage) (root : Option ObjectHandle) :
    (WalkState.start storage root).Inv [] where
  paths_nodup := List.nodup_nil
  parent := fun e he => absurd he List.not_mem_nil
  folders_nodup := List.nodup_singleton _
  folder := by
    intro p hp
    exact Or.inl (List.mem_singleton.mp hp)

/-- A child of a listed folder with a new path keeps the invariant. -/
theorem WalkState.Inv.record (h : state.Inv done) {dir path : RelPath} (hdir : dir ∈ done)
    {info : ObjectInfo} (hseg : path.segments = dir.segments ++ [info.filename])
    (hres : isReservedName info.filename = false)
    (hnew : path ∉ state.walked.entries.map Entry.path) :
    (state.record path info).Inv done := by
  -- the folders that were known before are still recorded ones
  have hfolder (p : RelPath) (hp : p ∈ done ++ state.pending.map Prod.fst) :
      p = RelPath.root ∨ ∃ e ∈ (state.record path info).walked.entries,
        e.path = p ∧ e.kind = EntryKind.dir := by
    rcases h.folder p hp with hroot | ⟨e, he, hep⟩
    · exact Or.inl hroot
    · exact Or.inr ⟨e, List.mem_append_left _ he, hep⟩
  refine ⟨?_, ?_, ?_, ?_⟩
  · change ((state.walked.entries ++ [entryFrom path info]).map Entry.path).Nodup
    rw [List.map_append, List.map_singleton, entryFrom_path]
    exact List.nodup_append.mpr ⟨h.paths_nodup, List.nodup_singleton _, by
      intro a ha b hb hab
      rw [List.mem_singleton.mp hb] at hab
      exact hnew (hab ▸ ha)⟩
  · intro e he
    rcases List.mem_append.mp he with he | he
    · exact h.parent e he
    · rw [List.mem_singleton.mp he, entryFrom_path]
      exact ⟨dir, hdir, info.filename, hseg, hres⟩
  · rw [WalkState.record]
    dsimp only
    split
    · -- a new path is neither the root nor a recorded directory
      have hfresh : path ∉ done ++ state.pending.map Prod.fst := by
        intro hm
        rcases h.folder path hm with hroot | ⟨e, he, hep, -⟩
        · rw [hroot] at hseg
          exact absurd hseg (by simp [RelPath.root])
        · exact hnew (List.mem_map.mpr ⟨e, he, hep⟩)
      rw [List.map_cons, List.nodup_middle, List.nodup_cons]
      exact ⟨hfresh, h.folders_nodup⟩
    · exact h.folders_nodup
  · intro p hp
    rw [WalkState.record] at hp
    dsimp only at hp
    split at hp
    · rename_i hfold
      rw [List.map_cons, List.mem_append, List.mem_cons] at hp
      rcases hp with hp | heq | hp
      · exact hfolder p (List.mem_append_left _ hp)
      · right
        rw [heq]
        exact ⟨entryFrom path info, List.mem_append_right _ List.mem_cons_self,
          entryFrom_path path info, entryFrom_folder path hfold⟩
      · exact hfolder p (List.mem_append_right _ hp)
    · exact hfolder p hp

/-- The last pushed folder may count as done before its children are filed. -/
theorem WalkState.Inv.pop {path : RelPath} {handle : Option ObjectHandle}
    {pending : List (RelPath × Option ObjectHandle)} (h : state.Inv done)
    (hpending : state.pending = (path, handle) :: pending) :
    ({ state with pending := pending } : WalkState).Inv (path :: done) := by
  refine ⟨h.paths_nodup, ?_, ?_, ?_⟩
  · intro e he
    obtain ⟨dir, hd, hrest⟩ := h.parent e he
    exact ⟨dir, List.mem_cons_of_mem _ hd, hrest⟩
  · have hn := h.folders_nodup
    rw [hpending, List.map_cons, List.nodup_middle] at hn
    exact hn
  · intro p hp
    apply h.folder p
    rw [hpending, List.map_cons]
    rcases List.mem_cons.mp hp with rfl | hp
    · exact List.mem_append_right _ List.mem_cons_self
    · rcases List.mem_append.mp hp with hp | hp
      · exact List.mem_append_left _ hp
      · exact List.mem_append_right _ (List.mem_cons_of_mem _ hp)

/-- Nothing beneath a pending folder is recorded. -/
theorem WalkState.Inv.unlisted {path child : RelPath} {handle : Option ObjectHandle}
    {pending : List (RelPath × Option ObjectHandle)} (h : state.Inv done)
    (hpending : state.pending = (path, handle) :: pending) {name : String}
    (hchild : child.segments = path.segments ++ [name]) :
    child ∉ state.walked.entries.map Entry.path := by
  intro hm
  obtain ⟨e, he, hep⟩ := List.mem_map.mp hm
  obtain ⟨dir, hd, name', hseg, -⟩ := h.parent e he
  have hpath : path = dir := by
    rw [hep, hchild] at hseg
    exact RelPath.segments_injective (List.append_inj_left' hseg rfl)
  -- then the folder above would be both done and pending
  have hn := h.folders_nodup
  rw [hpending, List.map_cons, List.nodup_middle, List.nodup_cons] at hn
  exact hn.1 (List.mem_append_left _ (hpath ▸ hd))

/-- Filing children of a done folder, none of them recorded yet, keeps the invariant. -/
theorem WalkState.Inv.children {path : RelPath} (h : state.Inv done) (hdone : path ∈ done)
    {children : List (RelPath × ObjectInfo)}
    (hnamed : ∀ c ∈ children, c.1.segments = path.segments ++ [c.2.filename] ∧
      isReservedName c.2.filename = false)
    (hnodup : (children.map Prod.fst).Nodup)
    (hnew : ∀ c ∈ children, c.1 ∉ state.walked.entries.map Entry.path) :
    (children.foldl (WalkState.child path) state).Inv done := by
  induction children generalizing state with
  | nil => exact h
  | cons c rest ih =>
    obtain ⟨hseg, hres⟩ := hnamed c List.mem_cons_self
    rw [List.map_cons, List.nodup_cons] at hnodup
    rw [List.foldl_cons]
    have hrec : (state.record c.1 c.2).Inv done :=
      h.record hdone hseg hres (hnew c List.mem_cons_self)
    -- whatever is done with this child, the rest follows if no path but its own was recorded
    have hnext (next : WalkState) (hinv : next.Inv done)
        (hsame : ∀ p ∈ next.walked.entries.map Entry.path,
          p = c.1 ∨ p ∈ state.walked.entries.map Entry.path) :
        (rest.foldl (WalkState.child path) next).Inv done := by
      apply ih hinv
      · exact fun d hd => hnamed d (List.mem_cons_of_mem _ hd)
      · exact hnodup.2
      · intro d hd hm
        rcases hsame _ hm with heq | hold
        · exact hnodup.1 (heq ▸ List.mem_map_of_mem hd)
        · exact hnew d (List.mem_cons_of_mem _ hd) hold
    have hpaths : ∀ p ∈ (state.record c.1 c.2).walked.entries.map Entry.path,
        p = c.1 ∨ p ∈ state.walked.entries.map Entry.path := by
      intro p hp
      change p ∈ (state.walked.entries ++ [entryFrom c.1 c.2]).map Entry.path at hp
      rw [List.map_append, List.map_singleton, entryFrom_path, List.mem_append,
        List.mem_singleton] at hp
      exact hp.symm
    rw [WalkState.child]
    split
    · split
      · exact hnext (state.skip path) ⟨h.paths_nodup, h.parent, h.folders_nodup, h.folder⟩
          (fun p hp => Or.inr hp)
      · exact hnext _ ⟨hrec.paths_nodup, hrec.parent, hrec.folders_nodup, hrec.folder⟩ hpaths
    · exact hnext _ hrec hpaths

/-- Visiting the last pushed folder keeps the invariant, with that folder done. -/
theorem WalkState.Inv.visit {path : RelPath} {handle : Option ObjectHandle}
    {pending : List (RelPath × Option ObjectHandle)} (h : state.Inv done)
    (hpending : state.pending = (path, handle) :: pending) {objects : List ObjectInfo}
    {listing : Listing} (hl : listing.children = (classify path objects).children) :
    (({ state with pending := pending }).visit path listing).Inv (path :: done) := by
  have hpop := h.pop hpending
  rw [WalkState.visit, hl]
  apply WalkState.Inv.children _ List.mem_cons_self
  · intro c hc
    exact ⟨(classify_child hc).1, (classify_child hc).2.1⟩
  · exact classify_nodup path objects
  · intro c hc
    exact h.unlisted hpending (classify_child hc).1
  · exact ⟨hpop.paths_nodup, hpop.parent, hpop.folders_nodup, hpop.folder⟩

/-- Whatever a walk returns was recorded under the invariant, with nothing left to list. -/
theorem walkLoop_inv {storage : Storage} {cancelled : ℕ → Bool} {walked : Walked} (fuel : ℕ)
    {asked : ℕ} (h : state.Inv done)
    (hw : walkLoop storage cancelled fuel asked state = some (.ok walked)) :
    ∃ done' final, WalkState.Inv done' final ∧ final.pending = [] ∧ final.walked = walked := by
  induction fuel generalizing asked state done with
  | zero => exact absurd hw (by simp [walkLoop])
  | succ fuel ih =>
    rw [walkLoop] at hw
    split at hw
    · rename_i hp
      exact ⟨done, state, h, hp, Except.ok.inj (Option.some.inj hw)⟩
    · rename_i path handle pending hp
      split at hw
      · exact absurd hw (by simp)
      · split at hw
        · exact absurd hw (by simp)
        · rename_i listing hl
          obtain ⟨collection, -, hchildren⟩ := listFolder_children hl
          exact ih (h.visit hp hchildren) hw

end Walks

section Trees

variable {storage : Storage} {root : Option ObjectHandle} {cancelled : ℕ → Bool} {fuel : ℕ}
  {walked : Walked}

/-- The paths a walk records are pairwise different, and each is a child of the root or of a
recorded directory, under a name without a reserved suffix. -/
theorem walk_tree (h : walk storage root cancelled fuel = some (.ok walked)) :
    (walked.entries.map Entry.path).Nodup ∧
      ∀ e ∈ walked.entries, ∃ (dir : RelPath) (name : String),
        e.path.segments = dir.segments ++ [name] ∧ isReservedName name = false ∧
          (dir = RelPath.root ∨ ∃ a ∈ walked.entries, a.path = dir ∧ a.kind = EntryKind.dir) := by
  obtain ⟨done, final, hinv, -, rfl⟩ :=
    walkLoop_inv fuel (WalkState.inv_start storage root) h
  refine ⟨hinv.paths_nodup, ?_⟩
  intro e he
  obtain ⟨dir, hd, name, hseg, hres⟩ := hinv.parent e he
  exact ⟨dir, name, hseg, hres, hinv.folder dir (List.mem_append_left _ hd)⟩

/-- A snapshot of entries with different paths holds exactly these entries. -/
theorem mem_new {label : String} {entries : List Entry} {skipped : List SkippedEntry}
    (hn : (entries.map Entry.path).Nodup) {e : Entry} :
    e ∈ (Snapshot.new label entries skipped).entries ↔ e ∈ entries :=
  Snapshot.mem_new (fun _ ha _ hb hp => List.inj_on_of_nodup_map hn ha hb hp)

/-- A walked device gives the planner a proper tree. -/
theorem walk_ancestorClosed (h : walk storage root cancelled fuel = some (.ok walked))
    (label : String) : AncestorClosed (Snapshot.new label walked.entries walked.skipped) := by
  obtain ⟨hn, htree⟩ := walk_tree h
  constructor
  · intro e he hroot
    obtain ⟨dir, name, hseg, -⟩ := htree e ((mem_new hn).mp he)
    rw [hroot] at hseg
    exact absurd hseg (by simp)
  · intro e he d hd hpre hne
    -- induction on depth: a proper ancestor is the parent or an ancestor of it
    induction hlen : e.path.segments.length using Nat.strong_induction_on generalizing e with
    | _ n ih =>
      obtain ⟨dir, name, hseg, -, hdir⟩ := htree e ((mem_new hn).mp he)
      rw [hseg] at hpre hne
      have hpre' : d <+: dir.segments := by
        rcases List.prefix_concat_iff.mp hpre with heq | hp
        · exact absurd heq hne
        · exact hp
      rcases hdir with rfl | ⟨a, ha, rfl, hk⟩
      · exact absurd (List.prefix_nil.mp hpre') hd
      · have ha' : a ∈ (Snapshot.new label walked.entries walked.skipped).entries :=
          (mem_new hn).mpr ha
        by_cases heq : d = a.path.segments
        · exact ⟨a, ha', heq.symm, hk⟩
        · refine ih a.path.segments.length ?_ a ha' hpre' heq rfl
          rw [← hlen, hseg, List.length_append]
          simp

end Trees

end MtpxCore
