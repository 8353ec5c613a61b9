import MtpxCore.DeviceTree
import Mathlib.Data.Finset.Card

/-! A walk of a device with finitely many folders ends, opens every folder once, and leaves no
listed object out of its books: each one is an entry or is counted by one skip. -/
namespace MtpxCore

/-- What the walk lists, in order. -/
def walkListed (storage : Storage) (cancelled : ℕ → Bool) :
    ℕ → ℕ → WalkState → List (RelPath × Option ObjectHandle)
  | 0, _, _ => []
  | fuel + 1, asked, state =>
    match state.pending with
    | [] => []
    | (path, handle) :: pending =>
      if cancelled asked then []
      else match listFolder storage handle path with
        | .error _ => [(path, handle)]
        | .ok listing =>
          (path, handle) :: walkListed storage cancelled fuel (asked + 1)
            (({ state with pending := pending }).visit path listing)

/-- A device that answers every listing, with finitely many folders among the answers. -/
structure FiniteDevice where
  rootHandle : ObjectHandle
  listing : Option ObjectHandle → Collection
  folders : Finset ObjectHandle
  folder_mem : ∀ parent, ∀ info ∈ (listing parent).objects, info.folder = true →
    info.handle ∈ folders

namespace FiniteDevice

def storage (device : FiniteDevice) : Storage :=
  ⟨device.rootHandle, fun parent => .ok (device.listing parent)⟩

/-- The handle a folder is listed by. -/
def key (device : FiniteDevice) (item : RelPath × Option ObjectHandle) : ObjectHandle :=
  item.2.getD device.rootHandle

end FiniteDevice

/-- What lies directly beneath a folder. -/
def beneath (dir path : RelPath) : Bool := decide (path.parent = some dir)

theorem beneath_of_segments {dir path : RelPath} {name : String}
    (h : path.segments = dir.segments ++ [name]) : beneath dir path = true := by
  have hne : path.segments ≠ [] := by
    rw [h]
    simp
  obtain ⟨parent, hparent, hsegments⟩ := RelPath.parent_of_ne hne
  have hboth := h.symm.trans hsegments
  have hsame : dir = parent := RelPath.segments_injective (List.append_inj_left' hboth rfl)
  rw [beneath, hparent, hsame]
  exact decide_eq_true rfl

theorem beneath_unique {dir other path : RelPath} (hdir : beneath dir path = true)
    (hother : beneath other path = true) : dir = other :=
  Option.some.inj ((of_decide_eq_true hdir).symm.trans (of_decide_eq_true hother))

section Splitting

/-- The objects of a listing are its named children and, each with one skip, the others. -/
theorem foldl_file_split (parentPath : RelPath) (items : List (ObjectInfo × Bool))
    (listing : Listing) :
    ∃ (named : List (RelPath × ObjectInfo)) (dropped : List ObjectInfo)
      (reasons : List SkipCause),
      (items.foldl (Listing.file parentPath) listing).children = listing.children ++ named ∧
      (items.foldl (Listing.file parentPath) listing).skipped =
        listing.skipped ++ reasons.map (fun reason => ⟨parentPath, reason⟩) ∧
      (items.map Prod.fst).Perm (named.map Prod.snd ++ dropped) ∧
      reasons.length = dropped.length := by
  induction items generalizing listing with
  | nil => exact ⟨[], [], [], by simp, by simp, List.Perm.nil, rfl⟩
  | cons item items ih =>
    rw [List.foldl_cons, List.map_cons]
    cases hpath : childPath parentPath item.1 item.2 with
    | ok path =>
      have hfile : Listing.file parentPath listing item =
          { listing with children := listing.children ++ [(path, item.1)] } := by
        rw [Listing.file, hpath]
      obtain ⟨named, dropped, reasons, hchildren, hskipped, hperm, hlength⟩ :=
        ih (Listing.file parentPath listing item)
      refine ⟨(path, item.1) :: named, dropped, reasons, ?_, ?_, ?_, hlength⟩
      · rw [hchildren, hfile, List.append_assoc, List.singleton_append]
      · rw [hskipped, hfile]
      · exact hperm.cons item.1
    | error reason =>
      have hfile : Listing.file parentPath listing item =
          { listing with skipped := listing.skipped ++ [⟨parentPath, reason⟩] } := by
        rw [Listing.file, hpath]
      obtain ⟨named, dropped, reasons, hchildren, hskipped, hperm, hlength⟩ :=
        ih (Listing.file parentPath listing item)
      refine ⟨named, item.1 :: dropped, reason :: reasons, ?_, ?_, ?_, ?_⟩
      · rw [hchildren, hfile]
      · rw [hskipped, hfile, List.append_assoc, List.map_cons, List.singleton_append]
      · exact (hperm.cons item.1).trans List.perm_middle.symm
      · rw [List.length_cons, List.length_cons, hlength]

/-- What describing an answer does with its objects and refusals. -/
theorem describe_split (parentPath : RelPath) (collection : Collection) :
    ∃ (listing : Listing) (dropped : List ObjectInfo) (reasons : List SkipCause),
      describe parentPath (.ok collection) = .ok listing ∧
      listing.children = (classify parentPath collection.objects).children ∧
      listing.skipped = reasons.map (fun reason => ⟨parentPath, reason⟩) ∧
      collection.objects.Perm (listing.children.map Prod.snd ++ dropped) ∧
      reasons.length = dropped.length + collection.skipped.length := by
  obtain ⟨named, dropped, reasons, hchildren, hskipped, hperm, hlength⟩ :=
    foldl_file_split parentPath (collection.objects.zip (repeatedNames [] collection.objects))
      ⟨[], []⟩
  rw [List.map_fst_zip (repeatedNames_length [] collection.objects).ge] at hperm
  refine ⟨_, dropped,
    reasons ++ collection.skipped.map (fun refused => .refused refused.error), rfl, rfl, ?_,
    ?_, ?_⟩
  · change (classify parentPath collection.objects).skipped ++ _ = _
    rw [classify, hskipped, List.nil_append, List.map_append, List.map_map]
    rfl
  · rw [List.nil_append] at hchildren
    rw [classify, hchildren]
    exact hperm
  · rw [List.length_append, List.length_map, hlength]

/-- What the children of a listed folder add to the state of a walk. -/
structure Books (dir : RelPath) (before after : WalkState) (kept : List (RelPath × ObjectInfo))
    (left : List ObjectInfo) : Prop where
  entries : after.walked.entries =
    before.walked.entries ++ kept.map (fun r => entryFrom r.1 r.2)
  handles : after.walked.handles =
    before.walked.handles ++ kept.map (fun r => (r.1, r.2.handle))
  skipped : after.walked.skipped =
    before.walked.skipped ++ left.map (fun _ => ⟨dir, .listedTwice⟩)
  pending : after.pending = ((kept.filter (fun r => r.2.folder)).map
    (fun r => (r.1, some r.2.handle))).reverse ++ before.pending
  visited : after.visited =
    ((kept.filter (fun r => r.2.folder)).map (fun r => r.2.handle)).reverse ++ before.visited
  nodup : before.visited.Nodup → after.visited.Nodup

/-- A child that is recorded comes first among the kept ones. -/
theorem Books.record {dir : RelPath} {before after : WalkState} {item : RelPath × ObjectInfo}
    {kept : List (RelPath × ObjectInfo)} {left : List ObjectInfo}
    (hfresh : item.2.folder = true → item.2.handle ∉ before.visited)
    (h : Books dir ((if item.2.folder then
      { before with visited := item.2.handle :: before.visited } else before).record
        item.1 item.2) after kept left) :
    Books dir before after (item :: kept) left := by
  cases hfolder : item.2.folder with
  | true =>
    rw [hfolder, if_pos rfl] at h
    obtain ⟨hentries, hhandles, hskipped, hpending, hvisited, hnodup⟩ := h
    simp only [WalkState.record, hfolder, if_true] at hentries hhandles hskipped hpending hvisited
    refine ⟨?_, ?_, hskipped, ?_, ?_, ?_⟩
    · rw [hentries, List.append_assoc, List.map_cons, List.singleton_append]
    · rw [hhandles, List.append_assoc, List.map_cons, List.singleton_append]
    · rw [hpending, List.filter_cons, if_pos hfolder, List.map_cons, List.reverse_cons,
        List.append_assoc, List.singleton_append]
    · rw [hvisited, List.filter_cons, if_pos hfolder, List.map_cons, List.reverse_cons,
        List.append_assoc, List.singleton_append]
    · intro hn
      exact hnodup (List.nodup_cons.mpr ⟨hfresh hfolder, hn⟩)
  | false =>
    rw [hfolder, if_neg Bool.false_ne_true] at h
    obtain ⟨hentries, hhandles, hskipped, hpending, hvisited, hnodup⟩ := h
    simp only [WalkState.record, hfolder] at hentries hhandles hskipped hpending hvisited
    have hfilter : ((item :: kept).filter (fun r => r.2.folder)) =
        kept.filter (fun r => r.2.folder) := by
      rw [List.filter_cons, if_neg (by rw [hfolder]; exact Bool.false_ne_true)]
    refine ⟨?_, ?_, hskipped, ?_, ?_, hnodup⟩
    · rw [hentries, List.append_assoc, List.map_cons, List.singleton_append]
    · rw [hhandles, List.append_assoc, List.map_cons, List.singleton_append]
    · rw [hpending, hfilter, if_neg Bool.false_ne_true]
    · rw [hvisited, hfilter]

/-- Each child of a listed folder is kept, or left out with one skip. -/
theorem foldl_child_books (dir : RelPath) (children : List (RelPath × ObjectInfo))
    (before : WalkState) :
    ∃ kept left, (children.map Prod.snd).Perm (kept.map Prod.snd ++ left) ∧
      kept.Sublist children ∧
      Books dir before (children.foldl (WalkState.child dir) before) kept left := by
  induction children generalizing before with
  | nil =>
    exact ⟨[], [], List.Perm.nil, List.Sublist.slnil,
      by simp, by simp, by simp, by simp, by simp, id⟩
  | cons item children ih =>
    rw [List.foldl_cons]
    -- a folder that was come by before is left out, anything else is recorded
    by_cases hseen : item.2.folder = true ∧ item.2.handle ∈ before.visited
    · have hchild : WalkState.child dir before item = before.skip dir := by
        rw [WalkState.child, if_pos hseen.1, if_pos hseen.2]
      obtain ⟨kept, left, hperm, hsub, hbooks⟩ := ih (before.skip dir)
      refine ⟨kept, item.2 :: left, ?_, hsub.cons item, ?_⟩
      · rw [List.map_cons]
        exact (hperm.cons item.2).trans List.perm_middle.symm
      · rw [hchild]
        refine ⟨hbooks.entries, hbooks.handles, ?_, hbooks.pending, hbooks.visited, hbooks.nodup⟩
        rw [hbooks.skipped, WalkState.skip, List.append_assoc, List.map_cons,
          List.singleton_append]
    · have hfresh (hfolder : item.2.folder = true) : item.2.handle ∉ before.visited :=
        fun hmem => hseen ⟨hfolder, hmem⟩
      have hchild : WalkState.child dir before item = (if item.2.folder then
          { before with visited := item.2.handle :: before.visited } else before).record
            item.1 item.2 := by
        rw [WalkState.child]
        split
        · rename_i hfolder
          rw [if_neg (hfresh hfolder)]
        · rfl
      obtain ⟨kept, left, hperm, hsub, hbooks⟩ := ih (WalkState.child dir before item)
      refine ⟨item :: kept, left, hperm.cons item.2, hsub.cons_cons item, ?_⟩
      rw [hchild] at hbooks ⊢
      exact hbooks.record hfresh

end Splitting

/-- What the books say of one listed folder: every object it lists is kept, with its entry and
its handle, or left out with one skip. -/
structure Balanced (device : FiniteDevice) (walked : Walked)
    (item : RelPath × Option ObjectHandle) : Prop where
  split : ∃ kept : List (RelPath × ObjectInfo), ∃ left : List ObjectInfo,
    (device.listing item.2).objects.Perm (kept.map Prod.snd ++ left) ∧
    (∀ r ∈ kept, r.1.segments = item.1.segments ++ [r.2.filename]) ∧
    walked.entries.filter (fun e => beneath item.1 e.path) =
      kept.map (fun r => entryFrom r.1 r.2) ∧
    walked.handles.filter (fun r => beneath item.1 r.1) =
      kept.map (fun r => (r.1, r.2.handle)) ∧
    (walked.skipped.filter (fun s => decide (s.parent = item.1))).length =
      left.length + (device.listing item.2).skipped.length

/-- The books of a walk with the folders in `listed` done, newest first, and `records` what
was recorded so far. -/
structure Ledger (device : FiniteDevice) (root : Option ObjectHandle)
    (listed : List (RelPath × Option ObjectHandle)) (records : List (RelPath × ObjectInfo))
    (state : WalkState) : Prop where
  tree : state.Inv (listed.map Prod.fst)
  entries : state.walked.entries = records.map (fun r => entryFrom r.1 r.2)
  handles : state.walked.handles = records.map (fun r => (r.1, r.2.handle))
  visited : ((listed ++ state.pending).map device.key).Perm state.visited
  visited_nodup : state.visited.Nodup
  visited_known : ∀ handle ∈ state.visited,
    handle = root.getD device.rootHandle ∨ handle ∈ device.folders
  opened : (RelPath.root, root) ∈ listed ++ state.pending ∧ ∀ r ∈ records, r.2.folder = true →
    (r.1, some r.2.handle) ∈ listed ++ state.pending
  source : ∀ r ∈ records, ∃ item ∈ listed, r.1.segments = item.1.segments ++ [r.2.filename] ∧
    r.2 ∈ (device.listing item.2).objects
  skipped : ∀ s ∈ state.walked.skipped, s.parent ∈ listed.map Prod.fst
  balanced : ∀ item ∈ listed, Balanced device state.walked item

section Books

variable {device : FiniteDevice} {root : Option ObjectHandle}
  {listed : List (RelPath × Option ObjectHandle)} {records : List (RelPath × ObjectInfo)}
  {state : WalkState}

theorem Ledger.start (device : FiniteDevice) (root : Option ObjectHandle) :
    Ledger device root [] [] (WalkState.start device.storage root) where
  tree := WalkState.inv_start device.storage root
  entries := rfl
  handles := rfl
  visited := List.Perm.refl _
  visited_nodup := List.nodup_singleton _
  visited_known := fun _ h => Or.inl (List.mem_singleton.mp h)
  opened := ⟨List.mem_cons_self, fun _ h => absurd h List.not_mem_nil⟩
  source := fun _ h => absurd h List.not_mem_nil
  skipped := fun _ h => absurd h List.not_mem_nil
  balanced := fun _ h => absurd h List.not_mem_nil

/-- Every listed folder has its own handle among finitely many. -/
theorem Ledger.length_le (h : Ledger device root listed records state) :
    listed.length + state.pending.length ≤ device.folders.card + 1 := by
  have hlength : listed.length + state.pending.length = state.visited.length := by
    rw [← h.visited.length_eq, List.length_map, List.length_append]
  have hsubset : state.visited.toFinset ⊆
      insert (root.getD device.rootHandle) device.folders := by
    intro handle hmem
    exact Finset.mem_insert.mpr (h.visited_known handle (List.mem_toFinset.mp hmem))
  calc listed.length + state.pending.length
      = state.visited.toFinset.card := by
        rw [hlength, List.toFinset_card_of_nodup h.visited_nodup]
    _ ≤ (insert (root.getD device.rootHandle) device.folders).card :=
        Finset.card_le_card hsubset
    _ ≤ device.folders.card + 1 := Finset.card_insert_le _ _

/-- What listing the folder `dir` adds to a walk: the children it keeps and its skips. -/
structure Adds (dir : RelPath) (walked after : Walked) (kept : List (RelPath × ObjectInfo))
    (skips : List SkippedEntry) : Prop where
  named : ∀ r ∈ kept, r.1.segments = dir.segments ++ [r.2.filename]
  parents : ∀ s ∈ skips, s.parent = dir
  entries : after.entries = walked.entries ++ kept.map (fun r => entryFrom r.1 r.2)
  handles : after.handles = walked.handles ++ kept.map (fun r => (r.1, r.2.handle))
  skipped : after.skipped = walked.skipped ++ skips

/-- Entries, handles and skips of other folders do not touch the books of a folder. -/
theorem Balanced.frame {walked after : Walked} {item : RelPath × Option ObjectHandle}
    {dir : RelPath} (h : Balanced device walked item) (hdir : dir ≠ item.1)
    {kept : List (RelPath × ObjectInfo)} {skips : List SkippedEntry}
    (hadds : Adds dir walked after kept skips) : Balanced device after item := by
  have hout (r : RelPath × ObjectInfo) (hr : r ∈ kept) : ¬beneath item.1 r.1 = true :=
    fun hin => hdir (beneath_unique (beneath_of_segments (hadds.named r hr)) hin)
  obtain ⟨mine, left, hperm, hpaths, hmine, hmines, hcount⟩ := h.split
  refine ⟨mine, left, hperm, hpaths, ?_, ?_, ?_⟩
  · have hnone : (kept.map (fun r => entryFrom r.1 r.2)).filter
        (fun e => beneath item.1 e.path) = [] := by
      apply List.filter_eq_nil_iff.mpr
      intro e he
      obtain ⟨r, hr, rfl⟩ := List.mem_map.mp he
      rw [entryFrom_path]
      exact hout r hr
    rw [hadds.entries, List.filter_append, hnone, List.append_nil, hmine]
  · have hnone : (kept.map (fun r => (r.1, r.2.handle))).filter
        (fun r => beneath item.1 r.1) = [] := by
      apply List.filter_eq_nil_iff.mpr
      intro e he
      obtain ⟨r, hr, rfl⟩ := List.mem_map.mp he
      exact hout r hr
    rw [hadds.handles, List.filter_append, hnone, List.append_nil, hmines]
  · have hnone : skips.filter (fun s => decide (s.parent = item.1)) = [] := by
      apply List.filter_eq_nil_iff.mpr
      intro s hs
      rw [hadds.parents s hs, decide_eq_true_eq]
      exact hdir
    rw [hadds.skipped, List.filter_append, hnone, List.append_nil, hcount]

/-- The books of the folder that is being listed. -/
theorem Balanced.fresh {walked after : Walked} {dir : RelPath} {handle : Option ObjectHandle}
    (hnone : ∀ e ∈ walked.entries, ¬beneath dir e.path = true)
    (hnones : ∀ r ∈ walked.handles, ¬beneath dir r.1 = true)
    (hnoskip : ∀ s ∈ walked.skipped, s.parent ≠ dir)
    {kept : List (RelPath × ObjectInfo)} (left : List ObjectInfo) {skips : List SkippedEntry}
    (hperm : (device.listing handle).objects.Perm (kept.map Prod.snd ++ left))
    (hcount : skips.length = left.length + (device.listing handle).skipped.length)
    (hadds : Adds dir walked after kept skips) : Balanced device after (dir, handle) := by
  refine ⟨kept, left, hperm, hadds.named, ?_, ?_, ?_⟩
  · rw [hadds.entries, List.filter_append, List.filter_eq_nil_iff.mpr hnone, List.nil_append]
    apply List.filter_eq_self.mpr
    intro e he
    obtain ⟨r, hr, rfl⟩ := List.mem_map.mp he
    rw [entryFrom_path]
    exact beneath_of_segments (hadds.named r hr)
  · rw [hadds.handles, List.filter_append, List.filter_eq_nil_iff.mpr hnones, List.nil_append]
    apply List.filter_eq_self.mpr
    intro e he
    obtain ⟨r, hr, rfl⟩ := List.mem_map.mp he
    exact beneath_of_segments (hadds.named r hr)
  · have hold : walked.skipped.filter (fun s => decide (s.parent = dir)) = [] := by
      apply List.filter_eq_nil_iff.mpr
      intro s hs
      rw [decide_eq_true_eq]
      exact hnoskip s hs
    have hnew : skips.filter (fun s => decide (s.parent = dir)) = skips := by
      apply List.filter_eq_self.mpr
      intro s hs
      exact decide_eq_true (hadds.parents s hs)
    rw [hadds.skipped, List.filter_append, hold, hnew, List.nil_append, hcount]

/-- A pending folder has not been listed. -/
theorem Ledger.unlisted (h : Ledger device root listed records state) {path : RelPath}
    {handle : Option ObjectHandle} {pending : List (RelPath × Option ObjectHandle)}
    (hpending : state.pending = (path, handle) :: pending) : path ∉ listed.map Prod.fst := by
  have hnodup := h.tree.folders_nodup
  rw [hpending, List.map_cons, List.nodup_middle, List.nodup_cons] at hnodup
  exact fun hmem => hnodup.1 (List.mem_append_left _ hmem)

/-- Nothing is booked under a folder that has not been listed. -/
theorem Ledger.none_beneath (h : Ledger device root listed records state) {path : RelPath}
    (hnew : path ∉ listed.map Prod.fst) :
    (∀ e ∈ state.walked.entries, ¬beneath path e.path = true) ∧
      (∀ r ∈ state.walked.handles, ¬beneath path r.1 = true) ∧
      ∀ s ∈ state.walked.skipped, s.parent ≠ path := by
  have hout (r : RelPath × ObjectInfo) (hr : r ∈ records) : ¬beneath path r.1 = true := by
    intro hin
    obtain ⟨item, hitem, hsegments, -⟩ := h.source r hr
    exact hnew (beneath_unique (beneath_of_segments hsegments) hin ▸ List.mem_map_of_mem hitem)
  refine ⟨?_, ?_, fun s hs hsame => hnew (hsame ▸ h.skipped s hs)⟩
  · intro e he
    rw [h.entries] at he
    obtain ⟨r, hr, rfl⟩ := List.mem_map.mp he
    rw [entryFrom_path]
    exact hout r hr
  · intro e he
    rw [h.handles] at he
    obtain ⟨r, hr, rfl⟩ := List.mem_map.mp he
    exact hout r hr

/-- The folder handles seen stay those of the folders listed or pending. -/
theorem Books.visited_perm {dir : RelPath} {before after : WalkState}
    {kept : List (RelPath × ObjectInfo)} {left : List ObjectInfo}
    (hbooks : Books dir before after kept left) {item : RelPath × Option ObjectHandle}
    (hvisited : ((listed ++ item :: before.pending).map device.key).Perm before.visited) :
    ((item :: listed ++ after.pending).map device.key).Perm after.visited := by
  have hkeys : (((kept.filter (fun r => r.2.folder)).map
      (fun r => (r.1, some r.2.handle))).reverse).map device.key =
      ((kept.filter (fun r => r.2.folder)).map (fun r => r.2.handle)).reverse := by
    rw [List.map_reverse, List.map_map]
    rfl
  rw [hbooks.pending, hbooks.visited, ← hkeys]
  generalize ((kept.filter (fun r => r.2.folder)).map
    (fun r => (r.1, some r.2.handle))).reverse = folders
  have hmiddle : (item :: listed ++ before.pending).Perm (listed ++ item :: before.pending) :=
    List.perm_middle.symm
  have hmoved : (item :: listed ++ (folders ++ before.pending)).Perm
      (folders ++ (listed ++ item :: before.pending)) :=
    (List.perm_append_comm_assoc _ _ _).trans (hmiddle.append_left folders)
  apply (hmoved.map device.key).trans
  rw [List.map_append]
  exact hvisited.append_left _

/-- Listing a folder books each object it lists once, as an entry or as a skip. -/
theorem visit_books (device : FiniteDevice) (path : RelPath) (handle : Option ObjectHandle)
    (before : WalkState) :
    ∃ (listing : Listing) (kept : List (RelPath × ObjectInfo)) (out left : List ObjectInfo)
      (skips : List SkippedEntry),
      listFolder device.storage handle path = .ok listing ∧
      listing.children = (classify path (device.listing handle).objects).children ∧
      (∀ r ∈ kept, r.2 ∈ (device.listing handle).objects) ∧
      (device.listing handle).objects.Perm (kept.map Prod.snd ++ out) ∧
      skips.length = out.length + (device.listing handle).skipped.length ∧
      Adds path before.walked (before.visit path listing).walked kept skips ∧
      Books path { before with
        walked := { before.walked with skipped := before.walked.skipped ++ listing.skipped } }
        (before.visit path listing) kept left := by
  obtain ⟨listing, dropped, reasons, hlist, hchildren, hreasons, hsplit, hcount⟩ :=
    describe_split path (device.listing handle)
  obtain ⟨kept, left, hperm, hsub, hbooks⟩ := foldl_child_books path listing.children
    { before with
      walked := { before.walked with skipped := before.walked.skipped ++ listing.skipped } }
  have hchild (r : RelPath × ObjectInfo) (hr : r ∈ kept) :
      r ∈ (classify path (device.listing handle).objects).children :=
    hchildren ▸ hsub.subset hr
  have hparents (s : SkippedEntry)
      (hs : s ∈ listing.skipped ++ left.map (fun _ => ⟨path, .listedTwice⟩)) :
      s.parent = path := by
    rcases List.mem_append.mp hs with hs | hs
    · rw [hreasons] at hs
      obtain ⟨reason, -, rfl⟩ := List.mem_map.mp hs
      rfl
    · obtain ⟨info, -, rfl⟩ := List.mem_map.mp hs
      rfl
  -- an object is left out by the listing (dropped) or by the walk, which saw it before (left)
  refine ⟨listing, kept, dropped ++ left, left,
    listing.skipped ++ left.map (fun _ => ⟨path, .listedTwice⟩), hlist, hchildren,
    fun r hr => (classify_child (hchild r hr)).2.2, ?_, ?_, ?_, hbooks⟩
  · have hleft : (listing.children.map Prod.snd ++ dropped).Perm
        (kept.map Prod.snd ++ left ++ dropped) := hperm.append_right dropped
    apply (hsplit.trans hleft).trans
    rw [List.append_assoc]
    exact List.perm_append_comm.append_left _
  · rw [hreasons, List.length_append, List.length_map, List.length_map, List.length_append,
      hcount]
    omega
  · refine ⟨fun r hr => (classify_child (hchild r hr)).1, hparents, hbooks.entries,
      hbooks.handles, ?_⟩
    rw [← List.append_assoc]
    exact hbooks.skipped

/-- Every folder recorded stays listed or pending when a folder is listed. -/
theorem Ledger.opened_visit (h : Ledger device root listed records state)
    {item : RelPath × Option ObjectHandle} {pending : List (RelPath × Option ObjectHandle)}
    (hpending : state.pending = item :: pending) {after : WalkState}
    {kept : List (RelPath × ObjectInfo)}
    (hafter : after.pending = ((kept.filter (fun r => r.2.folder)).map
      (fun r => (r.1, some r.2.handle))).reverse ++ pending) :
    (RelPath.root, root) ∈ item :: listed ++ after.pending ∧
      ∀ r ∈ records ++ kept, r.2.folder = true →
        (r.1, some r.2.handle) ∈ item :: listed ++ after.pending := by
  have hstill (other : RelPath × Option ObjectHandle) (hother : other ∈ listed ++ state.pending) :
      other ∈ item :: listed ++ after.pending := by
    rw [hafter]
    rw [hpending] at hother
    simp only [List.mem_append, List.mem_cons] at hother ⊢
    tauto
  refine ⟨hstill _ h.opened.1, ?_⟩
  intro r hr hfolder
  rcases List.mem_append.mp hr with hr | hr
  · exact hstill _ (h.opened.2 r hr hfolder)
  · rw [hafter]
    apply List.mem_append_right
    apply List.mem_append_left
    rw [List.mem_reverse]
    exact List.mem_map.mpr ⟨r, List.mem_filter.mpr ⟨hr, hfolder⟩, rfl⟩

/-- Listing the folder pushed last keeps the books. -/
theorem Ledger.visit (h : Ledger device root listed records state) {path : RelPath}
    {handle : Option ObjectHandle} {pending : List (RelPath × Option ObjectHandle)}
    (hpending : state.pending = (path, handle) :: pending) :
    ∃ listing records', listFolder device.storage handle path = .ok listing ∧
      Ledger device root ((path, handle) :: listed) records'
        (({ state with pending := pending }).visit path listing) := by
  obtain ⟨listing, kept, out, left, skips, hlist, hchildren, hobjects, hperm, hcount, hadds,
    hbooks⟩ := visit_books device path handle { state with pending := pending }
  have hnew := h.unlisted hpending
  refine ⟨listing, records ++ kept, hlist, ?_⟩
  refine ⟨h.tree.visit hpending hchildren, ?_, ?_, ?_, hbooks.nodup h.visited_nodup, ?_,
    h.opened_visit hpending hbooks.pending, ?_, ?_, ?_⟩
  · rw [hadds.entries, h.entries, List.map_append]
  · rw [hadds.handles, h.handles, List.map_append]
  · have hold := h.visited
    rw [hpending] at hold
    exact hbooks.visited_perm hold
  · intro known hmem
    rw [hbooks.visited] at hmem
    rcases List.mem_append.mp hmem with hmem | hmem
    · right
      rw [List.mem_reverse] at hmem
      obtain ⟨r, hr, rfl⟩ := List.mem_map.mp hmem
      obtain ⟨hr, hfolder⟩ := List.mem_filter.mp hr
      exact device.folder_mem handle r.2 (hobjects r hr) hfolder
    · exact h.visited_known known hmem
  · intro r hr
    rcases List.mem_append.mp hr with hr | hr
    · obtain ⟨item, hitem, hrest⟩ := h.source r hr
      exact ⟨item, List.mem_cons_of_mem _ hitem, hrest⟩
    · exact ⟨(path, handle), List.mem_cons_self, hadds.named r hr, hobjects r hr⟩
  · intro s hs
    rw [hadds.skipped] at hs
    rcases List.mem_append.mp hs with hs | hs
    · exact List.mem_cons_of_mem _ (h.skipped s hs)
    · rw [hadds.parents s hs]
      exact List.mem_cons_self
  -- the listed folder's own books are fresh; those of every other folder are framed
  · intro item hitem
    rcases List.mem_cons.mp hitem with rfl | hitem
    · obtain ⟨hnone, hnones, hnoskip⟩ := h.none_beneath hnew
      exact Balanced.fresh hnone hnones hnoskip out hperm hcount hadds
    · apply (h.balanced item hitem).frame ?_ hadds
      intro hsame
      exact hnew (hsame ▸ List.mem_map_of_mem hitem)

/-- With fuel for every folder a walk ends, and its books are closed. -/
theorem Ledger.run (n : ℕ) (h : Ledger device root listed records state)
    (hn : device.folders.card + 2 ≤ n + listed.length) :
    ∃ rest records' final, Ledger device root (rest.reverse ++ listed) records' final ∧
      final.pending = [] ∧ ∀ fuel asked, device.folders.card + 2 ≤ fuel + listed.length →
        walkLoop device.storage (fun _ => false) fuel asked state = some (.ok final.walked) ∧
          walkListed device.storage (fun _ => false) fuel asked state = rest := by
  have hlength := h.length_le
  -- induction on the folders that may still be listed; each step lists one of them
  induction n generalizing listed records state with
  | zero => omega
  | succ n ih =>
    cases hpending : state.pending with
    | nil =>
      refine ⟨[], records, state, h, hpending, ?_⟩
      intro fuel asked hfuel
      cases fuel with
      | zero => omega
      | succ fuel =>
        constructor
        · rw [walkLoop, hpending]
        · rw [walkListed, hpending]
    | cons item pending =>
      obtain ⟨path, handle⟩ := item
      obtain ⟨listing, records', hlist, hnext⟩ := h.visit hpending
      have hcount : device.folders.card + 2 ≤ n + ((path, handle) :: listed).length := by
        rw [List.length_cons]
        omega
      obtain ⟨rest, final, records'', hfinal, hdone, hruns⟩ :=
        ih hnext hcount hnext.length_le
      refine ⟨(path, handle) :: rest, final, records'', ?_, hdone, ?_⟩
      · rw [List.reverse_cons, List.append_assoc, List.singleton_append]
        exact hfinal
      · intro fuel asked hfuel
        cases fuel with
        | zero => omega
        | succ fuel =>
          obtain ⟨hrun, htrace⟩ := hruns fuel (asked + 1) (by rw [List.length_cons]; omega)
          constructor
          · rw [walkLoop, hpending]
            dsimp only
            rw [if_neg Bool.false_ne_true, hlist]
            exact hrun
          · rw [walkListed, hpending]
            dsimp only
            rw [if_neg Bool.false_ne_true, hlist]
            exact congrArg ((path, handle) :: ·) htrace

end Books

/-- What a finished walk is: every folder opened once, the recorded paths a proper tree with one
handle each, and the books of every opened folder balanced. -/
structure FiniteDevice.Walks (device : FiniteDevice) (root : Option ObjectHandle)
    (listed : List (RelPath × Option ObjectHandle)) (walked : Walked) : Prop where
  once : (listed.map device.key).Nodup
  opened : (RelPath.root, root) ∈ listed ∧ ∀ e ∈ walked.entries, e.kind = EntryKind.dir →
    ∃ handle, (e.path, handle) ∈ walked.handles ∧ (e.path, some handle) ∈ listed
  paths : (walked.entries.map Entry.path).Nodup
  unreserved : ∀ e ∈ walked.entries, ∃ name,
    e.path.fileName = some name ∧ isReservedName name = false
  ancestors : ∀ e ∈ walked.entries, ∀ d : List String, d ≠ [] → d <+: e.path.segments →
    d ≠ e.path.segments → ∃ a ∈ walked.entries, a.path.segments = d ∧ a.kind = EntryKind.dir
  handles : walked.handles.map Prod.fst = walked.entries.map Entry.path ∧
    ∀ r ∈ walked.handles, ∃ item ∈ listed, ∃ info ∈ (device.listing item.2).objects,
      r.1.segments = item.1.segments ++ [info.filename] ∧ r.2 = info.handle ∧
        entryFrom r.1 info ∈ walked.entries
  skips : ∀ s ∈ walked.skipped, s.parent ∈ listed.map Prod.fst
  folders : (listed.map Prod.fst).Nodup
  balanced : ∀ item ∈ listed, Balanced device walked item

theorem folder_of_entryFrom {path : RelPath} {info : ObjectInfo}
    (h : (entryFrom path info).kind = EntryKind.dir) : info.folder = true := by
  rw [entryFrom] at h
  split at h
  · assumption
  · cases h

section Closing

variable {device : FiniteDevice} {root : Option ObjectHandle}
  {listed : List (RelPath × Option ObjectHandle)} {records : List (RelPath × ObjectInfo)}
  {state : WalkState}

/-- Once nothing is pending, every recorded directory has been opened under its handle. -/
theorem Ledger.opened_dirs (h : Ledger device root listed records state)
    (hdone : state.pending = []) (e : Entry) (he : e ∈ state.walked.entries)
    (hdir : e.kind = EntryKind.dir) :
    ∃ handle, (e.path, handle) ∈ state.walked.handles ∧ (e.path, some handle) ∈ listed := by
  rw [h.entries] at he
  obtain ⟨r, hr, rfl⟩ := List.mem_map.mp he
  have hopened := h.opened.2 r hr (folder_of_entryFrom hdir)
  rw [hdone, List.append_nil] at hopened
  rw [entryFrom_path, h.handles]
  exact ⟨r.2.handle, List.mem_map_of_mem hr, hopened⟩

/-- Every handle is that of the object behind the entry of its path. -/
theorem Ledger.handle_source (h : Ledger device root listed records state)
    (r : RelPath × ObjectHandle) (hr : r ∈ state.walked.handles) :
    ∃ item ∈ listed, ∃ info ∈ (device.listing item.2).objects,
      r.1.segments = item.1.segments ++ [info.filename] ∧ r.2 = info.handle ∧
        entryFrom r.1 info ∈ state.walked.entries := by
  rw [h.handles] at hr
  obtain ⟨q, hq, rfl⟩ := List.mem_map.mp hr
  obtain ⟨item, hitem, hsegments, hinfo⟩ := h.source q hq
  refine ⟨item, hitem, q.2, hinfo, hsegments, rfl, ?_⟩
  rw [h.entries]
  exact List.mem_map_of_mem (f := fun r => entryFrom r.1 r.2) hq

end Closing

/-- A walk of a finite device ends, and loses nothing. -/
theorem walk_loses_nothing (device : FiniteDevice) (root : Option ObjectHandle) :
    ∃ walked listed, device.Walks root listed walked ∧
      ∀ fuel, device.folders.card + 2 ≤ fuel →
        walk device.storage root (fun _ => false) fuel = some (.ok walked) ∧
          walkListed device.storage (fun _ => false) fuel 0
            (WalkState.start device.storage root) = listed := by
  -- the ledger runs until nothing is pending, and what it holds then is what is claimed
  obtain ⟨rest, records, final, h, hdone, hruns⟩ :=
    (Ledger.start device root).run (device.folders.card + 2) (Nat.le_add_right _ _)
  rw [List.append_nil] at h
  have hwalk : walk device.storage root (fun _ => false) (device.folders.card + 2) =
      some (.ok final.walked) := (hruns _ 0 (Nat.le_add_right _ _)).1
  obtain ⟨hpaths, htree⟩ := walk_tree hwalk
  refine ⟨final.walked, rest, ?_, fun fuel hfuel => hruns fuel 0 hfuel⟩
  refine ⟨?_, ⟨?_, ?_⟩, hpaths, ?_, ?_, ⟨?_, ?_⟩, ?_, ?_, ?_⟩
  · have hperm := h.visited
    rw [hdone, List.append_nil, List.map_reverse] at hperm
    exact List.nodup_reverse.mp (hperm.nodup_iff.mpr h.visited_nodup)
  · have hroot := h.opened.1
    rw [hdone, List.append_nil] at hroot
    exact List.mem_reverse.mp hroot
  · intro e he hdir
    obtain ⟨handle, hhandle, hlisted⟩ := h.opened_dirs hdone e he hdir
    exact ⟨handle, hhandle, List.mem_reverse.mp hlisted⟩
  · intro e he
    obtain ⟨dir, name, hsegments, hname, -⟩ := htree e he
    refine ⟨name, ?_, hname⟩
    rw [RelPath.fileName, hsegments, List.getLast?_concat]
  · intro e he d hd hprefix hne
    obtain ⟨a, ha, hrest⟩ := (walk_ancestorClosed hwalk "").ancestor e
      ((mem_new hpaths).mpr he) d hd hprefix hne
    exact ⟨a, (mem_new hpaths).mp ha, hrest⟩
  · rw [h.handles, h.entries, List.map_map, List.map_map]
    apply List.map_congr_left
    intro r _
    exact (entryFrom_path r.1 r.2).symm
  · intro r hr
    obtain ⟨item, hitem, hsource⟩ := h.handle_source r hr
    exact ⟨item, List.mem_reverse.mp hitem, hsource⟩
  · intro s hs
    have hparent := h.skipped s hs
    rw [List.map_reverse] at hparent
    exact List.mem_reverse.mp hparent
  · have hfolders := h.tree.folders_nodup
    rw [hdone, List.map_nil, List.append_nil, List.map_reverse] at hfolders
    exact List.nodup_reverse.mp hfolders
  · intro item hitem
    exact h.balanced item (List.mem_reverse.mpr hitem)

end MtpxCore
