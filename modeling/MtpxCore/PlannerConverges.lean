import MtpxCore.PlannerExecutes
import MtpxCore.PlannerFailPass

/-! Planning again from what a plan leaves behind. The destination after a plan is known
name by name; every classification of the second pass meets there what the first one
created, so it has nothing left to do. -/
namespace MtpxCore

/-- No two entries have one name as the destination compares names. -/
def UniqueNames (tables : CaseTables) (folding : NameFolding) (dest : Snapshot) : Prop :=
  ∀ a ∈ dest.entries, ∀ b ∈ dest.entries,
    a.path.key tables folding = b.path.key tables folding → a = b

section After

variable {tables : CaseTables} {source dest : Snapshot} {folding : NameFolding}
  {partials : Partials} {conflict : ConflictPolicy}

/-- The destination once the planned actions have all succeeded. -/
def after (tables : CaseTables) (source dest : Snapshot) (folding : NameFolding)
    (partials : Partials) (conflict : ConflictPolicy) : Store :=
  (Store.of tables folding dest).replay tables folding
    (plannedActions tables source dest folding partials conflict)

theorem Store.of_key (e : Entry) :
    (Store.of tables folding dest) (e.path.key tables folding) =
      (destEntry tables dest folding e).map (fun x => ⟨x.kind, x.size⟩) := rfl

/-- A copy at a name is that of the first entry of the name, a file. -/
theorem copied_at (hc : AncestorClosed source) {a : Action}
    (ha : a ∈ plannedActions tables source dest folding partials conflict)
    (hac : a.isCopy = true) :
    ∃ e ∈ source.entries, e.kind = .file ∧ e.path = a.path ∧
      firstWithKey tables folding source.entries (a.key tables folding) = some e ∧
      ∃ resumeFrom reason, a = .copy e.path e.size e.modified resumeFrom reason := by
  obtain ⟨e, he, hep, hun, hw⟩ := writes_of_mem hc ha (Action.isSkip_of_isCopy hac)
  rcases hw with ⟨rfl, -⟩ | ⟨hk, hcopy, -⟩
  · exact absurd hac (by simp [Action.isCopy])
  · refine ⟨e, he, hk, hep, ?_, hcopy⟩
    rw [Action.key, ← hep]
    exact first_of_copied he hk hun

/-- What is not copied over survives with its kind and size. -/
theorem after_keeps {key : List String} {x : Held}
    (hno : ∀ a ∈ plannedActions tables source dest folding partials conflict,
      a.isCopy = true → a.key tables folding ≠ key)
    (hx : (Store.of tables folding dest) key = some x) :
    after tables source dest folding partials conflict key = some x :=
  replay_keeps hx hno

theorem after_copied (hc : AncestorClosed source) {a : Action}
    (ha : a ∈ plannedActions tables source dest folding partials conflict)
    (hac : a.isCopy = true) {e : Entry}
    (he : firstWithKey tables folding source.entries (a.key tables folding) = some e) :
    after tables source dest folding partials conflict (a.key tables folding) =
      some ⟨.file, e.size⟩ := by
  apply replay_copy _ (Or.inr ⟨a, ha, hac, rfl⟩)
  intro path s modified resumeFrom reason hm hk
  obtain ⟨f, -, -, -, hf, r, q, hcopy⟩ := copied_at hc hm rfl
  have hfe : f = e := by
    rw [show Action.key tables folding (.copy path s modified resumeFrom reason) =
      a.key tables folding from hk, he] at hf
    exact (Option.some.inj hf).symm
  rw [hfe] at hcopy
  exact (Action.copy.inj hcopy).2.1

variable (partials conflict) in
/-- Files in the way of a directory stay in the way. -/
theorem after_file (hc : AncestorClosed source) {key : List String} {x : Held}
    (hx : (Store.of tables folding dest) key = some x) (hk : x.kind = .file) :
    ∃ y, after tables source dest folding partials conflict key = some y ∧ y.kind = .file := by
  by_cases hcopy : ∃ a ∈ plannedActions tables source dest folding partials conflict,
      a.isCopy = true ∧ a.key tables folding = key
  · obtain ⟨a, ha, hac, rfl⟩ := hcopy
    obtain ⟨e, -, -, -, hfirst, -⟩ := copied_at hc ha hac
    exact ⟨_, after_copied hc ha hac hfirst, rfl⟩
  · exact ⟨x, after_keeps (fun a ha hac hak => hcopy ⟨a, ha, hac, hak⟩) hx, hk⟩

/-- An unhindered directory is there afterwards: as it was, or new and empty. -/
theorem after_dir (hc : AncestorClosed source) {e : Entry} (he : e ∈ source.entries)
    (hk : e.kind = .dir) (hun : Unhindered tables source dest folding e) :
    after tables source dest folding partials conflict (e.path.key tables folding) =
      match destEntry tables dest folding e with
      | none => some ⟨.dir, 0⟩
      | some x => some ⟨x.kind, x.size⟩ := by
  have hno : ∀ a ∈ plannedActions tables source dest folding partials conflict,
      a.isCopy = true → a.key tables folding ≠ e.path.key tables folding := by
    intro a ha hac hak
    obtain ⟨f, -, hfk, -, hfirst, -⟩ := copied_at hc ha hac
    obtain ⟨o, ho, hor⟩ := first_of_uncontested he hun.2
    rw [hak, ho] at hfirst
    rw [Option.some.inj hfirst] at hor
    rcases hor with rfl | ⟨-, hfd⟩
    · exact absurd (hk.symm.trans hfk) (by simp)
    · exact absurd (hfd.symm.trans hfk) (by simp)
  cases hx : destEntry tables dest folding e with
  | none =>
    have hinit : (Store.of tables folding dest) (e.path.key tables folding) = none := by
      rw [Store.of_key, hx]
      rfl
    exact replay_mkdir hinit hno ((mem_mkdir_iff hc).mpr ⟨e, he, rfl, hk, hun, hx⟩) rfl
  | some x =>
    apply after_keeps hno
    rw [Store.of_key, hx]
    rfl

/-- An unhindered file that was copied is there with its size. -/
theorem after_file_copied (hc : AncestorClosed source) {e : Entry} (he : e ∈ source.entries)
    (hk : e.kind = .file) (hun : Unhindered tables source dest folding e)
    {path : RelPath} {size resumeFrom : ℕ} {modified : Option ModifiedTime} {reason : CopyReason}
    (hd : decideFile e (destEntry tables dest folding e) (partials.get e.path) conflict =
      .copy path size modified resumeFrom reason) :
    after tables source dest folding partials conflict (e.path.key tables folding) =
      some ⟨.file, e.size⟩ := by
  have hm : Action.copy path size modified resumeFrom reason ∈
      plannedActions tables source dest folding partials conflict :=
    (mem_copy_iff hc).mpr ⟨e, he, hk, hun, hd⟩
  have hpath : path = e.path := by
    rcases decideFile_cases e (destEntry tables dest folding e) (partials.get e.path) conflict with
      ⟨r, hcopy, -⟩ | ⟨r, x, hskip, -⟩
    · rw [hcopy] at hd
      exact (congrArg Action.path hd).symm
    · rw [hskip] at hd
      exact absurd hd (by simp)
  subst hpath
  exact after_copied hc hm rfl (first_of_copied he hk hun)

/-- An unhindered file that was skipped finds the destination's entry as it was. -/
theorem after_file_skipped (hc : AncestorClosed source) {e x : Entry} (he : e ∈ source.entries)
    (hk : e.kind = .file) (hun : Unhindered tables source dest folding e)
    (hx : destEntry tables dest folding e = some x) {reason : SkipReason}
    (hd : decideFile e (destEntry tables dest folding e) (partials.get e.path) conflict =
      .skip e.path reason) :
    after tables source dest folding partials conflict (e.path.key tables folding) =
      some ⟨x.kind, x.size⟩ := by
  apply after_keeps
  · intro a ha hac hak
    -- a copy at this name would be a second decision about the same entry
    obtain ⟨f, -, -, hfp, hfirst, r, q, hcopy⟩ := copied_at hc ha hac
    rw [hak, first_of_copied he hk hun] at hfirst
    obtain rfl := Option.some.inj hfirst
    rw [hcopy] at ha
    obtain ⟨g, hg, -, -, hgd⟩ := (mem_copy_iff hc).mp ha
    have hge : g = e := by
      rcases decideFile_cases g (destEntry tables dest folding g) (partials.get g.path)
        conflict with ⟨s, hgc, -⟩ | ⟨s, y, hgs, -⟩
      · rw [hgc] at hgd
        exact Snapshot.eq_of_path hg he (congrArg Action.path hgd)
      · rw [hgs] at hgd
        exact absurd hgd (by simp)
    rw [hge, hd] at hgd
    exact absurd hgd (by simp)
  · rw [Store.of_key, hx]
    rfl

end After

section Again

variable {tables : CaseTables} {source dest dest' : Snapshot} {folding : NameFolding}
  {partials partials' : Partials} {conflict : ConflictPolicy}

/-- What a snapshot of the destination shows for an entry after the plan. -/
theorem destEntry_after
    (hafter : Store.of tables folding dest' =
      after tables source dest folding partials conflict) (e : Entry) :
    (destEntry tables dest' folding e).map (fun x => Held.mk x.kind x.size) =
      after tables source dest folding partials conflict (e.path.key tables folding) := by
  rw [← hafter, Store.of_key]

variable (hc : AncestorClosed source)
  (hafter : Store.of tables folding dest' = after tables source dest folding partials conflict)

include hc hafter in
/-- What was obstructed stays so. -/
theorem unhindered_before {e : Entry} (h : Unhindered tables source dest' folding e) :
    Unhindered tables source dest folding e := by
  refine ⟨?_, h.2⟩
  intro ho
  obtain ⟨k, hk, hpre, hne, hobs⟩ := ho
  apply h.1
  refine ⟨k, hk, hpre, hne, ?_⟩
  rcases hobs with hsrc | ⟨x, hx, hxk⟩
  · exact Or.inl hsrc
  · right
    have hinit : (Store.of tables folding dest) k = some ⟨x.kind, x.size⟩ := by
      rw [Store.of, hx]
      rfl
    obtain ⟨y, hy, hyk⟩ := after_file partials conflict hc hinit hxk
    rw [← hafter, Store.of] at hy
    obtain ⟨z, hz, rfl⟩ := Option.map_eq_some_iff.mp hy
    exact ⟨z, hz, hyk⟩

include hc hafter in
/-- The second pass has only skips left. -/
theorem again_skips :
    ∀ a ∈ plannedActions tables source dest' folding partials' conflict, a.isSkip = true := by
  intro a ha
  by_contra hns
  obtain ⟨e, he, hep, hun', hw⟩ := writes_of_mem hc ha (Bool.eq_false_of_not_eq_true hns)
  have hun := unhindered_before hc hafter hun'
  have hmap := destEntry_after hafter e
  rcases hw with ⟨-, hk, hnone⟩ | ⟨hk, -, hdiff⟩
  · -- a missing directory would have been made
    rw [hnone, after_dir hc he hk hun] at hmap
    cases hx : destEntry tables dest folding e with
    | none =>
      rw [hx] at hmap
      exact absurd hmap (by simp)
    | some x =>
      rw [hx] at hmap
      exact absurd hmap (by simp)
  · rcases decideFile_cases e (destEntry tables dest folding e) (partials.get e.path) conflict with
      ⟨r, hd, -⟩ | ⟨r, x, hd, hx, -, hpol⟩
    · -- a copied file is there with its size
      rw [after_file_copied hc he hk hun hd] at hmap
      obtain ⟨y, hy, hyh⟩ := Option.map_eq_some_iff.mp hmap
      exact (hdiff y hy).2.1 (congrArg Held.size hyh)
    · -- a skipped file meets the same entry under the same policy
      rw [after_file_skipped hc he hk hun hx hd] at hmap
      obtain ⟨y, hy, hyh⟩ := Option.map_eq_some_iff.mp hmap
      obtain ⟨hyk, hys, hne⟩ := hdiff y hy
      have hxk : y.kind = x.kind := congrArg Held.kind hyh
      have hxs : y.size = x.size := congrArg Held.size hyh
      apply hne
      apply hpol
      · rw [← hxk, hyk, hk]
      · rwa [← hxs]

include hc hafter in
/-- Where the first pass found no conflict the second finds none. -/
theorem again_no_conflict (h : ∀ e ∈ source.entries, ¬Conflicting tables source dest folding e) :
    ∀ e ∈ source.entries, ¬Conflicting tables source dest' folding e := by
  intro e he hconf
  have hun : Unhindered tables source dest folding e := by
    refine ⟨?_, fun hcon => h e he (Or.inl hcon)⟩
    intro ho
    obtain ⟨d, hd, -, hdconf, -⟩ := exists_conflicting_above hc he ho
    exact h d hd hdconf
  have hagree (x : Entry) (hx : destEntry tables dest folding e = some x) :
      isConflict e x = false := by
    apply Bool.eq_false_of_not_eq_true
    intro hi
    exact h e he (Or.inr ⟨x, hx, hi⟩)
  have hmap := destEntry_after hafter e
  rcases hconf with hcon | ⟨y, hy, hyc⟩
  · exact h e he (Or.inl hcon)
  · rw [hy, Option.map_some] at hmap
    have hsame (kind : EntryKind) (size : ℕ)
        (heq : some (Held.mk y.kind y.size) = some ⟨kind, size⟩) :
        y.kind = kind ∧ y.size = size := by
      simpa using heq
    cases hk : e.kind with
    | dir =>
      -- a file under the name of a directory was one before, and a conflict then
      rw [after_dir hc he hk hun] at hmap
      have hyk := (isConflict_dir hk).mp hyc
      cases hx : destEntry tables dest folding e with
      | none =>
        rw [hx] at hmap
        exact absurd (hyk.symm.trans (hsame _ _ hmap).1) (by simp)
      | some x =>
        rw [hx] at hmap
        have hxc : isConflict e x = true :=
          (isConflict_dir hk).mpr ((hsame _ _ hmap).1.symm.trans hyk)
        rw [hagree x hx] at hxc
        exact absurd hxc (by simp)
    | file =>
      rcases decideFile_cases e (destEntry tables dest folding e) (partials.get e.path)
        conflict with ⟨r, hd, -⟩ | ⟨r, x, hd, hx, -, -⟩
      · -- what was copied is the entry itself
        rw [after_file_copied hc he hk hun hd] at hmap
        obtain ⟨hyk, hys⟩ := hsame _ _ hmap
        rw [isConflict, hyk, hys, hk] at hyc
        exact absurd hyc (by simp)
      · rw [after_file_skipped hc he hk hun hx hd] at hmap
        obtain ⟨hyk, hys⟩ := hsame _ _ hmap
        have hxc := hagree x hx
        rw [isConflict, ← hyk, ← hys] at hxc
        rw [isConflict, hxc] at hyc
        exact absurd hyc (by simp)

end Again

section Landed

variable (tables : CaseTables) (folding : NameFolding)

/-- One action on a listing of the destination. -/
def landOne (es : List Entry) : Action → List Entry
  | .mkdir path =>
    if (firstWithKey tables folding es (path.key tables folding)).isSome then es
    else es ++ [Entry.dir path none]
  | .copy path size modified _ _ =>
    es.filter (fun e => decide (e.path.key tables folding ≠ path.key tables folding)) ++
      [Entry.file path size modified]
  | .skip _ _ => es

/-- The listing of the destination after all actions, each file under the name it was
copied to. -/
def landed (dest : Snapshot) (actions : List Action) : Snapshot :=
  Snapshot.new dest.label (actions.foldl (landOne tables folding) dest.entries) dest.skipped

variable {tables folding}

/-- No two entries of a listing share a name. -/
def UniqueKeys (tables : CaseTables) (folding : NameFolding) (es : List Entry) : Prop :=
  es.Pairwise (fun a b => a.path.key tables folding ≠ b.path.key tables folding)

theorem first_of_uniqueKeys {es : List Entry} (h : UniqueKeys tables folding es) {e : Entry}
    (he : e ∈ es) : firstWithKey tables folding es (e.path.key tables folding) = some e := by
  induction es with
  | nil => exact absurd he List.not_mem_nil
  | cons f es ih =>
    obtain ⟨hf, hes⟩ := List.pairwise_cons.mp h
    rw [firstWithKey, SortedTable.first_cons]
    rcases List.mem_cons.mp he with rfl | he
    · exact if_pos rfl
    · rw [if_neg (hf e he)]
      exact ih hes he

theorem uniqueKeys_landOne {es : List Entry} (h : UniqueKeys tables folding es) (a : Action) :
    UniqueKeys tables folding (landOne tables folding es a) := by
  cases a with
  | mkdir path =>
    rw [landOne]
    split
    · exact h
    · rename_i hno
      rw [Option.not_isSome_iff_eq_none] at hno
      refine List.pairwise_append.mpr ⟨h, List.pairwise_singleton _ _, ?_⟩
      intro e he f hf
      rw [List.mem_singleton.mp hf]
      exact SortedTable.first_eq_none.mp hno e he
  | copy path size modified resumeFrom reason =>
    rw [landOne]
    refine List.pairwise_append.mpr ⟨h.filter _, List.pairwise_singleton _ _, ?_⟩
    intro e he f hf
    rw [List.mem_singleton.mp hf]
    exact of_decide_eq_true (List.mem_filter.mp he).2
  | skip path reason => exact h

/-- The names a listing shows. -/
def shown (tables : CaseTables) (folding : NameFolding) (es : List Entry) : Store := fun key =>
  (firstWithKey tables folding es key).map (fun e => ⟨e.kind, e.size⟩)

theorem shown_append (es : List Entry) (e : Entry) (key : List String) :
    shown tables folding (es ++ [e]) key =
      (shown tables folding es key).or
        (if e.path.key tables folding = key then some ⟨e.kind, e.size⟩ else none) := by
  rw [shown, shown, firstWithKey, firstWithKey, SortedTable.first_append,
    SortedTable.first_cons]
  cases SortedTable.first (fun e => e.path.key tables folding) key es with
  | some o => rfl
  | none =>
    simp only [Option.none_or, Option.map_none]
    split <;> rfl

theorem shown_filter (es : List Entry) (k key : List String) :
    shown tables folding (es.filter (fun e => decide (e.path.key tables folding ≠ k))) key =
      if k = key then none else shown tables folding es key := by
  induction es with
  | nil =>
    rw [List.filter_nil, shown]
    split <;> rfl
  | cons e es ih =>
    have hcons (es : List Entry) : shown tables folding (e :: es) key =
        if e.path.key tables folding = key then some ⟨e.kind, e.size⟩
        else shown tables folding es key := by
      rw [shown, firstWithKey, SortedTable.first_cons]
      split <;> rfl
    rw [List.filter_cons, hcons]
    by_cases he : e.path.key tables folding = k
    · rw [if_neg (by simpa using he), ih]
      by_cases hk : k = key
      · rw [if_pos hk, if_pos hk]
      · rw [if_neg hk, if_neg hk, if_neg (he ▸ hk)]
    · rw [if_pos (by simpa using he), hcons, ih]
      by_cases hk : k = key
      · rw [if_pos hk, if_pos hk, if_neg (hk ▸ he)]
      · rw [if_neg hk, if_neg hk]

theorem shown_landOne (es : List Entry) (a : Action) :
    shown tables folding (landOne tables folding es a) =
      (shown tables folding es).act tables folding a := by
  funext key
  cases a with
  | mkdir path =>
    rw [act_mkdir, landOne]
    by_cases hk : path.key tables folding = key
    · subst hk
      cases hf : firstWithKey tables folding es (path.key tables folding) with
      | some e =>
        rw [Option.isSome_some, if_pos rfl, if_neg]
        rw [shown, hf]
        simp
      | none =>
        have hnone : shown tables folding es (path.key tables folding) = none := by
          rw [shown, hf]
          rfl
        rw [Option.isSome_none, if_neg (by simp), shown_append, hnone, Option.none_or,
          Entry.dir_path, if_pos rfl, if_pos (And.intro rfl rfl)]
        rfl
    · rw [if_neg (fun h : _ ∧ _ => hk h.1)]
      split
      · rfl
      · rw [shown_append, Entry.dir_path, if_neg hk, Option.or_none]
  | copy path size modified resumeFrom reason =>
    rw [act_copy, landOne, shown_append, shown_filter, Entry.file_path]
    by_cases hk : path.key tables folding = key
    · rw [if_pos hk, if_pos hk, if_pos hk, Option.none_or]
      rfl
    · rw [if_neg hk, if_neg hk, if_neg hk, Option.or_none]
  | skip path reason => rfl

theorem shown_foldl (actions : List Action) (es : List Entry)
    (h : UniqueKeys tables folding es) :
    UniqueKeys tables folding (actions.foldl (landOne tables folding) es) ∧
      shown tables folding (actions.foldl (landOne tables folding) es) =
        (shown tables folding es).replay tables folding actions := by
  induction actions generalizing es with
  | nil => exact ⟨h, rfl⟩
  | cons a actions ih =>
    obtain ⟨hu, hs⟩ := ih (landOne tables folding es a) (uniqueKeys_landOne h a)
    refine ⟨hu, hs.trans ?_⟩
    rw [shown_landOne]
    rfl

/-- Sorting a listing without repeats changes no lookup. -/
theorem shown_build {es : List Entry} (h : UniqueKeys tables folding es) :
    shown tables folding (SortedTable.build Entry.path es) = shown tables folding es := by
  -- no two entries share a path, so sorting drops none
  have hmem (e : Entry) (he : e ∈ es) : e ∈ SortedTable.build Entry.path es := by
    have hf : SortedTable.first Entry.path e.path es = some e := by
      cases hf : SortedTable.first Entry.path e.path es with
      | none => exact absurd rfl (SortedTable.first_eq_none.mp hf e he)
      | some f =>
        have hk : f.path.key tables folding = e.path.key tables folding := by
          rw [SortedTable.first_key hf]
        have h1 := first_of_uniqueKeys h (SortedTable.first_mem hf)
        rw [hk, first_of_uniqueKeys h he] at h1
        exact congrArg some (Option.some.inj h1).symm
    rw [← SortedTable.first_build] at hf
    exact SortedTable.first_mem hf
  funext key
  rw [shown, shown]
  congr 1
  cases hf : firstWithKey tables folding es key with
  | none =>
    apply SortedTable.first_eq_none.mpr
    intro e he
    exact SortedTable.first_eq_none.mp hf e (SortedTable.mem_of_mem_build Entry.path he)
  | some e =>
    cases hb : firstWithKey tables folding (SortedTable.build Entry.path es) key with
    | none =>
      exact absurd (SortedTable.first_key hf)
        (SortedTable.first_eq_none.mp hb e (hmem e (SortedTable.first_mem hf)))
    | some f =>
      have h1 := first_of_uniqueKeys h
        (SortedTable.mem_of_mem_build Entry.path (SortedTable.first_mem hb))
      rw [firstWithKey] at hb
      rw [SortedTable.first_key hb, hf] at h1
      exact h1.symm

theorem uniqueKeys_of_uniqueNames {dest : Snapshot} (h : UniqueNames tables folding dest) :
    UniqueKeys tables folding dest.entries := by
  have hs : dest.entries.Pairwise (fun a b => a.path < b.path) := dest.sorted
  apply hs.imp_of_mem
  intro a b ha hb hlt hk
  rw [h a ha b hb hk] at hlt
  exact lt_irrefl _ hlt

/-- The listing after a plan shows the replayed destination. -/
theorem of_landed {dest : Snapshot} (h : UniqueNames tables folding dest)
    (actions : List Action) :
    Store.of tables folding (landed tables folding dest actions) =
      (Store.of tables folding dest).replay tables folding actions := by
  obtain ⟨hu, hs⟩ := shown_foldl actions dest.entries (uniqueKeys_of_uniqueNames h)
  exact (shown_build hu).trans hs

end Landed

/-- After a plan has run, planning again with the same source, folding and policy, and any
partials, from any listing of what is there then, succeeds and only skips; and whatever the
destination held that was not copied over is still there. -/
theorem sync_converges (tables : CaseTables) (source dest : Snapshot) (folding : NameFolding)
    (partials : Partials) (opts : TransferOptions) (hc : AncestorClosed source)
    (hu : UniqueNames tables folding dest) (p : Plan)
    (hp : plan tables source dest folding partials opts = .ok p) :
    (∀ x ∈ dest.entries,
      (∀ a ∈ p.actions, a.isCopy = true → a.key tables folding ≠ x.path.key tables folding) →
      ((Store.of tables folding dest).replay tables folding p.actions)
        (x.path.key tables folding) = some ⟨x.kind, x.size⟩) ∧
    Store.of tables folding (landed tables folding dest p.actions) =
      (Store.of tables folding dest).replay tables folding p.actions ∧
    ∀ (dest' : Snapshot) (partials' : Partials),
      Store.of tables folding dest' =
        (Store.of tables folding dest).replay tables folding p.actions →
      ∃ again, plan tables source dest' folding partials' opts = .ok again ∧
        ∀ a ∈ again.actions, a.isSkip = true := by
  refine ⟨?_, of_landed hu p.actions, ?_⟩
  · intro x hx hno
    apply replay_keeps _ hno
    rw [Store.of, first_of_uniqueKeys (uniqueKeys_of_uniqueNames hu) hx]
    rfl
  · intro dest' partials' hafter
    rw [plan_ok hp] at hafter
    have hagain := plan_eq tables source dest' folding partials' opts
    -- only the fail policy can refuse the second plan, and it would have refused the first
    have hempty : opts.conflict = .fail →
        collectConflicts tables source (DestIndex.new tables dest' folding) folding = [] := by
      intro hf
      rw [plan_eq, hf] at hp
      split at hp
      · exact absurd hp (by simp)
      · rename_i hne
        have hnone : ∀ e ∈ source.entries, ¬Conflicting tables source dest folding e := by
          intro e he hconf
          apply hne
          simpa using List.ne_nil_of_mem (mem_collectConflicts.mpr ⟨e, he, rfl, hconf⟩)
        apply List.eq_nil_iff_forall_not_mem.mpr
        intro path hm
        obtain ⟨e, he, -, hconf⟩ := mem_collectConflicts.mp hm
        exact again_no_conflict hc hafter hnone e he hconf
    rw [if_neg (by
      intro h
      rw [Bool.and_eq_true, decide_eq_true_eq] at h
      rw [hempty h.1] at h
      exact absurd h.2 (by simp))] at hagain
    exact ⟨_, hagain, again_skips hc hafter⟩

private def mixedSource : Snapshot :=
  Snapshot.new "device" [Entry.dir (.ofSegments ["Camera"]) none,
    Entry.file (.ofSegments ["Camera", "a.jpg"]) 7 none, Entry.dir (.ofSegments ["Podcasts"]) none,
    Entry.file (.ofSegments ["Podcasts", "b.mp3"]) 2 none] []

private def mixedDest : Snapshot :=
  Snapshot.new "local" [Entry.dir (.ofSegments ["camera"]) none,
    Entry.file (.ofSegments ["camera", "A.jpg"]) 5 none,
    Entry.file (.ofSegments ["podcasts"]) 1 none] []

/-- One file overwritten under another spelling, one directory blocked by a file: the
second plan skips both files and the blocked directory. -/
theorem sync_converges_mixed :
    ∃ p, plan .ascii mixedSource mixedDest .caseInsensitive [] .sync = .ok p ∧
      p.actions = [.copy (.ofSegments ["Camera", "a.jpg"]) 7 none 0 .sizeDiffers,
        .skip (.ofSegments ["Podcasts"]) .kindConflict,
        .skip (.ofSegments ["Podcasts", "b.mp3"]) .kindConflict] ∧
      ∃ again, plan .ascii mixedSource (landed .ascii .caseInsensitive mixedDest p.actions)
          .caseInsensitive [] .sync = .ok again ∧ ∀ a ∈ again.actions, a.isSkip = true := by
  have hp : plan .ascii mixedSource mixedDest .caseInsensitive [] .sync =
      .ok (Plan.new [.copy (.ofSegments ["Camera", "a.jpg"]) 7 none 0 .sizeDiffers,
        .skip (.ofSegments ["Podcasts"]) .kindConflict,
        .skip (.ofSegments ["Podcasts", "b.mp3"]) .kindConflict]) := by decide
  have htree : mixedSource.isTree = true := by decide
  have hu : UniqueNames .ascii .caseInsensitive mixedDest := by
    unfold UniqueNames
    decide
  obtain ⟨-, hshown, hagain⟩ := sync_converges .ascii mixedSource mixedDest .caseInsensitive []
    .sync (Snapshot.ancestorClosed_of_isTree htree) hu _ hp
  exact ⟨_, hp, rfl, hagain _ [] hshown⟩

end MtpxCore
