import MtpxCore.DeviceTree
import MtpxCore.PlannerExecutes

/-! The names a copy writes to: its final name, its part, its record and the record being
replaced. Whether those of two copies can be one name for the destination depends on how
letter case is folded; the filter at listing time compares suffixes byte for byte. -/
namespace MtpxCore

/-- The four names a transfer of `path` may touch. -/
def transferNames (path : List String) : List (List String) :=
  [path, partPath path, sidecarPath path, sidecarTmpPath path]

/-- Some transfer name of `p` is, for the destination, a transfer name of `q`. -/
def Coincide (tables : CaseTables) (folding : NameFolding) (p q : List String) : Prop :=
  ∃ x ∈ transferNames p, ∃ y ∈ transferNames q,
    foldNames tables folding x = foldNames tables folding y

/-- No two copies of a plan share a transfer name. -/
def NamesApart (tables : CaseTables) (folding : NameFolding) (actions : List Action) : Prop :=
  ∀ (i j : ℕ) (a b : Action), i ≠ j → actions[i]? = some a → actions[j]? = some b →
    a.isCopy = true → b.isCopy = true →
      ¬Coincide tables folding a.path.segments b.path.segments

section Suffixes

variable (tables : CaseTables)

/-- When two transfer names of files in folders `p` and `q` are one for the destination. -/
theorem coincide_iff (folding : NameFolding) (p q : List String) (m n : String) :
    Coincide tables folding (p ++ [m]) (q ++ [n]) ↔
      foldNames tables folding p = foldNames tables folding q ∧
        (foldName tables folding m = foldName tables folding n ∨
          foldStem tables folding m = foldStem tables folding n ∨
          ∃ s ∈ RESERVED_SUFFIXES,
            (foldName tables folding m).toList = foldStem tables folding n ++ s.toList ∨
            (foldName tables folding n).toList = foldStem tables folding m ++ s.toList) := by
  have hname (d : List String) (k : String) :
      foldNames tables folding (d ++ [k]) =
        foldNames tables folding d ++ [foldName tables folding k] := by
    rw [foldNames, List.map_append]
    rfl
  -- a file and its transfer files lie in one folder, so only the last names matter
  have hmem (d : List String) (k : String) (x : List String) :
      x ∈ transferNames (d ++ [k]) ↔ x = d ++ [k] ∨ ∃ s ∈ RESERVED_SUFFIXES, x = d ++ [k ++ s] := by
    simp [transferNames, partPath, sidecarPath, sidecarTmpPath, withSuffix_append,
      RESERVED_SUFFIXES]
  have heq (k l : String) : foldNames tables folding (p ++ [k]) =
      foldNames tables folding (q ++ [l]) ↔ foldNames tables folding p = foldNames tables folding q ∧
        foldName tables folding k = foldName tables folding l := by
    rw [hname, hname]
    constructor
    · intro h
      obtain ⟨hp, hk⟩ := List.append_inj' h rfl
      exact ⟨hp, List.singleton_inj.mp hk⟩
    · intro h
      rw [h.1, h.2]
  constructor
  · intro h
    obtain ⟨x, hx, y, hy, hxy⟩ := h
    rcases (hmem p m x).mp hx with rfl | ⟨s, hs, rfl⟩
    · rcases (hmem q n y).mp hy with rfl | ⟨t, ht, rfl⟩
      · exact ⟨((heq _ _).mp hxy).1, Or.inl ((heq _ _).mp hxy).2⟩
      · obtain ⟨hd, hk⟩ := (heq _ _).mp hxy
        refine ⟨hd, Or.inr (Or.inr ⟨t, ht, Or.inl ?_⟩)⟩
        rw [hk, foldName_suffix tables folding n ht]
    · rcases (hmem q n y).mp hy with rfl | ⟨t, ht, rfl⟩
      · obtain ⟨hd, hk⟩ := (heq _ _).mp hxy
        refine ⟨hd, Or.inr (Or.inr ⟨s, hs, Or.inr ?_⟩)⟩
        rw [← hk, foldName_suffix tables folding m hs]
      · -- equal suffixed names have the same suffix and the same folded stem
        obtain ⟨hd, hk⟩ := (heq _ _).mp hxy
        have hl := congrArg String.toList hk
        rw [foldName_suffix tables folding m hs, foldName_suffix tables folding n ht] at hl
        exact ⟨hd, Or.inr (Or.inl (suffix_inj hs ht hl).2)⟩
  · intro h
    obtain ⟨hd, hk | hk | ⟨s, hs, hk | hk⟩⟩ := h
    · exact ⟨_, (hmem p m _).mpr (Or.inl rfl), _, (hmem q n _).mpr (Or.inl rfl),
        (heq m n).mpr ⟨hd, hk⟩⟩
    · -- files of one stem share each of the transfer names, the part for one
      have hp : PART_SUFFIX ∈ RESERVED_SUFFIXES := List.mem_cons_self
      refine ⟨_, (hmem p m _).mpr (Or.inr ⟨_, hp, rfl⟩), _, (hmem q n _).mpr (Or.inr ⟨_, hp, rfl⟩),
        (heq _ _).mpr ⟨hd, ?_⟩⟩
      apply String.toList_inj.mp
      rw [foldName_suffix tables folding m hp, foldName_suffix tables folding n hp, hk]
    · refine ⟨_, (hmem p m _).mpr (Or.inl rfl), _, (hmem q n _).mpr (Or.inr ⟨s, hs, rfl⟩),
        (heq _ _).mpr ⟨hd, ?_⟩⟩
      apply String.toList_inj.mp
      rw [foldName_suffix tables folding n hs, hk]
    · refine ⟨_, (hmem p m _).mpr (Or.inr ⟨s, hs, rfl⟩), _, (hmem q n _).mpr (Or.inl rfl),
        (heq _ _).mpr ⟨hd, ?_⟩⟩
      apply String.toList_inj.mp
      rw [foldName_suffix tables folding m hs, hk]

end Suffixes

section Copies

variable (tables : CaseTables) (source dest : Snapshot) (folding : NameFolding)
  (conflict : ConflictPolicy)

/-- `e` is a file the plan copies: nothing is in its way, and the destination lacks it or
has a file of another size that the policy lets it replace. -/
def Copied (e : Entry) : Prop :=
  e ∈ source.entries ∧ e.kind = .file ∧ Unhindered tables source dest folding e ∧
    ∀ x, destEntry tables dest folding e = some x →
      x.kind = .file ∧ x.size ≠ e.size ∧ conflict ≠ .skip

/-- The name of `b` is that of a transfer file of `a` once folded, or the two names differ
only in the sigma that ends them, which a suffix makes alike. -/
def Shadows (a b : Entry) : Prop :=
  ∃ p q m n, a.path.segments = p ++ [m] ∧ b.path.segments = q ++ [n] ∧
    foldNames tables folding p = foldNames tables folding q ∧
      (foldStem tables folding m = foldStem tables folding n ∨
        ∃ s ∈ RESERVED_SUFFIXES,
          (foldName tables folding n).toList = foldStem tables folding m ++ s.toList)

variable {tables source dest folding conflict} {partials : Partials}

variable (partials) in
theorem copied_iff (hc : AncestorClosed source) {e : Entry} :
    Copied tables source dest folding conflict e ↔ e ∈ source.entries ∧
      ∃ a ∈ plannedActions tables source dest folding partials conflict,
        a.isCopy = true ∧ a.path = e.path := by
  constructor
  · intro h
    obtain ⟨he, hk, hun, hdest⟩ := h
    refine ⟨he, ?_⟩
    rcases decideFile_cases e (destEntry tables dest folding e) (partials.get e.path) conflict with
      ⟨r, hd, -⟩ | ⟨r, x, hd, hx, -, hpol⟩
    · exact ⟨_, (mem_copy_iff hc).mpr ⟨e, he, hk, hun, hd⟩, rfl, rfl⟩
    · obtain ⟨hxk, hxs, hne⟩ := hdest x hx
      exact absurd (hpol (hxk.trans hk.symm) hxs) hne
  · intro h
    obtain ⟨he, a, ha, hac, hap⟩ := h
    obtain ⟨f, hf, hfp, hun, hw⟩ := writes_of_mem hc ha (Action.isSkip_of_isCopy hac)
    have hfe : f = e := Snapshot.eq_of_path hf he (hfp.trans hap)
    subst hfe
    rcases hw with ⟨rfl, -⟩ | ⟨hk, -, hdest⟩
    · exact absurd hac (by simp [Action.isCopy])
    · exact ⟨hf, hk, hun, hdest⟩

end Copies

section Walked

variable {storage : Storage} {root : Option ObjectHandle} {cancelled : ℕ → Bool} {fuel : ℕ}
  {walked : Walked} {label : String}

/-- Every entry of a walked snapshot has a last name, without a reserved suffix. -/
theorem walked_name (hw : walk storage root cancelled fuel = some (.ok walked)) {e : Entry}
    (he : e ∈ (Snapshot.new label walked.entries walked.skipped).entries) :
    ∃ p m, e.path.segments = p ++ [m] ∧ isReservedName m = false := by
  obtain ⟨hn, htree⟩ := walk_tree hw
  obtain ⟨dir, name, hseg, hres, -⟩ := htree e ((mem_new hn).mp he)
  exact ⟨dir.segments, name, hseg, hres⟩

/-- Under exact names the filter of the walk keeps transfer names apart. -/
theorem not_coincide_exact (tables : CaseTables) {p q : List String} {m n : String}
    (hm : isReservedName m = false) (hn : isReservedName n = false)
    (hne : p ++ [m] ≠ q ++ [n]) : ¬Coincide tables .exact (p ++ [m]) (q ++ [n]) := by
  rw [coincide_iff, foldNames_exact, foldNames_exact]
  intro h
  obtain ⟨rfl, hk⟩ := h
  have hmn : m ≠ n := fun heq => hne (by rw [heq])
  have hres {k l s : String} (hs : s ∈ RESERVED_SUFFIXES) (hkl : k.toList = l.toList ++ s.toList) :
      isReservedName k = true := by
    rw [← String.toList_append] at hkl
    exact isReservedName_iff.mpr ⟨l, s, hs, String.toList_inj.mp hkl⟩
  rcases hk with hk | hk | ⟨s, hs, hk | hk⟩
  · exact hmn hk
  · exact hmn (String.toList_inj.mp hk)
  · have hr : isReservedName m = true := hres hs hk
    rw [hr] at hm
    exact absurd hm (by simp)
  · have hr : isReservedName n = true := hres hs hk
    rw [hr] at hn
    exact absurd hn (by simp)

/-- The copies of a plan for a walked device have transfer names of their own exactly when
the destination compares names byte for byte, or no copied file is named, in another case,
like a transfer file of another one, and none differs from another in a final sigma only. -/
theorem transfer_names_apart_iff (tables : CaseTables) (storage : Storage)
    (root : Option ObjectHandle) (cancelled : ℕ → Bool) (fuel : ℕ) (walked : Walked)
    (label : String) (dest : Snapshot) (folding : NameFolding) (partials : Partials)
    (opts : TransferOptions) (p : Plan)
    (hw : walk storage root cancelled fuel = some (.ok walked))
    (hp : plan tables (Snapshot.new label walked.entries walked.skipped) dest folding partials
      opts = .ok p) :
    NamesApart tables folding p.actions ↔ folding = .exact ∨
      ∀ a b, Copied tables (Snapshot.new label walked.entries walked.skipped) dest folding
          opts.conflict a →
        Copied tables (Snapshot.new label walked.entries walked.skipped) dest folding
          opts.conflict b → a ≠ b → ¬Shadows tables folding a b := by
  have hc := walk_ancestorClosed hw label
  have hactions := plan_ok hp
  constructor
  · intro happart
    right
    intro a b ha hb hab hsh
    obtain ⟨hae, x, hx, hxc, hxp⟩ := (copied_iff partials hc).mp ha
    obtain ⟨hbe, y, hy, hyc, hyp⟩ := (copied_iff partials hc).mp hb
    rw [← hactions] at hx hy
    obtain ⟨i, hi⟩ := List.mem_iff_getElem?.mp hx
    obtain ⟨j, hj⟩ := List.mem_iff_getElem?.mp hy
    have hij : i ≠ j := by
      intro heq
      rw [heq, hj] at hi
      rw [← Option.some.inj hi, hyp] at hxp
      exact hab (Snapshot.eq_of_path hae hbe hxp.symm)
    apply happart i j x y hij hi hj hxc hyc
    obtain ⟨p, q, m, n, hpm, hqn, hd, hk⟩ := hsh
    rw [hxp, hyp, hpm, hqn, coincide_iff]
    refine ⟨hd, Or.inr ?_⟩
    rcases hk with hk | ⟨s, hs, hk⟩
    · exact Or.inl hk
    · exact Or.inr ⟨s, hs, Or.inr hk⟩
  · intro hcond i j x y hij hi hj hxc hyc
    rw [hactions] at hi hj
    have hx := List.mem_of_getElem? hi
    have hy := List.mem_of_getElem? hj
    obtain ⟨a, ha, hap, -⟩ := writes_of_mem hc hx (Action.isSkip_of_isCopy hxc)
    obtain ⟨b, hb, hbp, -⟩ := writes_of_mem hc hy (Action.isSkip_of_isCopy hyc)
    have hpath : x.path ≠ y.path := planned_path_ne hij hi hj
    have hab : a ≠ b := by
      intro heq
      apply hpath
      rw [← hap, ← hbp, heq]
    obtain ⟨p, m, hpm, hm⟩ := walked_name hw ha
    obtain ⟨q, n, hqn, hn⟩ := walked_name hw hb
    rw [← hap, ← hbp, hpm, hqn]
    by_cases hf : folding = .exact
    · subst hf
      apply not_coincide_exact tables hm hn
      rw [← hpm, ← hqn]
      intro hs
      apply hpath
      rw [← hap, ← hbp]
      exact RelPath.segments_injective hs
    -- under folding the names coincide in one of four ways, and three of them are shadows
    · have hcopied := hcond.resolve_left hf
      have hca := (copied_iff partials hc).mpr ⟨ha, x, hx, hxc, hap.symm⟩
      have hcb := (copied_iff partials hc).mpr ⟨hb, y, hy, hyc, hbp.symm⟩
      rw [coincide_iff]
      intro h
      obtain ⟨hd, hk | hk | ⟨s, hs, hk | hk⟩⟩ := h
      · -- one folded path: the planner lets a single copy have it
        apply hpath
        apply copy_apart hc hx hxc hy (Action.isSkip_of_isCopy hyc)
        rw [Action.key, Action.key, ← hap, ← hbp, RelPath.key, RelPath.key, hpm, hqn, foldNames,
          foldNames, List.map_append, List.map_append, List.map_singleton, List.map_singleton, hk]
        rw [foldNames, foldNames] at hd
        exact hd ▸ List.prefix_rfl
      · exact hcopied a b hca hcb hab ⟨p, q, m, n, hpm, hqn, hd, Or.inl hk⟩
      · exact hcopied b a hcb hca hab.symm ⟨q, p, n, m, hqn, hpm, hd.symm, Or.inr ⟨s, hs, hk⟩⟩
      · exact hcopied a b hca hcb hab ⟨p, q, m, n, hpm, hqn, hd, Or.inr ⟨s, hs, hk⟩⟩

/-- A folder with a file and another named like its part, in capitals. -/
private def plantedPart : Storage where
  rootHandle := ⟨0⟩
  collectObjects
    | none => .ok ⟨[⟨⟨1⟩, "a.jpg", false, 5, none⟩, ⟨⟨2⟩, "a.jpg.MTPX-PART", false, 9, none⟩], []⟩
    | some _ => .ok ⟨[], []⟩

private theorem pictured_valid : ∀ segment ∈ ["a.jpg"], validateSegment segment = .ok () := by decide

private def pictured : RelPath := .ofSegments ["a.jpg"] pictured_valid

private def planted : RelPath := .ofSegments ["a.jpg.MTPX-PART"]

private def plantedWalk : Walked where
  entries := [Entry.file pictured 5 none, Entry.file planted 9 none]
  handles := [(pictured, ⟨1⟩), (planted, ⟨2⟩)]
  skipped := []

private def plantedPlan : Plan :=
  Plan.new [.copy pictured 5 none 0 .new, .copy planted 9 none 0 .new]

/-- On an empty destination the two become two copies. -/
theorem transfer_names_apart_iff_planted :
    NamesApart .ascii .caseInsensitive plantedPlan.actions ↔
      NameFolding.caseInsensitive = .exact ∨
        ∀ a b, Copied .ascii (Snapshot.new "phone" plantedWalk.entries plantedWalk.skipped)
            (Snapshot.new "local" [] []) .caseInsensitive .fail a →
          Copied .ascii (Snapshot.new "phone" plantedWalk.entries plantedWalk.skipped)
            (Snapshot.new "local" [] []) .caseInsensitive .fail b →
          a ≠ b → ¬Shadows .ascii .caseInsensitive a b :=
  transfer_names_apart_iff .ascii plantedPart none (fun _ => false) 2 plantedWalk "phone"
    (Snapshot.new "local" [] []) .caseInsensitive [] .pull plantedPlan (by decide) (by decide)

/-- The part of `a.jpg` is, where letter case is folded, the other file. -/
theorem transfer_names_coincide :
    walk plantedPart none (fun _ => false) 2 = some (.ok plantedWalk) ∧
      plan .ascii (Snapshot.new "phone" plantedWalk.entries plantedWalk.skipped)
        (Snapshot.new "local" [] []) .caseInsensitive [] .pull = .ok plantedPlan ∧
      ¬NamesApart .ascii .caseInsensitive plantedPlan.actions := by
  refine ⟨by decide, by decide, ?_⟩
  intro h
  apply h 0 1 _ _ (by decide) rfl rfl rfl rfl
  exact ⟨partPath ["a.jpg"], by decide, ["a.jpg.MTPX-PART"], by decide, by decide⟩

end Walked

end MtpxCore
