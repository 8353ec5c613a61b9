import MtpxCore.PlannerFailPass
import MtpxCore.PlannerExecutes

/-! What a plan must say, with no pass behind it: one condition for every entry, each in
terms of what the plan says about the entries above it and before it. The conditions admit
one plan up to the order of its actions, and the planner's plan meets them. -/
namespace MtpxCore

section Spec

variable (tables : CaseTables) (source dest : Snapshot) (folding : NameFolding)
  (partials : Partials) (conflict : ConflictPolicy) (actions : List Action)

/-- What a plan does about `e`, if anything. -/
def actionFor (e : Entry) : Option Action :=
  actions.find? (fun a => decide (a.path = e.path))

/-- The plan skips the directory `d`. -/
def RefusedDir (d : Entry) (reason : SkipReason) : Prop :=
  d ∈ source.entries ∧ d.kind = .dir ∧ actionFor actions d = some (.skip d.path reason)

/-- `d` is a proper ancestor of `e`; a shared beginning of a name does not count. -/
def Above (d e : Entry) : Prop := d.path.segments <+: e.path.segments ∧ d.path ≠ e.path

def CoveredBy (d : Entry) (reason : SkipReason) (e : Entry) : Prop :=
  RefusedDir source actions d reason ∧ Above d e

def Covered (e : Entry) : Prop := ∃ d reason, CoveredBy source actions d reason e

/-- `o` comes first among the entries of one folded name that no refused directory is above. -/
def Owner (o : Entry) (key : List String) : Prop :=
  (o ∈ source.entries ∧ o.path.key tables folding = key ∧ ¬Covered source actions o) ∧
    ∀ x ∈ source.entries, x.path.key tables folding = key → ¬Covered source actions x →
      o.path ≤ x.path

/-- An earlier entry owns the name of `e`, and the two cannot merge. -/
def Collides (e : Entry) : Prop :=
  ∃ o, Owner tables source folding actions o (e.path.key tables folding) ∧ o.path < e.path ∧
    ¬(e.kind = .dir ∧ o.kind = .dir)

/-- The bytes a copy of `e` may skip. -/
def specResume (e : Entry) : ℕ :=
  match partials.get e.path with
  | none => 0
  | some info =>
    if info.fingerprint = ⟨e.size, e.modified⟩ ∧ info.bytes ≤ e.size then info.bytes else 0

/-- What an entry gets when nothing is in its way but the destination. -/
def specAction (e : Entry) : Option Action :=
  match e.kind, destEntry tables dest folding e with
  | .dir, none => some (.mkdir e.path)
  | .dir, some existing => if existing.kind = .dir then none else some (.skip e.path .kindConflict)
  | .file, none => some (.copy e.path e.size e.modified (specResume partials e) .new)
  | .file, some existing =>
    if existing.kind = .dir then some (.skip e.path .kindConflict)
    else if existing.size = e.size then some (.skip e.path .identical)
    else if conflict = .skip then some (.skip e.path .conflict)
    else some (.copy e.path e.size e.modified (specResume partials e) .sizeDiffers)

/-- The conditions on a plan. -/
structure PlanSpec : Prop where
  named : ∀ a ∈ actions, ∃ e ∈ source.entries, a.path = e.path
  once : actions.Pairwise (fun a b => a.path ≠ b.path)
  covered : ∀ e ∈ source.entries, ∀ d reason, CoveredBy source actions d reason e →
    (∀ x r, CoveredBy source actions x r e → d.path.segments <+: x.path.segments) →
      actionFor actions e = some (.skip e.path reason)
  collision : ∀ e ∈ source.entries, ¬Covered source actions e →
    (actionFor actions e = some (.skip e.path .nameCollision) ↔
      Collides tables source folding actions e)
  settled : ∀ e ∈ source.entries, ¬Covered source actions e →
    ¬Collides tables source folding actions e →
      actionFor actions e = specAction tables dest folding partials conflict e

end Spec

section Order

variable {source : Snapshot} {actions : List Action}

/-- A directory above an entry sorts before it. -/
theorem Above.lt {d e : Entry} (h : Above d e) : d.path < e.path :=
  LexPrefix.prefix_lt h.1 (fun hs => h.2 (RelPath.segments_injective hs))

theorem Above.trans {c d e : Entry} (h : Above c d) (h' : Above d e) : Above c e := by
  refine ⟨h.1.trans h'.1, ?_⟩
  intro heq
  exact lt_asymm h.lt (heq ▸ h'.lt)

theorem actionFor_mem {e : Entry} {a : Action} (h : actionFor actions e = some a) :
    a ∈ actions ∧ a.path = e.path :=
  ⟨List.mem_of_find?_eq_some h, by simpa using List.find?_some h⟩

/-- Under distinct paths the action of an entry is the one with its path. -/
theorem actionFor_eq_some (ho : actions.Pairwise (fun a b => a.path ≠ b.path)) {e : Entry}
    {a : Action} : actionFor actions e = some a ↔ a ∈ actions ∧ a.path = e.path := by
  constructor
  · exact actionFor_mem
  · intro h
    obtain ⟨hm, hp⟩ := h
    cases hf : actionFor actions e with
    | none =>
      have hall := List.find?_eq_none.mp hf
      exact absurd (decide_eq_true hp) (hall a hm)
    | some b =>
      obtain ⟨hb, hbp⟩ := actionFor_mem hf
      have hnodup : (actions.map Action.path).Nodup := List.pairwise_map.mpr ho
      exact congrArg some (List.inj_on_of_nodup_map hnodup hb hm (hbp.trans hp.symm))

/-- Among the refused directories above an entry one is above all the others. -/
theorem exists_outermost {e : Entry} (h : Covered source actions e) :
    ∃ d reason, CoveredBy source actions d reason e ∧
      ∀ x r, CoveredBy source actions x r e → d.path.segments <+: x.path.segments := by
  obtain ⟨d, reason, hd⟩ := h
  induction hn : d.path.segments.length using Nat.strong_induction_on generalizing d reason with
  | _ n ih =>
    by_cases hall : ∀ x r, CoveredBy source actions x r e → d.path.segments <+: x.path.segments
    · exact ⟨d, reason, hd, hall⟩
    · push Not at hall
      obtain ⟨x, r, hx, hnot⟩ := hall
      -- both are prefixes of one path, so the other one is shorter
      have hpre : x.path.segments <+: d.path.segments :=
        (List.prefix_or_prefix_of_prefix hx.2.1 hd.2.1).resolve_right hnot
      have hlt : x.path.segments.length < n := by
        rw [← hn]
        apply lt_of_le_of_ne hpre.length_le
        intro hl
        apply hnot
        have heq := hpre.eq_of_length hl
        exact heq ▸ List.prefix_rfl
      exact ih _ hlt x r hx rfl

end Order

section Unique

variable {tables : CaseTables} {source dest : Snapshot} {folding : NameFolding}
  {partials : Partials} {conflict : ConflictPolicy} {xs ys : List Action}

/-- Coverage looks at earlier entries only. -/
theorem coveredBy_congr {d e : Entry} {reason : SkipReason}
    (ih : ∀ x ∈ source.entries, x.path < e.path → actionFor xs x = actionFor ys x) :
    CoveredBy source xs d reason e ↔ CoveredBy source ys d reason e := by
  constructor
  · intro h
    obtain ⟨⟨hd, hdir, hact⟩, hab⟩ := h
    exact ⟨⟨hd, hdir, (ih d hd hab.lt) ▸ hact⟩, hab⟩
  · intro h
    obtain ⟨⟨hd, hdir, hact⟩, hab⟩ := h
    exact ⟨⟨hd, hdir, (ih d hd hab.lt).trans hact⟩, hab⟩

theorem covered_congr {e : Entry}
    (ih : ∀ x ∈ source.entries, x.path < e.path → actionFor xs x = actionFor ys x) :
    Covered source xs e ↔ Covered source ys e := by
  simp only [Covered, coveredBy_congr ih]

/-- So does ownership of a name by an earlier entry. -/
theorem collides_of_agree {e : Entry}
    (ih : ∀ x ∈ source.entries, x.path < e.path → actionFor xs x = actionFor ys x)
    (h : Collides tables source folding xs e) : Collides tables source folding ys e := by
  obtain ⟨o, ⟨⟨ho, hkey, hopen⟩, hleast⟩, hlt, hdirs⟩ := h
  have hcov (x : Entry) (hx : x.path ≤ e.path) : Covered source xs x ↔ Covered source ys x :=
    covered_congr (fun y hy hyx => ih y hy (hyx.trans_le hx))
  refine ⟨o, ⟨⟨ho, hkey, fun hc => hopen ((hcov o hlt.le).mpr hc)⟩, ?_⟩, hlt, hdirs⟩
  intro x hx hxk hxo
  rcases le_total x.path e.path with hle | hle
  · exact hleast x hx hxk (fun hc => hxo ((hcov x hle).mp hc))
  · exact hlt.le.trans hle

theorem PlanSpec.actionFor_eq (hx : PlanSpec tables source dest folding partials conflict xs)
    (hy : PlanSpec tables source dest folding partials conflict ys) :
    ∀ e ∈ source.entries, actionFor xs e = actionFor ys e := by
  -- in source order: what the conditions mention of the plan lies before the entry
  apply source.sorted.induction (motive := fun e => actionFor xs e = actionFor ys e)
  intro e he ih
  have hcov := covered_congr ih
  by_cases hc : Covered source xs e
  · obtain ⟨d, reason, hd, hout⟩ := exists_outermost hc
    rw [hx.covered e he d reason hd hout]
    symm
    apply hy.covered e he d reason ((coveredBy_congr ih).mp hd)
    intro x r hxr
    exact hout x r ((coveredBy_congr ih).mpr hxr)
  · have hc' : ¬Covered source ys e := fun h => hc (hcov.mpr h)
    by_cases hcol : Collides tables source folding xs e
    · rw [(hx.collision e he hc).mpr hcol]
      exact ((hy.collision e he hc').mpr (collides_of_agree ih hcol)).symm
    · have hcol' : ¬Collides tables source folding ys e := fun h =>
        hcol (collides_of_agree (fun x hx hlt => (ih x hx hlt).symm) h)
      rw [hx.settled e he hc hcol, hy.settled e he hc' hcol']

theorem PlanSpec.mem_iff (h : PlanSpec tables source dest folding partials conflict xs)
    {a : Action} : a ∈ xs ↔ ∃ e ∈ source.entries, actionFor xs e = some a := by
  constructor
  · intro ha
    obtain ⟨e, he, hp⟩ := h.named a ha
    exact ⟨e, he, (actionFor_eq_some h.once).mpr ⟨ha, hp⟩⟩
  · intro ha
    obtain ⟨e, -, hf⟩ := ha
    exact (actionFor_mem hf).1

/-- The only entries without an action are the directories the destination already has. -/
theorem PlanSpec.none_iff (h : PlanSpec tables source dest folding partials conflict xs)
    {e : Entry} (he : e ∈ source.entries) :
    actionFor xs e = none ↔ ¬Covered source xs e ∧ ¬Collides tables source folding xs e ∧
      e.kind = .dir ∧ ∃ x, destEntry tables dest folding e = some x ∧ x.kind = .dir := by
  by_cases hc : Covered source xs e
  · obtain ⟨d, reason, hd, hout⟩ := exists_outermost hc
    rw [h.covered e he d reason hd hout]
    simp [hc]
  · by_cases hcol : Collides tables source folding xs e
    · rw [(h.collision e he hc).mpr hcol]
      simp [hcol]
    · rw [h.settled e he hc hcol, specAction]
      cases hk : e.kind with
      | dir =>
        cases hx : destEntry tables dest folding e with
        | none => simp
        | some x => by_cases hxk : x.kind = .dir <;> simp [hc, hcol, hxk]
      | file =>
        cases hx : destEntry tables dest folding e with
        | none => simp
        | some x =>
          dsimp only
          split_ifs <;> simp

/-- The conditions leave only the order of the actions open. -/
theorem PlanSpec.perm (hx : PlanSpec tables source dest folding partials conflict xs)
    (hy : PlanSpec tables source dest folding partials conflict ys) : xs.Perm ys := by
  have hnodup {as : List Action} (ho : as.Pairwise (fun a b => a.path ≠ b.path)) : as.Nodup :=
    ho.imp (fun hab h => hab (congrArg Action.path h))
  rw [List.perm_ext_iff_of_nodup (hnodup hx.once) (hnodup hy.once)]
  intro a
  rw [hx.mem_iff, hy.mem_iff]
  constructor
  · intro h
    obtain ⟨e, he, ha⟩ := h
    exact ⟨e, he, (hx.actionFor_eq hy e he) ▸ ha⟩
  · intro h
    obtain ⟨e, he, ha⟩ := h
    exact ⟨e, he, (hx.actionFor_eq hy e he).trans ha⟩

end Unique

section Meets

variable {tables : CaseTables} {source dest : Snapshot} {folding : NameFolding}
  {partials : Partials} {conflict : ConflictPolicy}

/-- An action carries the path of the entry it is for. -/
theorem action_path {existing : Option Entry} {e : Entry} {v : Verdict} {a : Action}
    (h : v.action existing partials conflict e = some a) : a.path = e.path := by
  cases v with
  | blocked reason => exact (Option.some.inj h) ▸ rfl
  | collision => exact (Option.some.inj h) ▸ rfl
  | directory d =>
    cases d with
    | mkdir => exact (Option.some.inj h) ▸ rfl
    | present => exact absurd h (by simp [Verdict.action])
    | blocked => exact (Option.some.inj h) ▸ rfl
  | file =>
    rw [← Option.some.inj h]
    rcases decideFile_cases e existing (partials.get e.path) conflict with
      ⟨r, hd, -⟩ | ⟨r, x, hd, -⟩
    · rw [hd]
      rfl
    · rw [hd]
      rfl

/-- A plan does about an entry what its verdict says. -/
theorem actionFor_planned {e : Entry} {v : Verdict}
    (h : (e, v) ∈ verdicts tables source dest folding) :
    actionFor (plannedActions tables source dest folding partials conflict) e =
      v.action (destEntry tables dest folding e) partials conflict e := by
  have hpaths := planned_paths tables source dest folding partials conflict
  ext a
  rw [actionFor_eq_some hpaths, mem_plannedActions]
  constructor
  · intro ha
    obtain ⟨⟨x, w, hx, hw⟩, hp⟩ := ha
    obtain rfl : x = e :=
      Snapshot.eq_of_path (mem_of_verdict hx) (mem_of_verdict h) ((action_path hw).symm.trans hp)
    rw [verdict_unique h hx]
    exact hw
  · intro ha
    exact ⟨⟨e, v, h, ha⟩, action_path ha⟩

variable (hc : AncestorClosed source)

include hc in
/-- Only directories are refused together with what lies beneath them. -/
theorem dir_of_refusal {d : Entry} {w : Verdict} {reason : SkipReason}
    (h : (d, w) ∈ verdicts tables source dest folding) (hr : w.refusal d = some reason) :
    d.kind = .dir := by
  have hset := settled hc h
  cases w with
  | blocked r => exact absurd hr (by simp [Verdict.refusal])
  | collision =>
    by_contra hk
    exact absurd hr (by simp [Verdict.refusal, hk])
  | directory decision => exact hset.2.2.1
  | file => exact absurd hr (by simp [Verdict.refusal])

variable (partials conflict) in
include hc in
/-- A skipped directory is refused itself or lies beneath one that is. -/
theorem refusedDir_iff {d : Entry} {w : Verdict} {reason : SkipReason}
    (h : (d, w) ∈ verdicts tables source dest folding) :
    RefusedDir source (plannedActions tables source dest folding partials conflict) d reason ↔
      d.kind = .dir ∧ (w.refusal d = some reason ∨ w = .blocked reason) := by
  rw [RefusedDir, actionFor_planned h]
  have hd := mem_of_verdict h
  have hset := settled hc h
  cases w with
  | blocked r => simp [hd, Verdict.action, skip, Verdict.refusal]
  | collision =>
    simp only [hd, true_and, Verdict.action, skip, Verdict.refusal]
    by_cases hk : d.kind = .dir <;> simp [hk]
  | directory decision => cases decision <;> simp [hd, Verdict.action, skip, Verdict.refusal]
  | file =>
    have hfile : d.kind ≠ .dir := by simp [hset.2.2]
    simp [hfile]

variable (partials conflict) in
include hc in
/-- An entry is covered exactly when the pass blocked it. -/
theorem covered_iff {e : Entry} {v : Verdict}
    (h : (e, v) ∈ verdicts tables source dest folding) :
    Covered source (plannedActions tables source dest folding partials conflict) e ↔
      v.isBlocked = true := by
  constructor
  · intro hcov
    obtain ⟨d, reason, hd, hab⟩ := hcov
    obtain ⟨w, hw⟩ := exists_verdict tables dest folding hd.1
    -- what covers the directory covers the entry too
    rcases ((refusedDir_iff partials conflict hc hw).mp hd).2 with hr | rfl
    · rw [(blocked_iff h).mpr ⟨d, w, hw, hr, hab⟩]
      rfl
    · obtain ⟨c, u, hu, hr, hab'⟩ := (blocked_iff hw).mp rfl
      have hce : Above c e := Above.trans hab' hab
      rw [(blocked_iff h).mpr ⟨c, u, hu, hr, hce⟩]
      rfl
  · intro hv
    cases v with
    | blocked reason =>
      obtain ⟨d, w, hw, hr, hab⟩ := (blocked_iff h).mp rfl
      exact ⟨d, reason, (refusedDir_iff partials conflict hc hw).mpr ⟨dir_of_refusal hc hw hr, Or.inl hr⟩, hab⟩
    | collision => exact absurd hv (by simp [Verdict.isBlocked])
    | directory d => exact absurd hv (by simp [Verdict.isBlocked])
    | file => exact absurd hv (by simp [Verdict.isBlocked])

include hc in
/-- The reason in the blocking slot is that of the outermost refused directory. -/
theorem blocked_of_outermost {e d : Entry} {v : Verdict} {reason : SkipReason}
    (h : (e, v) ∈ verdicts tables source dest folding)
    (hd : CoveredBy source (plannedActions tables source dest folding partials conflict) d
      reason e)
    (hout : ∀ x r, CoveredBy source (plannedActions tables source dest folding partials conflict)
      x r e → d.path.segments <+: x.path.segments) : v = .blocked reason := by
  obtain ⟨href, hab⟩ := hd
  obtain ⟨w, hw⟩ := exists_verdict tables dest folding href.1
  rw [blocked_iff h]
  rcases ((refusedDir_iff partials conflict hc hw).mp href).2 with hr | rfl
  · exact ⟨d, w, hw, hr, hab⟩
  · -- a directory above the outermost one would be further out
    obtain ⟨c, u, hu, hr, hcd⟩ := (blocked_iff hw).mp rfl
    have hcref := (refusedDir_iff partials conflict hc hu).mpr
      ⟨dir_of_refusal hc hu hr, Or.inl hr⟩
    have hdc := hout c reason ⟨hcref, Above.trans hcd hab⟩
    exact absurd (RelPath.segments_injective (hcd.1.eq_of_length_le hdc.length_le)) hcd.2

variable (partials conflict) in
include hc in
/-- The first claimant of a name is its owner. -/
theorem owner_iff {o : Entry} {key : List String} :
    Owner tables source folding (plannedActions tables source dest folding partials conflict) o
        key ↔
      firstWithKey tables folding (opened (verdicts tables source dest folding)) key = some o := by
  -- the entries that are not covered are those the pass leaves open
  have hmem (x : Entry) : x ∈ opened (verdicts tables source dest folding) ↔
      x ∈ source.entries ∧
        ¬Covered source (plannedActions tables source dest folding partials conflict) x := by
    rw [mem_opened]
    constructor
    · intro hx
      obtain ⟨v, hv, hb⟩ := hx
      refine ⟨mem_of_verdict hv, ?_⟩
      rw [covered_iff partials conflict hc hv, hb]
      simp
    · intro hx
      obtain ⟨v, hv⟩ := exists_verdict tables dest folding hx.1
      refine ⟨v, hv, ?_⟩
      rw [covered_iff partials conflict hc hv] at hx
      exact Bool.eq_false_of_not_eq_true hx.2
  have hsorted : SortedTable.Strict Entry.path (opened (verdicts tables source dest folding)) := by
    have hsub : (opened (verdicts tables source dest folding)).Sublist source.entries := by
      rw [← verdicts_map_fst tables source dest folding]
      exact List.filter_sublist.map Prod.fst
    exact List.Pairwise.sublist hsub source.sorted
  rw [firstWithKey, hsorted.first_least]
  simp only [Owner, hmem, and_imp]
  constructor
  · intro ho
    obtain ⟨⟨h1, h2, h3⟩, h4⟩ := ho
    exact ⟨⟨⟨h1, h3⟩, h2⟩, fun x hx hxc hxk => h4 x hx hxk hxc⟩
  · intro ho
    obtain ⟨⟨⟨h1, h3⟩, h2⟩, h4⟩ := ho
    exact ⟨⟨h1, h2, h3⟩, fun x hx hxk hxc => h4 x hx hxc hxk⟩

variable (partials conflict) in
include hc in
/-- An open entry collides exactly when the pass says so; else its kind decides. -/
theorem open_iff {e : Entry} {v : Verdict}
    (h : (e, v) ∈ verdicts tables source dest folding) (ho : v.isBlocked = false) :
    (Collides tables source folding
        (plannedActions tables source dest folding partials conflict) e ↔ v = .collision) ∧
      (v ≠ .collision → v = match e.kind with
        | .dir => .directory (decideDir (destEntry tables dest folding e))
        | .file => .file) := by
  have hself : e ∈ opened (verdicts tables source dest folding) := mem_opened.mpr ⟨v, h, ho⟩
  rcases open_verdict h ho with ⟨rfl, -, o, hf, hne, hdirs⟩ | ⟨hv, hown, hkind⟩
  · refine ⟨⟨fun _ => rfl, fun _ => ?_⟩, fun hcon => absurd rfl hcon⟩
    have hoo := (owner_iff partials conflict hc).mpr hf
    refine ⟨o, hoo, ?_, hdirs⟩
    have hle := hoo.2 e (mem_of_verdict h) rfl (by rw [covered_iff partials conflict hc h, ho]; simp)
    apply lt_of_le_of_ne hle
    intro heq
    exact hne (Snapshot.eq_of_path hoo.1.1 (mem_of_verdict h) heq)
  · refine ⟨⟨fun hcol => ?_, fun hcon => absurd hcon hv⟩, fun _ => hkind⟩
    obtain ⟨o, hoo, hlt, hdirs⟩ := hcol
    exfalso
    rcases hown with rfl | ⟨o', hf, hor⟩
    · -- names compared exactly are told apart by their paths
      have hk := hoo.1.2.1
      rw [RelPath.key_exact, RelPath.key_exact] at hk
      exact hlt.ne (RelPath.segments_injective hk)
    · rw [(owner_iff partials conflict hc).mp hoo, Option.some.injEq] at hf
      subst hf
      rcases hor with rfl | hor
      · exact lt_irrefl _ hlt
      · exact hdirs hor

/-- The decision for a file, written out. -/
theorem decideFile_spec {e : Entry} (hk : e.kind = .file) :
    some (decideFile e (destEntry tables dest folding e) (partials.get e.path) conflict) =
      specAction tables dest folding partials conflict e := by
  have hres : resumeOffset e (partials.get e.path) = specResume partials e := by
    unfold specResume
    cases partials.get e.path with
    | none => rfl
    | some info =>
      unfold resumeOffset
      dsimp only
      have hfp : info.fingerprint = ⟨e.size, e.modified⟩ ↔
          info.fingerprint.matchesEntry e = true := by
        obtain ⟨⟨size, modified⟩, bytes⟩ := info
        simp [Fingerprint.matchesEntry]
      simp only [hfp, Bool.and_eq_true, decide_eq_true_eq]
  rw [specAction, hk]
  cases hx : destEntry tables dest folding e with
  | none =>
    dsimp only
    rw [← hres]
    rfl
  | some x =>
    dsimp only
    unfold decideFile
    dsimp only
    rw [hk]
    cases hxk : x.kind with
    | dir => rfl
    | file =>
      -- equal sizes are identical files, and otherwise the policy is asked
      by_cases hs : x.size = e.size
      · have hi : isConflict e x = false := by simp [isConflict, hk, hxk, hs]
        simp [hi, hs, skip]
      · have hi : isConflict e x = true := by simp [isConflict, Ne.symm hs]
        cases conflict <;> simp [hi, hs, skip, copy, hres]

/-- The decision for a directory, written out. -/
theorem dirAction_spec {e : Entry} (hk : e.kind = .dir) :
    (Verdict.directory (decideDir (destEntry tables dest folding e))).action
        (destEntry tables dest folding e) partials conflict e =
      specAction tables dest folding partials conflict e := by
  rw [specAction, hk]
  cases hx : destEntry tables dest folding e with
  | none => rfl
  | some x =>
    dsimp only [decideDir]
    split <;> rfl

/-- The destination alone never gives the reason of a collision. -/
theorem specAction_ne (e : Entry) :
    specAction tables dest folding partials conflict e ≠ some (.skip e.path .nameCollision) := by
  rw [specAction]
  cases e.kind with
  | dir =>
    cases destEntry tables dest folding e with
    | none => simp
    | some x =>
      dsimp only
      split <;> simp
  | file =>
    cases destEntry tables dest folding e with
    | none => simp
    | some x =>
      dsimp only
      split_ifs <;> simp

/-- The verdict of an unhindered entry gives the action written out. -/
theorem action_spec {e : Entry} {v : Verdict}
    (hv : v = match e.kind with
      | .dir => .directory (decideDir (destEntry tables dest folding e))
      | .file => .file) :
    v.action (destEntry tables dest folding e) partials conflict e =
      specAction tables dest folding partials conflict e := by
  cases hk : e.kind with
  | dir =>
    rw [hk] at hv
    rw [hv]
    exact dirAction_spec hk
  | file =>
    rw [hk] at hv
    rw [hv]
    exact decideFile_spec hk

include hc in
/-- The planned actions meet every condition. -/
theorem planned_meets : PlanSpec tables source dest folding partials conflict
    (plannedActions tables source dest folding partials conflict) where
  named := by
    intro a ha
    obtain ⟨e, v, hv, hact⟩ := mem_plannedActions.mp ha
    exact ⟨e, mem_of_verdict hv, action_path hact⟩
  once := planned_paths tables source dest folding partials conflict
  covered := by
    intro e he d reason hd hout
    obtain ⟨v, hv⟩ := exists_verdict tables dest folding he
    rw [actionFor_planned hv, blocked_of_outermost hc hv hd hout]
    rfl
  collision := by
    intro e he hopen
    obtain ⟨v, hv⟩ := exists_verdict tables dest folding he
    rw [covered_iff partials conflict hc hv] at hopen
    obtain ⟨hcol, hkind⟩ := open_iff partials conflict hc hv (Bool.eq_false_of_not_eq_true hopen)
    rw [actionFor_planned hv, hcol]
    constructor
    · intro hact
      by_contra hne
      rw [action_spec (hkind hne)] at hact
      exact specAction_ne e hact
    · rintro rfl
      rfl
  settled := by
    intro e he hopen hnot
    obtain ⟨v, hv⟩ := exists_verdict tables dest folding he
    rw [covered_iff partials conflict hc hv] at hopen
    obtain ⟨hcol, hkind⟩ := open_iff partials conflict hc hv (Bool.eq_false_of_not_eq_true hopen)
    rw [actionFor_planned hv]
    exact action_spec (hkind (fun h => hnot (hcol.mpr h)))

end Meets

section Main

variable (tables : CaseTables) (source dest : Snapshot) (folding : NameFolding)
  (partials : Partials) (opts : TransferOptions)

/-- Every plan meets the conditions, and they determine it: whatever else meets them has the
same actions in some order. An entry without an action is an open directory the destination
has already. Under `Fail` a plan exists only where no entry of the source
differs from what the destination has in its place. -/
theorem plan_meets_spec {p : Plan} (hc : AncestorClosed source)
    (h : plan tables source dest folding partials opts = .ok p) :
    PlanSpec tables source dest folding partials opts.conflict p.actions ∧
      (∀ actions, PlanSpec tables source dest folding partials opts.conflict actions →
        actions.Perm p.actions) ∧
      (∀ e ∈ source.entries, actionFor p.actions e = none ↔
        ¬Covered source p.actions e ∧ ¬Collides tables source folding p.actions e ∧
          e.kind = .dir ∧ ∃ x, destEntry tables dest folding e = some x ∧ x.kind = .dir) ∧
      (opts.conflict = .fail → ∀ e ∈ source.entries, ∀ x,
        destEntry tables dest folding e = some x → e.kind = x.kind ∧ e.size = x.size) := by
  have hspec : PlanSpec tables source dest folding partials opts.conflict p.actions := by
    rw [plan_ok h]
    exact planned_meets hc
  refine ⟨hspec, fun actions ha => ha.perm hspec, fun e he => hspec.none_iff he, ?_⟩
  intro hf e he x hx
  rw [plan_eq] at h
  split at h
  · exact absurd h (by simp)
  · rename_i hempty
    by_contra hne
    have hconf : isConflict e x = true := by
      simp only [isConflict, Bool.or_eq_true, decide_eq_true_eq]
      tauto
    have hmem := mem_collectConflicts.mpr ⟨e, he, rfl, Or.inr ⟨x, hx, hconf⟩⟩
    apply hempty
    simpa [hf] using List.ne_nil_of_mem hmem

private def shout : Entry := Entry.dir (.ofSegments ["ALARMS"]) none

private def song : Entry := Entry.file (.ofSegments ["Alarms"]) 3 none

private def quiet : Entry := Entry.dir (.ofSegments ["alarms"]) none

private def threeAlarms : Snapshot := Snapshot.new "device" [shout, song, quiet] []

private def nothing : Snapshot := Snapshot.new "local" [] []

/-- Three spellings of one name: the file collides with the directory ahead of it. -/
theorem plan_meets_spec_three :
    AncestorClosed threeAlarms ∧
      plan .ascii threeAlarms nothing .caseInsensitive [] ⟨.skip⟩ = .ok (Plan.new
        [.mkdir shout.path, .mkdir quiet.path, .skip song.path .nameCollision]) ∧
      PlanSpec .ascii threeAlarms nothing .caseInsensitive [] .skip
        [.mkdir shout.path, .mkdir quiet.path, .skip song.path .nameCollision] := by
  have htree : AncestorClosed threeAlarms := Snapshot.ancestorClosed_of_isTree (by decide)
  have hplan : plan .ascii threeAlarms nothing .caseInsensitive [] ⟨.skip⟩ = .ok (Plan.new
      [.mkdir shout.path, .mkdir quiet.path, .skip song.path .nameCollision]) := by decide
  exact ⟨htree, hplan, (plan_meets_spec .ascii threeAlarms nothing .caseInsensitive [] ⟨.skip⟩
    htree hplan).1⟩

/-- The second directory shares its name with an earlier file that nothing covers, and it is
made all the same: the name belongs to the first directory, with which it merges. -/
theorem plan_merges_past_file :
    AncestorClosed threeAlarms ∧ song ∈ threeAlarms.entries ∧ quiet ∈ threeAlarms.entries ∧
      song.path < quiet.path ∧
      song.path.key .ascii .caseInsensitive = quiet.path.key .ascii .caseInsensitive ∧
      song.kind = .file ∧
      ∃ p, plan .ascii threeAlarms nothing .caseInsensitive [] ⟨.skip⟩ = .ok p ∧
        ¬Covered threeAlarms p.actions song ∧ ¬Covered threeAlarms p.actions quiet ∧
        actionFor p.actions quiet = some (.mkdir quiet.path) := by
  refine ⟨Snapshot.ancestorClosed_of_isTree (by decide), by decide, by decide, by decide,
    by decide, rfl, Plan.new
      [.mkdir shout.path, .mkdir quiet.path, .skip song.path .nameCollision], by decide, ?_, ?_,
    by decide⟩
  -- no path of the source is above another one
  · intro hcov
    obtain ⟨d, reason, href, hab⟩ := hcov
    have hnone : ∀ d ∈ threeAlarms.entries,
        ¬(d.path.segments <+: song.path.segments ∧ d.path ≠ song.path) := by decide
    exact hnone d href.1 hab
  · intro hcov
    obtain ⟨d, reason, href, hab⟩ := hcov
    have hnone : ∀ d ∈ threeAlarms.entries,
        ¬(d.path.segments <+: quiet.path.segments ∧ d.path ≠ quiet.path) := by decide
    exact hnone d href.1 hab

end Main

end MtpxCore
