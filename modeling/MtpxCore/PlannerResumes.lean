import MtpxCore.PlannerConverges
import MtpxCore.TransferNames

/-! Planning again after only some of a plan's actions were done. Name by name the destination
holds what it held, or what the plan was to leave there; so the second plan refuses nothing the
first one did not refuse, does nothing the first one was not to do, and ends in the same place. -/
namespace MtpxCore

section Started

variable {tables : CaseTables} {source dest dest' : Snapshot} {folding : NameFolding}
  {partials partials' : Partials} {conflict : ConflictPolicy} {done : List Action}

/-- The destination shows what `done`, some of the planned actions, make of it. -/
structure Started (tables : CaseTables) (source dest dest' : Snapshot) (folding : NameFolding)
    (partials : Partials) (conflict : ConflictPolicy) (done : List Action) : Prop where
  closed : AncestorClosed source
  planned : ∀ a ∈ done, a ∈ plannedActions tables source dest folding partials conflict
  store : Store.of tables folding dest' = (Store.of tables folding dest).replay tables folding done

/-- A directory the plan makes. -/
def Made (tables : CaseTables) (source dest : Snapshot) (folding : NameFolding) (e : Entry) : Prop :=
  e ∈ source.entries ∧ e.kind = .dir ∧ Unhindered tables source dest folding e ∧
    destEntry tables dest folding e = none

theorem Store.of_eq_some {key : List String} {x : Held} : Store.of tables folding dest key = some x ↔
    ∃ e, firstWithKey tables folding dest.entries key = some e ∧ e.kind = x.kind ∧ e.size = x.size := by
  rw [Store.of, Option.map_eq_some_iff]
  constructor
  · intro h
    obtain ⟨e, he, rfl⟩ := h
    exact ⟨e, he, rfl, rfl⟩
  · intro h
    obtain ⟨e, he, hk, hs⟩ := h
    exact ⟨e, he, by rw [hk, hs]⟩

variable (h : Started tables source dest dest' folding partials conflict done)
include h

/-- What a name leads to by then: what it led to, a copied file, or a new directory. -/
theorem Started.held_cases (key : List String) :
    Store.of tables folding dest' key = Store.of tables folding dest key ∨
      (∃ e, Copied tables source dest folding conflict e ∧ e.path.key tables folding = key ∧
        firstWithKey tables folding source.entries key = some e ∧
        Store.of tables folding dest' key = some ⟨.file, e.size⟩) ∨
      ∃ e, Made tables source dest folding e ∧ e.path.key tables folding = key ∧
        Store.of tables folding dest key = none ∧
        Store.of tables folding dest' key = some ⟨.dir, 0⟩ := by
  rw [h.store]
  by_cases hcopy : ∃ a ∈ done, a.isCopy = true ∧ a.key tables folding = key
  · obtain ⟨a, ha, hac, rfl⟩ := hcopy
    -- the first entry of the name is the one copied, so every copy there has its size
    obtain ⟨e, he, hk, hep, hfirst, r, q, -⟩ := copied_at h.closed (h.planned a ha) hac
    refine Or.inr (Or.inl ⟨e, (copied_iff partials h.closed).mpr ⟨he, a, h.planned a ha, hac, hep.symm⟩,
      by rw [hep]; rfl, hfirst, ?_⟩)
    apply replay_copy _ (Or.inr ⟨a, ha, hac, rfl⟩)
    intro path s modified resumeFrom reason hm hk
    obtain ⟨f, -, -, -, hf, r, q, hcopy⟩ := copied_at h.closed (h.planned _ hm) rfl
    rw [show Action.key tables folding (.copy path s modified resumeFrom reason) =
      a.key tables folding from hk, hfirst] at hf
    rw [← Option.some.inj hf] at hcopy
    exact (Action.copy.inj hcopy).2.1
  · have hno : ∀ a ∈ done, a.isCopy = true → a.key tables folding ≠ key :=
      fun a ha hac hak => hcopy ⟨a, ha, hac, hak⟩
    cases hs : Store.of tables folding dest key with
    | some x => exact Or.inl (replay_keeps hs hno)
    | none =>
      by_cases hmkdir : ∃ path, Action.mkdir path ∈ done ∧ path.key tables folding = key
      · obtain ⟨path, hm, hk⟩ := hmkdir
        obtain ⟨e, he, rfl, hdir, hun, hnone⟩ := (mem_mkdir_iff h.closed).mp (h.planned _ hm)
        exact Or.inr (Or.inr ⟨e, ⟨he, hdir, hun, hnone⟩, hk, rfl, replay_mkdir hs hno hm hk⟩)
      · left
        rw [← hs]
        apply replay_same
        intro a ha hw hak
        cases a with
        | mkdir path => exact hmkdir ⟨path, ha, hak⟩
        | copy path size modified resumeFrom reason => exact hno _ ha rfl hak
        | skip path reason => exact absurd hw (by simp [Action.isSkip])

/-- What is in the way of a directory is what was in the way. -/
theorem Started.obstacle_iff (key : List String) :
    Obstacle tables source dest' folding key ↔ Obstacle tables source dest folding key := by
  have hfile (d : Snapshot) : (∃ x, firstWithKey tables folding d.entries key = some x ∧ x.kind = .file) ↔
      ∃ size, Store.of tables folding d key = some ⟨.file, size⟩ := by
    constructor
    · intro hx
      obtain ⟨x, hx, hk⟩ := hx
      exact ⟨x.size, Store.of_eq_some.mpr ⟨x, hx, hk, rfl⟩⟩
    · intro hs
      obtain ⟨size, hs⟩ := hs
      obtain ⟨x, hx, hk, -⟩ := Store.of_eq_some.mp hs
      exact ⟨x, hx, hk⟩
  rw [Obstacle, Obstacle, hfile dest', hfile dest]
  rcases h.held_cases key with hsame | ⟨e, hcopied, -, hfirst, hs⟩ | ⟨e, -, -, hnone, hs⟩
  · rw [hsame]
  · have hsource : ∃ o, firstWithKey tables folding source.entries key = some o ∧ o.kind = .file :=
      ⟨e, hfirst, hcopied.2.1⟩
    exact iff_of_true (Or.inl hsource) (Or.inl hsource)
  · rw [hnone, hs]
    simp

theorem Started.unhindered_iff (e : Entry) :
    Unhindered tables source dest' folding e ↔ Unhindered tables source dest folding e := by
  rw [Unhindered, Unhindered, Obstructed, Obstructed]
  simp only [h.obstacle_iff]

/-- A destination that conflicts nowhere does not come to. -/
theorem Started.no_conflict {e : Entry} (he : e ∈ source.entries)
    (hnone : ¬Conflicting tables source dest folding e) : ¬Conflicting tables source dest' folding e := by
  intro hconf
  apply hnone
  rcases hconf with hcon | ⟨y, hy, hyc⟩
  · exact Or.inl hcon
  have hheld : Store.of tables folding dest' (e.path.key tables folding) = some ⟨y.kind, y.size⟩ :=
    Store.of_eq_some.mpr ⟨y, hy, rfl, rfl⟩
  rcases h.held_cases (e.path.key tables folding) with hsame | ⟨f, hcopied, -, hfirst, hs⟩ |
    ⟨f, hmade, hfk, -, hs⟩
  · rw [hsame] at hheld
    obtain ⟨x, hx, hk, hsize⟩ := Store.of_eq_some.mp hheld
    refine Or.inr ⟨x, hx, ?_⟩
    rw [isConflict, hk, hsize]
    exact hyc
  · -- the copied file owns the name
    have hkinds := Option.some.inj (hheld.symm.trans hs)
    by_cases hfe : f = e
    · subst hfe
      have hyk : y.kind = .file := congrArg Held.kind hkinds
      have hys : y.size = f.size := congrArg Held.size hkinds
      rw [isConflict, hyk, hys, hcopied.2.1] at hyc
      exact absurd hyc (by simp)
    · refine Or.inl ⟨f, hfirst, hfe, fun hdirs => ?_⟩
      exact absurd (hdirs.2.symm.trans hcopied.2.1) (by simp)
  · have hkinds := Option.some.inj (hheld.symm.trans hs)
    have hydir : y.kind = .dir := congrArg Held.kind hkinds
    cases hk : e.kind with
    | dir =>
      rw [isConflict_dir hk, hydir] at hyc
      exact absurd hyc (by simp)
    | file =>
      -- a file under the name of a directory is contested
      obtain ⟨o, ho, hor⟩ := first_of_uncontested hmade.1 hmade.2.2.1.2
      have hodir : o.kind = .dir := by
        rcases hor with rfl | ⟨-, hod⟩
        · exact hmade.2.1
        · exact hod
      rw [hfk] at ho
      refine Or.inl ⟨o, ho, fun heq => ?_, fun hdirs => absurd (hk.symm.trans hdirs.1) (by simp)⟩
      rw [heq, hk] at hodir
      exact absurd hodir (by simp)

/-- What is copied then was to be copied at first. -/
theorem Started.copied_before {e : Entry} (hc : Copied tables source dest' folding conflict e) :
    Copied tables source dest folding conflict e := by
  obtain ⟨he, hk, hun, hdest⟩ := hc
  refine ⟨he, hk, (h.unhindered_iff e).mp hun, fun x hx => ?_⟩
  have hheld : Store.of tables folding dest (e.path.key tables folding) = some ⟨x.kind, x.size⟩ :=
    Store.of_eq_some.mpr ⟨x, hx, rfl, rfl⟩
  rcases h.held_cases (e.path.key tables folding) with hsame | ⟨f, hcopied, -, hfirst, hs⟩ |
    ⟨f, -, -, hnone, -⟩
  · rw [← hsame] at hheld
    obtain ⟨y, hy, hyk, hys⟩ := Store.of_eq_some.mp hheld
    have hy' := hdest y hy
    rwa [hyk, hys] at hy'
  · rw [first_of_copied he hk hun] at hfirst
    obtain rfl := Option.some.inj hfirst
    obtain ⟨y, hy, -, hys⟩ := Store.of_eq_some.mp hs
    exact absurd hys (hdest y hy).2.1
  · rw [hnone] at hheld
    exact absurd hheld (by simp)

/-- What was to be copied and is not copied then is there with its size. -/
theorem Started.copied_after {e : Entry} (hc : Copied tables source dest folding conflict e) :
    Copied tables source dest' folding conflict e ∨
      Store.of tables folding dest' (e.path.key tables folding) = some ⟨.file, e.size⟩ := by
  obtain ⟨he, hk, hun, hdest⟩ := hc
  rcases h.held_cases (e.path.key tables folding) with hsame | ⟨f, -, -, hfirst, hs⟩ |
    ⟨f, hmade, hfk, -, -⟩
  · left
    refine ⟨he, hk, (h.unhindered_iff e).mpr hun, fun y hy => ?_⟩
    have hheld : Store.of tables folding dest' (e.path.key tables folding) = some ⟨y.kind, y.size⟩ :=
      Store.of_eq_some.mpr ⟨y, hy, rfl, rfl⟩
    rw [hsame] at hheld
    obtain ⟨x, hx, hxk, hxs⟩ := Store.of_eq_some.mp hheld
    have hx' := hdest x hx
    rwa [hxk, hxs] at hx'
  · rw [first_of_copied he hk hun] at hfirst
    rw [hs, Option.some.inj hfirst]
    exact Or.inr rfl
  · obtain ⟨o, ho, hor⟩ := first_of_uncontested hmade.1 hmade.2.2.1.2
    rw [hfk, first_of_copied he hk hun] at ho
    rw [← Option.some.inj ho] at hor
    rcases hor with rfl | ⟨-, hdir⟩
    · exact absurd (hk.symm.trans hmade.2.1) (by simp)
    · exact absurd (hk.symm.trans hdir) (by simp)

theorem Started.made_before {e : Entry} (hm : Made tables source dest' folding e) :
    Made tables source dest folding e := by
  obtain ⟨he, hk, hun, hnone⟩ := hm
  refine ⟨he, hk, (h.unhindered_iff e).mp hun, ?_⟩
  have hheld : Store.of tables folding dest' (e.path.key tables folding) = none := by
    rw [Store.of_key, hnone]
    rfl
  rcases h.held_cases (e.path.key tables folding) with hsame | ⟨f, -, -, -, hs⟩ | ⟨f, -, -, -, hs⟩
  · rw [hsame, Store.of_key, Option.map_eq_none_iff] at hheld
    exact hheld
  · rw [hs] at hheld
    exact absurd hheld (by simp)
  · rw [hs] at hheld
    exact absurd hheld (by simp)

/-- What was to be made and is not made then is there, an empty directory. -/
theorem Started.made_after {e : Entry} (hm : Made tables source dest folding e) :
    Made tables source dest' folding e ∨
      Store.of tables folding dest' (e.path.key tables folding) = some ⟨.dir, 0⟩ := by
  obtain ⟨he, hk, hun, hnone⟩ := hm
  rcases h.held_cases (e.path.key tables folding) with hsame | ⟨f, hcopied, -, hfirst, -⟩ |
    ⟨f, -, -, -, hs⟩
  · left
    refine ⟨he, hk, (h.unhindered_iff e).mpr hun, ?_⟩
    rwa [Store.of_key, Store.of_key, hnone, Option.map_none, Option.map_eq_none_iff] at hsame
  · obtain ⟨o, ho, hor⟩ := first_of_uncontested he hun.2
    rw [hfirst] at ho
    rw [← Option.some.inj ho] at hor
    rcases hor with rfl | ⟨-, hdir⟩
    · exact absurd (hk.symm.trans hcopied.2.1) (by simp)
    · exact absurd (hdir.symm.trans hcopied.2.1) (by simp)
  · exact Or.inr hs

/-- Whatever the second plan does, the first one was to do. -/
theorem Started.writes_before {b : Action}
    (hb : b ∈ plannedActions tables source dest' folding partials' conflict) (hw : b.isSkip = false) :
    ∃ a ∈ plannedActions tables source dest folding partials conflict,
      a.path = b.path ∧ a.isCopy = b.isCopy ∧ a.isSkip = false := by
  cases b with
  | mkdir path =>
    obtain ⟨e, he, rfl, hk, hun, hnone⟩ := (mem_mkdir_iff h.closed).mp hb
    obtain ⟨-, -, hun', hnone'⟩ := h.made_before ⟨he, hk, hun, hnone⟩
    exact ⟨_, (mem_mkdir_iff h.closed).mpr ⟨e, he, rfl, hk, hun', hnone'⟩, rfl, rfl, rfl⟩
  | copy path size modified resumeFrom reason =>
    obtain ⟨e, he, hk, hep, -, -⟩ := copied_at h.closed hb rfl
    have hcopied := (copied_iff partials' h.closed).mpr ⟨he, _, hb, rfl, hep.symm⟩
    obtain ⟨-, a, ha, hac, hap⟩ := (copied_iff partials h.closed).mp (h.copied_before hcopied)
    exact ⟨a, ha, hap.trans hep, hac, Action.isSkip_of_isCopy hac⟩
  | skip path reason => exact absurd hw (by simp [Action.isSkip])

/-- The copies of the second plan are copies of the first one. -/
theorem Started.copies_before {b : Action}
    (hb : b ∈ plannedActions tables source dest' folding partials' conflict) (hbc : b.isCopy = true) :
    ∃ a ∈ plannedActions tables source dest folding partials conflict,
      a.isCopy = true ∧ a.path = b.path := by
  obtain ⟨a, ha, hap, hac, -⟩ := h.writes_before hb (Action.isSkip_of_isCopy hbc)
  exact ⟨a, ha, hac.trans hbc, hap⟩

/-- The rest of the way ends where the whole way was to end. -/
theorem Started.arrives :
    after tables source dest' folding partials' conflict = after tables source dest folding partials conflict := by
  funext key
  by_cases hcopy : ∃ a ∈ plannedActions tables source dest folding partials conflict,
      a.isCopy = true ∧ a.key tables folding = key
  · obtain ⟨a, ha, hac, rfl⟩ := hcopy
    obtain ⟨e, he, hk, hep, hfirst, -⟩ := copied_at h.closed ha hac
    rw [after_copied h.closed ha hac hfirst]
    have hkey : e.path.key tables folding = a.key tables folding := by
      rw [hep]
      rfl
    have hsize : ∀ path s modified resumeFrom reason,
        Action.copy path s modified resumeFrom reason ∈
          plannedActions tables source dest' folding partials' conflict →
          path.key tables folding = a.key tables folding → s = e.size := by
      intro path s modified resumeFrom reason hm hk'
      obtain ⟨f, -, -, -, hf, r, q, hcopy⟩ := copied_at h.closed hm rfl
      rw [show Action.key tables folding (.copy path s modified resumeFrom reason) =
        a.key tables folding from hk', hfirst] at hf
      rw [← Option.some.inj hf] at hcopy
      exact (Action.copy.inj hcopy).2.1
    apply replay_copy hsize
    have hcopied := (copied_iff partials h.closed).mpr ⟨he, a, ha, hac, hep.symm⟩
    -- copied again, or complete by then
    rcases h.copied_after hcopied with hagain | hthere
    · obtain ⟨-, b, hb, hbc, hbp⟩ := (copied_iff partials' h.closed).mp hagain
      exact Or.inr ⟨b, hb, hbc, by rw [Action.key, hbp, hkey]⟩
    · rw [hkey] at hthere
      exact Or.inl hthere
  · have hno : ∀ a ∈ plannedActions tables source dest folding partials conflict,
        a.isCopy = true → a.key tables folding ≠ key := fun a ha hac hak => hcopy ⟨a, ha, hac, hak⟩
    have hno' : ∀ b ∈ plannedActions tables source dest' folding partials' conflict,
        b.isCopy = true → b.key tables folding ≠ key := by
      intro b hb hbc hbk
      obtain ⟨a, ha, hac, hap⟩ := h.copies_before hb hbc
      exact hno a ha hac (by rw [Action.key, hap]; exact hbk)
    have hdone : ∀ a ∈ done, a.isCopy = true → a.key tables folding ≠ key :=
      fun a ha => hno a (h.planned a ha)
    cases hs : Store.of tables folding dest key with
    | some x =>
      -- what was there and is not copied over stays
      have hs' : Store.of tables folding dest' key = some x := by
        rw [h.store]
        exact replay_keeps hs hdone
      rw [after_keeps hno hs, after_keeps hno' hs']
    | none =>
      by_cases hmkdir : ∃ e, Made tables source dest folding e ∧ e.path.key tables folding = key
      · obtain ⟨e, hmade, rfl⟩ := hmkdir
        have hplanned : Action.mkdir e.path ∈ plannedActions tables source dest folding partials conflict :=
          (mem_mkdir_iff h.closed).mpr ⟨e, hmade.1, rfl, hmade.2.1, hmade.2.2.1, hmade.2.2.2⟩
        have hfinal : after tables source dest folding partials conflict (e.path.key tables folding) =
            some ⟨.dir, 0⟩ := replay_mkdir hs hno hplanned rfl
        rw [hfinal]
        -- made again, or there by then
        rcases h.made_after hmade with hagain | hthere
        · obtain ⟨he, hk, hun, hnone⟩ := hagain
          have hs' : Store.of tables folding dest' (e.path.key tables folding) = none := by
            rw [Store.of_key, hnone]
            rfl
          exact replay_mkdir hs' hno' ((mem_mkdir_iff h.closed).mpr ⟨e, he, rfl, hk, hun, hnone⟩) rfl
        · exact after_keeps hno' hthere
      · -- neither plan writes there
        have hsame : ∀ a ∈ plannedActions tables source dest folding partials conflict,
            a.isSkip = false → a.key tables folding ≠ key := by
          intro a ha hw hak
          cases a with
          | mkdir path =>
            obtain ⟨e, he, rfl, hk, hun, hnone⟩ := (mem_mkdir_iff h.closed).mp ha
            exact hmkdir ⟨e, ⟨he, hk, hun, hnone⟩, hak⟩
          | copy path size modified resumeFrom reason => exact hno _ ha rfl hak
          | skip path reason => exact absurd hw (by simp [Action.isSkip])
        have hsame' : ∀ b ∈ plannedActions tables source dest' folding partials' conflict,
            b.isSkip = false → b.key tables folding ≠ key := by
          intro b hb hw hbk
          obtain ⟨a, ha, hap, -, hw'⟩ := h.writes_before hb hw
          exact hsame a ha hw' (by rw [Action.key, hap]; exact hbk)
        have hstart : Store.of tables folding dest' key = Store.of tables folding dest key := by
          rw [h.store]
          exact replay_same fun a ha => hsame a (h.planned a ha)
        rw [after, after, replay_same hsame, replay_same hsame', hstart]

/-- Where the first plan was made, so is the second, and its replay ends where the first one's
was to end. -/
theorem Started.plan_again {opts : TransferOptions} (hconflict : opts.conflict = conflict) {p : Plan}
    (hp : plan tables source dest folding partials opts = .ok p) :
    ∃ q, plan tables source dest' folding partials' opts = .ok q ∧
      q.actions = plannedActions tables source dest' folding partials' conflict ∧
      (Store.of tables folding dest').replay tables folding q.actions =
        (Store.of tables folding dest).replay tables folding p.actions := by
  have hagain := plan_eq tables source dest' folding partials' opts
  have hempty : opts.conflict = .fail →
      collectConflicts tables source (DestIndex.new tables dest' folding) folding = [] := by
    intro hf
    rw [plan_eq, hf] at hp
    split at hp
    · exact absurd hp (by simp)
    · rename_i hne
      apply List.eq_nil_iff_forall_not_mem.mpr
      intro path hm
      obtain ⟨e, he, -, hconf⟩ := mem_collectConflicts.mp hm
      refine h.no_conflict he (fun hbefore => hne ?_) hconf
      simpa using List.ne_nil_of_mem (mem_collectConflicts.mpr ⟨e, he, rfl, hbefore⟩)
  rw [if_neg (by
    intro hrefused
    rw [Bool.and_eq_true, decide_eq_true_eq] at hrefused
    rw [hempty hrefused.1] at hrefused
    exact absurd hrefused.2 (by simp))] at hagain
  refine ⟨_, hagain, by rw [hconflict]; rfl, ?_⟩
  have harrives : after tables source dest' folding partials' conflict =
      after tables source dest folding partials conflict := h.arrives
  rw [after, after] at harrives
  rw [plan_ok hp, hconflict]
  exact harrives

end Started

end MtpxCore
