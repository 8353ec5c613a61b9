import MtpxCore.PlannerInvariant

/-! Verdicts in closed form. For a tree-shaped source, whether an entry is covered by a
refused directory depends on its folded path alone, so the pass can be described without
its state: a name is obstructed by a file above it, on either side, and a name that
several entries fold to belongs to the first of them. -/
namespace MtpxCore

section Closed

variable (tables : CaseTables) (source dest : Snapshot) (folding : NameFolding)

/-- No directory can come to exist at `key`: the source or the destination has a file there. -/
def Obstacle (key : List String) : Prop :=
  (∃ o, firstWithKey tables folding source.entries key = some o ∧ o.kind = .file) ∨
    ∃ x, firstWithKey tables folding dest.entries key = some x ∧ x.kind = .file

/-- Some proper ancestor of `key` cannot be a directory. -/
def Obstructed (key : List String) : Prop :=
  ∃ k, k ≠ [] ∧ k <+: key ∧ k ≠ key ∧ Obstacle tables source dest folding k

/-- Another entry comes first under the folded name of `e`, and the two cannot merge. -/
def Contested (e : Entry) : Prop :=
  ∃ o, firstWithKey tables folding source.entries (e.path.key tables folding) = some o ∧
    o ≠ e ∧ ¬(e.kind = .dir ∧ o.kind = .dir)

/-- The verdict an entry must get, from the two sides alone. -/
def Settled (e : Entry) : Verdict → Prop
  | .blocked reason =>
    Obstructed tables source dest folding (e.path.key tables folding) ∧
      (reason = .kindConflict ∨ reason = .nameCollision)
  | .collision =>
    ¬Obstructed tables source dest folding (e.path.key tables folding) ∧
      Contested tables source folding e
  | .directory decision =>
    ¬Obstructed tables source dest folding (e.path.key tables folding) ∧
      ¬Contested tables source folding e ∧ e.kind = .dir ∧
      decision = decideDir (firstWithKey tables folding dest.entries (e.path.key tables folding))
  | .file =>
    ¬Obstructed tables source dest folding (e.path.key tables folding) ∧
      ¬Contested tables source folding e ∧ e.kind = .file

end Closed

section Keys

variable {tables : CaseTables} {source dest : Snapshot} {folding : NameFolding}

theorem key_mono {a b : RelPath} (h : a.segments <+: b.segments) :
    a.key tables folding <+: b.key tables folding :=
  h.map (foldName tables folding)

theorem key_ne_nil {a : RelPath} (h : a.segments ≠ []) : a.key tables folding ≠ [] := by
  intro hk
  apply h
  rw [← List.length_eq_zero_iff, ← RelPath.key_length tables folding a, hk]
  rfl

/-- A name is first under its own key when names are compared exactly. -/
theorem first_exact {e : Entry} (he : e ∈ source.entries) :
    firstWithKey tables .exact source.entries (e.path.key tables .exact) = some e := by
  cases hf : firstWithKey tables .exact source.entries (e.path.key tables .exact) with
  | none => exact absurd rfl (SortedTable.first_eq_none.mp hf e he)
  | some o =>
    have hk := SortedTable.first_key hf
    rw [RelPath.key_exact, RelPath.key_exact] at hk
    rw [Snapshot.eq_of_path (SortedTable.first_mem hf) he (RelPath.segments_injective hk)]

/-- Every folded name above an entry is that of a directory above it. -/
theorem exists_ancestor (hc : AncestorClosed source) {e : Entry} (he : e ∈ source.entries)
    {k : List String} (hk : k ≠ []) (hpre : k <+: e.path.key tables folding)
    (hne : k ≠ e.path.key tables folding) :
    ∃ a ∈ source.entries, a.kind = .dir ∧ a.path.key tables folding = k ∧
      a.path.segments <+: e.path.segments ∧ a.path ≠ e.path := by
  have hlen : k.length < e.path.segments.length := by
    have hle := hpre.length_le
    rw [RelPath.key_length] at hle
    apply lt_of_le_of_ne hle
    intro heq
    exact hne (hpre.eq_of_length (by rw [RelPath.key_length, heq]))
  have htake : (e.path.segments.take k.length).length = k.length := by
    rw [List.length_take]
    omega
  obtain ⟨a, ha, hseg, hkind⟩ := hc.ancestor e he (e.path.segments.take k.length)
    (by intro h0; rw [h0] at htake; exact hk (List.length_eq_zero_iff.mp htake.symm))
    (List.take_prefix _ _)
    (by intro h0; rw [h0] at htake; omega)
  refine ⟨a, ha, hkind, ?_, hseg ▸ List.take_prefix _ _, ?_⟩
  · rw [RelPath.key, hseg, foldNames, List.map_take]
    exact (List.prefix_iff_eq_take.mp hpre).symm
  · intro h0
    rw [h0] at hseg
    have hl := congrArg List.length hseg
    omega

/-- The highest obstacle above a key is not itself obstructed. -/
theorem exists_topmost {key : List String} (h : Obstructed tables source dest folding key) :
    ∃ k, k ≠ [] ∧ k <+: key ∧ k ≠ key ∧ Obstacle tables source dest folding k ∧
      ¬Obstructed tables source dest folding k := by
  induction hn : key.length using Nat.strong_induction_on generalizing key with
  | _ n ih =>
    obtain ⟨k, hk, hpre, hne, hobs⟩ := h
    by_cases hko : Obstructed tables source dest folding k
    · have hlt : k.length < n := by
        rw [← hn]
        exact lt_of_le_of_ne hpre.length_le (fun heq => hne (hpre.eq_of_length heq))
      obtain ⟨k', hk', hpre', hne', hrest⟩ := ih k.length hlt hko rfl
      refine ⟨k', hk', hpre'.trans hpre, ?_, hrest⟩
      intro heq
      have hle := hpre'.length_le
      rw [heq, hn] at hle
      omega
    · exact ⟨k, hk, hpre, hne, hobs, hko⟩

/-- Dropping blocked entries changes no lookup of a name that no blocked entry has. -/
theorem first_opened (done : List (Entry × Verdict)) {k : List String}
    (h : ∀ p ∈ done, p.1.path.key tables folding = k → p.2.isBlocked = false) :
    firstWithKey tables folding (opened done) k =
      firstWithKey tables folding (done.map Prod.fst) k := by
  induction done with
  | nil => rfl
  | cons p done ih =>
    obtain ⟨e, v⟩ := p
    have ih' := ih (fun q hq => h q (List.mem_cons_of_mem _ hq))
    by_cases hv : v.isBlocked = true
    · have hk : e.path.key tables folding ≠ k := by
        intro hk
        rw [h (e, v) List.mem_cons_self hk] at hv
        exact absurd hv (by simp)
      rw [opened_cons_blocked done e hv, List.map_cons, firstWithKey, firstWithKey,
        SortedTable.first_cons, if_neg hk]
      exact ih'
    · rw [opened_cons_open done e (Bool.eq_false_of_not_eq_true hv), List.map_cons,
        firstWithKey, firstWithKey, SortedTable.first_cons, SortedTable.first_cons]
      split
      · rfl
      · exact ih'

end Keys

section Settling

variable {tables : CaseTables} {source dest : Snapshot} {folding : NameFolding}

/-- If the names as long as `k` are settled, the first claimant of `k` is the first entry
of that name. -/
theorem first_opened_of_settled {k : List String}
    (ih : ∀ e v, (e, v) ∈ verdicts tables source dest folding →
      e.path.segments.length = k.length →
        (v.isBlocked = true ↔ Obstructed tables source dest folding (e.path.key tables folding)))
    (hk : ¬Obstructed tables source dest folding k) :
    firstWithKey tables folding (opened (verdicts tables source dest folding)) k =
      firstWithKey tables folding source.entries k := by
  rw [first_opened, verdicts_map_fst]
  rintro ⟨a, w⟩ hm rfl
  apply Bool.eq_false_of_not_eq_true
  intro hw
  exact hk ((ih a w hm (RelPath.key_length tables folding a.path).symm).mp hw)

/-- A refused directory stands at an obstacle. -/
theorem obstacle_of_refusal {d : Entry} {w : Verdict} {reason : SkipReason}
    (hd : (d, w) ∈ verdicts tables source dest folding) (hr : w.refusal d = some reason)
    (hfirst : firstWithKey tables folding (opened (verdicts tables source dest folding))
      (d.path.key tables folding) =
        firstWithKey tables folding source.entries (d.path.key tables folding)) :
    Obstacle tables source dest folding (d.path.key tables folding) := by
  rcases open_verdict hd (Verdict.isBlocked_of_refusal hr) with hcol | hown
  · -- a collision: the owner of the name is a file
    obtain ⟨rfl, -, o, ho, -, hdirs⟩ := hcol
    have hdir : d.kind = .dir := by
      by_contra hk
      rw [Verdict.refusal, if_neg hk] at hr
      exact absurd hr (by simp)
    left
    refine ⟨o, hfirst ▸ ho, ?_⟩
    cases hok : o.kind with
    | file => rfl
    | dir => exact absurd ⟨hdir, hok⟩ hdirs
  · -- refused for what the destination has there
    obtain ⟨-, -, hw⟩ := hown
    right
    cases hk : d.kind with
    | file =>
      rw [hk] at hw
      rw [hw] at hr
      exact absurd hr (by simp [Verdict.refusal])
    | dir =>
      rw [hk] at hw
      cases hl : firstWithKey tables folding dest.entries (d.path.key tables folding) with
      | none =>
        rw [hw, hl] at hr
        exact absurd hr (by simp [Verdict.refusal, decideDir])
      | some x =>
        refine ⟨x, rfl, ?_⟩
        cases hx : x.kind with
        | file => rfl
        | dir =>
          rw [hw, hl] at hr
          exact absurd hr (by simp [Verdict.refusal, decideDir, hx])

/-- A directory at an obstacle is refused, unless something above it is. -/
theorem refusal_of_obstacle {a : Entry} {w : Verdict}
    (ha : (a, w) ∈ verdicts tables source dest folding) (hdir : a.kind = .dir)
    (hw : w.isBlocked = false)
    (hfirst : firstWithKey tables folding (opened (verdicts tables source dest folding))
      (a.path.key tables folding) =
        firstWithKey tables folding source.entries (a.path.key tables folding))
    (hobs : Obstacle tables source dest folding (a.path.key tables folding)) :
    ∃ reason, w.refusal a = some reason := by
  rcases open_verdict ha hw with hcol | hown
  · obtain ⟨rfl, -⟩ := hcol
    exact ⟨.nameCollision, by rw [Verdict.refusal, if_pos hdir]⟩
  · obtain ⟨-, hown, hv⟩ := hown
    rw [hdir] at hv
    rcases hobs with ⟨o, ho, hok⟩ | ⟨x, hx, hxk⟩
    · -- the directory owns its name, so no file comes first under it
      have hself : o = a ∨ a.kind = .dir ∧ o.kind = .dir := by
        rcases hown with hexact | ⟨o', ho', hor⟩
        · subst hexact
          rw [first_exact (mem_of_verdict ha)] at ho
          exact Or.inl (Option.some.inj ho).symm
        · rw [hfirst, ho] at ho'
          rwa [Option.some.inj ho']
      rcases hself with rfl | hdirs
      · rw [hdir] at hok
        exact absurd hok (by simp)
      · rw [hdirs.2] at hok
        exact absurd hok (by simp)
    · refine ⟨.kindConflict, ?_⟩
      rw [hv, hx, decideDir, if_neg (by simp [hxk])]
      rfl

/-- An entry is blocked exactly when its folded path is obstructed. -/
theorem isBlocked_iff (hc : AncestorClosed source) {e : Entry} {v : Verdict}
    (h : (e, v) ∈ verdicts tables source dest folding) :
    v.isBlocked = true ↔
      Obstructed tables source dest folding (e.path.key tables folding) := by
  -- strong induction on depth: what is refused above is settled before what lies beneath
  induction hn : e.path.segments.length using Nat.strong_induction_on generalizing e v with
  | _ n ih =>
    have hfirst (k : List String) (hlt : k.length < n)
        (hk : ¬Obstructed tables source dest folding k) :=
      first_opened_of_settled (k := k)
        (fun a w hm hl => ih a.path.segments.length (hl ▸ hlt) hm rfl) hk
    constructor
    · intro hv
      obtain ⟨reason, rfl⟩ : ∃ reason, v = .blocked reason := by
        cases v with
        | blocked reason => exact ⟨reason, rfl⟩
        | collision => exact absurd hv (by simp [Verdict.isBlocked])
        | directory d => exact absurd hv (by simp [Verdict.isBlocked])
        | file => exact absurd hv (by simp [Verdict.isBlocked])
      obtain ⟨d, w, hm, hr, hpre, hne⟩ := (blocked_iff h).mp rfl
      have hsne : d.path.segments ≠ e.path.segments := fun hs => hne (RelPath.segments_injective hs)
      have hlt : d.path.segments.length < n := by
        rw [← hn]
        exact lt_of_le_of_ne hpre.length_le (fun hl => hsne (hpre.eq_of_length hl))
      have hopen : ¬Obstructed tables source dest folding (d.path.key tables folding) := by
        rw [← ih _ hlt hm rfl, Verdict.isBlocked_of_refusal hr]
        simp
      refine ⟨d.path.key tables folding, key_ne_nil (hc.nonroot d (mem_of_verdict hm)),
        key_mono hpre, ?_, ?_⟩
      · intro hkey
        have hl := congrArg List.length hkey
        rw [RelPath.key_length, RelPath.key_length] at hl
        omega
      · apply obstacle_of_refusal hm hr
        apply hfirst _ _ hopen
        rwa [RelPath.key_length]
    · intro hobs
      obtain ⟨k, hk, hpre, hne, hko, hopen⟩ := exists_topmost hobs
      obtain ⟨a, ha, hdir, rfl, hseg, hane⟩ :=
        exists_ancestor hc (mem_of_verdict h) hk hpre hne
      obtain ⟨w, hw⟩ := exists_verdict tables dest folding ha
      have hlt : a.path.segments.length < n := by
        rw [← hn]
        exact lt_of_le_of_ne hseg.length_le
          (fun hl => hane (RelPath.segments_injective (hseg.eq_of_length hl)))
      have hwb : w.isBlocked = false := by
        apply Bool.eq_false_of_not_eq_true
        intro hb
        exact hopen ((ih _ hlt hw rfl).mp hb)
      obtain ⟨reason, hr⟩ := refusal_of_obstacle hw hdir hwb
        (hfirst _ (by rwa [RelPath.key_length]) hopen) hko
      rw [(blocked_iff h).mpr ⟨a, w, hw, hr, hseg, hane⟩]
      rfl

/-- Every verdict of a pass over a tree is the settled one. -/
theorem settled (hc : AncestorClosed source) {e : Entry} {v : Verdict}
    (h : (e, v) ∈ verdicts tables source dest folding) :
    Settled tables source dest folding e v := by
  have hiff := isBlocked_iff hc h
  by_cases hv : v.isBlocked = true
  · cases v with
    | blocked reason =>
      refine ⟨hiff.mp hv, ?_⟩
      obtain ⟨d, w, -, hr, -, -⟩ := (blocked_iff h).mp rfl
      -- only two reasons ever enter the slot
      rw [Verdict.refusal.eq_def] at hr
      split at hr
      · split at hr
        · exact Or.inr (Option.some.inj hr).symm
        · exact absurd hr (by simp)
      · exact Or.inl (Option.some.inj hr).symm
      · exact absurd hr (by simp)
    | collision => exact absurd hv (by simp [Verdict.isBlocked])
    | directory d => exact absurd hv (by simp [Verdict.isBlocked])
    | file => exact absurd hv (by simp [Verdict.isBlocked])
  · have hopen : ¬Obstructed tables source dest folding (e.path.key tables folding) :=
      fun ho => hv (hiff.mpr ho)
    have hfirst := first_opened_of_settled (fun a w hm _ => isBlocked_iff hc hm) hopen
    rcases open_verdict h (Bool.eq_false_of_not_eq_true hv) with hcol | hown
    · obtain ⟨rfl, -, o, ho, hoe, hdirs⟩ := hcol
      exact ⟨hopen, o, hfirst ▸ ho, hoe, hdirs⟩
    · obtain ⟨-, hown, hkind⟩ := hown
      have hcon : ¬Contested tables source folding e := by
        intro hcon
        obtain ⟨o, ho, hoe, hdirs⟩ := hcon
        rcases hown with hexact | ⟨o', ho', hor⟩
        · subst hexact
          rw [first_exact (mem_of_verdict h)] at ho
          exact hoe (Option.some.inj ho).symm
        · rw [hfirst, ho] at ho'
          rw [← Option.some.inj ho'] at hor
          exact hor.elim hoe hdirs
      cases hk : e.kind with
      | dir =>
        rw [hk] at hkind
        rw [hkind]
        exact ⟨hopen, hcon, hk, rfl⟩
      | file =>
        rw [hk] at hkind
        rw [hkind]
        exact ⟨hopen, hcon, hk⟩

end Settling

end MtpxCore
