import MtpxCore.PlannerVerdicts

/-! The invariant of the planning pass. The blocking slot holds exactly the refused
directory that the rest of the sorted source can still be beneath, and the claimed names
are those of the entries no refused directory covers. -/
namespace MtpxCore

/-- The entries of a pass that no refused directory covers. -/
def opened (done : List (Entry × Verdict)) : List Entry :=
  (done.filter (fun p => !p.2.isBlocked)).map Prod.fst

theorem mem_opened {done : List (Entry × Verdict)} {e : Entry} :
    e ∈ opened done ↔ ∃ v, (e, v) ∈ done ∧ v.isBlocked = false := by
  simp [opened]

theorem opened_append (xs ys : List (Entry × Verdict)) :
    opened (xs ++ ys) = opened xs ++ opened ys := by
  rw [opened, List.filter_append, List.map_append]
  rfl

theorem opened_cons_open (xs : List (Entry × Verdict)) (e : Entry) {v : Verdict}
    (h : v.isBlocked = false) : opened ((e, v) :: xs) = e :: opened xs := by
  simp [opened, h]

theorem opened_cons_blocked (xs : List (Entry × Verdict)) (e : Entry) {v : Verdict}
    (h : v.isBlocked = true) : opened ((e, v) :: xs) = opened xs := by
  simp [opened, h]

/-- A blocked directory refuses nothing by itself. -/
theorem Verdict.isBlocked_of_refusal {e : Entry} {v : Verdict} {reason : SkipReason}
    (h : v.refusal e = some reason) : v.isBlocked = false := by
  cases v with
  | blocked r => exact absurd h (by simp [refusal])
  | collision => rfl
  | directory d => rfl
  | file => rfl

section Claiming

variable (tables : CaseTables) {claims : Claims}

theorem collides_exact (h : claims.folding = .exact) (e : Entry) :
    claims.collides tables e = (false, claims) := by
  rw [Claims.collides, if_pos h]

theorem collides_folding (e : Entry) : (claims.collides tables e).2.folding = claims.folding := by
  rw [Claims.collides]
  split
  · rfl
  · dsimp only
    split <;> rfl

variable (h : claims.folding ≠ .exact)

include h in
/-- An entry collides with the owner of its name unless both are directories. -/
theorem collides_iff (e : Entry) :
    (claims.collides tables e).1 = true ↔
      ∃ owner, lookup claims.seen (e.path.key tables claims.folding) = some owner ∧
        ¬(e.kind = .dir ∧ owner = .dir) := by
  rw [Claims.collides, if_neg h]
  dsimp only
  cases hl : lookup claims.seen (e.path.key tables claims.folding) with
  | none => simp
  | some owner => simp [imp_iff_not_or]

include h in
/-- Only a name nobody claimed yet gets a new owner. -/
theorem collides_seen (e : Entry) (key : List String) :
    lookup (claims.collides tables e).2.seen key =
      (lookup claims.seen key).or
        (if e.path.key tables claims.folding = key then some e.kind else none) := by
  rw [Claims.collides, if_neg h]
  dsimp only
  cases hl : lookup claims.seen (e.path.key tables claims.folding) with
  | none =>
    dsimp only
    rw [lookup_append, lookup_singleton]
  | some owner =>
    dsimp only
    split
    · rename_i hk
      rw [← hk, hl]
      rfl
    · rw [Option.or_none]

end Claiming

/-- What the state of the pass means once `done` has been decided. -/
structure Course.Inv (tables : CaseTables) (folding : NameFolding) (dest : DestIndex)
    (done : List (Entry × Verdict)) (c : Course) : Prop where
  dest_eq : c.dest = dest
  folding_eq : c.claims.folding = folding
  seen : folding ≠ .exact → ∀ key,
    lookup c.claims.seen key = (firstWithKey tables folding (opened done) key).map Entry.kind
  slot_sound : ∀ pre reason, c.blocked = some (pre, reason) →
    ∃ d v, (d, v) ∈ done ∧ v.refusal d = some reason ∧ d.path = pre
  slot_live : ∀ d v reason, (d, v) ∈ done → v.refusal d = some reason →
    ∀ path : RelPath, (∀ p ∈ done, p.1.path ≤ path) → d.path.segments <+: path.segments →
      c.blocked = some (d.path, reason)

section Steps

variable {tables : CaseTables} {folding : NameFolding} {dest : DestIndex}
  {done : List (Entry × Verdict)} {c : Course}

theorem Course.inv_new (tables : CaseTables) (folding : NameFolding) (dest : DestIndex) :
    (Course.new dest folding).Inv tables folding dest [] where
  dest_eq := rfl
  folding_eq := rfl
  seen := by
    intro _ key
    rfl
  slot_sound := by
    intro pre reason h
    exact absurd h (by simp [Course.new])
  slot_live := by
    intro d v reason h
    exact absurd h List.not_mem_nil

theorem Course.slotReason_eq_some {path : RelPath} {reason : SkipReason} :
    c.slotReason path = some reason ↔
      ∃ pre, c.blocked = some (pre, reason) ∧ pre.segments <+: path.segments := by
  rw [Course.slotReason]
  rcases c.blocked with _ | ⟨pre, r⟩
  · simp
  · by_cases hp : pre.segments <+: path.segments
    · simp [hp]
    · simp [hp]

theorem Course.verdict_isBlocked (tables : CaseTables) (c : Course) (e : Entry) :
    (c.verdict tables e).isBlocked = (c.slotReason e.path).isSome := by
  rw [Course.verdict]
  cases c.slotReason e.path with
  | some reason => rfl
  | none =>
    dsimp only
    split
    · rfl
    · split <;> rfl

theorem Course.next_of_some {e : Entry} {reason : SkipReason}
    (h : c.slotReason e.path = some reason) : c.next tables e = c := by
  rw [Course.next, h]

theorem Course.next_of_none {e : Entry} (h : c.slotReason e.path = none) :
    c.next tables e =
      { c with
        claims := (c.claims.collides tables e).2
        blocked := ((c.verdict tables e).refusal e).map (fun reason => (e.path, reason)) } := by
  rw [Course.next, h]

/-- One entry keeps the invariant, as long as it sorts after everything decided so far. -/
theorem Course.Inv.step (h : c.Inv tables folding dest done) {e : Entry}
    (hlt : ∀ p ∈ done, p.1.path < e.path) :
    (c.next tables e).Inv tables folding dest (done ++ [(e, c.verdict tables e)]) := by
  have hblocked := Course.verdict_isBlocked tables c e
  cases hs : c.slotReason e.path with
  | some reason =>
    -- beneath the refused directory nothing of the state moves
    rw [hs] at hblocked
    rw [Course.next_of_some hs]
    refine ⟨h.dest_eq, h.folding_eq, ?_, ?_, ?_⟩
    · intro hf key
      rw [opened_append, opened_cons_blocked [] e hblocked]
      simpa [opened] using h.seen hf key
    · intro pre r hb
      obtain ⟨d, v, hm, hr⟩ := h.slot_sound pre r hb
      exact ⟨d, v, List.mem_append_left _ hm, hr⟩
    · intro d v r hm hr path hle hpre
      rcases List.mem_append.mp hm with hm | hm
      · exact h.slot_live d v r hm hr path
          (fun p hp => hle p (List.mem_append_left _ hp)) hpre
      · obtain ⟨rfl, rfl⟩ := Prod.mk.inj (List.mem_singleton.mp hm)
        exact absurd (Verdict.isBlocked_of_refusal hr) (by simp [hblocked])
  | none =>
    rw [hs] at hblocked
    rw [Course.next_of_none hs]
    refine ⟨h.dest_eq, ?_, ?_, ?_, ?_⟩
    · exact (collides_folding tables e).trans h.folding_eq
    · intro hf key
      have hf' : c.claims.folding ≠ .exact := h.folding_eq ▸ hf
      rw [opened_append, opened_cons_open [] e hblocked, collides_seen tables hf' e key,
        h.seen hf key, firstWithKey, firstWithKey, SortedTable.first_append,
        SortedTable.first_cons, h.folding_eq]
      cases SortedTable.first (fun e => e.path.key tables folding) key (opened done) with
      | some o => rfl
      | none =>
        simp only [Option.none_or, Option.map_none]
        split <;> rfl
    · intro pre r hb
      obtain ⟨r', hr', he⟩ := Option.map_eq_some_iff.mp hb
      obtain ⟨rfl, rfl⟩ := Prod.mk.inj he
      exact ⟨e, _, List.mem_append_right _ List.mem_cons_self, hr', rfl⟩
    · intro d v r hm hr path hle hpre
      have hepath : e.path ≤ path := hle (e, c.verdict tables e) (by simp)
      rcases List.mem_append.mp hm with hm | hm
      · -- an older refused directory above `path` would also be above `e`, hence in the slot
        have hde : d.path ≤ e.path := (hlt (d, v) hm).le
        have hpe : d.path.segments <+: e.path.segments :=
          LexPrefix.prefix_of_between hpre (RelPath.le_iff.mp hde) (RelPath.le_iff.mp hepath)
        have hlive := h.slot_live d v r hm hr e.path (fun p hp => (hlt p hp).le) hpe
        have hsome : c.slotReason e.path = some r :=
          Course.slotReason_eq_some.mpr ⟨d.path, hlive, hpe⟩
        rw [hs] at hsome
        exact absurd hsome (by simp)
      · obtain ⟨rfl, rfl⟩ := Prod.mk.inj (List.mem_singleton.mp hm)
        exact Option.map_eq_some_iff.mpr ⟨r, hr, rfl⟩

/-- A whole pass over a sorted list keeps the invariant. -/
theorem Course.Inv.run (h : c.Inv tables folding dest done) (es : List Entry)
    (hlt : ∀ p ∈ done, ∀ e ∈ es, p.1.path < e.path)
    (hs : SortedTable.Strict Entry.path es) :
    (es.foldl (Course.next tables) c).Inv tables folding dest (done ++ c.trace tables es) := by
  induction es generalizing c done with
  | nil =>
    rw [Course.trace, List.append_nil]
    exact h
  | cons e es ih =>
    obtain ⟨he, hes⟩ := List.pairwise_cons.mp hs
    have hstep := h.step (fun p hp => hlt p hp e List.mem_cons_self)
    have hrun := ih hstep (by
      intro p hp f hf
      rcases List.mem_append.mp hp with hp | hp
      · exact hlt p hp f (List.mem_cons_of_mem e hf)
      · rw [List.mem_singleton.mp hp]
        exact he f hf) hes
    rwa [List.append_assoc] at hrun

end Steps

/-- The verdicts of a planning pass, in source order. -/
def verdicts (tables : CaseTables) (source dest : Snapshot) (folding : NameFolding) :
    List (Entry × Verdict) :=
  (Course.new (DestIndex.new tables dest folding) folding).trace tables source.entries

section Verdicts

variable {tables : CaseTables} {source dest : Snapshot} {folding : NameFolding}

variable (tables source dest folding) in
theorem verdicts_map_fst : (verdicts tables source dest folding).map Prod.fst = source.entries :=
  Course.trace_map_fst tables _ _

variable (tables dest folding) in
theorem exists_verdict {e : Entry} (h : e ∈ source.entries) :
    ∃ v, (e, v) ∈ verdicts tables source dest folding := by
  rw [← verdicts_map_fst tables source dest folding] at h
  obtain ⟨⟨_, v⟩, hm, rfl⟩ := List.mem_map.mp h
  exact ⟨v, hm⟩

theorem mem_of_verdict {e : Entry} {v : Verdict}
    (h : (e, v) ∈ verdicts tables source dest folding) : e ∈ source.entries :=
  Course.mem_of_mem_trace tables h

/-- The state of the pass when it reaches an entry, with what lies before and after. -/
theorem verdict_split {e : Entry} {v : Verdict}
    (h : (e, v) ∈ verdicts tables source dest folding) :
    ∃ (c : Course) (done rest : List (Entry × Verdict)),
      verdicts tables source dest folding = done ++ (e, v) :: rest ∧
      c.Inv tables folding (DestIndex.new tables dest folding) done ∧ v = c.verdict tables e ∧
      (∀ p ∈ done, p.1.path < e.path) ∧ ∀ p ∈ rest, e.path < p.1.path := by
  obtain ⟨done, rest, hsplit⟩ := List.append_of_mem h
  have hfst := verdicts_map_fst tables source dest folding
  rw [hsplit, List.map_append, List.map_cons] at hfst
  have hsorted := source.sorted
  rw [← hfst] at hsorted
  obtain ⟨hpre, hrest, hlt⟩ := List.pairwise_append.mp hsorted
  obtain ⟨hgt, -⟩ := List.pairwise_cons.mp hrest
  have htrace : verdicts tables source dest folding = done ++ (e, v) :: rest := hsplit
  rw [verdicts, ← hfst, Course.trace_append] at htrace
  -- both sides start with the verdicts of the same entries
  have hlen : ((Course.new (DestIndex.new tables dest folding) folding).trace tables
      (done.map Prod.fst)).length = done.length := by
    rw [← List.length_map (f := Prod.fst), Course.trace_map_fst, List.length_map]
  obtain ⟨hdone, hcons⟩ := List.append_inj htrace hlen
  have hinv := (Course.inv_new tables folding (DestIndex.new tables dest folding)).run
    (done.map Prod.fst) (by simp) hpre
  rw [hdone, List.nil_append] at hinv
  refine ⟨_, done, rest, hsplit, hinv, ?_, ?_, ?_⟩
  · exact (Prod.mk.inj (List.cons.inj hcons).1).2.symm
  · intro p hp
    exact hlt p.1 (List.mem_map_of_mem hp) e List.mem_cons_self
  · intro p hp
    exact hgt p.1 (List.mem_map_of_mem hp)

theorem verdict_unique {e : Entry} {v w : Verdict}
    (hv : (e, v) ∈ verdicts tables source dest folding)
    (hw : (e, w) ∈ verdicts tables source dest folding) : v = w := by
  obtain ⟨c, done, rest, hsplit, -, -, hlt, hgt⟩ := verdict_split hv
  rw [hsplit] at hw
  rcases List.mem_append.mp hw with hw | hw
  · exact absurd (hlt _ hw) (lt_irrefl _)
  · rcases List.mem_cons.mp hw with hw | hw
    · exact (Prod.mk.inj hw).2.symm
    · exact absurd (hgt _ hw) (lt_irrefl _)

/-- An entry is blocked for the reason of the refused directory above it. -/
theorem blocked_iff {e : Entry} {v : Verdict} {reason : SkipReason}
    (h : (e, v) ∈ verdicts tables source dest folding) :
    v = .blocked reason ↔ ∃ d w, (d, w) ∈ verdicts tables source dest folding ∧
      w.refusal d = some reason ∧ d.path.segments <+: e.path.segments ∧ d.path ≠ e.path := by
  obtain ⟨c, done, rest, hsplit, hinv, rfl, hlt, hgt⟩ := verdict_split h
  have hv : c.verdict tables e = .blocked reason ↔ c.slotReason e.path = some reason := by
    rw [Course.verdict]
    cases c.slotReason e.path with
    | some r => simp
    | none =>
      dsimp only
      split
      · simp
      · split <;> simp
  rw [hv, Course.slotReason_eq_some]
  constructor
  · intro hslot
    obtain ⟨pre, hb, hpre⟩ := hslot
    obtain ⟨d, w, hm, hr, rfl⟩ := hinv.slot_sound pre reason hb
    refine ⟨d, w, ?_, hr, hpre, (hlt _ hm).ne⟩
    rw [hsplit]
    exact List.mem_append_left _ hm
  · intro hd
    obtain ⟨d, w, hm, hr, hpre, hne⟩ := hd
    -- a prefix sorts first, so the directory has been decided already
    have hde : d.path < e.path :=
      LexPrefix.prefix_lt hpre (fun hs => hne (RelPath.segments_injective hs))
    rw [hsplit] at hm
    rcases List.mem_append.mp hm with hm | hm
    · exact ⟨d.path, hinv.slot_live d w reason hm hr e.path (fun p hp => (hlt p hp).le) hpre, hpre⟩
    · rcases List.mem_cons.mp hm with hm | hm
      · exact absurd (congrArg (fun p => p.1.path) hm) hne
      · exact absurd hde (lt_asymm (hgt _ hm))

/-- What an entry outside every refused directory gets: a collision with the first such
entry of its name, or the decision its kind asks for. -/
theorem open_verdict {e : Entry} {v : Verdict}
    (h : (e, v) ∈ verdicts tables source dest folding) (ho : v.isBlocked = false) :
    (v = .collision ∧ folding ≠ .exact ∧ ∃ o,
        firstWithKey tables folding (opened (verdicts tables source dest folding))
          (e.path.key tables folding) = some o ∧ o ≠ e ∧ ¬(e.kind = .dir ∧ o.kind = .dir)) ∨
      (v ≠ .collision ∧ (folding = .exact ∨ ∃ o,
          firstWithKey tables folding (opened (verdicts tables source dest folding))
            (e.path.key tables folding) = some o ∧
          (o = e ∨ e.kind = .dir ∧ o.kind = .dir)) ∧
        v = match e.kind with
          | .dir => .directory (decideDir (firstWithKey tables folding dest.entries
              (e.path.key tables folding)))
          | .file => .file) := by
  obtain ⟨c, done, rest, hsplit, hinv, rfl, hlt, hgt⟩ := verdict_split h
  have hslot : c.slotReason e.path = none := by
    rw [Course.verdict_isBlocked] at ho
    simpa using ho
  have hverdict : c.verdict tables e =
      if (c.claims.collides tables e).1 then .collision
      else match e.kind with
        | .dir => .directory (decideDir (firstWithKey tables folding dest.entries
            (e.path.key tables folding)))
        | .file => .file := by
    rw [Course.verdict, hslot, hinv.dest_eq]
    cases e.kind with
    | dir => exact congrArg (fun x => ite _ _ (Verdict.directory (decideDir x))) (DestIndex.get_new ..)
    | file => rfl
  have hkind : (match e.kind with
      | .dir => Verdict.directory (decideDir (firstWithKey tables folding dest.entries
          (e.path.key tables folding)))
      | .file => Verdict.file) ≠ .collision := by
    cases e.kind <;> simp
  by_cases hf : folding = .exact
  · right
    rw [collides_exact tables (hinv.folding_eq.trans hf)] at hverdict
    rw [if_neg (by simp)] at hverdict
    exact ⟨hverdict ▸ hkind, Or.inl hf, hverdict⟩
  · have hcf : c.claims.folding ≠ .exact := hinv.folding_eq ▸ hf
    have hcol := collides_iff tables hcf e
    rw [hinv.folding_eq, hinv.seen hf] at hcol
    -- the first claimant of the name is either already decided or `e` itself
    have hfirst : firstWithKey tables folding (opened (verdicts tables source dest folding))
        (e.path.key tables folding) =
        (firstWithKey tables folding (opened done) (e.path.key tables folding)).or (some e) := by
      rw [hsplit, opened_append, opened_cons_open rest e ho, firstWithKey, firstWithKey,
        SortedTable.first_append, SortedTable.first_cons, if_pos rfl]
    rw [hfirst]
    cases hdone : firstWithKey tables folding (opened done) (e.path.key tables folding) with
    | none =>
      right
      have hno : ¬(c.claims.collides tables e).1 = true := by
        rw [hcol, hdone]
        simp
      rw [if_neg hno] at hverdict
      exact ⟨hverdict ▸ hkind, Or.inr ⟨e, rfl, Or.inl rfl⟩, hverdict⟩
    | some o =>
      obtain ⟨w, hm, -⟩ := mem_opened.mp (SortedTable.first_mem hdone)
      have hoe : o ≠ e := by
        intro he
        exact absurd (congrArg Entry.path he) (hlt _ hm).ne
      by_cases hdirs : e.kind = .dir ∧ o.kind = .dir
      · right
        have hno : ¬(c.claims.collides tables e).1 = true := by
          rw [hcol, hdone]
          simpa using hdirs
        rw [if_neg hno] at hverdict
        exact ⟨hverdict ▸ hkind, Or.inr ⟨o, rfl, Or.inr hdirs⟩, hverdict⟩
      · left
        have hyes : (c.claims.collides tables e).1 = true := by
          rw [hcol, hdone]
          exact ⟨o.kind, rfl, hdirs⟩
        rw [if_pos hyes] at hverdict
        exact ⟨hverdict, hf, o, rfl, hoe, hdirs⟩

end Verdicts

end MtpxCore
