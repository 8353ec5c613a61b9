import MtpxCore.PlannerModel

/-! The planning pass seen entry by entry. What the pass concludes about an entry depends on
neither the policy nor the partials; it is a verdict, and the plan is read off the list of
verdicts. The invariant of the pass says what its single blocking slot and its claimed
names stand for. -/
namespace MtpxCore

/-- What the pass concludes about one entry, before the policy is asked. -/
inductive Verdict where
  | blocked (reason : SkipReason)
  | collision
  | directory (decision : DirDecision)
  | file
  deriving DecidableEq, Repr

namespace Verdict

def isBlocked : Verdict → Bool
  | .blocked _ => true
  | _ => false

/-- Why a directory is refused together with everything beneath it, if it is. -/
def refusal (e : Entry) : Verdict → Option SkipReason
  | .collision => if e.kind = .dir then some .nameCollision else none
  | .directory .blocked => some .kindConflict
  | _ => none

/-- The mkdirs an entry adds to the plan. -/
def mkdirs (e : Entry) : Verdict → List Action
  | .directory .mkdir => [.mkdir e.path]
  | _ => []

/-- The other actions an entry adds to the plan. -/
def files (dest : Option Entry) (partials : Partials) (conflict : ConflictPolicy) (e : Entry) :
    Verdict → List Action
  | .blocked reason => [MtpxCore.skip e reason]
  | .collision => [MtpxCore.skip e .nameCollision]
  | .directory .blocked => [MtpxCore.skip e .kindConflict]
  | .directory _ => []
  | .file => [decideFile e dest (partials.get e.path) conflict]

end Verdict

/-- The part of the decider's state that decides verdicts. -/
structure Course where
  dest : DestIndex
  claims : Claims
  blocked : Option (RelPath × SkipReason)

namespace Course

variable (tables : CaseTables)

def new (dest : DestIndex) (folding : NameFolding) : Course := ⟨dest, Claims.new folding, none⟩

/-- The reason in the slot, for a path beneath the refused directory. -/
def slotReason (c : Course) (path : RelPath) : Option SkipReason :=
  match c.blocked with
  | none => none
  | some (pre, reason) => if path.startsWith pre then some reason else none

def verdict (c : Course) (e : Entry) : Verdict :=
  match c.slotReason e.path with
  | some reason => .blocked reason
  | none =>
    if (c.claims.collides tables e).1 then .collision
    else match e.kind with
      | .dir => .directory (decideDir (c.dest.get tables e.path))
      | .file => .file

def next (c : Course) (e : Entry) : Course :=
  match c.slotReason e.path with
  | some _ => c
  | none =>
    { c with
      claims := (c.claims.collides tables e).2
      blocked := ((c.verdict tables e).refusal e).map (fun reason => (e.path, reason)) }

/-- Every entry with its verdict, in source order. -/
def trace : Course → List Entry → List (Entry × Verdict)
  | _, [] => []
  | c, e :: es => (e, c.verdict tables e) :: trace (c.next tables e) es

theorem trace_append (c : Course) (es fs : List Entry) :
    c.trace tables (es ++ fs) =
      c.trace tables es ++ (es.foldl (next tables) c).trace tables fs := by
  induction es generalizing c with
  | nil => rfl
  | cons e es ih => simp only [List.cons_append, trace, ih, List.foldl_cons]

@[simp] theorem trace_map_fst (c : Course) (es : List Entry) :
    (c.trace tables es).map Prod.fst = es := by
  induction es generalizing c with
  | nil => rfl
  | cons e es ih => simp only [trace, List.map_cons, ih]

theorem mem_of_mem_trace {c : Course} {es : List Entry} {e : Entry} {v : Verdict}
    (h : (e, v) ∈ c.trace tables es) : e ∈ es := by
  have hm := List.mem_map_of_mem (f := Prod.fst) h
  rwa [trace_map_fst] at hm

end Course

namespace Decider

variable (tables : CaseTables)

def course (d : Decider) : Course := ⟨d.dest, d.claims, d.blocked⟩

/-- One entry, in terms of its verdict alone. -/
theorem decideEntry_eq (d : Decider) (e : Entry) :
    d.decideEntry tables e =
      { d with
        claims := (d.course.next tables e).claims
        blocked := (d.course.next tables e).blocked
        mkdirs := d.mkdirs ++ (d.course.verdict tables e).mkdirs e
        files := d.files ++ (d.course.verdict tables e).files (d.dest.get tables e.path)
          d.partials d.conflict e } := by
  obtain ⟨dest, partials, conflict, claims, blocked, mkdirs, files⟩ := d
  -- the slot decides first: inside its subtree nothing else of the state is looked at
  have hslot : (Decider.mk dest partials conflict claims blocked mkdirs files).blockingReason
      e.path = match (Course.mk dest claims blocked).slotReason e.path with
        | some reason =>
          (some reason, ⟨dest, partials, conflict, claims, blocked, mkdirs, files⟩)
        | none => (none, ⟨dest, partials, conflict, claims, none, mkdirs, files⟩) := by
    rcases blocked with _ | ⟨pre, reason⟩
    · rfl
    · simp only [blockingReason, Course.slotReason]
      split <;> rfl
  rw [decideEntry, hslot]
  simp only [course, Course.next, Course.verdict]
  cases hs : (Course.mk dest claims blocked).slotReason e.path with
  | some reason => simp [Verdict.mkdirs, Verdict.files]
  | none =>
    by_cases hit : (claims.collides tables e).1 = true
    · obtain ⟨claims', hc⟩ : ∃ claims', claims.collides tables e = (true, claims') :=
        ⟨_, Prod.ext hit rfl⟩
      simp only [hc]
      by_cases hk : e.kind = .dir <;>
        simp [refuse, Verdict.mkdirs, Verdict.files, Verdict.refusal, hk]
    · obtain ⟨claims', hc⟩ : ∃ claims', claims.collides tables e = (false, claims') :=
        ⟨_, Prod.ext (Bool.eq_false_of_not_eq_true hit) rfl⟩
      simp only [hc]
      cases hk : e.kind with
      | file => simp [Verdict.mkdirs, Verdict.files, Verdict.refusal]
      | dir =>
        cases hd : decideDir (dest.get tables e.path) <;>
          simp [decideDirEntry, hd, refuse, hk, Verdict.mkdirs, Verdict.files, Verdict.refusal]

/-- The actions of a whole pass, read off its verdicts. -/
theorem foldl_decideEntry (es : List Entry) (d : Decider) :
    (es.foldl (decideEntry tables) d).mkdirs =
        d.mkdirs ++ (d.course.trace tables es).flatMap (fun p => p.2.mkdirs p.1) ∧
      (es.foldl (decideEntry tables) d).files =
        d.files ++ (d.course.trace tables es).flatMap (fun p =>
          p.2.files (d.dest.get tables p.1.path) d.partials d.conflict p.1) := by
  induction es generalizing d with
  | nil => simp [Course.trace]
  | cons e es ih =>
    have hcourse : (d.decideEntry tables e).course = d.course.next tables e := by
      rw [decideEntry_eq]
      simp only [course, Course.next]
      split <;> rfl
    obtain ⟨hm, hf⟩ := ih (d.decideEntry tables e)
    rw [hcourse] at hm hf
    rw [List.foldl_cons, hm, hf, decideEntry_eq]
    simp [Course.trace, List.append_assoc]

end Decider

end MtpxCore
