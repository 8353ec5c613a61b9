import MtpxCore.DeviceKeys
import Mathlib.Data.List.Induction

/-! Walking to a path of a re-keyed storage with a cache of older handles: where the walk
stops, and what it leaves in the cache. -/
namespace MtpxCore

namespace RelPath

/-- The ancestor of `path` with `i` segments. -/
def take (path : RelPath) (i : ℕ) : RelPath :=
  ⟨path.segments.take i, fun s hs => path.valid s (List.mem_of_mem_take hs)⟩

theorem take_length (path : RelPath) : path.take path.segments.length = path :=
  segments_injective List.take_length

theorem length_take {path : RelPath} {i : ℕ} (h : i ≤ path.segments.length) :
    (path.take i).segments.length = i := by
  rw [take, List.length_take, Nat.min_eq_left h]

theorem take_succ {path : RelPath} {i : ℕ} (h : i < path.segments.length) :
    (path.take (i + 1)).segments = (path.take i).segments ++ [path.segments[i]] :=
  List.take_succ_eq_append_getElem h

theorem parent_take {path : RelPath} (h : path.segments ≠ []) :
    path.parent = some (path.take (path.segments.length - 1)) := by
  rw [parent, if_neg h]
  exact congrArg some (segments_injective (List.dropLast_eq_take ..))

theorem take_ne {path : RelPath} {i j : ℕ} (hi : i ≤ path.segments.length)
    (hj : j ≤ path.segments.length) (h : i ≠ j) : path.take i ≠ path.take j := by
  intro heq
  have hlength := congrArg (fun q : RelPath => q.segments.length) heq
  simp only [take, List.length_take] at hlength
  omega

end RelPath

namespace KeyedStorage

/-- The phone as a session that stays as it is; the operation tells the object it ran on. -/
def session {T : Type} (phone : KeyedStorage) (value : ObjectHandle → DeviceNode → T) :
    DeviceSession Unit T where
  collectObjects parent s := (phone.collectObjects parent, s)
  getObjectInfo handle s := (phone.getObjectInfo handle, s)
  op handle s :=
    (match phone.behind phone.key handle with
      | some n => .ok (value handle n)
      | none => .error .staleHandle, s)

end KeyedStorage

/-- The handle by which the ancestor of `path` with `i` segments is known before a walk. -/
def HandleCache.known (cache : HandleCache) (root : Option ObjectHandle) (path : RelPath) (i : ℕ) :
    Option ObjectHandle :=
  if i = 0 then root else cache (path.take i)

namespace KeyedStorage

variable (phone : KeyedStorage) (root : Option ObjectHandle) (path : RelPath) (cache : HandleCache)

/-- That handle is dead. -/
def Cut (i : ℕ) : Prop := ∃ handle, cache.known root path i = some handle ∧ phone.Dead handle

/-- The walk has to list this ancestor, and does not find the next segment there. -/
def Blocked (i : ℕ) : Prop :=
  i < path.segments.length ∧ cache (path.take (i + 1)) = none ∧
    (phone.Cut root path cache i ∨ isReservedName (path.segments.getD i "") = true)

/-- Listing this ancestor fails as stale. -/
def AnswersStale (i : ℕ) : Prop :=
  ∃ handle, cache.known root path i = some handle ∧ phone.Dead handle ∧
    phone.staleListing handle = true

/-- The first place where the walk is blocked. -/
def BlockedFirst (i : ℕ) : Prop :=
  phone.Blocked root path cache i ∧ ∀ k < i, ¬phone.Blocked root path cache k

end KeyedStorage

section Walk

variable {T : Type} {phone : KeyedStorage} {value : ObjectHandle → DeviceNode → T}
  {folder : List String} {root : Option ObjectHandle} {path : RelPath} {n : DeviceNode}

/-- Every folder above an object is an object, down to the storage root. -/
theorem object_above {a b : List String} (hn : n ∈ phone.nodes) (hpath : n.path = a ++ b) (ha : a ≠ []) :
    ∃ d ∈ phone.nodes, d.path = a := by
  induction b using List.reverseRecOn generalizing n with
  | nil => exact ⟨n, hn, by simpa using hpath⟩
  | append_singleton b x ih =>
    rcases phone.inside n hn with hroot | ⟨d, hd, -, hdpath⟩
    · rw [hpath, ← List.append_assoc, List.dropLast_concat] at hroot
      exact absurd (List.append_eq_nil_iff.mp hroot).1 ha
    · rw [hpath, ← List.append_assoc, List.dropLast_concat] at hdpath
      exact ih hd hdpath

/-- A handle to list the folder `path` under, current or not. -/
def StandsFor (phone : KeyedStorage) (handle : Option ObjectHandle) (path : List String) : Prop :=
  (handle = none ∧ path = []) ∨
    ∃ h d, handle = some h ∧ phone.Was h path ∧ d ∈ phone.nodes ∧ d.path = path

/-- The root found by `open` stands for the folder of the transfer. -/
theorem locateRoot_stands {k : Keying} (hk : k ∈ phone.keyings) {root : RemotePath} {target : Target}
    (h : locateRoot (phone.stream k) root = .ok target) :
    StandsFor phone target.folder (target.folderPath root) := by
  obtain ⟨hfolder, hthere⟩ := locateRoot_stream hk h
  rw [hfolder, RootHandle]
  split
  · rename_i hnil
    exact Or.inl ⟨rfl, hnil⟩
  · rename_i hne
    obtain ⟨d, hd, hdpath⟩ := hthere hne
    exact Or.inr ⟨_, d, rfl, ⟨k, hk, rfl⟩, hd, hdpath⟩

/-- What the listing of a folder comes to: of a live one its objects, of a dead one nothing. -/
theorem collectObjects_stands {handle : Option ObjectHandle} {folder : List String}
    (h : StandsFor phone handle folder) :
    (phone.collectObjects handle = .ok (phone.collection phone.key folder) ∧
        ∀ dead, handle = some dead → ¬phone.Dead dead) ∨
      ∃ dead, handle = some dead ∧ phone.Dead dead ∧ phone.collectObjects handle =
        if phone.staleListing dead then .error .staleHandle else .ok ⟨[], []⟩ := by
  rcases h with ⟨rfl, rfl⟩ | ⟨handle, d, rfl, hwas, hd, rfl⟩
  · exact Or.inl ⟨rfl, fun dead hdead => absurd hdead (by simp)⟩
  · rcases behind_was hwas hd with hdead | ⟨hlive, hkey⟩
    · refine Or.inr ⟨handle, rfl, hdead, ?_⟩
      unfold KeyedStorage.collectObjects
      dsimp only
      rw [hdead]
    · refine Or.inl ⟨?_, ?_⟩
      · unfold KeyedStorage.collectObjects
        dsimp only
        rw [hlive]
      · rintro dead hsome hdead
        obtain rfl := Option.some.inj hsome
        rw [hkey] at hdead
        exact not_dead_key hd hdead

variable (value) in
/-- One step of the walk, at the ancestor with `i` segments. -/
theorem child_keyed {i : ℕ} {handle : Option ObjectHandle} {m : Memory Unit T} (hn : n ∈ phone.nodes)
    (hpath : n.path = folder ++ path.segments) (hi : i < path.segments.length)
    (hstands : StandsFor phone handle (folder ++ path.segments.take i))
    (huncached : m.cache (path.take (i + 1)) = none) :
    ∃ r m', child (phone.session value) handle (path.take i) (path.take (i + 1)) m = (r, m') ∧
      (∀ q : RelPath, q.segments.length ≠ i + 1 → m'.cache q = m.cache q) ∧
      ((∃ dead, handle = some dead ∧ phone.Dead dead ∧ m'.cache (path.take (i + 1)) = none ∧
          r = .error (if phone.staleListing dead then .mtp .staleHandle
            else .sourceVanished (path.take (i + 1)))) ∨
        (∀ dead, handle = some dead → ¬phone.Dead dead) ∧
          ((isReservedName path.segments[i] = true ∧ m'.cache (path.take (i + 1)) = none ∧
              r = .error (.sourceVanished (path.take (i + 1)))) ∨
            (isReservedName path.segments[i] = false ∧
              m'.cache (path.take (i + 1)) = some (phone.key (folder ++ path.segments.take (i + 1))) ∧
              r = .ok (phone.key (folder ++ path.segments.take (i + 1)))))) := by
  obtain ⟨d, hd, hdpath⟩ : ∃ d ∈ phone.nodes, d.path = folder ++ path.segments.take (i + 1) := by
    refine object_above hn (b := path.segments.drop (i + 1)) ?_ ?_
    · rw [hpath, List.append_assoc, List.take_append_drop]
    · simp [List.take_eq_nil_iff, List.ne_nil_of_length_pos (Nat.zero_lt_of_lt hi)]
  have hsucc := RelPath.take_succ hi
  have hname : folder ++ path.segments.take (i + 1) =
      folder ++ path.segments.take i ++ [path.segments[i]] := by
    rw [List.append_assoc]
    exact congrArg (folder ++ ·) hsucc
  rcases collectObjects_stands hstands with ⟨hlist, hlive⟩ | ⟨dead, rfl, hdead, hlist⟩
  · -- a live folder reports its objects, each under its own name
    let objects := (phone.inFolder (folder ++ path.segments.take i)).map (DeviceObjects.info phone.key)
    let cache := m.cache.prime (reported (path.take i) objects)
    have hchild := @child_listed _ _ (phone.session value) m handle (path.take i) _ _ _ huncached
      (Prod.ext hlist rfl)
    have hother (q : RelPath) (hq : q.segments.length ≠ i + 1) : cache q = m.cache q := by
      rcases prime_cases m.cache (reported (path.take i) objects) q with hsame | ⟨h, -, hmem⟩
      · exact hsame
      · obtain ⟨name, _, hsegments, -⟩ := mem_reported.mp hmem
        have hlength := congrArg List.length hsegments
        rw [List.length_append, List.length_singleton, RelPath.take, List.length_take] at hlength
        omega
    refine ⟨_, _, hchild, hother, Or.inr ⟨hlive, ?_⟩⟩
    cases hreserved : isReservedName path.segments[i] with
    | true =>
      have hnone : cache (path.take (i + 1)) = none := by
        rcases prime_cases m.cache (reported (path.take i) objects) (path.take (i + 1)) with
          hsame | ⟨h, -, hmem⟩
        · exact hsame.trans huncached
        · obtain ⟨name, _, hsegments, -, -, -, hfree⟩ := mem_reported.mp hmem
          obtain rfl : path.segments[i] = name := by
            have := hsucc.symm.trans hsegments
            exact List.singleton_inj.mp (List.append_cancel_left this)
          rw [hreserved] at hfree
          exact absurd hfree (by simp)
      exact Or.inl ⟨rfl, hnone, congrArg (Option.elim · _ _) hnone⟩
    | false =>
      have hsome : cache (path.take (i + 1)) = some (phone.key (folder ++ path.segments.take (i + 1))) := by
        apply prime_of_mem (reported_nodup _ _)
        refine mem_reported.mpr ⟨path.segments[i], d, hsucc, hd, ?_, by rw [hdpath], hreserved⟩
        rw [hdpath, hname]
      exact Or.inr ⟨rfl, hsome, congrArg (Option.elim · _ _) hsome⟩
  · -- a dead one fails or reports nothing
    cases hstale : phone.staleListing dead with
    | true =>
      rw [hstale] at hlist
      exact ⟨_, _, child_unlisted huncached (Prod.ext hlist rfl), fun _ _ => rfl,
        Or.inl ⟨dead, rfl, hdead, huncached, by rw [hstale]; rfl⟩⟩
    | false =>
      rw [hstale] at hlist
      refine ⟨_, _, child_listed _ huncached (Prod.ext hlist rfl), fun _ _ => rfl,
        Or.inl ⟨dead, rfl, hdead, huncached, ?_⟩⟩
      have hempty : m.cache.prime (reported (path.take i) []) = m.cache := rfl
      rw [hempty, huncached, hstale]
      rfl

/-- The cached ancestors of `path` are older or current handles of those very folders. -/
def KnownOn (phone : KeyedStorage) (folder : List String) (path : RelPath) (cache : HandleCache) : Prop :=
  ∀ j, 0 < j → j ≤ path.segments.length → ∀ handle, cache (path.take j) = some handle →
    phone.Was handle (folder ++ path.segments.take j)

/-- A walk changes an ancestor only from nothing to its current handle. -/
def Refreshed (phone : KeyedStorage) (folder : List String) (path : RelPath) (before after : HandleCache) :
    Prop :=
  ∀ j, j ≤ path.segments.length → after (path.take j) = before (path.take j) ∨
    (0 < j ∧ before (path.take j) = none ∧
      after (path.take j) = some (phone.key (folder ++ path.segments.take j)))

theorem Refreshed.trans {a b c : HandleCache} (h₁ : Refreshed phone folder path a b)
    (h₂ : Refreshed phone folder path b c) : Refreshed phone folder path a c := by
  intro j hj
  rcases h₂ j hj with hsame | ⟨hpos, hnone, hkey⟩
  · rw [hsame]
    exact h₁ j hj
  · rcases h₁ j hj with hsame | ⟨-, -, hkey'⟩
    · exact Or.inr ⟨hpos, hsame.symm.trans hnone, hkey⟩
    · exact absurd (hkey'.symm.trans hnone) (by simp)

theorem object_on (hn : n ∈ phone.nodes) (hpath : n.path = folder ++ path.segments) {j : ℕ}
    (hj : 0 < j) (hle : j ≤ path.segments.length) :
    ∃ d ∈ phone.nodes, d.path = folder ++ path.segments.take j := by
  refine object_above hn (b := path.segments.drop j) ?_ ?_
  · rw [hpath, List.append_assoc, List.take_append_drop]
  · intro hnil
    have hlength := congrArg List.length (List.append_eq_nil_iff.mp hnil).2
    rw [List.length_take, List.length_nil] at hlength
    omega

/-- The dead handles among the ancestors are the same after a walk as before. -/
theorem Refreshed.dead {before after : HandleCache} (h : Refreshed phone folder path before after)
    (hn : n ∈ phone.nodes) (hpath : n.path = folder ++ path.segments) {j : ℕ}
    (hj : j ≤ path.segments.length) {dead : ObjectHandle} (hdead : phone.Dead dead) :
    after (path.take j) = some dead ↔ before (path.take j) = some dead := by
  rcases h j hj with hkept | ⟨hpos, hnone, hkey⟩
  · rw [hkept]
  · obtain ⟨d, hd, hdpath⟩ := object_on hn hpath hpos hj
    rw [hnone, hkey, ← hdpath]
    refine ⟨fun hsome => ?_, fun hsome => absurd hsome (by simp)⟩
    obtain rfl := Option.some.inj hsome
    exact absurd hdead (not_dead_key hd)

/-- How a walk ends that has reached the ancestor with `i` segments: it passes every place
that is not blocked, and stops at the first that is. -/
def WalkEnds (phone : KeyedStorage) (root : Option ObjectHandle) (folder : List String) (path : RelPath)
    (cache : HandleCache) (i : ℕ) (before : HandleCache)
    (outcome : Except Error (Option ObjectHandle) × Memory Unit T) : Prop :=
  Refreshed phone folder path before outcome.2.cache ∧
    (((∀ j, i ≤ j → ¬phone.Blocked root path cache j) ∧
        outcome.1 = .ok (some (phone.key (folder ++ path.segments)))) ∨
      ∃ j, i ≤ j ∧ phone.Blocked root path cache j ∧
        (∀ k, i ≤ k → k < j → ¬phone.Blocked root path cache k) ∧
        outcome.2.cache (path.take (j + 1)) = none ∧
        ((phone.AnswersStale root path cache j ∧ outcome.1 = .error (.mtp .staleHandle)) ∨
          (¬phone.AnswersStale root path cache j ∧
            outcome.1 = .error (.sourceVanished (path.take (j + 1))))))

theorem WalkEnds.step {cache before mid : HandleCache} {i : ℕ}
    {outcome : Except Error (Option ObjectHandle) × Memory Unit T}
    (hopen : ¬phone.Blocked root path cache i) (hmid : Refreshed phone folder path before mid)
    (h : WalkEnds phone root folder path cache (i + 1) mid outcome) :
    WalkEnds phone root folder path cache i before outcome := by
  obtain ⟨hrefreshed, hends⟩ := h
  have hfrom {j : ℕ} (hj : i ≤ j) : i = j ∨ i + 1 ≤ j := Nat.eq_or_lt_of_le hj
  refine ⟨hmid.trans hrefreshed, ?_⟩
  rcases hends with ⟨hall, hok⟩ | ⟨j, hj, hblocked, hfirst, hrest⟩
  · refine Or.inl ⟨fun j hj => ?_, hok⟩
    rcases hfrom hj with rfl | hj
    · exact hopen
    · exact hall j hj
  · refine Or.inr ⟨j, by omega, hblocked, fun k hk hlt => ?_, hrest⟩
    rcases hfrom hk with rfl | hk
    · exact hopen
    · exact hfirst k hk hlt

/-- A step that finds nothing ends the walk. -/
theorem walkDown_stops {i : ℕ} (hi : i < path.segments.length) {handle : Option ObjectHandle}
    {m m' : Memory Unit T} {e : Error}
    (h : child (phone.session value) handle (path.take i) (path.take (i + 1)) m = (.error e, m')) :
    walkDown (phone.session value) (path.segments.drop i) (path.take i) handle m = (.error e, m') := by
  rw [List.drop_eq_getElem_cons hi, walkDown, RelPath.join_eq (RelPath.take_succ hi)]
  dsimp only
  rw [h]

/-- A step that finds the next ancestor goes on from there. -/
theorem walkDown_next {i : ℕ} (hi : i < path.segments.length) {handle : Option ObjectHandle}
    {m m' : Memory Unit T} {found : ObjectHandle}
    (h : child (phone.session value) handle (path.take i) (path.take (i + 1)) m = (.ok found, m')) :
    walkDown (phone.session value) (path.segments.drop i) (path.take i) handle m =
      walkDown (phone.session value) (path.segments.drop (i + 1)) (path.take (i + 1)) (some found) m' := by
  rw [List.drop_eq_getElem_cons hi, walkDown, RelPath.join_eq (RelPath.take_succ hi)]
  dsimp only
  rw [h]

/-- Listing one ancestor refreshes the next one at most. -/
theorem Refreshed.of_child {before after : HandleCache} {i : ℕ}
    (hother : ∀ q : RelPath, q.segments.length ≠ i + 1 → after q = before q)
    (hnone : before (path.take (i + 1)) = none)
    (hget : after (path.take (i + 1)) = none ∨
      after (path.take (i + 1)) = some (phone.key (folder ++ path.segments.take (i + 1)))) :
    Refreshed phone folder path before after := by
  intro j hj
  by_cases hj' : j = i + 1
  · subst hj'
    rcases hget with hget | hget
    · exact Or.inl (hget.trans hnone.symm)
    · exact Or.inr ⟨Nat.succ_pos i, hnone, hget⟩
  · apply Or.inl
    apply hother
    rwa [RelPath.length_take hj]

/-- A walk that stops where it is ends at the first place that is blocked. -/
theorem WalkEnds.stops {cache before : HandleCache} {i : ℕ} {m : Memory Unit T} {e : Error}
    (hblocked : phone.Blocked root path cache i) (hrefreshed : Refreshed phone folder path before m.cache)
    (hget : m.cache (path.take (i + 1)) = none)
    (he : (phone.AnswersStale root path cache i ∧ e = .mtp .staleHandle) ∨
      (¬phone.AnswersStale root path cache i ∧ e = .sourceVanished (path.take (i + 1)))) :
    WalkEnds phone root folder path cache i before
      ((.error e, m) : Except Error (Option ObjectHandle) × Memory Unit T) := by
  refine ⟨hrefreshed, Or.inr ⟨i, le_rfl, hblocked, ?_, hget, ?_⟩⟩
  · exact fun k hk hlt => absurd hlt (by omega)
  · rcases he with ⟨hstale, rfl⟩ | ⟨hquiet, rfl⟩
    · exact Or.inl ⟨hstale, rfl⟩
    · exact Or.inr ⟨hquiet, rfl⟩

variable (value root) in
/-- A walk from the ancestor with `i` segments ends as told from the cache it began with. The
induction is on the segments left; what it needs of the present cache is that the ancestors
still to come are as they were. -/
theorem walk_keyed (hn : n ∈ phone.nodes) (hpath : n.path = folder ++ path.segments)
    {cache : HandleCache} (hknown : KnownOn phone folder path cache) (hend : cache path = none) :
    ∀ (i : ℕ) (handle : Option ObjectHandle) (m : Memory Unit T), i < path.segments.length →
      StandsFor phone handle (folder ++ path.segments.take i) →
      (∀ dead, phone.Dead dead → (handle = some dead ↔ cache.known root path i = some dead)) →
      (∀ j, i < j → j ≤ path.segments.length → m.cache (path.take j) = cache (path.take j)) →
      WalkEnds phone root folder path cache i m.cache
        (walkDown (phone.session value) (path.segments.drop i) (path.take i) handle m) := by
  intro i
  induction hleft : path.segments.length - i generalizing i with
  | zero =>
    intro handle m hi
    omega
  | succ left ih =>
    intro handle m hi hstands hcut hsame
    have hwhole (hlast : i + 1 = path.segments.length) : path.take (i + 1) = path := by
      rw [hlast, RelPath.take_length]
    -- the rest of the walk, once the next ancestor has the handle `next`
    have hrest (next : ObjectHandle) (m₁ : Memory Unit T) (hmore : i + 1 < path.segments.length)
        (hwas : phone.Was next (folder ++ path.segments.take (i + 1)))
        (hnext : ∀ dead, phone.Dead dead → (some next = some dead ↔ cache.known root path (i + 1) = some dead))
        (hlater : ∀ j, i + 1 < j → j ≤ path.segments.length → m₁.cache (path.take j) = cache (path.take j)) :
        WalkEnds phone root folder path cache (i + 1) m₁.cache
          (walkDown (phone.session value) (path.segments.drop (i + 1)) (path.take (i + 1)) (some next) m₁) := by
      obtain ⟨d, hd, hdpath⟩ := object_on hn hpath (Nat.succ_pos i) hmore.le
      exact ih (i + 1) (by omega) (some next) m₁ hmore (Or.inr ⟨next, d, rfl, hwas, hd, hdpath⟩) hnext
        hlater
    have hunchanged : m.cache (path.take (i + 1)) = cache (path.take (i + 1)) :=
      hsame (i + 1) (Nat.lt_succ_self i) hi
    cases hcached : m.cache (path.take (i + 1)) with
    | some next =>
      have hnext : cache (path.take (i + 1)) = some next := hunchanged.symm.trans hcached
      have hopen : ¬phone.Blocked root path cache i := fun h => absurd (h.2.1.symm.trans hnext) (by simp)
      have hmore : i + 1 < path.segments.length := by
        apply lt_of_le_of_ne hi
        intro hlast
        rw [hwhole hlast, hend] at hnext
        exact absurd hnext (by simp)
      rw [walkDown_next hi (child_of_cached hcached)]
      refine WalkEnds.step hopen (fun _ _ => Or.inl rfl) (hrest next m hmore ?_ ?_ ?_)
      · exact hknown (i + 1) (Nat.succ_pos i) hmore.le next hnext
      · intro dead _
        rw [HandleCache.known, if_neg (Nat.succ_ne_zero i), hnext]
      · exact fun j hj hle => hsame j (by omega) hle
    | none =>
      have hnone : cache (path.take (i + 1)) = none := hunchanged.symm.trans hcached
      have hname : path.segments.getD i "" = path.segments[i] := by
        rw [List.getD_eq_getElem?_getD, List.getElem?_eq_getElem hi, Option.getD_some]
      obtain ⟨r, m', hchild, hother, hends⟩ := child_keyed value hn hpath hi hstands hcached
      rcases hends with ⟨dead, hdead, hisdead, hget, rfl⟩ | ⟨hlive, ⟨hreserved, hget, rfl⟩ | ⟨hfree, hget, rfl⟩⟩
      · -- a dead folder
        have hknowndead := (hcut dead hisdead).mp hdead
        rw [walkDown_stops hi hchild]
        apply WalkEnds.stops ⟨hi, hnone, Or.inl ⟨dead, hknowndead, hisdead⟩⟩
          (Refreshed.of_child hother hcached (Or.inl hget)) hget
        cases hstale : phone.staleListing dead with
        | true => exact Or.inl ⟨⟨dead, hknowndead, hisdead, hstale⟩, rfl⟩
        | false =>
          refine Or.inr ⟨?_, rfl⟩
          rintro ⟨other, hother', -, hstale'⟩
          obtain rfl : dead = other := Option.some.inj (hknowndead.symm.trans hother')
          rw [hstale] at hstale'
          exact absurd hstale' (by simp)
      · -- a live folder that leaves the name out
        rw [walkDown_stops hi hchild]
        apply WalkEnds.stops ⟨hi, hnone, Or.inr (by rw [hname]; exact hreserved)⟩
          (Refreshed.of_child hother hcached (Or.inl hget)) hget
        refine Or.inr ⟨?_, rfl⟩
        rintro ⟨dead, hknowndead, hisdead, -⟩
        exact hlive dead ((hcut dead hisdead).mpr hknowndead) hisdead
      · have hopen : ¬phone.Blocked root path cache i := by
          rintro ⟨-, -, ⟨dead, hknowndead, hisdead⟩ | hreserved⟩
          · exact hlive dead ((hcut dead hisdead).mpr hknowndead) hisdead
          · rw [hname, hfree] at hreserved
            exact absurd hreserved (by simp)
        have hrefreshed := Refreshed.of_child hother hcached (Or.inr hget)
        rw [walkDown_next hi hchild]
        by_cases hlast : i + 1 = path.segments.length
        · -- the path itself is found
          rw [hlast, List.drop_length, List.take_length]
          refine ⟨hrefreshed, Or.inl ⟨fun j hj => ?_, rfl⟩⟩
          rcases Nat.eq_or_lt_of_le hj with rfl | hlt
          · exact hopen
          · exact fun h => absurd h.1 (by omega)
        · refine WalkEnds.step hopen hrefreshed (hrest _ m' (by omega) ?_ ?_ ?_)
          · exact ⟨phone.key, phone.current, rfl⟩
          · intro dead hisdead
            obtain ⟨d, hd, hdpath⟩ := object_on hn hpath (Nat.succ_pos i) hi
            rw [HandleCache.known, if_neg (Nat.succ_ne_zero i), hnone]
            refine ⟨fun h => ?_, fun h => absurd h (by simp)⟩
            rw [← hdpath] at h
            obtain rfl := Option.some.inj h
            exact absurd hisdead (not_dead_key hd)
          · intro j hj hle
            have hlength : (path.take j).segments.length ≠ i + 1 := by
              rw [RelPath.length_take hle]
              omega
            rw [hother _ hlength]
            exact hsame j (by omega) hle

end Walk

end MtpxCore
