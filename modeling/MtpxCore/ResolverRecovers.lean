import MtpxCore.ResolverWalks

/-! When `with_handle` finds an object again after handles of its storage have changed. -/
namespace MtpxCore

namespace KeyedStorage

variable (phone : KeyedStorage) (root : Option ObjectHandle) (path : RelPath) (cache : HandleCache)

/-- The path is known by a live handle; or the walk to it is blocked nowhere; or the transfer
root is live, every name is listed, and the stale answer that empties the cache comes. -/
def Recoverable : Prop :=
  (∃ handle, cache.known root path path.segments.length = some handle ∧ ¬phone.Dead handle) ∨
    (path.segments ≠ [] ∧ ∀ i, ¬phone.Blocked root path (cache.remove path) i) ∨
    (¬phone.Cut root path cache 0 ∧ (∀ name ∈ path.segments, isReservedName name = false) ∧
      ((cache path ≠ none ∧ 1 < path.segments.length ∧
          phone.Cut root path cache (path.segments.length - 1)) ∨
        ∃ i, phone.BlockedFirst root path (cache.remove path) i ∧
          phone.AnswersStale root path (cache.remove path) i))

/-- Every cached handle was, under some keying, that of the object at its path. -/
def Learned (folder : List String) : Prop :=
  ∀ (q : RelPath) (handle : ObjectHandle), cache q = some handle →
    q.segments ≠ [] ∧ phone.Was handle (folder ++ q.segments)

end KeyedStorage

section Attempts

variable {T : Type} {phone : KeyedStorage} {value : ObjectHandle → DeviceNode → T}
  {folder : List String} {root : Option ObjectHandle} {path : RelPath} {n : DeviceNode}

theorem remove_take (cache : HandleCache) {j : ℕ} (hj : j < path.segments.length) :
    cache.remove path (path.take j) = cache (path.take j) := by
  apply remove_of_ne
  have hne := RelPath.take_ne hj.le le_rfl (Nat.ne_of_lt hj)
  rwa [RelPath.take_length] at hne

theorem KnownOn.refreshed {before after : HandleCache} (h : KnownOn phone folder path before)
    (hrefreshed : Refreshed phone folder path before after) : KnownOn phone folder path after := by
  intro j hj hle handle hget
  rcases hrefreshed j hle with hsame | ⟨-, -, hkey⟩
  · exact h j hj hle handle (hsame.symm.trans hget)
  · obtain rfl := Option.some.inj (hkey.symm.trans hget)
    exact ⟨phone.key, phone.current, rfl⟩

theorem KnownOn.remove {cache : HandleCache} (h : KnownOn phone folder path cache) :
    KnownOn phone folder path (cache.remove path) := by
  intro j hj hle handle hget
  rcases Nat.lt_or_eq_of_le hle with hlt | rfl
  · exact h j hj hle handle ((remove_take cache hlt).symm.trans hget)
  · rw [RelPath.take_length, remove_self] at hget
    exact absurd hget (by simp)

variable (value) in
/-- Running the operation on a handle the object has or had. -/
theorem op_was {handle : ObjectHandle} (hn : n ∈ phone.nodes) (hwas : phone.Was handle n.path) :
    (phone.Dead handle ∧ (phone.session value).op handle () = (.error .staleHandle, ())) ∨
      (¬phone.Dead handle ∧ (phone.session value).op handle () = (.ok (value (phone.key n.path) n), ())) := by
  rcases behind_was hwas hn with hdead | ⟨hlive, rfl⟩
  · refine Or.inl ⟨hdead, ?_⟩
    rw [KeyedStorage.Dead] at hdead
    dsimp only [KeyedStorage.session]
    rw [hdead]
  · refine Or.inr ⟨not_dead_key hn, ?_⟩
    dsimp only [KeyedStorage.session]
    rw [hlive]

variable (value) in
/-- An attempt on a resolved handle. -/
theorem attempt_resolved {handle : ObjectHandle} {m m' : Memory Unit T} (hn : n ∈ phone.nodes)
    (hwas : phone.Was handle n.path)
    (hresolve : resolve (phone.session value) root path m = (.ok handle, m')) :
    ∃ m'', m''.cache = m'.cache ∧
      ((phone.Dead handle ∧ attempt (phone.session value) root path m = (.error (.mtp .staleHandle), m'')) ∨
        (¬phone.Dead handle ∧
          attempt (phone.session value) root path m = (.ok (value (phone.key n.path) n), m''))) := by
  unfold attempt
  rw [hresolve]
  dsimp only
  rcases op_was value hn hwas with ⟨hdead, hop⟩ | ⟨hlive, hop⟩
  · refine ⟨⟨m'.cache, (), m'.calls ++ [.op handle (.error .staleHandle)]⟩, rfl, Or.inl ⟨hdead, ?_⟩⟩
    rw [hop]
    rfl
  · refine ⟨⟨m'.cache, (), m'.calls ++ [.op handle (.ok (value (phone.key n.path) n))]⟩, rfl,
      Or.inr ⟨hlive, ?_⟩⟩
    rw [hop]

variable (value) in
/-- An attempt on a path that is not cached goes as far as the walk to it. -/
theorem attempt_uncached {m : Memory Unit T} (hn : n ∈ phone.nodes)
    (hpath : n.path = folder ++ path.segments) (hne : path.segments ≠ [])
    (hroot : StandsFor phone root folder) (hknown : KnownOn phone folder path m.cache)
    (huncached : m.cache path = none) :
    ∃ r m', attempt (phone.session value) root path m = (r, m') ∧
      Refreshed phone folder path m.cache m'.cache ∧
      (((∀ j, ¬phone.Blocked root path m.cache j) ∧ r = .ok (value (phone.key n.path) n)) ∨
        ∃ j, phone.BlockedFirst root path m.cache j ∧ m'.cache (path.take (j + 1)) = none ∧
          ((phone.AnswersStale root path m.cache j ∧ r = .error (.mtp .staleHandle)) ∨
            (¬phone.AnswersStale root path m.cache j ∧
              r = .error (.sourceVanished (path.take (j + 1)))))) := by
  have hpos : 0 < path.segments.length := List.length_pos_iff.mpr hne
  -- uncached, it is the walk from the root
  have hwalk := walk_keyed value root hn hpath hknown huncached 0 root m hpos
    (by simpa using hroot) (fun _ _ => Iff.rfl) (fun _ _ _ => rfl)
  have hresolve := walkDown_eq_resolve (phone.session value) root huncached hne
  have hstart : path.take 0 = RelPath.root := rfl
  rw [List.drop_zero, hstart, hresolve] at hwalk
  obtain ⟨hrefreshed, hends⟩ := hwalk
  rcases hrun : resolve (phone.session value) root path m with ⟨r, m'⟩
  rw [hrun] at hrefreshed hends
  rcases hends with ⟨hopen, hok⟩ | ⟨j, -, hblocked, hfirst, hget, hwhy⟩
  · obtain ⟨handle, rfl, hkey⟩ : ∃ handle, r = .ok handle ∧ handle = phone.key n.path := by
      cases r with
      | error e => exact absurd hok (by simp [Except.map])
      | ok handle =>
        refine ⟨handle, rfl, ?_⟩
        rw [hpath]
        exact Option.some.inj (Except.ok.inj hok)
    have hwas : phone.Was handle n.path := ⟨phone.key, phone.current, hkey⟩
    obtain ⟨m'', hcache, hdone⟩ := attempt_resolved value hn hwas hrun
    rcases hdone with ⟨hdead, -⟩ | ⟨-, hattempt⟩
    · rw [hkey] at hdead
      exact absurd hdead (not_dead_key hn)
    · refine ⟨_, m'', hattempt, ?_, Or.inl ⟨fun j => hopen j (Nat.zero_le j), rfl⟩⟩
      rw [hcache]
      exact hrefreshed
  · have hfails (e : Error) (he : r.map some = .error e) :
        attempt (phone.session value) root path m = (.error e, m') := by
      obtain rfl : r = .error e := by
        cases r with
        | error e' => exact congrArg Except.error (Except.error.inj he)
        | ok handle => exact absurd he (by simp [Except.map])
      unfold attempt
      rw [hrun]
    have hfirst' : phone.BlockedFirst root path m.cache j :=
      ⟨hblocked, fun k hk => hfirst k (Nat.zero_le k) hk⟩
    rcases hwhy with ⟨hstale, he⟩ | ⟨hquiet, he⟩
    · exact ⟨_, m', hfails _ he, hrefreshed, Or.inr ⟨j, hfirst', hget, Or.inl ⟨hstale, rfl⟩⟩⟩
    · exact ⟨_, m', hfails _ he, hrefreshed, Or.inr ⟨j, hfirst', hget, Or.inr ⟨hquiet, rfl⟩⟩⟩

/-- An attempt on an empty cache walks all the way from the transfer root. -/
theorem blocked_empty {i : ℕ} (hi : i < path.segments.length) (cache : HandleCache) :
    phone.Blocked root path .empty i ↔
      (i = 0 ∧ phone.Cut root path cache 0) ∨ isReservedName path.segments[i] = true := by
  have hname : path.segments.getD i "" = path.segments[i] := by
    rw [List.getD_eq_getElem?_getD, List.getElem?_eq_getElem hi, Option.getD_some]
  have hcut : phone.Cut root path .empty i ↔ i = 0 ∧ phone.Cut root path cache 0 := by
    rcases Nat.eq_zero_or_pos i with rfl | hpos
    · exact ⟨fun h => ⟨rfl, h⟩, fun h => h.2⟩
    · refine ⟨?_, fun h => absurd h.1 (Nat.ne_of_gt hpos)⟩
      rintro ⟨handle, hget, -⟩
      rw [HandleCache.known, if_neg (Nat.ne_of_gt hpos)] at hget
      exact absurd hget (by simp [HandleCache.empty])
  rw [KeyedStorage.Blocked, hname, hcut]
  exact ⟨fun h => h.2.2, fun h => ⟨hi, rfl, h⟩⟩

variable (value) in
/-- On an empty cache the object is found where the root is live and every name is listed. -/
theorem attempt_empty {m : Memory Unit T} (hn : n ∈ phone.nodes)
    (hpath : n.path = folder ++ path.segments) (hne : path.segments ≠ [])
    (hroot : StandsFor phone root folder) (cache : HandleCache) (hempty : m.cache = .empty) :
    (attempt (phone.session value) root path m).1 = .ok (value (phone.key n.path) n) ↔
      ¬phone.Cut root path cache 0 ∧ ∀ name ∈ path.segments, isReservedName name = false := by
  have hpos : 0 < path.segments.length := List.length_pos_iff.mpr hne
  have hknown : KnownOn phone folder path m.cache := by
    intro j hj hle handle hget
    rw [hempty] at hget
    exact absurd hget (by simp [HandleCache.empty])
  obtain ⟨r, m', hattempt, -, hends⟩ := attempt_uncached value hn hpath hne hroot hknown
    (by rw [hempty]; rfl)
  rw [hattempt, hempty] at *
  constructor
  · rintro rfl
    rcases hends with ⟨hopen, -⟩ | ⟨j, -, -, ⟨-, hr⟩ | ⟨-, hr⟩⟩
    · refine ⟨fun hcut => hopen 0 ((blocked_empty hpos cache).mpr (Or.inl ⟨rfl, hcut⟩)), ?_⟩
      intro name hname
      obtain ⟨i, hi, rfl⟩ := List.getElem_of_mem hname
      rw [← Bool.not_eq_true]
      exact fun hreserved => hopen i ((blocked_empty hi cache).mpr (Or.inr hreserved))
    · cases hr
    · cases hr
  · rintro ⟨hlive, hlisted⟩
    rcases hends with ⟨-, hr⟩ | ⟨j, ⟨hblocked, -⟩, -⟩
    · exact hr
    · have hj : j < path.segments.length := hblocked.1
      rcases (blocked_empty hj cache).mp hblocked with ⟨-, hcut⟩ | hreserved
      · exact absurd hcut hlive
      · rw [hlisted _ (List.getElem_mem hj)] at hreserved
        exact absurd hreserved (by simp)

/-- A stale walk is stale again on what it left in the cache. -/
theorem stale_again {before after : HandleCache} {j : ℕ}
    (hrefreshed : Refreshed phone folder path before after) (hn : n ∈ phone.nodes)
    (hpath : n.path = folder ++ path.segments) (hfirst : phone.BlockedFirst root path before j)
    (hget : after (path.take (j + 1)) = none) (hstale : phone.AnswersStale root path before j) :
    phone.BlockedFirst root path after j ∧ phone.AnswersStale root path after j := by
  obtain ⟨⟨hj, -, -⟩, hbefore⟩ := hfirst
  -- a dead handle before the walk is the same after it, and no dead one is added
  have hsame (i : ℕ) (hi : i ≤ path.segments.length) (dead : ObjectHandle) (hdead : phone.Dead dead) :
      after.known root path i = some dead ↔ before.known root path i = some dead := by
    unfold HandleCache.known
    rcases Nat.eq_zero_or_pos i with rfl | hpos
    · exact Iff.rfl
    · rw [if_neg (Nat.ne_of_gt hpos), if_neg (Nat.ne_of_gt hpos)]
      exact hrefreshed.dead hn hpath hi hdead
  have hstale' : phone.AnswersStale root path after j := by
    obtain ⟨dead, hknown, hdead, hanswer⟩ := hstale
    exact ⟨dead, (hsame j hj.le dead hdead).mpr hknown, hdead, hanswer⟩
  refine ⟨⟨⟨hj, hget, ?_⟩, ?_⟩, hstale'⟩
  · obtain ⟨dead, hknown, hdead, -⟩ := hstale'
    exact Or.inl ⟨dead, hknown, hdead⟩
  · rintro k hk ⟨hlt, hnone, hwhy⟩
    refine hbefore k hk ⟨hlt, ?_, ?_⟩
    · rcases hrefreshed (k + 1) hlt with hkept | ⟨-, hnone', -⟩
      · exact hkept.symm.trans hnone
      · exact hnone'
    · rcases hwhy with ⟨dead, hknown, hdead⟩ | hreserved
      · exact Or.inl ⟨dead, (hsame k hlt.le dead hdead).mp hknown, hdead⟩
      · exact Or.inr hreserved

/-- The same once the path itself is forgotten. -/
theorem stale_forgotten {before after : HandleCache} {j : ℕ} (hn : n ∈ phone.nodes)
    (hpath : n.path = folder ++ path.segments) (hget : before path = none)
    (hrefreshed : Refreshed phone folder path before after) (hfirst : phone.BlockedFirst root path before j)
    (hstop : after (path.take (j + 1)) = none) (hstale : phone.AnswersStale root path before j) :
    phone.BlockedFirst root path (after.remove path) j ∧
      phone.AnswersStale root path (after.remove path) j := by
  have hforgot : Refreshed phone folder path before (after.remove path) := by
    intro i hi
    rcases Nat.lt_or_eq_of_le hi with hlt | rfl
    · rw [remove_take _ hlt]
      exact hrefreshed i hi
    · rw [RelPath.take_length, remove_self, hget]
      exact Or.inl rfl
  apply stale_again hforgot hn hpath hfirst ?_ hstale
  rcases Nat.lt_or_eq_of_le (show j + 1 ≤ path.segments.length from hfirst.1.1) with hlt | heq
  · rw [remove_take _ hlt]
    exact hstop
  · rw [heq, RelPath.take_length, remove_self]

/-- The probe of the parent tells whether the handle held for it is dead. -/
theorem parentIsStale_keyed {parent : RelPath} {d : DeviceNode} {m : Memory Unit T}
    (hparent : path.parent = some parent) (hd : d ∈ phone.nodes)
    (hwas : ∀ handle, m.cache parent = some handle → phone.Was handle d.path) :
    ∃ m', m'.cache = m.cache ∧
      (((∃ dead, m.cache parent = some dead ∧ phone.Dead dead) ∧
          parentIsStale (phone.session value) path m = (true, m')) ∨
        ((¬∃ dead, m.cache parent = some dead ∧ phone.Dead dead) ∧
          parentIsStale (phone.session value) path m = (false, m'))) := by
  unfold parentIsStale
  rw [hparent, Option.bind_some]
  cases hget : m.cache parent with
  | none =>
    refine ⟨m, rfl, Or.inr ⟨?_, rfl⟩⟩
    rintro ⟨dead, hdead, -⟩
    exact absurd hdead (by simp)
  | some handle =>
    dsimp only [KeyedStorage.session]
    unfold KeyedStorage.getObjectInfo
    -- the answer of the device is what tells a dead handle
    rcases behind_was (hwas handle hget) hd with hdead | ⟨hlive, hkey⟩
    · refine ⟨⟨m.cache, (), m.calls ++ [.probe handle (.error .staleHandle)]⟩, rfl,
        Or.inl ⟨⟨handle, rfl, hdead⟩, ?_⟩⟩
      rw [KeyedStorage.Dead] at hdead
      rw [hdead]
      rfl
    · refine ⟨⟨m.cache, (), m.calls ++ [.probe handle (.ok (DeviceObjects.info phone.key d))]⟩, rfl,
        Or.inr ⟨?_, ?_⟩⟩
      · rintro ⟨dead, hsome, hdead⟩
        obtain rfl := Option.some.inj hsome
        rw [hkey] at hdead
        exact not_dead_key hd hdead
      · rw [hlive]

/-- What is enough for a recovery to find the object, and needed. -/
def RecoversFrom (phone : KeyedStorage) (root : Option ObjectHandle) (path : RelPath)
    (cache : HandleCache) : Prop :=
  (∀ i, ¬phone.Blocked root path (cache.remove path) i) ∨
    (¬phone.Cut root path cache 0 ∧ (∀ name ∈ path.segments, isReservedName name = false) ∧
      ((1 < path.segments.length ∧ phone.Cut root path cache (path.segments.length - 1)) ∨
        ∃ i, phone.BlockedFirst root path (cache.remove path) i ∧
          phone.AnswersStale root path (cache.remove path) i))

theorem blockedFirst_unique {cache : HandleCache} {i j : ℕ} (hi : phone.BlockedFirst root path cache i)
    (hj : phone.BlockedFirst root path cache j) : i = j := by
  rcases Nat.lt_trichotomy i j with hlt | heq | hlt
  · exact absurd hi.1 (hj.2 i hlt)
  · exact heq
  · exact absurd hj.1 (hi.2 j hlt)

variable (value root) in
/-- After a walk that found nothing, the probe of the parent tells whether the parent was held
by a dead handle before. -/
theorem probe_keyed {m m₂ : Memory Unit T} (hn : n ∈ phone.nodes)
    (hpath : n.path = folder ++ path.segments) (hne : path.segments ≠ [])
    (hknown : KnownOn phone folder path m.cache) (huncached : m.cache RelPath.root = none)
    (hrefreshed : Refreshed phone folder path (m.cache.remove path) m₂.cache) :
    ∃ m₃, ((1 < path.segments.length ∧ phone.Cut root path m.cache (path.segments.length - 1)) ∧
        parentIsStale (phone.session value) path m₂ = (true, m₃)) ∨
      (¬(1 < path.segments.length ∧ phone.Cut root path m.cache (path.segments.length - 1)) ∧
        parentIsStale (phone.session value) path m₂ = (false, m₃)) := by
  have hpos : 0 < path.segments.length := List.length_pos_iff.mpr hne
  have hparent := RelPath.parent_take hne
  by_cases hdeep : 1 < path.segments.length
  · have hbelow : path.segments.length - 1 < path.segments.length := by omega
    obtain ⟨d, hd, hdpath⟩ := object_on hn hpath (by omega) hbelow.le
    have hwas : ∀ handle, m₂.cache (path.take (path.segments.length - 1)) = some handle →
        phone.Was handle d.path := by
      intro handle hsome
      rw [hdpath]
      exact (hknown.remove.refreshed hrefreshed) _ (by omega) hbelow.le handle hsome
    have hcut : phone.Cut root path m.cache (path.segments.length - 1) ↔
        ∃ dead, m₂.cache (path.take (path.segments.length - 1)) = some dead ∧ phone.Dead dead := by
      unfold KeyedStorage.Cut
      rw [HandleCache.known, if_neg (by omega)]
      refine exists_congr fun dead => and_congr_left fun hdead => ?_
      rw [hrefreshed.dead hn hpath hbelow.le hdead, remove_take m.cache hbelow]
    obtain ⟨m₃, -, hverdict⟩ := parentIsStale_keyed hparent hd hwas
    refine ⟨m₃, ?_⟩
    rw [hcut]
    rcases hverdict with ⟨hdead, hprobe⟩ | ⟨hlive, hprobe⟩
    · exact Or.inl ⟨⟨hdeep, hdead⟩, hprobe⟩
    · exact Or.inr ⟨fun h => hlive h.2, hprobe⟩
  · -- directly under the root nothing is held for the parent
    have hzero : path.segments.length - 1 = 0 := by omega
    rw [hzero] at hparent
    have hnone : m₂.cache (path.take 0) = none := by
      rcases hrefreshed 0 (Nat.zero_le _) with hkept | ⟨hpos', -⟩
      · rw [hkept, remove_take m.cache hpos]
        exact huncached
      · exact absurd hpos' (by omega)
    refine ⟨m₂, Or.inr ⟨fun h => hdeep h.1, ?_⟩⟩
    rw [parentIsStale, hparent, Option.bind_some, hnone]

variable (value) in
theorem recover_keyed {m : Memory Unit T} (hn : n ∈ phone.nodes)
    (hpath : n.path = folder ++ path.segments) (hne : path.segments ≠ [])
    (hroot : StandsFor phone root folder) (hknown : KnownOn phone folder path m.cache)
    (huncached : m.cache RelPath.root = none) :
    (recover (phone.session value) root path m).1 = .ok (value (phone.key n.path) n) ↔
      RecoversFrom phone root path m.cache := by
  obtain ⟨r, m₂, hattempt, hrefreshed, hends⟩ := attempt_uncached value (m := m.forget path) hn hpath hne
    hroot hknown.remove (remove_self _ _)
  have hforgot : (m.forget path).cache = m.cache.remove path := rfl
  rw [hforgot] at hrefreshed hends
  have hthird (m₃ : Memory Unit T) : (attempt (phone.session value) root path m₃.clear).1 =
      .ok (value (phone.key n.path) n) ↔
        ¬phone.Cut root path m.cache 0 ∧ ∀ name ∈ path.segments, isReservedName name = false :=
    attempt_empty value hn hpath hne hroot m.cache rfl
  unfold recover
  rw [hattempt]
  dsimp only
  rcases hends with ⟨hopen, rfl⟩ | ⟨j, hfirst, hget, ⟨hstale, rfl⟩ | ⟨hquiet, rfl⟩⟩
  · -- found at the second attempt
    exact ⟨fun _ => Or.inl hopen, fun _ => rfl⟩
  · -- a stale answer empties the cache
    have hrekeyed : rekeyed (phone.session value) path (.error (.mtp .staleHandle)) m₂ = (true, m₂) := rfl
    rw [hrekeyed]
    dsimp only
    rw [hthird]
    constructor
    · rintro ⟨hlive, hlisted⟩
      exact Or.inr ⟨hlive, hlisted, Or.inr ⟨j, hfirst, hstale⟩⟩
    · rintro (hopen | ⟨hlive, hlisted, -⟩)
      · exact absurd hfirst.1 (hopen j)
      · exact ⟨hlive, hlisted⟩
  · -- nothing found: the parent is probed
    have hrekeyed : rekeyed (phone.session value) path (.error (.sourceVanished (path.take (j + 1)))) m₂ =
        parentIsStale (phone.session value) path m₂ := rfl
    rw [hrekeyed]
    obtain ⟨m₃, ⟨hcut, hprobe⟩ | ⟨hnot, hprobe⟩⟩ :=
      probe_keyed value root hn hpath hne hknown huncached hrefreshed
    · rw [hprobe]
      dsimp only
      rw [hthird]
      constructor
      · rintro ⟨hlive, hlisted⟩
        exact Or.inr ⟨hlive, hlisted, Or.inl hcut⟩
      · rintro (hopen | ⟨hlive, hlisted, -⟩)
        · exact absurd hfirst.1 (hopen j)
        · exact ⟨hlive, hlisted⟩
    · rw [hprobe]
      constructor
      · intro h
        cases h
      · rintro (hopen | ⟨-, -, hcut | ⟨i, hi, hstale⟩⟩)
        · exact absurd hfirst.1 (hopen j)
        · exact absurd hcut hnot
        · obtain rfl := blockedFirst_unique hi hfirst
          exact absurd hstale hquiet

theorem isStaleHandle_mtp : (Error.mtp .staleHandle).isStaleHandle = true := rfl

/-- The transfer root itself is only ever known by the handle it was opened with. -/
theorem withHandle_root {m : Memory Unit T} (hn : n ∈ phone.nodes) (hpath : n.path = folder)
    (hroot : StandsFor phone root folder) (huncached : m.cache RelPath.root = none) :
    (withHandle (phone.session value) root RelPath.root m).1 = .ok (value (phone.key n.path) n) ↔
      phone.Recoverable root RelPath.root m.cache := by
  rcases hroot with ⟨-, hnil⟩ | ⟨handle, d, rfl, hwas, -⟩
  · exact absurd (hpath.trans hnil) (phone.named n hn)
  · rw [← hpath] at hwas
    have hresolve (m' : Memory Unit T) (hnone : m'.cache RelPath.root = none) :
        resolve (phone.session value) (some handle) RelPath.root m' = (.ok handle, m') := by
      unfold resolve
      rw [hnone]
      rfl
    have hrecoverable : phone.Recoverable (some handle) RelPath.root m.cache ↔ ¬phone.Dead handle := by
      constructor
      · rintro (⟨known, hknown, hlive⟩ | ⟨hne, -⟩ | ⟨hlive, -⟩)
        · obtain rfl := Option.some.inj hknown
          exact hlive
        · exact absurd rfl hne
        · exact fun hdead => hlive ⟨handle, rfl, hdead⟩
      · exact fun hlive => Or.inl ⟨handle, rfl, hlive⟩
    rw [hrecoverable]
    obtain ⟨m₁, hcache₁, hfirst⟩ := attempt_resolved value hn hwas (hresolve m huncached)
    unfold withHandle
    rcases hfirst with ⟨hdead, hattempt⟩ | ⟨hlive, hattempt⟩
    · -- dead at the first attempt, and at every other
      have hstill (m' : Memory Unit T) (hnone : m'.cache RelPath.root = none) :
          ∃ m'', attempt (phone.session value) (some handle) RelPath.root m' =
            (.error (.mtp .staleHandle), m'') := by
        obtain ⟨m'', -, hattempt' | ⟨hlive, -⟩⟩ := attempt_resolved value hn hwas (hresolve m' hnone)
        · exact ⟨m'', hattempt'.2⟩
        · exact absurd hdead hlive
      obtain ⟨m₂, hsecond⟩ := hstill (m₁.forget RelPath.root) (remove_self m₁.cache RelPath.root)
      obtain ⟨m₃, hthird⟩ := hstill m₂.clear rfl
      have hrekeyed : rekeyed (phone.session value) RelPath.root (.error (.mtp .staleHandle)) m₂ =
          (true, m₂) := rfl
      rw [hattempt]
      dsimp only
      rw [if_pos isStaleHandle_mtp]
      unfold recover
      rw [hsecond]
      dsimp only
      rw [hrekeyed]
      dsimp only
      rw [hthird]
      exact ⟨fun h => absurd h (by simp), fun h => absurd hdead h⟩
    · rw [hattempt]
      exact ⟨fun _ => hlive, fun _ => rfl⟩

theorem withHandle_ok_iff {m : Memory Unit T} (hn : n ∈ phone.nodes)
    (hpath : n.path = folder ++ path.segments) (hroot : StandsFor phone root folder)
    (hlearned : phone.Learned m.cache folder) :
    (withHandle (phone.session value) root path m).1 = .ok (value (phone.key n.path) n) ↔
      phone.Recoverable root path m.cache := by
  have huncached : m.cache RelPath.root = none := by
    cases hget : m.cache RelPath.root with
    | none => rfl
    | some handle => exact absurd rfl (hlearned _ _ hget).1
  by_cases hne : path.segments = []
  · obtain rfl : path = RelPath.root := RelPath.segments_injective hne
    exact withHandle_root hn (by simpa [RelPath.root] using hpath) hroot huncached
  have hpos : 0 < path.segments.length := List.length_pos_iff.mpr hne
  have hknown : KnownOn phone folder path m.cache := fun j _ _ handle hget => (hlearned _ _ hget).2
  have hself : m.cache.known root path path.segments.length = m.cache path := by
    rw [HandleCache.known, if_neg (Nat.ne_of_gt hpos), RelPath.take_length]
  unfold withHandle KeyedStorage.Recoverable
  rw [hself]
  cases hget : m.cache path with
  | some handle =>
    have hwas : phone.Was handle n.path := hpath ▸ (hlearned path handle hget).2
    have hresolve : resolve (phone.session value) root path m = (.ok handle, m) := by
      unfold resolve
      rw [hget]
    obtain ⟨m₁, hcache, hfirst⟩ := attempt_resolved value hn hwas hresolve
    rcases hfirst with ⟨hdead, hattempt⟩ | ⟨hlive, hattempt⟩
    · -- the cached handle is dead: everything rests on the recovery
      have hrecover := recover_keyed value hn hpath hne hroot (m := m₁) (by rwa [hcache])
        (by rwa [hcache])
      rw [hattempt]
      dsimp only
      rw [if_pos isStaleHandle_mtp, hrecover, hcache, RecoversFrom]
      constructor
      · rintro (hopen | ⟨hlive, hlisted, hcut | hstale⟩)
        · exact Or.inr (Or.inl ⟨hne, hopen⟩)
        · exact Or.inr (Or.inr ⟨hlive, hlisted, Or.inl ⟨by simp, hcut⟩⟩)
        · exact Or.inr (Or.inr ⟨hlive, hlisted, Or.inr hstale⟩)
      · rintro (⟨known, hsome, hlive⟩ | ⟨-, hopen⟩ | ⟨hlive, hlisted, ⟨-, hcut⟩ | hstale⟩)
        · obtain rfl := Option.some.inj hsome
          exact absurd hdead hlive
        · exact Or.inl hopen
        · exact Or.inr ⟨hlive, hlisted, Or.inl hcut⟩
        · exact Or.inr ⟨hlive, hlisted, Or.inr hstale⟩
    · rw [hattempt]
      exact ⟨fun _ => Or.inl ⟨handle, rfl, hlive⟩, fun _ => rfl⟩
  | none =>
    have hremoved : m.cache.remove path = m.cache := by
      rw [HandleCache.remove, ← hget]
      exact Function.update_eq_self path m.cache
    rw [hremoved]
    obtain ⟨r, m₁, hattempt, hrefreshed, hends⟩ := attempt_uncached value hn hpath hne hroot hknown hget
    rw [hattempt]
    rcases hends with ⟨hopen, rfl⟩ | ⟨j, hfirst, hstop, ⟨hstale, rfl⟩ | ⟨hquiet, rfl⟩⟩
    · exact ⟨fun _ => Or.inr (Or.inl ⟨hne, hopen⟩), fun _ => rfl⟩
    · -- stale on the way, and again after the path is forgotten
      have hroot₁ : m₁.cache RelPath.root = none := by
        rcases hrefreshed 0 (Nat.zero_le _) with hkept | ⟨hzero, -⟩
        · exact hkept.trans huncached
        · exact absurd hzero (by omega)
      obtain ⟨hfirst', hstale'⟩ := stale_forgotten hn hpath hget hrefreshed hfirst hstop hstale
      have hrecover := recover_keyed value hn hpath hne hroot (hknown.refreshed hrefreshed) hroot₁
      dsimp only
      rw [if_pos isStaleHandle_mtp, hrecover, RecoversFrom]
      have hsamecut : phone.Cut root path m₁.cache 0 ↔ phone.Cut root path m.cache 0 := Iff.rfl
      rw [hsamecut]
      constructor
      · rintro (hopen | ⟨hlive, hlisted, -⟩)
        · exact absurd hfirst'.1 (hopen j)
        · exact Or.inr (Or.inr ⟨hlive, hlisted, Or.inr ⟨j, hfirst, hstale⟩⟩)
      · rintro (⟨known, hsome, -⟩ | ⟨-, hopen⟩ | ⟨hlive, hlisted, -⟩)
        · exact absurd hsome (by simp)
        · exact absurd hfirst.1 (hopen j)
        · exact Or.inr ⟨hlive, hlisted, Or.inr ⟨j, hfirst', hstale'⟩⟩
    · dsimp only
      rw [if_neg (by simp [Error.isStaleHandle])]
      -- vanished at the first attempt: nothing is tried again
      refine ⟨fun h => absurd h (by simp), ?_⟩
      rintro (⟨known, hsome, -⟩ | ⟨-, hopen⟩ | ⟨-, -, ⟨hcached, -⟩ | ⟨i, hi, hstale⟩⟩)
      · exact absurd hsome (by simp)
      · exact absurd hfirst.1 (hopen j)
      · exact absurd rfl hcached
      · obtain rfl := blockedFirst_unique hi hfirst
        exact absurd hstale hquiet

end Attempts

/-- After any re-keying, `with_handle` runs the operation on the object now at the path, and
reports it vanished only when it is, exactly where the cache and the root allow it. -/
theorem with_handle_recovers_iff {T : Type} (phone : KeyedStorage)
    (value : ObjectHandle → DeviceNode → T) (root : RemotePath) (k : Keying) (hk : k ∈ phone.keyings)
    (target : Target) (hopen : locateRoot (phone.stream k) root = .ok target) (path : RelPath)
    (m : Memory Unit T) (hlearned : phone.Learned m.cache (target.folderPath root)) :
    ((∀ n, phone.object (target.folderPath root ++ path.segments) = some n →
        (withHandle (phone.session value) target.folder path m).1 = .ok (value (phone.key n.path) n)) ∧
      ∀ gone, (withHandle (phone.session value) target.folder path m).1 = .error (.sourceVanished gone) →
        phone.object (target.folderPath root ++ path.segments) = none) ↔
      (phone.object (target.folderPath root ++ path.segments) ≠ none →
        phone.Recoverable target.folder path m.cache) := by
  have hroot : StandsFor phone target.folder (target.folderPath root) := locateRoot_stands hk hopen
  have hiff (n : DeviceNode) (hobject : phone.object (target.folderPath root ++ path.segments) = some n) :
      (withHandle (phone.session value) target.folder path m).1 = .ok (value (phone.key n.path) n) ↔
        phone.Recoverable target.folder path m.cache := by
    obtain ⟨hn, hpath⟩ := DeviceObjects.object_some hobject
    exact withHandle_ok_iff hn hpath hroot hlearned
  constructor
  · rintro ⟨hruns, -⟩ hexists
    obtain ⟨n, hobject⟩ := Option.ne_none_iff_exists'.mp hexists
    exact (hiff n hobject).mp (hruns n hobject)
  · intro hrecoverable
    have hruns (n : DeviceNode) (hobject : phone.object (target.folderPath root ++ path.segments) = some n) :
        (withHandle (phone.session value) target.folder path m).1 = .ok (value (phone.key n.path) n) :=
      (hiff n hobject).mpr (hrecoverable (by rw [hobject]; simp))
    refine ⟨hruns, fun gone hgone => ?_⟩
    cases hobject : phone.object (target.folderPath root ++ path.segments) with
    | none => rfl
    | some n => exact absurd ((hruns n hobject).symm.trans hgone) (by simp)

private def photo : DeviceNode := ⟨["DCIM", "a.jpg"], false, 3, none⟩

private def beforeScan : Keying := fun path => ⟨path.length⟩

private def afterScan : Keying := fun path => ⟨10 + path.length⟩

/-- One photo in one folder; a media scan gave both new handles, and a listing under an old
one yields nothing. -/
private def rescanned : KeyedStorage where
  nodes := [⟨["DCIM"], true, 0, none⟩, photo]
  refused := fun _ => []
  distinct := by decide
  named := by decide
  inside := by decide
  keyings := [afterScan, beforeScan]
  key := afterScan
  current := List.mem_cons_self
  fresh := by decide
  staleListing := fun _ => false

private def handleOf (handle : ObjectHandle) (_ : DeviceNode) : ObjectHandle := handle

private def dcimPath : RelPath := .ofSegments ["DCIM"]

private theorem photo_valid : ∀ segment ∈ ["DCIM", "a.jpg"], validateSegment segment = .ok () := by
  decide

private def photoPath : RelPath := .ofSegments ["DCIM", "a.jpg"] photo_valid

/-- What a scan of the whole storage learned before the media scan. -/
private def scannedBefore : Memory Unit ObjectHandle where
  cache q := if q = dcimPath then some ⟨1⟩ else if q = photoPath then some ⟨2⟩ else none
  device := ()
  calls := []

private theorem scannedBefore_learned : rescanned.Learned scannedBefore.cache [] := by
  intro q handle hget
  have hkey : beforeScan ∈ rescanned.keyings := List.mem_cons_of_mem _ List.mem_cons_self
  simp only [scannedBefore] at hget
  split at hget
  · rename_i hq
    obtain rfl := Option.some.inj hget
    rw [hq]
    exact ⟨by decide, beforeScan, hkey, rfl⟩
  · split at hget
    · rename_i hq
      obtain rfl := Option.some.inj hget
      rw [hq]
      exact ⟨by decide, beforeScan, hkey, rfl⟩
    · exact absurd hget (by simp)

/-- Under the storage root, the folder and the photo that were both given new handles are
found again. -/
theorem with_handle_recovers_iff_rescanned :
    (withHandle (rescanned.session handleOf) none photoPath scannedBefore).1 = .ok ⟨12⟩ := by
  have hopen : locateRoot (rescanned.stream beforeScan) RemotePath.root = .ok ⟨none, none⟩ := rfl
  have hrecoverable : rescanned.Recoverable none photoPath scannedBefore.cache := by
    refine Or.inr (Or.inr ⟨?_, by decide, Or.inl ⟨by decide, by decide, ⟨1⟩, rfl, by decide⟩⟩)
    rintro ⟨handle, hknown, -⟩
    exact absurd hknown (by simp [HandleCache.known])
  exact ((with_handle_recovers_iff rescanned handleOf RemotePath.root beforeScan
    (List.mem_cons_of_mem _ List.mem_cons_self) ⟨none, none⟩ hopen photoPath scannedBefore
    scannedBefore_learned).mpr fun _ => hrecoverable).1 photo rfl

/-- A transfer rooted at the folder itself keeps the folder's old handle: the photo is there,
and is reported gone. -/
theorem with_handle_loses_photo :
    locateRoot (rescanned.stream beforeScan) ⟨dcimPath⟩ = .ok ⟨some ⟨1⟩, none⟩ ∧
      rescanned.Learned HandleCache.empty ["DCIM"] ∧
      rescanned.object (["DCIM"] ++ ["a.jpg"]) = some photo ∧
      (withHandle (rescanned.session handleOf) (some ⟨1⟩) (.ofSegments ["a.jpg"]) ⟨.empty, (), []⟩).1 =
        .error (.sourceVanished (.ofSegments ["a.jpg"])) := by
  refine ⟨rfl, ?_, rfl, rfl⟩
  intro q handle hget
  exact absurd hget (by simp [HandleCache.empty])

end MtpxCore
