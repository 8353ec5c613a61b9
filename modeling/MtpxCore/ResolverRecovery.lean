import MtpxCore.ResolverModel

/-! What a recovery may do, read off the calls it makes: attempts, probes and their answers.
Every attempt appends its calls to the log, and the log tells why the next one was made. -/
namespace MtpxCore

variable {σ T : Type}

/-- Listings that were answered. -/
def listings (answered : List (RelPath × Collection)) : List (DeviceCall T) :=
  answered.map (fun listing => .list listing.1 (.ok listing.2))

/-- The calls of one attempt and how it ends: listings, then the operation once, unless an
ancestor could not be resolved. Only a listing tells that something is gone. -/
inductive Attempt : List (DeviceCall T) → Except Error T → Prop
  | ran (answered : List (RelPath × Collection)) (handle : ObjectHandle) (value : T) :
      Attempt (listings answered ++ [.op handle (.ok value)]) (.ok value)
  | failed (answered : List (RelPath × Collection)) (handle : ObjectHandle) (e : MtpError) :
      Attempt (listings answered ++ [.op handle (.error e)]) (.error (.ofMtp e))
  | unlisted (answered : List (RelPath × Collection)) (parent : RelPath) (e : MtpError) :
      Attempt (listings answered ++ [.list parent (.error e)]) (.error (.ofMtp e))
  | vanished (answered : List (RelPath × Collection)) (gone : RelPath) : answered ≠ [] →
      Attempt (listings answered) (.error (.sourceVanished gone))
  | unsupported (answered : List (RelPath × Collection)) (what : String) :
      Attempt (listings answered) (.error (.unsupported what))
  | invalid (answered : List (RelPath × Collection)) (reason : PathError) :
      Attempt (listings answered) (.error (.invalidPath reason))

/-- An outcome that asks for another attempt. -/
def Stale (result : Except Error T) : Prop := ∃ e, result = .error e ∧ e.isStaleHandle = true

/-- One of the listings in the log reports `handle` for `path`. -/
def Reports (log : List (DeviceCall T)) (path : RelPath) (handle : ObjectHandle) : Prop :=
  ∃ parent collection, .list parent (.ok collection) ∈ log ∧
    (path, handle) ∈ reported parent collection.objects

/-- Every path keeps its handle or takes one that the log reports. -/
def Keeps (log : List (DeviceCall T)) (before after : HandleCache) (path : RelPath) : Prop :=
  after path = before path ∨ ∃ handle, after path = some handle ∧ Reports log path handle

/-- The log of a run that ends within two attempts. A second attempt that found nothing may
have been followed by a probe, of a handle the cache held for the parent, that was answered. -/
inductive Answered (before : HandleCache) (path : RelPath) : List (DeviceCall T) → Except Error T → Prop
  | first {log : List (DeviceCall T)} {result : Except Error T} :
      Attempt log result → ¬Stale result → Answered before path log result
  | second {a b : List (DeviceCall T)} {r result : Except Error T} : Attempt a r → Stale r →
      Attempt b result → ¬Stale result → Answered before path (a ++ b) result
  | probed {a b : List (DeviceCall T)} {r : Except Error T} {gone parent : RelPath}
      {handle : ObjectHandle} {answer : Except MtpError ObjectInfo} : Attempt a r → Stale r →
      Attempt b (.error (.sourceVanished gone)) → path.parent = some parent →
      (before parent = some handle ∨ Reports (a ++ b) parent handle) →
      answer ≠ .error .staleHandle →
      Answered before path (a ++ b ++ [.probe handle answer]) (.error (.sourceVanished gone))

/-- The log of a run whose second attempt was stale, or found nothing while the handle held
for the parent answered that it is stale: a third attempt, and no more. -/
inductive Rebuilt (before : HandleCache) (path : RelPath) : List (DeviceCall T) → Except Error T → Prop
  | stale {a b c : List (DeviceCall T)} {r s result : Except Error T} : Attempt a r → Stale r →
      Attempt b s → Stale s → Attempt c result → Rebuilt before path (a ++ b ++ c) result
  | parent {a b c : List (DeviceCall T)} {r result : Except Error T} {gone parent : RelPath}
      {handle : ObjectHandle} : Attempt a r → Stale r → Attempt b (.error (.sourceVanished gone)) →
      path.parent = some parent → (before parent = some handle ∨ Reports (a ++ b) parent handle) →
      Attempt c result →
      Rebuilt before path (a ++ b ++ [.probe handle (.error .staleHandle)] ++ c) result

def DeviceCall.isOp : DeviceCall T → Bool
  | .op _ _ => true
  | _ => false

/-- How often the operation was run. -/
def runsOf (log : List (DeviceCall T)) : ℕ := log.countP DeviceCall.isOp

section Logs

variable {before after later : HandleCache} {path : RelPath} {a b : List (DeviceCall T)}
  {result : Except Error T}

@[simp] theorem listings_append (p q : List (RelPath × Collection)) :
    (listings (p ++ q) : List (DeviceCall T)) = listings p ++ listings q :=
  List.map_append

@[simp] theorem runsOf_append (a b : List (DeviceCall T)) : runsOf (a ++ b) = runsOf a + runsOf b :=
  List.countP_append

@[simp] theorem runsOf_listings (p : List (RelPath × Collection)) :
    runsOf (listings p : List (DeviceCall T)) = 0 := by
  rw [runsOf, List.countP_eq_zero]
  intro call hcall
  obtain ⟨listing, -, rfl⟩ := List.mem_map.mp hcall
  simp [DeviceCall.isOp]

@[simp] theorem runsOf_op (handle : ObjectHandle) (answer : Except MtpError T) :
    runsOf [.op handle answer] = 1 := rfl

@[simp] theorem runsOf_list (parent : RelPath) (answer : Except MtpError Collection) :
    runsOf ([.list parent answer] : List (DeviceCall T)) = 0 := rfl

@[simp] theorem runsOf_probe (handle : ObjectHandle) (answer : Except MtpError ObjectInfo) :
    runsOf ([.probe handle answer] : List (DeviceCall T)) = 0 := rfl

/-- An attempt runs the operation once at most. -/
theorem Attempt.runsOf_le (h : Attempt a result) : runsOf a ≤ 1 := by
  cases h <;> simp

theorem Answered.runsOf_le (h : Answered before path a result) : runsOf a ≤ 2 := by
  cases h with
  | first ha =>
    have := ha.runsOf_le
    omega
  | second ha _ hb =>
    have h₁ := ha.runsOf_le
    have h₂ := hb.runsOf_le
    rw [runsOf_append]
    omega
  | probed ha _ hb =>
    have h₁ := ha.runsOf_le
    have h₂ := hb.runsOf_le
    rw [runsOf_append, runsOf_append, runsOf_probe]
    omega

theorem Rebuilt.runsOf_le (h : Rebuilt before path a result) : runsOf a ≤ 3 := by
  cases h with
  | stale ha _ hb _ hc =>
    have h₁ := ha.runsOf_le
    have h₂ := hb.runsOf_le
    have h₃ := hc.runsOf_le
    rw [runsOf_append, runsOf_append]
    omega
  | parent ha _ hb _ _ hc =>
    have h₁ := ha.runsOf_le
    have h₂ := hb.runsOf_le
    have h₃ := hc.runsOf_le
    rw [runsOf_append, runsOf_append, runsOf_append, runsOf_probe]
    omega

theorem Reports.append_left (h : Reports a path handle) : Reports (a ++ b) path handle := by
  obtain ⟨parent, collection, hmem, hreported⟩ := h
  exact ⟨parent, collection, List.mem_append_left b hmem, hreported⟩

theorem Reports.append_right (h : Reports b path handle) : Reports (a ++ b) path handle := by
  obtain ⟨parent, collection, hmem, hreported⟩ := h
  exact ⟨parent, collection, List.mem_append_right a hmem, hreported⟩

/-- Two stretches of a run keep what each of them keeps. -/
theorem Keeps.trans (h₁ : Keeps a before after path) (h₂ : Keeps b after later path) :
    Keeps (a ++ b) before later path := by
  rcases h₂ with hsame | ⟨handle, hget, hreports⟩
  · rcases h₁ with hsame' | ⟨handle, hget, hreports⟩
    · exact Or.inl (hsame.trans hsame')
    · exact Or.inr ⟨handle, hsame.trans hget, hreports.append_left⟩
  · exact Or.inr ⟨handle, hget, hreports.append_right⟩

theorem Keeps.held (h : Keeps a before after path) {handle : ObjectHandle}
    (hget : after path = some handle) : before path = some handle ∨ Reports a path handle := by
  rcases h with hsame | ⟨other, hother, hreports⟩
  · exact Or.inl (hsame.symm.trans hget)
  · obtain rfl : other = handle := Option.some.inj (hother.symm.trans hget)
    exact Or.inr hreports

end Logs

/-- The calls made on the way to a handle, and how the way ends. -/
inductive Searched {α : Type} : List (DeviceCall T) → Except Error α → Prop
  | found (answered : List (RelPath × Collection)) (a : α) : Searched (listings answered) (.ok a)
  | unlisted (answered : List (RelPath × Collection)) (parent : RelPath) (e : MtpError) :
      Searched (listings answered ++ [.list parent (.error e)]) (.error (.ofMtp e))
  | vanished (answered : List (RelPath × Collection)) (gone : RelPath) : answered ≠ [] →
      Searched (listings answered) (.error (.sourceVanished gone))
  | unsupported (answered : List (RelPath × Collection)) (what : String) :
      Searched (listings answered) (.error (.unsupported what))
  | invalid (answered : List (RelPath × Collection)) (reason : PathError) :
      Searched (listings answered) (.error (.invalidPath reason))

/-- What a step of the resolver logs and keeps. -/
def Logs {α : Type} (m : Memory σ T) (outcome : Except Error α × Memory σ T)
    (ends : List (DeviceCall T) → Except Error α → Prop) : Prop :=
  ∃ log, outcome.2.calls = m.calls ++ log ∧ ends log outcome.1 ∧
    ∀ path, Keeps log m.cache outcome.2.cache path

section Searches

variable {α β : Type} {session : DeviceSession σ T} {root : Option ObjectHandle} {m m' : Memory σ T}

/-- A search that goes on after `answered` listings. -/
theorem Searched.after {log : List (DeviceCall T)} {result : Except Error α}
    (h : Searched log result) (answered : List (RelPath × Collection)) :
    Searched (listings answered ++ log) result := by
  cases h with
  | found p a =>
    rw [← listings_append]
    exact .found _ a
  | unlisted p parent e =>
    rw [← List.append_assoc, ← listings_append]
    exact .unlisted _ parent e
  | vanished p gone hp =>
    rw [← listings_append]
    exact .vanished _ gone (List.append_ne_nil_of_right_ne_nil _ hp)
  | unsupported p what =>
    rw [← listings_append]
    exact .unsupported _ what
  | invalid p reason =>
    rw [← listings_append]
    exact .invalid _ reason

/-- A failed search fails the same way whatever was searched for. -/
theorem Searched.cast {log : List (DeviceCall T)} {e : Error} (h : Searched log (.error e : Except Error α)) :
    Searched log (.error e : Except Error β) := by
  cases h with
  | unlisted p parent e => exact .unlisted p parent e
  | vanished p gone hp => exact .vanished p gone hp
  | unsupported p what => exact .unsupported p what
  | invalid p reason => exact .invalid p reason

theorem Logs.still {a : Except Error α} (h : Searched ([] : List (DeviceCall T)) a) :
    Logs m (a, m) Searched :=
  ⟨[], (List.append_nil _).symm, h, fun _ => Or.inl rfl⟩

/-- A found handle, and then the rest of the search. -/
theorem Logs.next {a : α} {outcome : Except Error β × Memory σ T}
    (h₁ : Logs m (.ok a, m') Searched) (h₂ : Logs m' outcome Searched) : Logs m outcome Searched := by
  obtain ⟨log, hcalls, hfound, hkeeps⟩ := h₁
  obtain ⟨log', hcalls', hrest, hkeeps'⟩ := h₂
  cases hfound with
  | found answered =>
    refine ⟨listings answered ++ log', ?_, hrest.after answered, ?_⟩
    · rw [hcalls', hcalls, List.append_assoc]
    · exact fun path => (hkeeps path).trans (hkeeps' path)

theorem Logs.fails {e : Error} (h : Logs m ((.error e : Except Error α), m') Searched) :
    Logs m ((.error e : Except Error β), m') Searched := by
  obtain ⟨log, hcalls, hfails, hkeeps⟩ := h
  exact ⟨log, hcalls, hfails.cast, hkeeps⟩

variable (session root)

theorem child_logs (parentHandle : Option ObjectHandle) (parent path : RelPath) (m : Memory σ T) :
    Logs m (child session parentHandle parent path m) Searched := by
  unfold child
  cases hcached : m.cache path with
  | some handle => exact Logs.still (.found [] handle)
  | none =>
    dsimp only
    rcases session.collectObjects parentHandle m.device with ⟨answer, device⟩
    cases answer with
    | error e => exact ⟨_, rfl, .unlisted [] parent e, fun _ => Or.inl rfl⟩
    | ok collection =>
      -- whatever the listing changes in the cache, it reported
      have hkeeps (q : RelPath) : Keeps (listings [(parent, collection)] : List (DeviceCall T)) m.cache
          (m.cache.prime (reported parent collection.objects)) q := by
        rcases prime_cases m.cache (reported parent collection.objects) q with hsame | ⟨handle, hget, hmem⟩
        · exact Or.inl hsame
        · exact Or.inr ⟨handle, hget, parent, collection, List.mem_singleton_self _, hmem⟩
      dsimp only
      cases hfound : m.cache.prime (reported parent collection.objects) path with
      | some handle => exact ⟨_, rfl, .found [(parent, collection)] handle, hkeeps⟩
      | none => exact ⟨_, rfl, .vanished [(parent, collection)] path (by simp), hkeeps⟩

theorem walkDown_logs (segments : List String) (current : RelPath) (handle : Option ObjectHandle)
    (m : Memory σ T) : Logs m (walkDown session segments current handle m) Searched := by
  induction segments generalizing current handle m with
  | nil => exact Logs.still (.found [] handle)
  | cons segment segments ih =>
    rw [walkDown]
    cases current.join segment with
    | error reason => exact Logs.still (.invalid [] reason)
    | ok next =>
      dsimp only
      have hchild := child_logs session handle current next m
      rcases hrun : child session handle current next m with ⟨r, m'⟩
      rw [hrun] at hchild
      cases r with
      | error e => exact hchild.fails
      | ok found => exact hchild.next (ih next (some found) m')

theorem resolve_logs (path : RelPath) (m : Memory σ T) :
    Logs m (resolve session root path m) Searched := by
  unfold resolve
  cases m.cache path with
  | some handle => exact Logs.still (.found [] handle)
  | none =>
    cases path.parent with
    | none =>
      cases root with
      | some handle => exact Logs.still (.found [] handle)
      | none => exact Logs.still (.unsupported [] _)
    | some parent =>
      dsimp only
      have hparent := walkDown_logs session parent.segments RelPath.root root m
      rw [listingParent]
      rcases hrun : walkDown session parent.segments RelPath.root root m with ⟨r, m'⟩
      rw [hrun] at hparent
      cases r with
      | error e => exact hparent.fails
      | ok handle => exact hparent.next (child_logs session handle parent path m')

theorem attempt_logs (path : RelPath) (m : Memory σ T) :
    Logs m (attempt session root path m) Attempt := by
  unfold attempt
  obtain ⟨log, hcalls, hsearched, hkeeps⟩ := resolve_logs session root path m
  rcases hresolve : resolve session root path m with ⟨r, m'⟩
  rw [hresolve] at hcalls hsearched hkeeps
  cases hsearched with
  | found answered handle =>
    have hran (answer : Except MtpError T) (device : σ) :
        (⟨m'.cache, device, m'.calls ++ [.op handle answer]⟩ : Memory σ T).calls =
          m.calls ++ (listings answered ++ [.op handle answer]) := by
      rw [← List.append_assoc, ← hcalls]
    have hsame (answer : Except MtpError T) (q : RelPath) :
        Keeps (listings answered ++ [.op handle answer]) m.cache m'.cache q :=
      (hkeeps q).trans (Or.inl rfl)
    dsimp only
    rcases session.op handle m'.device with ⟨answer, device⟩
    cases answer with
    | error e => exact ⟨_, hran (.error e) device, .failed answered handle e, hsame (.error e)⟩
    | ok value => exact ⟨_, hran (.ok value) device, .ran answered handle value, hsame (.ok value)⟩
  | unlisted answered parent e => exact ⟨_, hcalls, .unlisted answered parent e, hkeeps⟩
  | vanished answered gone hlisted => exact ⟨_, hcalls, .vanished answered gone hlisted, hkeeps⟩
  | unsupported answered what => exact ⟨_, hcalls, .unsupported answered what, hkeeps⟩
  | invalid answered reason => exact ⟨_, hcalls, .invalid answered reason, hkeeps⟩

end Searches

section Recovery

variable (session : DeviceSession σ T) (root : Option ObjectHandle) {path : RelPath}

theorem stale_error {e : Error} : Stale (.error e : Except Error T) ↔ e.isStaleHandle = true :=
  ⟨fun ⟨_, he, hs⟩ => Except.error.inj he ▸ hs, fun h => ⟨e, rfl, h⟩⟩

theorem parent_ne {parent : RelPath} (h : path.parent = some parent) : parent ≠ path := by
  rintro rfl
  by_cases hpath : parent.segments = []
  · rw [RelPath.parent, if_pos hpath] at h
    exact absurd h (by simp)
  · obtain ⟨_, hsome, hsegments⟩ := RelPath.parent_of_ne hpath
    obtain rfl := Option.some.inj (h.symm.trans hsome)
    have hlength := congrArg List.length hsegments
    rw [List.length_append, List.length_singleton] at hlength
    omega

theorem not_stale_vanished (gone : RelPath) : ¬Stale (.error (.sourceVanished gone) : Except Error T) := by
  intro h
  exact absurd (stale_error.mp h) (by simp [Error.isStaleHandle])

/-- Everything the verdict on a second attempt can rest on. -/
theorem rekeyed_cases (path : RelPath) (outcome : Except Error T) (m : Memory σ T) :
    ∃ probes m', m'.cache = m.cache ∧ m'.calls = m.calls ++ probes ∧
      ((rekeyed session path outcome m = (false, m') ∧ ¬Stale outcome ∧ (probes = [] ∨
          ∃ gone parent handle answer, outcome = .error (.sourceVanished gone) ∧
            path.parent = some parent ∧ m.cache parent = some handle ∧
            answer ≠ .error .staleHandle ∧ probes = [.probe handle answer])) ∨
        (rekeyed session path outcome m = (true, m') ∧ ((Stale outcome ∧ probes = []) ∨
          ∃ gone parent handle, outcome = .error (.sourceVanished gone) ∧
            path.parent = some parent ∧ m.cache parent = some handle ∧
            probes = [.probe handle (.error .staleHandle)]))) := by
  have hquiet : m.calls = m.calls ++ [] := (List.append_nil _).symm
  cases outcome with
  | ok value =>
    refine ⟨[], m, rfl, hquiet, Or.inl ⟨rfl, ?_, Or.inl rfl⟩⟩
    rintro ⟨e, he, -⟩
    cases he
  | error e =>
    -- only an object that has vanished is worth a probe of its parent
    by_cases hgone : ∃ gone, e = .sourceVanished gone
    · obtain ⟨gone, rfl⟩ := hgone
      have hnot := not_stale_vanished (T := T) gone
      have hprobe : rekeyed session path (.error (.sourceVanished gone)) m =
          parentIsStale session path m := rfl
      rw [hprobe, parentIsStale]
      cases hparent : path.parent.bind m.cache with
      | none => exact ⟨[], m, rfl, hquiet, Or.inl ⟨rfl, hnot, Or.inl rfl⟩⟩
      | some handle =>
        obtain ⟨parent, hpath, hget⟩ := Option.bind_eq_some_iff.mp hparent
        dsimp only
        rcases session.getObjectInfo handle m.device with ⟨answer, device⟩
        match answer with
        | .ok info => exact ⟨_, ⟨m.cache, device, m.calls ++ [.probe handle (.ok info)]⟩, rfl, rfl, Or.inl ⟨rfl, hnot,
            Or.inr ⟨gone, parent, handle, .ok info, rfl, hpath, hget, by simp, rfl⟩⟩⟩
        | .error e =>
          by_cases hstale : e = .staleHandle
          · subst hstale
            exact ⟨_, ⟨m.cache, device, m.calls ++ [.probe handle (.error .staleHandle)]⟩, rfl, rfl,
              Or.inr ⟨rfl, Or.inr ⟨gone, parent, handle, rfl, hpath, hget, rfl⟩⟩⟩
          · have hfresh : e.isStaleHandle = false := by
              cases e <;> first | rfl | exact absurd rfl hstale
            refine ⟨_, ⟨m.cache, device, m.calls ++ [.probe handle (.error e)]⟩, rfl, rfl,
              Or.inl ⟨congrArg (·, _) hfresh, hnot, Or.inr ⟨gone, parent, handle, .error e, rfl, hpath, hget, ?_, rfl⟩⟩⟩
            exact fun h => hstale (Except.error.inj h)
    · have hrekeyed : rekeyed session path (.error e) m = (e.isStaleHandle, m) := by
        cases e with
        | sourceVanished gone => exact absurd ⟨gone, rfl⟩ hgone
        | _ => rfl
      rw [hrekeyed]
      cases hstale : e.isStaleHandle with
      | true => exact ⟨[], m, rfl, hquiet, Or.inr ⟨rfl, Or.inl ⟨stale_error.mpr hstale, rfl⟩⟩⟩
      | false =>
        refine ⟨[], m, rfl, hquiet, Or.inl ⟨rfl, ?_, Or.inl rfl⟩⟩
        intro h
        exact absurd (stale_error.mp h) (by simp [hstale])

/-- The calls of a recovery, after a first attempt `a` on the cache `before`. -/
theorem recover_logs {before : HandleCache} {a : List (DeviceCall T)} {r : Except Error T}
    {m : Memory σ T} (ha : Attempt a r) (hr : Stale r) (hkeeps : ∀ q, Keeps a before m.cache q) :
    ∃ log, (recover session root path m).2.calls = m.calls ++ log ∧
      ((Answered before path (a ++ log) (recover session root path m).1 ∧
          ∀ other, other ≠ path → Keeps (a ++ log) before (recover session root path m).2.cache other) ∨
        Rebuilt before path (a ++ log) (recover session root path m).1) := by
  obtain ⟨b, hcalls, hb, hkeeps'⟩ := attempt_logs session root path (m.forget path)
  unfold recover
  rcases hrun : attempt session root path (m.forget path) with ⟨outcome, m₂⟩
  rw [hrun] at hcalls hb hkeeps'
  -- forgetting the path itself changes no other path
  have hother : ∀ other, other ≠ path → Keeps (a ++ b) before m₂.cache other := by
    intro other hne
    have hforgot : (m.forget path).cache other = m.cache other := remove_of_ne hne
    have hsecond := hkeeps' other
    rw [Keeps, hforgot] at hsecond
    exact (hkeeps other).trans hsecond
  obtain ⟨probes, m₃, hcache, hprobes, hverdict⟩ := rekeyed_cases session path outcome m₂
  have hlog : m₃.calls = m.calls ++ (b ++ probes) := by
    rw [hprobes, ← List.append_assoc]
    exact congrArg (· ++ probes) hcalls
  have hheld {parent : RelPath} {handle : ObjectHandle} (hparent : path.parent = some parent)
      (hget : m₂.cache parent = some handle) : before parent = some handle ∨ Reports (a ++ b) parent handle :=
    (hother parent (parent_ne hparent)).held hget
  rcases hverdict with ⟨hfalse, hnot, hwhy⟩ | ⟨htrue, hwhy⟩
  · -- the second outcome stands
    dsimp only
    rw [hfalse]
    refine ⟨b ++ probes, hlog, Or.inl ⟨?_, fun other hne => ?_⟩⟩
    · rcases hwhy with rfl | ⟨gone, parent, handle, answer, rfl, hparent, hget, hfresh, rfl⟩
      · rw [List.append_nil]
        exact .second ha hr hb hnot
      · rw [← List.append_assoc]
        exact .probed ha hr hb hparent (hheld hparent hget) hfresh
    · rw [← List.append_assoc]
      exact (hother other hne).trans (Or.inl (congrFun hcache other))
  · dsimp only
    rw [htrue]
    obtain ⟨c, hthird, hc, -⟩ := attempt_logs session root path m₃.clear
    refine ⟨b ++ probes ++ c, ?_, Or.inr ?_⟩
    · calc (attempt session root path m₃.clear).2.calls = m₃.calls ++ c := hthird
        _ = m.calls ++ (b ++ probes) ++ c := by rw [hlog]
        _ = m.calls ++ (b ++ probes ++ c) := List.append_assoc _ _ _
    · rcases hwhy with ⟨hstale, rfl⟩ | ⟨gone, parent, handle, rfl, hparent, hget, rfl⟩
      · rw [List.append_nil, ← List.append_assoc]
        exact .stale ha hr hb hstale hc
      · rw [← List.append_assoc, ← List.append_assoc]
        exact .parent ha hr hb hparent (hheld hparent hget) hc

/-- For every run of `with_handle`, whatever the device answers: the operation is run three
times at most, each further attempt is due to a stale answer, and as long as the tree was not
found re-keyed no other path loses its handle. -/
theorem with_handle_bounded (path : RelPath) (m : Memory σ T) :
    ∃ log, (withHandle session root path m).2.calls = m.calls ++ log ∧ runsOf log ≤ 3 ∧
      ((Answered m.cache path log (withHandle session root path m).1 ∧
          ∀ other, other ≠ path → Keeps log m.cache (withHandle session root path m).2.cache other) ∨
        Rebuilt m.cache path log (withHandle session root path m).1) := by
  obtain ⟨a, hcalls, ha, hkeeps⟩ := attempt_logs session root path m
  unfold withHandle
  rcases hrun : attempt session root path m with ⟨outcome, m₁⟩
  rw [hrun] at hcalls ha hkeeps
  have hfirst (hnot : ¬Stale outcome) : ∃ log, m₁.calls = m.calls ++ log ∧ runsOf log ≤ 3 ∧
      ((Answered m.cache path log outcome ∧ ∀ other, other ≠ path → Keeps log m.cache m₁.cache other) ∨
        Rebuilt m.cache path log outcome) := by
    have hone := ha.runsOf_le
    exact ⟨a, hcalls, by omega, Or.inl ⟨.first ha hnot, fun other _ => hkeeps other⟩⟩
  cases outcome with
  | ok value =>
    apply hfirst
    rintro ⟨e, he, -⟩
    cases he
  | error e =>
    dsimp only
    by_cases hstale : e.isStaleHandle = true
    · rw [if_pos hstale]
      obtain ⟨log, hlog, hends⟩ := recover_logs session root ha (stale_error.mpr hstale) hkeeps
      refine ⟨a ++ log, ?_, ?_, hends⟩
      · rw [hlog, ← List.append_assoc]
        exact congrArg (· ++ log) hcalls
      · rcases hends with ⟨hanswered, -⟩ | hrebuilt
        · have htwo := hanswered.runsOf_le
          omega
        · exact hrebuilt.runsOf_le
    · rw [if_neg hstale]
      exact hfirst fun h => hstale (stale_error.mp h)

end Recovery

end MtpxCore
