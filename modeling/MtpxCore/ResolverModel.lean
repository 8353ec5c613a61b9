import MtpxCore.DeviceScan

/-! Mapping relative paths to device object handles (`mtp/resolver.rs`). The device is a
session with a state of its own; every call on it is logged with its answer. -/
namespace MtpxCore

/-- A session on a device, and the operation a caller wants run on a handle. -/
structure DeviceSession (σ T : Type) where
  collectObjects : Option ObjectHandle → σ → Except MtpError Collection × σ
  getObjectInfo : ObjectHandle → σ → Except MtpError ObjectInfo × σ
  op : ObjectHandle → σ → Except MtpError T × σ

inductive DeviceCall (T : Type) where
  | list (parentPath : RelPath) (answer : Except MtpError Collection)
  | probe (handle : ObjectHandle) (answer : Except MtpError ObjectInfo)
  | op (handle : ObjectHandle) (answer : Except MtpError T)

/-- Every handle learned so far, by the path relative to the transfer root. -/
abbrev HandleCache := RelPath → Option ObjectHandle

namespace HandleCache

def empty : HandleCache := fun _ => none

def prime (cache : HandleCache) (entries : List (RelPath × ObjectHandle)) : HandleCache :=
  entries.foldl (fun cache entry => Function.update cache entry.1 (some entry.2)) cache

def remove (cache : HandleCache) (path : RelPath) : HandleCache := Function.update cache path none

end HandleCache

/-- What a resolver works on: its cache, the device, and the calls made so far. -/
structure Memory (σ T : Type) where
  cache : HandleCache
  device : σ
  calls : List (DeviceCall T)

/-- What listing a folder reports: the children's paths and handles. -/
def reported (parentPath : RelPath) (objects : List ObjectInfo) : List (RelPath × ObjectHandle) :=
  (classify parentPath objects).children.map (fun child => (child.1, child.2.handle))

namespace Memory

variable {σ T : Type}

/-- Forgets one path. -/
def forget (m : Memory σ T) (path : RelPath) : Memory σ T := { m with cache := m.cache.remove path }

def clear (m : Memory σ T) : Memory σ T := { m with cache := .empty }

end Memory

section Resolver

variable {σ T : Type} (session : DeviceSession σ T) (root : Option ObjectHandle)

/-- The cached handle of `path`, or the one a fresh listing of its parent reports. -/
def child (parentHandle : Option ObjectHandle) (parent path : RelPath) (m : Memory σ T) :
    Except Error ObjectHandle × Memory σ T :=
  match m.cache path with
  | some handle => (.ok handle, m)
  | none =>
    match session.collectObjects parentHandle m.device with
    | (.error e, device) =>
      (.error (.ofMtp e), ⟨m.cache, device, m.calls ++ [.list parent (.error e)]⟩)
    | (.ok collection, device) =>
      let cache := m.cache.prime (reported parent collection.objects)
      let m' : Memory σ T := ⟨cache, device, m.calls ++ [.list parent (.ok collection)]⟩
      match cache path with
      | some handle => (.ok handle, m')
      | none => (.error (.sourceVanished path), m')

/-- The loop of `listing_parent`, from the folder `current` whose handle is `handle`. -/
def walkDown : List String → RelPath → Option ObjectHandle → Memory σ T →
    Except Error (Option ObjectHandle) × Memory σ T
  | [], _, handle, m => (.ok handle, m)
  | segment :: segments, current, handle, m =>
    match current.join segment with
    | .error e => (.error (.invalidPath e), m)
    | .ok next =>
      match child session handle current next m with
      | (.error e, m) => (.error e, m)
      | (.ok found, m) => walkDown segments next (some found) m

/-- The handle to list `dir` under. -/
def listingParent (dir : RelPath) (m : Memory σ T) : Except Error (Option ObjectHandle) × Memory σ T :=
  walkDown session dir.segments RelPath.root root m

/-- The handle for `path`, listing its ancestors as needed. -/
def resolve (path : RelPath) (m : Memory σ T) : Except Error ObjectHandle × Memory σ T :=
  match m.cache path with
  | some handle => (.ok handle, m)
  | none =>
    match path.parent with
    | none =>
      match root with
      | some handle => (.ok handle, m)
      | none => (.error (.unsupported "object operations on the storage root"), m)
    | some parent =>
      match listingParent session root parent m with
      | (.error e, m) => (.error e, m)
      | (.ok handle, m) => child session handle parent path m

def attempt (path : RelPath) (m : Memory σ T) : Except Error T × Memory σ T :=
  match resolve session root path m with
  | (.error e, m) => (.error e, m)
  | (.ok handle, m) =>
    match session.op handle m.device with
    | (.error e, device) =>
      (.error (.ofMtp e), ⟨m.cache, device, m.calls ++ [.op handle (.error e)]⟩)
    | (.ok value, device) => (.ok value, ⟨m.cache, device, m.calls ++ [.op handle (.ok value)]⟩)

/-- Whether the cached handle of the parent of `path` no longer answers. -/
def parentIsStale (path : RelPath) (m : Memory σ T) : Bool × Memory σ T :=
  match path.parent.bind m.cache with
  | none => (false, m)
  | some handle =>
    match session.getObjectInfo handle m.device with
    | (.error e, device) =>
      (e.isStaleHandle, ⟨m.cache, device, m.calls ++ [.probe handle (.error e)]⟩)
    | (.ok info, device) => (false, ⟨m.cache, device, m.calls ++ [.probe handle (.ok info)]⟩)

/-- Whether a failed second attempt means that the whole tree was re-keyed. -/
def rekeyed (path : RelPath) (outcome : Except Error T) (m : Memory σ T) : Bool × Memory σ T :=
  match outcome with
  -- an error that is no stale handle; every other one is judged by itself
  | .error (.sourceVanished _) => parentIsStale session path m
  | .error e => (e.isStaleHandle, m)
  | .ok _ => (false, m)

def recover (path : RelPath) (m : Memory σ T) : Except Error T × Memory σ T :=
  match attempt session root path (m.forget path) with
  | (outcome, m) =>
    match rekeyed session path outcome m with
    | (false, m) => (outcome, m)
    | (true, m) => attempt session root path m.clear

/-- Runs the operation on the handle of `path`. A stale handle re-lists its parent and
retries; a parent that went stale as well rebuilds the whole cache. -/
def withHandle (path : RelPath) (m : Memory σ T) : Except Error T × Memory σ T :=
  match attempt session root path m with
  | (.error e, m) => if e.isStaleHandle then recover session root path m else (.error e, m)
  | (.ok value, m) => (.ok value, m)

end Resolver

section Cache

variable {cache : HandleCache} {entries : List (RelPath × ObjectHandle)} {path : RelPath}

/-- Priming changes a path only to a handle it was given. -/
theorem prime_cases (cache : HandleCache) (entries : List (RelPath × ObjectHandle)) (path : RelPath) :
    cache.prime entries path = cache path ∨
      ∃ handle, cache.prime entries path = some handle ∧ (path, handle) ∈ entries := by
  induction entries generalizing cache with
  | nil => exact Or.inl rfl
  | cons entry entries ih =>
    rw [HandleCache.prime, List.foldl_cons]
    rcases ih (Function.update cache entry.1 (some entry.2)) with hsame | ⟨handle, hget, hmem⟩
    · by_cases hpath : path = entry.1
      · refine Or.inr ⟨entry.2, ?_, hpath ▸ List.mem_cons_self⟩
        rw [HandleCache.prime] at hsame
        rw [hsame, hpath, Function.update_self]
      · refine Or.inl ?_
        rw [HandleCache.prime] at hsame
        rw [hsame, Function.update_of_ne hpath]
    · exact Or.inr ⟨handle, hget, List.mem_cons_of_mem _ hmem⟩

theorem prime_of_not_mem (h : path ∉ entries.map Prod.fst) : cache.prime entries path = cache path := by
  rcases prime_cases cache entries path with hsame | ⟨handle, -, hmem⟩
  · exact hsame
  · exact absurd (List.mem_map_of_mem hmem) h

/-- With every path given once, the handle given is the one found. -/
theorem prime_of_mem (hnodup : (entries.map Prod.fst).Nodup) {handle : ObjectHandle}
    (h : (path, handle) ∈ entries) : cache.prime entries path = some handle := by
  induction entries generalizing cache with
  | nil => exact absurd h List.not_mem_nil
  | cons entry entries ih =>
    rw [List.map_cons, List.nodup_cons] at hnodup
    rcases List.mem_cons.mp h with rfl | h
    · have hkept : HandleCache.prime (Function.update cache path (some handle)) entries path =
          Function.update cache path (some handle) path := prime_of_not_mem hnodup.1
      rw [HandleCache.prime, List.foldl_cons]
      exact hkept.trans (Function.update_self _ _ _)
    · exact ih hnodup.2 h

theorem remove_self (cache : HandleCache) (path : RelPath) : cache.remove path path = none :=
  Function.update_self _ _ _

theorem remove_of_ne {other : RelPath} (h : other ≠ path) : cache.remove path other = cache other :=
  Function.update_of_ne h _ _

end Cache

section Steps

variable {σ T : Type} {session : DeviceSession σ T} {root : Option ObjectHandle} {m : Memory σ T}

theorem child_of_cached {parentHandle : Option ObjectHandle} {parent path : RelPath}
    {handle : ObjectHandle} (h : m.cache path = some handle) :
    child session parentHandle parent path m = (.ok handle, m) := by
  rw [child, h]

/-- A path that is not cached is what the listing of its parent makes of it. -/
theorem child_listed {parentHandle : Option ObjectHandle} (parent : RelPath) {path : RelPath}
    {collection : Collection} {device : σ} (huncached : m.cache path = none)
    (hlist : session.collectObjects parentHandle m.device = (.ok collection, device)) :
    child session parentHandle parent path m =
      ((m.cache.prime (reported parent collection.objects) path).elim
          (.error (.sourceVanished path)) .ok,
        ⟨m.cache.prime (reported parent collection.objects), device,
          m.calls ++ [.list parent (.ok collection)]⟩) := by
  unfold child
  rw [huncached, hlist]
  dsimp only
  cases m.cache.prime (reported parent collection.objects) path <;> rfl

theorem child_unlisted {parentHandle : Option ObjectHandle} {parent path : RelPath} {e : MtpError}
    {device : σ} (huncached : m.cache path = none)
    (hlist : session.collectObjects parentHandle m.device = (.error e, device)) :
    child session parentHandle parent path m =
      (.error (.ofMtp e), ⟨m.cache, device, m.calls ++ [.list parent (.error e)]⟩) := by
  unfold child
  rw [huncached, hlist]

/-- The last step of a walk, set apart. -/
theorem walkDown_concat {segments : List String} {current dir path : RelPath} {name : String}
    {handle : Option ObjectHandle} {m : Memory σ T} (hdir : dir.segments = current.segments ++ segments)
    (hpath : path.segments = dir.segments ++ [name]) :
    walkDown session (segments ++ [name]) current handle m =
      match walkDown session segments current handle m with
      | (.error e, m) => (.error e, m)
      | (.ok handle, m) =>
        match child session handle dir path m with
        | (.error e, m) => (.error e, m)
        | (.ok found, m) => (.ok (some found), m) := by
  induction segments generalizing current handle m with
  | nil =>
    obtain rfl : dir = current := RelPath.segments_injective (by simpa using hdir)
    rw [List.nil_append, walkDown, walkDown, RelPath.join_eq hpath]
    dsimp only [walkDown]
  | cons segment segments ih =>
    obtain ⟨next, hjoin, hnext⟩ := RelPath.join_ok
      (dir.valid segment (by rw [hdir]; simp))
    rw [List.cons_append, walkDown, walkDown, hjoin]
    dsimp only
    rcases child session handle current next m with ⟨r, m'⟩
    cases r with
    | error e => rfl
    | ok found => exact ih (by rw [hdir, hnext]; simp)

variable (session root)

/-- A path that is not cached and is not the root is walked to like its ancestors. -/
theorem walkDown_eq_resolve {path : RelPath} (huncached : m.cache path = none)
    (hpath : path.segments ≠ []) :
    walkDown session path.segments RelPath.root root m =
      ((resolve session root path m).1.map some, (resolve session root path m).2) := by
  obtain ⟨parent, hparent, hsegments⟩ := RelPath.parent_of_ne hpath
  unfold resolve
  rw [huncached, hparent]
  dsimp only
  rw [listingParent, hsegments, walkDown_concat rfl hsegments]
  rcases walkDown session parent.segments RelPath.root root m with ⟨r, m'⟩
  cases r with
  | error e => rfl
  | ok handle =>
    dsimp only
    rcases child session handle parent path m' with ⟨r, m''⟩
    cases r <;> rfl

end Steps

end MtpxCore
