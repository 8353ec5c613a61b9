import MtpxCore.DeviceTree
import MtpxCore.DeviceRoots

/-! Scanning a file endpoint (`mtp/scan.rs`): the handle seen at open is described again, and
where it no longer names the file the parent folder is listed. When the two ways agree. -/
namespace MtpxCore

section Picking

variable (storage : Storage) (getObjectInfo : ObjectHandle → Except MtpError ObjectInfo)

/-- The file behind the handle as the device describes it now, or `none` when the handle no
longer names that file. -/
def revalidate (known : ObjectInfo) : Except Error (Option ObjectInfo) :=
  match getObjectInfo known.handle with
  | .ok fresh =>
    if fresh.filename = known.filename ∧ fresh.folder = false then .ok (some fresh) else .ok none
  | .error e => if e.isStaleHandle then .ok none else .error (.ofMtp e)

/-- Lists `parent` once and keeps only the file named `name`. -/
def findFile (parent : Option ObjectHandle) (name : String) : Except Error ObjectInfo :=
  match listFolder storage parent RelPath.root with
  | .error e => .error e
  | .ok listing =>
    match (listing.children.map Prod.snd).find?
        (fun info => decide (info.filename = name) && !info.folder) with
    | some info => .ok info
    | none =>
      match RelPath.new [name] with
      | .error reason => .error (.invalidPath reason)
      | .ok path => .error (.sourceVanished path)

/-- The walk of one entry that a file makes. -/
def walkedFile (name : String) (info : ObjectInfo) : Except Error Walked :=
  match RelPath.new [name] with
  | .error reason => .error (.invalidPath reason)
  | .ok path => .ok ⟨[entryFrom path info], [(path, info.handle)], []⟩

def pickFile (parent : Option ObjectHandle) (known : ObjectInfo) (cancelled : Bool) :
    Except Error Walked :=
  if cancelled then .error .cancelled
  else match revalidate getObjectInfo known with
    | .error e => .error e
    | .ok (some fresh) => walkedFile known.filename fresh
    | .ok none =>
      match findFile storage parent known.filename with
      | .error e => .error e
      | .ok info => walkedFile known.filename info

/-- The way by name alone. -/
def pickByName (parent : Option ObjectHandle) (name : String) : Except Error Walked :=
  match findFile storage parent name with
  | .error e => .error e
  | .ok info => walkedFile name info

end Picking

/-- An object and the folder it lies in. -/
structure StoredObject where
  parent : Option ObjectHandle
  info : ObjectInfo
  deriving DecidableEq, Repr

/-- An object the device will not describe, and the folder it lies in. -/
structure RefusedObject where
  parent : Option ObjectHandle
  object : SkippedObject
  deriving DecidableEq, Repr

/-- A device at one moment: its objects in listing order, no handle standing for two, and the
folders it fails to list. A handle of nothing is stale. -/
structure DeviceState where
  rootHandle : ObjectHandle
  objects : List StoredObject
  refused : List RefusedObject
  failing : Option ObjectHandle → Option MtpError
  distinct : (objects.map (fun o => o.info.handle) ++ refused.map (fun r => r.object.handle)).Nodup

namespace DeviceState

variable (state : DeviceState)

def inFolder (parent : Option ObjectHandle) : List ObjectInfo :=
  (state.objects.filter (fun o => decide (o.parent = parent))).map StoredObject.info

def collectObjects (parent : Option ObjectHandle) : Except MtpError Collection :=
  match state.failing parent with
  | some e => .error e
  | none => .ok ⟨state.inFolder parent,
      (state.refused.filter (fun r => decide (r.parent = parent))).map RefusedObject.object⟩

def storage : Storage := ⟨state.rootHandle, state.collectObjects⟩

def getObjectInfo (handle : ObjectHandle) : Except MtpError ObjectInfo :=
  match state.objects.find? (fun o => decide (o.info.handle = handle)) with
  | some o => .ok o.info
  | none =>
    match state.refused.find? (fun r => decide (r.object.handle = handle)) with
    | some r => .error r.object.error
    | none => .error .staleHandle

/-- The first object a folder lists under a name. -/
def firstNamed (parent : Option ObjectHandle) (name : String) : Option ObjectInfo :=
  (state.inFolder parent).find? (fun info => decide (info.filename = name))

/-- The file a listing of the folder finds under a name. -/
def fileNamed (parent : Option ObjectHandle) (name : String) : Option ObjectInfo :=
  if isReservedName name then none
  else (state.firstNamed parent name).filter (fun info => !info.folder)

end DeviceState

section ByName

theorem childPath_named {parent : RelPath} {info : ObjectInfo} {name : String}
    (hinfo : info.filename = name) (hname : validateSegment name = .ok ())
    (hfree : isReservedName name = false) : ∃ path, childPath parent info false = .ok path := by
  obtain ⟨path, hpath, -⟩ : ∃ path, parent.join name = .ok path ∧ _ := RelPath.join_ok hname
  refine ⟨path, ?_⟩
  rw [childPath, hinfo, hfree, hpath]
  rfl

theorem childPath_error {parent : RelPath} {info : ObjectInfo} {name : String} {isRepeat : Bool}
    (hinfo : info.filename = name) (hname : validateSegment name = .ok ())
    (hout : isRepeat = true ∨ isReservedName name = true) :
    ∃ reason, childPath parent info isRepeat = .error reason := by
  obtain ⟨path, hpath, -⟩ : ∃ path, parent.join name = .ok path ∧ _ := RelPath.join_ok hname
  rw [childPath, hinfo, hpath]
  cases hreserved : isReservedName name with
  | true => exact ⟨.reservedName, rfl⟩
  | false =>
    have hrepeat : isRepeat = true := hout.resolve_right (by rw [hreserved]; decide)
    exact ⟨.duplicateName, by rw [hrepeat]; rfl⟩

/-- Among the children of a listing the first object of a name is the file of that name,
unless the name is reserved or the object is a folder. -/
theorem find_named {name : String} (hname : validateSegment name = .ok ()) (seen : List String)
    (objects : List ObjectInfo) :
    (((objects.zip (repeatedNames seen objects)).filterMap (fun item =>
        match childPath RelPath.root item.1 item.2 with
        | .ok path => some (path, item.1)
        | .error _ => none)).map Prod.snd).find?
          (fun info => decide (info.filename = name) && !info.folder) =
      if name ∈ seen ∨ isReservedName name = true then none
      else (objects.find? (fun info => decide (info.filename = name))).filter
        (fun info => !info.folder) := by
  induction objects generalizing seen with
  | nil => simp
  | cons info rest ih =>
    rw [repeatedNames, List.zip_cons_cons, List.filterMap_cons, List.find?_cons]
    have hrest := ih (info.filename :: seen)
    by_cases hsame : info.filename = name
    · -- behind an object of the name every other one repeats it
      rw [if_pos (Or.inl (by rw [hsame]; exact List.mem_cons_self))] at hrest
      by_cases hout : name ∈ seen ∨ isReservedName name = true
      · -- it is no child itself either: its name was seen, or is reserved
        have herror : ∃ reason, childPath RelPath.root info (decide (info.filename ∈ seen)) =
            .error reason := by
          rw [hsame]
          exact childPath_error hsame hname (hout.imp_left decide_eq_true)
        obtain ⟨reason, hreason⟩ := herror
        rw [if_pos hout, hreason]
        exact hrest
      · rw [not_or] at hout
        have hok : ∃ path, childPath RelPath.root info (decide (info.filename ∈ seen)) =
            .ok path := by
          rw [hsame, decide_eq_false hout.1]
          exact childPath_named hsame hname (Bool.eq_false_of_not_eq_true hout.2)
        obtain ⟨path, hpath⟩ := hok
        rw [if_neg (not_or.mpr hout), hpath]
        dsimp only
        rw [List.map_cons, List.find?_cons, decide_eq_true hsame, Bool.true_and]
        cases hfolder : info.folder with
        | true =>
          rw [Bool.not_true, Option.filter_some, hfolder]
          exact hrest
        | false => rw [Bool.not_false, Option.filter_some, hfolder]; rfl
    · -- an object of another name changes nothing for this one
      have hmem : name ∈ info.filename :: seen ↔ name ∈ seen := by
        rw [List.mem_cons]
        exact or_iff_right (fun h => hsame h.symm)
      simp only [hmem] at hrest
      rw [decide_eq_false hsame]
      cases childPath RelPath.root info (decide (info.filename ∈ seen)) with
      | error reason => exact hrest
      | ok path =>
        dsimp only
        rw [List.map_cons, List.find?_cons, decide_eq_false hsame, Bool.false_and]
        exact hrest

theorem new_single {name : String} (hname : validateSegment name = .ok ()) :
    ∃ path, RelPath.new [name] = .ok path ∧ path.segments = [name] := by
  have hvalid : ∀ segment ∈ [name], validateSegment segment = .ok () := by
    intro segment hs
    rwa [List.mem_singleton.mp hs]
  exact ⟨_, RelPath.new_of_valid hvalid, rfl⟩

/-- What picking by name does where the folder can be listed. -/
theorem findFile_eq {state : DeviceState} {parent : Option ObjectHandle} {name : String}
    (hname : validateSegment name = .ok ()) (hlisted : state.failing parent = none)
    {path : RelPath} (hpath : RelPath.new [name] = .ok path) :
    findFile state.storage parent name =
      match state.fileNamed parent name with
      | some info => .ok info
      | none => .error (.sourceVanished path) := by
  have hanswer : state.storage.collectObjects parent = .ok ⟨state.inFolder parent,
      (state.refused.filter (fun r => decide (r.parent = parent))).map
        RefusedObject.object⟩ := by
    change state.collectObjects parent = _
    rw [DeviceState.collectObjects, hlisted]
  have hfind : ((classify RelPath.root (state.inFolder parent)).children.map Prod.snd).find?
      (fun info => decide (info.filename = name) && !info.folder) =
        state.fileNamed parent name := by
    rw [classify, foldl_file, List.nil_append]
    apply (find_named hname [] (state.inFolder parent)).trans
    simp only [List.not_mem_nil, false_or]
    rfl
  rw [findFile, listFolder, hanswer, describe]
  dsimp only
  rw [hfind, hpath]

end ByName

section Describing

variable {state : DeviceState} {handle : ObjectHandle}

/-- What a handle stands for: one object, one refused object, or nothing. -/
theorem getObjectInfo_cases (state : DeviceState) (handle : ObjectHandle) :
    (∃ o ∈ state.objects, o.info.handle = handle ∧ state.getObjectInfo handle = .ok o.info) ∨
      (∃ r ∈ state.refused, r.object.handle = handle ∧
        state.getObjectInfo handle = .error r.object.error) ∨
      state.getObjectInfo handle = .error .staleHandle ∧
        (∀ o ∈ state.objects, o.info.handle ≠ handle) ∧
          ∀ r ∈ state.refused, r.object.handle ≠ handle := by
  rw [DeviceState.getObjectInfo]
  split
  · rename_i o ho
    left
    exact ⟨o, List.mem_of_find?_eq_some ho, by simpa using List.find?_some ho, rfl⟩
  · rename_i hobjects
    right
    split
    · rename_i r hr
      left
      exact ⟨r, List.mem_of_find?_eq_some hr, by simpa using List.find?_some hr, rfl⟩
    · rename_i hrefused
      right
      refine ⟨rfl, ?_, ?_⟩
      · intro o ho
        simpa using List.find?_eq_none.mp hobjects o ho
      · intro r hr
        simpa using List.find?_eq_none.mp hrefused r hr

theorem DeviceState.object_eq {a b : StoredObject} (ha : a ∈ state.objects)
    (hb : b ∈ state.objects) (h : a.info.handle = b.info.handle) : a = b :=
  List.inj_on_of_nodup_map (List.nodup_append.mp state.distinct).1 ha hb h

theorem DeviceState.refused_eq {a b : RefusedObject} (ha : a ∈ state.refused)
    (hb : b ∈ state.refused) (h : a.object.handle = b.object.handle) : a = b :=
  List.inj_on_of_nodup_map (List.nodup_append.mp state.distinct).2.1 ha hb h

theorem DeviceState.object_not_refused {o : StoredObject} {r : RefusedObject}
    (ho : o ∈ state.objects) (hr : r ∈ state.refused) : o.info.handle ≠ r.object.handle :=
  (List.nodup_append.mp state.distinct).2.2 _ (List.mem_map_of_mem ho) _
    (List.mem_map_of_mem hr)

/-- An object found in a folder under a name is one of the device's objects. -/
theorem DeviceState.firstNamed_mem {parent : Option ObjectHandle} {name : String}
    {info : ObjectInfo} (h : state.firstNamed parent name = some info) :
    (∃ o ∈ state.objects, o.info = info ∧ o.parent = parent) ∧ info.filename = name := by
  have hmem := List.mem_of_find?_eq_some h
  obtain ⟨o, ho, rfl⟩ := List.mem_map.mp hmem
  obtain ⟨ho, hparent⟩ := List.mem_filter.mp ho
  exact ⟨⟨o, ho, rfl, of_decide_eq_true hparent⟩, by simpa using List.find?_some h⟩

theorem DeviceState.fileNamed_eq_some {parent : Option ObjectHandle} {name : String}
    {info : ObjectInfo} : state.fileNamed parent name = some info ↔
      isReservedName name = false ∧ state.firstNamed parent name = some info ∧
        info.folder = false := by
  rw [DeviceState.fileNamed]
  cases isReservedName name with
  | true => simp
  | false => simp [Option.filter_eq_some_iff]

theorem DeviceState.fileNamed_mem {parent : Option ObjectHandle} {name : String}
    {info : ObjectInfo} (h : state.fileNamed parent name = some info) :
    (∃ o ∈ state.objects, o.info = info ∧ o.parent = parent) ∧ info.filename = name :=
  DeviceState.firstNamed_mem (DeviceState.fileNamed_eq_some.mp h).2.1

end Describing

/-- Picking by the handle of the open does what picking by the name does: the same entry with
the same handle, or both find the file gone. -/
def PicksAsListed (state : DeviceState) (parent : Option ObjectHandle) (known : ObjectInfo) :
    Prop :=
  (∃ walked, pickFile state.storage state.getObjectInfo parent known false = .ok walked ∧
    pickByName state.storage parent known.filename = .ok walked) ∨
  ∃ path : RelPath, path.segments = [known.filename] ∧
    pickFile state.storage state.getObjectInfo parent known false = .error (.sourceVanished path) ∧
    pickByName state.storage parent known.filename = .error (.sourceVanished path)

/-- The folder can be listed, the handle is not refused, and a file that still has the handle
and the name is the first object the folder lists under it, which is not a reserved one. -/
structure StillAtHome (state : DeviceState) (parent : Option ObjectHandle) (known : ObjectInfo) :
    Prop where
  listed : state.failing parent = none
  described : ∀ r ∈ state.refused, r.object.handle = known.handle →
    r.object.error.isStaleHandle = true
  home : ∀ o ∈ state.objects, o.info.handle = known.handle →
    o.info.filename = known.filename → o.info.folder = false →
      isReservedName known.filename = false ∧
        state.firstNamed parent known.filename = some o.info

section Agreement

variable {state : DeviceState} {parent : Option ObjectHandle} {known : ObjectInfo}

theorem ofMtp_ne_sourceVanished (e : MtpError) (path : RelPath) :
    Error.ofMtp e ≠ .sourceVanished path := by
  cases e <;> exact Error.noConfusion

/-- The file seen at open has a name that passes the rules. -/
theorem locateRoot_known {stream : ObjectStream} {root : RemotePath}
    (h : locateRoot stream root = .ok ⟨parent, some known⟩) :
    validateSegment known.filename = .ok () ∧ known.folder = false := by
  rw [locateRoot] at h
  split at h
  · cases h
  · rename_i last hlast
    split at h
    · cases h
    · split at h
      · cases h
      · rename_i folder _ info hinfo
        obtain ⟨_, -, -, hname⟩ := findChild_ok hinfo
        have htarget := Except.ok.inj h
        rw [Target.found] at htarget
        split at htarget
        · cases htarget
        · rename_i hfile
          obtain ⟨-, hknown⟩ := Target.mk.inj htarget
          obtain rfl := Option.some.inj hknown
          refine ⟨?_, Bool.eq_false_of_not_eq_true hfile⟩
          rw [hname]
          exact root.rel.valid last (List.mem_of_getLast? hlast)

theorem pickByName_eq (hname : validateSegment known.filename = .ok ())
    (hlisted : state.failing parent = none) {path : RelPath}
    (hpath : RelPath.new [known.filename] = .ok path) :
    pickByName state.storage parent known.filename =
      match state.fileNamed parent known.filename with
      | some info => .ok ⟨[entryFrom path info], [(path, info.handle)], []⟩
      | none => .error (.sourceVanished path) := by
  rw [pickByName, findFile_eq hname hlisted hpath]
  cases state.fileNamed parent known.filename with
  | none => rfl
  | some info =>
    dsimp only
    rw [walkedFile, hpath]

theorem pickByName_failing {e : MtpError} (hfailing : state.failing parent = some e) :
    pickByName state.storage parent known.filename = .error (.ofMtp e) := by
  have hanswer : state.storage.collectObjects parent = .error e := by
    change state.collectObjects parent = _
    rw [DeviceState.collectObjects, hfailing]
  rw [pickByName, findFile, listFolder, hanswer]
  rfl

/-- Where the handle is not taken for the file, both ways list the folder. -/
theorem picks_as_listed_of_none (hname : validateSegment known.filename = .ok ())
    (hlisted : state.failing parent = none)
    (hnone : revalidate state.getObjectInfo known = .ok none) :
    PicksAsListed state parent known := by
  obtain ⟨path, hpath, hsegments⟩ := new_single hname
  have hsame : pickFile state.storage state.getObjectInfo parent known false =
      pickByName state.storage parent known.filename := by
    rw [pickFile, if_neg Bool.false_ne_true, hnone, pickByName]
  rw [PicksAsListed, hsame, pickByName_eq hname hlisted hpath]
  cases state.fileNamed parent known.filename with
  | none =>
    right
    exact ⟨path, hsegments, rfl, rfl⟩
  | some info =>
    left
    exact ⟨_, rfl, rfl⟩

/-- Where the handle is taken for the file, the listing has to find the same object. -/
theorem picks_as_listed_of_some (hname : validateSegment known.filename = .ok ())
    (hlisted : state.failing parent = none) {o : StoredObject} (ho : o ∈ state.objects)
    (hsome : revalidate state.getObjectInfo known = .ok (some o.info)) :
    PicksAsListed state parent known ↔ state.fileNamed parent known.filename = some o.info := by
  obtain ⟨path, hpath, -⟩ := new_single hname
  have hpicked : pickFile state.storage state.getObjectInfo parent known false =
      .ok ⟨[entryFrom path o.info], [(path, o.info.handle)], []⟩ := by
    rw [pickFile, if_neg Bool.false_ne_true, hsome]
    dsimp only
    rw [walkedFile, hpath]
  rw [PicksAsListed, hpicked, pickByName_eq hname hlisted hpath]
  constructor
  · rintro (⟨walked, hwalked, hlist⟩ | ⟨_, -, hbad, -⟩)
    · cases hfile : state.fileNamed parent known.filename with
      | none =>
        rw [hfile] at hlist
        cases hlist
      | some info =>
        rw [hfile, ← hwalked] at hlist
        -- one handle, one object
        have hhandle : info.handle = o.info.handle := by
          have hhandles := congrArg Walked.handles (Except.ok.inj hlist)
          exact (Prod.mk.inj (List.singleton_inj.mp hhandles)).2
        obtain ⟨⟨q, hq, rfl, -⟩, -⟩ := DeviceState.fileNamed_mem hfile
        rw [DeviceState.object_eq hq ho hhandle]
    · cases hbad
  · intro hfile
    rw [hfile]
    exact Or.inl ⟨_, rfl, rfl⟩

/-- Where the folder cannot be listed, the listing refuses what a pick by handle may find. -/
theorem not_agrees_of_failing {e : MtpError} (hfailing : state.failing parent = some e) :
    ¬PicksAsListed state parent known := by
  rintro (⟨walked, -, hlist⟩ | ⟨path, -, -, hlist⟩)
  · rw [pickByName_failing hfailing] at hlist
    cases hlist
  · rw [pickByName_failing hfailing] at hlist
    exact absurd (Except.error.inj hlist) (ofMtp_ne_sourceVanished e path)

/-- Where the handle stands for an object, all depends on whether it is still the file. -/
theorem agrees_iff_of_object (hname : validateSegment known.filename = .ok ())
    (hlisted : state.failing parent = none) {o : StoredObject} (ho : o ∈ state.objects)
    (hhandle : o.info.handle = known.handle)
    (hinfo : state.getObjectInfo known.handle = .ok o.info) :
    PicksAsListed state parent known ↔ StillAtHome state parent known := by
  have hrefused (r : RefusedObject) (hr : r ∈ state.refused)
      (hsame : r.object.handle = known.handle) : r.object.error.isStaleHandle = true :=
    absurd (hhandle.trans hsame.symm) (DeviceState.object_not_refused ho hr)
  by_cases hfile : o.info.filename = known.filename ∧ o.info.folder = false
  · have hsome : revalidate state.getObjectInfo known = .ok (some o.info) := by
      rw [revalidate, hinfo]
      dsimp only
      rw [if_pos hfile]
    rw [picks_as_listed_of_some hname hlisted ho hsome, DeviceState.fileNamed_eq_some]
    constructor
    · rintro ⟨hfree, hfirst, -⟩
      refine ⟨hlisted, hrefused, ?_⟩
      intro q hq hsame _ _
      rw [DeviceState.object_eq hq ho (hsame.trans hhandle.symm)]
      exact ⟨hfree, hfirst⟩
    · intro h
      obtain ⟨hfree, hfirst⟩ := h.home o ho hhandle hfile.1 hfile.2
      exact ⟨hfree, hfirst, hfile.2⟩
  -- another name or a folder: the pick lists as well, and there is no file left to find home
  · have hnone : revalidate state.getObjectInfo known = .ok none := by
      rw [revalidate, hinfo]
      dsimp only
      rw [if_neg hfile]
    refine iff_of_true (picks_as_listed_of_none hname hlisted hnone) ⟨hlisted, hrefused, ?_⟩
    intro q hq hsame hqname hqfile
    rw [DeviceState.object_eq hq ho (hsame.trans hhandle.symm)] at hqname hqfile
    exact absurd ⟨hqname, hqfile⟩ hfile

/-- Where the device refuses the handle, only a refusal as stale makes the pick list. -/
theorem agrees_iff_of_refused (hname : validateSegment known.filename = .ok ())
    (hlisted : state.failing parent = none) {r : RefusedObject} (hr : r ∈ state.refused)
    (hhandle : r.object.handle = known.handle)
    (hinfo : state.getObjectInfo known.handle = .error r.object.error) :
    PicksAsListed state parent known ↔ StillAtHome state parent known := by
  have hother (q : StoredObject) (hq : q ∈ state.objects) : q.info.handle ≠ known.handle := by
    rw [← hhandle]
    exact DeviceState.object_not_refused hq hr
  cases hstale : r.object.error.isStaleHandle with
  | true =>
    -- refused as stale: the folder is listed, and no stored object answers to the handle
    have hnone : revalidate state.getObjectInfo known = .ok none := by
      rw [revalidate, hinfo]
      dsimp only
      rw [if_pos hstale]
    refine iff_of_true (picks_as_listed_of_none hname hlisted hnone) ⟨hlisted, ?_, ?_⟩
    · intro q hq hsame
      rw [DeviceState.refused_eq hq hr (hsame.trans hhandle.symm)]
      exact hstale
    · intro q hq hsame
      exact absurd hsame (hother q hq)
  | false =>
    -- any other refusal is the answer, and never that the file has vanished
    have hpicked : pickFile state.storage state.getObjectInfo parent known false =
        .error (.ofMtp r.object.error) := by
      rw [pickFile, if_neg Bool.false_ne_true, revalidate, hinfo]
      dsimp only
      rw [hstale, if_neg Bool.false_ne_true]
    apply iff_of_false
    · rintro (⟨walked, hbad, -⟩ | ⟨path, -, hbad, -⟩)
      · rw [hpicked] at hbad
        cases hbad
      · rw [hpicked] at hbad
        exact ofMtp_ne_sourceVanished _ path (Except.error.inj hbad)
    · intro h
      have hbad := h.described r hr hhandle
      rw [hstale] at hbad
      cases hbad

/-- Picking by handle agrees with picking by name exactly while a file that still goes by the
handle and the name is the one the folder lists. -/
theorem pick_file_agrees_iff {stream : ObjectStream} {root : RemotePath}
    (hopen : locateRoot stream root = .ok ⟨parent, some known⟩) (state : DeviceState) :
    PicksAsListed state parent known ↔ StillAtHome state parent known := by
  obtain ⟨hname, -⟩ := locateRoot_known hopen
  cases hlisted : state.failing parent with
  | some e =>
    apply iff_of_false (not_agrees_of_failing hlisted)
    intro h
    rw [h.listed] at hlisted
    cases hlisted
  | none =>
    rcases getObjectInfo_cases state known.handle with
      ⟨o, ho, hhandle, hinfo⟩ | ⟨r, hr, hhandle, hinfo⟩ | ⟨hinfo, hobjects, hrefused⟩
    · exact agrees_iff_of_object hname hlisted ho hhandle hinfo
    · exact agrees_iff_of_refused hname hlisted hr hhandle hinfo
    · have hnone : revalidate state.getObjectInfo known = .ok none := by
        rw [revalidate, hinfo]
        rfl
      refine iff_of_true (picks_as_listed_of_none hname hlisted hnone) ⟨hlisted, ?_, ?_⟩
      · intro r hr hsame
        exact absurd hsame (hrefused r hr)
      · intro q hq hsame
        exact absurd hsame (hobjects q hq)

end Agreement

section Moved

private def dcim : ObjectInfo := ⟨⟨1⟩, "DCIM", true, 0, none⟩

private def trash : ObjectInfo := ⟨⟨2⟩, "Trash", true, 0, none⟩

private def shot : ObjectInfo := ⟨⟨3⟩, "a.jpg", false, 7, none⟩

/-- What the folders of the phone stream while `/DCIM/a.jpg` is opened. -/
private def openStream : ObjectStream
  | none => .ok [.ok (.object dcim), .ok (.object trash)]
  | some handle => .ok (if handle = dcim.handle then [.ok (.object shot)] else [])

private def shotPath : RemotePath := ⟨RelPath.ofSegments ["DCIM", "a.jpg"]⟩

/-- The phone once the photo lies in the folder `folder`. -/
private def phoneWith (folder : ObjectHandle) : DeviceState where
  rootHandle := ⟨0⟩
  objects := [⟨none, dcim⟩, ⟨none, trash⟩, ⟨some folder, shot⟩]
  refused := []
  failing := fun _ => none
  distinct := by
    change [ObjectHandle.mk 1, ⟨2⟩, ⟨3⟩].Nodup
    decide

theorem pick_file_agrees_iff_unmoved :
    locateRoot openStream shotPath = .ok ⟨some dcim.handle, some shot⟩ ∧
      (PicksAsListed (phoneWith dcim.handle) (some dcim.handle) shot ↔
        StillAtHome (phoneWith dcim.handle) (some dcim.handle) shot) ∧
      PicksAsListed (phoneWith dcim.handle) (some dcim.handle) shot := by
  have hopen : locateRoot openStream shotPath = .ok ⟨some dcim.handle, some shot⟩ := rfl
  refine ⟨hopen, pick_file_agrees_iff hopen (phoneWith dcim.handle), ?_⟩
  exact Or.inl ⟨_, rfl, rfl⟩

/-- A photo moved to another folder is still picked by its handle, where the listing of its own
folder finds it gone. -/
theorem pick_file_follows_moved_file :
    locateRoot openStream shotPath = .ok ⟨some dcim.handle, some shot⟩ ∧
      ¬PicksAsListed (phoneWith trash.handle) (some dcim.handle) shot := by
  refine ⟨rfl, ?_⟩
  rintro (⟨walked, -, hlist⟩ | ⟨path, -, hpicked, -⟩)
  · have hgone : pickByName (phoneWith trash.handle).storage (some dcim.handle) shot.filename =
        .error (.sourceVanished (RelPath.ofSegments ["a.jpg"])) := rfl
    rw [hgone] at hlist
    cases hlist
  · cases hpicked

end Moved

end MtpxCore
