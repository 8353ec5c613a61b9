import MtpxCore.LocalScan

/-! What a local scan finds, as a set: the objects it lists, the records it vouches for, and
the one way it can fail once its root is there. -/
namespace MtpxCore

theorem segmentsOf_ok {path : List OsName} {segments : List String}
    (h : segmentsOf path = .ok segments) : path = segments.map OsName.utf8 := by
  induction path generalizing segments with
  | nil =>
    cases h
    rfl
  | cons name rest ih =>
    cases name with
    | raw lossy bytes => exact absurd h (by simp [segmentsOf, segmentOf, OsName.toStr])
    | utf8 text =>
      rw [segmentsOf, segmentOf, OsName.toStr] at h
      dsimp only at h
      split at h
      · exact absurd h (by simp)
      · rename_i tail ht
        cases h
        rw [ih ht, List.map_cons]

/-- A local path that can be named is the one its name stands for. -/
theorem relative_ok {local_ : List OsName} {path : RelPath} (h : relative local_ = .ok path) :
    local_ = path.toLocalPath := by
  rw [relative] at h
  split at h
  · exact absurd h (by simp)
  · rename_i segments hs
    rw [RelPath.toLocalPath, RelPath.new_ok h]
    exact segmentsOf_ok hs

theorem RelPath.new_exists {segments : List String}
    (h : ∀ segment ∈ segments, validateSegment segment = .ok ()) :
    ∃ path, RelPath.new segments = .ok path := by
  induction segments with
  | nil => exact ⟨_, rfl⟩
  | cons segment rest ih =>
    obtain ⟨tail, ht⟩ := ih (fun s hs => h s (List.mem_cons_of_mem segment hs))
    rw [RelPath.new]
    split
    · rename_i e he
      exact absurd ((h segment List.mem_cons_self).symm.trans he) (by simp)
    · rw [ht]
      exact ⟨_, rfl⟩

theorem segmentsOf_utf8 (segments : List String) :
    segmentsOf (segments.map OsName.utf8) = .ok segments := by
  induction segments with
  | nil => rfl
  | cons segment rest ih =>
    rw [List.map_cons, segmentsOf, segmentOf, OsName.toStr]
    dsimp only
    rw [ih]

/-- What a valid path stands for locally is named by that path. -/
theorem relative_toLocalPath (path : RelPath) : relative path.toLocalPath = .ok path := by
  rw [relative, RelPath.toLocalPath, segmentsOf_utf8]
  obtain ⟨p, hp⟩ := RelPath.new_exists path.valid
  dsimp only
  rw [hp, RelPath.segments_injective (RelPath.new_ok hp)]

section Records

variable {vol : Volume} {codec : SidecarCodec} {tree : LocalTree} {peer : Identity}

/-- A record's path is that of the file it is about, with the suffix of records. -/
theorem finalPathOf_some {sidecar finalPath : List OsName}
    (h : finalPathOf sidecar = some finalPath) :
    ∃ dir stem, finalPath = dir ++ [.utf8 stem] ∧
      sidecar = dir ++ [.utf8 (stem ++ SIDECAR_SUFFIX)] := by
  rw [finalPathOf] at h
  split at h
  · rename_i name hlast
    split at h
    · rename_i hsuffix
      dsimp only at h
      split at h
      · exact absurd h (by simp)
      · obtain ⟨dir, rfl⟩ := List.getLast?_eq_some_iff.mp hlast
        obtain ⟨stem, hstem⟩ := List.isSuffixOf_iff_suffix.mp hsuffix
        have htake : name.toList.take (name.toList.length - SIDECAR_SUFFIX.length) = stem := by
          rw [← hstem, ← String.length_toList, List.length_append, Nat.add_sub_cancel_right,
            List.take_left]
        rw [htake, List.dropLast_concat] at h
        refine ⟨dir, String.ofList stem, (Option.some.inj h).symm, ?_⟩
        have hname : name = String.ofList stem ++ SIDECAR_SUFFIX := by
          apply String.toList_inj.mp
          rw [String.toList_append, String.toList_ofList, hstem]
        rw [hname]
    · exact absurd h (by simp)
  · exact absurd h (by simp)

/-- A record that is not too long is read for what it says. -/
theorem readSidecar_short {finalPath : List OsName} {text : Bytes} {record : Sidecar}
    (hget : tree.get vol (osWithSuffix finalPath SIDECAR_SUFFIX) = some (.file text true))
    (hshort : text.length ≤ MAX_SIDECAR_BYTES) (hdecode : codec.decode text = some record) :
    readSidecar vol codec tree finalPath = .ok (some record) := by
  rw [readSidecar, hget]
  dsimp only
  rw [if_neg (Nat.not_lt.mpr hshort), hdecode]

/-- A reserved file that is no record is passed over. -/
theorem visit_passes {node : Node} {name : String} (hfile : node.obj.isFile = true)
    (hname : node.name = name) (hreserved : isReservedName name = true)
    (hside : endsWith name SIDECAR_SUFFIX = false) (found : Found) :
    visit vol codec tree peer node found = .ok found := by
  rw [visit, hname, hfile, hreserved, hside]
  rfl

/-- A record adds to the partials what is collected of it. -/
theorem visit_record {node : Node} {name : String} (hfile : node.obj.isFile = true)
    (hname : node.name = name) (hreserved : isReservedName name = true)
    (hside : endsWith name SIDECAR_SUFFIX = true) {o : Option (RelPath × PartialInfo)}
    (hcollect : collectPartial vol codec tree peer node.path = .ok o) (found : Found) :
    visit vol codec tree peer node found = .ok { found with
      partials := o.elim found.partials fun p => found.partials.insert p.1 p.2 } := by
  rw [visit, hname, hfile, hreserved, hside, hcollect]
  cases o <;> rfl

/-- Everything that must line up before the scan vouches for a partial. -/
theorem collectPartial_some {sidecar : List OsName} {path : RelPath} {info : PartialInfo}
    (h : collectPartial vol codec tree peer sidecar = .ok (some (path, info))) :
    ∃ record len, finalPathOf sidecar = some path.toLocalPath ∧
      readSidecar vol codec tree path.toLocalPath = .ok (some record) ∧
      partLen vol tree (osWithSuffix path.toLocalPath PART_SUFFIX) = some len ∧
      record.isValidFor peer len = true ∧ record.path = path.display ∧
      info = ⟨record.fingerprint, record.bytes⟩ := by
  rw [collectPartial] at h
  split at h
  · exact absurd h (by simp)
  · exact absurd h (by simp)
  · rename_i finalPath record len hload
    split at h
    · exact absurd h (by simp)
    · rename_i p hrel
      split at h
      · rename_i hvalid
        rw [Bool.and_eq_true, decide_eq_true_eq] at hvalid
        cases h
        have hfinal := relative_ok hrel
        subst hfinal
        rw [loadPartial] at hload
        split at hload
        · exact absurd hload (by simp)
        · rename_i fp hfp
          split at hload
          · exact absurd hload (by simp)
          · exact absurd hload (by simp)
          · rename_i s hs
            split at hload
            · exact absurd hload (by simp)
            · rename_i l hl
              cases hload
              exact ⟨record, len, hfp, hs, hl, hvalid.1, hvalid.2, rfl⟩
      · exact absurd h (by simp)

/-- A path has at most one partial, wherever its record was come across. -/
theorem collectPartial_unique {sidecar sidecar' : List OsName} {path : RelPath}
    {info info' : PartialInfo}
    (h : collectPartial vol codec tree peer sidecar = .ok (some (path, info)))
    (h' : collectPartial vol codec tree peer sidecar' = .ok (some (path, info'))) :
    info = info' := by
  obtain ⟨record, -, -, hr, -, -, -, rfl⟩ := collectPartial_some h
  obtain ⟨record', -, -, hr', -, -, -, rfl⟩ := collectPartial_some h'
  cases hr.symm.trans hr'
  rfl

end Records

section Loop

variable (vol : Volume) (codec : SidecarCodec) (tree : LocalTree) (peer : Identity)

/-- The object is kept out of the listing as a transfer file. -/
def Node.isTransferFile (node : Node) : Bool := node.obj.isFile && isReservedName node.name

/-- The walk lists `node` as `e`. -/
def Lists (node : Node) (e : Entry) : Prop :=
  node.isTransferFile = false ∧ ∃ path, relative node.path = .ok path ∧ localEntry path node.obj = some e

/-- The walk takes `node` for the record of a partial. -/
def Vouches (node : Node) (p : RelPath × PartialInfo) : Prop :=
  node.isTransferFile = true ∧ endsWith node.name SIDECAR_SUFFIX = true ∧
    collectPartial vol codec tree peer node.path = .ok (some p)

/-- The walk ends at `node`, whose record cannot be read. -/
def Breaks (node : Node) : Prop :=
  node.isTransferFile = true ∧ endsWith node.name SIDECAR_SUFFIX = true ∧
    ∃ e, collectPartial vol codec tree peer node.path = .error e

variable {vol codec tree peer} {node : Node} {found found' : Found}

theorem visit_ok (h : visit vol codec tree peer node found = .ok found') :
    ¬Breaks vol codec tree peer node ∧
      (∀ e, e ∈ found'.entries ↔ e ∈ found.entries ∨ Lists node e) ∧
      ∀ p, p ∈ found'.partials ↔ p ∈ found.partials ∨ Vouches vol codec tree peer node p := by
  unfold visit at h
  split at h
  -- a transfer file is never listed, and only a record vouches for a partial
  · rename_i htransfer
    have hlists (e : Entry) : ¬Lists node e := by
      intro hl
      exact absurd (htransfer.symm.trans hl.1) (by simp)
    split at h
    · rename_i hsuffix
      cases hc : collectPartial vol codec tree peer node.path with
      | error e =>
        rw [hc] at h
        exact absurd h (by simp)
      | ok r =>
        have hbreaks : ¬Breaks vol codec tree peer node := by
          intro hb
          obtain ⟨-, -, e, he⟩ := hb
          exact absurd (hc.symm.trans he) (by simp)
        cases r with
        | none =>
          rw [hc] at h
          cases h
          refine ⟨hbreaks, fun e => by simp [hlists e], fun p => ?_⟩
          simp [Vouches, hc]
        | some q =>
          rw [hc] at h
          cases h
          refine ⟨hbreaks, fun e => by simp [hlists e], fun p => ?_⟩
          have hv : Vouches vol codec tree peer node p ↔ p = q := by
            constructor
            · intro hv
              exact (Option.some.inj (Except.ok.inj (hc.symm.trans hv.2.2))).symm
            · intro hpq
              rw [hpq]
              exact ⟨htransfer, hsuffix, hc⟩
          rw [hv, Partials.insert, List.mem_cons, or_comm]
    · rename_i hsuffix
      cases h
      refine ⟨fun hb => hsuffix hb.2.1, fun e => by simp [hlists e], fun p => ?_⟩
      simp [Vouches, hsuffix]
  · rename_i htransfer
    have hplain : node.isTransferFile = false := Bool.eq_false_of_not_eq_true htransfer
    have hbreaks : ¬Breaks vol codec tree peer node := fun hb => htransfer hb.1
    have hvouches (p : RelPath × PartialInfo) : ¬Vouches vol codec tree peer node p :=
      fun hv => htransfer hv.1
    cases hr : relative node.path with
    | error reason =>
      rw [hr] at h
      cases h
      exact ⟨hbreaks, fun e => by simp [Lists, hr], fun p => by simp [hvouches p]⟩
    | ok path =>
      rw [hr] at h
      cases h
      refine ⟨hbreaks, fun e => ?_, fun p => by simp [hvouches p]⟩
      simp [Lists, hr, hplain]

theorem visit_exists (h : ¬Breaks vol codec tree peer node) (found : Found) :
    ∃ found', visit vol codec tree peer node found = .ok found' := by
  unfold visit
  split
  · rename_i htransfer
    split
    · rename_i hsuffix
      cases hc : collectPartial vol codec tree peer node.path with
      | error e => exact absurd ⟨htransfer, hsuffix, e, hc⟩ h
      | ok r => cases r <;> exact ⟨_, rfl⟩
    · exact ⟨_, rfl⟩
  · cases relative node.path <;> exact ⟨_, rfl⟩

variable {only : Option String} {cancelled : ℕ → Bool} {items : List WalkItem} {asked : ℕ}

/-- What a walk that ends well has collected. -/
theorem walkFrom_ok
    (h : walkFrom vol codec tree peer only cancelled asked items found = .ok found') :
    (∀ node, .entry node ∈ items → wanted only node = true → ¬Breaks vol codec tree peer node) ∧
      (∀ e, e ∈ found'.entries ↔ e ∈ found.entries ∨
        ∃ node, .entry node ∈ items ∧ wanted only node = true ∧ Lists node e) ∧
      ∀ p, p ∈ found'.partials ↔ p ∈ found.partials ∨
        ∃ node, .entry node ∈ items ∧ wanted only node = true ∧ Vouches vol codec tree peer node p := by
  induction items generalizing found asked with
  | nil =>
    cases h
    exact ⟨by simp, by simp, by simp⟩
  | cons item items ih =>
    unfold walkFrom at h
    split at h
    · exact absurd h (by simp)
    · cases item with
      | unreadable path =>
        -- an unreadable place only adds to the report
        obtain ⟨hb, he, hp⟩ := ih h
        refine ⟨?_, ?_, ?_⟩
        · simpa using hb
        · simpa using he
        · simpa using hp
      | entry n =>
        dsimp only at h
        split at h
        · rename_i hw
          have hw' : wanted only n = false := by simpa using hw
          obtain ⟨hb, he, hp⟩ := ih h
          refine ⟨?_, ?_, ?_⟩
          · intro node hm hwn
            rcases List.mem_cons.mp hm with heq | hm
            · cases heq
              rw [hw'] at hwn
              exact absurd hwn (by simp)
            · exact hb node hm hwn
          · intro e
            rw [he]
            simp [hw']
          · intro p
            rw [hp]
            simp [hw']
        · rename_i hw
          have hw' : wanted only n = true := by simpa using hw
          split at h
          · exact absurd h (by simp)
          · rename_i mid hv
            obtain ⟨hbn, hen, hpn⟩ := visit_ok hv
            obtain ⟨hb, he, hp⟩ := ih h
            refine ⟨?_, ?_, ?_⟩
            · intro node hm hwn
              rcases List.mem_cons.mp hm with heq | hm
              · cases heq
                exact hbn
              · exact hb node hm hwn
            · intro e
              rw [he, hen, or_assoc]
              simp [hw']
            · intro p
              rw [hp, hpn, or_assoc]
              simp [hw']

/-- A walk that nobody cancels and that meets no unreadable record ends well. -/
theorem walkFrom_exists (found : Found) (asked : ℕ)
    (h : ∀ node, .entry node ∈ items → wanted only node = true →
      ¬Breaks vol codec tree peer node) :
    ∃ found', walkFrom vol codec tree peer only (fun _ => false) asked items found = .ok found' := by
  induction items generalizing found asked with
  | nil => exact ⟨found, rfl⟩
  | cons item items ih =>
    have htail (found : Found) := ih found (asked + 1)
      (fun node hm hw => h node (List.mem_cons_of_mem _ hm) hw)
    unfold walkFrom
    rw [if_neg (by simp)]
    cases item with
    | unreadable path => exact htail _
    | entry n =>
      dsimp only
      split
      · exact htail _
      · rename_i hw
        obtain ⟨mid, hv⟩ := visit_exists (h n List.mem_cons_self (by simpa using hw)) found
        rw [hv]
        exact htail _

/-- The root itself is the only folder above its own objects. -/
theorem reached_root {name : OsName} :
    reached tree [name] = true ↔ Node.mk [] (.dir true) ∈ tree := by
  rw [reached, List.all_eq_true]
  constructor
  · intro h
    have h0 := h 0 (by simp)
    rw [Bool.and_eq_true, decide_eq_true_eq] at h0
    exact h0.1
  · intro h n hn
    have h0 : n = 0 := by simpa using hn
    rw [h0, Bool.and_eq_true, decide_eq_true_eq, Bool.or_eq_true]
    exact ⟨h, Or.inl rfl⟩

theorem mem_walkItems {maxDepth : Option ℕ} :
    .entry node ∈ walkItems tree maxDepth ↔ node ∈ tree ∧ node.path ≠ [] ∧
      maxDepth.all (fun depth => decide (node.path.length ≤ depth)) = true ∧
      reached tree node.path = true ∧ node.obj ≠ .danglingLink := by
  rw [walkItems, List.mem_append, List.mem_flatMap]
  constructor
  · intro h
    rcases h with h | h
    · split at h <;> simp at h
    · obtain ⟨n, hn, hm⟩ := h
      -- an item is the node it was made of, which is no dangling link
      have hitem : node = n ∧ node.obj ≠ .danglingLink := by
        split at hm
        · simp at hm
        · rename_i hobj
          have hnode : node = n := by split at hm <;> simpa using hm
          exact ⟨hnode, by rw [hnode, hobj]; simp⟩
        · rename_i hlink _
          have hnode : node = n := by simpa using hm
          exact ⟨hnode, by rw [hnode]; exact hlink⟩
      obtain ⟨rfl, hobj⟩ := hitem
      simp only [List.mem_filter, Bool.and_eq_true, decide_eq_true_eq] at hn
      exact ⟨hn.1, hn.2.1.1, hn.2.1.2, hn.2.2, hobj⟩
  · intro h
    obtain ⟨hm, hne, hd, hr, hobj⟩ := h
    refine Or.inr ⟨node, ?_, ?_⟩
    · simp only [List.mem_filter, Bool.and_eq_true, decide_eq_true_eq]
      exact ⟨hm, ⟨hne, hd⟩, hr⟩
    · split
      · rename_i hlink
        exact absurd hlink hobj
      · split <;> simp
      · simp

/-- What a scan that ends well rests on: its walk, or nothing where the root is missing. -/
theorem scanLocal_ok {label : String} {detected : NameFolding} {result : ScanResult}
    (h : scanLocal vol codec tree label detected peer only cancelled = .ok result) :
    ∃ present found, rootIsPresent vol tree = .ok present ∧
      walkFrom vol codec tree peer only cancelled 0
        (if present then walkItems tree (only.map (fun _ => 1)) else []) ⟨[], [], []⟩ = .ok found ∧
      result = ⟨Snapshot.new label found.entries found.skipped, found.partials, detected⟩ := by
  rw [scanLocal] at h
  split at h
  · exact absurd h (by simp)
  · rename_i present hp
    dsimp only at h
    split at h
    · exact absurd h (by simp)
    · rename_i found hf
      by_cases hc : cancelled (if present then walkItems tree (only.map (fun _ => 1))
          else []).length = true
      · rw [if_pos hc] at h
        exact absurd h (by simp)
      · rw [if_neg hc] at h
        exact ⟨present, found, hp, hf, (Except.ok.inj h).symm⟩

end Loop

end MtpxCore
