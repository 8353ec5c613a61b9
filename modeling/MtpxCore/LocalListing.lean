import MtpxCore.InterruptedCopies
import MtpxCore.PlannerConverges

/-! A local tree as the abstract destination of a plan. Of a tree whose every object can be
listed and named, a full scan shows exactly what the volume holds under each name; and a scan
that reports nothing skipped has met such a tree. A scan is taken to have detected the folding
of the volume. -/
namespace MtpxCore

/-- What a scan shows of an object it comes to: nothing of the root, of a transfer file, or of
what is neither a file nor a folder. -/
def Node.held (node : Node) : Option Held :=
  if node.path = [] ∨ node.isTransferFile = true then none
  else (kindOf node.obj).map fun kind => ⟨kind, node.obj.len⟩

namespace LocalTree

variable (vol : Volume)

/-- The object under a name, as the volume compares names. -/
def nodeAt (tree : LocalTree) (key : Key) : Option Node :=
  List.find? (fun node => decide (vol.foldPath node.path = key)) tree

/-- The tree as an abstract destination. -/
def store (tree : LocalTree) : Store := fun key =>
  (tree.nodeAt vol (key.map OsName.utf8)).bind Node.held

/-- Every folder can be listed, and every folder and file can be named, transfer files aside. -/
structure Plain (tree : LocalTree) : Prop where
  links : ∀ node ∈ tree, node.path ≠ [] → node.obj ≠ .danglingLink
  folders : ∀ node ∈ tree, node.obj.isDir = true → node.obj = .dir true
  names : ∀ node ∈ tree, node.isTransferFile = false → (kindOf node.obj).isSome = true →
    ∃ path, relative node.path = .ok path

end LocalTree

section Nodes

variable {vol : Volume} {tree : LocalTree} {node : Node}

theorem Node.held_eq_some {h : Held} : node.held = some h ↔
    node.path ≠ [] ∧ node.isTransferFile = false ∧ kindOf node.obj = some h.kind ∧
      node.obj.len = h.size := by
  obtain ⟨kind, size⟩ := h
  rw [Node.held]
  split
  · rename_i hout
    constructor
    · intro h
      exact absurd h (by simp)
    · intro h
      obtain ⟨hne, hplain, -⟩ := h
      rcases hout with hroot | htransfer
      · exact absurd hroot hne
      · exact absurd (htransfer.symm.trans hplain) (by simp)
  · rename_i hin
    rw [not_or, Bool.not_eq_true] at hin
    simp [hin]

theorem Node.isTransferFile_dir {path : List OsName} {readable : Bool} :
    (Node.mk path (.dir readable)).isTransferFile = false := rfl

/-- What a scan lists of an object is what it shows of it. -/
theorem Lists.held {e : Entry} (h : Lists node e) (hne : node.path ≠ []) :
    node.held = some ⟨e.kind, e.size⟩ := by
  obtain ⟨hplain, path, -, he⟩ := h
  refine Node.held_eq_some.mpr ⟨hne, hplain, ?_⟩
  rw [localEntry] at he
  split at he
  · rename_i hk
    rw [← Option.some.inj he]
    refine ⟨hk, ?_⟩
    cases hobj : node.obj with
    | dir readable => rfl
    | file bytes readable =>
      rw [hobj] at hk
      exact absurd hk (by simp [kindOf])
    | special => rfl
    | danglingLink => rfl
  · rename_i hk
    rw [← Option.some.inj he]
    exact ⟨hk, rfl⟩
  · exact absurd he (by simp)

theorem exists_lists {h : Held} (hheld : node.held = some h) {path : RelPath}
    (hname : relative node.path = .ok path) : ∃ e, Lists node e := by
  obtain ⟨-, hplain, hkind, -⟩ := Node.held_eq_some.mp hheld
  have hentry : ∃ e, localEntry path node.obj = some e := by
    rw [localEntry, hkind]
    cases h.kind <;> exact ⟨_, rfl⟩
  obtain ⟨e, he⟩ := hentry
  exact ⟨e, hplain, path, hname, he⟩

/-- Under unique names an object is found exactly where it is. -/
theorem LocalTree.UniquePaths.nodeAt_eq_some (h : tree.UniquePaths vol) {key : Key} :
    tree.nodeAt vol key = some node ↔ node ∈ tree ∧ vol.foldPath node.path = key := by
  constructor
  · intro hfind
    exact ⟨List.mem_of_find?_eq_some hfind, by simpa using List.find?_some hfind⟩
  · intro hm
    obtain ⟨hm, rfl⟩ := hm
    exact h.find hm rfl

theorem LocalTree.UniquePaths.store_eq_some (h : tree.UniquePaths vol) {key : List String}
    {x : Held} : tree.store vol key = some x ↔
      ∃ node ∈ tree, vol.foldPath node.path = key.map OsName.utf8 ∧ node.held = some x := by
  rw [LocalTree.store, Option.bind_eq_some_iff]
  constructor
  · intro hex
    obtain ⟨node, hfind, hheld⟩ := hex
    obtain ⟨hm, hkey⟩ := h.nodeAt_eq_some.mp hfind
    exact ⟨node, hm, hkey, hheld⟩
  · intro hex
    obtain ⟨node, hm, hkey, hheld⟩ := hex
    exact ⟨node, h.nodeAt_eq_some.mpr ⟨hm, hkey⟩, hheld⟩

/-- The walk comes to what lies in a folder it has come to, can list and can name. -/
theorem reached_child {path : List OsName} (hdir : Node.mk path.dropLast (.dir true) ∈ tree)
    (hname : path.dropLast = [] ∨ (relative path.dropLast).isOk = true)
    (hreached : reached tree path.dropLast = true) : reached tree path = true := by
  refine reached_iff.mpr fun d hd hne => ?_
  rcases List.eq_nil_or_concat path with rfl | ⟨parent, name, rfl⟩
  · exact absurd (List.prefix_nil.mp hd) hne
  · rw [List.concat_eq_append] at *
    rw [List.dropLast_concat] at hdir hname hreached
    by_cases htop : d = parent
    · rw [htop]
      exact ⟨hdir, hname⟩
    · exact reached_iff.mp hreached d ((List.prefix_concat_iff.mp hd).resolve_left hne) htop

end Nodes

section Walks

variable {vol : Volume} {codec : SidecarCodec} {tree : LocalTree} {peer : Identity}
  {only : Option String} {cancelled : ℕ → Bool} {node : Node} {found found' : Found}

theorem visit_skipped (h : visit vol codec tree peer node found = .ok found')
    (hnone : found'.skipped = []) : found.skipped = [] ∧
      (node.isTransferFile = false → ∃ path, relative node.path = .ok path) := by
  unfold visit at h
  split at h
  · rename_i htransfer
    have hnot (P : Prop) (hplain : node.isTransferFile = false) : P :=
      absurd (htransfer.symm.trans hplain) (by simp)
    split at h
    · split at h
      · exact absurd h (by simp)
      · cases h
        exact ⟨hnone, hnot _⟩
      · cases h
        exact ⟨hnone, hnot _⟩
    · cases h
      exact ⟨hnone, hnot _⟩
  · cases hr : relative node.path with
    | error reason =>
      rw [hr] at h
      cases h
      exact absurd hnone (by simp)
    | ok path =>
      rw [hr] at h
      cases h
      exact ⟨hnone, fun _ => ⟨path, rfl⟩⟩

/-- A walk that reports nothing skipped could read and name whatever it came to. -/
theorem walkFrom_skipped {items : List WalkItem} {asked : ℕ}
    (h : walkFrom vol codec tree peer only cancelled asked items found = .ok found')
    (hnone : found'.skipped = []) : found.skipped = [] ∧ (∀ path, .unreadable path ∉ items) ∧
      ∀ node, .entry node ∈ items → wanted only node = true → node.isTransferFile = false →
        ∃ path, relative node.path = .ok path := by
  induction items generalizing found asked with
  | nil =>
    cases h
    exact ⟨hnone, by simp, by simp⟩
  | cons item items ih =>
    unfold walkFrom at h
    split at h
    · exact absurd h (by simp)
    · cases item with
      | unreadable path =>
        -- an unreadable place would have been skipped
        have hskipped := (ih h).1
        exact absurd hskipped (by simp)
      | entry n =>
        dsimp only at h
        split at h
        · rename_i hw
          have hw' : wanted only n = false := by simpa using hw
          obtain ⟨hskipped, hread, hnames⟩ := ih h
          refine ⟨hskipped, by simpa using hread, fun node hm hwn => ?_⟩
          rcases List.mem_cons.mp hm with heq | hm
          · cases heq
            exact absurd (hw'.symm.trans hwn) (by simp)
          · exact hnames node hm hwn
        · split at h
          · exact absurd h (by simp)
          · rename_i mid hv
            obtain ⟨hmid, hread, hnames⟩ := ih h
            obtain ⟨hskipped, hname⟩ := visit_skipped hv hmid
            refine ⟨hskipped, by simpa using hread, fun node hm hwn => ?_⟩
            rcases List.mem_cons.mp hm with heq | hm
            · cases heq
              exact hname
            · exact hnames node hm hwn

/-- A link that leads nowhere and a folder that cannot be listed are reported. -/
theorem unreadable_mem_walkItems (hm : node ∈ tree) (hne : node.path ≠ [])
    (hreached : reached tree node.path = true)
    (hobj : node.obj = .danglingLink ∨ node.obj = .dir false) :
    .unreadable node.path ∈ walkItems tree none := by
  rw [walkItems, List.mem_append, List.mem_flatMap]
  refine Or.inr ⟨node, ?_, ?_⟩
  · rw [List.mem_filter, Bool.and_eq_true, Bool.and_eq_true, decide_eq_true_eq]
    exact ⟨hm, ⟨hne, rfl⟩, hreached⟩
  · rcases hobj with hobj | hobj
    · rw [hobj]
      simp
    · rw [hobj]
      simp

end Walks

section Listing

variable {vol : Volume} {codec : SidecarCodec} {tree : LocalTree} {label : String}
  {peer : Identity} {detected : NameFolding} {cancelled : ℕ → Bool} {result : ScanResult}

/-- The walk comes to every object of a plain tree. -/
theorem LocalTree.Plain.reached (hp : tree.Plain) (hw : tree.WellFormed vol) {node : Node}
    (hm : node ∈ tree) : reached tree node.path = true := by
  refine reached_iff.mpr fun d hd hne => ?_
  obtain ⟨readable, hdir⟩ := hw.above hd hm hne
  obtain rfl : readable = true := by simpa using hp.folders _ hdir rfl
  refine ⟨hdir, Or.inr ?_⟩
  obtain ⟨path, hpath⟩ := hp.names _ hdir Node.isTransferFile_dir rfl
  rw [hpath]
  rfl

/-- The root of a tree with something in it is a folder. -/
theorem LocalTree.WellFormed.root (hw : tree.WellFormed vol) {node : Node} (hm : node ∈ tree)
    (hne : node.path ≠ []) : ∃ readable, Node.mk [] (.dir readable) ∈ tree :=
  hw.above List.nil_prefix hm (Ne.symm hne)

theorem rootIsPresent_of_dir (hw : tree.WellFormed vol) {readable : Bool}
    (hm : Node.mk [] (.dir readable) ∈ tree) : rootIsPresent vol tree = .ok true := by
  have hfind : tree.find vol [] = some ⟨[], .dir readable⟩ := hw.unique.find hm rfl
  rw [rootIsPresent, LocalTree.get, hfind]
  rfl

/-- A full scan that reports nothing skipped has met a plain tree. -/
theorem plain_of_scan (hw : tree.WellFormed vol)
    (hscan : scanLocal vol codec tree label detected peer none cancelled = .ok result)
    (hskipped : result.snapshot.skipped = []) : tree.Plain := by
  obtain ⟨present, found, hpresent, hwalk, rfl⟩ := scanLocal_ok hscan
  obtain ⟨-, hread, hnames⟩ := walkFrom_skipped hwalk hskipped
  have hroot (node : Node) (hm : node ∈ tree) (hne : node.path ≠ []) : present = true := by
    obtain ⟨readable, hdir⟩ := hw.root hm hne
    exact Except.ok.inj (hpresent.symm.trans (rootIsPresent_of_dir hw hdir))
  have hrootTrue (readable : Bool) (hm : Node.mk [] (.dir readable) ∈ tree) : readable = true := by
    by_contra hfalse
    rw [Bool.not_eq_true] at hfalse
    subst hfalse
    rw [rootIsPresent_of_dir hw hm] at hpresent
    rw [← Except.ok.inj hpresent] at hread
    refine hread [] ?_
    rw [if_pos rfl, walkItems, if_pos (decide_eq_true hm)]
    exact List.mem_append_left _ List.mem_cons_self
  have hobject (node : Node) (hm : node ∈ tree) (hne : node.path ≠ [])
      (hreached : MtpxCore.reached tree node.path = true) :
      node.obj ≠ .danglingLink ∧ node.obj ≠ .dir false ∧
        (node.isTransferFile = false → ∃ path, relative node.path = .ok path) := by
    have hpres := hroot node hm hne
    subst hpres
    rw [if_pos rfl, Option.map_none] at hread hnames
    have hlink : node.obj ≠ .danglingLink := fun h =>
      hread _ (unreadable_mem_walkItems hm hne hreached (Or.inl h))
    refine ⟨hlink, fun h => hread _ (unreadable_mem_walkItems hm hne hreached (Or.inr h)), ?_⟩
    exact hnames node (mem_walkItems.mpr ⟨hm, hne, rfl, hreached, hlink⟩) rfl
  -- by the depth of the object: its folder is reached, and can be listed and named
  have hall (node : Node) (hm : node ∈ tree) : MtpxCore.reached tree node.path = true := by
    induction hl : node.path.length generalizing node with
    | zero =>
      rw [List.length_eq_zero_iff.mp hl]
      rfl
    | succ l ih =>
      have hne : node.path ≠ [] := List.length_pos_iff.mp (by omega)
      obtain ⟨readable, hparent⟩ := hw.nested node hm hne
      have hreached := ih _ hparent (by rw [List.length_dropLast, hl]; rfl)
      by_cases htop : node.path.dropLast = []
      · rw [htop] at hparent
        obtain rfl := hrootTrue readable hparent
        exact reached_child (htop ▸ hparent) (Or.inl htop) hreached
      · obtain ⟨-, hdir, hname⟩ := hobject _ hparent htop hreached
        obtain ⟨path, hpath⟩ := hname Node.isTransferFile_dir
        cases readable with
        | false => exact absurd rfl hdir
        | true =>
          refine reached_child hparent (Or.inr ?_) hreached
          rw [show relative node.path.dropLast = .ok path from hpath]
          rfl
  refine ⟨fun node hm hne => (hobject node hm hne (hall node hm)).1, fun node hm hdir => ?_,
    fun node hm hplain _ => ?_⟩
  · obtain ⟨path, obj⟩ := node
    cases obj with
    | dir readable =>
      cases readable with
      | true => rfl
      | false =>
        by_cases htop : path = []
        · subst htop
          exact absurd (hrootTrue false hm) (by simp)
        · exact absurd rfl (hobject _ hm htop (hall _ hm)).2.1
    | _ => exact absurd hdir (by simp [Obj.isDir])
  · by_cases htop : node.path = []
    · rw [htop]
      exact ⟨RelPath.root, rfl⟩
    · exact (hobject node hm htop (hall node hm)).2.2 hplain

/-- A full scan of a plain tree shows what the volume holds. -/
theorem store_of_scan (hw : tree.WellFormed vol) (hp : tree.Plain)
    (hscan : scanLocal vol codec tree label detected peer none cancelled = .ok result) :
    Store.of vol.tables vol.folding result.snapshot = tree.store vol := by
  obtain ⟨-, hentries, -, -⟩ := scan_found hw.unique hscan
  have hunique : UniqueNames vol.tables vol.folding result.snapshot :=
    fun a ha b hb hk => scan_unique hw.unique hscan ha hb hk
  have hinj : Function.Injective (List.map OsName.utf8) :=
    List.map_injective_iff.mpr fun _ _ h => OsName.utf8.inj h
  funext key
  apply Option.ext
  intro x
  rw [hw.unique.store_eq_some, Store.of, Option.map_eq_some_iff]
  constructor
  · intro hex
    obtain ⟨e, hfirst, rfl⟩ := hex
    obtain ⟨node, hlooked, hlists⟩ := (hentries e).mp (SortedTable.first_mem hfirst)
    obtain ⟨hm, hne, -⟩ := mem_walkItems.mp hlooked.2.1
    refine ⟨node, hm, ?_, hlists.held hne⟩
    have hk := SortedTable.first_key hfirst
    rw [hlists.path, foldPath_toLocalPath, hk]
  · intro hex
    obtain ⟨node, hm, hkey, hheld⟩ := hex
    obtain ⟨hne, hplain, hkind, -⟩ := Node.held_eq_some.mp hheld
    obtain ⟨path, hpath⟩ := hp.names node hm hplain (by rw [hkind]; rfl)
    obtain ⟨e, hlists⟩ := exists_lists hheld hpath
    have hreached := hp.reached hw hm
    have hlooked : Looked vol tree none node := by
      obtain ⟨readable, hroot⟩ := hw.root hm hne
      refine ⟨rootIsPresent_of_dir hw hroot, ?_, rfl⟩
      exact mem_walkItems.mpr ⟨hm, hne, rfl, hreached, hp.links node hm hne⟩
    -- the walk came to the object and listed it
    have he : e ∈ result.snapshot.entries := (hentries e).mpr ⟨node, hlooked, hlists⟩
    have hfirst := first_of_uniqueKeys (uniqueKeys_of_uniqueNames hunique) he
    rw [hlists.path, foldPath_toLocalPath] at hkey
    rw [hinj hkey] at hfirst
    refine ⟨e, hfirst, ?_⟩
    exact Option.some.inj ((hlists.held hne).symm.trans hheld)

end Listing

end MtpxCore
