import MtpxCore.LocalTree

/-! Detecting whether the volume of a directory folds letter case (`local/folding.rs`): an
existing name is looked up again with its case flipped. A file system here is its directories,
each on a volume; a directory entry may lead to a directory of another volume. -/
namespace MtpxCore

/-- The case mappings of single characters. -/
structure LetterCase where
  isLowercase : Char → Bool
  upper : Char → List Char
  lower : Char → List Char

/-- `flip_case`. -/
def LetterCase.flipCase (letters : LetterCase) (name : String) : String :=
  String.ofList (name.toList.flatMap
    (fun c => if letters.isLowercase c then letters.upper c else letters.lower c))

/-- Case mapping that swaps letters one to one. -/
structure SwapCase extends LetterCase where
  swap : Char → Char
  flips : ∀ c, (if isLowercase c then upper c else lower c) = [swap c]
  involutive : ∀ c, swap (swap c) = c

namespace SwapCase

variable (letters : SwapCase)

/-- Of a letter's two cases the one that comes first. -/
def foldChar (c : Char) : Char := if c ≤ letters.swap c then c else letters.swap c

/-- A name as a volume compares it. -/
def nameKey (folds : Bool) : OsName → OsName
  | .utf8 text => .utf8 (if folds then String.ofList (text.toList.map letters.foldChar) else text)
  | .raw lossy bytes => .raw lossy bytes

/-- The name has a letter whose case can be flipped. -/
def flippable : OsName → Bool
  | .utf8 text => decide (letters.flipCase text ≠ text)
  | .raw _ _ => false

end SwapCase

inductive Inode where
  | file (number : ℕ)
  | dir (number : ℕ)
  deriving DecidableEq, Repr

structure DirEntry where
  name : OsName
  inode : Inode
  deriving DecidableEq, Repr

/-- Directories by number, each on a volume that folds case or not; no two entries of one
directory have one name for its volume. -/
structure FileSystem (letters : SwapCase) where
  root : ℕ
  entries : ℕ → List DirEntry
  volume : ℕ → ℕ
  volumeFolds : ℕ → Bool
  up : ℕ → ℕ
  opens : Inode → Bool
  distinct : ∀ d, (entries d).Pairwise (fun a b =>
    letters.nameKey (volumeFolds (volume d)) a.name ≠
      letters.nameKey (volumeFolds (volume d)) b.name)
  up_entry : ∀ d, ∀ e ∈ entries d, ∀ c, e.inode = .dir c → up c = d
  up_root : up root = root

/-- One component of an absolute path. -/
inductive PathStep where
  | name (name : OsName)
  | up
  deriving DecidableEq, Repr

abbrev LocalPath := List PathStep

namespace FileSystem

variable {letters : SwapCase} (fs : FileSystem letters)

/-- How names inside a directory are compared. -/
def folds (d : ℕ) : Bool := fs.volumeFolds (fs.volume d)

def lookup (d : ℕ) (name : OsName) : Option DirEntry :=
  (fs.entries d).find? (fun e =>
    decide (letters.nameKey (fs.folds d) e.name = letters.nameKey (fs.folds d) name))

def walk : Inode → LocalPath → Option Inode
  | inode, [] => some inode
  | .file _, _ :: _ => none
  | .dir d, .up :: path => walk (.dir (fs.up d)) path
  | .dir d, .name name :: path =>
    match fs.lookup d name with
    | none => none
    | some e => walk e.inode path

def resolve (path : LocalPath) : Option Inode := fs.walk (.dir fs.root) path

/-- `Path::is_dir`. -/
def isDir (path : LocalPath) : Bool :=
  match fs.resolve path with
  | some (.dir _) => true
  | _ => false

/-- `same_file::is_same_file`, where an error counts as a difference. -/
def isSameFile (a b : LocalPath) : Bool :=
  match fs.resolve a, fs.resolve b with
  | some i, some j => fs.opens i && fs.opens j && decide (i = j)
  | _, _ => false

/-- The path without the steps up. -/
def normalize : LocalPath → LocalPath → LocalPath
  | done, [] => done
  | done, .name name :: path => normalize (done ++ [.name name]) path
  | done, .up :: path => normalize done.dropLast path

/-- `fs::canonicalize`. -/
def canonicalize (path : LocalPath) : Option LocalPath :=
  match fs.resolve path with
  | none => none
  | some _ => some (normalize [] path)

/-- `Path::ancestors`: the path itself first, the root of the file system last. -/
def ancestors (path : LocalPath) : List LocalPath :=
  (List.range (path.length + 1)).map (fun n => path.take (path.length - n))

/-- The root as `nearest_existing` looks at it; a missing one keeps its steps up. -/
def absolute (root : LocalPath) : LocalPath := (fs.canonicalize root).getD root

def nearestExisting (root : LocalPath) : Option LocalPath :=
  (ancestors (fs.absolute root)).find? fs.isDir

def children (dir : LocalPath) : List LocalPath :=
  match fs.resolve dir with
  | some (.dir d) =>
    if fs.opens (.dir d) then (fs.entries d).map (fun e => dir ++ [.name e.name]) else []
  | _ => []

/-- `none` when the path has no letter whose case can be flipped. -/
def probe (path : LocalPath) : Option NameFolding :=
  match path.getLast? with
  | some (.name (.utf8 name)) =>
    let flipped := letters.flipCase name
    if flipped = name then none
    else some (if fs.isSameFile path (path.dropLast ++ [.name (.utf8 flipped)])
      then .caseInsensitive else .exact)
  | _ => none

def detect (root : LocalPath) : NameFolding :=
  match fs.nearestExisting root with
  | none => .exact
  | some base => ((base :: fs.children base).findSome? fs.probe).getD .exact

end FileSystem

section Names

variable {letters : SwapCase}

theorem SwapCase.flipCase_eq (letters : SwapCase) (name : String) :
    letters.flipCase name = String.ofList (name.toList.map letters.swap) := by
  have hflat (cs : List Char) : cs.flatMap
      (fun c => if letters.isLowercase c then letters.upper c else letters.lower c) =
        cs.map letters.swap := by
    induction cs with
    | nil => rfl
    | cons c cs ih => rw [List.flatMap_cons, letters.flips, ih, List.map_cons, List.singleton_append]
  rw [LetterCase.flipCase, hflat]

/-- The two cases of a letter fold to one. -/
theorem SwapCase.foldChar_swap (letters : SwapCase) (c : Char) :
    letters.foldChar (letters.swap c) = letters.foldChar c := by
  rw [SwapCase.foldChar, SwapCase.foldChar, letters.involutive]
  rcases lt_trichotomy c (letters.swap c) with hlt | heq | hgt
  · rw [if_neg (not_le.mpr hlt), if_pos hlt.le]
  · rw [← heq]
  · rw [if_pos hgt.le, if_neg (not_le.mpr hgt)]

theorem SwapCase.nameKey_flipCase (letters : SwapCase) (name : String) :
    letters.nameKey true (.utf8 (letters.flipCase name)) = letters.nameKey true (.utf8 name) := by
  rw [SwapCase.nameKey, SwapCase.nameKey, if_pos rfl, if_pos rfl, letters.flipCase_eq,
    String.toList_ofList, List.map_map]
  have hfold : letters.foldChar ∘ letters.swap = letters.foldChar :=
    funext letters.foldChar_swap
  rw [hfold]

theorem SwapCase.nameKey_exact (letters : SwapCase) (name : OsName) :
    letters.nameKey false name = name := by
  cases name <;> rfl

end Names

/-- No file or directory has two entries. -/
def FileSystem.NoSecondNames {letters : SwapCase} (fs : FileSystem letters) : Prop :=
  ∀ d d', ∀ e ∈ fs.entries d, ∀ e' ∈ fs.entries d', e.inode = e'.inode → d = d' ∧ e = e'

section Lookups

variable {letters : SwapCase} {fs : FileSystem letters} {d : ℕ} {e : DirEntry}

theorem FileSystem.lookup_mem {name : OsName} (h : fs.lookup d name = some e) :
    e ∈ fs.entries d ∧
      letters.nameKey (fs.folds d) e.name = letters.nameKey (fs.folds d) name :=
  ⟨List.mem_of_find?_eq_some h, by simpa using List.find?_some h⟩

/-- An entry is found under every name its volume takes for its own. -/
theorem FileSystem.lookup_entry (he : e ∈ fs.entries d) {name : OsName}
    (hname : letters.nameKey (fs.folds d) e.name = letters.nameKey (fs.folds d) name) :
    fs.lookup d name = some e := by
  have hpairs := fs.distinct d
  rw [FileSystem.lookup]
  generalize fs.entries d = entries at he hpairs
  induction entries with
  | nil => cases he
  | cons first rest ih =>
    obtain ⟨hfirst, hrest⟩ := List.pairwise_cons.mp hpairs
    rw [List.find?_cons]
    rcases List.mem_cons.mp he with rfl | hmem
    · rw [decide_eq_true hname]
    · have hne : letters.nameKey (fs.folds d) first.name ≠ letters.nameKey (fs.folds d) name :=
        hname ▸ hfirst e hmem
      rw [decide_eq_false hne]
      exact ih hmem hrest

theorem FileSystem.walk_nil (inode : Inode) : fs.walk inode [] = some inode := by
  rw [FileSystem.walk]

theorem FileSystem.walk_append (inode : Inode) (p q : LocalPath) :
    fs.walk inode (p ++ q) = (fs.walk inode p).bind (fun i => fs.walk i q) := by
  induction p generalizing inode with
  | nil =>
    rw [List.nil_append, FileSystem.walk_nil, Option.bind_some]
  | cons step p ih =>
    match inode, step with
    | .file _, _ => rfl
    | .dir d, .up =>
      rw [List.cons_append, FileSystem.walk, ih]
      rfl
    | .dir d, .name name =>
      rw [List.cons_append, FileSystem.walk, FileSystem.walk]
      cases fs.lookup d name with
      | none => rfl
      | some e => exact ih e.inode

/-- One more name on a path is a lookup in the directory the path leads to. -/
theorem FileSystem.resolve_name {path : LocalPath} (hpath : fs.resolve path = some (.dir d))
    (name : OsName) :
    fs.resolve (path ++ [.name name]) = (fs.lookup d name).map DirEntry.inode := by
  rw [FileSystem.resolve] at hpath ⊢
  rw [FileSystem.walk_append, hpath, Option.bind_some, FileSystem.walk]
  cases fs.lookup d name with
  | none => rfl
  | some e => exact FileSystem.walk_nil e.inode

/-- What a probe of an entry answers: whether its directory folds, where the entry opens. -/
theorem FileSystem.probe_entry (hsingle : fs.NoSecondNames) {path : LocalPath}
    (hpath : fs.resolve path = some (.dir d)) {text : String}
    (hflip : letters.flipCase text ≠ text) (he : fs.lookup d (.utf8 text) = some e) :
    fs.probe (path ++ [.name (.utf8 text)]) =
      some (if fs.opens e.inode && fs.folds d then .caseInsensitive else .exact) := by
  have hsame : fs.isSameFile (path ++ [.name (.utf8 text)])
      (path ++ [.name (.utf8 (letters.flipCase text))]) = (fs.opens e.inode && fs.folds d) := by
    rw [FileSystem.isSameFile, FileSystem.resolve_name hpath, FileSystem.resolve_name hpath, he]
    cases hfolds : fs.folds d with
    | true =>
      have hflipped : fs.lookup d (.utf8 (letters.flipCase text)) = some e := by
        obtain ⟨hmem, hkey⟩ := FileSystem.lookup_mem he
        apply FileSystem.lookup_entry hmem
        rw [hkey, hfolds, letters.nameKey_flipCase]
      rw [hflipped]
      simp
    | false =>
      -- another spelling is another entry, and that is another file
      cases hother : fs.lookup d (.utf8 (letters.flipCase text)) with
      | none => simp
      | some e' =>
        obtain ⟨hmem, hkey⟩ := FileSystem.lookup_mem he
        obtain ⟨hmem', hkey'⟩ := FileSystem.lookup_mem hother
        rw [hfolds, letters.nameKey_exact, letters.nameKey_exact] at hkey hkey'
        have hne : e.inode ≠ e'.inode := by
          intro hinode
          obtain ⟨-, rfl⟩ := hsingle d d e hmem e' hmem' hinode
          exact hflip (OsName.utf8.inj (hkey'.symm.trans hkey))
        simp [hne]
  rw [FileSystem.probe, List.getLast?_concat]
  dsimp only
  rw [if_neg hflip, List.dropLast_concat, hsame]

end Lookups

/-- The directory a root is judged by: the last one on the way to it that exists. -/
structure FileSystem.Base {letters : SwapCase} (fs : FileSystem letters) (root base : LocalPath)
    (d : ℕ) : Prop where
  resolves : fs.resolve base = some (.dir d)
  above : base <+: fs.absolute root
  nearest : ∀ path, path <+: fs.absolute root → base.length < path.length → fs.isDir path = false

section Bases

variable {letters : SwapCase} {fs : FileSystem letters} {root base : LocalPath} {d : ℕ}

theorem FileSystem.isDir_of_resolve (h : fs.resolve base = some (.dir d)) :
    fs.isDir base = true := by
  rw [FileSystem.isDir, h]

theorem FileSystem.nearestExisting_of_base (h : fs.Base root base d) :
    fs.nearestExisting root = some base := by
  have hlength := h.above.length_le
  have htake : (fs.absolute root).take base.length = base :=
    (List.prefix_iff_eq_take.mp h.above).symm
  have hfirst : (List.range ((fs.absolute root).length + 1)).find?
      (fun n => fs.isDir ((fs.absolute root).take ((fs.absolute root).length - n))) =
        some ((fs.absolute root).length - base.length) := by
    rw [List.find?_range_eq_some]
    refine ⟨?_, List.mem_range.mpr (by omega), ?_⟩
    · rw [Nat.sub_sub_self hlength, htake]
      exact FileSystem.isDir_of_resolve h.resolves
    · intro n hn
      rw [h.nearest _ (List.take_prefix _ _) (by rw [List.length_take]; omega)]
      rfl
  rw [FileSystem.nearestExisting, FileSystem.ancestors, List.find?_map]
  change Option.map _ ((List.range ((fs.absolute root).length + 1)).find?
    (fun n => fs.isDir ((fs.absolute root).take ((fs.absolute root).length - n)))) = _
  rw [hfirst, Option.map_some, Nat.sub_sub_self hlength, htake]

/-- The base's own name, where it ends with one that has a letter. -/
def letterName (letters : SwapCase) (base : LocalPath) : Bool :=
  match base.getLast? with
  | some (.name name) => letters.flippable name
  | _ => false

/-- The base is judged on its own volume, as it is: by its own name only where the directory
above compares names alike, else by an entry that can be opened. -/
def FileSystem.JudgedAlike (fs : FileSystem letters) (base : LocalPath) (d : ℕ) : Prop :=
  if letterName letters base then
    ((fs.opens (.dir d) && fs.folds (fs.up d)) = fs.folds d)
  else fs.folds d = true → fs.opens (.dir d) = true ∧
    ∀ e, (fs.entries d).find? (fun e => letters.flippable e.name) = some e → fs.opens e.inode = true

theorem FileSystem.probe_none (h : letterName letters base = false) : fs.probe base = none := by
  rw [letterName] at h
  rw [FileSystem.probe]
  cases hlast : base.getLast? with
  | none => rfl
  | some step =>
    rw [hlast] at h
    match step with
    | .up => rfl
    | .name (.raw _ _) => rfl
    | .name (.utf8 text) =>
      have hsame : letters.flipCase text = text := by
        by_contra hne
        have hbad : decide (letters.flipCase text ≠ text) = false := h
        rw [decide_eq_true hne] at hbad
        cases hbad
      dsimp only
      rw [if_pos hsame]

/-- A base with a letter in its name is judged by the directory above it. -/
theorem FileSystem.probe_base (hsingle : fs.NoSecondNames)
    (hbase : fs.resolve base = some (.dir d)) (h : letterName letters base = true) :
    fs.probe base =
      some (if fs.opens (.dir d) && fs.folds (fs.up d) then .caseInsensitive else .exact) := by
  rw [letterName] at h
  cases hlast : base.getLast? with
  | none =>
    rw [hlast] at h
    cases h
  | some step =>
    rw [hlast] at h
    match step, h with
    | .name (.utf8 text), h =>
      obtain ⟨front, rfl⟩ := List.getLast?_eq_some_iff.mp hlast
      have hflip : letters.flipCase text ≠ text := of_decide_eq_true h
      rw [FileSystem.resolve, FileSystem.walk_append] at hbase
      obtain ⟨above, habove, hname⟩ := Option.bind_eq_some_iff.mp hbase
      match above with
      | .file _ => cases hname
      | .dir q =>
        rw [FileSystem.walk] at hname
        cases hlookup : fs.lookup q (.utf8 text) with
        | none =>
          rw [hlookup] at hname
          cases hname
        | some e =>
          rw [hlookup] at hname
          have hinode : e.inode = .dir d :=
            Option.some.inj ((FileSystem.walk_nil e.inode).symm.trans hname)
          rw [FileSystem.probe_entry hsingle habove hflip hlookup, hinode,
            fs.up_entry q e (FileSystem.lookup_mem hlookup).1 d hinode]

/-- What a probe of one child answers. -/
theorem FileSystem.probe_child (hsingle : fs.NoSecondNames)
    (hbase : fs.resolve base = some (.dir d)) {e : DirEntry} (he : e ∈ fs.entries d) :
    fs.probe (base ++ [.name e.name]) =
      if letters.flippable e.name then
        some (if fs.opens e.inode && fs.folds d then .caseInsensitive else .exact)
      else none := by
  cases hname : e.name with
  | raw lossy bytes =>
    rw [FileSystem.probe, List.getLast?_concat]
    rfl
  | utf8 text =>
    by_cases hflip : letters.flipCase text = text
    · have hletters : letters.flippable (.utf8 text) = false := by
        rw [SwapCase.flippable, hflip]
        exact decide_eq_false (fun h => h rfl)
      rw [hletters, if_neg Bool.false_ne_true]
      apply FileSystem.probe_none
      rw [letterName, List.getLast?_concat]
      exact hletters
    · have hlookup : fs.lookup d (.utf8 text) = some e :=
        FileSystem.lookup_entry he (by rw [hname])
      rw [FileSystem.probe_entry hsingle hbase hflip hlookup, SwapCase.flippable,
        decide_eq_true hflip, if_pos rfl]

/-- Among the children the first one with a letter in its name is the judge. -/
theorem FileSystem.probe_children (hsingle : fs.NoSecondNames)
    (hbase : fs.resolve base = some (.dir d)) (list : List DirEntry)
    (hsub : ∀ e ∈ list, e ∈ fs.entries d) :
    (list.map (fun e => base ++ [PathStep.name e.name])).findSome? fs.probe =
      (list.find? (fun e => letters.flippable e.name)).map (fun e =>
        if fs.opens e.inode && fs.folds d then .caseInsensitive else .exact) := by
  induction list with
  | nil => rfl
  | cons e list ih =>
    rw [List.map_cons, List.findSome?_cons, List.find?_cons,
      FileSystem.probe_child hsingle hbase (hsub e List.mem_cons_self)]
    cases letters.flippable e.name with
    | true => rfl
    | false => exact ih (fun e' he' => hsub e' (List.mem_cons_of_mem _ he'))

theorem FileSystem.detect_of_base (h : fs.Base root base d) :
    fs.detect root = ((base :: fs.children base).findSome? fs.probe).getD .exact := by
  rw [FileSystem.detect, FileSystem.nearestExisting_of_base h]

end Bases

/-- Detection answers for the volume of the base exactly where the base is judged on it. -/
theorem detect_folding_iff {letters : SwapCase} {fs : FileSystem letters}
    {root base : LocalPath} {d : ℕ} (h : fs.Base root base d) (hsingle : fs.NoSecondNames)
    (hletter : ∃ e ∈ fs.entries d, letters.flippable e.name = true) :
    (fs.detect root = .caseInsensitive ↔ fs.folds d = true) ↔ fs.JudgedAlike base d := by
  rw [FileSystem.detect_of_base h, List.findSome?_cons, FileSystem.JudgedAlike]
  cases hname : letterName letters base with
  | true =>
    rw [FileSystem.probe_base hsingle h.resolves hname, if_pos rfl]
    cases fs.opens (.dir d) && fs.folds (fs.up d) <;> cases fs.folds d <;> simp
  | false =>
    rw [FileSystem.probe_none hname, if_neg Bool.false_ne_true]
    dsimp only
    have hchildren : fs.children base = if fs.opens (.dir d) then
        (fs.entries d).map (fun e => base ++ [.name e.name]) else [] := by
      rw [FileSystem.children, h.resolves]
    rw [hchildren]
    cases hopens : fs.opens (.dir d) with
    | false =>
      -- an unreadable base has no children to ask
      simp
    | true =>
      rw [if_pos rfl, FileSystem.probe_children hsingle h.resolves _ (fun _ he => he)]
      cases hfirst : (fs.entries d).find? (fun e => letters.flippable e.name) with
      | none =>
        obtain ⟨e, he, hflip⟩ := hletter
        exact absurd hflip (List.find?_eq_none.mp hfirst e he)
      | some e =>
        rw [Option.map_some, Option.getD_some]
        cases fs.folds d <;> cases hopen : fs.opens e.inode <;> simp [hopen]

section Ascii

/-- The case swap of ASCII letters. -/
def asciiSwap (c : Char) : Char := if c.isLower then c.toUpper else c.toLower

theorem isLower_iff (c : Char) : c.isLower = true ↔ 97 ≤ c.toNat ∧ c.toNat ≤ 122 := by
  change (decide (c.val ≥ 'a'.val) && decide (c.val ≤ 'z'.val)) = true ↔ _
  simp only [Bool.and_eq_true, decide_eq_true_eq, ge_iff_le, UInt32.le_iff_toNat_le]
  rfl

theorem toUpper_toNat {c : Char} (h : 97 ≤ c.toNat ∧ c.toNat ≤ 122) :
    c.toUpper.toNat = c.toNat - 32 := by
  have hv : c.val.toNat = c.toNat := rfl
  have hl : 'a'.val ≤ c.val ∧ c.val ≤ 'z'.val := by
    simp only [UInt32.le_iff_toNat_le]
    exact h
  have hupper : c.toUpper = _ := dif_pos hl
  rw [hupper]
  change (c.val + ('A'.val - 'a'.val)).toNat = _
  rw [UInt32.toNat_add]
  have hc : ('A'.val - 'a'.val).toNat = 4294967264 := by decide
  rw [hc]
  omega

theorem toLower_toNat (c : Char) :
    c.toLower.toNat = if 65 ≤ c.toNat ∧ c.toNat ≤ 90 then c.toNat + 32 else c.toNat := by
  have hv : c.val.toNat = c.toNat := rfl
  have hu : (c.val ≥ 'A'.val ∧ c.val ≤ 'Z'.val) ↔ 65 ≤ c.toNat ∧ c.toNat ≤ 90 := by
    simp only [ge_iff_le, UInt32.le_iff_toNat_le]
    rfl
  by_cases h : 65 ≤ c.toNat ∧ c.toNat ≤ 90
  · have hlower : c.toLower = _ := dif_pos (hu.mpr h)
    rw [if_pos h, hlower]
    change (c.val + ('a'.val - 'A'.val)).toNat = _
    rw [UInt32.toNat_add]
    have hc : ('a'.val - 'A'.val).toNat = 32 := by decide
    rw [hc]
    omega
  · have hlower : c.toLower = c := dif_neg fun hh => h (hu.mp hh)
    rw [if_neg h, hlower]

theorem asciiSwap_asciiSwap (c : Char) : asciiSwap (asciiSwap c) = c := by
  apply Char.toNat_inj.mp
  by_cases hlower : 97 ≤ c.toNat ∧ c.toNat ≤ 122
  · have h1 : asciiSwap c = c.toUpper := if_pos ((isLower_iff c).mpr hlower)
    have h2 := toUpper_toNat hlower
    have h3 : asciiSwap c.toUpper = c.toUpper.toLower := by
      apply if_neg
      rw [isLower_iff]
      omega
    rw [h1, h3, toLower_toNat, h2]
    split <;> omega
  · have h1 : asciiSwap c = c.toLower := if_neg (fun h => hlower ((isLower_iff c).mp h))
    have h2 := toLower_toNat c
    rw [h1]
    by_cases hupper : 65 ≤ c.toNat ∧ c.toNat ≤ 90
    · rw [if_pos hupper] at h2
      have h3 : asciiSwap c.toLower = c.toLower.toUpper := by
        apply if_pos
        rw [isLower_iff]
        omega
      rw [h3, toUpper_toNat (by omega)]
      omega
    · rw [if_neg hupper] at h2
      have h3 : c.toLower = c := Char.toNat_inj.mp h2
      rw [h3, h1, h3]

/-- The case mappings cut down to ASCII. -/
def SwapCase.ascii : SwapCase where
  isLowercase := Char.isLower
  upper c := [c.toUpper]
  lower c := [c.toLower]
  swap := asciiSwap
  flips c := by
    rw [asciiSwap]
    split <;> rfl
  involutive := asciiSwap_asciiSwap

end Ascii

section Mounted

/-- A drive `USB` with one file, mounted in the root directory; `driveFolds` says how the drive
compares names, the root directory does not fold case. -/
private def withDrive (driveFolds : Bool) : FileSystem SwapCase.ascii where
  root := 0
  entries
    | 0 => [⟨.utf8 "USB", .dir 1⟩]
    | 1 => [⟨.utf8 "a.jpg", .file 2⟩]
    | _ => []
  volume d := d
  volumeFolds v := decide (v = 1) && driveFolds
  up _ := 0
  opens _ := true
  distinct
    | 0 => List.pairwise_singleton _ _
    | 1 => List.pairwise_singleton _ _
    | _ + 2 => List.Pairwise.nil
  up_entry
    | 0, _, _, _, _ => rfl
    | 1, e, he, c, hinode => by
      obtain rfl := List.mem_singleton.mp he
      cases hinode
    | _ + 2, e, he, _, _ => absurd he List.not_mem_nil
  up_root := rfl

private def drivePath : LocalPath := [.name (.utf8 "USB")]

private theorem withDrive_base (driveFolds : Bool) :
    (withDrive driveFolds).Base drivePath drivePath 1 where
  resolves := by cases driveFolds <;> rfl
  above := by cases driveFolds <;> exact List.prefix_rfl
  nearest path habove hlonger := by
    have hlength : path.length ≤ drivePath.length := by
      cases driveFolds <;> exact habove.length_le
    omega

private theorem withDrive_single (driveFolds : Bool) : (withDrive driveFolds).NoSecondNames := by
  intro d d' e he e' he' hinode
  match d, d', he, he' with
  | 0, 0, he, he' =>
    rw [List.mem_singleton.mp he, List.mem_singleton.mp he']
    exact ⟨rfl, rfl⟩
  | 1, 1, he, he' =>
    rw [List.mem_singleton.mp he, List.mem_singleton.mp he']
    exact ⟨rfl, rfl⟩
  | 0, 1, he, he' =>
    rw [List.mem_singleton.mp he, List.mem_singleton.mp he'] at hinode
    cases hinode
  | 1, 0, he, he' =>
    rw [List.mem_singleton.mp he, List.mem_singleton.mp he'] at hinode
    cases hinode
  | d + 2, _, he, _ => exact absurd he List.not_mem_nil
  | _, d' + 2, _, he' => exact absurd he' List.not_mem_nil

private theorem withDrive_letter (driveFolds : Bool) :
    ∃ e ∈ (withDrive driveFolds).entries 1, SwapCase.ascii.flippable e.name = true :=
  ⟨⟨.utf8 "a.jpg", .file 2⟩, List.mem_cons_self, by decide⟩

theorem detect_folding_iff_exact_drive :
    ((withDrive false).detect drivePath = .caseInsensitive ↔ (withDrive false).folds 1 = true) ↔
      (withDrive false).JudgedAlike drivePath 1 :=
  detect_folding_iff (withDrive_base false) (withDrive_single false) (withDrive_letter false)

/-- A drive that folds case is taken for an exact one, since its name is looked up in the
directory it is mounted in. -/
theorem detect_misses_mounted_drive :
    (withDrive true).Base drivePath drivePath 1 ∧ (withDrive true).NoSecondNames ∧
      (∃ e ∈ (withDrive true).entries 1, SwapCase.ascii.flippable e.name = true) ∧
        (withDrive true).folds 1 = true ∧ (withDrive true).detect drivePath = .exact := by
  refine ⟨withDrive_base true, withDrive_single true, withDrive_letter true, rfl, ?_⟩
  decide

end Mounted

end MtpxCore
