import MtpxCore.LexPrefix
import Mathlib.Data.String.Basic

/-! The paths of `path.rs`, on a Unix host. A path is the list of its segments; the
segment rules are a field of the type, so no list of names that breaks them is a path. -/
namespace MtpxCore

def SEPARATOR : Char := '/'

inductive PathError where
  | empty
  | notAbsolute
  | dotSegment
  | invalidSegment (segment : String)
  deriving DecidableEq, Repr

/-- `std::path::Component`, without the Windows prefix. -/
inductive Component where
  | rootDir
  | curDir
  | parentDir
  | normal (name : String)
  deriving DecidableEq, Repr

/-- What one slash-separated piece contributes; `.` counts only in front of a relative path. -/
def pieceComponent (leading : Bool) (piece : String) : Option Component :=
  if piece = "" then none
  else if piece = "." then if leading then some .curDir else none
  else if piece = ".." then some .parentDir
  else some (.normal piece)

/-- `str::split` on one character. -/
def split (s : String) (sep : Char) : List String :=
  (s.toList.splitOn sep).map String.ofList

/-- `Path::components`. -/
def components (path : String) : List Component :=
  if path.toList.head? = some SEPARATOR then
    Component.rootDir :: (split path SEPARATOR).filterMap (pieceComponent false)
  else match split path SEPARATOR with
    | [] => []
    | piece :: pieces =>
      (pieceComponent true piece).toList ++ pieces.filterMap (pieceComponent false)

def isSingleNormalComponent (segment : String) : Bool :=
  match components segment with
  | [.normal _] => true
  | _ => false

def validateSegment (segment : String) : Except PathError Unit :=
  if segment = "" then .error .empty
  else if segment = "." ∨ segment = ".." then .error .dotSegment
  else if segment.toList.contains '\x00' || segment.toList.contains SEPARATOR
      || !isSingleNormalComponent segment then
    .error (.invalidSegment segment)
  else .ok ()

/-- Path relative to a transfer root. -/
structure RelPath where
  segments : List String
  valid : ∀ segment ∈ segments, validateSegment segment = .ok ()
  deriving DecidableEq, Repr

/-- Absolute path inside one storage. -/
structure RemotePath where
  rel : RelPath
  deriving DecidableEq, Repr

theorem RelPath.segments_injective : Function.Injective RelPath.segments := by
  rintro ⟨a, _⟩ ⟨b, _⟩ h
  simpa using h

/-- The derived order: segment by segment. -/
instance : LinearOrder RelPath := LinearOrder.lift' RelPath.segments RelPath.segments_injective

namespace RelPath

/-- `RelPath::new`. -/
def new : List String → Except PathError RelPath
  | [] => .ok ⟨[], by simp⟩
  | segment :: rest =>
    match h : validateSegment segment with
    | .error e => .error e
    | .ok () =>
      match new rest with
      | .error e => .error e
      | .ok path => .ok ⟨segment :: path.segments, by
          intro s hs
          rcases List.mem_cons.mp hs with rfl | hs
          · exact h
          · exact path.valid s hs⟩

def root : RelPath := ⟨[], by simp⟩

def parent (path : RelPath) : Option RelPath :=
  if path.segments = [] then none
  else some ⟨path.segments.dropLast, fun s hs => path.valid s (List.dropLast_subset _ hs)⟩

def fileName (path : RelPath) : Option String := path.segments.getLast?

/-- `RelPath::join`: one more segment, under the same rules. -/
def join (path : RelPath) (segment : String) : Except PathError RelPath :=
  match h : validateSegment segment with
  | .error e => .error e
  | .ok () => .ok ⟨path.segments ++ [segment], by
      intro s hs
      rcases List.mem_append.mp hs with hs | hs
      · exact path.valid s hs
      · exact List.mem_singleton.mp hs ▸ h⟩

def append (path tail : RelPath) : RelPath :=
  ⟨path.segments ++ tail.segments, by
    intro s hs
    rcases List.mem_append.mp hs with hs | hs
    · exact path.valid s hs
    · exact tail.valid s hs⟩

def isRoot (path : RelPath) : Bool := path.segments.isEmpty

def startsWith (path pre : RelPath) : Bool := pre.segments.isPrefixOf path.segments

/-- `Display for RelPath`: the segments joined by slashes. -/
def display (path : RelPath) : String :=
  String.ofList ([SEPARATOR].intercalate (path.segments.map String.toList))

/-- A path given by segments that obviously pass the rules. -/
def ofSegments (segments : List String)
    (valid : ∀ segment ∈ segments, validateSegment segment = .ok () := by decide) : RelPath :=
  ⟨segments, valid⟩

theorem le_iff {a b : RelPath} : a ≤ b ↔ a.segments ≤ b.segments := Iff.rfl

@[simp] theorem startsWith_iff {path pre : RelPath} :
    path.startsWith pre = true ↔ pre.segments <+: path.segments :=
  List.isPrefixOf_iff_prefix

theorem new_ok {segments : List String} {path : RelPath}
    (h : new segments = .ok path) : path.segments = segments := by
  induction segments generalizing path with
  | nil =>
    cases h
    rfl
  | cons segment rest ih =>
    rw [new] at h
    split at h
    · exact absurd h (by simp)
    · split at h
      · exact absurd h (by simp)
      · rename_i tail ht
        cases h
        exact congrArg (segment :: ·) (ih ht)

theorem join_eq_ok {path child : RelPath} {segment : String}
    (h : path.join segment = .ok child) :
    child.segments = path.segments ++ [segment] ∧ validateSegment segment = .ok () := by
  rw [join] at h
  split at h
  · exact absurd h (by simp)
  · rename_i hv
    cases h
    exact ⟨rfl, hv⟩

theorem join_ok {path : RelPath} {segment : String} (h : validateSegment segment = .ok ()) :
    ∃ child, path.join segment = .ok child ∧ child.segments = path.segments ++ [segment] := by
  rw [join]
  split
  · rename_i e he
    rw [h] at he
    exact absurd he (by simp)
  · exact ⟨_, rfl, rfl⟩

theorem join_error {path : RelPath} {segment : String} {e : PathError}
    (h : validateSegment segment = .error e) : path.join segment = .error e := by
  rw [join]
  split
  · rename_i e' he
    rw [h] at he
    exact congrArg Except.error (Except.error.inj he).symm
  · rename_i hok
    rw [h] at hok
    exact absurd hok (by simp)

/-- A path with one more segment is what joining the segment gives. -/
theorem join_eq {path child : RelPath} {segment : String}
    (h : child.segments = path.segments ++ [segment]) : path.join segment = .ok child := by
  obtain ⟨joined, hjoin, hsegments⟩ := join_ok
    (child.valid segment (by rw [h]; simp))
  rw [hjoin, segments_injective (hsegments.trans h.symm)]

theorem parent_of_ne {path : RelPath} (h : path.segments ≠ []) :
    ∃ parent, path.parent = some parent ∧
      path.segments = parent.segments ++ [path.segments.getLast h] := by
  rw [parent, if_neg h]
  exact ⟨_, rfl, (List.dropLast_append_getLast h).symm⟩

end RelPath

namespace RemotePath

/-- `RemotePath::join`. -/
def join (path : RemotePath) (rel : RelPath) : RemotePath := ⟨path.rel.append rel⟩

def segments (path : RemotePath) : List String := path.rel.segments

def root : RemotePath := ⟨RelPath.root⟩

end RemotePath

/-- What a valid segment is: a non-empty name without separator or NUL, not a dot name. -/
theorem validateSegment_ok {segment : String} (h : validateSegment segment = .ok ()) :
    segment ≠ "" ∧ SEPARATOR ∉ segment.toList ∧ '\x00' ∉ segment.toList := by
  rw [validateSegment] at h
  split at h
  · exact absurd h (by simp)
  · rename_i hne
    split at h
    · exact absurd h (by simp)
    · split at h
      · exact absurd h (by simp)
      · rename_i hc
        simp only [Bool.or_eq_true, List.contains_iff_mem, Bool.not_eq_true', not_or] at hc
        exact ⟨hne, hc.1.2, hc.1.1⟩

/-- What a segment may be: one plain name, neither of the two dot names. -/
theorem validateSegment_iff {segment : String} :
    validateSegment segment = .ok () ↔ segment ≠ "" ∧ segment ≠ "." ∧ segment ≠ ".." ∧
      '\x00' ∉ segment.toList ∧ SEPARATOR ∉ segment.toList := by
  constructor
  · intro h
    obtain ⟨hne, hsep, hnul⟩ := validateSegment_ok h
    rw [validateSegment, if_neg hne] at h
    split at h
    · exact absurd h (by simp)
    · rename_i hdot
      exact ⟨hne, fun he => hdot (.inl he), fun he => hdot (.inr he), hnul, hsep⟩
  · rintro ⟨hne, hdot, hdots, hnul, hsep⟩
    have hhead : segment.toList.head? ≠ some SEPARATOR := fun hh =>
      hsep (List.mem_of_mem_head? hh)
    have hsplit : split segment SEPARATOR = [segment] := by
      rw [split, List.splitOn_eq_singleton hsep, List.map_singleton, String.ofList_toList]
    have hsingle : isSingleNormalComponent segment = true := by
      rw [isSingleNormalComponent, components, if_neg hhead, hsplit]
      simp only [pieceComponent, if_neg hne, if_neg hdot, if_neg hdots]
      rfl
    rw [validateSegment, if_neg hne, if_neg (not_or.mpr ⟨hdot, hdots⟩), hsingle]
    simp [hnul, hsep]

theorem RelPath.new_of_valid {segments : List String}
    (h : ∀ segment ∈ segments, validateSegment segment = .ok ()) :
    RelPath.new segments = .ok ⟨segments, h⟩ := by
  induction segments with
  | nil => rfl
  | cons segment rest ih =>
    have hhead := h segment List.mem_cons_self
    rw [RelPath.new]
    split
    · rename_i e he
      rw [hhead] at he
      exact absurd he (by simp)
    · rw [ih fun s hs => h s (List.mem_cons_of_mem _ hs)]

/-- Splitting the displayed path at its separators gives the segments back. -/
theorem RelPath.display_injective : Function.Injective RelPath.display := by
  intro a b h
  have hl : ([SEPARATOR].intercalate (a.segments.map String.toList)) =
      [SEPARATOR].intercalate (b.segments.map String.toList) := by
    have hh := congrArg String.toList h
    rwa [RelPath.display, RelPath.display, String.toList_ofList, String.toList_ofList] at hh
  have hsep (p : RelPath) : ∀ l ∈ p.segments.map String.toList, SEPARATOR ∉ l := by
    intro l hm
    obtain ⟨s, hs, rfl⟩ := List.mem_map.mp hm
    exact (validateSegment_ok (p.valid s hs)).2.1
  -- the empty path is the only one whose display has no piece with a character
  have hnil (p : RelPath)
      (he : [SEPARATOR].intercalate (p.segments.map String.toList) = []) : p.segments = [] := by
    by_contra hne
    have hs := List.splitOn_intercalate SEPARATOR (hsep p) (by simpa using hne)
    rw [he] at hs
    obtain ⟨s, rest, hp⟩ := List.exists_cons_of_ne_nil hne
    rw [hp, List.splitOn_nil, List.map_cons, List.cons.injEq] at hs
    have hv := (validateSegment_ok (p.valid s (by simp [hp]))).1
    exact hv (String.toList_inj.mp hs.1.symm)
  apply RelPath.segments_injective
  by_cases ha : a.segments = []
  · rw [ha, List.map_nil, List.intercalate_nil] at hl
    rw [ha, hnil b hl.symm]
  · by_cases hb : b.segments = []
    · rw [hb, List.map_nil, List.intercalate_nil] at hl
      exact absurd (hnil a hl) ha
    · have hs := List.splitOn_intercalate SEPARATOR (hsep a) (by simpa using ha)
      rw [hl, List.splitOn_intercalate SEPARATOR (hsep b) (by simpa using hb)] at hs
      exact List.map_injective_iff.mpr (fun _ _ => String.toList_inj.mp) hs.symm

end MtpxCore
