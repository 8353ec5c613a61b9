import MtpxCore.LocalTree
import MtpxCore.PathText

/-! Where a relative path lands under a local root, as the text of a path on a Unix host:
bytes, of which only the slash and the dot mean anything. -/
namespace MtpxCore

/-- The bytes of a text. -/
def utf8 (text : String) : Bytes := text.toList.flatMap String.utf8EncodeChar

def SLASH : UInt8 := 0x2f

def DOT : UInt8 := 0x2e

/-- `Path::components` of the bytes of a path. -/
def pathComponents (path : Bytes) : List (PathText.Part UInt8) := PathText.parts SLASH DOT path

/-- `RelPath::to_local_path`: the segments are pushed onto the root one by one. -/
def RelPath.toLocalPathBuf (path : RelPath) (root : Bytes) : Bytes :=
  PathText.extend SLASH root (path.segments.map utf8)

section Encoding

/-- Only the slash itself has the byte of a slash in its encoding. -/
theorem utf8EncodeChar_slash {c : Char} (h : SLASH ∈ String.utf8EncodeChar c) :
    c = SEPARATOR := by
  have hval : c.val.toNat = c.toNat := rfl
  have hbyte : c.val.toNat = 47 := by
    unfold String.utf8EncodeChar at h
    simp only [SLASH] at h
    split at h
    · simp [← UInt8.toNat_inj] at h
      omega
    · -- every byte of a longer encoding has its high bit set
      split at h
      · simp [← UInt8.toNat_inj] at h
        omega
      · split at h
        · simp [← UInt8.toNat_inj] at h
          omega
        · simp [← UInt8.toNat_inj] at h
          omega
  exact Char.ext (UInt32.toNat_inj.mp hbyte)

theorem splitOn_append {code rest : Bytes} (h : SLASH ∉ code) :
    (code ++ rest).splitOn SLASH = (rest.splitOn SLASH).modifyHead (code ++ ·) := by
  induction code with
  | nil =>
    rw [List.nil_append]
    cases rest.splitOn SLASH <;> rfl
  | cons b code ih =>
    have hb : ¬(b == SLASH) = true := by
      intro hb
      exact h (List.mem_cons.mpr (Or.inl (eq_of_beq hb).symm))
    rw [List.cons_append, List.splitOn_cons_eq_if_modifyHead, if_neg hb,
      ih (fun hm => h (List.mem_cons_of_mem _ hm)), List.modifyHead_modifyHead]
    rfl

theorem utf8_injective : Function.Injective utf8 := by
  intro a b h
  have hbytes : a.toList.utf8Encode = b.toList.utf8Encode := by
    rw [List.utf8Encode, List.utf8Encode]
    exact congrArg List.toByteArray h
  apply String.toByteArray_inj.mp
  rwa [String.utf8Encode_toList, String.utf8Encode_toList] at hbytes

theorem utf8_slash {text : String} (h : SLASH ∈ utf8 text) : SEPARATOR ∈ text.toList := by
  obtain ⟨c, hc, hmem⟩ := List.mem_flatMap.mp h
  exact utf8EncodeChar_slash hmem ▸ hc

/-- The bytes of a valid segment are one normal component. -/
theorem plain_utf8 {segment : String} (h : validateSegment segment = .ok ()) :
    PathText.Plain SLASH DOT (utf8 segment) := by
  obtain ⟨hne, hdot, hdots, -, hsep⟩ := validateSegment_iff.mp h
  refine ⟨?_, ?_, ?_, ?_⟩
  · intro hnil
    have hempty : utf8 "" = [] := rfl
    exact hne (utf8_injective (hnil.trans hempty.symm))
  · intro hslash
    exact hsep (utf8_slash hslash)
  · intro hone
    have hname : utf8 "." = [DOT] := by decide
    exact hdot (utf8_injective (hone.trans hname.symm))
  · intro htwo
    have hname : utf8 ".." = [DOT, DOT] := by decide
    exact hdots (utf8_injective (htwo.trans hname.symm))

/-- Splitting the bytes at slashes splits the text at separators. -/
theorem utf8_splitOn (chars : List Char) :
    (chars.flatMap String.utf8EncodeChar).splitOn SLASH =
      (chars.splitOn SEPARATOR).map (fun piece => piece.flatMap String.utf8EncodeChar) := by
  induction chars with
  | nil => rfl
  | cons c chars ih =>
    rw [List.flatMap_cons, List.splitOn_cons_eq_if_modifyHead]
    by_cases hc : c = SEPARATOR
    · have hslash : String.utf8EncodeChar c = [SLASH] := by
        rw [hc]
        decide
      rw [hslash, List.singleton_append, List.splitOn_cons_eq_if_modifyHead,
        if_pos (beq_self_eq_true SLASH), if_pos (by simp [hc]), ih]
      rfl
    · have hslash : SLASH ∉ String.utf8EncodeChar c := fun h => hc (utf8EncodeChar_slash h)
      have hne := List.splitOn_ne_nil SEPARATOR chars
      obtain ⟨piece, pieces, hpieces⟩ := List.exists_cons_of_ne_nil hne
      rw [if_neg (by simp [hc]), splitOn_append hslash, ih, hpieces]
      rfl

/-- A component of a text, as bytes. -/
def Component.part : Component → PathText.Part UInt8
  | .rootDir => .rootDir
  | .curDir => .curDir
  | .parentDir => .parentDir
  | .normal name => .normal (utf8 name)

theorem piecePart_utf8 (leading : Bool) (piece : String) :
    PathText.piecePart DOT leading (utf8 piece) =
      (pieceComponent leading piece).map Component.part := by
  have hempty : utf8 piece = [] ↔ piece = "" := utf8_injective.eq_iff (b := "")
  have hdot : utf8 piece = [DOT] ↔ piece = "." := utf8_injective.eq_iff (b := ".")
  have hdots : utf8 piece = [DOT, DOT] ↔ piece = ".." := utf8_injective.eq_iff (b := "..")
  rw [PathText.piecePart, pieceComponent]
  simp only [hempty, hdot, hdots]
  split
  · rfl
  · split
    · cases leading <;> rfl
    · split <;> rfl

/-- The parse that validates a segment is the parse of its bytes. -/
theorem components_utf8 (text : String) :
    pathComponents (utf8 text) = (components text).map Component.part := by
  have hpieces : (utf8 text).splitOn SLASH = (split text SEPARATOR).map utf8 := by
    rw [utf8, utf8_splitOn, split, List.map_map]
    apply List.map_congr_left
    intro piece _
    rw [Function.comp_apply, utf8, String.toList_ofList]
  have hinner (pieces : List String) : PathText.inner DOT (pieces.map utf8) =
      (pieces.filterMap (pieceComponent false)).map Component.part := by
    rw [PathText.inner, List.filterMap_map, List.map_filterMap]
    apply List.filterMap_congr
    intro piece _
    exact piecePart_utf8 false piece
  -- only a separator is encoded with the byte of one, so both parses see the same root
  have hhead : (utf8 text).head? = some SLASH ↔ text.toList.head? = some SEPARATOR := by
    rw [utf8]
    cases text.toList with
    | nil => simp
    | cons c chars =>
      rw [List.flatMap_cons, List.head?_append_of_ne_nil _ String.utf8EncodeChar_ne_nil,
        List.head?_cons, Option.some.injEq]
      constructor
      · intro h
        exact utf8EncodeChar_slash (List.mem_of_mem_head? h)
      · rintro rfl
        decide
  rw [pathComponents, PathText.parts, components, hpieces]
  simp only [hhead]
  split
  · rw [List.map_cons, hinner]
    rfl
  · cases split text SEPARATOR with
    | nil => rfl
    | cons piece pieces =>
      dsimp only
      -- only the first piece of a relative path may be a dot
      rw [List.map_cons, PathText.relativeParts, hinner, piecePart_utf8, List.map_append]
      cases pieceComponent true piece <;> rfl

end Encoding

section Landing

variable (root : Bytes)

/-- A path below a root: the root's components come first, and are not all. -/
def StrictlyBeneath (path : Bytes) : Prop :=
  ∃ below, below ≠ [] ∧ pathComponents path = pathComponents root ++ below.map PathText.Part.normal

theorem toLocalPathBuf_components (path : RelPath) :
    pathComponents (path.toLocalPathBuf root) =
      pathComponents root ++ path.segments.map (fun segment => .normal (utf8 segment)) := by
  have hplain : ∀ name ∈ path.segments.map utf8, PathText.Plain SLASH DOT name := by
    intro name hname
    obtain ⟨segment, hsegment, rfl⟩ := List.mem_map.mp hname
    exact plain_utf8 (path.valid segment hsegment)
  rw [pathComponents, RelPath.toLocalPathBuf, PathText.parts_extend hplain, List.map_map]
  rfl

/-- The components of two local paths under one root tell the relative paths apart. -/
theorem toLocalPathBuf_components_injective {a b : RelPath}
    (h : pathComponents (a.toLocalPathBuf root) = pathComponents (b.toLocalPathBuf root)) :
    a = b := by
  rw [toLocalPathBuf_components, toLocalPathBuf_components] at h
  have hnames := List.append_cancel_left h
  apply RelPath.segments_injective
  have hinj : Function.Injective (fun segment => PathText.Part.normal (utf8 segment)) := by
    intro s t hst
    exact utf8_injective (PathText.Part.normal.inj hst)
  exact List.map_injective_iff.mpr hinj hnames

/-- No name escapes the root, and no two relative paths land at one place. -/
theorem to_local_path_beneath_root (path : RelPath) :
    pathComponents (path.toLocalPathBuf root) =
        pathComponents root ++ path.segments.map (fun segment => .normal (utf8 segment)) ∧
      (path = RelPath.root → path.toLocalPathBuf root = root) ∧
      (path ≠ RelPath.root → StrictlyBeneath root (path.toLocalPathBuf root) ∧
        pathComponents (path.toLocalPathBuf root) ≠ pathComponents root) ∧
      ∀ other : RelPath, other ≠ path →
        pathComponents (other.toLocalPathBuf root) ≠ pathComponents (path.toLocalPathBuf root) ∧
          other.toLocalPathBuf root ≠ path.toLocalPathBuf root := by
  have hcomponents := toLocalPathBuf_components root path
  refine ⟨hcomponents, ?_, ?_, ?_⟩
  · rintro rfl
    rfl
  · intro hne
    have hsegments : path.segments ≠ [] := by
      intro hnil
      exact hne (RelPath.segments_injective hnil)
    refine ⟨⟨path.segments.map utf8, ?_, ?_⟩, ?_⟩
    · rwa [ne_eq, List.map_eq_nil_iff]
    · rw [hcomponents, List.map_map]
      rfl
    · rw [hcomponents]
      intro hsame
      exact hsegments (List.map_eq_nil_iff.mp (List.append_right_eq_self.mp hsame))
  · intro other hne
    have hapart : pathComponents (other.toLocalPathBuf root) ≠
        pathComponents (path.toLocalPathBuf root) := by
      intro hsame
      exact hne (toLocalPathBuf_components_injective root hsame)
    exact ⟨hapart, fun hsame => hapart (congrArg pathComponents hsame)⟩

end Landing

end MtpxCore
