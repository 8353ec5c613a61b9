import MtpxCore.RelativePath

/-! Storage selectors and the `storage:/path` form of a remote argument (`device_path.rs`), on
a Unix host of 64 bits: printed and read back, and the language that is read. -/
namespace MtpxCore

def STORAGE_DELIMITER : Char := ':'

def USIZE_MAX : ℕ := 18446744073709551615

/-- Which storage on the device: the only one, one by its position, or one by its name. -/
inductive StorageSelector where
  | default
  | index (position : ℕ)
  | named (name : String)
  deriving DecidableEq, Repr

/-- A storage plus an absolute path inside it. -/
structure DevicePath where
  storage : StorageSelector
  path : RemotePath
  deriving DecidableEq, Repr

/-- `str::split_once`: the text before the first `delimiter` and the text after it. -/
def splitOnce (s : String) (delimiter : Char) : Option (String × String) :=
  match s.toList.dropWhile (· != delimiter) with
  | [] => none
  | _ :: rest => some (String.ofList (s.toList.takeWhile (· != delimiter)), String.ofList rest)

/-- `str::strip_prefix` of one character. -/
def strStripPrefix (s : String) (c : Char) : Option String :=
  match s.toList with
  | [] => none
  | head :: rest => if head = c then some (String.ofList rest) else none

def parseDigits (digits : List Char) : Option ℕ :=
  if digits ≠ [] ∧ digits.all Char.isDigit = true ∧ Nat.ofDigitChars 10 digits 0 ≤ USIZE_MAX then
    some (Nat.ofDigitChars 10 digits 0)
  else none

/-- `str::parse` to a `usize`, which passes over one plus sign in front. -/
def parseUsize (s : String) : Option ℕ :=
  match strStripPrefix s '+' with
  | some digits => parseDigits digits.toList
  | none => parseDigits s.toList

namespace RemotePath

def parent (path : RemotePath) : Option RemotePath := path.rel.parent.map RemotePath.mk

/-- `RemotePath` as it is shown. -/
def display (path : RemotePath) : String :=
  if path.segments = [] then "/" else String.join (path.segments.map fun segment => "/" ++ segment)

def parse (input : String) : Except PathError RemotePath :=
  if input = "" then .error .empty
  else match strStripPrefix input SEPARATOR with
    | none => .error .notAbsolute
    | some rest =>
      (RelPath.new ((split rest SEPARATOR).filter (· ≠ ""))).map RemotePath.mk

end RemotePath

namespace StorageSelector

/-- `StorageSelector::from`. -/
def «from» (value : String) : StorageSelector :=
  match parseUsize value with
  | some position => .index position
  | none => .named value

def display : StorageSelector → String
  | .default => ""
  | .index position => position.repr ++ ":"
  | .named name => name ++ ":"

end StorageSelector

def isStoragePrefix (pre : String) : Bool := pre ≠ "" && !pre.toList.contains SEPARATOR

def splitStorage (input : String) : StorageSelector × String :=
  match splitOnce input STORAGE_DELIMITER with
  | some (pre, rest) =>
    if isStoragePrefix pre && rest.toList.head? = some SEPARATOR then (.from pre, rest)
    else (.default, input)
  | none => (.default, input)

namespace DevicePath

def fromStr (input : String) : Except PathError DevicePath :=
  (RemotePath.parse (splitStorage input).2).map (DevicePath.mk (splitStorage input).1)

def display (path : DevicePath) : String := path.storage.display ++ path.path.display

end DevicePath

/-! Text, character by character -/

theorem splitOnce_some {s : String} {d : Char} {pre rest : String} :
    splitOnce s d = some (pre, rest) ↔ s.toList = pre.toList ++ d :: rest.toList ∧ d ∉ pre.toList := by
  have hpass : ∀ before : List Char, d ∉ before → ∀ c ∈ before, (c != d) = true := by
    intro before hmem c hc
    exact bne_iff_ne.mpr fun he => hmem (he ▸ hc)
  constructor
  · intro h
    rw [splitOnce] at h
    split at h
    · exact absurd h (by simp)
    · rename_i c after hdrop
      cases h
      have hc : c = d := by
        have hhead := List.head?_dropWhile_not (· != d) s.toList
        rw [hdrop] at hhead
        simpa using hhead
      refine ⟨?_, fun hmem => ?_⟩
      · rw [String.toList_ofList, String.toList_ofList, ← hc, ← hdrop, hc,
          List.takeWhile_append_dropWhile]
      · rw [String.toList_ofList] at hmem
        have hall := List.all_eq_true.mp (List.all_takeWhile (p := (· != d))) d hmem
        exact absurd hall (by simp)
  · rintro ⟨hs, hmem⟩
    have hdrop : s.toList.dropWhile (· != d) = d :: rest.toList := by
      rw [hs, List.dropWhile_append_of_pos (hpass _ hmem)]
      simp
    have htake : s.toList.takeWhile (· != d) = pre.toList := by
      rw [hs, List.takeWhile_append_of_pos (hpass _ hmem)]
      simp
    rw [splitOnce, hdrop, htake, String.ofList_toList]
    simp

theorem strStripPrefix_some {s rest : String} {c : Char} :
    strStripPrefix s c = some rest ↔ s.toList = c :: rest.toList := by
  rw [strStripPrefix]
  cases s.toList with
  | nil => simp
  | cons head tail =>
    by_cases hc : head = c
    · change (if head = c then some (String.ofList tail) else none) = some rest ↔ _
      rw [if_pos hc, hc, Option.some.injEq, List.cons.injEq, ← String.toList_inj,
        String.toList_ofList]
      exact (and_iff_right rfl).symm
    · simp [hc]

theorem strStripPrefix_none {s : String} {c : Char} (h : ∀ rest, s.toList ≠ c :: rest) :
    strStripPrefix s c = none := by
  cases hs : strStripPrefix s c with
  | none => rfl
  | some rest => exact absurd (strStripPrefix_some.mp hs) (h rest.toList)

theorem parseDigits_some {digits : List Char} {n : ℕ} :
    parseDigits digits = some n ↔ digits ≠ [] ∧ (∀ c ∈ digits, c.isDigit = true) ∧
      Nat.ofDigitChars 10 digits 0 = n ∧ n ≤ USIZE_MAX := by
  rw [parseDigits]
  split
  · rename_i h
    constructor
    · intro hn
      cases hn
      exact ⟨h.1, List.all_eq_true.mp h.2.1, rfl, h.2.2⟩
    · rintro ⟨-, -, hn, -⟩
      exact congrArg some hn
  · rename_i h
    constructor
    · intro hn
      exact absurd hn (by simp)
    · rintro ⟨hne, hdigits, rfl, hmax⟩
      exact absurd ⟨hne, List.all_eq_true.mpr hdigits, hmax⟩ h

/-- Digits are read without a sign. -/
theorem parseUsize_digits {s : String} (h : ∀ c ∈ s.toList, c.isDigit = true) :
    parseUsize s = parseDigits s.toList := by
  have hplus : strStripPrefix s '+' = none := by
    apply strStripPrefix_none
    intro rest hs
    exact absurd (h '+' (hs ▸ List.mem_cons_self)) (by decide)
  rw [parseUsize, hplus]

/-- A number that fits is read back from its digits. -/
theorem parseUsize_repr {n : ℕ} (h : n ≤ USIZE_MAX) : parseUsize n.repr = some n := by
  have hdigits : ∀ c ∈ Nat.toDigits 10 n, c.isDigit = true := fun c hc =>
    Nat.isDigit_of_mem_toDigits (by decide) (by decide) hc
  rw [parseUsize_digits (by rwa [Nat.toList_repr]), Nat.toList_repr]
  exact parseDigits_some.mpr ⟨Nat.toDigits_ne_nil, hdigits, Nat.ofDigitChars_ten_toDigits, h⟩

theorem parseUsize_le {s : String} {n : ℕ} (h : parseUsize s = some n) : n ≤ USIZE_MAX := by
  rw [parseUsize] at h
  split at h
  · exact (parseDigits_some.mp h).2.2.2
  · exact (parseDigits_some.mp h).2.2.2

/-! Absolute paths -/

/-- The non-empty pieces between the slashes of a text. -/
def pieces (text : String) : List String := (split text SEPARATOR).filter (· ≠ "")

theorem pieces_of_slash {text rest : String} (h : text.toList = SEPARATOR :: rest.toList) :
    pieces text = pieces rest := by
  have hsplit := List.splitOn_append_cons_self (a := SEPARATOR) [] rest.toList
  rw [pieces, pieces, split, split, h]
  rw [List.nil_append] at hsplit
  simp [hsplit]

/-- An absolute text parses to its pieces, when these are valid; no other text parses. -/
theorem RemotePath.parse_ok {input : String} {path : RemotePath} :
    RemotePath.parse input = .ok path ↔
      input.toList.head? = some SEPARATOR ∧ path.segments = pieces input := by
  rw [RemotePath.parse]
  split
  · rename_i he
    simp [he]
  · split
    · rename_i hstrip
      constructor
      · intro h
        exact absurd h (by simp)
      · rintro ⟨hhead, -⟩
        -- no leading slash was found, so there is none
        obtain ⟨rest, hrest⟩ := List.head?_eq_some_iff.mp hhead
        have hsome : strStripPrefix input SEPARATOR = some (String.ofList rest) :=
          strStripPrefix_some.mpr (by rw [hrest, String.toList_ofList])
        rw [hsome] at hstrip
        exact absurd hstrip (by simp)
    · rename_i rest hstrip
      have hinput := strStripPrefix_some.mp hstrip
      have hpieces : pieces input = (split rest SEPARATOR).filter (· ≠ "") :=
        pieces_of_slash hinput
      rw [← hpieces, hinput]
      constructor
      · intro h
        cases hnew : RelPath.new (pieces input) with
        | error e =>
          rw [hnew] at h
          exact absurd h (by simp [Except.map])
        | ok rel =>
          rw [hnew] at h
          cases h
          exact ⟨rfl, RelPath.new_ok hnew⟩
      · rintro ⟨-, hsegments⟩
        rw [← hsegments, RemotePath.segments, RelPath.new_of_valid path.rel.valid]
        rfl

theorem RemotePath.display_toList (path : RemotePath) (h : path.segments ≠ []) :
    path.display.toList = [SEPARATOR].intercalate ([] :: path.segments.map String.toList) := by
  rw [RemotePath.display, if_neg h, String.toList_join]
  generalize path.segments = segments
  induction segments with
  | nil => rfl
  | cons segment rest ih =>
    rw [List.map_cons, List.flatMap_cons, List.map_cons, List.intercalate_cons_cons]
    cases rest with
    | nil => simp [SEPARATOR]
    | cons next more =>
      rw [ih]
      simp [List.intercalate_cons_cons, SEPARATOR]

theorem RemotePath.display_head (path : RemotePath) :
    path.display.toList.head? = some SEPARATOR := by
  by_cases h : path.segments = []
  · rw [RemotePath.display, if_pos h]
    rfl
  · rw [RemotePath.display_toList path h]
    obtain ⟨segment, rest, hsegments⟩ := List.exists_cons_of_ne_nil h
    simp [hsegments, List.intercalate_cons_cons]

/-- The slashes of a displayed path stand between its segments and nowhere else. -/
theorem RemotePath.pieces_display (path : RemotePath) : pieces path.display = path.segments := by
  by_cases h : path.segments = []
  · rw [RemotePath.display, if_pos h, h]
    decide
  · have hsep : ∀ l ∈ [] :: path.segments.map String.toList, SEPARATOR ∉ l := by
      intro l hl
      rcases List.mem_cons.mp hl with rfl | hl
      · exact List.not_mem_nil
      · obtain ⟨segment, hs, rfl⟩ := List.mem_map.mp hl
        exact (validateSegment_ok (path.rel.valid segment hs)).2.1
    have hnonempty : ∀ segment ∈ path.segments, decide (segment ≠ "") = true := fun segment hs =>
      decide_eq_true (validateSegment_ok (path.rel.valid segment hs)).1
    rw [pieces, split, RemotePath.display_toList path h,
      List.splitOn_intercalate SEPARATOR hsep (by simp), List.map_cons, List.map_map]
    have hid : (String.ofList ∘ String.toList) = id := funext fun _ => String.ofList_toList
    rw [hid, List.map_id, List.filter_cons_of_neg (by simp), List.filter_eq_self.mpr hnonempty]

theorem RemotePath.parse_display (path : RemotePath) :
    RemotePath.parse path.display = .ok path :=
  RemotePath.parse_ok.mpr ⟨path.display_head, path.pieces_display.symm⟩

/-! The storage in front of the path -/

/-- A text that can stand before the delimiter. -/
structure StorageText (pre : String) : Prop where
  nonempty : pre ≠ ""
  slash : SEPARATOR ∉ pre.toList
  colon : STORAGE_DELIMITER ∉ pre.toList

theorem isStoragePrefix_iff {pre : String} :
    isStoragePrefix pre = true ↔ pre ≠ "" ∧ SEPARATOR ∉ pre.toList := by
  simp [isStoragePrefix]

theorem storage_toList (pre text : String) :
    (pre ++ ":" ++ text).toList = pre.toList ++ STORAGE_DELIMITER :: text.toList := by
  simp [String.toList_append, STORAGE_DELIMITER]

theorem splitStorage_storage {pre text : String} (hpre : StorageText pre)
    (htext : text.toList.head? = some SEPARATOR) :
    splitStorage (pre ++ ":" ++ text) = (.from pre, text) := by
  have honce : splitOnce (pre ++ ":" ++ text) STORAGE_DELIMITER = some (pre, text) :=
    splitOnce_some.mpr ⟨storage_toList pre text, hpre.colon⟩
  have hstorage := isStoragePrefix_iff.mpr ⟨hpre.nonempty, hpre.slash⟩
  rw [splitStorage, honce]
  simp [hstorage, htext]

/-- Either the whole input is a path, or its first colon ends a storage prefix. -/
theorem splitStorage_cases (input : String) :
    splitStorage input = (.default, input) ∨ ∃ pre text, StorageText pre ∧
      text.toList.head? = some SEPARATOR ∧ input = pre ++ ":" ++ text := by
  rw [splitStorage]
  split
  · rename_i pre text honce
    split
    · rename_i h
      obtain ⟨hstorage, hhead⟩ := Bool.and_eq_true_iff.mp h
      obtain ⟨hne, hslash⟩ := isStoragePrefix_iff.mp hstorage
      obtain ⟨hinput, hcolon⟩ := splitOnce_some.mp honce
      refine .inr ⟨pre, text, ⟨hne, hslash, hcolon⟩, of_decide_eq_true hhead, ?_⟩
      apply String.toList_inj.mp
      rw [hinput, storage_toList]
    · exact .inl rfl
  · exact .inl rfl

theorem storage_not_absolute {pre text : String} (hpre : StorageText pre) :
    (pre ++ ":" ++ text).toList.head? ≠ some SEPARATOR := by
  intro h
  obtain ⟨c, rest, hc⟩ := List.exists_cons_of_ne_nil
    (fun hnil => hpre.nonempty (String.toList_eq_nil_iff.mp hnil))
  rw [storage_toList, hc, List.cons_append, List.head?_cons] at h
  exact absurd (by rw [hc, Option.some.inj h]; exact List.mem_cons_self) hpre.slash

/-- Before the first colon of an absolute text there is a slash. -/
theorem splitStorage_absolute {text : String} (h : text.toList.head? = some SEPARATOR) :
    splitStorage text = (.default, text) := by
  rcases splitStorage_cases text with hs | ⟨pre, path, hpre, -, rfl⟩
  · exact hs
  · exact absurd h (storage_not_absolute hpre)

theorem DevicePath.fromStr_ok {input : String} {path : DevicePath} :
    DevicePath.fromStr input = .ok path ↔
      RemotePath.parse (splitStorage input).2 = .ok path.path ∧
        path.storage = (splitStorage input).1 := by
  rw [DevicePath.fromStr]
  cases h : RemotePath.parse (splitStorage input).2 with
  | error e => simp [Except.map]
  | ok remote =>
    constructor
    · intro he
      cases he
      exact ⟨rfl, rfl⟩
    · rintro ⟨hpath, hstorage⟩
      cases hpath
      rw [← hstorage]
      rfl

/-- The selectors that are read back from what they show. -/
inductive StorageSelector.Shown : StorageSelector → Prop
  | default : Shown .default
  | index {position : ℕ} (h : position ≤ USIZE_MAX) : Shown (.index position)
  | named {name : String} (h : StorageText name) (hname : parseUsize name = none) :
      Shown (.named name)

/-- Digits hold neither a slash nor a colon. -/
theorem StorageText.of_digits {pre : String} (hne : pre ≠ "")
    (h : ∀ c ∈ pre.toList, c.isDigit = true) : StorageText pre := by
  refine ⟨hne, ?_, ?_⟩
  · intro hmem
    exact absurd (h _ hmem) (by decide)
  · intro hmem
    exact absurd (h _ hmem) (by decide)

theorem storageText_repr (n : ℕ) : StorageText n.repr := by
  apply StorageText.of_digits Nat.repr_ne_empty
  intro c hc
  rw [Nat.toList_repr] at hc
  exact Nat.isDigit_of_mem_toDigits (by decide) (by decide) hc

theorem StorageSelector.shown_from {pre : String} (h : StorageText pre) :
    (StorageSelector.from pre).Shown := by
  rw [StorageSelector.from]
  split
  · rename_i position hparse
    exact .index (parseUsize_le hparse)
  · rename_i hparse
    exact .named h hparse

theorem DevicePath.fromStr_shown {input : String} {path : DevicePath}
    (h : DevicePath.fromStr input = .ok path) : path.storage.Shown := by
  obtain ⟨-, hstorage⟩ := DevicePath.fromStr_ok.mp h
  rcases splitStorage_cases input with hs | ⟨pre, text, hpre, htext, rfl⟩
  · rw [hstorage, hs]
    exact .default
  · rw [hstorage, splitStorage_storage hpre htext]
    exact StorageSelector.shown_from hpre

theorem splitStorage_display {path : DevicePath} (h : path.storage.Shown) :
    splitStorage path.display = (path.storage, path.path.display) := by
  obtain ⟨storage, remote⟩ := path
  have hhead := remote.display_head
  change splitStorage (storage.display ++ remote.display) = (storage, remote.display)
  cases h with
  | default =>
    rw [StorageSelector.display, String.empty_append]
    exact splitStorage_absolute hhead
  | index hmax =>
    rw [StorageSelector.display, splitStorage_storage (storageText_repr _) hhead,
      StorageSelector.from, parseUsize_repr hmax]
  | named hname hparse =>
    rw [StorageSelector.display, splitStorage_storage hname hhead, StorageSelector.from, hparse]

theorem DevicePath.fromStr_display {path : DevicePath} (h : path.storage.Shown) :
    DevicePath.fromStr path.display = .ok path := by
  apply DevicePath.fromStr_ok.mpr
  rw [splitStorage_display h]
  exact ⟨path.path.parse_display, rfl⟩

/-- What was parsed is displayed as a text that parses to it again. -/
theorem display_parses_back :
    (∀ input path, DevicePath.fromStr input = .ok path →
      DevicePath.fromStr path.display = .ok path) ∧
    ∀ path : RemotePath, RemotePath.parse path.display = .ok path := by
  constructor
  · intro input path h
    exact DevicePath.fromStr_display (DevicePath.fromStr_shown h)
  · exact RemotePath.parse_display

/-- Colons of a segment, a repeated and a trailing slash. -/
theorem display_parses_back_card : ∃ path, DevicePath.fromStr "sd card://a:1//12:30.png/" = .ok path ∧
    path.display = "sd card:/a:1/12:30.png" ∧ DevicePath.fromStr path.display = .ok path := by
  refine ⟨⟨.named "sd card", ⟨RelPath.ofSegments ["a:1", "12:30.png"]⟩⟩, ?_⟩
  have h : DevicePath.fromStr "sd card://a:1//12:30.png/" =
      .ok ⟨.named "sd card", ⟨RelPath.ofSegments ["a:1", "12:30.png"]⟩⟩ := by decide
  exact ⟨h, by decide, display_parses_back.1 _ _ h⟩

/-! The language that is read -/

/-- Digits select by index, when their value is one. -/
structure IndexText (pre : String) (n : ℕ) : Prop where
  nonempty : pre ≠ ""
  digits : ∀ c ∈ pre.toList, c.isDigit = true
  value : Nat.ofDigitChars 10 pre.toList 0 = n
  fits : n ≤ USIZE_MAX

/-- A slash, then pieces that are no dot names and hold no NUL. -/
structure AbsoluteText (text : String) : Prop where
  slash : text.toList.head? = some SEPARATOR
  plain : ∀ piece ∈ pieces text, piece ≠ "." ∧ piece ≠ ".." ∧ '\x00' ∉ piece.toList

/-- Digits select by index; anything else is a name. -/
inductive Selects (pre : String) : StorageSelector → Prop
  | index {n : ℕ} (h : IndexText pre n) : Selects pre (.index n)
  | named (h : ∀ n, ¬IndexText pre n) : Selects pre (.named pre)

/-- The documented grammar: a text, the storage it selects and the segments of its path. -/
inductive Grammar : String → StorageSelector → List String → Prop
  | default {text : String} (h : AbsoluteText text) : Grammar text .default (pieces text)
  | storage {pre text : String} {storage : StorageSelector} (hpre : StorageText pre)
      (hstorage : Selects pre storage) (h : AbsoluteText text) :
      Grammar (pre ++ ":" ++ text) storage (pieces text)

/-- What `from_str` makes of a text. -/
def Reads (s : String) (storage : StorageSelector) (segments : List String) : Prop :=
  ∃ path, DevicePath.fromStr s = .ok path ∧ path.storage = storage ∧ path.path.segments = segments

/-- A plus sign and digits where a storage stands. -/
def PlusIndex (s : String) : Prop :=
  ∃ digits text n, s = "+" ++ digits ++ ":" ++ text ∧ IndexText digits n ∧ AbsoluteText text

theorem not_mem_of_mem_splitOn {xs l : List Char} {sep : Char} (h : l ∈ xs.splitOn sep) :
    sep ∉ l := by
  induction xs generalizing l with
  | nil =>
    rw [List.splitOn_nil, List.mem_singleton] at h
    rw [h]
    exact List.not_mem_nil
  | cons x xs ih =>
    rw [List.splitOn_cons_eq_if_modifyHead] at h
    split at h
    · rcases List.mem_cons.mp h with rfl | h
      · exact List.not_mem_nil
      · exact ih h
    · rename_i hx
      obtain ⟨first, rest, hsplit⟩ := List.exists_cons_of_ne_nil (List.splitOn_ne_nil sep xs)
      rw [hsplit, List.modifyHead_cons] at h
      rw [hsplit] at ih
      rcases List.mem_cons.mp h with rfl | h
      · intro hmem
        rcases List.mem_cons.mp hmem with he | hmem
        · exact hx (beq_iff_eq.mpr he.symm)
        · exact ih List.mem_cons_self hmem
      · exact ih (List.mem_cons_of_mem _ h)

theorem of_mem_pieces {text piece : String} (h : piece ∈ pieces text) :
    piece ≠ "" ∧ SEPARATOR ∉ piece.toList := by
  obtain ⟨hsplit, hne⟩ := List.mem_filter.mp h
  obtain ⟨chars, hchars, rfl⟩ := List.mem_map.mp hsplit
  refine ⟨of_decide_eq_true hne, ?_⟩
  rw [String.toList_ofList]
  exact not_mem_of_mem_splitOn hchars

theorem AbsoluteText.valid {text : String} (h : AbsoluteText text) :
    ∀ piece ∈ pieces text, validateSegment piece = .ok () := by
  intro piece hp
  obtain ⟨hne, hsep⟩ := of_mem_pieces hp
  obtain ⟨hdot, hdots, hnul⟩ := h.plain piece hp
  exact validateSegment_iff.mpr ⟨hne, hdot, hdots, hnul, hsep⟩

/-- The absolute texts are those that parse, to their pieces. -/
theorem AbsoluteText.parses {text : String} {segments : List String} :
    (AbsoluteText text ∧ segments = pieces text) ↔
      ∃ path, RemotePath.parse text = .ok path ∧ path.segments = segments := by
  constructor
  · rintro ⟨h, rfl⟩
    exact ⟨⟨⟨pieces text, h.valid⟩⟩, RemotePath.parse_ok.mpr ⟨h.slash, rfl⟩, rfl⟩
  · rintro ⟨path, hparse, rfl⟩
    obtain ⟨hslash, hpieces⟩ := RemotePath.parse_ok.mp hparse
    refine ⟨⟨hslash, fun piece hp => ?_⟩, hpieces⟩
    have hvalid := path.rel.valid piece (hpieces.symm ▸ hp : piece ∈ path.segments)
    obtain ⟨-, hdot, hdots, hnul, -⟩ := validateSegment_iff.mp hvalid
    exact ⟨hdot, hdots, hnul⟩

theorem parseDigits_index {pre : String} {n : ℕ} :
    parseDigits pre.toList = some n ↔ IndexText pre n := by
  have hnil : pre.toList ≠ [] ↔ pre ≠ "" := not_congr String.toList_eq_nil_iff
  rw [parseDigits_some, hnil]
  constructor
  · rintro ⟨hne, hdigits, hvalue, hmax⟩
    exact ⟨hne, hdigits, hvalue, hmax⟩
  · rintro ⟨hne, hdigits, hvalue, hmax⟩
    exact ⟨hne, hdigits, hvalue, hmax⟩

theorem IndexText.storage {pre : String} {n : ℕ} (h : IndexText pre n) : StorageText pre :=
  .of_digits h.nonempty h.digits

/-- A prefix is an index by its digits, or by the digits after a plus sign. -/
theorem parseUsize_some {pre : String} {n : ℕ} :
    parseUsize pre = some n ↔
      IndexText pre n ∨ ∃ digits, pre = "+" ++ digits ∧ IndexText digits n := by
  have hplus (digits : String) : ("+" ++ digits).toList = '+' :: digits.toList := by
    simp [String.toList_append]
  constructor
  · intro h
    rw [parseUsize] at h
    split at h
    · rename_i digits hstrip
      refine .inr ⟨digits, ?_, parseDigits_index.mp h⟩
      apply String.toList_inj.mp
      rw [strStripPrefix_some.mp hstrip, hplus]
    · exact .inl (parseDigits_index.mp h)
  · rintro (h | ⟨digits, rfl, h⟩)
    · rw [parseUsize_digits h.digits]
      exact parseDigits_index.mpr h
    · rw [parseUsize, strStripPrefix_some.mpr (hplus digits)]
      exact parseDigits_index.mpr h

theorem parseUsize_none {pre : String} : parseUsize pre = none ↔
    (∀ n, ¬IndexText pre n) ∧ ∀ digits, pre = "+" ++ digits → ∀ n, ¬IndexText digits n := by
  rw [Option.eq_none_iff_forall_ne_some]
  constructor
  · intro h
    exact ⟨fun n hn => h n (parseUsize_some.mpr (.inl hn)),
      fun digits hd n hn => h n (parseUsize_some.mpr (.inr ⟨digits, hd, hn⟩))⟩
  · rintro ⟨hindex, hplus⟩ n hn
    rcases parseUsize_some.mp hn with hn | ⟨digits, hd, hn⟩
    · exact hindex n hn
    · exact hplus digits hd n hn

theorem Selects.unique {pre : String} {a b : StorageSelector} (ha : Selects pre a)
    (hb : Selects pre b) : a = b := by
  cases ha with
  | index ha =>
    cases hb with
    | index hb => rw [← ha.value, hb.value]
    | named hb => exact absurd ha (hb _)
  | named ha =>
    cases hb with
    | index hb => exact absurd hb (ha _)
    | named => rfl

/-- The code selects as documented, digits behind a plus sign apart. -/
theorem selects_from {pre : String} (h : ∀ digits, pre = "+" ++ digits → ∀ n, ¬IndexText digits n) :
    Selects pre (.from pre) := by
  rw [StorageSelector.from]
  split
  · rename_i n hparse
    rcases parseUsize_some.mp hparse with hindex | ⟨digits, hd, hindex⟩
    · exact .index hindex
    · exact absurd hindex (h digits hd n)
  · rename_i hparse
    exact .named (parseUsize_none.mp hparse).1

theorem not_selects_plus {digits : String} {n : ℕ} (h : IndexText digits n) :
    ¬Selects ("+" ++ digits) (.from ("+" ++ digits)) := by
  have hparse : parseUsize ("+" ++ digits) = some n := parseUsize_some.mpr (.inr ⟨digits, rfl, h⟩)
  rw [StorageSelector.from, hparse]
  intro hselects
  cases hselects with
  | index hindex => exact absurd (hindex.digits '+' (by simp [String.toList_append])) (by decide)

/-- Of one text the prefix and the path are determined. -/
theorem storage_unique {pre pre' text text' : String} (h : StorageText pre)
    (h' : StorageText pre') (heq : pre ++ ":" ++ text = pre' ++ ":" ++ text') :
    pre = pre' ∧ text = text' := by
  have honce : splitOnce (pre ++ ":" ++ text) STORAGE_DELIMITER = some (pre, text) :=
    splitOnce_some.mpr ⟨storage_toList pre text, h.colon⟩
  rw [heq, splitOnce_some.mpr ⟨storage_toList pre' text', h'.colon⟩] at honce
  cases honce
  exact ⟨rfl, rfl⟩

theorem reads_iff {s : String} {storage : StorageSelector} {segments : List String} :
    Reads s storage segments ↔ AbsoluteText (splitStorage s).2 ∧ storage = (splitStorage s).1 ∧
      segments = pieces (splitStorage s).2 := by
  constructor
  · rintro ⟨path, hread, rfl, rfl⟩
    obtain ⟨hparse, hstorage⟩ := DevicePath.fromStr_ok.mp hread
    obtain ⟨habsolute, hsegments⟩ := AbsoluteText.parses.mpr ⟨path.path, hparse, rfl⟩
    exact ⟨habsolute, hstorage, hsegments⟩
  · rintro ⟨habsolute, hstorage, hsegments⟩
    obtain ⟨path, hparse, hpath⟩ := AbsoluteText.parses.mp ⟨habsolute, hsegments⟩
    exact ⟨⟨storage, path⟩, DevicePath.fromStr_ok.mpr ⟨hparse, hstorage⟩, rfl, hpath⟩

theorem StorageSelector.from_ne_default (pre : String) : StorageSelector.from pre ≠ .default := by
  rw [StorageSelector.from]
  split
  · simp
  · simp

theorem grammar_default {s : String} (hs : splitStorage s = (.default, s))
    {storage : StorageSelector} {segments : List String} :
    Grammar s storage segments ↔ AbsoluteText s ∧ storage = .default ∧ segments = pieces s := by
  constructor
  · intro h
    cases h with
    | default h => exact ⟨h, rfl, rfl⟩
    | @storage pre text _ hpre _ htext =>
      rw [splitStorage_storage hpre htext.slash] at hs
      exact absurd (congrArg Prod.fst hs) (StorageSelector.from_ne_default pre)
  · rintro ⟨h, rfl, rfl⟩
    exact .default h

theorem grammar_storage {pre text : String} (hpre : StorageText pre)
    {storage : StorageSelector} {segments : List String} :
    Grammar (pre ++ ":" ++ text) storage segments ↔
      AbsoluteText text ∧ Selects pre storage ∧ segments = pieces text := by
  constructor
  · intro h
    generalize hs : pre ++ ":" ++ text = s at h
    cases h with
    | default h => exact absurd h.slash (hs ▸ storage_not_absolute hpre)
    | storage hpre' hselects htext =>
      obtain ⟨rfl, rfl⟩ := storage_unique hpre hpre' hs
      exact ⟨htext, hselects, rfl⟩
  · rintro ⟨htext, hselects, rfl⟩
    exact .storage hpre hselects htext

/-- Exactly the texts of the documented grammar are accepted, and to its segments. -/
theorem accepts_grammar {s : String} {segments : List String} :
    (∃ storage, Reads s storage segments) ↔ ∃ storage, Grammar s storage segments := by
  rcases splitStorage_cases s with hs | ⟨pre, text, hpre, htext, rfl⟩
  · simp only [reads_iff, hs, grammar_default hs]
  · simp only [reads_iff, splitStorage_storage hpre htext, grammar_storage hpre]
    constructor
    · rintro ⟨-, habsolute, -, hsegments⟩
      by_cases hindex : ∃ n, IndexText pre n
      · obtain ⟨n, hn⟩ := hindex
        exact ⟨.index n, habsolute, .index hn, hsegments⟩
      · exact ⟨.named pre, habsolute, .named (not_exists.mp hindex), hsegments⟩
    · rintro ⟨-, habsolute, -, hsegments⟩
      exact ⟨_, habsolute, rfl, hsegments⟩

/-- The storage read is the documented one just when no plus sign stands before an index. -/
theorem reads_grammar_iff (s : String) :
    (∀ storage segments, Reads s storage segments ↔ Grammar s storage segments) ↔
      ¬PlusIndex s := by
  constructor
  · rintro hread ⟨digits, text, n, rfl, hindex, htext⟩
    have hdigits := hindex.storage
    have hpre : StorageText ("+" ++ digits) := by
      refine ⟨by simp [← String.toList_inj], ?_, ?_⟩
      · simpa [String.toList_append, SEPARATOR] using hdigits.slash
      · simpa [String.toList_append, STORAGE_DELIMITER] using hdigits.colon
    have hsplit := splitStorage_storage hpre htext.slash
    have hreads : Reads ("+" ++ digits ++ ":" ++ text) (.from ("+" ++ digits)) (pieces text) := by
      rw [reads_iff, hsplit]
      exact ⟨htext, rfl, rfl⟩
    have hgrammar := (grammar_storage hpre).mp ((hread _ _).mp hreads)
    exact not_selects_plus hindex hgrammar.2.1
  · intro hplus storage segments
    rcases splitStorage_cases s with hs | ⟨pre, text, hpre, htext, rfl⟩
    · rw [reads_iff, hs, grammar_default hs]
    · rw [reads_iff, splitStorage_storage hpre htext, grammar_storage hpre]
      apply and_congr_right
      intro habsolute
      have hfrom : Selects pre (.from pre) := by
        apply selects_from
        rintro digits rfl n hindex
        exact hplus ⟨digits, text, n, rfl, hindex, habsolute⟩
      constructor
      · rintro ⟨rfl, hsegments⟩
        exact ⟨hfrom, hsegments⟩
      · rintro ⟨hselects, hsegments⟩
        exact ⟨hselects.unique hfrom, hsegments⟩

/-- The storage `+1` is read as the device's second one, not as a name. -/
theorem reads_plus_as_index : Reads "+1:/a" (.index 1) ["a"] ∧
    ¬Grammar "+1:/a" (.index 1) ["a"] ∧ Grammar "+1:/a" (.named "+1") ["a"] := by
  have hs : "+1:/a" = "+1" ++ ":" ++ "/a" := by decide
  have hpre : StorageText "+1" := ⟨by decide, by decide, by decide⟩
  have hname : ∀ n, ¬IndexText "+1" n := fun n h => absurd (h.digits '+' (by decide)) (by decide)
  refine ⟨?_, ?_, ?_⟩
  · exact ⟨⟨.index 1, ⟨RelPath.ofSegments ["a"]⟩⟩, by decide, rfl, rfl⟩
  · rw [hs, grammar_storage hpre]
    rintro ⟨-, hselects, -⟩
    cases hselects with
    | index h => exact hname 1 h
  · rw [hs, grammar_storage hpre]
    exact ⟨⟨by decide, by decide⟩, .named hname, by decide⟩

end MtpxCore
