import MtpxCore.PlanActions
import MtpxCore.CaseFolding

/-! What lies next to a partial download: the names reserved for transfer files and the
record that says where the bytes of a part came from (`partial.rs`). -/
namespace MtpxCore

/-- Suffix of the file that holds the bytes received so far. -/
def PART_SUFFIX : String := ".mtpx-part"

/-- Suffix of the record that describes a partial file. -/
def SIDECAR_SUFFIX : String := ".mtpx-part.json"

/-- Suffix of the record while it is being replaced. -/
def SIDECAR_TMP_SUFFIX : String := ".mtpx-part.json.tmp"

def RESERVED_SUFFIXES : List String := [PART_SUFFIX, SIDECAR_SUFFIX, SIDECAR_TMP_SUFFIX]

def SIDECAR_VERSION : ℕ := 1

/-- Anything larger under a sidecar's name is not loaded. -/
def MAX_SIDECAR_BYTES : ℕ := 64 * 1024

/-- `str::ends_with`. -/
def endsWith (name suffix : String) : Bool := suffix.toList.isSuffixOf name.toList

/-- Whether `name` ends with a suffix reserved for transfer files; letter case counts. -/
def isReservedName (name : String) : Bool := RESERVED_SUFFIXES.any (endsWith name)

/-- Which device and storage a transfer talks to. -/
structure Identity where
  deviceSerial : String
  storage : String
  deriving DecidableEq, Repr

/-- On-disk record next to a partial file. -/
structure Sidecar where
  version : ℕ
  identity : Identity
  path : String
  fingerprint : Fingerprint
  bytes : ℕ
  deriving DecidableEq, Repr

namespace Sidecar

/-- A current-version record for one partial download. -/
def new (identity : Identity) (path : RelPath) (fingerprint : Fingerprint) (bytes : ℕ) :
    Sidecar :=
  ⟨SIDECAR_VERSION, identity, path.display, fingerprint, bytes⟩

/-- True when the record describes a resumable partial for `peer` whose file holds at least
the bytes it vouches for; a peer without a serial never resumes. -/
def isValidFor (sidecar : Sidecar) (peer : Identity) (partLen : ℕ) : Bool :=
  decide (sidecar.version = SIDECAR_VERSION) && decide (peer.deviceSerial ≠ "") &&
    decide (sidecar.identity = peer) && decide (sidecar.bytes ≤ partLen)

theorem isValidFor_iff {sidecar : Sidecar} {peer : Identity} {partLen : ℕ} :
    sidecar.isValidFor peer partLen = true ↔ sidecar.version = SIDECAR_VERSION ∧
      peer.deviceSerial ≠ "" ∧ sidecar.identity = peer ∧ sidecar.bytes ≤ partLen := by
  simp [isValidFor, and_assoc]

end Sidecar

abbrev Bytes := List UInt8

/-- The JSON encoding of a record: whatever it is, a written record reads back. -/
structure SidecarCodec where
  encode : Sidecar → Bytes
  decode : Bytes → Option Sidecar
  round_trip : ∀ s, decode (encode s) = some s

/-- `with_suffix`: the suffix goes onto the last name of the path. -/
def withSuffix (path : List String) (suffix : String) : List String :=
  match path.getLast? with
  | none => []
  | some name => path.dropLast ++ [name ++ suffix]

def partPath (finalPath : List String) : List String := withSuffix finalPath PART_SUFFIX

def sidecarPath (finalPath : List String) : List String := withSuffix finalPath SIDECAR_SUFFIX

def sidecarTmpPath (finalPath : List String) : List String :=
  withSuffix finalPath SIDECAR_TMP_SUFFIX

theorem withSuffix_append (dir : List String) (name suffix : String) :
    withSuffix (dir ++ [name]) suffix = dir ++ [name ++ suffix] := by
  simp [withSuffix]

theorem endsWith_append (name suffix : String) : endsWith (name ++ suffix) suffix = true := by
  rw [endsWith, List.isSuffixOf_iff_suffix, String.toList_append]
  exact List.suffix_append _ _

theorem isReservedName_iff {name : String} :
    isReservedName name = true ↔ ∃ stem, ∃ suffix ∈ RESERVED_SUFFIXES, name = stem ++ suffix := by
  rw [isReservedName, List.any_eq_true]
  constructor
  · intro h
    obtain ⟨suffix, hm, he⟩ := h
    obtain ⟨stem, hs⟩ := List.isSuffixOf_iff_suffix.mp he
    refine ⟨String.ofList stem, suffix, hm, ?_⟩
    apply String.toList_inj.mp
    rw [String.toList_append, String.toList_ofList, hs]
  · intro h
    obtain ⟨stem, suffix, hm, rfl⟩ := h
    exact ⟨suffix, hm, endsWith_append stem suffix⟩

/-- A name as the destination compares it when a reserved suffix follows. -/
def foldStem (tables : CaseTables) : NameFolding → String → List Char
  | .exact, name => name.toList
  | .caseInsensitive, name => tables.lowercaseIn PART_SUFFIX.toList [] name.toList

section Suffixes

variable (tables : CaseTables)

/-- A reserved suffix starts with an ignorable dot and then a letter, so every one of them
ends a word in the same way. -/
theorem caseIgnorableThenCased_suffix {suffix : String} (h : suffix ∈ RESERVED_SUFFIXES) :
    tables.caseIgnorableThenCased suffix.toList =
      tables.caseIgnorableThenCased PART_SUFFIX.toList := by
  have hdot : tables.caseIgnorable '.' = true := by
    rw [tables.ignorable_ascii '.' (by decide)]
    decide
  have hm : tables.caseIgnorable 'm' = false := by
    rw [tables.ignorable_ascii 'm' (by decide)]
    decide
  have hcons (rest : List Char) :
      tables.caseIgnorableThenCased ('.' :: 'm' :: rest) = tables.cased 'm' := by
    simp [CaseTables.caseIgnorableThenCased, hdot, hm]
  rcases List.mem_cons.mp h with rfl | h
  · rfl
  · rcases List.mem_cons.mp h with rfl | h
    · exact (hcons _).trans (hcons _).symm
    · rw [List.mem_singleton.mp h]
      exact (hcons _).trans (hcons _).symm

theorem suffix_ascii {suffix : String} (h : suffix ∈ RESERVED_SUFFIXES) :
    ∀ c ∈ suffix.toList, c.toNat < 128 ∧ c.toLower = c := by
  have hall : (RESERVED_SUFFIXES.all fun s =>
      s.toList.all fun c => decide (c.toNat < 128 ∧ c.toLower = c)) = true := by decide
  intro c hc
  exact of_decide_eq_true (List.all_eq_true.mp (List.all_eq_true.mp hall suffix h) c hc)

/-- A suffixed name folds to its folded stem with the suffix unchanged. -/
theorem foldName_suffix (folding : NameFolding) (name : String) {suffix : String}
    (h : suffix ∈ RESERVED_SUFFIXES) :
    (foldName tables folding (name ++ suffix)).toList =
      foldStem tables folding name ++ suffix.toList := by
  cases folding with
  | exact => rw [foldName, foldStem, String.toList_append]
  | caseInsensitive =>
    rw [foldName, CaseTables.toLowercase, String.toList_ofList, String.toList_append,
      lowercaseIn_append, foldStem, List.append_nil, List.append_nil,
      lowercaseIn_tail tables (caseIgnorableThenCased_suffix tables h),
      lowercaseIn_ascii tables _ _ (suffix_ascii h)]

/-- The three suffixes end in different letters. -/
theorem suffix_inj {s t : String} (hs : s ∈ RESERVED_SUFFIXES) (ht : t ∈ RESERVED_SUFFIXES)
    {x y : List Char} (h : x ++ s.toList = y ++ t.toList) : s = t ∧ x = y := by
  have hlast : s.toList.getLast? = t.toList.getLast? := by
    have hne {u : String} (hu : u ∈ RESERVED_SUFFIXES) : u.toList ≠ [] := by
      revert u
      decide
    have hl := congrArg List.getLast? h
    rwa [List.getLast?_append_of_ne_nil _ (hne hs), List.getLast?_append_of_ne_nil _ (hne ht)]
      at hl
  have hst : s = t := by
    have hall : ∀ s ∈ RESERVED_SUFFIXES, ∀ t ∈ RESERVED_SUFFIXES,
        s.toList.getLast? = t.toList.getLast? → s = t := by decide
    exact hall s hs t ht hlast
  subst hst
  exact ⟨rfl, List.append_cancel_right h⟩

end Suffixes

end MtpxCore
