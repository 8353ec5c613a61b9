import Mathlib
import MtpxCore.PartialRecords
import MtpxCore.SelfDelimiting

/-! The text of a record: the indented JSON that `serde_json::to_vec_pretty` writes. Every
field is closed by its line, so no two records have one text. -/
namespace MtpxCore

open SelfDelimiting

def HEX_DIGITS : List Char := "0123456789abcdef".toList

/-- One character of a JSON string. -/
def escapeChar (c : Char) : List Char :=
  if c = '"' then ['\\', '"']
  else if c = '\\' then ['\\', '\\']
  else if c = '\x08' then ['\\', 'b']
  else if c = '\t' then ['\\', 't']
  else if c = '\n' then ['\\', 'n']
  else if c = '\x0c' then ['\\', 'f']
  else if c = '\r' then ['\\', 'r']
  else if c.toNat < 32 then
    ['\\', 'u', '0', '0', HEX_DIGITS.getD (c.toNat / 16) '0', HEX_DIGITS.getD (c.toNat % 16) '0']
  else [c]

/-- The text inside the quotes and the closing quote. -/
def jsonString (s : String) : List Char := s.toList.flatMap escapeChar ++ ['"']

/-- A number and the character that closes it. -/
def jsonNumber (close : Char) (n : ℕ) : List Char := n.repr.toList ++ [close]

def jsonTime (close : Char) (time : Option ModifiedTime) : List Char :=
  (match time with
    | none => "null".toList
    | some time => time.unixSeconds.repr.toList) ++ [close]

/-- A value behind the text that leads up to it. -/
def labelled (label : String) (value : List Char) : List Char := label.toList ++ value

def sidecarText (s : Sidecar) : List Char :=
  labelled "\x7b\n  \"version\": " (jsonNumber ',' s.version) ++
  labelled "\n  \"identity\": \x7b\n    \"device_serial\": \"" (jsonString s.identity.deviceSerial) ++
  labelled ",\n    \"storage\": \"" (jsonString s.identity.storage) ++
  labelled "\n  \x7d,\n  \"path\": \"" (jsonString s.path) ++
  labelled ",\n  \"fingerprint\": \x7b\n    \"size\": " (jsonNumber ',' s.fingerprint.size) ++
  labelled "\n    \"modified\": " (jsonTime '\n' s.fingerprint.modified) ++
  labelled "  \x7d,\n  \"bytes\": " (jsonNumber '\n' s.bytes) ++ ['\x7d']

/-- `serde_json::to_vec_pretty`. -/
def sidecarJson (s : Sidecar) : Bytes :=
  (String.ofList (sidecarText s)).toByteArray.data.toList

/-- Reads one escaped character back. -/
def unescapeChar : List Char → Option (Char × List Char)
  | '\\' :: 'u' :: '0' :: '0' :: a :: b :: rest =>
    some (Char.ofNat (HEX_DIGITS.idxOf a * 16 + HEX_DIGITS.idxOf b), rest)
  | '\\' :: c :: rest =>
    some (if c = 'b' then '\x08' else if c = 't' then '\t' else if c = 'n' then '\n'
      else if c = 'f' then '\x0c' else if c = 'r' then '\r' else c, rest)
  | c :: rest => some (c, rest)
  | [] => none

theorem unescapeChar_escapeChar (c : Char) (rest : List Char) :
    unescapeChar (escapeChar c ++ rest) = some (c, rest) := by
  by_cases hc : c.toNat < 32
  · -- the control characters, one by one
    have hall : ∀ n < 32, unescapeChar (escapeChar (Char.ofNat n) ++ rest) =
        some (Char.ofNat n, rest) := by
      intro n hn
      interval_cases n <;> rfl
    have hofNat := hall c.toNat hc
    rwa [Char.ofNat_toNat] at hofNat
  · unfold escapeChar
    split
    · rename_i h; subst h; rfl
    · split
      · rename_i h; subst h; rfl
      · rename_i hquote hslash
        have hctl (d : Char) (hd : d.toNat < 32) : c ≠ d := by
          rintro rfl
          exact hc hd
        rw [if_neg (hctl _ (by decide)), if_neg (hctl _ (by decide)), if_neg (hctl _ (by decide)),
          if_neg (hctl _ (by decide)), if_neg (hctl _ (by decide)), List.singleton_append]
        unfold unescapeChar
        split
        · rename_i heq
          exact absurd (List.cons.inj heq).1 hslash
        · rename_i heq
          exact absurd (List.cons.inj heq).1 hslash
        · rename_i heq
          rw [(List.cons.inj heq).1, (List.cons.inj heq).2]
        · rename_i heq
          exact absurd heq (by simp)

theorem isCode_escapeChar : IsCode escapeChar :=
  IsCode.of_reader unescapeChar unescapeChar_escapeChar

theorem escapeChar_head (c : Char) : (escapeChar c).head? ≠ some '"' := by
  unfold escapeChar
  repeat' split
  all_goals simp_all

theorem isCode_jsonString : IsCode jsonString := by
  have hmany : IsCode (fun cs : List Char => cs.flatMap escapeChar ++ ['"']) := by
    apply isCode_escapeChar.many
    · intro c hnil
      have hread := unescapeChar_escapeChar c []
      rw [hnil] at hread
      exact absurd hread (by simp [unescapeChar])
    · exact escapeChar_head
  exact hmany.comp (fun s t h => String.toList_inj.mp h)

/-- Decimal text has digits only. -/
theorem isDigit_of_mem_repr {n : ℕ} {c : Char} (h : c ∈ n.repr.toList) : c.isDigit = true := by
  rw [Nat.repr, String.toList_ofList] at h
  exact Nat.isDigit_of_mem_toDigits (by decide) (by decide) h

theorem isCode_jsonNumber {close : Char} (h : close.isDigit = false) :
    IsCode (jsonNumber close) := by
  apply IsCode.until
  · intro m n hmn
    exact Nat.repr_injective (String.toList_inj.mp hmn)
  · intro n hm
    rw [isDigit_of_mem_repr hm] at h
    exact absurd h (by simp)

theorem isCode_jsonTime : IsCode (jsonTime '\n') := by
  apply IsCode.until
  · intro a b hab
    -- `null` starts with a letter, a number does not
    have hnull (n : ℕ) : n.repr.toList ≠ "null".toList := by
      intro hn
      have hm : 'n' ∈ n.repr.toList := by
        rw [hn]
        decide
      exact absurd (isDigit_of_mem_repr hm) (by decide)
    cases a with
    | none =>
      cases b with
      | none => rfl
      | some b => exact absurd hab.symm (hnull _)
    | some a =>
      cases b with
      | none => exact absurd hab (hnull _)
      | some b =>
        have hunix := Nat.repr_injective (String.toList_inj.mp hab)
        exact congrArg some (congrArg ModifiedTime.mk hunix)
  · intro time hm
    cases time with
    | none => exact absurd hm (by decide)
    | some time => exact absurd (isDigit_of_mem_repr hm) (by decide)

/-- Two records with one text are one record. -/
theorem sidecarText_injective : Function.Injective sidecarText := by
  have hcomma (label : String) : IsCode (fun n => labelled label (jsonNumber ',' n)) :=
    (isCode_jsonNumber (by decide)).text_append label.toList
  have hline (label : String) : IsCode (fun n => labelled label (jsonNumber '\n' n)) :=
    (isCode_jsonNumber (by decide)).text_append label.toList
  have hstring (label : String) : IsCode (fun t => labelled label (jsonString t)) :=
    isCode_jsonString.text_append label.toList
  have htime (label : String) : IsCode (fun t => labelled label (jsonTime '\n' t)) :=
    isCode_jsonTime.text_append label.toList
  intro s t h
  simp only [sidecarText, List.append_assoc] at h
  obtain ⟨hversion, h⟩ := hcomma _ _ _ _ _ h
  obtain ⟨hserial, h⟩ := hstring _ _ _ _ _ h
  obtain ⟨hstorage, h⟩ := hstring _ _ _ _ _ h
  obtain ⟨hpath, h⟩ := hstring _ _ _ _ _ h
  obtain ⟨hsize, h⟩ := hcomma _ _ _ _ _ h
  obtain ⟨hmodified, h⟩ := htime _ _ _ _ _ h
  obtain ⟨hbytes, -⟩ := hline _ _ _ _ _ h
  obtain ⟨version, ⟨serial, storage⟩, path, ⟨size, modified⟩, bytes⟩ := s
  obtain ⟨version', ⟨serial', storage'⟩, path', ⟨size', modified'⟩, bytes'⟩ := t
  dsimp only at hversion hserial hstorage hpath hsize hmodified hbytes
  rw [hversion, hserial, hstorage, hpath, hsize, hmodified, hbytes]

theorem sidecarJson_injective : Function.Injective sidecarJson := by
  intro s t h
  apply sidecarText_injective
  apply String.ofList_injective
  apply String.toByteArray_inj.mp
  apply ByteArray.ext
  exact Array.toList_inj.mp h

open Classical in
/-- The record a text was written for. -/
noncomputable def parseSidecar (bytes : Bytes) : Option Sidecar :=
  if h : ∃ s, sidecarJson s = bytes then some h.choose else none

/-- The records of the transfers, as JSON. -/
noncomputable def SidecarCodec.json : SidecarCodec where
  encode := sidecarJson
  decode := parseSidecar
  round_trip s := by
    have h : ∃ t, sidecarJson t = sidecarJson s := ⟨s, rfl⟩
    rw [parseSidecar, dif_pos h, sidecarJson_injective h.choose_spec]

theorem SidecarCodec.json_encode (record : Sidecar) :
    SidecarCodec.json.encode record = sidecarJson record := by
  rw [SidecarCodec.json]

theorem SidecarCodec.json_decode (record : Sidecar) :
    SidecarCodec.json.decode (sidecarJson record) = some record := by
  rw [← SidecarCodec.json_encode]
  exact SidecarCodec.json.round_trip record

end MtpxCore
