import MtpxCore.RelativePath
import Mathlib.Tactic.Common

/-! How names are compared: byte for byte, or after `str::to_lowercase`. The Unicode
tables are a parameter; only their ASCII part, which the standard fixes, is a field. -/
namespace MtpxCore

/-- The tables `str::to_lowercase` consults. -/
structure CaseTables where
  lower : Char → List Char
  cased : Char → Bool
  caseIgnorable : Char → Bool
  lower_ascii : ∀ c : Char, c.toNat < 128 → lower c = [c.toLower]
  cased_ascii : ∀ c : Char, c.toNat < 128 → cased c = c.isAlpha
  ignorable_ascii : ∀ c : Char, c.toNat < 128 →
    caseIgnorable c = [0x27, 0x2E, 0x3A, 0x5E, 0x60].contains c.toNat

/-- The tables cut down to their ASCII part. -/
def CaseTables.ascii : CaseTables where
  lower c := [c.toLower]
  cased c := c.isAlpha
  caseIgnorable c := [0x27, 0x2E, 0x3A, 0x5E, 0x60].contains c.toNat
  lower_ascii _ _ := rfl
  cased_ascii _ _ := rfl
  ignorable_ascii _ _ := rfl

/-- Whether the destination tells `a.jpg` and `A.jpg` apart. -/
inductive NameFolding where
  | exact
  | caseInsensitive
  deriving DecidableEq, Repr

namespace CaseTables

variable (tables : CaseTables)

def caseIgnorableThenCased (cs : List Char) : Bool :=
  match cs.dropWhile tables.caseIgnorable with
  | [] => false
  | c :: _ => tables.cased c

/-- The one contextual mapping: a capital sigma that ends a word is a final sigma. -/
def mapUppercaseSigma (before after : List Char) : Char :=
  if tables.caseIgnorableThenCased before && !tables.caseIgnorableThenCased after then 'ς'
  else 'σ'

/-- Lowercases `cs`, read after the characters `before` (nearest first) and ahead of `tail`. -/
def lowercaseIn (tail : List Char) : List Char → List Char → List Char
  | _, [] => []
  | before, c :: after =>
    (if c = 'Σ' then [tables.mapUppercaseSigma before (after ++ tail)] else tables.lower c) ++
      lowercaseIn tail (c :: before) after

/-- `str::to_lowercase`. -/
def toLowercase (s : String) : String :=
  String.ofList (tables.lowercaseIn [] [] s.toList)

end CaseTables

/-- A name as the destination compares it. -/
def foldName (tables : CaseTables) : NameFolding → String → String
  | .exact, name => name
  | .caseInsensitive, name => tables.toLowercase name

/-- A list of names as the destination compares it. -/
def foldNames (tables : CaseTables) (folding : NameFolding) (names : List String) : List String :=
  names.map (foldName tables folding)

@[simp] theorem foldNames_exact (tables : CaseTables) (names : List String) :
    foldNames tables .exact names = names := by
  have h : foldName tables .exact = id := by
    funext name
    rfl
  rw [foldNames, h, List.map_id]

@[simp] theorem foldNames_length (tables : CaseTables) (folding : NameFolding)
    (names : List String) : (foldNames tables folding names).length = names.length :=
  List.length_map _

section Lowercase

variable (tables : CaseTables)

theorem lowercaseIn_append (tail before a b : List Char) :
    tables.lowercaseIn tail before (a ++ b) =
      tables.lowercaseIn (b ++ tail) before a ++
        tables.lowercaseIn tail (a.reverse ++ before) b := by
  induction a generalizing before with
  | nil => rfl
  | cons c a ih =>
    simp only [List.cons_append, CaseTables.lowercaseIn, ih, List.append_assoc,
      List.reverse_cons, List.nil_append]

theorem caseIgnorableThenCased_append (a : List Char) {s t : List Char}
    (h : tables.caseIgnorableThenCased s = tables.caseIgnorableThenCased t) :
    tables.caseIgnorableThenCased (a ++ s) = tables.caseIgnorableThenCased (a ++ t) := by
  induction a with
  | nil => exact h
  | cons c a ih =>
    by_cases hc : tables.caseIgnorable c = true
    · simpa [CaseTables.caseIgnorableThenCased, List.dropWhile_cons, hc] using ih
    · simp [CaseTables.caseIgnorableThenCased, hc]

/-- Only whether a cased letter comes first matters about the text that follows. -/
theorem lowercaseIn_tail {s t : List Char}
    (h : tables.caseIgnorableThenCased s = tables.caseIgnorableThenCased t)
    (before a : List Char) :
    tables.lowercaseIn s before a = tables.lowercaseIn t before a := by
  induction a generalizing before with
  | nil => rfl
  | cons c a ih =>
    simp only [CaseTables.lowercaseIn, CaseTables.mapUppercaseSigma, ih,
      caseIgnorableThenCased_append tables a h]

/-- The context decides which sigma is written, never how many characters are. -/
theorem lowercaseIn_length (s t before a : List Char) :
    (tables.lowercaseIn s before a).length = (tables.lowercaseIn t before a).length := by
  induction a generalizing before with
  | nil => rfl
  | cons c a ih =>
    by_cases hc : c = 'Σ' <;> simp [CaseTables.lowercaseIn, hc, ih (c :: before), ih ('Σ' :: before)]

/-- ASCII text with no capital letter lowercases to itself. -/
theorem lowercaseIn_ascii (tail before : List Char) {a : List Char}
    (h : ∀ c ∈ a, c.toNat < 128 ∧ c.toLower = c) :
    tables.lowercaseIn tail before a = a := by
  induction a generalizing before with
  | nil => rfl
  | cons c a ih =>
    obtain ⟨hc, hl⟩ := h c List.mem_cons_self
    have hs : c ≠ 'Σ' := by
      rintro rfl
      exact absurd hc (by decide)
    rw [CaseTables.lowercaseIn, if_neg hs, tables.lower_ascii c hc, hl,
      ih (c :: before) (fun d hd => h d (List.mem_cons_of_mem c hd))]
    rfl

end Lowercase

end MtpxCore
