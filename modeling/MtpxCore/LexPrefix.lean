import Mathlib.Data.List.Lex
import Mathlib.Order.Lattice

/-! Prefixes under the lexicographic order on lists. The extensions of a list form
an interval that begins at the list itself, so one pass over a sorted collection of
paths meets a directory and then everything beneath it without interruption. -/
namespace LexPrefix

variable {α : Type*} [LinearOrder α]

theorem cons_le_cons_iff (a b : α) (x y : List α) :
    a :: x ≤ b :: y ↔ a < b ∨ a = b ∧ x ≤ y := by
  rw [← not_lt, List.cons_lt_cons_iff, ← not_lt]
  constructor
  · intro h
    rcases lt_trichotomy a b with hab | rfl | hab
    · exact Or.inl hab
    · exact Or.inr ⟨rfl, fun hyx => h (Or.inr ⟨rfl, hyx⟩)⟩
    · exact absurd (Or.inl hab) h
  · rintro (hab | ⟨rfl, hxy⟩) (hba | ⟨hba, hyx⟩)
    · exact lt_asymm hab hba
    · exact hab.ne hba.symm
    · exact lt_irrefl a hba
    · exact hxy hyx

theorem nil_le (x : List α) : [] ≤ x := by
  rw [← not_lt]
  exact List.not_lt_nil x

/-- A list never sorts after one of its extensions. -/
theorem prefix_le {a b : List α} (h : a <+: b) : a ≤ b := by
  induction a generalizing b with
  | nil => exact nil_le b
  | cons x a ih =>
    obtain ⟨t, rfl⟩ := h
    rw [List.cons_append, cons_le_cons_iff]
    exact Or.inr ⟨rfl, ih ⟨t, rfl⟩⟩

/-- A proper extension sorts strictly after its prefix. -/
theorem prefix_lt {a b : List α} (h : a <+: b) (hne : a ≠ b) : a < b :=
  lt_of_le_of_ne (prefix_le h) hne

/-- Whatever sorts between a list and one of its extensions extends the list too. -/
theorem prefix_of_between {d x y : List α} (hy : d <+: y) (hdx : d ≤ x) (hxy : x ≤ y) :
    d <+: x := by
  induction d generalizing x y with
  | nil => exact List.nil_prefix
  | cons a d ih =>
    obtain ⟨t, rfl⟩ := hy
    cases x with
    | nil => exact absurd (le_antisymm hdx (nil_le _)) (List.cons_ne_nil a d)
    | cons b x =>
      rw [cons_le_cons_iff] at hdx
      rw [List.cons_append, cons_le_cons_iff] at hxy
      -- the head is squeezed between two equal letters
      have hab : a = b := by
        rcases hdx with h | h
        · rcases hxy with h' | h'
          · exact absurd h' (lt_asymm h)
          · exact h'.1.symm
        · exact h.1
      subst hab
      have hd : d ≤ x := hdx.resolve_left (lt_irrefl a) |>.2
      have hx : x ≤ d ++ t := hxy.resolve_left (lt_irrefl a) |>.2
      exact List.cons_prefix_cons.mpr ⟨rfl, ih ⟨t, rfl⟩ hd hx⟩

end LexPrefix
