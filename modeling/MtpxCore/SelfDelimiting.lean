import Mathlib.Data.List.Basic
import Mathlib.Tactic.Common

/-! Codes whose words show where they end. A code is self-delimiting when a word and what
follows it can always be told apart; injective renaming, fixed text in front of a word, and a
delimiter that no word contains all keep that property. -/
namespace SelfDelimiting

variable {α β γ : Type*}

/-- No word is followed by two different texts, and no two words start one text. -/
def IsCode (f : α → List β) : Prop :=
  ∀ a b r s, f a ++ r = f b ++ s → a = b ∧ r = s

theorem IsCode.injective {f : α → List β} (h : IsCode f) : Function.Injective f := by
  intro a b hab
  exact (h a b [] [] (by rw [hab])).1

/-- A reader that finds the end of every word makes a code. -/
theorem IsCode.of_reader {f : α → List β} (read : List β → Option (α × List β))
    (h : ∀ a r, read (f a ++ r) = some (a, r)) : IsCode f := by
  intro a b r s hrs
  have hread := h a r
  rw [hrs, h b s] at hread
  cases hread
  exact ⟨rfl, rfl⟩

theorem IsCode.comp {f : α → List β} {i : γ → α} (hf : IsCode f) (hi : Function.Injective i) :
    IsCode (fun c => f (i c)) := by
  intro a b r s h
  obtain ⟨hab, hrs⟩ := hf (i a) (i b) r s h
  exact ⟨hi hab, hrs⟩

/-- Fixed text in front of a word. -/
theorem IsCode.text_append {f : α → List β} (hf : IsCode f) (text : List β) :
    IsCode (fun a => text ++ f a) := by
  intro a b r s h
  rw [List.append_assoc, List.append_assoc] at h
  exact hf a b r s (List.append_cancel_left h)

/-- Words without the delimiter, closed by it. -/
theorem IsCode.until {f : α → List β} (hf : Function.Injective f) {d : β}
    (hd : ∀ a, d ∉ f a) : IsCode (fun a => f a ++ [d]) := by
  have hsplit (u v r s : List β) (hu : d ∉ u) (hv : d ∉ v)
      (h : u ++ [d] ++ r = v ++ [d] ++ s) : u = v ∧ r = s := by
    induction u generalizing v with
    | nil =>
      cases v with
      | nil => exact ⟨rfl, List.cons_injective h⟩
      | cons y v =>
        obtain ⟨hdy, -⟩ := List.cons.inj h
        exact absurd (hdy ▸ List.mem_cons_self) hv
    | cons x u ih =>
      cases v with
      | nil =>
        obtain ⟨hxd, -⟩ := List.cons.inj h
        exact absurd (hxd ▸ List.mem_cons_self) hu
      | cons y v =>
        obtain ⟨hxy, h⟩ := List.cons.inj h
        obtain ⟨huv, hrs⟩ := ih v (fun hm => hu (List.mem_cons_of_mem x hm))
          (fun hm => hv (List.mem_cons_of_mem y hm)) h
        exact ⟨by rw [hxy, huv], hrs⟩
  intro a b r s h
  obtain ⟨hab, hrs⟩ := hsplit (f a) (f b) r s (hd a) (hd b) h
  exact ⟨hf hab, hrs⟩

/-- A list of words, closed by a delimiter that starts none of them. -/
theorem IsCode.many {f : α → List β} (hf : IsCode f) {d : β} (hne : ∀ a, f a ≠ [])
    (hd : ∀ a, (f a).head? ≠ some d) : IsCode (fun as : List α => as.flatMap f ++ [d]) := by
  have hstart (a : α) (r s : List β) : f a ++ r ≠ d :: s := by
    intro h
    apply hd a
    obtain ⟨x, t, hx⟩ := List.exists_cons_of_ne_nil (hne a)
    rw [hx, List.cons_append] at h
    rw [hx, List.head?_cons, (List.cons.inj h).1]
  intro as bs r s h
  dsimp only at h ⊢
  induction as generalizing bs with
  | nil =>
    cases bs with
    | nil => exact ⟨rfl, List.cons_injective h⟩
    | cons b bs =>
      simp only [List.flatMap_cons, List.append_assoc] at h
      exact absurd h.symm (hstart b _ _)
  | cons a as ih =>
    cases bs with
    | nil =>
      simp only [List.flatMap_cons, List.append_assoc] at h
      exact absurd h (hstart a _ _)
    | cons b bs =>
      simp only [List.flatMap_cons, List.append_assoc] at h
      obtain ⟨hab, hrest⟩ := hf a b _ _ h
      rw [← List.append_assoc, ← List.append_assoc] at hrest
      obtain ⟨htail, hrs⟩ := ih bs hrest
      exact ⟨by rw [hab, htail], hrs⟩

end SelfDelimiting
