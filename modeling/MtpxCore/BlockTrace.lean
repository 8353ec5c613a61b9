import Mathlib.Algebra.BigOperators.Group.List.Basic

/-! Traces cut into blocks. A run over a list of tasks leaves one block of records for each of
them, and whatever is counted over the records adds up block by block. -/
namespace BlockTrace

variable {α β : Type*} {R S : α → List β → Prop}

/-- `xs` is one block for each task, in order. -/
inductive Blocks (R : α → List β → Prop) : List α → List β → Prop
  | nil : Blocks R [] []
  | cons {a : α} {as : List α} {xs ys : List β} :
      R a xs → Blocks R as ys → Blocks R (a :: as) (xs ++ ys)

theorem Blocks.mono (h : ∀ a xs, R a xs → S a xs) {as : List α} {xs : List β}
    (hb : Blocks R as xs) : Blocks S as xs := by
  induction hb with
  | nil => exact .nil
  | cons hr _ ih => exact .cons (h _ _ hr) ih

theorem Blocks.snoc {as : List α} {a : α} {xs ys : List β} (hb : Blocks R as xs) (hr : R a ys) :
    Blocks R (as ++ [a]) (xs ++ ys) := by
  induction hb with
  | nil => simpa using Blocks.cons hr .nil
  | cons hr' _ ih =>
    rw [List.cons_append, List.append_assoc]
    exact .cons hr' ih

/-- A record of the trace lies in the block of one of the tasks. -/
theorem Blocks.mem {as : List α} {xs : List β} (hb : Blocks R as xs) {x : β} (hx : x ∈ xs) :
    ∃ a ∈ as, ∃ ys, R a ys ∧ x ∈ ys := by
  induction hb with
  | nil => exact absurd hx List.not_mem_nil
  | cons hr _ ih =>
    rcases List.mem_append.mp hx with hx | hx
    · exact ⟨_, List.mem_cons_self, _, hr, hx⟩
    · obtain ⟨a, ha, ys, hy⟩ := ih hx
      exact ⟨a, List.mem_cons_of_mem _ ha, ys, hy⟩

/-- Every block is that of a task on the list and lies within the trace. -/
theorem Blocks.within {as : List α} {xs : List β} (hb : Blocks R as xs) :
    Blocks (fun a ys => a ∈ as ∧ (∀ y ∈ ys, y ∈ xs) ∧ R a ys) as xs := by
  induction hb with
  | nil => exact .nil
  | cons hr _ ih =>
    refine .cons ⟨List.mem_cons_self, fun y hy => List.mem_append_left _ hy, hr⟩ (ih.mono ?_)
    intro a ys h
    exact ⟨List.mem_cons_of_mem _ h.1, fun y hy => List.mem_append_right _ (h.2.1 y hy), h.2.2⟩

/-- A measure that adds up over records is the sum of what the blocks are worth. -/
theorem Blocks.measure {M : Type*} [AddMonoid M] {m : β → M} {worth : α → M} {as : List α}
    {xs : List β} (hb : Blocks R as xs) (h : ∀ a ys, R a ys → (ys.map m).sum = worth a) :
    (xs.map m).sum = (as.map worth).sum := by
  induction hb with
  | nil => rfl
  | cons hr _ ih =>
    rw [List.map_append, List.sum_append, List.map_cons, List.sum_cons, h _ _ hr, ih]

end BlockTrace
