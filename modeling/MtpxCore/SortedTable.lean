import Mathlib.Data.List.Sort

/-! Tables kept as lists sorted by a key: a stable sort followed by dropping adjacent
repeats, and the halving search that looks a key up. Everything is stated against the
first element of a list with a given key, so a table built from any list answers
every lookup as that list does. -/
namespace SortedTable

variable {α κ : Type*} [LinearOrder κ]

/-- Strictly increasing keys. -/
def Strict (key : α → κ) (xs : List α) : Prop :=
  xs.Pairwise (fun a b => key a < key b)

/-- The first element carrying the key `k`. -/
def first (key : α → κ) (k : κ) (xs : List α) : Option α :=
  xs.find? (fun a => decide (key a = k))

/-- Drops every element whose key repeats that of the last one kept. -/
def dedupFrom (key : α → κ) : α → List α → List α
  | _, [] => []
  | kept, x :: xs =>
    if key x = key kept then dedupFrom key kept xs else x :: dedupFrom key x xs

/-- Keeps the first element of every run of equal keys. -/
def dedup (key : α → κ) : List α → List α
  | [] => []
  | x :: xs => x :: dedupFrom key x xs

/-- A stable sort by key, then one element for each key. -/
def build (key : α → κ) (xs : List α) : List α :=
  dedup key (xs.insertionSort (fun a b => key a ≤ key b))

section First

variable {key : α → κ} {k : κ} {a : α} {xs ys : List α}

theorem first_cons (x : α) (xs : List α) :
    first key k (x :: xs) = if key x = k then some x else first key k xs := by
  by_cases h : key x = k <;> simp [first, h]

theorem first_mem (h : first key k xs = some a) : a ∈ xs :=
  List.mem_of_find?_eq_some h

theorem first_key (h : first key k xs = some a) : key a = k := by
  simpa using List.find?_some h

theorem first_eq_none : first key k xs = none ↔ ∀ x ∈ xs, key x ≠ k := by
  simp [first, List.find?_eq_none]

theorem first_append (xs ys : List α) :
    first key k (xs ++ ys) = (first key k xs).or (first key k ys) :=
  List.find?_append

/-- Under strictly increasing keys the first element with a key is the only one. -/
theorem Strict.first_eq (h : Strict key xs) (ha : a ∈ xs) : first key (key a) xs = some a := by
  induction xs with
  | nil => exact absurd ha List.not_mem_nil
  | cons x xs ih =>
    obtain ⟨hx, hxs⟩ := List.pairwise_cons.mp h
    rw [first_cons]
    rcases List.mem_cons.mp ha with rfl | ha'
    · exact if_pos rfl
    · rw [if_neg (hx a ha').ne]
      exact ih hxs ha'

theorem Strict.eq_of_key (h : Strict key xs) {b : α} (ha : a ∈ xs) (hb : b ∈ xs)
    (hk : key a = key b) : a = b := by
  have h1 := h.first_eq ha
  rw [hk, h.first_eq hb] at h1
  exact (Option.some.inj h1).symm

theorem Strict.nodup (h : Strict key xs) : xs.Nodup :=
  h.imp fun hlt heq => absurd (congrArg key heq) hlt.ne

/-- A table with no more elements than another stands in it, in order. -/
theorem Strict.sublist_of_subset (h : Strict key xs) (h' : Strict key ys) (hsub : xs ⊆ ys) :
    xs.Sublist ys := by
  have : Std.Antisymm (fun a b : α => key a < key b) := ⟨fun _ _ hab hba => absurd hba hab.asymm⟩
  exact List.sublist_of_subperm_of_pairwise (List.subperm_of_subset h.nodup hsub) h h'

/-- Induction over a sorted table: every element may rest on those with smaller keys. -/
theorem Strict.induction (h : Strict key xs) {motive : α → Prop}
    (step : ∀ x ∈ xs, (∀ y ∈ xs, key y < key x → motive y) → motive x) :
    ∀ x ∈ xs, motive x := by
  induction xs with
  | nil =>
    intro x hx
    exact absurd hx List.not_mem_nil
  | cons a xs ih =>
    obtain ⟨ha, hxs⟩ := List.pairwise_cons.mp h
    have hhead : motive a := by
      apply step a List.mem_cons_self
      intro y hy hlt
      rcases List.mem_cons.mp hy with rfl | hy
      · exact absurd hlt (lt_irrefl _)
      · exact absurd (ha y hy) (lt_asymm hlt)
    intro x hx
    rcases List.mem_cons.mp hx with rfl | hx
    · exact hhead
    · refine ih hxs ?_ x hx
      intro y hy hsmaller
      apply step y (List.mem_cons_of_mem a hy)
      intro z hz hlt
      rcases List.mem_cons.mp hz with rfl | hz
      · exact hhead
      · exact hsmaller z hz hlt

/-- Of the elements that share a second key the first one has the smallest first key. -/
theorem Strict.first_least {ι : Type*} [LinearOrder ι] {rank : α → ι}
    (h : Strict rank xs) (k : κ) (a : α) :
    first key k xs = some a ↔ (a ∈ xs ∧ key a = k) ∧ ∀ x ∈ xs, key x = k → rank a ≤ rank x := by
  induction xs with
  | nil => simp [first]
  | cons b xs ih =>
    obtain ⟨hb, hxs⟩ := List.pairwise_cons.mp h
    rw [first_cons]
    by_cases hk : key b = k
    · rw [if_pos hk, Option.some.injEq]
      constructor
      · rintro rfl
        refine ⟨⟨List.mem_cons_self, hk⟩, ?_⟩
        intro x hx _
        rcases List.mem_cons.mp hx with rfl | hx
        · exact le_rfl
        · exact (hb x hx).le
      · rintro ⟨⟨ha, -⟩, hleast⟩
        rcases List.mem_cons.mp ha with rfl | ha
        · rfl
        · exact absurd (hb a ha) (not_lt.mpr (hleast b List.mem_cons_self hk))
    · rw [if_neg hk, ih hxs]
      constructor
      · rintro ⟨⟨ha, hak⟩, hleast⟩
        refine ⟨⟨List.mem_cons_of_mem b ha, hak⟩, ?_⟩
        intro x hx hxk
        rcases List.mem_cons.mp hx with rfl | hx
        · exact absurd hxk hk
        · exact hleast x hx hxk
      · rintro ⟨⟨ha, hak⟩, hleast⟩
        rcases List.mem_cons.mp ha with rfl | ha
        · exact absurd hak hk
        · exact ⟨⟨ha, hak⟩, fun x hx => hleast x (List.mem_cons_of_mem b hx)⟩

/-- A property that no element before `a` has, and that no element between two with it lacks,
holds on one run of the table, the one that begins at `a`. -/
theorem Strict.exists_run (h : Strict key xs) (ha : a ∈ xs) {p : α → Bool}
    (hleast : ∀ x, p x = true → key a ≤ key x)
    (hbetween : ∀ x y, p y = true → key a ≤ key x → key x ≤ key y → p x = true) :
    ∃ before run after, xs = before ++ a :: run ++ after ∧ (∀ x ∈ run, p x = true) ∧
      (∀ x ∈ before, p x = false) ∧ ∀ x ∈ after, p x = false := by
  obtain ⟨before, rest, rfl⟩ := List.append_of_mem ha
  obtain ⟨-, hsuffix, hbefore⟩ := List.pairwise_append.mp h
  obtain ⟨habove, hrest⟩ := List.pairwise_cons.mp hsuffix
  refine ⟨before, rest.takeWhile p, rest.dropWhile p, ?_, ?_, ?_, ?_⟩
  · rw [List.append_assoc, List.cons_append, List.takeWhile_append_dropWhile]
  · exact fun x hx => List.all_eq_true.mp List.all_takeWhile x hx
  · intro x hx
    apply Bool.eq_false_iff.mpr
    intro hp
    exact absurd (hbefore x hx a List.mem_cons_self) (not_lt.mpr (hleast x hp))
  · -- the element that ends the run lies between `a` and everything after it
    cases hdrop : rest.dropWhile p with
    | nil => simp
    | cons stop after =>
      have hstop : p stop = false := by
        have hhead := List.head?_dropWhile_not p rest
        simpa [hdrop] using hhead
      have hsub : (stop :: after).Sublist rest := hdrop ▸ List.dropWhile_sublist p
      have hafter := List.pairwise_cons.mp (hrest.sublist hsub)
      intro x hx
      apply Bool.eq_false_iff.mpr
      intro hp
      have hle : key stop ≤ key x := by
        rcases List.mem_cons.mp hx with rfl | hx
        · exact le_rfl
        · exact (hafter.1 x hx).le
      have hlow := (habove stop (hsub.subset List.mem_cons_self)).le
      exact absurd (hbetween stop x hp hlow hle) (by simp [hstop])

end First

section Build

variable (key : α → κ) (k : κ)

theorem first_orderedInsert (a : α) (xs : List α) :
    first key k (xs.orderedInsert (fun a b => key a ≤ key b) a) = first key k (a :: xs) := by
  induction xs with
  | nil => rfl
  | cons b xs ih =>
    rw [List.orderedInsert_cons]
    by_cases hab : key a ≤ key b
    · rw [if_pos hab]
    · rw [if_neg hab, first_cons, ih, first_cons, first_cons, first_cons]
      -- stability: the new element only ever passes strictly smaller keys
      by_cases hb : key b = k
      · have ha : key a ≠ k := fun ha => hab (by rw [ha, hb])
        simp [hb, ha]
      · simp [hb]

theorem first_insertionSort (xs : List α) :
    first key k (xs.insertionSort (fun a b => key a ≤ key b)) = first key k xs := by
  induction xs with
  | nil => rfl
  | cons x xs ih =>
    rw [List.insertionSort_cons, first_orderedInsert, first_cons, first_cons, ih]

theorem first_dedupFrom (kept : α) (xs : List α) :
    first key k (kept :: dedupFrom key kept xs) = first key k (kept :: xs) := by
  induction xs generalizing kept with
  | nil => rfl
  | cons x xs ih =>
    rw [dedupFrom]
    by_cases hx : key x = key kept
    · rw [if_pos hx, ih, first_cons, first_cons, first_cons, hx]
      by_cases hk : key kept = k <;> simp [hk]
    · rw [if_neg hx, first_cons, ih, ← first_cons]

/-- A built table answers every lookup as the list it was built from. -/
theorem first_build (xs : List α) : first key k (build key xs) = first key k xs := by
  rw [build, ← first_insertionSort key k xs]
  cases xs.insertionSort (fun a b => key a ≤ key b) with
  | nil => rfl
  | cons x ys => exact first_dedupFrom key k x ys

theorem dedupFrom_sublist (kept : α) (xs : List α) : (dedupFrom key kept xs).Sublist xs := by
  induction xs generalizing kept with
  | nil => exact List.Sublist.slnil
  | cons x xs ih =>
    rw [dedupFrom]
    split
    · exact (ih kept).cons x
    · exact (ih x).cons_cons x

/-- Nothing enters a table that was not given. -/
theorem mem_of_mem_build {a : α} {xs : List α} (h : a ∈ build key xs) : a ∈ xs := by
  rw [build] at h
  have hs : (xs.insertionSort (fun a b => key a ≤ key b)).Perm xs := List.perm_insertionSort _ xs
  apply hs.subset
  revert h
  cases xs.insertionSort (fun a b => key a ≤ key b) with
  | nil => exact id
  | cons x ys =>
    intro h
    rcases List.mem_cons.mp h with rfl | h
    · exact List.mem_cons_self
    · exact List.mem_cons_of_mem x ((dedupFrom_sublist key x ys).subset h)

theorem dedupFrom_strict (kept : α) (xs : List α)
    (h : (kept :: xs).Pairwise (fun a b => key a ≤ key b)) :
    Strict key (kept :: dedupFrom key kept xs) := by
  induction xs generalizing kept with
  | nil => exact List.pairwise_singleton _ _
  | cons x xs ih =>
    obtain ⟨hk, hxs⟩ := List.pairwise_cons.mp h
    rw [dedupFrom]
    split
    · exact ih kept (h.sublist (List.sublist_cons_self x xs |>.cons_cons kept))
    · rename_i hne
      have hx := ih x hxs
      refine List.pairwise_cons.mpr ⟨?_, hx⟩
      have hkx : key kept < key x := lt_of_le_of_ne (hk x List.mem_cons_self) (Ne.symm hne)
      intro y hy
      rcases List.mem_cons.mp hy with rfl | hy
      · exact hkx
      · exact hkx.trans ((List.pairwise_cons.mp hx).1 y hy)

/-- A built table has strictly increasing keys. -/
theorem build_strict (xs : List α) : Strict key (build key xs) := by
  have hs : (xs.insertionSort (fun a b => key a ≤ key b)).Pairwise (fun a b => key a ≤ key b) := by
    have : Std.Total (fun a b : α => key a ≤ key b) := ⟨fun a b => le_total _ _⟩
    have : IsTrans α (fun a b => key a ≤ key b) := ⟨fun a b c => le_trans⟩
    exact List.pairwise_insertionSort _ xs
  rw [build]
  revert hs
  cases xs.insertionSort (fun a b => key a ≤ key b) with
  | nil => exact fun _ => List.Pairwise.nil
  | cons x ys => exact dedupFrom_strict key x ys

variable {key} in
/-- A table of elements told apart by their keys loses none of them. -/
theorem build_perm {xs : List α} (h : (xs.map key).Nodup) : (build key xs).Perm xs := by
  have hmem (a : α) : a ∈ build key xs ↔ a ∈ xs := by
    refine ⟨mem_of_mem_build key, fun ha => ?_⟩
    have hfirst : first key (key a) xs = some a := by
      cases hf : first key (key a) xs with
      | none => exact absurd rfl (first_eq_none.mp hf a ha)
      | some b => exact congrArg some (List.inj_on_of_nodup_map h (first_mem hf) ha (first_key hf))
    rw [← first_build key] at hfirst
    exact first_mem hfirst
  exact (List.perm_ext_iff_of_nodup (build_strict key xs).nodup h.of_map).mpr hmem

end Build

section Search

/-- The halving loop: the window is `size` long and starts at `base`. `fuel` bounds
the number of halvings and is never exhausted when it starts at `size`. -/
def searchBase (cmp : α → Ordering) (xs : List α) : ℕ → ℕ → ℕ → ℕ
  | 0, _, base => base
  | fuel + 1, size, base =>
    if size ≤ 1 then base
    else
      let half := size / 2
      let mid := base + half
      let above := match xs[mid]? with
        | some x => cmp x == Ordering.gt
        | none => false
      searchBase cmp xs fuel (size - half) (if above then base else mid)

/-- `slice::binary_search_by`, without the insertion point of a miss. -/
def binarySearchBy (cmp : α → Ordering) (xs : List α) : Option ℕ :=
  let base := searchBase cmp xs xs.length xs.length 0
  match xs[base]? with
  | some x => if cmp x = Ordering.eq then some base else none
  | none => none

variable {key : α → κ} {k : κ} {xs : List α}

theorem Strict.lt_of_lt (h : Strict key xs) {i j : ℕ} (hi : i < xs.length)
    (hj : j < xs.length) (hij : i < j) : key xs[i] < key xs[j] :=
  List.pairwise_iff_getElem.mp h i j hi hj hij

/-- The window always holds the index of a key that is present. -/
theorem searchBase_eq (h : Strict key xs) {i : ℕ} (hi : i < xs.length) (hk : key xs[i] = k) :
    ∀ fuel size base, size ≤ fuel → base ≤ i → i < base + size → base + size ≤ xs.length →
      searchBase (fun x => compare (key x) k) xs fuel size base = i := by
  intro fuel
  induction fuel with
  | zero => intro size base _ _ _ _; omega
  | succ fuel ih =>
    intro size base hf hb hlt hlen
    rw [searchBase]
    by_cases hs : size ≤ 1
    · rw [if_pos hs]
      omega
    · rw [if_neg hs]
      have hm : base + size / 2 < xs.length := by omega
      simp only [List.getElem?_eq_getElem hm, beq_iff_eq]
      by_cases hgt : compare (key xs[base + size / 2]) k = Ordering.gt
      · rw [if_pos hgt]
        have hik : i < base + size / 2 := by
          by_contra hge
          have hle : key xs[base + size / 2] ≤ k := by
            rcases Nat.lt_or_eq_of_le (not_lt.mp hge) with hl | rfl
            · exact hk ▸ (h.lt_of_lt hm hi hl).le
            · exact hk.le
          exact absurd (compare_gt_iff_gt.mp hgt) (not_lt.mpr hle)
        exact ih _ _ (by omega) (by omega) (by omega) (by omega)
      · rw [if_neg hgt]
        have hki : base + size / 2 ≤ i := by
          by_contra hlt'
          apply hgt
          exact compare_gt_iff_gt.mpr (hk ▸ h.lt_of_lt hi hm (not_le.mp hlt'))
        exact ih _ _ (by omega) (by omega) (by omega) (by omega)

/-- Binary search over strictly increasing keys returns the element with the key. -/
theorem Strict.binarySearchBy_eq_first (h : Strict key xs) (k : κ) :
    (binarySearchBy (fun x => compare (key x) k) xs).bind (fun i => xs[i]?) = first key k xs := by
  cases hf : first key k xs with
  | some a =>
    obtain ⟨i, hi, rfl⟩ := List.getElem_of_mem (first_mem hf)
    have hk := first_key hf
    have hb := searchBase_eq h hi hk xs.length xs.length 0 le_rfl (by omega) (by omega) (by omega)
    simp [binarySearchBy, hb, List.getElem?_eq_getElem hi, hk]
  | none =>
    have hn := first_eq_none.mp hf
    simp only [binarySearchBy]
    split
    · rename_i x hx
      have hne : compare (key x) k ≠ Ordering.eq := by
        intro he
        exact hn x (List.mem_of_getElem? hx) (compare_eq_iff_eq.mp he)
      rw [if_neg hne]
      rfl
    · rfl

end Search

end SortedTable
