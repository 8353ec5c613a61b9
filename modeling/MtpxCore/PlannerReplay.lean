import MtpxCore.PlannerOutcome
import Mathlib.Logic.Function.Basic

/-! Replaying a plan on an abstract destination. The destination is a map from names, as
it compares them, to what it holds there: a mkdir adds a missing directory, a copy sets a
file, a skip does nothing. -/
namespace MtpxCore

/-- What a destination holds under one name. -/
structure Held where
  kind : EntryKind
  size : ℕ
  deriving DecidableEq, Repr

/-- A destination, by folded path. -/
abbrev Store := List String → Option Held

section Replay

variable (tables : CaseTables) (folding : NameFolding)

namespace Store

def of (dest : Snapshot) : Store := fun key =>
  (firstWithKey tables folding dest.entries key).map (fun e => ⟨e.kind, e.size⟩)

def act (store : Store) : Action → Store
  | .mkdir path =>
    if (store (path.key tables folding)).isNone then
      Function.update store (path.key tables folding) (some ⟨.dir, 0⟩)
    else store
  | .copy path size _ _ _ => Function.update store (path.key tables folding) (some ⟨.file, size⟩)
  | .skip _ _ => store

def replay (store : Store) (actions : List Action) : Store :=
  actions.foldl (act tables folding) store

end Store

/-- The folded path an action is about. -/
def Action.key (a : Action) : List String := a.path.key tables folding

variable {tables folding} {store : Store} {actions : List Action} {key : List String}

theorem act_mkdir (store : Store) (path : RelPath) (key : List String) :
    (store.act tables folding (.mkdir path)) key =
      if path.key tables folding = key ∧ store key = none then some ⟨.dir, 0⟩ else store key := by
  rw [Store.act]
  by_cases hk : path.key tables folding = key
  · subst hk
    cases hs : store (path.key tables folding) with
    | none => simp
    | some h => simp [hs]
  · rw [if_neg (fun h : _ ∧ _ => hk h.1)]
    split
    · exact Function.update_of_ne (Ne.symm hk) _ _
    · rfl

theorem act_copy (store : Store) (path : RelPath) (size resumeFrom : ℕ)
    (modified : Option ModifiedTime) (reason : CopyReason) (key : List String) :
    (store.act tables folding (.copy path size modified resumeFrom reason)) key =
      if path.key tables folding = key then some ⟨.file, size⟩ else store key := by
  rw [Store.act]
  by_cases hk : path.key tables folding = key
  · subst hk
    rw [if_pos rfl, Function.update_self]
  · rw [if_neg hk]
    exact Function.update_of_ne (Ne.symm hk) _ _

/-- What is there stays there until a copy lands on it. -/
theorem replay_keeps {x : Held} (hx : store key = some x)
    (hno : ∀ a ∈ actions, a.isCopy = true → a.key tables folding ≠ key) :
    (store.replay tables folding actions) key = some x := by
  induction actions generalizing store with
  | nil => exact hx
  | cons a actions ih =>
    rw [Store.replay, List.foldl_cons]
    apply ih
    · cases a with
      | mkdir path => rw [act_mkdir, if_neg (by simp [hx]), hx]
      | copy path size modified resumeFrom reason =>
        have hk : path.key tables folding ≠ key := hno _ List.mem_cons_self rfl
        rw [act_copy, if_neg hk, hx]
      | skip path reason => exact hx
    · exact fun b hb => hno b (List.mem_cons_of_mem a hb)

/-- A name no mkdir and no copy is about is left alone. -/
theorem replay_same
    (hno : ∀ a ∈ actions, a.isSkip = false → a.key tables folding ≠ key) :
    (store.replay tables folding actions) key = store key := by
  induction actions generalizing store with
  | nil => rfl
  | cons a actions ih =>
    have ha := hno a List.mem_cons_self
    rw [Store.replay, List.foldl_cons]
    apply (ih (fun b hb => hno b (List.mem_cons_of_mem a hb))).trans
    cases a with
    | mkdir path => rw [act_mkdir, if_neg (fun h => ha rfl h.1)]
    | copy path size modified resumeFrom reason =>
      have hk : path.key tables folding ≠ key := ha rfl
      rw [act_copy, if_neg hk]
    | skip path reason => rfl

/-- A copy leaves a file of its size, if every copy to that name agrees on the size. -/
theorem replay_copy {size : ℕ}
    (hsize : ∀ path s modified resumeFrom reason,
      Action.copy path s modified resumeFrom reason ∈ actions →
        path.key tables folding = key → s = size)
    (h : store key = some ⟨.file, size⟩ ∨
      ∃ a ∈ actions, a.isCopy = true ∧ a.key tables folding = key) :
    (store.replay tables folding actions) key = some ⟨.file, size⟩ := by
  induction actions generalizing store with
  | nil => exact h.resolve_right (by simp)
  | cons a actions ih =>
    rw [Store.replay, List.foldl_cons]
    apply ih
    · intro path s modified resumeFrom reason hm
      exact hsize path s modified resumeFrom reason (List.mem_cons_of_mem a hm)
    · -- either this action is the copy, or the file or the copy is still there afterwards
      cases a with
      | mkdir path =>
        rcases h with hs | ⟨b, hb, hbc, hbk⟩
        · left
          rw [act_mkdir, if_neg (by simp [hs]), hs]
        · right
          rcases List.mem_cons.mp hb with rfl | hb
          · exact absurd hbc (by simp [Action.isCopy])
          · exact ⟨b, hb, hbc, hbk⟩
      | copy path s modified resumeFrom reason =>
        rw [act_copy]
        by_cases hk : path.key tables folding = key
        · left
          rw [if_pos hk, hsize path s modified resumeFrom reason List.mem_cons_self hk]
        · rw [if_neg hk]
          rcases h with hs | ⟨b, hb, hbc, hbk⟩
          · exact Or.inl hs
          · right
            rcases List.mem_cons.mp hb with rfl | hb
            · exact absurd hbk hk
            · exact ⟨b, hb, hbc, hbk⟩
      | skip path reason =>
        rcases h with hs | ⟨b, hb, hbc, hbk⟩
        · exact Or.inl hs
        · right
          rcases List.mem_cons.mp hb with rfl | hb
          · exact absurd hbc (by simp [Action.isCopy])
          · exact ⟨b, hb, hbc, hbk⟩

/-- A mkdir leaves an empty directory where nothing was and no copy lands. -/
theorem replay_mkdir (hs : store key = none)
    (hno : ∀ a ∈ actions, a.isCopy = true → a.key tables folding ≠ key)
    {path : RelPath} (hm : Action.mkdir path ∈ actions) (hk : path.key tables folding = key) :
    (store.replay tables folding actions) key = some ⟨.dir, 0⟩ := by
  obtain ⟨pre, post, rfl⟩ := List.append_of_mem hm
  rw [Store.replay, List.foldl_append, List.foldl_cons]
  apply replay_keeps
  · rw [act_mkdir]
    -- before this mkdir the name is empty or already holds an earlier mkdir's directory
    have hpre : (pre.foldl (Store.act tables folding) store) key = none ∨
        (pre.foldl (Store.act tables folding) store) key = some ⟨.dir, 0⟩ := by
      have hno' : ∀ a ∈ pre, a.isCopy = true → a.key tables folding ≠ key :=
        fun a ha => hno a (List.mem_append_left _ ha)
      clear hno hm
      induction pre generalizing store with
      | nil => exact Or.inl hs
      | cons a pre ih =>
        rw [List.foldl_cons]
        by_cases hn : (store.act tables folding a) key = none
        · exact ih hn (fun b hb => hno' b (List.mem_cons_of_mem a hb))
        · right
          apply replay_keeps _ (fun b hb => hno' b (List.mem_cons_of_mem a hb))
          cases a with
          | mkdir q =>
            rw [act_mkdir] at hn ⊢
            by_cases hq : q.key tables folding = key
            · rw [if_pos ⟨hq, hs⟩]
            · rw [if_neg (fun h => hq h.1)] at hn
              exact absurd hs hn
          | copy q size modified resumeFrom reason =>
            have hq : q.key tables folding ≠ key := hno' _ List.mem_cons_self rfl
            rw [act_copy, if_neg hq] at hn
            exact absurd hs hn
          | skip q reason => exact absurd hs hn
    rcases hpre with h | h
    · rw [if_pos ⟨hk, h⟩]
    · rw [h]
      simp
  · intro a ha
    exact hno a (List.mem_append_right _ (List.mem_cons_of_mem _ ha))

end Replay

end MtpxCore
