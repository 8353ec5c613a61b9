import MtpxCore.PlanActions
import Mathlib.Algebra.BigOperators.Group.List.Basic
import Mathlib.Algebra.GroupWithZero.Nat

/-! The totals of a plan in closed form. Adding with saturation action by action is adding
first and saturating once. -/
namespace MtpxCore

/-- What a copy still has to move. -/
def Action.bytesLeft : Action → ℕ
  | .copy _ size _ resumeFrom _ => size - resumeFrom
  | _ => 0

/-- How many actions of a list are copies. -/
def copies (actions : List Action) : ℕ := actions.countP Action.isCopy

def skips (actions : List Action) : ℕ := actions.countP Action.isSkip

def bytesLeft (actions : List Action) : ℕ := (actions.map Action.bytesLeft).sum

theorem copies_cons (a : Action) (actions : List Action) :
    copies (a :: actions) = copies actions + if a.isCopy = true then 1 else 0 :=
  List.countP_cons

theorem skips_cons (a : Action) (actions : List Action) :
    skips (a :: actions) = skips actions + if a.isSkip = true then 1 else 0 :=
  List.countP_cons

theorem bytesLeft_cons (a : Action) (actions : List Action) :
    bytesLeft (a :: actions) = a.bytesLeft + bytesLeft actions :=
  List.sum_cons

theorem saturatingAdd_saturated (a b c : ℕ) :
    min (saturatingAdd a b + c) U64_MAX = min (a + (b + c)) U64_MAX := by
  rw [saturatingAdd]
  omega

namespace PlanSummary

/-- One saturation at the end replaces one at every step. -/
theorem foldl_add (actions : List Action) (s : PlanSummary) (hc : s.filesToCopy ≤ U64_MAX)
    (hb : s.bytesToCopy ≤ U64_MAX) (hs : s.filesToSkip ≤ U64_MAX) :
    (actions.foldl add s).filesToCopy = min (s.filesToCopy + copies actions) U64_MAX ∧
      (actions.foldl add s).bytesToCopy = min (s.bytesToCopy + bytesLeft actions) U64_MAX ∧
      (actions.foldl add s).filesToSkip = min (s.filesToSkip + skips actions) U64_MAX := by
  induction actions generalizing s with
  | nil => exact ⟨(min_eq_left hc).symm, (min_eq_left hb).symm, (min_eq_left hs).symm⟩
  | cons a actions ih =>
    have hsat (x y : ℕ) : saturatingAdd x y ≤ U64_MAX := min_le_right _ _
    rw [List.foldl_cons, copies_cons, skips_cons, bytesLeft_cons]
    cases a with
    | mkdir path => simpa [Action.isCopy, Action.isSkip, Action.bytesLeft, add] using ih s hc hb hs
    | skip path reason =>
      obtain ⟨h1, h2, h3⟩ := ih (s.add (.skip path reason)) hc hb (hsat _ _)
      refine ⟨by simpa [Action.isCopy, add] using h1, by simpa [Action.bytesLeft, add] using h2,
        h3.trans ?_⟩
      rw [add, saturatingAdd_saturated, add_comm 1]
      rfl
    | copy path size modified resumeFrom reason =>
      obtain ⟨h1, h2, h3⟩ := ih (s.add (.copy path size modified resumeFrom reason)) (hsat _ _)
        (hsat _ _) hs
      refine ⟨h1.trans ?_, h2.trans ?_, by simpa [Action.isSkip, add] using h3⟩
      · rw [add, saturatingAdd_saturated, add_comm 1]
        rfl
      · rw [add, saturatingAdd_saturated]
        rfl

end PlanSummary

namespace Plan

theorem filesToCopy_eq (p : Plan) : p.summary.filesToCopy = min (copies p.actions) U64_MAX := by
  rw [p.totals, (PlanSummary.foldl_add p.actions PlanSummary.zero (Nat.zero_le _) (Nat.zero_le _)
    (Nat.zero_le _)).1]
  exact congrArg (fun n => min n U64_MAX) (Nat.zero_add _)

theorem bytesToCopy_eq (p : Plan) : p.summary.bytesToCopy = min (bytesLeft p.actions) U64_MAX := by
  rw [p.totals, (PlanSummary.foldl_add p.actions PlanSummary.zero (Nat.zero_le _) (Nat.zero_le _)
    (Nat.zero_le _)).2.1]
  exact congrArg (fun n => min n U64_MAX) (Nat.zero_add _)

theorem filesToSkip_eq (p : Plan) : p.summary.filesToSkip = min (skips p.actions) U64_MAX := by
  rw [p.totals, (PlanSummary.foldl_add p.actions PlanSummary.zero (Nat.zero_le _) (Nat.zero_le _)
    (Nat.zero_le _)).2.2]
  exact congrArg (fun n => min n U64_MAX) (Nat.zero_add _)

end Plan

end MtpxCore
