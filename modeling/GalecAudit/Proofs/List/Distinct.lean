import Mathlib.Data.List.Basic

/-!
# Lists without repetitions

What is left of a list when every element stays where it comes first.
-/
namespace GalecAudit

section Distinct

variable {α : Type}

theorem eraseDupsBy_sublist (same : α → α → Bool) : (l : List α) → (l.eraseDupsBy same).Sublist l
  | [] => .slnil
  | a :: rest => by
    rw [List.eraseDupsBy_cons]
    exact ((eraseDupsBy_sublist same _).trans List.filter_sublist).cons_cons a
termination_by l => l.length
decreasing_by exact Nat.lt_succ_of_le (List.length_filter_le _ _)

variable [BEq α] [LawfulBEq α]

theorem nodup_eraseDups : (l : List α) → l.eraseDups.Nodup
  | [] => .nil
  | a :: rest => by
    rw [List.eraseDups_cons, List.nodup_cons]
    exact ⟨by simp [List.mem_eraseDups], nodup_eraseDups _⟩
termination_by l => l.length
decreasing_by exact Nat.lt_succ_of_le (List.length_filter_le _ _)

/-- What comes first in front of an element that a filter keeps does so in the whole list. -/
theorem idxOf_lt_of_filter {p : α → Bool} {a b : α} (hb : p b = true) {l : List α}
    (h : (l.filter p).idxOf a < (l.filter p).idxOf b) : l.idxOf a < l.idxOf b := by
  induction l with
  | nil => exact h
  | cons c rest ih =>
    have hne (hcb : c = b) : False := by
      rw [List.filter_cons_of_pos (hcb ▸ hb), hcb, List.idxOf_cons_self] at h
      exact Nat.not_lt_zero _ h
    by_cases hca : c = a
    · rw [hca, List.idxOf_cons_self, ← hca, List.idxOf_cons_ne _ hne]
      exact Nat.succ_pos _
    · rw [List.idxOf_cons_ne _ hca, List.idxOf_cons_ne _ hne]
      refine Nat.succ_lt_succ (ih ?_)
      by_cases hc : p c = true
      · rw [List.filter_cons_of_pos hc, List.idxOf_cons_ne _ hca, List.idxOf_cons_ne _ hne] at h
        exact Nat.lt_of_succ_lt_succ h
      · rwa [List.filter_cons_of_neg hc] at h

/-- What is left stands in the order in which it comes first. -/
theorem pairwise_eraseDups : (l : List α) → l.eraseDups.Pairwise fun a b => l.idxOf a < l.idxOf b
  | [] => .nil
  | a :: rest => by
    have hkept {b : α} (hb : b ∈ (rest.filter fun b => !b == a).eraseDups) : (!b == a) = true :=
      (List.mem_filter.1 (List.mem_eraseDups.1 hb)).2
    have hne {b : α} (hb : b ∈ (rest.filter fun b => !b == a).eraseDups) : a ≠ b := by
      rintro rfl
      simpa using hkept hb
    rw [List.eraseDups_cons, List.pairwise_cons]
    constructor
    · intro b hb
      rw [List.idxOf_cons_self, List.idxOf_cons_ne _ (hne hb)]
      exact Nat.succ_pos _
    · refine (pairwise_eraseDups _).imp_of_mem fun {b c} hb hc hlt => ?_
      rw [List.idxOf_cons_ne _ (hne hb), List.idxOf_cons_ne _ (hne hc)]
      exact Nat.succ_lt_succ (idxOf_lt_of_filter (p := fun b => !b == a) (hkept hc) hlt)
termination_by l => l.length
decreasing_by exact Nat.lt_succ_of_le (List.length_filter_le _ _)

end Distinct

end GalecAudit
