import GalecAudit.Language.Expression

/-!
# Precedence climbing

The grouping of a flat sequence of operands and binary operators by the precedence of the operators. All
of them associate to the left.
-/
namespace GalecAudit

/-- How tight a binary operator binds, from the loosest one. -/
def BinaryOperator.precedence : BinaryOperator → Nat
  | .or => 0
  | .and => 1
  | .equal | .notEqual => 2
  | .less | .lessEqual | .greater | .greaterEqual => 3
  | .add | .subtract => 4
  | .multiply | .divide => 5
  | .power => 6

theorem BinaryOperator.precedence_lt (op : BinaryOperator) : op.precedence < 7 := by
  cases op <;> decide

/-- The operators of a sequence with the operands on their right. -/
abbrev Tail := List (BinaryOperator × Expression)

/-- Precedence climbing: what `left` grows to with the operators in front of the first one that binds
looser than `min`, and the tail from there on, which is no longer than the given one. The right operand
of an operator takes in all operators that bind tighter. -/
def climbing (min : Nat) (left : Expression) (tail : Tail) :
    { r : Expression × Tail // r.2.length ≤ tail.length } :=
  match tail with
  | [] => ⟨(left, []), Nat.le_refl _⟩
  | (op, operand) :: tail =>
    if min ≤ op.precedence then
      let right := climbing (op.precedence + 1) operand tail
      let whole := climbing min (.binary left op right.1.1 0) right.1.2
      ⟨whole.1, Nat.le_succ_of_le (Nat.le_trans whole.2 right.2)⟩
    else ⟨(left, (op, operand) :: tail), Nat.le_refl _⟩
termination_by tail.length
decreasing_by
  · exact Nat.lt_succ_self _
  · exact Nat.lt_succ_of_le right.2

/-- The operation that `left` grows to, and the tail that is left. -/
def climb (min : Nat) (left : Expression) (tail : Tail) : Expression × Tail :=
  (climbing min left tail).1

/-- The expression that a whole sequence stands for. -/
def grouped (first : Expression) (tail : Tail) : Expression := (climb 0 first tail).1

variable {min : Nat} {left operand : Expression} {op : BinaryOperator} {tail : Tail}

theorem length_climb_le : (climb min left tail).2.length ≤ tail.length := (climbing min left tail).2

theorem climb_nil : climb min left [] = (left, []) := by rw [climb, climbing]

theorem climb_cons_of_lt (h : op.precedence < min) :
    climb min left ((op, operand) :: tail) = (left, (op, operand) :: tail) := by
  rw [climb, climbing, if_neg (Nat.not_le.2 h)]

theorem climb_cons_of_le (h : min ≤ op.precedence) :
    climb min left ((op, operand) :: tail) =
      climb min (.binary left op (climb (op.precedence + 1) operand tail).1 0)
        (climb (op.precedence + 1) operand tail).2 := by
  rw [climb, climbing, if_pos h]
  rfl

/-- Induction along the operators that an operand takes in one after another. -/
theorem climb_induct {k : Nat} {motive : Expression → Tail → Prop}
    (nil : ∀ left, motive left [])
    (stop : ∀ left op operand tail, op.precedence < k → motive left ((op, operand) :: tail))
    (step : ∀ left op operand tail, k ≤ op.precedence →
      motive (.binary left op (climb (op.precedence + 1) operand tail).1 0)
        (climb (op.precedence + 1) operand tail).2 →
      motive left ((op, operand) :: tail))
    (left : Expression) (tail : Tail) : motive left tail := by
  induction hn : tail.length using Nat.strongRecOn generalizing left tail with
  | ind n ih =>
    match tail, hn with
    | [], _ => exact nil left
    | (op, operand) :: tail, hn =>
      rcases Nat.lt_or_ge op.precedence k with h | h
      · exact stop left op operand tail h
      · refine step left op operand tail h (ih _ ?_ _ _ rfl)
        rw [← hn]
        exact Nat.lt_succ_of_le length_climb_le

/-- Climbing stops at the end of the sequence or at an operator that binds looser. -/
theorem precedence_lt_of_climb (min : Nat) (left : Expression) (tail : Tail) :
    ∀ p ∈ (climb min left tail).2.head?, p.1.precedence < min := by
  induction left, tail using climb_induct (k := min) with
  | nil left => simp [climb_nil]
  | stop left op operand tail h => simpa [climb_cons_of_lt h] using h
  | step left op operand tail h ih => rwa [climb_cons_of_le h]

/-- At the lowest precedence nothing is left. -/
theorem climb_zero (left : Expression) (tail : Tail) : (climb 0 left tail).2 = [] := by
  cases h : (climb 0 left tail).2 with
  | nil => rfl
  | cons p rest =>
    have hp := precedence_lt_of_climb 0 left tail p (by rw [h]; rfl)
    cases hp

/-- Above the highest precedence nothing is taken. -/
theorem climb_seven (left : Expression) (tail : Tail) : climb 7 left tail = (left, tail) := by
  cases tail with
  | nil => exact climb_nil
  | cons p tail => exact climb_cons_of_lt p.1.precedence_lt

/-- A climb may take in the tighter operators first. -/
theorem climb_climb_succ (min : Nat) (left : Expression) (tail : Tail) :
    climb min (climb (min + 1) left tail).1 (climb (min + 1) left tail).2 = climb min left tail := by
  induction left, tail using climb_induct (k := min + 1) with
  | nil left => rw [climb_nil]
  | stop left op operand tail h => rw [climb_cons_of_lt h]
  | step left op operand tail h ih =>
    rw [climb_cons_of_le h, ih, climb_cons_of_le (Nat.le_of_succ_le h)]

theorem grouped_singleton (a b : Expression) (op : BinaryOperator) :
    grouped a [(op, b)] = .binary a op b 0 := by
  rw [grouped, climb_cons_of_le (Nat.zero_le _), climb_nil, climb_nil]

end GalecAudit
