import GalecAudit.Proofs.Source.Induction

/-!
# Values are 64-bit integers

Where the iterators around an expression are 64-bit integers, its constant value is one as well.
-/
namespace GalecAudit.Source

theorem isWord_iff {v : Int} :
    isWord v = true ↔ -9223372036854775808 ≤ v ∧ v ≤ 9223372036854775807 :=
  decide_eq_true_iff

theorem word?_eq_some_iff {v w : Int} : word? v = some w ↔ v = w ∧ isWord w = true := by
  rw [word?]
  split
  · next hv =>
    constructor
    · intro h
      cases h
      exact ⟨rfl, hv⟩
    · rintro ⟨rfl, -⟩
      rfl
  · next hv =>
    refine iff_of_false nofun ?_
    rintro ⟨rfl, hw⟩
    exact hv hw

theorem isWord_of_word? {v w : Int} (h : word? v = some w) : isWord w = true :=
  (word?_eq_some_iff.1 h).2

theorem isWord_of_applyConstant {op : BinaryOperator} {a b w : Int}
    (h : applyConstant op a b = some w) : isWord w = true := by
  cases op with
  | add | subtract | multiply => exact isWord_of_word? h
  | _ => cases h

theorem isWord_of_chainValue? {scope : LoopScope} {rest : List (BinaryOperator × Expr)} {left w : Int}
    (hleft : isWord left = true) (h : chainValue? scope left rest = some w) : isWord w = true := by
  induction rest generalizing left with
  | nil =>
    cases h
    exact hleft
  | cons p rest ih =>
    obtain ⟨_, -, v, hv, hrest⟩ := chainValue?_cons_eq_some_iff.1 h
    exact ih (isWord_of_applyConstant hv) hrest

/-- All iterators have 64-bit integers as values. -/
def LoopScope.IsWords (scope : LoopScope) : Prop := ∀ p ∈ scope, isWord p.2 = true

namespace LoopScope

theorem isWords_nil : IsWords [] := nofun

variable {scope : LoopScope} {w : Int}

theorem IsWords.enter (h : scope.IsWords) {v : Int} (hv : isWord v = true)
    (iterator : Option String) : (scope.enter iterator v).IsWords := by
  cases iterator with
  | none => exact h
  | some name => exact List.forall_mem_cons.2 ⟨hv, h⟩

theorem IsWords.isWord_of_lookup (h : scope.IsWords) {name : String}
    (hl : List.lookup name scope = some w) : isWord w = true := by
  induction scope with
  | nil => cases hl
  | cons p rest ih =>
    obtain ⟨other, v⟩ := p
    obtain ⟨hv, hrest⟩ := List.forall_mem_cons.1 h
    rw [List.lookup_cons] at hl
    split at hl
    · cases hl
      exact hv
    · exact ih hrest hl

theorem IsWords.isWord_of_value? (h : scope.IsWords) {e : Expr} (hv : e.value? scope = some w) :
    isWord w = true := by
  induction e using Expr.induct generalizing w with
  | chain first rest line ihf _ =>
    rw [Expr.value?] at hv
    split at hv
    · next hfirst => exact isWord_of_chainValue? (ihf hfirst) hv
    · cases hv
  | unary op operand line ih =>
    cases op with
    | not => cases hv
    | negate =>
      rw [Expr.value?] at hv
      split at hv
      · exact isWord_of_word? hv
      · cases hv
  | paren inner line ih => exact ih hv
  | literal type text line =>
    cases type with
    | integer => exact isWord_of_word? hv
    | _ => cases hv
  | access isState segments line =>
    obtain ⟨name, -, hl⟩ := Option.bind_eq_some_iff.1 hv
    exact h.isWord_of_lookup hl
  | conditional | array | size | call => cases hv

theorem IsWords.isWord_of_values? (h : scope.IsWords) {es : List Expr} {values : List Int}
    (hv : values? scope es = some values) : ∀ v ∈ values, isWord v = true := by
  induction values?_eq_some_iff.1 hv with
  | nil => nofun
  | cons hfirst hrest ih =>
    exact List.forall_mem_cons.2 ⟨h.isWord_of_value? hfirst, ih (values?_eq_some_iff.2 hrest)⟩

/-- The bounds of a loop are 64-bit integers. -/
theorem IsWords.isWord_of_bounds (h : scope.IsWords) {bounds : Bounds} {start step stop : Int}
    (hv : bounds.values? scope = some (start, step, stop)) :
    isWord start = true ∧ isWord step = true ∧ isWord stop = true := by
  obtain ⟨hstart, hstep, hstop⟩ := Bounds.values?_eq_some_iff.1 hv
  refine ⟨h.isWord_of_value? hstart, ?_, h.isWord_of_value? hstop⟩
  cases hincrement : bounds.step with
  | none =>
    rw [hincrement, Option.elim_none] at hstep
    rw [hstep]
    decide
  | some e =>
    rw [hincrement, Option.elim_some] at hstep
    exact h.isWord_of_value? hstep

end LoopScope

end GalecAudit.Source
