import GalecAudit.Proofs.Source.Accesses
import GalecAudit.Proofs.Source.Words
import GalecAudit.Source.Flatten
import Mathlib.Data.List.Induction
import Mathlib.Data.Nat.Digits.Defs

/-!
# Folding of constants

The value of a constant over the integers, without any bounds, is a relation of its own: it knows literals,
iterators, signs, parentheses, sums, differences and products, and nothing else. Folding gives exactly this
value, and it gives one exactly where all values on the way are 64-bit integers: those of the expressions
inside and those of the beginnings of a chain. So an overflow is final, also where a later operand would
bring the value back.
-/
namespace GalecAudit

/-- What an operator of constants does with two integers. -/
def BinaryOperator.onIntegers? : BinaryOperator → Option (Int → Int → Int)
  | .add => some fun a b => a + b
  | .subtract => some fun a b => a - b
  | .multiply => some fun a b => a * b
  | _ => none

namespace Source

/-- The number that decimal digits stand for by their places. -/
def placeValue (text : String) : Nat :=
  Nat.ofDigits 10 (text.toList.reverse.map fun c => c.toNat - '0'.toNat)

/-- The value of an expression over the integers. In a chain the last operator takes the value of all that
stands in front of it. -/
inductive Denotes (scope : LoopScope) : Expr → Int → Prop
  | literal {text line} : Denotes scope (.literal .integer text line) (placeValue text)
  | iterator {name line v} : List.lookup name scope = some v →
      Denotes scope (.access ⟨false, [⟨name, []⟩], line⟩) v
  | negation {operand line v} : Denotes scope operand v → Denotes scope (.unary .negate operand line) (-v)
  | paren {inner line v} : Denotes scope inner v → Denotes scope (.paren inner line) v
  | alone {first line v} : Denotes scope first v → Denotes scope (.chain first [] line) v
  | operation {first rest op operand line f a b} : op.onIntegers? = some f →
      Denotes scope (.chain first rest line) a → Denotes scope operand b →
      Denotes scope (.chain first (rest ++ [(op, operand)]) line) (f a b)

/-- An expression whose value comes up on the way to the value of another one: the expression itself, one
that stands in it, or the beginning of a chain. -/
inductive Expr.PartOf (p : Expr) : Expr → Prop
  | self : PartOf p p
  | inside {e child} : child ∈ e.children → PartOf p child → PartOf p e
  | beginning {first rest last line} : PartOf p (.chain first rest line) →
      PartOf p (.chain first (rest ++ [last]) line)

/-- The value of a constant: that over the integers, where no value on the way needs more than 64 bits. -/
structure Expr.FoldsTo (scope : LoopScope) (e : Expr) (v : Int) : Prop where
  denotes : Denotes scope e v
  inRange : ∀ p : Expr, p.PartOf e → ∀ w, Denotes scope p w → -2 ^ 63 ≤ w ∧ w ≤ 2 ^ 63 - 1

section Words

theorem isWord_iff_pow {v : Int} : isWord v = true ↔ -2 ^ 63 ≤ v ∧ v ≤ 2 ^ 63 - 1 := by
  rw [isWord_iff]
  norm_num

/-- Operations on 64 bits are those on the integers, as long as their results have room. -/
theorem applyConstant_eq_some_iff {op : BinaryOperator} {a b v : Int} :
    applyConstant op a b = some v ↔
      ∃ f, op.onIntegers? = some f ∧ f a b = v ∧ isWord v = true := by
  have happly : applyConstant op a b = op.onIntegers?.bind fun f => word? (f a b) := by
    cases op <;> rfl
  simp only [happly, Option.bind_eq_some_iff, word?_eq_some_iff]

theorem decimal_eq_placeValue (text : String) : decimal text = placeValue text := by
  rw [decimal, Text.decimalValue, placeValue, Nat.ofDigits_eq_foldr, List.foldr_map, List.foldr_reverse]
  simp only [Nat.cast_id, Nat.add_comm]

end Words

section Chains

variable {scope : LoopScope} {first operand : Expr} {rest : List (BinaryOperator × Expr)}
  {op : BinaryOperator} {line : Nat}

theorem chainValue?_concat (left : Int) :
    chainValue? scope left (rest ++ [(op, operand)]) =
      (chainValue? scope left rest).bind fun a =>
        (operand.value? scope).bind fun b => applyConstant op a b := by
  induction rest generalizing left with
  | nil => simp only [List.nil_append, chainValue?_cons, chainValue?, Option.bind_some, Option.bind_fun_some]
  | cons p rest ih =>
    obtain ⟨other, e⟩ := p
    simp only [List.cons_append, chainValue?_cons, ih, Option.bind_assoc]

theorem Expr.value?_chain_nil : (Expr.chain first [] line).value? scope = first.value? scope := by
  rw [value?]
  cases first.value? scope <;> rfl

/-- A chain takes one operand after the other. -/
theorem Expr.value?_chain_concat : (Expr.chain first (rest ++ [(op, operand)]) line).value? scope =
    ((Expr.chain first rest line).value? scope).bind fun a =>
      (operand.value? scope).bind fun b => applyConstant op a b := by
  rw [value?, value?]
  cases first.value? scope with
  | none => rfl
  | some v => exact chainValue?_concat v

end Chains

section Denotation

variable {scope : LoopScope} {first operand : Expr} {rest : List (BinaryOperator × Expr)}
  {op : BinaryOperator} {line : Nat} {v w : Int}

theorem denotes_alone_iff : Denotes scope (.chain first [] line) v ↔ Denotes scope first v := by
  constructor
  · intro h
    generalize he : Expr.chain first [] line = e at h
    cases h with
    | alone hfirst =>
      cases he
      exact hfirst
    | operation => simp at he
    | _ => cases he
  · exact .alone

theorem denotes_operation_iff : Denotes scope (.chain first (rest ++ [(op, operand)]) line) v ↔
    ∃ f a b, op.onIntegers? = some f ∧ Denotes scope (.chain first rest line) a ∧
      Denotes scope operand b ∧ v = f a b := by
  constructor
  · intro h
    generalize he : Expr.chain first (rest ++ [(op, operand)]) line = e at h
    cases h with
    | operation hop ha hb =>
      obtain ⟨rfl, hrest, rfl⟩ := Expr.chain.inj he
      obtain ⟨rfl, hlast⟩ := List.append_singleton_inj.1 hrest
      cases hlast
      exact ⟨_, _, _, hop, ha, hb, rfl⟩
    | alone => simp at he
    | _ => cases he
  · rintro ⟨f, a, b, hop, ha, hb, rfl⟩
    exact .operation hop ha hb

/-- An expression has at most one value over the integers. -/
theorem Denotes.unique {e : Expr} (hv : Denotes scope e v) (hw : Denotes scope e w) : v = w := by
  induction hv generalizing w with
  | literal =>
    cases hw
    rfl
  | iterator hl =>
    cases hw with
    | iterator hl' => exact Option.some.inj (hl.symm.trans hl')
  | negation _ ih =>
    cases hw with
    | negation hoperand => rw [ih hoperand]
  | paren _ ih =>
    cases hw with
    | paren hinner => exact ih hinner
  | alone _ ih => exact ih (denotes_alone_iff.1 hw)
  | operation hop _ _ iha ihb =>
    obtain ⟨g, a, b, hop', ha, hb, rfl⟩ := denotes_operation_iff.1 hw
    cases hop.symm.trans hop'
    rw [iha ha, ihb hb]

end Denotation

section Folding

variable {scope : LoopScope} {e : Expr} {v : Int}

/-- What folding gives is the value over the integers. -/
theorem denotes_of_value? (h : e.value? scope = some v) : Denotes scope e v := by
  induction e using Expr.induct generalizing v with
  | chain first rest line ihf ihr =>
    -- the beginnings of the chain, from the shortest one on
    induction rest using List.reverseRecOn generalizing v with
    | nil => exact .alone (ihf (Expr.value?_chain_nil ▸ h))
    | append_singleton rest last ih =>
      obtain ⟨op, operand⟩ := last
      simp only [Expr.value?_chain_concat, Option.bind_eq_some_iff, applyConstant_eq_some_iff] at h
      obtain ⟨a, ha, b, hb, f, hop, rfl, -⟩ := h
      have hbeginning := ih (fun p hp => ihr p (List.mem_append_left _ hp)) ha
      exact .operation hop hbeginning (ihr (op, operand) List.mem_concat_self hb)
  | unary op operand line ih =>
    cases op with
    | not => cases h
    | negate =>
      rw [Expr.value?] at h
      split at h
      · next a ha =>
        obtain ⟨rfl, -⟩ := word?_eq_some_iff.1 h
        exact .negation (ih ha)
      · cases h
  | paren inner line ih => exact .paren (ih h)
  | literal type text line =>
    cases type with
    | integer =>
      obtain ⟨rfl, -⟩ := word?_eq_some_iff.1 h
      rw [decimal_eq_placeValue]
      exact .literal
    | _ => cases h
  | access isState segments line =>
    obtain ⟨name, hname, hl⟩ := Option.bind_eq_some_iff.1 h
    rw [Access.bareName?.eq_def] at hname
    split at hname
    · next heq =>
      cases heq
      cases hname
      exact .iterator hl
    · cases hname
  | conditional | array | size | call => cases h

/-- Whatever comes up on the way to the value of a constant is constant itself. -/
theorem Expr.PartOf.isSome_value? {p : Expr} (hp : p.PartOf e) (h : (e.value? scope).isSome) :
    (p.value? scope).isSome := by
  induction hp with
  | self => exact h
  | inside hchild _ ih =>
    obtain ⟨v, hv⟩ := Option.isSome_iff_exists.1 h
    exact ih (Expr.value?_isSome hv hchild)
  | @beginning first rest last line _ ih =>
    obtain ⟨op, operand⟩ := last
    obtain ⟨v, hv⟩ := Option.isSome_iff_exists.1 h
    rw [Expr.value?_chain_concat] at hv
    obtain ⟨a, ha, -⟩ := Option.bind_eq_some_iff.1 hv
    exact ih (ha ▸ rfl)

/-- The value over the integers is folded where every value on the way is a 64-bit integer. -/
theorem value?_of_denotes (h : Denotes scope e v)
    (hrange : ∀ p : Expr, p.PartOf e → ∀ w, Denotes scope p w → isWord w = true) :
    e.value? scope = some v := by
  induction h with
  | @literal text line =>
    rw [Expr.value?, word?_eq_some_iff, decimal_eq_placeValue]
    exact ⟨rfl, hrange _ .self _ .literal⟩
  | iterator hl => exact hl
  | @negation operand line v hoperand ih =>
    have hv := ih fun p hp => hrange p (.inside List.mem_cons_self hp)
    rw [Expr.value?, hv]
    exact word?_eq_some_iff.2 ⟨rfl, hrange _ .self _ (.negation hoperand)⟩
  | paren _ ih => exact ih fun p hp => hrange p (.inside List.mem_cons_self hp)
  | alone _ ih =>
    rw [Expr.value?_chain_nil]
    exact ih fun p hp => hrange p (.inside List.mem_cons_self hp)
  | @operation first rest op operand line f a b hop ha hb iha ihb =>
    have hmem : operand ∈ (Expr.chain first (rest ++ [(op, operand)]) line).children := by
      simp [Expr.children]
    have hleft := iha fun p hp => hrange p (.beginning hp)
    have hright := ihb fun p hp => hrange p (.inside hmem hp)
    rw [Expr.value?_chain_concat, hleft, hright]
    exact applyConstant_eq_some_iff.2 ⟨f, hop, rfl, hrange _ .self _ (.operation hop ha hb)⟩

/-- Folding gives a value exactly where there is one over the integers and every value on the way is a
64-bit integer. -/
theorem value?_eq_some_iff (hscope : scope.IsWords) :
    e.value? scope = some v ↔ e.FoldsTo scope v := by
  constructor
  · intro h
    refine ⟨denotes_of_value? h, fun p hp w hw => isWord_iff_pow.1 ?_⟩
    obtain ⟨u, hu⟩ := Option.isSome_iff_exists.1 (hp.isSome_value? (Option.isSome_iff_exists.2 ⟨v, h⟩))
    rw [hw.unique (denotes_of_value? hu)]
    exact hscope.isWord_of_value? hu
  · intro h
    exact value?_of_denotes h.denotes fun p hp w hw => isWord_iff_pow.2 (h.inRange p hp w hw)

/-- A size is fixed if it is constant and not negative. -/
theorem Dimension.flatten_eq_fixed_iff {size : Expr} {text : String} {n : Nat} :
    (Dimension.sized size text).flatten = .fixed n ↔ size.value? [] = some (n : Int) := by
  rw [Dimension.flatten]
  cases size.value? [] with
  | none => exact iff_of_false nofun nofun
  | some v =>
    by_cases hv : 0 ≤ v
    · simp only [if_pos hv, GalecAudit.Dimension.fixed.injEq, Option.some_inj]
      omega
    · simp only [if_neg hv]
      refine iff_of_false nofun fun h => hv ?_
      cases h
      exact Int.natCast_nonneg n

end Folding

/-- Constants are folded exactly. In loops whose iterators have 64-bit values, an expression is folded to the
value that it has over the integers, if it has one and if every value on the way is a 64-bit integer;
otherwise it has no constant value. This is the value that subscripts, the bounds of loops and, outside of
loops, the sizes of arrays are taken for. -/
theorem folding_exact {scope : LoopScope} (hscope : scope.IsWords) :
    (∀ (e : Expr) v, e.value? scope = some v ↔ e.FoldsTo scope v) ∧
    (∀ subscripts vs, values? scope subscripts = some vs ↔
      List.Forall₂ (Expr.FoldsTo scope) subscripts vs) ∧
    (∀ (bounds : Bounds) start step stop, bounds.values? scope = some (start, step, stop) ↔
      bounds.start.FoldsTo scope start ∧
      bounds.step.elim (step = 1) (fun e : Expr => e.FoldsTo scope step) ∧
      bounds.stop.FoldsTo scope stop) ∧
    ∀ size text n, (Dimension.sized size text).flatten = .fixed n ↔ size.FoldsTo [] n := by
  have hvalue (e : Expr) (v : Int) : e.value? scope = some v ↔ e.FoldsTo scope v :=
    value?_eq_some_iff hscope
  refine ⟨hvalue, fun subscripts vs => ?_, fun bounds start step stop => ?_, fun size text n => ?_⟩
  · simp only [values?_eq_some_iff, hvalue]
  · simp only [Bounds.values?_eq_some_iff, hvalue]
  · rw [Dimension.flatten_eq_fixed_iff, value?_eq_some_iff LoopScope.isWords_nil]

section Witness

/-- A loop whose iterator is at the greatest 64-bit integer. -/
def topScope : LoopScope := [("i", 9223372036854775807)]

def topIterator : Expr := .access ⟨false, [⟨"i", []⟩], 1⟩

def unitLiteral : Expr := .literal .integer "1" 1

/-- The expression `-i - 1`. -/
def leastDifference : Expr := .chain (.unary .negate topIterator 1) [(.subtract, unitLiteral)] 1

/-- The expression `i + 1 - 1`. -/
def overrunSum : Expr := .chain topIterator [(.add, unitLiteral), (.subtract, unitLiteral)] 1

theorem denotes_overrunSum : Denotes topScope overrunSum 9223372036854775807 := by
  have hiterator : Denotes topScope topIterator 9223372036854775807 := .iterator rfl
  have hsum : Denotes topScope (.chain topIterator ([] ++ [(.add, unitLiteral)]) 1)
      (9223372036854775807 + placeValue "1") := .operation rfl (.alone hiterator) .literal
  have hdifference : Denotes topScope
      (.chain topIterator ([(.add, unitLiteral)] ++ [(.subtract, unitLiteral)]) 1)
      (9223372036854775807 + placeValue "1" - placeValue "1") := .operation rfl hsum .literal
  rwa [Int.add_sub_cancel] at hdifference

/-- The least 64-bit integer is reached. A sum that leaves the 64-bit integers for a moment is not folded,
although its value is one. -/
theorem folding_exact_topScope :
    topScope.IsWords ∧ leastDifference.FoldsTo topScope (-9223372036854775808) ∧
      Denotes topScope overrunSum 9223372036854775807 ∧
      ¬ overrunSum.FoldsTo topScope 9223372036854775807 := by
  have hscope : topScope.IsWords := List.forall_mem_singleton.2 (by decide)
  obtain ⟨hvalue, -⟩ := folding_exact hscope
  refine ⟨hscope, (hvalue _ _).1 (by decide +kernel), denotes_overrunSum, fun h => ?_⟩
  have hfolded := (hvalue _ _).2 h
  revert hfolded
  decide +kernel

end Witness

end Source
end GalecAudit
