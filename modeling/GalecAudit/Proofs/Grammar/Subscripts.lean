import GalecAudit.Proofs.Grammar.Atom
import GalecAudit.Proofs.Grammar.Whole
import GalecAudit.Proofs.Source.Legible
import GalecAudit.Proofs.Source.Replacement
import GalecAudit.Proofs.Variable.Subscript

/-!
# Names of elements

The name of an element of an array is read as the name of the array with constant subscripts, and resolves
to itself.
-/
namespace GalecAudit

theorem IsReferenceName.starts {x : String} (hx : IsReferenceName x) :
    Grammar.Starts Grammar.startsOperand x.toList := by
  cases hx with
  | name hx => exact hx.starts.of_imp fun _ => Grammar.startsOperand_of_startsName
  | element hy =>
    rw [toList_indexedName]
    exact (hy.starts.of_imp fun _ => Grammar.startsOperand_of_startsName).append _

namespace Grammar

open Source Grammar.Parser

variable {rest : List Char} {expr : Parser Expr}

section Integers

theorem isLiteral_toString (n : Nat) : IsLiteral .integer (toString n) := by
  refine .integer ?_
  rw [toList_toString_nat]
  exact ⟨Nat.toDigits_ne_nil, fun c => Nat.isDigit_of_mem_toDigits (by decide) (by decide)⟩

theorem word?_eq_some {v : Int} (hlo : -9223372036854775808 ≤ v) (hhi : v ≤ 9223372036854775807) :
    word? v = some v :=
  word?_eq_some_iff.2 ⟨rfl, isWord_iff.2 ⟨hlo, hhi⟩⟩

theorem value?_literal {n : Nat} (h : n ≤ 9223372036854775807) (line : Nat) :
    Expr.value? [] (.literal .integer (toString n) line) = some (n : Int) := by
  rw [Expr.value?, decimal_toString]
  exact word?_eq_some (by omega) (by omega)

/-- The text of an integer is read as a constant expression with its value. -/
theorem reads_integer {i : Int} (hi : IsWritable i) (hrest : Follows rest) :
    Reads (primary expr) ((toString i).toList ++ rest) (fun t => t.value? [] = some i) rest := by
  obtain ⟨hlo, hhi⟩ := hi
  cases i with
  | ofNat n =>
    have hle : (n : Int) ≤ 9223372036854775807 := hhi
    have hliteral := isLiteral_toString n
    have hunsigned := (startsPlain_of_isLiteral hliteral hrest.closed).refuses_opUnary
    refine (reads_primary hunsigned (reads_literal_atom hliteral hrest.closed)).mono ?_
    rintro _ ⟨line, rfl⟩
    exact value?_literal (by omega) line
  | negSucc n =>
    have hliteral := isLiteral_toString (n + 1)
    have htext : (toString (Int.negSucc n)).toList ++ rest =
        UnaryOperator.negate.symbol.toList ++ ([] ++ ((toString (n + 1)).toList ++ rest)) := by
      rw [toList_toString_negSucc, toList_toString_nat]
      rfl
    rw [htext]
    refine (reads_unary .negate (fun _ => rfl) nofun (starts_of_isLiteral hliteral)
      (reads_literal_atom hliteral hrest.closed)).mono ?_
    rintro _ ⟨_, line, ⟨line', rfl⟩, rfl⟩
    rw [Expr.value?, value?_literal (by omega) line']
    exact word?_eq_some (by omega) (by omega)

theorem starts_toString (i : Int) : Starts startsOperand (toString i).toList := by
  cases i with
  | ofNat n => exact starts_of_isLiteral (isLiteral_toString n)
  | negSucc n =>
    rw [toList_toString_negSucc]
    rfl

end Integers

section Elements

variable {x : String} {indices : List Int} {depth : Nat}

theorem starts_indexText (hne : indices ≠ []) :
    Starts startsOperand (indexText indices).toList := by
  obtain ⟨i, indices, rfl⟩ := List.exists_cons_of_ne_nil hne
  cases indices with
  | nil =>
    rw [toList_indexText, List.map_cons, List.map_nil, List.intercalate_singleton]
    exact starts_toString i
  | cons j indices =>
    rw [indexText_cons_cons]
    exact (starts_toString i).append _

/-- Constant subscripts in brackets. -/
theorem reads_subscripts (hne : indices ≠ []) (hi : ∀ i ∈ indices, IsWritable i) (rest : List Char) :
    Reads (subscripts (nestedExpression (depth + 1)))
      ('[' :: ((indexText indices).toList ++ ']' :: rest))
      (fun trees => values? [] trees = some indices) rest := by
  have hclose (cs : List Char) : Stops (']' :: cs) := stops_of_isSolid rfl rfl rfl cs
  have hcomma (cs : List Char) : Stops (',' :: cs) := stops_of_isSolid rfl rfl rfl cs
  have hitem : ∀ i ∈ indices, ∀ rest, Stops rest → Reads (nestedExpression (depth + 1))
      ((toString i).toList ++ rest) (fun t => t.value? [] = some i) rest := by
    intro i hm rest hrest
    exact reads_expressionOf (reads_integer (hi i hm) hrest.toFollows) hrest
  have hgap (cs : List Char) : pastTrivia ([] ++ cs) = pastTrivia cs := rfl
  have hseparated := reads_separated hne hgap
    (fun i _ => pastTrivia_of_starts (starts_toString i)) hitem hcomma (hclose rest)
    (text_eq_none (p := (· == ',')) rfl (ends_pastTrivia rfl rfl rest))
  rw [← toList_indexText] at hseparated
  have hopen : Reads (literal "[" *> separated (nestedExpression (depth + 1)) (literal ","))
      ('[' :: ((indexText indices).toList ++ ']' :: rest)) (fun trees => values? [] trees = some indices)
      (']' :: rest) := by
    refine Reads.behind_mark rfl ?_
    rw [pastTrivia_of_starts (starts_indexText hne)]
    exact hseparated.mono fun _ h => values?_eq_some_iff.2 h.flip
  exact (hopen.before_mark rfl (pastTrivia_of_isSolid rfl rest)).rule _

/-- Constant subscripts become part of the name of a segment. -/
theorem resolve_of_values? {trees : List Expr} (hne : indices ≠ [])
    (h : values? [] trees = some indices) :
    Segment.resolve [] ⟨x, trees⟩ = .ok (indexedName x indices, []) := by
  rw [Segment.resolve, h]
  cases indices with
  | nil => exact absurd rfl hne
  | cons => rfl

/-- The name of a variable or of an element begins with a name, and is read as a segment that resolves
to it. -/
theorem exists_reads_segment (depth : Nat) (hx : IsReferenceName x) (hrest : Follows rest) :
    ∃ y cs, IsName y ∧ Closed cs ∧ Ends (· == '(') (pastTrivia cs) ∧
      x.toList ++ rest = y.toList ++ cs ∧
      Reads (referenceSegment (nestedExpression (depth + 1))) (y.toList ++ cs)
        (fun s => s.resolve [] = .ok (x, [])) rest := by
  cases hx with
  | name hx =>
    have hnext : Ends (· == '(') (pastTrivia rest) :=
      hrest.next.of_imp fun c hc => by rw [hc, Bool.true_or]
    refine ⟨x, rest, hx, hrest.closed, hnext, rfl, ?_⟩
    exact (reads_referenceSegment hx hrest).mono fun s hs => hs ▸ rfl
  | @element y indices hy hne hi =>
    have htext : (indexedName y indices).toList ++ rest =
        y.toList ++ '[' :: ((indexText indices).toList ++ ']' :: rest) := by
      rw [toList_indexedName, List.append_assoc, List.cons_append, List.append_assoc]
      rfl
    have hclosed : Closed ('[' :: ((indexText indices).toList ++ ']' :: rest)) := rfl
    refine ⟨y, _, hy, hclosed, ends_pastTrivia rfl rfl _, htext, ?_⟩
    refine ((reads_name hy hclosed).map_seq fun _ hname => ?_).rule _
    rw [pastTrivia_of_isSolid rfl]
    refine ((reads_subscripts hne hi rest).mono fun trees hvalues => ?_).optional
    rw [hname]
    exact resolve_of_values? hne hvalues

/-- The name of a variable or of an element, as the array of a size query. -/
theorem reads_referenceName (depth : Nat) (hx : IsReferenceName x) (hrest : Follows rest) :
    Reads (reference (nestedExpression (depth + 1))) (x.toList ++ rest)
      (fun a => ∃ s line, s.resolve [] = .ok (x, []) ∧ a = ⟨false, [s], line⟩) rest := by
  obtain ⟨y, cs, hy, hcs, -, htext, hread⟩ := exists_reads_segment depth hx hrest
  rw [htext]
  exact reads_reference (noKeyword_of_isName hy hcs "self" (by decide)) hread

/-- The name of a variable or of an element, as an atom. -/
theorem readsAtom_referenceName (hx : IsReferenceName x) (line : Nat) :
    ReadsAtom (nestedExpression (depth + 1)) x.toList (.reference ⟨x, false, line, []⟩) where
  starts := hx.starts
  unsigned rest hrest := by
    obtain ⟨y, cs, hy, hcs, -, htext, -⟩ := exists_reads_segment depth hx hrest
    rw [htext]
    exact (startsPlain_of_isName hy hcs).refuses_opUnary
  reads rest hrest := by
    obtain ⟨y, cs, hy, hcs, hnext, htext, hread⟩ := exists_reads_segment depth hx hrest
    rw [htext]
    refine (reads_access hy hcs hnext hread).mono ?_
    rintro _ ⟨s, line', hs, rfl⟩
    exact .access hs line' line

end Elements

end Grammar
end GalecAudit
