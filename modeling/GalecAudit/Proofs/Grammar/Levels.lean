import GalecAudit.Proofs.Grammar.Climbing
import GalecAudit.Proofs.Grammar.Name
import GalecAudit.Proofs.Grammar.Reading
import GalecAudit.Proofs.Source.Meaning

/-!
# Precedence levels

The seven levels of binary operators, one over another, read a sequence of operands as precedence climbing
groups it.
-/
namespace GalecAudit.Grammar

open Source Grammar.Parser

/-- The operators of a precedence with their spellings, in the order in which they are tried. -/
def spellingsOf : Nat → List (BinaryOperator × Scanner)
  | 0 => [(.or, Scanner.word "or")]
  | 1 => [(.and, Scanner.word "and")]
  | 2 => [(.equal, Scanner.text "=="), (.notEqual, Scanner.text "<>")]
  | 3 => [(.lessEqual, Scanner.text "<="), (.greaterEqual, Scanner.text ">="),
     (.less, (Scanner.text "<").notBefore (· == '>')), (.greater, Scanner.text ">")]
  | 4 => [(.add, Scanner.text "+"), (.subtract, Scanner.text "-")]
  | 5 => [(.multiply, Scanner.text "*"), (.divide, Scanner.text "/")]
  | _ => [(.power, Scanner.text "^")]

/-- The rules of the operators of a precedence and of the expressions with these operators. -/
def levelRules : Nat → Rule × Rule
  | 0 => (.opOr, .orExpression)
  | 1 => (.opAnd, .andExpression)
  | 2 => (.opEquality, .equalityExpression)
  | 3 => (.opRelational, .relationalExpression)
  | 4 => (.opAdditive, .additiveExpression)
  | 5 => (.opMultiplicative, .multiplicativeExpression)
  | _ => (.opPower, .powerExpression)

def operatorsOf (precedence : Nat) : Parser BinaryOperator :=
  symbol (levelRules precedence).1 (spellingsOf precedence)

/-- The lowest `n` levels of which the highest precedence is six, over the operands. -/
def tower (expr : Parser Expr) : Nat → Parser Expr
  | 0 => primary expr
  | n + 1 => level (levelRules (6 - n)).2 (tower expr n) (operatorsOf (6 - n))

theorem tower_succ (expr : Parser Expr) {n k : Nat} (h : n + k = 6) :
    tower expr (n + 1) = level (levelRules k).2 (tower expr n) (operatorsOf k) := by
  have hk : k = 6 - n := by omega
  rw [hk, tower]

theorem expressionOf_eq (expr : Parser Expr) : expressionOf expr = rule .expression (tower expr 7) :=
  rfl

section Operators

variable {k : Nat} {cs : List Char}

theorem firstSpelling_symbol (op : BinaryOperator) (hk : k ≤ 6) (cs : List Char) :
    firstSpelling (spellingsOf k) (op.symbol.toList ++ ' ' :: cs) =
      if op.precedence = k then some (op, op.symbol.toList) else none := by
  have hcases : k = 0 ∨ k = 1 ∨ k = 2 ∨ k = 3 ∨ k = 4 ∨ k = 5 ∨ k = 6 := by omega
  rcases hcases with rfl | rfl | rfl | rfl | rfl | rfl | rfl <;> cases op <;>
    simp [spellingsOf, firstSpelling, Scanner.text, Scanner.word, Scanner.notBefore,
      BinaryOperator.symbol, BinaryOperator.precedence, isIdentChar]

theorem reads_operator (op : BinaryOperator) (cs : List Char) :
    Reads (operatorsOf op.precedence) (op.symbol.toList ++ ' ' :: cs) (· = op) (' ' :: cs) := by
  have hle := op.precedence_lt
  exact reads_symbol (by rw [firstSpelling_symbol op (by omega), if_pos rfl])

theorem refuses_operator {op : BinaryOperator} (h : op.precedence ≠ k) (hk : k ≤ 6)
    (cs : List Char) : Refuses (operatorsOf k) (op.symbol.toList ++ ' ' :: cs) :=
  refuses_symbol (by rw [firstSpelling_symbol op hk, if_neg h])

/-- The characters with which binary operators begin. -/
def startsOperator (c : Char) : Bool :=
  ['o', 'a', '=', '<', '>', '+', '-', '*', '/', '^'].contains c

theorem refuses_operator_of_ends (h : Ends startsOperator cs) (k : Nat) :
    Refuses (operatorsOf k) cs := by
  refine refuses_symbol ?_
  cases cs with
  | nil => unfold spellingsOf; split <;> rfl
  | cons c cs =>
    have hc := ends_cons.1 h
    simp [startsOperator] at hc
    unfold spellingsOf
    split <;> simp [firstSpelling, Scanner.text, Scanner.word, Scanner.notBefore, hc, Ne.symm]

/-- Neither a blank nor a comment begins where an operator does. -/
theorem pastTrivia_operator (op : BinaryOperator) (cs : List Char) :
    pastTrivia (' ' :: (op.symbol.toList ++ ' ' :: cs)) = op.symbol.toList ++ ' ' :: cs := by
  rw [pastTrivia_space]
  cases op with
  | divide => exact pastTrivia_slash_space cs
  | _ => exact pastTrivia_of_isSolid rfl _

end Operators

/-- The end of an operand: no name or literal goes on, and neither arguments nor subscripts follow. -/
structure Follows (rest : List Char) : Prop where
  closed : Closed rest
  next : Ends (fun c => c == '(' || c == '[') (pastTrivia rest)

/-- The end of an expression: the end of an operand that no operator follows. -/
structure Stops (rest : List Char) : Prop extends Follows rest where
  operator : Ends startsOperator (pastTrivia rest)

theorem stops_nil : Stops [] := by
  refine ⟨⟨rfl, ?_⟩, ?_⟩ <;> rw [pastTrivia_nil] <;> rfl

/-- What may stand behind an operand as a part of the same expression. -/
def continuesOperand (c : Char) : Bool := c == '(' || c == '[' || startsOperator c

theorem stops_of_pastTrivia {c : Char} {cs rest : List Char} (hclosed : Closed cs)
    (hcs : pastTrivia cs = c :: rest) (hc : continuesOperand c = false) : Stops cs := by
  obtain ⟨hnext, hoperator⟩ := Bool.or_eq_false_iff.1 hc
  refine ⟨⟨hclosed, ?_⟩, ?_⟩ <;> rw [hcs]
  · exact hnext
  · exact hoperator

theorem stops_of_isSolid {c : Char} (hsolid : isSolid c = true) (hclosed : continuesLexeme c = false)
    (hc : continuesOperand c = false) (rest : List Char) : Stops (c :: rest) :=
  stops_of_pastTrivia hclosed (pastTrivia_of_isSolid hsolid rest) hc

theorem stops_space {c : Char} (hsolid : isSolid c = true) (hc : continuesOperand c = false)
    (rest : List Char) : Stops (' ' :: c :: rest) :=
  stops_of_pastTrivia rfl (by rw [pastTrivia_space, pastTrivia_of_isSolid hsolid]) hc

theorem follows_operator (op : BinaryOperator) (cs : List Char) :
    Follows (' ' :: (op.symbol.toList ++ ' ' :: cs)) := by
  constructor
  · rfl
  · rw [pastTrivia_operator]
    cases op <;> rfl

/-- The characters with which operands begin. -/
def startsOperand (c : Char) : Bool :=
  startsName c || c.isDigit || ['-', '(', '\x7b'].contains c

theorem isSolid_of_startsOperand {c : Char} (h : startsOperand c = true) : isSolid c = true := by
  rw [isSolid, Bool.and_eq_true, Bool.not_eq_true', bne_iff_ne]
  constructor
  · rw [Bool.eq_false_iff]
    intro hs
    simp only [isSpace, Bool.or_eq_true, beq_iff_eq] at hs
    rcases hs with (((rfl | rfl) | rfl) | rfl) | rfl <;> exact absurd h (by decide)
  · rintro rfl
    exact absurd h (by decide)

theorem pastTrivia_of_starts {w : List Char} (h : Starts startsOperand w) (rest : List Char) :
    pastTrivia (w ++ rest) = w ++ rest :=
  pastTrivia_of_ends (h.ends (fun c hc => by rw [isSolid_of_startsOperand hc]; rfl) rest)

section Tower

variable {expr : Parser Expr} {stop text cs : List Char} {e left : Expression} {tail : Tail}

/-- A text is read as an operand with the meaning `e`. -/
structure ReadsOperand (expr : Parser Expr) (text : List Char) (e : Expression) : Prop where
  starts : Starts startsOperand text
  reads : ∀ rest, Follows rest → Reads (primary expr) (text ++ rest) (·.Means e) rest

/-- The text of a tail of a sequence in front of `stop`. Single blanks separate operators and operands. -/
inductive SpellsTail (expr : Parser Expr) (stop : List Char) : Tail → List Char → Prop
  | nil : SpellsTail expr stop [] stop
  | cons {op operand text tail cs} : ReadsOperand expr text operand →
      SpellsTail expr stop tail cs →
      SpellsTail expr stop ((op, operand) :: tail)
        (' ' :: (op.symbol.toList ++ ' ' :: (text ++ cs)))

theorem SpellsTail.follows (h : SpellsTail expr stop tail cs) (hstop : Stops stop) : Follows cs := by
  cases h with
  | nil => exact hstop.toFollows
  | cons => exact follows_operator _ _

/-- What a level reads from an operand on: the operation that climbing makes, and what climbing leaves. -/
def ReadsClimb (p : Parser Expr) (expr : Parser Expr) (stop : List Char) (k : Nat) : Prop :=
  ∀ text e tail cs, ReadsOperand expr text e → SpellsTail expr stop tail cs →
    ∃ cs', SpellsTail expr stop (climb k e tail).2 cs' ∧ cs'.length ≤ (text ++ cs).length ∧
      Reads p (text ++ cs) (·.Means (climb k e tail).1) cs'

/-- An operator with its right operand. -/
theorem reads_item {p : Parser Expr} {P : Expr → Prop} {mid : List Char} (op : BinaryOperator)
    (hsolid : pastTrivia cs = cs) (h : Reads p cs P mid) :
    Reads (Prod.mk <$> operatorsOf op.precedence <*> p) (op.symbol.toList ++ ' ' :: cs)
      (fun q => q.1 = op ∧ P q.2) mid := by
  refine (reads_operator op cs).map_seq fun _ hop => ?_
  rw [pastTrivia_space, hsolid]
  exact h.mono fun _ hm => ⟨hop, hm⟩

/-- The operators of one level behind an operand that has taken in the tighter ones. -/
theorem readsMany_level {p : Parser Expr} {k : Nat} (hp : ReadsClimb p expr stop (k + 1))
    (hk : k ≤ 6) (hstop : Stops stop) (left : Expression) (tail : Tail) :
    ∀ cs, SpellsTail expr stop tail cs → (∀ q ∈ tail.head?, q.1.precedence < k + 1) →
      ∃ cs', SpellsTail expr stop (climb k left tail).2 cs' ∧ cs'.length ≤ cs.length ∧
        ReadsMany (Prod.mk <$> operatorsOf k <*> p) cs
          (Completes left (climb k left tail).1) cs' := by
  induction left, tail using climb_induct (k := k) with
  | nil left =>
    intro cs ht _
    rw [climb_nil]
    cases ht
    exact ⟨stop, .nil, Nat.le_refl _,
      .nil (refuses_operator_of_ends hstop.operator k).map.seq (completes_nil left)⟩
  | stop left op operand tail h =>
    intro cs ht _
    rw [climb_cons_of_lt h]
    refine ⟨cs, ht, Nat.le_refl _, .nil ?_ (completes_nil left)⟩
    cases ht
    rw [pastTrivia_operator]
    exact (refuses_operator (Nat.ne_of_lt h) hk _).map.seq
  | step left op operand tail h ih =>
    intro cs ht hhead
    have hop : op.precedence = k := Nat.le_antisymm (Nat.le_of_lt_succ (hhead _ rfl)) h
    rw [climb_cons_of_le h]
    subst hop
    cases ht with
    | @cons _ _ text _ rest ho ht =>
      obtain ⟨mid, hmid, hlen, hread⟩ := hp text operand tail rest ho ht
      obtain ⟨cs', hcs', hlen', hmany⟩ := ih mid hmid (precedence_lt_of_climb _ operand tail)
      have hitem := reads_item op (pastTrivia_of_starts ho.starts rest) hread
      rw [← pastTrivia_operator] at hitem
      have hshorter : (text ++ rest).length + 2 ≤ (op.symbol.toList ++ ' ' :: (text ++ rest)).length := by
        cases op <;> simp [BinaryOperator.symbol]
      refine ⟨cs', hcs', ?_, ReadsMany.cons hitem ?_ ?_⟩
      · rw [List.length_cons]
        omega
      · rw [pastTrivia_operator]
        omega
      · rintro ⟨_, right⟩ ⟨rfl, hright⟩
        exact hmany.mono fun _ hrest => .cons hright hrest

/-- The levels of precedence `k` and higher climb at `k`. -/
theorem readsClimb_tower (hstop : Stops stop) {n k : Nat} (hk : n + k = 7) :
    ReadsClimb (tower expr n) expr stop k := by
  induction n generalizing k with
  | zero =>
    intro text e tail cs ho ht
    cases Nat.zero_add k ▸ hk
    rw [climb_seven]
    exact ⟨cs, ht, by simp, ho.reads cs (ht.follows hstop)⟩
  | succ n ih =>
    -- The tighter levels read first and leave a tail that begins with no operator of theirs.
    intro text e tail cs ho ht
    have hbelow : ReadsClimb (tower expr n) expr stop (k + 1) := ih (by omega)
    obtain ⟨mid, hmid, hlen, hread⟩ := hbelow text e tail cs ho ht
    obtain ⟨cs', hcs', hlen', hmany⟩ := readsMany_level hbelow (by omega) hstop _ _ mid hmid
      (precedence_lt_of_climb _ e tail)
    rw [climb_climb_succ] at hcs' hmany
    refine ⟨cs', hcs', Nat.le_trans hlen' hlen, ?_⟩
    rw [tower_succ expr (by omega : n + k = 6)]
    refine (Reads.located (hread.map_seq fun first hfirst => ?_)).rule _
    exact hmany.reads.mono fun rest hrest line => hrest.chained hfirst line

/-- A sequence is read as precedence climbing groups it. -/
theorem reads_grouped (ho : ReadsOperand expr text e) (ht : SpellsTail expr stop tail cs)
    (hstop : Stops stop) :
    Reads (expressionOf expr) (text ++ cs) (·.Means (grouped e tail)) stop := by
  obtain ⟨cs', hcs', -, hread⟩ := readsClimb_tower hstop (n := 7) (k := 0) rfl text e tail cs ho ht
  rw [climb_zero] at hcs'
  cases hcs'
  rw [expressionOf_eq]
  exact hread.rule _

/-- Where no operator follows, the levels read what the operand reads. -/
theorem reads_expressionOf {P : Expr → Prop} (h : Reads (primary expr) cs P stop)
    (hstop : Stops stop) : Reads (expressionOf expr) cs P stop := by
  have htower (n : Nat) : Reads (tower expr n) cs P stop := by
    induction n with
    | zero => exact h
    | succ n ih =>
      have hmany : ReadsMany (Prod.mk <$> operatorsOf (6 - n) <*> tower expr n) stop (· = []) stop :=
        .nil (refuses_operator_of_ends hstop.operator _).map.seq rfl
      refine (Reads.located (ih.map_seq fun first hfirst => ?_)).rule _
      exact hmany.reads.mono fun _ hrest line => hrest ▸ hfirst
  rw [expressionOf_eq]
  exact (htower 7).rule _

theorem refuses_expressionOf_of_primary (h : Refuses (primary expr) cs) :
    Refuses (expressionOf expr) cs := by
  have htower (n : Nat) : Refuses (tower expr n) cs := by
    induction n with
    | zero => exact h
    | succ n ih => exact ih.map.seq.located.rule _
  rw [expressionOf_eq]
  exact (htower 7).rule _

end Tower

end GalecAudit.Grammar
