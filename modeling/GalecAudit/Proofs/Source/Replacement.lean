import GalecAudit.Proofs.Source.Scope

/-!
# Replacement of an iterator

An iterator is replaced by an integer literal wherever it stands alone as an operand. In a scope that
binds the iterator, an expression means what the replaced one means in the scope around it.
-/
namespace GalecAudit.Source

/-- An iterator and the number that is put in its place. The trees keep the texts of array constructors
and of loop headers for the issues they cause; `retext` says what the replacement makes of such a text. -/
structure Replacement where
  iterator : String
  value : Nat
  value_le : value ≤ 9223372036854775807
  retext : String → String

mutual

/-- Replaces the iterator where it is an operand. The array whose size is asked for is no operand. -/
def Expr.replace (ρ : Replacement) : Expr → Expr
  | .chain first rest line => .chain (first.replace ρ) (replaceChain ρ rest) line
  | .unary op operand line => .unary op (operand.replace ρ) line
  | .conditional condition value elseIfs otherwise line =>
    .conditional (condition.replace ρ) (value.replace ρ) (replaceArms ρ elseIfs)
      (otherwise.replace ρ) line
  | .paren inner line => .paren (inner.replace ρ) line
  | .array elements text line => .array (replaceAll ρ elements) (ρ.retext text) line
  | .size ⟨isState, segments, accessLine⟩ dimension line =>
    .size ⟨isState, replaceSegments ρ segments, accessLine⟩ (dimension.replace ρ) line
  | .call ⟨name, args, line⟩ => .call ⟨name, replaceAll ρ args, line⟩
  | .literal type text line => .literal type text line
  | .access ⟨isState, segments, line⟩ =>
    if Access.bareName? ⟨isState, segments, line⟩ = some ρ.iterator then
      .literal .integer (toString ρ.value) line
    else .access ⟨isState, replaceSegments ρ segments, line⟩

def replaceChain (ρ : Replacement) : List (BinaryOperator × Expr) → List (BinaryOperator × Expr)
  | [] => []
  | (op, operand) :: rest => (op, operand.replace ρ) :: replaceChain ρ rest

def replaceArms (ρ : Replacement) : List (Expr × Expr) → List (Expr × Expr)
  | [] => []
  | (condition, value) :: rest => (condition.replace ρ, value.replace ρ) :: replaceArms ρ rest

def replaceAll (ρ : Replacement) : List Expr → List Expr
  | [] => []
  | e :: rest => e.replace ρ :: replaceAll ρ rest

/-- Replaces the iterator in subscripts. The names of segments stay. -/
def replaceSegments (ρ : Replacement) : List (Segment Expr) → List (Segment Expr)
  | [] => []
  | ⟨name, subscripts⟩ :: rest => ⟨name, replaceAll ρ subscripts⟩ :: replaceSegments ρ rest

end

/-- The access with the iterator replaced in its subscripts, its own name left alone. -/
def Access.replace (ρ : Replacement) (access : Access Expr) : Access Expr :=
  { access with segments := replaceSegments ρ access.segments }

def Call.replace (ρ : Replacement) (call : Call Expr) : Call Expr :=
  { call with args := replaceAll ρ call.args }

def Segment.replace (ρ : Replacement) (segment : Segment Expr) : Segment Expr :=
  { segment with subscripts := replaceAll ρ segment.subscripts }

section Lists

variable (ρ : Replacement)

theorem replaceAll_eq_map (es : List Expr) : replaceAll ρ es = es.map (Expr.replace ρ) := by
  induction es with
  | nil => rfl
  | cons e rest ih => rw [replaceAll, List.map_cons, ih]

theorem replaceChain_eq_map (rest : List (BinaryOperator × Expr)) :
    replaceChain ρ rest = rest.map fun p => (p.1, p.2.replace ρ) := by
  induction rest with
  | nil => rfl
  | cons p rest ih => rw [replaceChain, List.map_cons, ih]

theorem replaceArms_eq_map (arms : List (Expr × Expr)) :
    replaceArms ρ arms = arms.map fun arm => (arm.1.replace ρ, arm.2.replace ρ) := by
  induction arms with
  | nil => rfl
  | cons arm rest ih => rw [replaceArms, List.map_cons, ih]

theorem replaceSegments_eq_map (segments : List (Segment Expr)) :
    replaceSegments ρ segments = segments.map (Segment.replace ρ) := by
  induction segments with
  | nil => rfl
  | cons segment rest ih =>
    rw [replaceSegments, List.map_cons, ih]
    rfl

end Lists

/-- The first scope gives the iterator the value that replaces it, and every other name what the second
scope gives it. -/
def Replacement.Binds (ρ : Replacement) (inner outer : LoopScope) : Prop :=
  ∀ name, List.lookup name inner =
    if name = ρ.iterator then some (ρ.value : Int) else List.lookup name outer

variable {ρ : Replacement} {inner outer : LoopScope}

theorem Replacement.binds_cons (ρ : Replacement) (scope : LoopScope) :
    ρ.Binds ((ρ.iterator, (ρ.value : Int)) :: scope) scope := by
  intro name
  exact LoopScope.lookup_cons scope name ρ.iterator ρ.value

/-- A loop over another iterator keeps the scopes related. -/
theorem Replacement.Binds.enter (h : ρ.Binds inner outer) {iterator : Option String}
    (hi : iterator ≠ some ρ.iterator) (v : Int) :
    ρ.Binds (inner.enter iterator v) (outer.enter iterator v) := by
  cases iterator with
  | none => exact h
  | some other =>
    intro name
    have hne : other ≠ ρ.iterator := fun he => hi (congrArg some he)
    unfold LoopScope.enter
    rw [LoopScope.lookup_cons, LoopScope.lookup_cons, h name]
    by_cases hn : name = other
    · rw [if_pos hn, if_pos hn, if_neg (hn ▸ hne)]
    · rw [if_neg hn, if_neg hn]

/-- A loop over the iterator itself hides its value, so that the scopes agree. -/
theorem Replacement.Binds.agree (h : ρ.Binds inner outer) (v : Int) :
    (inner.enter (some ρ.iterator) v).Agree (outer.enter (some ρ.iterator) v) := by
  intro name
  unfold LoopScope.enter
  rw [LoopScope.lookup_cons, LoopScope.lookup_cons, h name]
  by_cases hn : name = ρ.iterator
  · rw [if_pos hn, if_pos hn]
  · rw [if_neg hn, if_neg hn, if_neg hn]

theorem decimal_toString (n : Nat) : decimal (toString n) = n := by
  have ht : (toString n).toList = Nat.toDigits 10 n := by simp
  unfold decimal Text.decimalValue
  rw [ht, ← Nat.ofDigitChars_eq_foldl, Nat.ofDigitChars_ten_toDigits]

/-- The literal that replaces the iterator has the value of the iterator. -/
theorem Replacement.word?_literal (ρ : Replacement) :
    word? (decimal (toString ρ.value)) = some (ρ.value : Int) := by
  have hle := ρ.value_le
  have hw : isWord (ρ.value : Int) = true := by
    unfold isWord
    rw [decide_eq_true_iff]
    omega
  rw [decimal_toString, word?, if_pos hw]

theorem Access.bareName?_replace (isState : Bool) (segments : List (Segment Expr)) (line : Nat) :
    Access.bareName? ⟨isState, replaceSegments ρ segments, line⟩ =
      Access.bareName? ⟨isState, segments, line⟩ := by
  rw [replaceSegments_eq_map]
  rcases isState with _ | _
  · rcases segments with _ | ⟨⟨name, _ | ⟨first, rest⟩⟩, _ | ⟨second, others⟩⟩ <;> rfl
  · rfl

theorem Replacement.Binds.iteratorValue?_of_eq (h : ρ.Binds inner outer) {access : Access Expr}
    (hb : access.bareName? = some ρ.iterator) :
    access.iteratorValue? inner = some (ρ.value : Int) := by
  rw [Access.iteratorValue?, hb, Option.bind_some, h, if_pos rfl]

theorem Replacement.Binds.iteratorValue?_of_ne (h : ρ.Binds inner outer) {isState : Bool}
    {segments : List (Segment Expr)} {line : Nat}
    (hb : Access.bareName? ⟨isState, segments, line⟩ ≠ some ρ.iterator) :
    Access.iteratorValue? outer ⟨isState, replaceSegments ρ segments, line⟩ =
      Access.iteratorValue? inner ⟨isState, segments, line⟩ := by
  rw [Access.iteratorValue?, Access.iteratorValue?, Access.bareName?_replace]
  cases hn : Access.bareName? ⟨isState, segments, line⟩ with
  | none => rfl
  | some name =>
    have hne : name ≠ ρ.iterator := fun he => hb (hn.trans (congrArg some he))
    rw [Option.bind_some, Option.bind_some, h, if_neg hne]

theorem chainValue?_replace {rest : List (BinaryOperator × Expr)}
    (h : ∀ p ∈ rest, (p.2.replace ρ).value? outer = p.2.value? inner) (left : Int) :
    chainValue? outer left (replaceChain ρ rest) = chainValue? inner left rest := by
  rw [replaceChain_eq_map]
  exact chainValue?_map h left

/-- Replacement keeps the value of a constant expression, and whether it has one. -/
theorem Expr.value?_replace (h : ρ.Binds inner outer) (e : Expr) :
    (e.replace ρ).value? outer = e.value? inner := by
  induction e using Expr.induct with
  | chain first rest line ihf ihr =>
    rw [Expr.replace, Expr.value?, Expr.value?, ihf]
    simp only [chainValue?_replace ihr]
  | unary op operand line ih => cases op <;> simp only [Expr.replace, Expr.value?, ih]
  | conditional => rfl
  | paren inner line ih => exact ih
  | array => rfl
  | size => rfl
  | call => rfl
  | literal type text line => cases type <;> rfl
  | access isState segments line =>
    rw [Expr.replace, Expr.value?]
    by_cases hb : Access.bareName? ⟨isState, segments, line⟩ = some ρ.iterator
    · rw [if_pos hb, h.iteratorValue?_of_eq hb, Expr.value?, ρ.word?_literal]
    · rw [if_neg hb, Expr.value?, h.iteratorValue?_of_ne hb]

theorem values?_replace (h : ρ.Binds inner outer) (es : List Expr) :
    values? outer (replaceAll ρ es) = values? inner es := by
  rw [replaceAll_eq_map, values?, values?, List.mapM_map]
  exact mapM_congr fun e _ => e.value?_replace h

theorem resolveChain_replace {rest : List (BinaryOperator × Expr)}
    (h : ∀ p ∈ rest, (p.2.replace ρ).resolve outer = p.2.resolve inner) (line : Nat)
    (left : Expression) :
    resolveChain outer line left (replaceChain ρ rest) = resolveChain inner line left rest := by
  rw [replaceChain_eq_map]
  exact resolveChain_map h line left

theorem resolveAll_replace {es : List Expr}
    (h : ∀ e ∈ es, (e.replace ρ).resolve outer = e.resolve inner) :
    resolveAll outer (replaceAll ρ es) = resolveAll inner es := by
  rw [replaceAll_eq_map, resolveAll_eq_mapM, resolveAll_eq_mapM, List.mapM_map]
  exact mapM_congr h

theorem resolveArms_replace {arms : List (Expr × Expr)}
    (h : ∀ arm ∈ arms, (arm.1.replace ρ).resolve outer = arm.1.resolve inner ∧
      (arm.2.replace ρ).resolve outer = arm.2.resolve inner) :
    resolveArms outer (replaceArms ρ arms) = resolveArms inner arms := by
  rw [replaceArms_eq_map, resolveArms_eq_mapM, resolveArms_eq_mapM, List.mapM_map]
  refine mapM_congr fun arm harm => ?_
  rw [Function.comp_apply, resolveArm, resolveArm, (h arm harm).1, (h arm harm).2]

/-- A list of subscripts is constant after the replacement exactly if it was before, so the segment
becomes the same text or keeps the same accesses. -/
theorem resolveSegments_replace (hs : ρ.Binds inner outer) {segments : List (Segment Expr)}
    (h : Segment.Each (fun e => (e.replace ρ).resolve outer = e.resolve inner) segments) :
    resolveSegments outer (replaceSegments ρ segments) = resolveSegments inner segments := by
  rw [replaceSegments_eq_map, resolveSegments_eq_mapM, resolveSegments_eq_mapM, List.mapM_map]
  refine mapM_congr fun segment hm => ?_
  rw [Function.comp_apply, Segment.resolve, Segment.resolve, Segment.replace]
  simp only [values?_replace hs, resolveAll_replace (h segment hm)]

/-- In the scope that binds the iterator an expression resolves to what the replaced expression resolves
to in the scope around it, or both fail at the same literal. -/
theorem Expr.resolve_replace (h : ρ.Binds inner outer) (e : Expr) :
    (e.replace ρ).resolve outer = e.resolve inner := by
  induction e using Expr.induct with
  | chain first rest line ihf ihr =>
    rw [Expr.replace, Expr.resolve, Expr.resolve, ihf]
    simp only [resolveChain_replace ihr]
  | unary op operand line ih => rw [Expr.replace, Expr.resolve, Expr.resolve, ih]
  | conditional condition value elseIfs otherwise line ihc ihv iha iho =>
    rw [Expr.replace, Expr.resolve, Expr.resolve, ihc, ihv, iho, resolveArms_replace iha]
  | paren inner line ih => exact ih
  | array elements text line ih =>
    rw [Expr.replace, Expr.resolve, Expr.resolve, resolveAll_replace ih]
  | size isState segments accessLine dimension line ihs ihd =>
    rw [Expr.replace, Expr.resolve, Expr.resolve, resolveSegments_replace h ihs, ihd]
  | call name args line ih =>
    rw [Expr.replace, Expr.resolve, Expr.resolve, resolveAll_replace ih]
  | literal => rfl
  | access isState segments line ih =>
    rw [Expr.replace, Expr.resolve]
    by_cases hb : Access.bareName? ⟨isState, segments, line⟩ = some ρ.iterator
    · have hfits : ¬ (PrimitiveType.integer = .integer ∧
          word? (decimal (toString ρ.value)) = none) := by
        intro hf
        rw [ρ.word?_literal] at hf
        cases hf.2
      rw [if_pos hb, h.iteratorValue?_of_eq hb, Expr.resolve, if_neg hfits]
      rfl
    · rw [if_neg hb, Expr.resolve, h.iteratorValue?_of_ne hb, resolveSegments_replace h ih]

theorem Access.resolve_replace (h : ρ.Binds inner outer) (access : Access Expr) :
    (access.replace ρ).resolve outer = access.resolve inner := by
  have hs : Segment.Each (fun e => (e.replace ρ).resolve outer = e.resolve inner)
      access.segments := fun _ _ e _ => e.resolve_replace h
  rw [Access.resolve, Access.resolve, Access.replace]
  simp only [resolveSegments_replace h hs]

theorem Call.resolve_replace (h : ρ.Binds inner outer) (call : Call Expr) :
    (call.replace ρ).resolve outer = call.resolve inner := by
  rw [Call.resolve, Call.resolve, Call.replace]
  simp only [resolveAll_replace fun e _ => e.resolve_replace h]

end GalecAudit.Source
