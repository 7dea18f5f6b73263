import GalecAudit.Proofs.Source.Words

/-!
# Integer literals of source trees

An expression resolves unless one of its integer literals is no 64-bit integer; then the first of them is
the error. This includes subscripts, which are evaluated before they are resolved: where their value
overflows they have none, but they resolve all the same.
-/
namespace GalecAudit.Source

/-- An integer literal and its line. -/
structure Numeral where
  text : String
  line : Nat
deriving DecidableEq, Repr, Inhabited

/-- The literal is a 64-bit integer. -/
def Numeral.InRange (n : Numeral) : Prop := decimal n.text ≤ 9223372036854775807

instance (n : Numeral) : Decidable n.InRange := inferInstanceAs (Decidable (_ ≤ _))

theorem Numeral.word?_eq_none_iff (n : Numeral) : word? (decimal n.text) = none ↔ ¬ n.InRange := by
  rw [Numeral.InRange, word?]
  split
  · next h => exact iff_of_false (Option.some_ne_none _) (by rw [isWord_iff] at h; omega)
  · next h => exact iff_of_true rfl (by rw [isWord_iff] at h; omega)

section Trees

mutual

/-- The integer literals of an expression, from left to right. -/
def Expr.numerals : Expr → List Numeral
  | .chain first rest _ => first.numerals ++ chainNumerals rest
  | .unary _ operand _ => operand.numerals
  | .conditional condition value elseIfs otherwise _ =>
    condition.numerals ++ value.numerals ++ armNumerals elseIfs ++ otherwise.numerals
  | .paren inner _ => inner.numerals
  | .array elements _ _ => listNumerals elements
  | .size ⟨_, segments, _⟩ dimension _ => segmentNumerals segments ++ dimension.numerals
  | .call ⟨_, args, _⟩ => listNumerals args
  | .literal type text line => if type = .integer then [⟨text, line⟩] else []
  | .access ⟨_, segments, _⟩ => segmentNumerals segments

def chainNumerals : List (BinaryOperator × Expr) → List Numeral
  | [] => []
  | (_, operand) :: rest => operand.numerals ++ chainNumerals rest

def listNumerals : List Expr → List Numeral
  | [] => []
  | e :: rest => e.numerals ++ listNumerals rest

def armNumerals : List (Expr × Expr) → List Numeral
  | [] => []
  | (condition, value) :: rest => condition.numerals ++ value.numerals ++ armNumerals rest

def segmentNumerals : List (Segment Expr) → List Numeral
  | [] => []
  | ⟨_, subscripts⟩ :: rest => listNumerals subscripts ++ segmentNumerals rest

end

theorem chainNumerals_eq_flatMap (rest : List (BinaryOperator × Expr)) :
    chainNumerals rest = rest.flatMap fun p => p.2.numerals := by
  induction rest with
  | nil => rfl
  | cons p rest ih => rw [chainNumerals, List.flatMap_cons, ih]

theorem listNumerals_eq_flatMap (es : List Expr) : listNumerals es = es.flatMap Expr.numerals := by
  induction es with
  | nil => rfl
  | cons e rest ih => rw [listNumerals, List.flatMap_cons, ih]

theorem armNumerals_eq_flatMap (arms : List (Expr × Expr)) :
    armNumerals arms = arms.flatMap fun arm => arm.1.numerals ++ arm.2.numerals := by
  induction arms with
  | nil => rfl
  | cons arm rest ih => rw [armNumerals, List.flatMap_cons, ih]

def Segment.numerals (segment : Segment Expr) : List Numeral :=
  segment.subscripts.flatMap Expr.numerals

theorem segmentNumerals_eq_flatMap (segments : List (Segment Expr)) :
    segmentNumerals segments = segments.flatMap Segment.numerals := by
  induction segments with
  | nil => rfl
  | cons segment rest ih =>
    rw [segmentNumerals, List.flatMap_cons, ih, listNumerals_eq_flatMap, Segment.numerals]

/-- The integer literals in the subscripts of an access. -/
def Access.numerals (access : Access Expr) : List Numeral := access.segments.flatMap Segment.numerals

theorem Expr.numerals_access (access : Access Expr) : (Expr.access access).numerals = access.numerals :=
  segmentNumerals_eq_flatMap access.segments

theorem Expr.numerals_size (array : Access Expr) (dimension : Expr) (line : Nat) :
    (Expr.size array dimension line).numerals = array.numerals ++ dimension.numerals :=
  congrArg (· ++ dimension.numerals) (segmentNumerals_eq_flatMap array.segments)

theorem Expr.numerals_call (call : Call Expr) :
    (Expr.call call).numerals = call.args.flatMap Expr.numerals :=
  listNumerals_eq_flatMap call.args

end Trees

section Values

variable {scope : LoopScope}

theorem segmentNumerals_of_iteratorValue? {isState : Bool} {segments : List (Segment Expr)}
    {line : Nat} {v : Int} (h : Access.iteratorValue? scope ⟨isState, segments, line⟩ = some v) :
    segmentNumerals segments = [] := by
  -- an iterator is a name without subscripts
  obtain ⟨name, hname, -⟩ := Option.bind_eq_some_iff.1 h
  rw [Access.bareName?.eq_def] at hname
  split at hname
  · next heq =>
    cases heq
    rfl
  · cases hname

theorem inRange_of_chainValue? {rest : List (BinaryOperator × Expr)}
    (ih : ∀ p ∈ rest, ∀ {v : Int}, p.2.value? scope = some v → ∀ n ∈ p.2.numerals, n.InRange)
    {left v : Int} (h : chainValue? scope left rest = some v) :
    ∀ n ∈ chainNumerals rest, n.InRange := by
  rw [chainNumerals_eq_flatMap, List.forall_mem_flatMap]
  intro p hp
  obtain ⟨b, hb⟩ := Option.isSome_iff_exists.1 (chainValue?_isSome h p hp)
  exact ih p hp hb

/-- An expression with a value has literals in range only. -/
theorem Expr.inRange_of_value? {e : Expr} {v : Int} (h : e.value? scope = some v) :
    ∀ n ∈ e.numerals, n.InRange := by
  induction e using Expr.induct generalizing v with
  | chain first rest line ihf ihr =>
    rw [Expr.value?] at h
    split at h
    · next hfirst =>
      rw [Expr.numerals]
      exact List.forall_mem_append.2 ⟨ihf hfirst, inRange_of_chainValue? ihr h⟩
    · cases h
  | unary op operand line ih =>
    cases op with
    | not => cases h
    | negate =>
      rw [Expr.value?] at h
      split at h
      · next hv => exact ih hv
      · cases h
  | paren inner line ih => exact ih h
  | literal type text line =>
    cases type with
    | integer =>
      have hword : word? (decimal text) = some v := h
      refine List.forall_mem_singleton.2 (Decidable.not_not.1 fun hout => ?_)
      rw [(Numeral.word?_eq_none_iff _).2 hout] at hword
      cases hword
    | boolean | real => cases h
  | access isState segments line =>
    rw [Expr.numerals, segmentNumerals_of_iteratorValue? h]
    exact List.forall_mem_nil _
  | conditional | array | size | call => cases h

theorem inRange_of_values? {es : List Expr} {values : List Int} (h : values? scope es = some values) :
    ∀ n ∈ es.flatMap Expr.numerals, n.InRange := by
  induction values?_eq_some_iff.1 h with
  | nil => exact List.forall_mem_nil _
  | @cons e _ _ _ hfirst hrest ih =>
    rw [List.flatMap_cons]
    exact List.forall_mem_append.2 ⟨e.inRange_of_value? hfirst, ih (values?_eq_some_iff.2 hrest)⟩

end Values

section Checks

variable {α β : Type} {ns ms : List Numeral} {x : Except InvalidLiteral α}

/-- A step fails at the first of some literals that is out of range. Where there is none it succeeds. -/
def Checks (ns : List Numeral) (x : Except InvalidLiteral α) : Prop :=
  match ns.find? fun n => ¬ n.InRange with
  | none => ∃ a, x = .ok a
  | some n => x = .error ⟨n.text, n.line⟩

theorem checks_ok (h : ∀ n ∈ ns, n.InRange) (a : α) : Checks ns (.ok a) := by
  have hnone : ns.find? (fun n => ¬ n.InRange) = none :=
    List.find?_eq_none.2 fun n hn => by simpa using h n hn
  rw [Checks, hnone]
  exact ⟨a, rfl⟩

theorem checks_nil (a : α) : Checks [] (.ok a) := ⟨a, rfl⟩

theorem checks_error {n : Numeral} (hn : ¬ n.InRange) :
    Checks [n] (.error ⟨n.text, n.line⟩ : Except InvalidLiteral α) := by
  rw [Checks, List.find?_cons_of_pos (by simpa using hn)]

theorem Checks.bind {f : α → Except InvalidLiteral β} (hx : Checks ns x) (hf : ∀ a, Checks ms (f a)) :
    Checks (ns ++ ms) (x >>= f) := by
  rw [Checks, List.find?_append]
  rw [Checks] at hx
  cases hfound : ns.find? fun n => ¬ n.InRange with
  | none =>
    rw [hfound] at hx
    obtain ⟨a, rfl⟩ := hx
    exact hf a
  | some n =>
    rw [hfound] at hx
    cases hx
    rfl

theorem Checks.map (f : α → β) (hx : Checks ns x) : Checks ns (f <$> x) := by
  have h := hx.bind (f := fun a => pure (f a)) fun a => checks_nil (f a)
  rwa [List.append_nil, bind_pure_comp] at h

theorem checks_mapM {f : α → Except InvalidLiteral β} {numerals : α → List Numeral} {l : List α}
    (h : ∀ a ∈ l, Checks (numerals a) (f a)) : Checks (l.flatMap numerals) (l.mapM f) := by
  induction l with
  | nil => exact checks_nil []
  | cons a rest ih =>
    obtain ⟨ha, hrest⟩ := List.forall_mem_cons.1 h
    rw [List.mapM_cons, List.flatMap_cons]
    exact ha.bind fun b => (ih hrest).map (b :: ·)

theorem Checks.exists_ok_iff (h : Checks ns x) : (∃ a, x = .ok a) ↔ ∀ n ∈ ns, n.InRange := by
  rw [Checks] at h
  split at h
  · next hnone =>
    refine iff_of_true h fun n hn => ?_
    simpa using List.find?_eq_none.1 hnone n hn
  · next n hsome =>
    subst h
    have hout : ¬ n.InRange := by simpa using List.find?_some hsome
    exact iff_of_false nofun fun hall => hout (hall n (List.mem_of_find?_eq_some hsome))

theorem Checks.eq_error {before after : List Numeral} {n : Numeral}
    (h : Checks (before ++ n :: after) x) (hbefore : ∀ m ∈ before, m.InRange) (hn : ¬ n.InRange) :
    x = .error ⟨n.text, n.line⟩ := by
  have hfound : (before ++ n :: after).find? (fun n => ¬ n.InRange) = some n :=
    List.find?_eq_some_iff_append.2
      ⟨by simpa using hn, before, after, rfl, fun m hm => by simpa using hbefore m hm⟩
  rwa [Checks, hfound] at h

end Checks

section Resolution

variable {scope : LoopScope}

theorem checks_resolveAll {es : List Expr} (h : ∀ e ∈ es, Checks e.numerals (e.resolve scope)) :
    Checks (es.flatMap Expr.numerals) (resolveAll scope es) := by
  rw [resolveAll_eq_mapM]
  exact checks_mapM h

/-- Subscripts with values are in range as they are; the others are resolved one by one. -/
theorem checks_resolveSegments {segments : List (Segment Expr)}
    (h : Segment.Each (fun e => Checks e.numerals (e.resolve scope)) segments) :
    Checks (segments.flatMap Segment.numerals) (resolveSegments scope segments) := by
  rw [resolveSegments_eq_mapM]
  refine checks_mapM fun segment hsegment => ?_
  rw [Segment.resolve]
  split
  · next hv => exact checks_ok (inRange_of_values? hv) _
  · next hv => exact checks_ok (inRange_of_values? hv) _
  · exact (checks_resolveAll (h segment hsegment)).map _

/-- Integer literals out of range are all that keeps an expression from being resolved. -/
theorem Expr.checks_resolve (e : Expr) : Checks e.numerals (e.resolve scope) := by
  induction e using Expr.induct with
  | chain first rest line ihf ihr =>
    have hchain (left : Expression) : Checks (chainNumerals rest) (resolveChain scope line left rest) := by
      induction rest generalizing left with
      | nil => exact checks_nil left
      | cons p rest ih =>
        obtain ⟨hp, hrest⟩ := List.forall_mem_cons.1 ihr
        exact hp.bind fun right => ih hrest (.binary left p.1 right line)
    exact ihf.bind hchain
  | unary op operand line ih => exact ih.map _
  | conditional condition value elseIfs otherwise line ihc ihv iha iho =>
    have harms : Checks (armNumerals elseIfs) (resolveArms scope elseIfs) := by
      rw [armNumerals_eq_flatMap, resolveArms_eq_mapM]
      exact checks_mapM fun arm harm => (iha arm harm).1.bind fun c => (iha arm harm).2.map _
    rw [Expr.numerals, Expr.resolve, List.append_assoc, List.append_assoc]
    exact ihc.bind fun c => ihv.bind fun v => harms.bind fun arms => iho.map _
  | paren inner line ih => exact ih
  | array elements text line ih =>
    rw [Expr.numerals, listNumerals_eq_flatMap]
    exact (checks_resolveAll ih).map _
  | size isState segments accessLine dimension line ihs ihd =>
    rw [Expr.numerals, segmentNumerals_eq_flatMap]
    exact (checks_resolveSegments ihs).bind fun parts => ihd.map _
  | call name args line ih =>
    rw [Expr.numerals, listNumerals_eq_flatMap]
    exact (checks_resolveAll ih).map _
  | literal type text line =>
    rw [Expr.numerals, Expr.resolve]
    by_cases htype : type = .integer
    · rw [if_pos htype]
      have hword := Numeral.word?_eq_none_iff ⟨text, line⟩
      split
      · next h => exact checks_error (hword.1 h.2)
      · next h =>
        have hin := Decidable.not_not.1 fun hout => h ⟨htype, hword.2 hout⟩
        exact checks_ok (List.forall_mem_singleton.2 hin) _
    · rw [if_neg htype, if_neg fun h => htype h.1]
      exact checks_nil _
  | access isState segments line ih =>
    rw [Expr.numerals, Expr.resolve]
    split
    · next hv =>
      rw [segmentNumerals_of_iteratorValue? hv]
      exact checks_nil _
    · rw [segmentNumerals_eq_flatMap]
      exact (checks_resolveSegments ih).map _

end Resolution

end GalecAudit.Source
