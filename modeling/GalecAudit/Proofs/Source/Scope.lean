import GalecAudit.Proofs.Source.Induction

/-!
# Scopes that agree

What a statement does depends only on the values that the scope gives to names, so a pair behind another
pair of the same name makes no difference.
-/
namespace GalecAudit.Source

/-- Two scopes give every name the same value, or both give it none. -/
def LoopScope.Agree (a b : LoopScope) : Prop :=
  ∀ name, List.lookup name a = List.lookup name b

variable {a b : LoopScope}

theorem LoopScope.lookup_cons (scope : LoopScope) (name other : String) (v : Int) :
    List.lookup name ((other, v) :: scope) =
      if name = other then some v else List.lookup name scope := by
  rw [List.lookup_cons]
  by_cases h : name = other
  · simp [h]
  · rw [if_neg h, beq_eq_false_iff_ne.2 h]

theorem LoopScope.Agree.cons (h : a.Agree b) (name : String) (v : Int) :
    LoopScope.Agree ((name, v) :: a) ((name, v) :: b) := by
  intro other
  rw [LoopScope.lookup_cons, LoopScope.lookup_cons, h other]

theorem LoopScope.Agree.enter (h : a.Agree b) (iterator : Option String) (v : Int) :
    (a.enter iterator v).Agree (b.enter iterator v) := by
  cases iterator with
  | none => exact h
  | some name => exact h.cons name v

theorem LoopScope.Agree.iteratorValue? (h : a.Agree b) (access : Access Expr) :
    access.iteratorValue? a = access.iteratorValue? b := by
  unfold Access.iteratorValue?
  congr 1
  funext name
  exact h name

theorem chainValue?_congr {rest : List (BinaryOperator × Expr)}
    (h : ∀ p ∈ rest, p.2.value? a = p.2.value? b) (left : Int) :
    chainValue? a left rest = chainValue? b left rest := by
  have hm := chainValue?_map (f := id) h left
  simpa using hm

theorem Expr.value?_congr (h : a.Agree b) (e : Expr) : e.value? a = e.value? b := by
  induction e using Expr.induct with
  | chain first rest line ihf ihr =>
    rw [Expr.value?, Expr.value?, ihf]
    simp only [chainValue?_congr ihr]
  | unary op operand line ih => cases op <;> simp only [Expr.value?, ih]
  | conditional => rfl
  | paren inner line ih => exact ih
  | array => rfl
  | size => rfl
  | call => rfl
  | literal type text line => cases type <;> rfl
  | access isState segments line => exact h.iteratorValue? _

theorem values?_congr (h : a.Agree b) (es : List Expr) : values? a es = values? b es :=
  mapM_congr fun e _ => e.value?_congr h

theorem resolveChain_congr {rest : List (BinaryOperator × Expr)}
    (h : ∀ p ∈ rest, p.2.resolve a = p.2.resolve b) (line : Nat) (left : Expression) :
    resolveChain a line left rest = resolveChain b line left rest := by
  have hm := resolveChain_map (f := id) h line left
  simpa using hm

theorem resolveAll_congr {es : List Expr} (h : ∀ e ∈ es, e.resolve a = e.resolve b) :
    resolveAll a es = resolveAll b es := by
  rw [resolveAll_eq_mapM, resolveAll_eq_mapM]
  exact mapM_congr h

theorem resolveArms_congr {arms : List (Expr × Expr)}
    (h : ∀ arm ∈ arms, arm.1.resolve a = arm.1.resolve b ∧ arm.2.resolve a = arm.2.resolve b) :
    resolveArms a arms = resolveArms b arms := by
  rw [resolveArms_eq_mapM, resolveArms_eq_mapM]
  refine mapM_congr fun arm harm => ?_
  rw [resolveArm, resolveArm, (h arm harm).1, (h arm harm).2]

theorem resolveSegments_congr (hs : a.Agree b) {segments : List (Segment Expr)}
    (h : Segment.Each (fun e => e.resolve a = e.resolve b) segments) :
    resolveSegments a segments = resolveSegments b segments := by
  rw [resolveSegments_eq_mapM, resolveSegments_eq_mapM]
  refine mapM_congr fun segment hm => ?_
  rw [Segment.resolve, Segment.resolve, values?_congr hs, resolveAll_congr (h segment hm)]

theorem Expr.resolve_congr (h : a.Agree b) (e : Expr) : e.resolve a = e.resolve b := by
  induction e using Expr.induct with
  | chain first rest line ihf ihr =>
    rw [Expr.resolve, Expr.resolve, ihf]
    simp only [resolveChain_congr ihr]
  | unary op operand line ih => rw [Expr.resolve, Expr.resolve, ih]
  | conditional condition value elseIfs otherwise line ihc ihv iha iho =>
    rw [Expr.resolve, Expr.resolve, ihc, ihv, iho, resolveArms_congr iha]
  | paren inner line ih => exact ih
  | array elements text line ih => rw [Expr.resolve, Expr.resolve, resolveAll_congr ih]
  | size isState segments accessLine dimension line ihs ihd =>
    rw [Expr.resolve, Expr.resolve, resolveSegments_congr h ihs, ihd]
  | call name args line ih => rw [Expr.resolve, Expr.resolve, resolveAll_congr ih]
  | literal => rfl
  | access isState segments line ih =>
    rw [Expr.resolve, Expr.resolve, h.iteratorValue?, resolveSegments_congr h ih]

theorem Access.resolve_congr (h : a.Agree b) (access : Access Expr) :
    access.resolve a = access.resolve b := by
  have hs : Segment.Each (fun e => e.resolve a = e.resolve b) access.segments :=
    fun _ _ e _ => e.resolve_congr h
  rw [Access.resolve, Access.resolve, resolveSegments_congr h hs]

theorem Call.resolve_congr (h : a.Agree b) (call : Call Expr) :
    call.resolve a = call.resolve b := by
  rw [Call.resolve, Call.resolve, resolveAll_congr fun e _ => e.resolve_congr h]

theorem bindElements_congr (h : a.Agree b) (depth : Nat) (target : Reference)
    (elements : List Expr) :
    bindElements a depth target elements = bindElements b depth target elements := by
  have hb (target : Reference) (e : Expr) : bindElement a target e = bindElement b target e := by
    rw [bindElement, bindElement, e.resolve_congr h]
  induction depth generalizing target elements with
  | zero => simp only [bindElements, hb]
  | succ depth ih => simp only [bindElements, hb, ih]

theorem Bounds.values?_congr (h : a.Agree b) (bounds : Bounds) :
    bounds.values? a = bounds.values? b := by
  unfold Bounds.values?
  simp only [Expr.value?_congr h]

theorem Condition.effects_congr (h : a.Agree b) (c : Condition) :
    c.effects a = c.effects b := by
  rcases c with e | ⟨name, negated, members, fallback, line⟩
  · rw [Condition.effects, Condition.effects, e.resolve_congr h]
  · cases fallback with
    | none => rfl
    | some e => rw [Condition.effects, Condition.effects, e.resolve_congr h]

theorem armEffects_congr (hs : a.Agree b) {arms : List (Condition × List Statement)}
    (h : ∀ arm ∈ arms, listEffects a arm.2 = listEffects b arm.2) :
    armEffects a arms = armEffects b arms := by
  induction arms with
  | nil => rfl
  | cons arm rest ih =>
    have hr := ih fun p hp => h p (List.mem_cons_of_mem _ hp)
    rw [armEffects, armEffects, h arm List.mem_cons_self, hr, Condition.effects_congr hs]

theorem listEffects_congr {body : List Statement}
    (h : ∀ s ∈ body, s.effects a = s.effects b) : listEffects a body = listEffects b body := by
  rw [listEffects_eq_mapM, listEffects_eq_mapM, mapM_congr h]

/-- A statement has the same effects in scopes that agree. -/
theorem Statement.effects_congr (h : a.Agree b) (s : Statement) : s.effects a = s.effects b := by
  induction s using Statement.induct generalizing a b with
  | assign target value line =>
    rw [Statement.effects, Statement.effects, target.resolve_congr h, value.resolve_congr h]
    simp only [bindElements_congr h]
  | assignMany targets call line =>
    rw [Statement.effects, Statement.effects, call.resolve_congr h,
      mapM_congr fun t _ => t.resolve_congr h]
  | call call line => rw [Statement.effects, Statement.effects, call.resolve_congr h]
  | branch arms otherwise iha iho =>
    have ha := armEffects_congr h fun arm harm =>
      listEffects_congr fun s hs => iha arm harm s hs h
    rw [Statement.effects, Statement.effects, ha, listEffects_congr fun s hs => iho s hs h]
  | loop iterator bounds header body line ih =>
    have hb (v : Int) : listEffects (a.enter iterator v) body =
        listEffects (b.enter iterator v) body :=
      listEffects_congr fun s hs => ih s hs (h.enter iterator v)
    rw [Statement.effects, Statement.effects, bounds.values?_congr h]
    simp only [hb]
  | signal => rfl
  | limit targets line =>
    rw [Statement.effects, Statement.effects, mapM_congr fun t _ => t.resolve_congr h]

end GalecAudit.Source
