import GalecAudit.Proofs.Source.Recording
import GalecAudit.Proofs.Source.Replacement

/-!
# Unrolling as replacement

One iteration of a loop does what its body does after the iterator has been replaced by its value. The
replacement keeps away from the targets of statements and from the bodies of loops that bind the iterator
again.
-/
namespace GalecAudit.Source

def Condition.replace (ρ : Replacement) : Condition → Condition
  | .expression e => .expression (e.replace ρ)
  | .signal name negated members fallback line =>
    .signal name negated members (fallback.map (Expr.replace ρ)) line

def Bounds.replace (ρ : Replacement) (bounds : Bounds) : Bounds :=
  { start := bounds.start.replace ρ
    step := bounds.step.map (Expr.replace ρ)
    stop := bounds.stop.replace ρ }

mutual

def Statement.replace (ρ : Replacement) : Statement → Statement
  | .assign target value line => .assign (target.replace ρ) (value.replace ρ) line
  | .assignMany targets call line =>
    .assignMany (targets.map (Access.replace ρ)) (call.replace ρ) line
  | .call call line => .call (call.replace ρ) line
  | .branch arms otherwise => .branch (replaceBranches ρ arms) (replaceBody ρ otherwise)
  | .loop iterator bounds header body line =>
    -- the bounds stand outside of the loop, so they refer to the outer iterator in either case
    if iterator = some ρ.iterator then
      .loop iterator (bounds.replace ρ) (ρ.retext header) body line
    else .loop iterator (bounds.replace ρ) (ρ.retext header) (replaceBody ρ body) line
  | .signal names line => .signal names line
  | .limit targets line => .limit (targets.map (Access.replace ρ)) line

def replaceBody (ρ : Replacement) : List Statement → List Statement
  | [] => []
  | s :: rest => s.replace ρ :: replaceBody ρ rest

def replaceBranches (ρ : Replacement) :
    List (Condition × List Statement) → List (Condition × List Statement)
  | [] => []
  | (condition, body) :: rest =>
    (condition.replace ρ, replaceBody ρ body) :: replaceBranches ρ rest

end

/-- Replacing `i` in `for i in 1:i loop y[i] := i; end for` changes the bound only. -/
example (line : Nat) (body : List Statement) :
    let i : Expr := .access ⟨false, [⟨"i", []⟩], line⟩
    let one : Expr := .literal .integer "1" line
    let ρ : Replacement := ⟨"i", 4, by decide, id⟩
    (Statement.loop (some "i") ⟨one, none, i⟩ "i in 1:i" body line).replace ρ =
      .loop (some "i") ⟨one, none, .literal .integer "4" line⟩ "i in 1:i" body line := by
  rfl

variable {ρ : Replacement} {inner outer : LoopScope}

theorem replaceBody_eq_map (ρ : Replacement) (body : List Statement) :
    replaceBody ρ body = body.map (Statement.replace ρ) := by
  induction body with
  | nil => rfl
  | cons s rest ih => rw [replaceBody, List.map_cons, ih]

theorem Expr.line_replace (e : Expr) : (e.replace ρ).line = e.line := by
  rcases e with _ | _ | _ | _ | _ | ⟨⟨_, _, _⟩, _, _⟩ | ⟨_, _, _⟩ | _ | ⟨isState, segments, line⟩
  all_goals try rfl
  rw [Expr.replace]
  split <;> rfl

/-- Whether an expression is an array constructor does not depend on the replacement. -/
theorem Expr.elements?_replace (e : Expr) :
    (e.replace ρ).elements? = e.elements?.map (replaceAll ρ) := by
  induction e using Expr.induct with
  | chain first rest line ihf =>
    cases rest with
    | nil => exact ihf
    | cons p rest => rfl
  | paren inner line ih => exact ih
  | access isState segments line =>
    rw [Expr.replace]
    split <;> rfl
  | unary | conditional | array | size | call | literal => rfl

theorem Bounds.values?_replace (h : ρ.Binds inner outer) (bounds : Bounds) :
    (bounds.replace ρ).values? outer = bounds.values? inner := by
  obtain ⟨start, step, stop⟩ := bounds
  unfold Bounds.values? Bounds.replace
  cases step with
  | none => simp only [Option.map_none, Expr.value?_replace h]
  | some step => simp only [Option.map_some, Expr.value?_replace h]

theorem bindElement_replace (h : ρ.Binds inner outer) (target : Reference) (e : Expr) :
    SameRecord (bindElement outer target (e.replace ρ)) (bindElement inner target e) := by
  unfold bindElement
  rw [e.resolve_replace h, e.line_replace]
  cases e.resolve inner with
  | error => exact .refl _
  | ok value => exact .issues (.refl (.ok [.bind target value e.line])) _ _

theorem effectsByPosition_replace {elements : List Expr}
    {f g : Nat → Expr → Except InvalidLiteral (List Effect)}
    (h : ∀ position e, SameRecord (f position (e.replace ρ)) (g position e)) :
    SameRecord (effectsByPosition (replaceAll ρ elements) f) (effectsByPosition elements g) := by
  unfold effectsByPosition
  rw [replaceAll_eq_map, List.zipIdx_map, List.mapM_map, bind_pure_comp, bind_pure_comp]
  exact .flatten fun p _ => h p.2 p.1

theorem bindElements_replace (h : ρ.Binds inner outer) (depth : Nat) (target : Reference)
    (elements : List Expr) :
    SameRecord (bindElements outer depth target (replaceAll ρ elements))
      (bindElements inner depth target elements) := by
  induction depth generalizing target elements with
  | zero =>
    rw [bindElements, bindElements]
    refine effectsByPosition_replace fun position e => ?_
    rw [e.elements?_replace]
    cases e.elements? with
    | none => exact bindElement_replace h _ e
    | some nested =>
      rw [e.line_replace]
      exact .refl _
  | succ depth ih =>
    rw [bindElements, bindElements]
    refine effectsByPosition_replace fun position e => ?_
    rw [e.elements?_replace]
    cases e.elements? with
    | none => exact bindElement_replace h _ e
    | some nested => exact ih _ nested

theorem Condition.effects_replace (h : ρ.Binds inner outer) (c : Condition) :
    SameRecord ((c.replace ρ).effects outer) (c.effects inner) := by
  rcases c with e | ⟨name, negated, members, _ | e, line⟩
  · rw [Condition.replace, Condition.effects, Condition.effects, e.resolve_replace h,
      e.line_replace]
    cases e.resolve inner with
    | error => exact .refl _
    | ok value => exact .issues (.refl (.ok [.condition (.expression value e.line)])) _ _
  · exact .refl _
  · rw [Condition.replace, Option.map_some, Condition.effects, Condition.effects,
      e.resolve_replace h]
    cases e.resolve inner with
    | error => exact .refl _
    | ok value =>
      exact .issues (.refl (.ok [.condition (.signal name negated members (some value) line)])) _ _

theorem targets_replace (h : ρ.Binds inner outer) (targets : List (Access Expr)) :
    (targets.map (Access.replace ρ)).mapM (Access.resolve outer) =
      targets.mapM (Access.resolve inner) := by
  rw [List.mapM_map]
  exact mapM_congr fun t _ => t.resolve_replace h

theorem listEffects_replace {body : List Statement}
    (h : ∀ s ∈ body, SameRecord ((s.replace ρ).effects outer) (s.effects inner)) :
    SameRecord (listEffects outer (replaceBody ρ body)) (listEffects inner body) := by
  rw [replaceBody_eq_map, listEffects_eq_mapM, listEffects_eq_mapM, List.mapM_map]
  exact .flatten h

theorem armEffects_replace (hs : ρ.Binds inner outer) {arms : List (Condition × List Statement)}
    (h : ∀ arm ∈ arms,
      SameRecord (listEffects outer (replaceBody ρ arm.2)) (listEffects inner arm.2)) :
    SameRecord (armEffects outer (replaceBranches ρ arms)) (armEffects inner arms) := by
  induction arms with
  | nil => exact .refl _
  | cons arm rest ih =>
    have hc := Condition.effects_replace hs arm.1
    have hb := h arm List.mem_cons_self
    have hr := ih fun p hp => h p (List.mem_cons_of_mem arm hp)
    rw [replaceBranches, armEffects, armEffects]
    simpa only [bind_assoc, pure_bind] using (hc.append hb).append hr

/-- The effects of one iteration, whether or not the loop binds the replaced iterator again. -/
theorem iteration_replace (h : ρ.Binds inner outer) {iterator : Option String}
    {body : List Statement} (v : Int)
    (ih : ∀ s ∈ body, ∀ {inner outer : LoopScope}, ρ.Binds inner outer →
      SameRecord ((s.replace ρ).effects outer) (s.effects inner)) :
    SameRecord
      (listEffects (outer.enter iterator v)
        (if iterator = some ρ.iterator then body else replaceBody ρ body))
      (listEffects (inner.enter iterator v) body) := by
  by_cases hi : iterator = some ρ.iterator
  · rw [if_pos hi, hi]
    exact .of_eq (listEffects_congr fun s _ => (s.effects_congr (h.agree v)).symm)
  · rw [if_neg hi]
    exact listEffects_replace fun s hs => ih s hs (h.enter hi v)

/-- In a scope that binds the iterator a statement has the effects, up to issues, of the replaced
statement in the scope around it. -/
theorem Statement.effects_replace (h : ρ.Binds inner outer) (s : Statement) :
    SameRecord ((s.replace ρ).effects outer) (s.effects inner) := by
  induction s using Statement.induct generalizing inner outer with
  | assign target value line =>
    rw [Statement.replace, Statement.effects, Statement.effects, target.resolve_replace h,
      value.elements?_replace, value.resolve_replace h]
    cases target.resolve inner with
    | error => exact .refl _
    | ok reference =>
      cases value.elements? with
      | some elements => exact .issues (bindElements_replace h 1 reference elements) _ _
      | none =>
        cases value.resolve inner with
        | error => exact .refl _
        | ok resolved =>
          have hb := SameRecord.refl (.ok [.bind reference resolved line])
          exact .issues (hb.issues _ _) _ _
  | assignMany targets call line =>
    rw [Statement.replace, Statement.effects, Statement.effects, targets_replace h,
      call.resolve_replace h]
    cases targets.mapM (Access.resolve inner) with
    | error => exact .refl _
    | ok references =>
      cases call.resolve inner with
      | error => exact .refl _
      | ok resolved => exact .issues (.refl (.ok [.call ⟨references, resolved, line⟩])) _ _
  | call call line =>
    rw [Statement.replace, Statement.effects, Statement.effects, call.resolve_replace h]
    cases call.resolve inner with
    | error => exact .refl _
    | ok resolved => exact .issues (.refl (.ok [.call ⟨[], resolved, line⟩])) _ _
  | branch arms otherwise iha iho =>
    rw [Statement.replace, Statement.effects, Statement.effects]
    have ha := armEffects_replace h fun arm harm =>
      listEffects_replace fun s hs => iha arm harm s hs h
    exact ha.append (listEffects_replace fun s hs => iho s hs h)
  | loop iterator bounds header body line ih =>
    have hl : (Statement.loop iterator bounds header body line).replace ρ =
        .loop iterator (bounds.replace ρ) (ρ.retext header)
          (if iterator = some ρ.iterator then body else replaceBody ρ body) line := by
      rw [Statement.replace]
      split <;> rfl
    rw [hl, Statement.effects, Statement.effects, bounds.values?_replace h]
    rcases bounds.values? inner with _ | ⟨start, step, stop⟩
    -- the text of the header is all that differs in the issue about the bounds
    · exact .refl (.ok [])
    · dsimp only
      split
      · exact .refl _
      · split
        · exact .refl _
        · rw [bind_pure_comp, bind_pure_comp]
          exact .flatten fun v _ => iteration_replace h v ih
  | signal => exact .refl _
  | limit targets line =>
    rw [Statement.replace, Statement.effects, Statement.effects, targets_replace h]
    cases targets.mapM (Access.resolve inner) with
    | error => exact .refl _
    | ok references => exact .issues (.refl (.ok [.limit ⟨references, line⟩])) _ _

/-- Unrolling is replacement: building a statement in a scope that binds an iterator records the same in
the routine, with the same numbers and lines, or fails at the same literal, as building the statement with
the iterator replaced by its value in the scope without it. -/
theorem Statement.build_replace (ρ : Replacement) (scope : LoopScope) (s : Statement)
    (routine : GalecAudit.Routine) :
    s.build ((ρ.iterator, (ρ.value : Int)) :: scope) routine =
      (s.replace ρ).build scope routine := by
  unfold Statement.build
  rw [bind_pure_comp, bind_pure_comp]
  exact ((s.effects_replace (ρ.binds_cons scope)).foldl_eq routine).symm

end GalecAudit.Source
