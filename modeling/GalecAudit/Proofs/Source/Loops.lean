import GalecAudit.Proofs.Source.Iteration
import GalecAudit.Proofs.Source.Recording

/-!
# Effects of a loop

What a loop with constant bounds does: it builds its body once for each of its integers, or it is refused
with a single warning.
-/
namespace GalecAudit.Source

/-- The warning about a loop that is not unrolled, where `count` is the number of its integers. -/
def refusal (line : Nat) (step : Int) (count : Nat) : Diagnostic :=
  .warningAt .unsupportedConstruct line
    (if step = 0 then s!"The for loop on line {line} has a zero step"
      else s!"The for loop on line {line} runs {count} iterations, more than {maxIterations}")

section Loop

variable {scope : LoopScope} {iterator : Option String} {bounds : Bounds} {header : String}
  {body : List Statement} {line : Nat} {start step stop : Int}

/-- A loop that may run as often as it counts has the effects of its body, once for each of its integers
in their order. -/
theorem effects_loop_of_le (hvalues : bounds.values? scope = some (start, step, stop))
    (hstart : isWord start = true) (hstep : isWord step = true) (hstop : isWord stop = true)
    (hne : step ≠ 0) (hle : (iterates start step stop).ncard ≤ maxIterations) :
    (Statement.loop iterator bounds header body line).effects scope =
      List.flatten <$> (List.range (iterates start step stop).ncard).mapM fun k : Nat =>
        listEffects (scope.enter iterator (start + k * step)) body := by
  have hcount := iterationCount_eq_ncard hstart hstep hstop hne
  have hfew : ¬(maxIterations : Int) < iterationCount start step stop := by omega
  rw [Statement.effects, hvalues]
  simp only [if_neg hne, if_neg hfew]
  rw [iterationValues_eq hstart hstep hstop hne, List.mapM_map, bind_pure_comp]
  rfl

/-- A loop without a step, or with too many integers, has one effect: the warning about it. -/
theorem effects_loop_of_lt (hvalues : bounds.values? scope = some (start, step, stop))
    (hstart : isWord start = true) (hstep : isWord step = true) (hstop : isWord stop = true)
    (h : step = 0 ∨ maxIterations < (iterates start step stop).ncard) :
    (Statement.loop iterator bounds header body line).effects scope =
      .ok [.issue (refusal line step (iterates start step stop).ncard)] := by
  rw [Statement.effects, hvalues]
  by_cases hzero : step = 0
  · simp only [if_pos hzero, refusal]
    rfl
  · have hcount := iterationCount_eq_ncard hstart hstep hstop hzero
    have hmany : (maxIterations : Int) < iterationCount start step stop := by
      have := h.resolve_left hzero
      omega
    simp only [if_neg hzero, if_pos hmany, refusal]
    rw [hcount]
    rfl

/-- The body is built once for each integer of the loop, in their order. -/
theorem build_loop_of_le (hvalues : bounds.values? scope = some (start, step, stop))
    (hstart : isWord start = true) (hstep : isWord step = true) (hstop : isWord stop = true)
    (hne : step ≠ 0) (hle : (iterates start step stop).ncard ≤ maxIterations)
    (routine : GalecAudit.Routine) :
    (Statement.loop iterator bounds header body line).build scope routine =
      (List.range (iterates start step stop).ncard).foldlM (fun routine (k : Nat) =>
        body.foldlM (fun routine s =>
          s.build (scope.enter iterator (start + k * step)) routine) routine) routine := by
  rw [Statement.build, effects_loop_of_le hvalues hstart hstep hstop hne hle, bind_pure_comp]
  simp only [foldlM_build]
  exact foldlM_record _ _ _

theorem build_loop_of_lt (hvalues : bounds.values? scope = some (start, step, stop))
    (hstart : isWord start = true) (hstep : isWord step = true) (hstop : isWord stop = true)
    (h : step = 0 ∨ maxIterations < (iterates start step stop).ncard)
    (routine : GalecAudit.Routine) :
    (Statement.loop iterator bounds header body line).build scope routine = .ok routine := by
  rw [Statement.build, effects_loop_of_lt hvalues hstart hstep hstop h]
  rfl

end Loop

end GalecAudit.Source
