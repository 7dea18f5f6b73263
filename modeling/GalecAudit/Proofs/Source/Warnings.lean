import GalecAudit.Proofs.List.Distinct
import GalecAudit.Proofs.Source.Loops
import GalecAudit.Proofs.Source.Tables

/-!
# Warnings about loops

Every loop that is refused while a block is built has its warning among the issues of the block. Together
with the effects of a loop this settles what any loop does, whatever 64-bit integers its bounds are.
-/
namespace GalecAudit.Source

/-- Building the statements of a body in a scope builds the statement `s` in the scope `inner`: `s` is one
of them, or stands in a branch or in the body of a loop, where it is built for each integer of the loop. -/
inductive Builds (s : Statement) (inner : LoopScope) : List Statement → LoopScope → Prop
  | here {body} : s ∈ body → Builds s inner body inner
  | arm {body scope arms otherwise} {arm : Condition × List Statement} :
      .branch arms otherwise ∈ body → arm ∈ arms → Builds s inner arm.2 scope →
      Builds s inner body scope
  | otherwise {body scope arms otherwise} : .branch arms otherwise ∈ body →
      Builds s inner otherwise scope → Builds s inner body scope
  | iteration {body scope iterator bounds header inside line start step stop v} :
      .loop iterator bounds header inside line ∈ body →
      bounds.values? scope = some (start, step, stop) →
      (iterates start step stop).ncard ≤ maxIterations → v ∈ iterates start step stop →
      Builds s inner inside (scope.enter iterator v) → Builds s inner body scope

section Effects

variable {scope : LoopScope} {effects : List Effect}

/-- A row of effects holds those of each of its steps. -/
theorem exists_subset_of_flatten {α : Type} {f : α → Except InvalidLiteral (List Effect)} {l : List α}
    (h : List.flatten <$> l.mapM f = .ok effects) {a : α} (ha : a ∈ l) :
    ∃ part, f a = .ok part ∧ part ⊆ effects := by
  rw [← bind_pure_comp] at h
  obtain ⟨parts, hparts, h⟩ := bind_eq_ok_iff.1 h
  cases h
  obtain ⟨part, hpart, hf⟩ := exists_result_of_mapM hparts a ha
  exact ⟨part, hf, fun e he => List.mem_flatten.2 ⟨part, hpart, he⟩⟩

theorem exists_subset_of_listEffects {body : List Statement}
    (h : listEffects scope body = .ok effects) {s : Statement} (hs : s ∈ body) :
    ∃ part, s.effects scope = .ok part ∧ part ⊆ effects := by
  rw [listEffects_eq_mapM] at h
  exact exists_subset_of_flatten h hs

theorem exists_subset_of_armEffects {arms : List (Condition × List Statement)}
    (h : armEffects scope arms = .ok effects) {arm : Condition × List Statement} (ha : arm ∈ arms) :
    ∃ part, listEffects scope arm.2 = .ok part ∧ part ⊆ effects := by
  induction arms generalizing effects with
  | nil => cases ha
  | cons first rest ih =>
    rw [armEffects] at h
    obtain ⟨condition, -, h⟩ := bind_eq_ok_iff.1 h
    obtain ⟨body, hbody, h⟩ := bind_eq_ok_iff.1 h
    obtain ⟨others, hothers, h⟩ := bind_eq_ok_iff.1 h
    cases h
    rcases List.mem_cons.1 ha with rfl | ha
    · exact ⟨body, hbody, by simp⟩
    · obtain ⟨part, hpart, hsubset⟩ := ih hothers ha
      exact ⟨part, hpart, List.Subset.trans hsubset (by simp)⟩

/-- The effects of a branch are those of its arms and then those of the `else` part. -/
theorem exists_of_effects_branch {arms : List (Condition × List Statement)}
    {otherwise : List Statement}
    (h : (Statement.branch arms otherwise).effects scope = .ok effects) :
    ∃ first second, armEffects scope arms = .ok first ∧ listEffects scope otherwise = .ok second ∧
      effects = first ++ second := by
  rw [Statement.effects] at h
  obtain ⟨first, hfirst, h⟩ := bind_eq_ok_iff.1 h
  obtain ⟨second, hsecond, h⟩ := bind_eq_ok_iff.1 h
  cases h
  exact ⟨first, second, hfirst, hsecond, rfl⟩

/-- What is built on the way has its effects among those of the whole body, and all iterators around it
are 64-bit integers. -/
theorem Builds.exists_subset {s : Statement} {inner : LoopScope} {body : List Statement}
    (h : Builds s inner body scope) (hscope : scope.IsWords)
    (he : listEffects scope body = .ok effects) :
    inner.IsWords ∧ ∃ part, s.effects inner = .ok part ∧ part ⊆ effects := by
  induction h generalizing effects with
  | here hs => exact ⟨hscope, exists_subset_of_listEffects he hs⟩
  | arm hs harm _ ih =>
    obtain ⟨branch, hbranch, hsubset⟩ := exists_subset_of_listEffects he hs
    obtain ⟨first, second, hfirst, -, rfl⟩ := exists_of_effects_branch hbranch
    obtain ⟨inside, hinside, hpart⟩ := exists_subset_of_armEffects hfirst harm
    obtain ⟨hwords, part, hs, hp⟩ := ih hscope hinside
    exact ⟨hwords, part, hs, fun e he => hsubset (List.mem_append_left _ (hpart (hp he)))⟩
  | otherwise hs _ ih =>
    obtain ⟨branch, hbranch, hsubset⟩ := exists_subset_of_listEffects he hs
    obtain ⟨first, second, -, hsecond, rfl⟩ := exists_of_effects_branch hbranch
    obtain ⟨hwords, part, hs, hp⟩ := ih hscope hsecond
    exact ⟨hwords, part, hs, fun e he => hsubset (List.mem_append_right _ (hp he))⟩
  | iteration hs hvalues hle hv _ ih =>
    -- the scope of the iteration is in range because the integer of the loop lies between its bounds
    obtain ⟨unrolled, hunrolled, hsubset⟩ := exists_subset_of_listEffects he hs
    obtain ⟨hstart, hstep, hstop⟩ := hscope.isWord_of_bounds hvalues
    rw [effects_loop_of_le hvalues hstart hstep hstop (Between.step_ne_zero hv.1) hle] at hunrolled
    obtain ⟨k, hk, rfl⟩ := exists_mem_range_of_mem_iterates hstart hstep hstop hv
    obtain ⟨inside, hinside, hpart⟩ := exists_subset_of_flatten hunrolled hk
    have hword := Between.isWord hv.1 hstart hstop
    obtain ⟨hwords, part, hs, hp⟩ := ih (hscope.enter hword _) hinside
    exact ⟨hwords, part, hs, fun e he => hsubset (hpart (hp he))⟩

end Effects

section Blocks

def ProtectedItem.routine? : ProtectedItem → Option Routine
  | .routine r => some r
  | _ => none

/-- The routines of a block in the order in which they are built. -/
def Block.routines (b : Block) : List Routine :=
  b.protectedItems.filterMap ProtectedItem.routine? ++ b.publicRoutines

/-- An item adds its routine, if it is one, with all issues in it. -/
theorem Section.routines_add {records : List RecordType} {s t : Section} {item : ProtectedItem}
    (h : s.add records item = .ok t) :
    ∃ flats, item.routine?.toList.mapM (Routine.flatten records) = .ok flats ∧
      t.routines = s.routines ++ flats.map Prod.fst ∧ s.issues ⊆ t.issues ∧
      ∀ p ∈ flats, p.2 ⊆ t.issues := by
  cases item with
  | record r =>
    cases h
    exact ⟨[], rfl, by simp, by simp, by simp⟩
  | signals signals =>
    cases h
    exact ⟨[], rfl, by simp, by simp, by simp⟩
  | routine r =>
    obtain ⟨p, hp, h⟩ := bind_eq_ok_iff.1 h
    cases h
    refine ⟨[p], ?_, by simp, by simp, by simp⟩
    change [r].mapM (Routine.flatten records) = _
    rw [List.mapM_cons, hp]
    rfl
  | «variable» causality d =>
    cases h
    exact ⟨[], rfl, by simp, by simp, by simp⟩

theorem Section.routines_foldlM {records : List RecordType} {items : List ProtectedItem}
    {s t : Section} (h : items.foldlM (Section.add records) s = .ok t) :
    ∃ flats, (items.filterMap ProtectedItem.routine?).mapM (Routine.flatten records) = .ok flats ∧
      t.routines = s.routines ++ flats.map Prod.fst ∧ s.issues ⊆ t.issues ∧
      ∀ p ∈ flats, p.2 ⊆ t.issues := by
  induction items generalizing s with
  | nil =>
    cases h
    exact ⟨[], rfl, by simp, by simp, by simp⟩
  | cons item rest ih =>
    rw [List.foldlM_cons] at h
    obtain ⟨next, hnext, h⟩ := bind_eq_ok_iff.1 h
    obtain ⟨first, hfirst, hroutines, hissues, hfound⟩ := Section.routines_add hnext
    obtain ⟨others, hothers, hroutines', hissues', hfound'⟩ := ih h
    refine ⟨first ++ others, ?_, ?_, List.Subset.trans hissues hissues', ?_⟩
    · have hsplit : (item :: rest).filterMap ProtectedItem.routine? =
          item.routine?.toList ++ rest.filterMap ProtectedItem.routine? := by
        rw [List.filterMap_cons]
        cases item.routine? <;> rfl
      rw [hsplit, List.mapM_append, hfirst, hothers]
      rfl
    · rw [hroutines', hroutines, List.map_append, List.append_assoc]
    · intro p hp
      rcases List.mem_append.1 hp with hp | hp
      · exact List.Subset.trans (hfound p hp) hissues'
      · exact hfound' p hp

/-- A block in flat form has the flat forms of its routines, and every issue in them once. -/
theorem Block.routines_of_flatten {b : Block} {block : GalecAudit.Block} (h : b.flatten = .ok block) :
    ∃ flats, b.routines.mapM (Routine.flatten b.knownRecords) = .ok flats ∧
      block.routines = flats.map Prod.fst ∧ block.issues.Nodup ∧
      ∀ p ∈ flats, p.2 ⊆ block.issues := by
  obtain ⟨inner, hinner, h⟩ := bind_eq_ok_iff.1 h
  obtain ⟨others, hothers, h⟩ := bind_eq_ok_iff.1 h
  cases h
  obtain ⟨first, hfirst, hroutines, -, hfound⟩ := Section.routines_foldlM hinner
  refine ⟨first ++ others, ?_, ?_, nodup_eraseDups _, ?_⟩
  · rw [Block.routines, List.mapM_append]
    exact bind_eq_ok_iff.2 ⟨first, hfirst, bind_eq_ok_iff.2 ⟨others, hothers, rfl⟩⟩
  · rw [List.map_append, hroutines]
    rfl
  · intro p hp d hd
    rw [List.mem_eraseDups]
    rcases List.mem_append.1 hp with hp | hp
    · have hmem := hfound p hp hd
      simp [hmem]
    · have hmem : d ∈ others.flatMap (·.2) := List.mem_flatMap.2 ⟨p, hp, hd⟩
      simp only [List.mem_append, hmem, or_true, true_or]

/-- The bindings of a routine are numbered from zero in the order in which they are registered. -/
theorem Routine.ids_of_flatten {records : List RecordType} {r : Routine}
    {routine : GalecAudit.Routine} {issues : List Diagnostic}
    (h : r.flatten records = .ok (routine, issues)) :
    routine.bindings.map Binding.id = List.range routine.bindings.length := by
  obtain ⟨effects, -, h⟩ := bind_eq_ok_iff.1 h
  cases h
  have hids (bindings : List (Reference × Expression × Nat)) :
      (numbered bindings).map Binding.id = List.range (numbered bindings).length := by
    rw [numbered, List.map_map, List.length_map, List.length_zipIdx, List.range_eq_range']
    exact List.zipIdx_map_snd 0 bindings
  exact hids _

end Blocks

/-- Loops are exact over all 64-bit integers. Where the bounds of a loop are such integers, and at most
100000 integers `start + k * step` lie between them, the body is built once for each of these in their
order, with the iterator bound to it. A loop without a step or with more integers registers nothing, and
wherever a block builds one its warning is among the issues of the block once. The bindings of every
routine are numbered from zero. -/
theorem loops_exact :
    (∀ (scope : LoopScope) (iterator : Option String) (bounds : Bounds) (header : String)
      (body : List Statement) (line : Nat) (start step stop : Int),
      bounds.values? scope = some (start, step, stop) →
      isWord start = true → isWord step = true → isWord stop = true →
        (iterates start step stop).Finite ∧
        (step ≠ 0 → (iterates start step stop).ncard ≤ 100000 → ∀ routine,
          (Statement.loop iterator bounds header body line).build scope routine =
            (List.range (iterates start step stop).ncard).foldlM (fun routine (k : Nat) =>
              body.foldlM (fun routine s =>
                s.build (scope.enter iterator (start + k * step)) routine) routine) routine) ∧
        (step = 0 ∨ 100000 < (iterates start step stop).ncard →
          (∀ routine, (Statement.loop iterator bounds header body line).build scope routine =
            .ok routine) ∧
          (Statement.loop iterator bounds header body line).effects scope =
            .ok [.issue (refusal line step (iterates start step stop).ncard)])) ∧
    (∀ (b : Block) (block : GalecAudit.Block), b.flatten = .ok block → ∀ r ∈ b.routines,
      ∀ (scope : LoopScope) (iterator : Option String) (bounds : Bounds) (header : String)
        (body : List Statement) (line : Nat) (start step stop : Int),
        Builds (.loop iterator bounds header body line) scope r.body [] →
        bounds.values? scope = some (start, step, stop) →
        step = 0 ∨ 100000 < (iterates start step stop).ncard →
          block.issues.count (refusal line step (iterates start step stop).ncard) = 1) ∧
    ∀ (b : Block) (block : GalecAudit.Block), b.flatten = .ok block → ∀ routine ∈ block.routines,
      (∃ r ∈ b.routines, r.body.foldlM (fun routine s => s.build [] routine)
        (r.opening b.knownRecords) = .ok routine) ∧
      routine.bindings.map Binding.id = List.range routine.bindings.length := by
  refine ⟨?_, ?_, ?_⟩
  · intro scope iterator bounds header body line start step stop hvalues hstart hstep hstop
    refine ⟨?_, ?_, ?_⟩
    · rw [iterates_eq_image hstart hstep hstop]
      exact Finset.finite_toSet _
    · exact build_loop_of_le hvalues hstart hstep hstop
    · intro h
      exact ⟨build_loop_of_lt hvalues hstart hstep hstop h,
        effects_loop_of_lt hvalues hstart hstep hstop h⟩
  · intro b block hb r hr scope iterator bounds header body line start step stop hbuilds hvalues h
    obtain ⟨flats, hflats, -, hnodup, hfound⟩ := Block.routines_of_flatten hb
    obtain ⟨p, hp, hflat⟩ := exists_result_of_mapM hflats r hr
    obtain ⟨effects, heffects, hflat⟩ := bind_eq_ok_iff.1 hflat
    obtain ⟨hwords, part, hpart, hsubset⟩ := hbuilds.exists_subset LoopScope.isWords_nil heffects
    obtain ⟨hstart, hstep, hstop⟩ := hwords.isWord_of_bounds hvalues
    rw [effects_loop_of_lt hvalues hstart hstep hstop h] at hpart
    cases hpart
    cases hflat
    have hissue : refusal line step (iterates start step stop).ncard ∈
        effects.filterMap Effect.issue? :=
      List.mem_filterMap.2 ⟨_, hsubset (List.mem_singleton_self _), rfl⟩
    refine List.count_eq_one_of_mem hnodup (hfound _ hp ?_)
    exact List.mem_append_left _ (List.mem_append_right _ hissue)
  · intro b block hb routine hr
    obtain ⟨flats, hflats, hroutines, -, -⟩ := Block.routines_of_flatten hb
    rw [hroutines] at hr
    obtain ⟨⟨routine, issues⟩, hp, rfl⟩ := List.mem_map.1 hr
    obtain ⟨r, hr, hflat⟩ := exists_of_mem_mapM hflats _ hp
    refine ⟨⟨r, hr, ?_⟩, Routine.ids_of_flatten hflat⟩
    rw [← Routine.flatten_eq_build, hflat]
    rfl

/-- The bounds of a loop over all 64-bit integers but the least. -/
def fullBounds : Bounds where
  start := .unary .negate (.literal .integer "9223372036854775807" 6) 6
  step := none
  stop := .literal .integer "9223372036854775807" 6

/-- The bounds of a loop whose second step would leave the 64-bit integers. -/
def edgeBounds : Bounds where
  start := .literal .integer "9223372036854775800" 4
  step := some (.literal .integer "5" 4)
  stop := .literal .integer "9223372036854775807" 4

/-- The statement `x[i] := i` and a loop over all integers with an empty body. -/
def edgeBody : List Statement :=
  [.assign ⟨false, [⟨"x", [.access ⟨false, [⟨"i", []⟩], 5⟩]⟩], 5⟩
      (.access ⟨false, [⟨"i", []⟩], 5⟩) 5,
    .loop (some "j") fullBounds "j in -9223372036854775807:9223372036854775807" [] 6]

/-- A block with one method, which is a loop with `edgeBounds` and `edgeBody`. -/
def edgeBlock : Block where
  name := "B"
  entities := []
  protectedItems := []
  publicRoutines := [{
    kind := .method
    name := "M"
    signals := []
    parameters := []
    locals := []
    body := [.loop (some "i") edgeBounds "i in 9223372036854775800:5:9223372036854775807" edgeBody 4]
    endName := ⟨"M", 8⟩
    line := 2 }]
  endName := ⟨"B", 9⟩
  line := 1

theorem values?_edgeBounds : edgeBounds.values? [] =
    some (9223372036854775800, 5, 9223372036854775807) := by
  decide +kernel

theorem values?_fullBounds : fullBounds.values? [("i", 9223372036854775805)] =
    some (-9223372036854775807, 1, 9223372036854775807) := by
  decide +kernel

theorem ncard_iterates_edgeBounds :
    (iterates 9223372036854775800 5 9223372036854775807).ncard = 2 :=
  ncard_iterates_eq (by decide) (by decide) (by decide) (by decide) (by decide +kernel)

theorem ncard_iterates_fullBounds :
    (iterates (-9223372036854775807) 1 9223372036854775807).ncard = 18446744073709551615 :=
  ncard_iterates_eq (by decide) (by decide) (by decide) (by decide) (by decide +kernel)

/-- The method runs twice, without a value that saturates, and the loop in it, refused both times, is
reported once. -/
theorem loops_exact_edgeBlock : ∃ block, edgeBlock.flatten = .ok block ∧
    (block.routines.flatMap fun r => r.bindings.map fun b => (b.id, b.target.name, b.value.text)) =
      [(0, "x[9223372036854775800]", "9223372036854775800"),
        (1, "x[9223372036854775805]", "9223372036854775805")] ∧
    (∀ routine, (Statement.loop (some "i") edgeBounds "" edgeBody 4).build [] routine =
      (List.range 2).foldlM (fun routine (k : Nat) => edgeBody.foldlM (fun routine s =>
        s.build [("i", 9223372036854775800 + k * 5)] routine) routine) routine) ∧
    (∀ routine, (Statement.loop (some "j") fullBounds "" [] 6).build [("i", 9223372036854775805)]
      routine = .ok routine) ∧
    block.issues.count (refusal 6 1 18446744073709551615) = 1 ∧
    ∀ routine ∈ block.routines,
      routine.bindings.map Binding.id = List.range routine.bindings.length := by
  have hedge := loops_exact.1 [] (some "i") edgeBounds "" edgeBody 4 _ _ _ values?_edgeBounds
    (by decide) (by decide) (by decide)
  have hfull := loops_exact.1 _ (some "j") fullBounds "" [] 6 _ _ _ values?_fullBounds
    (by decide) (by decide) (by decide)
  rw [ncard_iterates_edgeBounds] at hedge
  rw [ncard_iterates_fullBounds] at hfull
  have hbuilds : Builds
      (.loop (some "j") fullBounds "j in -9223372036854775807:9223372036854775807" [] 6)
      [("i", 9223372036854775805)]
      [.loop (some "i") edgeBounds "i in 9223372036854775800:5:9223372036854775807" edgeBody 4] [] :=
    .iteration (List.mem_singleton_self _) values?_edgeBounds
      (ncard_iterates_edgeBounds.trans_le (by decide))
      ⟨.inl (by decide), 1, by decide⟩ (.here (by simp [edgeBody]))
  have hblock : ∃ block, edgeBlock.flatten = .ok block ∧
      (block.routines.flatMap fun r => r.bindings.map fun b => (b.id, b.target.name, b.value.text)) =
        [(0, "x[9223372036854775800]", "9223372036854775800"),
          (1, "x[9223372036854775805]", "9223372036854775805")] :=
    ⟨_, rfl, by decide +kernel⟩
  obtain ⟨block, hflat, hbindings⟩ := hblock
  have hcount := loops_exact.2.1 _ _ hflat _ (List.mem_singleton_self _) _ _ _ _ _ _ _ _ _ hbuilds
    values?_fullBounds (.inr (by rw [ncard_iterates_fullBounds]; decide))
  rw [ncard_iterates_fullBounds] at hcount
  exact ⟨block, hflat, hbindings, hedge.2.1 (by decide) (by decide), (hfull.2.2 (.inr (by decide))).1,
    hcount, fun routine hr => (loops_exact.2.2 _ _ hflat routine hr).2⟩

end GalecAudit.Source
