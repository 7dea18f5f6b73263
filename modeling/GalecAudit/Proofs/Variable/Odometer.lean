import GalecAudit.Proofs.Variable.Elements
import Mathlib.Algebra.BigOperators.Group.List.Basic
import Mathlib.Data.List.Lex

/-!
# Order of array elements

The elements of an array are listed in the order of an odometer: the last place runs fastest, and where it
is at its size it starts again and the place in front of it goes on. A step goes up in the lexicographic
order, and from the first position the steps lead through all of them to the last, behind which there is
none.
-/
namespace GalecAudit

namespace Odometer

/-- The position behind another one. The last place below its size goes up by one, and the places behind it
start at one again. -/
def next? : List Nat → List Nat → Option (List Nat)
  | size :: sizes, i :: index =>
    match next? sizes index with
    | some next => some (i :: next)
    | none => if i < size then some ((i + 1) :: sizes.map fun _ => 1) else none
  | _, _ => none

/-- A run from a position to the last one, with all positions that it passes. -/
inductive Run (sizes : List Nat) : List Nat → List (List Nat) → Prop
  | last {index} : next? sizes index = none → Run sizes index [index]
  | step {index next rest} : next? sizes index = some next → Run sizes next rest →
      Run sizes index (index :: rest)

section Step

variable {size i : Nat} {sizes index next : List Nat}

theorem next?_cons_of_some (h : next? sizes index = some next) :
    next? (size :: sizes) (i :: index) = some (i :: next) := by
  rw [next?, h]

theorem next?_cons_of_none (h : next? sizes index = none) :
    next? (size :: sizes) (i :: index) =
      if i < size then some ((i + 1) :: sizes.map fun _ => 1) else none := by
  rw [next?, h]

/-- A step goes up. -/
theorem lt_of_next? (h : next? sizes index = some next) : List.Lex (· < ·) index next := by
  fun_induction next? sizes index generalizing next with
  | case1 size sizes i index later hlater ih =>
    cases h
    exact .cons (ih hlater)
  | case2 size sizes i index _ hi =>
    cases h
    exact .rel (Nat.lt_succ_self i)
  | case3 => cases h
  | case4 => cases h

end Step

section Run

variable {size i : Nat} {sizes index : List Nat} {out other after : List (List Nat)}

/-- There is only one run from a position. -/
theorem Run.unique (h : Run sizes index out) (h' : Run sizes index other) : out = other := by
  induction h generalizing other with
  | last hnone =>
    cases h' with
    | last => rfl
    | step hnext _ =>
      rw [hnone] at hnext
      cases hnext
  | step hnext _ ih =>
    cases h' with
    | last hnone =>
      rw [hnone] at hnext
      cases hnext
    | step hnext' hrest =>
      cases hnext.symm.trans hnext'
      rw [ih hrest]

/-- Each position of a run is a step behind the one in front of it. -/
theorem Run.isChain (h : Run sizes index out) : out.IsChain fun a b => next? sizes a = some b := by
  induction h with
  | last => exact .singleton _
  | step hnext hrun ih =>
    cases hrun with
    | last => exact List.isChain_cons_cons.2 ⟨hnext, ih⟩
    | step => exact List.isChain_cons_cons.2 ⟨hnext, ih⟩

/-- A run goes up all the way. -/
theorem Run.pairwise (h : Run sizes index out) : out.Pairwise (List.Lex (· < ·)) := by
  have : Trans (List.Lex fun a b : Nat => a < b) (List.Lex (· < ·)) (List.Lex (· < ·)) :=
    ⟨List.lt_trans⟩
  exact List.isChain_iff_pairwise.1 (h.isChain.imp fun _ _ => lt_of_next?)

/-- Behind a place at its size the other places run to the end. -/
theorem Run.behind_last (h : Run sizes index out) (hi : size ≤ i) :
    Run (size :: sizes) (i :: index) (out.map (i :: ·)) := by
  induction h with
  | last hnone =>
    refine .last ?_
    rw [next?_cons_of_none hnone, if_neg (Nat.not_lt.2 hi)]
  | step hnext _ ih => exact .step (next?_cons_of_some hnext) ih

/-- Behind a place below its size the other places run to their end, and then that place goes on. -/
theorem Run.behind_place (h : Run sizes index out) (hi : i < size)
    (hafter : Run (size :: sizes) ((i + 1) :: sizes.map fun _ => 1) after) :
    Run (size :: sizes) (i :: index) (out.map (i :: ·) ++ after) := by
  induction h with
  | last hnone =>
    refine .step ?_ hafter
    rw [next?_cons_of_none hnone, if_pos hi]
  | step hnext _ ih => exact .step (next?_cons_of_some hnext) ih

/-- A place runs from where it stands to its size, and the others run through all their positions each
time. -/
theorem Run.from_place (h : Run sizes (sizes.map fun _ => 1) out) (left i : Nat) :
    Run ((i + left) :: sizes) (i :: sizes.map fun _ => 1)
      ((List.range' i (left + 1)).flatMap fun j => out.map (j :: ·)) := by
  induction left generalizing i with
  | zero =>
    rw [List.range'_one, List.flatMap_singleton]
    exact h.behind_last (Nat.le_refl i)
  | succ left ih =>
    rw [List.range'_succ, List.flatMap_cons]
    refine h.behind_place (Nat.lt_add_of_pos_right (Nat.succ_pos left)) ?_
    have hafter := ih (i + 1)
    rwa [Nat.add_right_comm] at hafter

/-- From the first position of an array that has one, a run leads through all its positions to an end. -/
theorem run_positions (h : ∀ size ∈ sizes, 1 ≤ size) :
    Run sizes (sizes.map fun _ => 1) (positions sizes) := by
  induction sizes with
  | nil => exact .last rfl
  | cons size sizes ih =>
    obtain ⟨hsize, hsizes⟩ := List.forall_mem_cons.1 h
    obtain ⟨left, rfl⟩ := Nat.exists_eq_add_of_le hsize
    have hrun := (ih hsizes).from_place left 1
    rwa [Nat.add_comm left 1] at hrun

end Run

theorem length_positions (sizes : List Nat) : (positions sizes).length = sizes.prod := by
  induction sizes with
  | nil => rfl
  | cons size sizes ih => simp [positions, List.length_flatMap, ih]

end Odometer

theorem elementPositions_of_isExpanded {sizes : List Nat} (h : isExpanded sizes = true) :
    elementPositions sizes = positions sizes := if_pos h

/-- The elements of an array that are listed have distinct names. -/
theorem nodup_elementNames (name : String) (sizes : List Nat) :
    ((elementKeys name sizes).map Prod.fst).Nodup := by
  rw [elementKeys_eq_map, List.map_map, List.Nodup, List.pairwise_map]
  by_cases h : isExpanded sizes = true
  · have hordered : (elementPositions sizes).Pairwise (List.Lex (· < ·)) := by
      rw [elementPositions_of_isExpanded h]
      exact (Odometer.run_positions (isExpanded_iff.1 h).2.2).pairwise
    refine hordered.imp_of_mem fun {i j} hi hj hlt hname => ?_
    obtain ⟨-, heq⟩ := indexedName_inj (ne_nil_of_mem_elementPositions hi)
      (ne_nil_of_mem_elementPositions hj) hname
    exact List.lt_irrefl i (heq ▸ hlt)
  · rw [elementPositions, if_neg h]
    exact .nil

/-- The elements of an array are enumerated completely and in order. For an array of rank one to three without
an empty dimension, the odometer that starts at the first position comes to an end; the positions on its way
are all positions within the sizes, in strictly increasing lexicographic order and as many as the product of
the sizes, and each of them is listed under the name of the array with its numbers in brackets. These names
are distinct. Of any other array nothing is listed. -/
theorem elementKeys_enumerates (name : String) (sizes : List Nat) :
    if 1 ≤ sizes.length ∧ sizes.length ≤ 3 ∧ 0 ∉ sizes then
      ∃ indices : List (List Nat),
        (∀ out, Odometer.Run sizes (sizes.map fun _ => 1) out ↔ out = indices) ∧
        elementKeys name sizes = indices.map (fun index =>
          (name ++ "[" ++ ",".intercalate (index.map toString) ++ "]", index)) ∧
        (∀ index, index ∈ indices ↔ IsPosition index sizes) ∧
        indices.Pairwise (List.Lex (· < ·)) ∧
        indices.length = sizes.prod ∧
        ((elementKeys name sizes).map Prod.fst).Nodup
    else elementKeys name sizes = [] := by
  split
  · next hrank =>
    have h : isExpanded sizes = true := isExpanded_iff_rank.2 hrank
    have hrun := Odometer.run_positions (isExpanded_iff.1 h).2.2
    refine ⟨positions sizes, fun out => ⟨fun hout => hout.unique hrun, ?_⟩, if_pos h,
      fun _ => mem_positions_iff, hrun.pairwise, Odometer.length_positions sizes,
      nodup_elementNames name sizes⟩
    rintro rfl
    exact hrun
  · next hrank => exact if_neg fun h => hrank (isExpanded_iff_rank.1 h)

example : (elementKeys "m" [2, 2]).map Prod.fst = ["m[1,1]", "m[1,2]", "m[2,1]", "m[2,2]"] := by
  decide +kernel

end GalecAudit
