import GalecAudit.Proofs.Container.References
import Mathlib.Data.List.Flatten
import Mathlib.Data.List.Perm.Basic

/-!
# Resolution and order

Each reference of a list of manifests has at most one finding, and which of them have one is a matter of
the manifests at the other places. So another order of the list gives the same findings in another order,
and one more manifest takes findings on the earlier references away and adds none.
-/
namespace GalecAudit

/-- A reference where it occurs: the place of its manifest in a list, and the label of that. -/
structure Occurrence where
  place : Nat
  label : String
  reference : ManifestReference
deriving DecidableEq, Repr

/-- The references of a list of manifests, in the order of the list and of each manifest. -/
def occurrences (ms : List LabelledManifest) : List Occurrence :=
  ms.zipIdx.flatMap fun (m, place) => m.manifest.references.map (⟨place, m.label, ·⟩)

namespace Occurrence

/-- A manifest at another place has the identity that is referred to. -/
def IsMet (o : Occurrence) (ms : List LabelledManifest) : Prop :=
  ∃ (j : Nat) (other : LabelledManifest), j ≠ o.place ∧ ms[j]? = some other ∧
    other.manifest.id = some o.reference.target

instance (o : Occurrence) (ms : List LabelledManifest) : Decidable (o.IsMet ms) :=
  decidable_of_iff _ (ManifestReference.resolvesIn_eraseIdx_iff (r := o.reference) (i := o.place))

/-- The error on a reference that is not met. -/
def finding (o : Occurrence) : Diagnostic where
  severity := .error
  code := .unresolvedManifestReference
  message := s!"The manifestRefId of the ManifestReference (id = {o.reference.id}) in the {o.label} representation does not match any of the existing representation manifests"
  line := some o.reference.line
  source := some o.label

end Occurrence

variable {m : LabelledManifest} {ms others others' : List LabelledManifest}

theorem unresolvedReferences_eq_occurrences (ms : List LabelledManifest) :
    unresolvedReferences ms =
      ((occurrences ms).filter fun o => ¬ o.IsMet ms).map Occurrence.finding := by
  unfold unresolvedReferences occurrences
  rw [List.filter_flatMap, List.map_flatMap]
  congr 1
  funext ⟨m, place⟩
  rw [List.filter_map, List.map_map]
  have htest : (fun r : ManifestReference => !r.resolvesIn (ms.eraseIdx place)) =
      (fun o : Occurrence => decide ¬ o.IsMet ms) ∘ (⟨place, m.label, ·⟩) := by
    funext r
    have hmet : r.resolvesIn (ms.eraseIdx place) = true ↔
        Occurrence.IsMet ⟨place, m.label, r⟩ ms := ManifestReference.resolvesIn_eraseIdx_iff
    have hsame : decide (Occurrence.IsMet ⟨place, m.label, r⟩ ms) = r.resolvesIn (ms.eraseIdx place) := by
      rw [Bool.eq_iff_iff, decide_eq_true_iff, hmet]
    rw [Function.comp_apply, decide_not, hsame]
  dsimp only [LabelledManifest.unresolved]
  rw [htest]
  rfl

section Order

/-- Which references of a manifest are met is not a matter of the order of the others. -/
theorem LabelledManifest.unresolved_perm (h : others.Perm others') :
    m.unresolved others = m.unresolved others' := by
  unfold unresolved ManifestReference.resolvesIn
  simp only [h.any_eq]

/-- The references of a manifest are looked up among what is left of the list without one occurrence of
the manifest, whichever of equal ones that is. -/
theorem unresolvedReferences_eq_flatMap_erase (ms : List LabelledManifest) :
    unresolvedReferences ms = ms.flatMap fun m => m.unresolved (ms.erase m) := by
  have hplace : ∀ p ∈ ms.zipIdx, p.1.unresolved (ms.eraseIdx p.2) = p.1.unresolved (ms.erase p.1) := by
    rintro ⟨m, place⟩ hp
    obtain ⟨hlt, heq⟩ := List.getElem?_eq_some_iff.1 (List.mem_zipIdx_iff_getElem?.1 hp)
    have hmem : m ∈ ms := List.mem_of_getElem heq
    have hplaced := List.getElem_cons_eraseIdx_perm hlt
    rw [heq] at hplaced
    exact LabelledManifest.unresolved_perm
      (List.Perm.cons_inv (hplaced.trans (List.perm_cons_erase hmem)))
  calc unresolvedReferences ms
      = ms.zipIdx.flatMap fun p => p.1.unresolved (ms.erase p.1) :=
        List.flatMap_congr hplace
    _ = ms.flatMap fun m => m.unresolved (ms.erase m) := by
        have hlist := List.flatMap_map Prod.fst (fun m => m.unresolved (ms.erase m)) ms.zipIdx
        rw [← hlist, List.zipIdx_map_fst]

theorem unresolvedReferences_perm {ms' : List LabelledManifest} (h : ms.Perm ms') :
    (unresolvedReferences ms).Perm (unresolvedReferences ms') := by
  rw [unresolvedReferences_eq_flatMap_erase, unresolvedReferences_eq_flatMap_erase]
  have hsame : (fun m : LabelledManifest => m.unresolved (ms.erase m)) =
      fun m => m.unresolved (ms'.erase m) :=
    funext fun m => LabelledManifest.unresolved_perm (h.erase m)
  rw [hsame]
  exact h.flatMap_right _

end Order

section Growth

/-- Among more manifests no more references are unmet. -/
theorem LabelledManifest.unresolved_append_sublist :
    (m.unresolved (others ++ others')).Sublist (m.unresolved others) := by
  refine (List.monotone_filter_right _ fun r hr => ?_).map _
  rw [Bool.not_eq_true'] at hr ⊢
  rw [ManifestReference.resolvesIn, List.any_append, Bool.or_eq_false_iff] at hr
  exact hr.1

theorem unresolvedReferences_concat (ms : List LabelledManifest) (m : LabelledManifest) :
    unresolvedReferences (ms ++ [m]) =
      (ms.zipIdx.flatMap fun p => p.1.unresolved (ms.eraseIdx p.2 ++ [m])) ++ m.unresolved ms := by
  have hearlier : ∀ p ∈ ms.zipIdx, p.1.unresolved ((ms ++ [m]).eraseIdx p.2) =
      p.1.unresolved (ms.eraseIdx p.2 ++ [m]) := by
    rintro ⟨other, place⟩ hp
    have hlt := (List.getElem?_eq_some_iff.1 (List.mem_zipIdx_iff_getElem?.1 hp)).1
    rw [List.eraseIdx_append_of_lt_length hlt]
  have hlast : (ms ++ [m]).eraseIdx ms.length = ms := by
    rw [List.eraseIdx_append_of_length_le (Nat.le_refl _), Nat.sub_self]
    exact List.append_nil ms
  unfold unresolvedReferences
  rw [List.zipIdx_append, List.flatMap_append, List.flatMap_congr hearlier]
  simp [hlast]

end Growth

/-- References are resolved exactly: there is one error for each that no manifest at another place meets,
in the order of the list and of each manifest, with the identity and the line of the reference and the
label of its manifest. Another order of the list gives the same errors, as often as before. One more
manifest leaves some of the errors on the earlier references and has errors on its own ones. -/
theorem unresolvedReferences_exact (ms : List LabelledManifest) :
    unresolvedReferences ms =
        ((occurrences ms).filter fun o => ¬ o.IsMet ms).map Occurrence.finding ∧
      (∀ ms', ms.Perm ms' → (unresolvedReferences ms).Perm (unresolvedReferences ms')) ∧
      ∀ m, ∃ kept, kept.Sublist (unresolvedReferences ms) ∧
        unresolvedReferences (ms ++ [m]) = kept ++ m.unresolved ms := by
  refine ⟨unresolvedReferences_eq_occurrences ms, fun ms' => unresolvedReferences_perm, fun m => ?_⟩
  refine ⟨_, ?_, unresolvedReferences_concat ms m⟩
  exact List.Sublist.flatMap_right _ fun p _ => LabelledManifest.unresolved_append_sublist

/-- A manifest that refers to itself and to another one. -/
def codeManifest : LabelledManifest :=
  ⟨"AlgorithmCode",
    { id := some "a", references := [⟨"self", "a", none, 3⟩, ⟨"other", "b", none, 4⟩] }⟩

def equationManifest : LabelledManifest :=
  ⟨"EquationCode", { id := some "b", references := [⟨"back", "a", none, 3⟩] }⟩

/-- The reference of a manifest to itself has the only error, in either order. It is met by a copy of the
manifest. -/
theorem unresolvedReferences_codeManifest :
    [codeManifest, equationManifest].Perm [equationManifest, codeManifest] ∧
      unresolvedReferences [codeManifest, equationManifest] =
        [Occurrence.finding ⟨0, "AlgorithmCode", "self", "a", none, 3⟩] ∧
      (unresolvedReferences [codeManifest, equationManifest]).Perm
        (unresolvedReferences [equationManifest, codeManifest]) ∧
      unresolvedReferences ([codeManifest, equationManifest] ++ [codeManifest]) = [] := by
  obtain ⟨hlist, hperm, -⟩ := unresolvedReferences_exact [codeManifest, equationManifest]
  have hswap : [codeManifest, equationManifest].Perm [equationManifest, codeManifest] := .swap ..
  have hunmet : (occurrences [codeManifest, equationManifest]).filter
      (fun o => ¬ o.IsMet [codeManifest, equationManifest]) =
        [⟨0, "AlgorithmCode", "self", "a", none, 3⟩] := by decide
  rw [hunmet] at hlist
  exact ⟨hswap, hlist, hperm _ hswap, by decide⟩

end GalecAudit
