import GalecAudit.Container.References

/-!
# Exactness of reference resolution

There is a finding exactly where a reference of a manifest names the identity of no manifest at another
place of the list, even if it names that of its own.
-/
namespace GalecAudit

theorem ManifestReference.resolvesIn_iff {r : ManifestReference} {ms : List LabelledManifest} :
    r.resolvesIn ms = true ↔ ∃ m ∈ ms, m.manifest.id = some r.target := by
  unfold resolvesIn
  simp

theorem LabelledManifest.unresolved_eq_nil_iff {m : LabelledManifest}
    {others : List LabelledManifest} :
    m.unresolved others = [] ↔ ∀ r ∈ m.manifest.references, r.resolvesIn others = true := by
  unfold unresolved
  rw [List.map_eq_nil_iff, List.filter_eq_nil_iff]
  refine forall_congr' fun r => imp_congr_right fun _ => ?_
  cases r.resolvesIn others <;> simp

/-- A reference is met without the manifest at a place exactly if it is met at another place. -/
theorem ManifestReference.resolvesIn_eraseIdx_iff {r : ManifestReference}
    {ms : List LabelledManifest} {i : Nat} : r.resolvesIn (ms.eraseIdx i) = true ↔
      ∃ (j : Nat) (other : LabelledManifest), j ≠ i ∧ ms[j]? = some other ∧
        other.manifest.id = some r.target := by
  rw [resolvesIn_iff]
  constructor
  · rintro ⟨other, hm, hid⟩
    obtain ⟨j, hne, hj⟩ := List.mem_eraseIdx_iff_getElem?.1 hm
    exact ⟨j, other, hne, hj, hid⟩
  · rintro ⟨j, other, hne, hj, hid⟩
    exact ⟨other, List.mem_eraseIdx_iff_getElem?.2 ⟨j, hne, hj⟩, hid⟩

theorem unresolvedReferences_eq_nil_iff {ms : List LabelledManifest} :
    unresolvedReferences ms = [] ↔ ∀ (i : Nat) m, ms[i]? = some m →
      ∀ r ∈ m.manifest.references, ∃ (j : Nat) (other : LabelledManifest), j ≠ i ∧
        ms[j]? = some other ∧ other.manifest.id = some r.target := by
  unfold unresolvedReferences
  rw [List.flatMap_eq_nil_iff]
  constructor
  · intro h i m hi r hr
    have hu := h (m, i) (List.mem_zipIdx_iff_getElem?.2 hi)
    exact ManifestReference.resolvesIn_eraseIdx_iff.1
      (LabelledManifest.unresolved_eq_nil_iff.1 hu r hr)
  · rintro h ⟨m, i⟩ hm
    have hi := List.mem_zipIdx_iff_getElem?.1 hm
    exact LabelledManifest.unresolved_eq_nil_iff.2 fun r hr =>
      ManifestReference.resolvesIn_eraseIdx_iff.2 (h i m hi r hr)

theorem isError_of_mem_unresolvedReferences {ms : List LabelledManifest} {d : Diagnostic}
    (h : d ∈ unresolvedReferences ms) : d.isError = true := by
  obtain ⟨p, _, hp⟩ := List.mem_flatMap.1 h
  obtain ⟨r, _, rfl⟩ := List.mem_map.1 hp
  rfl

end GalecAudit
