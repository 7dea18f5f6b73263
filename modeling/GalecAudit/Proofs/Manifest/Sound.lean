import GalecAudit.Manifest.Read
import GalecAudit.Proofs.Container.Listing
import GalecAudit.Proofs.Markup.Tree

/-!
# Attributes that can be read

A document can be read although some attributes in it cannot be: those that no one asks for. Where a reader
goes on, it goes on the same way without them.
-/
namespace GalecAudit

open Markup (Element Event)

variable {e : Element} {key : String}

/-- A step that is taken is taken the same way without the attributes that cannot be read. -/
def KeepsSound {σ : Type} (step : σ → Event → Except ManifestError σ) : Prop :=
  ∀ s event next, step s event = .ok next → step s event.sound = .ok next

theorem optional_sound {value : Option String} (h : e.optional key = .ok value) :
    e.sound.optional key = .ok value := by
  unfold Element.optional at h ⊢
  cases hvalue : e.attributes.value? key with
  | error fault => rw [hvalue] at h; cases h
  | ok found =>
    rw [hvalue] at h
    rw [Element.sound, Markup.Attributes.value?_sound hvalue]
    exact h

theorem required_sound {value : String} (h : e.required key = .ok value) :
    e.sound.required key = .ok value := by
  unfold Element.required at h ⊢
  cases hfound : e.optional key with
  | error fault => rw [hfound] at h; cases h
  | ok found =>
    rw [hfound] at h
    rw [optional_sound hfound]
    cases found with
    | none => cases h
    | some value => exact h

namespace ManifestDraft

theorem readVariable?_sound {found : Option ListedVariable} (h : readVariable? e = .ok found) :
    readVariable? e.sound = .ok found := by
  have hname : e.sound.name = e.name := rfl
  unfold readVariable? at h ⊢
  rw [hname]
  cases htype : typeOfElement? e.name with
  | some type =>
    rw [htype] at h
    simp only [bind_eq_ok_iff] at h ⊢
    obtain ⟨causality, hcausality, name, hread, hv⟩ := h
    exact ⟨causality, optional_sound hcausality, name, required_sound hread, hv⟩
  | none =>
    rw [htype] at h
    by_cases hgeneric : e.name = "Variable"
    · simp only [if_pos hgeneric, bind_eq_ok_iff] at h ⊢
      obtain ⟨word, hword, h⟩ := h
      refine ⟨word, required_sound hword, ?_⟩
      cases hp : PrimitiveType.ofName? word with
      | none => rw [hp] at h; cases h
      | some type =>
        simp only [hp, bind_eq_ok_iff] at h ⊢
        obtain ⟨name, hread, hv⟩ := h
        exact ⟨name, required_sound hread, hv⟩
    · simp only [if_neg hgeneric] at h ⊢
      exact h

theorem readDimension_sound {size : Nat} (h : readDimension e = .ok size) :
    readDimension e.sound = .ok size := by
  unfold readDimension at h ⊢
  rw [bind_eq_ok_iff] at h ⊢
  obtain ⟨text, htext, h⟩ := h
  refine ⟨text, required_sound htext, ?_⟩
  cases hsize : readSize? text with
  | none => rw [hsize] at h; cases h
  | some n =>
    rw [hsize] at h
    exact h

theorem readFile_sound {file : ListedFile} (h : readFile e = .ok file) :
    readFile e.sound = .ok file := by
  unfold readFile at h ⊢
  simp only [bind_eq_ok_iff] at h ⊢
  obtain ⟨name, hname, role, hrole, hfile⟩ := h
  exact ⟨name, required_sound hname, role, optional_sound hrole, hfile⟩

theorem readReference_sound {reference : ManifestReference} (h : readReference e = .ok reference) :
    readReference e.sound = .ok reference := by
  unfold readReference at h ⊢
  simp only [bind_eq_ok_iff] at h ⊢
  obtain ⟨id, hid, target, htarget, checksum, hchecksum, hreference⟩ := h
  exact ⟨id, optional_sound hid, target, required_sound htarget, checksum, optional_sound hchecksum,
    hreference⟩

/-- An element that can be followed can be followed without the attributes that cannot be read. -/
theorem opening_sound {d next : ManifestDraft} (h : d.opening e = .ok next) :
    d.opening e.sound = .ok next := by
  have hrole : d.roleOf e.sound = d.roleOf e := rfl
  unfold opening at h ⊢
  rw [hrole]
  cases hcase : d.roleOf e with
  | root =>
    simp only [hcase, bind_eq_ok_iff] at h ⊢
    obtain ⟨id, hid, hnext⟩ := h
    exact ⟨id, optional_sound hid, hnext⟩
  | variableList | other => simpa only [hcase] using h
  | listed =>
    simp only [hcase, bind_eq_ok_iff] at h ⊢
    obtain ⟨found, hfound, hnext⟩ := h
    exact ⟨found, readVariable?_sound hfound, hnext⟩
  | dimension =>
    cases hcurrent : d.current with
    | none => simpa only [hcase, hcurrent] using h
    | some v =>
      simp only [hcase, hcurrent, bind_eq_ok_iff] at h ⊢
      obtain ⟨size, hsize, hnext⟩ := h
      exact ⟨size, readDimension_sound hsize, hnext⟩
  | file =>
    simp only [hcase, bind_eq_ok_iff] at h ⊢
    obtain ⟨file, hfile, hnext⟩ := h
    exact ⟨file, readFile_sound hfile, hnext⟩
  | reference =>
    simp only [hcase, bind_eq_ok_iff] at h ⊢
    obtain ⟨reference, hreference, hnext⟩ := h
    exact ⟨reference, readReference_sound hreference, hnext⟩

theorem keepsSound_step : KeepsSound step := by
  intro d event next h
  cases event with
  | opening e => exact opening_sound h
  | closing name depth => exact h

end ManifestDraft

namespace Listing

theorem readRepresentation_sound {r : Representation} (h : readRepresentation e = .ok r) :
    readRepresentation e.sound = .ok r := by
  unfold readRepresentation at h ⊢
  simp only [bind_eq_ok_iff] at h ⊢
  obtain ⟨manifest, hmanifest, kind, hkind, name, hname, checksum, hchecksum, id, hid, hr⟩ := h
  exact ⟨manifest, required_sound hmanifest, kind, required_sound hkind, name, required_sound hname,
    checksum, optional_sound hchecksum, id, optional_sound hid, hr⟩

theorem keepsSound_step : KeepsSound step := by
  intro l event next h
  cases event with
  | opening e =>
    rcases step_opening_eq_ok_iff.1 h with ⟨hname, r, hr, hnext⟩ | hother
    · exact step_opening_eq_ok_iff.2 (.inl ⟨hname, r, readRepresentation_sound hr, hnext⟩)
    · exact step_opening_eq_ok_iff.2 (.inr hother)
  | closing name depth => exact h

end Listing

theorem foldlM_sound {σ : Type} {step : σ → Event → Except ManifestError σ}
    (hstep : KeepsSound step)
    {items : List Event} {s final : σ} (h : items.foldlM step s = .ok final) :
    (items.map Event.sound).foldlM step s = .ok final := by
  induction items generalizing s with
  | nil => exact h
  | cons event items ih =>
    rw [List.foldlM_cons, bind_eq_ok_iff] at h
    obtain ⟨next, hnext, hrest⟩ := h
    rw [List.map_cons, List.foldlM_cons, bind_eq_ok_iff]
    exact ⟨next, hstep _ _ _ hnext, ih hrest⟩

end GalecAudit
