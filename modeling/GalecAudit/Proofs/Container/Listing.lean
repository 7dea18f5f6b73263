import GalecAudit.Container.Listing
import GalecAudit.Proofs.Files.Path
import GalecAudit.Proofs.Source.Induction
import Mathlib.Data.List.Forall2

/-!
# Representations of a listing

A listing has one representation for each element of that name, in the order of the document. The path of
its manifest is kept without the dots that it begins with. That changes where the path leads only if a
slash is what remains in front.
-/
namespace GalecAudit

open Markup (Element Event)

/-- Events that are followed to their end, behind which there is no fault. -/
theorem foldlM_of_foldEvents {σ : Type} {step : σ → Event → Except ManifestError σ} {state final : σ}
    {reading : Markup.Reading Event} (h : foldEvents step state reading = .ok final) :
    reading.items.foldlM step state = .ok final ∧ reading.fault = none := by
  obtain ⟨last, hlast, hfault⟩ := bind_eq_ok_iff.1 h
  cases hf : reading.fault with
  | some fault =>
    rw [hf] at hfault
    cases hfault
  | none =>
    rw [hf] at hfault
    cases hfault
    exact ⟨hlast, rfl⟩

/-- The elements that open, in the order of the events. -/
def Markup.openings (events : List Event) : List Element :=
  events.filterMap fun
    | .opening e => some e
    | .closing .. => none

open Markup (openings)

section Representations

/-- The elements of representations, at any depth. -/
def representationElements (source : String) : List Element :=
  (openings (Markup.readEvents source).items).filter (·.name = "ModelRepresentation")

/-- What opens is a representation that is listed, or it leaves the listing as it is. -/
theorem Listing.step_opening_eq_ok_iff {l next : Listing} {e : Element} :
    l.step (.opening e) = .ok next ↔
      (e.name = "ModelRepresentation" ∧
        ∃ r, readRepresentation e = .ok r ∧ next = ⟨l.representations ++ [r]⟩) ∨
      e.name ≠ "ModelRepresentation" ∧ next = l := by
  unfold step
  dsimp only
  by_cases hname : e.name = "ModelRepresentation"
  · rw [if_pos hname, bind_eq_ok_iff, or_iff_left fun h => h.1 hname, and_iff_right hname]
    exact exists_congr fun r => and_congr_right fun _ =>
      ⟨fun h => (Except.ok.inj h).symm, fun h => congrArg Except.ok h.symm⟩
  · rw [if_neg hname, or_iff_right fun h => hname h.1, and_iff_right hname]
    exact ⟨fun h => (Except.ok.inj h).symm, fun h => congrArg Except.ok h.symm⟩

theorem representations_of_foldlM {items : List Event} {l final : Listing}
    (h : items.foldlM Listing.step l = .ok final) :
    ∃ rs, final.representations = l.representations ++ rs ∧
      List.Forall₂ (fun e r => Listing.readRepresentation e = .ok r)
        ((openings items).filter (·.name = "ModelRepresentation")) rs := by
  induction items generalizing l with
  | nil =>
    cases h
    exact ⟨[], (List.append_nil _).symm, .nil⟩
  | cons event items ih =>
    rw [List.foldlM_cons] at h
    obtain ⟨next, hstep, hrest⟩ := bind_eq_ok_iff.1 h
    obtain ⟨rs, hrs, hread⟩ := ih hrest
    cases event with
    | closing name depth =>
      cases hstep
      exact ⟨rs, hrs, hread⟩
    | opening e =>
      have hopen : openings (.opening e :: items) = e :: openings items := rfl
      rw [hopen]
      rcases Listing.step_opening_eq_ok_iff.1 hstep with ⟨hname, r, hr, rfl⟩ | ⟨hname, rfl⟩
      · rw [List.filter_cons_of_pos (by simpa using hname)]
        exact ⟨r :: rs, by rw [hrs]; simp, .cons hr hread⟩
      · rw [List.filter_cons_of_neg (by simpa using hname)]
        exact ⟨rs, hrs, hread⟩

/-- The representations are those of the elements, in the same order. -/
theorem representations_of_readListing {source : String} {listing : Listing}
    (h : readListing source = .ok listing) :
    List.Forall₂ (fun e r => Listing.readRepresentation e = .ok r) (representationElements source)
      listing.representations := by
  obtain ⟨rs, hrs, hread⟩ := representations_of_foldlM (foldlM_of_foldEvents h).1
  rw [hrs]
  exact hread

theorem readRepresentation_eq_ok {e : Element} {r : Representation}
    (h : Listing.readRepresentation e = .ok r) : e.required "name" = .ok r.name ∧
      ∃ written, e.required "manifest" = .ok written ∧
        r.manifest = String.ofList (Listing.dropCurrent written.toList) := by
  unfold Listing.readRepresentation at h
  simp only [bind_eq_ok_iff] at h
  obtain ⟨written, hwritten, kind, -, name, hname, checksum, -, id, -, hr⟩ := h
  cases hr
  exact ⟨hname, written, hwritten, rfl⟩

end Representations

section Current

open GalecAudit.Path

/-- Behind dots with a slash each, a path goes on with one more slash. -/
def HidesSlash (path : List Char) : Prop :=
  ∃ n rest, path = (List.replicate n ['.', '/']).flatten ++ '/' :: rest

theorem hidesSlash_current {path : List Char} :
    HidesSlash ('.' :: '/' :: path) ↔ HidesSlash path := by
  constructor
  · rintro ⟨n, rest, h⟩
    cases n with
    | zero => cases h
    | succ n => exact ⟨n, rest, (List.cons.inj (List.cons.inj h).2).2⟩
  · rintro ⟨n, rest, rfl⟩
    exact ⟨n + 1, rest, rfl⟩

/-- What is kept of a path is absolute exactly if a slash is hidden behind the dots. -/
theorem isAbsolute_dropCurrent_iff (path : List Char) :
    isAbsolute (Listing.dropCurrent path) = true ↔ HidesSlash path := by
  fun_induction Listing.dropCurrent path with
  | case1 rest ih => rw [hidesSlash_current, ih]
  | case2 cs hcs =>
    rw [isAbsolute_iff]
    constructor
    · rintro ⟨rest, rfl⟩
      exact ⟨0, rest, rfl⟩
    · rintro ⟨n, rest, rfl⟩
      cases n with
      | zero => exact ⟨rest, rfl⟩
      | succ n => exact absurd rfl (hcs _)

/-- The names on the way stay. -/
theorem names_dropCurrent (path : List Char) : names (Listing.dropCurrent path) = names path := by
  fun_induction Listing.dropCurrent path with
  | case1 rest ih => rw [ih, names_current]
  | case2 => rfl

end Current

end GalecAudit
