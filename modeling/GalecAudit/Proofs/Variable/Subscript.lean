import Std.Data.String.ToInt
import GalecAudit.Language.Reference

/-!
# Texts of subscripts

Numbers are written with digits and a sign, so the commas and brackets of a subscripted name are never
part of a number, and the name of an element determines its array and the texts of its subscripts.
-/
namespace GalecAudit

/-- A character that the text of an integer may have. -/
def isNumeralChar (c : Char) : Bool := c.isDigit || c == '-'

theorem isNumeralChar_of_mem_toDigits {c : Char} {n : Nat} (h : c ∈ Nat.toDigits 10 n) :
    isNumeralChar c = true := by
  rw [isNumeralChar, Nat.isDigit_of_mem_toDigits (by decide) (by decide) h, Bool.true_or]

theorem toList_toString_nat (n : Nat) : (toString n).toList = Nat.toDigits 10 n := by simp

theorem toList_toString_negSucc (n : Nat) :
    (toString (Int.negSucc n)).toList = '-' :: Nat.toDigits 10 (n + 1) := by
  rw [← toList_toString_nat]
  exact String.toList_append

/-- Numbers whose texts have characters of numerals only: the natural numbers and the integers. -/
class HasNumerals (α : Type) [ToString α] : Prop where
  isNumeralChar_of_mem {c : Char} (a : α) : c ∈ (toString a).toList → isNumeralChar c = true

instance : HasNumerals Nat where
  isNumeralChar_of_mem n h := isNumeralChar_of_mem_toDigits (toList_toString_nat n ▸ h)

instance : HasNumerals Int where
  isNumeralChar_of_mem i h := by
    cases i with
    | ofNat n => exact isNumeralChar_of_mem_toDigits (toList_toString_nat n ▸ h)
    | negSucc n =>
      rw [toList_toString_negSucc, List.mem_cons] at h
      rcases h with rfl | h
      · decide
      · exact isNumeralChar_of_mem_toDigits h

section Numerals

variable {α β : Type} [ToString α] [ToString β]

theorem toList_indexText (indices : List α) :
    (indexText indices).toList = [','].intercalate (indices.map fun a => (toString a).toList) := by
  rw [indexText, String.toList_intercalate, List.map_map]
  rfl

theorem indexText_cons_cons (a b : α) (rest : List α) :
    (indexText (a :: b :: rest)).toList =
      (toString a).toList ++ ',' :: (indexText (b :: rest)).toList := by
  rw [toList_indexText, toList_indexText, List.map_cons, List.map_cons, List.intercalate_cons_cons,
    List.append_assoc]
  rfl

theorem toList_indexedName (name : String) (indices : List α) :
    (indexedName name indices).toList =
      name.toList ++ '[' :: ((indexText indices).toList ++ [']']) := by
  rw [indexedName, String.toList_append, String.toList_append, String.toList_append,
    List.append_assoc, List.append_assoc]
  rfl

variable [HasNumerals α] [HasNumerals β]

/-- The text of subscripts has digits, signs and commas only. -/
theorem not_mem_indexText {c : Char} (hn : isNumeralChar c = false) (hc : c ≠ ',')
    (indices : List α) : c ∉ (indexText indices).toList := by
  have hfree (a : α) : c ∉ (toString a).toList := by
    intro h
    rw [HasNumerals.isNumeralChar_of_mem a h] at hn
    cases hn
  induction indices with
  | nil => exact List.not_mem_nil
  | cons a rest ih =>
    cases rest with
    | nil => simpa [toList_indexText] using hfree a
    | cons b rest =>
      rw [indexText_cons_cons, List.mem_append, List.mem_cons]
      rintro (h | rfl | h)
      · exact hfree a h
      · exact hc rfl
      · exact ih h

/-- Subscripts with the same text have the same texts one by one. -/
theorem map_toString_eq_of_indexText_eq {i : List α} {j : List β} (hi : i ≠ []) (hj : j ≠ [])
    (h : indexText i = indexText j) : i.map toString = j.map toString := by
  have hcomma {γ : Type} [ToString γ] [HasNumerals γ] (indices : List γ) :
      ∀ l ∈ indices.map fun a => (toString a).toList, ',' ∉ l := by
    intro l hl hm
    obtain ⟨a, -, rfl⟩ := List.mem_map.1 hl
    exact absurd (HasNumerals.isNumeralChar_of_mem a hm) (by decide)
  have hl := congrArg String.toList h
  rw [toList_indexText, toList_indexText] at hl
  have hs := congrArg (List.splitOn ',') hl
  rw [List.splitOn_intercalate ',' (hcomma i) (by simpa using hi),
    List.splitOn_intercalate ',' (hcomma j) (by simpa using hj)] at hs
  have hv := congrArg (List.map String.ofList) hs
  simpa only [List.map_map, Function.comp_def, String.ofList_toList] using hv

/-- A list is cut in one way only in front of the last occurrence of a member. -/
theorem append_cons_inj_of_not_mem {γ : Type} {x : γ} {a a' b b' : List γ} (hb : x ∉ b)
    (hb' : x ∉ b') (h : a ++ x :: b = a' ++ x :: b') : a = a' ∧ b = b' := by
  rcases List.append_eq_append_iff.1 h with ⟨c, ha, hc⟩ | ⟨c, ha, hc⟩
  · rcases c with _ | ⟨y, c⟩
    · exact ⟨by simpa using ha.symm, (List.cons.inj hc).2⟩
    · exact absurd ((List.cons.inj hc).2 ▸ List.mem_append_right c List.mem_cons_self) hb
  · rcases c with _ | ⟨y, c⟩
    · exact ⟨by simpa using ha, (List.cons.inj hc).2.symm⟩
    · exact absurd ((List.cons.inj hc).2 ▸ List.mem_append_right c List.mem_cons_self) hb'

/-- The name of an element determines its array and the texts of its subscripts. -/
theorem eq_of_indexedName_eq {name other : String} {i : List α} {j : List β} (hi : i ≠ [])
    (hj : j ≠ []) (h : indexedName name i = indexedName other j) :
    name = other ∧ i.map toString = j.map toString := by
  have hl := congrArg String.toList h
  rw [toList_indexedName, toList_indexedName] at hl
  have hfree {γ : Type} [ToString γ] [HasNumerals γ] (indices : List γ) :
      '[' ∉ (indexText indices).toList ++ [']'] := by
    rw [List.mem_append]
    rintro (hm | hm)
    · exact not_mem_indexText (by decide) (by decide) indices hm
    · exact absurd (List.mem_singleton.1 hm) (by decide)
  obtain ⟨hn, ht⟩ := append_cons_inj_of_not_mem (hfree i) (hfree j) hl
  have htext : indexText i = indexText j := String.toList_inj.1 (List.append_cancel_right ht)
  exact ⟨String.toList_inj.1 hn, map_toString_eq_of_indexText_eq hi hj htext⟩

end Numerals

theorem toString_int_inj {i j : Int} (h : toString i = toString j) : i = j := Int.repr_inj.1 h

theorem map_toString_map_ofNat (j : List Nat) :
    (j.map Int.ofNat).map toString = j.map toString := by
  rw [List.map_map]
  rfl

theorem indexedName_map_ofNat (name : String) (j : List Nat) :
    indexedName name (j.map Int.ofNat) = indexedName name j := by
  rw [indexedName, indexedName, indexText, indexText, map_toString_map_ofNat]

/-- Integers with the texts of natural numbers are these numbers. -/
theorem map_ofNat_of_map_toString_eq {i : List Int} {j : List Nat}
    (h : i.map toString = j.map toString) : i = j.map Int.ofNat := by
  rw [← map_toString_map_ofNat] at h
  exact (List.map_inj_right fun _ _ => toString_int_inj).1 h

end GalecAudit
