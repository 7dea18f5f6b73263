import GalecAudit.Proofs.Grammar.Name

/-!
# Lexemes

Each lexeme of the grammar is at least one character long and ends in front of the first blank. So it is
found wherever its text stands up to a blank.
-/
namespace GalecAudit.Grammar

open Scanner

/-- A scanner of lexemes: none of them is empty, none contains a blank, and what stands behind the first
blank makes no difference. -/
structure IsLexeme (s : Scanner) : Prop where
  stops : StopsAt isSpace s
  nonempty : ∀ cs w, s cs = some w → w ≠ []

variable {s : Scanner}

theorem stopsAt_isSpace (h : StopsAt Lexeme.isBoundary s) : StopsAt isSpace s :=
  h.of_imp fun c hc => by rw [Lexeme.isBoundary, hc, Bool.or_true]

section Texts

theorem isLexeme_text {text : String}
    (h : text ≠ "" ∧ text.toList.all (fun c => !isSpace c) = true) : IsLexeme (Scanner.text text) where
  stops := stopsAt_text h.2
  nonempty cs w hw := by
    rw [eq_toList_of_text hw]
    exact fun hnil => h.1 (String.toList_eq_nil_iff.1 hnil)

theorem IsLexeme.notBefore (h : IsLexeme s) {q : Char → Bool}
    (hq : [' ', '\t', '\x0c', '\n', '\r'].all (fun c => !q c) = true) :
    IsLexeme (s.notBefore q) where
  stops := h.stops.notBefore (eq_false_of_isSpace hq)
  nonempty cs w hw := h.nonempty cs w (notBefore_eq_some hw).1

theorem isLexeme_firstOf {scanners : List Scanner} (h : ∀ s ∈ scanners, IsLexeme s) :
    IsLexeme (firstOf scanners) where
  stops := stopsAt_firstOf fun s hs => (h s hs).stops
  nonempty cs w hw := by
    induction scanners with
    | nil => cases hw
    | cons s rest ih =>
      obtain ⟨hs, hrest⟩ := List.forall_mem_cons.1 h
      rcases orElse_eq_some_iff.1 hw with hw | ⟨-, hw⟩
      · exact hs.nonempty cs w hw
      · exact ih hrest hw

theorem isLexeme_word {text : String}
    (h : text ≠ "" ∧ text.toList.all (fun c => !isSpace c) = true) : IsLexeme (word text) :=
  (isLexeme_text h).notBefore (by decide)

theorem isLexeme_wordOf {spellings : List String}
    (h : spellings.all (fun s => s ≠ "" ∧ s.toList.all (fun c => !isSpace c) = true) = true) :
    IsLexeme (wordOf spellings) := by
  refine (isLexeme_firstOf fun s hs => ?_).notBefore (by decide)
  obtain ⟨text, htext, rfl⟩ := List.mem_map.1 hs
  exact isLexeme_text (of_decide_eq_true (List.all_eq_true.1 h text htext))

end Texts

namespace Lexeme

theorem isLexeme_ident : IsLexeme ident where
  stops u t t' hu ht ht' := by
    have hkeyword : IsLexeme (wordOf keywords) := isLexeme_wordOf (by decide +kernel)
    rw [ident, ident, (hkeyword.stops u t t' hu ht ht').1]
    cases wordOf keywords (u ++ t') with
    | some w => exact ⟨rfl, fun v hv => by cases hv⟩
    | none => exact stopsAt_isSpace stopsAt_rawIdent u t t' hu ht ht'
  nonempty cs w hw := by
    have hstarts := (isIdentifier_of_ident hw).1.starts
    rw [String.toList_ofList] at hstarts
    exact hstarts.ne_nil

/-- In texts of bounded length a quoted name is found with a fixed depth of derivatives. -/
theorem quotedName_eq_of_length_le {n : Nat} (cs : List Char) (h : cs.length ≤ n) :
    quotedName cs = (one (· == '\'')).andThen ((quotedBody n).andThen (one (· == '\''))) cs := by
  rw [quotedName_eq]
  refine andThen_congr fun w _ => andThen_congr_left ?_
  have hdrop := List.length_drop (i := w.length) (l := cs)
  exact quotedBody_eq (by omega) (by omega)

theorem isLexeme_quotedName : IsLexeme quotedName where
  stops u t t' hu ht ht' := by
    have hquote : StopsAt isSpace (one (· == '\'')) := stopsAt_one (eq_false_of_isSpace (by decide))
    have hbody := stopsAt_isSpace (stopsAt_quotedBody ((u ++ t).length + (u ++ t').length))
    rw [quotedName_eq_of_length_le (u ++ t) (Nat.le_add_right ..),
      quotedName_eq_of_length_le (u ++ t') (Nat.le_add_left ..)]
    exact (hquote.andThen (hbody.andThen hquote)) u t t' hu ht ht'
  nonempty cs w hw := by
    obtain ⟨u, t, -, -, -, rfl⟩ := quotedName_eq_some_iff.1 hw
    exact List.cons_ne_nil _ _

theorem isLexeme_integer : IsLexeme integer where
  stops := stopsAt_isSpace stopsAt_digits
  nonempty _ _ hw := (isDigits_of_digits hw).1

theorem stopsAt_exponent : StopsAt isSpace exponent := by
  have hletter : StopsAt isSpace (one fun c => c == 'e' || c == 'E') :=
    stopsAt_one (eq_false_of_isSpace (by decide))
  have hsign : StopsAt isSpace (one fun c => c == '+' || c == '-') :=
    stopsAt_one (eq_false_of_isSpace (by decide))
  exact stopsAt_sequence (by simpa using ⟨hletter, hsign.optional, isLexeme_integer.stops⟩)

theorem isLexeme_real : IsLexeme real where
  stops := by
    have hpoint : StopsAt isSpace (sequence [text ".", span Char.isDigit, optional exponent]) :=
      stopsAt_sequence (by
        simpa using ⟨stopsAt_text (by decide), stopsAt_span (eq_false_of_isSpace (by decide)),
          stopsAt_exponent.optional⟩)
    exact isLexeme_integer.stops.andThen (hpoint.orElse stopsAt_exponent)
  nonempty _ _ hw := (isReal_of_real hw).starts.ne_nil

end Lexeme
end GalecAudit.Grammar
