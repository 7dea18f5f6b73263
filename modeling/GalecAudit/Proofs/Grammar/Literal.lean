import GalecAudit.Language.Type
import GalecAudit.Proofs.Grammar.Word

/-!
# Literals

The spelling of literals, and that the scanners find exactly the texts so spelled, whatever follows that
does not continue the literal.
-/
namespace GalecAudit.Grammar

/-- A character that may continue a name or a literal. -/
def continuesLexeme (c : Char) : Bool := isIdentChar c || c == '.'

theorem isAlpha_eq_false_of_isDigit {c : Char} (h : c.isDigit = true) : c.isAlpha = false := by
  rw [Char.isDigit, Bool.and_eq_true, decide_eq_true_iff, decide_eq_true_iff] at h
  have h9 : c.val.toNat ≤ 57 := h.2
  rw [Bool.eq_false_iff]
  intro hletter
  rcases Bool.or_eq_true_iff.1 (hletter : (c.isUpper || c.isLower) = true) with hA | ha
  · have hA : 65 ≤ c.val.toNat := (of_decide_eq_true hA).1
    omega
  · have ha : 97 ≤ c.val.toNat := of_decide_eq_true (Bool.and_eq_true_iff.1 ha).1
    omega

/-- A place where neither a name nor a literal goes on. -/
abbrev Closed (rest : List Char) : Prop := Ends continuesLexeme rest

section Closed

variable {rest : List Char}

theorem Closed.isIdentChar (h : Closed rest) : Ends isIdentChar rest :=
  Ends.of_imp h fun c hc => by rw [continuesLexeme, hc, Bool.true_or]

theorem Closed.isDigit (h : Closed rest) : Ends Char.isDigit rest :=
  Ends.of_imp h.isIdentChar fun _ => isIdentChar_of_isDigit

theorem Closed.point (h : Closed rest) : Ends (· == '.') rest :=
  Ends.of_imp h fun c hc => by rw [continuesLexeme, hc, Bool.or_true]

theorem Closed.exponent (h : Closed rest) : Ends (fun c => c == 'e' || c == 'E') rest :=
  Ends.of_imp h.isIdentChar fun c hc => by
    rw [Bool.or_eq_true, beq_iff_eq, beq_iff_eq] at hc
    rcases hc with rfl | rfl <;> rfl

end Closed

/-- One decimal digit or more. -/
def IsDigits (w : List Char) : Prop := w ≠ [] ∧ ∀ c ∈ w, c.isDigit = true

/-- The letter `e`, a sign that may be missing, and digits. -/
inductive IsExponent : List Char → Prop
  | unsigned {e w} : e = 'e' ∨ e = 'E' → IsDigits w → IsExponent (e :: w)
  | signed {e sign w} : e = 'e' ∨ e = 'E' → sign = '+' ∨ sign = '-' → IsDigits w →
      IsExponent (e :: sign :: w)

/-- Digits with a point, an exponent or both. Digits behind the point may be missing. -/
inductive IsReal : List Char → Prop
  | point {whole fraction} : IsDigits whole → (∀ c ∈ fraction, c.isDigit = true) →
      IsReal (whole ++ '.' :: fraction)
  | pointExponent {whole fraction exponent} : IsDigits whole →
      (∀ c ∈ fraction, c.isDigit = true) → IsExponent exponent →
      IsReal (whole ++ '.' :: (fraction ++ exponent))
  | exponent {whole exponent} : IsDigits whole → IsExponent exponent → IsReal (whole ++ exponent)

theorem IsDigits.starts {w : List Char} (hw : IsDigits w) : Starts Char.isDigit w := by
  obtain ⟨c, w, rfl⟩ := List.exists_cons_of_ne_nil hw.1
  exact hw.2 c List.mem_cons_self

theorem IsExponent.ends {p : Char → Bool} {w rest : List Char} (h : IsExponent w)
    (he : p 'e' = false) (hE : p 'E' = false) : Ends p (w ++ rest) := by
  cases h with
  | unsigned hc => rcases hc with rfl | rfl <;> assumption
  | signed hc => rcases hc with rfl | rfl <;> assumption

/-- The spellings of the literals of a type. -/
inductive IsLiteral : PrimitiveType → String → Prop
  | boolean {text} : text = "true" ∨ text = "false" → IsLiteral .boolean text
  | real {text} : IsReal text.toList → IsLiteral .real text
  | integer {text} : IsDigits text.toList → IsLiteral .integer text

theorem IsReal.starts {w : List Char} (hw : IsReal w) : Starts Char.isDigit w := by
  cases hw with
  | point hw | pointExponent hw | exponent hw => exact hw.starts.append _

/-- A literal is the word `true` or `false`, or begins with a digit. -/
theorem IsLiteral.word_or_digit {type : PrimitiveType} {text : String} (h : IsLiteral type text) :
    (text = "true" ∨ text = "false") ∨ Starts Char.isDigit text.toList := by
  cases h with
  | boolean h => exact .inl h
  | real h => exact .inr h.starts
  | integer h => exact .inr h.starts

namespace Scanner

variable {s t : Scanner} {w v cs rest : List Char}

theorem andThen_append (hs : s (w ++ (v ++ rest)) = some w) (ht : t (v ++ rest) = some v) :
    s.andThen t (w ++ (v ++ rest)) = some (w ++ v) := by
  rw [andThen, hs]
  simp only [List.drop_left, ht, Option.map_some]

theorem andThen_eq_none (h : s cs = none) : s.andThen t cs = none := by rw [andThen, h]

theorem andThen_eq_some_iff :
    s.andThen t cs = some w ↔
      ∃ u v, s cs = some u ∧ t (cs.drop u.length) = some v ∧ u ++ v = w := by
  rw [andThen]
  cases s cs <;> simp

theorem orElse_eq_some_iff :
    s.orElse t cs = some w ↔ s cs = some w ∨ s cs = none ∧ t cs = some w := by
  rw [orElse]
  cases s cs <;> simp

theorem sequence_singleton (s : Scanner) : sequence [s] = s := by
  funext cs
  rw [sequence, andThen]
  cases s cs with
  | none => rfl
  | some u => exact congrArg some (List.append_nil u)

theorem one_cons {p : Char → Bool} {c : Char} (h : p c = true) (cs : List Char) :
    one p (c :: cs) = some [c] := by rw [one, if_pos h]

theorem one_eq_none_of_ends {p : Char → Bool} (h : Ends p cs) : one p cs = none := by
  cases cs with
  | nil => rfl
  | cons c cs => rw [one, ends_cons.1 h, if_neg (by decide)]

theorem one_eq_some_iff {p : Char → Bool} :
    one p cs = some w ↔ ∃ c, cs.head? = some c ∧ p c = true ∧ [c] = w := by
  cases cs with
  | nil => simp [one]
  | cons c cs => cases h : p c <;> simp [one, h]

theorem optional_of_eq_none (h : s cs = none) : optional s cs = some [] := by
  rw [optional, h, Option.getD_none]

theorem optional_of_eq_some (h : s cs = some w) : optional s cs = some w := by
  rw [optional, h, Option.getD_some]

theorem optional_eq_some_iff : optional s cs = some w ↔ s cs = some w ∨ s cs = none ∧ w = [] := by
  rw [optional]
  cases s cs <;> simp [eq_comm]

/-- The text of one character. -/
theorem text_eq_one {text : String} {c : Char} (h : text.toList = [c]) :
    Scanner.text text = one (· == c) := by
  funext cs
  rw [Scanner.text, h]
  cases cs with
  | nil => rfl
  | cons d cs =>
    by_cases hd : d = c
    · simp [one, hd]
    · simp [one, hd, Ne.symm hd]

end Scanner

namespace Lexeme

open Scanner

variable {w v cs rest : List Char}

theorem digits_append (hw : IsDigits w) (hrest : Ends Char.isDigit rest) :
    digits (w ++ rest) = some w := by
  rw [digits, span1, takeWhile_append_of_ends hw.2 hrest]
  obtain ⟨c, w, rfl⟩ := List.exists_cons_of_ne_nil hw.1
  rfl

theorem digits_eq_none (h : Ends Char.isDigit cs) : digits cs = none := by
  have hw : cs.takeWhile Char.isDigit = [] := takeWhile_append_of_ends (w := []) nofun h
  rw [digits, span1, hw]

theorem isDigits_of_digits (h : digits cs = some w) : IsDigits w := by
  rw [digits, span1] at h
  split at h
  · cases h
  · next hne =>
    cases h
    exact ⟨hne, List.all_eq_true.1 List.all_takeWhile⟩

theorem isExponentLetter_iff {c : Char} : (c == 'e' || c == 'E') = true ↔ c = 'e' ∨ c = 'E' := by
  rw [Bool.or_eq_true, beq_iff_eq, beq_iff_eq]

theorem isSign_iff {c : Char} : (c == '+' || c == '-') = true ↔ c = '+' ∨ c = '-' := by
  rw [Bool.or_eq_true, beq_iff_eq, beq_iff_eq]

theorem exponent_eq (cs : List Char) :
    exponent cs = (one fun c => c == 'e' || c == 'E').andThen
      ((optional (one fun c => c == '+' || c == '-')).andThen digits) cs := by
  rw [exponent, Scanner.sequence, Scanner.sequence, sequence_singleton]

theorem exponent_append (hw : IsExponent w) (hrest : Ends Char.isDigit rest) :
    exponent (w ++ rest) = some w := by
  rw [exponent_eq]
  cases hw with
  | @unsigned e w he hw =>
    have hsign : Ends (fun c => c == '+' || c == '-') (w ++ rest) :=
      hw.starts.ends (fun c hc => by
        rw [Bool.eq_false_iff, Ne, isSign_iff]
        rintro (rfl | rfl) <;> exact absurd hc (by decide)) rest
    refine andThen_append (w := [e]) (v := w) ?_ (andThen_append (w := []) (v := w) ?_ ?_)
    · exact one_cons (isExponentLetter_iff.2 he) _
    · exact optional_of_eq_none (one_eq_none_of_ends hsign)
    · exact digits_append hw hrest
  | @signed e sign w he hs hw =>
    refine andThen_append (w := [e]) (v := sign :: w) ?_
      (andThen_append (w := [sign]) (v := w) ?_ ?_)
    · exact one_cons (isExponentLetter_iff.2 he) _
    · exact optional_of_eq_some (one_cons (isSign_iff.2 hs) _)
    · exact digits_append hw hrest

theorem exponent_eq_none (h : Ends (fun c => c == 'e' || c == 'E') cs) : exponent cs = none := by
  rw [exponent_eq, andThen_eq_none (one_eq_none_of_ends h)]

theorem isExponent_of_exponent (h : exponent cs = some w) : IsExponent w := by
  rw [exponent_eq, andThen_eq_some_iff] at h
  obtain ⟨_, tail, hletter, htail, rfl⟩ := h
  obtain ⟨e, -, he, rfl⟩ := one_eq_some_iff.1 hletter
  obtain ⟨sign, digits, hsign, hdigits, rfl⟩ := andThen_eq_some_iff.1 htail
  have hw := isDigits_of_digits hdigits
  rcases optional_eq_some_iff.1 hsign with hs | ⟨-, rfl⟩
  · obtain ⟨c, -, hc, rfl⟩ := one_eq_some_iff.1 hs
    exact .signed (isExponentLetter_iff.1 he) (isSign_iff.1 hc) hw
  · exact .unsigned (isExponentLetter_iff.1 he) hw

theorem real_eq (cs : List Char) :
    real cs = digits.andThen (((one (· == '.')).andThen
      ((span Char.isDigit).andThen (optional exponent))).orElse exponent) cs := by
  rw [real, Scanner.sequence, Scanner.sequence, sequence_singleton, text_eq_one (c := '.') rfl]

/-- Digits and what begins with a point or an exponent. -/
theorem real_append_of_tail (hw : IsDigits w) (hv : Ends Char.isDigit (v ++ rest))
    (h : ((one (· == '.')).andThen ((span Char.isDigit).andThen (optional exponent))).orElse exponent
      (v ++ rest) = some v) : real (w ++ v ++ rest) = some (w ++ v) := by
  rw [real_eq, List.append_assoc]
  exact andThen_append (digits_append hw hv) h

theorem fraction_append {fraction : List Char} (hf : ∀ c ∈ fraction, c.isDigit = true)
    (hv : Ends Char.isDigit (v ++ rest)) (h : optional exponent (v ++ rest) = some v) :
    ((one (· == '.')).andThen ((span Char.isDigit).andThen (optional exponent))).orElse exponent
      ('.' :: (fraction ++ v) ++ rest) = some ('.' :: (fraction ++ v)) := by
  refine orElse_eq_some_iff.2 (.inl ?_)
  rw [List.cons_append]
  refine andThen_append (w := ['.']) (v := fraction ++ v) ?_ ?_
  · exact one_cons rfl _
  rw [List.append_assoc]
  refine andThen_append ?_ h
  rw [span, takeWhile_append_of_ends hf hv]

theorem real_append (hw : IsReal w) (hrest : Closed rest) : real (w ++ rest) = some w := by
  cases hw with
  | @point whole fraction hw hf =>
    refine real_append_of_tail hw rfl ?_
    rw [← List.append_nil fraction]
    exact fraction_append hf hrest.isDigit
      (optional_of_eq_none (exponent_eq_none hrest.exponent))
  | @pointExponent whole fraction tail hw hf he =>
    exact real_append_of_tail hw rfl (fraction_append hf (he.ends rfl rfl)
      (optional_of_eq_some (exponent_append he hrest.isDigit)))
  | @exponent whole tail hw he =>
    refine real_append_of_tail hw (he.ends rfl rfl) (orElse_eq_some_iff.2 (.inr ⟨?_, ?_⟩))
    · refine andThen_eq_none (one_eq_none_of_ends ?_)
      exact he.ends rfl rfl
    · exact exponent_append he hrest.isDigit

/-- Digits alone are no real literal. -/
theorem real_append_eq_none (hw : IsDigits w) (hrest : Closed rest) : real (w ++ rest) = none := by
  rw [real_eq, andThen, digits_append hw hrest.isDigit]
  simp only [List.drop_left]
  rw [orElse, andThen_eq_none (one_eq_none_of_ends hrest.point), exponent_eq_none hrest.exponent]
  rfl

theorem real_eq_none (h : Ends Char.isDigit cs) : real cs = none := by
  rw [real_eq, andThen_eq_none (digits_eq_none h)]

theorem isReal_of_real (h : real cs = some w) : IsReal w := by
  rw [real_eq] at h
  obtain ⟨whole, tail, hwhole, htail, rfl⟩ := andThen_eq_some_iff.1 h
  have hw := isDigits_of_digits hwhole
  rcases orElse_eq_some_iff.1 htail with hpoint | ⟨-, hexponent⟩
  · obtain ⟨_, behind, hp, hbehind, rfl⟩ := andThen_eq_some_iff.1 hpoint
    obtain ⟨c, -, hc, rfl⟩ := one_eq_some_iff.1 hp
    obtain ⟨fraction, last, hfraction, hlast, rfl⟩ := andThen_eq_some_iff.1 hbehind
    have hf : ∀ c ∈ fraction, c.isDigit = true := by
      cases hfraction
      exact List.all_eq_true.1 List.all_takeWhile
    cases beq_iff_eq.1 hc
    rcases optional_eq_some_iff.1 hlast with he | ⟨-, rfl⟩
    · have hr : IsReal (whole ++ '.' :: (fraction ++ last)) :=
        .pointExponent hw hf (isExponent_of_exponent he)
      exact hr
    · rw [List.append_nil]
      exact .point hw hf
  · exact .exponent hw (isExponent_of_exponent hexponent)

end Lexeme

end GalecAudit.Grammar
