import GalecAudit.Proofs.Grammar.Lexeme
import GalecAudit.Proofs.Grammar.Yield
import GalecAudit.Proofs.Source.Numerals

/-!
# Lexing

A text divided into lexemes without regard to its grammar: words, quoted names, numbers and single
characters, with trivia between them. The scanners of the grammar find whole lexemes, so none of them ends
inside of one.
-/
namespace GalecAudit.Grammar

open Source Scanner

section Lexing

/-- A word, a quoted name, a number or else a single character. -/
def lexeme : Scanner :=
  firstOf [Lexeme.rawIdent, Lexeme.quotedName, Lexeme.real, Lexeme.integer, one fun _ => true]

variable {cs w rest : List Char}

theorem lexeme_of_isIdentifier {name : String} (h : IsIdentifier name) (hrest : Ends isIdentChar rest) :
    lexeme (name.toList ++ rest) = some name.toList := by
  rw [lexeme, firstOf, orElse, Lexeme.rawIdent_append h hrest]

/-- Where no word begins the other lexemes decide. -/
theorem lexeme_of_ends (h : Ends Char.isAlpha cs) :
    lexeme cs = firstOf [Lexeme.quotedName, Lexeme.real, Lexeme.integer, one fun _ => true] cs := by
  rw [lexeme, firstOf, orElse, Lexeme.rawIdent, andThen_eq_none (one_eq_none_of_ends h)]

theorem lexeme_of_quotedName (h : Lexeme.quotedName cs = some w) : lexeme cs = some w := by
  obtain ⟨u, t, -, -, rfl, -⟩ := Lexeme.quotedName_eq_some_iff.1 h
  have hletter : Ends Char.isAlpha ('\'' :: (u ++ '\'' :: t)) := rfl
  rw [lexeme_of_ends hletter, firstOf, orElse, h]

theorem lexeme_of_isDigit {c : Char} (h : c.isDigit = true) :
    lexeme (c :: cs) = firstOf [Lexeme.real, Lexeme.integer, one fun _ => true] (c :: cs) := by
  have hletter : Ends Char.isAlpha (c :: cs) := isAlpha_eq_false_of_isDigit h
  have hquote : Ends (· == '\'') (c :: cs) := by
    refine beq_eq_false_iff_ne.2 ?_
    rintro rfl
    cases h
  rw [lexeme_of_ends hletter, firstOf, orElse, Lexeme.quotedName_eq_none hquote]

/-- A character that begins neither a word nor a quoted name nor a number. -/
def isMark (c : Char) : Bool := !startsName c && !c.isDigit

theorem isMark_iff {c : Char} :
    isMark c = true ↔ (c.isAlpha = false ∧ (c == '\'') = false) ∧ c.isDigit = false := by
  rw [isMark, startsName, Bool.and_eq_true, Bool.not_eq_true', Bool.not_eq_true', Bool.or_eq_false_iff]

theorem lexeme_of_isMark {c : Char} (h : isMark c = true) (cs : List Char) :
    lexeme (c :: cs) = some [c] := by
  have hletter : Ends Char.isAlpha (c :: cs) := (isMark_iff.1 h).1.1
  have hquote : Ends (· == '\'') (c :: cs) := (isMark_iff.1 h).1.2
  have hdigit : Ends Char.isDigit (c :: cs) := (isMark_iff.1 h).2
  rw [lexeme_of_ends hletter]
  simp only [firstOf, orElse, Lexeme.quotedName_eq_none hquote, Lexeme.real_eq_none hdigit,
    Lexeme.integer, Lexeme.digits_eq_none hdigit, one, if_true]

theorem ne_nil_of_lexeme (h : lexeme cs = some w) : w ≠ [] := by
  rcases orElse_eq_some_iff.1 h with h | ⟨-, h⟩
  · obtain ⟨u, v, hu, -, rfl⟩ := andThen_eq_some_iff.1 h
    obtain ⟨c, -, -, rfl⟩ := one_eq_some_iff.1 hu
    exact List.cons_ne_nil c v
  rcases orElse_eq_some_iff.1 h with h | ⟨-, h⟩
  · exact Lexeme.isLexeme_quotedName.nonempty cs w h
  rcases orElse_eq_some_iff.1 h with h | ⟨-, h⟩
  · exact Lexeme.isLexeme_real.nonempty cs w h
  rcases orElse_eq_some_iff.1 h with h | ⟨-, h⟩
  · exact Lexeme.isLexeme_integer.nonempty cs w h
  rcases orElse_eq_some_iff.1 h with h | ⟨-, h⟩
  · obtain ⟨c, -, -, rfl⟩ := one_eq_some_iff.1 h
    exact List.cons_ne_nil c []
  · cases h

theorem length_drop_lexeme_lt (h : lexeme cs = some w) : (cs.drop w.length).length < cs.length := by
  have hcs : cs ≠ [] := by
    rintro rfl
    cases h
  have hw := List.length_pos_of_ne_nil (ne_nil_of_lexeme h)
  have hlen := List.length_pos_of_ne_nil hcs
  rw [List.length_drop]
  omega

/-- The integer literals from a place on: the lexemes that are digits only, each with its line. -/
def numeralsFrom (c : Cursor) : List Numeral :=
  match _h : lexeme c.skip.rest with
  | none => []
  | some w =>
    if w.all Char.isDigit then
      ⟨String.ofList w, c.skip.line⟩ :: numeralsFrom (c.skip.advance w)
    else numeralsFrom (c.skip.advance w)
termination_by c.rest.length
decreasing_by
  all_goals exact Nat.lt_of_lt_of_le (length_drop_lexeme_lt _h) (length_pastTrivia_le c.rest)

/-- The integer literals of a text. -/
def integerLiterals (source : String) : List Numeral := numeralsFrom (Cursor.start source)

theorem numeralsFrom_skip (c : Cursor) : numeralsFrom c.skip = numeralsFrom c := by
  rw [numeralsFrom, numeralsFrom, Cursor.skip_skip]

theorem numeralsFrom_of_eq_some {c : Cursor} (h : lexeme c.skip.rest = some w) :
    numeralsFrom c =
      if w.all Char.isDigit then
        ⟨String.ofList w, c.skip.line⟩ :: numeralsFrom (c.skip.advance w)
      else numeralsFrom (c.skip.advance w) := by
  rw [numeralsFrom]
  split
  · next hnone =>
    rw [h] at hnone
    cases hnone
  · next v hv =>
    rw [h] at hv
    cases hv
    rfl

theorem numeralsFrom_of_eq_nil {c : Cursor} (h : c.skip.rest = []) : numeralsFrom c = [] := by
  have hnone : lexeme c.skip.rest = none := by
    rw [h]
    rfl
  rw [numeralsFrom]
  split
  · rfl
  · next v hv =>
    rw [hnone] at hv
    cases hv

end Lexing

section Passing

variable {s : Scanner} {cs w : List Char}

/-- Behind trivia the scanner finds no integer literal, nor does it end inside of one. -/
def Passes (s : Scanner) : Prop :=
  ∀ (c : Cursor) w, s c.skip.rest = some w → numeralsFrom c = numeralsFrom (c.skip.advance w)

/-- A scanner of lexemes that are not numbers of digits only. -/
theorem passes_of_lexeme
    (h : ∀ cs w, s cs = some w → lexeme cs = some w ∧ w.all Char.isDigit = false) : Passes s := by
  intro c w hw
  obtain ⟨hlexeme, hdigits⟩ := h _ _ hw
  rw [numeralsFrom_of_eq_some hlexeme, hdigits]
  rfl

theorem isDigit_eq_false_of_isAlpha {c : Char} (h : c.isAlpha = true) : c.isDigit = false :=
  isDigit_of_startsName (by rw [startsName, h, Bool.true_or])

theorem all_isDigit_of_starts {p : Char → Bool} (hp : ∀ c, p c = true → c.isDigit = false)
    (h : Starts p w) : w.all Char.isDigit = false := by
  cases w with
  | nil => cases h
  | cons c w => rw [List.all_cons, hp c h, Bool.false_and]

theorem Passes.notBefore (h : Passes s) (p : Char → Bool) : Passes (s.notBefore p) :=
  fun c w hw => h c w (notBefore_eq_some hw).1

theorem numeralsFrom_of_isMark {c : Cursor} {d : Char} {rest : List Char} (hd : isMark d = true)
    (h : c.skip.rest = d :: rest) : numeralsFrom c = numeralsFrom (c.skip.advance [d]) := by
  have hlexeme : lexeme c.skip.rest = some [d] := h ▸ lexeme_of_isMark hd rest
  rw [numeralsFrom_of_eq_some hlexeme, List.all_cons, (isMark_iff.1 hd).2]
  rfl

/-- Each character of a mark is a lexeme of its own, and no trivia begins between two of them. -/
theorem numeralsFrom_of_marks {c : Cursor} {w rest : List Char} (hmark : ∀ d ∈ w, isMark d = true)
    (hsolid : ∀ d ∈ w.tail, isSolid d = true) (hc : c.skip = c) (hrest : c.rest = w ++ rest) :
    numeralsFrom c = numeralsFrom (c.advance w) := by
  induction w generalizing c with
  | nil => rfl
  | cons d w ih =>
    obtain ⟨hd, hmark⟩ := List.forall_mem_cons.1 hmark
    have hfirst := numeralsFrom_of_isMark hd (hc.symm ▸ hrest)
    rw [hc] at hfirst
    have hnext : (c.advance [d]).rest = w ++ rest := by
      rw [Cursor.advance, hrest]
      rfl
    cases w with
    | nil => exact hfirst
    | cons e w =>
      obtain ⟨he, hsolid⟩ := List.forall_mem_cons.1 hsolid
      have hskip : (c.advance [d]).skip = c.advance [d] :=
        Cursor.skip_of_pastTrivia (by rw [hnext]; exact pastTrivia_of_isSolid he _)
      rw [hfirst, ih hmark hsolid hskip hnext, Cursor.advance_advance]
      rfl

theorem passes_text {text : String}
    (h : text.toList.all isMark = true ∧ text.toList.tail.all isSolid = true) :
    Passes (Scanner.text text) := by
  intro c w hw
  rw [Scanner.text] at hw
  split at hw
  · next hp =>
    cases hw
    obtain ⟨rest, hrest⟩ := List.isPrefixOf_iff_prefix.1 hp
    rw [← numeralsFrom_skip]
    exact numeralsFrom_of_marks (List.all_eq_true.1 h.1) (List.all_eq_true.1 h.2) c.skip_skip hrest.symm
  · cases hw

theorem passes_wordOf {spellings : List String} (h : ∀ s ∈ spellings, s ∈ keywords) :
    Passes (wordOf spellings) := by
  refine passes_of_lexeme fun cs w hw => ?_
  obtain ⟨s, hs, rfl, ⟨rest, rfl⟩, hends⟩ := exists_of_wordOf hw
  have hs := isIdentifier_of_mem_keywords s (h s hs)
  rw [List.drop_left] at hends
  exact ⟨lexeme_of_isIdentifier hs hends,
    all_isDigit_of_starts (fun _ => isDigit_eq_false_of_isAlpha) hs.starts⟩

theorem passes_word {name : String} (hname : name ∈ keywords) : Passes (word name) := by
  rw [word_eq_wordOf]
  exact passes_wordOf (List.forall_mem_singleton.2 hname)

theorem passes_ident : Passes Lexeme.ident := by
  refine passes_of_lexeme fun cs w hw => ?_
  have hstarts := (Lexeme.isIdentifier_of_ident hw).1.starts
  rw [String.toList_ofList] at hstarts
  have hraw : Lexeme.rawIdent cs = some w := by
    rw [Lexeme.ident] at hw
    split at hw
    · cases hw
    · exact hw
  exact ⟨orElse_eq_some_iff.2 (.inl hraw),
    all_isDigit_of_starts (fun _ => isDigit_eq_false_of_isAlpha) hstarts⟩

theorem passes_quotedName : Passes Lexeme.quotedName := by
  refine passes_of_lexeme fun cs w hw => ⟨lexeme_of_quotedName hw, ?_⟩
  obtain ⟨u, t, -, -, -, rfl⟩ := Lexeme.quotedName_eq_some_iff.1 hw
  rfl

theorem all_isDigit_of_isExponent (h : IsExponent w) : w.all Char.isDigit = false := by
  have hletter {e : Char} (he : e = 'e' ∨ e = 'E') : e.isDigit = false := by
    rcases he with rfl | rfl <;> rfl
  cases h with
  | unsigned he _ => rw [List.all_cons, hletter he, Bool.false_and]
  | signed he _ _ => rw [List.all_cons, hletter he, Bool.false_and]

theorem all_isDigit_of_isReal (h : IsReal w) : w.all Char.isDigit = false := by
  cases h with
  | point | pointExponent => rw [List.all_append, List.all_cons]; simp
  | exponent _ he => rw [List.all_append, all_isDigit_of_isExponent he, Bool.and_false]

theorem passes_real : Passes Lexeme.real := by
  refine passes_of_lexeme fun cs w hw => ⟨?_, all_isDigit_of_isReal (Lexeme.isReal_of_real hw)⟩
  cases cs with
  | nil => cases hw
  | cons c cs =>
    by_cases hc : c.isDigit = true
    · rw [lexeme_of_isDigit hc]
      exact orElse_eq_some_iff.2 (.inl hw)
    · rw [Lexeme.real_eq_none (ends_cons.2 (Bool.eq_false_iff.2 hc))] at hw
      cases hw

/-- Digits that are no real literal are an integer literal. -/
theorem numeralsFrom_of_integer {c : Cursor} (hreal : Lexeme.real c.skip.rest = none)
    (h : Lexeme.integer c.skip.rest = some w) :
    numeralsFrom c = ⟨String.ofList w, c.skip.line⟩ :: numeralsFrom (c.skip.advance w) := by
  have hw := Lexeme.isDigits_of_digits h
  have hlexeme : lexeme c.skip.rest = some w := by
    generalize c.skip.rest = cs at hreal h
    cases cs with
    | nil => cases h
    | cons d cs =>
      by_cases hd : d.isDigit = true
      · rw [lexeme_of_isDigit hd]
        exact orElse_eq_some_iff.2 (.inr ⟨hreal, orElse_eq_some_iff.2 (.inl h)⟩)
      · rw [Lexeme.integer, Lexeme.digits_eq_none (ends_cons.2 (Bool.eq_false_iff.2 hd))] at h
        cases h
  rw [numeralsFrom_of_eq_some hlexeme, if_pos (List.all_eq_true.2 hw.2)]

end Passing

end GalecAudit.Grammar
