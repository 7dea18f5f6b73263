import GalecAudit.Grammar.Cursor
import GalecAudit.Proofs.Grammar.Stopping

/-!
# Names

A name is an identifier or stands in single quotes. What is read between the quotes does not depend on
the text behind them, so a name is read wherever it stands as it is read alone.
-/
namespace GalecAudit.Grammar

namespace Scanner

/-- The scanner never reads a quote, and the text behind the first quote makes no difference to it. -/
def StopsAtQuote (s : Scanner) : Prop :=
  ∀ u t, '\'' ∉ u → s (u ++ '\'' :: t) = s (u ++ ['\'']) ∧
    ∀ w, s (u ++ '\'' :: t) = some w → w <+: u

theorem StopsAt.stopsAtQuote {s : Scanner} (h : StopsAt (· == '\'') s) : StopsAtQuote s := by
  intro u t hu
  refine h u _ _ (fun c hc => ?_) (breaks_cons rfl t) (breaks_cons rfl [])
  rw [beq_eq_false_iff_ne]
  rintro rfl
  exact hu hc

variable {s r : Scanner}

theorem andThen_congr {cs : List Char} {r r' : Scanner}
    (h : ∀ w, s cs = some w → r (cs.drop w.length) = r' (cs.drop w.length)) :
    s.andThen r cs = s.andThen r' cs := by
  rw [Scanner.andThen, Scanner.andThen]
  cases hw : s cs with
  | none => rfl
  | some w => simp only [h w hw]

theorem andThen_congr_left {cs : List Char} {s' : Scanner} (h : s cs = s' cs) :
    s.andThen r cs = s'.andThen r cs := by
  rw [Scanner.andThen, Scanner.andThen, h]

theorem eq_toList_of_text {text : String} {cs w : List Char} (h : Scanner.text text cs = some w) :
    w = text.toList := by
  rw [Scanner.text] at h
  split at h
  · exact (Option.some.inj h).symm
  · cases h

end Scanner

/-- A class that leaves out the blanks. -/
theorem eq_false_of_isSpace {q : Char → Bool}
    (hq : [' ', '\t', '\x0c', '\n', '\r'].all (fun c => !q c) = true) (c : Char)
    (h : isSpace c = true) : q c = false := by
  have hmem : c ∈ [' ', '\t', '\x0c', '\n', '\r'] := by
    simpa [isSpace, or_assoc] using h
  exact Bool.not_eq_true' .. ▸ List.all_eq_true.1 hq c hmem

namespace Lexeme

open Scanner

/-- Quotes and blanks. Neither stands inside what is in quotes. -/
def isBoundary (c : Char) : Bool := c == '\'' || isSpace c

/-- A class that leaves out quotes and blanks. -/
theorem eq_false_of_isBoundary {q : Char → Bool} (hq : ['\'', ' ', '\t', '\x0c', '\n', '\r'].all
    (fun c => !q c) = true) (c : Char) (h : isBoundary c = true) : q c = false := by
  obtain ⟨hquote, hblanks⟩ := Bool.and_eq_true_iff.1 hq
  rcases Bool.or_eq_true_iff.1 h with hc | hc
  · rw [beq_iff_eq.1 hc]
    exact Bool.not_eq_true' .. ▸ hquote
  · exact eq_false_of_isSpace hblanks c hc

theorem stopsAt_rawIdent : StopsAt isBoundary rawIdent :=
  (stopsAt_one (eq_false_of_isBoundary (by decide))).andThen
    (stopsAt_span (eq_false_of_isBoundary (by decide)))

theorem stopsAt_digits : StopsAt isBoundary digits :=
  stopsAt_span1 (eq_false_of_isBoundary (by decide))

theorem stopsAt_fixedSubscript : StopsAt isBoundary fixedSubscript := by
  have hmore : StopsAt isBoundary (sequence [text ",", digits]) :=
    stopsAt_sequence (by simpa using ⟨stopsAt_text (by decide), stopsAt_digits⟩)
  refine stopsAt_sequence ?_
  simpa using ⟨stopsAt_text (by decide), stopsAt_digits, hmore.many, stopsAt_text (by decide)⟩

theorem stopsAt_scalarPath : StopsAt isBoundary scalarPath := by
  have hsegment := stopsAt_rawIdent.andThen stopsAt_fixedSubscript.optional
  exact hsegment.andThen ((stopsAt_text (by decide)).andThen hsegment).many

theorem stopsAt_previousForm : StopsAt isBoundary previousForm :=
  stopsAt_sequence (by
    simpa using ⟨stopsAt_text (by decide), stopsAt_scalarPath, stopsAt_text (by decide)⟩)

theorem stopsAt_derivativeForm (depth : Nat) : StopsAt isBoundary (derivativeForm depth) := by
  induction depth with
  | zero => exact fun u t t' _ _ _ => ⟨rfl, nofun⟩
  | succ depth ih =>
    exact stopsAt_sequence (by
      simpa using ⟨stopsAt_text (by decide), ih.orElse stopsAt_scalarPath,
        stopsAt_text (by decide)⟩)

/-- Derivatives cannot be nested deeper than the text is long. -/
theorem derivativeForm_eq {n m : Nat} {cs : List Char} (hn : cs.length ≤ n) (hm : cs.length ≤ m) :
    derivativeForm n cs = derivativeForm m cs := by
  induction n generalizing m cs with
  | zero =>
    rw [List.eq_nil_of_length_eq_zero (Nat.le_zero.1 hn)]
    cases m <;> rfl
  | succ n ih =>
    cases m with
    | zero =>
      rw [List.eq_nil_of_length_eq_zero (Nat.le_zero.1 hm)]
      rfl
    | succ m =>
      refine andThen_congr fun w hw => andThen_congr_left ?_
      have hlen : w.length = 11 := by
        rw [eq_toList_of_text hw]
        rfl
      have hdrop : (cs.drop w.length).length = cs.length - 11 := by rw [List.length_drop, hlen]
      rw [orElse, orElse, ih (m := m) (by omega) (by omega)]

/-- What may stand between the quotes of a name. -/
def quotedBody (depth : Nat) : Scanner :=
  firstOf [previousForm, derivativeForm depth, scalarPath]

theorem stopsAt_quotedBody (depth : Nat) : StopsAt isBoundary (quotedBody depth) :=
  stopsAt_firstOf (by
    simpa using ⟨stopsAt_previousForm, stopsAt_derivativeForm depth, stopsAt_scalarPath⟩)

theorem stopsAtQuote_quotedBody (depth : Nat) : StopsAtQuote (quotedBody depth) :=
  ((stopsAt_quotedBody depth).of_imp fun c hc => by rw [isBoundary, hc, Bool.true_or]).stopsAtQuote

theorem quotedBody_eq {n m : Nat} {cs : List Char} (hn : cs.length ≤ n) (hm : cs.length ≤ m) :
    quotedBody n cs = quotedBody m cs := by
  simp only [quotedBody, firstOf, orElse, derivativeForm_eq hn hm]

theorem quotedBody_append {u t : List Char} {n : Nat} (hu : '\'' ∉ u) (hn : u.length + 1 ≤ n) :
    quotedBody n (u ++ '\'' :: t) = quotedBody (u.length + 1) (u ++ ['\'']) := by
  rw [(stopsAtQuote_quotedBody n u t hu).1]
  exact quotedBody_eq (by simpa using hn) (by simp)

theorem quotedName_eq (cs : List Char) :
    quotedName cs =
      (one (· == '\'')).andThen ((quotedBody cs.length).andThen (one (· == '\''))) cs := by
  rw [quotedName, Scanner.sequence, Scanner.sequence, sequence_singleton, text_eq_one (c := '\'') rfl]
  rfl

theorem quotedName_eq_none {cs : List Char} (h : Ends (· == '\'') cs) : quotedName cs = none := by
  rw [quotedName_eq, andThen_eq_none (one_eq_none_of_ends h)]

/-- A quoted name consists of all that stands in front of the second quote. -/
theorem quotedName_eq_some_iff {cs w : List Char} :
    quotedName cs = some w ↔
      ∃ u t, '\'' ∉ u ∧ quotedBody (u.length + 1) (u ++ ['\'']) = some u ∧
        cs = '\'' :: (u ++ '\'' :: t) ∧ w = '\'' :: (u ++ ['\'']) := by
  rw [quotedName_eq]
  constructor
  · intro h
    obtain ⟨_, _, hopen, htail, rfl⟩ := andThen_eq_some_iff.1 h
    obtain ⟨v, _, hbody, hclose, rfl⟩ := andThen_eq_some_iff.1 htail
    obtain ⟨c, hc, hquote, rfl⟩ := one_eq_some_iff.1 hopen
    obtain ⟨d, hd, hquote', rfl⟩ := one_eq_some_iff.1 hclose
    cases beq_iff_eq.1 hquote
    cases beq_iff_eq.1 hquote'
    obtain ⟨cs, rfl⟩ := List.head?_eq_some_iff.1 hc
    -- the body reads up to the first quote, which closes the name
    have hmem : '\'' ∈ cs := List.mem_of_mem_drop (List.mem_of_head? hd)
    obtain ⟨u, t, rfl, hu⟩ := List.eq_append_cons_of_mem hmem
    obtain ⟨x, rfl⟩ := (stopsAtQuote_quotedBody _ u t hu).2 v hbody
    have hbehind : (v ++ x ++ '\'' :: t).drop v.length = x ++ '\'' :: t := by
      rw [List.append_assoc, List.drop_left]
    have hd : (x ++ '\'' :: t).head? = some '\'' := hbehind ▸ hd
    cases x with
    | cons y x =>
      cases hd
      exact absurd (List.mem_append_right v List.mem_cons_self) hu
    | nil =>
      rw [List.append_nil] at hu hbody ⊢
      refine ⟨v, t, hu, ?_, rfl, rfl⟩
      rw [← hbody]
      exact (quotedBody_append hu (by simp)).symm
  · rintro ⟨u, t, hu, hbody, rfl, rfl⟩
    have hread := quotedBody_append (t := t) (n := ('\'' :: (u ++ '\'' :: t)).length) hu (by simp)
    have hbehind : (u ++ '\'' :: t).drop u.length = '\'' :: t := List.drop_left
    have hclose : one (· == '\'') ((u ++ '\'' :: t).drop u.length) = some ['\''] := by
      rw [hbehind, one_cons rfl]
    exact andThen_eq_some_iff.2 ⟨['\''], u ++ ['\''], one_cons rfl _,
      andThen_eq_some_iff.2 ⟨u, ['\''], hread.trans hbody, hclose, rfl⟩, rfl⟩

end Lexeme

/-- A name in quotes. -/
def IsQuoted (name : String) : Prop := Lexeme.quotedName name.toList = some name.toList

instance : DecidablePred IsQuoted := fun _ => inferInstanceAs (Decidable (_ = _))

/-- What may stand as the name of a variable or of a function. -/
def IsName (name : String) : Prop := IsIdentifier name ∧ name ∉ keywords ∨ IsQuoted name

instance : DecidablePred IsName := fun _ => inferInstanceAs (Decidable (_ ∨ _))

namespace Lexeme

variable {cs w : List Char} {name : String}

theorem quotedName_append (h : IsQuoted name) (rest : List Char) :
    quotedName (name.toList ++ rest) = some name.toList := by
  obtain ⟨u, t, hu, hbody, hname, hclosed⟩ := quotedName_eq_some_iff.1 h
  refine quotedName_eq_some_iff.2 ⟨u, rest, hu, hbody, ?_, hclosed⟩
  rw [hclosed, List.cons_append, List.append_assoc]
  rfl

theorem isQuoted_of_quotedName (h : quotedName cs = some w) : IsQuoted (String.ofList w) := by
  obtain ⟨u, t, hu, hbody, -, rfl⟩ := quotedName_eq_some_iff.1 h
  rw [IsQuoted, String.toList_ofList]
  exact quotedName_eq_some_iff.2 ⟨u, [], hu, hbody, rfl, rfl⟩

theorem starts_of_isQuoted (h : IsQuoted name) : Starts (· == '\'') name.toList := by
  obtain ⟨u, t, -, -, hname, -⟩ := quotedName_eq_some_iff.1 h
  rw [hname]
  rfl

end Lexeme

/-- The characters with which names begin. -/
def startsName (c : Char) : Bool := c.isAlpha || c == '\''

theorem IsIdentifier.starts {x : String} (hx : IsIdentifier x) : Starts Char.isAlpha x.toList := hx.1

theorem IsName.starts {x : String} (hx : IsName x) : Starts startsName x.toList := by
  rcases hx with ⟨hx, -⟩ | hx
  · exact hx.starts.of_imp fun c hc => by rw [startsName, hc, Bool.true_or]
  · exact (Lexeme.starts_of_isQuoted hx).of_imp fun c hc => by rw [startsName, hc, Bool.or_true]

theorem isDigit_of_startsName {c : Char} (h : startsName c = true) : c.isDigit = false := by
  rw [Bool.eq_false_iff]
  intro hd
  rw [startsName, isAlpha_eq_false_of_isDigit hd, Bool.false_or, beq_iff_eq] at h
  rw [h] at hd
  cases hd

/-- A character with which a name begins is none of some marks. -/
theorem not_mem_of_startsName {c : Char} (marks : List Char)
    (hm : marks.any startsName = false) (hc : startsName c = true) : marks.contains c = false := by
  rw [Bool.eq_false_iff, Ne, List.contains_iff_mem]
  intro h
  exact absurd hc (List.any_eq_false.1 hm c h)

theorem isIdentifier_of_mem_keywords : ∀ s ∈ keywords, IsIdentifier s := by decide +kernel

theorem IsIdentifier.ends_quote {x : String} (hx : IsIdentifier x) (rest : List Char) :
    Ends (· == '\'') (x.toList ++ rest) :=
  hx.starts.ends (fun c hc => by
    rw [beq_eq_false_iff_ne]
    rintro rfl
    cases hc) rest

end GalecAudit.Grammar
