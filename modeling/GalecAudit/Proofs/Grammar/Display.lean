import GalecAudit.Proofs.Grammar.Printed
import GalecAudit.Proofs.Language.Part

/-!
# Displayed expressions

The text of an expression that was read is read again, and as the same expression as far as the text
shows it.
-/
namespace GalecAudit

/-- No prefix operator stands directly behind another one. -/
def Expression.SinglePrefix (e : Expression) : Prop :=
  ∀ op op' a line line', ¬ Expression.PartOf (.unary op (.unary op' a line') line) e

theorem Expression.SinglePrefix.part {p e : Expression} (h : e.SinglePrefix)
    (hp : ∀ q, PartOf q p → PartOf q e) : p.SinglePrefix :=
  fun op op' a line line' hq => h op op' a line line' (hp _ hq)

/-- The text of an expression beside an operator. -/
def Expression.besideText (e : Expression) : String := enclosed e.isBinary e.text

theorem Expression.besideText_of_not_isBinary {e : Expression} (h : e.isBinary = false) :
    e.besideText = e.text := by
  rw [besideText, h]
  rfl

namespace Grammar

open Source Grammar.Parser

variable {e : Expression} {depth : Nat}

/-- Wherever the text of an expression stands, it is read as what it shows, at any depth that is not below
the length of the text. -/
structure Readable (e : Expression) : Prop where
  atom : (∀ op a line, e ≠ .unary op a line) → ∀ depth, e.besideText.length ≤ depth →
    ReadsAtom (nestedExpression depth) e.besideText.toList e.shown
  operand : ∀ depth, e.besideText.length ≤ depth →
    ReadsOperand (nestedExpression depth) e.besideText.toList e.shown
  whole : ∀ depth, e.text.length ≤ depth → ReadsText (nestedExpression (depth + 1)) e

theorem readsText_of_operand (h : ReadsOperand (nestedExpression depth) e.text.toList e.shown) :
    ReadsText (nestedExpression (depth + 1)) e where
  starts := h.starts
  reads rest hrest := by
    rw [nestedExpression_succ]
    exact reads_expressionOf (h.reads rest hrest.toFollows) hrest

/-- An expression whose text is an atom. -/
theorem Readable.of_atom (hb : e.isBinary = false)
    (h : ∀ depth, e.text.length ≤ depth + 1 →
      ReadsAtom (nestedExpression (depth + 1)) e.text.toList e.shown) : Readable e := by
  have hpos : 0 < e.text.length := by
    rw [← String.length_toList]
    exact List.length_pos_iff.2 (h e.text.length (Nat.le_succ _)).starts.ne_nil
  have hatom (depth : Nat) (hdepth : e.text.length ≤ depth) :
      ReadsAtom (nestedExpression depth) e.text.toList e.shown := by
    obtain ⟨d, rfl⟩ : ∃ d, depth = d + 1 := ⟨depth - 1, by omega⟩
    exact h d hdepth
  have hbeside := Expression.besideText_of_not_isBinary hb
  constructor
  · rw [hbeside]
    exact fun _ => hatom
  · rw [hbeside]
    exact fun depth hdepth => (hatom depth hdepth).operand
  · exact fun depth hdepth => readsText_of_operand (hatom depth hdepth).operand

theorem Readable.binary {left right : Expression} (hl : Readable left) (hr : Readable right)
    (op : BinaryOperator) (line : Nat) : Readable (.binary left op right line) := by
  have htext (rest : List Char) : (Expression.binary left op right line).text.toList ++ rest =
      left.besideText.toList ++ ' ' :: (op.symbol.toList ++ ' ' :: (right.besideText.toList ++ rest)) := by
    simp [Expression.text, Expression.besideText]
  have hlength : (Expression.binary left op right line).text.length =
      left.besideText.length + (op.symbol.length + right.besideText.length + 2) := by
    simp only [Expression.text, Expression.besideText, String.length_append]
    have hblank : " ".length = 1 := rfl
    omega
  have hwhole (depth : Nat) (hdepth : (Expression.binary left op right line).text.length ≤ depth) :
      ReadsText (nestedExpression (depth + 1)) (.binary left op right line) := by
    have hleft := hl.operand depth (by omega)
    have hright := hr.operand depth (by omega)
    refine ⟨?_, fun rest hrest => ?_⟩
    · rw [← List.append_nil (Expression.text _).toList, htext]
      exact hleft.starts.append _
    · rw [htext, nestedExpression_succ]
      refine (reads_grouped hleft (.cons hright .nil) hrest).mono fun tree htree => ?_
      rw [grouped_singleton] at htree
      exact htree.congr rfl
  have hbeside : (Expression.binary left op right line).besideText.toList =
      '(' :: ([] ++ ((Expression.binary left op right line).text.toList ++ ([] ++ [')']))) := by
    simp [Expression.besideText, Expression.enclosed, Expression.isBinary]
  have hatom (depth : Nat) (hdepth : (Expression.binary left op right line).besideText.length ≤ depth) :
      ReadsAtom (nestedExpression depth) (Expression.binary left op right line).besideText.toList
        (Expression.binary left op right line).shown := by
    have hle : (Expression.binary left op right line).text.length + 2 ≤ depth := by
      rw [← String.length_toList, hbeside, List.length_cons, List.nil_append, List.length_append,
        String.length_toList] at hdepth
      exact hdepth
    -- The parentheses are one level of nesting, and two characters of the text pay for it.
    obtain ⟨d, rfl⟩ : ∃ d, depth = d + 1 := ⟨depth - 1, by omega⟩
    rw [hbeside]
    exact readsAtom_group
      (fun rest => (hwhole d (by omega)).reads_pastTrivia (stops_of_isSolid rfl rfl rfl rest))
      fun rest => pastTrivia_of_isSolid rfl rest
  exact ⟨fun _ => hatom, fun depth hdepth => (hatom depth hdepth).operand, hwhole⟩

theorem Readable.unary {a : Expression} (h : Readable a) (ha : ∀ op b line, a ≠ .unary op b line)
    (op : UnaryOperator) (line : Nat) : Readable (.unary op a line) := by
  obtain ⟨gap, hlead, hgap, hsep⟩ : ∃ gap : List Char, op.lead.toList = op.symbol.toList ++ gap ∧
      (∀ cs, pastTrivia (gap ++ cs) = pastTrivia cs) ∧ (op = .not → ∀ cs, Ends isIdentChar (gap ++ cs)) := by
    cases op with
    | negate => exact ⟨[], rfl, fun _ => rfl, nofun⟩
    | not => exact ⟨[' '], rfl, pastTrivia_space, fun _ _ => rfl⟩
  have htext : (Expression.unary op a line).text.toList =
      op.symbol.toList ++ (gap ++ a.besideText.toList) := by
    rw [Expression.text, String.toList_append, hlead, List.append_assoc]
    rfl
  have hlength : a.besideText.length ≤ (Expression.unary op a line).text.length := by
    rw [← String.length_toList, ← String.length_toList, htext]
    simp
    omega
  have hoperand (depth : Nat) (hdepth : (Expression.unary op a line).text.length ≤ depth) :
      ReadsOperand (nestedExpression depth) (Expression.unary op a line).text.toList
        (Expression.unary op a line).shown := by
    rw [htext]
    exact (h.atom ha depth (by omega)).unary op line hgap hsep
  exact ⟨fun hu => absurd rfl (hu op a line), hoperand,
    fun depth hdepth => readsText_of_operand (hoperand depth hdepth)⟩

theorem length_le_intercalate {es : List Expression} (he : e ∈ es) :
    e.text.length ≤ (", ".intercalate (Expression.listTexts es)).length := by
  rw [← String.length_toList, ← String.length_toList, toList_intercalate_texts]
  cases es with
  | nil => cases he
  | cons d es =>
    rw [intercalate_comma]
    refine List.Sublist.length_le ?_
    rcases List.mem_cons.1 he with rfl | he
    · exact List.sublist_append_left _ _
    · have hitem := List.sublist_flatten_of_mem
        (List.mem_map_of_mem (f := fun b : Expression => ',' :: [' '] ++ b.text.toList) he)
      exact ((List.sublist_append_right _ _).trans hitem).trans (List.sublist_append_right _ _)

theorem length_le_armText {arms : List (Expression × Expression)} {arm : Expression × Expression}
    (harm : arm ∈ arms) : arm.1.text.length ≤ (Expression.armText arms).length ∧
      arm.2.text.length ≤ (Expression.armText arms).length := by
  induction arms with
  | nil => cases harm
  | cons first arms ih =>
    simp only [Expression.armText, String.length_append]
    rcases List.mem_cons.1 harm with rfl | harm
    · constructor <;> omega
    · obtain ⟨hc, hv⟩ := ih harm
      constructor <;> omega

section Atoms

variable {c v o : Expression} {arms : List (Expression × Expression)} {es : List Expression}

theorem Readable.conditional (hc : Readable c) (hv : Readable v)
    (harms : ∀ arm ∈ arms, Readable arm.1 ∧ Readable arm.2) (ho : Readable o) (line : Nat) :
    Readable (.conditional c v arms o line) := by
  refine .of_atom rfl fun depth hdepth => ?_
  have hlength : (Expression.conditional c v arms o line).text.length = c.text.length + (v.text.length +
      ((Expression.armText arms).length + (o.text.length + 17))) := by
    have hif : "(if ".length = 4 := rfl
    have hthen : " then ".length = 6 := rfl
    have helse : " else ".length = 6 := rfl
    have hclose : ")".length = 1 := rfl
    simp only [Expression.text, String.length_append]
    omega
  obtain ⟨d, rfl⟩ : ∃ d, depth = d + 1 := ⟨depth - 1, by omega⟩
  have hparts : ∀ arm ∈ arms, ReadsText (nestedExpression (d + 1)) arm.1 ∧
      ReadsText (nestedExpression (d + 1)) arm.2 := by
    intro arm harm
    obtain ⟨hcondition, hvalue⟩ := length_le_armText harm
    exact ⟨(harms arm harm).1.whole d (by omega), (harms arm harm).2.whole d (by omega)⟩
  rw [nestedExpression_succ]
  exact readsAtom_conditional (hc.whole d (by omega)) (hv.whole d (by omega)) hparts
    (ho.whole d (by omega)) line

theorem length_text_call (x : String) (es : List Expression) (line : Nat) :
    (Expression.call x es line).text.length =
      x.length + ((", ".intercalate (Expression.listTexts es)).length + 2) := by
  have hopen : "(".length = 1 := rfl
  have hclose : ")".length = 1 := rfl
  simp only [Expression.text, String.length_append]
  omega

theorem Readable.call {x : String} (hx : IsName x) (h : ∀ e ∈ es, Readable e) (line : Nat) :
    Readable (.call x es line) := by
  refine .of_atom rfl fun depth hdepth => ?_
  rw [length_text_call] at hdepth
  refine readsAtom_call hx (fun rest => ?_) (fun e he => ?_) line
  · rw [nestedExpression_succ]
    exact refuses_expressionOf rfl
  · have hle := length_le_intercalate he
    exact (h e he).whole depth (by omega)

theorem Readable.size {r : Reference} (hr : IsReferenceName r.name) (h : Readable e) (line : Nat) :
    Readable (.call "size" [.reference r, e] line) := by
  refine .of_atom rfl fun depth hdepth => ?_
  have hle := length_le_intercalate (List.mem_cons_of_mem (.reference r) (List.mem_singleton_self e))
  rw [length_text_call] at hdepth
  exact readsAtom_size hr (h.whole depth (by omega)) line

theorem Readable.array (hne : es ≠ []) (h : ∀ e ∈ es, Readable e) (line : Nat) :
    Readable (.array es line) := by
  refine .of_atom rfl fun depth hdepth => ?_
  have hlength : (Expression.array es line).text.length =
      (", ".intercalate (Expression.listTexts es)).length + 2 := by
    have hopen : "\x7b".length = 1 := rfl
    have hclose : "\x7d".length = 1 := rfl
    simp only [Expression.text, String.length_append]
    omega
  refine readsAtom_array hne (fun e he => ?_) line
  have hle := length_le_intercalate he
  exact (h e he).whole depth (by omega)

end Atoms

/-- A legible expression without double prefixes is displayed readably. -/
theorem readable_of_legible (h : e.Legible) (hs : e.SinglePrefix) : Readable e := by
  induction h with
  | constant hl hrange => exact .of_atom rfl fun _ _ => readsAtom_literal hl hrange _
  | reference hr => exact .of_atom rfl fun _ _ => readsAtom_referenceName hr _
  | binary _ _ ihl ihr =>
    exact .binary (ihl (hs.part fun _ => .left)) (ihr (hs.part fun _ => .right)) _ _
  | @unary op a line _ ih =>
    -- The grammar has no prefix operator behind another one, so the operand has to be an atom.
    refine .unary (ih (hs.part fun _ => .operand)) ?_ op line
    rintro op' b line' rfl
    exact hs op op' b line line' .self
  | conditional _ _ _ _ _ ihc ihv iha1 iha2 iho =>
    refine .conditional (ihc (hs.part fun _ => .condition)) (ihv (hs.part fun _ => .value)) ?_
      (iho (hs.part fun _ => .otherwise)) _
    intro arm harm
    exact ⟨iha1 arm harm (hs.part fun _ => .armCondition harm),
      iha2 arm harm (hs.part fun _ => .armValue harm)⟩
  | call hx _ ih => exact .call hx (fun a ha => ih a ha (hs.part fun _ => .argument ha)) _
  | size hr _ ih =>
    exact .size hr (ih (hs.part fun _ => .argument (List.mem_cons_of_mem _ (List.mem_singleton_self _)))) _
  | array hne _ ih => exact .array hne (fun a ha => ih a ha (hs.part fun _ => .element ha)) _

end Grammar

section Display

open Source

/-- What was read from a text is displayed as a text that is read again, and as the same expression up to
line numbers, state flags and the variables of subscripts, so that it is displayed as the same text. -/
theorem readExpression_displayed {source : String} {tree : Expr} {e : Expression}
    (hrun : Grammar.standaloneExpression.run source = .ok tree) (h : readExpression source = .ok e)
    (hsingle : e.SinglePrefix) (hsimple : ∀ a : Access Expr, a.In tree → a.Simple) :
    ∃ e', readExpression e.text = .ok e' ∧ e'.unlined = e.shown.unlined ∧ e'.text = e.text := by
  have hresolve : tree.resolve [] = .ok e := by
    unfold readExpression at h
    simp only [hrun] at h
    split at h
    · cases h
    · next hr => rw [hr, Except.ok.inj h]
  have hlegible := (Grammar.wellFormed_of_run hrun).legible hsimple hresolve
  have htext := (Grammar.readable_of_legible hlegible hsingle).whole e.text.length (Nat.le_refl _)
  have hread := htext.reads [] Grammar.stops_nil
  rw [List.append_nil, ← String.length_toList] at hread
  obtain ⟨e', he', heq⟩ := Grammar.readExpression_eq_ok htext.starts hread
  refine ⟨e', he', heq, ?_⟩
  -- Neither lines nor what is not shown of a reference makes a difference to the text.
  rw [← Expression.text_unlined e', heq, Expression.text_unlined, Expression.text_shown]

/-- An access of one segment whose subscripts, if they are constant, are not the least integer. -/
theorem Source.Access.simple_of_segments {a : Access Expr} {s : Segment Expr} (hs : a.segments = [s])
    (hleast : ∀ values, values? [] s.subscripts = some values → -9223372036854775808 ∉ values) :
    a.Simple where
  single := by rw [hs]; exact Nat.le_refl _
  least := by
    rw [hs]
    exact List.forall_mem_singleton.2 hleast

/-- The product of a variable with another sign and an element, read from `-x*y[2]`. -/
def signedProductTree : Expr :=
  .chain (.unary .negate (.access ⟨false, [⟨"x", []⟩], 1⟩) 1)
    [(.multiply, .access ⟨false, [⟨"y", [.literal .integer "2" 1]⟩], 1⟩)] 1

def signedProduct : Expression :=
  .binary (.unary .negate (.reference ⟨"x", false, 1, []⟩) 1) .multiply
    (.reference ⟨"y[2]", false, 1, []⟩) 1

/-- The product is displayed with blanks, and with them it is read again. -/
theorem readExpression_displayed_product :
    signedProduct.text = "-x * y[2]" ∧ ∃ e', readExpression signedProduct.text = .ok e' ∧
      e'.unlined = signedProduct.shown.unlined ∧ e'.text = signedProduct.text := by
  have hrun : Grammar.standaloneExpression.run "-x*y[2]" = .ok signedProductTree := by with_unfolding_all rfl
  have hread : readExpression "-x*y[2]" = .ok signedProduct := Grammar.readExpression_of_run hrun rfl
  have hsingle : signedProduct.SinglePrefix := by
    intro op op' a line line' h
    grind [Expression.PartOf, signedProduct]
  have hsimple : ∀ a : Access Expr, a.In signedProductTree → a.Simple := by
    intro a ha
    have hsegments : a.segments = [⟨"x", []⟩] ∨ a.segments = [⟨"y", [.literal .integer "2" 1]⟩] := by
      grind [Access.In, signedProductTree]
    rcases hsegments with h | h
    · exact Access.simple_of_segments h fun values hv => by cases hv; decide
    · exact Access.simple_of_segments h fun values hv => by cases hv; decide
  exact ⟨rfl, readExpression_displayed hrun hread hsingle hsimple⟩

/-- The variables of a subscript are not displayed, so they are not read again. -/
theorem readExpression_undisplayed_subscript :
    ∃ tree e e', Grammar.standaloneExpression.run "x[n]" = .ok tree ∧
      (∀ a : Access Expr, a.In tree → a.Simple) ∧ e.SinglePrefix ∧
      readExpression "x[n]" = .ok e ∧ readExpression e.text = .ok e' ∧ e'.bare ≠ e.bare := by
  refine ⟨.access ⟨false, [⟨"x", [.access ⟨false, [⟨"n", []⟩], 1⟩]⟩], 1⟩,
    .reference ⟨"x", false, 1, [⟨"n", false, 1, []⟩]⟩, .reference ⟨"x", false, 1, []⟩,
    by with_unfolding_all rfl, fun a ha => ?_, fun op op' a line line' h => ?_,
    by with_unfolding_all rfl, by with_unfolding_all rfl, nofun⟩
  · have hsegments : a.segments = [⟨"x", [.access ⟨false, [⟨"n", []⟩], 1⟩]⟩] ∨ a.segments = [⟨"n", []⟩] := by
      grind [Access.In]
    rcases hsegments with h | h
    · exact Access.simple_of_segments h fun values hv => by cases hv
    · exact Access.simple_of_segments h fun values hv => by cases hv; decide
  · cases h

end Display

end GalecAudit
