import GalecAudit.Proofs.Grammar.Moving

/-!
# Range specifications as they are written

How a declaration is spelled in a text, with the bounds of its range specification: the kind of each bound
and its number, which is a literal with a sign or without one. Gaps may stand anywhere between the tokens,
also between a sign and its literal.
-/
namespace GalecAudit

namespace Source

/-- A number as it is written, with what stands between its sign and its literal. -/
structure SignedNumber where
  isNegative : Bool
  gap : List Char
  literal : List Char
deriving DecidableEq, Repr

namespace SignedNumber

def sign (n : SignedNumber) : List Char := if n.isNegative then ['-'] else []

def text (n : SignedNumber) : List Char := n.sign ++ (n.gap ++ n.literal)

/-- The number with its sign immediately in front of its literal. -/
def clean (n : SignedNumber) : List Char := n.sign ++ n.literal

structure IsProper (n : SignedNumber) : Prop where
  literal : Grammar.IsReal n.literal ∨ Grammar.IsDigits n.literal
  gap : Grammar.IsGap n.gap
  unsigned : n.isNegative = false → n.gap = []

end SignedNumber

def Bound.name : Bound → String
  | min => "min"
  | max => "max"

/-- A bound as it is written, with the gaps around its equals sign. -/
structure WrittenBound where
  kind : Bound
  before : List Char
  behind : List Char
  number : SignedNumber
deriving DecidableEq, Repr

namespace WrittenBound

def text (b : WrittenBound) : List Char :=
  b.kind.name.toList ++ (b.before ++ '=' :: (b.behind ++ b.number.text))

structure IsProper (b : WrittenBound) : Prop where
  before : Grammar.IsGap b.before
  behind : Grammar.IsGap b.behind
  number : b.number.IsProper

/-- What the tree has of the bound. -/
def read (b : WrittenBound) : Bound × String := (b.kind, String.ofList b.number.text)

end WrittenBound

open Grammar (IsGap)
open Grammar.Parser (Commas)

/-- The text of a range specification with these bounds. -/
def IsRangeText (bs : List WrittenBound) (w : List Char) : Prop :=
  ∃ before v behind, IsGap before ∧ IsGap behind ∧ Commas (fun b u => u = b.text) bs v ∧
    w = '(' :: (before ++ (v ++ (behind ++ [')'])))

end Source

/-- The word for a type. -/
def DeclaredType.word : DeclaredType → String
  | primitive type => type.name
  | record name => name

/-- The text of a declaration with a range specification. Without dimensions a gap alone stands between
its name and the range specification. -/
def Source.Declaration.IsWrittenAs (d : Source.Declaration) (bs : List Source.WrittenBound)
    (w : List Char) : Prop :=
  ∃ gap sizes range behind, Grammar.IsGap gap ∧ (d.dimensions = [] → Grammar.IsGap sizes) ∧
    Source.IsRangeText bs range ∧ Grammar.IsGap behind ∧
    w = d.type.word.toList ++ (gap ++ (d.name.toList ++ (sizes ++ (range ++ (behind ++ [';'])))))

/-- A declaration on a line. If it has a range specification, the text spells it, with the bounds of the
tree. -/
structure Source.Declaration.IsSpelled (d : Source.Declaration) (line : Nat) (w : List Char) : Prop where
  line_eq : d.line = line
  spelled : ∀ qs, d.range = some qs → ∃ bs : List Source.WrittenBound,
    (∀ b ∈ bs, b.IsProper) ∧ bs.map Source.WrittenBound.read = qs ∧ d.IsWrittenAs bs w

/-- The declaration stands in the document, and its line there is its own. -/
def Source.Declaration.IsWrittenIn (d : Source.Declaration) (start : Grammar.Cursor) : Prop :=
  ∃ front w behind, start.rest = front ++ (w ++ behind) ∧
    d.IsSpelled (start.line + front.count '\n') w

namespace Grammar

open Source Grammar.Parser

section Numbers

theorem Cursor.Spans.textTo {c d : Cursor} {w : List Char} (h : c.Spans w d) :
    c.textTo d = String.ofList w := by
  have htake : c.rest.take w.length = w := (List.prefix_iff_eq_take.1 h.stands).symm
  rw [h.behind, Cursor.textTo, Cursor.advance, Nat.add_sub_cancel_left, htake]

theorem spells_number :
    Spells (token .realLiteral Lexeme.real <|> token .integerLiteral Lexeme.integer)
      fun _ w => IsReal w ∨ IsDigits w :=
  (spells_token Lexeme.isLexeme_real.fits fun _ _ hw => .inl (Lexeme.isReal_of_real hw)).orElse
    (spells_token Lexeme.isLexeme_integer.fits fun _ _ hw => .inr (Lexeme.isDigits_of_digits hw))

/-- The text of a signed number is that of a proper number. -/
theorem spells_signedNumber :
    Spells signedNumber fun s w => ∃ n : SignedNumber, n.IsProper ∧ w = n.text ∧
      s = String.ofList n.text := by
  intro c s d hc hd
  -- what is quoted is the text up to the end of the literal
  have hquoted {last : Cursor} {n : SignedNumber} (hn : n.IsProper) (htext : c.Spans n.text last) :
      ∃ w, c.Spans w last ∧ ∃ m : SignedNumber, m.IsProper ∧ w = m.text ∧
        c.textTo last = String.ofList m.text :=
    ⟨n.text, htext, n, hn, rfl, htext.textTo⟩
  obtain ⟨g, hg, rfl⟩ := parse_quoted_eq_some_iff.1 hd
  obtain ⟨f, next, x, hf, hx, rfl⟩ := parse_seq_eq_some_iff.1 hg
  obtain ⟨o, ho, rfl⟩ := parse_map_eq_some_iff.1 hf
  obtain ⟨w, hw, hliteral⟩ := spells_number _ _ _ next.trivia_skip hx
  rcases parse_optional_eq_some_iff.1 ho with ⟨u, hsign, rfl⟩ | ⟨-, rfl, rfl⟩
  · obtain ⟨gap, hgap, hskip⟩ := next.exists_gap
    obtain ⟨_, hminus, rfl⟩ := spells_literal "-" c _ _ hc hsign
    exact hquoted (n := ⟨true, gap, w⟩) ⟨hliteral, hgap, nofun⟩ (hminus.append (hskip.append hw))
  · -- without a sign nothing is skipped in front of the literal
    rw [Cursor.skip_of_trivia hc] at hw
    exact hquoted (n := ⟨false, [], w⟩) ⟨hliteral, .nil, fun _ => rfl⟩ hw

end Numbers

section Ranges

theorem eq_toList_of_word {word : String} {cs w : List Char} (h : Scanner.word word cs = some w) :
    w = word.toList :=
  Scanner.eq_toList_of_text (Scanner.notBefore_eq_some h).1

theorem spells_rangeBound :
    Spells rangeBound fun q w => ∃ b : WrittenBound, (b.IsProper ∧ b.read = q) ∧ w = b.text := by
  have hkind : Spells (symbol .boundKind [(.min, Scanner.word "min"), (.max, Scanner.word "max")])
      fun (k : Bound) w => w = k.name.toList := by
    refine spells_symbol fun q hq => ?_
    simp only [List.mem_cons, List.not_mem_nil, or_false] at hq
    rcases hq with rfl | rfl
    · exact ⟨fits_word _, fun _ _ => eq_toList_of_word⟩
    · exact ⟨fits_word _, fun _ _ => eq_toList_of_word⟩
  refine Spells.rule (Spells.seq (Spells.seqLeft (hkind.map ?_) (spells_literal "="))
    spells_signedNumber) _
  rintro k _ rfl before _ _ hbefore rfl behind _ _ hbehind ⟨n, hn, rfl, rfl⟩
  refine ⟨⟨k, before, behind, n⟩, ⟨⟨hbefore, hbehind, hn⟩, rfl⟩, ?_⟩
  rw [WrittenBound.text, List.append_assoc, List.append_assoc]
  rfl

variable {α β : Type}

/-- Constructs between commas can be exchanged for others with the same texts. -/
theorem Parser.Commas.exists_of {R : β → α → Prop} {text : β → List Char} {as : List α}
    {w : List Char} (h : Commas (fun a u => ∃ b, R b a ∧ u = text b) as w) :
    ∃ bs, List.Forall₂ R bs as ∧ Commas (fun b u => u = text b) bs w := by
  induction h with
  | last only isGap =>
    obtain ⟨b, hb, rfl⟩ := only
    exact ⟨[b], .cons hb .nil, .last rfl isGap⟩
  | cons first isGapBefore isGapBehind _ ih =>
    obtain ⟨b, hb, rfl⟩ := first
    obtain ⟨bs, hbs, hall⟩ := ih
    exact ⟨b :: bs, .cons hb hbs, .cons rfl isGapBefore isGapBehind hall⟩

theorem spells_rangeSpecification :
    Spells rangeSpecification fun qs w => ∃ bs : List WrittenBound, (∀ b ∈ bs, b.IsProper) ∧
      bs.map WrittenBound.read = qs ∧ IsRangeText bs w := by
  refine Spells.rule (Spells.seqLeft (Spells.seqRight ((spells_literal "(").mono ?_)
    spells_rangeBound.separated) (spells_literal ")")) _
  rintro _ _ rfl before qs v hbefore hv behind _ _ hbehind rfl
  obtain ⟨bs, hbs, hcommas⟩ := hv.exists_of
  obtain ⟨hproper, hread⟩ := (List.forall₂_and_left bs qs).1 hbs
  rw [← List.forall₂_map_left_iff, List.forall₂_eq_eq_eq] at hread
  refine ⟨bs, hproper, hread, before, v, behind, hbefore, hbehind, hcommas, ?_⟩
  rw [List.append_assoc, List.append_assoc]
  rfl

end Ranges

section Declarations

theorem spells_primitiveType : Spells primitiveType fun t w => w = t.name.toList := by
  refine spells_symbol fun q hq => ?_
  simp only [List.mem_cons, List.not_mem_nil, or_false] at hq
  rcases hq with rfl | rfl | rfl
  all_goals exact ⟨fits_word _, fun _ _ => eq_toList_of_word⟩

theorem spells_ident : Spells ident fun x w => w = x.toList :=
  spells_token Lexeme.isLexeme_ident.fits fun _ _ _ => String.toList_ofList.symm

theorem spells_name : Spells name fun x w => w = x.toList :=
  (spells_token Lexeme.isLexeme_quotedName.fits fun _ _ _ => String.toList_ofList.symm).orElse spells_ident

/-- Dimensions that are written are some. -/
theorem spells_dimensions : Spells dimensions fun ds _ => ds ≠ [] := by
  have hdimension : Moves dimension :=
    (((moves_literal _).rule _ |>.map _).orElse (moves_expression.map _).quoted).rule _
  refine Spells.rule (Spells.seqLeft (Spells.seqRight ((spells_literal "[").mono ?_)
    (Spells.separated hdimension)) (spells_literal "]")) _
  rintro _ _ - _ ds v - hv _ _ _ - - rfl
  cases hv

/-- A declaration with a range specification is spelled with proper bounds, which are those of the tree. -/
theorem readsIn_declaration {start : Cursor} : ReadsIn start declaration (·.IsWrittenIn start) := by
  have htype : Spells ((DeclaredType.primitive <$> primitiveType) <|>
      (DeclaredType.record <$> recordType)) fun t w => w = t.word.toList :=
    (spells_primitiveType.map fun _ _ h => h).orElse ((spells_ident.rule _).map fun _ _ h => h)
  have hsizes : Spells ((·.getD []) <$> optional dimensions) fun ds w => ds = [] → w = [] := by
    refine spells_dimensions.optional.map fun o w hw hnil => ?_
    cases o with
    | none => exact hw
    | some ds => exact absurd hnil hw
  refine ReadsIn.rule (Spells.readsIn_located (P := Declaration.IsSpelled) (Spells.seqLeft (Spells.seq
    (Spells.seq (Spells.seq (htype.map ?_) spells_name) hsizes) spells_rangeSpecification.optional)
      (spells_literal ";"))) _
  rintro type _ rfl gap name _ hgap rfl before sizes v hbefore hv behind o u hbehind hu last _ _ hlast
    rfl line
  refine ⟨rfl, fun qs hqs => ?_⟩
  cases hqs
  obtain ⟨bs, hproper, hread, hrange⟩ := hu
  refine ⟨bs, hproper, hread, gap, before ++ (v ++ behind), u, last, hgap, fun hnil => ?_, hrange,
    hlast, ?_⟩
  · rw [hv hnil]
    exact hbefore.append hbehind
  · simp only [List.append_assoc]
    rfl

end Declarations

end Grammar
end GalecAudit
