import GalecAudit.Grammar.Block
import GalecAudit.Proofs.Grammar.Lexeme
import GalecAudit.Proofs.Grammar.Reading

/-!
# Texts of constructs

What a parser reads is a text at its cursor: the texts of the parts of the construct, one after the other,
with gaps between them. So what is read in a document stands in the document, and it stands there as its
rule spells it.
-/
namespace GalecAudit.Grammar

section Gaps

theorem prefix_of_blockCommentTail {cs body : List Char} (h : blockCommentTail cs = some body) :
    body <+: cs := by
  fun_induction blockCommentTail cs generalizing body with
  | case1 rest =>
    cases h
    exact ⟨rest, rfl⟩
  | case2 c rest hclose ih =>
    obtain ⟨tail, htail, rfl⟩ := Option.map_eq_some_iff.1 h
    exact List.cons_prefix_cons.2 ⟨rfl, ih htail⟩
  | case3 => cases h

theorem prefix_trivia (cs : List Char) : trivia cs <+: cs := by
  -- a comment is followed by the trivia behind it
  have hcomment {a b : Char} {rest body : List Char} (hbody : body <+: rest)
      (ih : trivia (rest.drop body.length) <+: rest.drop body.length) :
      a :: b :: body ++ trivia (rest.drop body.length) <+: a :: b :: rest := by
    have hsplit := List.prefix_iff_eq_append.1 hbody
    rw [← hsplit, List.drop_left]
    rw [← hsplit, List.drop_left] at ih
    exact (List.prefix_append_right_inj (a :: b :: body)).2 ih
  fun_induction trivia cs with
  | case1 rest body ih => exact hcomment (List.takeWhile_prefix _) ih
  | case2 rest body hbody ih => exact hcomment (prefix_of_blockCommentTail hbody) ih
  | case3 rest hbody => exact List.nil_prefix
  | case4 c rest hline hblock hc ih => exact List.cons_prefix_cons.2 ⟨rfl, ih⟩
  | case5 => exact List.nil_prefix
  | case6 => exact List.nil_prefix

/-- Blanks and comments as they are skipped between two items of the grammar, in one go or in several. -/
inductive IsGap : List Char → Prop
  | nil : IsGap []
  | skipped {cs gap : List Char} (following : IsGap gap) : IsGap (trivia cs ++ gap)

theorem isGap_trivia (cs : List Char) : IsGap (trivia cs) := by
  have h : IsGap (trivia cs ++ []) := .skipped .nil
  rwa [List.append_nil] at h

theorem IsGap.append {gap more : List Char} (h : IsGap gap) (hmore : IsGap more) :
    IsGap (gap ++ more) := by
  induction h with
  | nil => exact hmore
  | skipped _ ih =>
    rw [List.append_assoc]
    exact .skipped ih

/-- Every comment begins with a slash. -/
theorem isSpace_of_mem_trivia {cs : List Char} (h : '/' ∉ trivia cs) :
    ∀ c ∈ trivia cs, isSpace c = true := by
  fun_induction trivia cs with
  | case1 => exact absurd List.mem_cons_self h
  | case2 => exact absurd List.mem_cons_self h
  | case4 c rest hline hblock hc ih =>
    exact List.forall_mem_cons.2 ⟨hc, ih fun hmem => h (List.mem_cons_of_mem _ hmem)⟩
  | case3 | case5 | case6 => exact List.forall_mem_nil _

/-- A gap without a slash has no comments. -/
theorem IsGap.isSpace {gap : List Char} (hgap : IsGap gap) (h : '/' ∉ gap) :
    ∀ c ∈ gap, isSpace c = true := by
  induction hgap with
  | nil => nofun
  | skipped _ ih =>
    rw [List.mem_append, not_or] at h
    exact List.forall_mem_append.2 ⟨isSpace_of_mem_trivia h.1, ih h.2⟩

end Gaps

/-- What the scanner finds stands at the start of the text. -/
def Scanner.Fits (s : Scanner) : Prop := ∀ cs w, s cs = some w → w <+: cs

section Scanners

open Scanner

variable {s : Scanner}

@[simp]
theorem fits_text (text : String) : Fits (Scanner.text text) := by
  intro cs w hw
  obtain rfl := eq_toList_of_text hw
  rw [Scanner.text, Option.ite_none_right_eq_some, List.isPrefixOf_iff_prefix] at hw
  exact hw.1

@[simp]
theorem Scanner.Fits.notBefore (h : s.Fits) (p : Char → Bool) : Fits (s.notBefore p) :=
  fun cs w hw => h cs w (notBefore_eq_some hw).1

@[simp]
theorem fits_word (text : String) : Fits (word text) := (fits_text text).notBefore _

theorem fits_wordOf (spellings : List String) : Fits (wordOf spellings) := by
  refine Fits.notBefore (fun cs w hw => ?_) _
  induction spellings with
  | nil => cases hw
  | cons text rest ih =>
    rcases orElse_eq_some_iff.1 hw with hw | ⟨-, hw⟩
    · exact fits_text text cs w hw
    · exact ih hw

theorem IsLexeme.fits (h : IsLexeme s) : s.Fits := by
  intro cs w hw
  have hsplit := List.prefix_iff_eq_append.1 (List.takeWhile_prefix (fun c => !isSpace c) (l := cs))
  have hfree : ∀ c ∈ cs.takeWhile (fun c => !isSpace c), isSpace c = false := fun c hc =>
    Bool.not_eq_true' .. ▸ List.all_eq_true.1 List.all_takeWhile c hc
  have hbreaks := ends_drop_takeWhile (fun c => !isSpace c) cs
  rw [← hsplit] at hw
  exact ((h.stops _ _ _ hfree hbreaks hbreaks).2 w hw).trans (List.takeWhile_prefix _)

end Scanners

/-- From the first place to the second one stands the text. -/
structure Cursor.Spans (c : Cursor) (w : List Char) (d : Cursor) : Prop where
  stands : w <+: c.rest
  behind : d = c.advance w

namespace Cursor

variable {c d e : Cursor} {u w : List Char}

theorem Spans.rest (h : c.Spans w d) : c.rest = w ++ d.rest := by
  rw [h.behind]
  exact (List.prefix_iff_eq_append.1 h.stands).symm

theorem Spans.line (h : c.Spans w d) : d.line = c.line + w.count '\n' := by
  rw [h.behind]
  rfl

theorem spans_nil (c : Cursor) : c.Spans [] c := ⟨List.nil_prefix, rfl⟩

theorem Spans.append (hu : c.Spans u d) (hw : d.Spans w e) : c.Spans (u ++ w) e where
  stands := by
    rw [hu.rest]
    exact (List.prefix_append_right_inj u).2 hw.stands
  behind := by
    rw [hw.behind, hu.behind, advance_advance]

theorem spans_skip (c : Cursor) : c.Spans (trivia c.rest) c.skip := ⟨prefix_trivia c.rest, rfl⟩

theorem exists_gap (c : Cursor) : ∃ gap, IsGap gap ∧ c.Spans gap c.skip :=
  ⟨_, isGap_trivia c.rest, spans_skip c⟩

theorem trivia_skip (c : Cursor) : trivia c.skip.rest = [] := trivia_pastTrivia c.rest

end Cursor

namespace Parser

variable {α β : Type} {p q : Parser α} {P : α → List Char → Prop}

/-- Where no trivia stands, what the parser reads is a text at the cursor with a property. -/
def Spells (p : Parser α) (P : α → List Char → Prop) : Prop :=
  ∀ (c : Cursor) a d, trivia c.rest = [] → p.parse c = some (a, d) →
    ∃ w, c.Spans w d ∧ P a w

/-- What the parser reads is a text at the cursor. -/
def Moves (p : Parser α) : Prop := Spells p fun _ _ => True

theorem Spells.mono {Q : α → List Char → Prop} (h : Spells p P) (hQ : ∀ a w, P a w → Q a w) :
    Spells p Q := by
  intro c a d hc hd
  obtain ⟨w, hw, hP⟩ := h c a d hc hd
  exact ⟨w, hw, hQ a w hP⟩

theorem Spells.moves (h : Spells p P) : Moves p := h.mono fun _ _ _ => trivial

section Sequences

theorem Spells.map {f : α → β} {Q : β → List Char → Prop} (h : Spells p P)
    (hf : ∀ a w, P a w → Q (f a) w) : Spells (f <$> p) Q := by
  intro c b d hc hd
  obtain ⟨a, ha, rfl⟩ := parse_map_eq_some_iff.1 hd
  obtain ⟨w, hw, hP⟩ := h c a d hc ha
  exact ⟨w, hw, hf a w hP⟩

theorem Spells.seq {f : Parser (α → β)} {Q : β → List Char → Prop}
    (hf : Spells f fun g u => ∀ gap a v, IsGap gap → P a v → Q (g a) (u ++ (gap ++ v)))
    (hp : Spells p P) : Spells (f <*> p) Q := by
  intro c b d hc hd
  obtain ⟨g, next, a, hg, ha, rfl⟩ := parse_seq_eq_some_iff.1 hd
  obtain ⟨u, hu, hQ⟩ := hf c g next hc hg
  obtain ⟨gap, hgap, hskip⟩ := next.exists_gap
  obtain ⟨v, hv, hP⟩ := hp next.skip a d next.trivia_skip ha
  exact ⟨u ++ (gap ++ v), hu.append (hskip.append hv), hQ gap a v hgap hP⟩

theorem Spells.seqLeft {r : Parser β} {R : β → List Char → Prop} {Q : α → List Char → Prop}
    (hp : Spells p fun a u => ∀ gap b v, IsGap gap → R b v → Q a (u ++ (gap ++ v)))
    (hr : Spells r R) : Spells (p <* r) Q :=
  Spells.seq (hp.map fun _ _ h => h) hr

theorem Spells.seqRight {r : Parser β} {Q : α → List Char → Prop}
    (hr : Spells r fun _ u => ∀ gap a v, IsGap gap → P a v → Q a (u ++ (gap ++ v)))
    (hp : Spells p P) : Spells (r *> p) Q :=
  Spells.seq (hr.map fun _ _ h => h) hp

theorem Spells.orElse (hp : Spells p P) (hq : Spells q P) : Spells (p <|> q) P := by
  intro c a d hc hd
  rcases parse_orElse_eq_some_iff.1 hd with hd | ⟨-, hd⟩
  · exact hp c a d hc hd
  · exact hq c a d hc hd

theorem Spells.optional (h : Spells p P) :
    Spells p.optional fun o w => o.elim (w = []) fun a => P a w := by
  intro c o d hc hd
  rcases parse_optional_eq_some_iff.1 hd with ⟨a, ha, rfl⟩ | ⟨-, rfl, rfl⟩
  · exact h c a d hc ha
  · exact ⟨[], c.spans_nil, rfl⟩

/-- Texts with a gap before each. -/
inductive Row (P : α → List Char → Prop) : List α → List Char → Prop
  | nil : Row P [] []
  | cons {a : α} {as : List α} {gap u v : List Char} (isGap : IsGap gap) (first : P a u)
      (following : Row P as v) : Row P (a :: as) (gap ++ (u ++ v))

theorem Spells.many (h : Spells p P) : Spells p.many (Row P) := by
  have hmany (c : Cursor) : ∃ w, c.Spans w (p.readMany c).2 ∧ Row P (p.readMany c).1 w := by
    fun_induction readMany p c with
    | case1 c a next hnext hlt rest last hrest ih =>
      obtain ⟨gap, hgap, hskip⟩ := c.exists_gap
      obtain ⟨u, hu, hP⟩ := h _ a next c.trivia_skip hnext
      obtain ⟨v, hv, hrow⟩ := ih
      rw [hrest] at hv hrow
      exact ⟨gap ++ (u ++ v), hskip.append (hu.append hv), .cons hgap hP hrow⟩
    | case2 c a next hnext hlt =>
      obtain ⟨gap, hgap, hskip⟩ := c.exists_gap
      obtain ⟨u, hu, hP⟩ := h _ a next c.trivia_skip hnext
      exact ⟨gap ++ (u ++ []), hskip.append (hu.append next.spans_nil), .cons hgap hP .nil⟩
    | case3 c hnone => exact ⟨[], c.spans_nil, .nil⟩
  intro c as d hc hd
  obtain ⟨w, hw, hrow⟩ := hmany c
  rw [parse_many_eq_some_iff.1 hd] at hw hrow
  exact ⟨w, hw, hrow⟩

/-- Texts with commas between them, and with gaps around the commas and behind the last one. -/
inductive Commas (P : α → List Char → Prop) : List α → List Char → Prop
  | last {a : α} {u gap : List Char} (only : P a u) (isGap : IsGap gap) : Commas P [a] (u ++ gap)
  | cons {a : α} {as : List α} {u before behind v : List Char} (first : P a u)
      (isGapBefore : IsGap before) (isGapBehind : IsGap behind) (following : Commas P as v) :
      Commas P (a :: as) (u ++ (before ++ ',' :: (behind ++ v)))

theorem Spells.located {f : Parser (Nat → α)} (h : Spells f fun g w => ∀ line, P (g line) w) :
    Spells f.located P := by
  intro c a d hc hd
  obtain ⟨g, hg, rfl⟩ := parse_located_eq_some_iff.1 hd
  obtain ⟨w, hw, hP⟩ := h c g d hc hg
  exact ⟨w, hw, hP _⟩

theorem Spells.rule (h : Spells p P) (name : Rule) : Spells (p.rule name) P := h

end Sequences

section Leaves

theorem spells_token {rule : Rule} {scan : Scanner} {P : String → List Char → Prop}
    (hscan : scan.Fits) (h : ∀ cs w, scan cs = some w → P (String.ofList w) w) :
    Spells (token rule scan) P := by
  intro c a d _ hd
  obtain ⟨w, hw, rfl, rfl⟩ := parse_token_eq_some_iff.1 hd
  exact ⟨w, ⟨hscan _ w hw, rfl⟩, h _ w hw⟩

theorem spells_literal (s : String) : Spells (literal s) fun _ w => w = s.toList := by
  intro c a d _ hd
  obtain ⟨w, hw, rfl⟩ := parse_literal_eq_some_iff.1 hd
  exact ⟨w, ⟨fits_text s _ w hw, rfl⟩, Scanner.eq_toList_of_text hw⟩

theorem spells_symbol {rule : Rule} {spellings : List (α × Scanner)} {P : α → List Char → Prop}
    (h : ∀ q ∈ spellings, q.2.Fits ∧ ∀ cs w, q.2 cs = some w → P q.1 w) :
    Spells (symbol rule spellings) P := by
  intro c a d _ hd
  obtain ⟨w, hw, rfl⟩ := parse_symbol_eq_some_iff.1 hd
  obtain ⟨scan, hmem, hscan⟩ := exists_of_firstSpelling hw
  obtain ⟨hfits, hP⟩ := h _ hmem
  exact ⟨w, ⟨hfits _ w hscan, rfl⟩, hP _ w hscan⟩

end Leaves

/-- The texts of a row of constructs behind separators, with the text in front of the row. -/
theorem commas_of_row {as : List α} {a : α} {u gap w : List Char} (ha : P a u) (hgap : IsGap gap)
    (hrow : Row (fun b w => ∃ behind v, w = ',' :: (behind ++ v) ∧ IsGap behind ∧ P b v) as w) :
    Commas P (a :: as) (u ++ (gap ++ w)) := by
  induction hrow generalizing a u gap with
  | nil =>
    rw [List.append_nil]
    exact .last ha hgap
  | cons hbefore hfirst _ ih =>
    obtain ⟨behind, v, rfl, hbehind, hv⟩ := hfirst
    have hrest := ih hv .nil
    rw [List.nil_append] at hrest
    have hall := Commas.cons ha (hgap.append hbefore) hbehind hrest
    rw [List.append_assoc] at hall
    rw [List.cons_append, List.append_assoc]
    exact hall

theorem Spells.separated (h : Spells p P) : Spells (p.separated (literal ",")) (Commas P) := by
  have hitem : Spells (literal "," *> p)
      fun b w => ∃ behind v, w = ',' :: (behind ++ v) ∧ IsGap behind ∧ P b v := by
    refine Spells.seqRight ((spells_literal ",").mono ?_) h
    rintro _ _ rfl gap b v hgap hv
    exact ⟨gap, v, rfl, hgap, hv⟩
  exact Spells.seq (h.map fun _ _ ha _ _ _ hgap hrow => commas_of_row ha hgap hrow) hitem.many

section Moving

/-! What is read of a construct alone, without how it is spelled. -/

variable {f : Parser (α → β)} {r : Parser β}

theorem Moves.map (h : Moves p) (f : α → β) : Moves (f <$> p) := Spells.map h fun _ _ _ => trivial

theorem Moves.seq (hf : Moves f) (hp : Moves p) : Moves (f <*> p) :=
  Spells.seq (hf.mono fun _ _ _ _ _ _ _ _ => trivial) hp

theorem Moves.seqLeft (hp : Moves p) (hr : Moves r) : Moves (p <* r) := (hp.map _).seq hr

theorem Moves.seqRight (hr : Moves r) (hp : Moves p) : Moves (r *> p) := (hr.map _).seq hp

theorem Moves.orElse (hp : Moves p) (hq : Moves q) : Moves (p <|> q) := Spells.orElse hp hq

theorem Moves.optional (h : Moves p) : Moves p.optional := (Spells.optional h).moves

theorem Moves.many (h : Moves p) : Moves p.many := (Spells.many h).moves

theorem Moves.separated {separator : Parser Unit} (h : Moves p) (hs : Moves separator) :
    Moves (p.separated separator) := (h.map _).seq (hs.seqRight h).many

theorem Moves.located {f : Parser (Nat → α)} (h : Moves f) : Moves f.located :=
  Spells.located (h.mono fun _ _ _ _ => trivial)

theorem Moves.quoted {f : Parser (String → α)} (h : Moves f) : Moves f.quoted := by
  intro c a d hc hd
  obtain ⟨g, hg, rfl⟩ := parse_quoted_eq_some_iff.1 hd
  exact h c g d hc hg

theorem Moves.rule (h : Moves p) (name : Rule) : Moves (p.rule name) := h

theorem moves_token {rule : Rule} {scan : Scanner} (h : scan.Fits) : Moves (token rule scan) :=
  spells_token h fun _ _ _ => trivial

theorem moves_symbol {rule : Rule} {spellings : List (α × Scanner)}
    (h : ∀ q ∈ spellings, q.2.Fits) : Moves (symbol rule spellings) :=
  spells_symbol fun q hq => ⟨h q hq, fun _ _ _ => trivial⟩

theorem moves_literal (s : String) : Moves (literal s) := (spells_literal s).moves

theorem moves_fix {f : Parser α → Parser α} (h : ∀ p, Moves p → Moves (f p)) : Moves (fix f) := by
  have hnested (depth : Nat) : Moves (nested f depth) := by
    induction depth with
    | zero => exact fun _ _ _ _ hd => nomatch hd
    | succ depth ih => exact h _ ih
  exact fun c => hnested (c.rest.length + 1) c

end Moving

end Parser
end GalecAudit.Grammar
