import GalecAudit.Grammar.Parser
import GalecAudit.Proofs.Grammar.Trivia
import Mathlib.Data.List.Forall2

/-!
# What parsers read

A parser reads a text up to a place or refuses it. The rules for the parsers of constructs follow how
these are put together from the parsers of their parts, with the trivia between them.
-/
namespace GalecAudit.Grammar

/-- What stands behind a construct that ends in front of `rest`: the trivia there may belong to it. -/
def Leaves (rest left : List Char) : Prop := left = rest ∨ left = pastTrivia rest

theorem Leaves.pastTrivia_eq {rest left : List Char} (h : Leaves rest left) :
    pastTrivia left = pastTrivia rest := by
  rcases h with rfl | rfl
  · rfl
  · exact pastTrivia_pastTrivia rest

theorem Leaves.length_le {rest left : List Char} (h : Leaves rest left) :
    left.length ≤ rest.length := by
  rcases h with rfl | rfl
  · exact Nat.le_refl _
  · exact length_pastTrivia_le rest

namespace Parser

variable {α β : Type}

/-- Wherever the text is `cs` the parser reads a construct with a property and ends in front of `rest`. -/
def Reads (p : Parser α) (cs : List Char) (P : α → Prop) (rest : List Char) : Prop :=
  ∀ c : Cursor, c.rest = cs → ∃ a d, p.parse c = some (a, d) ∧ Leaves rest d.rest ∧ P a

/-- Wherever the text is `cs` the parser reads nothing. -/
def Refuses (p : Parser α) (cs : List Char) : Prop := ∀ c : Cursor, c.rest = cs → p.parse c = none

theorem parse_map (f : α → β) (p : Parser α) (c : Cursor) :
    (f <$> p).parse c = (p.parse c).map fun r => (f r.1, r.2) := rfl

theorem parse_located (p : Parser (Nat → α)) (c : Cursor) :
    p.located.parse c = (p.parse c).map fun r => (r.1 c.line, r.2) := rfl

theorem parse_quoted (p : Parser (String → α)) (c : Cursor) :
    p.quoted.parse c = (p.parse c).map fun r => (r.1 (c.textTo r.2), r.2) := rfl

theorem parse_seq (f : Parser (α → β)) (p : Parser α) (c : Cursor) :
    (f <*> p).parse c =
      (f.parse c).bind fun r => (p.parse r.2.skip).map fun s => (r.1 s.1, s.2) := by
  change (Parser.seq f p).parse c = _
  dsimp only [Parser.seq]
  cases f.parse c <;> rfl

theorem parse_orElse (p q : Parser α) (c : Cursor) :
    (p <|> q).parse c = (p.parse c).or (q.parse c) := by
  change (Parser.orElse p q).parse c = _
  dsimp only [Parser.orElse]
  cases p.parse c <;> rfl

theorem parse_optional (p : Parser α) (c : Cursor) :
    p.optional.parse c = ((p.parse c).map fun r => (some r.1, r.2)).or (some (none, c)) := by
  dsimp only [Parser.optional]
  cases p.parse c <;> rfl

section Inversion

variable {p q : Parser α} {a : α} {b : β} {c d : Cursor}

theorem parse_map_eq_some_iff {f : α → β} :
    (f <$> p).parse c = some (b, d) ↔ ∃ a, p.parse c = some (a, d) ∧ f a = b := by
  simp [parse_map]

theorem parse_located_eq_some_iff {f : Parser (Nat → α)} :
    f.located.parse c = some (a, d) ↔ ∃ g, f.parse c = some (g, d) ∧ g c.line = a := by
  simp [parse_located]

theorem parse_quoted_eq_some_iff {f : Parser (String → α)} :
    f.quoted.parse c = some (a, d) ↔ ∃ g, f.parse c = some (g, d) ∧ g (c.textTo d) = a := by
  rw [parse_quoted, Option.map_eq_some_iff]
  constructor
  · rintro ⟨⟨g, last⟩, hg, heq⟩
    cases heq
    exact ⟨g, hg, rfl⟩
  · rintro ⟨g, hg, rfl⟩
    exact ⟨(g, d), hg, rfl⟩

theorem parse_seq_eq_some_iff {f : Parser (α → β)} :
    (f <*> p).parse c = some (b, d) ↔ ∃ g next a, f.parse c = some (g, next) ∧
      p.parse next.skip = some (a, d) ∧ g a = b := by
  simp [parse_seq, Option.bind_eq_some_iff]

theorem parse_orElse_eq_some_iff {r : α × Cursor} :
    (p <|> q).parse c = some r ↔ p.parse c = some r ∨ p.parse c = none ∧ q.parse c = some r := by
  rw [parse_orElse, Option.or_eq_some_iff]

theorem parse_optional_eq_some_iff {o : Option α} :
    p.optional.parse c = some (o, d) ↔
      (∃ a, p.parse c = some (a, d) ∧ some a = o) ∨ p.parse c = none ∧ none = o ∧ c = d := by
  rw [parse_optional, Option.or_eq_some_iff, Option.map_eq_none_iff]
  simp

theorem parse_many_eq_some_iff {as : List α} :
    p.many.parse c = some (as, d) ↔ p.readMany c = (as, d) := by
  rw [many, Option.some_inj]

theorem parse_token_eq_some_iff {rule : Rule} {scan : Scanner} {s : String} :
    (token rule scan).parse c = some (s, d) ↔
      ∃ w, scan c.rest = some w ∧ String.ofList w = s ∧ c.advance w = d := by
  simp [token, leaf]

theorem parse_literal_eq_some_iff {s : String} {u : Unit} :
    (literal s).parse c = some (u, d) ↔ ∃ w, Scanner.text s c.rest = some w ∧ c.advance w = d := by
  simp [literal, leaf]

theorem parse_symbol_eq_some_iff {rule : Rule} {spellings : List (α × Scanner)} :
    (symbol rule spellings).parse c = some (a, d) ↔
      ∃ w, firstSpelling spellings c.rest = some (a, w) ∧ c.advance w = d := by
  simp [symbol, leaf]

theorem exists_of_firstSpelling {spellings : List (α × Scanner)} {cs w : List Char}
    (h : firstSpelling spellings cs = some (a, w)) :
    ∃ scan, (a, scan) ∈ spellings ∧ scan cs = some w := by
  induction spellings with
  | nil => cases h
  | cons spelling rest ih =>
    obtain ⟨b, scan⟩ := spelling
    rw [firstSpelling] at h
    split at h
    · next hscan =>
      cases h
      exact ⟨scan, List.mem_cons_self, hscan⟩
    · obtain ⟨other, hmem, hother⟩ := ih h
      exact ⟨other, List.mem_cons_of_mem _ hmem, hother⟩

end Inversion

/-- Behind a construct that is a whole text is nothing but trivia. -/
theorem exists_of_parse_whole {p : Parser α} {c d : Cursor} {a : α}
    (h : (nothing *> p <* endOfInput).parse c = some (a, d)) :
    ∃ last, p.parse c.skip = some (a, last) ∧ last.skip.rest = [] := by
  change ((fun a _ => a) <$> ((fun _ a => a) <$> nothing <*> p) <*> endOfInput).parse c = _ at h
  simp only [parse_seq, parse_map, Option.bind_eq_some_iff, Option.map_eq_some_iff] at h
  obtain ⟨_, ⟨_, ⟨_, ⟨_, hnothing, rfl⟩, ⟨_, last⟩, hread, rfl⟩, rfl⟩, ⟨_, _⟩, hend, heq⟩ :=
    h
  cases hnothing
  cases heq
  simp only [endOfInput, leaf, Option.ite_none_right_eq_some] at hend
  exact ⟨last, hread, List.isEmpty_iff.1 hend.1⟩

variable {cs mid rest : List Char}

section Rules

variable {p q : Parser α} {P : α → Prop}

theorem Reads.mono {Q : α → Prop} (h : Reads p cs P rest) (hq : ∀ a, P a → Q a) :
    Reads p cs Q rest := by
  intro c hc
  obtain ⟨a, d, hd, hl, ha⟩ := h c hc
  exact ⟨a, d, hd, hl, hq a ha⟩

theorem Reads.of_pastTrivia (h : Reads p cs P (pastTrivia rest)) : Reads p cs P rest := by
  intro c hc
  obtain ⟨a, d, hd, hl, ha⟩ := h c hc
  refine ⟨a, d, hd, .inr ?_, ha⟩
  rcases hl with hl | hl
  · exact hl
  · exact hl.trans (pastTrivia_pastTrivia rest)

theorem Reads.map {f : α → β} {Q : β → Prop} (h : Reads p cs (fun a => Q (f a)) rest) :
    Reads (f <$> p) cs Q rest := by
  intro c hc
  obtain ⟨a, d, hd, hl, ha⟩ := h c hc
  exact ⟨f a, d, by rw [parse_map, hd, Option.map_some], hl, ha⟩

theorem Refuses.map {f : α → β} (h : Refuses p cs) : Refuses (f <$> p) cs :=
  fun c hc => by rw [parse_map, h c hc, Option.map_none]

theorem Reads.seq {f : Parser (α → β)} {F : (α → β) → Prop} {Q : β → Prop} (hf : Reads f cs F mid)
    (hp : ∀ g, F g → Reads p (pastTrivia mid) (fun a => Q (g a)) rest) :
    Reads (f <*> p) cs Q rest := by
  intro c hc
  obtain ⟨g, d, hd, hl, hg⟩ := hf c hc
  obtain ⟨a, last, ha, hlast, hq⟩ := hp g hg d.skip hl.pastTrivia_eq
  exact ⟨g a, last, by rw [parse_seq, hd, Option.bind_some, ha, Option.map_some], hlast, hq⟩

/-- Two constructs with a function of both. -/
theorem Reads.map_seq {γ : Type} {f : α → β → γ} {r : Parser β} {Q : γ → Prop}
    (hp : Reads p cs P mid)
    (hr : ∀ a, P a → Reads r (pastTrivia mid) (fun b => Q (f a b)) rest) :
    Reads (f <$> p <*> r) cs Q rest :=
  Reads.seq (F := fun g => ∃ a, P a ∧ g = f a)
    (Reads.map (hp.mono fun a ha => ⟨a, ha, rfl⟩)) fun _ ⟨a, ha, hg⟩ => hg ▸ hr a ha

theorem Refuses.seq {f : Parser (α → β)} (h : Refuses f cs) : Refuses (f <*> p) cs :=
  fun c hc => by rw [parse_seq, h c hc, Option.bind_none]

theorem Refuses.seq_snd {f : Parser (α → β)} {F : (α → β) → Prop} (hf : Reads f cs F mid)
    (hp : Refuses p (pastTrivia mid)) : Refuses (f <*> p) cs := by
  intro c hc
  obtain ⟨g, d, hd, hl, -⟩ := hf c hc
  rw [parse_seq, hd, Option.bind_some, hp d.skip hl.pastTrivia_eq, Option.map_none]

theorem Reads.seqLeft {r : Parser β} {Q : α → Prop} (hp : Reads p cs P mid)
    (hr : ∀ a, P a → Reads r (pastTrivia mid) (fun _ => Q a) rest) : Reads (p <* r) cs Q rest :=
  Reads.map_seq (f := fun a _ => a) hp hr

theorem Reads.seqRight {r : Parser β} {R : β → Prop} (hr : Reads r cs R mid)
    (hp : ∀ b, R b → Reads p (pastTrivia mid) P rest) : Reads (r *> p) cs P rest :=
  Reads.map_seq (f := fun _ a => a) hr hp

theorem Refuses.seqLeft {r : Parser β} (h : Refuses p cs) : Refuses (p <* r) cs :=
  Refuses.seq (f := (fun a _ => a) <$> p) h.map

theorem Refuses.seqRight {r : Parser β} (h : Refuses r cs) : Refuses (r *> p) cs :=
  Refuses.seq (f := (fun _ a => a) <$> r) h.map

theorem Refuses.seqLeft_snd {r : Parser β} (hp : Reads p cs P mid)
    (hr : Refuses r (pastTrivia mid)) : Refuses (p <* r) cs :=
  Refuses.seq_snd (f := (fun a _ => a) <$> p) (F := fun _ => True)
    (Reads.map (hp.mono fun _ _ => trivial)) hr

theorem Refuses.seqRight_snd {r : Parser β} {R : β → Prop} (hr : Reads r cs R mid)
    (hp : Refuses p (pastTrivia mid)) : Refuses (r *> p) cs :=
  Refuses.seq_snd (f := (fun _ a => a) <$> r) (F := fun _ => True)
    (Reads.map (hr.mono fun _ _ => trivial)) hp

theorem Reads.orElse (h : Reads p cs P rest) : Reads (p <|> q) cs P rest := by
  intro c hc
  obtain ⟨a, d, hd, hl, ha⟩ := h c hc
  exact ⟨a, d, by rw [parse_orElse, hd, Option.some_or], hl, ha⟩

theorem Refuses.orElse_reads (hp : Refuses p cs) (hq : Reads q cs P rest) :
    Reads (p <|> q) cs P rest := by
  intro c hc
  obtain ⟨a, d, hd, hl, ha⟩ := hq c hc
  exact ⟨a, d, by rw [parse_orElse, hp c hc, Option.none_or, hd], hl, ha⟩

theorem Refuses.orElse (hp : Refuses p cs) (hq : Refuses q cs) : Refuses (p <|> q) cs :=
  fun c hc => by rw [parse_orElse, hp c hc, Option.none_or, hq c hc]

theorem Reads.optional {Q : Option α → Prop} (h : Reads p cs (fun a => Q (some a)) rest) :
    Reads (optional p) cs Q rest := by
  intro c hc
  obtain ⟨a, d, hd, hl, ha⟩ := h c hc
  exact ⟨some a, d, by rw [parse_optional, hd, Option.map_some, Option.some_or], hl, ha⟩

theorem Refuses.optional {Q : Option α → Prop} (h : Refuses p cs) (hq : Q none) :
    Reads (optional p) cs Q cs :=
  fun c hc =>
    ⟨none, c, by rw [parse_optional, h c hc, Option.map_none, Option.none_or], .inl hc, hq⟩

theorem Reads.rule (h : Reads p cs P rest) (name : Rule) : Reads (rule name p) cs P rest := h

theorem Refuses.rule (h : Refuses p cs) (name : Rule) : Refuses (rule name p) cs := h

theorem Reads.located {f : Parser (Nat → α)} (h : Reads f cs (fun g => ∀ line, P (g line)) rest) :
    Reads (located f) cs P rest := by
  intro c hc
  obtain ⟨g, d, hd, hl, hg⟩ := h c hc
  exact ⟨g c.line, d, by rw [parse_located, hd, Option.map_some], hl, hg c.line⟩

theorem Refuses.located {f : Parser (Nat → α)} (h : Refuses f cs) : Refuses (located f) cs :=
  fun c hc => by rw [parse_located, h c hc, Option.map_none]

theorem Reads.quoted {f : Parser (String → α)} (h : Reads f cs (fun g => ∀ s, P (g s)) rest) :
    Reads (quoted f) cs P rest := by
  intro c hc
  obtain ⟨g, d, hd, hl, hg⟩ := h c hc
  exact ⟨g (c.textTo d), d, by rw [parse_quoted, hd, Option.map_some], hl, hg _⟩

theorem Refuses.quoted {f : Parser (String → α)} (h : Refuses f cs) : Refuses (quoted f) cs :=
  fun c hc => by rw [parse_quoted, h c hc, Option.map_none]

end Rules

section Leaves

theorem reads_literal (s : String) (rest : List Char) :
    Reads (literal s) (s.toList ++ rest) (fun _ => True) rest := by
  intro c hc
  refine ⟨(), c.advance s.toList, ?_, .inl ?_, trivial⟩
  · simp only [literal, leaf, hc, Scanner.text_append, Option.map_some]
  · rw [Cursor.advance, hc, List.drop_left]

section Marks

variable {s : String} {c : Char} {p : Parser α} {P : α → Prop}

/-- A construct behind a mark. -/
theorem Reads.behind_mark (hs : s.toList = [c]) (h : Reads p (pastTrivia cs) P rest) :
    Reads (literal s *> p) (c :: cs) P rest := by
  have hmark := reads_literal s cs
  rw [hs] at hmark
  exact hmark.seqRight fun _ _ => h

/-- A construct in front of a mark. -/
theorem Reads.before_mark (h : Reads p cs P mid) (hs : s.toList = [c])
    (hmid : pastTrivia mid = c :: rest) : Reads (p <* literal s) cs P rest := by
  have hmark := reads_literal s rest
  rw [hs] at hmark
  refine h.seqLeft fun a ha => ?_
  rw [hmid]
  exact hmark.mono fun _ _ => ha

end Marks

theorem refuses_literal {s : String} (h : Scanner.text s cs = none) : Refuses (literal s) cs := by
  intro c hc
  simp only [literal, leaf, hc, h, Option.map_none]

theorem reads_token {rule : Rule} {scan : Scanner} {lexeme : List Char}
    (h : scan (lexeme ++ rest) = some lexeme) :
    Reads (token rule scan) (lexeme ++ rest) (· = String.ofList lexeme) rest := by
  intro c hc
  refine ⟨String.ofList lexeme, c.advance lexeme, ?_, .inl ?_, rfl⟩
  · simp only [token, leaf, hc, h, Option.map_some]
  · rw [Cursor.advance, hc, List.drop_left]

theorem refuses_token {rule : Rule} {scan : Scanner} (h : scan cs = none) :
    Refuses (token rule scan) cs := by
  intro c hc
  simp only [token, leaf, hc, h, Option.map_none]

theorem reads_symbol {rule : Rule} {spellings : List (α × Scanner)} {a : α} {lexeme : List Char}
    (h : firstSpelling spellings (lexeme ++ rest) = some (a, lexeme)) :
    Reads (symbol rule spellings) (lexeme ++ rest) (· = a) rest := by
  intro c hc
  refine ⟨a, c.advance lexeme, ?_, .inl ?_, rfl⟩
  · simp only [symbol, leaf, hc, h, Option.map_some]
  · rw [Cursor.advance, hc, List.drop_left]

theorem refuses_symbol {rule : Rule} {spellings : List (α × Scanner)}
    (h : firstSpelling spellings cs = none) : Refuses (symbol rule spellings) cs := by
  intro c hc
  simp only [symbol, leaf, hc, h, Option.map_none]

end Leaves

section Repetition

variable {p : Parser α} {P : List α → Prop}

/-- A repetition, begun in front of `cs` or behind the trivia there. -/
def ReadsMany (p : Parser α) (cs : List Char) (P : List α → Prop) (rest : List Char) : Prop :=
  ∀ left, Leaves cs left → Reads (many p) left P rest

theorem ReadsMany.reads (h : ReadsMany p cs P rest) : Reads (many p) (pastTrivia cs) P rest :=
  h (pastTrivia cs) (.inr rfl)

theorem ReadsMany.mono {Q : List α → Prop} (h : ReadsMany p cs P rest) (hq : ∀ as, P as → Q as) :
    ReadsMany p cs Q rest := fun left hl => (h left hl).mono hq

theorem ReadsMany.nil (h : Refuses p (pastTrivia cs)) (hP : P []) : ReadsMany p cs P cs := by
  intro left hl c hc
  have hskip : p.parse c.skip = none := h c.skip (by rw [Cursor.rest_skip, hc, hl.pastTrivia_eq])
  refine ⟨[], c, ?_, hc ▸ hl, hP⟩
  simp only [many]
  rw [readMany, hskip]

theorem ReadsMany.cons {Q : α → Prop} (h : Reads p (pastTrivia cs) Q mid)
    (hlt : mid.length < (pastTrivia cs).length)
    (hrest : ∀ a, Q a → ReadsMany p mid (fun as => P (a :: as)) rest) :
    ReadsMany p cs P rest := by
  intro left hl c hc
  -- A round may end in front of trivia or behind it: the next one begins behind it either way.
  obtain ⟨a, next, hnext, hleft, ha⟩ :=
    h c.skip (by rw [Cursor.rest_skip, hc, hl.pastTrivia_eq])
  obtain ⟨as, last, hlast, hle, has⟩ := hrest a ha next.rest hleft next rfl
  have hshorter : next.rest.length < c.rest.length := by
    have hn := hleft.length_le
    have hc' := length_pastTrivia_le c.rest
    rw [hc, hl.pastTrivia_eq] at hc'
    rw [hc]
    omega
  have hmany : readMany p next = (as, last) := Option.some.inj hlast
  refine ⟨a :: as, last, ?_, hle, has⟩
  simp only [many]
  rw [readMany, hnext]
  simp only [if_pos hshorter, hmany]

section Separated

variable {items : List β} {text : β → List Char} {R : β → α → Prop} {Stop : List Char → Prop}
  {gap : List Char}

theorem intercalate_comma (b : β) :
    (',' :: gap).intercalate ((b :: items).map text) =
      text b ++ items.flatMap fun b => ',' :: gap ++ text b := by
  induction items generalizing b with
  | nil => simp
  | cons d items ih =>
    rw [List.map_cons, List.map_cons, List.intercalate_cons_cons, ← List.map_cons, ih,
      List.flatMap_cons, List.append_assoc, List.append_assoc]

/-- In front of the constructs behind the first one stands a comma, if there are any. -/
theorem stop_comma (hcomma : ∀ cs, Stop (',' :: cs)) (hstop : Stop rest) :
    Stop ((items.flatMap fun b => ',' :: gap ++ text b) ++ rest) := by
  cases items with
  | nil => exact hstop
  | cons d items => exact hcomma _

/-- The constructs behind the first one, each with the comma in front of it. -/
theorem readsMany_comma (hgap : ∀ cs, pastTrivia (gap ++ cs) = pastTrivia cs)
    (hsolid : ∀ b ∈ items, ∀ rest, pastTrivia (text b ++ rest) = text b ++ rest)
    (hitem : ∀ b ∈ items, ∀ rest, Stop rest → Reads p (text b ++ rest) (R b) rest)
    (hcomma : ∀ cs, Stop (',' :: cs)) (hstop : Stop rest)
    (hend : Scanner.text "," (pastTrivia rest) = none) :
    ReadsMany (literal "," *> p) ((items.flatMap fun b => ',' :: gap ++ text b) ++ rest)
      (List.Forall₂ R items) rest := by
  induction items with
  | nil => exact .nil (refuses_literal hend).seqRight .nil
  | cons b items ih =>
    obtain ⟨hb, hsolid⟩ := List.forall_mem_cons.1 hsolid
    obtain ⟨hread, hitem⟩ := List.forall_mem_cons.1 hitem
    have htext : pastTrivia (((b :: items).flatMap fun b => ',' :: gap ++ text b) ++ rest) =
        ",".toList ++ (gap ++ (text b ++ ((items.flatMap fun b => ',' :: gap ++ text b) ++ rest))) := by
      rw [List.flatMap_cons, List.cons_append, List.cons_append, List.cons_append,
        pastTrivia_of_isSolid (by decide)]
      simp
    refine .cons (Q := R b) ?_ ?_ fun a ha => (ih hsolid hitem).mono fun as has => .cons ha has
    · rw [htext]
      refine (reads_literal "," _).seqRight fun _ _ => ?_
      rw [hgap, hb]
      exact hread _ (stop_comma hcomma hstop)
    · rw [htext]
      simp
      omega

/-- A list of constructs with a comma between each two, and maybe a gap behind it. -/
theorem reads_separated (hne : items ≠ []) (hgap : ∀ cs, pastTrivia (gap ++ cs) = pastTrivia cs)
    (hsolid : ∀ b ∈ items, ∀ rest, pastTrivia (text b ++ rest) = text b ++ rest)
    (hitem : ∀ b ∈ items, ∀ rest, Stop rest → Reads p (text b ++ rest) (R b) rest)
    (hcomma : ∀ cs, Stop (',' :: cs)) (hstop : Stop rest)
    (hend : Scanner.text "," (pastTrivia rest) = none) :
    Reads (separated p (literal ",")) ((',' :: gap).intercalate (items.map text) ++ rest)
      (List.Forall₂ R items) rest := by
  obtain ⟨b, items, rfl⟩ := List.exists_cons_of_ne_nil hne
  obtain ⟨-, hsolid⟩ := List.forall_mem_cons.1 hsolid
  obtain ⟨hread, hitem⟩ := List.forall_mem_cons.1 hitem
  rw [intercalate_comma, List.append_assoc]
  have hmany := (readsMany_comma hgap hsolid hitem hcomma hstop hend).reads
  exact (hread _ (stop_comma hcomma hstop)).map_seq fun a ha => hmany.mono fun as has => .cons ha has

end Separated

end Repetition

end Parser
end GalecAudit.Grammar
