import GalecAudit.Proofs.Grammar.Layout
import GalecAudit.Proofs.Grammar.Lexeme
import GalecAudit.Proofs.Grammar.Reading

/-!
# Agreement of two runs

Two parsers agree if in aligned texts both refuse, or both read related results up to places from which
the texts are aligned again. The rules follow how parsers are put together. How much of the texts is
read is kept with it, because repetitions and nested constructs have to become shorter.
-/
namespace GalecAudit.Grammar

namespace Parser

variable {α β : Type}

/-- What two parsers read from two places: related values, up to places from which the texts are aligned
and which are at least some characters further on. -/
structure Matching (k : Nat) (R : α → α → Prop) (c c' : Cursor) (r r' : α × Cursor) : Prop where
  value : R r.1 r'.1
  aligned : Aligned r.2.rest r'.2.rest
  first : r.2.rest.length + k ≤ c.rest.length
  second : r'.2.rest.length + k ≤ c'.rest.length

/-- In aligned texts that are shorter than `n` and `n'` two parsers both refuse, or what they read
matches and is at least `k` characters long. -/
def Agrees (n n' k : Nat) (p p' : Parser α) (R : α → α → Prop) : Prop :=
  ∀ c c' : Cursor, c.rest.length < n → c'.rest.length < n' → Aligned c.rest c'.rest →
    p.parse c = none ∧ p'.parse c' = none ∨
      ∃ r r', p.parse c = some r ∧ p'.parse c' = some r' ∧ Matching k R c c' r r'

variable {n n' m m' k j : Nat} {p p' q q' : Parser α} {R : α → α → Prop} {S : β → β → Prop}

section Rules

theorem Agrees.mono {T : α → α → Prop} (h : Agrees n n' k p p' R) (hm : m ≤ n) (hm' : m' ≤ n')
    (hj : j ≤ k) (hT : ∀ a a', R a a' → T a a') : Agrees m m' j p p' T := by
  intro c c' hc hc' ha
  refine (h c c' (by omega) (by omega) ha).imp id fun ⟨r, r', hp, hp', hr⟩ => ?_
  have hfirst := hr.first
  have hsecond := hr.second
  exact ⟨r, r', hp, hp', hT _ _ hr.value, hr.aligned, by omega, by omega⟩

theorem Agrees.weaken (h : Agrees n n' k p p' R) : Agrees n n' 0 p p' R :=
  h.mono (Nat.le_refl n) (Nat.le_refl n') (Nat.zero_le k) fun _ _ hr => hr

theorem Agrees.shorten (h : Agrees n n' k p p' R) (hm : m ≤ n) (hm' : m' ≤ n') :
    Agrees m m' k p p' R := h.mono hm hm' (Nat.le_refl k) fun _ _ hr => hr

/-- Behind a first character. -/
theorem Agrees.behind (h : Agrees n n' k p p' R) : Agrees (n - 1) (n' - 1) k p p' R :=
  h.shorten (Nat.sub_le n 1) (Nat.sub_le n' 1)

theorem Agrees.map {f f' : α → β} (h : Agrees n n' k p p' R)
    (hf : ∀ a a', R a a' → S (f a) (f' a')) : Agrees n n' k (f <$> p) (f' <$> p') S := by
  intro c c' hc hc' ha
  rw [parse_map, parse_map]
  rcases h c c' hc hc' ha with ⟨hp, hp'⟩ | ⟨r, r', hp, hp', hr⟩
  · exact .inl ⟨by rw [hp, Option.map_none], by rw [hp', Option.map_none]⟩
  · rw [hp, hp', Option.map_some, Option.map_some]
    exact .inr ⟨_, _, rfl, rfl, hf _ _ hr.value, hr.aligned, hr.first, hr.second⟩

/-- The trivia between two constructs is skipped in both texts. -/
theorem Agrees.seq {f f' : Parser (α → β)}
    (hf : Agrees n n' k f f' fun g g' => ∀ a a', R a a' → S (g a) (g' a'))
    (hp : Agrees (n - k) (n' - k) 0 p p' R) : Agrees n n' k (f <*> p) (f' <*> p') S := by
  intro c c' hc hc' ha
  rw [parse_seq, parse_seq]
  rcases hf c c' hc hc' ha with ⟨hfc, hfc'⟩ | ⟨r, r', hfc, hfc', hr⟩
  · exact .inl ⟨by rw [hfc, Option.bind_none], by rw [hfc', Option.bind_none]⟩
  · rw [hfc, hfc', Option.bind_some, Option.bind_some]
    have hfirst := hr.first
    have hsecond := hr.second
    have hskip := length_pastTrivia_le r.2.rest
    have hskip' := length_pastTrivia_le r'.2.rest
    rw [← Cursor.rest_skip] at hskip hskip'
    rcases hp r.2.skip r'.2.skip (by omega) (by omega) hr.aligned.pastTrivia with
      ⟨hpc, hpc'⟩ | ⟨s, s', hpc, hpc', hs⟩
    · exact .inl ⟨by rw [hpc, Option.map_none], by rw [hpc', Option.map_none]⟩
    · rw [hpc, hpc', Option.map_some, Option.map_some]
      have hlast := hs.first
      have hlast' := hs.second
      exact .inr ⟨_, _, rfl, rfl, hr.value _ _ hs.value, hs.aligned, by dsimp only; omega,
        by dsimp only; omega⟩

theorem Agrees.seqLeft {T : β → β → Prop} {r r' : Parser β} (hp : Agrees n n' k p p' R)
    (hr : Agrees (n - k) (n' - k) 0 r r' T) : Agrees n n' k (p <* r) (p' <* r') R := by
  have hfirst : Agrees n n' k ((fun a (_ : β) => a) <$> p) ((fun a (_ : β) => a) <$> p')
      fun g g' => ∀ b b', T b b' → R (g b) (g' b') := hp.map fun _ _ h _ _ _ => h
  exact hfirst.seq hr

theorem Agrees.seqRight {T : β → β → Prop} {r r' : Parser β} (hr : Agrees n n' k r r' T)
    (hp : Agrees (n - k) (n' - k) 0 p p' R) : Agrees n n' k (r *> p) (r' *> p') R := by
  have hfirst : Agrees n n' k ((fun (_ : β) a => a) <$> r) ((fun (_ : β) a => a) <$> r')
      fun g g' => ∀ a a', R a a' → R (g a) (g' a') := hr.map fun _ _ _ _ _ h => h
  exact hfirst.seq hp

theorem Agrees.orElse (hp : Agrees n n' k p p' R) (hq : Agrees n n' k q q' R) :
    Agrees n n' k (p <|> q) (p' <|> q') R := by
  intro c c' hc hc' ha
  rw [parse_orElse, parse_orElse]
  rcases hp c c' hc hc' ha with ⟨hpc, hpc'⟩ | ⟨r, r', hpc, hpc', hr⟩
  · rw [hpc, hpc', Option.none_or, Option.none_or]
    exact hq c c' hc hc' ha
  · rw [hpc, hpc', Option.some_or, Option.some_or]
    exact .inr ⟨r, r', rfl, rfl, hr⟩

theorem Agrees.optional (h : Agrees n n' k p p' R) :
    Agrees n n' 0 p.optional p'.optional (Option.Rel R) := by
  intro c c' hc hc' ha
  rw [parse_optional, parse_optional]
  rcases h c c' hc hc' ha with ⟨hp, hp'⟩ | ⟨r, r', hp, hp', hr⟩
  · rw [hp, hp', Option.map_none, Option.none_or, Option.none_or]
    exact .inr ⟨_, _, rfl, rfl, .none, ha, Nat.le_refl _, Nat.le_refl _⟩
  · rw [hp, hp', Option.map_some, Option.some_or, Option.map_some, Option.some_or]
    have hfirst := hr.first
    have hsecond := hr.second
    exact .inr ⟨_, _, rfl, rfl, .some hr.value, hr.aligned, by dsimp only; omega,
      by dsimp only; omega⟩

theorem Agrees.rule (h : Agrees n n' k p p' R) (name : Rule) :
    Agrees n n' k (p.rule name) (p'.rule name) R := h

theorem Agrees.located {f f' : Parser (Nat → α)}
    (h : Agrees n n' k f f' fun g g' => ∀ l l', R (g l) (g' l')) :
    Agrees n n' k f.located f'.located R := by
  intro c c' hc hc' ha
  rw [parse_located, parse_located]
  rcases h c c' hc hc' ha with ⟨hp, hp'⟩ | ⟨r, r', hp, hp', hr⟩
  · exact .inl ⟨by rw [hp, Option.map_none], by rw [hp', Option.map_none]⟩
  · rw [hp, hp', Option.map_some, Option.map_some]
    exact .inr ⟨_, _, rfl, rfl, hr.value _ _, hr.aligned, hr.first, hr.second⟩

theorem Agrees.quoted {f f' : Parser (String → α)}
    (h : Agrees n n' k f f' fun g g' => ∀ s s', R (g s) (g' s')) :
    Agrees n n' k f.quoted f'.quoted R := by
  intro c c' hc hc' ha
  rw [parse_quoted, parse_quoted]
  rcases h c c' hc hc' ha with ⟨hp, hp'⟩ | ⟨r, r', hp, hp', hr⟩
  · exact .inl ⟨by rw [hp, Option.map_none], by rw [hp', Option.map_none]⟩
  · rw [hp, hp', Option.map_some, Option.map_some]
    exact .inr ⟨_, _, rfl, rfl, hr.value _ _, hr.aligned, hr.first, hr.second⟩

/-- Repetitions of constructs that are not empty have as many rounds in both texts. -/
theorem Agrees.many (h : Agrees n n' 1 p p' R) :
    Agrees n n' 0 p.many p'.many (List.Forall₂ R) := by
  have hround (c c' : Cursor) (hc : c.rest.length < n) (hc' : c'.rest.length < n')
      (ha : Aligned c.rest c'.rest) :
      Matching 0 (List.Forall₂ R) c c' (p.readMany c) (p'.readMany c') := by
    induction hn : c.rest.length using Nat.strongRecOn generalizing c c' with
    | ind l ih =>
      have hskip := length_pastTrivia_le c.rest
      have hskip' := length_pastTrivia_le c'.rest
      rw [← Cursor.rest_skip] at hskip hskip'
      rcases h c.skip c'.skip (by omega) (by omega) ha.pastTrivia with
        ⟨hp, hp'⟩ | ⟨r, r', hp, hp', hr⟩
      · rw [readMany, readMany, hp, hp']
        exact ⟨.nil, ha, Nat.le_refl _, Nat.le_refl _⟩
      · have hfirst := hr.first
        have hsecond := hr.second
        have hshorter : r.2.rest.length < c.rest.length := by omega
        have hshorter' : r'.2.rest.length < c'.rest.length := by omega
        have hrest := ih r.2.rest.length (by omega) r.2 r'.2 (by omega) (by omega) hr.aligned rfl
        have hlast := hrest.first
        have hlast' := hrest.second
        rw [readMany, readMany, hp, hp']
        simp only [if_pos hshorter, if_pos hshorter']
        exact ⟨.cons hr.value hrest.value, hrest.aligned, by dsimp only; omega, by dsimp only; omega⟩
  exact fun c c' hc hc' ha => .inr ⟨_, _, rfl, rfl, hround c c' hc hc' ha⟩

theorem Agrees.separated {separator : Parser Unit} (h : Agrees n n' 1 p p' R)
    (hs : Agrees n n' 1 separator separator fun _ _ => True) :
    Agrees n n' 1 (p.separated separator) (p'.separated separator) (List.Forall₂ R) := by
  have hitem : Agrees (n - 1) (n' - 1) 1 (separator *> p) (separator *> p') R :=
    hs.behind.seqRight h.behind.behind.weaken
  have hfirst : Agrees n n' 1 (List.cons <$> p) (List.cons <$> p')
      fun g g' => ∀ as as', List.Forall₂ R as as' → List.Forall₂ R (g as) (g' as') :=
    h.map fun _ _ ha _ _ has => .cons ha has
  exact hfirst.seq hitem.many

end Rules

section Leaves

/-- A parser that reads a lexeme agrees with itself, if what it finds does not depend on the layout. -/
theorem agrees_of_read (read : List Char → Option (α × List Char))
    (hp : ∀ c, p.parse c = (read c.rest).map fun r => (r.1, c.advance r.2))
    (hread : ∀ cs cs', Aligned cs cs' → read cs = read cs' ∧ ∀ a w, read cs = some (a, w) →
      w ≠ [] ∧ w <+: cs ∧ w <+: cs' ∧ Aligned (cs.drop w.length) (cs'.drop w.length)) :
    Agrees n n' 1 p p (· = ·) := by
  intro c c' _ _ ha
  obtain ⟨heq, hlexeme⟩ := hread c.rest c'.rest ha
  rw [hp, hp, ← heq]
  cases hr : read c.rest with
  | none => exact .inl ⟨rfl, rfl⟩
  | some r =>
    obtain ⟨hne, hpre, hpre', hdrop⟩ := hlexeme r.1 r.2 hr
    have hpos := List.length_pos_iff.2 hne
    have hle := hpre.length_le
    have hle' := hpre'.length_le
    refine .inr ⟨_, _, rfl, rfl, rfl, hdrop, ?_, ?_⟩ <;>
      simp only [Cursor.advance, List.length_drop] <;> omega

/-- A parser of one lexeme, whose value is made from the text of the lexeme. -/
theorem agrees_lexeme {scan : Scanner} (h : IsLexeme scan) (value : List Char → α)
    (hp : ∀ c, p.parse c = (scan c.rest).map fun w => (value w, c.advance w)) :
    Agrees n n' 1 p p (· = ·) := by
  refine agrees_of_read (fun cs => (scan cs).map fun w => (value w, w)) (fun c => ?_)
    fun cs cs' ha => ?_
  · rw [hp, Option.map_map]
    rfl
  · obtain ⟨heq, hlexeme⟩ := ha.scan h.stops
    refine ⟨congrArg _ heq, fun a w hw => ?_⟩
    obtain ⟨v, hv, hvw⟩ := Option.map_eq_some_iff.1 hw
    cases hvw
    exact ⟨h.nonempty cs _ hv, hlexeme _ hv⟩

theorem agrees_token {rule : Rule} {scan : Scanner} (h : IsLexeme scan) :
    Agrees n n' 1 (token rule scan) (token rule scan) (· = ·) :=
  agrees_lexeme h String.ofList fun _ => rfl

theorem agrees_literal {s : String} (h : IsLexeme (Scanner.text s)) :
    Agrees n n' 1 (literal s) (literal s) fun _ _ => True :=
  (agrees_lexeme h (fun _ => ()) fun _ => rfl).mono (Nat.le_refl n) (Nat.le_refl n')
    (Nat.le_refl 1) fun _ _ _ => trivial

theorem agrees_symbol {rule : Rule} {spellings : List (α × Scanner)}
    (h : ∀ s ∈ spellings, IsLexeme s.2) :
    Agrees n n' 1 (symbol rule spellings) (symbol rule spellings) (· = ·) := by
  refine agrees_of_read (firstSpelling spellings) (fun c => rfl) fun cs cs' ha => ?_
  induction spellings with
  | nil => exact ⟨rfl, nofun⟩
  | cons s rest ih =>
    obtain ⟨hs, hrest⟩ := List.forall_mem_cons.1 h
    obtain ⟨heq, hlexeme⟩ := ha.scan hs.stops
    rw [firstSpelling, firstSpelling, ← heq]
    cases hw : s.2 cs with
    | none => exact ih hrest
    | some v =>
      refine ⟨rfl, fun a w haw => ?_⟩
      cases haw
      exact ⟨hs.nonempty cs v hw, hlexeme v hw⟩

theorem agrees_nothing : Agrees n n' 0 nothing nothing fun _ _ => True :=
  fun _ _ _ _ ha => .inr ⟨_, _, rfl, rfl, trivial, ha, Nat.le_refl _, Nat.le_refl _⟩

theorem agrees_endOfInput : Agrees n n' 0 endOfInput endOfInput fun _ _ => True := by
  intro c c' _ _ ha
  have hempty : c.rest.isEmpty = c'.rest.isEmpty := by
    rw [Bool.eq_iff_iff, List.isEmpty_iff, List.isEmpty_iff]
    exact ha.eq_nil_iff
  have hparse (d : Cursor) : endOfInput.parse d = if d.rest.isEmpty then some ((), d) else none := rfl
  rw [hparse, hparse, ← hempty]
  split
  · exact .inr ⟨_, _, rfl, rfl, trivial, ha, Nat.le_refl _, Nat.le_refl _⟩
  · exact .inl ⟨rfl, rfl⟩

end Leaves

/-- A construct that contains itself only behind something of its own agrees at any two depths. -/
theorem agrees_nested {f : Parser α → Parser α}
    (hf : ∀ d d' p p', Agrees d d' 1 p p' R → Agrees (d + 1) (d' + 1) 1 (f p) (f p') R)
    (d d' : Nat) : Agrees d d' 1 (nested f d) (nested f d') R := by
  induction d generalizing d' with
  | zero => exact fun c c' hc _ _ => absurd hc (Nat.not_lt_zero _)
  | succ d ih =>
    cases d' with
    | zero => exact fun c c' _ hc' _ => absurd hc' (Nat.not_lt_zero _)
    | succ d' =>
      refine hf d d' (delay fun _ => nested f d) (delay fun _ => nested f d') ?_
      exact fun c c' hc hc' ha => ih d' c c' hc hc' ha

theorem agrees_fix {f : Parser α → Parser α}
    (hf : ∀ d d' p p', Agrees d d' 1 p p' R → Agrees (d + 1) (d' + 1) 1 (f p) (f p') R) :
    Agrees n n' 1 (fix f) (fix f) R :=
  fun c c' _ _ ha => agrees_nested hf _ _ c c' (Nat.lt_succ_self _) (Nat.lt_succ_self _) ha

end Parser
end GalecAudit.Grammar
