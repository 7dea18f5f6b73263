import GalecAudit.Grammar.Scanner

/-!
# Words and identifiers

A run of identifier characters is read as a whole: as the reserved word that it is, and otherwise as an
identifier if it begins with a letter.
-/
namespace GalecAudit.Grammar

/-- A letter followed by identifier characters. -/
def IsIdentifier (name : String) : Prop :=
  name.toList.head?.any Char.isAlpha = true ∧ ∀ c ∈ name.toList, isIdentChar c = true

instance : DecidablePred IsIdentifier := fun name =>
  decidable_of_iff (name.toList.head?.any Char.isAlpha = true ∧ name.toList.all isIdentChar = true)
    (and_congr_right' List.all_eq_true)

theorem isIdentChar_of_isAlpha {c : Char} (h : c.isAlpha = true) : isIdentChar c = true := by
  rw [isIdentChar, Char.isAlphanum, h, Bool.true_or, Bool.true_or]

theorem isIdentChar_of_isDigit {c : Char} (h : c.isDigit = true) : isIdentChar c = true := by
  rw [isIdentChar, Char.isAlphanum, h, Bool.or_true, Bool.true_or]

/-- No character of a class stands at the start of a text. -/
def Ends (p : Char → Bool) (rest : List Char) : Prop := rest.head?.any p = false

theorem ends_cons {p : Char → Bool} {c : Char} {rest : List Char} :
    Ends p (c :: rest) ↔ p c = false := Iff.rfl

/-- A character of a class stands at the start of a text. -/
def Starts (p : Char → Bool) (w : List Char) : Prop := w.head?.any p = true

variable {p q : Char → Bool} {w rest : List Char}

theorem Ends.of_imp (h : Ends q rest) (hpq : ∀ c, p c = true → q c = true) : Ends p rest := by
  cases rest with
  | nil => rfl
  | cons c rest =>
    rw [ends_cons, Bool.eq_false_iff] at h ⊢
    exact fun hp => h (hpq c hp)

theorem Starts.of_imp (h : Starts p w) (hpq : ∀ c, p c = true → q c = true) : Starts q w := by
  cases w with
  | nil => cases h
  | cons c w => exact hpq c h

theorem Starts.ne_nil (h : Starts p w) : w ≠ [] := by
  rintro rfl
  cases h

theorem Starts.append (h : Starts p w) (rest : List Char) : Starts p (w ++ rest) := by
  cases w with
  | nil => cases h
  | cons c w => exact h

theorem Starts.ends (h : Starts p w) (hpq : ∀ c, p c = true → q c = false) (rest : List Char) :
    Ends q (w ++ rest) := by
  cases w with
  | nil => cases h
  | cons c w => exact hpq c h

theorem takeWhile_append_of_ends (hw : ∀ c ∈ w, p c = true) (hrest : Ends p rest) :
    (w ++ rest).takeWhile p = w := by
  rw [List.takeWhile_append_of_pos hw]
  cases rest with
  | nil => exact List.append_nil w
  | cons c rest => rw [List.takeWhile_cons, ends_cons.1 hrest, if_neg (by decide), List.append_nil]

/-- What a run is followed by begins with no character of the run's class. -/
theorem ends_drop_takeWhile (p : Char → Bool) (cs : List Char) :
    Ends p (cs.drop (cs.takeWhile p).length) := by
  induction cs with
  | nil => rfl
  | cons c rest ih =>
    by_cases hc : p c = true
    · rw [List.takeWhile_cons_of_pos hc]
      exact ih
    · rw [List.takeWhile_cons_of_neg hc]
      exact Bool.eq_false_iff.2 hc

namespace Scanner

theorem text_append (s : String) (rest : List Char) :
    text s (s.toList ++ rest) = some s.toList := by
  rw [text, if_pos (List.isPrefixOf_iff_prefix.2 (List.prefix_append _ _))]

theorem notBefore_eq_some {s : Scanner} {cs : List Char} (h : s.notBefore p cs = some w) :
    s cs = some w ∧ Ends p (cs.drop w.length) := by
  rw [notBefore] at h
  split at h
  · next v hv =>
    split at h
    · cases h
    · next hends =>
      cases h
      exact ⟨hv, Bool.eq_false_iff.2 hends⟩
  · cases h

/-- A text of one class of characters that stands at the start of a longer text stands inside the run
of that class. -/
theorem prefix_of_prefix_append {k : List Char} (hk : ∀ c ∈ k, p c = true) (hrest : Ends p rest)
    (h : k <+: w ++ rest) : k <+: w := by
  induction k generalizing w with
  | nil => exact List.nil_prefix
  | cons c k ih =>
    cases w with
    | nil =>
      cases rest with
      | nil => exact absurd h (by simp)
      | cons d rest =>
        obtain ⟨rfl, -⟩ := List.cons_prefix_cons.1 h
        exact absurd (hk c List.mem_cons_self) (by rw [ends_cons.1 hrest]; decide)
    | cons d w =>
      rw [List.cons_append, List.cons_prefix_cons] at h
      obtain ⟨rfl, h⟩ := h
      exact List.cons_prefix_cons.2 ⟨rfl, ih (fun x hx => hk x (List.mem_cons_of_mem c hx)) h⟩

/-- The first of several fixed texts that stands at the start. -/
theorem firstOf_text (spellings : List String) (cs : List Char) :
    firstOf (spellings.map text) cs =
      (spellings.find? fun s => s.toList.isPrefixOf cs).map String.toList := by
  induction spellings with
  | nil => rfl
  | cons s rest ih =>
    rw [List.map_cons, firstOf, orElse, List.find?_cons, text]
    by_cases h : s.toList.isPrefixOf cs = true
    · rw [if_pos h, h]
      rfl
    · rw [if_neg h, Bool.eq_false_iff.2 h]
      exact ih

/-- Whatever is read as one of several words is one of them, and no identifier character follows it. -/
theorem exists_of_wordOf {spellings : List String} {cs : List Char}
    (h : wordOf spellings cs = some w) :
    ∃ s ∈ spellings, w = s.toList ∧ w <+: cs ∧ Ends isIdentChar (cs.drop w.length) := by
  obtain ⟨hfirst, hends⟩ := notBefore_eq_some h
  rw [firstOf_text, Option.map_eq_some_iff] at hfirst
  obtain ⟨s, hs, rfl⟩ := hfirst
  have hprefix := List.find?_some hs
  exact ⟨s, List.mem_of_find?_eq_some hs, rfl, List.isPrefixOf_iff_prefix.1 hprefix, hends⟩

theorem word_eq_wordOf (s : String) : word s = wordOf [s] := by
  funext cs
  simp only [word, wordOf, notBefore, List.map_cons, List.map_nil, firstOf, orElse]
  cases text s cs <;> rfl

/-- Words of identifier characters of which none begins a later one. -/
structure AreWords (spellings : List String) : Prop where
  chars : ∀ s ∈ spellings, ∀ c ∈ s.toList, isIdentChar c = true
  ordered : spellings.Pairwise fun s t => ¬ s.toList <+: t.toList

/-- The word that a run of identifier characters is, is found before any other one. -/
theorem find?_of_mem {spellings : List String} (hs : AreWords spellings)
    (hrest : Ends isIdentChar rest) {s : String} (hm : s ∈ spellings) :
    (spellings.find? fun t => t.toList.isPrefixOf (s.toList ++ rest)) = some s := by
  obtain ⟨before, behind, rfl⟩ := List.append_of_mem hm
  refine List.find?_eq_some_iff_append.2 ⟨?_, before, behind, rfl, ?_⟩
  · exact List.isPrefixOf_iff_prefix.2 (List.prefix_append _ _)
  · intro t ht
    rw [Bool.not_eq_true', ← Bool.not_eq_true, List.isPrefixOf_iff_prefix]
    intro hp
    have hchars := hs.chars t (List.mem_append_left _ ht)
    exact (List.pairwise_append.1 hs.ordered).2.2 t ht s List.mem_cons_self
      (prefix_of_prefix_append hchars hrest hp)

/-- One of several words is read exactly where a run of identifier characters is one of them. -/
theorem wordOf_append {spellings : List String} (hs : AreWords spellings)
    (hw : ∀ c ∈ w, isIdentChar c = true) (hrest : Ends isIdentChar rest) :
    wordOf spellings (w ++ rest) = if String.ofList w ∈ spellings then some w else none := by
  rw [wordOf, notBefore, firstOf_text]
  by_cases hm : String.ofList w ∈ spellings
  · have hf := find?_of_mem hs hrest hm
    rw [String.toList_ofList] at hf
    have hend : ¬ rest.head?.any isIdentChar = true := Bool.eq_false_iff.1 hrest
    rw [hf, if_pos hm, Option.map_some, String.toList_ofList]
    simp only [List.drop_left]
    rw [if_neg hend]
  · rw [if_neg hm]
    cases hf : spellings.find? fun s => s.toList.isPrefixOf (w ++ rest) with
    | none => rfl
    | some s =>
      -- the spelling is a proper beginning of the run, so that a character of the run follows
      have hmem := List.mem_of_find?_eq_some hf
      have hp : s.toList <+: w ++ rest :=
        List.isPrefixOf_iff_prefix.1 (List.find?_eq_some_iff_append.1 hf).1
      obtain ⟨t, rfl⟩ := prefix_of_prefix_append (hs.chars s hmem) hrest hp
      cases t with
      | nil =>
        rw [List.append_nil, String.ofList_toList] at hm
        exact absurd hmem hm
      | cons c t =>
        have hc : isIdentChar c = true := hw c (List.mem_append_right _ List.mem_cons_self)
        rw [Option.map_some]
        simp only [List.append_assoc, List.drop_left, List.cons_append, List.head?_cons,
          Option.any_some, hc, if_true]

/-- A word is read exactly where a run of identifier characters is that word. -/
theorem word_append {s : String} (hs : ∀ c ∈ s.toList, isIdentChar c = true)
    (hw : ∀ c ∈ w, isIdentChar c = true) (hrest : Ends isIdentChar rest) :
    word s (w ++ rest) = if w = s.toList then some w else none := by
  have hwords : AreWords [s] := by
    constructor
    · intro t ht
      rw [List.mem_singleton.1 ht]
      exact hs
    · exact List.pairwise_singleton _ _
  rw [word_eq_wordOf, wordOf_append hwords hw hrest]
  simp only [List.mem_singleton, ← String.toList_inj, String.toList_ofList]

end Scanner

theorem keywords_chars : (keywords.all fun s => s.toList.all isIdentChar) = true := by decide +kernel

theorem areWords_keywords : Scanner.AreWords keywords where
  chars s hs := List.all_eq_true.1 (List.all_eq_true.1 keywords_chars s hs)
  ordered := by decide +kernel

namespace Lexeme

open Scanner

theorem rawIdent_append {name : String} (h : IsIdentifier name) (hrest : Ends isIdentChar rest) :
    rawIdent (name.toList ++ rest) = some name.toList := by
  obtain ⟨hfirst, hchars⟩ := h
  cases hn : name.toList with
  | nil =>
    rw [hn] at hfirst
    cases hfirst
  | cons c w =>
    rw [hn] at hfirst hchars
    have hw := takeWhile_append_of_ends
      (fun x hx => hchars x (List.mem_cons_of_mem c hx)) hrest
    have hc : c.isAlpha = true := hfirst
    simp only [List.cons_append, rawIdent, andThen, one, if_pos hc, List.length_singleton,
      List.drop_one, List.tail_cons, span, Option.map_some, hw, List.nil_append]

/-- An identifier that is no reserved word is read as a whole. -/
theorem ident_append {name : String} (h : IsIdentifier name) (hk : name ∉ keywords)
    (hrest : Ends isIdentChar rest) : ident (name.toList ++ rest) = some name.toList := by
  have hw : wordOf keywords (name.toList ++ rest) = none := by
    rw [wordOf_append areWords_keywords h.2 hrest, String.ofList_toList, if_neg hk]
  rw [ident, hw]
  exact rawIdent_append h hrest

/-- Whatever is read as an identifier is one, and no reserved word. -/
theorem isIdentifier_of_ident {cs name : List Char} (h : ident cs = some name) :
    IsIdentifier (String.ofList name) ∧ String.ofList name ∉ keywords := by
  unfold ident at h
  cases hw : wordOf keywords cs with
  | some _ =>
    rw [hw] at h
    cases h
  | none =>
    rw [hw] at h
    cases cs with
    | nil => cases h
    | cons c cs =>
      by_cases hc : c.isAlpha = true
      · simp only [rawIdent, andThen, one, if_pos hc, List.length_singleton, List.drop_one,
          List.tail_cons, span, Option.map_some, Option.some.injEq] at h
        subst h
        have hname : IsIdentifier (String.ofList ([c] ++ cs.takeWhile isIdentChar)) := by
          constructor
          · rw [String.toList_ofList]
            exact hc
          · intro d hd
            rw [String.toList_ofList, List.singleton_append, List.mem_cons] at hd
            rcases hd with rfl | hd
            · exact isIdentChar_of_isAlpha hc
            · exact List.all_eq_true.1 List.all_takeWhile d hd
        refine ⟨hname, fun hk => ?_⟩
        have hsplit : c :: cs = (String.ofList ([c] ++ cs.takeWhile isIdentChar)).toList ++
            cs.drop (cs.takeWhile isIdentChar).length := by
          rw [String.toList_ofList, List.singleton_append, List.cons_append,
            List.prefix_iff_eq_append.1 (List.takeWhile_prefix isIdentChar)]
        rw [hsplit, wordOf_append areWords_keywords hname.2 (ends_drop_takeWhile _ cs),
          String.ofList_toList, if_pos hk] at hw
        cases hw
      · simp only [rawIdent, andThen, one, if_neg hc] at h
        cases h

end Lexeme
end GalecAudit.Grammar
