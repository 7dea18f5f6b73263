import GalecAudit.Proofs.Grammar.Stopping
import GalecAudit.Proofs.Grammar.Trivia

/-!
# Layout

A text is laid out: chunks without blanks and comments stand between separators of blanks and comments.
Two layouts of the same chunks are aligned. They have the same characters, and where a separator begins
in one of them, one begins in the other.
-/
namespace GalecAudit.Grammar

/-- A part of a separator: a blank, a block comment, or a line comment with the character that ends its
line. -/
inductive Filler where
  | blank (c : Char) (isBlank : isSpace c = true)
  | blockComment (text : List Char) (unclosed : ¬ ['*', '/'] <:+: text)
  | lineComment (text : List Char) (unbroken : ∀ c ∈ text, endsLine c = false) (stop : Char)
      (isStop : endsLine stop = true)

namespace Filler

def text : Filler → List Char
  | blank c _ => [c]
  | blockComment text _ => '/' :: '*' :: (text ++ ['*', '/'])
  | lineComment text _ stop _ => '/' :: '/' :: (text ++ [stop])

end Filler

/-- Blanks and comments between two chunks. A blank stands at either end. -/
structure Separator where
  fillers : List Filler
  starts : Starts isSpace (fillers.flatMap Filler.text)
  stops : (fillers.flatMap Filler.text).getLast?.any isSpace = true

def Separator.text (s : Separator) : List Char := s.fillers.flatMap Filler.text

/-- A part of a text without blanks and without the beginning of a comment. -/
structure Chunk where
  text : List Char
  nonempty : text ≠ []
  solid : ∀ c ∈ text, isSpace c = false
  noLineComment : ¬ ['/', '/'] <:+: text
  noBlockComment : ¬ ['/', '*'] <:+: text

/-- The text of some chunks with a separator between each two of them. -/
def layOut (gaps : Nat → Separator) : List Chunk → List Char
  | [] => []
  | [c] => c.text
  | c :: d :: rest => c.text ++ ((gaps 0).text ++ layOut (fun n => gaps (n + 1)) (d :: rest))

section Trivia

theorem isSpace_of_endsLine {c : Char} (h : endsLine c = true) : isSpace c = true := by
  rw [endsLine, Bool.or_eq_true, beq_iff_eq, beq_iff_eq] at h
  rcases h with rfl | rfl <;> rfl

/-- A block comment ends where it is first closed. -/
theorem blockCommentTail_append {text : List Char} (h : ¬ ['*', '/'] <:+: text) (rest : List Char) :
    blockCommentTail (text ++ '*' :: '/' :: rest) = some (text ++ ['*', '/']) := by
  induction text with
  | nil => rfl
  | cons c text ih =>
    have htail : ¬ ['*', '/'] <:+: text := fun hi => h (hi.trans (List.suffix_cons c text).isInfix)
    have hopen : ∀ cs, c :: (text ++ '*' :: '/' :: rest) ≠ '*' :: '/' :: cs := by
      rintro cs heq
      cases text with
      | nil => cases heq
      | cons d text =>
        cases heq
        exact h ⟨[], text, rfl⟩
    rw [List.cons_append, blockCommentTail.eq_def]
    split
    · next heq => exact absurd heq (hopen _)
    · next heq =>
      cases heq
      rw [ih htail]
      rfl
    · next heq => cases heq

theorem Filler.pastTrivia_append (f : Filler) (cs : List Char) :
    pastTrivia (f.text ++ cs) = pastTrivia cs := by
  cases f with
  | blank c isBlank => exact pastTrivia_of_isSpace isBlank cs
  | blockComment text unclosed =>
    have hbody := blockCommentTail_append unclosed cs
    have htext : (Filler.blockComment text unclosed).text ++ cs =
        '/' :: '*' :: (text ++ '*' :: '/' :: cs) := by simp [Filler.text]
    have hskip : pastTrivia ('/' :: '*' :: (text ++ '*' :: '/' :: cs)) =
        pastTrivia ((text ++ '*' :: '/' :: cs).drop (text ++ ['*', '/']).length) :=
      pastTrivia_of_trivia_append (by rw [trivia, hbody])
    have happend : text ++ '*' :: '/' :: cs = (text ++ ['*', '/']) ++ cs := by simp
    rw [htext, hskip, happend, List.drop_left]
  | lineComment text unbroken stop isStop =>
    have hbody : (text ++ stop :: cs).takeWhile (fun c => !endsLine c) = text :=
      takeWhile_append_of_ends (fun c hc => by rw [unbroken c hc]; rfl) (by
        rw [ends_cons, isStop]
        rfl)
    have htext : (Filler.lineComment text unbroken stop isStop).text ++ cs =
        '/' :: '/' :: (text ++ stop :: cs) := by simp [Filler.text]
    have hskip : pastTrivia ('/' :: '/' :: (text ++ stop :: cs)) =
        pastTrivia ((text ++ stop :: cs).drop text.length) :=
      pastTrivia_of_trivia_append (by rw [trivia, hbody])
    rw [htext, hskip, List.drop_left, pastTrivia_of_isSpace (isSpace_of_endsLine isStop)]

/-- A separator is skipped as a whole. -/
theorem Separator.pastTrivia_append (s : Separator) (cs : List Char) :
    pastTrivia (s.text ++ cs) = pastTrivia cs := by
  unfold Separator.text
  induction s.fillers with
  | nil => rfl
  | cons f rest ih => rw [List.flatMap_cons, List.append_assoc, f.pastTrivia_append, ih]

/-- Nothing is skipped in front of a character that is no blank and begins no comment. -/
theorem pastTrivia_of_not_comment {c : Char} {cs : List Char} (hc : isSpace c = false)
    (hline : ¬ (c = '/' ∧ cs.head? = some '/')) (hblock : ¬ (c = '/' ∧ cs.head? = some '*')) :
    pastTrivia (c :: cs) = c :: cs := by
  have hnone : trivia (c :: cs) = [] := by
    rw [trivia.eq_def]
    split <;> simp_all
  rw [pastTrivia, hnone]
  rfl

end Trivia

/-- Two texts have the same characters up to what is skipped where both have a blank. -/
inductive Aligned : List Char → List Char → Prop
  | nil : Aligned [] []
  | solid {c : Char} {cs cs' : List Char} (notBlank : isSpace c = false)
      (first : pastTrivia (c :: cs) = c :: cs) (second : pastTrivia (c :: cs') = c :: cs')
      (behind : Aligned cs cs') : Aligned (c :: cs) (c :: cs')
  | gap {cs cs' : List Char} (first : Starts isSpace cs) (second : Starts isSpace cs')
      (behind : Aligned (pastTrivia cs) (pastTrivia cs')) : Aligned cs cs'

namespace Aligned

variable {cs cs' : List Char}

/-- Aligned texts are aligned behind the trivia at their starts. -/
theorem pastTrivia (h : Aligned cs cs') :
    Aligned (Grammar.pastTrivia cs) (Grammar.pastTrivia cs') := by
  cases h with
  | nil =>
    rw [pastTrivia_nil]
    exact nil
  | solid notBlank first second behind =>
    rw [first, second]
    exact solid notBlank first second behind
  | gap _ _ behind => exact behind

/-- Aligned texts agree up to the first blank. -/
theorem exists_append (h : Aligned cs cs') :
    ∃ u t t', cs = u ++ t ∧ cs' = u ++ t' ∧ (∀ c ∈ u, isSpace c = false) ∧
      Scanner.Breaks isSpace t ∧ Scanner.Breaks isSpace t' ∧
      ∀ w, w <+: u → Aligned (cs.drop w.length) (cs'.drop w.length) := by
  induction h with
  | nil =>
    refine ⟨[], [], [], rfl, rfl, nofun, rfl, rfl, fun w hw => ?_⟩
    rw [List.prefix_nil.1 hw]
    exact nil
  | @solid c cs cs' notBlank first second behind ih =>
    obtain ⟨u, t, t', rfl, rfl, hu, ht, ht', hdrop⟩ := ih
    refine ⟨c :: u, t, t', rfl, rfl, List.forall_mem_cons.2 ⟨notBlank, hu⟩, ht, ht', fun w hw => ?_⟩
    cases w with
    | nil => exact solid notBlank first second behind
    | cons d w => exact hdrop w (List.cons_prefix_cons.1 hw).2
  | @gap cs cs' first second behind _ =>
    refine ⟨[], cs, cs', rfl, rfl, nofun, Scanner.breaks_of_starts first,
      Scanner.breaks_of_starts second, fun w hw => ?_⟩
    rw [List.prefix_nil.1 hw]
    exact gap first second behind

/-- A scanner that stops at blanks finds the same lexeme in aligned texts, and the texts behind it are
aligned. -/
theorem scan (h : Aligned cs cs') {s : Scanner} (hs : Scanner.StopsAt isSpace s) :
    s cs = s cs' ∧ ∀ w, s cs = some w →
      w <+: cs ∧ w <+: cs' ∧ Aligned (cs.drop w.length) (cs'.drop w.length) := by
  obtain ⟨u, t, t', rfl, rfl, hu, ht, ht', hdrop⟩ := h.exists_append
  obtain ⟨heq, hpre⟩ := hs u t t' hu ht ht'
  refine ⟨heq, fun w hw => ?_⟩
  have hw := hpre w hw
  exact ⟨hw.trans (List.prefix_append u t), hw.trans (List.prefix_append u t'), hdrop w hw⟩

theorem eq_nil_iff (h : Aligned cs cs') : cs = [] ↔ cs' = [] := by
  cases h with
  | nil => exact Iff.rfl
  | solid => exact iff_of_false (List.cons_ne_nil _ _) (List.cons_ne_nil _ _)
  | gap first second => exact iff_of_false first.ne_nil second.ne_nil

end Aligned

/-- The same chunk in front of aligned texts. -/
theorem aligned_append {w t t' : List Char} (hw : ∀ c ∈ w, isSpace c = false)
    (hline : ¬ ['/', '/'] <:+: w) (hblock : ¬ ['/', '*'] <:+: w) (ht : Scanner.Breaks isSpace t)
    (ht' : Scanner.Breaks isSpace t') (h : Aligned t t') : Aligned (w ++ t) (w ++ t') := by
  induction w with
  | nil => exact h
  | cons c w ih =>
    obtain ⟨hc, hrest⟩ := List.forall_mem_cons.1 hw
    have hinner {k : List Char} (hk : ¬ k <:+: c :: w) : ¬ k <:+: w := fun hi =>
      hk (hi.trans (List.suffix_cons c w).isInfix)
    have hnext {d : Char} {x : List Char} (hx : Scanner.Breaks isSpace x) (hd : isSpace d = false)
        (hk : ¬ ['/', d] <:+: c :: w) : ¬ (c = '/' ∧ (w ++ x).head? = some d) := by
      rintro ⟨rfl, hhead⟩
      cases w with
      | nil =>
        obtain ⟨y, rfl⟩ := List.head?_eq_some_iff.1 hhead
        rw [Scanner.Breaks.eq_true hx] at hd
        cases hd
      | cons e w =>
        cases hhead
        exact hk ⟨[], w, rfl⟩
    refine .solid hc ?_ ?_ (ih hrest (hinner hline) (hinner hblock))
    · exact pastTrivia_of_not_comment hc (hnext ht rfl hline) (hnext ht rfl hblock)
    · exact pastTrivia_of_not_comment hc (hnext ht' rfl hline) (hnext ht' rfl hblock)

/-- Two layouts of the same chunks are aligned. -/
theorem aligned_layOut (gaps gaps' : Nat → Separator) (chunks : List Chunk) :
    Aligned (layOut gaps chunks) (layOut gaps' chunks) := by
  induction chunks generalizing gaps gaps' with
  | nil => exact .nil
  | cons c rest ih =>
    cases rest with
    | nil =>
      have hend : Scanner.Breaks isSpace [] := rfl
      have h := aligned_append c.solid c.noLineComment c.noBlockComment hend hend .nil
      rw [List.append_nil] at h
      exact h
    | cons d rest =>
      have hstarts (s : Separator) (cs : List Char) : Starts isSpace (s.text ++ cs) :=
        s.starts.append cs
      refine aligned_append c.solid c.noLineComment c.noBlockComment
        (Scanner.breaks_of_starts (hstarts _ _)) (Scanner.breaks_of_starts (hstarts _ _)) ?_
      refine .gap (hstarts _ _) (hstarts _ _) ?_
      rw [Separator.pastTrivia_append, Separator.pastTrivia_append]
      exact (ih _ _).pastTrivia

end GalecAudit.Grammar
