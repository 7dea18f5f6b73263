import GalecAudit.Grammar.Cursor
import GalecAudit.Proofs.Grammar.Word

/-!
# Skipping trivia

What remains of a text behind the blanks and comments at its start.
-/
namespace GalecAudit.Grammar

/-- The text behind the blanks and comments at its start. -/
def pastTrivia (cs : List Char) : List Char := cs.drop (trivia cs).length

theorem Cursor.rest_skip (c : Cursor) : c.skip.rest = pastTrivia c.rest := rfl

/-- A character that begins no trivia. -/
def isSolid (c : Char) : Bool := !isSpace c && c != '/'

theorem pastTrivia_nil : pastTrivia [] = [] := by rw [pastTrivia, trivia, List.drop_nil]

theorem pastTrivia_of_isSpace {c : Char} (h : isSpace c = true) (cs : List Char) :
    pastTrivia (c :: cs) = pastTrivia cs := by
  have hslash : c ≠ '/' := by
    rintro rfl
    exact absurd h (by decide)
  rw [pastTrivia, pastTrivia, trivia.eq_def]
  split <;> simp_all

theorem pastTrivia_space (cs : List Char) : pastTrivia (' ' :: cs) = pastTrivia cs :=
  pastTrivia_of_isSpace rfl cs

theorem pastTrivia_of_isSolid {c : Char} (h : isSolid c = true) (cs : List Char) :
    pastTrivia (c :: cs) = c :: cs := by
  rw [isSolid, Bool.and_eq_true, Bool.not_eq_true', bne_iff_ne] at h
  rw [pastTrivia, trivia.eq_def]
  split <;> simp_all

theorem ends_pastTrivia {p : Char → Bool} {c : Char} (h : isSolid c = true) (hp : p c = false)
    (cs : List Char) : Ends p (pastTrivia (c :: cs)) := by
  rw [pastTrivia_of_isSolid h]
  exact hp

theorem pastTrivia_of_ends {cs : List Char} (h : Ends (fun c => !isSolid c) cs) :
    pastTrivia cs = cs := by
  cases cs with
  | nil => exact pastTrivia_nil
  | cons c cs => exact pastTrivia_of_isSolid (Bool.not_eq_false' .. ▸ ends_cons.1 h) cs

/-- A slash before a blank begins no comment. -/
theorem pastTrivia_slash_space (cs : List Char) :
    pastTrivia ('/' :: ' ' :: cs) = '/' :: ' ' :: cs := by
  rw [pastTrivia, trivia.eq_def]
  simp [isSpace]

/-- A comment at the start is skipped together with the trivia behind it. -/
theorem pastTrivia_of_trivia_append {a b : Char} {rest body : List Char}
    (h : trivia (a :: b :: rest) = a :: b :: body ++ trivia (rest.drop body.length)) :
    pastTrivia (a :: b :: rest) = pastTrivia (rest.drop body.length) := by
  rw [pastTrivia, h, List.cons_append, List.cons_append, List.length_cons, List.length_cons,
    List.drop_succ_cons, List.drop_succ_cons, List.length_append, ← List.drop_drop]
  rfl

/-- Behind trivia stands no more trivia. -/
theorem pastTrivia_pastTrivia (cs : List Char) : pastTrivia (pastTrivia cs) = pastTrivia cs := by
  have hnone {cs : List Char} (h : trivia cs = []) : pastTrivia cs = cs := by
    rw [pastTrivia, h]
    rfl
  fun_induction trivia cs with
  | case1 rest body ih =>
    have h : pastTrivia ('/' :: '/' :: rest) = pastTrivia (rest.drop body.length) :=
      pastTrivia_of_trivia_append (by rw [trivia])
    rw [h, ih]
  | case2 rest body hbody ih =>
    have h : pastTrivia ('/' :: '*' :: rest) = pastTrivia (rest.drop body.length) :=
      pastTrivia_of_trivia_append (by rw [trivia, hbody])
    rw [h, ih]
  | case3 rest hbody =>
    have h : trivia ('/' :: '*' :: rest) = [] := by
      rw [trivia.eq_def]
      simp only [hbody]
    rw [hnone h, hnone h]
  | case4 c rest hline hblock hc ih => rw [pastTrivia_of_isSpace hc, ih]
  | case5 c rest hline hblock hc =>
    have h : trivia (c :: rest) = [] := by
      rw [trivia.eq_def]
      split <;> simp_all
    rw [hnone h, hnone h]
  | case6 => rw [pastTrivia_nil, pastTrivia_nil]

theorem trivia_pastTrivia (cs : List Char) : trivia (pastTrivia cs) = [] := by
  have hlen := congrArg List.length (pastTrivia_pastTrivia cs)
  generalize pastTrivia cs = rest at hlen
  rw [pastTrivia, List.length_drop] at hlen
  cases rest with
  | nil => rw [trivia]
  | cons c rest =>
    rw [List.length_cons] at hlen
    exact List.eq_nil_of_length_eq_zero (by omega)

theorem length_pastTrivia_le (cs : List Char) : (pastTrivia cs).length ≤ cs.length := by
  rw [pastTrivia, List.length_drop]
  omega

namespace Cursor

theorem advance_advance (c : Cursor) (u v : List Char) : (c.advance u).advance v = c.advance (u ++ v) := by
  simp only [advance, List.drop_drop, List.length_append, List.count_append, Nat.add_assoc]

theorem skip_of_trivia {c : Cursor} (h : trivia c.rest = []) : c.skip = c := by
  rw [skip, h]
  rfl

theorem skip_of_pastTrivia {c : Cursor} (h : pastTrivia c.rest = c.rest) : c.skip = c :=
  skip_of_trivia (h ▸ trivia_pastTrivia c.rest)

theorem skip_skip (c : Cursor) : c.skip.skip = c.skip :=
  skip_of_pastTrivia (pastTrivia_pastTrivia c.rest)

end Cursor

end GalecAudit.Grammar
