import GalecAudit.Proofs.Grammar.Literal

/-!
# Where scanners stop

A scanner that never reads a character of a class finds in a text what it finds in the part of the text
in front of the first such character. So the text from there on may be exchanged.
-/
namespace GalecAudit.Grammar.Scanner

/-- A text that ends here or goes on with a character of a class. -/
abbrev Breaks (p : Char → Bool) (t : List Char) : Prop := Ends (fun c => !p c) t

/-- The scanner never reads a character of a class, and the text from the first one on makes no
difference to it. -/
def StopsAt (p : Char → Bool) (s : Scanner) : Prop :=
  ∀ u t t', (∀ c ∈ u, p c = false) → Breaks p t → Breaks p t' →
    s (u ++ t) = s (u ++ t') ∧ ∀ w, s (u ++ t) = some w → w <+: u

variable {p q : Char → Bool} {s r : Scanner}

theorem breaks_cons {c : Char} (h : p c = true) (t : List Char) : Breaks p (c :: t) := by
  change (!p c) = false
  rw [h]
  rfl

theorem Breaks.eq_true {c : Char} {t : List Char} (h : Breaks p (c :: t)) : p c = true :=
  Bool.not_eq_false' .. ▸ ends_cons.1 h

theorem breaks_of_starts {t : List Char} (h : Starts p t) : Breaks p t := by
  cases t with
  | nil => rfl
  | cons c t => exact breaks_cons (h : p c = true) t

/-- A scanner that stops at the characters of a class stops at each part of the class. -/
theorem StopsAt.of_imp (h : StopsAt p s) (hqp : ∀ c, q c = true → p c = true) : StopsAt q s := by
  have hbreaks {t : List Char} (ht : Breaks q t) : Breaks p t := by
    cases t with
    | nil => rfl
    | cons c t => exact breaks_cons (hqp c ht.eq_true) t
  intro u t t' hu ht ht'
  by_cases hfree : ∀ c ∈ u, p c = false
  · exact h u t t' hfree (hbreaks ht) (hbreaks ht')
  -- the scanner stops inside the text already
  · have hsplit : u = u.takeWhile (fun c => !p c) ++ u.drop (u.takeWhile fun c => !p c).length :=
      (List.prefix_iff_eq_append.1 (List.takeWhile_prefix _)).symm
    have hfront : ∀ c ∈ u.takeWhile (fun c => !p c), p c = false := fun c hc =>
      Bool.not_eq_true' .. ▸ List.all_eq_true.1 List.all_takeWhile c hc
    have hbehind (x : List Char) :
        Breaks p (u.drop (u.takeWhile fun c => !p c).length ++ x) := by
      have hends := ends_drop_takeWhile (fun c => !p c) u
      cases hd : u.drop (u.takeWhile fun c => !p c).length with
      | nil =>
        rw [hd, List.append_nil] at hsplit
        exact absurd (hsplit ▸ hfront) hfree
      | cons c rest =>
        rw [hd] at hends
        exact hends
    have hstop := h (u.takeWhile fun c => !p c) _ _ hfront (hbehind t) (hbehind t')
    rw [← List.append_assoc, ← List.append_assoc, ← hsplit] at hstop
    exact ⟨hstop.1, fun w hw => (hstop.2 w hw).trans (List.takeWhile_prefix _)⟩

theorem takeWhile_append_of_breaks (hqp : ∀ c, p c = true → q c = false) {t : List Char}
    (ht : Breaks p t) (u : List Char) : (u ++ t).takeWhile q = u.takeWhile q := by
  induction u with
  | nil =>
    have hends : Ends q t := Ends.of_imp ht fun c hc => by
      cases hpc : p c with
      | true => rw [hqp c hpc] at hc; cases hc
      | false => rfl
    exact takeWhile_append_of_ends (w := []) nofun hends
  | cons c u ih => rw [List.cons_append, List.takeWhile_cons, List.takeWhile_cons, ih]

theorem stopsAt_text {text : String} (h : text.toList.all (fun c => !p c) = true) :
    StopsAt p (Scanner.text text) := by
  intro u t t' hu ht ht'
  have hpre {t : List Char} (ht : Breaks p t) :
      text.toList.isPrefixOf (u ++ t) = true ↔ text.toList <+: u := by
    rw [List.isPrefixOf_iff_prefix]
    exact ⟨prefix_of_prefix_append (List.all_eq_true.1 h) ht,
      fun hp => hp.trans (List.prefix_append _ _)⟩
  by_cases hp : text.toList <+: u
  · rw [Scanner.text, Scanner.text, if_pos ((hpre ht).2 hp), if_pos ((hpre ht').2 hp)]
    exact ⟨rfl, fun w hw => Option.some.inj hw ▸ hp⟩
  · rw [Scanner.text, Scanner.text, if_neg (mt (hpre ht).1 hp), if_neg (mt (hpre ht').1 hp)]
    exact ⟨rfl, fun w hw => by cases hw⟩

theorem stopsAt_one (hqp : ∀ c, p c = true → q c = false) : StopsAt p (one q) := by
  have hnone {t : List Char} (ht : Breaks p t) : one q t = none := by
    cases t with
    | nil => rfl
    | cons c t => rw [one, hqp c ht.eq_true, if_neg (by decide)]
  intro u t t' hu ht ht'
  cases u with
  | nil =>
    rw [List.nil_append, List.nil_append, hnone ht, hnone ht']
    exact ⟨rfl, fun w hw => by cases hw⟩
  | cons c u =>
    rw [List.cons_append, List.cons_append, one, one]
    refine ⟨rfl, fun w hw => ?_⟩
    split at hw
    · cases hw
      exact List.prefix_append [c] u
    · cases hw

theorem stopsAt_span (hqp : ∀ c, p c = true → q c = false) : StopsAt p (span q) := by
  intro u t t' hu ht ht'
  rw [span, span, takeWhile_append_of_breaks hqp ht, takeWhile_append_of_breaks hqp ht']
  exact ⟨rfl, fun w hw => Option.some.inj hw ▸ List.takeWhile_prefix q⟩

theorem stopsAt_span1 (hqp : ∀ c, p c = true → q c = false) : StopsAt p (span1 q) := by
  intro u t t' hu ht ht'
  rw [span1, span1, takeWhile_append_of_breaks hqp ht, takeWhile_append_of_breaks hqp ht']
  refine ⟨rfl, fun w hw => ?_⟩
  split at hw
  · cases hw
  · cases hw
    exact List.takeWhile_prefix q

/-- What may not follow a lexeme is none of the characters at which the scanner stops. -/
theorem StopsAt.notBefore (hs : StopsAt p s) (hqp : ∀ c, p c = true → q c = false) :
    StopsAt p (s.notBefore q) := by
  intro u t t' hu ht ht'
  obtain ⟨heq, hpre⟩ := hs u t t' hu ht ht'
  have hends {t : List Char} (ht : Breaks p t) : t.head?.any q = false := by
    cases t with
    | nil => rfl
    | cons c t => exact hqp c ht.eq_true
  rw [Scanner.notBefore, Scanner.notBefore, ← heq]
  cases hw : s (u ++ t) with
  | none => exact ⟨rfl, fun w hw => by cases hw⟩
  | some w =>
    obtain ⟨v, rfl⟩ := hpre w hw
    have hnext : ((w ++ v ++ t).drop w.length).head?.any q =
        ((w ++ v ++ t').drop w.length).head?.any q := by
      rw [List.append_assoc, List.append_assoc, List.drop_left, List.drop_left]
      cases v with
      | nil => rw [List.nil_append, List.nil_append, hends ht, hends ht']
      | cons c v => rfl
    simp only [hnext, true_and]
    intro x hx
    split at hx
    · cases hx
    · cases hx
      exact List.prefix_append _ _

theorem StopsAt.andThen (hs : StopsAt p s) (hr : StopsAt p r) : StopsAt p (s.andThen r) := by
  intro u t t' hu ht ht'
  obtain ⟨heq, hpre⟩ := hs u t t' hu ht ht'
  rw [Scanner.andThen, Scanner.andThen, ← heq]
  cases hw : s (u ++ t) with
  | none => exact ⟨rfl, fun w hw => by cases hw⟩
  | some w =>
    obtain ⟨v, rfl⟩ := hpre w hw
    obtain ⟨hveq, hvpre⟩ := hr v t t' (fun c hc => hu c (List.mem_append_right w hc)) ht ht'
    simp only [List.append_assoc, List.drop_left, hveq, true_and]
    intro x hx
    obtain ⟨y, hy, rfl⟩ := Option.map_eq_some_iff.1 hx
    exact (List.prefix_append_right_inj w).2 (hvpre y (hveq.trans hy))

theorem StopsAt.orElse (hs : StopsAt p s) (hr : StopsAt p r) : StopsAt p (s.orElse r) := by
  intro u t t' hu ht ht'
  obtain ⟨heq, hpre⟩ := hs u t t' hu ht ht'
  rw [Scanner.orElse, Scanner.orElse, ← heq]
  cases hw : s (u ++ t) with
  | none => exact hr u t t' hu ht ht'
  | some w => exact ⟨rfl, fun x hx => hpre x (hw.trans hx)⟩

theorem StopsAt.optional (hs : StopsAt p s) : StopsAt p (optional s) := by
  intro u t t' hu ht ht'
  obtain ⟨heq, hpre⟩ := hs u t t' hu ht ht'
  rw [Scanner.optional, Scanner.optional, ← heq]
  refine ⟨rfl, fun w hw => ?_⟩
  cases hx : s (u ++ t) with
  | none =>
    rw [hx] at hw
    cases hw
    exact List.nil_prefix
  | some x =>
    rw [hx] at hw
    cases hw
    exact hpre x hx

/-- One step of a repetition of lexemes. -/
theorem many_eq (s : Scanner) (cs : List Char) :
    many s cs = match s cs with
      | some (c :: lexeme) =>
        if cs = [] then some []
        else (many s (cs.drop (c :: lexeme).length)).map (c :: lexeme ++ ·)
      | _ => some [] := by
  rw [many]
  cases s cs with
  | none => rfl
  | some w =>
    cases w with
    | nil => rfl
    | cons c lexeme => cases cs <;> simp

theorem StopsAt.many (hs : StopsAt p s) : StopsAt p (many s) := by
  intro u t t' hu ht ht'
  obtain ⟨heq, hpre⟩ := hs u t t' hu ht ht'
  induction hn : u.length using Nat.strongRecOn generalizing u with
  | ind n ih =>
    rw [many_eq s, many_eq s, ← heq]
    split
    · next c lexeme hw =>
      obtain ⟨v, rfl⟩ := hpre _ hw
      have hv : ∀ c ∈ v, p c = false := fun d hd => hu d (List.mem_append_right _ hd)
      obtain ⟨hveq, hvpre⟩ := hs v t t' hv ht ht'
      obtain ⟨hmeq, hmpre⟩ := ih v.length (by simp at hn; omega) v hv hveq hvpre rfl
      rw [if_neg (by simp), if_neg (by simp), List.append_assoc, List.append_assoc, List.drop_left,
        List.drop_left, hmeq]
      refine ⟨rfl, fun x hx => ?_⟩
      obtain ⟨y, hy, rfl⟩ := Option.map_eq_some_iff.1 hx
      exact (List.prefix_append_right_inj _).2 (hmpre y (hmeq.trans hy))
    · refine ⟨rfl, fun w hw => ?_⟩
      cases hw
      exact List.nil_prefix

theorem stopsAt_sequence {scanners : List Scanner} (h : ∀ s ∈ scanners, StopsAt p s) :
    StopsAt p (sequence scanners) := by
  induction scanners with
  | nil => exact fun u t t' _ _ _ => ⟨rfl, fun w hw => Option.some.inj hw ▸ List.nil_prefix⟩
  | cons s rest ih =>
    obtain ⟨hs, hrest⟩ := List.forall_mem_cons.1 h
    exact hs.andThen (ih hrest)

theorem stopsAt_firstOf {scanners : List Scanner} (h : ∀ s ∈ scanners, StopsAt p s) :
    StopsAt p (firstOf scanners) := by
  induction scanners with
  | nil => exact fun u t t' _ _ _ => ⟨rfl, nofun⟩
  | cons s rest ih =>
    obtain ⟨hs, hrest⟩ := List.forall_mem_cons.1 h
    exact hs.orElse (ih hrest)

end GalecAudit.Grammar.Scanner
