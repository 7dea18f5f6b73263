import GalecAudit.Grammar.SyntaxError
import GalecAudit.Proofs.Grammar.Range
import GalecAudit.Proofs.Grammar.Yield
import GalecAudit.Source.Read

/-!
# Recorded ranges

The bounds that are recorded of a declaration are those of its range specification in the text, the last one
of each kind. Of the gap between a sign and its literal the blanks are dropped and the comments stay. So
what is recorded is the number itself exactly where no comment stands in the gap.
-/
namespace GalecAudit

open Grammar Grammar.Parser

namespace Source

def Record.declarations (r : Record) : List Declaration := r.fields.map Prod.snd

def Routine.declarations (r : Routine) : List Declaration := r.parameters.map Prod.snd ++ r.locals

def ProtectedItem.declarations : ProtectedItem → List Declaration
  | .record r => r.declarations
  | .signals _ => []
  | .routine r => r.declarations
  | .variable _ d => [d]

/-- All declarations of a block, at any place where one may stand. -/
def Block.declarations (b : Block) : List Declaration :=
  b.entities.map Prod.snd ++ b.protectedItems.flatMap ProtectedItem.declarations ++
    b.publicRoutines.flatMap Routine.declarations

section Blocks

variable {start : Cursor}

/-- A declaration behind a word that it may have in front of it. -/
theorem readsIn_directed {α : Type} {p : Parser α} (h : Moves p) :
    ReadsIn start (Prod.mk <$> p <*> declaration) fun q => q.2.IsWrittenIn start :=
  ReadsIn.seq (h.readsIn.map fun _ _ _ hd => hd) readsIn_declaration

theorem readsIn_protectedVariable :
    ReadsIn start protectedVariable fun q => q.2.IsWrittenIn start :=
  (readsIn_directed (moves_symbol (by simp)).optional).rule _

theorem moves_endName : Moves endName := (moves_name.map _).located

theorem readsIn_recordDeclaration :
    ReadsIn start recordDeclaration fun r => ∀ d ∈ r.declarations, d.IsWrittenIn start := by
  refine (ReadsIn.seqLeft (ReadsIn.seq (ReadsIn.seqLeft (ReadsIn.seq (Moves.readsIn
    ((moves_reserved _ _).seqRight moves_name) |>.map ?_) readsIn_protectedVariable.many)
      (moves_reserved _ _)) moves_endName.readsIn) (moves_literal _)).located.rule _
  intro _ _ fields hfields _ _ line
  exact List.forall_mem_map.2 hfields

theorem readsIn_routineDeclaration :
    ReadsIn start routineDeclaration fun r => ∀ d ∈ r.declarations, d.IsWrittenIn start := by
  have hinterface : Moves signalInterface :=
    (((moves_reserved _ _).seqRight (moves_ident.separated (moves_literal _))).seqLeft
      (moves_literal _)).rule _
  have hlocals : ReadsIn start ((·.getD []) <$> optional localSection)
      fun ds => ∀ d ∈ ds, d.IsWrittenIn start := by
    refine ((ReadsIn.seqRight (moves_reserved _ _) readsIn_declaration.many).rule
      .localSection).optional.map fun o ho => ?_
    cases o with
    | none => nofun
    | some ds => exact ho ds rfl
  refine (ReadsIn.seqLeft (ReadsIn.seq (ReadsIn.seqLeft (ReadsIn.seq (ReadsIn.seqLeft (ReadsIn.seq
    (ReadsIn.seq (ReadsIn.seq (ReadsIn.seq ((moves_symbol (by simp)).readsIn.map ?_) moves_name.readsIn)
      (hinterface.optional.map _).readsIn) ((readsIn_directed (moves_symbol (by simp))).rule _).many) hlocals)
        (moves_reserved _ _)) moves_statement.many.readsIn) (moves_reserved _ _))
          moves_endName.readsIn) (moves_literal _)).located.rule _
  intro _ _ _ _ _ _ parameters hparameters locals hlocals _ _ _ _ line
  exact List.forall_mem_append.2 ⟨List.forall_mem_map.2 hparameters, hlocals⟩

theorem readsIn_protectedItem :
    ReadsIn start protectedItem fun i => ∀ d ∈ i.declarations, d.IsWrittenIn start := by
  have hsignals : Moves signalDeclaration :=
    (((moves_reserved _ _).seqRight ((moves_ident.map _).located.separated (moves_literal _))).seqLeft
      (moves_literal _)).rule _
  refine (readsIn_recordDeclaration.map fun _ h => h).orElse ((hsignals.readsIn.map ?_).orElse
    ((readsIn_routineDeclaration.map fun _ h => h).orElse (readsIn_protectedVariable.map ?_)))
  · nofun
  · rintro ⟨_, d⟩ hd _ hmem
    rwa [List.mem_singleton.1 hmem]

theorem readsIn_block :
    ReadsIn start block fun b => ∀ d ∈ b.declarations, d.IsWrittenIn start := by
  refine (ReadsIn.seqLeft (ReadsIn.seq (ReadsIn.seqLeft (ReadsIn.seq (ReadsIn.seqLeft (ReadsIn.seq
    (ReadsIn.seqLeft (ReadsIn.seq (Moves.readsIn ((moves_reserved _ _).seqRight moves_name) |>.map ?_)
      ((readsIn_directed (moves_symbol (by simp))).rule _).many) (moves_reserved _ _)) (readsIn_protectedItem.many.rule _))
        (moves_reserved _ _)) (readsIn_routineDeclaration.many.rule _)) (moves_reserved _ _))
          moves_endName.readsIn) (moves_literal _)).located.rule _
  intro _ _ entities hentities items hitems routines hroutines _ _ line
  refine List.forall_mem_append.2 ⟨List.forall_mem_append.2 ⟨List.forall_mem_map.2 hentities, ?_⟩, ?_⟩
  · exact List.forall_mem_flatMap.2 hitems
  · exact List.forall_mem_flatMap.2 hroutines

/-- Every declaration of a block that is a whole text is written in the text. -/
theorem isWrittenIn_of_run {source : String} {tree : Block} (h : algorithmCode.run source = .ok tree) :
    ∀ d ∈ tree.declarations, d.IsWrittenIn (Cursor.start source) := by
  obtain ⟨last, hlast⟩ := parse_of_run h
  obtain ⟨next, hnext, -⟩ := exists_of_parse_whole hlast
  exact (readsIn_block _ tree next (Cursor.trivia_skip _) (Cursor.reaches_refl _).skip hnext).2

end Blocks

section Recording

open Text (isBlank squeeze)

theorem isBlank_of_isSpace {c : Char} (h : isSpace c = true) : isBlank c = true := by
  simp only [isSpace, Bool.or_eq_true, beq_iff_eq] at h
  rcases h with (((rfl | rfl) | rfl) | rfl) | rfl <;> decide

theorem isBlank_of_isDigit {c : Char} (h : c.isDigit = true) : isBlank c = false := by
  simp only [Char.isDigit, Bool.and_eq_true, decide_eq_true_eq] at h
  have hlow : 48 ≤ c.toNat := h.1
  have hhigh : c.toNat ≤ 57 := h.2
  simp only [isBlank, Text.blankRanges, List.any_cons, List.any_nil, Bool.or_false, Bool.or_eq_false_iff,
    decide_eq_false_iff_not]
  omega

theorem isBlank_of_isExponent {w : List Char} (h : IsExponent w) : ∀ c ∈ w, isBlank c = false := by
  cases h with
  | unsigned he hw =>
    refine List.forall_mem_cons.2 ⟨?_, fun c hc => isBlank_of_isDigit (hw.2 c hc)⟩
    rcases he with rfl | rfl <;> decide
  | signed he hsign hw =>
    refine List.forall_mem_cons.2 ⟨?_, List.forall_mem_cons.2 ⟨?_, fun c hc =>
      isBlank_of_isDigit (hw.2 c hc)⟩⟩
    · rcases he with rfl | rfl <;> decide
    · rcases hsign with rfl | rfl <;> decide

theorem isBlank_of_isReal {w : List Char} (h : IsReal w) : ∀ c ∈ w, isBlank c = false := by
  have hpoint : isBlank '.' = false := by decide
  have hdigits {w : List Char} (hw : ∀ c ∈ w, c.isDigit = true) : ∀ c ∈ w, isBlank c = false :=
    fun c hc => isBlank_of_isDigit (hw c hc)
  cases h with
  | point hwhole hfraction =>
    exact List.forall_mem_append.2 ⟨hdigits hwhole.2, List.forall_mem_cons.2
      ⟨hpoint, hdigits hfraction⟩⟩
  | pointExponent hwhole hfraction hexponent =>
    exact List.forall_mem_append.2 ⟨hdigits hwhole.2, List.forall_mem_cons.2
      ⟨hpoint, List.forall_mem_append.2 ⟨hdigits hfraction, isBlank_of_isExponent hexponent⟩⟩⟩
  | exponent hwhole hexponent =>
    exact List.forall_mem_append.2 ⟨hdigits hwhole.2, isBlank_of_isExponent hexponent⟩

/-- A number without the blanks behind its sign. -/
def SignedNumber.squeezed (n : SignedNumber) : List Char :=
  n.sign ++ (n.gap.filter (fun c => !isBlank c) ++ n.literal)

theorem SignedNumber.IsProper.squeeze_text {n : SignedNumber} (hn : n.IsProper) :
    squeeze (String.ofList n.text) = String.ofList n.squeezed := by
  have hliteral : ∀ c ∈ n.literal, (!isBlank c) = true := by
    intro c hc
    rw [Bool.not_eq_true']
    rcases hn.literal with h | h
    · exact isBlank_of_isReal h c hc
    · exact isBlank_of_isDigit (h.2 c hc)
  have hsign : ∀ c ∈ n.sign, (!isBlank c) = true := by
    unfold sign
    split
    · exact List.forall_mem_singleton.2 rfl
    · nofun
  rw [squeeze, String.toList_ofList, text, List.filter_append, List.filter_append,
    List.filter_eq_self.2 hsign, List.filter_eq_self.2 hliteral]
  rfl

/-- Without its blanks a number is clean exactly if no comment stands behind its sign. -/
theorem SignedNumber.IsProper.squeezed_eq_clean_iff {n : SignedNumber} (hn : n.IsProper) :
    n.squeezed = n.clean ↔ '/' ∉ n.gap := by
  have hslash : isBlank '/' = false := by decide
  rw [squeezed, clean, List.append_cancel_left_eq, List.append_left_eq_self, List.filter_eq_nil_iff]
  constructor
  · intro h hmem
    exact h '/' hmem (by rw [hslash]; rfl)
  · intro h c hc
    rw [isBlank_of_isSpace (hn.gap.isSpace h c hc)]
    decide

/-- The last of the bounds of a kind. -/
def lastOfKind (kind : Bound) (bs : List WrittenBound) : Option WrittenBound :=
  (bs.filter fun b => b.kind == kind).getLast?

/-- What is recorded of bounds. -/
def recordedRange (bs : List WrittenBound) : ValueRange :=
  let recorded (b : WrittenBound) : String := String.ofList b.number.squeezed
  { min := (lastOfKind .min bs).map recorded, max := (lastOfKind .max bs).map recorded }

theorem lastOfKind_eq_find? (kind : Bound) (bs : List WrittenBound) :
    lastOfKind kind bs = bs.reverse.find? fun b => b.kind == kind := by
  rw [lastOfKind, List.getLast?_eq_head?_reverse, ← List.filter_reverse, List.head?_filter]

theorem flattenRange_read {bs : List WrittenBound} (h : ∀ b ∈ bs, b.IsProper) :
    flattenRange (bs.map WrittenBound.read) = recordedRange bs := by
  have hlast (kind : Bound) :
      ((bs.map WrittenBound.read).reverse.find? fun bound => bound.1 == kind).map
          (fun bound => squeeze bound.2) =
        (lastOfKind kind bs).map fun b => String.ofList b.number.squeezed := by
    rw [lastOfKind_eq_find?, ← List.map_reverse, List.find?_map, Option.map_map]
    refine Option.map_congr fun b hb => ?_
    exact (h b (List.mem_reverse.1 (List.mem_of_find?_eq_some hb))).number.squeeze_text
  exact congrArg₂ ValueRange.mk (hlast .min) (hlast .max)

/-- What is recorded of the range specification of a declaration are the bounds with which it is written on
its line of the text, the last one of each kind. A recorded number is the sign immediately followed by the literal
exactly if no comment stands between them, whatever blanks and comments stand elsewhere. -/
theorem Block.recordedRange_exact {source : String} {tree : Block} {d : Declaration}
    {qs : List (Bound × String)} (h : algorithmCode.run source = .ok tree)
    (hd : d ∈ tree.declarations) (hqs : d.range = some qs) (causality : Causality) :
    ∃ front w behind, (Cursor.start source).rest = front ++ (w ++ behind) ∧
      d.line = 1 + front.count '\n' ∧ ∃ bs : List WrittenBound, (∀ b ∈ bs, b.IsProper) ∧
        bs.map WrittenBound.read = qs ∧ d.IsWrittenAs bs w ∧
        (d.flatten causality).range = some (recordedRange bs) ∧
        ∀ b ∈ bs, (b.number.squeezed = b.number.clean ↔ '/' ∉ b.number.gap) := by
  obtain ⟨front, w, behind, hsplit, hline, hspelled⟩ := isWrittenIn_of_run h d hd
  obtain ⟨bs, hproper, hread, hwritten⟩ := hspelled qs hqs
  refine ⟨front, w, behind, hsplit, hline, bs, hproper, hread, hwritten, ?_,
    fun b hb => (hproper b hb).number.squeezed_eq_clean_iff⟩
  subst hread
  rw [Declaration.flatten, hqs, Option.map_some, flattenRange_read hproper]

/-- A block with a comment between a sign and its literal. -/
def commentedSource : String := "block B
protected
  Real x(min = - /* c */ 1.0);
public
end B;"

theorem exists_declaration_commentedSource :
    ∃ tree d, algorithmCode.run commentedSource = .ok tree ∧ d ∈ tree.declarations ∧
      d.type = .primitive .real ∧ d.name = "x" ∧ d.range = some [(.min, "- /* c */ 1.0")] := by
  have hread : (algorithmCode.run commentedSource).toOption.any (fun tree =>
      tree.declarations.any fun d => decide (d.type = .primitive .real ∧ d.name = "x" ∧
        d.range = some [(.min, "- /* c */ 1.0")])) = true := by
    decide +kernel
  cases hrun : algorithmCode.run commentedSource with
  | error e =>
    rw [hrun] at hread
    cases hread
  | ok tree =>
    rw [hrun] at hread
    obtain ⟨d, hd, hview⟩ := List.any_eq_true.1 hread
    exact ⟨tree, d, rfl, hd, of_decide_eq_true hview⟩

theorem recordedRange_commentedSource :
    ∃ tree d, algorithmCode.run commentedSource = .ok tree ∧ d ∈ tree.declarations ∧
      d.range = some [(.min, "- /* c */ 1.0")] ∧
      ∃ front w behind, (Cursor.start commentedSource).rest = front ++ (w ++ behind) ∧
        d.line = 1 + front.count '\n' ∧ ∃ bs : List WrittenBound, (∀ b ∈ bs, b.IsProper) ∧
          bs.map WrittenBound.read = [(.min, "- /* c */ 1.0")] ∧ d.IsWrittenAs bs w ∧
          (d.flatten .state).range = some (recordedRange bs) ∧
          ∀ b ∈ bs, (b.number.squeezed = b.number.clean ↔ '/' ∉ b.number.gap) := by
  obtain ⟨tree, d, hrun, hd, -, -, hrange⟩ := exists_declaration_commentedSource
  exact ⟨tree, d, hrun, hd, hrange, Block.recordedRange_exact hrun hd hrange .state⟩

/-- The bound as it is written: the number is `-1.0`, with a comment behind its sign. -/
def commentedBound : WrittenBound :=
  ⟨.min, [' '], [' '], ⟨true, " /* c */ ".toList, "1.0".toList⟩⟩

/-- The declaration is written with a bound whose number is `-1.0`, and the comment is recorded with it. -/
theorem comment_in_range_of_commentedSource :
    ∃ tree d w, algorithmCode.run commentedSource = .ok tree ∧ d ∈ tree.declarations ∧
      w <:+: (Cursor.start commentedSource).rest ∧ commentedBound.IsProper ∧
      d.IsWrittenAs [commentedBound] w ∧ String.ofList commentedBound.number.clean = "-1.0" ∧
      (d.flatten .state).range = some ⟨some "-/*c*/1.0", none⟩ := by
  obtain ⟨tree, d, hrun, hd, htype, hname, hrange⟩ := exists_declaration_commentedSource
  have hgap {g : List Char} (h : trivia g = g) : IsGap g := h ▸ isGap_trivia g
  have hspace : IsGap [' '] := hgap (by decide +kernel)
  have hone : IsDigits ['1'] := ⟨nofun, List.forall_mem_singleton.2 rfl⟩
  have hzero : ∀ c ∈ ['0'], c.isDigit = true := List.forall_mem_singleton.2 rfl
  have hliteral : IsReal "1.0".toList := .point hone hzero
  have hproper : commentedBound.IsProper :=
    ⟨hspace, hspace, .inl hliteral, hgap (by decide +kernel), nofun⟩
  have hrecorded : flattenRange [(.min, "- /* c */ 1.0")] = ⟨some "-/*c*/1.0", none⟩ := by
    decide +kernel
  have hwritten : d.IsWrittenAs [commentedBound] "Real x(min = - /* c */ 1.0);".toList := by
    refine ⟨[' '], [], "(min = - /* c */ 1.0)".toList, [], hspace, fun _ => .nil,
      ⟨[], _, [], .nil, .nil, .last rfl .nil, ?_⟩, .nil, ?_⟩
    · decide +kernel
    · rw [htype, hname]
      decide +kernel
  refine ⟨tree, d, _, hrun, hd, ?_, hproper, hwritten, by decide +kernel, ?_⟩
  · exact ⟨"block B\nprotected\n  ".toList, "\npublic\nend B;".toList, by decide +kernel⟩
  · rw [Declaration.flatten, hrange, Option.map_some]
    exact congrArg some hrecorded

end Recording

end Source
end GalecAudit
