import GalecAudit.Proofs.Language.Mention

/-!
# Relabelled expressions

Expressions that differ only in the labels of their nodes: in the lines, and in what a reference keeps
besides its name. They have the same text.
-/
namespace GalecAudit

namespace Reference

mutual

/-- The reference without line numbers. -/
def unlined : Reference → Reference
  | ⟨name, isState, _, indices⟩ => ⟨name, isState, 0, unlinedAll indices⟩

def unlinedAll : List Reference → List Reference
  | [] => []
  | r :: rest => r.unlined :: unlinedAll rest

end

mutual

/-- The reference without line numbers and state flags. -/
def bare : Reference → Reference
  | ⟨name, _, _, indices⟩ => ⟨name, false, 0, bareAll indices⟩

def bareAll : List Reference → List Reference
  | [] => []
  | r :: rest => r.bare :: bareAll rest

end

/-- The reference as far as its text shows it. -/
def shown (r : Reference) : Reference := { r with isState := false, indexReferences := [] }

theorem name_unlined (r : Reference) : r.unlined.name = r.name := by
  cases r
  rfl

end Reference

namespace Expression

mutual

/-- The expression with other references and lines. -/
def relabel (f : Reference → Reference) (g : Nat → Nat) : Expression → Expression
  | constant type text line => .constant type text (g line)
  | reference r => .reference (f r)
  | binary left op right line => .binary (left.relabel f g) op (right.relabel f g) (g line)
  | unary op operand line => .unary op (operand.relabel f g) (g line)
  | conditional condition value elseIfs otherwise line =>
    .conditional (condition.relabel f g) (value.relabel f g) (relabelArms f g elseIfs)
      (otherwise.relabel f g) (g line)
  | call name args line => .call name (relabelAll f g args) (g line)
  | array elements line => .array (relabelAll f g elements) (g line)

def relabelAll (f : Reference → Reference) (g : Nat → Nat) : List Expression → List Expression
  | [] => []
  | e :: rest => e.relabel f g :: relabelAll f g rest

def relabelArms (f : Reference → Reference) (g : Nat → Nat) :
    List (Expression × Expression) → List (Expression × Expression)
  | [] => []
  | (condition, value) :: rest => (condition.relabel f g, value.relabel f g) :: relabelArms f g rest

end

/-- The expression without line numbers. -/
def unlined (e : Expression) : Expression := e.relabel Reference.unlined fun _ => 0

/-- The expression without line numbers and state flags. -/
def bare (e : Expression) : Expression := e.relabel Reference.bare fun _ => 0

/-- The expression as far as its text shows it: the references have no state flag and no variables of
subscripts. -/
def shown (e : Expression) : Expression := e.relabel Reference.shown id

section Relabel

variable {f : Reference → Reference} {g : Nat → Nat}

theorem relabelAll_eq_map (es : List Expression) : relabelAll f g es = es.map (relabel f g) := by
  induction es with
  | nil => rfl
  | cons e rest ih => rw [relabelAll, List.map_cons, ih]

theorem relabelArms_eq_map (arms : List (Expression × Expression)) :
    relabelArms f g arms = arms.map fun arm => (arm.1.relabel f g, arm.2.relabel f g) := by
  induction arms with
  | nil => rfl
  | cons arm rest ih => rw [relabelArms, List.map_cons, ih]

theorem listTexts_eq_map (es : List Expression) : listTexts es = es.map text := by
  induction es with
  | nil => rfl
  | cons e rest ih => rw [listTexts, List.map_cons, ih]

theorem isBinary_relabel (e : Expression) : (e.relabel f g).isBinary = e.isBinary := by
  cases e <;> rfl

theorem shown_call (name : String) (args : List Expression) (line : Nat) :
    (call name args line).shown = .call name (args.map shown) line := by
  rw [shown, relabel, relabelAll_eq_map]
  rfl

theorem shown_array (elements : List Expression) (line : Nat) :
    (array elements line).shown = .array (elements.map shown) line := by
  rw [shown, relabel, relabelAll_eq_map]
  rfl

theorem shown_conditional (condition value otherwise : Expression)
    (elseIfs : List (Expression × Expression)) (line : Nat) :
    (conditional condition value elseIfs otherwise line).shown =
      .conditional condition.shown value.shown (elseIfs.map fun arm => (arm.1.shown, arm.2.shown))
        otherwise.shown line := by
  rw [shown, relabel, relabelArms_eq_map]
  rfl

theorem listTexts_relabel {es : List Expression} (h : ∀ e ∈ es, (e.relabel f g).text = e.text) :
    listTexts (relabelAll f g es) = listTexts es := by
  rw [listTexts_eq_map, listTexts_eq_map, relabelAll_eq_map, List.map_map]
  exact List.map_congr_left h

theorem armText_relabel {arms : List (Expression × Expression)}
    (h : ∀ arm ∈ arms, (arm.1.relabel f g).text = arm.1.text ∧ (arm.2.relabel f g).text = arm.2.text) :
    armText (relabelArms f g arms) = armText arms := by
  induction arms with
  | nil => rfl
  | cons arm rest ih =>
    obtain ⟨⟨hc, hv⟩, hrest⟩ := List.forall_mem_cons.1 h
    rw [relabelArms, armText, armText, hc, hv, ih hrest]

/-- The text of an expression shows nothing of a reference but its name, and no lines. -/
theorem text_relabel (hf : ∀ r, (f r).name = r.name) (e : Expression) :
    (e.relabel f g).text = e.text := by
  induction e using Expression.induct with
  | constant => rfl
  | reference r => exact hf r
  | binary left op right line ihl ihr =>
    rw [relabel, text, text, isBinary_relabel, isBinary_relabel, ihl, ihr]
  | unary op operand line ih => rw [relabel, text, text, isBinary_relabel, ih]
  | conditional condition value elseIfs otherwise line ihc ihv iha iho =>
    rw [relabel, text, text, ihc, ihv, iho, armText_relabel iha]
  | call name args line ih => rw [relabel, text, text, listTexts_relabel ih]
  | array elements line ih => rw [relabel, text, text, listTexts_relabel ih]

end Relabel

theorem text_unlined (e : Expression) : e.unlined.text = e.text := text_relabel Reference.name_unlined e

theorem text_shown (e : Expression) : e.shown.text = e.text :=
  text_relabel (f := Reference.shown) (fun _ => rfl) e

end Expression
end GalecAudit
