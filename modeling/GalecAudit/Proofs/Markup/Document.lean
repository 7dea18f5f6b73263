import GalecAudit.Proofs.Markup.Tree
import GalecAudit.Proofs.Markup.Written

/-!
# Written documents

A document is written as parts with text between them: elements with what stands inside them, comments and
the like. Its elements make nodes, each of which knows all that stands in the document before its tag.
-/
namespace GalecAudit.Markup

open Text (byteSize)

/-- A part of a document with the text before its opening bracket. An element is an empty tag or two tags
with what stands between them. -/
inductive Part where
  | aside (gap : List Char) (construct : Aside)
  | empty (gap : List Char) (tag : WrittenTag)
  | pair (gap : List Char) (tag : WrittenTag) (inside : List Part) (endGap endBlanks : List Char)

namespace Part

mutual
def text : Part → List Char
  | aside gap construct => gap ++ '<' :: (construct.content ++ ['>'])
  | empty gap tag => gap ++ '<' :: (tag.text ++ ['/', '>'])
  | pair gap tag inside endGap endBlanks =>
    gap ++ '<' :: (tag.text ++ '>' :: (textOfAll inside ++
      (endGap ++ '<' :: '/' :: (tag.name ++ (endBlanks ++ ['>'])))))

def textOfAll : List Part → List Char
  | [] => []
  | p :: ps => p.text ++ textOfAll ps
end

mutual
/-- Brackets stand where tags and constructs begin and end, and inside these as their forms allow. -/
def IsProper : Part → Prop
  | aside gap construct => '<' ∉ gap ∧ construct.IsProper
  | empty gap tag => '<' ∉ gap ∧ tag.IsProper
  | pair gap tag inside endGap endBlanks =>
    '<' ∉ gap ∧ tag.IsProper ∧ AreProper inside ∧ '<' ∉ endGap ∧ AreBlanks endBlanks

def AreProper : List Part → Prop
  | [] => True
  | p :: ps => p.IsProper ∧ AreProper ps
end

mutual
instance decidableIsProper : (p : Part) → Decidable p.IsProper
  | aside _ _ => inferInstanceAs (Decidable (_ ∧ _))
  | empty _ _ => inferInstanceAs (Decidable (_ ∧ _))
  | pair _ _ inside _ _ =>
    have := decidableAreProper inside
    inferInstanceAs (Decidable (_ ∧ _ ∧ AreProper inside ∧ _ ∧ _))

instance decidableAreProper : (ps : List Part) → Decidable (AreProper ps)
  | [] => .isTrue trivial
  | p :: ps =>
    have := decidableIsProper p
    have := decidableAreProper ps
    inferInstanceAs (Decidable (p.IsProper ∧ AreProper ps))
end

end Part

/-- An element of a document: all that stands before its tag, the tag, and the elements inside it. -/
inductive Node where
  | node (before : List Char) (tag : WrittenTag) (children : List Node)

namespace Node

def before : Node → List Char
  | node before .. => before

def tag : Node → WrittenTag
  | node _ tag _ => tag

def children : Node → List Node
  | node _ _ children => children

def name (n : Node) : String := localName n.tag.name

/-- The line of the opening bracket: one more than the number of line feeds before it. -/
def line (n : Node) : Nat := 1 + n.before.count '\n'

/-- The tag stands in a document behind all that is before it. -/
def StandsIn (n : Node) (document : List Char) : Prop := n.before ++ '<' :: n.tag.text <+: document

def attributes (n : Node) : SoundAttributes :=
  (Attributes.ofText n.tag.attributeText (byteSize n.tag.name)).sound

mutual
/-- The element with its attributes and its line, and those inside it. -/
def tree : Node → Tree
  | node before tag children =>
    .node (node before tag children).name (node before tag children).attributes
      (node before tag children).line (treesOf children)

def treesOf : List Node → List Tree
  | [] => []
  | n :: ns => n.tree :: treesOf ns
end

@[simp] theorem name_tree (n : Node) : n.tree.name = n.name := by cases n; rfl

@[simp] theorem line_tree (n : Node) : n.tree.line = n.line := by cases n; rfl

@[simp] theorem children_tree (n : Node) : n.tree.children = treesOf n.children := by cases n; rfl

theorem treesOf_eq_map (ns : List Node) : treesOf ns = ns.map tree := by
  induction ns with
  | nil => rfl
  | cons n ns ih => rw [treesOf, ih, List.map_cons]

mutual
/-- A node with all that are inside it, in the order of the document. -/
def all : Node → List Node
  | node before tag children => node before tag children :: allOf children

def allOf : List Node → List Node
  | [] => []
  | n :: ns => n.all ++ allOf ns
end

theorem allOf_append (ms ns : List Node) : allOf (ms ++ ns) = allOf ms ++ allOf ns := by
  induction ms with
  | nil => rfl
  | cons m ms ih => rw [List.cons_append, allOf, allOf, ih, List.append_assoc]

theorem self_mem_all (n : Node) : n ∈ n.all := by
  cases n
  exact List.mem_cons_self

theorem mem_allOf {m n : Node} {ns : List Node} (hn : n ∈ ns) (hm : m ∈ n.all) : m ∈ allOf ns := by
  induction ns with
  | nil => cases hn
  | cons k ns ih =>
    rw [allOf, List.mem_append]
    rcases List.mem_cons.1 hn with rfl | hn
    · exact .inl hm
    · exact .inr (ih hn)

theorem mem_all_of_child {m n child : Node} (hchild : child ∈ n.children) (hm : m ∈ child.all) :
    m ∈ n.all := by
  cases n
  exact List.mem_cons_of_mem _ (mem_allOf hchild hm)

end Node

namespace Part

mutual
/-- The nodes of a part that stands behind a text: one if it is an element. -/
def nodes (front : List Char) : Part → List Node
  | aside .. => []
  | empty gap tag => [.node (front ++ gap) tag []]
  | pair gap tag inside _ _ =>
    [.node (front ++ gap) tag (nodesOfAll (front ++ (gap ++ '<' :: (tag.text ++ ['>']))) inside)]

def nodesOfAll (front : List Char) : List Part → List Node
  | [] => []
  | p :: ps => p.nodes front ++ nodesOfAll (front ++ p.text) ps
end

end Part

/-- A source is written as proper parts, behind at most one mark of the byte order. -/
structure IsWritten (source : String) (parts : List Part) (trailing : List Char) : Prop where
  oneMark : ¬ ['\ufeff', '\ufeff'] <+: source.toList
  spelled : dropMark source.toList = Part.textOfAll parts ++ trailing
  proper : Part.AreProper parts
  plain : '<' ∉ trailing

namespace Part

mutual
/-- The tags of the nodes of a part stand where the part stands. -/
theorem standsIn_text (p : Part) (front rest : List Char) :
    ∀ n ∈ Node.allOf (p.nodes front), n.StandsIn (front ++ (p.text ++ rest)) := by
  cases p with
  | aside gap construct => nofun
  | empty gap tag =>
    intro n hn
    obtain rfl : n = .node (front ++ gap) tag [] := by simpa [nodes, Node.allOf, Node.all] using hn
    exact ⟨['/', '>'] ++ rest, by simp [Node.before, Node.tag, text]⟩
  | pair gap tag inside endGap endBlanks =>
    intro n hn
    let opened := front ++ (gap ++ '<' :: (tag.text ++ ['>']))
    let ending := endGap ++ '<' :: '/' :: (tag.name ++ (endBlanks ++ '>' :: rest))
    have hwhole : opened ++ (textOfAll inside ++ ending) =
        front ++ ((pair gap tag inside endGap endBlanks).text ++ rest) := by
      simp [opened, ending, text]
    have hcases : n = .node (front ++ gap) tag (nodesOfAll opened inside) ∨
        n ∈ Node.allOf (nodesOfAll opened inside) := by
      simpa [nodes, Node.allOf, Node.all] using hn
    rw [← hwhole]
    rcases hcases with rfl | hinner
    · exact ⟨'>' :: (textOfAll inside ++ ending), by simp [Node.before, Node.tag, opened]⟩
    · exact standsIn_textOfAll inside opened ending n hinner

theorem standsIn_textOfAll (ps : List Part) (front rest : List Char) :
    ∀ n ∈ Node.allOf (nodesOfAll front ps), n.StandsIn (front ++ (textOfAll ps ++ rest)) := by
  cases ps with
  | nil => nofun
  | cons p ps =>
    intro n hn
    rw [nodesOfAll, Node.allOf_append, List.mem_append] at hn
    rcases hn with hfirst | hrest
    · have hstands := standsIn_text p front (textOfAll ps ++ rest) n hfirst
      rwa [← List.append_assoc p.text] at hstands
    · have hstands := standsIn_textOfAll ps (front ++ p.text) rest n hrest
      rwa [List.append_assoc, ← List.append_assoc p.text] at hstands
end

end Part

theorem standsIn_of_isWritten {source : String} {parts : List Part} {trailing : List Char}
    (h : IsWritten source parts trailing) {n : Node}
    (hn : n ∈ Node.allOf (Part.nodesOfAll [] parts)) : n.StandsIn (dropMark source.toList) := by
  rw [h.spelled]
  exact Part.standsIn_textOfAll parts [] trailing n hn

end GalecAudit.Markup
