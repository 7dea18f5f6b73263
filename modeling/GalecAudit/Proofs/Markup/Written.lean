import GalecAudit.Markup.Event
import Mathlib.Data.List.Induction
import Mathlib.Data.List.Infix
import Mathlib.Data.List.TakeWhile

/-!
# Written constructs

How tags, comments and the like are written in a document, and what the reader cuts off where one of them
stands: all of it, and nothing of what follows.
-/
namespace GalecAudit.Markup

/-- Brackets belong together: none closes before it opens, and none stays open. -/
structure IsBalanced (text : List Char) : Prop where
  nested : ∀ front, front <+: text → front.count '>' ≤ front.count '<'
  closed : text.count '<' = text.count '>'

instance (text : List Char) : Decidable (IsBalanced text) :=
  decidable_of_iff
    ((∀ front ∈ text.inits, front.count '>' ≤ front.count '<') ∧ text.count '<' = text.count '>')
    ⟨fun h => ⟨fun front hfront => h.1 front ((List.mem_inits front text).2 hfront), h.2⟩,
      fun h => ⟨fun front hfront => h.nested front ((List.mem_inits front text).1 hfront), h.closed⟩⟩

/-- What a document holds beside its elements and their text. -/
inductive Aside where
  | comment (text : List Char)
  | characterData (text : List Char)
  | instruction (text : List Char)
  | documentType (text : List Char)

namespace Aside

def kind : Aside → PieceKind
  | comment _ => .comment
  | characterData _ => .characterData
  | instruction _ => .instruction
  | documentType _ => .documentType

/-- What stands between the brackets. -/
def content : Aside → List Char
  | comment text => "!--".toList ++ (text ++ "--".toList)
  | characterData text => "![CDATA[".toList ++ (text ++ "]]".toList)
  | instruction text => '?' :: (text ++ ['?'])
  | documentType text => "!DOCTYPE".toList ++ text

/-- The end of a construct does not stand inside it. That of a document type is found by its brackets. -/
def IsProper : Aside → Prop
  | comment text => ¬ "-->".toList <:+: text
  | characterData text => ¬ "]]>".toList <:+: text
  | instruction text => ¬ "?>".toList <:+: text
  | documentType text => IsBalanced text

instance : DecidablePred IsProper
  | comment _ => inferInstanceAs (Decidable (¬ _))
  | characterData _ => inferInstanceAs (Decidable (¬ _))
  | instruction _ => inferInstanceAs (Decidable (¬ _))
  | documentType text => inferInstanceAs (Decidable (IsBalanced text))

end Aside

/-- Names have no blanks, brackets, quotes or slashes, nor what begins a declaration or an instruction. -/
def isNameChar (c : Char) : Bool := !isSpace c && !"<>/=!?\"\x27".toList.contains c

def IsName (cs : List Char) : Prop := cs ≠ [] ∧ ∀ c ∈ cs, isNameChar c = true

instance (cs : List Char) : Decidable (IsName cs) :=
  decidable_of_iff (cs ≠ [] ∧ cs.all isNameChar = true) (and_congr_right fun _ => List.all_eq_true)

/-- Nothing but blanks of markup. -/
def AreBlanks (cs : List Char) : Prop := ∀ c ∈ cs, isSpace c = true

instance (cs : List Char) : Decidable (AreBlanks cs) :=
  decidable_of_iff (cs.all isSpace = true) List.all_eq_true

/-- An attribute with the blanks before it and on both sides of its equals sign. -/
structure WrittenAttribute where
  lead : List Char
  key : List Char
  beforeEquals : List Char
  afterEquals : List Char
  quote : Char
  value : List Char

namespace WrittenAttribute

def text (a : WrittenAttribute) : List Char :=
  a.lead ++ (a.key ++ (a.beforeEquals ++ '=' :: (a.afterEquals ++ a.quote :: (a.value ++ [a.quote]))))

structure IsProper (a : WrittenAttribute) : Prop where
  lead : a.lead ≠ [] ∧ AreBlanks a.lead
  key : IsName a.key
  beforeEquals : AreBlanks a.beforeEquals
  afterEquals : AreBlanks a.afterEquals
  quote : a.quote = '"' ∨ a.quote = '\x27'
  value : a.quote ∉ a.value

instance (a : WrittenAttribute) : Decidable a.IsProper :=
  decidable_of_iff ((a.lead ≠ [] ∧ AreBlanks a.lead) ∧ IsName a.key ∧ AreBlanks a.beforeEquals ∧
      AreBlanks a.afterEquals ∧ (a.quote = '"' ∨ a.quote = '\x27') ∧ a.quote ∉ a.value)
    ⟨fun ⟨hlead, hkey, hbefore, hafter, hquote, hvalue⟩ =>
        ⟨hlead, hkey, hbefore, hafter, hquote, hvalue⟩,
      fun h => ⟨h.lead, h.key, h.beforeEquals, h.afterEquals, h.quote, h.value⟩⟩

end WrittenAttribute

/-- An opening or an empty tag up to its end: a name, attributes, and blanks. -/
structure WrittenTag where
  name : List Char
  attributes : List WrittenAttribute
  blanks : List Char

namespace WrittenTag

def attributeText (t : WrittenTag) : List Char := t.attributes.flatMap WrittenAttribute.text ++ t.blanks

def text (t : WrittenTag) : List Char := t.name ++ t.attributeText

structure IsProper (t : WrittenTag) : Prop where
  name : IsName t.name
  attributes : ∀ a ∈ t.attributes, a.IsProper
  blanks : AreBlanks t.blanks

instance (t : WrittenTag) : Decidable t.IsProper :=
  decidable_of_iff (IsName t.name ∧ (∀ a ∈ t.attributes, a.IsProper) ∧ AreBlanks t.blanks)
    ⟨fun ⟨hname, hattributes, hblanks⟩ => ⟨hname, hattributes, hblanks⟩,
      fun h => ⟨h.name, h.attributes, h.blanks⟩⟩

end WrittenTag

section Ends

variable {front text tail rest : List Char} {c : Char}

theorem takeWhile_append_cons {p : Char → Bool} (htext : ∀ d ∈ text, p d = true) (hc : p c = false) :
    (text ++ c :: rest).takeWhile p = text := by
  rw [List.takeWhile_append_of_pos htext, List.takeWhile_cons_of_neg (by rw [hc]; decide),
    List.append_nil]

/-- A text that ends in a character stands in front of one without it only as a whole. -/
theorem prefix_of_prefix_append (h : front ++ [c] <+: text ++ tail) (hc : c ∉ tail) :
    front ++ [c] <+: text := by
  induction tail using List.reverseRecOn with
  | nil => rwa [List.append_nil] at h
  | append_singleton tail d ih =>
    rw [List.mem_append, List.mem_singleton, not_or] at hc
    rw [← List.append_assoc, List.prefix_concat_iff] at h
    rcases h with heq | h
    · exact absurd (List.singleton_inj.1 (List.append_inj_right' heq rfl)) hc.2
    · exact ih h hc.1

/-- A construct is read up to the first closing bracket at which it is complete. -/
theorem contentWhere?_append {isComplete : List Char → Bool} (read : List Char)
    (hinside : ∀ front, front ++ ['>'] <+: text → isComplete (front.reverse ++ read) = false)
    (hend : isComplete (text.reverse ++ read) = true) :
    contentWhere? isComplete read (text ++ '>' :: rest) = some (read.reverse ++ text) := by
  induction text generalizing read with
  | nil =>
    rw [List.nil_append, contentWhere?, List.append_nil]
    exact if_pos (by simpa using hend)
  | cons d text ih =>
    have hopen : ¬ (d = '>' && isComplete read) = true := by
      rw [Bool.and_eq_true, decide_eq_true_iff]
      rintro ⟨rfl, hcomplete⟩
      have hnot := hinside [] ⟨text, rfl⟩
      rw [List.reverse_nil, List.nil_append, hcomplete] at hnot
      cases hnot
    have hrest := ih (d :: read) (fun front hfront => by
      have hnot := hinside (d :: front) (List.cons_prefix_cons.2 ⟨rfl, hfront⟩)
      rwa [List.reverse_cons, List.append_assoc] at hnot) (by
        rwa [List.reverse_cons, List.append_assoc] at hend)
    rw [List.cons_append, contentWhere?, if_neg hopen, hrest, List.reverse_cons, List.append_assoc]
    rfl

/-- A mark of two equal characters and a closing bracket that a text lacks is met at its end only. -/
theorem isPrefixOf_reverse_eq_false {mark : Char} {read : List Char} (hmark : mark ≠ '>')
    (hfree : ¬ [mark, mark, '>'] <:+: text) (hfront : front ++ ['>'] <+: text ++ [mark, mark])
    (hlong : 2 ≤ front.length) : [mark, mark].isPrefixOf (front.reverse ++ read) = false := by
  rw [Bool.eq_false_iff, Ne, List.isPrefixOf_iff_prefix]
  intro hpre
  have hmarks : [mark, mark] <+: front.reverse :=
    List.prefix_of_prefix_length_le hpre (List.prefix_append _ _) (by simpa using hlong)
  obtain ⟨begin, hbegin⟩ := List.reverse_suffix.2 hmarks
  rw [List.reverse_reverse] at hbegin
  have hwhole := prefix_of_prefix_append hfront (by simpa using hmark.symm)
  rw [← hbegin, List.append_assoc] at hwhole
  exact hfree ((List.suffix_append begin _).isInfix.trans hwhole.isInfix)

end Ends

section Asides

variable {text rest : List Char} {c : Cut}

theorem checkedCut_eq_ok {kind : PieceKind} {construct : Construct} {isSpelled : Bool}
    {content : List Char} (h : checkedCut kind construct isSpelled content = .ok c) :
    c = ⟨kind, content, true⟩ := by
  unfold checkedCut at h
  dsimp only at h
  split at h
  · exact (Except.ok.inj h).symm
  · cases h

theorem cutComment_eq_ok (htext : ¬ "-->".toList <:+: text)
    (h : cutComment ("!--".toList ++ (text ++ "--".toList) ++ '>' :: rest) = .ok c) :
    c = ⟨.comment, "!--".toList ++ (text ++ "--".toList), true⟩ := by
  have hcontent : contentWhere? completesComment []
      ("!--".toList ++ (text ++ "--".toList) ++ '>' :: rest) =
        some ("!--".toList ++ (text ++ "--".toList)) := by
    rw [List.append_assoc]
    refine contentWhere?_append "!--".toList.reverse (fun front hfront => ?_) ?_
    · rw [completesComment, Bool.and_eq_false_iff, decide_eq_false_iff_not]
      by_cases hlong : 2 ≤ front.length
      · exact .inl (isPrefixOf_reverse_eq_false (by decide) htext hfront hlong)
      · exact .inr (by simp; omega)
    · simp [completesComment]
  unfold cutComment at h
  rw [hcontent] at h
  exact checkedCut_eq_ok h

theorem cutCharacterData_eq_ok (htext : ¬ "]]>".toList <:+: text)
    (h : cutCharacterData ("![CDATA[".toList ++ (text ++ "]]".toList) ++ '>' :: rest) = .ok c) :
    c = ⟨.characterData, "![CDATA[".toList ++ (text ++ "]]".toList), true⟩ := by
  have hcontent : contentWhere? completesCharacterData []
      ("![CDATA[".toList ++ (text ++ "]]".toList) ++ '>' :: rest) =
        some ("![CDATA[".toList ++ (text ++ "]]".toList)) := by
    rw [List.append_assoc]
    refine contentWhere?_append "![CDATA[".toList.reverse (fun front hfront => ?_) ?_
    · rw [completesCharacterData]
      match front with
      | [] => decide
      | [d] => simp [List.isPrefixOf]
      | d :: e :: front =>
        exact isPrefixOf_reverse_eq_false (by decide) htext hfront (by simp)
    · simp [completesCharacterData]
  unfold cutCharacterData at h
  rw [hcontent] at h
  exact checkedCut_eq_ok h

theorem cutDocumentType_eq_ok (htext : IsBalanced text)
    (h : cutDocumentType ("!DOCTYPE".toList ++ text ++ '>' :: rest) = .ok c) :
    c = ⟨.documentType, "!DOCTYPE".toList ++ text, true⟩ := by
  have hcontent : contentWhere? completesDocumentType []
      ("!DOCTYPE".toList ++ text ++ '>' :: rest) = some ("!DOCTYPE".toList ++ text) := by
    rw [List.append_assoc]
    refine contentWhere?_append "!DOCTYPE".toList.reverse (fun front hfront => ?_) ?_
    · have hopen := htext.nested _ hfront
      simp only [List.count_append, List.count_singleton] at hopen
      simp [completesDocumentType] at hopen ⊢
      omega
    · simp [completesDocumentType, htext.closed]
  unfold cutDocumentType at h
  rw [hcontent] at h
  dsimp only at h
  split at h
  · exact checkedCut_eq_ok h
  · split at h
    · cases h
    · exact checkedCut_eq_ok h

theorem cutAtBracket_append (kind : PieceKind) (htext : '>' ∉ text) :
    cutAtBracket kind (text ++ '>' :: rest) = ⟨kind, text, true⟩ := by
  have hcontent : (text ++ '>' :: rest).takeWhile (· != '>') = text :=
    takeWhile_append_cons (fun c hc => bne_iff_ne.2 (ne_of_mem_of_not_mem hc htext)) rfl
  unfold cutAtBracket
  rw [hcontent]
  simp

theorem cutInstruction_append (htext : '>' ∉ text)
    (h : cutInstruction (text ++ '>' :: rest) = .ok c) :
    2 < text.length ∧ text.getLast? = some '?' ∧ c = ⟨.instruction, text, true⟩ := by
  unfold cutInstruction at h
  rw [cutAtBracket_append _ htext] at h
  dsimp only at h
  split at h
  · next hend => exact ⟨hend.1, hend.2, (Except.ok.inj h).symm⟩
  · cases h

/-- An instruction with a closing bracket inside is refused. -/
theorem cutInstruction_eq_ok (htext : ¬ "?>".toList <:+: text)
    (h : cutInstruction ('?' :: (text ++ ['?']) ++ '>' :: rest) = .ok c) :
    c = ⟨.instruction, '?' :: (text ++ ['?']), true⟩ := by
  by_cases hmem : '>' ∈ text
  · obtain ⟨front, behind, rfl, hfront⟩ := List.eq_append_cons_of_mem hmem
    have happend : '?' :: (front ++ '>' :: behind ++ ['?']) ++ '>' :: rest =
        ('?' :: front) ++ '>' :: (behind ++ '?' :: '>' :: rest) := by simp
    rw [happend] at h
    obtain ⟨hlong, hlast, -⟩ := cutInstruction_append (by simpa using hfront) h
    obtain ⟨begin, hbegin⟩ := List.getLast?_eq_some_iff.1 hlast
    match begin with
    | [] => simp [hbegin] at hlong
    | d :: begin =>
      obtain ⟨-, rfl⟩ := List.cons.inj hbegin
      exact absurd ⟨begin, behind, by simp⟩ htext
  · exact (cutInstruction_append (by simpa using hmem) h).2.2

/-- What is cut off where a construct stands beside the elements is this construct. -/
theorem cut_content {a : Aside} (ha : a.IsProper) (h : cut (a.content ++ '>' :: rest) = .ok c) :
    c = ⟨a.kind, a.content, true⟩ := by
  cases a with
  | comment text => exact cutComment_eq_ok ha h
  | characterData text => exact cutCharacterData_eq_ok ha h
  | instruction text => exact cutInstruction_eq_ok ha h
  | documentType text => exact cutDocumentType_eq_ok ha h

end Asides

section Tags

variable {text : List Char} (rest : List Char) {t : WrittenTag}

/-- A text that holds no closing bracket outside quotes and leaves no quote open. -/
def IsPassed (text : List Char) : Prop :=
  ∀ rest, elementContent? none (text ++ rest) = (elementContent? none rest).map (text ++ ·)

theorem isPassed_nil : IsPassed [] := fun rest => by
  simp

theorem IsPassed.append {a b : List Char} (ha : IsPassed a) (hb : IsPassed b) : IsPassed (a ++ b) := by
  intro rest
  rw [List.append_assoc, ha, hb, Option.map_map]
  simp [Function.comp_def]

theorem isPassed_of_plain (h : ∀ c ∈ text, c ∉ ['>', '"', '\x27']) : IsPassed text := by
  induction text with
  | nil => exact isPassed_nil
  | cons c text ih =>
    intro rest
    obtain ⟨hc, htext⟩ := List.forall_mem_cons.1 h
    simp only [List.mem_cons, List.not_mem_nil, or_false, not_or] at hc
    rw [List.cons_append, elementContent?]
    simp only [hc, if_false, or_self, ih htext rest, Option.map_map]
    rfl

theorem elementContent?_quoted {quote : Char} {value : List Char} (h : quote ∉ value) :
    elementContent? (some quote) (value ++ quote :: rest) =
      (elementContent? none rest).map (value ++ quote :: ·) := by
  induction value with
  | nil =>
    rw [List.nil_append, elementContent?]
    simp
  | cons c value ih =>
    rw [List.mem_cons, not_or] at h
    rw [List.cons_append, elementContent?]
    simp only [if_neg (Ne.symm h.1), ih h.2, Option.map_map]
    rfl

theorem isPassed_quoted {quote : Char} {value : List Char} (hquote : quote = '"' ∨ quote = '\x27')
    (h : quote ∉ value) : IsPassed (quote :: (value ++ [quote])) := by
  intro rest
  have hne : quote ≠ '>' := by rcases hquote with rfl | rfl <;> decide
  rw [List.cons_append, List.append_assoc, elementContent?]
  simp only [hquote, hne, if_true, if_false]
  rw [List.singleton_append, elementContent?_quoted _ h, Option.map_map]
  simp [Function.comp_def]

/-- A class of characters without brackets and quotes. -/
theorem isPassed_of_all {p : Char → Bool} (hp : ['>', '"', '\x27'].all (fun c => !p c) = true)
    (h : ∀ c ∈ text, p c = true) : IsPassed text := by
  refine isPassed_of_plain fun c hc hmem => ?_
  have hnot := List.all_eq_true.1 hp c hmem
  rw [h c hc] at hnot
  cases hnot

theorem isPassed_of_name (h : IsName text) : IsPassed text :=
  isPassed_of_all (by decide) h.2

theorem isPassed_of_blanks (h : AreBlanks text) : IsPassed text :=
  isPassed_of_all (by decide) h

theorem WrittenAttribute.IsProper.isPassed {a : WrittenAttribute} (h : a.IsProper) :
    IsPassed a.text := by
  have hvalue := isPassed_quoted h.quote h.value
  have hequals : IsPassed ['='] := isPassed_of_plain (by simp)
  have hall := (isPassed_of_blanks h.lead.2).append ((isPassed_of_name h.key).append
    ((isPassed_of_blanks h.beforeEquals).append
      (hequals.append ((isPassed_of_blanks h.afterEquals).append hvalue))))
  exact hall

theorem WrittenTag.IsProper.isPassed (h : t.IsProper) : IsPassed t.text := by
  have hattributes : ∀ as : List WrittenAttribute, (∀ a ∈ as, a.IsProper) →
      IsPassed (as.flatMap WrittenAttribute.text) := by
    intro as has
    induction as with
    | nil => exact isPassed_nil
    | cons a as ih =>
      obtain ⟨ha, has⟩ := List.forall_mem_cons.1 has
      exact ha.isPassed.append (ih has)
  exact (isPassed_of_name h.name).append
    ((hattributes _ h.attributes).append (isPassed_of_blanks h.blanks))

/-- Where a tag stands, the reader looks for the end of an element. -/
theorem cut_of_name (h : t.IsProper) :
    cut (t.text ++ rest) = match elementContent? none (t.text ++ rest) with
      | some content => .ok ⟨.element, content, true⟩
      | none => .error ⟨.unfinished .element, 0⟩ := by
  obtain ⟨c, name, hname⟩ := List.exists_cons_of_ne_nil h.name.1
  have hc : isNameChar c = true := h.name.2 c (by rw [hname]; exact List.mem_cons_self)
  have htext : t.text ++ rest = c :: (name ++ (t.attributeText ++ rest)) := by
    rw [WrittenTag.text, hname]
    simp
  rw [htext]
  unfold cut
  split <;> first | rfl | (next he => obtain ⟨rfl, -⟩ := List.cons.inj he; cases hc)

theorem cut_opening (h : t.IsProper) :
    cut (t.text ++ '>' :: rest) = .ok ⟨.element, t.text, true⟩ := by
  rw [cut_of_name _ h, h.isPassed, elementContent?]
  simp

theorem cut_empty (h : t.IsProper) :
    cut (t.text ++ '/' :: '>' :: rest) = .ok ⟨.element, t.text ++ ['/'], true⟩ := by
  have hslash : IsPassed ['/'] := isPassed_of_plain (by simp)
  have hpassed := (h.isPassed.append hslash) ('>' :: rest)
  rw [List.append_assoc, List.singleton_append] at hpassed
  rw [cut_of_name _ h, hpassed, elementContent?]
  simp

theorem cut_closing {name blanks : List Char} (hname : IsName name) (hblanks : AreBlanks blanks) :
    cut ('/' :: (name ++ (blanks ++ '>' :: rest))) =
      .ok ⟨.closing, '/' :: (name ++ blanks), true⟩ := by
  have hfree : '>' ∉ '/' :: (name ++ blanks) := by
    rw [List.mem_cons, List.mem_append, not_or, not_or]
    refine ⟨by decide, fun h => ?_, fun h => ?_⟩
    · cases hname.2 _ h
    · cases hblanks _ h
  have happend : '/' :: (name ++ (blanks ++ '>' :: rest)) =
      ('/' :: (name ++ blanks)) ++ '>' :: rest := by simp
  rw [happend, ← cutAtBracket_append .closing hfree]
  rfl

theorem WrittenTag.IsProper.takeWhile_attributeText (h : t.IsProper) :
    t.attributeText.takeWhile (fun c => !isSpace c) = [] := by
  unfold WrittenTag.attributeText
  cases hattributes : t.attributes with
  | nil =>
    cases hblanks : t.blanks with
    | nil => rfl
    | cons c blanks =>
      have hc : isSpace c = true := h.blanks c (by rw [hblanks]; exact List.mem_cons_self)
      exact List.takeWhile_cons_of_neg (by simp [hc])
  | cons a as =>
    have ha := (h.attributes a (by rw [hattributes]; exact List.mem_cons_self)).lead
    obtain ⟨c, lead, hlead⟩ := List.exists_cons_of_ne_nil ha.1
    have hc : isSpace c = true := ha.2 c (by rw [hlead]; exact List.mem_cons_self)
    rw [List.flatMap_cons, WrittenAttribute.text, hlead]
    exact List.takeWhile_cons_of_neg (by simp [hc])

theorem isSpace_of_isNameChar {c : Char} (h : isNameChar c = true) : isSpace c = false := by
  rw [isNameChar, Bool.and_eq_true, Bool.not_eq_true'] at h
  exact h.1

/-- The name goes on to the first blank. -/
theorem WrittenTag.IsProper.takeWhile_text (h : t.IsProper) :
    t.text.takeWhile (fun c => !isSpace c) = t.name := by
  have hname : ∀ c ∈ t.name, (!isSpace c) = true := fun c hc => by
    rw [isSpace_of_isNameChar (h.name.2 c hc)]
    rfl
  rw [text, List.takeWhile_append_of_pos hname, h.takeWhile_attributeText, List.append_nil]

theorem WrittenTag.IsProper.getLast?_text (h : t.IsProper) : t.text.getLast? ≠ some '/' := by
  have hor {a b : Option Char} (ha : a ≠ some '/') (hb : b ≠ some '/') : a.or b ≠ some '/' := by
    cases a with
    | none => exact hb
    | some c => exact ha
  have hattributes : ∀ as : List WrittenAttribute, (∀ a ∈ as, a.IsProper) →
      (as.flatMap WrittenAttribute.text).getLast? ≠ some '/' := by
    intro as has
    induction as with
    | nil => nofun
    | cons a as ih =>
      obtain ⟨ha, has⟩ := List.forall_mem_cons.1 has
      have hquote : a.text.getLast? = some a.quote := by
        simp [WrittenAttribute.text, List.getLast?_cons]
      rw [List.flatMap_cons, List.getLast?_append, hquote]
      refine hor (ih has) fun he => ?_
      rcases ha.quote with hq | hq <;> rw [hq] at he <;> cases he
  rw [text, attributeText, List.getLast?_append, List.getLast?_append]
  refine hor (hor (fun he => ?_) (hattributes _ h.attributes)) fun he => ?_
  · cases h.blanks _ (List.mem_of_getLast? he)
  · cases h.name.2 _ (List.mem_of_getLast? he)

theorem ofContent_text (h : t.IsProper) : Tag.ofContent t.text = ⟨t.name, t.attributeText, false⟩ := by
  have hlast : (t.text.getLast? == some '/') = false := by
    simpa using h.getLast?_text
  unfold Tag.ofContent
  simp only [hlast, Bool.false_eq_true, if_false, h.takeWhile_text]
  rw [WrittenTag.text, List.drop_left]

theorem ofContent_text_slash (h : t.IsProper) :
    Tag.ofContent (t.text ++ ['/']) = ⟨t.name, t.attributeText, true⟩ := by
  unfold Tag.ofContent
  simp only [List.getLast?_concat, beq_self_eq_true, if_true, List.dropLast_concat, h.takeWhile_text]
  rw [WrittenTag.text, List.drop_left]

theorem closingName_append {name blanks : List Char} (hname : IsName name)
    (hblanks : AreBlanks blanks) : closingName (name ++ blanks) = name := by
  have hdrop : (name ++ blanks).reverse.dropWhile isSpace = name.reverse := by
    obtain ⟨c, begin, hlast⟩ := List.exists_cons_of_ne_nil (List.reverse_ne_nil_iff.2 hname.1)
    have hc : isSpace c = false := isSpace_of_isNameChar <| hname.2 c <| by
      rw [← List.mem_reverse, hlast]
      exact List.mem_cons_self
    rw [List.reverse_append, List.dropWhile_append_of_pos fun c hc =>
      hblanks c (List.mem_reverse.1 hc), hlast, List.dropWhile_cons_of_neg (by simp [hc])]
  unfold closingName
  rw [hdrop, List.reverse_reverse]
  cases name with
  | nil => exact absurd rfl hname.1
  | cons c name => rfl

end Tags

end GalecAudit.Markup
