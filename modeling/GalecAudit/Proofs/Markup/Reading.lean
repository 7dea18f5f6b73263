import GalecAudit.Proofs.Markup.Document

/-!
# Reading written documents

The reader opens and closes exactly the elements of a written document, each on the line of the opening
bracket of its tag, unless it notices a fault.
-/
namespace GalecAudit.Markup

open Text (byteSize)

section Places

/-- The blanks of markup are blanks of the Unicode property too. -/
theorem isBlank_of_isSpace {c : Char} (h : isSpace c = true) : Text.isBlank c = true := by
  simp only [isSpace, Bool.or_eq_true, beq_iff_eq] at h
  rcases h with ((rfl | rfl) | rfl) | rfl <;> decide

/-- The line that is looked up for a piece is that of its opening bracket. If only blanks stand before
the bracket, they are skipped, and otherwise the piece starts at the bracket. -/
theorem lineOf_afterBlanks (front gap inner : List Char) :
    let start := if gap.all isSpace then byteSize front else byteSize front + byteSize gap
    lineOf (front ++ (gap ++ '<' :: inner)) (afterBlanks (front ++ (gap ++ '<' :: inner)) start) =
      1 + (front ++ gap).count '\n' := by
  intro start
  have hbracket : Text.isBlank '<' = false := by decide
  have hskip : afterBlanks (front ++ (gap ++ '<' :: inner)) start = byteSize (front ++ gap) := by
    by_cases hgap : gap.all isSpace = true
    · have hblank : ∀ c ∈ gap, Text.isBlank c = true := fun c hc =>
        isBlank_of_isSpace (List.all_eq_true.1 hgap c hc)
      have hrun : (gap ++ '<' :: inner).takeWhile Text.isBlank = gap :=
        takeWhile_append_cons hblank hbracket
      have hstart : start = byteSize front := if_pos hgap
      rw [hstart, afterBlanks, textFrom?_byteSize]
      dsimp only
      rw [hrun, Text.byteSize_append]
    · have hstart : start = byteSize (front ++ gap) := by
        rw [Text.byteSize_append]
        exact if_neg hgap
      rw [hstart, ← List.append_assoc, afterBlanks, textFrom?_byteSize]
      dsimp only
      rw [List.takeWhile_cons_of_neg (by rw [hbracket]; decide)]
      rfl
  rw [hskip, ← List.append_assoc, lineOf_byteSize]

end Places

section Pieces

variable {gap inner : List Char}

/-- A text without an opening bracket has no pieces. -/
theorem pieces_of_plain {cs : List Char} (h : '<' ∉ cs) (offset : Nat) :
    pieces cs offset = ⟨[], none⟩ := by
  have hall : cs.takeWhile (· != '<') = cs :=
    List.takeWhile_eq_self_iff.2 fun c hc => bne_iff_ne.2 (ne_of_mem_of_not_mem hc h)
  rw [pieces]
  split
  · rfl
  · rfl
  · next hdrop =>
    rw [hall, List.drop_length] at hdrop
    cases hdrop

/-- The piece behind a text without an opening bracket, and the pieces behind it. -/
theorem pieces_of_gap (hgap : '<' ∉ gap) (hinner : inner ≠ []) (offset : Nat) :
    pieces (gap ++ '<' :: inner) offset =
      let behind := offset + byteSize gap + 1
      match cut inner with
      | .error e => ⟨[], some (behind + e.distance, e.fault)⟩
      | .ok c =>
        let stop := behind + byteSize c.text
        let following := pieces (inner.drop c.text.length) stop
        ⟨⟨c.kind, c.content, if gap.all isSpace then offset else offset + byteSize gap, stop⟩ ::
          following.items, following.fault⟩ := by
  have htake : (gap ++ '<' :: inner).takeWhile (· != '<') = gap :=
    takeWhile_append_cons (fun c hc => bne_iff_ne.2 (ne_of_mem_of_not_mem hc hgap)) rfl
  rw [pieces]
  split
  · next hdrop =>
    rw [htake, List.drop_left] at hdrop
    cases hdrop
  · next hdrop =>
    rw [htake, List.drop_left] at hdrop
    exact absurd (List.cons.inj hdrop).2 hinner
  · next hdrop =>
    rw [htake, List.drop_left] at hdrop
    cases hdrop
    cases cut inner with
    | error e => simp only [htake]
    | ok c => simp only [htake]

end Pieces

/-- A reading goes on with some events and then with another reading, unless it ends with a fault. -/
def Reading.GoesOn (r : Reading Event) (events : List Event) (next : Reading Event) : Prop :=
  r.fault = none →
    next.fault = none ∧ r.items.map Event.sound = events ++ next.items.map Event.sound

theorem Reading.GoesOn.trans {r s t : Reading Event} {es fs : List Event} (h : r.GoesOn es s)
    (h' : s.GoesOn fs t) : r.GoesOn (es ++ fs) t := by
  intro hr
  obtain ⟨hs, hitems⟩ := h hr
  obtain ⟨ht, hmore⟩ := h' hs
  exact ⟨ht, by rw [hitems, hmore, List.append_assoc]⟩

theorem Reading.goesOn_of_eq {r s : Reading Event} (es : List Event)
    (h : r = ⟨es ++ s.items, s.fault⟩) : r.GoesOn (es.map Event.sound) s := by
  rw [h]
  exact fun hs => ⟨hs, List.map_append⟩

/-- The events of a text that stands behind another one, inside the elements with the given full names. -/
def eventsBehind (front : List Char) (around : List (List Char)) (cs : List Char) : Reading Event :=
  let cuts := pieces cs (byteSize front)
  eventsOfPieces (front ++ cs) cuts.fault around cuts.items

section Events

variable (front : List Char) (around : List (List Char)) (rest : List Char)
variable {gap content : List Char} {kind : PieceKind} {t : WrittenTag}

theorem eventsBehind_of_plain {cs : List Char} (h : '<' ∉ cs) :
    eventsBehind front [] cs = ⟨[], none⟩ := by
  unfold eventsBehind
  rw [pieces_of_plain h]
  rfl

/-- Where nothing can be cut off, the events end with a fault. -/
theorem fault_eventsBehind {inner : List Char} {e : CutFault} (hgap : '<' ∉ gap) (hinner : inner ≠ [])
    (hcut : cut inner = .error e) :
    (eventsBehind front around (gap ++ '<' :: inner)).fault ≠ none := by
  unfold eventsBehind
  rw [pieces_of_gap hgap hinner, hcut]
  exact Option.some_ne_none _

/-- What is cut off makes a piece on the line of its opening bracket, and the pieces behind it are those
of what stands there. -/
theorem eventsBehind_of_cut (hgap : '<' ∉ gap)
    (hcut : cut (content ++ '>' :: rest) = .ok ⟨kind, content, true⟩) :
    ∃ (document : List Char) (piece : Piece) (following : Reading Piece),
      piece.kind = kind ∧ piece.content = content ∧
      lineOf document (afterBlanks document piece.start) = 1 + (front ++ gap).count '\n' ∧
      (∀ around, eventsBehind front around (gap ++ '<' :: (content ++ '>' :: rest)) =
        eventsOfPieces document following.fault around (piece :: following.items)) ∧
      ∀ around, eventsBehind (front ++ (gap ++ '<' :: (content ++ ['>']))) around rest =
        eventsOfPieces document following.fault around following.items := by
  have hstop : byteSize front + byteSize gap + 1 + byteSize (content ++ ['>']) =
      byteSize (front ++ (gap ++ '<' :: (content ++ ['>']))) := by
    rw [Text.byteSize_append front, Text.byteSize_append gap]
    change _ = byteSize front + (byteSize gap + (1 + byteSize (content ++ ['>'])))
    omega
  have hbehind : content ++ '>' :: rest = (content ++ ['>']) ++ rest := by simp
  have hdocument : front ++ (gap ++ '<' :: (content ++ ['>'])) ++ rest =
      front ++ (gap ++ '<' :: (content ++ '>' :: rest)) := by simp
  have hpieces := pieces_of_gap hgap (by simp : content ++ '>' :: rest ≠ []) (byteSize front)
  rw [hcut] at hpieces
  simp only [Cut.text, if_true, hstop] at hpieces
  rw [hbehind, List.drop_left, ← hbehind] at hpieces
  refine ⟨front ++ (gap ++ '<' :: (content ++ '>' :: rest)),
    ⟨kind, content, if gap.all isSpace then byteSize front else byteSize front + byteSize gap,
      byteSize (front ++ (gap ++ '<' :: (content ++ ['>'])))⟩,
    pieces rest (byteSize (front ++ (gap ++ '<' :: (content ++ ['>'])))), rfl, rfl,
    lineOf_afterBlanks front gap _, fun around => ?_, fun around => ?_⟩
  · unfold eventsBehind
    rw [hpieces]
  · unfold eventsBehind
    rw [hdocument]

/-- A construct beside the elements leaves no event. -/
theorem goesOn_aside {a : Aside} (hgap : '<' ∉ gap) (ha : a.IsProper) :
    (eventsBehind front around (gap ++ '<' :: (a.content ++ '>' :: rest))).GoesOn []
      (eventsBehind (front ++ (gap ++ '<' :: (a.content ++ ['>']))) around rest) := by
  cases hcut : cut (a.content ++ '>' :: rest) with
  | error e => exact fun hr => absurd hr (fault_eventsBehind front around hgap (by simp) hcut)
  | ok c =>
    obtain rfl := cut_content ha hcut
    obtain ⟨_, piece, _, hkind, -, -, hhere, hbehind⟩ := eventsBehind_of_cut front rest hgap hcut
    refine Reading.goesOn_of_eq [] ?_
    rw [hhere, hbehind, eventsOfPieces_skip]
    · rfl
    · cases a <;> simp [hkind, Aside.kind]
    · cases a <;> simp [hkind, Aside.kind]

/-- The tag of an element opens its tree. -/
theorem sound_opening {content : List Char} {isEmpty : Bool}
    (h : Tag.ofContent content = ⟨t.name, t.attributeText, isEmpty⟩) (children : List Node) :
    (Event.opening ((Tag.ofContent content).element around (1 + (front ++ gap).count '\n'))).sound =
      .opening ((Node.node (front ++ gap) t children).tree.element (around.head?.map localName)
        around.length) := by
  rw [h]
  rfl

theorem goesOn_opening (hgap : '<' ∉ gap) (ht : t.IsProper) (children : List Node) :
    (eventsBehind front around (gap ++ '<' :: (t.text ++ '>' :: rest))).GoesOn
      [.opening ((Node.node (front ++ gap) t children).tree.element (around.head?.map localName)
        around.length)]
      (eventsBehind (front ++ (gap ++ '<' :: (t.text ++ ['>']))) (t.name :: around) rest) := by
  obtain ⟨_, piece, _, hkind, hcontent, hline, hhere, hbehind⟩ :=
    eventsBehind_of_cut front rest hgap (cut_opening rest ht)
  have htag := ofContent_text ht
  rw [← sound_opening front around htag]
  refine Reading.goesOn_of_eq [_] ?_
  rw [hhere, hbehind, eventsOfPieces]
  simp only [hkind, hcontent, hline, htag]
  rfl

theorem goesOn_empty (hgap : '<' ∉ gap) (ht : t.IsProper) :
    (eventsBehind front around (gap ++ '<' :: (t.text ++ '/' :: '>' :: rest))).GoesOn
      ((Node.node (front ++ gap) t []).tree.events (around.head?.map localName) around.length)
      (eventsBehind (front ++ (gap ++ '<' :: (t.text ++ ['/', '>']))) around rest) := by
  have happend (tail : List Char) : (t.text ++ ['/']) ++ '>' :: tail = t.text ++ '/' :: '>' :: tail := by
    simp
  have hcut := cut_empty rest ht
  rw [← happend] at hcut
  obtain ⟨_, piece, _, hkind, hcontent, hline, hhere, hbehind⟩ :=
    eventsBehind_of_cut front rest hgap hcut
  rw [happend] at hhere hbehind
  have htag := ofContent_text_slash ht
  rw [Tree.events_eq, ← sound_opening front around htag]
  refine Reading.goesOn_of_eq [_, .closing _ _] ?_
  rw [hhere, hbehind, eventsOfPieces]
  simp only [hkind, hcontent, hline, htag]
  rfl

theorem goesOn_closing {name blanks : List Char} (hgap : '<' ∉ gap) (hname : IsName name)
    (hblanks : AreBlanks blanks) :
    (eventsBehind front (name :: around)
      (gap ++ '<' :: '/' :: (name ++ (blanks ++ '>' :: rest)))).GoesOn
        [.closing (localName name) around.length]
        (eventsBehind (front ++ (gap ++ '<' :: '/' :: (name ++ (blanks ++ ['>'])))) around rest) := by
  have happend (tail : List Char) : '/' :: (name ++ blanks) ++ '>' :: tail =
      '/' :: (name ++ (blanks ++ '>' :: tail)) := by simp
  have hcut := cut_closing rest hname hblanks
  rw [← happend] at hcut
  obtain ⟨_, piece, _, hkind, hcontent, -, hhere, hbehind⟩ :=
    eventsBehind_of_cut front rest hgap hcut
  rw [happend] at hhere hbehind
  refine Reading.goesOn_of_eq [.closing _ _] ?_
  rw [hhere, hbehind, eventsOfPieces_closing hkind]
  · rfl
  · rw [hcontent]
    exact closingName_append hname hblanks

end Events

namespace Part

mutual
/-- The events of a part are those of the trees of its nodes, wherever it stands. -/
theorem goesOn_text (p : Part) (hp : p.IsProper) (front : List Char) (around : List (List Char))
    (rest : List Char) : (eventsBehind front around (p.text ++ rest)).GoesOn
      (Tree.eventsOfAll (around.head?.map localName) around.length (Node.treesOf (p.nodes front)))
      (eventsBehind (front ++ p.text) around rest) := by
  cases p with
  | aside gap construct =>
    obtain ⟨hgap, hconstruct⟩ := hp
    simpa [text, nodes, Node.treesOf, Tree.eventsOfAll] using
      goesOn_aside front around rest hgap hconstruct
  | empty gap tag =>
    obtain ⟨hgap, htag⟩ := hp
    simpa [text, nodes, Node.treesOf, Tree.eventsOfAll] using
      goesOn_empty front around rest hgap htag
  | pair gap tag inside endGap endBlanks =>
    obtain ⟨hgap, htag, hinside, hendGap, hendBlanks⟩ := hp
    let opened := front ++ (gap ++ '<' :: (tag.text ++ ['>']))
    have hopen := goesOn_opening front around (textOfAll inside ++
      (endGap ++ '<' :: '/' :: (tag.name ++ (endBlanks ++ '>' :: rest)))) hgap htag
        (nodesOfAll opened inside)
    have hinner := goesOn_textOfAll inside hinside opened (tag.name :: around)
      (endGap ++ '<' :: '/' :: (tag.name ++ (endBlanks ++ '>' :: rest)))
    have hclose := goesOn_closing (opened ++ textOfAll inside) around rest hendGap htag.name
      hendBlanks
    simpa [text, nodes, Node.treesOf, Tree.eventsOfAll, Tree.events_eq, Node.name, Node.tag,
      Node.children, opened] using hopen.trans (hinner.trans hclose)

theorem goesOn_textOfAll (ps : List Part) (hps : AreProper ps) (front : List Char)
    (around : List (List Char)) (rest : List Char) :
    (eventsBehind front around (textOfAll ps ++ rest)).GoesOn
      (Tree.eventsOfAll (around.head?.map localName) around.length
        (Node.treesOf (nodesOfAll front ps)))
      (eventsBehind (front ++ textOfAll ps) around rest) := by
  cases ps with
  | nil =>
    refine Reading.goesOn_of_eq [] ?_
    simp [textOfAll]
  | cons p ps =>
    obtain ⟨hp, hps⟩ := hps
    have hfirst := goesOn_text p hp front around (textOfAll ps ++ rest)
    have hrest := goesOn_textOfAll ps hps (front ++ p.text) around rest
    rw [textOfAll, nodesOfAll, Node.treesOf_eq_map, List.map_append, ← Node.treesOf_eq_map,
      ← Node.treesOf_eq_map, Tree.eventsOfAll_append, List.append_assoc, ← List.append_assoc front]
    exact hfirst.trans hrest
end

end Part

section Sources

variable {source : String} {parts : List Part} {trailing : List Char}

theorem dropMark_of_head {cs : List Char} (h : cs.head? ≠ some '\ufeff') : dropMark cs = cs := by
  unfold dropMark
  split
  · exact absurd rfl h
  · rfl

/-- At most one mark of the byte order is dropped at once. -/
theorem dropMark_dropMark {cs : List Char} (h : ¬ ['\ufeff', '\ufeff'] <+: cs) :
    dropMark (dropMark cs) = dropMark cs := by
  by_cases hmark : cs.head? = some '\ufeff'
  · obtain ⟨rest, rfl⟩ := List.head?_eq_some_iff.1 hmark
    refine dropMark_of_head fun hhead => h ?_
    obtain ⟨more, rfl⟩ := List.head?_eq_some_iff.1 hhead
    exact ⟨more, rfl⟩
  · rw [dropMark_of_head hmark, dropMark_of_head hmark]

/-- The events of a written source without a fault are those of its trees. -/
theorem items_readEvents (h : IsWritten source parts trailing)
    (hfault : (readEvents source).fault = none) :
    (readEvents source).items.map Event.sound =
      Tree.eventsOfAll none 0 (Node.treesOf (Part.nodesOfAll [] parts)) := by
  have hread : readEvents source = eventsBehind [] [] (Part.textOfAll parts ++ trailing) := by
    unfold readEvents eventsBehind
    dsimp only
    rw [dropMark_dropMark h.oneMark, h.spelled]
    rfl
  rw [hread] at hfault ⊢
  obtain ⟨-, hitems⟩ := Part.goesOn_textOfAll parts h.proper [] [] trailing hfault
  rw [hitems, eventsBehind_of_plain _ h.plain, List.map_nil, List.append_nil]
  rfl

end Sources

end GalecAudit.Markup
