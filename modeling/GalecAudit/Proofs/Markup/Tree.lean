import GalecAudit.Markup.Event

/-!
# Trees of elements

The events of a document are those of the trees that its tags spell. An element without children may be
written as an empty tag or as two tags, and comments and instructions may stand anywhere: the events are
the same.
-/
namespace GalecAudit.Markup

open Text (byteSize)

/-- The attributes of a tag without a fault, whose values can all be unescaped. -/
structure SoundAttributes where
  written : Attributes
  complete : written.fault = none
  unescaped : ∀ entry ∈ written.entries, (unescape entry.2).isOk = true

namespace SoundAttributes

def get? (a : SoundAttributes) (key : String) : Option String :=
  (a.written.entries.lookup key).bind fun value => (unescape value).toOption.map String.ofList

/-- No look-up fails. -/
theorem value?_written (a : SoundAttributes) (key : String) :
    a.written.value? key = .ok (a.get? key) := by
  unfold Attributes.value? get?
  cases hl : a.written.entries.lookup key with
  | none => simp only [a.complete, Option.bind_none]
  | some value =>
    obtain ⟨before, behind, hentries, -⟩ := List.lookup_eq_some_iff.1 hl
    have hok := a.unescaped (key, value) (by rw [hentries]; simp)
    cases hu : unescape value with
    | error fault =>
      rw [hu] at hok
      cases hok
    | ok cs => simp only [Option.bind_some, hu, Except.toOption, Option.map_some]

end SoundAttributes

/-- The attributes that can be read: those before a fault, as far as their values can be unescaped. -/
def Attributes.sound (a : Attributes) : SoundAttributes where
  written := ⟨a.entries.filter fun entry => (unescape entry.2).isOk, none⟩
  complete := rfl
  unescaped _ h := (List.mem_filter.1 h).2

theorem lookup_filter {entries : List (String × List Char)} {key : String} {written : List Char}
    {p : String × List Char → Bool} (h : entries.lookup key = some written)
    (hp : p (key, written) = true) : (entries.filter p).lookup key = some written := by
  induction entries with
  | nil => cases h
  | cons entry entries ih =>
    obtain ⟨other, value⟩ := entry
    rw [List.lookup_cons] at h
    by_cases hkey : key = other
    · subst hkey
      rw [beq_self_eq_true] at h
      cases h
      rw [List.filter_cons_of_pos hp, List.lookup_cons, beq_self_eq_true]
    · have hne : (key == other) = false := beq_eq_false_iff_ne.2 hkey
      rw [hne] at h
      by_cases hother : p (other, value) = true
      · rw [List.filter_cons_of_pos hother, List.lookup_cons, hne]
        exact ih h
      · rw [List.filter_cons_of_neg hother]
        exact ih h

/-- A look-up that does not fail finds the same among the attributes that can be read. -/
theorem Attributes.value?_sound {a : Attributes} {key : String} {value : Option String}
    (h : a.value? key = .ok value) : a.sound.written.value? key = .ok value := by
  unfold Attributes.value? at h
  rw [SoundAttributes.value?_written, SoundAttributes.get?]
  cases hlookup : a.entries.lookup key with
  | some written =>
    rw [hlookup] at h
    cases hread : unescape written with
    | error fault => simp only [hread] at h; cases h
    | ok cs =>
      simp only [hread] at h
      rw [← Except.ok.inj h, sound, lookup_filter hlookup (by rw [hread]; rfl)]
      simp [hread, Except.toOption]
  | none =>
    rw [hlookup] at h
    have hnone : a.sound.written.entries.lookup key = none := by
      rw [List.lookup_eq_none_iff] at hlookup ⊢
      exact fun entry hentry => hlookup entry (List.mem_filter.1 hentry).1
    cases hfault : a.fault with
    | some fault => simp only [hfault] at h; cases h
    | none =>
      simp only [hfault] at h
      rw [← Except.ok.inj h, hnone]
      rfl

/-- An element as it counts: with the attributes that can be read. -/
def Element.sound (e : Element) : Element := { e with attributes := e.attributes.sound.written }

/-- An event as it counts. -/
def Event.sound : Event → Event
  | .opening e => .opening e.sound
  | .closing name depth => .closing name depth

/-- An element with what stands inside it, and the line on which its tag begins. -/
inductive Tree where
  | node (name : String) (attributes : SoundAttributes) (line : Nat) (children : List Tree)

namespace Tree

def name : Tree → String
  | node name .. => name

def attributes : Tree → SoundAttributes
  | node _ attributes .. => attributes

def line : Tree → Nat
  | node _ _ line _ => line

def children : Tree → List Tree
  | node _ _ _ children => children

/-- The value of an attribute, if the element has it. -/
def attribute? (t : Tree) (key : String) : Option String := t.attributes.get? key

def childrenNamed (t : Tree) (name : String) : List Tree := t.children.filter (·.name = name)

/-- The element that a tree opens inside the element with a name, below as many elements as its depth
says. -/
def element (t : Tree) (parent : Option String) (depth : Nat) : Element :=
  { name := t.name, parent, depth, attributes := t.attributes.written, line := t.line }

mutual
/-- The events of a tree: its element opens, what stands inside follows, and it closes. -/
def events (parent : Option String) (depth : Nat) : Tree → List Event
  | node name attributes line children =>
    .opening ((node name attributes line children).element parent depth) ::
      (eventsOfAll (some name) (depth + 1) children ++ [.closing name depth])

def eventsOfAll (parent : Option String) (depth : Nat) : List Tree → List Event
  | [] => []
  | t :: ts => t.events parent depth ++ eventsOfAll parent depth ts
end

theorem events_eq (parent : Option String) (depth : Nat) (t : Tree) :
    t.events parent depth = .opening (t.element parent depth) ::
      (eventsOfAll (some t.name) (depth + 1) t.children ++ [.closing t.name depth]) := by
  cases t
  rfl

theorem eventsOfAll_append (parent : Option String) (depth : Nat) (ts us : List Tree) :
    eventsOfAll parent depth (ts ++ us) =
      eventsOfAll parent depth ts ++ eventsOfAll parent depth us := by
  induction ts with
  | nil => rfl
  | cons t ts ih => simp only [List.cons_append, eventsOfAll, ih, List.append_assoc]

end Tree

section Events

variable {document : List Char} {fault : Option (Nat × Fault)} {around : List (List Char)}
  {piece : Piece} {rest : List Piece} {t : Tree}

theorem eventsOfPieces_skip (noTag : piece.kind ≠ .element) (noEnd : piece.kind ≠ .closing) :
    eventsOfPieces document fault around (piece :: rest) =
      eventsOfPieces document fault around rest := by
  rw [eventsOfPieces]
  split
  · next h => exact absurd h noTag
  · next h => exact absurd h noEnd
  · rfl

theorem eventsOfPieces_closing {name : List Char} (h : piece.kind = .closing)
    (hname : closingName (piece.content.drop 1) = name) :
    eventsOfPieces document fault (name :: around) (piece :: rest) =
      ⟨.closing (localName name) around.length :: (eventsOfPieces document fault around rest).items,
        (eventsOfPieces document fault around rest).fault⟩ := by
  rw [eventsOfPieces]
  simp only [h, hname, if_true]

end Events
end GalecAudit.Markup
