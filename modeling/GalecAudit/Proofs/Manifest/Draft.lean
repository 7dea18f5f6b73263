import GalecAudit.Proofs.Manifest.Tree
import GalecAudit.Proofs.Source.Induction

/-!
# Following the events of a manifest

Whether events can be followed from a draft, and to which draft they lead: for single elements, for what
stands deep inside the root, and for elements that one after the other enter something.
-/
namespace GalecAudit

open Markup (Event Tree)

namespace ManifestDraft

open Markup.Tree

variable {d d₁ d₂ : ManifestDraft} {es fs : List Event} {p q : Prop} {t : Tree} {ts : List Tree}
  {parent : Option String} {depth : Nat}

/-- Events can be followed from a draft exactly under a condition, and they lead to another draft then. -/
def Leads (d : ManifestDraft) (es : List Event) (p : Prop) (d' : ManifestDraft) : Prop :=
  ∀ r, es.foldlM step d = .ok r ↔ p ∧ r = d'

theorem return_eq_ok_iff {α : Type} {a b : α} :
    (return a : Except ManifestError α) = .ok b ↔ b = a :=
  ⟨fun h => (Except.ok.inj h).symm, fun h => h ▸ rfl⟩

theorem leads_nil : d.Leads [] True d := fun r => by
  rw [List.foldlM_nil, return_eq_ok_iff, true_and]

theorem Leads.append (h : d.Leads es p d₁) (h' : d₁.Leads fs q d₂) :
    d.Leads (es ++ fs) (p ∧ q) d₂ := by
  intro r
  rw [List.foldlM_append]
  cases hes : es.foldlM step d with
  | error e =>
    have hp : ¬ p := fun hp => by
      have hok := (h d₁).2 ⟨hp, rfl⟩
      rw [hes] at hok
      cases hok
    simp [hp, bind, Except.bind]
  | ok next =>
    obtain ⟨hp, rfl⟩ := (h next).1 hes
    simpa [hp, bind, Except.bind] using h' r

theorem Leads.congr {d' : ManifestDraft} (h : d.Leads es p d₁) (hp : q ↔ p) (hd : d' = d₁) :
    d.Leads es q d' := by
  intro r
  rw [h r, hp, hd]

/-- An element is followed by its opening, what stands inside it, and its closing. -/
theorem leads_events (ho : ∀ r, d.opening (t.element parent depth) = .ok r ↔ p ∧ r = d₁)
    (hi : d₁.Leads (eventsOfAll (some t.name) (depth + 1) t.children) q d₂) :
    d.Leads (t.events parent depth) (p ∧ q) (d₂.closing t.name depth) := by
  have hopen : d.Leads [.opening (t.element parent depth)] p d₁ := fun r => by
    rw [← ho r]
    simp [step]
  have hclose : d₂.Leads [.closing t.name depth] True (d₂.closing t.name depth) := fun r => by
    simp [step, eq_comm, pure, Except.pure, bind, Except.bind]
  have h := hopen.append (hi.append hclose)
  rw [and_true] at h
  rw [events_eq]
  exact h

section Deep

/-- Sizes belong to the variable that is open, if one is. -/
def addSizes (d : ManifestDraft) (sizes : List Nat) : ManifestDraft :=
  { d with current := d.current.map fun v => { v with dimensions := v.dimensions ++ sizes } }

theorem addSizes_nil : d.addSizes [] = d := by
  cases d with
  | mk m found inList current => cases current <;> simp [addSizes]

theorem addSizes_addSizes (ms ns : List Nat) : (d.addSizes ms).addSizes ns = d.addSizes (ms ++ ns) := by
  cases d with
  | mk m found inList current => cases current <;> simp [addSizes]

/-- The sizes that elements state can be read, if a variable is open. -/
def CanAdd (d : ManifestDraft) (ts : List Tree) : Prop :=
  d.current.isSome = true → ∀ t ∈ ts, t.size?.isSome = true

theorem canAdd_addSizes {sizes : List Nat} : (d.addSizes sizes).CanAdd ts ↔ d.CanAdd ts := by
  simp [CanAdd, addSizes]

theorem canAdd_append {us : List Tree} : d.CanAdd (ts ++ us) ↔ d.CanAdd ts ∧ d.CanAdd us := by
  unfold CanAdd
  simp only [List.mem_append, or_imp, forall_and]

theorem readDimension_eq_ok_iff {n : Nat} :
    readDimension (t.element parent depth) = .ok n ↔ t.size? = some n := by
  unfold readDimension size?
  rw [bind_eq_ok_iff, Option.bind_eq_some_iff]
  refine exists_congr fun text => and_congr required_element_eq_ok_iff ?_
  cases readSize? text <;> simp [pure, Except.pure]

theorem roleOf_of_deep {parent : String} (h : 3 ≤ depth) :
    d.roleOf (t.element (some parent) depth) =
      if t.name = "Dimension" ∧ parent = "Dimensions" then .dimension else .other := by
  have h0 : depth ≠ 0 := by omega
  have h1 : depth ≠ 1 := by omega
  have h2 : depth ≠ 2 := by omega
  simp [roleOf, element, h0, h1, h2]

theorem opening_of_deep {parent : String} (h : 3 ≤ depth) (r : ManifestDraft) :
    d.opening (t.element (some parent) depth) = .ok r ↔
      d.CanAdd (sizesAmong [(parent, t)]) ∧
        r = d.addSizes ((sizesAmong [(parent, t)]).filterMap size?) := by
  unfold opening
  rw [roleOf_of_deep h]
  by_cases hp : t.name = "Dimension" ∧ parent = "Dimensions"
  · have hs : sizesAmong [(parent, t)] = [t] := by simp [sizesAmong, hp]
    rw [if_pos hp, hs]
    dsimp only
    cases hc : d.current with
    | none =>
      have hd : d.addSizes (List.filterMap size? [t]) = d := by
        cases d
        simp_all [addSizes]
      rw [return_eq_ok_iff, hd]
      simp [CanAdd, hc]
    | some v =>
      simp only [bind_eq_ok_iff, readDimension_eq_ok_iff, return_eq_ok_iff]
      cases hn : t.size? <;> simp [CanAdd, addSizes, hc, hn]
  · have hs : sizesAmong [(parent, t)] = [] := by
      simpa [sizesAmong, and_comm] using hp
    rw [if_neg hp, hs, List.filterMap_nil, addSizes_nil]
    simp [CanAdd, return_eq_ok_iff]

theorem closing_of_deep {name : String} (h : 3 ≤ depth) : d.closing name depth = d := by
  have h1 : depth ≠ 1 := by omega
  have h2 : depth ≠ 2 := by omega
  simp [closing, h1, h2]

mutual
/-- Deep inside a list or a variable only the sizes count that belong to the open variable. -/
theorem leads_events_of_deep (parent : String) {depth : Nat} (h : 3 ≤ depth) (d : ManifestDraft) :
    ∀ t : Tree, d.Leads (t.events (some parent) depth)
      (d.CanAdd (sizesAmong ((parent, t) :: t.descendants)))
      (d.addSizes ((sizesAmong ((parent, t) :: t.descendants)).filterMap size?))
  | .node name attributes line children => by
    have hcons : sizesAmong ((parent, .node name attributes line children) ::
        descendants (.node name attributes line children)) =
          sizesAmong [(parent, .node name attributes line children)] ++
            sizesAmong (descendantsOfAll name children) := sizesAmong_append [_] _
    refine (leads_events (opening_of_deep h)
      (leads_eventsOfAll_of_deep name (Nat.le_succ_of_le h) _ children)).congr ?_ ?_
    · rw [hcons, canAdd_append, canAdd_addSizes]
    · rw [hcons, closing_of_deep h, addSizes_addSizes, List.filterMap_append]

theorem leads_eventsOfAll_of_deep (parent : String) {depth : Nat} (h : 3 ≤ depth)
    (d : ManifestDraft) : ∀ ts : List Tree, d.Leads (eventsOfAll (some parent) depth ts)
      (d.CanAdd (sizesAmong (descendantsOfAll parent ts)))
      (d.addSizes ((sizesAmong (descendantsOfAll parent ts)).filterMap size?))
  | [] => by
    have hadd : d.CanAdd [] := fun _ t ht => by cases ht
    exact leads_nil.congr (iff_true_intro hadd) addSizes_nil
  | t :: ts => by
    have hcons : descendantsOfAll parent (t :: ts) =
        ((parent, t) :: t.descendants) ++ descendantsOfAll parent ts := rfl
    refine ((leads_events_of_deep parent h d t).append
      (leads_eventsOfAll_of_deep parent h _ ts)).congr ?_ ?_
    · rw [hcons, sizesAmong_append, canAdd_append, canAdd_addSizes]
    · rw [hcons, sizesAmong_append, addSizes_addSizes, List.filterMap_append]
end

end Deep

section Entries

/-- Some more variables, files and references of a manifest. -/
def enter (d : ManifestDraft) (vs : List ListedVariable) (fs : List ListedFile)
    (rs : List ManifestReference) : ManifestDraft :=
  { d with manifest := { d.manifest with
      listed := d.manifest.listed ++ vs
      files := d.manifest.files ++ fs
      references := d.manifest.references ++ rs } }

theorem enter_nil : d.enter [] [] [] = d := by simp [enter]

theorem enter_enter (vs vs' : List ListedVariable) (fs fs' : List ListedFile)
    (rs rs' : List ManifestReference) :
    (d.enter vs fs rs).enter vs' fs' rs' = d.enter (vs ++ vs') (fs ++ fs') (rs ++ rs') := by
  simp [enter]

/-- What stands deep inside leaves a draft as it is unless a variable is open. -/
theorem leads_eventsOfAll_of_idle (parent : String) (ts : List Tree) (h : 3 ≤ depth)
    (hc : d.current = none) : d.Leads (eventsOfAll (some parent) depth ts) True d := by
  refine (leads_eventsOfAll_of_deep parent h d ts).congr (iff_of_true trivial ?_) ?_
  · intro hsome
    rw [hc] at hsome
    cases hsome
  · cases d
    simp_all [addSizes]

theorem isVariable_iff : t.IsVariable ↔ t.name = "Variable" ∨ (typeOfElement? t.name).isSome := by
  unfold IsVariable typeOfElement?
  split <;> simp_all

/-- The variable of an element before what stands inside it is read. -/
theorem readVariable?_eq_ok_iff {r : Option ListedVariable} :
    readVariable? (t.element parent depth) = .ok r ↔
      (t.IsVariable → t.IsTyped) ∧
        r = if t.IsVariable then some { t.asVariable with dimensions := [] } else none := by
  unfold readVariable?
  have hname : (t.element parent depth).name = t.name := rfl
  have hline : (t.element parent depth).line = t.line := rfl
  rw [hname, hline]
  cases ht : typeOfElement? t.name with
  | some type =>
    have hne : t.name ≠ "Variable" := fun h => by
      rw [h] at ht
      cases ht
    have hv : t.IsVariable := isVariable_iff.2 (.inr (by rw [ht]; rfl))
    have htype : t.type? = some type := by rw [type?, if_neg hne, ht]
    have hcausality : t.causality = .ofText ((t.attribute? "blockCausality").getD "") := if_neg hne
    simp only [bind_eq_ok_iff, optional_element, required_element_eq_ok_iff, return_eq_ok_iff, hv,
      IsTyped, htype, asVariable, hcausality, Except.ok.injEq, if_true, true_imp_iff]
    cases t.attribute? "name" <;> simp
  | none =>
    by_cases hg : t.name = "Variable"
    · have hv : t.IsVariable := isVariable_iff.2 (.inl hg)
      have hcausality : t.causality = .unspecified := if_pos hg
      have htype : t.type? = (t.attribute? "type").bind PrimitiveType.ofName? := if_pos hg
      simp only [if_pos hg, hv, bind_eq_ok_iff, required_element_eq_ok_iff, IsTyped, asVariable,
        hcausality, htype, if_true, true_imp_iff]
      cases hword : t.attribute? "type" with
      | none => simp
      | some word =>
        cases hp : PrimitiveType.ofName? word with
        | none => simp [hp]
        | some type =>
          simp only [hp, Option.some.injEq, exists_eq_left', Option.bind_some, bind_eq_ok_iff,
            required_element_eq_ok_iff, return_eq_ok_iff]
          cases t.attribute? "name" <;> simp
    · have hv : ¬ t.IsVariable := by
        rw [isVariable_iff, ht]
        simp [hg]
      simp only [if_neg hg, hv, return_eq_ok_iff, if_false, false_imp_iff, true_and]

/-- Elements one after the other enter what each of them stands for, where that depends on nothing that
entering changes. -/
theorem leads_eventsOfAll (parent : Option String) (depth : Nat) (ts : List Tree)
    (invariant : ManifestDraft → Prop) {ok : Tree → Prop}
    {vs : Tree → List ListedVariable} {fs : Tree → List ListedFile}
    {rs : Tree → List ManifestReference}
    (hstep : ∀ d, invariant d → ∀ t ∈ ts,
      d.Leads (t.events parent depth) (ok t) (d.enter (vs t) (fs t) (rs t)))
    (henter : ∀ d vs fs rs, invariant d → invariant (d.enter vs fs rs)) (hd : invariant d) :
    d.Leads (eventsOfAll parent depth ts) (∀ t ∈ ts, ok t)
      (d.enter (ts.flatMap vs) (ts.flatMap fs) (ts.flatMap rs)) := by
  induction ts generalizing d with
  | nil => exact leads_nil.congr (by simp) enter_nil
  | cons t ts ih =>
    have hfirst := hstep d hd t (List.mem_cons_self ..)
    have hrest := ih (fun d hd u hu => hstep d hd u (List.mem_cons_of_mem _ hu))
      (henter _ (vs t) (fs t) (rs t) hd)
    refine (hfirst.append hrest).congr List.forall_mem_cons ?_
    rw [enter_enter, List.flatMap_cons, List.flatMap_cons, List.flatMap_cons]

/-- No variable is open, and the list of variables is open or not. -/
def Idle (inList : Bool) (d : ManifestDraft) : Prop := d.isInList = inList ∧ d.current = none

theorem Idle.enter {inList : Bool} {vs : List ListedVariable} {fs : List ListedFile}
    {rs : List ManifestReference} (h : d.Idle inList) : (d.enter vs fs rs).Idle inList := h

end Entries
end ManifestDraft
end GalecAudit
