import Scorebook.Markup.Document
import Scorebook.Proofs.Markup.Declaration

/-!
# Names of elements

A name of markup begins with a letter or with one of a few other characters, and so does its base,
which the element goes by. Runs of text go by a name with a number sign in front, so none of them
can be taken for an element, at whatever depth (`Document.named_of_read`).

Each start tag has such a name (`Spelled.named`), and a token leaves the elements named like this
that are open or complete (`Builder.step_named`).
-/

namespace Scorebook.Markup

/-! ## Tokens -/

theorem beginsName_of_splitName {cs : List Char} {name : Name} (h : splitName cs = some name) :
    beginsName name.base.toList = true := by
  unfold splitName at h
  dsimp only at h
  split at h
  · split_ifs at h with hbegins
    cases h
    rwa [String.toList_ofList]
  · split_ifs at h with hparts
    cases h
    rw [Bool.and_eq_true, Bool.and_eq_true] at hparts
    rw [String.toList_ofList]
    exact hparts.1.2

/-- A start tag has a base that begins like a name. -/
def Token.Named : Token → Prop
  | .start name _ _ => beginsName name.base.toList = true
  | _ => True

theorem Written.named {t : Token} {u : List Char} (h : Written t u) : t.Named := by
  cases h with
  | start hname _ => exact beginsName_of_splitName hname.split
  | finish | comment | verbatim | instruction => trivial

theorem Spelled.named {ts : List Token} {cs : List Char} (h : Spelled ts cs) :
    ∀ t ∈ ts, t.Named := by
  induction h with
  | nil => simp
  | markup ht _ ih => exact List.forall_mem_cons.2 ⟨ht.named, ih⟩
  | characters _ _ _ ih => exact List.forall_mem_cons.2 ⟨trivial, ih⟩

theorem Holds.named {ts : List Token} {cs : List Char} (h : Holds cs ts) : ∀ t ∈ ts, t.Named := by
  cases h with
  | marked _ hspelled => exact hspelled.named
  | unmarked _ _ hspelled => exact hspelled.named

/-! ## Content -/

/-- The names of all elements begin like names, at every depth. -/
inductive Content.Named : Content → Prop
  | element {name : String} {attributes : List (String × String)} {children : List Content} :
      beginsName name.toList = true → (∀ c ∈ children, c.Named) →
      Named (.element name attributes children)
  | text {s : String} : Named (.text s)
  | comment {s : String} : Named (.comment s)
  | instruction {target s : String} : Named (.instruction target s)

structure Document.Named (d : Document) : Prop where
  name : beginsName d.name.toList = true
  children : ∀ c ∈ d.children, c.Named

structure OpenElement.Named (e : OpenElement) : Prop where
  name : beginsName e.name.base.toList = true
  children : ∀ c ∈ e.children, c.Named

namespace OpenElement

variable {e : OpenElement}

theorem Named.push (he : e.Named) {child : Content} (hchild : child.Named) :
    (e.push child).Named :=
  ⟨he.name, List.forall_mem_cons.2 ⟨hchild, he.children⟩⟩

theorem Named.pushText (he : e.Named) (s : String) : (e.pushText s).Named := by
  unfold OpenElement.pushText
  split
  · next t cs heq =>
    refine ⟨he.name, List.forall_mem_cons.2 ⟨.text, ?_⟩⟩
    intro c hc
    have hmem : c ∈ e.children := by
      rw [heq]
      exact List.mem_cons_of_mem _ hc
    exact he.children c hmem
  · exact ⟨he.name, List.forall_mem_cons.2 ⟨.text, he.children⟩⟩

theorem Named.close (he : e.Named) : e.close.Named := by
  refine ⟨he.name, ?_⟩
  intro c hc
  exact he.children c (List.mem_reverse.1 hc)

end OpenElement

/-! ## Building -/

namespace Builder

structure Named (b : Builder) : Prop where
  root : ∀ d, b.root = some d → d.Named
  stack : ∀ e ∈ b.stack, e.Named

variable {b c : Builder}

theorem named_add {stack : List OpenElement} {e : OpenElement} (hstack : ∀ o ∈ stack, o.Named)
    (he : e.Named) : (add stack e).Named := by
  cases stack with
  | nil =>
    refine ⟨?_, by simp [add]⟩
    intro d hd
    cases hd
    exact he.close
  | cons outer stack =>
    obtain ⟨houter, hstack⟩ := List.forall_mem_cons.1 hstack
    have hchild := he.close
    refine ⟨?_, List.forall_mem_cons.2 ⟨houter.push ?_, hstack⟩⟩
    · intro d hd
      cases hd
    · exact .element hchild.name hchild.children

theorem Named.inside (hb : b.Named) {change : OpenElement → OpenElement}
    (hchange : ∀ e : OpenElement, e.Named → (change e).Named) : (b.inside change).Named := by
  obtain ⟨root, stack⟩ := b
  cases stack with
  | nil => exact hb
  | cons e stack =>
    obtain ⟨he, hstack⟩ := List.forall_mem_cons.1 hb.stack
    exact ⟨hb.root, List.forall_mem_cons.2 ⟨hchange e he, hstack⟩⟩

/-- **One token** adds only elements that are named like this. -/
theorem step_named {t : Token} (hb : b.Named) (ht : t.Named) (h : b.step t = some c) :
    c.Named := by
  cases t with
  | start name raw closed =>
    rw [step] at h
    split at h
    · cases h
    obtain ⟨⟨scope, attributes⟩, -, h⟩ := Option.bind_eq_some_iff.1 h
    have he : OpenElement.Named ⟨name, attributes, scope, []⟩ := ⟨ht, by simp⟩
    dsimp only at h
    split at h
    · cases h
      exact named_add hb.stack he
    · cases h
      exact ⟨hb.root, List.forall_mem_cons.2 ⟨he, hb.stack⟩⟩
  | finish name =>
    rw [step] at h
    split at h
    · cases h
    next e stack hstack =>
    have hnamed := hb.stack
    rw [hstack] at hnamed
    obtain ⟨he, hrest⟩ := List.forall_mem_cons.1 hnamed
    split at h
    · cases h
      exact named_add hrest he
    · cases h
  | characters raw =>
    rw [step] at h
    split at h
    · split at h
      · cases h
        exact hb
      · cases h
    · obtain ⟨s, -, rfl⟩ := Option.map_eq_some_iff.1 h
      exact hb.inside fun e he => he.pushText s
  | verbatim content =>
    rw [step] at h
    split at h
    · cases h
    · cases h
      exact hb.inside fun e he => he.pushText _
  | comment content =>
    cases h
    exact hb.inside fun e he => he.push .comment
  | instruction target content =>
    cases h
    exact hb.inside fun e he => he.push .instruction

theorem named_start : start.Named where
  root d hd := by cases hd
  stack e he := by cases he

theorem foldlM_named {ts : List Token} (hb : b.Named) (hts : ∀ t ∈ ts, t.Named)
    (h : ts.foldlM step b = some c) : c.Named := by
  induction ts generalizing b with
  | nil =>
    cases h
    exact hb
  | cons t ts ih =>
    obtain ⟨ht, hts⟩ := List.forall_mem_cons.1 hts
    rw [List.foldlM_cons] at h
    obtain ⟨b', hstep, hrest⟩ := Option.bind_eq_some_iff.1 h
    exact ih (step_named hb ht hstep) hts hrest

end Builder

namespace Document

theorem named_of_ofTokens? {ts : List Token} {d : Document} (hts : ∀ t ∈ ts, t.Named)
    (h : ofTokens? ts = some d) : d.Named := by
  obtain ⟨b, hfold, h⟩ := Option.bind_eq_some_iff.1 h
  have hb := Builder.foldlM_named Builder.named_start hts hfold
  split at h
  · exact hb.root d h
  · cases h

/-- **No element of a document has a name that does not begin like one.** -/
theorem named_of_read {s : String} {d : Document} (h : read s = some d) : d.Named := by
  obtain ⟨ts, htokens, h⟩ := Option.bind_eq_some_iff.1 h
  exact named_of_ofTokens? (tokens?_eq_some_iff.1 htokens).named h

end Document

end Scorebook.Markup
