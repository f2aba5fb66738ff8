import Scorebook.Markup.Document
import Scorebook.Proofs.Markup.CleanUp
import Scorebook.Tree.OfMarkup

/-!
# What a tree keeps of the tokens

What a comment or an instruction says is in the document but not in its tree, where only the break
in the text around them is left. So the tree is the same if they say nothing (`ofTokens?_bare`),
and if the line ends of the text are all made line feeds (`ofTokens?_unified`), unless a carriage
return stands right in front of one.
-/

namespace Scorebook

namespace Markup

/-! ## Nothing in comments -/

mutual

/-- The content with comments and instructions that say nothing. -/
def Content.bare : Content → Content
  | .element name attributes children => .element name attributes (bareAll children)
  | .text s => .text s
  | .comment _ => .comment ""
  | .instruction _ _ => .comment ""

def Content.bareAll : List Content → List Content
  | [] => []
  | c :: cs => c.bare :: bareAll cs

end

def Document.bare (d : Document) : Document :=
  { d with children := Content.bareAll d.children }

def OpenElement.bare (e : OpenElement) : OpenElement :=
  { e with children := Content.bareAll e.children }

def Builder.bare (b : Builder) : Builder :=
  ⟨b.root.map Document.bare, b.stack.map OpenElement.bare⟩

/-- The token without what it says, if it is a comment or an instruction. -/
def Token.bare : Token → Token
  | .comment _ => .comment []
  | .instruction _ _ => .comment []
  | t => t

theorem Content.bareAll_eq_map (cs : List Content) : bareAll cs = cs.map bare := by
  induction cs with
  | nil => rfl
  | cons c cs ih => rw [bareAll, ih, List.map_cons]

namespace OpenElement

theorem bare_pushText (e : OpenElement) (s : String) :
    (e.pushText s).bare = e.bare.pushText s := by
  obtain ⟨name, attributes, scope, children⟩ := e
  match children with
  | [] => rfl
  | .element _ _ _ :: _ => rfl
  | .text _ :: _ => rfl
  | .comment _ :: _ => rfl
  | .instruction _ _ :: _ => rfl

theorem close_bare (e : OpenElement) : e.bare.close = e.close.bare := by
  simp only [close, bare, Document.bare, Content.bareAll_eq_map, List.map_reverse]

end OpenElement

namespace Builder

theorem bare_add (stack : List OpenElement) (e : OpenElement) :
    (add stack e).bare = add (stack.map OpenElement.bare) e.bare := by
  cases stack with
  | nil =>
    rw [List.map_nil, add, add, OpenElement.close_bare]
    rfl
  | cons outer stack =>
    rw [List.map_cons, add, add, OpenElement.close_bare]
    rfl

theorem bare_inside (b : Builder) {change change' : OpenElement → OpenElement}
    (h : ∀ e, (change e).bare = change' e.bare) :
    (b.inside change).bare = b.bare.inside change' := by
  obtain ⟨root, stack⟩ := b
  cases stack with
  | nil => rfl
  | cons e stack => simp [inside, bare, h]

theorem stack_bare_eq_nil_iff {b : Builder} : b.bare.stack = [] ↔ b.stack = [] :=
  List.map_eq_nil_iff

/-- **Each token does the same** where comments and instructions say nothing. -/
theorem step_bare (b : Builder) (t : Token) : b.bare.step t.bare = (b.step t).map bare := by
  cases t with
  | start name raw closed =>
    have hroot : b.bare.root.isSome = b.root.isSome := Option.isSome_map
    have hscope : b.bare.stack.head?.map OpenElement.scope =
        b.stack.head?.map OpenElement.scope := by
      show (b.stack.map OpenElement.bare).head?.map _ = _
      rw [List.head?_map, Option.map_map]
      rfl
    show b.bare.step (.start name raw closed) = _
    rw [step, step, hroot, hscope]
    split
    · rfl
    · dsimp only
      cases resolveTag ((b.stack.head?.map OpenElement.scope).getD []) name raw with
      | none => rfl
      | some tag =>
        cases closed with
        | false => rfl
        | true => exact congrArg some (bare_add b.stack ⟨name, tag.2, tag.1, []⟩).symm
  | finish name =>
    obtain ⟨root, stack⟩ := b
    cases stack with
    | nil => rfl
    | cons e stack =>
      show (if e.name = name then some (add (stack.map OpenElement.bare) e.bare) else none) =
        (if e.name = name then some (add stack e) else none).map bare
      rw [← bare_add]
      split <;> rfl
  | characters raw =>
    show b.bare.step (.characters raw) = _
    simp only [step, stack_bare_eq_nil_iff]
    split
    · split <;> rfl
    · cases resolveText raw with
      | none => rfl
      | some s => exact congrArg some (bare_inside b fun e => e.bare_pushText s).symm
  | verbatim content =>
    show b.bare.step (.verbatim content) = _
    simp only [step, stack_bare_eq_nil_iff]
    split
    · rfl
    · exact congrArg some (bare_inside b fun e => e.bare_pushText _).symm
  | comment content =>
    have hpush : ∀ e : OpenElement, (e.push (.comment (String.ofList content))).bare =
        e.bare.push (.comment "") := fun _ => rfl
    exact congrArg some (bare_inside b hpush).symm
  | instruction target content =>
    have hpush : ∀ e : OpenElement,
        (e.push (.instruction (String.ofList target) (String.ofList content))).bare =
          e.bare.push (.comment "") := fun _ => rfl
    exact congrArg some (bare_inside b hpush).symm

theorem foldlM_bare (ts : List Token) (b : Builder) :
    (ts.map Token.bare).foldlM step b.bare = (ts.foldlM step b).map bare := by
  induction ts generalizing b with
  | nil => rfl
  | cons t ts ih =>
    rw [List.map_cons, List.foldlM_cons, List.foldlM_cons, step_bare]
    cases b.step t with
    | none => rfl
    | some c => exact ih c

end Builder

theorem Document.ofTokens?_bare (ts : List Token) :
    ofTokens? (ts.map Token.bare) = (ofTokens? ts).map bare := by
  have hfold : (ts.map Token.bare).foldlM Builder.step .start =
      (ts.foldlM Builder.step .start).map Builder.bare := Builder.foldlM_bare ts .start
  rw [ofTokens?, ofTokens?, hfold]
  cases ts.foldlM Builder.step .start with
  | none => rfl
  | some b =>
    obtain ⟨root, stack⟩ := b
    cases stack <;> rfl

end Markup

namespace Node

open Markup

mutual

theorem ofContent_bare (c : Content) : ofContent c.bare = ofContent c := by
  cases c with
  | element name attributes children =>
    rw [Content.bare, ofContent, ofContent, ofContents_bareAll children]
  | text s => rfl
  | comment s => rfl
  | instruction target s => rfl

theorem ofContents_bareAll (cs : List Content) :
    ofContents (Content.bareAll cs) = ofContents cs := by
  cases cs with
  | nil => rfl
  | cons c cs =>
    rw [Content.bareAll, ofContents, ofContents, ofContent_bare c, ofContents_bareAll cs]

end

theorem ofDocument_bare (d : Document) : ofDocument d.bare = ofDocument d := by
  rw [ofDocument, ofDocument, Document.bare, ofContents_bareAll]

/-- The tree that a row of tokens makes up. -/
def ofTokens? (ts : List Token) : Option Node :=
  (Document.ofTokens? ts).map ofDocument

/-- **What comments and instructions say is not in the tree.** -/
theorem ofTokens?_bare (ts : List Token) : ofTokens? (ts.map Token.bare) = ofTokens? ts := by
  rw [ofTokens?, ofTokens?, Document.ofTokens?_bare, Option.map_map]
  congr 1
  funext d
  exact ofDocument_bare d

end Node

/-! ## Line feeds for line ends -/

namespace Markup

/-- What the token says has a carriage return right in front of a line end. -/
def Token.HasStray (t : Token) : Prop :=
  ∃ cs, t.Says cs ∧ Markup.HasStray cs

theorem Holds.hasStray {ts : List Token} {cs : List Char} (h : Holds cs ts) {t : Token}
    (ht : t ∈ ts) (hstray : t.HasStray) : HasStray cs := by
  obtain ⟨ds, hsaid, hstray⟩ := hstray
  exact hstray.trans (h.isInfix_of_said ht hsaid)

theorem Builder.step_unified (b : Builder) {t : Token} (h : ¬ t.HasStray) :
    b.step t.unified.bare = b.step t.bare := by
  cases t with
  | start name raw closed =>
    have htag : ∀ outer, resolveTag outer name (raw.map RawAttribute.unified) =
        resolveTag outer name raw := fun outer =>
      resolveTag_unified (fun a ha hstray => h ⟨_, .value name closed ha, hstray⟩) outer name
    show b.step (.start name (raw.map RawAttribute.unified) closed) =
      b.step (.start name raw closed)
    simp only [step, htag]
  | characters raw =>
    have hraw := resolveText_unified fun hstray => h ⟨raw, .characters raw, hstray⟩
    show b.step (.characters (unified raw)) = b.step (.characters raw)
    rw [step, step, all_isSpace_unified, hraw]
  | verbatim content =>
    have hcontent := resolveVerbatim_unified fun hstray => h ⟨content, .verbatim content, hstray⟩
    show b.step (.verbatim (unified content)) = b.step (.verbatim content)
    rw [step, step, hcontent]
  | finish | comment | instruction => rfl

theorem Builder.foldlM_unified {ts : List Token} (h : ∀ t ∈ ts, ¬ t.HasStray) (b : Builder) :
    ((ts.map Token.unified).map Token.bare).foldlM step b = (ts.map Token.bare).foldlM step b := by
  induction ts generalizing b with
  | nil => rfl
  | cons t ts ih =>
    simp only [List.map_cons, List.foldlM_cons, b.step_unified (h t List.mem_cons_self)]
    cases b.step t.bare with
    | none => rfl
    | some c => exact ih (fun t ht => h t (List.mem_cons_of_mem _ ht)) c

end Markup

/-- **The tree does not depend on how lines end.** -/
theorem Node.ofTokens?_unified {ts : List Markup.Token} (h : ∀ t ∈ ts, ¬ t.HasStray) :
    ofTokens? (ts.map Markup.Token.unified) = ofTokens? ts := by
  rw [← ofTokens?_bare, ← ofTokens?_bare ts, ofTokens?, ofTokens?, Markup.Document.ofTokens?,
    Markup.Document.ofTokens?, Markup.Builder.foldlM_unified h]

end Scorebook
