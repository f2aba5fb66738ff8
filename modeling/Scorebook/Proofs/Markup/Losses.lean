import Scorebook.Proofs.Markup.Ink

/-!
# Trees from which lines are taken out

Tokens without some of their lines still make up a document, because which elements are open does
not depend on what is in them (`Document.exists_of_thinned`). Its tree is the same exactly if no
section loses a line (`Node.ofTokens?_thinned`): comments and instructions are not in the tree, and
a section that loses a line loses ink.
-/

namespace Scorebook

namespace Markup

/-! ## Builders -/

def OpenElement.frame (e : OpenElement) : Name × Scope :=
  (e.name, e.scope)

theorem OpenElement.frame_pushText (e : OpenElement) (s : String) :
    (e.pushText s).frame = e.frame := by
  rw [pushText]
  split <;> rfl

namespace Builder

/-- Builders in which the same elements are open, whatever is in them. -/
structure Alike (b c : Builder) : Prop where
  root : b.root.isSome = c.root.isSome
  frames : b.stack.map OpenElement.frame = c.stack.map OpenElement.frame

variable {b c b' : Builder}

theorem Alike.stack_eq_nil_iff (h : Alike b c) : b.stack = [] ↔ c.stack = [] := by
  rw [← List.map_eq_nil_iff, h.frames, List.map_eq_nil_iff]

theorem Alike.scope (h : Alike b c) :
    b.stack.head?.map OpenElement.scope = c.stack.head?.map OpenElement.scope := by
  have hhead := congrArg (fun frames => frames.head?.map Prod.snd) h.frames
  simp only [List.head?_map, Option.map_map] at hhead
  exact hhead

theorem alike_add {stack others : List OpenElement} {e other : OpenElement}
    (h : stack.map OpenElement.frame = others.map OpenElement.frame) :
    Alike (add stack e) (add others other) := by
  match stack, others, h with
  | [], [], _ => exact ⟨rfl, rfl⟩
  | outer :: stack, outer' :: others, h => exact ⟨rfl, h⟩

theorem Alike.inside (h : Alike b c) {change change' : OpenElement → OpenElement}
    (hchange : ∀ e, (change e).frame = e.frame) (hchange' : ∀ e, (change' e).frame = e.frame) :
    Alike (b.inside change) (c.inside change') := by
  obtain ⟨root, stack⟩ := b
  obtain ⟨root', stack'⟩ := c
  match stack, stack', h with
  | [], [], h => exact h
  | e :: stack, e' :: stack', ⟨hroot, hframes⟩ =>
    refine ⟨hroot, ?_⟩
    simp only [List.map_cons, List.cons.injEq] at hframes
    simp only [Builder.inside, List.map_cons, hchange, hchange', hframes]

/-- **A token is read wherever the same elements are open**, and so is what is left of it. -/
theorem step_thinned {t t' : Token} (ht : t.Thinned t') (h : Alike b c)
    (hstep : b.step t = some b') : ∃ c', c.step t' = some c' ∧ Alike b' c' := by
  cases ht with
  | start name raw closed =>
    rw [step, h.root, h.scope] at hstep
    rw [step]
    split at hstep
    · cases hstep
    · next hroot =>
      obtain ⟨⟨scope, attributes⟩, htag, hstep⟩ := Option.bind_eq_some_iff.1 hstep
      rw [if_neg hroot]
      simp only [htag, Option.bind_eq_bind, Option.bind_some]
      dsimp only at hstep
      split at hstep
      · next hclosed =>
        cases hstep
        rw [if_pos hclosed]
        exact ⟨_, rfl, alike_add h.frames⟩
      · next hclosed =>
        cases hstep
        rw [if_neg hclosed]
        refine ⟨_, rfl, h.root, ?_⟩
        rw [List.map_cons, List.map_cons, h.frames]
  | finish name =>
    obtain ⟨root, stack⟩ := b
    obtain ⟨root', stack'⟩ := c
    cases stack with
    | nil => cases hstep
    | cons e stack =>
      cases stack' with
      | nil => cases h.frames
      | cons e' stack' =>
        obtain ⟨hframe, hframes⟩ := List.cons.inj h.frames
        have hnames : e.name = e'.name := congrArg Prod.fst hframe
        have hadd : (if e.name = name then some (add stack e) else none) = some b' := hstep
        split at hadd
        · next hname =>
          cases hadd
          exact ⟨add stack' e', if_pos (hnames ▸ hname), alike_add hframes⟩
        · cases hadd
  | characters raw =>
    rw [step] at hstep
    split at hstep
    · next hstack =>
      rw [step, if_pos (h.stack_eq_nil_iff.1 hstack)]
      split at hstep
      · next hblank =>
        cases hstep
        exact ⟨c, if_pos hblank, h⟩
      · cases hstep
    · next hstack =>
      obtain ⟨s, hs, rfl⟩ := Option.map_eq_some_iff.1 hstep
      rw [step, if_neg fun hnil => hstack (h.stack_eq_nil_iff.2 hnil), hs]
      exact ⟨_, rfl, h.inside (fun e => e.frame_pushText s) fun e => e.frame_pushText s⟩
  | verbatim _ =>
    rw [step] at hstep
    split at hstep
    · cases hstep
    · next hstack =>
      cases hstep
      rw [step, if_neg fun hnil => hstack (h.stack_eq_nil_iff.2 hnil)]
      exact ⟨_, rfl, h.inside (fun e => e.frame_pushText _) fun e => e.frame_pushText _⟩
  | comment content content' =>
    cases hstep
    exact ⟨_, rfl, h.inside (fun _ => rfl) fun _ => rfl⟩
  | instruction target content content' =>
    cases hstep
    exact ⟨_, rfl, h.inside (fun _ => rfl) fun _ => rfl⟩

theorem foldlM_thinned {ts us : List Token} (hts : List.Forall₂ Token.Thinned ts us)
    (h : Alike b c) (hfold : ts.foldlM step b = some b') :
    ∃ c', us.foldlM step c = some c' ∧ Alike b' c' := by
  induction hts generalizing b c with
  | nil =>
    cases hfold
    exact ⟨c, rfl, h⟩
  | cons ht _ ih =>
    rw [List.foldlM_cons] at hfold
    obtain ⟨b₁, hstep, hrest⟩ := Option.bind_eq_some_iff.1 hfold
    obtain ⟨c₁, hstep', h₁⟩ := step_thinned ht h hstep
    obtain ⟨c', hrest', h'⟩ := ih h₁ hrest
    exact ⟨c', by rw [List.foldlM_cons, hstep']; exact hrest', h'⟩

end Builder

theorem Document.exists_of_thinned {ts us : List Token} {d : Document}
    (hts : List.Forall₂ Token.Thinned ts us) (h : ofTokens? ts = some d) :
    ∃ e, ofTokens? us = some e := by
  obtain ⟨b, hfold, h⟩ := Option.bind_eq_some_iff.1 h
  obtain ⟨c, hfold', halike⟩ := Builder.foldlM_thinned hts ⟨rfl, rfl⟩ hfold
  split at h
  · next hstack =>
    have hroot : c.root.isSome = true := by rw [← halike.root, h]; rfl
    obtain ⟨e, he⟩ := Option.isSome_iff_exists.1 hroot
    have hstack' : c.stack.isEmpty = true :=
      List.isEmpty_iff.2 (halike.stack_eq_nil_iff.1 (List.isEmpty_iff.1 hstack))
    refine ⟨e, ?_⟩
    rw [ofTokens?, hfold']
    exact (if_pos hstack').trans he
  · cases h

/-! ## Sections -/

namespace Token

/-- No line of a section, behind the one in which it begins, begins with a document type. -/
def IsKept (t : Token) : Prop :=
  ∀ content, t = .verbatim content → ¬ HasDocumentType false content

theorem Thinned.ink {t t' : Token} (h : t.Thinned t') :
    (t'.bare = t.bare ∧ t.IsKept) ∨ (t'.ink < t.ink ∧ ¬ t.IsKept) := by
  cases h with
  | verbatim hthinned =>
    refine hthinned.ink.imp (fun ⟨heq, hnone⟩ => ⟨by rw [heq], fun _ hcontent => ?_⟩)
      fun ⟨hlt, hsome⟩ => ⟨?_, fun hkept => hkept _ rfl hsome⟩
    · cases hcontent
      exact hnone
    · rwa [Token.ink, Token.ink, ink_resolveVerbatim, ink_resolveVerbatim]
  | start | finish | characters | comment | instruction =>
    exact .inl ⟨rfl, fun _ hcontent => by cases hcontent⟩

theorem ink_bare (t : Token) : t.bare.ink = t.ink := by
  cases t <;> rfl

theorem ink_of_thinned {ts us : List Token} (h : List.Forall₂ Thinned ts us) :
    (us.map bare = ts.map bare ∧ ∀ t ∈ ts, t.IsKept) ∨
      ((us.map ink).sum < (ts.map ink).sum ∧ ∃ t ∈ ts, ¬ t.IsKept) := by
  induction h with
  | nil => exact .inl ⟨rfl, fun t ht => by cases ht⟩
  | @cons t t' ts us ht _ ih =>
    have hsum : us.map bare = ts.map bare → (us.map ink).sum = (ts.map ink).sum := fun heq => by
      have hink : ∀ row : List Token, (row.map bare).map ink = row.map ink := fun row => by
        rw [List.map_map]
        exact List.map_congr_left fun t _ => t.ink_bare
      rw [← hink, heq, hink]
    have hone : t'.bare = t.bare → t'.ink = t.ink := fun heq => by
      rw [← ink_bare, heq, ink_bare]
    simp only [List.map_cons, List.sum_cons, List.forall_mem_cons, List.exists_mem_cons_iff,
      List.cons.injEq]
    rcases ht.ink with ⟨hbare, hkept⟩ | ⟨hlt, hlost⟩ <;>
      rcases ih with ⟨hbares, hkepts⟩ | ⟨hlts, hlosts⟩
    · exact .inl ⟨⟨hbare, hbares⟩, hkept, hkepts⟩
    · exact .inr ⟨by rw [hone hbare]; omega, .inr hlosts⟩
    · exact .inr ⟨by rw [hsum hbares]; omega, .inl hlost⟩
    · exact .inr ⟨by omega, .inl hlost⟩

end Token

end Markup

/-! ## Trees -/

/-- **The tree stays the same exactly if no section loses a line.** -/
theorem Node.ofTokens?_thinned {ts us : List Markup.Token} {node : Node}
    (h : List.Forall₂ Markup.Token.Thinned ts us) (hts : ofTokens? ts = some node) :
    ∃ other, ofTokens? us = some other ∧ (other = node ↔ ∀ t ∈ ts, t.IsKept) := by
  obtain ⟨d, hd, rfl⟩ := Option.map_eq_some_iff.1 hts
  obtain ⟨e, he⟩ := Markup.Document.exists_of_thinned h hd
  have hother : ofTokens? us = some (ofDocument e) := by rw [ofTokens?, he]; rfl
  refine ⟨ofDocument e, hother, ?_⟩
  rcases Markup.Token.ink_of_thinned h with ⟨hbare, hkept⟩ | ⟨hlt, t, ht, hlost⟩
  · refine iff_of_true ?_ hkept
    rw [← ofTokens?_bare, hbare, ofTokens?_bare, hts] at hother
    exact (Option.some.inj hother).symm
  · refine iff_of_false (fun heq => ?_) fun hkept => hlost (hkept t ht)
    have hink := congrArg ink heq
    rw [ink_of_ofTokens? he, ink_of_ofTokens? hd] at hink
    omega

end Scorebook
