import Scorebook.Markup.Document
import Scorebook.Proofs.Markup.Declaration

/-!
# The end of the last line

A document ends behind its root, and blanks there say nothing. So it makes no difference whether
the last line of a text has an end: the tokens are the same up to the last run of characters
(`Holds.snoc`, `Holds.of_snoc`), and they make up the same document (`ofTokens?_of_ended`).
-/

namespace Scorebook.Markup

open Text Source

/-- Rows of tokens of which the second has one line feed more at its end. -/
inductive Ended : List Token → List Token → Prop
  | alone : Ended [] [.characters ['\n']]
  | joined (raw : List Char) : Ended [.characters raw] [.characters (raw ++ ['\n'])]
  | cons (t : Token) {ts us : List Token} : Ended ts us → Ended (t :: ts) (t :: us)

variable {ts us : List Token} {cs : List Char}

/-! ## Characters -/

theorem occursIn_snoc {mark : List Char} (hne : mark ≠ []) {c : Char} (hc : c ∉ mark)
    (cs : List Char) : occursIn mark (cs ++ [c]) = occursIn mark cs := by
  induction cs with
  | nil =>
    obtain ⟨m, mark, rfl⟩ := List.exists_cons_of_ne_nil hne
    rw [List.mem_cons, not_or] at hc
    simp [occursIn, List.isPrefixOf, Ne.symm hc.1]
  | cons d cs ih =>
    have hprefix : mark.isPrefixOf (d :: (cs ++ [c])) = mark.isPrefixOf (d :: cs) := by
      rw [Bool.eq_iff_iff, List.isPrefixOf_iff_prefix, List.isPrefixOf_iff_prefix]
      exact prefix_append_cons_iff hc (d :: cs) []
    rw [List.cons_append, occursIn, occursIn, ih, hprefix]

theorem isRun_feed : IsRun ['\n'] :=
  ⟨by decide, by decide, by decide, by decide⟩

theorem isRun_snoc_iff {raw : List Char} (hne : raw ≠ []) :
    IsRun (raw ++ ['\n']) ↔ IsRun raw := by
  have hopen : occursIn "]]>".toList (raw ++ ['\n']) = occursIn "]]>".toList raw :=
    occursIn_snoc (by decide) (by decide) raw
  have hlegal : (raw ++ ['\n']).all isLegal = raw.all isLegal := by
    rw [List.all_append]
    exact Bool.and_true _
  have hnoTag : '<' ∈ raw ++ ['\n'] ↔ '<' ∈ raw := by simp
  constructor
  · exact fun h => ⟨hne, fun hmem => h.noTag (hnoTag.2 hmem), hlegal ▸ h.legal, hopen ▸ h.open_⟩
  · exact fun h => ⟨by simp, fun hmem => h.noTag (hnoTag.1 hmem), hlegal.trans h.legal,
      hopen.trans h.open_⟩

theorem Spelled.eq_nil (h : Spelled ts []) : ts = [] := by
  generalize htext : [] = text at h
  cases h with
  | nil => rfl
  | markup hu _ =>
    obtain ⟨tail, rfl⟩ := hu.exists_cons
    cases htext
  | characters hraw _ _ =>
    obtain ⟨c, tail, rfl⟩ := List.exists_cons_of_ne_nil hraw.ne_nil
    cases htext

theorem Spelled.single {raw : List Char} (h : IsRun raw) : Spelled [.characters raw] raw := by
  have hspelled := Spelled.characters h (stops_nil _) .nil
  rwa [List.append_nil] at hspelled

/-! ## Texts -/

theorem Spelled.snoc (h : Spelled ts cs) : ∃ us, Spelled us (cs ++ ['\n']) ∧ Ended ts us := by
  induction h with
  | nil => exact ⟨_, .single isRun_feed, .alone⟩
  | @markup t u ts cs hu _ ih =>
    obtain ⟨us, hus, hended⟩ := ih
    exact ⟨_, by rw [List.append_assoc]; exact .markup hu hus, .cons t hended⟩
  | @characters raw ts cs hraw hstops hts ih =>
    cases cs with
    | nil =>
      rw [hts.eq_nil, List.append_nil]
      exact ⟨_, .single ((isRun_snoc_iff hraw.ne_nil).2 hraw), .joined raw⟩
    | cons c cs =>
      obtain ⟨us, hus, hended⟩ := ih
      refine ⟨_, ?_, .cons _ hended⟩
      rw [List.append_assoc]
      exact .characters hraw (stops_cons (hstops c rfl) _) hus

/-- A text that ends in a line feed, split somewhere. -/
theorem snoc_eq_append {u v cs : List Char} {c : Char} (h : cs ++ [c] = u ++ v) :
    (v = [] ∧ u = cs ++ [c]) ∨ ∃ w, v = w ++ [c] ∧ cs = u ++ w := by
  rcases v.eq_nil_or_concat' with rfl | ⟨w, d, rfl⟩
  · exact .inl ⟨rfl, by simpa using h.symm⟩
  · rw [← List.append_assoc] at h
    obtain ⟨rfl, hd⟩ := List.append_inj' h rfl
    cases hd
    exact .inr ⟨w, rfl, rfl⟩

theorem Spelled.of_snoc (h : Spelled us (cs ++ ['\n'])) : ∃ ts, Spelled ts cs ∧ Ended ts us := by
  generalize htext : cs ++ ['\n'] = text at h
  induction h generalizing cs with
  | nil => simp at htext
  | @markup t u ts rest hu hrest ih =>
    rcases snoc_eq_append htext with ⟨rfl, rfl⟩ | ⟨w, rfl, rfl⟩
    · have hlast := hu.getLast_eq
      simp at hlast
    · obtain ⟨ts', hts', hended⟩ := ih rfl
      exact ⟨t :: ts', .markup hu hts', .cons t hended⟩
  | @characters raw ts rest hraw hstops hrest ih =>
    rcases snoc_eq_append htext with ⟨rfl, rfl⟩ | ⟨w, rfl, rfl⟩
    · rw [hrest.eq_nil]
      by_cases hcs : cs = []
      · rw [hcs]
        exact ⟨[], .nil, .alone⟩
      · exact ⟨_, .single ((isRun_snoc_iff hcs).1 hraw), .joined cs⟩
    · obtain ⟨ts', hts', hended⟩ := ih rfl
      exact ⟨_, .characters hraw (stops_of_append _ hstops) hts', .cons _ hended⟩

theorem Holds.snoc (h : Holds cs ts) : ∃ us, Holds (cs ++ ['\n']) us ∧ Ended ts us := by
  cases h with
  | marked hu hts =>
    obtain ⟨us, hus, hended⟩ := hts.snoc
    refine ⟨us, ?_, hended⟩
    rw [List.cons_append, List.append_assoc]
    exact .marked hu hus
  | @unmarked u rest _ hhead hu hts =>
    obtain ⟨us, hus, hended⟩ := hts.snoc
    refine ⟨us, ?_, hended⟩
    have hhead' : (u ++ rest ++ ['\n']).head? ≠ some '\uFEFF' := by
      rw [List.head?_append]
      cases hfirst : (u ++ rest).head? with
      | none => decide
      | some c =>
        rw [hfirst] at hhead
        exact hhead
    rw [List.append_assoc] at hhead' ⊢
    exact .unmarked hhead' hu hus

theorem IsDeclaration.getLast_ne {u : List Char} (h : IsDeclaration u) :
    u.getLast? ≠ some '\n' := by
  cases h with
  | missing => decide
  | stated _ _ => simp [List.getLast?_append, List.getLast?_cons]

theorem Holds.of_snoc (h : Holds (cs ++ ['\n']) us) : ∃ ts, Holds cs ts ∧ Ended ts us := by
  generalize htext : cs ++ ['\n'] = text at h
  cases h with
  | @marked u rest _ hu hus =>
    rw [← List.cons_append] at htext
    rcases snoc_eq_append htext with ⟨rfl, heq⟩ | ⟨w, rfl, rfl⟩
    · have hlast : ('\uFEFF' :: u).getLast? = some '\n' := by rw [heq]; simp
      rw [List.getLast?_cons] at hlast
      cases hu' : u.getLast? with
      | none =>
        rw [hu'] at hlast
        cases hlast
      | some c =>
        rw [hu'] at hlast
        exact absurd (hu'.trans hlast) hu.getLast_ne
    · obtain ⟨ts, hts, hended⟩ := hus.of_snoc
      exact ⟨ts, .marked hu hts, hended⟩
  | @unmarked u rest _ hhead hu hus =>
    rcases snoc_eq_append htext with ⟨rfl, rfl⟩ | ⟨w, rfl, rfl⟩
    · exact absurd (by simp) hu.getLast_ne
    · obtain ⟨ts, hts, hended⟩ := hus.of_snoc
      refine ⟨ts, .unmarked (fun hfirst => hhead ?_) hu hts, hended⟩
      rw [← List.append_assoc, List.head?_append, hfirst]
      rfl

/-! ## Documents -/

namespace Builder

/-- The document that a builder has come to. -/
def result? (b : Builder) : Option Document :=
  if b.stack.isEmpty then b.root else none

theorem stack_ne_nil_of_step_characters {b c : Builder} {raw : List Char}
    (h : b.step (.characters raw) = some c) (hb : b.stack ≠ []) : c.stack ≠ [] := by
  rw [step, if_neg hb] at h
  obtain ⟨s, -, rfl⟩ := Option.map_eq_some_iff.1 h
  obtain ⟨e, stack, hstack⟩ := List.exists_cons_of_ne_nil hb
  simp [inside, hstack]

/-- Characters are blank where a document can end. -/
theorem step_characters_result? (b : Builder) (raw : List Char) :
    (b.step (.characters raw)).bind result? = if raw.all isSpace then b.result? else none := by
  by_cases hstack : b.stack = []
  · rw [step, if_pos hstack]
    split <;> rfl
  · have hnone : b.result? = none := by
      rw [result?, if_neg (by simpa using hstack)]
    rw [hnone, ite_self]
    cases hstep : b.step (.characters raw) with
    | none => rfl
    | some c =>
      have hc := stack_ne_nil_of_step_characters hstep hstack
      rw [Option.bind_some, result?, if_neg (by simpa using hc)]

theorem foldlM_single (b : Builder) (t : Token) : [t].foldlM step b = b.step t := by
  rw [List.foldlM_cons]
  exact bind_pure _

theorem foldlM_result?_of_ended (h : Ended ts us) (b : Builder) :
    (ts.foldlM step b).bind result? = (us.foldlM step b).bind result? := by
  induction h generalizing b with
  | alone =>
    rw [foldlM_single, step_characters_result?]
    rfl
  | joined raw =>
    have hblank : (raw ++ ['\n']).all isSpace = raw.all isSpace := by
      rw [List.all_append]
      exact Bool.and_true _
    rw [foldlM_single, foldlM_single, step_characters_result?, step_characters_result?, hblank]
  | cons t _ ih =>
    rw [List.foldlM_cons, List.foldlM_cons]
    cases b.step t with
    | none => rfl
    | some c => exact ih c

end Builder

/-- **Line feeds at the end belong to no document.** -/
theorem ofTokens?_of_ended (h : Ended ts us) :
    Document.ofTokens? ts = Document.ofTokens? us :=
  Builder.foldlM_result?_of_ended h .start

end Scorebook.Markup
