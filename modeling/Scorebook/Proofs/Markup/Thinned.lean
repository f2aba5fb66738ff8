import Scorebook.Proofs.Markup.Declaration
import Scorebook.Tree.OfMarkup

/-!
# Markup without some of its lines

Lines that begin with a document type are taken out of a text before its tokens are known. Between
tokens there is no such line: the mark of a document type begins with a bracket, and no token
begins as the mark does. So if the text has tokens at all, a line that is taken out lies in a
section, a comment or an instruction (`Holds.thinned`), as long as none of these ends in that line
too.
-/

namespace Scorebook.Markup

open Text Source

/-! ## Lines that are taken out -/

/-- The line ahead begins with a document type, blanks aside. -/
def BeginsDocumentType (cs : List Char) : Prop :=
  ∃ blanks rest, cs = blanks ++ (Node.documentTypeMark.toList ++ rest) ∧
    ∀ c ∈ blanks, isBlank c = true ∧ c ≠ '\n'

/-- A line that begins with a document type and in which nothing ends. -/
structure IsDropped (line : List Char) : Prop where
  noFeed : '\n' ∉ line
  begins : BeginsDocumentType line
  closes : ∀ mark ∈ closingMarks, occursIn mark line = false

/-- A text and what is left of it without the lines that begin with a document type, in none of
which anything ends. At the beginning a line starts, or not. -/
inductive Thinned : Bool → List Char → List Char → Prop
  | nil {start : Bool} : Thinned start [] []
  | keep {start : Bool} {c : Char} {cs ds : List Char} :
      (start = true → ¬ BeginsDocumentType (c :: cs)) → Thinned (c = '\n') cs ds →
      Thinned start (c :: cs) (c :: ds)
  | drop {line cs ds : List Char} : IsDropped line → Thinned true cs ds →
      Thinned true (line ++ '\n' :: cs) ds

theorem BeginsDocumentType.append {cs : List Char} (h : BeginsDocumentType cs) (ds : List Char) :
    BeginsDocumentType (cs ++ ds) := by
  obtain ⟨blanks, rest, rfl, hblanks⟩ := h
  exact ⟨blanks, rest ++ ds, by simp only [List.append_assoc], hblanks⟩

/-- A text without brackets in front leaves the beginning of a document type to what follows. -/
theorem BeginsDocumentType.of_append {u cs : List Char} (h : BeginsDocumentType (u ++ cs))
    (hu : '<' ∉ u) : BeginsDocumentType cs ∧ ∀ c ∈ u, isBlank c = true := by
  obtain ⟨blanks, rest, heq, hblanks⟩ := h
  rcases List.append_eq_append_iff.1 heq with ⟨v, rfl, rfl⟩ | ⟨v, rfl, hv⟩
  · exact ⟨⟨v, rest, rfl, fun c hc => hblanks c (List.mem_append_right u hc)⟩,
      fun c hc => (hblanks c (List.mem_append_left v hc)).1⟩
  · cases v with
    | nil =>
      rw [List.append_nil]
      exact ⟨⟨[], rest, hv.symm, by simp⟩, fun c hc => (hblanks c hc).1⟩
    | cons d v =>
      obtain ⟨rfl, -⟩ := List.cons.inj hv
      exact absurd (List.mem_append_right blanks List.mem_cons_self) hu

theorem isDocumentTypeLine_iff {line : List Char} (hline : '\n' ∉ line) :
    Node.isDocumentTypeLine (String.ofList line) = true ↔ BeginsDocumentType line := by
  have hmark : Stops isBlank Node.documentTypeMark.toList := by decide
  rw [Node.isDocumentTypeLine, List.isPrefixOf_iff_prefix, trimStart, String.toList_ofList,
    String.toList_ofList]
  constructor
  · rintro ⟨rest, hrest⟩
    refine ⟨line.takeWhile isBlank, rest, ?_, fun c hc => ⟨List.mem_takeWhile_imp hc, ?_⟩⟩
    · rw [hrest, List.takeWhile_append_dropWhile]
    · rintro rfl
      exact hline ((List.takeWhile_prefix isBlank).subset hc)
  · rintro ⟨blanks, rest, rfl, hblanks⟩
    have hstops : Stops isBlank (Node.documentTypeMark.toList ++ rest) := stops_cons rfl _
    rw [dropWhile_append_stops (fun c hc => (hblanks c hc).1) hstops]
    exact List.prefix_append _ _

namespace Thinned

variable {start : Bool} {cs ds u : List Char}

/-! ## Characters that are kept -/

theorem keep_line (hu : '\n' ∉ u) (h : Thinned false (u ++ cs) ds) :
    ∃ ds', ds = u ++ ds' ∧ Thinned false cs ds' := by
  induction u generalizing ds with
  | nil => exact ⟨ds, rfl, h⟩
  | cons c u ih =>
    rw [List.mem_cons, not_or] at hu
    rw [List.cons_append] at h
    cases h with
    | keep _ h =>
      rw [decide_eq_false (Ne.symm hu.1)] at h
      obtain ⟨ds', rfl, hrest⟩ := ih hu.2 h
      exact ⟨ds', rfl, hrest⟩

theorem keep_head {c : Char} (hc : isBlank c = false)
    (hmark : ¬ Node.documentTypeMark.toList <+: c :: cs) (h : Thinned start (c :: cs) ds) :
    ∃ ds', ds = c :: ds' ∧ Thinned (c = '\n') cs ds' := by
  generalize htext : c :: cs = text at h
  cases h with
  | nil => cases htext
  | keep _ h =>
    cases htext
    exact ⟨_, rfl, h⟩
  | drop hline _ =>
    exfalso
    obtain ⟨blanks, rest, rfl, hblanks⟩ := hline.begins
    cases blanks with
    | nil => exact hmark (htext ▸ (List.prefix_append _ rest).trans (List.prefix_append _ _))
    | cons b blanks =>
      cases htext
      rw [(hblanks c List.mem_cons_self).1] at hc
      cases hc

/-- What is kept if no line in it begins with a document type. -/
theorem keep_all (hu : ∀ v, v <:+ u → v ≠ [] → ¬ BeginsDocumentType (v ++ cs))
    (h : Thinned start (u ++ cs) ds) : ∃ start' ds', ds = u ++ ds' ∧ Thinned start' cs ds' := by
  induction u generalizing start ds with
  | nil => exact ⟨start, ds, rfl, h⟩
  | cons c u ih =>
    generalize htext : c :: u ++ cs = text at h
    cases h with
    | nil => cases htext
    | keep _ h =>
      cases htext
      obtain ⟨start', ds', rfl, hrest⟩ :=
        ih (fun v hv => hu v (hv.trans (List.suffix_cons c u))) h
      exact ⟨start', ds', rfl, hrest⟩
    | drop hline _ =>
      exact absurd (htext ▸ hline.begins.append _) (hu _ List.suffix_rfl (List.cons_ne_nil c u))

theorem keep_tag (hu : '<' ∉ u) (hlast : ∀ c, u.getLast? = some c → isBlank c = false)
    (h : Thinned start (u ++ cs) ds) : ∃ start' ds', ds = u ++ ds' ∧ Thinned start' cs ds' := by
  refine keep_all (fun v hv hne hbegins => ?_) h
  obtain ⟨-, hblank⟩ := hbegins.of_append fun hmem => hu (hv.subset hmem)
  have hsome : v.getLast? = some (v.getLast hne) := List.getLast?_eq_some_getLast hne
  have hend : isBlank (v.getLast hne) = false := by
    refine hlast _ ?_
    obtain ⟨w, rfl⟩ := hv
    rw [List.getLast?_append, hsome]
    rfl
  rw [hblank _ (List.getLast_mem hne)] at hend
  cases hend

theorem keep_run (hu : '<' ∉ u) (hstops : Stops isRunChar cs)
    (hmark : ¬ Node.documentTypeMark.toList <+: cs) (h : Thinned start (u ++ cs) ds) :
    ∃ start' ds', ds = u ++ ds' ∧ Thinned start' cs ds' := by
  refine keep_all (fun v hv hne hbegins => ?_) h
  obtain ⟨⟨blanks, rest, rfl, hblanks⟩, -⟩ := hbegins.of_append fun hmem => hu (hv.subset hmem)
  cases blanks with
  | nil => exact hmark (List.prefix_append _ rest)
  | cons b blanks =>
    have hb : b = '<' := by simpa [isRunChar] using hstops b rfl
    have hblank := (hblanks b List.mem_cons_self).1
    rw [hb] at hblank
    cases hblank

/-! ## What ends in no line that is taken out -/

/-- **What is taken out ends before a closing mark.** -/
theorem cut {content mark rest : List Char} (hmark : mark ∈ closingMarks)
    (h : Thinned start (content ++ (mark ++ rest)) ds) :
    ∃ content' rest', ds = content' ++ (mark ++ rest') ∧ Thinned start content content' ∧
      Thinned false rest rest' := by
  obtain ⟨hne, -, hfeed⟩ := closingMark_inLine hmark
  generalize htext : content ++ (mark ++ rest) = text at h
  induction h generalizing content with
  | nil => simp [hne] at htext
  | @keep start c cs ds hkeep h ih =>
    cases content with
    | nil =>
      obtain ⟨m, mark, rfl⟩ := List.exists_cons_of_ne_nil hne
      cases htext
      rw [List.mem_cons, not_or] at hfeed
      rw [decide_eq_false (Ne.symm hfeed.1)] at h
      obtain ⟨ds', rfl, hrest⟩ := h.keep_line hfeed.2
      exact ⟨[], ds', rfl, .nil, hrest⟩
    | cons d content =>
      cases htext
      obtain ⟨content', rest', rfl, hcontent, hrest⟩ := ih rfl
      exact ⟨c :: content', rest', rfl,
        .keep (fun hstart hbegins => hkeep hstart (hbegins.append _)) hcontent, hrest⟩
  | @drop line cs ds hline h ih =>
    rcases List.append_eq_append_iff.1 htext with ⟨a, rfl, ha⟩ | ⟨a, rfl, ha⟩
    · refine absurd (hline.closes mark hmark) (Bool.not_eq_false _ ▸ ?_)
      rcases List.append_eq_append_iff.1 ha with ⟨b, rfl, -⟩ | ⟨b, rfl, hb⟩
      · exact occursIn_iff.2 ⟨content, b, by rw [List.append_assoc]⟩
      · cases b with
        | nil => exact occursIn_iff.2 ⟨content, [], by simp⟩
        | cons d b =>
          obtain ⟨rfl, -⟩ := List.cons.inj hb
          exact absurd (List.mem_append_right a List.mem_cons_self) hfeed
    · cases a with
      | nil =>
        obtain ⟨m, mark, rfl⟩ := List.exists_cons_of_ne_nil hne
        obtain ⟨rfl, -⟩ := List.cons.inj ha
        exact absurd List.mem_cons_self hfeed
      | cons d a =>
        obtain ⟨rfl, rfl⟩ := List.cons.inj ha
        obtain ⟨content', rest', rfl, hcontent, hrest⟩ := ih rfl
        exact ⟨content', rest', rfl, .drop hline hcontent, hrest⟩

/-! ## What is not there afterwards either -/

theorem mem (h : Thinned start cs ds) {c : Char} (hc : c ∈ ds) : c ∈ cs := by
  induction h with
  | nil => exact hc
  | keep _ _ ih =>
    rcases List.mem_cons.1 hc with rfl | hc
    · exact List.mem_cons_self
    · exact List.mem_cons_of_mem _ (ih hc)
  | drop _ _ ih => exact List.mem_append_right _ (List.mem_cons_of_mem _ (ih hc))

theorem all {p : Char → Bool} (h : Thinned start cs ds) (hp : cs.all p = true) :
    ds.all p = true := by
  rw [List.all_eq_true] at hp ⊢
  exact fun c hc => hp c (h.mem hc)

/-- The rest of a line stays what it is. -/
theorem isPrefix_of_isPrefix {mark rest : List Char} (hmark : '\n' ∉ mark) (h : Thinned false cs ds)
    (hp : mark <+: ds ++ rest) : mark <+: cs ++ rest := by
  induction mark generalizing cs ds with
  | nil => exact List.nil_prefix
  | cons m mark ih =>
    rw [List.mem_cons, not_or] at hmark
    cases h with
    | nil => exact hp
    | @keep _ c cs ds _ h =>
      rw [List.cons_append, List.cons_prefix_cons] at hp
      rw [← hp.1, decide_eq_false (Ne.symm hmark.1)] at h
      exact List.cons_prefix_cons.2 ⟨hp.1, ih hmark.2 h hp.2⟩

theorem occursIn_of_occursIn {mark rest : List Char} (hne : mark ≠ []) (hmark : '\n' ∉ mark)
    (h : Thinned start cs ds) (hoccurs : occursIn mark (ds ++ rest) = true) :
    occursIn mark (cs ++ rest) = true := by
  induction h with
  | nil => exact hoccurs
  | @keep start c cs ds _ h ih =>
    rw [List.cons_append, occursIn, Bool.or_eq_true, List.isPrefixOf_iff_prefix] at hoccurs ⊢
    refine hoccurs.imp (fun hp => ?_) ih
    obtain ⟨m, mark, rfl⟩ := List.exists_cons_of_ne_nil hne
    rw [List.mem_cons, not_or] at hmark
    rw [List.cons_prefix_cons] at hp
    rw [← hp.1, decide_eq_false (Ne.symm hmark.1)] at h
    exact List.cons_prefix_cons.2 ⟨hp.1, h.isPrefix_of_isPrefix hmark.2 hp.2⟩
  | @drop line cs ds _ _ ih =>
    obtain ⟨before, after, heq⟩ := occursIn_iff.1 (ih hoccurs)
    refine occursIn_iff.2 ⟨line ++ '\n' :: before, after, ?_⟩
    rw [List.append_assoc, List.cons_append, heq]
    simp only [List.append_assoc, List.cons_append]

theorem eq_nil (h : Thinned start [] ds) : ds = [] := by
  generalize htext : [] = text at h
  cases h with
  | nil => rfl
  | keep => cases htext
  | drop => simp at htext

theorem eq_nil_of_eq_nil (h : Thinned false cs []) : cs = [] := by
  cases h with
  | nil => rfl

theorem getLast_of_getLast {c : Char} (hc : c ≠ '\n') (h : Thinned start cs ds)
    (hlast : ds.getLast? = some c) : cs.getLast? = some c := by
  induction h with
  | nil => exact hlast
  | @keep start d cs ds _ h ih =>
    cases ds with
    | nil =>
      obtain rfl : d = c := by simpa using hlast
      rw [decide_eq_false hc] at h
      rw [h.eq_nil_of_eq_nil]
      rfl
    | cons e ds =>
      rw [List.getLast?_cons_cons] at hlast
      rw [List.getLast?_cons, ih hlast]
      rfl
  | drop _ _ ih => simp [List.getLast?_append, List.getLast?_cons, ih hlast]

theorem stops {p : Char → Bool} (h : Thinned false cs ds) (hstops : Stops p cs) : Stops p ds := by
  cases h with
  | nil => exact hstops
  | keep _ _ => exact stops_cons (hstops _ rfl) _

theorem line_append (hu : '\n' ∉ u) (h : Thinned false cs ds) :
    Thinned false (u ++ cs) (u ++ ds) := by
  induction u with
  | nil => exact h
  | cons c u ih =>
    rw [List.mem_cons, not_or] at hu
    have hrest := ih hu.2
    rw [← decide_eq_false (Ne.symm hu.1)] at hrest
    exact .keep (fun hstart => by cases hstart) hrest

theorem closes {mark content content' : List Char} (hmark : mark ∈ closingMarks)
    (h : Thinned start content content') (hcloses : Closes mark content) :
    Closes mark content' := by
  obtain ⟨hne, -, hfeed⟩ := closingMark_inLine hmark
  rw [Closes, Bool.eq_false_iff] at hcloses ⊢
  exact fun hoccurs => hcloses (h.occursIn_of_occursIn hne hfeed hoccurs)

end Thinned

/-! ## Tokens -/

/-- A token and what is left of it: only a section, a comment or an instruction loses lines. -/
inductive Token.Thinned : Token → Token → Prop
  | start (name : Name) (as : List RawAttribute) (closed : Bool) :
      Thinned (.start name as closed) (.start name as closed)
  | finish (name : Name) : Thinned (.finish name) (.finish name)
  | characters (raw : List Char) : Thinned (.characters raw) (.characters raw)
  | verbatim {content content' : List Char} : Markup.Thinned false content content' →
      Thinned (.verbatim content) (.verbatim content')
  | comment (content content' : List Char) : Thinned (.comment content) (.comment content')
  | instruction (target content content' : List Char) :
      Thinned (.instruction target content) (.instruction target content')

variable {start : Bool} {t : Token} {ts : List Token} {u cs ds : List Char}

/-- Behind its first bracket a tag has no other, and it ends with a bracket. -/
theorem thinned_tag {more : List Char} (hmore : '<' ∉ more) (hlast : more.getLast? = some '>')
    (hmark : ¬ Node.documentTypeMark.toList <+: '<' :: more ++ cs)
    (h : Thinned start ('<' :: more ++ cs) ds) :
    ∃ start' ds', ds = '<' :: more ++ ds' ∧ Thinned start' cs ds' := by
  obtain ⟨ds₁, rfl, h₁⟩ := h.keep_head rfl hmark
  have hblank : ∀ c, more.getLast? = some c → isBlank c = false := fun c hc => by
    rw [hlast] at hc
    cases hc
    rfl
  obtain ⟨start', ds', rfl, hrest⟩ := h₁.keep_tag hmore hblank
  exact ⟨start', ds', rfl, hrest⟩

theorem isLegal_of_isSpace {c : Char} (h : isSpace c = true) : isLegal c = true := by
  simp only [isSpace, Bool.or_eq_true, decide_eq_true_eq] at h
  rcases h with ((rfl | rfl) | rfl) | rfl <;> rfl

/-- The opening mark of a section, a comment or an instruction stays. -/
theorem thinned_opening (more : List Char) (hmore : '\n' ∉ more)
    (hmark : ¬ Node.documentTypeMark.toList <+: '<' :: (more ++ cs))
    (h : Thinned start ('<' :: (more ++ cs)) ds) :
    ∃ ds', ds = '<' :: (more ++ ds') ∧ Thinned false cs ds' := by
  obtain ⟨ds₁, rfl, h₁⟩ := h.keep_head rfl hmark
  obtain ⟨ds', rfl, hrest⟩ := h₁.keep_line hmore
  exact ⟨ds', rfl, hrest⟩

/-- **What is left of a token is a token**, of the same kind. -/
theorem Written.thinned (ht : Written t u) (hmark : ¬ Node.documentTypeMark.toList <+: u ++ cs)
    (h : Thinned start (u ++ cs) ds) :
    ∃ t' u' start' ds', ds = u' ++ ds' ∧ Written t' u' ∧ t.Thinned t' ∧
      Markup.Thinned start' cs ds' := by
  have hhyphens : '\n' ∉ "--".toList := by decide
  cases ht with
  | @start name as closed u us hname hus =>
    have hmore : '<' ∉ u ++ us := by simp [notMem_of_isName hname, hus.notMem]
    have hlast : (u ++ us).getLast? = some '>' := by simp [List.getLast?_append, hus.getLast_eq]
    obtain ⟨start', ds', rfl, hrest⟩ := thinned_tag hmore hlast hmark h
    exact ⟨_, _, start', ds', rfl, .start hname hus, .start name as closed, hrest⟩
  | @finish name u spaces hname hspaces =>
    have hmore : '<' ∉ '/' :: (u ++ (spaces ++ ['>'])) := by
      simp [notMem_of_isName hname, notMem_of_spaces hspaces]
    have hlast : ('/' :: (u ++ (spaces ++ ['>']))).getLast? = some '>' := by
      simp [List.getLast?_cons]
    obtain ⟨start', ds', rfl, hrest⟩ := thinned_tag hmore hlast hmark h
    exact ⟨_, _, start', ds', rfl, .finish hname hspaces, .finish name, hrest⟩
  | @comment content hlegal hcloses hnone hlast =>
    rw [List.append_assoc, List.append_assoc] at h hmark
    obtain ⟨ds₁, rfl, h₁⟩ := thinned_opening "!--".toList (by decide) hmark h
    obtain ⟨content', ds', rfl, hcontent, hrest⟩ := h₁.cut (by decide)
    refine ⟨_, "<!--".toList ++ (content' ++ "-->".toList), false, ds', ?_,
      .comment (hcontent.all hlegal) (hcontent.closes (by decide) hcloses) ?_
        fun hlast' => hlast (hcontent.getLast_of_getLast (by decide) hlast'),
      .comment content content', hrest⟩
    · rw [List.append_assoc, List.append_assoc]
      rfl
    · rw [Bool.eq_false_iff] at hnone ⊢
      intro hoccurs
      rw [← List.append_nil content'] at hoccurs
      have := hcontent.occursIn_of_occursIn (by decide) hhyphens hoccurs
      rw [List.append_nil] at this
      exact hnone this
  | @verbatim content hlegal hcloses =>
    rw [List.append_assoc, List.append_assoc] at h hmark
    obtain ⟨ds₁, rfl, h₁⟩ := thinned_opening "![CDATA[".toList (by decide) hmark h
    obtain ⟨content', ds', rfl, hcontent, hrest⟩ := h₁.cut (by decide)
    refine ⟨_, "<![CDATA[".toList ++ (content' ++ "]]>".toList), false, ds', ?_,
      .verbatim (hcontent.all hlegal) (hcontent.closes (by decide) hcloses), .verbatim hcontent,
      hrest⟩
    rw [List.append_assoc, List.append_assoc]
    rfl
  | @instruction target body htarget hbegins hstops hxml hlegal hcloses =>
    have hfeed : '\n' ∉ target := fun hmem => absurd (htarget _ hmem) (by decide)
    have hopening : '\n' ∉ '?' :: target := by simp [hfeed]
    rw [List.append_assoc, List.append_assoc, List.append_assoc] at h hmark
    obtain ⟨ds₁, rfl, h₁⟩ := thinned_opening ('?' :: target) hopening hmark h
    obtain ⟨body', ds', rfl, hbody, hrest⟩ := h₁.cut (by decide)
    have hxml' : ¬ "xml ".toList <+: target ++ body' := fun hp => by
      rw [← List.append_nil (target ++ body')] at hp
      have hp' := (hbody.line_append hfeed).isPrefix_of_isPrefix (by decide) hp
      rw [List.append_nil] at hp'
      exact hxml hp'
    have hlegal' : (skipSpaces body').all isLegal = true := by
      rw [List.all_eq_true] at hlegal ⊢
      intro c hc
      have hmem : c ∈ body := hbody.mem ((List.dropWhile_suffix isSpace).subset hc)
      obtain ⟨spaces, heq, hspaces⟩ := exists_skipSpaces body
      rw [heq, List.mem_append] at hmem
      exact hmem.elim (fun hmem => isLegal_of_isSpace (hspaces c hmem)) (hlegal c)
    refine ⟨_, "<?".toList ++ (target ++ (body' ++ "?>".toList)), false, ds', ?_,
      .instruction htarget hbegins (hbody.stops hstops) hxml' hlegal'
        (hbody.closes (by decide) hcloses), .instruction target _ _, hrest⟩
    simp only [List.append_assoc]
    rfl

theorem Spelled.not_documentType (hts : Spelled ts cs) :
    ¬ Node.documentTypeMark.toList <+: cs :=
  hts.not_prefix '<' "!DOCTYPE".toList fun _ _ => rfl

/-- **What is left of a row of tokens is a row of tokens** of the same kinds. -/
theorem Spelled.thinned (hts : Spelled ts cs) (h : Markup.Thinned start cs ds) :
    ∃ ts', Spelled ts' ds ∧ List.Forall₂ Token.Thinned ts ts' ∧ ds.head? = cs.head? := by
  induction hts generalizing start ds with
  | nil => exact ⟨[], h.eq_nil ▸ .nil, .nil, by rw [h.eq_nil]⟩
  | @markup t u ts cs hu hcs ih =>
    obtain ⟨t', u', start', ds', rfl, hu', ht, hrest⟩ :=
      hu.thinned (Spelled.markup hu hcs).not_documentType h
    obtain ⟨ts', hts', hall, -⟩ := ih hrest
    obtain ⟨tail, rfl⟩ := hu.exists_cons
    obtain ⟨tail', rfl⟩ := hu'.exists_cons
    exact ⟨t' :: ts', .markup hu' hts', .cons ht hall, rfl⟩
  | @characters raw ts cs hraw hstops hcs ih =>
    obtain ⟨start', ds', rfl, hrest⟩ := h.keep_run hraw.noTag hstops hcs.not_documentType
    obtain ⟨ts', hts', hall, hhead⟩ := ih hrest
    have hstops' : Stops isRunChar ds' := by rwa [Stops, hhead]
    obtain ⟨c, tail, rfl⟩ := List.exists_cons_of_ne_nil hraw.ne_nil
    exact ⟨_, .characters hraw hstops' hts', .cons (.characters _) hall, rfl⟩

theorem IsDeclaration.thinned (hu : IsDeclaration u) (hts : Spelled ts cs)
    (h : Markup.Thinned start (u ++ cs) ds) :
    ∃ ds' ts', ds = u ++ ds' ∧ Spelled ts' ds' ∧ List.Forall₂ Token.Thinned ts ts' ∧
      ds.head? = (u ++ cs).head? := by
  cases hu with
  | missing =>
    obtain ⟨ts', hts', hall, hhead⟩ := hts.thinned h
    exact ⟨ds, ts', rfl, hts', hall, hhead⟩
  | @stated fields hfields _ =>
    have hmore : '<' ∉ "?xml ".toList ++ (fields ++ "?>".toList) := by
      simp only [List.mem_append, not_or]
      exact ⟨by decide, hfields, by decide⟩
    have hlast : ("?xml ".toList ++ (fields ++ "?>".toList)).getLast? = some '>' := by
      simp [List.getLast?_append, List.getLast?_cons]
    have hmark : ¬ Node.documentTypeMark.toList <+:
        '<' :: ("?xml ".toList ++ (fields ++ "?>".toList)) ++ cs := fun hp => by
      cases (List.cons_prefix_cons.1 (List.cons_prefix_cons.1 hp).2).1
    obtain ⟨start', ds', rfl, hrest⟩ := thinned_tag hmore hlast hmark h
    obtain ⟨ts', hts', hall, -⟩ := hts.thinned hrest
    exact ⟨ds', ts', rfl, hts', hall, rfl⟩

/-- **What is left of a text holds what is left of its tokens.** -/
theorem Holds.thinned (hts : Holds cs ts) (h : Markup.Thinned start cs ds) :
    ∃ ts', Holds ds ts' ∧ List.Forall₂ Token.Thinned ts ts' := by
  cases hts with
  | @marked u cs _ hu hts =>
    have hmark : ¬ Node.documentTypeMark.toList <+: '\uFEFF' :: (u ++ cs) := fun hp => by
      cases (List.cons_prefix_cons.1 hp).1
    obtain ⟨ds₁, rfl, h₁⟩ := h.keep_head rfl hmark
    obtain ⟨ds', ts', rfl, hts', hall, -⟩ := hu.thinned hts h₁
    exact ⟨ts', .marked hu hts', hall⟩
  | unmarked hhead hu hts =>
    obtain ⟨ds', ts', rfl, hts', hall, hhead'⟩ := hu.thinned hts h
    exact ⟨ts', .unmarked (hhead' ▸ hhead) hu hts', hall⟩

end Scorebook.Markup
