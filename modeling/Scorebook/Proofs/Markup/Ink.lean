import Mathlib.Algebra.GroupWithZero.Nat
import Scorebook.Proofs.Markup.Bare
import Scorebook.Proofs.Markup.Thinned

/-!
# How much is written in a tree

The characters of a text that are not blank are its ink. A text from which a line is taken out
loses ink, since the line has a mark in it (`Thinned.ink`). Neither trimming texts nor putting them
together changes it, so the ink of a tree is that of its tokens (`Node.ink_of_ofTokens?`).
-/

namespace Scorebook

/-! ## Texts -/

namespace Text

/-- The number of characters that are not blank. -/
def ink (cs : List Char) : Nat :=
  cs.countP fun c => !isBlank c

theorem ink_append (cs ds : List Char) : ink (cs ++ ds) = ink cs + ink ds :=
  List.countP_append

theorem ink_cons (c : Char) (cs : List Char) :
    ink (c :: cs) = ink cs + if isBlank c then 0 else 1 := by
  rw [ink, List.countP_cons]
  cases isBlank c <;> rfl

theorem ink_reverse (cs : List Char) : ink cs.reverse = ink cs :=
  List.countP_reverse

theorem ink_dropWhile (cs : List Char) : ink (cs.dropWhile isBlank) = ink cs := by
  induction cs with
  | nil => rfl
  | cons c cs ih =>
    rw [List.dropWhile_cons]
    split
    · next hc =>
      rw [ih, ink_cons, if_pos hc, Nat.add_zero]
    · rfl

theorem ink_trim (s : String) : ink (trim s).toList = ink s.toList := by
  rw [toList_trim, trimChars, ink_reverse, ink_dropWhile, ink_reverse, ink_dropWhile]

end Text

namespace Markup

open Text Source

/-! ## Lines that are taken out -/

/-- The line ahead begins with a document type, or one after it does. -/
def HasDocumentType (start : Bool) (cs : List Char) : Prop :=
  (start = true ∧ BeginsDocumentType cs) ∨
    ∃ before after, cs = before ++ '\n' :: after ∧ BeginsDocumentType after

theorem not_beginsDocumentType_nil : ¬ BeginsDocumentType [] := by
  rintro ⟨blanks, rest, heq, -⟩
  simp [Node.documentTypeMark] at heq

theorem hasDocumentType_cons {start : Bool} {c : Char} {cs : List Char}
    (h : start = true → ¬ BeginsDocumentType (c :: cs)) :
    HasDocumentType start (c :: cs) ↔ HasDocumentType (c = '\n') cs := by
  constructor
  · rintro (⟨hstart, hbegins⟩ | ⟨before, after, heq, hbegins⟩)
    · exact absurd hbegins (h hstart)
    · cases before with
      | nil =>
        cases heq
        exact .inl ⟨rfl, hbegins⟩
      | cons d before =>
        cases heq
        exact .inr ⟨before, after, rfl, hbegins⟩
  · rintro (⟨hc, hbegins⟩ | ⟨before, after, rfl, hbegins⟩)
    · exact .inr ⟨[], cs, by rw [of_decide_eq_true hc]; rfl, hbegins⟩
    · exact .inr ⟨c :: before, after, rfl, hbegins⟩

theorem ink_pos_of_beginsDocumentType {cs : List Char} (h : BeginsDocumentType cs) :
    0 < ink cs := by
  obtain ⟨blanks, rest, rfl, -⟩ := h
  have hmark : 0 < ink Node.documentTypeMark.toList := by decide
  rw [ink_append, ink_append]
  omega

/-- **A text from which a line is taken out loses ink**, and any other stays the same. -/
theorem Thinned.ink {start : Bool} {cs ds : List Char} (h : Thinned start cs ds) :
    (ds = cs ∧ ¬ HasDocumentType start cs) ∨ (ink ds < ink cs ∧ HasDocumentType start cs) := by
  induction h with
  | nil =>
    refine .inl ⟨rfl, ?_⟩
    rintro (⟨-, hbegins⟩ | ⟨before, after, heq, -⟩)
    · exact not_beginsDocumentType_nil hbegins
    · simp at heq
  | @keep start c cs ds hkeep _ ih =>
    rw [hasDocumentType_cons hkeep, ink_cons, ink_cons c]
    exact ih.imp (fun ⟨heq, hnone⟩ => ⟨by rw [heq], hnone⟩)
      fun ⟨hlt, hsome⟩ => ⟨Nat.add_lt_add_right hlt _, hsome⟩
  | @drop line cs ds hline _ ih =>
    refine .inr ⟨?_, .inl ⟨rfl, hline.begins.append _⟩⟩
    have hle : Text.ink ds ≤ Text.ink cs := by
      rcases ih with ⟨rfl, -⟩ | ⟨hlt, -⟩
      · exact le_rfl
      · exact hlt.le
    have hpos := ink_pos_of_beginsDocumentType hline.begins
    rw [ink_append, ink_cons]
    omega

/-! ## Tokens -/

def Piece.char : Piece → Char
  | .literal c => c
  | .referred c => c

theorem ink_cleanText (ps : List Piece) : ink (cleanText ps) = ink (ps.map Piece.char) := by
  have hr : isBlank '\r' = true := rfl
  have hn : isBlank '\n' = true := rfl
  fun_induction cleanText ps with
  | case1 => rfl
  | case2 ps ih => simp [ink_cons, Piece.char, hr, hn, ih]
  | case3 c ps ih => simpa [ink_cons, Piece.char, hr] using ih
  | case4 c => rfl
  | case5 c ps _ _ ih =>
    have hc : isBlank (if c = '\r' then '\n' else c) = isBlank c := by
      split
      · next heq => rw [heq, hr, hn]
      · rfl
    rw [ink_cons, hc, ih, List.map_cons, ink_cons]
    rfl
  | case6 c ps _ ih =>
    rw [ink_cons, ih, List.map_cons, ink_cons]
    rfl

theorem ink_resolveVerbatim (content : List Char) :
    ink (resolveVerbatim content).toList = ink content := by
  rw [resolveVerbatim, String.toList_ofList, ink_cleanText, List.map_map]
  congr 1
  exact List.map_id content

theorem piecesFrom_of_notMem {cs : List Char} (h : '&' ∉ cs) :
    piecesFrom none cs = some (cs.map .literal) := by
  induction cs with
  | nil => rfl
  | cons c cs ih =>
    rw [List.mem_cons, not_or] at h
    rw [piecesFrom, if_neg (Ne.symm h.1), ih h.2]
    rfl

theorem ink_of_all_isSpace {cs : List Char} (h : cs.all isSpace = true) : ink cs = 0 := by
  rw [ink, List.countP_eq_zero]
  intro c hc
  have hspace := List.all_eq_true.1 h c hc
  simp only [isSpace, Bool.or_eq_true, decide_eq_true_eq] at hspace
  rcases hspace with ((rfl | rfl) | rfl) | rfl <;> decide

/-- The ink of the characters that a token stands for. -/
def Token.ink : Token → Nat
  | .characters raw => ((resolveText raw).map fun s => Text.ink s.toList).getD 0
  | .verbatim content => Text.ink (resolveVerbatim content).toList
  | _ => 0

theorem Token.ink_of_all_isSpace {raw : List Char} (h : raw.all isSpace = true) :
    (Token.characters raw).ink = 0 := by
  have hamp : '&' ∉ raw := fun hmem => absurd (List.all_eq_true.1 h _ hmem) (by decide)
  rw [ink, resolveText, pieces?, piecesFrom_of_notMem hamp]
  show Text.ink (String.ofList (cleanText (raw.map .literal))).toList = 0
  rw [← resolveVerbatim, ink_resolveVerbatim, Markup.ink_of_all_isSpace h]

/-! ## Documents -/

mutual

def Content.ink : Content → Nat
  | .element _ _ children => inkAll children
  | .text s => Text.ink s.toList
  | .comment _ => 0
  | .instruction _ _ => 0

def Content.inkAll : List Content → Nat
  | [] => 0
  | c :: cs => c.ink + inkAll cs

end

theorem Content.inkAll_append (cs ds : List Content) :
    inkAll (cs ++ ds) = inkAll cs + inkAll ds := by
  induction cs with
  | nil => rw [List.nil_append, inkAll, Nat.zero_add]
  | cons c cs ih => rw [List.cons_append, inkAll, inkAll, ih, Nat.add_assoc]

theorem Content.inkAll_reverse (cs : List Content) : inkAll cs.reverse = inkAll cs := by
  induction cs with
  | nil => rfl
  | cons c cs ih =>
    rw [List.reverse_cons, inkAll_append, ih, inkAll, inkAll, inkAll]
    omega

def Document.ink (d : Document) : Nat :=
  Content.inkAll d.children

def OpenElement.ink (e : OpenElement) : Nat :=
  Content.inkAll e.children

theorem OpenElement.ink_push (e : OpenElement) (child : Content) :
    (e.push child).ink = e.ink + child.ink :=
  Nat.add_comm _ _

theorem OpenElement.ink_pushText (e : OpenElement) (s : String) :
    (e.pushText s).ink = e.ink + Text.ink s.toList := by
  obtain ⟨name, attributes, scope, children⟩ := e
  match children with
  | .text t :: cs =>
    show Text.ink (t ++ s).toList + Content.inkAll cs = _
    rw [String.toList_append, Text.ink_append]
    show _ = Text.ink t.toList + Content.inkAll cs + _
    omega
  | [] => exact Nat.add_comm _ _
  | .element _ _ _ :: _ => exact Nat.add_comm _ _
  | .comment _ :: _ => exact Nat.add_comm _ _
  | .instruction _ _ :: _ => exact Nat.add_comm _ _

theorem OpenElement.ink_close (e : OpenElement) : e.close.ink = e.ink :=
  Content.inkAll_reverse e.children

namespace Builder

def ink (b : Builder) : Nat :=
  (b.root.map Document.ink).getD 0 + (b.stack.map OpenElement.ink).sum

/-- The root is not there before all elements are complete. -/
def IsProper (b : Builder) : Prop :=
  b.stack ≠ [] → b.root = none

theorem isProper_add (stack : List OpenElement) (e : OpenElement) : (add stack e).IsProper := by
  cases stack with
  | nil => exact fun h => absurd rfl h
  | cons outer stack => exact fun _ => rfl

theorem ink_add (stack : List OpenElement) (e : OpenElement) :
    (add stack e).ink = e.ink + (stack.map OpenElement.ink).sum := by
  cases stack with
  | nil =>
    show e.close.ink + 0 = _
    rw [e.ink_close]
    rfl
  | cons outer stack =>
    show 0 + ((outer.push _).ink + _) = _
    rw [outer.ink_push]
    show 0 + (outer.ink + e.close.ink + _) = e.ink + (outer.ink + _)
    rw [e.ink_close]
    omega

theorem isProper_inside {b : Builder} (hb : b.IsProper) (change : OpenElement → OpenElement) :
    (b.inside change).IsProper := by
  obtain ⟨root, stack⟩ := b
  cases stack with
  | nil => exact hb
  | cons e stack => exact fun _ => hb (List.cons_ne_nil _ _)

theorem ink_inside {b : Builder} {change : OpenElement → OpenElement} {n : Nat}
    (hchange : ∀ e, (change e).ink = e.ink + n) (hb : b.stack = [] → n = 0) :
    (b.inside change).ink = b.ink + n := by
  obtain ⟨root, stack⟩ := b
  cases stack with
  | nil =>
    rw [hb rfl]
    rfl
  | cons e stack =>
    simp only [inside, ink, List.map_cons, List.sum_cons, hchange]
    omega

/-- **Each token adds its ink**, and nothing is lost. -/
theorem step_ink {b c : Builder} {t : Token} (hb : b.IsProper) (h : b.step t = some c) :
    c.IsProper ∧ c.ink = b.ink + t.ink := by
  cases t with
  | start name raw closed =>
    rw [step] at h
    split at h
    · cases h
    · next hroot =>
      obtain ⟨⟨scope, attributes⟩, -, h⟩ := Option.bind_eq_some_iff.1 h
      have hnone : b.root = none := by simpa using hroot
      have hink : b.ink = (b.stack.map OpenElement.ink).sum := by
        rw [ink, hnone]
        exact Nat.zero_add _
      dsimp only at h
      split at h
      · cases h
        refine ⟨isProper_add _ _, ?_⟩
        rw [ink_add, hink]
        exact Nat.zero_add _
      · cases h
        refine ⟨fun _ => hnone, ?_⟩
        rw [hink, ink, hnone, List.map_cons, List.sum_cons]
        show 0 + (0 + _) = _ + 0
        omega
  | finish name =>
    obtain ⟨root, stack⟩ := b
    cases stack with
    | nil => cases h
    | cons e stack =>
      obtain rfl : root = none := hb (List.cons_ne_nil e stack)
      have hadd : (if e.name = name then some (add stack e) else none) = some c := h
      split at hadd
      · cases hadd
        refine ⟨isProper_add _ _, ?_⟩
        rw [ink_add]
        exact (Nat.zero_add _).symm
      · cases hadd
  | characters raw =>
    rw [step] at h
    split at h
    · split at h
      · next hblank =>
        cases h
        exact ⟨hb, by rw [Token.ink_of_all_isSpace hblank, Nat.add_zero]⟩
      · cases h
    · next hstack =>
      obtain ⟨s, hs, rfl⟩ := Option.map_eq_some_iff.1 h
      refine ⟨isProper_inside hb _, ?_⟩
      rw [Token.ink, hs]
      exact ink_inside (fun e => e.ink_pushText s) fun hnil => absurd hnil hstack
  | verbatim content =>
    rw [step] at h
    split at h
    · cases h
    · next hstack =>
      cases h
      exact ⟨isProper_inside hb _, ink_inside (fun e => e.ink_pushText _)
        fun hnil => absurd hnil hstack⟩
  | comment content =>
    cases h
    exact ⟨isProper_inside hb _, ink_inside (fun e => e.ink_push _) fun _ => rfl⟩
  | instruction target content =>
    cases h
    exact ⟨isProper_inside hb _, ink_inside (fun e => e.ink_push _) fun _ => rfl⟩

theorem foldlM_ink {b c : Builder} {ts : List Token} (hb : b.IsProper)
    (h : ts.foldlM step b = some c) : c.ink = b.ink + (ts.map Token.ink).sum := by
  induction ts generalizing b with
  | nil =>
    cases h
    rfl
  | cons t ts ih =>
    rw [List.foldlM_cons] at h
    obtain ⟨b', hstep, hrest⟩ := Option.bind_eq_some_iff.1 h
    obtain ⟨hb', hink⟩ := step_ink hb hstep
    rw [ih hb' hrest, hink, List.map_cons, List.sum_cons]
    omega

end Builder

theorem Document.ink_of_ofTokens? {ts : List Token} {d : Document} (h : ofTokens? ts = some d) :
    d.ink = (ts.map Token.ink).sum := by
  obtain ⟨b, hfold, h⟩ := Option.bind_eq_some_iff.1 h
  have hink := Builder.foldlM_ink (fun hne => absurd rfl hne) hfold
  split at h
  · next hstack =>
    rw [Builder.ink, h, List.isEmpty_iff.1 hstack] at hink
    exact hink.trans (Nat.zero_add _)
  · cases h

end Markup

/-! ## Trees -/

namespace Node

open Markup

mutual

def ink : Node → Nat
  | .text s => Text.ink s.toList
  | .element _ _ children => inkAll children

def inkAll : List Node → Nat
  | [] => 0
  | node :: nodes => node.ink + inkAll nodes

end

theorem inkAll_append (nodes others : List Node) :
    inkAll (nodes ++ others) = inkAll nodes + inkAll others := by
  induction nodes with
  | nil => rw [List.nil_append, inkAll, Nat.zero_add]
  | cons node nodes ih => rw [List.cons_append, inkAll, inkAll, ih, Nat.add_assoc]

mutual

theorem ink_ofContent (c : Content) : inkAll (ofContent c) = c.ink := by
  cases c with
  | element name attributes children =>
    rw [ofContent, inkAll, inkAll, ink, ink_ofContents children, Content.ink, Nat.add_zero]
  | text s =>
    rw [ofContent, Content.ink, ← Text.ink_trim s]
    split
    · next hs =>
      rw [hs]
      rfl
    · rw [inkAll, inkAll, ink, Nat.add_zero]
  | comment s => rfl
  | instruction target s => rfl

theorem ink_ofContents (cs : List Content) : inkAll (ofContents cs) = Content.inkAll cs := by
  cases cs with
  | nil => rfl
  | cons c cs =>
    rw [ofContents, inkAll_append, ink_ofContent c, ink_ofContents cs, Content.inkAll]

end

/-- **The ink of a tree is that of its tokens.** -/
theorem ink_of_ofTokens? {ts : List Token} {d : Document} (h : Document.ofTokens? ts = some d) :
    (ofDocument d).ink = (ts.map Token.ink).sum := by
  rw [← Document.ink_of_ofTokens? h, ofDocument, ink, ink_ofContents]
  rfl

end Node

end Scorebook
