import Scorebook.Proofs.Markup.FinalLine
import Scorebook.Proofs.Markup.Losses

/-!
# Taking out the document type

The lines that begin with a document type are taken out of a text before its tokens are known, and
what is left is put together again with line feeds. For a document that could have been read as it
stands this should make no difference, and mostly it does not: no such line stands between tokens
or in a tag, and comments and instructions are not in the tree. But a section may hold one, and
then the tree loses it.

So the tree is that of the document itself exactly if no section has a line that begins with a
document type (`read_eq_ofDocument_iff`). Of the parser this needs no more than that it reads the
trees that the tokens of texts make up (`ReadsTrees`). Two kinds of texts are left out, in which
more goes wrong. A section, a comment or an instruction may end in the line that is taken out, and
loses its end; and a carriage return may stand right in front of a line end, of which it becomes a
part.
-/

namespace Scorebook

open Markup Source

/-! ## Lines of a text -/

namespace Text

theorem notMem_of_mem_splitLines {cs line : List Char} (h : line ∈ splitLines cs) :
    '\n' ∉ line := by
  fun_induction splitLines cs generalizing line with
  | case1 => cases h
  | case2 cs ih =>
    rcases List.mem_cons.1 h with rfl | h
    · exact List.not_mem_nil
    · exact ih h
  | case3 cs ih =>
    rcases List.mem_cons.1 h with rfl | h
    · exact List.not_mem_nil
    · exact ih h
  | case4 c cs hn _ _ _ =>
    rw [List.mem_singleton] at h
    rw [h, List.mem_singleton]
    exact Ne.symm hn
  | case5 c cs hn _ first rest hlines ih =>
    rw [hlines] at ih
    rcases List.mem_cons.1 h with rfl | h
    · rw [List.mem_cons, not_or]
      exact ⟨Ne.symm hn, ih List.mem_cons_self⟩
    · exact ih (List.mem_cons_of_mem _ h)

/-- Lines with their ends are the text again, up to the end of the last line. -/
theorem ended_splitLines (cs : List Char) :
    ended (splitLines cs) = unified cs ∨ ended (splitLines cs) = unified cs ++ ['\n'] := by
  fun_induction splitLines cs with
  | case1 => exact .inl rfl
  | case2 cs ih =>
    rw [unified_cons (by decide)]
    exact ih.imp (congrArg ('\n' :: ·)) (congrArg ('\n' :: ·))
  | case3 cs ih =>
    rw [unified]
    exact ih.imp (congrArg ('\n' :: ·)) (congrArg ('\n' :: ·))
  | case4 c cs hn hcr hlines ih =>
    obtain rfl := splitLines_eq_nil hlines
    rw [unified_cons_of_ne hcr]
    exact .inr rfl
  | case5 c cs hn hcr line lines hlines ih =>
    rw [unified_cons_of_ne hcr]
    rw [hlines] at ih
    exact ih.imp (congrArg (c :: ·)) (congrArg (c :: ·))

theorem occursIn_iff_isInfix {needle cs : List Char} :
    occursIn needle cs = true ↔ needle <:+: cs := by
  rw [occursIn_iff]
  exact exists_congr fun _ => exists_congr fun _ => eq_comm

theorem mentions_iff_isInfix {s needle : String} (hne : needle ≠ "") :
    mentions s needle = true ↔ needle.toList <:+: s.toList := by
  rw [mentions, decide_eq_true hne, Bool.true_and, occursIn_iff_isInfix]

end Text

namespace Markup

open Text

/-! ## Lines that are taken out -/

theorem beginsDocumentType_append_feed_iff (cs ds : List Char) :
    BeginsDocumentType (cs ++ '\n' :: ds) ↔ BeginsDocumentType cs := by
  refine ⟨fun h => ?_, fun h => h.append _⟩
  obtain ⟨blanks, rest, heq, hblanks⟩ := h
  have hfeed : '\n' ∉ blanks ++ Node.documentTypeMark.toList := by
    rw [List.mem_append, not_or]
    exact ⟨fun hmem => (hblanks _ hmem).2 rfl, by decide⟩
  have hprefix : blanks ++ Node.documentTypeMark.toList <+: cs := by
    rw [← prefix_append_cons_iff hfeed cs ds, heq, ← List.append_assoc]
    exact List.prefix_append _ rest
  obtain ⟨rest', rfl⟩ := hprefix
  exact ⟨blanks, rest', by rw [List.append_assoc], hblanks⟩

namespace Thinned

variable {cs ds line : List Char}

theorem keep_ended (hline : '\n' ∉ line) (hbegins : ¬ BeginsDocumentType line)
    (h : Thinned true cs ds) : Thinned true (line ++ '\n' :: cs) (line ++ '\n' :: ds) := by
  have hbegins' : ¬ BeginsDocumentType (line ++ '\n' :: cs) := fun hb =>
    hbegins ((beginsDocumentType_append_feed_iff line cs).1 hb)
  cases line with
  | nil => exact .keep (fun _ => hbegins') h
  | cons c line =>
    rw [List.mem_cons, not_or] at hline
    have hfeed : Thinned false ('\n' :: cs) ('\n' :: ds) := .keep (fun hstart => by cases hstart) h
    have hrest := hfeed.line_append hline.2
    rw [← decide_eq_false (Ne.symm hline.1)] at hrest
    exact .keep (fun _ => hbegins') hrest

/-- **Taking out lines is what it is for a text.** -/
theorem ended {lines : List (List Char)} (hfeed : ∀ line ∈ lines, '\n' ∉ line)
    (hcloses : ∀ line ∈ lines, BeginsDocumentType line →
      ∀ mark ∈ closingMarks, occursIn mark line = false) :
    Thinned true (Source.ended lines) (Source.ended (lines.filter fun line =>
      !Node.isDocumentTypeLine (String.ofList line))) := by
  induction lines with
  | nil => exact .nil
  | cons line lines ih =>
    have hrest := ih (fun l hl => hfeed l (List.mem_cons_of_mem _ hl))
      fun l hl => hcloses l (List.mem_cons_of_mem _ hl)
    have hline := hfeed line List.mem_cons_self
    have hcons : ∀ lines, Source.ended (line :: lines) = line ++ '\n' :: Source.ended lines :=
      fun lines => by simp [Source.ended]
    rw [hcons, List.filter_cons]
    by_cases hbegins : BeginsDocumentType line
    · rw [(isDocumentTypeLine_iff hline).2 hbegins]
      exact .drop ⟨hline, hbegins, hcloses line List.mem_cons_self hbegins⟩ hrest
    · have hnot : Node.isDocumentTypeLine (String.ofList line) = false := by
        rw [Bool.eq_false_iff]
        exact fun h => hbegins ((isDocumentTypeLine_iff hline).1 h)
      rw [hnot]
      exact (hcons _).symm ▸ keep_ended hline hbegins hrest

end Thinned

/-! ## Lines of sections -/

theorem beginsDocumentType_unified_iff {cs line : List Char} {lines : List (List Char)}
    (h : splitLines cs = line :: lines) :
    BeginsDocumentType (unified cs) ↔ BeginsDocumentType line := by
  have hended : Source.ended (splitLines cs) = line ++ '\n' :: Source.ended lines := by
    rw [h]
    simp [Source.ended]
  rw [← beginsDocumentType_append_feed_iff line (Source.ended lines), ← hended]
  rcases ended_splitLines cs with heq | heq
  · rw [heq]
  · rw [heq, beginsDocumentType_append_feed_iff]

theorem hasDocumentType_true_iff {cs : List Char} :
    HasDocumentType true cs ↔ BeginsDocumentType cs ∨ HasDocumentType false cs := by
  simp [HasDocumentType]

/-- **Which lines begin with a document type is the same with line feeds only.** -/
theorem hasDocumentType_unified_iff (cs : List Char) :
    HasDocumentType false (unified cs) ↔
      ∃ line ∈ (splitLines cs).tail, BeginsDocumentType line := by
  have hwhole : ∀ cs, (HasDocumentType false (unified cs) ↔
      ∃ line ∈ (splitLines cs).tail, BeginsDocumentType line) →
      (HasDocumentType true (unified cs) ↔ ∃ line ∈ splitLines cs, BeginsDocumentType line) := by
    intro cs htail
    rw [hasDocumentType_true_iff, htail]
    cases hlines : splitLines cs with
    | nil =>
      rw [splitLines_eq_nil hlines]
      simp [unified, not_beginsDocumentType_nil]
    | cons line lines => simp [beginsDocumentType_unified_iff hlines]
  have hlater : ∀ c cs, HasDocumentType false (c :: cs) ↔ HasDocumentType (c = '\n') cs :=
    fun c cs => hasDocumentType_cons fun h => by cases h
  fun_induction splitLines cs with
  | case1 => simp [unified, HasDocumentType]
  | case2 cs ih =>
    rw [unified_cons (by decide), hlater]
    exact hwhole cs ih
  | case3 cs ih =>
    rw [unified, hlater]
    exact hwhole cs ih
  | case4 c cs hn hcr hlines ih =>
    rw [unified_cons_of_ne hcr, hlater, decide_eq_false hn]
    exact ih.trans (by rw [hlines]; rfl)
  | case5 c cs hn hcr line lines hlines ih =>
    rw [unified_cons_of_ne hcr, hlater, decide_eq_false hn]
    exact ih.trans (by rw [hlines]; rfl)

/-! ## Tokens of a text without those lines -/

theorem Ended.isKept_iff {ts us : List Token} (h : Ended ts us) :
    (∀ t ∈ us, t.IsKept) ↔ ∀ t ∈ ts, t.IsKept := by
  have hcharacters : ∀ raw, (Token.characters raw).IsKept := fun _ _ heq => by cases heq
  induction h with
  | alone => simp [hcharacters]
  | joined raw => simp [hcharacters]
  | cons t _ ih => simp [ih]

theorem isDocumentTypeLine_eq_false_iff {line : List Char} (hline : '\n' ∉ line) :
    Node.isDocumentTypeLine (String.ofList line) = false ↔ ¬ BeginsDocumentType line := by
  rw [← isDocumentTypeLine_iff hline, Bool.not_eq_true]

theorem isKept_unified_iff (t : Token) :
    t.unified.IsKept ↔ ∀ content, t = .verbatim content →
      ∀ line ∈ (Text.lines (String.ofList content)).tail, Node.isDocumentTypeLine line = false := by
  cases t with
  | verbatim content =>
    have hlines : (Text.lines (String.ofList content)).tail =
        (splitLines content).tail.map String.ofList := by
      rw [Text.lines, String.toList_ofList, List.map_tail]
    have hkept : (Token.verbatim content).unified.IsKept ↔
        ¬ HasDocumentType false (unified content) :=
      ⟨fun h => h _ rfl, fun h _ heq => by cases heq; exact h⟩
    rw [hkept, hasDocumentType_unified_iff, not_exists]
    simp only [Token.verbatim.injEq, forall_eq', hlines, List.forall_mem_map]
    refine forall_congr' fun line => ?_
    rw [not_and]
    exact forall_congr' fun hline =>
      (isDocumentTypeLine_eq_false_iff (notMem_of_mem_splitLines (List.mem_of_mem_tail hline))).symm
  | start | finish | characters | comment | instruction =>
    exact iff_of_true (fun _ heq => by cases heq) fun _ heq => by cases heq

/-- Which sections are kept whole is told by the tokens of the text, of which there is one row. -/
theorem Holds.isKept_iff {s : String} {ts : List Token} (h : Holds s.toList ts) :
    (∀ t ∈ ts, t.unified.IsKept) ↔
      ∀ tokens content, Holds s.toList tokens → .verbatim content ∈ tokens →
        ∀ line ∈ (Text.lines (String.ofList content)).tail,
          Node.isDocumentTypeLine line = false := by
  simp only [isKept_unified_iff]
  constructor
  · intro hall tokens content htokens hmem
    rw [← tokens?_eq_some_iff, tokens?_eq_some_iff.2 h, Option.some.injEq] at htokens
    rw [← htokens] at hmem
    exact hall _ hmem content rfl
  · rintro hall t ht content rfl
    exact hall ts content h ht

/-- Lines put together with their ends hold the tokens of the text, up to its line ends. -/
theorem Holds.ended {cs : List Char} {ts : List Token} (h : Holds cs ts) :
    ∃ us, Holds (Source.ended (splitLines cs)) us ∧
      Node.ofTokens? us = Node.ofTokens? (ts.map Token.unified) ∧
      ((∀ t ∈ us, t.IsKept) ↔ ∀ t ∈ ts, t.unified.IsKept) := by
  rcases ended_splitLines cs with heq | heq
  · rw [heq]
    exact ⟨_, h.unified, rfl, List.forall_mem_map⟩
  · obtain ⟨us, hus, hended⟩ := h.unified.snoc
    rw [heq]
    refine ⟨us, hus, ?_, ?_⟩
    · rw [Node.ofTokens?, Node.ofTokens?, ofTokens?_of_ended hended]
    · rw [hended.isKept_iff, List.forall_mem_map]

/-- The end of the last line can be left out. -/
theorem Holds.joinLines {lines : List String} {ts : List Token}
    (h : Holds (Source.ended (lines.map String.toList)) ts) :
    ∃ us, Holds (Text.joinLines lines).toList us ∧ Node.ofTokens? us = Node.ofTokens? ts := by
  by_cases hlines : lines = []
  · subst hlines
    exact ⟨ts, h, rfl⟩
  · rw [← toList_joinLines hlines] at h
    obtain ⟨us, hus, hended⟩ := h.of_snoc
    exact ⟨us, hus, by rw [Node.ofTokens?, Node.ofTokens?, ofTokens?_of_ended hended]⟩

end Markup

/-! ## Trees -/

namespace Node

/-- The parser reads the trees that the tokens of texts make up, and no others. -/
def ReadsTrees (parse : String → Option Document) : Prop :=
  ∀ s node, (parse s).map ofDocument = some node ↔
    ∃ ts, Holds s.toList ts ∧ ofTokens? ts = some node

theorem readsTrees_read : ReadsTrees Document.read := by
  intro s node
  rw [Document.read, Option.map_bind, Option.bind_eq_some_iff]
  simp only [tokens?_eq_some_iff]
  rfl

/-- **What becomes of a document in which a document type is mentioned.** -/
theorem exists_readBy_of_mentions {parse : String → Option Document} (hparse : ReadsTrees parse)
    {s : String} {ts : List Markup.Token} {node : Node}
    (hmentions : Text.mentions s documentTypeMark = true) (h : Holds s.toList ts)
    (hnode : ofTokens? ts = some node) (hends : ¬ HasStray s.toList)
    (hcloses : ∀ line ∈ Text.splitLines s.toList, BeginsDocumentType line →
      ∀ mark ∈ closingMarks, Text.occursIn mark line = false) :
    ∃ other, readBy parse s = some other ∧ (other = node ↔ ∀ t ∈ ts, t.unified.IsKept) := by
  obtain ⟨us, hus, hsame, hkept⟩ := h.ended
  rw [ofTokens?_unified fun t ht hstray => hends (h.hasStray ht hstray), hnode] at hsame
  have hthinned := Thinned.ended (fun _ => Text.notMem_of_mem_splitLines) hcloses
  obtain ⟨vs, hvs, hall⟩ := hus.thinned hthinned
  obtain ⟨other, hother, hiff⟩ := ofTokens?_thinned hall hsame
  refine ⟨other, ?_, hiff.trans hkept⟩
  set kept := (Text.lines s).filter fun line => !isDocumentTypeLine line with hlines
  have hchars : kept.map String.toList = (Text.splitLines s.toList).filter fun line =>
      !isDocumentTypeLine (String.ofList line) := by
    rw [hlines, Text.lines, List.filter_map, List.map_map]
    simp only [Function.comp_def, String.toList_ofList, List.map_id_fun']
    rfl
  rw [← hchars] at hvs
  obtain ⟨ws, hws, heq⟩ := hvs.joinLines
  rw [readBy, withoutDocumentType, if_pos hmentions, hparse]
  exact ⟨ws, hws, heq.trans hother⟩

theorem isKept_of_not_mentions {s : String} {ts : List Markup.Token} (h : Holds s.toList ts)
    (hmentions : Text.mentions s documentTypeMark = false) {t : Markup.Token} (ht : t ∈ ts) :
    t.unified.IsKept := by
  cases t with
  | verbatim content =>
    rintro _ heq (⟨hstart, -⟩ | ⟨before, after, hcontent, blanks, rest, rfl, -⟩)
    · cases hstart
    · cases heq
      have hunified : Text.occursIn documentTypeMark.toList (unified content) = true :=
        Text.occursIn_iff.2 ⟨before ++ '\n' :: blanks, rest, by rw [hcontent]; simp⟩
      have hoccurs := occursIn_of_occursIn_unified (by decide) (by decide) hunified
      have hcontent : documentTypeMark.toList <:+: content := Text.occursIn_iff_isInfix.1 hoccurs
      have hs := hcontent.trans (h.isInfix_of_said ht (.verbatim content))
      rw [(Text.mentions_iff_isInfix (by decide)).2 hs] at hmentions
      cases hmentions
  | start | finish | characters | comment | instruction => exact fun _ heq => by cases heq

theorem not_occursIn_of_mem_splitLines {s : String}
    (h : ∀ line ∈ Text.lines s, isDocumentTypeLine line = true →
      ∀ mark ∈ ["-->", "]]>", "?>"], Text.mentions line mark = false) {line : List Char}
    (hline : line ∈ Text.splitLines s.toList) (hbegins : BeginsDocumentType line) :
    ∀ mark ∈ closingMarks, Text.occursIn mark line = false := by
  intro mark hmark
  obtain ⟨m, hm, rfl⟩ : ∃ m ∈ ["-->", "]]>", "?>"], m.toList = mark := List.mem_map.1 hmark
  have hne : m ≠ "" := fun heq => absurd (heq ▸ hm) (by decide)
  have hfeed := Text.notMem_of_mem_splitLines hline
  have hnone := h (String.ofList line) (List.mem_map_of_mem hline)
    ((isDocumentTypeLine_iff hfeed).2 hbegins) m hm
  rwa [Text.mentions, String.toList_ofList, decide_eq_true hne, Bool.true_and] at hnone

/-- **The document type is taken out without harm exactly if no section has a line that begins with
one**, as long as nothing ends in a line that is taken out and no carriage return stands right in
front of a line end. This is so for any parser of markup. -/
theorem read_eq_ofDocument_iff {parse : String → Option Document} (hparse : ReadsTrees parse)
    {s : String} {d : Document} (hread : parse s = some d)
    (hends : Text.mentions s documentTypeMark = true → Text.mentions s "\r\r\n" = false)
    (hcloses : ∀ line ∈ Text.lines s, isDocumentTypeLine line = true →
      ∀ mark ∈ ["-->", "]]>", "?>"], Text.mentions line mark = false) :
    ∃ node, readBy parse s = some node ∧ (node = ofDocument d ↔
      ∀ tokens content, Holds s.toList tokens → .verbatim content ∈ tokens →
        ∀ line ∈ (Text.lines (String.ofList content)).tail, isDocumentTypeLine line = false) := by
  have htree : (parse s).map ofDocument = some (ofDocument d) := by rw [hread, Option.map_some]
  obtain ⟨ts, hholds, hnode⟩ := (hparse s _).1 htree
  rw [← hholds.isKept_iff]
  cases hmentions : Text.mentions s documentTypeMark with
  | false =>
    have hsame : readBy parse s = some (ofDocument d) := by
      rw [readBy, withoutDocumentType, if_neg (by simp [hmentions]), htree]
    exact ⟨ofDocument d, hsame, iff_of_true rfl fun t => isKept_of_not_mentions hholds hmentions⟩
  | true =>
    have hstray : ¬ HasStray s.toList := by
      intro hstray
      have hs : Text.mentions s "\r\r\n" = true := (Text.mentions_iff_isInfix (by decide)).2 hstray
      rw [hends hmentions] at hs
      cases hs
    exact exists_readBy_of_mentions hparse hmentions hholds hnode hstray
      fun _ hline hbegins => not_occursIn_of_mem_splitLines hcloses hline hbegins

/-- A document type in a comment is taken out and one inside a line stays, with both line ends. -/
theorem read_commentedDocumentType :
    ∃ d, Document.read "<a>\r\n<!-- no\n <!DOCTYPE a>\n--><![CDATA[ <!DOCTYPE b>]]>\r</a>\n" =
        some d ∧
      read "<a>\r\n<!-- no\n <!DOCTYPE a>\n--><![CDATA[ <!DOCTYPE b>]]>\r</a>\n" =
        some (ofDocument d) := by
  obtain ⟨d, hd⟩ := Option.isSome_iff_exists.1 (show (Document.read
    "<a>\r\n<!-- no\n <!DOCTYPE a>\n--><![CDATA[ <!DOCTYPE b>]]>\r</a>\n").isSome = true by
      decide +kernel)
  obtain ⟨node, hnode, hiff⟩ := read_eq_ofDocument_iff readsTrees_read hd
    (fun _ => by decide +kernel) (by decide +kernel)
  have htokens : tokens? "<a>\r\n<!-- no\n <!DOCTYPE a>\n--><![CDATA[ <!DOCTYPE b>]]>\r</a>\n" =
      some [.start ⟨"", "a"⟩ [] false, .characters "\r\n".toList,
        .comment " no\n <!DOCTYPE a>\n".toList, .verbatim " <!DOCTYPE b>".toList,
        .characters "\r".toList, .finish ⟨"", "a"⟩, .characters "\n".toList] := by
    decide +kernel
  have hsame : node = ofDocument d := by
    refine hiff.2 fun tokens content hholds hmem => ?_
    rw [tokens?_eq_some_iff.2 hholds] at htokens
    cases htokens
    obtain rfl : content = " <!DOCTYPE b>".toList := by simpa using hmem
    decide +kernel
  exact ⟨d, hd, hsame ▸ hnode⟩

/-- A section in which a line begins with a document type loses that line. -/
theorem read_documentTypeInSection :
    ∃ d, Document.read "<a><![CDATA[\n<!DOCTYPE x>\n]]></a>" = some d ∧
      read "<a><![CDATA[\n<!DOCTYPE x>\n]]></a>" ≠ some (ofDocument d) := by
  have hdocument : ((Document.read "<a><![CDATA[\n<!DOCTYPE x>\n]]></a>").map fun d =>
      (ofDocument d).text?) = some (some "<!DOCTYPE x>") := by decide +kernel
  have hread : (read "<a><![CDATA[\n<!DOCTYPE x>\n]]></a>").map text? = some none := by
    decide +kernel
  obtain ⟨d, hd, htext⟩ := Option.map_eq_some_iff.1 hdocument
  refine ⟨d, hd, fun hsame => ?_⟩
  rw [hsame, Option.map_some, htext] at hread
  cases hread

end Node

end Scorebook
