import Scorebook.Proofs.Markup.Tag

/-!
# How tokens are written

A row of tokens is read from left to right, and how far a token reaches is decided by the token
itself: a tag ends with its bracket, a section, a comment or an instruction with the first mark
that closes it, and a run of characters where the next of the others begins. So every token is
written with characters of its own (`Written`), which are read as this token whatever follows them
(`Written.read`), and a text is read as a row of tokens exactly if it is their characters in a row
(`readAll_iff_spelled`).
-/

namespace Scorebook.Markup

open Text Source

/-! ## Marks -/

/-- A mark closes the text at its end and nowhere before. -/
def Closes (mark content : List Char) : Prop :=
  occursIn mark (content ++ mark.dropLast) = false

/-- The marks that close a comment, a section and an instruction. -/
def closingMarks : List (List Char) :=
  ["-->".toList, "]]>".toList, "?>".toList]

/-- A closing mark lies within a line. -/
theorem closingMark_inLine {mark : List Char} (h : mark ∈ closingMarks) :
    mark ≠ [] ∧ '\r' ∉ mark ∧ '\n' ∉ mark := by
  revert mark
  decide

theorem occursIn_eq_false_of_length_lt {needle cs : List Char} (h : cs.length < needle.length) :
    occursIn needle cs = false := by
  rw [Bool.eq_false_iff]
  intro hoccurs
  obtain ⟨before, after, rfl⟩ := occursIn_iff.1 hoccurs
  simp only [List.length_append] at h
  omega

/-- **A text is cut where its first mark is.** -/
theorem cut?_eq_some_iff {mark cs content rest : List Char} (hmark : mark ≠ []) :
    cut? mark cs = some (content, rest) ↔ cs = content ++ mark ++ rest ∧ Closes mark content := by
  have hlength : mark.dropLast.length + 1 = mark.length := by
    have := List.length_pos_iff.2 hmark
    rw [List.length_dropLast]
    omega
  constructor
  · intro h
    refine ⟨eq_append_of_cut? h, ?_⟩
    induction cs generalizing content with
    | nil => cases h
    | cons c cs ih =>
      have heq := eq_append_of_cut? h
      rw [cut?] at h
      split at h
      · cases h
        exact occursIn_eq_false_of_length_lt (by rw [List.nil_append]; omega)
      · next hnone =>
        obtain ⟨⟨before, r⟩, hcut, hpair⟩ := Option.map_eq_some_iff.1 h
        cases hpair
        have hprefix : ¬ mark <+: c :: (before ++ mark.dropLast) := by
          intro hp
          refine after?_eq_none_iff.1 hnone (hp.trans ?_)
          rw [heq, List.cons_append, List.cons_append, List.append_assoc]
          exact (List.cons_prefix_cons).2 ⟨rfl,
            (List.prefix_append_right_inj before).2
              ((List.dropLast_prefix mark).trans (List.prefix_append mark rest))⟩
        have hrest : occursIn mark (before ++ mark.dropLast) = false := ih hcut
        rw [Closes, List.cons_append, occursIn, hrest, Bool.or_false, Bool.eq_false_iff]
        exact fun hp => hprefix (List.isPrefixOf_iff_prefix.1 hp)
  · rintro ⟨rfl, hcloses⟩
    induction content with
    | nil =>
      obtain ⟨m, mark, rfl⟩ := List.exists_cons_of_ne_nil hmark
      rw [List.nil_append, List.cons_append, cut?, ← List.cons_append, after?_append]
    | cons c content ih =>
      rw [Closes, List.cons_append, occursIn, Bool.or_eq_false_iff] at hcloses
      have hnone : after? mark (c :: (content ++ mark ++ rest)) = none := by
        rw [after?_eq_none_iff]
        intro hp
        have hshort : mark <+: c :: (content ++ mark.dropLast) := by
          refine List.prefix_of_prefix_length_le hp ?_ ?_
          · rw [List.append_assoc, List.cons_prefix_cons]
            exact ⟨rfl, (List.prefix_append_right_inj content).2
              ((List.dropLast_prefix mark).trans (List.prefix_append mark rest))⟩
          · simp only [List.length_cons, List.length_append]
            omega
        rw [List.isPrefixOf_iff_prefix.2 hshort] at hcloses
        cases hcloses.1
      rw [List.cons_append, List.cons_append, cut?, hnone]
      simp only [ih hcloses.2, Option.map_some]

/-! ## Tokens -/

/-- The characters of a token other than a run of characters. -/
inductive Written : Token → List Char → Prop
  | start {name : Name} {as : List RawAttribute} {closed : Bool} {u us : List Char} :
      IsName name u → AreAttributes as closed us →
      Written (.start name as closed) ('<' :: (u ++ us))
  | finish {name : Name} {u spaces : List Char} : IsName name u →
      (∀ c ∈ spaces, isSpace c = true) →
      Written (.finish name) ('<' :: '/' :: (u ++ (spaces ++ ['>'])))
  | comment {content : List Char} : content.all isLegal = true → Closes "-->".toList content →
      occursIn "--".toList content = false → content.getLast? ≠ some '-' →
      Written (.comment content) ("<!--".toList ++ (content ++ "-->".toList))
  | verbatim {content : List Char} : content.all isLegal = true → Closes "]]>".toList content →
      Written (.verbatim content) ("<![CDATA[".toList ++ (content ++ "]]>".toList))
  /-- Spaces between the target and the content are in `body`. -/
  | instruction {target body : List Char} : (∀ c ∈ target, isNameChar c = true) →
      beginsName target = true → Stops isNameChar body → ¬ "xml ".toList <+: target ++ body →
      (skipSpaces body).all isLegal = true → Closes "?>".toList body →
      Written (.instruction target (skipSpaces body))
        ("<?".toList ++ (target ++ (body ++ "?>".toList)))

/-- A run of characters between tags. -/
structure IsRun (raw : List Char) : Prop where
  ne_nil : raw ≠ []
  noTag : '<' ∉ raw
  legal : raw.all isLegal = true
  open_ : occursIn "]]>".toList raw = false

/-- Whether a character can be part of a run between tags. -/
def isRunChar (c : Char) : Bool :=
  c ≠ '<'

/-- The characters of a row of tokens. -/
inductive Spelled : List Token → List Char → Prop
  | nil : Spelled [] []
  | markup {t : Token} {u : List Char} {ts : List Token} {cs : List Char} :
      Written t u → Spelled ts cs → Spelled (t :: ts) (u ++ cs)
  | characters {raw : List Char} {ts : List Token} {cs : List Char} :
      IsRun raw → Stops isRunChar cs → Spelled ts cs → Spelled (.characters raw :: ts) (raw ++ cs)

/-! ### From the characters to the token -/

theorem cutLegal?_eq_some_iff {mark cs content rest : List Char} (hmark : mark ≠ []) :
    cutLegal? mark cs = some (content, rest) ↔
      cs = content ++ mark ++ rest ∧ Closes mark content ∧ content.all isLegal = true := by
  rw [cutLegal?, Option.filter_eq_some_iff, cut?_eq_some_iff hmark, and_assoc]

theorem occursIn_append_of_notMem {m : Char} {mark spaces cs : List Char} (hm : m ∉ spaces) :
    occursIn (m :: mark) (spaces ++ cs) = occursIn (m :: mark) cs := by
  induction spaces with
  | nil => rfl
  | cons c spaces ih =>
    rw [List.mem_cons, not_or] at hm
    have hfirst : (m :: mark).isPrefixOf (c :: (spaces ++ cs)) = false := by
      simp [List.isPrefixOf, hm.1]
    rw [List.cons_append, occursIn, hfirst, Bool.false_or, ih hm.2]

theorem closes_skipSpaces {body : List Char} :
    Closes "?>".toList (skipSpaces body) ↔ Closes "?>".toList body := by
  obtain ⟨spaces, hbody, hspaces⟩ := exists_skipSpaces body
  have hm : '?' ∉ spaces := fun h => absurd (hspaces _ h) (by decide)
  have hoccurs : occursIn "?>".toList (spaces ++ (skipSpaces body ++ "?>".toList.dropLast)) =
      occursIn "?>".toList (skipSpaces body ++ "?>".toList.dropLast) :=
    occursIn_append_of_notMem hm
  rw [← List.append_assoc, ← hbody] at hoccurs
  rw [Closes, Closes]
  exact Eq.congr_left hoccurs.symm

/-- The name that a tag begins with decides that it is a tag. -/
theorem Token.read_name {name : Name} {u : List Char} (hname : IsName name u) (fuel : Nat)
    (cs : List Char) : Token.read fuel ('<' :: (u ++ cs)) = Token.readStart fuel (u ++ cs) := by
  obtain ⟨c, tail, rfl, hc⟩ := hname.exists_cons
  rw [Token.read.eq_def]
  split
  · next heq =>
    obtain ⟨rfl, -⟩ := List.cons.inj (List.cons.inj heq).2
    cases hc
  · next heq =>
    obtain ⟨rfl, -⟩ := List.cons.inj (List.cons.inj heq).2
    cases hc
  · next heq =>
    obtain ⟨rfl, -⟩ := List.cons.inj (List.cons.inj heq).2
    cases hc
  · next heq =>
    rw [(List.cons.inj heq).2]
  · next h => exact absurd rfl (h _)

theorem prefix_append_cons_iff {m : Char} {mark : List Char} (hm : m ∉ mark)
    (cs rest : List Char) : mark <+: cs ++ m :: rest ↔ mark <+: cs := by
  refine ⟨fun h => ?_, fun h => h.trans (List.prefix_append cs _)⟩
  rcases List.prefix_or_prefix_of_prefix h (List.prefix_append cs (m :: rest)) with h' | ⟨t, rfl⟩
  · exact h'
  · cases t with
    | nil => simp
    | cons d t =>
      have hmd : d = m := by
        have := (List.prefix_append_right_inj cs).1 h
        exact (List.cons_prefix_cons.1 this).1
      exact absurd (by simp [hmd]) hm

/-- **Whatever follows a token, its characters are read as this token.** -/
theorem Written.read {t : Token} {u : List Char} (h : Written t u) {fuel : Nat}
    (hfuel : u.length ≤ fuel) (rest : List Char) :
    Token.read fuel (u ++ rest) = some (t, rest) := by
  cases h with
  | @start name as closed u us hname hattributes =>
    simp only [List.length_cons, List.length_append] at hfuel
    have hreadName : readName (u ++ (us ++ rest)) = some (name, us ++ rest) :=
      readName_eq_some_iff.2 ⟨u, rfl, hname, hattributes.stops rest⟩
    rw [List.cons_append, List.append_assoc, Token.read_name hname, Token.readStart]
    have hreadAttributes : readAttributes fuel (us ++ rest) = some (as, closed, rest) :=
      hattributes.read (by omega) rest
    simp only [hreadName, hreadAttributes, Option.bind_eq_bind, Option.bind_some]
  | @finish name u spaces hname hspaces =>
    have hreadName : readName (u ++ (spaces ++ '>' :: rest)) = some (name, spaces ++ '>' :: rest) :=
      readName_eq_some_iff.2 ⟨u, rfl, hname, stops_spaces_append hspaces (stops_cons rfl _)⟩
    have hend : after? ['>'] (skipSpaces (spaces ++ '>' :: rest)) = some rest := by
      rw [skipSpaces_append hspaces (stops_cons rfl _)]
      exact after?_append ['>'] rest
    have hassoc : '<' :: '/' :: (u ++ (spaces ++ ['>'])) ++ rest =
        '<' :: '/' :: (u ++ (spaces ++ '>' :: rest)) := by simp
    rw [hassoc, Token.read, Token.readFinish]
    simp only [hreadName, hend, Option.bind_eq_bind, Option.bind_some]
  | @comment content hlegal hcloses hhyphens hlast =>
    have hcut : cutLegal? "-->".toList (content ++ "-->".toList ++ rest) = some (content, rest) :=
      (cutLegal?_eq_some_iff (by decide)).2 ⟨rfl, hcloses, hlegal⟩
    have hassoc : "<!--".toList ++ (content ++ "-->".toList) ++ rest =
        '<' :: '!' :: ("--".toList ++ (content ++ "-->".toList ++ rest)) := by
      rw [List.append_assoc]
      rfl
    rw [hassoc, Token.read]
    simp only [after?_append, Token.readComment, hcut, hhyphens, hlast, Option.bind_eq_bind,
      Option.bind_some, decide_false, Bool.or_self, Bool.false_eq_true, if_false]
  | @verbatim content hlegal hcloses =>
    have hcut : cutLegal? "]]>".toList (content ++ "]]>".toList ++ rest) = some (content, rest) :=
      (cutLegal?_eq_some_iff (by decide)).2 ⟨rfl, hcloses, hlegal⟩
    have hassoc : "<![CDATA[".toList ++ (content ++ "]]>".toList) ++ rest =
        '<' :: '!' :: ("[CDATA[".toList ++ (content ++ "]]>".toList ++ rest)) := by
      rw [List.append_assoc]
      rfl
    have hcomment : after? "--".toList ("[CDATA[".toList ++ (content ++ "]]>".toList ++ rest)) =
        none := rfl
    rw [hassoc, Token.read]
    simp only [hcomment, after?_append, Token.readVerbatim, hcut, Option.bind_eq_bind,
      Option.bind_some]
  | @instruction target body htarget hbegins hstops hxml hlegal hcloses =>
    have hclose : Stops isNameChar (body ++ ("?>".toList ++ rest)) :=
      hstops.append (stops_cons rfl _)
    have hspaces : skipSpaces (body ++ ("?>".toList ++ rest)) =
        skipSpaces body ++ "?>".toList ++ rest := by
      obtain ⟨spaces, hbody, hspaces⟩ := exists_skipSpaces body
      have hstops : Stops isSpace (skipSpaces body ++ ("?>".toList ++ rest)) :=
        (stops_dropWhile isSpace body).append (stops_cons rfl _)
      conv_lhs => rw [hbody, List.append_assoc, skipSpaces_append hspaces hstops]
      rw [List.append_assoc]
    have hcut : cutLegal? "?>".toList (skipSpaces body ++ "?>".toList ++ rest) =
        some (skipSpaces body, rest) :=
      (cutLegal?_eq_some_iff (by decide)).2 ⟨rfl, closes_skipSpaces.2 hcloses, hlegal⟩
    have hdeclaration : after? "xml ".toList (target ++ (body ++ ("?>".toList ++ rest))) =
        none := by
      rw [after?_eq_none_iff, ← List.append_assoc]
      exact fun hp => hxml ((prefix_append_cons_iff (by decide) _ ('>' :: rest)).1 hp)
    have hassoc : "<?".toList ++ (target ++ (body ++ "?>".toList)) ++ rest =
        '<' :: '?' :: (target ++ (body ++ ("?>".toList ++ rest))) := by
      simp only [List.append_assoc]
      rfl
    rw [hassoc, Token.read, hdeclaration]
    simp only [Option.isSome_none, Bool.false_eq_true, if_false, Token.readInstruction,
      takeWhile_append_stops htarget hclose, dropWhile_append_stops htarget hclose, hspaces, hcut,
      hbegins, Option.bind_eq_bind, Option.bind_some, if_true]

theorem IsRun.read {raw rest : List Char} (h : IsRun raw) (hrest : Stops isRunChar rest)
    (fuel : Nat) : Token.read fuel (raw ++ rest) = some (.characters raw, rest) := by
  have hraw : ∀ c ∈ raw, isRunChar c = true := fun c hc => by
    have : c ≠ '<' := fun heq => h.noTag (heq ▸ hc)
    simpa [isRunChar] using this
  have hread : Token.readCharacters (raw ++ rest) = some (.characters raw, rest) := by
    have htake : (raw ++ rest).takeWhile (· ≠ '<') = raw := takeWhile_append_stops hraw hrest
    have hdrop : (raw ++ rest).dropWhile (· ≠ '<') = rest := dropWhile_append_stops hraw hrest
    rw [Token.readCharacters]
    simp only [htake, hdrop, h.legal, h.open_, Bool.not_false, Bool.and_self, if_true]
  obtain ⟨c, tail, rfl⟩ := List.exists_cons_of_ne_nil h.ne_nil
  have hc : '<' ≠ c := fun heq => h.noTag (heq ▸ List.mem_cons_self)
  rw [← hread, Token.read.eq_def]
  split
  · next heq => exact absurd (List.cons.inj heq).1.symm hc
  · next heq => exact absurd (List.cons.inj heq).1.symm hc
  · next heq => exact absurd (List.cons.inj heq).1.symm hc
  · next heq => exact absurd (List.cons.inj heq).1.symm hc
  · rfl

theorem Written.exists_cons {t : Token} {u : List Char} (h : Written t u) :
    ∃ tail, u = '<' :: tail := by
  cases h with
  | start | finish | comment | verbatim | instruction => exact ⟨_, rfl⟩

theorem Written.getLast_eq {t : Token} {u : List Char} (h : Written t u) :
    u.getLast? = some '>' := by
  cases h with
  | start _ hus => simp [List.getLast?_cons, List.getLast?_append, hus.getLast_eq]
  | finish | comment | verbatim | instruction => simp [List.getLast?_cons, List.getLast?_append]

theorem Token.readAll_cons {fuel : Nat} {c : Char} {cs rest : List Char} {t : Token}
    {ts : List Token} (hread : Token.read (fuel + 1) (c :: cs) = some (t, rest))
    (hrest : Token.readAll fuel rest = some ts) :
    Token.readAll (fuel + 1) (c :: cs) = some (t :: ts) := by
  rw [Token.readAll, hread]
  · simp only [Option.bind_eq_bind, Option.bind_some, hrest]
  · exact fun h => by cases h

theorem Spelled.readAll {ts : List Token} {cs : List Char} (h : Spelled ts cs) {fuel : Nat}
    (hfuel : cs.length ≤ fuel) : Token.readAll fuel cs = some ts := by
  induction h generalizing fuel with
  | nil => rw [Token.readAll]
  | @markup t u ts cs hu _ ih =>
    obtain ⟨tail, rfl⟩ := hu.exists_cons
    rw [List.length_append, List.length_cons] at hfuel
    obtain ⟨fuel, rfl⟩ : ∃ n, fuel = n + 1 := ⟨fuel - 1, by omega⟩
    exact Token.readAll_cons (hu.read (by rw [List.length_cons]; omega) cs) (ih (by omega))
  | @characters raw ts cs hraw hcs _ ih =>
    have hread := hraw.read hcs
    obtain ⟨c, tail, rfl⟩ := List.exists_cons_of_ne_nil hraw.ne_nil
    rw [List.length_append, List.length_cons] at hfuel
    obtain ⟨fuel, rfl⟩ : ∃ n, fuel = n + 1 := ⟨fuel - 1, by omega⟩
    exact Token.readAll_cons (hread _) (ih (by omega))

/-! ### From the token to the characters -/

theorem written_of_readStart {fuel : Nat} {cs rest : List Char} {t : Token}
    (h : Token.readStart fuel cs = some (t, rest)) :
    ∃ u, '<' :: cs = u ++ rest ∧ Written t u := by
  obtain ⟨⟨name, cs₁⟩, hname, h⟩ := Option.bind_eq_some_iff.1 h
  obtain ⟨⟨as, closed, cs₂⟩, hattributes, h⟩ := Option.bind_eq_some_iff.1 h
  cases h
  obtain ⟨u, rfl, hu, -⟩ := readName_eq_some_iff.1 hname
  obtain ⟨us, rfl, hus⟩ := exists_areAttributes hattributes
  exact ⟨_, by simp, .start hu hus⟩

theorem written_of_readFinish {cs rest : List Char} {t : Token}
    (h : Token.readFinish cs = some (t, rest)) :
    ∃ u, '<' :: '/' :: cs = u ++ rest ∧ Written t u := by
  obtain ⟨⟨name, cs₁⟩, hname, h⟩ := Option.bind_eq_some_iff.1 h
  obtain ⟨cs₂, hend, h⟩ := Option.bind_eq_some_iff.1 h
  cases h
  obtain ⟨u, rfl, hu, -⟩ := readName_eq_some_iff.1 hname
  obtain ⟨spaces, hcs₁, hspaces⟩ := exists_skipSpaces cs₁
  refine ⟨_, ?_, .finish hu hspaces⟩
  rw [hcs₁, eq_append_of_after? hend]
  simp

theorem written_of_readComment {cs rest : List Char} {t : Token}
    (h : Token.readComment cs = some (t, rest)) :
    ∃ u, "<!--".toList ++ cs = u ++ rest ∧ Written t u := by
  obtain ⟨⟨content, cs₁⟩, hcut, hresult⟩ := Option.bind_eq_some_iff.1 h
  obtain ⟨rfl, hcloses, hlegal⟩ := (cutLegal?_eq_some_iff (by decide)).1 hcut
  dsimp only at hresult
  split at hresult
  · cases hresult
  · next hhyphens =>
    cases hresult
    rw [Bool.not_eq_true, Bool.or_eq_false_iff, decide_eq_false_iff_not] at hhyphens
    exact ⟨_, by simp, .comment hlegal hcloses hhyphens.1 hhyphens.2⟩

theorem written_of_readVerbatim {cs rest : List Char} {t : Token}
    (h : Token.readVerbatim cs = some (t, rest)) :
    ∃ u, "<![CDATA[".toList ++ cs = u ++ rest ∧ Written t u := by
  obtain ⟨⟨content, cs₁⟩, hcut, h⟩ := Option.bind_eq_some_iff.1 h
  cases h
  obtain ⟨rfl, hcloses, hlegal⟩ := (cutLegal?_eq_some_iff (by decide)).1 hcut
  exact ⟨_, by simp, .verbatim hlegal hcloses⟩

theorem written_of_readInstruction {cs rest : List Char} {t : Token}
    (hxml : after? "xml ".toList cs = none) (h : Token.readInstruction cs = some (t, rest)) :
    ∃ u, "<?".toList ++ cs = u ++ rest ∧ Written t u := by
  obtain ⟨⟨content, cs₁⟩, hcut, hresult⟩ := Option.bind_eq_some_iff.1 h
  obtain ⟨hskip, hcloses, hlegal⟩ := (cutLegal?_eq_some_iff (by decide)).1 hcut
  obtain ⟨spaces, hrest, hspaces⟩ := exists_skipSpaces (cs.dropWhile isNameChar)
  have hcs : cs = cs.takeWhile isNameChar ++ (spaces ++ content ++ ("?>".toList ++ cs₁)) := by
    conv_lhs => rw [← List.takeWhile_append_dropWhile (p := isNameChar) (l := cs), hrest, hskip]
    simp only [List.append_assoc]
  have hbody : skipSpaces (spaces ++ content) = content := by
    refine skipSpaces_append hspaces (stops_of_append ("?>".toList ++ cs₁) ?_)
    rw [← List.append_assoc, ← hskip]
    exact stops_dropWhile _ _
  have hstops : Stops isNameChar (spaces ++ content) := by
    refine stops_of_append ("?>".toList ++ cs₁) ?_
    rw [List.append_assoc, ← List.append_assoc content, ← hskip, ← hrest]
    exact stops_dropWhile _ _
  dsimp only at hresult
  split at hresult
  · next hbegins =>
    cases hresult
    have hnoxml : ¬ "xml ".toList <+: cs.takeWhile isNameChar ++ (spaces ++ content) := by
      refine fun hp => after?_eq_none_iff.1 hxml ?_
      rw [hcs, ← List.append_assoc]
      exact hp.trans (List.prefix_append _ _)
    have hwritten := Written.instruction (fun c hc => List.mem_takeWhile_imp hc) hbegins hstops
      hnoxml (hbody.symm ▸ hlegal) (closes_skipSpaces.1 (hbody.symm ▸ hcloses))
    rw [hbody] at hwritten
    refine ⟨_, ?_, hwritten⟩
    conv_lhs => rw [hcs]
    simp only [List.append_assoc]
  · cases hresult

theorem isRun_of_readCharacters {cs rest : List Char} {t : Token} (hcs : Stops (· = '<') cs)
    (hne : cs ≠ []) (h : Token.readCharacters cs = some (t, rest)) :
    ∃ raw, t = .characters raw ∧ cs = raw ++ rest ∧ IsRun raw ∧ Stops isRunChar rest := by
  rw [Token.readCharacters] at h
  split at h
  · next hraw =>
    cases h
    rw [Bool.and_eq_true, Bool.not_eq_true'] at hraw
    refine ⟨_, rfl, List.takeWhile_append_dropWhile.symm, ⟨?_, ?_, hraw.1, hraw.2⟩,
      stops_dropWhile isRunChar cs⟩
    · obtain ⟨c, tail, rfl⟩ := List.exists_cons_of_ne_nil hne
      have hc : c ≠ '<' := by simpa using hcs c rfl
      simp [hc]
    · exact fun hmem => by simpa using List.mem_takeWhile_imp hmem
  · cases h

/-- **What is read are the characters of the token.** -/
theorem written_of_read {fuel : Nat} {cs rest : List Char} {t : Token} (hne : cs ≠ [])
    (h : Token.read fuel cs = some (t, rest)) :
    (∃ u, cs = u ++ rest ∧ Written t u) ∨
      ∃ raw, t = .characters raw ∧ cs = raw ++ rest ∧ IsRun raw ∧ Stops isRunChar rest := by
  rw [Token.read.eq_def] at h
  split at h
  · next ahead =>
    split at h
    · next hcomment =>
      obtain ⟨u, hu, hwritten⟩ := written_of_readComment h
      exact .inl ⟨u, by rw [← hu, eq_append_of_after? hcomment]; rfl, hwritten⟩
    · next hverbatim _ =>
      obtain ⟨u, hu, hwritten⟩ := written_of_readVerbatim h
      exact .inl ⟨u, by rw [← hu, eq_append_of_after? hverbatim]; rfl, hwritten⟩
    · cases h
  · next ahead =>
    split at h
    · cases h
    · next hxml => exact .inl (written_of_readInstruction (by simpa using hxml) h)
  · exact .inl (written_of_readFinish h)
  · exact .inl (written_of_readStart h)
  · next hstart =>
    refine .inr (isRun_of_readCharacters (fun c hc => ?_) hne h)
    obtain ⟨tail, rfl⟩ := List.head?_eq_some_iff.1 (Option.mem_def.1 hc)
    simp only [decide_eq_false_iff_not]
    rintro rfl
    exact hstart _ rfl

theorem spelled_of_readAll {fuel : Nat} {cs : List Char} {ts : List Token}
    (h : Token.readAll fuel cs = some ts) : Spelled ts cs := by
  fun_induction Token.readAll fuel cs generalizing ts with
  | case1 => cases h; exact .nil
  | case2 => cases h
  | case3 cs fuel hne ih =>
    obtain ⟨⟨t, rest⟩, hread, h⟩ := Option.bind_eq_some_iff.1 h
    obtain ⟨ts, hall, h⟩ := Option.bind_eq_some_iff.1 h
    cases h
    rcases written_of_read hne hread with ⟨u, rfl, hu⟩ | ⟨raw, rfl, rfl, hraw, hstops⟩
    · exact .markup hu (ih _ hall)
    · exact .characters hraw hstops (ih _ hall)

/-- **A text is read as a row of tokens exactly if it is their characters in a row.** -/
theorem readAll_iff_spelled {cs : List Char} {ts : List Token} :
    Token.readAll cs.length cs = some ts ↔ Spelled ts cs :=
  ⟨spelled_of_readAll, fun h => h.readAll le_rfl⟩

/-- What no token begins with, no text begins with. -/
theorem Spelled.not_prefix {ts : List Token} {cs : List Char} (h : Spelled ts cs) (c : Char)
    (head : List Char) (hread : ∀ fuel rest, Token.read fuel (c :: (head ++ rest)) = none) :
    ¬ c :: head <+: cs := by
  rintro ⟨rest, rfl⟩
  have hall := h.readAll (Nat.le_succ _)
  rw [List.cons_append, Token.readAll, hread] at hall
  · cases hall
  · exact fun h => by cases h

end Scorebook.Markup
