import Scorebook.Proofs.Markup.Declaration

/-!
# Line ends in markup

A line ends with a line feed, which may have a carriage return in front of it. No token is
recognised by either of the two, so a text whose line ends are all made line feeds (`unified`)
holds the same tokens, up to the line ends in them (`Holds.unified`).
-/

namespace Scorebook.Markup

open Text Source

/-! ## Texts with line feeds only -/

/-- The text with a line feed for every line end. -/
def unified : List Char → List Char
  | [] => []
  | '\r' :: '\n' :: cs => '\n' :: unified cs
  | c :: cs => c :: unified cs

variable {c : Char} {cs ds : List Char}

theorem unified_cons_of_ne (h : ∀ ds, c = '\r' → cs = '\n' :: ds → False) :
    unified (c :: cs) = c :: unified cs := by
  rw [unified]
  exact h

theorem unified_cons_of_head (h : c = '\r' → cs.head? ≠ some '\n') :
    unified (c :: cs) = c :: unified cs :=
  unified_cons_of_ne fun ds hc hcs => h hc (by rw [hcs]; rfl)

theorem unified_cons (hc : c ≠ '\r') : unified (c :: cs) = c :: unified cs :=
  unified_cons_of_head fun h => absurd h hc

theorem unified_append (h : cs.getLast? ≠ some '\r' ∨ ds.head? ≠ some '\n') :
    unified (cs ++ ds) = unified cs ++ unified ds := by
  fun_induction unified cs with
  | case1 => rfl
  | case2 cs ih =>
    have hrest : cs.getLast? ≠ some '\r' ∨ ds.head? ≠ some '\n' := by
      refine h.imp (fun hlast hr => hlast ?_) id
      rw [List.getLast?_cons_cons, List.getLast?_cons, hr, Option.getD_some]
    rw [List.cons_append, List.cons_append, unified, ih hrest, List.cons_append]
  | case3 c cs hcr ih =>
    cases cs with
    | nil =>
      have hhead : c = '\r' → ds.head? ≠ some '\n' := by
        rintro rfl
        exact h.resolve_left fun hlast => hlast rfl
      rw [List.cons_append, List.nil_append, unified_cons_of_head hhead]
      rfl
    | cons d cs =>
      have hhead : c = '\r' → (d :: cs ++ ds).head? ≠ some '\n' := by
        rintro rfl hd
        cases hd
        exact hcr cs rfl rfl
      rw [List.getLast?_cons_cons] at h
      rw [List.cons_append, unified_cons_of_head hhead, ih h, List.cons_append]

theorem unified_append_of_notMem (h : '\r' ∉ cs) : unified (cs ++ ds) = cs ++ unified ds := by
  induction cs with
  | nil => rfl
  | cons c cs ih =>
    rw [List.mem_cons, not_or] at h
    rw [List.cons_append, unified_cons (Ne.symm h.1), ih h.2, List.cons_append]

theorem unified_of_notMem (h : '\r' ∉ cs) : unified cs = cs := by
  conv_lhs => rw [← List.append_nil cs, unified_append_of_notMem h]
  exact List.append_nil cs

theorem mem_unified (h : c ∈ unified cs) : c ∈ cs := by
  fun_induction unified cs with
  | case1 => exact h
  | case2 cs ih =>
    rcases List.mem_cons.1 h with rfl | h
    · simp
    · exact List.mem_cons_of_mem _ (List.mem_cons_of_mem _ (ih h))
  | case3 d cs _ ih =>
    rcases List.mem_cons.1 h with rfl | h
    · exact List.mem_cons_self
    · exact List.mem_cons_of_mem _ (ih h)

theorem all_unified {p : Char → Bool} (h : cs.all p = true) : (unified cs).all p = true := by
  rw [List.all_eq_true] at h ⊢
  exact fun c hc => h c (mem_unified hc)

theorem stops_unified {p : Char → Bool} (hp : p '\r' = p '\n') (h : Stops p cs) :
    Stops p (unified cs) := by
  fun_cases unified cs with
  | case1 => exact h
  | case2 cs => exact stops_cons (hp ▸ h '\r' rfl) _
  | case3 c cs _ => exact stops_cons (h c rfl) _

theorem getLast?_unified (cs : List Char) : (unified cs).getLast? = cs.getLast? := by
  fun_induction unified cs with
  | case1 => rfl
  | case2 cs ih => rw [List.getLast?_cons, ih, List.getLast?_cons, List.getLast?_cons]; simp
  | case3 c cs _ ih => rw [List.getLast?_cons, ih, List.getLast?_cons]

theorem unified_ne_nil (h : cs ≠ []) : unified cs ≠ [] := by
  intro hnil
  have hlast := getLast?_unified cs
  rw [hnil] at hlast
  exact h (List.getLast?_eq_none_iff.1 hlast.symm)

/-- A mark without line ends is where it was. -/
theorem prefix_of_prefix_unified {mark : List Char} (hmark : '\n' ∉ mark)
    (h : mark <+: unified cs) : mark <+: cs := by
  induction mark generalizing cs with
  | nil => exact List.nil_prefix
  | cons m mark ih =>
    rw [List.mem_cons, not_or] at hmark
    fun_cases unified cs with
    | case1 => exact h
    | case2 cs =>
      rw [unified, List.cons_prefix_cons] at h
      exact absurd h.1.symm hmark.1
    | case3 c cs hcr =>
      rw [unified_cons_of_ne hcr, List.cons_prefix_cons] at h
      exact List.cons_prefix_cons.2 ⟨h.1, ih hmark.2 h.2⟩

theorem occursIn_of_occursIn_unified {mark : List Char} (hne : mark ≠ [])
    (hmark : '\n' ∉ mark) (h : occursIn mark (unified cs) = true) :
    occursIn mark cs = true := by
  fun_induction unified cs with
  | case1 => exact h
  | case2 cs ih =>
    rw [occursIn, Bool.or_eq_true, List.isPrefixOf_iff_prefix] at h
    rcases h with h | h
    · obtain ⟨m, mark, rfl⟩ := List.exists_cons_of_ne_nil hne
      rw [List.mem_cons, not_or] at hmark
      exact absurd (List.cons_prefix_cons.1 h).1.symm hmark.1
    · rw [occursIn, occursIn, ih h, Bool.or_true, Bool.or_true]
  | case3 c cs hcr ih =>
    rw [occursIn, Bool.or_eq_true, List.isPrefixOf_iff_prefix] at h
    rw [occursIn, Bool.or_eq_true, List.isPrefixOf_iff_prefix]
    refine h.imp (fun h => ?_) ih
    rw [← unified_cons_of_ne hcr] at h
    exact prefix_of_prefix_unified hmark h

/-! ## Tokens with line feeds only -/

def RawAttribute.unified (a : RawAttribute) : RawAttribute :=
  { a with value := Markup.unified a.value }

def Token.unified : Token → Token
  | .start name as closed => .start name (as.map RawAttribute.unified) closed
  | .finish name => .finish name
  | .characters raw => .characters (Markup.unified raw)
  | .verbatim content => .verbatim (Markup.unified content)
  | .comment content => .comment (Markup.unified content)
  | .instruction target content => .instruction target (Markup.unified content)

theorem notMem_of_isNameChar (h : ∀ c ∈ cs, isNameChar c = true) : '\r' ∉ cs :=
  fun hmem => absurd (h _ hmem) (by decide)

theorem isSpace_unified (h : ∀ c ∈ cs, isSpace c = true) :
    ∀ c ∈ unified cs, isSpace c = true :=
  fun c hc => h c (mem_unified hc)

theorem unified_append_cons (hr : c ≠ '\r') (hn : c ≠ '\n') :
    unified (cs ++ c :: ds) = unified cs ++ c :: unified ds := by
  rw [unified_append (.inr (by simpa using hn)), unified_cons hr]

theorem IsValue.unified {value u : List Char} (h : IsValue value u) :
    IsValue (unified value) (unified u) := by
  obtain ⟨⟨quote, hquote, rfl, hvalue⟩, hnoTag, hlegal⟩ := h
  refine ⟨⟨quote, hquote, ?_, fun c hc => hvalue c (mem_unified hc)⟩,
    fun hmem => hnoTag (mem_unified hmem), all_unified hlegal⟩
  rcases hquote with rfl | rfl <;>
    rw [unified_cons (by decide), unified_append_cons (by decide) (by decide)] <;> rfl

theorem IsValue.head_ne {value u : List Char} (h : IsValue value u) : u.head? ≠ some '\n' := by
  obtain ⟨quote, hquote, rfl, -⟩ := h.quoted
  rcases hquote with rfl | rfl <;> simp

theorem IsAttribute.unified {a : RawAttribute} {u : List Char} (h : IsAttribute a u) :
    IsAttribute a.unified (unified u) := by
  cases h with
  | mk hname hbefore hbehind hvalue =>
    rw [unified_append_of_notMem (notMem_of_isNameChar hname.chars),
      unified_append_cons (by decide) (by decide), unified_append (.inr hvalue.head_ne)]
    exact .mk hname (isSpace_unified hbefore) (isSpace_unified hbehind) hvalue.unified

theorem IsAttribute.head_ne {a : RawAttribute} {u : List Char} (h : IsAttribute a u)
    (cs : List Char) : (u ++ cs).head? ≠ some '\n' := by
  obtain ⟨c, tail, rfl, hc⟩ := h.exists_cons
  rintro heq
  cases heq
  cases hc

theorem IsAttribute.getLast_ne {a : RawAttribute} {u : List Char} (h : IsAttribute a u) :
    u.getLast? ≠ some '\r' := by
  cases h with
  | mk _ _ _ hvalue =>
    obtain ⟨quote, hquote, rfl, -⟩ := hvalue.quoted
    rcases hquote with rfl | rfl <;> simp [List.getLast?_cons]

/-- Both characters of a line end may separate attributes. -/
theorem AreAttributes.unified {as : List RawAttribute} {closed : Bool} {us : List Char}
    (h : AreAttributes as closed us) :
    AreAttributes (as.map RawAttribute.unified) closed (unified us) := by
  induction h with
  | opened hspaces =>
    rw [unified_append_cons (by decide) (by decide)]
    exact .opened (isSpace_unified hspaces)
  | closed hspaces =>
    rw [unified_append_cons (by decide) (by decide)]
    exact .closed (isSpace_unified hspaces)
  | cons hne hspaces hu _ ih =>
    rw [unified_append (.inr (hu.head_ne _)), unified_append (.inl hu.getLast_ne)]
    exact .cons (unified_ne_nil hne) (isSpace_unified hspaces) hu.unified ih

theorem unified_append_mark {mark : List Char} (hreturn : '\r' ∉ mark) (hfeed : '\n' ∉ mark)
    (cs : List Char) : unified (cs ++ mark) = unified cs ++ mark := by
  have hhead : mark.head? ≠ some '\n' := fun heq => hfeed (List.mem_of_mem_head? heq)
  rw [unified_append (.inr hhead), unified_of_notMem hreturn]

theorem Closes.unified {mark content : List Char} (hmark : mark ∈ closingMarks)
    (h : Closes mark content) : Closes mark (unified content) := by
  obtain ⟨hne, hreturn, hfeed⟩ := closingMark_inLine hmark
  rw [Closes, Bool.eq_false_iff] at h ⊢
  intro hoccurs
  refine h (occursIn_of_occursIn_unified hne hfeed ?_)
  rwa [unified_append_mark (fun hmem => hreturn (List.dropLast_subset mark hmem))
    fun hmem => hfeed (List.dropLast_subset mark hmem)]

theorem skipSpaces_unified (cs : List Char) :
    skipSpaces (unified cs) = unified (skipSpaces cs) := by
  obtain ⟨spaces, hcs, hspaces⟩ := exists_skipSpaces cs
  have hstops : Stops isSpace (skipSpaces cs) := stops_dropWhile _ _
  have hhead : (skipSpaces cs).head? ≠ some '\n' := fun heq => by cases hstops '\n' heq
  conv_lhs => rw [hcs, unified_append (.inr hhead)]
  exact skipSpaces_append (isSpace_unified hspaces) (stops_unified rfl hstops)

/-- **A token with its line ends made line feeds is written that way.** -/
theorem Written.unified {t : Token} {u : List Char} (h : Written t u) :
    Written t.unified (unified u) := by
  cases h with
  | @start name as closed u us hname hus =>
    rw [unified_cons (by decide), unified_append_of_notMem (notMem_of_isNameChar hname.chars)]
    exact .start hname hus.unified
  | @finish name u spaces hname hspaces =>
    rw [unified_cons (by decide), unified_cons (by decide),
      unified_append_of_notMem (notMem_of_isNameChar hname.chars),
      unified_append_cons (by decide) (by decide)]
    exact .finish hname (isSpace_unified hspaces)
  | @comment content hlegal hcloses hhyphens hlast =>
    rw [unified_append_of_notMem (by decide), unified_append_mark (by decide) (by decide)]
    refine .comment (all_unified hlegal) (hcloses.unified (by decide)) ?_ ?_
    · rw [Bool.eq_false_iff] at hhyphens ⊢
      exact fun h => hhyphens (occursIn_of_occursIn_unified (by decide) (by decide) h)
    · rwa [getLast?_unified]
  | @verbatim content hlegal hcloses =>
    rw [unified_append_of_notMem (by decide), unified_append_mark (by decide) (by decide)]
    exact .verbatim (all_unified hlegal) (hcloses.unified (by decide))
  | @instruction target body htarget hbegins hstops hxml hlegal hcloses =>
    rw [unified_append_of_notMem (by decide),
      unified_append_of_notMem (notMem_of_isNameChar htarget),
      unified_append_mark (by decide) (by decide), Token.unified, ← skipSpaces_unified]
    refine .instruction htarget hbegins (stops_unified rfl hstops) ?_ ?_
      (hcloses.unified (by decide))
    · rw [← unified_append_of_notMem (notMem_of_isNameChar htarget)]
      exact fun hp => hxml (prefix_of_prefix_unified (by decide) hp)
    · rw [skipSpaces_unified]
      exact all_unified hlegal

theorem IsRun.unified {raw : List Char} (h : IsRun raw) : IsRun (unified raw) := by
  refine ⟨unified_ne_nil h.ne_nil, fun hmem => h.noTag (mem_unified hmem), all_unified h.legal, ?_⟩
  have hopen := h.open_
  rw [Bool.eq_false_iff] at hopen ⊢
  exact fun hoccurs => hopen (occursIn_of_occursIn_unified (by decide) (by decide) hoccurs)

theorem Spelled.unified {ts : List Token} {cs : List Char} (h : Spelled ts cs) :
    Spelled (ts.map Token.unified) (unified cs) := by
  induction h with
  | nil => exact .nil
  | @markup t u ts cs hu _ ih =>
    rw [unified_append (.inl (by rw [hu.getLast_eq]; decide))]
    exact .markup hu.unified ih
  | @characters raw ts cs hraw hcs _ ih =>
    have hhead : cs.head? ≠ some '\n' := fun heq => by cases hcs '\n' heq
    rw [unified_append (.inr hhead)]
    exact .characters hraw.unified (stops_unified rfl hcs) ih

/-! ## What stands in front of them -/

theorem after?_unified {mark rest : List Char} (hmark : '\r' ∉ mark)
    (h : after? mark cs = some rest) : after? mark (unified cs) = some (unified rest) := by
  rw [eq_append_of_after? h, unified_append_of_notMem hmark]
  exact after?_append mark _

theorem head?_any_isSpace_unified (cs : List Char) :
    (unified cs).head?.any isSpace = cs.head?.any isSpace := by
  fun_cases unified cs <;> rfl

theorem head?_unified_ne (h : cs.head? ≠ some c) (hc : c ≠ '\n') :
    (unified cs).head? ≠ some c := by
  fun_cases unified cs with
  | case1 => exact h
  | case2 cs => simpa using Ne.symm hc
  | case3 d cs _ => exact h

theorem skipField_unified {label : String} {needed : Bool} {rest : List Char}
    (hr : '\r' ∉ label.toList) (hn : '\n' ∉ label.toList)
    (h : skipField label needed cs = some rest) :
    skipField label needed (unified cs) = some (unified rest) := by
  rw [skipField] at h
  split at h
  · next hprefix =>
    obtain ⟨⟨a, cs₁⟩, hattribute, hresult⟩ := Option.bind_eq_some_iff.1 h
    obtain ⟨u, rfl, hu⟩ := readAttribute_eq_some_iff.1 hattribute
    obtain ⟨tail, htail⟩ := List.isPrefixOf_iff_prefix.1 hprefix
    have hprefix' : label.toList.isPrefixOf (unified (u ++ cs₁)) = true := by
      rw [← htail, unified_append_of_notMem hr]
      exact List.isPrefixOf_iff_prefix.2 (List.prefix_append _ _)
    have hread : readAttribute (unified (u ++ cs₁)) = some (a.unified, unified cs₁) := by
      rw [unified_append (.inl hu.getLast_ne)]
      exact readAttribute_eq_some_iff.2 ⟨_, rfl, hu.unified⟩
    dsimp only at hresult
    split at hresult
    · next hend =>
      cases hresult
      have hend' : ((unified cs₁).head?.any isSpace ||
          (after? "?>".toList (unified cs₁)).isSome) = true := by
        rw [head?_any_isSpace_unified]
        rw [Bool.or_eq_true] at hend ⊢
        refine hend.imp id fun hclose => ?_
        obtain ⟨rest, hclose⟩ := Option.isSome_iff_exists.1 hclose
        rw [after?_unified (by decide) hclose]
        rfl
      rw [skipField, if_pos hprefix', hread]
      simp only [Option.bind_eq_bind, Option.bind_some, hend', if_true, skipSpaces_unified]
    · cases hresult
  · next hprefix =>
    split at h
    · cases h
    · next hneeded =>
      cases h
      have hprefix' : ¬ label.toList.isPrefixOf (unified cs) = true := fun hp =>
        hprefix (List.isPrefixOf_iff_prefix.2
          (prefix_of_prefix_unified hn (List.isPrefixOf_iff_prefix.1 hp)))
      rw [skipField, if_neg hprefix', if_neg hneeded]

theorem skipDeclaration_unified {rest : List Char} (h : skipDeclaration cs = some rest) :
    skipDeclaration (unified cs) = some (unified rest) := by
  rw [skipDeclaration] at h
  split at h
  · next hmark =>
    cases h
    have hmark' : after? "<?xml ".toList (unified cs) = none :=
      after?_eq_none_iff.2 fun hp =>
        after?_eq_none_iff.1 hmark (prefix_of_prefix_unified (by decide) hp)
    rw [skipDeclaration, hmark']
  · next cs₀ hmark =>
    obtain ⟨cs₁, hversion, h⟩ := Option.bind_eq_some_iff.1 h
    obtain ⟨cs₂, hencoding, h⟩ := Option.bind_eq_some_iff.1 h
    obtain ⟨cs₃, hstandalone, hclose⟩ := Option.bind_eq_some_iff.1 h
    have hversion' := skipField_unified (by decide) (by decide) hversion
    rw [← skipSpaces_unified] at hversion'
    rw [skipDeclaration, after?_unified (by decide) hmark]
    simp only [hversion', skipField_unified (by decide) (by decide) hencoding,
      skipField_unified (by decide) (by decide) hstandalone, after?_unified (by decide) hclose,
      Option.bind_eq_bind, Option.bind_some]

theorem exists_isDeclaration_unified {u : List Char} {ts : List Token} (hu : IsDeclaration u)
    (hcs : Spelled ts cs) :
    ∃ v, unified (u ++ cs) = v ++ unified cs ∧ IsDeclaration v :=
  exists_isDeclaration (skipDeclaration_unified (hu.skip hcs))

/-- **A text holds the same tokens with line feeds only**, up to the line ends in them. -/
theorem Holds.unified {ts : List Token} (h : Holds cs ts) :
    Holds (unified cs) (ts.map Token.unified) := by
  cases h with
  | marked hu hcs =>
    obtain ⟨v, heq, hv⟩ := exists_isDeclaration_unified hu hcs
    rw [unified_cons (by decide), heq]
    exact .marked hv hcs.unified
  | @unmarked u rest _ hhead hu hcs =>
    obtain ⟨v, heq, hv⟩ := exists_isDeclaration_unified hu hcs
    have hhead' := head?_unified_ne hhead (by decide)
    rw [heq] at hhead' ⊢
    exact .unmarked hhead' hv hcs.unified

end Scorebook.Markup
