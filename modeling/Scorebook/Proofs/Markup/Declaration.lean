import Scorebook.Proofs.Markup.Written

/-!
# What stands in front of the tokens

A text may begin with a byte order mark and a declaration. A declaration has characters of its own
as well, which are skipped in the same way whatever follows them (`IsDeclaration`). So what a text
holds can be told without reading it (`Holds`): a mark or none, a declaration or none, and then the
characters of the tokens. These are the tokens that are read (`tokens?_eq_some_iff`).
-/

namespace Scorebook.Markup

open Source

/-! ## Fields -/

theorem separates_append (u rest rest' : List Char) :
    ((u ++ ("?>".toList ++ rest)).head?.any isSpace ||
        (after? "?>".toList (u ++ ("?>".toList ++ rest))).isSome) =
      ((u ++ ("?>".toList ++ rest')).head?.any isSpace ||
        (after? "?>".toList (u ++ ("?>".toList ++ rest'))).isSome) := by
  match u with
  | [] => simp [after?]
  | [c] => simp [after?]
  | c :: d :: u =>
    by_cases hmark : '?' = c ∧ '>' = d
    · obtain ⟨rfl, rfl⟩ := hmark
      simp [after?]
    · simp [after?, hmark]

theorem prefix_append_close_iff {label : String} (hlabel : '?' ∉ label.toList)
    (u rest : List Char) :
    label.toList.isPrefixOf (u ++ ("?>".toList ++ rest)) = label.toList.isPrefixOf u := by
  rw [Bool.eq_iff_iff, List.isPrefixOf_iff_prefix, List.isPrefixOf_iff_prefix]
  exact prefix_append_cons_iff hlabel u ('>' :: rest)

/-- **A field is read alike whatever follows the declaration.** -/
theorem exists_skipField {label : String} {needed : Bool} {cs fields rest : List Char}
    (hlabel : '?' ∉ label.toList)
    (h : skipField label needed cs = some (fields ++ ("?>".toList ++ rest))) :
    ∃ field, cs = field ++ (fields ++ ("?>".toList ++ rest)) ∧ '<' ∉ field ∧
      ∀ rest', skipField label needed (field ++ (fields ++ ("?>".toList ++ rest'))) =
        some (fields ++ ("?>".toList ++ rest')) := by
  rw [skipField] at h
  split at h
  · next hprefix =>
    obtain ⟨⟨a, cs₁⟩, hattribute, hresult⟩ := Option.bind_eq_some_iff.1 h
    obtain ⟨u, rfl, hu⟩ := readAttribute_eq_some_iff.1 hattribute
    dsimp only at hresult
    split at hresult
    · next hend =>
      have hskip : skipSpaces cs₁ = fields ++ ("?>".toList ++ rest) := Option.some.inj hresult
      obtain ⟨spaces, hcs₁, hspaces⟩ := exists_skipSpaces cs₁
      have hfields : Stops isSpace fields := by
        have hstops := stops_dropWhile isSpace cs₁
        rw [← skipSpaces, hskip] at hstops
        exact stops_of_append _ hstops
      rw [hskip] at hcs₁
      subst hcs₁
      refine ⟨u ++ spaces, by rw [List.append_assoc], ?_, fun rest' => ?_⟩
      · rw [List.mem_append, not_or]
        exact ⟨hu.notMem, notMem_of_spaces hspaces⟩
      · have hread : readAttribute (u ++ (spaces ++ (fields ++ ("?>".toList ++ rest')))) =
            some (a, spaces ++ (fields ++ ("?>".toList ++ rest'))) :=
          readAttribute_eq_some_iff.2 ⟨u, rfl, hu⟩
        have hskip' : skipSpaces (spaces ++ (fields ++ ("?>".toList ++ rest'))) =
            fields ++ ("?>".toList ++ rest') :=
          skipSpaces_append hspaces (hfields.append (stops_cons rfl ('>' :: rest')))
        rw [← List.append_assoc, ← List.append_assoc, prefix_append_close_iff hlabel,
          ← prefix_append_close_iff hlabel _ rest', List.append_assoc, List.append_assoc] at hprefix
        rw [← List.append_assoc, separates_append _ rest rest', List.append_assoc] at hend
        rw [List.append_assoc, skipField, if_pos hprefix, hread]
        simp only [Option.bind_eq_bind, Option.bind_some, hend, if_true, hskip']
    · cases hresult
  · next hprefix =>
    split at h
    · cases h
    · next hneeded =>
      cases h
      refine ⟨[], rfl, List.not_mem_nil, fun rest' => ?_⟩
      rw [prefix_append_close_iff hlabel] at hprefix
      rw [List.nil_append, skipField, prefix_append_close_iff hlabel, if_neg hprefix,
        if_neg hneeded]

/-! ## Declarations -/

/-- The characters of a declaration, if there is one. -/
inductive IsDeclaration : List Char → Prop
  | missing : IsDeclaration []
  | stated {fields : List Char} : '<' ∉ fields →
      (∀ rest, skipDeclaration ("<?xml ".toList ++ (fields ++ ("?>".toList ++ rest))) = some rest) →
      IsDeclaration ("<?xml ".toList ++ (fields ++ "?>".toList))

theorem exists_isDeclaration {cs rest : List Char} (h : skipDeclaration cs = some rest) :
    ∃ u, cs = u ++ rest ∧ IsDeclaration u := by
  rw [skipDeclaration] at h
  split at h
  · cases h
    exact ⟨[], rfl, .missing⟩
  · next cs₀ hmark =>
    obtain ⟨cs₁, hversion, h⟩ := Option.bind_eq_some_iff.1 h
    obtain ⟨cs₂, hencoding, h⟩ := Option.bind_eq_some_iff.1 h
    obtain ⟨cs₃, hstandalone, h⟩ := Option.bind_eq_some_iff.1 h
    have hcs := eq_append_of_after? hmark
    have hcs₃ : cs₃ = "?>".toList ++ rest := eq_append_of_after? h
    rw [hcs₃, ← List.nil_append ("?>".toList ++ rest)] at hstandalone
    obtain ⟨w, hcs₂, hw, hreadw⟩ := exists_skipField (by decide) hstandalone
    rw [List.nil_append] at hcs₂
    rw [hcs₂] at hencoding
    obtain ⟨v, hcs₁, hv, hreadv⟩ := exists_skipField (by decide) hencoding
    rw [hcs₁, ← List.append_assoc] at hversion
    obtain ⟨u, hskip, hu, hreadu⟩ := exists_skipField (by decide) hversion
    obtain ⟨spaces, hcs₀, hspaces⟩ := exists_skipSpaces cs₀
    have hstops : Stops isSpace (u ++ (v ++ w)) := by
      have hstops := stops_dropWhile isSpace cs₀
      rw [← skipSpaces, hskip, ← List.append_assoc] at hstops
      exact stops_of_append _ hstops
    refine ⟨"<?xml ".toList ++ (spaces ++ (u ++ (v ++ w)) ++ "?>".toList), ?_, .stated ?_ ?_⟩
    · rw [hcs, hcs₀, hskip]
      simp only [List.append_assoc]
    · simp only [List.mem_append, not_or]
      exact ⟨notMem_of_spaces hspaces, hu, hv, hw⟩
    · intro rest'
      have hclose : Stops isSpace ("?>".toList ++ rest') := stops_cons rfl _
      have hskip' : skipSpaces (spaces ++ (u ++ (v ++ w)) ++ ("?>".toList ++ rest')) =
          u ++ (v ++ w ++ ("?>".toList ++ rest')) := by
        rw [List.append_assoc, skipSpaces_append hspaces (hstops.append hclose), List.append_assoc]
      have hreadu' := hreadu rest'
      have hreadw' := hreadw rest'
      rw [List.append_assoc v] at hreadu'
      rw [List.nil_append] at hreadw'
      rw [skipDeclaration, after?_append]
      simp only [hskip', List.append_assoc v, hreadu', hreadv rest', hreadw', after?_append,
        Option.bind_eq_bind, Option.bind_some]

/-! ## Texts -/

/-- The text has these tokens behind its byte order mark and its declaration. -/
inductive Holds : List Char → List Token → Prop
  | marked {u cs : List Char} {ts : List Token} : IsDeclaration u → Spelled ts cs →
      Holds ('\uFEFF' :: (u ++ cs)) ts
  | unmarked {u cs : List Char} {ts : List Token} : (u ++ cs).head? ≠ some '\uFEFF' →
      IsDeclaration u → Spelled ts cs → Holds (u ++ cs) ts

theorem IsDeclaration.skip {u cs : List Char} {ts : List Token} (hu : IsDeclaration u)
    (hcs : Spelled ts cs) : skipDeclaration (u ++ cs) = some cs := by
  cases hu with
  | missing =>
    have hmark : after? "<?xml ".toList cs = none :=
      after?_eq_none_iff.2 (hcs.not_prefix '<' "?xml ".toList fun _ _ => rfl)
    rw [List.nil_append, skipDeclaration, hmark]
  | stated _ hskip =>
    simp only [List.append_assoc]
    exact hskip cs

/-- **The tokens of a text are those that it holds.** -/
theorem tokens?_eq_some_iff {s : String} {ts : List Token} :
    tokens? s = some ts ↔ Holds s.toList ts := by
  have hspelled : ∀ text, (do
      let rest ← skipDeclaration text
      Token.readAll rest.length rest) = some ts ↔
        ∃ u rest, text = u ++ rest ∧ IsDeclaration u ∧ Spelled ts rest := by
    intro text
    constructor
    · intro h
      obtain ⟨rest, hskip, hall⟩ := Option.bind_eq_some_iff.1 h
      obtain ⟨u, rfl, hu⟩ := exists_isDeclaration hskip
      exact ⟨u, rest, rfl, hu, readAll_iff_spelled.1 hall⟩
    · rintro ⟨u, rest, rfl, hu, hrest⟩
      exact Option.bind_eq_some_iff.2 ⟨rest, hu.skip hrest, readAll_iff_spelled.2 hrest⟩
  rw [tokens?]
  generalize s.toList = cs
  constructor
  · intro h
    split at h
    · obtain ⟨u, rest, rfl, hu, hrest⟩ := (hspelled _).1 h
      exact .marked hu hrest
    · next hmark =>
      obtain ⟨u, rest, rfl, hu, hrest⟩ := (hspelled _).1 h
      refine .unmarked (fun hhead => ?_) hu hrest
      obtain ⟨tail, htail⟩ := List.head?_eq_some_iff.1 hhead
      exact hmark tail htail
  · intro h
    cases h with
    | marked hu hrest => exact (hspelled _).2 ⟨_, _, rfl, hu, hrest⟩
    | unmarked hhead hu hrest =>
      split
      · next heq => simp [heq] at hhead
      · exact (hspelled _).2 ⟨_, _, rfl, hu, hrest⟩

/-! ## What tokens say -/

/-- The characters whose meaning the tree holds: values, runs of characters and sections. -/
inductive Token.Says : Token → List Char → Prop
  | value (name : Name) {as : List RawAttribute} (closed : Bool) {a : RawAttribute} :
      a ∈ as → Says (.start name as closed) a.value
  | characters (raw : List Char) : Says (.characters raw) raw
  | verbatim (content : List Char) : Says (.verbatim content) content

theorem isInfix_append_left {cs ds : List Char} (h : cs <:+: ds) (u : List Char) :
    cs <:+: u ++ ds :=
  h.trans (List.suffix_append u ds).isInfix

theorem isInfix_append_right {cs ds : List Char} (h : cs <:+: ds) (u : List Char) :
    cs <:+: ds ++ u :=
  h.trans (List.prefix_append ds u).isInfix

theorem IsAttribute.isInfix {a : RawAttribute} {u : List Char} (h : IsAttribute a u) :
    a.value <:+: u := by
  cases h with
  | @mk name value nameText valueText before behind _ _ _ hvalue =>
    obtain ⟨quote, -, rfl, -⟩ := hvalue.quoted
    refine isInfix_append_left (isInfix_append_left ?_ before) nameText
    refine (isInfix_append_left ?_ behind).trans (List.suffix_cons '=' _).isInfix
    exact (isInfix_append_right List.infix_rfl [quote]).trans (List.suffix_cons quote _).isInfix

theorem AreAttributes.isInfix {as : List RawAttribute} {closed : Bool} {us : List Char}
    (h : AreAttributes as closed us) {a : RawAttribute} (ha : a ∈ as) : a.value <:+: us := by
  induction h with
  | opened | closed => cases ha
  | @cons b as closed spaces u us _ _ hu _ ih =>
    refine isInfix_append_left ?_ spaces
    rcases List.mem_cons.1 ha with rfl | ha
    · exact isInfix_append_right hu.isInfix us
    · exact isInfix_append_left (ih ha) u

theorem Written.isInfix {t : Token} {u cs : List Char} (h : Written t u) (hsaid : t.Says cs) :
    cs <:+: u := by
  cases hsaid with
  | value name closed ha =>
    cases h with
    | start _ hus =>
      exact (isInfix_append_left (hus.isInfix ha) _).trans (List.suffix_cons '<' _).isInfix
  | characters => cases h
  | verbatim content =>
    cases h with
    | verbatim _ _ => exact isInfix_append_left (isInfix_append_right List.infix_rfl _) _

theorem Spelled.isInfix {ts : List Token} {cs ds : List Char} (h : Spelled ts cs) {t : Token}
    (ht : t ∈ ts) (hsaid : t.Says ds) : ds <:+: cs := by
  induction h with
  | nil => cases ht
  | markup hu _ ih =>
    rcases List.mem_cons.1 ht with rfl | ht
    · exact isInfix_append_right (hu.isInfix hsaid) _
    · exact isInfix_append_left (ih ht) _
  | characters _ _ _ ih =>
    rcases List.mem_cons.1 ht with rfl | ht
    · cases hsaid
      exact isInfix_append_right List.infix_rfl _
    · exact isInfix_append_left (ih ht) _

/-- **What a token says is in the text.** -/
theorem Holds.isInfix_of_said {ts : List Token} {cs ds : List Char} (h : Holds cs ts) {t : Token}
    (ht : t ∈ ts) (hsaid : t.Says ds) : ds <:+: cs := by
  cases h with
  | marked _ hts =>
    exact (isInfix_append_left (hts.isInfix ht hsaid) _).trans (List.suffix_cons '\uFEFF' _).isInfix
  | unmarked _ _ hts => exact isInfix_append_left (hts.isInfix ht hsaid) _

end Scorebook.Markup
