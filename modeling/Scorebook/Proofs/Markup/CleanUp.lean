import Scorebook.Markup.Namespace
import Scorebook.Proofs.Markup.LineEnds

/-!
# What line ends come to

What tokens say is cleared of carriage returns, so that it does not depend on how their lines end:
of a text, a value or a section whose line ends are all made line feeds the same is said
(`resolveText_unified`, `resolveValue_unified`, `resolveVerbatim_unified`). There is one exception:
a carriage return right in front of a line end would itself become part of it (`HasStray`).
-/

namespace Scorebook.Markup

open Text

variable {c : Char} {cs : List Char}

/-! ## References -/

theorem notMem_of_readHexDigits {n : Nat} (h : readHexDigits cs = some n)
    (hc : hexDigit? c = none) : c ∉ cs := by
  rw [readHexDigits] at h
  split at h
  · cases h
  · generalize 0 = start at h
    induction cs generalizing start with
    | nil => simp
    | cons d cs ih =>
      rw [List.foldlM_cons] at h
      obtain ⟨m, hd, htail⟩ := Option.bind_eq_some_iff.1 h
      obtain ⟨digit, hdigit, -⟩ := Option.map_eq_some_iff.1 hd
      rw [List.mem_cons, not_or]
      refine ⟨?_, ?_⟩
      · rintro rfl
        rw [hc] at hdigit
        cases hdigit
      · cases cs with
        | nil => simp
        | cons e cs => exact ih (List.cons_ne_nil _ _) _ htail

theorem notMem_of_referred? {r : Char} (h : referred? cs = some r) (hc : c = '\r' ∨ c = '\n') :
    c ∉ cs := by
  rw [referred?.eq_def] at h
  split at h
  · next digits =>
    obtain ⟨n, hread, -⟩ := Option.bind_eq_some_iff.1 h
    have hdigits : c ∉ digits :=
      notMem_of_readHexDigits hread (by rcases hc with rfl | rfl <;> rfl)
    rcases hc with rfl | rfl <;> simpa using hdigits
  · next digits _ =>
    obtain ⟨n, hread, -⟩ := Option.bind_eq_some_iff.1 h
    have hdigits : c ∉ digits := fun hmem => by
      rw [readDigits] at hread
      split at hread
      · next hall =>
        have hdigit := List.all_eq_true.1 hall.2 c hmem
        rcases hc with rfl | rfl <;> cases hdigit
      · cases hread
    rcases hc with rfl | rfl <;> simpa using hdigits
  · have hentity : ∀ {name : String}, String.ofList cs = name → '\r' ∉ name.toList →
        '\n' ∉ name.toList → c ∉ cs := by
      rintro name rfl hreturn hfeed
      rw [String.toList_ofList] at hreturn hfeed
      rcases hc with rfl | rfl
      · exact hreturn
      · exact hfeed
    split at h
    · next heq => exact hentity heq (by decide) (by decide)
    · next heq => exact hentity heq (by decide) (by decide)
    · next heq => exact hentity heq (by decide) (by decide)
    · next heq => exact hentity heq (by decide) (by decide)
    · next heq => exact hentity heq (by decide) (by decide)
    · cases h

/-- No reference contains a line end. -/
theorem piecesFrom_of_mem {body : List Char} (hmem : c ∈ body) (hc : c = '\r' ∨ c = '\n') :
    piecesFrom (some body) cs = none := by
  induction cs generalizing body with
  | nil => rfl
  | cons d cs ih =>
    rw [piecesFrom]
    split
    · cases hr : referred? body.reverse with
      | none => rfl
      | some r => exact absurd (List.mem_reverse.2 hmem) (notMem_of_referred? hr hc)
    · exact ih (List.mem_cons_of_mem _ hmem)

/-- The pieces of a text with a line feed for every line end. -/
def unifiedPieces : List Piece → List Piece
  | [] => []
  | .literal '\r' :: .literal '\n' :: ps => .literal '\n' :: unifiedPieces ps
  | p :: ps => p :: unifiedPieces ps

theorem exists_referred_of_piecesFrom {body : List Char} {ps : List Piece}
    (h : piecesFrom (some body) cs = some ps) : ∃ r qs, ps = .referred r :: qs := by
  induction cs generalizing body with
  | nil => cases h
  | cons d cs ih =>
    rw [piecesFrom] at h
    split at h
    · obtain ⟨r, -, h⟩ := Option.bind_eq_some_iff.1 h
      obtain ⟨qs, -, rfl⟩ := Option.map_eq_some_iff.1 h
      exact ⟨r, qs, rfl⟩
    · exact ih h

/-- A piece that is written out is the character that was written. -/
theorem piecesFrom_literal {ps : List Piece} (h : piecesFrom none cs = some (.literal c :: ps)) :
    ∃ ds, cs = c :: ds ∧ piecesFrom none ds = some ps := by
  cases cs with
  | nil => cases h
  | cons d cs =>
    rw [piecesFrom] at h
    split at h
    · obtain ⟨r, qs, heq⟩ := exists_referred_of_piecesFrom h
      cases heq
    · obtain ⟨qs, hqs, heq⟩ := Option.map_eq_some_iff.1 h
      cases heq
      exact ⟨cs, rfl, hqs⟩

theorem unifiedPieces_literal {ps : List Piece}
    (h : c = '\r' → ps.head? ≠ some (.literal '\n')) :
    unifiedPieces (.literal c :: ps) = .literal c :: unifiedPieces ps := by
  rw [unifiedPieces]
  intro qs heq hps
  cases heq
  rw [hps] at h
  exact h rfl rfl

theorem unifiedPieces_referred (r : Char) (ps : List Piece) :
    unifiedPieces (.referred r :: ps) = .referred r :: unifiedPieces ps := by
  rw [unifiedPieces]
  exact fun _ heq => by cases heq

theorem piecesFrom_unified (body : Option (List Char)) (cs : List Char) :
    piecesFrom body (unified cs) = (piecesFrom body cs).map unifiedPieces := by
  fun_induction unified cs generalizing body with
  | case1 => cases body <;> rfl
  | case2 cs ih =>
    cases body with
    | none =>
      have hn : ('\n' : Char) ≠ '&' := by decide
      have hr : ('\r' : Char) ≠ '&' := by decide
      simp only [piecesFrom, if_neg hn, if_neg hr, ih, Option.map_map]
      rfl
    | some body =>
      have hn : ('\n' : Char) ≠ ';' := by decide
      have hr : ('\r' : Char) ≠ ';' := by decide
      rw [piecesFrom, if_neg hn, piecesFrom, if_neg hr, piecesFrom, if_neg hn,
        piecesFrom_of_mem List.mem_cons_self (.inr rfl),
        piecesFrom_of_mem List.mem_cons_self (.inr rfl)]
      rfl
  | case3 c cs hcr ih =>
    cases body with
    | none =>
      rw [piecesFrom, piecesFrom]
      split
      · exact ih _
      · rw [ih]
        cases hps : piecesFrom none cs with
        | none => rfl
        | some ps =>
          have hhead : c = '\r' → ps.head? ≠ some (.literal '\n') := by
            rintro rfl heq
            obtain ⟨qs, rfl⟩ := List.head?_eq_some_iff.1 heq
            obtain ⟨ds, rfl, -⟩ := piecesFrom_literal hps
            exact hcr ds rfl rfl
          simp only [Option.map_some, unifiedPieces_literal hhead]
    | some body =>
      rw [piecesFrom, piecesFrom]
      split
      · cases hr : referred? body.reverse with
        | none => rfl
        | some r =>
          simp only [Option.bind_eq_bind, Option.bind_some, ih, Option.map_map,
            Function.comp_def, unifiedPieces_referred]
      · exact ih _

/-- The pieces of a carriage return that stands right in front of a line end. -/
def stray : List Piece :=
  [.literal '\r', .literal '\r', .literal '\n']

theorem cleanText_literal {ps : List Piece}
    (hn : c = '\r' → ps.head? ≠ some (.literal '\n'))
    (hr : c = '\r' → ∀ r, ps.head? ≠ some (.referred r)) :
    cleanText (.literal c :: ps) = (if c = '\r' then '\n' else c) :: cleanText ps := by
  rw [cleanText]
  · rintro qs heq rfl
    cases heq
    exact hn rfl rfl
  · rintro r qs heq rfl
    cases heq
    exact hr rfl r rfl

theorem cleanText_referred {ps : List Piece} (h : ps ≠ [.literal '\r']) :
    cleanText (.referred c :: ps) = c :: cleanText ps := by
  rw [cleanText]
  exact h

theorem unifiedPieces_ne_nil (p : Piece) (ps : List Piece) : unifiedPieces (p :: ps) ≠ [] := by
  rw [unifiedPieces.eq_def]
  split <;> simp_all

theorem eq_singleton_of_unifiedPieces {ps : List Piece}
    (h : unifiedPieces ps = [.literal '\r']) : ps = [.literal '\r'] := by
  rw [unifiedPieces.eq_def] at h
  split at h
  · cases h
  · cases h
  · next p ps _ =>
    obtain ⟨rfl, hps⟩ := List.cons.inj h
    cases ps with
    | nil => rfl
    | cons q ps => exact absurd hps (unifiedPieces_ne_nil q ps)

theorem head?_unifiedPieces {ps : List Piece} (h : ¬ stray <:+: .literal '\r' :: ps) :
    (unifiedPieces ps).head? = ps.head? := by
  fun_cases unifiedPieces ps with
  | case1 => rfl
  | case2 ps => exact absurd ⟨[], ps, rfl⟩ h
  | case3 p ps _ => rfl

theorem not_stray_of_cons {p : Piece} {ps : List Piece} (h : ¬ stray <:+: p :: ps) :
    ¬ stray <:+: ps :=
  fun hstray => h (List.infix_cons hstray)

theorem cleanText_unifiedPieces {ps : List Piece} (h : ¬ stray <:+: ps) :
    cleanText (unifiedPieces ps) = cleanText ps := by
  fun_induction cleanText ps with
  | case1 => rfl
  | case2 ps ih =>
    have hfeed : ('\n' : Char) = '\r' → False := by decide
    rw [unifiedPieces, cleanText_literal (fun heq => (hfeed heq).elim) fun heq => (hfeed heq).elim,
      if_neg hfeed, ih (not_stray_of_cons (not_stray_of_cons h))]
  | case3 c ps ih =>
    have hrest := ih (not_stray_of_cons h)
    rw [unifiedPieces_referred] at hrest
    rw [unifiedPieces_literal fun _ => by simp, unifiedPieces_referred, cleanText, hrest]
  | case4 c => rfl
  | case5 c ps hn hr ih =>
    have hn' : c = '\r' → ps.head? ≠ some (.literal '\n') := by
      rintro rfl heq
      obtain ⟨qs, rfl⟩ := List.head?_eq_some_iff.1 heq
      exact hn qs rfl rfl
    have hr' : c = '\r' → ∀ r, ps.head? ≠ some (.referred r) := by
      rintro rfl r heq
      obtain ⟨qs, rfl⟩ := List.head?_eq_some_iff.1 heq
      exact hr r qs rfl rfl
    have hhead : c = '\r' → (unifiedPieces ps).head? = ps.head? := by
      rintro rfl
      exact head?_unifiedPieces h
    rw [unifiedPieces_literal hn', cleanText_literal (fun hc => hhead hc ▸ hn' hc)
      (fun hc => hhead hc ▸ hr' hc), ih (not_stray_of_cons h)]
  | case6 c ps hlast ih =>
    have hlast' : unifiedPieces ps ≠ [.literal '\r'] := fun heq =>
      hlast (eq_singleton_of_unifiedPieces heq)
    rw [unifiedPieces_referred, cleanText_referred hlast', ih (not_stray_of_cons h)]

theorem cleanValue_literal {ps : List Piece} (hn : c = '\r' → ps.head? ≠ some (.literal '\n')) :
    cleanValue (.literal c :: ps) = (if isSpace c then ' ' else c) :: cleanValue ps := by
  rw [cleanValue]
  rintro qs heq rfl
  cases heq
  exact hn rfl rfl

theorem cleanValue_unifiedPieces {ps : List Piece} (h : ¬ stray <:+: ps) :
    cleanValue (unifiedPieces ps) = cleanValue ps := by
  fun_induction cleanValue ps with
  | case1 => rfl
  | case2 ps ih =>
    have hfeed : ('\n' : Char) = '\r' → False := by decide
    rw [unifiedPieces, cleanValue_literal fun heq => (hfeed heq).elim,
      ih (not_stray_of_cons (not_stray_of_cons h))]
    rfl
  | case3 c ps hn ih =>
    have hn' : c = '\r' → ps.head? ≠ some (.literal '\n') := by
      rintro rfl heq
      obtain ⟨qs, rfl⟩ := List.head?_eq_some_iff.1 heq
      exact hn qs rfl rfl
    have hhead : c = '\r' → (unifiedPieces ps).head? = ps.head? := by
      rintro rfl
      exact head?_unifiedPieces h
    rw [unifiedPieces_literal hn', cleanValue_literal fun hc => hhead hc ▸ hn' hc,
      ih (not_stray_of_cons h)]
  | case4 c ps ih => rw [unifiedPieces_referred, cleanValue, ih (not_stray_of_cons h)]

/-! ## Texts, values and sections -/

/-- A carriage return stands right in front of a line end. -/
def HasStray (cs : List Char) : Prop :=
  ['\r', '\r', '\n'] <:+: cs

theorem exists_suffix_of_piecesFrom {body : Option (List Char)} {ps qs : List Piece}
    (h : piecesFrom body cs = some ps) (hqs : qs <:+ ps) :
    qs = ps ∨ ∃ ds, ds <:+ cs ∧ piecesFrom none ds = some qs := by
  induction cs generalizing body ps with
  | nil =>
    cases body with
    | none =>
      cases h
      exact .inl (List.suffix_nil.1 hqs)
    | some body => cases h
  | cons d cs ih =>
    have hlater : ∀ {p ps}, piecesFrom none cs = some ps → qs <:+ p :: ps →
        qs = p :: ps ∨ ∃ ds, ds <:+ d :: cs ∧ piecesFrom none ds = some qs := by
      intro p ps hps hqs
      refine (List.suffix_cons_iff.1 hqs).imp id fun hqs => ?_
      rcases ih hps hqs with rfl | ⟨ds, hds, hread⟩
      · exact ⟨cs, List.suffix_cons d cs, hps⟩
      · exact ⟨ds, hds.trans (List.suffix_cons d cs), hread⟩
    have hopen : ∀ {body}, piecesFrom (some body) cs = some ps →
        qs = ps ∨ ∃ ds, ds <:+ d :: cs ∧ piecesFrom none ds = some qs := fun hps =>
      (ih hps hqs).imp id fun ⟨ds, hds, hread⟩ => ⟨ds, hds.trans (List.suffix_cons d cs), hread⟩
    cases body with
    | none =>
      rw [piecesFrom] at h
      split at h
      · exact hopen h
      · obtain ⟨ps, hps, rfl⟩ := Option.map_eq_some_iff.1 h
        exact hlater hps hqs
    | some body =>
      rw [piecesFrom] at h
      split at h
      · obtain ⟨r, -, h⟩ := Option.bind_eq_some_iff.1 h
        obtain ⟨ps, hps, rfl⟩ := Option.map_eq_some_iff.1 h
        exact hlater hps hqs
      · exact hopen h

theorem hasStray_of_pieces? {ps : List Piece} (h : pieces? cs = some ps) (hstray : stray <:+: ps) :
    HasStray cs := by
  obtain ⟨before, after, rfl⟩ := hstray
  rw [List.append_assoc] at h
  have hread : ∃ ds, ds <:+ cs ∧ piecesFrom none ds = some (stray ++ after) := by
    rcases exists_suffix_of_piecesFrom h (List.suffix_append before (stray ++ after)) with heq | hds
    · exact ⟨cs, List.suffix_refl cs, heq ▸ h⟩
    · exact hds
  obtain ⟨ds, hds, hread⟩ := hread
  obtain ⟨ds₁, rfl, hread₁⟩ := piecesFrom_literal hread
  obtain ⟨ds₂, rfl, hread₂⟩ := piecesFrom_literal hread₁
  obtain ⟨ds, rfl, -⟩ := piecesFrom_literal hread₂
  exact (List.prefix_append ['\r', '\r', '\n'] ds).isInfix.trans hds.isInfix

theorem resolveText_unified (h : ¬ HasStray cs) : resolveText (unified cs) = resolveText cs := by
  rw [resolveText, resolveText, pieces?, pieces?, piecesFrom_unified, Option.map_map]
  cases hps : piecesFrom none cs with
  | none => rfl
  | some ps =>
    have hclean := cleanText_unifiedPieces fun hstray => h (hasStray_of_pieces? hps hstray)
    simp only [Option.map_some, Function.comp_apply, hclean]

theorem resolveValue_unified (h : ¬ HasStray cs) : resolveValue (unified cs) = resolveValue cs := by
  rw [resolveValue, resolveValue, pieces?, pieces?, piecesFrom_unified, Option.map_map]
  cases hps : piecesFrom none cs with
  | none => rfl
  | some ps =>
    have hclean := cleanValue_unifiedPieces fun hstray => h (hasStray_of_pieces? hps hstray)
    simp only [Option.map_some, Function.comp_apply, hclean]

theorem map_literal_unified (cs : List Char) :
    (unified cs).map Piece.literal = unifiedPieces (cs.map .literal) := by
  fun_induction unified cs with
  | case1 => rfl
  | case2 cs ih => rw [List.map_cons, ih]; rfl
  | case3 c cs hcr ih =>
    have hhead : c = '\r' → (cs.map Piece.literal).head? ≠ some (.literal '\n') := by
      rintro rfl heq
      cases cs with
      | nil => cases heq
      | cons d cs =>
        cases heq
        exact hcr cs rfl rfl
    rw [List.map_cons, ih, List.map_cons, unifiedPieces_literal hhead]

theorem resolveVerbatim_unified (h : ¬ HasStray cs) :
    resolveVerbatim (unified cs) = resolveVerbatim cs := by
  have hstray : ¬ stray <:+: cs.map .literal := by
    intro hstray
    obtain ⟨ds, hds, heq⟩ := List.infix_map_iff.1 hstray
    have hinj : Function.Injective Piece.literal := fun _ _ heq => by cases heq; rfl
    obtain rfl : ['\r', '\r', '\n'] = ds := List.map_injective_iff.2 hinj heq
    exact h hds
  rw [resolveVerbatim, resolveVerbatim, map_literal_unified, cleanText_unifiedPieces hstray]

/-! ## Tags -/

theorem Attribute.ofRaw?_unified {a : RawAttribute} (h : ¬ HasStray a.value) :
    ofRaw? a.unified = ofRaw? a := by
  rw [ofRaw?, ofRaw?, RawAttribute.unified, resolveValue_unified h]

theorem resolveTag_unified {raw : List RawAttribute} (h : ∀ a ∈ raw, ¬ HasStray a.value)
    (outer : Scope) (name : Name) :
    resolveTag outer name (raw.map RawAttribute.unified) = resolveTag outer name raw := by
  have hattributes : (raw.map RawAttribute.unified).mapM Attribute.ofRaw? =
      raw.mapM Attribute.ofRaw? := by
    induction raw with
    | nil => rfl
    | cons a raw ih =>
      rw [List.map_cons, List.mapM_cons, List.mapM_cons,
        Attribute.ofRaw?_unified (h a List.mem_cons_self),
        ih fun b hb => h b (List.mem_cons_of_mem _ hb)]
  rw [resolveTag, resolveTag, hattributes]

theorem all_isSpace_unified (cs : List Char) : (unified cs).all isSpace = cs.all isSpace := by
  fun_induction unified cs with
  | case1 => rfl
  | case2 cs ih => rw [List.all_cons, ih]; rfl
  | case3 c cs _ ih => rw [List.all_cons, ih, List.all_cons]

end Scorebook.Markup
