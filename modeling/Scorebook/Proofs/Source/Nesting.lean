import Mathlib.Data.List.Basic
import Scorebook.Engraving.Mark
import Scorebook.Proofs.Source.Token

/-!
# Nesting of braces

Braces that stand outside of strings open and close groups. Reading tokens keeps how many groups are
open and how many were completed at the top (`Nesting.read`), and it stops where a brace closes
nothing.

**Composition.** Source is put together from pieces. A piece that ends with a command can be
followed by anything but a letter, which would lengthen the command; behind any other piece there
can be anything. So there are two kinds of them: `Piece` for a text whose last command may still be
open, and `Settled` for a text behind which no token is open. Both tell how deep in braces the text
starts and ends, and which macros it may name besides the commands that LilyPond knows. A line end
settles a piece, hence pieces can be indented (`Piece.indent`).

**Text from outside.** A text without quotes, backslashes and braces is settled where it stands
(`settled_of_ordinary`), and any text is inside quotes (`settled_quote`).
-/

namespace Scorebook.Source

/-! ## Nesting -/

/-- How many groups are open, and how many were completed at the top. -/
structure Nesting where
  depth : Nat
  groups : Nat
  deriving DecidableEq, Repr

namespace Nesting

/-- Close the group that was opened last. -/
def close : Nesting → Option Nesting
  | ⟨0, _⟩ => none
  | ⟨1, groups⟩ => some ⟨0, groups + 1⟩
  | ⟨depth + 2, groups⟩ => some ⟨depth + 1, groups⟩

/-- Read a token. -/
def read (n : Nesting) (t : Token) : Option Nesting :=
  if t = .mark '\x7b' then some ⟨n.depth + 1, n.groups⟩
  else if t = .mark '\x7d' then n.close
  else some n

variable {m n : Nesting} {t : Token} {ts : List Token}

/-- What was completed before does not matter. -/
theorem read_behind (h : m.read t = some n) (k : Nat) :
    read ⟨m.depth, k + m.groups⟩ t = some ⟨n.depth, k + n.groups⟩ := by
  unfold read at h ⊢
  split_ifs at h ⊢
  · cases h
    rfl
  · fun_cases close m <;> cases h <;> rfl
  · cases h
    rfl

theorem groups_le_of_read (h : m.read t = some n) : m.groups ≤ n.groups := by
  unfold read at h
  split_ifs at h
  · cases h
    exact Nat.le_refl _
  · fun_cases close m <;> cases h <;> simp
  · cases h
    exact Nat.le_refl _

/-- A token that completes nothing at the top is read alike at a greater depth. -/
theorem read_deeper (h : m.read t = some n) (hgroups : n.groups ≤ m.groups) (k groups : Nat) :
    read ⟨m.depth + k, groups⟩ t = some ⟨n.depth + k, groups⟩ := by
  unfold read at h ⊢
  split_ifs at h ⊢
  · cases h
    simp [Nat.add_right_comm]
  · fun_cases close m
    · cases h
    · cases h
      exact absurd hgroups (Nat.not_succ_le_self _)
    · next depth _ =>
      cases h
      simp [Nat.add_right_comm _ _ k, close]
  · cases h
    rfl

theorem foldlM_read_behind (h : ts.foldlM read m = some n) (k : Nat) :
    ts.foldlM read ⟨m.depth, k + m.groups⟩ = some ⟨n.depth, k + n.groups⟩ := by
  induction ts generalizing m with
  | nil =>
    cases h
    rfl
  | cons t ts ih =>
    obtain ⟨l, hl, h⟩ := Option.bind_eq_some_iff.1 h
    exact Option.bind_eq_some_iff.2 ⟨_, read_behind hl k, ih h⟩

theorem groups_le_of_foldlM_read (h : ts.foldlM read m = some n) : m.groups ≤ n.groups := by
  induction ts generalizing m with
  | nil =>
    cases h
    exact Nat.le_refl _
  | cons t ts ih =>
    obtain ⟨l, hl, h⟩ := Option.bind_eq_some_iff.1 h
    exact Nat.le_trans (groups_le_of_read hl) (ih h)

theorem foldlM_read_deeper (h : ts.foldlM read m = some n) (hgroups : n.groups ≤ m.groups)
    (k groups : Nat) :
    ts.foldlM read ⟨m.depth + k, groups⟩ = some ⟨n.depth + k, groups⟩ := by
  induction ts generalizing m with
  | nil =>
    cases h
    rfl
  | cons t ts ih =>
    obtain ⟨l, hl, h⟩ := Option.bind_eq_some_iff.1 h
    -- The number of groups never falls, so it is the same after each token.
    have hle := groups_le_of_read hl
    have hge := groups_le_of_foldlM_read h
    exact Option.bind_eq_some_iff.2
      ⟨_, read_deeper hl (Nat.le_trans hge hgroups) k groups, ih h (Nat.le_trans hgroups hle)⟩

end Nesting

/-! ## Runs -/

/-- The commands that are written with the meaning they have in LilyPond. -/
def commands : List String :=
  ["new", "set", "transpose", "book", "bookOutputSuffix", "paper", "header", "score", "layout",
    "key", "major", "time", "tempo", "clef", "bar", "partial", "longa", "breve", "fermata",
    "shortfermata", "longfermata", "veryshortfermata", "verylongfermata", "upbow", "downbow",
    "flageolet", "trill", "turn", "mordent", "prall"] ++ Mark.dynamics

/-- A command that is one of LilyPond's, by name or by a sign alone, or one of these macros. -/
def Token.Known (ids : List String) : Token → Prop
  | .command name => name = "" ∨ name ∈ commands ∨ name ∈ ids
  | _ => True

instance (ids : List String) : DecidablePred (Token.Known ids)
  | .command name => inferInstanceAs (Decidable (name = "" ∨ name ∈ commands ∨ name ∈ ids))
  | .literal | .mark _ => isTrue trivial

/-- The source is read as whole tokens, by which the nesting goes from `m` to `n`. -/
structure Nests (m : Nesting) (cs : List Char) (n : Nesting) : Prop where
  mode_eq : (scan .plain cs).2 = .plain
  nesting_eq : (scan .plain cs).1.foldlM Nesting.read m = some n

instance (m : Nesting) (cs : List Char) (n : Nesting) : Decidable (Nests m cs n) :=
  decidable_of_iff
    ((scan .plain cs).2 = .plain ∧ (scan .plain cs).1.foldlM Nesting.read m = some n)
    ⟨fun h => ⟨h.1, h.2⟩, fun h => ⟨h.1, h.2⟩⟩

example : Nests ⟨0, 0⟩ "a = \x7b \"\\\"\x7d\" \x7b \x7d \x7d".toList ⟨0, 1⟩ := by decide

/-- So it is, and it names nothing but known commands and these macros. -/
structure Runs (ids : List String) (m : Nesting) (cs : List Char) (n : Nesting) : Prop
    extends Nests m cs n where
  known : ∀ t ∈ (scan .plain cs).1, t.Known ids

instance (ids : List String) (m : Nesting) (cs : List Char) (n : Nesting) :
    Decidable (Runs ids m cs n) :=
  decidable_of_iff (Nests m cs n ∧ ∀ t ∈ (scan .plain cs).1, t.Known ids)
    ⟨fun h => ⟨h.1, h.2⟩, fun h => ⟨h.1, h.2⟩⟩

namespace Runs

variable {ids ids' : List String} {m n p : Nesting} {cs ds : List Char}

theorem of_scan_eq {ts us : List Token} (hscan : scan .plain ds = (ts ++ us, .plain))
    (hts : ts.foldlM Nesting.read m = some n) (hus : us.foldlM Nesting.read n = some p)
    (hknown : ∀ t ∈ ts ++ us, t.Known ids) : Runs ids m ds p where
  mode_eq := by rw [hscan]
  nesting_eq := by
    rw [hscan, List.foldlM_append, hts]
    exact hus
  known := by rwa [hscan]

theorem nil (ids : List String) (m : Nesting) : Runs ids m [] m :=
  ⟨⟨rfl, rfl⟩, by simp [scan]⟩

theorem newline (ids : List String) (m : Nesting) : Runs ids m ['\n'] m :=
  ⟨⟨rfl, rfl⟩, by simp [scan, step, begin]⟩

theorem scan_eq (h : Runs ids m cs n) : scan .plain cs = ((scan .plain cs).1, .plain) :=
  Prod.ext rfl h.mode_eq

theorem congr (h : Runs ids m cs n) (hscan : scan .plain ds = scan .plain cs) : Runs ids m ds n :=
  ⟨⟨hscan ▸ h.mode_eq, hscan ▸ h.nesting_eq⟩, hscan ▸ h.known⟩

theorem append (h : Runs ids m cs n) (h' : Runs ids n ds p) : Runs ids m (cs ++ ds) p :=
  of_scan_eq (scan_append h.scan_eq h'.scan_eq) h.nesting_eq h'.nesting_eq
    (List.forall_mem_append.2 ⟨h.known, h'.known⟩)

theorem mono (h : Runs ids m cs n) (hids : ids ⊆ ids') : Runs ids' m cs n := by
  refine ⟨h.toNests, fun t ht => ?_⟩
  have hknown := h.known t ht
  cases t with
  | command name => exact hknown.imp_right (Or.imp_right fun hmem => hids hmem)
  | literal | mark _ => trivial

theorem behind (h : Runs ids m cs n) (k : Nat) :
    Runs ids ⟨m.depth, k + m.groups⟩ cs ⟨n.depth, k + n.groups⟩ :=
  ⟨⟨h.mode_eq, Nesting.foldlM_read_behind h.nesting_eq k⟩, h.known⟩

theorem deeper {a b : Nat} (h : Runs ids ⟨a, 0⟩ cs ⟨b, 0⟩) (k : Nat) :
    Runs ids ⟨a + k, 0⟩ cs ⟨b + k, 0⟩ :=
  ⟨⟨h.mode_eq, Nesting.foldlM_read_deeper h.nesting_eq (Nat.le_refl _) k 0⟩, h.known⟩

/-- Groups in a row. -/
theorem join {texts : List String} (h : ∀ s ∈ texts, Runs ids ⟨0, 0⟩ s.toList ⟨0, 1⟩) :
    Runs ids ⟨0, 0⟩ (String.join texts).toList ⟨0, texts.length⟩ := by
  induction texts with
  | nil => exact nil ids _
  | cons s texts ih =>
    have hrest := (ih fun t ht => h t (List.mem_cons_of_mem _ ht)).behind 1
    rw [String.join_cons, String.toList_append, List.length_cons, Nat.add_comm]
    exact (h s List.mem_cons_self).append hrest

end Runs

/-! ## Pieces -/

/-- A line end completes a command, and so does any character that is not a letter. -/
theorem scan_append_of_stops {cs ds : List Char} (hcs : (scan .plain (cs ++ ['\n'])).2 = .plain)
    (hds : Stops Char.isAlpha ds) (hne : ds ≠ []) :
    scan .plain (cs ++ ds) =
      ((scan .plain (cs ++ ['\n'])).1 ++ (scan .plain ds).1, (scan .plain ds).2) := by
  cases hscan : scan .plain cs with
  | mk ts m =>
    have hend := scan_append hscan (scan_singleton m '\n')
    rw [hend] at hcs ⊢
    -- A line end leaves a string open, so nothing but a command can be open in front of it.
    cases m with
    | plain => simpa [step, begin] using scan_append hscan (Prod.ext rfl rfl)
    | command letters =>
      cases ds with
      | nil => contradiction
      | cons d ds =>
        have hd : d.isAlpha = false := hds d rfl
        rw [scan_append hscan (Prod.ext rfl rfl)]
        simp [scan, step, begin, hd]
    | literal | escaped => cases hcs

/-- The text goes from depth `a` to depth `b` in braces, and no token is open behind it. -/
def Settled (ids : List String) (a : Nat) (s : String) (b : Nat) : Prop :=
  Runs ids ⟨a, 0⟩ s.toList ⟨b, 0⟩

/-- So it does, but a command may be open behind it. -/
def Piece (ids : List String) (a : Nat) (s : String) (b : Nat) : Prop :=
  Runs ids ⟨a, 0⟩ (s.toList ++ ['\n']) ⟨b, 0⟩

instance (ids : List String) (a : Nat) (s : String) (b : Nat) : Decidable (Settled ids a s b) :=
  inferInstanceAs (Decidable (Runs _ _ _ _))

instance (ids : List String) (a : Nat) (s : String) (b : Nat) : Decidable (Piece ids a s b) :=
  inferInstanceAs (Decidable (Runs _ _ _ _))

/-- A text from depth `b` that completes a command in front of it. -/
structure Separator (b : Nat) (s : String) (n : Nesting) : Prop where
  runs : Runs [] ⟨b, 0⟩ s.toList n
  stops : Stops Char.isAlpha s.toList
  ne_nil : s.toList ≠ []

instance (b : Nat) (s : String) (n : Nesting) : Decidable (Separator b s n) :=
  decidable_of_iff (Runs [] ⟨b, 0⟩ s.toList n ∧ Stops Char.isAlpha s.toList ∧ s.toList ≠ [])
    ⟨fun h => ⟨h.1, h.2.1, h.2.2⟩, fun h => ⟨h.1, h.2, h.3⟩⟩

variable {ids ids' : List String} {a b c : Nat} {s t : String}

namespace Settled

theorem mono (h : Settled ids a s b) (hids : ids ⊆ ids') : Settled ids' a s b :=
  Runs.mono h hids

/-- Where no macro is named, any may be. -/
theorem of_nil (h : Settled [] a s b) : Settled ids a s b :=
  h.mono (List.nil_subset ids)

theorem piece (h : Settled ids a s b) : Piece ids a s b :=
  Runs.append h (Runs.newline ids _)

theorem append (hs : Settled ids a s b) (ht : Settled ids b t c) : Settled ids a (s ++ t) c := by
  rw [Settled, String.toList_append]
  exact Runs.append hs ht

theorem join {texts : List String} (h : ∀ s ∈ texts, Settled ids a s a) :
    Settled ids a (String.join texts) a := by
  induction texts with
  | nil => exact Runs.nil ids _
  | cons s texts ih =>
    rw [String.join_cons]
    exact (h s List.mem_cons_self).append (ih fun t ht => h t (List.mem_cons_of_mem _ ht))

theorem append_piece (hs : Settled ids a s b) (ht : Piece ids b t c) : Piece ids a (s ++ t) c := by
  rw [Piece, String.toList_append, List.append_assoc]
  exact Runs.append hs ht

end Settled

namespace Piece

theorem mono (h : Piece ids a s b) (hids : ids ⊆ ids') : Piece ids' a s b :=
  Runs.mono h hids

theorem deeper (h : Piece ids a s b) (k : Nat) : Piece ids (a + k) s (b + k) :=
  Runs.deeper h k

theorem runs_append {n : Nesting} {cs : List Char} (hs : Piece ids a s b)
    (hcs : Runs ids ⟨b, 0⟩ cs n) (hstops : Stops Char.isAlpha cs) (hne : cs ≠ []) :
    Runs ids ⟨a, 0⟩ (s.toList ++ cs) n := by
  have hscan := scan_append_of_stops hs.mode_eq hstops hne
  rw [hcs.mode_eq] at hscan
  exact .of_scan_eq hscan hs.nesting_eq hcs.nesting_eq
    (List.forall_mem_append.2 ⟨hs.known, hcs.known⟩)

/-- A piece in front of what does not start with a letter. -/
theorem append (hs : Piece ids a s b) (ht : Piece ids b t c)
    (hstops : Stops Char.isAlpha t.toList) : Piece ids a (s ++ t) c := by
  have hend : Stops Char.isAlpha (t.toList ++ ['\n']) := hstops.append (by decide)
  rw [Piece, String.toList_append, List.append_assoc]
  exact hs.runs_append ht hend (by simp)

/-- A piece up to where it closes the groups around it. -/
theorem close {n : Nesting} (hs : Piece ids a s b) (ht : Separator b t n) :
    Runs ids ⟨a, 0⟩ (s ++ t).toList n := by
  rw [String.toList_append]
  exact hs.runs_append (ht.runs.mono (List.nil_subset _)) ht.stops ht.ne_nil

theorem settle (hs : Piece ids a s b) (ht : Separator b t ⟨c, 0⟩) : Settled ids a (s ++ t) c :=
  hs.close ht

theorem indent (h : Piece ids a s b) (width : Nat) : Piece ids a (Text.indent width s) b :=
  Runs.congr h (scan_indent (.inl rfl) width s)

theorem intercalate {sep : String} {texts : List String} (hsep : Separator a sep ⟨a, 0⟩)
    (h : ∀ s ∈ texts, Piece ids a s a) : Piece ids a (sep.intercalate texts) a := by
  induction texts with
  | nil => exact Runs.newline ids _
  | cons s texts ih =>
    rw [List.forall_mem_cons] at h
    cases texts with
    | nil => simpa using h.1
    | cons t texts =>
      rw [String.intercalate_cons_cons]
      exact (h.1.settle hsep).append_piece (ih h.2)

theorem joinLines {lines : List String} (hsep : Separator a "\n" ⟨a, 0⟩)
    (h : ∀ s ∈ lines, Piece ids a s a) : Piece ids a (Text.joinLines lines) a :=
  intercalate hsep h

end Piece

/-! ## Text from outside -/

/-- The character neither starts a token of several characters nor nests anything. -/
def isOrdinary (c : Char) : Bool :=
  c ≠ '"' && c ≠ '\\' && c ≠ '\x7b' && c ≠ '\x7d'

/-- All characters of the text stand for themselves. -/
def Ordinary (s : String) : Prop :=
  ∀ c ∈ s.toList, isOrdinary c = true

instance (s : String) : Decidable (Ordinary s) :=
  decidable_of_iff (s.toList.all isOrdinary = true) List.all_eq_true

theorem ne_of_isOrdinary {c : Char} (h : isOrdinary c = true) :
    c ≠ '"' ∧ c ≠ '\\' ∧ c ≠ '\x7b' ∧ c ≠ '\x7d' := by
  simpa [isOrdinary, and_assoc] using h

theorem step_of_isOrdinary {c : Char} (h : isOrdinary c = true) :
    step .plain c = (if c.isWhitespace then [] else [.mark c], .plain) := by
  obtain ⟨hquote, hbackslash, -⟩ := ne_of_isOrdinary h
  rw [step, begin, if_neg hbackslash, if_neg hquote]
  split_ifs <;> rfl

theorem settled_of_ordinary (h : Ordinary s) (a : Nat) : Settled [] a s a := by
  unfold Ordinary at h
  unfold Settled
  generalize s.toList = cs at h
  induction cs with
  | nil => exact Runs.nil [] _
  | cons c cs ih =>
    rw [List.forall_mem_cons] at h
    have hc : Runs [] ⟨a, 0⟩ [c] ⟨a, 0⟩ := by
      obtain ⟨-, -, hopen, hclose⟩ := ne_of_isOrdinary h.1
      have hscan : scan .plain [c] = (if c.isWhitespace then [] else [.mark c], .plain) := by
        rw [scan_singleton, step_of_isOrdinary h.1]
      constructor
      · constructor
        · rw [hscan]
        · rw [hscan]
          split_ifs
          · rfl
          · simp [Nesting.read, hopen, hclose]
      · rw [hscan]
        split_ifs <;> simp [Token.Known]
    exact hc.append (ih h.2)

/-- Any text at all, in quotes. -/
theorem settled_quote (text : String) (a : Nat) : Settled [] a (Text.quote text) a := by
  refine ⟨⟨?_, ?_⟩, ?_⟩
  · rw [scan_quote]
  · rw [scan_quote]
    rfl
  · rw [scan_quote]
    simp [Token.Known]

end Scorebook.Source
