import Mathlib.Data.List.Forall2
import Scorebook.Text.Lines
import Scorebook.Text.Quoted

/-!
# Reading LilyPond source

Source is read character by character. A backslash starts a command, which is named by the letters
behind it. A double quote opens a string, and inside it a backslash protects the next character,
up to the next double quote. Any other character stands for itself, and blanks stand for nothing.

**Indentation.** Moving the lines of a text to the right puts blanks in front of them. In front of
a token a blank is nothing, and inside a string it is a part of the string, so the text is read as
the same tokens (`scan_indent`). This is so even where a line ends inside a string, and where it
ends behind a backslash, which then protects the line end and not the blanks behind it.
-/

namespace Scorebook.Source

inductive Token where
  | command (name : String)
  | literal
  | mark (c : Char)
  deriving DecidableEq, Repr

/-- What the next character belongs to. -/
inductive Mode where
  | plain
  /-- A command with these letters so far. -/
  | command (letters : List Char)
  | literal
  /-- Inside a string and behind a backslash. -/
  | escaped
  deriving DecidableEq, Repr

/-! ## Scanning -/

/-- Read a character between tokens. -/
def begin (c : Char) : List Token × Mode :=
  if c = '\\' then ([], .command [])
  else if c = '"' then ([], .literal)
  else if c.isWhitespace then ([], .plain)
  else ([.mark c], .plain)

/-- Read a character: the tokens that are complete by it, and what comes next. -/
def step : Mode → Char → List Token × Mode
  | .plain, c => begin c
  | .command letters, c =>
    if c.isAlpha then ([], .command (letters ++ [c]))
    else (.command (String.ofList letters) :: (begin c).1, (begin c).2)
  | .literal, c =>
    if c = '"' then ([.literal], .plain) else if c = '\\' then ([], .escaped) else ([], .literal)
  | .escaped, _ => ([], .literal)

/-- Read characters in a row. -/
def scan : Mode → List Char → List Token × Mode
  | m, [] => ([], m)
  | m, c :: cs => ((step m c).1 ++ (scan (step m c).2 cs).1, (scan (step m c).2 cs).2)

variable {m m' m'' : Mode} {cs ds : List Char} {ts us : List Token}

theorem scan_append (h : scan m cs = (ts, m')) (h' : scan m' ds = (us, m'')) :
    scan m (cs ++ ds) = (ts ++ us, m'') := by
  induction cs generalizing m ts with
  | nil =>
    cases h
    exact h'
  | cons c cs ih =>
    cases h
    rw [List.cons_append, scan, ih rfl, List.append_assoc]

theorem scan_singleton (m : Mode) (c : Char) : scan m [c] = step m c := by
  rw [scan, scan, List.append_nil]

theorem scan_cons_of_silent {c : Char} (h : step m c = ([], m)) (cs : List Char) :
    scan m (c :: cs) = scan m cs := by
  rw [scan, h, List.nil_append]

/-! ## Commands and strings -/

theorem scan_letters {letters cs : List Char} (h : ∀ c ∈ cs, c.isAlpha) :
    scan (.command letters) cs = ([], .command (letters ++ cs)) := by
  induction cs generalizing letters with
  | nil => rw [scan, List.append_nil]
  | cons c cs ih =>
    have hstep : step (.command letters) c = ([], .command (letters ++ [c])) :=
      if_pos (h c List.mem_cons_self)
    rw [scan, hstep, ih fun d hd => h d (List.mem_cons_of_mem _ hd), List.append_assoc]
    rfl

theorem scan_escape (cs : List Char) :
    scan .literal (cs.flatMap Text.escapeChar) = ([], .literal) := by
  induction cs with
  | nil => rfl
  | cons c cs ih =>
    have hchar : scan .literal (Text.escapeChar c) = ([], .literal) := by
      unfold Text.escapeChar
      split_ifs with hc
      · rfl
      · rw [not_or] at hc
        rw [scan_singleton, step, if_neg hc.1, if_neg hc.2]
    rw [List.flatMap_cons]
    exact scan_append hchar ih

/-- **A quoted text is one string**, whatever is in it. -/
theorem scan_quote (s : String) : scan .plain (Text.quote s).toList = ([.literal], .plain) := by
  have hopen : scan .plain ['"'] = ([], .literal) := rfl
  have hclose : scan .literal ['"'] = ([.literal], .plain) := rfl
  rw [Text.quote, String.toList_append, String.toList_append, Text.toList_escape]
  exact scan_append (scan_append hopen (scan_escape _)) hclose

/-! ## Indentation -/

/-- Lines can start in the mode: a blank does nothing to it. -/
def Mode.StartsLine (m : Mode) : Prop :=
  m = .plain ∨ m = .literal

theorem startsLine_step_newline (m : Mode) : (step m '\n').2.StartsLine := by
  cases m with
  | plain => exact .inl rfl
  | command _ => exact .inl rfl
  | literal => exact .inr rfl
  | escaped => exact .inr rfl

theorem Mode.StartsLine.step_space (h : m.StartsLine) : step m ' ' = ([], m) := by
  rcases h with rfl | rfl <;> rfl

theorem Mode.StartsLine.step_newline (h : m.StartsLine) : step m '\n' = ([], m) := by
  rcases h with rfl | rfl <;> rfl

theorem Mode.StartsLine.scan_spaces (h : m.StartsLine) (width : Nat) (cs : List Char) :
    scan m (List.replicate width ' ' ++ cs) = scan m cs := by
  induction width with
  | zero => rfl
  | succ width ih =>
    rw [List.replicate_succ, List.cons_append, scan_cons_of_silent h.step_space, ih]

/-- Both line ends are read alike. -/
theorem scan_crlf (m : Mode) (cs : List Char) :
    scan m ('\r' :: '\n' :: cs) = scan m ('\n' :: cs) := by
  cases m with
  | plain => rfl
  | command _ => rfl
  | literal => rfl
  | escaped => rfl

/-- A line as it is indented. -/
def padded (width : Nat) (line : List Char) : List Char :=
  if line = [] then [] else List.replicate width ' ' ++ line

/-- Lines with their ends. -/
def ended (lines : List (List Char)) : List Char :=
  lines.flatMap (· ++ ['\n'])

/-- The rest of a text from the middle of a line on, all later lines being indented. -/
def restIndented (width : Nat) (cs : List Char) : List Char :=
  match Text.splitLines cs with
  | [] => ['\n']
  | line :: lines => line ++ '\n' :: ended (lines.map (padded width))

theorem splitLines_eq_nil {cs : List Char} (h : Text.splitLines cs = []) : cs = [] := by
  fun_cases Text.splitLines cs with
  | case1 => rfl
  | case2 | case3 => simp [Text.splitLines] at h
  | case4 c cs hn hcr hlines => simp [Text.splitLines, hlines] at h
  | case5 c cs hn hcr line lines hlines => simp [Text.splitLines, hlines] at h

/-- Indenting the line that a text starts with changes nothing either. -/
theorem Mode.StartsLine.scan_ended (hm : m.StartsLine) {width : Nat}
    (h : scan m (restIndented width cs) = scan m (cs ++ ['\n'])) :
    scan m (ended ((Text.splitLines cs).map (padded width))) = scan m (cs ++ ['\n']) := by
  cases hlines : Text.splitLines cs with
  | nil =>
    rw [splitLines_eq_nil hlines, List.nil_append, scan_singleton, hm.step_newline]
    rfl
  | cons line lines =>
    have hrest : restIndented width cs = line ++ '\n' :: ended (lines.map (padded width)) := by
      rw [restIndented, hlines]
    rw [← h, hrest]
    by_cases hline : line = []
    · simp [ended, padded, hline]
    · have hfirst : ended ((line :: lines).map (padded width)) =
          List.replicate width ' ' ++ (line ++ '\n' :: ended (lines.map (padded width))) := by
        simp [ended, padded, hline]
      rw [hfirst, hm.scan_spaces]

/-- The induction is on the characters, not on the lines: a mode may be entered in the middle of a
line, where no blanks are put in. -/
theorem scan_restIndented (width : Nat) (m : Mode) (cs : List Char) :
    scan m (restIndented width cs) = scan m (cs ++ ['\n']) := by
  fun_induction Text.splitLines cs generalizing m with
  | case1 => rfl
  | case2 cs ih =>
    show scan m ('\n' :: ended ((Text.splitLines cs).map (padded width))) =
      scan m ('\n' :: (cs ++ ['\n']))
    rw [scan, scan, (startsLine_step_newline m).scan_ended (ih _)]
  | case3 cs ih =>
    show scan m ('\n' :: ended ((Text.splitLines cs).map (padded width))) =
      scan m ('\r' :: '\n' :: (cs ++ ['\n']))
    rw [scan_crlf, scan, scan, (startsLine_step_newline m).scan_ended (ih _)]
  | case4 c cs hn hcr hlines ih =>
    have hrest : restIndented width (c :: cs) = c :: restIndented width cs := by
      simp [restIndented, Text.splitLines, hlines, ended]
    rw [hrest, List.cons_append, scan, scan, ih]
  | case5 c cs hn hcr line lines hlines ih =>
    have hrest : restIndented width (c :: cs) = c :: restIndented width cs := by
      simp [restIndented, Text.splitLines, hlines]
    rw [hrest, List.cons_append, scan, scan, ih]

theorem toList_joinLines {lines : List String} (h : lines ≠ []) :
    (Text.joinLines lines).toList ++ ['\n'] = ended (lines.map String.toList) := by
  induction lines with
  | nil => contradiction
  | cons line lines ih =>
    cases lines with
    | nil => simp [Text.joinLines, ended]
    | cons next lines =>
      have hrest := ih (List.cons_ne_nil _ _)
      rw [Text.joinLines, String.intercalate_cons_cons, String.toList_append,
        String.toList_append, List.append_assoc, ← Text.joinLines, hrest]
      simp [ended]

theorem forall₂_map_map_iff {α β γ : Type} {R : β → γ → Prop} {f : α → β} {g : α → γ}
    {l : List α} : List.Forall₂ R (l.map f) (l.map g) ↔ ∀ x ∈ l, R (f x) (g x) := by
  rw [List.forall₂_map_left_iff, List.forall₂_map_right_iff, List.forall₂_same]

/-- What holds of texts in a row holds of lines put one under the other, if a line end adds
nothing. -/
theorem joinLines_of_append {α : Type} {R : String → List α → Prop} (hempty : R "" [])
    (hbreak : R "\n" []) (happend : ∀ {s t xs ys}, R s xs → R t ys → R (s ++ t) (xs ++ ys))
    {lines : List String} {xss : List (List α)} (h : List.Forall₂ R lines xss) :
    R (Text.joinLines lines) xss.flatten := by
  induction h with
  | nil => exact hempty
  | @cons line xs lines xss hline hlines ih =>
    cases lines with
    | nil =>
      obtain rfl := List.forall₂_nil_left_iff.1 hlines
      simpa [Text.joinLines] using hline
    | cons next lines =>
      rw [Text.joinLines, String.intercalate_cons_cons]
      have hrest := happend (happend hline hbreak) ih
      rwa [List.append_nil] at hrest

theorem toList_pushn (s : String) (c : Char) (n : Nat) :
    (s.pushn c n).toList = s.toList ++ List.replicate n c := by
  rw [String.pushn_eq_repeat_push]
  induction n with
  | zero => simp [Nat.repeat]
  | succ n ih => rw [Nat.repeat, String.toList_push, ih, List.replicate_succ', List.append_assoc]

theorem toList_indentLine (width : Nat) (line : List Char) :
    (Text.indentLine width (String.ofList line)).toList = padded width line := by
  by_cases hline : line = []
  · simp [Text.indentLine, padded, hline]
  · have hne : (String.ofList line).isEmpty = false := by simpa using hline
    rw [Text.indentLine, hne, padded, if_neg hline]
    simp [toList_pushn]

theorem toList_indent_of_eq_nil {s : String} (h : Text.splitLines s.toList = []) (width : Nat) :
    (Text.indent width s).toList = [] := by
  simp [Text.indent, Text.lines, Text.joinLines, h]

theorem toList_indent {s : String} (h : Text.splitLines s.toList ≠ []) (width : Nat) :
    (Text.indent width s).toList ++ ['\n'] =
      ended ((Text.splitLines s.toList).map (padded width)) := by
  rw [Text.indent, toList_joinLines (by simpa [Text.lines] using h), Text.lines]
  simp [Function.comp_def, toList_indentLine]

/-- **Indentation does not change how a text is read**, up to the end of its last line. -/
theorem scan_indent (hm : m.StartsLine) (width : Nat) (s : String) :
    scan m ((Text.indent width s).toList ++ ['\n']) = scan m (s.toList ++ ['\n']) := by
  by_cases hlines : Text.splitLines s.toList = []
  · rw [toList_indent_of_eq_nil hlines, splitLines_eq_nil hlines]
  · rw [toList_indent hlines, hm.scan_ended (scan_restIndented width m s.toList)]

/-! ## Runs of characters -/

/-- No character of this kind comes first. -/
def Stops (p : Char → Bool) (rest : List Char) : Prop :=
  ∀ c ∈ rest.head?, p c = false

theorem Stops.imp {p q : Char → Bool} {rest : List Char} (h : Stops p rest)
    (hpq : ∀ c, q c = true → p c = true) : Stops q rest := by
  intro c hc
  have hp := h c hc
  by_contra hq
  rw [hpq c (by simpa using hq)] at hp
  cases hp

theorem stops_nil (p : Char → Bool) : Stops p [] :=
  fun c hc => by cases hc

theorem stops_cons {p : Char → Bool} {c : Char} (h : p c = false) (rest : List Char) :
    Stops p (c :: rest) := by
  intro d hd
  cases hd
  exact h

instance (p : Char → Bool) : (rest : List Char) → Decidable (Stops p rest)
  | [] => isTrue (stops_nil p)
  | c :: rest => decidable_of_iff (p c = false) ⟨fun h => stops_cons h rest, fun h => h c rfl⟩

theorem Stops.append {p : Char → Bool} {cs rest : List Char} (hcs : Stops p cs)
    (hrest : Stops p rest) : Stops p (cs ++ rest) := by
  cases cs with
  | nil => exact hrest
  | cons c cs => exact stops_cons (hcs c rfl) _

theorem stops_of_append {p : Char → Bool} {cs : List Char} (rest : List Char)
    (h : Stops p (cs ++ rest)) : Stops p cs := by
  cases cs with
  | nil => exact stops_nil p
  | cons c cs => exact stops_cons (h c rfl) _

theorem stops_join {p : Char → Bool} {texts : List String} (h : ∀ s ∈ texts, Stops p s.toList) :
    Stops p (String.join texts).toList := by
  induction texts with
  | nil => exact stops_nil p
  | cons s texts ih =>
    rw [String.join_cons, String.toList_append]
    exact (h s List.mem_cons_self).append (ih fun t ht => h t (List.mem_cons_of_mem _ ht))

theorem stops_replicate {p : Char → Bool} {c : Char} (h : p c = false) (n : Nat) :
    Stops p (List.replicate n c) := by
  cases n with
  | zero => exact stops_nil p
  | succ n => exact stops_cons h _

theorem stops_dropWhile (p : Char → Bool) (cs : List Char) : Stops p (cs.dropWhile p) := by
  intro c hc
  have h := List.head?_dropWhile_not p cs
  rw [Option.mem_def.1 hc] at h
  exact h

/-- A run ends where the characters of its kind do. -/
theorem takeWhile_append_stops {p : Char → Bool} {cs rest : List Char} (hcs : ∀ c ∈ cs, p c = true)
    (hrest : Stops p rest) : (cs ++ rest).takeWhile p = cs := by
  rw [List.takeWhile_append_of_pos hcs]
  cases rest with
  | nil => simp
  | cons c rest => simp [hrest c rfl]

theorem dropWhile_append_stops {p : Char → Bool} {cs rest : List Char} (hcs : ∀ c ∈ cs, p c = true)
    (hrest : Stops p rest) : (cs ++ rest).dropWhile p = rest := by
  rw [List.dropWhile_append_of_pos hcs]
  cases rest with
  | nil => rfl
  | cons c rest => simp [hrest c rfl]

end Scorebook.Source
