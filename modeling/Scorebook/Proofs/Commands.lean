import Scorebook.Proofs.Allocation
import Scorebook.Proofs.Closure

/-!
# Macros and commands

A macro hides the command of the same name, and nothing keeps a part from being called like one. So
it is decided by the names of the parts alone which commands are hidden: a command is hidden exactly
if a part with a single staff has a name whose identifier is that command
(`Score.engrave_hides_iff`). The macros of several staves, and those that avoid an identifier issued
before, have a number in their names, and no command ends with the word of a digit
(`Allocator.numbered_not_mem_commands`).

The list of commands is complete: any other command of the output is a reference to a macro. So
where no part is called like one of them, no command that is used means anything else than it does
in LilyPond.
-/

namespace Scorebook

open Source

/-! ## Numbered identifiers -/

namespace Allocator

theorem numbered_not_mem_commands (name : String) (k : Nat) : numbered name k ∉ commands := by
  intro hmem
  obtain ⟨d, hd, hsuffix⟩ := exists_digitWord_suffix name k
  have hall : ∀ c ∈ commands, ¬(Identifier.digitWord d).toList <:+ c.toList :=
    Identifier.of_isDigit
      (fun d => ∀ c ∈ commands, ¬(Identifier.digitWord d).toList <:+ c.toList)
      (by decide +kernel) hd
  exact hall _ hmem hsuffix

/-- A command is issued for the name whose identifier it is, and for no other. -/
theorem mem_allocateAll_iff_of_command {command : String} (hcommand : command ∈ commands)
    (names : List String) :
    command ∈ (empty.allocateAll names).1 ↔ ∃ name ∈ names, Identifier.ofName name = command := by
  refine mem_allocateAll_iff ?_ names
  rintro name k rfl
  exact numbered_not_mem_commands name k hcommand

end Allocator

/-- Of the names that a part asks for, only that of a single staff can be the name of a command. -/
theorem Part.exists_macroName_iff {command : String} (hcommand : command ∈ commands)
    (part : Part) :
    (∃ name ∈ part.macroNames, Identifier.ofName name = command) ↔
      part.staves.length = 1 ∧ Identifier.ofName part.trackName = command := by
  unfold macroNames
  split_ifs with hlength
  · match hstaves : part.staves with
    | [] => simp
    | [staff] => simp
    | _ :: _ :: _ => simp [hstaves] at hlength
  · have hnumbered (i : Nat) :
        Identifier.ofName (part.trackName ++ toString (i + 1)) ≠ command := by
      rintro rfl
      exact Allocator.numbered_not_mem_commands part.trackName (i + 1) hcommand
    constructor
    · rintro ⟨name, hname, heq⟩
      obtain ⟨i, -, rfl⟩ := List.mem_map.1 hname
      exact absurd heq (hnumbered i)
    · rintro ⟨hone, -⟩
      omega

/-! ## The whole output -/

variable {score : Score} {settings : Settings} {c : Conversion} {parts : List EngravedPart}

theorem Conversion.Assembled.mem_macroIds_iff (h : c.Assembled score settings parts)
    {command : String} (hcommand : command ∈ commands) :
    command ∈ macroIds parts ↔
      ∃ part ∈ score.parts, part.staves.length = 1 ∧
        Identifier.ofName part.trackName = command := by
  rw [h.macroIds_eq, Allocator.mem_allocateAll_iff_of_command hcommand]
  constructor
  · rintro ⟨name, hname, heq⟩
    obtain ⟨part, hpart, hname⟩ := List.mem_flatMap.1 hname
    exact ⟨part, hpart, (part.exists_macroName_iff hcommand).1 ⟨name, hname, heq⟩⟩
  · rintro ⟨part, hpart, hcalled⟩
    obtain ⟨name, hname, heq⟩ := (part.exists_macroName_iff hcommand).2 hcalled
    exact ⟨name, List.mem_flatMap.2 ⟨part, hpart, hname⟩, heq⟩

/-- All commands of the text are LilyPond's, by name or by a sign alone, or these macros. -/
def Source.Uses (ids : List String) (text : String) : Prop :=
  ∀ t ∈ (scan .plain text.toList).1, t.Known ids

/-- **A command is hidden exactly if a part with a single staff is called like it**, and any command
that is used is one of those or a macro. -/
theorem Score.engrave_hides_iff (h : score.engrave settings = .ok c) :
    ∃ parts, c.Assembled score settings parts ∧
      (∀ command ∈ commands, command ∈ macroIds parts ↔
        ∃ part ∈ score.parts, part.staves.length = 1 ∧
          Identifier.ofName part.trackName = command) ∧
      ((∀ e ∈ score.events, e.PlainTremolo) → settings.PlainPaper →
        Uses [] c.music ∧ Uses (macroIds parts) c.parts ∧ Uses (macroIds parts) c.score) := by
  obtain ⟨parts, hparts⟩ := engrave_assembled h
  refine ⟨parts, hparts, fun command hcommand => hparts.mem_macroIds_iff hcommand, ?_⟩
  intro hplain hpaper
  exact ⟨(hparts.runs_music hplain).known, (hparts.runs_parts hpaper).known,
    (hparts.runs_score hpaper).known⟩

/-- A part in F, called after its key, and a part of two staves. -/
def hornAndTimpani : Score where
  order := .empty
  groups := [.single ⟨"1", "F", [], [⟨"1", "G", [⟨false, none,
      [[.dynamic "f", .chord ⟨"half", 0, [⟨65, false, []⟩], some "r16", [], []⟩]]⟩]⟩]⟩,
    .single ⟨"2", "Time", [], [⟨"2", "F", []⟩, ⟨"3", "F", []⟩]⟩]
  metadata := ⟨.ofList []⟩

theorem Score.engrave_hornAndTimpani : ∃ c, hornAndTimpani.engrave .standard = .ok c ∧
    ∃ parts, c.Assembled hornAndTimpani .standard parts ∧ "f" ∈ macroIds parts ∧
      "time" ∉ macroIds parts ∧
      Uses [] c.music ∧ Uses (macroIds parts) c.parts ∧ Uses (macroIds parts) c.score := by
  refine ⟨_, rfl, ?_⟩
  obtain ⟨parts, hparts, hhides, huses⟩ :=
    engrave_hides_iff (rfl : hornAndTimpani.engrave .standard = .ok _)
  refine ⟨parts, hparts, (hhides "f" (by decide +kernel)).2 (by decide +kernel),
    fun htime => ?_, huses (by decide +kernel) ⟨by decide +kernel, by decide +kernel⟩⟩
  exact absurd ((hhides "time" (by decide +kernel)).1 htime) (by decide +kernel)

/-- A part called after what is also a command. -/
def timekeeper : Score where
  order := .empty
  groups := [.single ⟨"1", "Time", [], [⟨"1", "G", [⟨false, none,
    [[.time ⟨3, 4⟩, .chord ⟨"quarter", 0, [⟨60, false, []⟩], none, [], []⟩]]⟩]⟩]⟩]
  metadata := ⟨.ofList []⟩

/-- **Its macro hides a command that it uses itself.** -/
theorem Score.engrave_timekeeper : ∃ c, timekeeper.engrave .standard = .ok c ∧
    c.music = "time = \x7b\n  \\time 3/4 c'4 \\bar \"|.\"\n\x7d\n" ∧ "time" ∈ commands ∧
    Token.command "time" ∈ (scan .plain c.music.toList).1 :=
  ⟨_, rfl, rfl, by decide +kernel, by decide +kernel⟩

end Scorebook
