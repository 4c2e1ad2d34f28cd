import YakOS.Lib.Bytes
import YakOS.Lib.Lists
import Mathlib.Data.List.Find
import Mathlib.Data.List.Nodup
import Mathlib.Data.List.TakeWhile
import Mathlib.Order.Lattice

/-!
# Shell commands

`shell_register_command` and `run_command` of `init/init_shell.c`.  The registered
commands are kept in the order of their names.  `run_command` compares only as many
characters of the line as the name of a command has, so it takes a command whose name
is the beginning of the first word for the word itself.

A command is registered once.  Copying a line that does not fit the buffer of
`run_command` is undefined.

## Main definitions

* `shellRegisterCommand`, `registered` — the list of commands.
* `runCommand` — the dispatch.
* `firstWord`, `HelpRequest`, `FitsBuffer` — what a line asks for.
* `Dispatches cmds line` — the line runs the command it names, and no other.

## Main results

* `pairwise_registered` — the commands are in order, whatever the order they came in.
* `invokes_iff` — a scan of the list stops at the shortest prefix of the first word.
* `runCommand_dispatches` — when a line runs the command it names, and which commands
  can be run at all.
-/

namespace YakOS

open Bytes Lists

/-- `struct shell_command`; a string is its characters, and `func` names a function. -/
structure ShellCommand where
  command : List UInt8
  description : List UInt8
  func : ℕ
  deriving DecidableEq, Repr

/-- The size of `cmdbuf`: `CONSOLE_BUFFER_SIZE`. -/
def cmdbufSize : ℕ := 256

/-- The loop of `shell_register_command`: `cmd` goes before the first command with a greater name. -/
def registerLoop (cmd : ShellCommand) : List ShellCommand → List ShellCommand
  | [] => [cmd]
  | pos :: rest =>
    if 0 < strcmp pos.command cmd.command then cmd :: pos :: rest else pos :: registerLoop cmd rest

/-- `shell_register_command`; `none` is the null pointer. -/
def shellRegisterCommand (commands : List ShellCommand) (cmd : Option ShellCommand) :
    List ShellCommand :=
  match cmd with
  | none => commands
  | some cmd => if commands = [] then [cmd] else registerLoop cmd commands

/-- The commands after they have been registered one after the other. -/
def registered (cmds : List ShellCommand) : List ShellCommand :=
  cmds.foldl (fun commands cmd => shellRegisterCommand commands (some cmd)) []

/-- What `run_command` does. -/
inductive Ran
  /-- It returns `-1`. -/
  | invalid
  /-- It writes past the end of `cmdbuf`. -/
  | overflow
  /-- It prints the description of a command. -/
  | described (cmd : ShellCommand)
  /-- It calls the function of a command; no arguments are a null pointer. -/
  | invoked (cmd : ShellCommand) (args : Option (List UInt8))
  /-- It prints that the command is unknown. -/
  | unknown
  deriving DecidableEq

/-- The line behind its leading spaces. -/
def skipSpaces (line : List UInt8) : List UInt8 := line.dropWhile (· = 32)

/-- The arguments in a line: what stands behind the first space and those that follow it. -/
def arguments (str : List UInt8) : Option (List UInt8) :=
  match str.dropWhile (· ≠ 32) with
  | [] => none
  | _ :: args => some (skipSpaces args)

/-- `run_command` -/
def runCommand (commands : List ShellCommand) (cmd : Option (List UInt8)) : Ran :=
  match cmd with
  | none => .invalid
  | some line =>
    if line = [] then .invalid
    else
      let str := skipSpaces line
      if cmdbufSize ≤ str.length then .overflow
      else
        match commands.find? fun cur => strncmp cur.command str cur.command.length = 0 with
        | none => .unknown
        | some cur =>
          if arguments str = some (chars "--help") ∨ arguments str = some (chars "-h") then .described cur
          else .invoked cur (arguments str)

/-- The first word of a line. -/
def firstWord (line : List UInt8) : List UInt8 := (skipSpaces line).takeWhile (· ≠ 32)

/-- The arguments of the line ask for help. -/
def HelpRequest (line : List UInt8) : Prop :=
  arguments (skipSpaces line) = some (chars "--help") ∨ arguments (skipSpaces line) = some (chars "-h")

instance (line : List UInt8) : Decidable (HelpRequest line) := inferInstanceAs (Decidable (_ ∨ _))

/-- The line fits the buffer it is copied to, with its terminator. -/
def FitsBuffer (line : List UInt8) : Prop := (skipSpaces line).length < cmdbufSize

/-- `run_command` calls the function of the command. -/
def Invokes (commands : List ShellCommand) (line : List UInt8) (c : ShellCommand) : Prop :=
  ∃ args, runCommand commands (some line) = .invoked c args

/-- With the given commands registered, a line invokes the command that its first word names, unless it
asks for help, and no other. -/
def Dispatches (cmds : List ShellCommand) (line : List UInt8) : Prop :=
  runCommand (registered cmds) (some line) ≠ .overflow ∧
    ∀ c ∈ cmds, Invokes (registered cmds) line c ↔ firstWord line = c.command ∧ ¬ HelpRequest line

/-! ### The list of commands -/

section Registered

variable {cmds commands : List ShellCommand} {cmd c : ShellCommand}

theorem registerLoop_perm (cmd : ShellCommand) (commands : List ShellCommand) :
    (registerLoop cmd commands).Perm (cmd :: commands) := by
  induction commands with
  | nil => exact List.Perm.refl _
  | cons pos rest ih =>
    rw [registerLoop]
    split
    · exact List.Perm.refl _
    · exact (ih.cons pos).trans (List.Perm.swap cmd pos rest)

theorem shellRegisterCommand_eq (commands : List ShellCommand) (cmd : ShellCommand) :
    shellRegisterCommand commands (some cmd) = registerLoop cmd commands := by
  show (if commands = [] then [cmd] else registerLoop cmd commands) = _
  split
  · next h => rw [h, registerLoop]
  · rfl

theorem foldl_register_perm (cmds commands : List ShellCommand) :
    (cmds.foldl (fun commands cmd => shellRegisterCommand commands (some cmd)) commands).Perm
      (cmds ++ commands) := by
  induction cmds generalizing commands with
  | nil => exact List.Perm.refl _
  | cons cmd cmds ih =>
    rw [List.foldl_cons, shellRegisterCommand_eq]
    refine (ih _).trans ?_
    exact ((registerLoop_perm cmd commands).append_left cmds).trans List.perm_middle

theorem registered_perm (cmds : List ShellCommand) : (registered cmds).Perm cmds := by
  have := foldl_register_perm cmds []
  rwa [List.append_nil] at this

/-- The commands are in the strict order of their names. -/
def Ordered (commands : List ShellCommand) : Prop := commands.Pairwise fun a b => a.command < b.command

/-- A command with a name of its own keeps the commands in order. -/
theorem Ordered.registerLoop (h : Ordered commands) (hnew : ∀ c ∈ commands, c.command ≠ cmd.command) :
    Ordered (registerLoop cmd commands) := by
  induction commands with
  | nil => exact List.pairwise_singleton _ _
  | cons pos rest ih =>
    obtain ⟨hpos, hrest⟩ := List.pairwise_cons.mp h
    have hne := hnew pos List.mem_cons_self
    rw [YakOS.registerLoop]
    split
    · next hgt =>
      have hlt : cmd.command < pos.command := by
        rw [← strcmp_neg_iff, strcmp_swap]
        omega
      refine List.pairwise_cons.mpr ⟨fun c hc => ?_, h⟩
      rcases List.mem_cons.mp hc with rfl | hc
      · exact hlt
      · exact List.lt_trans hlt (hpos c hc)
    · next hle =>
      have hlt : pos.command < cmd.command := by
        have hzero := mt strcmp_eq_zero_iff.mp hne
        rw [← strcmp_neg_iff]
        omega
      refine List.pairwise_cons.mpr ⟨fun c hc => ?_, ih hrest fun c hc => hnew c (List.mem_cons_of_mem _ hc)⟩
      rcases List.mem_cons.mp ((registerLoop_perm cmd rest).mem_iff.mp hc) with rfl | hc
      · exact hlt
      · exact hpos c hc

/-- Commands of distinct names are kept in order, in whatever order they are registered. -/
theorem pairwise_registered (hdistinct : (cmds.map ShellCommand.command).Nodup) :
    Ordered (registered cmds) := by
  have hfold : ∀ cmds commands : List ShellCommand, Ordered commands →
      ((cmds ++ commands).map ShellCommand.command).Nodup →
      Ordered (cmds.foldl (fun commands cmd => shellRegisterCommand commands (some cmd)) commands) := by
    intro cmds
    induction cmds with
    | nil => exact fun commands h _ => h
    | cons cmd cmds ih =>
      intro commands h hnodup
      have hperm : (cmd :: cmds ++ commands).Perm (cmds ++ registerLoop cmd commands) :=
        List.perm_middle.symm.trans ((registerLoop_perm cmd commands).symm.append_left cmds)
      have hnew : ∀ c ∈ commands, c.command ≠ cmd.command := by
        intro c hc heq
        rw [List.cons_append, List.map_cons, List.nodup_cons] at hnodup
        exact hnodup.1 (heq ▸ List.mem_map_of_mem (List.mem_append_right cmds hc))
      rw [List.foldl_cons, shellRegisterCommand_eq]
      exact ih _ (h.registerLoop hnew) ((hperm.map _).nodup_iff.mp hnodup)
  exact hfold cmds [] List.Pairwise.nil (by rwa [List.append_nil])

end Registered

/-! ### The dispatch -/

section Dispatch

variable {cmds : List ShellCommand} {line : List UInt8} {c : ShellCommand}

/-- A name without spaces begins a line if it begins the first word of the line. -/
theorem strncmp_skipSpaces_iff (hspace : 32 ∉ c.command) :
    strncmp c.command (skipSpaces line) c.command.length = 0 ↔ c.command <+: firstWord line := by
  have hword : ∀ x ∈ c.command, decide (x ≠ 32) = true := by
    intro x hx
    simpa using ne_of_mem_of_not_mem hx hspace
  rw [strncmp_eq_zero_comm, strncmp_length_eq_zero_iff, firstWord, prefix_takeWhile_iff hword]

theorem runCommand_eq_overflow_iff (commands : List ShellCommand) :
    runCommand commands (some line) = .overflow ↔ ¬ FitsBuffer line := by
  unfold runCommand FitsBuffer
  dsimp only
  split
  · next hnil =>
    subst hnil
    simp [skipSpaces, cmdbufSize]
  · split
    · next hlong => simpa using hlong
    · next hfits =>
      split
      · simpa using hfits
      · split <;> simpa using hfits

/-- Which command a line invokes: the first of the list whose name begins the first word. -/
theorem invokes_iff {commands : List ShellCommand} (hne : ∀ c ∈ commands, c.command ≠ [])
    (hspace : ∀ c ∈ commands, 32 ∉ c.command) :
    Invokes commands line c ↔ FitsBuffer line ∧ ¬ HelpRequest line ∧
      commands.find? (fun cur => cur.command <+: firstWord line) = some c := by
  have hfind : (commands.find? fun cur =>
      strncmp cur.command (skipSpaces line) cur.command.length = 0)
      = commands.find? (fun cur => cur.command <+: firstWord line) :=
    List.find?_congr fun cur hcur => decide_eq_decide.mpr (strncmp_skipSpaces_iff (hspace cur hcur))
  unfold Invokes runCommand FitsBuffer HelpRequest
  dsimp only
  rw [hfind]
  split
  · next hnil =>
    -- no name begins an empty line
    refine iff_of_false (by simp) ?_
    rintro ⟨-, -, hc⟩
    have hbegin := List.find?_some hc
    rw [decide_eq_true_eq, hnil] at hbegin
    exact hne c (List.mem_of_find?_eq_some hc) (List.prefix_nil.mp hbegin)
  · split
    · next hlong => exact iff_of_false (by simp) fun h => absurd h.1 (Nat.not_lt.mpr hlong)
    · next hfits =>
      rw [and_iff_right (Nat.not_le.mp hfits)]
      split
      · next hnone => simp [hnone]
      · next cur hcur =>
        rw [hcur]
        split
        · next hhelp => exact iff_of_false (by simp) fun h => h.1 hhelp
        · next hhelp => simp [hhelp]

/-- The first of the ordered commands whose name begins a word. -/
theorem find?_prefix_eq_some_iff {commands : List ShellCommand} (hord : Ordered commands)
    {word : List UInt8} :
    commands.find? (fun cur => cur.command <+: word) = some c ↔
      c ∈ commands ∧ c.command <+: word ∧
        ∀ d ∈ commands, d.command <+: word → d = c ∨ c.command < d.command := by
  rw [find?_eq_some_iff_of_pairwise (fun a b hab hba => List.lt_irrefl _ (List.lt_trans hab hba)) hord]
  simp only [decide_eq_true_eq]

/-- Two of the commands with distinct names. -/
theorem eq_of_command_eq (hdistinct : (cmds.map ShellCommand.command).Nodup) {d : ShellCommand}
    (hc : c ∈ cmds) (hd : d ∈ cmds) (heq : c.command = d.command) : c = d :=
  List.inj_on_of_nodup_map hdistinct hc hd heq

section Registration

variable (hdistinct : (cmds.map ShellCommand.command).Nodup) (hne : ∀ c ∈ cmds, c.command ≠ [])
  (hspace : ∀ c ∈ cmds, 32 ∉ c.command)

include hdistinct hne hspace

/-- Which of the registered commands a line invokes: the one with the shortest name that begins the
first word. -/
theorem invokes_registered_iff : Invokes (registered cmds) line c ↔
    FitsBuffer line ∧ ¬ HelpRequest line ∧ c ∈ cmds ∧ c.command <+: firstWord line ∧
      ∀ d ∈ cmds, d.command <+: firstWord line → d = c ∨ c.command < d.command := by
  have hmem : ∀ d, d ∈ registered cmds ↔ d ∈ cmds := fun d => (registered_perm cmds).mem_iff
  rw [invokes_iff (fun c hc => hne c ((hmem c).mp hc)) (fun c hc => hspace c ((hmem c).mp hc)),
    find?_prefix_eq_some_iff (pairwise_registered hdistinct)]
  simp only [hmem]

theorem dispatches_iff : Dispatches cmds line ↔ FitsBuffer line ∧
    (HelpRequest line ∨ ∀ c ∈ cmds, c.command <+: firstWord line → c.command = firstWord line) := by
  have hmem : ∀ d, d ∈ registered cmds ↔ d ∈ cmds := fun d => (registered_perm cmds).mem_iff
  unfold Dispatches
  rw [Ne, runCommand_eq_overflow_iff, not_not]
  refine and_congr_right ?_
  intro hfits
  constructor
  · intro hall
    by_cases hhelp : HelpRequest line
    · exact Or.inl hhelp
    · refine Or.inr ?_
      intro c hc hbegin
      -- somebody is invoked, and by assumption that is the command named
      obtain ⟨b, hb⟩ : ∃ b, (registered cmds).find? (fun cur => cur.command <+: firstWord line) = some b :=
        Option.isSome_iff_exists.mp (List.find?_isSome.mpr
          ⟨c, (registered_perm cmds).mem_iff.mpr hc, decide_eq_true hbegin⟩)
      rw [find?_prefix_eq_some_iff (pairwise_registered hdistinct)] at hb
      simp only [hmem] at hb
      obtain ⟨hbmem, hbprefix, hleast⟩ := hb
      have hword := ((hall b hbmem).mp ((invokes_registered_iff hdistinct hne hspace).mpr
        ⟨hfits, hhelp, hbmem, hbprefix, hleast⟩)).1
      rcases hleast c hc hbegin with rfl | hlt
      · exact hword.symm
      · by_contra hne'
        rw [← hword] at hlt
        exact List.lt_irrefl _ (List.lt_trans hlt (lt_of_isPrefix hbegin hne'))
  · intro hcond c hc
    rw [invokes_registered_iff hdistinct hne hspace]
    constructor
    · rintro ⟨-, hhelp, -, hbegin, -⟩
      exact ⟨(hcond.resolve_left hhelp c hc hbegin).symm, hhelp⟩
    · rintro ⟨hword, hhelp⟩
      refine ⟨hfits, hhelp, hc, by rw [hword], fun d hd hbegin => Or.inl ?_⟩
      have hdword := hcond.resolve_left hhelp d hd hbegin
      exact eq_of_command_eq hdistinct hd hc (hdword.trans hword)

/-- A command can be invoked if its name fits the buffer and no other name begins it. -/
theorem exists_invokes_iff (hc : c ∈ cmds) : (∃ line, Invokes (registered cmds) line c) ↔
    c.command.length < cmdbufSize ∧ ∀ d ∈ cmds, d.command <+: c.command → d = c := by
  constructor
  · rintro ⟨line, hinv⟩
    rw [invokes_registered_iff hdistinct hne hspace] at hinv
    obtain ⟨hfits, -, -, hbegin, hleast⟩ := hinv
    constructor
    · exact lt_of_le_of_lt (hbegin.length_le.trans (List.takeWhile_prefix _).length_le) hfits
    · intro d hd hdc
      rcases hleast d hd (hdc.trans hbegin) with heq | hlt
      · exact heq
      · by_contra hdne
        have hcommand : d.command ≠ c.command := fun heq => hdne (eq_of_command_eq hdistinct hd hc heq)
        exact List.lt_irrefl _ (List.lt_trans hlt (lt_of_isPrefix hdc hcommand))
  · rintro ⟨hlen, hfirst⟩
    have hskip : skipSpaces c.command = c.command := by
      obtain ⟨x, rest, hx⟩ := List.exists_cons_of_ne_nil (hne c hc)
      have hx32 : x ≠ 32 := fun heq => hspace c hc (by rw [hx, heq]; exact List.mem_cons_self)
      rw [skipSpaces, hx, List.dropWhile_cons_of_neg (by simpa using hx32)]
    have hwords : ∀ x ∈ c.command, decide (x ≠ 32) = true := fun x hx => by
      simpa using ne_of_mem_of_not_mem hx (hspace c hc)
    have hword : firstWord c.command = c.command := by
      rw [firstWord, hskip, List.takeWhile_eq_self_iff.mpr hwords]
    have hargs : arguments c.command = none := by
      rw [arguments, List.dropWhile_eq_nil_iff.mpr hwords]
    refine ⟨c.command, (invokes_registered_iff hdistinct hne hspace).mpr ⟨?_, ?_, hc, ?_, ?_⟩⟩
    · rwa [FitsBuffer, hskip]
    · rw [HelpRequest, hskip, hargs]
      simp
    · rw [hword]
    · intro d hd hbegin
      rw [hword] at hbegin
      exact Or.inl (hfirst d hd hbegin)

/-- With commands of distinct, non-empty names without spaces registered in any order, a line does what
its first word says exactly when it fits the buffer of `run_command` and either asks for help or has a
first word of which no registered name is a proper prefix.  A command can be invoked exactly when its
name fits the buffer and has no other registered name as a prefix. -/
theorem runCommand_dispatches :
    (∀ line, Dispatches cmds line ↔ FitsBuffer line ∧
      (HelpRequest line ∨ ∀ c ∈ cmds, c.command <+: firstWord line → c.command = firstWord line)) ∧
    ∀ c ∈ cmds, (∃ line, Invokes (registered cmds) line c) ↔
      c.command.length < cmdbufSize ∧ ∀ d ∈ cmds, d.command <+: c.command → d = c :=
  ⟨fun _ => dispatches_iff hdistinct hne hspace, fun _ hc => exists_invokes_iff hdistinct hne hspace hc⟩

end Registration

end Dispatch

/-! ### Two commands of the shell -/

/-- `ls_command`, whose function is called 0 here. -/
def lsCommand : ShellCommand := ⟨chars "ls", chars "help: list all file or directory", 0⟩

/-- `cd_command`, whose function is called 1 here. -/
def cdCommand : ShellCommand := ⟨chars "cd", chars "help: change to the specified directory", 1⟩

theorem runCommand_dispatches_two :
    (∀ line, Dispatches [lsCommand, cdCommand] line ↔ FitsBuffer line ∧
      (HelpRequest line ∨
        ∀ c ∈ [lsCommand, cdCommand], c.command <+: firstWord line → c.command = firstWord line)) ∧
    ∀ c ∈ [lsCommand, cdCommand], (∃ line, Invokes (registered [lsCommand, cdCommand]) line c) ↔
      c.command.length < cmdbufSize ∧ ∀ d ∈ [lsCommand, cdCommand], d.command <+: c.command → d = c :=
  runCommand_dispatches (by decide) (by decide) (by decide)

/-- With only `ls` registered, the line `lsx` runs it.  A command `lsx` that a module adds never runs. -/
theorem lsx_runs_ls :
    ¬ Dispatches [lsCommand] (chars "lsx") ∧
      runCommand (registered [lsCommand]) (some (chars "lsx")) = .invoked lsCommand none ∧
      ¬ ∃ line, Invokes (registered [lsCommand, ⟨chars "lsx", [], 2⟩]) line ⟨chars "lsx", [], 2⟩ := by
  refine ⟨fun h => ?_, by decide, fun h => ?_⟩
  · have hword := ((h.2 lsCommand (by decide)).mp ⟨none, by decide⟩).1
    exact absurd hword (by decide)
  · have hbegin := (exists_invokes_iff (by decide) (by decide) (by decide) (by decide)).mp h
    exact absurd (hbegin.2 lsCommand (by decide) (by decide)) (by decide)

end YakOS
