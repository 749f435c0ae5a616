import EnvManifest.Commands
import EnvManifest.Proofs.Entry
import Mathlib.Data.List.DropRight
import Mathlib.Data.List.Forall2

/-!
# Scripts appended, commands read back

A script is appended by a rule on its lines (`Commands.Adds`): what it has in front and behind is
cut off, each line of the rest loses the blanks at its end, and after that the tabs of the first
line if it begins with as many. The rule says what is added (`Commands.adds_iff`), and it is
stated by how the pieces make up the script and the lines, without a word on how they are found.

Two things follow from the rule alone. The last command is not empty: the script was cut behind a
character that is not blank, so this character is in its last line and is still there when the tabs
are gone (`Commands.BecomesCommand.ne_nil`). The first command does not begin with a tab. That
needs the order of the two cuts: a line that has nothing but tabs loses them as blanks, and is
left alone by the second cut because it does not begin with a tab any more
(`Commands.BecomesCommand.head?_ne_tab`).

What is written of commands is read back with the same format and the same script
(`Commands.reads_json_reread`), though not always with the same lines: a string is one command,
however many lines it has.
-/

namespace EnvManifest

/-! ### Blanks at the end, tabs at the beginning -/

namespace Text

variable {s kept : Text}

/-- `kept` is a text without the blanks at its end. -/
structure LosesBlanks (s kept : Text) : Prop where
  blanks : ∃ blanks, s = kept ++ blanks ∧ ∀ c ∈ blanks, isBlank c = true
  last : ∀ c ∈ kept.getLast?, isBlank c = false

theorem losesBlanks_trimEnd (s : Text) : LosesBlanks s s.trimEnd where
  blanks := ⟨s.rtakeWhile isBlank, List.rdropWhile_append_rtakeWhile.symm,
    fun _ => List.mem_rtakeWhile_imp⟩
  last c hc := by
    obtain ⟨hne, rfl⟩ := List.mem_getLast?_eq_getLast hc
    exact Bool.not_eq_true _ ▸ List.rdropWhile_last_not isBlank s hne

/-- There is one text that is left when the blanks at the end are lost. -/
theorem losesBlanks_iff : LosesBlanks s kept ↔ kept = s.trimEnd := by
  constructor
  · rintro ⟨⟨blanks, rfl, hblanks⟩, hlast⟩
    rw [trimEnd, dropEndWhile_append hblanks]
    refine (List.rdropWhile_eq_self_iff.2 fun hne => ?_).symm
    rw [hlast _ (List.getLast?_eq_some_getLast hne)]
    exact Bool.false_ne_true
  · rintro rfl
    exact losesBlanks_trimEnd s

/-- A text is cut behind its longest run of characters of one kind in one way only. -/
theorem eq_append_iff {p : Char → Bool} {front rest : Text} :
    (s = front ++ rest ∧ (∀ c ∈ front, p c = true) ∧ ∀ c ∈ rest.head?, p c = false) ↔
      front = s.takeWhile p ∧ rest = s.dropWhile p := by
  constructor
  · rintro ⟨rfl, hfront, hrest⟩
    rw [List.takeWhile_append_of_pos hfront, List.dropWhile_append_of_pos hfront]
    cases rest with
    | nil => simp
    | cons c rest => simp [hrest c rfl]
  · rintro ⟨rfl, rfl⟩
    refine ⟨List.takeWhile_append_dropWhile.symm, fun _ => List.mem_takeWhile_imp, fun c hc => ?_⟩
    have hnot := List.head?_dropWhile_not p s
    rwa [Option.mem_def.1 hc] at hnot

/-- A line begins with `n` tabs and no more. -/
def IndentedBy (n : Nat) (line : Text) : Prop :=
  ∃ rest, line = repeated n '\t' ++ rest ∧ rest.head? ≠ some '\t'

theorem indentedBy_iff {n : Nat} {line : Text} :
    IndentedBy n line ↔ repeated n '\t' = line.takeWhile (· == '\t') := by
  have htabs : ∀ c ∈ repeated n '\t', (c == '\t') = true :=
    fun c hc => beq_iff_eq.2 (List.eq_of_mem_replicate hc)
  constructor
  · rintro ⟨rest, hline, hrest⟩
    refine (eq_append_iff.1 ⟨hline, htabs, fun c hc => ?_⟩).1
    rw [beq_eq_false_iff_ne]
    rintro rfl
    exact hrest hc
  · intro h
    obtain ⟨hline, -, hrest⟩ := (eq_append_iff (p := (· == '\t'))).2 ⟨h, rfl⟩
    exact ⟨_, hline, fun hhead => absurd (hrest _ hhead) (by decide)⟩

theorem exists_indentedBy (line : Text) : ∃ n, IndentedBy n line := by
  have htab : ∀ c ∈ line.takeWhile (· == '\t'), c = '\t' := by
    intro c hc
    exact beq_iff_eq.1 (List.mem_takeWhile_imp (p := (· == '\t')) hc)
  exact ⟨_, indentedBy_iff.2 (List.eq_replicate_of_mem htab).symm⟩

/-- The first line of a text begins with the same tabs as the text. -/
theorem takeWhile_tab_of_lines {s first : Text} {rest : List Text} (h : s.lines = first :: rest) :
    s.takeWhile (· == '\t') = first.takeWhile (· == '\t') := by
  have hfirst : first = s.takeWhile (· != '\n') := by
    have hhead : s.lines.head? = some (s.takeWhile (· != '\n')) := head?_splitOn s '\n'
    rw [h] at hhead
    exact Option.some.inj hhead
  rw [hfirst, List.takeWhile_takeWhile]
  congr 1
  funext c
  by_cases hc : c = '\t'
  · simp [hc]
  · simp [hc]

end Text

/-! ### The rule of a script -/

namespace Commands

/-- The characters that a script loses in front. -/
def Leads (c : Char) : Prop :=
  c = '\r' ∨ c = '\n' ∨ c = ' '

/-- `core` is a script without the newlines, carriage returns and spaces in front of it and the
blanks behind it. -/
def TrimsTo (script core : Text) : Prop :=
  ∃ front rest, script = front ++ rest ∧ (∀ c ∈ front, Leads c) ∧ (∀ c ∈ rest.head?, ¬Leads c) ∧
    rest.LosesBlanks core

/-- A line becomes a command: it loses the blanks at its end, and then `n` tabs if it begins with
as many. -/
def BecomesCommand (n : Nat) (line command : Text) : Prop :=
  ∃ kept, line.LosesBlanks kept ∧
    (kept = Text.repeated n '\t' ++ command ∨
      ¬Text.repeated n '\t' <+: kept ∧ command = kept)

/-- What a script adds: nothing if it is blank, and otherwise a command for each line of what it
is trimmed to, where the first line says how many tabs a line loses. -/
structure Adds (script : Text) (added : List Text) : Prop where
  blank : (∀ c ∈ script, isBlank c = true) → added = []
  lines : (∃ c ∈ script, isBlank c = false) → ∃ core first rest n,
    TrimsTo script core ∧ core = Text.join ['\n'] (first :: rest) ∧
    (∀ line ∈ first :: rest, '\n' ∉ line) ∧ first.IndentedBy n ∧
    List.Forall₂ (BecomesCommand n) (first :: rest) added

variable {script core line command : Text} {n : Nat}

theorem leads_iff {c : Char} : Leads c ↔ (c == '\r' || c == '\n' || c == ' ') = true := by
  simp [Leads, or_assoc]

theorem isBlank_of_leads {c : Char} (h : Leads c) : isBlank c = true := by
  rcases h with rfl | rfl | rfl <;> decide

theorem trimsTo_iff : TrimsTo script core ↔ core = trimScript script := by
  simp only [TrimsTo, leads_iff, Bool.not_eq_true, Text.losesBlanks_iff]
  constructor
  · rintro ⟨front, rest, hscript, hfront, hrest, rfl⟩
    rw [(Text.eq_append_iff.1 ⟨hscript, hfront, hrest⟩).2, trimScript]
  · rintro rfl
    obtain ⟨hscript, hfront, hrest⟩ := Text.eq_append_iff.2 ⟨rfl, rfl⟩
    exact ⟨_, _, hscript, hfront, hrest, rfl⟩

/-- Nothing is left of a script exactly if it is blank. -/
theorem TrimsTo.eq_nil_iff (h : TrimsTo script core) :
    core = [] ↔ ∀ c ∈ script, isBlank c = true := by
  obtain ⟨front, rest, rfl, hfront, -, ⟨blanks, rfl, hblanks⟩, hlast⟩ := h
  constructor
  · rintro rfl c hc
    rcases List.mem_append.1 hc with hc | hc
    · exact isBlank_of_leads (hfront c hc)
    · exact hblanks c hc
  · intro hall
    by_contra hne
    have hmem : core.getLast hne ∈ front ++ (core ++ blanks) :=
      List.mem_append_right _ (List.mem_append_left _ (List.getLast_mem hne))
    have hnot := hlast _ (List.getLast?_eq_some_getLast hne)
    rw [hall _ hmem] at hnot
    cases hnot

theorem TrimsTo.ne_nil (h : TrimsTo script core) (hsome : ∃ c ∈ script, isBlank c = false) :
    core ≠ [] := by
  obtain ⟨c, hc, hnot⟩ := hsome
  intro hnil
  rw [h.eq_nil_iff.1 hnil c hc] at hnot
  cases hnot

theorem becomesCommand_iff : BecomesCommand n line command ↔
    command = (Text.without? (Text.repeated n '\t') line.trimEnd).getD line.trimEnd := by
  constructor
  · rintro ⟨kept, hkept, hcommand⟩
    obtain rfl := Text.losesBlanks_iff.1 hkept
    rcases hcommand with hcommand | ⟨hnot, rfl⟩
    · rw [hcommand, Text.without?_append, Option.getD_some]
    · rw [Text.without?_eq_none_iff.2 hnot, Option.getD_none]
  · rintro rfl
    refine ⟨_, Text.losesBlanks_trimEnd line, ?_⟩
    cases hrest : Text.without? (Text.repeated n '\t') line.trimEnd with
    | none => exact .inr ⟨Text.without?_eq_none_iff.1 hrest, rfl⟩
    | some rest => exact .inl (Text.append_of_without? hrest).symm

theorem forall₂_becomesCommand_iff {lines added : List Text} :
    List.Forall₂ (BecomesCommand n) lines added ↔ added = lines.map fun line =>
      (Text.without? (Text.repeated n '\t') line.trimEnd).getD line.trimEnd := by
  rw [eq_comm, ← List.forall₂_eq_eq_eq, List.forall₂_map_left_iff]
  exact ⟨fun h => h.imp fun _ _ hc => (becomesCommand_iff.1 hc).symm,
    fun h => h.imp fun _ _ hc => becomesCommand_iff.2 hc.symm⟩

/-- The lines of a script become commands one by one. -/
theorem TrimsTo.forall₂_linesOf {first : Text} {rest : List Text} (hcore : TrimsTo script core)
    (hne : core ≠ []) (hlines : core.lines = first :: rest) (hn : Text.IndentedBy n first) :
    List.Forall₂ (BecomesCommand n) (first :: rest) (linesOf script) := by
  obtain rfl := trimsTo_iff.1 hcore
  rw [forall₂_becomesCommand_iff, linesOf, if_neg (by simpa using hne), hlines,
    Text.takeWhile_tab_of_lines hlines, ← Text.indentedBy_iff.1 hn]

theorem adds_linesOf (script : Text) : Adds script (linesOf script) where
  blank h := by
    rw [linesOf, (trimsTo_iff.2 rfl).eq_nil_iff.2 h]
    rfl
  lines h := by
    have hcore : TrimsTo script (trimScript script) := trimsTo_iff.2 rfl
    have hne := hcore.ne_nil h
    obtain ⟨first, rest, hlines⟩ :=
      List.exists_cons_of_ne_nil (List.splitOn_ne_nil '\n' (trimScript script))
    obtain ⟨n, hn⟩ := Text.exists_indentedBy first
    refine ⟨_, first, rest, n, hcore, ?_, ?_, hn, hcore.forall₂_linesOf hne hlines hn⟩
    · rw [← hlines]
      exact (List.intercalate_splitOn '\n').symm
    · intro line hline
      rw [← hlines] at hline
      exact Text.not_mem_of_mem_splitOn hline

/-- **The rule says what is added.** -/
theorem adds_iff {added : List Text} : Adds script added ↔ added = linesOf script := by
  constructor
  · rintro ⟨hblank, hlines⟩
    by_cases hall : ∀ c ∈ script, isBlank c = true
    · rw [hblank hall, (adds_linesOf script).blank hall]
    · have hsome : ∃ c ∈ script, isBlank c = false := by simpa using hall
      obtain ⟨core, first, rest, n, hcore, hjoin, hlf, hn, hadded⟩ := hlines hsome
      have hsplit : core.lines = first :: rest := by
        rw [hjoin]
        exact List.splitOn_intercalate '\n' hlf (List.cons_ne_nil _ _)
      rw [forall₂_becomesCommand_iff.1 hadded,
        forall₂_becomesCommand_iff.1 (hcore.forall₂_linesOf (hcore.ne_nil hsome) hsplit hn)]
  · rintro rfl
    exact adds_linesOf script

example : linesOf "\n\t\techo one  \n\t\t\techo two\n\techo three\n\n".toList =
    ["echo one".toList, "\techo two".toList, "\techo three".toList] := by
  decide +kernel

/-! ### The first and the last command -/

/-- The first line becomes a command that does not begin with a tab. -/
theorem BecomesCommand.head?_ne_tab (h : BecomesCommand n line command)
    (hn : Text.IndentedBy n line) : command.head? ≠ some '\t' := by
  obtain ⟨kept, ⟨⟨blanks, hline, -⟩, hlast⟩, hcommand⟩ := h
  obtain ⟨rest, hrest, hhead⟩ := hn
  have hsame : kept ++ blanks = Text.repeated n '\t' ++ rest := hline ▸ hrest
  intro htab
  obtain ⟨command, rfl⟩ : ∃ r, command = '\t' :: r := by
    cases command with
    | nil => cases htab
    | cons c r => exact ⟨r, by rw [Option.some.inj htab]⟩
  rcases hcommand with rfl | ⟨hnot, rfl⟩
  · -- behind the tabs of the line there would be one more
    rw [List.append_assoc, List.append_cancel_left_eq] at hsame
    exact hhead (by rw [← hsame]; rfl)
  · -- fewer tabs are kept than the line begins with, and nothing else, though the last of them
    -- is a blank
    have hkept : '\t' :: command <+: Text.repeated n '\t' :=
      (List.prefix_or_prefix_of_prefix ⟨blanks, hsame⟩ (List.prefix_append _ rest)).resolve_right
        hnot
    have hne : '\t' :: command ≠ [] := List.cons_ne_nil _ _
    have hblank := hlast _ (List.getLast?_eq_some_getLast hne)
    rw [List.eq_of_mem_replicate (hkept.subset (List.getLast_mem hne))] at hblank
    exact absurd hblank (by decide)

/-- A line that ends with a character that is not blank becomes a command that is not empty. -/
theorem BecomesCommand.ne_nil (h : BecomesCommand n line command) {c : Char}
    (hc : line.getLast? = some c) (hblank : isBlank c = false) : command ≠ [] := by
  obtain ⟨kept, hkept, hcommand⟩ := h
  have hself : line.LosesBlanks line :=
    ⟨⟨[], by simp⟩, fun d hd => by rwa [← Option.some.inj (hc.symm.trans hd)]⟩
  obtain rfl : kept = line := by
    rw [Text.losesBlanks_iff.1 hkept, ← Text.losesBlanks_iff.1 hself]
  rintro rfl
  rcases hcommand with rfl | ⟨-, rfl⟩
  · -- it would be made of tabs
    rw [List.append_nil] at hc
    rw [List.eq_of_mem_replicate (List.mem_of_getLast? hc)] at hblank
    exact absurd hblank (by decide)
  · cases hc

/-- The last of the joined lines stands behind a newline, if anything is in front of it. -/
theorem exists_join_concat (init : List Text) (line : Text) :
    ∃ front, Text.join ['\n'] (init ++ [line]) = front ++ line ∧
      ∀ c ∈ front.getLast?, c = '\n' := by
  induction init with
  | nil => exact ⟨[], by simp [Text.join], by simp⟩
  | cons first init ih =>
    obtain ⟨front, hjoin, hlast⟩ := ih
    refine ⟨first ++ '\n' :: front, ?_, ?_⟩
    · rw [List.cons_append, Text.join, List.intercalate_cons_of_ne_nil (by simp), ← Text.join, hjoin]
      simp
    · intro c hc
      rw [List.getLast?_append_of_ne_nil _ (List.cons_ne_nil _ _), List.getLast?_cons] at hc
      cases hfront : front.getLast? with
      | none => simpa [hfront, eq_comm] using hc
      | some d => exact hlast c (by simpa [hfront] using hc)

/-- The last line of what a script is trimmed to ends with a character that is not blank. -/
theorem TrimsTo.getLast?_line (h : TrimsTo script core) (hne : core ≠ []) {init : List Text}
    (hjoin : core = Text.join ['\n'] (init ++ [line])) :
    ∃ c, line.getLast? = some c ∧ isBlank c = false := by
  obtain ⟨front, hfront, hlast⟩ := exists_join_concat init line
  obtain ⟨-, rest, -, -, -, hrest⟩ := h
  obtain ⟨c, hcore⟩ : ∃ c, core.getLast? = some c := ⟨_, List.getLast?_eq_some_getLast hne⟩
  have hblank := hrest.last c hcore
  rw [hjoin, hfront] at hcore
  refine ⟨c, ?_, hblank⟩
  rw [← hcore, List.getLast?_append_of_ne_nil]
  rintro rfl
  -- otherwise the newline in front of the line would be the character
  rw [List.append_nil] at hcore
  rw [hlast _ hcore] at hblank
  exact absurd hblank (by decide)

theorem Adds.exists_of_mem {added : List Text} (h : Adds script added) (hmem : command ∈ added) :
    ∃ c ∈ script, isBlank c = false := by
  by_contra hall
  rw [h.blank (by simpa using hall)] at hmem
  cases hmem

/-- **The last command that a script adds is not empty.** -/
theorem Adds.last_ne_nil {added : List Text} (h : Adds script added) :
    ∀ command ∈ added.getLast?, command ≠ [] := by
  intro command hcommand
  have hsome := h.exists_of_mem (List.mem_of_getLast? hcommand)
  obtain ⟨core, first, rest, n, hcore, hjoin, -, -, hadded⟩ := h.lines hsome
  obtain ⟨init, line, hlines⟩ : ∃ init line, first :: rest = init ++ [line] :=
    ⟨_, _, (List.dropLast_concat_getLast (List.cons_ne_nil first rest)).symm⟩
  rw [hlines] at hjoin hadded
  obtain ⟨c, hc, hblank⟩ := hcore.getLast?_line (hcore.ne_nil hsome) hjoin
  rw [← List.forall₂_reverse_iff, List.reverse_append, List.reverse_singleton, List.singleton_append,
    List.forall₂_cons_left_iff] at hadded
  obtain ⟨last, others, hbecomes, -, hreverse⟩ := hadded
  rw [List.getLast?_eq_head?_reverse, hreverse] at hcommand
  obtain rfl := Option.some.inj hcommand
  exact hbecomes.ne_nil hc hblank

/-- **The first command that a script adds does not begin with a tab.** -/
theorem Adds.head_ne_tab {added : List Text} (h : Adds script added) :
    ∀ command ∈ added.head?, command.head? ≠ some '\t' := by
  intro command hcommand
  obtain ⟨core, first, rest, n, -, -, -, hn, hadded⟩ :=
    h.lines (h.exists_of_mem (List.mem_of_head? hcommand))
  obtain ⟨_, others, hbecomes, -, rfl⟩ := List.forall₂_cons_left_iff.1 hadded
  obtain rfl := Option.some.inj hcommand
  exact hbecomes.head?_ne_tab hn

/-! ### Written and read back -/

/-- Commands as strict JSON. -/
def json (c : Commands) : Text :=
  c.toNode.pack

/-- A text is strict JSON and read as commands. -/
def Reads (s : Text) (c : Commands) : Prop :=
  ∃ v, Value.parse s = .ok v ∧ IsJson Nothing v.node.outline s ∧ decode v.node.datum = .ok c

/-- What the value of commands is decoded as. -/
def reread (c : Commands) : Commands :=
  match c.format with
  | .array => c
  | .string => ⟨.string, [c.script]⟩

theorem decode_toNode (c : Commands) : decode c.toNode.datum = .ok c.reread := by
  obtain ⟨format, lines⟩ := c
  cases format with
  | array =>
    rw [toNode, Node.datum_ofTexts, decode, decodeTexts_map_string]
    rfl
  | string => rfl

theorem minimal_toNode (c : Commands) : c.toNode.minimal = c.toNode := by
  rw [toNode]
  split
  · exact Node.minimal_ofTexts _
  · exact Node.minimal_ofText _

theorem fits_toNode (c : Commands) : c.toNode.Fits maxDepth := by
  rw [toNode]
  split
  · exact Node.fits_ofTexts (d := 127) _
  · exact Node.fits_ofText _

/-- What is written of commands is read as what their value is decoded as. -/
theorem reads_json_reread (c : Commands) : Reads c.json c.reread := by
  obtain ⟨v, hparse, hjson, hdatum⟩ := Node.exists_parse_of_minimal c.minimal_toNode c.fits_toNode
  exact ⟨v, hparse, hjson, by rw [hdatum, decode_toNode]⟩

theorem format_reread (c : Commands) : c.reread.format = c.format := by
  rw [reread]
  split <;> simp [*]

theorem script_reread (c : Commands) : c.reread.script = c.script := by
  rw [reread]
  split
  · rfl
  · simp [script, Text.join]

/-- **A script is appended by the rule of its lines, and what is written is read back.** Appending
leaves the commands there are and puts behind them what the rule adds, whose last command is not
empty and whose first does not begin with a tab. And whatever commands there are, decoded and
appended to or not, they are written as strict JSON that is read as commands of the same format
with the same script. -/
theorem adds_append_and_reads_json :
    (∀ (c : Commands) (script : Text), ∃ added,
      c.append script = { c with lines := c.lines ++ added } ∧ Adds script added ∧
      (∀ command ∈ added.getLast?, command ≠ []) ∧
      ∀ command ∈ added.head?, command.head? ≠ some '\t') ∧
    ∀ c : Commands, ∃ c', Reads c.json c' ∧ c'.format = c.format ∧ c'.script = c.script :=
  ⟨fun _ script => ⟨linesOf script, rfl, adds_linesOf script, (adds_linesOf script).last_ne_nil,
    (adds_linesOf script).head_ne_tab⟩,
    fun c => ⟨c.reread, c.reads_json_reread, c.format_reread, c.script_reread⟩⟩

end Commands

end EnvManifest
