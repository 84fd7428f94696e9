import Mathlib.Data.List.Induction
import Treewalk.Proofs.Session.Account
import Treewalk.Shell

/-!
# How a shell cuts lines into units

A shell that is given no commands runs its lines in units, as short as they can be: a unit ends with the
first line after which nothing is left open. `IsCut` says this of lists of lines, without the shell, and
there is one such cut only (`IsCut.unique`). The shell makes this cut whatever becomes of the units
(`Shell.cuts`), since a unit is over for the shell before it is run.

Along the lines, the kept text and the cut of the lines so far determine each other: this is what
one line preserves (`Shell.turn_code`, `IsCut.keep`, `IsCut.run`).
-/

namespace Treewalk

/-! ## Cutting lines -/

/-- Lines, each with a line feed. -/
def joinedLines (lines : List String) : String := String.join (lines.map (· ++ "\n"))

/-- The text of the lines of a unit: a line on its own has no line feed. -/
def unitText : List String → String
  | [line] => line
  | lines => joinedLines lines

/-- Every beginning of these lines leaves something open. -/
def StaysOpen (lines : List String) : Prop :=
  ∀ v, v <+: lines → v ≠ [] → needsContinuation (unitText v) = true

/-- Nothing is left open after these lines, but after every shorter beginning. -/
structure IsUnit (lines : List String) : Prop where
  ne_nil : lines ≠ []
  closed : needsContinuation (unitText lines) = false
  shortest : ∀ v, v <+: lines → v ≠ [] → v ≠ lines → needsContinuation (unitText v) = true

/-- Lines cut into units and the lines that are left, which wait for more. -/
structure IsCut (lines : List String) (units : List (List String)) (rest : List String) : Prop where
  flatten : units.flatten ++ rest = lines
  isUnit : ∀ u ∈ units, IsUnit u
  staysOpen : StaysOpen rest

/-- No line leaves nothing open. -/
theorem StaysOpen.nil : StaysOpen [] := fun _ hv hne => absurd (List.prefix_nil.1 hv) hne

/-- A beginning of lines and one more line is all of them or a beginning of the lines. -/
theorem prefix_snoc {α : Type} {v lines : List α} {line : α} (h : v <+: lines ++ [line]) :
    v = lines ++ [line] ∨ v <+: lines := by
  rw [List.prefix_concat_iff] at h
  exact h

/-- A line that leaves something open after lines that wait goes on waiting with them. -/
theorem StaysOpen.snoc {lines : List String} {line : String} (h : StaysOpen lines)
    (hopen : needsContinuation (unitText (lines ++ [line])) = true) : StaysOpen (lines ++ [line]) := by
  intro v hv hne
  rcases prefix_snoc hv with rfl | hv
  · exact hopen
  · exact h v hv hne

/-- A line that leaves nothing open after lines that wait makes a unit of them. -/
theorem StaysOpen.isUnit {lines : List String} {line : String} (h : StaysOpen lines)
    (hclosed : needsContinuation (unitText (lines ++ [line])) = false) : IsUnit (lines ++ [line]) := by
  refine ⟨List.concat_ne_nil _ _, hclosed, fun v hv hne hv' => ?_⟩
  rcases prefix_snoc hv with rfl | hv
  · exact absurd rfl hv'
  · exact h v hv hne

/-- No unit is a beginning of lines that stay open. -/
theorem IsUnit.not_beginning {u lines : List String} (hu : IsUnit u) (h : StaysOpen lines) :
    ¬u <+: lines := by
  intro hprefix
  cases (h u hprefix hu.ne_nil).symm.trans hu.closed

/-- Of two units with which the same lines begin, neither is longer. -/
theorem IsUnit.eq_of_beginning {u v lines : List String} (hu : IsUnit u) (hv : IsUnit v)
    (hulines : u <+: lines) (hvlines : v <+: lines) : u = v := by
  by_contra hne
  rcases List.prefix_or_prefix_of_prefix hulines hvlines with h | h
  · cases (hv.shortest u h hu.ne_nil hne).symm.trans hu.closed
  · cases (hu.shortest v h hv.ne_nil (Ne.symm hne)).symm.trans hv.closed

namespace IsCut

variable {lines rest rest' : List String} {units units' : List (List String)} {line : String}

/-- There is at most one way to cut lines. -/
theorem unique (h : IsCut lines units rest) (h' : IsCut lines units' rest') :
    units = units' ∧ rest = rest' := by
  induction units generalizing lines units' with
  | nil =>
    obtain rfl : rest = lines := h.flatten
    cases units' with
    | nil => exact ⟨rfl, h'.flatten.symm⟩
    | cons u units' =>
      have hu : u <+: rest := ⟨_, (List.append_assoc ..).symm.trans h'.flatten⟩
      exact absurd hu ((h'.isUnit u List.mem_cons_self).not_beginning h.staysOpen)
  | cons u units ih =>
    have hu : u <+: lines := ⟨_, (List.append_assoc ..).symm.trans h.flatten⟩
    cases units' with
    | nil =>
      obtain rfl : rest' = lines := h'.flatten
      exact absurd hu ((h.isUnit u List.mem_cons_self).not_beginning h'.staysOpen)
    | cons u' units' =>
      have hu' : u' <+: lines := ⟨_, (List.append_assoc ..).symm.trans h'.flatten⟩
      -- Both begin with a unit, and of two units that lines begin with neither is longer.
      obtain rfl := (h.isUnit u List.mem_cons_self).eq_of_beginning (h'.isUnit u' List.mem_cons_self) hu hu'
      have hflatten := h.flatten.trans h'.flatten.symm
      rw [List.flatten_cons, List.flatten_cons, List.append_assoc, List.append_assoc] at hflatten
      obtain ⟨rfl, rfl⟩ := ih
        ⟨rfl, fun v hv => h.isUnit v (List.mem_cons_of_mem u hv), h.staysOpen⟩
        ⟨(List.append_cancel_left hflatten).symm,
          fun v hv => h'.isUnit v (List.mem_cons_of_mem u hv), h'.staysOpen⟩
      exact ⟨rfl, rfl⟩

/-- A line that leaves something open is kept. -/
theorem keep (h : IsCut lines units rest)
    (hopen : needsContinuation (unitText (rest ++ [line])) = true) :
    IsCut (lines ++ [line]) units (rest ++ [line]) :=
  ⟨by rw [← List.append_assoc, h.flatten], h.isUnit, h.staysOpen.snoc hopen⟩

/-- A line that leaves nothing open ends a unit. -/
theorem run (h : IsCut lines units rest)
    (hclosed : needsContinuation (unitText (rest ++ [line])) = false) :
    IsCut (lines ++ [line]) (units ++ [rest ++ [line]]) [] := by
  refine ⟨?_, fun u hu => ?_, .nil⟩
  · rw [List.flatten_append, List.flatten_singleton, List.append_nil, ← List.append_assoc, h.flatten]
  · rcases List.mem_append.1 hu with hu | hu
    · exact h.isUnit u hu
    · rw [List.mem_singleton.1 hu]
      exact h.staysOpen.isUnit hclosed

end IsCut

/-! ## Texts of lines -/

section

variable {lines : List String} {line : String}

/-- One line more comes at the end. -/
theorem joinedLines_snoc (lines : List String) (line : String) :
    joinedLines (lines ++ [line]) = joinedLines lines ++ line ++ "\n" := by
  simp [joinedLines, String.join_append, String.append_assoc]

/-- Only of no lines there is no text, since each brings a line feed. -/
theorem joinedLines_eq_empty : joinedLines lines = "" ↔ lines = [] := by
  cases lines with
  | nil => simp [joinedLines]
  | cons line lines => simp [joinedLines, String.append_eq_empty_iff]

/-- The last line of a unit of several lines ends with a line feed. -/
theorem unitText_snoc (hne : lines ≠ []) (line : String) :
    unitText (lines ++ [line]) = joinedLines lines ++ line ++ "\n" := by
  rw [← joinedLines_snoc]
  obtain ⟨first, lines, rfl⟩ := List.exists_cons_of_ne_nil hne
  cases lines <;> rfl

/-- A text with a line feed behind it ends with one. -/
theorem getLast?_toList_joined (text : String) : (text ++ "\n").toList.getLast? = some '\n' := by
  rw [String.toList_append]
  exact List.getLast?_concat

/-- Lines without line feeds are as many lines when they are joined. -/
theorem lineFeeds_joinedLines (h : ∀ line ∈ lines, '\n' ∉ line.toList) :
    Scan.lineFeeds (joinedLines lines).toList = lines.length := by
  induction lines using List.reverseRecOn with
  | nil => rfl
  | append_singleton lines line ih =>
    have hline := h line (List.mem_append_right _ List.mem_cons_self)
    rw [joinedLines_snoc, String.toList_append, String.toList_append, Scan.lineFeeds_append,
      Scan.lineFeeds_append, ih fun l hl => h l (List.mem_append_left _ hl)]
    simp [Scan.lineFeeds, List.count_eq_zero.2 hline]

/-- A unit of lines without line feeds has as many lines. -/
theorem lineCount_unitText (hne : lines ≠ []) (h : ∀ line ∈ lines, '\n' ∉ line.toList) :
    lineCount (unitText lines) = lines.length := by
  obtain ⟨before, last, rfl⟩ := (List.eq_nil_or_concat' lines).resolve_left hne
  by_cases hbefore : before = []
  · -- A line on its own has no line feed, so it counts because of its end.
    subst hbefore
    have hlast := h last List.mem_cons_self
    have hend : last.toList.getLast? ≠ some '\n' := fun hend => hlast (List.mem_of_getLast? hend)
    unfold lineCount
    rw [List.nil_append, unitText, if_neg hend]
    simp [Scan.lineFeeds, List.count_eq_zero.2 hlast]
  · unfold lineCount
    rw [unitText_snoc hbefore, if_pos (getLast?_toList_joined _), ← joinedLines_snoc,
      lineFeeds_joinedLines h, Int.add_zero]

end

/-! ## What a shell does along lines -/

/-- What is taken one after another, each with the state in which it is taken. -/
def along {σ α : Type} (step : σ → α → σ) (s : σ) : List α → List (σ × α)
  | [] => []
  | a :: as => (s, a) :: along step (step s a) as

/-- The last is taken after all others. -/
theorem along_snoc {σ α : Type} (step : σ → α → σ) (s : σ) (as : List α) (a : α) :
    along step s (as ++ [a]) = along step s as ++ [(as.foldl step s, a)] := by
  induction as generalizing s with
  | nil => rfl
  | cons b as ih => exact congrArg ((s, b) :: ·) (ih (step s b))

/-- The text that is run, if one is. -/
def Turn.text? : Turn → Option String
  | run text => some text
  | leave | pass | help | exit | keep _ => none

/-- The prompt after a line, if prompts are swapped when lines are kept and when they are run. -/
def Turn.swapped (prompt : String) : Turn → String
  | keep _ => ". "
  | run _ => "> "
  | leave | pass | help | exit => prompt

namespace Shell

/-- A line that is no command for a shell. -/
def IsCode (s : Shell) (line : String) : Prop :=
  let command := String.ofList (Text.trimmed line.toList)
  command ≠ "EOF" ∧ (command = "help" ∨ command = "exit" → s.pending ≠ "")

/-- A shell after a line, whatever becomes of the line. -/
def next (s : Shell) (line : String) : Shell := (s.takeLine line).1

/-- A shell after lines. -/
def takeAll (s : Shell) (lines : List String) : Shell := lines.foldl next s

/-- The texts that a shell has its session execute while it takes lines. -/
def texts (s : Shell) (lines : List String) : List String :=
  (along next s lines).filterMap fun (s, line) => (s.turn line).text?

/-- All that a shell itself shows while it takes lines. -/
def shownAll (s : Shell) (lines : List String) : String :=
  String.join ((along next s lines).map fun (s, line) => (s.takeLine line).2.2)

/-- The prompt after lines, if it is the one of a new shell before them and is swapped on the way. -/
def swappedPrompt (s : Shell) (lines : List String) : String :=
  (along next s lines).foldl (fun prompt (s, line) => (s.turn line).swapped prompt) "> "

/-- A session after the unit of a shell. -/
def afterUnit (s : Session) (text : String) : Session := (runUnit s text).1.session

/-- What units end with that a shell runs one after another. -/
def outcomes (s : Session) (texts : List String) : List (Except Escape UnitResult) :=
  (along afterUnit s texts).map fun (s, text) => (s.execute text).2

variable {s : Shell} {line : String}

/-- The last line is taken by the shell that the others leave. -/
theorem takeAll_snoc (s : Shell) (lines : List String) (line : String) :
    s.takeAll (lines ++ [line]) = (s.takeAll lines).next line :=
  List.foldl_concat ..

/-! ## One line -/

/-- A shell passes over an empty line. -/
theorem turn_empty (s : Shell) : s.turn "" = .pass := by
  have hcommand : String.ofList (Text.trimmed "".toList) ≠ "EOF" := by decide
  unfold turn
  rw [if_neg hcommand, if_pos rfl]

/-- A line that is no command is kept or run together with the lines that were kept. -/
theorem turn_code {rest : List String} (hpending : s.pending = joinedLines rest)
    (hcode : s.IsCode line) (hne : line ≠ "") (hfeed : '\n' ∉ line.toList) :
    s.turn line =
      if needsContinuation (unitText (rest ++ [line])) then .keep (joinedLines (rest ++ [line]))
      else .run (unitText (rest ++ [line])) := by
  obtain ⟨heof, hcommand⟩ := hcode
  have hhelp : ¬(s.pending = "" ∧ String.ofList (Text.trimmed line.toList) = "help") :=
    fun h => hcommand (.inl h.2) h.1
  have hexit : ¬(s.pending = "" ∧ String.ofList (Text.trimmed line.toList) = "exit") :=
    fun h => hcommand (.inr h.2) h.1
  unfold turn
  rw [if_neg heof, if_neg hne, if_neg hhelp, if_neg hexit]
  unfold codeTurn
  -- The first line of a unit is looked at alone; it gets its line feed when it is kept.
  by_cases hrest : rest = []
  · subst hrest
    have hend : line.toList.getLast? ≠ some '\n' := fun hend => hfeed (List.mem_of_getLast? hend)
    have hkept : joinedLines [line] = line ++ "\n" := by simp [joinedLines]
    have hempty : s.pending = "" := hpending
    rw [if_pos hempty, List.nil_append, hkept]
    simp only [if_neg hend]
    rfl
  -- Later lines come behind those that were kept, each with its line feed.
  · have hne : s.pending ≠ "" := hpending ▸ mt joinedLines_eq_empty.1 hrest
    rw [if_neg hne, hpending, unitText_snoc hrest, joinedLines_snoc]
    simp only [if_pos (getLast?_toList_joined _)]

/-! ## One unit -/

/-- What comes of a unit that a shell runs when no results wait. -/
structure UnitTaken (s : Session) (text : String) (after : Shell × Reaction × String) : Prop where
  pending : after.1.pending = ""
  line : after.1.session.line = s.line + lineCount text
  results : after.1.session.results = []
  shown : after.2.2 =
    String.join ((Session.valuesOf (s.execute text).2).map fun v => "=> " ++ v.display ++ "\n")

/-- A unit takes the same lines from the shell and leaves no results, however it ends. -/
theorem runUnit_taken {s : Session} (hresults : s.results = []) (text : String) :
    UnitTaken s text (runUnit s text) := by
  have hline := (s.execute_adds text).line
  have hadded := (s.execute_adds text).results
  rw [hresults, List.nil_append] at hadded
  unfold runUnit
  cases h : s.execute text with | mk s' r
  rw [h] at hline hadded
  cases r with
  | ok r => exact ⟨rfl, hline, rfl, by rw [h]; exact congrArg Shell.shown hadded⟩
  | error escape => exact ⟨rfl, hline, hadded, by rw [h]; rfl⟩

/-! ## All lines -/

/-- What has become of lines that are cut into units: those were run in a session one after another,
and the rest waits. -/
structure Cuts (start : Session) (lines : List String) (units : List (List String))
    (rest : List String) : Prop where
  isCut : IsCut (lines.filter (· ≠ "")) units rest
  /-- The texts of the units are what was run, in this order. -/
  texts : texts ⟨start, ""⟩ lines = units.map unitText
  pending : (takeAll ⟨start, ""⟩ lines).pending = joinedLines rest
  prompt : (takeAll ⟨start, ""⟩ lines).prompt = ". " ↔ (takeAll ⟨start, ""⟩ lines).pending ≠ ""
  /-- The prompt need not be worked out from the kept lines. -/
  swapped : swappedPrompt ⟨start, ""⟩ lines = (takeAll ⟨start, ""⟩ lines).prompt
  session : (takeAll ⟨start, ""⟩ lines).session = (units.map unitText).foldl afterUnit start
  line : (takeAll ⟨start, ""⟩ lines).session.line = start.line + units.flatten.length
  results : (takeAll ⟨start, ""⟩ lines).session.results = []
  /-- Each value of a unit is shown once, on a line of its own after an arrow, and nothing else is
  shown. -/
  shown : shownAll ⟨start, ""⟩ lines = String.join
    (((outcomes start (units.map unitText)).flatMap Session.valuesOf).map fun v =>
      "=> " ++ v.display ++ "\n")

/-- The prompt tells whether lines wait. -/
theorem prompt_eq_iff (s : Shell) : s.prompt = ". " ↔ s.pending ≠ "" := by
  unfold prompt
  split
  · next h => simp [h]
  · next h => simp [h]

section

variable {start : Session} {lines rest : List String} {units : List (List String)}

/-- The last line adds at most one text. -/
theorem texts_snoc (s : Shell) (lines : List String) (line : String) : s.texts (lines ++ [line]) =
    s.texts lines ++ ((s.takeAll lines).turn line).text?.toList := by
  unfold texts
  rw [along_snoc, List.filterMap_append]
  rfl

/-- The last line adds what is shown for it. -/
theorem shownAll_snoc (s : Shell) (lines : List String) (line : String) : s.shownAll (lines ++ [line]) =
    s.shownAll lines ++ ((s.takeAll lines).takeLine line).2.2 := by
  unfold shownAll
  rw [along_snoc, List.map_append, String.join_append]
  simp [String.join, takeAll]

/-- The last line swaps the prompt of the lines before. -/
theorem swappedPrompt_snoc (s : Shell) (lines : List String) (line : String) :
    s.swappedPrompt (lines ++ [line]) =
      ((s.takeAll lines).turn line).swapped (s.swappedPrompt lines) := by
  unfold swappedPrompt
  rw [along_snoc, List.foldl_append]
  rfl

/-- The last text is run in the session that the others leave. -/
theorem outcomes_snoc (s : Session) (texts : List String) (text : String) :
    outcomes s (texts ++ [text]) =
      outcomes s texts ++ [((texts.foldl afterUnit s).execute text).2] := by
  unfold outcomes
  rw [along_snoc, List.map_append]
  rfl

/-- Nothing has happened before the first line. -/
theorem cuts_nil (hresults : start.results = []) : Cuts start [] [] [] where
  isCut := ⟨rfl, fun _ hu => absurd hu List.not_mem_nil, .nil⟩
  texts := rfl
  pending := rfl
  prompt := prompt_eq_iff _
  swapped := rfl
  session := rfl
  line := (Int.add_zero _).symm
  results := hresults
  shown := rfl

/-- An empty line changes nothing. -/
theorem Cuts.pass (h : Cuts start lines units rest) : Cuts start (lines ++ [""]) units rest := by
  -- The shell passes over the line, so nothing is kept, run or shown.
  have hturn := turn_empty (takeAll ⟨start, ""⟩ lines)
  have hnext : takeAll ⟨start, ""⟩ (lines ++ [""]) = takeAll ⟨start, ""⟩ lines := by
    rw [takeAll_snoc, next, takeLine, hturn]
  have hfilter : (lines ++ [""]).filter (· ≠ "") = lines.filter (· ≠ "") := by simp
  constructor
  · exact hfilter ▸ h.isCut
  · rw [texts_snoc, hturn]
    exact (List.append_nil _).trans h.texts
  · rw [hnext, h.pending]
  · exact hnext ▸ h.prompt
  · rw [swappedPrompt_snoc, hturn, hnext]
    exact h.swapped
  · rw [hnext, h.session]
  · rw [hnext, h.line]
  · rw [hnext, h.results]
  · rw [shownAll_snoc, takeLine, hturn]
    exact String.append_empty.trans h.shown

/-- A line that leaves something open waits with the lines before it. -/
theorem Cuts.keep {line : String} (h : Cuts start lines units rest) (hne : line ≠ "")
    (hopen : needsContinuation (unitText (rest ++ [line])) = true)
    (hturn : (takeAll ⟨start, ""⟩ lines).turn line = .keep (joinedLines (rest ++ [line]))) :
    Cuts start (lines ++ [line]) units (rest ++ [line]) := by
  -- The line changes nothing but the kept text.
  have hnext : takeAll ⟨start, ""⟩ (lines ++ [line]) =
      ⟨(takeAll ⟨start, ""⟩ lines).session, joinedLines (rest ++ [line])⟩ := by
    rw [takeAll_snoc, next, takeLine, hturn]
  have hfilter : (lines ++ [line]).filter (· ≠ "") = lines.filter (· ≠ "") ++ [line] := by simp [hne]
  have hpending : joinedLines (rest ++ [line]) ≠ "" :=
    mt joinedLines_eq_empty.1 (List.concat_ne_nil _ _)
  constructor
  · exact hfilter ▸ h.isCut.keep hopen
  · rw [texts_snoc, hturn]
    exact (List.append_nil _).trans h.texts
  · rw [hnext]
  · exact prompt_eq_iff _
  · rw [swappedPrompt_snoc, hturn, hnext, (prompt_eq_iff _).2 hpending]
    rfl
  · rw [hnext, h.session]
  · rw [hnext, h.line]
  · rw [hnext, h.results]
  · rw [shownAll_snoc, takeLine, hturn]
    exact String.append_empty.trans h.shown

/-- A line that leaves nothing open is run with the lines before it. -/
theorem Cuts.run {line : String} (h : Cuts start lines units rest) (hne : line ≠ "")
    (hfeeds : ∀ l ∈ rest ++ [line], '\n' ∉ l.toList)
    (hclosed : needsContinuation (unitText (rest ++ [line])) = false)
    (hturn : (takeAll ⟨start, ""⟩ lines).turn line = .run (unitText (rest ++ [line]))) :
    Cuts start (lines ++ [line]) (units ++ [rest ++ [line]]) [] := by
  -- The line ends a unit, which is run. What the session keeps of it is given by `runUnit_taken`.
  have hunit := runUnit_taken h.results (unitText (rest ++ [line]))
  have hnext : takeAll ⟨start, ""⟩ (lines ++ [line]) =
      (runUnit (takeAll ⟨start, ""⟩ lines).session (unitText (rest ++ [line]))).1 := by
    rw [takeAll_snoc, next, takeLine, hturn]
  have hfilter : (lines ++ [line]).filter (· ≠ "") = lines.filter (· ≠ "") ++ [line] := by simp [hne]
  have hunits : (units ++ [rest ++ [line]]).map unitText =
      units.map unitText ++ [unitText (rest ++ [line])] := List.map_append
  have hcount := lineCount_unitText (List.concat_ne_nil line rest) hfeeds
  constructor
  · exact hfilter ▸ h.isCut.run hclosed
  · rw [texts_snoc, hturn, h.texts, hunits]
    rfl
  · rw [hnext, hunit.pending]
    rfl
  · exact prompt_eq_iff _
  · rw [swappedPrompt_snoc, hturn, hnext]
    unfold Shell.prompt
    rw [if_pos hunit.pending]
    rfl
  · rw [hnext, hunits, List.foldl_append, ← h.session]
    rfl
  · have hlength : (units ++ [rest ++ [line]]).flatten.length =
        units.flatten.length + (rest ++ [line]).length := by
      rw [List.flatten_append, List.flatten_singleton, List.length_append]
    rw [hnext, hunit.line, h.line, hcount, hlength, Int.natCast_add, Int.add_assoc]
  · rw [hnext, hunit.results]
  · rw [shownAll_snoc, takeLine, hturn, hunits, outcomes_snoc, List.flatMap_append,
      List.flatMap_singleton, List.map_append, String.join_append, ← h.shown, ← h.session, hunit.shown]

end

/-- Line by line, what is typed is passed over, kept, or run with the lines before it. -/
theorem exists_cuts {start : Session} {lines : List String} (hresults : start.results = [])
    (hfeeds : ∀ line ∈ lines, '\n' ∉ line.toList)
    (hcode : ∀ before line, before ++ [line] <+: lines → (takeAll ⟨start, ""⟩ before).IsCode line) :
    ∃ units rest, Cuts start lines units rest := by
  induction lines using List.reverseRecOn with
  | nil => exact ⟨[], [], cuts_nil hresults⟩
  | append_singleton lines line ih =>
    obtain ⟨units, rest, h⟩ := ih (fun l hl => hfeeds l (List.mem_append_left _ hl))
      fun before l hbefore => hcode before l (hbefore.trans (List.prefix_append _ _))
    by_cases hne : line = ""
    · exact hne ▸ ⟨units, rest, h.pass⟩
    · have hfeed := hfeeds line (List.mem_append_right _ List.mem_cons_self)
      have hturn := turn_code h.pending (hcode lines line List.prefix_rfl) hne hfeed
      cases hopen : needsContinuation (unitText (rest ++ [line])) with
      | true =>
        rw [hopen] at hturn
        exact ⟨_, _, h.keep hne hopen hturn⟩
      | false =>
        rw [hopen] at hturn
        refine ⟨_, _, h.run hne (fun l hl => ?_) hopen hturn⟩
        -- The lines that wait are among the lines before.
        rcases List.mem_append.1 hl with hl | hl
        · have hmem : l ∈ lines.filter (· ≠ "") := h.isCut.flatten ▸ List.mem_append_right _ hl
          exact hfeeds l (List.mem_append_left _ (List.mem_of_mem_filter hmem))
        · exact List.mem_singleton.1 hl ▸ hfeed

/-- A shell that is given no commands cuts the lines that are not empty into units as short as they can
be, and runs each unit once and in order, whatever becomes of it. What is left of the lines is kept. A
unit of one line is run as it is, a longer one with a line feed after each line. After every line the
prompt tells whether lines are kept, the session has moved on by the lines of the units, and no results
are left in it: each value has been shown once, after an arrow. -/
theorem takeAll_cuts (start : Session) (hresults : start.results = []) (lines : List String)
    (hfeeds : ∀ line ∈ lines, '\n' ∉ line.toList)
    (hcode : ∀ before line, before ++ [line] <+: lines → (takeAll ⟨start, ""⟩ before).IsCode line) :
    ∃! cut : List (List String) × List String, Cuts start lines cut.1 cut.2 := by
  obtain ⟨units, rest, h⟩ := exists_cuts hresults hfeeds hcode
  refine ⟨(units, rest), h, fun cut hcut => ?_⟩
  obtain ⟨hunits, hrest⟩ := hcut.isCut.unique h.isCut
  exact Prod.ext hunits hrest

/-- A word that is a command elsewhere, between parentheses. -/
theorem takeAll_cuts_wordInParentheses :
    (Session.new 0).results = [] ∧ (∀ line ∈ ["(", "help", ")"], '\n' ∉ line.toList) ∧
      (∀ before line, before ++ [line] <+: ["(", "help", ")"] →
        (takeAll ⟨.new 0, ""⟩ before).IsCode line) ∧
      ∃! cut : List (List String) × List String,
        Cuts (.new 0) ["(", "help", ")"] cut.1 cut.2 := by
  have hresults : (Session.new 0).results = [] := rfl
  have hfeeds : ∀ line ∈ ["(", "help", ")"], '\n' ∉ line.toList := by decide
  have hcode : ∀ before line, before ++ [line] <+: ["(", "help", ")"] →
      (takeAll ⟨.new 0, ""⟩ before).IsCode line := by
    rintro before line ⟨later, h⟩
    rcases before with _ | ⟨first, _ | ⟨second, _ | ⟨third, before⟩⟩⟩ <;>
      simp only [List.nil_append, List.cons_append, List.cons.injEq, List.append_eq_nil_iff,
        List.cons_ne_nil, false_and, and_false] at h
    · obtain ⟨rfl, -⟩ := h
      exact ⟨by decide, by decide⟩
    · -- The parenthesis on the first line is open.
      obtain ⟨rfl, rfl, -⟩ := h
      exact ⟨by decide, fun _ => by decide +kernel⟩
    · obtain ⟨rfl, rfl, rfl, -⟩ := h
      exact ⟨by decide, by decide⟩
  exact ⟨hresults, hfeeds, hcode, takeAll_cuts _ hresults _ hfeeds hcode⟩

end Shell

end Treewalk
