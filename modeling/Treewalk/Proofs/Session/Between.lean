import Mathlib.Algebra.Ring.Int.Defs
import Treewalk.Proofs.Session.Account
import Treewalk.Proofs.Session.Interpreter.Runs

/-!
# Sessions between two steps

What a session is between two operations, however the operations before ended. A session with an
interpreter (`Session.Interpreted`) keeps the environment of the code that runs, and what encloses each
frame; it does what the session does, and it always comes back to the global environment. The line is
the number of lines that were scanned, the results are the values that were returned and not taken, and
diagnostics are only added (`Session.sound_between`).
-/

namespace Treewalk

namespace Session

/-! ## Sessions with an interpreter -/

/-- A session, with the state of its interpreter besides the store. -/
structure Interpreted where
  session : Session
  enclosing : List (Option Environment)
  environment : Environment

namespace Interpreted

/-- The interpreter of a session. -/
def interpreter (t : Interpreted) : Interpreter := ⟨t.session.store, t.enclosing, t.environment⟩

/-- The environment after a run that stopped: an error that is reported leads back to the global one. -/
def environmentAfter (stop : Stop) (i : Interpreter) : Environment :=
  match stopped stop with
  | .inl _ => .outermost globalFrame
  | .inr _ => i.environment

/-- Runs a resolved program, in the environment in which the interpreter is. -/
def interpret (t : Interpreted) (program : List (Stmt Address)) :
    Interpreted × Except Escape UnitResult :=
  match Interpreter.runProgram t.session.host t.session.limits.run program t.interpreter with
  | .ok v i =>
    let (s, result) := t.session.conclude (.ok v i.store)
    (⟨s, i.enclosing, i.environment⟩, result)
  | .error stop i =>
    let (s, result) := t.session.conclude (.error stop i.store)
    (⟨s, i.enclosing, environmentAfter stop i⟩, result)

/-- Resolves and runs a program that begins on the given line. -/
def resolveAndRun (t : Interpreted) (line : Int) (program : List (Stmt Unit)) :
    Interpreted × Except Escape UnitResult :=
  let (log, resolved) := t.session.log.resolveProgram t.session.limits program
  let t := { t with session := { t.session with log := log } }
  match resolved with
  | none => ({ t with session := t.session.tooDeep line }, .ok .error)
  | some program => if t.session.log.hadError then (t, .ok .error) else t.interpret program

/-- Runs a text as one unit. -/
def execute (t : Interpreted) (text : String) : Interpreted × Except Escape UnitResult :=
  let start := t.session.line
  match { t.session with log := t.session.log.reset }.parse text with
  | (s, .tooDeep) => ({ t with session := s.tooDeep start }, .ok .error)
  | (s, .refused) => ({ t with session := s }, .ok .error)
  | (s, .program p) =>
    let (t, result) := { t with session := s }.resolveAndRun start p
    ({ t with session := (keepValue (t.session, result)).1 }, result)

/-- A session after an operation. Nothing but a unit runs the interpreter. -/
def perform (t : Interpreted) (op : Operation) : Interpreted :=
  match op.text? with
  | some text => (t.execute text).1
  | none => { t with session := t.session.perform op }

/-- A session after operations, one after another. -/
def performAll (t : Interpreted) (ops : List Operation) : Interpreted := ops.foldl perform t

/-- A new session: nothing encloses the global frame, and the code runs there. -/
def starting (time : Nat → Float) (limits : Limits) : Interpreted :=
  ⟨Session.starting time limits, [none], .outermost globalFrame⟩

end Interpreted

/-- The interpreter is ready for the next unit, in the global environment. -/
abbrev Interpreted.Ready (t : Interpreted) : Prop :=
  Interpreter.Ready t.session.host (.outermost globalFrame) t.interpreter

/-- A session with an interpreter ends a unit as the session does, ready for the next one. -/
structure Interpreted.Matches (enclosing : List (Option Environment))
    (plain : Session × Except Escape UnitResult) (after : Interpreted × Except Escape UnitResult) :
    Prop where
  session : after.1.session = plain.1
  result : after.2 = plain.2
  ready : after.1.Ready
  mono : enclosing <+: after.1.enclosing

namespace Interpreted

variable {t : Interpreted}

/-- The log, the line and the results are of no concern to the interpreter. -/
theorem Ready.of_same (ht : t.Ready) {s : Session} (hstore : s.store = t.session.store)
    (hhost : s.host = t.session.host) : Ready { t with session := s } := by
  show Interpreter.Ready s.host _ ⟨s.store, t.enclosing, t.environment⟩
  rw [hstore, hhost]
  exact ht

/-- A unit that does not come to a run. -/
theorem Matches.of_error (ht : t.Ready) {s : Session} (hstore : s.store = t.session.store)
    (hhost : s.host = t.session.host) :
    Matches t.enclosing (s, .ok .error) ({ t with session := s }, .ok .error) :=
  ⟨rfl, rfl, ht.of_same hstore hhost, List.prefix_rfl⟩

/-- A resolved program comes to the same in both sessions. -/
theorem matches_interpret (ht : t.Ready) (program : List (Stmt Address)) :
    Matches t.enclosing (t.session.interpret program) (t.interpret program) := by
  have hrun := Interpreter.follows_runProgram (d := t.session.limits.run) program ht
  unfold interpret Session.interpret
  change Interpreter.Follows _ _ _ _ (runProgram t.session.host _ program t.session.store) _ at hrun
  generalize runProgram t.session.host t.session.limits.run program t.session.store = r at hrun
  generalize Interpreter.runProgram t.session.host t.session.limits.run program t.interpreter = r' at hrun
  cases hrun with
  | @ok v i hready hmono hv =>
    cases v <;> exact ⟨rfl, rfl, hready, hmono⟩
  | @error stop i hready hmono =>
    -- The environment is the global one before it is set, too.
    have hback : environmentAfter stop i = i.environment := by
      unfold environmentAfter
      split
      · exact hready.environment.symm
      · rfl
    simp only [hback]
    rcases conclude_error_cases stop i.store with ⟨e, hconclude⟩ | ⟨escape, hconclude⟩
    · rw [hconclude]
      exact ⟨rfl, rfl, hready, hmono⟩
    · rw [hconclude]
      exact ⟨rfl, rfl, hready, hmono⟩

/-- A program that was parsed comes to the same in both sessions, with the same reports. -/
theorem matches_resolveAndRun (ht : t.Ready) (line : Int) (p : List (Stmt Unit)) :
    Matches t.enclosing (t.session.resolveAndRun line p) (t.resolveAndRun line p) := by
  unfold resolveAndRun Session.resolveAndRun
  generalize t.session.log.resolveProgram t.session.limits p = resolved
  obtain ⟨log, resolved⟩ := resolved
  cases resolved with
  | none => exact .of_error ht rfl rfl
  | some program =>
    simp only
    split
    · exact .of_error ht rfl rfl
    · exact matches_interpret (t := { t with session := { t.session with log := log } })
        (ht.of_same rfl rfl) program

/-- A text comes to the same in both sessions. -/
theorem matches_execute (ht : t.Ready) (text : String) :
    Matches t.enclosing (t.session.execute text) (t.execute text) := by
  unfold execute Session.execute
  -- Parsing does not touch what the interpreter keeps beside the session.
  obtain ⟨log, line, new, hparse, -⟩ := { t.session with log := t.session.log.reset }.parse_reports text
  generalize { t.session with log := t.session.log.reset }.parse text = parsed at hparse
  obtain ⟨s, reading⟩ := parsed
  change s = _ at hparse
  subst hparse
  cases reading with
  | tooDeep => exact .of_error ht rfl rfl
  | refused => exact .of_error ht rfl rfl
  | program p =>
    obtain ⟨hsession, hresult, hready, hmono⟩ :=
      matches_resolveAndRun (t := { t with session := { t.session with log := log, line := line } })
        (ht.of_same rfl rfl) t.session.line p
    simp only
    rw [hsession, hresult, keepValue_eq]
    have hstore := congrArg Session.store hsession
    have hhost := congrArg Session.host hsession
    exact ⟨rfl, rfl, hready.of_same hstore.symm hhost.symm, hmono⟩

end Interpreted

/-! ## Operations -/

/-- A session with an interpreter has done what the session did, and it is ready for the next unit. -/
structure Interpreted.KeepsUp (start : Session) (past : List Operation) (t : Interpreted) : Prop where
  session : t.session = start.performAll past
  ready : t.Ready

namespace Interpreted

variable {start : Session} {past : List Operation} {t : Interpreted}

/-- A native function that is registered leaves the interpreter ready. -/
theorem Ready.registerNative (ht : t.Ready) (name : String) (arity : Nat) (native : Native) :
    Ready { t with session := t.session.registerNative name arity native } := by
  have hname := Interpreter.Ready.withName ht globalFrame name
    (v := .native t.session.natives.size arity) trivial
  exact ⟨hname.access, hname.environment, hname.linked, hname.size, hname.frames, hname.values,
    hname.fields, hname.shown⟩

/-- Every operation leaves the interpreter ready, and it has done what the session did. -/
theorem KeepsUp.perform (ht : KeepsUp start past t) (op : Operation) :
    KeepsUp start (past ++ [op]) (t.perform op) := by
  have hsession : start.performAll (past ++ [op]) = t.session.perform op := by
    rw [performAll_append, ht.session]
  unfold Interpreted.perform
  -- A text that is run, or an operation that does not touch what the interpreter keeps beside the session.
  cases htext : op.text? with
  | some text =>
    obtain ⟨hsame, -, hready, -⟩ := matches_execute ht.ready text
    refine ⟨?_, hready⟩
    rw [hsession, perform_of_text htext]
    exact hsame
  | none =>
    refine ⟨hsession.symm, ?_⟩
    rcases perform_cases t.session op with
      ⟨text, p, hsome, -⟩ | ⟨name, arity, native, rfl⟩ | ⟨hstore, hhost, -, -⟩
    · rw [htext] at hsome
      cases hsome
    · exact ht.ready.registerNative name arity native
    · exact ht.ready.of_same hstore hhost

/-- Sessions that were just started keep up. -/
theorem keepsUp_starting (time : Nat → Float) (limits : Limits) :
    KeepsUp (Session.starting time limits) [] (starting time limits) := by
  refine ⟨rfl, rfl, rfl, .global rfl, rfl, fun f hf => ?_, fun f n v hv => ?_,
    fun f n v hv => absurd hv (fields_starting time limits), fun v hv => absurd hv (Array.not_mem_empty v)⟩
  · obtain rfl : f = globalFrame := Nat.lt_one_iff.1 hf
    exact ⟨[], .global rfl⟩
  · rw [find?_starting time limits hv]
    trivial

/-- After any operations on a new session, the interpreter is ready for the next unit. -/
theorem keepsUp_performAll (time : Nat → Float) (limits : Limits) (ops : List Operation) :
    KeepsUp (Session.starting time limits) ops ((starting time limits).performAll ops) := by
  induction ops using List.reverseRecOn with
  | nil => exact keepsUp_starting time limits
  | append_singleton ops op ih =>
    have hlast : (starting time limits).performAll (ops ++ [op]) =
        ((starting time limits).performAll ops).perform op := by
      unfold performAll
      rw [List.foldl_append]
      rfl
    rw [hlast]
    exact ih.perform op

end Interpreted

/-! ## Accounts -/

/-- The text that an operation scans. -/
def Operation.scanned? : Operation → Option String
  | .scan text | .parse text => some text
  | op => op.text?

/-- The value that an operation returns, if it is that of a unit. -/
def returned (s : Session) : Operation → List Value
  | .execute text => valuesOf (s.execute text).2
  | .runFile path content => valuesOf (s.runFile path content).2
  | _ => []

/-- The value that an operation takes from the results. -/
def popped (s : Session) : Operation → List Value
  | .pop => s.results.take 1
  | _ => []

/-- The text that is given for a value that is taken from the results. -/
def displayed (s : Session) : Operation → List String
  | .pop => s.pop.2.toOption.toList
  | _ => []

/-- What operations give, one after another. -/
def collect {α : Type} (give : Session → Operation → List α) : Session → List Operation → List α
  | _, [] => []
  | s, op :: ops => give s op ++ collect give (s.perform op) ops

/-- Nothing is done to the log but to take its flags down. -/
def OnlyResets (start : Session) (ops : List Operation) : Prop :=
  ∀ past log, past ++ [.relog log] <+: ops → log = (start.performAll past).log.reset

/-- What an operation does to the line, the results and the diagnostics: it moves past the lines that it
scans, it adds what it returns at the end of the results and takes what it pops from their beginning, and
it adds diagnostics. -/
structure Books (s : Session) (op : Operation) : Prop where
  line : (s.perform op).line = s.line + (op.scanned?.toList.map lineCount).sum
  results : s.results ++ s.returned op = s.popped op ++ (s.perform op).results
  displayed : s.displayed op = (s.popped op).map Value.display
  diagnostics : s.log.diagnostics.toList <+: (s.perform op).log.diagnostics.toList

variable {s start : Session} {ops past : List Operation} {op : Operation}

/-- Of one text there are as many lines as it has. -/
theorem sum_lineCount_singleton (text : String) :
    ((some text).toList.map lineCount).sum = lineCount text := by
  rw [Option.toList_some, List.map_singleton, List.sum_singleton]

/-- A unit returns its value and takes none. -/
theorem Books.of_adds {text : String} (hscanned : op.scanned? = some text)
    (hreturned : s.returned op = valuesOf (s.execute text).2) (hpopped : s.popped op = [])
    (hdisplayed : s.displayed op = []) (hperform : s.perform op = (s.execute text).1) :
    s.Books op := by
  have hadds := s.execute_adds text
  refine ⟨?_, ?_, ?_, ?_⟩
  · rw [hperform, hscanned, sum_lineCount_singleton, hadds.line]
  · rw [hperform, hpopped, hreturned, hadds.results, List.nil_append]
  · rw [hdisplayed, hpopped, List.map_nil]
  · rw [hperform]
    exact hadds.diagnostics

/-- An operation that scans nothing may go on with a session, as long as it returns and takes no
value. -/
theorem Books.of_goesOn (hscanned : op.scanned? = none) (hreturned : s.returned op = [])
    (hpopped : s.popped op = []) (hdisplayed : s.displayed op = [])
    (hgoes : s.GoesOn (s.perform op)) : s.Books op := by
  refine ⟨?_, ?_, ?_, hgoes.diagnostics⟩
  · rw [hgoes.line, hscanned, Option.toList_none, List.map_nil, List.sum_nil, Int.add_zero]
  · rw [hreturned, hpopped, hgoes.results, List.append_nil, List.nil_append]
  · rw [hdisplayed, hpopped, List.map_nil]

/-- A file keeps the books, whether it can be read or not. -/
theorem books_runFile (s : Session) (path : String) (content : Option (List UInt8)) :
    s.Books (.runFile path content) := by
  cases content with
  | none => exact .of_goesOn rfl rfl rfl rfl ⟨rfl, rfl, List.prefix_rfl⟩
  | some bytes =>
    cases hbytes : fileText bytes with
    | ok text =>
      have hrun : s.runFile path (some bytes) = s.execute text := runFile_of_ok hbytes
      have hscanned : (Operation.runFile path (some bytes)).scanned? = some text := by
        show (fileText bytes).toOption = some text
        rw [hbytes]
        rfl
      have hreturned : s.returned (.runFile path (some bytes)) = valuesOf (s.execute text).2 := by
        show valuesOf (s.runFile path (some bytes)).2 = _
        rw [hrun]
      exact .of_adds hscanned hreturned rfl rfl (congrArg Prod.fst hrun)
    -- Bytes that are not a text leave the session as it was.
    | error escape =>
      have hrun : s.runFile path (some bytes) = (s, .error escape) := runFile_of_error hbytes
      have hscanned : (Operation.runFile path (some bytes)).scanned? = none := by
        show (fileText bytes).toOption = none
        rw [hbytes]
        rfl
      have hreturned : s.returned (.runFile path (some bytes)) = [] := by
        show valuesOf (s.runFile path (some bytes)).2 = _
        rw [hrun]
        rfl
      have hsame : s.perform (.runFile path (some bytes)) = s := congrArg Prod.fst hrun
      refine .of_goesOn hscanned hreturned rfl rfl ?_
      rw [hsame]
      exact ⟨rfl, rfl, List.prefix_rfl⟩

/-- Popping keeps the books: at most one result is taken, and it is displayed. -/
theorem books_pop (s : Session) : s.Books .pop := by
  have hpop : s.perform .pop = s.pop.1 := rfl
  unfold pop at hpop
  have hdisplayed : s.displayed .pop = s.pop.2.toOption.toList := rfl
  unfold pop at hdisplayed
  have hpopped : s.popped .pop = s.results.take 1 := rfl
  -- Without results popping is refused; else it takes the newest.
  cases hresults : s.results with
  | nil =>
    rw [hresults] at hpop hdisplayed hpopped
    refine .of_goesOn rfl rfl hpopped hdisplayed ?_
    rw [hpop]
    exact ⟨rfl, rfl, List.prefix_rfl⟩
  | cons v later =>
    rw [hresults] at hpop hdisplayed hpopped
    refine ⟨?_, ?_, ?_, ?_⟩
    -- Without a program nothing was run.
    · rw [hpop]
      exact (Int.add_zero _).symm
    · rw [hpop, hpopped, hresults]
      exact List.append_nil _
    · rw [hdisplayed, hpopped]
      rfl
    · rw [hpop]

/-- Every operation keeps the books, if it does nothing to the log but to take its flags down. -/
theorem books (s : Session) (op : Operation) (hreset : ∀ log, op = .relog log → log = s.log.reset) :
    s.Books op := by
  cases op with
  | execute text => exact .of_adds rfl rfl rfl rfl rfl
  | runFile path content => exact books_runFile s path content
  | scan text =>
    refine ⟨?_, List.append_nil _, rfl, ?_⟩
    · rw [show (Operation.scan text).scanned? = some text from rfl, sum_lineCount_singleton]
      exact line_scan s text
    -- A scan reports what it has found and does nothing else.
    · exact (GoesOn.of_reports (s.log.reports_scanFaults (Scan.ofText text s.line).faults)).diagnostics
  | parse text =>
    refine ⟨?_, List.append_nil _, rfl, diagnostics_parse s text⟩
    rw [show (Operation.parse text).scanned? = some text from rfl, sum_lineCount_singleton]
    exact line_parse s text
  | pop => exact books_pop s
  | registerNative name arity native => exact .of_goesOn rfl rfl rfl rfl ⟨rfl, rfl, List.prefix_rfl⟩
  | relog log =>
    obtain rfl := hreset log rfl
    exact .of_goesOn rfl rfl rfl rfl ⟨rfl, rfl, List.prefix_rfl⟩

/-! ### Runs of operations -/

/-- The first operation comes first. -/
theorem performAll_cons (s : Session) (op : Operation) (ops : List Operation) :
    s.performAll (op :: ops) = (s.perform op).performAll ops := rfl

/-- What is asked of operations holds of those after the first. -/
theorem OnlyResets.tail (h : OnlyResets s (op :: ops)) : OnlyResets (s.perform op) ops := by
  rintro past log ⟨later, hlater⟩
  exact h (op :: past) log ⟨later, congrArg (op :: ·) hlater⟩

/-- The first operation keeps the books. -/
theorem OnlyResets.books (h : OnlyResets s (op :: ops)) : s.Books op :=
  Session.books s op fun log hlog => h [] log (hlog ▸ List.prefix_append [op] ops)

/-- The line is moved past all lines that were scanned. -/
theorem line_performAll (h : OnlyResets s ops) : (s.performAll ops).line =
    s.line + ((ops.filterMap Operation.scanned?).map lineCount).sum := by
  induction ops generalizing s with
  | nil => exact (Int.add_zero _).symm
  | cons op ops ih =>
    have hsum : (((op :: ops).filterMap Operation.scanned?).map lineCount).sum =
        (op.scanned?.toList.map lineCount).sum +
          ((ops.filterMap Operation.scanned?).map lineCount).sum := by
      cases hscanned : op.scanned? with
      | none => rw [List.filterMap_cons_none hscanned]; simp
      | some text => rw [List.filterMap_cons_some hscanned]; simp
    rw [performAll_cons, ih h.tail, h.books.line, hsum, Int.add_assoc]

/-- What was there and what was returned is what was taken and what is left, in order. -/
theorem results_performAll (h : OnlyResets s ops) : s.results ++ collect returned s ops =
    collect popped s ops ++ (s.performAll ops).results := by
  induction ops generalizing s with
  | nil => rw [collect, collect, List.append_nil]; rfl
  | cons op ops ih =>
    calc s.results ++ (s.returned op ++ collect returned (s.perform op) ops)
        = s.popped op ++ ((s.perform op).results ++ collect returned (s.perform op) ops) := by
          rw [← List.append_assoc, h.books.results, List.append_assoc]
      _ = s.popped op ++ (collect popped (s.perform op) ops ++
            ((s.perform op).performAll ops).results) := by rw [ih h.tail]
      _ = collect popped s (op :: ops) ++ (s.performAll (op :: ops)).results :=
          (List.append_assoc _ _ _).symm

/-- What was displayed is what was popped, in the same order. -/
theorem displayed_performAll (h : OnlyResets s ops) :
    collect displayed s ops = (collect popped s ops).map Value.display := by
  induction ops generalizing s with
  | nil => rfl
  | cons op ops ih => rw [collect, collect, List.map_append, h.books.displayed, ih h.tail]

/-- Diagnostics are only added: those after the first operations are the first of all. -/
theorem diagnostics_performAll (h : OnlyResets s ops) (hpast : past <+: ops) :
    (s.performAll past).log.diagnostics.toList <+: (s.performAll ops).log.diagnostics.toList := by
  induction past generalizing s ops with
  | nil =>
    induction ops generalizing s with
    | nil => exact List.prefix_rfl
    | cons op ops ih => exact h.books.diagnostics.trans (ih h.tail List.nil_prefix)
  | cons op past ih =>
    obtain ⟨later, rfl⟩ := hpast
    exact ih h.tail (List.prefix_append _ _)

/-! ## Between two operations -/

/-- A session with an interpreter is sound after operations. It has done what the session did. The code
runs in the global frame; the frames around each frame are found by following what encloses them, and the
last of them is the global frame. The line is the first one after those that were scanned; what was taken
from the results and what is left of them is what the units returned, in order; and diagnostics were only
added. -/
structure Interpreted.Sound (start : Session) (ops : List Operation) (t : Interpreted) : Prop where
  session : t.session = start.performAll ops
  environment : t.environment = .outermost globalFrame
  size : t.enclosing.length = t.session.store.frames.next
  frames : ∀ f < t.session.store.frames.next,
    ∃ fs, Encloses t.enclosing f fs ∧ (f :: fs).getLast? = some globalFrame
  line : t.session.line = 1 + ((ops.filterMap Operation.scanned?).map lineCount).sum
  results : collect popped start ops ++ t.session.results = collect returned start ops
  displayed : collect displayed start ops = (collect popped start ops).map Value.display
  diagnostics : ∀ past, past <+: ops →
    (start.performAll past).log.diagnostics.toList <+: t.session.log.diagnostics.toList

/-- After any operations on a new session, whatever they ended with, the session is sound. -/
theorem sound_between (time : Nat → Float) (limits : Limits) (ops : List Operation)
    (hresets : OnlyResets (starting time limits) ops) :
    Interpreted.Sound (starting time limits) ops
      ((Interpreted.starting time limits).performAll ops) := by
  obtain ⟨hsession, hready⟩ := Interpreted.keepsUp_performAll time limits ops
  -- Environments and frames are those of the invariant, and the books are kept along the operations.
  refine ⟨hsession, hready.environment, hready.size, fun f hf => ?_, ?_, ?_,
    displayed_performAll hresets, fun past hpast => ?_⟩
  · obtain ⟨fs, hfs⟩ := hready.frames f hf
    exact ⟨fs, hfs, hfs.getLast?⟩
  · rw [hsession]
    exact line_performAll hresets
  · rw [hsession]
    exact (results_performAll hresets).symm
  · rw [hsession]
    exact diagnostics_performAll hresets hpast

/-- A unit with a value, which is taken, and a second time without one, a file that cannot be opened, and
a text that is only scanned. -/
def mixedOperations : List Operation :=
  [.execute "nil;", .pop, .pop, .runFile "none" none, .scan "\"a\n"]

/-- The same, and then the flags are taken down. -/
def mixedAndReset : List Operation :=
  mixedOperations ++ [.relog ((starting 0 .standard).performAll mixedOperations).log.reset]

/-- The session is sound after them, and three lines on. -/
theorem sound_between_mixedAndReset :
    Interpreted.Sound (starting 0 .standard) mixedAndReset
        ((Interpreted.starting 0 .standard).performAll mixedAndReset) ∧
      ((starting 0 .standard).performAll mixedAndReset).line = 3 := by
  have hresets : OnlyResets (starting 0 .standard) mixedAndReset := by
    intro past log hpast
    -- Only the last operation exchanges the log, and it does so for the same one with its flags down.
    rcases List.prefix_concat_iff.1 hpast with hall | hpast
    · obtain ⟨rfl, hlast⟩ := List.append_inj' hall rfl
      exact Operation.relog.inj (List.cons.inj hlast).1
    · have hmem := hpast.subset (List.mem_append_right past (List.mem_singleton_self _))
      simp [mixedOperations] at hmem
  have hsound := sound_between 0 .standard mixedAndReset hresets
  refine ⟨hsound, ?_⟩
  rw [← hsound.session, hsound.line]
  decide

end Session

end Treewalk
