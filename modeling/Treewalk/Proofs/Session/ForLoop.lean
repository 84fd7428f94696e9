import Treewalk.Proofs.Eval.ForLoop
import Treewalk.Proofs.Session.Renaming

/-!
# Loops of accepted programs

Wherever a `for` loop of an accepted program is executed, its tree does what the loop does as one reads it,
up to frames that hold no name (`forLoop_reads`). Functions that are made in the loop are made in other frames
than in the tree, but nobody can tell: native functions see functions from outside only.
-/

namespace Treewalk

/-! ## What there was before the loop -/

section

variable {h : History} {host : Host} {W : World} {s : Store} {w : List FrameId} {e : Environment}

/-- Frames that stand for themselves. -/
theorem renumbers_self (hw : List.range s.frames.next <+: w) (hchain : ∀ f ∈ e.chain, f < s.frames.next)
    (out : Nat) : e.Renumbers w .apart out e := by
  refine ⟨Bearing.settled_apart, fun _ _ => rfl, fun j => ?_⟩
  show Option.Rel _ e.chain[j]? e.chain[j + out - out]?
  rw [Nat.add_sub_cancel]
  cases hf : e.chain[j]? with
  | none => exact .none
  | some f => exact .some (number_mono hw (List.getElem?_range (hchain f (List.mem_of_getElem? hf))))

/-- A genuine value is like itself if its frames stand for themselves. -/
theorem renumbered_self (hgood : h.Good host W s) (hw : List.range s.frames.next <+: w) {v : Value}
    (hv : h.Genuine W s v) : v.Alike (renumbered w) v := by
  refine Session.genuine_alike_self hgood (fun c hchain => ?_) hv
  have hclosure : ∀ out, c.Renumbered w out c := fun out =>
    ⟨⟨rfl, rfl, rfl⟩, .apart, .function, renumbers_self hw hchain out,
      .refl NameRule.idle_shifted _, nofun⟩
  exact ⟨hclosure 0, hclosure 1⟩

/-- A good store corresponds to itself, without idle frames. -/
theorem stores_self (hgood : h.Good host W s) :
    renumbering.Stores (List.range s.frames.next) s s := by
  have hvalue : ∀ {v : Value}, h.Genuine W s v → v.Alike (renumbered (List.range s.frames.next)) v :=
    renumbered_self hgood List.prefix_rfl
  refine ⟨⟨List.length_range, List.nodup_range, fun f hf => List.mem_range.1 hf,
    List.getElem?_range hgood.global_lt, fun f f' hf name => ?_, fun f hf name => ?_⟩, ?_, rfl, rfl,
    List.forall₂_same.2 fun v hv => hvalue (hgood.shown v (Array.mem_toList_iff.1 hv)), rfl⟩
  -- Under its own number every frame holds its own values.
  · obtain ⟨hlt, hf⟩ := List.getElem?_eq_some_iff.1 hf
    obtain rfl : f = f' := List.getElem_range hlt ▸ hf
    cases hv : s.frames.find? f name with
    | none => exact .none
    | some v => exact .some (hvalue (hgood.values f name v hv))
  -- Numbers that are not there have no frame and hold nothing.
  · refine Option.eq_none_iff_forall_ne_some.2 fun v hv => hf (List.mem_range.2 ?_)
    exact Frames.lt_of_find? _ hv
  · exact .self (fun _ _ name name' hname => hname.symm) fun i name v hv =>
      hvalue (hgood.fields i name v hv)

end

namespace Session

variable {time : Nat → Float} {limits : Limits} {ops : List Operation}

/-- Wherever a statement is executed, its run may be compared with another one that begins with the same
store and in the same environment. -/
theorem bears_self {host : Host} {d : Nat} {e : Environment} {t : Stmt Address} {s : Store}
    (ha : (history (starting time limits) ops).happens host (.node d e (.statement t) s)) :
    renumbering.Stores (List.range s.frames.next) s s ∧
      renumbering.Bears host (List.range s.frames.next) .apart e e := by
  obtain ⟨W, hstands⟩ := stands ha
  obtain ⟨v, -, hat⟩ := hstands.proper
  exact ⟨stores_self hstands.good, hstands.good.access,
    renumbers_self List.prefix_rfl (History.frames_lt hstands.good hat.fits) 0⟩

/-- A `for` loop does what one reads. Wherever the tree of a written loop is executed in an accepted program,
it ends as the loop does that has one frame for its initial statement and all turns: they print the same,
come to the same end, and leave the same names bound to values that are alike, up to frames that hold no
name. The variable of the loop is the only name in the scope of its condition, its body and the expression
to go on with, and no name is known after the loop that was not known before. -/
theorem forLoop_reads (time : Nat → Float) (limits : Limits) (ops : List Operation) (l : ForLoop Unit)
    (depth : Nat) (k : Bool) (tokens : List Token) (hwritten : Grammar.Written true depth k tokens l) (p : Place)
    (hvisits : (history (starting time limits) ops).visits ⟨p, .statement l.tree⟩) :
    (∀ host d e s, (history (starting time limits) ops).happens host
        (.node d e (.statement (l.tree.resolve p.scoping).value) s) →
      ∃ w, List.range s.frames.next <+: w ∧ renumbering.Ends w renumbering.Outcomes
        ((l.resolve p.scoping).run host d e s)
        (Treewalk.execute host d e (l.tree.resolve p.scoping).value s)) ∧
      (∀ n x, l.initial = some (.var n x) →
        (l.scoping p.scoping).scopes = [(n.text, true)] :: p.scoping.scopes) ∧
      p.scoping.after l.tree = p.scoping := by
  refine ⟨fun host d e s hhappens => ?_, fun n x hinitial => ?_, ?_⟩
  -- The run is compared with itself: every frame has its own number, as long as none is made.
  · obtain ⟨hstores, hbears⟩ := bears_self hhappens
    -- The tree was accepted, so it is nested throughout.
    have hnested : (Node.statement l.tree).NestedThroughout :=
      Visit.nestedThroughout fun v hv =>
        ((history (starting time limits) ops).sound (History.visits_of_reaches hvisits hv)).worded.nested
    have halters := ForLoop.alters_tree p.scoping hwritten.declared_body hnested
    rw [ForLoop.resolve_tree p.scoping hwritten.declared_body]
    exact ForLoop.matches_run halters hbears d _ List.prefix_rfl s s hstores
  · unfold ForLoop.scoping
    rw [hinitial]
    rfl
  · exact Node.after_of_declared _ (ForLoop.declared_tree l)

/-- A loop that makes one turn. -/
def oneTurn : ForLoop Unit where
  initial := some (.var ⟨"i", 1⟩ (some (.literal (.boolean true))))
  condition := some (.variable ⟨"i", 1⟩ ())
  next := some (.assign ⟨"i", 1⟩ () (.literal .nil))
  body := .print (.variable ⟨"i", 1⟩ ())

/-- The tokens of the loop. -/
def oneTurnTokens : List Token :=
  Grammar.word .for_ 1 :: Grammar.sym .leftParen 1 ::
    [Grammar.word .var 1, Grammar.ident ⟨"i", 1⟩, Grammar.sym .equal 1, Grammar.word .true_ 1,
      Grammar.sym .semicolon 1] ++ [Grammar.ident ⟨"i", 1⟩] ++
    Grammar.sym .semicolon 1 :: [Grammar.ident ⟨"i", 1⟩, Grammar.sym .equal 1, Grammar.word .nil 1] ++
    Grammar.sym .rightParen 1 :: [Grammar.word .print 1, Grammar.ident ⟨"i", 1⟩, Grammar.sym .semicolon 1]

/-- The tokens of the loop are written as the grammar has it. -/
theorem written_oneTurn : Grammar.Written true 299 false oneTurnTokens oneTurn :=
  .mk (.varStart (.var (.of_atom rfl))) (.clause (.variable _)) (.clause (.assign (.of_atom rfl)))
    (.print (.variable _))

/-- The text of the loop is accepted. -/
theorem accepts_oneTurn :
    (starting 0 .standard).Accepts "for(var i=true;i;i=nil)print i;" [oneTurn.tree] := by
  refine ⟨by decide +kernel, ?_, by decide +kernel⟩
  have htokens : (Scan.ofText "for(var i=true;i;i=nil)print i;" (starting 0 .standard).line).tokens =
      oneTurnTokens := by decide +kernel
  rw [htokens, ← List.append_nil oneTurnTokens]
  exact Grammar.reads_of_derives (.declarations (.statement written_oneTurn.derives) .noDeclaration)

/-- The loop with one turn does what one reads. -/
theorem forLoop_reads_oneTurn : ∃ w, [globalFrame] <+: w ∧ renumbering.Ends w renumbering.Outcomes
    ((oneTurn.resolve (.outermost 300)).run (starting 0 .standard).host 450 (.outermost globalFrame)
      (starting 0 .standard).store)
    (Treewalk.execute (starting 0 .standard).host 450 (.outermost globalFrame)
      (oneTurn.tree.resolve (.outermost 300)).value (starting 0 .standard).store) := by
  have hruns := (runs_execute accepts_oneTurn).2 ⟨rfl, rfl⟩
  obtain ⟨hdoes, -, -⟩ := forLoop_reads 0 .standard _ oneTurn 299 false oneTurnTokens written_oneTurn
    (.outermost 300) ⟨_, _, hruns, .single (.head _)⟩
  exact hdoes _ _ _ _ ⟨_, _, hruns, rfl, .single (.outermostStatement nofun)⟩

end Session

end Treewalk
