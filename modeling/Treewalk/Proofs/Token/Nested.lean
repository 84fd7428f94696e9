import Treewalk.Program
import Treewalk.Proofs.Token.Fit
import Mathlib.Data.List.Infix

/-!
# What is scanned at a block comment

A text that begins a block comment is read as marks, of which the first opens a level. If as many levels
are closed as were opened, the comment ends there and counts for nothing but its lines. If that is so
nowhere, the comment is reported on its line, and scanning goes on after the last mark of the reading that
closes a level, or after the opening mark (`Log.scanText_blockComment`). What is scanned again is shorter
than the text, so scanning ends.
-/

namespace Treewalk

namespace CommentMark

variable {level : Int} {m : CommentMark} {ms : List CommentMark}

/-- The number of levels that are open is 0 again after the last of some marks, and not before. -/
def ReturnsAtEnd (ms : List CommentMark) : Prop :=
  depth ms = 0 ∧ ∀ before, before <+: ms → before ≠ [] → depth before = 0 → before = ms

/-- The number of levels that are open is not 0 again after any of some marks. -/
def NeverReturns (ms : List CommentMark) : Prop :=
  ∀ before, before <+: ms → before ≠ [] → depth before ≠ 0

/-- There are finitely many beginnings to look at. -/
instance : DecidablePred ReturnsAtEnd := fun ms =>
  decidable_of_iff (depth ms = 0 ∧ ∀ before ∈ ms.inits, before ≠ [] → depth before = 0 → before = ms)
    (by simp only [ReturnsAtEnd, List.mem_inits])

/-- There are finitely many beginnings to look at. -/
instance : DecidablePred NeverReturns := fun ms =>
  decidable_of_iff (∀ before ∈ ms.inits, before ≠ [] → depth before ≠ 0)
    (by simp only [NeverReturns, List.mem_inits])

/-- After an unmatched comment scanning goes on after the last mark that closes a level in the reading of
the text, or after the opening mark if there is none. -/
structure ResumesAfter (skipped rest : List Char) : Prop where
  split : ofText (skipped ++ rest) = ofText skipped ++ ofText rest
  last : (ofText skipped).getLast? = some closing ∨ skipped = ['/', '*']
  none : closing ∉ ofText rest

/-- A mark closes one level at most. -/
theorem neg_one_le_step (m : CommentMark) : -1 ≤ m.step := by
  cases m with
  | opening | closing => decide
  | other c => exact show (-1 : Int) ≤ 0 by decide

/-- Levels are closed one by one, so some are open as long as their number does not come to be 0. -/
theorem staysOpen_of_ne (hlevel : 0 < level)
    (h : ∀ before, before <+: ms → level + depth before ≠ 0) : StaysOpen level ms := by
  induction ms generalizing level with
  | nil => exact staysOpen_nil.2 hlevel
  | cons m ms ih =>
    have hstep := neg_one_le_step m
    have hafter : ∀ before, before <+: ms → level + m.step + depth before ≠ 0 := by
      intro before hbefore
      rw [Int.add_assoc, ← depth_cons]
      exact h _ (List.cons_prefix_cons.2 ⟨rfl, hbefore⟩)
    have hne : level + m.step + 0 ≠ 0 := hafter [] List.nil_prefix
    exact staysOpen_cons.2 ⟨hlevel, ih (by omega) hafter⟩

/-- Marks close a level if they come down to zero for the first time at their end. -/
theorem closes_of_eq (hlevel : 0 < level) (hend : level + depth ms = 0)
    (h : ∀ before, before <+: ms → level + depth before = 0 → before = ms) : Closes level ms := by
  induction ms generalizing level with
  | nil =>
    have hnil : level + 0 = 0 := hend
    exact closes_nil.2 (by omega)
  | cons m ms ih =>
    have hstep := neg_one_le_step m
    rw [depth_cons, ← Int.add_assoc] at hend
    have hafter : ∀ before, before <+: ms → level + m.step + depth before = 0 → before = ms := by
      intro before hbefore hzero
      rw [Int.add_assoc, ← depth_cons] at hzero
      exact (List.cons.inj (h _ (List.cons_prefix_cons.2 ⟨rfl, hbefore⟩) hzero)).2
    refine closes_cons.2 ⟨hlevel, ?_⟩
    -- The level comes down to zero here, so this is the last mark, or later, and so it is above zero.
    by_cases hzero : level + m.step = 0
    · obtain rfl := hafter [] List.nil_prefix (by rw [hzero]; rfl)
      exact closes_nil.2 hzero
    · exact ih (by omega) hend hafter

/-- An opening mark counts one. -/
theorem depth_opening (ms : List CommentMark) : depth (opening :: ms) = 1 + depth ms := depth_cons

/-- A comment that returns to the outside at its end, and not before, closes there. -/
theorem ReturnsAtEnd.closes (h : ReturnsAtEnd (opening :: ms)) : Closes 1 ms := by
  refine closes_of_eq Int.one_pos h.1 fun before hbefore hzero => ?_
  rw [← depth_opening] at hzero
  exact (List.cons.inj (h.2 _ (List.cons_prefix_cons.2 ⟨rfl, hbefore⟩) (List.cons_ne_nil _ _) hzero)).2

/-- A comment that never returns to the outside stays open. -/
theorem NeverReturns.staysOpen (h : NeverReturns (opening :: ms)) : StaysOpen 1 ms := by
  refine staysOpen_of_ne Int.one_pos fun before hbefore => ?_
  rw [← depth_opening]
  exact h _ (List.cons_prefix_cons.2 ⟨rfl, hbefore⟩) (List.cons_ne_nil _ _)

/-- A comment that is found to be closed does not stay open. -/
theorem not_staysOpen_of_commentEnd {depth seen resume n : Nat} {cs : List Char}
    (h : commentEnd depth seen resume cs = .closed n) : ¬ StaysOpen (depth + 1) (ofText cs) := by
  intro hopen
  fun_induction commentEnd depth seen resume cs with
  | case1 depth seen resume cs ih => exact ih h (staysOpen_of_opening.1 hopen)
  | case2 seen resume cs => exact absurd (hopen [closing] ⟨_, rfl⟩) (by decide)
  | case3 seen resume cs inner ih => exact ih h (staysOpen_of_closing.1 hopen)
  | case4 depth seen resume c cs hopening hclosing ih =>
    rw [ofText_cons hopening hclosing] at hopen
    exact ih h (staysOpen_of_other.1 hopen)
  | case5 => cases h

/-- What is skipped after the opening mark tells where scanning goes on. -/
theorem Skips.resumesAfter {body rest : List Char} (h : Skips body rest) :
    ResumesAfter ('/' :: '*' :: body) rest := by
  refine ⟨congrArg (opening :: ·) h.split, ?_, h.none⟩
  cases hlast : (ofText body).getLast? with
  | none =>
    rw [List.getLast?_eq_none_iff, ofText_eq_nil] at hlast
    exact .inr (by rw [hlast])
  | some m =>
    refine .inl ?_
    rw [ofText, List.getLast?_cons, hlast]
    exact congrArg some (h.last m hlast)

end CommentMark

namespace Log

/-- A text that begins with a mark that opens a block comment, up to where the comment is closed, counts
for nothing but its lines before any other text. If the comment is not closed, this is reported on its
line, and what comes after the last mark that closes a level is scanned as if it stood alone. -/
theorem scanText_blockComment (log : Log) (line : Int) :
    (∀ comment rest : String, ['/', '*'] <+: comment.toList →
      CommentMark.ReturnsAtEnd (CommentMark.ofText comment.toList) →
      log.scanText (comment ++ rest) line =
        log.scanText rest (line + Scan.lineFeeds comment.toList)) ∧
    (∀ text : String, ['/', '*'] <+: text.toList →
      CommentMark.NeverReturns (CommentMark.ofText text.toList) →
      ∃ skipped rest : String, text = skipped ++ rest ∧ rest.length < text.length ∧
        CommentMark.ResumesAfter skipped.toList rest.toList ∧
        let later := (log.staticError (.onLine line) "unmatched comments").scanText rest
          (line + Scan.lineFeeds skipped.toList)
        log.scanText text line =
          (later.1, { later.2 with faults := (line, .unmatchedComment) :: later.2.faults })) := by
  constructor
  · rintro comment rest ⟨body, hcomment⟩ hreturns
    rw [← hcomment] at hreturns ⊢
    -- A comment whose marks return to the start at its end is one piece, which leaves nothing but its
    -- line feeds.
    have hfits : Piece.Fits ⟨.comment, ['/', '*'] ++ body⟩ rest.toList :=
      .inr ⟨body, rfl, hreturns.closes⟩
    have hpieces := pieces_of_fits hfits
    unfold scanText Scan.ofText
    rw [String.toList_append, ← hcomment, hpieces]
    rfl
  · rintro text ⟨cs, htext⟩ hreturns
    rw [← htext] at hreturns
    have hopen := hreturns.staysOpen
    -- If the marks never return, the scan stops after the last mark and goes on there.
    cases hend : commentEnd 0 2 2 cs with
    | closed n => exact absurd hopen (CommentMark.not_staysOpen_of_commentEnd hend)
    | unmatched n =>
      obtain ⟨-, body, rest, rfl, hskips, -⟩ := CommentMark.unmatched_of_commentEnd hend
      have hfits : Piece.Fits ⟨.fault .unmatchedComment, ['/', '*'] ++ body⟩ rest :=
        ⟨body, rfl, hskips, hopen⟩
      have hpieces := pieces_of_fits hfits
      rw [List.append_assoc, htext] at hpieces
      refine ⟨String.ofList (['/', '*'] ++ body), String.ofList rest, ?_, ?_, ?_, ?_⟩
      · rw [← String.ofList_append, List.append_assoc, htext, String.ofList_toList]
      · rw [← String.length_toList, ← String.length_toList, ← htext, String.toList_ofList]
        simp only [List.length_append, List.length_cons]
        omega
      · rw [String.toList_ofList, String.toList_ofList]
        exact hskips.resumesAfter
      · unfold scanText Scan.ofText
        rw [hpieces, String.toList_ofList, String.toList_ofList]
        rfl

/-- A comment inside a comment before a slash, and an unmatched comment that holds one. -/
theorem scanText_blockComment_nested :
    ['/', '*'] <+: "/*/**/\n*/".toList ∧
      CommentMark.ReturnsAtEnd (CommentMark.ofText "/*/**/\n*/".toList) ∧
      ({} : Log).scanText ("/*/**/\n*/" ++ "/a") 1 =
        ({} : Log).scanText "/a" (1 + Scan.lineFeeds "/*/**/\n*/".toList) ∧
      ['/', '*'] <+: "/*/*\n*/*b".toList ∧
      CommentMark.NeverReturns (CommentMark.ofText "/*/*\n*/*b".toList) ∧
      ∃ skipped rest : String, "/*/*\n*/*b" = skipped ++ rest ∧ rest.length < "/*/*\n*/*b".length ∧
        CommentMark.ResumesAfter skipped.toList rest.toList ∧
        let later := (({} : Log).staticError (.onLine 1) "unmatched comments").scanText rest
          (1 + Scan.lineFeeds skipped.toList)
        ({} : Log).scanText "/*/*\n*/*b" 1 =
          (later.1, { later.2 with faults := (1, .unmatchedComment) :: later.2.faults }) := by
  -- The first comment is closed at its second end, the other one is left open.
  have hbegins : ['/', '*'] <+: "/*/**/\n*/".toList := by decide
  have hreturns : CommentMark.ReturnsAtEnd (CommentMark.ofText "/*/**/\n*/".toList) := by
    decide +kernel
  have hbegins' : ['/', '*'] <+: "/*/*\n*/*b".toList := by decide
  have hnever : CommentMark.NeverReturns (CommentMark.ofText "/*/*\n*/*b".toList) := by
    decide +kernel
  obtain ⟨hmatched, hunmatched⟩ := scanText_blockComment {} 1
  exact ⟨hbegins, hreturns, hmatched _ "/a" hbegins hreturns, hbegins', hnever,
    hunmatched _ hbegins' hnever⟩

end Log

end Treewalk
