import Treewalk.Token.Piece
import Mathlib.Algebra.BigOperators.Group.List.Basic
import Mathlib.Algebra.Ring.Int.Defs

/-!
# Comments that are nested

A block comment is read as marks that open a level, marks that close one, and other characters
(`CommentMark.ofText`); a mark takes both of its characters. The comment is closed where as many levels
are closed as were opened (`CommentMark.Closes`), and where that is so nowhere it is unmatched
(`CommentMark.StaysOpen`). `commentEnd` finds the one end or the other: `closes_of_commentEnd` and
`commentEnd_of_closes` say this of a comment that is closed, `unmatched_of_commentEnd` and
`commentEnd_of_unmatched` of one that is not.
-/

namespace Treewalk

/-- What a text is read as inside a block comment. -/
inductive CommentMark where
  | opening
  | closing
  | other (c : Char)
deriving DecidableEq

namespace CommentMark

/-- By how much a mark changes the number of levels that are open. -/
def step : CommentMark → Int
  | opening => 1
  | closing => -1
  | other _ => 0

/-- The marks of a text, read from left to right. -/
def ofText : List Char → List CommentMark
  | '/' :: '*' :: cs => opening :: ofText cs
  | '*' :: '/' :: cs => closing :: ofText cs
  | c :: cs => other c :: ofText cs
  | [] => []

/-- How many more levels are open after some marks than before them. -/
def depth (ms : List CommentMark) : Int := (ms.map step).sum

/-- The levels that are open are all closed after the last of some marks, and not before. -/
def Closes (level : Int) (ms : List CommentMark) : Prop :=
  level + depth ms = 0 ∧ ∀ before, before <+: ms → before ≠ ms → 0 < level + depth before

/-- The levels that are open are never all closed by some marks. -/
def StaysOpen (level : Int) (ms : List CommentMark) : Prop :=
  ∀ before, before <+: ms → 0 < level + depth before

variable {level : Int} {m : CommentMark} {ms : List CommentMark}

/-- Marks are counted one by one. -/
theorem depth_cons : depth (m :: ms) = m.step + depth ms := by
  unfold depth
  rw [List.map_cons, List.sum_cons]

/-- No mark is needed to close nothing. -/
theorem closes_nil : Closes level [] ↔ level = 0 := by
  refine ⟨fun h => by simpa [depth] using h.1, fun h => ⟨by simpa [depth] using h, ?_⟩⟩
  intro before hbefore hne
  exact absurd (List.prefix_nil.1 hbefore) hne

/-- A level is left by the first mark and then the others. -/
theorem closes_cons : Closes level (m :: ms) ↔ 0 < level ∧ Closes (level + m.step) ms := by
  constructor
  -- Beginnings of the marks are the empty one, and those of the others behind the first.
  · rintro ⟨hend, hbefore⟩
    refine ⟨by simpa [depth] using hbefore [] List.nil_prefix (List.cons_ne_nil m ms).symm, ?_, ?_⟩
    · rw [depth_cons, ← Int.add_assoc] at hend
      exact hend
    · intro before hbegins hne
      have hlevel := hbefore (m :: before) (List.cons_prefix_cons.2 ⟨rfl, hbegins⟩)
        fun heq => hne (List.cons.inj heq).2
      rwa [depth_cons, ← Int.add_assoc] at hlevel
  · rintro ⟨hlevel, hend, hbefore⟩
    refine ⟨by rw [depth_cons, ← Int.add_assoc]; exact hend, ?_⟩
    intro before hbegins hne
    rcases List.prefix_cons_iff.1 hbegins with rfl | ⟨later, rfl, hlater⟩
    · simpa [depth] using hlevel
    · rw [depth_cons, ← Int.add_assoc]
      exact hbefore later hlater fun heq => hne (congrArg (m :: ·) heq)

/-- Without marks a level stays open if it is one. -/
theorem staysOpen_nil : StaysOpen level [] ↔ 0 < level := by
  refine ⟨fun h => by simpa [depth] using h [] List.nil_prefix, fun h before hbefore => ?_⟩
  rw [List.prefix_nil.1 hbefore]
  simpa [depth] using h

/-- A level stays open at the first mark and then at the others. -/
theorem staysOpen_cons :
    StaysOpen level (m :: ms) ↔ 0 < level ∧ StaysOpen (level + m.step) ms := by
  constructor
  · intro h
    refine ⟨by simpa [depth] using h [] List.nil_prefix, fun before hbegins => ?_⟩
    have hlevel := h (m :: before) (List.cons_prefix_cons.2 ⟨rfl, hbegins⟩)
    rwa [depth_cons, ← Int.add_assoc] at hlevel
  · rintro ⟨hlevel, hbefore⟩ before hbegins
    rcases List.prefix_cons_iff.1 hbegins with rfl | ⟨later, rfl, hlater⟩
    · simpa [depth] using hlevel
    · rw [depth_cons, ← Int.add_assoc]
      exact hbefore later hlater

/-- A character that begins no mark stands for itself. -/
theorem ofText_cons {c : Char} {cs : List Char} (hopen : ∀ ds, c = '/' → cs = '*' :: ds → False)
    (hclose : ∀ ds, c = '*' → cs = '/' :: ds → False) : ofText (c :: cs) = other c :: ofText cs := by
  rw [ofText]
  · exact hopen
  · exact hclose

/-- Only the empty text has no marks. -/
theorem ofText_eq_nil {cs : List Char} : ofText cs = [] ↔ cs = [] := by
  fun_cases ofText cs <;> simp

/-! ## Comments that are closed -/

/-- Behind an opening mark there is one more level to close. -/
theorem closes_of_opening {depth : Nat} :
    Closes (depth + 1) (opening :: ms) ↔ Closes ((depth + 1 : Nat) + 1) ms := by
  rw [closes_cons]
  exact ⟨fun h => h.2, fun h => ⟨by omega, h⟩⟩

/-- Behind a closing mark there is one less. -/
theorem closes_of_closing {inner : Nat} :
    Closes ((inner + 1 : Nat) + 1) (closing :: ms) ↔ Closes (inner + 1) ms := by
  rw [closes_cons,
    show ((inner + 1 : Nat) : Int) + 1 + closing.step = inner + 1 by simp only [step]; omega]
  exact ⟨fun h => h.2, fun h => ⟨by omega, h⟩⟩

/-- No mark is left of a comment when its last level is closed. -/
theorem closes_of_last : Closes ((0 : Nat) + 1) (closing :: ms) ↔ ms = [] := by
  rw [closes_cons]
  constructor
  · rintro ⟨-, hcloses⟩
    cases ms with
    | nil => rfl
    | cons m ms => exact absurd (closes_cons.1 hcloses).1 (by decide)
  · rintro rfl
    exact ⟨by decide, closes_nil.2 rfl⟩

/-- Behind another character there are as many. -/
theorem closes_of_other {depth : Nat} {c : Char} :
    Closes (depth + 1) (other c :: ms) ↔ Closes (depth + 1) ms := by
  rw [closes_cons, show (depth : Int) + 1 + (other c).step = depth + 1 from Int.add_zero _]
  exact ⟨fun h => h.2, fun h => ⟨by omega, h⟩⟩

/-- A comment with a level open is not closed before its next character. -/
theorem Closes.ne_nil {depth : Nat} {body : List Char} (h : Closes (depth + 1) (ofText body)) :
    body ≠ [] := by
  rintro rfl
  have hlevel := closes_nil.1 h
  omega

/-- A comment that is found to be closed is closed there. -/
theorem closes_of_commentEnd {depth seen resume n : Nat} {cs : List Char}
    (h : commentEnd depth seen resume cs = .closed n) :
    ∃ body rest, cs = body ++ rest ∧ n = seen + body.length ∧ Closes (depth + 1) (ofText body) := by
  -- A mark that opens a level, the mark that closes the last one, a mark that closes another one, any
  -- other character, and the end of the text.
  fun_induction commentEnd depth seen resume cs with
  | case1 depth seen resume cs ih =>
    obtain ⟨body, rest, rfl, rfl, hcloses⟩ := ih h
    refine ⟨'/' :: '*' :: body, rest, rfl, by simp only [List.length_cons]; omega, ?_⟩
    exact closes_of_opening.2 hcloses
  | case2 seen resume cs =>
    cases h
    exact ⟨['*', '/'], cs, rfl, rfl, closes_of_last.2 rfl⟩
  | case3 seen resume cs inner ih =>
    obtain ⟨body, rest, rfl, rfl, hcloses⟩ := ih h
    refine ⟨'*' :: '/' :: body, rest, rfl, by simp only [List.length_cons]; omega, ?_⟩
    exact closes_of_closing.2 hcloses
  | case4 depth seen resume c cs hopen hclose ih =>
    obtain ⟨body, rest, rfl, rfl, hcloses⟩ := ih h
    refine ⟨c :: body, rest, rfl, by simp only [List.length_cons]; omega, ?_⟩
    -- The comment is not closed at once, so the next character is in it and `c` begins no mark.
    obtain ⟨d, body, rfl⟩ := List.exists_cons_of_ne_nil hcloses.ne_nil
    rw [ofText_cons (fun ds hc heq => hopen (ds ++ rest) hc (by rw [heq]; rfl))
      (fun ds hc heq => hclose (ds ++ rest) hc (by rw [heq]; rfl))]
    exact closes_of_other.2 hcloses
  | case5 => cases h

/-- A comment is found to be closed where it is closed, whatever follows. -/
theorem commentEnd_of_closes {depth seen resume : Nat} {body : List Char}
    (h : Closes (depth + 1) (ofText body)) (rest : List Char) :
    commentEnd depth seen resume (body ++ rest) = .closed (seen + body.length) := by
  -- Along the marks of the comment: both functions go through the text by two characters at a mark and by
  -- one elsewhere.
  fun_induction ofText body generalizing depth seen resume with
  | case1 body ih =>
    rw [List.cons_append, List.cons_append, commentEnd, ih (closes_of_opening.1 h)]
    simp only [List.length_cons, CommentEnd.closed.injEq]
    omega
  | case2 body ih =>
    cases depth with
    | zero =>
      rw [ofText_eq_nil.1 (closes_of_last.1 h)]
      rfl
    | succ inner =>
      rw [List.cons_append, List.cons_append, commentEnd, ih (closes_of_closing.1 h)]
      simp only [List.length_cons, CommentEnd.closed.injEq]
      omega
  | case3 c body hopen hclose ih =>
    have hcloses := closes_of_other.1 h
    cases body with
    | nil => exact absurd rfl hcloses.ne_nil
    | cons d body =>
      rw [List.cons_append, commentEnd, ih hcloses]
      · simp only [List.length_cons, CommentEnd.closed.injEq]
        omega
      · intro ds hc heq
        exact hopen body hc (by rw [(List.cons.inj heq).1])
      · intro ds hc heq
        exact hclose body hc (by rw [(List.cons.inj heq).1])
  | case4 => exact absurd rfl h.ne_nil

/-! ## Comments that are not closed -/

/-- The part of an unmatched comment that is skipped, from the text after its opening mark: it ends after
the last mark that closes a level, and it is empty if there is none. -/
structure Skips (body rest : List Char) : Prop where
  split : ofText (body ++ rest) = ofText body ++ ofText rest
  last : ∀ m ∈ (ofText body).getLast?, m = closing
  none : closing ∉ ofText rest

/-- Where no mark closes a level nothing is skipped. -/
theorem Skips.nothing {rest : List Char} (h : closing ∉ ofText rest) : Skips [] rest :=
  ⟨rfl, fun _ hm => (by cases hm), h⟩

/-- The last mark of several is that of the others, unless there is only one. -/
theorem forall_getLast?_cons : (∀ x ∈ (m :: ms).getLast?, x = closing) ↔
    (ms = [] → m = closing) ∧ ∀ x ∈ ms.getLast?, x = closing := by
  rw [List.getLast?_cons]
  cases hlast : ms.getLast? with
  | none => simp [List.getLast?_eq_none_iff.1 hlast]
  | some x =>
    have hne : ms ≠ [] := by
      rintro rfl
      cases hlast
    simp [hne]

/-- Behind an opening mark there is one more level that stays open. -/
theorem staysOpen_of_opening {depth : Nat} :
    StaysOpen (depth + 1) (opening :: ms) ↔ StaysOpen ((depth + 1 : Nat) + 1) ms := by
  rw [staysOpen_cons]
  exact ⟨fun h => h.2, fun h => ⟨by omega, h⟩⟩

/-- Behind a closing mark there is one less. -/
theorem staysOpen_of_closing {inner : Nat} :
    StaysOpen ((inner + 1 : Nat) + 1) (closing :: ms) ↔ StaysOpen (inner + 1) ms := by
  rw [staysOpen_cons,
    show ((inner + 1 : Nat) : Int) + 1 + closing.step = inner + 1 by simp only [step]; omega]
  exact ⟨fun h => h.2, fun h => ⟨by omega, h⟩⟩

/-- Behind another character there are as many. -/
theorem staysOpen_of_other {depth : Nat} {c : Char} :
    StaysOpen (depth + 1) (other c :: ms) ↔ StaysOpen (depth + 1) ms := by
  rw [staysOpen_cons, show (depth : Int) + 1 + (other c).step = depth + 1 from Int.add_zero _]
  exact ⟨fun h => h.2, fun h => ⟨by omega, h⟩⟩

/-- A comment that is found to be unmatched is not closed. It goes on after the last mark that closes a
level, and where it would have gone on before if there is none. -/
theorem unmatched_of_commentEnd {depth seen resume n : Nat} {cs : List Char}
    (h : commentEnd depth seen resume cs = .unmatched n) :
    StaysOpen (depth + 1) (ofText cs) ∧ ∃ body rest, cs = body ++ rest ∧ Skips body rest ∧
      n = if body = [] then resume else seen + body.length := by
  -- What is skipped after the first mark or character is empty only if no mark after it closes a level.
  fun_induction commentEnd depth seen resume cs with
  | case1 depth seen resume cs ih =>
    obtain ⟨hopen, body, rest, rfl, hskips, rfl⟩ := ih h
    refine ⟨staysOpen_of_opening.2 hopen, ?_⟩
    by_cases hbody : body = []
    · subst hbody
      refine ⟨[], '/' :: '*' :: rest, rfl, .nothing ?_, rfl⟩
      rw [ofText, List.mem_cons, not_or]
      exact ⟨CommentMark.noConfusion, hskips.none⟩
    · refine ⟨'/' :: '*' :: body, rest, rfl, ⟨?_, ?_, hskips.none⟩, ?_⟩
      · exact congrArg (opening :: ·) hskips.split
      · exact forall_getLast?_cons.2 ⟨fun hnil => absurd (ofText_eq_nil.1 hnil) hbody, hskips.last⟩
      · rw [if_neg hbody, if_neg (List.cons_ne_nil _ _)]
        simp only [List.length_cons]
        omega
  | case2 => cases h
  | case3 seen resume cs inner ih =>
    obtain ⟨hopen, body, rest, rfl, hskips, rfl⟩ := ih h
    refine ⟨staysOpen_of_closing.2 hopen, '*' :: '/' :: body, rest, rfl, ⟨?_, ?_, hskips.none⟩, ?_⟩
    · exact congrArg (closing :: ·) hskips.split
    · exact forall_getLast?_cons.2 ⟨fun _ => rfl, hskips.last⟩
    · rw [if_neg (List.cons_ne_nil _ _)]
      split
      · next hnil =>
        rw [hnil]
        rfl
      · simp only [List.length_cons]
        omega
  | case4 depth seen resume c cs hopening hclosing ih =>
    obtain ⟨hopen, body, rest, rfl, hskips, rfl⟩ := ih h
    have hmark := ofText_cons hopening hclosing
    refine ⟨hmark ▸ staysOpen_of_other.2 hopen, ?_⟩
    cases body with
    | nil =>
      refine ⟨[], c :: rest, rfl, .nothing ?_, rfl⟩
      rw [← List.nil_append rest, hmark, List.mem_cons, not_or]
      exact ⟨CommentMark.noConfusion, hskips.none⟩
    | cons d body =>
      have hmark' : ofText (c :: d :: body) = other c :: ofText (d :: body) :=
        ofText_cons (fun ds hc heq => hopening (ds ++ rest) hc (by rw [heq]; rfl))
          (fun ds hc heq => hclosing (ds ++ rest) hc (by rw [heq]; rfl))
      refine ⟨c :: d :: body, rest, rfl, ⟨?_, ?_, hskips.none⟩, ?_⟩
      · rw [List.cons_append, hmark, hmark', hskips.split]
        rfl
      · rw [hmark', forall_getLast?_cons]
        exact ⟨fun hnil => absurd (ofText_eq_nil.1 hnil) (List.cons_ne_nil d body), hskips.last⟩
      · rw [if_neg (List.cons_ne_nil _ _), if_neg (List.cons_ne_nil _ _)]
        simp only [List.length_cons]
        omega
  | case5 =>
    cases h
    exact ⟨staysOpen_nil.2 (by omega), [], [], rfl, .nothing List.not_mem_nil, rfl⟩

/-- Without marks that close a level a comment is unmatched and goes on where it would have before. -/
theorem commentEnd_of_not_mem {depth seen resume : Nat} {cs : List Char} (h : closing ∉ ofText cs) :
    commentEnd depth seen resume cs = .unmatched resume := by
  fun_induction commentEnd depth seen resume cs with
  | case1 depth seen resume cs ih => exact ih fun hmem => h (List.mem_cons_of_mem opening hmem)
  | case2 | case3 => exact absurd List.mem_cons_self h
  | case4 depth seen resume c cs hopening hclosing ih =>
    rw [ofText_cons hopening hclosing] at h
    exact ih fun hmem => h (List.mem_cons_of_mem _ hmem)
  | case5 => rfl

/-- A comment that is not closed is found to be unmatched, and goes on after what is to be skipped. -/
theorem commentEnd_of_unmatched {depth seen resume : Nat} {body rest : List Char}
    (hopen : StaysOpen (depth + 1) (ofText (body ++ rest))) (h : Skips body rest) :
    commentEnd depth seen resume (body ++ rest) =
      .unmatched (if body = [] then resume else seen + body.length) := by
  fun_induction ofText body generalizing depth seen resume with
  | case1 body ih =>
    obtain ⟨hne, hlast⟩ := forall_getLast?_cons.1 h.last
    have hbody : body ≠ [] := by
      rintro rfl
      cases hne rfl
    rw [List.cons_append, List.cons_append, commentEnd, ih (staysOpen_of_opening.1 hopen)
      ⟨(List.cons.inj h.split).2, hlast, h.none⟩, if_neg hbody, if_neg (List.cons_ne_nil _ _)]
    simp only [List.length_cons, CommentEnd.unmatched.injEq]
    omega
  | case2 body ih =>
    obtain ⟨-, hlast⟩ := forall_getLast?_cons.1 h.last
    cases depth with
    | zero => exact absurd ((staysOpen_cons.1 hopen).2 [] List.nil_prefix) (by decide)
    | succ inner =>
      rw [List.cons_append, List.cons_append, commentEnd, ih (staysOpen_of_closing.1 hopen)
        ⟨(List.cons.inj h.split).2, hlast, h.none⟩, if_neg (List.cons_ne_nil _ _)]
      split
      · next hnil =>
        rw [hnil]
        rfl
      · simp only [List.length_cons, CommentEnd.unmatched.injEq]
        omega
  | case3 c body hopening hclosing ih =>
    -- A character is skipped only if a mark after it is, so it is not the last of `body`.
    have hlast := h.last
    rw [ofText_cons hopening hclosing, forall_getLast?_cons] at hlast
    obtain ⟨hne, hlast⟩ := hlast
    cases body with
    | nil => cases hne rfl
    | cons d body =>
      have hopening' : ∀ ds, c = '/' → d :: (body ++ rest) = '*' :: ds → False :=
        fun ds hc heq => hopening body hc (by rw [(List.cons.inj heq).1])
      have hclosing' : ∀ ds, c = '*' → d :: (body ++ rest) = '/' :: ds → False :=
        fun ds hc heq => hclosing body hc (by rw [(List.cons.inj heq).1])
      have hsplit := h.split
      rw [List.cons_append, List.cons_append, ofText_cons hopening' hclosing',
        ofText_cons hopening hclosing] at hsplit
      rw [List.cons_append, List.cons_append, ofText_cons hopening' hclosing'] at hopen
      rw [List.cons_append, List.cons_append, commentEnd, ← List.cons_append,
        ih (staysOpen_of_other.1 hopen) ⟨(List.cons.inj hsplit).2, hlast, h.none⟩,
        if_neg (List.cons_ne_nil _ _), if_neg (List.cons_ne_nil _ _)]
      · simp only [List.length_cons, CommentEnd.unmatched.injEq]
        omega
      · exact hopening'
      · exact hclosing'
  | case4 => exact commentEnd_of_not_mem h.none

end CommentMark

end Treewalk
