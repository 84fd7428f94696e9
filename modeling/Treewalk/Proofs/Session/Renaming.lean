import Treewalk.Proofs.Eval.Renaming
import Treewalk.Proofs.Grammar.Respelling
import Treewalk.Proofs.Scope.Renaming
import Treewalk.Proofs.Session.History
import Treewalk.Proofs.Session.InParts
import Treewalk.Proofs.Token.Respelling

/-!
# Local names do not matter

A variable that is declared in a block or in the body of a routine, or a parameter, can be given any other
name that the program does not hold. The text in which it is respelled is accepted, every name has the
address that it had, and the unit ends as the other one does (`rename_local`). Native functions take part
in this: they see functions from outside only, and so they are told the same in both runs.
-/

namespace Treewalk

namespace Session

/-! ## What there was before the unit -/

section

variable {h : History} {W : World} {s : Store} {n m : String} {marks : List Bool}

/-- No frame that is there is marked. -/
def Unmarked (marks : List Bool) (s : Store) : Prop := ∀ f < s.frames.next, marks[f]? = some false

/-- Where no frame is marked no scope is the one that is renamed. -/
theorem unmarked_replicate (s : Store) : Unmarked (List.replicate s.frames.next false) s := fun _ hf =>
  List.getElem?_replicate_of_lt hf

/-- A closure in frames that are not marked is alike to itself. -/
theorem closure_alike_self (hmarks : Unmarked marks s) {c : Closure}
    (hchain : ∀ f ∈ c.environment.chain, f < s.frames.next) (out : Nat) : c.Alike n m marks out c :=
  ⟨⟨rfl, rfl, rfl, rfl⟩, .apart, .function, fun _ _ => rfl,
    fun _ f hf => hmarks f (hchain f (List.mem_of_getElem? hf)), .refl (NameRule.idle_inScope n m) _⟩

/-- A genuine value is like itself in any way in which the functions in frames that are there are. -/
theorem genuine_alike_self {host : Host} {L : Likeness} {v : Value} (hgood : h.Good host W s)
    (hclosure : ∀ c : Closure, (∀ f ∈ c.environment.chain, f < s.frames.next) →
      L.function c c ∧ L.method c c) (hv : h.Genuine W s v) : v.Alike L v := by
  have hclass : ∀ {c : Class}, (∀ name m, c.methods.find? name = some m → h.IsMethod W s m) →
      c.Alike L c := by
    refine fun hc => ⟨rfl, fun name name' hname => ?_⟩
    subst hname
    cases hm : Bindings.find? _ name with
    | none => exact .none
    | some method =>
      obtain ⟨p, ms, kind, r, -, -, -, -, hlevels⟩ := hc name method hm
      exact .some (hclosure method (History.frames_lt hgood hlevels)).2
  -- A closure is alike to itself as far as its frames are there, and they all are.
  cases v with
  | function i c =>
    obtain ⟨p, kind, r, -, -, -, -, hfits⟩ := hv
    exact .function i (hclosure c (History.frames_lt hgood hfits)).1
  | «class» i c => exact .class i (hclass hv)
  | object i c => exact .object i (hclass hv.2)
  | _ => constructor

/-- A genuine value is alike to itself if no frame is marked. -/
theorem alike_self {host : Host} (hgood : h.Good host W s) (hmarks : Unmarked marks s) {v : Value}
    (hv : h.Genuine W s v) : AlikeValues n m marks v v :=
  genuine_alike_self hgood
    (fun _ hchain => ⟨closure_alike_self hmarks hchain 0, closure_alike_self hmarks hchain 1⟩) hv

/-- A good store is alike to itself if no frame is marked. -/
theorem store_alike_self {host : Host} (hgood : h.Good host W s) :
    s.Alike n m (List.replicate s.frames.next false) s := by
  have hmarks := unmarked_replicate s
  refine ⟨List.length_replicate, hmarks _ hgood.global_lt, .self (fun f hf name name' hname => ?_) ?_,
    .self (fun _ _ name name' hname => hname.symm) ?_, rfl, rfl, List.forall₂_same.2 ?_, rfl⟩
  · obtain ⟨mark, hmark, hname⟩ := hname
    cases (hmarks f hf).symm.trans hmark
    exact hname.1.trans respelled_false
  · exact fun f name v hv => alike_self hgood hmarks (hgood.values f name v hv)
  · exact fun i name v hv => alike_self hgood hmarks (hgood.fields i name v hv)
  · exact fun v hv => alike_self hgood hmarks (hgood.shown v (Array.mem_toList_iff.1 hv))

end

/-! ## Ends of units -/

/-- Two units end alike: with values that are alike and are shown alike, without a value, or with an
error. Only in the name of a local variable without a value they may differ. -/
inductive EndsAlike (n m : String) (marks : List Bool) :
    Except Escape UnitResult → Except Escape UnitResult → Prop
  | value {v v' : Value} (h : AlikeValues n m marks v v') (hdisplay : v'.display = v.display) :
    EndsAlike n m marks (.ok (.value v)) (.ok (.value v'))
  | noValue : EndsAlike n m marks (.ok .noValue) (.ok .noValue)
  | error : EndsAlike n m marks (.ok .error) (.ok .error)
  | escape (escape : Escape) : EndsAlike n m marks (.error escape) (.error escape)
  | missing : EndsAlike n m marks (.error (.crash (.missingName n))) (.error (.crash (.missingName m)))

/-- Two units do the same but for the name: they print the same, report the same, and end alike, and what
they leave is alike. -/
structure Agree (n m : String) (r r' : Session × Except Escape UnitResult) : Prop where
  printed : r'.1.printed = r.1.printed
  log : r'.1.log = r.1.log
  line : r'.1.line = r.1.line
  rest : ∃ marks, r.1.store.Alike n m marks r'.1.store ∧
    List.Forall₂ (AlikeValues n m marks) r.1.results r'.1.results ∧ EndsAlike n m marks r.2 r'.2

/-- Runs that end alike end their units alike. -/
theorem agree_conclude {s : Session} {n m : String} {marks : List Bool}
    {r r' : EStateM.Result Stop Store (Option Value)}
    (hresults : List.Forall₂ (AlikeValues n m marks) s.results s.results)
    (h : (respelling n m).Ends marks (fun marks => Option.Rel (AlikeValues n m marks)) r r') :
    Agree n m (keepValue (s.conclude r)) (keepValue (s.conclude r')) := by
  cases h with
  | ok hv hstores =>
    have hstore := stores_respelling.1 hstores
    cases hv with
    | none => exact ⟨hstore.printed, rfl, rfl, marks, hstore, hresults, .noValue⟩
    | some hv =>
      exact ⟨hstore.printed, rfl, rfl, marks, hstore, List.rel_append hresults (.cons hv .nil),
        .value hv (hv.display keepsFaces_renamed)⟩
  | @error stop _ _ _ hstop hstores =>
    have hstore := stores_respelling.1 hstores
    cases hstop with
    -- Only a missing name is told by its spelling; every other stop is the same in both runs.
    | missing => exact ⟨hstore.printed, rfl, rfl, marks, hstore, hresults, .missing⟩
    | same =>
      unfold conclude
      simp only
      cases stopped stop with
      | inl e => exact ⟨hstore.printed, rfl, rfl, marks, hstore, hresults, .error⟩
      | inr escape => exact ⟨hstore.printed, rfl, rfl, marks, hstore, hresults, .escape escape⟩

/-! ## Renamed programs -/

/-- What is introduced in an accepted program is a name. -/
theorem isName_of_introduces {w : Visit} {n : String} (hsound : ∀ v, w.Reaches v → v.Sound)
    (h : w.node.Introduces n) : IsName n := by
  -- What is declared in a body is a name of the body, and names are in order.
  have hbody : ∀ {q : Place} {ss : List (Stmt Unit)}, w.Reaches ⟨q, .body ss⟩ → Declares n ss →
      IsName n := by
    rintro q ss hreaches ⟨name, x, hmem, rfl⟩
    have hname : name.text ∈ (Node.body ss).names :=
      List.mem_flatMap.2 ⟨_, hmem, List.mem_singleton_self name.text⟩
    exact (hsound _ hreaches).worded.names _ hname
  obtain ⟨p, node⟩ := w
  cases node with
  | statement s =>
    cases s with
    | block ss => exact hbody (.single List.mem_cons_self) h
    | _ => cases h
  | routine kind r =>
    rcases h with h | h
    · exact (hsound _ .refl).worded.names n h
    · exact hbody (.single List.mem_cons_self) h
  | _ => cases h

/-- The program to which an accepted program is renamed is that of a text in which the name is
respelled, and the text is accepted. -/
theorem Accepts.exists_respelled {s : Session} {text : String} {p p' : List (Stmt Unit)} {n m : String}
    (h : s.Accepts text p) (hn : IsName n) (hm : IsName m) {g : Bearing}
    (hp : Node.Alters (.anywhere n m) g (.body p) (.body p'))
    (hresolved : (resolveProgram s.limits.tree p').findings = []) :
    ∃ text' : String, s.Accepts text' p' ∧ s.ready text' = s.ready text ∧
      List.Forall₂ (Piece.Respelled n m) (pieces text.toList) (pieces text'.toList) := by
  obtain ⟨ts, hts, hderives⟩ := (Grammar.derives_of_reads h.parsed).respelled ⟨g, hp⟩
  obtain ⟨text', hpieces, hscan⟩ := Scan.exists_respelled hn hm h.faults hts
  -- The respelled text is scanned to the respelled tokens, and these are derived to the other program.
  refine ⟨text', ⟨?_, ?_, hresolved⟩, ?_, hpieces⟩
  · rw [hscan]
    exact h.faults
  · rw [hscan]
    exact Grammar.reads_of_derives hderives
  · have hline : lineAfter text' (Scan.ofText text' s.line) = lineAfter text (Scan.ofText text s.line) := by
      unfold lineAfter
      rw [hscan]
      simp only [Scan.getLast?_respelled hn hm hpieces]
    unfold ready
    rw [hline]

/-- Units whose programs are the same but for the name do the same. -/
theorem Accepts.agree {time : Nat → Float} {limits : Limits} {past : List Operation} {s : Session}
    {text text' : String} {p p' : List (Stmt Unit)} {n m : String} {path : List Nat}
    (hs : s = (starting time limits).performAll past) (h : s.Accepts text p) (h' : s.Accepts text' p')
    (hready : s.ready text' = s.ready text) (hn : n ≠ thisName) (hm : m ≠ thisName)
    (hp : Node.Alters (.inScope n m) (.around path) (.body (resolveProgram s.limits.tree p).value)
      (.body (resolveProgram s.limits.tree p').value)) : Agree n m (s.execute text) (s.execute text') := by
  obtain ⟨W, hgood, hresults⟩ := recorded time limits (List.prefix_refl past)
  rw [← hs] at hgood hresults
  -- No frame of the store is marked before the run, so both runs begin on the same store, and it is its
  -- own respelling.
  have hmarks := unmarked_replicate s.store
  have hstore : s.store.Alike n m _ s.store := store_alike_self hgood
  -- The outermost code is at the bearing of the path, in the global environment.
  have hat : (respelling n m).Bears s.host (List.replicate s.store.frames.next false) (.around path)
      (.outermost globalFrame) (.outermost globalFrame) := by
    refine ⟨rfl, rfl, fun j f hf => ?_⟩
    cases j with
    | zero =>
      cases hf
      exact hstore.global
    | succ j => cases hf
  obtain ⟨marks, hprefix, hends⟩ := (lawful_respelling hn hm).matches_runProgram hat hp _ List.prefix_rfl
    s.store s.store (stores_respelling.2 hstore)
  rw [execute_eq h, execute_eq h', hready]
  refine agree_conclude ?_ hends
  exact List.forall₂_same.2 fun a ha =>
    alike_self hgood (fun f hf => mark_mono hprefix (hmarks f hf)) (hresults a ha)

/-- A variable of a block or of the body of a routine, or a parameter, can be given any other name that the
program does not hold. Then there is a text in which the name is respelled, and which is accepted; its
program differs in that declaration and in the uses whose addresses lead to its scope, and nothing else,
addresses included; and the unit prints the same, reports the same and ends as it did. -/
theorem rename_local (time : Nat → Float) (limits : Limits) (past : List Operation) (s : Session)
    (hs : s = (starting time limits).performAll past) (text : String) (p : List (Stmt Unit))
    (haccepts : s.Accepts text p) (path : List Nat) (w : Visit)
    (hpath : (s.rootVisit p).follow path = some w) (n m : String) (hn : w.node.Introduces n)
    (hm : IsName m) (hfresh : ∀ v, (s.rootVisit p).Reaches v → m ∉ v.node.names) :
    ∃ text' p', s.Accepts text' p' ∧
      List.Forall₂ (Piece.Respelled n m) (pieces text.toList) (pieces text'.toList) ∧
      Node.Alters (.inScope n m) (.around path) (.body (resolveProgram s.limits.tree p).value)
        (.body (resolveProgram s.limits.tree p').value) ∧
      Agree n m (s.execute text) (s.execute text') := by
  -- The text is renamed as a tree first: the renamed tree is spelled by a text, and is resolved without
  -- misuses. The two resolved trees differ in the one scope, so their runs agree.
  have hsound : ∀ v, (s.rootVisit p).Reaches v → v.Sound := fun v hv => haccepts.sound hv
  have hname : IsName n := isName_of_introduces
    (fun v hv => hsound v ((Visit.Reaches.of_follow hpath).trans hv)) hn
  have hrenamable : (s.rootVisit p).Renamable n m (.around path) :=
    ⟨hsound, hfresh, fun σ hσ => absurd hσ List.not_mem_nil, w, hpath, hn⟩
  obtain ⟨u, hu⟩ := Visit.exists_renames hname.ne_thisName hm.ne_thisName hrenamable
  obtain ⟨p', rfl⟩ := hu.respells.exists_body
  have hresolved : (resolveProgram s.limits.tree p').findings = [] := by
    have haccepted : (resolveProgram s.limits.tree p').findings ++ [] = [] := hu.accepted
    rwa [List.append_nil] at haccepted
  have hrenames : Node.Alters (.inScope n m) (.around path) (.body (resolveProgram s.limits.tree p).value)
      (.body (resolveProgram s.limits.tree p').value) := hu.renames
  obtain ⟨text', haccepts', hready, hpieces⟩ :=
    haccepts.exists_respelled hname hm hu.respells hresolved
  exact ⟨text', p', haccepts', hpieces, hrenames,
    haccepts.agree hs haccepts' hready hname.ne_thisName hm.ne_thisName hrenames⟩

/-- The parameter that a closure reads can be renamed. -/
theorem rename_local_readInClosure : ∃ text' p', (starting 0 .standard).Accepts text' p' ∧
    List.Forall₂ (Piece.Respelled "a" "b")
      (pieces "fn f(a)\x7bfn g()\x7breturn a;\x7dreturn g;\x7dprint f(true)();".toList)
      (pieces text'.toList) ∧
    Node.Alters (.inScope "a" "b") (.around [0, 0])
      (.body (resolveProgram 300 readInClosure).value) (.body (resolveProgram 300 p').value) ∧
    Agree "a" "b" ((starting 0 .standard).execute
        "fn f(a)\x7bfn g()\x7breturn a;\x7dreturn g;\x7dprint f(true)();")
      ((starting 0 .standard).execute text') := by
  have hfresh : Visit.everywhere (fun v => decide ("b" ∉ v.node.names)) 20
      ((starting 0 .standard).rootVisit readInClosure) = true := by decide +kernel
  -- The first statement is a function, and its routine introduces the parameter.
  exact rename_local 0 .standard [] _ rfl _ readInClosure accepts_readInClosure [0, 0] _ rfl "a" "b"
    (.inl List.mem_cons_self) (by decide) fun v hv => of_decide_eq_true (Visit.of_everywhere hfresh v hv)

end Session

end Treewalk
