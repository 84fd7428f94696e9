import Treewalk.Proofs.Eval.Alike
import Treewalk.Proofs.Eval.Correspondence

/-!
# Runs with another name

Whatever a program does, the program with the other name does in the same way. Comparing the two is a
correspondence (`respelling`): its worlds are the marks of the frames, and its frames hold the same values
under names that are respelled in the marked ones. It is lawful (`lawful_respelling`) unless one of the two
names is that of the receiver, which is never respelled. What matches is then that of any correspondence.
-/

namespace Treewalk

open Eval

variable {n m : String} {marks : List Bool} {g : Bearing} {e : Environment} {f : FrameId}

/-- Values are alike in runs with the given marks. -/
abbrev AlikeValues (n m : String) (marks : List Bool) : Value → Value → Prop :=
  Value.Alike (renamed n m marks)

/-- A run that is nested too deeply stops for that reason under the other name, too. -/
theorem Stop.Alike.overflow {stop stop' : Stop} (h : stop.Alike n m stop') :
    stop' = stop ∨ ∀ line, stop ≠ .overflow line ∧ stop' ≠ .overflow line := by
  cases h with
  | same => exact .inl rfl
  | missing => exact .inr fun _ => ⟨Stop.noConfusion, Stop.noConfusion⟩

/-! ## The correspondence -/

/-- The frames of the second run are those of the first, with other names in the marked ones. -/
structure Frames.Renamed (n m : String) (marks : List Bool) (fs fs' : Frames Value) : Prop where
  size : marks.length = fs.next
  global : marks[globalFrame]? = some false
  tables : fs.Related (RespellsIn n m marks) (AlikeValues n m marks) fs'

/-- Two runs of programs that are the same but for a name of one scope. -/
def respelling (n m : String) : Correspondence where
  World := List Bool
  Grows := (· <+: ·)
  likeness := renamed n m
  frames := Frames.Renamed n m
  stops := Stop.Alike n m
  rule := .inScope n m
  binds g := Respells n m g.own
  fits marks g e e' := e' = e ∧ e.Fits marks g 0
  fitsClass marks g e e' := e' = e ∧ e.Fits marks g 1 ∧ g.own = false
  refl _ := List.prefix_rfl
  trans := List.IsPrefix.trans
  weaker := renamed_mono
  keepsFaces _ := keepsFaces_renamed
  same := .same
  overflow h := h.overflow

/-- Stores correspond if they are alike. -/
theorem stores_respelling {s s' : Store} : (respelling n m).Stores marks s s' ↔ s.Alike n m marks s' := by
  constructor
  · rintro ⟨⟨hsize, hglobal, htables⟩, hfields, hidentity, hprinted, htold⟩
    exact ⟨hsize, hglobal, htables, hfields, hidentity, hprinted, htold⟩
  · intro hs
    exact ⟨⟨hs.size, hs.global, hs.frames⟩, hs.fields, hs.identity, hs.printed, hs.told⟩

namespace Correspondence.Matches

variable {name name' : Name} {a a' : Address} {v v' : Value}

/-- The new frames are marked if the names of what they hold are respelled. -/
theorem extend_marked (e : Environment) {mark : Bool} {table table' : Bindings Value}
    (ht : table.Related (Respells n m mark) (AlikeValues n m marks) table') :
    (respelling n m).Matches marks
      (fun (marks₁ : List Bool) e₁ e₁' => e₁' = e₁ ∧ ∃ f, e₁ = e.extend f ∧ marks₁[f]? = some mark)
      (Eval.extend e table) (Eval.extend e table') := by
  intro (marks₁ : List Bool) (hmarks₁ : marks <+: marks₁) s s' hs
  rw [stores_respelling] at hs
  refine ⟨marks₁ ++ [mark], List.prefix_append _ _, .ok ⟨?_, _, rfl, ?_⟩ ?_⟩
  · rw [hs.frames.next_eq]
  · rw [← hs.size]
    exact List.getElem?_concat_length
  · refine stores_respelling.2 (hs.withFrame ?_)
    exact ht.imp (fun _ _ hname => hname) fun _ _ hv => hv.weaken (renamed_mono hmarks₁)

/-- A declaration of a name, respelled, in the same frame. -/
theorem define_respelled {word word' : String} (hname : RespellsIn n m marks f word word')
    (hv : AlikeValues n m marks v v') :
    (respelling n m).Matches marks (fun _ _ _ => True) (Eval.define f word v) (Eval.define f word' v') := by
  intro (marks₁ : List Bool) (hmarks₁ : marks <+: marks₁) s s' hs
  rw [stores_respelling] at hs
  obtain ⟨mark, hmark, hname⟩ := hname
  have hname₁ : RespellsIn n m marks₁ f word word' := ⟨mark, mark_mono hmarks₁ hmark, hname⟩
  exact ⟨marks₁, List.prefix_rfl, .ok trivial
    (stores_respelling.2 (hs.withName hname₁ (hv.weaken (renamed_mono hmarks₁))))⟩

/-- A read of a name. A local one leads to a frame that is marked as the address says. -/
theorem read_respelled (hfits : e.Fits marks g 0) (h : (NameRule.inScope n m).use g name a name' a') :
    (respelling n m).Matches marks (respelling n m).Values (Eval.read e name a) (Eval.read e name' a') := by
  intro (marks₁ : List Bool) (hmarks₁ : marks <+: marks₁) s s' hstores
  have hs := stores_respelling.1 hstores
  refine ⟨marks₁, List.prefix_rfl, ?_⟩
  cases a with
  | global =>
    obtain ⟨rfl, rfl⟩ := NameRule.use_global h
    rw [read_global, read_global]
    have hname : RespellsIn n m marks₁ globalFrame name.text name.text := ⟨false, hs.global, respells_false⟩
    have hfound := hs.find? hname
    generalize s.frames.find? globalFrame name.text = found at hfound
    generalize s'.frames.find? globalFrame name.text = found' at hfound
    cases hfound with
    | none => exact .error (.same _) hstores
    | some hv => exact .ok hv hstores
  | scope d =>
    obtain ⟨rfl, hname⟩ := NameRule.respells_use h
    rw [read_scope, read_scope]
    cases hframe : e.ancestor? d with
    | none => exact .error (Stop.alike_missing hname) hstores
    | some f =>
      -- The frame is marked as the scope is, so the name is looked up under the spelling that is written
      -- there.
      have hfound := hs.find? ⟨_, mark_mono hmarks₁ (hfits d f hframe), hname⟩
      rw [Option.bind_some, Option.bind_some]
      generalize s.frames.find? f name.text = found at hfound
      generalize s'.frames.find? f name'.text = found' at hfound
      cases hfound with
      | none => exact .error (Stop.alike_missing hname) hstores
      | some hv => exact .ok hv hstores

/-- An assignment to a name, respelled, in the same frame. -/
theorem write_respelled (hfits : e.Fits marks g 0) (h : (NameRule.inScope n m).use g name a name' a')
    (hv : AlikeValues n m marks v v') :
    (respelling n m).Matches marks (fun _ _ _ => True) (Eval.write e name a v)
      (Eval.write e name' a' v') := by
  intro (marks₁ : List Bool) (hmarks₁ : marks <+: marks₁) s s' hstores
  have hs := stores_respelling.1 hstores
  have hv₁ := hv.weaken (renamed_mono hmarks₁)
  refine ⟨marks₁, List.prefix_rfl, ?_⟩
  cases a with
  | global =>
    -- A global name is not respelled: the scope is no global one.
    obtain ⟨rfl, rfl⟩ := NameRule.use_global h
    rw [write_global, write_global]
    have hname : RespellsIn n m marks₁ globalFrame name.text name.text := ⟨false, hs.global, respells_false⟩
    have hfound := hs.find? hname
    generalize s.frames.find? globalFrame name.text = found at hfound
    generalize s'.frames.find? globalFrame name.text = found' at hfound
    cases hfound with
    | none => exact .error (.same _) hstores
    | some _ => exact .ok trivial (stores_respelling.2 (hs.withName hname hv₁))
  | scope d =>
    obtain ⟨rfl, hname⟩ := NameRule.respells_use h
    rw [write_scope, write_scope]
    cases hframe : e.ancestor? d with
    | none => exact .error (Stop.alike_missing hname) hstores
    -- The name is respelled if its frame is marked, as the address says.
    | some f =>
      have hname₁ : RespellsIn n m marks₁ f name.text name'.text :=
        ⟨_, mark_mono hmarks₁ (hfits d f hframe), hname⟩
      exact .ok trivial (stores_respelling.2 (hs.withName hname₁ hv₁))

end Correspondence.Matches

/-! ## Its laws -/

/-- Other names change nothing, if an instance is found under its name as before. -/
theorem lawful_respelling (hn : n ≠ thisName) (hm : m ≠ thisName) : (respelling n m).Lawful where
  biUnique g := biUnique_respells g.own
  declare := NameRule.respells_declare
  keep := NameRule.respells_keep
  mono h hmarks := ⟨h.1, h.2.mono hmarks⟩
  part h i := ⟨h.1, h.2.part i⟩
  inClass h := ⟨h.1, h.2.inClass, Bearing.own_inClass⟩
  partOfClass h i := ⟨h.1, h.2.1.part i, (Bearing.meets_part i _).trans h.2.2⟩
  read := by
    rintro marks g _ e name name' a a' ⟨rfl, hfits⟩ huse
    exact .read_respelled hfits huse
  write := by
    rintro marks g _ e name name' a a' v v' ⟨rfl, hfits⟩ huse hv
    exact .write_respelled hfits huse hv
  define := by
    rintro marks g _ e word word' v v' ⟨rfl, hfits⟩ hname hv
    exact .define_respelled ⟨g.own, hfits.own, hname⟩ hv
  enter := by
    rintro marks g _ e table table' ⟨rfl, hfits⟩ htable
    refine Correspondence.Matches.weaken (.extend_marked e htable) fun marks₁ hmarks₁ e₁ e₁' hnew => ?_
    obtain ⟨rfl, f, rfl, hf⟩ := hnew
    exact ⟨rfl, (hfits.mono hmarks₁).enter.extend hf⟩
  function := by
    rintro marks g _ e kind r r' ⟨rfl, hfits⟩ hr hlength name
    exact ⟨⟨rfl, rfl, rfl, hlength⟩, g, kind, fun j hj => absurd hj (Nat.not_lt_zero j), hfits, hr⟩
  method := by
    rintro marks g _ e kind r r' ⟨rfl, hfits, hown⟩ hr hlength name isInitializer
    refine ⟨⟨rfl, rfl, rfl, hlength⟩, g, kind, fun j hj => ?_, hfits, hr⟩
    rw [Nat.lt_one_iff.1 hj]
    exact hown
  bound := by
    intro marks c c' v v' hc hv
    obtain ⟨houtside, g, kind, hg, hfits, hcode⟩ := hc
    have htable : (({} : Bindings Value).put thisName v).Related (Respells n m false)
        (AlikeValues n m marks) (({} : Bindings Value).put thisName v') :=
      Bindings.Related.empty.put (biUnique_respells false) respells_false hv
    rw [houtside.environment]
    -- The frame of the receiver is not marked, as no name of the scope of a class changes.
    refine Correspondence.Matches.weaken (.extend_marked c.environment htable)
      fun marks₁ hmarks₁ e₁ e₁' hnew => ?_
    obtain ⟨rfl, f, rfl, hf⟩ := hnew
    refine ⟨⟨houtside.name, rfl, houtside.isInitializer, houtside.arity⟩, g, kind,
      fun j hj => absurd hj (Nat.not_lt_zero j), (hfits.mono hmarks₁).extend ?_, hcode⟩
    rw [hg 0 Nat.zero_lt_one]
    exact hf
  called := by
    intro marks c c' hc
    obtain ⟨houtside, g, kind, -, hfits, hcode⟩ := hc
    exact ⟨g, kind, ⟨houtside.environment, hfits⟩, hcode, fun _ => NameRule.use_this hn hm 0 (.scope 0)⟩

end Treewalk
