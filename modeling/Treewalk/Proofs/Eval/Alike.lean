import Treewalk.Proofs.Eval.Likeness
import Treewalk.Proofs.Scope.Alteration

/-!
# Runs that are alike

Of two programs that differ in one name of one scope, the runs stay alike. The frames that are made for
the scope are marked, and in a marked frame the one run holds under the name `m` what the other one holds
under `n`. The list of marks grows as frames are made.

Two closures are alike if their routines are the same but for the name, as seen from a bearing by which
the marks of their environment are right (`Environment.Fits`). Two stores are alike (`Store.Alike`) if what
they hold is, under names that are respelled in the marked frames.
-/

namespace Treewalk

variable {n m : String} {marks marks' : List Bool} {g : Bearing} {out : Nat} {e : Environment}
  {f : FrameId}

/-! ## Names of frames -/

/-- A name of a frame becomes another one, which was not there before, if the frame is marked. -/
def Respells (n m : String) (changes : Bool) (name name' : String) : Prop :=
  name' = respelled n m changes name ∧ (changes = true → name ≠ m)

/-- A name may be left as it is where nothing changes. -/
theorem respells_false {name : String} : Respells n m false name name :=
  ⟨respelled_false.symm, fun h => Bool.noConfusion h⟩

/-- Names are exchanged one for one. -/
theorem biUnique_respells (changes : Bool) : Relator.BiUnique (Respells n m changes) := by
  refine ⟨fun name₁ name₂ _ h₁ h₂ => ?_, fun _ _ _ h₁ h₂ => h₁.1.trans h₂.1.symm⟩
  have heq := h₁.1.symm.trans h₂.1
  cases changes with
  | false => rwa [respelled_false, respelled_false] at heq
  | true => exact (respelled_inj (h₁.2 rfl) (h₂.2 rfl)).1 heq

/-- What a name of a frame becomes, by the mark of the frame. -/
def RespellsIn (n m : String) (marks : List Bool) (f : FrameId) (name name' : String) : Prop :=
  ∃ mark, marks[f]? = some mark ∧ Respells n m mark name name'

/-- In every frame, names are exchanged one for one. -/
theorem biUnique_respellsIn (f : FrameId) : Relator.BiUnique (RespellsIn n m marks f) := by
  constructor
  · rintro _ _ _ ⟨mark, hmark, h₁⟩ ⟨mark', hmark', h₂⟩
    cases hmark.symm.trans hmark'
    exact (biUnique_respells mark).1 h₁ h₂
  · rintro _ _ _ ⟨mark, hmark, h₁⟩ ⟨mark', hmark', h₂⟩
    cases hmark.symm.trans hmark'
    exact (biUnique_respells mark).2 h₁ h₂

/-! ## Marks and bearings -/

/-- The mark of a frame stays the same. -/
theorem mark_mono (hmarks : marks <+: marks') {mark : Bool} (h : marks[f]? = some mark) :
    marks'[f]? = some mark := by
  obtain ⟨hlt, hmark⟩ := List.getElem?_eq_some_iff.1 h
  rw [List.prefix_iff_getElem?.1 hmarks f hlt, hmark]

namespace Bearing

/-- A use is one of the scope or not, whichever part it is in. -/
theorem meets_part (i : Nat) (a : Address) : (g.part i).meets a = g.meets a := by
  cases g with
  | around path =>
    cases path with
    | nil => rfl
    | cons j path =>
      simp only [part]
      split <;> rfl
  | _ => rfl

/-- Inside a block or a routine the scopes around it are one further out. -/
theorem meets_enter (j : Nat) : g.enter.meets (.scope (j + 1)) = g.meets (.scope j) := by
  cases g with
  | around path =>
    cases path with
    | nil => rfl
    | cons i path => exact meets_part (g := around (i :: path)) 0 (.scope (j + 1))
  | within k => exact Bool.eq_iff_iff.2 (by simp [enter, meets])
  | apart => rfl

/-- The methods of a class have one more scope around them, and addresses count it. -/
theorem meets_inClass (j : Nat) : g.inClass.meets (.scope (j + 1)) = g.meets (.scope j) := by
  cases g with
  | around path => exact meets_part (g := around path) 0 (.scope (j + 1))
  | within k => exact Bool.eq_iff_iff.2 (by simp [inClass, meets])
  | apart => rfl

/-- The scope of a class is none in which a name changes. -/
theorem own_inClass : g.inClass.own = false := by
  cases g with
  | around path => exact meets_part (g := around path) 0 (.scope 0)
  | _ => rfl

end Bearing

/-- The marked frames of an environment are those that the scope stands for, as seen from a bearing that is
so many scopes further in. -/
def Environment.Fits (marks : List Bool) (g : Bearing) (out : Nat) (e : Environment) : Prop :=
  ∀ j f, e.chain[j]? = some f → marks[f]? = some (g.meets (.scope (j + out)))

namespace Environment.Fits

/-- Frames that were marked stay marked when there are more. -/
theorem mono (h : e.Fits marks g out) (hmarks : marks <+: marks') : e.Fits marks' g out :=
  fun j f hf => mark_mono hmarks (h j f hf)

/-- The environment of a node is that of its parts. -/
theorem part (h : e.Fits marks g out) (i : Nat) : e.Fits marks (g.part i) out := by
  intro j f hf
  rw [Bearing.meets_part]
  exact h j f hf

/-- A frame that is made for a block or a routine is one further in. -/
theorem enter (h : e.Fits marks g 0) : e.Fits marks g.enter 1 := by
  intro j f hf
  rw [Bearing.meets_enter]
  exact h j f hf

/-- The methods of a class are one further in, before there is a frame for their receiver. -/
theorem inClass (h : e.Fits marks g 0) : e.Fits marks g.inClass 1 := by
  intro j f hf
  rw [Bearing.meets_inClass]
  exact h j f hf

/-- A frame that is marked as it should be may be added. -/
theorem extend (h : e.Fits marks g (out + 1)) (hf : marks[f]? = some (g.meets (.scope out))) :
    (e.extend f).Fits marks g out := by
  intro j f' hf'
  cases j with
  | zero =>
    cases hf'
    rw [Nat.zero_add]
    exact hf
  | succ j =>
    rw [Nat.add_right_comm]
    exact h j f' hf'

/-- The own frame is marked if the own scope is the one. -/
theorem own (h : e.Fits marks g 0) : marks[e.own]? = some g.own := h 0 e.own rfl

end Environment.Fits

/-! ## Closures and values -/

/-- Two closures are the same but for the name: they are so on the outside, and their routines are from a
bearing by which the marks of their environment are right. Between the environment of a method and its
routine the frame of the receiver is missing. -/
structure Closure.Alike (n m : String) (marks : List Bool) (out : Nat) (c c' : Closure) : Prop where
  outside : c.SameOutside c'
  code : ∃ g kind, (∀ j < out, g.meets (.scope j) = false) ∧ c.environment.Fits marks g out ∧
    Node.Alters (.inScope n m) g (.routine kind c.routine) (.routine kind c'.routine)

/-- Values are alike if they are the same but for the name. -/
def renamed (n m : String) (marks : List Bool) : Likeness where
  function := Closure.Alike n m marks 0
  method := Closure.Alike n m marks 1

/-- Functions look the same whatever the name. -/
theorem keepsFaces_renamed : (renamed n m marks).KeepsFaces :=
  ⟨fun _ _ h => h.outside.face, fun _ _ h => h.outside.face⟩

/-- Closures that are alike stay so when there are more frames. -/
theorem Closure.Alike.mono {c c' : Closure} (h : c.Alike n m marks out c') (hmarks : marks <+: marks') :
    c.Alike n m marks' out c' := by
  obtain ⟨houtside, g, kind, hg, hfits, hcode⟩ := h
  exact ⟨houtside, g, kind, hg, hfits.mono hmarks, hcode⟩

/-- More frames make no difference to values that were there. -/
theorem renamed_mono (hmarks : marks <+: marks') : (renamed n m marks).Weaker (renamed n m marks') :=
  ⟨fun _ _ h => h.mono hmarks, fun _ _ h => h.mono hmarks⟩

/-! ## Stores -/

/-- Two stores are the same but for the name, which changes in the marked frames. -/
structure Store.Alike (n m : String) (marks : List Bool) (s s' : Store) : Prop where
  size : marks.length = s.frames.next
  global : marks[globalFrame]? = some false
  frames : s.frames.Related (RespellsIn n m marks) (Value.Alike (renamed n m marks)) s'.frames
  fields : s.fields.Related (fun _ => Eq) (Value.Alike (renamed n m marks)) s'.fields
  identity : s'.nextIdentity = s.nextIdentity
  printed : s'.printed = s.printed
  told : s.Told (renamed n m marks) s'

namespace Store.Alike

variable {s s' : Store} {v v' : Value} {name name' : String}

/-- Under related names the frames hold values that are alike, or both none. -/
theorem find? (h : s.Alike n m marks s') (hname : RespellsIn n m marks f name name') :
    Option.Rel (Value.Alike (renamed n m marks)) (s.frames.find? f name) (s'.frames.find? f name') :=
  h.frames.find? hname

/-- Values that are alike may be put under related names. -/
theorem withName (h : s.Alike n m marks s') (hname : RespellsIn n m marks f name name')
    (hv : v.Alike (renamed n m marks) v') :
    (s.withName f name v).Alike n m marks (s'.withName f name' v') where
  size := h.size.trans (Frames.next_put _ _ _ _).symm
  global := h.global
  frames := h.frames.put (biUnique_respellsIn f) hname hv
  fields := h.fields
  identity := h.identity
  printed := h.printed
  told := ⟨h.told.shown, h.told.events⟩

/-- Two frames are added, of which the names of the second are respelled if the frames are marked. -/
theorem withFrame (h : s.Alike n m marks s') {mark : Bool} {table table' : Bindings Value}
    (ht : table.Related (Respells n m mark) (Value.Alike (renamed n m marks)) table') :
    (s.withFrame table).Alike n m (marks ++ [mark]) (s'.withFrame table') := by
  have hmarks : marks <+: marks ++ [mark] := List.prefix_append _ _
  have hvalues : ∀ v v', Value.Alike (renamed n m marks) v v' →
      Value.Alike (renamed n m (marks ++ [mark])) v v' := fun v v' hv => hv.weaken (renamed_mono hmarks)
  have hnext : (marks ++ [mark])[s.frames.next]? = some mark := by
    rw [← h.size]
    exact List.getElem?_concat_length
  have htold := h.told.weaken (renamed_mono hmarks)
  refine ⟨?_, mark_mono hmarks h.global, ?_, h.fields.imp (fun _ _ _ _ hname => hname) hvalues,
    h.identity, h.printed, htold.shown, htold.events⟩
  · show _ = (s.frames.add table).next
    rw [Frames.next_add, List.length_append, h.size]
    rfl
  · refine (h.frames.imp (fun f hf name name' hname => ?_) hvalues).add
      (ht.imp (fun name name' hname => ?_) hvalues)
    -- Frames that were there have the mark that they had, as there are as many marks as frames.
    · obtain ⟨mark', hmark', hname⟩ := hname
      rw [List.getElem?_append_left (h.size.symm ▸ hf)] at hmark'
      exact ⟨mark', hmark', hname⟩
    -- The last mark is that of the new frame.
    · obtain ⟨mark', hmark', hname⟩ := hname
      cases hnext.symm.trans hmark'
      exact hname

end Store.Alike

/-! ## Stops -/

/-- Two runs stop for the same reason. The name of a local variable without a value may be respelled. -/
inductive Stop.Alike (n m : String) : Stop → Stop → Prop
  | same (stop : Stop) : Alike n m stop stop
  | missing : Alike n m (.missing n) (.missing m)

/-- A name that is missing in one run is missing, as it is spelled there, in the other. -/
theorem Stop.alike_missing {name name' : String} {changes : Bool} (h : Respells n m changes name name') :
    Stop.Alike n m (.missing name) (.missing name') := by
  rw [h.1]
  unfold respelled
  split
  · next hn =>
    rw [hn.2]
    exact .missing
  · exact .same _

/-! ## Names -/

/-- What the rule says of a use is how its name is respelled. -/
theorem NameRule.respells_use {name name' : Name} {a a' : Address}
    (h : (NameRule.inScope n m).use g name a name' a') :
    a' = a ∧ Respells n m (g.meets a) name.text name'.text :=
  ⟨h.1, congrArg Name.text h.2.1, h.2.2⟩

/-- A global name is left as it is. -/
theorem NameRule.use_global {name name' : Name} {a' : Address}
    (h : (NameRule.inScope n m).use g name .global name' a') : a' = .global ∧ name = name' := by
  have hmeets : g.meets .global = false := by cases g <;> rfl
  refine ⟨h.1, ?_⟩
  rw [h.2.1, hmeets, Name.respelled_false]

/-- What the rule says of a declaration is how its name is respelled. -/
theorem NameRule.respells_declare {name name' : Name} (h : (NameRule.inScope n m).declare g name name') :
    Respells n m g.own name.text name'.text :=
  ⟨congrArg Name.text h.1, h.2⟩

/-- A name that may be kept is one that is not respelled. -/
theorem NameRule.respells_keep {name : Name} (h : (NameRule.inScope n m).keep g name) :
    Respells n m g.own name.text name.text := by
  refine ⟨?_, fun hown => (h hown).2⟩
  cases hown : g.own with
  | false => exact respelled_false.symm
  | true => exact (respelled_of_ne (h hown).1).symm

/-- The name of the receiver may be used anywhere if it is not one of the two names. -/
theorem NameRule.use_this (hn : n ≠ thisName) (hm : m ≠ thisName) (line : Int) (a : Address) :
    (NameRule.inScope n m).use g ⟨thisName, line⟩ a ⟨thisName, line⟩ a :=
  ⟨rfl, congrArg (Name.mk · line) (respelled_of_ne hn.symm).symm, fun _ => hm.symm⟩

end Treewalk
