import Treewalk.Proofs.Eval.Steps

/-!
# What native functions keep

A native function is shown values and names values that it was shown, so what it gives is genuine if all
that it was shown is (`Good.named`). What it has done leaves a good store behind, request by request
(`leads_respond`): a field is written, an instance is made, and a method is bound to its instance as it is
in a program. So a call of a native function keeps what a call of any other function does
(`Stands.callNative`), and the methods that its work binds stand (`Stands.of_native`).
-/

namespace Treewalk

open Eval

namespace History

variable {h : History} {host : Host} {W W₁ : World} {s s' s₁ s₂ : Store} {w : Work}

/-! ## Values -/

/-- What a native function names is genuine: it holds no functions, or it was shown. -/
theorem Good.named (hgood : h.Good host W s) (g : Given) : h.Genuine W s (named s g) := by
  cases g with
  | plain l => exact genuine_literal l
  | native index arity => trivial
  | shown handle =>
    show h.Genuine W s (s.shown[handle]?.getD .nil)
    cases hv : s.shown[handle]? with
    | none => trivial
    | some v => exact hgood.shown v (Array.mem_of_getElem? hv)

/-- The arguments of a native function are shown to it. -/
theorem later_announce (hgood : h.Good host W s) {index : Nat} {vs : List Value}
    (hvs : ∀ v ∈ vs, h.Genuine W s v) (hs₁ : announce index vs s = .ok () s₁) :
    h.Later host W s W s₁ noNames := by
  cases hs₁
  refine .of_frames hgood rfl (Nat.le_refl _) hgood.fields fun v hv => ?_
  rcases Array.mem_append.1 hv with hv | hv
  · exact hgood.shown v hv
  · exact hvs v (List.mem_toArray.1 hv)

/-- What is shown to a native function is remembered, if it was genuine. -/
theorem leads_reveal (hgood : h.Good host W s) {v : Value} (hv : h.Genuine W s v) :
    h.Leads host W s noNames (fun _ _ _ => True) (reveal v s) := by
  refine ⟨W, .of_frames hgood rfl (Nat.le_refl _) hgood.fields fun u hu => ?_, trivial⟩
  rcases Array.mem_push.1 hu with hu | rfl
  · exact hgood.shown u hu
  · exact hv

/-! ## Requests -/

/-- The methods that work binds are bound in the runs of a history. -/
def BindsAll (h : History) (host : Host) (w : Work) (s : Store) : Prop :=
  ∀ m receiver s', w.Binds s m receiver s' → h.happens host (.bind m receiver s')

/-- What is left of the work binds some of its methods. -/
theorem BindsAll.of_reaches {w' : Work} (hbinds : h.BindsAll host w s) (hw : w.Reaches s w' s') :
    h.BindsAll host w' s' :=
  fun m receiver s'' hb => hbinds m receiver s'' (hw.binds hb)

/-- The methods that are bound once a request is answered are bound in the runs. -/
theorem BindsAll.answered {r : Request} {next : Answer → Work} {a : Answer}
    (hbinds : h.BindsAll host (.ask r next) s) (hr : respond r s = .ok a s₁) :
    h.BindsAll host (next a) s₁ :=
  hbinds.of_reaches (.answered hr (.refl _ _))

/-- What a native function asks for leaves a good store behind. -/
theorem leads_answer (hgood : h.Good host W s) {r : Request} {next : Answer → Work}
    (hbinds : h.BindsAll host (.ask r next) s) :
    h.Leads host W s noNames (fun _ _ _ => True) (answer r s) := by
  cases r with
  | same a b => exact .pure hgood trivial
  | property object name =>
    cases hp : hasProperty s (named s object) name with
    | false =>
      rw [answer_noProperty hp]
      exact .pure hgood trivial
    -- Reading a property may bind a method, and the work of the function was known to bind it.
    | true =>
      rw [answer_property hp]
      have hproperty : h.Leads host W s noNames h.Genuine (property (named s object) ⟨name, 0⟩ s) := by
        refine leads_property hgood (hgood.named object) (.inr hp) fun i c m hv hfield hm => ?_
        exact hbinds m _ s ⟨object, name, next, i, c, .refl _ _, rfl, hv, hfield, hm⟩
      refine hproperty.bind fun v s₁ hv => ?_
      obtain ⟨W₁, hl₁, hv₁⟩ := hproperty.ok hv
      exact .after hl₁ (leads_reveal hl₁.good hv₁)
  | setField object name value =>
    rcases answer_setField object value name s with ⟨i, c, -, hanswer⟩ | hanswer
    · rw [hanswer]
      exact ⟨W, later_setField hgood (hgood.named value) i name, trivial⟩
    · rw [hanswer]
      exact .pure hgood trivial
  -- A new class has no methods, so nothing needs to be said of them.
  | newClass name =>
    have hl : h.Later host W s W { s with nextIdentity := s.nextIdentity + 1 } noNames :=
      .of_frames hgood rfl (Nat.le_refl _) hgood.fields hgood.shown
    exact .after hl (leads_reveal hl.good fun n m hm => by cases hm)
  | newObject c =>
    rcases answer_newObject c s with ⟨i, k, hk, hanswer⟩ | hanswer
    -- The new instance has the methods of a class that was shown, which are genuine.
    · have hclass : h.Genuine W s (.class i k) := hk ▸ hgood.named c
      obtain ⟨hl₁, hreceiver, -⟩ := later_newObject hgood hclass (rfl : newObject k s = _)
      rw [hanswer]
      exact .after hl₁ (leads_reveal hl₁.good hreceiver)
    · rw [hanswer]
      exact .pure hgood trivial
  | print line => exact ⟨W, .of_frames hgood rfl (Nat.le_refl _) hgood.fields hgood.shown, trivial⟩

/-- A request is answered from a good store, which is good afterwards. -/
theorem leads_respond (hgood : h.Good host W s) {r : Request} {next : Answer → Work}
    (hbinds : h.BindsAll host (.ask r next) s) :
    h.Leads host W s noNames (fun _ _ _ => True) (respond r s) := by
  have hanswer := leads_answer hgood hbinds
  refine hanswer.bind fun a s₁ ha => ?_
  obtain ⟨W₁, hl₁, -⟩ := hanswer.ok ha
  have hrecord : h.Later host W₁ s₁ W₁ { s₁ with events := .answered a :: s₁.events } noNames :=
    .of_frames hl₁.good rfl (Nat.le_refl _) hl₁.good.fields hl₁.good.shown
  exact ⟨W₁, hl₁.trans hrecord, trivial⟩

/-! ## Work -/

/-- Wherever work comes, the store is good. -/
theorem later_of_reaches {w' : Work} (hw : w.Reaches s w' s') (hgood : h.Good host W s)
    (hbinds : h.BindsAll host w s) : ∃ W', h.Later host W s W' s' noNames := by
  induction hw generalizing W with
  | refl => exact ⟨W, .refl hgood⟩
  | answered hr _ ih =>
    obtain ⟨W₁, hl₁, -⟩ := (leads_respond hgood hbinds).ok hr
    obtain ⟨W₂, hl₂⟩ := ih hl₁.good (hbinds.answered hr)
    exact ⟨W₂, hl₁.trans hl₂⟩

/-- Work gives a genuine value, or stops for a reason that is its own. -/
theorem leads_perform (hgood : h.Good host W s) (hbinds : h.BindsAll host w s)
    (hfails : ∀ line message internal s', w.Reaches s (.fail line message internal) s' →
      host.Explains (.fault line (.native message internal))) :
    h.Leads host W s noNames h.Genuine (perform w s) := by
  -- By induction on the work: what may be bound or fail after an answer may be so after the request.
  induction w generalizing W s with
  | give v => exact .pure hgood (hgood.named v)
  | fail line message internal => exact .throw hgood (hfails line message internal s (.refl _ _))
  | raise kind text => exact .throw hgood trivial
  | ask r next ih =>
    have hrespond := leads_respond hgood hbinds
    refine hrespond.bind fun a s₁ ha => ?_
    obtain ⟨W₁, hl₁, -⟩ := hrespond.ok ha
    refine .after hl₁ (ih a hl₁.good (hbinds.answered ha) fun line message internal s' hw => ?_)
    exact hfails line message internal s' (.answered ha hw)

namespace Stands

variable {d i arity : Nat} {vs : List Value} {native : Native}

/-- Wherever the work of a native function comes, the store is good, and what is left of the work leaves a
good store behind. -/
theorem rest (hs : h.Stands host W (.call (d + 1) (.native i arity) vs s))
    (hnative : host.natives[i]? = some native) (hs₁ : announce i vs s = .ok () s₁)
    (hw : (native s₁.events).Reaches s₁ w s₂) : ∃ W₂, h.Later host W s W₂ s₂ noNames ∧
      h.Leads host W₂ s₂ noNames h.Genuine (perform w s₂) := by
  have hbinds : h.BindsAll host (native s₁.events) s₁ := fun _ _ _ hbind =>
    h.calls hs.happens (.fetched hnative hs₁ hbind)
  have hl₁ : h.Later host W s W s₁ noNames := later_announce hs.good hs.proper.2.1 hs₁
  obtain ⟨W₂, hl₂⟩ := later_of_reaches hw hl₁.good hbinds
  refine ⟨W₂, hl₁.trans hl₂, leads_perform hl₂.good (hbinds.of_reaches hw) ?_⟩
  intro line message internal s' hfail
  exact .inr ⟨i, native, s₁, s', message, internal, hnative, rfl, hw.trans hfail⟩

/-- A call of a native function leaves a good store behind, and gives a genuine value. -/
theorem callNative (hs : h.Stands host W (.call (d + 1) (.native i arity) vs s))
    (hnative : host.natives[i]? = some native) :
    h.Leads host W s noNames h.Genuine (Eval.callNative i native vs s) := by
  obtain ⟨W₁, hl₁, hwork⟩ := hs.rest hnative rfl (.refl _ _)
  exact .after hl₁ hwork

/-- A method that the work of a native function binds is one of a class, and it is bound to an
instance. -/
theorem of_native (hs : h.Stands host W (.call (d + 1) (.native i arity) vs s))
    (hnative : host.natives[i]? = some native) (hs₁ : announce i vs s = .ok () s₁) {m : Closure}
    {receiver : Value} (hbind : (native s₁.events).Binds s₁ m receiver s₂) :
    ∃ W', h.Later host W s W' s₂ noNames ∧ h.Stands host W' (.bind m receiver s₂) := by
  have hhappens := h.calls hs.happens (.fetched hnative hs₁ hbind)
  obtain ⟨object, name, next, j, c, hreaches, hobject, rfl, -, hm⟩ := hbind
  obtain ⟨W₂, hl₂, -⟩ := hs.rest hnative hs₁ hreaches
  have hreceiver := hl₂.good.named object
  rw [hobject] at hreceiver
  exact ⟨W₂, hl₂, hhappens, hl₂.good, hreceiver.2 name m hm, hreceiver, j, c, rfl⟩

end Stands

end History

end Treewalk
