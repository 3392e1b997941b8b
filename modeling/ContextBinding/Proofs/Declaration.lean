import ContextBinding.Proofs.Retirement
import ContextBinding.Proofs.Visit

/-! What a run leaves of the declarations. Only a method that was bound gives way in
 properties and goes out of use, and only what stands in for one overrides other methods
 than before. The overrides that are known to a run are those of a program that it came
 through. -/

namespace ContextBinding

/-- A method stands in for a bound one. -/
def BindingMap.StandsIn (m : BindingMap) (id : MethodId) : Prop :=
  ∃ method b, m.get? method = some b ∧ b.replacement = id

/-- Methods of a group were bound, all of them in one mode. -/
structure BindingMap.Gains (mode : BindingMode) (group : List MethodId) (m m' : BindingMap) :
    Prop where
  kept : m.Extends m'
  new : ∀ id b, m'.get? id = some b → m.get? id = some b ∨ id ∈ group ∧ b.mode = mode

theorem BindingMap.StandsIn.later {m m' : BindingMap} {id : MethodId} (h : m.StandsIn id)
    (hKept : m.Extends m') : m'.StandsIn id := by
  obtain ⟨method, b, hGet, hStands⟩ := h
  exact ⟨method, b, hKept method b hGet, hStands⟩

theorem BindingMap.not_standsIn {m : BindingMap} {id : MethodId} (h : m.isReplacement id = false) :
    ¬ m.StandsIn id := by
  rintro ⟨method, b, hGet, hStands⟩
  have hFound : (m.toList.find? fun b => b.replacement == id).isSome = true :=
    List.find?_isSome.mpr ⟨b, Table.mem_values_of_get? hGet, by simp [hStands]⟩
  unfold isReplacement byReplacement? at h
  rw [hFound] at h
  cases h

namespace Propagation

/-- What may have given way by some point of a run. -/
def license (s : Propagation) : License where
  replaced id := ∃ b, s.bindings.get? id = some b
  standing := s.bindings.StandsIn
  mapped := s.bindings.StandsIn
  dropped id := s.options.retireReplaced = true ∧ ∃ b, s.bindings.get? id = some b

/-- What may give way between two points of a run. Only what came to stand in for a method
between them overrides other methods than before. -/
def between (s t : Propagation) : License :=
  { t.license with
    mapped := fun id => ∃ method b, t.bindings.get? method = some b ∧
      s.bindings.get? method = none ∧ b.replacement = id }

/-- New methods belong to types that the run declared, or stand in for bound ones. -/
def Brings (s t : Propagation) : Prop :=
  ∀ id m, t.program.method? id = some m →
    (∃ m₀, s.program.method? id = some m₀) ∨ t.closures.Owns m.owner ∨ t.bindings.StandsIn id

/-- A later point of a run, with the declarations that there were. -/
structure Progresses (s t : Propagation) : Prop extends s.Advances t where
  steady : s.program.Steady (s.between t) t.program
  brings : s.Brings t
  overrides : t.graph.overrides = s.graph.overrides ∨ ∃ q, t.graph.overrides = .build q ∧
    s.program.Grows q ∧ s.program.Steady t.license q ∧ q.Grows t.program
  modes : ∀ id b, t.bindings.get? id = some b →
    s.bindings.get? id = some b ∨ b.mode ≠ .unbound

/-- A step of a run leaves the declarations. -/
def Progressed (s t : Propagation) : Prop := s.closures.Keyed → s.Progresses t

/-- From a state with some options, a step leaves them, and the declarations up to a
license. -/
def Leaves (o : PropagationOptions) (l : License) (s t : Propagation) : Prop :=
  s.options = o → t.options = o ∧ s.program.Steady l t.program

/-- The bindings stay as they are. -/
def SameBindings (s t : Propagation) : Prop := t.bindings = s.bindings

/-- The methods of a group are bound at the end of a step, which binds them in one mode, and
no other ones. -/
structure Binds (mode : BindingMode) (group : List MethodId) (s t : Propagation) : Prop where
  progressed : Progressed s t
  gains : s.bindings.Gains mode group t.bindings
  bound : ∀ id ∈ group, ∃ b, t.bindings.get? id = some b

variable {S : MethodId → Prop} {o : PropagationOptions} {l : License} {s t u : Propagation}

namespace Advances

theorem license_le (h : s.Advances t) : s.license.Le t.license where
  replaced _ := fun ⟨b, hGet⟩ => ⟨b, h.bindings _ b hGet⟩
  standing _ := fun ⟨method, b, hGet, hStands⟩ => ⟨method, b, h.bindings method b hGet, hStands⟩
  mapped _ := fun ⟨method, b, hGet, hStands⟩ => ⟨method, b, h.bindings method b hGet, hStands⟩
  dropped _ := fun ⟨hRetire, b, hGet⟩ => ⟨h.options ▸ hRetire, b, h.bindings _ b hGet⟩

theorem between_le_later (h : t.Advances u) : (s.between t).Le (s.between u) where
  replaced := h.license_le.replaced
  standing := h.license_le.standing
  mapped _ := fun ⟨method, b, hGet, hFree, hStands⟩ =>
    ⟨method, b, h.bindings method b hGet, hFree, hStands⟩
  dropped := h.license_le.dropped

theorem between_le_earlier (h : s.Advances t) : (t.between u).Le (s.between u) where
  replaced _ := id
  standing _ := id
  mapped _ := fun ⟨method, b, hGet, hFree, hStands⟩ => ⟨method, b, hGet, h.bindings.free hFree, hStands⟩
  dropped _ := id

end Advances

theorem between_le_license (s t : Propagation) : (s.between t).Le t.license where
  replaced _ := id
  standing _ := id
  mapped _ := fun ⟨method, b, hGet, _, hStands⟩ => ⟨method, b, hGet, hStands⟩
  dropped _ := id

theorem Brings.trans (h : s.Brings t) (h' : t.Brings u) (hAdvances : t.Advances u) :
    s.Brings u := by
  intro id m hMethod
  rcases h' id m hMethod with ⟨m₁, hMethod₁⟩ | hNew
  · rcases h id m₁ hMethod₁ with hOld | hOwned | hStands
    · exact Or.inl hOld
    · have hOwner := (hAdvances.grows.method_persists hMethod₁ hMethod).owner
      exact Or.inr (Or.inl (hOwner ▸ hAdvances.learns.owned _ hOwned))
    · exact Or.inr (Or.inr (hAdvances.license_le.standing id hStands))
  · exact Or.inr hNew

/-- Where the methods are the same, nothing is new. -/
theorem Brings.of_methods (h : t.program.methods = s.program.methods) : s.Brings t :=
  fun _ m hMethod => Or.inl ⟨m, by rwa [Program.method?, ← h]⟩

theorem Changed.brings (h : Changed S s t) (hKeyed : s.closures.Keyed) : s.Brings t := by
  intro id m hMethod
  rcases (h.code hKeyed).program.code id m hMethod with ⟨m₀, hMethod₀, -⟩ | ⟨-, hOwned⟩
  · exact Or.inl ⟨m₀, hMethod₀⟩
  · exact Or.inr (Or.inl hOwned)

namespace Progresses

protected theorem refl (h : s.closures.Keyed) : s.Progresses s :=
  ⟨.refl h, .refl _, .of_methods rfl, Or.inl rfl, fun _ _ => Or.inl⟩

theorem licensed (h : s.Progresses t) : s.program.Steady t.license t.program :=
  h.steady.mono (between_le_license s t)

/-- Steps after each other lead on, also where the second one may go as far as both. -/
theorem append (h : s.Progresses t) (hAdvances : t.Advances u)
    (hSteady : t.program.Steady (s.between u) u.program) (hBrings : t.Brings u)
    (hOverrides : u.graph.overrides = t.graph.overrides ∨ ∃ q, u.graph.overrides = .build q ∧
      t.program.Grows q ∧ t.program.Steady u.license q ∧ q.Grows u.program)
    (hModes : ∀ id b, u.bindings.get? id = some b →
      t.bindings.get? id = some b ∨ b.mode ≠ .unbound) : s.Progresses u := by
  have hLe := hAdvances.license_le
  refine ⟨h.toAdvances.trans hAdvances,
    (h.steady.mono hAdvances.between_le_later).trans hSteady,
    h.brings.trans hBrings hAdvances, ?_,
    fun id b hGet => (hModes id b hGet).elim (h.modes id b) Or.inr⟩
  rcases hOverrides with hSame | ⟨q, hBuilt, hGrows, hSteady, hLater⟩
  · rcases h.overrides with hSame' | ⟨q, hBuilt, hGrows, hSteady, hLater⟩
    · exact Or.inl (hSame.trans hSame')
    · exact Or.inr ⟨q, hSame.trans hBuilt, hGrows, hSteady.mono hLe, hLater.trans hAdvances.grows⟩
  · exact Or.inr ⟨q, hBuilt, h.grows.trans hGrows, (h.licensed.mono hLe).trans hSteady, hLater⟩

protected theorem trans (h : s.Progresses t) (h' : t.Progresses u) : s.Progresses u :=
  h.append h'.toAdvances (h'.steady.mono h.toAdvances.between_le_earlier) h'.brings h'.overrides
    h'.modes

/-- After something came to stand in for methods, it may override other ones. -/
theorem change (h : s.Progresses t) (hChanged : Changed S t u)
    (hLeaves : Leaves t.options (s.between t) t u) : s.Progresses u := by
  have hAdvances := hChanged.advanced h.keyed
  exact h.append hAdvances ((hLeaves rfl).2.mono hAdvances.between_le_later)
    (hChanged.brings h.keyed) (Or.inl (congrArg _ hChanged.graph))
    fun _ _ hGet => Or.inl (hChanged.bindings ▸ hGet)

end Progresses

instance : IsPreorder Propagation Progressed where
  refl _ h := .refl h
  trans _ _ _ h h' hKeyed := (h hKeyed).trans (h' (h hKeyed).keyed)

instance : IsPreorder Propagation (Leaves o l) where
  refl _ h := ⟨h, .refl _⟩
  trans _ _ _ h h' hOptions :=
    ⟨(h' (h hOptions).1).1, (h hOptions).2.trans (h' (h hOptions).1).2⟩

instance : IsPreorder Propagation SameBindings where
  refl _ := rfl
  trans _ _ _ h h' := Eq.trans h' h

namespace Binds

variable {mode : BindingMode} {group group' : List MethodId}

theorem of_same (h : Progressed s t) (hSame : SameBindings s t) : Binds mode [] s t :=
  ⟨h, ⟨fun _ _ hGet => hSame ▸ hGet, fun _ _ hGet => Or.inl (hSame ▸ hGet)⟩, by simp⟩

protected theorem trans (h : Binds mode group s t) (h' : Binds mode group' t u) :
    Binds mode (group ++ group') s u where
  progressed := IsTrans.trans _ _ _ h.progressed h'.progressed
  gains := by
    refine ⟨IsTrans.trans _ _ _ h.gains.kept h'.gains.kept, fun id b hGet => ?_⟩
    rcases h'.gains.new id b hGet with hGet | ⟨hMem, hMode⟩
    · refine (h.gains.new id b hGet).imp_right (And.imp_left ?_)
      exact fun hMem => List.mem_append_left _ hMem
    · exact Or.inr ⟨List.mem_append_right _ hMem, hMode⟩
  bound id hMem := by
    rcases List.mem_append.mp hMem with hMem | hMem
    · obtain ⟨b, hGet⟩ := h.bound id hMem
      exact ⟨b, h'.gains.kept id b hGet⟩
    · exact h'.bound id hMem

/-- Steps that bind nothing change nothing about what was bound before them. -/
theorem before (h : Progressed s t) (hSame : SameBindings s t) (h' : Binds mode group t u) :
    Binds mode group s u :=
  (of_same h hSame).trans h'

theorem after (h : Binds mode group s t) (h' : Progressed t u) (hSame : SameBindings t u) :
    Binds mode group s u := by
  simpa using h.trans (of_same h' hSame)

end Binds

/-- A change of code with a license. -/
theorem Changed.progressed (h : Changed S s t) (hLeaves : Leaves s.options (s.between s) s t) :
    Progressed s t :=
  fun hKeyed => (Progresses.refl hKeyed).change h hLeaves

theorem Edited.progressed (h : Edited S s t) : Progressed s t :=
  h.toChanged.progressed fun _ => ⟨h.options, h.steady.mono (License.none_le _)⟩

theorem Edited.leaves (h : Edited S s t) : Leaves o l s t :=
  fun hOptions => ⟨h.options.trans hOptions, h.steady.mono (License.none_le _)⟩

end Propagation

namespace Propagate

open Propagation (Advanced Changed Edited Progressed Leaves SameBindings Binds)

variable {α : Type} {S : MethodId → Prop} {o : PropagationOptions} {l : License}
  {s t : Propagation}

theorem progresses_edited {x : Propagate α} (h : Keeps (Edited S) x) : Keeps Progressed x :=
  h.mono fun _ _ h => h.progressed

theorem leaves_edited {x : Propagate α} (h : Keeps (Edited S) x) : Keeps (Leaves o l) x :=
  h.mono fun _ _ h => h.leaves

theorem leaves_edit {e : Edit α} (h : Keeps (Program.Steady l) e) :
    Keeps (Leaves o l) (edit e) := by
  intro s a t hRun hOptions
  obtain ⟨p, hEdit, rfl⟩ := edit_ok.mp hRun
  exact ⟨hOptions, h hEdit⟩

/-- Deriving a caller anew leaves the overrides alone. -/
theorem progresses_rederive {caller : MethodId} :
    Keeps Progressed (graph fun p => GraphEdit.rederive p caller) := by
  intro s u t h hKeyed
  have hAdvances := advances_graph h hKeyed
  obtain ⟨v, hDerive, rfl⟩ := graph_ok.mp h
  obtain ⟨hSame, -, -⟩ := GraphEdit.rederive_lists (o := .empty) (.empty _) hDerive
  exact ⟨hAdvances, .refl _, .of_methods rfl, Or.inl hSame, fun _ _ => Or.inl⟩

/-- The overrides are taken from the program as it is. -/
theorem progresses_rebuildOverrides :
    Keeps Progressed (graph fun p => GraphEdit.update fun g => g.rebuildOverrides p) := by
  intro s u t h hKeyed
  have hAdvances := advances_graph h hKeyed
  obtain ⟨v, hUpdate, rfl⟩ := graph_ok.mp h
  obtain rfl := GraphEdit.update_ok.mp hUpdate
  exact ⟨hAdvances, .refl _, .of_methods rfl,
    Or.inr ⟨s.program, rfl, .refl _, .refl _, .refl _⟩, fun _ _ => Or.inl⟩

theorem progresses_bindMethod {b : Binding} (hMode : b.mode ≠ .unbound) :
    Keeps Progressed (bindMethod b) := by
  intro s u t h hKeyed
  have hAdvances := advances_bindMethod h hKeyed
  obtain ⟨m, hBind, rfl⟩ := bindMethod_ok h
  refine ⟨hAdvances, .refl _, .of_methods rfl, Or.inl rfl, fun id c hGet => ?_⟩
  refine ((BindingMap.bind_ok hBind).2.2 id c hGet).imp_right ?_
  rintro ⟨rfl, -⟩
  exact hMode

theorem progresses_displayHandle? {method : MethodId} :
    Keeps Progressed (displayHandle? method) := by
  intro s handle t h hKeyed
  have hAdvances := advances_displayHandle? h hKeyed
  rcases displayHandle?_ok h with rfl | ⟨m, field, p, -, -, -, -, -, hField, rfl⟩
  · exact .refl hKeyed
  · obtain ⟨-, -, -, hMethods, -⟩ := Program.addField_ok hField
    exact ⟨hAdvances, Program.addField_steady hField, .of_methods hMethods, Or.inl rfl,
      fun _ _ => Or.inl⟩

theorem progresses_adaptInPlace {site : RootedMethod} {places : List NeedySite} :
    Keeps Progressed (adaptInPlace site places) := by
  refine Keeps.bind (Keeps.mapM fun place _ => ?_) fun outcomes => Keeps.ite ?_ (Keeps.pure _)
  · exact progresses_edited (keeps_adaptSite (S := fun _ => True) trivial)
  · exact Keeps.bind (progresses_edited (S := fun _ => False) keeps_count) fun _ =>
      progresses_rederive

/-- A copy that stands in for a method is new, of the shape that was asked for, and listed
with its owner. -/
theorem makeCopy_ok {source copy : MethodId} {owner : TypeId} {name : String}
    {params : List TypeRef} {shape : MethodShape}
    (h : makeCopy source owner name params shape s = .ok copy t) :
    ∃ m, s.program.method? source = some m ∧ copy = ⟨s.program.methods.length⟩ ∧
      s.program.Grows t.program ∧ s.program.Steady .none t.program ∧
      t.program.methods = s.program.methods ++
        [⟨owner, s.program.copyName owner name params, shape.copyParams m, m.returnType,
          (shape.copyFlags m).insert .contextReplacement, m.overrides, shape.copyBody m⟩] ∧
      t.program.Lists owner copy ∧ t = { s with work := { s.work with program := t.program } } := by
  unfold makeCopy at h
  obtain ⟨p, _, hProgram, h⟩ := Step.bind_ok.mp h
  obtain ⟨rfl, rfl⟩ := program_ok.mp hProgram
  obtain ⟨new, _, hClone, h⟩ := Step.bind_ok.mp h
  obtain ⟨p, hCloned, rfl⟩ := edit_ok.mp hClone
  obtain ⟨_, _, hMark, h⟩ := Step.bind_ok.mp h
  obtain ⟨rfl, rfl⟩ := Step.pure_ok.mp h
  obtain ⟨q, hMarked, rfl⟩ := edit_ok.mp hMark
  obtain ⟨m, hSource, rfl, hGrows, -, hMethods⟩ := Program.cloneMethod_ok hCloned
  have hConfined : p.Confined (fun _ => False) (fun _ => False) q := keeps_markReplacement hMarked
  refine ⟨m, hSource, rfl, hGrows.trans hConfined.grows, ?_, ?_, ?_, rfl⟩
  · obtain ⟨-, rfl⟩ := Program.modifyMethod_ok hMarked
    refine .trans (.modifyNewMethod (Program.cloneMethod_steady hCloned) (Nat.le_refl _) fun m h => ?_)
      (.of_same rfl rfl)
    exact (MethodDef.Persists.insertMark m rfl).retired h
  · obtain ⟨-, rfl⟩ := Program.modifyMethod_ok hMarked
    change p.methods.modify s.program.methods.length _ = _
    rw [hMethods, Program.modify_last]
  · have hListed := Program.cloneMethod_lists hCloned
    obtain ⟨-, rfl⟩ := Program.modifyMethod_ok hMarked
    exact hListed

/-- A copy that is bound to what it was made of leads on. -/
theorem progresses_bindCopy {source copy method : MethodId} {owner : TypeId} {name : String}
    {params : List TypeRef} {shape : MethodShape} {mode : BindingMode} {u : Unit} {r : Propagation}
    (hMode : mode ≠ .unbound) (hCopy : makeCopy source owner name params shape s = .ok copy r)
    (h : bindMethod ⟨method, copy, mode⟩ r = .ok u t) : Progressed s t := by
  intro hKeyed
  have hMade := advances_makeCopy hCopy hKeyed
  obtain ⟨m, -, rfl, hGrows, hSteady, hMethods, -, hSame⟩ := makeCopy_ok hCopy
  have hBound := progresses_bindMethod hMode h hMade.keyed
  have hKept : r.bindings = s.bindings := by rw [hSame]
  refine ⟨hMade.trans hBound.toAdvances,
    (hSteady.mono (License.none_le _)).trans (hBound.steady.mono hMade.between_le_earlier), ?_, ?_,
    fun id b hGet => (hBound.modes id b hGet).imp_left fun h => hKept ▸ h⟩
  · intro id m' hMethod'
    obtain ⟨bindings, -, rfl⟩ := bindMethod_ok h
    have hStands := bindMethod_bound h
    rcases Nat.lt_trichotomy id.index s.program.methods.length with hOld | hNew | hOut
    · exact Or.inl ⟨_, List.getElem?_eq_getElem hOld⟩
    · refine Or.inr (Or.inr ⟨method, _, hStands, ?_⟩)
      rw [← hNew]
    · have hMethod' : r.program.methods[id.index]? = some m' := hMethod'
      rw [hMethods, List.getElem?_eq_none (by rw [List.length_append]; exact hOut)] at hMethod'
      cases hMethod'
  · obtain ⟨bindings, -, rfl⟩ := bindMethod_ok h
    refine Or.inl ?_
    rw [hSame]

/-- A property gives way to what stands in for a bound accessor. -/
theorem leaves_alignProperty {into : Option TypeId} {method replacement : MethodId}
    (hReplaced : l.replaced method) (hStanding : l.standing replacement) :
    Keeps (Leaves o l) (alignProperty into method replacement) := by
  have hReads {β : Type} {f : Program → Except ModelError β} : Keeps (Leaves o l) (model f) :=
    leaves_edited (S := fun _ => False) keeps_model
  have hSwaps (a : Option MethodId) :
      l.Swaps a (if a = some method then some replacement else a) := by
    split
    · rename_i hSame
      exact Or.inr ⟨⟨method, hSame, hReplaced⟩, replacement, rfl, hStanding⟩
    · exact Or.inl rfl
  refine Keeps.bind hReads fun m => Keeps.ite (Keeps.bind hReads fun owner => ?_) (Keeps.pure _)
  split
  · exact Keeps.pure _
  · refine Keeps.ite (leaves_edit ?_) ?_
    · intro p u q h
      refine Program.steady_modifyMethod ?_ h
      have hBit : Flag.bit MethodFlag.specialName ≠ Flag.bit MethodFlag.retired := by decide
      have hSame (m : MethodDef) :
          ({ m with flags := m.flags.erase .specialName } : MethodDef).isRetired = m.isRetired := by
        simp [MethodDef.isRetired, FlagSet.has_erase, hBit]
      have hMark (m : MethodDef) : ({ m with flags := m.flags.erase .specialName } :
          MethodDef).isContextReplacement = m.isContextReplacement := by
        have hBit : Flag.bit MethodFlag.specialName ≠ Flag.bit MethodFlag.contextReplacement := by
          decide
        simp [MethodDef.isContextReplacement, FlagSet.has_erase, hBit]
      exact fun m => ⟨Or.inr rfl, Or.inl (Or.inl hStanding), Or.inl hStanding, hMark m,
        fun h => Or.inl (hSame m ▸ h), fun h => (hSame m).symm ▸ h⟩
    · split
      · refine leaves_edit fun p u q h => Program.steady_modifyType (fun first gone t => ?_) h
        refine .of_added rfl rfl ?_ (List.append_nil _).symm fun _ h => (List.not_mem_nil h).elim
        intro i a hAt
        refine ⟨_, (List.getElem?_map ..).trans (congrArg _ hAt), ?_⟩
        exact ⟨hSwaps a.getter, hSwaps a.setter⟩
      · refine Keeps.bind hReads fun target => Keeps.ite ?_ (Keeps.pure _)
        refine Keeps.bind Keeps.get fun s => leaves_edited (S := fun _ => False) ?_
        exact keeps_edit fun N => Program.keeps_addProperty

theorem leaves_mapOverrides {bound : List (MethodId × MethodId)} {replacement : MethodId}
    (hMapped : l.mapped replacement) : Keeps (Leaves o l) (mapOverrides bound replacement) := by
  refine Keeps.bind (leaves_edited (S := fun _ => False) keeps_model) fun m => ?_
  refine Keeps.bind Keeps.get fun s => Keeps.ite ?_ (Keeps.pure _)
  refine leaves_edit (Program.steady_modifyMethod fun m => ?_)
  exact ⟨Or.inl hMapped, Or.inr rfl, Or.inr rfl, rfl, Or.inl, fun h => h⟩

/-- Retiring a bound method takes it out of use, and no other one. -/
theorem leaves_retireBound {method : MethodId}
    (hDropped : o.retireReplaced = true → l.dropped method) : Keeps (Leaves o l) (do
      let m ← model fun p => p.methodDef method
      if (← get).options.retireReplaced && !m.isRetired then edit (Program.retireMethod method)
      pure m.isVirtual : Propagate Bool) := by
  intro s isVirtual t h hOptions
  obtain ⟨m, _, hModel, h⟩ := Step.bind_ok.mp h
  obtain ⟨-, rfl⟩ := model_ok.mp hModel
  obtain ⟨_, _, hGet, h⟩ := Step.bind_ok.mp h
  obtain ⟨rfl, rfl⟩ := Step.get_ok.mp hGet
  split at h
  · rename_i hRetire
    obtain ⟨hRetire, -⟩ := Bool.and_eq_true_iff.mp hRetire
    obtain ⟨_, _, hEdit, h⟩ := Step.bind_ok.mp h
    obtain ⟨-, rfl⟩ := Step.pure_ok.mp h
    obtain ⟨p, hRetired, rfl⟩ := edit_ok.mp hEdit
    exact ⟨hOptions, Program.retireMethod_steady (hDropped (hOptions ▸ hRetire)) hRetired⟩
  · obtain ⟨-, rfl⟩ := Step.pure_ok.mp h
    exact ⟨hOptions, .refl _⟩

theorem progresses_deriveBound {bound : List (MethodId × MethodId)} {callers : List MethodId} :
    Keeps Progressed (do
      bound.forM fun e => do
        graph fun p => GraphEdit.rederive p e.1
        graph fun p => GraphEdit.rederive p e.2
        if (← model fun p => p.methodDef e.2).body.isSome then modify (.enqueue [e.2])
        modify (.count fun n => { n with transitions := n.transitions + 1 })
      modify (.enqueue callers) : Propagate Unit) := by
  refine Keeps.bind (Keeps.forM fun e _ => ?_) fun _ =>
    progresses_edited (S := fun _ => False) keeps_enqueue
  refine Keeps.bind progresses_rederive fun _ => Keeps.bind progresses_rederive fun _ => ?_
  refine progresses_edited (S := fun _ => False) (Keeps.bind keeps_model fun m => ?_)
  exact Keeps.ite (Keeps.bind keeps_enqueue fun _ => keeps_count) keeps_count

/-- Completing the transition of bound methods leaves the declarations. -/
theorem complete_progressed {bound : List (MethodId × MethodId)} {u : Unit}
    (hBound : ∀ e ∈ bound, ∃ b, s.bindings.get? e.1 = some b)
    (h : complete bound s = .ok u t) : Progressed s t := by
  unfold complete at h
  split at h
  · obtain ⟨_, _, hGet, h⟩ := Step.bind_ok.mp h
    obtain ⟨rfl, rfl⟩ := Step.get_ok.mp hGet
    obtain ⟨virtuals, s₁, hRetire, h⟩ := Step.bind_ok.mp h
    have hChanged : Changed (fun _ => False) s s₁ :=
      Keeps.mapM (fun e _ => changes_retireBound) hRetire
    have hLeaves : Leaves s.options (s.between s) s s₁ :=
      Keeps.mapM (fun e he => leaves_retireBound (l := s.between s) fun hOn => ⟨hOn, hBound e he⟩)
        hRetire
    refine IsTrans.trans _ _ _ (hChanged.progressed hLeaves) ?_
    exact Keeps.ite (Keeps.bind progresses_rebuildOverrides fun _ => progresses_deriveBound)
      progresses_deriveBound h
  · obtain ⟨-, rfl⟩ := Step.pure_ok.mp h
    exact refl s

theorem progresses_inlineInitUnit {constructor replacement : MethodId} :
    Keeps Progressed (inlineInitUnit constructor replacement) := by
  intro s u t h
  rcases inlineInitUnit_ok h with rfl | ⟨_, s₁, -, -, hEdited, hDerive⟩
  · exact refl s
  · exact IsTrans.trans _ _ _ hEdited.progressed (progresses_rederive hDerive)

theorem progresses_adoptInitUnit {context : ContextId} {method replacement : MethodId} :
    Keeps Progressed (adoptInitUnit context method replacement) := by
  intro s u t h
  unfold adoptInitUnit at h
  obtain ⟨_, _, hGet, h⟩ := Step.bind_ok.mp h
  obtain ⟨rfl, rfl⟩ := Step.get_ok.mp hGet
  split at h
  · obtain ⟨_, s₁, hSet, h⟩ := Step.bind_ok.mp h
    obtain rfl := Step.set_ok.mp hSet
    refine IsTrans.trans _ _ _ (fun hKeyed => ?_)
      (Keeps.ite progresses_inlineInitUnit (Keeps.pure _) h)
    refine ⟨⟨hKeyed, refl _, fun _ => Or.inl, .refl _, refl _, rfl, ?_⟩, .refl _, .of_methods rfl,
      Or.inl rfl, fun _ _ => Or.inl⟩
    exact ContextPlan.shape_replaceInitUnit ..
  · obtain ⟨-, rfl⟩ := Step.pure_ok.mp h
    exact refl s

theorem same_edit {e : Edit α} : Keeps SameBindings (edit e) := by
  intro s a t h
  obtain ⟨p, -, rfl⟩ := edit_ok.mp h
  exact rfl

theorem same_graph {e : Program → GraphEdit α} : Keeps SameBindings (graph e) := by
  intro s a t h
  obtain ⟨v, -, rfl⟩ := graph_ok.mp h
  exact rfl

theorem same_changed {x : Propagate α} (h : Keeps (Changed S) x) : Keeps SameBindings x :=
  h.mono fun _ _ h => h.bindings

theorem same_edited {x : Propagate α} (h : Keeps (Edited S) x) : Keeps SameBindings x :=
  same_changed (changes_edited h)

theorem same_complete {bound : List (MethodId × MethodId)} :
    Keeps SameBindings (complete bound) :=
  keeps_complete_of_changed (fun h => h.bindings) fun _ => same_graph

theorem same_displayHandle? {method : MethodId} : Keeps SameBindings (displayHandle? method) := by
  intro s handle t h
  rcases displayHandle?_ok h with rfl | ⟨m, field, p, -, -, -, -, -, -, rfl⟩ <;> exact rfl

theorem same_adaptInPlace {site : RootedMethod} {places : List NeedySite} :
    Keeps SameBindings (adaptInPlace site places) := by
  refine Keeps.bind (Keeps.mapM fun place _ => ?_) fun outcomes => Keeps.ite ?_ (Keeps.pure _)
  · exact same_edited (keeps_adaptSite (S := fun _ => True) trivial)
  · exact Keeps.bind (same_edited (S := fun _ => False) keeps_count) fun _ => same_graph

theorem same_makeCopy {source : MethodId} {owner : TypeId} {name : String}
    {params : List TypeRef} {shape : MethodShape} :
    Keeps SameBindings (makeCopy source owner name params shape) := by
  refine Keeps.bind (same_edited (S := fun _ => False) keeps_program) fun p => ?_
  exact Keeps.bind same_edit fun copy => Keeps.bind same_edit fun _ => Keeps.pure _

theorem same_adoptInitUnit {context : ContextId} {method replacement : MethodId} :
    Keeps SameBindings (adoptInitUnit context method replacement) := by
  intro s u t h
  unfold adoptInitUnit at h
  obtain ⟨_, _, hGet, h⟩ := Step.bind_ok.mp h
  obtain ⟨rfl, rfl⟩ := Step.get_ok.mp hGet
  split at h
  · obtain ⟨_, s₁, hSet, h⟩ := Step.bind_ok.mp h
    obtain rfl := Step.set_ok.mp hSet
    split at h
    · rcases inlineInitUnit_ok h with rfl | ⟨_, s₂, -, -, hEdited, hDerive⟩
      · exact rfl
      · exact IsTrans.trans _ _ _ hEdited.bindings (same_graph hDerive)
    · obtain ⟨-, rfl⟩ := Step.pure_ok.mp h
      exact rfl
  · obtain ⟨-, rfl⟩ := Step.pure_ok.mp h
    exact rfl

/-- What stands in for a method that moves is given, found on the type of the context or made
there. -/
theorem convertedReplacement_ok {method replacement : MethodId} {context : ContextId} {fresh : Bool}
    (h : convertedReplacement method context s = .ok (replacement, fresh) t) :
    let c := s.plan.context context
    (fresh = false ∧ s = t ∧ (c.replacementMethods.get? method = some replacement ∨
        ∃ m, s.program.method? method = some m ∧
          s.program.findCopy? c.generated m.name m.paramTypes false = some replacement)) ∨
      fresh = true ∧ ∃ m, s.program.method? method = some m ∧
        makeCopy method c.generated m.name m.paramTypes .instanceMethod s = .ok replacement t := by
  unfold convertedReplacement at h
  obtain ⟨_, _, hGet, h⟩ := Step.bind_ok.mp h
  obtain ⟨rfl, rfl⟩ := Step.get_ok.mp hGet
  cases hGiven : (s.plan.context context).replacementMethods.get? method with
  | some existing =>
      simp only [hGiven] at h
      obtain ⟨hSame, rfl⟩ := Step.pure_ok.mp h
      obtain ⟨rfl, rfl⟩ := Prod.mk.inj hSame
      exact Or.inl ⟨rfl, rfl, Or.inl hGiven⟩
  | none =>
      simp only [hGiven] at h
      obtain ⟨m, _, hModel, h⟩ := Step.bind_ok.mp h
      obtain ⟨hMethod, rfl⟩ := model_ok.mp hModel
      have hMethod := Program.methodDef_ok.mp hMethod
      obtain ⟨p, _, hProgram, h⟩ := Step.bind_ok.mp h
      obtain ⟨rfl, rfl⟩ := program_ok.mp hProgram
      cases hFound : s.program.findCopy? (s.plan.context context).generated m.name m.paramTypes
          false with
      | some existing =>
          simp only [hFound] at h
          obtain ⟨hSame, rfl⟩ := Step.pure_ok.mp h
          obtain ⟨rfl, rfl⟩ := Prod.mk.inj hSame
          exact Or.inl ⟨rfl, rfl, Or.inr ⟨m, hMethod, hFound⟩⟩
      | none =>
          simp only [hFound] at h
          obtain ⟨copy, s₁, hCopy, h⟩ := Step.bind_ok.mp h
          obtain ⟨hSame, rfl⟩ := Step.pure_ok.mp h
          obtain ⟨rfl, rfl⟩ := Prod.mk.inj hSame
          exact Or.inr ⟨rfl, m, hMethod, hCopy⟩

/-- Binding a method binds that method only. -/
theorem bindMethod_binds {b : Binding} {u : Unit} (hMode : b.mode ≠ .unbound)
    (h : bindMethod b s = .ok u t) : Binds b.mode [b.method] s t := by
  have hProgressed := progresses_bindMethod hMode h
  obtain ⟨m, hBind, rfl⟩ := bindMethod_ok h
  obtain ⟨hKept, hBound, hNew⟩ := BindingMap.bind_ok hBind
  refine ⟨hProgressed, ⟨hKept, fun id c hGet => ?_⟩, fun id hMem => ?_⟩
  · refine (hNew id c hGet).imp_right ?_
    rintro ⟨rfl, rfl⟩
    exact ⟨List.mem_singleton.mpr rfl, rfl⟩
  · obtain rfl := List.mem_singleton.mp hMem
    exact ⟨b, hBound⟩

/-- So does binding it to what is there, or to a copy made for it. -/
theorem bindStanding_binds {method replacement : MethodId} {mode : BindingMode} {u : Unit}
    {r : Propagation} (hMode : mode ≠ .unbound)
    (hStanding : s = r ∨ ∃ source owner name params shape,
      makeCopy source owner name params shape s = .ok replacement r)
    (h : bindMethod ⟨method, replacement, mode⟩ r = .ok u t) : Binds mode [method] s t := by
  have hBinds : Binds mode [method] r t := bindMethod_binds hMode h
  rcases hStanding with rfl | ⟨source, owner, name, params, shape, hCopy⟩
  · exact hBinds
  · have hKept : SameBindings s r := same_makeCopy hCopy
    exact ⟨progresses_bindCopy hMode hCopy h, hKept ▸ hBinds.gains, hBinds.bound⟩

/-- What a step for methods of a group reports came to stand in for them. -/
def Reports (s : Propagation) (made : List (MethodId × MethodId)) (t : Propagation) : Prop :=
  ∀ e ∈ made, s.bindings.get? e.1 = none ∧ ∃ b, t.bindings.get? e.1 = some b ∧ b.replacement = e.2

/-- A method that moves is bound to what stands in for it. -/
theorem convertOne_ok {context : ContextId} {method : MethodId}
    {made : Option (MethodId × MethodId)} (h : convertOne context method s = .ok made t) :
    (made = none ∧ s = t ∧ s.bindings.mode method = .instanceConverted context) ∨
      ∃ replacement fresh r u, made = some (method, replacement) ∧
        s.bindings.mode method ≠ .instanceConverted context ∧
        convertedReplacement method context s = .ok (replacement, fresh) r ∧
        bindMethod ⟨method, replacement, .instanceConverted context⟩ r = .ok () u ∧
        Progressed u t ∧ SameBindings u t := by
  unfold convertOne at h
  obtain ⟨_, _, hGet, h⟩ := Step.bind_ok.mp h
  obtain ⟨rfl, rfl⟩ := Step.get_ok.mp hGet
  split at h
  · rename_i hMode
    obtain ⟨rfl, rfl⟩ := Step.pure_ok.mp h
    exact Or.inl ⟨rfl, rfl, hMode⟩
  · rename_i hMode
    obtain ⟨⟨replacement, fresh⟩, r, hMade, h⟩ := Step.bind_ok.mp h
    obtain ⟨_, u, hBind, h⟩ := Step.bind_ok.mp h
    refine Or.inr ⟨replacement, fresh, r, u, ?_⟩
    have hEnd {v : Propagation} (hProgressed : Progressed u v) (hSame : SameBindings u v)
        (h : (do
          adoptInitUnit context method replacement
          pure (some (method, replacement)) : Propagate (Option (MethodId × MethodId))) v
            = .ok made t) :
        made = some (method, replacement) ∧ Progressed u t ∧ SameBindings u t := by
      obtain ⟨_, w, hAdopt, h⟩ := Step.bind_ok.mp h
      obtain ⟨rfl, rfl⟩ := Step.pure_ok.mp h
      exact ⟨rfl, IsTrans.trans _ _ _ hProgressed (progresses_adoptInitUnit hAdopt),
        IsTrans.trans _ _ _ hSame (same_adoptInitUnit hAdopt)⟩
    suffices hLater : made = some (method, replacement) ∧ Progressed u t ∧ SameBindings u t from
      ⟨hLater.1, hMode, hMade, hBind, hLater.2⟩
    split at h
    · obtain ⟨copied, v, hRelocate, h⟩ := Step.bind_ok.mp h
      obtain ⟨_, w, hEnqueue, h⟩ := Step.bind_ok.mp h
      have hEdited : Edited (fun _ => True) u v :=
        keeps_closures (ClosureEdit.keeps_relocateDisplayClasses trivial) hRelocate
      have hEnqueued : Edited (fun _ => True) v w := keeps_enqueue hEnqueue
      have hBoth : Edited (fun _ => True) u w := IsTrans.trans _ _ _ hEdited hEnqueued
      exact hEnd hBoth.progressed hBoth.bindings h
    · exact hEnd (refl u) rfl h

/-- Binding a method that moves to what stands in for it binds that method only. -/
theorem bindConverted_binds {context : ContextId} {method replacement : MethodId} {fresh : Bool}
    {u : Unit} {r : Propagation}
    (hMade : convertedReplacement method context s = .ok (replacement, fresh) r)
    (h : bindMethod ⟨method, replacement, .instanceConverted context⟩ r = .ok u t) :
    Binds (.instanceConverted context) [method] s t := by
  refine bindStanding_binds (by simp) ((convertedReplacement_ok hMade).imp (·.2.1) ?_) h
  exact fun ⟨_, _, _, hCopy⟩ => ⟨method, _, _, _, _, hCopy⟩

theorem convertOne_binds {context : ContextId} {method : MethodId}
    {made : Option (MethodId × MethodId)} (h : convertOne context method s = .ok made t) :
    Binds (.instanceConverted context) [method] s t ∧ Reports s made.toList t := by
  rcases convertOne_ok h with ⟨rfl, rfl, hMode⟩ |
    ⟨replacement, fresh, r, u, rfl, hMode, hMade, hBind, hLater, hSame⟩
  · refine ⟨⟨refl s, ⟨refl s.bindings, fun _ _ => Or.inl⟩, fun id hMem => ?_⟩, by simp [Reports]⟩
    obtain rfl := List.mem_singleton.mp hMem
    cases hBound : s.bindings.get? id with
    | none => simp [BindingMap.mode, hBound] at hMode
    | some b => exact ⟨b, rfl⟩
  · have hBinds := bindConverted_binds hMade hBind
    have hBound := bindMethod_bound hBind
    have hFree : s.bindings.get? method = none := by
      cases hGet : s.bindings.get? method with
      | none => rfl
      | some b =>
          have hKept := hBinds.gains.kept method b hGet
          rw [hBound] at hKept
          obtain rfl := Option.some_inj.mp hKept
          exact (hMode (by simp [BindingMap.mode, hGet])).elim
    refine ⟨hBinds.after hLater hSame, fun e hMem => ?_⟩
    obtain rfl := List.mem_singleton.mp hMem
    exact ⟨hFree, _, (congrArg (·.get? method) hSame).trans hBound, rfl⟩

/-- A method that takes the root stands in for one that is bound, found on its owner or made
for it. -/
theorem addParameterTo_ok {method : MethodId} {made : Option (MethodId × MethodId)}
    (h : addParameterTo method s = .ok made t) :
    (made = none ∧ s = t ∧ ∃ b, s.bindings.get? method = some b) ∨
      ∃ m replacement r, made = some (method, replacement) ∧ s.bindings.get? method = none ∧
        s.program.method? method = some m ∧
        (s = r ∧ s.program.findCopy? m.owner m.name (.named s.plan.root :: m.paramTypes) m.isStatic
            = some replacement ∨
          makeCopy method m.owner m.name (.named s.plan.root :: m.paramTypes)
            (.leadingParam ⟨"context", .named s.plan.root⟩) s = .ok replacement r) ∧
        bindMethod ⟨method, replacement, .addedParameter⟩ r = .ok () t := by
  unfold addParameterTo at h
  obtain ⟨_, _, hGet, h⟩ := Step.bind_ok.mp h
  obtain ⟨rfl, rfl⟩ := Step.get_ok.mp hGet
  split at h
  · rename_i hBound
    obtain ⟨rfl, rfl⟩ := Step.pure_ok.mp h
    exact Or.inl ⟨rfl, rfl, Option.isSome_iff_exists.mp hBound⟩
  · rename_i hFree
    have hFree : s.bindings.get? method = none := by simpa [BindingMap.isBound] using hFree
    obtain ⟨m, _, hModel, h⟩ := Step.bind_ok.mp h
    obtain ⟨hMethod, rfl⟩ := model_ok.mp hModel
    obtain ⟨p, _, hProgram, h⟩ := Step.bind_ok.mp h
    obtain ⟨rfl, rfl⟩ := program_ok.mp hProgram
    dsimp only at h
    cases hFound : s.program.findCopy? m.owner m.name (.named s.plan.root :: m.paramTypes)
        m.isStatic with
    | some existing =>
        simp only [hFound] at h
        obtain ⟨_, r, hPure, h⟩ := Step.bind_ok.mp h
        obtain ⟨rfl, rfl⟩ := Step.pure_ok.mp hPure
        obtain ⟨_, _, hBind, h⟩ := Step.bind_ok.mp h
        obtain ⟨rfl, rfl⟩ := Step.pure_ok.mp h
        exact Or.inr ⟨m, existing, s, rfl, hFree, Program.methodDef_ok.mp hMethod,
          Or.inl ⟨rfl, hFound⟩, hBind⟩
    | none =>
        simp only [hFound] at h
        obtain ⟨copy, r, hCopy, h⟩ := Step.bind_ok.mp h
        obtain ⟨_, _, hBind, h⟩ := Step.bind_ok.mp h
        obtain ⟨rfl, rfl⟩ := Step.pure_ok.mp h
        exact Or.inr ⟨m, copy, r, rfl, hFree, Program.methodDef_ok.mp hMethod, Or.inr hCopy, hBind⟩

theorem addParameterTo_binds {method : MethodId} {made : Option (MethodId × MethodId)}
    (h : addParameterTo method s = .ok made t) :
    Binds .addedParameter [method] s t ∧ Reports s made.toList t := by
  rcases addParameterTo_ok h with ⟨rfl, rfl, hBound⟩ | ⟨m, replacement, r, rfl, hFree, -, hStands, hBind⟩
  · refine ⟨⟨refl s, ⟨refl s.bindings, fun _ _ => Or.inl⟩, fun id hMem => ?_⟩, by simp [Reports]⟩
    obtain rfl := List.mem_singleton.mp hMem
    exact hBound
  · refine ⟨bindStanding_binds (by simp) (hStands.imp And.left fun hCopy => ?_) hBind, ?_⟩
    · exact ⟨_, _, _, _, _, hCopy⟩
    · intro e hMem
      obtain rfl := List.mem_singleton.mp hMem
      exact ⟨hFree, _, bindMethod_bound hBind, rfl⟩

/-- Binding the methods of a group in turn binds the group. -/
theorem bindAll_binds {mode : BindingMode} {f : MethodId → Propagate (Option (MethodId × MethodId))}
    (hOne : ∀ {method : MethodId} {made : Option (MethodId × MethodId)} {s t : Propagation},
      f method s = .ok made t → Binds mode [method] s t ∧ Reports s made.toList t)
    {group : List MethodId} {made : List (Option (MethodId × MethodId))}
    (h : group.mapM f s = .ok made t) :
    Binds mode group s t ∧ Reports s (made.filterMap id) t := by
  induction group generalizing s made with
  | nil =>
      obtain ⟨rfl, rfl⟩ := Step.pure_ok.mp h
      exact ⟨.of_same (refl s) rfl, by simp [Reports]⟩
  | cons method group ih =>
      obtain ⟨first, s₁, rest, hFirst, hRest, rfl⟩ := Step.mapM_cons_ok.mp h
      obtain ⟨hBinds, hReports⟩ := hOne hFirst
      obtain ⟨hBinds', hReports'⟩ := ih hRest
      have hLater : ∀ e ∈ rest.filterMap id, s.bindings.get? e.1 = none ∧
          ∃ b, t.bindings.get? e.1 = some b ∧ b.replacement = e.2 := fun e hMem =>
        (hReports' e hMem).imp_left hBinds.gains.kept.free
      refine ⟨hBinds.trans hBinds', fun e hMem => ?_⟩
      rw [List.filterMap_cons] at hMem
      cases first with
      | none => exact hLater e hMem
      | some e' =>
          rcases List.mem_cons.mp hMem with rfl | hMem
          · obtain ⟨hFree, b, hGet, hStands⟩ := hReports e (List.mem_singleton_self e)
            exact ⟨hFree, b, hBinds'.gains.kept _ _ hGet, hStands⟩
          · exact hLater e hMem

/-- The methods of a group move to a context, and what stands in for them takes their place in
properties. -/
structure Converts (context : ContextId) (group : List MethodId) (s t : Propagation) : Prop where
  steps : ∃ made u, group.mapM (convertOne context) s = .ok made u ∧ Progressed u t ∧
    SameBindings u t

/-- Moving a method to a context moves the methods that change together with it. -/
theorem convert_ok {method : MethodId} {context : ContextId} {u : Unit}
    (h : convert method context s = .ok u t) :
    ∃ group, bindingGroup method false s = .ok group s ∧ Converts context group s t := by
  unfold convert at h
  obtain ⟨_, _, hGet, h⟩ := Step.bind_ok.mp h
  obtain ⟨rfl, rfl⟩ := Step.get_ok.mp hGet
  obtain ⟨group, s₁, hGroup, h⟩ := Step.bind_ok.mp h
  obtain ⟨-, rfl⟩ := bindingGroup_ok hGroup
  obtain ⟨made, s₂, hMade, h⟩ := Step.bind_ok.mp h
  obtain ⟨_, s₃, hAlign, h⟩ := Step.bind_ok.mp h
  obtain ⟨-, hReports⟩ := bindAll_binds (f := convertOne context) convertOne_binds hMade
  have hAligned : Changed (fun _ => False) s₂ s₃ :=
    Keeps.forM (fun _ _ => changes_alignProperty) hAlign
  have hLeaves : Leaves s₂.options (s₂.between s₂) s₂ s₃ := by
    refine Keeps.forM (fun e he => ?_) hAlign
    obtain ⟨-, b, hGet, hStands⟩ := hReports e he
    exact leaves_alignProperty ⟨b, hGet⟩ ⟨e.1, b, hGet, hStands⟩
  have hBound : ∀ e ∈ made.filterMap id, ∃ b, s₃.bindings.get? e.1 = some b := by
    intro e he
    obtain ⟨-, b, hGet, -⟩ := hReports e he
    exact ⟨b, hAligned.bindings ▸ hGet⟩
  refine ⟨group, hGroup, made, s₂, hMade, ?_, ?_⟩
  · exact IsTrans.trans _ _ _ (hAligned.progressed hLeaves) (complete_progressed hBound h)
  · exact (same_complete h).trans hAligned.bindings

/-- Moving the methods of a group binds the group. -/
theorem Converts.binds {context : ContextId} {group : List MethodId} (h : Converts context group s t) :
    Binds (.instanceConverted context) group s t := by
  obtain ⟨made, u, hMade, hLater, hSame⟩ := h.steps
  exact (bindAll_binds (f := convertOne context) convertOne_binds hMade).1.after hLater hSame

/-- What is given a parameter did not move to a context. -/
theorem requireUnconverted_ok {method member : MethodId} {u : Unit} :
    requireUnconverted method member s = .ok u t ↔
      s = t ∧ ∀ context, s.bindings.mode member ≠ .instanceConverted context := by
  unfold requireUnconverted
  simp only [Step.bind_ok, Step.get_ok]
  constructor
  · rintro ⟨_, _, ⟨rfl, rfl⟩, h⟩
    cases hMode : s.bindings.mode member with
    | instanceConverted context =>
        simp only [hMode] at h
        exact (Step.throw_ok.mp h).elim
    | unbound =>
        simp only [hMode] at h
        exact ⟨(Step.pure_ok.mp h).2, by simp⟩
    | addedParameter =>
        simp only [hMode] at h
        exact ⟨(Step.pure_ok.mp h).2, by simp⟩
  · rintro ⟨rfl, hFree⟩
    refine ⟨s, s, ⟨rfl, rfl⟩, ?_⟩
    cases hMode : s.bindings.mode member with
    | instanceConverted context => exact (hFree context hMode).elim
    | unbound => exact Step.pure_ok.mpr ⟨rfl, rfl⟩
    | addedParameter => exact Step.pure_ok.mpr ⟨rfl, rfl⟩

theorem requireAllUnconverted_ok {method : MethodId} {group : List MethodId} {u : Unit}
    (h : group.forM (requireUnconverted method) s = .ok u t) :
    s = t ∧ ∀ member ∈ group, ∀ context, s.bindings.mode member ≠ .instanceConverted context := by
  induction group generalizing s with
  | nil => exact ⟨(Step.pure_ok.mp h).2, by simp⟩
  | cons member group ih =>
      obtain ⟨_, s₁, hFirst, hRest⟩ := Step.bind_ok.mp h
      obtain ⟨rfl, hFree⟩ := requireUnconverted_ok.mp hFirst
      obtain ⟨rfl, hOthers⟩ := ih hRest
      exact ⟨rfl, List.forall_mem_cons.mpr ⟨hFree, hOthers⟩⟩

/-- The methods of a group come to have what stands in for them, which then overrides what
stands in for what it overrode, and takes its place in properties. -/
structure AddsParameter (group : List MethodId) (s t : Propagation) : Prop where
  steps : ∃ made u v, group.mapM addParameterTo s = .ok made u ∧
    (made.filterMap id).forM (fun e => mapOverrides (made.filterMap id) e.2) u = .ok () v ∧
    Progressed v t ∧ SameBindings v t

/-- Giving a method the root gives it to the methods that change together with it, none of
which moved to a context. -/
theorem addParameter_ok {method : MethodId} {u : Unit} (h : addParameter method s = .ok u t) :
    ∃ group, bindingGroup method true s = .ok group s ∧
      (∀ id ∈ group, ∀ context, s.bindings.mode id ≠ .instanceConverted context) ∧
        AddsParameter group s t := by
  unfold addParameter at h
  obtain ⟨group, s₁, hGroup, h⟩ := Step.bind_ok.mp h
  obtain ⟨-, rfl⟩ := bindingGroup_ok hGroup
  obtain ⟨_, s₂, hRequire, h⟩ := Step.bind_ok.mp h
  obtain ⟨rfl, hFree⟩ := requireAllUnconverted_ok hRequire
  obtain ⟨made, s₃, hMade, h⟩ := Step.bind_ok.mp h
  obtain ⟨_, s₄, hOverrides, h⟩ := Step.bind_ok.mp h
  obtain ⟨_, s₅, hAlign, h⟩ := Step.bind_ok.mp h
  obtain ⟨-, hReports⟩ := bindAll_binds (f := addParameterTo) addParameterTo_binds hMade
  have hMapped : Changed (fun _ => False) s₃ s₄ :=
    Keeps.forM (fun _ _ => changes_mapOverrides) hOverrides
  have hAligned : Changed (fun _ => False) s₄ s₅ :=
    Keeps.forM (fun _ _ => changes_alignProperty) hAlign
  have hBound : ∀ e ∈ made.filterMap id, ∃ b, s₄.bindings.get? e.1 = some b ∧
      b.replacement = e.2 := fun e he => hMapped.bindings ▸ (hReports e he).2
  have hLeaves : Leaves s₄.options (s₄.between s₄) s₄ s₅ := by
    refine Keeps.forM (fun e he => ?_) hAlign
    obtain ⟨b, hGet, hStands⟩ := hBound e he
    exact leaves_alignProperty ⟨b, hGet⟩ ⟨e.1, b, hGet, hStands⟩
  have hComplete : Progressed s₅ t := by
    refine complete_progressed (fun e he => ?_) h
    obtain ⟨b, hGet, -⟩ := hBound e he
    exact ⟨b, hAligned.bindings ▸ hGet⟩
  refine ⟨group, hGroup, hFree, made, s₃, s₄, hMade, hOverrides, ?_, ?_⟩
  · exact IsTrans.trans _ _ _ (hAligned.progressed hLeaves) hComplete
  · exact (same_complete h).trans hAligned.bindings

/-- Giving the methods of a group a parameter binds the group. -/
theorem AddsParameter.binds {group : List MethodId} (h : AddsParameter group s t) :
    Binds .addedParameter group s t := by
  obtain ⟨made, u, v, hMade, hOverrides, hLater, hSame⟩ := h.steps
  obtain ⟨hBinds, hReports⟩ := bindAll_binds (f := addParameterTo) addParameterTo_binds hMade
  have hMapped : Changed (fun _ => False) u v :=
    Keeps.forM (fun _ _ => changes_mapOverrides) hOverrides
  have hLeaves : Leaves u.options (s.between u) u v := by
    refine Keeps.forM (fun e he => ?_) hOverrides
    obtain ⟨hFree, b, hGet, hStands⟩ := hReports e he
    exact leaves_mapOverrides ⟨e.1, b, hGet, hFree, hStands⟩
  have hBinds : Binds .addedParameter group s v :=
    ⟨fun hKeyed => (hBinds.progressed hKeyed).change hMapped hLeaves,
      hMapped.bindings ▸ hBinds.gains, hMapped.bindings ▸ hBinds.bound⟩
  exact hBinds.after hLater hSame

/-- Binding a method that needs the root binds the methods that change together with it. -/
theorem bindNeedy_binds {method : MethodId} {places : List NeedySite} {u : Unit}
    (h : bindNeedy method places s = .ok u t) :
    ∃ withOverrides group mode, bindingGroup method withOverrides s = .ok group s ∧
      Binds mode group s t := by
  have hAdded {u : Unit} (h : addParameter method s = .ok u t) :
      ∃ withOverrides group mode, bindingGroup method withOverrides s = .ok group s ∧
        Binds mode group s t := by
    obtain ⟨group, hGroup, -, hAdds⟩ := addParameter_ok h
    exact ⟨true, group, _, hGroup, hAdds.binds⟩
  obtain ⟨m, _, hModel, h⟩ := Step.bind_ok.mp h
  obtain ⟨-, rfl⟩ := model_ok.mp hModel
  obtain ⟨_, _, hGet, h⟩ := Step.bind_ok.mp h
  obtain ⟨rfl, rfl⟩ := Step.get_ok.mp hGet
  cases hHolder : s.plan.byHolder? m.owner with
  | none =>
      simp only [hHolder] at h
      exact hAdded h
  | some context =>
      simp only [hHolder] at h
      split at h
      · obtain ⟨group, hGroup, hConverts⟩ := convert_ok h
        exact ⟨false, group, _, hGroup, hConverts.binds⟩
      · exact hAdded h

/-- Binding what contexts bring along binds just what is in use of it, in the way that is
given. -/
theorem bindReplacements_binds {u : Unit} (h : bindReplacements s = .ok u t) :
    Progressed s t ∧
      (∀ id b, t.bindings.get? id = some b → s.bindings.get? id = some b ∨
        b ∈ s.plan.given ∧ b.method = id ∧ ¬ s.program.Retired id) ∧
      ∀ b ∈ s.plan.given, ¬ s.program.Retired b.method → t.bindings.get? b.method = some b := by
  unfold bindReplacements at h
  obtain ⟨_, _, hGet, h⟩ := Step.bind_ok.mp h
  obtain ⟨rfl, rfl⟩ := Step.get_ok.mp hGet
  obtain ⟨made, s₁, hMade, h⟩ := Step.bind_ok.mp h
  let R (s' t' : Propagation) : Prop := Progressed s' t' ∧ t'.program = s'.program ∧
    s'.bindings.Extends t'.bindings ∧ ∀ id b, t'.bindings.get? id = some b →
      s'.bindings.get? id = some b ∨ b ∈ s.plan.given ∧ b.method = id ∧ ¬ s'.program.Retired id
  have : IsPreorder Propagation R :=
    { refl := fun s' => ⟨refl s', rfl, refl s'.bindings, fun _ _ => Or.inl⟩
      trans := fun s' t' u' h h' => by
        refine ⟨IsTrans.trans _ _ _ h.1 h'.1, h'.2.1.trans h.2.1,
          IsTrans.trans _ _ _ h.2.2.1 h'.2.2.1, fun id b hGet => ?_⟩
        rcases h'.2.2.2 id b hGet with hGet | hNew
        · exact h.2.2.2 id b hGet
        · exact Or.inr (h.2.1 ▸ hNew) }
  have hStep (b : Binding) (hb : b ∈ s.plan.given) : Keeps R (do
      if (← model fun p => p.methodDef b.method).isRetired then pure none
      else
        bindMethod b
        pure (some (b.method, b.replacement)) : Propagate (Option (MethodId × MethodId))) := by
    intro s' r t' h
    obtain ⟨m, _, hModel, h⟩ := Step.bind_ok.mp h
    obtain ⟨hMethod, rfl⟩ := model_ok.mp hModel
    split at h
    · obtain ⟨-, rfl⟩ := Step.pure_ok.mp h
      exact refl (r := R) s'
    · rename_i hUsed
      obtain ⟨_, s₂, hBind, h⟩ := Step.bind_ok.mp h
      obtain ⟨-, rfl⟩ := Step.pure_ok.mp h
      obtain ⟨context, hMode⟩ := ContextPlan.mode_given hb
      have hProgressed := progresses_bindMethod (by simp [hMode]) hBind
      obtain ⟨bindings, hBound, rfl⟩ := bindMethod_ok hBind
      obtain ⟨hKept, -, hNew⟩ := BindingMap.bind_ok hBound
      refine ⟨hProgressed, rfl, hKept, fun id c hGet => (hNew id c hGet).imp_right ?_⟩
      rintro ⟨rfl, rfl⟩
      refine ⟨hb, rfl, ?_⟩
      rintro ⟨m', hMethod', hRetired⟩
      obtain rfl : m = m' :=
        Option.some_inj.mp ((Program.methodDef_ok.mp hMethod).symm.trans hMethod')
      exact hUsed hRetired
  obtain ⟨hProgressed, -, hKept, hNew⟩ := Keeps.mapM hStep hMade
  have hReports : ∀ e ∈ made.filterMap id, ∃ b, s₁.bindings.get? e.1 = some b := by
    let I (done : List (Option (MethodId × MethodId))) (s : Propagation) : Prop :=
      ∀ e ∈ done.filterMap id, ∃ b, s.bindings.get? e.1 = some b
    have hStart : I [] s := by simp [I]
    refine Step.mapM_induct (fun b hb done r s t hDone h => ?_) hStart hMade
    have hLater := (hStep b hb h).2.2.1
    intro e he
    rw [List.filterMap_append, List.mem_append] at he
    rcases he with he | he
    · obtain ⟨c, hGet⟩ := hDone e he
      exact ⟨c, hLater e.1 c hGet⟩
    · obtain ⟨m, _, hModel, h⟩ := Step.bind_ok.mp h
      obtain ⟨-, rfl⟩ := model_ok.mp hModel
      split at h
      · obtain ⟨rfl, -⟩ := Step.pure_ok.mp h
        simp at he
      · obtain ⟨_, s₂, hBind, h⟩ := Step.bind_ok.mp h
        obtain ⟨rfl, rfl⟩ := Step.pure_ok.mp h
        obtain rfl : e = (b.method, b.replacement) := by simpa using he
        exact ⟨b, bindMethod_bound hBind⟩
  have hSame : t.bindings = s₁.bindings := same_complete h
  refine ⟨IsTrans.trans _ _ _ hProgressed (complete_progressed hReports h),
    fun id b hGet => hNew id b (hSame ▸ hGet), fun b hb hUsed => ?_⟩
  obtain ⟨r, v, w, -, hBefore, hBinding, hAfter⟩ := Keeps.mapM_mem_ok hStep hMade hb
  rw [hSame]
  refine hAfter.2.2.1 _ _ ?_
  obtain ⟨m, _, hModel, hBinding⟩ := Step.bind_ok.mp hBinding
  obtain ⟨hMethod, rfl⟩ := model_ok.mp hModel
  split at hBinding
  · rename_i hRetired
    refine (hUsed ?_).elim
    rw [← hBefore.2.1]
    exact ⟨m, Program.methodDef_ok.mp hMethod, hRetired⟩
  · obtain ⟨_, s₂, hBind, hPure⟩ := Step.bind_ok.mp hBinding
    obtain ⟨-, rfl⟩ := Step.pure_ok.mp hPure
    exact bindMethod_bound hBind

end Propagate

end ContextBinding
