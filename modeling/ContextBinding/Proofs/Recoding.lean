import ContextBinding.Proofs.Settling

/-! Whose code a step edits. Adapting a method edits the code of that method. Binding methods edits
the code of what comes to stand in for them, and that of constructors of contexts. -/

namespace ContextBinding

namespace Propagation

/-- A type is a display class, and one of its methods is in `X`. -/
def Displays (s : Propagation) (X : MethodId → Prop) (type : TypeId) : Prop :=
  (∃ t, s.program.type? type = some t ∧ t.isDisplayClass = true) ∧
    ∃ id m, s.program.method? id = some m ∧ m.owner = type ∧ X id

/-- A later point of a run. In between no code was edited but that of the methods in `X`, of
constructors of contexts and of what stands in for bound methods, and no type that was there gained
a field for the root but the display classes of methods in `X`. -/
structure Recodes (X : MethodId → Prop) (s t : Propagation) : Prop extends s.Advances t where
  code : ∀ id m m', s.program.method? id = some m → t.program.method? id = some m' →
    m'.body = m.body ∨ X id ∨ s.Constructs id ∨ t.bindings.StandsIn id
  roots : ∀ type field, t.closures.displayRoot? type = some field →
    s.closures.displayRoot? type = some field ∨ t.closures.Owns type ∨ t.Displays X type

/-- A step edits no other code. -/
def Recoded (X : MethodId → Prop) (s t : Propagation) : Prop := s.closures.Keyed → s.Recodes X t

variable {S X Y : MethodId → Prop} {s t u : Propagation}

theorem Displays.later {type : TypeId} (h : s.Displays X type) (hGrows : s.program.Grows t.program) :
    t.Displays X type := by
  obtain ⟨⟨d, hType, hDisplay⟩, id, m, hMethod, hOwner, hIn⟩ := h
  obtain ⟨d', hType', hSame⟩ := hGrows.type hType
  obtain ⟨m', hMethod', hSame'⟩ := hGrows.method hMethod
  refine ⟨⟨d', hType', ?_⟩, id, m', hMethod', hSame'.owner.trans hOwner, hIn⟩
  unfold TypeDef.isDisplayClass at hDisplay ⊢
  rwa [hSame.flags]

namespace Recodes

/-- Where the methods that there were are the same, no code was edited. -/
theorem of_same (h : s.Advances t)
    (hMethods : ∀ id m, s.program.method? id = some m → t.program.method? id = some m)
    (hRoots : t.closures.displayRoots = s.closures.displayRoots) : s.Recodes X t := by
  refine ⟨h, fun id m m' hMethod hMethod' => Or.inl ?_, fun type field hRoot => Or.inl ?_⟩
  · obtain rfl := Option.some_inj.mp ((hMethods id m hMethod).symm.trans hMethod')
    rfl
  · unfold Closures.displayRoot? at hRoot ⊢
    rwa [← hRoots]

protected theorem refl (h : s.closures.Keyed) : s.Recodes X s := .of_same (.refl h) (fun _ _ => id) rfl

protected theorem trans (h : s.Recodes X t) (h' : t.Recodes X u) : s.Recodes X u where
  toAdvances := h.toAdvances.trans h'.toAdvances
  code id m m'' hMethod hMethod'' := by
    obtain ⟨m', hMethod', -⟩ := h.grows.method hMethod
    rcases h'.code id m' m'' hMethod' hMethod'' with hLater | hIn | hConstructs | hStands
    · rcases h.code id m m' hMethod hMethod' with hSame | hIn | hConstructs | hStands
      · exact Or.inl (hLater.trans hSame)
      · exact Or.inr (Or.inl hIn)
      · exact Or.inr (Or.inr (Or.inl hConstructs))
      · exact Or.inr (Or.inr (Or.inr (h'.toAdvances.license_le.standing id hStands)))
    · exact Or.inr (Or.inl hIn)
    · exact Or.inr (Or.inr (Or.inl (hConstructs.earlier h.plan)))
    · exact Or.inr (Or.inr (Or.inr hStands))
  roots type field hRoot := by
    rcases h'.roots type field hRoot with hBefore | hLater
    · rcases h.roots type field hBefore with hBefore | hOwned | hDisplays
      · exact Or.inl hBefore
      · exact Or.inr (Or.inl (h'.learns.owned type hOwned))
      · exact Or.inr (Or.inr (hDisplays.later h'.grows))
    · exact Or.inr hLater

theorem mono (hX : ∀ id, X id → Y id) (h : s.Recodes X t) : s.Recodes Y t where
  toAdvances := h.toAdvances
  code id m m' hMethod hMethod' :=
    (h.code id m m' hMethod hMethod').imp_right (Or.imp_left (hX id))
  roots type field hRoot := by
    refine (h.roots type field hRoot).imp_right (Or.imp_right ?_)
    exact fun ⟨hDisplay, id, m, hMethod, hOwner, hIn⟩ => ⟨hDisplay, id, m, hMethod, hOwner, hX id hIn⟩

end Recodes

instance : IsPreorder Propagation (Recoded X) where
  refl _ h := .refl h
  trans _ _ _ h h' hKeyed := (h hKeyed).trans (h' (h hKeyed).keyed)

/-- An edit of code that may be edited. -/
theorem Changed.recoded (h : Changed S s t)
    (hS : ∀ id, S id → X id ∨ s.Constructs id ∨ t.bindings.StandsIn id) : Recoded X s t := by
  intro hKeyed
  have hCode := h.code hKeyed
  refine ⟨h.advanced hKeyed, fun id m m' hMethod hMethod' => ?_, fun type field hRoot =>
    (hCode.roots type field hRoot).imp_right Or.inl⟩
  exact (hCode.program.sameBody hMethod hMethod').imp_right (hS id)

end Propagation

namespace Propagate

open Propagation (Changed Displays Edited Recoded)

variable {α : Type} {X : MethodId → Prop} {s t : Propagation}

theorem recodes_changed {x : Propagate α} (h : Keeps (Changed fun _ => False) x) :
    Keeps (Recoded X) x :=
  h.mono fun _ _ h => h.recoded fun _ => False.elim

theorem recodes_edited {x : Propagate α} (h : Keeps (Edited fun _ => False) x) :
    Keeps (Recoded X) x :=
  recodes_changed (changes_edited h)

theorem recodes_graph {e : Program → GraphEdit α} : Keeps (Recoded X) (graph e) := by
  intro s a t h hKeyed
  have hAdvances := advances_graph h hKeyed
  obtain ⟨u, -, rfl⟩ := graph_ok.mp h
  exact .of_same hAdvances (fun _ _ => id) rfl

theorem recodes_bindMethod {b : Binding} : Keeps (Recoded X) (bindMethod b) := by
  intro s u t h hKeyed
  have hAdvances := advances_bindMethod h hKeyed
  obtain ⟨m, -, rfl⟩ := bindMethod_ok h
  exact .of_same hAdvances (fun _ _ => id) rfl

theorem recodes_makeCopy {source : MethodId} {owner : TypeId} {name : String}
    {params : List TypeRef} {shape : MethodShape} :
    Keeps (Recoded X) (makeCopy source owner name params shape) := by
  intro s copy t h hKeyed
  have hAdvances := advances_makeCopy h hKeyed
  obtain ⟨m, -, -, -, -, hMethods, -, hSame⟩ := makeCopy_ok h
  refine .of_same hAdvances (fun id m hMethod => ?_) (by rw [hSame])
  have hOld : id.index < s.program.methods.length := (List.getElem?_eq_some_iff.mp hMethod).1
  rw [Program.method?, hMethods, List.getElem?_append_left hOld]
  exact hMethod

/-- Completing a transition edits no code. -/
theorem recodes_complete {bound : List (MethodId × MethodId)} :
    Keeps (Recoded X) (complete bound) :=
  keeps_complete_of_changed (fun h => h.recoded fun _ => False.elim) fun _ => recodes_graph

/-- Calling an init unit edits the constructor of its context. -/
theorem recodes_adoptInitUnit {context : ContextId} {method replacement : MethodId} :
    Keeps (Recoded X) (adoptInitUnit context method replacement) := by
  intro s u t h
  unfold adoptInitUnit at h
  obtain ⟨_, _, hGet, h⟩ := Step.bind_ok.mp h
  obtain ⟨rfl, rfl⟩ := Step.get_ok.mp hGet
  split at h
  · rename_i hUnit
    obtain ⟨_, s₁, hSet, h⟩ := Step.bind_ok.mp h
    obtain rfl := Step.set_ok.mp hSet
    let s₁ : Propagation := { s with plan := s.plan.replaceInitUnit context method replacement }
    have hShape : s₁.plan.shape = s.plan.shape := ContextPlan.shape_replaceInitUnit ..
    have hFirst : Recoded X s s₁ := fun hKeyed =>
      .of_same ⟨hKeyed, refl _, fun _ => Or.inl, .refl _, refl _, rfl, hShape⟩ (fun _ _ => id) rfl
    have hConstructs : s.Constructs (s.plan.context context).constructor :=
      Propagation.constructs_of_initUnits hUnit
    refine IsTrans.trans _ _ _ hFirst ?_
    split at h
    · rcases inlineInitUnit_ok h with rfl | ⟨_, s₂, -, -, hEdited, hDerive⟩
      · exact refl _
      · refine IsTrans.trans _ _ _ (hEdited.toChanged.recoded ?_) (recodes_graph hDerive)
        rintro id rfl
        exact Or.inr (Or.inl (hConstructs.earlier (ContextPlan.shape_replaceInitUnit ..).symm))
    · obtain ⟨-, rfl⟩ := Step.pure_ok.mp h
      exact refl _
  · obtain ⟨-, rfl⟩ := Step.pure_ok.mp h
    exact refl s

/-- Moving a method edits what stands in for it, and the constructor of its context. -/
theorem recodes_convertOne {context : ContextId} {method : MethodId} :
    Keeps (Recoded X) (convertOne context method) := by
  intro s made t h
  obtain ⟨_, _, hGet, h⟩ := Step.bind_ok.mp h
  obtain ⟨rfl, rfl⟩ := Step.get_ok.mp hGet
  split at h
  · obtain ⟨-, rfl⟩ := Step.pure_ok.mp h
    exact refl s
  · obtain ⟨⟨replacement, fresh⟩, s₁, hMade, h⟩ := Step.bind_ok.mp h
    obtain ⟨_, s₂, hBind, h⟩ := Step.bind_ok.mp h
    have h₁ : Recoded X s s₁ := by
      rcases convertedReplacement_ok hMade with ⟨-, rfl, -⟩ | ⟨-, m, -, hCopy⟩
      · exact refl s
      · exact recodes_makeCopy hCopy
    have h₂ : Recoded X s s₂ := IsTrans.trans _ _ _ h₁ (recodes_bindMethod hBind)
    have hRest : Keeps (Recoded X) (do
        adoptInitUnit context method replacement
        pure (some (method, replacement)) : Propagate (Option (MethodId × MethodId))) :=
      Keeps.bind recodes_adoptInitUnit fun _ => Keeps.pure _
    split at h
    · obtain ⟨copied, s₃, hRelocate, h⟩ := Step.bind_ok.mp h
      obtain ⟨_, s₄, hEnqueue, h⟩ := Step.bind_ok.mp h
      have hEdited : Edited (· = replacement) s₂ s₃ :=
        keeps_closures (ClosureEdit.keeps_relocateDisplayClasses (S := (· = replacement)) rfl)
          hRelocate
      have h₃ : Recoded X s₂ s₃ := by
        refine hEdited.toChanged.recoded ?_
        rintro id rfl
        exact Or.inr (Or.inr ⟨method, _, hEdited.bindings ▸ bindMethod_bound hBind, rfl⟩)
      have h₄ : Recoded X s₃ s₄ := recodes_edited keeps_enqueue hEnqueue
      exact IsTrans.trans _ _ _ h₂ (IsTrans.trans _ _ _ h₃ (IsTrans.trans _ _ _ h₄ (hRest h)))
    · exact IsTrans.trans _ _ _ h₂ (hRest h)

theorem recodes_addParameterTo {method : MethodId} : Keeps (Recoded X) (addParameterTo method) := by
  intro s made t h
  rcases addParameterTo_ok h with ⟨-, rfl, -⟩ | ⟨m, replacement, r, -, -, -, hStands, hBind⟩
  · exact refl s
  · refine IsTrans.trans _ _ _ ?_ (recodes_bindMethod hBind)
    rcases hStands with ⟨rfl, -⟩ | hCopy
    · exact refl s
    · exact recodes_makeCopy hCopy

/-- Binding a method edits what stands in for the methods of its group, and constructors of
contexts. -/
theorem recodes_bindNeedy {method : MethodId} {places : List NeedySite} :
    Keeps (Recoded X) (bindNeedy method places) := by
  have hReads {β : Type} {f : Program → Except ModelError β} : Keeps (Recoded X) (model f) :=
    recodes_edited keeps_model
  have hConvert (context : ContextId) : Keeps (Recoded X) (convert method context) := by
    refine Keeps.bind Keeps.get fun s => Keeps.bind (recodes_edited keeps_bindingGroup) fun group => ?_
    refine Keeps.bind (Keeps.mapM fun _ _ => recodes_convertOne) fun made => ?_
    exact Keeps.bind (Keeps.forM fun _ _ => recodes_changed changes_alignProperty) fun _ =>
      recodes_complete
  have hAdd : Keeps (Recoded X) (addParameter method) := by
    refine Keeps.bind (recodes_edited keeps_bindingGroup) fun group => ?_
    refine Keeps.bind (Keeps.forM fun _ _ => recodes_edited keeps_requireUnconverted) fun _ => ?_
    refine Keeps.bind (Keeps.mapM fun _ _ => recodes_addParameterTo) fun made => ?_
    refine Keeps.bind (Keeps.forM fun _ _ => recodes_changed changes_mapOverrides) fun _ => ?_
    exact Keeps.bind (Keeps.forM fun _ _ => recodes_changed changes_alignProperty) fun _ =>
      recodes_complete
  refine Keeps.bind hReads fun m => Keeps.bind Keeps.get fun s => ?_
  split
  · exact Keeps.ite (hConvert _) hAdd
  · exact hAdd

/-- Adapting a method edits its code. -/
theorem adaptInPlace_recodes {site : RootedMethod} {places : List NeedySite} {u : Unit}
    (h : adaptInPlace site places s = .ok u t)
    (hX : X site.method ∨ s.bindings.StandsIn site.method) : Recoded X s t := by
  obtain ⟨outcomes, s₁, hSites, h⟩ := Step.bind_ok.mp h
  have hEdited : Edited (· = site.method) s s₁ :=
    Keeps.mapM (fun place _ => keeps_adaptSite (S := (· = site.method)) rfl) hSites
  have hFirst : Recoded X s s₁ := by
    refine hEdited.toChanged.recoded ?_
    rintro id rfl
    exact hX.imp_right fun hStands => Or.inr (hEdited.bindings ▸ hStands)
  refine IsTrans.trans _ _ _ hFirst (Keeps.ite ?_ (Keeps.pure _) h)
  exact Keeps.bind (recodes_edited keeps_count) fun _ => recodes_graph

/-- Only the display class of the method is given a field for the root. -/
theorem displayHandle?_recodes {method : MethodId} {handle : Option HandleSource}
    (h : displayHandle? method s = .ok handle t) (hX : X method) : Recoded X s t := by
  intro hKeyed
  have hAdvances := advances_displayHandle? h hKeyed
  rcases displayHandle?_ok h with rfl | ⟨m, field, p, hMethod, -, hDisplay, -, -, hField, hEnd⟩
  · exact .refl hKeyed
  · obtain ⟨-, hGrows, -, hMethods, -⟩ := Program.addField_ok hField
    have hProgram : t.program = p := by rw [hEnd]; rfl
    have hRoots : t.closures.displayRoots = s.closures.displayRoots.insert m.owner field := by
      rw [hEnd]
      rfl
    refine ⟨hAdvances, fun id m₁ m₂ hMethod₁ hMethod₂ => Or.inl ?_, fun type root hRoot => ?_⟩
    · rw [hProgram, Program.method?, hMethods] at hMethod₂
      obtain rfl := Option.some_inj.mp (hMethod₁.symm.trans hMethod₂)
      rfl
    · unfold Closures.displayRoot? at hRoot ⊢
      rw [hRoots, Table.get?_insert] at hRoot
      split at hRoot
      · rename_i hOwner
        subst hOwner
        exact Or.inr (Or.inr (Displays.later ⟨hDisplay, method, m, hMethod, rfl, hX⟩ hAdvances.grows))
      · exact Or.inl hRoot

theorem recodes_bindReplacements : Keeps (Recoded X) bindReplacements := by
  refine Keeps.bind Keeps.get fun s => Keeps.bind (Keeps.mapM fun b _ => ?_) fun made =>
    recodes_complete
  refine Keeps.bind (recodes_edited keeps_model) fun m => ?_
  exact Keeps.ite (Keeps.pure _) (Keeps.bind recodes_bindMethod fun _ => Keeps.pure _)

end Propagate

end ContextBinding
