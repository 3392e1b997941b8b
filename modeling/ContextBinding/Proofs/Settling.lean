import ContextBinding.Proofs.Waiting

/-! The steps of a run leave no other methods waiting than before, apart from those of the display
classes that are copied when a method moves to a context. -/

namespace ContextBinding

/-- Constructors of a type are methods of its own. -/
theorem Program.Owned.constructor {p : Program} (h : p.Owned) {type : TypeId} {id : MethodId}
    (hMem : id ∈ p.constructors type) :
    ∃ m, p.method? id = some m ∧ m.owner = type ∧ m.isConstructor = true := by
  unfold constructors methodsWhere at hMem
  split at hMem
  · rename_i t hType
    obtain ⟨hListed, hKind⟩ := List.mem_filter.mp hMem
    obtain ⟨m, hMethod, hOwner⟩ := h type id ⟨t, hType, hListed⟩
    rw [hMethod, Option.any_some] at hKind
    exact ⟨m, hMethod, hOwner, hKind⟩
  · exact (List.not_mem_nil hMem).elim

namespace ClosureEdit

/-- What copying display classes leaves: every one keeps its field for the root, and the fields of
the copies are new. -/
structure Relocates (s t : Closures × Workspace) : Prop where
  grows : s.2.program.Grows t.2.program
  root : t.1.root = s.1.root
  roots : ∀ type, s.1.displayRoot? type ≠ none → t.1.displayRoot? type ≠ none
  copied : ∀ field ∈ t.1.copiedFields, field ∈ s.1.copiedFields ∨
    s.2.program.fields.length ≤ field.index ∧ field.index < t.2.program.fields.length

instance : IsPreorder (Closures × Workspace) Relocates where
  refl _ := ⟨.refl _, rfl, fun _ => id, fun _ => Or.inl⟩
  trans _ _ _ h h' :=
    { grows := h.grows.trans h'.grows
      root := h'.root.trans h.root
      roots := fun type hRoot => h'.roots type (h.roots type hRoot)
      copied := fun field hCopied => by
        rcases h'.copied field hCopied with hCopied | ⟨hNew, hThere⟩
        · refine (h.copied field hCopied).imp_right (And.imp_right fun hThere => ?_)
          exact hThere.trans_le h'.grows.fields.length_le
        · exact Or.inr ⟨h.grows.fields.length_le.trans hNew, hThere⟩ }

variable {s t : Closures × Workspace}

theorem relocates_remapMembers {method : MethodId} {clone : TypeClone} :
    Keeps Relocates (edit (Program.remapMembers method clone)) := by
  intro s changed t h
  obtain ⟨p, hRemap, rfl⟩ := edit_ok.mp h
  have hRewrites : s.2.program.Rewrites (fun _ => True) (fun _ => True) p :=
    Program.keeps_remapMembers trivial hRemap
  exact ⟨hRewrites.grows, rfl, fun _ => id, fun _ => Or.inl⟩

/-- The methods of the copy of a display class belong to a new type. -/
theorem copyDisplayClass_relocates {display generated : TypeId} {clone : TypeClone}
    (h : copyDisplayClass display generated s = .ok clone t) :
    Relocates s t ∧ ∀ id ∈ clone.methods.values, s.2.program.Arrived t.2.program id := by
  unfold copyDisplayClass at h
  obtain ⟨made, _, hEdit, h⟩ := Step.bind_ok.mp h
  obtain ⟨p, hClone, rfl⟩ := edit_ok.mp hEdit
  obtain ⟨_, _, hUpdate, h⟩ := Step.bind_ok.mp h
  obtain rfl := update_ok.mp hUpdate
  obtain ⟨rfl, rfl⟩ := Step.pure_ok.mp h
  obtain ⟨-, hProgram, hThere, hMethods, hFields⟩ := Program.cloneType_ok hClone
  refine ⟨⟨hProgram.grows, rfl, fun type hRoot => ?_, fun field hCopied => ?_⟩, fun id hMem => ?_⟩
  · unfold Closures.displayRoot? at hRoot ⊢
    dsimp only
    split
    · rw [Table.get?_insert]
      split
      · exact Option.some_ne_none _
      · exact hRoot
    · exact hRoot
  · obtain ⟨other, hOther, hField⟩ := List.mem_flatMap.mp hCopied
    rcases Table.mem_values_insert hOther with rfl | hOther
    · exact Or.inr (hFields field hField)
    · exact Or.inl (List.mem_flatMap.mpr ⟨other, hOther, hField⟩)
  · obtain ⟨hNew, hBound⟩ := hMethods id hMem
    have hMethod : p.method? id = some p.methods[id.index] := List.getElem?_eq_getElem hBound
    have hOwner : p.methods[id.index].owner = ⟨s.2.program.types.length⟩ := by
      rcases hProgram.code id _ hMethod with ⟨m, hOld, -⟩ | ⟨-, hOwner⟩
      · rw [Program.method?, List.getElem?_eq_none hNew] at hOld
        cases hOld
      · exact hOwner
    exact ⟨hNew, _, hMethod, by rw [hOwner], by rwa [hOwner]⟩

theorem relocateDisplayClass_relocates {method : MethodId} {generated display : TypeId}
    {ids : List MethodId} (h : relocateDisplayClass method generated display s = .ok ids t) :
    Relocates s t ∧ ∀ id ∈ ids, s.2.program.Arrived t.2.program id := by
  unfold relocateDisplayClass at h
  obtain ⟨c, _, hClosures, h⟩ := Step.bind_ok.mp h
  obtain ⟨rfl, rfl⟩ := closures_ok.mp hClosures
  cases hKnown : s.1.relocated.get? (display, generated) with
  | some clone =>
      simp only [hKnown] at h
      obtain ⟨_, u, hRemap, h⟩ := Step.bind_ok.mp h
      obtain ⟨rfl, rfl⟩ := Step.pure_ok.mp h
      exact ⟨relocates_remapMembers hRemap, fun _ hMem => (List.not_mem_nil hMem).elim⟩
  | none =>
      simp only [hKnown] at h
      obtain ⟨clone, u, hCopy, h⟩ := Step.bind_ok.mp h
      obtain ⟨_, v, hRemap, h⟩ := Step.bind_ok.mp h
      obtain ⟨rfl, rfl⟩ := Step.pure_ok.mp h
      obtain ⟨hCopied, hArrived⟩ := copyDisplayClass_relocates hCopy
      have hRemapped := relocates_remapMembers hRemap
      exact ⟨IsTrans.trans _ _ _ hCopied hRemapped, fun id hMem => (hArrived id hMem).later hRemapped.grows⟩

/-- Every method that copying display classes returns belongs to a new type. -/
theorem relocateDisplayClasses_relocates {method : MethodId} {holder generated : TypeId}
    {ids : List MethodId} (h : relocateDisplayClasses method holder generated s = .ok ids t) :
    Relocates s t ∧ ∀ id ∈ ids, s.2.program.Arrived t.2.program id := by
  unfold relocateDisplayClasses at h
  have hReads {β : Type} {f : Program → Except ModelError β} {s t : Closures × Workspace} {b : β}
      (h : work (CodeEdit.model f) s = .ok b t) : s = t := by
    obtain ⟨w, hModel, rfl⟩ := work_ok.mp h
    obtain ⟨-, rfl⟩ := CodeEdit.model_ok.mp hModel
    rfl
  obtain ⟨m, _, hModel, h⟩ := Step.bind_ok.mp h
  obtain rfl := hReads hModel
  cases hBody : m.body with
  | none =>
      simp only [hBody] at h
      obtain ⟨rfl, rfl⟩ := Step.pure_ok.mp h
      exact ⟨refl s, fun _ hMem => (List.not_mem_nil hMem).elim⟩
  | some b =>
      simp only [hBody] at h
      obtain ⟨created, _, hCreated, h⟩ := Step.bind_ok.mp h
      obtain rfl := hReads hCreated
      obtain ⟨copied, u, hCopies, h⟩ := Step.bind_ok.mp h
      obtain ⟨rfl, rfl⟩ := Step.pure_ok.mp h
      let I (done : List (List MethodId)) (u : Closures × Workspace) : Prop :=
        Relocates s u ∧ ∀ id ∈ done.flatten, s.2.program.Arrived u.2.program id
      have hStart : I [] s := ⟨refl s, fun _ hMem => (List.not_mem_nil hMem).elim⟩
      refine Step.mapM_induct (fun display _ done ids u v hDone hStep => ?_) hStart hCopies
      obtain ⟨hRelocates, hArrived⟩ := relocateDisplayClass_relocates hStep
      refine ⟨IsTrans.trans _ _ _ hDone.1 hRelocates, fun id hMem => ?_⟩
      rw [List.flatten_concat, List.mem_append] at hMem
      rcases hMem with hMem | hMem
      · exact (hDone.2 id hMem).later hRelocates.grows
      · exact (hArrived id hMem).earlier hDone.1.grows

end ClosureEdit

namespace Propagate

open Propagation (Advanced Changed CodeOnly Edited Expected Settled Settles)

variable {α : Type} {copying : Prop} {ahead : List MethodId} {s t : Propagation}

theorem settled_codeOnly {x : Propagate α} (h : Keeps CodeOnly x) (hAdvanced : Keeps Advanced x) :
    Keeps (Settled copying ahead) x :=
  fun _ _ _ hRun => (h hRun).settled (hAdvanced hRun)

/-- Deriving a method anew lets that method be visited, which may be visited for what it is. -/
theorem rederive_settles {caller : MethodId} {u : Unit}
    (h : graph (fun p => GraphEdit.rederive p caller) s = .ok u t) (hRegular : s.Regular ahead)
    (hCaller : Expected ahead s s caller) : s.Settles copying ahead t := by
  have hAdvances := advances_graph h hRegular.keyed
  obtain ⟨v, hDerive, rfl⟩ := graph_ok.mp h
  refine ⟨hAdvances, { hRegular with present := fun id hMem => ?_ }, rfl, fun _ => id,
    fun _ => Or.inl, fun id target hMem => ?_, fun _ => Or.inl⟩
  · rcases hMem with hMem | hMem | ⟨target, hMem⟩
    · exact hRegular.present id (Or.inl hMem)
    · exact hRegular.present id (Or.inr (Or.inl hMem))
    · rcases GraphEdit.rederive_callers hDerive hMem with hMem | ⟨rfl, hLive⟩
      · exact hRegular.present id (Or.inr (Or.inr ⟨target, hMem⟩))
      · obtain ⟨b, hBody⟩ := Program.isLive_iff.mp hLive
        obtain ⟨m, hMethod, -⟩ := Program.liveBody?_eq_some.mp hBody
        exact ⟨m, hMethod⟩
  · refine (GraphEdit.rederive_callers hDerive hMem).imp_right ?_
    rintro ⟨rfl, -⟩
    exact hCaller

theorem settled_rebuildOverrides :
    Keeps (Settled copying ahead)
      (graph fun p => GraphEdit.update fun g => g.rebuildOverrides p) := by
  intro s u t h hRegular
  have hAdvances := advances_graph h hRegular.keyed
  obtain ⟨v, hUpdate, rfl⟩ := graph_ok.mp h
  obtain rfl := GraphEdit.update_ok.mp hUpdate
  exact ⟨hAdvances, { hRegular with present := hRegular.present }, rfl, fun _ => id,
    fun _ => Or.inl, fun _ _ => Or.inl, fun _ => Or.inl⟩

theorem settled_bindMethod {b : Binding} (hMode : b.mode ≠ .unbound) :
    Keeps (Settled copying ahead) (bindMethod b) := by
  intro s u t h hRegular
  have hAdvances := advances_bindMethod h hRegular.keyed
  obtain ⟨m, hBind, rfl⟩ := bindMethod_ok h
  refine ⟨hAdvances, { hRegular with present := hRegular.present, modes := fun c hMem => ?_ }, rfl,
    fun _ => id, fun _ => Or.inl, fun _ _ => Or.inl, fun _ => Or.inl⟩
  rcases BindingMap.mem_bind hBind hMem with rfl | hMem
  · exact hMode
  · exact hRegular.modes c hMem

/-- Adapting a method in place brings no other method into the graph. -/
theorem adaptInPlace_settles {site : RootedMethod} {places : List NeedySite} {u : Unit}
    (h : adaptInPlace site places s = .ok u t) (hRegular : s.Regular ahead)
    (hSite : site.method ∈ ahead) : s.Settles copying ahead t := by
  obtain ⟨outcomes, s₁, hSites, h⟩ := Step.bind_ok.mp h
  have hAdapted : CodeOnly s s₁ := Keeps.mapM (fun _ _ => codeOnly_adaptSite) hSites
  have hAdvanced : Advanced s s₁ := Keeps.mapM
    (fun _ _ => advances_edited (keeps_adaptSite (S := fun _ => True) trivial)) hSites
  have hFirst : s.Settles copying ahead s₁ := hAdapted.settled hAdvanced hRegular
  split at h
  · obtain ⟨_, s₂, hCount, h⟩ := Step.bind_ok.mp h
    have hCounted : CodeOnly s₁ s₂ := by
      refine codeOnly_count ?_ ?_ hCount <;> exact fun _ => rfl
    have hAdvanced' : Advanced s₁ s₂ := (keeps_count (S := fun _ => False) hCount).advanced
    have hSecond := hFirst.trans (hCounted.settled hAdvanced' hFirst.regular)
    exact hSecond.trans (rederive_settles h hSecond.regular (Or.inl hSite))
  · obtain ⟨-, rfl⟩ := Step.pure_ok.mp h
    exact hFirst

/-- Deriving the graph anew around bound methods lets what stands in for them be visited. -/
theorem deriveBound_settles {callers : List MethodId} {bound : List (MethodId × MethodId)} {u : Unit}
    (h : (do
      bound.forM fun e => do
        graph fun p => GraphEdit.rederive p e.1
        graph fun p => GraphEdit.rederive p e.2
        if (← model fun p => p.methodDef e.2).body.isSome then modify (.enqueue [e.2])
        modify (.count fun n => { n with transitions := n.transitions + 1 })
      modify (.enqueue callers) : Propagate Unit) s = .ok u t)
    (hRegular : s.Regular ahead)
    (hCallers : ∀ id ∈ callers, ∃ e ∈ bound, id ∈ s.graph.callerMethods e.1)
    (hBound : ∀ e ∈ bound, s.Paired e) : s.Settles copying ahead t := by
  obtain ⟨_, s₁, hEach, hCallersNext⟩ := Step.bind_ok.mp h
  have hFirst : s.Settles copying ahead s₁ := by
    let I (rest : List (MethodId × MethodId)) (u : Propagation) : Prop :=
      s.Settles copying ahead u ∧ ∀ e ∈ rest, s.Paired e
    have hStart : I bound s := ⟨.refl hRegular, hBound⟩
    refine (Step.forM_induct (I := I) (fun e rest u _ v hInv hStep => ?_) hStart hEach).1
    obtain ⟨hSoFar, hAll⟩ := hInv
    obtain ⟨hPaired, hRest⟩ := List.forall_mem_cons.mp hAll
    obtain ⟨hOld, hNew⟩ := hPaired.taken
    refine ⟨?_, hRest⟩
    obtain ⟨_, u₁, hDeriveOld, hStep⟩ := Step.bind_ok.mp hStep
    have h₁ := hSoFar.trans (rederive_settles hDeriveOld hSoFar.regular
      (Or.inr (Or.inr (hOld.later hSoFar.bindings))))
    obtain ⟨_, u₂, hDeriveNew, hStep⟩ := Step.bind_ok.mp hStep
    have h₂ := h₁.trans (rederive_settles hDeriveNew h₁.regular
      (Or.inr (Or.inr (hNew.later h₁.bindings))))
    obtain ⟨m, _, hModel, hStep⟩ := Step.bind_ok.mp hStep
    obtain ⟨hMethod, rfl⟩ := model_ok.mp hModel
    have hCount {w v : Propagation} {a : PUnit} (h : s.Settles copying ahead w)
        (hRun : (modify (.count fun n => { n with transitions := n.transitions + 1 }) :
          Propagate PUnit) w = .ok a v) : s.Settles copying ahead v := by
      obtain rfl := Step.modify_ok.mp hRun
      exact { h with regular := { h.regular with present := h.regular.present } }
    split at hStep
    · obtain ⟨_, u₃, hEnqueue, hStep⟩ := Step.bind_ok.mp hStep
      obtain rfl := Step.modify_ok.mp hEnqueue
      refine hCount (h₂.enqueue (fun id hMem => ?_) fun id hMem => ?_) hStep
      · obtain rfl := List.mem_singleton.mp hMem
        exact ⟨m, Program.methodDef_ok.mp hMethod⟩
      · obtain rfl := List.mem_singleton.mp hMem
        exact Or.inl (Or.inr (Or.inr (hNew.later h₂.bindings)))
    · exact hCount h₂ hStep
  obtain rfl := Step.modify_ok.mp hCallersNext
  refine hFirst.enqueue (fun id hMem => ?_) fun id hMem => ?_
  · obtain ⟨e, -, hCaller⟩ := hCallers id hMem
    obtain ⟨m, hMethod⟩ := hRegular.present id (Or.inr (Or.inr ⟨e.1, hCaller⟩))
    obtain ⟨m', hMethod', -⟩ := hFirst.grows.method hMethod
    exact ⟨m', hMethod'⟩
  · obtain ⟨e, hPair, hCaller⟩ := hCallers id hMem
    obtain ⟨b, hGet, -⟩ := (hBound e hPair).later hFirst.bindings
    exact Or.inr (Or.inr ⟨e.1, hCaller, fun _ => Or.inl ⟨b, hGet⟩⟩)

/-- Completing the transition of bound methods makes no other methods wait. -/
theorem complete_settles {bound : List (MethodId × MethodId)} {u : Unit}
    (h : complete bound s = .ok u t) (hRegular : s.Regular ahead)
    (hBound : ∀ e ∈ bound, s.Paired e) : s.Settles copying ahead t := by
  unfold complete at h
  split at h
  · obtain ⟨_, _, hGet, h⟩ := Step.bind_ok.mp h
    obtain ⟨rfl, rfl⟩ := Step.get_ok.mp hGet
    obtain ⟨virtuals, s₁, hRetire, h⟩ := Step.bind_ok.mp h
    have hCode : CodeOnly s s₁ := Keeps.mapM (fun _ _ => codeOnly_retireBound) hRetire
    have hChanged : Changed (fun _ => False) s s₁ :=
      Keeps.mapM (fun _ _ => changes_retireBound) hRetire
    have hFirst : s.Settles copying ahead s₁ := hCode.settled hChanged.advanced hRegular
    have hCallers : ∀ id ∈ bound.flatMap fun e => s.graph.callerMethods e.1,
        ∃ e ∈ bound, id ∈ s₁.graph.callerMethods e.1 := fun id hMem => by
      rw [hCode.graph]
      exact List.mem_flatMap.mp hMem
    have hPaired : ∀ e ∈ bound, s₁.Paired e := fun e hMem => (hBound e hMem).later hFirst.bindings
    split at h
    · obtain ⟨_, s₂, hRebuild, h⟩ := Step.bind_ok.mp h
      have hSecond : s₁.Settles copying ahead s₂ := settled_rebuildOverrides hRebuild hFirst.regular
      obtain ⟨v, hUpdate, rfl⟩ := graph_ok.mp hRebuild
      obtain rfl := GraphEdit.update_ok.mp hUpdate
      exact (hFirst.trans hSecond).trans (deriveBound_settles h hSecond.regular hCallers hPaired)
    · exact hFirst.trans (deriveBound_settles h hFirst.regular hCallers hPaired)
  · obtain ⟨-, rfl⟩ := Step.pure_ok.mp h
    exact .refl hRegular

/-- What comes to call an init unit is a constructor of a context. -/
theorem settled_adoptInitUnit {context : ContextId} {method replacement : MethodId} :
    Keeps (Settled copying ahead) (adoptInitUnit context method replacement) := by
  intro s u t h hRegular
  obtain ⟨_, _, hGet, h⟩ := Step.bind_ok.mp h
  obtain ⟨rfl, rfl⟩ := Step.get_ok.mp hGet
  split at h
  · rename_i hUnit
    obtain ⟨_, s₁, hSet, h⟩ := Step.bind_ok.mp h
    obtain rfl := Step.set_ok.mp hSet
    have hShape := ContextPlan.shape_replaceInitUnit s.plan context method replacement
    have hFirst : s.Settles copying ahead
        { s with plan := s.plan.replaceInitUnit context method replacement } :=
      { keyed := hRegular.keyed
        learns := refl _
        fresh := fun _ => Or.inl
        grows := .refl _
        bindings := refl _
        options := rfl
        plan := hShape
        regular := { hRegular with present := hRegular.present }
        root := rfl
        roots := fun _ => id
        copied := fun _ => Or.inl
        callers := fun _ _ => Or.inl
        enqueued := fun _ => Or.inl }
    split at h
    · rcases inlineInitUnit_ok h with rfl | ⟨e, s₂, hEdit, -, hEdited, hDerive⟩
      · exact hFirst
      · have hCode : CodeOnly _ s₂ := codeOnly_work hEdit
        have hSecond := hFirst.trans (hCode.settled hEdited.advanced hFirst.regular)
        refine hSecond.trans (rederive_settles hDerive hSecond.regular (Or.inr (Or.inl ?_)))
        refine Propagation.Constructs.earlier (s := s₂) (t := s) ?_
          (Propagation.constructs_of_initUnits hUnit)
        rw [hCode.plan]
        exact hShape.symm
    · obtain ⟨-, rfl⟩ := Step.pure_ok.mp h
      exact hFirst
  · obtain ⟨-, rfl⟩ := Step.pure_ok.mp h
    exact .refl hRegular

/-- Giving a display class its field for the root brings in callers of its constructors only. -/
theorem settled_displayHandle? {method : MethodId} :
    Keeps (Settled copying ahead) (displayHandle? method) := by
  intro s handle t h hRegular
  have hAdvances := advances_displayHandle? h hRegular.keyed
  rcases displayHandle?_ok h with rfl | ⟨m, field, p, -, -, -, -, -, hField, rfl⟩
  · exact .refl hRegular
  · obtain ⟨-, hGrows, -, hMethods, -⟩ := Program.addField_ok hField
    have hSame : p.methods = s.program.methods := hMethods
    have hFirst : s.Settles copying ahead
        { s with
          closures := { s.closures with displayRoots := s.closures.displayRoots.insert m.owner field }
          work := { s.work with program := p } } :=
      { keyed := hRegular.keyed
        learns := hAdvances.learns
        fresh := fun _ => Or.inl
        grows := hGrows
        bindings := refl _
        options := rfl
        plan := rfl
        regular :=
          { keyed := hRegular.keyed
            present := fun id hMem => by
              obtain ⟨m', hMethod⟩ := hRegular.present id hMem
              exact ⟨m', by rwa [Program.method?, ← hSame] at hMethod⟩
            modes := hRegular.modes
            copies := fun field hMem =>
              (hRegular.copies field hMem).trans_le hGrows.fields.length_le }
        root := rfl
        roots := fun type hRoot => by
          unfold Closures.displayRoot? at hRoot ⊢
          rw [Table.get?_insert]
          split
          · exact Option.some_ne_none _
          · exact hRoot
        copied := fun _ => Or.inl
        callers := fun _ _ => Or.inl
        enqueued := fun _ => Or.inl }
    refine hFirst.enqueue (fun id hMem => ?_) fun id hMem => ?_
    · obtain ⟨target, -, hCaller⟩ := List.mem_flatMap.mp hMem
      obtain ⟨m', hMethod⟩ := hRegular.present id (Or.inr (Or.inr ⟨target, hCaller⟩))
      exact ⟨m', by rwa [Program.method?, ← hSame] at hMethod⟩
    · obtain ⟨target, hConstructor, hCaller⟩ := List.mem_flatMap.mp hMem
      refine Or.inr (Or.inr ⟨target, hCaller, fun hOwned => Or.inr ?_⟩)
      obtain ⟨m', hMethod, hOwner, hKind⟩ := (hGrows.owned hOwned).constructor hConstructor
      refine ⟨m', hMethod, hKind, ?_⟩
      change (s.closures.displayRoots.insert m.owner field).get? m'.owner ≠ none
      rw [hOwner, Table.get?_insert, if_pos rfl]
      exact Option.some_ne_none _

/-- Copying display classes makes no methods wait yet. -/
theorem relocate_settles {method : MethodId} {holder generated : TypeId} {ids : List MethodId}
    (h : closures (ClosureEdit.relocateDisplayClasses method holder generated) s = .ok ids t)
    (hRegular : s.Regular ahead) :
    s.Settles copying ahead t ∧ ∀ id ∈ ids, s.program.Arrived t.program id := by
  have hAdvances := (keeps_closures (ClosureEdit.keeps_relocateDisplayClasses
    (S := fun _ => True) trivial) h).advanced hRegular.keyed
  obtain ⟨v, hRelocate, rfl⟩ := Step.focus_ok.mp h
  obtain ⟨hRelocates, hArrived⟩ := ClosureEdit.relocateDisplayClasses_relocates hRelocate
  refine ⟨?_, hArrived⟩
  exact
    { toAdvances := hAdvances
      regular :=
        { keyed := hAdvances.keyed
          present := fun id hMem => by
            obtain ⟨m, hMethod⟩ := hRegular.present id hMem
            obtain ⟨m', hMethod', -⟩ := hRelocates.grows.method hMethod
            exact ⟨m', hMethod'⟩
          modes := hRegular.modes
          copies := fun field hMem => by
            rcases hRelocates.copied field hMem with hMem | ⟨-, hThere⟩
            · exact (hRegular.copies field hMem).trans_le hRelocates.grows.fields.length_le
            · exact hThere }
      root := hRelocates.root
      roots := hRelocates.roots
      copied := fun field hMem => (hRelocates.copied field hMem).imp_right And.left
      callers := fun _ _ => Or.inl
      enqueued := fun _ => Or.inl }

/-- Moving a method brings in the methods of the display classes that are copied for it. -/
theorem settled_convertOne {context : ContextId} {method : MethodId} :
    Keeps (Settled True ahead) (convertOne context method) := by
  intro s made t h hRegular
  obtain ⟨_, _, hGet, h⟩ := Step.bind_ok.mp h
  obtain ⟨rfl, rfl⟩ := Step.get_ok.mp hGet
  split at h
  · obtain ⟨-, rfl⟩ := Step.pure_ok.mp h
    exact .refl hRegular
  · obtain ⟨⟨replacement, fresh⟩, s₁, hMade, h⟩ := Step.bind_ok.mp h
    obtain ⟨_, s₂, hBind, h⟩ := Step.bind_ok.mp h
    have h₁ : s.Settles True ahead s₁ :=
      settled_codeOnly codeOnly_convertedReplacement advances_convertedReplacement hMade hRegular
    have h₂ := h₁.trans (settled_bindMethod (by simp) hBind h₁.regular)
    have hEnd {u : Propagation} (hSoFar : s.Settles True ahead u)
        (h : (do
          adoptInitUnit context method replacement
          pure (some (method, replacement)) : Propagate (Option (MethodId × MethodId))) u
            = .ok made t) : s.Settles True ahead t := by
      obtain ⟨_, v, hAdopt, h⟩ := Step.bind_ok.mp h
      obtain ⟨-, rfl⟩ := Step.pure_ok.mp h
      exact hSoFar.trans (settled_adoptInitUnit hAdopt hSoFar.regular)
    split at h
    · obtain ⟨copied, s₃, hRelocate, h⟩ := Step.bind_ok.mp h
      obtain ⟨_, s₄, hEnqueue, h⟩ := Step.bind_ok.mp h
      obtain rfl := Step.modify_ok.mp hEnqueue
      obtain ⟨hRelocated, hArrived⟩ := relocate_settles hRelocate h₂.regular
      refine hEnd ((h₂.trans hRelocated).enqueue (fun id hMem => ?_) fun id hMem => ?_) h
      · obtain ⟨-, m, hMethod, -⟩ := hArrived id hMem
        exact ⟨m, hMethod⟩
      · exact Or.inr (Or.inl ⟨trivial, (hArrived id hMem).earlier h₂.grows⟩)
    · exact hEnd h₂ h

theorem Reports.paired {made : List (MethodId × MethodId)} (h : Reports s made t) :
    ∀ e ∈ made, t.Paired e := fun e hMem => (h e hMem).2

/-- Moving methods to a context makes no others wait than those of copied display classes. -/
theorem settled_convert {method : MethodId} {context : ContextId} :
    Keeps (Settled True ahead) (convert method context) := by
  intro s u t h hRegular
  obtain ⟨_, _, hGet, h⟩ := Step.bind_ok.mp h
  obtain ⟨rfl, rfl⟩ := Step.get_ok.mp hGet
  obtain ⟨group, _, hGroup, h⟩ := Step.bind_ok.mp h
  obtain ⟨-, rfl⟩ := bindingGroup_ok hGroup
  obtain ⟨made, s₁, hMade, h⟩ := Step.bind_ok.mp h
  obtain ⟨_, s₂, hAlign, h⟩ := Step.bind_ok.mp h
  obtain ⟨-, hReports⟩ := bindAll_binds (f := convertOne context) convertOne_binds hMade
  have hMoved : Settled True ahead s s₁ := Keeps.mapM (fun _ _ => settled_convertOne) hMade
  have hAligned : Settled True ahead s₁ s₂ := Keeps.forM (fun _ _ =>
    settled_codeOnly codeOnly_alignProperty
      (advances_changed (S := fun _ => False) changes_alignProperty)) hAlign
  have h₁ := hMoved hRegular
  have h₂ := hAligned h₁.regular
  refine (h₁.trans h₂).trans (complete_settles h h₂.regular fun e hMem => ?_)
  exact (hReports.paired e hMem).later h₂.bindings

theorem settled_addParameterTo {method : MethodId} :
    Keeps (Settled copying ahead) (addParameterTo method) := by
  intro s made t h hRegular
  rcases addParameterTo_ok h with ⟨-, rfl, -⟩ | ⟨m, replacement, r, -, -, -, hStands, hBind⟩
  · exact .refl hRegular
  · have hFirst : s.Settles copying ahead r := by
      rcases hStands with ⟨rfl, -⟩ | hCopy
      · exact .refl hRegular
      · exact settled_codeOnly codeOnly_makeCopy advances_makeCopy hCopy hRegular
    exact hFirst.trans (settled_bindMethod (by simp) hBind hFirst.regular)

/-- Giving methods a parameter makes no others wait. -/
theorem settled_addParameter {method : MethodId} :
    Keeps (Settled copying ahead) (addParameter method) := by
  intro s u t h hRegular
  obtain ⟨group, s₁, hGroup, h⟩ := Step.bind_ok.mp h
  obtain ⟨-, rfl⟩ := bindingGroup_ok hGroup
  obtain ⟨_, s₂, hRequire, h⟩ := Step.bind_ok.mp h
  obtain ⟨rfl, -⟩ := requireAllUnconverted_ok hRequire
  obtain ⟨made, s₃, hMade, h⟩ := Step.bind_ok.mp h
  obtain ⟨_, s₄, hOverrides, h⟩ := Step.bind_ok.mp h
  obtain ⟨_, s₅, hAlign, h⟩ := Step.bind_ok.mp h
  obtain ⟨-, hReports⟩ := bindAll_binds (f := addParameterTo) addParameterTo_binds hMade
  have hGiven : Settled copying ahead s s₃ :=
    Keeps.mapM (fun _ _ => settled_addParameterTo) hMade
  have hMapped : Settled copying ahead s₃ s₄ := Keeps.forM (fun _ _ =>
    settled_codeOnly codeOnly_mapOverrides
      (advances_changed (S := fun _ => False) changes_mapOverrides)) hOverrides
  have hAligned : Settled copying ahead s₄ s₅ := Keeps.forM (fun _ _ =>
    settled_codeOnly codeOnly_alignProperty
      (advances_changed (S := fun _ => False) changes_alignProperty)) hAlign
  have h₃ := hGiven hRegular
  have h₅ := IsTrans.trans _ _ _ hMapped hAligned h₃.regular
  refine (h₃.trans h₅).trans (complete_settles h h₅.regular fun e hMem => ?_)
  exact (hReports.paired e hMem).later h₅.bindings

end Propagate

end ContextBinding
