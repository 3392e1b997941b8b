import ContextBinding.Proofs.Closure
import ContextBinding.Propagation.Run

/-! What a run never takes back. From one point of a run to a later one the
 program grows, bindings stay, the plan changes in its init units only, and the
 types that the run declares are new. -/

namespace ContextBinding

/-- A plan without its init units. -/
def ContextPlan.shape (plan : ContextPlan) : ContextPlan :=
  { plan with contexts := plan.contexts.map fun c => { c with initUnits := [] } }

theorem ContextPlan.shape_replaceInitUnit (plan : ContextPlan) (id : ContextId)
    (unit replacement : MethodId) : (plan.replaceInitUnit id unit replacement).shape = plan.shape := by
  unfold shape replaceInitUnit
  congr 1
  refine List.ext_getElem? fun i => ?_
  simp only [List.getElem?_map, List.getElem?_modify]
  cases plan.contexts[i]? with
  | none => rfl
  | some c => split <;> rfl

/-- A map of bindings that has all that another one has. -/
def BindingMap.Extends (m m' : BindingMap) : Prop :=
  ∀ method b, m.get? method = some b → m'.get? method = some b

namespace BindingMap

instance : IsPreorder BindingMap Extends where
  refl _ _ _ := id
  trans _ _ _ h h' method b hGet := h' method b (h method b hGet)

/-- What is free in the larger map is free in the other one. -/
theorem Extends.free {m m' : BindingMap} (h : m.Extends m') {id : MethodId}
    (hFree : m'.get? id = none) : m.get? id = none := by
  cases hGet : m.get? id with
  | none => rfl
  | some b => simp [h id b hGet] at hFree

/-- Binding a method keeps what was bound. -/
theorem bind_ok {m m' : BindingMap} {p : Program} {b : Binding} (h : m.bind p b = .ok m') :
    m.Extends m' ∧ m'.get? b.method = some b ∧
      ∀ method c, m'.get? method = some c → m.get? method = some c ∨ c = b ∧ method = b.method := by
  unfold bind at h
  cases hGet : m.get? b.method with
  | none =>
      simp only [hGet, Except.ok.injEq] at h
      subst h
      refine ⟨fun method c hc => ?_, by simp [get?, Table.get?_insert], fun method c hc => ?_⟩
      · have hOther : b.method ≠ method := by
          rintro rfl
          simp [hGet] at hc
        simpa [get?, Table.get?_insert, hOther] using hc
      · simp only [get?, Table.get?_insert] at hc
        split at hc
        · rename_i hSame
          exact Or.inr ⟨(Option.some_inj.mp hc).symm, hSame.symm⟩
        · exact Or.inl hc
  | some existing =>
      simp only [hGet] at h
      split at h
      · rename_i hSame
        obtain rfl := Except.ok.inj h
        exact ⟨refl m, hSame ▸ hGet, fun _ _ => Or.inl⟩
      · simp at h

/-- Binding a method adds its binding only. -/
theorem mem_bind {m m' : BindingMap} {p : Program} {b c : Binding}
    (h : m.bind p b = .ok m') (hMem : c ∈ m'.toList) : c = b ∨ c ∈ m.toList := by
  unfold bind at h
  cases hGet : m.get? b.method with
  | none =>
      simp only [hGet, Except.ok.injEq] at h
      subst h
      exact Table.mem_values_insert hMem
  | some existing =>
      simp only [hGet] at h
      split at h
      · exact Or.inr (Except.ok.inj h ▸ hMem)
      · simp at h

end BindingMap

namespace Propagation

/-- The state in which the visits of a batch begin. -/
def opened (s : Propagation) : Propagation :=
  { s.count fun n => { n with iterations := n.iterations + 1 } with pending := [] }

/-- A run begins with no capture records. -/
theorem keyed_start (p : Program) (plan : ContextPlan) (options : PropagationOptions) :
    (start p plan options).closures.Keyed := nofun

/-- It begins with no types of its own. -/
theorem not_owns_start (p : Program) (plan : ContextPlan) (options : PropagationOptions)
    (type : TypeId) : ¬ (start p plan options).closures.Owns type := by
  rintro (⟨_, _, hGet, -⟩ | ⟨_, _, hGet, -⟩) <;> cases hGet

/-- What holds of a later point of a run. -/
structure Advances (s t : Propagation) : Prop where
  keyed : t.closures.Keyed
  learns : s.closures.Learns t.closures
  fresh : ∀ type, t.closures.Owns type →
    s.closures.Owns type ∨ s.program.types.length ≤ type.index
  grows : s.program.Grows t.program
  bindings : s.bindings.Extends t.bindings
  options : t.options = s.options
  plan : t.plan.shape = s.plan.shape

/-- A step of a run leads to a later point. -/
def Advanced (s t : Propagation) : Prop := s.closures.Keyed → s.Advances t

namespace Advances

variable {s t u : Propagation}

protected theorem refl (h : s.closures.Keyed) : s.Advances s :=
  ⟨h, refl _, fun _ => Or.inl, .refl _, refl _, rfl, rfl⟩

protected theorem trans (h : s.Advances t) (h' : t.Advances u) : s.Advances u where
  keyed := h'.keyed
  learns := IsTrans.trans _ _ _ h.learns h'.learns
  fresh type hOwned := (h'.fresh type hOwned).elim (h.fresh type)
    fun hNew => Or.inr (h.grows.types.length_le.trans hNew)
  grows := h.grows.trans h'.grows
  bindings := IsTrans.trans _ _ _ h.bindings h'.bindings
  options := h'.options.trans h.options
  plan := h'.plan.trans h.plan

end Advances

instance : IsPreorder Propagation Advanced where
  refl _ h := .refl h
  trans _ _ _ h h' hKeyed := (h hKeyed).trans (h' (h hKeyed).keyed)

theorem mem_enqueue {s : Propagation} {methods : List MethodId} {id : MethodId} :
    id ∈ (s.enqueue methods).pending ↔ id ∈ s.pending ∨ id ∈ methods := by
  change id ∈ ascending (s.pending ++ methods) ↔ _
  rw [mem_ascending, List.mem_append]

/-- The state changed by edits of the code of the methods in `S`. Its graph and its
bindings did not, and no method was taken out of the next batch. -/
structure Changed (S : MethodId → Prop) (s t : Propagation) : Prop where
  code : s.closures.Keyed → Closures.Adapted S (s.closures, s.work) (t.closures, t.work)
  graph : t.graph = s.graph
  bindings : t.bindings = s.bindings
  options : t.options = s.options
  plan : t.plan = s.plan
  pending : s.pending ⊆ t.pending

/-- The change leaves the declarations alone, too. -/
structure Edited (S : MethodId → Prop) (s t : Propagation) : Prop extends Changed S s t where
  steady : s.program.Steady .none t.program

namespace Changed

variable {S : MethodId → Prop} {s t : Propagation}

instance : IsPreorder Propagation (Changed S) where
  refl _ := ⟨fun h => .refl h, rfl, rfl, rfl, rfl, fun _ => id⟩
  trans _ _ _ h h' :=
    { code := fun hKeyed => (h.code hKeyed).trans (h'.code (h.code hKeyed).keyed)
      graph := h'.graph.trans h.graph
      bindings := h'.bindings.trans h.bindings
      options := h'.options.trans h.options
      plan := h'.plan.trans h.plan
      pending := List.Subset.trans h.pending h'.pending }

theorem advanced (h : Changed S s t) : Advanced s t := by
  intro hKeyed
  obtain ⟨hKeyed', hLearns, hFresh, -, hProgram⟩ := h.code hKeyed
  exact ⟨hKeyed', hLearns, hFresh, hProgram.grows, h.bindings ▸ refl _, h.options,
    congrArg _ h.plan⟩

end Changed

instance {S : MethodId → Prop} : IsPreorder Propagation (Edited S) where
  refl s := ⟨refl s, .refl _⟩
  trans _ _ _ h h' :=
    ⟨IsTrans.trans _ _ _ h.toChanged h'.toChanged, h.steady.trans h'.steady⟩

end Propagation

namespace Propagate

open Propagation (Advanced Changed Edited)

variable {α : Type} {S : MethodId → Prop} {s t : Propagation}

theorem keeps_work {e : CodeEdit α} (h : ∀ N, Keeps (Workspace.Confined S N) e) :
    Keeps (Edited S) (work e) := by
  intro s a t hRun
  obtain ⟨w, hEdit, rfl⟩ := Step.focus_ok.mp hRun
  refine ⟨⟨fun hKeyed => ?_, rfl, rfl, rfl, rfl, fun _ => id⟩, (h (fun _ => False) hEdit).steady⟩
  exact ⟨hKeyed, refl _, fun _ => Or.inl, fun _ _ => Or.inl, (h _ hEdit).toConfined⟩

theorem keeps_closures {e : ClosureEdit α} (h : Keeps (ClosureEdit.Confined S) e) :
    Keeps (Edited S) (closures e) := by
  intro s a t hRun
  obtain ⟨u, hEdit, rfl⟩ := Step.focus_ok.mp hRun
  exact ⟨⟨(h hEdit).adapted, rfl, rfl, rfl, rfl, fun _ => id⟩, (h hEdit).steady⟩

theorem keeps_edit {e : Edit α} (h : ∀ N, Keeps (Program.Rewrites S N) e) :
    Keeps (Edited S) (edit e) :=
  keeps_work fun N => CodeEdit.keeps_edit (h N)

theorem changes_edit {e : Edit α} (h : ∀ N, Keeps (Program.Confined S N) e) :
    Keeps (Changed S) (edit e) := by
  intro s a t hRun
  unfold edit work at hRun
  obtain ⟨w, hWork, rfl⟩ := Step.focus_ok.mp hRun
  obtain ⟨p, hEdit, rfl⟩ := CodeEdit.edit_ok.mp hWork
  refine ⟨fun hKeyed => ?_, rfl, rfl, rfl, rfl, fun _ => id⟩
  exact ⟨hKeyed, refl _, fun _ => Or.inl, fun _ _ => Or.inl, h _ hEdit⟩

/-- What leaves the declarations alone is a change of code. -/
theorem changes_edited {x : Propagate α} (h : Keeps (Edited S) x) : Keeps (Changed S) x :=
  h.mono fun _ _ h => h.toChanged

theorem keeps_editBody {method : MethodId} {e : BodyEdit α} (hS : S method)
    (he : Keeps MethodBody.Revises e) : Keeps (Edited S) (editBody method e) :=
  keeps_edit fun _ => Program.keeps_editBody hS he

theorem keeps_model {f : Program → Except ModelError α} : Keeps (Edited S) (model f) :=
  keeps_work fun _ => CodeEdit.keeps_model

theorem keeps_count {f : PropagationStats → PropagationStats} :
    Keeps (Edited S) (modify (.count f) : Propagate PUnit) :=
  Keeps.modify fun _ => ⟨⟨fun h => .refl h, rfl, rfl, rfl, rfl, fun _ => id⟩, .refl _⟩

theorem keeps_enqueue {methods : List MethodId} :
    Keeps (Edited S) (modify (.enqueue methods) : Propagate PUnit) :=
  Keeps.modify fun _ =>
    ⟨⟨fun h => .refl h, rfl, rfl, rfl, rfl, fun _ => Propagation.mem_enqueue.mpr ∘ Or.inl⟩, .refl _⟩

theorem keeps_program : Keeps (Edited S) program :=
  Keeps.bind Keeps.get fun _ => Keeps.pure _

/-- Binding a method edits no code. -/
theorem bindMethod_ok {b : Binding} {u : Unit} (h : bindMethod b s = .ok u t) :
    ∃ m, s.bindings.bind s.program b = .ok m ∧ { s with bindings := m } = t := by
  unfold bindMethod at h
  obtain ⟨_, _, hGet, h⟩ := Step.bind_ok.mp h
  obtain ⟨rfl, rfl⟩ := Step.get_ok.mp hGet
  obtain ⟨m, _, hBound, h⟩ := Step.bind_ok.mp h
  unfold bound work at hBound
  obtain ⟨w, hWork, rfl⟩ := Step.focus_ok.mp hBound
  obtain ⟨hBind, rfl⟩ := CodeEdit.bound_ok.mp hWork
  exact ⟨m, hBind, Step.modify_ok.mp h⟩

/-- A method is bound then. -/
theorem bindMethod_bound {b : Binding} {u : Unit} (h : bindMethod b s = .ok u t) :
    t.bindings.get? b.method = some b := by
  obtain ⟨m, hBind, rfl⟩ := bindMethod_ok h
  exact (BindingMap.bind_ok hBind).2.1

theorem advances_bindMethod {b : Binding} : Keeps Advanced (bindMethod b) := by
  intro s u t h hKeyed
  obtain ⟨m, hBind, rfl⟩ := bindMethod_ok h
  exact ⟨hKeyed, refl _, fun _ => Or.inl, .refl _, (BindingMap.bind_ok hBind).1, rfl, rfl⟩

section Adapt

variable {R : Propagation → Propagation → Prop} [IsPreorder Propagation R] {site : RootedMethod}

/-- A relation is kept by all edits of code that edit no method outside `S`, and by counting what is
neither a batch nor a transition. -/
structure WorkKeeps (S : MethodId → Prop) (R : Propagation → Propagation → Prop) : Prop where
  work : ∀ {α : Type} {e : CodeEdit α}, (∀ N, Keeps (Workspace.Confined S N) e) → Keeps R (work e)
  count : ∀ {f : PropagationStats → PropagationStats}, (∀ n, (f n).iterations = n.iterations) →
    (∀ n, (f n).transitions = n.transitions) → Keeps R (modify (.count f) : Propagate PUnit)

theorem workKeeps_edited : WorkKeeps S (Edited S) := ⟨keeps_work, fun _ _ => keeps_count⟩

omit [IsPreorder Propagation R] in
theorem WorkKeeps.editBody {e : BodyEdit α} (hWork : WorkKeeps S R) {method : MethodId}
    (hS : S method) (he : Keeps MethodBody.Revises e) : Keeps R (editBody method e) :=
  hWork.work fun _ => CodeEdit.keeps_edit (Program.keeps_editBody hS he)

theorem loadContext_keeps (hWork : WorkKeeps S R) {context : ContextId} {access : ChainAccess} :
    Keeps R (loadContext site context access) :=
  Keeps.bind Keeps.get fun _ => hWork.work fun _ => CodeEdit.keeps_bound

theorem insertBelow_keeps (hWork : WorkKeeps S R) {method : MethodId} (hS : S method) {id : InstrId}
    {slot : Nat} {seq : List Instruction} : Keeps R (insertBelow method id slot seq) := by
  refine Keeps.bind (hWork.work fun N => CodeEdit.keeps_insertBelow hS) fun placement => ?_
  cases placement with
  | before _ => exact Keeps.pure _
  | spilled _ => exact hWork.count (fun _ => rfl) fun _ => rfl

theorem adaptField_keeps (hWork : WorkKeeps S R) (hS : S site.method) {id : InstrId}
    {context : ContextId} {moved : FieldId} : Keeps R (adaptField site id context moved) := by
  have hReplace {seq : List Instruction} :
      Keeps R (editBody site.method (MethodBody.replaceWith id seq)) :=
    hWork.editBody hS MethodBody.revises_replaceWith
  refine Keeps.bind (hWork.work fun N => CodeEdit.keeps_instruction) fun i => ?_
  split
  · refine Keeps.bind (loadContext_keeps hWork) fun code => ?_
    exact Keeps.bind hReplace fun _ => Keeps.pure _
  · refine Keeps.bind (loadContext_keeps hWork) fun code => ?_
    exact Keeps.bind hReplace fun _ => Keeps.pure _
  · refine Keeps.bind (loadContext_keeps hWork) fun code => ?_
    refine Keeps.bind (insertBelow_keeps hWork hS) fun _ => ?_
    exact hWork.editBody hS MethodBody.revises_replace
  · exact Keeps.pure _

theorem adaptCall_keeps (hWork : WorkKeeps S R) (hS : S site.method) {id : InstrId} {b : Binding} :
    Keeps R (adaptCall site id b) := by
  refine Keeps.bind (hWork.work fun N => CodeEdit.keeps_instruction) fun i => ?_
  split
  · have hRest (slot : Nat) : Keeps R (do
        let root ← bound fun p => site.handle.loadRoot p site.method
        insertBelow site.method id slot root
        editBody site.method (MethodBody.setOperand id (.method b.replacement))) := by
      refine Keeps.bind (hWork.work fun N => CodeEdit.keeps_bound) fun root => ?_
      refine Keeps.bind (insertBelow_keeps hWork hS) fun _ => ?_
      exact hWork.editBody hS MethodBody.revises_setOperand
    refine Keeps.ite (Keeps.bind (Keeps.pure _) hRest) ?_
    refine Keeps.bind (hWork.work fun N => CodeEdit.keeps_model) fun _ => ?_
    exact Keeps.bind (Keeps.pure _) hRest
  · refine Keeps.bind (loadContext_keeps hWork) fun code => ?_
    refine Keeps.bind (insertBelow_keeps hWork hS) fun _ => ?_
    exact hWork.editBody hS MethodBody.revises_replace
  · exact Keeps.pure _

theorem adaptCapture_keeps (hWork : WorkKeeps S R) {id : InstrId} {b : Binding}
    (hCapture : ∀ plan, Keeps R (closures (ClosureEdit.adaptCapture plan site id b))) :
    Keeps R (adaptCapture site id b) := by
  refine Keeps.bind (hWork.count (fun _ => rfl) fun _ => rfl) fun _ => ?_
  refine Keeps.bind Keeps.get fun s => Keeps.bind (hCapture _) fun outcome => ?_
  cases outcome <;> exact Keeps.pure _

/-- What edits of the code of a method keep, and counting, is kept when a place in it is adapted, if
adapting a capture and filling a field for the root keep it. -/
theorem adaptSite_keeps {place : NeedySite} (hS : S site.method) (hWork : WorkKeeps S R)
    (hCapture : ∀ plan b, place.need = .capture b →
      Keeps R (closures (ClosureEdit.adaptCapture plan site place.instr b)))
    (hStore : ∀ field, Keeps R (closures (ClosureEdit.storeDisplayRoot site place.instr field))) :
    Keeps R (adaptSite site place) := by
  unfold adaptSite
  cases hNeed : place.need with
  | staticField context moved => exact Keeps.bind (adaptField_keeps hWork hS) fun _ => Keeps.pure _
  | singleton context =>
      refine Keeps.bind (Keeps.bind (loadContext_keeps hWork) fun code => ?_) fun _ => Keeps.pure _
      exact Keeps.bind (hWork.editBody hS MethodBody.revises_replaceWith) fun _ => Keeps.pure _
  | boundCall b => exact Keeps.bind (adaptCall_keeps hWork hS) fun _ => Keeps.pure _
  | capture b => exact adaptCapture_keeps hWork fun plan => hCapture plan b hNeed
  | displayStore field => exact Keeps.bind (hStore field) fun _ => Keeps.pure _

end Adapt

/-- Adapting a place edits no other method. -/
theorem keeps_adaptSite {site : RootedMethod} {place : NeedySite} (hS : S site.method) :
    Keeps (Edited S) (adaptSite site place) :=
  adaptSite_keeps hS workKeeps_edited
    (fun _ _ _ => keeps_closures (ClosureEdit.keeps_adaptCapture hS))
    fun _ => keeps_closures (ClosureEdit.keeps_storeDisplayRoot hS)

theorem program_ok {p : Program} : program s = .ok p t ↔ s.program = p ∧ s = t := by
  unfold program
  simp only [Step.bind_ok, Step.get_ok, Step.pure_ok]
  constructor
  · rintro ⟨_, _, ⟨rfl, rfl⟩, rfl, rfl⟩
    exact ⟨rfl, rfl⟩
  · rintro ⟨rfl, rfl⟩
    exact ⟨s, s, ⟨rfl, rfl⟩, rfl, rfl⟩

theorem edit_ok {e : Edit α} {a : α} :
    edit e s = .ok a t ↔ ∃ p, e s.program = .ok a p ∧
      { s with work := { s.work with program := p } } = t := by
  unfold edit work
  rw [Step.focus_ok]
  constructor
  · rintro ⟨w, hEdit, rfl⟩
    obtain ⟨p, h, rfl⟩ := CodeEdit.edit_ok.mp hEdit
    exact ⟨p, h, rfl⟩
  · rintro ⟨p, h, rfl⟩
    exact ⟨_, CodeEdit.edit_ok.mpr ⟨p, h, rfl⟩, rfl⟩

theorem model_ok {f : Program → Except ModelError α} {a : α} :
    model f s = .ok a t ↔ f s.program = .ok a ∧ s = t := by
  unfold model work
  rw [Step.focus_ok]
  constructor
  · rintro ⟨w, hModel, rfl⟩
    obtain ⟨h, rfl⟩ := CodeEdit.model_ok.mp hModel
    exact ⟨h, rfl⟩
  · rintro ⟨h, rfl⟩
    exact ⟨_, CodeEdit.model_ok.mpr ⟨h, rfl⟩, rfl⟩

theorem graph_ok {e : Program → GraphEdit α} {a : α} :
    graph e s = .ok a t ↔ ∃ u, e s.program (s.graph, s.work.flow) = .ok a u ∧
      { s with graph := u.1, work := { s.work with flow := u.2 } } = t := by
  unfold graph
  rw [Step.bind_ok]
  constructor
  · rintro ⟨p, _, hProgram, h⟩
    obtain ⟨rfl, rfl⟩ := program_ok.mp hProgram
    exact Step.focus_ok.mp h
  · intro h
    exact ⟨s.program, s, program_ok.mpr ⟨rfl, rfl⟩, Step.focus_ok.mpr h⟩

theorem advances_changed {x : Propagate α} (h : Keeps (Changed S) x) : Keeps Advanced x :=
  h.mono fun _ _ h => h.advanced

/-- A step that edits code advances. -/
theorem advances_edited {x : Propagate α} (h : Keeps (Edited S) x) : Keeps Advanced x :=
  advances_changed (changes_edited h)

theorem advances_edit {e : Edit α} (h : Keeps Program.Grows e) : Keeps Advanced (edit e) := by
  intro s a t hRun hKeyed
  obtain ⟨p, hEdit, rfl⟩ := edit_ok.mp hRun
  exact ⟨hKeyed, refl _, fun _ => Or.inl, h hEdit, refl _, rfl, rfl⟩

theorem advances_graph {e : Program → GraphEdit α} : Keeps Advanced (graph e) := by
  intro s a t hRun hKeyed
  obtain ⟨u, -, rfl⟩ := graph_ok.mp hRun
  exact ⟨hKeyed, refl _, fun _ => Or.inl, .refl _, refl _, rfl, rfl⟩

/-- A display class leads to the root over its field. If it has none, it is given one,
and the callers of its constructors are visited next. -/
theorem displayHandle?_ok {method : MethodId} {handle : Option HandleSource}
    (h : displayHandle? method s = .ok handle t) :
    s = t ∨ ∃ m field p, s.program.method? method = some m ∧ m.isStatic = false ∧
      (∃ type, s.program.type? m.owner = some type ∧ type.isDisplayClass = true) ∧
      s.closures.displayRoot? m.owner = none ∧ handle = some (.capturedRoot field) ∧
      Program.addField m.owner Closures.displayRootName (.named s.closures.root)
        (.ofList [.compilerGenerated]) s.program = .ok field p ∧
      t = ({ s with
        closures := { s.closures with displayRoots := s.closures.displayRoots.insert m.owner field }
        work := { s.work with program := p } } : Propagation).enqueue
          ((p.constructors m.owner).flatMap s.graph.callerMethods) := by
  obtain ⟨m, _, hModel, h⟩ := Step.bind_ok.mp h
  obtain ⟨hMethod, rfl⟩ := model_ok.mp hModel
  obtain ⟨type, _, hModel, h⟩ := Step.bind_ok.mp h
  obtain ⟨hType, rfl⟩ := model_ok.mp hModel
  split at h
  · exact Or.inl (Step.pure_ok.mp h).2
  · rename_i hEither
    obtain ⟨hInstance, hClass⟩ : m.isStatic = false ∧ type.isDisplayClass = true := by
      simpa using hEither
    obtain ⟨⟨field, created⟩, s₁, hEnsure, h⟩ := Step.bind_ok.mp h
    obtain ⟨_, hDisplay, rfl⟩ := Step.focus_ok.mp hEnsure
    rcases ClosureEdit.ensureDisplayRoot_ok hDisplay with
      ⟨-, rfl, rfl⟩ | ⟨hNone, rfl, p, hField, rfl⟩
    · exact Or.inl (Step.pure_ok.mp h).2
    · obtain ⟨_, _, hGet, h⟩ := Step.bind_ok.mp h
      obtain ⟨rfl, rfl⟩ := Step.get_ok.mp hGet
      obtain ⟨_, _, hEnqueue, h⟩ := Step.bind_ok.mp h
      obtain rfl := Step.modify_ok.mp hEnqueue
      obtain ⟨rfl, rfl⟩ := Step.pure_ok.mp h
      exact Or.inr ⟨m, field, p, Program.methodDef_ok.mp hMethod, hInstance,
        ⟨type, Program.typeDef_ok.mp hType, hClass⟩, hNone, rfl, hField, rfl⟩

theorem advances_displayHandle? {method : MethodId} : Keeps Advanced (displayHandle? method) := by
  intro s handle t h hKeyed
  rcases displayHandle?_ok h with rfl | ⟨m, field, p, -, -, -, -, -, hField, rfl⟩
  · exact .refl hKeyed
  · obtain ⟨-, hGrows, -, -, -⟩ := Program.addField_ok hField
    exact ⟨hKeyed, ⟨fun _ h => h, fun _ h => h, rfl⟩, fun _ => Or.inl, hGrows, refl _, rfl, rfl⟩

theorem keeps_handleOf? {method : MethodId} : Keeps (Edited S) (handleOf? method) := by
  refine Keeps.bind Keeps.get fun s => Keeps.bind keeps_model fun m => ?_
  dsimp only
  split
  · split <;> exact Keeps.pure _
  · refine Keeps.ite (Keeps.pure _) (Keeps.ite (Keeps.pure _) ?_)
    split <;> exact Keeps.pure _

theorem keeps_scan {method : MethodId} : Keeps (Edited S) (scan method) :=
  Keeps.bind Keeps.get fun _ => Keeps.bind keeps_model fun _ => Keeps.pure _

theorem keeps_bindingGroup {method : MethodId} {withOverrides : Bool} :
    Keeps (Edited S) (bindingGroup method withOverrides) :=
  Keeps.bind Keeps.get fun _ => keeps_model

theorem keeps_requireUnconverted {method member : MethodId} :
    Keeps (Edited S) (requireUnconverted method member) := by
  refine Keeps.bind Keeps.get fun s => ?_
  split
  · exact Keeps.throw _
  · exact Keeps.pure _

/-- Aligning a property edits no code. -/
theorem changes_alignProperty {into : Option TypeId} {method replacement : MethodId} :
    Keeps (Changed S) (alignProperty into method replacement) := by
  have hReads {β : Type} {f : Program → Except ModelError β} : Keeps (Changed S) (model f) :=
    changes_edited keeps_model
  refine Keeps.bind hReads fun m => Keeps.ite (Keeps.bind hReads fun owner => ?_) ?_
  · split
    · exact Keeps.pure _
    · refine Keeps.ite (changes_edit fun N => ?_) ?_
      · exact Program.keeps_modifyMethod (fun m => .dropSpecialName m) fun _ => rfl
      · split
        · refine changes_edit fun N => Program.keeps_modifyType ?_ ?_
          · exact fun _ => ⟨rfl, rfl, rfl⟩
          · exact fun _ _ h => h
        · refine Keeps.bind hReads fun target => Keeps.ite ?_ (Keeps.pure _)
          exact Keeps.bind Keeps.get fun s => changes_edited (keeps_edit fun N =>
            Program.keeps_addProperty)
  · exact Keeps.pure _

theorem changes_mapOverrides {bound : List (MethodId × MethodId)} {replacement : MethodId} :
    Keeps (Changed S) (mapOverrides bound replacement) := by
  refine Keeps.bind (changes_edited keeps_model) fun m => Keeps.bind Keeps.get fun s => ?_
  refine Keeps.ite (changes_edit fun N => ?_) (Keeps.pure _)
  refine Program.keeps_modifyMethod (fun m => ?_) fun _ => rfl
  exact ⟨rfl, rfl, rfl, rfl, fun _ _ => rfl, fun h => h, fun b hBody => ⟨b, hBody, refl b⟩⟩

theorem advances_adaptInPlace {site : RootedMethod} {places : List NeedySite} :
    Keeps Advanced (adaptInPlace site places) := by
  refine Keeps.bind (Keeps.mapM fun place _ => ?_) fun outcomes => Keeps.ite ?_ (Keeps.pure _)
  · exact advances_edited (keeps_adaptSite (S := fun _ => True) trivial)
  · exact Keeps.bind (advances_edited (S := fun _ => False) keeps_count) fun _ => advances_graph

/-- Marking a replacement edits no code. -/
theorem keeps_markReplacement {N : TypeId → Prop} {id : MethodId} :
    Keeps (Program.Confined S N) (markReplacement id) :=
  Program.keeps_modifyMethod (fun m => .insertMark m rfl) fun _ => rfl

theorem advances_makeCopy {source : MethodId} {owner : TypeId} {name : String}
    {params : List TypeRef} {shape : MethodShape} :
    Keeps Advanced (makeCopy source owner name params shape) := by
  refine Keeps.bind (advances_edited (S := fun _ => False) keeps_program) fun p => ?_
  refine Keeps.bind (advances_edit fun p copy q h => ?_) fun copy => Keeps.bind ?_ fun _ => Keeps.pure _
  · obtain ⟨_, -, -, hGrows, -⟩ := Program.cloneMethod_ok h
    exact hGrows
  · exact advances_changed (S := fun _ => False) (changes_edit fun N => keeps_markReplacement)

section Completion

variable {R : Propagation → Propagation → Prop} [IsPreorder Propagation R]
  {bound : List (MethodId × MethodId)}

theorem model_keeps {f : Program → Except ModelError α} : Keeps R (model f) := by
  intro s a t h
  obtain ⟨-, rfl⟩ := model_ok.mp h
  exact refl s

/-- What keeps whatever is done when the graph is derived anew around bound methods is kept by all of
it. -/
theorem keeps_deriveBound (bound : List (MethodId × MethodId)) (callers : List MethodId)
    (hDerive : ∀ method, Keeps R (graph fun p => GraphEdit.rederive p method))
    (hCount : ∀ f, Keeps R (modify (.count f) : Propagate PUnit))
    (hEnqueue : ∀ methods, Keeps R (modify (.enqueue methods) : Propagate PUnit)) : Keeps R (do
      bound.forM fun e => do
        graph fun p => GraphEdit.rederive p e.1
        graph fun p => GraphEdit.rederive p e.2
        if (← model fun p => p.methodDef e.2).body.isSome then modify (.enqueue [e.2])
        modify (.count fun n => { n with transitions := n.transitions + 1 })
      modify (.enqueue callers) : Propagate Unit) := by
  refine Keeps.bind (Keeps.forM fun e _ => ?_) fun _ => hEnqueue callers
  refine Keeps.bind (hDerive _) fun _ => Keeps.bind (hDerive _) fun _ => ?_
  refine Keeps.bind model_keeps fun m => ?_
  exact Keeps.ite (Keeps.bind (hEnqueue _) fun _ => hCount _) (hCount _)

/-- So is what keeps whatever is done when a transition is completed. -/
theorem keeps_complete (hRetire : ∀ method, Keeps R (edit (Program.retireMethod method)))
    (hOverrides : Keeps R (graph fun p => GraphEdit.update fun g => g.rebuildOverrides p))
    (hDerive : ∀ method, Keeps R (graph fun p => GraphEdit.rederive p method))
    (hCount : ∀ f, Keeps R (modify (.count f) : Propagate PUnit))
    (hEnqueue : ∀ methods, Keeps R (modify (.enqueue methods) : Propagate PUnit)) :
    Keeps R (complete bound) := by
  refine Keeps.ite (Keeps.bind Keeps.get fun s => ?_) (Keeps.pure _)
  refine Keeps.bind (Keeps.mapM fun e _ => ?_) fun virtuals => ?_
  · refine Keeps.bind model_keeps fun m => Keeps.bind Keeps.get fun s => ?_
    exact Keeps.ite (Keeps.bind (hRetire _) fun _ => Keeps.pure _) (Keeps.pure _)
  · have hRest (callers : List MethodId) :=
      keeps_deriveBound bound callers hDerive hCount hEnqueue
    exact Keeps.ite (Keeps.bind hOverrides fun _ => hRest _) (hRest _)

/-- What changes of no code and of the graph keep is kept when a transition is completed. -/
theorem keeps_complete_of_changed (hChanged : ∀ {s t}, Changed (fun _ => False) s t → R s t)
    (hGraph : ∀ e : Program → GraphEdit Unit, Keeps R (graph e)) : Keeps R (complete bound) := by
  have hEdited {β : Type} {x : Propagate β} (h : Keeps (Edited fun _ => False) x) : Keeps R x :=
    h.mono fun _ _ h => hChanged h.toChanged
  refine keeps_complete (fun method => ?_) (hGraph _) (fun _ => hGraph _)
    (fun _ => hEdited keeps_count) fun _ => hEdited keeps_enqueue
  exact (changes_edit fun N => Program.keeps_retireMethod).mono fun _ _ h => hChanged h

end Completion

theorem advances_deriveBound {bound : List (MethodId × MethodId)} {callers : List MethodId} :
    Keeps Advanced (do
      bound.forM fun e => do
        graph fun p => GraphEdit.rederive p e.1
        graph fun p => GraphEdit.rederive p e.2
        if (← model fun p => p.methodDef e.2).body.isSome then modify (.enqueue [e.2])
        modify (.count fun n => { n with transitions := n.transitions + 1 })
      modify (.enqueue callers) : Propagate Unit) :=
  keeps_deriveBound bound callers (fun _ => advances_graph)
    (fun _ => advances_edited (S := fun _ => False) keeps_count)
    fun _ => advances_edited (S := fun _ => False) keeps_enqueue

/-- Retiring a bound method edits no code. -/
theorem changes_retireBound {method : MethodId} : Keeps (Changed S) (do
    let m ← model fun p => p.methodDef method
    if (← get).options.retireReplaced && !m.isRetired then edit (Program.retireMethod method)
    pure m.isVirtual : Propagate Bool) := by
  refine Keeps.bind (changes_edited keeps_model) fun m => Keeps.bind Keeps.get fun s => ?_
  refine Keeps.ite (Keeps.bind ?_ fun _ => Keeps.pure _) (Keeps.pure _)
  exact changes_edit fun N => Program.keeps_retireMethod

theorem advances_complete {bound : List (MethodId × MethodId)} : Keeps Advanced (complete bound) :=
  keeps_complete_of_changed (fun h => h.advanced) fun _ => advances_graph

/-- An init unit is called from a constructor by an edit of its code, which is derived
anew after it. -/
theorem inlineInitUnit_ok {constructor replacement : MethodId} {u : Unit}
    (h : inlineInitUnit constructor replacement s = .ok u t) :
    s = t ∨ ∃ (e : Edit Unit) (s₁ : Propagation), edit e s = .ok () s₁ ∧
      s.program.Rewrites (· = constructor) (fun _ => False) s₁.program ∧
      Edited (· = constructor) s s₁ ∧
      graph (fun p => GraphEdit.rederive p constructor) s₁ = .ok () t := by
  unfold inlineInitUnit at h
  obtain ⟨m, _, hModel, h⟩ := Step.bind_ok.mp h
  obtain ⟨hMethod, rfl⟩ := model_ok.mp hModel
  have hMethod : s.program.method? constructor = some m := Program.methodDef_ok.mp hMethod
  cases hBody : m.body with
  | none =>
      simp only [hBody] at h
      obtain ⟨_, s₁, hEdit, h⟩ := Step.bind_ok.mp h
      refine Or.inr ⟨_, s₁, hEdit, ?_⟩
      obtain ⟨p, hSet, rfl⟩ := edit_ok.mp hEdit
      have hRewrites (N : TypeId → Prop) : s.program.Rewrites (· = constructor) N p := by
        refine Program.setBody_rewrites rfl (fun m' hMethod' => ?_) (MethodBody.numbered_fresh _) hSet
        exact Option.some_inj.mp (hMethod.symm.trans hMethod') ▸ hBody
      refine ⟨hRewrites _, ⟨⟨fun hKeyed => ?_, rfl, rfl, rfl, rfl, fun _ => id⟩,
        (hRewrites fun _ => False).steady⟩, h⟩
      exact ⟨hKeyed, refl _, fun _ => Or.inl, fun _ _ => Or.inl, (hRewrites _).toConfined⟩
  | some b =>
      simp only [hBody] at h
      split at h
      · obtain ⟨_, s₁, hEdit, h⟩ := Step.bind_ok.mp h
        have hEdited : Edited (· = constructor) s s₁ :=
          keeps_editBody (S := (· = constructor)) rfl MethodBody.revises_insertBeforeEach hEdit
        have hRewrites : s.program.Rewrites (· = constructor) (fun _ => False) s₁.program := by
          obtain ⟨p, hCode, rfl⟩ := edit_ok.mp hEdit
          exact Program.keeps_editBody (S := (· = constructor)) rfl
            MethodBody.revises_insertBeforeEach hCode
        exact Or.inr ⟨_, s₁, hEdit, hRewrites, hEdited, h⟩
      · exact Or.inl (Step.pure_ok.mp h).2

theorem advances_inlineInitUnit {constructor replacement : MethodId} :
    Keeps Advanced (inlineInitUnit constructor replacement) := by
  intro s u t h
  rcases inlineInitUnit_ok h with rfl | ⟨_, s₁, -, -, hEdited, hDerive⟩
  · exact refl s
  · exact IsTrans.trans _ _ _ hEdited.advanced (advances_graph hDerive)

theorem advances_adoptInitUnit {context : ContextId} {method replacement : MethodId} :
    Keeps Advanced (adoptInitUnit context method replacement) := by
  intro s u t h
  unfold adoptInitUnit at h
  obtain ⟨_, _, hGet, h⟩ := Step.bind_ok.mp h
  obtain ⟨rfl, rfl⟩ := Step.get_ok.mp hGet
  split at h
  · obtain ⟨_, s₁, hSet, h⟩ := Step.bind_ok.mp h
    obtain rfl := Step.set_ok.mp hSet
    refine IsTrans.trans _ _ _ (fun hKeyed => ?_)
      (Keeps.ite advances_inlineInitUnit (Keeps.pure _) h)
    exact ⟨hKeyed, refl _, fun _ => Or.inl, .refl _, refl _, rfl,
      ContextPlan.shape_replaceInitUnit ..⟩
  · obtain ⟨-, rfl⟩ := Step.pure_ok.mp h
    exact refl s

theorem advances_convertedReplacement {method : MethodId} {context : ContextId} :
    Keeps Advanced (convertedReplacement method context) := by
  refine Keeps.bind Keeps.get fun s => ?_
  dsimp only
  split
  · exact Keeps.pure _
  · refine Keeps.bind (advances_edited (S := fun _ => False) keeps_model) fun m => ?_
    refine Keeps.bind (advances_edited (S := fun _ => False) keeps_program) fun p => ?_
    split
    · exact Keeps.pure _
    · exact Keeps.bind advances_makeCopy fun _ => Keeps.pure _

theorem advances_convertOne {context : ContextId} {method : MethodId} :
    Keeps Advanced (convertOne context method) := by
  refine Keeps.bind Keeps.get fun s => Keeps.ite (Keeps.pure _) ?_
  refine Keeps.bind advances_convertedReplacement fun made => ?_
  refine Keeps.bind advances_bindMethod fun _ => ?_
  have hRest : Keeps Advanced (do
      adoptInitUnit context method made.1
      pure (some (method, made.1)) : Propagate (Option (MethodId × MethodId))) :=
    Keeps.bind advances_adoptInitUnit fun _ => Keeps.pure _
  refine Keeps.ite (Keeps.bind ?_ fun copied => Keeps.bind ?_ fun _ => hRest) hRest
  · refine advances_edited (S := fun _ => True) (keeps_closures ?_)
    exact ClosureEdit.keeps_relocateDisplayClasses trivial
  · exact advances_edited (S := fun _ => False) keeps_enqueue

theorem advances_convert {method : MethodId} {context : ContextId} :
    Keeps Advanced (convert method context) := by
  refine Keeps.bind Keeps.get fun s => ?_
  refine Keeps.bind (advances_edited (S := fun _ => False) keeps_bindingGroup) fun group => ?_
  refine Keeps.bind (Keeps.mapM fun _ _ => advances_convertOne) fun made => ?_
  refine Keeps.bind (Keeps.forM fun _ _ => ?_) fun _ => advances_complete
  exact advances_changed (S := fun _ => False) changes_alignProperty

theorem advances_addParameterTo {method : MethodId} : Keeps Advanced (addParameterTo method) := by
  refine Keeps.bind Keeps.get fun s => Keeps.ite (Keeps.pure _) ?_
  refine Keeps.bind (advances_edited (S := fun _ => False) keeps_model) fun m => ?_
  refine Keeps.bind (advances_edited (S := fun _ => False) keeps_program) fun p => ?_
  have hRest (replacement : MethodId) : Keeps Advanced (do
      bindMethod ⟨method, replacement, .addedParameter⟩
      pure (some (method, replacement)) : Propagate (Option (MethodId × MethodId))) :=
    Keeps.bind advances_bindMethod fun _ => Keeps.pure _
  dsimp only
  split
  · exact Keeps.bind (Keeps.pure _) hRest
  · exact Keeps.bind advances_makeCopy hRest

theorem advances_addParameter {method : MethodId} : Keeps Advanced (addParameter method) := by
  refine Keeps.bind (advances_edited (S := fun _ => False) keeps_bindingGroup) fun group => ?_
  refine Keeps.bind (Keeps.forM fun _ _ => ?_) fun _ => ?_
  · exact advances_edited (S := fun _ => False) keeps_requireUnconverted
  refine Keeps.bind (Keeps.mapM fun _ _ => advances_addParameterTo) fun made => ?_
  refine Keeps.bind (Keeps.forM fun _ _ => ?_) fun _ => ?_
  · exact advances_changed (S := fun _ => False) changes_mapOverrides
  refine Keeps.bind (Keeps.forM fun _ _ => ?_) fun _ => advances_complete
  exact advances_changed (S := fun _ => False) changes_alignProperty

/-- A visit advances the run. -/
theorem advances_visit {method : MethodId} : Keeps Advanced (visit method) := by
  refine Keeps.bind (advances_edited (S := fun _ => False) keeps_count) fun _ => ?_
  refine Keeps.bind (advances_edited (S := fun _ => False) keeps_model) fun m => ?_
  refine Keeps.bind Keeps.get fun s => Keeps.ite ?_ (Keeps.pure _)
  refine Keeps.bind (advances_edited (S := fun _ => False) keeps_scan) fun places => ?_
  refine Keeps.ite ?_ (Keeps.pure _)
  refine Keeps.bind (advances_edited (S := fun _ => False) keeps_handleOf?) fun handle => ?_
  cases handle with
  | some handle => exact advances_adaptInPlace
  | none =>
      refine Keeps.bind advances_displayHandle? fun handle => ?_
      cases handle with
      | some handle => exact advances_adaptInPlace
      | none =>
          refine Keeps.bind (advances_edited (S := fun _ => False) keeps_model) fun m => ?_
          refine Keeps.bind Keeps.get fun s => ?_
          split
          · exact Keeps.ite advances_convert advances_addParameter
          · exact advances_addParameter

/-- A batch visits everything that was pending in turn. -/
theorem batch_ok : batch s = .ok () t ↔
    (∀ limit ∈ s.options.maxIterations, s.stats.iterations < limit) ∧
      s.pending.forM visit s.opened = .ok () t := by
  have hVisits : (do
      set s.opened
      s.pending.forM visit : Propagate Unit) (s.count fun n =>
        { n with iterations := n.iterations + 1 }) = s.pending.forM visit s.opened :=
    Step.bind_of_ok (a := ⟨⟩) (Step.set_ok.mpr rfl)
  have hOptions (f) : (s.count f).options = s.options := rfl
  unfold batch
  rw [Step.bind_of_ok (a := ⟨⟩) (Step.modify_ok.mpr rfl),
    Step.bind_of_ok (Step.get_ok.mpr ⟨rfl, rfl⟩), hOptions]
  cases hMax : s.options.maxIterations with
  | none =>
      simp only [Option.mem_def, reduceCtorEq, false_implies, implies_true, true_and, ← hVisits]
      exact Iff.rfl
  | some limit =>
      simp only [Option.mem_some_iff, forall_eq', ← hVisits]
      split
      · rename_i hOver
        rw [Step.bind_ok]
        simp [Step.throw_ok, Nat.not_lt.mpr (Nat.le_of_lt_succ hOver)]
      · rename_i hBelow
        exact (and_iff_right (Nat.lt_of_succ_le (Nat.not_lt.mp hBelow))).symm

/-- What opening a batch and every visit keep is kept by a batch. -/
theorem keeps_batch {R : Propagation → Propagation → Prop} [IsPreorder Propagation R]
    (hOpen : ∀ s : Propagation, R s s.opened) (hVisit : ∀ method, Keeps R (visit method)) :
    Keeps R batch := by
  intro s u t h
  obtain ⟨-, hVisits⟩ := batch_ok.mp h
  exact IsTrans.trans _ _ _ (hOpen s) (Keeps.forM (fun method _ => hVisit method) hVisits)

theorem keeps_whilePending {R : Propagation → Propagation → Prop} [IsPreorder Propagation R]
    {step : Propagate Unit} (h : Keeps R step) (n : Nat) : Keeps R (whilePending step n) := by
  induction n with
  | zero => exact Keeps.pure _
  | succ n ih =>
      refine Keeps.bind Keeps.get fun s => Keeps.ite ?_ (Keeps.pure _)
      exact Keeps.bind h fun _ => ih

/-- What a batch keeps is kept by all of them. -/
theorem keeps_visitAll {R : Propagation → Propagation → Prop} [IsPreorder Propagation R]
    (h : Keeps R batch) : Keeps R visitAll := by
  have hBatches (level : Nat) : Keeps R (batches level) := by
    induction level with
    | zero => exact h
    | succ level ih => exact Keeps.bind Keeps.get fun s => keeps_whilePending ih _
  refine Keeps.bind (hBatches 3) fun _ => Keeps.bind Keeps.get fun s => ?_
  exact Keeps.ite (Keeps.throw _) (Keeps.pure _)

/-- What batches come to that are visited one after the other until nothing is pending. -/
inductive Concludes : Propagation → EStateM.Result Error Propagation Unit → Prop
  | done {s : Propagation} (hDone : s.pending = []) : Concludes s (.ok () s)
  | next {s u : Propagation} {r : EStateM.Result Error Propagation Unit} (hSome : s.pending ≠ [])
      (hBatch : batch s = .ok () u) (hRest : Concludes u r) : Concludes s r
  | failed {s u : Propagation} {e : Error} (hSome : s.pending ≠ [])
      (hBatch : batch s = .error e u) : Concludes s (.error e u)

/-- A step visits batches one after the other. -/
structure Batched (step : Propagate Unit) : Prop where
  ok : ∀ {s u r}, s.pending ≠ [] → step s = .ok () u → Concludes u r → Concludes s r
  error : ∀ {s u e}, s.pending ≠ [] → step s = .error e u → Concludes s (.error e u)

theorem batched_batch : Batched batch := ⟨.next, .failed⟩

/-- Repeating a step goes on where the step went on while something was pending. -/
theorem whilePending_succ (step : Propagate Unit) (n : Nat) (s : Propagation) :
    whilePending step (n + 1) s
      = if s.pending = [] then .ok () s else (step >>= fun _ => whilePending step n) s := by
  change (do
    let s ← get
    if !s.pending.isEmpty then
      step
      whilePending step n : Propagate Unit) s = _
  rw [Step.bind_of_ok (Step.get_ok.mpr ⟨rfl, rfl⟩)]
  by_cases hDone : s.pending = []
  · simp only [hDone, if_true]
    exact Step.pure_ok.mpr ⟨rfl, rfl⟩
  · simp [hDone]

theorem batched_whilePending {step : Propagate Unit} (h : Batched step) (n : Nat) :
    (∀ {s u r}, whilePending step n s = .ok () u → Concludes u r → Concludes s r) ∧
      ∀ {s u e}, whilePending step n s = .error e u → Concludes s (.error e u) := by
  induction n with
  | zero =>
      refine ⟨fun hRun hRest => ?_, fun hRun => by cases hRun⟩
      obtain ⟨-, rfl⟩ := Step.pure_ok.mp hRun
      exact hRest
  | succ n ih =>
      refine ⟨fun {s u r} hRun hRest => ?_, fun {s u e} hRun => ?_⟩
      · rw [whilePending_succ] at hRun
        split at hRun
        · cases hRun
          exact hRest
        · rename_i hSome
          obtain ⟨_, v, hStep, hRun⟩ := Step.bind_ok.mp hRun
          exact h.ok hSome hStep (ih.1 hRun hRest)
      · rw [whilePending_succ] at hRun
        split at hRun
        · cases hRun
        · rename_i hSome
          cases hStep : step s with
          | error e' v =>
              rw [Step.bind_of_error hStep] at hRun
              cases hRun
              exact h.error hSome hStep
          | ok _ v =>
              rw [Step.bind_of_ok hStep] at hRun
              exact h.ok hSome hStep (ih.2 hRun)

theorem batches_succ (level : Nat) (s : Propagation) :
    batches (level + 1) s = whilePending (batches level) (batchBound s) s :=
  Step.bind_of_ok (Step.get_ok.mpr ⟨rfl, rfl⟩)

theorem batched_batches (level : Nat) : Batched (batches level) := by
  induction level with
  | zero => exact batched_batch
  | succ level ih =>
      refine ⟨fun {s u r} _ h => ?_, fun {s u e} _ h => ?_⟩
      · rw [batches_succ] at h
        exact (batched_whilePending ih _).1 h
      · rw [batches_succ] at h
        exact (batched_whilePending ih _).2 h

theorem whilePending_done {step : Propagate Unit} {n : Nat} (h : s.pending = []) :
    whilePending step n s = .ok () s := by
  cases n with
  | zero => exact Step.pure_ok.mpr ⟨rfl, rfl⟩
  | succ n => rw [whilePending_succ, if_pos h]

theorem visitAll_iff : visitAll s = .ok () t ↔
    whilePending (batches 2) (batchBound s) s = .ok () t ∧ t.pending = [] := by
  unfold visitAll
  rw [Step.bind_ok]
  constructor
  · rintro ⟨_, s₁, hBatches, h⟩
    obtain ⟨_, _, hGet, h⟩ := Step.bind_ok.mp h
    obtain ⟨rfl, rfl⟩ := Step.get_ok.mp hGet
    split at h
    · exact (Step.throw_ok.mp h).elim
    · rename_i hEmpty
      obtain ⟨-, rfl⟩ := Step.pure_ok.mp h
      exact ⟨hBatches, by simpa using hEmpty⟩
  · rintro ⟨hBatches, hDone⟩
    refine ⟨(), t, hBatches, Step.bind_ok.mpr ⟨t, t, Step.get_ok.mpr ⟨rfl, rfl⟩, ?_⟩⟩
    rw [if_neg (by simp [hDone])]
    exact Step.pure_ok.mpr ⟨rfl, rfl⟩

theorem visitAll_done (h : s.pending = []) : visitAll s = .ok () s :=
  visitAll_iff.mpr ⟨whilePending_done h, h⟩

/-- A batch after which nothing is pending is the last one. -/
theorem visitAll_once (hSome : s.pending ≠ []) (hBatch : batch s = .ok () t)
    (hDone : t.pending = []) : visitAll s = .ok () t := by
  have hRepeat {step : Propagate Unit} (h : step s = .ok () t) :
      whilePending step (batchBound s) s = .ok () t := by
    unfold batchBound
    rw [whilePending_succ, if_neg hSome]
    exact Step.bind_ok.mpr ⟨(), t, h, whilePending_done hDone⟩
  have hBatches (level : Nat) : batches level s = .ok () t := by
    induction level with
    | zero => exact hBatch
    | succ level ih => exact hRepeat ih
  exact visitAll_iff.mpr ⟨hRepeat (hBatches 2), hDone⟩

/-- Visiting batches until nothing is pending comes to what they come to. -/
theorem visitAll_concludes (h : visitAll s = .ok () t) : Concludes s (.ok () t) ∧ t.pending = [] := by
  obtain ⟨hBatches, hDone⟩ := visitAll_iff.mp h
  exact ⟨(batched_whilePending (batched_batches 2) _).1 hBatches (.done hDone), hDone⟩

theorem advances_batch : Keeps Advanced batch :=
  keeps_batch (fun _ hKeyed => { Propagation.Advances.refl hKeyed with }) fun _ => advances_visit

/-- The batches of a run advance it. -/
theorem advances_visitAll : Keeps Advanced visitAll := keeps_visitAll advances_batch

/-- So do the batches that are left. -/
theorem Concludes.advances {u : Unit} (h : Concludes s (.ok u t)) : Advanced s t := by
  generalize hEnd : EStateM.Result.ok u t = r at h
  induction h with
  | done hDone =>
      cases hEnd
      exact refl _
  | next hSome hBatch hRest ih => exact IsTrans.trans _ _ _ (advances_batch hBatch) (ih hEnd)
  | failed hSome hBatch => cases hEnd

theorem advances_bindReplacements : Keeps Advanced bindReplacements := by
  refine Keeps.bind Keeps.get fun s => Keeps.bind (Keeps.mapM fun b _ => ?_) fun made =>
    advances_complete
  refine Keeps.bind (advances_edited (S := fun _ => False) keeps_model) fun m => ?_
  exact Keeps.ite (Keeps.pure _) (Keeps.bind advances_bindMethod fun _ => Keeps.pure _)

theorem keeps_seed : Keeps (Edited S) seed :=
  Keeps.modify fun _ =>
    ⟨⟨fun h => .refl h, rfl, rfl, rfl, rfl, fun _ => Propagation.mem_enqueue.mpr ∘ Or.inl⟩, .refl _⟩

/-- Taking moved fields out of use edits no code. -/
theorem keeps_retireMovedFields : Keeps (Edited S) retireMovedFields := by
  refine Keeps.bind Keeps.get fun s => Keeps.ite (Keeps.forM fun field _ => ?_) (Keeps.pure _)
  refine Keeps.bind keeps_model fun f => Keeps.ite ?_ (Keeps.pure _)
  exact keeps_edit fun N => Program.keeps_retireField

/-- A run takes nothing back of what it began with. -/
theorem run_advances {p : Program} {plan : ContextPlan} {options : PropagationOptions}
    (h : propagate p plan options = .ok () t) :
    (Propagation.start p plan options).Advances t := by
  have hRun : Keeps Advanced run := by
    refine Keeps.bind advances_graph fun _ => Keeps.bind advances_bindReplacements fun _ => ?_
    refine Keeps.bind (advances_edited (S := fun _ => False) keeps_seed) fun _ => ?_
    refine Keeps.bind advances_visitAll fun _ => ?_
    refine Keeps.bind (advances_edited (S := fun _ => False) keeps_retireMovedFields) fun _ => ?_
    apply advances_edited (S := fun _ => False)
    exact Keeps.modify fun _ => ⟨⟨fun h => .refl h, rfl, rfl, rfl, rfl, fun _ => id⟩, .refl _⟩
  exact hRun h (Propagation.keyed_start p plan options)

end Propagate

end ContextBinding
