import ContextBinding.Proofs.Declaration
import ContextBinding.Proofs.Locality
import ContextBinding.Proofs.Rederivation

/-! The methods that a run may still bind. A method waits if it may come to be visited, has no part
in a binding, and does not reach the root over its display class. Nothing but the copies of display
classes makes methods wait that did not before. -/

namespace ContextBinding

namespace IncomingSites

variable {t : IncomingSites} {callee id : MethodId}

theorem mem_keys_enter {site : CallSite} (h : id ∈ ((t.enter site).reaching callee).keys) :
    id = site.caller ∨ id ∈ (t.reaching callee).keys := by
  rw [reaching_enter] at h
  split at h
  · obtain ⟨e, hMem, rfl⟩ := List.mem_map.mp h
    refine (Table.mem_entries_insert hMem).imp (congrArg Prod.fst) fun hMem => ?_
    exact List.mem_map.mpr ⟨e, hMem, rfl⟩
  · exact Or.inr h

theorem mem_keys_dropLike {caller : MethodId} {site : CallSite}
    (h : id ∈ ((t.dropLike caller site).reaching callee).keys) : id ∈ (t.reaching callee).keys := by
  rw [reaching_dropLike] at h
  split at h
  · obtain ⟨e, hMem, rfl⟩ := List.mem_map.mp h
    exact List.mem_map.mpr ⟨e, (List.mem_filter.mp hMem).1, rfl⟩
  · exact h

end IncomingSites

namespace ReferenceGraph

open IncomingSites

variable {g : ReferenceGraph} {caller id target : MethodId}

/-- Forgetting a method makes nothing a caller. -/
theorem callerMethods_forget (h : id ∈ (g.forget caller).callerMethods target) :
    id ∈ g.callerMethods target := by
  change id ∈ (((g.callees caller).foldl (dropLike caller) g.incoming).reaching target).keys at h
  generalize g.callees caller = sites at h
  unfold callerMethods
  generalize g.incoming = t at h ⊢
  induction sites generalizing t with
  | nil => exact h
  | cons site sites ih => exact mem_keys_dropLike (ih _ h)

/-- Entering sites makes no other method a caller than the one whose code they are in. -/
theorem callerMethods_addSites {b : MethodBody} (h : id ∈ (g.addSites caller b).callerMethods target) :
    id = caller ∨ id ∈ g.callerMethods target := by
  change id ∈ (((g.sitesIn caller b).foldl enter g.incoming).reaching target).keys at h
  have hOwned : ∀ site ∈ g.sitesIn caller b, site.caller = caller := fun _ => caller_of_mem_sitesIn
  unfold callerMethods
  generalize g.sitesIn caller b = sites at h hOwned
  generalize g.incoming = t at h ⊢
  induction sites generalizing t with
  | nil => exact Or.inr h
  | cons site sites ih =>
      obtain ⟨hFirst, hRest⟩ := List.forall_mem_cons.mp hOwned
      rcases ih hRest _ h with hSame | hMem
      · exact Or.inl hSame
      · exact (mem_keys_enter hMem).imp_left fun hSame => hSame.trans hFirst

end ReferenceGraph

namespace GraphEdit

variable {s t : ReferenceGraph × FlowCache} {p : Program} {caller id target : MethodId}

/-- Deriving a method anew makes no other method a caller. -/
theorem rederive_callers {u : Unit} (h : rederive p caller s = .ok u t)
    (hMem : id ∈ t.1.callerMethods target) :
    id ∈ s.1.callerMethods target ∨ id = caller ∧ p.isLive caller = true := by
  unfold rederive at h
  obtain ⟨_, _, hForget, h⟩ := Step.bind_ok.mp h
  obtain rfl := update_ok.mp hForget
  split at h
  · rename_i hLive
    obtain ⟨_, _, hQuery, h⟩ := Step.bind_ok.mp h
    obtain ⟨flow, -, rfl⟩ := query_ok.mp hQuery
    obtain ⟨_, _, hCaptures, h⟩ := Step.bind_ok.mp h
    obtain ⟨v, -, rfl⟩ := captures_ok.mp hCaptures
    obtain ⟨b, -, hScanned⟩ := scan_ok h
    rw [hScanned] at hMem
    rcases ReferenceGraph.callerMethods_addSites hMem with rfl | hMem
    · exact Or.inr ⟨rfl, hLive⟩
    · exact Or.inl (ReferenceGraph.callerMethods_forget hMem)
  · obtain ⟨-, rfl⟩ := Step.pure_ok.mp h
    exact Or.inl (ReferenceGraph.callerMethods_forget hMem)

/-- The callers of a graph that was built are in use. -/
theorem build_callers {u : Unit} (h : build p s = .ok u t) (hMem : id ∈ t.1.callerMethods target) :
    p.isLive id = true := by
  let R (s t : ReferenceGraph × FlowCache) : Prop := ∀ id target,
    id ∈ t.1.callerMethods target → id ∈ s.1.callerMethods target ∨ p.isLive id = true
  have : IsPreorder _ R :=
    { refl := fun _ _ _ => Or.inl
      trans := fun _ _ _ h h' id target hMem => (h' id target hMem).elim (h id target) Or.inr }
  unfold build at h
  obtain ⟨_, s₁, hUpdate, h⟩ := Step.bind_ok.mp h
  obtain rfl := update_ok.mp hUpdate
  have hRest : R ({ ReferenceGraph.empty with overrides := .build p }, s.2) t := by
    refine Keeps.bind (Keeps.forM fun m _ => ?_) (fun _ => Keeps.forM fun m hm => ?_) h
    · intro s u t h
      obtain ⟨v, -, rfl⟩ := captures_ok.mp h
      exact fun _ _ => Or.inl
    · intro s u t h id target hMem
      obtain ⟨b, -, hScanned⟩ := scan_ok h
      rw [hScanned] at hMem
      rcases ReferenceGraph.callerMethods_addSites hMem with rfl | hMem
      · exact Or.inr (Program.mem_liveMethods.mp hm)
      · exact Or.inl hMem
  exact (hRest id target hMem).resolve_left List.not_mem_nil

end GraphEdit

/-- A method came with its type between an earlier program and a later one. -/
def Program.Arrived (p q : Program) (id : MethodId) : Prop :=
  p.methods.length ≤ id.index ∧
    ∃ m, q.method? id = some m ∧ p.types.length ≤ m.owner.index ∧ m.owner.index < q.types.length

namespace Program.Arrived

variable {p q r : Program} {id : MethodId}

theorem later (h : p.Arrived q id) (hGrows : q.Grows r) : p.Arrived r id := by
  obtain ⟨hId, m, hMethod, hNew, hThere⟩ := h
  obtain ⟨m', hMethod', hSame⟩ := hGrows.method hMethod
  exact ⟨hId, m', hMethod', hSame.owner ▸ hNew,
    hSame.owner ▸ hThere.trans_le hGrows.types.length_le⟩

theorem earlier (h : q.Arrived r id) (hGrows : p.Grows q) : p.Arrived r id := by
  obtain ⟨hId, m, hMethod, hNew, hThere⟩ := h
  exact ⟨hGrows.methods.length_le.trans hId, m, hMethod, hGrows.types.length_le.trans hNew, hThere⟩

end Program.Arrived

/-- The fields that came with copies of display classes. -/
def Closures.copiedFields (c : Closures) : List FieldId :=
  c.relocated.values.flatMap fun clone => clone.fields.values

namespace Propagation

/-- A method may come to be visited: it still is to be in this batch or in the next one, or it calls
what the graph knows of. -/
def Known (ahead : List MethodId) (s : Propagation) (id : MethodId) : Prop :=
  id ∈ ahead ∨ id ∈ s.pending ∨ ∃ target, id ∈ s.graph.callerMethods target

/-- A method constructs a context. It may come to call init units. -/
def Constructs (s : Propagation) (id : MethodId) : Prop := ∃ c ∈ s.plan.contexts, c.constructor = id

/-- A method is bound, or stands in for a bound one. -/
def Taken (s : Propagation) (id : MethodId) : Prop :=
  (∃ b, s.bindings.get? id = some b) ∨ s.bindings.StandsIn id

/-- A bound method with what stands in for it. -/
def Paired (s : Propagation) (e : MethodId × MethodId) : Prop :=
  ∃ b, s.bindings.get? e.1 = some b ∧ b.replacement = e.2

/-- A method is bound, or it constructs a display class that has its field for the root. Its callers
come to be visited. -/
def Needed (s : Propagation) (id : MethodId) : Prop :=
  (∃ b, s.bindings.get? id = some b) ∨ ∃ m, s.program.method? id = some m ∧
    m.isConstructor = true ∧ s.closures.displayRoot? m.owner ≠ none

/-- Between two points of a run, a method may be visited for what it is: it is still to be visited in
this batch, constructs a context, or has a part in a binding. -/
def Expected (ahead : List MethodId) (s t : Propagation) (id : MethodId) : Prop :=
  id ∈ ahead ∨ s.Constructs id ∨ t.Taken id

/-- A method may still be bound, or bring the root to its display class. -/
structure Waits (ahead : List MethodId) (s : Propagation) (id : MethodId) : Prop where
  known : s.Known ahead id ∨ s.Constructs id
  free : ¬ s.Taken id
  rootless : ∀ m, s.program.method? id = some m → m.isStatic = false →
    s.closures.displayRoot? m.owner = none

/-- A field in which some type stores the root. Copies of such fields do not count. -/
def IsRootField (s : Propagation) (id : FieldId) : Prop :=
  (∃ f, s.program.field? id = some f ∧ f.name = Closures.displayRootName ∧
    f.type = .named s.closures.root) ∧ id ∉ s.closures.copiedFields

/-- What is expected of a point of a run: whatever may come to be visited is there, and so are the
copies of fields. -/
structure Regular (ahead : List MethodId) (s : Propagation) : Prop where
  keyed : s.closures.Keyed
  present : ∀ id, s.Known ahead id → ∃ m, s.program.method? id = some m
  modes : ∀ b ∈ s.bindings.toList, b.mode ≠ .unbound
  copies : ∀ field ∈ s.closures.copiedFields, field.index < s.program.fields.length

/-- A later point of a run, at which no methods wait that did not before, or, if display classes may
be copied, only methods of types that are new. -/
structure Settles (copying : Prop) (ahead : List MethodId) (s t : Propagation) : Prop
    extends s.Advances t where
  regular : t.Regular ahead
  root : t.closures.root = s.closures.root
  roots : ∀ type, s.closures.displayRoot? type ≠ none → t.closures.displayRoot? type ≠ none
  copied : ∀ field ∈ t.closures.copiedFields,
    field ∈ s.closures.copiedFields ∨ s.program.fields.length ≤ field.index
  callers : ∀ id target, id ∈ t.graph.callerMethods target →
    id ∈ s.graph.callerMethods target ∨ Expected ahead s t id
  enqueued : ∀ id ∈ t.pending, id ∈ s.pending ∨ Expected ahead s t id ∨
    (copying ∧ s.program.Arrived t.program id) ∨
      ∃ target, id ∈ s.graph.callerMethods target ∧ (s.program.Owned → t.Needed target)

/-- A step of a run leaves no other methods waiting. -/
def Settled (copying : Prop) (ahead : List MethodId) (s t : Propagation) : Prop :=
  s.Regular ahead → s.Settles copying ahead t

variable {copying : Prop} {ahead : List MethodId} {s t u : Propagation} {id : MethodId}

theorem Taken.later (h : s.bindings.Extends t.bindings) (hTaken : s.Taken id) : t.Taken id := by
  rcases hTaken with ⟨b, hGet⟩ | ⟨method, b, hGet, hStands⟩
  · exact Or.inl ⟨b, h id b hGet⟩
  · exact Or.inr ⟨method, b, h method b hGet, hStands⟩

theorem Paired.later {e : MethodId × MethodId} (h : s.bindings.Extends t.bindings)
    (hPaired : s.Paired e) : t.Paired e := by
  obtain ⟨b, hGet, hStands⟩ := hPaired
  exact ⟨b, h e.1 b hGet, hStands⟩

theorem Paired.taken {e : MethodId × MethodId} (h : s.Paired e) : s.Taken e.1 ∧ s.Taken e.2 := by
  obtain ⟨b, hGet, hStands⟩ := h
  exact ⟨Or.inl ⟨b, hGet⟩, Or.inr ⟨e.1, b, hGet, hStands⟩⟩

/-- The constructor of a context that has init units constructs a context. -/
theorem constructs_of_initUnits {context : ContextId} {unit : MethodId}
    (h : (s.plan.context context).initUnits.contains unit = true) :
    s.Constructs (s.plan.context context).constructor := by
  -- A context that is not there has no init units.
  cases hContext : s.plan.context? context with
  | none => simp [ContextPlan.context, hContext, default, ContextDescriptor.bare] at h
  | some c =>
      refine ⟨c, List.mem_of_getElem? hContext, ?_⟩
      simp [ContextPlan.context, hContext]

/-- The constructors of a plan do not depend on its init units. -/
theorem Constructs.earlier (h : t.plan.shape = s.plan.shape) (hConstructs : t.Constructs id) :
    s.Constructs id := by
  obtain ⟨c, hMem, rfl⟩ := hConstructs
  have hShape : { c with initUnits := [] } ∈ s.plan.shape.contexts :=
    h ▸ List.mem_map.mpr ⟨c, hMem, rfl⟩
  obtain ⟨c', hMem', hSame⟩ := List.mem_map.mp hShape
  exact ⟨c', hMem', congrArg (·.constructor) hSame⟩

theorem Expected.later (h : Expected ahead s t id) (hBindings : t.bindings.Extends u.bindings) :
    Expected ahead s u id :=
  h.imp_right (Or.imp_right fun hTaken => hTaken.later hBindings)

theorem Expected.earlier (h : Expected ahead t u id) (hShape : t.plan.shape = s.plan.shape) :
    Expected ahead s u id :=
  h.imp_right (Or.imp_left fun hConstructs => hConstructs.earlier hShape)

theorem Needed.later (h : s.Needed id) (hGrows : s.program.Grows t.program)
    (hBindings : s.bindings.Extends t.bindings)
    (hRoots : ∀ type, s.closures.displayRoot? type ≠ none → t.closures.displayRoot? type ≠ none) :
    t.Needed id := by
  rcases h with ⟨b, hGet⟩ | ⟨m, hMethod, hConstructor, hRoot⟩
  · exact Or.inl ⟨b, hBindings id b hGet⟩
  · obtain ⟨m', hMethod', hSame⟩ := hGrows.method hMethod
    exact Or.inr ⟨m', hMethod', hSame.isConstructor.trans hConstructor,
      hSame.owner ▸ hRoots m.owner hRoot⟩

theorem Known.of_enqueue {methods : List MethodId} (h : (s.enqueue methods).Known ahead id) :
    s.Known ahead id ∨ id ∈ methods := by
  rcases h with hMem | hMem | hMem
  · exact Or.inl (Or.inl hMem)
  · exact (mem_enqueue.mp hMem).imp_left fun hMem => Or.inr (Or.inl hMem)
  · exact Or.inl (Or.inr (Or.inr hMem))

/-- Where a batch begins, what was pending is ahead. -/
theorem Known.of_opened (h : s.opened.Known s.pending id) : s.Known [] id := by
  rcases h with hMem | hMem | hMem
  · exact Or.inr (Or.inl hMem)
  · exact (List.not_mem_nil hMem).elim
  · exact Or.inr (Or.inr hMem)

/-- Methods may be enqueued that are there. -/
theorem Regular.enqueue (h : s.Regular ahead) {methods : List MethodId}
    (hThere : ∀ id ∈ methods, ∃ m, s.program.method? id = some m) :
    (s.enqueue methods).Regular ahead :=
  { h with present := fun id hMem => (Known.of_enqueue hMem).elim (h.present id) (hThere id) }

namespace Settles

protected theorem refl (h : s.Regular ahead) : s.Settles copying ahead s :=
  ⟨.refl h.keyed, h, rfl, fun _ => id, fun _ => Or.inl, fun _ _ => Or.inl, fun _ => Or.inl⟩

/-- What may come to be visited later may be visited before, unless there is a reason for it. -/
theorem known (h : s.Settles copying ahead t) (hKnown : t.Known ahead id) :
    s.Known ahead id ∨ s.Constructs id ∨ t.Taken id ∨ copying ∧ s.program.Arrived t.program id := by
  have hExpected (hExpected : Expected ahead s t id) :
      s.Known ahead id ∨ s.Constructs id ∨ t.Taken id ∨ copying ∧ s.program.Arrived t.program id :=
    hExpected.imp Or.inl (Or.imp_right Or.inl)
  rcases hKnown with hAhead | hPending | ⟨target, hCaller⟩
  · exact Or.inl (Or.inl hAhead)
  · rcases h.enqueued id hPending with hPending | hLooked | hNew | ⟨target, hCaller, -⟩
    · exact Or.inl (Or.inr (Or.inl hPending))
    · exact hExpected hLooked
    · exact Or.inr (Or.inr (Or.inr hNew))
    · exact Or.inl (Or.inr (Or.inr ⟨target, hCaller⟩))
  · rcases h.callers id target hCaller with hCaller | hLooked
    · exact Or.inl (Or.inr (Or.inr ⟨target, hCaller⟩))
    · exact hExpected hLooked

protected theorem trans (h : s.Settles copying ahead t) (h' : t.Settles copying ahead u) :
    s.Settles copying ahead u where
  toAdvances := h.toAdvances.trans h'.toAdvances
  regular := h'.regular
  root := h'.root.trans h.root
  roots type hRoot := h'.roots type (h.roots type hRoot)
  copied field hCopied := (h'.copied field hCopied).elim (h.copied field)
    fun hNew => Or.inr (h.grows.fields.length_le.trans hNew)
  callers id target hCaller := by
    rcases h'.callers id target hCaller with hCaller | hExpected
    · exact (h.callers id target hCaller).imp_right fun hExpected => hExpected.later h'.bindings
    · exact Or.inr (hExpected.earlier h.plan)
  enqueued id hPending := by
    rcases h'.enqueued id hPending with
      hPending | hExpected | ⟨hCopying, hNew⟩ | ⟨target, hCaller, hNeeded⟩
    · rcases h.enqueued id hPending with
        hPending | hExpected | ⟨hCopying, hNew⟩ | ⟨target, hCaller, hNeeded⟩
      · exact Or.inl hPending
      · exact Or.inr (Or.inl (hExpected.later h'.bindings))
      · exact Or.inr (Or.inr (Or.inl ⟨hCopying, hNew.later h'.grows⟩))
      · refine Or.inr (Or.inr (Or.inr ⟨target, hCaller, fun hOwned => ?_⟩))
        exact (hNeeded hOwned).later h'.grows h'.bindings h'.roots
    · exact Or.inr (Or.inl (hExpected.earlier h.plan))
    · exact Or.inr (Or.inr (Or.inl ⟨hCopying, hNew.earlier h.grows⟩))
    · rcases h.callers id target hCaller with hCaller | hExpected
      · refine Or.inr (Or.inr (Or.inr ⟨target, hCaller, fun hOwned => ?_⟩))
        exact hNeeded (h.grows.owned hOwned)
      · exact Or.inr (Or.inl (hExpected.later h'.bindings))

/-- What waits later waited before, or belongs to a new type. -/
theorem waits (h : s.Settles copying ahead t) (hWaits : t.Waits ahead id) :
    s.Waits ahead id ∨ copying ∧ s.program.Arrived t.program id := by
  have hEarlier (hKnown : s.Known ahead id ∨ s.Constructs id) : s.Waits ahead id := by
    refine ⟨hKnown, fun hTaken => hWaits.free (hTaken.later h.bindings), fun m hMethod hOn => ?_⟩
    obtain ⟨m', hMethod', hSame⟩ := h.grows.method hMethod
    have hNone := hWaits.rootless m' hMethod' (hSame.isStatic.trans hOn)
    rw [hSame.owner] at hNone
    exact Decidable.byContradiction fun hRoot => h.roots m.owner hRoot hNone
  rcases hWaits.known with hKnown | hConstructs
  · rcases h.known hKnown with hKnown | hConstructs | hTaken | hNew
    · exact Or.inl (hEarlier (Or.inl hKnown))
    · exact Or.inl (hEarlier (Or.inr hConstructs))
    · exact (hWaits.free hTaken).elim
    · exact Or.inr hNew
  · exact Or.inl (hEarlier (Or.inr (hConstructs.earlier h.plan)))

/-- A field for the root stays one. -/
theorem isRootField (h : s.Settles copying ahead t) {field : FieldId} (hField : s.IsRootField field) :
    t.IsRootField field := by
  obtain ⟨⟨f, hThere, hName, hType⟩, hOwn⟩ := hField
  obtain ⟨f', hThere', hSame⟩ := h.grows.field hThere
  refine ⟨⟨f', hThere', hSame.name.trans hName, hSame.type.trans (h.root ▸ hType)⟩, fun hCopied => ?_⟩
  refine (h.copied field hCopied).elim hOwn fun hNew => ?_
  exact absurd (List.getElem?_eq_some_iff.mp hThere).1 (Nat.not_lt.mpr hNew)

/-- Methods may be enqueued for what they are, as copies, or for what they call. -/
theorem enqueue (h : s.Settles copying ahead t) {methods : List MethodId}
    (hThere : ∀ id ∈ methods, ∃ m, t.program.method? id = some m)
    (hNew : ∀ id ∈ methods, Expected ahead s t id ∨
      (copying ∧ s.program.Arrived t.program id) ∨
        ∃ target, id ∈ s.graph.callerMethods target ∧ (s.program.Owned → t.Needed target)) :
    s.Settles copying ahead (t.enqueue methods) := by
  exact
    { h with
      regular := h.regular.enqueue hThere
      enqueued := fun id hMem => (mem_enqueue.mp hMem).elim (h.enqueued id) fun hMem =>
        Or.inr (hNew id hMem) }

end Settles

instance : IsPreorder Propagation (Settled copying ahead) where
  refl _ h := .refl h
  trans _ _ _ h h' hRegular := (h hRegular).trans (h' (h hRegular).regular)

/-- Where copies may be made, none need be. -/
theorem Settles.mono (h : s.Settles False ahead t) : s.Settles copying ahead t :=
  { h with enqueued := fun id hPending =>
      (h.enqueued id hPending).imp_right (Or.imp_right (Or.imp_left fun hNew => hNew.1.elim)) }

/-- A step that only changes code leaves the same methods to be visited. -/
theorem CodeOnly.settled (h : CodeOnly s t) (hAdvanced : Advanced s t) : Settled copying ahead s t := by
  intro hRegular
  have hAdvances := hAdvanced hRegular.keyed
  have hKnown (id : MethodId) (hMem : t.Known ahead id) : s.Known ahead id := by
    unfold Known at hMem
    rwa [h.pending, h.graph] at hMem
  have hSame : t.closures.copiedFields = s.closures.copiedFields := by
    unfold Closures.copiedFields
    rw [h.displays.relocated]
  refine ⟨hAdvances, ⟨hAdvances.keyed, fun id hMem => ?_, h.bindings ▸ hRegular.modes, ?_⟩,
    h.displays.root, fun type hRoot => ?_, fun field hCopied => ?_,
    fun id target hCaller => Or.inl (h.graph ▸ hCaller), fun id hMem => Or.inl (h.pending ▸ hMem)⟩
  · obtain ⟨m, hMethod⟩ := hRegular.present id (hKnown id hMem)
    obtain ⟨m', hMethod', -⟩ := hAdvances.grows.method hMethod
    exact ⟨m', hMethod'⟩
  · intro field hCopied
    exact (hRegular.copies field (hSame ▸ hCopied)).trans_le hAdvances.grows.fields.length_le
  · unfold Closures.displayRoot? at hRoot ⊢
    rwa [h.displays.roots]
  · exact Or.inl (hSame ▸ hCopied)

end Propagation

end ContextBinding
