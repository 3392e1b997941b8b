import ContextBinding.Proofs.Adaptation
import ContextBinding.Proofs.Coverage
import ContextBinding.Proofs.Declaration

/-! Code that has what it needs: it names no bound method, and accesses no static field that moved.
 What adapts or binds a method leaves all other code as attended to as it was. -/

namespace ContextBinding

namespace Propagation

variable {B : BindingMap} {L S S' : MethodId → Prop} {s t u : Propagation}

/-- A later point of a run. In between no code was edited but that of the methods in `S`, new
methods are the run's own, and nothing that was to be visited next was left out. -/
structure Amends (S : MethodId → Prop) (s t : Propagation) : Prop extends s.Advances t where
  code : ∀ id m', t.program.method? id = some m' → S id ∨ t.closures.Owns m'.owner ∨
    ∃ m, s.program.method? id = some m ∧ m'.body = m.body
  pending : s.pending ⊆ t.pending

/-- A step edits no other code. -/
def Amended (S : MethodId → Prop) (s t : Propagation) : Prop := s.closures.Keyed → s.Amends S t

namespace Amends

protected theorem refl (h : s.closures.Keyed) : s.Amends S s :=
  ⟨.refl h, fun _ m' hMethod' => Or.inr (Or.inr ⟨m', hMethod', rfl⟩), fun _ => id⟩

protected theorem trans (h : s.Amends S t) (h' : t.Amends S u) : s.Amends S u where
  toAdvances := h.toAdvances.trans h'.toAdvances
  code id m'' hMethod'' := by
    rcases h'.code id m'' hMethod'' with hIn | hOwned | ⟨m', hMethod', hBody'⟩
    · exact Or.inl hIn
    · exact Or.inr (Or.inl hOwned)
    · rcases h.code id m' hMethod' with hIn | hOwned | ⟨m, hMethod, hBody⟩
      · exact Or.inl hIn
      · have hSame := (h'.grows.method_persists hMethod' hMethod'').owner
        exact Or.inr (Or.inl (hSame ▸ h'.learns.owned _ hOwned))
      · exact Or.inr (Or.inr ⟨m, hMethod, hBody'.trans hBody⟩)
  pending := List.Subset.trans h.pending h'.pending

/-- Code in use that was not edited was in use before. -/
theorem liveBody? (h : s.Amends S t) {id : MethodId} {b : MethodBody}
    (hLive : t.program.liveBody? id = some b) :
    S id ∨ t.Own id ∨ s.program.liveBody? id = some b := by
  obtain ⟨m', hMethod', hUsed', hBody'⟩ := Program.liveBody?_eq_some.mp hLive
  refine (h.code id m' hMethod').imp_right (Or.imp (fun hOwned => ⟨m', hMethod', hOwned⟩) ?_)
  rintro ⟨m, hMethod, hBody⟩
  have hSame := h.grows.method_persists hMethod hMethod'
  exact Program.liveBody?_eq_some.mpr ⟨m, hMethod, hSame.used hUsed', hBody.symm.trans hBody'⟩

end Amends

instance : IsPreorder Propagation (Amended S) where
  refl _ h := .refl h
  trans _ _ _ h h' hKeyed := (h hKeyed).trans (h' (h hKeyed).keyed)

theorem Changed.amended (h : Changed S s t) : Amended S s t := by
  intro hKeyed
  obtain ⟨-, -, -, -, hProgram⟩ := h.code hKeyed
  refine ⟨h.advanced hKeyed, fun id m' hMethod' => ?_, h.pending⟩
  rcases hProgram.code id m' hMethod' with ⟨m, hMethod, hSame | hIn⟩ | ⟨-, hOwned⟩
  · exact Or.inr (Or.inr ⟨m, hMethod, hSame⟩)
  · exact Or.inl hIn
  · exact Or.inr (Or.inl hOwned)

theorem Own.later {id : MethodId} (h : s.Own id) (hAdvances : s.Advances t) : t.Own id := by
  obtain ⟨m, hMethod, hOwned⟩ := h
  obtain ⟨m', hMethod', hSame⟩ := hAdvances.grows.method hMethod
  exact ⟨m', hMethod', hSame.owner ▸ hAdvances.learns.owned _ hOwned⟩

/-- An instruction has what it needs: it names no method that is bound in `B`, except what stands in
for a method or serves a capture record, and, where the code was looked at, accesses no static field
that moved and loads no instance that was taken over. -/
structure Rests (B : BindingMap) (looked : Prop) (s : Propagation) (i : Instruction) : Prop where
  names : ∀ target, i.reference? = some target →
    B.get? target = none ∨ s.bindings.StandsIn target ∨ s.closures.Serves target
  accesses : looked → ∀ field, i.access? = some field → s.plan.movedField? field = none ∧
    (i.opcode = .ldsfld → s.plan.singletonOf? field = none)

theorem Rests.later {looked : Prop} {i : Instruction} (h : s.Rests B looked i)
    (hAdvances : s.Advances t) : t.Rests B looked i where
  names target hName := (h.names target hName).imp_right
    (Or.imp (fun hStands => BindingMap.StandsIn.later hStands hAdvances.bindings)
      (hAdvances.learns.serves target))
  accesses hLooked field hField := by
    rw [← ContextPlan.movedField?_shape, ← ContextPlan.singletonOf?_shape, hAdvances.plan,
      ContextPlan.movedField?_shape, ContextPlan.singletonOf?_shape]
    exact h.accesses hLooked field hField

/-- Only the contents of an instruction matter. -/
theorem Rests.of_gist {looked : Prop} {i i' : Instruction} (hGist : i.gist = i'.gist)
    (h : s.Rests B looked i) : s.Rests B looked i' := by
  obtain ⟨hOpcode, hField, hMethod⟩ : i.opcode = i'.opcode ∧ i.field? = i'.field? ∧
      i.method? = i'.method? := by
    simpa [Instruction.gist] using hGist
  obtain ⟨hNames, hAccesses⟩ := h
  constructor
  · unfold Instruction.reference? at hNames ⊢
    rwa [← hOpcode, ← hMethod]
  · unfold Instruction.access? at hAccesses ⊢
    rwa [← hOpcode, ← hField]

/-- So has what names no bound method and accesses no field that moved. -/
theorem Rests.of_free {looked : Prop} {i : Instruction}
    (h : (∀ target, i.reference? = some target → B.get? target = none) ∧
      ∀ field, i.access? = some field → s.plan.movedField? field = none ∧
        (i.opcode = .ldsfld → s.plan.singletonOf? field = none)) : s.Rests B looked i :=
  ⟨fun target hName => Or.inl (h.1 target hName), fun _ => h.2⟩

/-- What may be put in has what it needs. -/
theorem Rests.of_tame {looked : Prop} {i : Instruction}
    (h : s.closures.Tame s.bindings.StandsIn i.gist) : s.Rests B looked i where
  names target hName := by
    exact Or.inr (h.target target (Instruction.method?_of_reference? hName))
  accesses _ field hField := by
    obtain ⟨hOpcode, hOperand⟩ := Instruction.access?_eq_some.mp hField
    have hNone : i.field? = none := h.access hOpcode
    rw [hNone] at hOperand
    cases hOperand

/-- Code in use has what it needs, except for the methods in `S`, for those that are visited next,
and for those that are the run's own. The code of the methods in `L` was looked at. -/
def Attended (B : BindingMap) (L S : MethodId → Prop) (s : Propagation) : Prop :=
  ∀ id b, s.program.liveBody? id = some b → S id ∨ id ∈ s.pending ∨ s.Own id ∨
    ∀ i ∈ b.instructions, s.Rests B (L id) i

namespace Attended

theorem mono (hS : ∀ id, S id → S' id) (h : s.Attended B L S) : s.Attended B L S' :=
  fun id b hLive => (h id b hLive).imp_left (hS id)

theorem amended (h : s.Attended B L S) (hAmends : s.Amends S' t) :
    t.Attended B L fun id => S id ∨ S' id := by
  intro id b hLive
  rcases hAmends.liveBody? hLive with hIn | hOwn | hBefore
  · exact Or.inl (Or.inr hIn)
  · exact Or.inr (Or.inr (Or.inl hOwn))
  · rcases h id b hBefore with hIn | hPending | hOwn | hRests
    · exact Or.inl (Or.inl hIn)
    · exact Or.inr (Or.inl (hAmends.pending hPending))
    · exact Or.inr (Or.inr (Or.inl (hOwn.later hAmends.toAdvances)))
    · exact Or.inr (Or.inr (Or.inr fun i hMem => (hRests i hMem).later hAmends.toAdvances))

/-- A change of no code. -/
theorem kept (h : s.Attended B L S) (hAmends : s.Amends (fun _ => False) t) : t.Attended B L S :=
  (h.amended hAmends).mono fun _ hIn => hIn.elim id False.elim

end Attended

end Propagation

namespace Propagation

/-- Methods were bound to what stands in for them, and nothing else was. All code has what it needs
that had it before, but that of what stands in, and the graph covers all code but that, if it
covered all code before. -/
structure Gathers (made : List (MethodId × MethodId)) (s t : Propagation) : Prop
    extends s.Advances t where
  reported : ∀ e ∈ made, ∃ b, t.bindings.get? e.1 = some b
  bound : ∀ id b, t.bindings.get? id = some b →
    s.bindings.get? id = some b ∨ ∃ e ∈ made, e.1 = id
  covered : ∀ S, s.Covered .empty S → t.Covered .empty fun id => S id ∨ ∃ e ∈ made, e.2 = id
  attended : ∀ B L S, s.Attended B L S → t.Attended B L fun id => S id ∨ ∃ e ∈ made, e.2 = id

namespace Gathers

variable {made made' : List (MethodId × MethodId)} {s t u : Propagation}

protected theorem refl (h : s.closures.Keyed) : s.Gathers [] s :=
  ⟨.refl h, fun _ hMem => (List.not_mem_nil hMem).elim, fun _ _ => Or.inl,
    fun _ h => h.mono fun _ => Or.inl, fun _ _ _ h => h.mono fun _ => Or.inl⟩

protected theorem trans (h : s.Gathers made t) (h' : t.Gathers made' u) :
    s.Gathers (made ++ made') u where
  toAdvances := h.toAdvances.trans h'.toAdvances
  reported e hMem := (List.mem_append.mp hMem).elim
    (fun hMem => (h.reported e hMem).imp fun b => h'.bindings e.1 b) (h'.reported e)
  bound id b hGet := by
    rcases h'.bound id b hGet with hGet | ⟨e, hMem, hId⟩
    · refine (h.bound id b hGet).imp_right ?_
      exact fun ⟨e, hMem, hId⟩ => ⟨e, List.mem_append_left _ hMem, hId⟩
    · exact Or.inr ⟨e, List.mem_append_right _ hMem, hId⟩
  covered S hCovered := (h'.covered _ (h.covered S hCovered)).mono fun id hIn => by
    simpa only [List.mem_append, or_and_right, exists_or, or_assoc] using hIn
  attended B L S hAttended := (h'.attended _ _ _ (h.attended B L S hAttended)).mono fun id hIn => by
    simpa only [List.mem_append, or_and_right, exists_or, or_assoc] using hIn

/-- Nothing is lost by a change of no code and no binding. -/
theorem kept (h : s.Gathers made t) (hChanged : t.Changed (fun _ => False) u) :
    s.Gathers made u where
  toAdvances := h.toAdvances.trans (hChanged.advanced h.keyed)
  reported e hMem := hChanged.bindings ▸ h.reported e hMem
  bound id b hGet := h.bound id b (hChanged.bindings ▸ hGet)
  covered S hCovered := (h.covered S hCovered).unchanged hChanged
  attended B L S hAttended := (h.attended B L S hAttended).kept (hChanged.amended h.keyed)

end Gathers

end Propagation

namespace Propagate

open Propagation (Amended Amends Attended Changed Edited Gathers)

variable {α : Type} {B : BindingMap} {L S : MethodId → Prop} {s t : Propagation}

theorem amends_changed {x : Propagate α} (h : Keeps (Changed S) x) : Keeps (Amended S) x :=
  h.mono fun _ _ h => h.amended

theorem amends_graph {e : Program → GraphEdit α} : Keeps (Amended S) (graph e) := by
  intro s a t h hKeyed
  have hAdvances := advances_graph h hKeyed
  obtain ⟨u, -, rfl⟩ := graph_ok.mp h
  exact { Amends.refl hKeyed with toAdvances := hAdvances }

theorem amends_bindMethod {b : Binding} : Keeps (Amended S) (bindMethod b) := by
  intro s u t h hKeyed
  have hAdvances := advances_bindMethod h hKeyed
  obtain ⟨m, -, rfl⟩ := bindMethod_ok h
  exact { Amends.refl hKeyed with toAdvances := hAdvances }

theorem amends_displayHandle? {method : MethodId} : Keeps (Amended S) (displayHandle? method) := by
  intro s handle t h hKeyed
  have hAdvances := advances_displayHandle? h hKeyed
  rcases displayHandle?_ok h with rfl | ⟨m, field, p, -, -, -, -, -, hField, rfl⟩
  · exact .refl hKeyed
  · obtain ⟨-, -, -, hMethods, -⟩ := Program.addField_ok hField
    refine ⟨hAdvances, fun id m' hMethod' => ?_, fun _ => Propagation.mem_enqueue.mpr ∘ Or.inl⟩
    refine Or.inr (Or.inr ⟨m', ?_, rfl⟩)
    rwa [Program.method?, ← show p.methods = s.program.methods from hMethods]

theorem makeCopy_amends {source copy : MethodId} {owner : TypeId} {name : String}
    {params : List TypeRef} {shape : MethodShape}
    (h : makeCopy source owner name params shape s = .ok copy t) : Amended (· = copy) s t := by
  intro hKeyed
  have hAdvances := advances_makeCopy h hKeyed
  obtain ⟨m, -, rfl, -, -, hMethods, -, hSame⟩ := makeCopy_ok h
  refine ⟨hAdvances, fun id m' hMethod' => ?_, fun id hMem => by rwa [hSame]⟩
  rw [Program.method?, hMethods] at hMethod'
  rcases Nat.lt_trichotomy id.index s.program.methods.length with hOld | hNew | hOut
  · rw [List.getElem?_append_left hOld] at hMethod'
    exact Or.inr (Or.inr ⟨m', hMethod', rfl⟩)
  · exact Or.inl (by rw [← hNew])
  · rw [List.getElem?_eq_none (by rw [List.length_append]; exact hOut)] at hMethod'
    cases hMethod'

theorem amends_complete {bound : List (MethodId × MethodId)} :
    Keeps (Amended fun _ => False) (complete bound) :=
  keeps_complete_of_changed (fun h => h.amended) fun _ => amends_graph

/-- Once its places are adapted, a method has what it needs. -/
theorem adaptSites_attended {closures : Closures} {p : Program} {site : RootedMethod}
    {b : MethodBody} {rs : List Bool} (hKeyed : s.closures.Keyed)
    (hModes : ∀ c ∈ s.bindings.toList, c.mode ≠ .unbound) (hNumbered : s.program.Numbered)
    (hStrict : s.closures.strict = true)
    (hLive : s.program.liveBody? site.method = some b)
    (h : (NeedySite.scan s.plan s.bindings closures p b).mapM (adaptSite site) s = .ok rs t)
    (hAttended : s.Attended s.bindings L fun id => S id ∨ id = site.method) :
    t.Attended s.bindings L S := by
  have hEdited : Edited (· = site.method) s t :=
    Keeps.mapM (fun place _ => keeps_adaptSite (S := (· = site.method)) rfl) h
  have hAmends := hEdited.toChanged.amended hKeyed
  intro id b' hLive'
  by_cases hSame : id = site.method
  · subst hSame
    obtain ⟨m, hMethod, -, hCode⟩ := Program.liveBody?_eq_some.mp hLive
    have hBody : s.program.body site.method = .ok b := Program.body_ok.mpr ⟨m, hMethod, hCode⟩
    have hThere : b.Numbered := hNumbered m (List.mem_of_getElem? hMethod) b hCode
    have hReason {place : NeedySite}
        (hPlace : place ∈ NeedySite.scan s.plan s.bindings closures p b) :
        ∃ i ∈ b.instructions, i.id = place.instr ∧
          NeedySite.Reason s.plan s.bindings closures p b i place.need := by
      obtain ⟨i, hMem, hId, hNeed⟩ := NeedySite.mem_scan.mp hPlace
      exact ⟨i, hMem, hId, NeedySite.reason_of_needOf? hNeed⟩
    have hAdapts := adaptSites_adapts (P := s.bindings.StandsIn) (D := fun _ => False) hBody hThere
      (fun place hPlace => by
        obtain ⟨i, hMem, hId, hReason⟩ := hReason hPlace
        exact ⟨i, hMem, hId, fun context moved hNeed => by rw [hNeed] at hReason; exact hReason.1⟩)
      (NeedySite.nodup_scan hThere)
      (fun place hPlace c hNeed => by
        obtain ⟨i, hMem, hId, hReason⟩ := hReason hPlace
        have hGet : ∃ target, s.bindings.get? target = some c := by
          rcases hNeed with hNeed | hNeed <;> rw [hNeed] at hReason <;>
            exact hReason.2.imp fun _ => And.right
        obtain ⟨target, hGet⟩ := hGet
        exact ⟨⟨target, c, hGet, rfl⟩, hModes c (Table.mem_values_of_get? hGet)⟩)
      (refl (r := Propagation.Adapts _ _ fun _ => False) s) (fun _ _ => id) h
    obtain ⟨-, -, hReworks⟩ := hAdapts hKeyed hStrict
    obtain ⟨b'', hBody'', hReworked⟩ := hReworks b hBody hThere
    obtain rfl : b' = b'' := Except.ok.inj ((Program.body_of_liveBody? hLive').symm.trans hBody'')
    refine Or.inr (Or.inr (Or.inr fun i' hMem' => ?_))
    rcases hReworked.code i' hMem' with ⟨i, hMem, -, hGist, hKept⟩ | ⟨hTame, -⟩
    · refine Propagation.Rests.of_gist hGist (Propagation.Rests.later ?_ hAmends.toAdvances)
      have hNeeds (need : SiteNeed)
          (hNeed : NeedySite.needOf? s.plan s.bindings closures p b i = some need) :
          ∃ field, need = .displayStore field := by
        by_contra hOther
        refine hKept (Or.inr ⟨⟨i.id, need⟩, NeedySite.mem_scan.mpr ⟨i, hMem, rfl, hNeed⟩, rfl, ?_⟩)
        exact fun field hStore => hOther ⟨field, hStore⟩
      exact .of_free (NeedySite.free_of_needOf? hNeeds)
    · exact .of_tame (hEdited.bindings ▸ hTame)
  · refine (hAttended.amended hAmends id b' hLive').imp_left fun hIn => ?_
    exact hIn.elim (fun hIn => hIn.resolve_right hSame) fun hIn => (hSame hIn).elim

/-- So does one that is adapted in place. -/
theorem adaptInPlace_attended {closures : Closures} {p : Program} {site : RootedMethod}
    {b : MethodBody} {u : Unit} (hKeyed : s.closures.Keyed)
    (hModes : ∀ c ∈ s.bindings.toList, c.mode ≠ .unbound) (hNumbered : s.program.Numbered)
    (hStrict : s.closures.strict = true)
    (hLive : s.program.liveBody? site.method = some b)
    (h : adaptInPlace site (NeedySite.scan s.plan s.bindings closures p b) s = .ok u t)
    (hAttended : s.Attended s.bindings L fun id => S id ∨ id = site.method) :
    t.Attended t.bindings L S := by
  rw [show t.bindings = s.bindings from same_adaptInPlace h]
  obtain ⟨outcomes, s₁, hSites, h⟩ := Step.bind_ok.mp h
  have hAdapted := adaptSites_attended hKeyed hModes hNumbered hStrict hLive hSites hAttended
  have hKeyed : s₁.closures.Keyed :=
    ((Keeps.mapM (fun place _ => keeps_adaptSite (S := fun _ => True) trivial) hSites).advanced
      hKeyed).keyed
  have hRest : Amended (fun _ => False) s₁ t := by
    refine Keeps.ite ?_ (Keeps.pure _) h
    exact Keeps.bind (amends_changed (changes_edited keeps_count)) fun _ => amends_graph
  exact hAdapted.kept (hRest hKeyed)

/-- A constructor that comes to call an init unit consists of what it did before, and of the
call. -/
theorem inlineInitUnit_code {constructor replacement : MethodId} {u : Unit} {b' : MethodBody}
    (h : inlineInitUnit constructor replacement s = .ok u t) (hNumbered : s.program.Numbered)
    (hBody' : t.program.body constructor = .ok b') : ∀ i' ∈ b'.instructions,
      (∃ b, s.program.body constructor = .ok b ∧ ∃ i ∈ b.instructions, i.gist = i'.gist) ∨
        ∃ i ∈ [Instruction.onArg .ldarg 0, .onMethod .call replacement] ++ [.plain .ret],
          i'.gist = i.gist := by
  intro i' hMem'
  unfold inlineInitUnit at h
  obtain ⟨m, _, hModel, h⟩ := Step.bind_ok.mp h
  obtain ⟨hMethod, rfl⟩ := model_ok.mp hModel
  cases hBody : m.body with
  | none =>
      simp only [hBody] at h
      obtain ⟨_, s₁, hEdit, h⟩ := Step.bind_ok.mp h
      obtain ⟨p, hSet, rfl⟩ := edit_ok.mp hEdit
      obtain ⟨v, -, rfl⟩ := graph_ok.mp h
      obtain rfl := Except.ok.inj ((Program.body_of_setBody hSet).symm.trans hBody')
      rcases MethodBody.mem_splice hMem' with hOld | ⟨⟨i, hMem, hGist⟩, -⟩
      · exact (List.not_mem_nil hOld).elim
      · exact Or.inr ⟨i, hMem, hGist⟩
  | some b =>
      have hThere : s.program.body constructor = .ok b :=
        Program.body_ok.mpr ⟨m, Program.methodDef_ok.mp hMethod, hBody⟩
      simp only [hBody] at h
      split at h
      · obtain ⟨_, s₁, hEdit, h⟩ := Step.bind_ok.mp h
        obtain ⟨p, hInsert, rfl⟩ := edit_ok.mp hEdit
        obtain ⟨v, -, rfl⟩ := graph_ok.mp h
        obtain ⟨b₀, b₁, hBefore, hAll, hAfter⟩ := Program.body_of_editBody hInsert
        obtain rfl : b₀ = b := Except.ok.inj (hBefore.symm.trans hThere)
        obtain rfl : b₁ = b' := Except.ok.inj (hAfter.symm.trans hBody')
        have hInserts : Keeps (MethodBody.Reworks (fun _ => False) fun gist =>
            ∃ i ∈ [Instruction.onArg .ldarg 0, .onMethod .call replacement] ++ [.plain .ret],
              gist = i.gist)
            (b₀.returns.forM fun ret => do
              let _ ← MethodBody.insertBefore ret
                [.onArg .ldarg 0, .onMethod .call replacement] : BodyEdit Unit) := by
          refine Keeps.forM fun ret _ => Keeps.bind (MethodBody.reworks_insertBefore ?_) fun _ =>
            Keeps.pure _
          exact fun i hMem => ⟨i, List.mem_append_left _ hMem, rfl⟩
        have hNumbered₀ : b₀.Numbered :=
          hNumbered m (List.mem_of_getElem? (Program.methodDef_ok.mp hMethod)) b₀ hBody
        refine ((hInserts hAll hNumbered₀).1.code i' hMem').imp ?_ And.left
        exact fun ⟨i, hMem, _, hGist, _⟩ => ⟨b₀, hThere, i, hMem, hGist⟩
      · obtain ⟨-, rfl⟩ := Step.pure_ok.mp h
        obtain rfl : b = b' := Except.ok.inj (hThere.symm.trans hBody')
        exact Or.inl ⟨b, hThere, i', hMem', rfl⟩

/-- Calling what stands in for an init unit needs nothing more. -/
theorem inlineInitUnit_attended {constructor replacement : MethodId} {u : Unit}
    (h : inlineInitUnit constructor replacement s = .ok u t) (hKeyed : s.closures.Keyed)
    (hNumbered : s.program.Numbered) (hStands : s.bindings.StandsIn replacement)
    (hAttended : s.Attended B L S) : t.Attended B L S := by
  have hAmends : s.Amends (· = constructor) t := by
    rcases inlineInitUnit_ok h with rfl | ⟨_, s₁, -, -, hEdited, hDerive⟩
    · exact .refl hKeyed
    · have hFirst := hEdited.toChanged.amended hKeyed
      exact hFirst.trans (amends_graph hDerive hFirst.keyed)
  intro id b' hLive'
  by_cases hSame : id = constructor
  · subst hSame
    have hNew : ∀ i ∈ [Instruction.onArg .ldarg 0, .onMethod .call replacement] ++ [.plain .ret],
        t.Rests B (L id) i := by
      intro i hMem
      simp only [List.mem_append, List.mem_cons, List.not_mem_nil, or_false] at hMem
      rcases hMem with (rfl | rfl) | rfl
      · exact .of_tame .plain
      · exact .of_tame (.onMethod (Or.inl (BindingMap.StandsIn.later hStands hAmends.bindings)))
      · exact .of_tame .plain
    have hCode := inlineInitUnit_code h hNumbered (Program.body_of_liveBody? hLive')
    have hBefore : S id ∨ id ∈ s.pending ∨ s.Own id ∨ ∀ b, s.program.body id = .ok b →
        ∀ i ∈ b.instructions, s.Rests B (L id) i := by
      cases hBody : s.program.body id with
      | error e => exact Or.inr (Or.inr (Or.inr fun b h => nomatch h))
      | ok b =>
          obtain ⟨m', hMethod', hUsed', -⟩ := Program.liveBody?_eq_some.mp hLive'
          obtain ⟨m, hMethod, hThere⟩ := Program.body_ok.mp hBody
          have hUsed := (hAmends.grows.method_persists hMethod hMethod').used hUsed'
          have hLive := Program.liveBody?_eq_some.mpr ⟨m, hMethod, hUsed, hThere⟩
          refine (hAttended id b hLive).imp_right (Or.imp_right (Or.imp_right ?_))
          exact fun hRests b₀ h => Except.ok.inj h ▸ hRests
    rcases hBefore with hIn | hPending | hOwn | hRests
    · exact Or.inl hIn
    · exact Or.inr (Or.inl (hAmends.pending hPending))
    · exact Or.inr (Or.inr (Or.inl (hOwn.later hAmends.toAdvances)))
    · refine Or.inr (Or.inr (Or.inr fun i' hMem' => ?_))
      rcases hCode i' hMem' with ⟨b, hBody, i, hMem, hGist⟩ | ⟨i, hMem, hGist⟩
      · exact .of_gist hGist ((hRests b hBody i hMem).later hAmends.toAdvances)
      · exact .of_gist hGist.symm (hNew i hMem)
  · refine (hAttended.amended hAmends id b' hLive').imp_left fun hIn => ?_
    exact hIn.elim (fun hIn => hIn) fun hIn => (hSame hIn).elim

theorem adoptInitUnit_attended {context : ContextId} {method replacement : MethodId} {u : Unit}
    (h : adoptInitUnit context method replacement s = .ok u t) (hKeyed : s.closures.Keyed)
    (hNumbered : s.program.Numbered) (hStands : s.bindings.StandsIn replacement)
    (hAttended : s.Attended B L S) : t.Attended B L S := by
  unfold adoptInitUnit at h
  obtain ⟨_, _, hGet, h⟩ := Step.bind_ok.mp h
  obtain ⟨rfl, rfl⟩ := Step.get_ok.mp hGet
  split at h
  · obtain ⟨_, s₁, hSet, h⟩ := Step.bind_ok.mp h
    obtain rfl := Step.set_ok.mp hSet
    have hFirst : s.Amends (fun _ => False)
        { s with plan := s.plan.replaceInitUnit context method replacement } :=
      { Amends.refl hKeyed with plan := ContextPlan.shape_replaceInitUnit .. }
    have hKept := hAttended.kept hFirst
    split at h
    · exact inlineInitUnit_attended h hKeyed hNumbered hStands hKept
    · obtain ⟨-, rfl⟩ := Step.pure_ok.mp h
      exact hKept
  · obtain ⟨-, rfl⟩ := Step.pure_ok.mp h
    exact hAttended

/-- When a method moves to a context, all code has what it needs but that of what stands in for
it. -/
theorem convertOne_attended {context : ContextId} {method : MethodId}
    {made : Option (MethodId × MethodId)} (h : convertOne context method s = .ok made t)
    (hKeyed : s.closures.Keyed) (hNumbered : s.program.Numbered) (hAttended : s.Attended B L S) :
    t.Attended B L fun id => S id ∨ ∃ e ∈ made, e.2 = id := by
  unfold convertOne at h
  obtain ⟨_, _, hGet, h⟩ := Step.bind_ok.mp h
  obtain ⟨rfl, rfl⟩ := Step.get_ok.mp hGet
  split at h
  · obtain ⟨-, rfl⟩ := Step.pure_ok.mp h
    exact hAttended.mono fun _ => Or.inl
  · obtain ⟨⟨replacement, fresh⟩, s₁, hMade, h⟩ := Step.bind_ok.mp h
    obtain ⟨_, s₂, hBind, h⟩ := Step.bind_ok.mp h
    have h₁ : s.Amends (· = replacement) s₁ := by
      rcases convertedReplacement_ok hMade with ⟨-, rfl, -⟩ | ⟨-, m, -, hCopy⟩
      · exact .refl hKeyed
      · exact makeCopy_amends hCopy hKeyed
    have h₂ := h₁.trans (amends_bindMethod hBind h₁.keyed)
    have hEnd {u : Propagation} (hLater : s₂.Amends (· = replacement) u)
        (h : (do
          adoptInitUnit context method replacement
          pure (some (method, replacement)) : Propagate (Option (MethodId × MethodId))) u
            = .ok made t) : t.Attended B L fun id => S id ∨ ∃ e ∈ made, e.2 = id := by
      obtain ⟨_, v, hAdopt, h⟩ := Step.bind_ok.mp h
      obtain ⟨rfl, rfl⟩ := Step.pure_ok.mp h
      have hStands : u.bindings.StandsIn replacement :=
        ⟨method, _, hLater.bindings _ _ (bindMethod_bound hBind), rfl⟩
      have hWhole := h₂.trans hLater
      refine (adoptInitUnit_attended hAdopt hWhole.keyed (hWhole.grows.numbered hNumbered) hStands
        (hAttended.amended hWhole)).mono fun id hIn => hIn.imp_right ?_
      rintro rfl
      exact ⟨(method, id), rfl, rfl⟩
    split at h
    · obtain ⟨copied, s₃, hRelocate, h⟩ := Step.bind_ok.mp h
      obtain ⟨_, s₄, hEnqueue, h⟩ := Step.bind_ok.mp h
      have hEdited : Edited (· = replacement) s₂ s₃ :=
        keeps_closures (ClosureEdit.keeps_relocateDisplayClasses (S := (· = replacement)) rfl)
          hRelocate
      have hEnqueued : Edited (· = replacement) s₃ s₄ := keeps_enqueue hEnqueue
      exact hEnd ((IsTrans.trans _ _ _ hEdited hEnqueued : Edited _ s₂ s₄).toChanged.amended
        h₂.keyed) h
    · exact hEnd (.refl h₂.keyed) h

theorem convertOne_gathers {context : ContextId} {method : MethodId}
    {made : Option (MethodId × MethodId)} (h : convertOne context method s = .ok made t)
    (hKeyed : s.closures.Keyed) (hNumbered : s.program.Numbered) : s.Gathers made.toList t := by
  refine ⟨advances_convertOne h hKeyed, fun e hMem => ?_, fun id b hGet => ?_,
    fun S hCovered => ?_, fun B L S hAttended => ?_⟩
  · exact ((convertOne_binds h).2 e hMem).2.imp fun _ => And.left
  · rcases convertOne_ok h with ⟨-, rfl, -⟩ | ⟨replacement, fresh, r, u, rfl, -⟩
    · exact Or.inl hGet
    · refine ((convertOne_binds h).1.gains.new id b hGet).imp_right fun hNew => ?_
      exact ⟨_, List.mem_singleton_self _, (List.mem_singleton.mp hNew.1).symm⟩
  · simpa only [Option.mem_toList, Option.mem_def] using convertOne_covered hCovered h
  · have hOthers := convertOne_attended h hKeyed hNumbered hAttended
    simpa only [Option.mem_toList, Option.mem_def] using hOthers

theorem addParameterTo_gathers {method : MethodId}
    {made : Option (MethodId × MethodId)} (h : addParameterTo method s = .ok made t)
    (hKeyed : s.closures.Keyed) : s.Gathers made.toList t := by
  refine ⟨advances_addParameterTo h hKeyed, fun e hMem => ?_, fun id b hGet => ?_,
    fun S hCovered => ?_, fun B L S hAttended => ?_⟩
  · exact ((addParameterTo_binds h).2 e hMem).2.imp fun _ => And.left
  · rcases addParameterTo_ok h with ⟨-, rfl, -⟩ | ⟨m, replacement, r, rfl, -⟩
    · exact Or.inl hGet
    · refine ((addParameterTo_binds h).1.gains.new id b hGet).imp_right fun hNew => ?_
      exact ⟨_, List.mem_singleton_self _, (List.mem_singleton.mp hNew.1).symm⟩
  · simpa only [Option.mem_toList, Option.mem_def] using addParameterTo_covered hCovered h
  · rcases addParameterTo_ok h with
      ⟨rfl, rfl, -⟩ | ⟨m, replacement, r, rfl, -, -, hStands, hBind⟩
    · exact hAttended.mono fun _ => Or.inl
    · have hFirst : s.Amends (· = replacement) r := by
        rcases hStands with ⟨rfl, -⟩ | hCopy
        · exact .refl hKeyed
        · exact makeCopy_amends hCopy hKeyed
      have hWhole := hFirst.trans (amends_bindMethod hBind hFirst.keyed)
      refine (hAttended.amended hWhole).mono fun id hIn => hIn.imp_right ?_
      rintro rfl
      exact ⟨(method, id), List.mem_singleton_self _, rfl⟩

/-- Binding methods in turn gathers what is bound. -/
theorem bindAll_gathers {β : Type} {f : β → Propagate (Option (MethodId × MethodId))}
    (hOne : ∀ {x : β} {made : Option (MethodId × MethodId)} {s t : Propagation},
      f x s = .ok made t → s.closures.Keyed → s.program.Numbered → s.Gathers made.toList t)
    {group : List β} {made : List (Option (MethodId × MethodId))}
    (h : group.mapM f s = .ok made t) (hKeyed : s.closures.Keyed)
    (hNumbered : s.program.Numbered) : s.Gathers (made.filterMap id) t := by
  induction group generalizing s made with
  | nil =>
      obtain ⟨rfl, rfl⟩ := Step.pure_ok.mp h
      exact .refl hKeyed
  | cons x group ih =>
      obtain ⟨first, s₁, rest, hFirst, hRest, rfl⟩ := Step.mapM_cons_ok.mp h
      have hGathers := hOne hFirst hKeyed hNumbered
      have hLater := ih hRest hGathers.keyed (hGathers.grows.numbered hNumbered)
      have hMade : (first :: rest).filterMap id = first.toList ++ rest.filterMap id := by
        cases first <;> rfl
      exact hMade ▸ hGathers.trans hLater

end Propagate

end ContextBinding
