import ContextBinding.Proofs.Implication
import ContextBinding.Proofs.Region
import ContextBinding.Proofs.Trampolines

/-! The steps of a run that copy no display class. Of the code that came with the run, such a step
adapts some, and puts in what may be named at the end of the run; all other code that came with the
run it leaves alone. -/

namespace ContextBinding

/-- A context is reached over the field, or the field takes the place of a static one. -/
def ContextDescriptor.Leads (c : ContextDescriptor) (field : FieldId) : Prop :=
  field ∈ c.chain ∨ c.rootField = some field ∨ ∃ source, (source, field) ∈ c.fieldPairs

theorem ContextPlan.mem_of_shape {plan plan' : ContextPlan} (h : plan'.shape = plan.shape)
    {c : ContextDescriptor} (hMem : c ∈ plan.contexts) :
    ∃ c' ∈ plan'.contexts, { c' with initUnits := [] } = { c with initUnits := [] } := by
  have hShape : { c with initUnits := [] } ∈ plan'.shape.contexts :=
    h ▸ List.mem_map.mpr ⟨c, hMem, rfl⟩
  obtain ⟨c', hMem', hSame⟩ := List.mem_map.mp hShape
  exact ⟨c', hMem', hSame⟩

/-- Where a static field moves to is an instance field of a context. -/
theorem ContextPlan.leads_of_movedField? {plan : ContextPlan} {field moved : FieldId}
    {context : ContextId} (h : plan.movedField? field = some (context, moved)) :
    ∃ c ∈ plan.contexts, c.Leads moved := by
  obtain ⟨move, hLast, hSame⟩ := Option.map_eq_some_iff.mp h
  obtain ⟨e, hEntry, hMove⟩ :=
    List.mem_flatMap.mp (List.mem_filter.mp (List.mem_of_getLast? hLast)).1
  obtain ⟨pair, hPair, rfl⟩ := List.mem_map.mp hMove
  obtain ⟨-, rfl⟩ := Prod.mk.inj hSame
  obtain ⟨c, hMem, rfl⟩ := List.mem_map.mp hEntry
  exact ⟨c.1, (List.mem_zipIdx' hMem).2 ▸ List.getElem_mem _, Or.inr (Or.inr ⟨pair.1, hPair⟩)⟩

/-- What is known of closures when the program `p` has become `q`: records have types of their own,
and the fields in which display classes store the root are named so. -/
structure Closures.Grounded (p : Program) (c : Closures) (q : Program) : Prop where
  grows : p.Grows q
  numbered : q.Numbered
  housed : q.Housed
  records : ∀ type, c.HasRecord type → p.types.length ≤ type.index ∧ type.index < q.types.length
  roots : ∀ type field, c.displayRoot? type = some field →
    ∃ f, q.field? field = some f ∧ f.name = Closures.displayRootName

namespace Propagation

/-- All that a run puts into code up to some point may be named: what stands in for methods and what
serves captures, the fields by which contexts are reached and those that take the place of static
ones, and the fields in which display classes store the root. -/
structure Admits (s : Propagation) (S : Scope) : Prop where
  stands : ∀ id, s.bindings.StandsIn id → S.call id ∧ S.target id
  serves : ∀ id, s.closures.Serves id → S.target id
  leads : ∀ c ∈ s.plan.contexts, ∀ field, c.Leads field → S.field field
  roots : ∀ id f, s.program.field? id = some f → f.name = Closures.displayRootName → S.field id
  places : ∀ id, S.place id ∧ S.pointer id

/-- What holds of a run that began with the program `p`: methods that came with the run belong to
types that did, or stand in for others. -/
structure Grounded (p : Program) (s : Propagation) : Prop
    extends s.closures.Grounded p s.program where
  brings : ∀ id m, s.program.method? id = some m → p.methods.length ≤ id.index →
    p.types.length ≤ m.owner.index ∨ s.bindings.StandsIn id

end Propagation

/-- The methods and the types of the region came with the run, and none of the types is that of a
record. -/
structure Region.Kept (R : Region) (p : Program) (s : Propagation) : Prop where
  methods : ∀ id, R.methods id →
    p.methods.length ≤ id.index ∧ id.index < s.program.methods.length
  types : ∀ type, R.types type → p.types.length ≤ type.index ∧
    type.index < s.program.types.length ∧ ¬ s.closures.HasRecord type

/-- No method of the program that the run began with is in the region. -/
theorem Region.Kept.not_has {R : Region} {p : Program} {s : Propagation} (h : R.Kept p s)
    (hGrounded : s.Grounded p) {id : MethodId} {m m' : MethodDef} (hMethod : p.method? id = some m)
    (hThere : m.owner.index < p.types.length) (hMethod' : s.program.method? id = some m') :
    ¬ R.Has id m' := by
  rintro (hIn | hIn)
  · have hOld : id.index < p.methods.length := (List.getElem?_eq_some_iff.mp hMethod).1
    exact absurd hOld (Nat.not_lt.mpr (h.methods id hIn).1)
  · have hOwner := (hGrounded.grows.method_persists hMethod hMethod').owner
    exact absurd hThere (Nat.not_lt.mpr (hOwner ▸ (h.types _ hIn).1))

namespace Propagation

/-- A step leaves the code in regions alone, but for what adaptation puts in. -/
structure Spares (p : Program) (S : Scope) (s t : Propagation) : Prop extends s.Advances t where
  grounded : s.Grounded p → t.Grounded p
  kept : s.Grounded p → ∀ R : Region, R.Kept p s → R.Kept p t
  within : t.Admits S → s.Grounded p → ∀ R : Region, R.Kept p s → ∀ B, MethodBody.Lasting S B →
    s.program.Within R B → t.program.Within R B

/-- So it does, if it copies no display class, moves no method to a context but to one that was
there, and edits no method that was bound. -/
structure Minor (p : Program) (S : Scope) (s t : Propagation) : Prop extends s.Spares p S t where
  relocated : t.closures.relocated = s.closures.relocated
  binds : ∀ id b, t.bindings.get? id = some b → s.bindings.get? id = some b ∨
    b.mode = .addedParameter ∨ b.replacement.index < p.methods.length
  code : ∀ id m m', (∃ b, s.bindings.get? id = some b) → s.program.method? id = some m →
    t.program.method? id = some m' → m'.body = m.body ∨ s.Constructs id ∨ t.bindings.StandsIn id

/-- A step of a run is minor. -/
def IsMinor (p : Program) (S : Scope) (s t : Propagation) : Prop := s.closures.Keyed → s.Minor p S t

variable {p : Program} {S : Scope} {s t u : Propagation}

/-- What may be named later may be named before. -/
theorem Admits.earlier (h : s.Advances t) (hAdmits : t.Admits S) : s.Admits S where
  stands id hStands := hAdmits.stands id (hStands.later h.bindings)
  serves id hServes := hAdmits.serves id (h.learns.serves id hServes)
  leads c hMem field hLeads := by
    obtain ⟨c', hMem', hSame⟩ := ContextPlan.mem_of_shape h.plan hMem
    refine hAdmits.leads c' hMem' field ?_
    have hLeads : ContextDescriptor.Leads { c with initUnits := [] } field := hLeads
    exact (hSame ▸ hLeads : ContextDescriptor.Leads { c' with initUnits := [] } field)
  roots id f hField hName := by
    obtain ⟨f', hField', hSame⟩ := h.grows.field hField
    exact hAdmits.roots id f' hField' (hSame.name.trans hName)
  places := hAdmits.places

protected theorem Spares.refl (h : s.closures.Keyed) : s.Spares p S s :=
  ⟨.refl h, id, fun _ _ h => h, fun _ _ _ _ _ _ h => h⟩

protected theorem Spares.trans (h : s.Spares p S t) (h' : t.Spares p S u) : s.Spares p S u where
  toAdvances := h.toAdvances.trans h'.toAdvances
  grounded hGrounded := h'.grounded (h.grounded hGrounded)
  kept hGrounded R hKept := h'.kept (h.grounded hGrounded) R (h.kept hGrounded R hKept)
  within hAdmits hGrounded R hKept B hB hWithin := by
    refine h'.within hAdmits (h.grounded hGrounded) R (h.kept hGrounded R hKept) B hB ?_
    exact h.within (hAdmits.earlier h'.toAdvances) hGrounded R hKept B hB hWithin

protected theorem Minor.refl (h : s.closures.Keyed) : s.Minor p S s :=
  ⟨.refl h, rfl, fun _ _ => Or.inl, fun _ m m' _ hMethod hMethod' => by
    obtain rfl := Option.some_inj.mp (hMethod.symm.trans hMethod')
    exact Or.inl rfl⟩

protected theorem Minor.trans (h : s.Minor p S t) (h' : t.Minor p S u) : s.Minor p S u where
  toSpares := h.toSpares.trans h'.toSpares
  relocated := h'.relocated.trans h.relocated
  binds id b hGet := (h'.binds id b hGet).elim (h.binds id b) Or.inr
  code id m m'' hBound hMethod hMethod'' := by
    obtain ⟨m', hMethod', -⟩ := h.grows.method hMethod
    have hBound' : ∃ b, t.bindings.get? id = some b := hBound.imp fun b hGet => h.bindings id b hGet
    rcases h'.code id m' m'' hBound' hMethod' hMethod'' with hLater | hConstructs | hStands
    · rcases h.code id m m' hBound hMethod hMethod' with hSame | hConstructs | hStands
      · exact Or.inl (hLater.trans hSame)
      · exact Or.inr (Or.inl hConstructs)
      · exact Or.inr (Or.inr (hStands.later h'.bindings))
    · exact Or.inr (Or.inl (hConstructs.earlier h.plan))
    · exact Or.inr (Or.inr hStands)

instance : IsPreorder Propagation (IsMinor p S) where
  refl _ := .refl
  trans _ _ _ h h' hKeyed := (h hKeyed).trans (h' (h hKeyed).keyed)

/-- The fields in which display classes store the root may be named. -/
theorem Admits.root (h : s.Admits S) (hGrounded : s.Grounded p) {type : TypeId} {field : FieldId}
    (hRoot : s.closures.displayRoot? type = some field) : S.field field := by
  obtain ⟨f, hThere, hName⟩ := hGrounded.roots type field hRoot
  exact h.roots field f hThere hName

/-- A region is kept where no record comes to have one of its types. -/
theorem later_kept {R : Region} (h : R.Kept p s) (hGrows : s.program.Grows t.program)
    (hFresh : ∀ type, t.closures.HasRecord type →
      s.closures.HasRecord type ∨ s.program.types.length ≤ type.index) : R.Kept p t where
  methods id hIn := ⟨(h.methods id hIn).1, (h.methods id hIn).2.trans_le hGrows.methods.length_le⟩
  types type hIn := by
    obtain ⟨hNew, hThere, hOther⟩ := h.types type hIn
    refine ⟨hNew, hThere.trans_le hGrows.types.length_le, fun hRecord => ?_⟩
    exact (hFresh type hRecord).elim hOther fun hLate => absurd hThere (Nat.not_lt.mpr hLate)

/-- A step that declares no methods, and edits code only of those that the run began with. -/
theorem Spares.of_confined {X : MethodId → Prop} (h : s.Advances t)
    (hProgram : s.program.Confined X (fun _ => False) t.program)
    (hX : ∀ id, X id → ∃ m, p.method? id = some m ∧ m.owner.index < p.types.length)
    (hRecords : t.closures.records = s.closures.records)
    (hRoots : ∀ type field, t.closures.displayRoot? type = some field →
      s.closures.displayRoot? type = some field ∨
        ∃ f, t.program.field? field = some f ∧ f.name = Closures.displayRootName) :
    s.Spares p S t := by
  have hSame (type : TypeId) (hType : t.closures.HasRecord type) : s.closures.HasRecord type := by
    obtain ⟨key, r, hGet, hType⟩ := hType
    exact ⟨key, r, hRecords ▸ hGet, hType⟩
  refine ⟨h, fun hGrounded => ?_, fun _ R hKept => ?_, fun _ hGrounded R hKept B _ hWithin => ?_⟩
  · refine ⟨⟨hGrounded.grows.trans h.grows, h.grows.numbered hGrounded.numbered,
      hGrounded.housed.confined hProgram fun _ => False.elim, fun type hType => ?_,
      fun type field hRoot => ?_⟩, fun id m' hMethod' hNew => ?_⟩
    · obtain ⟨hNew, hThere⟩ := hGrounded.records type (hSame type hType)
      exact ⟨hNew, hThere.trans_le h.grows.types.length_le⟩
    · rcases hRoots type field hRoot with hBefore | hNamed
      · obtain ⟨f, hField, hName⟩ := hGrounded.roots type field hBefore
        obtain ⟨f', hField', hPersists⟩ := h.grows.field hField
        exact ⟨f', hField', hPersists.name.trans hName⟩
      · exact hNamed
    · rcases hProgram.code id m' hMethod' with ⟨m, hMethod, -⟩ | ⟨-, hNever⟩
      · rw [(h.grows.method_persists hMethod hMethod').owner]
        exact (hGrounded.brings id m hMethod hNew).imp_right fun hStands => hStands.later h.bindings
      · exact hNever.elim
  · exact later_kept hKept h.grows fun type hType => Or.inl (hSame type hType)
  · refine hWithin.confined hProgram (fun id hIn => (hKept.methods id hIn).2)
      (fun id m hMethod hIn => ?_) fun _ => False.elim
    obtain ⟨m₀, hMethod₀, hThere⟩ := hX id hIn
    exact hKept.not_has hGrounded hMethod₀ hThere hMethod

/-- So does a step that edits no code at all, and then it is minor. -/
theorem Minor.of_confined (h : s.Advances t)
    (hProgram : s.program.Confined (fun _ => False) (fun _ => False) t.program)
    (hRecords : t.closures.records = s.closures.records)
    (hRelocated : t.closures.relocated = s.closures.relocated)
    (hRoots : ∀ type field, t.closures.displayRoot? type = some field →
      s.closures.displayRoot? type = some field ∨
        ∃ f, t.program.field? field = some f ∧ f.name = Closures.displayRootName)
    (hBinds : ∀ id b, t.bindings.get? id = some b → s.bindings.get? id = some b ∨
      b.mode = .addedParameter ∨ b.replacement.index < p.methods.length) : s.Minor p S t :=
  ⟨.of_confined h hProgram (fun _ => False.elim) hRecords hRoots, hRelocated, hBinds,
    fun _ _ _ _ hMethod hMethod' =>
      Or.inl ((hProgram.sameBody hMethod hMethod').resolve_right not_false)⟩

/-- Two points of a run with the same code, closures, bindings, plan and options. -/
structure Alike (s t : Propagation) : Prop where
  work : t.work = s.work
  closures : t.closures = s.closures
  bindings : t.bindings = s.bindings
  plan : t.plan = s.plan
  options : t.options = s.options

theorem Alike.isMinor (h : s.Alike t) : IsMinor p S s t := by
  intro hKeyed
  have hProgram : t.program = s.program := congrArg (·.program) h.work
  refine .of_confined ⟨h.closures ▸ hKeyed, h.closures ▸ refl _, fun type hType => Or.inl ?_,
    hProgram ▸ .refl _, h.bindings ▸ refl _, h.options, congrArg _ h.plan⟩ (hProgram ▸ .refl _)
    (congrArg _ h.closures) (congrArg _ h.closures) (fun type field hRoot => Or.inl ?_)
    fun id b hGet => Or.inl (h.bindings ▸ hGet)
  · exact h.closures ▸ hType
  · exact h.closures ▸ hRoot

end Propagation

namespace Propagate

open Propagation (IsMinor Minor)

variable {α : Type} {p : Program} {S : Scope} {s t : Propagation}

/-- Adding to what is none of the code, the closures, the bindings and the plan. -/
theorem minor_modify {f : Propagation → Propagation} (h : ∀ s : Propagation, s.Alike (f s)) :
    Keeps (IsMinor p S) (modify f : Propagate PUnit) :=
  Keeps.modify fun s => (h s).isMinor

theorem minor_graph {e : Program → GraphEdit α} : Keeps (IsMinor p S) (graph e) := by
  intro s a t h hKeyed
  have hAdvances := advances_graph h hKeyed
  obtain ⟨u, -, rfl⟩ := graph_ok.mp h
  exact .of_confined hAdvances (.refl s.program) rfl rfl (fun _ _ => Or.inl) fun _ _ => Or.inl

/-- An edit of no code. -/
theorem minor_confined {e : Edit α}
    (h : Keeps (Program.Confined (fun _ => False) fun _ => False) e) :
    Keeps (IsMinor p S) (edit e) := by
  intro s a t hRun hKeyed
  obtain ⟨q, hEdit, rfl⟩ := edit_ok.mp hRun
  have hProgram : s.program.Confined (fun _ => False) (fun _ => False) q := h hEdit
  exact .of_confined ⟨hKeyed, refl _, fun _ => Or.inl, hProgram.grows, refl _, rfl, rfl⟩ hProgram
    rfl rfl (fun _ _ => Or.inl) fun _ _ => Or.inl

/-- A method is given the root, or bound to one that was there. -/
theorem minor_bindMethod {b : Binding}
    (h : b.mode = .addedParameter ∨ b.replacement.index < p.methods.length) :
    Keeps (IsMinor p S) (bindMethod b) := by
  intro s u t hRun hKeyed
  have hAdvances := advances_bindMethod hRun hKeyed
  obtain ⟨m, hBind, rfl⟩ := bindMethod_ok hRun
  refine .of_confined hAdvances (.refl s.program) rfl rfl (fun _ _ => Or.inl) fun id c hGet => ?_
  refine ((BindingMap.bind_ok hBind).2.2 id c hGet).imp_right ?_
  rintro ⟨rfl, -⟩
  exact h

theorem minor_complete {bound : List (MethodId × MethodId)} :
    Keeps (IsMinor p S) (complete bound) :=
  keeps_complete (fun _ => minor_confined Program.keeps_retireMethod) minor_graph
    (fun _ => minor_graph) (fun _ => minor_modify fun _ => ⟨rfl, rfl, rfl, rfl, rfl⟩)
    fun _ => minor_modify fun _ => ⟨rfl, rfl, rfl, rfl, rfl⟩

theorem minor_alignProperty {into : Option TypeId} {method replacement : MethodId} :
    Keeps (IsMinor p S) (alignProperty into method replacement) := by
  refine Keeps.bind model_keeps fun m => Keeps.ite (Keeps.bind model_keeps fun owner => ?_)
    (Keeps.pure _)
  split
  · exact Keeps.pure _
  · refine Keeps.ite (minor_confined ?_) ?_
    · exact Program.keeps_modifyMethod (fun m => .dropSpecialName m) fun _ => rfl
    · split
      · refine minor_confined (Program.keeps_modifyType ?_ ?_)
        · exact fun _ => ⟨rfl, rfl, rfl⟩
        · exact fun _ _ h => h
      · refine Keeps.bind model_keeps fun target => Keeps.ite ?_ (Keeps.pure _)
        exact Keeps.bind Keeps.get fun s => minor_confined
          (Program.keeps_addProperty.mono fun _ _ h => h.toConfined)

theorem minor_mapOverrides {bound : List (MethodId × MethodId)} {replacement : MethodId} :
    Keeps (IsMinor p S) (mapOverrides bound replacement) := by
  refine Keeps.bind model_keeps fun m => Keeps.bind Keeps.get fun s => ?_
  refine Keeps.ite (minor_confined ?_) (Keeps.pure _)
  refine Program.keeps_modifyMethod (fun m => ?_) fun _ => rfl
  exact ⟨rfl, rfl, rfl, rfl, fun _ _ => rfl, fun h => h, fun b hBody => ⟨b, hBody, refl b⟩⟩

theorem minor_retireMovedFields : Keeps (IsMinor p S) retireMovedFields := by
  refine Keeps.bind Keeps.get fun s => Keeps.ite (Keeps.forM fun field _ => ?_) (Keeps.pure _)
  refine Keeps.bind model_keeps fun f => Keeps.ite (minor_confined ?_) (Keeps.pure _)
  exact Program.keeps_retireField.mono fun _ _ h => h.toConfined

/-- A display class may be given a field for the root. -/
theorem minor_displayHandle? {method : MethodId} : Keeps (IsMinor p S) (displayHandle? method) := by
  intro s handle t h hKeyed
  have hAdvances := advances_displayHandle? h hKeyed
  rcases displayHandle?_ok h with rfl | ⟨m, field, q, -, -, -, -, -, hField, hEnd⟩
  · exact .refl hKeyed
  · obtain ⟨-, -, -, -, hThere⟩ := Program.addField_ok hField
    have hProgram : s.program.Rewrites (fun _ => False) (fun _ => False) q :=
      Program.keeps_addField hField
    have hSame : t.program = q := by rw [hEnd]; rfl
    have hRoots : t.closures.displayRoots = s.closures.displayRoots.insert m.owner field := by
      rw [hEnd]
      rfl
    refine .of_confined hAdvances (hSame ▸ hProgram.toConfined) (by rw [hEnd]; rfl)
      (by rw [hEnd]; rfl) (fun type root hRoot => ?_)
      fun id b hGet => Or.inl (by rw [hEnd] at hGet; exact hGet)
    unfold Closures.displayRoot? at hRoot ⊢
    rw [hRoots, Table.get?_insert] at hRoot
    split at hRoot
    · exact Or.inr ⟨_, Option.some_inj.mp hRoot ▸ hSame ▸ hThere, rfl⟩
    · exact Or.inl hRoot

/-- Contexts bring along methods that were there. -/
theorem minor_bindReplacements {u : Unit} (h : bindReplacements s = .ok u t)
    (hNames : ∀ b ∈ s.plan.given, b.replacement.index < p.methods.length) : IsMinor p S s t := by
  obtain ⟨_, _, hGet, h⟩ := Step.bind_ok.mp h
  obtain ⟨rfl, rfl⟩ := Step.get_ok.mp hGet
  refine Keeps.bind (Keeps.mapM fun b hb => ?_) (fun made => minor_complete) h
  refine Keeps.bind model_keeps fun m => Keeps.ite (Keeps.pure _) ?_
  exact Keeps.bind (minor_bindMethod (Or.inr (hNames b hb))) fun _ => Keeps.pure _

/-- Where a method finds the root, it reads fields that may be named. -/
theorem handleOf?_reads {method : MethodId} {handle : HandleSource}
    (h : handleOf? method s = .ok (some handle) t) (hAdmits : s.Admits S)
    (hGrounded : s.Grounded p) : handle.Reads s.plan S := by
  refine ⟨?_, fun c hMem field hField => hAdmits.leads c hMem field (Or.inl hField)⟩
  have hContext {context : ContextId} {field : FieldId}
      (hRoot : (s.plan.context context).rootField = some field) : S.field field := by
    cases hThere : s.plan.context? context with
    | none => simp [ContextPlan.context, hThere, default, ContextDescriptor.bare] at hRoot
    | some c =>
        rw [ContextPlan.context, hThere, Option.getD_some] at hRoot
        exact hAdmits.leads c (List.mem_of_getElem? hThere) field (Or.inr (Or.inl hRoot))
  obtain ⟨_, _, hGet, h⟩ := Step.bind_ok.mp h
  obtain ⟨rfl, rfl⟩ := Step.get_ok.mp hGet
  obtain ⟨m, _, hModel, h⟩ := Step.bind_ok.mp h
  obtain ⟨-, rfl⟩ := model_ok.mp hModel
  dsimp only at h
  intro field hField
  cases hStands : s.bindings.byReplacement? method with
  | some b =>
      cases hMode : b.mode with
      | unbound =>
          simp only [hStands, hMode] at h
          cases (Step.pure_ok.mp h).1
      | addedParameter =>
          simp only [hStands, hMode] at h
          obtain rfl := Option.some_inj.mp (Step.pure_ok.mp h).1
          cases hField
      | instanceConverted context =>
          simp only [hStands, hMode] at h
          obtain rfl := Option.some_inj.mp (Step.pure_ok.mp h).1
          exact hContext hField
  | none =>
      simp only [hStands] at h
      split at h
      · cases (Step.pure_ok.mp h).1
      · split at h
        · obtain rfl := Option.some_inj.mp (Step.pure_ok.mp h).1
          cases hField
        · cases hGenerated : s.plan.byGenerated? m.owner with
          | some context =>
              simp only [hGenerated] at h
              obtain rfl := Option.some_inj.mp (Step.pure_ok.mp h).1
              exact hContext hField
          | none =>
              simp only [hGenerated] at h
              obtain ⟨root, hRoot, rfl⟩ := Option.map_eq_some_iff.mp (Step.pure_ok.mp h).1
              obtain rfl : root = field := Option.some_inj.mp hField
              exact hAdmits.root hGrounded hRoot

/-- A display class leads to the root over its field. -/
theorem displayHandle?_root {method : MethodId} {handle : HandleSource}
    (h : displayHandle? method s = .ok (some handle) t) :
    ∃ type field, handle = .capturedRoot field ∧ t.closures.displayRoot? type = some field := by
  obtain ⟨m, _, hModel, h⟩ := Step.bind_ok.mp h
  obtain ⟨-, rfl⟩ := model_ok.mp hModel
  obtain ⟨type, _, hModel, h⟩ := Step.bind_ok.mp h
  obtain ⟨-, rfl⟩ := model_ok.mp hModel
  split at h
  · cases (Step.pure_ok.mp h).1
  · obtain ⟨⟨field, created⟩, s₁, hEnsure, h⟩ := Step.bind_ok.mp h
    obtain ⟨_, hDisplay, rfl⟩ := Step.focus_ok.mp hEnsure
    refine ⟨m.owner, field, ?_⟩
    rcases ClosureEdit.ensureDisplayRoot_ok hDisplay with
      ⟨hRoot, rfl, rfl⟩ | ⟨-, rfl, p, -, rfl⟩
    · obtain ⟨hSame, rfl⟩ := Step.pure_ok.mp h
      exact ⟨(Option.some_inj.mp hSame).symm, hRoot⟩
    · obtain ⟨_, _, hGet, h⟩ := Step.bind_ok.mp h
      obtain ⟨rfl, rfl⟩ := Step.get_ok.mp hGet
      obtain ⟨_, _, hEnqueue, h⟩ := Step.bind_ok.mp h
      obtain rfl := Step.modify_ok.mp hEnqueue
      obtain ⟨hSame, rfl⟩ := Step.pure_ok.mp h
      refine ⟨(Option.some_inj.mp hSame).symm, ?_⟩
      change (s.closures.displayRoots.insert m.owner field).get? m.owner = some field
      simp [Table.get?_insert]

/-- So it reads fields that may be named. -/
theorem displayHandle?_reads {method : MethodId} {handle : HandleSource}
    (h : displayHandle? method s = .ok (some handle) t) (hAdmits : t.Admits S)
    (hGrounded : t.Grounded p) : handle.Reads t.plan S := by
  refine ⟨fun field hField => ?_, fun c hMem field hField =>
    hAdmits.leads c hMem field (Or.inl hField)⟩
  obtain ⟨type, root, rfl, hRoot⟩ := displayHandle?_root h
  obtain rfl : root = field := Option.some_inj.mp hField
  exact hAdmits.root hGrounded hRoot

/-- Giving a display class a field for the root leaves the methods, and the fields of others. -/
theorem displayHandle?_keeps {method : MethodId} {handle : Option HandleSource}
    (h : displayHandle? method s = .ok handle t) : t.program.methods = s.program.methods ∧
      ∀ type field, s.closures.displayRoot? type = some field →
        t.closures.displayRoot? type = some field := by
  rcases displayHandle?_ok h with rfl | ⟨m, field, q, -, -, -, hNone, -, hField, rfl⟩
  · exact ⟨rfl, fun _ _ h => h⟩
  · refine ⟨(Program.addField_ok hField).2.2.2.1, fun type root hRoot => ?_⟩
    change (s.closures.displayRoots.insert m.owner field).get? type = some root
    rw [Table.get?_insert, if_neg]
    · exact hRoot
    · rintro rfl
      cases hNone.symm.trans hRoot

/-- What the places of code need may be named. -/
theorem places_allowed (hAdmits : s.Admits S) (hRoots : ∀ type field,
      s.closures.displayRoot? type = some field → S.field field) {b : MethodBody} :
    ∀ place ∈ s.places b, place.Allowed S := by
  intro place hMem
  obtain ⟨i, -, -, hNeed⟩ := NeedySite.mem_scan.mp hMem
  have hReason := NeedySite.reason_of_needOf? hNeed
  unfold NeedySite.Allowed
  cases hKind : place.need with
  | staticField context moved =>
      rw [hKind] at hReason
      obtain ⟨-, field, -, hMoved⟩ := hReason
      obtain ⟨c, hThere, hLeads⟩ := ContextPlan.leads_of_movedField? hMoved
      exact ⟨(hAdmits.places _).1, hAdmits.leads c hThere moved hLeads⟩
  | singleton context => exact (hAdmits.places _).1
  | boundCall b =>
      rw [hKind] at hReason
      obtain ⟨-, target, -, hGet⟩ := hReason
      exact ⟨(hAdmits.places _).1, (hAdmits.stands _ ⟨target, b, hGet, rfl⟩).1⟩
  | capture b =>
      rw [hKind] at hReason
      obtain ⟨-, target, -, hGet⟩ := hReason
      exact ⟨(hAdmits.places _).2, (hAdmits.stands _ ⟨target, b, hGet, rfl⟩).2⟩
  | displayStore field =>
      rw [hKind] at hReason
      obtain ⟨-, hPending⟩ := hReason
      obtain ⟨j, -, -, m, -, hRoot⟩ := Closures.pendingStore?_ok hPending
      exact hRoots m.owner field hRoot

end Propagate

namespace Propagation

/-- The records are left as by a step that adapts the code of the methods in `X`. -/
def Registered (X : MethodId → Prop) (s t : Propagation) : Prop :=
  ClosureEdit.Registered X (s.closures, s.work) (t.closures, t.work)

instance {X : MethodId → Prop} : IsPreorder Propagation (Registered X) where
  refl s := refl (r := ClosureEdit.Registered X) (s.closures, s.work)
  trans _ _ _ h h' := IsTrans.trans (r := ClosureEdit.Registered X) _ _ _ h h'

end Propagation

namespace Propagate

open Propagation (CodeOnly Minor IsMinor)

variable {p : Program} {S : Scope} {s t : Propagation} {site : RootedMethod}
  {places : List NeedySite}

theorem registered_adaptInPlace :
    Keeps (Propagation.Registered (· = site.method)) (adaptInPlace site places) := by
  have hModify {f : Propagation → Propagation}
      (h : ∀ s, ((f s).closures, (f s).work) = (s.closures, s.work)) :
      Keeps (Propagation.Registered (· = site.method)) (modify f : Propagate PUnit) :=
    Keeps.modify fun s => by
      unfold Propagation.Registered
      rw [h s]
      exact refl (r := ClosureEdit.Registered _) (s.closures, s.work)
  have hClosures {α : Type} {e : ClosureEdit α}
      (h : Keeps (ClosureEdit.Registered (· = site.method)) e) :
      Keeps (Propagation.Registered (· = site.method)) (closures e) := by
    intro s a t hRun
    obtain ⟨u, hEdit, rfl⟩ := Step.focus_ok.mp hRun
    exact h hEdit
  have hWork : WorkKeeps (· = site.method) (Propagation.Registered (· = site.method)) := by
    refine ⟨fun h s a t hRun hKeyed => ?_, fun _ _ => hModify fun _ => rfl⟩
    obtain ⟨w, hEdit, rfl⟩ := Step.focus_ok.mp hRun
    exact ⟨hKeyed, fun _ h => h, fun _ => Or.inl, (h _ hEdit).toConfined⟩
  have hSite (place : NeedySite) :
      Keeps (Propagation.Registered (· = site.method)) (adaptSite site place) :=
    adaptSite_keeps (S := (· = site.method)) rfl hWork
      (fun _ _ _ => hClosures (ClosureEdit.registered_adaptCapture rfl))
      fun _ => hClosures (ClosureEdit.registered_storeDisplayRoot rfl)
  refine Keeps.bind (Keeps.mapM fun place _ => hSite place) fun outcomes =>
    Keeps.ite (Keeps.bind (hModify fun _ => rfl) fun _ s u t h => ?_) (Keeps.pure _)
  obtain ⟨v, -, rfl⟩ := graph_ok.mp h
  exact fun hKeyed => ⟨hKeyed, fun _ h => h, fun _ => Or.inl, .refl _⟩

theorem displays_adaptInPlace :
    Keeps (fun s t : Propagation => s.closures.SameDisplays t.closures)
      (adaptInPlace site places) := by
  intro s u t h
  obtain ⟨outcomes, s₁, hSites, h⟩ := Step.bind_ok.mp h
  have hCode : CodeOnly s s₁ := Keeps.mapM (fun _ _ => codeOnly_adaptSite) hSites
  split at h
  · obtain ⟨_, _, hCount, h⟩ := Step.bind_ok.mp h
    obtain rfl := Step.modify_ok.mp hCount
    obtain ⟨v, -, rfl⟩ := graph_ok.mp h
    exact hCode.displays
  · exact (Step.pure_ok.mp h).2 ▸ hCode.displays

/-- Adapting a method that is not bound. -/
theorem adaptInPlace_minor {b : MethodBody} {u : Unit} (hBody : s.program.body site.method = .ok b)
    (hFree : s.bindings.get? site.method = none)
    (hReads : s.Admits S → s.Grounded p → site.handle.Reads s.plan S)
    (hAllowed : s.Admits S → s.Grounded p → ∀ place ∈ places, place.Allowed S)
    (h : adaptInPlace site places s = .ok u t) : IsMinor p S s t := by
  intro hKeyed
  have hAdvances := advances_adaptInPlace h hKeyed
  have hRegisters : ClosureEdit.Registers (· = site.method) (s.closures, s.work)
    (t.closures, t.work) := registered_adaptInPlace h hKeyed
  have hBindings : t.bindings = s.bindings := same_adaptInPlace h
  have hDisplays : s.closures.SameDisplays t.closures := displays_adaptInPlace h
  have hRecords (hGrounded : s.Grounded p) (type : TypeId) (hType : t.closures.HasRecord type) :
      p.types.length ≤ type.index ∧ type.index < t.program.types.length := by
    rcases hRegisters.fresh type hType with hBefore | ⟨hNew, hThere⟩
    · exact (hGrounded.records type hBefore).imp_right fun h =>
        h.trans_le hAdvances.grows.types.length_le
    · exact ⟨hGrounded.grows.types.length_le.trans hNew, hThere⟩
  have hLater (R : Region) (hKept : R.Kept p s) : R.Kept p t :=
    Propagation.later_kept hKept hAdvances.grows fun type hType =>
      (hRegisters.fresh type hType).imp_right And.left
  refine ⟨⟨hAdvances, fun hGrounded => ?_, fun _ => hLater, ?_⟩, hDisplays.relocated,
    fun id b hGet => Or.inl (hBindings ▸ hGet), fun id m m' hBound hMethod hMethod' => Or.inl ?_⟩
  · refine ⟨⟨hGrounded.grows.trans hAdvances.grows, hAdvances.grows.numbered hGrounded.numbered,
      hGrounded.housed.confined hRegisters.program fun type hType =>
        (hRecords hGrounded type hType).2, hRecords hGrounded, fun type field hRoot => ?_⟩,
      fun id m' hMethod' hNew => ?_⟩
    · unfold Closures.displayRoot? at hRoot
      rw [hDisplays.roots] at hRoot
      obtain ⟨f, hField, hName⟩ := hGrounded.roots type field hRoot
      obtain ⟨f', hField', hSame⟩ := hAdvances.grows.field hField
      exact ⟨f', hField', hSame.name.trans hName⟩
    · rcases hRegisters.program.code id m' hMethod' with ⟨m, hMethod, -⟩ | ⟨-, hRecord⟩
      · rw [(hAdvances.grows.method_persists hMethod hMethod').owner, hBindings]
        exact hGrounded.brings id m hMethod hNew
      · exact Or.inl (hRecords hGrounded _ hRecord).1
  · intro hAdmits hGrounded R hKept B hB hWithin
    have hBefore : s.Admits S := hAdmits.earlier hAdvances
    obtain ⟨-, -, hPatches⟩ := (adaptInPlace_patches (hReads hBefore hGrounded)
      (hAllowed hBefore hGrounded) h).2 hKeyed
    refine hWithin.adapted hRegisters.program (hPatches hAdmits.serves) hBody ?_ hB
      (fun id hIn => (hKept.methods id hIn).2) fun type hRecord hIn => ?_
    · obtain ⟨m, hMethod, hCode⟩ := Program.body_ok.mp hBody
      exact hGrounded.numbered m (List.mem_of_getElem? hMethod) b hCode
    · exact ((hLater R hKept).types type hIn).2.2 hRecord
  · refine (hRegisters.program.sameBody hMethod hMethod').resolve_right ?_
    rintro rfl
    obtain ⟨c, hGet⟩ := hBound
    cases hFree.symm.trans hGet

/-- A copy may be made to stand in for a method, on the type of what is copied or on one that the
run began with. -/
theorem bindCopy_spares {source : MethodId} {owner : TypeId} {name : String}
    {params : List TypeRef} {shape : MethodShape} {r : Propagation} {b : Binding} {u : Unit}
    (hCopy : makeCopy source owner name params shape s = .ok b.replacement r)
    (hBind : bindMethod b r = .ok u t) (hKeyed : s.closures.Keyed)
    (hOwner : owner.index < p.types.length ∨
      ∃ m, s.program.method? source = some m ∧ m.owner = owner) : s.Spares p S t := by
  have hCopied := advances_makeCopy hCopy hKeyed
  have hAdvances := hCopied.trans (advances_bindMethod hBind hCopied.keyed)
  have hBound := bindMethod_bound hBind
  obtain ⟨m, hMethod, hNew, hGrows, -, hMethods, -, hSame⟩ := makeCopy_ok hCopy
  obtain ⟨bindings, -, rfl⟩ := bindMethod_ok hBind
  have hClosures : r.closures = s.closures := by rw [hSame]
  have hRecord (type : TypeId) : r.closures.HasRecord type ↔ s.closures.HasRecord type := by
    rw [hClosures]
  refine ⟨hAdvances, fun hGrounded => ?_, fun _ R hKept => ?_,
    fun _ hGrounded R hKept B hB hWithin => ?_⟩
  · refine ⟨⟨hGrounded.grows.trans hGrows, hGrows.numbered hGrounded.numbered,
      hGrounded.housed.append hGrows hMethods ?_, fun type hType => ?_, fun type field hRoot => ?_⟩,
      fun id m' hMethod' hLate => ?_⟩
    · refine Nat.lt_of_lt_of_le ?_ hGrows.types.length_le
      rcases hOwner with hOld | ⟨m₀, hSource, rfl⟩
      · exact hOld.trans_le hGrounded.grows.types.length_le
      · exact hGrounded.housed source m₀ hSource
    · exact (hGrounded.records type ((hRecord type).mp hType)).imp_right fun hThere =>
        hThere.trans_le hGrows.types.length_le
    · change r.closures.displayRoot? type = some field at hRoot
      rw [hClosures] at hRoot
      obtain ⟨f, hField, hName⟩ := hGrounded.roots type field hRoot
      obtain ⟨f', hField', hPersists⟩ := hGrows.field hField
      exact ⟨f', hField', hPersists.name.trans hName⟩
    · rcases Nat.lt_or_ge id.index s.program.methods.length with hOld | hLast
      · have hBefore : s.program.method? id = some s.program.methods[id.index] :=
          List.getElem?_eq_getElem hOld
        rw [(hGrows.method_persists hBefore hMethod').owner]
        refine (hGrounded.brings id _ hBefore hLate).imp_right fun hStands => ?_
        exact hStands.later hAdvances.bindings
      · have hThere : id.index < r.program.methods.length :=
          (List.getElem?_eq_some_iff.mp hMethod').1
        rw [hMethods, List.length_append, List.length_singleton] at hThere
        obtain rfl : id = b.replacement := by
          rw [hNew]
          exact congrArg MethodId.mk (Nat.le_antisymm (Nat.lt_succ_iff.mp hThere) hLast)
        exact Or.inr ⟨b.method, b, hBound, rfl⟩
  · exact Propagation.later_kept hKept hGrows fun type hType => Or.inl ((hRecord type).mp hType)
  · refine hWithin.append (T := S) hMethods hMethod (fun b' hBody => ?_) hB
      (fun id hIn => (hKept.methods id hIn).2) fun hIn => ?_
    · obtain ⟨c, hCode, rfl⟩ := Option.map_eq_some_iff.mp hBody
      exact ⟨c, hCode, MethodBody.augments_shiftArguments ..⟩
    · rcases hOwner with hOld | ⟨m₀, hSource, rfl⟩
      · exact absurd hOld (Nat.not_lt.mpr (hKept.types _ hIn).1)
      · rw [Option.some_inj.mp (hSource.symm.trans hMethod)]

theorem minor_addParameterTo {method : MethodId} : Keeps (IsMinor p S) (addParameterTo method) := by
  intro s made t h hKeyed
  rcases addParameterTo_ok h with ⟨-, rfl, -⟩ | ⟨m, replacement, r, -, -, hMethod, hStands, hBind⟩
  · exact .refl hKeyed
  · rcases hStands with ⟨rfl, -⟩ | hCopy
    · exact minor_bindMethod (Or.inl rfl) hBind hKeyed
    · have hRecodes : s.Recodes (fun _ => False) t := (IsTrans.trans _ _ _ (recodes_makeCopy hCopy)
        (recodes_bindMethod hBind) : Propagation.Recoded _ s t) hKeyed
      have hSpares : s.Spares p S t :=
        bindCopy_spares hCopy hBind hKeyed (Or.inr ⟨m, hMethod, rfl⟩)
      obtain ⟨-, -, -, -, -, -, -, hSame⟩ := makeCopy_ok hCopy
      obtain ⟨bindings, hBound, rfl⟩ := bindMethod_ok hBind
      refine ⟨hSpares, by rw [hSame], fun id b hGet => ?_, fun id m m' _ hMethod hMethod' => ?_⟩
      · rcases (BindingMap.bind_ok hBound).2.2 id b hGet with hBefore | ⟨rfl, -⟩
        · rw [hSame] at hBefore
          exact Or.inl hBefore
        · exact Or.inr (Or.inl rfl)
      · exact (hRecodes.code id m m' hMethod hMethod').imp_right (Or.resolve_left · not_false)

/-- Giving methods a parameter copies no display class. -/
theorem minor_addParameter {method : MethodId} : Keeps (IsMinor p S) (addParameter method) := by
  refine Keeps.bind (Keeps.bind Keeps.get fun _ => model_keeps) fun group => ?_
  refine Keeps.bind (Keeps.forM fun member _ => Keeps.bind Keeps.get fun s => ?_) fun _ => ?_
  · split
    · exact Keeps.throw _
    · exact Keeps.pure _
  refine Keeps.bind (Keeps.mapM fun _ _ => minor_addParameterTo) fun made => ?_
  refine Keeps.bind (Keeps.forM fun _ _ => minor_mapOverrides) fun _ => ?_
  exact Keeps.bind (Keeps.forM fun _ _ => minor_alignProperty) fun _ => minor_complete

end Propagate

end ContextBinding
