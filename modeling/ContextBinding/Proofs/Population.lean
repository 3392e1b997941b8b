import ContextBinding.Proofs.Emission
import ContextBinding.Proofs.History
import ContextBinding.Proofs.Validation

/-! What the root constructor does when it is populated. Each statement walks over the slots of
others to the place that it stores, so all goes well if these are slots of contexts that the one at
hand depends on; then they come earlier, and no slot is read before it is stored. -/

namespace ContextBinding

open Relation

namespace Instruction

/-- The field of an object that the instruction loads, by value or by address. -/
def loadedField? (i : Instruction) : Option FieldId :=
  if i.opcode = .ldfld ∨ i.opcode = .ldflda then i.field? else none

/-- The field of an object that the instruction stores. -/
def storedField? (i : Instruction) : Option FieldId :=
  if i.opcode = .stfld then i.field? else none

end Instruction

/-- Code that runs from front to back loads fields only that are stored already, or that it has
stored itself by then. -/
def LoadsStored (stored : List FieldId) : List Instruction → Prop
  | [] => True
  | i :: rest => (∀ field ∈ i.loadedField?, field ∈ stored) ∧
      LoadsStored (stored ++ i.storedField?.toList) rest

namespace LoadsStored

instance decidable (stored : List FieldId) :
    (code : List Instruction) → Decidable (LoadsStored stored code)
  | [] => instDecidableTrue
  | i :: rest =>
    have := decidable (stored ++ i.storedField?.toList) rest
    inferInstanceAs (Decidable (_ ∧ _))

variable {stored : List FieldId} {code rest : List Instruction}

theorem append : LoadsStored stored (code ++ rest) ↔
    LoadsStored stored code ∧ LoadsStored (stored ++ code.filterMap (·.storedField?)) rest := by
  induction code generalizing stored with
  | nil => simp [LoadsStored]
  | cons i code ih =>
      have hStored : stored ++ (i :: code).filterMap (·.storedField?)
          = (stored ++ i.storedField?.toList) ++ code.filterMap (·.storedField?) := by
        cases hField : i.storedField? <;> simp [hField]
      rw [hStored, List.cons_append, LoadsStored, LoadsStored, ih, and_assoc]

/-- What only loads stored fields does so wherever else it stores. -/
theorem of_forall (h : ∀ i ∈ code, ∀ field ∈ i.loadedField?, field ∈ stored) :
    LoadsStored stored code := by
  induction code generalizing stored with
  | nil => trivial
  | cons i code ih =>
      refine ⟨h i (List.mem_cons_self ..), ih fun j hMem field hLoaded => ?_⟩
      exact List.mem_append_left _ (h j (List.mem_cons_of_mem _ hMem) field hLoaded)

end LoadsStored

namespace MethodBody

variable {b : MethodBody}

/-- Code can be put ahead of whatever is there, which stays there. -/
theorem insertBefore_succeeds {id : InstrId} (seq : List Instruction) (h : id ∈ b.ids) :
    ∃ ids b', insertBefore id seq b = .ok ids b' ∧ b.ids ⊆ b'.ids := by
  obtain ⟨position, hRequire⟩ := require_succeeds h
  unfold insertBefore
  rw [Step.bind_of_ok hRequire]
  split
  · exact ⟨[], b, rfl, List.Subset.refl _⟩
  · refine ⟨_, _, rfl, fun id hThere => ?_⟩
    rw [mem_ids_splice, ids_retarget]
    exact Or.inl hThere

/-- Code can be put ahead of the returns of every body. -/
theorem insertAtReturns_succeeds (b : MethodBody) (seq : List Instruction) :
    ∃ b', insertAtReturns seq b = .ok () b' := by
  unfold insertAtReturns
  rw [Step.bind_of_ok (Step.get_ok.mpr ⟨rfl, rfl⟩)]
  have hReturns : b.returns ⊆ b.ids := List.map_subset _ (List.filter_subset_self _)
  cases hCases : b.returns with
  | nil => exact ⟨_, rfl⟩
  | cons ret rest =>
      rw [hCases] at hReturns
      have hStep (ret : InstrId) (rest : List InstrId) (b : MethodBody)
          (hLeft : ret :: rest ⊆ b.ids) :
          ∃ b', (do let _ ← insertBefore ret seq : BodyEdit Unit) b = .ok () b' ∧ rest ⊆ b'.ids := by
        obtain ⟨hFirst, hRest⟩ := List.cons_subset.mp hLeft
        obtain ⟨ids, b', hRun, hKept⟩ := insertBefore_succeeds seq hFirst
        exact ⟨b', Step.bind_ok.mpr ⟨ids, b', hRun, rfl⟩, List.Subset.trans hRest hKept⟩
      obtain ⟨b', hRun, -⟩ :=
        Step.forM_succeeds (I := fun left b => left ⊆ MethodBody.ids b) hStep hReturns
      exact ⟨b', hRun⟩

end MethodBody

namespace ContextPlan

variable {plan : ContextPlan} {p : Program} {id : ContextId} {c : ContextDescriptor}

section Code

/-- Code that pushes a value: it stores no field, and loads fields with a property only. -/
def Pushes (fields : FieldId → Prop) (code : List Instruction) : Prop :=
  ∀ i ∈ code, i.storedField? = none ∧ ∀ field ∈ i.loadedField?, fields field

theorem Pushes.append {fields : FieldId → Prop} {code rest : List Instruction}
    (h : Pushes fields code) (hRest : Pushes fields rest) : Pushes fields (code ++ rest) := by
  intro i hMem
  exact (List.mem_append.mp hMem).elim (h i) (hRest i)

theorem Pushes.mono {fields fields' : FieldId → Prop} {code : List Instruction}
    (h : Pushes fields code) (hFields : ∀ field, fields field → fields' field) :
    Pushes fields' code :=
  fun i hMem => ⟨(h i hMem).1, fun field hLoaded => hFields field ((h i hMem).2 field hLoaded)⟩

theorem pushes_of_opcode {fields : FieldId → Prop} {i : Instruction} (hLoad : i.opcode ≠ .ldfld)
    (hAddress : i.opcode ≠ .ldflda) (hStore : i.opcode ≠ .stfld) : Pushes fields [i] := by
  intro j hMem
  obtain rfl := List.mem_singleton.mp hMem
  simp [Instruction.storedField?, Instruction.loadedField?, hLoad, hAddress, hStore]

theorem linkLoad_pushes {link : FieldId} {i : Instruction} (h : linkLoad p link = .ok i) :
    i.storedField? = none ∧ i.loadedField? = some link := by
  obtain ⟨f, -, h⟩ := Outcome.bind_ok.mp h
  obtain rfl := Outcome.pure_ok.mp h
  split <;> exact ⟨rfl, rfl⟩

/-- A walk along a chain loads its links. -/
theorem chainLoad_pushes {chain : List FieldId} {code : List Instruction}
    (h : chainLoad p chain = .ok code) : Pushes (· ∈ chain) code := by
  obtain ⟨loads, hLoads, h⟩ := Outcome.bind_ok.mp h
  obtain rfl := Outcome.pure_ok.mp h
  have hRoot : Pushes (· ∈ chain) [.onArg .ldarg 0] := pushes_of_opcode nofun nofun nofun
  have hLinks : Pushes (· ∈ chain) loads := by
    intro i hMem
    obtain ⟨link, hLink, hLoad⟩ := Outcome.mem_mapM_ok hLoads hMem
    obtain ⟨hStored, hLoaded⟩ := linkLoad_pushes hLoad
    refine ⟨hStored, fun field hField => ?_⟩
    rw [hLoaded] at hField
    exact Option.some_inj.mp hField ▸ hLink
  exact hRoot.append hLinks

/-- The links that the code for a context walks over: those ahead of its slot, and the chain of its
parent, which its constructor may want. -/
def Walked (plan : ContextPlan) (c : ContextDescriptor) (link : FieldId) : Prop :=
  link ∈ c.chain.dropLast ∨ ∃ parent, c.parent = some parent ∧ link ∈ (plan.context parent).chain

theorem argumentLoad_pushes {type : TypeRef} {code : List Instruction}
    (h : argumentLoad plan p c type = .ok code) : Pushes (plan.Walked c) code := by
  unfold argumentLoad at h
  split at h
  · obtain rfl := Except.ok.inj h
    exact pushes_of_opcode nofun nofun nofun
  · split at h
    · obtain rfl := Except.ok.inj h
      exact pushes_of_opcode nofun nofun nofun
    · rename_i parent hParent
      dsimp only at h
      split at h
      · exact (chainLoad_pushes h).mono fun link hLink => Or.inr ⟨parent, hParent, hLink⟩
      · obtain rfl := Except.ok.inj h
        exact pushes_of_opcode nofun nofun nofun

theorem instanceLoad_pushes {step : InstantiationStep} {code : List Instruction}
    (h : instanceLoad plan p step = .ok code) :
    Pushes (plan.Walked (plan.context step.context)) code := by
  cases step with
  | construct context slot parent =>
      obtain ⟨m, -, h⟩ := Outcome.bind_ok.mp h
      obtain ⟨loads, hLoads, h⟩ := Outcome.bind_ok.mp h
      obtain rfl := Outcome.pure_ok.mp h
      apply Pushes.append
      · intro i hMem
        obtain ⟨load, hLoad, hMem⟩ := List.mem_flatten.mp hMem
        obtain ⟨param, -, hLoad⟩ := Outcome.mem_mapM_ok hLoads hLoad
        exact argumentLoad_pushes hLoad i hMem
      · exact pushes_of_opcode nofun nofun nofun
  | assign context slot field =>
      obtain rfl := Outcome.pure_ok.mp h
      exact pushes_of_opcode nofun nofun nofun

/-- The code of a statement walks to the place that it stores, once and last. -/
theorem stepCode_split {step : InstantiationStep} {code : List Instruction}
    (h : plan.stepCode p step = .ok code) :
    ∃ pushed, code = pushed ++ [.onField .stfld step.slot] ∧
      Pushes (plan.Walked (plan.context step.context)) pushed := by
  obtain ⟨target, hTarget, h⟩ := Outcome.bind_ok.mp h
  obtain ⟨value, hValue, h⟩ := Outcome.bind_ok.mp h
  obtain rfl := Outcome.pure_ok.mp h
  refine ⟨target ++ value, rfl, Pushes.append ?_ (instanceLoad_pushes hValue)⟩
  exact (chainLoad_pushes hTarget).mono fun link hLink => Or.inl hLink

theorem storedFields_stepCode {step : InstantiationStep} {code : List Instruction}
    (h : plan.stepCode p step = .ok code) :
    code.filterMap (·.storedField?) = [step.slot] := by
  obtain ⟨pushed, rfl, hPushed⟩ := stepCode_split h
  have hNone : pushed.filterMap (·.storedField?) = [] := by
    apply List.filterMap_eq_nil_iff.mpr
    exact fun i hMem => (hPushed i hMem).1
  rw [List.filterMap_append, hNone]
  rfl

theorem loadsStored_stepCode {step : InstantiationStep} {code : List Instruction}
    {stored : List FieldId} (h : plan.stepCode p step = .ok code)
    (hStored : ∀ link, plan.Walked (plan.context step.context) link → link ∈ stored) :
    LoadsStored stored code := by
  obtain ⟨pushed, rfl, hPushed⟩ := stepCode_split h
  apply LoadsStored.of_forall
  intro i hMem field hField
  rcases List.mem_append.mp hMem with hPush | hStore
  · exact hStored field ((hPushed i hPush).2 field hField)
  · obtain rfl := List.mem_singleton.mp hStore
    cases hField

end Code

section Success

theorem chainLoad_succeeds {chain : List FieldId} (h : ∀ link ∈ chain, (p.field? link).isSome) :
    ∃ code, chainLoad p chain = .ok code := by
  have hLoads : ∀ link ∈ chain, ∃ i, linkLoad p link = .ok i := by
    intro link hMem
    obtain ⟨f, hField⟩ := Option.isSome_iff_exists.mp (h link hMem)
    exact ⟨_, Outcome.bind_ok.mpr ⟨f, Program.fieldDef_ok.mpr hField, rfl⟩⟩
  obtain ⟨loads, hLoads⟩ := Outcome.mapM_succeeds hLoads
  exact ⟨_, Outcome.bind_ok.mpr ⟨loads, hLoads, rfl⟩⟩

theorem argumentLoad_succeeds (h : plan.validate p = .ok ()) (hContext : plan.context? id = some c)
    (type : TypeRef) : ∃ code, argumentLoad plan p c type = .ok code := by
  unfold argumentLoad
  split
  · exact ⟨_, rfl⟩
  · split
    · exact ⟨_, rfl⟩
    · rename_i parent hParent
      have hFits : plan.Fits p c := validate_fits h hContext
      obtain ⟨d, hKnown⟩ := Option.isSome_iff_exists.mp (hFits.parent parent hParent)
      dsimp only
      split
      · rw [context_of_some hKnown]
        exact chainLoad_succeeds (validate_fits h hKnown).links
      · exact ⟨_, rfl⟩

/-- The code of each statement can be made for a plan that was checked. -/
theorem stepCode_succeeds (h : plan.validate p = .ok ()) {step : InstantiationStep}
    (hContext : plan.context? step.context = some c) : ∃ code, plan.stepCode p step = .ok code := by
  have hFits : plan.Fits p c := validate_fits h hContext
  have hTarget : ∃ target, chainLoad p (plan.context step.context).chain.dropLast = .ok target := by
    rw [context_of_some hContext]
    exact chainLoad_succeeds fun link hMem => hFits.links link (List.dropLast_subset _ hMem)
  have hValue : ∃ value, instanceLoad plan p step = .ok value := by
    cases step with
    | construct context slot parent =>
        obtain ⟨m, hMethod⟩ := Option.isSome_iff_exists.mp hFits.constructor
        obtain ⟨loads, hLoads⟩ := Outcome.mapM_succeeds (l := m.params)
          fun param _ => argumentLoad_succeeds h hContext param.type
        have hSame : plan.context context = c := context_of_some hContext
        refine ⟨_, Outcome.bind_ok.mpr ⟨m, ?_, Outcome.bind_ok.mpr ⟨loads, ?_, rfl⟩⟩⟩
        · rw [hSame]
          exact Program.methodDef_ok.mpr hMethod
        · rw [hSame]
          exact hLoads
    | assign context slot field => exact ⟨_, rfl⟩
  obtain ⟨target, hTarget⟩ := hTarget
  obtain ⟨value, hValue⟩ := hValue
  exact ⟨_, Outcome.bind_ok.mpr ⟨target, hTarget, Outcome.bind_ok.mpr ⟨value, hValue, rfl⟩⟩⟩

end Success

section Order

variable {g : ReferenceGraph} {order earlier rest : List ContextId}

/-- Every link ahead of the slot of a context is the slot of one that the context needs, directly or
over others, and no two contexts have one slot. -/
structure Grounded (plan : ContextPlan) (d : Dependencies) : Prop where
  links : ∀ id c, plan.context? id = some c → ∀ link ∈ c.chain.dropLast,
    ∃ other, (plan.context other).slot? = some link ∧ TransGen (fun a b => b ∈ d.needs a) id other
  slots : (plan.contexts.map (·.slot?)).Nodup

/-- The slots of contexts, in their order. -/
def slotsOf (plan : ContextPlan) (order : List ContextId) : List FieldId :=
  order.filterMap fun id => (plan.context id).slot?

theorem mem_slotsOf {link : FieldId} (hMem : id ∈ order)
    (hSlot : (plan.context id).slot? = some link) : link ∈ plan.slotsOf order :=
  List.mem_filterMap.mpr ⟨id, hMem, hSlot⟩

theorem slotsOf_append (order rest : List ContextId) :
    plan.slotsOf (order ++ rest) = plan.slotsOf order ++ plan.slotsOf rest :=
  List.filterMap_append

/-- The statement for a context stores its slot. -/
theorem stepFor?_slot (id : ContextId) :
    (plan.stepFor? id).map (·.slot) = (plan.context id).slot? := by
  unfold stepFor?
  dsimp only
  rw [Option.map_map]
  cases (plan.context id).slot? with
  | none => rfl
  | some slot => cases (plan.context id).singleton <;> rfl

theorem stepFor?_context {step : InstantiationStep} (h : plan.stepFor? id = some step) :
    step.context = id := by
  obtain ⟨slot, -, rfl⟩ := Option.map_eq_some_iff.mp h
  split <;> rfl

theorem stepsIn_slots (order : List ContextId) :
    (plan.stepsIn order).map (·.slot) = plan.slotsOf order := by
  unfold stepsIn slotsOf
  rw [List.map_filterMap]
  congr 1
  funext id
  exact stepFor?_slot id

theorem slot_at (hContext : plan.context? id = some c) :
    (plan.contexts.map (·.slot?))[id.index]? = some c.slot? := by
  have hAt : plan.contexts[id.index]? = some c := hContext
  rw [List.getElem?_map, hAt, Option.map_some]

theorem parent_mem_needs {parent : ContextId} (hContext : plan.context? id = some c)
    (hParent : c.parent = some parent) : parent ∈ (plan.dependencies p g).needs id := by
  rw [needs_eq hContext, mem_ascending]
  simp [hParent]

/-- A link of a chain is the slot at its end, or ahead of it. -/
theorem mem_chain {link : FieldId} (h : link ∈ c.chain) :
    c.slot? = some link ∨ link ∈ c.chain.dropLast := by
  have hSome : c.chain ≠ [] := List.ne_nil_of_mem h
  rw [← List.dropLast_concat_getLast hSome] at h
  rcases List.mem_append.mp h with hAhead | hLast
  · exact Or.inr hAhead
  · left
    rw [List.mem_singleton.mp hLast]
    exact List.getLast?_eq_getLast_of_ne_nil hSome

/-- A context comes after all whose slots the code for it walks over. -/
theorem Grounded.walked (hGrounded : plan.Grounded (plan.dependencies p g))
    (hOrder : plan.order p g = .ok order) (hSplit : order = earlier ++ id :: rest)
    (hContext : plan.context? id = some c)
    (hParents : ∀ parent, c.parent = some parent → (plan.context? parent).isSome) {link : FieldId}
    (hWalked : plan.Walked c link) : link ∈ plan.slotsOf earlier := by
  have hDistinct : order.Nodup := (order_perm hOrder).nodup_iff.mpr nodup_ids
  have hBefore {other : ContextId}
      (hNeeds : TransGen (fun a b => b ∈ (plan.dependencies p g).needs a) id other) :
      other ∈ earlier :=
    (respects_order hOrder).mem_before_of_transGen hDistinct hSplit hNeeds
  rcases hWalked with hLink | ⟨parent, hParent, hLink⟩
  · obtain ⟨other, hSlot, hNeeds⟩ := hGrounded.links id c hContext link hLink
    exact mem_slotsOf (hBefore hNeeds) hSlot
  · have hNeeds : parent ∈ (plan.dependencies p g).needs id := parent_mem_needs hContext hParent
    obtain ⟨d, hKnown⟩ := Option.isSome_iff_exists.mp (hParents parent hParent)
    rw [context_of_some hKnown] at hLink
    rcases mem_chain hLink with hSlot | hAhead
    · apply mem_slotsOf (hBefore (.single hNeeds))
      rw [context_of_some hKnown]
      exact hSlot
    · obtain ⟨other, hSlot, hFurther⟩ := hGrounded.links parent d hKnown link hAhead
      exact mem_slotsOf (hBefore (.head hNeeds hFurther)) hSlot

/-- Each slot is stored by one statement only. -/
theorem Grounded.nodup_slots {d : Dependencies} (hGrounded : plan.Grounded d)
    (hOrder : plan.order p g = .ok order) : (plan.slotsOf order).Nodup := by
  have hPerm : order.Perm plan.ids := order_perm hOrder
  have hDistinct : order.Nodup := hPerm.nodup_iff.mpr nodup_ids
  unfold slotsOf
  apply List.pairwise_filterMap.mpr
  apply List.Pairwise.imp_of_mem _ hDistinct
  intro id other hMem hOther hApart slot hSlot slot' hSlot' hSame
  obtain ⟨c, hContext⟩ := mem_ids.mp (hPerm.mem_iff.mp hMem)
  obtain ⟨c', hContext'⟩ := mem_ids.mp (hPerm.mem_iff.mp hOther)
  rw [context_of_some hContext] at hSlot
  rw [context_of_some hContext'] at hSlot'
  have hAt : (plan.contexts.map (·.slot?))[id.index]? = (plan.contexts.map (·.slot?))[other.index]? := by
    rw [slot_at hContext, slot_at hContext', hSlot, hSlot', hSame]
  have hBound := (List.getElem?_eq_some_iff.mp (slot_at hContext)).1
  exact hApart (congrArg ContextId.mk ((List.getElem?_inj hBound hGrounded.slots).mp hAt))

/-- The code of the statement for a context loads slots of earlier contexts only, and stores its own
one. -/
theorem Grounded.loadsStored_step (hGrounded : plan.Grounded (plan.dependencies p g))
    (hValid : plan.validate p = .ok ()) (hOrder : plan.order p g = .ok order)
    (hSplit : order = earlier ++ id :: rest) :
    ∃ step code, plan.stepFor? id = some step ∧ plan.stepCode p step = .ok code ∧
      LoadsStored (plan.slotsOf earlier) code ∧
      code.filterMap (·.storedField?) = plan.slotsOf [id] := by
  have hKnown : id ∈ plan.ids := (order_perm hOrder).mem_iff.mp (by simp [hSplit])
  obtain ⟨c, hContext⟩ := mem_ids.mp hKnown
  have hFits : plan.Fits p c := validate_fits hValid hContext
  obtain ⟨slot, hSlot⟩ : ∃ slot, (plan.context id).slot? = some slot := by
    rw [context_of_some hContext]
    exact Option.isSome_iff_exists.mp (List.getLast?_isSome.mpr hFits.chained)
  obtain ⟨step, hStep, rfl⟩ := Option.map_eq_some_iff.mp ((stepFor?_slot id).trans hSlot)
  obtain rfl : step.context = id := stepFor?_context hStep
  obtain ⟨code, hCode⟩ := stepCode_succeeds hValid hContext
  refine ⟨step, code, hStep, hCode, ?_, ?_⟩
  · apply loadsStored_stepCode hCode
    intro link hWalked
    rw [context_of_some hContext] at hWalked
    exact hGrounded.walked hOrder hSplit hContext hFits.parent hWalked
  · rw [storedFields_stepCode hCode]
    simp [slotsOf, hSlot]

/-- The statements from some context on load nothing that is not stored by then, and store their
slots one after the other. -/
theorem Grounded.loadsStored_steps (hGrounded : plan.Grounded (plan.dependencies p g))
    (hValid : plan.validate p = .ok ()) (hOrder : plan.order p g = .ok order)
    (hSplit : order = earlier ++ rest) :
    ∃ codes, (plan.stepsIn rest).mapM (plan.stepCode p) = .ok codes ∧
      LoadsStored (plan.slotsOf earlier) codes.flatten ∧
      codes.flatten.filterMap (·.storedField?) = plan.slotsOf rest := by
  induction rest generalizing earlier with
  | nil => exact ⟨[], rfl, trivial, rfl⟩
  | cons id rest ih =>
      obtain ⟨step, code, hStep, hCode, hFirst, hField⟩ :=
        hGrounded.loadsStored_step hValid hOrder hSplit
      have hNext : order = (earlier ++ [id]) ++ rest := by simpa using hSplit
      obtain ⟨codes, hCodes, hLoads, hFields⟩ := ih hNext
      rw [slotsOf_append] at hLoads
      refine ⟨code :: codes, ?_, ?_, ?_⟩
      · rw [stepsIn, List.filterMap_cons_some hStep, List.mapM_cons, Outcome.bind_ok]
        exact ⟨code, hCode, Outcome.bind_ok.mpr ⟨codes, hCodes, rfl⟩⟩
      · rw [List.flatten_cons, LoadsStored.append, hField]
        exact ⟨hFirst, hLoads⟩
      · rw [List.flatten_cons, List.filterMap_append, hField, hFields, ← slotsOf_append]
        rfl

/-- Populating the root constructor of a plan that was checked, whose chains lead over contexts that
they depend on, succeeds. What it puts ahead of every return loads a slot only after it has stored
it, and stores the slot of each statement once. -/
theorem rootConstructor_populated {steps : List InstantiationStep} {b : MethodBody}
    (hValid : plan.validate p = .ok ()) (hSteps : plan.steps p g = .ok steps)
    (hBody : p.body plan.rootConstructor = .ok b)
    (hFree : ∀ step ∈ steps, step.slot ∉ b.storedFields)
    (hGrounded : plan.Grounded (plan.dependencies p g)) :
    ∃ codes q, steps.mapM (plan.stepCode p) = .ok codes ∧
      Emit.rootConstructor plan steps p = .ok steps.length q ∧
      (if steps = [] then p = q
        else ∃ b', MethodBody.insertAtReturns codes.flatten b = .ok () b' ∧
          q = p.touch.putBody plan.rootConstructor b') ∧
      LoadsStored [] codes.flatten ∧
      codes.flatten.filterMap (·.storedField?) = steps.map (·.slot) ∧ (steps.map (·.slot)).Nodup := by
  obtain ⟨order, hOrder, hSteps⟩ := Outcome.bind_ok.mp hSteps
  obtain rfl := Outcome.pure_ok.mp hSteps
  obtain ⟨m, hMethod, hCode⟩ := Program.body_ok.mp hBody
  obtain ⟨codes, hCodes, hLoads, hStores⟩ :=
    hGrounded.loadsStored_steps hValid hOrder (List.nil_append order).symm
  have hMissing : Emit.missing b (plan.stepsIn order) = plan.stepsIn order := by
    apply List.filter_eq_self.mpr
    intro step hMem
    simpa using hFree step hMem
  obtain ⟨b', hInsert⟩ := MethodBody.insertAtReturns_succeeds b codes.flatten
  let q := if plan.stepsIn order = [] then p else p.touch.putBody plan.rootConstructor b'
  refine ⟨codes, q, hCodes, ?_, ?_, hLoads, ?_, ?_⟩
  · apply Emit.rootConstructor_iff.mpr
    refine ⟨m, b, codes, hMethod, hCode, ?_, ?_, ?_⟩
    · rw [hMissing]
      exact hCodes
    · rw [hMissing]
    · rw [hMissing]
      split
      · exact (if_pos ‹_›).symm
      · rw [Program.editBody_of_ok hMethod hCode hInsert]
        exact congrArg _ (if_neg ‹_›).symm
  · split
    · exact (if_pos ‹_›).symm
    · exact ⟨b', hInsert, if_neg ‹_›⟩
  · rw [stepsIn_slots]
    exact hStores
  · rw [stepsIn_slots]
    exact hGrounded.nodup_slots hOrder

end Order

section Nested

/-- The instance of a context with a parent is stored in that of the parent, where its chain leads
to, and the instance of one without is stored in the root; no two are stored in one slot. -/
structure Nested (plan : ContextPlan) : Prop where
  links : ∀ c ∈ plan.contexts, c.chain.dropLast =
    (c.parent.map fun parent => (plan.context parent).chain).getD []
  slots : (plan.contexts.map (·.slot?)).Nodup

/-- Over its parents a context depends on all those whose slots its chain leads over. -/
theorem Nested.grounded {g : ReferenceGraph} (hNested : plan.Nested)
    (hValid : plan.validate p = .ok ()) : plan.Grounded (plan.dependencies p g) := by
  refine ⟨fun id c hContext link hLink => ?_, hNested.slots⟩
  induction hLength : c.chain.length using Nat.strongRecOn generalizing id c with
  | ind length ih =>
      have hAhead := hNested.links c (List.mem_of_getElem? hContext)
      cases hParent : c.parent with
      | none => simp [hAhead, hParent] at hLink
      | some parent =>
          have hFits : plan.Fits p c := validate_fits hValid hContext
          obtain ⟨d, hKnown⟩ := Option.isSome_iff_exists.mp (hFits.parent parent hParent)
          have hNeeds : parent ∈ (plan.dependencies p g).needs id :=
            parent_mem_needs hContext hParent
          rw [hParent, Option.map_some, Option.getD_some, context_of_some hKnown] at hAhead
          rw [hAhead] at hLink
          rcases mem_chain hLink with hSlot | hFurther
          · refine ⟨parent, ?_, .single hNeeds⟩
            rw [context_of_some hKnown]
            exact hSlot
          · have hShorter : d.chain.length < length := by
              have hSome : 0 < c.chain.length := List.length_pos_iff.mpr hFits.chained
              rw [← hAhead, List.length_dropLast]
              omega
            obtain ⟨other, hSlot, hRest⟩ := ih d.chain.length hShorter parent d hKnown hFurther rfl
            exact ⟨other, hSlot, .head hNeeds hRest⟩

end Nested

end ContextPlan

section Inner

/-- Two contexts, the first of which is stored in the second and may name it as its parent. Its
constructor asks for the instance that it is stored in. -/
def innerFirst (parent : Option ContextId) : Edit ContextPlan := do
  let root ← Program.addType "G" "Root" none ⟨0⟩
  let outer ← Program.addType "G" "Outer" none ⟨0⟩
  let inner ← Program.addType "G" "Inner" none ⟨0⟩
  let outerContext ← Program.addType "G" "OuterCtx" none ⟨0⟩
  let innerContext ← Program.addType "G" "InnerCtx" none ⟨0⟩
  let constructor : FlagSet MethodFlag := .ofList [.constructor]
  let newRoot ← Program.addMethod root ".ctor" [] .void constructor
  let newOuter ← Program.addMethod outerContext ".ctor" [] .void constructor
  let newInner ← Program.addMethod innerContext ".ctor" [⟨"outer", .named outerContext⟩] .void
    constructor
  Program.setBody newRoot (.fresh [.plain .ret])
  Program.setBody newOuter (.fresh [.plain .ret])
  Program.setBody newInner (.fresh [.plain .ret])
  let outerSlot ← Program.addField root "outer" (.named outerContext) ⟨0⟩
  let innerSlot ← Program.addField outerContext "inner" (.named innerContext) ⟨0⟩
  pure ⟨root, newRoot,
    [{ ContextDescriptor.bare "Inner" inner innerContext newInner with
        chain := [outerSlot, innerSlot], parent := parent },
      { ContextDescriptor.bare "Outer" outer outerContext newOuter with chain := [outerSlot] }]⟩

namespace ContextPlan

/-- An inner context that names its parent comes after it. -/
theorem innerFirst_populated :
    let p := (built (innerFirst (some ⟨1⟩))).1
    let plan := (built (innerFirst (some ⟨1⟩))).2
    ∃ codes q, [.construct ⟨1⟩ ⟨0⟩ none, .construct ⟨0⟩ ⟨1⟩ (some ⟨1⟩)].mapM (plan.stepCode p)
        = .ok codes ∧
      Emit.rootConstructor plan [.construct ⟨1⟩ ⟨0⟩ none, .construct ⟨0⟩ ⟨1⟩ (some ⟨1⟩)] p
        = .ok 2 q ∧ LoadsStored [] codes.flatten := by
  intro p plan
  have hValid : plan.validate p = .ok () := by decide +kernel
  have hNested : plan.Nested := ⟨by decide +kernel, by decide +kernel⟩
  have hSteps : plan.steps p .empty
      = .ok [.construct ⟨1⟩ ⟨0⟩ none, .construct ⟨0⟩ ⟨1⟩ (some ⟨1⟩)] := by decide +kernel
  have hBody : p.body plan.rootConstructor = .ok (.fresh [.plain .ret]) := by decide +kernel
  obtain ⟨codes, q, hCodes, hRun, -, hLoads, -⟩ := rootConstructor_populated hValid hSteps hBody
    (by decide) (hNested.grounded hValid)
  exact ⟨codes, q, hCodes, hRun, hLoads⟩

/-- Without the parent it is stored first, over a slot of the root that is not stored yet. -/
theorem innerFirst_walksUnset :
    let p := (built (innerFirst none)).1
    let plan := (built (innerFirst none)).2
    plan.validate p = .ok () ∧ p.body plan.rootConstructor = .ok (.fresh [.plain .ret]) ∧
      ∃ steps q b, plan.steps p .empty = .ok steps ∧ Emit.rootConstructor plan steps p = .ok 2 q ∧
        q.body plan.rootConstructor = .ok b ∧ ¬ LoadsStored [] b.instructions := by
  intro p plan
  refine ⟨by decide +kernel, by decide +kernel, ?_⟩
  have hSteps : plan.steps p .empty
      = .ok [.construct ⟨0⟩ ⟨1⟩ none, .construct ⟨1⟩ ⟨0⟩ none] := by decide +kernel
  have hCheck : Step.yields
      (Emit.rootConstructor plan [.construct ⟨0⟩ ⟨1⟩ none, .construct ⟨1⟩ ⟨0⟩ none] p)
      (fun n q => decide (n = 2) && (q.body plan.rootConstructor).toOption.any
        fun b => decide (¬ LoadsStored [] b.instructions)) = true := by decide +kernel
  obtain ⟨n, q, hRun, hCheck⟩ := Step.ok_of_yields hCheck
  obtain ⟨hTwo, hCode⟩ := Bool.and_eq_true_iff.mp hCheck
  obtain rfl := of_decide_eq_true hTwo
  cases hBody : q.body plan.rootConstructor with
  | error e =>
      rw [hBody] at hCode
      cases hCode
  | ok b =>
      rw [hBody] at hCode
      exact ⟨_, q, b, hSteps, hRun, hBody, of_decide_eq_true hCode⟩

end ContextPlan

end Inner

end ContextBinding
