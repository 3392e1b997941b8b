import ContextBinding.Plan.Validation
import ContextBinding.Proofs.Advance
import ContextBinding.Proofs.Arrangement

/-! What the check of a plan tells of its contexts. A plan that fits a program fits every program
 that it grows into, also after init units of the plan were replaced. -/

namespace ContextBinding.ContextPlan

variable {p q : Program} {plan : ContextPlan} {c : ContextDescriptor}

section Fit

variable {id : ContextId}

/-- What the check of a plan tells of one context. -/
structure Fits (plan : ContextPlan) (p : Program) (c : ContextDescriptor) : Prop where
  constructor : (p.method? c.constructor).isSome
  chained : c.chain ≠ []
  links : ∀ link ∈ c.chain, (p.field? link).isSome
  parent : ∀ parent, c.parent = some parent → (plan.context? parent).isSome

theorem planned_field {link : FieldId} {f : FieldDef} (h : planned (p.fieldDef link) = .ok f) :
    (p.field? link).isSome :=
  Option.isSome_iff_exists.mpr ⟨f, Program.fieldDef_ok.mp (Outcome.mapError_ok.mp h)⟩

theorem validateLinks_fields {first : FieldId} {chain : List FieldId}
    (h : validateLinks p c (first :: chain) = .ok ()) (hFirst : (p.field? first).isSome) :
    ∀ link ∈ first :: chain, (p.field? link).isSome := by
  induction chain generalizing first with
  | nil => simpa using hFirst
  | cons next chain ih =>
      rw [validateLinks, Outcome.bind_ok] at h
      obtain ⟨f, -, h⟩ := h
      obtain ⟨f', hNext, h⟩ := Outcome.bind_ok.mp h
      dsimp only at h
      split at h
      · have hRest := ih h (planned_field hNext)
        intro link hMem
        rcases List.mem_cons.mp hMem with rfl | hMem
        · exact hFirst
        · exact hRest link hMem
      · exact (Outcome.throw_ok.mp h).elim

theorem validateChain_fields (h : validateChain p plan c = .ok ()) :
    c.chain ≠ [] ∧ ∀ link ∈ c.chain, (p.field? link).isSome := by
  unfold validateChain at h
  cases hChain : c.chain with
  | nil =>
      simp only [hChain] at h
      exact (Outcome.throw_ok.mp h).elim
  | cons first rest =>
      simp only [hChain] at h
      obtain ⟨f, hFirst, h⟩ := Outcome.bind_ok.mp h
      split at h
      · exact (Outcome.throw_ok.mp (Outcome.bind_ok.mp h).choose_spec.1).elim
      · obtain ⟨_, hLinks, -⟩ := Outcome.bind_ok.mp h
        exact ⟨nofun, validateLinks_fields hLinks (planned_field hFirst)⟩

theorem validateParent_ok (h : validateParent plan id c = .ok ()) :
    ∀ parent, c.parent = some parent → (plan.context? parent).isSome := by
  intro parent hParent
  unfold validateParent at h
  simp only [hParent] at h
  split at h
  · cases h
  · rename_i hKnown
    exact Option.isSome_iff_ne_none.mpr fun hNone => hKnown (Or.inr (by simp [hNone]))

theorem validateContext_fits (h : validateContext p plan id c = .ok ()) : plan.Fits p c := by
  unfold validateContext at h
  split at h
  · exact (Outcome.throw_ok.mp (Outcome.bind_ok.mp h).choose_spec.1).elim
  · simp only [Outcome.bind_ok] at h
    obtain ⟨m, hMethod, h⟩ := h
    split at h
    · exact (Outcome.throw_ok.mp (Outcome.bind_ok.mp h).choose_spec.1).elim
    · simp only [Outcome.bind_ok] at h
      obtain ⟨_, hParent, _, hChain, -⟩ := h
      obtain ⟨hChained, hLinks⟩ := validateChain_fields hChain
      have hThere := Program.methodDef_ok.mp (Outcome.mapError_ok.mp hMethod)
      exact ⟨Option.isSome_iff_exists.mpr ⟨m, hThere⟩, hChained, hLinks, validateParent_ok hParent⟩

theorem validate_fits (h : plan.validate p = .ok ()) (hContext : plan.context? id = some c) :
    plan.Fits p c :=
  validateContext_fits (Outcome.forM_ok.mp h (id, c) (mem_entries.mpr hContext))

end Fit

section Growth

variable (hGrows : p.Grows q)
include hGrows

theorem planned_fieldDef {id : FieldId} {f : FieldDef} (h : planned (p.fieldDef id) = .ok f) :
    ∃ f', planned (q.fieldDef id) = .ok f' ∧ f.Persists f' := by
  obtain ⟨f', hField, hStep⟩ := hGrows.field (Program.fieldDef_ok.mp (Outcome.mapError_ok.mp h))
  exact ⟨f', Outcome.mapError_ok.mpr (Program.fieldDef_ok.mpr hField), hStep⟩

theorem validateLinks_grows {chain : List FieldId} (h : validateLinks p c chain = .ok ()) :
    validateLinks q c chain = .ok () := by
  induction chain with
  | nil => rfl
  | cons a chain ih =>
      cases chain with
      | nil => rfl
      | cons b rest =>
          rw [validateLinks, Outcome.bind_ok] at h ⊢
          obtain ⟨f, hf, h⟩ := h
          obtain ⟨f', hf', hType⟩ := planned_fieldDef hGrows hf
          refine ⟨f', hf', ?_⟩
          rw [Outcome.bind_ok] at h ⊢
          obtain ⟨g, hg, h⟩ := h
          obtain ⟨g', hg', hOwner⟩ := planned_fieldDef hGrows hg
          refine ⟨g', hg', ?_⟩
          dsimp only at h ⊢
          rw [hType.type, hOwner.owner]
          split at h
          · rename_i hReached
            rw [if_pos hReached]
            exact ih h
          · exact (Outcome.throw_ok.mp h).elim

theorem validateSlot_grows {slot : FieldId} (h : validateSlot p plan c slot = .ok ()) :
    validateSlot q plan c slot = .ok () := by
  unfold validateSlot at h ⊢
  rw [Outcome.bind_ok] at h ⊢
  obtain ⟨f, hf, h⟩ := h
  obtain ⟨f', hf', hStep⟩ := planned_fieldDef hGrows hf
  refine ⟨f', hf', ?_⟩
  rw [hStep.type, hStep.owner]
  dsimp only at h ⊢
  split at h
  · exact (Outcome.throw_ok.mp (Outcome.bind_ok.mp h).choose_spec.1).elim
  · rename_i hType
    rw [if_neg hType]
    cases hParent : c.parent with
    | none => rfl
    | some parent =>
        simp only [hParent] at h ⊢
        split at h
        · exact (Outcome.throw_ok.mp h).elim
        · rename_i hOwner
          rw [if_neg hOwner]
          exact h

theorem validateChain_grows (h : validateChain p plan c = .ok ()) :
    validateChain q plan c = .ok () := by
  unfold validateChain at h ⊢
  cases hChain : c.chain with
  | nil =>
      simp only [hChain] at h
      exact (Outcome.throw_ok.mp h).elim
  | cons first rest =>
      simp only [hChain] at h ⊢
      rw [Outcome.bind_ok] at h ⊢
      obtain ⟨f, hf, h⟩ := h
      obtain ⟨f', hf', hStep⟩ := planned_fieldDef hGrows hf
      refine ⟨f', hf', ?_⟩
      rw [hStep.owner]
      split at h
      · exact (Outcome.throw_ok.mp (Outcome.bind_ok.mp h).choose_spec.1).elim
      · rename_i hOwner
        rw [if_neg hOwner]
        obtain ⟨_, hLinks, h⟩ := Outcome.bind_ok.mp h
        apply Outcome.bind_ok.mpr
        exact ⟨(), validateLinks_grows hGrows hLinks, validateSlot_grows hGrows h⟩

theorem validateMove_grows {move : FieldId × FieldId} (h : validateMove p c move = .ok ()) :
    validateMove q c move = .ok () := by
  unfold validateMove at h ⊢
  rw [Outcome.bind_ok] at h ⊢
  obtain ⟨f, hf, h⟩ := h
  obtain ⟨f', hf', hSource⟩ := planned_fieldDef hGrows hf
  refine ⟨f', hf', ?_⟩
  rw [hSource.isStatic, hSource.owner]
  split at h
  · exact (Outcome.throw_ok.mp (Outcome.bind_ok.mp h).choose_spec.1).elim
  · rename_i hStatic
    rw [if_neg hStatic]
    rw [Outcome.bind_ok] at h ⊢
    obtain ⟨g, hg, h⟩ := h
    obtain ⟨g', hg', hTarget⟩ := planned_fieldDef hGrows hg
    refine ⟨g', hg', ?_⟩
    rw [hTarget.isStatic, hTarget.owner]
    split at h
    · exact (Outcome.throw_ok.mp h).elim
    · rename_i hOwner
      rw [if_neg hOwner]
      exact h

theorem validateRootField_grows (h : validateRootField p c = .ok ()) :
    validateRootField q c = .ok () := by
  unfold validateRootField at h ⊢
  cases hField : c.rootField with
  | none => rfl
  | some field =>
      simp only [hField] at h ⊢
      rw [Outcome.bind_ok] at h ⊢
      obtain ⟨f, hf, h⟩ := h
      obtain ⟨f', hf', hStep⟩ := planned_fieldDef hGrows hf
      refine ⟨f', hf', ?_⟩
      rw [hStep.owner]
      split at h
      · exact (Outcome.throw_ok.mp h).elim
      · rename_i hOwner
        rw [if_neg hOwner]
        exact h

theorem validateContext_grows {id : ContextId} (h : validateContext p plan id c = .ok ()) :
    validateContext q plan id c = .ok () := by
  unfold validateContext at h ⊢
  split at h
  · exact (Outcome.throw_ok.mp (Outcome.bind_ok.mp h).choose_spec.1).elim
  · rename_i hHolder
    rw [if_neg hHolder]
    simp only [Outcome.bind_ok] at h ⊢
    obtain ⟨m, hm, h⟩ := h
    have hMethod := Program.methodDef_ok.mp (Outcome.mapError_ok.mp hm)
    obtain ⟨m', hMethod', hStep⟩ := hGrows.method hMethod
    refine ⟨m', Outcome.mapError_ok.mpr (Program.methodDef_ok.mpr hMethod'), ?_⟩
    rw [hStep.owner]
    split at h
    · exact (Outcome.throw_ok.mp (Outcome.bind_ok.mp h).choose_spec.1).elim
    · rename_i hOwner
      rw [if_neg hOwner]
      simp only [Outcome.bind_ok] at h ⊢
      obtain ⟨_, hParent, _, hChain, _, hMoves, hRoot⟩ := h
      refine ⟨(), hParent, (), validateChain_grows hGrows hChain, (), ?_, ?_⟩
      · apply Outcome.forM_ok.mpr
        intro move hMem
        exact validateMove_grows hGrows (Outcome.forM_ok.mp hMoves move hMem)
      · exact validateRootField_grows hGrows hRoot

/-- A plan keeps fitting a program that grows. -/
theorem validate_grows (h : plan.validate p = .ok ()) : plan.validate q = .ok () := by
  apply Outcome.forM_ok.mpr
  intro e hMem
  exact validateContext_grows hGrows (Outcome.forM_ok.mp h e hMem)

end Growth

section Shape

variable {plan' : ContextPlan} (hShape : plan'.shape = plan.shape)
include hShape

/-- Plans of one shape have the same contexts up to their init units. -/
theorem context?_of_shape (id : ContextId) :
    (plan'.context? id).map (fun c => { c with initUnits := [] })
      = (plan.context? id).map fun c => { c with initUnits := [] } := by
  have hContexts := congrArg (fun plan : ContextPlan => plan.context? id) hShape
  simpa [shape, context?] using hContexts

theorem isNone_of_shape (id : ContextId) : (plan'.context? id).isNone = (plan.context? id).isNone := by
  have hSome := congrArg Option.isNone (context?_of_shape hShape id)
  simpa using hSome

theorem context_of_shape (id : ContextId) :
    { plan'.context id with initUnits := [] } = { plan.context id with initUnits := [] } := by
  have hContext := context?_of_shape hShape id
  unfold context
  cases hThere : plan'.context? id <;> cases hThere' : plan.context? id <;>
    simp_all

omit hShape in
theorem validateLinks_initUnits (units : List MethodId) (chain : List FieldId) :
    validateLinks p { c with initUnits := units } chain = validateLinks p c chain := by
  induction chain with
  | nil => rfl
  | cons a chain ih =>
      cases chain with
      | nil => rfl
      | cons b rest =>
          rw [validateLinks, validateLinks, ih]
          rfl

theorem validateContext_of_shape (id : ContextId) (units : List MethodId) :
    validateContext p plan' id { c with initUnits := units } = validateContext p plan id c := by
  have hHolders (plan : ContextPlan) : ((plan.contexts.take id.index).any fun other =>
      other.holder == c.holder) =
        ((plan.shape.contexts.map (·.holder)).take id.index).any (· == c.holder) := by
    simp [shape, List.any_map, ← List.map_take, Function.comp_def]
  have hTaken := hHolders plan'
  rw [hShape, ← hHolders plan] at hTaken
  have hParent : validateParent plan' id { c with initUnits := units } = validateParent plan id c := by
    unfold validateParent
    dsimp only
    cases c.parent with
    | none => rfl
    | some parent => simp only [isNone_of_shape hShape]
  have hSlot (slot : FieldId) : validateSlot p plan' { c with initUnits := units } slot
      = validateSlot p plan c slot := by
    unfold validateSlot
    dsimp only
    cases c.parent with
    | none => rfl
    | some parent =>
        have hGenerated : (plan'.context parent).generated = (plan.context parent).generated := by
          have hContext := congrArg ContextDescriptor.generated (context_of_shape hShape parent)
          exact hContext
        simp only [hGenerated]
        rfl
  have hChain : validateChain p plan' { c with initUnits := units } = validateChain p plan c := by
    have hRoot : plan'.shape.root = plan.shape.root := by rw [hShape]
    change plan'.root = plan.root at hRoot
    unfold validateChain
    simp only [validateLinks_initUnits, hSlot, hRoot]
  unfold validateContext
  dsimp only
  rw [hTaken, hParent, hChain]
  rfl

/-- Init units do not decide whether a plan fits. -/
theorem validate_of_shape (h : plan.validate p = .ok ()) : plan'.validate p = .ok () := by
  apply Outcome.forM_ok.mpr
  rintro ⟨id, c'⟩ hMem
  have hContext := context?_of_shape hShape id
  rw [mem_entries.mp hMem] at hContext
  obtain ⟨c, hThere, hSame⟩ := Option.map_eq_some_iff.mp hContext.symm
  have hUnits : c' = { c with initUnits := c'.initUnits } := by
    cases c
    cases c'
    simp_all
  change validateContext p plan' id c' = .ok ()
  rw [hUnits, validateContext_of_shape hShape]
  exact Outcome.forM_ok.mp h (id, c) (mem_entries.mpr hThere)

end Shape

end ContextBinding.ContextPlan
