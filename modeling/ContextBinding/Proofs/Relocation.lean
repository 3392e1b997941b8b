import ContextBinding.Proofs.Sparing
import Mathlib.Data.List.Perm.Subperm

/-! What copying display classes does to names. The code of the copies names nothing that was
copied, nor does that of the method that the copies are made for, of what there was before the
run. -/

namespace ContextBinding

/-- An operand names a member that is not in the program. -/
def Program.Lacks (p : Program) : Operand → Prop
  | .field field => p.field? field = none
  | .method method => p.method? method = none
  | _ => False

namespace TypeClone

variable {clone other : TypeClone} {p : Program} {O O' : Operand → Prop} {b b' : MethodBody}

/-- Code names nothing that was copied, unless it is in `O`. -/
def Avoids (clone : TypeClone) (O : Operand → Prop) (b : MethodBody) : Prop :=
  ∀ i ∈ b.instructions, clone.mapOperand? i.operand = none ∨ O i.operand

theorem mapOperand?_of_not_isName {operand : Operand} (h : ¬ operand.IsName) :
    clone.mapOperand? operand = none := by
  cases operand <;> first | rfl | exact absurd trivial h

theorem Avoids.mono (hO : ∀ operand, O operand → O' operand) (h : clone.Avoids O b) :
    clone.Avoids O' b :=
  fun i hMem => (h i hMem).imp_right (hO _)

/-- Code that is put in names what may be named. -/
theorem Avoids.augments (hO : ∀ operand, O operand → O' operand) (hAugments : b.Augments O b')
    (h : clone.Avoids O' b) : clone.Avoids O' b' := by
  intro i hMem
  by_cases hName : i.operand.IsName
  · rcases hAugments.names i hMem hName with ⟨j, hThere, hSame⟩ | hNew
    · exact hSame ▸ h j hThere
    · exact Or.inr (hO _ hNew)
  · exact Or.inl (mapOperand?_of_not_isName hName)

/-- All that is put in the place of others is new to the program. -/
structure Foreign (clone : TypeClone) (p : Program) : Prop where
  apart : clone.Apart
  type : ∀ type, clone.copy = some type → p.type? type = none
  fields : ∀ f f', clone.fields.get? f = some f' → p.field? f' = none
  methods : ∀ m m', clone.methods.get? m = some m' → p.method? m' = none

/-- A type that names no source names none either once a copy is named in the place of another. -/
theorem mapType_fixed (hSource : clone.source ≠ other.copy) {ref : TypeRef}
    (h : clone.mapType ref = ref) : clone.mapType (other.mapType ref) = other.mapType ref := by
  induction ref with
  | named id =>
      rw [mapType_named other]
      split
      · cases hCopy : other.copy with
        | none => simpa using h
        | some copy =>
            rw [Option.getD_some, mapType_named,
              if_neg fun hSame => hSource (hSame.trans hCopy.symm)]
      · exact h
  | byRef target ih => exact congrArg TypeRef.byRef (ih (TypeRef.byRef.inj h))
  | array element ih => exact congrArg TypeRef.array (ih (TypeRef.array.inj h))
  | _ => exact h

/-- Naming other copies brings back no name that was avoided. -/
theorem Avoids.mapInstruction (hForeign : other.Foreign p)
    (hSource : ∃ type, clone.source = some type ∧ (p.type? type).isSome)
    (hLacks : ∀ operand, p.Lacks operand → O operand)
    (hType : ∀ ref, ¬ O (.type ref))
    (hCode : b'.instructions = b.instructions.map other.mapInstruction)
    (h : clone.Avoids O b) : clone.Avoids O b' := by
  intro i' hMem
  rw [hCode] at hMem
  obtain ⟨i, hThere, rfl⟩ := List.mem_map.mp hMem
  have hBefore := h i hThere
  rw [TypeClone.mapInstruction, mapOperand]
  cases hOperand : i.operand with
  | field f =>
      rw [hOperand] at hBefore
      cases hGet : other.fields.get? f with
      | none => simpa [mapOperand?, hGet] using hBefore
      | some f' =>
          refine Or.inr (hLacks _ ?_)
          simpa [mapOperand?, hGet, Program.Lacks] using hForeign.fields f f' hGet
  | method m =>
      rw [hOperand] at hBefore
      cases hGet : other.methods.get? m with
      | none => simpa [mapOperand?, hGet] using hBefore
      | some m' =>
          refine Or.inr (hLacks _ ?_)
          simpa [mapOperand?, hGet, Program.Lacks] using hForeign.methods m m' hGet
  | type ref =>
      rw [hOperand] at hBefore
      have hFixed : clone.mapType ref = ref := by
        have hNone := hBefore.resolve_right (hType ref)
        simp only [mapOperand?] at hNone
        split at hNone
        · assumption
        · cases hNone
      have hApart : clone.source ≠ other.copy := fun hSame => by
        obtain ⟨type, hNames, hThere⟩ := hSource
        rw [hForeign.type type (hSame.symm.trans hNames)] at hThere
        cases hThere
      refine Or.inl ?_
      by_cases hSame : other.mapType ref = ref
      · simp [mapOperand?, hSame, hFixed]
      · simp [mapOperand?, hSame, mapType_fixed hApart hFixed]
  | _ => exact Or.inl rfl

end TypeClone

/-- As many numbers in a row as there are places for them are all of them. -/
theorem mem_of_bounded {ι : Type} (index : ι → Nat) {l : List ι} {first : Nat} (hNodup : l.Nodup)
    (hIndex : Function.Injective index)
    (hBounds : ∀ a ∈ l, first ≤ index a ∧ index a < first + l.length) {a : ι}
    (hFirst : first ≤ index a) (hLast : index a < first + l.length) : a ∈ l := by
  have hSub : l.map index ⊆ List.range' first l.length := fun n hMem => by
    obtain ⟨b, hThere, rfl⟩ := List.mem_map.mp hMem
    simpa using hBounds b hThere
  have hPerm := ((hNodup.map hIndex).subperm hSub).perm_of_length_le (by simp)
  have hMem : index a ∈ l.map index := hPerm.mem_iff.mpr (by simpa using ⟨hFirst, hLast⟩)
  obtain ⟨b, hThere, hSame⟩ := List.mem_map.mp hMem
  exact hIndex hSame ▸ hThere

namespace Program

variable {p q : Program}

theorem cloneMethods_length {copy : TypeId} {ids : List MethodId} {clone clone' : TypeClone}
    (h : cloneMethods copy ids clone p = .ok clone' q) :
    q.methods.length = p.methods.length + ids.length := by
  induction ids generalizing clone p with
  | nil =>
      obtain ⟨-, rfl⟩ := Step.pure_ok.mp h
      rfl
  | cons id ids ih =>
      rw [cloneMethods] at h
      obtain ⟨_, _, hGet, h⟩ := Step.bind_ok.mp h
      obtain ⟨rfl, rfl⟩ := Step.get_ok.mp hGet
      obtain ⟨m, _, hLift, h⟩ := Step.bind_ok.mp h
      obtain ⟨-, rfl⟩ := Step.lift_ok.mp hLift
      obtain ⟨c, p₁, hClone, h⟩ := Step.bind_ok.mp h
      obtain ⟨_, -, -, -, -, hMethods⟩ := cloneMethod_ok hClone
      rw [ih h, hMethods, List.length_append, List.length_singleton, List.length_cons]
      omega

/-- All methods that come with a copied type are copies of its methods. -/
theorem cloneType_complete {id : TypeId} {declaring : Option TypeId} {clone : TypeClone}
    (h : cloneType id declaring p = .ok clone q) {method : MethodId}
    (hNew : p.methods.length ≤ method.index) (hThere : method.index < q.methods.length) :
    ∃ m, clone.methods.get? m = some method := by
  unfold cloneType at h
  simp only [Step.bind_ok, Step.get_ok, Step.lift_ok] at h
  obtain ⟨_, _, ⟨rfl, rfl⟩, t, _, ⟨-, rfl⟩, copy, p₁, hAdd, _, p₂, hModify, withFields, p₃,
    hFields, whole, p₄, hMethods, _, p₅, hRemap, _, p₆, hProperties, hEnd⟩ := h
  obtain ⟨rfl, rfl⟩ := Step.pure_ok.mp hEnd
  obtain ⟨rfl, -, hMethods₁, -⟩ := addType_fresh hAdd
  obtain ⟨-, hMethods₂, -⟩ := modifyType_types hModify
  obtain ⟨⟨fields, hCopied₃⟩, -, -, hNone⟩ := cloneFields_copied (.start p₂ _ _ rfl) hFields
  obtain ⟨⟨methods, hCopied⟩, -⟩ := cloneMethods_copied (.start p₃ _ _ hNone) hMethods
  have hPairs := hCopied.methods.pairs
  have hBefore : p₃.methods = p.methods := hCopied₃.methods.trans (hMethods₂.trans hMethods₁)
  have hCount : p₄.methods.length = p.methods.length + methods.length := by
    have hSame : t.methods.length = methods.length := by
      simpa using congrArg List.length hPairs.pairs
    rw [cloneMethods_length hMethods, hBefore, hSame]
  -- What is done to the code and the properties declares no methods.
  have hLater : Rewrites (fun _ => True) (fun _ => False) p₄ p₆ := by
    refine IsTrans.trans (r := Rewrites _ _) p₄ p₅ p₆ ?_ ?_
    · refine Keeps.forM (fun _ _ => ?_) hRemap
      exact Keeps.bind (keeps_remapMembers trivial) fun _ => Keeps.pure _
    · exact Keeps.forM (fun _ _ => keeps_addProperty) hProperties
  have hMethod : p₆.method? method = some p₆.methods[method.index] :=
    List.getElem?_eq_getElem hThere
  obtain ⟨m, hOld, -⟩ | ⟨-, hNever⟩ := hLater.code method _ hMethod
  · have hLast : method.index < p₄.methods.length := (List.getElem?_eq_some_iff.mp hOld).1
    have hMem : method ∈ methods := by
      refine mem_of_bounded MethodId.index hPairs.values_nodup
        (fun _ _ h => congrArg MethodId.mk h) (fun c hMem => ?_) hNew (hCount ▸ hLast)
      rw [← hCount, ← hBefore]
      exact hCopied.methods.bounds c hMem
    obtain ⟨k, -, hGet⟩ := hPairs.exists_key hMem
    exact ⟨k, hGet⟩
  · exact hNever.elim

/-- The code of all methods of a copied type names nothing that was copied. -/
theorem cloneType_avoids {id : TypeId} {declaring : Option TypeId} {clone : TypeClone}
    (h : cloneType id declaring p = .ok clone q) (hNumbered : p.Numbered) (hHoused : p.Housed)
    {O : Operand → Prop} :
    q.Within ⟨fun _ => False, fun type => clone.copy = some type⟩ (clone.Avoids O) := by
  intro method m' b' hMethod' hIn hBody' i hMem
  obtain ⟨t, t', hType, -, -, -, hCopy, hLike, -⟩ := cloneType_isomorphic h
  have hOwner : m'.owner = ⟨p.types.length⟩ :=
    (Option.some_inj.mp (hCopy.symm.trans (hIn.resolve_left not_false))).symm
  have hNew : p.methods.length ≤ method.index := by
    by_contra hOld
    have hBefore : p.method? method = some p.methods[method.index] :=
      List.getElem?_eq_getElem (Nat.lt_of_not_le hOld)
    obtain ⟨-, hProgram, -⟩ := cloneType_ok h
    have hSame := (hProgram.grows.method_persists hBefore hMethod').owner
    have hThere := hHoused method _ hBefore
    rw [← hSame, hOwner] at hThere
    exact Nat.lt_irrefl _ hThere
  obtain ⟨k, hGet⟩ := cloneType_complete h hNew (List.getElem?_eq_some_iff.mp hMethod').1
  obtain ⟨d, d', hSource, hMade, hCopies⟩ := hLike.methodCopies k method hGet
  obtain rfl := Option.some_inj.mp (hMade.symm.trans hMethod')
  have hCode := hCopies.body
  rw [hBody'] at hCode
  cases hBody : d.body with
  | none =>
      rw [hBody] at hCode
      cases hCode
  | some b =>
      rw [hBody] at hCode
      cases hCode with
      | some hCode =>
          have hNodup := (hNumbered d (List.mem_of_getElem? hSource) b hBody).distinct
          exact Or.inl (hCode.apart hNodup i hMem)

/-- What is put in the place of others when a type is copied is new. -/
theorem cloneType_foreign {id : TypeId} {declaring : Option TypeId} {clone : TypeClone}
    {p₀ : Program} (h : cloneType id declaring p = .ok clone q) (hGrows : p₀.Grows p) :
    clone.Foreign p₀ := by
  obtain ⟨t, t', hCopied⟩ := cloneType_copied h
  obtain ⟨_, hFields⟩ := hCopied.fields
  obtain ⟨_, _, hMethods, -⟩ := hCopied.methods
  refine ⟨hCopied.apart, fun type hType => ?_, fun f f' hGet => ?_, fun m m' hGet => ?_⟩
  · obtain rfl := Option.some_inj.mp (hCopied.copy.symm.trans hType)
    exact List.getElem?_eq_none hGrows.types.length_le
  · refine List.getElem?_eq_none (hGrows.fields.length_le.trans ?_)
    exact (hFields.bounds f' (hFields.pairs.mem_values hGet)).1
  · refine List.getElem?_eq_none (hGrows.methods.length_le.trans ?_)
    exact (hMethods.bounds m' (hMethods.pairs.mem_values hGet)).1

/-- An instruction constructs a display class that is nested in `holder`. -/
def BuildsAt (p : Program) (holder display : TypeId) (i : Instruction) : Prop :=
  i.opcode = .newobj ∧ ∃ m t, i.method?.bind p.method? = some m ∧ m.owner = display ∧
    p.type? display = some t ∧ t.isDisplayClass = true ∧ t.declaring = some holder

/-- Code constructs one. -/
def Builds (p : Program) (holder : TypeId) (code : List Instruction) (display : TypeId) : Prop :=
  ∃ i ∈ code, p.BuildsAt holder display i

/-- Display classes that are constructed are so later. -/
theorem Builds.later {holder display : TypeId} {code code' : List Instruction}
    (h : p.Builds holder code display) (hGrows : p.Grows q)
    (hCode : ∀ i ∈ code, i.opcode = .newobj → i ∈ code') : q.Builds holder code' display := by
  obtain ⟨i, hMem, hNew, m, t, hMethod, hOwner, hType, hDisplay, hNested⟩ := h
  obtain ⟨target, hTarget, hMethod⟩ := Option.bind_eq_some_iff.mp hMethod
  obtain ⟨m', hMethod', hSame⟩ := hGrows.method hMethod
  obtain ⟨t', hType', hPersists⟩ := hGrows.type hType
  refine ⟨i, hCode i hMem hNew, hNew, m', t', ?_, hSame.owner.trans hOwner, hType', ?_,
    hPersists.declaring.trans hNested⟩
  · rw [hTarget]
    exact hMethod'
  · unfold TypeDef.isDisplayClass at hDisplay ⊢
    rwa [hPersists.flags]

/-- The display classes that code constructs are found. -/
theorem mem_createdDisplayClasses {holder display : TypeId} {code : List Instruction}
    {found : List TypeId} (h : p.createdDisplayClasses holder code = .ok found)
    (hBuilds : p.Builds holder code display) : display ∈ found := by
  unfold createdDisplayClasses at h
  generalize ([] : List TypeId) = acc at h
  replace hBuilds : display ∈ acc ∨ p.Builds holder code display := Or.inr hBuilds
  induction code generalizing acc with
  | nil =>
      obtain rfl := Except.ok.inj h
      exact hBuilds.resolve_right fun ⟨i, hMem, _⟩ => List.not_mem_nil hMem
  | cons i code ih =>
      rw [List.foldlM_cons] at h
      obtain ⟨acc', hStep, hRest⟩ := Outcome.bind_ok.mp h
      obtain ⟨hKept, hFound⟩ :
          (display ∈ acc → display ∈ acc') ∧ (p.BuildsAt holder display i → display ∈ acc') := by
        split at hStep
        · rename_i hOther
          obtain rfl := Except.ok.inj hStep
          exact ⟨id, fun hBuilds => absurd hBuilds.1 hOther⟩
        · split at hStep
          · rename_i hNone
            obtain rfl := Except.ok.inj hStep
            exact ⟨id, fun ⟨_, _, _, hMethod, _⟩ => nomatch hNone.symm.trans hMethod⟩
          · rename_i m hMethod
            obtain ⟨t, hType, hStep⟩ := Outcome.bind_ok.mp hStep
            have hSame (hBuilds : p.BuildsAt holder display i) : m.owner = display ∧
                t.isDisplayClass = true ∧ t.declaring = some holder := by
              obtain ⟨-, m', t', hMethod', rfl, hType', hRest⟩ := hBuilds
              obtain rfl := Option.some_inj.mp (hMethod.symm.trans hMethod')
              obtain rfl := Option.some_inj.mp ((typeDef_ok.mp hType).symm.trans hType')
              exact ⟨rfl, hRest⟩
            split at hStep
            · obtain rfl := Except.ok.inj hStep
              refine ⟨fun hMem => mem_insertNew.mpr (Or.inl hMem), fun hBuilds => ?_⟩
              exact mem_insertNew.mpr (Or.inr (hSame hBuilds).1.symm)
            · rename_i hOther
              obtain rfl := Except.ok.inj hStep
              refine ⟨id, fun hBuilds => absurd ?_ hOther⟩
              simp [(hSame hBuilds).2]
      refine ih acc' hRest ?_
      rcases hBuilds with hMem | ⟨j, hMem, hBuilds⟩
      · exact Or.inl (hKept hMem)
      · rcases List.mem_cons.mp hMem with rfl | hMem
        · exact Or.inl (hFound hBuilds)
        · exact Or.inr ⟨j, hMem, hBuilds⟩

end Program

namespace TypeClone

/-- The methods of the copy of a type. -/
def region (clone : TypeClone) : Region := ⟨fun _ => False, fun type => clone.copy = some type⟩

/-- A copy of a type was made on the type `generated` in a run that began with `p`, and the code of
its methods follows what was copied. -/
def Made (clone : TypeClone) (p q : Program) (display generated : TypeId) : Prop :=
  ∃ p' q', p.Grows p' ∧ Program.cloneType display (some generated) p' = .ok clone q' ∧ q'.Grows q ∧
    ∀ m m' b, clone.methods.get? m = some m' → q'.body m' = .ok b →
      ∃ b', q.body m' = .ok b' ∧ b.Follows b'

variable {clone : TypeClone} {p q q' : Program} {O : Operand → Prop} {display generated : TypeId}
  {c c' : Closures}

namespace Made

theorem source (h : clone.Made p q display generated) : clone.source = some display := by
  obtain ⟨p', q', -, hClone, -, -⟩ := h
  obtain ⟨t, t', -, -, -, hSource, -⟩ := Program.cloneType_isomorphic hClone
  exact hSource

theorem foreign (h : clone.Made p q display generated) : clone.Foreign p := by
  obtain ⟨p', q', hBefore, hClone, -, -⟩ := h
  exact Program.cloneType_foreign hClone hBefore

theorem copy (h : clone.Made p q display generated) :
    ∃ copy, clone.copy = some copy ∧ p.types.length ≤ copy.index ∧ copy.index < q.types.length := by
  obtain ⟨p', q', hBefore, hClone, hLater, -⟩ := h
  obtain ⟨hCopy, -, hThere, -⟩ := Program.cloneType_ok hClone
  exact ⟨_, hCopy, hBefore.types.length_le, hThere.trans_le hLater.types.length_le⟩

/-- The copy of a method came with the run, and belongs to the copy of the type. -/
theorem method (h : clone.Made p q display generated) {m m' : MethodId}
    (hGet : clone.methods.get? m = some m') :
    p.methods.length ≤ m'.index ∧ ∃ d, q.method? m' = some d ∧ clone.copy = some d.owner := by
  obtain ⟨p', q', hBefore, hClone, hLater, -⟩ := h
  obtain ⟨t, t', -, -, -, -, -, hLike, -⟩ := Program.cloneType_isomorphic hClone
  obtain ⟨d, d', -, hMade, hCopies⟩ := hLike.methodCopies m m' hGet
  obtain ⟨e, hThere, hSame⟩ := hLater.method hMade
  have hNone := (Program.cloneType_foreign hClone hBefore).methods m m' hGet
  exact ⟨List.getElem?_eq_none_iff.mp hNone, e, hThere, hSame.owner ▸ hCopies.owner⟩

theorem later (h : clone.Made p q display generated) (hGrows : q.Grows q')
    (hCode : ∀ m m' b, clone.methods.get? m = some m' → q.body m' = .ok b →
      ∃ b', q'.body m' = .ok b' ∧ b.Follows b') : clone.Made p q' display generated := by
  obtain ⟨p₁, q₁, hBefore, hClone, hLater, hFollows⟩ := h
  refine ⟨p₁, q₁, hBefore, hClone, hLater.trans hGrows, fun m m' b hGet hBody => ?_⟩
  obtain ⟨b', hBody', hFirst⟩ := hFollows m m' b hGet hBody
  obtain ⟨b'', hBody'', hNext⟩ := hCode m m' b' hGet hBody'
  exact ⟨b'', hBody'', IsTrans.trans _ _ _ hFirst hNext⟩

end Made

/-- A copy that was made in the run, on a type that is not that of a record. What its code names of
what was copied is in `O`. -/
structure Placed (clone : TypeClone) (p : Program) (O : Operand → Prop) (display generated : TypeId)
    (c : Closures) (q : Program) : Prop where
  made : clone.Made p q display generated
  record : ∀ type, clone.copy = some type → ¬ c.HasRecord type
  code : q.Within clone.region (clone.Avoids O)

/-- A copy stays as it is where the code of the method is edited that others are made for. -/
theorem Placed.confined {S : MethodId → Prop} {N : TypeId → Prop}
    (h : clone.Placed p O display generated c q) (hProgram : q.Confined S N q')
    (hS : ∀ id m, S id → q.method? id = some m → m.owner.index < p.types.length)
    (hN : ∀ type, N type → q.types.length ≤ type.index)
    (hRecords : c'.records = c.records) : clone.Placed p O display generated c' q' := by
  obtain ⟨copy, hCopy, hNew, hThere⟩ := h.made.copy
  have hOnly {type : TypeId} (hType : clone.copy = some type) : type = copy :=
    Option.some_inj.mp (hType.symm.trans hCopy)
  have hOther {id : MethodId} {m : MethodDef} (hMethod : q.method? id = some m)
      (hOwner : clone.copy = some m.owner) : ¬ S id := fun hIn => by
    have hOld := hS id m hIn hMethod
    rw [hOnly hOwner] at hOld
    exact absurd hOld (Nat.not_lt.mpr hNew)
  refine ⟨h.made.later hProgram.grows fun m m' b hGet hBody => ?_, fun type hType => ?_, ?_⟩
  · obtain ⟨d, hMethod, hOwner⟩ := (h.made.method hGet).2
    exact ⟨b, hProgram.body (hOther hMethod hOwner) hBody, refl b⟩
  · rintro ⟨key, r, hGet, hSame⟩
    exact h.record type hType ⟨key, r, hRecords ▸ hGet, hSame⟩
  · refine h.code.confined hProgram (fun _ => False.elim) (fun id m hMethod hIn hHas => ?_)
      fun type hLate hType => ?_
    · exact hOther hMethod (hHas.resolve_left not_false) hIn
    · rw [hOnly hType] at hLate
      exact absurd hThere (Nat.not_lt.mpr (hN copy hLate))

end TypeClone

/-- Code has other names only, and what it avoided of the program `p` it still avoids. -/
structure MethodBody.Renames (p : Program) (b b' : MethodBody) : Prop where
  shares : b.Shares b'
  avoids : ∀ clone : TypeClone, (∃ type, clone.source = some type ∧ (p.type? type).isSome) →
    clone.Avoids p.Lacks b → clone.Avoids p.Lacks b'

instance {p : Program} : IsPreorder MethodBody (MethodBody.Renames p) where
  refl b := ⟨refl b, fun _ _ h => h⟩
  trans _ _ _ h h' := ⟨IsTrans.trans _ _ _ h.shares h'.shares,
    fun clone hSource hAvoids => h'.avoids clone hSource (h.avoids clone hSource hAvoids)⟩

namespace ClosureEdit

/-- What copying display classes for a method leaves: what comes are types with their methods, no
other code is edited, and that of the method has other names. -/
structure Displaces (p : Program) (method : MethodId) (s t : Closures × Workspace) : Prop where
  records : t.1.records = s.1.records
  program : s.2.program.Confined (· = method) (fun type =>
    s.2.program.types.length ≤ type.index ∧ type.index < t.2.program.types.length) t.2.program
  kept : ∀ key clone, s.1.relocated.get? key = some clone → t.1.relocated.get? key = some clone
  code : ∀ b, s.2.program.body method = .ok b →
    ∃ b', t.2.program.body method = .ok b' ∧ b.Renames p b'

/-- What holds while display classes are copied for a method. Its type was there before the run. -/
structure Placing (p : Program) (O : Operand → Prop) (method : MethodId)
    (s : Closures × Workspace) : Prop where
  grounded : s.1.Grounded p s.2.program
  copies : ∀ display generated clone, s.1.relocated.get? (display, generated) = some clone →
    clone.Placed p O display generated s.1 s.2.program
  outside : ∃ m, s.2.program.method? method = some m ∧ m.owner.index < p.types.length

variable {p : Program} {O : Operand → Prop} {method : MethodId} {display generated : TypeId}
  {s t u : Closures × Workspace}

instance : IsPreorder (Closures × Workspace) (Displaces p method) where
  refl s := ⟨rfl, .refl _, fun _ _ h => h, fun b hBody => ⟨b, hBody, refl b⟩⟩
  trans s t u h h' :=
    { records := h'.records.trans h.records
      program := by
        refine .trans (q := t.2.program) (h.program.mono (fun _ => id) fun type hNew => ?_)
          (h'.program.mono (fun _ => id) fun type hNew => ?_)
        · exact hNew.imp_right fun hThere => hThere.trans_le h'.program.grows.types.length_le
        · exact hNew.imp_left h.program.grows.types.length_le.trans
      kept := fun key clone hGet => h'.kept key clone (h.kept key clone hGet)
      code := fun b hBody => by
        obtain ⟨b', hBody', hFirst⟩ := h.code b hBody
        obtain ⟨b'', hBody'', hRest⟩ := h'.code b' hBody'
        exact ⟨b'', hBody'', IsTrans.trans _ _ _ hFirst hRest⟩ }

/-- A display class that is copied takes its place among those that were. -/
theorem copyDisplayClass_places {clone : TypeClone}
    (h : copyDisplayClass display generated s = .ok clone t) (hPlacing : Placing p O method s)
    (hNone : s.1.relocated.get? (display, generated) = none) :
    Displaces p method s t ∧ Placing p O method t ∧
      t.1.relocated.get? (display, generated) = some clone := by
  unfold copyDisplayClass at h
  obtain ⟨made, _, hEdit, h⟩ := Step.bind_ok.mp h
  obtain ⟨q, hClone, rfl⟩ := edit_ok.mp hEdit
  obtain ⟨_, _, hUpdate, h⟩ := Step.bind_ok.mp h
  obtain rfl := update_ok.mp hUpdate
  obtain ⟨rfl, rfl⟩ := Step.pure_ok.mp h
  obtain ⟨hCopy, hRewrites, hThere, -⟩ := Program.cloneType_ok hClone
  have hProgram := hRewrites.toConfined
  have hGrows : s.2.program.Grows q := hProgram.grows
  obtain ⟨d, d', -, -, -, -, -, hLike, -⟩ := Program.cloneType_isomorphic hClone
  have hGrounded := hPlacing.grounded
  have hGet : (s.1.relocated.insert (display, generated) made).get? (display, generated)
      = some made := by simp [Table.get?_insert]
  have hFresh (type : TypeId) (hNew : type = ⟨s.2.program.types.length⟩) :
      s.2.program.types.length ≤ type.index ∧ type.index < q.types.length := by
    subst hNew
    exact ⟨Nat.le_refl _, hThere⟩
  refine ⟨⟨rfl, hProgram.mono (fun _ => False.elim) hFresh, fun key clone hKept => ?_,
    fun b hBody => ⟨b, hProgram.body not_false hBody, refl b⟩⟩,
    ⟨⟨?_, ?_, ?_, ?_, ?_⟩, ?_, ?_⟩, hGet⟩
  · rw [Table.get?_insert, if_neg]
    · exact hKept
    · rintro rfl
      cases hNone.symm.trans hKept
  · exact hGrounded.grows.trans hGrows
  · exact hGrows.numbered hGrounded.numbered
  · exact hGrounded.housed.confined hProgram fun type hNew => (hFresh type hNew).2
  · exact fun type hType => (hGrounded.records type hType).imp_right fun hOld =>
      hOld.trans_le hGrows.types.length_le
  · -- The field of a copy is a copy of the field.
    have hOld (type : TypeId) (field : FieldId) (hRoot : s.1.displayRoot? type = some field) :
        ∃ f, q.field? field = some f ∧ f.name = Closures.displayRootName := by
      obtain ⟨f, hField, hName⟩ := hGrounded.roots type field hRoot
      obtain ⟨f', hField', hSame⟩ := hGrows.field hField
      exact ⟨f', hField', hSame.name.trans hName⟩
    intro type field hRoot
    unfold Closures.displayRoot? at hRoot
    dsimp only at hRoot
    split at hRoot
    · rename_i copy root hMade
      rw [Table.get?_insert] at hRoot
      split at hRoot
      · obtain rfl := Option.some_inj.mp hRoot
        simp only [Option.bind_eq_bind, Option.bind_eq_some_iff, Option.pure_def,
          Option.some_inj] at hMade
        obtain ⟨source, hSourceRoot, field, hField, _, -, hPair⟩ := hMade
        obtain ⟨-, rfl⟩ := Prod.mk.inj hPair
        obtain ⟨f, hThere, hName⟩ := hGrounded.roots display source hSourceRoot
        obtain ⟨_, d, -, hBefore, hAfter⟩ := hLike.fieldCopies source field hField
        obtain rfl := Option.some_inj.mp (hThere.symm.trans hBefore)
        exact ⟨_, hAfter, hName⟩
      · exact hOld type field hRoot
    · exact hOld type field hRoot
  · intro display' generated' clone hClone'
    rw [Table.get?_insert] at hClone'
    split at hClone'
    · rename_i hKey
      obtain ⟨rfl, rfl⟩ := Prod.mk.inj hKey
      obtain rfl := Option.some_inj.mp hClone'
      have hMade : made.Made p q display generated :=
        ⟨_, q, hGrounded.grows, hClone, .refl q, fun _ _ b _ hBody => ⟨b, hBody, refl b⟩⟩
      refine ⟨hMade, fun type hType hRecord => ?_,
        Program.cloneType_avoids hClone hGrounded.numbered hGrounded.housed⟩
      obtain rfl := Option.some_inj.mp (hCopy.symm.trans hType)
      exact Nat.lt_irrefl _ (hGrounded.records _ hRecord).2
    · refine (hPlacing.copies display' generated' clone hClone').confined hProgram
        (fun _ _ => False.elim) (fun type hNew => (hFresh type hNew).1) rfl
  · obtain ⟨m, hMethod, hOwner⟩ := hPlacing.outside
    obtain ⟨m', hMethod', hSame⟩ := hGrows.method hMethod
    exact ⟨m', hMethod', hSame.owner ▸ hOwner⟩

/-- The method comes to name the copy of a display class. -/
theorem remap_places {clone : TypeClone} {changed : Bool}
    (h : edit (Program.remapMembers method clone) s = .ok changed t)
    (hPlacing : Placing p O method s)
    (hGet : s.1.relocated.get? (display, generated) = some clone) :
    Displaces p method s t ∧ Placing p O method t ∧
      t.1.relocated.get? (display, generated) = some clone ∧
      ∀ b, t.2.program.body method = .ok b → clone.Avoids p.Lacks b := by
  obtain ⟨q, hRemap, rfl⟩ := edit_ok.mp h
  have hForeign := (hPlacing.copies display generated clone hGet).made.foreign
  have hRewrites : s.2.program.Rewrites (· = method) (fun _ => False) q :=
    Program.keeps_remapMembers (S := (· = method)) rfl hRemap
  have hProgram := hRewrites.toConfined
  have hGrounded := hPlacing.grounded
  obtain ⟨m, body, hMethod, hAfter, hCopies⟩ :=
    (Program.remapMembers_ok hForeign.apart hRemap).method
  have hCode : ∀ b b', m.body = some b → body = some b' → clone.CopiesCode b b' ∧
      b'.instructions = b.instructions.map clone.mapInstruction ∧
      ∀ i ∈ b'.instructions, clone.mapOperand? i.operand = none := by
    rintro b b' hBefore rfl
    rw [hBefore] at hCopies
    cases hCopies with
    | some hCopies =>
        have hNodup := (hGrounded.numbered m (List.mem_of_getElem? hMethod) b hBefore).distinct
        exact ⟨hCopies, hCopies.instructions hNodup, hCopies.apart hNodup⟩
  have hLater {display generated : TypeId} {clone : TypeClone}
      (hGet : s.1.relocated.get? (display, generated) = some clone) :
      clone.Placed p O display generated s.1 q := by
    refine (hPlacing.copies display generated clone hGet).confined hProgram ?_
      (fun _ => False.elim) rfl
    rintro _ m rfl hMethod
    obtain ⟨m', hMethod', hOwner⟩ := hPlacing.outside
    obtain rfl := Option.some_inj.mp (hMethod.symm.trans hMethod')
    exact hOwner
  refine ⟨⟨rfl, hProgram.mono (fun _ => id) fun _ => False.elim, fun _ _ h => h, fun b hBody => ?_⟩,
    ⟨⟨hGrounded.grows.trans hProgram.grows, hProgram.grows.numbered hGrounded.numbered,
      hGrounded.housed.confined hProgram fun _ => False.elim, fun type hType => ?_,
      fun type field hRoot => ?_⟩, fun _ _ _ => hLater, ?_⟩, hGet, fun b hBody i hMem => ?_⟩
  · obtain ⟨m', hMethod', hBefore⟩ := Program.body_ok.mp hBody
    obtain rfl := Option.some_inj.mp (hMethod.symm.trans hMethod')
    cases hNew : body with
    | none => rw [hNew, hBefore] at hCopies; cases hCopies
    | some b' =>
        obtain ⟨hShares, hMapped, -⟩ := hCode b b' hBefore hNew
        refine ⟨b', Program.body_ok.mpr ⟨_, hAfter, hNew⟩,
          ⟨hShares.ids, hShares.opcodes, hShares.locals, hShares.handlers⟩, fun other hOther => ?_⟩
        exact TypeClone.Avoids.mapInstruction hForeign hOther (fun _ h => h) (fun _ => not_false)
          hMapped
  · exact (hGrounded.records type hType).imp_right fun hOld =>
      hOld.trans_le hProgram.grows.types.length_le
  · obtain ⟨f, hField, hName⟩ := hGrounded.roots type field hRoot
    obtain ⟨f', hField', hSame⟩ := hProgram.grows.field hField
    exact ⟨f', hField', hSame.name.trans hName⟩
  · obtain ⟨m', hMethod', hOwner⟩ := hPlacing.outside
    obtain ⟨m'', hMethod'', hSame⟩ := hProgram.grows.method hMethod'
    exact ⟨m'', hMethod'', hSame.owner ▸ hOwner⟩
  · obtain ⟨m', hMethod', hNew⟩ := Program.body_ok.mp hBody
    obtain rfl := Option.some_inj.mp (hAfter.symm.trans hMethod')
    cases hBefore : m.body with
    | none => rw [show body = some b from hNew, hBefore] at hCopies; cases hCopies
    | some b₀ => exact Or.inl ((hCode b₀ b hBefore hNew).2.2 i hMem)

/-- A display class has a copy, and the code of the method names nothing of the class that was there
before the run. -/
def Redirected (p : Program) (method : MethodId) (generated display : TypeId)
    (s : Closures × Workspace) : Prop :=
  ∃ clone b, s.1.relocated.get? (display, generated) = some clone ∧
    s.2.program.body method = .ok b ∧ clone.Avoids p.Lacks b

theorem Redirected.later (h : Redirected p method generated display s)
    (hPlacing : Placing p O method s) (hDisplaces : Displaces p method s t)
    (hThere : (p.type? display).isSome) : Redirected p method generated display t := by
  obtain ⟨clone, b, hGet, hBody, hAvoids⟩ := h
  obtain ⟨b', hBody', hRenames⟩ := hDisplaces.code b hBody
  have hSource := (hPlacing.copies display generated clone hGet).made.source
  exact ⟨clone, b', hDisplaces.kept _ _ hGet, hBody',
    hRenames.avoids clone ⟨display, hSource, hThere⟩ hAvoids⟩

theorem relocateDisplayClass_places {ids : List MethodId} {b : MethodBody}
    (h : relocateDisplayClass method generated display s = .ok ids t)
    (hPlacing : Placing p O method s) (hBody : s.2.program.body method = .ok b) :
    Displaces p method s t ∧ Placing p O method t ∧ Redirected p method generated display t := by
  have hRemap {clone : TypeClone} {changed : Bool} {u : Closures × Workspace}
      (h : edit (Program.remapMembers method clone) u = .ok changed t)
      (hDisplaces : Displaces p method s u) (hPlacing : Placing p O method u)
      (hGet : u.1.relocated.get? (display, generated) = some clone) :
      Displaces p method s t ∧ Placing p O method t ∧
        Redirected p method generated display t := by
    obtain ⟨hLater, hEnd, hGet, hAvoids⟩ := remap_places h hPlacing hGet
    have hAll : Displaces p method s t := IsTrans.trans _ _ _ hDisplaces hLater
    obtain ⟨b', hBody', -⟩ := hAll.code b hBody
    exact ⟨hAll, hEnd, clone, b', hGet, hBody', hAvoids b' hBody'⟩
  unfold relocateDisplayClass at h
  obtain ⟨c, _, hClosures, h⟩ := Step.bind_ok.mp h
  obtain ⟨rfl, rfl⟩ := closures_ok.mp hClosures
  cases hKnown : s.1.relocated.get? (display, generated) with
  | some clone =>
      simp only [hKnown] at h
      obtain ⟨_, u, hEdit, h⟩ := Step.bind_ok.mp h
      obtain ⟨-, rfl⟩ := Step.pure_ok.mp h
      exact hRemap hEdit (refl s) hPlacing hKnown
  | none =>
      simp only [hKnown] at h
      obtain ⟨clone, u, hCopy, h⟩ := Step.bind_ok.mp h
      obtain ⟨_, v, hEdit, h⟩ := Step.bind_ok.mp h
      obtain ⟨-, rfl⟩ := Step.pure_ok.mp h
      obtain ⟨hDisplaces, hPlaced, hGet⟩ := copyDisplayClass_places hCopy hPlacing hKnown
      exact hRemap hEdit hDisplaces hPlaced hGet

/-- The display classes in a list are copied one after the other. -/
theorem relocateAll_places {displays : List TypeId} {ids : List (List MethodId)} {b : MethodBody}
    (h : displays.mapM (relocateDisplayClass method generated) s = .ok ids t)
    (hPlacing : Placing p O method s) (hBody : s.2.program.body method = .ok b) :
    Displaces p method s t ∧ Placing p O method t ∧ ∀ display ∈ displays,
      (p.type? display).isSome → Redirected p method generated display t := by
  induction displays generalizing s b ids with
  | nil =>
      obtain ⟨-, rfl⟩ := Step.pure_ok.mp h
      exact ⟨refl s, hPlacing, fun _ hMem => (List.not_mem_nil hMem).elim⟩
  | cons display displays ih =>
      obtain ⟨_, u, _, hFirst, hRest, -⟩ := Step.mapM_cons_ok.mp h
      obtain ⟨hDisplaces, hPlaced, hRedirected⟩ :=
        relocateDisplayClass_places hFirst hPlacing hBody
      obtain ⟨b', hBody', -⟩ := hDisplaces.code b hBody
      obtain ⟨hLater, hEnd, hAll⟩ := ih hRest hPlaced hBody'
      refine ⟨IsTrans.trans _ _ _ hDisplaces hLater, hEnd, fun other hMem hThere => ?_⟩
      rcases List.mem_cons.mp hMem with rfl | hMem
      · exact hRedirected.later hPlaced hLater hThere
      · exact hAll other hMem hThere

/-- Once display classes are copied for a method, its code names none that it constructs. -/
theorem relocateDisplayClasses_places {holder : TypeId} {ids : List MethodId}
    (h : relocateDisplayClasses method holder generated s = .ok ids t)
    (hPlacing : Placing p O method s) :
    Displaces p method s t ∧ Placing p O method t ∧ ∀ b display, s.2.program.body method = .ok b →
      s.2.program.Builds holder b.instructions display → (p.type? display).isSome →
        Redirected p method generated display t := by
  unfold relocateDisplayClasses at h
  obtain ⟨m, _, hModel, h⟩ := Step.bind_ok.mp h
  obtain ⟨w, hRead, rfl⟩ := work_ok.mp hModel
  obtain ⟨hMethod, rfl⟩ := CodeEdit.model_ok.mp hRead
  have hMethod := Program.methodDef_ok.mp hMethod
  cases hBody : m.body with
  | none =>
      simp only [hBody] at h
      obtain ⟨-, rfl⟩ := Step.pure_ok.mp h
      refine ⟨refl s, hPlacing, fun b _ hThere => ?_⟩
      obtain ⟨m', hMethod', hCode⟩ := Program.body_ok.mp hThere
      obtain rfl := Option.some_inj.mp (hMethod.symm.trans hMethod')
      cases hBody.symm.trans hCode
  | some b =>
      simp only [hBody] at h
      obtain ⟨created, _, hModel, h⟩ := Step.bind_ok.mp h
      obtain ⟨w, hRead, rfl⟩ := work_ok.mp hModel
      obtain ⟨hCreated, rfl⟩ := CodeEdit.model_ok.mp hRead
      obtain ⟨copied, u, hAll, h⟩ := Step.bind_ok.mp h
      obtain ⟨-, rfl⟩ := Step.pure_ok.mp h
      have hThere : s.2.program.body method = .ok b := Program.body_ok.mpr ⟨m, hMethod, hBody⟩
      obtain ⟨hDisplaces, hPlaced, hRedirected⟩ := relocateAll_places hAll hPlacing hThere
      refine ⟨hDisplaces, hPlaced, fun b' display hCode hBuilds => hRedirected display ?_⟩
      obtain rfl := Except.ok.inj (hThere.symm.trans hCode)
      exact Program.mem_createdDisplayClasses hCreated hBuilds

end ClosureEdit

end ContextBinding
