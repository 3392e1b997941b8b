import ContextBinding.Program.Retirement
import ContextBinding.Proofs.Filing

/-! Look-up by name. However a program came about by registering, copying and retiring, what is in
use is found under its name, nothing else is found, and every type lists its members in use. -/

namespace ContextBinding

namespace Program

variable {p q : Program}

section Retirement

theorem modifyType_of_there {id : TypeId} {f : TypeDef → TypeDef} (h : (p.type? id).isSome) :
    modifyType id f p = .ok ⟨⟩ { p.touch with types := p.types.modify id.index f } := by
  obtain ⟨t, hType⟩ := Option.isSome_iff_exists.mp h
  exact Step.bind_ok.mpr ⟨⟨⟩, p.touch, rfl, Step.bind_ok.mpr ⟨p.touch, p.touch, rfl,
    Step.bind_ok.mpr ⟨t, p.touch, Step.lift_ok.mpr ⟨typeDef_ok.mpr hType, rfl⟩, rfl⟩⟩⟩

theorem modifyField_of_there {id : FieldId} {f : FieldDef → FieldDef} (h : (p.field? id).isSome) :
    modifyField id f p = .ok ⟨⟩ { p.touch with fields := p.fields.modify id.index f } := by
  obtain ⟨d, hField⟩ := Option.isSome_iff_exists.mp h
  exact Step.bind_ok.mpr ⟨⟨⟩, p.touch, rfl, Step.bind_ok.mpr ⟨p.touch, p.touch, rfl,
    Step.bind_ok.mpr ⟨d, p.touch, Step.lift_ok.mpr ⟨fieldDef_ok.mpr hField, rfl⟩, rfl⟩⟩⟩

theorem modifyMethod_of_there {id : MethodId} {f : MethodDef → MethodDef}
    (h : (p.method? id).isSome) :
    modifyMethod id f p = .ok ⟨⟩ { p.touch with methods := p.methods.modify id.index f } := by
  obtain ⟨m, hMethod⟩ := Option.isSome_iff_exists.mp h
  exact Step.bind_ok.mpr ⟨⟨⟩, p.touch, rfl, Step.bind_ok.mpr ⟨p.touch, p.touch, rfl,
    Step.bind_ok.mpr ⟨m, p.touch, Step.lift_ok.mpr ⟨methodDef_ok.mpr hMethod, rfl⟩, rfl⟩⟩⟩

/-- The program with a field taken out of use. -/
def withdrawField (p : Program) (id : FieldId) (f : FieldDef) (key : SymbolHash) : Program :=
  { p with
    fieldTable := if p.fieldTable.get? key = some id then p.fieldTable.erase key else p.fieldTable
    types := p.types.modify f.owner.index fun t => { t with fields := t.fields.filter (· != id) }
    fields := p.fields.modify id.index fun f => { f with flags := f.flags.insert .retired }
    edits := p.edits + 2 }

/-- The program with a method taken out of use. -/
def withdrawMethod (p : Program) (id : MethodId) (m : MethodDef) (key : SymbolHash) : Program :=
  { p with
    methodTable :=
      if p.methodTable.get? key = some id then p.methodTable.erase key else p.methodTable
    types := p.types.modify m.owner.index fun t => { t with methods := t.methods.filter (· != id) }
    methods := p.methods.modify id.index fun m => { m with flags := m.flags.insert .retired }
    edits := p.edits + 2 }

theorem retireField_ends {id : FieldId} (h : Ends (retireField id) p q) :
    q = p ∨ ∃ f key, p.field? id = some f ∧ p.fieldHash f.owner f.name = .ok key ∧
      q = p.withdrawField id f key := by
  have h := Ends.of_get_bind h
  rcases h.of_lift_bind with rfl | ⟨f, hField, h⟩
  · exact Or.inl rfl
  rcases h.of_lift_bind with rfl | ⟨key, hKey, h⟩
  · exact Or.inl rfl
  have hField := fieldDef_ok.mp hField
  have hOwner := (fieldHash_ok.mp hKey).1
  refine Or.inr ⟨f, key, hField, hKey, ?_⟩
  have hFieldThere := Option.isSome_iff_exists.mpr ⟨f, hField⟩
  dsimp only at h
  split at h
  · rename_i hEntered
    have h := (h.of_set_bind.of_ok_bind (modifyType_of_there hOwner)).eq_of_ok
      (modifyField_of_there hFieldThere)
    rw [h, withdrawField, if_pos hEntered]
    rfl
  · rename_i hOther
    have h := (h.of_ok_bind (modifyType_of_there hOwner)).eq_of_ok (modifyField_of_there hFieldThere)
    rw [h, withdrawField, if_neg hOther]
    rfl

theorem retireMethod_ends {id : MethodId} (h : Ends (retireMethod id) p q) :
    q = p ∨ ∃ m key, p.method? id = some m ∧ p.methodHash m.owner m.name m.paramTypes = .ok key ∧
      q = p.withdrawMethod id m key := by
  have h := Ends.of_get_bind h
  rcases h.of_lift_bind with rfl | ⟨m, hMethod, h⟩
  · exact Or.inl rfl
  rcases h.of_lift_bind with rfl | ⟨key, hKey, h⟩
  · exact Or.inl rfl
  have hMethod := methodDef_ok.mp hMethod
  have hOwner := (methodHash_ok.mp hKey).1
  refine Or.inr ⟨m, key, hMethod, hKey, ?_⟩
  have hMethodThere := Option.isSome_iff_exists.mpr ⟨m, hMethod⟩
  dsimp only at h
  split at h
  · rename_i hEntered
    have h := (h.of_set_bind.of_ok_bind (modifyType_of_there hOwner)).eq_of_ok
      (modifyMethod_of_there hMethodThere)
    rw [h, withdrawMethod, if_pos hEntered]
    rfl
  · rename_i hOther
    have h := (h.of_ok_bind (modifyType_of_there hOwner)).eq_of_ok
      (modifyMethod_of_there hMethodThere)
    rw [h, withdrawMethod, if_neg hOther]
    rfl

theorem field?_withdrawField (id other : FieldId) (f : FieldDef) (key : SymbolHash) :
    (p.withdrawField id f key).field? other = (p.field? other).map fun d =>
      if id = other then { d with flags := d.flags.insert .retired } else d := by
  rcases id with ⟨i⟩
  rcases other with ⟨j⟩
  simp only [field?, withdrawField, List.getElem?_modify, FieldId.mk.injEq]
  cases p.fields[j]? <;> simp

/-- A field that is retired is neither found nor listed any more. -/
theorem filed_retireField {id : FieldId} : Upholds Filed (retireField id) := by
  intro p q hFiled h
  rcases retireField_ends h with rfl | ⟨f, key, hField, hKey, rfl⟩
  · exact hFiled
  obtain ⟨-, hHash⟩ := fieldHash_ok.mp hKey
  have hTypes : p.NamedAlike (p.withdrawField id f key) := ⟨rfl, rfl, map_modify_eq fun _ => rfl⟩
  have hRenders := hTypes.renders
  have hMethods : p.MethodsAlike (p.withdrawField id f key) :=
    ⟨rfl, rfl, map_modify_eq fun _ => rfl⟩
  refine ⟨hTypes.types hFiled.types, ?_, hMethods.kept hRenders hFiled, fun other f' hOther => ?_,
    hMethods.known hRenders hFiled⟩
  · have hUsed (other : FieldId) : (p.withdrawField id f key).usedField? other =
        if other = id then none else p.usedField? other := by
      by_cases hSame : other = id
      · subst hSame
        simp [usedField?, field?_withdrawField, hField, Option.filter, FieldDef.isRetired,
          FlagSet.has_insert]
      · rw [if_neg hSame]
        exact hRenders.usedField? hFiled (by simp [field?_withdrawField, Ne.symm hSame])
    have hIds : (p.withdrawField id f key).fieldIds = p.fieldIds := by
      simp [fieldIds, withdrawField]
    rw [hIds]
    refine hFiled.fields.retire f.owner (fun entry hEntry => ?_) hUsed
      (lists_modify rfl fun _ => rfl)
    obtain ⟨f', hField', -, rfl⟩ := usedField?_eq_some.mp hEntry
    obtain rfl : f = f' := Option.some_inj.mp (hField.symm.trans hField')
    exact congrArg _ hHash
  · rw [field?_withdrawField, Option.map_eq_some_iff] at hOther
    obtain ⟨d, hBefore, rfl⟩ := hOther
    refine hRenders.isSome (?_ : (p.type? _).isSome)
    split <;> exact hFiled.owners other d hBefore

theorem method?_withdrawMethod (id other : MethodId) (m : MethodDef) (key : SymbolHash) :
    (p.withdrawMethod id m key).method? other = (p.method? other).map fun d =>
      if id = other then { d with flags := d.flags.insert .retired } else d :=
  method?_modify p _ id other

/-- A method that is retired is neither found nor listed any more. -/
theorem filed_retireMethod {id : MethodId} : Upholds Filed (retireMethod id) := by
  intro p q hFiled h
  rcases retireMethod_ends h with rfl | ⟨m, key, hMethod, hKey, rfl⟩
  · exact hFiled
  obtain ⟨-, hHash⟩ := methodHash_ok.mp hKey
  have hTypes : p.NamedAlike (p.withdrawMethod id m key) := ⟨rfl, rfl, map_modify_eq fun _ => rfl⟩
  have hRenders := hTypes.renders
  have hFields : p.FieldsAlike (p.withdrawMethod id m key) := ⟨rfl, rfl, map_modify_eq fun _ => rfl⟩
  refine ⟨hTypes.types hFiled.types, hFields.kept hRenders hFiled, ?_, hFields.owners hRenders hFiled,
    fun other m' hOther => ?_⟩
  · have hUsed (other : MethodId) : (p.withdrawMethod id m key).usedMethod? other =
        if other = id then none else p.usedMethod? other := by
      by_cases hSame : other = id
      · subst hSame
        simp [usedMethod?, method?_withdrawMethod, hMethod, Option.filter, MethodDef.isRetired,
          FlagSet.has_insert]
      · rw [if_neg hSame]
        exact hRenders.usedMethod? hFiled (by simp [method?_withdrawMethod, Ne.symm hSame])
    have hIds : (p.withdrawMethod id m key).methodIds = p.methodIds := by
      simp [methodIds, withdrawMethod]
    rw [hIds]
    refine hFiled.methods.retire m.owner (fun entry hEntry => ?_) hUsed
      (lists_modify rfl fun _ => rfl)
    obtain ⟨m', hMethod', -, rfl⟩ := usedMethod?_eq_some.mp hEntry
    obtain rfl : m = m' := Option.some_inj.mp (hMethod.symm.trans hMethod')
    exact congrArg _ hHash
  · rw [method?_withdrawMethod, Option.map_eq_some_iff] at hOther
    obtain ⟨d, hBefore, rfl⟩ := hOther
    obtain ⟨hThere, hKnown⟩ := hFiled.known other d hBefore
    have hParams : (if id = other then { d with flags := d.flags.insert .retired } else d : MethodDef).paramTypes
        = d.paramTypes := by split <;> rfl
    refine ⟨hRenders.isSome (?_ : (p.type? _).isSome), fun ref hMem => ?_⟩
    · split <;> exact hThere
    · exact hRenders.knows (hKnown ref (hParams ▸ hMem))

end Retirement

section Copies

theorem copyFlags_used (shape : MethodShape) (m : MethodDef) :
    (shape.copyFlags m).has .retired = false := by
  unfold MethodShape.copyFlags
  dsimp only
  split <;> simp [FlagSet.has_erase]

/-- A copy of a method is found and listed with the others, if the type of the parameter that it
gains is there. -/
theorem filed_cloneMethod {id : MethodId} {owner : TypeId} {name : String} {shape : MethodShape}
    (hFiled : p.Filed) (hKnown : ∀ param ∈ shape.leading, p.Knows param.type)
    (h : Ends (cloneMethod id owner name shape) p q) : q.Filed := by
  have h := Ends.of_get_bind h
  rcases h.of_lift_bind with rfl | ⟨source, hSource, h⟩
  · exact hFiled
  have hParams : ∀ param ∈ shape.copyParams source, p.Knows param.type := by
    intro param hMem
    rcases List.mem_append.mp hMem with hLeading | hOwn
    · exact hKnown param (Option.mem_toList.mp hLeading)
    · exact (hFiled.known id source (methodDef_ok.mp hSource)).2 _ (List.mem_map_of_mem hOwn)
  have hAdded {u : Program} (h : Ends (addMethod owner name (shape.copyParams source)
      source.returnType (shape.copyFlags source)) p u) : u.Filed :=
    filed_addMethod (copyFlags_used shape source) hFiled hParams h
  rcases h.bind with h | ⟨copy, u, hAdd, h⟩
  · exact hAdded h
  · refine Upholds.bind (Filed.indifferent.modifyMethod ?_) (fun _ => .pure copy) ?_ h
    · exact fun _ => rfl
    · exact hAdded (Or.inl ⟨copy, hAdd⟩)

theorem Indifferent.remapMembers {I : Program → Prop} (hI : Indifferent I) {id : MethodId}
    {clone : TypeClone} : Upholds I (remapMembers id clone) := by
  refine Upholds.bind .get fun p => Upholds.bind (.lift _) fun m => ?_
  split
  · exact .pure _
  · exact .ite (fun _ => .pure _) fun _ => .bind hI.editBody fun _ => .pure _

/-- What the additions to a copied type uphold is upheld by copying it. -/
theorem Indifferent.cloneType {I : Program → Prop} (hI : Indifferent I)
    (hType : ∀ nameSpace name declaring flags, Upholds I (addType nameSpace name declaring flags))
    (hField : ∀ owner name type flags, flags.has FieldFlag.retired = false →
      Upholds I (addField owner name type flags))
    (hMethod : ∀ id owner name, Upholds I (cloneMethod id owner name .unchanged)) {id : TypeId}
    {declaring : Option TypeId} : Upholds I (cloneType id declaring) := by
  have hFields (copy : TypeId) (ids : List FieldId) (clone : TypeClone) :
      Upholds I (cloneFields copy ids clone) := by
    induction ids generalizing clone with
    | nil => exact .pure _
    | cons id ids ih =>
        rw [cloneFields]
        refine Upholds.bind .get fun p => Upholds.bind (.lift _) fun f => .ite (fun _ => ih clone) ?_
        intro hUsed
        exact .bind (hField _ _ _ _ (by simpa [FieldDef.isRetired] using hUsed)) fun _ => ih _
  have hMethods (copy : TypeId) (ids : List MethodId) (clone : TypeClone) :
      Upholds I (cloneMethods copy ids clone) := by
    induction ids generalizing clone with
    | nil => exact .pure _
    | cons id ids ih =>
        rw [cloneMethods]
        refine Upholds.bind .get fun p => Upholds.bind (.lift _) fun m => ?_
        exact Upholds.bind (hMethod ..) fun _ => ih _
  refine Upholds.bind .get fun p => Upholds.bind (.lift _) fun source =>
    Upholds.bind (hType ..) fun copy => Upholds.bind (hI.modifyType ?_) fun _ =>
    Upholds.bind (hFields ..) fun _ => Upholds.bind (hMethods ..) fun clone => ?_
  · exact fun _ => ⟨rfl, rfl, rfl⟩
  · refine Upholds.bind (.forM fun m => .bind hI.remapMembers fun _ => .pure _) fun _ => ?_
    exact Upholds.bind (.forM fun property => hI.addProperty) fun _ => .pure _

/-- A copied type is found, with the copies of its members. -/
theorem filed_cloneType {id : TypeId} {declaring : Option TypeId} :
    Upholds Filed (cloneType id declaring) :=
  Filed.indifferent.cloneType (fun _ _ _ _ => filed_addType) (fun _ _ _ _ => filed_addField)
    fun _ _ _ _ _ hFiled h => filed_cloneMethod hFiled (by simp [MethodShape.unchanged]) h

end Copies

end Program

/-- A change that can be asked of a program. -/
inductive Change where
  | addType (nameSpace name : String) (declaring : Option TypeId) (flags : FlagSet TypeFlag)
  | setBase (id : TypeId) (base : TypeRef)
  | addInterface (id interface : TypeId)
  | addField (owner : TypeId) (name : String) (type : TypeRef) (flags : FlagSet FieldFlag)
  | addMethod (owner : TypeId) (name : String) (params : List Param) (returnType : TypeRef)
      (flags : FlagSet MethodFlag)
  | setBody (id : MethodId) (body : MethodBody)
  | addProperty (owner : TypeId) (property : PropertyDef)
  | cloneMethod (id : MethodId) (owner : TypeId) (name : String) (shape : MethodShape)
  | cloneType (id : TypeId) (declaring : Option TypeId)
  | retireMethod (id : MethodId)
  | retireField (id : FieldId)

namespace Change

/-- Ask for a change. -/
def make : Change → Edit Unit
  | addType nameSpace name declaring flags => do
    let _ ← Program.addType nameSpace name declaring flags
  | setBase id base => Program.setBase id base
  | addInterface id interface => Program.addInterface id interface
  | addField owner name type flags => do
    let _ ← Program.addField owner name type flags
  | addMethod owner name params returnType flags => do
    let _ ← Program.addMethod owner name params returnType flags
  | setBody id body => Program.setBody id body
  | addProperty owner property => Program.addProperty owner property
  | cloneMethod id owner name shape => do
    let _ ← Program.cloneMethod id owner name shape
  | cloneType id declaring => do
    let _ ← Program.cloneType id declaring
  | retireMethod id => Program.retireMethod id
  | retireField id => Program.retireField id

/-- The change adds nothing that is out of use from the start. -/
def Live : Change → Prop
  | addField _ _ _ flags => flags.has .retired = false
  | addMethod _ _ _ _ flags => flags.has .retired = false
  | _ => True

/-- The types that the change names as those of parameters are there. -/
def Known (p : Program) : Change → Prop
  | addMethod _ _ params _ _ => ∀ param ∈ params, p.Knows param.type
  | cloneMethod _ _ _ shape => ∀ param ∈ shape.leading, p.Knows param.type
  | _ => True

instance : DecidablePred Live
  | addField _ _ _ flags => inferInstanceAs (Decidable (flags.has .retired = false))
  | addMethod _ _ _ _ flags => inferInstanceAs (Decidable (flags.has .retired = false))
  | addType .. | setBase .. | addInterface .. | setBody .. | addProperty .. | cloneMethod ..
  | cloneType .. | retireMethod .. | retireField .. => instDecidableTrue

instance (p : Program) : DecidablePred (Known p)
  | addMethod _ _ params _ _ => inferInstanceAs (Decidable (∀ param ∈ params, p.Knows param.type))
  | cloneMethod _ _ _ shape =>
    inferInstanceAs (Decidable (∀ param ∈ shape.leading, p.Knows param.type))
  | addType .. | setBase .. | addInterface .. | addField .. | setBody .. | addProperty ..
  | cloneType .. | retireMethod .. | retireField .. => instDecidableTrue

/-- The program that a change leaves, whether it succeeds or not. -/
def after (p : Program) (c : Change) : Program :=
  match c.make p with
  | .ok _ q => q
  | .error _ q => q

theorem ends_after (p : Program) (c : Change) : Ends c.make p (after p c) := by
  unfold after
  cases hRun : c.make p with
  | ok a q => exact Or.inl ⟨a, hRun⟩
  | error e q => exact Or.inr ⟨e, hRun⟩

/-- A change ends where the step that it asks for does. -/
theorem ends_of_discarded {α : Type} {x : Edit α} {p q : Program}
    (h : Ends (do let _ ← x : Edit Unit) p q) : Ends x p q := by
  rcases h.bind with h | ⟨a, u, hRun, h⟩
  · exact h
  · exact Or.inl ⟨a, h.pure ▸ hRun⟩

/-- Each change keeps the tables and lists right. -/
theorem filed_after {p : Program} (hFiled : p.Filed) {c : Change} (hLive : c.Live)
    (hKnown : c.Known p) : (after p c).Filed := by
  have hEnds := ends_after p c
  cases c with
  | addType => exact Program.filed_addType hFiled (ends_of_discarded hEnds)
  | setBase => exact Program.Filed.indifferent.setBase hFiled hEnds
  | addInterface => exact Program.Filed.indifferent.addInterface hFiled hEnds
  | addField => exact Program.filed_addField hLive hFiled (ends_of_discarded hEnds)
  | addMethod => exact Program.filed_addMethod hLive hFiled hKnown (ends_of_discarded hEnds)
  | setBody => exact Program.Filed.indifferent.setBody hFiled hEnds
  | addProperty => exact Program.Filed.indifferent.addProperty hFiled hEnds
  | cloneMethod => exact Program.filed_cloneMethod hFiled hKnown (ends_of_discarded hEnds)
  | cloneType => exact Program.filed_cloneType hFiled (ends_of_discarded hEnds)
  | retireMethod => exact Program.filed_retireMethod hFiled hEnds
  | retireField => exact Program.filed_retireField hFiled hEnds

end Change

namespace Program

/-- The programs that come about over a digest by changes that name types of parameters only once
they are there. -/
inductive Reached (digest : String → UInt64) : Program → Prop where
  | start : Reached digest (.withDigest digest)
  | step {p : Program} {c : Change} (prior : Reached digest p) (live : c.Live)
      (known : c.Known p) : Reached digest (c.after p)

/-- What is in use is found under its name, nothing else is found, and every type lists the fields
and methods of its own that are in use, in the order of their registration. -/
structure Searchable (p : Program) : Prop where
  type : ∀ id t, p.type? id = some t → p.findType? t.fullName = some id
  field : ∀ id f, p.field? id = some f → f.isRetired = false → p.findField? f.owner f.name = some id
  method : ∀ id m, p.method? id = some m → m.isRetired = false → (p.parts m).Readable →
    p.findMethod? (p.identity id) = some id
  fieldFound : ∀ owner name id, p.findField? owner name = some id →
    ∃ f, p.field? id = some f ∧ f.isRetired = false
  methodFound : ∀ text id, p.findMethod? text = some id →
    ∃ m, p.method? id = some m ∧ m.isRetired = false
  methodsFound : ∀ owner name, ∀ id ∈ p.findMethods owner name,
    ∃ m, p.method? id = some m ∧ m.isRetired = false ∧ m.owner = owner ∧ m.name = name
  fields : ∀ owner t, p.type? owner = some t → t.fields = p.fieldIds.filter fun id =>
    (p.field? id).any fun f => f.owner == owner && !f.isRetired
  methods : ∀ owner t, p.type? owner = some t → t.methods = p.methodIds.filter fun id =>
    (p.method? id).any fun m => m.owner == owner && !m.isRetired

/-- Changes that can be asked of a program one after the other. -/
def Admits (p : Program) : List Change → Prop
  | [] => True
  | c :: rest => c.Live ∧ c.Known p ∧ (c.after p).Admits rest

instance decidableAdmits (p : Program) : (changes : List Change) → Decidable (p.Admits changes)
  | [] => instDecidableTrue
  | c :: rest =>
    have := decidableAdmits (c.after p) rest
    inferInstanceAs (Decidable (_ ∧ _ ∧ _))

theorem Reached.run {digest : String → UInt64} {p : Program} (h : p.Reached digest)
    {changes : List Change} (hChanges : p.Admits changes) :
    (changes.foldl Change.after p).Reached digest := by
  induction changes generalizing p with
  | nil => exact h
  | cons c rest ih =>
      obtain ⟨hLive, hKnown, hRest⟩ := hChanges
      exact ih (h.step hLive hKnown) hRest

theorem filed_withDigest (digest : String → UInt64) : (withDigest digest).Filed where
  types key id := by simp [withDigest, Table.get?_empty, typeKey?, type?]
  fields := ⟨fun key id => by simp [withDigest, Table.get?_empty, usedField?, field?],
    fun _ _ h => by simp [withDigest, type?] at h⟩
  methods := ⟨fun key id => by simp [withDigest, Table.get?_empty, usedMethod?, method?],
    fun _ _ h => by simp [withDigest, type?] at h⟩
  owners _ _ h := by simp [withDigest, field?] at h
  known _ _ h := by simp [withDigest, method?] at h

theorem Reached.filed {digest : String → UInt64} {p : Program} (h : p.Reached digest) : p.Filed := by
  induction h with
  | start => exact filed_withDigest digest
  | step prior live known ih => exact Change.filed_after ih live known

theorem usedField?_any {p : Program} (id : FieldId) (owner : TypeId) :
    (p.usedField? id).any (·.1 == owner) =
      (p.field? id).any fun f => f.owner == owner && !f.isRetired := by
  unfold usedField?
  cases p.field? id with
  | none => rfl
  | some f => cases hRetired : f.isRetired <;> simp [Option.filter, hRetired]

theorem usedMethod?_any {p : Program} (id : MethodId) (owner : TypeId) :
    (p.usedMethod? id).any (·.1 == owner) =
      (p.method? id).any fun m => m.owner == owner && !m.isRetired := by
  unfold usedMethod?
  cases p.method? id with
  | none => rfl
  | some m => cases hRetired : m.isRetired <;> simp [Option.filter, hRetired]

theorem findField?_eq_some {p : Program} {owner : TypeId} {name : String} {id : FieldId} :
    p.findField? owner name = some id ↔
      ∃ key, p.fieldHash owner name = .ok key ∧ p.fieldTable.get? key = some id := by
  unfold findField?
  cases p.fieldHash owner name <;> simp

/-- Tables that hold what is in use make a program searchable. -/
theorem Filed.isSearchable {p : Program} (h : p.Filed) : p.Searchable := by
  have hMethodOf {key : SymbolHash} {id : MethodId} (hFound : p.methodTable.get? key = some id) :
      ∃ m, p.method? id = some m ∧ m.isRetired = false := by
    obtain ⟨entry, hEntry, -⟩ := Option.map_eq_some_iff.mp ((h.methods.filed key id).mp hFound)
    obtain ⟨m, hMethod, hUsed, -⟩ := usedMethod?_eq_some.mp hEntry
    exact ⟨m, hMethod, hUsed⟩
  have hMethods (owner : TypeId) (t : TypeDef) (hType : p.type? owner = some t) :
      t.methods = p.methodIds.filter fun id =>
        (p.method? id).any fun m => m.owner == owner && !m.isRetired := by
    simpa only [usedMethod?_any] using
      h.methods.listed owner t.methods (Option.map_eq_some_iff.mpr ⟨t, hType, rfl⟩)
  constructor
  case type =>
    intro id t hType
    exact (h.types _ id).mpr (Option.map_eq_some_iff.mpr ⟨t, hType, rfl⟩)
  case field =>
    intro id f hField hUsed
    refine findField?_eq_some.mpr ⟨_, fieldHash_ok.mpr ⟨h.owners id f hField, rfl⟩, ?_⟩
    exact (h.fields.filed _ id).mpr (Option.map_eq_some_iff.mpr
      ⟨_, usedField?_eq_some.mpr ⟨f, hField, hUsed, rfl⟩, rfl⟩)
  case method =>
    intro id m hMethod hUsed hReadable
    rw [identity_eq hMethod, findMethod?_eq, IdentityParts.ofText?_text hReadable, Option.bind_some]
    exact (h.methods.filed _ id).mpr (Option.map_eq_some_iff.mpr
      ⟨_, usedMethod?_eq_some.mpr ⟨m, hMethod, hUsed, rfl⟩, rfl⟩)
  case fieldFound =>
    intro owner name id hFound
    obtain ⟨key, -, hEntered⟩ := findField?_eq_some.mp hFound
    obtain ⟨entry, hEntry, -⟩ := Option.map_eq_some_iff.mp ((h.fields.filed key id).mp hEntered)
    obtain ⟨f, hField, hUsed, -⟩ := usedField?_eq_some.mp hEntry
    exact ⟨f, hField, hUsed⟩
  case methodFound =>
    intro text id hFound
    rw [findMethod?_eq, Option.bind_eq_some_iff] at hFound
    obtain ⟨parts, -, hEntered⟩ := hFound
    exact hMethodOf hEntered
  case methodsFound =>
    intro owner name id hFound
    unfold findMethods methodsWhere at hFound
    cases hType : p.type? owner with
    | none => simp [hType] at hFound
    | some t =>
        simp only [hType, List.mem_filter, hMethods owner t hType] at hFound
        obtain ⟨⟨-, hListed⟩, hNamed⟩ := hFound
        cases hMethod : p.method? id with
        | none => simp [hMethod] at hListed
        | some m =>
            simp only [hMethod, Option.any_some, Bool.and_eq_true, beq_iff_eq, Bool.not_eq_true'] at hListed hNamed
            exact ⟨m, rfl, hListed.2, hListed.1, hNamed⟩
  case fields =>
    intro owner t hType
    simpa only [usedField?_any] using
      h.fields.listed owner t.fields (Option.map_eq_some_iff.mpr ⟨t, hType, rfl⟩)
  case methods => exact hMethods

/-- Whatever a program went through, what is in use is found and listed, and nothing else. -/
theorem Reached.searchable {digest : String → UInt64} {p : Program} (h : p.Reached digest) :
    p.Searchable :=
  h.filed.isSearchable

section Examples

/-- A method that is retired and registered once more, with an array of its own type. -/
def reinstatement : List Change :=
  [.addType "G" "T" none ⟨0⟩, .addMethod ⟨0⟩ "f" [⟨"a", .array (.named ⟨0⟩)⟩] .void ⟨0⟩,
    .retireMethod ⟨0⟩, .addMethod ⟨0⟩ "f" [⟨"a", .array (.named ⟨0⟩)⟩] .int32 ⟨0⟩]

theorem reinstatement_searchable : reinstatement.foldl Change.after .empty |>.Searchable :=
  Reached.searchable (Reached.start.run (by decide +kernel))

/-- A method with a parameter of a type that is registered after it. -/
def anticipation : List Change :=
  [.addType "G" "T" none ⟨0⟩, .addMethod ⟨0⟩ "f" [⟨"a", .named ⟨1⟩⟩] .void ⟨0⟩,
    .addType "G" "U" none ⟨0⟩]

/-- Such a method stays under the key that it got when its parameter had no name yet. -/
theorem anticipation_not_searchable : (∀ c ∈ anticipation, c.Live) ∧
    ¬ (anticipation.foldl Change.after .empty).Searchable := by
  refine ⟨by decide, fun h => ?_⟩
  have hFound := h.method ⟨0⟩ ⟨⟨0⟩, "f", [⟨"a", .named ⟨1⟩⟩], .void, ⟨0⟩, [], none⟩
    (by decide +kernel) (by decide) (by decide +kernel)
  have hLost : (anticipation.foldl Change.after .empty).findMethod?
      ((anticipation.foldl Change.after .empty).identity ⟨0⟩) = none := by decide +kernel
  cases hLost.symm.trans hFound

end Examples

end Program

end ContextBinding
