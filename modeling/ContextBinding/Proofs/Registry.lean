import ContextBinding.Proofs.Collision

/-! Registering what is free. A type, a field or a method is registered if its owner is there and
nothing is called like it, provided that the digest tells the names apart; the program then has its
name besides those that it had. -/

namespace ContextBinding

/-- Nothing is found under a key that nothing has. -/
theorem Holds.get?_eq_none {ι : Type} {table : Table SymbolHash ι} {key? : ι → Option SymbolHash}
    (h : Holds table key?) {key : SymbolHash} :
    table.get? key = none ↔ ∀ id, key? id ≠ some key := by
  rw [Option.eq_none_iff_forall_ne_some]
  exact forall_congr' fun id => not_congr (h key id)

/-- What is registered, by name: types, fields with their owners, and methods. -/
@[ext]
structure Registry where
  types : List String
  fields : List (String × String)
  methods : List IdentityParts

namespace Registry

instance : Append Registry :=
  ⟨fun a b => ⟨a.types ++ b.types, a.fields ++ b.fields, a.methods ++ b.methods⟩⟩

@[simp] theorem types_append (a b : Registry) : (a ++ b).types = a.types ++ b.types := rfl

@[simp] theorem fields_append (a b : Registry) : (a ++ b).fields = a.fields ++ b.fields := rfl

@[simp] theorem methods_append (a b : Registry) : (a ++ b).methods = a.methods ++ b.methods := rfl

protected theorem append_assoc (a b c : Registry) : a ++ b ++ c = a ++ (b ++ c) := by
  ext1 <;> simp

/-- The key of a field with the given owner and name. -/
def fieldHash (digest : String → UInt64) (field : String × String) : SymbolHash :=
  .ofField digest (.ofType digest field.1) field.2

/-- No two names have the same key. -/
structure Apart (digest : String → UInt64) (r : Registry) : Prop where
  types : Set.InjOn (SymbolHash.ofType digest) { name | name ∈ r.types }
  fields : Set.InjOn (fieldHash digest) { field | field ∈ r.fields }
  methods : Set.InjOn (IdentityParts.hash digest) { parts | parts ∈ r.methods }

instance (digest : String → UInt64) (r : Registry) : Decidable (r.Apart digest) :=
  decidable_of_iff
    ((∀ a ∈ r.types, ∀ b ∈ r.types,
        SymbolHash.ofType digest a = SymbolHash.ofType digest b → a = b) ∧
      (∀ a ∈ r.fields, ∀ b ∈ r.fields, fieldHash digest a = fieldHash digest b → a = b) ∧
      ∀ a ∈ r.methods, ∀ b ∈ r.methods, a.hash digest = b.hash digest → a = b)
    ⟨fun ⟨hTypes, hFields, hMethods⟩ => ⟨fun a ha b hb => hTypes a ha b hb,
        fun a ha b hb => hFields a ha b hb, fun a ha b hb => hMethods a ha b hb⟩,
      fun h => ⟨fun _ ha _ hb => h.types ha hb, fun _ ha _ hb => h.fields ha hb,
        fun _ ha _ hb => h.methods ha hb⟩⟩

/-- All that one registry has is in the other. -/
structure Within (a b : Registry) : Prop where
  types : a.types ⊆ b.types
  fields : a.fields ⊆ b.fields
  methods : a.methods ⊆ b.methods

protected theorem Within.trans {a b c : Registry} (h : a.Within b) (h' : b.Within c) : a.Within c :=
  ⟨List.Subset.trans h.types h'.types, List.Subset.trans h.fields h'.fields,
    List.Subset.trans h.methods h'.methods⟩

theorem within_append (a b : Registry) : a.Within (a ++ b) :=
  ⟨List.subset_append_left _ _, List.subset_append_left _ _, List.subset_append_left _ _⟩

theorem Within.append {a b : Registry} (h : a.Within b) (c : Registry) :
    (a ++ c).Within (b ++ c) := by
  have hList {α : Type} {l l' : List α} (hl : l ⊆ l') (more : List α) : l ++ more ⊆ l' ++ more :=
    List.append_subset.mpr ⟨List.subset_append_of_subset_left _ hl, List.subset_append_right _ _⟩
  exact ⟨hList h.types _, hList h.fields _, hList h.methods _⟩

theorem Apart.of_within {digest : String → UInt64} {a b : Registry} (h : b.Apart digest)
    (hWithin : a.Within b) : a.Apart digest :=
  ⟨h.types.mono hWithin.types, h.fields.mono hWithin.fields, h.methods.mono hWithin.methods⟩

/-- What is apart from all that is to come is apart from the first of it. -/
theorem Apart.first {digest : String → UInt64} {a b c : Registry}
    (h : (a ++ (b ++ c)).Apart digest) : (a ++ b).Apart digest := by
  rw [← Registry.append_assoc] at h
  exact h.of_within (within_append _ c)

end Registry

namespace Program

variable {p q r : Program}

/-- What is registered in a program and in use. -/
def registry (p : Program) : Registry where
  types := p.types.map (·.fullName)
  fields := p.fields.filterMap fun f =>
    if f.isRetired then none else some (p.typeName f.owner, f.name)
  methods := p.methods.filterMap fun m => if m.isRetired then none else some (p.parts m)

section Names

theorem mem_registry_types {name : String} :
    name ∈ p.registry.types ↔ ∃ id t, p.type? id = some t ∧ t.fullName = name := by
  constructor
  · intro h
    obtain ⟨t, hMem, rfl⟩ := List.mem_map.mp h
    obtain ⟨i, hAt⟩ := List.mem_iff_getElem?.mp hMem
    exact ⟨⟨i⟩, t, hAt, rfl⟩
  · rintro ⟨id, t, hAt, rfl⟩
    exact List.mem_map_of_mem (List.mem_of_getElem? hAt)

theorem mem_registry_fields {field : String × String} :
    field ∈ p.registry.fields ↔ ∃ id f, p.field? id = some f ∧ f.isRetired = false ∧
      (p.typeName f.owner, f.name) = field := by
  constructor
  · intro h
    obtain ⟨f, hMem, hName⟩ := List.mem_filterMap.mp h
    obtain ⟨i, hAt⟩ := List.mem_iff_getElem?.mp hMem
    exact ⟨⟨i⟩, f, hAt, by simpa using hName⟩
  · rintro ⟨id, f, hAt, hUsed, rfl⟩
    exact List.mem_filterMap.mpr ⟨f, List.mem_of_getElem? hAt, by simp [hUsed]⟩

theorem mem_registry_methods {parts : IdentityParts} :
    parts ∈ p.registry.methods ↔
      ∃ id m, p.method? id = some m ∧ m.isRetired = false ∧ p.parts m = parts := by
  constructor
  · intro h
    obtain ⟨m, hMem, hName⟩ := List.mem_filterMap.mp h
    obtain ⟨i, hAt⟩ := List.mem_iff_getElem?.mp hMem
    exact ⟨⟨i⟩, m, hAt, by simpa using hName⟩
  · rintro ⟨id, m, hAt, hUsed, rfl⟩
    exact List.mem_filterMap.mpr ⟨m, List.mem_of_getElem? hAt, by simp [hUsed]⟩

theorem typeName_mem {id : TypeId} (h : (p.type? id).isSome) :
    p.typeName id ∈ p.registry.types := by
  obtain ⟨t, hType⟩ := Option.isSome_iff_exists.mp h
  exact mem_registry_types.mpr ⟨id, t, hType, (typeName_eq hType).symm⟩

/-- The owners of what is registered are registered. -/
theorem Filed.field_owner (h : p.Filed) {field : String × String}
    (hField : field ∈ p.registry.fields) : field.1 ∈ p.registry.types := by
  obtain ⟨id, f, hAt, -, rfl⟩ := mem_registry_fields.mp hField
  exact typeName_mem (h.owners id f hAt)

theorem Filed.method_owner (h : p.Filed) {parts : IdentityParts}
    (hMethod : parts ∈ p.registry.methods) : parts.owner ∈ p.registry.types := by
  obtain ⟨id, m, hAt, -, rfl⟩ := mem_registry_methods.mp hMethod
  exact typeName_mem (h.known id m hAt).1

end Names

section Free

/-- The key of a type is taken if a type has its name. -/
theorem Filed.type_taken (h : p.Filed) {name : String} (hMem : name ∈ p.registry.types) :
    p.typeTable.contains (.ofType p.digest name) = true := by
  obtain ⟨id, t, hType, rfl⟩ := mem_registry_types.mp hMem
  have hKey : p.typeKey? id = some (.ofType p.digest t.fullName) := by
    rw [typeKey?, hType]
    rfl
  rw [Table.contains, (h.types _ id).mpr hKey]
  rfl

/-- The key of a type is free if no type has its name. -/
theorem Filed.type_free (h : p.Filed) {name : String} {new : Registry}
    (hApart : (p.registry ++ new).Apart p.digest) (hNew : name ∈ new.types)
    (hFree : name ∉ p.registry.types) : p.typeTable.get? (.ofType p.digest name) = none := by
  refine h.types.get?_eq_none.mpr fun id hKey => ?_
  obtain ⟨t, hType, hSame⟩ := Option.map_eq_some_iff.mp hKey
  have hMem : t.fullName ∈ p.registry.types := mem_registry_types.mpr ⟨id, t, hType, rfl⟩
  have hEq := hApart.types (List.mem_append_left _ hMem) (List.mem_append_right _ hNew) hSame
  exact hFree (hEq ▸ hMem)

theorem Filed.field_free (h : p.Filed) {field : String × String} {new : Registry}
    (hApart : (p.registry ++ new).Apart p.digest) (hNew : field ∈ new.fields)
    (hFree : field ∉ p.registry.fields) :
    p.fieldTable.get? (Registry.fieldHash p.digest field) = none := by
  refine h.fields.filed.get?_eq_none.mpr fun id hKey => ?_
  obtain ⟨entry, hEntry, hSame⟩ := Option.map_eq_some_iff.mp hKey
  obtain ⟨f, hField, hUsed, rfl⟩ := usedField?_eq_some.mp hEntry
  have hMem : (p.typeName f.owner, f.name) ∈ p.registry.fields :=
    mem_registry_fields.mpr ⟨id, f, hField, hUsed, rfl⟩
  have hEq := hApart.fields (List.mem_append_left _ hMem) (List.mem_append_right _ hNew) hSame
  exact hFree (hEq ▸ hMem)

theorem Filed.method_free (h : p.Filed) {parts : IdentityParts} {new : Registry}
    (hApart : (p.registry ++ new).Apart p.digest) (hNew : parts ∈ new.methods)
    (hFree : parts ∉ p.registry.methods) : p.methodTable.get? (parts.hash p.digest) = none := by
  refine h.methods.filed.get?_eq_none.mpr fun id hKey => ?_
  obtain ⟨entry, hEntry, hSame⟩ := Option.map_eq_some_iff.mp hKey
  obtain ⟨m, hMethod, hUsed, rfl⟩ := usedMethod?_eq_some.mp hEntry
  have hMem : p.parts m ∈ p.registry.methods :=
    mem_registry_methods.mpr ⟨id, m, hMethod, hUsed, rfl⟩
  have hEq := hApart.methods (List.mem_append_left _ hMem) (List.mem_append_right _ hNew) hSame
  exact hFree (hEq ▸ hMem)

end Free

section Registers

/-- The names of types stay where the list of them is only added to. -/
theorem type?_of_prefix (h : p.types.map (·.name) <+: q.types.map (·.name)) {id : TypeId}
    {t : TypeDef} (hType : p.type? id = some t) :
    ∃ t', q.type? id = some t' ∧ t'.name = t.name := by
  obtain ⟨more, hMore⟩ := h
  have hIndex : id.index < (p.types.map (·.name)).length := by
    simpa using (List.getElem?_eq_some_iff.mp hType).1
  have hAt : (q.types.map (·.name))[id.index]? = some t.name := by
    rw [← hMore, List.getElem?_append_left hIndex, List.getElem?_map, ← type?, hType]
    rfl
  rwa [List.getElem?_map, Option.map_eq_some_iff] at hAt

protected theorem Renders.refl (p : Program) : p.Renders p := ⟨rfl, fun _ t h => ⟨t, h, rfl⟩⟩

protected theorem Renders.trans (h : p.Renders q) (h' : q.Renders r) : p.Renders r where
  digest := h'.digest.trans h.digest
  types id t hType := by
    obtain ⟨t', hType', hSame⟩ := h.types id t hType
    obtain ⟨t'', hType'', hSame'⟩ := h'.types id t' hType'
    exact ⟨t'', hType'', hSame'.trans hSame⟩

theorem Grows.renders (h : p.Grows q) : p.Renders q :=
  ⟨h.digest, fun _ _ hType => (h.type hType).imp fun _ h => ⟨h.1, h.2.fullName⟩⟩

/-- The fields that were in use are named as before. -/
theorem Renders.usedFields (h : p.Renders q) (hFiled : p.Filed) :
    p.fields.filterMap (fun f => if f.isRetired then none else some (q.typeName f.owner, f.name))
      = p.registry.fields := by
  refine List.filterMap_congr fun f hMem => ?_
  obtain ⟨i, hAt⟩ := List.mem_iff_getElem?.mp hMem
  rw [h.typeName (hFiled.owners ⟨i⟩ f hAt)]

/-- The methods that were in use are named as before. -/
theorem Renders.usedMethods (h : p.Renders q) (hFiled : p.Filed) :
    p.methods.filterMap (fun m => if m.isRetired then none else some (q.parts m))
      = p.registry.methods := by
  refine List.filterMap_congr fun m hMem => ?_
  obtain ⟨i, hAt⟩ := List.mem_iff_getElem?.mp hMem
  obtain ⟨hOwner, hParams⟩ := hFiled.known ⟨i⟩ m hAt
  rw [h.parts hOwner hParams]

/-- The program becomes one that has some names more, and is otherwise named as before. -/
structure Registers (p q : Program) (new : Registry) : Prop where
  filed : q.Filed
  renders : p.Renders q
  typeNames : p.types.map (·.name) <+: q.types.map (·.name)
  registry : q.registry = p.registry ++ new

protected theorem Registers.trans {new more : Registry} (h : p.Registers q new)
    (h' : q.Registers r more) : p.Registers r (new ++ more) where
  filed := h'.filed
  renders := h.renders.trans h'.renders
  typeNames := h.typeNames.trans h'.typeNames
  registry := by rw [h'.registry, h.registry, Registry.append_assoc]

/-- What is still to be registered is apart from what there is then. -/
theorem Registers.apart {new more : Registry} (h : p.Registers q new)
    (hApart : (p.registry ++ (new ++ more)).Apart p.digest) :
    (q.registry ++ more).Apart q.digest := by
  rw [h.registry, h.renders.digest, Registry.append_assoc]
  exact hApart

/-- The program with one more type, under a key, listed with the type that encloses it. -/
def declareType (p : Program) (t : TypeDef) (key : SymbolHash) : Program :=
  { p.appendType t key with
    types := match t.declaring with
      | some outer => (p.types ++ [t]).modify outer.index fun t' =>
        { t' with nested := t'.nested ++ [⟨p.types.length⟩] }
      | none => p.types ++ [t] }

/-- A new type differs from the others in nothing but that it is nested in one of them. -/
theorem declareType_types {β : Type} {g : TypeDef → β} (t : TypeDef) (key : SymbolHash)
    (hg : ∀ t' nested, g { t' with nested := nested } = g t') :
    (p.declareType t key).types.map g = p.types.map g ++ [g t] := by
  unfold declareType
  cases t.declaring with
  | none => simp
  | some outer =>
      simpa using map_modify_eq (i := outer.index) (l := p.types ++ [t]) fun t' => hg t' _

/-- A type is registered, or refused because its key is taken. -/
theorem addType_eq {nameSpace name fullName : String} {declaring : Option TypeId}
    {flags : FlagSet TypeFlag} (hName : p.qualifiedName nameSpace name declaring = .ok fullName) :
    addType nameSpace name declaring flags p =
      if p.typeTable.contains (.ofType p.digest fullName) then .error (.duplicateType fullName) p
      else .ok ⟨p.types.length⟩ (p.declareType ⟨if declaring.isSome then "" else nameSpace, name,
        fullName, declaring, none, [], [], [], [], [], flags⟩ (.ofType p.digest fullName)) := by
  have hLook {f : String → Edit TypeId} :
      ((monadLift (p.qualifiedName nameSpace name declaring) : Edit String) >>= f) p
        = f fullName p :=
    Step.bind_of_ok (Step.lift_ok.mpr ⟨hName, rfl⟩)
  refine hLook.trans ?_
  dsimp only
  split <;> rfl

/-- A type is registered if what encloses it is there and no type has its full name. -/
theorem addType_registers (hFiled : p.Filed) {nameSpace name fullName : String}
    {declaring : Option TypeId}
    (hName : p.qualifiedName nameSpace name declaring = .ok fullName) (flags : FlagSet TypeFlag)
    (hApart : (p.registry ++ ⟨[fullName], [], []⟩).Apart p.digest)
    (hFree : fullName ∉ p.registry.types) :
    ∃ q, addType nameSpace name declaring flags p = .ok ⟨p.types.length⟩ q ∧
      p.Registers q ⟨[fullName], [], []⟩ ∧
      ∃ t, q.type? ⟨p.types.length⟩ = some t ∧ t.fullName = fullName := by
  have hKey := hFiled.type_free hApart (List.mem_singleton_self _) hFree
  let entry : TypeDef := ⟨if declaring.isSome then "" else nameSpace, name, fullName, declaring,
    none, [], [], [], [], [], flags⟩
  have hRun : addType nameSpace name declaring flags p = _ := addType_eq hName
  rw [Table.contains, hKey, Option.isSome_none, if_neg Bool.false_ne_true] at hRun
  obtain ⟨-, hGrows, -⟩ := addType_ok hRun
  have hRenders := hGrows.renders
  have hFull : (p.declareType entry (.ofType p.digest fullName)).types.map (·.fullName)
      = p.types.map (·.fullName) ++ [fullName] := declareType_types entry _ fun _ _ => rfl
  refine ⟨_, hRun, ⟨filed_addType hFiled (Or.inl ⟨_, hRun⟩), hRenders, ?_, ?_⟩, ?_⟩
  · exact ⟨_, (declareType_types entry _ fun _ _ => rfl).symm⟩
  · exact Registry.ext hFull ((hRenders.usedFields hFiled).trans (List.append_nil _).symm)
      ((hRenders.usedMethods hFiled).trans (List.append_nil _).symm)
  · have hAt := congrArg (·[p.types.length]?) hFull
    simpa [type?] using hAt

/-- A field of a type that is there is registered, or refused because its key is taken. -/
theorem addField_eq {owner : TypeId} {name : String} {type : TypeRef} {flags : FlagSet FieldFlag}
    (hOwner : (p.type? owner).isSome) :
    addField owner name type flags p =
      if p.fieldTable.contains (Registry.fieldHash p.digest (p.typeName owner, name)) then
        .error (.duplicateField (p.typeName owner ++ "::" ++ name)) p
      else .ok ⟨p.fields.length⟩ (p.appendField ⟨owner, name, type, flags⟩
        (Registry.fieldHash p.digest (p.typeName owner, name))) := by
  have hKey : p.fieldHash owner name = .ok (Registry.fieldHash p.digest (p.typeName owner, name)) :=
    fieldHash_ok.mpr ⟨hOwner, rfl⟩
  have hLook {f : SymbolHash → Edit FieldId} :
      ((monadLift (p.fieldHash owner name) : Edit SymbolHash) >>= f) p = f _ p :=
    Step.bind_of_ok (Step.lift_ok.mpr ⟨hKey, rfl⟩)
  refine hLook.trans ?_
  dsimp only
  split <;> rfl

/-- A field is registered if its owner is there and has no field of the name. -/
theorem addField_registers (hFiled : p.Filed) {owner : TypeId} {ownerName name : String}
    (type : TypeRef) (flags : FlagSet FieldFlag) (hFlags : flags.has .retired = false)
    (hOwner : (p.type? owner).isSome) (hName : p.typeName owner = ownerName)
    (hApart : (p.registry ++ ⟨[], [(ownerName, name)], []⟩).Apart p.digest)
    (hFree : (ownerName, name) ∉ p.registry.fields) :
    ∃ q, addField owner name type flags p = .ok ⟨p.fields.length⟩ q ∧
      p.Registers q ⟨[], [(ownerName, name)], []⟩ := by
  subst hName
  have hKey := hFiled.field_free hApart (List.mem_singleton_self _) hFree
  have hRun : addField owner name type flags p = _ := addField_eq hOwner
  rw [Table.contains, hKey, Option.isSome_none, if_neg Bool.false_ne_true] at hRun
  obtain ⟨-, hGrows, -⟩ := addField_ok hRun
  have hRenders := hGrows.renders
  have hUsed : (FieldDef.mk owner name type flags).isRetired = false := hFlags
  have hTypes {β : Type} {g : TypeDef → β} (hg : ∀ t fields, g { t with fields := fields } = g t) :
      (p.types.modify owner.index fun t =>
        { t with fields := t.fields ++ [⟨p.fields.length⟩] }).map g = p.types.map g :=
    map_modify_eq fun t => hg t _
  refine ⟨_, hRun, filed_addField hFlags hFiled (Or.inl ⟨_, hRun⟩), hRenders, ?_,
    Registry.ext ?_ ?_ ?_⟩
  · exact ⟨[], (List.append_nil _).trans (hTypes fun _ _ => rfl).symm⟩
  · exact (hTypes fun _ _ => rfl).trans (List.append_nil _).symm
  · refine List.filterMap_append.trans (congrArg₂ _ (hRenders.usedFields hFiled) ?_)
    simp [hUsed, hRenders.typeName hOwner]
  · exact (hRenders.usedMethods hFiled).trans (List.append_nil _).symm

/-- A method is registered if its owner and the types of its parameters are there and no method has
its identity. -/
theorem addMethod_registers (hFiled : p.Filed) {owner : TypeId} {name : String}
    {params : List Param} {parts : IdentityParts} (result : TypeRef) (flags : FlagSet MethodFlag)
    (hFlags : flags.has .retired = false) (hOwner : (p.type? owner).isSome)
    (hKnown : ∀ param ∈ params, p.Knows param.type) (hParts : p.requested owner name params = parts)
    (hApart : (p.registry ++ ⟨[], [], [parts]⟩).Apart p.digest)
    (hFree : parts ∉ p.registry.methods) :
    ∃ q, addMethod owner name params result flags p = .ok ⟨p.methods.length⟩ q ∧
      p.Registers q ⟨[], [], [parts]⟩ := by
  subst hParts
  have hKey := hFiled.method_free hApart (List.mem_singleton_self _) hFree
  have hRun : addMethod owner name params result flags p = _ := addMethod_eq hOwner
  rw [Table.contains, hKey, Option.isSome_none, if_neg Bool.false_ne_true] at hRun
  obtain ⟨-, hGrows, -⟩ := addMethod_ok hRun
  have hRenders := hGrows.renders
  let m : MethodDef := ⟨owner, name, params, result, flags, [], none⟩
  have hUsed : m.isRetired = false := hFlags
  have hTypes {β : Type} {g : TypeDef → β}
      (hg : ∀ t methods, g { t with methods := methods } = g t) :
      (p.types.modify owner.index fun t =>
        { t with methods := t.methods ++ [⟨p.methods.length⟩] }).map g = p.types.map g :=
    map_modify_eq fun t => hg t _
  refine ⟨_, hRun, filed_addMethod hFlags hFiled hKnown (Or.inl ⟨_, hRun⟩), hRenders, ?_,
    Registry.ext ?_ ?_ ?_⟩
  · exact ⟨[], (List.append_nil _).trans (hTypes fun _ _ => rfl).symm⟩
  · exact (hTypes fun _ _ => rfl).trans (List.append_nil _).symm
  · exact (hRenders.usedFields hFiled).trans (List.append_nil _).symm
  · have hParams : ∀ ref ∈ m.paramTypes, p.Knows ref := by
      intro ref hMem
      obtain ⟨param, hParam, rfl⟩ := List.mem_map.mp hMem
      exact hKnown param hParam
    have hParts := hRenders.parts (m := m) hOwner hParams
    have hRequested : p.parts m = p.requested owner name params := by
      simp [parts, requested, m, MethodDef.paramTypes, Function.comp_def]
    refine List.filterMap_append.trans (congrArg₂ _ (hRenders.usedMethods hFiled) ?_)
    simp [hUsed, hParts, hRequested, m]

/-- Giving a method code registers nothing. -/
theorem setBody_registers (hFiled : p.Filed) (id : MethodId) (b : MethodBody)
    (h : (p.method? id).isSome) : ∃ q, setBody id b p = .ok ⟨⟩ q ∧ p.Registers q ⟨[], [], []⟩ := by
  let q : Program :=
    { p.touch with methods := p.methods.modify id.index fun m => { m with body := some b } }
  have hRun : setBody id b p = .ok ⟨⟩ q := modifyMethod_of_there h
  have hRenders : p.Renders q := NamedAlike.renders ⟨rfl, rfl, rfl⟩
  refine ⟨q, hRun, Filed.indifferent.setBody hFiled (Or.inl ⟨_, hRun⟩), hRenders, List.prefix_rfl,
    Registry.ext (List.append_nil _).symm (List.append_nil _).symm ?_⟩
  let named (m : MethodDef) : Option IdentityParts := if m.isRetired then none else some (q.parts m)
  have hNamed : q.methods.map named = p.methods.map named := map_modify_eq fun _ => rfl
  calc q.methods.filterMap named
      = (q.methods.map named).filterMap (fun name => name) := by rw [List.filterMap_map]; rfl
    _ = p.methods.filterMap named := by rw [hNamed, List.filterMap_map]; rfl
    _ = p.registry.methods ++ [] := (hRenders.usedMethods hFiled).trans (List.append_nil _).symm

end Registers

end Program

end ContextBinding
