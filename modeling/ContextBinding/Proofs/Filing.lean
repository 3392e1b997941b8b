import ContextBinding.Proofs.Clone
import ContextBinding.Proofs.Identity
import ContextBinding.Proofs.Outcome

/-! What look-up goes by. The tables of a program hold what is in use, each entry under its own key,
and every type lists its members in use. Registering a type, a field or a method keeps them so. -/

namespace ContextBinding

open Std

instance : LawfulEqOrd SymbolHash where
  compare_self {a} := compare_self (a := a.word.toNat)
  eq_of_compare {a b} h := by
    cases a
    cases b
    exact congrArg SymbolHash.mk (UInt64.toNat_inj.mp (LawfulEqOrd.eq_of_compare h))

section Tables

variable {ι : Type} [DecidableEq ι] {table : Table SymbolHash ι}

/-- A table holds what has a key, under that key, and nothing else. -/
def Holds (table : Table SymbolHash ι) (key? : ι → Option SymbolHash) : Prop :=
  ∀ key id, table.get? key = some id ↔ key? id = some key

/-- A table holds the members in use under their keys, and each type lists those that it owns, in
the order of their registration. -/
structure Kept (table : Table SymbolHash ι) (listed : TypeId → Option (List ι)) (ids : List ι)
    (used? : ι → Option (TypeId × SymbolHash)) : Prop where
  filed : Holds table fun id => (used? id).map (·.2)
  listed : ∀ owner members, listed owner = some members →
    members = ids.filter fun id => (used? id).any (·.1 == owner)

namespace Holds

variable {key? key?' : ι → Option SymbolHash}

/-- What is entered last under a key that was free is found under it. -/
theorem append (h : Holds table key?) {key : SymbolHash} {new : ι} (hFree : table.get? key = none)
    (hNew : key? new = none) (hKey : ∀ id, key?' id = if id = new then some key else key? id) :
    Holds (table.insert key new) key?' := by
  intro other id
  rw [Table.get?_insert, hKey]
  by_cases hSame : key = other
  · subst hSame
    rw [if_pos rfl]
    by_cases hId : id = new
    · simp [hId]
    · rw [if_neg hId, ← h]
      simp [hFree, Ne.symm hId]
  · rw [if_neg hSame, h]
    by_cases hId : id = new
    · simp [hId, hNew, hSame]
    · rw [if_neg hId]

/-- What loses its key is not found any more. -/
theorem retire (h : Holds table key?) {key : SymbolHash} {id : ι}
    (hKey : ∀ other, key? id = some other → other = key)
    (hGone : ∀ other, key?' other = if other = id then none else key? other) :
    Holds (if table.get? key = some id then table.erase key else table) key?' := by
  intro other found
  have hLeft : (if table.get? key = some id then table.erase key else table).get? other
      = some found ↔ found ≠ id ∧ table.get? other = some found := by
    by_cases hThere : table.get? key = some id
    · rw [if_pos hThere, Table.get?_erase]
      by_cases hSame : key = other
      · subst hSame
        simp [hThere, eq_comm]
      · rw [if_neg hSame]
        refine ⟨fun hFound => ⟨?_, hFound⟩, And.right⟩
        rintro rfl
        exact hSame (hKey other ((h other found).mp hFound)).symm
    · rw [if_neg hThere]
      refine ⟨fun hFound => ⟨?_, hFound⟩, And.right⟩
      rintro rfl
      obtain rfl := hKey other ((h other found).mp hFound)
      exact hThere hFound
  rw [hLeft, h, hGone]
  by_cases hSame : found = id <;> simp [hSame]

end Holds

namespace Kept

variable {listed listed' : TypeId → Option (List ι)} {ids : List ι}
  {used? used?' : ι → Option (TypeId × SymbolHash)}

/-- What is registered last under a key that was free is found, and listed last. -/
theorem append (h : Kept table listed ids used?) {owner : TypeId} {key : SymbolHash} {new : ι}
    (hFree : table.get? key = none) (hNew : used? new = none) (hFresh : new ∉ ids)
    (hUsed : ∀ id, used?' id = if id = new then some (owner, key) else used? id)
    (hListed : ∀ type, listed' type =
      (listed type).map fun members => if type = owner then members ++ [new] else members) :
    Kept (table.insert key new) listed' (ids ++ [new]) used?' where
  filed := h.filed.append hFree (by simp [hNew]) fun id => by
    rw [hUsed]
    split <;> rfl
  listed type members hMembers := by
    rw [hListed, Option.map_eq_some_iff] at hMembers
    obtain ⟨before, hBefore, rfl⟩ := hMembers
    have hOld : ids.filter (fun id => (used?' id).any (·.1 == type)) = before := by
      rw [h.listed type before hBefore]
      refine List.filter_congr fun id hMem => ?_
      rw [hUsed, if_neg fun hSame : id = new => hFresh (hSame ▸ hMem)]
    rw [List.filter_append, hOld]
    by_cases hOwner : type = owner
    · simp [hOwner, hUsed]
    · simp [hOwner, hUsed, Ne.symm hOwner]

/-- What is taken out of use is neither found nor listed any more. -/
theorem retire (h : Kept table listed ids used?) (owner : TypeId) {key : SymbolHash} {id : ι}
    (hKey : ∀ entry, used? id = some entry → entry = (owner, key))
    (hUsed : ∀ other, used?' other = if other = id then none else used? other)
    (hListed : ∀ type, listed' type =
      (listed type).map fun members => if type = owner then members.filter (· != id) else members) :
    Kept (if table.get? key = some id then table.erase key else table) listed' ids used?' where
  filed := by
    refine h.filed.retire (fun other hOther => ?_) fun other => ?_
    · obtain ⟨entry, hEntry, rfl⟩ := Option.map_eq_some_iff.mp hOther
      rw [hKey entry hEntry]
    · rw [hUsed]
      split <;> rfl
  listed type members hMembers := by
    rw [hListed, Option.map_eq_some_iff] at hMembers
    obtain ⟨before, hBefore, rfl⟩ := hMembers
    have hStep (other : ι) : (used?' other).any (·.1 == type)
        = ((used? other).any (·.1 == type) && other != id) := by
      rw [hUsed]
      by_cases hSame : other = id <;> simp [hSame]
    simp only [hStep, h.listed type before hBefore]
    by_cases hOwner : type = owner
    · rw [if_pos hOwner, List.filter_filter]
      exact List.filter_congr fun other _ => Bool.and_comm ..
    · rw [if_neg hOwner]
      refine List.filter_congr fun other _ => ?_
      by_cases hSame : other = id
      · subst hSame
        cases hEntry : used? other with
        | none => rfl
        | some entry =>
            obtain rfl := hKey entry hEntry
            simp [Ne.symm hOwner]
      · simp [hSame]

omit [DecidableEq ι] in
/-- A new type lists nothing. -/
theorem declare (h : Kept table listed ids used?)
    (hListed : ∀ type members, listed' type = some members →
      listed type = some members ∨ members = [] ∧ ∀ id, ∀ entry, used? id = some entry → entry.1 ≠ type) :
    Kept table listed' ids used? where
  filed := h.filed
  listed type members hMembers := by
    rcases hListed type members hMembers with hBefore | ⟨rfl, hNone⟩
    · exact h.listed type members hBefore
    · refine (List.filter_eq_nil_iff.mpr fun id _ => ?_).symm
      cases hEntry : used? id with
      | none => simp
      | some entry => simpa using hNone id entry hEntry

end Kept

end Tables

/-- What look-up depends on in an entry of a method. -/
def MethodDef.filing (m : MethodDef) : TypeId × String × List TypeRef × Bool :=
  (m.owner, m.name, m.paramTypes, m.isRetired)

theorem map_modify_eq {α β : Type} {f : α → α} {g : α → β} {l : List α} {i : Nat}
    (h : ∀ a, g (f a) = g a) : (l.modify i f).map g = l.map g := by
  refine List.ext_getElem? fun j => ?_
  simp only [List.getElem?_map, List.getElem?_modify]
  cases l[j]? with
  | none => rfl
  | some a =>
      by_cases hAt : i = j <;> simp [hAt, h]

namespace Program

variable {p q : Program}

/-- The types of the program that a reference names are there. -/
def Knows (p : Program) : TypeRef → Prop
  | .named id => (p.type? id).isSome
  | .byRef target => p.Knows target
  | .array element => p.Knows element
  | _ => True

instance decidableKnows (p : Program) : (ref : TypeRef) → Decidable (p.Knows ref)
  | .named id => inferInstanceAs (Decidable ((p.type? id).isSome = true))
  | .byRef target => decidableKnows p target
  | .array element => decidableKnows p element
  | .void | .bool | .int32 | .int64 | .float64 | .string | .object | .nativeInt => instDecidableTrue

/-- The parts of the identity of a method. -/
def parts (p : Program) (m : MethodDef) : IdentityParts :=
  ⟨p.typeName m.owner, m.name, m.paramTypes.map p.refName⟩

/-- The key of a type. -/
def typeKey? (p : Program) (id : TypeId) : Option SymbolHash :=
  (p.type? id).map fun t => .ofType p.digest t.fullName

/-- The key of a field. -/
def fieldKey (p : Program) (f : FieldDef) : SymbolHash :=
  .ofField p.digest (.ofType p.digest (p.typeName f.owner)) f.name

/-- The owner and the key of a field in use. -/
def usedField? (p : Program) (id : FieldId) : Option (TypeId × SymbolHash) :=
  ((p.field? id).filter fun f => !f.isRetired).map fun f => (f.owner, p.fieldKey f)

/-- The owner and the key of a method in use. -/
def usedMethod? (p : Program) (id : MethodId) : Option (TypeId × SymbolHash) :=
  ((p.method? id).filter fun m => !m.isRetired).map fun m => (m.owner, (p.parts m).hash p.digest)

/-- The tables hold what is in use, each entry under its own key, and the types list their members.
All types that the declarations name are there. -/
structure Filed (p : Program) : Prop where
  types : Holds p.typeTable p.typeKey?
  fields : Kept p.fieldTable (fun id => (p.type? id).map (·.fields)) p.fieldIds p.usedField?
  methods : Kept p.methodTable (fun id => (p.type? id).map (·.methods)) p.methodIds p.usedMethod?
  owners : ∀ id f, p.field? id = some f → (p.type? f.owner).isSome
  known : ∀ id m, p.method? id = some m →
    (p.type? m.owner).isSome ∧ ∀ ref ∈ m.paramTypes, p.Knows ref

section Keys

theorem typeHash_ok {id : TypeId} {key : SymbolHash} :
    p.typeHash id = .ok key ↔ ∃ t, p.type? id = some t ∧ .ofType p.digest t.fullName = key := by
  unfold typeHash
  simp only [Outcome.bind_ok, typeDef_ok, Outcome.pure_ok]

theorem typeName_eq {id : TypeId} {t : TypeDef} (h : p.type? id = some t) :
    p.typeName id = t.fullName := by
  simp [typeName, h]

theorem fieldHash_ok {owner : TypeId} {name : String} {key : SymbolHash} :
    p.fieldHash owner name = .ok key ↔ (p.type? owner).isSome ∧
      .ofField p.digest (.ofType p.digest (p.typeName owner)) name = key := by
  unfold fieldHash
  simp only [Outcome.bind_ok, typeHash_ok, Outcome.pure_ok, Option.isSome_iff_exists]
  constructor
  · rintro ⟨_, ⟨t, hType, rfl⟩, rfl⟩
    exact ⟨⟨t, hType⟩, by rw [typeName_eq hType]⟩
  · rintro ⟨⟨t, hType⟩, rfl⟩
    exact ⟨_, ⟨t, hType, rfl⟩, by rw [typeName_eq hType]⟩

theorem methodHash_ok {owner : TypeId} {name : String} {params : List TypeRef} {key : SymbolHash} :
    p.methodHash owner name params = .ok key ↔ (p.type? owner).isSome ∧
      IdentityParts.hash p.digest ⟨p.typeName owner, name, params.map p.refName⟩ = key := by
  unfold methodHash
  simp only [Outcome.bind_ok, typeHash_ok, Outcome.pure_ok, Option.isSome_iff_exists]
  constructor
  · rintro ⟨_, ⟨t, hType, rfl⟩, rfl⟩
    exact ⟨⟨t, hType⟩, by simp [IdentityParts.hash, typeName_eq hType, Function.comp_def]⟩
  · rintro ⟨⟨t, hType⟩, rfl⟩
    exact ⟨_, ⟨t, hType, rfl⟩, by simp [IdentityParts.hash, typeName_eq hType, Function.comp_def]⟩

/-- Look-up of a method takes the identity apart, and goes by the parts. -/
theorem findMethod?_eq (text : String) : p.findMethod? text =
    (IdentityParts.ofText? text).bind fun parts => p.methodTable.get? (parts.hash p.digest) := rfl

theorem identity_eq {id : MethodId} {m : MethodDef} (h : p.method? id = some m) :
    p.identity id = (p.parts m).text := by
  simp [identity, h, signature, parts, IdentityParts.text]

theorem usedField?_eq_some {id : FieldId} {entry : TypeId × SymbolHash} :
    p.usedField? id = some entry ↔
      ∃ f, p.field? id = some f ∧ f.isRetired = false ∧ (f.owner, p.fieldKey f) = entry := by
  simp [usedField?, Option.map_eq_some_iff, Option.filter_eq_some_iff, and_assoc]

theorem usedMethod?_eq_some {id : MethodId} {entry : TypeId × SymbolHash} :
    p.usedMethod? id = some entry ↔ ∃ m, p.method? id = some m ∧ m.isRetired = false ∧
      (m.owner, (p.parts m).hash p.digest) = entry := by
  simp [usedMethod?, Option.map_eq_some_iff, Option.filter_eq_some_iff, and_assoc]

end Keys

section Naming

/-- The types of a program keep their names. -/
structure Renders (p q : Program) : Prop where
  digest : q.digest = p.digest
  types : ∀ id t, p.type? id = some t → ∃ t', q.type? id = some t' ∧ t'.fullName = t.fullName

namespace Renders

theorem isSome (h : p.Renders q) {id : TypeId} (hType : (p.type? id).isSome) : (q.type? id).isSome := by
  obtain ⟨t, hType⟩ := Option.isSome_iff_exists.mp hType
  obtain ⟨t', hType', -⟩ := h.types id t hType
  exact Option.isSome_iff_exists.mpr ⟨t', hType'⟩

theorem typeName (h : p.Renders q) {id : TypeId} (hType : (p.type? id).isSome) :
    q.typeName id = p.typeName id := by
  obtain ⟨t, hType⟩ := Option.isSome_iff_exists.mp hType
  obtain ⟨t', hType', hName⟩ := h.types id t hType
  rw [typeName_eq hType, typeName_eq hType', hName]

theorem knows (h : p.Renders q) {ref : TypeRef} (hKnown : p.Knows ref) : q.Knows ref := by
  induction ref with
  | named id => exact h.isSome hKnown
  | byRef target ih => exact ih hKnown
  | array element ih => exact ih hKnown
  | _ => trivial

/-- The name of a reference to types that are there stays. -/
theorem refName (h : p.Renders q) {ref : TypeRef} (hKnown : p.Knows ref) :
    q.refName ref = p.refName ref := by
  induction ref with
  | named id => exact h.typeName hKnown
  | byRef target ih => exact congrArg (· ++ "&") (ih hKnown)
  | array element ih => exact congrArg (· ++ "[]") (ih hKnown)
  | _ => rfl

theorem fieldKey (h : p.Renders q) {f : FieldDef} (hOwner : (p.type? f.owner).isSome) :
    q.fieldKey f = p.fieldKey f := by
  rw [Program.fieldKey, Program.fieldKey, h.digest, h.typeName hOwner]

theorem parts (h : p.Renders q) {m : MethodDef} (hOwner : (p.type? m.owner).isSome)
    (hParams : ∀ ref ∈ m.paramTypes, p.Knows ref) : q.parts m = p.parts m := by
  rw [Program.parts, Program.parts, h.typeName hOwner]
  exact congrArg _ (List.map_congr_left fun ref hMem => h.refName (hParams ref hMem))

/-- Fields stay in use under their keys. -/
theorem usedField? (h : p.Renders q) (hFiled : p.Filed) {id : FieldId}
    (hField : q.field? id = p.field? id) : q.usedField? id = p.usedField? id := by
  rw [Program.usedField?, Program.usedField?, hField]
  cases hEntry : p.field? id with
  | none => rfl
  | some f =>
      cases hRetired : f.isRetired
      · simp [Option.filter, hRetired, h.fieldKey (hFiled.owners id f hEntry)]
      · simp [Option.filter, hRetired]

/-- Methods stay in use under their keys. -/
theorem usedMethod? (h : p.Renders q) (hFiled : p.Filed) {id : MethodId}
    (hMethod : (q.method? id).map MethodDef.filing = (p.method? id).map MethodDef.filing) :
    q.usedMethod? id = p.usedMethod? id := by
  rw [Program.usedMethod?, Program.usedMethod?]
  cases hEntry : p.method? id with
  | none =>
      rw [hEntry, Option.map_none, Option.map_eq_none_iff] at hMethod
      rw [hMethod]
      rfl
  | some m =>
      rw [hEntry, Option.map_some, Option.map_eq_some_iff] at hMethod
      obtain ⟨m', hEntry', hSame⟩ := hMethod
      simp only [MethodDef.filing, Prod.mk.injEq] at hSame
      obtain ⟨hOwner, hName, hParams, hRetired⟩ := hSame
      obtain ⟨hThere, hKnown⟩ := hFiled.known id m hEntry
      have hParts : q.parts m' = p.parts m := by
        rw [← h.parts hThere hKnown, Program.parts, Program.parts, hOwner, hName, hParams]
      rw [hEntry']
      cases hInUse : m.isRetired
      · simp [Option.filter, hInUse, hRetired, hOwner, hParts, h.digest]
      · simp [Option.filter, hInUse, hRetired]

end Renders

end Naming

section Parts

/-- The types of a program are there under the same names. -/
structure NamedAlike (p q : Program) : Prop where
  digest : q.digest = p.digest
  typeTable : q.typeTable = p.typeTable
  names : q.types.map (·.fullName) = p.types.map (·.fullName)

/-- The fields of a program are there under the same owners. -/
structure FieldsAlike (p q : Program) : Prop where
  fieldTable : q.fieldTable = p.fieldTable
  fields : q.fields = p.fields
  fieldLists : q.types.map (·.fields) = p.types.map (·.fields)

/-- The methods of a program are there with the same signatures, each in use or not as before. -/
structure MethodsAlike (p q : Program) : Prop where
  methodTable : q.methodTable = p.methodTable
  methods : q.methods.map MethodDef.filing = p.methods.map MethodDef.filing
  methodLists : q.types.map (·.methods) = p.types.map (·.methods)

/-- What a list of types maps to decides on what each of the types maps to. -/
theorem type?_map {β : Type} {g : TypeDef → β} (h : q.types.map g = p.types.map g) (id : TypeId) :
    (q.type? id).map g = (p.type? id).map g := by
  simpa only [type?, ← List.getElem?_map] using congrArg (·[id.index]?) h

namespace NamedAlike

theorem renders (h : p.NamedAlike q) : p.Renders q where
  digest := h.digest
  types id t hType := by
    have hSame := type?_map h.names id
    rwa [hType, Option.map_some, Option.map_eq_some_iff] at hSame

theorem types (h : p.NamedAlike q) (hTypes : Holds p.typeTable p.typeKey?) :
    Holds q.typeTable q.typeKey? := by
  have hKeys : q.typeKey? = p.typeKey? := funext fun id => by
    simpa [typeKey?, h.digest, Function.comp_def] using
      congrArg (Option.map (SymbolHash.ofType p.digest)) (type?_map h.names id)
  rw [h.typeTable, hKeys]
  exact hTypes

end NamedAlike

namespace FieldsAlike

theorem kept (h : p.FieldsAlike q) (hRenders : p.Renders q) (hFiled : p.Filed) :
    Kept q.fieldTable (fun id => (q.type? id).map (·.fields)) q.fieldIds q.usedField? := by
  have hUsed : q.usedField? = p.usedField? := funext fun id =>
    hRenders.usedField? hFiled (by rw [field?, field?, h.fields])
  rw [h.fieldTable, fieldIds, h.fields, hUsed, funext (type?_map h.fieldLists)]
  exact hFiled.fields

theorem owners (h : p.FieldsAlike q) (hRenders : p.Renders q) (hFiled : p.Filed) (id : FieldId)
    (f : FieldDef) (hField : q.field? id = some f) : (q.type? f.owner).isSome :=
  hRenders.isSome (hFiled.owners id f (by rwa [field?, h.fields] at hField))

end FieldsAlike

namespace MethodsAlike

theorem method? (h : p.MethodsAlike q) (id : MethodId) :
    (q.method? id).map MethodDef.filing = (p.method? id).map MethodDef.filing := by
  simpa only [Program.method?, ← List.getElem?_map] using congrArg (·[id.index]?) h.methods

theorem kept (h : p.MethodsAlike q) (hRenders : p.Renders q) (hFiled : p.Filed) :
    Kept q.methodTable (fun id => (q.type? id).map (·.methods)) q.methodIds q.usedMethod? := by
  have hCount : q.methods.length = p.methods.length := by simpa using congrArg List.length h.methods
  have hUsed : q.usedMethod? = p.usedMethod? := funext fun id =>
    hRenders.usedMethod? hFiled (h.method? id)
  rw [h.methodTable, methodIds, hCount, hUsed, funext (type?_map h.methodLists)]
  exact hFiled.methods

theorem known (h : p.MethodsAlike q) (hRenders : p.Renders q) (hFiled : p.Filed) (id : MethodId)
    (m : MethodDef) (hMethod : q.method? id = some m) :
    (q.type? m.owner).isSome ∧ ∀ ref ∈ m.paramTypes, q.Knows ref := by
  have hSame := h.method? id
  rw [hMethod, Option.map_some] at hSame
  obtain ⟨m', hBefore, hFiling⟩ := Option.map_eq_some_iff.mp hSame.symm
  simp only [MethodDef.filing, Prod.mk.injEq] at hFiling
  obtain ⟨hOwner, -, hParams, -⟩ := hFiling
  obtain ⟨hThere, hKnown⟩ := hFiled.known id m' hBefore
  exact ⟨hRenders.isSome (hOwner ▸ hThere), fun ref hMem =>
    hRenders.knows (hKnown ref (hParams ▸ hMem))⟩

end MethodsAlike

/-- The tables and lists of a program stay right where nothing that look-up depends on differs. -/
theorem Filed.of_alike (hFiled : p.Filed) (hTypes : p.NamedAlike q) (hFields : p.FieldsAlike q)
    (hMethods : p.MethodsAlike q) : q.Filed where
  types := hTypes.types hFiled.types
  fields := hFields.kept hTypes.renders hFiled
  methods := hMethods.kept hTypes.renders hFiled
  owners := hFields.owners hTypes.renders hFiled
  known := hMethods.known hTypes.renders hFiled

end Parts

section Changes

/-- A property of programs goes by nothing but what look-up goes by. -/
def Indifferent (I : Program → Prop) : Prop :=
  ∀ ⦃p q⦄, I p → p.NamedAlike q → p.FieldsAlike q → p.MethodsAlike q → I q

theorem Filed.indifferent : Indifferent Filed := fun _ _ h => h.of_alike

namespace Indifferent

variable {I : Program → Prop} (hI : Indifferent I)

include hI

theorem touch (h : I p) : I p.touch :=
  hI h ⟨rfl, rfl, rfl⟩ ⟨rfl, rfl, rfl⟩ ⟨rfl, rfl, rfl⟩

/-- Changing of a type what look-up does not depend on. -/
theorem modifyType {id : TypeId} {f : TypeDef → TypeDef}
    (hf : ∀ t, (f t).fullName = t.fullName ∧ (f t).fields = t.fields ∧ (f t).methods = t.methods) :
    Upholds I (modifyType id f) := by
  refine Upholds.bind (.modify fun p h => hI.touch h) fun _ => Upholds.bind .get fun p =>
    Upholds.bind (.lift _) fun _ => .modify fun p h => ?_
  exact hI h ⟨rfl, rfl, map_modify_eq (fun t => (hf t).1)⟩
    ⟨rfl, rfl, map_modify_eq (fun t => (hf t).2.1)⟩ ⟨rfl, rfl, map_modify_eq (fun t => (hf t).2.2)⟩

/-- Changing of a method what look-up does not depend on. -/
theorem modifyMethod {id : MethodId} {f : MethodDef → MethodDef}
    (hf : ∀ m, (f m).filing = m.filing) : Upholds I (modifyMethod id f) := by
  refine Upholds.bind (.modify fun p h => hI.touch h) fun _ => Upholds.bind .get fun p =>
    Upholds.bind (.lift _) fun _ => .modify fun p h => ?_
  exact hI h ⟨rfl, rfl, rfl⟩ ⟨rfl, rfl, rfl⟩ ⟨rfl, map_modify_eq hf, rfl⟩

theorem setBase {id : TypeId} {base : TypeRef} : Upholds I (setBase id base) :=
  hI.modifyType fun _ => ⟨rfl, rfl, rfl⟩

theorem addInterface {id interface : TypeId} : Upholds I (addInterface id interface) := by
  refine Upholds.bind .get fun p => Upholds.bind (.lift _) fun _ => hI.modifyType ?_
  exact fun _ => ⟨rfl, rfl, rfl⟩

theorem addProperty {owner : TypeId} {property : PropertyDef} :
    Upholds I (addProperty owner property) :=
  hI.modifyType fun _ => ⟨rfl, rfl, rfl⟩

theorem setBody {id : MethodId} {b : MethodBody} : Upholds I (setBody id b) :=
  hI.modifyMethod fun _ => rfl

theorem putBody {id : MethodId} {b : MethodBody} (h : I p) : I (putBody id b p) := by
  have hFiling (m : MethodDef) : ({ m with body := some b } : MethodDef).filing = m.filing := rfl
  exact hI h ⟨rfl, rfl, rfl⟩ ⟨rfl, rfl, rfl⟩ ⟨rfl, map_modify_eq hFiling, rfl⟩

theorem editBody {α : Type} {id : MethodId} {edit : BodyEdit α} : Upholds I (editBody id edit) := by
  refine Upholds.bind (.modify fun p h => hI.touch h) fun _ => Upholds.bind .get fun p =>
    Upholds.bind (.lift _) fun b => ?_
  split
  · exact Upholds.bind (.modify fun _ h => hI.putBody h) fun _ => .pure _
  · exact Upholds.bind (.modify fun _ h => hI.putBody h) fun _ => .throw _

end Indifferent

end Changes

section Additions

/-- An entry that is appended is the last one. -/
theorem getElem?_append_one {α : Type} (l : List α) (a : α) (i : Nat) :
    (l ++ [a])[i]? = if i = l.length then some a else l[i]? := by
  rw [List.getElem?_append]
  by_cases hLast : i = l.length
  · simp [hLast]
  · rw [if_neg hLast]
    by_cases hOld : i < l.length
    · rw [if_pos hOld]
    · rw [if_neg hOld, List.getElem?_eq_none (by simp; omega), List.getElem?_eq_none (by omega)]

/-- What the types list after a change of one of them. -/
theorem lists_modify {β : Type} {owner : TypeId} {f : TypeDef → TypeDef} {g : TypeDef → List β}
    {change : List β → List β} (hTypes : q.types = p.types.modify owner.index f)
    (hf : ∀ t, g (f t) = change (g t)) (type : TypeId) : (q.type? type).map g =
      ((p.type? type).map g).map fun members => if type = owner then change members else members := by
  rw [type?, hTypes, List.getElem?_modify, type?]
  cases p.types[type.index]? with
  | none => rfl
  | some t =>
      by_cases hSame : type = owner
      · simp [hSame, hf]
      · have hIndex : owner.index ≠ type.index := fun h => hSame (by cases type; cases owner; simp_all)
        simp [hSame, hIndex]

/-- The program with one more type, under a key. -/
def appendType (p : Program) (t : TypeDef) (key : SymbolHash) : Program :=
  { p with
    types := p.types ++ [t]
    typeTable := p.typeTable.insert key ⟨p.types.length⟩
    edits := p.edits + 1 }

/-- The program with one more field, under a key. -/
def appendField (p : Program) (f : FieldDef) (key : SymbolHash) : Program :=
  { p with
    fields := p.fields ++ [f]
    fieldTable := p.fieldTable.insert key ⟨p.fields.length⟩
    types := p.types.modify f.owner.index fun t => { t with fields := t.fields ++ [⟨p.fields.length⟩] }
    edits := p.edits + 1 }

/-- The program with one more method, under a key. -/
def appendMethod (p : Program) (m : MethodDef) (key : SymbolHash) : Program :=
  { p with
    methods := p.methods ++ [m]
    methodTable := p.methodTable.insert key ⟨p.methods.length⟩
    types := p.types.modify m.owner.index fun t =>
      { t with methods := t.methods ++ [⟨p.methods.length⟩] }
    edits := p.edits + 1 }

theorem type?_appendType (t : TypeDef) (key : SymbolHash) (id : TypeId) :
    (p.appendType t key).type? id = if id = ⟨p.types.length⟩ then some t else p.type? id := by
  cases id
  simpa [type?, appendType] using getElem?_append_one p.types t _

theorem field?_appendField (f : FieldDef) (key : SymbolHash) (id : FieldId) :
    (p.appendField f key).field? id = if id = ⟨p.fields.length⟩ then some f else p.field? id := by
  cases id
  simpa [field?, appendField] using getElem?_append_one p.fields f _

theorem method?_appendMethod (m : MethodDef) (key : SymbolHash) (id : MethodId) :
    (p.appendMethod m key).method? id = if id = ⟨p.methods.length⟩ then some m else p.method? id := by
  cases id
  simpa [method?, appendMethod] using getElem?_append_one p.methods m _

theorem addField_ends {owner : TypeId} {name : String} {type : TypeRef} {flags : FlagSet FieldFlag}
    (h : Ends (addField owner name type flags) p q) :
    q = p ∨ ∃ key, p.fieldHash owner name = .ok key ∧ p.fieldTable.get? key = none ∧
      q = p.appendField ⟨owner, name, type, flags⟩ key := by
  have h := Ends.of_get_bind h
  rcases h.of_lift_bind with rfl | ⟨key, hKey, h⟩
  · exact Or.inl rfl
  · dsimp only at h
    split at h
    · exact Or.inl h.of_throw_bind
    · rename_i hFree
      exact Or.inr ⟨key, hKey, by simpa [Table.contains] using hFree, h.of_set_bind.pure⟩

theorem addMethod_ends {owner : TypeId} {name : String} {params : List Param} {result : TypeRef}
    {flags : FlagSet MethodFlag} (h : Ends (addMethod owner name params result flags) p q) :
    q = p ∨ ∃ key, p.methodHash owner name (params.map (·.type)) = .ok key ∧
      p.methodTable.get? key = none ∧
      q = p.appendMethod ⟨owner, name, params, result, flags, [], none⟩ key := by
  have h := Ends.of_get_bind h
  rcases h.of_lift_bind with rfl | ⟨key, hKey, h⟩
  · exact Or.inl rfl
  · dsimp only at h
    split at h
    · exact Or.inl h.of_throw_bind
    · rename_i hFree
      exact Or.inr ⟨key, hKey, by simpa [Table.contains] using hFree, h.of_set_bind.pure⟩

theorem fieldIds_append (h : ∃ f, q.fields = p.fields ++ [f]) :
    q.fieldIds = p.fieldIds ++ [⟨p.fields.length⟩] := by
  obtain ⟨f, hFields⟩ := h
  simp [fieldIds, hFields, List.range_succ]

theorem methodIds_append (h : ∃ m, q.methods = p.methods ++ [m]) :
    q.methodIds = p.methodIds ++ [⟨p.methods.length⟩] := by
  obtain ⟨m, hMethods⟩ := h
  simp [methodIds, hMethods, List.range_succ]

/-- A field that is added is found and listed with the others. -/
theorem filed_addField {owner : TypeId} {name : String} {type : TypeRef} {flags : FlagSet FieldFlag}
    (hFlags : flags.has .retired = false) : Upholds Filed (addField owner name type flags) := by
  intro p q hFiled h
  rcases addField_ends h with rfl | ⟨key, hKey, hFree, rfl⟩
  · exact hFiled
  obtain ⟨hOwner, hHash⟩ := fieldHash_ok.mp hKey
  let f : FieldDef := ⟨owner, name, type, flags⟩
  have hTypes : p.NamedAlike (p.appendField f key) := ⟨rfl, rfl, map_modify_eq fun _ => rfl⟩
  have hRenders := hTypes.renders
  have hMethods : p.MethodsAlike (p.appendField f key) :=
    ⟨rfl, rfl, map_modify_eq fun _ => rfl⟩
  have hGone : p.field? ⟨p.fields.length⟩ = none := List.getElem?_eq_none (Nat.le_refl _)
  refine ⟨hTypes.types hFiled.types, ?_, hMethods.kept hRenders hFiled, fun id f' hField => ?_,
    hMethods.known hRenders hFiled⟩
  · have hUsed (id : FieldId) : (p.appendField f key).usedField? id =
        if id = ⟨p.fields.length⟩ then some (owner, key) else p.usedField? id := by
      by_cases hNew : id = ⟨p.fields.length⟩
      · have hField := field?_appendField (p := p) f key id
        rw [if_pos hNew] at hField ⊢
        exact usedField?_eq_some.mpr ⟨f, hField, hFlags, by
          rw [hRenders.fieldKey (f := f) hOwner, fieldKey, hHash]⟩
      · rw [if_neg hNew]
        exact hRenders.usedField? hFiled (by rw [field?_appendField, if_neg hNew])
    rw [fieldIds_append ⟨f, rfl⟩]
    refine hFiled.fields.append hFree (by simp [usedField?, hGone]) (by simp [fieldIds]) hUsed ?_
    exact lists_modify rfl fun _ => rfl
  · rw [field?_appendField] at hField
    split at hField
    · obtain rfl := Option.some_inj.mp hField
      exact hRenders.isSome hOwner
    · exact hRenders.isSome (hFiled.owners id f' hField)

/-- A method that is added is found and listed with the others, if the types of its parameters are
there. -/
theorem filed_addMethod {owner : TypeId} {name : String} {params : List Param} {result : TypeRef}
    {flags : FlagSet MethodFlag} (hFlags : flags.has .retired = false) (hFiled : p.Filed)
    (hKnown : ∀ param ∈ params, p.Knows param.type)
    (h : Ends (addMethod owner name params result flags) p q) : q.Filed := by
  rcases addMethod_ends h with rfl | ⟨key, hKey, hFree, rfl⟩
  · exact hFiled
  obtain ⟨hOwner, hHash⟩ := methodHash_ok.mp hKey
  let m : MethodDef := ⟨owner, name, params, result, flags, [], none⟩
  have hTypes : p.NamedAlike (p.appendMethod m key) := ⟨rfl, rfl, map_modify_eq fun _ => rfl⟩
  have hRenders := hTypes.renders
  have hFields : p.FieldsAlike (p.appendMethod m key) := ⟨rfl, rfl, map_modify_eq fun _ => rfl⟩
  have hParams : ∀ ref ∈ m.paramTypes, p.Knows ref := by
    intro ref hMem
    obtain ⟨param, hParam, rfl⟩ := List.mem_map.mp hMem
    exact hKnown param hParam
  have hGone : p.method? ⟨p.methods.length⟩ = none := List.getElem?_eq_none (Nat.le_refl _)
  refine ⟨hTypes.types hFiled.types, hFields.kept hRenders hFiled, ?_, hFields.owners hRenders hFiled,
    fun id m' hMethod => ?_⟩
  · have hUsed (id : MethodId) : (p.appendMethod m key).usedMethod? id =
        if id = ⟨p.methods.length⟩ then some (owner, key) else p.usedMethod? id := by
      by_cases hNew : id = ⟨p.methods.length⟩
      · have hMethod := method?_appendMethod (p := p) m key id
        rw [if_pos hNew] at hMethod ⊢
        exact usedMethod?_eq_some.mpr ⟨m, hMethod, hFlags, by
          rw [hRenders.parts (m := m) hOwner hParams, hRenders.digest, parts]
          exact congrArg _ hHash⟩
      · rw [if_neg hNew]
        exact hRenders.usedMethod? hFiled (by rw [method?_appendMethod, if_neg hNew])
    rw [methodIds_append ⟨m, rfl⟩]
    refine hFiled.methods.append hFree (by simp [usedMethod?, hGone]) (by simp [methodIds]) hUsed ?_
    exact lists_modify rfl fun _ => rfl
  · rw [method?_appendMethod] at hMethod
    split at hMethod
    · obtain rfl := Option.some_inj.mp hMethod
      exact ⟨hRenders.isSome hOwner, fun ref hMem => hRenders.knows (hParams ref hMem)⟩
    · obtain ⟨hThere, hNamed⟩ := hFiled.known id m' hMethod
      exact ⟨hRenders.isSome hThere, fun ref hMem => hRenders.knows (hNamed ref hMem)⟩

theorem type?_new : p.type? ⟨p.types.length⟩ = none := List.getElem?_eq_none (Nat.le_refl _)

theorem renders_appendType (p : Program) (t : TypeDef) (key : SymbolHash) :
    p.Renders (p.appendType t key) := by
  refine ⟨rfl, fun id t' hType => ⟨t', ?_, rfl⟩⟩
  rw [type?_appendType, if_neg]
  · exact hType
  · rintro rfl
    cases type?_new.symm.trans hType

/-- A type under a key that was free is found with the others. -/
theorem holds_appendType (h : Holds p.typeTable p.typeKey?) {t : TypeDef} {key : SymbolHash}
    (hKey : .ofType p.digest t.fullName = key) (hFree : p.typeTable.get? key = none) :
    Holds (p.appendType t key).typeTable (p.appendType t key).typeKey? := by
  refine h.append hFree (by simp [typeKey?, type?_new]) fun id => ?_
  rw [typeKey?, type?_appendType]
  split
  · exact congrArg some hKey
  · rfl

/-- A type without members, under a key that was free. -/
theorem Filed.appendType (hFiled : p.Filed) {t : TypeDef} {key : SymbolHash}
    (hKey : .ofType p.digest t.fullName = key) (hFree : p.typeTable.get? key = none)
    (hFields : t.fields = []) (hMethods : t.methods = []) : (p.appendType t key).Filed := by
  have hRenders := p.renders_appendType t key
  have hListed {β : Type} {g : TypeDef → List β} (hNone : g t = []) (type : TypeId)
      (members : List β) (h : ((p.appendType t key).type? type).map g = some members) :
      (p.type? type).map g = some members ∨ members = [] ∧ p.type? type = none := by
    rw [type?_appendType] at h
    split at h
    · rename_i hNew
      exact Or.inr ⟨(Option.some_inj.mp h).symm.trans hNone, hNew ▸ type?_new⟩
    · exact Or.inl h
  have hFieldsUsed : (p.appendType t key).usedField? = p.usedField? := funext fun id =>
    hRenders.usedField? hFiled rfl
  have hMethodsUsed : (p.appendType t key).usedMethod? = p.usedMethod? := funext fun id =>
    hRenders.usedMethod? hFiled rfl
  refine ⟨holds_appendType hFiled.types hKey hFree, ?_, ?_,
    fun id f hField => hRenders.isSome (hFiled.owners id f hField), fun id m hMethod => ?_⟩
  · rw [hFieldsUsed]
    refine hFiled.fields.declare fun type members h => (hListed hFields type members h).imp_right ?_
    rintro ⟨rfl, hAbsent⟩
    refine ⟨rfl, fun id entry hEntry => ?_⟩
    rintro rfl
    obtain ⟨f, hField, -, rfl⟩ := usedField?_eq_some.mp hEntry
    simpa [hAbsent] using hFiled.owners id f hField
  · rw [hMethodsUsed]
    refine hFiled.methods.declare fun type members h => (hListed hMethods type members h).imp_right ?_
    rintro ⟨rfl, hAbsent⟩
    refine ⟨rfl, fun id entry hEntry => ?_⟩
    rintro rfl
    obtain ⟨m, hMethod, -, rfl⟩ := usedMethod?_eq_some.mp hEntry
    simpa [hAbsent] using (hFiled.known id m hMethod).1
  · obtain ⟨hThere, hNamed⟩ := hFiled.known id m hMethod
    exact ⟨hRenders.isSome hThere, fun ref hMem => hRenders.knows (hNamed ref hMem)⟩

/-- A type is added without members, apart from that its declaring type lists it. -/
theorem addType_ends {nameSpace name : String} {declaring : Option TypeId} {flags : FlagSet TypeFlag}
    (h : Ends (addType nameSpace name declaring flags) p q) :
    q = p ∨ ∃ t key, .ofType p.digest t.fullName = key ∧ p.typeTable.get? key = none ∧
      t.fields = [] ∧ t.methods = [] ∧ (p.appendType t key).NamedAlike q ∧
      (p.appendType t key).FieldsAlike q ∧ (p.appendType t key).MethodsAlike q := by
  have h := Ends.of_get_bind h
  rcases h.of_lift_bind with rfl | ⟨fullName, -, h⟩
  · exact Or.inl rfl
  · dsimp only at h
    split at h
    · exact Or.inl h.of_throw_bind
    · rename_i hFree
      obtain rfl := h.of_set_bind.pure
      refine Or.inr ⟨⟨if declaring.isSome then "" else nameSpace, name, fullName, declaring, none, [],
        [], [], [], [], flags⟩, _, rfl, by simpa [Table.contains] using hFree, rfl, rfl, ?_⟩
      cases declaring with
      | none => exact ⟨⟨rfl, rfl, rfl⟩, ⟨rfl, rfl, rfl⟩, ⟨rfl, rfl, rfl⟩⟩
      | some outer =>
          exact ⟨⟨rfl, rfl, map_modify_eq fun _ => rfl⟩, ⟨rfl, rfl, map_modify_eq fun _ => rfl⟩,
            ⟨rfl, rfl, map_modify_eq fun _ => rfl⟩⟩

/-- A type that is added is found, and has no members. -/
theorem filed_addType {nameSpace name : String} {declaring : Option TypeId}
    {flags : FlagSet TypeFlag} : Upholds Filed (addType nameSpace name declaring flags) := by
  intro p q hFiled h
  rcases addType_ends h with rfl | ⟨t, key, hKey, hFree, hFields, hMethods, hSame⟩
  · exact hFiled
  · obtain ⟨hTypes, hFieldsSame, hMethodsSame⟩ := hSame
    exact (hFiled.appendType hKey hFree hFields hMethods).of_alike hTypes hFieldsSame hMethodsSame

end Additions

end Program

end ContextBinding
