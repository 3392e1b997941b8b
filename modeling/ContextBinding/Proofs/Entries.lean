import ContextBinding.Proofs.Lookup
import Mathlib.Data.List.Sections

/-! What methods are entered under. The key of a method is made when it is registered, and the type
of a parameter that is not there yet has no name then. So the table holds methods in use under the
key of their identity, and besides some that stay under the key of an identity they had before. -/

namespace ContextBinding

namespace TypeRef

/-- The name of a reference while the type that it names is not there. -/
def absentName : TypeRef → String
  | .byRef target => target.absentName ++ "&"
  | .array element => element.absentName ++ "[]"
  | ref => ref.builtinName?.getD "<unknown>"

/-- A name that refers to a type that is not there. -/
inductive IsAbsent : String → Prop where
  | unknown : IsAbsent "<unknown>"
  | byRef {target : String} (h : IsAbsent target) : IsAbsent (target ++ "&")
  | array {element : String} (h : IsAbsent element) : IsAbsent (element ++ "[]")

end TypeRef

/-- What the entry of a method depends on. -/
def MethodDef.entry (m : MethodDef) : TypeId × String × List TypeRef :=
  (m.owner, m.name, m.paramTypes)

namespace Program

variable {p q : Program} {id : MethodId} {m m' : MethodDef} {key : SymbolHash} {i : IdentityParts}

theorem refName_of_absent {ref : TypeRef} (h : ¬ p.Knows ref) :
    p.refName ref = ref.absentName ∧ TypeRef.IsAbsent ref.absentName := by
  induction ref with
  | named id =>
      have hNone : p.type? id = none := by simpa [Knows] using h
      exact ⟨by simp [refName, typeName, hNone, TypeRef.absentName, TypeRef.builtinName?], .unknown⟩
  | byRef target ih =>
      obtain ⟨hName, hAbsent⟩ := ih h
      exact ⟨congrArg (· ++ "&") hName, hAbsent.byRef⟩
  | array element ih =>
      obtain ⟨hName, hAbsent⟩ := ih h
      exact ⟨congrArg (· ++ "[]") hName, hAbsent.array⟩
  | _ => exact absurd trivial h

/-- The identities that a method has or had, where a type that was not there left its mark. -/
def readings (p : Program) (m : MethodDef) : List IdentityParts :=
  (m.paramTypes.map fun ref => [p.refName ref, ref.absentName]).sections.map fun params =>
    ⟨p.typeName m.owner, m.name, params⟩

theorem mem_readings : i ∈ p.readings m ↔ i.owner = p.typeName m.owner ∧ i.name = m.name ∧
    List.Forall₂ (fun name ref => name = p.refName ref ∨ name = ref.absentName) i.params
      m.paramTypes := by
  unfold readings
  simp only [List.mem_map, List.mem_sections, List.forall₂_map_right_iff, List.mem_cons,
    List.not_mem_nil, or_false]
  constructor
  · rintro ⟨params, hParams, rfl⟩
    exact ⟨rfl, rfl, hParams⟩
  · rintro ⟨hOwner, hName, hParams⟩
    exact ⟨i.params, hParams, by rw [← hOwner, ← hName]⟩

theorem parts_mem_readings : p.parts m ∈ p.readings m := by
  refine mem_readings.mpr ⟨rfl, rfl, ?_⟩
  rw [parts, List.forall₂_map_left_iff, List.forall₂_same]
  exact fun ref _ => Or.inl rfl

/-- A method is entered under a key: listed by its owner and under the key of its identity, where
the types of its parameters are there, or under that of an identity from before one of them was. -/
def EnteredAs (p : Program) (id : MethodId) (m : MethodDef) (key : SymbolHash) : Prop :=
  (p.Lists m.owner id ∧ (∀ ref ∈ m.paramTypes, p.Knows ref) ∧ (p.parts m).hash p.digest = key) ∨
    ∃ i ∈ p.readings m, i.hash p.digest = key ∧ ∃ name ∈ i.params, TypeRef.IsAbsent name

/-- The table of types holds them under their names, and that of methods holds what is entered. -/
structure Tabled (p : Program) : Prop where
  types : Holds p.typeTable p.typeKey?
  entered : ∀ key id, p.methodTable.get? key = some id →
    ∃ m, p.method? id = some m ∧ p.EnteredAs id m key
  owners : ∀ id m, p.method? id = some m → (p.type? m.owner).isSome

section Entry

variable (h : p.Renders q) (hThere : (p.type? m.owner).isSome) (hSame : m'.entry = m.entry)

include h hThere hSame

/-- An identity that a method had stays one of those. -/
theorem Renders.mem_readings (hMem : i ∈ p.readings m) : i ∈ q.readings m' := by
  simp only [MethodDef.entry, Prod.mk.injEq] at hSame
  obtain ⟨hOwner, hName, hParams⟩ := hSame
  obtain ⟨hOwner', hName', hParams'⟩ := Program.mem_readings.mp hMem
  refine Program.mem_readings.mpr ⟨?_, hName'.trans hName.symm, ?_⟩
  · rw [hOwner', hOwner, h.typeName hThere]
  · rw [hParams]
    refine hParams'.imp fun name ref hReads => ?_
    by_cases hKnown : p.Knows ref
    · rwa [h.refName hKnown]
    · rw [(refName_of_absent hKnown).1, or_self] at hReads
      exact Or.inr hReads

/-- A method stays entered under a key as long as its owner lists it. -/
theorem Renders.enteredAs (hLists : p.Lists m.owner id → q.Lists m.owner id)
    (hEntered : p.EnteredAs id m key) : q.EnteredAs id m' key := by
  rcases hEntered with ⟨hListed, hKnown, hHash⟩ | ⟨i, hMem, hHash, hAbsent⟩
  · simp only [MethodDef.entry, Prod.mk.injEq] at hSame
    obtain ⟨hOwner, hName, hParams⟩ := hSame
    have hParts : q.parts m' = p.parts m := by
      rw [← h.parts hThere hKnown, Program.parts, Program.parts, hOwner, hName, hParams]
    have hKnown (ref : TypeRef) (hMem : ref ∈ m'.paramTypes) : q.Knows ref :=
      h.knows (hKnown ref (hParams ▸ hMem))
    exact Or.inl ⟨hOwner ▸ hLists hListed, hKnown, by rw [hParts, h.digest, hHash]⟩
  · exact Or.inr ⟨i, h.mem_readings hThere hSame hMem, h.digest ▸ hHash, hAbsent⟩

end Entry

/-- A method that its owner lists is entered under the key of its identity as that read before. -/
theorem Renders.enteredAs_listed (h : p.Renders q) (hThere : (p.type? m.owner).isSome)
    (hLists : q.Lists m.owner id) (hKey : (p.parts m).hash p.digest = key) :
    q.EnteredAs id m key := by
  by_cases hKnown : ∀ ref ∈ m.paramTypes, p.Knows ref
  · refine Or.inl ⟨hLists, fun ref hMem => h.knows (hKnown ref hMem), ?_⟩
    rw [h.parts hThere hKnown, h.digest, hKey]
  · push Not at hKnown
    obtain ⟨ref, hMem, hAbsent⟩ := hKnown
    obtain ⟨hName, hAbsent⟩ := refName_of_absent hAbsent
    exact Or.inr ⟨_, h.mem_readings hThere rfl parts_mem_readings, h.digest ▸ hKey, _,
      List.mem_map_of_mem hMem, hName ▸ hAbsent⟩

/-- A change of a type that keeps a method listed. -/
theorem Lists.modify {owner type : TypeId} {f : TypeDef → TypeDef} (h : p.Lists type id)
    (hTypes : q.types = p.types.modify owner.index f)
    (hf : ∀ t, id ∈ t.methods → id ∈ (f t).methods) : q.Lists type id := by
  obtain ⟨t, hType, hMem⟩ := h
  refine ⟨if owner.index = type.index then f t else t, ?_, ?_⟩
  · rw [type?, hTypes, List.getElem?_modify, ← type?, hType]
    rfl
  · split
    · exact hf t hMem
    · exact hMem

/-- A method that is added is listed by its owner. -/
theorem lists_appendMethod (hOwner : (p.type? m.owner).isSome) :
    (p.appendMethod m key).Lists m.owner ⟨p.methods.length⟩ := by
  obtain ⟨t, hType⟩ := Option.isSome_iff_exists.mp hOwner
  refine ⟨{ t with methods := t.methods ++ [⟨p.methods.length⟩] }, ?_, by simp⟩
  rw [type?, appendMethod, List.getElem?_modify, ← type?, hType]
  simp

theorem get?_withdrawMethod {other : SymbolHash} {found : MethodId}
    (h : (p.withdrawMethod id m key).methodTable.get? other = some found) :
    p.methodTable.get? other = some found ∧ ¬ (other = key ∧ found = id) := by
  change (if p.methodTable.get? key = some id then p.methodTable.erase key else
    p.methodTable).get? other = some found at h
  split at h
  · rw [Table.get?_erase] at h
    split at h
    · cases h
    · exact ⟨h, fun hBoth => ‹¬ key = other› hBoth.1.symm⟩
  · refine ⟨h, ?_⟩
    rintro ⟨rfl, rfl⟩
    exact absurd h ‹_›

namespace Tabled

/-- It stays so where types come along and nothing about the methods changes that their entries
depend on. -/
theorem of_renders (h : p.Tabled) (hRenders : p.Renders q) (hTypes : Holds q.typeTable q.typeKey?)
    (hTable : q.methodTable = p.methodTable)
    (hMethods : q.methods.map MethodDef.entry = p.methods.map MethodDef.entry)
    (hLists : ∀ owner id, p.Lists owner id → q.Lists owner id) : q.Tabled := by
  have hSame (id : MethodId) :
      (q.method? id).map MethodDef.entry = (p.method? id).map MethodDef.entry := by
    simpa only [method?, ← List.getElem?_map] using congrArg (·[id.index]?) hMethods
  refine ⟨hTypes, fun key id hFound => ?_, fun id m' hMethod => ?_⟩
  · obtain ⟨m, hMethod, hEntered⟩ := h.entered key id (hTable ▸ hFound)
    have hSame := hSame id
    rw [hMethod, Option.map_some] at hSame
    obtain ⟨m', hMethod', hEntry⟩ := Option.map_eq_some_iff.mp hSame
    exact ⟨m', hMethod', hRenders.enteredAs (h.owners id m hMethod) hEntry (hLists _ _) hEntered⟩
  · have hSame := hSame id
    rw [hMethod, Option.map_some] at hSame
    obtain ⟨m, hMethod, hEntry⟩ := Option.map_eq_some_iff.mp hSame.symm
    have hOwner : m.owner = m'.owner := congrArg (·.1) hEntry
    exact hRenders.isSome (hOwner ▸ h.owners id m hMethod)

theorem of_alike (h : p.Tabled) (hTypes : p.NamedAlike q) (hTable : q.methodTable = p.methodTable)
    (hMethods : q.methods.map MethodDef.entry = p.methods.map MethodDef.entry)
    (hLists : q.types.map (·.methods) = p.types.map (·.methods)) : q.Tabled := by
  refine h.of_renders hTypes.renders (hTypes.types h.types) hTable hMethods ?_
  rintro owner id ⟨t, hType, hMem⟩
  have hSame := type?_map hLists owner
  rw [hType, Option.map_some] at hSame
  obtain ⟨t', hType', hList⟩ := Option.map_eq_some_iff.mp hSame
  exact ⟨t', hType', hList ▸ hMem⟩

theorem indifferent : Indifferent Tabled := by
  intro p q h hTypes _ hMethods
  refine h.of_alike hTypes hMethods.methodTable ?_ hMethods.methodLists
  have hEntries := congrArg (List.map fun f => (f.1, f.2.1, f.2.2.1)) hMethods.methods
  rwa [List.map_map, List.map_map] at hEntries

theorem withDigest (digest : String → UInt64) : (Program.withDigest digest).Tabled :=
  ⟨(filed_withDigest digest).types,
    fun key id h => by simp [Program.withDigest, Table.get?_empty] at h,
    fun _ _ h => by simp [Program.withDigest, method?] at h⟩

/-- A type that comes along changes nothing about methods. -/
theorem appendType (h : p.Tabled) {t : TypeDef} (hKey : .ofType p.digest t.fullName = key)
    (hFree : p.typeTable.get? key = none) : (p.appendType t key).Tabled := by
  refine h.of_renders (p.renders_appendType t key) (holds_appendType h.types hKey hFree) rfl rfl ?_
  rintro owner id ⟨t', hType, hMem⟩
  refine ⟨t', ?_, hMem⟩
  rw [type?_appendType, if_neg]
  · exact hType
  · rintro rfl
    cases type?_new.symm.trans hType

/-- A method that is added is entered under the key of its identity, as that reads for now. -/
theorem appendMethod (h : p.Tabled) (hOwner : (p.type? m.owner).isSome)
    (hKey : (p.parts m).hash p.digest = key) : (p.appendMethod m key).Tabled := by
  have hTypes : p.NamedAlike (p.appendMethod m key) := ⟨rfl, rfl, map_modify_eq fun _ => rfl⟩
  have hRenders := hTypes.renders
  have hLists {owner : TypeId} {id : MethodId} (hListed : p.Lists owner id) :
      (p.appendMethod m key).Lists owner id :=
    hListed.modify rfl fun t hMem => List.mem_append_left _ hMem
  refine ⟨hTypes.types h.types, fun other id hFound => ?_, fun id m' hMethod => ?_⟩
  · change (p.methodTable.insert key _).get? other = some id at hFound
    rw [Table.get?_insert] at hFound
    split at hFound
    · obtain rfl := Option.some_inj.mp hFound
      subst other
      refine ⟨m, by rw [method?_appendMethod, if_pos rfl], ?_⟩
      exact hRenders.enteredAs_listed hOwner (lists_appendMethod hOwner) hKey
    · obtain ⟨m', hMethod, hEntered⟩ := h.entered other id hFound
      refine ⟨m', ?_, hRenders.enteredAs (h.owners id m' hMethod) rfl hLists hEntered⟩
      rw [method?_appendMethod, if_neg]
      · exact hMethod
      · rintro rfl
        simp [method?] at hMethod
  · rw [method?_appendMethod] at hMethod
    split at hMethod
    · obtain rfl := Option.some_inj.mp hMethod
      exact hRenders.isSome hOwner
    · exact hRenders.isSome (h.owners id m' hMethod)

/-- A method that is retired leaves the table, unless it stands there as it was before. -/
theorem withdrawMethod (h : p.Tabled) {id : MethodId} (hMethod : p.method? id = some m)
    (hKey : (p.parts m).hash p.digest = key) : (p.withdrawMethod id m key).Tabled := by
  have hTypes : p.NamedAlike (p.withdrawMethod id m key) := ⟨rfl, rfl, map_modify_eq fun _ => rfl⟩
  have hRenders := hTypes.renders
  have hThere {other : MethodId} {d : MethodDef} (hOther : p.method? other = some d) :
      ∃ d', (p.withdrawMethod id m key).method? other = some d' ∧ d'.entry = d.entry := by
    rw [method?_withdrawMethod, hOther, Option.map_some]
    refine ⟨_, rfl, ?_⟩
    split <;> rfl
  refine ⟨hTypes.types h.types, fun other found hFound => ?_, fun other m' hMethod' => ?_⟩
  · obtain ⟨hBefore, hOthers⟩ := get?_withdrawMethod hFound
    obtain ⟨d, hOther, hEntered⟩ := h.entered other found hBefore
    obtain ⟨d', hOther', hEntry⟩ := hThere hOther
    refine ⟨d', hOther', ?_⟩
    by_cases hSame : found = id
    · subst hSame
      obtain rfl : m = d := Option.some_inj.mp (hMethod.symm.trans hOther)
      rcases hEntered with ⟨-, -, hHash⟩ | ⟨i, hMem, hHash, hAbsent⟩
      · exact absurd ⟨hHash.symm.trans hKey, rfl⟩ hOthers
      · have hMem := hRenders.mem_readings (h.owners found m hMethod) hEntry hMem
        exact Or.inr ⟨i, hMem, hHash, hAbsent⟩
    · refine hRenders.enteredAs (h.owners found d hOther) hEntry (fun hListed => ?_) hEntered
      exact hListed.modify rfl fun t hMem => List.mem_filter.mpr ⟨hMem, by simpa using hSame⟩
  · rw [method?_withdrawMethod, Option.map_eq_some_iff] at hMethod'
    obtain ⟨d, hOther, rfl⟩ := hMethod'
    refine hRenders.isSome (?_ : (p.type? _).isSome)
    split <;> exact h.owners other d hOther

end Tabled

theorem tabled_addType {nameSpace name : String} {declaring : Option TypeId}
    {flags : FlagSet TypeFlag} : Upholds Tabled (addType nameSpace name declaring flags) := by
  intro p q h hEnds
  rcases addType_ends hEnds with rfl | ⟨t, key, hKey, hFree, -, -, hTypes, hFields, hMethods⟩
  · exact h
  · exact Tabled.indifferent (h.appendType hKey hFree) hTypes hFields hMethods

theorem tabled_addField {owner : TypeId} {name : String} {type : TypeRef}
    {flags : FlagSet FieldFlag} : Upholds Tabled (addField owner name type flags) := by
  intro p q h hEnds
  rcases addField_ends hEnds with rfl | ⟨key, -, -, rfl⟩
  · exact h
  · exact h.of_alike ⟨rfl, rfl, map_modify_eq fun _ => rfl⟩ rfl rfl (map_modify_eq fun _ => rfl)

theorem tabled_addMethod {owner : TypeId} {name : String} {params : List Param} {result : TypeRef}
    {flags : FlagSet MethodFlag} : Upholds Tabled (addMethod owner name params result flags) := by
  intro p q h hEnds
  rcases addMethod_ends hEnds with rfl | ⟨key, hKey, -, rfl⟩
  · exact h
  · obtain ⟨hOwner, hHash⟩ := methodHash_ok.mp hKey
    exact h.appendMethod hOwner hHash

theorem tabled_retireMethod {id : MethodId} : Upholds Tabled (retireMethod id) := by
  intro p q h hEnds
  rcases retireMethod_ends hEnds with rfl | ⟨m, key, hMethod, hKey, rfl⟩
  · exact h
  · exact h.withdrawMethod hMethod (methodHash_ok.mp hKey).2

theorem tabled_retireField {id : FieldId} : Upholds Tabled (retireField id) := by
  intro p q h hEnds
  rcases retireField_ends hEnds with rfl | ⟨f, key, -, -, rfl⟩
  · exact h
  · exact h.of_alike ⟨rfl, rfl, map_modify_eq fun _ => rfl⟩ rfl rfl (map_modify_eq fun _ => rfl)

theorem tabled_cloneMethod {id : MethodId} {owner : TypeId} {name : String} {shape : MethodShape} :
    Upholds Tabled (cloneMethod id owner name shape) := by
  refine Upholds.bind .get fun p => Upholds.bind (.lift _) fun source => ?_
  refine Upholds.bind tabled_addMethod fun copy => ?_
  exact Upholds.bind (Tabled.indifferent.modifyMethod fun _ => rfl) fun _ => .pure _

theorem tabled_cloneType {id : TypeId} {declaring : Option TypeId} :
    Upholds Tabled (cloneType id declaring) :=
  Tabled.indifferent.cloneType (fun _ _ _ _ => tabled_addType) (fun _ _ _ _ _ => tabled_addField)
    fun _ _ _ => tabled_cloneMethod

/-- Each change keeps the tables so, whatever it adds. -/
theorem tabled_after (h : p.Tabled) (c : Change) : (c.after p).Tabled := by
  have hEnds := c.ends_after p
  have hI := Tabled.indifferent
  cases c with
  | addType => exact tabled_addType h (Change.ends_of_discarded hEnds)
  | setBase => exact hI.setBase h hEnds
  | addInterface => exact hI.addInterface h hEnds
  | addField => exact tabled_addField h (Change.ends_of_discarded hEnds)
  | addMethod => exact tabled_addMethod h (Change.ends_of_discarded hEnds)
  | setBody => exact hI.setBody h hEnds
  | addProperty => exact hI.addProperty h hEnds
  | cloneMethod => exact tabled_cloneMethod h (Change.ends_of_discarded hEnds)
  | cloneType => exact tabled_cloneType h (Change.ends_of_discarded hEnds)
  | retireMethod => exact tabled_retireMethod h hEnds
  | retireField => exact tabled_retireField h hEnds

end Program

end ContextBinding
