import ContextBinding.Proofs.Collision
import ContextBinding.Proofs.Endurance
import ContextBinding.Proofs.Sharing

/-! Names of copies. The search for a name goes by the names and parameters of the methods in use,
and registration by a key. However a program came about, a name that the search gives is not refused
by registration, where types have plain names and keys tell the identities apart. -/

namespace ContextBinding

/-- A method is refused as a duplicate. -/
def ModelError.RefusesMethod (e : ModelError) : Prop := ∃ identity, e = .duplicateMethod identity

/-- A run fails because a method is refused as a duplicate. -/
def Error.RefusesMethod (e : Error) : Prop := ∃ identity, e = .model (.duplicateMethod identity)

namespace TypeRef

/-- The names of the types that are built in. -/
def builtinNames : List String :=
  [void, bool, int32, int64, float64, string, object, nativeInt].filterMap builtinName?

/-- A name that is not read as a reference of another kind. -/
def OwnName (name : String) : Prop :=
  name ∉ builtinNames ∧ ¬ "[]".toList <:+ name.toList ∧ ¬ "&".toList <:+ name.toList

/-- A name that is not read as one of a type that is not there, either. -/
def PlainName (name : String) : Prop := OwnName name ∧ name ≠ "<unknown>"

instance : DecidablePred OwnName := fun _ => inferInstanceAs (Decidable (_ ∧ _ ∧ _))

instance : DecidablePred PlainName := fun _ => inferInstanceAs (Decidable (_ ∧ _))

theorem builtinName?_inj {a b : TypeRef} (h : a.builtinName? = b.builtinName?)
    (hSome : b.builtinName?.isSome) : a = b := by
  cases a <;> cases b <;> simp_all [builtinName?]

theorem mem_builtinNames {ref : TypeRef} {name : String} (h : ref.builtinName? = some name) :
    name ∈ builtinNames := by
  refine List.mem_filterMap.mpr ⟨ref, ?_, h⟩
  cases ref <;> simp_all [builtinName?]

theorem eq_named {ref : TypeRef} (hNone : ref.builtinName? = none)
    (hByRef : ∀ target, ref ≠ byRef target) (hArray : ∀ element, ref ≠ array element) :
    ∃ id, ref = named id := by
  cases ref <;> simp_all [builtinName?]

end TypeRef

namespace CopyName

/-- The number that a candidate ends in, which the first with a suffix leaves out. -/
def numeral (n : Nat) : List Char := if n = 1 then [] else (toString n).toList

/-- What a candidate has behind the name. -/
def ending (n : Nat) : List Char := if n = 0 then [] else suffix ++ numeral n

theorem toList_candidate (name : String) (n : Nat) :
    (candidate name n).toList = name.toList ++ ending n := by
  rcases n with _ | _ | n <;> simp [candidate, ending, numeral]

theorem numeral_injective : Function.Injective numeral := by
  have hDigits (n : Nat) : (toString n).toList ≠ [] := by
    simp [Nat.toList_repr, Nat.toDigits_ne_nil]
  intro n k h
  unfold numeral at h
  split at h <;> split at h
  · omega
  · exact absurd h.symm (hDigits k)
  · exact absurd h (hDigits n)
  · exact Nat.repr_inj.mp (String.toList_inj.mp h)

theorem ending_injective : Function.Injective ending := by
  intro n k h
  unfold ending at h
  split at h <;> split at h
  · omega
  · simp [suffix_eq] at h
  · simp [suffix_eq] at h
  · exact numeral_injective (List.append_cancel_left h)

/-- No two candidates are the same. -/
theorem candidate_injective (name : String) : Function.Injective (candidate name) := by
  intro n k h
  have h := congrArg String.toList h
  rw [toList_candidate, toList_candidate] at h
  exact ending_injective (List.append_cancel_left h)

end CopyName

namespace Program

variable {p : Program}

/-- The types of a program have plain names. -/
def PlainNames (p : Program) : Prop := ∀ t ∈ p.types, TypeRef.PlainName t.fullName

/-- The types of all parameters are there. -/
def Complete (p : Program) : Prop := ∀ m ∈ p.methods, ∀ ref ∈ m.paramTypes, p.Knows ref

instance : DecidablePred PlainNames := fun p =>
  inferInstanceAs (Decidable (∀ t ∈ p.types, TypeRef.PlainName t.fullName))

instance : DecidablePred Complete := fun p =>
  inferInstanceAs (Decidable (∀ m ∈ p.methods, ∀ ref ∈ m.paramTypes, p.Knows ref))

section Names

theorem refName_builtin {ref : TypeRef} {name : String} (h : ref.builtinName? = some name) :
    p.refName ref = name := by
  cases ref <;> simp_all [TypeRef.builtinName?, refName]

variable (hPlain : p.PlainNames)

include hPlain

theorem PlainNames.typeName {id : TypeId} (h : (p.type? id).isSome) :
    TypeRef.PlainName (p.typeName id) := by
  obtain ⟨t, hType⟩ := Option.isSome_iff_exists.mp h
  rw [typeName_eq hType]
  exact hPlain t (List.mem_of_getElem? hType)

/-- What the name of a reference ends in tells its kind. -/
theorem PlainNames.suffix_refName {ref : TypeRef} (h : p.Knows ref) :
    ("&".toList <:+ (p.refName ref).toList ↔ ∃ target, ref = .byRef target) ∧
    ("[]".toList <:+ (p.refName ref).toList ↔ ∃ element, ref = .array element) := by
  cases ref with
  | named id =>
      obtain ⟨⟨-, hArray, hByRef⟩, -⟩ := hPlain.typeName h
      exact ⟨iff_of_false hByRef (by simp), iff_of_false hArray (by simp)⟩
  | byRef target =>
      simp [refName, ← List.reverse_prefix]
  | array element =>
      simp [refName, ← List.reverse_prefix]
  | _ => simp [refName, TypeRef.builtinName?, ← List.reverse_prefix]

/-- A reference to types that are there reads like no reference to one that is not. -/
theorem PlainNames.not_isAbsent {name : String} (hAbsent : TypeRef.IsAbsent name) :
    ∀ ref, p.Knows ref → p.refName ref ≠ name := by
  induction hAbsent with
  | unknown =>
      intro ref hKnown hName
      cases ref with
      | named id => exact (hPlain.typeName hKnown).2 hName
      | byRef target =>
          have hEnd := (hPlain.suffix_refName hKnown).1.mpr ⟨target, rfl⟩
          exact absurd (hName ▸ hEnd) (by decide)
      | array element =>
          have hEnd := (hPlain.suffix_refName hKnown).2.mpr ⟨element, rfl⟩
          exact absurd (hName ▸ hEnd) (by decide)
      | _ => exact absurd hName (by simp [refName, TypeRef.builtinName?])
  | byRef _ ih =>
      intro ref hKnown hName
      obtain ⟨target, rfl⟩ := (hPlain.suffix_refName hKnown).1.mp (hName ▸ by simp)
      exact ih target hKnown (String.append_left_inj _ |>.mp hName)
  | array _ ih =>
      intro ref hKnown hName
      obtain ⟨element, rfl⟩ := (hPlain.suffix_refName hKnown).2.mp (hName ▸ by simp)
      exact ih element hKnown (String.append_left_inj _ |>.mp hName)

variable (hTypes : ContextBinding.Holds p.typeTable p.typeKey?)

include hTypes

omit hPlain in
/-- Types are told apart by their names. -/
theorem typeName_injOn {id other : TypeId} (h : (p.type? id).isSome) (h' : (p.type? other).isSome)
    (hName : p.typeName id = p.typeName other) : id = other := by
  obtain ⟨t, hType⟩ := Option.isSome_iff_exists.mp h
  obtain ⟨t', hType'⟩ := Option.isSome_iff_exists.mp h'
  rw [typeName_eq hType, typeName_eq hType'] at hName
  have hKey (id : TypeId) (t : TypeDef) (h : p.type? id = some t) :
      p.typeTable.get? (.ofType p.digest t.fullName) = some id :=
    (hTypes _ _).mpr (by simp [typeKey?, h])
  exact Option.some_inj.mp ((hKey id t hType).symm.trans (hName ▸ hKey other t' hType'))

theorem PlainNames.refName_flat {a b : TypeRef} (hKnown : p.Knows a) (hKnown' : p.Knows b)
    (hName : p.refName a = p.refName b) (hByRef : ∀ target, a ≠ .byRef target)
    (hArray : ∀ element, a ≠ .array element) : a = b := by
  have hEnds := hPlain.suffix_refName hKnown
  have hEnds' := hPlain.suffix_refName hKnown'
  rw [← hName] at hEnds'
  have hByRef' (target : TypeRef) (h : b = .byRef target) : False := by
    obtain ⟨target, h⟩ := hEnds.1.mp (hEnds'.1.mpr ⟨target, h⟩)
    exact hByRef target h
  have hArray' (element : TypeRef) (h : b = .array element) : False := by
    obtain ⟨element, h⟩ := hEnds.2.mp (hEnds'.2.mpr ⟨element, h⟩)
    exact hArray element h
  have hNamed {id : TypeId} {ref : TypeRef} {name : String} (hThere : p.Knows (.named id))
      (hBuiltin : ref.builtinName? = some name) : p.refName (.named id) ≠ p.refName ref := by
    intro hSame
    have hSame : p.typeName id = name := hSame.trans (refName_builtin hBuiltin)
    exact (hPlain.typeName hThere).1.1 (hSame ▸ TypeRef.mem_builtinNames hBuiltin)
  cases hFirst : a.builtinName? with
  | some name =>
      cases hSecond : b.builtinName? with
      | some name' =>
          rw [refName_builtin hFirst, refName_builtin hSecond] at hName
          exact TypeRef.builtinName?_inj (hFirst.trans (hName ▸ hSecond.symm)) (hSecond ▸ rfl)
      | none =>
          obtain ⟨id, rfl⟩ := TypeRef.eq_named hSecond hByRef' hArray'
          exact absurd hName.symm (hNamed hKnown' hFirst)
  | none =>
      obtain ⟨id, rfl⟩ := TypeRef.eq_named hFirst hByRef hArray
      cases hSecond : b.builtinName? with
      | some name => exact absurd hName (hNamed hKnown hSecond)
      | none =>
          obtain ⟨other, rfl⟩ := TypeRef.eq_named hSecond hByRef' hArray'
          exact congrArg _ (typeName_injOn hTypes hKnown hKnown' hName)

/-- References to types that are there are told apart by their names. -/
theorem PlainNames.refName_injOn (a : TypeRef) : ∀ b, p.Knows a → p.Knows b →
    p.refName a = p.refName b → a = b := by
  induction a with
  | byRef target ih =>
      intro b hKnown hKnown' hName
      obtain ⟨target', rfl⟩ := (hPlain.suffix_refName hKnown').1.mp
        (hName ▸ (hPlain.suffix_refName hKnown).1.mpr ⟨target, rfl⟩)
      exact congrArg _ (ih target' hKnown hKnown' (String.append_left_inj _ |>.mp hName))
  | array element ih =>
      intro b hKnown hKnown' hName
      obtain ⟨element', rfl⟩ := (hPlain.suffix_refName hKnown').2.mp
        (hName ▸ (hPlain.suffix_refName hKnown).2.mpr ⟨element, rfl⟩)
      exact congrArg _ (ih element' hKnown hKnown' (String.append_left_inj _ |>.mp hName))
  | _ =>
      intro b hKnown hKnown' hName
      exact hPlain.refName_flat hTypes hKnown hKnown' hName (by simp) (by simp)

theorem PlainNames.refNames_injOn {refs refs' : List TypeRef} (h : ∀ ref ∈ refs, p.Knows ref)
    (h' : ∀ ref ∈ refs', p.Knows ref) (hNames : refs.map p.refName = refs'.map p.refName) :
    refs = refs' := by
  induction refs generalizing refs' with
  | nil => exact (List.map_eq_nil_iff.mp hNames.symm).symm
  | cons ref refs ih =>
      cases refs' with
      | nil => cases hNames
      | cons ref' refs' =>
          rw [List.forall_mem_cons] at h h'
          obtain ⟨hName, hNames⟩ := List.cons.inj hNames
          rw [hPlain.refName_injOn hTypes ref ref' h.1 h'.1 hName, ih h.2 h'.2 hNames]

end Names

section Search

variable {owner : TypeId} {name : String} {params : List TypeRef}

theorem hasOverload_iff : p.hasOverload owner name params = true ↔ ∃ id m, p.Lists owner id ∧
    p.method? id = some m ∧ m.name = name ∧ m.paramTypes = params := by
  unfold hasOverload findMethods methodsWhere Lists
  cases hType : p.type? owner with
  | none => simp
  | some t =>
      simp only [List.any_eq_true, List.mem_filter, Option.some.injEq, exists_eq_left']
      refine exists_congr fun id => ?_
      cases hMethod : p.method? id <;> simp [and_assoc]

/-- Up to the name that the search gives, all candidates are taken, and it is not, unless the search
gave up. -/
theorem freeNameFrom_search (p : Program) (owner : TypeId) (name : String) (params : List TypeRef)
    (fuel n : Nat) : ∃ k, n ≤ k ∧
    p.freeNameFrom owner name params fuel n = CopyName.candidate name k ∧
    (∀ j, n ≤ j → j < k → p.hasOverload owner (CopyName.candidate name j) params = true) ∧
    (p.hasOverload owner (CopyName.candidate name k) params = false ∨ k = n + fuel) := by
  induction fuel generalizing n with
  | zero => exact ⟨n, Nat.le_refl n, rfl, fun j hLow hHigh => absurd hHigh (by omega), Or.inr rfl⟩
  | succ fuel ih =>
      rw [freeNameFrom]
      cases hTaken : p.hasOverload owner (CopyName.candidate name n) params with
      | false =>
          exact ⟨n, Nat.le_refl n, rfl, fun j hLow hHigh => absurd hHigh (by omega), Or.inl hTaken⟩
      | true =>
          obtain ⟨k, hLater, hSame, hBelow, hEnd⟩ := ih (n + 1)
          refine ⟨k, by omega, hSame, fun j hLow hHigh => ?_, hEnd.imp_right (by omega)⟩
          rcases Nat.eq_or_lt_of_le hLow with rfl | hNext
          · exact hTaken
          · exact hBelow j hNext hHigh

/-- There are no more names that are taken than methods of the owner. -/
theorem taken_le {count : Nat} (h : ∀ j < count,
    p.hasOverload owner (CopyName.candidate name j) params = true) :
    count ≤ ((p.type? owner).map fun t => t.methods.length).getD 0 := by
  cases hType : p.type? owner with
  | none =>
      cases count with
      | zero => exact Nat.le_refl 0
      | succ count =>
          obtain ⟨id, m, ⟨t, hThere, -⟩, -⟩ := hasOverload_iff.mp (h 0 (by omega))
          cases hType.symm.trans hThere
  | some t =>
      have hSubset : (List.range count).map (CopyName.candidate name) ⊆
          t.methods.filterMap fun id => (p.method? id).map (·.name) := by
        intro taken hMem
        obtain ⟨j, hLess, rfl⟩ := List.mem_map.mp hMem
        obtain ⟨id, m, ⟨t', hThere, hListed⟩, hMethod, hName, -⟩ :=
          hasOverload_iff.mp (h j (List.mem_range.mp hLess))
        obtain rfl : t = t' := Option.some_inj.mp (hType.symm.trans hThere)
        exact List.mem_filterMap.mpr ⟨id, hListed, by rw [hMethod, Option.map_some, hName]⟩
      have hDistinct : ((List.range count).map (CopyName.candidate name)).Nodup :=
        List.nodup_range.map (CopyName.candidate_injective name)
      calc count = ((List.range count).map (CopyName.candidate name)).length := by simp
        _ ≤ (t.methods.filterMap fun id => (p.method? id).map (·.name)).length :=
          (List.subperm_of_subset hDistinct hSubset).length_le
        _ ≤ t.methods.length := List.length_filterMap_le ..

/-- The search for a name ends with the first candidate that is not taken. -/
theorem copyName_search (p : Program) (owner : TypeId) (name : String) (params : List TypeRef) :
    ∃ n, p.copyName owner name params = CopyName.candidate name n ∧
      p.hasOverload owner (CopyName.candidate name n) params = false ∧
      ∀ k < n, p.hasOverload owner (CopyName.candidate name k) params = true := by
  obtain ⟨n, -, hSame, hBelow, hEnd⟩ := p.freeNameFrom_search owner name params
    (((p.type? owner).map fun t => t.methods.length).getD 0) 0
  have hBelow (k : Nat) (hLess : k < n) := hBelow k (Nat.zero_le k) hLess
  refine ⟨n, hSame, ?_, hBelow⟩
  cases hTaken : p.hasOverload owner (CopyName.candidate name n) params with
  | false => rfl
  | true =>
      -- All candidates are taken then, and there is one more of them than there are methods.
      have hAll : ∀ j < n + 1, p.hasOverload owner (CopyName.candidate name j) params = true := by
        intro j hLess
        rcases Nat.lt_succ_iff_lt_or_eq.mp hLess with hLess | rfl
        · exact hBelow j hLess
        · exact hTaken
      have hCount := taken_le hAll
      have hLast := hEnd.resolve_left (by simp [hTaken])
      omega

end Search

section Registration

variable {owner : TypeId} {name : String} {params : List TypeRef}

/-- The parts of the identity of a copy, under the name that the search gives. -/
def copyParts (p : Program) (owner : TypeId) (name : String) (params : List TypeRef) :
    IdentityParts :=
  ⟨p.typeName owner, p.copyName owner name params, params.map p.refName⟩

/-- No method has or had another identity than a copy is to have, and the same key. -/
def Distinguishes (p : Program) (owner : TypeId) (name : String) (params : List TypeRef) : Prop :=
  ∀ m ∈ p.methods, ∀ i ∈ p.readings m,
    i.hash p.digest = (p.copyParts owner name params).hash p.digest →
      i = p.copyParts owner name params

instance : Decidable (p.Distinguishes owner name params) :=
  inferInstanceAs (Decidable (∀ m ∈ p.methods, ∀ i ∈ p.readings m, _ → i = _))

/-- Nothing is entered under the key of a copy. -/
theorem Tabled.copy_free (h : p.Tabled) (hPlain : p.PlainNames) (hOwner : (p.type? owner).isSome)
    (hKnown : ∀ ref ∈ params, p.Knows ref) (hHash : p.Distinguishes owner name params) :
    p.methodTable.get? ((p.copyParts owner name params).hash p.digest) = none := by
  obtain ⟨n, hSame, hFree, -⟩ := p.copyName_search owner name params
  rw [← hSame] at hFree
  cases hFound : p.methodTable.get? ((p.copyParts owner name params).hash p.digest) with
  | none => rfl
  | some id =>
      exfalso
      obtain ⟨m, hMethod, hEntered⟩ := h.entered _ id hFound
      have hHash := hHash m (List.mem_of_getElem? hMethod)
      rcases hEntered with ⟨hListed, hThere, hKey⟩ | ⟨i, hMem, hKey, absent, hIn, hAbsent⟩
      · have hParts : p.parts m = p.copyParts owner name params := hHash _ parts_mem_readings hKey
        simp only [parts, copyParts, IdentityParts.mk.injEq] at hParts
        obtain ⟨hOwners, hNames, hParams⟩ := hParts
        obtain rfl : m.owner = owner :=
          typeName_injOn h.types (h.owners id m hMethod) hOwner hOwners
        have hParams := hPlain.refNames_injOn h.types hThere hKnown hParams
        refine Bool.false_ne_true (hFree.symm.trans (hasOverload_iff.mpr ?_))
        exact ⟨id, m, hListed, hMethod, hNames, hParams⟩
      · rw [hHash i hMem hKey] at hIn
        obtain ⟨ref, hRef, hName⟩ := List.mem_map.mp hIn
        exact hPlain.not_isAbsent hAbsent ref (hKnown ref hRef) hName

theorem methodDef_error {id : MethodId} {e : ModelError} (h : p.methodDef id = .error e) :
    ¬ e.RefusesMethod := by
  unfold methodDef at h
  split at h
  · cases h
  · cases h
    rintro ⟨_, ⟨⟩⟩

theorem modifyMethod_avoids {id : MethodId} {f : MethodDef → MethodDef} :
    Avoids ModelError.RefusesMethod (modifyMethod id f) p :=
  .bind (.modify _) fun _ _ _ => .get_bind (.bind (.lift fun _ => methodDef_error) fun _ _ _ =>
    .modify _)

/-- A method is refused as a duplicate only if its key is taken. -/
theorem addMethod_avoids {params : List Param} {result : TypeRef} {flags : FlagSet MethodFlag}
    (h : (p.type? owner).isSome →
      p.methodTable.get? ((p.requested owner name params).hash p.digest) = none) :
    Avoids ModelError.RefusesMethod (addMethod owner name params result flags) p := by
  intro e q hRun
  by_cases hOwner : (p.type? owner).isSome
  · rw [addMethod_eq hOwner, if_neg (by simp [Table.contains, h hOwner])] at hRun
    cases hRun
  · rw [addMethod_of_absent (by simpa using hOwner)] at hRun
    cases hRun
    rintro ⟨_, ⟨⟩⟩

theorem requested_copy {copied : List Param} (h : copied.map (·.type) = params) :
    p.requested owner (p.copyName owner name params) copied = p.copyParts owner name params := by
  rw [requested, copyParts, ← h, List.map_map]
  rfl

/-- A method that is there is copied to a type that is there, under the name of the search. -/
theorem Tabled.cloneMethod_succeeds (h : p.Tabled) (hPlain : p.PlainNames) {id : MethodId}
    {m : MethodDef} {shape : MethodShape} (hMethod : p.method? id = some m)
    (hParams : (shape.copyParams m).map (·.type) = params) (hOwner : (p.type? owner).isSome)
    (hKnown : ∀ ref ∈ params, p.Knows ref) (hHash : p.Distinguishes owner name params) :
    ∃ q, cloneMethod id owner (p.copyName owner name params) shape p =
      .ok ⟨p.methods.length⟩ q := by
  have hFree := h.copy_free hPlain hOwner hKnown hHash
  have hLook : p.methodDef id = .ok m := methodDef_ok.mpr hMethod
  have hAdd : addMethod owner (p.copyName owner name params) (shape.copyParams m) m.returnType
    (shape.copyFlags m) p = _ := addMethod_eq hOwner
  rw [requested_copy hParams, if_neg (by simp [Table.contains, hFree])] at hAdd
  refine ⟨_, Step.bind_ok.mpr ⟨p, p, rfl, Step.bind_ok.mpr ⟨m, p, Step.lift_ok.mpr ⟨hLook, rfl⟩,
    Step.bind_ok.mpr ⟨_, _, hAdd, Step.bind_ok.mpr ⟨_, _, modifyMethod_of_there ?_, rfl⟩⟩⟩⟩⟩
  rw [method?_appendMethod, if_pos rfl]
  rfl

/-- A copy of a method is not refused as a duplicate. -/
theorem Tabled.cloneMethod_avoids (h : p.Tabled) (hPlain : p.PlainNames) {id : MethodId}
    {shape : MethodShape}
    (hSource : ∀ m, p.method? id = some m → (shape.copyParams m).map (·.type) = params)
    (hKnown : ∀ ref ∈ params, p.Knows ref) (hHash : p.Distinguishes owner name params) :
    Avoids ModelError.RefusesMethod
      (cloneMethod id owner (p.copyName owner name params) shape) p := by
  refine .get_bind (.bind (.lift fun _ => methodDef_error) fun m _ hLook => ?_)
  obtain ⟨hMethod, rfl⟩ := Step.lift_ok.mp hLook
  refine .bind (addMethod_avoids fun hOwner => ?_) fun copy u _ =>
    .bind modifyMethod_avoids fun _ _ _ => .pure _
  rw [requested_copy (hSource m (methodDef_ok.mp hMethod))]
  exact h.copy_free hPlain hOwner hKnown hHash

end Registration

end Program

namespace Propagate

open Program

variable {s : Propagation} {method : MethodId} {context : ContextId}

theorem refusesMethod_model {e : ModelError} : (Error.model e).RefusesMethod ↔ e.RefusesMethod := by
  simp [Error.RefusesMethod, ModelError.RefusesMethod]

theorem model_avoids {α : Type} {f : Program → Except ModelError α}
    (h : ∀ e, f s.program = .error e → ¬ e.RefusesMethod) :
    Avoids Error.RefusesMethod (model f) s := by
  refine .focus (.bind (.get_bind (.pure _)) fun p u hRun => ?_)
  obtain ⟨rfl, rfl⟩ := Step.pure_ok.mp hRun
  split
  · exact .pure _
  · exact .throw (mt refusesMethod_model.mp (h _ ‹_›))

theorem edit_avoids {α : Type} {e : Edit α} (h : Avoids ModelError.RefusesMethod e s.program) :
    Avoids Error.RefusesMethod (edit e) s :=
  .focus (.focus fun e t hRun => mt refusesMethod_model.mp (h e t hRun))

theorem bindMethod_avoids {b : Binding} : Avoids Error.RefusesMethod (bindMethod b) s := by
  refine .get_bind (.bind (.focus (.bind (.get_bind (.pure _)) fun p u _ => ?_)) fun _ _ _ =>
    .modify _)
  split
  · exact .pure _
  · exact .throw (by simp [Error.RefusesMethod])

theorem makeCopy_avoids (hTabled : s.program.Tabled) (hPlain : s.program.PlainNames)
    {owner : TypeId} {name : String} {params : List TypeRef} {shape : MethodShape}
    (hSource : ∀ m, s.program.method? method = some m → (shape.copyParams m).map (·.type) = params)
    (hKnown : ∀ ref ∈ params, s.program.Knows ref)
    (hHash : s.program.Distinguishes owner name params) :
    Avoids Error.RefusesMethod (makeCopy method owner name params shape) s := by
  refine .bind (.get_bind (.pure _)) fun p u hRun => ?_
  obtain ⟨rfl, rfl⟩ := program_ok.mp hRun
  have hCopy := hTabled.cloneMethod_avoids hPlain hSource hKnown hHash
  refine .bind (edit_avoids hCopy) fun copy u _ => ?_
  exact .bind (edit_avoids modifyMethod_avoids) fun _ _ _ => .pure _

/-- What stands in for a method that moves to a context is not refused as a duplicate. -/
theorem convertedReplacement_avoids (hTabled : s.program.Tabled) (hPlain : s.program.PlainNames)
    (hComplete : s.program.Complete)
    (hHash : ∀ m, s.program.method? method = some m →
      s.program.Distinguishes (s.plan.context context).generated m.name m.paramTypes) :
    Avoids Error.RefusesMethod (convertedReplacement method context) s := by
  refine .get_bind ?_
  dsimp only
  split
  · exact .pure _
  · refine .bind (model_avoids fun _ => methodDef_error) fun m u hLook => ?_
    obtain ⟨hMethod, rfl⟩ := model_ok.mp hLook
    have hMethod := methodDef_ok.mp hMethod
    refine .bind (.get_bind (.pure _)) fun p u hRun => ?_
    obtain ⟨rfl, rfl⟩ := program_ok.mp hRun
    split
    · exact .pure _
    · refine .bind (makeCopy_avoids hTabled hPlain ?_ ?_ (hHash m hMethod)) fun _ _ _ => .pure _
      · intro m' hMethod'
        obtain rfl : m = m' := Option.some_inj.mp (hMethod.symm.trans hMethod')
        rfl
      · exact hComplete m (List.mem_of_getElem? hMethod)

/-- What stands in for a method that gains a parameter is not refused as a duplicate. -/
theorem addParameterTo_avoids (hTabled : s.program.Tabled) (hPlain : s.program.PlainNames)
    (hComplete : s.program.Complete) (hRoot : (s.program.type? s.plan.root).isSome)
    (hHash : ∀ m, s.program.method? method = some m →
      s.program.Distinguishes m.owner m.name (.named s.plan.root :: m.paramTypes)) :
    Avoids Error.RefusesMethod (addParameterTo method) s := by
  refine .get_bind (.ite (fun _ => .pure _) fun _ => ?_)
  refine .bind (model_avoids fun _ => methodDef_error) fun m u hLook => ?_
  obtain ⟨hMethod, rfl⟩ := model_ok.mp hLook
  have hMethod := methodDef_ok.mp hMethod
  refine .bind (.get_bind (.pure _)) fun p u hRun => ?_
  obtain ⟨rfl, rfl⟩ := program_ok.mp hRun
  have hRest (replacement : MethodId) (u : Propagation) : Avoids Error.RefusesMethod (do
      bindMethod ⟨method, replacement, .addedParameter⟩
      pure (some (method, replacement)) : Propagate (Option (MethodId × MethodId))) u :=
    .bind bindMethod_avoids fun _ _ _ => .pure _
  dsimp only
  split
  · exact .bind (.pure _) fun _ _ _ => hRest _ _
  · refine .bind (makeCopy_avoids hTabled hPlain ?_ ?_ (hHash m hMethod)) fun _ _ _ => hRest _ _
    · intro m' hMethod'
      obtain rfl : m = m' := Option.some_inj.mp (hMethod.symm.trans hMethod')
      rfl
    · rw [List.forall_mem_cons]
      exact ⟨hRoot, hComplete m (List.mem_of_getElem? hMethod)⟩

end Propagate

section Examples

open Program

/-- A root, a class with a method `f` that was registered ahead of the type of its parameter, other
overloads of it, a copy under the next name and a retired one under that after it, and a holder with
its context, which has had a `g` of its own and a retired copy. -/
def overloads : List Change :=
  [.addType "G" "Root" none ⟨0⟩, .addType "G" "U" none ⟨0⟩,
    .addMethod ⟨1⟩ "f" [⟨"a", .named ⟨2⟩⟩] .void (.ofList [.static]), .addType "G" "T" none ⟨0⟩,
    .addMethod ⟨1⟩ "f" [] .void (.ofList [.static]),
    .addMethod ⟨1⟩ "f" [⟨"root", .named ⟨0⟩⟩] .void (.ofList [.static]),
    .cloneMethod ⟨1⟩ ⟨1⟩ "f$context" (.leadingParam ⟨"root", .named ⟨0⟩⟩),
    .addMethod ⟨1⟩ "f$context2" [⟨"root", .named ⟨0⟩⟩] .void (.ofList [.static]), .retireMethod ⟨4⟩,
    .addType "G" "H" none ⟨0⟩, .addType "G" "H_Ctx" none ⟨0⟩,
    .addMethod ⟨3⟩ "g" [] .void (.ofList [.static]), .addMethod ⟨4⟩ "g" [] .void ⟨0⟩,
    .cloneMethod ⟨5⟩ ⟨4⟩ "g$context" .instanceMethod, .retireMethod ⟨7⟩]

/-- The context of the holder among the overloads. -/
def overloadsPlan : ContextPlan := ⟨⟨0⟩, ⟨0⟩, [.bare "H" ⟨3⟩ ⟨4⟩ ⟨0⟩]⟩

/-- A type that is called like one that is not there, and a method that was registered ahead of the
type of its parameter. -/
def namesake : List Change :=
  [.addType "" "<unknown>" none ⟨0⟩, .addType "G" "U" none ⟨0⟩,
    .addMethod ⟨1⟩ "f" [⟨"a", .named ⟨2⟩⟩] .void (.ofList [.static]), .addType "G" "T" none ⟨0⟩,
    .addMethod ⟨1⟩ "f" [] .void (.ofList [.static])]

end Examples

end ContextBinding
