import ContextBinding.Proofs.Lookup
import Mathlib.Data.Set.Function

/-! Which methods share a key. The key of a method is folded from the digests of its owner, its name
and the types of its parameters, and the fold loses nothing of any one of them: methods that differ
in one part only have different keys. A method is refused, or found, by its key alone. -/

namespace ContextBinding

namespace SymbolHash

/-- The separator is odd, so that a product with it can be undone. -/
theorem mul_separator_inj {a b : UInt64} (h : a * separator = b * separator) : a = b := by
  have hUnit : separator * 0xd3f20f0a40208825 = 1 := by decide
  have hUndone := congrArg (· * 0xd3f20f0a40208825) h
  simpa only [UInt64.mul_assoc, hUnit, UInt64.mul_one] using hUndone

/-- Nothing of what was hashed ahead of parameters is lost by them. -/
theorem addParams_inj {params : List SymbolHash} {position : Nat} {a b : UInt64}
    (h : addParams a position params = addParams b position params) : a = b := by
  induction params generalizing position a b with
  | nil => exact h
  | cons param params ih => exact mul_separator_inj ((UInt64.add_left_inj _).mp (ih h))

theorem addParams_append (before after : List SymbolHash) (position : Nat) (a : UInt64) :
    addParams a position (before ++ after) =
      addParams (addParams a position before) (position + before.length) after := by
  induction before generalizing position a with
  | nil => rfl
  | cons param before ih =>
      rw [List.cons_append, addParams, addParams, ih, List.length_cons, Nat.add_assoc, Nat.add_comm 1]

/-- Nothing of one parameter among others is lost. -/
theorem addParams_param_inj {before after : List SymbolHash} {position : Nat} {a : UInt64}
    {x y : SymbolHash}
    (h : addParams a position (before ++ x :: after) = addParams a position (before ++ y :: after)) :
    x = y := by
  rw [addParams_append, addParams_append, addParams, addParams] at h
  have hWord := (UInt64.xor_right_inj _).mp ((UInt64.add_right_inj _).mp (addParams_inj h))
  cases x
  cases y
  exact congrArg SymbolHash.mk hWord

theorem ofType_inj {digest : String → UInt64} {a b : String} (h : ofType digest a = ofType digest b) :
    digest a = digest b :=
  (UInt64.xor_right_inj _).mp (SymbolHash.mk.inj h)

end SymbolHash

namespace IdentityParts

/-- The names that an identity is made of. -/
def names (parts : IdentityParts) : List String := parts.owner :: parts.name :: parts.params

/-- Two identities that differ in the owner alone, in the name alone, in one parameter alone, or not
at all. -/
inductive Near : IdentityParts → IdentityParts → Prop where
  | owner (owner owner' name : String) (params : List String) :
      Near ⟨owner, name, params⟩ ⟨owner', name, params⟩
  | name (owner name name' : String) (params : List String) :
      Near ⟨owner, name, params⟩ ⟨owner, name', params⟩
  | param (owner name : String) (before : List String) (param param' : String)
      (after : List String) :
      Near ⟨owner, name, before ++ param :: after⟩ ⟨owner, name, before ++ param' :: after⟩

/-- Identities that differ in one part at most have the same key only if they are the same. -/
theorem eq_of_near {digest : String → UInt64} {a b : IdentityParts} (hNear : Near a b)
    (hDigest : Set.InjOn digest { name | name ∈ a.names ∨ name ∈ b.names })
    (h : a.hash digest = b.hash digest) : a = b := by
  cases hNear with
  | owner owner owner' name params =>
      have hStart := SymbolHash.addParams_inj (SymbolHash.mk.inj h)
      have hOwner : digest owner = digest owner' :=
        (UInt64.xor_right_inj _).mp ((UInt64.xor_right_inj _).mp ((UInt64.xor_left_inj _).mp hStart))
      rw [hDigest (by simp [names]) (by simp [names]) hOwner]
  | name owner name name' params =>
      have hStart := SymbolHash.addParams_inj (SymbolHash.mk.inj h)
      have hName : digest name = digest name' := (UInt64.xor_right_inj _).mp hStart
      rw [hDigest (by simp [names]) (by simp [names]) hName]
  | param owner name before param param' after =>
      have hFold := SymbolHash.mk.inj h
      rw [List.map_append, List.map_append, List.map_cons, List.map_cons] at hFold
      have hParam := SymbolHash.ofType_inj (SymbolHash.addParams_param_inj hFold)
      rw [hDigest (by simp [names]) (by simp [names]) hParam]

end IdentityParts

namespace Program

variable {p : Program}

/-- The parts of the identity that a method to be added would have. -/
def requested (p : Program) (owner : TypeId) (name : String) (params : List Param) :
    IdentityParts :=
  ⟨p.typeName owner, name, params.map fun param => p.refName param.type⟩

/-- A method in use has a key. -/
def HasKey (p : Program) (id : MethodId) (key : SymbolHash) : Prop :=
  ∃ m, p.method? id = some m ∧ m.isRetired = false ∧ (p.parts m).hash p.digest = key

/-- The names that methods of the program are made of. -/
def names (p : Program) : Set String :=
  { name | ∃ id m, p.method? id = some m ∧ name ∈ (p.parts m).names }

/-- What keys tell apart. A method is refused as a duplicate exactly if one in use has its key, and
a text finds a method in use exactly if it spells its key, blanks around parameters aside. Where the
digest tells the names apart, such a method does not differ from what was asked for in one part
alone. -/
structure Discerning (p : Program) : Prop where
  refused : ∀ owner name params result flags,
    addMethod owner name params result flags p =
        .error (.duplicateMethod (p.requested owner name params).text) p ↔
      (p.type? owner).isSome ∧ ∃ id, p.HasKey id ((p.requested owner name params).hash p.digest)
  found : ∀ text id, p.findMethod? text = some id ↔
    ∃ raw : IdentityParts, raw.text = text ∧ IdentityParts.ofText? text = some raw.trimmed ∧
      p.HasKey id (raw.trimmed.hash p.digest)
  near : ∀ id m parts, p.method? id = some m → p.HasKey id (parts.hash p.digest) →
    Set.InjOn p.digest (p.names ∪ { name | name ∈ parts.names }) → (p.parts m).Near parts →
      p.parts m = parts ∧ p.identity id = parts.text

theorem Filed.hasKey_iff (h : p.Filed) {id : MethodId} {key : SymbolHash} :
    p.methodTable.get? key = some id ↔ p.HasKey id key := by
  rw [h.methods.filed, Option.map_eq_some_iff]
  constructor
  · rintro ⟨entry, hEntry, rfl⟩
    obtain ⟨m, hMethod, hUsed, rfl⟩ := usedMethod?_eq_some.mp hEntry
    exact ⟨m, hMethod, hUsed, rfl⟩
  · rintro ⟨m, hMethod, hUsed, rfl⟩
    exact ⟨_, usedMethod?_eq_some.mpr ⟨m, hMethod, hUsed, rfl⟩, rfl⟩

theorem requested_text (owner : TypeId) (name : String) (params : List Param) :
    (p.requested owner name params).text = p.signature owner name (params.map (·.type)) := by
  simp [requested, IdentityParts.text, signature, Function.comp_def]

/-- A method of a type that is there is registered, or refused because its key is taken. -/
theorem addMethod_eq {owner : TypeId} {name : String} {params : List Param} {result : TypeRef}
    {flags : FlagSet MethodFlag} (hOwner : (p.type? owner).isSome) :
    addMethod owner name params result flags p =
      if p.methodTable.contains ((p.requested owner name params).hash p.digest) then
        .error (.duplicateMethod (p.requested owner name params).text) p
      else .ok ⟨p.methods.length⟩ (p.appendMethod ⟨owner, name, params, result, flags, [], none⟩
        ((p.requested owner name params).hash p.digest)) := by
  let key := (p.requested owner name params).hash p.digest
  have hKey : p.methodHash owner name (params.map (·.type)) = .ok key :=
    methodHash_ok.mpr ⟨hOwner, by simp [key, requested, Function.comp_def]⟩
  have hLook {f : SymbolHash → Edit MethodId} :
      ((monadLift (p.methodHash owner name (params.map (·.type))) : Edit SymbolHash) >>= f) p
        = f key p :=
    Step.bind_of_ok (Step.lift_ok.mpr ⟨hKey, rfl⟩)
  rw [requested_text]
  refine hLook.trans ?_
  dsimp only
  split <;> rfl

/-- A method of a type that is not there is refused for that. -/
theorem addMethod_of_absent {owner : TypeId} {name : String} {params : List Param} {result : TypeRef}
    {flags : FlagSet MethodFlag} (hAbsent : p.type? owner = none) :
    addMethod owner name params result flags p = .error (.unknownType owner) p := by
  have hKey : p.methodHash owner name (params.map (·.type)) = .error (.unknownType owner) := by
    simp [methodHash, typeHash, typeDef, hAbsent, bind, Except.bind]
  refine Step.bind_of_error (x := (monadLift (p.methodHash owner name (params.map (·.type))) :
    Edit SymbolHash)) ?_
  rw [hKey]
  rfl

/-- A method is refused as a duplicate where its key is taken. -/
theorem addMethod_refused {owner : TypeId} {name : String} {params : List Param} {result : TypeRef}
    {flags : FlagSet MethodFlag} :
    addMethod owner name params result flags p =
        .error (.duplicateMethod (p.requested owner name params).text) p ↔
      (p.type? owner).isSome ∧
        (p.methodTable.get? ((p.requested owner name params).hash p.digest)).isSome := by
  by_cases hOwner : (p.type? owner).isSome
  · rw [addMethod_eq hOwner, Table.contains]
    by_cases hTaken : (p.methodTable.get? ((p.requested owner name params).hash p.digest)).isSome <;>
      simp [hOwner, hTaken]
  · rw [addMethod_of_absent (by simpa using hOwner)]
    simp [hOwner]

/-- The tables of a program tell methods apart by their keys. -/
theorem Filed.isDiscerning (h : p.Filed) : p.Discerning where
  refused owner name params result flags := by
    refine addMethod_refused.trans (and_congr_right fun _ => ?_)
    rw [Option.isSome_iff_exists]
    exact exists_congr fun id => h.hasKey_iff
  found text id := by
    rw [findMethod?_eq, Option.bind_eq_some_iff]
    constructor
    · rintro ⟨parts, hParts, hEntered⟩
      obtain ⟨raw, rfl, rfl⟩ := IdentityParts.ofText?_eq_some hParts
      exact ⟨raw, rfl, hParts, h.hasKey_iff.mp hEntered⟩
    · rintro ⟨raw, -, hParts, hKey⟩
      exact ⟨raw.trimmed, hParts, h.hasKey_iff.mpr hKey⟩
  near id m parts hMethod hKey hDigest hNear := by
    obtain ⟨m', hMethod', -, hHash⟩ := hKey
    obtain rfl : m = m' := Option.some_inj.mp (hMethod.symm.trans hMethod')
    have hSame : p.parts m = parts := by
      refine IdentityParts.eq_of_near hNear (hDigest.mono ?_) hHash
      rintro name (hOwn | hAsked)
      · exact Or.inl ⟨id, m, hMethod, hOwn⟩
      · exact Or.inr hAsked
    exact ⟨hSame, by rw [identity_eq hMethod, hSame]⟩

section Examples

/-- Two types, and a method whose owner and name are called like them. -/
def namesakes : List Change :=
  [.addType "" "A" none ⟨0⟩, .addType "" "B" none ⟨0⟩, .addMethod ⟨0⟩ "B" [⟨"x", .int32⟩] .void ⟨0⟩]

end Examples

end Program

end ContextBinding
