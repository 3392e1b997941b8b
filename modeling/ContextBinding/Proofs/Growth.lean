import ContextBinding.Program.Clone
import ContextBinding.Program.Retirement
import ContextBinding.Proofs.Numbering
import Mathlib.Data.Nat.Bitwise

/-! What the changes of a program never take back. Entries stay under their
 identifiers with their shape, retired methods stay retired, the number of
 changes never falls, and code stays numbered. -/

namespace ContextBinding

namespace FlagSet

variable {α : Type} [Flag α]

theorem has_insert (s : FlagSet α) (a b : α) :
    (s.insert a).has b = (s.has b || Flag.bit a == Flag.bit b) := by
  simp only [has, insert, Nat.testBit_or, Nat.one_shiftLeft, Nat.testBit_two_pow]
  rfl

theorem has_erase (s : FlagSet α) (a b : α) :
    (s.erase a).has b = (s.has b && Flag.bit a != Flag.bit b) := by
  unfold erase
  by_cases hBit : Flag.bit a = Flag.bit b
  · split
    · rename_i h
      simp only [has, Nat.testBit_xor, Nat.one_shiftLeft, Nat.testBit_two_pow] at h ⊢
      simp [← hBit, h]
    · rename_i h
      simp only [has] at h ⊢
      simp [← hBit, h]
  · split
    · simp [has, Nat.testBit_xor, Nat.one_shiftLeft, hBit]
    · simp [hBit]

end FlagSet

/-- A later list holds what an earlier one held at the same places, each entry
related to the earlier one. -/
def Extends {α : Type} (R : α → α → Prop) (l l' : List α) : Prop :=
  ∀ (i : Nat) (a : α), l[i]? = some a → ∃ a', l'[i]? = some a' ∧ R a a'

namespace Extends

variable {α : Type} {R : α → α → Prop} [IsPreorder α R] {l l' l'' : List α}

protected theorem refl (l : List α) : Extends R l l := fun _ a h => ⟨a, h, refl a⟩

protected theorem trans (h : Extends R l l') (h' : Extends R l' l'') : Extends R l l'' := by
  intro i a hEntry
  obtain ⟨a', hEntry', hStep⟩ := h i a hEntry
  obtain ⟨a'', hEntry'', hStep'⟩ := h' i a' hEntry'
  exact ⟨a'', hEntry'', IsTrans.trans _ _ _ hStep hStep'⟩

omit [IsPreorder α R] in
theorem length_le (h : Extends R l l') : l.length ≤ l'.length := by
  by_contra hLess
  obtain ⟨a, hEntry, -⟩ := h l'.length _ (List.getElem?_eq_getElem (by omega))
  simp at hEntry

theorem append (l l' : List α) : Extends R l (l ++ l') := by
  intro i a h
  have hBound : i < l.length := (List.getElem?_eq_some_iff.mp h).1
  exact ⟨a, by rwa [List.getElem?_append_left hBound], refl a⟩

theorem modify (l : List α) (i : Nat) {f : α → α} (hf : ∀ a, l[i]? = some a → R a (f a)) :
    Extends R l (l.modify i f) := by
  intro j a h
  rw [List.getElem?_modify, h]
  refine ⟨_, rfl, ?_⟩
  split
  · rename_i hSame
    exact hf a (hSame ▸ h)
  · exact refl a

end Extends

/-- The flags by which a run marks methods that it retires or copies. -/
def MethodFlag.isMark : MethodFlag → Bool
  | .retired | .contextReplacement | .specialName => true
  | _ => false

/-- A later entry of a type has the shape of the earlier one. -/
structure TypeDef.Persists (t t' : TypeDef) : Prop where
  fullName : t'.fullName = t.fullName
  declaring : t'.declaring = t.declaring
  flags : t'.flags = t.flags

/-- A later entry of a field has the shape of the earlier one. -/
structure FieldDef.Persists (f f' : FieldDef) : Prop where
  owner : f'.owner = f.owner
  name : f'.name = f.name
  type : f'.type = f.type
  flags : ∀ flag, flag ≠ .retired → f'.flags.has flag = f.flags.has flag
  retired : f.isRetired = true → f'.isRetired = true

/-- A later entry of a method has the shape of the earlier one. Only marks are
set and taken away, a retired method stays retired, and code stays code. -/
structure MethodDef.Persists (m m' : MethodDef) : Prop where
  owner : m'.owner = m.owner
  name : m'.name = m.name
  params : m'.params = m.params
  returnType : m'.returnType = m.returnType
  flags : ∀ flag, flag.isMark = false → m'.flags.has flag = m.flags.has flag
  retired : m.isRetired = true → m'.isRetired = true
  body : ∀ b, m.body = some b → ∃ b', m'.body = some b' ∧ b.Revises b'

namespace TypeDef.Persists

instance : IsPreorder TypeDef Persists where
  refl _ := ⟨rfl, rfl, rfl⟩
  trans _ _ _ h h' :=
    ⟨h'.fullName.trans h.fullName, h'.declaring.trans h.declaring, h'.flags.trans h.flags⟩

end TypeDef.Persists

namespace FieldDef.Persists

instance : IsPreorder FieldDef Persists where
  refl _ := ⟨rfl, rfl, rfl, fun _ _ => rfl, id⟩
  trans _ _ _ h h' :=
    { owner := h'.owner.trans h.owner
      name := h'.name.trans h.name
      type := h'.type.trans h.type
      flags := fun flag hFlag => (h'.flags flag hFlag).trans (h.flags flag hFlag)
      retired := fun hRetired => h'.retired (h.retired hRetired) }

theorem isStatic {f f' : FieldDef} (h : f.Persists f') : f'.isStatic = f.isStatic :=
  h.flags .static (by decide)

/-- Taking a field out of use keeps its shape. -/
theorem retire (f : FieldDef) : f.Persists { f with flags := f.flags.insert .retired } := by
  refine ⟨rfl, rfl, rfl, fun flag hFlag => ?_, fun _ => ?_⟩
  · have hBit : Flag.bit FieldFlag.retired ≠ Flag.bit flag := by
      cases flag <;> first | exact absurd rfl hFlag | decide
    simp [FlagSet.has_insert, hBit]
  · simp [FieldDef.isRetired, FlagSet.has_insert]

end FieldDef.Persists

namespace MethodDef.Persists

instance : IsPreorder MethodDef Persists where
  refl _ := ⟨rfl, rfl, rfl, rfl, fun _ _ => rfl, id, fun b hBody => ⟨b, hBody, refl b⟩⟩
  trans _ _ _ h h' :=
    { owner := h'.owner.trans h.owner
      name := h'.name.trans h.name
      params := h'.params.trans h.params
      returnType := h'.returnType.trans h.returnType
      flags := fun flag hFlag => (h'.flags flag hFlag).trans (h.flags flag hFlag)
      retired := fun hRetired => h'.retired (h.retired hRetired)
      body := fun b hBody => by
        obtain ⟨b', hBody', hFirst⟩ := h.body b hBody
        obtain ⟨b'', hBody'', hSecond⟩ := h'.body b' hBody'
        exact ⟨b'', hBody'', IsTrans.trans _ _ _ hFirst hSecond⟩ }

/-- Setting a mark keeps the shape of a method. -/
theorem insertMark (m : MethodDef) {mark : MethodFlag} (hMark : mark.isMark = true) :
    m.Persists { m with flags := m.flags.insert mark } := by
  refine ⟨rfl, rfl, rfl, rfl, fun flag hFlag => ?_, fun h => ?_, fun b hBody => ⟨b, hBody, refl b⟩⟩
  · have hBit : Flag.bit mark ≠ Flag.bit flag := by
      cases mark <;> simp [MethodFlag.isMark] at hMark <;>
        cases flag <;> simp [MethodFlag.isMark] at hFlag <;> decide
    simp [FlagSet.has_insert, hBit]
  · have h : m.flags.has .retired = true := h
    simp [MethodDef.isRetired, FlagSet.has_insert, h]

/-- Taking an accessor out of its pair keeps its shape. -/
theorem dropSpecialName (m : MethodDef) :
    m.Persists { m with flags := m.flags.erase .specialName } := by
  refine ⟨rfl, rfl, rfl, rfl, fun flag hFlag => ?_, fun h => ?_, fun b hBody => ⟨b, hBody, refl b⟩⟩
  · have hBit : Flag.bit MethodFlag.specialName ≠ Flag.bit flag := by
      cases flag <;> simp [MethodFlag.isMark] at hFlag <;> decide
    simp [FlagSet.has_erase, hBit]
  · have h : m.flags.has .retired = true := h
    have hBit : Flag.bit MethodFlag.specialName ≠ Flag.bit MethodFlag.retired := by decide
    simp [MethodDef.isRetired, FlagSet.has_erase, h, hBit]

/-- Giving a method code keeps its shape, if the code comes from what was there. -/
theorem putBody (m : MethodDef) (b' : MethodBody) (h : ∀ b, m.body = some b → b.Revises b') :
    m.Persists { m with body := some b' } :=
  ⟨rfl, rfl, rfl, rfl, fun _ _ => rfl, id, fun b hBody => ⟨b', rfl, h b hBody⟩⟩

theorem isStatic {m m' : MethodDef} (h : m.Persists m') : m'.isStatic = m.isStatic :=
  h.flags .static rfl

theorem isVirtual {m m' : MethodDef} (h : m.Persists m') : m'.isVirtual = m.isVirtual :=
  h.flags .virtual rfl

theorem sameSignature {m m' b b' : MethodDef} (h : m.Persists m') (hb : b.Persists b') :
    b'.sameSignature m' = b.sameSignature m := by
  unfold MethodDef.sameSignature MethodDef.paramTypes
  rw [h.name, h.returnType, h.params, hb.name, hb.returnType, hb.params]

theorem isConstructor {m m' : MethodDef} (h : m.Persists m') :
    m'.isConstructor = m.isConstructor :=
  h.flags .constructor rfl

theorem isStaticConstructor {m m' : MethodDef} (h : m.Persists m') :
    m'.isStaticConstructor = m.isStaticConstructor :=
  h.flags .staticConstructor rfl

/-- What is in use later was in use before. -/
theorem used {m m' : MethodDef} (h : m.Persists m') (hUsed : m'.isRetired = false) :
    m.isRetired = false :=
  Bool.eq_false_iff.mpr fun hRetired => Bool.eq_false_iff.mp hUsed (h.retired hRetired)

end MethodDef.Persists

/-- The code of the method is numbered. -/
def MethodDef.Numbered (m : MethodDef) : Prop := ∀ b, m.body = some b → b.Numbered

instance : DecidablePred MethodDef.Numbered := fun m =>
  decidable_of_iff (∀ b ∈ m.body, b.Numbered) Iff.rfl

namespace Program

/-- The code of each method is numbered. -/
def Numbered (p : Program) : Prop := ∀ m ∈ p.methods, m.Numbered

instance : DecidablePred Numbered := fun p =>
  inferInstanceAs (Decidable (∀ m ∈ p.methods, m.Numbered))

/-- A type lists a method as one of its own. -/
def Lists (p : Program) (type : TypeId) (id : MethodId) : Prop :=
  ∃ t, p.type? type = some t ∧ id ∈ t.methods

/-- The methods that a type lists are there, and it is their owner. -/
def Owned (p : Program) : Prop :=
  ∀ type id, p.Lists type id → ∃ m, p.method? id = some m ∧ m.owner = type

/-- Listing fewer methods, each with the owner that it had, is sound if the list was. -/
theorem Owned.of_lists {p q : Program} (h : p.Owned)
    (hLists : ∀ type id, q.Lists type id → p.Lists type id)
    (hOwners : ∀ id m, p.method? id = some m → ∃ m', q.method? id = some m' ∧ m'.owner = m.owner) :
    q.Owned := by
  intro type id hListed
  obtain ⟨m, hMethod, rfl⟩ := h type id (hLists type id hListed)
  exact hOwners id m hMethod

/-- A later program has what an earlier one had, and maybe more. -/
structure Grows (p q : Program) : Prop where
  digest : q.digest = p.digest
  edits : p.edits ≤ q.edits
  types : Extends TypeDef.Persists p.types q.types
  fields : Extends FieldDef.Persists p.fields q.fields
  methods : Extends MethodDef.Persists p.methods q.methods
  numbered : p.Numbered → q.Numbered
  listed : ∀ type id, q.Lists type id → id.index < p.methods.length → p.Lists type id
  owned : p.Owned → q.Owned

namespace Grows

protected theorem refl (p : Program) : p.Grows p :=
  ⟨rfl, le_refl _, .refl _, .refl _, .refl _, fun h => h, fun _ _ h _ => h, fun h => h⟩

protected theorem trans {p q r : Program} (h : p.Grows q) (h' : q.Grows r) : p.Grows r where
  digest := h'.digest.trans h.digest
  edits := h.edits.trans h'.edits
  types := h.types.trans h'.types
  fields := h.fields.trans h'.fields
  methods := h.methods.trans h'.methods
  numbered hNumbered := h'.numbered (h.numbered hNumbered)
  listed type id hLists hOld :=
    h.listed type id (h'.listed type id hLists (hOld.trans_le h.methods.length_le)) hOld
  owned hOwned := h'.owned (h.owned hOwned)

instance : IsPreorder Program Grows where
  refl := Grows.refl
  trans _ _ _ := Grows.trans

variable {p q : Program}

theorem type (h : p.Grows q) {id : TypeId} {t : TypeDef} (hType : p.type? id = some t) :
    ∃ t', q.type? id = some t' ∧ t.Persists t' :=
  h.types id.index t hType

theorem field (h : p.Grows q) {id : FieldId} {f : FieldDef} (hField : p.field? id = some f) :
    ∃ f', q.field? id = some f' ∧ f.Persists f' :=
  h.fields id.index f hField

theorem method (h : p.Grows q) {id : MethodId} {m : MethodDef} (hMethod : p.method? id = some m) :
    ∃ m', q.method? id = some m' ∧ m.Persists m' :=
  h.methods id.index m hMethod

/-- Whatever has an entry before and after keeps its shape. -/
theorem method_persists (h : p.Grows q) {id : MethodId} {m m' : MethodDef}
    (hMethod : p.method? id = some m) (hMethod' : q.method? id = some m') : m.Persists m' := by
  obtain ⟨m₂, hMethod₂, hStep⟩ := h.method hMethod
  obtain rfl : m' = m₂ := Option.some_inj.mp (hMethod'.symm.trans hMethod₂)
  exact hStep

end Grows

/-- A change of the code of the methods in `S`, with new methods on the types in
`N`. All other code stays where it is. -/
structure Confined (S : MethodId → Prop) (N : TypeId → Prop) (p q : Program) : Prop where
  grows : p.Grows q
  code : ∀ id m', q.method? id = some m' →
    (∃ m, p.method? id = some m ∧ (m'.body = m.body ∨ S id)) ∨
      (p.method? id = none ∧ N m'.owner)

namespace Confined

variable {S : MethodId → Prop} {N : TypeId → Prop} {p q r : Program}

protected theorem refl (p : Program) : Confined S N p p :=
  ⟨.refl p, fun _ m h => Or.inl ⟨m, h, Or.inl rfl⟩⟩

protected theorem trans (h : Confined S N p q) (h' : Confined S N q r) : Confined S N p r := by
  refine ⟨h.grows.trans h'.grows, fun id m'' hMethod'' => ?_⟩
  rcases h'.code id m'' hMethod'' with ⟨m', hMethod', hBody'⟩ | ⟨hNone, hNew⟩
  · rcases h.code id m' hMethod' with ⟨m, hMethod, hBody⟩ | ⟨hNone, hNew⟩
    · refine Or.inl ⟨m, hMethod, ?_⟩
      rcases hBody' with hBody' | hIn
      · exact hBody.imp_left hBody'.trans
      · exact Or.inr hIn
    · have hStep := h'.grows.method_persists hMethod' hMethod''
      exact Or.inr ⟨hNone, hStep.owner ▸ hNew⟩
  · refine Or.inr ⟨?_, hNew⟩
    cases hMethod : p.method? id with
    | none => rfl
    | some m =>
        obtain ⟨m', hMethod', -⟩ := h.grows.method hMethod
        simp [hMethod'] at hNone

instance : IsPreorder Program (Confined S N) where
  refl := Confined.refl
  trans _ _ _ := Confined.trans

theorem mono {S' : MethodId → Prop} {N' : TypeId → Prop} (hS : ∀ id, S id → S' id)
    (hN : ∀ type, N type → N' type) (h : Confined S N p q) : Confined S' N' p q := by
  refine ⟨h.grows, fun id m' hMethod' => ?_⟩
  rcases h.code id m' hMethod' with ⟨m, hMethod, hBody⟩ | ⟨hNone, hNew⟩
  · exact Or.inl ⟨m, hMethod, hBody.imp_right (hS id)⟩
  · exact Or.inr ⟨hNone, hN _ hNew⟩

/-- A change that leaves every method alone is confined to nothing. -/
theorem of_methods (hGrows : p.Grows q) (hMethods : q.methods = p.methods) : Confined S N p q :=
  ⟨hGrows, fun id m h => Or.inl ⟨m, by rwa [method?, hMethods] at h, Or.inl rfl⟩⟩

/-- Code that only new methods got changes nothing that was there. -/
theorem of_fresh (h : Confined (fun id => p.methods.length ≤ id.index) N p q) :
    Confined (fun _ => False) N p q := by
  refine ⟨h.grows, fun id m' hMethod' => ?_⟩
  rcases h.code id m' hMethod' with ⟨m, hMethod, hBody | hFresh⟩ | hNew
  · exact Or.inl ⟨m, hMethod, Or.inl hBody⟩
  · rw [method?, List.getElem?_eq_none hFresh] at hMethod
    simp at hMethod
  · exact Or.inr hNew

/-- The code of a method that was there is the same, unless the method is in `S`. -/
theorem sameBody (h : Confined S N p q) {id : MethodId} {m m' : MethodDef}
    (hMethod : p.method? id = some m) (hMethod' : q.method? id = some m') :
    m'.body = m.body ∨ S id := by
  rcases h.code id m' hMethod' with ⟨m₀, hMethod₀, hBody⟩ | ⟨hNone, -⟩
  · obtain rfl := Option.some_inj.mp (hMethod.symm.trans hMethod₀)
    exact hBody
  · cases hMethod.symm.trans hNone

end Confined

end Program

end ContextBinding
