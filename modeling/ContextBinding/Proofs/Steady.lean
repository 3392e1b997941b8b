import ContextBinding.Proofs.Growth

/-! What a change leaves of the declarations. Types keep their bases, interfaces and
 properties, and methods what they override; new members come last. A license says
 of which methods this need not hold. -/

namespace ContextBinding

/-- The methods that a change may make give way in properties, those that may stand in
for others, those that may override other methods than before, and those that it may take
out of use. -/
structure License where
  replaced : MethodId → Prop
  standing : MethodId → Prop
  mapped : MethodId → Prop
  dropped : MethodId → Prop

namespace License

/-- Nothing gives way. -/
def none : License := ⟨fun _ => False, fun _ => False, fun _ => False, fun _ => False⟩

/-- What one license allows, another one allows, too. -/
structure Le (l l' : License) : Prop where
  replaced : ∀ id, l.replaced id → l'.replaced id
  standing : ∀ id, l.standing id → l'.standing id
  mapped : ∀ id, l.mapped id → l'.mapped id
  dropped : ∀ id, l.dropped id → l'.dropped id

theorem none_le (l : License) : none.Le l :=
  ⟨fun _ => False.elim, fun _ => False.elim, fun _ => False.elim, fun _ => False.elim⟩

/-- An accessor stays, or gives way to what stands in for it. -/
def Swaps (l : License) (a a' : Option MethodId) : Prop :=
  a' = a ∨ (∃ old, a = some old ∧ l.replaced old) ∧ ∃ new, a' = some new ∧ l.standing new

/-- The accessors of a property stay or give way. -/
def Realigns (l : License) (a a' : PropertyDef) : Prop :=
  l.Swaps a.getter a'.getter ∧ l.Swaps a.setter a'.setter

variable {l l' : License}

theorem Swaps.trans {a b c : Option MethodId} (h : l.Swaps a b) (h' : l.Swaps b c) :
    l.Swaps a c := by
  rcases h with rfl | ⟨hOld, hNew⟩
  · exact h'
  · rcases h' with rfl | ⟨-, hNew'⟩
    · exact Or.inr ⟨hOld, hNew⟩
    · exact Or.inr ⟨hOld, hNew'⟩

theorem Swaps.mono (hLe : l.Le l') {a b : Option MethodId} (h : l.Swaps a b) : l'.Swaps a b :=
  h.imp_right fun ⟨⟨old, hOld, hReplaced⟩, new, hNew, hStanding⟩ =>
    ⟨⟨old, hOld, hLe.replaced old hReplaced⟩, new, hNew, hLe.standing new hStanding⟩

instance : IsPreorder PropertyDef l.Realigns where
  refl _ := ⟨Or.inl rfl, Or.inl rfl⟩
  trans _ _ _ h h' := ⟨h.1.trans h'.1, h.2.trans h'.2⟩

end License

/-- A later entry of a type has the declarations of the earlier one, with new ones
after them. Methods are taken off it only if they are gone. -/
structure TypeDef.Steady (l : License) (first : Nat) (gone : MethodId → Prop) (t t' : TypeDef) :
    Prop where
  base : t'.base = t.base
  interfaces : t'.interfaces = t.interfaces
  properties : Extends l.Realigns t.properties t'.properties
  methods : ∃ (keep : MethodId → Bool) (added : List MethodId),
    t'.methods = t.methods.filter keep ++ added ∧ (∀ id ∈ added, first ≤ id.index) ∧
      ∀ id ∈ t.methods, keep id = false → gone id

/-- A later entry of a method has the flags of the earlier one and overrides what that did, and is
in use if that was. -/
structure MethodDef.Steady (l : License) (id : MethodId) (m m' : MethodDef) : Prop where
  declared : l.mapped id ∨ m'.overrides = m.overrides
  flags : (l.standing id ∨ l.dropped id) ∨ m'.flags = m.flags
  special : l.standing id ∨ m'.isSpecialName = m.isSpecialName
  marked : m'.isContextReplacement = m.isContextReplacement
  used : m'.isRetired = true → m.isRetired = true ∨ l.dropped id
  retired : m.isRetired = true → m'.isRetired = true

namespace Program

/-- The method is there, and out of use. -/
def Retired (p : Program) (id : MethodId) : Prop :=
  ∃ m, p.method? id = some m ∧ m.isRetired = true

/-- A later program has the declarations of an earlier one, apart from what the license
allows. -/
structure Steady (l : License) (p q : Program) : Prop where
  count : p.methods.length ≤ q.methods.length
  types : Extends (TypeDef.Steady l p.methods.length q.Retired) p.types q.types
  methods : ∀ id m, p.method? id = some m → ∃ m', q.method? id = some m' ∧ m.Steady l id m'

end Program

namespace TypeDef.Steady

variable {l l' : License} {first first' : Nat} {gone gone' : MethodId → Prop}

protected theorem refl (t : TypeDef) : t.Steady l first gone t where
  base := rfl
  interfaces := rfl
  properties := .refl _
  methods := ⟨fun _ => true, [], by simp, fun _ h => (List.not_mem_nil h).elim, by simp⟩

protected theorem trans {t t' t'' : TypeDef} (h : t.Steady l first gone t')
    (h' : t'.Steady l first' gone' t'') (hFirst : first ≤ first')
    (hGone : ∀ id, gone id → gone' id) : t.Steady l first gone' t'' where
  base := h'.base.trans h.base
  interfaces := h'.interfaces.trans h.interfaces
  properties := h.properties.trans h'.properties
  methods := by
    obtain ⟨keep, added, hSame, hNew, hTaken⟩ := h.methods
    obtain ⟨keep', added', hSame', hNew', hTaken'⟩ := h'.methods
    refine ⟨fun id => keep' id && keep id, added.filter keep' ++ added', ?_, ?_, ?_⟩
    · rw [hSame', hSame, List.filter_append, List.filter_filter, List.append_assoc]
    · intro id hMem
      rcases List.mem_append.mp hMem with hMem | hMem
      · exact hNew id (List.mem_filter.mp hMem).1
      · exact hFirst.trans (hNew' id hMem)
    · intro id hMem hOut
      cases hKeep : keep id with
      | false => exact hGone id (hTaken id hMem hKeep)
      | true =>
          refine hTaken' id ?_ (by simpa [hKeep] using hOut)
          rw [hSame]
          exact List.mem_append_left _ (List.mem_filter.mpr ⟨hMem, hKeep⟩)

instance : IsPreorder TypeDef (TypeDef.Steady l first gone) where
  refl := TypeDef.Steady.refl
  trans _ _ _ h h' := h.trans h' (Nat.le_refl _) fun _ => id

theorem mono (hLe : l.Le l') {t t' : TypeDef} (h : t.Steady l first gone t') :
    t.Steady l' first gone t' where
  base := h.base
  interfaces := h.interfaces
  properties i a hAt := by
    obtain ⟨a', hAt', hStep⟩ := h.properties i a hAt
    exact ⟨a', hAt', hStep.1.mono hLe, hStep.2.mono hLe⟩
  methods := by
    obtain ⟨keep, added, hSame, hNew, hTaken⟩ := h.methods
    exact ⟨keep, added, hSame, hNew, hTaken⟩

/-- New members come last. -/
theorem of_added {t t' : TypeDef} (hBase : t'.base = t.base)
    (hInterfaces : t'.interfaces = t.interfaces)
    (hProperties : Extends l.Realigns t.properties t'.properties)
    {added : List MethodId} (hMethods : t'.methods = t.methods ++ added)
    (hAdded : ∀ id ∈ added, first ≤ id.index) : t.Steady l first gone t' where
  base := hBase
  interfaces := hInterfaces
  properties := hProperties
  methods := ⟨fun _ => true, added, by simpa using hMethods, hAdded, by simp⟩

end TypeDef.Steady

namespace MethodDef.Steady

variable {l l' : License} {id : MethodId}

protected theorem refl (m : MethodDef) : m.Steady l id m :=
  ⟨Or.inr rfl, Or.inr rfl, Or.inr rfl, rfl, Or.inl, fun h => h⟩

protected theorem trans {m m' m'' : MethodDef} (h : m.Steady l id m') (h' : m'.Steady l id m'') :
    m.Steady l id m'' where
  declared := h.declared.elim Or.inl fun hSame => h'.declared.imp_right fun h => h.trans hSame
  flags := h.flags.elim Or.inl fun hSame => h'.flags.imp_right fun h => h.trans hSame
  special := h.special.elim Or.inl fun hSame => h'.special.imp_right fun h => h.trans hSame
  marked := h'.marked.trans h.marked
  used hRetired := (h'.used hRetired).elim h.used Or.inr
  retired hRetired := h'.retired (h.retired hRetired)

theorem mono (hLe : l.Le l') {m m' : MethodDef} (h : m.Steady l id m') : m.Steady l' id m' :=
  ⟨h.declared.imp_left (hLe.mapped id),
    h.flags.imp_left (Or.imp (hLe.standing id) (hLe.dropped id)),
    h.special.imp_left (hLe.standing id), h.marked,
    fun hRetired => (h.used hRetired).imp_right (hLe.dropped id), h.retired⟩

end MethodDef.Steady

namespace Program

variable {l l' : License} {p q r : Program}

theorem method?_modify (p : Program) (f : MethodDef → MethodDef) (id other : MethodId) :
    ({ p with methods := p.methods.modify id.index f } : Program).method? other
      = (p.method? other).map fun m => if id = other then f m else m := by
  rcases id with ⟨i⟩
  rcases other with ⟨j⟩
  simp only [method?, List.getElem?_modify, MethodId.mk.injEq]
  cases p.methods[j]? <;> simp

theorem Retired.steady {id : MethodId} (h : p.Retired id) (hSteady : p.Steady l q) :
    q.Retired id := by
  obtain ⟨m, hMethod, hRetired⟩ := h
  obtain ⟨m', hMethod', hStep⟩ := hSteady.methods id m hMethod
  exact ⟨m', hMethod', hStep.retired hRetired⟩

namespace Steady

protected theorem refl (p : Program) : p.Steady l p :=
  ⟨Nat.le_refl _, .refl _, fun _ m h => ⟨m, h, .refl m⟩⟩

protected theorem trans (h : p.Steady l q) (h' : q.Steady l r) : p.Steady l r where
  count := h.count.trans h'.count
  types i t hType := by
    obtain ⟨t', hType', hStep⟩ := h.types i t hType
    obtain ⟨t'', hType'', hStep'⟩ := h'.types i t' hType'
    exact ⟨t'', hType'', hStep.trans hStep' h.count fun _ hRetired => hRetired.steady h'⟩
  methods id m hMethod := by
    obtain ⟨m', hMethod', hStep⟩ := h.methods id m hMethod
    obtain ⟨m'', hMethod'', hStep'⟩ := h'.methods id m' hMethod'
    exact ⟨m'', hMethod'', hStep.trans hStep'⟩

instance : IsPreorder Program (Steady l) where
  refl := Steady.refl
  trans _ _ _ := Steady.trans

theorem mono (hLe : l.Le l') (h : p.Steady l q) : p.Steady l' q where
  count := h.count
  types i t hType := by
    obtain ⟨t', hType', hStep⟩ := h.types i t hType
    exact ⟨t', hType', hStep.mono hLe⟩
  methods id m hMethod := by
    obtain ⟨m', hMethod', hStep⟩ := h.methods id m hMethod
    exact ⟨m', hMethod', hStep.mono hLe⟩

/-- What is not listed anew leaves the declarations alone. -/
theorem of_methods (hMethods : q.methods = p.methods)
    (hTypes : Extends (TypeDef.Steady l p.methods.length q.Retired) p.types q.types) :
    p.Steady l q where
  count := hMethods ▸ Nat.le_refl _
  types := hTypes
  methods _ m h := ⟨m, by rwa [method?, hMethods], .refl m⟩

theorem of_same (hTypes : q.types = p.types) (hMethods : q.methods = p.methods) : p.Steady l q :=
  .of_methods hMethods (hTypes ▸ .refl _)

theorem touch : p.Steady l p.touch := .of_same rfl rfl

/-- A change of one type that leaves its declarations alone. -/
theorem modifyTypes {id : TypeId} {f : TypeDef → TypeDef}
    (hf : ∀ t : TypeDef, t.Steady l p.methods.length p.Retired (f t)) :
    p.Steady l { p with types := p.types.modify id.index f } :=
  .of_methods rfl (.modify _ _ fun t _ => hf t)

/-- A change of one method that leaves its declarations alone. -/
theorem modifyMethods {id : MethodId} {f : MethodDef → MethodDef}
    (hf : ∀ m, p.method? id = some m → m.Steady l id (f m)) :
    p.Steady l { p with methods := p.methods.modify id.index f } where
  count := by simp
  types := .refl _
  methods other m hMethod := by
    refine ⟨_, (method?_modify p f id other).trans (congrArg _ hMethod), ?_⟩
    dsimp only
    split
    · rename_i hSame
      subst hSame
      exact hf m hMethod
    · exact .refl m

/-- A method that is listed last. -/
theorem appendMethod {id : TypeId} {m : MethodDef}
    (hTypes : q.types = p.types.modify id.index fun t =>
      { t with methods := t.methods ++ [⟨p.methods.length⟩] })
    (hMethods : q.methods = p.methods ++ [m]) : p.Steady l q where
  count := by simp [hMethods]
  types := by
    rw [hTypes]
    refine .modify _ _ fun t _ => .of_added rfl rfl (.refl _) rfl fun id hMem => ?_
    rw [List.mem_singleton.mp hMem]
  methods other m' hMethod := by
    refine ⟨m', ?_, .refl m'⟩
    have hBound : other.index < p.methods.length := (List.getElem?_eq_some_iff.mp hMethod).1
    rw [method?, hMethods, List.getElem?_append_left hBound]
    exact hMethod

/-- A new method may change, unless it comes back into use. -/
theorem modifyNewMethod (h : p.Steady l q) {id : MethodId} {f : MethodDef → MethodDef}
    (hNew : p.methods.length ≤ id.index)
    (hf : ∀ m : MethodDef, m.isRetired = true → (f m).isRetired = true) :
    p.Steady l { q with methods := q.methods.modify id.index f } where
  count := by simpa using h.count
  types i t hType := by
    obtain ⟨t', hType', hStep⟩ := h.types i t hType
    obtain ⟨keep, added, hSame, hAdded, hTaken⟩ := hStep.methods
    refine ⟨t', hType', hStep.base, hStep.interfaces, hStep.properties, keep, added, hSame, hAdded,
      fun other hMem hOut => ?_⟩
    obtain ⟨m, hMethod, hRetired⟩ := hTaken other hMem hOut
    refine ⟨_, (method?_modify q f id other).trans (congrArg _ hMethod), ?_⟩
    dsimp only
    split
    · exact hf m hRetired
    · exact hRetired
  methods other m hMethod := by
    obtain ⟨m', hMethod', hStep⟩ := h.methods other m hMethod
    have hBound : other.index < p.methods.length := (List.getElem?_eq_some_iff.mp hMethod).1
    have hOther : id ≠ other := by
      rintro rfl
      exact absurd hBound (Nat.not_lt.mpr hNew)
    refine ⟨m', (method?_modify q f id other).trans ?_, hStep⟩
    simp [hMethod', hOther]

/-- A new type may change. -/
theorem modifyNewType (h : p.Steady l q) {id : TypeId} {f : TypeDef → TypeDef}
    (hNew : p.types.length ≤ id.index) :
    p.Steady l { q with types := q.types.modify id.index f } where
  count := h.count
  types i t hType := by
    obtain ⟨t', hType', hStep⟩ := h.types i t hType
    have hBound : i < p.types.length := (List.getElem?_eq_some_iff.mp hType).1
    have hOther : id.index ≠ i := by omega
    refine ⟨t', ?_, hStep⟩
    simp [hType', hOther]
  methods := h.methods

end Steady

/-- A change of code that leaves the declarations alone. -/
structure Rewrites (S : MethodId → Prop) (N : TypeId → Prop) (p q : Program) : Prop extends
    Confined S N p q where
  steady : p.Steady .none q

namespace Rewrites

variable {S S' : MethodId → Prop} {N N' : TypeId → Prop}

protected theorem refl (p : Program) : Rewrites S N p p := ⟨.refl p, .refl p⟩

protected theorem trans (h : Rewrites S N p q) (h' : Rewrites S N q r) : Rewrites S N p r :=
  ⟨h.toConfined.trans h'.toConfined, h.steady.trans h'.steady⟩

instance : IsPreorder Program (Rewrites S N) where
  refl := Rewrites.refl
  trans _ _ _ := Rewrites.trans

theorem mono (hS : ∀ id, S id → S' id) (hN : ∀ type, N type → N' type) (h : Rewrites S N p q) :
    Rewrites S' N' p q :=
  ⟨h.toConfined.mono hS hN, h.steady⟩

/-- Code that only new methods got changes nothing that was there. -/
theorem of_fresh (h : Rewrites (fun id => p.methods.length ≤ id.index) N p q) :
    Rewrites (fun _ => False) N p q :=
  ⟨.of_fresh h.toConfined, h.steady⟩

end Rewrites

end Program

end ContextBinding
