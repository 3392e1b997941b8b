import ContextBinding.Proofs.Dispatch

/-! What a virtual call lands on. The first method of the signature, from the type of the
object up its base types, is among the implementations of a slot of a class. Of a slot of an
interface it is so just where a type that names the interface has a method of its own for
it. -/

namespace ContextBinding

open Relation

/-- Methods that a third one has the signature of have the same one. -/
theorem MethodDef.sameSignature_of_common {m n other : MethodDef}
    (hm : other.sameSignature m = true) (hn : other.sameSignature n = true) :
    n.sameSignature m = true := by
  unfold sameSignature at *
  simp only [Bool.and_eq_true, beq_iff_eq] at *
  simp [← hm, ← hn]

namespace Program

/-- The type that a type derives from. -/
def baseOf? (p : Program) (type : TypeId) : Option TypeId := (p.type? type).bind TypeDef.baseType?

/-- One type derives from the other one. -/
def Derives (p : Program) (type base : TypeId) : Prop := p.baseOf? type = some base

instance (p : Program) (type base : TypeId) : Decidable (p.Derives type base) :=
  inferInstanceAs (Decidable (p.baseOf? type = some base))

def isInterface (p : Program) (type : TypeId) : Bool := (p.type? type).any TypeDef.isInterface

/-- The first virtual method in use on a type that has the signature of `m`. -/
def slotOn? (p : Program) (m : MethodDef) (type : TypeId) : Option MethodId :=
  (p.methodsWhere type fun other =>
    !other.isRetired && other.isVirtual && other.sameSignature m).head?

/-- A virtual call of `m` lands on a method, for an object of a type. That is the first one of
the signature on the type, on its base type, and so on. -/
inductive Dispatches (p : Program) (m : MethodDef) : TypeId → MethodId → Prop where
  | found {type : TypeId} {target : MethodId} (here : p.slotOn? m type = some target) :
      Dispatches p m type target
  | inherited {type base : TypeId} {target : MethodId} (none : p.slotOn? m type = none)
      (derives : p.Derives type base) (above : Dispatches p m base target) :
      Dispatches p m type target

/-- No method of the signature of `m` starts a slot of its own on the way from a type up to
`top`, which is not looked at. -/
def Unhidden (p : Program) (m : MethodDef) (type top : TypeId) : Prop :=
  ∀ between id other, ReflTransGen p.Derives type between → TransGen p.Derives between top →
    p.slotOn? m between = some id → p.method? id = some other →
      other.flags.has .newSlot = false

/-- A type, or one that it derives from, names the interface of `m` and has a method of the
signature itself, which nothing hides from the type. -/
def Supplies (p : Program) (m : MethodDef) (type : TypeId) : Prop :=
  ∃ naming own, ReflTransGen p.Derives type naming ∧ m.owner ∈ p.interfacesOf naming ∧
    p.slotOn? m naming = some own ∧ p.Unhidden m type naming

/-- Classes derive from classes, and only interfaces, which derive from nothing, are named as
interfaces. -/
structure Layered (p : Program) : Prop where
  named : ∀ type other, p.ExtendsTo type other → p.isInterface other = true
  bare : ∀ type base, p.Derives type base → p.isInterface type = false
  classes : ∀ type base, p.Derives type base → p.isInterface base = false

/-- No method is declared to override one of the signature of `m`. -/
def Undeclared (p : Program) (m : MethodDef) : Prop :=
  ∀ id other, p.method? id = some other → ∀ base ∈ other.overrides, ∀ b, p.method? base = some b →
    b.sameSignature m = false

/-- No type derives from itself. -/
def Acyclic (p : Program) : Prop := ∀ type, ¬ TransGen p.Derives type type

variable {p : Program} {m other : MethodDef} {id target : MethodId} {type base top : TypeId}

theorem Derives.unique (h : p.Derives type base) {base' : TypeId} (h' : p.Derives type base') :
    base' = base :=
  Option.some_inj.mp (h'.symm.trans h)

/-- An interface is at the end of its base types. -/
theorem Layered.derives_of_interface (h : p.Layered) (hInterface : p.isInterface type = true)
    (hPath : ReflTransGen p.Derives type top) : top = type := by
  rcases hPath.cases_head with rfl | ⟨base, hDerives, -⟩
  · rfl
  · simp [h.bare type base hDerives] at hInterface

/-- The interfaces of a type are interfaces. -/
theorem Layered.isInterface_of_mem (h : p.Layered) (hMem : top ∈ p.interfacesOf type) :
    p.isInterface top = true := by
  obtain ⟨first, hFirst, hPath⟩ := mem_interfacesOf.mp hMem
  rcases hPath.cases_tail with rfl | ⟨before, -, hLast⟩
  · exact h.named type _ hFirst
  · exact h.named before top hLast

/-- What is found on a type is a virtual method in use that the type lists. -/
theorem slotOn?_some (h : p.slotOn? m type = some id) :
    p.Lists type id ∧ ∃ d, p.method? id = some d ∧ d.isRetired = false ∧ d.isVirtual = true ∧
      d.sameSignature m = true := by
  have hMem := List.mem_of_mem_head? h
  unfold methodsWhere at hMem
  split at hMem
  · rename_i t hType
    obtain ⟨hListed, hAny⟩ := List.mem_filter.mp hMem
    obtain ⟨d, hMethod, hAll⟩ := (Option.any_eq_true ..).mp hAny
    simp only [Bool.and_eq_true, Bool.not_eq_true'] at hAll
    exact ⟨⟨t, hType, hListed⟩, d, hMethod, hAll.1.1, hAll.1.2, hAll.2⟩
  · exact (List.not_mem_nil hMem).elim

/-- Methods of one signature are found in the place of each other. -/
theorem slotOn?_congr (h : other.sameSignature m = true) (type : TypeId) :
    p.slotOn? other type = p.slotOn? m type := by
  unfold MethodDef.sameSignature at h
  simp only [Bool.and_eq_true, beq_iff_eq] at h
  unfold slotOn? MethodDef.sameSignature
  rw [h.1.1, h.1.2, h.2]

/-- The match of a method on a type that does not list it is what is found there. -/
theorem matching?_eq_slotOn? (hElsewhere : p.slotOn? m type ≠ some id) :
    p.matching? type id m = p.slotOn? m type := by
  unfold matching? slotOn? at *
  generalize p.methodsWhere type _ = l at *
  cases l with
  | nil => rfl
  | cons a l =>
      have hOther : a ≠ id := by simpa using hElsewhere
      simp [hOther]

/-- What is found on a type is owned by it. -/
theorem Registered.owner_of_slotOn? (h : p.Registered) (hSlot : p.slotOn? m type = some id)
    (hMethod : p.method? id = some other) : other.owner = type := by
  obtain ⟨d, hOwned, hOwner⟩ := h.owned type id (slotOn?_some hSlot).1
  obtain rfl : other = d := Option.some_inj.mp (hMethod.symm.trans hOwned)
  exact hOwner

/-- A virtual method in use is what is found on its owner. -/
theorem Registered.slotOn?_owner (h : p.Registered) (hMethod : p.method? id = some m)
    (hUsed : m.isRetired = false) (hVirtual : m.isVirtual = true) :
    p.slotOn? m m.owner = some id := by
  have hListed := h.lists hMethod hUsed
  obtain ⟨t, hType, hMem⟩ := hListed
  have hHere : id ∈ p.methodsWhere m.owner fun other =>
      !other.isRetired && other.isVirtual && other.sameSignature m := by
    unfold methodsWhere
    simp only [hType]
    refine List.mem_filter.mpr ⟨hMem, (Option.any_eq_true ..).mpr ⟨m, hMethod, ?_⟩⟩
    simp [hUsed, hVirtual, MethodDef.sameSignature]
  cases hFound : p.slotOn? m m.owner with
  | none =>
      rw [slotOn?, List.head?_eq_none_iff] at hFound
      simp [hFound] at hHere
  | some found =>
      obtain ⟨⟨t', hType', hMem'⟩, d, hMethod', hUsed', hVirtual', hSame⟩ := slotOn?_some hFound
      obtain rfl : t = t' := Option.some_inj.mp (hType.symm.trans hType')
      have hNone := h.distinct id (mem_methodIds hMethod) m hMethod hUsed hVirtual t hType found hMem'
      simp only [Matches, hMethod', Option.any_some, hUsed', hVirtual', hSame, Bool.not_false,
        Bool.and_self, Bool.true_and, bne_eq_false_iff_eq] at hNone
      rw [hNone]

theorem Dispatches.unique (h : p.Dispatches m type target) {target' : MethodId}
    (h' : p.Dispatches m type target') : target' = target := by
  induction h with
  | found here =>
      cases h' with
      | found here' => exact Option.some_inj.mp (here'.symm.trans here)
      | inherited none => simp [here] at none
  | inherited none derives above ih =>
      cases h' with
      | found here' => simp [none] at here'
      | inherited _ derives' above' => exact ih (derives.unique derives' ▸ above')

theorem Dispatches.congr (h : p.Dispatches m type target) (hSame : other.sameSignature m = true) :
    p.Dispatches other type target := by
  induction h with
  | found here => exact .found ((slotOn?_congr hSame _).trans here)
  | inherited none derives _ ih => exact .inherited ((slotOn?_congr hSame _).trans none) derives ih

/-- A virtual call lands somewhere if a type further up has a method of the signature. -/
theorem exists_dispatches (hPath : ReflTransGen p.Derives type top)
    (hSlot : p.slotOn? m top = some id) : ∃ target, p.Dispatches m type target := by
  induction hPath using ReflTransGen.head_induction_on with
  | refl => exact ⟨id, .found hSlot⟩
  | @head type base hDerives _ ih =>
      obtain ⟨target, hAbove⟩ := ih
      cases hHere : p.slotOn? m type with
      | some found => exact ⟨found, .found hHere⟩
      | none => exact ⟨target, .inherited hHere hDerives hAbove⟩

/-- Types that derive from others are types of the program. -/
theorem length_le_of_derives {passed : List TypeId} (hNodup : passed.Nodup)
    (hPassed : ∀ type ∈ passed, TransGen p.Derives type base) :
    passed.length ≤ p.types.length := by
  have hSub : passed ⊆ p.typeIds := by
    intro type hMem
    obtain ⟨above, hDerives, -⟩ := TransGen.head'_iff.mp (hPassed type hMem)
    obtain ⟨t, hType, -⟩ := Option.bind_eq_some_iff.mp hDerives
    exact List.mem_map.mpr
      ⟨type.index, List.mem_range.mpr (List.getElem?_eq_some_iff.mp hType).1, rfl⟩
  simpa [typeIds] using (List.subperm_of_subset hNodup hSub).length_le

/-- The search for what a method overrides ends where a virtual call on the base type lands. The
types that it passes are all different, so that it is never cut short. -/
theorem Acyclic.nearestMatch? (hAcyclic : p.Acyclic) (h : p.Dispatches m base target)
    (hElsewhere : ∀ above, ReflTransGen p.Derives base above → p.slotOn? m above ≠ some id)
    {passed : List TypeId} (hNodup : passed.Nodup)
    (hPassed : ∀ type ∈ passed, TransGen p.Derives type base) {fuel : Nat}
    (hFuel : p.types.length < passed.length + fuel) :
    p.nearestMatch? id m fuel (some base) = some target := by
  obtain ⟨fuel, rfl⟩ : ∃ more, fuel = more + 1 := by
    have hShort := length_le_of_derives hNodup hPassed
    exact ⟨fuel - 1, by omega⟩
  induction h generalizing passed fuel with
  | @found base target here =>
      rw [Program.nearestMatch?, matching?_eq_slotOn? (hElsewhere base .refl)]
      simp only [here]
  | @inherited base above target none derives _ ih =>
      rw [Program.nearestMatch?, matching?_eq_slotOn? (hElsewhere base .refl)]
      simp only [none]
      have hNext : (p.type? base).bind TypeDef.baseType? = some above := derives
      have hNodup' : (base :: passed).Nodup :=
        List.nodup_cons.mpr ⟨fun hMem => hAcyclic base (hPassed base hMem), hNodup⟩
      have hPassed' : ∀ type ∈ base :: passed, TransGen p.Derives type above :=
        List.forall_mem_cons.mpr ⟨.single derives, fun type hMem => (hPassed type hMem).tail derives⟩
      have hShort := length_le_of_derives hNodup' hPassed'
      obtain ⟨fuel, rfl⟩ : ∃ more, fuel = more + 1 := by
        rw [List.length_cons] at hShort
        exact ⟨fuel - 1, by omega⟩
      rw [hNext]
      refine ih (fun type hPath => hElsewhere type (.head derives hPath)) hNodup' hPassed' fuel ?_
      rw [List.length_cons]
      omega

/-- A method on a class overrides what a virtual call on the base type lands on, unless it starts
a slot of its own. -/
theorem overrides_of_dispatches (hRegistered : p.Registered) (hAcyclic : p.Acyclic)
    (hSlot : p.slotOn? m type = some id) (hMethod : p.method? id = some other)
    (hOld : other.flags.has .newSlot = false) (hClass : p.isInterface type = false)
    (hDerives : p.Derives type base) (h : p.Dispatches m base target) : p.Overrides id target := by
  obtain ⟨-, d, hMethod', hUsed, hVirtual, hSame⟩ := slotOn?_some hSlot
  obtain rfl : other = d := Option.some_inj.mp (hMethod.symm.trans hMethod')
  obtain ⟨t, hType, hBase⟩ := Option.bind_eq_some_iff.mp hDerives
  have hOwner := hRegistered.owner_of_slotOn? hSlot hMethod
  refine ⟨other, hMethod, hUsed, hVirtual, ?_⟩
  have hElsewhere (above : TypeId) (hPath : ReflTransGen p.Derives base above) :
      p.slotOn? other above ≠ some id := by
    intro hAgain
    obtain rfl := hRegistered.owner_of_slotOn? hAgain hMethod
    exact hAcyclic _ (TransGen.head' (hOwner ▸ hDerives) hPath)
  have hFound : p.nearestMatch? id other (p.types.length + 1) (some base) = some target := by
    exact hAcyclic.nearestMatch? (h.congr hSame) hElsewhere List.nodup_nil (by simp) (by simp)
  have hNearest : p.implicitBase? id other = some target := by
    have hPlain : t.isInterface = false := by simpa [isInterface, hType] using hClass
    unfold implicitBase?
    rw [hOwner]
    simp only [hType, hOld, hPlain, Bool.or_self, hBase, hFound]
    simp
  unfold basesOf
  rw [mem_ascending]
  simp [hNearest]

/-- What a virtual call lands on overrides, over any number of steps, each method of the signature
further up that nothing hides. -/
theorem Dispatches.overrides (hRegistered : p.Registered) (hAcyclic : p.Acyclic)
    (hLayered : p.Layered) (h : p.Dispatches m type target)
    (hPath : ReflTransGen p.Derives type top) (hSlot : p.slotOn? m top = some id)
    (hUnhidden : p.Unhidden m type top) : ReflTransGen p.Overrides target id := by
  induction hPath using ReflTransGen.head_induction_on generalizing target with
  | refl =>
      obtain rfl := (Dispatches.found hSlot).unique h
      exact .refl
  | @head type base hDerives hRest ih =>
      have hAbove : p.Unhidden m base top :=
        fun between id other hPath => hUnhidden between id other (.head hDerives hPath)
      cases h with
      | inherited none derives above => exact ih (hDerives.unique derives ▸ above) hAbove
      | found here =>
          obtain ⟨next, hNext⟩ := exists_dispatches hRest hSlot
          obtain ⟨-, other, hMethod, -⟩ := slotOn?_some here
          have hOld := hUnhidden type target other .refl (.head' hDerives hRest) here hMethod
          have hStep := overrides_of_dispatches hRegistered hAcyclic here hMethod hOld
            (hLayered.bare type base hDerives) hDerives hNext
          exact .head hStep (ih hNext hAbove)

/-- A method overrides what it finds on the interfaces of its owner. -/
theorem overrides_of_interface (hRegistered : p.Registered) (hMethod : p.method? id = some m)
    (hUsed : m.isRetired = false) (hVirtual : m.isVirtual = true)
    (hNamed : m.owner ∈ p.interfacesOf type) (hSlot : p.slotOn? m type = some target)
    (hOther : target ≠ id) : p.Overrides target id := by
  obtain ⟨-, d, hTarget, hUsed', hVirtual', hSame⟩ := slotOn?_some hSlot
  refine ⟨d, hTarget, hUsed', hVirtual', ?_⟩
  have hHere := (slotOn?_congr hSame _).trans (hRegistered.slotOn?_owner hMethod hUsed hVirtual)
  have hMatch : p.matching? m.owner target d = some id := by
    refine (matching?_eq_slotOn? ?_).trans hHere
    rw [hHere]
    exact fun h => hOther (Option.some_inj.mp h).symm
  unfold basesOf
  rw [mem_ascending, List.mem_append, List.mem_filterMap]
  exact Or.inr ⟨m.owner, hRegistered.owner_of_slotOn? hSlot hTarget ▸ hNamed, hMatch⟩

/-- What a type may stand for, it derives from, or a type that it derives from names it as an
interface. -/
theorem Layered.assignable (hLayered : p.Layered) (h : p.isAssignableTo type top = true) :
    ReflTransGen p.Derives type top ∨
      ∃ naming, ReflTransGen p.Derives type naming ∧ top ∈ p.interfacesOf naming := by
  unfold isAssignableTo at h
  generalize p.types.length + 1 = fuel at h
  induction fuel generalizing type with
  | zero =>
      obtain rfl : type = top := by simpa [isAssignableWithin] using h
      exact Or.inl .refl
  | succ fuel ih =>
      rw [isAssignableWithin, Bool.or_eq_true] at h
      rcases h with hSame | h
      · obtain rfl := beq_iff_eq.mp hSame
        exact Or.inl .refl
      · split at h
        · cases h
        · rename_i t hType
          rcases Bool.or_eq_true_iff.mp h with hNamed | hBase
          · obtain ⟨first, hFirst, hLeads⟩ := List.any_eq_true.mp hNamed
            have hExtends : p.ExtendsTo type first := by
              simpa [ExtendsTo, namedInterfaces, hType] using hFirst
            have hInterface := hLayered.named type first hExtends
            refine Or.inr ⟨type, .refl, mem_interfacesOf.mpr ⟨first, hExtends, ?_⟩⟩
            rcases ih hLeads with hPath | ⟨naming, hPath, hAbove⟩
            · rw [hLayered.derives_of_interface hInterface hPath]
            · obtain rfl := hLayered.derives_of_interface hInterface hPath
              obtain ⟨second, hSecond, hRest⟩ := mem_interfacesOf.mp hAbove
              exact .head hSecond hRest
          · obtain ⟨base, hDerives, hLeads⟩ : ∃ base, t.baseType? = some base ∧
                p.isAssignableWithin top fuel base = true := by
              cases hOf : t.baseType? with
              | none => simp [hOf] at hBase
              | some base => exact ⟨base, rfl, by simpa [hOf] using hBase⟩
            have hStep : p.Derives type base := by simp [Derives, baseOf?, hType, hDerives]
            rcases ih hLeads with hPath | ⟨naming, hPath, hAbove⟩
            · exact Or.inl (.head hStep hPath)
            · exact Or.inr ⟨naming, .head hStep hPath, hAbove⟩

/-- Nothing hides a type further up from a type where nothing hides it from the base type, and no
slot of its own starts on the type. -/
theorem Unhidden.head (hHere : ∀ id other, p.slotOn? m type = some id →
      p.method? id = some other → other.flags.has .newSlot = false)
    (hDerives : p.Derives type base) (h : p.Unhidden m base top) : p.Unhidden m type top := by
  intro between id other hPath hBelow hSlot hMethod
  rcases hPath.cases_head with rfl | ⟨next, hNext, hRest⟩
  · exact hHere id other hSlot hMethod
  · exact h between id other (hDerives.unique hNext ▸ hRest) hBelow hSlot hMethod

theorem Supplies.head (hHere : ∀ id other, p.slotOn? m type = some id →
      p.method? id = some other → other.flags.has .newSlot = false)
    (hDerives : p.Derives type base) (h : p.Supplies m base) : p.Supplies m type := by
  obtain ⟨naming, own, hPath, hNamed, hSlot, hUnhidden⟩ := h
  exact ⟨naming, own, .head hDerives hPath, hNamed, hSlot, hUnhidden.head hHere hDerives⟩

/-- Where a virtual call lands on a method, the type is supplied with it if the owner is. -/
theorem Dispatches.supplies (hRegistered : p.Registered) (h : p.Dispatches m type target)
    (hMethod : p.method? target = some other) (hSupplies : p.Supplies m other.owner) :
    p.Supplies m type := by
  induction h with
  | found here => exact hRegistered.owner_of_slotOn? here hMethod ▸ hSupplies
  | inherited none derives _ ih =>
      exact (ih hMethod).head (fun _ _ hSlot _ => by simp [none] at hSlot) derives

/-- The search for what a method overrides ends where nothing hides that. It does not end on an
interface. -/
theorem supplies_of_nearestMatch? (hRegistered : p.Registered) (hLayered : p.Layered)
    (hSame : other.sameSignature m = true) {found : MethodId} {f : MethodDef}
    (hFound : p.method? found = some f)
    (hFrom : p.isInterface f.owner = true ∨ p.Supplies m f.owner) {fuel : Nat}
    (hClass : p.isInterface base = false)
    (hElsewhere : ∀ above, ReflTransGen p.Derives base above → p.slotOn? m above ≠ some id)
    (h : p.nearestMatch? id other fuel (some base) = some found) : p.Supplies m base := by
  induction fuel generalizing base with
  | zero => cases h
  | succ fuel ih =>
      have hHere : p.matching? base id other = p.slotOn? m base := by
        rw [matching?_eq_slotOn? (slotOn?_congr hSame base ▸ hElsewhere base .refl),
          slotOn?_congr hSame]
      rw [Program.nearestMatch?, hHere] at h
      split at h
      · rename_i hSlot
        obtain rfl := Option.some_inj.mp h
        obtain rfl := hRegistered.owner_of_slotOn? hSlot hFound
        exact hFrom.resolve_left (by simp [hClass])
      · rename_i hNone
        cases hBase : (p.type? base).bind TypeDef.baseType? with
        | none =>
            rw [hBase] at h
            cases fuel <;> cases h
        | some above =>
            rw [hBase] at h
            have hAbove := ih (hLayered.classes base above hBase)
              (fun type hPath => hElsewhere type (.head hBase hPath)) h
            exact hAbove.head (fun _ _ hSlot _ => by simp [hNone] at hSlot) hBase

/-- Unless it is declared to, a method overrides another one as the first of its signature further
up its base types, or on an interface. -/
theorem Overrides.cases (h : p.Overrides id target) :
    ∃ m, p.method? id = some m ∧ m.isRetired = false ∧ m.isVirtual = true ∧
      (target ∈ m.overrides ∨ p.implicitBase? id m = some target ∨
        ∃ type ∈ p.interfacesOf m.owner, p.matching? type id m = some target) := by
  obtain ⟨m, hMethod, hUsed, hVirtual, hBase⟩ := h
  refine ⟨m, hMethod, hUsed, hVirtual, ?_⟩
  unfold basesOf at hBase
  rw [mem_ascending, List.mem_append, List.mem_append, List.mem_filterMap] at hBase
  rcases hBase with (hDeclared | hImplicit) | hNamed
  · exact Or.inl (List.mem_filter.mp hDeclared).1
  · exact Or.inr (Or.inl (by simpa using hImplicit))
  · exact Or.inr (Or.inr hNamed)

theorem sameSignature_of_matching? (h : p.matching? type id other = some target) {f : MethodDef}
    (hTarget : p.method? target = some f) : f.sameSignature other = true := by
  obtain ⟨f', hTarget', hAll⟩ :=
    (Option.any_eq_true ..).mp (Bool.and_eq_true_iff.mp (lists_of_matching? h).2).1
  obtain rfl : f = f' := Option.some_inj.mp (hTarget.symm.trans hTarget')
  exact (Bool.and_eq_true_iff.mp hAll).2

theorem exists_matching?_of_nearestMatch? {fuel : Nat} {start : Option TypeId}
    (h : p.nearestMatch? id other fuel start = some target) :
    ∃ type, p.matching? type id other = some target := by
  induction fuel generalizing start with
  | zero => cases h
  | succ fuel ih =>
      cases start with
      | none => cases h
      | some type =>
          rw [Program.nearestMatch?] at h
          split at h
          · rename_i hFound
            exact ⟨type, hFound.trans h⟩
          · exact ih h

/-- What overrides a method that supplies its owner, or the method of the interface itself, does so
too if it is not declared to. -/
theorem Overrides.supplies (hRegistered : p.Registered) (hAcyclic : p.Acyclic)
    (hLayered : p.Layered) (hInterface : p.isInterface m.owner = true)
    (hUndeclared : p.Undeclared m) {f : MethodDef} (hTarget : p.method? target = some f)
    (hSame : f.sameSignature m = true) (hFrom : f.owner = m.owner ∨ p.Supplies m f.owner)
    (h : p.Overrides id target) :
    ∃ other, p.method? id = some other ∧ other.sameSignature m = true ∧
      p.Supplies m other.owner := by
  obtain ⟨other, hMethod, hUsed, hVirtual, hCase⟩ := h.cases
  have hSlot (hLike : other.sameSignature m = true) : p.slotOn? m other.owner = some id :=
    (slotOn?_congr hLike _).symm.trans (hRegistered.slotOn?_owner hMethod hUsed hVirtual)
  refine ⟨other, hMethod, ?_⟩
  rcases hCase with hDeclared | hImplicit | ⟨type, hNamed, hMatch⟩
  · simp [hUndeclared id other hMethod target hDeclared f hTarget] at hSame
  · unfold implicitBase? at hImplicit
    split at hImplicit
    · cases hImplicit
    · rename_i t hType
      split at hImplicit
      · cases hImplicit
      · rename_i hOld
        obtain ⟨type, hMatch⟩ := exists_matching?_of_nearestMatch? hImplicit
        have hLike := MethodDef.sameSignature_of_common hSame (sameSignature_of_matching? hMatch hTarget)
        cases hBase : t.baseType? with
        | none =>
            rw [hBase] at hImplicit
            cases hImplicit
        | some base =>
            rw [hBase] at hImplicit
            have hDerives : p.Derives other.owner base := by
              simp [Derives, baseOf?, hType, hBase]
            have hElsewhere (above : TypeId) (hPath : ReflTransGen p.Derives base above) :
                p.slotOn? m above ≠ some id := by
              intro hAgain
              obtain rfl := hRegistered.owner_of_slotOn? hAgain hMethod
              exact hAcyclic _ (TransGen.head' hDerives hPath)
            have hAbove := supplies_of_nearestMatch? hRegistered hLayered hLike hTarget
              (hFrom.imp_left fun hOwner : f.owner = m.owner => hOwner ▸ hInterface)
              (hLayered.classes _ base hDerives) hElsewhere hImplicit
            refine ⟨hLike, hAbove.head (fun own o hOwn hMethod' => ?_) hDerives⟩
            obtain rfl := Option.some_inj.mp ((hSlot hLike).symm.trans hOwn)
            obtain rfl := Option.some_inj.mp (hMethod.symm.trans hMethod')
            exact (by simpa using hOld : other.flags.has .newSlot = false ∧ _).1
  · have hLike := MethodDef.sameSignature_of_common hSame (sameSignature_of_matching? hMatch hTarget)
    obtain ⟨f', hTarget', rfl⟩ := hRegistered.owned type target (lists_of_matching? hMatch).1
    obtain rfl : f = f' := Option.some_inj.mp (hTarget.symm.trans hTarget')
    refine ⟨hLike, other.owner, id, .refl, ?_, hSlot hLike, ?_⟩
    · rcases hFrom with hOwner | ⟨naming, own, hPath, hAbove, -⟩
      · exact hOwner ▸ hNamed
      · obtain rfl := hLayered.derives_of_interface (hLayered.isInterface_of_mem hNamed) hPath
        obtain ⟨first, hFirst, hRest⟩ := mem_interfacesOf.mp hAbove
        obtain ⟨start, hStart, hLeads⟩ := mem_interfacesOf.mp hNamed
        exact mem_interfacesOf.mpr ⟨start, hStart, hLeads.trans (.head hFirst hRest)⟩
    · intro between _ _ hPath hBelow
      exact (hAcyclic _ (TransGen.trans_right hPath hBelow)).elim

/-- What overrides a method of an interface over any number of steps, none of them declared,
supplies its owner with it. -/
theorem supplies_of_overrides (hRegistered : p.Registered) (hAcyclic : p.Acyclic)
    (hLayered : p.Layered) (hMethod : p.method? id = some m)
    (hInterface : p.isInterface m.owner = true) (hUndeclared : p.Undeclared m)
    (h : TransGen p.Overrides target id) :
    ∃ other, p.method? target = some other ∧ other.sameSignature m = true ∧
      p.Supplies m other.owner := by
  induction h using TransGen.head_induction_on with
  | single hStep =>
      exact hStep.supplies hRegistered hAcyclic hLayered hInterface hUndeclared hMethod
        (by simp [MethodDef.sameSignature]) (Or.inl rfl)
  | head hStep _ ih =>
      obtain ⟨f, hTarget, hSame, hSupplies⟩ := ih
      exact hStep.supplies hRegistered hAcyclic hLayered hInterface hUndeclared hTarget hSame
        (Or.inr hSupplies)

end Program

namespace OverrideGraph

open Program

variable {p : Program} {m : MethodDef} {id target : MethodId} {type : TypeId}

/-- A method among the implementations overrides the method over any number of steps. -/
theorem overrides_of_mem_implementations (h : target ∈ (build p).implementations id) :
    TransGen p.Overrides target id := by
  unfold implementations at h
  rw [mem_ascending, List.mem_filter] at h
  obtain ⟨first, hFirst, hPath⟩ := reach_within h.1
  clear h
  induction hPath with
  | refl => exact .single (mem_overriders_build.mp hFirst)
  | tail _ hStep ih => exact .head (mem_overriders_build.mp hStep) ih

/-- What a virtual call lands on is among the implementations of a slot of a class, unless a type on
the way starts a slot of its own. It is among the implementations of a slot of an interface just
where a type that names the interface has a method of its own for it, as far as the methods are not
declared to override each other. -/
theorem dispatches_implementations (hRegistered : p.Registered) (hAcyclic : p.Acyclic)
    (hLayered : p.Layered) (hMethod : p.method? id = some m) (hUsed : m.isRetired = false)
    (hVirtual : m.isVirtual = true) (hType : p.isAssignableTo type m.owner = true)
    (hDispatches : p.Dispatches m type target) (hOther : target ≠ id) (hCode : p.HasCode target) :
    (p.isInterface m.owner = false → p.Unhidden m type m.owner →
      target ∈ (build p).implementations id) ∧
    (p.Supplies m type → target ∈ (build p).implementations id) ∧
    (p.isInterface m.owner = true → p.Undeclared m →
      target ∈ (build p).implementations id → p.Supplies m type) := by
  refine ⟨fun hClass hUnhidden => ?_, fun hSupplies => ?_, fun hInterface hUndeclared hMem => ?_⟩
  · rcases hLayered.assignable hType with hPath | ⟨naming, -, hNamed⟩
    · have hSlot := hRegistered.slotOn?_owner hMethod hUsed hVirtual
      have hSteps := hDispatches.overrides hRegistered hAcyclic hLayered hPath hSlot hUnhidden
      exact mem_implementations_build hCode
        ((reflTransGen_iff_eq_or_transGen.mp hSteps).resolve_left (Ne.symm hOther))
    · simp [hLayered.isInterface_of_mem hNamed] at hClass
  · obtain ⟨naming, own, hPath, hNamed, hSlot, hUnhidden⟩ := hSupplies
    have hSteps := hDispatches.overrides hRegistered hAcyclic hLayered hPath hSlot hUnhidden
    refine mem_implementations_build hCode ?_
    by_cases hOwn : own = id
    · exact (reflTransGen_iff_eq_or_transGen.mp (hOwn ▸ hSteps)).resolve_left (Ne.symm hOther)
    · have hLast := overrides_of_interface hRegistered hMethod hUsed hVirtual hNamed hSlot hOwn
      exact TransGen.tail' hSteps hLast
  · obtain ⟨other, hTarget, -, hSupplies⟩ := supplies_of_overrides hRegistered hAcyclic hLayered
      hMethod hInterface hUndeclared (overrides_of_mem_implementations hMem)
    exact hDispatches.supplies hRegistered hTarget hSupplies

end OverrideGraph

section Examples

open Program

namespace Program

variable {p : Program}

/-- No type derives from itself where each one comes after what it derives from. -/
theorem acyclic_of_lt (h : ∀ e ∈ p.types.zipIdx, ∀ base ∈ e.1.baseType?, base.index < e.2) :
    p.Acyclic := by
  have hStep (type base : TypeId) (hDerives : p.Derives type base) : base.index < type.index := by
    obtain ⟨t, hType, hBase⟩ := Option.bind_eq_some_iff.mp hDerives
    exact h (t, type.index) (List.mem_zipIdx_iff_getElem?.mpr hType) base hBase
  intro type hPath
  suffices hLess : ∀ top, TransGen p.Derives type top → top.index < type.index from
    Nat.lt_irrefl _ (hLess type hPath)
  intro top hPath
  induction hPath with
  | single hDerives => exact hStep _ _ hDerives
  | tail _ hDerives ih => exact Nat.lt_trans (hStep _ _ hDerives) ih

theorem layered_of_types (hNamed : ∀ t ∈ p.types, ∀ type ∈ t.interfaces, p.isInterface type = true)
    (hBases : ∀ t ∈ p.types, ∀ base ∈ t.baseType?,
      t.isInterface = false ∧ p.isInterface base = false) : p.Layered := by
  have hStep (type base : TypeId) (hDerives : p.Derives type base) :
      p.isInterface type = false ∧ p.isInterface base = false := by
    obtain ⟨t, hType, hBase⟩ := Option.bind_eq_some_iff.mp hDerives
    have hBoth := hBases t (List.mem_of_getElem? hType) base hBase
    exact ⟨by simp [isInterface, hType, hBoth.1], hBoth.2⟩
  refine ⟨fun type other hExtends => ?_, fun type base h => (hStep type base h).1,
    fun type base h => (hStep type base h).2⟩
  cases hType : p.type? type with
  | none => simp [ExtendsTo, namedInterfaces, hType] at hExtends
  | some t =>
      refine hNamed t (List.mem_of_getElem? hType) other ?_
      simpa [ExtendsTo, namedInterfaces, hType] using hExtends

end Program

/-- `Host` has a greeting, which `Guest` inherits and `Butler` overrides. `Guest` and `Robot` name
an interface with a greeting, and `Robot` has one of its own for it. -/
def greetings : Edit ContextPlan := do
  let polite ← addType "G" "IPolite" none (.ofList [.interface])
  let host ← addType "G" "Host" none ⟨0⟩
  let guest ← addType "G" "Guest" none ⟨0⟩
  let butler ← addType "G" "Butler" none ⟨0⟩
  let robot ← addType "G" "Robot" none ⟨0⟩
  [guest, butler].forM fun type => setBase type (.named host)
  [guest, robot].forM fun type => addInterface type polite
  let _ ← addMethod polite "Greet" [] .void (.ofList [.virtual, .abstract])
  [host, butler, robot].forM fun owner => do
    let greet ← addMethod owner "Greet" [] .void (.ofList [.virtual])
    setBody greet (.fresh [.plain .ret])
  pure default

/-- The greeting of an owner. -/
def greeting (owner : TypeId) (flags : List MethodFlag) (body : Option MethodBody) : MethodDef :=
  ⟨owner, "Greet", [], .void, .ofList flags, [], body⟩

theorem greetings_registered : (built greetings).1.Registered :=
  ⟨by decide +kernel, by decide +kernel, by decide +kernel⟩

theorem greetings_acyclic : (built greetings).1.Acyclic := acyclic_of_lt (by decide +kernel)

theorem greetings_layered : (built greetings).1.Layered :=
  layered_of_types (by decide +kernel) (by decide +kernel)

/-- No slot is started anew, and nothing is declared to override. -/
theorem greetings_plain :
    ∀ m ∈ (built greetings).1.methods, m.flags.has .newSlot = false ∧ m.overrides = [] := by
  decide +kernel

theorem greetings_unhidden (m : MethodDef) (type top : TypeId) :
    (built greetings).1.Unhidden m type top :=
  fun _ _ _ _ _ _ hMethod => (greetings_plain _ (List.mem_of_getElem? hMethod)).1

theorem greetings_undeclared (m : MethodDef) : (built greetings).1.Undeclared m := by
  intro id other hMethod base hMem
  simp [(greetings_plain other (List.mem_of_getElem? hMethod)).2] at hMem

/-- A greeting with code is reached where its owner overrides the greeting of `Host`, or names the
interface and has the greeting itself. -/
theorem ownGreeting_reached :
    MethodId.mk 2 ∈ (OverrideGraph.build (built greetings).1).implementations ⟨1⟩ ∧
      MethodId.mk 3 ∈ (OverrideGraph.build (built greetings).1).implementations ⟨0⟩ := by
  have hButler : (built greetings).1.HasCode ⟨2⟩ :=
    ⟨greeting ⟨3⟩ [.virtual] (some (.fresh [.plain .ret])), by decide +kernel⟩
  have hRobot : (built greetings).1.HasCode ⟨3⟩ :=
    ⟨greeting ⟨4⟩ [.virtual] (some (.fresh [.plain .ret])), by decide +kernel⟩
  constructor
  · have hLands : (built greetings).1.Dispatches
        (greeting ⟨1⟩ [.virtual] (some (.fresh [.plain .ret]))) ⟨3⟩ ⟨2⟩ := .found (by decide +kernel)
    exact (OverrideGraph.dispatches_implementations greetings_registered greetings_acyclic
      greetings_layered (by decide +kernel) (by decide +kernel) (by decide +kernel)
      (by decide +kernel) hLands (by decide) hButler).1
      (by decide +kernel) (greetings_unhidden _ _ _)
  · have hLands : (built greetings).1.Dispatches (greeting ⟨0⟩ [.virtual, .abstract] none) ⟨4⟩ ⟨3⟩ :=
      .found (by decide +kernel)
    exact (OverrideGraph.dispatches_implementations greetings_registered greetings_acyclic
      greetings_layered (by decide +kernel) (by decide +kernel) (by decide +kernel)
      (by decide +kernel) hLands (by decide) hRobot).2.1
      ⟨⟨4⟩, ⟨3⟩, .refl, by decide +kernel, by decide +kernel, greetings_unhidden _ _ _⟩

/-- A call of the greeting of the interface on a `Guest` lands on the one of `Host`, which is not
among the implementations. -/
theorem inheritedGreeting_missed :
    (built greetings).1.Acyclic ∧ (built greetings).1.Layered ∧
      ¬ ∀ id m type target, (built greetings).1.method? id = some m → m.isRetired = false →
        m.isVirtual = true → (built greetings).1.isInterface type = false →
        (built greetings).1.isAssignableTo type m.owner = true →
        (built greetings).1.Undeclared m → (built greetings).1.Unhidden m type m.owner →
        (built greetings).1.Dispatches m type target → target ≠ id →
        (built greetings).1.HasCode target →
        target ∈ (OverrideGraph.build (built greetings).1).implementations id := by
  refine ⟨greetings_acyclic, greetings_layered, fun hAll => ?_⟩
  have hDerives : (built greetings).1.Derives ⟨2⟩ ⟨1⟩ := by decide +kernel
  have hLands : (built greetings).1.Dispatches (greeting ⟨0⟩ [.virtual, .abstract] none) ⟨2⟩ ⟨1⟩ :=
    .inherited (by decide +kernel) hDerives (.found (by decide +kernel))
  have hMem := hAll ⟨0⟩ _ ⟨2⟩ ⟨1⟩ (by decide +kernel) (by decide +kernel) (by decide +kernel)
    (by decide +kernel) (by decide +kernel) (greetings_undeclared _) (greetings_unhidden _ _ _)
    hLands (by decide) ⟨greeting ⟨1⟩ [.virtual] (some (.fresh [.plain .ret])), by decide +kernel⟩
  revert hMem
  decide +kernel

end Examples

end ContextBinding
