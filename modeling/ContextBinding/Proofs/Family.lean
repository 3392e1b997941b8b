import ContextBinding.Proofs.Edit
import ContextBinding.Proofs.Overriding
import Mathlib.Data.List.Perm.Subperm

/-! Families of methods that override each other. A change that leaves the declarations
splits no family, unless a method that comes with it takes part in overriding. -/

namespace ContextBinding

open Relation

namespace Program

/-- One of two methods overrides the other one. -/
def Related (p : Program) (a b : MethodId) : Prop := p.Overrides a b ∨ p.Overrides b a

/-- The interfaces that a type names. -/
def namedInterfaces (p : Program) (id : TypeId) : List TypeId :=
  ((p.type? id).map (·.interfaces)).getD []

/-- One type names the other one as an interface. -/
def ExtendsTo (p : Program) (id other : TypeId) : Prop := other ∈ p.namedInterfaces id

variable {p q : Program} {l : License}

theorem mem_interfacesOf {id type : TypeId} :
    type ∈ p.interfacesOf id ↔
      ∃ first ∈ p.namedInterfaces id, ReflTransGen p.ExtendsTo first type := by
  unfold interfacesOf
  rw [mem_ascending]
  constructor
  · exact reach_within
  · rintro ⟨first, hFirst, hPath⟩
    let counts : List (TypeId × Nat) :=
      p.types.zipIdx.map fun e => (⟨e.2⟩, e.1.interfaces.length)
    have hCount (type : TypeId) : (p.namedInterfaces type).length ≤ allowance counts type := by
      unfold namedInterfaces
      cases hType : p.type? type with
      | none => exact Nat.zero_le _
      | some t =>
          refine le_allowance (List.mem_map.mpr ⟨(t, type.index), ?_, rfl⟩)
          exact List.mem_zipIdx_iff_getElem?.mpr hType
    have hSum : (counts.map (·.2)).sum = (p.types.flatMap (·.interfaces)).length := by
      rw [List.length_flatMap, List.map_map]
      conv_rhs => rw [← List.zipIdx_map_fst 0 p.types, List.map_map]
      rfl
    have hStart : (p.namedInterfaces id).length ≤ (p.types.flatMap (·.interfaces)).length := by
      unfold namedInterfaces
      cases hType : p.type? id with
      | none => exact Nat.zero_le _
      | some t =>
          rw [List.flatMap_def]
          have hMem : t.interfaces ∈ p.types.map (·.interfaces) :=
            List.mem_map.mpr ⟨t, List.mem_of_getElem? hType, rfl⟩
          exact (List.sublist_flatten_of_mem hMem).length_le
    refine mem_reach hCount ?_ hFirst hPath
    rw [hSum]
    change (p.namedInterfaces id).length + _ ≤ _
    omega

theorem mem_matching? {type : TypeId} {id base : MethodId} {m : MethodDef}
    (h : p.matching? type id m = some base) :
    ∃ b, p.method? base = some b ∧ b.isRetired = false := by
  unfold matching? at h
  have hMem := List.mem_of_find?_eq_some h
  unfold methodsWhere at hMem
  split at hMem
  · obtain ⟨b, hMethod, hAll⟩ := (Option.any_eq_true ..).mp (List.mem_filter.mp hMem).2
    simp only [Bool.and_eq_true, Bool.not_eq_true'] at hAll
    exact ⟨b, hMethod, hAll.1.1⟩
  · exact (List.not_mem_nil hMem).elim

theorem mem_nearestMatch? {id base : MethodId} {m : MethodDef} {fuel : Nat} {start : Option TypeId}
    (h : p.nearestMatch? id m fuel start = some base) :
    ∃ b, p.method? base = some b ∧ b.isRetired = false := by
  induction fuel generalizing start with
  | zero => simp [nearestMatch?] at h
  | succ fuel ih =>
      cases start with
      | none => simp [nearestMatch?] at h
      | some type =>
          rw [nearestMatch?] at h
          split at h
          · rename_i found hFound
            exact mem_matching? (hFound.trans h)
          · exact ih h

/-- Interfaces of a type stay interfaces of it. -/
theorem Steady.mem_interfacesOf (h : p.Steady l q) {id type : TypeId}
    (hMem : type ∈ p.interfacesOf id) : type ∈ q.interfacesOf id := by
  have hNamed (id : TypeId) : p.namedInterfaces id ⊆ q.namedInterfaces id := by
    intro other hMem
    unfold namedInterfaces at hMem ⊢
    cases hType : p.type? id with
    | none => simp [hType] at hMem
    | some t =>
        obtain ⟨t', hType', hStep⟩ := h.types id.index t hType
        have hType' : q.type? id = some t' := hType'
        simpa [hType, hType', hStep.interfaces] using hMem
  obtain ⟨first, hFirst, hPath⟩ := Program.mem_interfacesOf.mp hMem
  refine Program.mem_interfacesOf.mpr ⟨first, hNamed id hFirst, ?_⟩
  exact ReflTransGen.mono (fun a b hStep => hNamed a hStep) _ _ hPath

/-- No method that is new to a later program is virtual and has the signature of a
method. -/
def Clear (p q : Program) (m : MethodDef) : Prop :=
  ∀ m' ∈ q.methods.drop p.methods.length, m'.isVirtual = true → m'.sameSignature m = false

theorem Clear.method {other : MethodId} {m m' : MethodDef} (h : p.Clear q m)
    (hNew : p.methods.length ≤ other.index) (hMethod : q.method? other = some m')
    (hVirtual : m'.isVirtual = true) : m'.sameSignature m = false := by
  refine h m' ?_ hVirtual
  refine List.mem_of_getElem? ((List.getElem?_drop (i := p.methods.length)
    (j := other.index - p.methods.length)).trans ?_)
  rwa [Nat.add_sub_cancel' hNew]

theorem Clear.earlier {r : Program} {m : MethodDef} (h : p.Clear r m) (hGrows : q.Grows r) :
    p.Clear q m := by
  intro m' hMem hVirtual
  obtain ⟨j, hAt⟩ := List.mem_iff_getElem?.mp hMem
  rw [List.getElem?_drop] at hAt
  obtain ⟨m'', hAt', hStep⟩ := hGrows.methods _ _ hAt
  rw [← MethodDef.Persists.sameSignature (refl m) hStep]
  have hNew : p.methods.length ≤ (MethodId.mk (p.methods.length + j)).index := Nat.le_add_right ..
  exact h.method hNew hAt' (hStep.isVirtual.trans hVirtual)

/-- A virtual method in use, other than `id`, with the signature of `m`. -/
def Matches (p : Program) (id : MethodId) (m : MethodDef) (other : MethodId) : Bool :=
  ((p.method? other).any fun m' => !m'.isRetired && m'.isVirtual && m'.sameSignature m) &&
    other != id

theorem matching?_eq (p : Program) (type : TypeId) (id : MethodId) (m : MethodDef) :
    p.matching? type id m = ((p.type? type).map (·.methods)).bind (·.find? (p.Matches id m)) := by
  unfold matching? methodsWhere Matches
  cases p.type? type with
  | none => rfl
  | some t => simp [List.find?_filter, bne, beq_eq_decide]

/-- What matches later did so before. -/
theorem matches_of_later {id other : MethodId} {m m' : MethodDef} (hGrows : p.Grows q)
    (hClear : p.Clear q m) (hm : m.Persists m') (h : q.Matches id m' other = true) :
    p.Matches id m other = true := by
  obtain ⟨hMatch, hOther⟩ := Bool.and_eq_true_iff.mp h
  obtain ⟨b', hMethod', hAll⟩ := (Option.any_eq_true ..).mp hMatch
  simp only [Bool.and_eq_true, Bool.not_eq_true'] at hAll
  obtain ⟨⟨hUsed', hVirtual'⟩, hSame'⟩ := hAll
  rw [hm.sameSignature (refl b')] at hSame'
  cases hMethod : p.method? other with
  | none =>
      have hNew : p.methods.length ≤ other.index := List.getElem?_eq_none_iff.mp hMethod
      simp [hClear.method hNew hMethod' hVirtual'] at hSame'
  | some b =>
      have hb := hGrows.method_persists hMethod hMethod'
      have hUsed := hb.used hUsed'
      refine Bool.and_eq_true_iff.mpr ⟨(Option.any_eq_true ..).mpr ⟨b, hMethod, ?_⟩, hOther⟩
      rw [MethodDef.Persists.sameSignature (refl m) hb] at hSame'
      simp [hUsed, hSame', ← hb.isVirtual, hVirtual']

/-- What matches does so later, unless it went out of use. -/
theorem matches_later {id other : MethodId} {m m' : MethodDef} (hGrows : p.Grows q)
    (hm : m.Persists m') (hUsed : ¬ q.Retired other) (h : p.Matches id m other = true) :
    q.Matches id m' other = true := by
  obtain ⟨hMatch, hOther⟩ := Bool.and_eq_true_iff.mp h
  obtain ⟨b, hMethod, hAll⟩ := (Option.any_eq_true ..).mp hMatch
  simp only [Bool.and_eq_true, Bool.not_eq_true'] at hAll
  obtain ⟨⟨-, hVirtual⟩, hSame⟩ := hAll
  obtain ⟨b', hMethod', hb⟩ := hGrows.method hMethod
  have hUsed' : b'.isRetired = false := by
    cases hRetired : b'.isRetired with
    | false => rfl
    | true => exact (hUsed ⟨b', hMethod', hRetired⟩).elim
  refine Bool.and_eq_true_iff.mpr ⟨(Option.any_eq_true ..).mpr ⟨b', hMethod', ?_⟩, hOther⟩
  simp [hUsed', hb.isVirtual, hVirtual, hm.sameSignature hb, hSame]

/-- The match on a type stays the match on it, unless it went out of use. -/
theorem Steady.matching?_some (hSteady : p.Steady l q) (hGrows : p.Grows q) {type : TypeId}
    {id base : MethodId} {m m' : MethodDef} (hClear : p.Clear q m) (hm : m.Persists m')
    (hUsed : ¬ q.Retired base) (h : p.matching? type id m = some base) :
    q.matching? type id m' = some base := by
  rw [matching?_eq] at h ⊢
  cases hType : p.type? type with
  | none => simp [hType] at h
  | some t =>
      obtain ⟨t', hType', hStep⟩ := hSteady.types type.index t hType
      have hType' : q.type? type = some t' := hType'
      obtain ⟨keep, added, hMethods, -, hTaken⟩ := hStep.methods
      rw [hType, Option.map_some, Option.bind_some, List.find?_eq_some_iff_append] at h
      obtain ⟨hMatch, before, after, hSplit, hFirst⟩ := h
      have hKept : keep base = true := by
        by_contra hOut
        exact hUsed (hTaken base (by simp [hSplit]) (by simpa using hOut))
      rw [hType', Option.map_some, Option.bind_some, List.find?_eq_some_iff_append]
      refine ⟨matches_later hGrows hm hUsed hMatch, before.filter keep,
        after.filter keep ++ added, ?_, fun a ha => ?_⟩
      · rw [hMethods, hSplit]
        simp [hKept]
      · have hNone := hFirst a (List.mem_filter.mp ha).1
        cases hLater : q.Matches id m' a with
        | false => rfl
        | true => simp [matches_of_later hGrows hClear hm hLater] at hNone

/-- A type without a match stays without one. -/
theorem Steady.matching?_none (hSteady : p.Steady l q) (hGrows : p.Grows q) {type : TypeId}
    {t : TypeDef} (hType : p.type? type = some t) {id : MethodId} {m m' : MethodDef}
    (hClear : p.Clear q m) (hm : m.Persists m') (h : p.matching? type id m = none) :
    q.matching? type id m' = none := by
  rw [matching?_eq] at h ⊢
  obtain ⟨t', hType', hStep⟩ := hSteady.types type.index t hType
  have hType' : q.type? type = some t' := hType'
  obtain ⟨keep, added, hMethods, hNew, -⟩ := hStep.methods
  rw [hType, Option.map_some, Option.bind_some, List.find?_eq_none] at h
  rw [hType', Option.map_some, Option.bind_some, List.find?_eq_none]
  intro a ha hLater
  have hMatch := matches_of_later hGrows hClear hm hLater
  rw [hMethods] at ha
  rcases List.mem_append.mp ha with ha | ha
  · exact h a (List.mem_filter.mp ha).1 hMatch
  · obtain ⟨hThere, -⟩ := Bool.and_eq_true_iff.mp hMatch
    obtain ⟨b, hMethod, -⟩ := (Option.any_eq_true ..).mp hThere
    have hOld : a.index < p.methods.length := (List.getElem?_eq_some_iff.mp hMethod).1
    exact absurd hOld (Nat.not_lt.mpr (hNew a ha))

/-- On each type, the match of one method in a later program is that of another one in the
earlier program, or what comes in its place. -/
structure Tracks (p q : Program) (id base : MethodId) (m : MethodDef) (id' base' : MethodId)
    (m' : MethodDef) : Prop where
  found : ∀ type, p.matching? type id m = some base → q.matching? type id' m' = some base'
  missed : ∀ type t, p.type? type = some t → p.matching? type id m = none →
    q.matching? type id' m' = none

/-- The match of a method that goes on matching the same does so on each type. -/
theorem Steady.tracks (hSteady : p.Steady l q) (hGrows : p.Grows q) {id base : MethodId}
    {m m' : MethodDef} (hClear : p.Clear q m) (hm : m.Persists m') (hUsed : ¬ q.Retired base) :
    Tracks p q id base m id base m' where
  found _ := hSteady.matching?_some hGrows hClear hm hUsed
  missed _ _ hType := hSteady.matching?_none hGrows hType hClear hm

/-- The nearest match is found where it was. -/
theorem Steady.nearestMatch? (hSteady : p.Steady l q) {id base id' base' : MethodId}
    {m m' : MethodDef} (hTracks : Tracks p q id base m id' base' m')
    {fuel fuel' : Nat} (hFuel : fuel ≤ fuel') {start : Option TypeId}
    (h : p.nearestMatch? id m fuel start = some base) :
    q.nearestMatch? id' m' fuel' start = some base' := by
  induction fuel generalizing fuel' start with
  | zero => simp [Program.nearestMatch?] at h
  | succ fuel ih =>
      obtain ⟨more, rfl⟩ : ∃ more, fuel' = more + 1 := ⟨fuel' - 1, by omega⟩
      cases start with
      | none => simp [Program.nearestMatch?] at h
      | some type =>
          rw [Program.nearestMatch?] at h ⊢
          cases hFound : p.matching? type id m with
          | some found =>
              simp only [hFound] at h
              obtain rfl := Option.some_inj.mp h
              simp only [hTracks.found type hFound]
          | none =>
              simp only [hFound] at h
              cases hType : p.type? type with
              | none =>
                  rw [hType] at h
                  cases fuel <;> simp [Program.nearestMatch?] at h
              | some t =>
                  obtain ⟨t', hType', hStep⟩ := hSteady.types type.index t hType
                  have hType' : q.type? type = some t' := hType'
                  have hBase : t'.baseType? = t.baseType? := by
                    unfold TypeDef.baseType?
                    rw [hStep.base]
                  simp only [hTracks.missed type t hType hFound]
                  rw [hType', Option.bind_some, hBase]
                  rw [hType, Option.bind_some] at h
                  exact ih (by omega) h

/-- Only methods in use take part in overriding. -/
theorem Overrides.used {id base : MethodId} (h : p.Overrides id base) :
    (∃ m, p.method? id = some m ∧ m.isRetired = false) ∧
      ∃ b, p.method? base = some b ∧ b.isRetired = false := by
  obtain ⟨m, hMethod, hUsed, -, hBase⟩ := h
  refine ⟨⟨m, hMethod, hUsed⟩, ?_⟩
  unfold basesOf implicitBase? at hBase
  simp only [mem_ascending, List.mem_append, List.mem_filter, Option.mem_toList,
    List.mem_filterMap] at hBase
  rcases hBase with (⟨-, hDeclared⟩ | hNearest) | ⟨type, -, hFound⟩
  · obtain ⟨b, hMethod', hUsed'⟩ := (Option.any_eq_true ..).mp hDeclared
    exact ⟨b, hMethod', by simpa using hUsed'⟩
  · split at hNearest
    · simp at hNearest
    · split at hNearest
      · simp at hNearest
      · exact mem_nearestMatch? hNearest
  · exact mem_matching? hFound

/-- What a method overrides by its signature is found where it was. -/
theorem Steady.implicitBase? (hSteady : p.Steady l q) (hGrows : p.Grows q)
    {id base id' base' : MethodId} {m m' : MethodDef}
    (hTracks : Tracks p q id base m id' base' m') (hOwner : m'.owner = m.owner)
    (hSlot : m'.flags.has .newSlot = m.flags.has .newSlot)
    (h : p.implicitBase? id m = some base) : q.implicitBase? id' m' = some base' := by
  unfold Program.implicitBase? at h ⊢
  cases hType : p.type? m.owner with
  | none => simp [hType] at h
  | some owner =>
      obtain ⟨owner', hType', hStep⟩ := hSteady.types m.owner.index owner hType
      have hType' : q.type? m.owner = some owner' := hType'
      obtain ⟨owner'', hType'', hPersists⟩ := hGrows.type hType
      obtain rfl : owner' = owner'' := Option.some_inj.mp (hType'.symm.trans hType'')
      have hInterface : owner'.isInterface = owner.isInterface := by
        unfold TypeDef.isInterface
        rw [hPersists.flags]
      have hBase : owner'.baseType? = owner.baseType? := by
        unfold TypeDef.baseType?
        rw [hStep.base]
      simp only [hType] at h
      rw [hOwner]
      simp only [hType', hInterface, hBase, hSlot]
      split at h
      · simp at h
      · rename_i hSlot
        rw [if_neg hSlot]
        exact hSteady.nearestMatch? hTracks (Nat.succ_le_succ hSteady.types.length_le) h

/-- What a method overrides, another method of its owner does so in a later program, or what
comes in its place. -/
theorem Steady.mem_basesOf (hSteady : p.Steady l q) (hGrows : p.Grows q)
    {id base id' base' : MethodId} {m m' : MethodDef}
    (hTracks : Tracks p q id base m id' base' m') (hOwner : m'.owner = m.owner)
    (hSlot : m'.flags.has .newSlot = m.flags.has .newSlot)
    (hDeclared : base ∈ m.overrides → base' ∈ m'.overrides)
    (hUsed : ∃ b, q.method? base' = some b ∧ b.isRetired = false)
    (h : base ∈ p.basesOf id m) : base' ∈ q.basesOf id' m' := by
  unfold basesOf at h ⊢
  simp only [mem_ascending, List.mem_append, List.mem_filter, Option.mem_toList,
    List.mem_filterMap] at h ⊢
  rcases h with (⟨hOverrides, -⟩ | hNearest) | ⟨type, hType, hFound⟩
  · obtain ⟨b, hMethod, hUsed⟩ := hUsed
    refine Or.inl (Or.inl ⟨hDeclared hOverrides, (Option.any_eq_true ..).mpr ⟨b, hMethod, ?_⟩⟩)
    simp [hUsed]
  · exact Or.inl (Or.inr (hSteady.implicitBase? hGrows hTracks hOwner hSlot hNearest))
  · refine Or.inr ⟨type, ?_, hTracks.found type hFound⟩
    rw [hOwner]
    exact hSteady.mem_interfacesOf hType

/-- A method goes on overriding another one while both are in use. -/
theorem Steady.overrides (hSteady : p.Steady l q) (hGrows : p.Grows q) {id base : MethodId}
    (h : p.Overrides id base) (hUsed : ¬ q.Retired id) (hUsed' : ¬ q.Retired base)
    (hMapped : ¬ l.mapped id) (hClear : ∀ m, p.method? id = some m → p.Clear q m) :
    q.Overrides id base := by
  have hInUse {id : MethodId} {m : MethodDef} (hMethod : q.method? id = some m)
      (hUsed : ¬ q.Retired id) : m.isRetired = false := by
    cases hRetired : m.isRetired with
    | false => rfl
    | true => exact (hUsed ⟨m, hMethod, hRetired⟩).elim
  obtain ⟨b, hMethodB, -⟩ := h.used.2
  obtain ⟨b', hMethodB', -⟩ := hGrows.method hMethodB
  obtain ⟨m, hMethod, -, hVirtual, hBase⟩ := h
  obtain ⟨m', hMethod', hm⟩ := hGrows.method hMethod
  obtain ⟨m'', hMethod'', hStep⟩ := hSteady.methods id m hMethod
  obtain rfl : m' = m'' := Option.some_inj.mp (hMethod'.symm.trans hMethod'')
  have hSame := hStep.declared.resolve_left hMapped
  refine ⟨m', hMethod', hInUse hMethod' hUsed, hm.isVirtual.trans hVirtual, ?_⟩
  exact hSteady.mem_basesOf hGrows (hSteady.tracks hGrows (hClear m hMethod) hm hUsed') hm.owner
    (hm.flags .newSlot rfl) (fun h => hSame.symm ▸ h) ⟨b', hMethodB', hInUse hMethodB' hUsed'⟩ hBase

theorem Steady.not_retired (hSteady : p.Steady l q) {id : MethodId} {m : MethodDef}
    (hMethod : p.method? id = some m) (hUsed : m.isRetired = false) (hKept : ¬ l.dropped id) :
    ¬ q.Retired id := by
  rintro ⟨m₁, hMethod₁, hRetired⟩
  obtain ⟨m₂, hMethod₂, hStep⟩ := hSteady.methods id m hMethod
  obtain rfl : m₁ = m₂ := Option.some_inj.mp (hMethod₁.symm.trans hMethod₂)
  rcases hStep.used hRetired with hBefore | hDropped
  · simp [hUsed] at hBefore
  · exact hKept hDropped

/-- A family whose methods stay in use, and whose overriding nothing new takes part in,
stays together. -/
theorem Steady.related (hSteady : p.Steady l q) (hGrows : p.Grows q) {a b : MethodId}
    (hKept : ∀ id, ReflTransGen p.Related a id → ¬ l.dropped id ∧ ¬ l.mapped id ∧
      ∀ m, p.method? id = some m → p.Clear q m) (h : ReflTransGen p.Related a b) :
    ReflTransGen q.Related a b := by
  have hOverrides {id base : MethodId} (hPath : ReflTransGen p.Related a id)
      (hPath' : ReflTransGen p.Related a base) (h : p.Overrides id base) : q.Overrides id base := by
    obtain ⟨hKept₁, hMapped, hClear⟩ := hKept id hPath
    obtain ⟨⟨m, hMethod, hUsed⟩, b, hMethod', hUsed'⟩ := h.used
    exact hSteady.overrides hGrows h (hSteady.not_retired hMethod hUsed hKept₁)
      (hSteady.not_retired hMethod' hUsed' (hKept base hPath').1) hMapped hClear
  induction h with
  | refl => exact .refl
  | tail hPath hStep ih =>
      refine ih.tail (hStep.imp (fun h => ?_) fun h => ?_)
      · exact hOverrides hPath (hPath.tail hStep) h
      · exact hOverrides (hPath.tail hStep) hPath h

end Program

namespace OverrideGraph

variable {p : Program} {a b : MethodId}

theorem mem_overridden {g : OverrideGraph} : a ∈ g.overridden b ↔ (a, b) ∈ g.edges := by
  unfold overridden
  simp [mem_ascending]

theorem mem_neighbours_build :
    b ∈ (build p).overriders a ++ (build p).overridden a ↔ p.Related a b := by
  rw [List.mem_append, mem_overriders_build, mem_overridden, ← mem_overriders,
    mem_overriders_build]
  exact Or.comm

/-- What overrides or is overridden takes part in overriding. -/
theorem contains_build (h : p.Related a b) : (build p).contains a = true := by
  have hMem : a ∈ (build p).members := by
    unfold build
    rw [mem_ascending, List.mem_append]
    rcases h with ⟨m, hMethod, hUsed, hVirtual, -⟩ | h
    · exact Or.inl (List.mem_map.mpr ⟨(a, m), mem_virtuals.mpr ⟨hMethod, hUsed, hVirtual⟩, rfl⟩)
    · have hEdge := mem_overriders.mp (mem_overriders_build.mpr h)
      exact Or.inr (List.mem_map.mpr ⟨(a, b), hEdge, rfl⟩)
  simpa [contains] using hMem

/-- Each edge allows one step in either direction. -/
theorem length_neighbours_le (g : OverrideGraph) (a : MethodId) :
    (g.overriders a ++ g.overridden a).length
      ≤ allowance ((g.edges.map (·.1) ++ g.edges.map (·.2)).map fun b => (b, 1)) a := by
  rw [allowance_map_one, List.length_append, List.countP_append, List.countP_map, List.countP_map]
  refine Nat.add_le_add ?_ ?_
  · refine Nat.le_trans (length_ascending_le _) ?_
    rw [List.length_map, ← List.countP_eq_length_filter]
    exact Nat.le_of_eq (List.countP_congr (by simp))
  · refine Nat.le_trans (length_ascending_le _) ?_
    rw [List.length_map, ← List.countP_eq_length_filter]
    exact Nat.le_of_eq (List.countP_congr (by simp))

/-- The family of a method is what it is related to over any number of steps. -/
theorem mem_family_build : b ∈ (build p).family a ↔ ReflTransGen p.Related a b := by
  have hStep (a b : MethodId) : b ∈ (build p).overriders a ++ (build p).overridden a →
      p.Related a b := mem_neighbours_build.mp
  unfold family
  rw [mem_ascending]
  constructor
  · intro h
    obtain ⟨first, hFirst, hPath⟩ := reach_within h
    obtain rfl := List.mem_singleton.mp hFirst
    exact ReflTransGen.mono hStep _ _ hPath
  · intro hPath
    refine mem_reach (length_neighbours_le (build p)) ?_ (List.mem_singleton_self a)
      (ReflTransGen.mono (fun _ _ => mem_neighbours_build.mpr) _ _ hPath)
    have hSum : ((((build p).edges.map (·.1) ++ (build p).edges.map (·.2)).map
        fun b => (b, 1)).map (·.2)).sum = 2 * (build p).edges.length := by
      simp [Function.comp_def]
      omega
    rw [hSum, List.length_singleton, bound]
    omega

end OverrideGraph

end ContextBinding
