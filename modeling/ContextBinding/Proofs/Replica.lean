import ContextBinding.Proofs.Lockstep

/-! What stands in for a method that is given the root. Unless it was there before, stands in
for another method as well or is bound in turn, it is a copy on the type of the method, of
its shape but for the new parameter. It stays in use, and it overrides what stands in for the
methods that the original was declared to override. -/

namespace ContextBinding

open Relation

/-- A method has the shape of another one on its type, with the root ahead of the
parameters. -/
structure MethodDef.Widens (root : TypeId) (m m' : MethodDef) : Prop where
  owner : m'.owner = m.owner
  params : m'.paramTypes = .named root :: m.paramTypes
  returnType : m'.returnType = m.returnType
  flags : ∀ flag, flag.isMark = false → m'.flags.has flag = m.flags.has flag

namespace MethodDef.Widens

variable {root : TypeId} {m m' n n' : MethodDef}

theorem later (h : m.Widens root m') (hm' : m'.Persists n') : m.Widens root n' where
  owner := hm'.owner.trans h.owner
  params := by
    unfold paramTypes
    rw [hm'.params]
    exact h.params
  returnType := hm'.returnType.trans h.returnType
  flags flag hFlag := (hm'.flags flag hFlag).trans (h.flags flag hFlag)

theorem earlier (h : n.Widens root m') (hm : m.Persists n) : m.Widens root m' where
  owner := h.owner.trans hm.owner
  params := by
    rw [h.params]
    unfold paramTypes
    rw [hm.params]
  returnType := h.returnType.trans hm.returnType
  flags flag hFlag := (h.flags flag hFlag).trans (hm.flags flag hFlag)

theorem isVirtual (h : m.Widens root m') : m'.isVirtual = m.isVirtual := h.flags .virtual rfl

/-- Where the names are the same, methods of one signature stay so with the root. -/
theorem sameSignature (h : m.Widens root m') (h' : n.Widens root n') (hNames : n'.name = m'.name)
    (hSame : n.sameSignature m = true) : n'.sameSignature m' = true := by
  unfold MethodDef.sameSignature at hSame ⊢
  rw [h.params, h'.params, h.returnType, h'.returnType, hNames]
  simp only [Bool.and_eq_true, beq_iff_eq, beq_self_eq_true] at hSame ⊢
  simp [hSame]

/-- A copy with a parameter ahead of the others widens what it was made of. -/
theorem of_copy (m : MethodDef) (root : TypeId) (name context : String) :
    let shape := MethodShape.leadingParam ⟨context, .named root⟩
    m.Widens root ⟨m.owner, name, shape.copyParams m, m.returnType,
      (shape.copyFlags m).insert .contextReplacement, m.overrides, shape.copyBody m⟩ where
  owner := rfl
  params := rfl
  returnType := rfl
  flags flag hFlag := by
    have hMark : (Flag.bit MethodFlag.contextReplacement == Flag.bit flag) = false := by
      cases flag <;> simp [MethodFlag.isMark] at hFlag <;> decide
    have hRetired : (Flag.bit MethodFlag.retired != Flag.bit flag) = true := by
      cases flag <;> simp [MethodFlag.isMark] at hFlag <;> decide
    change ((m.flags.erase .retired).insert .contextReplacement).has flag = _
    rw [FlagSet.has_insert, FlagSet.has_erase, hMark, hRetired, Bool.and_true, Bool.or_false]

end MethodDef.Widens

namespace Program

variable {p q : Program} {l : License}

/-- A method that is listed and in use stays so, unless it may go out of use. -/
theorem Steady.listed (hSteady : p.Steady l q) (hGrows : p.Grows q) {id : MethodId} {m : MethodDef}
    (hMethod : p.method? id = some m) (hUsed : m.isRetired = false) (hListed : p.Lists m.owner id)
    (hKept : ¬ l.dropped id) :
    ∃ m', q.method? id = some m' ∧ m.Persists m' ∧ m'.isRetired = false ∧ q.Lists m'.owner id ∧
      (l.mapped id ∨ m'.overrides = m.overrides) := by
  obtain ⟨m', hMethod', hStep⟩ := hSteady.methods id m hMethod
  have hm := hGrows.method_persists hMethod hMethod'
  have hUsed' : ¬ q.Retired id := hSteady.not_retired hMethod hUsed hKept
  refine ⟨m', hMethod', hm, ?_, ?_, hStep.declared⟩
  · cases hRetired : m'.isRetired with
    | false => rfl
    | true => exact (hUsed' ⟨m', hMethod', hRetired⟩).elim
  · obtain ⟨t, hType, hMem⟩ := hListed
    obtain ⟨t', hType', hSteps⟩ := hSteady.types m.owner.index t hType
    obtain ⟨keep, added, hMethods, -, hTaken⟩ := hSteps.methods
    have hStays : keep id = true := by
      by_contra hOut
      exact hUsed' (hTaken id hMem (by simpa using hOut))
    refine ⟨t', hm.owner ▸ hType', ?_⟩
    rw [hMethods]
    exact List.mem_append_left _ (List.mem_filter.mpr ⟨hMem, hStays⟩)

/-- What registration makes sure of: a type lists methods of its own, among them all that are
in use, and no two virtual ones in use of one signature. -/
structure Registered (p : Program) : Prop where
  owned : p.Owned
  complete : ∀ id ∈ p.methodIds, ∀ m ∈ p.method? id, m.isRetired = false →
    ∃ t ∈ p.type? m.owner, id ∈ t.methods
  distinct : ∀ id ∈ p.methodIds, ∀ m ∈ p.method? id, m.isRetired = false → m.isVirtual = true →
    ∀ t ∈ p.type? m.owner, ∀ other ∈ t.methods, p.Matches id m other = false

instance (p : Program) : Decidable p.Owned :=
  decidable_of_iff (∀ e ∈ p.types.zipIdx, ∀ id ∈ e.1.methods, ∃ m ∈ p.method? id, m.owner = ⟨e.2⟩) <| by
    constructor
    · rintro h type id ⟨t, hType, hMem⟩
      exact h (t, type.index) (List.mem_zipIdx_iff_getElem?.mpr hType) id hMem
    · rintro h ⟨t, i⟩ hAt id hMem
      exact h ⟨i⟩ id ⟨t, List.mem_zipIdx_iff_getElem?.mp hAt, hMem⟩

theorem Registered.lists (h : p.Registered) {id : MethodId} {m : MethodDef}
    (hMethod : p.method? id = some m) (hUsed : m.isRetired = false) : p.Lists m.owner id := by
  obtain ⟨t, hType, hMem⟩ := h.complete id (mem_methodIds hMethod) m hMethod hUsed
  exact ⟨t, hType, hMem⟩

/-- A copy that is found is listed with the owner it is looked for on. -/
theorem lists_of_findCopy? {owner : TypeId} {name : String} {params : List TypeRef} {static : Bool}
    {copy : MethodId} (h : p.findCopy? owner name params static = some copy) :
    p.Lists owner copy := by
  have hMem := List.mem_of_mem_head? h
  unfold methodsWhere at hMem
  split at hMem
  · rename_i t hType
    exact ⟨t, hType, (List.mem_filter.mp hMem).1⟩
  · exact (List.not_mem_nil hMem).elim

end Program

/-- What stands in for a method is not bound in turn, and stands in for no other method. -/
def BindingMap.Sole (m : BindingMap) (method : MethodId) (b : Binding) : Prop :=
  m.get? b.replacement = none ∧
    ∀ other c, m.get? other = some c → c.replacement = b.replacement → other = method

instance (m : BindingMap) (method : MethodId) (b : Binding) : Decidable (m.Sole method b) :=
  decidable_of_iff (m.get? b.replacement = none ∧ ∀ e ∈ m.table.entries, ∀ c ∈ m.get? e.1,
      c.replacement = b.replacement → e.1 = method)
    ⟨fun h => ⟨h.1, fun other c hGet => h.2 (other, c) (Table.mem_entries_of_get? hGet) c hGet⟩,
      fun h => ⟨h.1, fun e _ c hGet => h.2 e.1 c hGet⟩⟩

theorem BindingMap.Sole.earlier {m m' : BindingMap} {method : MethodId} {b : Binding}
    (h : m'.Sole method b) (hExtends : m.Extends m') : m.Sole method b :=
  ⟨hExtends.free h.1, fun other c hGet => h.2 other c (hExtends other c hGet)⟩

namespace Propagation

variable {p : Program} {s t : Propagation} {method : MethodId} {b : Binding}

theorem Advances.root (h : s.Advances t) : t.plan.root = s.plan.root := by
  have hRoot : t.plan.shape.root = s.plan.shape.root := congrArg ContextPlan.root h.plan
  exact hRoot

/-- What alone stands in for a method stays as it is. -/
theorem Progresses.sole (h : s.Progresses t) (hGet : s.bindings.get? method = some b)
    (hSole : t.bindings.Sole method b) {m : MethodDef}
    (hMethod : s.program.method? b.replacement = some m) (hUsed : m.isRetired = false)
    (hListed : s.program.Lists m.owner b.replacement) :
    ∃ m', t.program.method? b.replacement = some m' ∧ m.Persists m' ∧ m'.isRetired = false ∧
      t.program.Lists m'.owner b.replacement ∧ m'.overrides = m.overrides := by
  obtain ⟨m', hMethod', hm, hUsed', hListed', hSame⟩ :=
    h.steady.listed h.grows hMethod hUsed hListed fun ⟨_, c, hBound⟩ => by
      simp [hSole.1] at hBound
  refine ⟨m', hMethod', hm, hUsed', hListed', hSame.resolve_left ?_⟩
  rintro ⟨other, c, hGet', hFree, hStands⟩
  obtain rfl := hSole.2 other c hGet' hStands
  simp [hGet] at hFree

/-- A copy in use stands in for a method. It overrides what stands in for what the method is
declared to override, as far as that stands in for good. -/
def Replica (p : Program) (s : Propagation) (method : MethodId) (b : Binding) : Prop :=
  ∃ m m', p.method? method = some m ∧ s.program.method? b.replacement = some m' ∧
    m.Widens s.plan.root m' ∧ m'.isRetired = false ∧ s.program.Lists m'.owner b.replacement ∧
    (¬ s.bindings.StandsIn method → ∀ base ∈ m.overrides, p.Overrides method base →
      ∃ c, s.bindings.get? base = some c ∧
        (s.bindings.get? c.replacement = none → c.replacement ∈ m'.overrides))

theorem Replica.later (h : Replica p s method b) (hLater : s.Progresses t)
    (hGet : s.bindings.get? method = some b) (hSole : t.bindings.Sole method b) :
    Replica p t method b := by
  obtain ⟨m, m', hMethod, hCopy, hWidens, hUsed, hListed, hDeclared⟩ := h
  obtain ⟨m'', hCopy', hm, hUsed', hListed', hSame⟩ := hLater.sole hGet hSole hCopy hUsed hListed
  refine ⟨m, m'', hMethod, hCopy', ?_, hUsed', hListed', fun hGenuine base hBase hOverrides => ?_⟩
  · exact hLater.toAdvances.root ▸ hWidens.later hm
  · have hGenuine' : ¬ s.bindings.StandsIn method := fun hStands =>
      hGenuine (hLater.toAdvances.license_le.standing method hStands)
    obtain ⟨c, hBound, hMapped⟩ := hDeclared hGenuine' base hBase hOverrides
    refine ⟨c, hLater.bindings base c hBound, fun hFree => ?_⟩
    exact hSame ▸ hMapped (hLater.bindings.free hFree)

/-- How a method came to have what stands in for it: that was listed on the type of the
method before the method was bound, or it was made as a copy. -/
inductive Obtained (s t : Propagation) (method : MethodId) (m : MethodDef) (b : Binding) : Prop where
  | found (r : Propagation) (hBefore : s.Progresses r) (hFree : r.bindings.get? method = none)
      (hListed : r.program.Lists m.owner b.replacement) (hBindings : r.bindings.Extends t.bindings)
      (hGrows : r.program.Grows t.program)
  | made (m' : MethodDef) (hCopy : t.program.method? b.replacement = some m')
      (hWidens : m.Widens s.plan.root m')
      (hKept : t.bindings.Sole method b → m'.isRetired = false ∧
        t.program.Lists m'.owner b.replacement ∧
        (¬ t.bindings.StandsIn method → m'.overrides = m.overrides))

/-- What was obtained after a step was obtained over it, too. -/
theorem Obtained.before {r : Propagation} {m n : MethodDef} (h : Obtained r t method n b)
    (hBefore : s.Progresses r) (hLater : r.Progresses t)
    (hMethod : s.program.method? method = some m) (hMethod' : r.program.method? method = some n) :
    Obtained s t method m b := by
  have hm := hBefore.grows.method_persists hMethod hMethod'
  cases h with
  | found r' hBefore' hFree hListed hBindings hGrows =>
      exact .found r' (hBefore.trans hBefore') hFree (hm.owner ▸ hListed) hBindings hGrows
  | made m' hCopy hWidens hKept =>
      refine .made m' hCopy (hBefore.toAdvances.root ▸ hWidens.earlier hm) fun hSole => ?_
      obtain ⟨hUsed, hListed, hSame⟩ := hKept hSole
      refine ⟨hUsed, hListed, fun hGenuine => (hSame hGenuine).trans ?_⟩
      obtain ⟨n', hMethod'', hStep⟩ := hBefore.steady.methods method m hMethod
      obtain rfl : n = n' := Option.some_inj.mp (hMethod'.symm.trans hMethod'')
      refine hStep.declared.resolve_left ?_
      rintro ⟨other, c, hGet, -, hStands⟩
      exact hGenuine ⟨other, c, hLater.bindings other c hGet, hStands⟩

end Propagation

namespace Propagate

open Propagation

variable {p : Program} {s t : Propagation} {method : MethodId} {b : Binding}

/-- A method that is given the root takes what was listed on its type, or a copy. -/
theorem addParameterTo_obtained {made : Option (MethodId × MethodId)} {m : MethodDef}
    (h : addParameterTo method s = .ok made t) (hKeyed : s.closures.Keyed)
    (hMethod : s.program.method? method = some m) (hFree : s.bindings.get? method = none)
    (hGet : t.bindings.get? method = some b) :
    made = some (method, b.replacement) ∧ Obtained s t method m b := by
  have hProgresses := (addParameterTo_binds h).1.progressed hKeyed
  rcases addParameterTo_ok h with ⟨-, rfl, c, hBound⟩ |
    ⟨m₁, replacement, r, rfl, -, hMethod₁, hStands, hBind⟩
  · simp [hFree] at hBound
  · obtain rfl : m = m₁ := Option.some_inj.mp (hMethod.symm.trans hMethod₁)
    obtain rfl : b = ⟨method, replacement, .addedParameter⟩ :=
      Option.some_inj.mp (hGet.symm.trans (bindMethod_bound hBind))
    refine ⟨rfl, ?_⟩
    rcases hStands with ⟨rfl, hFound⟩ | hCopy
    · exact .found s (.refl hKeyed) hFree (Program.lists_of_findCopy? hFound) hProgresses.bindings
        hProgresses.grows
    · obtain ⟨m₂, hSource, rfl, -, -, hMethods, hListed, -⟩ := makeCopy_ok hCopy
      obtain rfl : m = m₂ := Option.some_inj.mp (hMethod.symm.trans hSource)
      obtain ⟨bindings, -, rfl⟩ := bindMethod_ok hBind
      have hLast := (congrArg (fun methods => methods[s.program.methods.length]?) hMethods).trans
        List.getElem?_concat_length
      refine .made _ hLast (.of_copy m s.plan.root _ "context") fun _ => ⟨?_, hListed, fun _ => rfl⟩
      · have hMark : (Flag.bit MethodFlag.contextReplacement == Flag.bit MethodFlag.retired) = false :=
          by decide
        change ((m.flags.erase .retired).insert .contextReplacement).has .retired = false
        simp [FlagSet.has_insert, FlagSet.has_erase, hMark]

/-- So do all methods of a group, which reports what they took. -/
theorem addAll_obtained {group : List MethodId} {made : List (Option (MethodId × MethodId))}
    {m : MethodDef} (h : group.mapM addParameterTo s = .ok made t) (hKeyed : s.closures.Keyed)
    (hMethod : s.program.method? method = some m) (hFree : s.bindings.get? method = none)
    (hGet : t.bindings.get? method = some b) :
    (method, b.replacement) ∈ made.filterMap id ∧ Obtained s t method m b := by
  induction group generalizing s made m with
  | nil =>
      obtain ⟨-, rfl⟩ := Step.pure_ok.mp h
      simp [hFree] at hGet
  | cons first group ih =>
      obtain ⟨made₁, s₁, rest, hFirst, hRest, rfl⟩ := Step.mapM_cons_ok.mp h
      have hOne := (addParameterTo_binds hFirst).1
      have hBefore := hOne.progressed hKeyed
      have hLater := (bindAll_binds (f := addParameterTo) addParameterTo_binds hRest).1.progressed
        hBefore.keyed
      rw [List.filterMap_cons]
      cases hBound : s₁.bindings.get? method with
      | none =>
          obtain ⟨m₁, hMethod₁, -⟩ := hBefore.grows.method hMethod
          obtain ⟨hMem, hObtained⟩ := ih hRest hBefore.keyed hMethod₁ hBound
          refine ⟨?_, hObtained.before hBefore hLater hMethod hMethod₁⟩
          cases made₁ with
          | none => exact hMem
          | some e => exact List.mem_cons_of_mem _ hMem
      | some c =>
          obtain rfl : b = c := Option.some_inj.mp (hGet.symm.trans (hLater.bindings _ _ hBound))
          obtain rfl : method = first := by
            rcases hOne.gains.new method b hBound with hOld | ⟨hMem, -⟩
            · simp [hFree] at hOld
            · exact List.mem_singleton.mp hMem
          obtain ⟨rfl, hObtained⟩ := addParameterTo_obtained hFirst hKeyed hMethod hFree hBound
          refine ⟨List.mem_cons_self .., ?_⟩
          cases hObtained with
          | found r hBefore' hFree' hListed hBindings hGrows =>
              exact .found r hBefore' hFree' hListed (IsTrans.trans _ _ _ hBindings hLater.bindings)
                (hGrows.trans hLater.grows)
          | made m' hCopy hWidens hKept =>
              obtain ⟨m'', hCopy', hm⟩ := hLater.grows.method hCopy
              refine .made m'' hCopy' (hWidens.later hm) fun hSole => ?_
              obtain ⟨hUsed, hListed, hSame⟩ := hKept (hSole.earlier hLater.bindings)
              obtain ⟨n, hCopy'', -, hUsed', hListed', hSame'⟩ :=
                hLater.sole hBound hSole hCopy hUsed hListed
              obtain rfl : m'' = n := Option.some_inj.mp (hCopy'.symm.trans hCopy'')
              refine ⟨hUsed', hListed', fun hGenuine => hSame'.trans (hSame fun hStands => ?_)⟩
              exact hGenuine (hLater.toAdvances.license_le.standing method hStands)

/-- What comes in the place of a method that is overridden. -/
def mappedTo (bound : List (MethodId × MethodId)) (bindings : BindingMap) (id : MethodId) :
    MethodId :=
  ((bound.lookup id).or (bindings.replacement? id)).getD id

theorem mapOverrides_ok {bound : List (MethodId × MethodId)} {replacement : MethodId} {u : Unit}
    (h : mapOverrides bound replacement s = .ok u t) :
    t.bindings = s.bindings ∧ ∀ id m, s.program.method? id = some m →
      ∃ m', t.program.method? id = some m' ∧ m'.overrides =
        if id = replacement then m.overrides.map (mappedTo bound s.bindings) else m.overrides := by
  unfold mapOverrides at h
  obtain ⟨m₀, _, hModel, h⟩ := Step.bind_ok.mp h
  obtain ⟨hMethod₀, rfl⟩ := model_ok.mp hModel
  have hMethod₀ := Program.methodDef_ok.mp hMethod₀
  obtain ⟨_, _, hGet, h⟩ := Step.bind_ok.mp h
  obtain ⟨rfl, rfl⟩ := Step.get_ok.mp hGet
  split at h
  · obtain ⟨p, hEdit, rfl⟩ := edit_ok.mp h
    obtain ⟨-, rfl⟩ := Program.modifyMethod_ok hEdit
    refine ⟨rfl, fun id m hMethod => ?_⟩
    refine ⟨_, (Program.method?_modify s.program _ replacement id).trans (congrArg _ hMethod), ?_⟩
    dsimp only
    by_cases hSame : id = replacement
    · subst hSame
      obtain rfl : m = m₀ := Option.some_inj.mp (hMethod.symm.trans hMethod₀)
      rw [if_pos rfl, if_pos rfl]
      rfl
    · rw [if_neg hSame, if_neg (Ne.symm hSame)]
  · rename_i hSame
    obtain ⟨-, rfl⟩ := Step.pure_ok.mp h
    refine ⟨rfl, fun id m hMethod => ⟨m, hMethod, ?_⟩⟩
    split
    · rename_i hId
      subst hId
      obtain rfl : m = m₀ := Option.some_inj.mp (hMethod.symm.trans hMethod₀)
      exact (not_not.mp hSame).symm
    · rfl

/-- A replacement of a group overrides what comes in the place of a method that the original
overrode, if nothing else comes in the place of that. -/
theorem mapAll_overrides {bound : List (MethodId × MethodId)} {u : Unit} {base target : MethodId}
    (h : bound.forM (fun e => mapOverrides bound e.2) s = .ok u t)
    (hBase : mappedTo bound s.bindings base = target)
    (hTarget : mappedTo bound s.bindings target = target) {e : MethodId × MethodId} (he : e ∈ bound)
    {m : MethodDef} (hMethod : s.program.method? e.2 = some m) (hDeclared : base ∈ m.overrides) :
    ∃ m', t.program.method? e.2 = some m' ∧ target ∈ m'.overrides := by
  -- a method that overrides `base` goes on doing so, or overrides `target`, which then stays
  let R (s' t' : Propagation) : Prop := s'.bindings = s.bindings → t'.bindings = s.bindings ∧
    ∀ id m, s'.program.method? id = some m → ∃ m', t'.program.method? id = some m' ∧
      (target ∈ m.overrides → target ∈ m'.overrides) ∧
      (base ∈ m.overrides → base ∈ m'.overrides ∨ target ∈ m'.overrides)
  have : IsPreorder Propagation R :=
    { refl := fun s' hSame => ⟨hSame, fun id m hMethod => ⟨m, hMethod, fun h => h, Or.inl⟩⟩
      trans := fun s' t' u' h h' hSame => by
        obtain ⟨hSame', hKept⟩ := h hSame
        obtain ⟨hSame'', hKept'⟩ := h' hSame'
        refine ⟨hSame'', fun id m hMethod => ?_⟩
        obtain ⟨m', hMethod', hStays, hGoes⟩ := hKept id m hMethod
        obtain ⟨m'', hMethod'', hStays', hGoes'⟩ := hKept' id m' hMethod'
        exact ⟨m'', hMethod'', fun h => hStays' (hStays h),
          fun h => (hGoes h).elim hGoes' fun h => Or.inr (hStays' h)⟩ }
  have hMapped {l : List MethodId} {id : MethodId} (hMem : id ∈ l)
      (hId : mappedTo bound s.bindings id = target) :
      target ∈ l.map (mappedTo bound s.bindings) := List.mem_map.mpr ⟨id, hMem, hId⟩
  have hStep (e : MethodId × MethodId) : Keeps R (mapOverrides bound e.2) := by
    intro s' _ t' hRun hSame
    obtain ⟨hSame', hKept⟩ := mapOverrides_ok hRun
    refine ⟨hSame'.trans hSame, fun id m hMethod => ?_⟩
    obtain ⟨m', hMethod', hOverrides⟩ := hKept id m hMethod
    rw [hSame] at hOverrides
    refine ⟨m', hMethod', ?_, ?_⟩
    · rw [hOverrides]
      split
      · exact fun h => hMapped h hTarget
      · exact fun h => h
    · rw [hOverrides]
      split
      · exact fun h => Or.inr (hMapped h hBase)
      · exact Or.inl
  obtain ⟨v, w, hBefore, hRun, hAfter⟩ := Keeps.forM_mem_ok (fun e _ => hStep e) h he
  obtain ⟨hSame, hKept⟩ := hBefore rfl
  obtain ⟨m₁, hMethod₁, -, hGoes⟩ := hKept e.2 m hMethod
  obtain ⟨hSame', hMaps⟩ := mapOverrides_ok hRun
  obtain ⟨m₂, hMethod₂, hOverrides⟩ := hMaps e.2 m₁ hMethod₁
  rw [hSame, if_pos rfl] at hOverrides
  obtain ⟨-, hKept'⟩ := hAfter (hSame'.trans hSame)
  obtain ⟨m₃, hMethod₃, hStays, -⟩ := hKept' e.2 m₂ hMethod₂
  refine ⟨m₃, hMethod₃, hStays ?_⟩
  rw [hOverrides]
  exact (hGoes hDeclared).elim (fun h => hMapped h hBase) fun h => hMapped h hTarget

/-- Where all that a group reports is bound, what comes in the place of a bound method is
what stands in for it, and nothing comes in the place of another one. -/
theorem mappedTo_eq {bound : List (MethodId × MethodId)} (hReports : Reports s bound t) :
    (∀ id c, t.bindings.get? id = some c → mappedTo bound t.bindings id = c.replacement) ∧
      ∀ id, t.bindings.get? id = none → mappedTo bound t.bindings id = id := by
  have hLookup {id new : MethodId} (h : bound.lookup id = some new) :
      ∃ c, t.bindings.get? id = some c ∧ c.replacement = new := by
    obtain ⟨before, after, rfl, -⟩ := List.lookup_eq_some_iff.mp h
    obtain ⟨-, hBound⟩ := hReports (id, new) (by simp)
    exact hBound
  refine ⟨fun id c hGet => ?_, fun id hFree => ?_⟩
  · unfold mappedTo
    cases hFound : bound.lookup id with
    | none => simp [BindingMap.replacement?, hGet]
    | some new =>
        obtain ⟨c', hGet', rfl⟩ := hLookup hFound
        obtain rfl : c = c' := Option.some_inj.mp (hGet.symm.trans hGet')
        rfl
  · unfold mappedTo
    cases hFound : bound.lookup id with
    | none => simp [BindingMap.replacement?, hFree]
    | some new =>
        obtain ⟨c, hGet, -⟩ := hLookup hFound
        simp [hFree] at hGet

/-- A method and what it is declared to override come to be bound together, unless what it
overrides was bound before. -/
theorem base_mem_group (hUnderway : Underway p s) {first : MethodId} {group : List MethodId}
    (hGroup : bindingGroup first true s = .ok group s) (hIn : method ∈ group) {base : MethodId}
    {m : MethodDef} (hMethod : p.method? method = some m) (hDeclared : base ∈ m.overrides)
    (hOverrides : p.Overrides method base) (hFree : s.bindings.get? method = none)
    (hFree' : s.bindings.get? base = none) (hGenuine : ¬ s.bindings.StandsIn method) :
    base ∈ group := by
  obtain ⟨q, hBuilt, hGrows, hSteady, hLater⟩ := hUnderway.overrides
  have hKept {id : MethodId} {m : MethodDef} (hMethod : p.method? id = some m)
      (hUsed : m.isRetired = false) (hFree : s.bindings.get? id = none) :
      ∃ m', q.method? id = some m' ∧ m.Persists m' ∧ m'.isRetired = false := by
    obtain ⟨m', hMethod', hm⟩ := hGrows.method hMethod
    refine ⟨m', hMethod', hm, ?_⟩
    cases hRetired : m'.isRetired with
    | false => rfl
    | true =>
        refine (hSteady.not_retired hMethod hUsed ?_ ⟨m', hMethod', hRetired⟩).elim
        rintro ⟨-, c, hGet⟩
        simp [hFree] at hGet
  obtain ⟨-, b, hBase, hBaseUsed⟩ := hOverrides.used
  obtain ⟨m₀, hMethod₀, hUsed, hVirtual, -⟩ := hOverrides
  obtain rfl : m = m₀ := Option.some_inj.mp (hMethod.symm.trans hMethod₀)
  obtain ⟨m', hMethod', hm, hUsed'⟩ := hKept hMethod hUsed hFree
  obtain ⟨b', hBase', -, hBaseUsed'⟩ := hKept hBase hBaseUsed hFree'
  obtain ⟨m'', hMethod'', hStep⟩ := hSteady.methods method m hMethod
  obtain rfl : m' = m'' := Option.some_inj.mp (hMethod'.symm.trans hMethod'')
  have hSame : m'.overrides = m.overrides := hStep.declared.resolve_left hGenuine
  have hStays : q.Overrides method base := by
    refine ⟨m', hMethod', hUsed', hm.isVirtual.trans hVirtual, ?_⟩
    unfold Program.basesOf
    simp only [mem_ascending, List.mem_append, List.mem_filter]
    refine Or.inl (Or.inl ⟨hSame.symm ▸ hDeclared, (Option.any_eq_true ..).mpr ⟨b', hBase', ?_⟩⟩)
    simp [hBaseUsed']
  refine (bindingGroup_closed hBuilt hLater.methods.length_le hGroup hIn).2 rfl base ?_
  exact .single (Or.inl hStays)

/-- What comes to stand in for a method that is given the root is on the same type, and a
replica of the method unless it was there before or is shared. -/
theorem AddsParameter.replica (hRegistered : p.Registered) (hUnderway : Underway p s)
    {first : MethodId} {group : List MethodId} (hGroup : bindingGroup first true s = .ok group s)
    (h : AddsParameter group s t) {m : MethodDef} (hMethod : p.method? method = some m)
    (hUsed : m.isRetired = false) (hFree : s.bindings.get? method = none)
    (hGet : t.bindings.get? method = some b) :
    (∃ n n', t.program.method? method = some n ∧ t.program.method? b.replacement = some n' ∧
      n'.owner = n.owner) ∧
    (p.methods.length ≤ b.replacement.index → t.bindings.Sole method b → Replica p t method b) := by
  have hBinds := h.binds
  have hProgresses := hBinds.progressed hUnderway.keyed
  obtain ⟨made, u, v, hMade, hOverrides, hLater, hSame⟩ := h.steps
  obtain ⟨hBindsAll, hReports⟩ := bindAll_binds (f := addParameterTo) addParameterTo_binds hMade
  have hBefore := hBindsAll.progressed hUnderway.keyed
  have hMapped : Changed (fun _ => False) u v :=
    Keeps.forM (fun _ _ => changes_mapOverrides) hOverrides
  have hAdvances := hMapped.advanced hBefore.keyed
  have hAfter := hLater hAdvances.keyed
  have hSteady : u.program.Steady (s.between u) v.program := by
    refine (Keeps.forM (R := Leaves u.options (s.between u)) (fun e he => ?_) hOverrides rfl).2
    obtain ⟨hFree, c, hBound, hStands⟩ := hReports e he
    exact leaves_mapOverrides ⟨e.1, c, hBound, hFree, hStands⟩
  have hBindings : t.bindings = u.bindings := Eq.trans hSame hMapped.bindings
  have hGetU : u.bindings.get? method = some b := hBindings ▸ hGet
  obtain ⟨n, hMethodS, hn⟩ := hUnderway.grows.method hMethod
  obtain ⟨n', hMethodT, hn'⟩ := hProgresses.grows.method hMethodS
  obtain ⟨hMem, hObtained⟩ := addAll_obtained hMade hUnderway.keyed hMethodS hFree hGetU
  have hGrowsU : u.program.Grows t.program := hAdvances.grows.trans hAfter.grows
  cases hObtained with
  | found r hBeforeR hFreeR hListed hBindingsR hGrows =>
      have hUnderwayR := hUnderway.later hBeforeR
      obtain ⟨x, hX, hOwner⟩ := hUnderwayR.grows.owned hRegistered.owned _ _ hListed
      refine ⟨?_, fun hNew hSole => ?_⟩
      · obtain ⟨x', hX', hx⟩ := (hGrows.trans hGrowsU).method hX
        exact ⟨n', x', hMethodT, hX', hx.owner.trans (hOwner.trans hn'.owner.symm)⟩
      · rcases hUnderwayR.brings _ x hX with ⟨m₀, hOld⟩ | hOwned | ⟨other, c, hGetR, hStands⟩
        · exact absurd (List.getElem?_eq_some_iff.mp hOld).1 (Nat.not_lt.mpr hNew)
        · obtain ⟨type, hType, -⟩ := hRegistered.lists hMethod hUsed
          have hThere := (List.getElem?_eq_some_iff.mp hType).1
          have hFresh := hUnderwayR.fresh _ hOwned
          rw [hOwner, hn.owner] at hFresh
          exact absurd hThere (Nat.not_lt.mpr hFresh)
        · obtain rfl := hSole.2 other c (hBindings ▸ hBindingsR other c hGetR) hStands
          simp [hFreeR] at hGetR
  | made m' hCopy hWidens hKept =>
      refine ⟨?_, fun hNew hSole => ?_⟩
      · obtain ⟨m'', hCopyT, hm⟩ := hGrowsU.method hCopy
        exact ⟨n', m'', hMethodT, hCopyT, hm.owner.trans (hWidens.owner.trans hn'.owner.symm)⟩
      · have hSoleU : u.bindings.Sole method b := hBindings ▸ hSole
        obtain ⟨hUsedU, hListedU, hDeclares⟩ := hKept hSoleU
        obtain ⟨m₁, hCopyV, hm₁, hUsedV, hListedV, -⟩ :=
          hSteady.listed hAdvances.grows hCopy hUsedU hListedU fun ⟨_, c, hBound⟩ => by
            simp [hSoleU.1] at hBound
        obtain ⟨m₂, hCopyT, hm₂, hUsedT, hListedT, hSameT⟩ := hAfter.sole (hMapped.bindings ▸ hGetU)
          hSole hCopyV hUsedV hListedV
        have hRoot := hProgresses.toAdvances.root
        refine ⟨m, m₂, hMethod, hCopyT, hRoot ▸ ((hWidens.earlier hn).later hm₁).later hm₂, hUsedT,
          hListedT, fun hGenuine base hBase hOverridesBase => ?_⟩
        have hGenuineS : ¬ s.bindings.StandsIn method := fun hStands =>
          hGenuine (hProgresses.toAdvances.license_le.standing method hStands)
        obtain ⟨c, hBound⟩ : ∃ c, t.bindings.get? base = some c := by
          cases hFreeBase : s.bindings.get? base with
          | some c => exact ⟨c, hProgresses.bindings base c hFreeBase⟩
          | none =>
              have hIn : method ∈ group := by
                rcases hBinds.gains.new method b hGet with hOld | ⟨hIn, -⟩
                · simp [hFree] at hOld
                · exact hIn
              exact hBinds.bound base (base_mem_group hUnderway hGroup hIn hMethod hBase
                hOverridesBase hFree hFreeBase hGenuineS)
        obtain ⟨n'', hMethodS', hStep⟩ := hUnderway.steady.methods method m hMethod
        obtain rfl : n = n'' := Option.some_inj.mp (hMethodS.symm.trans hMethodS')
        have hDeclaredS : n.overrides = m.overrides := hStep.declared.resolve_left hGenuineS
        have hDeclaredU : m'.overrides = m.overrides :=
          (hDeclares fun hStands => hGenuine (hBindings ▸ hStands)).trans hDeclaredS
        refine ⟨c, hBound, fun hFreeC => ?_⟩
        obtain ⟨hMaps, hFixes⟩ := mappedTo_eq hReports
        obtain ⟨m₃, hCopyV', hTarget⟩ := mapAll_overrides hOverrides
          (hMaps base c (hBindings ▸ hBound)) (hFixes c.replacement (hBindings ▸ hFreeC)) hMem hCopy
          (hDeclaredU.symm ▸ hBase)
        obtain rfl : m₁ = m₃ := Option.some_inj.mp (hCopyV.symm.trans hCopyV')
        exact hSameT.symm ▸ hTarget

end Propagate

end ContextBinding
