import ContextBinding.Proofs.Dispatch
import ContextBinding.Proofs.Validation

/-! Which methods come to share what stands in for them. A copy is known again by its type, its
parameters and its name, be it one that an earlier run left or one that this run made for another
method. So two methods share a replacement only if copies of both belong in the same place and one of
them goes by a name that a copy of the other one can have. -/

namespace ContextBinding

namespace CopyName

/-- What can follow the name of a method in the name of a copy. -/
def IsEnding (ending : List Char) : Prop :=
  ending = [] ∨ ∃ digits, ending = suffix ++ digits ∧ ∀ c ∈ digits, '0' ≤ c ∧ c ≤ '9'

theorem suffix_eq : suffix = ['$', 'c', 'o', 'n', 't', 'e', 'x', 't'] := rfl

theorem behind?_eq_some {front cs rest : List Char} :
    behind? front cs = some rest ↔ cs = front ++ rest := by
  unfold behind?
  simp only [List.isPrefixOf_iff_prefix, Option.ite_none_right_eq_some, Option.some.injEq]
  constructor
  · rintro ⟨⟨tail, rfl⟩, rfl⟩
    rw [List.drop_left]
  · rintro rfl
    exact ⟨List.prefix_append .., List.drop_left⟩

theorem isCopyOf_iff {copy name : String} :
    isCopyOf copy name = true ↔ ∃ ending, copy.toList = name.toList ++ ending ∧ IsEnding ending := by
  unfold isCopyOf
  cases hRest : behind? name.toList copy.toList with
  | none =>
      refine iff_of_false (by simp) ?_
      rintro ⟨ending, hEnding, -⟩
      rw [behind?_eq_some.mpr hEnding] at hRest
      cases hRest
  | some rest =>
      have hRest := behind?_eq_some.mp hRest
      have hSame {ending : List Char} (h : copy.toList = name.toList ++ ending) : ending = rest :=
        List.append_cancel_left (h.symm.trans hRest)
      simp only [Bool.or_eq_true, List.isEmpty_iff]
      constructor
      · rintro (rfl | hDigits)
        · exact ⟨[], hRest, Or.inl rfl⟩
        · split at hDigits
          · cases hDigits
          · rename_i digits hBehind
            refine ⟨rest, hRest, Or.inr ⟨digits, behind?_eq_some.mp hBehind, ?_⟩⟩
            simpa using hDigits
      · rintro ⟨ending, hEnding, rfl | ⟨digits, rfl, hDigits⟩⟩
        · exact Or.inl (hSame hEnding).symm
        · obtain rfl := hSame hEnding
          rw [behind?_eq_some.mpr rfl]
          exact Or.inr (by simpa using hDigits)

/-- Every candidate can be the name of a copy. -/
theorem isCopyOf_candidate (name : String) (n : Nat) : isCopyOf (candidate name n) name = true := by
  refine isCopyOf_iff.mpr ?_
  match n with
  | 0 => exact ⟨[], by simp [candidate], Or.inl rfl⟩
  | 1 => exact ⟨suffix, by simp [candidate], Or.inr ⟨[], by simp, by simp⟩⟩
  | n + 2 =>
      refine ⟨suffix ++ Nat.toDigits 10 (n + 2), by simp [candidate, Nat.toList_repr],
        Or.inr ⟨_, rfl, fun c hDigit => ?_⟩⟩
      have hDigit := Nat.isDigit_of_mem_toDigits (by decide) (by decide) hDigit
      obtain ⟨hLow, hHigh⟩ := Bool.and_eq_true_iff.mp hDigit
      exact ⟨of_decide_eq_true hLow, of_decide_eq_true hHigh⟩

/-- A suffix stands at the front of an ending only, so that taking an ending off the end of one leaves
an ending. -/
theorem IsEnding.of_append {front rest : List Char} (h : IsEnding (front ++ rest))
    (hRest : IsEnding rest) : IsEnding front := by
  obtain rfl | ⟨digits, rfl, -⟩ := hRest
  · rwa [List.append_nil] at h
  · cases front with
    | nil => exact Or.inl rfl
    | cons c front =>
        obtain hNil | ⟨digits', hSame, hDigits'⟩ := h
        · simp at hNil
        · simp only [suffix_eq, List.cons_append, List.nil_append, List.cons.injEq] at hSame
          have hMark : '$' ∈ 'c' :: 'o' :: 'n' :: 't' :: 'e' :: 'x' :: 't' :: digits' :=
            hSame.2 ▸ by simp
          have hMark : '$' ∈ digits' := by simpa using hMark
          exact absurd (hDigits' _ hMark).1 (by decide)

/-- Of two methods that a copy can be of, one can be a copy of the other, by their names. -/
theorem isCopyOf_total {copy name name' : String} (h : isCopyOf copy name = true)
    (h' : isCopyOf copy name' = true) :
    isCopyOf name name' = true ∨ isCopyOf name' name = true := by
  obtain ⟨ending, hCopy, hEnding⟩ := isCopyOf_iff.mp h
  obtain ⟨ending', hCopy', hEnding'⟩ := isCopyOf_iff.mp h'
  obtain ⟨rest, hName', rfl⟩ | ⟨rest, hName, rfl⟩ :=
    List.append_eq_append_iff.mp (hCopy.symm.trans hCopy')
  · exact Or.inr (isCopyOf_iff.mpr ⟨rest, hName', hEnding.of_append hEnding'⟩)
  · exact Or.inl (isCopyOf_iff.mpr ⟨rest, hName, hEnding'.of_append hEnding⟩)

end CopyName

/-- Where a method belongs: its type, the types of its parameters and whether it is static. -/
abbrev Seat := TypeId × List TypeRef × Bool

def MethodDef.seat (m : MethodDef) : Seat := (m.owner, m.paramTypes, m.isStatic)

/-- Where what stands in for a method belongs. -/
def ContextPlan.seat (plan : ContextPlan) (m : MethodDef) : BindingMode → Seat
  | .instanceConverted context => ((plan.context context).generated, m.paramTypes, false)
  | _ => (m.owner, .named plan.root :: m.paramTypes, m.isStatic)

/-- Whether what stands in for one method could stand in for another one. -/
def ContextPlan.Alike (plan : ContextPlan) (m : MethodDef) (mode : BindingMode) (n : MethodDef)
    (mode' : BindingMode) : Prop :=
  plan.seat m mode = plan.seat n mode' ∧
    (CopyName.isCopyOf m.name n.name = true ∨ CopyName.isCopyOf n.name m.name = true)

instance (plan : ContextPlan) (m n : MethodDef) (mode mode' : BindingMode) :
    Decidable (plan.Alike m mode n mode') :=
  inferInstanceAs (Decidable (_ ∧ (_ ∨ _)))

theorem ContextPlan.seat_of_shape {plan plan' : ContextPlan} (hShape : plan'.shape = plan.shape)
    (m : MethodDef) (mode : BindingMode) : plan'.seat m mode = plan.seat m mode := by
  have hRoot : plan'.shape.root = plan.shape.root := congrArg ContextPlan.root hShape
  unfold seat
  split
  · rename_i context
    have hContext := congrArg ContextDescriptor.generated (ContextPlan.context_of_shape hShape context)
    exact congrArg (·, _, _) hContext
  · exact congrArg (fun root => (_, TypeRef.named root :: _, _)) hRoot

/-- Without replacements that contexts bring along none are given. -/
theorem ContextPlan.given_eq_nil {plan : ContextPlan}
    (hNone : ∀ c ∈ plan.contexts, c.replacementMethods = ∅) : plan.given = [] := by
  refine List.flatMap_eq_nil_iff.mpr fun e hEntry => ?_
  obtain ⟨⟨c, i⟩, hIndexed, rfl⟩ := List.mem_map.mp hEntry
  dsimp only
  rw [hNone c (List.mem_of_getElem? (List.mem_zipIdx_iff_getElem?.mp hIndexed))]
  split
  · rfl
  · rfl

/-- A context brings along what a method that moves there is bound to. -/
def ContextPlan.Brings (plan : ContextPlan) (b : Binding) : Prop :=
  ∃ context, b.mode = .instanceConverted context ∧
    b.replacement ∈ (plan.context context).replacementMethods.values

theorem ContextPlan.brings_of_given {plan : ContextPlan} {b : Binding} (h : b ∈ plan.given) :
    plan.Brings b := by
  obtain ⟨e, hEntry, hMem⟩ := List.mem_flatMap.mp h
  split at hMem
  · obtain ⟨pair, hPair, rfl⟩ := List.mem_map.mp hMem
    refine ⟨e.1, rfl, ?_⟩
    rw [ContextPlan.context, mem_entries.mp hEntry]
    exact Table.mem_values_iff.mpr ⟨pair.1, hPair⟩
  · exact (List.not_mem_nil hMem).elim

theorem ContextPlan.Brings.of_shape {plan plan' : ContextPlan} (hShape : plan'.shape = plan.shape)
    {b : Binding} (h : plan'.Brings b) : plan.Brings b := by
  obtain ⟨context, hMode, hMem⟩ := h
  have hMethods := congrArg ContextDescriptor.replacementMethods
    (ContextPlan.context_of_shape hShape context)
  dsimp only at hMethods
  exact ⟨context, hMode, hMethods ▸ hMem⟩

theorem MethodDef.Persists.seat {m m' : MethodDef} (h : m.Persists m') : m'.seat = m.seat := by
  unfold MethodDef.seat paramTypes
  rw [h.owner, h.params, h.isStatic]

theorem MethodDef.Persists.planned {m m' : MethodDef} (h : m.Persists m') (plan : ContextPlan)
    (mode : BindingMode) : plan.seat m' mode = plan.seat m mode := by
  unfold ContextPlan.seat paramTypes
  rw [h.owner, h.params, h.isStatic]

/-- A copy is static if the method is and no instance method is asked for. -/
theorem MethodShape.copyFlags_static (shape : MethodShape) (m : MethodDef) :
    (shape.copyFlags m).has .static = (m.isStatic && !shape.makeInstance) := by
  have hRetired : (Flag.bit MethodFlag.retired != Flag.bit MethodFlag.static) = true := by decide
  unfold copyFlags addsReceiver
  cases hMake : shape.makeInstance <;> cases hStatic : m.isStatic <;>
    simp_all [FlagSet.has_erase, MethodDef.isStatic]

namespace Program

variable {p q : Program} {owner : TypeId} {name : String} {params : List TypeRef}

theorem exists_copyName (p : Program) (owner : TypeId) (name : String) (params : List TypeRef) :
    ∃ n, p.copyName owner name params = CopyName.candidate name n := by
  suffices h : ∀ fuel n, ∃ k, p.freeNameFrom owner name params fuel n = CopyName.candidate name k from
    h _ _
  intro fuel
  induction fuel with
  | zero => exact fun n => ⟨n, rfl⟩
  | succ fuel ih =>
      intro n
      unfold freeNameFrom
      split
      · exact ih (n + 1)
      · exact ⟨n, rfl⟩

/-- A copy that is found has the place and a name that are looked for. -/
theorem findCopy?_eq_some {static : Bool} {copy : MethodId} (hOwned : p.Owned)
    (h : p.findCopy? owner name params static = some copy) :
    ∃ m, p.method? copy = some m ∧ m.isContextReplacement = true ∧
      m.seat = (owner, params, static) ∧ CopyName.isCopyOf m.name name = true := by
  obtain ⟨m, hMethod, rfl⟩ := hOwned owner copy (lists_of_findCopy? h)
  have hMem := List.mem_of_mem_head? h
  unfold methodsWhere at hMem
  split at hMem
  · have hMatch := (List.mem_filter.mp hMem).2
    rw [hMethod, Option.any_some] at hMatch
    simp only [Bool.and_eq_true, beq_iff_eq] at hMatch
    obtain ⟨⟨⟨hMark, hName⟩, rfl⟩, rfl⟩ := hMatch
    exact ⟨m, hMethod, hMark, rfl, hName⟩
  · exact (List.not_mem_nil hMem).elim

end Program

namespace Propagation

/-- What stands in for a method is marked for it and in its place, under a name that a copy of it can
have. -/
def Fits (plan : ContextPlan) (p : Program) (method : MethodId) (b : Binding) : Prop :=
  ∃ m m', p.method? method = some m ∧ p.method? b.replacement = some m' ∧
    m'.isContextReplacement = true ∧ m'.seat = plan.seat m b.mode ∧
      CopyName.isCopyOf m'.name m.name = true

/-- It is so for all methods that are bound, unless a context brings along what stands in for them,
and each binding is kept under its method. -/
structure Fitting (plan : ContextPlan) (s : Propagation) : Prop where
  fits : ∀ method b, s.bindings.get? method = some b →
    plan.Brings b ∨ Fits plan s.program method b
  keyed : ∀ b ∈ s.bindings.toList, s.bindings.get? b.method = some b

/-- Both methods are bound, and what stands in for one of them could stand in for the other one. -/
def Lookalikes (plan : ContextPlan) (s : Propagation) (method other : MethodId) : Prop :=
  ∃ b ∈ s.bindings.get? method, ∃ c ∈ s.bindings.get? other, ∃ m ∈ s.program.method? method,
    ∃ n ∈ s.program.method? other, plan.Alike m b.mode n c.mode

instance (plan : ContextPlan) (s : Propagation) (method other : MethodId) :
    Decidable (Lookalikes plan s method other) :=
  inferInstanceAs (Decidable (∃ b ∈ s.bindings.get? method, ∃ c ∈ s.bindings.get? other,
    ∃ m ∈ s.program.method? method, ∃ n ∈ s.program.method? other, plan.Alike m b.mode n c.mode))

variable {plan : ContextPlan} {p q : Program} {l : License} {method : MethodId} {b : Binding}
  {s t u : Propagation}

/-- A copy fits that is in place for what the method was when it was looked for. -/
theorem Fits.of_copy {m m' : MethodDef} (hMethod : p.method? method = some m)
    (hStands : q.method? b.replacement = some m') (hGrows : p.Grows q)
    (hMark : m'.isContextReplacement = true) (hSeat : m'.seat = plan.seat m b.mode)
    (hName : CopyName.isCopyOf m'.name m.name = true) : Fits plan q method b := by
  obtain ⟨n, hMethod', hm⟩ := hGrows.method hMethod
  exact ⟨n, m', hMethod', hStands, hMark, hSeat.trans (hm.planned plan b.mode).symm, hm.name ▸ hName⟩

theorem Fits.later (h : Fits plan p method b) (hGrows : p.Grows q) (hSteady : p.Steady l q) :
    Fits plan q method b := by
  obtain ⟨m, m', hMethod, hStands, hMark, hSeat, hName⟩ := h
  obtain ⟨n', hStands', hStep⟩ := hSteady.methods _ m' hStands
  have hm' := hGrows.method_persists hStands hStands'
  exact .of_copy hMethod hStands' hGrows (hStep.marked.trans hMark) (hm'.seat.trans hSeat)
    (hm'.name ▸ hName)

/-- Methods that share what stands in for them are alike. -/
theorem Fits.alike {other : MethodId} {c : Binding} (h : Fits plan p method b)
    (h' : Fits plan p other c) (hShared : b.replacement = c.replacement) :
    ∃ m n, p.method? method = some m ∧ p.method? other = some n ∧ plan.Alike m b.mode n c.mode := by
  obtain ⟨m, m', hMethod, hStands, -, hSeat, hName⟩ := h
  obtain ⟨n, n', hOther, hStands', -, hSeat', hName'⟩ := h'
  obtain rfl : m' = n' := Option.some_inj.mp (hStands.symm.trans (hShared ▸ hStands'))
  exact ⟨m, n, hMethod, hOther, hSeat.symm.trans hSeat', CopyName.isCopyOf_total hName hName'⟩

theorem Fitting.later (h : Fitting plan s) (hGrows : s.program.Grows t.program)
    (hSteady : s.program.Steady l t.program) (hSame : SameBindings s t) : Fitting plan t where
  fits method b hGet := by
    have hGet : s.bindings.get? method = some b := (congrArg (·.get? method) hSame).symm.trans hGet
    exact (h.fits method b hGet).imp_right fun hFits => hFits.later hGrows hSteady
  keyed := by
    have hKeyed := h.keyed
    rwa [← show t.bindings = s.bindings from hSame] at hKeyed

/-- A step leads on and, as long as the contexts are those of the plan, lets what stands in for
methods fit. -/
def Fitted (plan : ContextPlan) (s t : Propagation) : Prop :=
  s.closures.Keyed → s.program.Owned → s.plan.shape = plan.shape →
    s.Progresses t ∧ (Fitting plan s → Fitting plan t)

instance : IsPreorder Propagation (Fitted plan) where
  refl _ hKeyed _ _ := ⟨.refl hKeyed, id⟩
  trans _ _ _ h h' hKeyed hOwned hShape := by
    obtain ⟨hFirst, hFits⟩ := h hKeyed hOwned hShape
    obtain ⟨hSecond, hFits'⟩ := h' hFirst.keyed (hFirst.grows.owned hOwned)
      (hFirst.plan.trans hShape)
    exact ⟨hFirst.trans hSecond, hFits' ∘ hFits⟩

end Propagation

namespace Propagate

open Propagation

variable {plan : ContextPlan} {p : Program} {method : MethodId} {s t : Propagation}

/-- A copy has the place and a name that it was made for. -/
theorem makeCopy_seat {source copy : MethodId} {owner : TypeId} {name : String}
    {params : List TypeRef} {shape : MethodShape}
    (h : makeCopy source owner name params shape s = .ok copy t) :
    ∃ m m', s.program.method? source = some m ∧ t.program.method? copy = some m' ∧
      s.program.Grows t.program ∧ s.program.Steady .none t.program ∧
      m'.isContextReplacement = true ∧
      m'.seat = (owner, (shape.copyParams m).map (·.type), m.isStatic && !shape.makeInstance) ∧
      CopyName.isCopyOf m'.name name = true := by
  obtain ⟨m, hSource, rfl, hGrows, hSteady, hMethods, -, -⟩ := makeCopy_ok h
  have hLast := (congrArg (fun methods => methods[s.program.methods.length]?) hMethods).trans
    List.getElem?_concat_length
  refine ⟨m, _, hSource, hLast, hGrows, hSteady, ?_, ?_, ?_⟩
  · simp [MethodDef.isContextReplacement, FlagSet.has_insert]
  · have hMark : (Flag.bit MethodFlag.contextReplacement == Flag.bit MethodFlag.static) = false := by
      decide
    have hStatic : ((shape.copyFlags m).insert .contextReplacement).has .static
        = (m.isStatic && !shape.makeInstance) := by
      rw [FlagSet.has_insert, hMark, Bool.or_false, shape.copyFlags_static]
    exact congrArg (owner, _, ·) hStatic
  · obtain ⟨n, hName⟩ := s.program.exists_copyName owner name params
    exact hName ▸ CopyName.isCopyOf_candidate name n

/-- Binding a method to what fits lets everything fit. -/
theorem bindMethod_fits {b : Binding} {u : Unit} {r : Propagation} (h : bindMethod b r = .ok u t)
    (hFits : plan.Brings b ∨ Fits plan r.program b.method b) (hFitting : Fitting plan r) :
    Fitting plan t := by
  obtain ⟨bindings, hBind, rfl⟩ := bindMethod_ok h
  obtain ⟨hKept, hBound, hNew⟩ := BindingMap.bind_ok hBind
  refine ⟨fun method c hGet => ?_, fun c hMem => ?_⟩
  · rcases hNew method c hGet with hOld | ⟨rfl, rfl⟩
    · exact hFitting.fits method c hOld
    · exact hFits
  · rcases BindingMap.mem_bind hBind hMem with rfl | hOld
    · exact hBound
    · exact hKept _ _ (hFitting.keyed c hOld)

/-- What stands in for a method that is given the root fits. -/
theorem fitted_addParameterTo : Keeps (Fitted plan) (addParameterTo method) := by
  intro s made t h hKeyed hOwned hShape
  refine ⟨(addParameterTo_binds h).1.progressed hKeyed, fun hFitting => ?_⟩
  rcases addParameterTo_ok h with ⟨-, rfl, -⟩ | ⟨m, replacement, r, -, -, hMethod, hStands, hBind⟩
  · exact hFitting
  · have hSeat := plan.seat_of_shape hShape m .addedParameter
    rcases hStands with ⟨rfl, hFound⟩ | hCopy
    · obtain ⟨m', hStands, hMark, hPlace, hName⟩ := Program.findCopy?_eq_some hOwned hFound
      have hFits : Fits plan s.program method ⟨method, replacement, .addedParameter⟩ :=
        ⟨m, m', hMethod, hStands, hMark, hPlace.trans hSeat, hName⟩
      exact bindMethod_fits hBind (Or.inr hFits) hFitting
    · obtain ⟨m₁, m', hSource, hStands, hGrows, hSteady, hMark, hPlace, hName⟩ :=
        makeCopy_seat hCopy
      obtain rfl : m = m₁ := Option.some_inj.mp (hMethod.symm.trans hSource)
      refine bindMethod_fits hBind (Or.inr ?_)
        (hFitting.later hGrows hSteady (same_makeCopy hCopy))
      refine .of_copy hMethod hStands hGrows hMark (hPlace.trans ?_) hName
      rw [← hSeat]
      exact congrArg (m.owner, .named s.plan.root :: m.paramTypes, ·) (Bool.and_true _)

/-- So does what stands in for a method that moves, unless it is given. -/
theorem fitted_convertOne {context : ContextId} :
    Keeps (Fitted plan) (convertOne context method) := by
  intro s made t h hKeyed hOwned hShape
  refine ⟨(convertOne_binds h).1.progressed hKeyed, fun hFitting => ?_⟩
  rcases convertOne_ok h with ⟨-, rfl, -⟩ |
    ⟨replacement, fresh, r, u, -, -, hMade, hBind, hLater, hSame⟩
  · exact hFitting
  · have hBound := (bindConverted_binds hMade hBind).progressed hKeyed
    have hAfter := hLater hBound.keyed
    refine Fitting.later ?_ hAfter.grows hAfter.steady hSame
    have hContext := ContextPlan.context_of_shape hShape context
    have hGenerated := congrArg ContextDescriptor.generated hContext
    dsimp only at hGenerated
    rcases convertedReplacement_ok hMade with ⟨-, rfl, hGiven | ⟨m, hMethod, hFound⟩⟩ |
      ⟨-, m, hMethod, hCopy⟩
    · have hBrings : s.plan.Brings ⟨method, replacement, .instanceConverted context⟩ :=
        ⟨context, rfl, Table.mem_values_of_get? hGiven⟩
      exact bindMethod_fits hBind (Or.inl (hBrings.of_shape hShape)) hFitting
    · rw [hGenerated] at hFound
      obtain ⟨m', hStands, hMark, hPlace, hName⟩ := Program.findCopy?_eq_some hOwned hFound
      exact bindMethod_fits hBind (Or.inr ⟨m, m', hMethod, hStands, hMark, hPlace, hName⟩) hFitting
    · rw [hGenerated] at hCopy
      obtain ⟨m₁, m', hSource, hStands, hGrows, hSteady, hMark, hPlace, hName⟩ :=
        makeCopy_seat hCopy
      obtain rfl : m = m₁ := Option.some_inj.mp (hMethod.symm.trans hSource)
      refine bindMethod_fits hBind (Or.inr ?_)
        (hFitting.later hGrows hSteady (same_makeCopy hCopy))
      refine .of_copy hMethod hStands hGrows hMark (hPlace.trans ?_) hName
      exact congrArg ((plan.context context).generated, m.paramTypes, ·) (Bool.and_false _)

/-- Every transition lets what stands in for methods fit. -/
theorem fitting_preserved (hOwned : p.Owned) :
    Preserved p always fun s => s.plan.shape = plan.shape → Fitting plan s where
  idle s t hSame hLater _ _ h hShape :=
    (h (hLater.plan.symm.trans hShape)).later hLater.grows hLater.steady hSame
  step s t hTransition hLater hUnderway _ h hShape := by
    have hShape := hLater.plan.symm.trans hShape
    have hOwned := hUnderway.grows.owned hOwned
    cases hTransition with
    | converted first context group hGroup hConverts =>
        obtain ⟨made, u, hMade, hAfter, hSame⟩ := hConverts.steps
        have hFitted : Keeps (Fitted plan) (group.mapM (convertOne context)) :=
          Keeps.mapM fun _ _ => fitted_convertOne
        obtain ⟨hMoved, hFits⟩ := hFitted hMade hUnderway.keyed hOwned hShape
        have hLater := hAfter hMoved.keyed
        exact (hFits (h hShape)).later hLater.grows hLater.steady hSame
    | added first group hGroup hFree hAdds =>
        obtain ⟨made, u, v, hMade, hOverrides, hAfter, hSame⟩ := hAdds.steps
        have hFitted : Keeps (Fitted plan) (group.mapM addParameterTo) :=
          Keeps.mapM fun _ _ => fitted_addParameterTo
        obtain ⟨hAdded, hFits⟩ := hFitted hMade hUnderway.keyed hOwned hShape
        have hMapped : Changed (fun _ => False) u v :=
          Keeps.forM (fun _ _ => changes_mapOverrides) hOverrides
        have hMaps := hMapped.advanced hAdded.keyed
        have hLeaves : Leaves u.options ⟨fun _ => False, fun _ => False, fun _ => True,
            fun _ => False⟩ u v :=
          Keeps.forM (fun _ _ => leaves_mapOverrides trivial) hOverrides
        have hLater := hAfter hMaps.keyed
        refine Fitting.later ?_ hLater.grows hLater.steady hSame
        exact (hFits (h hShape)).later hMaps.grows (hLeaves rfl).2 hMapped.bindings

/-- Where nothing is bound, everything fits. -/
theorem fitting_of_free (h : ∀ method b, s.bindings.get? method ≠ some b) : Fitting plan s where
  fits method b hGet := (h method b hGet).elim
  keyed b hMem := by
    obtain ⟨key, hEntry⟩ := Table.mem_values_iff.mp hMem
    obtain ⟨c, hGet⟩ := Option.isSome_iff_exists.mp (Table.get?_isSome_of_mem hEntry)
    exact (h key c hGet).elim

/-- What contexts bring along fits, too. -/
theorem bindReplacements_fits {u : Unit} (h : bindReplacements s = .ok u t)
    (hKeyed : s.closures.Keyed) (hShape : s.plan.shape = plan.shape) (hFitting : Fitting plan s) :
    Fitting plan t := by
  have hLater := (bindReplacements_binds h).1 hKeyed
  obtain ⟨_, _, hGet, h⟩ := Step.bind_ok.mp h
  obtain ⟨rfl, rfl⟩ := Step.get_ok.mp hGet
  obtain ⟨made, s₁, hMade, h⟩ := Step.bind_ok.mp h
  let I (_ : List (Option (MethodId × MethodId))) (v : Propagation) : Prop :=
    v.program = s.program ∧ Fitting plan v
  obtain ⟨hSame, hFits⟩ : I made s₁ := by
    have hStart : I [] s := ⟨rfl, hFitting⟩
    refine Step.mapM_induct (fun b hb _ r v w hSoFar hStep => ?_) hStart hMade
    obtain ⟨m, _, hModel, hStep⟩ := Step.bind_ok.mp hStep
    obtain ⟨-, rfl⟩ := model_ok.mp hModel
    split at hStep
    · obtain ⟨-, rfl⟩ := Step.pure_ok.mp hStep
      exact hSoFar
    · obtain ⟨_, x, hBind, hStep⟩ := Step.bind_ok.mp hStep
      obtain ⟨-, rfl⟩ := Step.pure_ok.mp hStep
      have hBrings := (ContextPlan.brings_of_given hb).of_shape hShape
      refine ⟨?_, bindMethod_fits hBind (Or.inl hBrings) hSoFar.2⟩
      obtain ⟨bindings, -, rfl⟩ := bindMethod_ok hBind
      exact hSoFar.1
  exact hFits.later (hSame ▸ hLater.grows) (hSame ▸ hLater.steady) (same_complete h)

/-- Where contexts bring no replacements along, methods share what stands in for them only if they
are lookalikes. What stands in for a method that has none leads back to the method. -/
theorem shared_lookalikes {options : PropagationOptions} (h : propagate p plan options = .ok () s)
    (hOwned : p.Owned) (hNone : ∀ c ∈ plan.contexts, c.replacementMethods = ∅) :
    (∀ method other b c, s.bindings.get? method = some b → s.bindings.get? other = some c →
        b.replacement = c.replacement → Lookalikes plan s method other) ∧
      ∀ method b, s.bindings.get? method = some b →
        (∀ other, Lookalikes plan s method other → other = method) →
          s.bindings.byReplacement? b.replacement = some b := by
  have hAlone (b : Binding) : ¬ plan.Brings b := by
    rintro ⟨context, -, hMem⟩
    unfold ContextPlan.context at hMem
    cases hThere : plan.context? context with
    | none =>
        rw [hThere] at hMem
        exact List.not_mem_nil hMem
    | some c =>
        rw [hThere, Option.getD_some, hNone c (List.mem_of_getElem? hThere)] at hMem
        exact List.not_mem_nil hMem
  obtain ⟨-, hFitting⟩ := run_preserved h (fitting_preserved hOwned) trivial
    fun t hNew _ _ => fitting_of_free fun method b hGet =>
      List.not_mem_nil (ContextPlan.given_eq_nil hNone ▸ (hNew method b hGet).1)
  have hFitting := hFitting (run_advances h).plan
  have hShared {method other : MethodId} {b c : Binding} (hGet : s.bindings.get? method = some b)
      (hGet' : s.bindings.get? other = some c) (hSame : b.replacement = c.replacement) :
      Lookalikes plan s method other := by
    obtain ⟨m, n, hMethod, hOther, hAlike⟩ :=
      ((hFitting.fits method b hGet).resolve_left (hAlone b)).alike
        ((hFitting.fits other c hGet').resolve_left (hAlone c)) hSame
    exact ⟨b, hGet, c, hGet', m, hMethod, n, hOther, hAlike⟩
  refine ⟨fun method other b c => hShared, fun method b hGet hAlone => ?_⟩
  have hFound : (s.bindings.byReplacement? b.replacement).isSome := by
    refine List.find?_isSome.mpr ⟨b, Table.mem_values_of_get? hGet, beq_self_eq_true _⟩
  obtain ⟨c, hFound⟩ := Option.isSome_iff_exists.mp hFound
  have hGet' := hFitting.keyed c (List.mem_of_find?_eq_some hFound)
  have hSame := List.find?_some hFound
  rw [beq_iff_eq] at hSame
  rw [hAlone _ (hShared hGet hGet' hSame.symm), hGet] at hGet'
  exact hFound.trans hGet'.symm

end Propagate

section Examples

open Program Propagation

/-- Two methods of one type, one that reads a static field that moves and one that writes it. -/
def counters (name : String) : Edit ContextPlan := do
  let (plan, x, owner, _) ← shapes
  let reads ← addMethod owner name [] .void (.ofList [.static])
  setBody reads (.fresh [.onField .ldsfld x, .plain .pop, .plain .ret])
  let resets ← addMethod owner "Foo" [] .void (.ofList [.static])
  setBody resets (.fresh [.plain .ldnull, .onField .stsfld x, .plain .ret])
  pure plan

/-- What stands in for `Bar` leads back to it, as `Foo` is none of its lookalikes. -/
theorem counters_apart :
    ∃ s, propagate (built (counters "Bar")).1 (built (counters "Bar")).2 default = .ok () s ∧
      s.bindings.byReplacement? ⟨4⟩ = some ⟨⟨2⟩, ⟨4⟩, .addedParameter⟩ ∧
      ¬ Lookalikes (built (counters "Bar")).2 s ⟨2⟩ ⟨3⟩ := by
  have hCheck : Step.yields
      (propagate (built (counters "Bar")).1 (built (counters "Bar")).2 default)
      (fun _ s => decide (s.bindings.get? ⟨2⟩ = some ⟨⟨2⟩, ⟨4⟩, .addedParameter⟩ ∧
        ∀ e ∈ s.bindings.table.entries,
          Lookalikes (built (counters "Bar")).2 s ⟨2⟩ e.1 → e.1 = ⟨2⟩)) = true := by
    decide +kernel
  obtain ⟨_, s, hRun, hCheck⟩ := Step.ok_of_yields hCheck
  obtain ⟨hGet, hAlone⟩ := of_decide_eq_true hCheck
  have hOwned : (built (counters "Bar")).1.Owned := by decide +kernel
  have hNone : ∀ c ∈ (built (counters "Bar")).2.contexts, c.replacementMethods = ∅ := by
    decide +kernel
  have hAlone (other : MethodId) (h : Lookalikes (built (counters "Bar")).2 s ⟨2⟩ other) :
      other = ⟨2⟩ := by
    obtain ⟨-, -, c, hGet', -⟩ := id h
    exact hAlone (other, c) (Table.mem_entries_of_get? hGet') h
  obtain ⟨-, hBack⟩ := Propagate.shared_lookalikes hRun hOwned hNone
  refine ⟨s, hRun, hBack ⟨2⟩ _ hGet hAlone, fun h => ?_⟩
  exact absurd (hAlone ⟨3⟩ h) (by decide)

/-- `Foo` takes the copy that was made of `Foo$context` for its own, and so its code is lost. -/
theorem counters_confused :
    ∃ s, propagate (built (counters "Foo$context")).1 (built (counters "Foo$context")).2 default
        = .ok () s ∧
      ¬ ∀ method other b c, s.bindings.get? method = some b → s.bindings.get? other = some c →
        b.replacement = c.replacement → method = other := by
  have hCheck : Step.yields
      (propagate (built (counters "Foo$context")).1 (built (counters "Foo$context")).2 default)
      (fun _ s => decide (s.bindings.get? ⟨2⟩ = some ⟨⟨2⟩, ⟨4⟩, .addedParameter⟩ ∧
        s.bindings.get? ⟨3⟩ = some ⟨⟨3⟩, ⟨4⟩, .addedParameter⟩)) = true := by decide +kernel
  obtain ⟨_, s, hRun, hCheck⟩ := Step.ok_of_yields hCheck
  obtain ⟨hGet, hGet'⟩ := of_decide_eq_true hCheck
  exact ⟨s, hRun, fun hAll => absurd (hAll ⟨2⟩ ⟨3⟩ _ _ hGet hGet' rfl) (by decide)⟩

end Examples

end ContextBinding
