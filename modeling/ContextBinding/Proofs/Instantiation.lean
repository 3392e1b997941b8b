import ContextBinding.Proofs.Arrangement
import ContextBinding.Proofs.Coverage
import ContextBinding.Proofs.Emission
import ContextBinding.Proofs.Overriding
import Mathlib.Algebra.Order.BigOperators.Group.List
import Mathlib.Algebra.Order.Group.Nat

/-! When the order of contexts is sound for the program that a run produces. All
 reads of slots that the run follows are respected, so that the order is sound
 just if it respects the others as well. -/

namespace ContextBinding

open Relation

namespace Program

/-- An instruction stands in the code of a method. -/
def Holds (p : Program) (method : MethodId) (i : Instruction) : Prop :=
  ∃ m b, p.method? method = some m ∧ m.body = some b ∧ i ∈ b.instructions

/-- The code of a method may run another one: it names it, or calls virtually what
the other one overrides. -/
def Leads (p : Program) (caller callee : MethodId) : Prop :=
  ∃ i, p.Holds caller i ∧ (i.reference? = some callee ∨
    i.opcode = .callvirt ∧ ∃ target, i.method? = some target ∧ TransGen p.Overrides callee target)

/-- The code of a method loads a field of an object, or its address. -/
def ReadsField (p : Program) (method : MethodId) (field : FieldId) : Prop :=
  ∃ i, p.Holds method i ∧ (i.opcode = .ldfld ∨ i.opcode = .ldflda) ∧ i.field? = some field

end Program

namespace BoundProgram

variable (p : Program) (r : BoundProgram)

/-- The constructor and the init units of a context. -/
def Starts (context : ContextId) (method : MethodId) : Prop :=
  let c := r.plan.context context
  method ∈ c.constructor :: c.initUnits

/-- Code of one context gets to code that reads the slot of another one. -/
def ReadsSlot (a b : ContextId) : Prop :=
  ∃ start method slot, r.Starts a start ∧ ReflTransGen r.program.Leads start method ∧
    (r.plan.context b).slot? = some slot ∧ r.program.ReadsField method slot

/-- A context that is constructed comes after every other one whose slot its code
gets to read. -/
def OrderSound : Prop :=
  ∀ a ∈ r.plan.ids, ∀ b ∈ r.plan.ids, a ≠ b → (r.plan.context a).isReusedSingleton = false →
    r.ReadsSlot a b → [b, a].Sublist r.report.order

/-- The method is the root constructor, and the run put statements into it. -/
def Filled (method : MethodId) : Prop :=
  method = r.plan.rootConstructor ∧ 0 < r.report.emittedSteps

/-- A run follows the code of a method in use, but not that of the types that it
declared itself and not the statements of the root constructor. -/
def Follows (method : MethodId) : Prop :=
  (∃ m, r.program.method? method = some m ∧ m.isRetired = false ∧
    m.owner.index < p.types.length) ∧ ¬ r.Filled method

/-- No virtual method was bound. -/
def KeepsVirtuals : Prop :=
  ∀ method b m, r.report.bindings.get? method = some b → r.program.method? method = some m →
    m.isVirtual = false

/-- A step that the run follows: to what is named, and to what could be dispatched
to already before a run that binds no virtual method. -/
def LeadsFollowed (caller callee : MethodId) : Prop :=
  r.Follows p caller ∧ ∃ i, r.program.Holds caller i ∧ (i.reference? = some callee ∨
    r.KeepsVirtuals ∧ i.opcode = .callvirt ∧ ∃ target, i.method? = some target ∧
      TransGen p.Overrides callee target ∧ p.HasCode callee)

/-- The slot of a context is read where steps lead that the run follows, and it is
not the slot of a later context as well. -/
def ReadsFollowed (a b : ContextId) : Prop :=
  ∃ start method slot, r.Starts a start ∧ ReflTransGen (r.LeadsFollowed p) start method ∧
    ¬ r.Filled method ∧ r.plan.slotOwner? slot = some b ∧ r.program.ReadsField method slot

/-- The order respects the reads that the run does not follow: over methods of the
types that it declared, over retired methods, over the statements of the root
constructor, or over dispatch that it made possible. -/
def UnfollowedOrdered : Prop :=
  ∀ a ∈ r.plan.ids, ∀ b ∈ r.plan.ids, a ≠ b → (r.plan.context a).isReusedSingleton = false →
    r.ReadsSlot a b → ¬ r.ReadsFollowed p a b → [b, a].Sublist r.report.order

end BoundProgram

namespace ContextPlan

variable {plan : ContextPlan}

/-- Whatever the graph leads to is reached. -/
theorem mem_reachable {g : ReferenceGraph} {start : List MethodId} {a m : MethodId}
    (hStart : a ∈ start) (hPath : ReflTransGen g.Lists a m) : m ∈ reachable g start := by
  unfold reachable
  let counts := g.sites.entries.map fun e => (e.1, e.2.length)
  have hNext (a : MethodId) :
      ((g.callees a).map (·.callee)).length ≤ allowance counts a := by
    rw [List.length_map]
    unfold ReferenceGraph.callees
    cases hSites : g.sites.get? a with
    | none => exact Nat.zero_le _
    | some sites =>
        have hMem : (a, sites.length) ∈ counts.filter fun e => e.1 = a :=
          List.mem_filter.mpr ⟨List.mem_map.mpr ⟨(a, sites), Table.mem_entries_of_get? hSites, rfl⟩,
            by simp⟩
        exact List.le_sum_of_mem (List.mem_map_of_mem hMem)
  have hSum : (counts.map (·.2)).sum = g.sites.values.flatten.length := by
    simp [counts, Table.values, List.length_flatten, Function.comp_def]
  refine mem_reach hNext (by rw [hSum]; omega) hStart ?_
  refine ReflTransGen.mono (fun a b hListed => ?_) _ _ hPath
  obtain ⟨site, hSite, rfl⟩ := hListed
  exact List.mem_map_of_mem hSite

/-- A context needs every other one whose slot is read where its own code leads. -/
theorem mem_needs {p : Program} {g : ReferenceGraph} {a b : ContextId} {start m : MethodId}
    {d : MethodDef} {code : MethodBody} {i : Instruction} (hContext : a ∈ plan.ids) (hOther : a ≠ b)
    (hConstructed : (plan.context a).isReusedSingleton = false)
    (hStart : start ∈ (plan.context a).constructor :: (plan.context a).initUnits)
    (hPath : ReflTransGen g.Lists start m) (hMethod : p.method? m = some d)
    (hBody : d.body = some code) (hMem : i ∈ code.instructions)
    (hRead : plan.readSlot? i = some b) : b ∈ (plan.dependencies p g).needs a := by
  obtain ⟨c, hGet⟩ := mem_ids.mp hContext
  rw [context_of_some hGet] at hConstructed hStart
  have hFrom : b ∈ plan.readFrom p g c := by
    unfold readFrom
    rw [if_neg (by simp [hConstructed])]
    refine List.mem_flatMap.mpr ⟨m, mem_reachable hStart hPath, ?_⟩
    simp only [hMethod, Option.bind_some, hBody, Option.map_some, Option.getD_some]
    exact List.mem_filterMap.mpr ⟨i, hMem, hRead⟩
  rw [needs_eq hGet]
  simp only [mem_ascending, List.mem_append, List.mem_filter]
  exact Or.inr ⟨hFrom, by simpa using Ne.symm hOther⟩

/-- In the order of a plan, every context comes after those it needs. -/
theorem order_respects {p : Program} {g : ReferenceGraph} {order : List ContextId}
    (h : plan.order p g = .ok order) {a b : ContextId} (hContext : a ∈ plan.ids)
    (hNeeds : b ∈ (plan.dependencies p g).needs a) : [b, a].Sublist order :=
  respects_order h a ((order_perm h).mem_iff.mpr hContext) b hNeeds

end ContextPlan

namespace BinderConfig

variable {config : BinderConfig} {p : Program} {plan : ContextPlan} {r : BoundProgram}

/-- Where a run ends with code that it did not put into the root constructor, the
code was there before. -/
theorem holds_of_unfilled {s : Propagation} (h : config.finish s = .ok r) {method : MethodId}
    (hUnfilled : ¬ r.Filled method) {i : Instruction} (hHolds : r.program.Holds method i) :
    ∃ m b, s.program.method? method = some m ∧ m.body = some b ∧ i ∈ b.instructions ∧
      ∀ m', r.program.method? method = some m' → m.Persists m' := by
  obtain ⟨hPlan, -, -, hConfined⟩ := finish_ok h
  obtain ⟨m', b, hMethod', hBody', hMem⟩ := hHolds
  rcases hConfined.code method m' hMethod' with ⟨m, hMethod, hBody | hFilled⟩ | ⟨-, hFalse⟩
  · exact ⟨m, b, hMethod, hBody ▸ hBody', hMem,
      fun m'' hMethod'' => hConfined.grows.method_persists hMethod hMethod''⟩
  · exact (hUnfilled ⟨hPlan ▸ hFilled.1, hFilled.2⟩).elim
  · exact hFalse.elim

/-- The graph that a run leaves lists every step that the run follows. -/
theorem lists_of_leadsFollowed {s : Propagation} (hRun : propagate p plan config.options = .ok () s)
    (hFinish : config.finish s = .ok r) {caller callee : MethodId}
    (h : r.LeadsFollowed p caller callee) : s.graph.Lists caller callee := by
  obtain ⟨⟨⟨m', hMethod', hUsed', hOld⟩, hUnfilled⟩, i, hHolds, hReaches⟩ := h
  obtain ⟨m, b, hMethod, hBody, hMem, hPersists⟩ := holds_of_unfilled hFinish hUnfilled hHolds
  have hStep := hPersists m' hMethod'
  have hUsed := hStep.used hUsed'
  have hLive := Program.liveBody?_eq_some.mpr ⟨m, hMethod, hUsed, hBody⟩
  rcases hReaches with hName | ⟨hVirtuals, hCall, target, hTarget, hOverrides, hCode⟩
  · refine Propagate.run_lists hRun (OverrideGraph.Within.empty _) (Or.inl rfl) hMethod
      (hStep.owner ▸ hOld) ⟨b, i, hLive, hMem, ?_⟩
    exact Instruction.mem_reached_of_reference hName
  · have hDormant : s.Dormant (.build p) := by
      refine Or.inr fun method b m hBound hMethod => ?_
      obtain ⟨-, -, hBindings, hConfined⟩ := finish_ok hFinish
      obtain ⟨m₁, hMethod₁, hStep₁⟩ := hConfined.grows.method hMethod
      exact hStep₁.isVirtual.symm.trans (hVirtuals method b m₁ (hBindings ▸ hBound) hMethod₁)
    refine Propagate.run_lists hRun (fun _ => List.Subset.refl _) hDormant hMethod
      (hStep.owner ▸ hOld) ⟨b, i, hLive, hMem, ?_⟩
    exact Instruction.mem_reached_of_implementation hCall hTarget
      (OverrideGraph.mem_implementations_build hCode hOverrides)

/-- The order respects every read that the run follows. -/
theorem readsFollowed_ordered (h : config.run p plan = .ok r) {a b : ContextId}
    (hContext : a ∈ r.plan.ids) (hOther : a ≠ b)
    (hConstructed : (r.plan.context a).isReusedSingleton = false)
    (hReads : r.ReadsFollowed p a b) : [b, a].Sublist r.report.order := by
  obtain ⟨-, s, hRun, hFinish⟩ := run_ok.mp h
  obtain ⟨hPlan, hOrder, -, -⟩ := finish_ok hFinish
  obtain ⟨start, method, slot, hStart, hPath, hUnfilled, hSlot, i, hHolds, hLoads, hField⟩ := hReads
  obtain ⟨m, code, hMethod, hBody, hMem, -⟩ := holds_of_unfilled hFinish hUnfilled hHolds
  have hRead : r.plan.readSlot? i = some b := by
    unfold ContextPlan.readSlot?
    rw [if_pos (by rcases hLoads with hLoads | hLoads <;> simp [hLoads]), hField]
    exact hSlot
  rw [← hPlan] at hOrder
  refine ContextPlan.order_respects hOrder hContext ?_
  exact ContextPlan.mem_needs hContext hOther hConstructed hStart
    (ReflTransGen.mono (fun _ _ => lists_of_leadsFollowed hRun hFinish) _ _ hPath) hMethod hBody hMem hRead

end BinderConfig

section Delegate

/-- A context `A` whose constructor makes a delegate of `f` and calls it. The code
of `f` reads a static field that moves to another context, `B`. -/
def readThroughDelegate : Edit ContextPlan := do
  let root ← Program.addType "G" "Root" none ⟨0⟩
  let holderA ← Program.addType "G" "A" none ⟨0⟩
  let contextA ← Program.addType "G" "A_Ctx" none ⟨0⟩
  let holderB ← Program.addType "G" "B" none ⟨0⟩
  let contextB ← Program.addType "G" "B_Ctx" none ⟨0⟩
  let util ← Program.addType "G" "U" none ⟨0⟩
  let action ← Program.addType "G" "Act" none (.ofList [.delegate])
  let constructor : FlagSet MethodFlag := .ofList [.constructor]
  let newRoot ← Program.addMethod root ".ctor" [] .void constructor
  let newAction ← Program.addMethod action ".ctor" [⟨"o", .object⟩, ⟨"m", .nativeInt⟩] .void
    constructor
  let invoke ← Program.addMethod action "Invoke" [] .void (.ofList [.virtual])
  let newB ← Program.addMethod contextB ".ctor" [] .void constructor
  let slotA ← Program.addField root "A_f" (.named contextA) ⟨0⟩
  let slotB ← Program.addField root "B_f" (.named contextB) ⟨0⟩
  let back ← Program.addField contextA "root" (.named root) ⟨0⟩
  let y ← Program.addField holderB "y" .int32 (.ofList [.static])
  let moved ← Program.addField contextB "y" .int32 ⟨0⟩
  let f ← Program.addMethod util "f" [] .void (.ofList [.static])
  let newA ← Program.addMethod contextA ".ctor" [⟨"r", .named root⟩] .void constructor
  Program.setBody newRoot (.fresh [.plain .ret])
  Program.setBody newB (.fresh [.plain .ret])
  Program.setBody f (.fresh [.onField .ldsfld y, .plain .pop, .plain .ret])
  Program.setBody newA (.fresh [.onArg .ldarg 0, .onArg .ldarg 1, .onField .stfld back,
    .plain .ldnull, .onMethod .ldftn f, .onMethod .newobj newAction, .onMethod .callvirt invoke,
    .plain .ret])
  pure ⟨root, newRoot,
    [{ ContextDescriptor.bare "A" holderA contextA newA with
        chain := [slotA], rootField := some back },
      { ContextDescriptor.bare "B" holderB contextB newB with
        chain := [slotB], movedFields := .ofList [(y, moved)] }]⟩

namespace Program

/-- Some instruction in the code of a method satisfies a test. -/
def holdsAny (p : Program) (method : MethodId) (test : Instruction → Bool) : Bool :=
  ((p.method? method).bind (·.body)).any fun b => b.instructions.any test

theorem holds_of_holdsAny {p : Program} {method : MethodId} {test : Instruction → Bool}
    (h : p.holdsAny method test = true) : ∃ i, p.Holds method i ∧ test i = true := by
  unfold holdsAny at h
  cases hCode : (p.method? method).bind (·.body) with
  | none => simp [hCode] at h
  | some b =>
      obtain ⟨m, hMethod, hBody⟩ := Option.bind_eq_some_iff.mp hCode
      rw [hCode] at h
      obtain ⟨i, hMem, hTest⟩ := List.any_eq_true.mp h
      exact ⟨i, ⟨m, b, hMethod, hBody, hMem⟩, hTest⟩

/-- Each method on a path names the next one, and the last one loads a field. -/
def readsAlong (p : Program) (field : FieldId) : MethodId → List MethodId → Bool
  | method, [] => p.holdsAny method fun i => i.opcode == .ldfld && i.field? == some field
  | method, next :: path =>
    p.holdsAny method (fun i => i.reference? == some next) && readsAlong p field next path

theorem reads_of_readsAlong {p : Program} {field : FieldId} {start : MethodId}
    {path : List MethodId} (h : p.readsAlong field start path = true) :
    ∃ method, ReflTransGen p.Leads start method ∧ p.ReadsField method field := by
  induction path generalizing start with
  | nil =>
      obtain ⟨i, hHolds, hTest⟩ := holds_of_holdsAny h
      simp only [Bool.and_eq_true, beq_iff_eq] at hTest
      exact ⟨start, .refl, i, hHolds, Or.inl hTest.1, hTest.2⟩
  | cons next path ih =>
      simp only [readsAlong, Bool.and_eq_true] at h
      obtain ⟨i, hHolds, hTest⟩ := holds_of_holdsAny h.1
      obtain ⟨method, hPath, hReads⟩ := ih h.2
      exact ⟨method, .head ⟨i, hHolds, Or.inl (by simpa using hTest)⟩ hPath, hReads⟩

end Program

namespace BoundProgram

/-- The constructor of one context gets to a read of the slot of another one along
a path, and the order does not put it behind that one. -/
def misorders (r : BoundProgram) (a b : ContextId) (path : List MethodId) : Bool :=
  let c := r.plan.context a
  r.plan.ids.contains a && r.plan.ids.contains b && a != b && !c.isReusedSingleton
    && ((r.plan.context b).slot?.any fun slot => r.program.readsAlong slot c.constructor path)
    && !([b, a].isSublist r.report.order)

theorem not_orderSound_of_misorders {r : BoundProgram} {a b : ContextId} {path : List MethodId}
    (h : r.misorders a b path = true) : ¬ r.OrderSound := by
  simp only [misorders, Bool.and_eq_true, Bool.not_eq_true', List.contains_iff_mem, bne_iff_ne,
    ne_eq] at h
  obtain ⟨⟨⟨⟨⟨ha, hb⟩, hOther⟩, hConstructed⟩, hReads⟩, hOrder⟩ := h
  intro hSound
  cases hSlot : (r.plan.context b).slot? with
  | none => simp [hSlot] at hReads
  | some slot =>
      rw [hSlot] at hReads
      obtain ⟨method, hPath, hReads⟩ := Program.reads_of_readsAlong hReads
      have hSublist := hSound a ha b hb hOther hConstructed
        ⟨_, method, slot, List.mem_cons_self .., hPath, hSlot, hReads⟩
      rw [List.isSublist_iff_sublist.mpr hSublist] at hOrder
      cases hOrder

end BoundProgram

/-- The constructor of `A` runs a forwarding method, and over it code that reads the
slot of `B`, yet `A` is constructed first. -/
theorem readThroughDelegate_run :
    ∃ r, (default : BinderConfig).run (built readThroughDelegate).1 (built readThroughDelegate).2
      = .ok r ∧ r.misorders ⟨0⟩ ⟨1⟩ [⟨8⟩, ⟨6⟩] = true := by
  exact Outcome.ok_of_yields (c := fun r : BoundProgram => r.misorders ⟨0⟩ ⟨1⟩ [⟨8⟩, ⟨6⟩])
    (by decide +kernel)

end Delegate

end ContextBinding
