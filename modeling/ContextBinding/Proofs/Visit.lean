import ContextBinding.Proofs.Advance
import ContextBinding.Proofs.Exploration
import ContextBinding.Proofs.Graph

/-! What a visit comes to. A method that needs nothing is left alone, one that
 reaches the root is adapted, and any other one is bound. -/

namespace ContextBinding

/-- Everything seen before an exploration, and all of its frontier, is visited. -/
theorem mem_explore {α ε : Type} [DecidableEq α] {next : α → Except ε (List α)} {fuel : Nat}
    {seen frontier result : List α} (h : explore next fuel seen frontier = .ok result) {a : α}
    (ha : a ∈ seen ∨ frontier.head? = some a ∧ 0 < fuel) : a ∈ result := by
  induction fuel generalizing seen frontier with
  | zero =>
      obtain rfl := Except.ok.inj h
      exact ha.resolve_right fun hHead => Nat.lt_irrefl 0 hHead.2
  | succ fuel ih =>
      cases frontier with
      | nil =>
          obtain rfl := Except.ok.inj h
          exact ha.resolve_right fun hHead => nomatch hHead.1
      | cons b frontier =>
          rw [explore] at h
          split at h
          · rename_i hSeen
            apply ih h (Or.inl _)
            exact ha.elim (fun ha => ha) fun hHead => Option.some_inj.mp hHead.1 ▸ hSeen
          · obtain ⟨l, -, hRest⟩ := Outcome.bind_ok.mp h
            apply ih hRest (Or.inl _)
            exact ha.elim (List.mem_cons_of_mem _) fun hHead =>
              Option.some_inj.mp hHead.1 ▸ List.mem_cons_self ..

namespace NeedySite

variable {plan : ContextPlan} {bindings : BindingMap} {closures : Closures} {p : Program}
  {b : MethodBody} {i : Instruction} {need : SiteNeed}

/-- What an instruction is that needs the root for a reason. -/
def Reason (plan : ContextPlan) (bindings : BindingMap) (closures : Closures) (p : Program)
    (b : MethodBody) (i : Instruction) : SiteNeed → Prop
  | .staticField context moved =>
    (i.opcode = .ldsfld ∨ i.opcode = .ldsflda ∨ i.opcode = .stsfld) ∧
      ∃ field, i.field? = some field ∧ plan.movedField? field = some (context, moved)
  | .singleton context =>
    i.opcode = .ldsfld ∧ ∃ field, i.field? = some field ∧ plan.singletonOf? field = some context
  | .boundCall binding =>
    (i.opcode = .call ∨ i.opcode = .callvirt ∨ i.opcode = .newobj) ∧
      ∃ target, i.method? = some target ∧ bindings.get? target = some binding
  | .capture binding =>
    (i.opcode = .ldftn ∨ i.opcode = .ldvirtftn) ∧
      ∃ target, i.method? = some target ∧ bindings.get? target = some binding
  | .displayStore field =>
    i.opcode = .newobj ∧ closures.pendingStore? p b i.id = some field

/-- Every need has its reason. -/
theorem reason_of_needOf? (h : needOf? plan bindings closures p b i = some need) :
    Reason plan bindings closures p b i need := by
  have hAccess {field : FieldId} (hField : i.field? = some field)
      (hOpcode : i.opcode = .ldsfld ∨ i.opcode = .ldsflda ∨ i.opcode = .stsfld)
      (h : ofFieldAccess? plan i.opcode field = some need) :
      Reason plan bindings closures p b i need := by
    unfold ofFieldAccess? at h
    split at h
    · rename_i context moved hMoved
      obtain rfl := Option.some_inj.mp h
      exact ⟨hOpcode, field, hField, hMoved⟩
    · split at h
      · rename_i hLoad
        obtain ⟨context, hSingleton, rfl⟩ := Option.map_eq_some_iff.mp h
        exact ⟨hLoad, field, hField, hSingleton⟩
      · cases h
  have hCall {target : MethodId} (hTarget : i.method? = some target)
      (hOpcode : i.opcode = .call ∨ i.opcode = .callvirt ∨ i.opcode = .newobj)
      (h : ofCall? bindings closures p b i target = some need) :
      Reason plan bindings closures p b i need := by
    unfold ofCall? at h
    split at h
    · rename_i binding hBound
      obtain rfl := Option.some_inj.mp h
      exact ⟨hOpcode, target, hTarget, hBound⟩
    · split at h
      · rename_i hNew
        obtain ⟨field, hPending, rfl⟩ := Option.map_eq_some_iff.mp h
        exact ⟨hNew, hPending⟩
      · cases h
  have hCapture (hOpcode : i.opcode = .ldftn ∨ i.opcode = .ldvirtftn)
      (h : (i.method?.bind bindings.get?).map SiteNeed.capture = some need) :
      Reason plan bindings closures p b i need := by
    obtain ⟨binding, hBound, rfl⟩ := Option.map_eq_some_iff.mp h
    obtain ⟨target, hTarget, hBound⟩ := Option.bind_eq_some_iff.mp hBound
    exact ⟨hOpcode, target, hTarget, hBound⟩
  unfold needOf? at h
  cases hOpcode : i.opcode <;> simp only [hOpcode, reduceCtorEq] at h
  case ldsfld | ldsflda | stsfld =>
    obtain ⟨field, hField, h⟩ := Option.bind_eq_some_iff.mp h
    exact hAccess hField (by simp [hOpcode]) (hOpcode ▸ h)
  case call | callvirt | newobj =>
    obtain ⟨target, hTarget, h⟩ := Option.bind_eq_some_iff.mp h
    exact hCall hTarget (by simp [hOpcode]) h
  case ldftn | ldvirtftn => exact hCapture (by simp [hOpcode]) h

/-- The places in a body are those of its instructions that need the root. -/
theorem mem_scan {place : NeedySite} : place ∈ scan plan bindings closures p b ↔
    ∃ i ∈ b.instructions, i.id = place.instr ∧
      needOf? plan bindings closures p b i = some place.need := by
  unfold scan
  simp only [List.mem_filterMap, Option.map_eq_some_iff]
  refine exists_congr fun i => and_congr_right fun _ => ⟨?_, ?_⟩
  · rintro ⟨need, hNeed, rfl⟩
    exact ⟨rfl, hNeed⟩
  · rintro ⟨hId, hNeed⟩
    exact ⟨place.need, hNeed, by rw [hId]⟩

/-- No two places are at one instruction. -/
theorem nodup_scan (h : b.Numbered) : ((scan plan bindings closures p b).map (·.instr)).Nodup := by
  refine List.Nodup.sublist ?_ h.distinct
  unfold scan
  generalize b.instructions = code
  induction code with
  | nil => exact List.Sublist.refl _
  | cons i code ih =>
      rw [List.filterMap_cons]
      cases needOf? plan bindings closures p b i with
      | none => exact ih.cons _
      | some need => exact ih.cons_cons _

end NeedySite

namespace Propagation

/-- The state in which a visit looks at the code. -/
def visited (s : Propagation) : Propagation := s.count fun n => { n with visits := n.visits + 1 }

/-- The places in a body that need the root at a point of a run. -/
def places (s : Propagation) (b : MethodBody) : List NeedySite :=
  NeedySite.scan s.plan s.bindings s.closures s.program b

/-- The state in which the first batch is worked on. -/
def seeded (s : Propagation) : Propagation :=
  s.enqueue (s.program.liveMethods.filter fun id =>
    (s.program.method? id).any (Propagate.isSeed s))

/-- The state at the end of a run. -/
def closed (s : Propagation) : Propagation :=
  s.count fun n => { n with skippedCaptureSites := s.closures.skipped }

theorem mem_seeded {s : Propagation} {method : MethodId} :
    method ∈ s.seeded.pending ↔ method ∈ s.pending ∨
      ∃ m b, s.program.method? method = some m ∧ m.isRetired = false ∧ m.body = some b ∧
        Propagate.isSeed s m = true := by
  change method ∈ ascending (s.pending ++ _) ↔ _
  simp only [mem_ascending, List.mem_append, List.mem_filter, Program.mem_liveMethods,
    Program.isLive_iff, Program.liveBody?_eq_some]
  refine or_congr_right ?_
  constructor
  · rintro ⟨⟨b, m, hMethod, hUsed, hBody⟩, hSeed⟩
    exact ⟨m, b, hMethod, hUsed, hBody, by simpa [hMethod] using hSeed⟩
  · rintro ⟨m, b, hMethod, hUsed, hBody, hSeed⟩
    exact ⟨⟨b, m, hMethod, hUsed, hBody⟩, by simpa [hMethod] using hSeed⟩

end Propagation

namespace Propagate

open Propagation (Advanced Edited)

variable {s t : Propagation}

/-- The parts of a run in order. -/
theorem run_iff : run s = .ok () t ↔ ∃ s₁ s₂ s₃ s₄, graph GraphEdit.build s = .ok () s₁ ∧
    bindReplacements s₁ = .ok () s₂ ∧ visitAll s₂.seeded = .ok () s₃ ∧
    retireMovedFields s₃ = .ok () s₄ ∧ s₄.closed = t := by
  unfold run seed
  simp only [Step.bind_ok, Step.modify_ok]
  constructor
  · rintro ⟨_, s₁, hBuild, _, s₂, hGiven, _, _, rfl, _, s₃, hBatches, _, s₄, hRetire, hEnd⟩
    exact ⟨s₁, s₂, s₃, s₄, hBuild, hGiven, hBatches, hRetire, hEnd⟩
  · rintro ⟨s₁, s₂, s₃, s₄, hBuild, hGiven, hBatches, hRetire, hEnd⟩
    exact ⟨_, s₁, hBuild, _, s₂, hGiven, ⟨⟩, _, rfl, _, s₃, hBatches, _, s₄, hRetire, hEnd⟩

/-- What a visit of a method did. -/
inductive Visit (method : MethodId) (s t : Propagation) : Prop where
  /-- The method is not in use any more, or bound. -/
  | skipped (hDone : s.program.liveBody? method = none ∨ s.bindings.isBound method = true)
      (hEnd : s.visited = t)
  /-- Nothing in the code needs the root. -/
  | settled (b : MethodBody) (hLive : s.program.liveBody? method = some b)
      (hNone : s.places b = []) (hEnd : s.visited = t)
  /-- The method reaches the root. -/
  | adapted (b : MethodBody) (hLive : s.program.liveBody? method = some b)
      (hFree : s.bindings.isBound method = false) (hSome : s.places b ≠ []) (handle : HandleSource)
      (hHandle : handleOf? method s.visited = .ok (some handle) s.visited)
      (hAdapt : adaptInPlace ⟨method, handle⟩ (s.places b) s.visited = .ok () t)
  /-- The method comes to reach the root over its display class. -/
  | captured (b : MethodBody) (hLive : s.program.liveBody? method = some b)
      (hFree : s.bindings.isBound method = false) (hSome : s.places b ≠ [])
      (handle : HandleSource) (u : Propagation)
      (hNone : handleOf? method s.visited = .ok none s.visited)
      (hDisplay : displayHandle? method s.visited = .ok (some handle) u)
      (hAdapt : adaptInPlace ⟨method, handle⟩ (s.places b) u = .ok () t)
  /-- The method does not reach the root. -/
  | bound (b : MethodBody) (hLive : s.program.liveBody? method = some b)
      (hFree : s.bindings.isBound method = false) (hSome : s.places b ≠ [])
      (hNone : handleOf? method s.visited = .ok none s.visited)
      (hBind : bindNeedy method (s.places b) s.visited = .ok () t)

theorem scan_ok {method : MethodId} {places : List NeedySite} :
    scan method s = .ok places t ↔
      (∃ b, s.program.body method = .ok b ∧ s.places b = places) ∧ s = t := by
  unfold scan
  simp only [Step.bind_ok, Step.get_ok, model_ok, Step.pure_ok]
  constructor
  · rintro ⟨_, _, ⟨rfl, rfl⟩, b, _, ⟨hBody, rfl⟩, rfl, rfl⟩
    exact ⟨⟨b, hBody, rfl⟩, rfl⟩
  · rintro ⟨⟨b, hBody, rfl⟩, rfl⟩
    exact ⟨s, s, ⟨rfl, rfl⟩, b, s, ⟨hBody, rfl⟩, rfl, rfl⟩

/-- Looking for the root changes nothing. -/
theorem handleOf?_ok {method : MethodId} {handle : Option HandleSource}
    (h : handleOf? method s = .ok handle t) : s = t := by
  have hReads : Keeps (· = ·) (handleOf? method) := by
    refine Keeps.bind Keeps.get fun s => Keeps.bind (fun _ _ _ h => (model_ok.mp h).2) fun m => ?_
    dsimp only
    split
    · split <;> exact Keeps.pure _
    · refine Keeps.ite (Keeps.pure _) (Keeps.ite (Keeps.pure _) ?_)
      split <;> exact Keeps.pure _
  exact hReads h

/-- A method that does not reach the root stands in for nothing that a mode leads to the root, and
it is no instance method of the root, of a context or of a display class that stores the root. -/
theorem handleOf?_none {method : MethodId} (h : handleOf? method s = .ok none t) :
    ∃ m, s.program.method? method = some m ∧
      ((∃ b, s.bindings.byReplacement? method = some b ∧ b.mode = .unbound) ∨
        s.bindings.byReplacement? method = none ∧
          (m.isStatic = false → s.closures.displayRoot? m.owner = none)) := by
  obtain ⟨_, _, hGet, h⟩ := Step.bind_ok.mp h
  obtain ⟨rfl, rfl⟩ := Step.get_ok.mp hGet
  obtain ⟨m, _, hModel, h⟩ := Step.bind_ok.mp h
  obtain ⟨hMethod, rfl⟩ := model_ok.mp hModel
  refine ⟨m, Program.methodDef_ok.mp hMethod, ?_⟩
  dsimp only at h
  cases hStands : s.bindings.byReplacement? method with
  | some b =>
      cases hMode : b.mode with
      | unbound => exact Or.inl ⟨b, rfl, hMode⟩
      | addedParameter | instanceConverted context =>
          simp only [hStands, hMode] at h
          cases (Step.pure_ok.mp h).1
  | none =>
      refine Or.inr ⟨rfl, fun hInstance => ?_⟩
      simp only [hStands, hInstance, Bool.false_eq_true, if_false] at h
      split at h
      · cases (Step.pure_ok.mp h).1
      · cases hGenerated : s.plan.byGenerated? m.owner with
        | some context =>
            simp only [hGenerated] at h
            cases (Step.pure_ok.mp h).1
        | none =>
            simp only [hGenerated] at h
            exact Option.map_eq_none_iff.mp (Step.pure_ok.mp h).1

/-- Where a display class gives no way to the root, it is left alone. -/
theorem displayHandle?_none {method : MethodId} (h : displayHandle? method s = .ok none t) :
    s = t := by
  obtain ⟨m, _, hModel, h⟩ := Step.bind_ok.mp h
  obtain ⟨-, rfl⟩ := model_ok.mp hModel
  obtain ⟨type, _, hType, h⟩ := Step.bind_ok.mp h
  obtain ⟨-, rfl⟩ := model_ok.mp hType
  split at h
  · exact (Step.pure_ok.mp h).2
  · obtain ⟨made, _, -, h⟩ := Step.bind_ok.mp h
    dsimp only at h
    split at h
    · obtain ⟨_, _, -, h⟩ := Step.bind_ok.mp h
      obtain ⟨_, _, -, h⟩ := Step.bind_ok.mp h
      cases (Step.pure_ok.mp h).1
    · cases (Step.pure_ok.mp h).1

/-- A visit is one of four things. -/
theorem visit_ok {method : MethodId} {u : Unit} (h : visit method s = .ok u t) :
    Visit method s t := by
  obtain ⟨_, s₁, hCount, h⟩ := Step.bind_ok.mp h
  obtain rfl : s.visited = s₁ := Step.modify_ok.mp hCount
  obtain ⟨m, _, hModel, h⟩ := Step.bind_ok.mp h
  obtain ⟨hMethod, rfl⟩ := model_ok.mp hModel
  have hMethod : s.program.method? method = some m := Program.methodDef_ok.mp hMethod
  obtain ⟨_, _, hGet, h⟩ := Step.bind_ok.mp h
  obtain ⟨rfl, rfl⟩ := Step.get_ok.mp hGet
  split at h
  · rename_i hVisit
    obtain ⟨hLive, hFree⟩ := Bool.and_eq_true_iff.mp hVisit
    obtain ⟨hUsed, -⟩ := Bool.and_eq_true_iff.mp hLive
    have hFree : s.bindings.isBound method = false := by
      change (!(s.bindings.isBound method)) = true at hFree
      simpa using hFree
    obtain ⟨places, _, hScan, h⟩ := Step.bind_ok.mp h
    obtain ⟨⟨b, hBody, rfl⟩, rfl⟩ := scan_ok.mp hScan
    obtain ⟨m', hMethod', hCode⟩ := Program.body_ok.mp hBody
    obtain rfl : m = m' := Option.some_inj.mp (hMethod.symm.trans hMethod')
    have hThere : s.program.liveBody? method = some b :=
      Program.liveBody?_eq_some.mpr ⟨m, hMethod, by simpa using hUsed, hCode⟩
    split at h
    · rename_i hPlaces
      have hSome : s.places b ≠ [] := by
        rintro hNone
        change (!(s.places b).isEmpty) = true at hPlaces
        simp [hNone] at hPlaces
      obtain ⟨handle, s₂, hHandle, h⟩ := Step.bind_ok.mp h
      obtain rfl := handleOf?_ok hHandle
      cases handle with
      | some handle => exact .adapted b hThere hFree hSome handle hHandle h
      | none =>
          obtain ⟨handle, s₃, hDisplay, h⟩ := Step.bind_ok.mp h
          cases handle with
          | some handle => exact .captured b hThere hFree hSome handle s₃ hHandle hDisplay h
          | none =>
              obtain rfl := displayHandle?_none hDisplay
              exact .bound b hThere hFree hSome hHandle h
    · rename_i hPlaces
      have hNone : s.places b = [] := by
        change ¬ (!(s.places b).isEmpty) = true at hPlaces
        simpa using hPlaces
      exact .settled b hThere hNone (Step.pure_ok.mp h).2
  · rename_i hVisit
    refine .skipped ?_ (Step.pure_ok.mp h).2
    by_cases hBound : s.bindings.isBound method = true
    · exact Or.inr hBound
    · left
      have hDead : m.isLive = false := by
        change ¬ (m.isLive && !(s.bindings.isBound method)) = true at hVisit
        simpa [hBound] using hVisit
      cases hLive : s.program.liveBody? method with
      | none => rfl
      | some b =>
          obtain ⟨m', hMethod', hUsed, hCode⟩ := Program.liveBody?_eq_some.mp hLive
          obtain rfl : m = m' := Option.some_inj.mp (hMethod.symm.trans hMethod')
          simp [MethodDef.isLive, hUsed, hCode] at hDead

/-- A method belongs to the group that changes together with it. -/
theorem bindingGroup_ok {method : MethodId} {withOverrides : Bool} {group : List MethodId}
    (h : bindingGroup method withOverrides s = .ok group t) : method ∈ group ∧ s = t := by
  obtain ⟨_, _, hGet, h⟩ := Step.bind_ok.mp h
  obtain ⟨rfl, rfl⟩ := Step.get_ok.mp hGet
  obtain ⟨hGroup, rfl⟩ := model_ok.mp h
  obtain ⟨found, hExplore, hPure⟩ := Outcome.bind_ok.mp hGroup
  obtain rfl := Outcome.pure_ok.mp hPure
  refine ⟨mem_ascending.mpr (mem_explore hExplore (Or.inr ⟨rfl, ?_⟩)), rfl⟩
  exact Nat.mul_pos (Nat.succ_pos _) (Nat.succ_pos _)

/-- Once bound, a method stays bound. -/
theorem isBound_of_advances {method : MethodId} (hBound : s.bindings.isBound method = true)
    (h : s.Advances t) : t.bindings.isBound method = true := by
  obtain ⟨b, hGet⟩ := Option.isSome_iff_exists.mp hBound
  exact Option.isSome_iff_exists.mpr ⟨b, h.bindings method b hGet⟩

theorem bindMethod_isBound {b : Binding} {u : Unit} (h : bindMethod b s = .ok u t) :
    t.bindings.isBound b.method = true := by
  obtain ⟨m, hBind, rfl⟩ := bindMethod_ok h
  exact Option.isSome_iff_exists.mpr ⟨b, (BindingMap.bind_ok hBind).2.1⟩

/-- Moving a method to a context binds it, unless it moved there before. -/
theorem convertOne_isBound {context : ContextId} {method : MethodId}
    {r : Option (MethodId × MethodId)} (h : convertOne context method s = .ok r t)
    (hKeyed : s.closures.Keyed) : t.bindings.isBound method = true := by
  obtain ⟨_, _, hGet, h⟩ := Step.bind_ok.mp h
  obtain ⟨rfl, rfl⟩ := Step.get_ok.mp hGet
  split at h
  · rename_i hMode
    obtain ⟨-, rfl⟩ := Step.pure_ok.mp h
    cases hBound : s.bindings.get? method with
    | none => simp [BindingMap.mode, hBound] at hMode
    | some b => exact Option.isSome_iff_exists.mpr ⟨b, hBound⟩
  · obtain ⟨made, s₁, hMade, h⟩ := Step.bind_ok.mp h
    obtain ⟨_, s₂, hBind, h⟩ := Step.bind_ok.mp h
    have hKeyed₁ := (advances_convertedReplacement hMade hKeyed).keyed
    have hKeyed₂ := (advances_bindMethod hBind hKeyed₁).keyed
    have hRest : Keeps Advanced (do
        adoptInitUnit context method made.1
        pure (some (method, made.1)) : Propagate (Option (MethodId × MethodId))) :=
      Keeps.bind advances_adoptInitUnit fun _ => Keeps.pure _
    have hLater : s₂.Advances t := by
      split at h
      · obtain ⟨copied, s₃, hCopy, h⟩ := Step.bind_ok.mp h
        obtain ⟨_, s₄, hEnqueue, h⟩ := Step.bind_ok.mp h
        have hCopied : Keeps Advanced (closures
            (ClosureEdit.relocateDisplayClasses made.1 (s.plan.context context).holder
              (s.plan.context context).generated)) :=
          advances_edited (S := fun _ => True)
            (keeps_closures (ClosureEdit.keeps_relocateDisplayClasses trivial))
        have h₃ := hCopied hCopy hKeyed₂
        have h₄ := (keeps_enqueue (S := fun _ => False) hEnqueue).advanced h₃.keyed
        exact (h₃.trans h₄).trans (hRest h h₄.keyed)
      · exact hRest h hKeyed₂
    exact isBound_of_advances (bindMethod_isBound hBind) hLater

theorem addParameterTo_isBound {method : MethodId} {r : Option (MethodId × MethodId)}
    (h : addParameterTo method s = .ok r t) : t.bindings.isBound method = true := by
  obtain ⟨_, _, hGet, h⟩ := Step.bind_ok.mp h
  obtain ⟨rfl, rfl⟩ := Step.get_ok.mp hGet
  split at h
  · rename_i hBound
    obtain ⟨-, rfl⟩ := Step.pure_ok.mp h
    exact hBound
  · obtain ⟨m, _, -, h⟩ := Step.bind_ok.mp h
    obtain ⟨p, _, -, h⟩ := Step.bind_ok.mp h
    have hRest {replacement : MethodId} {s₁ : Propagation} (h : (do
        bindMethod ⟨method, replacement, .addedParameter⟩
        pure (some (method, replacement)) : Propagate (Option (MethodId × MethodId))) s₁
          = .ok r t) : t.bindings.isBound method = true := by
      obtain ⟨_, _, hBind, h⟩ := Step.bind_ok.mp h
      obtain ⟨-, rfl⟩ := Step.pure_ok.mp h
      exact bindMethod_isBound hBind
    dsimp only at h
    cases hFound : p.findCopy? m.owner m.name (.named s.plan.root :: m.paramTypes) m.isStatic with
    | some existing =>
        simp only [hFound] at h
        obtain ⟨_, _, -, h⟩ := Step.bind_ok.mp h
        exact hRest h
    | none =>
        simp only [hFound] at h
        obtain ⟨_, _, -, h⟩ := Step.bind_ok.mp h
        exact hRest h

theorem convert_isBound {method : MethodId} {context : ContextId} {u : Unit}
    (h : convert method context s = .ok u t) (hKeyed : s.closures.Keyed) :
    t.bindings.isBound method = true := by
  obtain ⟨_, _, hGet, h⟩ := Step.bind_ok.mp h
  obtain ⟨rfl, rfl⟩ := Step.get_ok.mp hGet
  obtain ⟨group, _, hGroup, h⟩ := Step.bind_ok.mp h
  obtain ⟨hMem, rfl⟩ := bindingGroup_ok hGroup
  obtain ⟨made, s₁, hMade, h⟩ := Step.bind_ok.mp h
  obtain ⟨r, v, w, -, hBefore, hStep, hAfter⟩ :=
    Keeps.mapM_mem_ok (fun _ _ => advances_convertOne) hMade hMem
  have hKeyed₁ := (hBefore hKeyed).keyed
  have hStepped := advances_convertOne hStep hKeyed₁
  have hLater : Keeps Advanced (do
      (made.filterMap id).forM fun e =>
        alignProperty (some (s.plan.context context).generated) e.1 e.2
      complete (made.filterMap id)) :=
    Keeps.bind (Keeps.forM fun _ _ => advances_changed (S := fun _ => False) changes_alignProperty)
      fun _ => advances_complete
  have hEnd := hAfter hStepped.keyed
  exact isBound_of_advances (convertOne_isBound hStep hKeyed₁) (hEnd.trans (hLater h hEnd.keyed))

theorem addParameter_isBound {method : MethodId} {u : Unit}
    (h : addParameter method s = .ok u t) (hKeyed : s.closures.Keyed) :
    t.bindings.isBound method = true := by
  obtain ⟨group, _, hGroup, h⟩ := Step.bind_ok.mp h
  obtain ⟨hMem, rfl⟩ := bindingGroup_ok hGroup
  obtain ⟨_, s₁, hChecked, h⟩ := Step.bind_ok.mp h
  have hKeyed₁ := ((Keeps.forM (fun _ _ =>
    keeps_requireUnconverted (S := fun _ => False)) hChecked).advanced hKeyed).keyed
  obtain ⟨made, s₂, hMade, h⟩ := Step.bind_ok.mp h
  obtain ⟨r, v, w, -, hBefore, hStep, hAfter⟩ :=
    Keeps.mapM_mem_ok (fun _ _ => advances_addParameterTo) hMade hMem
  have hStepped := advances_addParameterTo hStep (hBefore hKeyed₁).keyed
  have hLater : Keeps Advanced (do
      (made.filterMap id).forM fun e => mapOverrides (made.filterMap id) e.2
      (made.filterMap id).forM fun e => alignProperty none e.1 e.2
      complete (made.filterMap id)) := by
    refine Keeps.bind (Keeps.forM fun _ _ => ?_) fun _ => Keeps.bind (Keeps.forM fun _ _ => ?_)
      fun _ => advances_complete
    · exact advances_changed (S := fun _ => False) changes_mapOverrides
    · exact advances_changed (S := fun _ => False) changes_alignProperty
  have hEnd := hAfter hStepped.keyed
  exact isBound_of_advances (addParameterTo_isBound hStep) (hEnd.trans (hLater h hEnd.keyed))

/-- A method that needs the root and does not reach it is bound then. -/
theorem bindNeedy_isBound {method : MethodId} {places : List NeedySite} {u : Unit}
    (h : bindNeedy method places s = .ok u t) (hKeyed : s.closures.Keyed) :
    t.bindings.isBound method = true := by
  obtain ⟨m, _, hModel, h⟩ := Step.bind_ok.mp h
  obtain ⟨-, rfl⟩ := model_ok.mp hModel
  obtain ⟨_, _, hGet, h⟩ := Step.bind_ok.mp h
  obtain ⟨rfl, rfl⟩ := Step.get_ok.mp hGet
  cases hHolder : s.plan.byHolder? m.owner with
  | some context =>
      simp only [hHolder] at h
      split at h
      · exact convert_isBound h hKeyed
      · exact addParameter_isBound h hKeyed
  | none =>
      simp only [hHolder] at h
      exact addParameter_isBound h hKeyed

end Propagate

end ContextBinding
