import ContextBinding.Proofs.History
import ContextBinding.Proofs.Skip

/-! What is left of a capture that was left alone. The search for a shape that
 can be adapted takes the cache of a callable out before it knows whether there
 is one, and does not put it back. -/

namespace ContextBinding

namespace Instruction

/-- Apply `f` to every instruction that the operand names. -/
def rename (f : InstrId → InstrId) (i : Instruction) : Instruction :=
  { i with operand := i.operand.mapTargets f }

theorem map_rename_self (code : List Instruction) : code.map (rename fun id => id) = code := by
  have hSame (i : Instruction) : i.rename (fun id => id) = i := by
    unfold rename Operand.mapTargets
    cases i with
    | mk id opcode operand => cases operand <;> simp
  exact (List.map_congr_left fun i _ => hSame i).trans (List.map_id code)

theorem rename_rename (f g : InstrId → InstrId) (i : Instruction) :
    (i.rename f).rename g = i.rename (g ∘ f) := by
  unfold rename Operand.mapTargets
  cases i with
  | mk id opcode operand => cases operand <;> simp

end Instruction

namespace MethodBody

variable {b b' b'' : MethodBody} {ids ids' : List InstrId}

/-- Take instructions out of code, one after the other. -/
def cutEach (ids : List InstrId) (code : List Instruction) : List Instruction :=
  ids.foldl (fun code id => code.eraseP fun i => i.id == id) code

theorem cutEach_map (f : InstrId → InstrId) (ids : List InstrId) (code : List Instruction) :
    cutEach ids (code.map (Instruction.rename f)) = (cutEach ids code).map (Instruction.rename f) := by
  induction ids generalizing code with
  | nil => rfl
  | cons id ids ih =>
      unfold cutEach at ih ⊢
      rw [List.foldl_cons, List.foldl_cons, List.eraseP_map, ih]
      rfl

theorem cutEach_subset (ids : List InstrId) (code : List Instruction) : cutEach ids code ⊆ code := by
  induction ids generalizing code with
  | nil => exact List.Subset.refl _
  | cons id ids ih =>
      exact fun _ hMem => List.eraseP_subset (ih (code.eraseP fun i => i.id == id) hMem)

/-- `b'` is `b` less the instructions in `ids`. All that changes in the rest are the names of
those. -/
structure Strips (ids : List InstrId) (b b' : MethodBody) : Prop where
  present : ∀ id ∈ ids, id ∈ b.ids
  code : ∃ f : InstrId → InstrId, (∀ id, id ∉ ids → f id = id) ∧
    b'.instructions = (cutEach ids b.instructions).map (Instruction.rename f) ∧
    b'.handlers = b.handlers.map (Handler.mapBoundaries f)
  locals : b'.locals = b.locals
  nextId : b'.nextId = b.nextId
  revision : b'.revision = b.revision + ids.length

namespace Strips

theorem refl (b : MethodBody) : Strips [] b b where
  present _ h := (List.not_mem_nil h).elim
  code := ⟨fun id => id, fun _ _ => rfl, (Instruction.map_rename_self _).symm, (List.map_id _).symm⟩
  locals := rfl
  nextId := rfl
  revision := rfl

theorem trans (h : Strips ids b b') (h' : Strips ids' b' b'') : Strips (ids ++ ids') b b'' := by
  obtain ⟨f, hOther, hCode, hHandlers⟩ := h.code
  obtain ⟨g, hOther', hCode', hHandlers'⟩ := h'.code
  have hIds : b'.ids ⊆ b.ids := by
    intro id hMem
    unfold MethodBody.ids at hMem ⊢
    rw [hCode, List.map_map] at hMem
    exact List.map_subset _ (cutEach_subset ids b.instructions) hMem
  refine ⟨fun id hMem => ?_, ⟨g ∘ f, fun id hNone => ?_, ?_, ?_⟩, h'.locals.trans h.locals,
    h'.nextId.trans h.nextId, ?_⟩
  · rcases List.mem_append.mp hMem with hMem | hMem
    · exact h.present id hMem
    · exact hIds (h'.present id hMem)
  · obtain ⟨hNone, hNone'⟩ := not_or.mp (mt List.mem_append.mpr hNone)
    rw [Function.comp_apply, hOther id hNone, hOther' id hNone']
  · have hCut : cutEach (ids ++ ids') b.instructions = cutEach ids' (cutEach ids b.instructions) :=
      List.foldl_append
    rw [hCode', hCode, hCut, cutEach_map, List.map_map]
    exact List.map_congr_left fun i _ => Instruction.rename_rename f g i
  · rw [hHandlers', hHandlers, List.map_map]
    rfl
  · rw [h'.revision, h.revision, List.length_append, Nat.add_assoc]

/-- Taking one instruction out. What named it names the one after it. -/
theorem of_remove {id : InstrId} {i : Instruction} (h : remove id b = .ok i b') :
    Strips [id] b b' := by
  unfold remove at h
  obtain ⟨position, _, hRequire, h⟩ := Step.bind_ok.mp h
  obtain ⟨hPosition, rfl⟩ := require_ok.mp hRequire
  obtain ⟨_, _, hGet, h⟩ := Step.bind_ok.mp h
  obtain ⟨rfl, rfl⟩ := Step.get_ok.mp hGet
  have hPresent : ∀ other ∈ [id], other ∈ b.ids := by
    intro other hMem
    obtain rfl := List.mem_singleton.mp hMem
    obtain ⟨hBound, hFound, -⟩ := List.findIdx?_eq_some_iff_getElem.mp hPosition
    exact List.mem_map.mpr ⟨_, List.getElem_mem hBound, by simpa using hFound⟩
  have hErase : b.instructions.eraseIdx position = cutEach [id] b.instructions := by
    simp only [cutEach, List.foldl_cons, List.foldl_nil]
    rw [List.eraseP_eq_eraseIdx]
    rw [MethodBody.position?] at hPosition
    rw [hPosition]
  cases hNext : b.at? (position + 1) with
  | some next =>
      simp only [hNext, Step.bind_ok, Step.set_ok, Step.pure_ok] at h
      obtain ⟨_, _, rfl, -, rfl⟩ := h
      refine ⟨hPresent, ⟨fun other => if other = id then next.id else other, fun other hOther =>
        if_neg fun hSame => hOther (List.mem_singleton.mpr hSame), ?_, rfl⟩, rfl, rfl, rfl⟩
      rw [← hErase]
      exact List.eraseIdx_map ..
  | none =>
      simp only [hNext] at h
      split at h
      · exact (Step.throw_ok.mp h).elim
      · simp only [Step.bind_ok, Step.set_ok, Step.pure_ok] at h
        obtain ⟨_, _, rfl, -, rfl⟩ := h
        refine ⟨hPresent, ⟨fun other => other, fun _ _ => rfl, ?_, (List.map_id _).symm⟩, rfl, rfl,
          rfl⟩
        rw [Instruction.map_rename_self]
        exact hErase

theorem of_removeEach {u : PUnit}
    (h : (ids.forM fun id => do let _ ← remove id : BodyEdit PUnit) b = .ok u b') :
    Strips ids b b' := by
  induction ids generalizing b with
  | nil =>
      obtain ⟨-, rfl⟩ := Step.pure_ok.mp h
      exact .refl b
  | cons id ids ih =>
      obtain ⟨_, _, hFirst, hRest⟩ := Step.bind_ok.mp h
      obtain ⟨_, _, hRemove, hEnd⟩ := Step.bind_ok.mp hFirst
      obtain ⟨-, rfl⟩ := Step.pure_ok.mp hEnd
      exact (of_remove hRemove).trans (ih hRest)

end Strips

/-- What the code around a construction consists of that keeps its result. -/
theorem cacheAround?_opcodes {start construct : InstrId} (h : b.cacheAround? start construct = some ids) :
    ids.map (fun id => (b.get? id).map (·.opcode)) =
      [.stsfld, .dup, .ldsfld, .dup, .brtrue, .pop].map some := by
  have hOp {op : OpCode} {id : InstrId} (hIs : ((b.get? id).any fun i => i.opcode == op) = true) :
      (b.get? id).map (·.opcode) = some op := by
    obtain ⟨i, hGet, hSame⟩ := (Option.any_eq_true ..).mp hIs
    rw [hGet, Option.map_some, beq_iff_eq.mp hSame]
  unfold cacheAround? at h
  simp only [Option.bind_eq_bind, Option.bind_eq_some_iff] at h
  obtain ⟨dupAfter, -, store, -, resume, -, pop, -, branch, -, dupBefore, -, load, -, _, -, _, -, _, -,
    h⟩ := h
  split at h
  · rename_i hShape
    simp only [Bool.and_eq_true] at hShape
    obtain ⟨⟨⟨⟨⟨⟨⟨hAfter, hStore⟩, hPop⟩, hBranch⟩, -⟩, hBefore⟩, hLoad⟩, -⟩ := hShape
    obtain rfl := Option.some_inj.mp h
    simp only [List.map_cons, List.map_nil, hOp hAfter, hOp hStore, hOp hPop, hOp hBranch,
      hOp hBefore, hOp hLoad]
  · cases h

end MethodBody

namespace ClosureEdit

/-- The step asks questions only. -/
def Asks (s t : Closures × Workspace) : Prop := t.1 = s.1 ∧ t.2.program = s.2.program

instance : IsPreorder (Closures × Workspace) Asks where
  refl _ := ⟨rfl, rfl⟩
  trans _ _ _ h h' := ⟨h'.1.trans h.1, h'.2.trans h.2⟩

/-- A capture is counted as left alone, where that is allowed. -/
def Refuses (s t : Closures × Workspace) : Prop :=
  s.1.strict = false ∧ t.1 = { s.1 with skipped := s.1.skipped + 1 } ∧ t.2.program = s.2.program

variable {s t : Closures × Workspace}

theorem Asks.refuses {u : Closures × Workspace} (h : Asks s u) (h' : Refuses u t) : Refuses s t := by
  obtain ⟨hClosures, hProgram⟩ := h
  obtain ⟨hStrict, hSkipped, hSame⟩ := h'
  exact ⟨hClosures ▸ hStrict, hClosures ▸ hSkipped, hSame.trans hProgram⟩

theorem asks_query {α : Type} {question : Program → Query α} :
    Keeps Asks (work (CodeEdit.query question)) := by
  intro s a t h
  obtain ⟨w, hQuery, rfl⟩ := work_ok.mp h
  obtain ⟨flow, -, rfl⟩ := CodeEdit.query_ok.mp hQuery
  exact ⟨rfl, rfl⟩

theorem model_ok {α : Type} {f : Program → Except ModelError α} {a : α}
    (h : work (CodeEdit.model f) s = .ok a t) : f s.2.program = .ok a ∧ s = t := by
  obtain ⟨w, hModel, rfl⟩ := work_ok.mp h
  obtain ⟨hOk, rfl⟩ := CodeEdit.model_ok.mp hModel
  exact ⟨hOk, rfl⟩

theorem asks_model {α : Type} {f : Program → Except ModelError α} :
    Keeps Asks (work (CodeEdit.model f)) :=
  fun s _ _ h => (model_ok h).2 ▸ refl s

theorem asks_program : Keeps Asks program := by
  intro s p t h
  obtain ⟨w, hProgram, rfl⟩ := work_ok.mp h
  obtain ⟨-, rfl⟩ := CodeEdit.program_ok.mp hProgram
  exact ⟨rfl, rfl⟩

theorem asks_constructionOf? {method : MethodId} {pointer : InstrId} :
    Keeps Asks (constructionOf? method pointer) := by
  refine Keeps.bind asks_query fun uses => ?_
  split
  · refine Keeps.ite (Keeps.bind asks_model fun i => Keeps.bind asks_program fun p => ?_) (Keeps.pure _)
    exact Keeps.ite (Keeps.pure _) (Keeps.pure _)
  · exact Keeps.pure _

theorem unrecognized_refuses {method : MethodId} {id : InstrId} {defect : CallableDefect}
    {outcome : CaptureOutcome} (h : unrecognized method id defect s = .ok outcome t) :
    Refuses s t := by
  obtain ⟨c, _, hClosures, h⟩ := Step.bind_ok.mp h
  obtain ⟨rfl, rfl⟩ := closures_ok.mp hClosures
  split at h
  · obtain ⟨_, _, -, h⟩ := Step.bind_ok.mp h
    exact (Step.throw_ok.mp h).elim
  · rename_i hStrict
    obtain ⟨_, _, hUpdate, h⟩ := Step.bind_ok.mp h
    obtain rfl := update_ok.mp hUpdate
    obtain ⟨-, rfl⟩ := Step.pure_ok.mp h
    exact ⟨by simpa using hStrict, rfl, rfl⟩

/-- The cache around a construction, if there is one. -/
def cacheAt? (method : MethodId) (construct : InstrId) :
    ClosureEdit (Option (List InstrId)) := do
  match ← receiverPaths method construct with
  | [path] =>
    let b ← work (CodeEdit.model fun p => p.body method)
    pure (path.start?.bind fun start => b.cacheAround? start construct)
  | _ => pure none

/-- The cache of the callable that is made from the function pointer at `pointer`, if there
is one. -/
def cacheOf? (method : MethodId) (pointer : InstrId) : ClosureEdit (Option (List InstrId)) := do
  match ← constructionOf? method pointer with
  | some construct => cacheAt? method construct
  | none => pure none

/-- Taking out a cache is looking for it, and an edit of the code where there is one. -/
theorem expandCache_ok {method : MethodId} {construct : InstrId} {u : Unit}
    (h : expandCache method construct s = .ok u t) :
    ∃ cache v, cacheAt? method construct s = .ok cache v ∧ Asks s v ∧
      match cache with
      | none => v = t
      | some ids => ∃ m b b', v.2.program.method? method = some m ∧ m.body = some b ∧
          ids.map (fun id => (b.get? id).map (·.opcode)) =
            [.stsfld, .dup, .ldsfld, .dup, .brtrue, .pop].map some ∧
          b.Strips ids b' ∧ t = (v.1, { v.2 with program := v.2.program.touch.putBody method b' }) := by
  obtain ⟨paths, v, hPaths, h⟩ := Step.bind_ok.mp h
  have hAsks : Asks s v := asks_query hPaths
  match paths, hPaths, h with
  | [path], hPaths, h =>
    obtain ⟨b, _, hBody, h⟩ := Step.bind_ok.mp h
    obtain ⟨hCode, rfl⟩ := model_ok hBody
    have hCache : cacheAt? method construct s
        = .ok (path.start?.bind fun start => b.cacheAround? start construct) v :=
      Step.bind_ok.mpr ⟨_, v, hPaths, Step.bind_ok.mpr ⟨b, v, hBody, rfl⟩⟩
    refine ⟨_, v, hCache, hAsks, ?_⟩
    cases hFound : path.start?.bind fun start => b.cacheAround? start construct with
    | some ids =>
      simp only [hFound] at h
      obtain ⟨p, hEdit, rfl⟩ := edit_ok.mp h
      obtain ⟨m, b₀, b', hMethod, hBody₀, hRemove, rfl⟩ := Program.editBody_ok hEdit
      have hSame := hCode.symm.trans (Program.body_ok.mpr ⟨m, hMethod, hBody₀⟩)
      obtain rfl : b = b₀ := Except.ok.inj hSame
      obtain ⟨start, -, hAround⟩ := Option.bind_eq_some_iff.mp hFound
      exact ⟨m, b, b', hMethod, hBody₀, b.cacheAround?_opcodes hAround, .of_removeEach hRemove, rfl⟩
    | none =>
      simp only [hFound] at h
      exact (Step.pure_ok.mp h).2
  | [], hPaths, h =>
    exact ⟨none, v, Step.bind_ok.mpr ⟨_, v, hPaths, rfl⟩, hAsks, (Step.pure_ok.mp h).2⟩
  | _ :: _ :: _, hPaths, h =>
    exact ⟨none, v, Step.bind_ok.mpr ⟨_, v, hPaths, rfl⟩, hAsks, (Step.pure_ok.mp h).2⟩

/-- No outcome of the step is that a capture is left alone. -/
def NeverSkips (x : ClosureEdit CaptureOutcome) : Prop := ∀ s t, x s ≠ .ok .skipped t

theorem NeverSkips.after {α : Type} {x : ClosureEdit α} {f : α → ClosureEdit CaptureOutcome}
    (hf : ∀ a, NeverSkips (f a)) : NeverSkips (x >>= f) := by
  intro s t h
  obtain ⟨a, u, -, h⟩ := Step.bind_ok.mp h
  exact hf a u t h

theorem NeverSkips.redirected : NeverSkips (pure .redirected) := by
  intro s t h
  cases (Step.pure_ok.mp h).1

theorem NeverSkips.redirect {method target : MethodId} {pointer : InstrId} {seq : List Instruction} :
    NeverSkips (redirect method pointer seq target) :=
  .after fun _ => .redirected

theorem NeverSkips.refuses {x : ClosureEdit CaptureOutcome} (h : NeverSkips x) :
    KeepsOn Refuses (· = .skipped) x :=
  fun s _ t hRun hSkipped => (h s t (hSkipped ▸ hRun)).elim

theorem refuses_after {α : Type} {x : ClosureEdit α} {f : α → ClosureEdit CaptureOutcome}
    (hx : Keeps Asks x) (hf : ∀ a, KeepsOn Refuses (· = .skipped) (f a)) :
    KeepsOn Refuses (· = .skipped) (x >>= f) := by
  intro s outcome t h hSkipped
  obtain ⟨a, u, hAsk, h⟩ := Step.bind_ok.mp h
  exact (hx hAsk).refuses (hf a h hSkipped)

theorem refuses_unrecognized {method : MethodId} {id : InstrId} {defect : CallableDefect} :
    KeepsOn Refuses (· = .skipped) (unrecognized method id defect) :=
  fun _ _ _ h _ => unrecognized_refuses h

/-- A capture that was left alone is counted, and the program is as it was unless the callable was
kept in a cache. The cache is gone then: its six instructions are taken out of the code, where the
rest names others in their place. -/
theorem refused_program {plan : ContextPlan} {site : RootedMethod} {pointer : InstrId} {b : Binding}
    (h : adaptCapture plan site pointer b s = .ok .skipped t) :
    s.1.strict = false ∧ t.1 = { s.1 with skipped := s.1.skipped + 1 } ∧
      ∃ cache u, cacheOf? site.method pointer s = .ok cache u ∧
        (t.2.program = s.2.program ↔ cache = none) ∧
        ∀ ids, cache = some ids → ∃ m body body',
          s.2.program.method? site.method = some m ∧ m.body = some body ∧
          ids.map (fun id => (body.get? id).map (·.opcode)) =
            [.stsfld, .dup, .ldsfld, .dup, .brtrue, .pop].map some ∧
          body.Strips ids body' ∧
          t.2.program = s.2.program.touch.putBody site.method body' := by
  obtain ⟨i, _, hInstr, h⟩ := Step.bind_ok.mp h
  obtain ⟨-, rfl⟩ := model_ok hInstr
  obtain ⟨found, v, hFound, h⟩ := Step.bind_ok.mp h
  have hAsked : Asks s v := asks_constructionOf? hFound
  cases found with
  | none =>
    obtain ⟨hStrict, hCounted, hSame⟩ := hAsked.refuses (unrecognized_refuses h)
    exact ⟨hStrict, hCounted, none, v, Step.bind_ok.mpr ⟨none, v, hFound, rfl⟩,
      iff_of_true hSame rfl, nofun⟩
  | some construct =>
    obtain ⟨_, w, hExpand, h⟩ := Step.bind_ok.mp h
    have hRefuses : Refuses w t := by
      refine (?_ : KeepsOn Refuses (· = .skipped) _) h rfl
      refine refuses_after asks_query fun receiver => refuses_after asks_model fun code => ?_
      dsimp only
      split
      · exact (NeverSkips.after fun _ => .redirect).refuses
      · exact (NeverSkips.after fun _ => .redirect).refuses
      · exact (NeverSkips.after fun _ => .after fun _ => .redirect).refuses
      · exact (NeverSkips.after fun _ => .after fun _ => .after fun _ => .redirected).refuses
      · exact refuses_unrecognized
      · exact refuses_unrecognized
    obtain ⟨cache, x, hCache, hLooked, hDone⟩ := expandCache_ok hExpand
    have hCacheOf : cacheOf? site.method pointer s = .ok cache x :=
      Step.bind_ok.mpr ⟨_, v, hFound, hCache⟩
    obtain ⟨hClosures, hProgram⟩ : Asks s x := IsTrans.trans _ _ _ hAsked hLooked
    obtain ⟨hStrict, hCounted, hSame⟩ := hRefuses
    cases cache with
    | none =>
      obtain rfl : x = w := hDone
      exact ⟨hClosures ▸ hStrict, hClosures ▸ hCounted, none, x, hCacheOf,
        iff_of_true (hSame.trans hProgram) rfl, nofun⟩
    | some ids =>
      obtain ⟨m, body, body', hMethod, hBody, hOpcodes, hStrips, rfl⟩ := hDone
      have hProgram' : t.2.program = s.2.program.touch.putBody site.method body' := hProgram ▸ hSame
      refine ⟨hClosures ▸ hStrict, hClosures ▸ hCounted, some ids, x, hCacheOf,
        iff_of_false (fun hKept => ?_) nofun, fun _ hIds => ?_⟩
      · have hEdits := congrArg Program.edits (hProgram'.symm.trans hKept)
        exact Nat.succ_ne_self _ hEdits
      · obtain rfl := Option.some_inj.mp hIds
        exact ⟨m, body, body', hProgram ▸ hMethod, hBody, hOpcodes, hStrips, hProgram'⟩

end ClosureEdit

section Examples

open ClosureEdit

/-- A method keeps the callable of another one in a static field. The other one moved to a context,
and the callable is given a receiver. -/
def keptCallable : Edit ContextPlan := do
  let util ← Program.addType "G" "Util" none ⟨0⟩
  let action ← Program.addType "G" "Action" none (.ofList [.delegate])
  let kept ← Program.addField util "kept" (.named action) (.ofList [.static])
  let constructor ← Program.addMethod action ".ctor" [⟨"object", .object⟩, ⟨"method", .nativeInt⟩]
    .void (.ofList [.constructor])
  let invoke ← Program.addMethod action "Invoke" [] .void (.ofList [.virtual])
  let target ← Program.addMethod util "Target" [⟨"item", .object⟩] .void (.ofList [.static])
  let user ← Program.addMethod util "User" [⟨"context", .named util⟩, ⟨"item", .object⟩] .void
    (.ofList [.static])
  Program.setBody target (.fresh [.plain .ret])
  Program.setBody user (.fresh [.onField .ldsfld kept, .plain .dup, .unplaced .brtrue (.target ⟨9⟩),
    .plain .pop, .onArg .ldarg 1, .onMethod .ldftn target, .onMethod .newobj constructor, .plain .dup,
    .onField .stsfld kept, .onMethod .callvirt invoke, .plain .ret])
  pure default

/-- The state in which the capture is met. -/
def keptState : Closures × Workspace :=
  (.ofProgram (built keptCallable).1 ⟨0⟩ false, ⟨(built keptCallable).1, .empty⟩)

/-- The capture is met while captures may be left alone. -/
def adaptKept : EStateM.Result Error (Closures × Workspace) CaptureOutcome :=
  adaptCapture default ⟨⟨3⟩, .parameter 0⟩ ⟨5⟩ ⟨⟨2⟩, ⟨2⟩, .instanceConverted ⟨0⟩⟩ keptState

/-- The capture is left alone, and the code that kept the callable is gone. -/
theorem keptCallable_lost :
    ∃ t, adaptKept = .ok .skipped t ∧
      (keptState.2.program.body ⟨3⟩).toOption.map (·.opcodes) = some [.ldsfld, .dup, .brtrue, .pop,
        .ldarg, .ldftn, .newobj, .dup, .stsfld, .callvirt, .ret] ∧
      (t.2.program.body ⟨3⟩).toOption.map (·.opcodes)
        = some [.ldarg, .ldftn, .newobj, .callvirt, .ret] := by
  obtain ⟨outcome, t, hRun, hCheck⟩ := Step.ok_of_yields (r := adaptKept)
    (c := fun outcome t => outcome = .skipped ∧ (t.2.program.body ⟨3⟩).toOption.map (·.opcodes)
      = some [.ldarg, .ldftn, .newobj, .callvirt, .ret]) (by decide +kernel)
  obtain ⟨rfl, hLost⟩ := of_decide_eq_true hCheck
  exact ⟨t, hRun, by decide +kernel, hLost⟩

/-- The six instructions around the construction are taken out, and nothing else. -/
theorem keptCallable_stripped :
    ∃ t u m body body', adaptKept = .ok .skipped t ∧
      cacheOf? ⟨3⟩ ⟨5⟩ keptState = .ok (some [⟨8⟩, ⟨7⟩, ⟨0⟩, ⟨1⟩, ⟨2⟩, ⟨3⟩]) u ∧
      keptState.2.program.method? ⟨3⟩ = some m ∧ m.body = some body ∧
      body.Strips [⟨8⟩, ⟨7⟩, ⟨0⟩, ⟨1⟩, ⟨2⟩, ⟨3⟩] body' ∧
      t.2.program = keptState.2.program.touch.putBody ⟨3⟩ body' ∧
      t.2.program ≠ keptState.2.program := by
  obtain ⟨outcome, t, hRun, hSkipped⟩ := Step.ok_of_yields (r := adaptKept)
    (c := fun outcome _ => outcome = .skipped) (by decide +kernel)
  obtain rfl := of_decide_eq_true hSkipped
  obtain ⟨cache', u', hCache', hFound⟩ := Step.ok_of_yields (r := cacheOf? ⟨3⟩ ⟨5⟩ keptState)
    (c := fun cache _ => cache = some [⟨8⟩, ⟨7⟩, ⟨0⟩, ⟨1⟩, ⟨2⟩, ⟨3⟩]) (by decide +kernel)
  obtain rfl := of_decide_eq_true hFound
  obtain ⟨-, -, cache, u, hCache, hSame, hStripped⟩ := refused_program hRun
  obtain ⟨rfl, rfl⟩ := EStateM.Result.ok.inj (hCache'.symm.trans hCache)
  obtain ⟨m, body, body', hMethod, hBody, -, hStrips, hProgram⟩ := hStripped _ rfl
  exact ⟨t, u', m, body, body', hRun, hCache', hMethod, hBody, hStrips, hProgram,
    fun hKept => Option.some_ne_none _ (hSame.mp hKept)⟩

end Examples

end ContextBinding
