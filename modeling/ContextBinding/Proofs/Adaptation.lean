import ContextBinding.Proofs.Visit

/-! What adapting a method does to its code. Every place that is adapted goes, and
 what is put in names no static field, and no method but those that stand in for
 others and those of capture records. -/

namespace ContextBinding

/-- The static field that a load, a store or the taking of an address names. -/
def Instruction.access? (i : Instruction) : Option FieldId :=
  match i.opcode with
  | .ldsfld | .ldsflda | .stsfld => i.field?
  | _ => none

theorem Instruction.access?_eq_some {i : Instruction} {field : FieldId} : i.access? = some field ↔
    (i.opcode = .ldsfld ∨ i.opcode = .ldsflda ∨ i.opcode = .stsfld) ∧ i.field? = some field := by
  unfold access?
  cases i.opcode <;> simp

namespace NeedySite

variable {plan : ContextPlan} {bindings : BindingMap} {closures : Closures} {p : Program}
  {b : MethodBody} {i : Instruction}

/-- An instruction that needs no more than a store after it names no bound method, and accesses
no static field that moved and no instance that was taken over. -/
theorem free_of_needOf?
    (h : ∀ need, needOf? plan bindings closures p b i = some need →
      ∃ field, need = .displayStore field) :
    (∀ target, i.reference? = some target → bindings.get? target = none) ∧
      ∀ field, i.access? = some field → plan.movedField? field = none ∧
        (i.opcode = .ldsfld → plan.singletonOf? field = none) := by
  unfold needOf? at h
  constructor
  · intro target hName
    cases hGet : bindings.get? target with
    | none => rfl
    | some c =>
        unfold Instruction.reference? at hName
        exfalso
        cases hOpcode : i.opcode <;> simp only [hOpcode, reduceCtorEq] at h hName
        case call | callvirt | newobj =>
          rw [hName, Option.bind_some, ofCall?, hGet] at h
          obtain ⟨field, hNeed⟩ := h _ rfl
          cases hNeed
        case ldftn | ldvirtftn =>
          rw [hName, Option.bind_some, hGet, Option.map_some] at h
          obtain ⟨field, hNeed⟩ := h _ rfl
          cases hNeed
  · intro field hField
    unfold Instruction.access? at hField
    have hFree (hNone : ofFieldAccess? plan i.opcode field = none) :
        plan.movedField? field = none ∧ (i.opcode = .ldsfld → plan.singletonOf? field = none) := by
      unfold ofFieldAccess? at hNone
      split at hNone
      · cases hNone
      · rename_i hMoved
        refine ⟨hMoved, fun hLoad => ?_⟩
        rw [if_pos hLoad] at hNone
        exact Option.map_eq_none_iff.mp hNone
    apply hFree
    by_contra hSome
    obtain ⟨need, hNeed⟩ := Option.ne_none_iff_exists'.mp hSome
    have hStore : ∃ root, need = .displayStore root := by
      cases hOpcode : i.opcode <;> simp only [hOpcode, reduceCtorEq] at h hField
      case ldsfld | ldsflda | stsfld =>
        rw [hField, Option.bind_some, ← hOpcode, hNeed] at h
        exact h need rfl
    obtain ⟨root, rfl⟩ := hStore
    unfold ofFieldAccess? at hNeed
    split at hNeed
    · cases hNeed
    · split at hNeed
      · obtain ⟨_, -, hNeed⟩ := Option.map_eq_some_iff.mp hNeed
        cases hNeed
      · cases hNeed

end NeedySite

/-- The contents of code that may be put in while `P` tells the methods that stand in
for others. -/
structure Closures.Tame (P : MethodId → Prop) (c : Closures)
    (gist : OpCode × Option FieldId × Option MethodId) : Prop where
  access : gist.1 = .ldsfld ∨ gist.1 = .ldsflda ∨ gist.1 = .stsfld → gist.2.1 = none
  target : ∀ method, gist.2.2 = some method → P method ∨ c.Serves method

namespace Closures.Tame

variable {P : MethodId → Prop} {c c' : Closures} {opcode : OpCode}

theorem learns (h : c.Learns c') {gist : OpCode × Option FieldId × Option MethodId}
    (hTame : c.Tame P gist) : c'.Tame P gist :=
  ⟨hTame.access, fun method hMethod => (hTame.target method hMethod).imp_right (h.serves method)⟩

theorem plain : c.Tame P (opcode, none, none) :=
  ⟨fun _ => rfl, fun _ h => nomatch h⟩

theorem onField {field : FieldId} (h : opcode = .ldfld ∨ opcode = .ldflda ∨ opcode = .stfld) :
    c.Tame P (opcode, some field, none) := by
  refine ⟨fun hAccess => ?_, fun _ h => nomatch h⟩
  rcases h with rfl | rfl | rfl <;> simp at hAccess

theorem onMethod {method : MethodId} (h : P method ∨ c.Serves method) :
    c.Tame P (opcode, none, some method) :=
  ⟨fun _ => rfl, fun _ hMethod => Option.some_inj.mp hMethod ▸ h⟩

/-- The code that leads to the root is tame. -/
theorem of_loadRoot {source : HandleSource} {p : Program} {method : MethodId}
    {code : List Instruction} (h : source.loadRoot p method = .ok code) :
    ∀ i ∈ code, c.Tame P i.gist := by
  have hArg (index : Nat) : c.Tame P (Instruction.onArg .ldarg index).gist := plain
  have hField (field : FieldId) : c.Tame P (Instruction.onField .ldfld field).gist :=
    onField (Or.inl rfl)
  unfold HandleSource.loadRoot at h
  split at h
  · obtain rfl := Except.ok.inj h
    simpa using hArg _
  · obtain rfl := Except.ok.inj h
    simpa using hArg 0
  · obtain rfl := Except.ok.inj h
    simpa using ⟨hArg 0, hField _⟩
  · obtain rfl := Except.ok.inj h
    simpa using ⟨hArg 0, hField _⟩
  · cases h

/-- The code that leads to a context is tame. -/
theorem of_loadContext {source : HandleSource} {p : Program} {plan : ContextPlan}
    {method : MethodId} {context : ContextId} {need : ChainAccess} {code : List Instruction}
    (h : source.loadContext p plan method context need = .ok code) :
    ∀ i ∈ code, c.Tame P i.gist := by
  unfold HandleSource.loadContext at h
  obtain ⟨⟨start, links⟩, hStart, h⟩ := Outcome.bind_ok.mp h
  obtain ⟨follow, hFollow, h⟩ := Outcome.bind_ok.mp h
  obtain rfl := Outcome.pure_ok.mp h
  have hFirst : ∀ i ∈ start, c.Tame P i.gist := by
    have hRoot (target : ContextDescriptor) (h : (do
        pure (← source.loadRoot p method, target.chain) : Except BindingError _)
          = .ok (start, links)) : ∀ i ∈ start, c.Tame P i.gist := by
      obtain ⟨root, hLoad, hPair⟩ := Outcome.bind_ok.mp h
      obtain ⟨rfl, -⟩ := Prod.mk.inj (Outcome.pure_ok.mp hPair)
      exact of_loadRoot hLoad
    unfold HandleSource.chainStart at hStart
    split at hStart
    · dsimp only at hStart
      split at hStart
      · obtain ⟨rfl, -⟩ := Prod.mk.inj (Outcome.pure_ok.mp hStart)
        have hThis : c.Tame P (Instruction.onArg .ldarg 0).gist := plain
        simpa using hThis
      · exact hRoot _ hStart
    · exact hRoot _ hStart
  have hLinks : ∀ i ∈ follow, c.Tame P i.gist := by
    intro i hMem
    obtain ⟨link, -, hLink⟩ := Outcome.mem_mapM_ok hFollow hMem
    unfold HandleSource.followLink at hLink
    split at hLink
    · cases hLink
    · split at hLink
      · split at hLink
        · cases hLink
        · obtain rfl := Except.ok.inj hLink
          exact onField (Or.inr (Or.inl rfl))
      · obtain rfl := Except.ok.inj hLink
        exact onField (Or.inl rfl)
  intro i hMem
  exact (List.mem_append.mp hMem).elim (hFirst i) (hLinks i)

end Closures.Tame

/-- Numbered code of a method is reworked by a change of the program. -/
def Program.Reworks (id : MethodId) (D : InstrId → Prop)
    (N : OpCode × Option FieldId × Option MethodId → Prop) (p q : Program) : Prop :=
  ∀ b, p.body id = .ok b → b.Numbered → ∃ b', q.body id = .ok b' ∧ b.Reworked D N b'

namespace Program

variable {id : MethodId} {D : InstrId → Prop} {p q r : Program}
  {N : OpCode × Option FieldId × Option MethodId → Prop}

theorem Reworks.trans {D' : InstrId → Prop} (h : Reworks id D N p q) (h' : Reworks id D' N q r) :
    Reworks id (fun i => D i ∨ D' i) N p r := by
  intro b hBody hNumbered
  obtain ⟨b', hBody', hFirst⟩ := h b hBody hNumbered
  obtain ⟨b'', hBody'', hSecond⟩ := h' b' hBody' hFirst.numbered
  exact ⟨b'', hBody'', hFirst.trans hSecond⟩

theorem Reworks.mono {D' : InstrId → Prop} {N' : OpCode × Option FieldId × Option MethodId → Prop}
    (hD : ∀ i, D i ↔ D' i) (hN : ∀ gist, N gist → N' gist) (h : Reworks id D N p q) :
    Reworks id D' N' p q := by
  intro b hBody hNumbered
  obtain ⟨b', hBody', hReworked⟩ := h b hBody hNumbered
  exact ⟨b', hBody', hReworked.mono hD hN⟩

/-- Code that stays is reworked, with nothing dropped. -/
theorem Reworks.of_body (h : ∀ b, p.body id = .ok b → q.body id = .ok b) :
    Reworks id (fun _ => False) N p q :=
  fun b hBody hNumbered =>
    ⟨b, h b hBody, (refl (r := MethodBody.Reworks (fun _ => False) N) b hNumbered).1⟩

instance : IsPreorder Program (Reworks id (fun _ => False) N) where
  refl _ := .of_body fun _ h => h
  trans _ _ _ h h' := (h.trans h').mono (by simp) fun _ h => h

/-- The edited code is that of the method from then on. -/
theorem body_of_editBody {α : Type} {e : BodyEdit α} {a : α} (h : editBody id e p = .ok a q) :
    ∃ b b', p.body id = .ok b ∧ e b = .ok a b' ∧ q.body id = .ok b' := by
  obtain ⟨m, b, b', hMethod, hCode, hEdit, rfl⟩ := editBody_ok h
  exact ⟨b, b', body_ok.mpr ⟨m, hMethod, hCode⟩, hEdit, body_putBody (p := p.touch) hMethod⟩

/-- A body that is set is that of the method from then on. -/
theorem body_of_setBody {p q : Program} {id : MethodId} {b : MethodBody} {u : Unit}
    (h : setBody id b p = .ok u q) : q.body id = .ok b := by
  obtain ⟨⟨m, hMethod⟩, rfl⟩ := modifyMethod_ok h
  exact body_putBody (p := p.touch) hMethod

/-- Editing the code of a method reworks it as the edit does. -/
theorem reworks_editBody {α : Type} {e : BodyEdit α} (he : Keeps (MethodBody.Reworks D N) e) :
    Keeps (Reworks id D N) (editBody id e) := by
  intro p a q h b hBody hNumbered
  obtain ⟨b₀, b', hBefore, hEdit, hAfter⟩ := body_of_editBody h
  obtain rfl : b₀ = b := Except.ok.inj (hBefore.symm.trans hBody)
  exact ⟨b', hAfter, (he hEdit hNumbered).1⟩

/-- A change that is confined to nothing leaves all code as it is. -/
theorem Confined.body {S : MethodId → Prop} {N : TypeId → Prop} (h : Confined S N p q)
    (hOther : ¬ S id) {b : MethodBody} (hBody : p.body id = .ok b) : q.body id = .ok b := by
  obtain ⟨m, hMethod, hCode⟩ := body_ok.mp hBody
  obtain ⟨m', hMethod', -⟩ := h.grows.method hMethod
  have hSame := (h.sameBody hMethod hMethod').resolve_right hOther
  exact body_ok.mpr ⟨m', hMethod', hSame.trans hCode⟩

end Program

namespace CodeEdit

variable {id : InstrId} {slot : Nat} {seq : List Instruction} {method : MethodId}
  {N : OpCode × Option FieldId × Option MethodId → Prop}

/-- Inserting a value beneath operands drops nothing. -/
theorem reworks_insertBelow (hN : ∀ i ∈ seq, N i.gist) (hStore : N (.stloc, none, none))
    (hLoad : N (.ldloc, none, none)) :
    Keeps (fun w w' => w.program.Reworks method (fun _ => False) N w'.program)
      (insertBelow method id slot seq) := by
  let R (w w' : Workspace) : Prop := w.program.Reworks method (fun _ => False) N w'.program
  have : IsPreorder Workspace R :=
    { refl := fun w => refl (r := Program.Reworks method (fun _ => False) N) w.program
      trans := fun _ _ _ h h' => IsTrans.trans (r := Program.Reworks method _ N) _ _ _ h h' }
  have hReads {α : Type} {question : Program → Query α} : Keeps R (query question) := by
    intro w a w' h
    obtain ⟨flow, -, rfl⟩ := query_ok.mp h
    exact refl (r := R) w
  have hEdit {α : Type} {e : BodyEdit α} (he : Keeps (MethodBody.Reworks (fun _ => False) N) e) :
      Keeps R (edit (Program.editBody method e)) :=
    Keeps.focus (Program.reworks_editBody he) fun _ _ h => h
  have hAhead {anchor : InstrId} : Keeps R (insertAhead method anchor seq) :=
    Keeps.bind (hEdit (MethodBody.reworks_insertBefore hN)) fun _ => Keeps.pure _
  have hRead : Keeps R (instruction method id) := by
    intro w i w' h
    obtain ⟨-, rfl⟩ := instruction_ok.mp h
    exact refl (r := R) w
  refine Keeps.bind hRead fun i => Keeps.bind hReads fun effect => ?_
  refine Keeps.ite hAhead (Keeps.bind hReads fun paths => ?_)
  cases Placement.anchor? paths with
  | some anchor => exact hAhead
  | none =>
      refine Keeps.bind (Keeps.mapM fun _ _ => Keeps.bind hReads fun type => ?_) fun types => ?_
      · cases type <;> exact Keeps.pure _
      · exact Keeps.bind (hEdit (reworks_spill hN hStore hLoad)) fun _ => Keeps.pure _

end CodeEdit

namespace ClosureEdit

open Closures (Adapted)

/-- Where captures have to be adapted, the code of a method is reworked with what is
tame in the end. -/
def Adapts (P : MethodId → Prop) (id : MethodId) (D : InstrId → Prop)
    (s t : Closures × Workspace) : Prop :=
  s.1.Keyed → s.1.strict = true → t.1.Keyed ∧ s.1.Learns t.1 ∧
    s.2.program.Reworks id D (t.1.Tame P) t.2.program

variable {α : Type} {P : MethodId → Prop} {id : MethodId} {D : InstrId → Prop}
  {s t u : Closures × Workspace}

theorem Adapts.trans {D' : InstrId → Prop} (h : Adapts P id D s t) (h' : Adapts P id D' t u) :
    Adapts P id (fun i => D i ∨ D' i) s u := by
  intro hKeyed hStrict
  obtain ⟨hKeyed₁, hFirst, hProgram⟩ := h hKeyed hStrict
  obtain ⟨hKeyed₂, hSecond, hProgram'⟩ := h' hKeyed₁ (hFirst.strict.trans hStrict)
  refine ⟨hKeyed₂, IsTrans.trans _ _ _ hFirst hSecond, ?_⟩
  exact (hProgram.mono (fun _ => Iff.rfl) fun _ => Closures.Tame.learns hSecond).trans hProgram'

theorem Adapts.mono {D' : InstrId → Prop} (hD : ∀ i, D i ↔ D' i) (h : Adapts P id D s t) :
    Adapts P id D' s t := by
  intro hKeyed hStrict
  obtain ⟨hKeyed', hLearns, hProgram⟩ := h hKeyed hStrict
  exact ⟨hKeyed', hLearns, hProgram.mono hD fun _ h => h⟩

/-- Steps that drop nothing may come first. -/
theorem Adapts.after (h : Adapts P id (fun _ => False) s t) (h' : Adapts P id D t u) :
    Adapts P id D s u :=
  (h.trans h').mono (by simp)

instance : IsPreorder (Closures × Workspace) (Adapts P id fun _ => False) where
  refl s hKeyed _ := ⟨hKeyed, refl _, refl (r := Program.Reworks id _ _) s.2.program⟩
  trans _ _ _ := Adapts.after

/-- An edit of no code. -/
theorem Confined.adapts (h : Confined (fun _ => False) s t) : Adapts P id (fun _ => False) s t := by
  intro hKeyed _
  obtain ⟨hKeyed', hLearns, -, -, hProgram⟩ := h.adapted hKeyed
  exact ⟨hKeyed', hLearns, .of_body fun b hBody => hProgram.body (fun h => h) hBody⟩

theorem editBody_adapts {e : BodyEdit α} {a : α}
    (he : Keeps (MethodBody.Reworks D (s.1.Tame P)) e)
    (h : edit (Program.editBody id e) s = .ok a t) : Adapts P id D s t := by
  intro hKeyed _
  obtain ⟨p, hEdit, rfl⟩ := edit_ok.mp h
  exact ⟨hKeyed, refl _, Program.reworks_editBody he hEdit⟩

/-- What is not recognized is an error. -/
theorem keeps_unrecognized_adapts {method : MethodId} {pointer : InstrId}
    {defect : CallableDefect} : Keeps (Adapts P id D) (unrecognized method pointer defect) := by
  intro s outcome t h _ hStrict
  obtain ⟨c, _, hClosures, h⟩ := Step.bind_ok.mp h
  obtain ⟨rfl, rfl⟩ := closures_ok.mp hClosures
  rw [if_pos hStrict] at h
  obtain ⟨_, _, -, h⟩ := Step.bind_ok.mp h
  exact (Step.throw_ok.mp h).elim

/-- Taking out a cache puts nothing in, and drops nothing that has to stay away. -/
theorem keeps_expandCache_adapts {construct : InstrId} :
    Keeps (Adapts P id fun _ => False) (expandCache id construct) := by
  have hReads {β : Type} {x : ClosureEdit β} (h : Keeps (Confined fun _ => False) x) :
      Keeps (Adapts P id fun _ => False) x :=
    h.mono fun _ _ h => h.adapts
  refine Keeps.bind (hReads keeps_receiverPaths) fun paths => ?_
  split
  · refine Keeps.bind (hReads (keeps_work fun N => CodeEdit.keeps_model)) fun b => ?_
    split
    · intro s u t h
      refine editBody_adapts (Keeps.forM fun id _ => ?_) h
      apply Keeps.bind (MethodBody.reworks_remove fun _ h => h.elim)
      exact fun _ => Keeps.pure _
    · exact Keeps.pure _
  · exact Keeps.pure _

theorem redirect_adapts {pointer : InstrId} {seq : List Instruction} {target : MethodId}
    {outcome : CaptureOutcome} (hSeq : ∀ i ∈ seq, s.1.Tame P i.gist)
    (hTarget : P target ∨ s.1.Serves target) (h : redirect id pointer seq target s = .ok outcome t) :
    Adapts P id (· = pointer) s t := by
  obtain ⟨_, s₁, hEdit, h⟩ := Step.bind_ok.mp h
  obtain ⟨-, rfl⟩ := Step.pure_ok.mp h
  refine editBody_adapts (MethodBody.reworks_insertBefore_then hSeq ?_) hEdit
  exact MethodBody.reworks_setOperand fun i => Closures.Tame.onMethod hTarget

/-- The code that constructs a record is tame, and so is what it forwards to. -/
theorem constructRecord_ok {site : RootedMethod} {first : List Instruction}
    {receiver : Option TypeId} {b : Binding} {made : List Instruction × MethodId}
    (hFirst : ∀ i ∈ first, ∀ c : Closures, c.Tame P i.gist)
    (h : constructRecord site first receiver b s = .ok made t) (hKeyed : s.1.Keyed) :
    Adapts P id (fun _ => False) s t ∧ (∀ i ∈ made.1, t.1.Tame P i.gist) ∧ t.1.Serves made.2 := by
  have hConfined : Confined (fun _ => False) s t := keeps_constructRecord h
  obtain ⟨⟨constructor, forward⟩, s₁, hRecord, h⟩ := Step.bind_ok.mp h
  obtain ⟨-, hConstructor, hForward⟩ :=
    (recordFor_ok (S := fun _ => False) hRecord).2 hKeyed
  obtain ⟨root, _, hRoot, h⟩ := Step.bind_ok.mp h
  obtain ⟨w, hBound, rfl⟩ := work_ok.mp hRoot
  obtain ⟨hLoad, rfl⟩ := CodeEdit.bound_ok.mp hBound
  obtain ⟨rfl, rfl⟩ := Step.pure_ok.mp h
  refine ⟨hConfined.adapts, fun i hMem => ?_, hForward⟩
  simp only [List.mem_append, List.mem_singleton] at hMem
  rcases hMem with (hMem | hMem) | rfl
  · exact hFirst i hMem s₁.1
  · exact Closures.Tame.of_loadRoot hLoad i hMem
  · exact Closures.Tame.onMethod (Or.inr hConstructor)

/-- Adapting a capture reworks the code around the function pointer. -/
theorem keeps_adaptCapture_adapts {plan : ContextPlan} {site : RootedMethod} {pointer : InstrId}
    {b : Binding} (hP : P b.replacement) :
    Keeps (Adapts P site.method (· = pointer)) (adaptCapture plan site pointer b) := by
  have hPop : ∀ i ∈ [Instruction.plain .pop], ∀ c : Closures, c.Tame P i.gist := by
    intro i hMem c
    obtain rfl := List.mem_singleton.mp hMem
    exact Closures.Tame.plain
  have hReads {β : Type} {x : ClosureEdit β} (h : Keeps (Confined fun _ => False) x) :
      Keeps (Adapts P site.method fun _ => False) x :=
    h.mono fun _ _ h => h.adapts
  have hThen {β : Type} {x : ClosureEdit β} {f : β → ClosureEdit CaptureOutcome}
      (hx : Keeps (Adapts P site.method fun _ => False) x)
      (hf : ∀ a, Keeps (Adapts P site.method (· = pointer)) (f a)) :
      Keeps (Adapts P site.method (· = pointer)) (x >>= f) :=
    Keeps.bind_trans hx hf fun _ _ _ => Adapts.after
  have hRecord (first : List Instruction) (receiver : Option TypeId)
      (hFirst : ∀ i ∈ first, ∀ c : Closures, c.Tame P i.gist)
      (f : List Instruction × MethodId → ClosureEdit CaptureOutcome)
      (hf : ∀ made s outcome t, (∀ i ∈ made.1, s.1.Tame P i.gist) → s.1.Serves made.2 →
        f made s = .ok outcome t → Adapts P site.method (· = pointer) s t) :
      Keeps (Adapts P site.method (· = pointer)) (constructRecord site first receiver b >>= f) := by
    intro s outcome t h hKeyed hStrict
    obtain ⟨made, s₁, hMade, h⟩ := Step.bind_ok.mp h
    obtain ⟨hBefore, hSeq, hForward⟩ := constructRecord_ok hFirst hMade hKeyed
    exact hBefore.after (hf made s₁ outcome t hSeq hForward h) hKeyed hStrict
  refine hThen (hReads (keeps_work fun N => CodeEdit.keeps_instruction)) fun i => ?_
  refine hThen (hReads keeps_constructionOf?) fun construct => ?_
  cases construct with
  | none => exact keeps_unrecognized_adapts
  | some construct =>
    refine hThen keeps_expandCache_adapts fun _ => ?_
    refine hThen (hReads keeps_receiverPaths) fun receiver => ?_
    refine hThen (hReads (keeps_work fun N => CodeEdit.keeps_model)) fun body => ?_
    dsimp only
    split
    · intro s outcome t h
      obtain ⟨code, _, hCode, h⟩ := Step.bind_ok.mp h
      obtain ⟨w, hBound, rfl⟩ := work_ok.mp hCode
      obtain ⟨hLoad, rfl⟩ := CodeEdit.bound_ok.mp hBound
      refine redirect_adapts (fun i hMem => ?_) (Or.inl hP) h
      rcases List.mem_append.mp hMem with hMem | hMem
      · exact hPop i hMem s.1
      · exact Closures.Tame.of_loadContext hLoad i hMem
    · exact hRecord _ _ hPop _ fun made s outcome t hSeq hForward h =>
        redirect_adapts hSeq (Or.inr hForward) h
    · refine hThen (hReads keeps_ownerOf) fun owner => ?_
      refine hRecord _ _ (fun _ h => (List.not_mem_nil h).elim) _ fun made s outcome t hSeq hForward h =>
        redirect_adapts hSeq (Or.inr hForward) h
    · refine hThen (hReads keeps_ownerOf) fun owner => ?_
      refine hRecord _ _ hPop _ fun made s outcome t hSeq hForward h => ?_
      obtain ⟨_, s₁, hEdit, h⟩ := Step.bind_ok.mp h
      obtain ⟨-, rfl⟩ := Step.pure_ok.mp h
      refine editBody_adapts (MethodBody.reworks_insertBefore_then hSeq ?_) hEdit
      exact MethodBody.reworks_replace (Closures.Tame.onMethod (Or.inr hForward))
    · exact keeps_unrecognized_adapts
    · exact keeps_unrecognized_adapts

/-- Filling the field of a display class drops nothing, and changes the code. -/
theorem storeDisplayRoot_adapts {site : RootedMethod} {place : InstrId} {field : FieldId} {u : Unit}
    (h : storeDisplayRoot site place field s = .ok u t) :
    Adapts P site.method (fun _ => False) s t ∧ ∀ b, s.2.program.body site.method = .ok b →
      ∃ b', t.2.program.body site.method = .ok b' ∧ b.revision < b'.revision := by
  obtain ⟨root, _, hRoot, h⟩ := Step.bind_ok.mp h
  obtain ⟨w, hBound, rfl⟩ := work_ok.mp hRoot
  obtain ⟨hLoad, rfl⟩ := CodeEdit.bound_ok.mp hBound
  obtain ⟨ids, s₁, hEdit, h⟩ := Step.bind_ok.mp h
  obtain ⟨-, rfl⟩ := Step.pure_ok.mp h
  constructor
  · refine editBody_adapts (MethodBody.reworks_insertAfter fun i hMem => ?_) hEdit
    simp only [List.mem_append, List.mem_singleton] at hMem
    rcases hMem with (rfl | hMem) | rfl
    · exact Closures.Tame.plain
    · exact Closures.Tame.of_loadRoot hLoad i hMem
    · exact Closures.Tame.onField (Or.inr (Or.inr rfl))
  · obtain ⟨p, hInsert, rfl⟩ := edit_ok.mp hEdit
    obtain ⟨b, b', hBefore, hAfter, hBody⟩ := Program.body_of_editBody hInsert
    intro b₀ hBody₀
    obtain rfl : b = b₀ := Except.ok.inj (hBefore.symm.trans hBody₀)
    exact ⟨b', hBody, MethodBody.insertAfter_revision hAfter⟩

end ClosureEdit

namespace Propagation

/-- Where captures have to be adapted, the code of a method is reworked with what is tame in the
end. -/
def Adapts (P : MethodId → Prop) (id : MethodId) (D : InstrId → Prop) (s t : Propagation) : Prop :=
  ClosureEdit.Adapts P id D (s.closures, s.work) (t.closures, t.work)

variable {P : MethodId → Prop} {id : MethodId} {D : InstrId → Prop} {s t u : Propagation}

theorem Adapts.after (h : s.Adapts P id (fun _ => False) t) (h' : t.Adapts P id D u) :
    s.Adapts P id D u :=
  ClosureEdit.Adapts.after h h'

instance : IsPreorder Propagation (Adapts P id fun _ => False) where
  refl s := refl (r := ClosureEdit.Adapts P id fun _ => False) (s.closures, s.work)
  trans _ _ _ := Adapts.after

/-- An edit of no code. -/
theorem Edited.adapts (h : Edited (fun _ => False) s t) : s.Adapts P id (fun _ => False) t :=
  ClosureEdit.Confined.adapts ⟨h.code, h.steady⟩

end Propagation

/-- Adapting a place takes the instruction away, unless it is a construction that a store is put
after. -/
def NeedySite.Goes (place : NeedySite) (id : InstrId) : Prop :=
  id = place.instr ∧ ∀ field, place.need ≠ .displayStore field

namespace Propagate

open Closures (Tame)
open Propagation (Adapts)

variable {α : Type} {P : MethodId → Prop} {method : MethodId} {D : InstrId → Prop}
  {s t : Propagation}

theorem editBody_adapts {e : BodyEdit α} {a : α} (he : Keeps (MethodBody.Reworks D (s.closures.Tame P)) e)
    (h : editBody method e s = .ok a t) : s.Adapts P method D t := by
  intro hKeyed _
  obtain ⟨p, hEdit, rfl⟩ := edit_ok.mp h
  exact ⟨hKeyed, refl _, Program.reworks_editBody he hEdit⟩

theorem bound_ok {f : Program → Except BindingError α} {a : α} :
    bound f s = .ok a t ↔ f s.program = .ok a ∧ s = t := by
  unfold bound work
  rw [Step.focus_ok]
  constructor
  · rintro ⟨w, hBound, rfl⟩
    obtain ⟨h, rfl⟩ := CodeEdit.bound_ok.mp hBound
    exact ⟨h, rfl⟩
  · rintro ⟨h, rfl⟩
    exact ⟨_, CodeEdit.bound_ok.mpr ⟨h, rfl⟩, rfl⟩

theorem loadContext_ok {site : RootedMethod} {context : ContextId} {access : ChainAccess}
    {code : List Instruction} (h : loadContext site context access s = .ok code t) :
    s = t ∧ ∀ c : Closures, ∀ i ∈ code, c.Tame P i.gist := by
  obtain ⟨_, _, hGet, h⟩ := Step.bind_ok.mp h
  obtain ⟨rfl, rfl⟩ := Step.get_ok.mp hGet
  obtain ⟨hLoad, rfl⟩ := bound_ok.mp h
  exact ⟨rfl, fun c => Tame.of_loadContext hLoad⟩

theorem insertBelow_adapts {id : InstrId} {slot : Nat} {seq : List Instruction} {u : Unit}
    (hSeq : ∀ i ∈ seq, s.closures.Tame P i.gist) (h : insertBelow method id slot seq s = .ok u t) :
    s.Adapts P method (fun _ => False) t := by
  obtain ⟨placement, s₁, hWork, h⟩ := Step.bind_ok.mp h
  have hInserted : s.Adapts P method (fun _ => False) s₁ := by
    obtain ⟨w, hInsert, rfl⟩ := Step.focus_ok.mp hWork
    intro hKeyed _
    exact ⟨hKeyed, refl _, CodeEdit.reworks_insertBelow hSeq Tame.plain Tame.plain hInsert⟩
  refine hInserted.after ?_
  cases placement with
  | before anchor =>
      obtain ⟨-, rfl⟩ := Step.pure_ok.mp h
      exact refl (r := Adapts P method fun _ => False) s₁
  | spilled locals => exact (keeps_count (S := fun _ => False) h).adapts

/-- A place of a moved field goes. -/
theorem adaptField_adapts {site : RootedMethod} {id : InstrId} {context : ContextId} {moved : FieldId}
    {u : Unit} (h : adaptField site id context moved s = .ok u t)
    (hOpcode : ∀ b i, s.program.body site.method = .ok b → b.get? id = some i →
      i.opcode = .ldsfld ∨ i.opcode = .ldsflda ∨ i.opcode = .stsfld) :
    s.Adapts P site.method (· = id) t := by
  obtain ⟨i, _, hInstruction, h⟩ := Step.bind_ok.mp h
  obtain ⟨w, hWork, rfl⟩ := Step.focus_ok.mp hInstruction
  obtain ⟨⟨b, hBody, hFound⟩, rfl⟩ := CodeEdit.instruction_ok.mp hWork
  have hLoaded {opcode : OpCode} {access : ChainAccess}
      (hField : opcode = .ldfld ∨ opcode = .ldflda ∨ opcode = .stfld)
      (h : (do
        let code ← loadContext site context access
        let _ ← editBody site.method (MethodBody.replaceWith id (code ++ [.onField opcode moved]))
        : Propagate Unit) s = .ok u t) : s.Adapts P site.method (· = id) t := by
    obtain ⟨code, s₁, hCode, h⟩ := Step.bind_ok.mp h
    obtain ⟨rfl, hTame⟩ := loadContext_ok (P := P) hCode
    obtain ⟨_, s₂, hEdit, h⟩ := Step.bind_ok.mp h
    obtain ⟨-, rfl⟩ := Step.pure_ok.mp h
    refine editBody_adapts (MethodBody.reworks_replaceWith fun j hMem => ?_) hEdit
    rcases List.mem_append.mp hMem with hMem | hMem
    · exact hTame s.closures j hMem
    · obtain rfl := List.mem_singleton.mp hMem
      exact Tame.onField hField
  rcases hOpcode b i hBody hFound with hOpcode | hOpcode | hOpcode <;> simp only [hOpcode] at h
  · exact hLoaded (Or.inl rfl) h
  · exact hLoaded (Or.inr (Or.inl rfl)) h
  · obtain ⟨code, s₁, hCode, h⟩ := Step.bind_ok.mp h
    obtain ⟨rfl, hTame⟩ := loadContext_ok (P := P) hCode
    obtain ⟨_, s₂, hInsert, h⟩ := Step.bind_ok.mp h
    refine (insertBelow_adapts (hTame s.closures) hInsert).after ?_
    exact editBody_adapts (MethodBody.reworks_replace (Tame.onField (Or.inr (Or.inr rfl)))) h

theorem adaptSingleton_adapts {site : RootedMethod} {id : InstrId} {context : ContextId} {u : Unit}
    (h : adaptSingleton site id context s = .ok u t) : s.Adapts P site.method (· = id) t := by
  obtain ⟨code, s₁, hCode, h⟩ := Step.bind_ok.mp h
  obtain ⟨rfl, hTame⟩ := loadContext_ok (P := P) hCode
  obtain ⟨_, s₂, hEdit, h⟩ := Step.bind_ok.mp h
  obtain ⟨-, rfl⟩ := Step.pure_ok.mp h
  exact editBody_adapts (MethodBody.reworks_replaceWith (hTame s.closures)) hEdit

/-- A call of a bound method gives way to one of what stands in for it. -/
theorem adaptCall_adapts {site : RootedMethod} {id : InstrId} {b : Binding} {u : Unit}
    (hP : P b.replacement) (hMode : b.mode ≠ .unbound) (h : adaptCall site id b s = .ok u t) :
    s.Adapts P site.method (· = id) t := by
  obtain ⟨i, _, hInstruction, h⟩ := Step.bind_ok.mp h
  obtain ⟨w, hWork, rfl⟩ := Step.focus_ok.mp hInstruction
  obtain ⟨-, rfl⟩ := CodeEdit.instruction_ok.mp hWork
  cases hB : b.mode with
  | unbound => exact (hMode hB).elim
  | addedParameter =>
      simp only [hB] at h
      have hRest {slot : Nat} {s : Propagation} (h : (do
          let root ← bound fun p => site.handle.loadRoot p site.method
          insertBelow site.method id slot root
          editBody site.method (MethodBody.setOperand id (.method b.replacement))
          : Propagate Unit) s = .ok u t) : s.Adapts P site.method (· = id) t := by
        obtain ⟨root, s₁, hRoot, h⟩ := Step.bind_ok.mp h
        obtain ⟨hLoad, rfl⟩ := bound_ok.mp hRoot
        obtain ⟨_, s₂, hInsert, h⟩ := Step.bind_ok.mp h
        refine (insertBelow_adapts (Tame.of_loadRoot hLoad) hInsert).after ?_
        exact editBody_adapts (MethodBody.reworks_setOperand fun i => Tame.onMethod (Or.inl hP)) h
      split at h
      · obtain ⟨_, _, hPure, h⟩ := Step.bind_ok.mp h
        obtain ⟨-, rfl⟩ := Step.pure_ok.mp hPure
        exact hRest h
      · obtain ⟨m, _, hModel, h⟩ := Step.bind_ok.mp h
        obtain ⟨-, rfl⟩ := model_ok.mp hModel
        obtain ⟨_, _, hPure, h⟩ := Step.bind_ok.mp h
        obtain ⟨-, rfl⟩ := Step.pure_ok.mp hPure
        exact hRest h
  | instanceConverted context =>
      simp only [hB] at h
      obtain ⟨code, s₁, hCode, h⟩ := Step.bind_ok.mp h
      obtain ⟨rfl, hTame⟩ := loadContext_ok (P := P) hCode
      obtain ⟨_, s₂, hInsert, h⟩ := Step.bind_ok.mp h
      refine (insertBelow_adapts (hTame s.closures) hInsert).after ?_
      exact editBody_adapts (MethodBody.reworks_replace (Tame.onMethod (Or.inl hP))) h

theorem adaptCapture_adapts {site : RootedMethod} {id : InstrId} {b : Binding} {r : Bool}
    (hP : P b.replacement) (h : adaptCapture site id b s = .ok r t) :
    s.Adapts P site.method (· = id) t := by
  obtain ⟨_, s₁, hCount, h⟩ := Step.bind_ok.mp h
  refine (keeps_count (S := fun _ => False) hCount).adapts.after ?_
  obtain ⟨_, _, hGet, h⟩ := Step.bind_ok.mp h
  obtain ⟨rfl, rfl⟩ := Step.get_ok.mp hGet
  obtain ⟨outcome, s₂, hClosures, h⟩ := Step.bind_ok.mp h
  obtain ⟨w, hAdapt, rfl⟩ := Step.focus_ok.mp hClosures
  have hEnd : t = { s₁ with closures := w.1, work := w.2 } := by
    cases outcome <;> exact (Step.pure_ok.mp h).2.symm
  rw [hEnd]
  exact ClosureEdit.keeps_adaptCapture_adapts hP hAdapt

/-- Adapting a place reworks the code around it. -/
theorem adaptSite_adapts {site : RootedMethod} {place : NeedySite} {r : Bool}
    (h : adaptSite site place s = .ok r t)
    (hOpcode : ∀ context moved, place.need = .staticField context moved →
      ∀ b i, s.program.body site.method = .ok b → b.get? place.instr = some i →
        i.opcode = .ldsfld ∨ i.opcode = .ldsflda ∨ i.opcode = .stsfld)
    (hBound : ∀ b, place.need = .boundCall b ∨ place.need = .capture b →
      P b.replacement ∧ b.mode ≠ .unbound) : s.Adapts P site.method place.Goes t := by
  have hGoes (hOther : ∀ field, place.need ≠ .displayStore field)
      (h : s.Adapts P site.method (· = place.instr) t) : s.Adapts P site.method place.Goes t :=
    ClosureEdit.Adapts.mono (fun _ => (and_iff_left hOther).symm) h
  unfold adaptSite at h
  cases hNeed : place.need with
  | staticField context moved =>
      simp only [hNeed] at h
      obtain ⟨_, s₁, hField, h⟩ := Step.bind_ok.mp h
      obtain ⟨-, rfl⟩ := Step.pure_ok.mp h
      exact hGoes (by simp [hNeed]) (adaptField_adapts hField (hOpcode _ _ hNeed))
  | singleton context =>
      simp only [hNeed] at h
      obtain ⟨_, s₁, hSingleton, h⟩ := Step.bind_ok.mp h
      obtain ⟨-, rfl⟩ := Step.pure_ok.mp h
      exact hGoes (by simp [hNeed]) (adaptSingleton_adapts hSingleton)
  | boundCall b =>
      simp only [hNeed] at h
      obtain ⟨hP, hMode⟩ := hBound b (Or.inl hNeed)
      obtain ⟨_, s₁, hCall, h⟩ := Step.bind_ok.mp h
      obtain ⟨-, rfl⟩ := Step.pure_ok.mp h
      exact hGoes (by simp [hNeed]) (adaptCall_adapts hP hMode hCall)
  | capture b =>
      simp only [hNeed] at h
      exact hGoes (by simp [hNeed]) (adaptCapture_adapts (hBound b (Or.inr hNeed)).1 h)
  | displayStore field =>
      simp only [hNeed] at h
      obtain ⟨_, s₁, hClosures, h⟩ := Step.bind_ok.mp h
      obtain ⟨-, rfl⟩ := Step.pure_ok.mp h
      obtain ⟨w, hStore, rfl⟩ := Step.focus_ok.mp hClosures
      refine ClosureEdit.Adapts.mono (fun id => ?_) (ClosureEdit.storeDisplayRoot_adapts hStore).1
      simp [NeedySite.Goes, hNeed]

/-- Adapting places in turn takes away each of them, and puts in what is tame. The code began as `b`,
and the places that are left are there as they were. -/
theorem adaptSites_adapts {site : RootedMethod} {places : List NeedySite} {rs : List Bool}
    {s₀ : Propagation} {b : MethodBody} (hBody : s₀.program.body site.method = .ok b)
    (hNumbered : b.Numbered)
    (hPlaces : ∀ place ∈ places, ∃ i ∈ b.instructions, i.id = place.instr ∧
      ∀ context moved, place.need = .staticField context moved →
        i.opcode = .ldsfld ∨ i.opcode = .ldsflda ∨ i.opcode = .stsfld)
    (hDistinct : (places.map (·.instr)).Nodup)
    (hBound : ∀ place ∈ places, ∀ c, place.need = .boundCall c ∨ place.need = .capture c →
      P c.replacement ∧ c.mode ≠ .unbound)
    (hBefore : s₀.Adapts P site.method D s) (hAhead : ∀ place ∈ places, ¬ D place.instr)
    (h : places.mapM (adaptSite site) s = .ok rs t) :
    s₀.Adapts P site.method (fun id => D id ∨ ∃ place ∈ places, place.Goes id) t := by
  induction places generalizing s rs D with
  | nil =>
      obtain ⟨-, rfl⟩ := Step.pure_ok.mp h
      exact ClosureEdit.Adapts.mono (by simp) hBefore
  | cons place places ih =>
      obtain ⟨r, s₁, rs', hFirst, hRest, rfl⟩ := Step.mapM_cons_ok.mp h
      rw [List.map_cons, List.nodup_cons] at hDistinct
      obtain ⟨hNew, hOthers⟩ := List.forall_mem_cons.mp hAhead
      intro hKeyed hStrict
      have hStep : s.Adapts P site.method place.Goes s₁ := by
        refine adaptSite_adapts hFirst (fun context moved hNeed b₁ i₁ hBody₁ hFound => ?_)
          (hBound place (List.mem_cons_self ..))
        obtain ⟨-, -, hReworks⟩ := hBefore hKeyed hStrict
        obtain ⟨b', hBody', hReworked⟩ := hReworks b hBody hNumbered
        obtain rfl : b₁ = b' := Except.ok.inj (hBody₁.symm.trans hBody')
        obtain ⟨hMem₁, hId₁⟩ := MethodBody.mem_of_get? hFound
        obtain ⟨i, hMem, hId, hOpcode⟩ := hPlaces place (List.mem_cons_self ..)
        rcases hReworked.code i₁ hMem₁ with ⟨j, hMem', hSame, hGist, -⟩ | ⟨-, hDropped | hAbove⟩
        · obtain rfl := hNumbered.eq_of_id hMem hMem' (hId.trans (hId₁.symm.trans hSame.symm))
          have hOpcodes : i₁.opcode = i.opcode := congrArg Prod.fst hGist.symm
          exact hOpcodes ▸ hOpcode context moved hNeed
        · exact (hNew (hId₁ ▸ hDropped)).elim
        · have hBelow := hNumbered.below i hMem
          rw [hId, ← hId₁] at hBelow
          omega
      have hBoth : s₀.Adapts P site.method (fun id => D id ∨ place.Goes id) s₁ :=
        ClosureEdit.Adapts.trans hBefore hStep
      have hAhead' : ∀ other ∈ places, ¬ (D other.instr ∨ place.Goes other.instr) := by
        rintro other hOther (hDropped | ⟨hSame, -⟩)
        · exact hOthers other hOther hDropped
        · exact hDistinct.1 (List.mem_map.mpr ⟨other, hOther, hSame⟩)
      have hAll := ih (fun other hOther => hPlaces other (List.mem_cons_of_mem _ hOther))
        hDistinct.2 (fun other hOther => hBound other (List.mem_cons_of_mem _ hOther)) hBoth hAhead'
        hRest
      refine ClosureEdit.Adapts.mono (fun id => ?_) hAll hKeyed hStrict
      simp [or_assoc]

end Propagate

end ContextBinding
