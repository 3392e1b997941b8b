import ContextBinding.Proofs.Adaptation
import ContextBinding.Proofs.History
import ContextBinding.Proofs.Refusal

/-! The edits of its code that adapting a method comes to. Code is put in ahead of instructions and
after them, the places that need the root give way, and caches are taken out; whatever is put in is
one of a few operations, none of which jumps. -/

namespace ContextBinding

open Relation (ReflTransGen)

/-- What adaptation may put in: the fields it may access, the methods it may call, and those it may
construct with or point to. And where: at the places that need the root, of which the function
pointers are set apart. -/
structure Scope where
  field : FieldId → Prop
  call : MethodId → Prop
  target : MethodId → Prop
  place : InstrId → Prop
  pointer : InstrId → Prop

/-- An instruction that adaptation puts in. -/
inductive Instruction.Loads (S : Scope) (i : Instruction) : Prop where
  | plain (hOpcode : i.opcode = .pop ∨ i.opcode = .dup) (hOperand : i.operand = .none)
  | argument (hOpcode : i.opcode = .ldarg) (index : Nat) (hOperand : i.operand = .arg index)
  | slot (hOpcode : i.opcode = .stloc ∨ i.opcode = .ldloc) (index : Nat)
    (hOperand : i.operand = .localVar index)
  | field (hOpcode : i.opcode = .ldfld ∨ i.opcode = .ldflda ∨ i.opcode = .stfld) (field : FieldId)
    (hField : S.field field) (hOperand : i.operand = .field field)
  | call (hOpcode : i.opcode = .call) (method : MethodId) (hMethod : S.call method)
    (hOperand : i.operand = .method method)
  | target (hOpcode : i.opcode = .newobj ∨ i.opcode = .ldftn) (method : MethodId)
    (hMethod : S.target method) (hOperand : i.operand = .method method)

/-- An edit that adapts a body. What is taken out belongs to a cache. -/
inductive BodyChange.Adapts (S : Scope) (b : MethodBody) : BodyChange → Prop where
  | insertBefore (anchor : InstrId) {seq : List Instruction} (hSeq : ∀ i ∈ seq, i.Loads S) :
    Adapts S b (.insertBefore anchor seq)
  | insertAfter (anchor : InstrId) {seq : List Instruction} (hSeq : ∀ i ∈ seq, i.Loads S) :
    Adapts S b (.insertAfter anchor seq)
  | addLocal (type : TypeRef) : Adapts S b (.addLocal type)
  | replace {id : InstrId} {i : Instruction} (hPlace : S.place id) (hNew : i.Loads S) :
    Adapts S b (.replace id i)
  | replaceWith {id : InstrId} {seq : List Instruction} (hPlace : S.place id)
    (hSeq : ∀ i ∈ seq, i.Loads S) : Adapts S b (.replaceWith id seq)
  | setOperand {id : InstrId} {method : MethodId} (hPlace : S.place id) (hMethod : S.call method) :
    Adapts S b (.setOperand id (.method method))
  | redirect {id : InstrId} {method : MethodId} (hPointer : S.pointer id)
    (hMethod : S.target method) : Adapts S b (.setOperand id (.method method))
  | repoint {id : InstrId} {method : MethodId} (hPointer : S.pointer id)
    (hMethod : S.target method) : Adapts S b (.replace id (.onMethod .ldftn method))
  | remove {id : InstrId} (hCache : ∀ i, b.get? id = some i →
    i.opcode ∈ [OpCode.stsfld, .dup, .ldsfld, .dup, .brtrue, .pop]) : Adapts S b (.remove id)

variable {S : Scope}

/-- The contents of code that name nothing but what may be named. -/
def Scope.Names (S : Scope) (gist : OpCode × Option FieldId × Option MethodId) : Prop :=
  (∀ field, gist.2.1 = some field → S.field field) ∧
    ∀ method, gist.2.2 = some method → S.call method ∨ S.target method

theorem Instruction.Loads.names {i : Instruction} (h : i.Loads S) : S.Names i.gist := by
  have hMethod {method : MethodId} (hOperand : i.operand = .method method)
      (hNamed : S.call method ∨ S.target method) : S.Names i.gist := by
    simp [Scope.Names, Instruction.gist, Instruction.field?, Instruction.method?, hOperand, hNamed]
  cases h with
  | plain _ hOperand | argument _ _ hOperand | slot _ _ hOperand =>
      simp [Scope.Names, Instruction.gist, Instruction.field?, Instruction.method?, hOperand]
  | field _ field hField hOperand =>
      simp [Scope.Names, Instruction.gist, Instruction.field?, Instruction.method?, hOperand, hField]
  | call _ method hCall hOperand => exact hMethod hOperand (Or.inl hCall)
  | target _ method hTarget hOperand => exact hMethod hOperand (Or.inr hTarget)

namespace MethodBody

/-- One edit that adapts a body. -/
def Patch (S : Scope) (b b' : MethodBody) :
    Prop :=
  ∃ c fresh, BodyChange.Adapts S b c ∧ c.run b = .ok fresh b'

/-- Edits that adapt a body. -/
def Patches (S : Scope) :
    MethodBody → MethodBody → Prop :=
  ReflTransGen (Patch S)

instance : IsPreorder MethodBody (Patches S) where
  refl _ := .refl
  trans _ _ _ := .trans

variable {b b' : MethodBody}

theorem Patch.numbered (h : Patch S b b') (hNumbered : b.Numbered) : b'.Numbered := by
  obtain ⟨c, fresh, -, hRun⟩ := h
  exact (effect_run hRun).numbered hNumbered

theorem Patches.numbered (h : Patches S b b') (hNumbered : b.Numbered) : b'.Numbered := by
  induction h with
  | refl => exact hNumbered
  | tail _ hPatch ih => exact hPatch.numbered ih

/-- All that an edit puts in is what may be named. -/
theorem Patch.reworked (h : Patch S b b') (hNumbered : b.Numbered) :
    ∃ D, Reworked D S.Names b b' := by
  obtain ⟨c, fresh, hAdapts, hRun⟩ := h
  have hMethod (i : Instruction) {method : MethodId} (hNamed : S.call method ∨ S.target method) :
      S.Names { i with operand := .method method }.gist := by
    simp [Scope.Names, Instruction.gist, Instruction.field?, Instruction.method?, hNamed]
  cases hAdapts with
  | insertBefore anchor hSeq =>
      exact ⟨_, (reworks_insertBefore (fun i hi => (hSeq i hi).names) hRun hNumbered).1⟩
  | insertAfter anchor hSeq =>
      exact ⟨_, (reworks_insertAfter (fun i hi => (hSeq i hi).names) hRun hNumbered).1⟩
  | addLocal type =>
      obtain ⟨_, _, hEdit, hEnd⟩ := Step.bind_ok.mp hRun
      exact ⟨_, (Step.pure_ok.mp hEnd).2 ▸ (reworks_addLocal hEdit hNumbered).1⟩
  | replace _ hNew =>
      obtain ⟨_, _, hEdit, hEnd⟩ := Step.bind_ok.mp hRun
      exact ⟨_, (Step.pure_ok.mp hEnd).2 ▸ (reworks_replace hNew.names hEdit hNumbered).1⟩
  | replaceWith _ hSeq =>
      obtain ⟨_, _, hEdit, hEnd⟩ := Step.bind_ok.mp hRun
      exact ⟨_, (Step.pure_ok.mp hEnd).2 ▸
        (reworks_replaceWith (fun i hi => (hSeq i hi).names) hEdit hNumbered).1⟩
  | setOperand _ hCall =>
      obtain ⟨_, _, hEdit, hEnd⟩ := Step.bind_ok.mp hRun
      exact ⟨_, (Step.pure_ok.mp hEnd).2 ▸
        (reworks_setOperand (fun i => hMethod i (Or.inl hCall)) hEdit hNumbered).1⟩
  | redirect _ hTarget =>
      obtain ⟨_, _, hEdit, hEnd⟩ := Step.bind_ok.mp hRun
      exact ⟨_, (Step.pure_ok.mp hEnd).2 ▸
        (reworks_setOperand (fun i => hMethod i (Or.inr hTarget)) hEdit hNumbered).1⟩
  | repoint _ hTarget =>
      obtain ⟨_, _, hEdit, hEnd⟩ := Step.bind_ok.mp hRun
      exact ⟨_, (Step.pure_ok.mp hEnd).2 ▸
        (reworks_replace (hMethod (.plain .ldftn) (Or.inr hTarget)) hEdit hNumbered).1⟩
  | remove _ =>
      obtain ⟨_, _, hEdit, hEnd⟩ := Step.bind_ok.mp hRun
      exact ⟨_, (Step.pure_ok.mp hEnd).2 ▸
        (reworks_remove (D := fun _ => False) (fun _ => False.elim) hEdit hNumbered).1⟩

/-- What a sequence of edits keeps of numbered bodies is what each of them keeps. -/
theorem Patches.induct {I : MethodBody → Prop} (h : Patches S b b') (hNumbered : b.Numbered)
    (hStart : I b)
    (hStep : ∀ b b', b.Numbered → Patch S b b' → I b → I b') : I b' := by
  induction h with
  | refl => exact hStart
  | tail hPatches hPatch ih => exact hStep _ _ (Patches.numbered hPatches hNumbered) hPatch ih

section Edits

variable {id : InstrId} {seq : List Instruction}

theorem patches_insertBefore (hSeq : ∀ i ∈ seq, i.Loads S) :
    Keeps (Patches S) (insertBefore id seq) :=
  fun _ ids _ h => .single ⟨.insertBefore id seq, ids, .insertBefore id hSeq, h⟩

theorem patches_insertAfter (hSeq : ∀ i ∈ seq, i.Loads S) :
    Keeps (Patches S) (insertAfter id seq) :=
  fun _ ids _ h => .single ⟨.insertAfter id seq, ids, .insertAfter id hSeq, h⟩

theorem patches_addLocal {type : TypeRef} : Keeps (Patches S) (addLocal type) :=
  fun _ _ b' h => .single ⟨.addLocal type, [], .addLocal type,
    Step.bind_ok.mpr ⟨_, b', h, Step.pure_ok.mpr ⟨rfl, rfl⟩⟩⟩

theorem patches_replace {i : Instruction} (hPlace : S.place id) (hNew : i.Loads S) :
    Keeps (Patches S) (replace id i) :=
  fun _ _ b' h => .single ⟨.replace id i, [], .replace hPlace hNew,
    Step.bind_ok.mpr ⟨_, b', h, Step.pure_ok.mpr ⟨rfl, rfl⟩⟩⟩

theorem patches_replaceWith (hPlace : S.place id) (hSeq : ∀ i ∈ seq, i.Loads S) :
    Keeps (Patches S) (replaceWith id seq) :=
  fun _ ids b' h => .single ⟨.replaceWith id seq, ids.tail, .replaceWith hPlace hSeq,
    Step.bind_ok.mpr ⟨_, b', h, Step.pure_ok.mpr ⟨rfl, rfl⟩⟩⟩

theorem patches_setOperand {method : MethodId} (hPlace : S.place id) (hMethod : S.call method) :
    Keeps (Patches S) (setOperand id (.method method)) :=
  fun _ _ b' h => .single ⟨.setOperand id (.method method), [], .setOperand hPlace hMethod,
    Step.bind_ok.mpr ⟨_, b', h, Step.pure_ok.mpr ⟨rfl, rfl⟩⟩⟩

theorem patches_redirect {method : MethodId} (hPointer : S.pointer id) (hMethod : S.target method) :
    Keeps (Patches S) (setOperand id (.method method)) :=
  fun _ _ b' h => .single ⟨.setOperand id (.method method), [], .redirect hPointer hMethod,
    Step.bind_ok.mpr ⟨_, b', h, Step.pure_ok.mpr ⟨rfl, rfl⟩⟩⟩

theorem patches_repoint {method : MethodId} (hPointer : S.pointer id) (hMethod : S.target method) :
    Keeps (Patches S) (replace id (.onMethod .ldftn method)) :=
  fun _ _ b' h => .single ⟨.replace id (.onMethod .ldftn method), [], .repoint hPointer hMethod,
    Step.bind_ok.mpr ⟨_, b', h, Step.pure_ok.mpr ⟨rfl, rfl⟩⟩⟩

/-- Taking out the parts of a cache leaves those that are still to come as they are. -/
theorem patches_removeEach {ids : List InstrId} {u : PUnit} (hNumbered : b.Numbered)
    (hCache : ∀ id ∈ ids, ∀ i, b.get? id = some i →
      i.opcode ∈ [OpCode.stsfld, .dup, .ldsfld, .dup, .brtrue, .pop])
    (h : (ids.forM fun id => do
      let _ ← remove id) b = .ok u b') : Patches S b b' := by
  induction ids generalizing b with
  | nil =>
      obtain ⟨-, rfl⟩ := Step.pure_ok.mp h
      exact .refl
  | cons id ids ih =>
      obtain ⟨_, _, hFirst, hRest⟩ := Step.bind_ok.mp h
      obtain ⟨i, b₁, hRemove, hEnd⟩ := Step.bind_ok.mp hFirst
      obtain ⟨-, rfl⟩ := Step.pure_ok.mp hEnd
      obtain ⟨hHere, hOthers⟩ := List.forall_mem_cons.mp hCache
      have hPatch : Patch S b b₁ := ⟨.remove id, [], .remove hHere,
        Step.bind_ok.mpr ⟨i, b₁, hRemove, Step.pure_ok.mpr ⟨rfl, rfl⟩⟩⟩
      refine .head hPatch (ih (hPatch.numbered hNumbered) (fun other hMem i' hGet => ?_) hRest)
      have hReworked : Reworked (fun _ => False) (fun _ => False) b b₁ :=
        (reworks_remove (fun _ => False.elim) hRemove hNumbered).1
      obtain ⟨hMem', hId⟩ := mem_of_get? hGet
      rcases hReworked.code i' hMem' with ⟨i, hThere, hSame, hGist, -⟩ | ⟨hNever, -⟩
      · have hOpcode : i.opcode = i'.opcode := congrArg Prod.fst hGist
        have hBefore := hNumbered.get?_id hThere
        rw [hSame, hId] at hBefore
        exact hOpcode ▸ hOthers other hMem i hBefore
      · exact hNever.elim

end Edits

end MethodBody

namespace Program

/-- The code of a method is adapted by a change of the program. -/
def Patches (id : MethodId) (S : Scope)
    (p q : Program) : Prop :=
  ∀ b, p.body id = .ok b → b.Numbered → ∃ b', q.body id = .ok b' ∧ b.Patches S b'

variable {id : MethodId} {p q : Program}

theorem Patches.of_body (h : ∀ b, p.body id = .ok b → q.body id = .ok b) :
    Patches id S p q :=
  fun b hBody _ => ⟨b, h b hBody, .refl⟩

instance : IsPreorder Program (Patches id S) where
  refl _ := .of_body fun _ h => h
  trans _ _ _ h h' b hBody hNumbered := by
    obtain ⟨b', hBody', hFirst⟩ := h b hBody hNumbered
    obtain ⟨b'', hBody'', hSecond⟩ := h' b' hBody' (hFirst.numbered hNumbered)
    exact ⟨b'', hBody'', hFirst.trans hSecond⟩

theorem patches_editBody {α : Type} {e : BodyEdit α} (he : Keeps (MethodBody.Patches S) e) :
    Keeps (Patches id S) (editBody id e) := by
  intro p a q h b hBody _
  obtain ⟨b₀, b', hBefore, hEdit, hAfter⟩ := body_of_editBody h
  obtain rfl : b₀ = b := Except.ok.inj (hBefore.symm.trans hBody)
  exact ⟨b', hAfter, he hEdit⟩

end Program

namespace HandleSource

/-- The field that the root is loaded from. -/
def rootField? : HandleSource → Option FieldId
  | contextThis _ field => field
  | capturedRoot field => some field
  | parameter _ | rootThis => none

/-- A handle is made of fields that may be accessed, as is the way from it to every context of a plan. -/
structure Reads (handle : HandleSource) (plan : ContextPlan) (S : Scope) : Prop where
  root : ∀ field, handle.rootField? = some field → S.field field
  chains : ∀ c ∈ plan.contexts, ∀ field ∈ c.chain, S.field field

variable {handle : HandleSource} {plan : ContextPlan} {p : Program} {method : MethodId}
  {code : List Instruction}

theorem Reads.loadRoot (h : handle.Reads plan S) (hLoad : handle.loadRoot p method = .ok code) :
    ∀ i ∈ code, i.Loads S := by
  have hArg (index : Nat) : (Instruction.onArg .ldarg index).Loads S := .argument rfl index rfl
  have hField (field : FieldId) (hRoot : handle.rootField? = some field) :
      (Instruction.onField .ldfld field).Loads S :=
    .field (Or.inl rfl) field (h.root field hRoot) rfl
  unfold HandleSource.loadRoot at hLoad
  split at hLoad
  · obtain rfl := Except.ok.inj hLoad
    simpa using hArg _
  · obtain rfl := Except.ok.inj hLoad
    simpa using hArg 0
  · obtain rfl := Except.ok.inj hLoad
    simpa using ⟨hArg 0, hField _ rfl⟩
  · obtain rfl := Except.ok.inj hLoad
    simpa using ⟨hArg 0, hField _ rfl⟩
  · cases hLoad

theorem Reads.chain (h : handle.Reads plan S) (context : ContextId) :
    ∀ field ∈ (plan.context context).chain, S.field field := by
  intro field hMem
  unfold ContextPlan.context at hMem
  cases hContext : plan.context? context with
  | none =>
      rw [hContext] at hMem
      exact (List.not_mem_nil hMem).elim
  | some c =>
      rw [hContext] at hMem
      exact h.chains c (List.mem_of_getElem? hContext) field hMem

theorem Reads.loadContext (h : handle.Reads plan S) {context : ContextId} {access : ChainAccess}
    (hLoad : handle.loadContext p plan method context access = .ok code) :
    ∀ i ∈ code, i.Loads S := by
  obtain ⟨⟨start, links⟩, hStart, hLoad⟩ := Outcome.bind_ok.mp hLoad
  obtain ⟨follow, hFollow, hLoad⟩ := Outcome.bind_ok.mp hLoad
  obtain rfl := Outcome.pure_ok.mp hLoad
  have hFirst : (∀ i ∈ start, i.Loads S) ∧ ∀ link ∈ links, S.field link := by
    have hRoot (h' : (do
        pure (← handle.loadRoot p method, (plan.context context).chain) :
          Except BindingError _) = .ok (start, links)) :
        (∀ i ∈ start, i.Loads S) ∧ ∀ link ∈ links, S.field link := by
      obtain ⟨root, hRoot, hPair⟩ := Outcome.bind_ok.mp h'
      obtain ⟨rfl, rfl⟩ := Prod.mk.inj (Outcome.pure_ok.mp hPair)
      exact ⟨h.loadRoot hRoot, h.chain context⟩
    unfold HandleSource.chainStart at hStart
    split at hStart
    · dsimp only at hStart
      split at hStart
      · obtain ⟨rfl, rfl⟩ := Prod.mk.inj (Outcome.pure_ok.mp hStart)
        refine ⟨?_, fun link hMem => h.chain context link (List.mem_of_mem_drop hMem)⟩
        simpa using Instruction.Loads.argument (i := .onArg .ldarg 0) rfl 0 rfl
      · exact hRoot hStart
    · exact hRoot hStart
  intro i hMem
  rcases List.mem_append.mp hMem with hMem | hMem
  · exact hFirst.1 i hMem
  · obtain ⟨link, hLink, hFollowed⟩ := Outcome.mem_mapM_ok hFollow hMem
    have hField := hFirst.2 link hLink
    unfold HandleSource.followLink at hFollowed
    split at hFollowed
    · cases hFollowed
    · split at hFollowed
      · split at hFollowed
        · cases hFollowed
        · obtain rfl := Except.ok.inj hFollowed
          exact .field (Or.inr (Or.inl rfl)) link hField rfl
      · obtain rfl := Except.ok.inj hFollowed
        exact .field (Or.inl rfl) link hField rfl

end HandleSource

namespace CodeEdit

variable {method : MethodId} {id : InstrId} {slot : Nat} {seq : List Instruction}

/-- Storing operands and loading them again is adapting. -/
theorem patches_spill {types : List TypeRef} {anchor : InstrId} (hSeq : ∀ i ∈ seq, i.Loads S) :
    Keeps (MethodBody.Patches S) (Placement.spill types anchor seq) := by
  refine Keeps.bind (Keeps.mapM fun _ _ => MethodBody.patches_addLocal) fun locals => ?_
  refine Keeps.bind (MethodBody.patches_insertBefore ?_) fun _ => Keeps.pure _
  intro i hMem
  simp only [List.mem_append, List.mem_map] at hMem
  rcases hMem with (⟨index, _, rfl⟩ | hMem) | ⟨index, _, rfl⟩
  · exact .slot (Or.inl rfl) index rfl
  · exact hSeq i hMem
  · exact .slot (Or.inr rfl) index rfl

theorem patches_insertBelow (hSeq : ∀ i ∈ seq, i.Loads S) :
    Keeps (fun w w' => w.program.Patches method S w'.program)
      (insertBelow method id slot seq) := by
  let R (w w' : Workspace) : Prop := w.program.Patches method S w'.program
  have : IsPreorder Workspace R :=
    { refl := fun w => refl (r := Program.Patches method S) w.program
      trans := fun _ _ _ h h' => IsTrans.trans (r := Program.Patches method S) _ _ _ h h' }
  have hReads {α : Type} {question : Program → Query α} : Keeps R (query question) := by
    intro w a w' h
    obtain ⟨flow, -, rfl⟩ := query_ok.mp h
    exact refl (r := R) w
  have hEdit {α : Type} {e : BodyEdit α} (he : Keeps (MethodBody.Patches S) e) :
      Keeps R (edit (Program.editBody method e)) :=
    Keeps.focus (Program.patches_editBody he) fun _ _ h => h
  have hAhead {anchor : InstrId} : Keeps R (insertAhead method anchor seq) :=
    Keeps.bind (hEdit (MethodBody.patches_insertBefore hSeq)) fun _ => Keeps.pure _
  have hRead : Keeps R (instruction method id) := by
    intro w i w' h
    obtain ⟨-, rfl⟩ := instruction_ok.mp h
    exact refl (r := R) w
  refine Keeps.bind hRead fun i => Keeps.bind hReads fun effect => ?_
  refine Keeps.ite hAhead (Keeps.bind hReads fun paths => ?_)
  cases Placement.anchor? paths with
  | some anchor => exact hAhead
  | none =>
      refine Keeps.bind (Keeps.mapM fun _ _ => Keeps.bind hReads fun type => ?_) fun types => ?_
      · cases type <;> exact Keeps.pure _
      · exact Keeps.bind (hEdit (patches_spill hSeq)) fun _ => Keeps.pure _

end CodeEdit

namespace ClosureEdit

/-- The code of a method is adapted, with what serves captures in the end. -/
def Patches (id : MethodId) (S : Scope)
    (s t : Closures × Workspace) : Prop :=
  s.1.Keyed → t.1.Keyed ∧ s.1.Learns t.1 ∧
    ((∀ method, t.1.Serves method → S.target method) → s.2.program.Patches id S t.2.program)

variable {α : Type} {id : MethodId} {s t : Closures × Workspace}

instance : IsPreorder (Closures × Workspace) (Patches id S) where
  refl s hKeyed := ⟨hKeyed, refl _, fun _ => refl (r := Program.Patches id S) s.2.program⟩
  trans _ _ _ h h' hKeyed := by
    obtain ⟨hKeyed₁, hFirst, hProgram⟩ := h hKeyed
    obtain ⟨hKeyed₂, hSecond, hProgram'⟩ := h' hKeyed₁
    refine ⟨hKeyed₂, IsTrans.trans _ _ _ hFirst hSecond, fun hServes => ?_⟩
    have hBefore := hProgram fun method hMethod => hServes method (hSecond.serves method hMethod)
    exact IsTrans.trans (r := Program.Patches id S) _ _ _ hBefore (hProgram' hServes)

/-- An edit of no code. -/
theorem Confined.patches (h : Confined (fun _ => False) s t) : Patches id S s t := by
  intro hKeyed
  obtain ⟨hKeyed', hLearns, -, -, hProgram⟩ := h.adapted hKeyed
  exact ⟨hKeyed', hLearns, fun _ => .of_body fun b hBody => hProgram.body (fun h => h) hBody⟩

theorem patches_reads {x : ClosureEdit α} (h : Keeps (Confined fun _ => False) x) :
    Keeps (Patches id S) x :=
  h.mono fun _ _ h => h.patches

theorem patches_editBody {e : BodyEdit α} (he : Keeps (MethodBody.Patches S) e) :
    Keeps (Patches id S) (edit (Program.editBody id e)) := by
  intro s a t h hKeyed
  obtain ⟨p, hEdit, rfl⟩ := edit_ok.mp h
  exact ⟨hKeyed, refl _, fun _ => Program.patches_editBody he hEdit⟩

theorem patches_unrecognized {method : MethodId} {pointer : InstrId} {defect : CallableDefect} :
    Keeps (Patches id S) (unrecognized method pointer defect) :=
  patches_reads keeps_unrecognized

theorem patches_expandCache {construct : InstrId} :
    Keeps (Patches id S) (expandCache id construct) := by
  refine Keeps.bind (patches_reads keeps_receiverPaths) fun paths => ?_
  match paths with
  | [path] =>
      intro s u t h hKeyed
      obtain ⟨b, _, hModel, h⟩ := Step.bind_ok.mp h
      obtain ⟨hBody, rfl⟩ := model_ok hModel
      cases hFound : path.start?.bind fun start => b.cacheAround? start construct with
      | none =>
          simp only [hFound] at h
          obtain ⟨-, rfl⟩ := Step.pure_ok.mp h
          exact refl (r := Patches id S) s hKeyed
      | some ids =>
          simp only [hFound] at h
          obtain ⟨p, hEdit, rfl⟩ := edit_ok.mp h
          refine ⟨hKeyed, refl _, fun _ b₀ hBody₀ hNumbered => ?_⟩
          obtain ⟨b₁, b', hBefore, hRemove, hAfter⟩ := Program.body_of_editBody hEdit
          obtain rfl : b₀ = b := Except.ok.inj (hBody₀.symm.trans hBody)
          obtain rfl : b₁ = b₀ := Except.ok.inj (hBefore.symm.trans hBody)
          obtain ⟨start, -, hCache⟩ := Option.bind_eq_some_iff.mp hFound
          refine ⟨b', hAfter, MethodBody.patches_removeEach hNumbered (fun id hMem i hGet => ?_)
            hRemove⟩
          have hOpcode : (b₁.get? id).map (·.opcode) ∈
              [OpCode.stsfld, .dup, .ldsfld, .dup, .brtrue, .pop].map some := by
            rw [← MethodBody.cacheAround?_opcodes hCache]
            exact List.mem_map_of_mem hMem
          rw [hGet] at hOpcode
          simpa using hOpcode
  | [] | _ :: _ :: _ => exact Keeps.pure _

theorem patches_redirect {pointer : InstrId} {seq : List Instruction} {target : MethodId}
    (hPointer : S.pointer pointer) (hSeq : ∀ i ∈ seq, i.Loads S) (hTarget : S.target target) :
    Keeps (Patches id S) (redirect id pointer seq target) :=
  Keeps.bind (patches_editBody (Keeps.bind (MethodBody.patches_insertBefore hSeq) fun _ =>
    MethodBody.patches_redirect hPointer hTarget)) fun _ => Keeps.pure _

/-- The code that constructs a record names the field that the root is in, and what serves. -/
theorem constructRecord_loads {plan : ContextPlan} {site : RootedMethod} {first : List Instruction}
    {receiver : Option TypeId} {b : Binding} {made : List Instruction × MethodId}
    (hReads : site.handle.Reads plan S) (hFirst : ∀ i ∈ first, i.Loads S)
    (h : constructRecord site first receiver b s = .ok made t) (hKeyed : s.1.Keyed)
    (hServes : ∀ method, t.1.Serves method → S.target method) :
    (∀ i ∈ made.1, i.Loads S) ∧ S.target made.2 := by
  obtain ⟨⟨constructor, forward⟩, s₁, hRecord, h⟩ := Step.bind_ok.mp h
  obtain ⟨-, hConstructor, hForward⟩ :=
    (recordFor_ok (S := fun _ => False) hRecord).2 hKeyed
  obtain ⟨root, _, hRoot, h⟩ := Step.bind_ok.mp h
  obtain ⟨w, hBound, rfl⟩ := work_ok.mp hRoot
  obtain ⟨hLoad, rfl⟩ := CodeEdit.bound_ok.mp hBound
  obtain ⟨rfl, rfl⟩ := Step.pure_ok.mp h
  refine ⟨fun i hMem => ?_, hServes _ hForward⟩
  simp only [List.mem_append, List.mem_singleton] at hMem
  rcases hMem with (hMem | hMem) | rfl
  · exact hFirst i hMem
  · exact hReads.loadRoot hLoad i hMem
  · exact .target (Or.inl rfl) constructor (hServes _ hConstructor) rfl

theorem patches_constructRecord {plan : ContextPlan} {site : RootedMethod} {first : List Instruction}
    {receiver : Option TypeId} {b : Binding} {f : List Instruction × MethodId → ClosureEdit α}
    (hReads : site.handle.Reads plan S) (hFirst : ∀ i ∈ first, i.Loads S)
    (hf : ∀ made, (∀ i ∈ made.1, i.Loads S) → S.target made.2 → Keeps (Patches id S) (f made))
    (hOther : ∀ made, Keeps (Confined (· = id)) (f made)) :
    Keeps (Patches id S) (constructRecord site first receiver b >>= f) := by
  intro s a t h hKeyed
  obtain ⟨made, s₁, hMade, h⟩ := Step.bind_ok.mp h
  have hConfined : Confined (fun _ => False) s s₁ := keeps_constructRecord hMade
  obtain ⟨hKeyed₁, hLearns₁, hProgram₁⟩ := hConfined.patches (S := S) hKeyed
  have hLater := (hOther made h).adapted hKeyed₁
  refine ⟨hLater.keyed, IsTrans.trans _ _ _ hLearns₁ hLater.learns, fun hServes => ?_⟩
  have hServes₁ : ∀ method, s₁.1.Serves method → S.target method :=
    fun method hMethod => hServes method (hLater.learns.serves method hMethod)
  obtain ⟨hSeq, hForward⟩ := constructRecord_loads hReads hFirst hMade hKeyed hServes₁
  obtain ⟨-, -, hProgram⟩ := hf made hSeq hForward h hKeyed₁
  exact IsTrans.trans (r := Program.Patches id S) _ _ _ (hProgram₁ hServes₁) (hProgram hServes)

/-- Adapting a capture is adapting the code around the function pointer. -/
theorem patches_adaptCapture {plan : ContextPlan} {site : RootedMethod} {pointer : InstrId}
    {b : Binding} (hReads : site.handle.Reads plan S) (hPointer : S.pointer pointer)
    (hStands : S.target b.replacement) :
    Keeps (Patches site.method S) (adaptCapture plan site pointer b) := by
  have hPop : ∀ i ∈ [Instruction.plain .pop], i.Loads S := by
    simpa using Instruction.Loads.plain (i := .plain .pop) (Or.inl rfl) rfl
  have hConfined {seq : List Instruction} {target : MethodId} :
      Keeps (Confined (· = site.method)) (redirect site.method pointer seq target) :=
    Keeps.bind (keeps_editBody rfl (Keeps.bind MethodBody.revises_insertBefore fun _ =>
      MethodBody.revises_setOperand)) fun _ => Keeps.pure _
  refine Keeps.bind (patches_reads (keeps_work fun N => CodeEdit.keeps_instruction)) fun i => ?_
  refine Keeps.bind (patches_reads keeps_constructionOf?) fun construct => ?_
  cases construct with
  | none => exact patches_unrecognized
  | some construct =>
    refine Keeps.bind patches_expandCache fun _ => ?_
    refine Keeps.bind (patches_reads keeps_receiverPaths) fun receiver => ?_
    refine Keeps.bind (patches_reads (keeps_work fun N => CodeEdit.keeps_model)) fun body => ?_
    dsimp only
    split
    · intro s outcome t h
      obtain ⟨code, _, hCode, h⟩ := Step.bind_ok.mp h
      obtain ⟨w, hBound, rfl⟩ := work_ok.mp hCode
      obtain ⟨hLoad, rfl⟩ := CodeEdit.bound_ok.mp hBound
      refine patches_redirect hPointer (fun i hMem => ?_) hStands h
      exact (List.mem_append.mp hMem).elim (hPop i) (hReads.loadContext hLoad i)
    · exact patches_constructRecord hReads hPop
        (fun made hSeq hForward => patches_redirect hPointer hSeq hForward) fun _ => hConfined
    · refine Keeps.bind (patches_reads keeps_ownerOf) fun owner => ?_
      exact patches_constructRecord hReads (fun _ h => (List.not_mem_nil h).elim)
        (fun made hSeq hForward => patches_redirect hPointer hSeq hForward) fun _ => hConfined
    · refine Keeps.bind (patches_reads keeps_ownerOf) fun owner => ?_
      refine patches_constructRecord hReads hPop (fun made hSeq hForward => ?_) fun _ => ?_
      · exact Keeps.bind (patches_editBody (Keeps.bind (MethodBody.patches_insertBefore hSeq)
          fun _ => MethodBody.patches_repoint hPointer hForward)) fun _ => Keeps.pure _
      · exact Keeps.bind (keeps_editBody rfl (Keeps.bind MethodBody.revises_insertBefore fun _ =>
          MethodBody.revises_replace)) fun _ => Keeps.pure _
    · exact patches_unrecognized
    · exact patches_unrecognized

theorem patches_storeDisplayRoot {plan : ContextPlan} {site : RootedMethod} {place : InstrId}
    {field : FieldId} (hReads : site.handle.Reads plan S) (hField : S.field field) :
    Keeps (Patches site.method S) (storeDisplayRoot site place field) := by
  intro s u t h
  obtain ⟨root, _, hRoot, h⟩ := Step.bind_ok.mp h
  obtain ⟨w, hBound, rfl⟩ := work_ok.mp hRoot
  obtain ⟨hLoad, rfl⟩ := CodeEdit.bound_ok.mp hBound
  refine Keeps.bind (patches_editBody (MethodBody.patches_insertAfter fun i hMem => ?_))
    (fun _ => Keeps.pure _) h
  simp only [List.mem_append, List.mem_singleton] at hMem
  rcases hMem with (rfl | hMem) | rfl
  · exact .plain (Or.inr rfl) rfl
  · exact hReads.loadRoot hLoad i hMem
  · exact .field (Or.inr (Or.inr rfl)) field hField rfl

end ClosureEdit

namespace Propagation

/-- The code of a method is adapted. -/
def Patches (id : MethodId) (S : Scope)
    (s t : Propagation) : Prop :=
  t.plan = s.plan ∧ ClosureEdit.Patches id S (s.closures, s.work) (t.closures, t.work)

instance {id : MethodId} : IsPreorder Propagation (Patches id S) where
  refl s := ⟨rfl, refl (r := ClosureEdit.Patches id S) (s.closures, s.work)⟩
  trans _ _ _ h h' := ⟨h'.1.trans h.1, IsTrans.trans (r := ClosureEdit.Patches id S) _ _ _ h.2 h'.2⟩

end Propagation

/-- A place may be adapted, and what it needs may be named. -/
def NeedySite.Allowed (S : Scope) (place : NeedySite) : Prop :=
  match place.need with
  | .staticField _ moved => S.place place.instr ∧ S.field moved
  | .singleton _ => S.place place.instr
  | .boundCall b => S.place place.instr ∧ S.call b.replacement
  | .capture b => S.pointer place.instr ∧ S.target b.replacement
  | .displayStore field => S.field field

namespace Propagate

open Propagation (Patches)

variable {α : Type} {method : MethodId} {id : InstrId} {s t : Propagation}

theorem patches_work {e : CodeEdit α}
    (h : Keeps (fun w w' => w.program.Patches method S w'.program) e) :
    Keeps (Patches method S) (work e) := by
  intro s a t hRun
  obtain ⟨w, hEdit, rfl⟩ := Step.focus_ok.mp hRun
  exact ⟨rfl, fun hKeyed => ⟨hKeyed, refl _, fun _ => h hEdit⟩⟩

theorem patches_closures {e : ClosureEdit α} (h : Keeps (ClosureEdit.Patches method S) e) :
    Keeps (Patches method S) (closures e) := by
  intro s a t hRun
  obtain ⟨u, hEdit, rfl⟩ := Step.focus_ok.mp hRun
  exact ⟨rfl, h hEdit⟩

theorem patches_editBody {e : BodyEdit α} (he : Keeps (MethodBody.Patches S) e) :
    Keeps (Patches method S) (editBody method e) :=
  patches_work fun _ _ _ h => by
    obtain ⟨p, hEdit, rfl⟩ := CodeEdit.edit_ok.mp h
    exact Program.patches_editBody he hEdit

theorem patches_model {f : Program → Except ModelError α} :
    Keeps (Patches method S) (model f) := by
  intro s a t h
  obtain ⟨-, rfl⟩ := model_ok.mp h
  exact refl (r := Patches method S) s

theorem patches_instruction {other : MethodId} :
    Keeps (Patches method S) (work (CodeEdit.instruction other id)) :=
  patches_model

theorem patches_count {f : PropagationStats → PropagationStats} :
    Keeps (Patches method S) (modify (.count f) : Propagate PUnit) :=
  Keeps.modify fun s => ⟨rfl, refl (r := ClosureEdit.Patches method S) (s.closures, s.work)⟩

theorem patches_insertBelow {slot : Nat} {seq : List Instruction} (hSeq : ∀ i ∈ seq, i.Loads S) :
    Keeps (Patches method S) (insertBelow method id slot seq) := by
  refine Keeps.bind (patches_work (CodeEdit.patches_insertBelow hSeq)) fun placement => ?_
  cases placement with
  | before anchor => exact Keeps.pure _
  | spilled locals => exact patches_count

variable {site : RootedMethod}

/-- The code that is put in to reach a context may be named. -/
theorem patches_loadContext {context : ContextId} {access : ChainAccess}
    {f : List Instruction → Propagate α} (hReads : site.handle.Reads s.plan S)
    (hf : ∀ code, (∀ i ∈ code, i.Loads S) → Keeps (Patches method S) (f code)) {a : α}
    (h : (loadContext site context access >>= f) s = .ok a t) : Patches method S s t := by
  obtain ⟨code, _, hCode, h⟩ := Step.bind_ok.mp h
  obtain ⟨_, _, hGet, hCode⟩ := Step.bind_ok.mp hCode
  obtain ⟨rfl, rfl⟩ := Step.get_ok.mp hGet
  obtain ⟨hLoad, rfl⟩ := bound_ok.mp hCode
  exact hf code (hReads.loadContext hLoad) h

theorem adaptField_patches {context : ContextId} {moved : FieldId} {u : Unit}
    (hReads : site.handle.Reads s.plan S) (hPlace : S.place id) (hMoved : S.field moved)
    (h : adaptField site id context moved s = .ok u t) : Patches site.method S s t := by
  obtain ⟨i, _, hInstruction, h⟩ := Step.bind_ok.mp h
  obtain ⟨w, hWork, rfl⟩ := Step.focus_ok.mp hInstruction
  obtain ⟨-, rfl⟩ := CodeEdit.instruction_ok.mp hWork
  have hWith {opcode : OpCode} (hOpcode : opcode = .ldfld ∨ opcode = .ldflda ∨ opcode = .stfld)
      {code : List Instruction} (hCode : ∀ i ∈ code, i.Loads S) :
      ∀ i ∈ code ++ [.onField opcode moved], i.Loads S := by
    intro i hMem
    rcases List.mem_append.mp hMem with hMem | hMem
    · exact hCode i hMem
    · obtain rfl := List.mem_singleton.mp hMem
      exact .field hOpcode moved hMoved rfl
  have hLoaded {opcode : OpCode} {access : ChainAccess}
      (hOpcode : opcode = .ldfld ∨ opcode = .ldflda ∨ opcode = .stfld)
      (h : (do
        let code ← loadContext site context access
        let _ ← editBody site.method (MethodBody.replaceWith id (code ++ [.onField opcode moved]))
        : Propagate Unit) s = .ok u t) : Patches site.method S s t := by
    refine patches_loadContext hReads (fun code hCode => ?_) h
    exact Keeps.bind (patches_editBody (MethodBody.patches_replaceWith hPlace
      (hWith hOpcode hCode))) fun _ => Keeps.pure _
  generalize i.opcode = opcode at h
  cases opcode
  case ldsfld => exact hLoaded (Or.inl rfl) h
  case ldsflda => exact hLoaded (Or.inr (Or.inl rfl)) h
  case stsfld =>
    refine patches_loadContext hReads (fun code hCode => ?_) h
    refine Keeps.bind (patches_insertBelow hCode) fun _ => ?_
    exact patches_editBody (MethodBody.patches_replace hPlace
      (.field (Or.inr (Or.inr rfl)) moved hMoved rfl))
  all_goals exact (Step.pure_ok.mp h).2 ▸ refl (r := Patches site.method S) s

theorem adaptSingleton_patches {context : ContextId} {u : Unit}
    (hReads : site.handle.Reads s.plan S) (hPlace : S.place id)
    (h : adaptSingleton site id context s = .ok u t) : Patches site.method S s t :=
  patches_loadContext hReads (fun _ hCode => Keeps.bind (patches_editBody
    (MethodBody.patches_replaceWith hPlace hCode)) fun _ => Keeps.pure _) h

theorem adaptCall_patches {b : Binding} {u : Unit} (hReads : site.handle.Reads s.plan S)
    (hPlace : S.place id) (hStands : S.call b.replacement) (h : adaptCall site id b s = .ok u t) :
    Patches site.method S s t := by
  obtain ⟨i, _, hInstruction, h⟩ := Step.bind_ok.mp h
  obtain ⟨w, hWork, rfl⟩ := Step.focus_ok.mp hInstruction
  obtain ⟨-, rfl⟩ := CodeEdit.instruction_ok.mp hWork
  cases hMode : b.mode with
  | unbound =>
      simp only [hMode] at h
      obtain ⟨-, rfl⟩ := Step.pure_ok.mp h
      exact refl (r := Patches site.method S) s
  | addedParameter =>
      simp only [hMode] at h
      have hRest {slot : Nat} {s : Propagation} (h : (do
          let root ← bound fun p => site.handle.loadRoot p site.method
          insertBelow site.method id slot root
          editBody site.method (MethodBody.setOperand id (.method b.replacement))
          : Propagate Unit) s = .ok u t) : Patches site.method S s t := by
        obtain ⟨root, _, hRoot, h⟩ := Step.bind_ok.mp h
        obtain ⟨hLoad, rfl⟩ := bound_ok.mp hRoot
        exact Keeps.bind (patches_insertBelow (hReads.loadRoot hLoad)) (fun _ =>
          patches_editBody (MethodBody.patches_setOperand hPlace hStands)) h
      split at h
      · obtain ⟨_, _, hPure, h⟩ := Step.bind_ok.mp h
        obtain ⟨-, rfl⟩ := Step.pure_ok.mp hPure
        exact hRest h
      · obtain ⟨m, _, hModel, h⟩ := Step.bind_ok.mp h
        obtain ⟨-, rfl⟩ := model_ok.mp hModel
        obtain ⟨_, _, hPure, h⟩ := Step.bind_ok.mp h
        obtain ⟨-, rfl⟩ := Step.pure_ok.mp hPure
        exact hRest h
  | instanceConverted context =>
      simp only [hMode] at h
      refine patches_loadContext hReads (fun code hCode => ?_) h
      refine Keeps.bind (patches_insertBelow hCode) fun _ => ?_
      exact patches_editBody (MethodBody.patches_replace hPlace
        (.call rfl _ hStands rfl))

/-- Adapting a place is adapting the code around it. -/
theorem adaptSite_patches {place : NeedySite} {r : Bool} (hReads : site.handle.Reads s.plan S)
    (hAllowed : place.Allowed S) (h : adaptSite site place s = .ok r t) :
    Patches site.method S s t := by
  unfold adaptSite at h
  unfold NeedySite.Allowed at hAllowed
  cases hCase : place.need with
  | staticField context moved =>
      simp only [hCase] at h hAllowed
      obtain ⟨_, s₁, hField, h⟩ := Step.bind_ok.mp h
      obtain ⟨-, rfl⟩ := Step.pure_ok.mp h
      exact adaptField_patches hReads hAllowed.1 hAllowed.2 hField
  | singleton context =>
      simp only [hCase] at h hAllowed
      obtain ⟨_, s₁, hSingleton, h⟩ := Step.bind_ok.mp h
      obtain ⟨-, rfl⟩ := Step.pure_ok.mp h
      exact adaptSingleton_patches hReads hAllowed hSingleton
  | boundCall b =>
      simp only [hCase] at h hAllowed
      obtain ⟨_, s₁, hCall, h⟩ := Step.bind_ok.mp h
      obtain ⟨-, rfl⟩ := Step.pure_ok.mp h
      exact adaptCall_patches hReads hAllowed.1 hAllowed.2 hCall
  | capture b =>
      simp only [hCase] at h hAllowed
      obtain ⟨_, s₁, hCount, h⟩ := Step.bind_ok.mp h
      have hFirst : Patches site.method S s s₁ := patches_count hCount
      obtain ⟨_, _, hGet, h⟩ := Step.bind_ok.mp h
      obtain ⟨rfl, rfl⟩ := Step.get_ok.mp hGet
      have hReads : site.handle.Reads s₁.plan S := hFirst.1 ▸ hReads
      refine IsTrans.trans (r := Patches site.method S) _ _ _ hFirst (Keeps.bind
        (patches_closures (ClosureEdit.patches_adaptCapture hReads hAllowed.1 hAllowed.2))
        (fun outcome => ?_) h)
      cases outcome <;> exact Keeps.pure _
  | displayStore field =>
      simp only [hCase] at h hAllowed
      exact (Keeps.bind (patches_closures (ClosureEdit.patches_storeDisplayRoot hReads hAllowed))
        fun _ => Keeps.pure _) h

/-- Adapting a method is adapting its code at places that need the root, whatever comes of the
captures among them. -/
theorem adaptInPlace_patches {places : List NeedySite} {u : Unit}
    (hReads : site.handle.Reads s.plan S) (hAllowed : ∀ place ∈ places, place.Allowed S)
    (h : adaptInPlace site places s = .ok u t) : Patches site.method S s t := by
  obtain ⟨outcomes, s₁, hSites, h⟩ := Step.bind_ok.mp h
  have hFirst : Patches site.method S s s₁ := by
    refine @Step.mapM_induct _ _ _ _ (fun _ u => Patches site.method S s u) _ _
      (fun place hMem _ r u v hBefore hStep => ?_) [] _ _ _
      (refl (r := Patches site.method S) s) hSites
    have hReads : site.handle.Reads u.plan S := hBefore.1 ▸ hReads
    exact IsTrans.trans (r := Patches site.method S) _ _ _ hBefore
      (adaptSite_patches hReads (hAllowed place hMem) hStep)
  refine IsTrans.trans (r := Patches site.method S) _ _ _ hFirst (Keeps.ite ?_ (Keeps.pure _) h)
  refine Keeps.bind patches_count fun _ => fun v u t h => ?_
  obtain ⟨w, -, rfl⟩ := graph_ok.mp h
  exact refl (r := Patches site.method S) v

end Propagate

end ContextBinding
