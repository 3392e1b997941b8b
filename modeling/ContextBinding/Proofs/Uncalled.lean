import ContextBinding.Proofs.Patching
import ContextBinding.Proofs.Rederivation
import ContextBinding.Proofs.Sharing

/-! Methods that no code calls. What a run puts into code calls nothing but what stands in for bound
methods and what the run declares, so that any other method stays uncalled, in the code and in the
reference graph. -/

namespace ContextBinding

/-- The method that an instruction calls or constructs with. -/
def Instruction.callee? (i : Instruction) : Option MethodId :=
  if i.opcode.isCall then i.method? else none

/-- No instruction calls a method in `U`. -/
def MethodBody.Shuns (U : MethodId → Prop) (b : MethodBody) : Prop :=
  ∀ i ∈ b.instructions, ∀ id, i.callee? = some id → ¬ U id

/-- No code calls a method in `U`, apart perhaps from that of the methods in `S`. -/
def Program.Shuns (U S : MethodId → Prop) (p : Program) : Prop :=
  ∀ id m b, p.method? id = some m → m.body = some b → ¬ S id → b.Shuns U

variable {U S : MethodId → Prop}

theorem Instruction.callee?_of_gist {i j : Instruction} (h : i.gist = j.gist) :
    i.callee? = j.callee? := by
  obtain ⟨hOpcode, hRest⟩ := Prod.mk.inj h
  obtain ⟨-, hMethod⟩ := Prod.mk.inj hRest
  rw [callee?, callee?, hOpcode, hMethod]

theorem Instruction.method?_of_callee? {i : Instruction} {id : MethodId}
    (h : i.callee? = some id) : i.method? = some id := by
  unfold callee? at h
  split at h
  · exact h
  · cases h

namespace MethodBody

variable {b b' : MethodBody} {id : InstrId}

theorem Shuns.of_code (h : b.Shuns U) (hCode : ∀ j ∈ b'.instructions,
    (∃ i ∈ b.instructions, i.gist = j.gist) ∨ ∀ id, j.callee? = some id → ¬ U id) : b'.Shuns U := by
  intro j hj id hCallee
  rcases hCode j hj with ⟨i, hi, hGist⟩ | hNew
  · exact h i hi id (Instruction.callee?_of_gist hGist ▸ hCallee)
  · exact hNew id hCallee

theorem shuns_fresh {code : List Instruction}
    (h : ∀ i ∈ code, ∀ id, i.callee? = some id → ¬ U id) : (fresh code).Shuns U := by
  intro j hj id hCallee
  have hj : j ∈ number 0 code := by simpa [fresh, splice, empty] using hj
  obtain ⟨⟨i, hi, hGist⟩, -⟩ := mem_number hj
  exact h i hi id (Instruction.callee?_of_gist hGist ▸ hCallee)

theorem Shuns.shiftArguments (h : b.Shuns U) (first amount : Nat) :
    (b.shiftArguments first amount).Shuns U := by
  unfold MethodBody.shiftArguments
  split
  · exact h
  · refine h.of_code fun j hj => Or.inl ?_
    obtain ⟨i, hi, rfl⟩ := List.mem_map.mp hj
    refine ⟨i, hi, ?_⟩
    unfold shiftArgument
    split
    · rename_i index hOperand
      split
      · simp [Instruction.gist, Instruction.field?, Instruction.method?, hOperand]
      · rfl
    · rfl

/-- An operand may name any method that need not stay uncalled. -/
theorem shuns_setOperand {operand : Operand} (hOperand : ∀ m, operand = .method m → ¬ U m) :
    Keeps (fun b b' => b.Shuns U → b'.Shuns U) (setOperand id operand) := by
  intro b u b' h hShuns
  obtain ⟨position, _, hRequire, h⟩ := Step.bind_ok.mp h
  obtain ⟨-, rfl⟩ := require_ok.mp hRequire
  obtain rfl := Step.modify_ok.mp h
  refine hShuns.of_code fun j hj => ?_
  obtain ⟨k, hk, rfl⟩ := List.mem_iff_getElem.mp hj
  simp only [modifyAt, List.getElem_modify]
  split
  · refine Or.inr fun m hCallee => hOperand m ?_
    have hMethod := Instruction.method?_of_callee? hCallee
    cases operand <;> simp_all [Instruction.method?]
  · exact Or.inl ⟨_, List.getElem_mem _, rfl⟩

theorem shuns_insertBefore {seq : List Instruction}
    (hSeq : ∀ i ∈ seq, ∀ m, i.callee? = some m → ¬ U m) :
    Keeps (fun b b' => b.Shuns U → b'.Shuns U) (insertBefore id seq) := by
  intro b ids b' h hShuns
  obtain ⟨position, _, hRequire, h⟩ := Step.bind_ok.mp h
  obtain ⟨-, rfl⟩ := require_ok.mp hRequire
  split at h
  · exact (Step.pure_ok.mp h).2 ▸ hShuns
  · obtain ⟨_, _, hGet, h⟩ := Step.bind_ok.mp h
    obtain ⟨rfl, rfl⟩ := Step.get_ok.mp hGet
    obtain ⟨_, _, hSet, h⟩ := Step.bind_ok.mp h
    obtain rfl := Step.set_ok.mp hSet
    obtain ⟨-, rfl⟩ := Step.pure_ok.mp h
    refine hShuns.of_code fun j hj => ?_
    rcases mem_splice hj with hOld | ⟨⟨i, hi, hGist⟩, -⟩
    · obtain ⟨i, hi, rfl⟩ := List.mem_map.mp hOld
      exact Or.inl ⟨i, hi, (i.gist_retarget ..).symm⟩
    · exact Or.inr fun m hCallee => hSeq i hi m (Instruction.callee?_of_gist hGist ▸ hCallee)

/-- Adapting code puts in no calls of methods that it may not name. -/
theorem Shuns.patches {S : Scope} (hNames : ∀ id, S.call id ∨ S.target id → ¬ U id)
    (h : b.Shuns U) (hNumbered : b.Numbered) (hPatches : Patches S b b') : b'.Shuns U := by
  refine hPatches.induct hNumbered h fun b b' hNumbered hPatch h => ?_
  obtain ⟨D, hReworked⟩ := hPatch.reworked hNumbered
  refine h.of_code fun j hj => (hReworked.code j hj).imp ?_ ?_
  · rintro ⟨i, hi, -, hGist, -⟩
    exact ⟨i, hi, hGist⟩
  · rintro ⟨hNew, -⟩ id hCallee
    exact hNames id (hNew.2 id (Instruction.method?_of_callee? hCallee))

end MethodBody

namespace Program

variable {p q : Program}

/-- Where no other code is edited and no method declared, a method stays uncalled. -/
theorem Shuns.confined (h : p.Shuns U S) (hProgram : Confined S (fun _ => False) p q) :
    q.Shuns U S := by
  intro id m' b hMethod' hBody hOther
  rcases hProgram.code id m' hMethod' with ⟨m, hMethod, hSame | hEdited⟩ | ⟨-, hNever⟩
  · exact h id m b hMethod (hSame ▸ hBody) hOther
  · exact (hOther hEdited).elim
  · exact hNever.elim

/-- So it does if the methods are the same. -/
theorem Shuns.of_methods (h : p.Shuns U S) (hMethods : q.methods = p.methods) : q.Shuns U S :=
  fun id m b hMethod => h id m b (by rwa [method?, ← hMethods])

/-- A method may be declared with code that does not call it. -/
theorem Shuns.append (h : p.Shuns U S) {m : MethodDef} (hMethods : q.methods = p.methods ++ [m])
    (hBody : ∀ b, m.body = some b → b.Shuns U) : q.Shuns U S := by
  intro id m' b hMethod hCode hOther
  rw [method?, hMethods] at hMethod
  rcases Nat.lt_or_ge id.index p.methods.length with hOld | hNew
  · rw [List.getElem?_append_left hOld] at hMethod
    exact h id m' b hMethod hCode hOther
  · rw [List.getElem?_append_right hNew, List.getElem?_singleton] at hMethod
    split at hMethod
    · obtain rfl := Option.some_inj.mp hMethod
      exact hBody b hCode
    · cases hMethod

/-- A method may be given code that does not call it. -/
theorem Shuns.modify (h : p.Shuns U S) {id : MethodId} {f : MethodDef → MethodDef}
    (hf : ∀ m b, p.method? id = some m → ¬ S id → (f m).body = some b → b.Shuns U) :
    Shuns U S { p with methods := p.methods.modify id.index f } := by
  intro other m' b hMethod' hBody hOther
  obtain ⟨m, hMethod, rfl⟩ := Option.map_eq_some_iff.mp
    ((method?_modify p f id other).symm.trans hMethod')
  split at hBody
  · rename_i hSame
    subst hSame
    exact hf m b hMethod hOther hBody
  · exact h other m b hMethod hBody hOther

/-- A step leaves a method uncalled. -/
def KeepsShunned (U S : MethodId → Prop) (p q : Program) : Prop := p.Shuns U S → q.Shuns U S

instance : IsPreorder Program (KeepsShunned U S) where
  refl _ h := h
  trans _ _ _ h h' hShuns := h' (h hShuns)

variable {α : Type}

theorem shuns_of_rewrites {e : Edit α} (h : Keeps (Rewrites S fun _ => False) e) :
    Keeps (KeepsShunned U S) e :=
  h.mono fun _ _ hProgram hShuns => hShuns.confined hProgram.toConfined

theorem shuns_editBody {id : MethodId} {e : BodyEdit α}
    (he : Keeps (fun b b' => b.Shuns U → b'.Shuns U) e) :
    Keeps (KeepsShunned U S) (editBody id e) := by
  intro p a q h hShuns
  obtain ⟨m, b, b', hMethod, hCode, hEdit, rfl⟩ := editBody_ok h
  refine Shuns.modify (p := p.touch) (hShuns.of_methods rfl) fun m' c hMethod' hOther hBody => ?_
  obtain rfl := Option.some_inj.mp hBody
  exact he hEdit (hShuns id m b hMethod hCode hOther)

theorem shuns_setBody {id : MethodId} {b : MethodBody} (hb : b.Shuns U) :
    Keeps (KeepsShunned U S) (setBody id b) := by
  intro p u q h hShuns
  obtain ⟨-, rfl⟩ := modifyMethod_ok h
  refine Shuns.modify (p := p.touch) (hShuns.of_methods rfl) fun m c _ _ hBody => ?_
  obtain rfl := Option.some_inj.mp hBody
  exact hb

theorem shuns_addMethod {owner : TypeId} {name : String} {params : List Param} {result : TypeRef}
    {flags : FlagSet MethodFlag} :
    Keeps (KeepsShunned U S) (addMethod owner name params result flags) := by
  intro p id q h hShuns
  obtain ⟨-, -, -, hMethods⟩ := addMethod_ok h
  exact hShuns.append hMethods fun b hBody => nomatch hBody

/-- The copy of a method calls what the method does. -/
theorem shuns_cloneMethod {id : MethodId} {owner : TypeId} {name : String} {shape : MethodShape}
    (hOther : ¬ S id) : Keeps (KeepsShunned U S) (cloneMethod id owner name shape) := by
  intro p copy q h hShuns
  obtain ⟨source, hSource, -, -, -, hMethods⟩ := cloneMethod_ok h
  refine hShuns.append hMethods fun b hBody => ?_
  obtain ⟨c, hCode, rfl⟩ := Option.map_eq_some_iff.mp hBody
  exact (hShuns id source c hSource hCode hOther).shiftArguments _ _

/-- Naming copies calls nothing but them. -/
theorem shuns_remapMembers {id : MethodId} {clone : TypeClone}
    (hClone : ∀ m ∈ clone.methods.values, ¬ U m) :
    Keeps (KeepsShunned U S) (remapMembers id clone) := by
  refine Keeps.bind Keeps.get fun p => Keeps.bind (Keeps.lift _) fun m => ?_
  split
  · exact Keeps.pure _
  · rename_i b _
    refine Keeps.ite (Keeps.pure _) (Keeps.bind (shuns_editBody ?_) fun _ => Keeps.pure _)
    let R (b b' : MethodBody) : Prop := b.Shuns U → b'.Shuns U
    have : IsPreorder MethodBody R :=
      { refl := fun _ h => h, trans := fun _ _ _ h h' hShuns => h' (h hShuns) }
    refine (?_ : Keeps R _)
    refine Keeps.forM fun change hMem => MethodBody.shuns_setOperand fun m hOperand => ?_
    obtain ⟨i, -, hChange⟩ := List.mem_filterMap.mp hMem
    obtain ⟨operand, hMap, rfl⟩ := Option.map_eq_some_iff.mp hChange
    subst hOperand
    unfold TypeClone.mapOperand? at hMap
    split at hMap
    · obtain ⟨_, -, hNever⟩ := Option.map_eq_some_iff.mp hMap
      cases hNever
    · obtain ⟨m', hGet, hSame⟩ := Option.map_eq_some_iff.mp hMap
      obtain rfl : m' = m := by simpa using hSame
      exact hClone m' (Table.mem_values_of_get? hGet)
    · split at hMap <;> cases hMap
    · cases hMap

/-- So does copying a type, as long as all methods that are to stay uncalled were there. -/
theorem shuns_cloneType {id : TypeId} {declaring : Option TypeId} {clone : TypeClone}
    (h : cloneType id declaring p = .ok clone q) (hOld : ∀ u, U u → u.index < p.methods.length)
    (hShuns : p.Shuns U fun _ => False) : q.Shuns U fun _ => False := by
  obtain ⟨-, -, -, hNew, -⟩ := cloneType_ok h
  have hFresh : ∀ m ∈ clone.methods.values, ¬ U m := fun m hMem hIn =>
    absurd (hOld m hIn) (Nat.not_lt.mpr (hNew m hMem).1)
  unfold cloneType at h
  simp only [Step.bind_ok, Step.get_ok, Step.lift_ok] at h
  obtain ⟨_, _, ⟨rfl, rfl⟩, source, _, ⟨-, rfl⟩, copy, p₁, hAdd, _, p₂, hModify, withFields, p₃,
    hFields, whole, p₄, hMethods, _, p₅, hRemap, _, p₆, hProperties, hEnd⟩ := h
  obtain ⟨rfl, rfl⟩ := Step.pure_ok.mp hEnd
  obtain ⟨-, -, -, hSame, -⟩ := addType_ok hAdd
  have h₁ := hShuns.of_methods hSame
  have h₂ : p₂.Shuns U fun _ => False := by
    obtain ⟨-, rfl⟩ := modifyType_ok hModify
    exact h₁.of_methods rfl
  have h₃ := shuns_of_rewrites (keeps_cloneFields _ _) hFields h₂
  have h₄ : p₄.Shuns U fun _ => False := by
    have hKeeps (ids : List MethodId) (clone : TypeClone) :
        Keeps (KeepsShunned U fun _ => False) (cloneMethods copy ids clone) := by
      induction ids generalizing clone with
      | nil => exact Keeps.pure _
      | cons id ids ih =>
          rw [cloneMethods]
          refine Keeps.bind Keeps.get fun p => Keeps.bind (Keeps.lift _) fun m => ?_
          exact Keeps.bind (shuns_cloneMethod fun h => h) fun _ => ih _
    exact hKeeps _ _ hMethods h₃
  have h₅ : p₅.Shuns U fun _ => False := by
    refine (?_ : Keeps (KeepsShunned U fun _ => False) _) hRemap h₄
    exact Keeps.forM fun m _ => Keeps.bind (shuns_remapMembers hFresh) fun _ => Keeps.pure _
  refine (?_ : Keeps (KeepsShunned U fun _ => False) _) hProperties h₅
  exact Keeps.forM fun _ _ => shuns_of_rewrites keeps_addProperty

end Program

namespace CaptureRecord

variable {p q : Program}

/-- A record is declared with code that calls nothing, and a constructor of its own. -/
theorem synthesize_shuns {root : TypeId} {key : RecordKey} {r : CaptureRecord}
    (h : synthesize root key p = .ok r q) (hShuns : p.Shuns U S) :
    q.Shuns U S ∧ p.methods.length ≤ r.constructor.index := by
  unfold synthesize at h
  simp only [Step.bind_ok, Step.get_ok, Step.lift_ok] at h
  obtain ⟨_, _, ⟨rfl, rfl⟩, m, _, ⟨-, rfl⟩, name, _, ⟨hName, rfl⟩, type, p₁, hType, receiver, p₂,
    hReceiver, rootField, p₃, hRoot, constructor, p₄, hConstructor, _, p₅, hBody, hEnd⟩ := h
  obtain ⟨rfl, rfl⟩ := Step.pure_ok.mp hEnd
  obtain ⟨-, hGrows, -, hSame, -⟩ := Program.addType_ok hType
  obtain ⟨hIndex, -, -, -⟩ := Program.addMethod_ok hConstructor
  have h₂ : p₁.Rewrites (fun _ => False) (fun _ => False) p₂ := by
    refine (?_ : Keeps (Program.Rewrites _ _) (declareReceiver type key.receiver)) hReceiver
    cases key.receiver with
    | none => exact Keeps.pure _
    | some receiver => exact Keeps.bind Program.keeps_addField fun _ => Keeps.pure _
  have h₃ : p₂.Rewrites (fun _ => False) (fun _ => False) p₃ := Program.keeps_addField hRoot
  have hFields : p₃.Shuns U S := (hShuns.of_methods hSame).confined
    ((h₂.trans h₃).toConfined.mono (fun _ => False.elim) fun _ h => h)
  have hCode : ∀ i ∈ storeArguments (receiver.toList ++ [rootField]), i.callee? = none := by
    intro i hi
    rcases List.mem_append.mp hi with hi | hi
    · obtain ⟨e, -, hi⟩ := List.mem_flatMap.mp hi
      simp only [List.mem_cons, List.not_mem_nil, or_false] at hi
      rcases hi with rfl | rfl | rfl <;> rfl
    · rw [List.mem_singleton.mp hi]
      rfl
  refine ⟨Program.shuns_setBody (MethodBody.shuns_fresh fun i hi id hCallee => ?_) hBody
    (Program.shuns_addMethod hConstructor hFields), ?_⟩
  · rw [hCode i hi] at hCallee
    cases hCallee
  · rw [hIndex]
    exact hGrows.methods.length_le.trans (h₂.trans h₃).grows.methods.length_le

/-- A method of a record calls what it forwards to. -/
theorem trampoline_shuns {r r' : CaptureRecord} {forwarded replacement method : MethodId}
    (h : r.trampoline forwarded replacement p = .ok (method, r') q) (hShuns : p.Shuns U S)
    (hStands : ¬ U replacement) : q.Shuns U S := by
  unfold trampoline at h
  cases hKnown : r.trampolines.get? replacement with
  | some existing =>
    simp only [hKnown] at h
    exact (Step.pure_ok.mp h).2 ▸ hShuns
  | none =>
    simp only [hKnown, Step.bind_ok, Step.get_ok, Step.lift_ok] at h
    obtain ⟨_, _, ⟨rfl, rfl⟩, source, _, ⟨-, rfl⟩, target, _, ⟨-, rfl⟩, new, p₁, hAdd, _, p₂, hBody,
      hEnd⟩ := h
    obtain ⟨-, rfl⟩ := Step.pure_ok.mp hEnd
    refine Program.shuns_setBody (MethodBody.shuns_fresh fun i hi id hCallee => ?_) hBody
      (Program.shuns_addMethod hAdd hShuns)
    have hMethod := Instruction.method?_of_callee? hCallee
    simp only [forwardingCode, List.mem_append, List.mem_map, List.mem_cons, List.not_mem_nil,
      or_false] at hi
    rcases hi with ((hi | rfl | rfl) | ⟨_, -, rfl⟩) | rfl | rfl
    · unfold loadReceiver at hi
      split at hi
      · simp only [List.mem_cons, List.not_mem_nil, or_false] at hi
        rcases hi with rfl | rfl <;> cases hMethod
      · cases hi
    · cases hMethod
    · cases hMethod
    · cases hMethod
    · obtain rfl := Option.some_inj.mp hMethod
      exact hStands
    · cases hMethod

end CaptureRecord

/-- All methods by which records serve, and those of the copies of display classes, came behind the
first `n` methods. -/
structure Closures.After (c : Closures) (n : Nat) : Prop where
  serves : ∀ id, c.Serves id → n ≤ id.index
  copies : ∀ pair clone, c.relocated.get? pair = some clone →
    ∀ id ∈ clone.methods.values, n ≤ id.index

variable {n : Nat}

namespace Closures.After

variable {c : Closures}

/-- A record may be entered whose methods came as late. -/
theorem putRecord (h : c.After n) {r : CaptureRecord} (hConstructor : n ≤ r.constructor.index)
    (hForwards : ∀ replacement id, r.trampolines.get? replacement = some id → n ≤ id.index) :
    (c.putRecord r).After n := by
  refine ⟨fun id hServes => ?_, h.copies⟩
  obtain ⟨key, known, hGet, hMethod⟩ := hServes
  simp only [Closures.putRecord, Table.get?_insert] at hGet
  split at hGet
  · obtain rfl := Option.some_inj.mp hGet
    rcases hMethod with rfl | ⟨replacement, hForward⟩
    · exact hConstructor
    · exact hForwards replacement id hForward
  · exact h.serves id ⟨key, known, hGet, hMethod⟩

end Closures.After

namespace ClosureEdit

/-- No code calls a method in `U`, and what serves captures came behind the first `n` methods. -/
structure Shuns (U S : MethodId → Prop) (n : Nat) (s : Closures × Workspace) : Prop where
  grown : n ≤ s.2.program.methods.length
  after : s.1.After n
  code : s.2.program.Shuns U S

/-- A step leaves it so. -/
def KeepsShunned (U S : MethodId → Prop) (n : Nat) (s t : Closures × Workspace) : Prop :=
  Shuns U S n s → Shuns U S n t

instance : IsPreorder (Closures × Workspace) (KeepsShunned U S n) where
  refl _ h := h
  trans _ _ _ h h' hShuns := h' (h hShuns)

variable {α : Type} {s t : Closures × Workspace}

theorem shuns_work : WorkKeeps S (KeepsShunned U S n) := by
  intro α e h s a t hRun hShuns
  obtain ⟨w, hEdit, rfl⟩ := work_ok.mp hRun
  have hProgram := h (fun _ => False) hEdit
  exact ⟨hShuns.grown.trans hProgram.grows.methods.length_le, hShuns.after,
    hShuns.code.confined hProgram.toConfined⟩

/-- A record that is requested came as late as the others. -/
theorem record_shuns {key : RecordKey} {r : CaptureRecord} (h : record key s = .ok r t)
    (hShuns : Shuns U S n s) : Shuns U S n t ∧ n ≤ r.constructor.index ∧
      ∀ replacement id, r.trampolines.get? replacement = some id → n ≤ id.index := by
  obtain ⟨c, _, hClosures, h⟩ := Step.bind_ok.mp h
  obtain ⟨rfl, rfl⟩ := closures_ok.mp hClosures
  cases hKnown : s.1.records.get? key with
  | some known =>
      simp only [hKnown] at h
      obtain ⟨rfl, rfl⟩ := Step.pure_ok.mp h
      exact ⟨hShuns, hShuns.after.serves _ ⟨key, known, hKnown, Or.inl rfl⟩,
        fun replacement id hGet => hShuns.after.serves id ⟨key, known, hKnown, Or.inr ⟨_, hGet⟩⟩⟩
  | none =>
      simp only [hKnown] at h
      obtain ⟨new, _, hEdit, h⟩ := Step.bind_ok.mp h
      obtain ⟨p, hNew, rfl⟩ := edit_ok.mp hEdit
      obtain ⟨_, _, hUpdate, h⟩ := Step.bind_ok.mp h
      obtain rfl := update_ok.mp hUpdate
      obtain ⟨rfl, rfl⟩ := Step.pure_ok.mp h
      obtain ⟨-, -, hProgram, -, hNone, -⟩ := CaptureRecord.synthesize_ok hNew
      obtain ⟨hCode, hLate⟩ := CaptureRecord.synthesize_shuns hNew hShuns.code
      have hConstructor : n ≤ new.constructor.index := hShuns.grown.trans hLate
      have hForwards (replacement id : MethodId) (hGet : new.trampolines.get? replacement = some id) :
          n ≤ id.index := by
        rw [hNone] at hGet
        cases hGet
      have hPut := hShuns.after.putRecord hConstructor hForwards
      exact ⟨⟨hShuns.grown.trans hProgram.grows.methods.length_le, ⟨hPut.serves, hPut.copies⟩, hCode⟩,
        hConstructor, hForwards⟩

/-- Providing the record for a capture calls what stands in for the captured method. -/
theorem shuns_recordFor {method : MethodId} {receiver : Option TypeId} {b : Binding}
    (hStands : ¬ U b.replacement) : Keeps (KeepsShunned U S n) (recordFor method receiver b) := by
  intro s made t h hShuns
  obtain ⟨r, s₁, hRecord, h⟩ := Step.bind_ok.mp h
  obtain ⟨hShuns, hConstructor, hForwards⟩ := record_shuns hRecord hShuns
  obtain ⟨⟨forward, r'⟩, _, hEdit, h⟩ := Step.bind_ok.mp h
  obtain ⟨p, hForward, rfl⟩ := edit_ok.mp hEdit
  obtain ⟨_, _, hUpdate, h⟩ := Step.bind_ok.mp h
  obtain rfl := update_ok.mp hUpdate
  obtain ⟨-, rfl⟩ := Step.pure_ok.mp h
  have hCode := CaptureRecord.trampoline_shuns hForward hShuns.code hStands
  obtain ⟨hExtends, -, hProgram⟩ := CaptureRecord.trampoline_ok hForward
  refine ⟨hShuns.grown.trans hProgram.grows.methods.length_le, hShuns.after.putRecord ?_ ?_, hCode⟩
  · exact hExtends.constructor ▸ hConstructor
  · intro replacement id hGet
    rcases CaptureRecord.trampoline_cases hForward with ⟨-, rfl, -⟩ | ⟨-, rfl, -, rfl, -⟩
    · exact hForwards replacement id hGet
    · simp only [Table.get?_insert] at hGet
      split at hGet
      · exact Option.some_inj.mp hGet ▸ hShuns.grown
      · exact hForwards replacement id hGet

theorem shuns_adaptCapture {plan : ContextPlan} {site : RootedMethod} {pointer : InstrId}
    {b : Binding} (hS : S site.method) (hStands : ¬ U b.replacement) :
    Keeps (KeepsShunned U S n) (adaptCapture plan site pointer b) :=
  adaptCapture_keeps hS shuns_work (Keeps.modify fun _ h => ⟨h.grown, ⟨h.after.serves, h.after.copies⟩,
    h.code⟩) fun _ _ => shuns_recordFor hStands

theorem shuns_storeDisplayRoot {site : RootedMethod} {id : InstrId} {field : FieldId}
    (hS : S site.method) : Keeps (KeepsShunned U S n) (storeDisplayRoot site id field) :=
  storeDisplayRoot_keeps hS shuns_work

/-- Copies of display classes call one another where the display classes did. -/
theorem shuns_relocateDisplayClasses {method : MethodId} {holder generated : TypeId}
    (hOld : ∀ u, U u → u.index < n) :
    Keeps (KeepsShunned U (fun _ => False) n) (relocateDisplayClasses method holder generated) := by
  have hRemap {clone : TypeClone} {s t : Closures × Workspace} {b : Bool}
      (h : edit (Program.remapMembers method clone) s = .ok b t)
      (hNew : ∀ id ∈ clone.methods.values, n ≤ id.index) :
      KeepsShunned U (fun _ => False) n s t := by
    intro hShuns
    obtain ⟨p, hEdit, rfl⟩ := edit_ok.mp h
    have hProgram : s.2.program.Rewrites (fun _ => True) (fun _ => False) p :=
      Program.keeps_remapMembers trivial hEdit
    refine ⟨hShuns.grown.trans hProgram.grows.methods.length_le, hShuns.after, ?_⟩
    exact Program.shuns_remapMembers (fun m hMem hIn =>
      absurd (hOld m hIn) (Nat.not_lt.mpr (hNew m hMem))) hEdit hShuns.code
  have hOne (display : TypeId) :
      Keeps (KeepsShunned U (fun _ => False) n) (relocateDisplayClass method generated display) := by
    intro s ids t h hShuns
    obtain ⟨c, _, hClosures, h⟩ := Step.bind_ok.mp h
    obtain ⟨rfl, rfl⟩ := closures_ok.mp hClosures
    cases hKnown : s.1.relocated.get? (display, generated) with
    | some clone =>
        simp only [hKnown] at h
        obtain ⟨_, s₁, hEdit, h⟩ := Step.bind_ok.mp h
        obtain ⟨-, rfl⟩ := Step.pure_ok.mp h
        exact hRemap hEdit (hShuns.after.copies _ clone hKnown) hShuns
    | none =>
        simp only [hKnown] at h
        obtain ⟨clone, s₁, hCopy, h⟩ := Step.bind_ok.mp h
        obtain ⟨_, s₂, hEdit, h⟩ := Step.bind_ok.mp h
        obtain ⟨-, rfl⟩ := Step.pure_ok.mp h
        obtain ⟨made, _, hMake, hCopy⟩ := Step.bind_ok.mp hCopy
        obtain ⟨p, hClone, rfl⟩ := edit_ok.mp hMake
        obtain ⟨_, _, hUpdate, hCopy⟩ := Step.bind_ok.mp hCopy
        obtain rfl := update_ok.mp hUpdate
        obtain ⟨rfl, rfl⟩ := Step.pure_ok.mp hCopy
        obtain ⟨-, hProgram, -, hNew, -⟩ := Program.cloneType_ok hClone
        have hLate : ∀ id ∈ made.methods.values, n ≤ id.index := fun id hMem =>
          hShuns.grown.trans (hNew id hMem).1
        refine hRemap hEdit hLate ⟨hShuns.grown.trans hProgram.grows.methods.length_le,
          ⟨hShuns.after.serves, fun pair clone hGet => ?_⟩, ?_⟩
        · simp only [Table.get?_insert] at hGet
          split at hGet
          · exact Option.some_inj.mp hGet ▸ hLate
          · exact hShuns.after.copies pair clone hGet
        · exact Program.shuns_cloneType hClone (fun u hIn => (hOld u hIn).trans_le hShuns.grown)
            hShuns.code
  refine Keeps.bind (shuns_work fun N => CodeEdit.keeps_model) fun m => ?_
  split
  · exact Keeps.pure _
  · refine Keeps.bind (shuns_work fun N => CodeEdit.keeps_model) fun created => ?_
    exact Keeps.bind (Keeps.mapM fun display _ => hOne display) fun _ => Keeps.pure _

end ClosureEdit

namespace ReferenceGraph

/-- No direct call of a method in `U` is entered. -/
structure Shuns (U : MethodId → Prop) (g : ReferenceGraph) : Prop extends g.Agrees where
  sites : ∀ caller, ∀ site ∈ g.callees caller, site.mode = .direct → ¬ U site.callee

variable {g g' : ReferenceGraph}

/-- Such a method counts no calls. -/
theorem Shuns.callCount_eq_zero (h : g.Shuns U) {u : MethodId} (hIn : U u) : g.callCount u = 0 := by
  unfold callCount
  rw [List.length_eq_zero_iff, List.filter_eq_nil_iff]
  intro site hMem hMode
  obtain ⟨hSite, rfl⟩ := h.mem_callers.mp hMem
  exact h.sites site.caller site hSite (beq_iff_eq.mp hMode) hIn

/-- A direct call in a body is one of its instructions. -/
theorem callee?_of_mem_sitesIn {caller : MethodId} {b : MethodBody} {site : CallSite}
    (h : site ∈ g.sitesIn caller b) (hMode : site.mode = .direct) :
    ∃ i ∈ b.instructions, i.callee? = some site.callee := by
  unfold sitesIn at h
  rw [mem_dedupAdjacent, mem_sortOrdered, List.mem_append, List.mem_flatMap, List.mem_flatMap] at h
  rcases h with ⟨i, hMem, hMade⟩ | ⟨link, -, hInvoke⟩
  · refine ⟨i, hMem, ?_⟩
    unfold sitesOf at hMade
    cases hTarget : i.method? with
    | none =>
        rw [hTarget] at hMade
        exact (List.not_mem_nil hMade).elim
    | some target =>
        simp only [hTarget] at hMade
        unfold Instruction.callee?
        split at hMade <;> rename_i hOpcode <;>
          simp only [List.mem_cons, List.mem_map, List.not_mem_nil, or_false] at hMade
        · rw [hMade, hOpcode, hTarget]
          rfl
        · rw [hMade, hOpcode, hTarget]
          rfl
        · rcases hMade with rfl | ⟨_, -, rfl⟩
          · rw [hOpcode, hTarget]
            rfl
          · cases hMode
        · rw [hMade] at hMode
          cases hMode
        · obtain ⟨_, -, rfl⟩ := hMade
          cases hMode
  · obtain ⟨invoke, -, rfl⟩ := List.mem_map.mp hInvoke
    cases hMode

theorem Shuns.of_same (h : g.Shuns U) (hSites : g'.sites = g.sites)
    (hIncoming : g'.incoming = g.incoming) : g'.Shuns U where
  toAgrees := h.toAgrees.of_same hSites hIncoming
  sites caller site hMem := by
    unfold callees at hMem
    rw [hSites] at hMem
    exact h.sites caller site hMem

theorem Shuns.forget (h : g.Shuns U) (caller : MethodId) : (g.forget caller).Shuns U where
  toAgrees := h.toAgrees.forget caller
  sites other site hMem := by
    rw [callees_forget] at hMem
    split at hMem
    · exact (List.not_mem_nil hMem).elim
    · exact h.sites other site hMem

theorem Shuns.addSites (h : g.Shuns U) {caller : MethodId} {b : MethodBody}
    (hNew : g.callees caller = []) (hBody : b.Shuns U) : (g.addSites caller b).Shuns U where
  toAgrees := h.toAgrees.addSites hNew
  sites other site hMem hMode := by
    rw [callees_addSites] at hMem
    split at hMem
    · obtain ⟨i, hThere, hCallee⟩ := callee?_of_mem_sitesIn hMem hMode
      exact hBody i hThere _ hCallee
    · exact h.sites other site hMem hMode

end ReferenceGraph

namespace Program

theorem Shuns.body {p : Program} (h : p.Shuns U fun _ => False) {id : MethodId} {b : MethodBody}
    (hBody : p.body id = .ok b) : b.Shuns U := by
  obtain ⟨m, hMethod, hCode⟩ := body_ok.mp hBody
  exact h id m b hMethod hCode fun h => h

end Program

namespace GraphEdit

variable {p : Program} {s t : ReferenceGraph × FlowCache}

/-- Where no code calls a method, deriving a caller anew enters no call of it. -/
theorem shuns_rederive {method : MethodId} {u : Unit} (h : rederive p method s = .ok u t)
    (hCode : p.Shuns U fun _ => False) (hShuns : s.1.Shuns U) : t.1.Shuns U := by
  have hForgotten := hShuns.forget method
  have hNew : (s.1.forget method).callees method = [] := by
    rw [ReferenceGraph.callees_forget, if_pos rfl]
  unfold rederive at h
  obtain ⟨_, s₁, hForget, h⟩ := Step.bind_ok.mp h
  obtain rfl := update_ok.mp hForget
  split at h
  · obtain ⟨_, s₂, hQuery, h⟩ := Step.bind_ok.mp h
    obtain ⟨flow, -, rfl⟩ := query_ok.mp hQuery
    obtain ⟨_, s₃, hCaptures, h⟩ := Step.bind_ok.mp h
    obtain ⟨v, -, rfl⟩ := captures_ok.mp hCaptures
    obtain ⟨b, hBody, hGraph⟩ := scan_ok h
    have hAgain : ReferenceGraph.Shuns U { s.1.forget method with captures := v.1 } :=
      hForgotten.of_same rfl rfl
    exact hGraph ▸ hAgain.addSites hNew (hCode.body hBody)
  · obtain ⟨-, rfl⟩ := Step.pure_ok.mp h
    exact hForgotten

/-- Nor does building the graph. -/
theorem shuns_build {u : Unit} (h : build p s = .ok u t) (hCode : p.Shuns U fun _ => False) :
    t.1.Shuns U := by
  obtain ⟨s₂, -, -, hEntered⟩ := build_entered h
  refine ⟨hEntered.agrees, fun caller site hMem hMode => ?_⟩
  cases hLive : p.isLive caller with
  | false =>
      rw [hEntered.unused caller hLive] at hMem
      exact (List.not_mem_nil hMem).elim
  | true =>
      obtain ⟨b, hBody⟩ := Program.isLive_iff.mp hLive
      rw [hEntered.done caller b List.not_mem_nil hBody] at hMem
      obtain ⟨i, hThere, hCallee⟩ := ReferenceGraph.callee?_of_mem_sitesIn hMem hMode
      exact hCode.body (Program.body_of_liveBody? hBody) i hThere _ hCallee

end GraphEdit

namespace Propagation

/-- Nothing that a run has leads to a call of a method in `U`, apart perhaps from the code of the
methods in `S`. -/
structure Shuns (U S : MethodId → Prop) (n : Nat) (s : Propagation) : Prop
    extends ClosureEdit.Shuns U S n (s.closures, s.work) where
  graph : s.graph.Shuns U

/-- A step leaves it so. -/
def KeepsShunned (U S : MethodId → Prop) (n : Nat) (s t : Propagation) : Prop :=
  s.Shuns U S n → t.Shuns U S n

instance : IsPreorder Propagation (KeepsShunned U S n) where
  refl _ h := h
  trans _ _ _ h h' hShuns := h' (h hShuns)

end Propagation

namespace Propagate

open Propagation (KeepsShunned)

variable {α : Type} {s t : Propagation}

theorem shuns_closures {e : ClosureEdit α} (h : Keeps (ClosureEdit.KeepsShunned U S n) e) :
    Keeps (KeepsShunned U S n) (closures e) := by
  intro s a t hRun hShuns
  obtain ⟨u, hEdit, rfl⟩ := Step.focus_ok.mp hRun
  exact ⟨h hEdit hShuns.toShuns, hShuns.graph⟩

theorem shuns_work {e : CodeEdit α} (h : ∀ N, Keeps (Workspace.Confined S N) e) :
    Keeps (KeepsShunned U S n) (work e) := by
  intro s a t hRun hShuns
  obtain ⟨w, hEdit, rfl⟩ := Step.focus_ok.mp hRun
  exact ⟨ClosureEdit.shuns_work h (ClosureEdit.work_ok.mpr ⟨w, hEdit, rfl⟩) hShuns.toShuns,
    hShuns.graph⟩

theorem shuns_edit {e : Edit α} (hGrows : Keeps (fun p q => p.methods.length ≤ q.methods.length) e)
    (h : Keeps (Program.KeepsShunned U S) e) : Keeps (KeepsShunned U S n) (edit e) := by
  intro s a t hRun hShuns
  obtain ⟨p, hEdit, rfl⟩ := edit_ok.mp hRun
  exact ⟨⟨hShuns.grown.trans (hGrows hEdit), hShuns.after, h hEdit hShuns.code⟩, hShuns.graph⟩

/-- What is no edit does not matter. -/
theorem shuns_modify {f : Propagation → Propagation}
    (h : ∀ s, (f s).work = s.work ∧ (f s).closures = s.closures ∧ (f s).graph = s.graph) :
    Keeps (KeepsShunned U S n) (modify f : Propagate PUnit) :=
  Keeps.modify fun s hShuns => by
    obtain ⟨hWork, hClosures, hGraph⟩ := h s
    refine ⟨?_, hGraph ▸ hShuns.graph⟩
    rw [hWork, hClosures]
    exact hShuns.toShuns

theorem shuns_adaptSite {site : RootedMethod} {place : NeedySite} (hS : S site.method)
    (hStands : ∀ b, place.need = .capture b → ¬ U b.replacement) :
    Keeps (KeepsShunned U S n) (adaptSite site place) :=
  adaptSite_keeps hS ⟨fun h => shuns_work h, fun _ _ => shuns_modify fun _ => ⟨rfl, rfl, rfl⟩⟩
    (fun _ b hNeed => shuns_closures (ClosureEdit.shuns_adaptCapture hS (hStands b hNeed)))
    fun _ => shuns_closures (ClosureEdit.shuns_storeDisplayRoot hS)

theorem shuns_model {f : Program → Except ModelError α} : Keeps (KeepsShunned U S n) (model f) :=
  model_keeps

/-- An edit of no code. -/
theorem shuns_confined {e : Edit α} (h : Keeps (Program.Confined S fun _ => False) e) :
    Keeps (KeepsShunned U S n) (edit e) :=
  shuns_edit (h.mono fun _ _ hProgram => hProgram.grows.methods.length_le) fun _ _ _ hEdit hShuns =>
    hShuns.confined (h hEdit)

theorem shuns_bindMethod {b : Binding} : Keeps (KeepsShunned U S n) (bindMethod b) := by
  intro s u t h hShuns
  obtain ⟨m, -, rfl⟩ := bindMethod_ok h
  exact ⟨hShuns.toShuns, hShuns.graph⟩

section Everywhere

/-! Once no code calls a method in `U`, whatever is not adapting code leaves it so. -/

theorem shuns_rederive {method : MethodId} :
    Keeps (KeepsShunned U (fun _ => False) n) (graph fun p => GraphEdit.rederive p method) := by
  intro s u t h hShuns
  obtain ⟨v, hDerive, rfl⟩ := graph_ok.mp h
  exact ⟨⟨hShuns.grown, hShuns.after, hShuns.code⟩,
    GraphEdit.shuns_rederive hDerive hShuns.code hShuns.graph⟩

theorem shuns_complete {bound : List (MethodId × MethodId)} :
    Keeps (KeepsShunned U (fun _ => False) n) (complete bound) := by
  refine keeps_complete (fun _ => shuns_confined Program.keeps_retireMethod) ?_
    (fun _ => shuns_rederive) (fun _ => shuns_modify fun _ => ⟨rfl, rfl, rfl⟩)
    fun _ => shuns_modify fun _ => ⟨rfl, rfl, rfl⟩
  intro s u t h hShuns
  obtain ⟨v, hUpdate, rfl⟩ := graph_ok.mp h
  obtain rfl := GraphEdit.update_ok.mp hUpdate
  exact ⟨⟨hShuns.grown, hShuns.after, hShuns.code⟩, hShuns.graph.of_same rfl rfl⟩

theorem shuns_alignProperty {into : Option TypeId} {method replacement : MethodId} :
    Keeps (KeepsShunned U (fun _ => False) n) (alignProperty into method replacement) := by
  refine Keeps.bind shuns_model fun m => Keeps.ite (Keeps.bind shuns_model fun owner => ?_)
    (Keeps.pure _)
  split
  · exact Keeps.pure _
  · refine Keeps.ite (shuns_confined ?_) ?_
    · exact Program.keeps_modifyMethod (fun m => .dropSpecialName m) fun _ => rfl
    · split
      · refine shuns_confined (Program.keeps_modifyType ?_ ?_)
        · exact fun _ => ⟨rfl, rfl, rfl⟩
        · exact fun _ _ h => h
      · refine Keeps.bind shuns_model fun target => Keeps.ite ?_ (Keeps.pure _)
        exact Keeps.bind Keeps.get fun s => shuns_confined
          (Program.keeps_addProperty.mono fun _ _ h => h.toConfined)

theorem shuns_mapOverrides {bound : List (MethodId × MethodId)} {replacement : MethodId} :
    Keeps (KeepsShunned U (fun _ => False) n) (mapOverrides bound replacement) := by
  refine Keeps.bind shuns_model fun m => Keeps.bind Keeps.get fun s => ?_
  refine Keeps.ite (shuns_confined ?_) (Keeps.pure _)
  refine Program.keeps_modifyMethod (fun m => ?_) fun _ => rfl
  exact ⟨rfl, rfl, rfl, rfl, fun _ _ => rfl, fun h => h, fun b hBody => ⟨b, hBody, refl b⟩⟩

theorem shuns_makeCopy {source : MethodId} {owner : TypeId} {name : String} {params : List TypeRef}
    {shape : MethodShape} :
    Keeps (KeepsShunned U (fun _ => False) n) (makeCopy source owner name params shape) := by
  refine Keeps.bind (Keeps.bind Keeps.get fun _ => Keeps.pure _) fun p => ?_
  refine Keeps.bind (shuns_edit (fun p copy q h => ?_) (Program.shuns_cloneMethod fun h => h))
    fun copy => Keeps.bind (shuns_confined keeps_markReplacement) fun _ => Keeps.pure _
  obtain ⟨_, -, -, hGrows, -⟩ := Program.cloneMethod_ok h
  exact hGrows.methods.length_le

theorem shuns_displayHandle? {method : MethodId} :
    Keeps (KeepsShunned U (fun _ => False) n) (displayHandle? method) := by
  intro s handle t h hShuns
  rcases displayHandle?_ok h with rfl | ⟨m, field, p, -, -, -, -, -, hField, rfl⟩
  · exact hShuns
  · have hProgram : s.program.Rewrites (fun _ => False) (fun _ => False) p :=
      Program.keeps_addField hField
    exact ⟨⟨hShuns.grown.trans hProgram.grows.methods.length_le,
      ⟨hShuns.after.serves, hShuns.after.copies⟩, hShuns.code.confined hProgram.toConfined⟩,
      hShuns.graph⟩

theorem shuns_retireMovedFields :
    Keeps (KeepsShunned U (fun _ => False) n) retireMovedFields := by
  refine Keeps.bind Keeps.get fun s => Keeps.ite (Keeps.forM fun field _ => ?_) (Keeps.pure _)
  refine Keeps.bind shuns_model fun f => Keeps.ite (shuns_confined ?_) (Keeps.pure _)
  exact Program.keeps_retireField.mono fun _ _ h => h.toConfined

/-- A unit that is called from a constructor is not in `U`. -/
theorem shuns_inlineInitUnit {constructor replacement : MethodId} (hStands : ¬ U replacement) :
    Keeps (KeepsShunned U (fun _ => False) n) (inlineInitUnit constructor replacement) := by
  have hCall : ∀ i ∈ [Instruction.onArg .ldarg 0, .onMethod .call replacement] ++ [.plain .ret],
      ∀ id, i.callee? = some id → ¬ U id := by
    intro i hi id hCallee
    simp only [List.mem_append, List.mem_cons, List.not_mem_nil, or_false] at hi
    rcases hi with (rfl | rfl) | rfl
    · cases hCallee
    · exact Option.some_inj.mp hCallee ▸ hStands
    · cases hCallee
  have hInsert (ids : List InstrId) : Keeps (fun b b' => b.Shuns U → b'.Shuns U) (ids.forM fun ret => do
      let _ ← MethodBody.insertBefore ret [.onArg .ldarg 0, .onMethod .call replacement]
      : BodyEdit Unit) := by
    let R (b b' : MethodBody) : Prop := b.Shuns U → b'.Shuns U
    have : IsPreorder MethodBody R :=
      { refl := fun _ h => h, trans := fun _ _ _ h h' hShuns => h' (h hShuns) }
    refine (?_ : Keeps R _)
    refine Keeps.forM fun ret _ => Keeps.bind ?_ fun _ => Keeps.pure _
    exact MethodBody.shuns_insertBefore fun i hi => hCall i (List.mem_append_left _ hi)
  refine Keeps.bind shuns_model fun m => ?_
  split
  · refine Keeps.bind (shuns_edit (fun p u q h => ?_) ?_) fun _ => shuns_rederive
    · obtain ⟨-, rfl⟩ := Program.modifyMethod_ok h
      exact (List.length_modify ..).ge
    · exact Program.shuns_setBody (MethodBody.shuns_fresh hCall)
  · refine Keeps.ite (Keeps.bind (shuns_edit (fun p u q h => ?_) ?_) fun _ => shuns_rederive)
      (Keeps.pure _)
    · obtain ⟨m, b, b', -, -, -, rfl⟩ := Program.editBody_ok h
      exact (List.length_modify ..).ge
    · exact Program.shuns_editBody (hInsert _)

end Everywhere

/-- Adapting a method calls what stands in for others, and what serves captures. -/
theorem adaptInPlace_shuns {site : RootedMethod} {places : List NeedySite} {b : MethodBody} {u : Unit}
    (h : adaptInPlace site places s = .ok u t) (hKeyed : s.closures.Keyed)
    (hBody : s.program.body site.method = .ok b) (hNumbered : b.Numbered)
    (hOld : ∀ u, U u → u.index < n) (hStands : ∀ place ∈ places, ∀ b,
      place.need = .boundCall b ∨ place.need = .capture b → ¬ U b.replacement)
    (hShuns : s.Shuns U (fun _ => False) n) : t.Shuns U (fun _ => False) n := by
  let S : Scope := ⟨fun _ => True, fun id => ¬ U id, fun id => ¬ U id, fun _ => True, fun _ => True⟩
  have hPatches : Propagation.Patches site.method S s t := by
    refine adaptInPlace_patches ⟨fun _ _ => trivial, fun _ _ _ _ => trivial⟩ (fun place hMem => ?_) h
    have hNamed := hStands place hMem
    unfold NeedySite.Allowed
    split <;> rename_i hNeed
    · exact ⟨trivial, trivial⟩
    · trivial
    · exact ⟨trivial, hNamed _ (Or.inl hNeed)⟩
    · exact ⟨trivial, hNamed _ (Or.inr hNeed)⟩
    · trivial
  obtain ⟨outcomes, s₁, hSites, h⟩ := Step.bind_ok.mp h
  have hAdapted : s₁.Shuns U (· = site.method) n :=
    @Keeps.mapM _ _ _ _ (KeepsShunned U (· = site.method) n) _ _ _ (fun place hMem =>
      shuns_adaptSite rfl fun b hNeed => hStands place hMem b (Or.inr hNeed)) _ _ _ hSites
      ⟨⟨hShuns.grown, hShuns.after, fun id m b hMethod hBody _ =>
        hShuns.code id m b hMethod hBody fun h => h⟩, hShuns.graph⟩
  -- What is left leaves the program alone, so that its code is that of the adapted program.
  have hSame : t.closures = s₁.closures ∧ t.program = s₁.program := by
    split at h
    · obtain ⟨_, _, hCount, h⟩ := Step.bind_ok.mp h
      obtain rfl := Step.modify_ok.mp hCount
      obtain ⟨v, -, rfl⟩ := graph_ok.mp h
      exact ⟨rfl, rfl⟩
    · exact (Step.pure_ok.mp h).2 ▸ ⟨rfl, rfl⟩
  obtain ⟨-, -, hProgram⟩ := hPatches.2 hKeyed
  obtain ⟨b', hBody', hPatched⟩ := hProgram (fun id hServes hIn =>
    absurd (hOld id hIn) (Nat.not_lt.mpr (hAdapted.after.serves id (hSame.1 ▸ hServes)))) b hBody
    hNumbered
  have hOwn : b'.Shuns U := (hShuns.code.body hBody).patches (fun _ => Or.rec id id) hNumbered hPatched
  have hCode : s₁.program.Shuns U fun _ => False := fun id m c hMethod hThere _ => by
    by_cases hSite : id = site.method
    · obtain rfl : c = b' := Except.ok.inj <| (Program.body_ok.mpr ⟨m, hMethod, hThere⟩).symm.trans
        (hSite ▸ hSame.2 ▸ hBody')
      exact hOwn
    · exact hAdapted.code id m c hMethod hThere hSite
  have hDone : s₁.Shuns U (fun _ => False) n :=
    ⟨⟨hAdapted.grown, hAdapted.after, hCode⟩, hAdapted.graph⟩
  refine (Keeps.ite ?_ (Keeps.pure _) : Keeps (KeepsShunned U (fun _ => False) n) _) h hDone
  exact Keeps.bind (shuns_modify fun _ => ⟨rfl, rfl, rfl⟩) fun _ => shuns_rederive

end Propagate

end ContextBinding
