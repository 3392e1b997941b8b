import ContextBinding.Code.Builder
import ContextBinding.Proofs.Step
import Mathlib.Data.List.Induction
import Mathlib.Data.List.Forall2

/-! What a builder makes of a sequence of calls. A label stands for the instruction that is emitted
 first after the label was last marked. The body is built if each label in use stands for an
 instruction, and then every reference names what its label stands for. -/

namespace ContextBinding

/-- What a builder is told to emit. -/
inductive Emission where
  | plain (opcode : OpCode) (operand : Operand)
  | branch (opcode : OpCode) (label : Label)
  | switch (labels : List Label)
  deriving DecidableEq

/-- A call of a builder. -/
inductive BuilderCall where
  | declareLocal (ty : TypeRef)
  | declareLabel
  | mark (label : Label)
  | emit (code : Emission)
  | protect (region : LabeledHandler)
  deriving DecidableEq

/-- Results one by one, in order. -/
theorem Outcome.mapM_ok_forall₂ {ε α β : Type} {f : α → Except ε β} {l : List α} {bs : List β} :
    l.mapM f = .ok bs ↔ List.Forall₂ (fun a b => f a = .ok b) l bs := by
  induction l generalizing bs with
  | nil => rw [List.forall₂_nil_left_iff, List.mapM_nil, pure_ok, eq_comm]
  | cons a l ih =>
      rw [List.forall₂_cons_left_iff, List.mapM_cons, bind_ok]
      simp only [bind_ok, pure_ok, ih]
      constructor
      · rintro ⟨b, hFirst, bs, hRest, rfl⟩
        exact ⟨b, bs, hFirst, hRest, rfl⟩
      · rintro ⟨b, bs, hFirst, hRest, rfl⟩
        exact ⟨b, hFirst, bs, hRest, rfl⟩

namespace Emission

/-- The labels whose places the instruction is to name. -/
def labels : Emission → List Label
  | plain .. => []
  | branch _ label => [label]
  | switch labels => labels

/-- Emit the code. -/
def apply (b : BodyBuilder) : Emission → BodyBuilder
  | plain opcode operand => b.emit opcode operand
  | branch opcode label => b.emitBranch opcode label
  | switch labels => b.emitSwitch labels

/-- The instruction as it is until the body is built. -/
def draft (id : InstrId) : Emission → Instruction
  | plain opcode operand => ⟨id, opcode, operand⟩
  | branch opcode _ => ⟨id, opcode, .target InstrId.unplaced⟩
  | switch labels => ⟨id, .switch, .targets (labels.map fun _ => InstrId.unplaced)⟩

/-- The labels of an instruction whose operand is put in when the body is built. -/
def awaited? : Emission → Option (List Label)
  | plain .. => none
  | branch _ label => some [label]
  | switch labels => some labels

/-- The emission became this instruction, where `stands` says what labels stand for. -/
inductive Becomes (stands : Label → InstrId → Prop) : Emission → Instruction → Prop
  | plain {id : InstrId} {opcode : OpCode} {operand : Operand} :
      Becomes stands (.plain opcode operand) ⟨id, opcode, operand⟩
  | branch {id target : InstrId} {opcode : OpCode} {label : Label} (h : stands label target) :
      Becomes stands (.branch opcode label) ⟨id, opcode, .target target⟩
  | switch {id : InstrId} {labels : List Label} {targets : List InstrId}
      (h : List.Forall₂ stands labels targets) :
      Becomes stands (.switch labels) ⟨id, .switch, .targets targets⟩

end Emission

namespace LabeledHandler

/-- The labels at the boundaries. -/
def labels (h : LabeledHandler) : List Label := [h.tryStart, h.tryEnd, h.handlerStart, h.handlerEnd]

/-- The region became this one, where `stands` says what labels stand for. -/
structure Becomes (stands : Label → InstrId → Prop) (h : LabeledHandler) (placed : Handler) :
    Prop where
  caught : placed.caught = h.caught
  tryStart : stands h.tryStart placed.tryStart
  tryEnd : stands h.tryEnd placed.tryEnd
  handlerStart : stands h.handlerStart placed.handlerStart
  handlerEnd : stands h.handlerEnd placed.handlerEnd

end LabeledHandler

namespace BuilderCall

def apply (b : BodyBuilder) : BuilderCall → BodyBuilder
  | declareLocal ty => b.declareLocal ty
  | declareLabel => b.declareLabel
  | mark label => b.mark label
  | emit code => code.apply b
  | protect region => b.protect region

def emission? : BuilderCall → Option Emission
  | emit code => some code
  | _ => none

def local? : BuilderCall → Option TypeRef
  | declareLocal ty => some ty
  | _ => none

def region? : BuilderCall → Option LabeledHandler
  | protect region => some region
  | _ => none

/-- The labels that a call uses. -/
def uses : BuilderCall → List Label
  | emit code => code.labels
  | protect region => region.labels
  | _ => []

/-- The code that the calls emit, in order. -/
def emissions (calls : List BuilderCall) : List Emission := calls.filterMap emission?

theorem emissions_emit {calls : List BuilderCall} {code : Emission} :
    emissions (calls ++ [.emit code]) = emissions calls ++ [code] :=
  List.filterMap_append

theorem emissions_other {calls : List BuilderCall} {call : BuilderCall}
    (h : call.emission? = none) : emissions (calls ++ [call]) = emissions calls := by
  rw [emissions, List.filterMap_append, List.filterMap_cons_none h]
  exact List.append_nil _

/-- How many labels the calls declare. -/
def labelCount (calls : List BuilderCall) : Nat := calls.count .declareLabel

/-- The label was last marked when `count` instructions had been emitted. There is nothing to mark
before the label is declared. -/
def MarkedAt (calls : List BuilderCall) (label : Label) (count : Nat) : Prop :=
  ∃ before after, calls = before ++ .mark label :: after ∧ label.index < labelCount before ∧
    .mark label ∉ after ∧ count = (emissions before).length

/-- The label stands for this instruction, the one that is emitted first after the label was last
marked. -/
def StandsFor (calls : List BuilderCall) (label : Label) (id : InstrId) : Prop :=
  ∃ before after, calls = before ++ .mark label :: after ∧ label.index < labelCount before ∧
    .mark label ∉ after ∧ emissions after ≠ [] ∧ id = ⟨(emissions before).length⟩

section Marks

variable {calls : List BuilderCall} {call : BuilderCall} {label : Label} {count : Nat}

/-- The latest mark decides. -/
theorem markedAt_mark : MarkedAt (calls ++ [.mark label]) label count ↔
    label.index < labelCount calls ∧ count = (emissions calls).length := by
  constructor
  · rintro ⟨before, after, hCalls, hDeclared, hLast, hCount⟩
    rcases List.eq_nil_or_concat' after with rfl | ⟨after, last, rfl⟩
    · obtain ⟨rfl, -⟩ := List.append_inj' hCalls rfl
      exact ⟨hDeclared, hCount⟩
    · rw [← List.cons_append, ← List.append_assoc] at hCalls
      obtain ⟨-, hSame⟩ := List.append_inj' hCalls rfl
      exact (hLast (List.mem_append_right _ (hSame ▸ List.mem_singleton_self _))).elim
  · exact fun ⟨hDeclared, hCount⟩ => ⟨calls, [], rfl, hDeclared, List.not_mem_nil, hCount⟩

/-- Whatever else is called leaves the mark in its place. -/
theorem markedAt_other (hOther : call ≠ .mark label) :
    MarkedAt (calls ++ [call]) label count ↔ MarkedAt calls label count := by
  constructor
  · rintro ⟨before, after, hCalls, hDeclared, hLast, hCount⟩
    rcases List.eq_nil_or_concat' after with rfl | ⟨after, last, rfl⟩
    · obtain ⟨-, hSame⟩ := List.append_inj' hCalls rfl
      exact (hOther (List.singleton_inj.mp hSame)).elim
    · rw [← List.cons_append, ← List.append_assoc] at hCalls
      obtain ⟨rfl, -⟩ := List.append_inj' hCalls rfl
      exact ⟨before, after, rfl, hDeclared, fun h => hLast (List.mem_append_left _ h), hCount⟩
  · rintro ⟨before, after, rfl, hDeclared, hLast, hCount⟩
    refine ⟨before, after ++ [call], by simp, hDeclared, fun h => ?_, hCount⟩
    rcases List.mem_append.mp h with h | h
    · exact hLast h
    · exact hOther (List.mem_singleton.mp h).symm

/-- A label stands for an instruction if there is one behind its last mark. -/
theorem standsFor_iff {id : InstrId} : StandsFor calls label id ↔
    MarkedAt calls label id.index ∧ id.index < (emissions calls).length := by
  have hLength (before after : List BuilderCall) :
      (emissions (before ++ .mark label :: after)).length
        = (emissions before).length + (emissions after).length := by
    rw [emissions, List.filterMap_append, List.length_append]
    rfl
  constructor
  · rintro ⟨before, after, rfl, hDeclared, hLast, hSome, rfl⟩
    refine ⟨⟨before, after, rfl, hDeclared, hLast, rfl⟩, ?_⟩
    rw [hLength]
    exact Nat.lt_add_of_pos_right (List.length_pos_iff.mpr hSome)
  · rintro ⟨⟨before, after, rfl, hDeclared, hLast, hCount⟩, hBound⟩
    rw [hLength] at hBound
    have hPositive : 0 < (emissions after).length := by omega
    exact ⟨before, after, rfl, hDeclared, hLast, List.length_pos_iff.mp hPositive,
      congrArg InstrId.mk hCount⟩

end Marks

end BuilderCall

namespace BodyBuilder

open BuilderCall (emissions labelCount MarkedAt StandsFor)

/-- The builder after the calls. -/
def run (calls : List BuilderCall) : BodyBuilder := calls.foldl BuilderCall.apply empty

section Calls

variable (calls : List BuilderCall) (call : BuilderCall)

theorem run_concat : run (calls ++ [call]) = call.apply (run calls) := by
  rw [run, List.foldl_append]
  rfl

/-- Each instruction is numbered by its place from the start. -/
theorem run_instructions :
    (run calls).instructions = (emissions calls).zipIdx.map fun e => e.1.draft ⟨e.2⟩ := by
  induction calls using List.reverseRecOn with
  | nil => rfl
  | append_singleton calls call ih =>
      rw [run_concat]
      cases call with
      | emit code =>
          rw [BuilderCall.emissions_emit]
          cases code <;>
            simp [BuilderCall.apply, Emission.apply, emit, emitBranch, emitSwitch, emitPending,
              List.zipIdx_append, Emission.draft, ih]
      | _ =>
          rw [BuilderCall.emissions_other]
          · exact ih
          · rfl

theorem length_run_instructions :
    (run calls).instructions.length = (emissions calls).length := by
  simp [run_instructions]

theorem getElem?_run (position : Nat) :
    (run calls).instructions[position]?
      = (emissions calls)[position]?.map (·.draft ⟨position⟩) := by
  rw [run_instructions, List.getElem?_map, List.getElem?_zipIdx, Option.map_map, Nat.zero_add]
  rfl

theorem run_pending : (run calls).pending =
    (emissions calls).zipIdx.filterMap fun e => e.1.awaited?.map fun labels => (e.2, labels) := by
  induction calls using List.reverseRecOn with
  | nil => rfl
  | append_singleton calls call ih =>
      rw [run_concat]
      cases call with
      | emit code =>
          rw [BuilderCall.emissions_emit]
          cases code <;>
            simp [BuilderCall.apply, Emission.apply, emit, emitBranch, emitSwitch, emitPending,
              List.zipIdx_append, Emission.awaited?, ih,
              length_run_instructions]
      | _ =>
          rw [BuilderCall.emissions_other]
          · exact ih
          · rfl

theorem run_locals : (run calls).locals = calls.filterMap BuilderCall.local? := by
  induction calls using List.reverseRecOn with
  | nil => rfl
  | append_singleton calls call ih =>
      rw [run_concat, List.filterMap_append, ← ih]
      cases call with
      | emit code => cases code <;> exact (List.append_nil _).symm
      | declareLocal ty => rfl
      | _ => exact (List.append_nil _).symm

theorem run_handlers : (run calls).handlers = calls.filterMap BuilderCall.region? := by
  induction calls using List.reverseRecOn with
  | nil => rfl
  | append_singleton calls call ih =>
      rw [run_concat, List.filterMap_append, ← ih]
      cases call with
      | emit code => cases code <;> exact (List.append_nil _).symm
      | protect region => rfl
      | _ => exact (List.append_nil _).symm

theorem length_run_marks : (run calls).marks.length = labelCount calls := by
  induction calls using List.reverseRecOn with
  | nil => rfl
  | append_singleton calls call ih =>
      rw [run_concat, labelCount, List.count_append, ← labelCount, ← ih]
      cases call with
      | emit code => cases code <;> rfl
      | declareLabel => exact List.length_append
      | mark label => exact List.length_modify ..
      | _ => rfl

theorem run_marks {label : Label} {count : Nat} :
    (run calls).marks[label.index]? = some (some count) ↔ MarkedAt calls label count := by
  induction calls using List.reverseRecOn with
  | nil => exact iff_of_false nofun fun ⟨before, after, hCalls, _⟩ => by simp at hCalls
  | append_singleton calls call ih =>
      by_cases hMark : call = .mark label
      · subst hMark
        rw [run_concat, BuilderCall.markedAt_mark, ← length_run_marks, ← length_run_instructions]
        simp only [BuilderCall.apply, mark, List.getElem?_modify_eq, Option.map_eq_map,
          Option.map_eq_some_iff]
        constructor
        · rintro ⟨old, hOld, hCount⟩
          exact ⟨(List.getElem?_eq_some_iff.mp hOld).1, (Option.some_inj.mp hCount).symm⟩
        · rintro ⟨hBound, rfl⟩
          exact ⟨_, List.getElem?_eq_getElem hBound, rfl⟩
      · rw [run_concat, BuilderCall.markedAt_other hMark, ← ih]
        cases call with
        | emit code => cases code <;> rfl
        | declareLabel =>
            -- The new label stands behind the others and has no mark.
            change ((run calls).marks ++ [none])[label.index]? = _ ↔ _
            rcases Nat.lt_or_ge label.index (run calls).marks.length with hBound | hBound
            · rw [List.getElem?_append_left hBound]
            · rw [List.getElem?_append_right hBound, List.getElem?_eq_none hBound]
              simp [List.getElem?_singleton]
        | mark other =>
            have hIndex : other.index ≠ label.index :=
              fun h => hMark (congrArg (BuilderCall.mark ⟨·⟩) h)
            simp only [BuilderCall.apply, mark]
            rw [List.getElem?_modify]
            simp [hIndex]
        | _ => rfl

end Calls

section Resolving

variable {b b' : BodyBuilder} {label : Label} {id : InstrId}

theorem resolve_ok : b.resolve label = .ok id ↔ ∃ position i,
    b.marks[label.index]? = some (some position) ∧ b.instructions[position]? = some i ∧
      i.id = id := by
  unfold resolve
  split
  · rename_i i hPlace
    obtain ⟨position, hMark, hAt⟩ := Option.bind_eq_some_iff.mp hPlace
    rw [Option.join_eq_some_iff] at hMark
    rw [Except.ok.injEq]
    constructor
    · exact fun hId => ⟨position, i, hMark, hAt, hId⟩
    · rintro ⟨position', i', hMark', hAt', rfl⟩
      obtain rfl := Option.some_inj.mp (Option.some_inj.mp (hMark.symm.trans hMark'))
      rw [Option.some_inj.mp (hAt.symm.trans hAt')]
  · rename_i hPlace
    refine iff_of_false nofun ?_
    rintro ⟨position, i, hMark, hAt, -⟩
    rw [hMark] at hPlace
    exact Option.some_ne_none i (hAt.symm.trans hPlace)

/-- Labels stand for what was emitted, whatever the operands are. -/
theorem resolve_congr (hMarks : b'.marks = b.marks)
    (hIds : b'.instructions.map (·.id) = b.instructions.map (·.id)) : b'.resolve = b.resolve := by
  funext label
  have hAt (position : Nat) : b'.instructions[position]?.map (·.id)
      = b.instructions[position]?.map (·.id) := by
    rw [← List.getElem?_map, hIds, List.getElem?_map]
  unfold resolve
  rw [hMarks]
  cases b.marks[label.index]?.join with
  | none => rfl
  | some position =>
      have hAt := hAt position
      simp only [Option.bind_some]
      cases hOld : b.instructions[position]? <;> cases hNew : b'.instructions[position]? <;>
        simp_all

/-- After calls, a label is resolved to what it stands for. -/
theorem resolve_run {calls : List BuilderCall} :
    (run calls).resolve label = .ok id ↔ StandsFor calls label id := by
  have hDraft (code : Emission) (id : InstrId) : (code.draft id).id = id := by cases code <;> rfl
  rw [resolve_ok, BuilderCall.standsFor_iff]
  simp only [run_marks, getElem?_run, Option.map_eq_some_iff]
  constructor
  · rintro ⟨position, i, hMark, ⟨code, hAt, rfl⟩, rfl⟩
    rw [hDraft]
    exact ⟨hMark, (List.getElem?_eq_some_iff.mp hAt).1⟩
  · rintro ⟨hMark, hBound⟩
    exact ⟨id.index, _, hMark, ⟨_, List.getElem?_eq_getElem hBound, rfl⟩, hDraft _ _⟩

end Resolving

section Patching

/-- The instructions at the places of `pending` got the targets that their labels are resolved to,
and nothing else was changed. -/
structure Patched (pending : List (Nat × List Label)) (b b' : BodyBuilder) : Prop where
  locals : b'.locals = b.locals
  handlers : b'.handlers = b.handlers
  resolve : b'.resolve = b.resolve
  length : b'.instructions.length = b.instructions.length
  patched : ∀ position labels, (position, labels) ∈ pending → ∃ targets,
    labels.mapM b.resolve = .ok targets ∧ b'.instructions[position]?
      = b.instructions[position]?.map fun i => { i with operand := i.operand.withTargets targets }
  others : ∀ position ∉ pending.map (·.1), b'.instructions[position]? = b.instructions[position]?

variable {b b' : BodyBuilder} {pending : List (Nat × List Label)}

theorem patch_ok {use : Nat × List Label} (h : b.patch use = .ok b') : Patched [use] b b' := by
  obtain ⟨targets, hTargets, h⟩ := Outcome.bind_ok.mp h
  obtain rfl := Outcome.pure_ok.mp h
  refine ⟨rfl, rfl, resolve_congr rfl ?_, List.length_modify .., fun position labels hUse => ?_,
    fun position hOther => ?_⟩
  · refine List.ext_getElem? fun position => ?_
    simp only [List.getElem?_map, List.getElem?_modify]
    cases b.instructions[position]? with
    | none => rfl
    | some i => by_cases hAt : use.1 = position <;> simp [hAt]
  · obtain rfl := List.mem_singleton.mp hUse
    exact ⟨targets, hTargets, List.getElem?_modify_eq ..⟩
  · have hOther : use.1 ≠ position := fun h => hOther (List.mem_singleton.mpr h.symm)
    simp only [List.getElem?_modify, hOther, if_false]
    exact Option.map_id'

/-- Places are patched one after the other. -/
theorem patches_ok (hPlaces : (pending.map (·.1)).Nodup) (h : pending.foldlM patch b = .ok b') :
    Patched pending b b' := by
  induction pending generalizing b with
  | nil =>
      obtain rfl := Outcome.pure_ok.mp h
      exact ⟨rfl, rfl, rfl, rfl, nofun, fun _ _ => rfl⟩
  | cons use pending ih =>
      obtain ⟨hNew, hRest⟩ := List.nodup_cons.mp hPlaces
      rw [List.foldlM_cons] at h
      obtain ⟨b₁, hFirst, h⟩ := Outcome.bind_ok.mp h
      have hFirst := patch_ok hFirst
      have hRest := ih hRest h
      refine ⟨hRest.locals.trans hFirst.locals, hRest.handlers.trans hFirst.handlers,
        hRest.resolve.trans hFirst.resolve, hRest.length.trans hFirst.length,
        fun position labels hUse => ?_, fun position hOther => ?_⟩
      · rcases List.mem_cons.mp hUse with rfl | hUse
        · rw [hRest.others _ hNew]
          exact hFirst.patched _ _ (List.mem_singleton_self _)
        · have hOther : position ∉ [use].map (·.1) := by
            intro hHere
            obtain rfl := List.mem_singleton.mp hHere
            exact hNew (List.mem_map.mpr ⟨_, hUse, rfl⟩)
          rw [← hFirst.resolve, ← hFirst.others _ hOther]
          exact hRest.patched _ _ hUse
      · rw [List.map_cons, List.mem_cons, not_or] at hOther
        rw [hRest.others _ hOther.2]
        exact hFirst.others _ fun h => hOther.1 (List.mem_singleton.mp h)

theorem patches_succeed
    (h : ∀ use ∈ pending, ∀ label ∈ use.2, ∃ id, b.resolve label = .ok id) :
    ∃ b', pending.foldlM patch b = .ok b' := by
  induction pending generalizing b with
  | nil => exact ⟨b, rfl⟩
  | cons use pending ih =>
      obtain ⟨targets, hTargets⟩ := Outcome.mapM_succeeds (h use (List.mem_cons_self ..))
      obtain ⟨b₁, hFirst⟩ : ∃ b₁, b.patch use = .ok b₁ :=
        ⟨_, Outcome.bind_ok.mpr ⟨targets, hTargets, rfl⟩⟩
      have hSame := (patch_ok hFirst).resolve
      obtain ⟨b', hRest⟩ := ih (b := b₁) fun use' hUse label hLabel => by
        rw [hSame]
        exact h use' (List.mem_cons_of_mem _ hUse) label hLabel
      exact ⟨b', by rw [List.foldlM_cons]; exact Outcome.bind_ok.mpr ⟨b₁, hFirst, hRest⟩⟩

end Patching

section Building

variable {calls : List BuilderCall}

theorem mem_pending {position : Nat} {labels : List Label} :
    (position, labels) ∈ (run calls).pending ↔
      ∃ code, (emissions calls)[position]? = some code ∧ code.awaited? = some labels := by
  rw [run_pending, List.mem_filterMap]
  constructor
  · rintro ⟨⟨code, place⟩, hMem, hUse⟩
    obtain ⟨_, hLabels, hSame⟩ := Option.map_eq_some_iff.mp hUse
    obtain ⟨rfl, rfl⟩ := Prod.mk.inj hSame
    exact ⟨code, List.mem_zipIdx_iff_getElem?.mp hMem, hLabels⟩
  · rintro ⟨code, hAt, hLabels⟩
    exact ⟨(code, position), List.mem_zipIdx_iff_getElem?.mpr hAt, by rw [hLabels]; rfl⟩

/-- No instruction is pending twice. -/
theorem nodup_pending (calls : List BuilderCall) : ((run calls).pending.map (·.1)).Nodup := by
  have hPlaces : ((emissions calls).zipIdx.map (·.2)).Nodup := by
    rw [List.zipIdx_map_snd]
    exact List.nodup_range'
  rw [run_pending, List.Nodup, List.pairwise_map]
  refine List.Pairwise.filterMap _ ?_ (List.pairwise_map.mp hPlaces)
  intro e e' hApart use hUse use' hUse'
  obtain ⟨_, -, rfl⟩ := Option.map_eq_some_iff.mp hUse
  obtain ⟨_, -, rfl⟩ := Option.map_eq_some_iff.mp hUse'
  exact hApart

theorem awaited_labels {code : Emission} {labels : List Label} (h : code.awaited? = some labels) :
    code.labels = labels := by
  cases code with
  | plain => cases h
  | branch opcode label => exact Option.some_inj.mp h
  | switch labels => exact Option.some_inj.mp h

theorem awaited_of_mem {code : Emission} {label : Label} (h : label ∈ code.labels) :
    ∃ labels, code.awaited? = some labels := by
  cases code with
  | plain => cases h
  | branch => exact ⟨_, rfl⟩
  | switch => exact ⟨_, rfl⟩

/-- An instruction becomes what was emitted, once its labels are resolved. -/
theorem becomes_of_patched {b : BodyBuilder} (h : Patched (run calls).pending (run calls) b)
    {position : Nat} {code : Emission} (hAt : (emissions calls)[position]? = some code) :
    ∃ i, b.instructions[position]? = some i ∧ i.id = ⟨position⟩ ∧
      code.Becomes (StandsFor calls) i := by
  have hDraft : (run calls).instructions[position]? = some (code.draft ⟨position⟩) := by
    rw [getElem?_run, hAt]
    rfl
  cases hAwaited : code.awaited? with
  | none =>
      have hOther : position ∉ (run calls).pending.map (·.1) := by
        intro hMem
        obtain ⟨⟨_, labels⟩, hUse, rfl⟩ := List.mem_map.mp hMem
        obtain ⟨code', hAt', hLabels⟩ := mem_pending.mp hUse
        obtain rfl := Option.some_inj.mp (hAt.symm.trans hAt')
        exact Option.some_ne_none _ (hLabels.symm.trans hAwaited)
      rw [h.others position hOther, hDraft]
      cases code with
      | plain opcode operand => exact ⟨_, rfl, rfl, .plain⟩
      | branch => cases hAwaited
      | switch => cases hAwaited
  | some labels =>
      obtain ⟨targets, hTargets, hPatched⟩ :=
        h.patched position labels (mem_pending.mpr ⟨code, hAt, hAwaited⟩)
      have hStands : List.Forall₂ (StandsFor calls) labels targets :=
        (Outcome.mapM_ok_forall₂.mp hTargets).imp fun _ _ => resolve_run.mp
      rw [hPatched, hDraft]
      cases code with
      | plain => cases hAwaited
      | branch opcode label =>
          obtain rfl := Option.some_inj.mp hAwaited
          obtain ⟨target, _, hTarget, hNone, rfl⟩ := List.forall₂_cons_left_iff.mp hStands
          exact ⟨_, rfl, rfl, .branch hTarget⟩
      | switch labels =>
          obtain rfl := Option.some_inj.mp hAwaited
          exact ⟨_, rfl, rfl, .switch hStands⟩

theorem placeHandler_ok {b : BodyBuilder} {h : LabeledHandler} {placed : Handler}
    (hResolve : b.resolve = (run calls).resolve) :
    b.placeHandler h = .ok placed ↔ h.Becomes (StandsFor calls) placed := by
  unfold placeHandler
  simp only [Outcome.bind_ok, Outcome.pure_ok, hResolve, resolve_run]
  constructor
  · rintro ⟨tryStart, hTryStart, tryEnd, hTryEnd, start, hStart, stop, hStop, rfl⟩
    exact ⟨rfl, hTryStart, hTryEnd, hStart, hStop⟩
  · intro hBecomes
    refine ⟨_, hBecomes.tryStart, _, hBecomes.tryEnd, _, hBecomes.handlerStart, _,
      hBecomes.handlerEnd, ?_⟩
    rw [← hBecomes.caught]

/-- The body is what the calls ask for. -/
structure Renders (calls : List BuilderCall) (body : MethodBody) : Prop where
  locals : body.locals = calls.filterMap BuilderCall.local?
  size : body.size = (emissions calls).length
  /-- Instructions are numbered by their places, and those with labels name what these stand for. -/
  instruction : ∀ (position : Nat) (code : Emission), (emissions calls)[position]? = some code →
    ∃ i, body.instructions[position]? = some i ∧ i.id = ⟨position⟩ ∧
      code.Becomes (StandsFor calls) i
  handlers : List.Forall₂ (LabeledHandler.Becomes (StandsFor calls))
    (calls.filterMap BuilderCall.region?) body.handlers

/-- Building patches the code and then places the regions. -/
theorem build_ok {body : MethodBody} : (run calls).build = .ok body ↔
    ∃ b handlers, (run calls).pending.foldlM patch (run calls) = .ok b ∧
      Patched (run calls).pending (run calls) b ∧
      (calls.filterMap BuilderCall.region?).mapM b.placeHandler = .ok handlers ∧
      body = .ofParts b.instructions b.locals handlers := by
  unfold build
  simp only [Outcome.bind_ok, Outcome.pure_ok]
  constructor
  · rintro ⟨b, hPatches, handlers, hHandlers, rfl⟩
    have hPatched := patches_ok (nodup_pending calls) hPatches
    rw [hPatched.handlers, run_handlers] at hHandlers
    exact ⟨b, handlers, hPatches, hPatched, hHandlers, rfl⟩
  · rintro ⟨b, handlers, hPatches, hPatched, hHandlers, rfl⟩
    rw [← run_handlers, ← hPatched.handlers] at hHandlers
    exact ⟨b, hPatches, handlers, hHandlers, rfl⟩

/-- The labels in use are those of the code and those of the regions. -/
theorem uses_resolved {good : Label → Prop} :
    (∀ call ∈ calls, ∀ label ∈ call.uses, good label) ↔
      (∀ code ∈ emissions calls, ∀ label ∈ code.labels, good label) ∧
        ∀ region ∈ calls.filterMap BuilderCall.region?, ∀ label ∈ region.labels, good label := by
  constructor
  · intro h
    constructor
    · intro code hMem
      obtain ⟨call, hCall, hCode⟩ := List.mem_filterMap.mp hMem
      cases call with
      | emit code' =>
          obtain rfl := Option.some_inj.mp hCode
          exact h _ hCall
      | _ => cases hCode
    · intro region hMem
      obtain ⟨call, hCall, hRegion⟩ := List.mem_filterMap.mp hMem
      cases call with
      | protect region' =>
          obtain rfl := Option.some_inj.mp hRegion
          exact h _ hCall
      | _ => cases hRegion
  · rintro ⟨hCode, hRegion⟩ call hCall
    cases call with
    | emit code => exact hCode code (List.mem_filterMap.mpr ⟨_, hCall, rfl⟩)
    | protect region => exact hRegion region (List.mem_filterMap.mpr ⟨_, hCall, rfl⟩)
    | _ => exact nofun

/-- Where a body is built, each label in use stands for an instruction. -/
theorem stands_of_build {body : MethodBody} (h : (run calls).build = .ok body) :
    ∀ call ∈ calls, ∀ label ∈ call.uses, ∃ id, StandsFor calls label id := by
  obtain ⟨b, handlers, -, hPatched, hHandlers, -⟩ := build_ok.mp h
  refine uses_resolved.mpr ⟨fun code hMem label hLabel => ?_, fun region hMem label hLabel => ?_⟩
  · obtain ⟨position, hAt⟩ := List.mem_iff_getElem?.mp hMem
    obtain ⟨labels, hLabels⟩ := awaited_of_mem hLabel
    obtain ⟨targets, hTargets, -⟩ :=
      hPatched.patched position labels (mem_pending.mpr ⟨code, hAt, hLabels⟩)
    rw [awaited_labels hLabels] at hLabel
    obtain ⟨target, -, hTarget⟩ := Outcome.mapM_mem_ok hTargets hLabel
    exact ⟨target, resolve_run.mp hTarget⟩
  · obtain ⟨placed, -, hPlaced⟩ := Outcome.mapM_mem_ok hHandlers hMem
    have hPlaced := (placeHandler_ok hPatched.resolve).mp hPlaced
    simp only [LabeledHandler.labels, List.mem_cons, List.not_mem_nil, or_false] at hLabel
    rcases hLabel with rfl | rfl | rfl | rfl
    · exact ⟨_, hPlaced.tryStart⟩
    · exact ⟨_, hPlaced.tryEnd⟩
    · exact ⟨_, hPlaced.handlerStart⟩
    · exact ⟨_, hPlaced.handlerEnd⟩

/-- Where each label in use stands for an instruction, a body is built. -/
theorem build_succeeds
    (h : ∀ call ∈ calls, ∀ label ∈ call.uses, ∃ id, StandsFor calls label id) :
    ∃ body, (run calls).build = .ok body := by
  obtain ⟨hCode, hRegions⟩ := uses_resolved.mp h
  obtain ⟨b, hPatches⟩ : ∃ b, (run calls).pending.foldlM patch (run calls) = .ok b := by
    refine patches_succeed fun use hUse label hLabel => ?_
    obtain ⟨code, hAt, hLabels⟩ := mem_pending.mp hUse
    rw [← awaited_labels hLabels] at hLabel
    simp only [resolve_run]
    exact hCode code (List.mem_of_getElem? hAt) label hLabel
  have hPatched := patches_ok (nodup_pending calls) hPatches
  obtain ⟨handlers, hHandlers⟩ : ∃ handlers,
      (calls.filterMap BuilderCall.region?).mapM b.placeHandler = .ok handlers := by
    refine Outcome.mapM_succeeds fun region hMem => ?_
    have hLabels := hRegions region hMem
    simp only [LabeledHandler.labels, List.forall_mem_cons] at hLabels
    obtain ⟨⟨tryStart, hTryStart⟩, ⟨tryEnd, hTryEnd⟩, ⟨start, hStart⟩, ⟨stop, hStop⟩, -⟩ := hLabels
    exact ⟨⟨region.caught, tryStart, tryEnd, start, stop⟩, (placeHandler_ok hPatched.resolve).mpr
      ⟨rfl, hTryStart, hTryEnd, hStart, hStop⟩⟩
  exact ⟨_, build_ok.mpr ⟨b, handlers, hPatches, hPatched, hHandlers, rfl⟩⟩

theorem renders_of_build {body : MethodBody} (h : (run calls).build = .ok body) :
    Renders calls body := by
  obtain ⟨b, handlers, -, hPatched, hHandlers, rfl⟩ := build_ok.mp h
  refine ⟨hPatched.locals.trans (run_locals calls), ?_,
    fun position code hAt => becomes_of_patched hPatched hAt, ?_⟩
  · exact hPatched.length.trans (length_run_instructions calls)
  · exact (Outcome.mapM_ok_forall₂.mp hHandlers).imp
      fun _ _ => (placeHandler_ok hPatched.resolve).mp

/-- Building succeeds if and only if each label in use stands for an instruction, and then gives
what the calls ask for. -/
theorem build_exact (calls : List BuilderCall) :
    ((∃ body, (run calls).build = .ok body) ↔
      ∀ call ∈ calls, ∀ label ∈ call.uses, ∃ id, StandsFor calls label id) ∧
    ∀ body, (run calls).build = .ok body → Renders calls body :=
  ⟨⟨fun ⟨_, h⟩ => stands_of_build h, build_succeeds⟩, fun _ => renders_of_build⟩

end Building

section Examples

/-- Two labels in use ahead of their places, one of them marked again. -/
def relabelled : List BuilderCall :=
  [.declareLabel, .declareLabel, .mark ⟨0⟩, .emit (.plain .ldarg (.arg 0)),
    .emit (.branch .brtrue ⟨1⟩), .protect ⟨none, ⟨0⟩, ⟨1⟩, ⟨1⟩, ⟨1⟩⟩, .mark ⟨0⟩,
    .emit (.switch [⟨0⟩, ⟨1⟩, ⟨0⟩]), .mark ⟨1⟩, .declareLocal .int32, .emit (.switch []),
    .emit (.plain .ret .none)]

/-- The first label stands for the switch, whatever it stood for before. -/
theorem relabelled_exact :
    StandsFor relabelled ⟨0⟩ ⟨2⟩ ∧
      (∃ body, (run relabelled).build = .ok body ∧ Renders relabelled body ∧
        body.handlers = [⟨none, ⟨2⟩, ⟨3⟩, ⟨3⟩, ⟨3⟩⟩]) ∧
      (run (relabelled ++ [.mark ⟨0⟩])).build = .error (.unboundLabel 0) := by
  have hBuild : ∃ body, (run relabelled).build = .ok body ∧
      body.handlers = [⟨none, ⟨2⟩, ⟨3⟩, ⟨3⟩, ⟨3⟩⟩] := ⟨_, rfl, rfl⟩
  obtain ⟨body, hBody, hHandlers⟩ := hBuild
  refine ⟨?_, ⟨body, hBody, (build_exact relabelled).2 body hBody, hHandlers⟩, rfl⟩
  exact ⟨relabelled.take 6, relabelled.drop 7, rfl, by decide, by decide, by decide, rfl⟩

end Examples

end BodyBuilder

end ContextBinding
