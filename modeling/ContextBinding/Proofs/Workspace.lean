import ContextBinding.Binding.Insertion
import ContextBinding.Proofs.Edit

/-! Reading edits of code that succeed. Questions leave the program alone, and
 an edit confined to some methods stays so when it asks questions as well. -/

namespace ContextBinding

namespace Workspace

/-- The change of the program is confined and declares nothing. -/
def Confined (S : MethodId → Prop) (N : TypeId → Prop) (w w' : Workspace) : Prop :=
  w.program.Rewrites S N w'.program

instance {S : MethodId → Prop} {N : TypeId → Prop} : IsPreorder Workspace (Confined S N) where
  refl w := Program.Rewrites.refl w.program
  trans _ _ _ := Program.Rewrites.trans

end Workspace

namespace CodeEdit

open Workspace (Confined)

variable {α : Type} {S : MethodId → Prop} {N : TypeId → Prop} {w w' : Workspace}

theorem program_ok {p : Program} : program w = .ok p w' ↔ w.program = p ∧ w = w' := by
  unfold program
  simp only [Step.bind_ok, Step.get_ok, Step.pure_ok]
  constructor
  · rintro ⟨_, _, ⟨rfl, rfl⟩, rfl, rfl⟩
    exact ⟨rfl, rfl⟩
  · rintro ⟨rfl, rfl⟩
    exact ⟨w, w, ⟨rfl, rfl⟩, rfl, rfl⟩

theorem edit_ok {e : Edit α} {a : α} :
    edit e w = .ok a w' ↔ ∃ p, e w.program = .ok a p ∧ { w with program := p } = w' :=
  Step.focus_ok

theorem query_ok {question : Program → Query α} {a : α} :
    query question w = .ok a w' ↔
      ∃ flow, question w.program w.flow = .ok a flow ∧ { w with flow := flow } = w' := by
  unfold query
  rw [Step.bind_ok]
  constructor
  · rintro ⟨p, _, hProgram, h⟩
    obtain ⟨rfl, rfl⟩ := program_ok.mp hProgram
    exact Step.focus_ok.mp h
  · intro h
    exact ⟨w.program, w, program_ok.mpr ⟨rfl, rfl⟩, Step.focus_ok.mpr h⟩

theorem model_ok {f : Program → Except ModelError α} {a : α} :
    model f w = .ok a w' ↔ f w.program = .ok a ∧ w = w' := by
  unfold model
  rw [Step.bind_ok]
  constructor
  · rintro ⟨p, _, hProgram, h⟩
    obtain ⟨rfl, rfl⟩ := program_ok.mp hProgram
    cases hf : f w.program with
    | ok b =>
        simp only [hf] at h
        obtain ⟨rfl, rfl⟩ := Step.pure_ok.mp h
        exact ⟨rfl, rfl⟩
    | error e =>
        simp only [hf] at h
        exact (Step.throw_ok.mp h).elim
  · rintro ⟨hf, rfl⟩
    refine ⟨w.program, w, program_ok.mpr ⟨rfl, rfl⟩, ?_⟩
    simp only [hf]
    exact Step.pure_ok.mpr ⟨rfl, rfl⟩

theorem bound_ok {f : Program → Except BindingError α} {a : α} :
    bound f w = .ok a w' ↔ f w.program = .ok a ∧ w = w' := by
  unfold bound
  rw [Step.bind_ok]
  constructor
  · rintro ⟨p, _, hProgram, h⟩
    obtain ⟨rfl, rfl⟩ := program_ok.mp hProgram
    cases hf : f w.program with
    | ok b =>
        simp only [hf] at h
        obtain ⟨rfl, rfl⟩ := Step.pure_ok.mp h
        exact ⟨rfl, rfl⟩
    | error e =>
        simp only [hf] at h
        exact (Step.throw_ok.mp h).elim
  · rintro ⟨hf, rfl⟩
    refine ⟨w.program, w, program_ok.mpr ⟨rfl, rfl⟩, ?_⟩
    simp only [hf]
    exact Step.pure_ok.mpr ⟨rfl, rfl⟩

/-- An instruction that is looked up stands in the code of its method. -/
theorem instruction_ok {method : MethodId} {id : InstrId} {i : Instruction} :
    instruction method id w = .ok i w' ↔
      (∃ b, w.program.body method = .ok b ∧ b.get? id = some i) ∧ w = w' := by
  unfold instruction
  rw [model_ok]
  refine and_congr_left fun _ => ?_
  cases w.program.body method with
  | error e => simp [bind, Except.bind]
  | ok b =>
      cases hGet : b.get? id with
      | none => simp [bind, Except.bind, hGet, throw, throwThe, MonadExceptOf.throw]
      | some j => simp [bind, Except.bind, hGet, pure, Except.pure]

theorem keeps_edit {e : Edit α} (h : Keeps (Program.Rewrites S N) e) :
    Keeps (Confined S N) (edit e) :=
  Keeps.focus h fun _ _ hProgram => hProgram

theorem keeps_query {question : Program → Query α} : Keeps (Confined S N) (query question) := by
  intro w a w' h
  obtain ⟨flow, -, rfl⟩ := query_ok.mp h
  exact Program.Rewrites.refl w.program

theorem keeps_model {f : Program → Except ModelError α} : Keeps (Confined S N) (model f) := by
  intro w a w' h
  obtain ⟨-, rfl⟩ := model_ok.mp h
  exact refl w

theorem keeps_bound {f : Program → Except BindingError α} : Keeps (Confined S N) (bound f) := by
  intro w a w' h
  obtain ⟨-, rfl⟩ := bound_ok.mp h
  exact refl w

theorem keeps_instruction {method : MethodId} {id : InstrId} :
    Keeps (Confined S N) (instruction method id) :=
  keeps_model

theorem keeps_insertAhead {method : MethodId} {anchor : InstrId} {seq : List Instruction}
    (hS : S method) : Keeps (Confined S N) (insertAhead method anchor seq) :=
  Keeps.bind (keeps_edit (Program.keeps_editBody hS MethodBody.revises_insertBefore)) fun _ =>
    Keeps.pure _

theorem keeps_spillType {method : MethodId} {id : InstrId} {slot : Nat} :
    Keeps (Confined S N) (spillType method id slot) := by
  refine Keeps.bind keeps_query fun type => ?_
  cases type <;> exact Keeps.pure _

variable {D : InstrId → Prop} {R : OpCode × Option FieldId × Option MethodId → Prop}

/-- Storing operands and loading them again drops nothing. -/
theorem reworks_spill {types : List TypeRef} {anchor : InstrId} {seq : List Instruction}
    (hR : ∀ i ∈ seq, R i.gist) (hStore : R (.stloc, none, none)) (hLoad : R (.ldloc, none, none)) :
    Keeps (MethodBody.Reworks (fun _ => False) R) (Placement.spill types anchor seq) := by
  refine Keeps.bind (Keeps.mapM fun _ _ => MethodBody.reworks_addLocal) fun locals => ?_
  refine Keeps.bind (MethodBody.reworks_insertBefore ?_) fun _ => Keeps.pure _
  intro i hMem
  simp only [List.mem_append, List.mem_map] at hMem
  rcases hMem with (⟨_, _, rfl⟩ | hMem) | ⟨_, _, rfl⟩
  · exact hStore
  · exact hR i hMem
  · exact hLoad

/-- Inserting a value beneath operands edits no other method. -/
theorem keeps_insertBelow {method : MethodId} {id : InstrId} {slot : Nat} {seq : List Instruction}
    (hS : S method) : Keeps (Confined S N) (insertBelow method id slot seq) := by
  refine Keeps.bind keeps_instruction fun i => Keeps.bind keeps_query fun effect => ?_
  refine Keeps.ite (keeps_insertAhead hS) (Keeps.bind keeps_query fun paths => ?_)
  cases Placement.anchor? paths with
  | some anchor => exact keeps_insertAhead hS
  | none =>
      refine Keeps.bind (Keeps.mapM fun _ _ => keeps_spillType) fun types => ?_
      refine Keeps.bind (keeps_edit (Program.keeps_editBody hS ?_)) fun _ => Keeps.pure _
      exact MethodBody.revises_of_reworks (reworks_spill (fun _ _ => trivial) trivial trivial)

end CodeEdit

end ContextBinding
