import ContextBinding.Proofs.Arrangement
import ContextBinding.Proofs.Conclusion
import ContextBinding.Proofs.Overriding
import ContextBinding.Proofs.Recoding

/-! What a run leaves alone. The need for the root starts in code that uses state that moved. It
spreads to whatever names a method that needs the root or constructs a display class of one, and to
the methods that change together with one. All other methods stay as they are.

The code that counts is that of the program that the run began with. What changes together, and which
display classes have their field for the root, is a matter of the point of the run. -/

namespace ContextBinding

open Relation

namespace Propagation

/-- The code of a method contains an instruction that is looked at for a need of its own: in the
program `p` that the run began with or, if the method is new or constructs a context, by now. The
code of what stands in for a method is not. -/
def Contains (p : Program) (s : Propagation) (id : MethodId) (i : Instruction) : Prop :=
  ¬ s.bindings.StandsIn id ∧
    ((∃ b, p.liveBody? id = some b ∧ i ∈ b.instructions) ∨
      (p.method? id = none ∨ s.Constructs id) ∧
        ∃ b, s.program.liveBody? id = some b ∧ i ∈ b.instructions)

/-- The code of a method constructs instances of a type. -/
def Creates (p : Program) (s : Propagation) (id : MethodId) (type : TypeId) : Prop :=
  ∃ i m, Contains p s id i ∧ i.opcode = .newobj ∧
    i.method?.bind s.program.method? = some m ∧ m.owner = type

/-- The methods that the need for the root comes to, as far as the states in `R` tell of it. A field
for the root is old if it is a field of `p`. -/
inductive Implicated (p : Program) (R : Propagation → Prop) : MethodId → Prop where
  /-- A static field is accessed that moved. -/
  | accesses {s : Propagation} {id : MethodId} {i : Instruction} {field : FieldId} (hState : R s)
      (hCode : Contains p s id i)
      (hOpcode : i.opcode = .ldsfld ∨ i.opcode = .ldsflda ∨ i.opcode = .stsfld)
      (hField : i.field? = some field) (hMoved : s.plan.movedField? field ≠ none) :
      Implicated p R id
  /-- An instance is loaded that a context took over. -/
  | loads {s : Propagation} {id : MethodId} {i : Instruction} {field : FieldId} (hState : R s)
      (hCode : Contains p s id i) (hOpcode : i.opcode = .ldsfld) (hField : i.field? = some field)
      (hTaken : s.plan.singletonOf? field ≠ none) : Implicated p R id
  /-- A context brings along what stands in for the method. -/
  | replaced {s : Propagation} {id : MethodId} {c : ContextDescriptor} (hState : R s)
      (hContext : c ∈ s.plan.contexts) (hKey : id ∈ c.replacementMethods.keys) : Implicated p R id
  /-- A type is constructed that came with its field for the root. -/
  | fills {s : Propagation} {id : MethodId} {type : TypeId} {field : FieldId} (hState : R s)
      (hCreates : Creates p s id type) (hRoot : s.closures.displayRoot? type = some field)
      (hOld : field.index < p.fields.length ∨ s.closures.Owns type) : Implicated p R id
  /-- A display class is constructed that has a method of the kind. -/
  | creates {s : Propagation} {id member : MethodId} {type : TypeId} {t : TypeDef} {m : MethodDef}
      (hState : R s) (hCreates : Creates p s id type) (hType : s.program.type? type = some t)
      (hDisplay : t.isDisplayClass = true) (hMember : s.program.method? member = some m)
      (hOwner : m.owner = type) (h : Implicated p R member) : Implicated p R id
  /-- A method of the kind is named. -/
  | names {s : Propagation} {id target : MethodId} {i : Instruction} (hState : R s)
      (hCode : Contains p s id i)
      (hOpcode : i.opcode = .call ∨ i.opcode = .callvirt ∨ i.opcode = .newobj ∨ i.opcode = .ldftn ∨
        i.opcode = .ldvirtftn)
      (hTarget : i.method? = some target) (h : Implicated p R target) : Implicated p R id
  /-- The family of a method of the kind. -/
  | overrides {s : Propagation} {id member : MethodId} (hState : R s)
      (hFamily : id ∈ s.graph.overrides.family member) (h : Implicated p R member) :
      Implicated p R id
  /-- The other accessor of a property. -/
  | sibling {s : Propagation} {id member : MethodId} (hState : R s)
      (hSibling : s.program.accessorSibling? member = .ok (some id)) (h : Implicated p R member) :
      Implicated p R id

end Propagation

namespace Closures

/-- A construction whose field for the root is not filled constructs a type that has one. -/
theorem pendingStore?_ok {c : Closures} {p : Program} {b : MethodBody} {id : InstrId}
    {field : FieldId} (h : c.pendingStore? p b id = some field) :
    ∃ i ∈ b.instructions, i.opcode = .newobj ∧ ∃ m, i.method?.bind p.method? = some m ∧
      c.displayRoot? m.owner = some field := by
  unfold pendingStore? at h
  obtain ⟨i, hGet, h⟩ := Option.bind_eq_some_iff.mp h
  split at h
  · cases h
  · rename_i hNew
    obtain ⟨target, hTarget, h⟩ := Option.bind_eq_some_iff.mp h
    obtain ⟨m, hMethod, h⟩ := Option.bind_eq_some_iff.mp h
    obtain ⟨root, hRoot, h⟩ := Option.bind_eq_some_iff.mp h
    obtain ⟨position, -, h⟩ := Option.bind_eq_some_iff.mp h
    refine ⟨i, List.mem_of_find?_eq_some hGet, by simpa using hNew, m, ?_, ?_⟩
    · rw [hTarget]
      exact hMethod
    · dsimp only at h
      split at h
      · cases h
      · exact Option.some_inj.mp h ▸ hRoot

/-- The fields for the root that are known at the start of a run are there, under their name. -/
theorem displayRoot?_ofProgram {p : Program} {root : TypeId} {strict : Bool} {type : TypeId}
    {field : FieldId} (h : (ofProgram p root strict).displayRoot? type = some field) :
    ∃ f, p.field? field = some f ∧ f.name = displayRootName := by
  obtain ⟨e, -, hRoot⟩ := List.mem_filterMap.mp (Table.mem_of_get?_ofList h)
  split at hRoot
  · obtain ⟨found, hFound, hSame⟩ := Option.map_eq_some_iff.mp hRoot
    obtain ⟨-, rfl⟩ := Prod.mk.inj hSame
    unfold findDisplayRoot? at hFound
    have hAny := List.find?_some hFound
    obtain ⟨f, hField, hNamed⟩ := (Option.any_eq_true ..).mp hAny
    exact ⟨f, hField, by simpa using (Bool.and_eq_true_iff.mp hNamed).1⟩
  · cases hRoot

end Closures

/-- What is found by an exploration has a property that no successor loses. -/
theorem explore_leads {α ε : Type} [DecidableEq α] {next : α → Except ε (List α)} {P : α → Prop}
    (hNext : ∀ a l, P a → next a = .ok l → ∀ b ∈ l, P b) {fuel : Nat}
    {seen frontier result : List α} (hSeen : ∀ a ∈ seen, P a) (hFrontier : ∀ a ∈ frontier, P a)
    (h : explore next fuel seen frontier = .ok result) : ∀ a ∈ result, P a := by
  induction fuel generalizing seen frontier with
  | zero =>
      obtain rfl := Except.ok.inj h
      exact hSeen
  | succ fuel ih =>
      cases frontier with
      | nil =>
          obtain rfl := Except.ok.inj h
          exact hSeen
      | cons a frontier =>
          obtain ⟨hFirst, hRest⟩ := List.forall_mem_cons.mp hFrontier
          rw [explore] at h
          split at h
          · exact ih hSeen hRest h
          · obtain ⟨l, hList, h⟩ := Outcome.bind_ok.mp h
            refine ih (List.forall_mem_cons.mpr ⟨hFirst, hSeen⟩) (fun b hb => ?_) h
            rcases List.mem_append.mp hb with hb | hb
            · exact hNext a l hFirst hList b (List.mem_reverse.mp hb)
            · exact hRest b hb

namespace Propagation

variable {p : Program} {plan : ContextPlan} {options : PropagationOptions} {R : Propagation → Prop}
  {s₀ s t : Propagation}

/-- What is known of the changes on the way to a point of a run that began in `s₀`: they are due to
the need for the root. -/
structure Traced (p : Program) (R : Propagation → Prop) (s₀ s : Propagation) : Prop where
  start : s₀.program = p
  progresses : s₀.Progresses s
  recodes : s₀.Recodes (Implicated p R) s
  bound : ∀ id b, s.bindings.get? id = some b → Implicated p R id

namespace Traced

/-- A step that binds what the need comes to, and edits no other code. -/
theorem step (h : Traced p R s₀ s) (hProgressed : Progressed s t)
    (hRecoded : Recoded (Implicated p R) s t)
    (hBound : ∀ id b, t.bindings.get? id = some b →
      s.bindings.get? id = some b ∨ Implicated p R id) : Traced p R s₀ t where
  start := h.start
  progresses := h.progresses.trans (hProgressed h.progresses.keyed)
  recodes := h.recodes.trans (hRecoded h.progresses.keyed)
  bound id b hGet := (hBound id b hGet).elim (h.bound id b) fun hIn => hIn

/-- A step that binds nothing. -/
theorem idle (h : Traced p R s₀ s) (hProgressed : Progressed s t)
    (hRecoded : Recoded (Implicated p R) s t) (hSame : SameBindings s t) : Traced p R s₀ t :=
  h.step hProgressed hRecoded fun _ _ hGet => Or.inl (hSame ▸ hGet)

/-- Neither counting nor enqueueing changes anything. -/
theorem rest (h : Traced p R s₀ s) (stats : PropagationStats) (pending : List MethodId) :
    Traced p R s₀ { s with stats, pending } := by
  have hProgresses (hKeyed : s.closures.Keyed) : s.Progresses { s with stats, pending } :=
    { Progresses.refl hKeyed with }
  refine h.idle hProgresses (fun hKeyed => ?_) rfl
  exact .of_same (hProgresses hKeyed).toAdvances (fun _ _ => id) rfl

/-- Code that is in use at some point of a run is looked at, or the need comes to the method. -/
theorem contains (h : Traced p R s₀ s) {method : MethodId} {b : MethodBody}
    (hLive : s.program.liveBody? method = some b) (hGenuine : ¬ s.bindings.StandsIn method) :
    Implicated p R method ∨ ∀ i ∈ b.instructions, Contains p s method i := by
  obtain ⟨m', hMethod', hUsed, hBody⟩ := Program.liveBody?_eq_some.mp hLive
  cases hMethod : p.method? method with
  | none => exact Or.inr fun i hMem => ⟨hGenuine, Or.inr ⟨Or.inl hMethod, b, hLive, hMem⟩⟩
  | some m =>
      have hMethod : s₀.program.method? method = some m := h.start ▸ hMethod
      rcases h.recodes.code method m m' hMethod hMethod' with hSame | hIn | ⟨c, hContext, hId⟩ | hStands
      · have hUsed : m.isRetired = false := by
          have hKept := (h.progresses.grows.method_persists hMethod hMethod').retired
          exact Bool.eq_false_iff.mpr fun hRetired => by cases hUsed.symm.trans (hKept hRetired)
        refine Or.inr fun i hMem => ⟨hGenuine, Or.inl ⟨b, ?_, hMem⟩⟩
        exact Program.liveBody?_eq_some.mpr ⟨m, h.start ▸ hMethod, hUsed, hSame ▸ hBody⟩
      · exact Or.inl hIn
      · have hConstructs : s.Constructs method :=
          Constructs.earlier h.progresses.plan.symm ⟨c, hContext, hId⟩
        exact Or.inr fun i hMem => ⟨hGenuine, Or.inr ⟨Or.inr hConstructs, b, hLive, hMem⟩⟩
      · exact (hGenuine hStands).elim

/-- The need comes to a method with places in its code that need the root. -/
theorem implicated (h : Traced p R s₀ s) (hState : R s)
    (hStart : ∀ type field, s₀.closures.displayRoot? type = some field →
      field.index < p.fields.length)
    {method : MethodId} {b : MethodBody} (hLive : s.program.liveBody? method = some b)
    (hGenuine : ¬ s.bindings.StandsIn method) (hSome : s.places b ≠ []) :
    Implicated p R method := by
  obtain ⟨place, hPlace⟩ := List.exists_mem_of_ne_nil _ hSome
  obtain ⟨i, hMem, hNeed⟩ := List.mem_filterMap.mp hPlace
  obtain ⟨need, hNeed, -⟩ := Option.map_eq_some_iff.mp hNeed
  have hReason := NeedySite.reason_of_needOf? hNeed
  obtain hIn | hAll := h.contains hLive hGenuine
  · exact hIn
  have hCode := hAll i hMem
  cases need with
  | staticField context moved =>
      obtain ⟨hOpcode, field, hField, hMoved⟩ := hReason
      exact .accesses hState hCode hOpcode hField (by simp [hMoved])
  | singleton context =>
      obtain ⟨hOpcode, field, hField, hTaken⟩ := hReason
      exact .loads hState hCode hOpcode hField (by simp [hTaken])
  | boundCall binding =>
      obtain ⟨hOpcode, target, hTarget, hBound⟩ := hReason
      exact .names hState hCode (hOpcode.imp_right (Or.imp_right Or.inl)) hTarget
        (h.bound target binding hBound)
  | capture binding =>
      obtain ⟨hOpcode, target, hTarget, hBound⟩ := hReason
      exact .names hState hCode (Or.inr (Or.inr (Or.inr hOpcode))) hTarget
        (h.bound target binding hBound)
  | displayStore field =>
      obtain ⟨-, hPending⟩ := hReason
      obtain ⟨i', hMem', hNew, m, hMethod, hRoot⟩ := Closures.pendingStore?_ok hPending
      have hCreates : Creates p s method m.owner := ⟨i', m, hAll i' hMem', hNew, hMethod, rfl⟩
      rcases h.recodes.roots m.owner field hRoot with hOld | hOwned |
        ⟨⟨type, hType, hDisplay⟩, member, m', hMember, hOwner, hIn⟩
      · exact .fills hState hCreates hRoot (Or.inl (hStart _ _ hOld))
      · exact .fills hState hCreates hRoot (Or.inr hOwned)
      · exact .creates hState hCreates hType hDisplay hMember hOwner hIn

end Traced

/-- At the end of changes that are due to the need for the root, any other method that stands in for
none is what it was. -/
theorem Traced.spares (h : Traced p R s₀ s) {id : MethodId} {m : MethodDef}
    (hMethod : s₀.program.method? id = some m) (hOut : ¬ Implicated p R id)
    (hConstructs : ¬ s₀.Constructs id) (hGenuine : ¬ s.bindings.StandsIn id) :
    s.program.method? id = some m := by
  have hFree : s.bindings.get? id = none := by
    cases hGet : s.bindings.get? id with
    | none => rfl
    | some b => exact (hOut (h.bound id b hGet)).elim
  obtain ⟨m', hMethod', hSteady⟩ := h.progresses.licensed.methods id m hMethod
  have hSame := h.progresses.grows.method_persists hMethod hMethod'
  have hOverrides : m'.overrides = m.overrides := hSteady.declared.resolve_left hGenuine
  have hFlags : m'.flags = m.flags := hSteady.flags.resolve_left fun hEither =>
    hEither.elim hGenuine fun ⟨_, b, hGet⟩ => by cases hFree.symm.trans hGet
  have hBody : m'.body = m.body :=
    (h.recodes.code id m m' hMethod hMethod').resolve_right fun hElse =>
      hElse.elim hOut fun hElse => hElse.elim hConstructs hGenuine
  have hAll : m' = m := by
    cases m
    cases m'
    simp only [MethodDef.mk.injEq]
    exact ⟨hSame.owner, hSame.name, hSame.params, hSame.returnType, hFlags, hOverrides, hBody⟩
  exact hAll ▸ hMethod'

/-- A run passes through a state, between two visits of a batch or around batches. -/
def Passes (p : Program) (plan : ContextPlan) (options : PropagationOptions) (s : Propagation) :
    Prop :=
  ∃ ahead, Reached p plan options (ahead, s)

end Propagation

namespace Propagate

open Propagation

variable {p : Program} {plan : ContextPlan} {options : PropagationOptions} {R : Propagation → Prop}
  {s₀ s t : Propagation}

/-- The need comes to the methods that change together with one that it comes to. -/
theorem bindingGroup_implicated {method : MethodId} {withOverrides : Bool} {group : List MethodId}
    (h : bindingGroup method withOverrides s.visited = .ok group t) (hState : R s)
    (hMethod : Implicated p R method) : ∀ id ∈ group, Implicated p R id := by
  obtain ⟨_, _, hGet, h⟩ := Step.bind_ok.mp h
  obtain ⟨rfl, rfl⟩ := Step.get_ok.mp hGet
  obtain ⟨hGroup, -⟩ := model_ok.mp h
  obtain ⟨found, hExplore, hPure⟩ := Outcome.bind_ok.mp hGroup
  obtain rfl := Outcome.pure_ok.mp hPure
  intro id hMem
  refine explore_leads (fun member l hIn hNext other hOther => ?_) (by simp)
    (List.forall_mem_singleton.mpr hMethod) hExplore id (mem_ascending.mp hMem)
  obtain ⟨sibling, hSibling, hList⟩ := Outcome.bind_ok.mp hNext
  obtain rfl := Outcome.pure_ok.mp hList
  rcases List.mem_append.mp hOther with hFamily | hSame
  · split at hFamily
    · exact .overrides hState hFamily hIn
    · exact (List.not_mem_nil hFamily).elim
  · obtain rfl : sibling = some other := by simpa using hSame
    exact .sibling hState hSibling hIn

/-- A visit changes what the need for the root comes to. -/
theorem visit_traced {method : MethodId} {rest : List MethodId} {u : Unit}
    (h : visit method s = .ok u t) (hState : R s) (hRegular : s.Regular (method :: rest))
    (hStart : ∀ type field, s₀.closures.displayRoot? type = some field →
      field.index < p.fields.length)
    (hTraced : Traced p R s₀ s) : Traced p R s₀ t := by
  have hVisited : Traced p R s₀ s.visited := hTraced.rest _ _
  have hWaits (hFree : s.bindings.isBound method = false)
      (hNone : handleOf? method s.visited = .ok none s.visited) : ¬ s.bindings.StandsIn method := by
    have hSettles : s.Settles False (method :: rest) s.visited := visited_settles hRegular
    have hWaited := waits_of_handleless hSettles.regular (List.mem_cons_self ..) hFree hNone
    exact fun hStands => hWaited.free (Or.inr hStands)
  cases visit_ok h with
  | skipped hDone hEnd => exact hEnd ▸ hVisited
  | settled b hLive hNone hEnd => exact hEnd ▸ hVisited
  | adapted b hLive hFree hSome handle hHandle hAdapt =>
      have hIn : Implicated p R method ∨ s.bindings.StandsIn method :=
        (Classical.em (s.bindings.StandsIn method)).symm.imp_left fun hGenuine =>
          hTraced.implicated hState hStart hLive hGenuine hSome
      exact hVisited.idle (progresses_adaptInPlace hAdapt) (adaptInPlace_recodes hAdapt hIn)
        (same_adaptInPlace hAdapt)
  | captured b hLive hFree hSome handle u hNone hDisplay hAdapt =>
      have hIn := hTraced.implicated hState hStart hLive (hWaits hFree hNone) hSome
      have hHandled := hVisited.idle (progresses_displayHandle? hDisplay)
        (displayHandle?_recodes hDisplay hIn) (same_displayHandle? hDisplay)
      exact hHandled.idle (progresses_adaptInPlace hAdapt)
        (adaptInPlace_recodes hAdapt (Or.inl hIn)) (same_adaptInPlace hAdapt)
  | bound b hLive hFree hSome hNone hBind =>
      have hIn := hTraced.implicated hState hStart hLive (hWaits hFree hNone) hSome
      obtain ⟨withOverrides, group, mode, hGroup, hBinds⟩ := bindNeedy_binds hBind
      refine hVisited.step hBinds.progressed (recodes_bindNeedy hBind) fun id c hGet => ?_
      refine (hBinds.gains.new id c hGet).imp_right fun hMem => ?_
      exact bindingGroup_implicated hGroup hState hIn id hMem.1

/-- A step of a run changes what the need for the root comes to. -/
theorem moves_traced {c d : Point} (hMoves : Moves c d) (hState : R c.2)
    (hRegular : c.2.Regular (c.1.getD []))
    (hStart : ∀ type field, s₀.closures.displayRoot? type = some field →
      field.index < p.fields.length)
    (h : Traced p R s₀ c.2) : Traced p R s₀ d.2 := by
  cases hMoves with
  | @given s t hRun =>
      obtain ⟨hProgressed, hNew, -⟩ := bindReplacements_binds hRun
      have hGiven : Traced p R s₀ t := by
        refine h.step hProgressed (recodes_bindReplacements hRun) fun id b hGet => ?_
        refine (hNew id b hGet).imp_right ?_
        rintro ⟨hMem, rfl, -⟩
        obtain ⟨e, hEntry, hMem⟩ := List.mem_flatMap.mp hMem
        split at hMem
        · obtain ⟨pair, hPair, rfl⟩ := List.mem_map.mp hMem
          obtain ⟨n, hIndexed, rfl⟩ := List.mem_map.mp hEntry
          refine .replaced hState (c := n.1) ?_ (List.mem_map.mpr ⟨pair, hPair, rfl⟩)
          exact (List.mem_zipIdx hIndexed).2.2 ▸ List.getElem_mem _
        · exact (List.not_mem_nil hMem).elim
      exact hGiven.rest _ _
  | opened hSome => exact h.rest _ _
  | visited hRun => exact visit_traced hRun hState hRegular hStart h

/-- Building the graph changes no code. -/
theorem built_program (h : graph GraphEdit.build (.start p plan options) = .ok () s) :
    s.program = p := by
  obtain ⟨v, -, rfl⟩ := graph_ok.mp h
  rfl

/-- Whatever a run changes on the way to one of its points is due to the need for the root. -/
theorem reached_traced {c : Point} (hBuild : graph GraphEdit.build (.start p plan options) = .ok () s)
    (h : ReflTransGen Moves (none, s) c) : Traced p (Passes p plan options) s c.2 := by
  have hBuilt := build_regular hBuild
  have hStart : ∀ type field, s.closures.displayRoot? type = some field →
      field.index < p.fields.length := by
    obtain ⟨v, -, rfl⟩ := graph_ok.mp hBuild
    intro type field hRoot
    obtain ⟨f, hField, -⟩ := Closures.displayRoot?_ofProgram hRoot
    exact (List.getElem?_eq_some_iff.mp hField).1
  have hProgram := built_program hBuild
  have hFirst : ∀ id b, s.bindings.get? id = some b →
      Implicated p (Passes p plan options) id := by
    obtain ⟨v, -, rfl⟩ := graph_ok.mp hBuild
    intro id b hGet
    simp [Propagation.start, BindingMap.empty, BindingMap.get?, Table.get?_empty] at hGet
  induction h with
  | refl => exact ⟨hProgram, .refl hBuilt.keyed, .refl hBuilt.keyed, hFirst⟩
  | tail hReaches hMoves ih =>
      have hReached : Reached p plan options _ := ⟨s, hBuild, hReaches⟩
      exact moves_traced hMoves ⟨_, hReached⟩ (reached_regular hReached) hStart ih

theorem passes_grows (h : Passes p plan options s) : p.Grows s.program := by
  obtain ⟨ahead, s₀, hBuild, hReaches⟩ := h
  have hTraced := reached_traced hBuild hReaches
  exact hTraced.start ▸ hTraced.progresses.grows

end Propagate

section Examples

namespace Propagation

variable {p : Program} {R : Propagation → Prop} {s : Propagation} {S : List MethodId}

/-- Whether an instruction brings the need for the root to a method, if it has come to those in `S`
before. -/
def spreads (s : Propagation) (S : List MethodId) (i : Instruction) : Bool :=
  let touches (field : FieldId) : Bool :=
    (s.plan.movedField? field).isSome || (s.plan.singletonOf? field).isSome
  let constructs (type : TypeId) : Bool :=
    (s.closures.displayRoot? type).isSome ||
      S.any fun member => (s.program.method? member).any fun m => m.owner == type
  i.field?.any touches || i.method?.any fun target =>
    S.contains target || (s.program.method? target).any fun m => constructs m.owner

/-- Whether the need for the root stays with the methods in `S`, as far as one state of a run that
began with `p` tells. -/
def confines (p : Program) (S : List MethodId) (s : Propagation) : Bool :=
  (s.program.methodIds.all fun id => S.contains id ||
      [p, s.program].all fun q => (q.liveBody? id).all fun b =>
        b.instructions.all fun i => !s.spreads S i) &&
    (s.plan.contexts.all fun c => c.replacementMethods.keys.all S.contains) &&
    S.all fun member => (s.graph.overrides.family member).all S.contains &&
      match s.program.accessorSibling? member with
      | .ok (some other) => S.contains other
      | _ => true

/-- What the need for the root comes to is in every list that it stays with. -/
theorem Implicated.mem_of_confines (h : ∀ s, R s → p.Grows s.program ∧ s.confines p S = true)
    {id : MethodId} (hIn : Implicated p R id) : id ∈ S := by
  have hCode {s : Propagation} {id : MethodId} {i : Instruction} (hState : R s)
      (hContains : Contains p s id i) (hSpreads : s.spreads S i = true) : id ∈ S := by
    obtain ⟨hGrows, hConfines⟩ := h s hState
    have hAll := (Bool.and_eq_true_iff.mp (Bool.and_eq_true_iff.mp hConfines).1).1
    obtain ⟨q, hq, b, hLive, hMem⟩ :
        ∃ q ∈ [p, s.program], ∃ b, q.liveBody? id = some b ∧ i ∈ b.instructions := by
      rcases hContains.2 with ⟨b, hLive, hMem⟩ | ⟨-, b, hLive, hMem⟩
      · exact ⟨p, by simp, b, hLive, hMem⟩
      · exact ⟨s.program, by simp, b, hLive, hMem⟩
    have hThere : ∃ m, s.program.method? id = some m := by
      obtain ⟨m, hMethod, -⟩ := Program.liveBody?_eq_some.mp hLive
      rcases List.mem_cons.mp hq with rfl | hq
      · obtain ⟨m', hMethod', -⟩ := hGrows.method hMethod
        exact ⟨m', hMethod'⟩
      · exact ⟨m, List.mem_singleton.mp hq ▸ hMethod⟩
    obtain ⟨m, hMethod⟩ := hThere
    have hOne := List.all_eq_true.mp hAll id (Program.mem_methodIds hMethod)
    rw [Bool.or_eq_true, List.contains_iff_mem] at hOne
    refine hOne.resolve_right fun hNone => ?_
    have hKept := List.all_eq_true.mp hNone q hq
    rw [hLive, Option.all_some] at hKept
    simpa [hSpreads] using List.all_eq_true.mp hKept i hMem
  have hGroup {s : Propagation} {member : MethodId} (hState : R s) (hMember : member ∈ S) :=
    List.all_eq_true.mp (Bool.and_eq_true_iff.mp (h s hState).2).2 member hMember
  induction hIn with
  | accesses hState hContains hOpcode hField hMoved =>
      refine hCode hState hContains ?_
      simp [spreads, hField, Option.isSome_iff_ne_none.mpr hMoved]
  | loads hState hContains hOpcode hField hTaken =>
      refine hCode hState hContains ?_
      simp [spreads, hField, Option.isSome_iff_ne_none.mpr hTaken]
  | replaced hState hContext hKey =>
      have hAll := (Bool.and_eq_true_iff.mp (Bool.and_eq_true_iff.mp (h _ hState).2).1).2
      have hKeys := List.all_eq_true.mp hAll _ hContext
      exact List.contains_iff_mem.mp (List.all_eq_true.mp hKeys _ hKey)
  | fills hState hCreates hRoot hOld =>
      obtain ⟨i, m, hContains, -, hTarget, rfl⟩ := hCreates
      obtain ⟨target, hName, hMethod⟩ := Option.bind_eq_some_iff.mp hTarget
      refine hCode hState hContains ?_
      simp [spreads, hName, hMethod, hRoot]
  | @creates s id member type t m' hState hCreates hType hDisplay hMember hOwner hIn ih =>
      obtain ⟨i, m, hContains, -, hTarget, rfl⟩ := hCreates
      obtain ⟨target, hName, hMethod⟩ := Option.bind_eq_some_iff.mp hTarget
      refine hCode hState hContains ?_
      have hAny : S.any (fun member =>
          (s.program.method? member).any fun m' => m'.owner == m.owner) = true :=
        List.any_eq_true.mpr ⟨member, ih, by simp [hMember, hOwner]⟩
      simp only [spreads, hName, hMethod, Option.any_some, hAny, Bool.or_true]
  | names hState hContains hOpcode hTarget hIn ih =>
      refine hCode hState hContains ?_
      simp [spreads, hTarget, ih]
  | overrides hState hFamily hIn ih =>
      obtain ⟨hAll, -⟩ := Bool.and_eq_true_iff.mp (hGroup hState ih)
      exact List.contains_iff_mem.mp (List.all_eq_true.mp hAll _ hFamily)
  | sibling hState hSibling hIn ih =>
      obtain ⟨-, hOther⟩ := Bool.and_eq_true_iff.mp (hGroup hState ih)
      simpa [hSibling] using hOther

/-- The point of a run after another one. -/
def Point.next? : Point → Option Point
  | (none, s) =>
    match Propagate.bindReplacements s with
    | .ok _ t => some (some [], t.seeded)
    | .error _ _ => none
  | (some [], s) => if s.pending = [] then none else some (some s.pending, s.opened)
  | (some (method :: rest), s) =>
    match Propagate.visit method s with
    | .ok _ t => some (some rest, t)
    | .error _ _ => none

/-- Whether something holds of a point of a run and of those after it, of which there are fewer than
the given number. -/
def Point.always (holds : Propagation → Bool) : Nat → Point → Bool
  | 0, _ => false
  | n + 1, c => holds c.2 && (c.next?.all (always holds n))

theorem Point.next?_of_moves {c d : Point} (h : Moves c d) : c.next? = some d := by
  cases h with
  | given hRun => simp only [Point.next?, hRun]
  | opened hSome => simp only [Point.next?, hSome, if_false]
  | visited hRun => simp only [Point.next?, hRun]

theorem Point.holds_of_always {holds : Propagation → Bool} {n : Nat} {c d : Point}
    (h : c.always holds n = true) (hReaches : Relation.ReflTransGen Moves c d) :
    holds d.2 = true := by
  induction n generalizing c with
  | zero => cases h
  | succ n ih =>
      obtain ⟨hFirst, hRest⟩ := Bool.and_eq_true_iff.mp h
      rcases hReaches.cases_head with rfl | ⟨e, hMoves, hLater⟩
      · exact hFirst
      · rw [Point.next?_of_moves hMoves] at hRest
        exact ih hRest hLater

end Propagation

open Program Propagation in
/-- `FileSink` derives from `Sink`, and that from `Base`. `Sink` hides the method of `Base` by a new
one, which gives way to one of a logger that is there already; `FileSink` overrides it by one that
reads a static field that moves. `Area` has a getter that reads the field, too, after it called
`Log`, and an earlier run left a copy of it that passes for an accessor. -/
def hiddenWrite : Edit ContextPlan := do
  let root ← addType "G" "Root" none ⟨0⟩
  let holder ← addType "G" "H" none ⟨0⟩
  let context ← addType "G" "H_Ctx" none ⟨0⟩
  let log ← addType "G" "Log" none ⟨0⟩
  let logger ← addType "G" "Logger" none ⟨0⟩
  let base ← addType "G" "Base" none ⟨0⟩
  let sink ← addType "G" "Sink" none ⟨0⟩
  let fileSink ← addType "G" "FileSink" none ⟨0⟩
  let area ← addType "G" "Area" none ⟨0⟩
  setBase sink (.named base)
  setBase fileSink (.named sink)
  let rootConstructor ← addMethod root ".ctor" [] .void (.ofList [.constructor])
  let constructor ← addMethod context ".ctor" [] .void (.ofList [.constructor])
  let newLogger ← addMethod logger ".ctor" [] .void (.ofList [.constructor])
  let slot ← addField root "H_f" (.named context) ⟨0⟩
  let logSlot ← addField root "Log_f" (.named logger) ⟨0⟩
  let x ← addField holder "x" .int32 (.ofList [.static])
  let moved ← addField context "x" .int32 ⟨0⟩
  let shared ← addField logger "instance" (.named logger) (.ofList [.static])
  let writeBase ← addMethod base "Write" [] .void (.ofList [.virtual, .newSlot])
  let write ← addMethod sink "Write" [] .void (.ofList [.virtual, .newSlot])
  let writeFile ← addMethod fileSink "Write" [] .void (.ofList [.virtual])
  let writeLog ← addMethod logger "Write" [] .void ⟨0⟩
  let logArea ← addMethod area "Log" [] .void (.ofList [.static])
  let getter ← addMethod area "get_P" [] .void (.ofList [.static, .specialName])
  let copy ← addMethod area "get_P" [⟨"context", .named root⟩] .void
    (.ofList [.static, .specialName, .contextReplacement])
  addProperty area ⟨"P", some getter, none⟩
  [rootConstructor, constructor, newLogger, writeBase, write, writeLog, logArea, copy].forM fun m =>
    setBody m (.fresh [.plain .ret])
  setBody writeFile (.fresh [.onField .ldsfld x, .plain .pop, .plain .ret])
  setBody getter (.fresh [.onMethod .call logArea, .onField .ldsfld x, .plain .pop, .plain .ret])
  pure ⟨root, rootConstructor,
    [{ ContextDescriptor.bare "H" holder context constructor with
        chain := [slot]
        movedFields := .ofList [(x, moved)] },
      { ContextDescriptor.bare "Log" log logger newLogger with
        chain := [logSlot]
        singleton := some shared
        replacementMethods := .ofList [(write, writeLog)] }]⟩

namespace Propagate

open Propagation

end Propagate

end Examples

end ContextBinding
