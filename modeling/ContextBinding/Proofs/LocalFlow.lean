import ContextBinding.Proofs.History
import ContextBinding.Proofs.Splice
import ContextBinding.Proofs.Usage

/-! Stores and loads of a local. The backward walk from a load and the forward walk from a store
find each other exactly if control leads from one to the other over edges of the code, past no
other store to the local. What comes over the entry of a handler is found by neither of them. -/

namespace ContextBinding

open Relation

section Conveys

variable {α : Type} {step raise : α → α → Prop} {stop : α → Prop} {a b : α}

/-- Steps lead from `a` to `b`, at least one, and go on from nothing in `stop` on the way. -/
def Conveys (step : α → α → Prop) (stop : α → Prop) (a b : α) : Prop :=
  ∃ c, step a c ∧ ReflTransGen (fun x y => ¬ stop x ∧ step x y) c b

/-- The same way, found from its end. -/
theorem conveys_iff_backward :
    Conveys step stop a b ↔ ∃ c, step c b ∧ ReflTransGen (fun x y => ¬ stop x ∧ step y x) c a := by
  constructor
  · rintro ⟨c, hFirst, hPath⟩
    induction hPath with
    | refl => exact ⟨a, hFirst, .refl⟩
    | @tail d e _ hLast ih =>
        obtain ⟨c', hStep, hBack⟩ := ih
        exact ⟨d, hLast.2, .head ⟨hLast.1, hStep⟩ hBack⟩
  · rintro ⟨c, hLast, hBack⟩
    induction hBack with
    | refl => exact ⟨b, hLast, .refl⟩
    | @tail d e _ hStep ih =>
        obtain ⟨c', hFirst, hPath⟩ := ih
        exact ⟨d, hStep.2, .head ⟨hStep.1, hFirst⟩ hPath⟩

/-- A way over steps of two kinds has steps of the first kind only, or only from its last step of
the second kind on. -/
theorem conveys_or_iff :
    Conveys (fun x y => step x y ∨ raise x y) stop a b ↔ Conveys step stop a b ∨
      ∃ x y, (x = a ∨ Conveys (fun x y => step x y ∨ raise x y) stop a x ∧ ¬ stop x) ∧ raise x y ∧
        ReflTransGen (fun x y => ¬ stop x ∧ step x y) y b := by
  constructor
  · rintro ⟨c, hFirst, hPath⟩
    induction hPath with
    | refl =>
        rcases hFirst with hFirst | hFirst
        · exact Or.inl ⟨c, hFirst, .refl⟩
        · exact Or.inr ⟨a, c, Or.inl rfl, hFirst, .refl⟩
    | @tail d e hPath hLast ih =>
        rcases hLast with ⟨hGoesOn, hLast | hLast⟩
        · rcases ih with ⟨c', hFirst', hPath'⟩ | ⟨x, y, hBefore, hRaise, hAfter⟩
          · exact Or.inl ⟨c', hFirst', hPath'.tail ⟨hGoesOn, hLast⟩⟩
          · exact Or.inr ⟨x, y, hBefore, hRaise, hAfter.tail ⟨hGoesOn, hLast⟩⟩
        · exact Or.inr ⟨d, e, Or.inr ⟨⟨c, hFirst, hPath⟩, hGoesOn⟩, hLast, .refl⟩
  · have hWiden {c d : α} (hPath : ReflTransGen (fun x y => ¬ stop x ∧ step x y) c d) :
        ReflTransGen (fun x y => ¬ stop x ∧ (step x y ∨ raise x y)) c d :=
      ReflTransGen.mono (fun _ _ h => ⟨h.1, Or.inl h.2⟩) _ _ hPath
    rintro (⟨c, hFirst, hPath⟩ | ⟨x, y, rfl | ⟨⟨c, hFirst, hPath⟩, hGoesOn⟩, hRaise, hAfter⟩)
    · exact ⟨c, Or.inl hFirst, hWiden hPath⟩
    · exact ⟨y, Or.inr hRaise, hWiden hAfter⟩
    · exact ⟨c, hFirst, (hPath.tail ⟨hGoesOn, Or.inr hRaise⟩).trans (hWiden hAfter)⟩

/-- A way is a list of elements, each one step on from the one before. It may come back to where it
started, since it can be started from there. -/
theorem conveys_iff_chain : Conveys step stop a b ↔ ∃ between : List α,
    (a :: (between ++ [b])).IsChain step ∧ ∀ c ∈ between, stop c → c = a := by
  constructor
  · rintro ⟨c, hFirst, hPath⟩
    suffices hWay : ∃ between : List α, (a :: (between ++ [b])).IsChain step ∧
        ∀ d ∈ between, ¬ stop d by
      obtain ⟨between, hChain, hFree⟩ := hWay
      exact ⟨between, hChain, fun d hMem hStop => (hFree d hMem hStop).elim⟩
    induction hPath using ReflTransGen.head_induction_on generalizing a with
    | refl => exact ⟨[], by simpa using hFirst, by simp⟩
    | @head d e hNext _ ih =>
        obtain ⟨between, hChain, hFree⟩ := ih hNext.2
        exact ⟨d :: between, .cons_cons hFirst hChain, List.forall_mem_cons.mpr ⟨hNext.1, hFree⟩⟩
  · rintro ⟨between, hChain, hFree⟩
    -- From each element on, the way goes through to the end or comes back to its start.
    have hOn : ∀ c, (c :: (between ++ [b])).IsChain step →
        Conveys step stop c b ∨ Conveys step stop a b := by
      clear hChain
      induction between with
      | nil => exact fun c hChain => Or.inl ⟨b, by simpa using hChain, .refl⟩
      | cons d between ih =>
          intro c hChain
          obtain ⟨hStep, hRest⟩ := List.isChain_cons_cons.mp hChain
          obtain ⟨hHere, hLater⟩ := List.forall_mem_cons.mp hFree
          rcases ih hLater d hRest with ⟨e, hFirst, hPath⟩ | hBack
          · by_cases hStop : stop d
            · obtain rfl := hHere hStop
              exact Or.inr ⟨e, hFirst, hPath⟩
            · exact Or.inl ⟨d, hStep, .head ⟨hStop, hFirst⟩ hPath⟩
          · exact Or.inr hBack
    exact (hOn a hChain).elim id id

end Conveys

namespace FlowIndex

variable {index : FlowIndex} {id : InstrId}

/-- Where edges end, once for each edge. -/
def targets (index : FlowIndex) : List InstrId := (index.steps ++ index.jumps).map (·.2)

theorem length_targets (index : FlowIndex) : index.targets.length = index.edgeCount := by
  simp [targets, edgeCount]

theorem length_predecessors_le (index : FlowIndex) (id : InstrId) :
    (index.predecessors id).length ≤ index.targets.count id := by
  have hCount (edges : List (InstrId × InstrId)) : (edges.map (·.2)).count id =
      ((edges.filter fun edge => edge.2 == id).map (·.1)).length := by
    rw [List.length_map, List.count_eq_countP, List.countP_map, List.countP_eq_length_filter]
    rfl
  rw [targets, List.map_append, List.count_append, hCount, hCount]
  exact length_foldl_insertNew_le _ _

theorem lastPosition?_isSome {order : List InstrId} (h : id ∈ order) :
    ∃ position, lastPosition? id order = some position := by
  induction order with
  | nil => exact (List.not_mem_nil h).elim
  | cons a order ih =>
      rw [lastPosition?]
      cases hLater : lastPosition? id order with
      | some position => exact ⟨position + 1, rfl⟩
      | none =>
          rcases List.mem_cons.mp h with rfl | h
          · exact ⟨0, if_pos rfl⟩
          · obtain ⟨position, hSome⟩ := ih h
            cases hLater.symm.trans hSome

end FlowIndex

namespace CodeView

variable {v : CodeView} {id a b s l : InstrId}

/-- The instruction stores to the local. -/
def StoresTo (v : CodeView) (index : Nat) (id : InstrId) : Prop :=
  ∃ i, v.instr id = .ok i ∧ isStoreTo index i = true

/-- The instruction reads the local or takes its address. -/
def LoadsFrom (v : CodeView) (index : Nat) (id : InstrId) : Prop :=
  ∃ i, v.instr id = .ok i ∧ isLoadOf index i = true

/-- Control goes over an edge of the code. -/
def Flows (v : CodeView) (a b : InstrId) : Prop := b ∈ v.index.successors a

/-- The instruction stands between the ends of the region that a handler protects. -/
def Protects (v : CodeView) (h : Handler) (id : InstrId) : Prop :=
  ∃ first place last, v.index.position? h.tryStart = some first ∧
    v.index.position? id = some place ∧ v.index.position? h.tryEnd = some last ∧
    first ≤ place ∧ place < last

/-- Control passes from protected code to the handler. -/
def Raises (v : CodeView) (a b : InstrId) : Prop :=
  ∃ h ∈ v.body.handlers, v.Protects h a ∧ h.handlerStart = b

/-- Every edge ends at an instruction. -/
def TargetsValid (v : CodeView) : Prop := ∀ a b, v.Flows a b → b ∈ v.index.order

/-- Edges end at instructions if all jumps do. -/
theorem ofBody_targetsValid {p : Program} {method : MethodId} {body : MethodBody}
    (hTargets : ∀ i ∈ body.instructions, i.targetIds ⊆ body.ids) :
    (ofBody p method body).TargetsValid :=
  fun _ _ hFlow => (FlowIndex.mem_of_successor hFlow).elim id
    fun ⟨i, hMem, hTarget⟩ => hTargets i hMem hTarget

theorem instr_of_mem (hIndex : v.index = FlowIndex.build v.body) (h : id ∈ v.index.order) :
    ∃ i, v.instr id = .ok i := by
  obtain ⟨position, hPosition⟩ := FlowIndex.lastPosition?_isSome h
  have hOrder := FlowIndex.getElem?_of_lastPosition? hPosition
  rw [hIndex] at hOrder
  obtain ⟨i, hAt, -⟩ : ∃ i, v.body.instructions[position]? = some i ∧ i.id = id := by
    simpa [FlowIndex.build] using hOrder
  refine ⟨i, ?_⟩
  unfold instr
  rw [FlowIndex.position?, hPosition]
  simp [MethodBody.at?, hAt]

/-- A walk that goes on from everything but stores to a local. -/
theorem explore_unlessStore (hIndex : v.index = FlowIndex.build v.body) {index : Nat}
    {next : InstrId → List InstrId} {ends : List InstrId}
    (hNext : ∀ a, (next a).length ≤ ends.count a) (hKeep : ∀ a, ∀ b ∈ next a, b ∈ v.index.order)
    (hCount : ends.length = v.index.edgeCount) {start : List InstrId}
    (hStart : ∀ a ∈ start, a ∈ v.index.order) :
    ∃ visited, explore (v.unlessStore index next) (v.index.edgeCount + start.length + 1) []
        start.reverse = .ok visited ∧
      ∀ b, b ∈ visited ↔
        ∃ a ∈ start, ReflTransGen (fun x y => ¬ v.StoresTo index x ∧ y ∈ next x) a b := by
  have hGoes (a : InstrId) (hMem : a ∈ v.index.order) :
      ∃ l, v.unlessStore index next a = .ok l ∧
        l.length ≤ allowance (ends.map fun b => (b, 1)) a ∧
        ∀ b, b ∈ l ↔ ¬ v.StoresTo index a ∧ b ∈ next a := by
    obtain ⟨i, hInstr⟩ := instr_of_mem hIndex hMem
    have hStores : v.StoresTo index a ↔ isStoreTo index i = true := by
      refine ⟨?_, fun h => ⟨i, hInstr, h⟩⟩
      rintro ⟨i', hInstr', hStore⟩
      obtain rfl : i' = i := Except.ok.inj (hInstr'.symm.trans hInstr)
      exact hStore
    rw [allowance_map_one, hStores]
    by_cases hStore : isStoreTo index i = true
    · refine ⟨[], ?_, Nat.zero_le _, by simp [hStore]⟩
      simp [unlessStore, hInstr, hStore, bind, Except.bind, pure, Except.pure]
    · refine ⟨next a, ?_, (hNext a).trans_eq ?_, by simp [hStore]⟩
      · simp [unlessStore, hInstr, hStore, bind, Except.bind, pure, Except.pure]
      · rw [List.count_eq_countP]
        exact List.countP_congr fun b _ => by simp
  have hSum : ((ends.map fun b => (b, 1)).map (·.2)).sum = v.index.edgeCount := by
    simp [hCount, Function.comp_def]
  have hFuel : start.reverse.length + ((ends.map fun b => (b, 1)).map (·.2)).sum ≤
      v.index.edgeCount + start.length + 1 := by
    rw [hSum, List.length_reverse]
    omega
  obtain ⟨visited, hRun, hVisited⟩ := explore_visits (P := (· ∈ v.index.order)) hGoes
    (fun a b _ h => hKeep a b h.2) (fun a h => hStart a (List.mem_reverse.mp h)) hFuel
  refine ⟨visited, hRun, fun b => ?_⟩
  simp [hVisited]

theorem mem_select {condition : Instruction → Bool} {ids : List InstrId} :
    id ∈ v.select condition ids ↔ id ∈ ids ∧ ∃ i, v.instr id = .ok i ∧ condition i = true := by
  unfold select
  rw [mem_sortOrdered, List.mem_filter]
  cases hInstr : v.instr id <;> simp

theorem localOf_ok {i : Instruction} {index : Nat} (hInstr : v.instr id = .ok i)
    (hLocal : i.localVar? = some index) : v.localOf id = .ok index := by
  unfold localOf
  simp [hInstr, hLocal, bind, Except.bind, pure, Except.pure]

/-- The stores that a load sees are those whose value is brought to it over edges of the code. -/
theorem localSources_ok (hIndex : v.index = FlowIndex.build v.body) {index : Nat}
    (hLoad : v.LoadsFrom index l) :
    ∃ sources, v.localSources l = .ok sources ∧ ∀ s, s ∈ sources ↔
      v.StoresTo index s ∧ Conveys v.Flows (v.StoresTo index) s l := by
  obtain ⟨i, hInstr, hLoad⟩ := hLoad
  have hLocal : v.localOf l = .ok index := localOf_ok hInstr (by simp_all [isLoadOf])
  have hKeep (a b : InstrId) (hMem : b ∈ v.index.predecessors a) : b ∈ v.index.order := by
    have hFlow := FlowIndex.mem_predecessors.mp hMem
    rw [hIndex] at hFlow ⊢
    exact FlowIndex.mem_order_of_successor hFlow
  obtain ⟨visited, hRun, hVisited⟩ := explore_unlessStore hIndex
    v.index.length_predecessors_le hKeep v.index.length_targets (hKeep l)
  refine ⟨v.select (isStoreTo index) visited.reverse,
    Outcome.bind_ok.mpr ⟨index, hLocal, Outcome.bind_ok.mpr ⟨visited, hRun, rfl⟩⟩, fun s => ?_⟩
  rw [mem_select, List.mem_reverse, hVisited, and_comm, conveys_iff_backward]
  simp only [FlowIndex.mem_predecessors]
  rfl

/-- The loads that see a store are those that its value is brought to over edges of the code. -/
theorem localUses_ok (hIndex : v.index = FlowIndex.build v.body) (hTargets : v.TargetsValid)
    {index : Nat} (hStore : v.StoresTo index s) :
    ∃ uses, v.localUses s = .ok uses ∧ ∀ l, l ∈ uses ↔
      v.LoadsFrom index l ∧ Conveys v.Flows (v.StoresTo index) s l := by
  obtain ⟨i, hInstr, hStore⟩ := hStore
  have hLocal : v.localOf s = .ok index := localOf_ok hInstr (by simp_all [isStoreTo])
  obtain ⟨visited, hRun, hVisited⟩ := explore_unlessStore hIndex
    v.index.length_successors_le (fun a b => hTargets a b) v.index.length_sources (hTargets s)
  refine ⟨v.select (isLoadOf index) visited.reverse,
    Outcome.bind_ok.mpr ⟨index, hLocal, Outcome.bind_ok.mpr ⟨visited, hRun, rfl⟩⟩, fun l => ?_⟩
  rw [mem_select, List.mem_reverse, hVisited, and_comm]
  rfl

/-- What an execution brings to a load comes over edges of the code from the store, or from the
entry of a handler that is raised into on the way. -/
theorem conveys_raising_iff {index : Nat} :
    Conveys (fun a b => v.Flows a b ∨ v.Raises a b) (v.StoresTo index) s l ↔
      Conveys v.Flows (v.StoresTo index) s l ∨ ∃ h ∈ v.body.handlers,
        (∃ a, v.Protects h a ∧ (a = s ∨
          Conveys (fun a b => v.Flows a b ∨ v.Raises a b) (v.StoresTo index) s a ∧
            ¬ v.StoresTo index a)) ∧
        ReflTransGen (fun a b => ¬ v.StoresTo index a ∧ v.Flows a b) h.handlerStart l := by
  rw [conveys_or_iff]
  refine or_congr_right ⟨?_, ?_⟩
  · rintro ⟨a, _, hBefore, ⟨h, hMem, hIn, rfl⟩, hAfter⟩
    exact ⟨h, hMem, ⟨a, hIn, hBefore⟩, hAfter⟩
  · rintro ⟨h, hMem, ⟨a, hIn, hBefore⟩, hAfter⟩
    exact ⟨a, _, hBefore, ⟨h, hMem, hIn, rfl⟩, hAfter⟩

end CodeView

namespace Query

variable {p : Program} {method : MethodId} {b : MethodBody} {cache cache' : FlowCache}
  {index : Nat} {s l : InstrId}

/-- A load and a store of a local find each other exactly if control leads from the store to the
load over edges of the code, past no other store to the local. All that they miss of the executions
that may go on at a handler after any instruction that it protects are those in which the load is
reached, past no store, from the entry of a handler. -/
theorem local_def_use (hBody : p.body method = .ok b) (hCache : cache.Describes method b)
    (hCache' : cache'.Describes method b) (hTargets : (CodeView.ofBody p method b).TargetsValid)
    (hStore : (CodeView.ofBody p method b).StoresTo index s)
    (hLoad : (CodeView.ofBody p method b).LoadsFrom index l) :
    let v := CodeView.ofBody p method b
    ∃ sources after uses after', localSources p method l cache = .ok sources after ∧
      localUses p method s cache' = .ok uses after' ∧
      (s ∈ sources ↔ Conveys v.Flows (v.StoresTo index) s l) ∧ (l ∈ uses ↔ s ∈ sources) ∧
      (Conveys (fun a b => v.Flows a b ∨ v.Raises a b) (v.StoresTo index) s l ↔
        s ∈ sources ∨ ∃ h ∈ b.handlers,
          (∃ a, v.Protects h a ∧ (a = s ∨
            Conveys (fun a b => v.Flows a b ∨ v.Raises a b) (v.StoresTo index) s a ∧
              ¬ v.StoresTo index a)) ∧
          ReflTransGen (fun a b => ¬ v.StoresTo index a ∧ v.Flows a b) h.handlerStart l) := by
  intro v
  obtain ⟨sources, hSources, hSeen⟩ := CodeView.localSources_ok (v := v) rfl hLoad
  obtain ⟨uses, hUses, hUsed⟩ := CodeView.localUses_ok (v := v) rfl hTargets hStore
  obtain ⟨after, hAsk⟩ := ask_ok (fun v => v.localSources l) hBody hCache hSources
  obtain ⟨after', hAsk'⟩ := ask_ok (fun v => v.localUses s) hBody hCache' hUses
  have hSource : s ∈ sources ↔ Conveys v.Flows (v.StoresTo index) s l := by
    rw [hSeen, and_iff_right hStore]
  have hUse : l ∈ uses ↔ s ∈ sources := by
    rw [hSource, hUsed, and_iff_right hLoad]
  refine ⟨sources, after, uses, after', hAsk, hAsk', hSource, hUse, ?_⟩
  rw [hSource]
  exact CodeView.conveys_raising_iff

/-- A load is among the uses of a store of its local exactly if the store is among the sources of
the load, and exactly if some walk of one edge or more leads from the store to the load and meets no
other store of the local strictly in between. -/
theorem localSources_iff_localUses (hBody : p.body method = .ok b)
    (hCache : cache.Describes method b) (hCache' : cache'.Describes method b)
    (hDistinct : b.ids.Nodup) (hTargets : ∀ i ∈ b.instructions, i.targetIds ⊆ b.ids)
    {store load : Instruction} (hStore : store ∈ b.instructions) (hStores : store.opcode = .stloc)
    (hLoad : load ∈ b.instructions) (hLoads : load.opcode = .ldloc ∨ load.opcode = .ldloca)
    (hLocal : store.localVar? = some index) (hSame : load.localVar? = some index) :
    ∃ sources after uses after', localSources p method load.id cache = .ok sources after ∧
      localUses p method store.id cache' = .ok uses after' ∧
      (store.id ∈ sources ↔ load.id ∈ uses) ∧
      (load.id ∈ uses ↔ ∃ between : List InstrId,
        (store.id :: (between ++ [load.id])).IsChain
          (fun a c => c ∈ (FlowIndex.build b).successors a) ∧
        ∀ other ∈ b.instructions, other.id ∈ between → other.opcode = .stloc →
          other.localVar? = some index → other = store) := by
  let v := CodeView.ofBody p method b
  have hStoresTo : v.StoresTo index store.id :=
    ⟨store, CodeView.ofBody_instr hDistinct hStore, by simp [CodeView.isStoreTo, hStores, hLocal]⟩
  have hLoadsFrom : v.LoadsFrom index load.id :=
    ⟨load, CodeView.ofBody_instr hDistinct hLoad, by simp [CodeView.isLoadOf, hLoads, hSame]⟩
  obtain ⟨sources, hSources, hSeen⟩ := CodeView.localSources_ok (v := v) rfl hLoadsFrom
  obtain ⟨uses, hUses, hUsed⟩ :=
    CodeView.localUses_ok (v := v) rfl (CodeView.ofBody_targetsValid hTargets) hStoresTo
  obtain ⟨after, hAsk⟩ := ask_ok (fun v => v.localSources load.id) hBody hCache hSources
  obtain ⟨after', hAsk'⟩ := ask_ok (fun v => v.localUses store.id) hBody hCache' hUses
  have hOther (between : List InstrId) :
      (∀ c ∈ between, v.StoresTo index c → c = store.id) ↔
        ∀ other ∈ b.instructions, other.id ∈ between → other.opcode = .stloc →
          other.localVar? = some index → other = store := by
    constructor
    · intro h other hMem hBetween hOpcode hIndex
      have hId := h other.id hBetween
        ⟨other, CodeView.ofBody_instr hDistinct hMem, by simp [CodeView.isStoreTo, hOpcode, hIndex]⟩
      exact List.inj_on_of_nodup_map hDistinct hMem hStore hId
    · rintro h c hBetween ⟨other, hInstr, hStoresOther⟩
      obtain ⟨hMem, rfl⟩ := CodeView.of_ofBody_instr hInstr
      obtain ⟨hIndex, hOpcode⟩ : other.localVar? = some index ∧ other.opcode = .stloc := by
        simpa [CodeView.isStoreTo] using hStoresOther
      rw [h other hMem hBetween hOpcode hIndex]
  refine ⟨sources, after, uses, after', hAsk, hAsk', ?_, ?_⟩
  · rw [hSeen, hUsed, and_iff_right hStoresTo, and_iff_right hLoadsFrom]
  · rw [hUsed, and_iff_right hLoadsFrom, conveys_iff_chain]
    exact exists_congr fun between => and_congr_right fun _ => hOther between

end Query

section Examples

/-- A value is stored ahead of a protected region, and read in the region and in the handler. -/
def rescuedLocal : MethodBody :=
  .ofParts [⟨⟨0⟩, .ldcI4, .int32 1⟩, ⟨⟨1⟩, .stloc, .localVar 0⟩, ⟨⟨2⟩, .ldloc, .localVar 0⟩,
    ⟨⟨3⟩, .pop, .none⟩, ⟨⟨4⟩, .leave, .target ⟨9⟩⟩, ⟨⟨5⟩, .pop, .none⟩, ⟨⟨6⟩, .ldloc, .localVar 0⟩,
    ⟨⟨7⟩, .pop, .none⟩, ⟨⟨8⟩, .leave, .target ⟨9⟩⟩, ⟨⟨9⟩, .ret, .none⟩] [.int32]
    [⟨some .object, ⟨2⟩, ⟨5⟩, ⟨5⟩, ⟨9⟩⟩]

/-- A program with this code. -/
def rescuedProgram : Program :=
  { Program.empty with
    methods := [⟨⟨0⟩, "Rescue", [], .void, .ofList [.static], [], some rescuedLocal⟩] }

/-- The view of this code. -/
def rescuedView : CodeView := .ofBody rescuedProgram ⟨0⟩ rescuedLocal

theorem rescuedView_targets : rescuedView.TargetsValid := by
  intro a b hFlow
  have hAll : ∀ a ∈ rescuedView.index.order, ∀ b ∈ rescuedView.index.successors a,
      b ∈ rescuedView.index.order := by decide
  exact hAll a (FlowIndex.mem_order_of_successor hFlow) b hFlow

/-- The load in the region and the store ahead of it find each other. -/
theorem rescuedLocal_found :
    ∃ sources after uses after',
      Query.localSources rescuedProgram ⟨0⟩ ⟨2⟩ .empty = .ok sources after ∧
      Query.localUses rescuedProgram ⟨0⟩ ⟨1⟩ .empty = .ok uses after' ∧
      ⟨1⟩ ∈ sources ∧ ⟨2⟩ ∈ uses := by
  have hStore : rescuedView.StoresTo 0 ⟨1⟩ := ⟨_, rfl, rfl⟩
  have hLoad : rescuedView.LoadsFrom 0 ⟨2⟩ := ⟨_, rfl, rfl⟩
  obtain ⟨sources, after, uses, after', hSources, hUses, hSource, hUse, -⟩ :=
    Query.local_def_use (p := rescuedProgram) (b := rescuedLocal) rfl (.empty _ _) (.empty _ _)
      rescuedView_targets hStore hLoad
  have hFlow : ⟨2⟩ ∈ rescuedView.index.successors ⟨1⟩ := by decide
  have hMem : ⟨1⟩ ∈ sources := hSource.mpr ⟨⟨2⟩, hFlow, .refl⟩
  exact ⟨sources, after, uses, after', hSources, hUses, hMem, hUse.mpr hMem⟩

/-- The load in the handler sees the store, if the code between them raises; the two do not find
each other. -/
theorem rescuedLocal_missed :
    rescuedView.StoresTo 0 ⟨1⟩ ∧ rescuedView.LoadsFrom 0 ⟨6⟩ ∧
      Conveys (fun a b => rescuedView.Flows a b ∨ rescuedView.Raises a b) (rescuedView.StoresTo 0)
        ⟨1⟩ ⟨6⟩ ∧
      (∃ after, Query.localSources rescuedProgram ⟨0⟩ ⟨6⟩ .empty = .ok [] after) ∧
      ∃ after uses,
        Query.localUses rescuedProgram ⟨0⟩ ⟨1⟩ .empty = .ok uses after ∧ ⟨6⟩ ∉ uses := by
  refine ⟨⟨_, rfl, rfl⟩, ⟨_, rfl, rfl⟩, ?_, ⟨_, rfl⟩, _, [⟨2⟩], rfl, by decide⟩
  have hPasses {id : InstrId} {i : Instruction} (hInstr : rescuedView.instr id = .ok i)
      (hOther : CodeView.isStoreTo 0 i = false) : ¬ rescuedView.StoresTo 0 id := by
    rintro ⟨i', hInstr', hStore⟩
    obtain rfl : i' = i := Except.ok.inj (hInstr'.symm.trans hInstr)
    exact Bool.false_ne_true (hOther.symm.trans hStore)
  have hRaise : rescuedView.Raises ⟨2⟩ ⟨5⟩ :=
    ⟨_, List.mem_singleton.mpr rfl, ⟨2, 2, 5, rfl, rfl, rfl, by decide, by decide⟩, rfl⟩
  have hIn : ⟨2⟩ ∈ rescuedView.index.successors ⟨1⟩ := by decide
  have hOn : ⟨6⟩ ∈ rescuedView.index.successors ⟨5⟩ := by decide
  refine ⟨⟨2⟩, Or.inl hIn, .head ⟨hPasses rfl rfl, Or.inr hRaise⟩ ?_⟩
  exact .single ⟨hPasses rfl rfl, Or.inl hOn⟩

/-- A value is stored ahead of a loop that loads it and, on one way round, stores another. -/
def refilledLocal : MethodBody :=
  .ofParts [⟨⟨0⟩, .ldcI4, .int32 1⟩, ⟨⟨1⟩, .stloc, .localVar 0⟩, ⟨⟨2⟩, .ldloc, .localVar 0⟩,
    ⟨⟨3⟩, .brtrue, .target ⟨6⟩⟩, ⟨⟨4⟩, .ldcI4, .int32 2⟩, ⟨⟨5⟩, .stloc, .localVar 0⟩,
    ⟨⟨6⟩, .br, .target ⟨2⟩⟩] [.int32] []

/-- A program with this code. -/
def refilledProgram : Program :=
  { Program.empty with
    methods := [⟨⟨0⟩, "Refill", [], .void, .ofList [.static], [], some refilledLocal⟩] }

/-- The store in the loop and the load at its start find each other over the way back. -/
theorem refilledLocal_found :
    ∃ sources after uses after',
      Query.localSources refilledProgram ⟨0⟩ ⟨2⟩ .empty = .ok sources after ∧
      Query.localUses refilledProgram ⟨0⟩ ⟨5⟩ .empty = .ok uses after' ∧
      ⟨5⟩ ∈ sources ∧ ⟨2⟩ ∈ uses := by
  have hBody : refilledProgram.body ⟨0⟩ = .ok refilledLocal := rfl
  have hStore : ⟨⟨5⟩, .stloc, .localVar 0⟩ ∈ refilledLocal.instructions := by decide
  have hLoad : ⟨⟨2⟩, .ldloc, .localVar 0⟩ ∈ refilledLocal.instructions := by decide
  obtain ⟨sources, after, uses, after', hSources, hUses, hBoth, hWay⟩ :=
    Query.localSources_iff_localUses hBody (.empty _ _) (.empty _ _) (by decide) (by decide) hStore
      rfl hLoad (Or.inl rfl) rfl rfl
  have hFirst : ⟨6⟩ ∈ (FlowIndex.build refilledLocal).successors ⟨5⟩ := by decide
  have hBack : ⟨2⟩ ∈ (FlowIndex.build refilledLocal).successors ⟨6⟩ := by decide
  have hUsed : ⟨2⟩ ∈ uses :=
    hWay.mpr ⟨[⟨6⟩], .cons_cons hFirst (.cons_cons hBack (.singleton _)), by decide⟩
  exact ⟨sources, after, uses, after', hSources, hUses, hBoth.mpr hUsed, hUsed⟩

end Examples

end ContextBinding
