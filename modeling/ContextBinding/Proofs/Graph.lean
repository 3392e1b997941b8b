import ContextBinding.Proofs.Edit
import ContextBinding.Proofs.Table
import ContextBinding.Reference.Graph

/-! What the reference graph lists. Deriving a caller anew lists everything that
 its code names, and touches no other caller. -/

namespace ContextBinding

namespace Instruction

/-- The method that a call, a construction or a capture names. -/
def reference? (i : Instruction) : Option MethodId :=
  match i.opcode with
  | .call | .callvirt | .newobj | .ldftn | .ldvirtftn => i.method?
  | _ => none

/-- The method that an instruction names, and those that a virtual call of it may
be dispatched to. -/
def reached (o : OverrideGraph) (i : Instruction) : List MethodId :=
  match i.reference? with
  | none => []
  | some target => if i.opcode = .callvirt then target :: o.implementations target else [target]

end Instruction

namespace OverrideGraph

/-- Whatever a virtual call may be dispatched to in one relation, it may be in the
other. -/
def Within (o o' : OverrideGraph) : Prop :=
  ∀ target, o.implementations target ⊆ o'.implementations target

theorem Within.empty (o : OverrideGraph) : OverrideGraph.empty.Within o := by
  intro target id h
  simp [implementations, overriders, OverrideGraph.empty, bound, reach, explore, ascending,
    sortOrdered, dedupAdjacent] at h

end OverrideGraph

namespace Instruction

variable {o o' : OverrideGraph} {i : Instruction} {callee : MethodId}

theorem method?_of_reference? (h : i.reference? = some callee) :
    i.method? = some callee := by
  unfold reference? at h
  split at h <;> first | exact h | cases h

theorem mem_reached_of_reference (h : i.reference? = some callee) : callee ∈ i.reached o := by
  unfold reached
  simp only [h]
  split <;> simp

theorem mem_reached_of_implementation {target : MethodId} (hCall : i.opcode = .callvirt)
    (hTarget : i.method? = some target) (h : callee ∈ o.implementations target) :
    callee ∈ i.reached o := by
  have hName : i.reference? = some target := by
    unfold reference?
    simp only [hCall, hTarget]
  unfold reached
  simp only [hName, hCall, if_true]
  exact List.mem_cons_of_mem _ h

theorem reached_mono (hWithin : o.Within o') (h : callee ∈ i.reached o) :
    callee ∈ i.reached o' := by
  unfold reached at h ⊢
  cases hName : i.reference? with
  | none => simp [hName] at h
  | some target =>
      simp only [hName] at h ⊢
      by_cases hVirtual : i.opcode = .callvirt
      · rw [if_pos hVirtual, List.mem_cons] at h ⊢
        exact h.imp_right fun h => hWithin target h
      · rwa [if_neg hVirtual] at h ⊢

end Instruction

namespace Program

/-- The code of a method that is in use. -/
def liveBody? (p : Program) (id : MethodId) : Option MethodBody :=
  (p.method? id).bind fun m => if m.isRetired then none else m.body

/-- The code of a method in use reaches another method, where `o` tells what
virtual calls may be dispatched to. -/
def Names (p : Program) (o : OverrideGraph) (caller callee : MethodId) : Prop :=
  ∃ b i, p.liveBody? caller = some b ∧ i ∈ b.instructions ∧ callee ∈ i.reached o

theorem Names.mono {p : Program} {o o' : OverrideGraph} {caller callee : MethodId}
    (h : p.Names o caller callee) (hWithin : o.Within o') : p.Names o' caller callee := by
  obtain ⟨b, i, hLive, hMem, hName⟩ := h
  exact ⟨b, i, hLive, hMem, Instruction.reached_mono hWithin hName⟩

theorem liveBody?_eq_some {p : Program} {id : MethodId} {b : MethodBody} :
    p.liveBody? id = some b ↔
      ∃ m, p.method? id = some m ∧ m.isRetired = false ∧ m.body = some b := by
  unfold liveBody?
  cases p.method? id with
  | none => simp
  | some m => cases h : m.isRetired <;> simp [h]

theorem isLive_iff {p : Program} {id : MethodId} :
    p.isLive id = true ↔ ∃ b, p.liveBody? id = some b := by
  unfold isLive liveBody? MethodDef.isLive
  cases p.method? id with
  | none => simp
  | some m =>
      cases hRetired : m.isRetired <;> cases hBody : m.body <;> simp [hRetired, hBody]

theorem mem_liveMethods {p : Program} {id : MethodId} :
    id ∈ p.liveMethods ↔ p.isLive id = true := by
  unfold liveMethods isLive methodIds
  simp only [List.mem_filter, List.mem_map, List.mem_range, and_iff_right_iff_imp]
  intro h
  refine ⟨id.index, ?_, rfl⟩
  by_contra hOut
  rw [method?, List.getElem?_eq_none (by omega)] at h
  simp at h

end Program

namespace ReferenceGraph

/-- A caller is known to reach a callee. -/
def Lists (g : ReferenceGraph) (caller callee : MethodId) : Prop :=
  ∃ site ∈ g.callees caller, site.callee = callee

/-- What an instruction reaches is among the sites that it makes. -/
theorem exists_mem_sitesOf {o overrides : OverrideGraph} (caller : MethodId) {callee : MethodId}
    {i : Instruction} (hWithin : o.Within overrides) (h : callee ∈ i.reached o) :
    ∃ site ∈ sitesOf overrides caller i, site.callee = callee := by
  unfold Instruction.reached at h
  cases hName : i.reference? with
  | none => simp [hName] at h
  | some target =>
      simp only [hName] at h
      unfold Instruction.reference? at hName
      unfold sitesOf
      split at hName
      · simp_all
      · rename_i hVirtual
        simp only [hVirtual, if_true, List.mem_cons] at h
        simp only [hName, hVirtual]
        rcases h with rfl | h
        · exact ⟨_, List.mem_cons_self .., rfl⟩
        · refine ⟨_, List.mem_cons_of_mem _ (List.mem_map.mpr ⟨callee, hWithin target h, rfl⟩), rfl⟩
      · simp_all
      · simp_all
      · simp_all
      · simp at hName

/-- The sites in a body hold those of its instructions. -/
theorem mem_sitesIn {g : ReferenceGraph} {caller : MethodId} {b : MethodBody} {i : Instruction}
    {site : CallSite} (hMem : i ∈ b.instructions) (hSite : site ∈ sitesOf g.overrides caller i) :
    site ∈ g.sitesIn caller b := by
  unfold sitesIn
  rw [mem_dedupAdjacent, mem_sortOrdered]
  exact List.mem_append_left _ (List.mem_flatMap.mpr ⟨i, hMem, hSite⟩)

theorem callees_addSites (g : ReferenceGraph) (caller other : MethodId) (b : MethodBody) :
    (g.addSites caller b).callees other
      = if caller = other then g.sitesIn caller b else g.callees other := by
  unfold callees addSites
  rw [Table.get?_insert]
  split <;> simp_all

theorem callees_forget (g : ReferenceGraph) (caller other : MethodId) :
    (g.forget caller).callees other = if caller = other then [] else g.callees other := by
  unfold callees forget
  rw [Table.get?_erase]
  split <;> simp_all

end ReferenceGraph

namespace GraphEdit

variable {s t : ReferenceGraph × FlowCache} {p : Program} {o : OverrideGraph}

theorem update_ok {f : ReferenceGraph → ReferenceGraph} {u : Unit} :
    update f s = .ok u t ↔ (f s.1, s.2) = t :=
  Step.modify_ok

theorem query_ok {α : Type} {q : Query α} {a : α} :
    query q s = .ok a t ↔ ∃ flow, q s.2 = .ok a flow ∧ (s.1, flow) = t :=
  Step.focus_ok

theorem captures_ok {α : Type} {e : CaptureScan α} {a : α} :
    captures e s = .ok a t ↔
      ∃ u, e (s.1.captures, s.2) = .ok a u ∧ ({ s.1 with captures := u.1 }, u.2) = t :=
  Step.focus_ok

/-- Scanning a caller enters the sites of its code. -/
theorem scan_ok {caller : MethodId} {u : Unit} (h : scan p caller s = .ok u t) :
    ∃ b, p.body caller = .ok b ∧ t.1 = s.1.addSites caller b := by
  unfold scan at h
  obtain ⟨b, _, hQuery, h⟩ := Step.bind_ok.mp h
  obtain ⟨flow, hBody, rfl⟩ := query_ok.mp hQuery
  obtain rfl := update_ok.mp h
  refine ⟨b, ?_, rfl⟩
  unfold Query.body at hBody
  cases hFound : p.body caller with
  | ok b' =>
      simp only [hFound] at hBody
      rw [(Step.pure_ok.mp hBody).1]
  | error e =>
      simp only [hFound] at hBody
      exact (Step.throw_ok.mp hBody).elim

/-- Scanning a caller lists what its code reaches, and leaves other callers
alone. -/
theorem scan_lists {caller : MethodId} {u : Unit} (hWithin : o.Within s.1.overrides)
    (h : scan p caller s = .ok u t) :
    t.1.overrides = s.1.overrides ∧
      (∀ other callee, other ≠ caller → (t.1.Lists other callee ↔ s.1.Lists other callee)) ∧
      ∀ callee, p.Names o caller callee → t.1.Lists caller callee := by
  obtain ⟨b, hBody, hGraph⟩ := scan_ok h
  refine ⟨by rw [hGraph]; rfl, ?_, ?_⟩
  · intro other callee hOther
    rw [hGraph, ReferenceGraph.Lists, ReferenceGraph.callees_addSites, if_neg (Ne.symm hOther)]
    rfl
  · rintro callee ⟨b', i, hLive, hMem, hName⟩
    obtain ⟨m, hMethod, -, hCode⟩ := Program.liveBody?_eq_some.mp hLive
    obtain ⟨m', hMethod', hCode'⟩ := Program.body_ok.mp hBody
    obtain rfl : m = m' := Option.some_inj.mp (hMethod.symm.trans hMethod')
    obtain rfl : b' = b := Option.some_inj.mp (hCode.symm.trans hCode')
    obtain ⟨site, hSite, hCallee⟩ := ReferenceGraph.exists_mem_sitesOf caller hWithin hName
    refine ⟨site, ?_, hCallee⟩
    rw [hGraph, ReferenceGraph.callees_addSites, if_pos rfl]
    exact ReferenceGraph.mem_sitesIn hMem hSite

/-- Captures do not change what is listed. -/
theorem captures_lists {α : Type} {e : CaptureScan α} {a : α} (h : captures e s = .ok a t) :
    t.1.overrides = s.1.overrides ∧
      ∀ caller callee, t.1.Lists caller callee ↔ s.1.Lists caller callee := by
  obtain ⟨u, -, rfl⟩ := captures_ok.mp h
  exact ⟨rfl, fun _ _ => Iff.rfl⟩

/-- Deriving a caller anew lists what its code reaches, and leaves other callers
alone. -/
theorem rederive_lists {caller : MethodId} {u : Unit} (hWithin : o.Within s.1.overrides)
    (h : rederive p caller s = .ok u t) :
    t.1.overrides = s.1.overrides ∧
      (∀ other callee, other ≠ caller → (t.1.Lists other callee ↔ s.1.Lists other callee)) ∧
      ∀ callee, p.Names o caller callee → t.1.Lists caller callee := by
  unfold rederive at h
  obtain ⟨_, s₁, hForget, h⟩ := Step.bind_ok.mp h
  obtain rfl := update_ok.mp hForget
  have hForgotten : ∀ other callee, other ≠ caller →
      ((s.1.forget caller).Lists other callee ↔ s.1.Lists other callee) := by
    intro other callee hOther
    rw [ReferenceGraph.Lists, ReferenceGraph.callees_forget, if_neg (Ne.symm hOther)]
    rfl
  split at h
  · obtain ⟨_, s₂, hQuery, h⟩ := Step.bind_ok.mp h
    obtain ⟨flow, -, rfl⟩ := query_ok.mp hQuery
    obtain ⟨_, s₃, hCaptures, h⟩ := Step.bind_ok.mp h
    obtain ⟨hOverrides, hSame⟩ := captures_lists hCaptures
    have hOverrides : s₃.1.overrides = s.1.overrides := hOverrides
    obtain ⟨hOverrides', hOthers, hNames⟩ := scan_lists (o := o) (hOverrides ▸ hWithin) h
    refine ⟨hOverrides'.trans hOverrides, fun other callee hOther => ?_, hNames⟩
    rw [hOthers other callee hOther, hSame]
    exact hForgotten other callee hOther
  · rename_i hDead
    obtain ⟨-, rfl⟩ := Step.pure_ok.mp h
    refine ⟨rfl, hForgotten, ?_⟩
    rintro callee ⟨b, i, hLive, -⟩
    exact (hDead (Program.isLive_iff.mpr ⟨b, hLive⟩)).elim

/-- Building the graph of a program lists everything that its code reaches. -/
theorem build_lists {u : Unit} (h : build p s = .ok u t) :
    t.1.overrides = .build p ∧
      ∀ caller callee, p.Names (.build p) caller callee → t.1.Lists caller callee := by
  unfold build at h
  obtain ⟨_, s₁, hUpdate, h⟩ := Step.bind_ok.mp h
  obtain rfl := update_ok.mp hUpdate
  obtain ⟨_, s₂, hCaptures, h⟩ := Step.bind_ok.mp h
  have hStart : s₂.1.overrides = .build p := by
    have hSame : Keeps (fun s t : ReferenceGraph × FlowCache => t.1.overrides = s.1.overrides)
        (p.liveMethods.forM fun m => captures (CaptureScan.scan p m)) :=
      Keeps.forM fun m _ => fun _ _ _ h => (captures_lists h).1
    exact hSame hCaptures
  let I (callers : List MethodId) (s : ReferenceGraph × FlowCache) : Prop :=
    s.1.overrides = .build p ∧ ∀ caller callee, p.Names (.build p) caller callee →
      caller ∈ callers ∨ s.1.Lists caller callee
  suffices hEnd : I [] t from
    ⟨hEnd.1, fun caller callee hNames => (hEnd.2 caller callee hNames).resolve_left (by simp)⟩
  refine Step.forM_induct (I := I) (fun first callers s _ t hCallers h => ?_) ⟨hStart, ?_⟩ h
  · obtain ⟨hOverrides, hListed⟩ := hCallers
    obtain ⟨hOverrides', hOthers, hFirst⟩ :=
      scan_lists (o := .build p) (fun target => by rw [hOverrides]; exact List.Subset.refl _) h
    refine ⟨hOverrides'.trans hOverrides, fun caller callee hNames => ?_⟩
    by_cases hSame : caller = first
    · subst hSame
      exact Or.inr (hFirst callee hNames)
    · refine (hListed caller callee hNames).imp ?_ (hOthers caller callee hSame).mpr
      exact fun hMem => (List.mem_cons.mp hMem).resolve_left hSame
  · rintro caller callee ⟨b, i, hLive, -⟩
    exact Or.inl (Program.mem_liveMethods.mpr (Program.isLive_iff.mpr ⟨b, hLive⟩))

end GraphEdit

end ContextBinding
