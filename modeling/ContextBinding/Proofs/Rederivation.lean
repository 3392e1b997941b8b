import ContextBinding.Proofs.Captures
import ContextBinding.Proofs.Redefinition

/-! Deriving callers anew. A site is entered with its caller exactly if it is entered with the method
that it reaches. After the callers whose code changed are derived anew, the graph answers like one
that is built from the changed program. -/

namespace ContextBinding

open Std

namespace IncomingSites

variable {t : IncomingSites} {site : CallSite} {caller callee : MethodId}

theorem reaching_enter (t : IncomingSites) (site : CallSite) (callee : MethodId) :
    (t.enter site).reaching callee =
      if site.callee = callee then
        (t.reaching callee).insert site.caller
          (((t.reaching callee).get? site.caller).getD [] ++ [site])
      else t.reaching callee := by
  unfold enter reaching
  rw [Table.get?_insert]
  split
  · rename_i hSame
    subst hSame
    rfl
  · rfl

theorem reaching_dropLike (caller : MethodId) (t : IncomingSites) (site : CallSite)
    (callee : MethodId) :
    (t.dropLike caller site).reaching callee =
      if site.callee = callee then (t.reaching callee).erase caller else t.reaching callee := by
  unfold dropLike
  simp only
  split
  · rename_i hNone
    unfold reaching at hNone ⊢
    rw [Table.get?_erase]
    split
    · rename_i hSame
      subst hSame
      exact congrArg Table.mk (List.isEmpty_iff.mp hNone).symm
    · rfl
  · unfold reaching
    rw [Table.get?_insert]
    split
    · rename_i hSame
      subst hSame
      rfl
    · rfl

/-- What is entered for one caller is found with the methods that it reaches. -/
theorem get?_foldl_enter {sites : List CallSite} (hOwned : ∀ site ∈ sites, site.caller = caller)
    (t : IncomingSites) (callee other : MethodId) :
    ((sites.foldl enter t).reaching callee).get? other =
      if other = caller ∧ (sites.filter fun s => s.callee == callee) ≠ [] then
        some (((t.reaching callee).get? caller).getD [] ++ sites.filter fun s => s.callee == callee)
      else (t.reaching callee).get? other := by
  induction sites generalizing t with
  | nil => simp
  | cons site sites ih =>
      obtain ⟨hFirst, hRest⟩ := List.forall_mem_cons.mp hOwned
      rw [List.foldl_cons, ih hRest, reaching_enter]
      by_cases hCallee : site.callee = callee
      · by_cases hOther : other = caller
        · subst hOther hFirst
          by_cases hMore : (sites.filter fun s => s.callee == callee) = [] <;>
            simp [hCallee, hMore, Table.get?_insert]
        · have hElse : ¬ caller = other := Ne.symm hOther
          simp [hCallee, hOther, hFirst, Table.get?_insert, hElse]
      · simp [hCallee]

/-- What one caller reaches is not found any more after it is dropped. -/
theorem get?_foldl_dropLike (sites : List CallSite) (t : IncomingSites) (callee other : MethodId) :
    ((sites.foldl (dropLike caller) t).reaching callee).get? other =
      if other = caller ∧ (sites.filter fun s => s.callee == callee) ≠ [] then none
      else (t.reaching callee).get? other := by
  induction sites generalizing t with
  | nil => simp
  | cons site sites ih =>
      rw [List.foldl_cons, ih, reaching_dropLike]
      by_cases hCallee : site.callee = callee
      · by_cases hOther : other = caller
        · simp [hCallee, hOther, Table.get?_erase]
        · have hElse : ¬ caller = other := Ne.symm hOther
          simp [hCallee, hOther, Table.get?_erase, hElse]
      · simp [hCallee]

theorem ordered_foldl_enter (sites : List CallSite) (h : ∀ callee, (t.reaching callee).Ordered)
    (callee : MethodId) : ((sites.foldl enter t).reaching callee).Ordered := by
  induction sites generalizing t with
  | nil => exact h callee
  | cons site sites ih =>
      refine ih fun callee => ?_
      rw [reaching_enter]
      split
      · exact (h callee).insert ..
      · exact h callee

theorem ordered_foldl_dropLike (sites : List CallSite) (h : ∀ callee, (t.reaching callee).Ordered)
    (callee : MethodId) : ((sites.foldl (dropLike caller) t).reaching callee).Ordered := by
  induction sites generalizing t with
  | nil => exact h callee
  | cons site sites ih =>
      refine ih fun callee => ?_
      rw [reaching_dropLike]
      split
      · exact (h callee).erase _
      · exact h callee

end IncomingSites

namespace ReferenceGraph

/-- The sites at which one method reaches another one. -/
def sitesFrom (g : ReferenceGraph) (caller callee : MethodId) : List CallSite :=
  (g.callees caller).filter fun s => s.callee == callee

/-- The sites of each caller are its own, and the same sites are entered with the methods that they
reach. -/
structure Agrees (g : ReferenceGraph) : Prop where
  ordered : ∀ callee, (g.incoming.reaching callee).Ordered
  owned : ∀ caller, ∀ site ∈ g.callees caller, site.caller = caller
  reaching : ∀ caller callee, (g.incoming.reaching callee).get? caller =
    if g.sitesFrom caller callee = [] then none else some (g.sitesFrom caller callee)

variable {g g' : ReferenceGraph} {caller callee : MethodId} {site : CallSite}

theorem Agrees.empty (o : OverrideGraph) : Agrees ⟨∅, ∅, o, .empty⟩ where
  ordered _ := .empty
  owned _ _ h := (List.not_mem_nil h).elim
  reaching _ _ := rfl

/-- What is known of captures and of overriding does not matter. -/
theorem Agrees.of_same (h : g.Agrees) (hSites : g'.sites = g.sites)
    (hIncoming : g'.incoming = g.incoming) : g'.Agrees := by
  have hCallees : g'.callees = g.callees := by
    funext caller
    unfold callees
    rw [hSites]
  refine ⟨fun callee => hIncoming ▸ h.ordered callee, fun caller site hMem => ?_,
    fun caller callee => ?_⟩
  · exact h.owned caller site (hCallees ▸ hMem)
  · rw [hIncoming, h.reaching]
    unfold sitesFrom
    rw [hCallees]

theorem Agrees.forget (h : g.Agrees) (caller : MethodId) : (g.forget caller).Agrees where
  ordered := IncomingSites.ordered_foldl_dropLike _ h.ordered
  owned other site hMem := by
    rw [callees_forget] at hMem
    split at hMem
    · exact (List.not_mem_nil hMem).elim
    · exact h.owned other site hMem
  reaching other callee := by
    refine (IncomingSites.get?_foldl_dropLike ..).trans ?_
    rw [h.reaching]
    unfold sitesFrom
    rw [callees_forget]
    by_cases hOther : other = caller
    · subst hOther
      simp only [true_and, if_true, List.filter_nil, ne_eq]
      split
      · rfl
      · rename_i hNone
        exact if_pos (not_not.mp hNone)
    · rw [if_neg fun hBoth => hOther hBoth.1, if_neg (Ne.symm hOther)]

/-- The sites in a body are those of the caller. -/
theorem caller_of_mem_sitesIn {b : MethodBody} (h : site ∈ g.sitesIn caller b) :
    site.caller = caller := by
  unfold sitesIn at h
  rw [mem_dedupAdjacent, mem_sortOrdered, List.mem_append, List.mem_flatMap, List.mem_flatMap] at h
  rcases h with ⟨i, -, hMade⟩ | ⟨link, hLink, hInvoke⟩
  · unfold sitesOf at hMade
    split at hMade
    · exact (List.not_mem_nil hMade).elim
    · simp only at hMade
      split at hMade <;> simp only [List.mem_cons, List.mem_map, List.not_mem_nil, or_false] at hMade
      · exact hMade ▸ rfl
      · exact hMade ▸ rfl
      · rcases hMade with rfl | ⟨_, -, rfl⟩ <;> rfl
      · exact hMade ▸ rfl
      · obtain ⟨_, -, rfl⟩ := hMade
        rfl
  · obtain ⟨invoke, -, rfl⟩ := List.mem_map.mp hInvoke
    exact beq_iff_eq.mp (List.mem_filter.mp hLink).2

theorem Agrees.addSites (h : g.Agrees) {b : MethodBody} (hNew : g.callees caller = []) :
    (g.addSites caller b).Agrees where
  ordered := IncomingSites.ordered_foldl_enter _ h.ordered
  owned other site hMem := by
    rw [callees_addSites] at hMem
    split at hMem
    · rename_i hSame
      exact hSame ▸ caller_of_mem_sitesIn hMem
    · exact h.owned other site hMem
  reaching other callee := by
    have hNone : g.sitesFrom caller callee = [] := by simp [sitesFrom, hNew]
    refine (IncomingSites.get?_foldl_enter (fun _ hMem => caller_of_mem_sitesIn hMem) ..).trans ?_
    rw [h.reaching, h.reaching, hNone]
    unfold sitesFrom
    rw [callees_addSites]
    by_cases hOther : other = caller
    · subst hOther
      simp only [true_and, if_true, ne_eq, Option.getD_none, List.nil_append, hNew, List.filter_nil,
        ite_not]
    · rw [if_neg fun hBoth => hOther hBoth.1, if_neg (Ne.symm hOther)]

/-- The callers that a graph lists are those that it is asked for. -/
theorem Agrees.mem_callerMethods (h : g.Agrees)
    (hLists : g.Lists caller callee) : caller ∈ g.callerMethods callee := by
  obtain ⟨site, hMem, hCallee⟩ := hLists
  have hSome : g.sitesFrom caller callee ≠ [] :=
    List.ne_nil_of_mem (List.mem_filter.mpr ⟨hMem, by simpa using hCallee⟩)
  have hGet := h.reaching caller callee
  rw [if_neg hSome] at hGet
  exact List.mem_map.mpr ⟨_, Table.mem_entries_of_get? hGet, rfl⟩

/-- A site is among those at which a method is reached exactly if it is among those of its caller. -/
theorem Agrees.mem_callers (h : g.Agrees) :
    site ∈ g.callers callee ↔ site ∈ g.callees site.caller ∧ site.callee = callee := by
  have hSites (caller : MethodId) : site ∈ g.sitesFrom caller callee ↔
      site ∈ g.callees caller ∧ site.callee = callee := by simp [sitesFrom]
  unfold callers
  rw [List.mem_flatten]
  constructor
  · rintro ⟨sites, hTable, hMem⟩
    obtain ⟨caller, hEntry⟩ := Table.mem_values_iff.mp hTable
    have hFound := (h.ordered callee).get?_eq_some.mpr hEntry
    rw [h.reaching] at hFound
    split at hFound
    · cases hFound
    · obtain rfl := Option.some_inj.mp hFound
      obtain ⟨hMem, hCallee⟩ := (hSites caller).mp hMem
      exact ⟨h.owned caller site hMem ▸ hMem, hCallee⟩
  · intro hBoth
    have hMem := (hSites site.caller).mpr hBoth
    have hSome : g.sitesFrom site.caller callee ≠ [] := List.ne_nil_of_mem hMem
    refine ⟨_, Table.mem_values_of_get? ((h.reaching _ _).trans (if_neg hSome)), hMem⟩

/-- Graphs with the same sites for every caller enter the same ones with the methods that they
reach. -/
theorem Agrees.reaching_eq (h : g.Agrees) (h' : g'.Agrees)
    (hSame : ∀ caller, g.callees caller = g'.callees caller) (callee : MethodId) :
    g.incoming.reaching callee = g'.incoming.reaching callee := by
  refine (h.ordered callee).ext (h'.ordered callee) fun caller => ?_
  rw [h.reaching, h'.reaching]
  unfold sitesFrom
  rw [hSame]

theorem sitesOf_congr {o o' : OverrideGraph}
    (h : ∀ target, o.implementations target = o'.implementations target) :
    sitesOf o caller = sitesOf o' caller := by
  funext i
  unfold sitesOf
  simp only [h]

/-- The sites in a body depend on its captures and on where virtual calls may be dispatched to. -/
theorem sitesIn_congr {b : MethodBody}
    (hOverrides : ∀ target, g.overrides.implementations target = g'.overrides.implementations target)
    (hLinks : g.captures.linksIn caller = g'.captures.linksIn caller) :
    g.sitesIn caller b = g'.sitesIn caller b := by
  unfold sitesIn
  rw [sitesOf_congr hOverrides, hLinks]

/-- What a graph holds of a method's code is what the code makes of it in a program, where `o` tells
what virtual calls may be dispatched to. It holds nothing of a method that cannot be run. -/
structure Shows (g : ReferenceGraph) (p : Program) (o : OverrideGraph) (method : MethodId) :
    Prop where
  unused : p.isLive method = false → g.callees method = [] ∧ g.captures.AlikeIn method .empty
  captured : p.isLive method = true → ∃ s, CaptureScan.scan p method (.empty, .empty) = .ok () s ∧
    g.captures.AlikeIn method s.1
  sites : ∀ b, p.liveBody? method = some b →
    g.callees method = sitesIn { g with overrides := o } method b

/-- The queries that a graph answers. -/
structure SameAnswers (g g' : ReferenceGraph) : Prop where
  callers : ∀ callee, g.callers callee = g'.callers callee
  callees : ∀ caller, g.callees caller = g'.callees caller
  callerMethods : ∀ callee, g.callerMethods callee = g'.callerMethods callee
  callCount : ∀ callee, g.callCount callee = g'.callCount callee
  linksTo : ∀ target, g.captures.linksTo target = g'.captures.linksTo target
  linksIn : ∀ method, g.captures.linksIn method = g'.captures.linksIn method
  linkAt? : ∀ site, g.captures.linkAt? site = g'.captures.linkAt? site
  unmatched : g.captures.unmatched = g'.captures.unmatched

/-- What a graph shows of a method does not depend on what it holds of others. -/
theorem Shows.of_alike {p : Program} {o : OverrideGraph} {method : MethodId}
    (h : g.Shows p o method) (hIndexed : g.captures.Indexed) (hIndexed' : g'.captures.Indexed)
    (hCallees : g'.callees method = g.callees method)
    (hAlike : g'.captures.AlikeIn method g.captures) : g'.Shows p o method where
  unused hUnused := ⟨hCallees ▸ (h.unused hUnused).1, hAlike.trans (h.unused hUnused).2⟩
  captured hLive := by
    obtain ⟨s, hScan, hSame⟩ := h.captured hLive
    exact ⟨s, hScan, hAlike.trans hSame⟩
  sites b hBody := by
    rw [hCallees, h.sites b hBody]
    exact sitesIn_congr (fun _ => rfl) (hIndexed.linksIn_congr hIndexed' hAlike.symm)

/-- What a graph shows of a method that is not changed it shows in the changed program as well. -/
theorem Shows.of_differs {p q : Program} {o : OverrideGraph} {method : MethodId}
    {changed : List MethodId} (h : g.Shows p o method) (hDiffers : p.DiffersIn changed q)
    (hSame : method ∉ changed) : g.Shows q o method where
  unused hUnused := h.unused (hDiffers.isLive hSame ▸ hUnused)
  captured hLive := by
    rw [← hDiffers.scanCaptures hSame]
    exact h.captured (hDiffers.isLive hSame ▸ hLive)
  sites b hBody := by
    unfold Program.liveBody? at hBody
    rw [hDiffers.others method hSame] at hBody
    exact h.sites b hBody

theorem Shows.of_overrides {p : Program} {o o' : OverrideGraph} {method : MethodId}
    (h : g.Shows p o method)
    (hOverrides : ∀ target, o.implementations target = o'.implementations target) :
    g.Shows p o' method :=
  ⟨h.unused, h.captured, fun b hBody => (h.sites b hBody).trans (sitesIn_congr hOverrides rfl)⟩

/-- Graphs that show the same code answer alike. -/
theorem SameAnswers.of_shows {p : Program} {o o' : OverrideGraph} (h : g.Agrees) (h' : g'.Agrees)
    (hIndexed : g.captures.Indexed) (hIndexed' : g'.captures.Indexed)
    (hOverrides : ∀ target, o.implementations target = o'.implementations target)
    (hShows : ∀ method, g.Shows p o method) (hShows' : ∀ method, g'.Shows p o' method) :
    g.SameAnswers g' := by
  have hAlike (method : MethodId) : g.captures.AlikeIn method g'.captures := by
    cases hLive : p.isLive method with
    | false => exact ((hShows method).unused hLive).2.trans ((hShows' method).unused hLive).2.symm
    | true =>
        obtain ⟨s, hScan, hSame⟩ := (hShows method).captured hLive
        obtain ⟨s', hScan', hSame'⟩ := (hShows' method).captured hLive
        cases hScan.symm.trans hScan'
        exact hSame.trans hSame'.symm
  have hLinksIn (method : MethodId) : g.captures.linksIn method = g'.captures.linksIn method :=
    hIndexed.linksIn_congr hIndexed' (hAlike method)
  have hLinks : g.captures.links = g'.captures.links :=
    hIndexed.ordered.ext hIndexed'.ordered fun site => (hAlike site.method).links site.instr
  have hCallees (caller : MethodId) : g.callees caller = g'.callees caller := by
    cases hLive : p.isLive caller with
    | false => rw [((hShows caller).unused hLive).1, ((hShows' caller).unused hLive).1]
    | true =>
        obtain ⟨b, hBody⟩ := Program.isLive_iff.mp hLive
        rw [(hShows caller).sites b hBody, (hShows' caller).sites b hBody]
        exact sitesIn_congr hOverrides (hLinksIn caller)
  have hReaching (callee : MethodId) := h.reaching_eq h' hCallees callee
  have hCallers (callee : MethodId) : g.callers callee = g'.callers callee := by
    unfold ReferenceGraph.callers
    rw [hReaching]
  refine ⟨hCallers, hCallees, fun callee => ?_, fun callee => ?_, fun target => ?_, hLinksIn,
    fun site => ?_, ?_⟩
  · unfold ReferenceGraph.callerMethods
    rw [hReaching]
  · unfold ReferenceGraph.callCount
    rw [hCallers]
  · rw [hIndexed.linksTo_eq, hIndexed'.linksTo_eq, hLinks]
  · unfold CaptureGraph.linkAt?
    rw [hLinks]
  · exact hIndexed.unmatched.ext hIndexed'.unmatched fun site =>
      (hAlike site.method).unmatched site.instr

end ReferenceGraph

namespace Program

/-- No two instructions in the code of one method share an identifier. -/
def DistinctIds (p : Program) : Prop :=
  ∀ id b, p.body id = .ok b → (b.instructions.map (·.id)).Nodup

theorem nodup_liveMethods (p : Program) : p.liveMethods.Nodup :=
  (List.nodup_range.map fun _ _ h => congrArg MethodId.index h).filter _

theorem distinctIds_of_methods {p : Program}
    (h : ∀ m ∈ p.methods, ∀ b ∈ m.body, (b.instructions.map (·.id)).Nodup) : p.DistinctIds := by
  intro id b hBody
  obtain ⟨m, hMethod, hCode⟩ := body_ok.mp hBody
  exact h m (List.mem_of_getElem? hMethod) b hCode

/-- The code of a method in use is that of its entry. -/
theorem body_of_liveBody? {p : Program} {method : MethodId} {b : MethodBody}
    (h : p.liveBody? method = some b) : p.body method = .ok b := by
  obtain ⟨m, hMethod, -, hCode⟩ := liveBody?_eq_some.mp h
  exact body_ok.mpr ⟨m, hMethod, hCode⟩

end Program

namespace GraphEdit

variable {p : Program} {method : MethodId} {s t : ReferenceGraph × FlowCache}

theorem captures_ends {α : Type} {e : CaptureScan α} (h : Ends (captures e) s t) :
    ∃ u, Ends e (s.1.captures, s.2) u ∧ t = ({ s.1 with captures := u.1 }, u.2) :=
  Ends.focus h

theorem query_ends {α : Type} {q : Query α} (h : Ends (query q) s t) : t.1 = s.1 := by
  obtain ⟨flow, -, rfl⟩ := Ends.focus h
  rfl

/-- Scanning a caller enters the sites of its code, or none if there is no code. -/
theorem scan_ends (h : Ends (scan p method) s t) :
    t.1 = s.1 ∨ ∃ b, p.body method = .ok b ∧ t.1 = s.1.addSites method b := by
  unfold scan at h
  rcases Ends.bind h with hQuery | ⟨b, u, hQuery, h⟩
  · exact Or.inl (query_ends hQuery)
  · obtain ⟨flow, hBody, rfl⟩ := query_ok.mp hQuery
    obtain rfl := Ends.modify h
    exact Or.inr ⟨b, (Query.body_ok.mp hBody).1, rfl⟩

/-- What is entered with callers and with the methods that they reach agrees after a caller is
derived anew, or was dropped where that failed. -/
theorem agrees_rederive (h : Ends (rederive p method) s t) (hAgrees : s.1.Agrees) :
    t.1.Agrees := by
  have hForgotten := hAgrees.forget method
  have hNew : (s.1.forget method).callees method = [] := by
    rw [ReferenceGraph.callees_forget, if_pos rfl]
  unfold rederive at h
  rcases Ends.bind h with hForget | ⟨_, s₁, hForget, h⟩
  · exact Ends.modify hForget ▸ hForgotten
  obtain rfl := update_ok.mp hForget
  split at h
  · rcases Ends.bind h with hQuery | ⟨_, s₂, hQuery, h⟩
    · exact query_ends hQuery ▸ hForgotten
    obtain ⟨flow, -, rfl⟩ := query_ok.mp hQuery
    rcases Ends.bind h with hCaptures | ⟨_, s₃, hCaptures, h⟩
    · obtain ⟨u, -, rfl⟩ := captures_ends hCaptures
      exact hForgotten.of_same rfl rfl
    · obtain ⟨u, -, rfl⟩ := captures_ok.mp hCaptures
      have hAgain : ReferenceGraph.Agrees { s.1.forget method with captures := u.1 } :=
        hForgotten.of_same rfl rfl
      rcases scan_ends h with hSame | ⟨b, -, hSame⟩
      · exact hSame ▸ hAgain
      · exact hSame ▸ hAgain.addSites hNew
  · exact Ends.pure h ▸ hForgotten

/-- The captures of a body are dropped and entered anew, and those of other bodies stay. -/
theorem indexed_rederive (h : Ends (rederive p method) s t) (hIndexed : s.1.captures.Indexed)
    (hDistinct : p.DistinctIds) :
    t.1.captures.Indexed ∧ ∀ other, other ≠ method → t.1.captures.AlikeIn other s.1.captures := by
  obtain ⟨hForgotten, -, hOthers⟩ := hIndexed.forget method
  unfold rederive at h
  rcases Ends.bind h with hForget | ⟨_, s₁, hForget, h⟩
  · exact Ends.modify hForget ▸ ⟨hForgotten, hOthers⟩
  obtain rfl := update_ok.mp hForget
  split at h
  · rcases Ends.bind h with hQuery | ⟨_, s₂, hQuery, h⟩
    · exact query_ends hQuery ▸ ⟨hForgotten, hOthers⟩
    obtain ⟨flow, -, rfl⟩ := query_ok.mp hQuery
    have hRescanned {u : CaptureGraph × FlowCache}
        (hScan : Ends (CaptureScan.rederive p method) ((s.1.forget method).captures, flow) u) :
        u.1.Indexed ∧ ∀ other, other ≠ method → u.1.AlikeIn other s.1.captures := by
      obtain ⟨hScanned, hSame⟩ := CaptureScan.rederive_ends hScan hForgotten (hDistinct method)
      exact ⟨hScanned, fun other hOther => (hSame other hOther).trans (hOthers other hOther)⟩
    rcases Ends.bind h with hCaptures | ⟨_, s₃, hCaptures, h⟩
    · obtain ⟨u, hScan, rfl⟩ := captures_ends hCaptures
      exact hRescanned hScan
    · obtain ⟨u, hScan, rfl⟩ := captures_ok.mp hCaptures
      have hSame : t.1.captures = u.1 := by
        rcases scan_ends h with hSame | ⟨b, -, hSame⟩ <;> rw [hSame]
        rfl
      rw [hSame]
      exact hRescanned (Or.inl ⟨_, hScan⟩)
  · exact Ends.pure h ▸ ⟨hForgotten, hOthers⟩

/-- A caller that is derived anew is shown as the program has it, and the sites of others stay. -/
theorem shows_rederive (h : rederive p method s = .ok () t) (hIndexed : s.1.captures.Indexed) :
    t.1.overrides = s.1.overrides ∧ t.1.Shows p s.1.overrides method ∧
      ∀ other, other ≠ method → t.1.callees other = s.1.callees other := by
  obtain ⟨hForgotten, hNew, -⟩ := hIndexed.forget method
  have hCallees (other : MethodId) (hOther : other ≠ method) :
      (s.1.forget method).callees other = s.1.callees other := by
    rw [ReferenceGraph.callees_forget, if_neg (Ne.symm hOther)]
  unfold rederive at h
  obtain ⟨_, s₁, hForget, h⟩ := Step.bind_ok.mp h
  obtain rfl := update_ok.mp hForget
  split at h
  · rename_i hLive
    obtain ⟨_, s₂, hQuery, h⟩ := Step.bind_ok.mp h
    obtain ⟨flow, hFlow, rfl⟩ := query_ok.mp hQuery
    obtain rfl := Step.modify_ok.mp hFlow
    obtain ⟨_, s₃, hCaptures, h⟩ := Step.bind_ok.mp h
    obtain ⟨u, hScan, rfl⟩ := captures_ok.mp hCaptures
    obtain ⟨b, hBody, hGraph⟩ := scan_ok h
    obtain ⟨v, hAlone, hAlike⟩ := CaptureScan.rederive_again hScan hForgotten hLive
      fun b _ => .invalidate s.2 method b
    rw [hGraph]
    refine ⟨rfl, ⟨fun hUnused => ?_, fun _ => ⟨v, hAlone, hAlike⟩, fun b' hLiveBody => ?_⟩,
      fun other hOther => ?_⟩
    · simp [hLive] at hUnused
    · obtain rfl : b = b' := Except.ok.inj (hBody.symm.trans (Program.body_of_liveBody? hLiveBody))
      rw [ReferenceGraph.callees_addSites, if_pos rfl]
      exact ReferenceGraph.sitesIn_congr (fun _ => rfl) rfl
    · rw [ReferenceGraph.callees_addSites, if_neg (Ne.symm hOther)]
      exact hCallees other hOther
  · rename_i hDead
    obtain ⟨-, rfl⟩ := Step.pure_ok.mp h
    refine ⟨rfl, ⟨fun _ => ⟨?_, hNew⟩, fun hLive => (hDead hLive).elim, fun b hLiveBody => ?_⟩,
      hCallees⟩
    · rw [ReferenceGraph.callees_forget, if_pos rfl]
    · exact (hDead (Program.isLive_iff.mpr ⟨b, hLiveBody⟩)).elim

/-- A graph is being built, and the captures in the code of some methods are still to come. -/
structure Capturing (p : Program) (ahead : List MethodId) (s : ReferenceGraph × FlowCache) : Prop where
  indexed : s.1.captures.Indexed
  nodup : ahead.Nodup
  live : ∀ method ∈ ahead, p.isLive method = true
  new : ∀ method ∈ ahead, s.1.captures.AlikeIn method .empty
  unused : ∀ method, p.isLive method = false → s.1.captures.AlikeIn method .empty

theorem Capturing.next {ahead : List MethodId} (hBuild : Capturing p (method :: ahead) s)
    (hDistinct : p.DistinctIds) (h : captures (CaptureScan.scan p method) s = .ok () t) :
    Capturing p ahead t ∧
      ∀ other, other ≠ method → t.1.captures.AlikeIn other s.1.captures := by
  obtain ⟨hFirst, hNodup⟩ := List.nodup_cons.mp hBuild.nodup
  obtain ⟨hLive, hLiveRest⟩ := List.forall_mem_cons.mp hBuild.live
  obtain ⟨hNew, hNewRest⟩ := List.forall_mem_cons.mp hBuild.new
  obtain ⟨u, hScan, rfl⟩ := captures_ok.mp h
  obtain ⟨hIndexed, hOthers⟩ :=
    CaptureScan.scan_ends (Or.inl ⟨_, hScan⟩) hBuild.indexed hNew (hDistinct method)
  refine ⟨⟨hIndexed, hNodup, hLiveRest, fun other hMem => ?_, fun other hUnused => ?_⟩, hOthers⟩
  · exact (hOthers other fun hSame => hFirst (hSame ▸ hMem)).trans (hNewRest other hMem)
  · have hOther : other ≠ method := fun hSame => by simp [← hSame, hUnused] at hLive
    exact (hOthers other hOther).trans (hBuild.unused other hUnused)

/-- The captures that were entered are those that a scan of each body alone finds. -/
structure Captured (p : Program) (ahead : List MethodId) (s : ReferenceGraph × FlowCache) : Prop
    extends Capturing p ahead s where
  described : ∀ method ∈ ahead, ∀ b, p.body method = .ok b → s.2.Describes method b
  done : ∀ method, method ∉ ahead → p.isLive method = true →
    ∃ u, CaptureScan.scan p method (.empty, .empty) = .ok () u ∧ s.1.captures.AlikeIn method u.1

theorem Captured.next {ahead : List MethodId} (hBuild : Captured p (method :: ahead) s)
    (hDistinct : p.DistinctIds) (h : captures (CaptureScan.scan p method) s = .ok () t) :
    Captured p ahead t := by
  obtain ⟨hFirst, -⟩ := List.nodup_cons.mp hBuild.nodup
  obtain ⟨hNew, -⟩ := List.forall_mem_cons.mp hBuild.new
  obtain ⟨hCache, hCacheRest⟩ := List.forall_mem_cons.mp hBuild.described
  obtain ⟨hNext, hOthers⟩ := hBuild.toCapturing.next hDistinct h
  obtain ⟨u, hScan, rfl⟩ := captures_ok.mp h
  obtain ⟨v, hAlone, hAlike⟩ := CaptureScan.scan_again (v := (.empty, .empty)) hNew
    (.refl method .empty) (fun b hBody => ⟨hCache b hBody, .empty method b⟩) hScan
  refine ⟨hNext, fun other hMem b hBody => ?_, fun other hBehind hUsed => ?_⟩
  · have hOther : other ≠ method := fun hSame => hFirst (hSame ▸ hMem)
    exact CaptureScan.keeps_scan hScan other b hOther (hCacheRest other hMem b hBody)
  · by_cases hSame : other = method
    · exact hSame ▸ ⟨v, hAlone, hAlike⟩
    · obtain ⟨w, hDone, hKnown⟩ := hBuild.done other (by simp [hSame, hBehind]) hUsed
      exact ⟨w, hDone, (hOthers other hSame).trans hKnown⟩

/-- A graph is being built, and the sites in the code of some methods are still to come. -/
structure Entering (p : Program) (start : ReferenceGraph) (ahead : List MethodId)
    (g : ReferenceGraph) : Prop where
  agrees : g.Agrees
  captures : g.captures = start.captures
  overrides : g.overrides = start.overrides
  nodup : ahead.Nodup
  live : ∀ method ∈ ahead, p.isLive method = true
  new : ∀ method ∈ ahead, g.callees method = []
  unused : ∀ method, p.isLive method = false → g.callees method = []
  done : ∀ method b, method ∉ ahead → p.liveBody? method = some b →
    g.callees method = start.sitesIn method b

theorem Entering.next {start : ReferenceGraph} {ahead : List MethodId}
    (hBuild : Entering p start (method :: ahead) s.1) (h : scan p method s = .ok () t) :
    Entering p start ahead t.1 := by
  obtain ⟨hFirst, hNodup⟩ := List.nodup_cons.mp hBuild.nodup
  obtain ⟨hLive, hLiveRest⟩ := List.forall_mem_cons.mp hBuild.live
  obtain ⟨hNew, hNewRest⟩ := List.forall_mem_cons.mp hBuild.new
  obtain ⟨b, hBody, hGraph⟩ := scan_ok h
  have hOther {other : MethodId} (h : other ≠ method) :
      (s.1.addSites method b).callees other = s.1.callees other := by
    rw [ReferenceGraph.callees_addSites, if_neg (Ne.symm h)]
  rw [hGraph]
  refine ⟨hBuild.agrees.addSites hNew, hBuild.captures, hBuild.overrides, hNodup, hLiveRest,
    fun other hMem => ?_, fun other hUnused => ?_, fun other b' hBehind hUsed => ?_⟩
  · rw [hOther fun hSame => hFirst (hSame ▸ hMem)]
    exact hNewRest other hMem
  · rw [hOther fun hSame => by simp [← hSame, hUnused] at hLive]
    exact hBuild.unused other hUnused
  · by_cases hSame : other = method
    · subst hSame
      obtain rfl : b = b' := Except.ok.inj (hBody.symm.trans (Program.body_of_liveBody? hUsed))
      rw [ReferenceGraph.callees_addSites, if_pos rfl]
      refine ReferenceGraph.sitesIn_congr (fun target => ?_) ?_
      · rw [hBuild.overrides]
      · rw [hBuild.captures]
    · rw [hOther hSame]
      exact hBuild.done other b' (by simp [hSame, hBehind]) hUsed

/-- Before anything is entered. -/
theorem Capturing.start (p : Program) (cache : FlowCache) :
    Capturing p p.liveMethods ({ ReferenceGraph.empty with overrides := .build p }, cache) where
  indexed := .empty
  nodup := p.nodup_liveMethods
  live _ h := Program.mem_liveMethods.mp h
  new method _ := .refl method _
  unused method _ := .refl method _

theorem Captured.start {cache : FlowCache}
    (hCache : ∀ method b, p.body method = .ok b → cache.Describes method b) :
    Captured p p.liveMethods ({ ReferenceGraph.empty with overrides := .build p }, cache) where
  toCapturing := .start p cache
  described method _ := hCache method
  done _ h hLive := (h (Program.mem_liveMethods.mpr hLive)).elim

theorem Entering.start {g : ReferenceGraph} (hSites : g.sites = ∅) (hIncoming : g.incoming = ∅) :
    Entering p g p.liveMethods g where
  agrees := (ReferenceGraph.Agrees.empty .empty).of_same hSites hIncoming
  captures := rfl
  overrides := rfl
  nodup := p.nodup_liveMethods
  live _ h := Program.mem_liveMethods.mp h
  new method _ := by simp [ReferenceGraph.callees, hSites, Table.get?_empty]
  unused method _ := by simp [ReferenceGraph.callees, hSites, Table.get?_empty]
  done method b h hBody := by
    exact (h (Program.mem_liveMethods.mpr (Program.isLive_iff.mpr ⟨b, hBody⟩))).elim

/-- Looking for captures enters no sites. -/
theorem keeps_sites {methods : List MethodId} :
    Keeps (fun s t : ReferenceGraph × FlowCache => t.1.sites = s.1.sites ∧
      t.1.incoming = s.1.incoming ∧ t.1.overrides = s.1.overrides)
      (methods.forM fun m => captures (CaptureScan.scan p m)) := by
  have : IsPreorder (ReferenceGraph × FlowCache) fun s t => t.1.sites = s.1.sites ∧
      t.1.incoming = s.1.incoming ∧ t.1.overrides = s.1.overrides :=
    { refl := fun _ => ⟨rfl, rfl, rfl⟩
      trans := fun _ _ _ h h' => ⟨h'.1.trans h.1, h'.2.1.trans h.2.1, h'.2.2.trans h.2.2⟩ }
  refine .forM fun m _ s _ t h => ?_
  obtain ⟨u, -, rfl⟩ := captures_ok.mp h
  exact ⟨rfl, rfl, rfl⟩

/-- What is entered with callers and with the methods that they reach agrees in a graph that is
built. The captures in the code are entered before. -/
theorem build_entered (h : build p s = .ok () t) :
    ∃ s₂, (p.liveMethods.forM fun m => captures (CaptureScan.scan p m))
        ({ ReferenceGraph.empty with overrides := .build p }, s.2) = .ok () s₂ ∧
      s₂.1.overrides = .build p ∧ Entering p s₂.1 [] t.1 := by
  unfold build at h
  obtain ⟨_, s₁, hUpdate, h⟩ := Step.bind_ok.mp h
  obtain rfl := update_ok.mp hUpdate
  obtain ⟨_, s₂, hCaptures, h⟩ := Step.bind_ok.mp h
  obtain ⟨hSites, hIncoming, hOverrides⟩ := keeps_sites hCaptures
  refine ⟨s₂, hCaptures, hOverrides, ?_⟩
  exact Step.forM_induct (I := fun ahead u => Entering p s₂.1 ahead u.1)
    (fun m ahead u _ v hBuild h => hBuild.next h) (.start hSites hIncoming) h

theorem build_indexed (h : build p s = .ok () t) (hDistinct : p.DistinctIds) :
    t.1.captures.Indexed := by
  obtain ⟨s₂, hCaptures, -, hEntered⟩ := build_entered h
  have hCaptured : Capturing p [] s₂ :=
    Step.forM_induct (fun m ahead u _ v hBuild h => (hBuild.next hDistinct h).1)
      (Capturing.start p s.2) hCaptures
  exact hEntered.captures ▸ hCaptured.indexed

/-- A graph that is built shows the code of the program. -/
theorem build_shows (h : build p s = .ok () t) (hDistinct : p.DistinctIds)
    (hCache : ∀ method b, p.body method = .ok b → s.2.Describes method b) :
    t.1.overrides = .build p ∧ ∀ method, t.1.Shows p (.build p) method := by
  obtain ⟨s₂, hCaptures, hOverrides, hEntered⟩ := build_entered h
  have hCaptured : Captured p [] s₂ :=
    Step.forM_induct (fun m ahead u _ v hBuild h => hBuild.next hDistinct h)
      (Captured.start hCache) hCaptures
  refine ⟨hEntered.overrides.trans hOverrides, fun method =>
    ⟨fun hUnused => ⟨hEntered.unused method hUnused, ?_⟩, fun hLive => ?_, fun b hBody => ?_⟩⟩
  · exact hEntered.captures ▸ hCaptured.unused method hUnused
  · exact hEntered.captures ▸ hCaptured.done method (by simp) hLive
  · rw [hEntered.done method b (by simp) hBody]
    refine ReferenceGraph.sitesIn_congr (fun target => ?_) ?_
    · rw [hOverrides]
    · rw [hEntered.captures]

/-- A graph can be built if each body can be scanned. -/
theorem build_succeeds (hDistinct : p.DistinctIds)
    (hCache : ∀ method b, p.body method = .ok b → s.2.Describes method b)
    (hScans : ∀ method, p.isLive method = true →
      ∃ u, CaptureScan.scan p method (.empty, .empty) = .ok () u) :
    ∃ t, build p s = .ok () t := by
  have hCapture (m : MethodId) (ahead : List MethodId) (u : ReferenceGraph × FlowCache)
      (hBuild : Captured p (m :: ahead) u) :
      ∃ v, captures (CaptureScan.scan p m) u = .ok () v ∧ Captured p ahead v := by
    obtain ⟨hLive, -⟩ := List.forall_mem_cons.mp hBuild.live
    obtain ⟨hNew, -⟩ := List.forall_mem_cons.mp hBuild.new
    obtain ⟨hDescribed, -⟩ := List.forall_mem_cons.mp hBuild.described
    obtain ⟨w, hAlone⟩ := hScans m hLive
    obtain ⟨v, hScan, -⟩ := CaptureScan.scan_again (v := (u.1.captures, u.2)) (.refl m .empty) hNew
      (fun b hBody => ⟨.empty m b, hDescribed b hBody⟩) hAlone
    have hRun := captures_ok.mpr ⟨v, hScan, rfl⟩
    exact ⟨_, hRun, hBuild.next hDistinct hRun⟩
  obtain ⟨s₂, hCaptures, -⟩ := Step.forM_succeeds hCapture (Captured.start hCache)
  obtain ⟨hSites, hIncoming, -⟩ := keeps_sites hCaptures
  have hEnter (m : MethodId) (ahead : List MethodId) (u : ReferenceGraph × FlowCache)
      (hBuild : Entering p s₂.1 (m :: ahead) u.1) :
      ∃ v, scan p m u = .ok () v ∧ Entering p s₂.1 ahead v.1 := by
    obtain ⟨hLive, -⟩ := List.forall_mem_cons.mp hBuild.live
    obtain ⟨b, hBody⟩ := Program.isLive_iff.mp hLive
    have hQuery : query (Query.body p m) u = .ok b u :=
      query_ok.mpr ⟨u.2, Query.body_ok.mpr ⟨Program.body_of_liveBody? hBody, rfl⟩, rfl⟩
    have hRun : scan p m u = .ok () (u.1.addSites m b, u.2) :=
      Step.bind_ok.mpr ⟨b, u, hQuery, update_ok.mpr rfl⟩
    exact ⟨_, hRun, hBuild.next hRun⟩
  obtain ⟨t, hSites, -⟩ := Step.forM_succeeds
    (I := fun ahead (u : ReferenceGraph × FlowCache) => Entering p s₂.1 ahead u.1) hEnter
    (Entering.start hSites hIncoming)
  exact ⟨t, Step.bind_ok.mpr ⟨⟨⟩, _, update_ok.mpr rfl,
    Step.bind_ok.mpr ⟨⟨⟩, s₂, hCaptures, hSites⟩⟩⟩

/-- A graph that was built, and some callers of which were derived anew or dropped since, from
programs that are allowed. A graph stays as it is where another one cannot be built. -/
inductive Maintained (Allowed : Program → Prop) : ReferenceGraph × FlowCache → Prop where
  | empty (cache : FlowCache) : Maintained Allowed (.empty, cache)
  | built {p : Program} {s t : ReferenceGraph × FlowCache} (prior : Maintained Allowed s)
      (allowed : Allowed p) (last : build p s = .ok () t) : Maintained Allowed t
  | rederived {p : Program} {method : MethodId} {s t : ReferenceGraph × FlowCache}
      (prior : Maintained Allowed s) (allowed : Allowed p) (last : Ends (rederive p method) s t) :
      Maintained Allowed t
  | forgotten {s : ReferenceGraph × FlowCache} (prior : Maintained Allowed s) (method : MethodId) :
      Maintained Allowed (s.1.forget method, s.2)
  | asked {s : ReferenceGraph × FlowCache} (prior : Maintained Allowed s) (cache : FlowCache) :
      Maintained Allowed (s.1, cache)

/-- What is entered with callers and with the methods that they reach always agrees. -/
theorem Maintained.agrees {Allowed : Program → Prop} (h : Maintained Allowed s) : s.1.Agrees := by
  induction h with
  | empty cache => exact .empty .empty
  | built _ _ last =>
      obtain ⟨_, -, -, hEntered⟩ := build_entered last
      exact hEntered.agrees
  | rederived _ _ last ih => exact agrees_rederive last ih
  | forgotten _ method ih => exact ih.forget method
  | asked _ _ ih => exact ih

/-- Every capture is listed for its target and no other method. -/
theorem Maintained.indexed (h : Maintained Program.DistinctIds s) : s.1.captures.Indexed := by
  induction h with
  | empty cache => exact .empty
  | built _ allowed last => exact build_indexed last allowed
  | rederived _ allowed last ih => exact (indexed_rederive last ih allowed).1
  | forgotten _ method ih => exact (ih.forget method).1
  | asked _ _ ih => exact ih

/-- Some callers are still to be derived anew. All others are shown as a program has them. -/
structure Rederiving (p : Program) (o : OverrideGraph) (ahead : List MethodId)
    (s : ReferenceGraph × FlowCache) : Prop where
  agrees : s.1.Agrees
  indexed : s.1.captures.Indexed
  overrides : ∀ target, s.1.overrides.implementations target = o.implementations target
  shows : ∀ method, method ∉ ahead → s.1.Shows p o method

theorem Rederiving.next {o : OverrideGraph} {ahead : List MethodId}
    (hAhead : Rederiving p o (method :: ahead) s) (hDistinct : p.DistinctIds)
    (h : rederive p method s = .ok () t) : Rederiving p o ahead t := by
  have hEnds : Ends (rederive p method) s t := Or.inl ⟨_, h⟩
  obtain ⟨hIndexed, hOthers⟩ := indexed_rederive hEnds hAhead.indexed hDistinct
  obtain ⟨hOverrides, hShows, hCallees⟩ := shows_rederive h hAhead.indexed
  refine ⟨agrees_rederive hEnds hAhead.agrees, hIndexed, fun target => ?_, fun other hBehind => ?_⟩
  · rw [hOverrides, hAhead.overrides]
  · by_cases hSame : other = method
    · exact hSame ▸ hShows.of_overrides hAhead.overrides
    · exact (hAhead.shows other (by simp [hSame, hBehind])).of_alike hAhead.indexed hIndexed
        (hCallees other hSame) (hOthers other hSame)

/-- A graph answers like one that is built from the changed program once every changed caller was
derived anew, in any order. The other graph can then be built. -/
theorem rederive_build {q : Program} {changed : List MethodId} {cache : FlowCache}
    {u : ReferenceGraph × FlowCache} (hBuild : build p s = .ok () t) (hDistinct : p.DistinctIds)
    (hCache : ∀ method b, p.body method = .ok b → s.2.Describes method b)
    (hDiffers : p.DiffersIn changed q) (hDistinct' : q.DistinctIds)
    (hOverrides : ∀ target, (OverrideGraph.build p).implementations target
      = (OverrideGraph.build q).implementations target)
    (hRederive : changed.forM (rederive q) (t.1, cache) = .ok () u)
    {s' : ReferenceGraph × FlowCache}
    (hCache' : ∀ method b, q.body method = .ok b → s'.2.Describes method b) :
    ∃ t', build q s' = .ok () t' ∧ u.1.SameAnswers t'.1 := by
  obtain ⟨_, -, -, hEntered⟩ := build_entered hBuild
  obtain ⟨hBuilt, hShows⟩ := build_shows hBuild hDistinct hCache
  have hIndexed : t.1.captures.Indexed := build_indexed hBuild hDistinct
  have hStart : Rederiving q (.build q) changed (t.1, cache) :=
    ⟨hEntered.agrees, hIndexed, fun target => by rw [hBuilt, hOverrides],
      fun method hSame => ((hShows method).of_differs hDiffers hSame).of_overrides hOverrides⟩
  have hEnd : Rederiving q (.build q) [] u :=
    Step.forM_induct (fun m ahead v _ w hAhead h => hAhead.next hDistinct' h) hStart hRederive
  have hEndShows (method : MethodId) : u.1.Shows q (.build q) method := hEnd.shows method (by simp)
  obtain ⟨t', hBuild'⟩ := build_succeeds (s := s') hDistinct' hCache' fun method hLive => by
    obtain ⟨v, hScan, -⟩ := (hEndShows method).captured hLive
    exact ⟨v, hScan⟩
  obtain ⟨_, -, -, hEntered'⟩ := build_entered hBuild'
  obtain ⟨-, hShows'⟩ := build_shows hBuild' hDistinct' hCache'
  exact ⟨t', hBuild', .of_shows hEnd.agrees hEntered'.agrees hEnd.indexed
    (build_indexed hBuild' hDistinct') (fun _ => rfl) hEndShows hShows'⟩

/-- A reference graph that is kept up caller by caller. Once every changed caller was derived anew,
in any order, it answers like one that is built from the changed program. A site of a caller is
always one at which the callee is reached, and the captures of a method are those that have it for
their target. -/
theorem maintained_answers :
    (∀ {p q : Program} {s t u v : ReferenceGraph × FlowCache} {cache : FlowCache}
      {changed : List MethodId}, build p s = .ok () t → p.DistinctIds →
      (∀ method b, p.body method = .ok b → s.2.Describes method b) →
      p.DiffersIn changed q → q.DistinctIds →
      (∀ target, (OverrideGraph.build p).implementations target
        = (OverrideGraph.build q).implementations target) →
      changed.forM (rederive q) (t.1, cache) = .ok () u →
      (∀ method b, q.body method = .ok b → v.2.Describes method b) →
      ∃ w, build q v = .ok () w ∧ u.1.SameAnswers w.1) ∧
    (∀ {Allowed : Program → Prop} {s : ReferenceGraph × FlowCache}, Maintained Allowed s →
      ∀ caller callee site, site ∈ s.1.callees caller ∧ site.callee = callee ↔
        site ∈ s.1.callers callee ∧ site.caller = caller) ∧
    ∀ {s : ReferenceGraph × FlowCache}, Maintained Program.DistinctIds s → ∀ target,
      s.1.captures.linksTo target
        = s.1.captures.links.values.filter fun link => link.target == target := by
  refine ⟨fun hBuild hDistinct hCache hDiffers hDistinct' hOverrides hRederive hCache' =>
    rederive_build hBuild hDistinct hCache hDiffers hDistinct' hOverrides hRederive hCache',
    fun h caller callee site => ?_, fun h target => h.indexed.linksTo_eq target⟩
  have hAgrees := h.agrees
  rw [hAgrees.mem_callers]
  constructor
  · rintro ⟨hMem, hCallee⟩
    have hOwner := hAgrees.owned caller site hMem
    exact ⟨⟨hOwner ▸ hMem, hCallee⟩, hOwner⟩
  · rintro ⟨⟨hMem, hCallee⟩, rfl⟩
    exact ⟨hMem, hCallee⟩

end GraphEdit

section Examples

open GraphEdit

/-- A method makes a callable of another one and calls it. Later it makes the callable of a third
method, and the first one is out of use. -/
def callback (later : Bool) : Edit ContextPlan := do
  let util ← Program.addType "G" "Util" none ⟨0⟩
  let action ← Program.addType "G" "Action" none (.ofList [.delegate])
  let constructor ← Program.addMethod action ".ctor" [⟨"object", .object⟩, ⟨"method", .nativeInt⟩]
    .void (.ofList [.constructor])
  let invoke ← Program.addMethod action "Invoke" [] .void (.ofList [.virtual])
  let first ← Program.addMethod util "First" [] .void (.ofList [.static])
  let second ← Program.addMethod util "Second" [] .void (.ofList [.static])
  let user ← Program.addMethod util "User" [] .void (.ofList [.static])
  [first, second].forM fun m => Program.setBody m (.fresh [.plain .ret])
  let target := if later then second else first
  Program.setBody user (.fresh [.plain .ldnull, .onMethod .ldftn target, .onMethod .newobj constructor,
    .onMethod .callvirt invoke, .plain .ret])
  if later then Program.retireMethod first
  pure default

theorem callback_distinctIds :
    (built (callback false)).1.DistinctIds ∧ (built (callback true)).1.DistinctIds :=
  ⟨Program.distinctIds_of_methods (by decide +kernel),
    Program.distinctIds_of_methods (by decide +kernel)⟩

theorem callback_differs :
    (built (callback false)).1.DiffersIn [⟨4⟩, ⟨2⟩] (built (callback true)).1 := by
  refine ⟨by decide +kernel, fun id t hType hDelegate => ?_, by decide +kernel, fun id hOther => ?_⟩
  · have hKept : ∀ e ∈ (built (callback false)).1.types.zipIdx, e.1.isDelegate = true →
        (built (callback true)).1.type? ⟨e.2⟩ = some e.1 := by decide +kernel
    exact hKept (t, id.index) (List.mem_zipIdx_iff_getElem?.mpr hType) hDelegate
  · have hKept : ∀ i ∈ List.range 5, MethodId.mk i ∉ [MethodId.mk 4, ⟨2⟩] →
        (built (callback true)).1.method? ⟨i⟩ = (built (callback false)).1.method? ⟨i⟩ := by
      decide +kernel
    have hLengths : (built (callback true)).1.methods.length = 5 ∧
        (built (callback false)).1.methods.length = 5 := by decide +kernel
    by_cases hIndex : id.index < 5
    · exact hKept id.index (List.mem_range.mpr hIndex) hOther
    · unfold Program.method?
      rw [List.getElem?_eq_none (by omega), List.getElem?_eq_none (by omega)]

theorem callback_overrides : OverrideGraph.build (built (callback false)).1
    = OverrideGraph.build (built (callback true)).1 := by decide +kernel

/-- The graph answers for the later program once the user and the method out of use are derived
anew, from indexes that were kept of the earlier one. The callable is then one of the other method. -/
theorem callback_rederived :
    ∃ t u t', build (built (callback false)).1 (.empty, .empty) = .ok () t ∧
      [MethodId.mk 4, ⟨2⟩].forM (rederive (built (callback true)).1) t = .ok () u ∧
      build (built (callback true)).1 (.empty, .empty) = .ok () t' ∧
      u.1.SameAnswers t'.1 ∧ t.1.callerMethods ⟨2⟩ = [⟨4⟩] ∧ u.1.callerMethods ⟨2⟩ = [] := by
  have hCheck : (match build (built (callback false)).1 (.empty, .empty) with
    | .ok _ t => match [MethodId.mk 4, ⟨2⟩].forM (rederive (built (callback true)).1) t with
      | .ok _ u => decide (t.1.callerMethods ⟨2⟩ = [⟨4⟩] ∧ u.1.callerMethods ⟨2⟩ = [])
      | .error _ _ => false
    | .error _ _ => false) = true := by decide +kernel
  split at hCheck
  · rename_i t hBuild
    split at hCheck
    · rename_i u hRederive
      obtain ⟨t', hBuild', hSame⟩ := maintained_answers.1 (v := (.empty, .empty)) hBuild
        callback_distinctIds.1 (fun m b _ => .empty m b) callback_differs callback_distinctIds.2
        (fun target => by rw [callback_overrides]) hRederive fun m b _ => .empty m b
      exact ⟨t, u, t', hBuild, hRederive, hBuild', hSame, of_decide_eq_true hCheck⟩
    · cases hCheck
  · cases hCheck

/-- Two instructions that make callables of different methods share an identifier, and so do the
constructions. -/
def repeatedId : MethodBody :=
  .ofParts [⟨⟨0⟩, .ldnull, .none⟩, ⟨⟨1⟩, .ldftn, .method ⟨2⟩⟩, ⟨⟨2⟩, .newobj, .method ⟨0⟩⟩,
    ⟨⟨3⟩, .pop, .none⟩, ⟨⟨4⟩, .ldnull, .none⟩, ⟨⟨1⟩, .ldftn, .method ⟨3⟩⟩,
    ⟨⟨2⟩, .newobj, .method ⟨0⟩⟩, ⟨⟨5⟩, .pop, .none⟩, ⟨⟨6⟩, .ret, .none⟩] [] []

def repeatedCallback : Edit ContextPlan := do
  let plan ← callback false
  Program.setBody ⟨4⟩ repeatedId
  pure plan

/-- The place is listed for both targets, and the capture there has one of them. -/
theorem repeatedCallback_listed :
    ∃ s, build (built repeatedCallback).1 (.empty, .empty) = .ok () s ∧
      ¬ ∀ target, s.1.captures.linksTo target
        = s.1.captures.links.values.filter fun link => link.target == target := by
  have hCheck : (match build (built repeatedCallback).1 (.empty, .empty) with
    | .ok _ s => decide (s.1.captures.linksTo ⟨2⟩
        ≠ s.1.captures.links.values.filter fun link => link.target == ⟨2⟩)
    | .error _ _ => false) = true := by decide +kernel
  split at hCheck
  · rename_i s hBuild
    exact ⟨s, hBuild, fun hAll => of_decide_eq_true hCheck (hAll ⟨2⟩)⟩
  · cases hCheck

end Examples

end ContextBinding
