import ContextBinding.Proofs.Ordering
import ContextBinding.Proofs.Outcome
import ContextBinding.Proofs.Provenance
import ContextBinding.Reference.Capture

/-! What the capture graph holds. The places listed for a method are those of its captures, in
order, as long as no two instructions of one body share an identifier. What is known of one body
does not depend on what is known of others. -/

namespace ContextBinding

open Std

namespace CaptureGraph

/-- A capture is entered at its place, and the place is listed for its target, and for no other
method. -/
structure Indexed (g : CaptureGraph) : Prop where
  ordered : g.links.Ordered
  keyed : ∀ site link, g.links.get? site = some link → link.site = site
  ascends : ∀ target, Ascends (g.placesOf target)
  mem_placesOf : ∀ target site,
    site ∈ g.placesOf target ↔ ∃ link, g.links.get? site = some link ∧ link.target = target
  unmatched : Ascends g.unmatched

/-- Two graphs know the same of the body of a method. -/
structure AlikeIn (method : MethodId) (g g' : CaptureGraph) : Prop where
  links : ∀ i, g.links.get? ⟨method, i⟩ = g'.links.get? ⟨method, i⟩
  unmatched : ∀ i, ⟨method, i⟩ ∈ g.unmatched ↔ ⟨method, i⟩ ∈ g'.unmatched

namespace AlikeIn

variable {method : MethodId} {g g' g'' : CaptureGraph}

theorem refl (method : MethodId) (g : CaptureGraph) : g.AlikeIn method g :=
  ⟨fun _ => rfl, fun _ => Iff.rfl⟩

theorem symm (h : g.AlikeIn method g') : g'.AlikeIn method g :=
  ⟨fun i => (h.links i).symm, fun i => (h.unmatched i).symm⟩

theorem trans (h : g.AlikeIn method g') (h' : g'.AlikeIn method g'') : g.AlikeIn method g'' :=
  ⟨fun i => (h.links i).trans (h'.links i), fun i => (h.unmatched i).trans (h'.unmatched i)⟩

end AlikeIn

variable {g g' : CaptureGraph} {method : MethodId} {link : CaptureLink}

theorem placesOf_addLink (g : CaptureGraph) (link : CaptureLink) (target : MethodId) :
    (g.addLink link).placesOf target =
      if link.target = target then ascending (g.placesOf link.target ++ [link.site])
      else g.placesOf target := by
  unfold placesOf addLink
  rw [Table.get?_insert]
  split <;> simp_all [placesOf]

theorem placesOf_dropLink (g : CaptureGraph) (link : CaptureLink) (target : MethodId) :
    (g.dropLink link).placesOf target =
      if link.target = target then (g.placesOf link.target).filter fun site => site != link.site
      else g.placesOf target := by
  unfold dropLink
  simp only
  split
  · rename_i hNone
    have hNone := List.isEmpty_iff.mp hNone
    unfold placesOf at hNone ⊢
    rw [Table.get?_erase]
    split
    · simpa using hNone.symm
    · rfl
  · unfold placesOf
    rw [Table.get?_insert]
    split <;> simp_all

theorem Indexed.empty : CaptureGraph.empty.Indexed where
  ordered := .empty
  keyed _ _ h := by cases h
  ascends _ := List.Pairwise.nil
  mem_placesOf target site := by
    constructor
    · intro h
      exact (List.not_mem_nil h).elim
    · rintro ⟨link, h, -⟩
      cases h
  unmatched := List.Pairwise.nil

/-- A capture at a new place is listed for its target. -/
theorem Indexed.addLink (h : g.Indexed) (hNew : g.links.get? link.site = none) :
    (g.addLink link).Indexed where
  ordered := h.ordered.insert ..
  keyed site found hFound := by
    change (g.links.insert link.site link).get? site = some found at hFound
    rw [Table.get?_insert] at hFound
    split at hFound
    · rename_i hSame
      cases hFound
      exact hSame
    · exact h.keyed site found hFound
  ascends target := by
    rw [placesOf_addLink]
    split
    · exact ascends_ascending _
    · exact h.ascends target
  mem_placesOf target site := by
    change _ ↔ ∃ found, (g.links.insert link.site link).get? site = some found ∧ _
    rw [placesOf_addLink, Table.get?_insert]
    by_cases hSite : link.site = site
    · subst hSite
      simp only [if_true, Option.some.injEq, exists_eq_left']
      split
      · rename_i hTarget
        simp [mem_ascending, hTarget]
      · rename_i hTarget
        simp [h.mem_placesOf, hNew, hTarget]
    · simp only [if_neg hSite]
      split
      · rename_i hTarget
        subst hTarget
        simp [mem_ascending, h.mem_placesOf, Ne.symm hSite]
      · exact h.mem_placesOf target site
  unmatched := h.unmatched

/-- What is dropped with its place is not listed any more. -/
theorem Indexed.dropLink (h : g.Indexed)
    (hOnly : ∀ found, g.links.get? link.site = some found → found = link) :
    (g.dropLink link).Indexed where
  ordered := h.ordered.erase _
  keyed site found hFound := by
    change (g.links.erase link.site).get? site = some found at hFound
    rw [Table.get?_erase] at hFound
    split at hFound
    · cases hFound
    · exact h.keyed site found hFound
  ascends target := by
    rw [placesOf_dropLink]
    split
    · exact (h.ascends _).filter _
    · exact h.ascends target
  mem_placesOf target site := by
    change _ ↔ ∃ found, (g.links.erase link.site).get? site = some found ∧ _
    rw [placesOf_dropLink, Table.get?_erase]
    by_cases hSite : link.site = site
    · subst hSite
      simp only [if_true, reduceCtorEq, false_and, exists_false, iff_false]
      split
      · simp
      · rename_i hTarget
        rw [h.mem_placesOf]
        rintro ⟨found, hFound, hFoundTarget⟩
        exact hTarget (hOnly found hFound ▸ hFoundTarget)
    · simp only [if_neg hSite]
      split
      · rename_i hTarget
        subst hTarget
        simp [h.mem_placesOf, Ne.symm hSite]
      · exact h.mem_placesOf target site
  unmatched := h.unmatched

/-- The captures in a body are entered at the places in it. -/
theorem Indexed.linksIn_eq (h : g.Indexed) (method : MethodId) :
    g.linksIn method = (g.links.entries.filter fun e => e.1.method == method).map (·.2) := by
  unfold linksIn Table.values
  rw [List.filter_map]
  congr 1
  refine List.filter_congr fun e hMem => ?_
  have hKeyed := h.keyed e.1 e.2 (h.ordered.get?_eq_some.mpr hMem)
  simp [hKeyed]

theorem Indexed.mem_linksIn (h : g.Indexed) :
    link ∈ g.linksIn method ↔ g.links.get? link.site = some link ∧ link.site.method = method := by
  rw [h.linksIn_eq, List.mem_map]
  simp only [List.mem_filter, beq_iff_eq]
  constructor
  · rintro ⟨e, ⟨hMem, hMethod⟩, rfl⟩
    have hFound := h.ordered.get?_eq_some.mpr hMem
    rw [h.keyed _ _ hFound]
    exact ⟨hFound, hMethod⟩
  · rintro ⟨hFound, hMethod⟩
    exact ⟨(link.site, link), ⟨h.ordered.get?_eq_some.mp hFound, hMethod⟩, rfl⟩

/-- Graphs that know the same of a body list the same captures in it. -/
theorem Indexed.linksIn_congr (h : g.Indexed) (h' : g'.Indexed) (hAlike : g.AlikeIn method g') :
    g.linksIn method = g'.linksIn method := by
  rw [h.linksIn_eq, h'.linksIn_eq]
  congr 1
  refine h.ordered.filter_congr (c := fun site => site.method == method) h'.ordered fun site hMethod => ?_
  obtain rfl := beq_iff_eq.mp hMethod
  exact hAlike.links site.instr

/-- The captures of a method are those that have it for their target. -/
theorem Indexed.linksTo_eq (h : g.Indexed) (target : MethodId) :
    g.linksTo target = g.links.values.filter fun link => link.target == target := by
  have hEntries : g.placesOf target
      = (g.links.entries.filter fun e => e.2.target == target).map (·.1) := by
    refine (h.ascends target).ext ?_ fun site => ?_
    · exact List.pairwise_map.mpr (List.Pairwise.filter _ h.ordered)
    · rw [h.mem_placesOf, List.mem_map]
      simp only [List.mem_filter, beq_iff_eq, h.ordered.get?_eq_some]
      constructor
      · rintro ⟨link, hMem, hTarget⟩
        exact ⟨(site, link), ⟨hMem, hTarget⟩, rfl⟩
      · rintro ⟨e, ⟨hMem, hTarget⟩, rfl⟩
        exact ⟨e.2, hMem, hTarget⟩
  unfold linksTo Table.values
  rw [hEntries, List.filterMap_map, List.filter_map]
  let kept := g.links.entries.filter fun e => e.2.target == target
  calc kept.filterMap (g.links.get? ∘ fun e => e.1)
      = kept.filterMap (some ∘ fun e => e.2) :=
        List.filterMap_congr fun e hMem => h.ordered.get?_eq_some.mpr (List.mem_filter.mp hMem).1
    _ = kept.map fun e => e.2 := congrFun List.filterMap_eq_map kept

/-- Dropping captures leaves those at other places. -/
theorem Indexed.foldl_dropLink (h : g.Indexed) {dropped : List CaptureLink}
    (hOnly : ∀ link ∈ dropped, ∀ found, g.links.get? link.site = some found → found = link) :
    (dropped.foldl CaptureGraph.dropLink g).Indexed ∧
      (dropped.foldl CaptureGraph.dropLink g).unmatched = g.unmatched ∧
      ∀ site, (dropped.foldl CaptureGraph.dropLink g).links.get? site =
        if ∃ link ∈ dropped, link.site = site then none else g.links.get? site := by
  induction dropped generalizing g with
  | nil => exact ⟨h, rfl, fun site => by simp⟩
  | cons link dropped ih =>
      have hLinks (site : CodeSite) : (g.dropLink link).links.get? site =
          if link.site = site then none else g.links.get? site := Table.get?_erase ..
      have hFirst := h.dropLink (hOnly link (List.mem_cons_self ..))
      obtain ⟨hIndexed, hUnmatched, hRest⟩ := ih hFirst fun other hMem found hFound => by
        rw [hLinks] at hFound
        split at hFound
        · cases hFound
        · exact hOnly other (List.mem_cons_of_mem _ hMem) found hFound
      refine ⟨hIndexed, hUnmatched, fun site => ?_⟩
      rw [List.foldl_cons, hRest, hLinks]
      by_cases hSite : link.site = site <;> simp [hSite]

/-- Nothing is known of a body that is dropped, and as much as before of all others. -/
theorem Indexed.forget (h : g.Indexed) (method : MethodId) :
    (g.forget method).Indexed ∧ (g.forget method).AlikeIn method .empty ∧
      ∀ other, other ≠ method → (g.forget method).AlikeIn other g := by
  have hOnly (link : CaptureLink) (hMem : link ∈ g.linksIn method) (found : CaptureLink)
      (hFound : g.links.get? link.site = some found) : found = link :=
    Option.some_inj.mp (hFound.symm.trans (h.mem_linksIn.mp hMem).1)
  obtain ⟨hIndexed, hUnmatched, hLinks⟩ := h.foldl_dropLink hOnly
  have hForget (site : CodeSite) : (g.forget method).links.get? site =
      if site.method = method then none else g.links.get? site := by
    refine (hLinks site).trans ?_
    by_cases hMethod : site.method = method
    · rw [if_pos hMethod]
      split
      · rfl
      · rename_i hNone
        cases hFound : g.links.get? site with
        | none => rfl
        | some link =>
            have hSite := h.keyed site link hFound
            exact (hNone ⟨link, h.mem_linksIn.mpr ⟨hSite ▸ hFound, hSite ▸ hMethod⟩, hSite⟩).elim
    · rw [if_neg hMethod, if_neg]
      rintro ⟨link, hMem, rfl⟩
      exact hMethod (h.mem_linksIn.mp hMem).2
  have hLeft (site : CodeSite) :
      site ∈ (g.forget method).unmatched ↔ site ∈ g.unmatched ∧ site.method ≠ method := by
    change site ∈ List.filter _ _ ↔ _
    rw [hUnmatched]
    simp
  refine ⟨⟨hIndexed.ordered, hIndexed.keyed, hIndexed.ascends, hIndexed.mem_placesOf,
    hIndexed.unmatched.filter _⟩, ⟨fun i => ?_, fun i => ?_⟩, fun other hOther => ⟨fun i => ?_, fun i => ?_⟩⟩
  · exact (hForget _).trans (if_pos rfl)
  · simp [hLeft, CaptureGraph.empty]
  · exact (hForget _).trans (if_neg hOther)
  · simp [hLeft, hOther]

theorem Indexed.addUnmatched (h : g.Indexed) (p : Program) (method : MethodId)
    (code : List Instruction) (matched : List InstrId) :
    (g.addUnmatched p method code matched).Indexed :=
  ⟨h.ordered, h.keyed, h.ascends, h.mem_placesOf, ascends_ascending _⟩

/-- What is entered for one body is not known of others. -/
theorem alikeIn_addLink {other : MethodId} (hOther : other ≠ link.site.method) :
    (g.addLink link).AlikeIn other g where
  links i := by
    refine (Table.get?_insert ..).trans (if_neg fun hSite => hOther ?_)
    rw [hSite]
  unmatched _ := Iff.rfl

theorem alikeIn_addUnmatched {p : Program} {code : List Instruction} {matched : List InstrId}
    {other : MethodId} (hOther : other ≠ method) :
    (g.addUnmatched p method code matched).AlikeIn other g where
  links _ := rfl
  unmatched i := by
    unfold addUnmatched
    simp [mem_ascending, Ne.symm hOther]

/-- Graphs that know the same of a body still do so after the same is entered for it. -/
theorem AlikeIn.addLink (h : g.AlikeIn method g') (link : CaptureLink) :
    (g.addLink link).AlikeIn method (g'.addLink link) where
  links i := by
    change (g.links.insert ..).get? _ = (g'.links.insert ..).get? _
    rw [Table.get?_insert, Table.get?_insert, h.links]
  unmatched := h.unmatched

theorem AlikeIn.addUnmatched (h : g.AlikeIn method g') (p : Program) (code : List Instruction)
    (matched : List InstrId) :
    (g.addUnmatched p method code matched).AlikeIn method (g'.addUnmatched p method code matched) where
  links := h.links
  unmatched i := by
    unfold CaptureGraph.addUnmatched
    simp only [mem_ascending, List.mem_append, h.unmatched]

end CaptureGraph

namespace FlowCache

variable {cache : FlowCache} {method other : MethodId} {b b' : MethodBody}

/-- The index of a body that the cache describes is that of the body, and is kept. -/
theorem Describes.index_other (h : cache.Describes other b') (hOther : other ≠ method) :
    (cache.index method b).2.Describes other b' := by
  unfold FlowCache.index
  split
  · exact h
  · intro index hCurrent
    unfold current? at hCurrent
    rw [Table.get?_insert, if_neg (Ne.symm hOther)] at hCurrent
    exact h index hCurrent

/-- What is kept of methods other than one stays. -/
def KeepsOthers (method : MethodId) (cache cache' : FlowCache) : Prop :=
  ∀ other b, other ≠ method → cache.Describes other b → cache'.Describes other b

instance (method : MethodId) : IsPreorder FlowCache (KeepsOthers method) where
  refl _ _ _ _ h := h
  trans _ _ _ h h' other b hOther hDescribes := h' other b hOther (h other b hOther hDescribes)

theorem Describes.invalidate (cache : FlowCache) (method : MethodId) (b : MethodBody) :
    (cache.invalidate method).Describes method b := by
  intro index hCurrent
  unfold current? FlowCache.invalidate at hCurrent
  rw [Table.get?_erase, if_pos rfl] at hCurrent
  cases hCurrent

end FlowCache

namespace Query

variable {p : Program} {method : MethodId} {b : MethodBody}

/-- Both of two caches describe a body. -/
def BothDescribe (method : MethodId) (b : MethodBody) (cache cache' : FlowCache) : Prop :=
  cache.Describes method b ∧ cache'.Describes method b

theorem follows_body : Follows (BothDescribe method b) (body p method) := by
  unfold body
  split
  · exact .pure _
  · exact .throw _

/-- A question about a body is answered alike from all caches that describe it. -/
theorem follows_ask {α : Type} (hBody : p.body method = .ok b)
    (question : CodeView → Except AnalysisError α) :
    Follows (BothDescribe method b) (ask p method question) := by
  unfold ask
  refine .bind (fun cache cache' v after hBoth hView => ?_) fun v => ?_
  · obtain ⟨b', hBody', rfl, rfl⟩ := view_ok.mp hView
    obtain rfl : b = b' := Except.ok.inj (hBody.symm.trans hBody')
    obtain ⟨hBuilt, hKept⟩ := hBoth.1.index
    obtain ⟨hBuilt', hKept'⟩ := hBoth.2.index
    exact ⟨_, view_ok.mpr ⟨b, hBody, by rw [hBuilt, hBuilt'], rfl⟩, hKept, hKept'⟩
  · intro cache cache' answer after hBoth hRun
    obtain ⟨hAnswer, rfl⟩ := Step.lift_ok.mp hRun
    exact ⟨cache', Step.lift_ok.mpr ⟨hAnswer, rfl⟩, hBoth⟩

/-- A question about one body leaves what is kept of others. -/
theorem keeps_ask {α : Type} (question : CodeView → Except AnalysisError α) :
    Keeps (FlowCache.KeepsOthers method) (ask p method question) := by
  intro cache answer cache' h
  obtain ⟨v, _, hView, hAnswer⟩ := Step.bind_ok.mp h
  obtain ⟨-, rfl⟩ := Step.lift_ok.mp hAnswer
  obtain ⟨b, -, -, rfl⟩ := view_ok.mp hView
  exact fun other b' hOther hDescribes => hDescribes.index_other hOther

end Query

namespace CaptureLink

variable {p : Program} {site : CodeSite} {method target : MethodId} {i : InstrId} {b : MethodBody}

/-- A link is entered at the place that is looked at. -/
theorem find?_site {cache cache' : FlowCache} {link : CaptureLink}
    (h : find? p site target cache = .ok (some link) cache') :
    link.site = site ∧ link.target = target := by
  unfold find? at h
  obtain ⟨usages, _, -, h⟩ := Step.bind_ok.mp h
  obtain ⟨b, _, -, h⟩ := Step.bind_ok.mp h
  split at h
  · split at h
    · obtain ⟨followed, _, -, h⟩ := Step.bind_ok.mp h
      cases (Step.pure_ok.mp h).1
      exact ⟨rfl, rfl⟩
    · cases (Step.pure_ok.mp h).1
  · cases (Step.pure_ok.mp h).1

theorem follows_find? (hBody : p.body method = .ok b) :
    Follows (Query.BothDescribe method b) (find? p ⟨method, i⟩ target) := by
  unfold find?
  refine .bind (Query.follows_ask hBody _) fun usages => .bind Query.follows_body fun b' => ?_
  split
  · split
    · exact .bind (Query.follows_ask hBody _) fun followed => .pure _
    · exact .pure _
  · exact .pure _

/-- Looking at one body leaves what is kept of others. -/
theorem keeps_find? : Keeps (FlowCache.KeepsOthers method) (find? p ⟨method, i⟩ target) := by
  have hBody : Keeps (FlowCache.KeepsOthers method) (Query.body p method) :=
    fun cache _ _ h => (Query.body_ok.mp h).2 ▸ refl cache
  unfold find?
  refine .bind (Query.keeps_ask _) fun usages => .bind hBody fun b' => ?_
  split
  · split
    · exact .bind (Query.keeps_ask _) fun followed => .pure _
    · exact .pure _
  · exact .pure _

end CaptureLink

namespace CaptureScan

variable {p : Program} {method : MethodId} {i : Instruction} {s t : CaptureGraph × FlowCache}

theorem query_ends {α : Type} {q : Query α} (h : Ends (query q) s t) : t.1 = s.1 := by
  obtain ⟨flow, -, rfl⟩ := Ends.focus h
  rfl

/-- An instruction enters a capture at its place, or none. -/
theorem scanInstruction_ends (h : Ends (scanInstruction p method i) s t) :
    t.1 = s.1 ∨ ∃ link : CaptureLink, link.site = ⟨method, i.id⟩ ∧ t.1 = s.1.addLink link := by
  unfold scanInstruction at h
  split at h
  · split at h
    · exact Or.inl (Ends.pure h ▸ rfl)
    · rename_i target hTarget
      rcases Ends.bind h with hQuery | ⟨found, u, hQuery, h⟩
      · exact Or.inl (query_ends hQuery)
      · have hSame : u.1 = s.1 := query_ends (Or.inl ⟨_, hQuery⟩)
        obtain ⟨flow, hFound, rfl⟩ := Step.focus_ok.mp hQuery
        split at h
        · rename_i link
          have hSite := (CaptureLink.find?_site hFound).1
          refine Or.inr ⟨link, hSite, ?_⟩
          rcases Ends.bind h with hUpdate | ⟨_, v, hUpdate, h⟩
          · exact Ends.modify hUpdate ▸ rfl
          · obtain rfl := Ends.pure h
            exact Step.modify_ok.mp hUpdate ▸ rfl
        · exact Or.inl (Ends.pure h ▸ rfl)
  · exact Or.inl (Ends.pure h ▸ rfl)

/-- The graphs know the same of a body, and the caches both describe it. -/
def BothKnow (method : MethodId) (b : MethodBody) (s s' : CaptureGraph × FlowCache) : Prop :=
  s.1.AlikeIn method s'.1 ∧ Query.BothDescribe method b s.2 s'.2

theorem follows_query {α : Type} {q : Query α} {b : MethodBody}
    (h : Follows (Query.BothDescribe method b) q) : Follows (BothKnow method b) (query q) :=
  h.focus (fun _ _ hBoth => hBoth.2) fun _ _ _ _ hBoth hAfter => ⟨hBoth.1, hAfter⟩

theorem follows_update {f : CaptureGraph → CaptureGraph} {b : MethodBody}
    (h : ∀ g g' : CaptureGraph, g.AlikeIn method g' → (f g).AlikeIn method (f g')) :
    Follows (BothKnow method b) (update f) :=
  .modify fun _ _ hBoth => ⟨h _ _ hBoth.1, hBoth.2⟩

/-- A body is scanned alike wherever the same is known of it. -/
theorem follows_scan {b : MethodBody} (hBody : p.body method = .ok b) :
    Follows (BothKnow method b) (scan p method) := by
  unfold scan
  refine .bind (follows_query Query.follows_body) fun b' => .bind (.mapM fun i _ => ?_) fun matched =>
    follows_update fun _ _ h => h.addUnmatched p b'.instructions matched.flatten
  unfold scanInstruction
  split
  · split
    · exact .pure _
    · refine .bind (follows_query (CaptureLink.follows_find? hBody)) fun found => ?_
      split
      · exact .bind (follows_update fun _ _ h => h.addLink _) fun _ => .pure _
      · exact .pure _
  · exact .pure _

/-- Scanning one body leaves what is kept of others. -/
theorem keeps_scan : Keeps (fun s t : CaptureGraph × FlowCache => s.2.KeepsOthers method t.2)
    (scan p method) := by
  have : IsPreorder (CaptureGraph × FlowCache) fun s t => s.2.KeepsOthers method t.2 :=
    { refl := fun s => refl s.2, trans := fun s t u h h' => trans_of _ h h' }
  have hQuery {α : Type} {q : Query α} (h : Keeps (FlowCache.KeepsOthers method) q) :
      Keeps (fun s t : CaptureGraph × FlowCache => s.2.KeepsOthers method t.2) (query q) :=
    h.focus fun _ _ h => h
  have hUpdate (f : CaptureGraph → CaptureGraph) :
      Keeps (fun s t : CaptureGraph × FlowCache => s.2.KeepsOthers method t.2) (update f) :=
    .modify fun s => refl s.2
  unfold scan
  refine .bind (hQuery fun cache _ _ h => (Query.body_ok.mp h).2 ▸ refl cache) fun b =>
    .bind (.mapM fun i _ => ?_) fun matched => hUpdate _
  unfold scanInstruction
  split
  · split
    · exact .pure _
    · refine .bind (hQuery CaptureLink.keeps_find?) fun found => ?_
      split
      · exact .bind (hUpdate _) fun _ => .pure _
      · exact .pure _
  · exact .pure _

/-- A scan of a body has some instructions still ahead. They have identifiers of their own, under
which nothing is entered yet. -/
structure ScannedTo (method : MethodId) (start : CaptureGraph) (ahead : List Instruction)
    (g : CaptureGraph) : Prop where
  indexed : g.Indexed
  others : ∀ other, other ≠ method → g.AlikeIn other start
  distinct : (ahead.map (·.id)).Nodup
  free : ∀ i ∈ ahead, g.links.get? ⟨method, i.id⟩ = none

theorem ScannedTo.next {start : CaptureGraph} {ahead : List Instruction}
    (hScanned : ScannedTo method start (i :: ahead) s.1)
    (h : Ends (scanInstruction p method i) s t) : ScannedTo method start ahead t.1 := by
  obtain ⟨hFirst, hDistinct⟩ := List.nodup_cons.mp hScanned.distinct
  obtain ⟨hHere, hFree⟩ := List.forall_mem_cons.mp hScanned.free
  rcases scanInstruction_ends h with hSame | ⟨link, hSite, hAdded⟩
  · rw [hSame]
    exact ⟨hScanned.indexed, hScanned.others, hDistinct, hFree⟩
  · rw [hAdded]
    refine ⟨hScanned.indexed.addLink (hSite ▸ hHere), fun other hOther => ?_, hDistinct,
      fun j hMem => ?_⟩
    · exact (CaptureGraph.alikeIn_addLink (hSite ▸ hOther)).trans (hScanned.others other hOther)
    · have hOther : link.site ≠ ⟨method, j.id⟩ := fun hSame => by
        have hId : i.id = j.id := congrArg CodeSite.instr (hSite.symm.trans hSame)
        exact hFirst (List.mem_map.mpr ⟨j, hMem, hId.symm⟩)
      exact (Table.get?_insert ..).trans ((if_neg hOther).trans (hFree j hMem))

theorem ScannedTo.ends {start : CaptureGraph} {ahead : List Instruction}
    (hScanned : ScannedTo method start ahead s.1)
    (h : Ends (ahead.mapM (scanInstruction p method)) s t) :
    t.1.Indexed ∧ ∀ other, other ≠ method → t.1.AlikeIn other start := by
  induction ahead generalizing s with
  | nil => exact Ends.pure h ▸ ⟨hScanned.indexed, hScanned.others⟩
  | cons i ahead ih =>
      rw [List.mapM_cons] at h
      rcases Ends.bind h with hFirst | ⟨invokes, u, hFirst, h⟩
      · have hNext := hScanned.next hFirst
        exact ⟨hNext.indexed, hNext.others⟩
      · have hNext := hScanned.next (Or.inl ⟨invokes, hFirst⟩)
        rcases Ends.bind h with hRest | ⟨matched, v, hRest, h⟩
        · exact ih hNext hRest
        · obtain rfl := Ends.pure h
          exact ih hNext (Or.inl ⟨matched, hRest⟩)

/-- What a scan of a body ends in knows as much of other bodies as before. If no two instructions
share an identifier and nothing is known of the body before, every capture is listed for its target
afterwards. -/
theorem scan_ends (h : Ends (scan p method) s t) (hIndexed : s.1.Indexed)
    (hNew : s.1.AlikeIn method .empty)
    (hDistinct : ∀ b, p.body method = .ok b → (b.instructions.map (·.id)).Nodup) :
    t.1.Indexed ∧ ∀ other, other ≠ method → t.1.AlikeIn other s.1 := by
  unfold scan at h
  rcases Ends.bind h with hQuery | ⟨b, u, hQuery, h⟩
  · rw [query_ends hQuery]
    exact ⟨hIndexed, fun other _ => .refl other s.1⟩
  obtain ⟨flow, hBody, rfl⟩ := Step.focus_ok.mp hQuery
  have hStart : ScannedTo method s.1 b.instructions (s.1, flow).1 :=
    ⟨hIndexed, fun other _ => .refl other s.1, hDistinct b (Query.body_ok.mp hBody).1,
      fun i _ => hNew.links i.id⟩
  rcases Ends.bind h with hScan | ⟨matched, v, hScan, h⟩
  · exact ScannedTo.ends hStart hScan
  · obtain ⟨hIndexed, hOthers⟩ := ScannedTo.ends hStart (Or.inl ⟨matched, hScan⟩)
    obtain rfl := Ends.modify h
    exact ⟨hIndexed.addUnmatched .., fun other hOther =>
      (CaptureGraph.alikeIn_addUnmatched hOther).trans (hOthers other hOther)⟩

/-- Where a scan of a body succeeds from one state, it does so from every other one that knows
nothing of the body, and comes to know the same. -/
theorem scan_again (hNew : s.1.AlikeIn method .empty) {v : CaptureGraph × FlowCache}
    (hNew' : v.1.AlikeIn method .empty)
    (hCache : ∀ b, p.body method = .ok b → s.2.Describes method b ∧ v.2.Describes method b)
    (h : scan p method s = .ok () t) :
    ∃ w, scan p method v = .ok () w ∧ t.1.AlikeIn method w.1 := by
  obtain ⟨b, hBody⟩ : ∃ b, p.body method = .ok b := by
    obtain ⟨b, u, hQuery, -⟩ := Step.bind_ok.mp h
    obtain ⟨flow, hBody, -⟩ := Step.focus_ok.mp hQuery
    exact ⟨b, (Query.body_ok.mp hBody).1⟩
  have hKnow : BothKnow method b s v := ⟨hNew.trans hNew'.symm, hCache b hBody⟩
  obtain ⟨w, hScan, hAlike, -⟩ := follows_scan hBody hKnow h
  exact ⟨w, hScan, hAlike⟩

/-- Scanning a body anew leaves what is known of others. -/
theorem rederive_ends (h : Ends (rederive p method) s t) (hIndexed : s.1.Indexed)
    (hDistinct : ∀ b, p.body method = .ok b → (b.instructions.map (·.id)).Nodup) :
    t.1.Indexed ∧ ∀ other, other ≠ method → t.1.AlikeIn other s.1 := by
  obtain ⟨hForgotten, hNew, hOthers⟩ := hIndexed.forget method
  unfold rederive at h
  rcases Ends.bind h with hUpdate | ⟨_, u, hUpdate, h⟩
  · obtain rfl := Ends.modify hUpdate
    exact ⟨hForgotten, hOthers⟩
  · obtain rfl := Step.modify_ok.mp hUpdate
    split at h
    · obtain ⟨hScanned, hSame⟩ := scan_ends h hForgotten hNew hDistinct
      exact ⟨hScanned, fun other hOther => (hSame other hOther).trans (hOthers other hOther)⟩
    · obtain rfl := Ends.pure h
      exact ⟨hForgotten, hOthers⟩

/-- Scanning a body in use anew comes to know what a scan of it alone does. -/
theorem rederive_again (h : rederive p method s = .ok () t) (hIndexed : s.1.Indexed)
    (hLive : p.isLive method = true) (hCache : ∀ b, p.body method = .ok b → s.2.Describes method b) :
    ∃ u, scan p method (.empty, .empty) = .ok () u ∧ t.1.AlikeIn method u.1 := by
  obtain ⟨-, hNew, -⟩ := hIndexed.forget method
  unfold rederive at h
  obtain ⟨_, _, hUpdate, h⟩ := Step.bind_ok.mp h
  obtain rfl := Step.modify_ok.mp hUpdate
  rw [if_pos hLive] at h
  exact scan_again (s := (s.1.forget method, s.2)) hNew (.refl method .empty)
    (fun b hBody => ⟨hCache b hBody, .empty method b⟩) h

end CaptureScan

end ContextBinding
