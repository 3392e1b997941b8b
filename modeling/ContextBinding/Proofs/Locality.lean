import ContextBinding.Proofs.Advance

/-! What adapting code leaves alone. Neither the graph nor the bindings, the plan or the next
batch are touched, no transition is counted, and the display classes and their copies stay as they
are. -/

namespace ContextBinding

/-- The display classes that store the root, and the copies of display classes, are the same. -/
structure Closures.SameDisplays (c c' : Closures) : Prop where
  root : c'.root = c.root
  roots : c'.displayRoots = c.displayRoots
  relocated : c'.relocated = c.relocated

namespace ClosureEdit

/-- A step leaves the display classes alone. -/
def SameDisplays (s t : Closures × Workspace) : Prop := s.1.SameDisplays t.1

instance : IsPreorder (Closures × Workspace) SameDisplays where
  refl _ := ⟨rfl, rfl, rfl⟩
  trans _ _ _ h h' :=
    ⟨h'.root.trans h.root, h'.roots.trans h.roots, h'.relocated.trans h.relocated⟩

variable {α : Type}

theorem displays_work {e : CodeEdit α} : Keeps SameDisplays (work e) := by
  intro s a t h
  obtain ⟨w, -, rfl⟩ := work_ok.mp h
  exact ⟨rfl, rfl, rfl⟩

theorem displays_update {f : Closures → Closures} (h : ∀ c : Closures, c.SameDisplays (f c)) :
    Keeps SameDisplays (update f) := by
  intro s u t hRun
  obtain rfl := update_ok.mp hRun
  exact h s.1

theorem displays_record {key : RecordKey} : Keeps SameDisplays (record key) := by
  refine Keeps.bind closures_keeps fun c => ?_
  split
  · exact Keeps.pure _
  · refine Keeps.bind displays_work fun r => Keeps.bind (displays_update fun c => ?_) fun _ =>
      Keeps.pure _
    exact ⟨rfl, rfl, rfl⟩

theorem displays_recordFor {method : MethodId} {receiver : Option TypeId} {b : Binding} :
    Keeps SameDisplays (recordFor method receiver b) := by
  refine Keeps.bind displays_record fun r => Keeps.bind displays_work fun made => ?_
  exact Keeps.bind (displays_update fun c => ⟨rfl, rfl, rfl⟩) fun _ => Keeps.pure _

/-- Adapting a capture leaves the display classes alone. -/
theorem displays_adaptCapture {plan : ContextPlan} {site : RootedMethod} {pointer : InstrId}
    {b : Binding} : Keeps SameDisplays (adaptCapture plan site pointer b) :=
  adaptCapture_keeps (S := fun _ => True) trivial (fun _ => displays_work)
    (displays_update fun _ => ⟨rfl, rfl, rfl⟩) fun _ _ => displays_recordFor

theorem displays_storeDisplayRoot {site : RootedMethod} {id : InstrId} {field : FieldId} :
    Keeps SameDisplays (storeDisplayRoot site id field) :=
  storeDisplayRoot_keeps (S := fun _ => True) trivial fun _ => displays_work

end ClosureEdit

namespace Propagation

/-- Only code changed, and what is known of captures. -/
structure CodeOnly (s t : Propagation) : Prop where
  graph : t.graph = s.graph
  bindings : t.bindings = s.bindings
  plan : t.plan = s.plan
  pending : t.pending = s.pending
  iterations : t.stats.iterations = s.stats.iterations
  transitions : t.stats.transitions = s.stats.transitions
  displays : s.closures.SameDisplays t.closures

instance : IsPreorder Propagation CodeOnly where
  refl _ := ⟨rfl, rfl, rfl, rfl, rfl, rfl, ⟨rfl, rfl, rfl⟩⟩
  trans _ _ _ h h' :=
    { graph := h'.graph.trans h.graph
      bindings := h'.bindings.trans h.bindings
      plan := h'.plan.trans h.plan
      pending := h'.pending.trans h.pending
      iterations := h'.iterations.trans h.iterations
      transitions := h'.transitions.trans h.transitions
      displays := ⟨h'.displays.root.trans h.displays.root,
        h'.displays.roots.trans h.displays.roots,
        h'.displays.relocated.trans h.displays.relocated⟩ }

end Propagation

namespace Propagate

open Propagation (CodeOnly)

variable {α : Type}

theorem codeOnly_work {e : CodeEdit α} : Keeps CodeOnly (work e) := by
  intro s a t h
  obtain ⟨w, -, rfl⟩ := Step.focus_ok.mp h
  exact ⟨rfl, rfl, rfl, rfl, rfl, rfl, ⟨rfl, rfl, rfl⟩⟩

theorem codeOnly_closures {e : ClosureEdit α} (h : Keeps ClosureEdit.SameDisplays e) :
    Keeps CodeOnly (closures e) := by
  intro s a t hRun
  obtain ⟨u, hEdit, rfl⟩ := Step.focus_ok.mp hRun
  exact ⟨rfl, rfl, rfl, rfl, rfl, rfl, h hEdit⟩

/-- Neither batches nor transitions are counted. -/
theorem codeOnly_count {f : PropagationStats → PropagationStats}
    (hIterations : ∀ n, (f n).iterations = n.iterations)
    (hTransitions : ∀ n, (f n).transitions = n.transitions) :
    Keeps CodeOnly (modify (.count f) : Propagate PUnit) :=
  Keeps.modify fun s =>
    ⟨rfl, rfl, rfl, rfl, hIterations s.stats, hTransitions s.stats, ⟨rfl, rfl, rfl⟩⟩

/-- Adapting a place changes code only. -/
theorem codeOnly_adaptSite {site : RootedMethod} {place : NeedySite} :
    Keeps CodeOnly (adaptSite site place) :=
  adaptSite_keeps (S := fun _ => True) trivial ⟨fun _ => codeOnly_work, codeOnly_count⟩
    (fun _ _ _ => codeOnly_closures ClosureEdit.displays_adaptCapture)
    fun _ => codeOnly_closures ClosureEdit.displays_storeDisplayRoot

section Work

variable {R : Propagation → Propagation → Prop} [IsPreorder Propagation R]
  (hWork : ∀ {β : Type} (e : CodeEdit β), Keeps R (work e))
include hWork

/-! What every edit of code keeps is kept by what consists of such edits. -/

theorem alignProperty_keeps {into : Option TypeId} {method replacement : MethodId} :
    Keeps R (alignProperty into method replacement) := by
  refine Keeps.bind (hWork _) fun m => Keeps.ite (Keeps.bind (hWork _) fun owner => ?_) (Keeps.pure _)
  split
  · exact Keeps.pure _
  · refine Keeps.ite (hWork _) ?_
    split
    · exact hWork _
    · refine Keeps.bind (hWork _) fun target => Keeps.ite ?_ (Keeps.pure _)
      exact Keeps.bind Keeps.get fun s => hWork _

theorem mapOverrides_keeps {bound : List (MethodId × MethodId)} {replacement : MethodId} :
    Keeps R (mapOverrides bound replacement) :=
  Keeps.bind (hWork _) fun _ => Keeps.bind Keeps.get fun _ => Keeps.ite (hWork _) (Keeps.pure _)

theorem makeCopy_keeps {source : MethodId} {owner : TypeId} {name : String}
    {params : List TypeRef} {shape : MethodShape} :
    Keeps R (makeCopy source owner name params shape) := by
  refine Keeps.bind (Keeps.bind Keeps.get fun _ => Keeps.pure _) fun p => ?_
  exact Keeps.bind (hWork _) fun copy => Keeps.bind (hWork _) fun _ => Keeps.pure _

theorem convertedReplacement_keeps {method : MethodId} {context : ContextId} :
    Keeps R (convertedReplacement method context) := by
  refine Keeps.bind Keeps.get fun s => ?_
  dsimp only
  split
  · exact Keeps.pure _
  · refine Keeps.bind (hWork _) fun m => ?_
    refine Keeps.bind (Keeps.bind Keeps.get fun _ => Keeps.pure _) fun p => ?_
    split
    · exact Keeps.pure _
    · exact Keeps.bind (makeCopy_keeps hWork) fun _ => Keeps.pure _

theorem retireMovedFields_keeps : Keeps R retireMovedFields := by
  refine Keeps.bind Keeps.get fun s => Keeps.ite (Keeps.forM fun field _ => ?_) (Keeps.pure _)
  exact Keeps.bind (hWork _) fun f => Keeps.ite (hWork _) (Keeps.pure _)

end Work

theorem codeOnly_alignProperty {into : Option TypeId} {method replacement : MethodId} :
    Keeps CodeOnly (alignProperty into method replacement) :=
  alignProperty_keeps fun _ => codeOnly_work

theorem codeOnly_mapOverrides {bound : List (MethodId × MethodId)} {replacement : MethodId} :
    Keeps CodeOnly (mapOverrides bound replacement) :=
  mapOverrides_keeps fun _ => codeOnly_work

theorem codeOnly_retireBound {method : MethodId} : Keeps CodeOnly (do
    let m ← model fun p => p.methodDef method
    if (← get).options.retireReplaced && !m.isRetired then edit (Program.retireMethod method)
    pure m.isVirtual : Propagate Bool) :=
  Keeps.bind codeOnly_work fun _ => Keeps.bind Keeps.get fun _ =>
    Keeps.ite (Keeps.bind codeOnly_work fun _ => Keeps.pure _) (Keeps.pure _)

theorem codeOnly_makeCopy {source : MethodId} {owner : TypeId} {name : String}
    {params : List TypeRef} {shape : MethodShape} :
    Keeps CodeOnly (makeCopy source owner name params shape) :=
  makeCopy_keeps fun _ => codeOnly_work

theorem codeOnly_convertedReplacement {method : MethodId} {context : ContextId} :
    Keeps CodeOnly (convertedReplacement method context) :=
  convertedReplacement_keeps fun _ => codeOnly_work

theorem codeOnly_retireMovedFields : Keeps CodeOnly retireMovedFields :=
  retireMovedFields_keeps fun _ => codeOnly_work

end Propagate

end ContextBinding
