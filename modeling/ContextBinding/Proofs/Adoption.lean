import ContextBinding.Proofs.InitUnits
import ContextBinding.Proofs.Returns
import ContextBinding.Proofs.Uncalled

/-! How the constructor of a context comes to call its init units. A unit is adopted when it moves, and
its call is put in behind those of the units that moved before it. No other step of a visit adds,
drops or moves such calls. -/

namespace ContextBinding

/-- No code calls a method. -/
def Program.Uncalled (p : Program) (id : MethodId) : Prop :=
  ∀ m ∈ p.methods, ∀ b ∈ m.body, ∀ i ∈ b.instructions, i.callee? ≠ some id

instance (p : Program) (id : MethodId) : Decidable (p.Uncalled id) :=
  inferInstanceAs (Decidable (∀ m ∈ p.methods, ∀ b ∈ m.body, ∀ i ∈ b.instructions,
    i.callee? ≠ some id))

namespace BindingMap

/-- One of some methods stands in for a method. -/
def Leads (B : BindingMap) (watched : List MethodId) (id : MethodId) : Prop :=
  ∃ b, B.get? id = some b ∧ b.replacement ∈ watched

/-- Calls of a method in a constructor are due to init units that moved. It is not bound itself, and
what it stands in for are methods of the program that stand in for nothing; the constructor calls
neither it nor them to begin with. -/
structure Tracks (B : BindingMap) (p : Program) (constructor id : MethodId) : Prop where
  last : B.get? id = none
  moved : ∀ method b, B.get? method = some b → b.replacement = id →
    method.index < p.methods.length ∧ ¬ B.StandsIn method
  code : ∀ b, p.body constructor = .ok b → ∀ i ∈ b.instructions, i.isMethodOp .call id = false ∧
    ∀ method c, i.callee? = some method → B.get? method = some c → c.replacement ≠ id

instance (B : BindingMap) (id : MethodId) : Decidable (B.StandsIn id) :=
  decidable_of_iff (∃ e ∈ B.table.entries, B.get? e.1 = some e.2 ∧ e.2.replacement = id)
    ⟨fun ⟨e, _, h⟩ => ⟨e.1, e.2, h⟩,
      fun ⟨method, b, hGet, h⟩ => ⟨(method, b), Table.mem_entries_of_get? hGet, hGet, h⟩⟩

instance (B : BindingMap) (p : Program) (constructor id : MethodId) :
    Decidable (B.Tracks p constructor id) :=
  decidable_of_iff (B.get? id = none ∧
      (∀ e ∈ B.table.entries, B.get? e.1 = some e.2 → e.2.replacement = id →
        e.1.index < p.methods.length ∧ ¬ B.StandsIn e.1) ∧
      ∀ b ∈ (p.body constructor).toOption, ∀ i ∈ b.instructions, i.isMethodOp .call id = false ∧
        ∀ method ∈ i.callee?, ∀ c ∈ B.get? method, c.replacement ≠ id)
    ⟨fun ⟨hLast, hMoved, hCode⟩ =>
      { last := hLast
        moved := fun method b hGet => hMoved (method, b) (Table.mem_entries_of_get? hGet) hGet
        code := fun b hBody i hi => (hCode b (by simp [hBody, Except.toOption]) i hi).imp_right
          fun h method c hCallee hGet => h method hCallee c hGet },
      fun h => ⟨h.last, fun e _ => h.moved e.1 e.2, fun b hBody i hi =>
        (h.code b (by
          cases hThere : p.body constructor <;> simp_all [Except.toOption]) i hi).imp_right
            fun h method hCallee c hGet => h method c hCallee hGet⟩⟩

end BindingMap

namespace BindingMap

variable {B : BindingMap} {p : Program} {constructor id : MethodId} {watched : List MethodId}

/-- What stands in for a method is not what leads to the units that are watched. -/
theorem StandsIn.not_leads (hTracks : ∀ r ∈ watched, B.Tracks p constructor r) (h : B.StandsIn id) :
    ¬ B.Leads watched id := by
  rintro ⟨b, hGet, hMem⟩
  exact ((hTracks _ hMem).moved id b hGet rfl).2 h

theorem Leads.index_lt (hTracks : ∀ r ∈ watched, B.Tracks p constructor r)
    (h : B.Leads watched id) : id.index < p.methods.length := by
  obtain ⟨b, hGet, hMem⟩ := h
  exact ((hTracks _ hMem).moved id b hGet rfl).1

end BindingMap

/-- What a place needs that calls or captures a bound method stands in for it. -/
theorem NeedySite.standsIn_of_mem {plan : ContextPlan} {bindings : BindingMap} {closures : Closures}
    {p : Program} {b : MethodBody} {place : NeedySite} (h : place ∈ scan plan bindings closures p b)
    {c : Binding} (hNeed : place.need = .boundCall c ∨ place.need = .capture c) :
    bindings.StandsIn c.replacement := by
  obtain ⟨i, -, -, hReason⟩ := mem_scan.mp h
  have hReason := reason_of_needOf? hReason
  rcases hNeed with hNeed | hNeed <;> rw [hNeed] at hReason <;>
    obtain ⟨-, target, -, hGet⟩ := hReason <;> exact ⟨target, c, hGet, rfl⟩

/-- A unit of a context with a given constructor moved there. -/
structure ContextPlan.Moved (plan : ContextPlan) (B : BindingMap) (constructor : MethodId)
    (b : Binding) : Prop where
  bound : B.get? b.method = some b
  listed : ∃ context, b.mode = .instanceConverted context ∧
    (plan.context context).constructor = constructor ∧ b.method ∈ (plan.context context).initUnits

namespace Program

variable {S : MethodId → Prop} {N : TypeId → Prop} {p q : Program} {id : MethodId} {b : MethodBody}

theorem Confined.body_iff (h : Confined S N p q) (hOther : ¬ S id)
    (hThere : id.index < p.methods.length) : q.body id = .ok b ↔ p.body id = .ok b := by
  refine ⟨fun hBody' => ?_, h.body hOther⟩
  obtain ⟨m', hMethod', hCode'⟩ := body_ok.mp hBody'
  have hMethod : p.method? id = some p.methods[id.index] := List.getElem?_eq_getElem hThere
  have hSame := (h.sameBody hMethod hMethod').resolve_right hOther
  exact body_ok.mpr ⟨_, hMethod, hSame.symm.trans hCode'⟩

/-- A method that is appended leaves the code of the others alone. -/
theorem body_iff_of_append {m : MethodDef} (hMethods : q.methods = p.methods ++ [m])
    (hThere : id.index < p.methods.length) : q.body id = .ok b ↔ p.body id = .ok b := by
  rw [body_ok, body_ok, method?, method?, hMethods, List.getElem?_append_left hThere]

theorem body_iff_of_methods (hMethods : q.methods = p.methods) :
    q.body id = .ok b ↔ p.body id = .ok b := by
  rw [body_ok, body_ok, method?, method?, hMethods]

end Program

namespace Propagation

/-- A step that leaves the plan and the code of a method alone, and methods in `V` uncalled. -/
structure Quiet (V : MethodId → Prop) (n : Nat) (id : MethodId) (s t : Propagation) : Prop
    extends s.Advances t where
  shuns : t.Shuns V (fun _ => False) n
  samePlan : t.plan = s.plan
  body : ∀ b, t.program.body id = .ok b ↔ s.program.body id = .ok b

/-- A step is quiet as long as methods in `V` are not called. -/
def Quietly (V : MethodId → Prop) (n : Nat) (id : MethodId) (s t : Propagation) : Prop :=
  s.closures.Keyed → s.Shuns V (fun _ => False) n → Quiet V n id s t

variable {V : MethodId → Prop} {n : Nat} {id : MethodId}

instance : IsPreorder Propagation (Quietly V n id) where
  refl _ hKeyed hShuns := ⟨.refl hKeyed, hShuns, rfl, fun _ => Iff.rfl⟩
  trans _ _ _ h h' hKeyed hShuns := by
    have hFirst := h hKeyed hShuns
    have hLast := h' hFirst.keyed hFirst.shuns
    exact ⟨hFirst.toAdvances.trans hLast.toAdvances, hLast.shuns, hLast.samePlan.trans hFirst.samePlan,
      fun b => (hLast.body b).trans (hFirst.body b)⟩

/-- The calls of the units that moved so far stand ahead of the returns of a constructor, in the order
in which the units moved. -/
structure Calling (p : Program) (plan : ContextPlan) (B : BindingMap) (constructor : MethodId)
    (watched : List MethodId) (options : PropagationOptions) (m : BindingMap) (units : List Binding)
    (s : Propagation) : Prop where
  uncalled :
    s.Shuns (fun id => B.Leads watched id ∧ p.Uncalled id) (fun _ => False) p.methods.length
  keyed : s.closures.Keyed
  numbered : s.program.Numbered
  shape : s.plan.shape = plan.shape
  sameOptions : s.options = options
  free : ∀ context, ∀ unit ∈ (plan.context context).initUnits, m.get? unit = none →
    unit ∈ (s.plan.context context).initUnits
  listed : ∀ context, ∀ unit ∈ (s.plan.context context).initUnits,
    unit ∈ (plan.context context).initUnits ∨ B.StandsIn unit
  led : ∀ b, s.program.body constructor = .ok b →
    b.Led watched (units.map (·.replacement)) fun _ => units.map (·.replacement)
  apart : ∀ b, s.program.body constructor = .ok b → b.Shuns (B.Leads watched)
  absent : (∀ b, s.program.body constructor ≠ .ok b) → units = []
  sound : ∀ b ∈ units, m.get? b.method = some b ∧ plan.Moved B constructor b ∧ b.replacement ∈ watched
  nodup : (units.map (·.method)).Nodup

/-- Moreover, each unit is called that moved and that no code called. -/
structure Adopting (p : Program) (plan : ContextPlan) (B : BindingMap) (constructor : MethodId)
    (watched : List MethodId) (options : PropagationOptions) (m : BindingMap) (units : List Binding)
    (s : Propagation) : Prop extends Calling p plan B constructor watched options m units s where
  called : options.inlineInitUnits = true → ∀ b, plan.Moved B constructor b →
    b.replacement ∈ watched → p.Uncalled b.method → ¬ plan.Provides p b.method →
      m.get? b.method = some b → b.replacement ∈ units.map (·.replacement)

variable {p : Program} {plan : ContextPlan} {B m m' : BindingMap} {constructor : MethodId}
  {watched : List MethodId} {options : PropagationOptions} {units : List Binding} {s t : Propagation}

/-- So it is at a later point at which the constructor calls the same units. -/
theorem Calling.later (h : Calling p plan B constructor watched options m units s)
    (hAdvances : s.Advances t) (hPlan : t.plan = s.plan)
    (hShuns : t.Shuns (fun id => B.Leads watched id ∧ p.Uncalled id) (fun _ => False) p.methods.length)
    (hCode : ∀ b, t.program.body constructor = .ok b →
      b.Led watched (units.map (·.replacement)) (fun _ => units.map (·.replacement)) ∧
        b.Shuns (B.Leads watched))
    (hThere : ∀ b, s.program.body constructor = .ok b → ∃ b', t.program.body constructor = .ok b') :
    Calling p plan B constructor watched options m units t where
  uncalled := hShuns
  keyed := hAdvances.keyed
  numbered := hAdvances.grows.numbered h.numbered
  shape := hPlan ▸ h.shape
  sameOptions := hAdvances.options.trans h.sameOptions
  free := hPlan ▸ h.free
  listed := hPlan ▸ h.listed
  led b hBody := (hCode b hBody).1
  apart b hBody := (hCode b hBody).2
  absent hNone := h.absent fun b hBody => (hThere b hBody).elim hNone
  sound := h.sound
  nodup := h.nodup

theorem Calling.quiet (h : Calling p plan B constructor watched options m units s)
    (hQuiet : Quietly (fun id => B.Leads watched id ∧ p.Uncalled id) p.methods.length constructor s t) :
    Calling p plan B constructor watched options m units t := by
  have hQuiet := hQuiet h.keyed h.uncalled
  refine h.later hQuiet.toAdvances hQuiet.samePlan hQuiet.shuns (fun b hBody => ?_) fun b hBody => ?_
  · have hBefore := (hQuiet.body b).mp hBody
    exact ⟨h.led b hBefore, h.apart b hBefore⟩
  · exact ⟨b, (hQuiet.body b).mpr hBody⟩

/-- More may be bound. -/
theorem Calling.rebind (h : Calling p plan B constructor watched options m units s)
    (hKept : m.Extends m') : Calling p plan B constructor watched options m' units s :=
  { h with
    free := fun context unit hMem hFree => h.free context unit hMem (hKept.free hFree)
    sound := fun b hMem => (h.sound b hMem).imp_left (hKept b.method b) }

/-- What stands in for a unit that is bound may take its place in the list. -/
theorem Calling.relist (h : Calling p plan B constructor watched options m units s)
    (context : ContextId) {r : Binding} (hBound : m.get? r.method = some r)
    (hStands : B.StandsIn r.replacement) : Calling p plan B constructor watched options m units
      { s with plan := s.plan.replaceInitUnit context r.method r.replacement } := by
  refine { h with
    uncalled := ⟨⟨h.uncalled.grown, h.uncalled.after, h.uncalled.code⟩, h.uncalled.graph⟩
    shape := (ContextPlan.shape_replaceInitUnit ..).trans h.shape
    free := fun other unit hMem hFree => ?_
    listed := fun other unit hMem => ?_ }
  · dsimp only
    rw [ContextPlan.initUnits_replaceInitUnit]
    refine List.mem_map.mpr ⟨unit, h.free other unit hMem hFree, if_neg ?_⟩
    rintro ⟨-, rfl⟩
    rw [hBound] at hFree
    cases hFree
  · dsimp only at hMem
    rw [ContextPlan.initUnits_replaceInitUnit] at hMem
    obtain ⟨before, hBefore, rfl⟩ := List.mem_map.mp hMem
    split
    · exact Or.inr hStands
    · exact h.listed other before hBefore

/-- Units are only ever added, at the end, when they come to be bound. -/
structure Adopts (p : Program) (plan : ContextPlan) (B : BindingMap) (constructor : MethodId)
    (watched : List MethodId) (options : PropagationOptions) (s t : Propagation) : Prop where
  bindings : s.bindings.Extends t.bindings
  units : t.bindings.Extends B →
    ∀ units, Adopting p plan B constructor watched options s.bindings units s →
      ∃ more, (∀ b ∈ more, s.bindings.get? b.method = none) ∧
        Adopting p plan B constructor watched options t.bindings (units ++ more) t

instance : IsPreorder Propagation (Adopts p plan B constructor watched options) where
  refl s := ⟨refl _, fun _ units h => ⟨[], by simp, by simpa using h⟩⟩
  trans s t u h h' := by
    refine ⟨IsTrans.trans _ _ _ h.bindings h'.bindings, fun hLast units hAdopting => ?_⟩
    obtain ⟨more, hNew, hNext⟩ :=
      h.units (IsTrans.trans _ _ _ h'.bindings hLast) units hAdopting
    obtain ⟨others, hNew', hEnd⟩ := h'.units hLast _ hNext
    refine ⟨more ++ others, fun b hMem => ?_, by rwa [← List.append_assoc]⟩
    exact (List.mem_append.mp hMem).elim (hNew b) fun hMem => h.bindings.free (hNew' b hMem)

theorem Adopts.of_quietly (hBindings : t.bindings = s.bindings)
    (hQuiet : Quietly (fun id => B.Leads watched id ∧ p.Uncalled id) p.methods.length constructor s t) :
    Adopts p plan B constructor watched options s t := by
  refine ⟨hBindings ▸ refl _, fun _ units hAdopting => ⟨[], by simp, ?_⟩⟩
  rw [List.append_nil, hBindings]
  exact ⟨hAdopting.toCalling.quiet hQuiet, hAdopting.called⟩

end Propagation

namespace Propagate

open Propagation (Adopting Adopts Calling Changed Edited KeepsShunned Quietly)

variable {α : Type} {s t : Propagation}

section Quiet

variable {V : MethodId → Prop} {n : Nat} {id : MethodId}

theorem quietly_changed {S : MethodId → Prop} {x : Propagate α} (hOther : ¬ S id) (hThere : id.index < n)
    (h : Keeps (Changed S) x) (hShuns : Keeps (KeepsShunned V (fun _ => False) n) x) :
    Keeps (Quietly V n id) x := by
  intro s a t hRun hKeyed hBefore
  have hChanged := h hRun
  refine ⟨hChanged.advanced hKeyed, hShuns hRun hBefore, hChanged.plan, fun b => ?_⟩
  exact (hChanged.code hKeyed).program.body_iff hOther (hThere.trans_le hBefore.grown)

/-- A step that changes no method is quiet. -/
theorem quietly_methods {x : Propagate α} (hAdvanced : Keeps Propagation.Advanced x)
    (hShuns : Keeps (KeepsShunned V (fun _ => False) n) x)
    (hSame : Keeps (fun s t => t.plan = s.plan ∧ t.program.methods = s.program.methods) x) :
    Keeps (Quietly V n id) x := by
  intro s a t hRun hKeyed hBefore
  obtain ⟨hPlan, hMethods⟩ := hSame hRun
  exact ⟨hAdvanced hRun hKeyed, hShuns hRun hBefore, hPlan,
    fun b => Program.body_iff_of_methods hMethods⟩

theorem quietly_graph {e : Program → GraphEdit Unit}
    (hShuns : Keeps (KeepsShunned V (fun _ => False) n) (graph e)) :
    Keeps (Quietly V n id) (graph e) := by
  refine quietly_methods advances_graph hShuns fun s a t h => ?_
  obtain ⟨v, -, rfl⟩ := graph_ok.mp h
  exact ⟨rfl, rfl⟩

theorem quietly_count {f : PropagationStats → PropagationStats} :
    Keeps (Quietly V n id) (modify (.count f) : Propagate PUnit) :=
  quietly_methods (advances_edited (S := fun _ => False) keeps_count)
    (shuns_modify fun _ => ⟨rfl, rfl, rfl⟩) (Keeps.modify fun _ => ⟨rfl, rfl⟩)

theorem quietly_enqueue {methods : List MethodId} :
    Keeps (Quietly V n id) (modify (.enqueue methods) : Propagate PUnit) :=
  quietly_methods (advances_edited (S := fun _ => False) keeps_enqueue)
    (shuns_modify fun _ => ⟨rfl, rfl, rfl⟩) (Keeps.modify fun _ => ⟨rfl, rfl⟩)

theorem quietly_bindMethod {b : Binding} : Keeps (Quietly V n id) (bindMethod b) := by
  refine quietly_methods advances_bindMethod shuns_bindMethod fun s a t h => ?_
  obtain ⟨m, -, rfl⟩ := bindMethod_ok h
  exact ⟨rfl, rfl⟩

theorem quietly_displayHandle? {method : MethodId} :
    Keeps (Quietly V n id) (displayHandle? method) := by
  refine quietly_methods advances_displayHandle? shuns_displayHandle? fun s a t h => ?_
  rcases displayHandle?_ok h with rfl | ⟨m, field, p, -, -, -, -, -, hField, rfl⟩
  · exact ⟨rfl, rfl⟩
  · obtain ⟨-, -, -, hMethods, -⟩ := Program.addField_ok hField
    exact ⟨rfl, hMethods⟩

variable (hThere : id.index < n)
include hThere

theorem quietly_complete {bound : List (MethodId × MethodId)} :
    Keeps (Quietly V n id) (complete bound) := by
  refine keeps_complete (fun method => ?_) ?_ (fun _ => quietly_graph shuns_rederive)
    (fun _ => quietly_count) fun _ => quietly_enqueue
  · exact quietly_changed (S := fun _ => False) (fun h => h) hThere
      (changes_edit fun N => Program.keeps_retireMethod) (shuns_confined Program.keeps_retireMethod)
  · refine quietly_graph fun s u t h hShuns => ?_
    obtain ⟨v, hUpdate, rfl⟩ := graph_ok.mp h
    obtain rfl := GraphEdit.update_ok.mp hUpdate
    exact ⟨⟨hShuns.grown, hShuns.after, hShuns.code⟩, hShuns.graph.of_same rfl rfl⟩

theorem quietly_makeCopy {source : MethodId} {owner : TypeId} {name : String} {params : List TypeRef}
    {shape : MethodShape} : Keeps (Quietly V n id) (makeCopy source owner name params shape) := by
  intro s copy t h hKeyed hShuns
  obtain ⟨m, -, -, -, -, hMethods, -, -⟩ := makeCopy_ok h
  exact ⟨advances_makeCopy h hKeyed, shuns_makeCopy h hShuns, (makeCopy_plan h).2, fun b =>
    Program.body_iff_of_append hMethods (hThere.trans_le hShuns.grown)⟩

end Quiet

/-- Adapting a method edits its code, and derives the graph from it. -/
theorem adaptInPlace_edits {site : RootedMethod} {places : List NeedySite} {u : Unit}
    (h : adaptInPlace site places s = .ok u t) :
    ∃ r, Edited (· = site.method) s r ∧ t.program = r.program ∧ t.plan = r.plan := by
  obtain ⟨outcomes, s₁, hSites, h⟩ := Step.bind_ok.mp h
  refine ⟨s₁, Keeps.mapM (fun place _ => keeps_adaptSite (S := (· = site.method)) rfl) hSites, ?_⟩
  split at h
  · obtain ⟨_, _, hCount, h⟩ := Step.bind_ok.mp h
    obtain rfl := Step.modify_ok.mp hCount
    obtain ⟨v, -, rfl⟩ := graph_ok.mp h
    exact ⟨rfl, rfl⟩
  · exact (Step.pure_ok.mp h).2 ▸ ⟨rfl, rfl⟩

/-- A constructor without code comes to do nothing but call a unit, unless it calls it, and one with
code comes to call it ahead of all returns. -/
theorem inlineInitUnit_cases {constructor replacement : MethodId} {u : Unit}
    (h : inlineInitUnit constructor replacement s = .ok u t) :
    ((∀ b, s.program.body constructor ≠ .ok b) ∧ t.program.body constructor
        = .ok (.fresh (MethodBody.callUnit replacement ++ [.plain .ret]))) ∨
      ∃ b, s.program.body constructor = .ok b ∧
        ((∃ i ∈ b.instructions, i.isMethodOp .call replacement = true) ∧ s = t ∨
          (∀ i ∈ b.instructions, i.isMethodOp .call replacement = false) ∧ ∃ u b',
            t.program.body constructor = .ok b' ∧ (b.returns.forM fun ret => do
              let _ ← MethodBody.insertBefore ret (MethodBody.callUnit replacement)) b = .ok u b') := by
  unfold inlineInitUnit at h
  obtain ⟨m, _, hModel, h⟩ := Step.bind_ok.mp h
  obtain ⟨hMethod, rfl⟩ := model_ok.mp hModel
  have hMethod : s.program.method? constructor = some m := Program.methodDef_ok.mp hMethod
  cases hBody : m.body with
  | none =>
      simp only [hBody] at h
      obtain ⟨_, s₁, hEdit, h⟩ := Step.bind_ok.mp h
      obtain ⟨p, hSet, rfl⟩ := edit_ok.mp hEdit
      obtain ⟨v, -, rfl⟩ := graph_ok.mp h
      refine Or.inl ⟨fun b hThere => ?_, Program.body_of_setBody hSet⟩
      obtain ⟨m', hMethod', hCode⟩ := Program.body_ok.mp hThere
      obtain rfl : m = m' := Option.some_inj.mp (hMethod.symm.trans hMethod')
      rw [hBody] at hCode
      cases hCode
  | some b =>
      simp only [hBody] at h
      refine Or.inr ⟨b, Program.body_ok.mpr ⟨m, hMethod, hBody⟩, ?_⟩
      split at h
      · rename_i hNone
        obtain ⟨_, s₁, hEdit, h⟩ := Step.bind_ok.mp h
        obtain ⟨p, hInsert, rfl⟩ := edit_ok.mp hEdit
        obtain ⟨v, -, rfl⟩ := graph_ok.mp h
        obtain ⟨b₀, b', hBefore, hAll, hAfter⟩ := Program.body_of_editBody hInsert
        obtain rfl : b₀ = b :=
          Except.ok.inj (hBefore.symm.trans (Program.body_ok.mpr ⟨m, hMethod, hBody⟩))
        exact Or.inr ⟨by simpa using hNone, _, b', hAfter, hAll⟩
      · rename_i hSome
        exact Or.inl ⟨by simpa using hSome, (Step.pure_ok.mp h).2⟩

section Adopt

variable {p : Program} {plan : ContextPlan} {B : BindingMap} {constructor : MethodId}
  {watched : List MethodId} {units : List Binding} {options : PropagationOptions}
  (hTracks : ∀ r ∈ watched, B.Tracks p constructor r) (hThere : constructor.index < p.methods.length)
include hTracks

/-- A constructor that is adapted calls the units that it did. -/
theorem adaptInPlace_led {handle : HandleSource} {closures : Closures} {q : Program} {b : MethodBody}
    {u : Unit} (hCalling : Calling p plan B constructor watched options s.bindings units s)
    (hLast : s.bindings.Extends B) (hBody : s.program.body constructor = .ok b)
    (hShuns : t.Shuns (fun id => B.Leads watched id ∧ p.Uncalled id) (fun _ => False) p.methods.length)
    (h : adaptInPlace ⟨constructor, handle⟩ (NeedySite.scan s.plan s.bindings closures q b) s
      = .ok u t) : ∃ b', t.program.body constructor = .ok b' ∧
        b'.Led watched (units.map (·.replacement)) (fun _ => units.map (·.replacement)) ∧
          b'.Shuns (B.Leads watched) := by
  let places := NeedySite.scan s.plan s.bindings closures q b
  have hNumbered : b.Numbered := by
    obtain ⟨m, hMethod, hCode⟩ := Program.body_ok.mp hBody
    exact hCalling.numbered m (List.mem_of_getElem? hMethod) b hCode
  have hStands {place : NeedySite} (hMem : place ∈ places) {c : Binding}
      (hNeed : place.need = .boundCall c ∨ place.need = .capture c) : ¬ B.Leads watched c.replacement :=
    ((NeedySite.standsIn_of_mem hMem hNeed).later hLast).not_leads hTracks
  let S : Scope :=
    { field := fun _ => True
      call := fun id => ∃ place ∈ places, ∃ c, place.need = .boundCall c ∧ c.replacement = id
      target := fun id => ¬ B.Leads watched id
      place := fun id => ∃ place ∈ places, place.instr = id ∧ ∀ c, place.need ≠ .capture c
      pointer := fun id => ∃ place ∈ places, place.instr = id ∧ ∃ c, place.need = .capture c }
  have hAllowed : ∀ place ∈ places, place.Allowed S := by
    intro place hMem
    have hAt (hOther : ∀ c, place.need ≠ .capture c) : S.place place.instr :=
      ⟨place, hMem, rfl, hOther⟩
    unfold NeedySite.Allowed
    split <;> rename_i hNeed
    · exact ⟨hAt (by simp [hNeed]), trivial⟩
    · exact hAt (by simp [hNeed])
    · exact ⟨hAt (by simp [hNeed]), place, hMem, _, hNeed, rfl⟩
    · exact ⟨⟨place, hMem, rfl, _, hNeed⟩, hStands hMem (Or.inr hNeed)⟩
    · trivial
  have hPatches : Propagation.Patches constructor S s t :=
    adaptInPlace_patches ⟨fun _ _ => trivial, fun _ _ _ _ => trivial⟩ hAllowed h
  obtain ⟨-, -, hProgram⟩ := hPatches.2 hCalling.keyed
  obtain ⟨b', hBody', hPatched⟩ := hProgram (fun id hServes hLeads =>
    absurd (hLeads.index_lt hTracks) (Nat.not_lt.mpr (hShuns.after.serves id hServes))) b hBody
      hNumbered
  have hApart := hCalling.apart b hBody
  -- No place is a return or a call of a unit: such calls are not bound.
  have hPlaced {place : NeedySite} (hMem : place ∈ places) {i : Instruction} (hi : i ∈ b.instructions)
      (hId : place.instr = i.id) :
      NeedySite.Reason s.plan s.bindings closures q b i place.need := by
    obtain ⟨j, hj, hSame, hNeed⟩ := NeedySite.mem_scan.mp hMem
    obtain rfl := hNumbered.eq_of_id hj hi (hSame.trans hId)
    exact NeedySite.reason_of_needOf? hNeed
  have hTidy : ∀ i ∈ b.instructions, MethodBody.Tidy S watched i := by
    intro i hi
    constructor
    · rintro ⟨place, hMem, hId, hOther⟩
      have hReason := hPlaced hMem hi hId
      unfold Instruction.watched?
      cases hNeed : place.need with
      | staticField context moved =>
          rw [hNeed] at hReason
          obtain ⟨hOpcode | hOpcode | hOpcode, -⟩ := hReason <;> simp [hOpcode]
      | singleton context =>
          rw [hNeed] at hReason
          simp [hReason.1]
      | boundCall c =>
          rw [hNeed] at hReason
          obtain ⟨hOpcode, target, hMethod, hGet⟩ := hReason
          refine ⟨by rcases hOpcode with hOpcode | hOpcode | hOpcode <;> simp [hOpcode], ?_⟩
          have hFree : target ∉ watched := fun hWatched => by
            have hBound := hLast target c hGet
            rw [(hTracks target hWatched).last] at hBound
            cases hBound
          simp [hMethod, Option.filter, hFree]
      | capture c => exact (hOther c hNeed).elim
      | displayStore field =>
          rw [hNeed] at hReason
          simp [hReason.1]
    · rintro ⟨place, hMem, hId, c, hNeed⟩
      have hReason := hPlaced hMem hi hId
      rw [hNeed] at hReason
      obtain ⟨hOpcode | hOpcode, -⟩ := hReason <;> simp [hOpcode]
  have hBelow : ∀ id, S.place id ∨ S.pointer id → id.index < b.nextId := by
    rintro id (⟨place, hMem, rfl, -⟩ | ⟨place, hMem, rfl, -⟩) <;>
      obtain ⟨i, hi, hId, -⟩ := NeedySite.mem_scan.mp hMem <;>
      exact hId ▸ hNumbered.below i hi
  have hOnce : ∀ id, S.place id → ¬ S.pointer id := by
    rintro id ⟨place, hMem, hId, hOther⟩ ⟨place', hMem', hId', c, hNeed⟩
    obtain rfl := List.inj_on_of_nodup_map (NeedySite.nodup_scan hNumbered) hMem hMem'
      (hId.trans hId'.symm)
    exact hOther c hNeed
  have hCall : ∀ r ∈ watched, ¬ S.call r := by
    rintro _ hWatched ⟨place, hMem, c, hNeed, rfl⟩
    obtain ⟨i, hi, -, hSite⟩ := NeedySite.mem_scan.mp hMem
    have hReason := NeedySite.reason_of_needOf? hSite
    rw [hNeed] at hReason
    obtain ⟨hOpcode, target, hMethod, hGet⟩ := hReason
    refine hApart i hi target ?_ ⟨c, hLast target c hGet, hWatched⟩
    rw [Instruction.callee?, hMethod]
    rcases hOpcode with hOpcode | hOpcode | hOpcode <;> rw [hOpcode] <;> rfl
  have hPrepared : b.Prepared S watched (units.map (·.replacement))
      fun _ => units.map (·.replacement) := ⟨hCalling.led b hBody, hTidy, hBelow⟩
  refine ⟨b', hBody', (hPrepared.patches hCall hOnce hNumbered hPatched).toLed,
    hApart.patches (fun id hNamed => ?_) hNumbered hPatched⟩
  rcases hNamed with ⟨place, hMem, c, hNeed, rfl⟩ | hTarget
  · exact hStands hMem (Or.inl hNeed)
  · exact hTarget

include hThere

/-- Adapting a method binds nothing, and whichever it is, the constructor calls the units that it
did. -/
theorem adaptInPlace_adopts {site : RootedMethod} {closures : Closures} {q : Program} {b : MethodBody}
    (hLive : s.program.liveBody? site.method = some b)
    (h : adaptInPlace site (NeedySite.scan s.plan s.bindings closures q b) s = .ok () t) :
    Adopts p plan B constructor watched options s t := by
  have hSame : t.bindings = s.bindings := same_adaptInPlace h
  have hBody : s.program.body site.method = .ok b := Program.body_of_liveBody? hLive
  refine ⟨hSame ▸ refl _, fun hLast units hAdopting => ⟨[], by simp, ?_⟩⟩
  rw [List.append_nil, hSame]
  rw [hSame] at hLast
  have hNumbered : b.Numbered := by
    obtain ⟨m, hMethod, hCode⟩ := Program.body_ok.mp hBody
    exact hAdopting.numbered m (List.mem_of_getElem? hMethod) b hCode
  have hAdvances := advances_adaptInPlace h hAdopting.keyed
  have hShuns : t.Shuns (fun id => B.Leads watched id ∧ p.Uncalled id) (fun _ => False)
      p.methods.length :=
    adaptInPlace_shuns h hAdopting.keyed hBody hNumbered (fun u hLeads => hLeads.1.index_lt hTracks)
      (fun place hMem c hNeed hLeads => ((NeedySite.standsIn_of_mem hMem hNeed).later hLast).not_leads
        hTracks hLeads.1) hAdopting.uncalled
  obtain ⟨r, hEdited, hProgram, hPlan⟩ := adaptInPlace_edits h
  have hLater := hAdopting.toCalling.later hAdvances (hPlan.trans hEdited.plan) hShuns
  refine ⟨?_, hAdopting.called⟩
  by_cases hSite : site.method = constructor
  · obtain ⟨method, handle⟩ := site
    subst hSite
    obtain ⟨b', hBody', hCode⟩ := adaptInPlace_led hTracks hAdopting.toCalling hLast hBody hShuns h
    exact hLater (fun c hThere => Except.ok.inj (hBody'.symm.trans hThere) ▸ hCode)
      fun _ _ => ⟨b', hBody'⟩
  · have hIff (c : MethodBody) :
        t.program.body constructor = .ok c ↔ s.program.body constructor = .ok c := by
      rw [hProgram]
      exact (hEdited.code hAdopting.keyed).program.body_iff (fun h => hSite h.symm)
        (hThere.trans_le hAdopting.uncalled.grown)
    refine hLater (fun c hCode => ?_) fun c hCode => ⟨c, (hIff c).mpr hCode⟩
    exact ⟨hAdopting.led c ((hIff c).mp hCode), hAdopting.apart c ((hIff c).mp hCode)⟩

omit hThere

/-- A method that the constructor comes to call is called behind the units that it calls already, if
it is watched. -/
theorem inlineInitUnit_calling {m : BindingMap} {r : Binding} {u : Unit}
    (h : inlineInitUnit constructor r.replacement s = .ok u t)
    (hCalling : Calling p plan B constructor watched options m units s)
    (hStands : B.StandsIn r.replacement) (hBound : m.get? r.method = some r)
    (hMoved : r.replacement ∈ watched → plan.Moved B constructor r)
    (hNew : ∀ b ∈ units, b.method ≠ r.method) :
    ∃ more, (∀ b ∈ more, b = r) ∧ Calling p plan B constructor watched options m (units ++ more) t ∧
      (r.replacement ∈ watched → r.replacement ∈ (units ++ more).map (·.replacement)) := by
  have hOwn : ¬ B.Leads watched r.replacement := hStands.not_leads hTracks
  have hAdvances := advances_inlineInitUnit h hCalling.keyed
  have hPlan := (inlineInitUnit_plan h).2
  have hShuns := shuns_inlineInitUnit (fun hIn => hOwn hIn.1) h hCalling.uncalled
  have hCalls : ∀ i ∈ MethodBody.callUnit r.replacement ++ [.plain .ret], ∀ id,
      i.callee? = some id → ¬ B.Leads watched id := by
    intro i hi id hCallee
    simp only [List.mem_append, List.mem_cons, List.not_mem_nil, or_false] at hi
    rcases hi with (rfl | rfl) | rfl
    · cases hCallee
    · exact Option.some_inj.mp hCallee ▸ hOwn
    · cases hCallee
  have hKeep (hKnown : r.replacement ∈ watched → r.replacement ∈ units.map (·.replacement))
      {b' : MethodBody} (hBody' : t.program.body constructor = .ok b')
      (hLed : b'.Led watched (units.map (·.replacement)) fun _ => units.map (·.replacement))
      (hApart : b'.Shuns (B.Leads watched)) : ∃ more, (∀ b ∈ more, b = r) ∧
        Calling p plan B constructor watched options m (units ++ more) t ∧
          (r.replacement ∈ watched → r.replacement ∈ (units ++ more).map (·.replacement)) := by
    refine ⟨[], by simp, ?_, by simpa using hKnown⟩
    rw [List.append_nil]
    refine hCalling.later hAdvances hPlan hShuns (fun c hThere => ?_) fun _ _ => ⟨b', hBody'⟩
    obtain rfl := Except.ok.inj (hBody'.symm.trans hThere)
    exact ⟨hLed, hApart⟩
  have hAdd (hWatched : r.replacement ∈ watched) {b' : MethodBody}
      (hBody' : t.program.body constructor = .ok b')
      (hLed : b'.Led watched (r.replacement :: units.map (·.replacement))
        fun _ => units.map (·.replacement) ++ [r.replacement])
      (hApart : b'.Shuns (B.Leads watched)) : ∃ more, (∀ b ∈ more, b = r) ∧
        Calling p plan B constructor watched options m (units ++ more) t ∧
          (r.replacement ∈ watched → r.replacement ∈ (units ++ more).map (·.replacement)) := by
    have hCode {c : MethodBody} (hThere : t.program.body constructor = .ok c) : b' = c :=
      Except.ok.inj (hBody'.symm.trans hThere)
    refine ⟨[r], by simp, ?_, by simp⟩
    refine
      { uncalled := hShuns
        keyed := hAdvances.keyed
        numbered := hAdvances.grows.numbered hCalling.numbered
        shape := hPlan ▸ hCalling.shape
        sameOptions := hAdvances.options.trans hCalling.sameOptions
        free := hPlan ▸ hCalling.free
        listed := hPlan ▸ hCalling.listed
        led := fun c hThere => ?_
        apart := fun c hThere => hCode hThere ▸ hApart
        absent := fun hNone => (hNone b' hBody').elim
        sound := fun b hMem => ?_
        nodup := ?_ }
    · obtain rfl := hCode hThere
      rw [List.map_append]
      exact hLed.mono (by simp)
    · rcases List.mem_append.mp hMem with hMem | hMem
      · exact hCalling.sound b hMem
      · obtain rfl := List.mem_singleton.mp hMem
        exact ⟨hBound, hMoved hWatched, hWatched⟩
    · rw [List.map_append, List.nodup_append]
      refine ⟨hCalling.nodup, by simp, fun id hMem other hOther hSame => ?_⟩
      obtain ⟨b, hUnit, rfl⟩ := List.mem_map.mp hMem
      exact hNew b hUnit (hSame.trans (by simpa using hOther))
  rcases inlineInitUnit_cases h with ⟨hNone, hBody'⟩ | ⟨b, hBody, hRest⟩
  · have hApart := MethodBody.shuns_fresh hCalls
    obtain rfl := hCalling.absent hNone
    by_cases hWatched : r.replacement ∈ watched
    · exact hAdd hWatched hBody' (MethodBody.Led.fresh hWatched) hApart
    · refine hKeep (fun hIn => (hWatched hIn).elim) hBody' (.start nofun fun i hi => ?_) hApart
      have hMem : i ∈ MethodBody.number 0 (MethodBody.callUnit r.replacement ++ [.plain .ret]) := by
        simpa [MethodBody.fresh, MethodBody.splice, MethodBody.empty] using hi
      obtain ⟨k, hk, hSame⟩ := MethodBody.mem_number_same hMem
      rw [hSame]
      simp only [List.mem_append, List.mem_cons, List.not_mem_nil, or_false] at hk
      rcases hk with (rfl | rfl) | rfl
      · rfl
      · simpa [Instruction.watched?, Instruction.onMethod, Instruction.unplaced, Instruction.method?,
          Option.filter] using hWatched
      · rfl
  · have hNumbered : b.Numbered := by
      obtain ⟨m, hMethod, hCode⟩ := Program.body_ok.mp hBody
      exact hCalling.numbered m (List.mem_of_getElem? hMethod) b hCode
    have hLed := hCalling.led b hBody
    have hApart := hCalling.apart b hBody
    rcases hRest with ⟨⟨i, hi, hCall⟩, rfl⟩ | ⟨hNone, u, b', hBody', hInsert⟩
    · refine hKeep (fun hWatched => hLed.known i hi _ ?_) hBody hLed hApart
      obtain ⟨hOpcode, hMethod⟩ := Bool.and_eq_true_iff.mp hCall
      rw [Instruction.watched?, if_pos (by simpa using hOpcode), beq_iff_eq.mp hMethod]
      simp [Option.filter, hWatched]
    · let R (b b' : MethodBody) : Prop := b.Shuns (B.Leads watched) → b'.Shuns (B.Leads watched)
      have : IsPreorder MethodBody R :=
        { refl := fun _ h => h, trans := fun _ _ _ h h' hShuns => h' (h hShuns) }
      have hApart' : b'.Shuns (B.Leads watched) := by
        refine (Keeps.forM fun ret _ => Keeps.bind ?_ fun _ => Keeps.pure _ : Keeps R _) hInsert hApart
        exact MethodBody.shuns_insertBefore fun i hi => hCalls i (List.mem_append_left _ hi)
      by_cases hWatched : r.replacement ∈ watched
      · exact hAdd hWatched hBody' (hLed.inline hNumbered hWatched hInsert) hApart'
      · exact hKeep (fun hIn => (hWatched hIn).elim) hBody' (hLed.insertOther hNumbered hWatched hInsert)
          hApart'

include hThere

/-- A unit that moved is listed as what stands in for it, and is called behind those that moved before
it if no code called it. -/
theorem adoptInitUnit_adopting {m m' : BindingMap} {context : ContextId} {r : Binding}
    (h : adoptInitUnit context r.method r.replacement s = .ok () t)
    (hAdopting : Adopting p plan B constructor watched options m units s)
    (hMode : r.mode = .instanceConverted context) (hBound : B.get? r.method = some r)
    (hFree : m.get? r.method = none) (hKept : m.Extends m') (hNow : m'.get? r.method = some r)
    (hOnly : ∀ id c, m'.get? id = some c → m.get? id = some c ∨ c = r ∧ id = r.method) :
    ∃ more, (∀ b ∈ more, b = r) ∧
      Adopting p plan B constructor watched options m' (units ++ more) t := by
  have hStands : B.StandsIn r.replacement := ⟨_, _, hBound, rfl⟩
  have hCalling := hAdopting.toCalling.rebind hKept
  have hNew : ∀ b ∈ units, b.method ≠ r.method := fun b hMem hSame => by
    have hBefore := (hAdopting.sound b hMem).1
    rw [hSame, hFree] at hBefore
    cases hBefore
  -- Whatever was bound before is called already.
  have hEnd (more : List Binding) (hMore : ∀ b ∈ more, b = r)
      (hLast : Calling p plan B constructor watched options m' (units ++ more) t)
      (hCalled : options.inlineInitUnits = true → plan.Moved B constructor r →
        r.replacement ∈ watched → p.Uncalled r.method →
          r.replacement ∈ (units ++ more).map (·.replacement)) :
      ∃ more, (∀ b ∈ more, b = r) ∧
        Adopting p plan B constructor watched options m' (units ++ more) t := by
    refine ⟨more, hMore, hLast, fun hInline b hMoved hWatched hUncalled hOwn hGet => ?_⟩
    rcases hOnly b.method b hGet with hBefore | ⟨rfl, -⟩
    · have hIn := hAdopting.called hInline b hMoved hWatched hUncalled hOwn hBefore
      rw [List.map_append]
      exact List.mem_append_left _ hIn
    · exact hCalled hInline hMoved hWatched hUncalled
  have hContext (hMoved : plan.Moved B constructor r) :
      (plan.context context).constructor = constructor ∧
        r.method ∈ (plan.context context).initUnits := by
    obtain ⟨other, hOther, hListed⟩ := hMoved.listed
    obtain rfl := BindingMode.instanceConverted.inj (hMode.symm.trans hOther)
    exact hListed
  have hSame : (s.plan.context context).constructor = (plan.context context).constructor := by
    have hShape := congrArg ContextDescriptor.constructor
      (ContextPlan.context_of_shape hAdopting.shape context)
    exact hShape
  unfold adoptInitUnit at h
  obtain ⟨_, _, hGet, h⟩ := Step.bind_ok.mp h
  obtain ⟨rfl, rfl⟩ := Step.get_ok.mp hGet
  split at h
  · rename_i hContained
    have hContained := List.contains_iff_mem.mp hContained
    obtain ⟨_, s₁, hSet, h⟩ := Step.bind_ok.mp h
    obtain rfl := Step.set_ok.mp hSet
    have hListed := hCalling.relist context hNow hStands
    split at h
    · by_cases hHere : (s.plan.context context).constructor = constructor
      · rw [hHere] at h
        have hMoved (hWatched : r.replacement ∈ watched) : plan.Moved B constructor r := by
          refine ⟨hBound, context, hMode, hSame.symm.trans hHere, ?_⟩
          refine (hAdopting.listed context r.method hContained).resolve_right fun hIn => ?_
          exact hIn.not_leads hTracks ⟨r, hBound, hWatched⟩
        obtain ⟨more, hMore, hLast, hCalled⟩ :=
          inlineInitUnit_calling hTracks h hListed hStands hNow hMoved hNew
        exact hEnd more hMore hLast fun _ _ hWatched _ => hCalled hWatched
      · refine hEnd [] (by simp) ?_ fun _ hMoved _ _ =>
          (hHere (hSame.trans (hContext hMoved).1)).elim
        rw [List.append_nil]
        refine hListed.quiet fun hKeyed hShuns => ?_
        refine ⟨advances_inlineInitUnit h hKeyed, shuns_inlineInitUnit (fun hIn => ?_) h hShuns,
          (inlineInitUnit_plan h).2, fun b => ?_⟩
        · exact hStands.not_leads hTracks hIn.1
        · rcases inlineInitUnit_ok h with rfl | ⟨_, s₁, -, -, hEdited, hDerive⟩
          · exact Iff.rfl
          · obtain ⟨v, -, rfl⟩ := graph_ok.mp hDerive
            exact (hEdited.code hKeyed).program.body_iff (fun h => hHere h.symm)
              (hThere.trans_le hShuns.grown)
    · rename_i hSkipped
      obtain ⟨-, rfl⟩ := Step.pure_ok.mp h
      refine hEnd [] (by simp) (by simpa using hListed) fun hInline _ hWatched hUncalled => ?_
      refine (hSkipped ?_).elim
      have hNone := hAdopting.uncalled.graph.callCount_eq_zero ⟨⟨r, hBound, hWatched⟩, hUncalled⟩
      simpa [hNone, hAdopting.sameOptions] using hInline
  · rename_i hOther
    obtain ⟨-, rfl⟩ := Step.pure_ok.mp h
    refine hEnd [] (by simp) (by simpa using hCalling) fun _ hMoved _ _ => ?_
    exact (hOther (List.contains_iff_mem.mpr
      (hAdopting.free context r.method (hContext hMoved).2 hFree))).elim

/-- A method that moves is a unit that is adopted, or none. -/
theorem adopts_convertOne {context : ContextId} {method : MethodId} :
    Keeps (Adopts p plan B constructor watched options) (convertOne context method) := by
  intro s made t h
  rcases convertOne_steps h with rfl | ⟨replacement, fresh, r, u, v, hFree, hMade, hBind, hMoved, hAdopt⟩
  · exact refl s
  · let unit : Binding := ⟨method, replacement, .instanceConverted context⟩
    let Q := Quietly (fun id => B.Leads watched id ∧ p.Uncalled id) p.methods.length constructor
    have hCases := convertedReplacement_ok hMade
    have hFirst : r.bindings = s.bindings := by
      rcases hCases with ⟨-, rfl, -⟩ | ⟨-, _, -, hCopy⟩
      · rfl
      · exact (makeCopy_plan hCopy).1
    have hCopied : Q s r := by
      rcases hCases with ⟨-, rfl, -⟩ | ⟨-, _, -, hCopy⟩
      · exact refl (r := Q) s
      · exact quietly_makeCopy hThere hCopy
    have hFound : Q r u := quietly_bindMethod hBind
    have hLast : v.bindings = u.bindings := by
      split at hMoved
      · obtain ⟨copied, w, hRelocate, rfl⟩ := hMoved
        have hEdited : Edited (fun _ => True) u w :=
          keeps_closures (ClosureEdit.keeps_relocateDisplayClasses trivial) hRelocate
        exact hEdited.bindings
      · exact hMoved ▸ rfl
    have hRelocated (hGrown : p.methods.length ≤ s.program.methods.length) : Q u v := by
      split at hMoved
      · rename_i hFresh
        obtain ⟨copied, w, hRelocate, rfl⟩ := hMoved
        obtain ⟨-, _, -, hCopy⟩ := hCases.resolve_left fun hOld => by
          rw [hFresh] at hOld
          cases hOld.1
        obtain ⟨_, -, hIndex, -⟩ := makeCopy_ok hCopy
        -- What was just made is not the constructor.
        have hOther : constructor ≠ replacement := fun hSame => by
          rw [hSame, hIndex] at hThere
          exact absurd hThere (Nat.not_lt.mpr hGrown)
        have hQuiet : Q u w := quietly_changed (S := (· = replacement)) hOther hThere
          (changes_edited (keeps_closures (ClosureEdit.keeps_relocateDisplayClasses rfl)))
          (shuns_closures (ClosureEdit.shuns_relocateDisplayClasses fun _ hIn =>
            hIn.1.index_lt hTracks)) hRelocate
        have hEnqueue : (modify (.enqueue copied) : Propagate PUnit) w = .ok ⟨⟩ _ :=
          Step.modify_ok.mpr rfl
        exact IsTrans.trans _ _ _ hQuiet (quietly_enqueue hEnqueue)
      · exact hMoved ▸ refl (r := Q) u
    obtain ⟨m, hBound, rfl⟩ := bindMethod_ok hBind
    rw [hFirst] at hBound
    obtain ⟨hKept, hNow, hOnly⟩ := BindingMap.bind_ok hBound
    have hBindings : t.bindings = m := (adoptInitUnit_plan hAdopt).1.trans hLast
    refine ⟨hBindings ▸ hKept, fun hEnd units hAdopting => ?_⟩
    rw [hBindings] at hEnd ⊢
    have hQuiet : Q s v := IsTrans.trans _ _ _ hCopied
      (IsTrans.trans _ _ _ hFound (hRelocated hAdopting.uncalled.grown))
    obtain ⟨more, hMore, hNext⟩ := adoptInitUnit_adopting (r := unit) hTracks hThere hAdopt
      ⟨hAdopting.toCalling.quiet hQuiet, hAdopting.called⟩ rfl (hEnd _ _ hNow) hFree hKept hNow hOnly
    exact ⟨more, fun b hMem => hMore b hMem ▸ hFree, hNext⟩

omit hTracks

/-- A method that is given a parameter is none. -/
theorem adopts_addParameterTo {method : MethodId} :
    Keeps (Adopts p plan B constructor watched options) (addParameterTo method) := by
  intro s made t h
  rcases addParameterTo_ok h with ⟨-, rfl, -⟩ | ⟨m, replacement, r, -, hFree, -, hStands, hBind⟩
  · exact refl s
  · let Q := Quietly (fun id => B.Leads watched id ∧ p.Uncalled id) p.methods.length constructor
    have hFirst : r.bindings = s.bindings := by
      rcases hStands with ⟨rfl, -⟩ | hCopy
      · rfl
      · exact (makeCopy_plan hCopy).1
    have hCopied : Q s r := by
      rcases hStands with ⟨rfl, -⟩ | hCopy
      · exact refl (r := Q) s
      · exact quietly_makeCopy hThere hCopy
    have hQuiet : Q s t := IsTrans.trans _ _ _ hCopied (quietly_bindMethod hBind)
    obtain ⟨bindings, hBound, rfl⟩ := bindMethod_ok hBind
    rw [hFirst] at hBound
    obtain ⟨hKept, hNow, hOnly⟩ := BindingMap.bind_ok hBound
    refine ⟨hKept, fun hEnd units hAdopting => ⟨[], by simp, ?_⟩⟩
    rw [List.append_nil]
    refine ⟨(hAdopting.toCalling.quiet hQuiet).rebind hKept,
      fun hInline b hMoved hWatched hUncalled hOwn hGet => ?_⟩
    rcases hOnly b.method b hGet with hBefore | ⟨rfl, -⟩
    · exact hAdopting.called hInline b hMoved hWatched hUncalled hOwn hBefore
    · obtain ⟨context, hMode, -⟩ := hMoved.listed
      cases hMode

include hTracks

theorem visitKeeps_adopts : VisitKeeps (Adopts p plan B constructor watched options) where
  count f s := by
    have hCount : (modify (.count f) : Propagate PUnit) s = .ok ⟨⟩ _ := Step.modify_ok.mpr rfl
    exact .of_quietly rfl (quietly_count hCount)
  display method s handle t h := .of_quietly (same_displayHandle? h) (quietly_displayHandle? h)
  adapt site closures q b s t hLive h := adaptInPlace_adopts hTracks hThere hLive h
  convertOne _ _ := adopts_convertOne hTracks hThere
  addParameterTo _ := adopts_addParameterTo hThere
  align into method replacement s u t h := by
    have hChanged : Changed (fun _ => False) s t := changes_alignProperty h
    exact .of_quietly hChanged.bindings (quietly_changed (S := fun _ => False) (fun h => h) hThere
      changes_alignProperty shuns_alignProperty h)
  overrides bound replacement s u t h := by
    have hChanged : Changed (fun _ => False) s t := changes_mapOverrides h
    exact .of_quietly hChanged.bindings (quietly_changed (S := fun _ => False) (fun h => h) hThere
      changes_mapOverrides shuns_mapOverrides h)
  complete bound s u t h := .of_quietly (same_complete h) (quietly_complete hThere h)

end Adopt

end Propagate

end ContextBinding
