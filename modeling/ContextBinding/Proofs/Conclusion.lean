import ContextBinding.Proofs.Counting
import ContextBinding.Proofs.Descent
import Mathlib.Logic.Relation

/-! How a run ends. The batches come to an end whatever the program is, there are no more of them
than transitions and fields for the root account for, and every method that is bound is bound in
one step. -/

namespace ContextBinding

open Relation

namespace Propagation

/-- A point of a run with the methods that the batch still has to visit. Where there are none of
them, what contexts bring along is still to be bound. -/
abbrev Point := Option (List MethodId) × Propagation

/-- The steps of a run once the graph is built: what contexts bring along is bound, then batches
are opened and the methods of each are visited in turn. -/
inductive Moves : Point → Point → Prop
  | given {s t : Propagation} (h : Propagate.bindReplacements s = .ok () t) :
    Moves (none, s) (some [], t.seeded)
  | opened {s : Propagation} (hSome : s.pending ≠ []) : Moves (some [], s) (some s.pending, s.opened)
  | visited {method : MethodId} {rest : List MethodId} {s t : Propagation}
    (h : Propagate.visit method s = .ok () t) : Moves (some (method :: rest), s) (some rest, t)

/-- A run comes to a point. -/
def Reached (p : Program) (plan : ContextPlan) (options : PropagationOptions) (c : Point) : Prop :=
  ∃ s, Propagate.graph GraphEdit.build (.start p plan options) = .ok () s ∧
    ReflTransGen Moves (none, s) c

variable {ahead rest : List MethodId} {method : MethodId} {p : Program} {s t : Propagation}

instance : DecidablePred s.IsRootField := fun id =>
  decidable_of_iff ((s.program.field? id).any (fun f =>
      f.name == Closures.displayRootName && f.type == .named s.closures.root) = true ∧
        id ∉ s.closures.copiedFields) (by
    unfold IsRootField
    simp [Option.any_eq_true])

/-- The fields that display classes were given for the root since a run began, those that only came
with a copy aside. -/
def rootFields (p : Program) (s : Propagation) : List FieldId :=
  ((List.range s.program.fields.length).map FieldId.mk).filter fun id =>
    p.fields.length ≤ id.index ∧ s.IsRootField id

theorem mem_rootFields {id : FieldId} :
    id ∈ s.rootFields p ↔ p.fields.length ≤ id.index ∧ s.IsRootField id := by
  unfold rootFields
  rw [List.mem_filter, decide_eq_true_eq, and_iff_right_iff_imp]
  rintro ⟨-, ⟨f, hField, -⟩, -⟩
  refine List.mem_map.mpr ⟨id.index, List.mem_range.mpr ?_, rfl⟩
  exact (List.getElem?_eq_some_iff.mp hField).1

theorem nodup_rootFields : (s.rootFields p).Nodup :=
  (List.nodup_range.map fun _ _ h => FieldId.mk.inj h).filter _

/-- The transitions and the fields that account for the batches of a run. -/
def spent (p : Program) (s : Propagation) : Nat := s.stats.transitions + (s.rootFields p).length

theorem Settles.rootFields_subset {copying : Prop} (h : s.Settles copying ahead t) :
    s.rootFields p ⊆ t.rootFields p := fun _ hMem =>
  mem_rootFields.mpr ((mem_rootFields.mp hMem).imp_right h.isRootField)

/-- A field that is new is one more. -/
theorem Settles.rootFields_lt {copying : Prop} (h : s.Settles copying ahead t) {field : FieldId}
    (hField : t.IsRootField field) (hNew : s.program.fields.length ≤ field.index)
    (hGrown : p.fields.length ≤ s.program.fields.length) :
    (s.rootFields p).length < (t.rootFields p).length := by
  have hOther : field ∉ s.rootFields p := fun hMem => by
    obtain ⟨-, ⟨f, hThere, -⟩, -⟩ := mem_rootFields.mp hMem
    exact absurd (List.getElem?_eq_some_iff.mp hThere).1 (Nat.not_lt.mpr hNew)
  have hSubset : field :: s.rootFields p ⊆ t.rootFields p :=
    List.cons_subset.mpr ⟨mem_rootFields.mpr ⟨hGrown.trans hNew, hField⟩, h.rootFields_subset⟩
  exact (List.subperm_of_subset (List.nodup_cons.mpr ⟨hOther, nodup_rootFields⟩) hSubset).length_le

/-- No step has more than one outcome. -/
theorem rightUnique_moves : Relator.RightUnique Moves := by
  intro c d d' h h'
  cases h with
  | given hRun =>
      obtain @⟨_, t, hRun'⟩ := h'
      obtain ⟨-, rfl⟩ := EStateM.Result.ok.inj (hRun.symm.trans hRun')
      rfl
  | opened hSome =>
      cases h'
      rfl
  | visited hRun =>
      obtain - | - | hRun' := h'
      obtain ⟨-, rfl⟩ := EStateM.Result.ok.inj (hRun.symm.trans hRun')
      rfl

/-- What holds of every point of a run: transitions and bindings are as many, and the batches are
accounted for, the next one included. -/
structure Accounted (p : Program) (c : Point) : Prop where
  grown : p.fields.length ≤ c.2.program.fields.length
  transitions : c.2.stats.transitions = c.2.bindings.size
  iterations : c.2.stats.iterations ≤ 1 + c.2.spent p
  next : c.2.pending ≠ [] → c.2.stats.iterations ≤ c.2.spent p
  start : c.1 = none → c.2.stats.iterations = 0 ∧ c.2.bindings = .empty ∧
    ∀ d ∈ c.2.plan.contexts, d.replacementMethods.Ordered

/-- Either the next batch stays as it is, or something is there to account for it. -/
theorem Turn.spends (h : Turn ahead method s t) {n : Nat} (hTallies : Tallies n n s t)
    (hGrown : p.fields.length ≤ s.program.fields.length) :
    t.pending = s.pending ∧ s.spent p ≤ t.spent p ∨ s.spent p < t.spent p := by
  have hCounted := hTallies.transitions
  have hFields : (s.rootFields p).length ≤ (t.rootFields p).length :=
    (List.subperm_of_subset nodup_rootFields h.settles.rootFields_subset).length_le
  unfold spent
  cases h with
  | rested hSettles hRank hPending => exact Or.inl ⟨hPending, by omega⟩
  | captured hSettles hRank field hField hNew =>
      have hMore := hSettles.rootFields_lt (p := p) hField hNew hGrown
      exact Or.inr (by omega)
  | bound hSettles hRank hFree hBound =>
      have hSome : n ≠ 0 := fun hNone => by
        obtain ⟨b, hGet⟩ := hBound
        rw [hTallies.idle hNone, hFree] at hGet
        cases hGet
      exact Or.inr (by omega)

end Propagation

namespace Propagate

open Propagation (Accounted CodeOnly Moves Point Reached Settled Settles Tallies)

variable {p : Program} {plan : ContextPlan} {options : PropagationOptions} {s t : Propagation}

/-- When the graph is built, what it knows of is in use. -/
theorem build_regular (h : graph GraphEdit.build (.start p plan options) = .ok () s) :
    s.Regular [] := by
  obtain ⟨v, hBuild, rfl⟩ := graph_ok.mp h
  refine ⟨Propagation.keyed_start p plan options, fun id hMem => ?_, fun b hMem => ?_,
    fun field hMem => ?_⟩
  · rcases hMem with hMem | hMem | ⟨target, hMem⟩
    · exact (List.not_mem_nil hMem).elim
    · exact (List.not_mem_nil hMem).elim
    · obtain ⟨b, hBody⟩ := Program.isLive_iff.mp (GraphEdit.build_callers hBuild hMem)
      obtain ⟨m, hMethod, -⟩ := Program.liveBody?_eq_some.mp hBody
      exact ⟨m, hMethod⟩
  · exact (List.not_mem_nil hMem).elim
  · exact (List.not_mem_nil hMem).elim

/-- Binding what contexts bring along makes no others wait. -/
theorem bindReplacements_settles {ahead : List MethodId} {u : Unit}
    (h : bindReplacements s = .ok u t) (hRegular : s.Regular ahead) : s.Settles False ahead t := by
  obtain ⟨_, _, hGet, h⟩ := Step.bind_ok.mp h
  obtain ⟨rfl, rfl⟩ := Step.get_ok.mp hGet
  obtain ⟨made, s₁, hMade, h⟩ := Step.bind_ok.mp h
  let I (done : List (Option (MethodId × MethodId))) (u : Propagation) : Prop :=
    s.Settles False ahead u ∧ ∀ e ∈ done.filterMap id, u.Paired e
  have hStart : I [] s := ⟨.refl hRegular, by simp⟩
  obtain ⟨hFirst, hPaired⟩ : I made s₁ := by
    refine Step.mapM_induct (fun b hb done r u v hDone hStep => ?_) hStart hMade
    obtain ⟨m, _, hModel, hStep⟩ := Step.bind_ok.mp hStep
    obtain ⟨-, rfl⟩ := model_ok.mp hModel
    split at hStep
    · obtain ⟨rfl, rfl⟩ := Step.pure_ok.mp hStep
      simpa [I] using hDone
    · obtain ⟨_, w, hBind, hStep⟩ := Step.bind_ok.mp hStep
      obtain ⟨rfl, rfl⟩ := Step.pure_ok.mp hStep
      obtain ⟨context, hMode⟩ := ContextPlan.mode_given hb
      have hBound : u.Settles False ahead w :=
        settled_bindMethod (by simp [hMode]) hBind hDone.1.regular
      refine ⟨hDone.1.trans hBound, fun e hMem => ?_⟩
      rw [List.filterMap_append, List.mem_append] at hMem
      rcases hMem with hMem | hMem
      · exact (hDone.2 e hMem).later hBound.bindings
      · obtain rfl : e = (b.method, b.replacement) := by simpa using hMem
        exact ⟨b, bindMethod_bound hBind, rfl⟩
  exact hFirst.trans (complete_settles h hFirst.regular hPaired)

theorem seeded_regular {ahead : List MethodId} (h : s.Regular ahead) : s.seeded.Regular ahead := by
  refine h.enqueue fun id hMem => ?_
  obtain ⟨b, hBody⟩ := Program.isLive_iff.mp
    (Program.mem_liveMethods.mp (List.mem_filter.mp hMem).1)
  obtain ⟨m, hMethod, -⟩ := Program.liveBody?_eq_some.mp hBody
  exact ⟨m, hMethod⟩

/-- A step of a run leaves whatever may come to be visited there, and keeps what was bound. -/
theorem moves_regular {c d : Point} (hMoves : Moves c d) (h : c.2.Regular (c.1.getD [])) :
    d.2.Regular (d.1.getD []) ∧ c.2.bindings.Extends d.2.bindings := by
  cases hMoves with
  | given hRun =>
      have hSettles := bindReplacements_settles hRun h
      exact ⟨seeded_regular hSettles.regular, hSettles.bindings⟩
  | opened hSome => exact ⟨(opened_regular h).1, refl _⟩
  | visited hRun =>
      have hSettles := (visit_turns hRun h (List.mem_cons_self ..)).settles
      exact ⟨hSettles.regular.mono (List.subset_cons_self ..), hSettles.bindings⟩

/-- What a step of a run keeps of its account. -/
theorem moves_accounted {c d : Point} (hMoves : Moves c d) (hRegular : c.2.Regular (c.1.getD []))
    (h : Accounted p c) : Accounted p d := by
  cases hMoves with
  | given hRun =>
      obtain ⟨hNone, hFree, hOrdered⟩ := h.start rfl
      obtain ⟨n, hTallies⟩ :=
        bindReplacements_tallies hRun (ContextPlan.nodup_given hOrdered) hFree
      have hSettles := bindReplacements_settles hRun hRegular
      have hCounted := hTallies.iterations.trans hNone
      refine ⟨h.grown.trans hSettles.grows.fields.length_le, ?_, ?_, fun _ => ?_, nofun⟩
      · exact hTallies.transitions.trans (h.transitions ▸ hTallies.bindings.symm)
      · exact hCounted.trans_le (Nat.zero_le _)
      · exact hCounted.trans_le (Nat.zero_le _)
  | opened hSome =>
      refine ⟨h.grown, h.transitions, ?_, fun hNext => (hNext rfl).elim, nofun⟩
      have hBatch := h.next hSome
      change _ + 1 ≤ 1 + _
      exact Nat.add_comm 1 _ ▸ Nat.add_le_add_left hBatch 1
  | visited hRun =>
      have hTurn := visit_turns hRun hRegular (List.mem_cons_self ..)
      obtain ⟨n, hTallies⟩ := visit_tallies hRun
      have hSpends := hTurn.spends (p := p) hTallies h.grown
      have hBatch := hTallies.iterations
      have hBefore := h.iterations
      refine ⟨h.grown.trans hTurn.settles.grows.fields.length_le, ?_, ?_, fun hNext => ?_, nofun⟩
      · exact hTallies.transitions.trans (h.transitions ▸ hTallies.bindings.symm)
      · dsimp only at hBefore ⊢
        omega
      · dsimp only at hBefore ⊢
        rcases hSpends with ⟨hSame, hLe⟩ | hLess
        · have hKept := h.next (hSame ▸ hNext)
          dsimp only at hKept
          omega
        · omega

/-- From one point of a run to a later one everything stays bound. -/
theorem reaches_regular {c d : Point} (h : ReflTransGen Moves c d)
    (hRegular : c.2.Regular (c.1.getD [])) :
    d.2.Regular (d.1.getD []) ∧ c.2.bindings.Extends d.2.bindings := by
  induction h with
  | refl => exact ⟨hRegular, refl _⟩
  | tail _ hMoves ih =>
      obtain ⟨hEnd, hKept⟩ := moves_regular hMoves ih.1
      exact ⟨hEnd, IsTrans.trans _ _ _ ih.2 hKept⟩

theorem reached_regular {c : Point} (h : Reached p plan options c) : c.2.Regular (c.1.getD []) := by
  obtain ⟨s, hBuild, hReaches⟩ := h
  exact (reaches_regular hReaches (build_regular hBuild)).1

/-- Every point of a run is accounted for. -/
theorem reached_accounted {c : Point} (h : Reached p plan options c)
    (hOrdered : ∀ d ∈ plan.contexts, d.replacementMethods.Ordered) : Accounted p c := by
  obtain ⟨s, hBuild, hReaches⟩ := h
  induction hReaches with
  | refl =>
      obtain ⟨v, -, rfl⟩ := graph_ok.mp hBuild
      exact ⟨Nat.le_refl _, rfl, Nat.zero_le _, fun h => (h rfl).elim, fun _ => ⟨rfl, rfl, hOrdered⟩⟩
  | tail hReaches hMoves ih =>
      exact moves_accounted hMoves (reached_regular ⟨s, hBuild, hReaches⟩) ih

/-- Whatever is bound at a point of a run was bound in one step on the way there. -/
theorem reached_bound_once {c : Point} (h : Reached p plan options c) {method : MethodId}
    {b : Binding} (hBound : c.2.bindings.get? method = some b) :
    ∃! d : Point, Reached p plan options d ∧ d.2.bindings.get? method = none ∧
      ∃ e, Moves d e ∧ e.2.bindings.get? method = some b := by
  obtain ⟨s, hBuild, hReaches⟩ := h
  have hExists : ∃ d : Point, ReflTransGen Moves (none, s) d ∧ d.2.bindings.get? method = none ∧
      ∃ e, Moves d e ∧ e.2.bindings.get? method = some b := by
    induction hReaches with
    | refl =>
        obtain ⟨v, -, rfl⟩ := graph_ok.mp hBuild
        cases hBound
    | @tail d e hReaches hMoves ih =>
        cases hBefore : d.2.bindings.get? method with
        | none => exact ⟨d, hReaches, hBefore, e, hMoves, hBound⟩
        | some b' =>
            have hKept := (moves_regular hMoves (reached_regular ⟨s, hBuild, hReaches⟩)).2
            rw [hKept method b' hBefore] at hBound
            exact ih (hBefore.trans hBound)
  obtain ⟨d, hReached, hFree, e, hMoves, hBinds⟩ := hExists
  -- Two points of a run come one after the other, and what is bound stays so.
  have hSame {d d' e : Point} (hReached : ReflTransGen Moves (none, s) d) (hMoves : Moves d e)
      (hBinds : e.2.bindings.get? method = some b) (hFree : d'.2.bindings.get? method = none)
      (hLater : ReflTransGen Moves d d') : d' = d := by
    rcases hLater.cases_head with hSame | ⟨e', hFirst, hRest⟩
    · exact hSame.symm
    · obtain rfl := Propagation.rightUnique_moves hMoves hFirst
      have hRegular := reached_regular ⟨s, hBuild, hReached.tail hMoves⟩
      rw [(reaches_regular hRest hRegular).2 method b hBinds] at hFree
      cases hFree
  refine ⟨d, ⟨⟨s, hBuild, hReached⟩, hFree, e, hMoves, hBinds⟩, ?_⟩
  rintro d' ⟨⟨s', hBuild', hReached'⟩, hFree', e', hMoves', hBinds'⟩
  obtain ⟨-, rfl⟩ := EStateM.Result.ok.inj (hBuild.symm.trans hBuild')
  rcases ReflTransGen.total_of_right_unique Propagation.rightUnique_moves hReached hReached' with
    hLater | hLater
  · exact hSame hReached hMoves hBinds hFree' hLater
  · exact (hSame hReached' hMoves' hBinds' hFree hLater).symm

theorem visits_reach {methods : List MethodId} {u : Unit} (h : methods.forM visit s = .ok u t) :
    ReflTransGen Moves (some methods, s) (some [], t) := by
  induction methods generalizing s with
  | nil =>
      obtain ⟨-, rfl⟩ := Step.pure_ok.mp h
      exact .refl
  | cons method methods ih =>
      obtain ⟨_, s₁, hFirst, hRest⟩ := Step.bind_ok.mp h
      exact .head (.visited hFirst) (ih hRest)

/-- The batches of a run are steps of it. -/
theorem Concludes.reaches {u : Unit} (h : Concludes s (.ok u t)) :
    ReflTransGen Moves (some [], s) (some [], t) := by
  generalize hEnd : EStateM.Result.ok u t = r at h
  induction h with
  | done hDone =>
      cases hEnd
      exact .refl
  | next hSome hBatch hRest ih =>
      obtain ⟨-, hVisits⟩ := batch_ok.mp hBatch
      exact .head (.opened hSome) ((visits_reach hVisits).trans (ih hEnd))
  | failed hSome hBatch => cases hEnd

/-- The batches come to an end, from whatever point of a run. When a run succeeds, there were no
more of them than one, the transitions and the fields for the root that display classes were given;
there are as many transitions as bindings, and each method that is bound was bound in just one step
of the run. -/
theorem run_ends (p : Program) (plan : ContextPlan) (options : PropagationOptions) :
    (∀ s, Reached p plan options (some [], s) → Concludes s (visitAll s)) ∧
      ∀ t, (∀ c ∈ plan.contexts, c.replacementMethods.Ordered) →
        propagate p plan options = .ok () t →
          t.stats.iterations ≤ 1 + t.stats.transitions + (t.rootFields p).length ∧
          t.stats.transitions = t.bindings.size ∧
          ∀ method b, t.bindings.get? method = some b →
            ∃! c : Point, Reached p plan options c ∧ c.2.bindings.get? method = none ∧
              ∃ d, Moves c d ∧ d.2.bindings.get? method = some b := by
  refine ⟨fun s hReached => visitAll_ends (reached_regular hReached), fun t hOrdered h => ?_⟩
  obtain ⟨s₁, s₂, s₃, s₄, hBuild, hGiven, hBatches, hRetire, rfl⟩ := run_iff.mp h
  have hReached : Reached p plan options (some [], s₃) := by
    refine ⟨s₁, hBuild, .head (.given hGiven) (Concludes.reaches (u := ()) ?_)⟩
    exact (visitAll_concludes hBatches).1
  have hAccounted := reached_accounted hReached hOrdered
  have hCode : CodeOnly s₃ s₄ := codeOnly_retireMovedFields hRetire
  have hRetired : s₃.Settles False [] s₄ := by
    refine hCode.settled ?_ (reached_regular hReached)
    exact (keeps_retireMovedFields (S := fun _ => False) hRetire).advanced
  have hTallies := hCode.tallies
  have hFields : (s₃.rootFields p).length ≤ (s₄.rootFields p).length :=
    (List.subperm_of_subset Propagation.nodup_rootFields hRetired.rootFields_subset).length_le
  refine ⟨?_, ?_, fun method b hBound => reached_bound_once hReached (hCode.bindings ▸ hBound)⟩
  · change s₄.stats.iterations ≤ 1 + s₄.stats.transitions + (s₄.rootFields p).length
    have hBatch := hAccounted.iterations
    have hSame := hTallies.iterations
    have hCounted := hTallies.transitions
    dsimp only [Propagation.spent] at hBatch
    omega
  · exact hTallies.transitions.trans (hAccounted.transitions.trans hTallies.bindings.symm)

section Examples

/-- `M`, `f`, `g` and `h` are bound, and two display classes are given a field for the root. -/
theorem relocatedLambda_ends :
    ∃ t, propagate (built relocatedLambda).1 (built relocatedLambda).2 default = .ok () t ∧
      (t.stats.transitions = 4 ∧ (t.rootFields (built relocatedLambda).1).length = 2) ∧
      t.stats.iterations ≤ 1 + t.stats.transitions + (t.rootFields (built relocatedLambda).1).length ∧
      t.stats.transitions = t.bindings.size ∧
      ∀ method b, t.bindings.get? method = some b →
        ∃! c : Point, Reached (built relocatedLambda).1 (built relocatedLambda).2 default c ∧
          c.2.bindings.get? method = none ∧
            ∃ d, Moves c d ∧ d.2.bindings.get? method = some b := by
  have hCheck : Step.yields
      (propagate (built relocatedLambda).1 (built relocatedLambda).2 default)
      (fun _ t => decide (t.stats.transitions = 4 ∧
        (t.rootFields (built relocatedLambda).1).length = 2)) = true := by decide +kernel
  have hOrdered : ∀ c ∈ (built relocatedLambda).2.contexts, c.replacementMethods.Ordered := by
    decide +kernel
  obtain ⟨_, t, hRun, hCheck⟩ := Step.ok_of_yields hCheck
  exact ⟨t, hRun, of_decide_eq_true hCheck, (run_ends _ _ _).2 t hOrdered hRun⟩

end Examples

end Propagate

end ContextBinding
