import ContextBinding.Closure.Capture
import ContextBinding.Closure.Display
import ContextBinding.Proofs.Clone
import ContextBinding.Proofs.Workspace

/-! What adapting code to closures touches. A step that adapts one method edits
 the code of that method only; all methods that it registers belong to a capture
 record or to the copy of a display class. -/

namespace ContextBinding

open Std
open Program (Confined)

instance : LawfulEqOrd RecordKey where
  compare_self {a} := by
    change (compare a.enclosing a.enclosing).then (compare a.receiver a.receiver) = .eq
    simp
  eq_of_compare {a b} h := by
    change (compare a.enclosing b.enclosing).then (compare a.receiver b.receiver) = .eq at h
    obtain ⟨hEnclosing, hReceiver⟩ := Ordering.then_eq_eq.mp h
    cases a
    cases b
    obtain rfl := LawfulEqOrd.eq_of_compare hEnclosing
    obtain rfl := LawfulEqOrd.eq_of_compare hReceiver
    rfl

instance : LawfulEqOrd (TypeId × TypeId) where
  compare_self {a} := by
    change (compare a.1 a.1).then (compare a.2 a.2) = .eq
    simp
  eq_of_compare {a b} h := by
    change (compare a.1 b.1).then (compare a.2 b.2) = .eq at h
    obtain ⟨hFirst, hSecond⟩ := Ordering.then_eq_eq.mp h
    exact Prod.ext (LawfulEqOrd.eq_of_compare hFirst) (LawfulEqOrd.eq_of_compare hSecond)

namespace Closures

/-- A type that the run declared: that of a capture record, or the copy of a
display class. -/
def Owns (c : Closures) (type : TypeId) : Prop :=
  (∃ key r, c.records.get? key = some r ∧ r.type = type) ∨
    ∃ pair clone, c.relocated.get? pair = some clone ∧ clone.copy = some type

/-- A method by which a capture record serves: its constructor, or one that forwards
calls. -/
def Serves (c : Closures) (id : MethodId) : Prop :=
  ∃ key r, c.records.get? key = some r ∧
    (r.constructor = id ∨ ∃ replacement, r.trampolines.get? replacement = some id)

/-- Every record is kept under its own key. -/
def Keyed (c : Closures) : Prop := ∀ key r, c.records.get? key = some r → r.key = key

/-- What is known of closures only grows. -/
structure Learns (c c' : Closures) : Prop where
  owned : ∀ type, c.Owns type → c'.Owns type
  serves : ∀ id, c.Serves id → c'.Serves id
  strict : c'.strict = c.strict

instance : IsPreorder Closures Learns where
  refl _ := ⟨fun _ => id, fun _ => id, rfl⟩
  trans _ _ _ h h' :=
    { owned := fun type hOwned => h'.owned type (h.owned type hOwned)
      serves := fun id hServes => h'.serves id (h.serves id hServes)
      strict := h'.strict.trans h.strict }

/-- Entering a record loses nothing, if it extends the one that its key had before. -/
theorem Learns.putRecord {c : Closures} {r : CaptureRecord}
    (hSame : ∀ old, c.records.get? r.key = some old → old.Extends r) : c.Learns (c.putRecord r) := by
  have hGet {key : RecordKey} {old : CaptureRecord} (hOld : c.records.get? key = some old) :
      (c.putRecord r).records.get? key = some old ∨
        (c.putRecord r).records.get? key = some r ∧ old.Extends r := by
    by_cases hKey : r.key = key
    · subst hKey
      exact Or.inr ⟨by simp [Closures.putRecord, Table.get?_insert], hSame old hOld⟩
    · exact Or.inl (by simp [Closures.putRecord, Table.get?_insert, hKey, hOld])
  refine ⟨fun type hOwned => ?_, fun id hServes => ?_, rfl⟩
  · rcases hOwned with ⟨key, old, hOld, rfl⟩ | hRelocated
    · rcases hGet hOld with hKept | ⟨hPut, hExtends⟩
      · exact Or.inl ⟨key, old, hKept, rfl⟩
      · exact Or.inl ⟨key, r, hPut, hExtends.type⟩
    · exact Or.inr hRelocated
  · obtain ⟨key, old, hOld, hMethod⟩ := hServes
    rcases hGet hOld with hKept | ⟨hPut, hExtends⟩
    · exact ⟨key, old, hKept, hMethod⟩
    · refine ⟨key, r, hPut, hMethod.imp hExtends.constructor.trans ?_⟩
      exact Exists.imp fun replacement => hExtends.trampolines replacement id

/-- Entering a record makes no type owned but its own. -/
theorem Owns.of_putRecord {c : Closures} {r : CaptureRecord} {type : TypeId}
    (h : (c.putRecord r).Owns type) : c.Owns type ∨ r.type = type := by
  rcases h with ⟨key, old, hOld, rfl⟩ | hRelocated
  · simp only [Closures.putRecord, Table.get?_insert] at hOld
    split at hOld
    · exact Or.inr (congrArg _ (Option.some_inj.mp hOld))
    · exact Or.inl (Or.inl ⟨key, old, hOld, rfl⟩)
  · exact Or.inl (Or.inr hRelocated)

theorem Keyed.putRecord {c : Closures} (h : c.Keyed) (r : CaptureRecord) :
    (c.putRecord r).Keyed := by
  intro key old hOld
  simp only [Closures.putRecord, Table.get?_insert] at hOld
  split at hOld
  · rename_i hKey
    exact Option.some_inj.mp hOld ▸ hKey
  · exact h key old hOld

/-- What a step that edits the code of the methods in `S` leaves of the closures
and of the program: new methods belong to types that are owned then, what is owned
anew is new to the program, and no other type gains a field for the root. -/
structure Adapted (S : MethodId → Prop) (s t : Closures × Workspace) : Prop where
  keyed : t.1.Keyed
  learns : s.1.Learns t.1
  fresh : ∀ type, t.1.Owns type → s.1.Owns type ∨ s.2.program.types.length ≤ type.index
  roots : ∀ type field, t.1.displayRoot? type = some field →
    s.1.displayRoot? type = some field ∨ t.1.Owns type
  program : Confined S t.1.Owns s.2.program t.2.program

namespace Adapted

variable {S : MethodId → Prop} {s t u : Closures × Workspace}

protected theorem refl (h : s.1.Keyed) : Adapted S s s :=
  ⟨h, refl _, fun _ => Or.inl, fun _ _ => Or.inl, .refl _⟩

protected theorem trans (h : Adapted S s t) (h' : Adapted S t u) : Adapted S s u where
  keyed := h'.keyed
  learns := IsTrans.trans _ _ _ h.learns h'.learns
  fresh type hOwned := (h'.fresh type hOwned).elim (h.fresh type)
    fun hNew => Or.inr (h.program.grows.types.length_le.trans hNew)
  roots type field hRoot := (h'.roots type field hRoot).elim
    (fun hBefore => (h.roots type field hBefore).imp_right (h'.learns.owned type)) Or.inr
  program := (h.program.mono (fun _ => id) h'.learns.owned).trans h'.program

end Adapted

end Closures

namespace ClosureEdit

open Closures (Adapted)

/-- The change edits the code of the methods in `S` only, and leaves the declarations
alone. -/
structure Confined (S : MethodId → Prop) (s t : Closures × Workspace) : Prop where
  adapted : s.1.Keyed → Adapted S s t
  steady : s.2.program.Steady .none t.2.program

instance {S : MethodId → Prop} : IsPreorder (Closures × Workspace) (Confined S) where
  refl s := ⟨.refl, .refl s.2.program⟩
  trans _ _ _ h h' :=
    ⟨fun hKeyed => (h.adapted hKeyed).trans (h'.adapted (h.adapted hKeyed).keyed),
      h.steady.trans h'.steady⟩

variable {α : Type} {S : MethodId → Prop} {s t : Closures × Workspace}

theorem closures_ok {c : Closures} : closures s = .ok c t ↔ s.1 = c ∧ s = t := by
  unfold closures
  simp only [Step.bind_ok, Step.get_ok, Step.pure_ok]
  constructor
  · rintro ⟨_, _, ⟨rfl, rfl⟩, rfl, rfl⟩
    exact ⟨rfl, rfl⟩
  · rintro ⟨rfl, rfl⟩
    exact ⟨s, s, ⟨rfl, rfl⟩, rfl, rfl⟩

theorem work_ok {e : CodeEdit α} {a : α} :
    work e s = .ok a t ↔ ∃ w, e s.2 = .ok a w ∧ (s.1, w) = t :=
  Step.focus_ok

theorem edit_ok {e : Edit α} {a : α} :
    edit e s = .ok a t ↔ ∃ p, e s.2.program = .ok a p ∧ (s.1, { s.2 with program := p }) = t := by
  unfold edit
  rw [work_ok]
  constructor
  · rintro ⟨w, hEdit, rfl⟩
    obtain ⟨p, h, rfl⟩ := CodeEdit.edit_ok.mp hEdit
    exact ⟨p, h, rfl⟩
  · rintro ⟨p, h, rfl⟩
    exact ⟨_, CodeEdit.edit_ok.mpr ⟨p, h, rfl⟩, rfl⟩

theorem update_ok {f : Closures → Closures} {u : Unit} :
    update f s = .ok u t ↔ (f s.1, s.2) = t :=
  Step.modify_ok

theorem keeps_closures : Keeps (Confined S) closures := by
  intro s c t h
  obtain ⟨-, rfl⟩ := closures_ok.mp h
  exact refl s

theorem keeps_program : Keeps (Confined S) program := by
  intro s p t h
  obtain ⟨w, hProgram, rfl⟩ := work_ok.mp h
  obtain ⟨-, rfl⟩ := CodeEdit.program_ok.mp hProgram
  exact refl s

theorem keeps_work {e : CodeEdit α} (h : ∀ N, Keeps (Workspace.Confined S N) e) :
    Keeps (Confined S) (work e) := by
  intro s a t hRun
  obtain ⟨w, hEdit, rfl⟩ := work_ok.mp hRun
  refine ⟨fun hKeyed => ?_, (h (fun _ => False) hEdit).steady⟩
  exact ⟨hKeyed, refl _, fun _ => Or.inl, fun _ _ => Or.inl, (h _ hEdit).toConfined⟩

theorem keeps_edit {e : Edit α} (h : ∀ N, Keeps (Program.Rewrites S N) e) :
    Keeps (Confined S) (edit e) :=
  keeps_work fun N => CodeEdit.keeps_edit (h N)

theorem keeps_editBody {method : MethodId} {e : BodyEdit α} (hS : S method)
    (he : Keeps MethodBody.Revises e) :
    Keeps (Confined S) (edit (Program.editBody method e)) :=
  keeps_edit fun _ => Program.keeps_editBody hS he

/-- The record of a key is kept under it from then on. -/
theorem record_ok {key : RecordKey} {r : CaptureRecord} (h : record key s = .ok r t) :
    s.2.program.Steady .none t.2.program ∧ (s.1.Keyed →
      Adapted S s t ∧ t.1.records.get? key = some r ∧ r.key = key) := by
  unfold record at h
  obtain ⟨c, _, hClosures, h⟩ := Step.bind_ok.mp h
  obtain ⟨rfl, rfl⟩ := closures_ok.mp hClosures
  cases hKnown : s.1.records.get? key with
  | some known =>
      simp only [hKnown] at h
      obtain ⟨rfl, rfl⟩ := Step.pure_ok.mp h
      exact ⟨.refl _, fun hKeyed => ⟨.refl hKeyed, hKnown, hKeyed key known hKnown⟩⟩
  | none =>
      simp only [hKnown] at h
      obtain ⟨new, _, hEdit, h⟩ := Step.bind_ok.mp h
      obtain ⟨p, hNew, rfl⟩ := edit_ok.mp hEdit
      obtain ⟨_, _, hUpdate, h⟩ := Step.bind_ok.mp h
      obtain rfl := update_ok.mp hUpdate
      obtain ⟨rfl, rfl⟩ := Step.pure_ok.mp h
      obtain ⟨rfl, hType, hProgram, -⟩ := CaptureRecord.synthesize_ok hNew
      have hGet : (s.1.putRecord new).records.get? new.key = some new := by
        simp [Closures.putRecord, Table.get?_insert]
      have hOwns : (s.1.putRecord new).Owns new.type := Or.inl ⟨new.key, new, hGet, rfl⟩
      refine ⟨hProgram.steady, fun hKeyed => ⟨⟨hKeyed.putRecord new, ?_, fun type hOwned => ?_,
        fun _ _ => Or.inl, ?_⟩, hGet, rfl⟩⟩
      · have hPut : s.1.Learns (s.1.putRecord new) := .putRecord (by simp [hKnown])
        exact ⟨hPut.owned, hPut.serves, rfl⟩
      · refine (Closures.Owns.of_putRecord (c := s.1) hOwned).imp_right ?_
        rintro rfl
        exact hType ▸ Nat.le_refl _
      · refine hProgram.toConfined.mono (fun _ => False.elim) ?_
        rintro _ rfl
        exact hOwns

/-- The methods for a capture are those of a record, and providing them edits no code. -/
theorem recordFor_ok {method : MethodId} {receiver : Option TypeId} {b : Binding}
    {made : MethodId × MethodId} (h : recordFor method receiver b s = .ok made t) :
    s.2.program.Steady .none t.2.program ∧ (s.1.Keyed →
      Adapted S s t ∧ t.1.Serves made.1 ∧ t.1.Serves made.2) := by
  unfold recordFor at h
  obtain ⟨r, s₁, hRecord, h⟩ := Step.bind_ok.mp h
  obtain ⟨hSteady, hRecorded⟩ := record_ok (S := S) hRecord
  obtain ⟨⟨forward, r'⟩, _, hEdit, h⟩ := Step.bind_ok.mp h
  obtain ⟨p, hNew, rfl⟩ := edit_ok.mp hEdit
  obtain ⟨_, _, hUpdate, h⟩ := Step.bind_ok.mp h
  obtain rfl := update_ok.mp hUpdate
  obtain ⟨rfl, rfl⟩ := Step.pure_ok.mp h
  obtain ⟨hExtends, hForward, hProgram⟩ := CaptureRecord.trampoline_ok hNew
  refine ⟨hSteady.trans hProgram.steady, fun hKeyed => ?_⟩
  obtain ⟨hFirst, hGet, hKey⟩ := hRecorded hKeyed
  have hSame : s₁.1.records.get? r'.key = some r := by rw [hExtends.key, hKey]; exact hGet
  have hPut : (s₁.1.putRecord { r' with users := ascending (insertNew r'.users method) }).records.get?
      r'.key = some { r' with users := ascending (insertNew r'.users method) } := by
    simp [Closures.putRecord, Table.get?_insert]
  refine ⟨hFirst.trans ⟨hFirst.keyed.putRecord _, .putRecord fun old hOld => ?_, fun type hOwned => ?_,
    fun _ _ => Or.inl, ?_⟩, ⟨_, _, hPut, Or.inl rfl⟩, ⟨_, _, hPut, Or.inr ⟨_, hForward⟩⟩⟩
  · obtain rfl : r = old := Option.some_inj.mp (hSame.symm.trans hOld)
    exact ⟨hExtends.key, hExtends.type, hExtends.constructor, hExtends.trampolines⟩
  · refine Or.inl ((Closures.Owns.of_putRecord (c := s₁.1) hOwned).elim id ?_)
    rintro rfl
    exact Or.inl ⟨_, r, hGet, hExtends.type.symm⟩
  · refine hProgram.toConfined.mono (fun _ => False.elim) ?_
    rintro _ rfl
    exact Or.inl ⟨r'.key, _, hPut, hExtends.type⟩

theorem keeps_recordFor {method : MethodId} {receiver : Option TypeId} {b : Binding} :
    Keeps (Confined S) (recordFor method receiver b) :=
  fun _ _ _ h => ⟨fun hKeyed => ((recordFor_ok h).2 hKeyed).1, (recordFor_ok (S := S) h).1⟩

section Adapt

variable {R : Closures × Workspace → Closures × Workspace → Prop} {method : MethodId}

/-- All edits of code that edit no method outside `S` keep a relation. -/
def WorkKeeps (S : MethodId → Prop) (R : Closures × Workspace → Closures × Workspace → Prop) :
    Prop :=
  ∀ {α : Type} {e : CodeEdit α}, (∀ N, Keeps (Workspace.Confined S N) e) → Keeps R (work e)

/-- Leaving captures alone is counted. -/
def skip : ClosureEdit Unit := update fun c => { c with skipped := c.skipped + 1 }

theorem WorkKeeps.editBody {e : BodyEdit α} (hWork : WorkKeeps S R) (hS : S method)
    (he : Keeps MethodBody.Revises e) : Keeps R (edit (Program.editBody method e)) :=
  hWork fun _ => CodeEdit.keeps_edit (Program.keeps_editBody hS he)

theorem WorkKeeps.program (hWork : WorkKeeps S R) : Keeps R program :=
  hWork fun _ => Keeps.bind Keeps.get fun _ => Keeps.pure _

variable [IsPreorder (Closures × Workspace) R]

theorem closures_keeps : Keeps R closures := by
  intro s c t h
  obtain ⟨-, rfl⟩ := closures_ok.mp h
  exact refl s

theorem unrecognized_keeps (hWork : WorkKeeps S R) (hSkip : Keeps R skip) {id : InstrId}
    {defect : CallableDefect} : Keeps R (unrecognized method id defect) := by
  refine Keeps.bind closures_keeps fun c => Keeps.ite ?_ ?_
  · exact Keeps.bind hWork.program fun p => Keeps.throw _
  · exact Keeps.bind hSkip fun _ => Keeps.pure _

theorem constructionOf?_keeps (hWork : WorkKeeps S R) {pointer : InstrId} :
    Keeps R (constructionOf? method pointer) := by
  refine Keeps.bind (hWork fun N => CodeEdit.keeps_query) fun usages => ?_
  split
  · refine Keeps.ite ?_ (Keeps.pure _)
    refine Keeps.bind (hWork fun N => CodeEdit.keeps_instruction) fun i => ?_
    exact Keeps.bind hWork.program fun p => Keeps.ite (Keeps.pure _) (Keeps.pure _)
  · exact Keeps.pure _

theorem expandCache_keeps (hWork : WorkKeeps S R) (hS : S method) {construct : InstrId} :
    Keeps R (expandCache method construct) := by
  refine Keeps.bind (hWork fun N => CodeEdit.keeps_query) fun paths => ?_
  split
  · refine Keeps.bind (hWork fun N => CodeEdit.keeps_model) fun b => ?_
    split
    · exact hWork.editBody hS MethodBody.revises_removeEach
    · exact Keeps.pure _
  · exact Keeps.pure _

theorem constructRecord_keeps (hWork : WorkKeeps S R) {site : RootedMethod}
    {receiver : Option TypeId} {b : Binding}
    (hRecord : Keeps R (recordFor site.method receiver b)) {first : List Instruction} :
    Keeps R (constructRecord site first receiver b) :=
  Keeps.bind hRecord fun _ => Keeps.bind (hWork fun _ => CodeEdit.keeps_bound) fun _ => Keeps.pure _

theorem ownerOf_keeps (hWork : WorkKeeps S R) {b : Binding} : Keeps R (ownerOf b) :=
  Keeps.bind (hWork fun _ => CodeEdit.keeps_model) fun _ => Keeps.pure _

/-- What edits of the capturing code keep, counting and providing a record, is kept when a capture is
adapted. -/
theorem adaptCapture_keeps {plan : ContextPlan} {site : RootedMethod} {pointer : InstrId}
    {b : Binding} (hS : S site.method) (hWork : WorkKeeps S R) (hSkip : Keeps R skip)
    (hRecord : b.mode = .addedParameter →
      ∀ receiver, Keeps R (recordFor site.method receiver b)) :
    Keeps R (adaptCapture plan site pointer b) := by
  have hRedirect {seq : List Instruction} {target : MethodId} :
      Keeps R (redirect site.method pointer seq target) := by
    refine Keeps.bind (hWork.editBody hS ?_) fun _ => Keeps.pure _
    exact Keeps.bind MethodBody.revises_insertBefore fun _ => MethodBody.revises_setOperand
  refine Keeps.bind (hWork fun N => CodeEdit.keeps_instruction) fun i => ?_
  refine Keeps.bind (constructionOf?_keeps hWork) fun construct => ?_
  cases construct with
  | none => exact unrecognized_keeps hWork hSkip
  | some construct =>
    refine Keeps.bind (expandCache_keeps hWork hS) fun _ => ?_
    refine Keeps.bind (hWork fun N => CodeEdit.keeps_query) fun receiver => ?_
    refine Keeps.bind (hWork fun N => CodeEdit.keeps_model) fun body => ?_
    dsimp only
    split
    · exact Keeps.bind (hWork fun N => CodeEdit.keeps_bound) fun code => hRedirect
    · rename_i hMode _ _
      exact Keeps.bind (constructRecord_keeps hWork (hRecord hMode _)) fun made => hRedirect
    · rename_i hMode _ _
      refine Keeps.bind (ownerOf_keeps hWork) fun owner => ?_
      exact Keeps.bind (constructRecord_keeps hWork (hRecord hMode _)) fun made => hRedirect
    · rename_i hMode _ _
      refine Keeps.bind (ownerOf_keeps hWork) fun owner => ?_
      refine Keeps.bind (constructRecord_keeps hWork (hRecord hMode _)) fun made => ?_
      refine Keeps.bind (hWork.editBody hS ?_) fun _ => Keeps.pure _
      exact Keeps.bind MethodBody.revises_insertBefore fun _ => MethodBody.revises_replace
    · exact unrecognized_keeps hWork hSkip
    · exact unrecognized_keeps hWork hSkip

/-- So it is when a display class is given the root. -/
theorem storeDisplayRoot_keeps {site : RootedMethod} {id : InstrId} {field : FieldId}
    (hS : S site.method) (hWork : WorkKeeps S R) : Keeps R (storeDisplayRoot site id field) := by
  refine Keeps.bind (hWork fun _ => CodeEdit.keeps_bound) fun root => ?_
  exact Keeps.bind (hWork.editBody hS MethodBody.revises_insertAfter) fun _ => Keeps.pure _

end Adapt

theorem keeps_skip : Keeps (Confined S) skip :=
  Keeps.modify fun _ => ⟨fun hKeyed => ⟨hKeyed, ⟨fun _ h => h, fun _ h => h, rfl⟩,
    fun _ => Or.inl, fun _ _ => Or.inl, .refl _⟩, .refl _⟩

theorem keeps_unrecognized {method : MethodId} {id : InstrId} {defect : CallableDefect} :
    Keeps (Confined S) (unrecognized method id defect) :=
  unrecognized_keeps keeps_work keeps_skip

theorem keeps_constructionOf? {method : MethodId} {pointer : InstrId} :
    Keeps (Confined S) (constructionOf? method pointer) :=
  constructionOf?_keeps keeps_work

theorem keeps_receiverPaths {method : MethodId} {construct : InstrId} :
    Keeps (Confined S) (receiverPaths method construct) :=
  keeps_work fun _ => CodeEdit.keeps_query

theorem keeps_constructRecord {site : RootedMethod} {first : List Instruction}
    {receiver : Option TypeId} {b : Binding} :
    Keeps (Confined S) (constructRecord site first receiver b) :=
  constructRecord_keeps keeps_work keeps_recordFor

theorem keeps_ownerOf {b : Binding} : Keeps (Confined S) (ownerOf b) := ownerOf_keeps keeps_work

/-- Adapting a capture edits no other method. -/
theorem keeps_adaptCapture {plan : ContextPlan} {site : RootedMethod} {pointer : InstrId}
    {b : Binding} (hS : S site.method) : Keeps (Confined S) (adaptCapture plan site pointer b) :=
  adaptCapture_keeps hS keeps_work keeps_skip fun _ _ => keeps_recordFor

/-- A display class has its field for the root, or it is given one. -/
theorem ensureDisplayRoot_ok {type : TypeId} {made : FieldId × Bool}
    (h : ensureDisplayRoot type s = .ok made t) :
    s.1.displayRoot? type = some made.1 ∧ made.2 = false ∧ s = t ∨
      s.1.displayRoot? type = none ∧ made.2 = true ∧ ∃ p,
        Program.addField type Closures.displayRootName (.named s.1.root)
          (.ofList [.compilerGenerated]) s.2.program = .ok made.1 p ∧
        t = ({ s.1 with displayRoots := s.1.displayRoots.insert type made.1 },
          { s.2 with program := p }) := by
  obtain ⟨c, _, hClosures, h⟩ := Step.bind_ok.mp h
  obtain ⟨rfl, rfl⟩ := closures_ok.mp hClosures
  cases hKnown : s.1.displayRoot? type with
  | some field =>
      simp only [hKnown] at h
      obtain ⟨rfl, rfl⟩ := Step.pure_ok.mp h
      exact Or.inl ⟨rfl, rfl, rfl⟩
  | none =>
      simp only [hKnown] at h
      obtain ⟨field, _, hEdit, h⟩ := Step.bind_ok.mp h
      obtain ⟨p, hField, rfl⟩ := edit_ok.mp hEdit
      obtain ⟨_, _, hUpdate, h⟩ := Step.bind_ok.mp h
      obtain rfl := update_ok.mp hUpdate
      obtain ⟨rfl, rfl⟩ := Step.pure_ok.mp h
      exact Or.inr ⟨rfl, rfl, p, hField, rfl⟩

theorem keeps_storeDisplayRoot {site : RootedMethod} {id : InstrId} {field : FieldId}
    (hS : S site.method) : Keeps (Confined S) (storeDisplayRoot site id field) :=
  storeDisplayRoot_keeps hS keeps_work

/-- The methods that come with the copy of a display class belong to it. -/
theorem copyDisplayClass_ok {display generated : TypeId} {clone : TypeClone}
    (h : copyDisplayClass display generated s = .ok clone t)
    (hNew : s.1.relocated.get? (display, generated) = none) : Confined S s t := by
  unfold copyDisplayClass at h
  obtain ⟨made, _, hEdit, h⟩ := Step.bind_ok.mp h
  obtain ⟨p, hClone, rfl⟩ := edit_ok.mp hEdit
  obtain ⟨_, _, hUpdate, h⟩ := Step.bind_ok.mp h
  obtain rfl := update_ok.mp hUpdate
  obtain ⟨rfl, rfl⟩ := Step.pure_ok.mp h
  obtain ⟨hCopy, hProgram, -⟩ := Program.cloneType_ok hClone
  have hGet : (s.1.relocated.insert (display, generated) made).get? (display, generated) = some made := by
    simp [Table.get?_insert]
  refine ⟨fun hKeyed => ⟨hKeyed, ⟨fun type hType => ?_, fun _ h => h, rfl⟩, fun type hType => ?_,
    fun type field hRoot => ?_, ?_⟩, hProgram.steady⟩
  · refine hType.imp_right ?_
    rintro ⟨pair, clone, hGet, hType⟩
    refine ⟨pair, clone, ?_, hType⟩
    have hPair : (display, generated) ≠ pair := by
      rintro rfl
      simp [hGet] at hNew
    simpa [Table.get?_insert, hPair] using hGet
  · rcases hType with hRecord | ⟨pair, clone, hGet, hType⟩
    · exact Or.inl (Or.inl hRecord)
    · simp only [Table.get?_insert] at hGet
      split at hGet
      · obtain rfl : made = clone := Option.some_inj.mp hGet
        obtain rfl : ⟨s.2.program.types.length⟩ = type := Option.some_inj.mp (hCopy.symm.trans hType)
        exact Or.inr (Nat.le_refl _)
      · exact Or.inl (Or.inr ⟨pair, clone, hGet, hType⟩)
  · unfold Closures.displayRoot? at hRoot
    dsimp only at hRoot
    split at hRoot
    · rename_i copy root hMade
      rw [Table.get?_insert] at hRoot
      split at hRoot
      · rename_i hSame
        subst hSame
        simp only [Option.bind_eq_bind, Option.bind_eq_some_iff, Option.pure_def,
          Option.some_inj] at hMade
        obtain ⟨_, -, _, -, _, hMade, hPair⟩ := hMade
        obtain ⟨rfl, rfl⟩ := Prod.mk.inj hPair
        exact Or.inr (Or.inr ⟨(display, generated), made, hGet, hMade⟩)
      · exact Or.inl hRoot
    · exact Or.inl hRoot
  · refine hProgram.toConfined.mono (fun _ => False.elim) ?_
    rintro _ rfl
    exact Or.inr ⟨(display, generated), made, hGet, hCopy⟩

theorem keeps_relocateDisplayClass {method : MethodId} {generated display : TypeId}
    (hS : S method) : Keeps (Confined S) (relocateDisplayClass method generated display) := by
  intro s a t h
  unfold relocateDisplayClass at h
  obtain ⟨c, _, hClosures, h⟩ := Step.bind_ok.mp h
  obtain ⟨rfl, rfl⟩ := closures_ok.mp hClosures
  cases hKnown : s.1.relocated.get? (display, generated) with
  | some clone =>
      simp only [hKnown] at h
      refine (Keeps.bind (keeps_edit fun N => ?_) fun _ => Keeps.pure _) h
      exact Program.keeps_remapMembers hS
  | none =>
      simp only [hKnown] at h
      obtain ⟨clone, u, hCopy, h⟩ := Step.bind_ok.mp h
      refine IsTrans.trans _ _ _ (copyDisplayClass_ok hCopy hKnown) ?_
      refine (Keeps.bind (keeps_edit fun N => ?_) fun _ => Keeps.pure _) h
      exact Program.keeps_remapMembers hS

/-- Copying the display classes of a method edits no code that was there but its
own. -/
theorem keeps_relocateDisplayClasses {method : MethodId} {holder generated : TypeId}
    (hS : S method) : Keeps (Confined S) (relocateDisplayClasses method holder generated) := by
  refine Keeps.bind (keeps_work fun N => CodeEdit.keeps_model) fun m => ?_
  cases m.body with
  | none => exact Keeps.pure _
  | some b =>
      refine Keeps.bind (keeps_work fun N => CodeEdit.keeps_model) fun created => ?_
      refine Keeps.bind (Keeps.mapM fun _ _ => keeps_relocateDisplayClass hS) fun _ => ?_
      exact Keeps.pure _

end ClosureEdit

open Program in
/-- The static method `M` of the holder `H` reads a static field that moves, and runs
the lambda `L`, which calls `f` and runs another lambda `K`. Over calls, `K` and `f`
get to `g`, and `g` to `h`, which reads the field, too. When `M` moves, the display
class of `L` is copied. -/
def relocatedLambda : Edit ContextPlan := do
  let root ← addType "G" "Root" none ⟨0⟩
  let holder ← addType "G" "H" none ⟨0⟩
  let context ← addType "G" "H_Ctx" none ⟨0⟩
  let user ← addType "G" "U" none ⟨0⟩
  let displayL ← addType "" "<>c__D0" (some holder) (.ofList [.displayClass])
  let displayK ← addType "" "<>c__E0" (some user) (.ofList [.displayClass])
  let rootConstructor ← addMethod root ".ctor" [] .void (.ofList [.constructor])
  let constructor ← addMethod context ".ctor" [] .void (.ofList [.constructor])
  let constructL ← addMethod displayL ".ctor" [] .void (.ofList [.constructor])
  let constructK ← addMethod displayK ".ctor" [] .void (.ofList [.constructor])
  [rootConstructor, constructor, constructL, constructK].forM fun m =>
    setBody m (.fresh [.plain .ret])
  let slot ← addField root "H_f" (.named context) ⟨0⟩
  let x ← addField holder "x" .int32 (.ofList [.static])
  let moved ← addField context "x" .int32 ⟨0⟩
  let rootField ← addField context "root" (.named root) ⟨0⟩
  let lambdaL ← addMethod displayL "L" [] .void ⟨0⟩
  let lambdaK ← addMethod displayK "K" [] .void ⟨0⟩
  let m ← addMethod holder "M" [] .void (.ofList [.static])
  let f ← addMethod user "f" [] .void (.ofList [.static])
  let g ← addMethod user "g" [] .void (.ofList [.static])
  let h ← addMethod user "h" [] .void (.ofList [.static])
  setBody lambdaL (.fresh [.onMethod .newobj constructK, .onMethod .call lambdaK, .onMethod .call f,
    .plain .ret])
  setBody lambdaK (.fresh [.onMethod .call g, .plain .ret])
  setBody m (.fresh [.onField .ldsfld x, .plain .pop, .onMethod .newobj constructL,
    .onMethod .call lambdaL, .plain .ret])
  setBody f (.fresh [.onMethod .call g, .plain .ret])
  setBody g (.fresh [.onMethod .call h, .plain .ret])
  setBody h (.fresh [.onField .ldsfld x, .plain .pop, .plain .ret])
  pure ⟨root, rootConstructor, [{ ContextDescriptor.bare "H" holder context constructor with
    chain := [slot]
    rootField := some rootField
    movedFields := .ofList [(x, moved)] }]⟩

end ContextBinding
