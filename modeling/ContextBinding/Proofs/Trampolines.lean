import ContextBinding.Proofs.Conclusion
import ContextBinding.Proofs.Emission
import ContextBinding.Proofs.Forwarding
import ContextBinding.Proofs.Recoding
import ContextBinding.Proofs.Sharing

/-! What capture records forward at the end of a run. Their methods are made for methods that were
given the root, and nothing that comes later touches them: no edge of the graph leads to them, so that
no batch visits them, and none of them stands in for a method. -/

namespace ContextBinding

namespace CaptureRecord

/-- The method `m` of a record was made when the program was `p`, to forward to `replacement` what
`source` takes. -/
structure Made (r : CaptureRecord) (p : Program) (replacement : MethodId) (source m : MethodDef) :
    Prop where
  params : m.params = source.params
  isStatic : m.isStatic = false
  body : ∃ target, m.body = some (.fresh (r.forwardingCode p target replacement m.params.length))
  receiver : ∀ type ∈ r.key.receiver, (p.type? type).isSome

/-- The method `forward` of a record is as it was made for a method that `replacement` stands in
for. -/
def Relays (r : CaptureRecord) (p : Program) (bindings : BindingMap)
    (replacement forward : MethodId) : Prop :=
  ∃ b source q m, bindings.get? b.method = some b ∧ b.replacement = replacement ∧
    b.mode = .addedParameter ∧ q.Grows p ∧ q.method? b.method = some source ∧
    p.method? forward = some m ∧ r.Made q replacement source m

/-- So it stays, as it is in `Q` and not marked as standing in for any method. -/
structure Keeper (r : CaptureRecord) (p : Program) (bindings : BindingMap) (Q : MethodId → Prop)
    (replacement forward : MethodId) : Prop where
  relays : r.Relays p bindings replacement forward
  within : Q forward
  unmarked : ∀ m, p.method? forward = some m → m.isContextReplacement = false

/-- A record stores what its key says, and its methods forward. -/
structure Sound (r : CaptureRecord) (p : Program) (bindings : BindingMap) (Q : MethodId → Prop) :
    Prop where
  shaped : r.Shaped
  receiver : ∀ type ∈ r.key.receiver, (p.type? type).isSome
  entries : ∀ replacement forward, (replacement, forward) ∈ r.trampolines.entries →
    r.Keeper p bindings Q replacement forward

variable {r r' : CaptureRecord} {p q : Program} {bindings bindings' : BindingMap}
  {Q Q' : MethodId → Prop} {l : License} {replacement forward : MethodId}

/-- Where the types of a program are kept, the receiver of a record is found as before. -/
theorem receiver?_later (hGrows : p.Grows q)
    (hReceiver : ∀ type ∈ r.key.receiver, (p.type? type).isSome) :
    r.receiver? p = r.receiver? q := by
  unfold receiver?
  cases r.receiverField with
  | none => rfl
  | some field =>
      cases hType : r.key.receiver with
      | none => rfl
      | some type =>
          obtain ⟨t, hThere⟩ := Option.isSome_iff_exists.mp (hReceiver type hType)
          obtain ⟨t', hThere', hSame⟩ := hGrows.type hThere
          have hValue : q.isValueType (.named type) = p.isValueType (.named type) := by
            simp [Program.isValueType, hThere, hThere', TypeDef.isValueType, hSame.flags]
          simp only [hValue]

/-- As long as its code is left alone, a method forwards what it did. -/
theorem Relays.later (h : r.Relays p bindings replacement forward) (hGrows : p.Grows q)
    (hBindings : bindings.Extends bindings') (hCode : ∀ m m', p.method? forward = some m →
      q.method? forward = some m' → m'.body = m.body) :
    r.Relays q bindings' replacement forward := by
  obtain ⟨b, source, q₀, m, hGet, hStands, hMode, hBefore, hSource, hForward, hMade⟩ := h
  obtain ⟨m', hForward', hSame⟩ := hGrows.method hForward
  obtain ⟨target, hBody⟩ := hMade.body
  have hParams : m'.params = m.params := hSame.params
  refine ⟨b, source, q₀, m', hBindings _ _ hGet, hStands, hMode, hBefore.trans hGrows, hSource,
    hForward', hParams.trans hMade.params, hSame.isStatic.trans hMade.isStatic, ⟨target, ?_⟩,
    hMade.receiver⟩
  rw [hCode m m' hForward hForward', hBody, hParams]

theorem Keeper.later (h : r.Keeper p bindings Q replacement forward) (hGrows : p.Grows q)
    (hSteady : p.Steady l q) (hBindings : bindings.Extends bindings')
    (hCode : ∀ id m m', Q id → p.method? id = some m → m.isContextReplacement = false →
      q.method? id = some m' → m'.body = m.body) :
    r.Keeper q bindings' Q replacement forward where
  relays := h.relays.later hGrows hBindings fun m m' hForward =>
    hCode forward m m' h.within hForward (h.unmarked m hForward)
  within := h.within
  unmarked m' hForward' := by
    obtain ⟨-, -, -, m, -, -, -, -, -, hForward, -⟩ := h.relays
    obtain ⟨m'', hForward'', hStep⟩ := hSteady.methods forward m hForward
    obtain rfl : m' = m'' := Option.some_inj.mp (hForward'.symm.trans hForward'')
    exact hStep.marked.trans (h.unmarked m hForward)

/-- So does a record. -/
theorem Sound.later (h : r.Sound p bindings Q) (hGrows : p.Grows q) (hSteady : p.Steady l q)
    (hBindings : bindings.Extends bindings') (hCode : ∀ id m m', Q id → p.method? id = some m →
      m.isContextReplacement = false → q.method? id = some m' → m'.body = m.body) :
    r.Sound q bindings' Q where
  shaped := h.shaped
  receiver type hType := by
    obtain ⟨t, hThere⟩ := Option.isSome_iff_exists.mp (h.receiver type hType)
    obtain ⟨t', hThere', -⟩ := hGrows.type hThere
    exact Option.isSome_iff_exists.mpr ⟨t', hThere'⟩
  entries replacement forward hEntry :=
    (h.entries replacement forward hEntry).later hGrows hSteady hBindings hCode

/-- It is enough to tell of the methods of a record what is to hold of `Q`. -/
theorem Sound.mono (h : r.Sound p bindings Q) (hQ : ∀ id m, Q id → p.method? id = some m →
    m.isContextReplacement = false → Q' id) : r.Sound p bindings Q' :=
  { h with
    entries := fun replacement forward hEntry => by
      have hKeeper := h.entries replacement forward hEntry
      obtain ⟨-, -, -, m, -, -, -, -, -, hForward, -⟩ := hKeeper.relays
      exact { hKeeper with
        within := hQ forward m hKeeper.within hForward (hKeeper.unmarked m hForward) } }

/-- A record that is new forwards nothing yet. -/
theorem synthesize_sound {root : TypeId} {key : RecordKey} (h : synthesize root key p = .ok r q) :
    r.Sound q bindings Q := by
  obtain ⟨rfl, -, hProgram, hShaped, hNone, hReceiver⟩ := synthesize_ok h
  refine ⟨hShaped, fun type hType => ?_, fun replacement forward hEntry => ?_⟩
  · obtain ⟨t, hThere⟩ := Option.isSome_iff_exists.mp (hReceiver type hType)
    obtain ⟨t', hThere', -⟩ := hProgram.grows.type hThere
    exact Option.isSome_iff_exists.mpr ⟨t', hThere'⟩
  · rw [hNone] at hEntry
    exact (List.not_mem_nil hEntry).elim

/-- What else a record forwards to, and which methods use it, does not matter. -/
theorem Keeper.edit (h : r.Keeper p bindings Q replacement forward)
    (trampolines : Table MethodId MethodId) (users : List MethodId) :
    Keeper { r with trampolines, users } p bindings Q replacement forward := by
  obtain ⟨b, source, q, m, hGet, hStands, hMode, hGrows, hSource, hForward, hMade⟩ := h.relays
  have hMade' : Made { r with trampolines, users } q replacement source m :=
    ⟨hMade.params, hMade.isStatic, hMade.body, hMade.receiver⟩
  exact ⟨⟨b, source, q, m, hGet, hStands, hMode, hGrows, hSource, hForward, hMade'⟩, h.within,
    h.unmarked⟩

/-- A record may forward to one more method. -/
theorem Sound.insert (h : r.Sound p bindings Q)
    (hKeeper : r.Keeper p bindings Q replacement forward) :
    Sound { r with trampolines := r.trampolines.insert replacement forward } p bindings Q := by
  refine ⟨h.shaped, h.receiver, fun other method hEntry => Keeper.edit ?_ _ r.users⟩
  rcases Table.mem_entries_insert hEntry with hNew | hOld
  · obtain ⟨rfl, rfl⟩ := Prod.mk.inj hNew
    exact hKeeper
  · exact h.entries other method hOld

/-- The method that is made for a bound method forwards what that takes. -/
theorem trampoline_sound {b : Binding}
    (h : r.trampoline b.method b.replacement p = .ok (forward, r') q) (hSound : r.Sound p bindings Q)
    (hFresh : ∀ id : MethodId, p.methods.length ≤ id.index → Q id)
    (hBound : bindings.get? b.method = some b) (hMode : b.mode = .addedParameter) :
    r'.Sound q bindings Q := by
  rcases trampoline_cases h with ⟨-, rfl, rfl⟩ |
    ⟨-, rfl, hProgram, rfl, source, target, hSource, -, hForward⟩
  · exact hSound
  · have hLater : r.Sound q bindings Q := hSound.later hProgram.grows hProgram.steady (refl _)
      fun id m m' _ hMethod _ hMethod' => (hProgram.sameBody hMethod hMethod').resolve_right not_false
    obtain ⟨hStatic, hUnmarked⟩ := r.forwarder_plain p source target b.replacement
    have hMade : r.Made p b.replacement source (r.forwarder p source target b.replacement) :=
      ⟨rfl, hStatic, ⟨target, rfl⟩, hSound.receiver⟩
    refine hLater.insert ⟨?_, hFresh _ (Nat.le_refl _), fun m hMethod => ?_⟩
    · exact ⟨b, source, p, _, hBound, rfl, hMode, hProgram.grows, hSource, hForward, hMade⟩
    · obtain rfl := Option.some_inj.mp (hMethod.symm.trans hForward)
      exact hUnmarked

end CaptureRecord

/-- All records are sound. -/
def Closures.Sound (c : Closures) (p : Program) (bindings : BindingMap) (Q : MethodId → Prop) :
    Prop :=
  ∀ r ∈ c.records.values, r.Sound p bindings Q

/-- All methods that are still to come are in `Q`. -/
def Program.Outside (p : Program) (Q : MethodId → Prop) : Prop :=
  ∀ id : MethodId, p.methods.length ≤ id.index → Q id

theorem Program.Outside.later {p q : Program} {Q : MethodId → Prop} (h : p.Outside Q)
    (hGrows : p.Grows q) : q.Outside Q :=
  fun id hNew => h id (hGrows.methods.length_le.trans hNew)

namespace Closures.Sound

variable {c c' : Closures} {p q : Program} {bindings bindings' : BindingMap}
  {Q Q' : MethodId → Prop} {l : License}

theorem later (h : c.Sound p bindings Q) (hRecords : c'.records = c.records) (hGrows : p.Grows q)
    (hSteady : p.Steady l q) (hBindings : bindings.Extends bindings')
    (hCode : ∀ id m m', Q id → p.method? id = some m → m.isContextReplacement = false →
      q.method? id = some m' → m'.body = m.body) : c'.Sound q bindings' Q :=
  fun r hMem => (h r (hRecords ▸ hMem)).later hGrows hSteady hBindings hCode

theorem mono (h : c.Sound p bindings Q) (hQ : ∀ id m, Q id → p.method? id = some m →
    m.isContextReplacement = false → Q' id) : c.Sound p bindings Q' :=
  fun r hMem => (h r hMem).mono hQ

theorem putRecord (h : c.Sound p bindings Q) {r : CaptureRecord} (hRecord : r.Sound p bindings Q) :
    (c.putRecord r).Sound p bindings Q := by
  intro other hMem
  rcases Table.mem_values_insert hMem with rfl | hOld
  · exact hRecord
  · exact h other hOld

/-- Where no method of a record is edited, records stay sound. -/
theorem rewrites (h : c.Sound p bindings Q) {S : MethodId → Prop} {N : TypeId → Prop}
    (hProgram : p.Rewrites S N q) (hOther : ∀ id, S id → ¬ Q id) : c.Sound q bindings Q :=
  h.later rfl hProgram.grows hProgram.steady (refl _) fun id _ _ hIn hMethod _ hMethod' =>
    (hProgram.sameBody hMethod hMethod').resolve_right fun hEdited => hOther id hEdited hIn

end Closures.Sound

namespace ClosureEdit

variable {α : Type} {bindings : BindingMap} {Q S : MethodId → Prop} {s t : Closures × Workspace}

/-- A step keeps records sound, as long as all new methods may be theirs. -/
def KeepsSound (bindings : BindingMap) (Q : MethodId → Prop) (s t : Closures × Workspace) : Prop :=
  s.2.program.Outside Q → s.1.Sound s.2.program bindings Q →
    t.2.program.Outside Q ∧ t.1.Sound t.2.program bindings Q

instance : IsPreorder (Closures × Workspace) (KeepsSound bindings Q) where
  refl _ hOutside hSound := ⟨hOutside, hSound⟩
  trans _ _ _ h h' hOutside hSound :=
    h' (h hOutside hSound).1 (h hOutside hSound).2

theorem sound_work (hOther : ∀ id, S id → ¬ Q id) : WorkKeeps S (KeepsSound bindings Q) := by
  intro α e h s a t hRun hOutside hSound
  obtain ⟨w, hEdit, rfl⟩ := work_ok.mp hRun
  have hProgram := h (fun _ => False) hEdit
  exact ⟨hOutside.later hProgram.grows, hSound.rewrites hProgram hOther⟩

/-- A record that is requested is sound. -/
theorem record_sound {key : RecordKey} {r : CaptureRecord} (h : record key s = .ok r t)
    (hOutside : s.2.program.Outside Q) (hSound : s.1.Sound s.2.program bindings Q) :
    t.2.program.Outside Q ∧ t.1.Sound t.2.program bindings Q ∧
      r.Sound t.2.program bindings Q := by
  obtain ⟨c, _, hClosures, h⟩ := Step.bind_ok.mp h
  obtain ⟨rfl, rfl⟩ := closures_ok.mp hClosures
  cases hKnown : s.1.records.get? key with
  | some known =>
      simp only [hKnown] at h
      obtain ⟨rfl, rfl⟩ := Step.pure_ok.mp h
      exact ⟨hOutside, hSound, hSound known (Table.mem_values_of_get? hKnown)⟩
  | none =>
      simp only [hKnown] at h
      obtain ⟨new, _, hEdit, h⟩ := Step.bind_ok.mp h
      obtain ⟨p, hNew, rfl⟩ := edit_ok.mp hEdit
      obtain ⟨_, _, hUpdate, h⟩ := Step.bind_ok.mp h
      obtain rfl := update_ok.mp hUpdate
      obtain ⟨rfl, rfl⟩ := Step.pure_ok.mp h
      obtain ⟨-, -, hProgram, -⟩ := CaptureRecord.synthesize_ok hNew
      have hRecord : new.Sound p bindings Q := CaptureRecord.synthesize_sound hNew
      exact ⟨hOutside.later hProgram.grows,
        (hSound.rewrites hProgram fun _ => False.elim).putRecord hRecord, hRecord⟩

/-- Providing the record for a capture keeps records sound. -/
theorem sound_recordFor {method : MethodId} {receiver : Option TypeId} {b : Binding}
    (hBound : bindings.get? b.method = some b) (hMode : b.mode = .addedParameter) :
    Keeps (KeepsSound bindings Q) (recordFor method receiver b) := by
  intro s made t h hOutside hSound
  obtain ⟨r, s₁, hRecord, h⟩ := Step.bind_ok.mp h
  obtain ⟨hOutside, hSound, hr⟩ := record_sound hRecord hOutside hSound
  obtain ⟨⟨forward, r'⟩, _, hEdit, h⟩ := Step.bind_ok.mp h
  obtain ⟨p, hForward, rfl⟩ := edit_ok.mp hEdit
  obtain ⟨_, _, hUpdate, h⟩ := Step.bind_ok.mp h
  obtain rfl := update_ok.mp hUpdate
  obtain ⟨-, rfl⟩ := Step.pure_ok.mp h
  obtain ⟨-, -, hProgram⟩ := CaptureRecord.trampoline_ok hForward
  have hr' := CaptureRecord.trampoline_sound hForward hr hOutside hBound hMode
  refine ⟨hOutside.later hProgram.grows, ?_⟩
  refine (hSound.rewrites hProgram fun _ => False.elim).putRecord ⟨hr'.shaped, hr'.receiver, ?_⟩
  exact fun replacement method hEntry => (hr'.entries replacement method hEntry).edit _ _

/-- So does adapting a capture in code that no record has. -/
theorem sound_adaptCapture {plan : ContextPlan} {site : RootedMethod} {pointer : InstrId}
    {b : Binding} (hOther : ¬ Q site.method) (hBound : bindings.get? b.method = some b) :
    Keeps (KeepsSound bindings Q) (adaptCapture plan site pointer b) := by
  refine adaptCapture_keeps (S := (· = site.method)) rfl (sound_work ?_) (Keeps.modify ?_)
    fun hMode receiver => sound_recordFor hBound hMode
  · rintro id rfl
    exact hOther
  · exact fun s hOutside hSound => ⟨hOutside, hSound⟩

theorem sound_storeDisplayRoot {site : RootedMethod} {id : InstrId} {field : FieldId}
    (hOther : ¬ Q site.method) : Keeps (KeepsSound bindings Q) (storeDisplayRoot site id field) := by
  refine storeDisplayRoot_keeps (S := (· = site.method)) rfl (sound_work ?_)
  rintro id rfl
  exact hOther

end ClosureEdit

namespace Propagation

/-- The capture records stay as they are. -/
def SameRecords (s t : Propagation) : Prop := t.closures.records = s.closures.records

instance : IsPreorder Propagation SameRecords where
  refl _ := rfl
  trans _ _ _ h h' := Eq.trans h' h

end Propagation

namespace ClosureEdit

variable {α : Type} {s t : Closures × Workspace}

/-- Copying display classes leaves the capture records alone. -/
theorem records_relocateDisplayClasses {method : MethodId} {holder generated : TypeId}
    {ids : List MethodId} (h : relocateDisplayClasses method holder generated s = .ok ids t) :
    t.1.records = s.1.records := by
  let R (s t : Closures × Workspace) : Prop := t.1.records = s.1.records
  have : IsPreorder (Closures × Workspace) R :=
    { refl := fun _ => rfl, trans := fun _ _ _ h h' => Eq.trans h' h }
  have hWork {β : Type} {e : CodeEdit β} : Keeps R (work e) := fun _ _ _ h => by
    obtain ⟨w, -, rfl⟩ := work_ok.mp h
    rfl
  refine (?_ : Keeps R (relocateDisplayClasses method holder generated)) h
  refine Keeps.bind hWork fun m => ?_
  split
  · exact Keeps.pure _
  · refine Keeps.bind hWork fun created => Keeps.bind (Keeps.mapM fun display _ => ?_) fun _ =>
      Keeps.pure _
    refine Keeps.bind closures_keeps fun c => ?_
    split
    · exact Keeps.bind hWork fun _ => Keeps.pure _
    · refine Keeps.bind (Keeps.bind hWork fun clone => ?_) fun clone => Keeps.bind hWork fun _ =>
        Keeps.pure _
      exact Keeps.bind (Keeps.modify fun _ => rfl) fun _ => Keeps.pure _

end ClosureEdit

namespace Propagate

open Propagation (SameRecords)

variable {α : Type} {s t : Propagation}

theorem records_work {e : CodeEdit α} : Keeps SameRecords (work e) := by
  intro s a t h
  obtain ⟨w, -, rfl⟩ := Step.focus_ok.mp h
  rfl

theorem records_graph {e : Program → GraphEdit α} : Keeps SameRecords (graph e) := by
  intro s a t h
  obtain ⟨v, -, rfl⟩ := graph_ok.mp h
  rfl

theorem records_bindMethod {b : Binding} : Keeps SameRecords (bindMethod b) := by
  intro s u t h
  obtain ⟨m, -, rfl⟩ := bindMethod_ok h
  rfl

theorem records_complete {bound : List (MethodId × MethodId)} :
    Keeps SameRecords (complete bound) :=
  keeps_complete (fun _ => records_work) records_graph (fun _ => records_graph)
    (fun _ => Keeps.modify fun _ => rfl) fun _ => Keeps.modify fun _ => rfl

theorem records_displayHandle? {method : MethodId} : Keeps SameRecords (displayHandle? method) := by
  intro s handle t h
  rcases displayHandle?_ok h with rfl | ⟨m, field, p, -, -, -, -, -, -, rfl⟩ <;> rfl

theorem records_adoptInitUnit {context : ContextId} {method replacement : MethodId} :
    Keeps SameRecords (adoptInitUnit context method replacement) := by
  intro s u t h
  obtain ⟨_, _, hGet, h⟩ := Step.bind_ok.mp h
  obtain ⟨rfl, rfl⟩ := Step.get_ok.mp hGet
  split at h
  · obtain ⟨_, s₁, hSet, h⟩ := Step.bind_ok.mp h
    obtain rfl := Step.set_ok.mp hSet
    split at h
    · rcases inlineInitUnit_ok h with rfl | ⟨_, s₂, hEdit, -, -, hDerive⟩
      · rfl
      · have hEdited : SameRecords _ s₂ := records_work hEdit
        exact (records_graph hDerive).trans hEdited
    · obtain ⟨-, rfl⟩ := Step.pure_ok.mp h
      rfl
  · obtain ⟨-, rfl⟩ := Step.pure_ok.mp h
    rfl

theorem records_convertOne {context : ContextId} {method : MethodId} :
    Keeps SameRecords (convertOne context method) := by
  refine Keeps.bind Keeps.get fun s => Keeps.ite (Keeps.pure _) ?_
  refine Keeps.bind (convertedReplacement_keeps fun _ => records_work) fun made => ?_
  have hRest : Keeps SameRecords (do
      adoptInitUnit context method made.1
      pure (some (method, made.1)) : Propagate (Option (MethodId × MethodId))) :=
    Keeps.bind records_adoptInitUnit fun _ => Keeps.pure _
  refine Keeps.bind records_bindMethod fun _ => Keeps.ite (Keeps.bind ?_ fun copied => ?_) hRest
  · intro s ids t h
    obtain ⟨v, hRelocate, rfl⟩ := Step.focus_ok.mp h
    exact ClosureEdit.records_relocateDisplayClasses hRelocate
  · exact Keeps.bind (Keeps.modify fun _ => rfl) fun _ => hRest

theorem records_addParameterTo {method : MethodId} :
    Keeps SameRecords (addParameterTo method) := by
  intro s made t h
  rcases addParameterTo_ok h with ⟨-, rfl, -⟩ | ⟨m, replacement, r, -, -, -, hStands, hBind⟩
  · rfl
  · refine IsTrans.trans _ _ _ ?_ (records_bindMethod hBind)
    rcases hStands with ⟨rfl, -⟩ | hCopy
    · rfl
    · exact makeCopy_keeps (R := SameRecords) (fun _ => records_work) hCopy

/-- Binding a method leaves the capture records alone. -/
theorem records_bindNeedy {method : MethodId} {places : List NeedySite} :
    Keeps SameRecords (bindNeedy method places) := by
  have hGroup {withOverrides : Bool} : Keeps SameRecords (bindingGroup method withOverrides) :=
    Keeps.bind Keeps.get fun _ => records_work
  have hConvert (context : ContextId) : Keeps SameRecords (convert method context) := by
    refine Keeps.bind Keeps.get fun s => Keeps.bind hGroup fun group => ?_
    refine Keeps.bind (Keeps.mapM fun _ _ => records_convertOne) fun made => ?_
    exact Keeps.bind (Keeps.forM fun _ _ => alignProperty_keeps fun _ => records_work) fun _ =>
      records_complete
  have hAdd : Keeps SameRecords (addParameter method) := by
    refine Keeps.bind hGroup fun group => Keeps.bind (Keeps.forM fun _ _ => ?_) fun _ => ?_
    · refine Keeps.bind Keeps.get fun s => ?_
      split
      · exact Keeps.throw _
      · exact Keeps.pure _
    · refine Keeps.bind (Keeps.mapM fun _ _ => records_addParameterTo) fun made => ?_
      refine Keeps.bind (Keeps.forM fun _ _ => mapOverrides_keeps fun _ => records_work) fun _ => ?_
      exact Keeps.bind (Keeps.forM fun _ _ => alignProperty_keeps fun _ => records_work) fun _ =>
        records_complete
  refine Keeps.bind records_work fun m => Keeps.bind Keeps.get fun s => ?_
  split
  · exact Keeps.ite (hConvert _) hAdd
  · exact hAdd

theorem records_bindReplacements : Keeps SameRecords bindReplacements := by
  refine Keeps.bind Keeps.get fun s => Keeps.bind (Keeps.mapM fun b _ => ?_) fun made =>
    records_complete
  refine Keeps.bind records_work fun m => Keeps.ite (Keeps.pure _) ?_
  exact Keeps.bind records_bindMethod fun _ => Keeps.pure _

end Propagate

namespace Propagation

/-- A step keeps records sound, as long as all new methods may be theirs. -/
def KeepsSound (bindings : BindingMap) (Q : MethodId → Prop) (s t : Propagation) : Prop :=
  s.program.Outside Q → s.closures.Sound s.program bindings Q →
    t.program.Outside Q ∧ t.closures.Sound t.program bindings Q

variable {bindings : BindingMap} {Q : MethodId → Prop} {p : Program} {plan : ContextPlan}
  {s t : Propagation} {id : MethodId}

instance : IsPreorder Propagation (KeepsSound bindings Q) where
  refl _ hOutside hSound := ⟨hOutside, hSound⟩
  trans _ _ _ h h' hOutside hSound := h' (h hOutside hSound).1 (h hOutside hSound).2

end Propagation

/-- The methods that a plan names and that the check of it does not look up are there, too. -/
structure ContextPlan.Names (plan : ContextPlan) (p : Program) : Prop where
  rootConstructor : (p.method? plan.rootConstructor).isSome
  replacements : ∀ c ∈ plan.contexts, ∀ id ∈ c.replacementMethods.values, (p.method? id).isSome

instance (plan : ContextPlan) (p : Program) : Decidable (plan.Names p) :=
  decidable_of_iff ((p.method? plan.rootConstructor).isSome ∧
      ∀ c ∈ plan.contexts, ∀ id ∈ c.replacementMethods.values, (p.method? id).isSome)
    ⟨fun h => ⟨h.1, h.2⟩, fun h => ⟨h.rootConstructor, h.replacements⟩⟩

namespace ContextPlan

variable {plan : ContextPlan} {p : Program} {b : Binding}

/-- What contexts bring along was there. -/
theorem Names.brings (h : plan.Names p) (hBrings : plan.Brings b) :
    b.replacement.index < p.methods.length := by
  obtain ⟨context, -, hMem⟩ := hBrings
  unfold ContextPlan.context at hMem
  cases hThere : plan.context? context with
  | none =>
      rw [hThere] at hMem
      exact (List.not_mem_nil hMem).elim
  | some c =>
      rw [hThere, Option.getD_some] at hMem
      obtain ⟨m, hMethod⟩ := Option.isSome_iff_exists.mp
        (h.replacements c (List.mem_of_getElem? hThere) _ hMem)
      exact (List.getElem?_eq_some_iff.mp hMethod).1

end ContextPlan

namespace Propagation

variable {bindings : BindingMap} {Q : MethodId → Prop} {p : Program} {plan : ContextPlan}
  {s t : Propagation} {id method : MethodId} {b : Binding}

/-- A method that came with the run and is not marked stands in for none. -/
theorem Fitting.not_standsIn (h : Fitting plan s) (hNames : plan.Names p)
    (hNew : p.methods.length ≤ id.index) {m : MethodDef} (hMethod : s.program.method? id = some m)
    (hUnmarked : m.isContextReplacement = false) : ¬ s.bindings.StandsIn id := by
  rintro ⟨method, b, hGet, rfl⟩
  rcases h.fits method b hGet with hBrings | ⟨-, m', -, hStands, hMark, -⟩
  · exact absurd (hNames.brings hBrings) (Nat.not_lt.mpr hNew)
  · obtain rfl := Option.some_inj.mp (hMethod.symm.trans hStands)
    cases hUnmarked.symm.trans hMark

/-- What stands in for a method that is given the root takes one more than the method. -/
theorem Fits.added (h : Fits plan p method b) (hMode : b.mode = .addedParameter) :
    ∃ m m', p.method? method = some m ∧ p.method? b.replacement = some m' ∧
      m'.params.length = m.params.length + 1 ∧ m'.isStatic = m.isStatic := by
  obtain ⟨m, m', hMethod, hStands, -, hSeat, -⟩ := h
  rw [hMode] at hSeat
  obtain ⟨-, hPlace⟩ := Prod.mk.inj hSeat
  obtain ⟨hParams, hStatic⟩ := Prod.mk.inj hPlace
  have hLength := congrArg List.length hParams
  simp only [MethodDef.paramTypes, List.length_map, List.length_cons] at hLength
  exact ⟨m, m', hMethod, hStands, hLength, hStatic⟩

/-- A method came with the run, and is not visited any more unless it is bound. -/
def Spared (p : Program) (c : Point) (id : MethodId) : Prop :=
  p.methods.length ≤ id.index ∧
    (c.2.Known (c.1.getD []) id → ∃ b, c.2.bindings.get? id = some b)

/-- What holds of every point of a run: what stands in for methods fits, and records are sound, none
of whose methods is visited any more. -/
structure Untouched (p : Program) (plan : ContextPlan) (c : Point) : Prop where
  underway : Underway p c.2
  shape : c.2.plan.shape = plan.shape
  fitting : Fitting plan c.2
  start : c.1 = none → c.2.closures.records = ∅
  sound : c.2.closures.Sound c.2.program c.2.bindings (Spared p c)

theorem not_constructs (hContexts : ∀ c ∈ plan.contexts, (p.method? c.constructor).isSome)
    (hShape : s.plan.shape = plan.shape) (hNew : p.methods.length ≤ id.index) :
    ¬ s.Constructs id := by
  intro hConstructs
  obtain ⟨c, hMem, rfl⟩ := hConstructs.earlier (s := .start p plan default) hShape
  obtain ⟨m, hMethod⟩ := Option.isSome_iff_exists.mp (hContexts c hMem)
  exact absurd (List.getElem?_eq_some_iff.mp hMethod).1 (Nat.not_lt.mpr hNew)

/-- A method stays spared that stands in for none. -/
theorem Settles.bound {copying : Prop} {ahead : List MethodId} (h : s.Settles copying ahead t)
    (hSpared : s.Known ahead id → ∃ b, s.bindings.get? id = some b) (hOther : ¬ s.Constructs id)
    (hStands : ¬ t.bindings.StandsIn id) (hOld : copying → id.index < s.program.methods.length)
    (hKnown : t.Known ahead id) : ∃ b, t.bindings.get? id = some b := by
  rcases h.known hKnown with hKnown | hConstructs | (hBound | hTaken) | ⟨hCopying, hNew, -⟩
  · obtain ⟨b, hGet⟩ := hSpared hKnown
    exact ⟨b, h.bindings id b hGet⟩
  · exact (hOther hConstructs).elim
  · exact hBound
  · exact (hStands hTaken).elim
  · exact absurd (hOld hCopying) (Nat.not_lt.mpr hNew)

end Propagation

namespace Propagate

open Propagation

variable {α : Type} {bindings : BindingMap} {Q : MethodId → Prop} {site : RootedMethod}

theorem sound_closures {e : ClosureEdit α} (h : Keeps (ClosureEdit.KeepsSound bindings Q) e) :
    Keeps (KeepsSound bindings Q) (closures e) := by
  intro s a t hRun
  obtain ⟨u, hEdit, rfl⟩ := Step.focus_ok.mp hRun
  exact h hEdit

theorem sound_graph {e : Program → GraphEdit α} : Keeps (KeepsSound bindings Q) (graph e) := by
  intro s a t h
  obtain ⟨v, -, rfl⟩ := graph_ok.mp h
  exact fun hOutside hSound => ⟨hOutside, hSound⟩

/-- Adapting code that no record has keeps records sound. -/
theorem sound_adaptSite {place : NeedySite} (hOther : ¬ Q site.method)
    (hCapture : ∀ b, place.need = .capture b → bindings.get? b.method = some b) :
    Keeps (KeepsSound bindings Q) (adaptSite site place) := by
  refine adaptSite_keeps (S := (· = site.method)) rfl ⟨fun h s a t hRun => ?_, fun _ _ => ?_⟩
    (fun plan b hNeed => ?_) fun field => ?_
  · obtain ⟨w, hEdit, rfl⟩ := Step.focus_ok.mp hRun
    have hProgram := h (fun _ => False) hEdit
    intro hOutside hSound
    refine ⟨hOutside.later hProgram.grows, hSound.rewrites hProgram ?_⟩
    rintro id rfl
    exact hOther
  · exact Keeps.modify fun _ hOutside hSound => ⟨hOutside, hSound⟩
  · exact sound_closures (ClosureEdit.sound_adaptCapture hOther (hCapture b hNeed))
  · exact sound_closures (ClosureEdit.sound_storeDisplayRoot hOther)

theorem sound_adaptInPlace {places : List NeedySite} (hOther : ¬ Q site.method)
    (hCapture : ∀ place ∈ places, ∀ b, place.need = .capture b → bindings.get? b.method = some b) :
    Keeps (KeepsSound bindings Q) (adaptInPlace site places) := by
  refine Keeps.bind (Keeps.mapM fun place hMem => sound_adaptSite hOther (hCapture place hMem))
    fun outcomes => Keeps.ite (Keeps.bind (Keeps.modify ?_) fun _ => sound_graph) (Keeps.pure _)
  exact fun _ hOutside hSound => ⟨hOutside, hSound⟩

theorem sound_displayHandle? {method : MethodId} :
    Keeps (KeepsSound bindings Q) (displayHandle? method) := by
  intro s handle t h hOutside hSound
  rcases displayHandle?_ok h with rfl | ⟨m, field, p, -, -, -, -, -, hField, rfl⟩
  · exact ⟨hOutside, hSound⟩
  · have hProgram : s.program.Rewrites (fun _ => False) (fun _ => False) p :=
      Program.keeps_addField hField
    exact ⟨hOutside.later hProgram.grows, hSound.rewrites hProgram fun _ => False.elim⟩

variable {p : Program} {plan : ContextPlan} {s t : Propagation} {c d : Point}

/-- A visit keeps records sound. -/
theorem visit_sound {method : MethodId} {rest : List MethodId} {u : Unit}
    (h : visit method s = .ok u t) (hContexts : ∀ c ∈ plan.contexts, (p.method? c.constructor).isSome)
    (hNames : plan.Names p) (hRegular : s.Regular (method :: rest))
    (hBefore : Untouched p plan (some (method :: rest), s)) (hLater : s.Progresses t)
    (hFitting : Fitting plan t) :
    t.closures.Sound t.program t.bindings (Spared p (some rest, t)) := by
  let Q := Spared p (some (method :: rest), s)
  have hOutside : s.program.Outside Q := fun id hNew => by
    refine ⟨hBefore.underway.grows.methods.length_le.trans hNew, fun hKnown => ?_⟩
    obtain ⟨m, hMethod⟩ := hRegular.present id hKnown
    exact absurd (List.getElem?_eq_some_iff.mp hMethod).1 (Nat.not_lt.mpr hNew)
  have hAhead {id : MethodId} (hKnown : t.Known rest id) : t.Known (method :: rest) id :=
    hKnown.imp_left (List.mem_cons_of_mem method)
  -- Once records are sound, their methods are still spared.
  have hSpared {copying : Prop} (hSettles : s.Settles copying (method :: rest) t)
      (hSound : t.closures.Sound t.program t.bindings
        fun id => Q id ∧ (copying → id.index < s.program.methods.length)) :
      t.closures.Sound t.program t.bindings (Spared p (some rest, t)) := by
    refine hSound.mono fun id m hIn hMethod hUnmarked => ⟨hIn.1.1, fun hKnown => ?_⟩
    exact hSettles.bound hIn.1.2 (not_constructs hContexts hBefore.shape hIn.1.1)
      (hFitting.not_standsIn hNames hIn.1.1 hMethod hUnmarked) hIn.2 (hAhead hKnown)
  have hVisited : s.Settles False (method :: rest) s.visited := visited_settles hRegular
  have hMem : method ∈ method :: rest := List.mem_cons_self ..
  have hInPlace {v : Propagation} {handle : HandleSource} {b : MethodBody}
      (hFree : s.bindings.isBound method = false) (hAdapt : adaptInPlace ⟨method, handle⟩ (s.places b)
        v = .ok () t) (hSettles : s.Settles False (method :: rest) v)
      (hSame : v.bindings = s.bindings) (hSound : s.visited.KeepsSound s.bindings Q v) :
      t.closures.Sound t.program t.bindings (Spared p (some rest, t)) := by
    have hOther : ¬ Q method := fun hIn => by
      obtain ⟨b, hGet⟩ := hIn.2 (Or.inl hMem)
      simp [BindingMap.isBound, hGet] at hFree
    have hCapture : ∀ place ∈ s.places b, ∀ b, place.need = .capture b →
        s.bindings.get? b.method = some b := fun place hPlace b hNeed => by
      obtain ⟨i, -, -, hScanned⟩ := NeedySite.mem_scan.mp hPlace
      have hReason := NeedySite.reason_of_needOf? hScanned
      rw [hNeed] at hReason
      obtain ⟨-, target, -, hGet⟩ := hReason
      exact hBefore.fitting.keyed b (Table.mem_values_of_get? hGet)
    obtain ⟨hOutside, hSound⟩ := hSound hOutside hBefore.sound
    obtain ⟨-, hSound⟩ := sound_adaptInPlace hOther hCapture hAdapt hOutside hSound
    have hBindings : t.bindings = s.bindings := (same_adaptInPlace hAdapt).trans hSame
    refine hSpared (hSettles.trans (adaptInPlace_settles hAdapt hSettles.regular hMem)) ?_
    rw [hBindings]
    exact hSound.mono fun id m hIn _ _ => ⟨hIn, False.elim⟩
  have hIdle (hEnd : s.visited = t) :
      t.closures.Sound t.program t.bindings (Spared p (some rest, t)) := by
    subst hEnd
    exact hSpared hVisited (hBefore.sound.mono fun id m hIn _ _ => ⟨hIn, False.elim⟩)
  cases visit_ok h with
  | skipped hDone hEnd => exact hIdle hEnd
  | settled b hLive hNone hEnd => exact hIdle hEnd
  | adapted b hLive hFree hSome handle hHandle hAdapt =>
      exact hInPlace hFree hAdapt hVisited rfl (refl _)
  | captured b hLive hFree hSome handle v hNone hDisplay hAdapt =>
      have hSame : SameBindings s.visited v := same_displayHandle? hDisplay
      exact hInPlace hFree hAdapt (hVisited.trans (settled_displayHandle? hDisplay hVisited.regular))
        hSame (sound_displayHandle? hDisplay)
  | bound b hLive hFree hSome hNone hBind =>
      have hRecodes : s.visited.Recodes (fun _ => False) t :=
        recodes_bindNeedy hBind hRegular.keyed
      have hRecords : SameRecords s.visited t := records_bindNeedy hBind
      have hOld : s.closures.Sound s.program s.bindings
          fun id => Q id ∧ (True → id.index < s.program.methods.length) :=
        hBefore.sound.mono fun id m hIn hMethod _ =>
          ⟨hIn, fun _ => (List.getElem?_eq_some_iff.mp hMethod).1⟩
      refine hSpared (visit_turns h hRegular hMem).settles ?_
      refine hOld.later hRecords hLater.grows hLater.steady hLater.bindings ?_
      intro id m m' hIn hMethod hUnmarked hMethod'
      obtain ⟨m'', hMethod'', hStep⟩ := hLater.steady.methods id m hMethod
      obtain rfl := Option.some_inj.mp (hMethod'.symm.trans hMethod'')
      rcases hRecodes.code id m m' hMethod hMethod' with hSame | hNever | hConstructs | hStands
      · exact hSame
      · exact hNever.elim
      · exact (not_constructs hContexts hBefore.shape hIn.1.1 hConstructs).elim
      · exact (hFitting.not_standsIn hNames hIn.1.1 hMethod' (hStep.marked.trans hUnmarked)
          hStands).elim

section Run

variable (hOwned : p.Owned) (hContexts : ∀ c ∈ plan.contexts, (p.method? c.constructor).isSome)
  (hNames : plan.Names p)
include hOwned hContexts hNames

/-- A step of a run leaves records sound and their methods untouched. -/
theorem moves_untouched (hMoves : Moves c d) (hRegular : c.2.Regular (c.1.getD []))
    (h : Untouched p plan c) : Untouched p plan d := by
  cases hMoves with
  | @given s t hRun =>
      have hLater : s.Progresses t := (bindReplacements_binds hRun).1 h.underway.keyed
      have hSeeded : t.Progresses t.seeded := { Progresses.refl hLater.keyed with }
      have hFits : Fitting plan t :=
        bindReplacements_fits hRun h.underway.keyed h.shape h.fitting
      have hNone : t.closures.records = ∅ := (records_bindReplacements hRun).trans (h.start rfl)
      have hSound : t.closures.Sound t.program t.bindings (Spared p (some [], t.seeded)) := by
        intro r hMem
        rw [hNone] at hMem
        exact (List.not_mem_nil hMem).elim
      exact ⟨(h.underway.later hLater).later hSeeded, hLater.plan.trans h.shape, { hFits with },
        nofun, hSound⟩
  | @opened s hSome =>
      have hOpened : s.Progresses s.opened := { Progresses.refl h.underway.keyed with }
      have hSpared (id : MethodId) (hSpared : Spared p (some [], s) id) :
          Spared p (some s.pending, s.opened) id :=
        hSpared.imp_right fun hBound hKnown => hBound hKnown.of_opened
      exact ⟨h.underway.later hOpened, h.shape, { h.fitting with }, nofun,
        h.sound.mono fun id _ hIn _ _ => hSpared id hIn⟩
  | @visited method rest s t hRun =>
      have hPreserved : Preserved p always fun s => s.plan.shape = plan.shape → Fitting plan s :=
        fitting_preserved hOwned
      obtain ⟨hLater, hFits⟩ := carries_visit hPreserved hRun h.underway.keyed
      have hShape := hLater.plan.trans h.shape
      have hFitting := hFits h.underway trivial (fun _ => h.fitting) hShape
      exact ⟨h.underway.later hLater, hShape, hFitting, nofun,
        visit_sound hRun hContexts hNames hRegular h hLater hFitting⟩

theorem reached_untouched {options : PropagationOptions} (h : Reached p plan options c) :
    Untouched p plan c := by
  obtain ⟨s, hBuild, hReaches⟩ := h
  induction hReaches with
  | refl =>
      have hUnderway := build_underway hBuild
      obtain ⟨v, -, rfl⟩ := graph_ok.mp hBuild
      exact ⟨hUnderway, rfl, fitting_of_free nofun, fun _ => rfl,
        fun r hMem => (List.not_mem_nil hMem).elim⟩
  | tail hReaches hMoves ih =>
      have hRegular := reached_regular ⟨s, hBuild, hReaches⟩
      exact moves_untouched hOwned hContexts hNames hMoves hRegular ih

/-- At the end of a run what stands in for methods fits, and the records are sound. -/
theorem run_sound {options : PropagationOptions} (h : propagate p plan options = .ok () t) :
    t.plan.shape = plan.shape ∧ Fitting plan t ∧
      t.closures.Sound t.program t.bindings fun id => p.methods.length ≤ id.index := by
  obtain ⟨s₁, s₂, s₃, s₄, hBuild, hGiven, hBatches, hRetire, rfl⟩ := run_iff.mp h
  have hReached : Reached p plan options (some [], s₃) :=
    ⟨s₁, hBuild, .head (.given hGiven) (Concludes.reaches (u := ()) (visitAll_concludes hBatches).1)⟩
  have hEnd := reached_untouched hOwned hContexts hNames hReached
  have hEdited : Edited (fun _ => False) s₃ s₄ := keeps_retireMovedFields hRetire
  have hLater : s₃.Progresses s₄ :=
    progresses_edited (S := fun _ => False) keeps_retireMovedFields hRetire hEnd.underway.keyed
  have hFits : Fitting plan s₄ := hEnd.fitting.later hLater.grows hLater.steady hEdited.bindings
  have hRecords : s₃.SameRecords s₄ := retireMovedFields_keeps (fun _ => records_work) hRetire
  have hMethods : s₃.program.SameMethods s₄.program := retireMovedFields_methods hRetire
  refine ⟨hLater.plan.trans hEnd.shape, { hFits with }, ?_⟩
  refine Closures.Sound.mono (Closures.Sound.later hEnd.sound hRecords hLater.grows hLater.steady
    hLater.bindings ?_) fun id m hIn _ _ => hIn.1
  intro id m m' _ hMethod _ hMethod'
  have hSame : s₄.program.method? id = s₃.program.method? id :=
    congrArg (fun methods => methods[id.index]?) hMethods
  obtain rfl := Option.some_inj.mp (hMethod.symm.trans (hSame.symm.trans hMethod'))
  rfl

end Run

end Propagate

namespace BinderConfig

open Propagation

variable {config : BinderConfig} {p : Program} {plan : ContextPlan} {t : BoundProgram}

/-- A method of a record of a successful run is there for methods that were given the root, and it
forwards what it takes for them where the record stores a receiver for instance methods and none for
static ones. Whether it does was decided by how callables were constructed. -/
theorem records_forward (h : config.run p plan = .ok t) (hOwned : p.Owned) (hNames : plan.Names p)
    {r : CaptureRecord} (hRecord : r ∈ t.report.records) {replacement forward : MethodId}
    (hEntry : (replacement, forward) ∈ r.trampolines.entries) :
    (∃ original, t.report.bindings.get? original
        = some ⟨original, replacement, .addedParameter⟩) ∧
      ∀ original, t.report.bindings.get? original
          = some ⟨original, replacement, .addedParameter⟩ →
        ∃ source, t.program.method? original = some source ∧
          (r.Forwards t.program original replacement forward ↔
            (r.key.receiver.isSome = true ↔ source.isStatic = false)) := by
  obtain ⟨hValid, s, hRun, hFinish⟩ := run_ok.mp h
  obtain ⟨-, -, -, -, -, hRecords, -⟩ := finish_iff.mp hFinish
  obtain ⟨-, -, hBindings, hRewrites⟩ := finish_ok hFinish
  have hContexts : ∀ c ∈ plan.contexts, (p.method? c.constructor).isSome := fun c hMem => by
    obtain ⟨i, hContext⟩ := List.mem_iff_getElem?.mp hMem
    have hContext : plan.context? ⟨i⟩ = some c := hContext
    exact (ContextPlan.validate_fits hValid hContext).constructor
  obtain ⟨hShape, hFitting, hSound⟩ := Propagate.run_sound hOwned hContexts hNames hRun
  have hRoot : s.plan.shape.rootConstructor = plan.shape.rootConstructor :=
    congrArg ContextPlan.rootConstructor hShape
  -- The root constructor was there before, and so it is none of the methods of records.
  have hEnd : s.closures.Sound t.program s.bindings fun id => p.methods.length ≤ id.index := by
    refine hSound.rewrites hRewrites fun id hFilled hNew => ?_
    obtain ⟨m, hMethod⟩ := Option.isSome_iff_exists.mp hNames.rootConstructor
    obtain rfl : id = plan.rootConstructor := hFilled.1.trans hRoot
    exact absurd (List.getElem?_eq_some_iff.mp hMethod).1 (Nat.not_lt.mpr hNew)
  have hFits {original : MethodId} {c : Binding} (hGet : s.bindings.get? original = some c)
      (hMode : c.mode = .addedParameter) : Fits plan t.program original c := by
    refine ((hFitting.fits original c hGet).resolve_left ?_).later hRewrites.grows hRewrites.steady
    rintro ⟨context, hConverted, -⟩
    cases hMode.symm.trans hConverted
  have hSoundRecord := hEnd r (hRecords ▸ hRecord)
  obtain ⟨⟨first, _, mode⟩, source₀, q, m, hGet, rfl, rfl, hBefore, hSource₀, hForward, hMade⟩ :=
    (hSoundRecord.entries replacement forward hEntry).relays
  rw [hBindings]
  refine ⟨⟨first, hGet⟩, fun original hGet' => ?_⟩
  obtain ⟨m₀, target, hMethod₀, hTarget, hLength, -⟩ := (hFits hGet rfl).added rfl
  obtain ⟨source, target', hSource, hTarget', -, hStatic⟩ := (hFits hGet' rfl).added rfl
  obtain rfl := Option.some_inj.mp (hTarget.symm.trans hTarget')
  have hParams : m₀.params = m.params :=
    (hBefore.method_persists hSource₀ hMethod₀).params.trans hMade.params.symm
  obtain ⟨called, hBody⟩ := hMade.body
  rw [hParams] at hLength
  exact ⟨source, hSource, CaptureRecord.forwards_iff hSoundRecord.shaped hSource hTarget hForward
    hMade.isStatic hBody (CaptureRecord.receiver?_later hBefore hMade.receiver) hLength hStatic⟩

end BinderConfig

section Examples

open Program

/-- A method that reads a static field that moves is captured together with an object. If it is
static, it takes the object as its parameter. -/
def capturing (isStatic : Bool) : Edit ContextPlan := do
  let (plan, x, owner, _) ← shapes
  let action ← addType "G" "Action" none (.ofList [.delegate])
  let constructor ← addMethod action ".ctor" [⟨"object", .object⟩, ⟨"method", .nativeInt⟩] .void
    (.ofList [.constructor])
  let invoke ← addMethod action "Invoke" [] .void (.ofList [.virtual])
  let target ← if isStatic then addMethod owner "f" [⟨"item", .object⟩] .void (.ofList [.static])
    else addMethod owner "f" [] .void ⟨0⟩
  setBody target (.fresh [.onField .ldsfld x, .plain .pop, .plain .ret])
  let user ← addMethod owner "User" [⟨"item", .named owner⟩] .void (.ofList [.static])
  setBody user (.fresh [.onArg .ldarg 0, .onMethod .ldftn target, .onMethod .newobj constructor,
    .onMethod .callvirt invoke, .plain .ret])
  pure plan

/-- The stored object is handed to the instance method. -/
theorem capturing_forwards :
    ∃ t, (default : BinderConfig).run (built (capturing false)).1 (built (capturing false)).2 = .ok t ∧
      ∃ r ∈ t.report.records, (⟨6⟩, ⟨9⟩) ∈ r.trampolines.entries ∧
        t.report.bindings.get? ⟨4⟩ = some ⟨⟨4⟩, ⟨6⟩, .addedParameter⟩ ∧
        r.Forwards t.program ⟨4⟩ ⟨6⟩ ⟨9⟩ := by
  have hCheck : Outcome.yields
      ((default : BinderConfig).run (built (capturing false)).1 (built (capturing false)).2)
      (fun t => decide (∃ r ∈ t.report.records, (⟨6⟩, ⟨9⟩) ∈ r.trampolines.entries ∧
        t.report.bindings.get? ⟨4⟩ = some ⟨⟨4⟩, ⟨6⟩, .addedParameter⟩ ∧
        r.key.receiver.isSome = true ∧
        (t.program.method? ⟨4⟩).map (·.isStatic) = some false)) = true := by decide +kernel
  obtain ⟨t, hRun, hCheck⟩ := Outcome.ok_of_yields hCheck
  obtain ⟨r, hRecord, hEntry, hGet, hReceiver, hKind⟩ := of_decide_eq_true hCheck
  have hOwned : (built (capturing false)).1.Owned := by decide +kernel
  have hNames : (built (capturing false)).2.Names (built (capturing false)).1 := by decide +kernel
  obtain ⟨-, hForwards⟩ := BinderConfig.records_forward hRun hOwned hNames hRecord hEntry
  obtain ⟨source, hSource, hIff⟩ := hForwards ⟨4⟩ hGet
  rw [hSource] at hKind
  have hInstance : source.isStatic = false := Option.some_inj.mp hKind
  exact ⟨t, hRun, r, hRecord, hEntry, hGet, hIff.mpr (iff_of_true hReceiver hInstance)⟩

/-- The static method is handed the stored root and the parameter, but the stored object is still on
the stack when the method of the record returns, although nothing is returned. -/
theorem capturing_leaves :
    (default : BinderConfig).options.strictCaptures = true ∧
    ∃ t, (default : BinderConfig).run (built (capturing true)).1 (built (capturing true)).2 = .ok t ∧
      ∃ r ∈ t.report.records, (⟨6⟩, ⟨9⟩) ∈ r.trampolines.entries ∧
        t.report.bindings.get? ⟨4⟩ = some ⟨⟨4⟩, ⟨6⟩, .addedParameter⟩ ∧
        (∃ receiver ∈ r.receiver? t.program, ∃ m ∈ t.program.method? ⟨9⟩, ∃ b ∈ m.body,
          Activation.toReturn t.program m.argCount b.instructions .start
            = some ⟨[receiver], [(⟨6⟩, r.rootAndParams 1)]⟩) ∧
        ¬ r.Forwards t.program ⟨4⟩ ⟨6⟩ ⟨9⟩ := by
  have hCheck : Outcome.yields
      ((default : BinderConfig).run (built (capturing true)).1 (built (capturing true)).2)
      (fun t => decide (∃ r ∈ t.report.records, (⟨6⟩, ⟨9⟩) ∈ r.trampolines.entries ∧
        t.report.bindings.get? ⟨4⟩ = some ⟨⟨4⟩, ⟨6⟩, .addedParameter⟩ ∧
        (∃ receiver ∈ r.receiver? t.program, ∃ m ∈ t.program.method? ⟨9⟩, ∃ b ∈ m.body,
          Activation.toReturn t.program m.argCount b.instructions .start
            = some ⟨[receiver], [(⟨6⟩, r.rootAndParams 1)]⟩) ∧
        ¬ r.Forwards t.program ⟨4⟩ ⟨6⟩ ⟨9⟩)) = true := by decide +kernel
  obtain ⟨t, hRun, hCheck⟩ := Outcome.ok_of_yields hCheck
  exact ⟨rfl, t, hRun, of_decide_eq_true hCheck⟩

end Examples

end ContextBinding
