import ContextBinding.Proofs.Mention
import ContextBinding.Proofs.Recoding

/-! What a run leaves of code that it moved. The code of the methods that came with a type, and of
those that are copied on it later, names what it named when it came, and what the run puts into
code; so does that of a single method that came with the run. -/

namespace ContextBinding

/-- Some methods, and all methods of some types. -/
structure Region where
  methods : MethodId → Prop
  types : TypeId → Prop

/-- A method is in the region. -/
def Region.Has (R : Region) (id : MethodId) (m : MethodDef) : Prop := R.methods id ∨ R.types m.owner

/-- What holds of code and stays so whatever adaptation puts in. -/
def MethodBody.Lasting (S : Scope) (B : MethodBody → Prop) : Prop :=
  ∀ b b', b.Augments S.Mentions b' → B b → B b'

namespace Program

variable {R : Region} {B : MethodBody → Prop} {S : MethodId → Prop} {N : TypeId → Prop}
  {p q : Program}

/-- The code of all methods in a region is in `B`. -/
def Within (R : Region) (B : MethodBody → Prop) (p : Program) : Prop :=
  ∀ id m b, p.method? id = some m → R.Has id m → m.body = some b → B b

/-- The owners of all methods are there. -/
def Housed (p : Program) : Prop := ∀ id m, p.method? id = some m → m.owner.index < p.types.length

instance (p : Program) : Decidable p.Housed :=
  decidable_of_iff (∀ m ∈ p.methods, m.owner.index < p.types.length)
    ⟨fun h _ m hMethod => h m (List.mem_of_getElem? hMethod), fun h m hMem => by
      obtain ⟨i, hMethod⟩ := List.mem_iff_getElem?.mp hMem
      exact h ⟨i⟩ m hMethod⟩

/-- The methods that a region names are there. -/
def HasMethods (p : Program) (R : Region) : Prop :=
  ∀ id, R.methods id → id.index < p.methods.length

theorem Housed.append (h : p.Housed) (hGrows : p.Grows q) {m : MethodDef}
    (hMethods : q.methods = p.methods ++ [m]) (hOwner : m.owner.index < q.types.length) :
    q.Housed := by
  intro id m' hMethod'
  rw [method?, hMethods] at hMethod'
  rcases Nat.lt_or_ge id.index p.methods.length with hOld | hNew
  · rw [List.getElem?_append_left hOld] at hMethod'
    exact (h id m' hMethod').trans_le hGrows.types.length_le
  · rw [List.getElem?_append_right hNew, List.getElem?_singleton] at hMethod'
    split at hMethod'
    · exact Option.some_inj.mp hMethod' ▸ hOwner
    · cases hMethod'

theorem Housed.confined (h : p.Housed) (hProgram : p.Confined S N q)
    (hN : ∀ type, N type → type.index < q.types.length) : q.Housed := by
  intro id m' hMethod'
  rcases hProgram.code id m' hMethod' with ⟨m, hMethod, -⟩ | ⟨-, hNew⟩
  · rw [(hProgram.grows.method_persists hMethod hMethod').owner]
    exact (h id m hMethod).trans_le hProgram.grows.types.length_le
  · exact hN _ hNew

namespace Within

/-- Where no method of a region is edited or declared, its code stays. -/
theorem confined (h : p.Within R B) (hProgram : p.Confined S N q) (hHolds : p.HasMethods R)
    (hS : ∀ id m, p.method? id = some m → S id → ¬ R.Has id m)
    (hN : ∀ type, N type → ¬ R.types type) : q.Within R B := by
  intro id m' b hMethod' hIn hBody
  rcases hProgram.code id m' hMethod' with ⟨m, hMethod, hCode⟩ | ⟨hNone, hNew⟩
  · have hIn : R.Has id m := by
      unfold Region.Has at hIn ⊢
      rwa [← (hProgram.grows.method_persists hMethod hMethod').owner]
    rcases hCode with hSame | hEdited
    · exact h id m b hMethod hIn (hSame ▸ hBody)
    · exact (hS id m hMethod hEdited hIn).elim
  · rcases hIn with hIn | hIn
    · rw [method?, List.getElem?_eq_getElem (hHolds id hIn)] at hNone
      cases hNone
    · exact (hN _ hNew hIn).elim

/-- Where a method is adapted, its code stays in what lasts. -/
theorem adapted {T : Scope} {site : MethodId} {b : MethodBody} (h : p.Within R B)
    (hProgram : p.Confined (· = site) N q) (hPatches : p.Patches site T q)
    (hBody : p.body site = .ok b) (hNumbered : b.Numbered) (hB : MethodBody.Lasting T B)
    (hHolds : p.HasMethods R) (hN : ∀ type, N type → ¬ R.types type) : q.Within R B := by
  intro id m' c hMethod' hIn hCode
  rcases hProgram.code id m' hMethod' with ⟨m, hMethod, hSame⟩ | ⟨hNone, hNew⟩
  · have hIn : R.Has id m := by
      unfold Region.Has at hIn ⊢
      rwa [← (hProgram.grows.method_persists hMethod hMethod').owner]
    rcases hSame with hSame | rfl
    · exact h id m c hMethod hIn (hSame ▸ hCode)
    · obtain ⟨b', hBody', hPatched⟩ := hPatches b hBody hNumbered
      obtain rfl : c = b' :=
        Except.ok.inj ((body_ok.mpr ⟨m', hMethod', hCode⟩).symm.trans hBody')
      obtain ⟨m₀, hMethod₀, hCode₀⟩ := body_ok.mp hBody
      obtain rfl := Option.some_inj.mp (hMethod₀.symm.trans hMethod)
      exact hB b c hPatched.augments (h id m₀ b hMethod hIn hCode₀)
  · rcases hIn with hIn | hIn
    · rw [method?, List.getElem?_eq_getElem (hHolds id hIn)] at hNone
      cases hNone
    · exact (hN _ hNew hIn).elim

/-- A method may be copied where its owner is in no region, or the owner of the copy, too. -/
theorem append {T : Scope} (h : p.Within R B) {source : MethodId} {m new : MethodDef}
    (hMethods : q.methods = p.methods ++ [new]) (hSource : p.method? source = some m)
    (hBody : ∀ b', new.body = some b' → ∃ b, m.body = some b ∧ b.Augments T.Mentions b')
    (hB : MethodBody.Lasting T B) (hHolds : p.HasMethods R)
    (hOwner : R.types new.owner → new.owner = m.owner) : q.Within R B := by
  intro id m' c hMethod' hIn hCode
  rw [method?, hMethods] at hMethod'
  rcases Nat.lt_or_ge id.index p.methods.length with hOld | hNew
  · rw [List.getElem?_append_left hOld] at hMethod'
    exact h id m' c hMethod' hIn hCode
  · rw [List.getElem?_append_right hNew, List.getElem?_singleton] at hMethod'
    split at hMethod'
    · obtain rfl := Option.some_inj.mp hMethod'
      rcases hIn with hIn | hIn
      · exact absurd (hHolds id hIn) (Nat.not_lt.mpr hNew)
      · obtain ⟨b, hThere, hAugments⟩ := hBody c hCode
        exact hB b c hAugments (h source m b hSource (Or.inr (hOwner hIn ▸ hIn)) hThere)
    · cases hMethod'

end Within

end Program

namespace Closures

/-- The type of a capture record. -/
def HasRecord (c : Closures) (type : TypeId) : Prop :=
  ∃ key r, c.records.get? key = some r ∧ r.type = type

theorem HasRecord.of_putRecord {c : Closures} {r : CaptureRecord} {type : TypeId}
    (h : (c.putRecord r).HasRecord type) : c.HasRecord type ∨ r.type = type := by
  obtain ⟨key, old, hOld, rfl⟩ := h
  simp only [Closures.putRecord, Table.get?_insert] at hOld
  split at hOld
  · exact Or.inr (congrArg _ (Option.some_inj.mp hOld))
  · exact Or.inl ⟨key, old, hOld, rfl⟩

/-- Entering a record loses no type, if it has that of the one that its key had before. -/
theorem HasRecord.putRecord {c : Closures} {r : CaptureRecord} {type : TypeId}
    (h : c.HasRecord type) (hSame : ∀ old, c.records.get? r.key = some old → r.type = old.type) :
    (c.putRecord r).HasRecord type := by
  obtain ⟨key, old, hOld, rfl⟩ := h
  by_cases hKey : r.key = key
  · subst hKey
    exact ⟨r.key, r, by simp [Closures.putRecord, Table.get?_insert], hSame old hOld⟩
  · exact ⟨key, old, by simp [Closures.putRecord, Table.get?_insert, hKey, hOld], rfl⟩

end Closures

/-- The type of a new record is one more. -/
theorem CaptureRecord.types_synthesize {root : TypeId} {key : RecordKey} {r : CaptureRecord}
    {p q : Program} (h : synthesize root key p = .ok r q) : p.types.length < q.types.length := by
  unfold synthesize at h
  simp only [Step.bind_ok, Step.get_ok, Step.lift_ok] at h
  obtain ⟨_, _, ⟨rfl, rfl⟩, m, _, ⟨-, rfl⟩, name, _, ⟨-, rfl⟩, type, p₁, hType, receiver, p₂,
    hReceiver, rootField, p₃, hRoot, constructor, p₄, hConstructor, _, p₅, hBody, hEnd⟩ := h
  obtain ⟨-, rfl⟩ := Step.pure_ok.mp hEnd
  obtain ⟨rfl, -, -, -, t, hThere, -⟩ := Program.addType_ok hType
  have hDeclared : Program.Rewrites (fun _ => False) (fun _ => False) p₁ p₂ := by
    refine (?_ : Keeps (Program.Rewrites _ _) (declareReceiver _ key.receiver)) hReceiver
    cases key.receiver with
    | none => exact Keeps.pure _
    | some receiver => exact Keeps.bind Program.keeps_addField fun _ => Keeps.pure _
  obtain ⟨-, hFields, -⟩ := Program.addField_ok hRoot
  obtain ⟨-, hMethods, -⟩ := Program.addMethod_ok hConstructor
  obtain ⟨-, rfl⟩ := Program.modifyMethod_ok hBody
  have hLater := (hDeclared.grows.trans hFields).trans hMethods
  exact (List.getElem?_eq_some_iff.mp hThere).1.trans_le hLater.types.length_le

namespace ClosureEdit

/-- What a step that adapts code leaves of the capture records: those that there were stay, new ones
come with new types, and all new methods belong to records. -/
structure Registers (S : MethodId → Prop) (s t : Closures × Workspace) : Prop where
  keyed : t.1.Keyed
  kept : ∀ type, s.1.HasRecord type → t.1.HasRecord type
  fresh : ∀ type, t.1.HasRecord type → s.1.HasRecord type ∨
    s.2.program.types.length ≤ type.index ∧ type.index < t.2.program.types.length
  program : Program.Confined S t.1.HasRecord s.2.program t.2.program

/-- A step leaves them so. -/
def Registered (S : MethodId → Prop) (s t : Closures × Workspace) : Prop :=
  s.1.Keyed → Registers S s t

variable {α : Type} {S : MethodId → Prop} {s t u : Closures × Workspace}

protected theorem Registers.refl (h : s.1.Keyed) : Registers S s s :=
  ⟨h, fun _ h => h, fun _ => Or.inl, .refl _⟩

protected theorem Registers.trans (h : Registers S s t) (h' : Registers S t u) :
    Registers S s u where
  keyed := h'.keyed
  kept type hType := h'.kept type (h.kept type hType)
  fresh type hType := by
    rcases h'.fresh type hType with hBefore | ⟨hLate, hThere⟩
    · refine (h.fresh type hBefore).imp_right fun hNew => ⟨hNew.1, ?_⟩
      exact hNew.2.trans_le h'.program.grows.types.length_le
    · exact Or.inr ⟨h.program.grows.types.length_le.trans hLate, hThere⟩
  program := (h.program.mono (fun _ => id) h'.kept).trans h'.program

instance : IsPreorder (Closures × Workspace) (Registered S) where
  refl _ := .refl
  trans _ _ _ h h' hKeyed := (h hKeyed).trans (h' (h hKeyed).keyed)

theorem registered_work : WorkKeeps S (Registered S) := by
  intro α e h s a t hRun hKeyed
  obtain ⟨w, hEdit, rfl⟩ := work_ok.mp hRun
  exact ⟨hKeyed, fun _ h => h, fun _ => Or.inl, (h _ hEdit).toConfined⟩

/-- A record that is requested is there afterwards, under its key. -/
theorem record_registers {key : RecordKey} {r : CaptureRecord} (h : record key s = .ok r t)
    (hKeyed : s.1.Keyed) :
    Registers S s t ∧ t.1.records.get? key = some r ∧ r.key = key := by
  unfold record at h
  obtain ⟨c, _, hClosures, h⟩ := Step.bind_ok.mp h
  obtain ⟨rfl, rfl⟩ := closures_ok.mp hClosures
  cases hKnown : s.1.records.get? key with
  | some known =>
      simp only [hKnown] at h
      obtain ⟨rfl, rfl⟩ := Step.pure_ok.mp h
      exact ⟨.refl hKeyed, hKnown, hKeyed key known hKnown⟩
  | none =>
      simp only [hKnown] at h
      obtain ⟨new, _, hEdit, h⟩ := Step.bind_ok.mp h
      obtain ⟨p, hNew, rfl⟩ := edit_ok.mp hEdit
      obtain ⟨_, _, hUpdate, h⟩ := Step.bind_ok.mp h
      obtain rfl := update_ok.mp hUpdate
      obtain ⟨rfl, rfl⟩ := Step.pure_ok.mp h
      obtain ⟨rfl, hType, hProgram, -⟩ := CaptureRecord.synthesize_ok hNew
      have hGet : (s.1.putRecord new).records.get? new.key = some new := by
        simp [Closures.putRecord, Table.get?_insert]
      have hHas : (s.1.putRecord new).HasRecord new.type := ⟨new.key, new, hGet, rfl⟩
      refine ⟨⟨hKeyed.putRecord new, fun type hRecord => ?_, fun type hRecord => ?_, ?_⟩, hGet, rfl⟩
      · exact hRecord.putRecord (r := new) (by simp [hKnown])
      · refine (Closures.HasRecord.of_putRecord (c := s.1) hRecord).imp_right ?_
        rintro rfl
        rw [hType]
        exact ⟨Nat.le_refl _, CaptureRecord.types_synthesize hNew⟩
      · refine hProgram.toConfined.mono (fun _ => False.elim) ?_
        rintro _ rfl
        exact hHas

theorem registered_recordFor {method : MethodId} {receiver : Option TypeId} {b : Binding} :
    Keeps (Registered S) (recordFor method receiver b) := by
  intro s made t h hKeyed
  unfold recordFor at h
  obtain ⟨r, s₁, hRecord, h⟩ := Step.bind_ok.mp h
  obtain ⟨hFirst, hGet, hKey⟩ := record_registers (S := S) hRecord hKeyed
  obtain ⟨⟨forward, r'⟩, _, hEdit, h⟩ := Step.bind_ok.mp h
  obtain ⟨p, hNew, rfl⟩ := edit_ok.mp hEdit
  obtain ⟨_, _, hUpdate, h⟩ := Step.bind_ok.mp h
  obtain rfl := update_ok.mp hUpdate
  obtain ⟨-, rfl⟩ := Step.pure_ok.mp h
  obtain ⟨hExtends, -, hProgram⟩ := CaptureRecord.trampoline_ok hNew
  have hSame : s₁.1.records.get? r'.key = some r := by rw [hExtends.key, hKey]; exact hGet
  have hKept (type : TypeId) (hType : s₁.1.HasRecord type) :
      (s₁.1.putRecord { r' with users := ascending (insertNew r'.users method) }).HasRecord type :=
    hType.putRecord fun old hOld => by
      obtain rfl : r = old := Option.some_inj.mp (hSame.symm.trans hOld)
      exact hExtends.type
  refine hFirst.trans ⟨hFirst.keyed.putRecord _, hKept, fun type hType => ?_, ?_⟩
  · refine Or.inl ((Closures.HasRecord.of_putRecord (c := s₁.1) hType).elim id ?_)
    rintro rfl
    exact ⟨_, r, hGet, hExtends.type.symm⟩
  · refine hProgram.toConfined.mono (fun _ => False.elim) ?_
    rintro _ rfl
    exact hKept _ ⟨_, r, hGet, rfl⟩

theorem registered_adaptCapture {plan : ContextPlan} {site : RootedMethod} {pointer : InstrId}
    {b : Binding} (hS : S site.method) :
    Keeps (Registered S) (adaptCapture plan site pointer b) :=
  adaptCapture_keeps hS registered_work (Keeps.modify fun s hKeyed =>
    ⟨hKeyed, fun _ h => h, fun _ => Or.inl, .refl s.2.program⟩) fun _ _ => registered_recordFor

theorem registered_storeDisplayRoot {site : RootedMethod} {id : InstrId} {field : FieldId}
    (hS : S site.method) : Keeps (Registered S) (storeDisplayRoot site id field) :=
  storeDisplayRoot_keeps hS registered_work

end ClosureEdit

end ContextBinding
