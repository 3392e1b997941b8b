import ContextBinding.Closure.Record
import ContextBinding.Proofs.Edit
import ContextBinding.Proofs.Table

/-! What copies and capture records add to a program. All the methods that come
 with a new type belong to it, and no code but theirs changes. -/

namespace ContextBinding

namespace Program

variable {S : MethodId → Prop} {N : TypeId → Prop}

theorem modifyMethod_ok {id : MethodId} {f : MethodDef → MethodDef} {p q : Program} {u : Unit}
    (h : modifyMethod id f p = .ok u q) :
    (∃ m, p.method? id = some m) ∧
      q = { p.touch with methods := p.methods.modify id.index f } := by
  unfold modifyMethod at h
  simp only [Step.bind_ok, Step.get_ok, Step.lift_ok, Step.modify_ok] at h
  obtain ⟨_, _, rfl, _, _, ⟨rfl, rfl⟩, m, _, ⟨hMethod, rfl⟩, rfl⟩ := h
  exact ⟨⟨m, methodDef_ok.mp hMethod⟩, rfl⟩

theorem modifyType_ok {id : TypeId} {f : TypeDef → TypeDef} {p q : Program} {u : Unit}
    (h : modifyType id f p = .ok u q) :
    (∃ t, p.type? id = some t) ∧ q = { p.touch with types := p.types.modify id.index f } := by
  unfold modifyType at h
  simp only [Step.bind_ok, Step.get_ok, Step.lift_ok, Step.modify_ok] at h
  obtain ⟨_, _, rfl, _, _, ⟨rfl, rfl⟩, t, _, ⟨hType, rfl⟩, rfl⟩ := h
  exact ⟨⟨t, typeDef_ok.mp hType⟩, rfl⟩

theorem modify_last {α : Type} (l : List α) (a : α) (f : α → α) :
    (l ++ [a]).modify l.length f = l ++ [f a] := by
  induction l with
  | nil => rfl
  | cons b l ih => simpa using ih

/-- A copied method is appended, with the code of its shape. -/
theorem cloneMethod_ok {id : MethodId} {owner : TypeId} {name : String} {shape : MethodShape}
    {p q : Program} {copy : MethodId} (h : cloneMethod id owner name shape p = .ok copy q) :
    ∃ source, p.method? id = some source ∧ copy = ⟨p.methods.length⟩ ∧ p.Grows q ∧
      q.fields = p.fields ∧
      q.methods = p.methods ++ [⟨owner, name, shape.copyParams source, source.returnType,
        shape.copyFlags source, source.overrides, shape.copyBody source⟩] := by
  unfold cloneMethod at h
  simp only [Step.bind_ok, Step.get_ok, Step.lift_ok, Step.pure_ok] at h
  obtain ⟨_, _, ⟨rfl, rfl⟩, source, _, ⟨hSource, rfl⟩, _, u, hAdd, _, _, hModify, rfl, rfl⟩ := h
  obtain ⟨rfl, hGrows, hFields, hMethods⟩ := addMethod_ok hAdd
  obtain ⟨-, rfl⟩ := modifyMethod_ok hModify
  have hLast : u.methods.modify p.methods.length (fun m =>
      { m with body := shape.copyBody source, overrides := source.overrides })
        = p.methods ++ [⟨owner, name, shape.copyParams source, source.returnType,
          shape.copyFlags source, source.overrides, shape.copyBody source⟩] := by
    rw [hMethods, modify_last]
  refine ⟨source, methodDef_ok.mp hSource, rfl, ?_, hFields, hLast⟩
  refine ⟨hGrows.digest, hGrows.edits.trans (Nat.le_succ _), hGrows.types, hGrows.fields, ?_, ?_,
    hGrows.listed, fun hOwned => ?_⟩
  · change Extends _ _ (u.methods.modify p.methods.length _)
    rw [hLast]
    exact .append _ _
  · intro hNumbered
    apply Numbered.modify (p := u.touch) (hGrows.numbered hNumbered)
    intro _ _ b hBody
    obtain ⟨b₀, hSourceBody, rfl⟩ := Option.map_eq_some_iff.mp hBody
    have hBefore := hNumbered source (List.mem_of_getElem? (methodDef_ok.mp hSource))
    exact (hBefore b₀ hSourceBody).shiftArguments _ _
  · refine (hGrows.owned hOwned).of_lists (fun _ _ h => h) fun other m hMethod => ?_
    refine ⟨_, (method?_modify u _ ⟨p.methods.length⟩ other).trans (congrArg _ hMethod), ?_⟩
    dsimp only
    split <;> rfl

/-- A copied method is listed last, and nothing else is declared anew. -/
theorem cloneMethod_steady {l : License} {id : MethodId} {owner : TypeId} {name : String}
    {shape : MethodShape} {p q : Program} {copy : MethodId}
    (h : cloneMethod id owner name shape p = .ok copy q) : p.Steady l q := by
  unfold cloneMethod at h
  simp only [Step.bind_ok, Step.get_ok, Step.lift_ok, Step.pure_ok] at h
  obtain ⟨_, _, ⟨rfl, rfl⟩, source, _, ⟨hSource, rfl⟩, _, u, hAdd, _, _, hModify, rfl, rfl⟩ := h
  have hAdded : p.Steady l u := addMethod_steady hAdd
  obtain ⟨rfl, -, -, -⟩ := addMethod_ok hAdd
  obtain ⟨-, rfl⟩ := modifyMethod_ok hModify
  have hTouched : p.Steady l u.touch := hAdded.trans .touch
  exact hTouched.modifyNewMethod (Nat.le_refl _) fun _ h => h

/-- A copied method is listed with its owner. -/
theorem cloneMethod_lists {id : MethodId} {owner : TypeId} {name : String} {shape : MethodShape}
    {p q : Program} {copy : MethodId} (h : cloneMethod id owner name shape p = .ok copy q) :
    q.Lists owner copy := by
  unfold cloneMethod at h
  simp only [Step.bind_ok, Step.get_ok, Step.lift_ok, Step.pure_ok] at h
  obtain ⟨_, _, ⟨rfl, rfl⟩, source, _, -, _, u, hAdd, _, _, hModify, rfl, rfl⟩ := h
  have hListed := addMethod_lists hAdd
  obtain ⟨-, rfl⟩ := modifyMethod_ok hModify
  exact hListed

/-- Methods that are appended belong to their owners. -/
theorem Confined.of_append {p q : Program} {m : MethodDef} (hGrows : p.Grows q)
    (hMethods : q.methods = p.methods ++ [m]) (hN : N m.owner) : Confined S N p q := by
  refine ⟨hGrows, fun id m' h => ?_⟩
  rw [method?, hMethods] at h
  rcases Nat.lt_trichotomy id.index p.methods.length with hOld | hNew | hOut
  · rw [List.getElem?_append_left hOld] at h
    exact Or.inl ⟨m', h, Or.inl rfl⟩
  · rw [hNew, List.getElem?_concat_length] at h
    refine Or.inr ⟨?_, Option.some_inj.mp h ▸ hN⟩
    rw [method?, hNew, List.getElem?_eq_none (le_refl _)]
  · rw [List.getElem?_eq_none (by rw [List.length_append]; exact hOut)] at h
    simp at h

/-- A method that was appended without code has none. -/
theorem body_of_append {p q : Program} {new m : MethodDef} {id : MethodId}
    (hId : id = ⟨p.methods.length⟩) (hMethods : q.methods = p.methods ++ [new])
    (hNone : new.body = none) (hMethod : q.method? id = some m) : m.body = none := by
  rw [method?, hMethods, hId, List.getElem?_concat_length] at hMethod
  exact Option.some_inj.mp hMethod ▸ hNone

theorem keeps_addMethod {owner : TypeId} {name : String} {params : List Param} {result : TypeRef}
    {flags : FlagSet MethodFlag} (hN : N owner) :
    Keeps (Rewrites S N) (addMethod owner name params result flags) := by
  intro p id q h
  obtain ⟨-, hGrows, -, hMethods⟩ := addMethod_ok h
  exact ⟨.of_append hGrows hMethods hN, addMethod_steady h⟩

theorem keeps_cloneMethod {id : MethodId} {owner : TypeId} {name : String} {shape : MethodShape}
    (hN : N owner) : Keeps (Rewrites S N) (cloneMethod id owner name shape) := by
  intro p copy q h
  obtain ⟨source, -, -, hGrows, -, hMethods⟩ := cloneMethod_ok h
  exact ⟨.of_append hGrows hMethods hN, cloneMethod_steady h⟩

theorem keeps_addField {owner : TypeId} {name : String} {type : TypeRef}
    {flags : FlagSet FieldFlag} : Keeps (Rewrites S N) (addField owner name type flags) := by
  intro p id q h
  obtain ⟨-, hGrows, -, hMethods, -⟩ := addField_ok h
  exact ⟨.of_methods hGrows hMethods, addField_steady h⟩

theorem keeps_remapMembers {id : MethodId} {clone : TypeClone} (hS : S id) :
    Keeps (Rewrites S N) (remapMembers id clone) := by
  unfold remapMembers
  refine Keeps.bind Keeps.get fun p => Keeps.bind (Keeps.lift _) fun m => ?_
  cases m.body with
  | none => exact Keeps.pure _
  | some b =>
      refine Keeps.ite (Keeps.pure _) (Keeps.bind (keeps_editBody hS ?_) fun _ => Keeps.pure _)
      apply Keeps.forM
      intro change _
      exact MethodBody.revises_setOperand

theorem keeps_cloneFields {copy : TypeId} (ids : List FieldId) (clone : TypeClone) :
    Keeps (Rewrites S N) (cloneFields copy ids clone) := by
  induction ids generalizing clone with
  | nil => exact Keeps.pure _
  | cons id ids ih =>
      rw [cloneFields]
      refine Keeps.bind Keeps.get fun p => Keeps.bind (Keeps.lift _) fun f => ?_
      exact Keeps.ite (ih _) (Keeps.bind keeps_addField fun _ => ih _)

theorem keeps_cloneMethods {copy : TypeId} (hN : N copy) (ids : List MethodId)
    (clone : TypeClone) : Keeps (Rewrites S N) (cloneMethods copy ids clone) := by
  induction ids generalizing clone with
  | nil => exact Keeps.pure _
  | cons id ids ih =>
      rw [cloneMethods]
      refine Keeps.bind Keeps.get fun p => Keeps.bind (Keeps.lift _) fun m => ?_
      exact Keeps.bind (keeps_cloneMethod hN) fun _ => ih _

/-- The copies of fields are new, and nothing else of what a copy consists of changes. -/
theorem cloneFields_ok {copy : TypeId} {ids : List FieldId} {clone clone' : TypeClone}
    {p q : Program} (h : cloneFields copy ids clone p = .ok clone' q) :
    clone'.copy = clone.copy ∧ clone'.methods = clone.methods ∧ ∀ f ∈ clone'.fields.values,
      f ∈ clone.fields.values ∨ p.fields.length ≤ f.index ∧ f.index < q.fields.length := by
  induction ids generalizing clone p with
  | nil =>
      obtain ⟨rfl, -⟩ := Step.pure_ok.mp h
      exact ⟨rfl, rfl, fun f hf => Or.inl hf⟩
  | cons id ids ih =>
      rw [cloneFields] at h
      obtain ⟨_, _, hGet, h⟩ := Step.bind_ok.mp h
      obtain ⟨rfl, rfl⟩ := Step.get_ok.mp hGet
      obtain ⟨source, _, hLift, h⟩ := Step.bind_ok.mp h
      obtain ⟨-, rfl⟩ := Step.lift_ok.mp hLift
      split at h
      · exact ih h
      · obtain ⟨new, u, hAdd, h⟩ := Step.bind_ok.mp h
        obtain ⟨rfl, hGrows, -, -, hField⟩ := addField_ok hAdd
        obtain ⟨hCopy, hMethods, hValues⟩ := ih h
        have hRest : Rewrites (fun _ => True) (fun _ => True) u q := keeps_cloneFields _ _ h
        have hNew : p.fields.length < u.fields.length := (List.getElem?_eq_some_iff.mp hField).1
        refine ⟨hCopy, hMethods, fun f hf => ?_⟩
        rcases hValues f hf with hf | ⟨hOld, hThere⟩
        · rcases Table.mem_values_insert hf with rfl | hf
          · exact Or.inr ⟨le_refl _, hNew.trans_le hRest.grows.fields.length_le⟩
          · exact Or.inl hf
        · exact Or.inr ⟨hGrows.fields.length_le.trans hOld, hThere⟩

/-- The copies of methods are new. -/
theorem cloneMethods_ok {copy : TypeId} {ids : List MethodId} {clone clone' : TypeClone}
    {p q : Program} (h : cloneMethods copy ids clone p = .ok clone' q) :
    clone'.copy = clone.copy ∧ clone'.fields = clone.fields ∧ ∀ m ∈ clone'.methods.values,
      m ∈ clone.methods.values ∨ p.methods.length ≤ m.index ∧ m.index < q.methods.length := by
  induction ids generalizing clone p with
  | nil =>
      obtain ⟨rfl, -⟩ := Step.pure_ok.mp h
      exact ⟨rfl, rfl, fun m hm => Or.inl hm⟩
  | cons id ids ih =>
      rw [cloneMethods] at h
      obtain ⟨_, _, hGet, h⟩ := Step.bind_ok.mp h
      obtain ⟨rfl, rfl⟩ := Step.get_ok.mp hGet
      obtain ⟨m, _, hLift, h⟩ := Step.bind_ok.mp h
      obtain ⟨-, rfl⟩ := Step.lift_ok.mp hLift
      obtain ⟨new, u, hClone, h⟩ := Step.bind_ok.mp h
      obtain ⟨source, -, rfl, -, -, hMethods⟩ := cloneMethod_ok hClone
      obtain ⟨hCopy, hFields, hValues⟩ := ih h
      have hRest : Rewrites (fun _ => True) (fun _ => True) u q :=
        keeps_cloneMethods trivial _ _ h
      have hNew : p.methods.length < u.methods.length := by simp [hMethods]
      refine ⟨hCopy, hFields, fun m hm => ?_⟩
      rcases hValues m hm with hm | ⟨hOld, hThere⟩
      · rcases Table.mem_values_insert hm with rfl | hm
        · exact Or.inr ⟨le_refl _, hNew.trans_le hRest.grows.methods.length_le⟩
        · exact Or.inl hm
      · exact Or.inr ⟨hNew.le.trans hOld, hThere⟩

/-- Copying a type changes no code that was there, and all new methods belong to
the copy. The members that it is known by are new. -/
theorem cloneType_ok {id : TypeId} {declaring : Option TypeId} {clone : TypeClone}
    {p q : Program} (h : cloneType id declaring p = .ok clone q) :
    clone.copy = some ⟨p.types.length⟩ ∧
      Rewrites (fun _ => False) (· = ⟨p.types.length⟩) p q ∧ p.types.length < q.types.length ∧
      (∀ m ∈ clone.methods.values, p.methods.length ≤ m.index ∧ m.index < q.methods.length) ∧
      ∀ f ∈ clone.fields.values, p.fields.length ≤ f.index ∧ f.index < q.fields.length := by
  unfold cloneType at h
  simp only [Step.bind_ok, Step.get_ok, Step.lift_ok] at h
  obtain ⟨_, _, ⟨rfl, rfl⟩, source, _, ⟨-, rfl⟩, copy, p₁, hAdd, _, p₂, hModify, withFields, p₃,
    hFields, whole, p₄, hMethods, _, p₅, hRemap, _, p₆, hProperties, hEnd⟩ := h
  obtain ⟨rfl, rfl⟩ := Step.pure_ok.mp hEnd
  obtain ⟨rfl, hGrows, -, hSame, _, hType, -⟩ := addType_ok hAdd
  obtain ⟨hCopy, hNone, hNewFields⟩ := cloneFields_ok hFields
  obtain ⟨hCopy', hSameFields, hNewMethods⟩ := cloneMethods_ok hMethods
  let S : MethodId → Prop := fun id => p.methods.length ≤ id.index
  let N : TypeId → Prop := (· = ⟨p.types.length⟩)
  have h₂ : Rewrites S N p p₂ := by
    have hFilled : Confined S N p₁ p₂ := by
      refine keeps_modifyType ?_ ?_ hModify
      · exact fun _ => ⟨rfl, rfl, rfl⟩
      · exact fun _ _ h => h
    have hAdded : Confined S N p p₁ := .of_methods hGrows hSame
    refine ⟨hAdded.trans hFilled, ?_⟩
    obtain ⟨-, rfl⟩ := modifyType_ok hModify
    have hTouched : p.Steady .none p₁.touch := (addType_steady hAdd).trans .touch
    exact hTouched.modifyNewType (Nat.le_refl _)
  have h₃ : Rewrites S N p₂ p₃ := keeps_cloneFields _ _ hFields
  have h₄ : Rewrites S N p₃ p₄ := keeps_cloneMethods (N := N) rfl _ _ hMethods
  have hFresh : ∀ m ∈ whole.methods.values,
      p.methods.length ≤ m.index ∧ m.index < p₄.methods.length := by
    intro m hm
    rcases hNewMethods m hm with hm | ⟨hOld, hThere⟩
    · rw [hNone] at hm
      exact (List.not_mem_nil hm).elim
    · exact ⟨(h₂.trans h₃).grows.methods.length_le.trans hOld, hThere⟩
  have h₅ : Rewrites S N p₄ p₅ := by
    refine Keeps.forM (fun m hm => ?_) hRemap
    exact Keeps.bind (keeps_remapMembers (hFresh m hm).1) fun _ => Keeps.pure _
  have h₆ : Rewrites S N p₅ p₆ := Keeps.forM (fun _ _ => keeps_addProperty) hProperties
  have hEnd : Rewrites S N p₄ p₆ := h₅.trans h₆
  refine ⟨hCopy'.trans hCopy, .of_fresh (((h₂.trans h₃).trans h₄).trans hEnd), ?_,
    fun m hm => ?_, fun f hf => ?_⟩
  · have hAdded : p.types.length < p₁.types.length := (List.getElem?_eq_some_iff.mp hType).1
    have hFilled : p₁.types.length = p₂.types.length := by
      obtain ⟨-, rfl⟩ := modifyType_ok hModify
      exact (List.length_modify ..).symm
    exact (hFilled ▸ hAdded).trans_le ((h₃.trans h₄).trans hEnd).grows.types.length_le
  · exact (hFresh m hm).imp_right fun hThere => hThere.trans_le hEnd.grows.methods.length_le
  · rw [hSameFields] at hf
    rcases hNewFields f hf with hf | ⟨hOld, hThere⟩
    · exact (List.not_mem_nil hf).elim
    · exact ⟨h₂.grows.fields.length_le.trans hOld,
        hThere.trans_le (h₄.trans hEnd).grows.fields.length_le⟩

end Program

namespace CaptureRecord

open Program (Rewrites)

/-- A later entry of a record has what the earlier one had, and maybe forwards to more
methods. -/
structure Extends (r r' : CaptureRecord) : Prop where
  key : r'.key = r.key
  type : r'.type = r.type
  constructor : r'.constructor = r.constructor
  trampolines : ∀ replacement method,
    r.trampolines.get? replacement = some method → r'.trampolines.get? replacement = some method

/-- A record has a field for the receiver if its key has one. -/
def Shaped (r : CaptureRecord) : Prop := r.receiverField.isSome = r.key.receiver.isSome

theorem declareReceiver_isSome {type : TypeId} {receiver : Option TypeId} {field : Option FieldId}
    {p q : Program} (h : declareReceiver type receiver p = .ok field q) :
    field.isSome = receiver.isSome := by
  cases receiver with
  | none =>
      rw [← (Step.pure_ok.mp h).1]
      rfl
  | some receiver =>
      obtain ⟨made, _, -, h⟩ := Step.bind_ok.mp h
      rw [← (Step.pure_ok.mp h).1]
      rfl

/-- The receiver of a record that has a name is there. -/
theorem nameOf_receiver {p : Program} {key : RecordKey} {name : String}
    (h : nameOf p key = .ok name) : ∀ type ∈ key.receiver, (p.type? type).isSome := by
  obtain ⟨m, -, h⟩ := Outcome.bind_ok.mp h
  intro type hReceiver
  rw [Option.mem_def.mp hReceiver] at h
  obtain ⟨t, hType, -⟩ := Outcome.bind_ok.mp h
  exact Option.isSome_iff_exists.mpr ⟨t, Program.typeDef_ok.mp hType⟩

/-- The methods of a new record belong to its type, and it forwards to none yet. -/
theorem synthesize_ok {root : TypeId} {key : RecordKey} {r : CaptureRecord} {p q : Program}
    (h : synthesize root key p = .ok r q) :
    r.key = key ∧ r.type = ⟨p.types.length⟩ ∧ Rewrites (fun _ => False) (· = r.type) p q ∧
      r.Shaped ∧ r.trampolines = ∅ ∧ ∀ type ∈ key.receiver, (p.type? type).isSome := by
  unfold synthesize at h
  simp only [Step.bind_ok, Step.get_ok, Step.lift_ok] at h
  obtain ⟨_, _, ⟨rfl, rfl⟩, m, _, ⟨-, rfl⟩, name, _, ⟨hName, rfl⟩, type, p₁, hType, receiver, p₂,
    hReceiver, rootField, p₃, hRoot, constructor, p₄, hConstructor, _, p₅, hBody, hEnd⟩ := h
  obtain ⟨rfl, rfl⟩ := Step.pure_ok.mp hEnd
  obtain ⟨hNew, hGrows, -, hSame, -⟩ := Program.addType_ok hType
  let S : MethodId → Prop := fun id => p.methods.length ≤ id.index
  have h₁ : Rewrites S (· = type) p p₁ :=
    ⟨.of_methods hGrows hSame, Program.addType_steady hType⟩
  have h₂ : Rewrites S (· = type) p₁ p₂ := by
    refine (?_ : Keeps (Rewrites S (· = type)) (declareReceiver type key.receiver)) hReceiver
    cases key.receiver with
    | none => exact Keeps.pure _
    | some receiver => exact Keeps.bind Program.keeps_addField fun _ => Keeps.pure _
  have h₃ : Rewrites S (· = type) p₂ p₃ := Program.keeps_addField hRoot
  have h₄ : Rewrites S (· = type) p₃ p₄ := Program.keeps_addMethod (N := (· = type)) rfl hConstructor
  obtain ⟨hIndex, -, -, hMethods⟩ := Program.addMethod_ok hConstructor
  have hFresh : S constructor := hIndex ▸ ((h₁.trans h₂).trans h₃).grows.methods.length_le
  have h₅ : Rewrites S (· = type) p₄ p₅ :=
    Program.setBody_rewrites hFresh (fun _ => Program.body_of_append hIndex hMethods rfl)
      (MethodBody.numbered_fresh _) hBody
  exact ⟨rfl, hNew, .of_fresh ((((h₁.trans h₂).trans h₃).trans h₄).trans h₅),
    declareReceiver_isSome hReceiver, rfl, nameOf_receiver hName⟩

/-- A method of the record that forwards what `source` takes. -/
def forwarder (r : CaptureRecord) (p : Program) (source target : MethodDef)
    (replacement : MethodId) : MethodDef where
  owner := r.type
  name := "<" ++ source.name ++ ">b__Forward" ++ toString r.trampolines.size
  params := source.params
  returnType := source.returnType
  flags := .ofList [.compilerGenerated]
  overrides := []
  body := some (.fresh (r.forwardingCode p target replacement source.params.length))

theorem forwarder_plain (r : CaptureRecord) (p : Program) (source target : MethodDef)
    (replacement : MethodId) : (r.forwarder p source target replacement).isStatic = false ∧
      (r.forwarder p source target replacement).isContextReplacement = false := by
  have hFlags : (FlagSet.ofList [MethodFlag.compilerGenerated]).has .static = false ∧
      (FlagSet.ofList [MethodFlag.compilerGenerated]).has .contextReplacement = false := by decide
  exact hFlags

/-- A record has the forwarding method already, or it is declared on the type of the record. -/
theorem trampoline_cases {r r' : CaptureRecord} {forwarded replacement method : MethodId}
    {p q : Program} (h : r.trampoline forwarded replacement p = .ok (method, r') q) :
    (r.trampolines.get? replacement = some method ∧ r' = r ∧ q = p) ∨
      r.trampolines.get? replacement = none ∧
        r' = { r with trampolines := r.trampolines.insert replacement method } ∧
        Rewrites (fun _ => False) (· = r.type) p q ∧ method = ⟨p.methods.length⟩ ∧
        ∃ source target, p.method? forwarded = some source ∧ p.method? replacement = some target ∧
          q.method? method = some (r.forwarder p source target replacement) := by
  unfold trampoline at h
  cases hKnown : r.trampolines.get? replacement with
  | some existing =>
    simp only [hKnown] at h
    obtain ⟨hEq, rfl⟩ := Step.pure_ok.mp h
    obtain ⟨rfl, rfl⟩ := Prod.mk.inj hEq
    exact Or.inl ⟨rfl, rfl, rfl⟩
  | none =>
    simp only [hKnown, Step.bind_ok, Step.get_ok, Step.lift_ok] at h
    obtain ⟨_, _, ⟨rfl, rfl⟩, source, _, ⟨hSource, rfl⟩, target, _, ⟨hTarget, rfl⟩, new, p₁, hAdd, _,
      p₂, hBody, hEnd⟩ := h
    obtain ⟨hEq, rfl⟩ := Step.pure_ok.mp hEnd
    obtain ⟨rfl, rfl⟩ := Prod.mk.inj hEq
    let S : MethodId → Prop := fun id => p.methods.length ≤ id.index
    have h₁ : Rewrites S (· = r.type) p p₁ := Program.keeps_addMethod (N := (· = r.type)) rfl hAdd
    obtain ⟨hIndex, -, -, hMethods⟩ := Program.addMethod_ok hAdd
    have hFresh : S new := hIndex ▸ le_refl p.methods.length
    have h₂ : Rewrites S (· = r.type) p₁ p₂ :=
      Program.setBody_rewrites hFresh (fun _ => Program.body_of_append hIndex hMethods rfl)
        (MethodBody.numbered_fresh _) hBody
    refine Or.inr ⟨rfl, rfl, .of_fresh (h₁.trans h₂), hIndex, source, target,
      Program.methodDef_ok.mp hSource, Program.methodDef_ok.mp hTarget, ?_⟩
    obtain ⟨-, rfl⟩ := Program.modifyMethod_ok hBody
    subst hIndex
    rw [Program.method?, Program.touch, List.getElem?_modify_eq, hMethods,
      List.getElem?_concat_length]
    rfl

/-- A forwarding method belongs to its record. -/
theorem trampoline_ok {r r' : CaptureRecord} {forwarded replacement method : MethodId}
    {p q : Program} (h : r.trampoline forwarded replacement p = .ok (method, r') q) :
    r.Extends r' ∧ r'.trampolines.get? replacement = some method ∧
      Rewrites (fun _ => False) (· = r.type) p q := by
  rcases trampoline_cases h with ⟨hKnown, rfl, rfl⟩ | ⟨hNone, rfl, hProgram, -⟩
  · exact ⟨⟨rfl, rfl, rfl, fun _ _ h => h⟩, hKnown, .refl q⟩
  · refine ⟨⟨rfl, rfl, rfl, fun other method hGet => ?_⟩, ?_, hProgram⟩
    · have hOther : replacement ≠ other := by
        rintro rfl
        rw [hNone] at hGet
        cases hGet
      rwa [Table.get?_insert, if_neg hOther]
    · rw [Table.get?_insert, if_pos rfl]

end CaptureRecord

end ContextBinding
