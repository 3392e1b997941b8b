import ContextBinding.Proofs.Closure
import ContextBinding.Proofs.Registry

/-! Which requests for capture records succeed. A record is kept under its key, but its type is
registered under a name that is made of less than the key: of the receiver it has the name alone,
without the name space and without what encloses it. -/

namespace ContextBinding

namespace CaptureRecord

open Program (Registers)

variable {p q : Program} {root : TypeId} {key : RecordKey} {name : String}

/-- The full name of a record type. -/
def fullNameOf (p : Program) (key : RecordKey) : Except ModelError String := do
  let enclosing ← p.methodDef key.enclosing
  p.qualifiedName "" (← nameOf p key) (some enclosing.owner)

/-- What the declaration of a record registers. -/
def entries (p : Program) (root : TypeId) (receiver : Option TypeId) (name : String) :
    Registry where
  types := [name]
  fields := receiver.toList.map (fun _ => (name, "receiver")) ++ [(name, "context")]
  methods := [⟨name, ".ctor", receiver.toList.map p.typeName ++ [p.typeName root]⟩]

theorem fullNameOf_ok {fullName : String} : fullNameOf p key = .ok fullName ↔
    ∃ m own, p.method? key.enclosing = some m ∧ nameOf p key = .ok own ∧
      p.qualifiedName "" own (some m.owner) = .ok fullName := by
  unfold fullNameOf
  simp only [Outcome.bind_ok, Program.methodDef_ok]
  exact ⟨fun ⟨m, hMethod, own, hOwn, hName⟩ => ⟨m, own, hMethod, hOwn, hName⟩,
    fun ⟨m, own, hMethod, hOwn, hName⟩ => ⟨m, hMethod, own, hOwn, hName⟩⟩

/-- The name of the receiver, if the record has one. -/
def receiverName? (p : Program) : Option TypeId → Option (Option String)
  | none => some none
  | some receiver => (p.type? receiver).map fun t => some t.name

/-- What the receiver adds to the name of a record. -/
def receiverSuffix : Option String → String
  | none => ""
  | some name => "_" ++ name

/-- The full name of a record is put together from the full name of a type, the name and the number
of a method, and the name of the receiver. -/
theorem fullNameOf_eq {fullName : String} : fullNameOf p key = .ok fullName ↔
    ∃ m o receiver, p.method? key.enclosing = some m ∧ p.type? m.owner = some o ∧
      receiverName? p key.receiver = some receiver ∧
      o.fullName ++ "/" ++ ("<" ++ m.name ++ ">" ++ marker ++ toString key.enclosing.index ++
        receiverSuffix receiver) = fullName := by
  have hOwn {m : MethodDef} (hMethod : p.method? key.enclosing = some m) (own : String) :
      nameOf p key = .ok own ↔ ∃ receiver, receiverName? p key.receiver = some receiver ∧
        "<" ++ m.name ++ ">" ++ marker ++ toString key.enclosing.index ++ receiverSuffix receiver
          = own := by
    unfold nameOf receiverName?
    simp only [Outcome.bind_ok, Program.methodDef_ok, hMethod, Option.some_inj, exists_eq_left']
    cases key.receiver with
    | none => simp [Outcome.pure_ok, receiverSuffix]
    | some receiver =>
        simp only [Outcome.bind_ok, Outcome.pure_ok, Program.typeDef_ok, Option.map_eq_some_iff]
        constructor
        · rintro ⟨t, hType, rfl⟩
          exact ⟨_, ⟨t, hType, rfl⟩, (String.append_assoc ..).symm⟩
        · rintro ⟨_, ⟨t, hType, rfl⟩, rfl⟩
          exact ⟨t, hType, String.append_assoc ..⟩
  have hQualified {m : MethodDef} (own : String) :
      p.qualifiedName "" own (some m.owner) = .ok fullName ↔
        ∃ o, p.type? m.owner = some o ∧ o.fullName ++ "/" ++ own = fullName := by
    unfold Program.qualifiedName
    simp only [Outcome.bind_ok, Outcome.pure_ok, Program.typeDef_ok]
  rw [fullNameOf_ok]
  constructor
  · rintro ⟨m, own, hMethod, hName, hFull⟩
    obtain ⟨receiver, hReceiver, rfl⟩ := (hOwn hMethod own).mp hName
    obtain ⟨o, hOwner, rfl⟩ := (hQualified _).mp hFull
    exact ⟨m, o, receiver, hMethod, hOwner, hReceiver, rfl⟩
  · rintro ⟨m, o, receiver, hMethod, hOwner, hReceiver, rfl⟩
    exact ⟨m, _, hMethod, (hOwn hMethod _).mpr ⟨receiver, hReceiver, rfl⟩,
      (hQualified _).mpr ⟨o, hOwner, rfl⟩⟩

/-- The receiver of a record that has a name is there. -/
theorem receiver_there (h : fullNameOf p key = .ok name) :
    ∀ receiver ∈ key.receiver, (p.type? receiver).isSome := by
  obtain ⟨m, own, -, hOwn, -⟩ := fullNameOf_ok.mp h
  exact nameOf_receiver hOwn

/-- The fields of a record are registered if there are none on its type. -/
theorem declareFields_registers (hFiled : p.Filed) {type : TypeId} (root : TypeId)
    (receiver : Option TypeId) (hType : (p.type? type).isSome) (hName : p.typeName type = name)
    (hApart : (p.registry ++ (⟨[], receiver.toList.map fun _ => (name, "receiver"), []⟩ ++
      ⟨[], [(name, "context")], []⟩)).Apart p.digest)
    (hFree : ∀ field ∈ p.registry.fields, field.1 ≠ name) :
    ∃ receiverField rootField q r, declareReceiver type receiver p = .ok receiverField q ∧
      Program.addField type "context" (.named root) (.ofList [.initOnly]) q = .ok rootField r ∧
      p.Registers r (⟨[], receiver.toList.map fun _ => (name, "receiver"), []⟩ ++
        ⟨[], [(name, "context")], []⟩) := by
  obtain ⟨receiverField, q, hReceiver, h⟩ : ∃ field q,
      declareReceiver type receiver p = .ok field q ∧
      p.Registers q ⟨[], receiver.toList.map fun _ => (name, "receiver"), []⟩ := by
    cases receiver with
    | none => exact ⟨none, p, rfl, hFiled, .refl p, List.prefix_rfl, by ext1 <;> simp⟩
    | some receiver =>
        obtain ⟨q, hRun, h⟩ := Program.addField_registers hFiled (.named receiver)
          (.ofList [.initOnly]) (by decide) hType hName hApart.first fun hMem => hFree _ hMem rfl
        exact ⟨_, q, Step.bind_of_ok hRun, h⟩
  have hContext : (name, "context") ∉ q.registry.fields := by
    rw [h.registry]
    intro hMem
    rcases List.mem_append.mp hMem with hOld | hNew
    · exact hFree _ hOld rfl
    · simp at hNew
  obtain ⟨r, hRoot, h'⟩ := Program.addField_registers h.filed (.named root) (.ofList [.initOnly])
    (by decide) (h.renders.isSome hType) ((h.renders.typeName hType).trans hName) (h.apart hApart)
    hContext
  exact ⟨receiverField, _, q, r, hReceiver, hRoot, h.trans h'⟩

/-- The parameters of a record's constructor. -/
def constructorParams (root : TypeId) (receiver : Option TypeId) : List Param :=
  receiver.toList.map (fun receiver => Param.mk "receiver" (.named receiver))
    ++ [⟨"context", .named root⟩]

/-- The constructor of a record is registered if there is none on its type. -/
theorem declareConstructor_registers (hFiled : p.Filed) {type : TypeId} {receiver : Option TypeId}
    (hType : (p.type? type).isSome) (hName : p.typeName type = name)
    (hReceiver : ∀ id ∈ receiver, (p.type? id).isSome) (hRoot : (p.type? root).isSome)
    (hApart : (p.registry ++ ⟨[], [],
      [⟨name, ".ctor", receiver.toList.map p.typeName ++ [p.typeName root]⟩]⟩).Apart p.digest)
    (hFree : ∀ parts ∈ p.registry.methods, parts.owner ≠ name) (b : MethodBody) :
    ∃ constructor q r, Program.addMethod type ".ctor" (constructorParams root receiver) .void
        (.ofList [.constructor, .specialName, .compilerGenerated]) p = .ok constructor q ∧
      Program.setBody constructor b q = .ok ⟨⟩ r ∧
      p.Registers r
        ⟨[], [], [⟨name, ".ctor", receiver.toList.map p.typeName ++ [p.typeName root]⟩]⟩ := by
  have hKnown : ∀ param ∈ constructorParams root receiver, p.Knows param.type := by
    intro param hMem
    rcases List.mem_append.mp hMem with hMem | hMem
    · obtain ⟨id, hId, rfl⟩ := List.mem_map.mp hMem
      exact hReceiver id (Option.mem_toList.mp hId)
    · obtain rfl := List.mem_singleton.mp hMem
      exact hRoot
  have hParts : p.requested type ".ctor" (constructorParams root receiver)
      = ⟨name, ".ctor", receiver.toList.map p.typeName ++ [p.typeName root]⟩ := by
    simp [Program.requested, constructorParams, hName, Program.refName, Function.comp_def]
  obtain ⟨q, hAdd, h⟩ := Program.addMethod_registers hFiled .void
    (.ofList [.constructor, .specialName, .compilerGenerated]) (by decide) hType hKnown hParts
    hApart fun hMem => hFree _ hMem rfl
  obtain ⟨-, -, -, hMethods⟩ := Program.addMethod_ok hAdd
  obtain ⟨r, hBody, h'⟩ := Program.setBody_registers h.filed ⟨p.methods.length⟩ b
    (by simp [Program.method?, hMethods])
  exact ⟨_, q, r, hAdd, hBody, h.trans h'⟩

/-- A record is declared if its full name is free. -/
theorem synthesize_registers (hFiled : p.Filed) (hRoot : (p.type? root).isSome)
    (hName : fullNameOf p key = .ok name)
    (hApart : (p.registry ++ entries p root key.receiver name).Apart p.digest)
    (hFree : name ∉ p.registry.types) :
    ∃ r q, synthesize root key p = .ok r q ∧
      p.Registers q (entries p root key.receiver name) ∧
      (q.type? r.type).isSome ∧ q.typeName r.type = name := by
  obtain ⟨m, own, hMethod, hOwn, hQualified⟩ := fullNameOf_ok.mp hName
  let fields : Registry :=
    ⟨[], key.receiver.toList.map fun _ => (name, "receiver"), []⟩ ++ ⟨[], [(name, "context")], []⟩
  let constructor : Registry :=
    ⟨[], [], [⟨name, ".ctor", key.receiver.toList.map p.typeName ++ [p.typeName root]⟩]⟩
  have hSplit : entries p root key.receiver name = ⟨[name], [], []⟩ ++ (fields ++ constructor) := by
    ext1 <;> simp [entries, fields, constructor]
  rw [hSplit] at hApart ⊢
  obtain ⟨p₁, hAddType, h₁, t, hType, hFull⟩ := Program.addType_registers hFiled hQualified
    (.ofList [.compilerGenerated, .sealed]) hApart.first hFree
  let type : TypeId := ⟨p.types.length⟩
  have hOwner : (p₁.type? type).isSome := Option.isSome_iff_exists.mpr ⟨t, hType⟩
  have hTypeName : p₁.typeName type = name := (Program.typeName_eq hType).trans hFull
  obtain ⟨receiverField, rootField, p₂, p₃, hReceiver, hContext, h₃⟩ := declareFields_registers
    h₁.filed root key.receiver hOwner hTypeName (h₁.apart hApart).first fun field hMem hSame => by
      rw [h₁.registry] at hMem
      exact hFree (hSame ▸ hFiled.field_owner (by simpa using hMem))
  have h₁₃ := h₁.trans h₃
  have hThere : ∀ id ∈ key.receiver, (p₃.type? id).isSome := fun id hId =>
    h₁₃.renders.isSome (receiver_there hName id hId)
  have hParams : key.receiver.toList.map p₃.typeName ++ [p₃.typeName root]
      = key.receiver.toList.map p.typeName ++ [p.typeName root] := by
    rw [h₁₃.renders.typeName hRoot]
    congr 1
    refine List.map_congr_left fun id hId => h₁₃.renders.typeName ?_
    exact receiver_there hName id (Option.mem_toList.mp hId)
  have hTypeName₃ : p₃.typeName type = name := (h₃.renders.typeName hOwner).trans hTypeName
  obtain ⟨constructor, p₄, p₅, hConstructor, hBody, h₅⟩ := declareConstructor_registers h₃.filed
    (h₃.renders.isSome hOwner) hTypeName₃ hThere (h₁₃.renders.isSome hRoot)
    (by rw [hParams]; exact h₃.apart (h₁.apart hApart)) (fun parts hMem hSame => by
      rw [h₁₃.registry] at hMem
      exact hFree (hSame ▸ hFiled.method_owner (by simpa [fields] using hMem)))
    (.fresh (storeArguments (receiverField.toList ++ [rootField])))
  rw [hParams] at h₅
  have hOwner₃ := h₃.renders.isSome hOwner
  refine ⟨⟨key, type, constructor, receiverField, rootField, ∅, []⟩, p₅, ?_, h₁.trans (h₃.trans h₅),
    h₅.renders.isSome hOwner₃, (h₅.renders.typeName hOwner₃).trans hTypeName₃⟩
  unfold synthesize
  simp only [Step.bind_ok, Step.get_ok, Step.lift_ok, Program.methodDef_ok]
  exact ⟨p, p, ⟨rfl, rfl⟩, m, p, ⟨hMethod, rfl⟩, own, p, ⟨hOwn, rfl⟩, type, p₁, hAddType,
    receiverField, p₂, hReceiver, rootField, p₃, hContext, constructor, p₄, hConstructor, ⟨⟩, p₅,
    hBody, rfl⟩

/-- A record is refused if a type has its full name. -/
theorem synthesize_refused (hFiled : p.Filed) (hName : fullNameOf p key = .ok name)
    (hTaken : name ∈ p.registry.types) :
    synthesize root key p = .error (.duplicateType name) p := by
  obtain ⟨m, own, hMethod, hOwn, hQualified⟩ := fullNameOf_ok.mp hName
  have hAdd : Program.addType "" own (some m.owner) (.ofList [.compilerGenerated, .sealed]) p
      = .error (.duplicateType name) p := by
    rw [Program.addType_eq hQualified, if_pos (hFiled.type_taken hTaken)]
  have hLook : (monadLift (p.methodDef key.enclosing) : Edit MethodDef) p = .ok m p :=
    Step.lift_ok.mpr ⟨Program.methodDef_ok.mpr hMethod, rfl⟩
  have hOwned : (monadLift (nameOf p key) : Edit String) p = .ok own p :=
    Step.lift_ok.mpr ⟨hOwn, rfl⟩
  refine (Step.bind_of_ok hLook).trans ((Step.bind_of_ok hOwned).trans (Step.bind_of_error hAdd))

/-- The full name of a record stays while types and methods are only added. -/
theorem fullNameOf_later (hGrows : p.Grows q)
    (hTypeNames : p.types.map (·.name) <+: q.types.map (·.name))
    (hName : fullNameOf p key = .ok name) : fullNameOf q key = .ok name := by
  obtain ⟨m, o, receiver, hMethod, hOwner, hReceiver, rfl⟩ := fullNameOf_eq.mp hName
  obtain ⟨m', hMethod', hSame⟩ := hGrows.method hMethod
  obtain ⟨o', hOwner', hSameOwner⟩ := hGrows.type hOwner
  refine fullNameOf_eq.mpr ⟨m', o', receiver, hMethod', hSame.owner ▸ hOwner', ?_,
    by rw [hSameOwner.fullName, hSame.name]⟩
  cases hType : key.receiver with
  | none => rwa [hType] at hReceiver
  | some id =>
      rw [hType] at hReceiver
      obtain ⟨t, hType, rfl⟩ := Option.map_eq_some_iff.mp hReceiver
      obtain ⟨t', hType', hSameName⟩ := Program.type?_of_prefix hTypeNames hType
      exact Option.map_eq_some_iff.mpr ⟨t', hType', by rw [hSameName]⟩

/-- What a request for a record registers, if the record has a name. -/
def request (p : Program) (root : TypeId) (key : RecordKey) : Registry :=
  match fullNameOf p key with
  | .ok name => entries p root key.receiver name
  | .error _ => ⟨[], [], []⟩

/-- What requests for records register. -/
def requests (p : Program) (root : TypeId) (keys : List RecordKey) : Registry where
  types := keys.flatMap fun key => (request p root key).types
  fields := keys.flatMap fun key => (request p root key).fields
  methods := keys.flatMap fun key => (request p root key).methods

/-- What a record registers goes by the names of its receiver and the root, which stay. -/
theorem entries_later (hRenders : p.Renders q) (hName : fullNameOf p key = .ok name)
    (hRoot : (p.type? root).isSome) :
    entries q root key.receiver name = entries p root key.receiver name := by
  have hReceiver : key.receiver.toList.map q.typeName = key.receiver.toList.map p.typeName :=
    List.map_congr_left fun id hId =>
      hRenders.typeName (receiver_there hName id (Option.mem_toList.mp hId))
  rw [entries, entries, hReceiver, hRenders.typeName hRoot]

theorem requests_append (keys more : List RecordKey) :
    requests p root (keys ++ more) = requests p root keys ++ requests p root more := by
  ext1 <;> simp [requests]

theorem requests_single (hName : fullNameOf p key = .ok name) :
    requests p root [key] = entries p root key.receiver name := by
  ext1 <;> simp [requests, request, hName]

/-- A requested name is that of one of the keys. -/
theorem mem_requests_types {keys : List RecordKey} :
    name ∈ (requests p root keys).types ↔ ∃ key ∈ keys, fullNameOf p key = .ok name := by
  refine List.mem_flatMap.trans (exists_congr fun key => and_congr_right fun _ => ?_)
  unfold request
  cases fullNameOf p key with
  | ok other => simp [entries, eq_comm]
  | error e => simp

end CaptureRecord

/-- What requests for records have come to: each of them has its record, the type of which is
registered under the full name that goes with its key, and no two of the keys share that name. -/
structure RecordsMade (p : Program) (root : TypeId) (keys : List RecordKey)
    (rs : List CaptureRecord) (s : Closures × Workspace) : Prop where
  under : s.1.root = root
  filed : s.2.program.Filed
  grows : p.Grows s.2.program
  typeNames : p.types.map (·.name) <+: s.2.program.types.map (·.name)
  within : s.2.program.registry.Within (p.registry ++ CaptureRecord.requests p root keys)
  found : List.Forall₂ (fun key r => s.1.records.get? key = some r) keys rs
  known : ∀ key r, s.1.records.get? key = some r → key ∈ keys ∧ r.key = key ∧
    (s.2.program.type? r.type).isSome ∧
    CaptureRecord.fullNameOf p key = .ok (s.2.program.typeName r.type)
  apart : Set.InjOn (CaptureRecord.fullNameOf p) { key | key ∈ keys }

namespace RecordsMade

open CaptureRecord (fullNameOf requests entries)

variable {p : Program} {root : TypeId} {keys : List RecordKey} {rs : List CaptureRecord}
  {s : Closures × Workspace}

theorem found_mem (h : RecordsMade p root keys rs s) {key : RecordKey} (hMem : key ∈ keys) :
    ∃ r, s.1.records.get? key = some r := by
  have hFound := h.found
  clear h
  induction hFound with
  | nil => exact (List.not_mem_nil hMem).elim
  | cons hFirst _ ih =>
      rcases List.mem_cons.mp hMem with rfl | hMem
      · exact ⟨_, hFirst⟩
      · exact ih hMem

/-- A request for a record that is there returns it. -/
theorem again (h : RecordsMade p root keys rs s) {key : RecordKey} {r : CaptureRecord}
    (hKnown : s.1.records.get? key = some r) :
    ClosureEdit.record key s = .ok r s ∧ RecordsMade p root (keys ++ [key]) (rs ++ [r]) s := by
  have hMem : key ∈ keys := (h.known key r hKnown).1
  have hSame (other : RecordKey) : other ∈ keys ++ [key] ↔ other ∈ keys := by
    rw [List.mem_append, List.mem_singleton]
    exact or_iff_left_of_imp fun hOther => hOther ▸ hMem
  refine ⟨?_, h.under, h.filed, h.grows, h.typeNames, ?_, ?_, ?_, ?_⟩
  · refine Step.bind_ok.mpr ⟨s.1, s, ClosureEdit.closures_ok.mpr ⟨rfl, rfl⟩, ?_⟩
    simp only [hKnown]
    rfl
  · rw [CaptureRecord.requests_append, ← Registry.append_assoc]
    exact h.within.trans (Registry.within_append _ _)
  · exact List.rel_append h.found (List.Forall₂.cons hKnown .nil)
  · intro other r' hOther
    exact (h.known other r' hOther).imp_left (hSame other).mpr
  · exact h.apart.mono fun other hOther => (hSame other).mp hOther

/-- A request for a record whose full name is free declares it. -/
theorem declare (h : RecordsMade p root keys rs s) {key : RecordKey} {name : String}
    (hNew : s.1.records.get? key = none) (hRoot : (p.type? root).isSome)
    (hName : fullNameOf p key = .ok name)
    (hApart : (p.registry ++ requests p root (keys ++ [key])).Apart p.digest)
    (hFree : name ∉ s.2.program.registry.types) :
    ∃ r t, ClosureEdit.record key s = .ok r t ∧
      RecordsMade p root (keys ++ [key]) (rs ++ [r]) t := by
  have hRenders := h.grows.renders
  have hEntries := CaptureRecord.entries_later hRenders hName hRoot
  have hWithin : (s.2.program.registry ++ entries p root key.receiver name).Within
      (p.registry ++ requests p root (keys ++ [key])) := by
    rw [CaptureRecord.requests_append, CaptureRecord.requests_single hName, ← Registry.append_assoc]
    exact h.within.append _
  have hApartNow : (s.2.program.registry ++ entries s.2.program root key.receiver name).Apart
      s.2.program.digest := by
    rw [hEntries, hRenders.digest]
    exact hApart.of_within hWithin
  obtain ⟨r, q, hRun, hRegisters, hThere, hType⟩ := CaptureRecord.synthesize_registers h.filed
    (hRenders.isSome hRoot) (CaptureRecord.fullNameOf_later h.grows h.typeNames hName) hApartNow
    hFree
  obtain ⟨rfl, -, hRewrites, -⟩ := CaptureRecord.synthesize_ok hRun
  rw [hEntries] at hRegisters
  obtain rfl := h.under
  let t : Closures × Workspace :=
    ({ s.1.putRecord r with recordTypes := insertNew s.1.recordTypes r.type },
      { s.2 with program := q })
  have hGet (other : RecordKey) :
      t.1.records.get? other = if r.key = other then some r else s.1.records.get? other :=
    Table.get?_insert s.1.records r.key other r
  have hLater {other : RecordKey} {r' : CaptureRecord} (hOther : s.1.records.get? other = some r') :
      t.1.records.get? other = some r' := by
    rw [hGet, if_neg, hOther]
    rintro rfl
    rw [hNew] at hOther
    cases hOther
  refine ⟨r, t, ?_, rfl, hRegisters.filed, h.grows.trans hRewrites.grows,
    h.typeNames.trans hRegisters.typeNames, hRegisters.registry ▸ hWithin, ?_, ?_, ?_⟩
  · refine Step.bind_ok.mpr ⟨s.1, s, ClosureEdit.closures_ok.mpr ⟨rfl, rfl⟩, ?_⟩
    simp only [hNew]
    exact Step.bind_ok.mpr ⟨r, _, ClosureEdit.edit_ok.mpr ⟨q, hRun, rfl⟩, rfl⟩
  · refine List.rel_append (h.found.imp fun _ _ => hLater) (List.Forall₂.cons ?_ .nil)
    rw [hGet, if_pos rfl]
  · intro other r' hOther
    rw [hGet] at hOther
    split at hOther
    · rename_i hSame
      obtain rfl := hSame
      obtain rfl := Option.some_inj.mp hOther
      exact ⟨by simp, rfl, hThere, hType.symm ▸ hName⟩
    · obtain ⟨hMem, hKey, hThere', hName'⟩ := h.known other r' hOther
      refine ⟨List.mem_append_left _ hMem, hKey, hRegisters.renders.isSome hThere', ?_⟩
      rw [hRegisters.renders.typeName hThere']
      exact hName'
  · have hFirst : ∀ other ∈ keys, fullNameOf p other ≠ fullNameOf p r.key := by
      intro other hMem hSame
      obtain ⟨r', hFound⟩ := h.found_mem hMem
      obtain ⟨-, -, hThere', hName'⟩ := h.known other r' hFound
      have hFull : s.2.program.typeName r'.type = name :=
        Except.ok.inj (hName'.symm.trans (hSame.trans hName))
      exact hFree (hFull ▸ Program.typeName_mem hThere')
    intro a ha b hb hSame
    rcases List.mem_append.mp ha with ha | ha <;> rcases List.mem_append.mp hb with hb | hb
    · exact h.apart ha hb hSame
    · obtain rfl := List.mem_singleton.mp hb
      exact (hFirst a ha hSame).elim
    · obtain rfl := List.mem_singleton.mp ha
      exact (hFirst b hb hSame.symm).elim
    · exact (List.mem_singleton.mp ha).trans (List.mem_singleton.mp hb).symm

/-- A request for a record that would be named like that of another key fails. -/
theorem refuse (h : RecordsMade p root keys rs s) {key : RecordKey} {name : String}
    (hNew : s.1.records.get? key = none) (hName : fullNameOf p key = .ok name)
    (hTaken : name ∈ s.2.program.registry.types) (hOwn : name ∉ p.registry.types) :
    (∃ other ∈ keys, other ≠ key ∧ fullNameOf p other = .ok name) ∧
      ClosureEdit.record key s = .error (.model (.duplicateType name)) s := by
  refine ⟨?_, ?_⟩
  · rcases List.mem_append.mp (h.within.types hTaken) with hOld | hAsked
    · exact (hOwn hOld).elim
    · obtain ⟨other, hMem, hOther⟩ := CaptureRecord.mem_requests_types.mp hAsked
      refine ⟨other, hMem, ?_, hOther⟩
      rintro rfl
      obtain ⟨r, hFound⟩ := h.found_mem hMem
      rw [hNew] at hFound
      cases hFound
  · have hRun : CaptureRecord.synthesize s.1.root key s.2.program
        = .error (.duplicateType name) s.2.program :=
      CaptureRecord.synthesize_refused h.filed
        (CaptureRecord.fullNameOf_later h.grows h.typeNames hName) hTaken
    have hEdit : ClosureEdit.edit (CaptureRecord.synthesize s.1.root key) s
        = .error (.model (.duplicateType name)) s := by
      unfold ClosureEdit.edit ClosureEdit.work CodeEdit.edit focus
      simp only [hRun]
      rfl
    refine (Step.bind_of_ok (ClosureEdit.closures_ok.mpr ⟨rfl, rfl⟩)).trans ?_
    simp only [hNew]
    exact Step.bind_of_error hEdit

/-- Requests are served one after the other, until one would name its record like that of another
key. -/
theorem run (h : RecordsMade p root keys rs s) (hRoot : (p.type? root).isSome)
    {more : List RecordKey}
    (hNamed : ∀ key ∈ more, ∃ name, fullNameOf p key = .ok name ∧ name ∉ p.registry.types)
    (hApart : (p.registry ++ requests p root (keys ++ more)).Apart p.digest) :
    (∃ rs' t, more.mapM ClosureEdit.record s = .ok rs' t ∧
      RecordsMade p root (keys ++ more) (rs ++ rs') t) ∨
    ∃ key ∈ more, ∃ other ∈ keys ++ more, other ≠ key ∧ ∃ name t, fullNameOf p key = .ok name ∧
      fullNameOf p other = .ok name ∧
      more.mapM ClosureEdit.record s = .error (.model (.duplicateType name)) t := by
  induction more generalizing keys rs s with
  | nil => exact Or.inl ⟨[], s, rfl, by simpa using h⟩
  | cons key more ih =>
      obtain ⟨name, hName, hOwn⟩ := hNamed key (List.mem_cons_self ..)
      have hSplit : keys ++ key :: more = keys ++ [key] ++ more := by simp
      have hFirst : (∃ r t, ClosureEdit.record key s = .ok r t ∧
          RecordsMade p root (keys ++ [key]) (rs ++ [r]) t) ∨
          (∃ other ∈ keys, other ≠ key ∧ fullNameOf p other = .ok name) ∧
            ClosureEdit.record key s = .error (.model (.duplicateType name)) s := by
        cases hKnown : s.1.records.get? key with
        | some r => exact Or.inl ⟨r, s, h.again hKnown⟩
        | none =>
            by_cases hTaken : name ∈ s.2.program.registry.types
            · exact Or.inr (h.refuse hKnown hName hTaken hOwn)
            · refine Or.inl (h.declare hKnown hRoot hName ?_ hTaken)
              rw [hSplit, CaptureRecord.requests_append, ← Registry.append_assoc] at hApart
              exact hApart.of_within (Registry.within_append _ _)
      rw [List.mapM_cons]
      rcases hFirst with ⟨r, t, hRun, hMade⟩ | ⟨⟨other, hMem, hOther, hSame⟩, hRun⟩
      · rw [Step.bind_of_ok hRun]
        have hRest := ih hMade (fun key hMem => hNamed key (List.mem_cons_of_mem _ hMem))
          (hSplit ▸ hApart)
        rcases hRest with
          ⟨rs', u, hRest, hAll⟩ | ⟨key', hKey', other, hMem, hOther, name', u, hName', hSame, hRest⟩
        · refine Or.inl ⟨r :: rs', u, ?_, by simpa using hAll⟩
          rw [Step.bind_of_ok hRest]
          rfl
        · exact Or.inr ⟨key', List.mem_cons_of_mem _ hKey', other, hSplit ▸ hMem, hOther, name', u,
            hName', hSame, Step.bind_of_error hRest⟩
      · exact Or.inr ⟨key, List.mem_cons_self .., other, List.mem_append_left _ hMem, hOther, name,
          s, hName, hSame, Step.bind_of_error hRun⟩

end RecordsMade

namespace CaptureRecord

section Naming

variable {p : Program}

theorem occursIn_iff {part l : List Char} : occursIn part l = true ↔ part <:+: l := by
  induction l with
  | nil => simp [occursIn]
  | cons c l ih =>
      rw [occursIn, Bool.or_eq_true, ih, List.isPrefixOf_iff_prefix, List.infix_cons_iff]

/-- Where the marker begins anew within a text that it begins, it begins behind itself: its first
letter does not come again in it. -/
theorem marker_ahead {ahead rest rest' : List Char}
    (h : marker.toList ++ rest = ahead ++ (marker.toList ++ rest')) :
    ahead = [] ∨ marker.toList <+: ahead := by
  rcases List.append_eq_append_iff.mp h with ⟨more, rfl, -⟩ | ⟨back, hMarker, hBack⟩
  · exact Or.inr (List.prefix_append _ _)
  · cases back with
    | nil => exact Or.inr ⟨[], by rw [hMarker]; simp⟩
    | cons c back =>
        obtain rfl : 'c' = c := (List.cons.inj hBack).1
        cases ahead with
        | nil => exact Or.inl rfl
        | cons a ahead =>
            have hOnce : 'c' ∉ marker.toList.tail := by decide
            rw [hMarker] at hOnce
            exact (hOnce (by simp)).elim

/-- The marker tells what is ahead of it from what is behind, unless it stands in what is ahead. -/
theorem split_at_marker {ahead ahead' rest rest' : List Char} (hAhead : ¬ marker.toList <:+: ahead)
    (hAhead' : ¬ marker.toList <:+: ahead')
    (h : ahead ++ (marker.toList ++ rest) = ahead' ++ (marker.toList ++ rest')) :
    ahead = ahead' ∧ rest = rest' := by
  rcases List.append_eq_append_iff.mp h with ⟨more, rfl, hMore⟩ | ⟨more, rfl, hMore⟩
  · rcases marker_ahead hMore with rfl | hIn
    · exact ⟨(List.append_nil _).symm, List.append_cancel_left hMore⟩
    · exact (hAhead' (hIn.isInfix.trans (List.suffix_append _ _).isInfix)).elim
  · rcases marker_ahead hMore with rfl | hIn
    · exact ⟨List.append_nil _, (List.append_cancel_left hMore).symm⟩
    · exact (hAhead (hIn.isInfix.trans (List.suffix_append _ _).isInfix)).elim

/-- The digits of a number end where something else begins. -/
theorem split_after_number {n n' : Nat} {rest rest' : List Char}
    (hRest : rest.takeWhile Char.isDigit = []) (hRest' : rest'.takeWhile Char.isDigit = [])
    (h : Nat.toDigits 10 n ++ rest = Nat.toDigits 10 n' ++ rest') : n = n' := by
  have hDigits (n : Nat) {rest : List Char} (hRest : rest.takeWhile Char.isDigit = []) :
      (Nat.toDigits 10 n ++ rest).takeWhile Char.isDigit = Nat.toDigits 10 n := by
    rw [List.takeWhile_append_of_pos, hRest, List.append_nil]
    exact fun c hMem => Nat.isDigit_of_mem_toDigits (by decide) (by decide) hMem
  have hSame := congrArg (List.takeWhile Char.isDigit) h
  rw [hDigits n hRest, hDigits n' hRest'] at hSame
  calc n = Nat.ofDigitChars 10 (Nat.toDigits 10 n) 0 :=
        (Nat.ofDigitChars_toDigits (by decide) (by decide)).symm
    _ = Nat.ofDigitChars 10 (Nat.toDigits 10 n') 0 := by rw [hSame]
    _ = n' := Nat.ofDigitChars_toDigits (by decide) (by decide)

theorem receiverSuffix_inj {name name' : Option String}
    (h : receiverSuffix name = receiverSuffix name') : name = name' := by
  have hShown (shown : String) : "_" ++ shown ≠ "" := by simp
  cases name <;> cases name'
  · rfl
  · exact (hShown _ h.symm).elim
  · exact (hShown _ h).elim
  · exact congrArg some ((String.append_right_inj _).mp h)

theorem receiverSuffix_takeWhile (name : Option String) :
    (receiverSuffix name).toList.takeWhile Char.isDigit = [] := by
  cases name with
  | none => rfl
  | some name => simp [receiverSuffix]

/-- The marker stands neither in the full name of the type of a method nor in its own name. -/
def Unmarked (p : Program) (method : MethodId) : Prop :=
  ∀ m o, p.method? method = some m → p.type? m.owner = some o →
    occursIn marker.toList (o.fullName ++ "/<" ++ m.name ++ ">").toList = false

/-- Records of one method are named alike if their receivers are. -/
theorem fullNameOf_same_method {a b : RecordKey} {name name' : String}
    (hA : fullNameOf p a = .ok name) (hB : fullNameOf p b = .ok name')
    (hMethod : a.enclosing = b.enclosing) :
    name = name' ↔ receiverName? p a.receiver = receiverName? p b.receiver := by
  obtain ⟨m, o, receiver, hM, hO, hReceiver, rfl⟩ := fullNameOf_eq.mp hA
  obtain ⟨m', o', receiver', hM', hO', hReceiver', rfl⟩ := fullNameOf_eq.mp hB
  rw [← hMethod] at hM' ⊢
  obtain rfl := Option.some_inj.mp (hM.symm.trans hM')
  obtain rfl := Option.some_inj.mp (hO.symm.trans hO')
  rw [hReceiver, hReceiver', String.append_right_inj, String.append_right_inj, Option.some_inj]
  exact ⟨receiverSuffix_inj, congrArg receiverSuffix⟩

/-- Records of different methods are named differently, unless the marker stands in names of methods
or of the types that they belong to. -/
theorem fullNameOf_method {a b : RecordKey} {name : String} (hA : fullNameOf p a = .ok name)
    (hB : fullNameOf p b = .ok name) (hPlain : Unmarked p a.enclosing)
    (hPlain' : Unmarked p b.enclosing) : a.enclosing = b.enclosing := by
  have hText {key : RecordKey} (hName : fullNameOf p key = .ok name)
      (hPlain : Unmarked p key.enclosing) :
      ∃ ahead rest, ¬ marker.toList <:+: ahead ∧ rest.takeWhile Char.isDigit = [] ∧
        name.toList =
          ahead ++ (marker.toList ++ (Nat.toDigits 10 key.enclosing.index ++ rest)) := by
    obtain ⟨m, o, receiver, hMethod, hOwner, -, rfl⟩ := fullNameOf_eq.mp hName
    refine ⟨(o.fullName ++ "/<" ++ m.name ++ ">").toList, (receiverSuffix receiver).toList, ?_,
      receiverSuffix_takeWhile receiver, ?_⟩
    · rw [← occursIn_iff, hPlain m o hMethod hOwner]
      exact Bool.false_ne_true
    · simp [Nat.toList_repr]
  obtain ⟨ahead, rest, hAhead, hRest, hName⟩ := hText hA hPlain
  obtain ⟨ahead', rest', hAhead', hRest', hName'⟩ := hText hB hPlain'
  obtain ⟨-, hNumber⟩ := split_at_marker hAhead hAhead' (hName.symm.trans hName')
  have hIndex := split_after_number hRest hRest' hNumber
  cases hEnclosing : a.enclosing
  cases hEnclosing' : b.enclosing
  simp_all

end Naming

end CaptureRecord

namespace ClosureEdit

open CaptureRecord (fullNameOf requests receiverName? Unmarked)

/-- Requests for records of methods and types that are there, ahead of which no record was made. No
type is named like one of them, and the digest tells apart what is registered in the end. -/
structure Requestable (s : Closures × Workspace) (keys : List RecordKey) : Prop where
  filed : s.2.program.Filed
  root : (s.2.program.type? s.1.root).isSome
  fresh : ∀ key, s.1.records.get? key = none
  there : ∀ key ∈ keys, (s.2.program.method? key.enclosing).isSome ∧
    ∀ receiver ∈ key.receiver, (s.2.program.type? receiver).isSome
  free : ∀ key ∈ keys, ∀ name, fullNameOf s.2.program key = .ok name →
    name ∉ s.2.program.registry.types
  apart : (s.2.program.registry ++ requests s.2.program s.1.root keys).Apart s.2.program.digest

namespace Requestable

variable {s : Closures × Workspace} {keys : List RecordKey}

/-- Each of the requested records has a name, and no type has it. -/
theorem named (h : Requestable s keys) {key : RecordKey} (hMem : key ∈ keys) :
    ∃ name, fullNameOf s.2.program key = .ok name ∧ name ∉ s.2.program.registry.types := by
  obtain ⟨hMethod, hReceiver⟩ := h.there key hMem
  obtain ⟨m, hMethod⟩ := Option.isSome_iff_exists.mp hMethod
  obtain ⟨o, hOwner⟩ := Option.isSome_iff_exists.mp (h.filed.known _ m hMethod).1
  obtain ⟨receiver, hName⟩ :
      ∃ receiver, receiverName? s.2.program key.receiver = some receiver := by
    cases hKey : key.receiver with
    | none => exact ⟨none, rfl⟩
    | some id =>
        obtain ⟨t, hType⟩ := Option.isSome_iff_exists.mp (hReceiver id hKey)
        exact ⟨some t.name, Option.map_eq_some_iff.mpr ⟨t, hType, rfl⟩⟩
  have hFull := CaptureRecord.fullNameOf_eq.mpr ⟨m, o, receiver, hMethod, hOwner, hName, rfl⟩
  exact ⟨_, hFull, h.free key hMem _ hFull⟩

theorem recordsMade (h : Requestable s keys) : RecordsMade s.2.program s.1.root [] [] s where
  under := rfl
  filed := h.filed
  grows := .refl _
  typeNames := List.prefix_rfl
  within := Registry.within_append _ _
  found := .nil
  known key r hKnown := by rw [h.fresh] at hKnown; cases hKnown
  apart := by simp

end Requestable

/-- Each request got a record of its key, requests by the same key the same one, and requests by
different keys records of different types. -/
structure Served (keys : List RecordKey) (rs : List CaptureRecord) : Prop where
  keys : rs.map (·.key) = keys
  same : ∀ r ∈ rs, ∀ r' ∈ rs, r.key = r'.key → r = r'
  apart : ∀ r ∈ rs, ∀ r' ∈ rs, r.type = r'.type → r.key = r'.key

end ClosureEdit

/-- Records that were made for different keys have different types. -/
theorem RecordsMade.served {p : Program} {root : TypeId} {keys : List RecordKey}
    {rs : List CaptureRecord} {s : Closures × Workspace} (h : RecordsMade p root keys rs s) :
    ClosureEdit.Served keys rs := by
  have hFound {keys : List RecordKey} {rs : List CaptureRecord}
      (hFound : List.Forall₂ (fun key r => s.1.records.get? key = some r) keys rs) :
      rs.map (·.key) = keys ∧ ∀ r ∈ rs, s.1.records.get? r.key = some r := by
    induction hFound with
    | nil => simp
    | cons hFirst _ ih =>
        obtain ⟨-, rfl, -⟩ := h.known _ _ hFirst
        exact ⟨by rw [List.map_cons, ih.1], List.forall_mem_cons.mpr ⟨hFirst, ih.2⟩⟩
  obtain ⟨hKeys, hGet⟩ := hFound h.found
  refine ⟨hKeys, fun r hMem r' hMem' hKey => ?_, fun r hMem r' hMem' hType => ?_⟩
  · have hSame := hGet r hMem
    rw [hKey, hGet r' hMem'] at hSame
    exact (Option.some_inj.mp hSame).symm
  · obtain ⟨hKey, -, -, hName⟩ := h.known _ _ (hGet r hMem)
    obtain ⟨hKey', -, -, hName'⟩ := h.known _ _ (hGet r' hMem')
    exact h.apart hKey hKey' (hName.trans (hType ▸ hName'.symm))

namespace ClosureEdit

variable {s : Closures × Workspace} {keys : List RecordKey}

open CaptureRecord (fullNameOf receiverName? Unmarked)

/-- Requests for records are served if no two of their keys lead to the same full name, and else one
of them fails. For one method, keys lead to the same name if the receivers have the same name,
whatever encloses these; for different methods they do not, unless the marker of record names stands
in other names as well. -/
theorem requested_records (h : Requestable s keys) :
    (Set.InjOn (fullNameOf s.2.program) { key | key ∈ keys } →
      ∃ rs t, keys.mapM record s = .ok rs t ∧ Served keys rs) ∧
    (¬ Set.InjOn (fullNameOf s.2.program) { key | key ∈ keys } →
      ∃ a ∈ keys, ∃ b ∈ keys, a ≠ b ∧ ∃ name t, fullNameOf s.2.program a = .ok name ∧
        fullNameOf s.2.program b = .ok name ∧
        keys.mapM record s = .error (.model (.duplicateType name)) t) ∧
    (∀ a ∈ keys, ∀ b ∈ keys, a.enclosing = b.enclosing →
      (fullNameOf s.2.program a = fullNameOf s.2.program b ↔
        receiverName? s.2.program a.receiver = receiverName? s.2.program b.receiver)) ∧
    ∀ a ∈ keys, ∀ b ∈ keys, Unmarked s.2.program a.enclosing → Unmarked s.2.program b.enclosing →
      fullNameOf s.2.program a = fullNameOf s.2.program b → a.enclosing = b.enclosing := by
  have hRun := h.recordsMade.run h.root (fun key hMem => h.named hMem) h.apart
  simp only [List.nil_append] at hRun
  refine ⟨fun hApart => ?_, fun hShared => ?_, fun a ha b hb hMethod => ?_,
    fun a ha b hb hPlain hPlain' hSame => ?_⟩
  · rcases hRun with
      ⟨rs, t, hDone, hMade⟩ | ⟨key, hKey, other, hMem, hOther, name, t, hName, hSame, -⟩
    · exact ⟨rs, t, hDone, hMade.served⟩
    · exact (hOther (hApart hMem hKey (hSame.trans hName.symm))).elim
  · rcases hRun with
      ⟨rs, t, hDone, hMade⟩ | ⟨key, hKey, other, hMem, hOther, name, t, hName, hSame, hFail⟩
    · exact (hShared hMade.apart).elim
    · exact ⟨other, hMem, key, hKey, hOther, name, t, hSame, hName, hFail⟩
  · obtain ⟨name, hA, -⟩ := h.named ha
    obtain ⟨name', hB, -⟩ := h.named hb
    rw [hA, hB, Except.ok.injEq]
    exact CaptureRecord.fullNameOf_same_method hA hB hMethod
  · obtain ⟨name, hA, -⟩ := h.named ha
    exact CaptureRecord.fullNameOf_method hA (hSame ▸ hA) hPlain hPlain'

section Examples

/-- A method, and two types of the same name in different name spaces. -/
def widgets : List Change :=
  [.addType "G" "Root" none ⟨0⟩, .addType "G" "User" none ⟨0⟩, .addType "A" "Widget" none ⟨0⟩,
    .addType "B" "Widget" none ⟨0⟩, .addMethod ⟨1⟩ "Run" [] .void ⟨0⟩]

theorem widgets_reached : (widgets.foldl Change.after .empty).Reached Symbol.digest :=
  Program.Reached.start.run (by decide +kernel)

/-- The state ahead of the first request. -/
def widgetsState : Closures × Workspace :=
  (.ofProgram (widgets.foldl Change.after .empty) ⟨0⟩ true,
    ⟨widgets.foldl Change.after .empty, .empty⟩)

/-- The key for a capture in the method, with a receiver of a type or without. -/
def widgetsKey (receiver : Option TypeId) : RecordKey := ⟨⟨0⟩, receiver⟩

/-- What is still to be checked of requests in that state. -/
theorem widgets_requestable {keys : List RecordKey}
    (h : (∀ key ∈ keys, (widgetsState.2.program.method? key.enclosing).isSome ∧
        ∀ receiver ∈ key.receiver, (widgetsState.2.program.type? receiver).isSome) ∧
      (∀ key ∈ keys, ∀ name ∈ (fullNameOf widgetsState.2.program key).toOption,
        name ∉ widgetsState.2.program.registry.types) ∧
      (widgetsState.2.program.registry ++
        CaptureRecord.requests widgetsState.2.program ⟨0⟩ keys).Apart Symbol.digest) :
    Requestable widgetsState keys where
  filed := widgets_reached.filed
  root := by decide +kernel
  fresh _ := rfl
  there := h.1
  free key hMem name hName := h.2.1 key hMem name (by rw [hName]; rfl)
  apart := by
    have hDigest : widgetsState.2.program.digest = Symbol.digest := by rfl
    rw [hDigest]
    exact h.2.2

/-- No type is named like a record, and the receivers of two captures in one method have different
types; but the second of their records is refused as a type that is there. -/
theorem widgets_clash :
    Requestable widgetsState [widgetsKey (some ⟨2⟩), widgetsKey (some ⟨3⟩)] ∧
    (∀ t ∈ widgetsState.2.program.types, CaptureRecord.isRecordName t.name = false) ∧
    ∃ t, [widgetsKey (some ⟨2⟩), widgetsKey (some ⟨3⟩)].mapM record widgetsState
      = .error (.model (.duplicateType "G.User/<Run>c__ContextCapture0_Widget")) t := by
  exact ⟨widgets_requestable (by decide +kernel), by decide +kernel,
    Step.of_error? (by decide +kernel)⟩

/-- Captures with a receiver and one without. -/
def widgetsKeys : List RecordKey := [widgetsKey (some ⟨2⟩), widgetsKey none, widgetsKey (some ⟨2⟩)]

/-- The captures with and without a receiver get records of their own, and the two with the same
receiver share one. -/
theorem widgets_served :
    Requestable widgetsState widgetsKeys ∧
    Set.InjOn (fullNameOf widgetsState.2.program) { key | key ∈ widgetsKeys } ∧
    ∃ rs t, widgetsKeys.mapM record widgetsState = .ok rs t ∧ Served widgetsKeys rs := by
  have hAsk : Requestable widgetsState widgetsKeys := widgets_requestable (by decide +kernel)
  have hNames : ∀ a ∈ widgetsKeys, ∀ b ∈ widgetsKeys,
      fullNameOf widgetsState.2.program a = fullNameOf widgetsState.2.program b → a = b := by
    decide +kernel
  have hApart : Set.InjOn (fullNameOf widgetsState.2.program) { key | key ∈ widgetsKeys } :=
    fun a ha b hb => hNames a ha b hb
  exact ⟨hAsk, hApart, (requested_records hAsk).1 hApart⟩

end Examples

end ClosureEdit

end ContextBinding
