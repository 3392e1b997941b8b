import ContextBinding.Proofs.Edit
import ContextBinding.Proofs.Graph
import ContextBinding.Proofs.Stack

/-! Programs that differ in some methods, and there in the code and in whether they are in use only.
The code of all other methods is looked at alike in both. -/

namespace ContextBinding

/-- A method as it is declared, in use or not, without its code. -/
def MethodDef.declaration (m : MethodDef) : MethodDef :=
  { m with flags := m.flags.erase .retired, body := none }

namespace MethodDef

variable {m n : MethodDef}

theorem has_declaration (m : MethodDef) {flag : MethodFlag}
    (h : Flag.bit MethodFlag.retired ≠ Flag.bit flag) :
    m.declaration.flags.has flag = m.flags.has flag := by
  change (m.flags.erase .retired).has flag = _
  rw [FlagSet.has_erase]
  simp [h]

/-- What is declared alike is called and constructed alike. -/
theorem effects_of_declaration (h : m.declaration = n.declaration) :
    m.owner = n.owner ∧ m.name = n.name ∧ m.paramTypes = n.paramTypes ∧
      m.isConstructor = n.isConstructor ∧ m.resultCount = n.resultCount ∧
      m.callEffect = n.callEffect ∧ m.constructionEffect = n.constructionEffect := by
  have hFlag (flag : MethodFlag) (hOther : Flag.bit MethodFlag.retired ≠ Flag.bit flag) :
      m.flags.has flag = n.flags.has flag := by
    rw [← has_declaration m hOther, h, has_declaration n hOther]
  have hStatic : m.isStatic = n.isStatic := hFlag .static (by decide)
  have hParams : m.params = n.params := (MethodDef.mk.inj h).2.2.1
  have hResult : m.returnType = n.returnType := (MethodDef.mk.inj h).2.2.2.1
  refine ⟨(MethodDef.mk.inj h).1, (MethodDef.mk.inj h).2.1, ?_, hFlag .constructor (by decide), ?_, ?_,
    ?_⟩
  · unfold paramTypes
    rw [hParams]
  · unfold resultCount returnsValue
    rw [hResult]
  · unfold callEffect argCount thisOffset resultCount returnsValue
    rw [hParams, hResult, hStatic]
  · unfold constructionEffect
    rw [hParams]

end MethodDef

namespace Program

/-- Two programs differ in the code of some methods and in whether those are in use, and for that in
the methods that types other than delegates list. -/
structure DiffersIn (changed : List MethodId) (p q : Program) : Prop where
  types : p.types.map (fun t => { t with methods := [] }) = q.types.map fun t => { t with methods := [] }
  delegates : ∀ id t, p.type? id = some t → t.isDelegate = true → q.type? id = some t
  methods : p.methods.map MethodDef.declaration = q.methods.map MethodDef.declaration
  others : ∀ id, id ∉ changed → q.method? id = p.method? id

namespace DiffersIn

variable {changed : List MethodId} {p q : Program}

/-- Code that is put in makes a difference in that method only. -/
theorem putBody (p : Program) (method : MethodId) (b : MethodBody) :
    p.DiffersIn [method] (p.touch.putBody method b) where
  types := rfl
  delegates _ _ hType _ := hType
  methods := by
    refine List.ext_getElem? fun n => ?_
    simp only [Program.putBody, Program.touch, List.getElem?_map, List.getElem?_modify]
    cases p.methods[n]? with
    | none => rfl
    | some m => by_cases hSame : method.index = n <;> simp [hSame, MethodDef.declaration]
  others id hOther := by
    have hApart : method ≠ id := fun hSame => hOther (List.mem_singleton.mpr hSame.symm)
    simp only [Program.putBody, method?_modify, if_neg hApart, Option.map_id']
    rfl

theorem type? (h : p.DiffersIn changed q) (id : TypeId) :
    (p.type? id).map (fun t => { t with methods := [] })
      = (q.type? id).map fun t => { t with methods := [] } := by
  unfold Program.type?
  rw [← List.getElem?_map, ← List.getElem?_map, h.types]

theorem method? (h : p.DiffersIn changed q) (id : MethodId) :
    (p.method? id).map MethodDef.declaration = (q.method? id).map MethodDef.declaration := by
  unfold Program.method?
  rw [← List.getElem?_map, ← List.getElem?_map, h.methods]

/-- A method of one program is declared alike in the other one. -/
theorem cases_method? (h : p.DiffersIn changed q) (id : MethodId) :
    (p.method? id = none ∧ q.method? id = none) ∨ ∃ m n, p.method? id = some m ∧
      q.method? id = some n ∧ m.declaration = n.declaration := by
  have hSame := h.method? id
  cases hp : p.method? id <;> cases hq : q.method? id <;> simp_all

theorem typeName (h : p.DiffersIn changed q) : p.typeName = q.typeName := by
  funext id
  have hSame := congrArg (Option.map TypeDef.fullName) (h.type? id)
  simp only [Option.map_map, Function.comp_def] at hSame
  unfold Program.typeName
  cases hp : p.type? id <;> cases hq : q.type? id <;> simp_all

theorem refName (h : p.DiffersIn changed q) (type : TypeRef) : p.refName type = q.refName type := by
  induction type <;> simp_all [Program.refName, h.typeName]

theorem identity (h : p.DiffersIn changed q) (id : MethodId) : p.identity id = q.identity id := by
  unfold Program.identity
  rcases h.cases_method? id with ⟨hp, hq⟩ | ⟨m, n, hp, hq, hSame⟩
  · rw [hp, hq]
  · obtain ⟨hOwner, hName, hParams, -⟩ := MethodDef.effects_of_declaration hSame
    have hRefs : p.refName = q.refName := funext h.refName
    rw [hp, hq]
    simp only [signature, h.typeName, hRefs, hOwner, hName, hParams]

/-- Instructions have the same stack effects in both programs. -/
theorem stackEffect (h : p.DiffersIn changed q) : p.stackEffect = q.stackEffect := by
  funext method i
  unfold Program.stackEffect
  rw [h.identity method]
  cases i.opcode.fixedEffect? with
  | some effect => rfl
  | none =>
      have hTarget : (i.method?.bind p.method? = none ∧ i.method?.bind q.method? = none) ∨
          ∃ m n, i.method?.bind p.method? = some m ∧ i.method?.bind q.method? = some n ∧
            m.declaration = n.declaration := by
        cases i.method? with
        | none => exact Or.inl ⟨rfl, rfl⟩
        | some target => exact h.cases_method? target
      simp only
      split
      · unfold methodDef
        rcases h.cases_method? method with ⟨hp, hq⟩ | ⟨m, n, hp, hq, hSame⟩
        · rw [hp, hq]
        · obtain ⟨-, -, -, -, hResult, -⟩ := MethodDef.effects_of_declaration hSame
          simp only [hp, hq, hResult]
      · rcases hTarget with ⟨hp, hq⟩ | ⟨m, n, hp, hq, hSame⟩
        · rw [hp, hq]
        · obtain ⟨-, -, -, hConstructor, -, -, hEffect⟩ := MethodDef.effects_of_declaration hSame
          simp only [hp, hq, hConstructor, hEffect]
      · rcases hTarget with ⟨hp, hq⟩ | ⟨m, n, hp, hq, hSame⟩
        · rw [hp, hq]
        · obtain ⟨-, -, -, -, -, hEffect, -⟩ := MethodDef.effects_of_declaration hSame
          simp only [hp, hq, hEffect]

theorem any_isDelegate (h : p.DiffersIn changed q) (type : TypeId) :
    (p.type? type).any TypeDef.isDelegate = (q.type? type).any TypeDef.isDelegate := by
  have hSame := congrArg (Option.any TypeDef.isDelegate) (h.type? type)
  rwa [Option.any_map, Option.any_map] at hSame

/-- Delegates are constructed and called by the same methods in both programs. -/
theorem isDelegateConstructor (h : p.DiffersIn changed q) :
    p.isDelegateConstructor = q.isDelegateConstructor := by
  funext id
  unfold Program.isDelegateConstructor
  rcases h.cases_method? id with ⟨hp, hq⟩ | ⟨m, n, hp, hq, hSame⟩
  · rw [hp, hq]
    rfl
  · obtain ⟨hOwner, -, -, hConstructor, -⟩ := MethodDef.effects_of_declaration hSame
    simp only [hp, hq, Option.any_some, hConstructor, hOwner, h.any_isDelegate]

theorem delegateInvoke? (h : p.DiffersIn changed q) : p.delegateInvoke? = q.delegateInvoke? := by
  funext type
  unfold Program.delegateInvoke? findMethods methodsWhere
  rw [← h.any_isDelegate type]
  split
  · rename_i hDelegate
    obtain ⟨t, hType, hIs⟩ := (Option.any_eq_true ..).mp hDelegate
    rw [hType, h.delegates type t hType hIs]
    simp only
    congr 1
    refine List.filter_congr fun id _ => ?_
    rcases h.cases_method? id with ⟨hp, hq⟩ | ⟨m, n, hp, hq, hSame⟩
    · rw [hp, hq]
    · obtain ⟨-, hName, -⟩ := MethodDef.effects_of_declaration hSame
      simp only [hp, hq, Option.any_some, hName]
  · rfl

theorem isDelegateInvoke (h : p.DiffersIn changed q) : p.isDelegateInvoke = q.isDelegateInvoke := by
  funext id
  unfold Program.isDelegateInvoke
  rcases h.cases_method? id with ⟨hp, hq⟩ | ⟨m, n, hp, hq, hSame⟩
  · rw [hp, hq]
    rfl
  · obtain ⟨hOwner, -⟩ := MethodDef.effects_of_declaration hSame
    simp only [hp, hq, Option.any_some, hOwner, h.delegateInvoke?]

/-- What is not changed has the same code in both programs. -/
theorem body (h : p.DiffersIn changed q) {id : MethodId} (hSame : id ∉ changed) :
    p.body id = q.body id := by
  unfold Program.body methodDef
  rw [h.others id hSame, h.identity id]

theorem isLive (h : p.DiffersIn changed q) {id : MethodId} (hSame : id ∉ changed) :
    p.isLive id = q.isLive id := by
  unfold Program.isLive
  rw [h.others id hSame]

end DiffersIn

end Program

namespace CodeView

variable {p q : Program} {method : MethodId} {b : MethodBody} {index : FlowIndex}

/-- A body is looked at alike where instructions have the same effects. -/
theorem traffic_congr (h : p.stackEffect = q.stackEffect) :
    (mk p method b index).traffic = (mk q method b index).traffic := by
  unfold traffic trafficOf
  rw [h]

theorem usage_congr (h : p.stackEffect = q.stackEffect) :
    (mk p method b index).usage = (mk q method b index).usage := by
  have hEffect : (mk p method b index).effect = (mk q method b index).effect := by
    funext id
    unfold effect
    rw [h]
    rfl
  funext id
  unfold usage carry usageAt? walkBound
  rw [hEffect, traffic_congr h]
  rfl

theorem usageThroughLocals_congr (h : p.stackEffect = q.stackEffect) :
    (mk p method b index).usageThroughLocals = (mk q method b index).usageThroughLocals := by
  have hPassOn : (mk p method b index).passOnAll = (mk q method b index).passOnAll := by
    funext id
    unfold passOnAll
    rw [usage_congr h]
    rfl
  funext id
  unfold usageThroughLocals finalUsages
  rw [hPassOn, traffic_congr h]
  rfl

end CodeView

namespace Query

variable {p q : Program} {method : MethodId}

theorem ask_congr {α : Type} (hBody : p.body method = q.body method)
    {question : CodeView → Except AnalysisError α}
    (h : ∀ b index, question ⟨p, method, b, index⟩ = question ⟨q, method, b, index⟩) :
    ask p method question = ask q method question := by
  unfold ask view body
  rw [hBody]
  simp only [bind_assoc, pure_bind, h]

end Query

namespace Program.DiffersIn

variable {changed : List MethodId} {p q : Program} {method : MethodId}

theorem find? (h : p.DiffersIn changed q) (hSame : method ∉ changed) (i : InstrId)
    (target : MethodId) :
    CaptureLink.find? p ⟨method, i⟩ target = CaptureLink.find? q ⟨method, i⟩ target := by
  have hBody : Query.body p method = Query.body q method := by
    unfold Query.body
    rw [h.body hSame]
  have hUsage : Query.usage p method = Query.usage q method := by
    funext i
    exact Query.ask_congr (h.body hSame) fun b index =>
      congrFun (CodeView.usage_congr h.stackEffect) i
  have hLocals : Query.usageThroughLocals p method = Query.usageThroughLocals q method := by
    funext i
    exact Query.ask_congr (h.body hSame) fun b index =>
      congrFun (CodeView.usageThroughLocals_congr h.stackEffect) i
  unfold CaptureLink.find? CaptureLink.isConstruction CaptureLink.isInvocation
  simp only [hBody, hUsage, hLocals, h.isDelegateConstructor, h.isDelegateInvoke]

/-- The captures in a body that is not changed are looked for alike in both programs. -/
theorem scanCaptures (h : p.DiffersIn changed q) (hSame : method ∉ changed) :
    CaptureScan.scan p method = CaptureScan.scan q method := by
  unfold CaptureScan.scan CaptureScan.scanInstruction Query.body CaptureGraph.addUnmatched
    CaptureLink.isInvocation
  simp only [h.find? hSame, h.body hSame, h.isDelegateInvoke]

end Program.DiffersIn

end ContextBinding
