import ContextBinding.Program.Retirement
import ContextBinding.Propagation.Copy
import ContextBinding.Propagation.InPlace

/-!
# Transitions

A method that needs the root and does not reach it is bound: a copy that reaches the root takes its
place. A static method of a holder that reaches into the holder's own context moves there as an
instance method; any other method gains the root as its first parameter. The methods that override
each other and the two accessors of a property change together.
-/

namespace ContextBinding.Propagate

/-- The methods that change together with one, in ascending order. -/
def bindingGroup (method : MethodId) (withOverrides : Bool) : Propagate (List MethodId) := do
  let s ← get
  let p := s.program
  let overrides := s.graph.overrides
  let next (id : MethodId) : Except ModelError (List MethodId) := do
    let family :=
      if withOverrides && overrides.contains id then overrides.family id else []
    pure (family ++ (← p.accessorSibling? id).toList)
  let n := p.methods.length + 2
  model fun _ => do pure (ascending (← explore next (n * n) [] [method]))

/-- Mark a copy as standing in for a bound method. -/
def markReplacement (id : MethodId) : Edit Unit :=
  Program.modifyMethod id fun m => { m with flags := m.flags.insert .contextReplacement }

/-- Copy a method under a free name and mark the copy. -/
def makeCopy (source : MethodId) (owner : TypeId) (name : String) (params : List TypeRef)
    (shape : MethodShape) : Propagate MethodId := do
  let name := (← program).copyName owner name params
  let copy ← edit (Program.cloneMethod source owner name shape)
  edit (markReplacement copy)
  pure copy

/-- Keep an accessor with one partner only out of its property. -/
def dropAccessor (replacement : MethodId) : Edit Unit :=
  Program.modifyMethod replacement fun m => { m with flags := m.flags.erase .specialName }

/-- The property of a generated type for a property whose accessors moved there. -/
def movedProperty (bindings : BindingMap) (property : PropertyDef) : PropertyDef :=
  { property with
    getter := property.getter.bind bindings.replacement?
    setter := property.setter.bind bindings.replacement? }

/-- Keep the properties of an accessor in step with its replacement. On the same owner the
replacement takes its place in the property; on a generated type a property of the same name is
declared. -/
def alignProperty (into : Option TypeId) (method replacement : MethodId) : Propagate Unit := do
  let m ← model fun p => p.methodDef method
  if m.isSpecialName then
    let owner ← model fun p => p.typeDef m.owner
    match owner.propertyOf? method with
    | none => pure ()
    | some property =>
      if (property.siblingOf method).isNone then edit (dropAccessor replacement)
      else
        match into with
        | none =>
          edit (Program.modifyType m.owner fun t =>
            { t with properties := t.properties.map fun q => q.remap method replacement })
        | some generated =>
          let target ← model fun p => p.typeDef generated
          if !(target.properties.any fun q => q.name == property.name) then
            let bindings := (← get).bindings
            edit (Program.addProperty generated (movedProperty bindings property))

/-- Retire bound methods, derive the graph anew where they and their replacements stand, and enqueue
the replacements and every caller. -/
def complete (bound : List (MethodId × MethodId)) : Propagate Unit := do
  if !bound.isEmpty then
    let graphBefore := (← get).graph
    let callers := bound.flatMap fun e => graphBefore.callerMethods e.1
    let virtuals ← bound.mapM fun e => do
      let m ← model fun p => p.methodDef e.1
      if (← get).options.retireReplaced && !m.isRetired then edit (Program.retireMethod e.1)
      pure m.isVirtual
    if virtuals.any id then graph fun p => GraphEdit.update fun g => g.rebuildOverrides p
    bound.forM fun e => do
      graph fun p => GraphEdit.rederive p e.1
      graph fun p => GraphEdit.rederive p e.2
      if (← model fun p => p.methodDef e.2).body.isSome then modify (.enqueue [e.2])
      modify (.count fun n => { n with transitions := n.transitions + 1 })
    modify (.enqueue callers)

/-- Call an init unit from the constructor of its context, ahead of every return. -/
def inlineInitUnit (constructor replacement : MethodId) : Propagate Unit := do
  let call : List Instruction := [.onArg .ldarg 0, .onMethod .call replacement]
  let rederive := graph fun p => GraphEdit.rederive p constructor
  match (← model fun p => p.methodDef constructor).body with
  | none =>
    edit (Program.setBody constructor (.fresh (call ++ [.plain .ret])))
    rederive
  | some b =>
    if !(b.instructions.any fun i => i.isMethodOp .call replacement) then
      editBody constructor (b.returns.forM fun ret => do
        let _ ← MethodBody.insertBefore ret call)
      rederive

/-- Keep track of an init unit that moved to its context, and call it from the constructor if
nothing else does. -/
def adoptInitUnit (context : ContextId) (method replacement : MethodId) : Propagate Unit := do
  let s ← get
  let c := s.plan.context context
  if c.initUnits.contains method then
    set { s with plan := s.plan.replaceInitUnit context method replacement }
    if s.graph.callCount method = 0 && s.options.inlineInitUnits then
      inlineInitUnit c.constructor replacement

/-- What stands in for a method that moves to a context, and whether it was copied just now. -/
def convertedReplacement (method : MethodId) (context : ContextId) :
    Propagate (MethodId × Bool) := do
  let c := (← get).plan.context context
  match c.replacementMethods.get? method with
  | some existing => pure (existing, false)
  | none =>
    let m ← model fun p => p.methodDef method
    match (← program).findCopy? c.generated m.name m.paramTypes false with
    | some existing => pure (existing, false)
    | none =>
      pure (← makeCopy method c.generated m.name m.paramTypes .instanceMethod, true)

/-- Move one method to a context. -/
def convertOne (context : ContextId) (method : MethodId) :
    Propagate (Option (MethodId × MethodId)) := do
  let s ← get
  if s.bindings.mode method = .instanceConverted context then pure none
  else
    let c := s.plan.context context
    let (replacement, fresh) ← convertedReplacement method context
    bindMethod ⟨method, replacement, .instanceConverted context⟩
    if fresh then
      let copied ← closures (ClosureEdit.relocateDisplayClasses replacement c.holder c.generated)
      modify (.enqueue copied)
    adoptInitUnit context method replacement
    pure (some (method, replacement))

/-- Move a static method of a holder to its context. -/
def convert (method : MethodId) (context : ContextId) : Propagate Unit := do
  let generated := ((← get).plan.context context).generated
  let group ← bindingGroup method false
  let bound := (← group.mapM (convertOne context)).filterMap id
  bound.forM fun e => alignProperty (some generated) e.1 e.2
  complete bound

/-- Give one method the root as its first parameter. -/
def addParameterTo (method : MethodId) : Propagate (Option (MethodId × MethodId)) := do
  let s ← get
  if s.bindings.isBound method then pure none
  else
    let m ← model fun p => p.methodDef method
    let root := TypeRef.named s.plan.root
    let params := root :: m.paramTypes
    let replacement ← match (← program).findCopy? m.owner m.name params m.isStatic with
      | some existing => pure existing
      | none => makeCopy method m.owner m.name params (.leadingParam ⟨"context", root⟩)
    bindMethod ⟨method, replacement, .addedParameter⟩
    pure (some (method, replacement))

/-- Let a replacement override the replacements of what it is declared to override. -/
def mapOverrides (bound : List (MethodId × MethodId)) (replacement : MethodId) :
    Propagate Unit := do
  let m ← model fun p => p.methodDef replacement
  let bindings := (← get).bindings
  let mapped := m.overrides.map fun id =>
    ((bound.lookup id).or (bindings.replacement? id)).getD id
  if mapped ≠ m.overrides then
    edit (Program.modifyMethod replacement fun m => { m with overrides := mapped })

/-- Refuse to give a parameter to a method that moved to a context. -/
def requireUnconverted (method member : MethodId) : Propagate Unit := do
  let s ← get
  match s.bindings.mode member with
  | .instanceConverted _ =>
    throw (.binding (.incompatibleFamily (s.program.identity method) (s.program.identity member)))
  | _ => pure ()

/-- Give a method, and those that change together with it, the root as the first parameter. -/
def addParameter (method : MethodId) : Propagate Unit := do
  let group ← bindingGroup method true
  group.forM (requireUnconverted method)
  let bound := (← group.mapM addParameterTo).filterMap id
  bound.forM fun e => mapOverrides bound e.2
  bound.forM fun e => alignProperty none e.1 e.2
  complete bound

/-- Bind a method that needs the root and does not reach it. -/
def bindNeedy (method : MethodId) (places : List NeedySite) : Propagate Unit := do
  let m ← model fun p => p.methodDef method
  match (← get).plan.byHolder? m.owner with
  | some context =>
    if m.isStatic && places.any (fun place => place.need.targets context) then
      convert method context
    else addParameter method
  | none => addParameter method

end ContextBinding.Propagate
