import ContextBinding.Program.Registration

/-!
# Retirement

A retired member leaves its owner's list and the look-up table, and is flagged. Its entry stays.
-/

namespace ContextBinding.Program

/-- Take a method out of use. -/
def retireMethod (id : MethodId) : Edit Unit := do
  let p ← get
  let m ← p.methodDef id
  let hash ← p.methodHash m.owner m.name m.paramTypes
  if p.methodTable.get? hash = some id then
    set { p with methodTable := p.methodTable.erase hash }
  modifyType m.owner fun t => { t with methods := t.methods.filter (· != id) }
  modifyMethod id fun m => { m with flags := m.flags.insert .retired }

/-- Take a field out of use. -/
def retireField (id : FieldId) : Edit Unit := do
  let p ← get
  let f ← p.fieldDef id
  let hash ← p.fieldHash f.owner f.name
  if p.fieldTable.get? hash = some id then
    set { p with fieldTable := p.fieldTable.erase hash }
  modifyType f.owner fun t => { t with fields := t.fields.filter (· != id) }
  modifyField id fun f => { f with flags := f.flags.insert .retired }

end ContextBinding.Program
