import ContextBinding.Closure.Basic

/-!
# Display classes

A display class holds the variables that a lambda captured. If its methods need the root, it gains a
field for it, which every construction fills right away. When the method that constructs it moves to
the type of a context, the display class is copied there.
-/

namespace ContextBinding

namespace Closures

/-- The field that has to be filled after the construction at `id`, unless the code does so already.
-/
def pendingStore? (c : Closures) (p : Program) (b : MethodBody) (id : InstrId) :
    Option FieldId := do
  let i ← b.get? id
  if i.opcode ≠ .newobj then none
  let constructor ← p.method? (← i.method?)
  let field ← c.displayRoot? constructor.owner
  let position ← b.position? id
  let isStore (i : Instruction) : Bool := i.opcode == .stfld && i.field? == some field
  let duplicated := ((b.next? id).bind b.get?).any fun next => next.opcode == .dup
  let stored := ((b.instructions.drop (position + 2)).take 4).any isStore
  if duplicated && stored then none else some field

end Closures

namespace Program

/-- The display classes that are nested in `holder` and constructed by a piece of code, in the order
of their first construction. -/
def createdDisplayClasses (p : Program) (holder : TypeId) (code : List Instruction) :
    Except ModelError (List TypeId) :=
  code.foldlM
    (fun found i => do
      if i.opcode ≠ .newobj then pure found
      else
        match i.method?.bind p.method? with
        | none => pure found
        | some m =>
          let t ← p.typeDef m.owner
          if t.isDisplayClass && t.declaring == some holder then pure (insertNew found m.owner)
          else pure found)
    []

end Program

namespace ClosureEdit

/-- The field in which a display class stores the root, and whether it was declared just now. -/
def ensureDisplayRoot (type : TypeId) : ClosureEdit (FieldId × Bool) := do
  let c ← closures
  match c.displayRoot? type with
  | some field => pure (field, false)
  | none =>
    let field ← edit (Program.addField type Closures.displayRootName (.named c.root)
      (.ofList [.compilerGenerated]))
    update fun c => { c with displayRoots := c.displayRoots.insert type field }
    pure (field, true)

/-- Fill the field of a display class right after its construction. -/
def storeDisplayRoot (site : RootedMethod) (id : InstrId) (field : FieldId) : ClosureEdit Unit := do
  let root ← work (CodeEdit.bound fun p => site.handle.loadRoot p site.method)
  let seq := [.plain .dup] ++ root ++ [.onField .stfld field]
  let _ ← edit (Program.editBody site.method (MethodBody.insertAfter id seq))

/-- Copy a display class to a generated type. The copy of a field that stores the root does so too.
-/
def copyDisplayClass (display generated : TypeId) : ClosureEdit TypeClone := do
  let clone ← edit (Program.cloneType display (some generated))
  let copyRoot? (c : Closures) : Option (TypeId × FieldId) := do
    let field ← clone.fields.get? (← c.displayRoot? display)
    pure (← clone.copy, field)
  update fun c =>
    { c with
      displayRoots := match copyRoot? c with
        | some (copy, field) => c.displayRoots.insert copy field
        | none => c.displayRoots
      relocated := c.relocated.insert (display, generated) clone }
  pure clone

/-- Let a method name the copy of a display class on a generated type. The copy is made on first
use; its methods are returned then. -/
def relocateDisplayClass (method : MethodId) (generated display : TypeId) :
    ClosureEdit (List MethodId) := do
  match (← closures).relocated.get? (display, generated) with
  | some clone =>
    let _ ← edit (Program.remapMembers method clone)
    pure []
  | none =>
    let clone ← copyDisplayClass display generated
    let _ ← edit (Program.remapMembers method clone)
    pure clone.methods.values

/-- Copy the display classes that are nested in `holder` and constructed by a method to a generated
type. The methods of the copies are returned. -/
def relocateDisplayClasses (method : MethodId) (holder generated : TypeId) :
    ClosureEdit (List MethodId) := do
  let m ← work (CodeEdit.model fun p => p.methodDef method)
  match m.body with
  | none => pure []
  | some b =>
    let created ← work (CodeEdit.model fun p => p.createdDisplayClasses holder b.instructions)
    let copied ← created.mapM (relocateDisplayClass method generated)
    pure copied.flatten

end ClosureEdit

end ContextBinding
