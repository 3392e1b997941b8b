import ContextBinding.Program.Entry
import ContextBinding.Symbol.Hash
import ContextBinding.Table

/-!
# Programs

A program holds its types, fields and methods in the order of their registration and enters each
live one into a look-up table under the hash of its name. Nothing is ever taken out of the lists: a
retired member is taken from its owner and from its table only, so that whatever still names it
stays readable.
-/

namespace ContextBinding

/-- A program. -/
structure Program where
  /-- The digest that symbol hashes are made with. -/
  digest : String → UInt64
  types : List TypeDef
  fields : List FieldDef
  methods : List MethodDef
  typeTable : Table SymbolHash TypeId
  fieldTable : Table SymbolHash FieldId
  methodTable : Table SymbolHash MethodId
  /-- How often an entry was registered or opened for a change. -/
  edits : Nat

/-- A change of a program. What was changed before a failure stays changed. -/
abbrev Edit := EStateM ModelError Program

namespace Program

/-- The program without entries, over a digest. -/
def withDigest (digest : String → UInt64) : Program := ⟨digest, [], [], [], ∅, ∅, ∅, 0⟩

/-- The program without entries. -/
def empty : Program := withDigest Symbol.digest

instance : Inhabited Program := ⟨empty⟩

def typeIds (p : Program) : List TypeId := (List.range p.types.length).map TypeId.mk

def fieldIds (p : Program) : List FieldId := (List.range p.fields.length).map FieldId.mk

def methodIds (p : Program) : List MethodId := (List.range p.methods.length).map MethodId.mk

def type? (p : Program) (id : TypeId) : Option TypeDef := p.types[id.index]?

def field? (p : Program) (id : FieldId) : Option FieldDef := p.fields[id.index]?

def method? (p : Program) (id : MethodId) : Option MethodDef := p.methods[id.index]?

/-- A type that has to be there. -/
def typeDef (p : Program) (id : TypeId) : Except ModelError TypeDef :=
  match p.type? id with
  | some t => .ok t
  | none => .error (.unknownType id)

/-- A field that has to be there. -/
def fieldDef (p : Program) (id : FieldId) : Except ModelError FieldDef :=
  match p.field? id with
  | some f => .ok f
  | none => .error (.unknownField id)

/-- A method that has to be there. -/
def methodDef (p : Program) (id : MethodId) : Except ModelError MethodDef :=
  match p.method? id with
  | some m => .ok m
  | none => .error (.unknownMethod id)

/-- The methods that are in use and have code, in the order of their registration. -/
def liveMethods (p : Program) : List MethodId :=
  p.methodIds.filter fun id => (p.method? id).any MethodDef.isLive

/-- Whether `id` is a method that is in use and has code. -/
def isLive (p : Program) (id : MethodId) : Bool := (p.method? id).any MethodDef.isLive

/-- A number that grows with every change, those of the bodies included. -/
def revision (p : Program) : Nat :=
  p.methods.foldl (fun total m => total + (m.body.map (·.revision)).getD 0) p.edits

/-- Count a change. -/
def touch (p : Program) : Program := { p with edits := p.edits + 1 }

/-- Change a type. The change is counted even if the type is not there. -/
def modifyType (id : TypeId) (f : TypeDef → TypeDef) : Edit Unit := do
  modify touch
  let _ ← (← get).typeDef id
  modify fun p => { p with types := p.types.modify id.index f }

/-- Change a field. The change is counted even if the field is not there. -/
def modifyField (id : FieldId) (f : FieldDef → FieldDef) : Edit Unit := do
  modify touch
  let _ ← (← get).fieldDef id
  modify fun p => { p with fields := p.fields.modify id.index f }

/-- Change a method. The change is counted even if the method is not there. -/
def modifyMethod (id : MethodId) (f : MethodDef → MethodDef) : Edit Unit := do
  modify touch
  let _ ← (← get).methodDef id
  modify fun p => { p with methods := p.methods.modify id.index f }

end Program

end ContextBinding
