import ContextBinding.Program.Types

/-!
# Capture records

A callable cannot take an argument more than its delegate does. A capture record is an object that
stores the root, and the receiver of the captured method if it has one; a method of the record
forwards the arguments of the callable, with what is stored, to the method that stands in for the
captured one.
-/

namespace ContextBinding

/-- There is one record for each method that captures and each type of receiver. -/
structure RecordKey where
  enclosing : MethodId
  receiver : Option TypeId
  deriving DecidableEq, Repr

instance : Ord RecordKey :=
  ⟨fun a b => (compare a.enclosing b.enclosing).then (compare a.receiver b.receiver)⟩

/-- A value that a record stores. -/
inductive CapturedValue where
  | receiver (type : TypeId)
  | contextHandle
  deriving DecidableEq, Repr

/-- A type whose objects store what a captured method needs. -/
structure CaptureRecord where
  key : RecordKey
  type : TypeId
  constructor : MethodId
  receiverField : Option FieldId
  rootField : FieldId
  /-- The forwarding method for each replacement. -/
  trampolines : Table MethodId MethodId
  /-- The methods whose captures construct the record. -/
  users : List MethodId
  deriving DecidableEq, Repr

namespace CaptureRecord

/-- Stands in the name of every record type. -/
def marker : String := "c__ContextCapture"

/-- Whether `part` stands somewhere in a list of characters. -/
def occursIn (part : List Char) : List Char → Bool
  | [] => part.isEmpty
  | c :: rest => part.isPrefixOf (c :: rest) || occursIn part rest

/-- Whether a type is named like a record. -/
def isRecordName (name : String) : Bool :=
  ['<'].isPrefixOf name.toList && occursIn marker.toList name.toList

/-- What a record stores, in the order of its constructor's parameters. -/
def captured (r : CaptureRecord) : List CapturedValue :=
  r.key.receiver.toList.map .receiver ++ [.contextHandle]

/-- The name of a record type. -/
def nameOf (p : Program) (key : RecordKey) : Except ModelError String := do
  let enclosing ← p.methodDef key.enclosing
  let name := "<" ++ enclosing.name ++ ">" ++ marker ++ toString key.enclosing.index
  match key.receiver with
  | none => pure name
  | some receiver => pure (name ++ "_" ++ (← p.typeDef receiver).name)

/-- The code of a constructor that stores its arguments in fields. -/
def storeArguments (fields : List FieldId) : List Instruction :=
  (fields.zipIdx.flatMap fun e =>
    [Instruction.onArg .ldarg 0, .onArg .ldarg (e.2 + 1), .onField .stfld e.1]) ++ [.plain .ret]

/-- Declare the field for the receiver, if there is one. -/
def declareReceiver (type : TypeId) : Option TypeId → Edit (Option FieldId)
  | none => pure none
  | some receiver => do
    pure (some (← Program.addField type "receiver" (.named receiver) (.ofList [.initOnly])))

/-- Declare a record type nested in the owner of the enclosing method. -/
def synthesize (root : TypeId) (key : RecordKey) : Edit CaptureRecord := do
  let p ← get
  let owner := (← p.methodDef key.enclosing).owner
  let name ← nameOf p key
  let type ← Program.addType "" name (some owner) (.ofList [.compilerGenerated, .sealed])
  let receiverField ← declareReceiver type key.receiver
  let rootField ← Program.addField type "context" (.named root) (.ofList [.initOnly])
  let params := key.receiver.toList.map (fun receiver => Param.mk "receiver" (.named receiver))
    ++ [⟨"context", .named root⟩]
  let constructor ← Program.addMethod type ".ctor" params .void
    (.ofList [.constructor, .specialName, .compilerGenerated])
  Program.setBody constructor (.fresh (storeArguments (receiverField.toList ++ [rootField])))
  pure ⟨key, type, constructor, receiverField, rootField, ∅, []⟩

/-- The code that pushes the stored receiver, by its address if it is a value. -/
def loadReceiver (r : CaptureRecord) (p : Program) : List Instruction :=
  match r.receiverField, r.key.receiver with
  | some field, some type =>
    let load := if p.isValueType (.named type) then OpCode.ldflda else OpCode.ldfld
    [.onArg .ldarg 0, .onField load field]
  | _, _ => []

/-- The code that forwards `count` arguments, with what is stored, to `target`. -/
def forwardingCode (r : CaptureRecord) (p : Program) (target : MethodDef) (replacement : MethodId)
    (count : Nat) : List Instruction :=
  r.loadReceiver p ++ [.onArg .ldarg 0, .onField .ldfld r.rootField]
    ++ (List.range count).map (fun k => Instruction.onArg .ldarg (k + 1))
    ++ [.onMethod (if target.isVirtual then .callvirt else .call) replacement, .plain .ret]

/-- The method of the record that forwards to `replacement` what `forwarded` takes. It is declared
on first use. -/
def trampoline (r : CaptureRecord) (forwarded replacement : MethodId) :
    Edit (MethodId × CaptureRecord) := do
  match r.trampolines.get? replacement with
  | some existing => pure (existing, r)
  | none =>
    let p ← get
    let source ← p.methodDef forwarded
    let target ← p.methodDef replacement
    let name := "<" ++ source.name ++ ">b__Forward" ++ toString r.trampolines.size
    let code := r.forwardingCode p target replacement source.params.length
    let method ← Program.addMethod r.type name source.params source.returnType
      (.ofList [.compilerGenerated])
    Program.setBody method (.fresh code)
    pure (method, { r with trampolines := r.trampolines.insert replacement method })

end CaptureRecord

end ContextBinding
