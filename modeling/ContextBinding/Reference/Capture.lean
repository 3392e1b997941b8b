import ContextBinding.Focus
import ContextBinding.Provenance.Query

/-!
# Captured callables

A callable is made from a function pointer that is passed straight to the constructor of a delegate.
The capture graph links each captured method with the place of its capture and with the calls, in
the same body, of the callable made there.
-/

namespace ContextBinding

/-- A captured method with the place of its capture. -/
structure CaptureLink where
  target : MethodId
  /-- The instruction that loads the function pointer. -/
  site : CodeSite
  /-- The construction that takes the function pointer. -/
  construct : InstrId
  /-- The calls of the constructed callable in the same body. -/
  invokes : List InstrId
  deriving DecidableEq, Repr

/-- The recognized captures of a program. A place has one link. Where instructions of one body share
an identifier, the link of the last one stays, and the place stays listed for each of their
targets. -/
structure CaptureGraph where
  links : Table CodeSite CaptureLink
  /-- The places at which each method is captured, in ascending order. -/
  places : Table MethodId (List CodeSite)
  /-- Calls of callables that no capture in the same body accounts for, in ascending order. -/
  unmatched : List CodeSite
  deriving DecidableEq, Repr

namespace CaptureLink

/-- Whether an instruction constructs a delegate. -/
def isConstruction (p : Program) (i : Instruction) : Bool :=
  i.opcode == .newobj && i.method?.any p.isDelegateConstructor

/-- Whether an instruction calls what a delegate was made from. -/
def isInvocation (p : Program) (i : Instruction) : Bool :=
  (i.opcode == .call || i.opcode == .callvirt) && i.method?.any p.isDelegateInvoke

/-- The link of the capture of `target` at a place, if the function pointer goes nowhere but into
the construction of a delegate. -/
def find? (p : Program) (site : CodeSite) (target : MethodId) : Query (Option CaptureLink) := do
  let usages ← Query.usage p site.method site.instr
  let b ← Query.body p site.method
  match usages with
  | [only] =>
    if only.slot = 1 ∧ (b.get? only.consumer).any (isConstruction p) then
      let followed ← Query.usageThroughLocals p site.method only.consumer
      let invokes := followed.filter fun u =>
        u.slot == 0 && (b.get? u.consumer).any (isInvocation p)
      pure (some ⟨target, site, only.consumer, invokes.map (·.consumer)⟩)
    else pure none
  | _ => pure none

end CaptureLink

namespace CaptureGraph

def empty : CaptureGraph := ⟨∅, ∅, []⟩

instance : Inhabited CaptureGraph := ⟨empty⟩

/-- The places at which a method is captured, in ascending order. -/
def placesOf (g : CaptureGraph) (target : MethodId) : List CodeSite :=
  (g.places.get? target).getD []

/-- The captures at the places listed for a method. -/
def linksTo (g : CaptureGraph) (target : MethodId) : List CaptureLink :=
  (g.placesOf target).filterMap g.links.get?

/-- The captures in the body of a method, by place. -/
def linksIn (g : CaptureGraph) (method : MethodId) : List CaptureLink :=
  g.links.values.filter fun link => link.site.method == method

/-- The capture at a place. -/
def linkAt? (g : CaptureGraph) (site : CodeSite) : Option CaptureLink := g.links.get? site

def size (g : CaptureGraph) : Nat := g.links.size

def isEmpty (g : CaptureGraph) : Bool := g.links.isEmpty

/-- Enter a capture. -/
def addLink (g : CaptureGraph) (link : CaptureLink) : CaptureGraph :=
  { g with
    links := g.links.insert link.site link
    places := g.places.insert link.target (ascending (g.placesOf link.target ++ [link.site])) }

/-- Drop a capture, and its place among those of its target. -/
def dropLink (g : CaptureGraph) (link : CaptureLink) : CaptureGraph :=
  let left := (g.placesOf link.target).filter fun site => site != link.site
  { g with
    links := g.links.erase link.site
    places :=
      if left.isEmpty then g.places.erase link.target else g.places.insert link.target left }

/-- Drop what is known of a body. -/
def forget (g : CaptureGraph) (method : MethodId) : CaptureGraph :=
  let g := (g.linksIn method).foldl dropLink g
  { g with unmatched := g.unmatched.filter fun site => site.method != method }

/-- Enter the calls of callables in a body, except those that its captures account for. -/
def addUnmatched (g : CaptureGraph) (p : Program) (method : MethodId) (code : List Instruction)
    (matched : List InstrId) : CaptureGraph :=
  let calls := (code.filter (CaptureLink.isInvocation p)).map (·.id)
  let left := calls.filter fun id => !matched.contains id
  { g with unmatched := ascending (g.unmatched ++ left.map fun id => ⟨method, id⟩) }

end CaptureGraph

/-- A change of the capture graph that asks questions of the code. -/
abbrev CaptureScan := EStateM AnalysisError (CaptureGraph × FlowCache)

namespace CaptureScan

/-- Ask a question. -/
def query {α : Type} : Query α → CaptureScan α := focus (·.2) (fun cache s => (s.1, cache)) id

/-- Change the graph. -/
def update (f : CaptureGraph → CaptureGraph) : CaptureScan Unit := modify fun s => (f s.1, s.2)

/-- Enter the capture that an instruction makes, if it makes one. Answers with the calls of the
callable. -/
def scanInstruction (p : Program) (method : MethodId) (i : Instruction) :
    CaptureScan (List InstrId) :=
  if i.opcode == .ldftn || i.opcode == .ldvirtftn then
    match i.method? with
    | none => pure []
    | some target => do
      match ← query (CaptureLink.find? p ⟨method, i.id⟩ target) with
      | some link => do
        update fun g => g.addLink link
        pure link.invokes
      | none => pure []
  else pure []

/-- Enter the captures in a body. -/
def scan (p : Program) (method : MethodId) : CaptureScan Unit := do
  let b ← query (Query.body p method)
  let matched ← b.instructions.mapM (scanInstruction p method)
  update fun g => g.addUnmatched p method b.instructions matched.flatten

/-- Enter the captures in a body anew. -/
def rederive (p : Program) (method : MethodId) : CaptureScan Unit := do
  update fun g => g.forget method
  if p.isLive method then scan p method

end CaptureScan

end ContextBinding
