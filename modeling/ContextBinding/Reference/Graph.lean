import ContextBinding.Reference.Capture
import ContextBinding.Reference.Override
import ContextBinding.Reference.Site

/-!
# The reference graph

Who reaches whom: by calls, by virtual dispatch, and by callables. Each site belongs to its caller,
so that the sites of one caller can be derived anew after its body changed, and is also entered with
the method that is reached. Sites of virtual dispatch follow the override relation as it was when
their caller was derived.
-/

namespace ContextBinding

/-- The sites at which each method is reached, by caller. -/
abbrev IncomingSites := Table MethodId (Table MethodId (List CallSite))

namespace IncomingSites

/-- The sites at which a method is reached, by caller. -/
def reaching (t : IncomingSites) (callee : MethodId) : Table MethodId (List CallSite) :=
  (t.get? callee).getD ∅

/-- Enter a site with the method that it reaches. -/
def enter (t : IncomingSites) (site : CallSite) : IncomingSites :=
  let known := t.reaching site.callee
  let sites := (known.get? site.caller).getD [] ++ [site]
  t.insert site.callee (known.insert site.caller sites)

/-- Drop all sites of a caller that reach the same method as `site`. -/
def dropLike (caller : MethodId) (t : IncomingSites) (site : CallSite) : IncomingSites :=
  let left := (t.reaching site.callee).erase caller
  if left.isEmpty then t.erase site.callee else t.insert site.callee left

end IncomingSites

/-- Who reaches whom. -/
structure ReferenceGraph where
  /-- The sites in the body of each caller, in the order of the code. -/
  sites : Table MethodId (List CallSite)
  /-- The same sites, with the methods that they reach. -/
  incoming : IncomingSites
  overrides : OverrideGraph
  captures : CaptureGraph
  deriving DecidableEq, Repr

namespace ReferenceGraph

def empty : ReferenceGraph := ⟨∅, ∅, .empty, .empty⟩

instance : Inhabited ReferenceGraph := ⟨empty⟩

/-- The sites at which a method reaches others, in the order of the code. -/
def callees (g : ReferenceGraph) (caller : MethodId) : List CallSite :=
  (g.sites.get? caller).getD []

/-- The sites at which a method is reached, by caller. -/
def callers (g : ReferenceGraph) (callee : MethodId) : List CallSite :=
  (g.incoming.reaching callee).values.flatten

/-- The methods that reach a method, in ascending order. -/
def callerMethods (g : ReferenceGraph) (callee : MethodId) : List MethodId :=
  (g.incoming.reaching callee).keys

/-- The number of direct calls of a method. -/
def callCount (g : ReferenceGraph) (callee : MethodId) : Nat :=
  ((g.callers callee).filter fun s => s.mode == .direct).length

/-- The sites that one instruction makes. -/
def sitesOf (overrides : OverrideGraph) (caller : MethodId) (i : Instruction) : List CallSite :=
  match i.method? with
  | none => []
  | some target =>
    let site (mode : CallMode) (callee : MethodId) : CallSite := ⟨caller, i.id, callee, mode⟩
    match i.opcode with
    | .call | .newobj => [site .direct target]
    | .callvirt =>
      site .direct target :: (overrides.implementations target).map (site .inheritance)
    | .ldftn => [site .capture target]
    | .ldvirtftn => (target :: overrides.implementations target).map (site .capture)
    | _ => []

/-- The sites that the calls of a captured callable make. -/
def sitesOfLink (link : CaptureLink) : List CallSite :=
  link.invokes.map fun invoke => ⟨link.site.method, invoke, link.target, .capture⟩

/-- Order by place in the code, then by callee, then by mode. -/
def siteLe (b : MethodBody) (s t : CallSite) : Bool :=
  (((compare (b.position? s.instr) (b.position? t.instr)).then
    (compare s.callee t.callee)).then (compare s.mode t.mode)).isLE

/-- The sites in a body, in the order of the code. -/
def sitesIn (g : ReferenceGraph) (caller : MethodId) (b : MethodBody) : List CallSite :=
  let made := b.instructions.flatMap (sitesOf g.overrides caller)
  let linked := (g.captures.linksIn caller).flatMap sitesOfLink
  dedupAdjacent (sortOrdered (siteLe b) (made ++ linked))

/-- Drop the sites of a caller, and its captures. -/
def forget (g : ReferenceGraph) (caller : MethodId) : ReferenceGraph :=
  { g with
    sites := g.sites.erase caller
    incoming := (g.callees caller).foldl (IncomingSites.dropLike caller) g.incoming
    captures := g.captures.forget caller }

/-- Enter the sites in a body. -/
def addSites (g : ReferenceGraph) (caller : MethodId) (b : MethodBody) : ReferenceGraph :=
  let sites := g.sitesIn caller b
  { g with
    sites := g.sites.insert caller sites
    incoming := sites.foldl IncomingSites.enter g.incoming }

/-- Take the override relation from a program. -/
def rebuildOverrides (g : ReferenceGraph) (p : Program) : ReferenceGraph :=
  { g with overrides := .build p }

end ReferenceGraph

/-- A change of the reference graph that asks questions of the code. -/
abbrev GraphEdit := EStateM AnalysisError (ReferenceGraph × FlowCache)

namespace GraphEdit

/-- Ask a question. -/
def query {α : Type} : Query α → GraphEdit α := focus (·.2) (fun cache s => (s.1, cache)) id

/-- Change the graph. -/
def update (f : ReferenceGraph → ReferenceGraph) : GraphEdit Unit := modify fun s => (f s.1, s.2)

/-- Change the captures. -/
def captures {α : Type} : CaptureScan α → GraphEdit α :=
  focus (fun s => (s.1.captures, s.2)) (fun t s => ({ s.1 with captures := t.1 }, t.2)) id

/-- Enter the sites in a body. -/
def scan (p : Program) (caller : MethodId) : GraphEdit Unit := do
  let b ← query (Query.body p caller)
  update fun g => g.addSites caller b

/-- Put the graph of a program in the place of the one there is. -/
def build (p : Program) : GraphEdit Unit := do
  update fun _ => { ReferenceGraph.empty with overrides := .build p }
  p.liveMethods.forM fun m => captures (CaptureScan.scan p m)
  p.liveMethods.forM (scan p)

/-- Derive the sites of a caller anew. -/
def rederive (p : Program) (caller : MethodId) : GraphEdit Unit := do
  update fun g => g.forget caller
  if p.isLive caller then
    query (Query.invalidate caller)
    captures (CaptureScan.rederive p caller)
    scan p caller

end GraphEdit

end ContextBinding
