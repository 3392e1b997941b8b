import ContextBinding.Binding.Handle
import ContextBinding.Proofs.Edit
import ContextBinding.Proofs.Validation

/-! Where the code of a handle leads. The chain of each context is followed from the root over the
fields of objects, and over values that objects contain, to the instance of the context. The code
that a handle gives starts at the root or at the instance of another context on the way, and follows
the links that remain. -/

namespace ContextBinding

/-- Where an instance is: by itself, or in another one, whose field contains it as a value. -/
inductive Place where
  | object (number : Nat)
  | part (whole : Place) (field : FieldId)
  deriving DecidableEq, Repr

/-- What a field or the stack holds. -/
inductive Word where
  /-- A reference to an object, or the address of a part of one. -/
  | pointer (place : Place)
  /-- A value that refers to nothing, such as null, a number or a copy of a value. -/
  | plain
  deriving DecidableEq, Repr

/-- The instances that there are. -/
structure Heap where
  /-- Whether the instance at a place is of a type. -/
  isOf : Place → TypeId → Bool
  /-- What a field of the instance at a place holds. -/
  content : Place → FieldId → Word

namespace Heap

variable (h : Heap) (p : Program)

/-- The instance at a place is of the type that a field belongs to. -/
def hasField (place : Place) (field : FieldId) : Bool :=
  (p.field? field).any fun f => h.isOf place f.owner

/-- The instance that a field of another one leads to. A value is contained in its field. -/
def next? (place : Place) (field : FieldId) : Option Place :=
  match p.field? field with
  | none => none
  | some f =>
    if p.isValueType f.type then some (.part place field)
    else match h.content place field with
      | .pointer next => some next
      | .plain => none

/-- The instance that a chain of fields leads to. -/
def follow? : Place → List FieldId → Option Place
  | place, [] => some place
  | place, link :: links => (h.next? p place link).bind fun next => follow? next links

/-- Fields lead to instances of the types that they are declared with. -/
def Typed : Prop :=
  ∀ place next field f type, p.field? field = some f → h.isOf place f.owner = true →
    f.type.named? = some type → h.next? p place field = some next → h.isOf next type = true

/-- Run one instruction of code that follows fields, given the arguments of the method. A field is
accessed in an instance of its owner only. -/
def step (args : List Word) (i : Instruction) (stack : List Word) : Option (List Word) :=
  match i.opcode, i.operand, stack with
  | .ldarg, .arg index, _ => args[index]?.map (· :: stack)
  | .ldfld, .field field, .pointer place :: stack =>
    if h.hasField p place field then some (h.content place field :: stack) else none
  | .ldflda, .field field, .pointer place :: stack =>
    if h.hasField p place field then some (.pointer (.part place field) :: stack) else none
  | _, _, _ => none

/-- Run code that follows fields. -/
def run (args : List Word) : List Instruction → List Word → Option (List Word)
  | [], stack => some stack
  | i :: code, stack => (h.step p args i stack).bind (run args code)

end Heap

namespace Program

variable {p : Program}

/-- A chain of fields leads from a type to another one: each link belongs to the type that the one
ahead of it is declared with. -/
inductive Spans (p : Program) : TypeId → List FieldId → TypeId → Prop where
  | nil (type : TypeId) : Spans p type [] type
  | cons {link : FieldId} {links : List FieldId} {f : FieldDef} {type target : TypeId}
      (hField : p.field? link = some f) (hType : f.type.named? = some type)
      (rest : Spans p type links target) : Spans p f.owner (link :: links) target

/-- Whether a link contains what it leads to. -/
def isValueLink (p : Program) (link : FieldId) : Bool :=
  (p.field? link).any fun f => p.isValueType f.type

/-- The instruction that goes from an instance to what a link leads to. -/
def walk (p : Program) (link : FieldId) : Instruction :=
  .onField (if p.isValueLink link then .ldflda else .ldfld) link

theorem Spans.split {first last : TypeId} {links links' : List FieldId}
    (h : p.Spans first (links ++ links') last) :
    ∃ middle, p.Spans first links middle ∧ p.Spans middle links' last := by
  induction links generalizing first with
  | nil => exact ⟨first, .nil first, h⟩
  | cons link links ih =>
      cases h with
      | cons hField hType rest =>
          obtain ⟨middle, hFirst, hLast⟩ := ih rest
          exact ⟨middle, .cons hField hType hFirst, hLast⟩

theorem Spans.there {first last : TypeId} {links : List FieldId} (h : p.Spans first links last) :
    ∀ link ∈ links, ∃ f, p.field? link = some f := by
  induction h with
  | nil => exact fun _ hMem => (List.not_mem_nil hMem).elim
  | cons hField _ _ ih => exact List.forall_mem_cons.mpr ⟨⟨_, hField⟩, ih⟩

end Program

namespace Heap

variable {h : Heap} {p : Program} {args stack : List Word} {place next : Place}

theorem follow?_append (links links' : List FieldId) : h.follow? p place (links ++ links')
    = (h.follow? p place links).bind fun next => h.follow? p next links' := by
  induction links generalizing place with
  | nil => rfl
  | cons link links ih =>
      rw [List.cons_append, follow?, follow?, Option.bind_assoc]
      exact congrArg _ (funext fun next => ih)

theorem run_append (code code' : List Instruction) : h.run p args (code ++ code') stack
    = (h.run p args code stack).bind (h.run p args code') := by
  induction code generalizing stack with
  | nil => rfl
  | cons i code ih =>
      rw [List.cons_append, run, run, Option.bind_assoc]
      exact congrArg _ (funext fun stack => ih)

/-- Where a chain leads from one type to another, it leads to an instance of that. -/
theorem Typed.isOf_follow (hTyped : h.Typed p) {first last : TypeId} {links : List FieldId}
    (hSpans : p.Spans first links last) (hFirst : h.isOf place first = true)
    (hFollow : h.follow? p place links = some next) : h.isOf next last = true := by
  induction hSpans generalizing place with
  | nil =>
      obtain rfl := Option.some_inj.mp hFollow
      exact hFirst
  | cons hField hType _ ih =>
      obtain ⟨middle, hNext, hFollow⟩ := Option.bind_eq_some_iff.mp hFollow
      exact ih (hTyped _ _ _ _ _ hField hFirst hType hNext) hFollow

/-- The instruction for a link goes where the link leads. -/
theorem step_walk {link : FieldId} {f : FieldDef} (hField : p.field? link = some f)
    (hOwner : h.isOf place f.owner = true) (hNext : h.next? p place link = some next) :
    h.step p args (p.walk link) (.pointer place :: stack) = some (.pointer next :: stack) := by
  have hHas : h.hasField p place link = true := by simp [hasField, hField, hOwner]
  have hLink : p.isValueLink link = p.isValueType f.type := by simp [Program.isValueLink, hField]
  unfold next? at hNext
  simp only [hField] at hNext
  unfold Program.walk
  rw [hLink]
  split at hNext
  · rename_i hValue
    obtain rfl := Option.some_inj.mp hNext
    rw [if_pos hValue]
    exact if_pos hHas
  · rename_i hReference
    split at hNext
    · rename_i hContent
      obtain rfl := Option.some_inj.mp hNext
      rw [if_neg hReference, ← hContent]
      exact if_pos hHas
    · cases hNext

/-- The code for a chain goes where the chain leads. -/
theorem Typed.run_walk (hTyped : h.Typed p) {first last : TypeId} {links : List FieldId}
    (hSpans : p.Spans first links last) (hFirst : h.isOf place first = true)
    (hFollow : h.follow? p place links = some next) :
    h.run p args (links.map p.walk) (.pointer place :: stack) = some (.pointer next :: stack) := by
  induction hSpans generalizing place with
  | nil =>
      obtain rfl := Option.some_inj.mp hFollow
      rfl
  | cons hField hType _ ih =>
      obtain ⟨middle, hNext, hFollow⟩ := Option.bind_eq_some_iff.mp hFollow
      rw [List.map_cons, run, step_walk hField hFirst hNext]
      exact ih (hTyped _ _ _ _ _ hField hFirst hType hNext) hFollow

/-- What a chain leads to over a value at its end is contained in that. -/
theorem part_of_follow {links : List FieldId} {link : FieldId}
    (hFollow : h.follow? p place links = some next) (hLast : links.getLast? = some link)
    (hValue : p.isValueLink link = true) : ∃ whole, next = .part whole link := by
  obtain ⟨ahead, rfl⟩ := List.getLast?_eq_some_iff.mp hLast
  rw [follow?_append] at hFollow
  obtain ⟨whole, -, hFollow⟩ := Option.bind_eq_some_iff.mp hFollow
  obtain ⟨last, hNext, hEnd⟩ := Option.bind_eq_some_iff.mp hFollow
  obtain rfl := Option.some_inj.mp hEnd
  unfold next? at hNext
  unfold Program.isValueLink at hValue
  cases hField : p.field? link with
  | none => simp [hField] at hNext
  | some f =>
      simp only [hField, Option.any_some] at hNext hValue
      rw [if_pos hValue] at hNext
      exact ⟨whole, (Option.some_inj.mp hNext).symm⟩

/-- A heap with the root at one place and the instances of the contexts at others. Each instance is
where the chain of its context leads from the root, and refers back to the root if it has a field
for that. -/
structure Hosts (h : Heap) (p : Program) (plan : ContextPlan) (root : Place)
    (home : ContextId → Place) : Prop where
  typed : h.Typed p
  rooted : h.isOf root plan.root = true
  instances : ∀ id c, plan.context? id = some c → h.follow? p root c.chain = some (home id)
  back : ∀ id c field, plan.context? id = some c → c.rootField = some field →
    h.content (home id) field = .pointer root

end Heap

namespace ContextPlan

variable {p : Program} {plan : ContextPlan} {c : ContextDescriptor} {id : ContextId}

theorem planned_ok {link : FieldId} {f : FieldDef} :
    planned (p.fieldDef link) = .ok f ↔ p.field? link = some f :=
  Outcome.mapError_ok.trans Program.fieldDef_ok

theorem validateLinks_spans {first : FieldId} {rest : List FieldId} {f last : FieldDef}
    {target : TypeId} (h : validateLinks p c (first :: rest) = .ok ())
    (hFirst : p.field? first = some f) (hLast : p.field? (rest.getLast?.getD first) = some last)
    (hTarget : last.type.named? = some target) : p.Spans f.owner (first :: rest) target := by
  induction rest generalizing first f with
  | nil =>
      obtain rfl := Option.some_inj.mp (hFirst.symm.trans hLast)
      exact .cons hFirst hTarget (.nil target)
  | cons next rest ih =>
      rw [validateLinks] at h
      obtain ⟨f', hSame, h⟩ := Outcome.bind_ok.mp h
      obtain rfl := Option.some_inj.mp (hFirst.symm.trans (planned_ok.mp hSame))
      obtain ⟨g, hNext, h⟩ := Outcome.bind_ok.mp h
      dsimp only at h
      split at h
      · rename_i hReached
        rw [List.getLast?_cons] at hLast
        exact .cons hFirst hReached (ih h (planned_ok.mp hNext) hLast)
      · exact (Outcome.throw_ok.mp h).elim

theorem validateSlot_named {slot : FieldId} (h : validateSlot p plan c slot = .ok ()) :
    ∃ f, p.field? slot = some f ∧ f.type.named? = some c.generated := by
  unfold validateSlot at h
  obtain ⟨f, hSlot, h⟩ := Outcome.bind_ok.mp h
  dsimp only at h
  split at h
  · exact (Outcome.throw_ok.mp (Outcome.bind_ok.mp h).choose_spec.1).elim
  · rename_i hNamed
    exact ⟨f, planned_ok.mp hSlot, not_not.mp hNamed⟩

/-- A chain that was checked leads from the root to the type of the instance. -/
theorem validateChain_spans (h : validateChain p plan c = .ok ()) :
    p.Spans plan.root c.chain c.generated := by
  unfold validateChain at h
  cases hChain : c.chain with
  | nil =>
      simp only [hChain] at h
      exact (Outcome.throw_ok.mp h).elim
  | cons first rest =>
      simp only [hChain] at h
      obtain ⟨f, hFirst, h⟩ := Outcome.bind_ok.mp h
      split at h
      · exact (Outcome.throw_ok.mp (Outcome.bind_ok.mp h).choose_spec.1).elim
      · rename_i hRoot
        obtain ⟨_, hLinks, hSlot⟩ := Outcome.bind_ok.mp h
        obtain ⟨last, hLast, hTarget⟩ := validateSlot_named hSlot
        rw [← not_not.mp hRoot]
        exact validateLinks_spans hLinks (planned_ok.mp hFirst) hLast hTarget

theorem validateRootField_owner (h : validateRootField p c = .ok ()) {field : FieldId}
    (hRoot : c.rootField = some field) : ∃ f, p.field? field = some f ∧ f.owner = c.generated := by
  unfold validateRootField at h
  simp only [hRoot] at h
  obtain ⟨f, hField, h⟩ := Outcome.bind_ok.mp h
  split at h
  · exact (Outcome.throw_ok.mp h).elim
  · rename_i hOwner
    exact ⟨f, planned_ok.mp hField, not_not.mp hOwner⟩

/-- What the check of a plan tells of the way to a context and back. -/
theorem validate_ways (h : plan.validate p = .ok ()) (hContext : plan.context? id = some c) :
    validateChain p plan c = .ok () ∧ validateRootField p c = .ok () := by
  have hChecked := Outcome.forM_ok.mp h (id, c) (mem_entries.mpr hContext)
  unfold validateContext at hChecked
  split at hChecked
  · exact (Outcome.throw_ok.mp (Outcome.bind_ok.mp hChecked).choose_spec.1).elim
  · simp only [Outcome.bind_ok] at hChecked
    obtain ⟨m, -, hChecked⟩ := hChecked
    split at hChecked
    · exact (Outcome.throw_ok.mp (Outcome.bind_ok.mp hChecked).choose_spec.1).elim
    · simp only [Outcome.bind_ok] at hChecked
      obtain ⟨_, -, _, hChain, _, -, hRoot⟩ := hChecked
      exact ⟨hChain, hRoot⟩

end ContextPlan

namespace HandleSource

variable {source : HandleSource} {p : Program} {plan : ContextPlan} {method : MethodId}
  {c : ContextDescriptor} {access : ChainAccess}

/-- A handle that starts from a context starts from one of the plan, and finds the root in the field
that this has for it, if anywhere. -/
def Planned (source : HandleSource) (plan : ContextPlan) : Prop :=
  match source with
  | contextThis id rootField =>
    ∃ c, plan.context? id = some c ∧ ∀ field, rootField = some field → c.rootField = some field
  | _ => True

/-- The arguments of a method provide what a handle starts from. -/
def Provided (source : HandleSource) (h : Heap) (p : Program) (root : Place)
    (home : ContextId → Place) (args : List Word) : Prop :=
  match source with
  | parameter index => args[index]? = some (.pointer root)
  | rootThis => args[0]? = some (.pointer root)
  | contextThis id _ => args[0]? = some (.pointer (home id))
  | capturedRoot field => ∃ place, args[0]? = some (.pointer place) ∧
      h.hasField p place field = true ∧ h.content place field = .pointer root

/-- A handle starts from a context that does not refer back to the root and is not on the way. -/
def Stranded (source : HandleSource) (plan : ContextPlan) (c : ContextDescriptor) : Prop :=
  ∃ id, source = contextThis id none ∧ ¬ (plan.context id).chain <+: c.chain

/-- The links that are still to be followed from where a handle starts. -/
def remaining (source : HandleSource) (plan : ContextPlan) (c : ContextDescriptor) : List FieldId :=
  match source with
  | contextThis id _ =>
    if (plan.context id).chain.isPrefixOf c.chain then c.chain.drop (plan.context id).chain.length
    else c.chain
  | _ => c.chain

/-- The code that loads what a handle starts from. -/
def origin (source : HandleSource) (plan : ContextPlan) (c : ContextDescriptor) :
    List Instruction :=
  match source with
  | parameter index => [.onArg .ldarg index]
  | rootThis => [.onArg .ldarg 0]
  | contextThis id rootField =>
    if (plan.context id).chain.isPrefixOf c.chain then [.onArg .ldarg 0]
    else .onArg .ldarg 0 :: rootField.toList.map (.onField .ldfld)
  | capturedRoot field => [.onArg .ldarg 0, .onField .ldfld field]

theorem chainStart_stranded (h : source.Stranded plan c) :
    source.chainStart p plan method c = .error (.missingHandle (p.identity method)) := by
  obtain ⟨id, rfl, hApart⟩ := h
  have hApart : (plan.context id).chain.isPrefixOf c.chain = false :=
    Bool.eq_false_iff.mpr fun hAhead => hApart (List.isPrefixOf_iff_prefix.mp hAhead)
  simp [chainStart, hApart, loadRoot, bind, Except.bind]

theorem chainStart_ok (h : ¬ source.Stranded plan c) :
    source.chainStart p plan method c = .ok (source.origin plan c, source.remaining plan c) := by
  cases source with
  | contextThis id rootField =>
      by_cases hAhead : (plan.context id).chain.isPrefixOf c.chain = true
      · simp [chainStart, origin, remaining, hAhead, pure, Except.pure]
      · cases rootField with
        | none => exact (h ⟨id, rfl, by simpa using hAhead⟩).elim
        | some field =>
            simp [chainStart, origin, remaining, hAhead, loadRoot, bind, Except.bind, pure,
              Except.pure]
  | _ => rfl

theorem remaining_subset : ∀ link ∈ source.remaining plan c, link ∈ c.chain := by
  unfold remaining
  split
  · split
    · exact fun _ => List.mem_of_mem_drop
    · exact fun _ => id
  · exact fun _ => id

/-- A link can be followed unless it leads to a value that is to be read. -/
theorem followLink_eq {link : FieldId} {f : FieldDef} (hField : p.field? link = some f) :
    followLink p method access link =
      if access = .read ∧ p.isValueLink link = true then
        .error (.valueTypeIndirection (p.identity method) (p.fieldIdentity link))
      else .ok (p.walk link) := by
  have hLink : p.isValueLink link = p.isValueType f.type := by simp [Program.isValueLink, hField]
  unfold followLink Program.walk
  rw [hLink]
  simp only [hField]
  cases access <;> by_cases hValue : p.isValueType f.type = true <;> simp [hValue]

/-- Links are followed one after the other, up to the first one that cannot be. -/
theorem mapM_followLink {links : List FieldId} (h : ∀ link ∈ links, ∃ f, p.field? link = some f) :
    links.mapM (followLink p method access) =
      match if access = .read then links.find? p.isValueLink else none with
      | some link => .error (.valueTypeIndirection (p.identity method) (p.fieldIdentity link))
      | none => .ok (links.map p.walk) := by
  induction links with
  | nil => cases access <;> rfl
  | cons link links ih =>
      obtain ⟨⟨f, hField⟩, hRest⟩ := List.forall_mem_cons.mp h
      rw [List.mapM_cons, followLink_eq hField, ih hRest]
      cases access with
      | address => rfl
      | read =>
          by_cases hValue : p.isValueLink link = true
          · simp [hValue, bind, Except.bind]
          · simp only [hValue, true_and, if_true, Bool.false_eq_true, if_false, List.find?_cons]
            cases links.find? p.isValueLink <;> rfl

section Lead

variable {h : Heap} {root : Place} {home : ContextId → Place} {args : List Word}
  {target : ContextId}

/-- The code of a handle begins by loading an instance that the remaining links lead on from. -/
theorem run_origin (hValid : plan.validate p = .ok ()) (hTarget : plan.context? target = some c)
    (hPlanned : source.Planned plan) (hFree : ¬ source.Stranded plan c)
    (hHosts : h.Hosts p plan root home) (hProvided : source.Provided h p root home args) :
    ∃ start type, h.run p args (source.origin plan c) [] = some [.pointer start] ∧
      h.isOf start type = true ∧ p.Spans type (source.remaining plan c) c.generated ∧
      h.follow? p start (source.remaining plan c) = some (home target) := by
  have hSpans := ContextPlan.validateChain_spans (ContextPlan.validate_ways hValid hTarget).1
  have hReach := hHosts.instances target c hTarget
  cases source with
  | parameter index =>
      refine ⟨root, plan.root, ?_, hHosts.rooted, hSpans, hReach⟩
      change (args[index]?.map _).bind _ = _
      rw [show args[index]? = _ from hProvided]
      rfl
  | rootThis =>
      refine ⟨root, plan.root, ?_, hHosts.rooted, hSpans, hReach⟩
      change (args[0]?.map _).bind _ = _
      rw [show args[0]? = _ from hProvided]
      rfl
  | capturedRoot field =>
      obtain ⟨place, hHolder, hHas, hContent⟩ := hProvided
      refine ⟨root, plan.root, ?_, hHosts.rooted, hSpans, hReach⟩
      simp [origin, Heap.run, Heap.step, Instruction.onArg, Instruction.onField,
        Instruction.unplaced, hHolder, hHas, hContent]
  | contextThis id rootField =>
      obtain ⟨d, hContext, hRoot⟩ := hPlanned
      have hThis : args[0]? = some (.pointer (home id)) := hProvided
      have hHere := hHosts.instances id d hContext
      have hWays := ContextPlan.validate_ways hValid hContext
      have hChain : (plan.context id).chain = d.chain := by
        rw [ContextPlan.context_of_some hContext]
      by_cases hAhead : (plan.context id).chain.isPrefixOf c.chain = true
      · -- The chain goes on from the instance that the method belongs to.
        obtain ⟨links, hLinks⟩ := List.isPrefixOf_iff_prefix.mp hAhead
        have hRemaining : (contextThis id rootField).remaining plan c = links := by
          simp only [remaining, hAhead, if_true]
          rw [← hLinks, List.drop_left]
        rw [← hLinks, hChain] at hSpans hReach
        obtain ⟨type, hFirst, hRest⟩ := hSpans.split
        rw [Heap.follow?_append, hHere] at hReach
        refine ⟨home id, type, ?_, hHosts.typed.isOf_follow hFirst hHosts.rooted hHere, ?_, ?_⟩
        · simp [origin, hAhead, Heap.run, Heap.step, Instruction.onArg, Instruction.unplaced, hThis]
        · rw [hRemaining]
          exact hRest
        · rw [hRemaining]
          exact hReach
      · cases rootField with
        | none => exact (hFree ⟨id, rfl, fun h => hAhead (List.isPrefixOf_iff_prefix.mpr h)⟩).elim
        | some field =>
            have hField := hRoot field rfl
            obtain ⟨f, hThere, hOwner⟩ := ContextPlan.validateRootField_owner hWays.2 hField
            have hType := hHosts.typed.isOf_follow (ContextPlan.validateChain_spans hWays.1)
              hHosts.rooted hHere
            have hHas : h.hasField p (home id) field = true := by
              simp [Heap.hasField, hThere, hOwner, hType]
            have hRemaining : (contextThis id (some field)).remaining plan c = c.chain := by
              simp [remaining, hAhead]
            refine ⟨root, plan.root, ?_, hHosts.rooted, hRemaining ▸ hSpans, hRemaining ▸ hReach⟩
            simp [origin, hAhead, Heap.run, Heap.step, Instruction.onArg, Instruction.onField,
              Instruction.unplaced, hThis, hHas, hHosts.back id d field hContext hField]

/-- What comes of a handle that is not stranded. -/
theorem loadContext_eq (hValid : plan.validate p = .ok ())
    (hTarget : plan.context? target = some c) (hFree : ¬ source.Stranded plan c) :
    source.loadContext p plan method target access =
      match if access = .read then (source.remaining plan c).find? p.isValueLink else none with
      | some link => .error (.valueTypeIndirection (p.identity method) (p.fieldIdentity link))
      | none => .ok (source.origin plan c ++ (source.remaining plan c).map p.walk) := by
  have hSpans := ContextPlan.validateChain_spans (ContextPlan.validate_ways hValid hTarget).1
  have hThere : ∀ link ∈ source.remaining plan c, ∃ f, p.field? link = some f :=
    fun link hMem => hSpans.there link (remaining_subset link hMem)
  unfold loadContext
  rw [ContextPlan.context_of_some hTarget, chainStart_ok hFree]
  change ((source.remaining plan c).mapM (followLink p method access) >>= fun rest =>
    pure (source.origin plan c ++ rest)) = _
  rw [mapM_followLink hThere]
  cases if access = .read then (source.remaining plan c).find? p.isValueLink else none <;> rfl

/-- A handle fails for want of a way to the root, or if what a link contains would be read. Else its
code follows the remaining links and leaves the instance of the context. -/
theorem loadContext_leads (method : MethodId) (access : ChainAccess)
    (hValid : plan.validate p = .ok ()) (hTarget : plan.context? target = some c)
    (hPlanned : source.Planned plan) :
    (∀ e, source.loadContext p plan method target access = .error e ↔
      source.Stranded plan c ∧ e = .missingHandle (p.identity method) ∨
      ¬ source.Stranded plan c ∧ access = .read ∧ ∃ link,
        (source.remaining plan c).find? p.isValueLink = some link ∧
        e = .valueTypeIndirection (p.identity method) (p.fieldIdentity link)) ∧
    ∀ code, source.loadContext p plan method target access = .ok code →
      code = source.origin plan c ++ (source.remaining plan c).map p.walk ∧
      ∀ h root home args, Heap.Hosts h p plan root home → source.Provided h p root home args →
        h.run p args code [] = some [.pointer (home target)] ∧
        ∀ link, c.chain.getLast? = some link → p.isValueLink link = true →
          ∃ whole, home target = .part whole link := by
  by_cases hFree : source.Stranded plan c
  · have hFails : source.loadContext p plan method target access
        = .error (.missingHandle (p.identity method)) := by
      unfold loadContext
      rw [ContextPlan.context_of_some hTarget, chainStart_stranded hFree]
      rfl
    rw [hFails]
    refine ⟨fun e => ?_, nofun⟩
    simp [hFree, eq_comm]
  · rw [loadContext_eq hValid hTarget hFree]
    constructor
    · intro e
      cases access with
      | address => simp [hFree]
      | read =>
          cases hFind : (source.remaining plan c).find? p.isValueLink <;> simp [hFree, eq_comm]
    · intro code hCode
      have hSame : code = source.origin plan c ++ (source.remaining plan c).map p.walk := by
        split at hCode
        · cases hCode
        · exact (Except.ok.inj hCode).symm
      refine ⟨hSame, fun h root home args hHosts hProvided => ⟨?_, fun link hLast hValue => ?_⟩⟩
      · obtain ⟨start, type, hOrigin, hType, hSpans, hReach⟩ :=
          run_origin hValid hTarget hPlanned hFree hHosts hProvided
        rw [hSame, Heap.run_append, hOrigin]
        exact hHosts.typed.run_walk hSpans hType hReach
      · exact Heap.part_of_follow (hHosts.instances target c hTarget) hLast hValue

end Lead

end HandleSource

section Examples

open Program

/-- The instance of `Outer` contains that of `Inner` as a value, and this refers to that of `Leaf`.
Only `Outer` refers back to the root. -/
def valueNest : Edit ContextPlan := do
  let root ← addType "G" "Root" none ⟨0⟩
  let outer ← addType "G" "Outer_Ctx" none ⟨0⟩
  let inner ← addType "G" "Inner_Ctx" none (.ofList [.valueType])
  let leaf ← addType "G" "Leaf_Ctx" none ⟨0⟩
  let outerHolder ← addType "G" "Outer" none ⟨0⟩
  let innerHolder ← addType "G" "Inner" none ⟨0⟩
  let leafHolder ← addType "G" "Leaf" none ⟨0⟩
  let outerSlot ← addField root "Outer_f" (.named outer) ⟨0⟩
  let innerSlot ← addField outer "Inner_f" (.named inner) ⟨0⟩
  let leafSlot ← addField inner "Leaf_f" (.named leaf) ⟨0⟩
  let back ← addField outer "root" (.named root) ⟨0⟩
  let rootConstructor ← addMethod root ".ctor" [] .void (.ofList [.constructor])
  let newOuter ← addMethod outer ".ctor" [] .void (.ofList [.constructor])
  let newInner ← addMethod inner ".ctor" [] .void (.ofList [.constructor])
  let newLeaf ← addMethod leaf ".ctor" [] .void (.ofList [.constructor])
  let _ ← addMethod outer "Run" [] .void ⟨0⟩
  pure ⟨root, rootConstructor,
    [{ ContextDescriptor.bare "Outer" outerHolder outer newOuter with
        chain := [outerSlot]
        rootField := some back },
      { ContextDescriptor.bare "Inner" innerHolder inner newInner with
        chain := [outerSlot, innerSlot]
        parent := some ⟨0⟩ },
      { ContextDescriptor.bare "Leaf" leafHolder leaf newLeaf with
        chain := [outerSlot, innerSlot, leafSlot]
        parent := some ⟨1⟩ }]⟩

/-- Where the instances are. -/
def valueNestHome (id : ContextId) : Place :=
  match id.index with
  | 0 => .object 1
  | 1 => .part (.object 1) ⟨1⟩
  | _ => .object 2

/-- The root, the object that contains a value, and the object that the value refers to. -/
def valueNestHeap : Heap where
  isOf place type := [(Place.object 0, 0), (.object 1, 1), (.part (.object 1) ⟨1⟩, 2),
    (.object 2, 3)].contains (place, type.index)
  content place field :=
    if place = .object 0 then .pointer (.object 1)
    else if place = .part (.object 1) ⟨1⟩ then .pointer (.object 2)
    else if field = ⟨3⟩ then .pointer (.object 0)
    else .plain

theorem valueNestHeap_hosts :
    valueNestHeap.Hosts (built valueNest).1 (built valueNest).2 (.object 0) valueNestHome := by
  have hField (field : FieldId) (f : FieldDef) (h : (built valueNest).1.field? field = some f) :
      field ∈ (built valueNest).1.fieldIds := by
    have hLess := (List.getElem?_eq_some_iff.mp h).1
    exact List.mem_map.mpr ⟨field.index, List.mem_range.mpr hLess, rfl⟩
  have hContext (id : ContextId) (c : ContextDescriptor)
      (h : (built valueNest).2.context? id = some c) : id ∈ (built valueNest).2.ids :=
    ContextPlan.mem_ids.mpr ⟨c, h⟩
  have hTyped : ∀ field ∈ (built valueNest).1.fieldIds, ∀ place ∈ [Place.object 0, .object 1,
      .part (.object 1) ⟨1⟩, .object 2], ∀ f ∈ (built valueNest).1.field? field,
      valueNestHeap.isOf place f.owner = true → ∀ type ∈ f.type.named?,
      ∀ next ∈ valueNestHeap.next? (built valueNest).1 place field,
      valueNestHeap.isOf next type = true := by decide +kernel
  have hInstances : ∀ id ∈ (built valueNest).2.ids, ∀ c ∈ (built valueNest).2.context? id,
      valueNestHeap.follow? (built valueNest).1 (.object 0) c.chain = some (valueNestHome id) := by
    decide +kernel
  have hBack : ∀ id ∈ (built valueNest).2.ids, ∀ c ∈ (built valueNest).2.context? id,
      ∀ field ∈ c.rootField,
      valueNestHeap.content (valueNestHome id) field = .pointer (.object 0) := by decide +kernel
  refine ⟨fun place next field f type hThere hOwner hType hNext => ?_, by decide +kernel,
    fun id c h => hInstances id (hContext id c h) c h,
    fun id c field h hRoot => hBack id (hContext id c h) c h field hRoot⟩
  have hPlace : place ∈ [Place.object 0, .object 1, .part (.object 1) ⟨1⟩, .object 2] := by
    have hMem := List.contains_iff_mem.mp hOwner
    exact List.mem_map_of_mem (f := Prod.fst) hMem
  exact hTyped field (hField field f hThere) place hPlace f hThere hOwner type hType next hNext

/-- From the instance of `Outer`, that of `Leaf` is reached over the address of the value between
them, which cannot be read. -/
theorem valueNest_leads : ∃ c code,
    (built valueNest).2.validate (built valueNest).1 = .ok () ∧
    (built valueNest).2.context? ⟨2⟩ = some c ∧
    (HandleSource.contextThis ⟨0⟩ none).Planned (built valueNest).2 ∧
    valueNestHeap.Hosts (built valueNest).1 (built valueNest).2 (.object 0) valueNestHome ∧
    (HandleSource.contextThis ⟨0⟩ none).Provided valueNestHeap (built valueNest).1 (.object 0)
      valueNestHome [.pointer (.object 1)] ∧
    (HandleSource.contextThis ⟨0⟩ none).loadContext (built valueNest).1 (built valueNest).2 ⟨4⟩ ⟨2⟩
      .address = .ok code ∧
    code = [.onArg .ldarg 0, .onField .ldflda ⟨1⟩, .onField .ldfld ⟨2⟩] ∧
    valueNestHeap.run (built valueNest).1 [.pointer (.object 1)] code []
      = some [.pointer (.object 2)] ∧
    (HandleSource.contextThis ⟨0⟩ none).loadContext (built valueNest).1 (built valueNest).2 ⟨4⟩ ⟨2⟩
      .read = .error (.valueTypeIndirection ((built valueNest).1.identity ⟨4⟩)
        ((built valueNest).1.fieldIdentity ⟨1⟩)) := by
  have hValid : (built valueNest).2.validate (built valueNest).1 = .ok () := by decide +kernel
  have hThere : ((built valueNest).2.context? ⟨2⟩).isSome = true := by decide +kernel
  have hOuter : ((built valueNest).2.context? ⟨0⟩).isSome = true := by decide +kernel
  obtain ⟨c, hTarget⟩ := Option.isSome_iff_exists.mp hThere
  obtain ⟨d, hContext⟩ := Option.isSome_iff_exists.mp hOuter
  have hPlanned : (HandleSource.contextThis ⟨0⟩ none).Planned (built valueNest).2 :=
    ⟨d, hContext, nofun⟩
  have hProvided : (HandleSource.contextThis ⟨0⟩ none).Provided valueNestHeap (built valueNest).1
      (.object 0) valueNestHome [.pointer (.object 1)] := rfl
  have hCode : (HandleSource.contextThis ⟨0⟩ none).loadContext (built valueNest).1
      (built valueNest).2 ⟨4⟩ ⟨2⟩ .address
        = .ok [.onArg .ldarg 0, .onField .ldflda ⟨1⟩, .onField .ldfld ⟨2⟩] := by decide +kernel
  have hFirst : ∀ c ∈ (built valueNest).2.context? ⟨2⟩,
      ((built valueNest).2.context ⟨0⟩).chain.isPrefixOf c.chain = true ∧
      ((HandleSource.contextThis ⟨0⟩ none).remaining (built valueNest).2 c).find?
        (built valueNest).1.isValueLink = some ⟨1⟩ := by decide +kernel
  obtain ⟨hAhead, hValue⟩ := hFirst c hTarget
  have hFree : ¬ (HandleSource.contextThis ⟨0⟩ none).Stranded (built valueNest).2 c := by
    rintro ⟨id, hSame, hApart⟩
    obtain ⟨rfl, -⟩ := HandleSource.contextThis.inj hSame
    exact hApart (List.isPrefixOf_iff_prefix.mp hAhead)
  obtain ⟨-, hRuns⟩ := HandleSource.loadContext_leads ⟨4⟩ .address hValid hTarget hPlanned
  obtain ⟨hFails, -⟩ := HandleSource.loadContext_leads ⟨4⟩ .read hValid hTarget hPlanned
  refine ⟨c, _, hValid, hTarget, hPlanned, valueNestHeap_hosts, hProvided, hCode, rfl, ?_, ?_⟩
  · exact ((hRuns _ hCode).2 _ _ _ _ valueNestHeap_hosts hProvided).1
  · exact (hFails _).mpr (Or.inr ⟨hFree, rfl, ⟨1⟩, hValue, rfl⟩)

end Examples

end ContextBinding
