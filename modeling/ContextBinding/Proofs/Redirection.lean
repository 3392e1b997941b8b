import ContextBinding.Proofs.InitUnits
import ContextBinding.Proofs.Relocation

/-! What stands in for a method that moved to a context, at the end of a run. It names the copies of
the display classes that the method constructs, as do the methods of the copies. Operands are all
that is redirected: locals, parameters and results have the types that they had. -/

namespace ContextBinding

/-- Other arguments leave everything in its place that accesses none. -/
theorem MethodBody.mem_shiftArguments {b : MethodBody} {i : Instruction} (first amount : Nat)
    (hMem : i ∈ b.instructions) (hOther : i.opcode.isArgAccess = false) :
    i ∈ (b.shiftArguments first amount).instructions := by
  unfold shiftArguments
  split
  · exact hMem
  · refine List.mem_map.mpr ⟨i, hMem, ?_⟩
    unfold shiftArgument
    split <;> simp [hOther]

theorem Program.Builds.there {p : Program} {holder display : TypeId} {code : List Instruction}
    (h : p.Builds holder code display) : (p.type? display).isSome := by
  obtain ⟨-, -, -, -, t, -, -, hType, -⟩ := h
  exact Option.isSome_iff_exists.mpr ⟨t, hType⟩

/-- What stands in for a method that moved takes and returns what the method does, and its code
follows that of the method. Each display class in `holder` that the method constructs has a copy in
`K`; what the code names of what was copied is in `O`. -/
def Program.Resettles (p q : Program) (O : Operand → Prop) (holder : TypeId)
    (K : TypeId → TypeClone → Prop) (method replacement : MethodId) : Prop :=
  ∃ m m', q.method? method = some m ∧ q.method? replacement = some m' ∧
    m'.params = m.params ∧ m'.returnType = m.returnType ∧
    ∀ b, m.body = some b → ∃ b', m'.body = some b' ∧ b.Follows b' ∧
      ∀ display, p.Builds holder b.instructions display →
        ∃ clone, K display clone ∧ clone.Avoids O b'

/-- It stays so as long as the code of the method does, and only what may be named is put in. -/
theorem Program.Resettles.later {p q q' : Program} {O O' A : Operand → Prop} {holder : TypeId}
    {K K' : TypeId → TypeClone → Prop} {method replacement : MethodId}
    (h : p.Resettles q O holder K method replacement) (hGrows : q.Grows q')
    (hSame : ∀ m m', q.method? method = some m → q'.method? method = some m' → m'.body = m.body)
    (hCode : ∀ b, q.body replacement = .ok b → ∃ b', q'.body replacement = .ok b' ∧ b.Augments A b')
    (hA : ∀ operand, A operand → O' operand) (hO : ∀ operand, O operand → O' operand)
    (hK : ∀ display clone, K display clone → K' display clone) :
    p.Resettles q' O' holder K' method replacement := by
  obtain ⟨m, m', hMethod, hStands, hParams, hReturns, hBody⟩ := h
  obtain ⟨n, hMethod₁, hShape⟩ := hGrows.method hMethod
  obtain ⟨n', hStands₁, hShape'⟩ := hGrows.method hStands
  refine ⟨n, n', hMethod₁, hStands₁, (hShape'.params.trans hParams).trans hShape.params.symm,
    (hShape'.returnType.trans hReturns).trans hShape.returnType.symm, fun b hb => ?_⟩
  obtain ⟨b', hb', hFollows, hDisplays⟩ := hBody b (hSame m n hMethod hMethod₁ ▸ hb)
  obtain ⟨b'', hThere, hAugments⟩ := hCode b' (body_ok.mpr ⟨m', hStands, hb'⟩)
  obtain ⟨n'', hStands₂, hb''⟩ := body_ok.mp hThere
  obtain rfl := Option.some_inj.mp (hStands₁.symm.trans hStands₂)
  refine ⟨b'', hb'', IsTrans.trans _ _ _ hFollows hAugments.toFollows, fun display hBuilds => ?_⟩
  obtain ⟨clone, hCopy, hAvoids⟩ := hDisplays display hBuilds
  exact ⟨clone, hK display clone hCopy, (hAvoids.mono hO).augments hA hAugments⟩

namespace Propagation

/-- What stands in for a method that moved to a context, and the copies of display classes. -/
def Moved (p : Program) (plan : ContextPlan) (S : Scope) (context : ContextId)
    (method replacement : MethodId) (s : Propagation) : Prop :=
  p.Resettles s.program (fun operand => S.Mentions operand ∨ p.Lacks operand)
    (plan.context context).holder (fun display clone =>
      s.closures.relocated.get? (display, (plan.context context).generated) = some clone)
    method replacement

/-- A method came with the run, and all methods that it stands in for moved to a context. -/
structure Receives (p : Program) (context : ContextId) (replacement : MethodId) (s : Propagation) :
    Prop where
  new : p.methods.length ≤ replacement.index
  moves : ∀ id b, s.bindings.get? id = some b → b.replacement = replacement →
    b.mode = .instanceConverted context

/-- A method stands in for none and constructs no context. -/
structure Plain (method : MethodId) (s : Propagation) : Prop where
  free : ¬ s.bindings.StandsIn method
  idle : ¬ s.Constructs method

/-- The copies of display classes name what they should, and so does what stands in for moved
methods: it was copied from one of them. -/
structure Redirects (p : Program) (plan : ContextPlan) (S : Scope) (s : Propagation) : Prop where
  copies : ∀ display generated clone, s.closures.relocated.get? (display, generated) = some clone →
    clone.Placed p S.Mentions display generated s.closures s.program
  moved : ∀ context replacement, s.bindings.StandsIn replacement →
    s.Receives p context replacement → ∃ method,
      s.bindings.get? method = some ⟨method, replacement, .instanceConverted context⟩ ∧
      (s.Plain method → s.Moved p plan S context method replacement)

/-- A step keeps it so. -/
def Redirecting (p : Program) (plan : ContextPlan) (S : Scope) (s t : Propagation) : Prop :=
  s.closures.Keyed → s.Advances t ∧ (s.plan.shape = plan.shape → t.Admits S → s.Grounded p →
    s.Redirects p plan S → s.Spares p S t ∧ t.Redirects p plan S)

variable {p : Program} {plan : ContextPlan} {S : Scope} {s t u : Propagation}
  {method replacement : MethodId} {context : ContextId}

instance : IsPreorder Propagation (Redirecting p plan S) where
  refl _ hKeyed := ⟨.refl hKeyed, fun _ _ _ h => ⟨.refl hKeyed, h⟩⟩
  trans s t u h h' hKeyed := by
    obtain ⟨hFirst, hBefore⟩ := h hKeyed
    obtain ⟨hNext, hAfter⟩ := h' hFirst.keyed
    refine ⟨hFirst.trans hNext, fun hShape hAdmits hGrounded hRedirects => ?_⟩
    obtain ⟨hSpares, hRedirects⟩ := hBefore hShape (hAdmits.earlier hNext) hGrounded hRedirects
    obtain ⟨hSpares', hEnd⟩ :=
      hAfter (hFirst.plan.trans hShape) hAdmits (hSpares.grounded hGrounded) hRedirects
    exact ⟨hSpares.trans hSpares', hEnd⟩

theorem Receives.earlier (h : t.Receives p context replacement) (hAdvances : s.Advances t) :
    s.Receives p context replacement where
  new := h.new
  moves id b hGet := h.moves id b (hAdvances.bindings id b hGet)

theorem Plain.earlier (h : t.Plain method) (hAdvances : s.Advances t) : s.Plain method where
  free hStands := h.free (hStands.later hAdvances.bindings)
  idle hConstructs := h.idle (hConstructs.earlier hAdvances.plan.symm)

/-- Code that came with the run is augmented with what may be named. -/
theorem Spares.augments (h : s.Spares p S t) (hAdmits : t.Admits S) (hGrounded : s.Grounded p)
    {id : MethodId} {b : MethodBody} (hNew : p.methods.length ≤ id.index)
    (hBody : s.program.body id = .ok b) :
    ∃ b', t.program.body id = .ok b' ∧ b.Augments S.Mentions b' := by
  obtain ⟨m, hMethod, hCode⟩ := Program.body_ok.mp hBody
  obtain ⟨m', hMethod', hSame⟩ := h.grows.method hMethod
  obtain ⟨b', hCode', -⟩ := hSame.body b hCode
  have hKept : Region.Kept ⟨(· = id), fun _ => False⟩ p s := by
    refine ⟨?_, fun _ => False.elim⟩
    rintro _ rfl
    exact ⟨hNew, (List.getElem?_eq_some_iff.mp hMethod).1⟩
  have hStart : s.program.Within ⟨(· = id), fun _ => False⟩ (b.Augments S.Mentions) := by
    rintro _ m₀ b₀ hMethod₀ (rfl | hNever) hCode₀
    · obtain rfl := Option.some_inj.mp (hMethod.symm.trans hMethod₀)
      obtain rfl := Option.some_inj.mp (hCode.symm.trans hCode₀)
      exact refl b
    · exact hNever.elim
  have hEnd := h.within hAdmits hGrounded _ hKept _
    (fun _ _ h h' => IsTrans.trans _ _ _ h' h) hStart
  exact ⟨b', Program.body_ok.mpr ⟨m', hMethod', hCode'⟩, hEnd id m' b' hMethod' (Or.inl rfl) hCode'⟩

/-- What stands in for a moved method stays as it is as long as the code of the method does. -/
theorem Moved.later (h : s.Moved p plan S context method replacement) (hSpares : s.Spares p S t)
    (hAdmits : t.Admits S) (hGrounded : s.Grounded p) (hNew : p.methods.length ≤ replacement.index)
    (hKept : ∀ key clone, s.closures.relocated.get? key = some clone →
      t.closures.relocated.get? key = some clone)
    (hCode : ∀ m m', s.program.method? method = some m → t.program.method? method = some m' →
      m'.body = m.body) : t.Moved p plan S context method replacement :=
  Program.Resettles.later h hSpares.grows hCode
    (fun _ => hSpares.augments hAdmits hGrounded hNew) (fun _ => Or.inl) (fun _ h => h)
    fun _ => hKept _

/-- The copies of display classes stay as they are. -/
theorem Redirects.copies_later (h : s.Redirects p plan S) (hSpares : s.Spares p S t)
    (hAdmits : t.Admits S) (hGrounded : s.Grounded p) {display generated : TypeId}
    {clone : TypeClone} (hGet : s.closures.relocated.get? (display, generated) = some clone) :
    clone.Placed p S.Mentions display generated t.closures t.program := by
  have hPlaced := h.copies display generated clone hGet
  obtain ⟨copy, hCopy, hNew, hThere⟩ := hPlaced.made.copy
  have hKept : clone.region.Kept p s := by
    refine ⟨fun _ => False.elim, fun type hType => ?_⟩
    obtain rfl := Option.some_inj.mp (hCopy.symm.trans hType)
    exact ⟨hNew, hThere, hPlaced.record _ hType⟩
  refine ⟨hPlaced.made.later hSpares.grows fun m m' b hGet hBody => ?_, fun type hType => ?_, ?_⟩
  · obtain ⟨b', hBody', hAugments⟩ :=
      hSpares.augments hAdmits hGrounded (hPlaced.made.method hGet).1 hBody
    exact ⟨b', hBody', hAugments.toFollows⟩
  · exact ((hSpares.kept hGrounded _ hKept).types type hType).2.2
  · refine hSpares.within hAdmits hGrounded _ hKept _ ?_ hPlaced.code
    exact fun _ _ hAugments hAvoids => hAvoids.augments (fun _ h => h) hAugments

/-- Steps that copy no display class and move no method leave everything as it is. -/
theorem Minor.redirecting (h : s.closures.Keyed → s.plan.shape = plan.shape → s.Minor p S t)
    (hAdvances : Advanced s t) : Redirecting p plan S s t := by
  refine fun hKeyed => ⟨hAdvances hKeyed, fun hShape hAdmits hGrounded hRedirects => ?_⟩
  have hMinor := h hKeyed hShape
  have hSpares := hMinor.toSpares
  refine ⟨hSpares, fun display generated clone hGet => ?_,
    fun context replacement hStands hTakes => ?_⟩
  · exact hRedirects.copies_later hSpares hAdmits hGrounded (hMinor.relocated ▸ hGet)
  · have hBefore := hTakes.earlier hSpares.toAdvances
    obtain ⟨id, b, hGet, rfl⟩ := hStands
    have hMode := hTakes.moves id b hGet rfl
    rcases hMinor.binds id b hGet with hOld | hAdded | hThere
    · obtain ⟨method, hBound, hMoved⟩ :=
        hRedirects.moved context b.replacement ⟨id, b, hOld, rfl⟩ hBefore
      refine ⟨method, hSpares.bindings _ _ hBound, fun hPlain => ?_⟩
      have hPlainBefore := hPlain.earlier hSpares.toAdvances
      refine (hMoved hPlainBefore).later hSpares hAdmits hGrounded hTakes.new
        (fun key clone hGet => hMinor.relocated ▸ hGet) fun m m' hMethod hMethod' => ?_
      rcases hMinor.code method m m' ⟨_, hBound⟩ hMethod hMethod' with hSame | hConstructs | hStands
      · exact hSame
      · exact absurd hConstructs hPlainBefore.idle
      · exact absurd hStands hPlain.free
    · cases hMode.symm.trans hAdded
    · exact absurd hThere (Nat.not_lt.mpr hTakes.new)

theorem IsMinor.redirecting (h : IsMinor p S s t) : Redirecting p plan S s t :=
  Minor.redirecting (fun hKeyed _ => h hKeyed) fun hKeyed => (h hKeyed).toAdvances

theorem Alike.redirecting (h : s.Alike t) : Redirecting p plan S s t := h.isMinor.redirecting

end Propagation

namespace Propagate

open Propagation (Alike IsMinor Minor Redirecting)

variable {α : Type} {p : Program} {plan : ContextPlan} {S : Scope} {s t : Propagation}
  {context : ContextId} {method replacement : MethodId}

theorem redirecting_minor {x : Propagate α} (h : Keeps (IsMinor p S) x) :
    Keeps (Redirecting p plan S) x := fun _ _ _ hRun => (h hRun).redirecting

/-- Calling an init unit edits the constructor, and no more of the program. -/
theorem inlineInitUnit_rewrites {constructor : MethodId} {u : Unit}
    (h : inlineInitUnit constructor replacement s = .ok u t) :
    s.program.Rewrites (· = constructor) (fun _ => False) t.program ∧ t.closures = s.closures := by
  rcases inlineInitUnit_ok h with rfl | ⟨_, s₁, hEdit, hRewrites, -, hDerive⟩
  · exact ⟨refl s.program, rfl⟩
  · obtain ⟨p, -, rfl⟩ := edit_ok.mp hEdit
    obtain ⟨v, -, rfl⟩ := graph_ok.mp hDerive
    exact ⟨hRewrites, rfl⟩

/-- Keeping track of init units is a minor step, where contexts have constructors of their own. -/
theorem adoptInitUnit_minor {u : Unit} (h : adoptInitUnit context method replacement s = .ok u t)
    (hThere : ∀ id, s.Constructs id → ∃ m, p.method? id = some m ∧ m.owner.index < p.types.length) :
    IsMinor p S s t := by
  intro hKeyed
  have hAdvances := advances_adoptInitUnit h hKeyed
  have hBindings : t.bindings = s.bindings := same_adoptInitUnit h
  have hRecodes := recodes_adoptInitUnit (X := fun _ => False) h hKeyed
  obtain ⟨hProgram, hClosures⟩ :
      s.program.Rewrites s.Constructs (fun _ => False) t.program ∧ t.closures = s.closures := by
    obtain ⟨_, _, hGet, h⟩ := Step.bind_ok.mp h
    obtain ⟨rfl, rfl⟩ := Step.get_ok.mp hGet
    split at h
    · rename_i hUnit
      obtain ⟨_, s₁, hSet, h⟩ := Step.bind_ok.mp h
      obtain rfl := Step.set_ok.mp hSet
      split at h
      · obtain ⟨hProgram, hClosures⟩ := inlineInitUnit_rewrites h
        refine ⟨hProgram.mono ?_ fun _ => id, hClosures⟩
        rintro _ rfl
        exact Propagation.constructs_of_initUnits hUnit
      · obtain ⟨-, rfl⟩ := Step.pure_ok.mp h
        exact ⟨refl s.program, rfl⟩
    · obtain ⟨-, rfl⟩ := Step.pure_ok.mp h
      exact ⟨refl s.program, rfl⟩
  refine ⟨.of_confined hAdvances hProgram.toConfined hThere (by rw [hClosures]) ?_,
    by rw [hClosures], fun id b hGet => Or.inl (hBindings ▸ hGet),
    fun id m m' _ hMethod hMethod' => ?_⟩
  · exact fun type field hRoot => Or.inl (hClosures ▸ hRoot)
  · exact (hRecodes.code id m m' hMethod hMethod').imp_right (Or.resolve_left · not_false)

/-- A copy was made of the method `m`, for a method that is bound to it: an instance method on the
type `owner`, with another name. -/
structure BindsCopy (s u : Propagation) (b : Binding) (owner : TypeId) (m copy : MethodDef) :
    Prop where
  source : s.program.method? b.method = some m
  made : u.program.method? b.replacement = some copy
  owner : copy.owner = owner
  params : copy.params = m.params
  returnType : copy.returnType = m.returnType
  body : copy.body = MethodShape.instanceMethod.copyBody m
  others : ∀ id n, s.program.method? id = some n →
    u.program.method? id = some n ∧ id ≠ b.replacement
  closures : u.closures = s.closures
  binds : ∀ id c, u.bindings.get? id = some c →
    s.bindings.get? id = some c ∨ c = b ∧ id = b.method

theorem bindsCopy {owner : TypeId} {name : String} {params : List TypeRef} {b : Binding}
    {r : Propagation} (hCopy : makeCopy b.method owner name params .instanceMethod s
      = .ok b.replacement r) (hBind : bindMethod b r = .ok () t) :
    ∃ m copy, BindsCopy s t b owner m copy := by
  obtain ⟨m, hMethod, hNew, -, -, hMethods, -, hSame⟩ := makeCopy_ok hCopy
  obtain ⟨bindings, hBinding, rfl⟩ := bindMethod_ok hBind
  have hIndex : r.program.methods[b.replacement.index]?
      = r.program.methods[s.program.methods.length]? := by rw [hNew]
  have hLast := (congrArg (·[s.program.methods.length]?) hMethods).trans List.getElem?_concat_length
  refine ⟨m, _, hMethod, hIndex.trans hLast, rfl, rfl, rfl, rfl, fun id n hThere => ?_,
    by rw [hSame], fun id c hGet => ?_⟩
  · have hOld : id.index < s.program.methods.length := (List.getElem?_eq_some_iff.mp hThere).1
    refine ⟨?_, fun hIs => absurd hOld (by rw [hIs, hNew]; exact Nat.lt_irrefl _)⟩
    change r.program.methods[id.index]? = some n
    rw [hMethods, List.getElem?_append_left hOld]
    exact hThere
  · rw [hSame] at hBinding
    exact (BindingMap.bind_ok hBinding).2.2 id c hGet

section Relocates

open ClosureEdit (Displaces Placing Redirected)

variable {b : Binding} {owner : TypeId} {m copy : MethodDef} {u : Propagation}
  {v : Closures × Workspace} (hCopied : BindsCopy s u b owner m copy)
  (hDisplaces : Displaces p b.replacement (u.closures, u.work) v)
include hCopied hDisplaces

/-- Copying display classes for a copy leaves the code in regions that were there before it. -/
theorem relocated_spares (hSpares : s.Spares p S u)
    (hAdvances : u.Advances { u with closures := v.1, work := v.2 })
    (hPlaced : v.1.Grounded p v.2.program) (hOwner : owner.index < p.types.length) :
    s.Spares p S { u with closures := v.1, work := v.2 } := by
  have hLater := hSpares.toAdvances.trans hAdvances
  have hFresh {type : TypeId} (hNew : u.program.types.length ≤ type.index) :
      s.program.types.length ≤ type.index := hSpares.grows.types.length_le.trans hNew
  refine ⟨hLater, fun hGrounded => ⟨hPlaced, fun id m' hMethod' hLate => ?_⟩, fun _ R hKept => ?_,
    fun hAdmits hGrounded R hKept B hB hWithin => ?_⟩
  · rcases hDisplaces.program.code id m' hMethod' with ⟨m₀, hMethod₀, -⟩ | ⟨-, hNew, -⟩
    · rw [(hDisplaces.program.grows.method_persists hMethod₀ hMethod').owner]
      exact (hSpares.grounded hGrounded).brings id m₀ hMethod₀ hLate
    · exact Or.inl (hGrounded.grows.types.length_le.trans (hFresh hNew))
  · refine Propagation.later_kept hKept hLater.grows fun type hType => Or.inl ?_
    obtain ⟨key, r, hGet, hType⟩ := hType
    exact ⟨key, r, hCopied.closures ▸ hDisplaces.records ▸ hGet, hType⟩
  · have hBefore := hSpares.within (hAdmits.earlier hAdvances) hGrounded R hKept B hB hWithin
    refine hBefore.confined hDisplaces.program (fun id hIn => ?_)
      (fun id m' hMethod' hIn hHas => ?_) fun type hNew hIn => ?_
    · exact (hKept.methods id hIn).2.trans_le hSpares.grows.methods.length_le
    -- The copy is new, and its owner came before the run.
    · subst hIn
      obtain rfl := Option.some_inj.mp (hCopied.made.symm.trans hMethod')
      rcases hHas with hIn | hIn
      · have hThere := List.getElem?_eq_getElem (hKept.methods _ hIn).2
        exact (hCopied.others _ _ hThere).2 rfl
      · exact absurd hOwner (Nat.not_lt.mpr (hCopied.owner ▸ (hKept.types _ hIn).1))
    · exact absurd (hKept.types type hIn).2.1 (Nat.not_lt.mpr (hFresh hNew.1))

/-- The copy names the copies of the display classes that the method constructs. -/
theorem relocated_resettles {holder generated : TypeId} {O : Operand → Prop}
    (hGrows : p.Grows u.program)
    (hRedirected : ∀ code display, u.program.body b.replacement = .ok code →
      u.program.Builds holder code.instructions display → (p.type? display).isSome →
        Redirected p b.replacement generated display v) :
    p.Resettles v.2.program (fun operand => O operand ∨ p.Lacks operand) holder
      (fun display clone => v.1.relocated.get? (display, generated) = some clone)
      b.method b.replacement := by
  obtain ⟨hThere, hOther⟩ := hCopied.others _ _ hCopied.source
  obtain ⟨n, hMethod, hSource⟩ := hDisplaces.program.grows.method hThere
  obtain ⟨n', hMethod', hStands⟩ := hDisplaces.program.grows.method hCopied.made
  refine ⟨n, n', hMethod, hMethod', (hStands.params.trans hCopied.params).trans hSource.params.symm,
    (hStands.returnType.trans hCopied.returnType).trans hSource.returnType.symm,
    fun code hCode => ?_⟩
  rw [(hDisplaces.program.sameBody hThere hMethod).resolve_right hOther] at hCode
  have hShifted : u.program.body b.replacement = .ok
      (code.shiftArguments m.thisOffset (MethodShape.instanceMethod.addedArgs m)) := by
    refine Program.body_ok.mpr ⟨copy, hCopied.made, ?_⟩
    rw [hCopied.body, MethodShape.copyBody, hCode, Option.map_some]
  obtain ⟨code', hCode', hRenames⟩ := hDisplaces.code _ hShifted
  obtain ⟨n'', hMethod'', hEnd⟩ := Program.body_ok.mp hCode'
  obtain rfl := Option.some_inj.mp (hMethod'.symm.trans hMethod'')
  have hAugments : code.Augments (fun _ => False) _ := MethodBody.augments_shiftArguments
    m.thisOffset (MethodShape.instanceMethod.addedArgs m)
  refine ⟨code', hEnd, IsTrans.trans _ _ _ hAugments.toFollows hRenames.shares.follows,
    fun display hBuilds => ?_⟩
  have hLater := hBuilds.later hGrows fun i hMem hNew =>
    MethodBody.mem_shiftArguments m.thisOffset (MethodShape.instanceMethod.addedArgs m) hMem
      (by rw [hNew]; rfl)
  obtain ⟨clone, code'', hClone, hCode'', hAvoids⟩ :=
    hRedirected _ display hShifted hLater hBuilds.there
  obtain rfl := Except.ok.inj (hCode'.symm.trans hCode'')
  exact ⟨clone, hClone, hAvoids.mono fun _ => Or.inr⟩

end Relocates

/-- When a method moves to a context by a copy, the display classes that it constructs are copied
for the copy. -/
theorem relocateCopy_redirecting {name : String} {params : List TypeRef} {ids : List MethodId}
    {r u : Propagation} (hCopy : makeCopy method (s.plan.context context).generated name params
      .instanceMethod s = .ok replacement r)
    (hBind : bindMethod ⟨method, replacement, .instanceConverted context⟩ r = .ok () u)
    (hRelocate : closures (ClosureEdit.relocateDisplayClasses replacement
      (s.plan.context context).holder (s.plan.context context).generated) u = .ok ids t)
    (hGenerated : (plan.context context).generated.index < p.types.length) :
    Redirecting p plan S s t := by
  intro hKeyed
  have hBound := (IsTrans.trans _ _ _ (advances_makeCopy hCopy)
    (advances_bindMethod hBind) : Propagation.Advanced s u) hKeyed
  have hRelocated : u.Advances t := advances_edited (S := fun _ => True)
    (keeps_closures (ClosureEdit.keeps_relocateDisplayClasses trivial)) hRelocate hBound.keyed
  refine ⟨hBound.trans hRelocated, fun hShape hAdmits hGrounded hRedirects => ?_⟩
  have hHolder : (s.plan.context context).holder = (plan.context context).holder :=
    (congrArg ContextDescriptor.holder (ContextPlan.context_of_shape hShape context) :)
  have hOwner : (s.plan.context context).generated = (plan.context context).generated :=
    (congrArg ContextDescriptor.generated (ContextPlan.context_of_shape hShape context) :)
  rw [hHolder, hOwner] at hRelocate
  rw [hOwner] at hCopy
  have hBefore : s.Spares p S u := bindCopy_spares hCopy hBind hKeyed (Or.inl hGenerated)
  obtain ⟨m, copy, hCopied⟩ :=
    bindsCopy (b := ⟨method, replacement, .instanceConverted context⟩) hCopy hBind
  have hPlacing : ClosureEdit.Placing p S.Mentions replacement (u.closures, u.work) := by
    refine ⟨(hBefore.grounded hGrounded).toGrounded, fun display generated clone hGet => ?_,
      copy, hCopied.made, hCopied.owner ▸ hGenerated⟩
    exact hRedirects.copies_later hBefore (hAdmits.earlier hRelocated) hGrounded
      (hCopied.closures ▸ hGet)
  obtain ⟨v, hRun, rfl⟩ := Step.focus_ok.mp hRelocate
  obtain ⟨hDisplaces, hPlaced, hRedirected⟩ :=
    ClosureEdit.relocateDisplayClasses_places hRun hPlacing
  have hSpares : s.Spares p S { u with closures := v.1, work := v.2 } :=
    relocated_spares hCopied hDisplaces hBefore hRelocated hPlaced.grounded hGenerated
  refine ⟨hSpares, hPlaced.copies, fun moved target hStands hTakes => ?_⟩
  obtain ⟨id, b, hGet, rfl⟩ := hStands
  rcases hCopied.binds id b hGet with hBefore | ⟨rfl, rfl⟩
  · obtain ⟨origin, hOrigin, hMoved⟩ := hRedirects.moved moved b.replacement ⟨id, b, hBefore, rfl⟩
      (hTakes.earlier hSpares.toAdvances)
    refine ⟨origin, hSpares.bindings _ _ hOrigin, fun hPlain => ?_⟩
    refine (hMoved (hPlain.earlier hSpares.toAdvances)).later hSpares hAdmits hGrounded hTakes.new
      (fun key clone hGet => ?_) fun n n' hn hn' => ?_
    · exact hDisplaces.kept key clone (hCopied.closures ▸ hGet)
    · obtain ⟨hThere, hOther⟩ := hCopied.others _ _ hn
      exact (hDisplaces.program.sameBody hThere hn').resolve_right hOther
  · obtain rfl := BindingMode.instanceConverted.inj (hTakes.moves _ _ hGet rfl)
    exact ⟨_, hGet, fun _ => relocated_resettles hCopied hDisplaces
      (hGrounded.grows.trans hBound.grows) hRedirected⟩

section Run

variable (hOwned : p.Owned) (hNames : plan.Names p)
include hOwned hNames

/-- A method may move to what is there already. -/
theorem bindFound_redirecting {u : Unit}
    (hFound : (s.plan.context context).replacementMethods.get? method = some replacement ∨
      ∃ m, s.program.method? method = some m ∧ s.program.findCopy?
        (s.plan.context context).generated m.name m.paramTypes false = some replacement)
    (hBind : bindMethod ⟨method, replacement, .instanceConverted context⟩ s = .ok u t)
    (hGenerated : (plan.context context).generated.index < p.types.length) :
    Redirecting p plan S s t := by
  intro hKeyed
  have hAdvances := advances_bindMethod hBind hKeyed
  refine ⟨hAdvances, fun hShape hAdmits hGrounded hRedirects => ?_⟩
  have hOwner : (s.plan.context context).generated = (plan.context context).generated :=
    (congrArg ContextDescriptor.generated (ContextPlan.context_of_shape hShape context) :)
  obtain ⟨bindings, hBinding, rfl⟩ := bindMethod_ok hBind
  obtain ⟨hExtends, -, hBinds⟩ := BindingMap.bind_ok hBinding
  have hSpares : s.Spares p S { s with bindings } :=
    .of_confined (X := fun _ => False) hAdvances (.refl s.program) (fun _ => False.elim) rfl
      fun _ _ => Or.inl
  refine ⟨hSpares, fun display generated clone => hRedirects.copies_later hSpares hAdmits hGrounded,
    fun moved target hStands hTakes => ?_⟩
  -- What is there came before the run, or stands in for another method.
  have hBefore : s.bindings.StandsIn target := by
    obtain ⟨id, b, hGet, rfl⟩ := hStands
    rcases hBinds id b hGet with hOld | ⟨rfl, rfl⟩
    · exact ⟨id, b, hOld, rfl⟩
    · rcases hFound with hGiven | ⟨m, -, hCopy⟩
      · have hBrings : s.plan.Brings ⟨id, replacement, .instanceConverted context⟩ :=
          ⟨context, rfl, Table.mem_values_of_get? hGiven⟩
        exact absurd (hNames.brings (hBrings.of_shape hShape)) (Nat.not_lt.mpr hTakes.new)
      · obtain ⟨d, hThere, -, hSeat, -⟩ :=
          Program.findCopy?_eq_some (hGrounded.grows.owned hOwned) hCopy
        have hOwned : d.owner = (s.plan.context context).generated := congrArg Prod.fst hSeat
        refine (hGrounded.brings replacement d hThere hTakes.new).resolve_left fun hNew => ?_
        rw [hOwned, hOwner] at hNew
        exact absurd hGenerated (Nat.not_lt.mpr hNew)
  obtain ⟨origin, hOrigin, hMoved⟩ :=
    hRedirects.moved moved target hBefore (hTakes.earlier hSpares.toAdvances)
  refine ⟨origin, hExtends _ _ hOrigin, fun hPlain => ?_⟩
  refine (hMoved (hPlain.earlier hSpares.toAdvances)).later hSpares hAdmits hGrounded hTakes.new
    (fun _ _ h => h) fun m m' hMethod hMethod' => ?_
  rw [Option.some_inj.mp (hMethod.symm.trans hMethod')]

variable (hContexts : ∀ c ∈ plan.contexts, ∃ m, p.method? c.constructor = some m ∧
  m.owner.index < p.types.length)
include hContexts

/-- Moving a method to a context, by a copy or to what is there. -/
theorem redirecting_convertOne
    (hGenerated : (plan.context context).generated.index < p.types.length) :
    Keeps (Redirecting p plan S) (convertOne context method) := by
  have hAdopt {replacement : MethodId} :
      Keeps (Redirecting p plan S) (adoptInitUnit context method replacement) := by
    refine fun s u t h => Minor.redirecting (fun hKeyed hShape => ?_) (advances_adoptInitUnit h)
    refine adoptInitUnit_minor h (fun id hConstructs => ?_) hKeyed
    obtain ⟨c, hMem, rfl⟩ := hConstructs.earlier (s := .start p plan default) hShape
    exact hContexts c hMem
  intro s made t h
  rcases convertOne_steps h with rfl | ⟨replacement, fresh, r, u, v, -, hMade, hBind, hMoved, hRest⟩
  · exact refl s
  · rcases convertedReplacement_ok hMade with ⟨rfl, rfl, hFound⟩ | ⟨rfl, m, -, hCopy⟩
    · rw [if_neg Bool.false_ne_true] at hMoved
      subst hMoved
      exact IsTrans.trans _ _ _ (bindFound_redirecting hOwned hNames hFound hBind hGenerated)
        (hAdopt hRest)
    · rw [if_pos rfl] at hMoved
      obtain ⟨copied, w, hRelocate, rfl⟩ := hMoved
      have hEnqueued : w.Alike (w.enqueue copied) := ⟨rfl, rfl, rfl, rfl, rfl⟩
      exact IsTrans.trans _ _ _ (relocateCopy_redirecting hCopy hBind hRelocate hGenerated)
        (IsTrans.trans _ _ _ hEnqueued.redirecting (hAdopt hRest))

variable (hGenerated : ∀ context, (plan.context context).generated.index < p.types.length)
include hGenerated

/-- Binding a method moves the methods of its group to a context, or gives them the root. -/
theorem redirecting_bindNeedy {places : List NeedySite} :
    Keeps (Redirecting p plan S) (bindNeedy method places) := by
  have hConvert (context : ContextId) : Keeps (Redirecting p plan S) (convert method context) := by
    refine Keeps.bind Keeps.get fun s => ?_
    refine Keeps.bind (Keeps.bind Keeps.get fun _ => model_keeps) fun group => ?_
    refine Keeps.bind (Keeps.mapM fun _ _ => redirecting_convertOne hOwned hNames hContexts
      (hGenerated context)) fun made => ?_
    exact Keeps.bind (Keeps.forM fun _ _ => redirecting_minor minor_alignProperty) fun _ =>
      redirecting_minor minor_complete
  have hAdd : Keeps (Redirecting p plan S) (addParameter method) :=
    redirecting_minor minor_addParameter
  refine Keeps.bind model_keeps fun m => Keeps.bind Keeps.get fun s => ?_
  split
  · exact Keeps.ite (hConvert _) hAdd
  · exact hAdd

/-- A visit keeps what the copies and what stands in for moved methods name. -/
theorem redirecting_visit : Keeps (Redirecting p plan S) (visit method) := by
  intro s u t h
  have hVisited : s.Alike s.visited := ⟨rfl, rfl, rfl, rfl, rfl⟩
  have hInPlace {v : Propagation} {handle : HandleSource} {b : MethodBody}
      (hBody : v.program.body method = .ok b) (hFree : v.bindings.isBound method = false)
      (hReads : v.Admits S → v.Grounded p → handle.Reads v.plan S)
      (hAllowed : v.Admits S → v.Grounded p → ∀ place ∈ s.places b, place.Allowed S)
      (hAdapt : adaptInPlace ⟨method, handle⟩ (s.places b) v = .ok () t) : IsMinor p S v t := by
    refine adaptInPlace_minor hBody ?_ hReads hAllowed hAdapt
    simpa [BindingMap.isBound] using hFree
  cases visit_ok h with
  | skipped hDone hEnd => exact hEnd ▸ hVisited.redirecting
  | settled b hLive hNone hEnd => exact hEnd ▸ hVisited.redirecting
  | adapted b hLive hFree hSome handle hHandle hAdapt =>
      refine IsTrans.trans _ _ _ hVisited.redirecting (IsMinor.redirecting
        (hInPlace (Program.body_of_liveBody? hLive) hFree ?_ ?_ hAdapt))
      · exact handleOf?_reads hHandle
      · exact fun hAdmits hGrounded => places_allowed (s := s.visited) hAdmits
          fun type field hRoot => hAdmits.root hGrounded hRoot
  | captured b hLive hFree hSome handle v hNone hDisplay hAdapt =>
      refine IsMinor.redirecting fun hKeyed => ?_
      have hAdvances : s.visited.Advances v := advances_displayHandle? hDisplay hKeyed
      have hBindings : v.bindings = s.visited.bindings := same_displayHandle? hDisplay
      obtain ⟨hMethods, hRoots⟩ := displayHandle?_keeps hDisplay
      have hBody : v.program.body method = .ok b := by
        obtain ⟨m, hMethod, hBody⟩ := Program.body_ok.mp (Program.body_of_liveBody? hLive)
        refine Program.body_ok.mpr ⟨m, ?_, hBody⟩
        rwa [Program.method?, hMethods]
      refine IsTrans.trans (r := IsMinor p S) _ _ _ hVisited.isMinor (IsTrans.trans _ _ _
        (minor_displayHandle? hDisplay) (hInPlace hBody (hBindings ▸ hFree)
          (displayHandle?_reads hDisplay) ?_ hAdapt)) hKeyed
      exact fun hAdmits hGrounded => places_allowed (s := s.visited) (hAdmits.earlier hAdvances)
        fun type field hRoot => hAdmits.root hGrounded (hRoots type field hRoot)
  | bound b hLive hFree hSome hNone hBind =>
      exact IsTrans.trans _ _ _ hVisited.redirecting
        (redirecting_bindNeedy hOwned hNames hContexts hGenerated hBind)

/-- A run keeps what the copies and what stands in for moved methods name. -/
theorem redirecting_run : Keeps (Redirecting p plan S) run := by
  have hAlike {f : Propagation → Propagation} (h : ∀ s : Propagation, s.Alike (f s)) :
      Keeps (Redirecting p plan S) (modify f : Propagate PUnit) :=
    redirecting_minor (minor_modify h)
  have hGiven : Keeps (Redirecting p plan S) bindReplacements := fun s u t h =>
    Minor.redirecting (fun hKeyed hShape => minor_bindReplacements h
      (fun b hb => hNames.brings ((ContextPlan.brings_of_given hb).of_shape hShape)) hKeyed)
      (advances_bindReplacements h)
  have hBatches : Keeps (Redirecting p plan S) visitAll :=
    keeps_visitAll (keeps_batch (fun s => Alike.redirecting ⟨rfl, rfl, rfl, rfl, rfl⟩) fun _ =>
      redirecting_visit hOwned hNames hContexts hGenerated)
  refine Keeps.bind (redirecting_minor minor_graph) fun _ => Keeps.bind hGiven fun _ => ?_
  refine Keeps.bind (hAlike fun _ => ⟨rfl, rfl, rfl, rfl, rfl⟩) fun _ => ?_
  refine Keeps.bind hBatches fun _ => ?_
  exact Keeps.bind (redirecting_minor minor_retireMovedFields) fun _ =>
    hAlike fun _ => ⟨rfl, rfl, rfl, rfl, rfl⟩

end Run

end Propagate

namespace Propagation

variable {p : Program} {plan : ContextPlan} {options : PropagationOptions}

/-- What may be named at the end of a run, at most. -/
def scope (s : Propagation) : Scope where
  field id := (∃ c ∈ s.plan.contexts, c.Leads id) ∨
    ∃ f, s.program.field? id = some f ∧ f.name = Closures.displayRootName
  call := s.bindings.StandsIn
  target id := s.bindings.StandsIn id ∨ s.closures.Serves id
  place _ := True
  pointer _ := True

theorem scope_admits (s : Propagation) : s.Admits s.scope where
  stands _ h := ⟨h, Or.inl h⟩
  serves _ h := Or.inr h
  leads c hMem _ hLeads := Or.inl ⟨c, hMem, hLeads⟩
  roots _ f hField hName := Or.inr ⟨f, hField, hName⟩
  places _ := ⟨trivial, trivial⟩

theorem start_grounded (hNumbered : p.Numbered) (hHoused : p.Housed) :
    (start p plan options).Grounded p where
  grows := .refl p
  numbered := hNumbered
  housed := hHoused
  records _ := nofun
  roots _ _ := Closures.displayRoot?_ofProgram
  brings _ _ hMethod hNew :=
    absurd (List.getElem?_eq_some_iff.mp hMethod).1 (Nat.not_lt.mpr hNew)

end Propagation

namespace Propagate

open Propagation

variable {p : Program} {plan : ContextPlan} {options : PropagationOptions} {t : Propagation}

/-- At the end of a run, the copies of display classes and what stands in for moved methods name
what they should. -/
theorem run_redirects (h : propagate p plan options = .ok () t) (hOwned : p.Owned)
    (hNumbered : p.Numbered) (hHoused : p.Housed) (hNames : plan.Names p)
    (hContexts : ∀ c ∈ plan.contexts, (p.method? c.constructor).isSome ∧
      c.generated.index < p.types.length) :
    t.plan.shape = plan.shape ∧ t.Grounded p ∧ t.Redirects p plan t.scope := by
  have hConstructors : ∀ c ∈ plan.contexts, ∃ m, p.method? c.constructor = some m ∧
      m.owner.index < p.types.length := fun c hMem => by
    obtain ⟨m, hMethod⟩ := Option.isSome_iff_exists.mp (hContexts c hMem).1
    exact ⟨m, hMethod, hHoused _ m hMethod⟩
  have hGenerated (context : ContextId) :
      (plan.context context).generated.index < p.types.length := by
    unfold ContextPlan.context
    cases hThere : plan.context? context with
    | some c => exact (hContexts c (List.mem_of_getElem? hThere)).2
    | none =>
        obtain ⟨m, hMethod⟩ := Option.isSome_iff_exists.mp hNames.rootConstructor
        exact (Nat.zero_le _).trans_lt (hHoused _ m hMethod)
  obtain ⟨hAdvances, hKept⟩ :=
    redirecting_run (S := t.scope) hOwned hNames hConstructors hGenerated h
      (keyed_start p plan options)
  have hStart : (start p plan options).Redirects p plan t.scope := by
    refine ⟨fun _ _ _ => nofun, fun _ _ hStands => ?_⟩
    obtain ⟨id, b, hGet, -⟩ := hStands
    simp [Propagation.start, BindingMap.empty, BindingMap.get?, Table.get?_empty] at hGet
  have hGrounded : (start p plan options).Grounded p := start_grounded hNumbered hHoused
  obtain ⟨hSpares, hEnd⟩ := hKept rfl (scope_admits t) hGrounded hStart
  exact ⟨hAdvances.plan, hSpares.grounded hGrounded, hEnd⟩

end Propagate

namespace BoundProgram

/-- What a run may put into code names what stands in for methods, the methods of records, the
fields over which contexts are reached and those that take the place of static ones, and the fields
in which display classes store the root. -/
def PutsIn (t : BoundProgram) : Operand → Prop
  | .field id => (∃ c ∈ t.plan.contexts, c.Leads id) ∨
      ∃ f, t.program.field? id = some f ∧ f.name = Closures.displayRootName
  | .method id => t.report.bindings.StandsIn id ∨
      ∃ r ∈ t.report.records,
        r.constructor = id ∨ ∃ replacement, r.trampolines.get? replacement = some id
  | _ => False

end BoundProgram

namespace BinderConfig

variable {config : BinderConfig} {p : Program} {plan : ContextPlan} {t : BoundProgram}
  {context : ContextId} {replacement : MethodId}

/-- What came with a run and stands in for methods that all moved to a context was copied from one
of them, `method`. It takes and returns what `method` does, and has its locals and what its handlers
catch. Where it names something of a display class of the holder that `method` constructs, the run
put that in, or it came with the run; all else is redirected to a copy of the display class on the
context, and so it is in the methods of the copy. -/
theorem run_redirects_displays (h : config.run p plan = .ok t) (hOwned : p.Owned)
    (hNumbered : p.Numbered) (hHoused : p.Housed) (hNames : plan.Names p)
    (hContexts : ∀ c ∈ plan.contexts, c.generated.index < p.types.length)
    (hNew : p.methods.length ≤ replacement.index) (hStands : t.report.bindings.StandsIn replacement)
    (hMoves : ∀ id b, t.report.bindings.get? id = some b → b.replacement = replacement →
      b.mode = .instanceConverted context) :
    ∃ method,
      t.report.bindings.get? method = some ⟨method, replacement, .instanceConverted context⟩ ∧
      (¬ t.report.bindings.StandsIn method → method ≠ plan.rootConstructor →
        (∀ c ∈ plan.contexts, c.constructor ≠ method) →
        p.Resettles t.program (fun operand => t.PutsIn operand ∨ p.Lacks operand)
          (plan.context context).holder (fun display clone =>
            clone.Made p t.program display (plan.context context).generated ∧
            t.program.Within clone.region (clone.Avoids t.PutsIn)) method replacement) := by
  obtain ⟨hValid, s, hRun, hFinish⟩ := run_ok.mp h
  obtain ⟨-, -, -, -, -, hRecords, -⟩ := finish_iff.mp hFinish
  obtain ⟨hPlan, -, hBindings, hRewrites⟩ := finish_ok hFinish
  have hConstructors : ∀ c ∈ plan.contexts, (p.method? c.constructor).isSome ∧
      c.generated.index < p.types.length := fun c hMem => by
    obtain ⟨i, hContext⟩ := List.mem_iff_getElem?.mp hMem
    have hContext : plan.context? ⟨i⟩ = some c := hContext
    exact ⟨(ContextPlan.validate_fits hValid hContext).constructor, hContexts c hMem⟩
  obtain ⟨hShape, hGrounded, hRedirects⟩ :=
    Propagate.run_redirects hRun hOwned hNumbered hHoused hNames hConstructors
  have hRoot : s.plan.shape.rootConstructor = plan.shape.rootConstructor :=
    congrArg ContextPlan.rootConstructor hShape
  obtain ⟨m₀, hMethod₀⟩ := Option.isSome_iff_exists.mp hNames.rootConstructor
  have hPuts (operand : Operand) (hMentions : s.scope.Mentions operand) : t.PutsIn operand := by
    cases operand with
    | field id =>
        refine hMentions.imp (fun hLeads => hPlan ▸ hLeads) fun ⟨f, hField, hName⟩ => ?_
        obtain ⟨f', hField', hSame⟩ := hRewrites.grows.field hField
        exact ⟨f', hField', hSame.name.trans hName⟩
    | method id =>
        have hEither : s.bindings.StandsIn id ∨ s.closures.Serves id :=
          hMentions.elim Or.inl fun hTarget => hTarget
        refine hEither.imp (fun hStands => hBindings ▸ hStands) fun ⟨key, r, hGet, hServes⟩ => ?_
        exact ⟨r, hRecords ▸ Table.mem_values_of_get? hGet, hServes⟩
    | _ => exact hMentions
  rw [hBindings] at hStands hMoves ⊢
  obtain ⟨method, hBound, hMoved⟩ := hRedirects.moved context replacement hStands ⟨hNew, hMoves⟩
  refine ⟨method, hBound, fun hFree hNotRoot hOther => ?_⟩
  have hPlain : s.Plain method := by
    refine ⟨hFree, fun hConstructs => ?_⟩
    obtain ⟨c, hMem, hSame⟩ := hConstructs.earlier (s := .start p plan default) hShape
    exact hOther c hMem hSame
  have hCode (b : MethodBody) (hBody : s.program.body replacement = .ok b) :
      t.program.body replacement = .ok b := by
    refine hRewrites.toConfined.body (fun hFilled => ?_) hBody
    obtain rfl := hFilled.1.trans hRoot
    exact absurd (List.getElem?_eq_some_iff.mp hMethod₀).1 (Nat.not_lt.mpr hNew)
  refine Program.Resettles.later (A := fun _ => False) (hMoved hPlain) hRewrites.grows
    (fun m m' hMethod hMethod' => ?_) (fun b hBody => ⟨b, hCode b hBody, refl b⟩)
    (fun _ => False.elim) (fun operand => Or.imp_left (hPuts operand)) fun display clone hGet => ?_
  · refine (hRewrites.toConfined.sameBody hMethod hMethod').resolve_right fun hFilled => ?_
    exact hNotRoot (hFilled.1.trans hRoot)
  · have hPlaced : clone.Placed p s.scope.Mentions display (plan.context context).generated
        s.closures t.program := by
      refine (hRedirects.copies _ _ clone hGet).confined hRewrites.toConfined
        (fun id m hFilled hMethod => ?_) (fun _ => False.elim) rfl
      obtain rfl := hFilled.1.trans hRoot
      rw [(hGrounded.grows.method_persists hMethod₀ hMethod).owner]
      exact hHoused _ m₀ hMethod₀
    exact ⟨hPlaced.made, fun id m b hMethod hIn hBody =>
      (hPlaced.code id m b hMethod hIn hBody).mono hPuts⟩

end BinderConfig

section Examples

open Program

/-- The static method `M` of the holder `H` stores an instance of a display class of `H` in a local
of its type, and a static field that moves in the instance. -/
def storedCapture : Edit ContextPlan := do
  let root ← addType "G" "Root" none ⟨0⟩
  let holder ← addType "G" "H" none ⟨0⟩
  let context ← addType "G" "H_Ctx" none ⟨0⟩
  let display ← addType "" "<>c__D0" (some holder) (.ofList [.displayClass])
  let rootConstructor ← addMethod root ".ctor" [] .void (.ofList [.constructor])
  let constructor ← addMethod context ".ctor" [] .void (.ofList [.constructor])
  let construct ← addMethod display ".ctor" [] .void (.ofList [.constructor])
  [rootConstructor, constructor, construct].forM fun m => setBody m (.fresh [.plain .ret])
  let slot ← addField root "H_f" (.named context) ⟨0⟩
  let x ← addField holder "x" .int32 (.ofList [.static])
  let moved ← addField context "x" .int32 ⟨0⟩
  let rootField ← addField context "root" (.named root) ⟨0⟩
  let captured ← addField display "captured" .int32 ⟨0⟩
  let m ← addMethod holder "M" [] .void (.ofList [.static])
  setBody m { MethodBody.fresh [.onMethod .newobj construct, .onLocal .stloc 0, .onLocal .ldloc 0,
    .onField .ldsfld x, .onField .stfld captured, .plain .ret] with locals := [.named display] }
  pure ⟨root, rootConstructor, [{ ContextDescriptor.bare "H" holder context constructor with
    chain := [slot]
    rootField := some rootField
    movedFields := .ofList [(x, moved)] }]⟩


/-- What stands in for `M` names nothing of the display class. -/
theorem storedCapture_redirected :
    ∃ t, (default : BinderConfig).run (built storedCapture).1 (built storedCapture).2 = .ok t ∧
      ∃ (clone : TypeClone) (b : MethodBody), t.program.body ⟨4⟩ = .ok b ∧
        clone.Made (built storedCapture).1 t.program ⟨3⟩ ⟨2⟩ ∧
        clone.Avoids (fun operand =>
          t.PutsIn operand ∨ (built storedCapture).1.Lacks operand) b := by
  have hCheck : Outcome.yields
      ((default : BinderConfig).run (built storedCapture).1 (built storedCapture).2)
      (fun t => decide (t.report.bindings.get? ⟨3⟩ = some ⟨⟨3⟩, ⟨4⟩, .instanceConverted ⟨0⟩⟩ ∧
        (∀ b ∈ t.report.bindings.toList, b = ⟨⟨3⟩, ⟨4⟩, .instanceConverted ⟨0⟩⟩) ∧
        ∃ m ∈ t.program.method? ⟨3⟩, ∃ b ∈ m.body,
          (⟨⟨0⟩, .newobj, .method ⟨2⟩⟩ : Instruction) ∈ b.instructions)) = true := by
    decide +kernel
  obtain ⟨t, hRun, hCheck⟩ := Outcome.ok_of_yields hCheck
  obtain ⟨hBound, hOnly, m, hMethod, b, hBody, hMem⟩ := of_decide_eq_true hCheck
  have hSame {id : MethodId} {c : Binding} (hGet : t.report.bindings.get? id = some c) :
      c = ⟨⟨3⟩, ⟨4⟩, .instanceConverted ⟨0⟩⟩ := hOnly c (Table.mem_values_of_get? hGet)
  have hNew : (built storedCapture).1.methods.length ≤ (⟨4⟩ : MethodId).index := by decide +kernel
  obtain ⟨method, hOrigin, hMoves⟩ := BinderConfig.run_redirects_displays hRun (by decide +kernel)
    (by decide +kernel) (by decide +kernel) (by decide +kernel) (by decide +kernel) hNew
    ⟨_, _, hBound, rfl⟩ fun _ _ hGet _ => congrArg Binding.mode (hSame hGet)
  obtain rfl : method = ⟨3⟩ := congrArg Binding.method (hSame hOrigin)
  have hContext : ((built storedCapture).2.context ⟨0⟩).holder = ⟨1⟩ ∧
      ((built storedCapture).2.context ⟨0⟩).generated = ⟨2⟩ := by decide +kernel
  rw [hContext.1, hContext.2] at hMoves
  have hFree : ¬ t.report.bindings.StandsIn ⟨3⟩ := fun ⟨_, c, hGet, hStands⟩ => by
    rw [hSame hGet] at hStands
    cases hStands
  obtain ⟨m', n, hMethod', hStands, -, -, hCode⟩ :=
    hMoves hFree (by decide +kernel) (by decide +kernel)
  obtain rfl := Option.some_inj.mp (hMethod.symm.trans hMethod')
  obtain ⟨b', hBody', -, hDisplays⟩ := hCode b hBody
  have hConstructs : ∃ m ∈ (built storedCapture).1.method? ⟨2⟩,
      ∃ d ∈ (built storedCapture).1.type? ⟨3⟩, m.owner = ⟨3⟩ ∧ d.isDisplayClass = true ∧
        d.declaring = some ⟨1⟩ := by decide +kernel
  obtain ⟨constructor, hConstructor, d, hDisplay, hOwner, hKind⟩ := hConstructs
  obtain ⟨clone, ⟨hMade, -⟩, hAvoids⟩ :=
    hDisplays ⟨3⟩ ⟨_, hMem, rfl, constructor, d, hConstructor, hOwner, hDisplay, hKind⟩
  exact ⟨t, hRun, clone, b', Program.body_ok.mpr ⟨n, hStands, hBody'⟩, hMade, hAvoids⟩

/-- But its local, which receives the copy, has the type of the display class. -/
theorem storedCapture_mistyped :
    ∃ t, (default : BinderConfig).run (built storedCapture).1 (built storedCapture).2 = .ok t ∧
      t.report.bindings.get? ⟨3⟩ = some ⟨⟨3⟩, ⟨4⟩, .instanceConverted ⟨0⟩⟩ ∧
      ∃ copied ∈ t.program.method? ⟨5⟩, copied.owner = ⟨4⟩ ∧
        ∃ m ∈ t.program.method? ⟨4⟩, ∃ b ∈ m.body, b.locals = [.named ⟨3⟩] ∧
          [⟨⟨0⟩, .newobj, .method ⟨5⟩⟩, ⟨⟨1⟩, .stloc, .localVar 0⟩] <+: b.instructions := by
  have hCheck : Outcome.yields
      ((default : BinderConfig).run (built storedCapture).1 (built storedCapture).2)
      (fun t => decide (t.report.bindings.get? ⟨3⟩ = some ⟨⟨3⟩, ⟨4⟩, .instanceConverted ⟨0⟩⟩ ∧
        ∃ copied ∈ t.program.method? ⟨5⟩, copied.owner = ⟨4⟩ ∧
          ∃ m ∈ t.program.method? ⟨4⟩, ∃ b ∈ m.body, b.locals = [.named ⟨3⟩] ∧
            [⟨⟨0⟩, .newobj, .method ⟨5⟩⟩, ⟨⟨1⟩, .stloc, .localVar 0⟩] <+: b.instructions))
      = true := by decide +kernel
  obtain ⟨t, hRun, hCheck⟩ := Outcome.ok_of_yields hCheck
  exact ⟨t, hRun, of_decide_eq_true hCheck⟩

end Examples

end ContextBinding
