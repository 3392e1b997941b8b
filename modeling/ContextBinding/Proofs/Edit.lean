import ContextBinding.Plan.Basic
import ContextBinding.Proofs.Steady

/-! What the elementary changes of a program touch. Each of them grows the
 program, and changes the code of no method but the one it names. -/

namespace ContextBinding

/-- The program that an edit makes from nothing, with the plan that it returns. -/
def built (e : Edit ContextPlan) : Program × ContextPlan :=
  match e .empty with
  | .ok plan p => (p, plan)
  | .error _ p => (p, default)

namespace Program

variable {S : MethodId → Prop} {N : TypeId → Prop}

section Lookup

variable {p : Program}

theorem typeDef_ok {id : TypeId} {t : TypeDef} : p.typeDef id = .ok t ↔ p.type? id = some t := by
  unfold typeDef
  cases p.type? id <;> simp

theorem fieldDef_ok {id : FieldId} {f : FieldDef} :
    p.fieldDef id = .ok f ↔ p.field? id = some f := by
  unfold fieldDef
  cases p.field? id <;> simp

theorem methodDef_ok {id : MethodId} {m : MethodDef} :
    p.methodDef id = .ok m ↔ p.method? id = some m := by
  unfold methodDef
  cases p.method? id <;> simp

theorem body_ok {id : MethodId} {b : MethodBody} :
    p.body id = .ok b ↔ ∃ m, p.method? id = some m ∧ m.body = some b := by
  unfold body methodDef
  cases p.method? id with
  | none => simp [bind, Except.bind]
  | some m =>
      cases hBody : m.body with
      | none => simp [bind, Except.bind, hBody, throw, throwThe, MonadExceptOf.throw]
      | some b' => simp [bind, Except.bind, hBody, pure, Except.pure]

end Lookup

section Pure

variable {p : Program}

theorem Numbered.append (h : p.Numbered) {types : List TypeDef} {table : Table SymbolHash MethodId}
    {edits : Nat} {m : MethodDef} (hm : m.Numbered) :
    ({ p with types, methodTable := table, edits, methods := p.methods ++ [m] } : Program).Numbered := by
  intro m' hMem
  rcases List.mem_append.mp hMem with hOld | hNew
  · exact h m' hOld
  · exact List.mem_singleton.mp hNew ▸ hm

theorem Grows.touch : p.Grows p.touch := { Grows.refl p with edits := Nat.le_succ _ }

/-- A change of one type that adds new methods only lists what was listed. -/
theorem Lists.of_modify {q : Program} {types : List TypeDef} {owner type : TypeId}
    {f : TypeDef → TypeDef} {id : MethodId} {first : Nat}
    (hTypes : q.types = types.modify owner.index f)
    (hf : ∀ t, ∀ id ∈ (f t).methods, id ∈ t.methods ∨ first ≤ id.index)
    (h : q.Lists type id) (hOld : id.index < first) :
    ∃ t, types[type.index]? = some t ∧ id ∈ t.methods := by
  obtain ⟨t, hType, hMem⟩ := h
  rw [type?, hTypes, List.getElem?_modify] at hType
  obtain ⟨t₀, hBefore, hSame⟩ := Option.map_eq_some_iff.mp hType
  refine ⟨t₀, hBefore, ?_⟩
  split at hSame
  · exact (hf t₀ id (hSame ▸ hMem)).resolve_right (Nat.not_le.mpr hOld)
  · exact hSame ▸ hMem

/-- A new type without methods lists nothing. -/
theorem Lists.of_append {new : TypeDef} {type : TypeId} {id : MethodId}
    (h : ∃ t, (p.types ++ [new])[type.index]? = some t ∧ id ∈ t.methods)
    (hNone : new.methods = []) : p.Lists type id := by
  obtain ⟨t, hType, hMem⟩ := h
  rw [List.getElem?_append] at hType
  split at hType
  · exact ⟨t, hType, hMem⟩
  · obtain rfl : new = t := by
      have hFound := List.mem_of_getElem? hType
      exact (List.mem_singleton.mp hFound).symm
    rw [hNone] at hMem
    exact (List.not_mem_nil hMem).elim

/-- A change of one type that lists no new methods lists what was listed. -/
theorem Lists.of_fewer {q : Program} {types : List TypeDef} {owner type : TypeId}
    {f : TypeDef → TypeDef} {id : MethodId} (h : q.Lists type id)
    (hTypes : q.types = types.modify owner.index f) (hf : ∀ t, (f t).methods ⊆ t.methods) :
    ∃ t, types[type.index]? = some t ∧ id ∈ t.methods :=
  Lists.of_modify hTypes (fun t _ hMem => Or.inl (hf t hMem)) h (Nat.lt_succ_self _)

/-- A program whose methods are the same and whose types list no more keeps its lists
sound. -/
theorem Owned.of_methods {q : Program} (hMethods : q.methods = p.methods)
    (hLists : ∀ type id, q.Lists type id → p.Lists type id) (h : p.Owned) : q.Owned :=
  h.of_lists hLists fun _ m hMethod => ⟨m, by rwa [method?, hMethods], rfl⟩

/-- A change of one type that lists no other methods. -/
theorem Grows.modifyTypes {id : TypeId} {f : TypeDef → TypeDef} (hf : ∀ t : TypeDef, t.Persists (f t))
    (hListed : ∀ t, (f t).methods ⊆ t.methods) :
    p.Grows { p with types := p.types.modify id.index f } :=
  { Grows.refl p with
    types := .modify _ _ fun t _ => hf t
    listed := fun _ _ h _ => Lists.of_fewer h rfl hListed
    owned := .of_methods rfl fun _ _ h => Lists.of_fewer h rfl hListed }

/-- A method that is listed with its owner, and nowhere else. -/
theorem Owned.append {q : Program} {m : MethodDef} (h : p.Owned)
    (hTypes : q.types = p.types.modify m.owner.index fun t =>
      { t with methods := t.methods ++ [⟨p.methods.length⟩] })
    (hMethods : q.methods = p.methods ++ [m]) : q.Owned := by
  intro type id ⟨t, hType, hMem⟩
  have hOld (hListed : p.Lists type id) : ∃ m', q.method? id = some m' ∧ m'.owner = type := by
    obtain ⟨m', hMethod, hOwner⟩ := h type id hListed
    have hBound : id.index < p.methods.length := (List.getElem?_eq_some_iff.mp hMethod).1
    refine ⟨m', ?_, hOwner⟩
    rw [method?, hMethods, List.getElem?_append_left hBound]
    exact hMethod
  rw [type?, hTypes, List.getElem?_modify] at hType
  obtain ⟨t₀, hBefore, hSame⟩ := Option.map_eq_some_iff.mp hType
  split at hSame
  · rename_i hOwner
    subst hSame
    rcases List.mem_append.mp hMem with hMem | hNew
    · exact hOld ⟨t₀, hBefore, hMem⟩
    · obtain rfl := List.mem_singleton.mp hNew
      refine ⟨m, ?_, ?_⟩
      · rw [method?, hMethods, List.getElem?_concat_length]
      · cases type
        exact congrArg TypeId.mk hOwner
  · exact hOld ⟨t₀, hBefore, hSame ▸ hMem⟩

/-- A change of one method leaves code numbered if that of the method is. -/
theorem Numbered.modify {id : MethodId} {f : MethodDef → MethodDef} (h : p.Numbered)
    (hf : ∀ m, p.method? id = some m → (f m).Numbered) :
    ({ p with methods := p.methods.modify id.index f } : Program).Numbered := by
  intro m' hMem
  obtain ⟨i, hi⟩ := List.mem_iff_getElem?.mp hMem
  simp only [List.getElem?_modify] at hi
  obtain ⟨m, hMethod, hSame⟩ := Option.map_eq_some_iff.mp hi
  split at hSame
  · rename_i hIndex
    subst hIndex
    exact hSame ▸ hf m hMethod
  · exact hSame ▸ h m (List.mem_of_getElem? hMethod)

/-- A change of one method is confined to it, or to nothing if its code stays. -/
theorem Confined.modifyMethods {id : MethodId} {f : MethodDef → MethodDef}
    (hf : ∀ m : MethodDef, p.method? id = some m → m.Persists (f m))
    (hBody : S id ∨ ∀ m, (f m).body = m.body)
    (hNumbered : p.Numbered → ∀ m, p.method? id = some m → (f m).Numbered) :
    Confined S N p { p with methods := p.methods.modify id.index f } := by
  have hGrows : p.Grows { p with methods := p.methods.modify id.index f } :=
    { Grows.refl p with
      methods := .modify _ _ hf
      numbered := fun h => h.modify (hNumbered h)
      owned := fun h => by
        refine h.of_lists (fun _ _ h => h) fun other m hMethod => ?_
        refine ⟨_, (method?_modify p f id other).trans (congrArg _ hMethod), ?_⟩
        dsimp only
        split
        · rename_i hSame
          exact (hf m (hSame ▸ hMethod)).owner
        · rfl }
  refine ⟨hGrows, fun other m' h => ?_⟩
  rw [method?_modify] at h
  obtain ⟨m, hMethod, rfl⟩ := Option.map_eq_some_iff.mp h
  split
  · rename_i hId
    subst hId
    exact Or.inl ⟨m, hMethod, hBody.symm.imp_left fun h => h m⟩
  · exact Or.inl ⟨m, hMethod, Or.inl rfl⟩

end Pure

theorem keeps_modifyType {id : TypeId} {f : TypeDef → TypeDef}
    (hf : ∀ t : TypeDef, t.Persists (f t)) (hListed : ∀ t, (f t).methods ⊆ t.methods) :
    Keeps (Confined S N) (modifyType id f) := by
  refine Keeps.bind (Keeps.modify fun p => .of_methods .touch rfl) fun _ => ?_
  refine Keeps.bind Keeps.get fun p => Keeps.bind (Keeps.lift _) fun _ => ?_
  exact Keeps.modify fun p => .of_methods (.modifyTypes hf hListed) rfl

theorem keeps_modifyField {id : FieldId} {f : FieldDef → FieldDef}
    (hf : ∀ d : FieldDef, d.Persists (f d)) : Keeps (Rewrites S N) (modifyField id f) := by
  refine Keeps.bind (Keeps.modify fun p => ⟨.of_methods .touch rfl, .touch⟩) fun _ => ?_
  refine Keeps.bind Keeps.get fun p => Keeps.bind (Keeps.lift _) fun _ => ?_
  apply Keeps.modify
  intro p
  exact ⟨.of_methods { Grows.refl p with fields := .modify _ _ fun d _ => hf d } rfl,
    .of_same rfl rfl⟩

/-- Changing what is no code is confined to nothing. -/
theorem keeps_modifyMethod {id : MethodId} {f : MethodDef → MethodDef}
    (hf : ∀ m : MethodDef, m.Persists (f m)) (hBody : ∀ m, (f m).body = m.body) :
    Keeps (Confined S N) (modifyMethod id f) := by
  refine Keeps.bind (Keeps.modify fun p => .of_methods .touch rfl) fun _ => ?_
  refine Keeps.bind Keeps.get fun p => Keeps.bind (Keeps.lift _) fun _ => ?_
  apply Keeps.modify
  intro p
  apply Confined.modifyMethods (fun m _ => hf m) (Or.inr hBody)
  intro h m hMethod b hCode
  exact h m (List.mem_of_getElem? hMethod) b (hBody m ▸ hCode)

theorem steady_modifyType {l : License} {id : TypeId} {f : TypeDef → TypeDef}
    (hf : ∀ first gone, ∀ t : TypeDef, t.Steady l first gone (f t)) :
    Keeps (Steady l) (modifyType id f) := by
  refine Keeps.bind (Keeps.modify fun p => .touch) fun _ => ?_
  refine Keeps.bind Keeps.get fun p => Keeps.bind (Keeps.lift _) fun _ => ?_
  exact Keeps.modify fun p => .modifyTypes fun t => hf _ _ t

theorem steady_modifyMethod {l : License} {id : MethodId} {f : MethodDef → MethodDef}
    (hf : ∀ m : MethodDef, m.Steady l id (f m)) : Keeps (Steady l) (modifyMethod id f) := by
  refine Keeps.bind (Keeps.modify fun p => .touch) fun _ => ?_
  refine Keeps.bind Keeps.get fun p => Keeps.bind (Keeps.lift _) fun _ => ?_
  exact Keeps.modify fun p => .modifyMethods fun m _ => hf m

/-- Giving code to a method without any is confined to it. -/
theorem setBody_rewrites {id : MethodId} {b : MethodBody} {p q : Program} {u : Unit} (hS : S id)
    (hNone : ∀ m, p.method? id = some m → m.body = none) (hNumbered : b.Numbered)
    (h : setBody id b p = .ok u q) : Rewrites S N p q := by
  have hSteady : p.Steady .none q := by
    refine steady_modifyMethod (fun m => ?_) h
    exact ⟨Or.inr rfl, Or.inr rfl, Or.inr rfl, rfl, Or.inl, fun h => h⟩
  unfold setBody modifyMethod at h
  simp only [Step.bind_ok, Step.get_ok, Step.lift_ok, Step.modify_ok] at h
  obtain ⟨_, _, rfl, _, _, ⟨rfl, rfl⟩, m, _, ⟨-, rfl⟩, rfl⟩ := h
  have hTouch : Confined S N p p.touch := .of_methods .touch rfl
  refine ⟨hTouch.trans ?_, hSteady⟩
  apply Confined.modifyMethods _ (Or.inl hS)
  · intro _ m _ b' hCode
    exact Option.some_inj.mp hCode ▸ hNumbered
  · intro m hMethod
    apply MethodDef.Persists.putBody m b
    intro b' hBody
    rw [hNone m hMethod] at hBody
    cases hBody

/-- Code that is put in is that of the method from then on. -/
theorem body_putBody {id : MethodId} {b : MethodBody} {p : Program} {m : MethodDef}
    (hMethod : p.method? id = some m) : (p.putBody id b).body id = .ok b := by
  refine body_ok.mpr ⟨{ m with body := some b }, ?_, rfl⟩
  rw [putBody, method?_modify, hMethod]
  simp

/-- What an edit of code does, where it succeeds. -/
theorem editBody_ok {α : Type} {id : MethodId} {e : BodyEdit α} {a : α} {p q : Program}
    (h : editBody id e p = .ok a q) :
    ∃ m b b', p.method? id = some m ∧ m.body = some b ∧ e b = .ok a b' ∧
      q = p.touch.putBody id b' := by
  unfold editBody at h
  simp only [Step.bind_ok, Step.get_ok, Step.lift_ok, Step.modify_ok] at h
  obtain ⟨_, _, rfl, _, _, ⟨rfl, rfl⟩, b, _, ⟨hBody, rfl⟩, h⟩ := h
  obtain ⟨m, hMethod, hCode⟩ := body_ok.mp hBody
  cases hEdit : e b with
  | ok a' b' =>
      simp only [hEdit, Step.bind_ok, Step.modify_ok, Step.pure_ok] at h
      obtain ⟨_, _, rfl, rfl, rfl⟩ := h
      exact ⟨m, b, b', hMethod, hCode, hEdit, rfl⟩
  | error e' b' =>
      simp only [hEdit, Step.bind_ok, Step.throw_ok, and_false, exists_false] at h

theorem editBody_of_ok {α : Type} {id : MethodId} {e : BodyEdit α} {a : α} {p : Program}
    {m : MethodDef} {b b' : MethodBody} (hMethod : p.method? id = some m) (hCode : m.body = some b)
    (hEdit : e b = .ok a b') : editBody id e p = .ok a (p.touch.putBody id b') := by
  have hTouched : p.touch.body id = .ok b := body_ok.mpr ⟨m, hMethod, hCode⟩
  unfold editBody
  rw [Step.bind_of_ok (Step.modify_ok (a := ⟨⟩).mpr rfl), Step.bind_of_ok (Step.get_ok.mpr ⟨rfl, rfl⟩),
    Step.bind_of_ok (Step.lift_ok.mpr ⟨hTouched, rfl⟩)]
  simp only [hEdit]
  rfl

/-- Editing the code of a method is confined to it. -/
theorem keeps_editBody {α : Type} {id : MethodId} {e : BodyEdit α} (hS : S id)
    (he : Keeps MethodBody.Revises e) : Keeps (Rewrites S N) (editBody id e) := by
  intro p a q h
  obtain ⟨m, b, b', hMethod, hCode, hEdit, rfl⟩ := editBody_ok h
  have hTouch : Confined S N p p.touch := .of_methods .touch rfl
  have hSteady : p.Steady .none (p.touch.putBody id b') := by
    refine Steady.touch.trans (.modifyMethods fun m _ => ?_)
    exact ⟨Or.inr rfl, Or.inr rfl, Or.inr rfl, rfl, Or.inl, fun h => h⟩
  refine ⟨hTouch.trans ?_, hSteady⟩
  apply Confined.modifyMethods _ (Or.inl hS)
  · intro hNumbered _ _ b'' hSame
    have hBefore : b.Numbered := hNumbered m (List.mem_of_getElem? hMethod) b hCode
    exact Option.some_inj.mp hSame ▸ (he hEdit hBefore).1
  · intro m' hMethod'
    obtain rfl : m = m' := Option.some_inj.mp (hMethod.symm.trans hMethod')
    apply MethodDef.Persists.putBody m b'
    intro b₀ hBody
    obtain rfl : b = b₀ := Option.some_inj.mp (hCode.symm.trans hBody)
    exact he hEdit

theorem keeps_addProperty {owner : TypeId} {property : PropertyDef} :
    Keeps (Rewrites S N) (addProperty owner property) := by
  intro p u q h
  have hSteady : p.Steady .none q := by
    refine steady_modifyType (fun first gone t => ?_) h
    exact .of_added rfl rfl (.append _ _) (List.append_nil _).symm fun _ h =>
      (List.not_mem_nil h).elim
  refine ⟨?_, hSteady⟩
  refine keeps_modifyType (fun t => ?_) (fun t => ?_) h
  · exact ⟨rfl, rfl, rfl⟩
  · exact fun _ h => h

/-- Registering a type appends an entry and leaves fields and methods alone. -/
theorem addType_ok {nameSpace name : String} {declaring : Option TypeId}
    {flags : FlagSet TypeFlag} {p q : Program} {id : TypeId}
    (h : addType nameSpace name declaring flags p = .ok id q) :
    id = ⟨p.types.length⟩ ∧ p.Grows q ∧ q.fields = p.fields ∧ q.methods = p.methods ∧
      ∃ t, q.type? id = some t ∧ t.flags = flags := by
  unfold addType at h
  simp only [Step.bind_ok, Step.get_ok, Step.lift_ok] at h
  obtain ⟨_, _, ⟨rfl, rfl⟩, fullName, _, ⟨-, rfl⟩, h⟩ := h
  split at h
  · simp [Step.bind_ok, Step.throw_ok] at h
  · simp only [Step.bind_ok, Step.set_ok, Step.pure_ok] at h
    obtain ⟨_, _, rfl, rfl, rfl⟩ := h
    cases declaring with
    | none =>
        refine ⟨rfl, ⟨rfl, Nat.le_succ _, .append _ _, .refl _, .refl _, fun h => h, ?_, ?_⟩, rfl, rfl,
          ?_⟩
        · exact fun type id h _ => Lists.of_append h rfl
        · exact .of_methods rfl fun type id h => Lists.of_append h rfl
        · simp [type?]
    | some outer =>
        refine ⟨rfl, ⟨rfl, Nat.le_succ _, ?_, .refl _, .refl _, fun h => h, ?_, ?_⟩, rfl, rfl, ?_⟩
        · exact .trans (.append _ _) (.modify _ _ fun _ _ => ⟨rfl, rfl, rfl⟩)
        · exact fun type id h _ => Lists.of_append (Lists.of_fewer h rfl fun _ _ h => h) rfl
        · refine .of_methods rfl fun type id h => ?_
          exact Lists.of_append (Lists.of_fewer h rfl fun _ _ h => h) rfl
        · simp only [type?, List.getElem?_modify, List.getElem?_concat_length, Option.map_eq_map,
            Option.map_some]
          refine ⟨_, rfl, ?_⟩
          split <;> rfl

theorem addType_steady {l : License} {nameSpace name : String} {declaring : Option TypeId}
    {flags : FlagSet TypeFlag} {p q : Program} {id : TypeId}
    (h : addType nameSpace name declaring flags p = .ok id q) : p.Steady l q := by
  unfold addType at h
  simp only [Step.bind_ok, Step.get_ok, Step.lift_ok] at h
  obtain ⟨_, _, ⟨rfl, rfl⟩, fullName, _, ⟨-, rfl⟩, h⟩ := h
  split at h
  · simp [Step.bind_ok, Step.throw_ok] at h
  · simp only [Step.bind_ok, Step.set_ok, Step.pure_ok] at h
    obtain ⟨_, _, rfl, rfl, rfl⟩ := h
    refine .of_methods rfl ?_
    cases declaring with
    | none => exact .append _ _
    | some outer =>
        refine .trans (.append _ _) (.modify _ _ fun t _ => ?_)
        exact .of_added rfl rfl (.refl _) (List.append_nil _).symm fun _ h =>
          (List.not_mem_nil h).elim

/-- Registering a field appends an entry and leaves methods alone. -/
theorem addField_ok {owner : TypeId} {name : String} {type : TypeRef} {flags : FlagSet FieldFlag}
    {p q : Program} {id : FieldId} (h : addField owner name type flags p = .ok id q) :
    id = ⟨p.fields.length⟩ ∧ p.Grows q ∧ p.edits < q.edits ∧ q.methods = p.methods ∧
      q.field? id = some ⟨owner, name, type, flags⟩ := by
  unfold addField at h
  simp only [Step.bind_ok, Step.get_ok, Step.lift_ok] at h
  obtain ⟨_, _, ⟨rfl, rfl⟩, hash, _, ⟨-, rfl⟩, h⟩ := h
  split at h
  · simp [Step.bind_ok, Step.throw_ok] at h
  · simp only [Step.bind_ok, Step.set_ok, Step.pure_ok] at h
    obtain ⟨_, _, rfl, rfl, rfl⟩ := h
    refine ⟨rfl, ⟨rfl, Nat.le_succ _, ?_, .append _ _, .refl _, fun h => h, ?_, ?_⟩,
      Nat.lt_succ_self _, rfl, by simp [field?]⟩
    · exact .modify _ _ fun _ _ => ⟨rfl, rfl, rfl⟩
    · exact fun type id h _ => Lists.of_fewer h rfl fun _ _ h => h
    · exact .of_methods rfl fun type id h => Lists.of_fewer h rfl fun _ _ h => h

theorem addField_steady {l : License} {owner : TypeId} {name : String} {type : TypeRef}
    {flags : FlagSet FieldFlag} {p q : Program} {id : FieldId}
    (h : addField owner name type flags p = .ok id q) : p.Steady l q := by
  unfold addField at h
  simp only [Step.bind_ok, Step.get_ok, Step.lift_ok] at h
  obtain ⟨_, _, ⟨rfl, rfl⟩, hash, _, ⟨-, rfl⟩, h⟩ := h
  split at h
  · simp [Step.bind_ok, Step.throw_ok] at h
  · simp only [Step.bind_ok, Step.set_ok, Step.pure_ok] at h
    obtain ⟨_, _, rfl, rfl, rfl⟩ := h
    refine .of_methods rfl (.modify _ _ fun t _ => ?_)
    exact .of_added rfl rfl (.refl _) (List.append_nil _).symm fun _ h => (List.not_mem_nil h).elim

/-- Registering a method appends an entry without code. -/
theorem addMethod_ok {owner : TypeId} {name : String} {params : List Param} {result : TypeRef}
    {flags : FlagSet MethodFlag} {p q : Program} {id : MethodId}
    (h : addMethod owner name params result flags p = .ok id q) :
    id = ⟨p.methods.length⟩ ∧ p.Grows q ∧ q.fields = p.fields ∧
      q.methods = p.methods ++ [⟨owner, name, params, result, flags, [], none⟩] := by
  unfold addMethod at h
  simp only [Step.bind_ok, Step.get_ok, Step.lift_ok] at h
  obtain ⟨_, _, ⟨rfl, rfl⟩, hash, _, ⟨-, rfl⟩, h⟩ := h
  split at h
  · simp [Step.bind_ok, Step.throw_ok] at h
  · simp only [Step.bind_ok, Step.set_ok, Step.pure_ok] at h
    obtain ⟨_, _, rfl, rfl, rfl⟩ := h
    refine ⟨rfl, ⟨rfl, Nat.le_succ _, ?_, .refl _, .append _ _, fun h => ?_, ?_, fun h => ?_⟩, rfl, rfl⟩
    · exact .modify _ _ fun _ _ => ⟨rfl, rfl, rfl⟩
    · exact h.append fun _ hBody => nomatch hBody
    · intro type id h hOld
      refine Lists.of_modify rfl ?_ h hOld
      intro t id hMem
      rcases List.mem_append.mp hMem with hMem | hNew
      · exact Or.inl hMem
      · exact Or.inr (List.mem_singleton.mp hNew ▸ Nat.le_refl _)
    · exact h.append rfl rfl

theorem addMethod_steady {l : License} {owner : TypeId} {name : String} {params : List Param}
    {result : TypeRef} {flags : FlagSet MethodFlag} {p q : Program} {id : MethodId}
    (h : addMethod owner name params result flags p = .ok id q) : p.Steady l q := by
  unfold addMethod at h
  simp only [Step.bind_ok, Step.get_ok, Step.lift_ok] at h
  obtain ⟨_, _, ⟨rfl, rfl⟩, hash, _, ⟨-, rfl⟩, h⟩ := h
  split at h
  · simp [Step.bind_ok, Step.throw_ok] at h
  · simp only [Step.bind_ok, Step.set_ok, Step.pure_ok] at h
    obtain ⟨_, _, rfl, rfl, rfl⟩ := h
    exact .appendMethod rfl rfl

/-- A method that is registered is listed with its owner. -/
theorem addMethod_lists {owner : TypeId} {name : String} {params : List Param} {result : TypeRef}
    {flags : FlagSet MethodFlag} {p q : Program} {id : MethodId}
    (h : addMethod owner name params result flags p = .ok id q) : q.Lists owner id := by
  unfold addMethod at h
  simp only [Step.bind_ok, Step.get_ok, Step.lift_ok] at h
  obtain ⟨_, _, ⟨rfl, rfl⟩, hash, _, ⟨hHash, rfl⟩, h⟩ := h
  split at h
  · simp [Step.bind_ok, Step.throw_ok] at h
  · simp only [Step.bind_ok, Step.set_ok, Step.pure_ok] at h
    obtain ⟨_, _, rfl, rfl, rfl⟩ := h
    obtain ⟨_, hType, -⟩ := Outcome.bind_ok.mp hHash
    obtain ⟨t, hOwner, -⟩ := Outcome.bind_ok.mp hType
    have hOwner : p.types[owner.index]? = some t := typeDef_ok.mp hOwner
    refine ⟨{ t with methods := t.methods ++ [⟨p.methods.length⟩] }, ?_, by simp⟩
    simp [type?, hOwner]

/-- Retiring a method leaves all code where it is. -/
theorem keeps_retireMethod {id : MethodId} : Keeps (Confined S N) (retireMethod id) := by
  intro p _ q h
  unfold retireMethod at h
  simp only [Step.bind_ok, Step.get_ok, Step.lift_ok] at h
  obtain ⟨_, _, ⟨rfl, rfl⟩, m, _, ⟨-, rfl⟩, hash, _, ⟨-, rfl⟩, h⟩ := h
  have hRest : Keeps (Confined S N) (do
      modifyType m.owner fun t => { t with methods := t.methods.filter (· != id) }
      modifyMethod id fun m => { m with flags := m.flags.insert .retired }) :=
    Keeps.bind (keeps_modifyType (fun _ => ⟨rfl, rfl, rfl⟩) fun _ => List.filter_subset_self _)
      fun _ => keeps_modifyMethod (fun m => .insertMark m rfl) fun _ => rfl
  split at h
  · obtain ⟨_, u, hSet, h⟩ := Step.bind_ok.mp h
    obtain rfl := Step.set_ok.mp hSet
    have hTable : Confined S N p { p with methodTable := p.methodTable.erase hash } :=
      .of_methods ⟨rfl, le_refl _, .refl _, .refl _, .refl _, fun h => h, fun _ _ h _ => h, fun h => h⟩ rfl
    exact hTable.trans (hRest h)
  · exact hRest h

/-- A method that is retired is taken off its owner, and nothing else is. -/
theorem retireMethod_steady {l : License} {id : MethodId} {p q : Program} {u : Unit}
    (hDropped : l.dropped id) (h : retireMethod id p = .ok u q) : p.Steady l q := by
  unfold retireMethod at h
  simp only [Step.bind_ok, Step.get_ok, Step.lift_ok] at h
  obtain ⟨_, _, ⟨rfl, rfl⟩, m, _, ⟨-, rfl⟩, hash, _, ⟨-, rfl⟩, h⟩ := h
  have hEnd (p₁ : Program) (hTypes : p₁.types = p.types) (hMethods : p₁.methods = p.methods)
      (h : (do
        modifyType m.owner fun t => { t with methods := t.methods.filter (· != id) }
        modifyMethod id fun m => { m with flags := m.flags.insert .retired }) p₁ = .ok u q) :
      p.Steady l q := by
    unfold modifyType modifyMethod at h
    simp only [Step.bind_ok, Step.get_ok, Step.lift_ok, Step.modify_ok] at h
    obtain ⟨_, _, ⟨_, _, rfl, _, _, ⟨rfl, rfl⟩, t, _, ⟨-, rfl⟩, rfl⟩, _, _, rfl, _, _, ⟨rfl, rfl⟩,
      m', _, ⟨hMethod, rfl⟩, rfl⟩ := h
    have hThere : p.method? id = some m' := by
      have hMethod := methodDef_ok.mp hMethod
      rwa [method?, ← hMethods]
    have hRetired (m : MethodDef) :
        ({ m with flags := m.flags.insert .retired } : MethodDef).isRetired = true := by
      simp [MethodDef.isRetired, FlagSet.has_insert]
    have hStep : p.Steady l { p with
        methods := p.methods.modify id.index fun m =>
          { m with flags := m.flags.insert .retired } } := by
      refine .modifyMethods fun m _ => ⟨Or.inr rfl, Or.inl (Or.inr hDropped), Or.inr ?_, ?_,
        fun _ => Or.inr hDropped, fun _ => hRetired m⟩
      · have hBit : Flag.bit MethodFlag.retired ≠ Flag.bit MethodFlag.specialName := by decide
        simp [MethodDef.isSpecialName, FlagSet.has_insert, hBit]
      · have hBit : Flag.bit MethodFlag.retired ≠ Flag.bit MethodFlag.contextReplacement := by
          decide
        simp [MethodDef.isContextReplacement, FlagSet.has_insert, hBit]
    refine hStep.trans (.of_methods ?_ ?_)
    · exact congrArg (List.modify · id.index _) hMethods
    · change Extends _ p.types (p₁.types.modify m.owner.index _)
      rw [hTypes]
      refine .modify _ _ fun t _ => ⟨rfl, rfl, .refl _, (· != id), [], by simp, by simp, ?_⟩
      intro other _ hOther
      obtain rfl : other = id := by simpa using hOther
      refine ⟨_, ?_, hRetired m'⟩
      have hAfter := (method?_modify p (fun m => { m with flags := m.flags.insert .retired })
        other other).trans (congrArg _ hThere)
      simp only [Option.map_some, if_true] at hAfter
      rw [← hAfter]
      exact congrArg (fun methods => (List.modify methods other.index _)[other.index]?) hMethods
  split at h
  · obtain ⟨_, p₁, hSet, h⟩ := Step.bind_ok.mp h
    obtain rfl := Step.set_ok.mp hSet
    exact hEnd { p with methodTable := p.methodTable.erase hash } rfl rfl h
  · exact hEnd _ rfl rfl h

/-- Retiring a field leaves all code where it is. -/
theorem keeps_retireField {id : FieldId} : Keeps (Rewrites S N) (retireField id) := by
  intro p _ q h
  unfold retireField at h
  simp only [Step.bind_ok, Step.get_ok, Step.lift_ok] at h
  obtain ⟨_, _, ⟨rfl, rfl⟩, f, _, ⟨-, rfl⟩, hash, _, ⟨-, rfl⟩, h⟩ := h
  have hType : Keeps (Rewrites S N)
      (modifyType f.owner fun t => { t with fields := t.fields.filter (· != id) }) := by
    intro p u q h
    have hSteady : p.Steady .none q := by
      refine steady_modifyType (fun first gone t => ?_) h
      exact .of_added rfl rfl (.refl _) (List.append_nil _).symm fun _ h =>
        (List.not_mem_nil h).elim
    refine ⟨?_, hSteady⟩
    refine keeps_modifyType (fun t => ?_) (fun t => ?_) h
    · exact ⟨rfl, rfl, rfl⟩
    · exact fun _ h => h
  have hRest : Keeps (Rewrites S N) (do
      modifyType f.owner fun t => { t with fields := t.fields.filter (· != id) }
      modifyField id fun f => { f with flags := f.flags.insert .retired }) :=
    Keeps.bind hType fun _ => keeps_modifyField fun f => .retire f
  split at h
  · obtain ⟨_, u, hSet, h⟩ := Step.bind_ok.mp h
    obtain rfl := Step.set_ok.mp hSet
    have hTable : Rewrites S N p { p with fieldTable := p.fieldTable.erase hash } :=
      ⟨.of_methods ⟨rfl, le_refl _, .refl _, .refl _, .refl _, fun h => h, fun _ _ h _ => h, fun h => h⟩ rfl,
        .of_same rfl rfl⟩
    exact hTable.trans (hRest h)
  · exact hRest h

end Program

end ContextBinding
