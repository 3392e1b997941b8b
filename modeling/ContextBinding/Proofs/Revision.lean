import ContextBinding.Proofs.History
import ContextBinding.Proofs.Lookup

/-! What the revision of a program tells. It adds the revisions of all code to the number of edits,
so it grows with each change that lets no code fall back to a lower revision. Code that is put in
the place of other code may do that, and then the sum may stay as it was or fall. -/

namespace ContextBinding

/-- The revision of a method's code. A method without code counts as one whose code was never
edited. -/
def MethodDef.codeRevision (m : MethodDef) : Nat := (m.body.map (·.revision)).getD 0

section Sums

/-- A sum grows with the places that are there already, and with new ones. -/
theorem sum_le_of_getElem? {l l' : List Nat}
    (h : ∀ (i : Nat) (a : Nat), l[i]? = some a → ∃ a', l'[i]? = some a' ∧ a ≤ a') : l.sum ≤ l'.sum := by
  induction l generalizing l' with
  | nil => exact Nat.zero_le _
  | cons a l ih =>
      obtain ⟨a', hFirst, hLe⟩ := h 0 a rfl
      cases l' with
      | nil => cases hFirst
      | cons b l' =>
          obtain rfl : b = a' := Option.some_inj.mp hFirst
          have hRest : l.sum ≤ l'.sum := ih fun i c hAt => h (i + 1) c hAt
          rw [List.sum_cons, List.sum_cons]
          omega

/-- A change of one place changes the sum by as much. -/
theorem sum_map_modify {α : Type} {l : List α} {i : Nat} {a : α} (h : l[i]? = some a)
    (f : α → α) (weight : α → Nat) :
    ((l.modify i f).map weight).sum + weight a = (l.map weight).sum + weight (f a) := by
  induction l generalizing i with
  | nil => cases h
  | cons b l ih =>
      cases i with
      | zero =>
          obtain rfl : b = a := Option.some_inj.mp h
          simp only [List.modify_zero_cons, List.map_cons, List.sum_cons]
          omega
      | succ i =>
          have hRest := ih (i := i) h
          simp only [List.modify_succ_cons, List.map_cons, List.sum_cons]
          omega

end Sums

namespace Program

variable {p q r : Program}

theorem revision_eq (p : Program) :
    p.revision = p.edits + (p.methods.map (·.codeRevision)).sum := by
  have hFold (methods : List MethodDef) (total : Nat) :
      methods.foldl (fun total m => total + (m.body.map (·.revision)).getD 0) total
        = total + (methods.map (·.codeRevision)).sum := by
    induction methods generalizing total with
    | nil => rfl
    | cons m methods ih =>
        rw [List.foldl_cons, ih, List.map_cons, List.sum_cons, Nat.add_assoc]
        rfl
  exact hFold p.methods p.edits

/-- No method goes away, and the code of none falls back to a lower revision. -/
def Onward (p q : Program) : Prop :=
  ∀ id m, p.method? id = some m → ∃ m', q.method? id = some m' ∧ m.codeRevision ≤ m'.codeRevision

instance : IsPreorder Program Onward where
  refl _ _ m h := ⟨m, h, Nat.le_refl _⟩
  trans _ _ _ h h' id m hMethod := by
    obtain ⟨m', hMethod', hLe⟩ := h id m hMethod
    obtain ⟨m'', hMethod'', hLe'⟩ := h' id m' hMethod'
    exact ⟨m'', hMethod'', Nat.le_trans hLe hLe'⟩

namespace Onward

theorem of_methods (h : q.methods = p.methods) : p.Onward q := by
  intro id m hMethod
  refine ⟨m, ?_, Nat.le_refl _⟩
  rw [method?, h]
  exact hMethod

theorem of_append {m : MethodDef} (h : q.methods = p.methods ++ [m]) : p.Onward q := by
  intro id m' hMethod
  refine ⟨m', ?_, Nat.le_refl _⟩
  have hBound : id.index < p.methods.length := (List.getElem?_eq_some_iff.mp hMethod).1
  rw [method?, h, List.getElem?_append_left hBound]
  exact hMethod

theorem of_modify {id : MethodId} {f : MethodDef → MethodDef}
    (h : q.methods = p.methods.modify id.index f)
    (hf : ∀ m, p.method? id = some m → m.codeRevision ≤ (f m).codeRevision) : p.Onward q := by
  intro other m hMethod
  have hAt : q.method? other = (p.method? other).map fun m => if id = other then f m else m := by
    rw [method?, h]
    exact method?_modify p f id other
  rw [hMethod] at hAt
  refine ⟨_, hAt, ?_⟩
  dsimp only
  split
  · rename_i hSame
    exact hf m (hSame ▸ hMethod)
  · exact Nat.le_refl _

theorem sum_le (h : p.Onward q) :
    (p.methods.map (·.codeRevision)).sum ≤ (q.methods.map (·.codeRevision)).sum := by
  apply sum_le_of_getElem?
  intro i n hAt
  rw [List.getElem?_map] at hAt
  obtain ⟨m, hMethod, rfl⟩ := Option.map_eq_some_iff.mp hAt
  obtain ⟨m', hMethod', hLe⟩ := h ⟨i⟩ m hMethod
  refine ⟨m'.codeRevision, ?_, hLe⟩
  rw [List.getElem?_map]
  exact congrArg (Option.map _) hMethod'

end Onward

/-- The program is left as it was or gets a higher revision, and no code falls back. -/
structure Counted (p q : Program) : Prop where
  revision : q = p ∨ p.revision < q.revision
  onward : p.Onward q

instance : IsPreorder Program Counted where
  refl p := ⟨Or.inl rfl, refl p⟩
  trans p q r h h' := by
    refine ⟨?_, IsTrans.trans _ _ _ h.onward h'.onward⟩
    rcases h'.revision with rfl | hSecond
    · exact h.revision
    · right
      rcases h.revision with rfl | hFirst
      · exact hSecond
      · exact Nat.lt_trans hFirst hSecond

/-- What is counted as an edit is a change of the revision, if no code falls back. -/
theorem Counted.of_edits (hEdits : p.edits < q.edits) (hOnward : p.Onward q) : p.Counted q := by
  refine ⟨Or.inr ?_, hOnward⟩
  have hSum := hOnward.sum_le
  rw [revision_eq, revision_eq]
  omega

theorem Counted.touch (p : Program) : p.Counted p.touch :=
  .of_edits (Nat.lt_succ_self _) (.of_methods rfl)

/-- What every end of a step is related to, however far the run has come. -/
theorem upholds_counted {α : Type} {x : Edit α} (h : ∀ p q, Ends x p q → p.Counted q) :
    Upholds p.Counted x :=
  fun q r hBefore hEnds => IsTrans.trans p q r hBefore (h q r hEnds)

section Accessors

theorem modifyType_ends {id : TypeId} {f : TypeDef → TypeDef} (h : Ends (modifyType id f) p q) :
    q = p.touch ∨ q = { p.touch with types := p.types.modify id.index f } := by
  have h := Ends.of_get_bind h.of_modify_bind
  rcases h.of_lift_bind with hSame | ⟨t, -, h⟩
  · exact Or.inl hSame
  · exact Or.inr h.modify

theorem modifyField_ends {id : FieldId} {f : FieldDef → FieldDef} (h : Ends (modifyField id f) p q) :
    q = p.touch ∨ q = { p.touch with fields := p.fields.modify id.index f } := by
  have h := Ends.of_get_bind h.of_modify_bind
  rcases h.of_lift_bind with hSame | ⟨d, -, h⟩
  · exact Or.inl hSame
  · exact Or.inr h.modify

theorem modifyMethod_ends {id : MethodId} {f : MethodDef → MethodDef}
    (h : Ends (modifyMethod id f) p q) :
    q = p.touch ∨ ∃ m, p.method? id = some m ∧
      q = { p.touch with methods := p.methods.modify id.index f } := by
  have h := Ends.of_get_bind h.of_modify_bind
  rcases h.of_lift_bind with hSame | ⟨m, hMethod, h⟩
  · exact Or.inl hSame
  · exact Or.inr ⟨m, methodDef_ok.mp hMethod, h.modify⟩

theorem counted_modifyType {id : TypeId} {f : TypeDef → TypeDef} :
    Upholds p.Counted (modifyType id f) := by
  apply upholds_counted
  intro p q h
  rcases modifyType_ends h with rfl | rfl
  · exact .touch p
  · exact .of_edits (Nat.lt_succ_self _) (.of_methods rfl)

theorem counted_modifyField {id : FieldId} {f : FieldDef → FieldDef} :
    Upholds p.Counted (modifyField id f) := by
  apply upholds_counted
  intro p q h
  rcases modifyField_ends h with rfl | rfl
  · exact .touch p
  · exact .of_edits (Nat.lt_succ_self _) (.of_methods rfl)

/-- A method that is opened for a change raises the revision just if its code does not fall back. -/
theorem modifyMethod_revision {id : MethodId} {f : MethodDef → MethodDef}
    (h : Ends (modifyMethod id f) p q) : p.revision < q.revision ↔ p.Onward q := by
  rcases modifyMethod_ends h with rfl | ⟨m, hMethod, rfl⟩
  · exact iff_of_true (by rw [revision_eq, revision_eq]; simp [touch]) (.of_methods rfl)
  · constructor
    · intro hRaised
      apply Onward.of_modify rfl
      intro m' hMethod'
      obtain rfl : m = m' := Option.some_inj.mp (hMethod.symm.trans hMethod')
      have hSum := sum_map_modify hMethod f (·.codeRevision)
      rw [revision_eq, revision_eq] at hRaised
      simp only [touch] at hRaised
      omega
    · intro hOnward
      have hSum := hOnward.sum_le
      rw [revision_eq, revision_eq]
      simp only [touch] at hSum ⊢
      omega

end Accessors

section Code

/-- Editing code ends with a look for it, or with what the edit made of it. -/
theorem editBody_ends {α : Type} {id : MethodId} {e : BodyEdit α} (h : Ends (editBody id e) p q) :
    q = p.touch ∨ ∃ m b b', p.method? id = some m ∧ m.body = some b ∧ Ends e b b' ∧
      q = p.touch.putBody id b' := by
  have h := Ends.of_get_bind h.of_modify_bind
  rcases h.of_lift_bind with hSame | ⟨b, hBody, h⟩
  · exact Or.inl hSame
  obtain ⟨m, hMethod, hCode⟩ := body_ok.mp hBody
  refine Or.inr ?_
  split at h
  · rename_i a b' hEdit
    exact ⟨m, b, b', hMethod, hCode, Or.inl ⟨a, hEdit⟩, h.of_modify_bind.pure⟩
  · rename_i e' b' hEdit
    exact ⟨m, b, b', hMethod, hCode, Or.inr ⟨e', hEdit⟩, h.of_modify_bind.throw⟩

/-- An edit of code is counted, whether it succeeds or not, if it leads to later code only. -/
theorem counted_editBody {α : Type} {id : MethodId} {e : BodyEdit α}
    (he : ∀ b : MethodBody, Upholds b.Later e) : Upholds p.Counted (editBody id e) := by
  apply upholds_counted
  intro p q h
  rcases editBody_ends h with rfl | ⟨m, b, b', hMethod, hCode, hEdit, rfl⟩
  · exact .touch p
  · have hLater : b.Later b' := he b (refl (r := MethodBody.Later) b) hEdit
    refine .of_edits (Nat.lt_succ_self _) (.of_modify rfl fun m' hMethod' => ?_)
    obtain rfl : m = m' := Option.some_inj.mp (hMethod.symm.trans hMethod')
    simp only [MethodDef.codeRevision, hCode, Option.map_some, Option.getD_some]
    rcases hLater with rfl | hAdvanced
    · exact Nat.le_refl _
    · exact Nat.le_of_lt hAdvanced

theorem later_setOperand (b : MethodBody) (id : InstrId) (operand : Operand) :
    Upholds b.Later (MethodBody.setOperand id operand) := by
  intro b' b'' hBefore h
  have hRun : Ends (BodyChange.setOperand id operand).run b' b'' := by
    rcases h with ⟨a, h⟩ | ⟨e, h⟩
    · exact Or.inl ⟨[], (Step.bind_of_ok h).trans rfl⟩
    · exact Or.inr ⟨e, Step.bind_of_error h⟩
  exact IsTrans.trans b b' b'' hBefore (MethodBody.later_of_ends hRun)

theorem counted_remapMembers {id : MethodId} {clone : TypeClone} :
    Upholds p.Counted (remapMembers id clone) := by
  refine Upholds.bind .get fun r => ?_
  refine Upholds.bind (.lift _) fun m => ?_
  split
  · exact .pure _
  · refine Upholds.ite (fun _ => .pure _) fun _ => ?_
    refine Upholds.bind (counted_editBody fun b => ?_) fun _ => .pure _
    exact .forM fun change => later_setOperand b change.1 change.2

end Code

section Registration

theorem counted_addType {nameSpace name : String} {declaring : Option TypeId}
    {flags : FlagSet TypeFlag} : Upholds p.Counted (addType nameSpace name declaring flags) := by
  apply upholds_counted
  intro p q h
  have h := Ends.of_get_bind h
  rcases h.of_lift_bind with rfl | ⟨fullName, -, h⟩
  · exact refl q
  · dsimp only at h
    split at h
    · obtain rfl := h.of_throw_bind
      exact refl q
    · obtain rfl := h.of_set_bind.pure
      exact .of_edits (Nat.lt_succ_self _) (.of_methods rfl)

theorem counted_addField {owner : TypeId} {name : String} {type : TypeRef}
    {flags : FlagSet FieldFlag} : Upholds p.Counted (addField owner name type flags) := by
  apply upholds_counted
  intro p q h
  rcases addField_ends h with rfl | ⟨key, -, -, rfl⟩
  · exact refl q
  · exact .of_edits (Nat.lt_succ_self _) (.of_methods rfl)

theorem counted_addMethod {owner : TypeId} {name : String} {params : List Param}
    {result : TypeRef} {flags : FlagSet MethodFlag} :
    Upholds p.Counted (addMethod owner name params result flags) := by
  apply upholds_counted
  intro p q h
  rcases addMethod_ends h with rfl | ⟨key, -, -, rfl⟩
  · exact refl q
  · exact .of_edits (Nat.lt_succ_self _) (.of_append rfl)

theorem counted_addInterface {id interface : TypeId} :
    Upholds p.Counted (addInterface id interface) := by
  refine Upholds.bind .get fun r => ?_
  exact Upholds.bind (.lift _) fun _ => counted_modifyType

theorem counted_retireField {id : FieldId} : Upholds p.Counted (retireField id) := by
  apply upholds_counted
  intro p q h
  rcases retireField_ends h with rfl | ⟨f, key, -, -, rfl⟩
  · exact refl q
  · exact .of_edits (Nat.lt_add_of_pos_right (by decide)) (.of_methods rfl)

theorem counted_retireMethod {id : MethodId} : Upholds p.Counted (retireMethod id) := by
  apply upholds_counted
  intro p q h
  rcases retireMethod_ends h with rfl | ⟨m, key, -, -, rfl⟩
  · exact refl q
  · refine .of_edits (Nat.lt_add_of_pos_right (by decide)) (.of_modify rfl fun m _ => ?_)
    exact Nat.le_refl _

end Registration

section Copies

/-- The copy of a method has no code before it gets that of its source. -/
theorem counted_cloneMethod {id : MethodId} {owner : TypeId} {name : String} {shape : MethodShape} :
    Upholds p.Counted (cloneMethod id owner name shape) := by
  refine Upholds.bind .get fun r => ?_
  refine Upholds.bind (.lift _) fun source => ?_
  apply upholds_counted
  intro p q h
  rcases h.bind with h | ⟨copy, u, hAdd, h⟩
  · exact counted_addMethod (refl p) h
  · have hAdded : p.Counted u := counted_addMethod (refl p) (Or.inl ⟨copy, hAdd⟩)
    obtain ⟨hCopy, -, -, hMethods⟩ := addMethod_ok hAdd
    apply IsTrans.trans _ _ _ hAdded
    have hModified {v : Program} (h : Ends (modifyMethod copy fun m =>
        { m with body := shape.copyBody source, overrides := source.overrides }) u v) :
        u.Counted v := by
      rcases modifyMethod_ends h with rfl | ⟨_, -, rfl⟩
      · exact .touch u
      · refine .of_edits (Nat.lt_succ_self _) (.of_modify rfl fun m hMethod => ?_)
        have hNone : m.body = none := body_of_append hCopy hMethods rfl hMethod
        simp [MethodDef.codeRevision, hNone]
    rcases h.bind with h | ⟨_, v, hModify, h⟩
    · exact hModified h
    · exact hModified (Or.inl ⟨_, h.pure ▸ hModify⟩)

theorem counted_cloneFields (copy : TypeId) (ids : List FieldId) (clone : TypeClone) :
    Upholds p.Counted (cloneFields copy ids clone) := by
  induction ids generalizing clone with
  | nil => exact .pure _
  | cons id ids ih =>
      rw [cloneFields]
      refine Upholds.bind .get fun r => ?_
      refine Upholds.bind (.lift _) fun f => ?_
      refine Upholds.ite (fun _ => ih clone) fun _ => ?_
      exact .bind counted_addField fun _ => ih _

theorem counted_cloneMethods (copy : TypeId) (ids : List MethodId) (clone : TypeClone) :
    Upholds p.Counted (cloneMethods copy ids clone) := by
  induction ids generalizing clone with
  | nil => exact .pure _
  | cons id ids ih =>
      rw [cloneMethods]
      refine Upholds.bind .get fun r => ?_
      refine Upholds.bind (.lift _) fun m => ?_
      exact .bind counted_cloneMethod fun _ => ih _

theorem counted_cloneType {id : TypeId} {declaring : Option TypeId} :
    Upholds p.Counted (cloneType id declaring) := by
  refine Upholds.bind .get fun r => ?_
  refine Upholds.bind (.lift _) fun source => ?_
  refine Upholds.bind counted_addType fun copy => ?_
  refine Upholds.bind counted_modifyType fun _ => ?_
  refine Upholds.bind (counted_cloneFields ..) fun clone => ?_
  refine Upholds.bind (counted_cloneMethods ..) fun clone => ?_
  apply Upholds.bind (.forM fun m => .bind counted_remapMembers fun _ => .pure _)
  exact fun _ => .bind (.forM fun property => counted_modifyType) fun _ => .pure _

end Copies

end Program

/-- A call that a program takes: a change, the renaming of members in a body, an entry that is
opened, with what is done to it, or code that is opened, with the edits of it. -/
inductive Call where
  | change (c : Change)
  | remapMembers (id : MethodId) (clone : TypeClone)
  | openType (id : TypeId) (f : TypeDef → TypeDef)
  | openField (id : FieldId) (f : FieldDef → FieldDef)
  | openMethod (id : MethodId) (f : MethodDef → MethodDef)
  | editBody (id : MethodId) (edits : List BodyChange)

namespace Call

def make : Call → Edit Unit
  | change c => c.make
  | remapMembers id clone => do
    let _ ← Program.remapMembers id clone
  | openType id f => Program.modifyType id f
  | openField id f => Program.modifyField id f
  | openMethod id f => Program.modifyMethod id f
  | editBody id edits => Program.editBody id (modify fun b => b.evolve edits)

/-- The program that a call leaves, whether it succeeds or not. -/
def after (p : Program) (c : Call) : Program := endState c.make p

/-- Whether the call opens the entry of a method, the body included. -/
def OpensMethod : Call → Prop
  | openMethod .. | change (.setBody ..) => True
  | _ => False

variable {p : Program}

theorem counted_change {c : Change} (h : ∀ id body, c ≠ .setBody id body) :
    Upholds p.Counted c.make := by
  cases c with
  | addType => exact .bind Program.counted_addType fun _ => .pure _
  | setBase => exact Program.counted_modifyType
  | addInterface => exact Program.counted_addInterface
  | addField => exact .bind Program.counted_addField fun _ => .pure _
  | addMethod => exact .bind Program.counted_addMethod fun _ => .pure _
  | setBody id body => exact absurd rfl (h id body)
  | addProperty => exact Program.counted_modifyType
  | cloneMethod => exact .bind Program.counted_cloneMethod fun _ => .pure _
  | cloneType => exact .bind Program.counted_cloneType fun _ => .pure _
  | retireMethod => exact Program.counted_retireMethod
  | retireField => exact Program.counted_retireField

/-- A call is counted unless it opens the entry of a method. -/
theorem counted_make {c : Call} (h : ¬ c.OpensMethod) : Upholds p.Counted c.make := by
  cases c with
  | change c =>
      apply counted_change
      rintro id body rfl
      exact h trivial
  | remapMembers id clone => exact .bind Program.counted_remapMembers fun _ => .pure _
  | openType id f => exact Program.counted_modifyType
  | openField id f => exact Program.counted_modifyField
  | openMethod id f => exact absurd trivial h
  | editBody id edits =>
      refine Program.counted_editBody fun b => .modify fun b' h => ?_
      exact IsTrans.trans _ _ _ h (MethodBody.later_evolve b' edits)

theorem counted_after {c : Call} (h : ¬ c.OpensMethod) : p.Counted (c.after p) :=
  counted_make h (refl p) (ends_endState c.make p)

/-- A call that changes a program raises its revision just if it lets no code fall back. -/
theorem revision_lt_after {c : Call} (hChanged : c.after p ≠ p) :
    p.revision < (c.after p).revision ↔ p.Onward (c.after p) := by
  have hEnds : Ends c.make p (c.after p) := ends_endState c.make p
  by_cases hOpens : c.OpensMethod
  · cases c with
    | openMethod id f => exact Program.modifyMethod_revision hEnds
    | change c =>
        cases c with
        | setBody id body => exact Program.modifyMethod_revision hEnds
        | _ => exact hOpens.elim
    | _ => exact hOpens.elim
  · have hCounted : p.Counted (c.after p) := counted_after hOpens
    exact iff_of_true (hCounted.revision.resolve_left hChanged) hCounted.onward

end Call

namespace Program

/-- The program after several calls. -/
def afterAll (p : Program) (calls : List Call) : Program := calls.foldl Call.after p

/-- No call of several lets code fall back. -/
def OnwardAlong (p : Program) : List Call → Prop
  | [] => True
  | c :: rest => p.Onward (c.after p) ∧ (c.after p).OnwardAlong rest

variable {p : Program}

theorem counted_afterAll {calls : List Call} (h : p.OnwardAlong calls) :
    p.Counted (p.afterAll calls) := by
  induction calls generalizing p with
  | nil => exact refl p
  | cons c rest ih =>
      obtain ⟨hFirst, hRest⟩ := h
      have hStep : p.Counted (c.after p) := by
        refine ⟨?_, hFirst⟩
        by_cases hSame : c.after p = p
        · exact Or.inl hSame
        · exact Or.inr ((Call.revision_lt_after hSame).mpr hFirst)
      exact IsTrans.trans _ _ _ hStep (ih hRest)

/-- A call that changes the program raises the revision just if it lets no code fall back to a lower
one. Only a call that opens the entry of a method can do that, as one that gives it another body
does. Along a history in which none does, a program that has the revision it started from is the one
it started from. -/
theorem revision_counts (p : Program) :
    (∀ c : Call, c.after p ≠ p → (p.revision < (c.after p).revision ↔ p.Onward (c.after p))) ∧
    (∀ c : Call, ¬ c.OpensMethod → p.Onward (c.after p)) ∧
    ∀ calls : List Call, p.OnwardAlong calls → (p.afterAll calls).revision = p.revision →
      p.afterAll calls = p := by
  refine ⟨fun c => Call.revision_lt_after, fun c h => (Call.counted_after h).onward, ?_⟩
  intro calls hOnward hRevision
  rcases (counted_afterAll hOnward).revision with hSame | hRaised
  · exact hSame
  · exact absurd hRaised (Nat.not_lt.mpr (Nat.le_of_eq hRevision))

/-- A method whose body was edited after it got it. -/
def drafted : Program :=
  Program.empty.afterAll
    [.change (.addType "G" "T" none ⟨0⟩), .change (.addMethod ⟨0⟩ "f" [] .void ⟨0⟩),
      .change (.setBody ⟨0⟩ (.ofParts [⟨⟨0⟩, .ret, .none⟩] [] [])),
      .editBody ⟨0⟩ [.push [.plain .nop]]]

/-- A call that gives the method a body of two instructions, the first of them another one. -/
def redraft : Call :=
  .change (.setBody ⟨0⟩ (.ofParts [⟨⟨0⟩, .nop, .none⟩, ⟨⟨1⟩, .ret, .none⟩] [] []))

theorem ne_of_methods {p q : Program} (h : q.methods ≠ p.methods) : q ≠ p :=
  fun hSame => h (congrArg (·.methods) hSame)

theorem drafted_counts :
    drafted.revision < (Call.after drafted (.editBody ⟨0⟩ [.remove ⟨0⟩])).revision ∧
      ¬ drafted.Onward (redraft.after drafted) ∧
      drafted.afterAll [.change (.addType "G" "T" none ⟨0⟩)] = drafted := by
  obtain ⟨hCounts, hOnward, hAlong⟩ := revision_counts drafted
  refine ⟨?_, fun hKept => ?_, ?_⟩
  · apply (hCounts _ (ne_of_methods (by decide +kernel))).mpr
    exact hOnward _ id
  · have hRaised : drafted.revision < (redraft.after drafted).revision :=
      (hCounts redraft (ne_of_methods (by decide +kernel))).mpr hKept
    exact absurd hRaised (by decide +kernel)
  · apply hAlong
    · exact ⟨hOnward _ id, trivial⟩
    · decide +kernel

/-- The new body starts at the first revision again, so that the program changes and its revision
stays. -/
theorem redraft_uncounted : redraft.after drafted ≠ drafted ∧
    (redraft.after drafted).revision = drafted.revision :=
  ⟨ne_of_methods (by decide +kernel), by decide +kernel⟩

end Program

end ContextBinding
