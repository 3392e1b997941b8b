import ContextBinding.Proofs.Registry

/-! What a copied type is like. Its members are copies of those of its source, one for one, and the
code of the copies names the copies in the place of what they were made from. Nothing that was in
the program before changes, but that the type is listed where it is nested. -/

namespace ContextBinding

namespace Table

variable {κ ν : Type} [Ord κ]

/-- A key that was free makes one value more. -/
theorem values_insert [Std.LawfulEqOrd κ] [DecidableEq κ] {t : Table κ ν} {k : κ} {v : ν}
    (h : t.get? k = none) : (t.insert k v).values.Perm (v :: t.values) := by
  obtain ⟨l⟩ := t
  change ((insertEntry k v l).map (·.2)).Perm (v :: l.map (·.2))
  induction l with
  | nil => exact .refl _
  | cons e l ih =>
      rw [get?_cons] at h
      split at h
      · cases h
      · rename_i hOther
        rw [insertEntry]
        split
        · exact .refl _
        · rename_i hSame
          exact (hOther (Std.LawfulEqOrd.eq_of_compare hSame).symm).elim
        · exact ((ih h).cons e.2).trans (.swap ..)

/-- A table takes each key to the value at its place, no two to the same one, and nothing else to
any value. -/
structure Pairs (t : Table κ ν) (keys : List κ) (values : List ν) : Prop where
  keys_nodup : keys.Nodup
  values_nodup : values.Nodup
  pairs : keys.map t.get? = values.map some
  only : ∀ k v, t.get? k = some v → k ∈ keys
  entries : t.values.Perm values

namespace Pairs

variable {t : Table κ ν} {keys : List κ} {values : List ν}

theorem empty : (∅ : Table κ ν).Pairs [] [] :=
  ⟨.nil, .nil, rfl, fun _ _ h => (nomatch h), .refl _⟩

/-- What a key is taken to is one of the values. -/
theorem mem_values (h : t.Pairs keys values) {k : κ} {v : ν} (hGet : t.get? k = some v) :
    v ∈ values := by
  have hMem : t.get? k ∈ keys.map t.get? := List.mem_map_of_mem (h.only k v hGet)
  rw [hGet, h.pairs] at hMem
  simpa using hMem

/-- Each key is taken to a value. -/
theorem isSome (h : t.Pairs keys values) {k : κ} (hMem : k ∈ keys) : ∃ v, t.get? k = some v := by
  have hMem : t.get? k ∈ keys.map t.get? := List.mem_map_of_mem hMem
  rw [h.pairs] at hMem
  obtain ⟨v, -, hGet⟩ := List.mem_map.mp hMem
  exact ⟨v, hGet.symm⟩

/-- Each value is one that a key is taken to. -/
theorem exists_key (h : t.Pairs keys values) {v : ν} (hMem : v ∈ values) :
    ∃ k ∈ keys, t.get? k = some v := by
  have hMem : some v ∈ values.map some := List.mem_map_of_mem hMem
  rw [← h.pairs] at hMem
  exact List.mem_map.mp hMem

variable [Std.LawfulEqOrd κ] [DecidableEq κ]

/-- A new pair comes last. -/
theorem insert (h : t.Pairs keys values) {k : κ} {v : ν} (hKey : k ∉ keys) (hValue : v ∉ values) :
    (t.insert k v).Pairs (keys ++ [k]) (values ++ [v]) := by
  have hFree : t.get? k = none :=
    Option.eq_none_iff_forall_ne_some.mpr fun w hGet => hKey (h.only k w hGet)
  have hOld : keys.map (t.insert k v).get? = keys.map t.get? :=
    List.map_congr_left fun j hMem => by
      have hOther : k ≠ j := fun hSame => hKey (hSame ▸ hMem)
      rw [get?_insert, if_neg hOther]
  refine ⟨?_, ?_, ?_, fun j w hGet => ?_, ?_⟩
  · exact List.nodup_append.mpr ⟨h.keys_nodup, List.nodup_singleton _, fun a ha b hb hSame =>
      hKey (List.mem_singleton.mp hb ▸ hSame ▸ ha)⟩
  · exact List.nodup_append.mpr ⟨h.values_nodup, List.nodup_singleton _, fun a ha b hb hSame =>
      hValue (List.mem_singleton.mp hb ▸ hSame ▸ ha)⟩
  · simp [hOld, h.pairs, get?_insert]
  · rw [get?_insert] at hGet
    split at hGet
    · rename_i hSame
      exact hSame ▸ List.mem_append_right _ (List.mem_singleton_self _)
    · exact List.mem_append_left _ (h.only j w hGet)
  · refine (values_insert hFree).trans ?_
    exact (h.entries.cons v).trans (List.perm_append_singleton v values).symm

end Pairs

end Table

/-- Entries have been copied to the end of a list, each once. The table takes the number of each to
that of its copy, and whatever is copied is taken, so that it cannot be copied again. -/
structure Copied {ε ι : Type} [Ord ι] (index : ι → Nat) (before now : List ε) (copyOf : ε → ε)
    (Taken : ε → Prop) (t : Table ι ι) (ids copies : List ι) : Prop where
  entries : ∃ new, now = before ++ new ∧ ∀ e ∈ new, Taken e
  pairs : t.Pairs ids copies
  bounds : ∀ c ∈ copies, before.length ≤ index c ∧ index c < now.length
  copies : ∀ a c, t.get? a = some c → ∃ e, before[index a]? = some e ∧ now[index c]? = some (copyOf e)

namespace Copied

variable {ε ι : Type} [Ord ι] {index : ι → Nat} {before now : List ε} {copyOf : ε → ε}
  {Taken Taken' : ε → Prop} {t : Table ι ι} {ids copies : List ι}

theorem start (index : ι → Nat) (before : List ε) (copyOf : ε → ε) (Taken : ε → Prop) :
    Copied index before before copyOf Taken (∅ : Table ι ι) [] [] where
  entries := ⟨[], (List.append_nil _).symm, fun _ h => (List.not_mem_nil h).elim⟩
  pairs := .empty
  bounds _ h := (List.not_mem_nil h).elim
  copies _ _ h := nomatch h

theorem later (h : Copied index before now copyOf Taken t ids copies) {i : Nat} {e : ε}
    (hAt : before[i]? = some e) : now[i]? = some e := by
  obtain ⟨new, rfl, -⟩ := h.entries
  rwa [List.getElem?_append_left (List.getElem?_eq_some_iff.mp hAt).1]

theorem length_le (h : Copied index before now copyOf Taken t ids copies) :
    before.length ≤ now.length := by
  obtain ⟨new, rfl, -⟩ := h.entries
  simp

/-- What is not taken was there before. -/
theorem of_free (h : Copied index before now copyOf Taken t ids copies) {i : Nat} {e : ε}
    (hAt : now[i]? = some e) (hFree : ¬ Taken e) : before[i]? = some e := by
  obtain ⟨new, rfl, hNew⟩ := h.entries
  rw [List.getElem?_append] at hAt
  split at hAt
  · exact hAt
  · exact (hFree (hNew e (List.mem_of_getElem? hAt))).elim

/-- What was copied is taken. -/
theorem taken (h : Copied index before now copyOf Taken t ids copies)
    (hAlike : ∀ e, Taken (copyOf e) → Taken e) {a : ι} {e : ε} (hMem : a ∈ ids)
    (hAt : before[index a]? = some e) : Taken e := by
  obtain ⟨c, hGet⟩ := h.pairs.isSome hMem
  obtain ⟨e', hBefore, hNow⟩ := h.copies a c hGet
  obtain rfl : e' = e := Option.some_inj.mp (hBefore.symm.trans hAt)
  have hLate := (h.bounds c (h.pairs.mem_values hGet)).1
  by_contra hFree
  have hOld := h.of_free hNow fun hCopy => hFree (hAlike e' hCopy)
  exact Nat.not_lt.mpr hLate (List.getElem?_eq_some_iff.mp hOld).1

/-- Whatever is free is copied from what was there before, and for the first time. -/
theorem add [Std.LawfulEqOrd ι] [DecidableEq ι]
    (h : Copied index before now copyOf Taken t ids copies)
    (hAlike : ∀ e, Taken (copyOf e) → Taken e) {a c : ι} {e : ε} (hAt : now[index a]? = some e)
    (hFree : ¬ Taken e) (hLast : index c = now.length) (hKept : ∀ e, Taken e → Taken' e)
    (hTaken : Taken' (copyOf e)) : before[index a]? = some e ∧
      Copied index before (now ++ [copyOf e]) copyOf Taken' (t.insert a c) (ids ++ [a])
        (copies ++ [c]) := by
  have hOld := h.of_free hAt hFree
  have hOnce : a ∉ ids := fun hMem => hFree (h.taken hAlike hMem hOld)
  have hNew : c ∉ copies := fun hMem => Nat.ne_of_lt (h.bounds c hMem).2 hLast
  obtain ⟨new, hNow, hEntries⟩ := h.entries
  refine ⟨hOld, ⟨new ++ [copyOf e], ?_, fun e' hMem => ?_⟩, h.pairs.insert hOnce hNew,
    fun c' hMem => ?_, fun a' c' hGet => ?_⟩
  · rw [hNow, List.append_assoc]
  · rcases List.mem_append.mp hMem with hMem | hMem
    · exact hKept e' (hEntries e' hMem)
    · exact List.mem_singleton.mp hMem ▸ hTaken
  · rw [List.length_append, List.length_singleton]
    rcases List.mem_append.mp hMem with hMem | hMem
    · exact (h.bounds c' hMem).imp_right Nat.lt_succ_of_lt
    · rw [List.mem_singleton.mp hMem, hLast]
      exact ⟨h.length_le, Nat.lt_succ_self _⟩
  · rw [Table.get?_insert] at hGet
    split at hGet
    · rename_i hSame
      rw [← Option.some_inj.mp hGet, hLast, ← hSame]
      exact ⟨e, hOld, List.getElem?_concat_length⟩
    · obtain ⟨e', hBefore, hAfter⟩ := h.copies a' c' hGet
      have hThere := (List.getElem?_eq_some_iff.mp hAfter).1
      exact ⟨e', hBefore, (List.getElem?_append_left hThere).trans hAfter⟩

/-- No copy is one of what was copied. -/
theorem apart (h : Copied index before now copyOf Taken t ids copies) {a c : ι}
    (hGet : t.get? a = some c) : t.get? c = none := by
  refine Option.eq_none_iff_forall_ne_some.mpr fun c' hCopied => ?_
  obtain ⟨e, hBefore, -⟩ := h.copies c c' hCopied
  have hLate := (h.bounds c (h.pairs.mem_values hGet)).1
  exact Nat.not_lt.mpr hLate (List.getElem?_eq_some_iff.mp hBefore).1

end Copied

section Code

namespace TypeClone

/-- An operand of copied code. -/
def mapOperand (clone : TypeClone) (operand : Operand) : Operand :=
  (clone.mapOperand? operand).getD operand

/-- An instruction of copied code. -/
def mapInstruction (clone : TypeClone) (i : Instruction) : Instruction :=
  { i with operand := clone.mapOperand i.operand }

/-- Jumps are to the same instructions. -/
theorem mapInstruction_targetIds (clone : TypeClone) (i : Instruction) :
    (clone.mapInstruction i).targetIds = i.targetIds := by
  obtain ⟨id, opcode, operand⟩ := i
  cases operand with
  | field f => cases h : clone.fields.get? f <;>
      simp [mapInstruction, mapOperand, mapOperand?, Instruction.targetIds, Operand.targetIds, h]
  | method m => cases h : clone.methods.get? m <;>
      simp [mapInstruction, mapOperand, mapOperand?, Instruction.targetIds, Operand.targetIds, h]
  | type ref => by_cases h : clone.mapType ref = ref <;>
      simp [mapInstruction, mapOperand, mapOperand?, Instruction.targetIds, Operand.targetIds, h]
  | _ => rfl

/-- The names of types depend on nothing but which type was copied, and into which. -/
theorem mapType_congr {clone clone' : TypeClone} (hSource : clone'.source = clone.source)
    (hCopy : clone'.copy = clone.copy) (ref : TypeRef) : clone'.mapType ref = clone.mapType ref := by
  induction ref with
  | named id => simp only [mapType, hSource, hCopy]
  | byRef target ih => rw [mapType, mapType, ih]
  | array element ih => rw [mapType, mapType, ih]
  | _ => rfl

@[simp] theorem mapType_fields (clone : TypeClone) (fields : Table FieldId FieldId)
    (ref : TypeRef) : { clone with fields }.mapType ref = clone.mapType ref := by
  refine mapType_congr ?_ ?_ ref <;> rfl

@[simp] theorem mapType_methods (clone : TypeClone) (methods : Table MethodId MethodId)
    (ref : TypeRef) : { clone with methods }.mapType ref = clone.mapType ref := by
  refine mapType_congr ?_ ?_ ref <;> rfl

theorem mapType_named (clone : TypeClone) (id : TypeId) : clone.mapType (.named id)
    = .named (if clone.source = some id then clone.copy.getD id else id) := by
  unfold mapType
  cases clone.copy with
  | none => simp
  | some copy =>
      dsimp only [Option.getD_some]
      split <;> rfl

/-- A type that names the copy does not name the source. -/
theorem mapType_mapType {clone : TypeClone} (h : clone.copy ≠ clone.source) (ref : TypeRef) :
    clone.mapType (clone.mapType ref) = clone.mapType ref := by
  induction ref with
  | named id =>
      by_cases hSource : clone.source = some id
      · cases hCopy : clone.copy with
        | none => simp [mapType_named, hCopy]
        | some copy =>
            have hApart : clone.source ≠ some copy := fun hSame => h (hCopy.trans hSame.symm)
            simp [mapType_named, hCopy, hSource, hSource ▸ hApart]
      · simp [mapType_named, hSource]
  | byRef target ih => simp only [mapType, ih]
  | array element ih => simp only [mapType, ih]
  | _ => rfl

/-- No copy is one of what was copied. -/
structure Apart (clone : TypeClone) : Prop where
  type : clone.copy ≠ clone.source
  fields : ∀ f f', clone.fields.get? f = some f' → clone.fields.get? f' = none
  methods : ∀ m m', clone.methods.get? m = some m' → clone.methods.get? m' = none

/-- Operands of copied code name nothing that was copied. -/
theorem Apart.mapOperand?_mapOperand {clone : TypeClone} (h : clone.Apart) (operand : Operand) :
    clone.mapOperand? (clone.mapOperand operand) = none := by
  unfold mapOperand
  cases operand with
  | field f =>
      cases hGet : clone.fields.get? f with
      | none => simp [mapOperand?, hGet]
      | some f' => simp [mapOperand?, hGet, h.fields f f' hGet]
  | method m =>
      cases hGet : clone.methods.get? m with
      | none => simp [mapOperand?, hGet]
      | some m' => simp [mapOperand?, hGet, h.methods m m' hGet]
  | type ref =>
      by_cases hSame : clone.mapType ref = ref
      · simp [mapOperand?, hSame]
      · simp [mapOperand?, hSame, mapType_mapType h.type]
  | _ => rfl

/-- Code that was copied, and what the copy is. Where several instructions have the same number,
operands may have gone astray. -/
structure CopiesCode (clone : TypeClone) (b b' : MethodBody) : Prop where
  ids : b'.instructions.map (·.id) = b.instructions.map (·.id)
  opcodes : b'.opcodes = b.opcodes
  locals : b'.locals = b.locals
  handlers : b'.handlers = b.handlers
  instructions : (b.instructions.map (·.id)).Nodup →
    b'.instructions = b.instructions.map clone.mapInstruction
  targets : (b.instructions.map (·.id)).Nodup →
    b'.instructions.map (·.targetIds) = b.instructions.map (·.targetIds)
  apart : (b.instructions.map (·.id)).Nodup →
    ∀ i ∈ b'.instructions, clone.mapOperand? i.operand = none

end TypeClone

namespace MethodBody

/-- Two bodies are the same but for their operands. -/
structure Shares (b b' : MethodBody) : Prop where
  ids : b'.instructions.map (·.id) = b.instructions.map (·.id)
  opcodes : b'.opcodes = b.opcodes
  locals : b'.locals = b.locals
  handlers : b'.handlers = b.handlers

protected theorem Shares.refl (b : MethodBody) : b.Shares b := ⟨rfl, rfl, rfl, rfl⟩

protected theorem Shares.trans {b b' b'' : MethodBody} (h : b.Shares b') (h' : b'.Shares b'') :
    b.Shares b'' :=
  ⟨h'.ids.trans h.ids, h'.opcodes.trans h.opcodes, h'.locals.trans h.locals,
    h'.handlers.trans h.handlers⟩

instance : IsPreorder MethodBody Shares where
  refl := Shares.refl
  trans _ _ _ := Shares.trans

theorem setOperand_ok {id : InstrId} {operand : Operand} {b b' : MethodBody} {u : Unit} :
    setOperand id operand b = .ok u b' ↔ ∃ position, b.position? id = some position ∧
      b.modifyAt position (fun i => { i with operand := operand }) = b' := by
  unfold setOperand
  simp only [Step.bind_ok, require_ok, Step.modify_ok]
  constructor
  · rintro ⟨position, _, ⟨hPosition, rfl⟩, rfl⟩
    exact ⟨position, hPosition, rfl⟩
  · rintro ⟨position, hPosition, rfl⟩
    exact ⟨position, b, ⟨hPosition, rfl⟩, rfl⟩

theorem shares_setOperand {id : InstrId} {operand : Operand} :
    Keeps Shares (setOperand id operand) := by
  intro b _ b' h
  obtain ⟨position, -, rfl⟩ := setOperand_ok.mp h
  exact ⟨map_modify_eq fun _ => rfl, map_modify_eq fun _ => rfl, rfl, rfl⟩

theorem modify_middle {α : Type} (ahead : List α) (a : α) (behind : List α) (f : α → α) :
    (ahead ++ a :: behind).modify ahead.length f = ahead ++ f a :: behind := by
  induction ahead with
  | nil => rfl
  | cons b ahead ih => simpa using ih

/-- Where numbers are distinct, an operand goes to the instruction it is meant for. -/
theorem modifyAt_position {b : MethodBody} {ahead behind : List Instruction} {i : Instruction}
    {f : Instruction → Instruction} {position : Nat} (hCode : b.instructions = ahead ++ i :: behind)
    (hFirst : ∀ j ∈ ahead, j.id ≠ i.id) (hPosition : b.position? i.id = some position) :
    (b.modifyAt position f).instructions = ahead ++ f i :: behind := by
  have hAhead : ahead.findIdx? (fun j => j.id == i.id) = none :=
    List.findIdx?_eq_none_iff.mpr fun j hMem => by simpa using hFirst j hMem
  obtain rfl : ahead.length = position := by
    simpa [position?, hCode, List.findIdx?_append, hAhead, List.findIdx?_cons] using hPosition
  rw [modifyAt, hCode, modify_middle]

/-- Operands that are put in one after the other, each where it belongs. -/
theorem setOperands_ok {g : Operand → Option Operand} (done : List Instruction)
    {rest : List Instruction} {b b' : MethodBody} {u : Unit}
    (hCode : b.instructions
      = done.map (fun i => { i with operand := (g i.operand).getD i.operand }) ++ rest)
    (hNodup : ((done ++ rest).map (·.id)).Nodup)
    (h : ((rest.filterMap fun i => (g i.operand).map fun operand => (i.id, operand)).forM
      fun change => setOperand change.1 change.2) b = .ok u b') :
    b'.instructions
      = (done ++ rest).map fun i => { i with operand := (g i.operand).getD i.operand } := by
  induction rest generalizing done b with
  | nil =>
      obtain ⟨-, rfl⟩ := Step.pure_ok.mp h
      simpa using hCode
  | cons i rest ih =>
      have hNext : ((done ++ [i] ++ rest).map (·.id)).Nodup := by simpa using hNodup
      cases hOperand : g i.operand with
      | none =>
          rw [List.filterMap_cons_none (by rw [hOperand]; rfl)] at h
          have hSame : b.instructions = (done ++ [i]).map
              (fun i => { i with operand := (g i.operand).getD i.operand }) ++ rest := by
            simp [hCode, hOperand]
          simpa using ih (done ++ [i]) hSame hNext h
      | some operand =>
          rw [List.filterMap_cons_some (b := (i.id, operand)) (by rw [hOperand]; rfl)] at h
          obtain ⟨_, b₁, hFirst, hRest⟩ := Step.bind_ok.mp h
          obtain ⟨position, hPosition, rfl⟩ := setOperand_ok.mp hFirst
          have hApart : ∀ j ∈ done.map
              (fun i => { i with operand := (g i.operand).getD i.operand }), j.id ≠ i.id := by
            intro j hMem hSame
            obtain ⟨k, hk, rfl⟩ := List.mem_map.mp hMem
            rw [List.map_append, List.map_cons] at hNodup
            exact (List.nodup_append.mp hNodup).2.2 k.id (List.mem_map_of_mem hk) i.id
              (List.mem_cons_self ..) hSame
          have hDone := modifyAt_position (f := fun i => { i with operand := operand }) hCode hApart
            hPosition
          have hSame : (b.modifyAt position fun i => { i with operand := operand }).instructions
              = (done ++ [i]).map
                (fun i => { i with operand := (g i.operand).getD i.operand }) ++ rest := by
            rw [hDone]
            simp [hOperand]
          simpa using ih (done ++ [i]) hSame hNext hRest

end MethodBody

/-- Putting in operands that name the copies makes a copy of code. -/
theorem TypeClone.CopiesCode.of_setOperands {clone : TypeClone} (hApart : clone.Apart)
    {b b' : MethodBody} {u : Unit} (hShares : b.Shares b')
    (h : ((b.instructions.filterMap fun i =>
      (clone.mapOperand? i.operand).map fun operand => (i.id, operand)).forM
        fun change => MethodBody.setOperand change.1 change.2) b = .ok u b') :
    clone.CopiesCode b b' := by
  have hCode (hNodup : (b.instructions.map (·.id)).Nodup) :
      b'.instructions = b.instructions.map clone.mapInstruction :=
    MethodBody.setOperands_ok [] rfl hNodup h
  refine ⟨hShares.ids, hShares.opcodes, hShares.locals, hShares.handlers, hCode, fun hNodup => ?_,
    fun hNodup i hMem => ?_⟩
  · rw [hCode hNodup, List.map_map]
    exact List.map_congr_left fun i _ => mapInstruction_targetIds clone i
  · rw [hCode hNodup] at hMem
    obtain ⟨j, -, rfl⟩ := List.mem_map.mp hMem
    exact hApart.mapOperand?_mapOperand j.operand

end Code

namespace TypeClone

/-- A field of the copied type. -/
def mapField (clone : TypeClone) (copy : TypeId) (f : FieldDef) : FieldDef :=
  { f with owner := copy, type := clone.mapType f.type }

/-- A method in the place of which copied properties name another one. -/
def mapMethod (clone : TypeClone) (m : MethodId) : MethodId := (clone.methods.get? m).getD m

/-- A property of the copied type. -/
def mapProperty (clone : TypeClone) (property : PropertyDef) : PropertyDef :=
  { property with
    getter := property.getter.map clone.mapMethod
    setter := property.setter.map clone.mapMethod }

/-- An accessor that is put in the place of another one, entry by entry. -/
theorem foldl_accessor {l : List (MethodId × MethodId)} {m : MethodId}
    (h : ∀ m', (Table.mk l).get? m = some m' → (Table.mk l).get? m' = none) :
    l.foldl (fun accessor e => if accessor = some e.1 then some e.2 else accessor) (some m)
      = some (((Table.mk l).get? m).getD m) := by
  induction l generalizing m with
  | nil => rfl
  | cons e l ih =>
      rw [List.foldl_cons, Table.get?_cons]
      simp only [Table.get?_cons] at h
      by_cases hKey : e.1 = m
      · rw [if_pos hKey] at h
        have hNone := h e.2 rfl
        split at hNone
        · cases hNone
        · rw [if_pos (congrArg some hKey.symm), if_pos hKey, ih fun m' hGet => ?_]
          · rw [hNone]
            rfl
          · cases hNone.symm.trans hGet
      · rw [if_neg fun hSame => hKey (Option.some_inj.mp hSame).symm, if_neg hKey, ih fun m' hGet => ?_]
        rw [if_neg hKey] at h
        have hNone := h m' hGet
        split at hNone
        · cases hNone
        · exact hNone

/-- The accessors of a property are put in the place of others each on its own. -/
theorem foldl_remap (l : List (MethodId × MethodId)) (property : PropertyDef) :
    l.foldl (fun p e => p.remap e.1 e.2) property =
      { property with
        getter := l.foldl (fun accessor e => if accessor = some e.1 then some e.2 else accessor)
          property.getter
        setter := l.foldl (fun accessor e => if accessor = some e.1 then some e.2 else accessor)
          property.setter } := by
  induction l generalizing property with
  | nil => rfl
  | cons e l ih => rw [List.foldl_cons, ih]; rfl

theorem foldl_none (l : List (MethodId × MethodId)) :
    l.foldl (fun accessor e => if accessor = some e.1 then some e.2 else accessor)
      (none : Option MethodId) = none := by
  induction l with
  | nil => rfl
  | cons e l ih => exact ih

/-- A property of the copied type names the copies of accessors. -/
theorem Apart.foldl_remap_eq {clone : TypeClone} (h : clone.Apart) (property : PropertyDef) :
    clone.methods.entries.foldl (fun p e => p.remap e.1 e.2) property
      = clone.mapProperty property := by
  have hAccessor (accessor : Option MethodId) : clone.methods.entries.foldl
      (fun accessor e => if accessor = some e.1 then some e.2 else accessor) accessor
        = accessor.map clone.mapMethod := by
    cases accessor with
    | none => exact foldl_none _
    | some m => exact foldl_accessor (h.methods m)
  rw [foldl_remap, hAccessor, hAccessor]
  rfl

/-- A method that was copied, and its copy, which is in use. -/
structure CopiesMethod (clone : TypeClone) (m m' : MethodDef) : Prop where
  owner : clone.copy = some m'.owner
  name : m'.name = m.name
  params : m'.params = m.params
  returnType : m'.returnType = m.returnType
  flags : m'.flags = m.flags.erase .retired
  overrides : m'.overrides = m.overrides
  body : Option.Rel clone.CopiesCode m.body m'.body

end TypeClone

/-- The method as it is copied into a type, before its code names the copies. -/
def MethodDef.copiedInto (m : MethodDef) (owner : TypeId) : MethodDef :=
  { m with owner := owner, flags := m.flags.erase .retired }

theorem MethodShape.unchanged_params (m : MethodDef) :
    MethodShape.unchanged.copyParams m = m.params := rfl

theorem MethodShape.unchanged_copy (m : MethodDef) (owner : TypeId) :
    MethodDef.mk owner m.name (MethodShape.unchanged.copyParams m) m.returnType
      (MethodShape.unchanged.copyFlags m) m.overrides (MethodShape.unchanged.copyBody m)
      = m.copiedInto owner := by
  have hBody : MethodShape.unchanged.copyBody m = m.body := by
    cases h : m.body <;> simp [copyBody, unchanged, addedArgs, addsReceiver,
      MethodBody.shiftArguments, h]
  rw [hBody]
  rfl

namespace Program

variable {p q r : Program}

section Names

theorem type?_of_modify {id : TypeId} {f : TypeDef → TypeDef}
    (h : q.types = p.types.modify id.index f) (other : TypeId) :
    q.type? other = (p.type? other).map fun t => if other = id then f t else t := by
  rcases id with ⟨i⟩
  rcases other with ⟨j⟩
  rw [type?, h, List.getElem?_modify, type?]
  cases p.types[j]? with
  | none => rfl
  | some t =>
      by_cases hSame : i = j
      · simp [hSame]
      · simp [hSame, Ne.symm hSame]

/-- A change of a type leaves all else as it is. -/
theorem modifyType_types {id : TypeId} {f : TypeDef → TypeDef} {u : Unit}
    (h : modifyType id f p = .ok u q) : q.fields = p.fields ∧ q.methods = p.methods ∧
      ∀ other, q.type? other = (p.type? other).map fun t => if other = id then f t else t := by
  obtain ⟨-, rfl⟩ := modifyType_ok h
  exact ⟨rfl, rfl, type?_of_modify rfl⟩

theorem NamedAlike.typeName (h : p.NamedAlike q) (id : TypeId) : q.typeName id = p.typeName id := by
  have hSame := type?_map h.names id
  unfold Program.typeName
  cases hBefore : p.type? id <;> cases hAfter : q.type? id <;> simp_all

theorem NamedAlike.refName (h : p.NamedAlike q) (ref : TypeRef) : q.refName ref = p.refName ref := by
  induction ref with
  | named id => exact h.typeName id
  | byRef target ih => rw [Program.refName, Program.refName, ih]
  | array element ih => rw [Program.refName, Program.refName, ih]
  | _ => rfl

theorem NamedAlike.requested (h : p.NamedAlike q) (owner : TypeId) (name : String)
    (params : List Param) : q.requested owner name params = p.requested owner name params := by
  simp only [Program.requested, h.typeName, h.refName]

end Names

section Fields

/-- A field of the name would be refused as a duplicate. -/
def FieldTaken (p : Program) (owner : TypeId) (name : String) : Prop :=
  p.fieldTable.contains (Registry.fieldHash p.digest (p.typeName owner, name)) = true

/-- A field that is registered was free, and is taken afterwards. -/
theorem addField_fresh {owner : TypeId} {name : String} {type : TypeRef} {flags : FlagSet FieldFlag}
    {id : FieldId} (h : addField owner name type flags p = .ok id q) :
    ¬ p.FieldTaken owner name ∧ ∃ key, q = p.appendField ⟨owner, name, type, flags⟩ key ∧
      id = ⟨p.fields.length⟩ ∧ q.FieldTaken owner name ∧
      ∀ other, p.FieldTaken owner other → q.FieldTaken owner other := by
  obtain ⟨rfl, -, hEdits, -⟩ := addField_ok h
  rcases addField_ends (Or.inl ⟨_, h⟩) with rfl | ⟨key, hKey, hFree, rfl⟩
  · exact (Nat.lt_irrefl _ hEdits).elim
  obtain ⟨hOwner, rfl⟩ := fieldHash_ok.mp hKey
  let f : FieldDef := ⟨owner, name, type, flags⟩
  have hNamed : p.NamedAlike (p.appendField f
      (.ofField p.digest (.ofType p.digest (p.typeName owner)) name)) :=
    ⟨rfl, rfl, map_modify_eq fun _ => rfl⟩
  have hTaken (other : String) : (p.appendField f
      (.ofField p.digest (.ofType p.digest (p.typeName owner)) name)).FieldTaken owner other ↔
        Registry.fieldHash p.digest (p.typeName owner, name)
          = Registry.fieldHash p.digest (p.typeName owner, other) ∨ p.FieldTaken owner other := by
    rw [FieldTaken, FieldTaken, hNamed.typeName, hNamed.digest, Table.contains, Table.contains]
    change ((p.fieldTable.insert (Registry.fieldHash p.digest (p.typeName owner, name)) _).get?
      _).isSome = true ↔ _
    rw [Table.get?_insert]
    split <;> simp [*]
  refine ⟨?_, _, rfl, rfl, (hTaken name).mpr (Or.inl rfl), fun other h => (hTaken other).mpr (Or.inr h)⟩
  change ¬ (p.fieldTable.get? (.ofField p.digest (.ofType p.digest (p.typeName owner)) name)).isSome
    = true
  rw [hFree]
  exact Bool.false_ne_true

/-- Whether a field is there and in use. -/
def usesField (p : Program) (id : FieldId) : Bool := (p.field? id).any fun f => !f.isRetired

/-- Those fields in `ids` that are in use have been copied into the type `copy`, and nothing else
happened. -/
structure CopiedFields (p : Program) (copy : TypeId) (ids : List FieldId) (clone : TypeClone)
    (new : List FieldId) (q : Program) : Prop where
  methods : q.methods = p.methods
  fields : Copied FieldId.index p.fields q.fields (clone.mapField copy)
    (fun f => f.isRetired = false ∧ q.FieldTaken copy f.name) clone.fields
    (ids.filter p.usesField) new
  types : ∀ id, q.type? id = (p.type? id).map fun t =>
    if id = copy then { t with fields := t.fields ++ new } else t

namespace CopiedFields

variable {copy : TypeId} {ids new : List FieldId} {clone : TypeClone}

/-- A field that is retired is left out. -/
theorem skip (h : p.CopiedFields copy ids clone new q) {id : FieldId} {f : FieldDef}
    (hField : q.field? id = some f) (hRetired : f.isRetired = true) :
    p.CopiedFields copy (ids ++ [id]) clone new q := by
  have hOld : p.field? id = some f :=
    h.fields.of_free hField fun hTaken => by cases hTaken.1.symm.trans hRetired
  have hUnused : p.usesField id = false := by simp [usesField, hOld, hRetired]
  refine ⟨h.methods, ?_, h.types⟩
  rw [List.filter_append, List.filter_cons_of_neg (by simp [hUnused]), List.filter_nil,
    List.append_nil]
  exact h.fields

/-- A field in use is copied, once. -/
theorem add (h : p.CopiedFields copy ids clone new q) {id : FieldId} {f : FieldDef} {c : FieldId}
    (hField : q.field? id = some f) (hUsed : f.isRetired = false)
    (hAdd : addField copy f.name (clone.mapType f.type) f.flags q = .ok c r) :
    p.CopiedFields copy (ids ++ [id]) { clone with fields := clone.fields.insert id c }
      (new ++ [c]) r := by
  obtain ⟨hFree, key, rfl, rfl, hTaken, hKept⟩ := addField_fresh hAdd
  obtain ⟨hOld, hFields⟩ := h.fields.add (c := ⟨q.fields.length⟩) (fun _ h => h) hField
    (fun hNamed => hFree hNamed.2) rfl (fun _ hNamed => hNamed.imp_right (hKept _))
    ⟨hUsed, hTaken⟩
  have hSame : TypeClone.mapField { clone with fields := clone.fields.insert id ⟨q.fields.length⟩ }
      copy = clone.mapField copy := by
    funext d
    simp [TypeClone.mapField]
  refine ⟨h.methods, ?_, fun type => ?_⟩
  · rw [List.filter_append, List.filter_cons_of_pos (by simp [usesField, field?, hOld, hUsed]),
      List.filter_nil, hSame]
    exact hFields
  · refine (type?_of_modify (p := q) rfl type).trans ?_
    rw [h.types]
    cases p.type? type with
    | none => rfl
    | some t => by_cases hHere : type = copy <;> simp [hHere]

end CopiedFields

/-- What is in use of the fields that are gone through is copied. -/
theorem cloneFields_copied {copy : TypeId} {done ids new : List FieldId} {clone clone' : TypeClone}
    (hDone : p.CopiedFields copy done clone new q)
    (h : cloneFields copy ids clone q = .ok clone' r) :
    (∃ new', p.CopiedFields copy (done ++ ids) clone' new' r) ∧ clone'.source = clone.source ∧
      clone'.copy = clone.copy ∧ clone'.methods = clone.methods := by
  induction ids generalizing done new clone q with
  | nil =>
      obtain ⟨rfl, rfl⟩ := Step.pure_ok.mp h
      exact ⟨⟨new, (List.append_nil done).symm ▸ hDone⟩, rfl, rfl, rfl⟩
  | cons id ids ih =>
      rw [cloneFields] at h
      obtain ⟨_, _, hGet, h⟩ := Step.bind_ok.mp h
      obtain ⟨rfl, rfl⟩ := Step.get_ok.mp hGet
      obtain ⟨f, _, hLift, h⟩ := Step.bind_ok.mp h
      obtain ⟨hField, rfl⟩ := Step.lift_ok.mp hLift
      have hField := fieldDef_ok.mp hField
      rw [List.append_cons]
      split at h
      · rename_i hRetired
        exact ih (hDone.skip hField hRetired) h
      · rename_i hUsed
        obtain ⟨c, _, hAdd, h⟩ := Step.bind_ok.mp h
        have hNext := hDone.add hField (Bool.eq_false_iff.mpr hUsed) hAdd
        obtain ⟨hCopied, hSource, hCopy, hMethods⟩ := ih hNext h
        exact ⟨hCopied, hSource, hCopy, hMethods⟩

end Fields

section Methods

/-- A method of the name and with the parameters would be refused as a duplicate. -/
def MethodTaken (p : Program) (owner : TypeId) (name : String) (params : List Param) : Prop :=
  p.methodTable.contains ((p.requested owner name params).hash p.digest) = true

theorem NamedAlike.methodTaken_iff (h : p.NamedAlike q) (hTable : q.methodTable = p.methodTable)
    {owner : TypeId} {name : String} {params : List Param} :
    q.MethodTaken owner name params ↔ p.MethodTaken owner name params := by
  rw [MethodTaken, MethodTaken, hTable, h.requested, h.digest]

/-- A method that is registered was free, and is taken afterwards. -/
theorem addMethod_fresh {owner : TypeId} {name : String} {params : List Param} {result : TypeRef}
    {flags : FlagSet MethodFlag} {id : MethodId}
    (h : addMethod owner name params result flags p = .ok id q) :
    ¬ p.MethodTaken owner name params ∧
      ∃ key, q = p.appendMethod ⟨owner, name, params, result, flags, [], none⟩ key ∧
        q.MethodTaken owner name params ∧
        ∀ other more, p.MethodTaken owner other more → q.MethodTaken owner other more := by
  have hLonger : q.methods.length = p.methods.length + 1 := by
    obtain ⟨-, -, -, hMethods⟩ := addMethod_ok h
    simp [hMethods]
  rcases addMethod_ends (Or.inl ⟨_, h⟩) with rfl | ⟨key, hKey, hFree, rfl⟩
  · exact absurd hLonger (Nat.ne_of_lt (Nat.lt_succ_self _))
  have hKey : (p.requested owner name params).hash p.digest = key := by
    simpa [requested, Function.comp_def] using (methodHash_ok.mp hKey).2
  subst hKey
  let m : MethodDef := ⟨owner, name, params, result, flags, [], none⟩
  let key := (p.requested owner name params).hash p.digest
  have hNamed : p.NamedAlike (p.appendMethod m key) := ⟨rfl, rfl, map_modify_eq fun _ => rfl⟩
  have hTaken (other : String) (more : List Param) :
      (p.appendMethod m key).MethodTaken owner other more ↔
        key = (p.requested owner other more).hash p.digest ∨ p.MethodTaken owner other more := by
    rw [MethodTaken, MethodTaken, hNamed.requested, hNamed.digest, Table.contains, Table.contains]
    change ((p.methodTable.insert key _).get? _).isSome = true ↔ _
    rw [Table.get?_insert]
    split <;> simp [*]
  refine ⟨?_, key, rfl, (hTaken name params).mpr (Or.inl rfl),
    fun other more h => (hTaken other more).mpr (Or.inr h)⟩
  rw [MethodTaken, Table.contains, hFree]
  exact Bool.false_ne_true

/-- A change of a method leaves the names and the tables alone. -/
theorem modifyMethod_alike {id : MethodId} {f : MethodDef → MethodDef} {u : Unit}
    (h : modifyMethod id f p = .ok u q) :
    p.NamedAlike q ∧ q.methodTable = p.methodTable ∧ q.types = p.types := by
  obtain ⟨-, rfl⟩ := modifyMethod_ok h
  exact ⟨⟨rfl, rfl, rfl⟩, rfl, rfl⟩

/-- A method is copied in full. It was free, and is taken afterwards. -/
theorem cloneMethod_fresh {id : MethodId} {owner : TypeId} {name : String} {copy : MethodId}
    (h : cloneMethod id owner name .unchanged p = .ok copy q) : ∃ m, p.method? id = some m ∧
      ¬ p.MethodTaken owner name m.params ∧ copy = ⟨p.methods.length⟩ ∧ q.fields = p.fields ∧
      q.methods = p.methods ++ [{ m.copiedInto owner with name := name }] ∧
      q.types = p.types.modify owner.index (fun t => { t with methods := t.methods ++ [copy] }) ∧
      q.MethodTaken owner name m.params ∧
      ∀ other params, p.MethodTaken owner other params → q.MethodTaken owner other params := by
  obtain ⟨m, hMethod, rfl, -, hFields, hMethods⟩ := cloneMethod_ok h
  unfold cloneMethod at h
  simp only [Step.bind_ok, Step.get_ok, Step.lift_ok, Step.pure_ok] at h
  obtain ⟨_, _, ⟨rfl, rfl⟩, m', _, ⟨hSource, rfl⟩, new, u, hAdd, _, _, hModify, hNew, rfl⟩ := h
  obtain rfl : m' = m := Option.some_inj.mp ((methodDef_ok.mp hSource).symm.trans hMethod)
  obtain ⟨hFree, key, rfl, hTaken, hKept⟩ := addMethod_fresh hAdd
  obtain ⟨hAlike, hTable, hTypes⟩ := modifyMethod_alike hModify
  refine ⟨m', hMethod, hFree, rfl, hFields, ?_, hTypes, ?_, fun other params h => ?_⟩
  · rw [hMethods, ← MethodShape.unchanged_copy]
  · exact (hAlike.methodTaken_iff hTable).mpr hTaken
  · exact (hAlike.methodTaken_iff hTable).mpr (hKept other params h)

/-- The methods in `ids` have been copied into the type `copy`, and nothing else happened. -/
structure CopiedMethods (p : Program) (copy : TypeId) (ids : List MethodId) (clone : TypeClone)
    (new : List MethodId) (q : Program) : Prop where
  fields : q.fields = p.fields
  methods : Copied MethodId.index p.methods q.methods (·.copiedInto copy)
    (fun m => q.MethodTaken copy m.name m.params) clone.methods ids new
  types : ∀ id, q.type? id = (p.type? id).map fun t =>
    if id = copy then { t with methods := t.methods ++ new } else t

/-- A method is copied, once. -/
theorem CopiedMethods.add {copy : TypeId} {ids new : List MethodId} {clone : TypeClone}
    (h : p.CopiedMethods copy ids clone new q) {id : MethodId} {m : MethodDef} {c : MethodId}
    (hMethod : q.method? id = some m) (hClone : cloneMethod id copy m.name .unchanged q = .ok c r) :
    p.CopiedMethods copy (ids ++ [id]) { clone with methods := clone.methods.insert id c }
      (new ++ [c]) r := by
  obtain ⟨m', hSource, hFree, rfl, hFields, hMethods, hTypes, hTaken, hKept⟩ :=
    cloneMethod_fresh hClone
  obtain rfl : m' = m := Option.some_inj.mp (hSource.symm.trans hMethod)
  obtain ⟨-, hCopied⟩ := h.methods.add (c := ⟨q.methods.length⟩) (fun _ h => h) hMethod hFree rfl
    (fun other => hKept other.name other.params) hTaken
  refine ⟨hFields.trans h.fields, hMethods ▸ hCopied, fun type => ?_⟩
  rw [type?_of_modify hTypes, h.types]
  cases p.type? type with
  | none => rfl
  | some t => by_cases hHere : type = copy <;> simp [hHere]

/-- The methods that are gone through are copied. -/
theorem cloneMethods_copied {copy : TypeId} {done ids new : List MethodId}
    {clone clone' : TypeClone} (hDone : p.CopiedMethods copy done clone new q)
    (h : cloneMethods copy ids clone q = .ok clone' r) :
    (∃ new', p.CopiedMethods copy (done ++ ids) clone' new' r) ∧ clone'.source = clone.source ∧
      clone'.copy = clone.copy ∧ clone'.fields = clone.fields := by
  induction ids generalizing done new clone q with
  | nil =>
      obtain ⟨rfl, rfl⟩ := Step.pure_ok.mp h
      exact ⟨⟨new, (List.append_nil done).symm ▸ hDone⟩, rfl, rfl, rfl⟩
  | cons id ids ih =>
      rw [cloneMethods] at h
      obtain ⟨_, _, hGet, h⟩ := Step.bind_ok.mp h
      obtain ⟨rfl, rfl⟩ := Step.get_ok.mp hGet
      obtain ⟨m, _, hLift, h⟩ := Step.bind_ok.mp h
      obtain ⟨hMethod, rfl⟩ := Step.lift_ok.mp hLift
      obtain ⟨c, _, hClone, h⟩ := Step.bind_ok.mp h
      rw [List.append_cons]
      have hNext := hDone.add (methodDef_ok.mp hMethod) hClone
      obtain ⟨hCopied, hSource, hCopy, hFields⟩ := ih hNext h
      exact ⟨hCopied, hSource, hCopy, hFields⟩

end Methods

section Members

variable {clone : TypeClone}

/-- The code of a method names the copies, and nothing else happened. -/
structure Remapped (id : MethodId) (clone : TypeClone) (p q : Program) : Prop where
  types : q.types = p.types
  fields : q.fields = p.fields
  others : ∀ other, other ≠ id → q.method? other = p.method? other
  method : ∃ m body, p.method? id = some m ∧ q.method? id = some { m with body := body } ∧
    Option.Rel clone.CopiesCode m.body body

theorem remapMembers_ok (hApart : clone.Apart) {id : MethodId} {c : Bool}
    (h : remapMembers id clone p = .ok c q) : Remapped id clone p q := by
  unfold remapMembers at h
  obtain ⟨_, _, hGet, h⟩ := Step.bind_ok.mp h
  obtain ⟨rfl, rfl⟩ := Step.get_ok.mp hGet
  obtain ⟨m, _, hLift, h⟩ := Step.bind_ok.mp h
  obtain ⟨hMethod, rfl⟩ := Step.lift_ok.mp hLift
  have hMethod := methodDef_ok.mp hMethod
  cases hBody : m.body with
  | none =>
      rw [hBody] at h
      obtain ⟨-, rfl⟩ := Step.pure_ok.mp h
      exact ⟨rfl, rfl, fun _ _ => rfl, m, m.body, hMethod, hMethod, hBody ▸ .none⟩
  | some b =>
      simp only [hBody] at h
      split at h
      · rename_i hNone
        obtain ⟨-, rfl⟩ := Step.pure_ok.mp h
        have hRun : ((b.instructions.filterMap fun i =>
            (clone.mapOperand? i.operand).map fun operand => (i.id, operand)).forM
              fun change => MethodBody.setOperand change.1 change.2) b = .ok ⟨⟩ b := by
          rw [List.isEmpty_iff.mp hNone]
          rfl
        exact ⟨rfl, rfl, fun _ _ => rfl, m, m.body, hMethod, hMethod,
          hBody ▸ .some (.of_setOperands hApart (.refl b) hRun)⟩
      · obtain ⟨_, _, hEdit, h⟩ := Step.bind_ok.mp h
        obtain ⟨-, rfl⟩ := Step.pure_ok.mp h
        obtain ⟨m', b₀, b', hMethod', hCode, hRun, rfl⟩ := editBody_ok hEdit
        obtain rfl : m' = m := Option.some_inj.mp (hMethod'.symm.trans hMethod)
        obtain rfl : b₀ = b := Option.some_inj.mp (hCode.symm.trans hBody)
        have hAfter (other : MethodId) : (p.touch.putBody id b').method? other
            = (p.method? other).map fun m => if id = other then { m with body := some b' } else m :=
          method?_modify p.touch _ id other
        have hShares : b₀.Shares b' := Keeps.forM (fun _ _ => MethodBody.shares_setOperand) hRun
        refine ⟨rfl, rfl, fun other hOther => ?_, m', some b', hMethod, ?_, ?_⟩
        · rw [hAfter]
          simp [Ne.symm hOther]
        · rw [hAfter, hMethod]
          simp
        · rw [hBody]
          exact .some (.of_setOperands hApart hShares hRun)

/-- All copied methods name the copies. -/
theorem remapAll_ok (hApart : clone.Apart) {ids : List MethodId} {u : Unit} (hNodup : ids.Nodup)
    (h : (ids.forM fun m => do let _ ← remapMembers m clone) p = .ok u q) :
    q.types = p.types ∧ q.fields = p.fields ∧
      (∀ id, id ∉ ids → q.method? id = p.method? id) ∧
      ∀ id ∈ ids, ∃ m body, p.method? id = some m ∧ q.method? id = some { m with body := body } ∧
        Option.Rel clone.CopiesCode m.body body := by
  induction ids generalizing p with
  | nil =>
      obtain ⟨-, rfl⟩ := Step.pure_ok.mp h
      exact ⟨rfl, rfl, fun _ _ => rfl, fun _ hMem => (List.not_mem_nil hMem).elim⟩
  | cons id ids ih =>
      obtain ⟨_, p₁, hFirst, hRest⟩ := Step.bind_ok.mp h
      obtain ⟨_, _, hRemap, hEnd⟩ := Step.bind_ok.mp hFirst
      obtain ⟨-, rfl⟩ := Step.pure_ok.mp hEnd
      have hFirst := remapMembers_ok hApart hRemap
      obtain ⟨hNew, hNodup⟩ := List.nodup_cons.mp hNodup
      obtain ⟨hTypes, hFields, hOthers, hMethods⟩ := ih hNodup hRest
      refine ⟨hTypes.trans hFirst.types, hFields.trans hFirst.fields, fun other hOther => ?_,
        fun other hMem => ?_⟩
      · obtain ⟨hNe, hOther⟩ := not_or.mp (mt List.mem_cons.mpr hOther)
        exact (hOthers other hOther).trans (hFirst.others other hNe)
      · rcases List.mem_cons.mp hMem with rfl | hMem
        · obtain ⟨m, body, hMethod, hAfter, hBody⟩ := hFirst.method
          exact ⟨m, body, hMethod, (hOthers other hNew).trans hAfter, hBody⟩
        · have hNe : other ≠ id := fun hSame => hNew (hSame ▸ hMem)
          rw [← hFirst.others other hNe]
          exact hMethods other hMem

/-- Properties are added one after the other. -/
theorem addProperties_ok {type : TypeId} {properties : List PropertyDef}
    {g : PropertyDef → PropertyDef} {u : Unit}
    (h : (properties.forM fun property => addProperty type (g property)) p = .ok u q) :
    q.fields = p.fields ∧ q.methods = p.methods ∧
      ∀ id, q.type? id = (p.type? id).map fun t =>
        if id = type then { t with properties := t.properties ++ properties.map g } else t := by
  induction properties generalizing p with
  | nil =>
      obtain ⟨-, rfl⟩ := Step.pure_ok.mp h
      refine ⟨rfl, rfl, fun id => ?_⟩
      cases p.type? id <;> simp
  | cons property properties ih =>
      obtain ⟨_, p₁, hFirst, hRest⟩ := Step.bind_ok.mp h
      obtain ⟨hFields₁, hMethods₁, hTypes₁⟩ := modifyType_types hFirst
      obtain ⟨hFields, hMethods, hTypes⟩ := ih hRest
      refine ⟨hFields.trans hFields₁, hMethods.trans hMethods₁, fun id => ?_⟩
      rw [hTypes, hTypes₁]
      cases p.type? id with
      | none => rfl
      | some t => by_cases hHere : id = type <;> simp [hHere]

end Members

section Types

/-- A type is registered without members, and listed where it is nested. -/
theorem addType_fresh {nameSpace name : String} {declaring : Option TypeId}
    {flags : FlagSet TypeFlag} {id : TypeId}
    (h : addType nameSpace name declaring flags p = .ok id q) : id = ⟨p.types.length⟩ ∧
      q.fields = p.fields ∧ q.methods = p.methods ∧
      (∃ fullName, q.type? id = some ⟨if declaring.isSome then "" else nameSpace, name, fullName,
        declaring, none, [], [], [], [], [], flags⟩) ∧
      ∀ other t, p.type? other = some t → q.type? other
        = some (if declaring = some other then { t with nested := t.nested ++ [id] } else t) := by
  obtain ⟨rfl, -, hFields, hMethods, -⟩ := addType_ok h
  unfold addType at h
  simp only [Step.bind_ok, Step.get_ok, Step.lift_ok] at h
  obtain ⟨_, _, ⟨rfl, rfl⟩, fullName, _, ⟨hName, rfl⟩, h⟩ := h
  split at h
  · simp [Step.bind_ok, Step.throw_ok] at h
  simp only [Step.bind_ok, Step.set_ok, Step.pure_ok] at h
  obtain ⟨_, _, rfl, -, rfl⟩ := h
  refine ⟨rfl, hFields, hMethods, ⟨fullName, ?_⟩, fun other t hType => ?_⟩
  · cases declaring with
    | none => exact List.getElem?_concat_length
    | some outer =>
        obtain ⟨t, hOuter, -⟩ := Outcome.bind_ok.mp hName
        have hThere : outer.index < p.types.length :=
          (List.getElem?_eq_some_iff.mp (typeDef_ok.mp hOuter)).1
        simp only [type?, List.getElem?_modify, List.getElem?_concat_length]
        simp [Nat.ne_of_lt hThere]
  · have hOld : other.index < p.types.length := (List.getElem?_eq_some_iff.mp hType).1
    cases declaring with
    | none => exact (List.getElem?_append_left hOld).trans hType
    | some outer =>
        have hSame : outer.index = other.index ↔ outer = other :=
          ⟨fun h => by cases outer; cases other; exact congrArg _ h, congrArg _⟩
        simp only [type?, List.getElem?_modify, List.getElem?_append_left hOld]
        rw [← type?, hType]
        simp only [hSame, Option.some_inj]
        split <;> rfl

end Types

/-- What was in the program before, it is as it was, but that the new type is listed where it is
nested. -/
structure Spares (p : Program) (new : TypeId) (declaring : Option TypeId) (q : Program) : Prop where
  types : ∀ id t, p.type? id = some t → q.type? id
    = some (if declaring = some id then { t with nested := t.nested ++ [new] } else t)
  fields : ∀ id f, p.field? id = some f → q.field? id = some f
  methods : ∀ id m, p.method? id = some m → q.method? id = some m

end Program

/-- A type of the program `p`, and its copy in the program `q`. The members of the copy are copies
of those of the type, one for one. -/
structure TypeClone.Isomorphic (clone : TypeClone) (p q : Program) (t t' : TypeDef) : Prop where
  name : t'.name = t.name
  flags : t'.flags = t.flags
  base : t'.base = t.base
  interfaces : t'.interfaces = t.interfaces
  fields : clone.fields.Pairs (t.fields.filter p.usesField) t'.fields
  methods : clone.methods.Pairs t.methods t'.methods
  fieldCopies : ∀ f f', clone.fields.get? f = some f' → ∃ copy d, clone.copy = some copy ∧
    p.field? f = some d ∧ q.field? f' = some (clone.mapField copy d)
  methodCopies : ∀ m m', clone.methods.get? m = some m' → ∃ d d',
    p.method? m = some d ∧ q.method? m' = some d' ∧ clone.CopiesMethod d d'
  properties : t'.properties = t.properties.map clone.mapProperty

namespace Program

theorem CopiedFields.start (p : Program) (copy : TypeId) (clone : TypeClone)
    (h : clone.fields = ∅) : p.CopiedFields copy [] clone [] p := by
  refine ⟨rfl, h ▸ .start _ _ _ _, fun id => ?_⟩
  cases p.type? id <;> simp

theorem CopiedMethods.start (p : Program) (copy : TypeId) (clone : TypeClone)
    (h : clone.methods = ∅) : p.CopiedMethods copy [] clone [] p := by
  refine ⟨rfl, h ▸ .start _ _ _ _, fun id => ?_⟩
  cases p.type? id <;> simp

/-- What copying a type comes to: a type that is filled with copies of the members, one kind after the
other, then the code of the copies, then properties. -/
structure CopiedType (p : Program) (id : TypeId) (declaring : Option TypeId) (clone : TypeClone)
    (t t' : TypeDef) (q : Program) : Prop where
  source : clone.source = some id
  copy : clone.copy = some ⟨p.types.length⟩
  apart : clone.Apart
  there : p.type? id = some t
  shape : ∃ fullName fields methods, t' = ⟨if declaring.isSome then "" else t.nameSpace, t.name,
    fullName, declaring, t.base, t.interfaces, fields, methods, [],
    t.properties.map clone.mapProperty, t.flags⟩
  new : q.type? ⟨p.types.length⟩ = some t'
  old : ∀ other d, p.type? other = some d → q.type? other = some (if declaring = some other then
    { d with nested := d.nested ++ [⟨p.types.length⟩] } else d)
  fields : ∃ Taken, Copied FieldId.index p.fields q.fields (clone.mapField ⟨p.types.length⟩) Taken
    clone.fields (t.fields.filter p.usesField) t'.fields
  methods : ∃ r Taken, Copied MethodId.index p.methods r (·.copiedInto ⟨p.types.length⟩) Taken
    clone.methods t.methods t'.methods ∧
    (∀ m, m ∉ t'.methods → q.method? m = r[m.index]?) ∧
    ∀ m ∈ t'.methods, ∃ d body, r[m.index]? = some d ∧ q.method? m = some { d with body := body } ∧
      Option.Rel clone.CopiesCode d.body body

theorem cloneType_copied {p q : Program} {id : TypeId} {declaring : Option TypeId}
    {clone : TypeClone} (h : cloneType id declaring p = .ok clone q) :
    ∃ t t', p.CopiedType id declaring clone t t' q := by
  unfold cloneType at h
  simp only [Step.bind_ok, Step.get_ok, Step.lift_ok] at h
  obtain ⟨_, _, ⟨rfl, rfl⟩, t, _, ⟨hSource, rfl⟩, new, p₁, hAdd, _, p₂, hModify, withFields, p₃,
    hFields, whole, p₄, hMethods, _, p₅, hRemap, _, p₆, hProperties, hEnd⟩ := h
  obtain ⟨rfl, rfl⟩ := Step.pure_ok.mp hEnd
  have hSource := typeDef_ok.mp hSource
  have hThere : id.index < p.types.length := (List.getElem?_eq_some_iff.mp hSource).1
  obtain ⟨rfl, hFields₁, hMethods₁, ⟨fullName, hNew₁⟩, hTypes₁⟩ := addType_fresh hAdd
  obtain ⟨hFields₂, hMethods₂, hTypes₂⟩ := modifyType_types hModify
  obtain ⟨⟨fields, hCopied₃⟩, hSource₃, hCopy₃, hMethods₃⟩ :=
    cloneFields_copied (.start p₂ _ _ rfl) hFields
  obtain ⟨⟨methods, hCopied₄⟩, hSource₄, hCopy₄, hFields₄⟩ :=
    cloneMethods_copied (.start p₃ _ _ hMethods₃) hMethods
  have hFrom : whole.source = some id := hSource₄.trans hSource₃
  have hTo : whole.copy = some ⟨p.types.length⟩ := hCopy₄.trans hCopy₃
  have hApart : whole.Apart := by
    refine ⟨?_, fun f f' hGet => ?_, fun m m' hGet => hCopied₄.methods.apart hGet⟩
    · rw [hFrom, hTo]
      exact fun hSame => Nat.ne_of_gt hThere (congrArg TypeId.index (Option.some_inj.mp hSame))
    · rw [hFields₄] at hGet ⊢
      exact hCopied₃.fields.apart hGet
  have hEntries := hCopied₄.methods.pairs.entries
  have hNodup : whole.methods.values.Nodup :=
    hEntries.nodup_iff.mpr hCopied₄.methods.pairs.values_nodup
  obtain ⟨hTypes₅, hFields₅, hOthers₅, hMethods₅⟩ := remapAll_ok hApart hNodup hRemap
  obtain ⟨hFields₆, hMethods₆, hTypes₆⟩ := addProperties_ok hProperties
  have hTypes (type : TypeId) : p₆.type? type = (p₁.type? type).map fun d =>
      if type = ⟨p.types.length⟩ then { d with
        base := t.base
        interfaces := t.interfaces
        fields := d.fields ++ fields
        methods := d.methods ++ methods
        properties := d.properties ++ t.properties.map whole.mapProperty } else d := by
    have hProperty := List.map_congr_left fun property (_ : property ∈ t.properties) =>
      hApart.foldl_remap_eq property
    have hKept : p₅.type? type = p₄.type? type := by rw [type?, type?, hTypes₅]
    rw [hTypes₆, hKept, hCopied₄.types, hCopied₃.types, hTypes₂, hProperty]
    cases p₁.type? type with
    | none => rfl
    | some d => by_cases hHere : type = ⟨p.types.length⟩ <;> simp [hHere]
  refine ⟨t, _, hFrom, hTo, hApart, hSource, ⟨fullName, fields, methods, rfl⟩, ?_, ?_, ?_, ?_⟩
  · rw [hTypes, hNew₁]
    simp
  · intro other d hType
    have hOld : other ≠ ⟨p.types.length⟩ := fun hSame =>
      Nat.ne_of_lt (List.getElem?_eq_some_iff.mp hType).1 (congrArg TypeId.index hSame)
    rw [hTypes, hTypes₁ other d hType]
    simp [hOld]
  · have hUses : p₂.usesField = p.usesField := funext fun f => by
      rw [usesField, usesField, field?, field?, hFields₂, hFields₁]
    have hMap : withFields.mapField ⟨p.types.length⟩ = whole.mapField ⟨p.types.length⟩ :=
      funext fun d => by
        rw [TypeClone.mapField, TypeClone.mapField, TypeClone.mapType_congr hSource₄ hCopy₄]
    refine ⟨fun f => f.isRetired = false ∧ p₃.FieldTaken ⟨p.types.length⟩ f.name, ?_⟩
    rw [hFields₆, hFields₅, hCopied₄.fields, ← hFields₁, ← hFields₂, hFields₄, ← hUses, ← hMap]
    exact hCopied₃.fields
  · have hMethod (m : MethodId) : p₆.method? m = p₅.method? m := by
      rw [method?, method?, hMethods₆]
    have hMem (m : MethodId) : m ∈ methods ↔ m ∈ whole.methods.values := hEntries.mem_iff.symm
    refine ⟨p₄.methods, fun m => p₄.MethodTaken ⟨p.types.length⟩ m.name m.params, ?_,
      fun m hNot => ?_, fun m hIn => ?_⟩
    · rw [← hMethods₁, ← hMethods₂, ← hCopied₃.methods]
      exact hCopied₄.methods
    · rw [hMethod]
      exact hOthers₅ m fun hIn => hNot ((hMem m).mpr hIn)
    · rw [hMethod]
      exact hMethods₅ m ((hMem m).mp hIn)

/-- Copying a type makes one that is like it, with members of its own, and spares what there was. -/
theorem cloneType_isomorphic {p q : Program} {id : TypeId} {declaring : Option TypeId}
    {clone : TypeClone} (h : cloneType id declaring p = .ok clone q) :
    ∃ t t', p.type? id = some t ∧ q.type? ⟨p.types.length⟩ = some t' ∧ t'.declaring = declaring ∧
      clone.source = some id ∧ clone.copy = some ⟨p.types.length⟩ ∧ clone.Isomorphic p q t t' ∧
      p.Spares ⟨p.types.length⟩ declaring q := by
  obtain ⟨t, t', hCopied⟩ := cloneType_copied h
  obtain ⟨fullName, fields, methods, hShape⟩ := hCopied.shape
  obtain ⟨_, hFields⟩ := hCopied.fields
  obtain ⟨r, _, hMethods, hOthers, hCode⟩ := hCopied.methods
  refine ⟨t, t', hCopied.there, hCopied.new, by rw [hShape], hCopied.source, hCopied.copy, ?_, ?_⟩
  · refine ⟨by rw [hShape], by rw [hShape], by rw [hShape], by rw [hShape], hFields.pairs,
      hMethods.pairs, fun f f' hGet => ?_, fun m m' hGet => ?_, by rw [hShape]⟩
    · obtain ⟨d, hBefore, hAfter⟩ := hFields.copies f f' hGet
      exact ⟨_, d, hCopied.copy, hBefore, hAfter⟩
    · obtain ⟨d, hBefore, hAfter⟩ := hMethods.copies m m' hGet
      obtain ⟨d', body, hThere, hMethod, hBody⟩ := hCode m' (hMethods.pairs.mem_values hGet)
      obtain rfl := Option.some_inj.mp (hThere.symm.trans hAfter)
      exact ⟨d, _, hBefore, hMethod, hCopied.copy, rfl, rfl, rfl, rfl, rfl, hBody⟩
  · refine ⟨hCopied.old, fun f d hField => hFields.later hField, fun m d hMethod => ?_⟩
    have hOld : m ∉ t'.methods := fun hMem =>
      Nat.not_lt.mpr (hMethods.bounds m hMem).1 (List.getElem?_eq_some_iff.mp hMethod).1
    rw [hOthers m hOld]
    exact hMethods.later hMethod

end Program

section Examples

open Program

/-- A type with a field of the type itself, an accessor that reads it, and a method that reads it and
calls the accessor, the call numbered `second`. -/
def linked (second : Nat) : Edit ContextPlan := do
  let node ← addType "G" "Node" none ⟨0⟩
  let _ ← addType "G" "Host" none ⟨0⟩
  let next ← addField node "next" (.named node) ⟨0⟩
  let getter ← addMethod node "get_Next" [] (.named node) ⟨0⟩
  let walk ← addMethod node "Walk" [] (.named node) ⟨0⟩
  addProperty node ⟨"Next", some getter, none⟩
  setBody getter (.fresh [.onArg .ldarg 0, .onField .ldfld next, .plain .ret])
  setBody walk (.ofParts [⟨⟨0⟩, .ldarg, .arg 0⟩, ⟨⟨1⟩, .ldfld, .field next⟩,
    ⟨⟨second⟩, .call, .method getter⟩, ⟨⟨3⟩, .ret, .none⟩] [] [])
  pure default

/-- The copy has the two methods, and the copied code names the copied field and the copied
accessor. -/
theorem linked_copied :
    ∃ clone q, cloneType ⟨0⟩ (some ⟨1⟩) (built (linked 2)).1 = .ok clone q ∧
      (∃ t t', (built (linked 2)).1.type? ⟨0⟩ = some t ∧ q.type? ⟨2⟩ = some t' ∧
        t'.declaring = some ⟨1⟩ ∧ clone.source = some ⟨0⟩ ∧ clone.copy = some ⟨2⟩ ∧
        clone.Isomorphic (built (linked 2)).1 q t t' ∧
        (built (linked 2)).1.Spares ⟨2⟩ (some ⟨1⟩) q) ∧
      ∃ m ∈ q.method? ⟨3⟩, ∃ b ∈ m.body, b.instructions.map (·.operand)
        = [.arg 0, .field ⟨1⟩, .method ⟨2⟩, .none] := by
  have hCheck : Step.yields (cloneType ⟨0⟩ (some ⟨1⟩) (built (linked 2)).1) (fun _ q =>
      decide (∃ m ∈ q.method? ⟨3⟩, ∃ b ∈ m.body, b.instructions.map (·.operand)
        = [.arg 0, .field ⟨1⟩, .method ⟨2⟩, .none])) = true := by decide +kernel
  obtain ⟨clone, q, hClone, hCheck⟩ := Step.ok_of_yields hCheck
  exact ⟨clone, q, hClone, cloneType_isomorphic hClone, of_decide_eq_true hCheck⟩

/-- Where the call has the number of the load, the load gets both operands, and the call still names
the accessor that was copied. -/
theorem linked_astray :
    ∃ clone q, cloneType ⟨0⟩ (some ⟨1⟩) (built (linked 1)).1 = .ok clone q ∧
      clone.methods.get? ⟨1⟩ = some ⟨3⟩ ∧ clone.methods.get? ⟨0⟩ = some ⟨2⟩ ∧
      ∃ m ∈ (built (linked 1)).1.method? ⟨1⟩, ∃ m' ∈ q.method? ⟨3⟩, ∃ b ∈ m.body, ∃ b' ∈ m'.body,
        b'.instructions.map (·.operand) = [.arg 0, .method ⟨2⟩, .method ⟨0⟩, .none] ∧
        b'.instructions ≠ b.instructions.map clone.mapInstruction := by
  have hCheck : Step.yields (cloneType ⟨0⟩ (some ⟨1⟩) (built (linked 1)).1) (fun clone q =>
      decide (clone.methods.get? ⟨1⟩ = some ⟨3⟩ ∧ clone.methods.get? ⟨0⟩ = some ⟨2⟩ ∧
        ∃ m ∈ (built (linked 1)).1.method? ⟨1⟩, ∃ m' ∈ q.method? ⟨3⟩, ∃ b ∈ m.body,
          ∃ b' ∈ m'.body,
          b'.instructions.map (·.operand) = [.arg 0, .method ⟨2⟩, .method ⟨0⟩, .none] ∧
          b'.instructions ≠ b.instructions.map clone.mapInstruction)) = true := by decide +kernel
  obtain ⟨clone, q, hClone, hCheck⟩ := Step.ok_of_yields hCheck
  exact ⟨clone, q, hClone, of_decide_eq_true hCheck⟩

end Examples

end ContextBinding
