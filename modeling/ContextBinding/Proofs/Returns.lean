import ContextBinding.Proofs.Patching

/-! What code calls right before it returns. Ahead of a return stands code that control passes from
its start to its end. Adapting the body leaves the calls in it as they are; code that is put in ahead
of all returns comes last. -/

namespace ContextBinding

/-- The method that an instruction calls, if it is among those that are watched. -/
def Instruction.watched? (watched : List MethodId) (i : Instruction) : Option MethodId :=
  if i.opcode = .call then i.method?.filter watched.contains else none

namespace MethodBody

/-- The watched methods that code calls, in its order. -/
def callsTo (watched : List MethodId) (code : List Instruction) : List MethodId :=
  code.filterMap (Instruction.watched? watched)

/-- Control that comes to `last` over some code has passed all of it: nothing in the code jumps, and
past its start it is named by no jump and no boundary of a handler. -/
structure Straight (b : MethodBody) (code : List Instruction) (last : Instruction) : Prop where
  falls : ∀ i ∈ code, i.opcode.flow = .next
  inside : ∀ i ∈ (code ++ [last]).tail, i.id ∉ b.references

/-- Straight code ahead of each return calls certain ones of the watched methods, in order. -/
def Announces (b : MethodBody) (watched : List MethodId) (calls : InstrId → List MethodId) : Prop :=
  ∀ last ∈ b.instructions, last.opcode = .ret → ∃ start code rest,
    b.instructions = start ++ code ++ last :: rest ∧ b.Straight code last ∧
      callsTo watched code = calls last.id

/-- No reference is to an instruction that is yet to come. -/
def Settled (b : MethodBody) : Prop := ∀ id ∈ b.references, id.index < b.nextId

/-- A later body has code in the place of each instruction. Nothing names what is new in it, except
for the start of what stands for an instruction that was named. -/
structure Expands (b : MethodBody) (g : Instruction → List Instruction) (b' : MethodBody) :
    Prop where
  code : b'.instructions = b.instructions.flatMap g
  heads : ∀ i ∈ b.instructions, i.id ∉ b.references → ∀ j ∈ g i, j.id ∉ b'.references
  tails : ∀ i ∈ b.instructions, ∀ j ∈ (g i).tail, j.id ∉ b'.references
  next : b.nextId ≤ b'.nextId
  settled : b'.Settled

variable {b b' : MethodBody} {watched : List MethodId} {calls extra : InstrId → List MethodId}
  {g : Instruction → List Instruction}

theorem mem_tail_flatMap {code : List Instruction} {j : Instruction}
    (h : j ∈ (code.flatMap g).tail) : (∃ i ∈ code, j ∈ (g i).tail) ∨ ∃ i ∈ code.tail, j ∈ g i := by
  cases code with
  | nil => cases h
  | cons i code =>
      have hRest (hMem : j ∈ code.flatMap g) : ∃ i ∈ (i :: code).tail, j ∈ g i :=
        List.mem_flatMap.mp hMem
      rw [List.flatMap_cons] at h
      cases hFirst : g i with
      | nil =>
          rw [hFirst] at h
          exact Or.inr (hRest (List.mem_of_mem_tail h))
      | cons first rest =>
          rw [hFirst, List.cons_append, List.tail_cons, List.mem_append] at h
          refine h.imp (fun hMem => ⟨i, List.mem_cons_self .., ?_⟩) hRest
          rwa [hFirst]

/-- Code that may come in the place of an instruction. A return stays one, and code that is put in
ahead of it calls the methods in `ahead`. -/
structure StandsFor (watched : List MethodId) (i : Instruction) (ahead : List MethodId)
    (code : List Instruction) : Prop where
  falls : i.opcode.flow = .next → ∀ j ∈ code, j.opcode.flow = .next
  calls : i.opcode ≠ .ret → callsTo watched code = callsTo watched [i]
  others : i.opcode ≠ .ret → ∀ j ∈ code, j.opcode ≠ .ret
  returns : i.opcode = .ret → ∃ seq last rest, code = seq ++ last :: rest ∧ last.id = i.id ∧
    (∀ j ∈ seq ++ rest, j.opcode.flow = .next) ∧ callsTo watched seq = ahead

/-- What stands ahead of returns stays there, with what is put in behind it. -/
theorem Announces.expands (h : b.Announces watched calls) (hExpands : b.Expands g b')
    (hStands : ∀ i ∈ b.instructions, StandsFor watched i (extra i.id) (g i)) :
    b'.Announces watched fun id => calls id ++ extra id := by
  intro last' hMem' hReturn'
  rw [hExpands.code] at hMem'
  obtain ⟨i, hMem, hNew⟩ := List.mem_flatMap.mp hMem'
  have hReturn : i.opcode = .ret :=
    by_contra fun hOther => (hStands i hMem).others hOther last' hNew hReturn'
  obtain ⟨seq, last, behind, hg, hId, hFalls, hSeq⟩ := (hStands i hMem).returns hReturn
  obtain rfl : last' = last := by
    by_contra hOther
    have hElse : last' ∈ seq ++ behind := by
      rw [hg] at hNew
      simp only [List.mem_append, List.mem_cons, hOther, false_or] at hNew ⊢
      exact hNew
    have hNext := hFalls last' hElse
    rw [hReturn'] at hNext
    cases hNext
  obtain ⟨start, code, rest, hCode, hStraight, hCalls⟩ := h i hMem hReturn
  have hWithin {j : Instruction} (hj : j ∈ code) : j ∈ b.instructions := by
    simp [hCode, hj]
  have hSame : callsTo watched (code.flatMap g) = callsTo watched code := by
    unfold callsTo
    conv_rhs => rw [← List.flatMap_singleton' code]
    rw [List.filterMap_flatMap, List.filterMap_flatMap]
    refine List.flatMap_congr fun j hj => (hStands j (hWithin hj)).calls fun hOther => ?_
    have hNext := hStraight.falls j hj
    rw [hOther] at hNext
    cases hNext
  refine ⟨start.flatMap g, code.flatMap g ++ seq, behind ++ rest.flatMap g, ?_, ⟨?_, ?_⟩, ?_⟩
  · rw [hExpands.code, hCode]
    simp [hg]
  · intro j hj
    rcases List.mem_append.mp hj with hj | hj
    · obtain ⟨k, hk, hj⟩ := List.mem_flatMap.mp hj
      exact (hStands k (hWithin hk)).falls (hStraight.falls k hk) j hj
    · exact hFalls j (List.mem_append_left _ hj)
  · intro j hj
    have hThere : j ∈ ((code ++ [i]).flatMap g).tail := by
      have hWhole : (code ++ [i]).flatMap g = code.flatMap g ++ seq ++ [last'] ++ behind := by
        simp [hg]
      rw [hWhole, List.tail_append_of_ne_nil (by simp)]
      exact List.mem_append_left _ hj
    rcases mem_tail_flatMap hThere with ⟨k, hk, hj⟩ | ⟨k, hk, hj⟩
    · refine hExpands.tails k ?_ j hj
      rcases List.mem_append.mp hk with hk | hk
      · exact hWithin hk
      · exact List.mem_singleton.mp hk ▸ hMem
    · refine hExpands.heads k ?_ (hStraight.inside k hk) j hj
      rcases List.mem_append.mp (List.mem_of_mem_tail hk) with hk | hk
      · exact hWithin hk
      · exact List.mem_singleton.mp hk ▸ hMem
  · change callsTo watched _ = calls last'.id ++ extra last'.id
    rw [callsTo, List.filterMap_append, hId]
    exact congr_arg₂ (· ++ ·) (hSame.trans (hId ▸ hCalls)) hSeq

section Edits

variable {id anchor : InstrId} {seq : List Instruction}

/-- The place of a number in the code. -/
theorem split_position (hNumbered : b.Numbered) {position : Nat}
    (hPosition : b.position? id = some position) : ∃ ahead i behind,
      b.instructions = ahead ++ i :: behind ∧ i.id = id ∧ ahead.length = position ∧
        (∀ j ∈ ahead, j.id ≠ id) ∧ ∀ j ∈ behind, j.id ≠ id := by
  obtain ⟨i, hAt, rfl⟩ := getElem?_of_position hPosition
  obtain ⟨hBound, hAt⟩ := List.getElem?_eq_some_iff.mp hAt
  have hCode : b.instructions
      = b.instructions.take position ++ i :: b.instructions.drop (position + 1) := by
    rw [← hAt, List.cons_getElem_drop_succ, List.take_append_drop]
  have hDistinct := hNumbered.distinct
  rw [hCode, List.map_append, List.map_cons, List.nodup_append] at hDistinct
  obtain ⟨-, hBehind, hAhead⟩ := hDistinct
  refine ⟨_, i, _, hCode, rfl, List.length_take_of_le (Nat.le_of_lt hBound), fun j hj => ?_,
    fun j hj hSame => ?_⟩
  · exact hAhead _ (List.mem_map_of_mem hj) _ (List.mem_cons_self ..)
  · exact (List.nodup_cons.mp hBehind).1 (hSame ▸ List.mem_map_of_mem hj)

/-- Only at one place there is other code than before. -/
theorem flatMap_place {f : Instruction → List Instruction} {k : Instruction → Instruction}
    {ahead behind : List Instruction} {i : Instruction} (hId : i.id = id)
    (hAhead : ∀ j ∈ ahead, j.id ≠ id) (hBehind : ∀ j ∈ behind, j.id ≠ id) :
    (ahead ++ i :: behind).flatMap (fun j => if j.id = id then f j else [k j])
      = ahead.map k ++ f i ++ behind.map k := by
  have hElse {code : List Instruction} (h : ∀ j ∈ code, j.id ≠ id) :
      code.flatMap (fun j => if j.id = id then f j else [k j]) = code.map k := by
    rw [List.flatMap_congr (g := fun j => [k j]) fun j hj => if_neg (h j hj)]
    exact List.map_eq_flatMap.symm
  rw [List.flatMap_append, List.flatMap_cons, if_pos hId, hElse hAhead, hElse hBehind,
    List.append_assoc]

/-- Renaming references renames each of them. -/
theorem references_retarget (b : MethodBody) (source target : InstrId) :
    (b.retarget source target).references
      = b.references.map fun name => if name = source then target else name := by
  have hCode : (b.instructions.map (Instruction.retarget source target)).flatMap (·.targetIds)
      = (b.instructions.flatMap (·.targetIds)).map fun name =>
        if name = source then target else name := by
    rw [List.flatMap_map, List.map_flatMap]
    exact List.flatMap_congr fun i _ => targetIds_retarget i
  have hHandlers : (b.handlers.map (Handler.mapBoundaries fun name =>
        if name = source then target else name)).flatMap (·.boundaries)
      = (b.handlers.flatMap (·.boundaries)).map fun name =>
        if name = source then target else name := by
    rw [List.flatMap_map, List.map_flatMap]
    rfl
  rw [references, references, List.map_append, ← hCode, ← hHandlers]
  rfl

/-- The new name comes from the old one. -/
theorem mem_references_renamed {source target : InstrId}
    (h : id ∈ (b.retarget source target).references) :
    id = target ∧ source ∈ b.references ∨ id ∈ b.references ∧ id ≠ source := by
  rw [references_retarget] at h
  obtain ⟨name, hMem, rfl⟩ := List.mem_map.mp h
  by_cases hSource : name = source
  · exact Or.inl ⟨if_pos hSource, hSource ▸ hMem⟩
  · rw [if_neg hSource]
    exact Or.inr ⟨hMem, hSource⟩

theorem mem_tail_number {first : Nat} {j : Instruction} (h : j ∈ (number first seq).tail) :
    first < j.id.index := by
  cases seq with
  | nil => cases h
  | cons i seq => exact (mem_number h).2.1

/-- Code that is put in ahead of an instruction stands for it together with it. -/
theorem insertBefore_expands (hNumbered : b.Numbered) (hSettled : b.Settled) (hSome : seq ≠ [])
    (hTargets : seq.flatMap (·.targetIds) = []) {ids : List InstrId}
    (h : insertBefore anchor seq b = .ok ids b') :
    b.Expands (fun i =>
      if i.id = anchor then number b.nextId seq ++ [i.retarget anchor ⟨b.nextId⟩]
      else [i.retarget anchor ⟨b.nextId⟩]) b' := by
  obtain ⟨position, _, hRequire, h⟩ := Step.bind_ok.mp h
  obtain ⟨hPosition, rfl⟩ := require_ok.mp hRequire
  rw [if_neg (by simpa using hSome)] at h
  obtain ⟨_, _, hGet, h⟩ := Step.bind_ok.mp h
  obtain ⟨rfl, rfl⟩ := Step.get_ok.mp hGet
  obtain ⟨_, _, hSet, h⟩ := Step.bind_ok.mp h
  obtain rfl := Step.set_ok.mp hSet
  obtain ⟨-, rfl⟩ := Step.pure_ok.mp h
  obtain ⟨ahead, i, behind, hCode, hId, hLength, hAhead, hBehind⟩ := split_position hNumbered hPosition
  have hReferences {id : InstrId}
      (hMem : id ∈ ((b.retarget anchor ⟨b.nextId⟩).splice position seq).references) :
      id = ⟨b.nextId⟩ ∧ anchor ∈ b.references ∨ id ∈ b.references ∧ id ≠ anchor := by
    rw [mem_references_splice, hTargets] at hMem
    exact mem_references_renamed (hMem.resolve_right (List.not_mem_nil))
  have hOld {j : Instruction} (hj : j ∈ b.instructions) : j.id ≠ ⟨b.nextId⟩ := fun hSame =>
    absurd (hNumbered.below j hj) (by rw [hSame]; exact Nat.lt_irrefl _)
  have hUnnamed {id : InstrId} (hNew : b.nextId ≤ id.index) : id ∉ b.references := fun hMem =>
    absurd (hSettled id hMem) (Nat.not_lt.mpr hNew)
  refine ⟨?_, fun j hj hFree k hk hMem => ?_, fun j hj k hk hMem => ?_, Nat.le_add_right ..,
    fun id hMem => ?_⟩
  · rw [hCode, flatMap_place hId hAhead hBehind]
    simp [splice, retarget, hCode, ← hLength]
  · split at hk
    · rename_i hSame
      rcases List.mem_append.mp hk with hk | hk
      · rcases hReferences hMem with ⟨-, hNamed⟩ | ⟨hNamed, -⟩
        · exact hFree (hSame ▸ hNamed)
        · exact hUnnamed (mem_number hk).2.1 hNamed
      · obtain rfl := List.mem_singleton.mp hk
        rcases hReferences hMem with ⟨-, hNamed⟩ | ⟨hNamed, -⟩
        · exact hFree (hSame ▸ hNamed)
        · exact hFree hNamed
    · obtain rfl := List.mem_singleton.mp hk
      rcases hReferences hMem with ⟨hSame, -⟩ | ⟨hNamed, -⟩
      · exact hOld hj hSame
      · exact hFree hNamed
  · split at hk
    · rename_i hSame
      rw [List.tail_append_of_ne_nil (by cases seq <;> simp_all [number])] at hk
      rcases List.mem_append.mp hk with hk | hk
      · have hNew := mem_tail_number hk
        rcases hReferences hMem with ⟨hFirst, -⟩ | ⟨hNamed, -⟩
        · rw [hFirst] at hNew
          exact Nat.lt_irrefl _ hNew
        · exact hUnnamed (Nat.le_of_lt hNew) hNamed
      · obtain rfl := List.mem_singleton.mp hk
        rcases hReferences hMem with ⟨hFirst, -⟩ | ⟨-, hOther⟩
        · exact hOld hj hFirst
        · exact hOther hSame
    · exact (List.not_mem_nil hk).elim
  · have hLater : b.nextId < b.nextId + seq.length :=
      Nat.lt_add_of_pos_right (List.length_pos_iff.mpr hSome)
    rcases hReferences hMem with ⟨rfl, -⟩ | ⟨hNamed, -⟩
    · exact hLater
    · exact (hSettled id hNamed).trans hLater

/-- Code that is put in behind an instruction, which may be changed under its number, stands for it
together with it. -/
theorem expands_behind (hNumbered : b.Numbered) (hSettled : b.Settled) {position : Nat}
    (hPosition : b.position? id = some position) {f : Instruction → Instruction}
    (hf : ∀ i, i.id = id → (f i).id = id)
    (hCode : ∀ ahead i behind, b.instructions = ahead ++ i :: behind → ahead.length = position →
      b'.instructions = ahead ++ f i :: (number b.nextId seq ++ behind))
    (hReferences : b'.references ⊆ b.references) (hNext : b.nextId ≤ b'.nextId) :
    b.Expands (fun i => if i.id = id then f i :: number b.nextId seq else [i]) b' := by
  obtain ⟨ahead, i, behind, hSplit, hId, hLength, hAhead, hBehind⟩ :=
    split_position hNumbered hPosition
  have hUnnamed {j : Instruction} (hj : j ∈ number b.nextId seq) : j.id ∉ b'.references :=
    fun hMem => absurd (hSettled j.id (hReferences hMem)) (Nat.not_lt.mpr (mem_number hj).2.1)
  refine ⟨?_, fun j hj hFree k hk hMem => ?_, fun j hj k hk => ?_, hNext, fun id hMem => ?_⟩
  · have hPlace := flatMap_place (f := fun i => f i :: number b.nextId seq) (k := fun i => i) hId
      hAhead hBehind
    rw [hCode _ _ _ hSplit hLength, hSplit, hPlace]
    simp
  · split at hk
    · rename_i hSame
      rcases List.mem_cons.mp hk with rfl | hk
      · rw [hf j hSame, ← hSame] at hMem
        exact hFree (hReferences hMem)
      · exact hUnnamed hk hMem
    · obtain rfl := List.mem_singleton.mp hk
      exact hFree (hReferences hMem)
  · split at hk
    · exact hUnnamed hk
    · exact (List.not_mem_nil hk).elim
  · exact (hSettled id (hReferences hMem)).trans_le hNext

/-- What is left of a body without an instruction. Only what comes after it is named anew, and only
if it was named itself. -/
theorem remove_code (hNumbered : b.Numbered) {i : Instruction} (h : remove id b = .ok i b') :
    ∃ ahead found behind k, b.instructions = ahead ++ found :: behind ∧ found.id = id ∧
      b'.instructions = (ahead ++ behind).map k ∧
      (∀ j : Instruction, (k j).id = j.id ∧ (k j).gist = j.gist) ∧ b'.nextId = b.nextId ∧
      ∀ name ∈ b'.references, name ∈ b.references ∨
        id ∈ b.references ∧ behind.head?.map (·.id) = some name := by
  unfold remove at h
  obtain ⟨position, _, hRequire, h⟩ := Step.bind_ok.mp h
  obtain ⟨hPosition, rfl⟩ := require_ok.mp hRequire
  obtain ⟨_, _, hGet, h⟩ := Step.bind_ok.mp h
  obtain ⟨rfl, rfl⟩ := Step.get_ok.mp hGet
  obtain ⟨ahead, found, behind, hCode, hId, hLength, -⟩ := split_position hNumbered hPosition
  have hCut (f : Instruction → Instruction) :
      (b.instructions.map f).eraseIdx position = (ahead ++ behind).map f := by
    rw [List.eraseIdx_map, hCode, ← hLength, List.eraseIdx_append_of_length_le (Nat.le_refl _)]
    simp
  have hErased {c : MethodBody} {name : InstrId}
      (hName : name ∈ MethodBody.references { c with
        instructions := c.instructions.eraseIdx position
        revision := c.revision + 1 }) : name ∈ c.references := by
    rw [mem_references] at hName ⊢
    exact hName.imp_left fun ⟨j, hMem, hTarget⟩ => ⟨j, List.mem_of_mem_eraseIdx hMem, hTarget⟩
  cases hNext : b.at? (position + 1) with
  | some next =>
      simp only [hNext, Step.bind_ok, Step.set_ok, Step.pure_ok] at h
      obtain ⟨_, _, rfl, -, rfl⟩ := h
      have hHead : behind.head? = some next := by
        rw [at?, hCode, ← hLength, List.getElem?_append_right (Nat.le_succ _)] at hNext
        simpa [List.head?_eq_getElem?] using hNext
      refine ⟨ahead, found, behind, _, hCode, hId, hCut _, fun j => ⟨rfl, j.gist_retarget ..⟩, rfl,
        fun name hName => ?_⟩
      rcases mem_references_renamed (hErased hName) with ⟨rfl, hNamed⟩ | ⟨hNamed, -⟩
      · exact Or.inr ⟨hNamed, by rw [hHead]; rfl⟩
      · exact Or.inl hNamed
  | none =>
      simp only [hNext] at h
      split at h
      · exact (Step.throw_ok.mp h).elim
      · simp only [Step.bind_ok, Step.set_ok, Step.pure_ok] at h
        obtain ⟨_, _, rfl, -, rfl⟩ := h
        have hWhole := hCut fun j => j
        rw [List.map_id'] at hWhole
        exact ⟨ahead, found, behind, fun j => j, hCode, hId, hWhole, fun j => ⟨rfl, rfl⟩, rfl,
          fun name hName => Or.inl (hErased hName)⟩

end Edits

/-- An instruction calls the same if it does the same. -/
theorem watched?_of_gist {i j : Instruction} (h : i.gist = j.gist) :
    i.watched? watched = j.watched? watched := by
  obtain ⟨hOpcode, hRest⟩ := Prod.mk.inj h
  obtain ⟨-, hMethod⟩ := Prod.mk.inj hRest
  rw [Instruction.watched?, Instruction.watched?, hOpcode, hMethod]

theorem mem_tail_append {code : List Instruction} {j : Instruction} (ahead behind : List Instruction)
    (h : j ∈ code.tail) : j ∈ (ahead ++ (code ++ behind)).tail := by
  cases code with
  | nil => cases h
  | cons i code =>
      cases ahead with
      | nil => exact List.mem_append_left _ h
      | cons first ahead =>
          exact List.mem_append_right _ (List.mem_cons_of_mem _ (List.mem_append_left _ h))

/-- What is neither a return nor a watched call can be taken out. -/
theorem Announces.remove (h : b.Announces watched calls) (hNumbered : b.Numbered) {id : InstrId}
    {i : Instruction} (hRemove : MethodBody.remove id b = .ok i b')
    (hOther : ∀ found ∈ b.instructions, found.id = id →
      found.opcode ≠ .ret ∧ found.watched? watched = none) : b'.Announces watched calls := by
  obtain ⟨ahead, found, behind, k, hCode, hId, hCode', hk, -, hReferences⟩ :=
    remove_code hNumbered hRemove
  obtain ⟨hReturn, hCall⟩ := hOther found (by simp [hCode]) hId
  have hCalls (code : List Instruction) : callsTo watched (code.map k) = callsTo watched code := by
    rw [callsTo, List.filterMap_map]
    exact List.filterMap_congr fun j _ => watched?_of_gist (hk j).2
  have hOpcode (j : Instruction) : (k j).opcode = j.opcode := congrArg Prod.fst (hk j).2
  -- The instruction that is named instead comes right behind the one that goes.
  have hHead {j : Instruction} (hj : j ∈ ahead ∨ j ∈ behind.tail) :
      behind.head?.map (·.id) ≠ some j.id := by
    intro hSame
    obtain ⟨next, hNext, hNextId⟩ := Option.map_eq_some_iff.mp hSame
    obtain ⟨rest, rfl⟩ := List.head?_eq_some_iff.mp hNext
    have hDistinct := hNumbered.distinct
    rw [hCode, List.map_append, List.nodup_append] at hDistinct
    obtain ⟨-, hLater, hApart⟩ := hDistinct
    rcases hj with hj | hj
    · exact hApart _ (List.mem_map_of_mem hj) next.id (by simp) hNextId.symm
    · rw [List.map_cons, List.map_cons, List.nodup_cons] at hLater
      exact (List.nodup_cons.mp hLater.2).1 (hNextId ▸ List.mem_map_of_mem hj)
  -- Straight code stays so, as long as that instruction is not inside of it.
  have hStraight {code : List Instruction} {last : Instruction}
      (hFalls : ∀ j ∈ code, j.opcode.flow = .next)
      (hInside : ∀ j ∈ (code ++ [last]).tail, j.id ∉ b.references)
      (hElse : id ∈ b.references → ∀ j ∈ (code ++ [last]).tail, j ∈ ahead ∨ j ∈ behind.tail) :
      b'.Straight (code.map k) (k last) := by
    refine ⟨List.forall_mem_map.mpr fun j hj => hOpcode j ▸ hFalls j hj, fun j' hj' => ?_⟩
    rw [← List.map_singleton, ← List.map_append, ← List.map_tail] at hj'
    obtain ⟨j, hj, rfl⟩ := List.mem_map.mp hj'
    rw [(hk j).1]
    intro hName
    rcases hReferences _ hName with hNamed | ⟨hNamed, hNext⟩
    · exact hInside j hj hNamed
    · exact hHead (hElse hNamed j hj) hNext
  intro last' hMem' hReturn'
  rw [hCode'] at hMem'
  obtain ⟨last, hMem, rfl⟩ := List.mem_map.mp hMem'
  rw [hOpcode] at hReturn'
  have hThere : last ∈ b.instructions := by
    rw [hCode]
    rcases List.mem_append.mp hMem with hMem | hMem
    · exact List.mem_append_left _ hMem
    · exact List.mem_append_right _ (List.mem_cons_of_mem _ hMem)
  obtain ⟨start, code, rest, hSplit, ⟨hFalls, hInside⟩, hTo⟩ := h last hThere hReturn'
  have hLast : last ≠ found := fun hSame => hReturn (hSame ▸ hReturn')
  rw [(hk last).1, ← hTo]
  rw [hSplit] at hCode
  rcases List.append_eq_append_iff.mp hCode with ⟨more, hAhead, hRest⟩ | ⟨more, hBefore, hBehind⟩
  · -- what goes stands behind the return
    cases more with
    | nil => exact (hLast (List.cons.inj hRest).1).elim
    | cons first more =>
        obtain ⟨rfl, -⟩ := List.cons.inj hRest
        refine ⟨start.map k, code.map k, (more ++ behind).map k, by simp [hCode', hAhead],
          hStraight hFalls hInside fun _ j hj => Or.inl ?_, hCalls code⟩
        have hj := List.mem_of_mem_tail hj
        rw [hAhead]
        simp only [List.mem_append, List.mem_cons] at hj ⊢
        tauto
  · cases more with
    | nil => exact (hLast (List.cons.inj hBehind).1.symm).elim
    | cons first more =>
        obtain ⟨rfl, hLater⟩ := List.cons.inj hBehind
        have hBehind : behind = more ++ last :: rest := hLater
        have hWithin {part code : List Instruction} (hPart : behind = part ++ (code ++ last :: rest))
            {j : Instruction} (hj : j ∈ (code ++ [last]).tail) : j ∈ behind.tail := by
          have hWhole : behind = part ++ ((code ++ [last]) ++ rest) := by simp [hPart]
          exact hWhole ▸ mem_tail_append part rest hj
        -- it is the first of the straight code
        have hFirst (hStart : start = ahead) (hFront : code = found :: more) :
            ∃ start left rest, b'.instructions = start ++ left ++ k last :: rest ∧
              b'.Straight left (k last) ∧ callsTo watched left = callsTo watched code := by
          refine ⟨start.map k, more.map k, rest.map k, by simp [hCode', hStart, hBehind],
            hStraight (fun j hj => hFalls j (hFront ▸ List.mem_cons_of_mem _ hj)) (fun j hj => ?_)
              fun _ j hj => Or.inr (@hWithin [] more (by simp [hBehind]) j hj), ?_⟩
          · exact hInside j (hFront ▸ List.mem_of_mem_tail hj)
          · rw [hCalls, hFront, callsTo, callsTo, List.filterMap_cons_none hCall]
        rcases List.append_eq_append_iff.mp hBefore with ⟨part, hAhead, hInner⟩ |
          ⟨part, hOuter, hInner⟩
        · cases part with
          | nil => exact hFirst (by simp [hAhead]) hInner
          | cons inner part =>
              have hUnnamed : id ∉ b.references := hId ▸ hInside found (by simp [hInner])
              refine ⟨start.map k, (inner :: part ++ more).map k, rest.map k,
                by simp [hCode', hAhead, hBehind], hStraight (fun j hj => hFalls j ?_)
                  (fun j hj => hInside j ?_) fun hNamed => (hUnnamed hNamed).elim, ?_⟩
              · simp only [hInner, List.mem_append, List.mem_cons] at hj ⊢
                tauto
              · simp only [hInner, List.cons_append, List.tail_cons, List.mem_append,
                  List.mem_cons] at hj ⊢
                tauto
              · rw [hCalls, hInner, callsTo, callsTo, List.filterMap_append, List.filterMap_append,
                  List.filterMap_cons_none hCall]
        · cases part with
          | nil => exact hFirst (by simp [hOuter]) hInner.symm
          | cons outer part =>
              have hMore : more = part ++ code := (List.cons.inj hInner).2
              refine ⟨(ahead ++ part).map k, code.map k, rest.map k,
                by simp [hCode', hBehind, hMore], hStraight hFalls hInside fun _ j hj =>
                  Or.inr (@hWithin part code (by simp [hBehind, hMore]) j hj), hCalls code⟩

end MethodBody

namespace Instruction.Loads

variable {S : Scope} {i : Instruction}

/-- What is put in goes on to what follows. -/
theorem flow (h : i.Loads S) : i.opcode.flow = .next := by
  cases h with
  | plain hOpcode | slot hOpcode | target hOpcode =>
      rcases hOpcode with hOpcode | hOpcode <;> rw [hOpcode] <;> rfl
  | argument hOpcode | call hOpcode => rw [hOpcode]; rfl
  | field hOpcode => rcases hOpcode with hOpcode | hOpcode | hOpcode <;> rw [hOpcode] <;> rfl

/-- It names no instruction. -/
theorem targetIds (h : i.Loads S) : i.targetIds = [] := by
  cases h with
  | plain _ hOperand | argument _ _ hOperand | slot _ _ hOperand | field _ _ _ hOperand
  | call _ _ _ hOperand | target _ _ _ hOperand => rw [Instruction.targetIds, hOperand]; rfl

/-- It calls no method but those that may be called. -/
theorem unwatched (h : i.Loads S) {watched : List MethodId} (hCall : ∀ m ∈ watched, ¬ S.call m) :
    i.watched? watched = none := by
  unfold Instruction.watched?
  split
  · rename_i hOpcode
    cases h with
    | plain hOther | slot hOther | target hOther =>
        rcases hOther with hOther | hOther <;> rw [hOther] at hOpcode <;> cases hOpcode
    | argument hOther => rw [hOther] at hOpcode; cases hOpcode
    | field hOther =>
        rcases hOther with hOther | hOther | hOther <;> rw [hOther] at hOpcode <;> cases hOpcode
    | call _ method hMethod hOperand =>
        rw [Option.filter_eq_none_iff]
        intro m hm
        have hSame : i.method? = some method := by rw [Instruction.method?, hOperand]
        rw [hSame, Option.some_inj] at hm
        subst hm
        exact fun hWatched => hCall method (by simpa using hWatched) hMethod
  · rfl

theorem renumber (h : i.Loads S) (id : InstrId) : Instruction.Loads S { i with id := id } := by
  cases h with
  | plain hOpcode hOperand => exact .plain hOpcode hOperand
  | argument hOpcode index hOperand => exact .argument hOpcode index hOperand
  | slot hOpcode index hOperand => exact .slot hOpcode index hOperand
  | field hOpcode field hField hOperand => exact .field hOpcode field hField hOperand
  | call hOpcode method hMethod hOperand => exact .call hOpcode method hMethod hOperand
  | target hOpcode method hMethod hOperand => exact .target hOpcode method hMethod hOperand

end Instruction.Loads

namespace MethodBody

variable {b b' : MethodBody} {watched : List MethodId} {calls : InstrId → List MethodId}
  {S : Scope} {i : Instruction} {seq : List Instruction}

theorem loads_number {first : Nat} (hSeq : ∀ i ∈ seq, i.Loads S) :
    ∀ j ∈ number first seq, j.Loads S := by
  intro j hj
  obtain ⟨i, hi, hSame⟩ := mem_number_same hj
  exact hSame ▸ (hSeq i hi).renumber j.id

theorem callsTo_eq_nil {code : List Instruction} (h : ∀ j ∈ code, j.watched? watched = none) :
    callsTo watched code = [] :=
  List.filterMap_eq_nil_iff.mpr h

/-- Code around an instruction stands for it together with it. -/
theorem StandsFor.around {i' : Instruction} {front back : List Instruction}
    (hGist : i'.gist = i.gist) (hId : i'.id = i.id)
    (hFalls : ∀ j ∈ front ++ back, j.opcode.flow = .next)
    (hQuiet : i.opcode ≠ .ret → callsTo watched (front ++ back) = []) :
    StandsFor watched i (callsTo watched front) (front ++ i' :: back) where
  falls hNext j hj := by
    rcases List.mem_append.mp hj with hj | hj
    · exact hFalls j (List.mem_append_left _ hj)
    · rcases List.mem_cons.mp hj with rfl | hj
      · exact (congrArg (·.1.flow) hGist).trans hNext
      · exact hFalls j (List.mem_append_right _ hj)
  calls hOther := by
    have hNone := hQuiet hOther
    rw [callsTo, List.filterMap_append, List.append_eq_nil_iff] at hNone
    rw [callsTo, callsTo, List.filterMap_append, hNone.1, List.filterMap_cons, hNone.2,
      List.filterMap_cons, watched?_of_gist hGist]
    rfl
  others hOther j hj hReturn := by
    rcases List.mem_append.mp hj with hj | hj
    · have hNext := hFalls j (List.mem_append_left _ hj)
      rw [hReturn] at hNext
      cases hNext
    · rcases List.mem_cons.mp hj with rfl | hj
      · exact hOther ((congrArg (·.1) hGist).symm.trans hReturn)
      · have hNext := hFalls j (List.mem_append_right _ hj)
        rw [hReturn] at hNext
        cases hNext
  returns _ := ⟨front, i', back, rfl, hId, hFalls, rfl⟩

/-- An instruction that may give way to other code, or point to another method, is neither a return
nor a watched call. -/
structure Tidy (S : Scope) (watched : List MethodId) (i : Instruction) : Prop where
  place : S.place i.id → i.opcode ≠ .ret ∧ i.watched? watched = none
  pointer : S.pointer i.id → i.opcode ≠ .ret ∧ i.opcode ≠ .call

/-- Code in the place of an instruction that is tidy, too, and calls nothing else. -/
structure Adjusts (S : Scope) (watched : List MethodId) (i : Instruction) (code : List Instruction) :
    Prop extends StandsFor watched i [] code where
  tidy : ∀ j ∈ code, Tidy S watched j
  known : ∀ j ∈ code, ∀ m, j.watched? watched = some m → i.watched? watched = some m

/-- The returns of a body are led by calls of certain watched methods, and it calls no others but
those that are known. -/
structure Led (watched known : List MethodId) (calls : InstrId → List MethodId) (b : MethodBody) :
    Prop where
  settled : b.Settled
  announces : b.Announces watched calls
  known : ∀ i ∈ b.instructions, ∀ m, i.watched? watched = some m → m ∈ known

/-- Such a body is ready to be adapted: no place to be adapted is a return or a watched call. -/
structure Prepared (S : Scope) (watched known : List MethodId) (calls : InstrId → List MethodId)
    (b : MethodBody) : Prop extends Led watched known calls b where
  tidy : ∀ i ∈ b.instructions, Tidy S watched i
  below : ∀ id, S.place id ∨ S.pointer id → id.index < b.nextId

variable {known : List MethodId}

theorem Prepared.expands {g : Instruction → List Instruction}
    (h : b.Prepared S watched known calls) (hExpands : b.Expands g b')
    (hAdjusts : ∀ i ∈ b.instructions, Adjusts S watched i (g i)) :
    b'.Prepared S watched known calls := by
  have hMem {j : Instruction} (hj : j ∈ b'.instructions) : ∃ i ∈ b.instructions, j ∈ g i := by
    rw [hExpands.code] at hj
    exact List.mem_flatMap.mp hj
  refine ⟨⟨hExpands.settled, ?_, fun j hj m hm => ?_⟩, fun j hj => ?_, fun id hPlace =>
    (h.below id hPlace).trans_le hExpands.next⟩
  · have hAnnounces : b'.Announces watched fun id => calls id ++ [] :=
      h.announces.expands hExpands fun i hi => (hAdjusts i hi).toStandsFor
    simpa only [List.append_nil] using hAnnounces
  · obtain ⟨i, hi, hj⟩ := hMem hj
    exact h.known i hi m ((hAdjusts i hi).known j hj m hm)
  · obtain ⟨i, hi, hj⟩ := hMem hj
    exact (hAdjusts i hi).tidy j hj

/-- Nothing is to be adapted at a number that is yet to come. -/
theorem Prepared.tidy_fresh (h : b.Prepared S watched known calls) (hNew : b.nextId ≤ i.id.index) :
    Tidy S watched i :=
  ⟨fun hPlace => absurd (h.below i.id (Or.inl hPlace)) (Nat.not_lt.mpr hNew),
    fun hPointer => absurd (h.below i.id (Or.inr hPointer)) (Nat.not_lt.mpr hNew)⟩

theorem Tidy.of_gist {i' : Instruction} (h : Tidy S watched i) (hId : i'.id = i.id)
    (hGist : i'.gist = i.gist) : Tidy S watched i' := by
  have hOpcode : i'.opcode = i.opcode := congrArg Prod.fst hGist
  refine ⟨fun hPlace => ?_, fun hPointer => ?_⟩
  · rw [hOpcode, watched?_of_gist hGist]
    exact h.place (hId ▸ hPlace)
  · rw [hOpcode]
    exact h.pointer (hId ▸ hPointer)

section Adapt

variable (hCall : ∀ m ∈ watched, ¬ S.call m)
include hCall

/-- Code that is put in around an instruction. -/
theorem Prepared.adjusts_around (h : b.Prepared S watched known calls) {i' : Instruction}
    (front back : List Instruction) (hi : i ∈ b.instructions) (hId : i'.id = i.id)
    (hGist : i'.gist = i.gist) (hLoads : ∀ j ∈ front ++ back, j.Loads S ∧ b.nextId ≤ j.id.index) :
    Adjusts S watched i (front ++ i' :: back) := by
  have hNone {code : List Instruction} (hCode : code ⊆ front ++ back) : callsTo watched code = [] :=
    callsTo_eq_nil fun j hj => (hLoads j (hCode hj)).1.unwatched hCall
  have hStands := StandsFor.around hGist hId (fun j hj => (hLoads j hj).1.flow)
    fun _ => hNone (List.Subset.refl _)
  rw [hNone (List.subset_append_left ..)] at hStands
  have hMem {j : Instruction} (hj : j ∈ front ++ i' :: back) : j = i' ∨ j ∈ front ++ back := by
    simp only [List.mem_append, List.mem_cons] at hj ⊢
    tauto
  refine ⟨hStands, fun j hj => ?_, fun j hj m hm => ?_⟩
  · rcases hMem hj with rfl | hj
    · exact (h.tidy i hi).of_gist hId hGist
    · exact h.tidy_fresh (hLoads j hj).2
  · rcases hMem hj with rfl | hj
    · exact watched?_of_gist hGist ▸ hm
    · rw [(hLoads j hj).1.unwatched hCall] at hm
      cases hm

/-- Code that is put in for an instruction, which takes over its number. -/
theorem Prepared.adjusts_instead (h : b.Prepared S watched known calls) {i' : Instruction}
    {back : List Instruction} (hReturn : i.opcode ≠ .ret)
    (hNone : i.watched? watched = none) (hTidy : Tidy S watched i')
    (hFalls : i.opcode.flow = .next → i'.opcode.flow = .next) (hReturn' : i'.opcode ≠ .ret)
    (hNone' : i'.watched? watched = none)
    (hLoads : ∀ j ∈ back, j.Loads S ∧ b.nextId ≤ j.id.index) :
    Adjusts S watched i (i' :: back) := by
  have hQuiet {j : Instruction} (hj : j ∈ i' :: back) : j.watched? watched = none := by
    rcases List.mem_cons.mp hj with rfl | hj
    · exact hNone'
    · exact (hLoads j hj).1.unwatched hCall
  refine ⟨⟨fun hNext j hj => ?_, fun _ => ?_, fun _ j hj hOther => ?_, fun hOther =>
    (hReturn hOther).elim⟩, fun j hj => ?_, fun j hj m hm => ?_⟩
  · rcases List.mem_cons.mp hj with rfl | hj
    · exact hFalls hNext
    · exact (hLoads j hj).1.flow
  · rw [callsTo_eq_nil fun j hj => hQuiet hj, callsTo_eq_nil fun j hj => by
      rw [List.mem_singleton.mp hj, hNone]]
  · rcases List.mem_cons.mp hj with rfl | hj
    · exact hReturn' hOther
    · have hNext := (hLoads j hj).1.flow
      rw [hOther] at hNext
      cases hNext
  · rcases List.mem_cons.mp hj with rfl | hj
    · exact hTidy
    · exact h.tidy_fresh (hLoads j hj).2
  · rw [hQuiet hj] at hm
    cases hm

/-- Something may be put in behind an instruction that stays. -/
theorem Prepared.behind (h : b.Prepared S watched known calls) (hNumbered : b.Numbered) {id : InstrId}
    {position : Nat} (hPosition : b.position? id = some position) (hLoads : ∀ j ∈ seq, j.Loads S)
    (hEnd : b' = b.splice (position + 1) seq) : b'.Prepared S watched known calls := by
  have hExpands : b.Expands (fun i => if i.id = id then i :: number b.nextId seq else [i]) b' := by
    refine expands_behind (f := fun i => i) hNumbered h.settled hPosition (fun i hi => hi)
      (fun ahead i behind hCode hLength => ?_) (fun name hName => ?_) (hEnd ▸ Nat.le_add_right ..)
    · rw [hEnd, splice, hCode, ← hLength]
      simp [List.take_append]
    · rw [hEnd, mem_references_splice] at hName
      refine hName.resolve_right fun hNew => ?_
      obtain ⟨j, hj, hTarget⟩ := List.mem_flatMap.mp hNew
      rw [(hLoads j hj).targetIds] at hTarget
      cases hTarget
  refine h.expands hExpands fun i hi => ?_
  split
  · exact h.adjusts_around hCall [] _ hi rfl rfl fun j hj =>
      ⟨loads_number hLoads j hj, (mem_number hj).2.1⟩
  · exact h.adjusts_around hCall [] [] hi rfl rfl fun j hj =>
      (List.not_mem_nil hj).elim

/-- An instruction may change under its number, with code behind it, if it is neither a return nor a
watched call before and after. -/
theorem Prepared.change (h : b.Prepared S watched known calls) (hNumbered : b.Numbered) {id : InstrId}
    {position : Nat} (hPosition : b.position? id = some position) (hLoads : ∀ j ∈ seq, j.Loads S)
    {f : Instruction → Instruction} (hf : ∀ i : Instruction, i.id = id → (f i).id = id)
    (hTargets : ∀ i, (f i).targetIds = [])
    (hCode : b'.instructions = (b.instructions.modify position f).take (position + 1)
      ++ number b.nextId seq ++ (b.instructions.modify position f).drop (position + 1))
    (hHandlers : b'.handlers = b.handlers) (hNext : b.nextId ≤ b'.nextId)
    (hAllowed : ∀ i ∈ b.instructions, i.id = id → i.opcode ≠ .ret ∧ i.watched? watched = none ∧
      Tidy S watched (f i) ∧ (i.opcode.flow = .next → (f i).opcode.flow = .next) ∧
        (f i).opcode ≠ .ret ∧ (f i).watched? watched = none) :
    b'.Prepared S watched known calls := by
  have hReferences {name : InstrId} (hName : name ∈ b'.references) : name ∈ b.references := by
    rw [mem_references, hHandlers] at hName
    refine mem_references.mpr (hName.imp_left fun ⟨j, hj, hTarget⟩ => ?_)
    have hOld {j : Instruction} (hj : j ∈ b.instructions.modify position f)
        (hTarget : name ∈ j.targetIds) : ∃ i ∈ b.instructions, name ∈ i.targetIds := by
      obtain ⟨k, hk, rfl⟩ := List.mem_iff_getElem.mp hj
      rw [List.getElem_modify] at hTarget
      split at hTarget
      · rw [hTargets] at hTarget
        cases hTarget
      · exact ⟨_, List.getElem_mem _, hTarget⟩
    rw [hCode] at hj
    rcases List.mem_append.mp hj with hj | hj
    · rcases List.mem_append.mp hj with hj | hj
      · exact hOld (List.mem_of_mem_take hj) hTarget
      · rw [(loads_number hLoads j hj).targetIds] at hTarget
        cases hTarget
    · exact hOld (List.mem_of_mem_drop hj) hTarget
  have hExpands : b.Expands (fun i => if i.id = id then f i :: number b.nextId seq else [i]) b' := by
    refine expands_behind hNumbered h.settled hPosition hf (fun ahead i behind hSplit hLength => ?_)
      (fun name hName => hReferences hName) hNext
    have hMiddle : b.instructions.modify position f = ahead ++ f i :: behind := by
      rw [hSplit, ← hLength, List.modify_eq_take_drop]
      simp
    rw [hCode, hMiddle, ← hLength]
    simp [List.take_append]
  refine h.expands hExpands fun i hi => ?_
  split
  · rename_i hId
    obtain ⟨hReturn, hNone, hTidy, hFalls, hReturn', hNone'⟩ := hAllowed i hi hId
    exact h.adjusts_instead hCall hReturn hNone hTidy hFalls hReturn' hNone' fun j hj =>
      ⟨loads_number hLoads j hj, (mem_number hj).2.1⟩
  · exact h.adjusts_around hCall [] [] hi rfl rfl fun j hj =>
      (List.not_mem_nil hj).elim

omit hCall in
/-- What is neither a return nor a watched call may go. -/
theorem Prepared.remove (h : b.Prepared S watched known calls) (hNumbered : b.Numbered) {id : InstrId}
    (hRemove : MethodBody.remove id b = .ok i b') (hOther : ∀ found ∈ b.instructions, found.id = id →
      found.opcode ≠ .ret ∧ found.watched? watched = none) :
    b'.Prepared S watched known calls := by
  obtain ⟨ahead, found, behind, k, hCode, -, hCode', hk, hNext, hReferences⟩ :=
    remove_code hNumbered hRemove
  have hMem {j : Instruction} (hj : j ∈ b'.instructions) :
      ∃ i ∈ b.instructions, j.id = i.id ∧ j.gist = i.gist := by
    rw [hCode'] at hj
    obtain ⟨i, hi, rfl⟩ := List.mem_map.mp hj
    refine ⟨i, ?_, hk i⟩
    rw [hCode]
    exact (List.mem_append.mp hi).elim (List.mem_append_left _)
      fun hi => List.mem_append_right _ (List.mem_cons_of_mem _ hi)
  refine ⟨⟨fun name hName => hNext ▸ ?_, h.announces.remove hNumbered hRemove hOther,
    fun j hj m hm => ?_⟩, fun j hj => ?_, fun id hPlace => hNext ▸ h.below id hPlace⟩
  · rcases hReferences name hName with hName | ⟨-, hHead⟩
    · exact h.settled name hName
    · obtain ⟨next, hFirst, rfl⟩ := Option.map_eq_some_iff.mp hHead
      refine hNumbered.below next ?_
      rw [hCode]
      exact List.mem_append_right _ (List.mem_cons_of_mem _ (List.mem_of_mem_head? hFirst))
  · obtain ⟨i, hi, -, hGist⟩ := hMem hj
    exact h.known i hi m (watched?_of_gist hGist ▸ hm)
  · obtain ⟨i, hi, hId, hGist⟩ := hMem hj
    exact (h.tidy i hi).of_gist hId hGist

/-- Something may be put in ahead of an instruction that stays. -/
theorem Prepared.insertBefore (h : b.Prepared S watched known calls) (hNumbered : b.Numbered)
    {anchor : InstrId} (hSeq : ∀ i ∈ seq, i.Loads S) {ids : List InstrId}
    (hInsert : MethodBody.insertBefore anchor seq b = .ok ids b') :
    b'.Prepared S watched known calls := by
  by_cases hSome : seq = []
  · subst hSome
    obtain ⟨position, _, hRequire, hInsert⟩ := Step.bind_ok.mp hInsert
    obtain ⟨-, rfl⟩ := require_ok.mp hRequire
    obtain ⟨-, rfl⟩ := Step.pure_ok.mp hInsert
    exact h
  · have hTargets : seq.flatMap (·.targetIds) = [] :=
      List.flatMap_eq_nil_iff.mpr fun j hj => (hSeq j hj).targetIds
    refine h.expands (insertBefore_expands hNumbered h.settled hSome hTargets hInsert) fun i hi => ?_
    split
    · exact h.adjusts_around hCall _ [] hi rfl (Instruction.gist_retarget ..) fun j hj => by
        rw [List.append_nil] at hj
        exact ⟨loads_number hSeq j hj, (mem_number hj).2.1⟩
    · exact h.adjusts_around hCall [] [] hi rfl (Instruction.gist_retarget ..)
        fun j hj => (List.not_mem_nil hj).elim

/-- An instruction that is neither a return nor a watched call may get a method for its operand that
is not watched, if it calls it. -/
theorem Prepared.setOperand (h : b.Prepared S watched known calls) (hNumbered : b.Numbered)
    {id : InstrId} {method : MethodId} (hAllowed : ∀ i ∈ b.instructions, i.id = id →
      i.opcode ≠ .ret ∧ i.watched? watched = none ∧ (i.opcode = .call → method ∉ watched) ∧
        (S.pointer id → i.opcode ≠ .call)) {u : Unit}
    (hSet : MethodBody.setOperand id (.method method) b = .ok u b') :
    b'.Prepared S watched known calls := by
  obtain ⟨position, _, hRequire, hSet⟩ := Step.bind_ok.mp hSet
  obtain ⟨hPosition, rfl⟩ := require_ok.mp hRequire
  obtain rfl := Step.modify_ok.mp hSet
  have hNothing : ∀ j ∈ ([] : List Instruction), j.Loads S := fun _ hj => (List.not_mem_nil hj).elim
  refine h.change hCall hNumbered hPosition hNothing
    (f := fun i => { i with operand := .method method }) (fun _ hi => hi) (fun _ => rfl)
    (by simp [modifyAt, number]) rfl (Nat.le_refl _) fun i hi hId => ?_
  obtain ⟨hReturn, hNone, hCalled, hPointer⟩ := hAllowed i hi hId
  have hNone' : Instruction.watched? watched { i with operand := .method method } = none := by
    unfold Instruction.watched?
    split
    · rename_i hOpcode
      simpa [Instruction.method?, Option.filter] using hCalled hOpcode
    · rfl
  exact ⟨hReturn, hNone, ⟨fun _ => ⟨hReturn, hNone'⟩, fun hAt => ⟨hReturn, hPointer (hId ▸ hAt)⟩⟩,
    fun hNext => hNext, hReturn, hNone'⟩

/-- Another instruction may come in the place of one that is neither a return nor a watched call, if
it is none, either. -/
theorem Prepared.replace (h : b.Prepared S watched known calls) (hNumbered : b.Numbered)
    {id : InstrId} (hTargets : i.targetIds = []) (hNext : i.opcode.flow = .next)
    (hNone : i.watched? watched = none) (hTidy : Tidy S watched { i with id := id })
    (hAllowed : ∀ j ∈ b.instructions, j.id = id → j.opcode ≠ .ret ∧ j.watched? watched = none)
    {u : Unit} (hReplace : MethodBody.replace id i b = .ok u b') :
    b'.Prepared S watched known calls := by
  obtain ⟨position, _, hRequire, hReplace⟩ := Step.bind_ok.mp hReplace
  obtain ⟨hPosition, rfl⟩ := require_ok.mp hRequire
  obtain rfl := Step.modify_ok.mp hReplace
  have hNothing : ∀ j ∈ ([] : List Instruction), j.Loads S := fun _ hj => (List.not_mem_nil hj).elim
  refine h.change hCall hNumbered hPosition hNothing
    (f := fun _ => { i with id := id }) (fun _ _ => rfl) (fun _ => hTargets)
    (by simp [modifyAt, number]) rfl (Nat.le_refl _) fun j hj hId => ?_
  obtain ⟨hReturn, hOther⟩ := hAllowed j hj hId
  refine ⟨hReturn, hOther, hTidy, fun _ => hNext, fun hSame => ?_, hNone⟩
  rw [show i.opcode = .ret from hSame] at hNext
  cases hNext

/-- What comes at a place is neither a return nor a watched call. -/
theorem tidy_place (hApart : ∀ id, S.place id → ¬ S.pointer id) {id : InstrId} (hPlace : S.place id)
    (hNew : i.Loads S) : Tidy S watched { i with id := id } := by
  refine ⟨fun _ => ⟨fun hReturn => ?_, hNew.unwatched hCall⟩,
    fun hPointer => (hApart id hPlace hPointer).elim⟩
  have hNext := hNew.flow
  rw [show i.opcode = .ret from hReturn] at hNext
  cases hNext

/-- Code may come at a place. -/
theorem Prepared.replaceWith (hApart : ∀ id, S.place id → ¬ S.pointer id)
    (h : b.Prepared S watched known calls) (hNumbered : b.Numbered) {id : InstrId}
    (hPlace : S.place id) (hSeq : ∀ i ∈ seq, i.Loads S) {ids : List InstrId}
    (hReplace : MethodBody.replaceWith id seq b = .ok ids b') :
    b'.Prepared S watched known calls := by
  obtain ⟨position, _, hRequire, hReplace⟩ := Step.bind_ok.mp hReplace
  obtain ⟨hPosition, rfl⟩ := require_ok.mp hRequire
  have hOld {j : Instruction} (hj : j ∈ b.instructions) (hId : j.id = id) :
      j.opcode ≠ .ret ∧ j.watched? watched = none := (h.tidy j hj).place (hId ▸ hPlace)
  cases seq with
  | nil =>
      obtain ⟨i, _, hRemove, hEnd⟩ := Step.bind_ok.mp hReplace
      obtain ⟨-, rfl⟩ := Step.pure_ok.mp hEnd
      exact h.remove hNumbered hRemove fun found hFound => hOld hFound
  | cons first rest =>
      obtain ⟨hNew, hRest⟩ := List.forall_mem_cons.mp hSeq
      obtain ⟨_, _, hGet, hReplace⟩ := Step.bind_ok.mp hReplace
      obtain ⟨rfl, rfl⟩ := Step.get_ok.mp hGet
      obtain ⟨_, _, hSet, hReplace⟩ := Step.bind_ok.mp hReplace
      obtain rfl := Step.set_ok.mp hSet
      obtain ⟨-, rfl⟩ := Step.pure_ok.mp hReplace
      refine h.change hCall hNumbered hPosition hRest (f := fun _ => { first with id := id })
        (fun _ _ => rfl) (fun _ => hNew.targetIds) ?_ rfl (Nat.le_add_right ..) fun j hj hId => ?_
      · rw [List.modify_eq_set]
        rfl
      · have hTidy : Tidy S watched { first with id := id } :=
          tidy_place hCall hApart hPlace hNew
        obtain ⟨hReturn, hNone⟩ := hOld hj hId
        obtain ⟨hReturn', hNone'⟩ := hTidy.place hPlace
        exact ⟨hReturn, hNone, hTidy, fun _ => hNew.flow, hReturn', hNone'⟩

/-- An edit that adapts a body leaves it ready to be adapted on. -/
theorem Prepared.patch (hApart : ∀ id, S.place id → ¬ S.pointer id)
    (h : b.Prepared S watched known calls) (hNumbered : b.Numbered) (hPatch : Patch S b b') :
    b'.Prepared S watched known calls := by
  obtain ⟨c, fresh, hAdapts, hRun⟩ := hPatch
  have hUnit {e : BodyEdit Unit} (hRun : (do e; pure [] : BodyEdit (List InstrId)) b = .ok fresh b') :
      e b = .ok () b' := by
    obtain ⟨_, _, hEdit, hEnd⟩ := Step.bind_ok.mp hRun
    obtain ⟨-, rfl⟩ := Step.pure_ok.mp hEnd
    exact hEdit
  cases hAdapts with
  | insertBefore anchor hSeq => exact h.insertBefore hCall hNumbered hSeq hRun
  | insertAfter anchor hSeq =>
      obtain ⟨position, _, hRequire, hRun⟩ := Step.bind_ok.mp hRun
      obtain ⟨hPosition, rfl⟩ := require_ok.mp hRequire
      obtain ⟨_, _, hGet, hRun⟩ := Step.bind_ok.mp hRun
      obtain ⟨rfl, rfl⟩ := Step.get_ok.mp hGet
      obtain ⟨_, _, hSet, hRun⟩ := Step.bind_ok.mp hRun
      obtain rfl := Step.set_ok.mp hSet
      obtain ⟨-, rfl⟩ := Step.pure_ok.mp hRun
      exact h.behind hCall hNumbered hPosition hSeq rfl
  | addLocal type =>
      obtain ⟨_, _, hAdd, hRun⟩ := Step.bind_ok.mp hRun
      obtain ⟨_, _, hGet, hAdd⟩ := Step.bind_ok.mp hAdd
      obtain ⟨rfl, rfl⟩ := Step.get_ok.mp hGet
      obtain ⟨_, _, hSet, hAdd⟩ := Step.bind_ok.mp hAdd
      obtain rfl := Step.set_ok.mp hSet
      obtain ⟨-, rfl⟩ := Step.pure_ok.mp hAdd
      obtain ⟨-, rfl⟩ := Step.pure_ok.mp hRun
      refine h.expands (g := fun i => [i]) ⟨List.flatMap_singleton' _ |>.symm, fun i _ hFree j hj =>
        List.mem_singleton.mp hj ▸ hFree, fun i _ j hj => (List.not_mem_nil hj).elim, Nat.le_refl _,
        h.settled⟩ fun i hi => ?_
      exact h.adjusts_around hCall [] [] hi rfl rfl fun j hj =>
        (List.not_mem_nil hj).elim
  | replace hPlace hNew =>
      exact h.replace hCall hNumbered hNew.targetIds hNew.flow (hNew.unwatched hCall)
        (tidy_place hCall hApart hPlace hNew) (fun j hj hId => (h.tidy j hj).place (hId ▸ hPlace))
        (hUnit hRun)
  | replaceWith hPlace hSeq =>
      obtain ⟨_, _, hReplace, hEnd⟩ := Step.bind_ok.mp hRun
      obtain ⟨-, rfl⟩ := Step.pure_ok.mp hEnd
      exact h.replaceWith hCall hApart hNumbered hPlace hSeq hReplace
  | setOperand hPlace hMethod =>
      refine h.setOperand hCall hNumbered (fun i hi hId => ?_) (hUnit hRun)
      obtain ⟨hReturn, hNone⟩ := (h.tidy i hi).place (hId ▸ hPlace)
      exact ⟨hReturn, hNone, fun _ hWatched => hCall _ hWatched hMethod,
        fun hPointer => (hApart _ hPlace hPointer).elim⟩
  | redirect hPointer hMethod =>
      refine h.setOperand hCall hNumbered (fun i hi hId => ?_) (hUnit hRun)
      obtain ⟨hReturn, hOther⟩ := (h.tidy i hi).pointer (hId ▸ hPointer)
      exact ⟨hReturn, if_neg hOther, fun hSame => (hOther hSame).elim, fun _ => hOther⟩
  | repoint hPointer hMethod =>
      refine h.replace hCall hNumbered rfl rfl rfl ⟨fun hPlace => (hApart _ hPlace hPointer).elim,
        fun _ => ⟨OpCode.noConfusion, OpCode.noConfusion⟩⟩ (fun j hj hId => ?_) (hUnit hRun)
      obtain ⟨hReturn, hOther⟩ := (h.tidy j hj).pointer (hId ▸ hPointer)
      exact ⟨hReturn, if_neg hOther⟩
  | remove hCache =>
      obtain ⟨i, _, hRemove, hEnd⟩ := Step.bind_ok.mp hRun
      obtain ⟨-, rfl⟩ := Step.pure_ok.mp hEnd
      refine h.remove hNumbered hRemove fun found hFound hId => ?_
      have hOpcode := hCache found (hId ▸ hNumbered.get?_id hFound)
      have hOther : found.opcode ≠ .ret ∧ found.opcode ≠ .call := by
        constructor <;> intro hSame <;> rw [hSame] at hOpcode <;> simp at hOpcode
      exact ⟨hOther.1, if_neg hOther.2⟩

/-- So do edits one after the other. -/
theorem Prepared.patches (hApart : ∀ id, S.place id → ¬ S.pointer id)
    (h : b.Prepared S watched known calls) (hNumbered : b.Numbered) (hPatches : Patches S b b') :
    b'.Prepared S watched known calls :=
  hPatches.induct hNumbered h fun _ _ hNumbered hPatch h => h.patch hCall hApart hNumbered hPatch

end Adapt

section Inline

variable {rs : List MethodId} {r : MethodId}

/-- Where nothing is known to be called, nothing is called ahead of returns. -/
theorem Led.start (hSettled : b.Settled) (hNone : ∀ i ∈ b.instructions, i.watched? watched = none) :
    b.Led watched [] fun _ => [] := by
  refine ⟨hSettled, fun last hMem hReturn => ?_, fun i hi m hm => ?_⟩
  · obtain ⟨start, rest, hCode⟩ := List.append_of_mem hMem
    exact ⟨start, [], rest, by simpa using hCode, ⟨fun _ hi => (List.not_mem_nil hi).elim,
      fun _ hi => (List.not_mem_nil hi).elim⟩, rfl⟩
  · rw [hNone i hi] at hm
    cases hm

theorem Led.mono {known' : List MethodId} (h : b.Led watched known calls) (hKnown : known ⊆ known') :
    b.Led watched known' calls :=
  ⟨h.settled, h.announces, fun i hi m hm => hKnown (h.known i hi m hm)⟩

/-- Call a unit on the object itself. -/
abbrev callUnit (r : MethodId) : List Instruction := [.onArg .ldarg 0, .onMethod .call r]

theorem callsTo_callUnit (hWatched : r ∈ watched) (first : Nat) :
    callsTo watched (number first (callUnit r)) = [r] := by
  have hCall : Instruction.watched? watched
      { Instruction.onMethod .call r with id := ⟨first + 1⟩ } = some r := by
    simp [Instruction.watched?, Instruction.onMethod, Instruction.unplaced, Instruction.method?,
      Option.filter, hWatched]
  exact List.filterMap_cons_some hCall

/-- A call ahead of a return comes behind those that are there. -/
theorem Led.insertCall (h : b.Led watched known calls) (hNumbered : b.Numbered) {ret : InstrId}
    (hReturn : ret ∈ b.returns) (hWatched : r ∈ watched) {ids : List InstrId}
    (hInsert : MethodBody.insertBefore ret (callUnit r) b = .ok ids b') :
    b'.Led watched (r :: known) (fun id => calls id ++ if id = ret then [r] else []) ∧
      ∀ id, id ∈ b'.returns ↔ id ∈ b.returns := by
  have hExpands := insertBefore_expands hNumbered h.settled (List.cons_ne_nil _ _) rfl hInsert
  have hMem {j : Instruction} : j ∈ b'.instructions ↔
      (∃ i ∈ b.instructions, i.retarget ret ⟨b.nextId⟩ = j) ∨ j ∈ number b.nextId (callUnit r) := by
    rw [hExpands.code, List.mem_flatMap]
    constructor
    · rintro ⟨i, hi, hj⟩
      split at hj
      · rcases List.mem_append.mp hj with hj | hj
        · exact Or.inr hj
        · exact Or.inl ⟨i, hi, (List.mem_singleton.mp hj).symm⟩
      · exact Or.inl ⟨i, hi, (List.mem_singleton.mp hj).symm⟩
    · rintro (⟨i, hi, rfl⟩ | hj)
      · refine ⟨i, hi, ?_⟩
        split <;> simp
      · obtain ⟨i, hi, -, hId⟩ := mem_returns.mp hReturn
        exact ⟨i, hi, by simp [hId, hj]⟩
  have hNew {j : Instruction} (hj : j ∈ number b.nextId (callUnit r)) :
      j.opcode = .ldarg ∨ j.opcode = .call ∧ j.method? = some r := by
    obtain ⟨i, hi, hSame⟩ := mem_number_same hj
    rw [hSame]
    simp only [List.mem_cons, List.not_mem_nil, or_false] at hi
    rcases hi with rfl | rfl
    · exact Or.inl rfl
    · exact Or.inr ⟨rfl, rfl⟩
  refine ⟨⟨hExpands.settled, h.announces.expands hExpands fun i hi => ?_, fun j hj m hm => ?_⟩,
    fun id => ?_⟩
  · split
    · rename_i hId
      have hAround : StandsFor watched i (callsTo watched (number b.nextId (callUnit r)))
          (number b.nextId (callUnit r) ++ i.retarget ret ⟨b.nextId⟩ :: []) :=
        StandsFor.around (i.gist_retarget ret ⟨b.nextId⟩) rfl (fun j hj => ?_) fun hOther => ?_
      · rwa [callsTo_callUnit hWatched] at hAround
      · rw [List.append_nil] at hj
        rcases hNew hj with hOpcode | ⟨hOpcode, -⟩ <;> rw [hOpcode] <;> rfl
      · obtain ⟨k, hk, hRet, hSame⟩ := mem_returns.mp hReturn
        exact (hOther (hNumbered.eq_of_id hk hi (hSame.trans hId.symm) ▸ hRet)).elim
    · exact (StandsFor.around (i.gist_retarget ret ⟨b.nextId⟩) rfl
        (fun j hj => (List.not_mem_nil hj).elim) fun _ => rfl :
          StandsFor watched i (callsTo watched []) ([] ++ i.retarget ret ⟨b.nextId⟩ :: []))
  · rcases hMem.mp hj with ⟨i, hi, rfl⟩ | hj
    · exact List.mem_cons_of_mem _ (h.known i hi m (watched?_of_gist (i.gist_retarget _ _) ▸ hm))
    · rcases hNew hj with hOpcode | ⟨hOpcode, hMethod⟩
      · rw [Instruction.watched?, hOpcode] at hm
        cases hm
      · rw [Instruction.watched?, if_pos hOpcode, hMethod] at hm
        obtain ⟨hSame, -⟩ := Option.filter_eq_some_iff.mp hm
        exact Option.some_inj.mp hSame ▸ List.mem_cons_self ..
  · rw [mem_returns, mem_returns]
    constructor
    · rintro ⟨j, hj, hRet, rfl⟩
      rcases hMem.mp hj with ⟨i, hi, rfl⟩ | hj
      · exact ⟨i, hi, hRet, rfl⟩
      · rcases hNew hj with hOpcode | ⟨hOpcode, -⟩ <;> rw [hOpcode] at hRet <;> cases hRet
    · rintro ⟨i, hi, hRet, rfl⟩
      exact ⟨_, hMem.mpr (Or.inl ⟨i, hi, rfl⟩), hRet, rfl⟩

/-- A call that is put in ahead of each of some returns comes behind those that are there. -/
theorem Led.insertCalls {ids : List InstrId} (h : b.Led watched known calls) (hNumbered : b.Numbered)
    (hReturns : ids ⊆ b.returns) (hNodup : ids.Nodup) (hWatched : r ∈ watched) {u : PUnit}
    (hInsert : (ids.forM fun ret => do
      let _ ← MethodBody.insertBefore ret (callUnit r)) b = .ok u b') :
    b'.Led watched (r :: known) (fun id => calls id ++ if id ∈ ids then [r] else []) ∧
      b'.Numbered ∧ ∀ id, id ∈ b'.returns ↔ id ∈ b.returns := by
  induction ids generalizing b known calls with
  | nil =>
      obtain ⟨-, rfl⟩ := Step.pure_ok.mp hInsert
      exact ⟨⟨h.settled, by simpa using h.announces, fun i hi m hm =>
        List.mem_cons_of_mem _ (h.known i hi m hm)⟩, hNumbered, fun _ => Iff.rfl⟩
  | cons ret ids ih =>
      obtain ⟨_, _, hFirst, hRest⟩ := Step.bind_ok.mp hInsert
      obtain ⟨_, b₁, hPut, hEnd⟩ := Step.bind_ok.mp hFirst
      obtain ⟨-, rfl⟩ := Step.pure_ok.mp hEnd
      obtain ⟨hOther, hNodup⟩ := List.nodup_cons.mp hNodup
      obtain ⟨hHere, hReturns⟩ := List.cons_subset.mp hReturns
      obtain ⟨hLed, hSame⟩ := h.insertCall hNumbered hHere hWatched hPut
      obtain ⟨hLed', hNumbered', hSame'⟩ := ih hLed (revises_insertBefore hPut hNumbered).1
        (fun id hId => (hSame id).mpr (hReturns hId)) hNodup hRest
      refine ⟨⟨hLed'.settled, ?_, fun i hi m hm => by simpa using hLed'.known i hi m hm⟩, hNumbered',
        fun id => (hSame' id).trans (hSame id)⟩
      convert hLed'.announces using 2 with id
      by_cases hId : id = ret
      · simp [hId, hOther]
      · simp [hId]

/-- A call that is put in ahead of all returns comes last at each of them. -/
theorem Led.inline (h : b.Led watched known fun _ => rs) (hNumbered : b.Numbered)
    (hWatched : r ∈ watched) {u : PUnit} (hInsert : (b.returns.forM fun ret => do
      let _ ← MethodBody.insertBefore ret (callUnit r)) b = .ok u b') :
    b'.Led watched (r :: known) fun _ => rs ++ [r] := by
  have hNodup : b.returns.Nodup :=
    hNumbered.distinct.sublist (List.filter_sublist.map _)
  obtain ⟨hLed, -, hSame⟩ :=
    h.insertCalls hNumbered (List.Subset.refl _) hNodup hWatched hInsert
  refine ⟨hLed.settled, fun last hMem hReturn => ?_, hLed.known⟩
  have hThere : last.id ∈ b.returns := (hSame last.id).mp (mem_returns.mpr ⟨last, hMem, hReturn, rfl⟩)
  simpa only [hThere, if_true] using hLed.announces last hMem hReturn

/-- Calls of a method that is not watched change nothing of it. -/
theorem Led.insertOther (h : b.Led watched known calls) (hNumbered : b.Numbered)
    (hOther : r ∉ watched) {ids : List InstrId} {u : PUnit} (hInsert : (ids.forM fun ret => do
      let _ ← MethodBody.insertBefore ret (callUnit r)) b = .ok u b') : b'.Led watched known calls := by
  let S : Scope := ⟨fun _ => False, (· = r), fun _ => False, fun _ => False, fun _ => False⟩
  have hLoads : ∀ i ∈ callUnit r, i.Loads S := by
    intro i hi
    simp only [List.mem_cons, List.not_mem_nil, or_false] at hi
    rcases hi with rfl | rfl
    · exact .argument rfl 0 rfl
    · exact .call rfl r rfl rfl
  have hPatches : b.Patches S b' := (Keeps.forM fun ret _ => Keeps.bind (patches_insertBefore hLoads)
    fun _ => Keeps.pure _ : Keeps (Patches S) _) hInsert
  have hPrepared : b.Prepared S watched known calls :=
    ⟨h, fun _ _ => ⟨False.elim, False.elim⟩, fun _ hNever => (or_self_iff.mp hNever).elim⟩
  have hCall : ∀ m ∈ watched, ¬ S.call m := fun m hMem (hSame : m = r) => hOther (hSame ▸ hMem)
  exact (hPrepared.patches hCall (fun _ => False.elim) hNumbered hPatches).toLed

/-- Code that does nothing but call a unit. -/
theorem Led.fresh (hWatched : r ∈ watched) :
    (MethodBody.fresh (callUnit r ++ [.plain .ret])).Led watched [r] fun _ => [r] := by
  let ret : Instruction := { Instruction.plain .ret with id := ⟨2⟩ }
  have hCode : (MethodBody.fresh (callUnit r ++ [.plain .ret])).instructions
      = number 0 (callUnit r) ++ [ret] := rfl
  have hNone : (MethodBody.fresh (callUnit r ++ [.plain .ret])).references = [] := rfl
  have hLast : ∀ j ∈ number 0 (callUnit r), j.opcode = .ldarg ∨ j.opcode = .call := by
    simp [number, Instruction.onArg, Instruction.onMethod, Instruction.unplaced]
  refine ⟨fun id hId => ?_, fun last hMem hReturn => ?_, fun i hi m hm => ?_⟩
  · rw [hNone] at hId
    cases hId
  · rw [hCode] at hMem
    obtain rfl : last = ret := by
      rcases List.mem_append.mp hMem with hMem | hMem
      · rcases hLast last hMem with hOpcode | hOpcode <;> rw [hOpcode] at hReturn <;> cases hReturn
      · exact List.mem_singleton.mp hMem
    refine ⟨[], number 0 (callUnit r), [], hCode, ⟨fun j hj => ?_, fun j _ hId => ?_⟩,
      callsTo_callUnit hWatched 0⟩
    · rcases hLast j hj with hOpcode | hOpcode <;> rw [hOpcode] <;> rfl
    · rw [hNone] at hId
      cases hId
  · have hCalls : callsTo watched (number 0 (callUnit r) ++ [ret]) = [r] := by
      rw [callsTo, List.filterMap_append]
      exact congrArg (· ++ _) (callsTo_callUnit hWatched 0)
    rw [← hCalls, ← hCode]
    exact List.mem_filterMap.mpr ⟨i, hi, hm⟩

end Inline

end MethodBody

end ContextBinding
