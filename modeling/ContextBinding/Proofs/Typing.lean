import ContextBinding.Proofs.Operands

/-! Static types of values on the stack. A producer has the type that it pushes by
 itself, or the one that it passes on from its deepest operand, as long as all
 producers of that agree. The type of a value is told exactly if its producers have it
 by derivations that pass it on no more often than the limit allows. -/

namespace ContextBinding

/-- What an operation makes of the type of its deepest operand, where it pushes no type of
its own. -/
def OpCode.derivation? : OpCode → Option (StackType → StackType)
  | .ldelem => some .element
  | .ldind | .ldobj => some .pointee
  | .dup | .add | .sub | .mul | .div | .rem | .neg | .and | .or | .xor | .not | .shl | .shr =>
    some id
  | _ => none

namespace StackType

/-- What cannot be told is not told further on. -/
theorem derivation_divergent {op : OpCode} {f : StackType → StackType}
    (h : op.derivation? = some f) : f .divergent = .divergent := by
  cases op <;> cases h <;> rfl

theorem foldl_merge_divergent (types : List StackType) :
    types.foldl merge .divergent = .divergent := by
  induction types with
  | nil => rfl
  | cons a types ih => exact ih

theorem merge_self (t : StackType) : merge t t = t := by
  cases t with
  | known type => exact if_pos rfl
  | null => rfl
  | divergent => rfl

theorem merge_cases (t a : StackType) :
    merge t a = .divergent ∨ a = t ∧ merge t a = t := by
  by_cases hSame : a = t
  · exact Or.inr ⟨hSame, by rw [hSame, merge_self]⟩
  · left
    cases t <;> cases a <;> simp_all [merge, eq_comm]

/-- Types that are all the same, or cannot be told, have that one in common or none. -/
theorem common_cases {types : List StackType} {t : StackType}
    (h : ∀ a ∈ types, a = t ∨ a = .divergent) : common types = t ∨ common types = .divergent := by
  cases types with
  | nil => exact Or.inr rfl
  | cons first rest =>
      rw [common]
      induction rest generalizing first with
      | nil => exact h first (List.mem_singleton_self _)
      | cons a rest ih =>
          rw [List.foldl_cons]
          rcases merge_cases first a with hDiverges | ⟨rfl, hSame⟩
          · exact Or.inr (by rw [hDiverges, foldl_merge_divergent])
          · rw [hSame]
            exact ih a fun b hMem => h b (List.mem_cons_of_mem _ hMem)

theorem common_of_forall {types : List StackType} {t : StackType} (hSome : types ≠ [])
    (h : ∀ a ∈ types, a = t) : common types = t := by
  cases types with
  | nil => exact (hSome rfl).elim
  | cons first rest =>
      rw [common, h first (List.mem_cons_self ..)]
      have hRest : ∀ a ∈ rest, a = t := fun a hMem => h a (List.mem_cons_of_mem _ hMem)
      clear h hSome
      induction rest with
      | nil => rfl
      | cons a rest ih =>
          obtain ⟨rfl, hRest⟩ := List.forall_mem_cons.mp hRest
          rw [List.foldl_cons, merge_self]
          exact ih hRest

/-- If types have one in common, they are all that one. -/
theorem eq_common {types : List StackType} (hTold : common types ≠ .divergent) {a : StackType}
    (hMem : a ∈ types) : a = common types := by
  cases types with
  | nil => cases hMem
  | cons first rest =>
      rw [common] at hTold ⊢
      induction rest generalizing first with
      | nil => exact List.mem_singleton.mp hMem
      | cons b rest ih =>
          rw [List.foldl_cons] at hTold ⊢
          rcases merge_cases first b with hDiverges | ⟨rfl, hSame⟩
          · rw [hDiverges, foldl_merge_divergent] at hTold
            exact (hTold rfl).elim
          · rw [hSame] at hTold ⊢
            refine ih b hTold ?_
            simpa using hMem

end StackType

namespace CodeView

variable {v : CodeView} {height : InstrId → Nat} {id : InstrId} {depth : Nat} {o : Origin}

/-- Some walk brings a value to a depth just before an instruction. -/
def Brings (v : CodeView) (o : Origin) (id : InstrId) (depth : Nat) : Prop :=
  ∃ stack, v.Arrives id stack ∧ stack[depth]? = some o

/-- An instruction pushes a type whatever its operands are. -/
def Produces (v : CodeView) (i : Instruction) (t : StackType) : Prop :=
  ∀ input memo, v.producedType input i memo = .ok (t, memo)

/-- What put a value on the stack has a static type. An instruction that passes a type on
has it if everything does that some walk brings to its deepest operand. The number
bounds how many instructions in a row pass the type on. -/
inductive HasType (v : CodeView) : Nat → Origin → StackType → Prop where
  | caught {n : Nat} {entry : InstrId} : HasType v n (.caught entry) (v.caughtType entry)
  | own {n : Nat} {id : InstrId} {i : Instruction} {t : StackType} (hInstr : v.instr id = .ok i)
      (hType : v.Produces i t) : HasType v n (.pushed id) t
  | derived {n : Nat} {id : InstrId} {i : Instruction} {f : StackType → StackType}
      {effect : StackEffect} {depth : Nat} {t : StackType} (hInstr : v.instr id = .ok i)
      (hPasses : i.opcode.derivation? = some f) (hEffect : v.effect id = .ok effect)
      (hPops : effect.pops = depth + 1) (hDeeper : ∀ o, v.Brings o id depth → HasType v n o t) :
      HasType v (n + 1) (.pushed id) (f t)

/-- An instruction that passes a type on makes of it what its operation says. -/
theorem producedType_of_derivation {i : Instruction} {f : StackType → StackType}
    (h : i.opcode.derivation? = some f) (input : Walk StackType) :
    v.producedType input i = f <$> input := by
  unfold producedType
  cases hOpcode : i.opcode <;> rw [hOpcode] at h <;> cases h <;> simp only [bind_pure_comp, id_map]

/-- Any other instruction looks at no operand. -/
theorem producedType_eq_lift {i : Instruction} (h : i.opcode.derivation? = none) :
    ∃ result : Except AnalysisError StackType,
      ∀ input, v.producedType input i = monadLift result := by
  have hPure (t : StackType) : ∃ result : Except AnalysisError StackType,
      ∀ _ : Walk StackType, (pure t : Walk StackType) = monadLift result :=
    ⟨.ok t, fun _ => rfl⟩
  have hLift (told : Except AnalysisError (Option TypeRef)) (g : Option TypeRef → StackType) :
      ∃ result : Except AnalysisError StackType,
        ∀ _ : Walk StackType, (do pure (g (← told)) : Walk StackType) = monadLift result := by
    refine ⟨g <$> told, fun _ => ?_⟩
    cases told <;> rfl
  unfold producedType
  cases hOpcode : i.opcode
  all_goals first
    | exact hPure _
    | exact hLift _ _
    | (rw [hOpcode] at h; cases h)

theorem produces_of_producedType {i : Instruction} (h : i.opcode.derivation? = none)
    {input : Walk StackType} {memo memo' : WalkMemo} {t : StackType}
    (hRun : v.producedType input i memo = .ok (t, memo')) : memo = memo' ∧ v.Produces i t := by
  obtain ⟨result, hResult⟩ := v.producedType_eq_lift h
  rw [hResult] at hRun
  obtain ⟨rfl, hSame⟩ := Walk.lift_ok.mp hRun
  exact ⟨hSame, fun input memo => by rw [hResult]; rfl⟩

/-- Only the null constant pushes null by itself. -/
theorem Produces.eq_ldnull {i : Instruction} (h : v.Produces i .null) : i.opcode = .ldnull := by
  have hOption (told : Option TypeRef) : StackType.ofOption told ≠ .null := by
    cases told <;> simp [StackType.ofOption]
  have hRun := h (pure .divergent) []
  unfold producedType at hRun
  cases hOpcode : i.opcode
  all_goals simp only [hOpcode] at hRun
  all_goals first
    | rfl
    | exact (hOption _ (Walk.pure_ok.mp hRun).1).elim
    | cases (Walk.pure_ok.mp hRun).1
    | (obtain ⟨told, _, -, hPure⟩ := Walk.bind_ok.mp hRun
       exact (hOption _ (Walk.pure_ok.mp hPure).1).elim)

/-- A value is taken for null only if it is the null constant, or passed on unchanged from
values that all are. -/
theorem HasType.of_null {n : Nat} (h : v.HasType n (.pushed id) .null) : ∃ i, v.instr id = .ok i ∧
    (i.opcode = .ldnull ∨ i.opcode.derivation? = some (fun t => t) ∧ ∃ m effect depth, n = m + 1 ∧
      v.effect id = .ok effect ∧ effect.pops = depth + 1 ∧
      ∀ o, v.Brings o id depth → v.HasType m o .null) := by
  generalize hNull : StackType.null = t at h
  cases h with
  | own hInstr hType =>
      subst hNull
      exact ⟨_, hInstr, Or.inl hType.eq_ldnull⟩
  | @derived m _ i f effect depth t hInstr hPasses hEffect hPops hDeeper =>
      have hSame : f = (fun t => t) := by
        cases hOpcode : i.opcode <;> rw [hOpcode] at hPasses <;> cases hPasses
        all_goals first
          | rfl
          | (unfold StackType.element at hNull; split at hNull <;> cases hNull)
          | (unfold StackType.pointee at hNull; split at hNull <;> cases hNull)
      subst hSame
      obtain rfl : t = .null := hNull.symm
      exact ⟨i, hInstr, Or.inr ⟨hPasses, m, effect, depth, rfl, hEffect, hPops, hDeeper⟩⟩

/-- The type of the deepest operand of an instruction. -/
def inputType (v : CodeView) (typeOf : InstrId → Nat → Walk StackType) (id : InstrId) :
    Walk StackType := do
  match (← v.effect id).pops with
  | 0 => pure .divergent
  | depth + 1 => typeOf id depth

/-- The type of what put a value on the stack. -/
def originType (v : CodeView) (typeOf : InstrId → Nat → Walk StackType) : Origin → Walk StackType
  | .caught entry => pure (v.caughtType entry)
  | .pushed id => do v.producedType (v.inputType typeOf id) (← v.instr id)

/-- The type of a path is that of its source. -/
theorem pathType_eq {typeOf : InstrId → Nat → Walk StackType} {path : Path}
    (h : path.source? = some o) : v.pathType typeOf path = v.originType typeOf o := by
  unfold Path.source? at h
  unfold pathType
  split at h
  · rename_i producer _ hProducer
    obtain rfl := Option.some_inj.mp h
    rw [hProducer]
    rfl
  · rename_i entry hProducer hCaught
    obtain rfl := Option.some_inj.mp h
    rw [hProducer, hCaught]
    rfl
  · cases h

section Inference

theorem exists_related {α β : Type} {R : α → β → Prop} {l : List α} {l' : List β}
    (h : List.Forall₂ R l l') {a : α} (hMem : a ∈ l) : ∃ b ∈ l', R a b := by
  induction h with
  | nil => exact (List.not_mem_nil hMem).elim
  | cons hFirst _ ih =>
      rcases List.mem_cons.mp hMem with rfl | hMem
      · exact ⟨_, List.mem_cons_self .., hFirst⟩
      · obtain ⟨b, hOther, hRelated⟩ := ih hMem
        exact ⟨b, List.mem_cons_of_mem _ hOther, hRelated⟩

variable {fuel n : Nat} {t : StackType} {memo memo' : WalkMemo}

/-- What some walk brings to a depth below the height is what the paths of the value
show. -/
theorem Answers.brings_iff (hTrace : v.Traceable height) (hMem : id ∈ v.index.order)
    (hDepth : depth < height id) {paths : List Path} (h : v.Answers id depth paths) :
    some o ∈ paths.map Path.source? ↔ v.Brings o id depth :=
  (h.mem_sources_iff hTrace (hTrace.reachable id hMem) hDepth).trans
    (hTrace.traces_iff hTrace.reachable)

/-- The value that an instruction takes deepest is there. -/
theorem Traceable.deepest_lt (hTrace : v.Traceable height) {effect : StackEffect}
    (hEffect : v.effect id = .ok effect) (hPops : effect.pops = depth + 1) : depth < height id := by
  have hBelow : effect.pops ≤ height id := hTrace.pops_le hEffect
  omega

/-- Something is brought to every depth below the height. -/
theorem Traceable.exists_brings (hTrace : v.Traceable height) (hMem : id ∈ v.index.order)
    (hDepth : depth < height id) : ∃ o, v.Brings o id depth := by
  obtain ⟨stack, hArrives, hLength⟩ := hTrace.exists_arrives (hTrace.reachable id hMem)
  exact ⟨_, stack, hArrives, List.getElem?_eq_getElem (hDepth.trans_le hLength)⟩

/-- Values whose type is told have it. -/
def Tells (v : CodeView) (height : InstrId → Nat) (n : Nat)
    (typeOf : InstrId → Nat → Walk StackType) : Prop :=
  ∀ id depth memo t memo', id ∈ v.index.order → depth < height id → v.Recalls memo →
    typeOf id depth memo = .ok (t, memo') → v.Recalls memo' ∧
      (t ≠ .divergent → 0 < n ∧ ∀ o, v.Brings o id depth → v.HasType (n - 1) o t)

/-- An origin whose type is told has it, if that of its deepest operand is told rightly. -/
theorem originType_tells (hTrace : v.Traceable height) {typeOf : InstrId → Nat → Walk StackType}
    (hTells : v.Tells height n typeOf) (hMemo : v.Recalls memo)
    (h : v.originType typeOf o memo = .ok (t, memo')) :
    v.Recalls memo' ∧ (t ≠ .divergent → v.HasType n o t) := by
  cases o with
  | caught entry =>
      obtain ⟨rfl, rfl⟩ := Walk.pure_ok.mp h
      exact ⟨hMemo, fun _ => .caught⟩
  | pushed producer =>
      obtain ⟨i, _, hLift, h⟩ := Walk.bind_ok.mp h
      obtain ⟨hInstr, rfl⟩ := Walk.lift_ok.mp hLift
      cases hPasses : i.opcode.derivation? with
      | none =>
          obtain ⟨rfl, hProduces⟩ := produces_of_producedType hPasses h
          exact ⟨hMemo, fun _ => .own hInstr hProduces⟩
      | some f =>
          rw [producedType_of_derivation hPasses] at h
          obtain ⟨deeper, hInput, rfl⟩ := Walk.map_ok.mp h
          obtain ⟨effect, _, hLift', hInput⟩ := Walk.bind_ok.mp hInput
          obtain ⟨hEffect, rfl⟩ := Walk.lift_ok.mp hLift'
          cases hPops : effect.pops with
          | zero =>
              rw [hPops] at hInput
              obtain ⟨rfl, rfl⟩ := Walk.pure_ok.mp hInput
              exact ⟨hMemo, fun hTold => (hTold (StackType.derivation_divergent hPasses)).elim⟩
          | succ below =>
              rw [hPops] at hInput
              have hMem := mem_order_of_effect hEffect
              obtain ⟨hMemo', hDeeper⟩ := hTells producer below _ _ _ hMem
                (hTrace.deepest_lt hEffect hPops) hMemo hInput
              refine ⟨hMemo', fun hTold => ?_⟩
              have hTold' : deeper ≠ .divergent := by
                rintro rfl
                exact hTold (StackType.derivation_divergent hPasses)
              obtain ⟨hSome, hAll⟩ := hDeeper hTold'
              obtain ⟨m, rfl⟩ := Nat.exists_eq_add_one.mpr hSome
              exact .derived hInstr hPasses hEffect hPops hAll

/-- The type of a value that is told is that of all its producers. -/
theorem valueTypeWithin_tells (hTrace : v.Traceable height) (fuel : Nat) :
    v.Tells height fuel (v.valueTypeWithin fuel) := by
  induction fuel with
  | zero =>
      intro id depth memo t memo' _ _ hMemo h
      obtain ⟨rfl, rfl⟩ := Walk.pure_ok.mp h
      exact ⟨hMemo, fun hTold => (hTold rfl).elim⟩
  | succ fuel ih =>
      intro id depth memo t memo' hMem hDepth hMemo h
      obtain ⟨paths, memo₁, hRun, h⟩ := Walk.bind_ok.mp h
      obtain ⟨types, memo₂, hTypes, h⟩ := Walk.bind_ok.mp h
      obtain ⟨rfl, rfl⟩ := Walk.pure_ok.mp h
      obtain ⟨hMemo₁, hAnswers⟩ := valuePaths_answers hMemo hRun
      have hEach : ∀ path ∈ paths, ∀ memo t memo', v.Recalls memo →
          v.pathType (v.valueTypeWithin fuel) path memo = .ok (t, memo') → v.Recalls memo' ∧
            (t ≠ .divergent → ∀ o, path.source? = some o → v.HasType fuel o t) := by
        intro path hPath memo t memo' hMemo h
        obtain ⟨trail, hDerives⟩ := hAnswers.derived path hPath
        obtain ⟨o, hSource, -⟩ := hDerives.traces rfl
        rw [pathType_eq hSource] at h
        obtain ⟨hMemo', hHas⟩ := originType_tells hTrace ih hMemo h
        refine ⟨hMemo', fun hTold o' hSource' => ?_⟩
        obtain rfl := Option.some_inj.mp (hSource.symm.trans hSource')
        exact hHas hTold
      obtain ⟨hMemo₂, hAll⟩ := hMemo₁.mapM_ok hEach hTypes
      refine ⟨hMemo₂, fun hTold => ⟨Nat.succ_pos fuel, fun o hBrings => ?_⟩⟩
      obtain ⟨path, hPath, hSource⟩ :=
        List.mem_map.mp ((hAnswers.brings_iff hTrace hMem hDepth).mpr hBrings)
      obtain ⟨t, hType, hHas⟩ := exists_related hAll hPath
      obtain rfl := StackType.eq_common hTold hType
      exact hHas hTold o hSource

/-- Values whose producers agree on a type are told it, unless it is passed on too often. -/
def Infers (v : CodeView) (height : InstrId → Nat) (n : Nat)
    (typeOf : InstrId → Nat → Walk StackType) : Prop :=
  ∀ id depth memo m t, id ∈ v.index.order → depth < height id → v.Recalls memo →
    (∀ o, v.Brings o id depth → v.HasType m o t) →
    ∃ told memo', typeOf id depth memo = .ok (told, memo') ∧ v.Recalls memo' ∧
      (told = t ∨ told = .divergent ∧ n ≤ m)

/-- The type of an origin is told, unless it is passed on too often. -/
theorem originType_infers (hTrace : v.Traceable height) {typeOf : InstrId → Nat → Walk StackType}
    (hInfers : v.Infers height fuel typeOf) (hMemo : v.Recalls memo) (h : v.HasType n o t) :
    ∃ told memo', v.originType typeOf o memo = .ok (told, memo') ∧ v.Recalls memo' ∧
      (told = t ∨ told = .divergent ∧ fuel + 1 ≤ n) := by
  cases h with
  | caught => exact ⟨_, memo, rfl, hMemo, Or.inl rfl⟩
  | own hInstr hType =>
      refine ⟨t, memo, ?_, hMemo, Or.inl rfl⟩
      exact (Walk.bind_of_ok (Walk.lift_ok.mpr ⟨hInstr, rfl⟩)).trans (hType _ memo)
  | @derived m producer i f effect depth t hInstr hPasses hEffect hPops hDeeper =>
      have hMem := mem_order_of_effect hEffect
      obtain ⟨deeper, memo', hRun, hMemo', hTold⟩ := hInfers producer depth memo m t hMem
        (hTrace.deepest_lt hEffect hPops) hMemo hDeeper
      have hInput : v.inputType typeOf producer memo = .ok (deeper, memo') := by
        refine (Walk.bind_of_ok (Walk.lift_ok.mpr ⟨hEffect, rfl⟩)).trans ?_
        rw [hPops]
        exact hRun
      refine ⟨f deeper, memo', ?_, hMemo', ?_⟩
      · refine (Walk.bind_of_ok (Walk.lift_ok.mpr ⟨hInstr, rfl⟩)).trans ?_
        rw [producedType_of_derivation hPasses]
        exact Walk.map_ok.mpr ⟨deeper, hInput, rfl⟩
      · rcases hTold with rfl | ⟨rfl, hOften⟩
        · exact Or.inl rfl
        · exact Or.inr ⟨StackType.derivation_divergent hPasses, Nat.succ_le_succ hOften⟩

/-- A type that all producers of a value have is told, if it is passed on no more often
than there is fuel for. Otherwise it may be that none is told, but never another one. -/
theorem valueTypeWithin_infers (hTrace : v.Traceable height) (fuel : Nat) :
    v.Infers height fuel (v.valueTypeWithin fuel) := by
  induction fuel with
  | zero =>
      intro id depth memo m t _ _ hMemo _
      exact ⟨_, memo, rfl, hMemo, Or.inr ⟨rfl, m.zero_le⟩⟩
  | succ fuel ih =>
      intro id depth memo m t hMem hDepth hMemo hAgree
      have hReach := hTrace.reachable id hMem
      obtain ⟨paths, memo₁, hRun⟩ :=
        valuePaths_succeeds (hTrace.retraceable hTrace.reachable) hReach hDepth memo
      obtain ⟨hMemo₁, hAnswers⟩ := valuePaths_answers hMemo hRun
      have hEach : ∀ path ∈ paths, ∀ memo, v.Recalls memo → ∃ told memo',
          v.pathType (v.valueTypeWithin fuel) path memo = .ok (told, memo') ∧ v.Recalls memo' ∧
            (told = t ∨ told = .divergent ∧ fuel + 1 ≤ m) := by
        intro path hPath memo hMemo
        obtain ⟨trail, hDerives⟩ := hAnswers.derived path hPath
        obtain ⟨o, hSource, -⟩ := hDerives.traces rfl
        have hBrings := (hAnswers.brings_iff hTrace hMem hDepth).mp
          (List.mem_map.mpr ⟨path, hPath, hSource⟩)
        rw [pathType_eq hSource]
        exact originType_infers hTrace ih hMemo (hAgree o hBrings)
      obtain ⟨types, memo₂, hTypes, hMemo₂, hAll⟩ := hMemo₁.mapM_succeeds hEach
      refine ⟨.common types, memo₂, ?_, hMemo₂, ?_⟩
      · exact (Walk.bind_of_ok hRun).trans (Walk.bind_of_ok hTypes)
      · have hCommon : ∀ told ∈ types, told = t ∨ told = .divergent ∧ fuel + 1 ≤ m := by
          intro told hTold
          obtain ⟨path, -, h⟩ := exists_related hAll.flip hTold
          exact h
        rcases Nat.lt_or_ge m (fuel + 1) with hSeldom | hOften
        · have hSame : ∀ told ∈ types, told = t := fun told hTold =>
            (hCommon told hTold).resolve_right fun h => Nat.not_le.mpr hSeldom h.2
          obtain ⟨o, hBrings⟩ := hTrace.exists_brings hMem hDepth
          obtain ⟨path, hPath, -⟩ :=
            List.mem_map.mp ((hAnswers.brings_iff hTrace hMem hDepth).mpr hBrings)
          obtain ⟨told, hTold, -⟩ := exists_related hAll hPath
          exact Or.inl (StackType.common_of_forall (List.ne_nil_of_mem hTold) hSame)
        · have hEither := StackType.common_cases fun told hTold =>
            (hCommon told hTold).imp_right And.left
          exact hEither.imp_right fun hNone => ⟨hNone, hOften⟩

end Inference

end CodeView

namespace Query

variable {p : Program} {method : MethodId} {b : MethodBody} {cache : FlowCache}
  {height : InstrId → Nat}

/-- In traceable code the type of an operand is told exactly if everything that some
walk brings there has it, by derivations that pass it on no more often than the limit
allows. Where a type is passed on more often, it is told or none is. -/
theorem operandType_ok_iff (hBody : p.body method = .ok b) (hCache : cache.Describes method b)
    (hTrace : (CodeView.ofBody p method b).Traceable height) {id : InstrId} {effect : StackEffect}
    (hEffect : (CodeView.ofBody p method b).effect id = .ok effect) {slot : Nat}
    (hSlot : slot < effect.pops) (t : StackType) :
    (t ≠ .divergent → ((∃ after, operandType p method id slot cache = .ok t after) ↔
      ∀ o, (CodeView.ofBody p method b).Brings o id (effect.pops - 1 - slot) →
        (CodeView.ofBody p method b).HasType CodeView.derivationLimit o t)) ∧
    ∀ n, (∀ o, (CodeView.ofBody p method b).Brings o id (effect.pops - 1 - slot) →
        (CodeView.ofBody p method b).HasType n o t) →
      ∃ told after, operandType p method id slot cache = .ok told after ∧
        (told = t ∨ told = .divergent ∧ CodeView.derivationLimit < n) := by
  have hMem := CodeView.mem_order_of_effect hEffect
  have hPops : effect.pops ≤ height id := hTrace.pops_le hEffect
  have hDepth : effect.pops - 1 - slot < height id := by omega
  have hOperand := CodeView.operandDepth_ok hEffect hSlot
  have hInfers (n : Nat) (hAgree : ∀ o, (CodeView.ofBody p method b).Brings o id
        (effect.pops - 1 - slot) → (CodeView.ofBody p method b).HasType n o t) :
      ∃ told after, operandType p method id slot cache = .ok told after ∧
        (told = t ∨ told = .divergent ∧ CodeView.derivationLimit < n) := by
    obtain ⟨told, memo, hRun, -, hTold⟩ :=
      CodeView.valueTypeWithin_infers hTrace _ id _ [] n t hMem hDepth .nil hAgree
    have hType : (CodeView.ofBody p method b).operandType id slot = .ok told :=
      Outcome.bind_ok.mpr ⟨_, hOperand, Walk.run'_of_ok hRun⟩
    obtain ⟨after, hAsk⟩ := ask_ok (fun v => v.operandType id slot) hBody hCache hType
    exact ⟨told, after, hAsk, hTold⟩
  refine ⟨fun hKnown => ⟨?_, fun hAgree => ?_⟩, hInfers⟩
  · rintro ⟨after, hAsk⟩
    obtain ⟨depth, hOperand', hRun⟩ := Outcome.bind_ok.mp (of_ask_ok hBody hCache hAsk)
    obtain rfl := Except.ok.inj (hOperand.symm.trans hOperand')
    obtain ⟨memo, hRun⟩ := Walk.run'_ok.mp hRun
    obtain ⟨-, hTells⟩ :=
      CodeView.valueTypeWithin_tells hTrace _ id _ [] t memo hMem hDepth .nil hRun
    exact (hTells hKnown).2
  · obtain ⟨told, after, hAsk, rfl | ⟨-, hOften⟩⟩ := hInfers _ hAgree
    · exact ⟨after, hAsk⟩
    · exact (Nat.lt_irrefl _ hOften).elim

end Query

section Negation

/-- A constant that is negated a number of times. -/
def negated (constant : Instruction) (times : Nat) : MethodBody :=
  .ofParts (constant :: (List.range times).map (fun k => ⟨⟨k + 1⟩, .neg, .none⟩) ++
    [⟨⟨times + 1⟩, .pop, .none⟩, ⟨⟨times + 2⟩, .ret, .none⟩]) [] []

/-- A program with such code. -/
def negatedProgram (constant : Instruction) (times : Nat) : Program :=
  { Program.empty with
    methods := [⟨⟨0⟩, "Negate", [], .void, .ofList [.static], [], some (negated constant times)⟩] }

/-- The view of such code. -/
def negatedView (constant : Instruction) (times : Nat) : CodeView :=
  .ofBody (negatedProgram constant times) ⟨0⟩ (negated constant times)

/-- The stack heights of such code. -/
def negatedHeight (times : Nat) (id : InstrId) : Nat :=
  if id.index = 0 ∨ times + 1 < id.index then 0 else 1

/-- In straight-line code in which each instruction leaves one value, the one on top comes
from the instruction ahead. -/
theorem CodeView.Traces.eq_pushed {v : CodeView} {times : Nat}
    (hOpen : ∀ id, v.index.handlerEntry? id = none)
    (hChain : ∀ a ∈ v.index.order, ∀ b ∈ v.index.successors a, b.index = a.index + 1)
    (hOne : ∀ k ≤ times, (v.effect ⟨k⟩).toOption.map (·.pushes) = some 1)
    (hOrder : ∀ a b, b ∈ v.index.successors a → a ∈ v.index.order) {k : Nat} (hk : k ≤ times)
    {o : Origin} (h : v.Traces o ⟨k + 1⟩ 0) : o = .pushed ⟨k⟩ := by
  have hAhead {a : InstrId} (hFlow : ⟨k + 1⟩ ∈ v.index.successors a) : a = ⟨k⟩ := by
    have hNext := hChain a (hOrder _ _ hFlow) _ hFlow
    obtain ⟨n⟩ := a
    exact congrArg InstrId.mk (Nat.succ.inj hNext).symm
  generalize hNone : 0 = depth at h
  cases h with
  | caught hCaught => cases (hOpen _).symm.trans hCaught
  | pushed hFlow => rw [hAhead hFlow]
  | passed _ hFlow hEffect =>
      obtain rfl := hAhead hFlow
      have hPushes := hOne k hk
      rw [hEffect] at hPushes
      have hPushes := Option.some_inj.mp hPushes
      dsimp only at hPushes
      omega

/-- What is known of code that negates a constant: each instruction is followed by the next
one alone and leaves one value. -/
structure Negates (constant : Instruction) (times : Nat) : Prop where
  traceable : (negatedView constant times).Traceable (negatedHeight times)
  first : (negatedView constant times).instr ⟨0⟩ = .ok constant
  instr : ∀ k < times, (negatedView constant times).instr ⟨k + 1⟩ = .ok ⟨⟨k + 1⟩, .neg, .none⟩
  brings : ∀ k ≤ times, ∀ o, (negatedView constant times).Brings o ⟨k + 1⟩ 0 → o = .pushed ⟨k⟩

theorem Negates.hasType {constant : Instruction} {times : Nat} (h : Negates constant times)
    {t : StackType} (hProduces : (negatedView constant times).Produces constant t) {k : Nat}
    (hk : k ≤ times) : (negatedView constant times).HasType k (.pushed ⟨k⟩) t := by
  induction k with
  | zero => exact .own h.first hProduces
  | succ k ih =>
      have hInstr := h.instr k hk
      have hEffect : (negatedView constant times).effect ⟨k + 1⟩ = .ok ⟨1, 1⟩ :=
        Outcome.bind_ok.mpr ⟨_, hInstr, rfl⟩
      exact .derived hInstr rfl hEffect rfl fun o hBrings =>
        h.brings k (Nat.le_of_succ_le hk) o hBrings ▸ ih (Nat.le_of_succ_le hk)

theorem Negates.of_check {constant : Instruction} {times : Nat}
    (hTrace : (negatedView constant times).isTraceable (negatedHeight times) = true)
    (hChain : ∀ a ∈ (negatedView constant times).index.order,
      ∀ b ∈ (negatedView constant times).index.successors a, b.index = a.index + 1)
    (hOne : ∀ k ≤ times, ((negatedView constant times).effect ⟨k⟩).toOption.map (·.pushes) = some 1)
    (hFirst : (negatedView constant times).instr ⟨0⟩ = .ok constant)
    (hInstr : ∀ k < times,
      (negatedView constant times).instr ⟨k + 1⟩ = .ok ⟨⟨k + 1⟩, .neg, .none⟩) :
    Negates constant times := by
  have hTraceable := CodeView.traceable_of_isTraceable rfl hTrace
  refine ⟨hTraceable, hFirst, hInstr, fun k hk o hBrings => ?_⟩
  exact ((hTraceable.traces_iff hTraceable.reachable).mpr hBrings).eq_pushed (fun _ => rfl) hChain
    hOne (fun _ _ hFlow => hTraceable.mem_order hFlow) hk

/-- The constant one. -/
def constantOne : Instruction := ⟨⟨0⟩, .ldcI4, .int32 1⟩

theorem constantOne_produces {times : Nat} :
    (negatedView constantOne times).Produces constantOne (.known .int32) :=
  fun _ _ => rfl

/-- Negated as often as the limit allows, a constant has its type. -/
theorem negated_told :
    (∃ after, Query.operandType (negatedProgram constantOne 32) ⟨0⟩ ⟨33⟩ 0 .empty =
      .ok (.known .int32) after) ∧
    ∃ told after, Query.operandType (negatedProgram constantOne 32) ⟨0⟩ ⟨33⟩ 0 .empty =
        .ok told after ∧
      (told = .known .int32 ∨ told = .divergent ∧ CodeView.derivationLimit < 32) := by
  have hNegates : Negates constantOne 32 :=
    .of_check (by decide +kernel) (by decide +kernel) (by decide +kernel) (by decide +kernel)
      (by decide +kernel)
  have hEffect : (negatedView constantOne 32).effect ⟨33⟩ = .ok ⟨1, 0⟩ := by decide +kernel
  have hAgree : ∀ o, (negatedView constantOne 32).Brings o ⟨33⟩ 0 →
      (negatedView constantOne 32).HasType 32 o (.known .int32) := fun o hBrings =>
    hNegates.brings 32 (Nat.le_refl _) o hBrings ▸
      hNegates.hasType constantOne_produces (Nat.le_refl _)
  obtain ⟨hIff, hAll⟩ := Query.operandType_ok_iff (p := negatedProgram constantOne 32) rfl
    (.empty _ _) hNegates.traceable hEffect Nat.one_pos (.known .int32)
  exact ⟨(hIff (by decide)).mpr hAgree, hAll 32 hAgree⟩

/-- Negated once more, all that is brought to the end has the type of the constant, but
none is told. And the negated null constant is taken for null, although it is not the
null constant that is brought there. -/
theorem negated_untold :
    ((∀ o, (negatedView constantOne 33).Brings o ⟨34⟩ 0 →
        (negatedView constantOne 33).HasType 33 o (.known .int32)) ∧
      ∃ after, Query.operandType (negatedProgram constantOne 33) ⟨0⟩ ⟨34⟩ 0 .empty =
        .ok .divergent after) ∧
    (∀ o, (negatedView ⟨⟨0⟩, .ldnull, .none⟩ 1).Brings o ⟨2⟩ 0 → o = .pushed ⟨1⟩) ∧
      (negatedView ⟨⟨0⟩, .ldnull, .none⟩ 1).instr ⟨1⟩ = .ok ⟨⟨1⟩, .neg, .none⟩ ∧
      ∃ after, Query.operandType (negatedProgram ⟨⟨0⟩, .ldnull, .none⟩ 1) ⟨0⟩ ⟨2⟩ 0 .empty =
        .ok .null after := by
  have hOften : Negates constantOne 33 :=
    .of_check (by decide +kernel) (by decide +kernel) (by decide +kernel) (by decide +kernel)
      (by decide +kernel)
  have hNull : Negates ⟨⟨0⟩, .ldnull, .none⟩ 1 :=
    .of_check (by decide) (by decide) (by decide) (by decide) (by decide)
  have hUntold : (negatedView constantOne 33).operandType ⟨34⟩ 0 = .ok .divergent := by
    decide +kernel
  have hTold : (negatedView ⟨⟨0⟩, .ldnull, .none⟩ 1).operandType ⟨2⟩ 0 = .ok .null := by
    decide +kernel
  refine ⟨⟨fun o hBrings => ?_, ?_⟩, hNull.brings 1 (Nat.le_refl 1), hNull.instr 0 Nat.one_pos, ?_⟩
  · exact hOften.brings 33 (Nat.le_refl _) o hBrings ▸
      hOften.hasType constantOne_produces (Nat.le_refl _)
  · exact Query.ask_ok (p := negatedProgram constantOne 33) (fun v => v.operandType ⟨34⟩ 0) rfl
      (.empty _ _) hUntold
  · exact Query.ask_ok (p := negatedProgram ⟨⟨0⟩, .ldnull, .none⟩ 1)
      (fun v => v.operandType ⟨2⟩ 0) rfl (.empty _ _) hTold

end Negation

end ContextBinding
