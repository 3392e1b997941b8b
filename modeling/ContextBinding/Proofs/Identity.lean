import ContextBinding.Program.Lookup

/-! Identities of methods. What is put together from an owner, a name and parameter types is taken
apart into these again, and look-up goes by the parts alone. -/

namespace ContextBinding

namespace Text

theorem splitAtFirst_append {mark : Char} {ahead behind : List Char} (h : mark ∉ ahead) :
    splitAtFirst mark (ahead ++ mark :: behind) = some (ahead, behind) := by
  have hPass : ∀ c ∈ ahead, (c != mark) = true := fun c hMem => by
    simpa using fun hSame : c = mark => h (hSame ▸ hMem)
  unfold splitAtFirst
  rw [List.dropWhile_append_of_pos hPass, List.takeWhile_append_of_pos hPass]
  simp

theorem splitAtLastColons_eq_none {cs : List Char} (h : ':' ∉ cs) : splitAtLastColons cs = none := by
  induction cs with
  | nil => rfl
  | cons c cs ih =>
      rw [List.mem_cons, not_or] at h
      simp only [splitAtLastColons, ih h.2]
      split
      · exact (h.1 rfl).elim
      · rfl

/-- The last double colon is the one that no colon follows. -/
theorem splitAtLastColons_append {ahead behind : List Char} (h : ':' ∉ behind) :
    splitAtLastColons (ahead ++ ':' :: ':' :: behind) = some (ahead, behind) := by
  induction ahead with
  | nil =>
      have hInner : splitAtLastColons (':' :: behind) = none := by
        simp only [splitAtLastColons, splitAtLastColons_eq_none h]
        split
        · exact (h (List.mem_cons_self ..)).elim
        · rfl
      rw [List.nil_append, splitAtLastColons.eq_def]
      simp only [hInner]
  | cons c ahead ih => simp only [List.cons_append, splitAtLastColons, ih]

theorem splitAtCommas_of_notMem {part : List Char} (h : ',' ∉ part) :
    splitAtCommas part = [part] := by
  induction part with
  | nil => rfl
  | cons c part ih =>
      rw [List.mem_cons, not_or] at h
      rw [splitAtCommas, if_neg (Ne.symm h.1), ih h.2]

theorem splitAtCommas_append {part rest : List Char} (h : ',' ∉ part) :
    splitAtCommas (part ++ ',' :: rest) = part :: splitAtCommas rest := by
  induction part with
  | nil => rw [List.nil_append, splitAtCommas, if_pos rfl]
  | cons c part ih =>
      rw [List.mem_cons, not_or] at h
      rw [List.cons_append, splitAtCommas, if_neg (Ne.symm h.1), ih h.2]

/-- Parts that are joined by commas come apart again. -/
theorem splitAtCommas_intercalate {parts : List (List Char)} (hSome : parts ≠ [])
    (h : ∀ part ∈ parts, ',' ∉ part) : splitAtCommas ([','].intercalate parts) = parts := by
  induction parts with
  | nil => exact (hSome rfl).elim
  | cons part parts ih =>
      obtain ⟨hFirst, hRest⟩ := List.forall_mem_cons.mp h
      cases parts with
      | nil => rw [List.intercalate_singleton, splitAtCommas_of_notMem hFirst]
      | cons next parts =>
          rw [List.intercalate_cons_cons, List.append_assoc, List.singleton_append,
            splitAtCommas_append hFirst, ih (by simp) hRest]

/-- The parts around the first mark make up the text with it. -/
theorem append_of_splitAtFirst {mark : Char} {cs ahead behind : List Char}
    (h : splitAtFirst mark cs = some (ahead, behind)) : cs = ahead ++ mark :: behind := by
  unfold splitAtFirst at h
  split at h
  · cases h
  · rename_i c rest hRest
    obtain ⟨rfl, rfl⟩ := Prod.mk.inj (Option.some_inj.mp h)
    have hMark : c = mark := by
      have hStop := List.head?_dropWhile_not (· != mark) cs
      simpa [hRest] using hStop
    rw [← hMark, ← hRest, hMark, List.takeWhile_append_dropWhile]

/-- The parts around the last double colon make up the text with it. -/
theorem append_of_splitAtLastColons {cs ahead behind : List Char}
    (h : splitAtLastColons cs = some (ahead, behind)) : cs = ahead ++ ':' :: ':' :: behind := by
  induction cs generalizing ahead with
  | nil => cases h
  | cons c rest ih =>
      rw [splitAtLastColons.eq_def] at h
      dsimp only at h
      split at h
      · rename_i inner outer hInner
        obtain ⟨rfl, rfl⟩ := Prod.mk.inj (Option.some_inj.mp h)
        rw [ih hInner, List.cons_append]
      · split at h
        · obtain ⟨rfl, rfl⟩ := Prod.mk.inj (Option.some_inj.mp h)
          rfl
        · cases h

theorem splitAtCommas_ne_nil (cs : List Char) : splitAtCommas cs ≠ [] := by
  cases cs with
  | nil => simp [splitAtCommas]
  | cons c rest =>
      rw [splitAtCommas]
      split
      · simp
      · split <;> simp

/-- The parts between commas make up the text with them. -/
theorem intercalate_splitAtCommas (cs : List Char) : [','].intercalate (splitAtCommas cs) = cs := by
  induction cs with
  | nil => rfl
  | cons c rest ih =>
      rw [splitAtCommas]
      cases hParts : splitAtCommas rest with
      | nil => exact (splitAtCommas_ne_nil rest hParts).elim
      | cons part parts =>
          rw [hParts] at ih
          split
          · rename_i hComma
            rw [List.intercalate_cons_cons, ih, hComma]
            rfl
          · cases parts with
            | nil => simpa using ih
            | cons next parts =>
                rw [List.intercalate_cons_cons] at ih ⊢
                rw [← ih]
                simp

end Text

namespace IdentityParts

/-- The identity that the parts make up. -/
def text (parts : IdentityParts) : String :=
  parts.owner ++ "::" ++ parts.name ++ "(" ++ ",".intercalate parts.params ++ ")"

/-- The key of a method with the parts in a look-up table. -/
def hash (digest : String → UInt64) (parts : IdentityParts) : SymbolHash :=
  SymbolHash.ofMethod digest (SymbolHash.ofType digest parts.owner) parts.name
    (parts.params.map (SymbolHash.ofType digest))

/-- The parts keep clear of the marks that stand between them. -/
structure Readable (parts : IdentityParts) : Prop where
  owner : '(' ∉ parts.owner.toList
  name : '(' ∉ parts.name.toList ∧ ':' ∉ parts.name.toList
  params : ∀ param ∈ parts.params,
    param ≠ "" ∧ ',' ∉ param.toList ∧ Text.trimBlanks param.toList = param.toList

instance : DecidablePred Readable := fun parts =>
  decidable_of_iff
    ('(' ∉ parts.owner.toList ∧ ('(' ∉ parts.name.toList ∧ ':' ∉ parts.name.toList) ∧
      ∀ param ∈ parts.params,
        param ≠ "" ∧ ',' ∉ param.toList ∧ Text.trimBlanks param.toList = param.toList)
    ⟨fun ⟨hOwner, hName, hParams⟩ => ⟨hOwner, hName, hParams⟩,
      fun ⟨hOwner, hName, hParams⟩ => ⟨hOwner, hName, hParams⟩⟩

/-- The list of parameters of an identity, read back. -/
theorem params_read {params : List String}
    (h : ∀ param ∈ params,
      param ≠ "" ∧ ',' ∉ param.toList ∧ Text.trimBlanks param.toList = param.toList) :
    (if ([','].intercalate (params.map String.toList)).isEmpty then []
      else (Text.splitAtCommas ([','].intercalate (params.map String.toList))).map Text.trimBlanks)
        = params.map String.toList := by
  cases params with
  | nil => rfl
  | cons param params =>
      have hFirst : param.toList ≠ [] := fun hEmpty =>
        (h param (List.mem_cons_self ..)).1 (by simpa using hEmpty)
      have hFilled : [','].intercalate ((param :: params).map String.toList) ≠ [] := by
        cases params with
        | nil => simpa using hFirst
        | cons next params => simp [List.intercalate_cons_cons]
      rw [if_neg (by simpa using hFilled), Text.splitAtCommas_intercalate (by simp) (by
        simpa using fun param hMem => (h param hMem).2.1)]
      rw [List.map_map]
      exact List.map_congr_left fun param hMem => (h param hMem).2.2

/-- An identity is taken apart into the parts that it was put together from. -/
theorem ofText?_text {parts : IdentityParts} (h : parts.Readable) :
    ofText? parts.text = some parts := by
  have hText : parts.text.toList = (parts.owner.toList ++ ':' :: ':' :: parts.name.toList) ++
      '(' :: ([','].intercalate (parts.params.map String.toList) ++ [')']) := by
    simp [text, String.toList_intercalate]
  have hHead : '(' ∉ parts.owner.toList ++ ':' :: ':' :: parts.name.toList := by
    simpa using ⟨h.owner, h.name.1⟩
  unfold ofText?
  rw [hText, Text.splitAtFirst_append hHead]
  simp only [Option.bind_eq_bind, Option.bind_some, List.reverse_append, List.reverse_cons,
    List.reverse_nil, List.nil_append, List.singleton_append, List.reverse_reverse]
  rw [Text.splitAtLastColons_append h.name.2, Option.bind_some, params_read h.params]
  simp [Function.comp_def]

/-- The parts with the blanks around each parameter left out. -/
def trimmed (parts : IdentityParts) : IdentityParts :=
  { parts with params := parts.params.map fun param => String.ofList (Text.trimBlanks param.toList) }

/-- What is taken apart was put together from these parts, but for blanks around the parameters. -/
theorem ofText?_eq_some {text : String} {parts : IdentityParts} (h : ofText? text = some parts) :
    ∃ raw : IdentityParts, text = raw.text ∧ parts = raw.trimmed := by
  unfold ofText? at h
  simp only [Option.bind_eq_bind, Option.bind_eq_some_iff] at h
  obtain ⟨⟨head, rest⟩, hHead, h⟩ := h
  dsimp only at h
  split at h
  · rename_i inner hClose
    simp only [Option.bind_some, Option.bind_eq_some_iff, Option.pure_def] at h
    obtain ⟨⟨owner, name⟩, hName, h⟩ := h
    obtain rfl := Option.some_inj.mp h
    have hRest : rest = inner.reverse ++ [')'] := by
      simpa using congrArg List.reverse hClose
    have hText : text.toList = (owner ++ ':' :: ':' :: name) ++ '(' :: (inner.reverse ++ [')']) := by
      rw [Text.append_of_splitAtFirst hHead, Text.append_of_splitAtLastColons hName, hRest]
    let raw : List (List Char) :=
      if inner.reverse.isEmpty then [] else Text.splitAtCommas inner.reverse
    have hRaw : [','].intercalate raw = inner.reverse := by
      dsimp only [raw]
      split
      · rename_i hEmpty
        rw [List.isEmpty_iff.mp hEmpty]
        rfl
      · exact Text.intercalate_splitAtCommas _
    refine ⟨⟨String.ofList owner, String.ofList name, raw.map String.ofList⟩, ?_, ?_⟩
    · apply String.toList_injective
      simp [hText, IdentityParts.text, String.toList_intercalate, Function.comp_def, hRaw]
    · dsimp only [trimmed, raw]
      split <;> simp [Function.comp_def]
  · cases h

end IdentityParts

end ContextBinding
