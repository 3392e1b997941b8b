import ContextBinding.Proofs.Step

/-! Steps as a whole. A step ends in some state, whether it succeeds or not, it may be bound not to
fail with errors of a kind, and from states that are related it may go on in the same way. -/

namespace ContextBinding

variable {ε ε' σ τ α β : Type}

/-- A step ends in a state, by success or by failure. -/
def Ends (x : EStateM ε σ α) (s t : σ) : Prop :=
  (∃ a, x s = .ok a t) ∨ ∃ e, x s = .error e t

/-- The state in which a step ends. -/
def endState (x : EStateM ε σ α) (s : σ) : σ :=
  match x s with
  | .ok _ t => t
  | .error _ t => t

theorem ends_endState (x : EStateM ε σ α) (s : σ) : Ends x s (endState x s) := by
  unfold endState
  cases hRun : x s with
  | ok a t => exact Or.inl ⟨a, hRun⟩
  | error e t => exact Or.inr ⟨e, hRun⟩

namespace Ends

variable {s t : σ}

theorem of_get_bind {f : σ → EStateM ε σ β} (h : Ends (get >>= f) s t) : Ends (f s) s t := h

theorem of_set_bind {u : σ} {f : PUnit → EStateM ε σ β} (h : Ends (set u >>= f) s t) :
    Ends (f ⟨⟩) u t := h

theorem of_modify_bind {g : σ → σ} {f : PUnit → EStateM ε σ β} (h : Ends (modify g >>= f) s t) :
    Ends (f ⟨⟩) (g s) t := h

theorem of_throw_bind {e : ε} {f : α → EStateM ε σ β}
    (h : Ends ((throw e : EStateM ε σ α) >>= f) s t) : t = s := by
  rcases h with ⟨b, h⟩ | ⟨e', h⟩
  · cases h
  · cases h
    rfl

/-- Where a step succeeds, that is how it ends. -/
theorem eq_of_ok {x : EStateM ε σ α} {a : α} {u : σ} (h : Ends x s t) (hRun : x s = .ok a u) :
    t = u := by
  rcases h with ⟨b, h⟩ | ⟨e, h⟩
  · exact (EStateM.Result.ok.inj (hRun.symm.trans h)).2.symm
  · cases hRun.symm.trans h

theorem of_ok_bind {x : EStateM ε σ α} {f : α → EStateM ε σ β} {a : α} {u : σ}
    (h : Ends (x >>= f) s t) (hRun : x s = .ok a u) : Ends (f a) u t := by
  unfold Ends at h
  rwa [Step.bind_of_ok hRun] at h

/-- A look goes on with what it finds, or ends the chain. -/
theorem of_lift_bind {x : Except ε α} {f : α → EStateM ε σ β}
    (h : Ends ((monadLift x : EStateM ε σ α) >>= f) s t) :
    t = s ∨ ∃ a, x = .ok a ∧ Ends (f a) s t := by
  cases x with
  | ok a => exact Or.inr ⟨a, rfl, h⟩
  | error e => exact Or.inl (of_throw_bind (e := e) h)

theorem pure {a : α} (h : Ends (pure a : EStateM ε σ α) s t) : t = s := by
  rcases h with ⟨b, h⟩ | ⟨e, h⟩
  · exact (Step.pure_ok.mp h).2.symm
  · cases h

theorem throw {e : ε} (h : Ends (throw e : EStateM ε σ α) s t) : t = s := by
  rcases h with ⟨a, h⟩ | ⟨e', h⟩
  · exact (Step.throw_ok.mp h).elim
  · cases h
    rfl

theorem modify {f : σ → σ} (h : Ends (modify f : EStateM ε σ PUnit) s t) : t = f s := by
  rcases h with ⟨a, h⟩ | ⟨e, h⟩
  · exact (Step.modify_ok.mp h).symm
  · cases h

/-- A chain ends where its first step fails, or where the second one ends. -/
theorem bind {x : EStateM ε σ α} {f : α → EStateM ε σ β} (h : Ends (x >>= f) s t) :
    Ends x s t ∨ ∃ a u, x s = .ok a u ∧ Ends (f a) u t := by
  cases hFirst : x s with
  | ok a u =>
      refine Or.inr ⟨a, u, rfl, ?_⟩
      rcases h with ⟨b, h⟩ | ⟨e, h⟩
      · exact Or.inl ⟨b, (Step.bind_of_ok hFirst).symm.trans h⟩
      · exact Or.inr ⟨e, (Step.bind_of_ok hFirst).symm.trans h⟩
  | error e u =>
      rcases h with ⟨b, h⟩ | ⟨e', h⟩
      · cases (Step.bind_of_error hFirst).symm.trans h
      · cases (Step.bind_of_error hFirst).symm.trans h
        exact Or.inl (Or.inr ⟨_, hFirst⟩)

theorem focus {part : σ → τ} {put : τ → σ → σ} {wrap : ε → ε'} {edit : EStateM ε τ α}
    (h : Ends (focus part put wrap edit) s t) : ∃ u, Ends edit (part s) u ∧ t = put u s := by
  unfold ContextBinding.focus at h
  unfold Ends at h ⊢
  cases hEdit : edit (part s) with
  | ok a u =>
      simp only [hEdit] at h
      rcases h with ⟨_, h⟩ | ⟨_, h⟩ <;> cases h
      exact ⟨u, Or.inl ⟨a, rfl⟩, rfl⟩
  | error e u =>
      simp only [hEdit] at h
      rcases h with ⟨_, h⟩ | ⟨_, h⟩ <;> cases h
      exact ⟨u, Or.inr ⟨e, rfl⟩, rfl⟩

end Ends

/-- Whatever a step ends in has a property that held before, whether it succeeds or not. -/
def Upholds (I : σ → Prop) (x : EStateM ε σ α) : Prop := ∀ ⦃s t⦄, I s → Ends x s t → I t

namespace Upholds

variable {I : σ → Prop} {J : τ → Prop}

theorem pure (a : α) : Upholds I (pure a : EStateM ε σ α) := fun _ _ hI h => h.pure ▸ hI

theorem get : Upholds I (get : EStateM ε σ σ) := by
  rintro s t hI (⟨a, h⟩ | ⟨e, h⟩)
  · exact (Step.get_ok.mp h).2 ▸ hI
  · cases h

theorem lift (x : Except ε α) : Upholds I (monadLift x : EStateM ε σ α) := by
  intro s t hI h
  cases x with
  | ok a => exact Ends.pure (a := a) h ▸ hI
  | error e => exact Ends.throw (e := e) h ▸ hI

theorem modify {f : σ → σ} (hf : ∀ s, I s → I (f s)) :
    Upholds I (modify f : EStateM ε σ PUnit) :=
  fun s _ hI h => h.modify ▸ hf s hI

theorem throw (e : ε) : Upholds I (throw e : EStateM ε σ α) := fun _ _ hI h => h.throw ▸ hI

theorem bind {x : EStateM ε σ α} {f : α → EStateM ε σ β} (hx : Upholds I x)
    (hf : ∀ a, Upholds I (f a)) : Upholds I (x >>= f) := by
  intro s t hI h
  rcases h.bind with h | ⟨a, u, hFirst, hRest⟩
  · exact hx hI h
  · exact hf a (hx hI (Or.inl ⟨a, hFirst⟩)) hRest

theorem ite {c : Prop} [Decidable c] {x y : EStateM ε σ α} (hx : c → Upholds I x)
    (hy : ¬ c → Upholds I y) : Upholds I (if c then x else y) := by
  split
  · exact hx ‹_›
  · exact hy ‹_›

theorem forM {f : α → EStateM ε σ PUnit} {l : List α} (hf : ∀ a, Upholds I (f a)) :
    Upholds I (l.forM f) := by
  induction l with
  | nil => exact pure _
  | cons a l ih => exact bind (hf a) fun _ => ih

theorem get_bind {f : σ → EStateM ε σ β} (hf : ∀ s, I s → Upholds I (f s)) :
    Upholds I (MonadState.get >>= f) :=
  fun s _ hI h => hf s hI hI h.of_get_bind

theorem set {u : σ} (h : I u) : Upholds I (set u : EStateM ε σ PUnit) := by
  rintro s t - (⟨a, hRun⟩ | ⟨e, hRun⟩)
  · exact Step.set_ok.mp hRun ▸ h
  · cases hRun

theorem mapM {f : α → EStateM ε σ β} {l : List α} (hf : ∀ a, Upholds I (f a)) :
    Upholds I (l.mapM f) := by
  induction l with
  | nil => exact pure _
  | cons a l ih =>
      rw [List.mapM_cons]
      exact bind (hf a) fun _ => bind ih fun _ => pure _

theorem focus {part : σ → τ} {put : τ → σ → σ} {wrap : ε' → ε} {edit : EStateM ε' τ α}
    (h : Upholds J edit) (hPart : ∀ s, I s → J (part s)) (hPut : ∀ s u, I s → J u → I (put u s)) :
    Upholds I (focus part put wrap edit) := by
  intro s t hI hEnds
  obtain ⟨u, hEdit, rfl⟩ := hEnds.focus
  exact hPut s u hI (h (hPart s hI) hEdit)

end Upholds

/-- Started in a state, a step does not fail with an error of a kind. -/
def Avoids (bad : ε → Prop) (x : EStateM ε σ α) (s : σ) : Prop :=
  ∀ e t, x s = .error e t → ¬ bad e

namespace Avoids

variable {bad : ε → Prop} {s : σ}

theorem pure (a : α) : Avoids bad (pure a : EStateM ε σ α) s := nofun

theorem modify (f : σ → σ) : Avoids bad (modify f : EStateM ε σ PUnit) s := nofun

theorem throw {e : ε} (h : ¬ bad e) : Avoids bad (throw e : EStateM ε σ α) s := by
  rintro _ _ ⟨⟩
  exact h

theorem bind {x : EStateM ε σ α} {f : α → EStateM ε σ β} (hx : Avoids bad x s)
    (hf : ∀ a u, x s = .ok a u → Avoids bad (f a) u) : Avoids bad (x >>= f) s := by
  intro e t h
  cases hFirst : x s with
  | ok a u => exact hf a u hFirst e t ((Step.bind_of_ok hFirst).symm.trans h)
  | error e' u =>
      cases (Step.bind_of_error hFirst).symm.trans h
      exact hx e t hFirst

theorem get_bind {f : σ → EStateM ε σ β} (h : Avoids bad (f s) s) : Avoids bad (get >>= f) s := h

theorem ite {c : Prop} [Decidable c] {x y : EStateM ε σ α} (hx : c → Avoids bad x s)
    (hy : ¬ c → Avoids bad y s) : Avoids bad (if c then x else y) s := by
  split
  · exact hx ‹_›
  · exact hy ‹_›

theorem lift {x : Except ε α} (h : ∀ e, x = .error e → ¬ bad e) :
    Avoids bad (monadLift x : EStateM ε σ α) s := by
  cases x with
  | ok a => exact pure a
  | error e => exact throw (h e rfl)

theorem focus {part : σ → τ} {put : τ → σ → σ} {wrap : ε' → ε} {edit : EStateM ε' τ α}
    (h : Avoids (fun e => bad (wrap e)) edit (part s)) :
    Avoids bad (focus part put wrap edit) s := by
  intro e t hRun
  unfold ContextBinding.focus at hRun
  cases hEdit : edit (part s) with
  | ok a u =>
      rw [hEdit] at hRun
      cases hRun
  | error e' u =>
      rw [hEdit] at hRun
      cases hRun
      exact h e' u hEdit

end Avoids

/-- Where a step succeeds, it does so from every related state, with the same outcome, and what it
ends in is related again. -/
def Follows (R : σ → σ → Prop) (x : EStateM ε σ α) : Prop :=
  ∀ ⦃s s' a t⦄, R s s' → x s = .ok a t → ∃ t', x s' = .ok a t' ∧ R t t'

namespace Follows

variable {R : σ → σ → Prop}

theorem pure (a : α) : Follows R (pure a : EStateM ε σ α) := by
  intro s s' b t hR h
  obtain ⟨rfl, rfl⟩ := Step.pure_ok.mp h
  exact ⟨s', rfl, hR⟩

theorem throw (e : ε) : Follows R (throw e : EStateM ε σ α) :=
  fun _ _ _ _ _ h => (Step.throw_ok.mp h).elim

theorem modify {f : σ → σ} (hf : ∀ s s', R s s' → R (f s) (f s')) :
    Follows R (modify f : EStateM ε σ PUnit) := by
  intro s s' a t hR h
  obtain rfl := Step.modify_ok.mp h
  exact ⟨f s', rfl, hf s s' hR⟩

theorem bind {x : EStateM ε σ α} {f : α → EStateM ε σ β} (hx : Follows R x)
    (hf : ∀ a, Follows R (f a)) : Follows R (x >>= f) := by
  intro s s' b t hR h
  obtain ⟨a, u, hFirst, h⟩ := Step.bind_ok.mp h
  obtain ⟨u', hFirst', hR'⟩ := hx hR hFirst
  obtain ⟨t', h', hEnd⟩ := hf a hR' h
  exact ⟨t', Step.bind_ok.mpr ⟨a, u', hFirst', h'⟩, hEnd⟩

theorem mapM {f : α → EStateM ε σ β} {l : List α} (hf : ∀ a ∈ l, Follows R (f a)) :
    Follows R (l.mapM f) := by
  induction l with
  | nil => exact pure _
  | cons a l ih =>
      rw [List.mapM_cons]
      refine bind (hf a (List.mem_cons_self ..)) fun _ => bind ?_ fun _ => pure _
      exact ih fun b hb => hf b (List.mem_cons_of_mem _ hb)

theorem focus {R' : τ → τ → Prop} {part : σ → τ} {put : τ → σ → σ} {wrap : ε → ε'}
    {edit : EStateM ε τ α} (h : Follows R' edit) (hPart : ∀ s s', R s s' → R' (part s) (part s'))
    (hPut : ∀ s s' u u', R s s' → R' u u' → R (put u s) (put u' s')) :
    Follows R (focus part put wrap edit) := by
  intro s s' a t hR hRun
  obtain ⟨u, hEdit, rfl⟩ := Step.focus_ok.mp hRun
  obtain ⟨u', hEdit', hEnd⟩ := h (hPart s s' hR) hEdit
  exact ⟨put u' s', Step.focus_ok.mpr ⟨u', hEdit', rfl⟩, hPut s s' u u' hR hEnd⟩

end Follows

/-- A step that fails has changed nothing. -/
def Atomic (x : EStateM ε σ α) : Prop := ∀ ⦃s e t⦄, x s = .error e t → t = s

namespace Atomic

theorem of_succeeds {x : EStateM ε σ α} (h : ∀ s, ∃ a t, x s = .ok a t) : Atomic x := by
  intro s e t hFails
  obtain ⟨a, u, hRun⟩ := h s
  cases hRun.symm.trans hFails

theorem throw (e : ε) : Atomic (throw e : EStateM ε σ α) := by
  intro s e t h
  cases h
  rfl

/-- A look that fails changes nothing, and what comes after a look starts where it started. -/
theorem bind {x : EStateM ε σ α} {f : α → EStateM ε σ β} (hx : Atomic x)
    (hLook : Keeps Eq x) (hf : ∀ a, Atomic (f a)) : Atomic (x >>= f) := by
  intro s e t h
  cases hFirst : x s with
  | error e' u =>
      cases (Step.bind_of_error hFirst).symm.trans h
      exact hx hFirst
  | ok a u =>
      obtain rfl := hLook hFirst
      exact hf a ((Step.bind_of_ok hFirst).symm.trans h)

/-- What cannot fail may come last. -/
theorem bind_succeeds {x : EStateM ε σ α} {f : α → EStateM ε σ β} (hx : Atomic x)
    (hf : ∀ a s, ∃ b t, f a s = .ok b t) : Atomic (x >>= f) := by
  intro s e t h
  cases hFirst : x s with
  | error e' u =>
      cases (Step.bind_of_error hFirst).symm.trans h
      exact hx hFirst
  | ok a u =>
      obtain ⟨b, v, hRest⟩ := hf a u
      cases hRest.symm.trans ((Step.bind_of_ok hFirst).symm.trans h)

end Atomic

/-- Where each step of a list can be taken and leads to where the next one can, all can be. -/
theorem Step.forM_succeeds {I : List α → σ → Prop} {f : α → EStateM ε σ PUnit}
    (hf : ∀ a rest s, I (a :: rest) s → ∃ t, f a s = .ok ⟨⟩ t ∧ I rest t) {l : List α} {s : σ}
    (hStart : I l s) : ∃ t, l.forM f s = .ok ⟨⟩ t ∧ I [] t := by
  induction l generalizing s with
  | nil => exact ⟨s, rfl, hStart⟩
  | cons a l ih =>
      obtain ⟨u, hFirst, hNext⟩ := hf a l s hStart
      obtain ⟨t, hRest, hEnd⟩ := ih hNext
      exact ⟨t, Step.bind_ok.mpr ⟨⟨⟩, u, hFirst, hRest⟩, hEnd⟩

end ContextBinding
