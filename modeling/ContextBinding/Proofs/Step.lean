import ContextBinding.Error
import ContextBinding.Focus
import Mathlib.Order.Defs.Unbundled

/-! Reading steps that succeed. A step is opened with the equations below, and
 what a whole run keeps follows from what each of its steps keeps. -/

namespace ContextBinding

variable {ε ε' σ τ α β : Type}

namespace Outcome

theorem pure_ok {a b : α} : (pure a : Except ε α) = .ok b ↔ a = b := by
  change Except.ok a = .ok b ↔ _
  simp

theorem bind_ok {x : Except ε α} {f : α → Except ε β} {b : β} :
    x >>= f = .ok b ↔ ∃ a, x = .ok a ∧ f a = .ok b := by
  change Except.bind x f = _ ↔ _
  unfold Except.bind
  cases x <;> simp

theorem throw_ok {e : ε} {a : α} : (throw e : Except ε α) = .ok a ↔ False := by
  change Except.error e = .ok a ↔ _
  simp

theorem mapError_ok {x : Except ε α} {f : ε → ε'} {a : α} :
    x.mapError f = .ok a ↔ x = .ok a := by
  cases x with
  | ok b =>
      change Except.ok b = .ok a ↔ _
      simp
  | error e => exact ⟨nofun, nofun⟩

theorem forM_ok {f : α → Except ε Unit} {l : List α} :
    l.forM f = .ok () ↔ ∀ a ∈ l, f a = .ok () := by
  induction l with
  | nil => exact iff_of_true rfl fun _ h => (List.not_mem_nil h).elim
  | cons a l ih =>
      change (f a >>= fun _ => l.forM f) = _ ↔ _
      rw [bind_ok, List.forall_mem_cons, ← ih]
      exact ⟨fun ⟨_, hFirst, hRest⟩ => ⟨hFirst, hRest⟩, fun ⟨hFirst, hRest⟩ => ⟨_, hFirst, hRest⟩⟩

theorem mapM_mem_ok {f : α → Except ε β} {l : List α} {bs : List β} (h : l.mapM f = .ok bs)
    {a : α} (ha : a ∈ l) : ∃ b ∈ bs, f a = .ok b := by
  induction l generalizing bs with
  | nil => exact (List.not_mem_nil ha).elim
  | cons c l ih =>
      rw [List.mapM_cons, bind_ok] at h
      obtain ⟨b, hFirst, h⟩ := h
      obtain ⟨bs', hRest, h⟩ := bind_ok.mp h
      obtain rfl := pure_ok.mp h
      rcases List.mem_cons.mp ha with rfl | ha
      · exact ⟨b, List.mem_cons_self .., hFirst⟩
      · obtain ⟨b', hMem, hStep⟩ := ih hRest ha
        exact ⟨b', List.mem_cons_of_mem _ hMem, hStep⟩

/-- Every result comes from an element of the list. -/
theorem mem_mapM_ok {f : α → Except ε β} {l : List α} {bs : List β} (h : l.mapM f = .ok bs)
    {b : β} (hb : b ∈ bs) : ∃ a ∈ l, f a = .ok b := by
  induction l generalizing bs with
  | nil =>
      obtain rfl := pure_ok.mp h
      exact (List.not_mem_nil hb).elim
  | cons c l ih =>
      rw [List.mapM_cons, bind_ok] at h
      obtain ⟨b', hFirst, h⟩ := h
      obtain ⟨bs', hRest, h⟩ := bind_ok.mp h
      obtain rfl := pure_ok.mp h
      rcases List.mem_cons.mp hb with rfl | hb
      · exact ⟨c, List.mem_cons_self .., hFirst⟩
      · obtain ⟨a, hMem, hStep⟩ := ih hRest hb
        exact ⟨a, List.mem_cons_of_mem _ hMem, hStep⟩

theorem length_mapM_ok {f : α → Except ε β} {l : List α} {bs : List β} (h : l.mapM f = .ok bs) :
    bs.length = l.length := by
  induction l generalizing bs with
  | nil => exact congrArg List.length (pure_ok.mp h).symm
  | cons a l ih =>
      rw [List.mapM_cons, bind_ok] at h
      obtain ⟨b, -, h⟩ := h
      obtain ⟨bs', hRest, h⟩ := bind_ok.mp h
      obtain rfl := pure_ok.mp h
      exact congrArg (· + 1) (ih hRest)

theorem mapM_succeeds {f : α → Except ε β} {l : List α} (h : ∀ a ∈ l, ∃ b, f a = .ok b) :
    ∃ bs, l.mapM f = .ok bs := by
  induction l with
  | nil => exact ⟨[], rfl⟩
  | cons a l ih =>
      obtain ⟨b, hFirst⟩ := h a (List.mem_cons_self ..)
      obtain ⟨bs, hRest⟩ := ih fun c hc => h c (List.mem_cons_of_mem _ hc)
      refine ⟨b :: bs, ?_⟩
      rw [List.mapM_cons, bind_ok]
      exact ⟨b, hFirst, bind_ok.mpr ⟨bs, hRest, rfl⟩⟩

/-- Whether there is a result that satisfies a condition. -/
def yields (x : Except ε α) (c : α → Bool) : Bool :=
  match x with
  | .ok a => c a
  | .error _ => false

theorem ok_of_yields {x : Except ε α} {c : α → Bool} (h : yields x c = true) :
    ∃ a, x = .ok a ∧ c a = true := by
  cases x with
  | ok a => exact ⟨a, rfl, h⟩
  | error e => cases h

end Outcome

namespace Step

/-- Whether a step succeeds, with a result and a state that satisfy a condition. -/
def yields (r : EStateM.Result ε σ α) (c : α → σ → Bool) : Bool :=
  match r with
  | .ok a s => c a s
  | .error _ _ => false

theorem ok_of_yields {r : EStateM.Result ε σ α} {c : α → σ → Bool} (h : yields r c = true) :
    ∃ a s, r = .ok a s ∧ c a s = true := by
  cases r with
  | ok a s => exact ⟨a, s, rfl, h⟩
  | error e s => cases h

/-- The error that a step fails with. -/
def error? : EStateM.Result ε σ α → Option ε
  | .ok _ _ => none
  | .error e _ => some e

theorem of_error? {r : EStateM.Result ε σ α} {e : ε} (h : error? r = some e) : ∃ s, r = .error e s := by
  cases r with
  | ok a s => cases h
  | error e' s => exact ⟨s, by rw [Option.some_inj.mp h]⟩

theorem pure_ok {a b : α} {s t : σ} :
    (pure a : EStateM ε σ α) s = .ok b t ↔ a = b ∧ s = t := by
  change EStateM.Result.ok a s = .ok b t ↔ _
  simp

theorem bind_ok {x : EStateM ε σ α} {f : α → EStateM ε σ β} {s t : σ} {b : β} :
    (x >>= f) s = .ok b t ↔ ∃ a u, x s = .ok a u ∧ f a u = .ok b t := by
  change EStateM.bind x f s = _ ↔ _
  unfold EStateM.bind
  cases x s <;> simp [and_assoc]

/-- A chain goes on where its first step succeeds. -/
theorem bind_of_ok {x : EStateM ε σ α} {f : α → EStateM ε σ β} {s t : σ} {a : α}
    (h : x s = .ok a t) : (x >>= f) s = f a t := by
  change EStateM.bind x f s = _
  rw [EStateM.bind, h]

/-- A chain fails where its first step fails. -/
theorem bind_of_error {x : EStateM ε σ α} {f : α → EStateM ε σ β} {s t : σ} {e : ε}
    (h : x s = .error e t) : (x >>= f) s = .error e t := by
  change EStateM.bind x f s = _
  rw [EStateM.bind, h]

theorem map_ok {x : EStateM ε σ α} {f : α → β} {s t : σ} {b : β} :
    (f <$> x) s = .ok b t ↔ ∃ a, x s = .ok a t ∧ f a = b := by
  change EStateM.map f x s = _ ↔ _
  unfold EStateM.map
  cases x s <;> simp [and_assoc, and_comm]

theorem get_ok {s t a : σ} :
    (get : EStateM ε σ σ) s = .ok a t ↔ s = a ∧ s = t := by
  change EStateM.Result.ok s s = .ok a t ↔ _
  simp

theorem set_ok {s t u : σ} {a : PUnit} :
    (set u : EStateM ε σ PUnit) s = .ok a t ↔ u = t := by
  change EStateM.Result.ok _ u = .ok a t ↔ _
  simp

theorem modify_ok {f : σ → σ} {s t : σ} {a : PUnit} :
    (modify f : EStateM ε σ PUnit) s = .ok a t ↔ f s = t := by
  change EStateM.Result.ok _ (f s) = .ok a t ↔ _
  simp

theorem modifyGet_ok {f : σ → α × σ} {s t : σ} {a : α} :
    (modifyGet f : EStateM ε σ α) s = .ok a t ↔ f s = (a, t) := by
  change (match f s with | (a, s) => EStateM.Result.ok a s) = .ok a t ↔ _
  rcases f s with ⟨b, u⟩
  simp

theorem throw_ok {e : ε} {s t : σ} {a : α} :
    (throw e : EStateM ε σ α) s = .ok a t ↔ False := by
  change EStateM.Result.error e s = .ok a t ↔ _
  simp

theorem lift_ok {x : Except ε α} {s t : σ} {a : α} :
    (monadLift x : EStateM ε σ α) s = .ok a t ↔ x = .ok a ∧ s = t := by
  cases x with
  | error e => exact (throw_ok (e := e)).trans (by simp)
  | ok b => exact pure_ok.trans (by simp)

theorem focus_ok {part : σ → τ} {put : τ → σ → σ} {wrap : ε → ε'} {edit : EStateM ε τ α}
    {s t : σ} {a : α} :
    focus part put wrap edit s = .ok a t ↔ ∃ u, edit (part s) = .ok a u ∧ put u s = t := by
  unfold focus
  cases edit (part s) <;> simp [and_assoc]

theorem mapM_cons_ok {f : α → EStateM ε σ β} {a : α} {l : List α} {bs : List β} {s t : σ} :
    (a :: l).mapM f s = .ok bs t ↔
      ∃ b u bs', f a s = .ok b u ∧ l.mapM f u = .ok bs' t ∧ b :: bs' = bs := by
  rw [List.mapM_cons, bind_ok]
  simp only [bind_ok, pure_ok]
  constructor
  · rintro ⟨b, u, hFirst, bs', _, hRest, rfl, rfl⟩
    exact ⟨b, u, bs', hFirst, hRest, rfl⟩
  · rintro ⟨b, u, bs', hFirst, hRest, rfl⟩
    exact ⟨b, u, hFirst, bs', t, hRest, rfl, rfl⟩

/-- What each step of a list adds to its results holds of all of them. -/
theorem mapM_induct {I : List β → σ → Prop} {f : α → EStateM ε σ β} {l : List α}
    (hf : ∀ a ∈ l, ∀ done b s t, I done s → f a s = .ok b t → I (done ++ [b]) t)
    {done bs : List β} {s t : σ} (hStart : I done s) (h : l.mapM f s = .ok bs t) :
    I (done ++ bs) t := by
  induction l generalizing done bs s with
  | nil =>
      obtain ⟨rfl, rfl⟩ := pure_ok.mp h
      simpa using hStart
  | cons a l ih =>
      obtain ⟨b, u, bs', hFirst, hRest, rfl⟩ := mapM_cons_ok.mp h
      have hNext := hf a (List.mem_cons_self ..) done b s u hStart hFirst
      simpa using ih (fun c hc => hf c (List.mem_cons_of_mem _ hc)) hNext hRest

/-- What each step of a list does away with is gone at its end. -/
theorem forM_induct {I : List α → σ → Prop} {f : α → EStateM ε σ PUnit}
    (hf : ∀ a rest s u t, I (a :: rest) s → f a s = .ok u t → I rest t)
    {l : List α} {u : PUnit} {s t : σ} (hStart : I l s) (h : l.forM f s = .ok u t) : I [] t := by
  induction l generalizing s with
  | nil =>
      obtain ⟨-, rfl⟩ := pure_ok.mp h
      exact hStart
  | cons a l ih =>
      obtain ⟨_, _, hFirst, hRest⟩ := bind_ok.mp h
      exact ih (hf a l _ _ _ hStart hFirst) hRest

end Step

/-- Every successful execution of a step relates the state before to the one
after. -/
def Keeps (R : σ → σ → Prop) (x : EStateM ε σ α) : Prop :=
  ∀ ⦃s a t⦄, x s = .ok a t → R s t

namespace Keeps

variable {R : σ → σ → Prop}

theorem mono {R' : σ → σ → Prop} {x : EStateM ε σ α} (h : Keeps R x)
    (hR : ∀ s t, R s t → R' s t) : Keeps R' x :=
  fun _ _ _ hx => hR _ _ (h hx)

theorem throw (e : ε) : Keeps R (throw e : EStateM ε σ α) :=
  fun _ _ _ hx => (Step.throw_ok.mp hx).elim

theorem modify {f : σ → σ} (h : ∀ s, R s (f s)) : Keeps R (modify f : EStateM ε σ PUnit) :=
  fun s _ _ hx => Step.modify_ok.mp hx ▸ h s

theorem focus {R' : τ → τ → Prop} {part : σ → τ} {put : τ → σ → σ} {wrap : ε → ε'}
    {edit : EStateM ε τ α} (h : Keeps R' edit) (hR : ∀ s u, R' (part s) u → R s (put u s)) :
    Keeps R (focus part put wrap edit) := by
  intro s a t hx
  obtain ⟨u, hu, rfl⟩ := Step.focus_ok.mp hx
  exact hR s u (h hu)

/-- What two steps keep together is kept by their chain. -/
theorem bind_trans {R' R'' : σ → σ → Prop} {x : EStateM ε σ α} {f : α → EStateM ε σ β}
    (hx : Keeps R x) (hf : ∀ a, Keeps R' (f a)) (h : ∀ s u t, R s u → R' u t → R'' s t) :
    Keeps R'' (x >>= f) := by
  intro s b t hRun
  obtain ⟨a, u, h₁, h₂⟩ := Step.bind_ok.mp hRun
  exact h s u t (hx h₁) (hf a h₂)

theorem map {x : EStateM ε σ α} {f : α → β} (hx : Keeps R x) : Keeps R (f <$> x) := by
  intro s b t h
  obtain ⟨a, h₁, -⟩ := Step.map_ok.mp h
  exact hx h₁

theorem ite {c : Prop} [Decidable c] {x y : EStateM ε σ α} (hx : Keeps R x) (hy : Keeps R y) :
    Keeps R (if c then x else y) := by
  split
  · exact hx
  · exact hy

variable [IsPreorder σ R]

theorem pure (a : α) : Keeps R (pure a : EStateM ε σ α) :=
  fun s _ _ hx => (Step.pure_ok.mp hx).2 ▸ refl s

theorem get : Keeps R (get : EStateM ε σ σ) :=
  fun s _ _ hx => (Step.get_ok.mp hx).2 ▸ refl s

theorem lift (x : Except ε α) : Keeps R (monadLift x : EStateM ε σ α) :=
  fun s _ _ hx => (Step.lift_ok.mp hx).2 ▸ refl s

theorem bind {x : EStateM ε σ α} {f : α → EStateM ε σ β} (hx : Keeps R x)
    (hf : ∀ a, Keeps R (f a)) : Keeps R (x >>= f) :=
  bind_trans hx hf fun _ _ _ => IsTrans.trans _ _ _

theorem forM {f : α → EStateM ε σ PUnit} {l : List α} (hf : ∀ a ∈ l, Keeps R (f a)) :
    Keeps R (l.forM f) := by
  induction l with
  | nil => exact pure _
  | cons a l ih =>
      exact bind (hf a (List.mem_cons_self ..)) fun _ =>
        ih fun b hb => hf b (List.mem_cons_of_mem _ hb)

theorem mapM {f : α → EStateM ε σ β} {l : List α} (hf : ∀ a ∈ l, Keeps R (f a)) :
    Keeps R (l.mapM f) := by
  induction l with
  | nil => exact pure _
  | cons a l ih =>
      rw [List.mapM_cons]
      refine bind (hf a (List.mem_cons_self ..)) fun _ => bind ?_ fun _ => pure _
      exact ih fun b hb => hf b (List.mem_cons_of_mem _ hb)

/-- Each step for a list is taken somewhere on the way. -/
theorem forM_mem_ok {f : α → EStateM ε σ PUnit} {l : List α} (hf : ∀ a ∈ l, Keeps R (f a))
    {s t : σ} {u : PUnit} (h : l.forM f s = .ok u t) {a : α} (ha : a ∈ l) :
    ∃ v w, R s v ∧ f a v = .ok ⟨⟩ w ∧ R w t := by
  induction l generalizing s with
  | nil => exact (List.not_mem_nil ha).elim
  | cons b l ih =>
      have hRest : ∀ a ∈ l, Keeps R (f a) := fun c hc => hf c (List.mem_cons_of_mem _ hc)
      obtain ⟨_, v, hFirst, hEnd⟩ := Step.bind_ok.mp h
      rcases List.mem_cons.mp ha with rfl | ha
      · exact ⟨s, v, refl s, hFirst, forM hRest hEnd⟩
      · obtain ⟨w, x, hBefore, hStep, hAfter⟩ := ih hRest hEnd ha
        exact ⟨w, x, IsTrans.trans _ _ _ (hf b (List.mem_cons_self ..) hFirst) hBefore, hStep, hAfter⟩

theorem mapM_mem_ok {f : α → EStateM ε σ β} {l : List α} (hf : ∀ a ∈ l, Keeps R (f a))
    {s t : σ} {bs : List β} (h : l.mapM f s = .ok bs t) {a : α} (ha : a ∈ l) :
    ∃ b v w, b ∈ bs ∧ R s v ∧ f a v = .ok b w ∧ R w t := by
  induction l generalizing s bs with
  | nil => exact (List.not_mem_nil ha).elim
  | cons c l ih =>
      have hRest : ∀ a ∈ l, Keeps R (f a) := fun d hd => hf d (List.mem_cons_of_mem _ hd)
      obtain ⟨b, v, bs', hFirst, hEnd, rfl⟩ := Step.mapM_cons_ok.mp h
      rcases List.mem_cons.mp ha with rfl | ha
      · exact ⟨b, s, v, List.mem_cons_self .., refl s, hFirst, mapM hRest hEnd⟩
      · obtain ⟨b', w, x, hMem, hBefore, hStep, hAfter⟩ := ih hRest hEnd ha
        refine ⟨b', w, x, List.mem_cons_of_mem _ hMem, ?_, hStep, hAfter⟩
        exact IsTrans.trans _ _ _ (hf c (List.mem_cons_self ..) hFirst) hBefore

end Keeps

/-- Every successful execution of a step with an outcome in `P` relates the state
before to the one after. -/
def KeepsOn (R : σ → σ → Prop) (P : α → Prop) (x : EStateM ε σ α) : Prop :=
  ∀ ⦃s a t⦄, x s = .ok a t → P a → R s t

namespace KeepsOn

variable {R : σ → σ → Prop} {P : β → Prop}

theorem of_keeps {x : EStateM ε σ β} (hx : Keeps R x) : KeepsOn R P x :=
  fun _ _ _ h _ => hx h

/-- The outcome of a chain is that of its last step. -/
theorem bind_of_any {x : EStateM ε σ α} {f : α → EStateM ε σ β}
    (hf : ∀ a s b t, f a s = .ok b t → ¬ P b) : KeepsOn R P (x >>= f) := by
  intro s b t h hP
  obtain ⟨a, u, -, h⟩ := Step.bind_ok.mp h
  exact (hf a u b t h hP).elim

variable [IsPreorder σ R]

theorem bind {x : EStateM ε σ α} {f : α → EStateM ε σ β} (hx : Keeps R x)
    (hf : ∀ a, KeepsOn R P (f a)) : KeepsOn R P (x >>= f) := by
  intro s b t h hP
  obtain ⟨a, u, h₁, h₂⟩ := Step.bind_ok.mp h
  exact IsTrans.trans _ _ _ (hx h₁) (hf a h₂ hP)

theorem mapM {f : α → EStateM ε σ β} {l : List α} (hf : ∀ a ∈ l, KeepsOn R P (f a)) :
    KeepsOn R (fun bs => ∀ b ∈ bs, P b) (l.mapM f) := by
  induction l with
  | nil => exact of_keeps (Keeps.pure _)
  | cons a l ih =>
      intro s bs t h hP
      obtain ⟨b, u, bs', hFirst, hRest, rfl⟩ := Step.mapM_cons_ok.mp h
      have h₁ := hf a (List.mem_cons_self ..) hFirst (hP b (List.mem_cons_self ..))
      have h₂ := ih (fun c hc => hf c (List.mem_cons_of_mem _ hc)) hRest
        fun c hc => hP c (List.mem_cons_of_mem _ hc)
      exact IsTrans.trans _ _ _ h₁ h₂

end KeepsOn

end ContextBinding
