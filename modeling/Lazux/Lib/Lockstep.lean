import Lazux.Lib.Run

/-! # Two runs side by side

Programs on related states that take the same steps: both stop for the same reason, or both return
and what they return is related. -/
namespace Run

variable {ε : Type v} {α α' β β' σ σ' : Type u} {γ : Type*}

inductive Lockstep (R : α → α' → Prop) : Except ε α → Except ε α' → Prop where
  | ok {a : α} {a' : α'} (h : R a a') : Lockstep R (.ok a) (.ok a')
  | error (e : ε) : Lockstep R (.error e) (.error e)

variable {R S : α → α' → Prop} {x : Except ε α} {x' : Except ε α'}

theorem Lockstep.mono (h : Lockstep R x x') (hR : ∀ a a', R a a' → S a a') : Lockstep S x x' := by
  cases h with
  | ok h => exact .ok (hR _ _ h)
  | error e => exact .error e

theorem Lockstep.of_error {e : ε} (h : Lockstep R (.error e) x') : x' = .error e := by
  cases h
  rfl

theorem lockstep_refl (x : Except ε α) : Lockstep Eq x x := by
  cases x with
  | ok a => exact .ok rfl
  | error e => exact .error e

theorem Lockstep.bind {T : β → β' → Prop} {f : α → Except ε β} {f' : α' → Except ε β'}
    (h : Lockstep R x x') (hf : ∀ a a', R a a' → Lockstep T (f a) (f' a')) :
    Lockstep T (x >>= f) (x' >>= f') := by
  cases h with
  | ok h => exact hf _ _ h
  | error e => exact .error e

theorem Lockstep.ensures {Q : α → Prop} (h : Lockstep R x x') (hx : Ensures x Q) :
    Lockstep (fun a a' => R a a' ∧ Q a) x x' := by
  cases h with
  | ok h => exact .ok ⟨h, hx _ rfl⟩
  | error e => exact .error e

theorem lockstep_ite {c : Prop} [Decidable c] {y : Except ε α} {y' : Except ε α'}
    (hx : c → Lockstep R x x') (hy : ¬ c → Lockstep R y y') :
    Lockstep R (if c then x else y) (if c then x' else y') := by
  split
  · rename_i h
    exact hx h
  · rename_i h
    exact hy h

theorem lockstep_foldlM {I : σ → σ' → Prop} {f : σ → γ → Except ε σ} {f' : σ' → γ → Except ε σ'}
    {l : List γ} {s : σ} {s' : σ'} (h0 : I s s')
    (hstep : ∀ a ∈ l, ∀ t t', I t t' → Lockstep I (f t a) (f' t' a)) :
    Lockstep I (l.foldlM f s) (l.foldlM f' s') := by
  induction l generalizing s s' with
  | nil => exact .ok h0
  | cons a l ih =>
    rw [List.foldlM_cons, List.foldlM_cons]
    refine (hstep a List.mem_cons_self s s' h0).bind fun t t' ht => ih ht fun b hb => ?_
    exact hstep b (List.mem_cons_of_mem a hb)

end Run
