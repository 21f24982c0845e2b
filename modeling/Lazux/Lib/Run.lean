import Mathlib.Data.List.Basic
import Mathlib.Data.Nat.Notation

/-! # Rules for programs that can stop

A program is a value of `Except ε α`. `Ensures` says what holds of its result if there is
one, `Succeeds` that there is one. -/
namespace Run

universe u v

variable {ε : Type v} {α β σ : Type u}

def Ensures (x : Except ε α) (Q : α → Prop) : Prop := ∀ a, x = .ok a → Q a

def Succeeds (x : Except ε α) (Q : α → Prop) : Prop := ∃ a, x = .ok a ∧ Q a

theorem ok_bind (a : α) (f : α → Except ε β) : (Except.ok a >>= f) = f a := rfl

theorem bind_eq_ok {x : Except ε α} {f : α → Except ε β} {b : β} :
    (x >>= f) = .ok b ↔ ∃ a, x = .ok a ∧ f a = .ok b := by
  cases x with
  | error e =>
    constructor
    · intro h; cases h
    · rintro ⟨a, h, -⟩; cases h
  | ok a =>
    constructor
    · intro h; exact ⟨a, rfl, h⟩
    · rintro ⟨a', h, hf⟩; cases h; exact hf

theorem bind_eq_error {x : Except ε α} {f : α → Except ε β} {e : ε} :
    (x >>= f) = .error e ↔ x = .error e ∨ ∃ a, x = .ok a ∧ f a = .error e := by
  cases x with
  | error e' =>
    constructor
    · intro h; cases h; exact Or.inl rfl
    · rintro (h | ⟨a, h, -⟩)
      · cases h; rfl
      · cases h
  | ok a =>
    constructor
    · intro h; exact Or.inr ⟨a, rfl, h⟩
    · rintro (h | ⟨a', h, hf⟩)
      · cases h
      · cases h; exact hf

section Rules

variable {Q R : α → Prop} {x : Except ε α}

theorem ensures_ok {a : α} : Ensures (.ok a : Except ε α) Q ↔ Q a :=
  ⟨fun h => h a rfl, fun h b hb => by cases hb; exact h⟩

theorem ensures_pure {a : α} : Ensures (pure a : Except ε α) Q ↔ Q a := ensures_ok

@[simp] theorem ensures_error {e : ε} : Ensures (.error e : Except ε α) Q :=
  fun _ h => by cases h

theorem Ensures.mono (h : Ensures x Q) (hQR : ∀ a, Q a → R a) : Ensures x R :=
  fun a ha => hQR a (h a ha)

theorem Ensures.bind {f : α → Except ε β} {S : β → Prop} (h : Ensures x Q)
    (hf : ∀ a, Q a → Ensures (f a) S) : Ensures (x >>= f) S := by
  intro b hb
  obtain ⟨a, ha, hfa⟩ := bind_eq_ok.mp hb
  exact hf a (h a ha) b hfa

theorem Ensures.of_bind {f : α → Except ε β} {S : β → Prop}
    (hf : ∀ a, x = .ok a → Ensures (f a) S) : Ensures (x >>= f) S := by
  intro b hb
  obtain ⟨a, ha, hfa⟩ := bind_eq_ok.mp hb
  exact hf a ha b hfa

theorem Succeeds.bind {f : α → Except ε β} {S : β → Prop} (h : Succeeds x Q)
    (hf : ∀ a, Q a → Succeeds (f a) S) : Succeeds (x >>= f) S := by
  obtain ⟨a, ha, hq⟩ := h
  obtain ⟨b, hb, hs⟩ := hf a hq
  exact ⟨b, bind_eq_ok.mpr ⟨a, ha, hb⟩, hs⟩

theorem succeeds_bind {f : α → Except ε β} {S : β → Prop} {a : α} (h : x = .ok a)
    (hf : Succeeds (f a) S) : Succeeds (x >>= f) S := by
  rw [h]
  exact hf

theorem Succeeds.mono (h : Succeeds x Q) (hQR : ∀ a, Q a → R a) : Succeeds x R := by
  obtain ⟨a, ha, hq⟩ := h
  exact ⟨a, ha, hQR a hq⟩

theorem Succeeds.ensures (h : Succeeds x Q) : Ensures x Q := by
  obtain ⟨a, ha, hq⟩ := h
  intro b hb
  rw [ha] at hb
  cases hb
  exact hq

/-- A program that ends in `Q` if it ends well, and ends well on the condition `B`. -/
structure Meets (x : Except ε α) (B : Prop) (Q : α → Prop) : Prop where
  ensures : Ensures x Q
  returns : B → ∃ a, x = .ok a

theorem Meets.succeeds {B : Prop} (h : Meets x B Q) (hB : B) : Succeeds x Q := by
  obtain ⟨a, ha⟩ := h.returns hB
  exact ⟨a, ha, h.ensures a ha⟩

theorem Meets.mono {B C : Prop} (h : Meets x B Q) (hB : C → B) (hQ : ∀ a, Q a → R a) :
    Meets x C R := ⟨h.ensures.mono hQ, fun hC => h.returns (hB hC)⟩

theorem meets_ok {B : Prop} {a : α} (h : Q a) : Meets (.ok a : Except ε α) B Q :=
  ⟨ensures_ok.mpr h, fun _ => ⟨a, rfl⟩⟩

theorem meets_error {B : Prop} {e : ε} (h : ¬ B) : Meets (.error e : Except ε α) B Q :=
  ⟨ensures_error, fun hB => absurd hB h⟩

theorem Meets.bind {B : Prop} {f : α → Except ε β} {S : β → Prop} (h : Meets x B Q)
    (hf : ∀ a, Q a → Meets (f a) B S) : Meets (x >>= f) B S := by
  refine ⟨h.ensures.bind fun a ha => (hf a ha).ensures, fun hB => ?_⟩
  obtain ⟨b, hb, -⟩ := (h.succeeds hB).bind fun a ha => (hf a ha).succeeds hB
  exact ⟨b, hb⟩

end Rules

section Ends

variable {Q R : α → Prop} {E F : ε → Prop} {x : Except ε α}

/-- A program that ends in `Q`, or stops for a reason in `E`. -/
structure Ends (x : Except ε α) (Q : α → Prop) (E : ε → Prop) : Prop where
  ensures : Ensures x Q
  stops : ∀ e, x = .error e → E e

theorem ends_ok {a : α} (h : Q a) : Ends (.ok a : Except ε α) Q E :=
  ⟨ensures_ok.mpr h, fun e he => by cases he⟩

theorem ends_pure {a : α} (h : Q a) : Ends (pure a : Except ε α) Q E := ends_ok h

theorem ends_error {e : ε} (h : E e) : Ends (.error e : Except ε α) Q E :=
  ⟨ensures_error, fun e' he => by cases he; exact h⟩

theorem ends_of_eq_ok {a : α} (h : x = .ok a) : Ends x (· = a) E := by
  rw [h]
  exact ends_ok rfl

theorem Ends.mono (h : Ends x Q E) (hQ : ∀ a, Q a → R a) (hE : ∀ e, E e → F e) : Ends x R F :=
  ⟨h.ensures.mono hQ, fun e he => hE e (h.stops e he)⟩

theorem ends_ite {c : Prop} [Decidable c] {y : Except ε α} (hx : c → Ends x Q E)
    (hy : ¬ c → Ends y Q E) : Ends (if c then x else y) Q E := by
  split
  · rename_i h
    exact hx h
  · rename_i h
    exact hy h

theorem Ends.bind {f : α → Except ε β} {S : β → Prop} (h : Ends x Q E)
    (hf : ∀ a, Q a → Ends (f a) S E) : Ends (x >>= f) S E := by
  refine ⟨h.ensures.bind fun a ha => (hf a ha).ensures, fun e he => ?_⟩
  rcases bind_eq_error.mp he with hx | ⟨a, hx, ha⟩
  · exact h.stops e hx
  · exact (hf a (h.ensures a hx)).stops e ha

end Ends

section Below

variable {x y : Except ε α} {f g : α → Except ε β}

/-- Whatever `x` returns `y` returns too. -/
def Below (x y : Except ε α) : Prop := ∀ a, x = .ok a → y = .ok a

theorem Below.refl (x : Except ε α) : Below x x := fun _ h => h

theorem Below.bind (h : Below x y) (hf : ∀ a, Below (f a) (g a)) :
    Below (x >>= f) (y >>= g) := by
  intro b hb
  obtain ⟨a, ha, hfa⟩ := bind_eq_ok.mp hb
  exact bind_eq_ok.mpr ⟨a, h a ha, hf a b hfa⟩

theorem below_ite {c : Prop} [Decidable c] {x' y' : Except ε α} (h : Below x y) (h' : Below x' y') :
    Below (if c then x else x') (if c then y else y') := by
  by_cases hc : c
  · rw [if_pos hc, if_pos hc]
    exact h
  · rw [if_neg hc, if_neg hc]
    exact h'

end Below

section Loops

variable {δ : Type*} {f : σ → δ → Except ε σ} {l : List δ} {s : σ}

theorem ensures_foldlM {I : List δ → σ → Prop} (h0 : I [] s)
    (hstep : ∀ done a rest, l = done ++ a :: rest → ∀ t, I done t →
      Ensures (f t a) (I (done ++ [a]))) :
    Ensures (l.foldlM f s) (I l) := by
  have key : ∀ rest done t, l = done ++ rest → I done t → Ensures (rest.foldlM f t) (I l) := by
    intro rest
    induction rest with
    | nil =>
      intro done t hl ht
      rw [List.append_nil] at hl
      subst hl
      exact ensures_pure.mpr ht
    | cons a rest ih =>
      intro done t hl ht
      rw [List.foldlM_cons]
      refine (hstep done a rest hl t ht).bind fun t' ht' => ?_
      exact ih (done ++ [a]) t' (by rw [List.append_assoc]; exact hl) ht'
  exact key l [] s rfl h0

theorem succeeds_foldlM {I : List δ → σ → Prop} (h0 : I [] s)
    (hstep : ∀ done a rest, l = done ++ a :: rest → ∀ t, I done t →
      Succeeds (f t a) (I (done ++ [a]))) :
    Succeeds (l.foldlM f s) (I l) := by
  have key : ∀ rest done t, l = done ++ rest → I done t → Succeeds (rest.foldlM f t) (I l) := by
    intro rest
    induction rest with
    | nil =>
      intro done t hl ht
      rw [List.append_nil] at hl
      subst hl
      exact ⟨t, rfl, ht⟩
    | cons a rest ih =>
      intro done t hl ht
      rw [List.foldlM_cons]
      refine (hstep done a rest hl t ht).bind fun t' ht' => ?_
      exact ih (done ++ [a]) t' (by rw [List.append_assoc]; exact hl) ht'
  exact key l [] s rfl h0

theorem meets_foldlM {B : Prop} {I : List δ → σ → Prop} (h0 : I [] s)
    (hstep : ∀ done a rest, l = done ++ a :: rest → ∀ t, I done t →
      Meets (f t a) B (I (done ++ [a]))) :
    Meets (l.foldlM f s) B (I l) := by
  refine ⟨ensures_foldlM h0 fun done a rest hl t ht => (hstep done a rest hl t ht).ensures,
    fun hB => ?_⟩
  obtain ⟨a, ha, -⟩ :=
    succeeds_foldlM h0 fun done a rest hl t ht => (hstep done a rest hl t ht).succeeds hB
  exact ⟨a, ha⟩

theorem ends_foldlM {I : σ → Prop} {E : ε → Prop} (h0 : I s)
    (hstep : ∀ t, I t → ∀ a ∈ l, Ends (f t a) I E) : Ends (l.foldlM f s) I E := by
  induction l generalizing s with
  | nil => exact ends_pure h0
  | cons a l ih =>
    rw [List.foldlM_cons]
    refine (hstep s h0 a List.mem_cons_self).bind fun t ht => ?_
    exact ih ht fun t' ht' b hb => hstep t' ht' b (List.mem_cons_of_mem a hb)

theorem foldl_rule {f : σ → δ → σ} {I : List δ → σ → Prop} (h0 : I [] s)
    (hstep : ∀ done a rest, l = done ++ a :: rest → ∀ t, I done t → I (done ++ [a]) (f t a)) :
    I l (l.foldl f s) := by
  have key : ∀ rest done t, l = done ++ rest → I done t → I l (rest.foldl f t) := by
    intro rest
    induction rest with
    | nil =>
      intro done t hl ht
      rw [List.append_nil] at hl
      subst hl
      exact ht
    | cons a rest ih =>
      intro done t hl ht
      exact ih (done ++ [a]) (f t a) (by rw [List.append_assoc]; exact hl)
        (hstep done a rest hl t ht)
  exact key l [] s rfl h0

end Loops

end Run
