import Mathlib.Logic.Function.Basic
import Mathlib.Data.Nat.Notation

/-! # Radix trees sharing one array of frames

Every frame is a table of words. A family of trees, and one extra frame for each
tree, live in the same frames; a frame has a role when its tree reaches it along a
path of keys. Writing one word of one table gains or loses exactly one role as long
as no frame has two roles and nothing lies below the changed slot. -/
namespace RadixForest

/-- No element serves two roles. -/
def Distinct {ρ φ : Type*} (own : ρ → Option φ) : Prop :=
  ∀ r s f, own r = some f → own s = some f → r = s

section Distinct

variable {ρ ρ' φ : Type*} {own : ρ → Option φ}

theorem Distinct.rename {own' : ρ' → Option φ} (h : Distinct own) (g : ρ' → ρ)
    (hg : ∀ r s f, own' r = some f → own' s = some f → g r = g s → r = s)
    (ho : ∀ r f, own' r = some f → own (g r) = some f) : Distinct own' :=
  fun r s f hr hs => hg r s f hr hs (h _ _ f (ho r f hr) (ho s f hs))

theorem Distinct.mono {own' : ρ → Option φ} (h : Distinct own)
    (ho : ∀ r f, own' r = some f → own r = some f) : Distinct own' :=
  fun r s f hr hs => h r s f (ho r f hr) (ho s f hs)

variable [DecidableEq ρ]

theorem Distinct.update_none (h : Distinct own) (r : ρ) :
    Distinct (Function.update own r none) := by
  apply h.mono
  intro s f hs
  by_cases hsr : s = r
  · subst s; simp at hs
  · rwa [Function.update_of_ne hsr] at hs

theorem Distinct.update_fresh (h : Distinct own) (r : ρ) {n : φ} (hn : ∀ s, own s ≠ some n) :
    Distinct (Function.update own r (some n)) := by
  intro s t f hs ht
  by_cases hsr : s = r <;> by_cases htr : t = r
  · rw [hsr, htr]
  · subst s
    rw [Function.update_self, Option.some.injEq] at hs
    rw [Function.update_of_ne htr] at ht
    exact absurd (hs ▸ ht) (hn t)
  · subst t
    rw [Function.update_self, Option.some.injEq] at ht
    rw [Function.update_of_ne hsr] at hs
    exact absurd (ht ▸ hs) (hn s)
  · rw [Function.update_of_ne hsr] at hs
    rw [Function.update_of_ne htr] at ht
    exact h s t f hs ht

end Distinct

structure Forest (ι : Type*) where
  root : ι → Option ℕ
  extra : ι → Option ℕ

/-- A path lists the keys below the root, the deepest first. -/
inductive Role (ι K : Type*) where
  | extra (i : ι)
  | node (i : ι) (path : List K)
  deriving DecidableEq

def Role.owner {ι K : Type*} : Role ι K → ι
  | .extra i => i
  | .node i _ => i

variable {ι K W : Type*}

/-- `decode d w` is the frame a word in a table at depth `d` refers to, if any. -/
def nodeAt (decode : ℕ → W → Option ℕ) (t : ℕ → K → W) (root : Option ℕ) : List K → Option ℕ
  | [] => root
  | k :: p => (nodeAt decode t root p).bind fun f => decode p.length (t f k)

def holds (decode : ℕ → W → Option ℕ) (t : ℕ → K → W) (H : Forest ι) : Role ι K → Option ℕ
  | .extra i => H.extra i
  | .node i p => nodeAt decode t (H.root i) p

def wordAt (decode : ℕ → W → Option ℕ) (t : ℕ → K → W) (H : Forest ι) (i : ι) (k : K)
    (p : List K) : Option W := (holds decode t H (.node i p)).map fun f => t f k

variable {decode : ℕ → W → Option ℕ} {t t' : ℕ → K → W} {H : Forest ι}

@[simp] theorem holds_extra (i : ι) : holds decode t H (.extra i) = H.extra i := rfl
@[simp] theorem holds_root (i : ι) : holds decode t H (.node i []) = H.root i := rfl

theorem holds_cons (i : ι) (k : K) (p : List K) : holds decode t H (.node i (k :: p)) =
    (holds decode t H (.node i p)).bind fun f => decode p.length (t f k) := rfl

theorem holds_cons_some {i : ι} {k : K} {p : List K} {f : ℕ}
    (h : holds decode t H (.node i p) = some f) :
    holds decode t H (.node i (k :: p)) = decode p.length (t f k) := by
  rw [holds_cons, h, Option.bind_some]

theorem holds_prefix_none {i : ι} {p : List K} (h : holds decode t H (.node i p) = none)
    (q : List K) : holds decode t H (.node i (q ++ p)) = none := by
  induction q with
  | nil => exact h
  | cons k q ih => rw [List.cons_append, holds_cons, ih, Option.bind_none]

/-- Tables at depths that decode something; deeper nodes are leaves. -/
def IsTable (depth : ℕ) : Role ι K → Prop
  | .extra _ => False
  | .node _ p => p.length < depth

theorem holds_congr {depth : ℕ} (hdec : ∀ d w, depth ≤ d → decode d w = none)
    (h : ∀ r : Role ι K, IsTable depth r → ∀ f, holds decode t H r = some f → t' f = t f) :
    holds decode t' H = holds decode t H := by
  funext r
  cases r with
  | extra i => rfl
  | node i p =>
    induction p with
    | nil => rfl
    | cons k p ih =>
      rw [holds_cons, holds_cons, ih]
      cases hp : holds decode t H (.node i p) with
      | none => rfl
      | some f =>
        rw [Option.bind_some, Option.bind_some]
        by_cases hl : p.length < depth
        · rw [h (.node i p) hl f hp]
        · rw [hdec _ _ (by omega), hdec _ _ (by omega)]

section Update

variable [DecidableEq ι] [DecidableEq K]

/-- Writing the word `w` at key `k` of the table that `path` reaches changes exactly the
role of the slot, when nothing lies below the slot before or after the write. -/
theorem holds_set (hd : Distinct (holds decode t H)) {i : ι} {path : List K} {f : ℕ}
    (hf : holds decode t H (.node i path) = some f) {k : K} {w : W}
    (hbefore : ∀ n, decode path.length (t f k) = some n →
      ∀ k', decode (path.length + 1) (t n k') = none)
    (hafter : ∀ n, decode path.length w = some n →
      ∀ k',
        decode (path.length + 1) (Function.update t f (Function.update (t f) k w) n k') = none) :
    holds decode (Function.update t f (Function.update (t f) k w)) H =
      Function.update (holds decode t H) (.node i (k :: path)) (decode path.length w) := by
  funext r
  cases r with
  | extra j => simp
  | node j q =>
    induction q with
    | nil => simp
    | cons x q ih =>
      rw [holds_cons, ih]
      by_cases hslot : j = i ∧ q = k :: path
      · -- a node right below the changed slot: empty before and after
        obtain ⟨rfl, rfl⟩ := hslot
        rw [Function.update_self, Function.update_of_ne (by simp), holds_cons,
          holds_cons_some hf, List.length_cons]
        rw [(Option.bind_eq_none_iff (f := fun n => decode (path.length + 1) (t n x))).mpr
          (fun n hn => hbefore n hn x)]
        exact Option.bind_eq_none_iff.mpr (fun n hn => hafter n hn x)
      · rw [Function.update_of_ne (by simpa using hslot)]
        cases hq : holds decode t H (.node j q) with
        | none =>
          have hne : (Role.node j (x :: q) : Role ι K) ≠ .node i (k :: path) := by
            intro he
            simp only [Role.node.injEq, List.cons.injEq] at he
            rw [he.1, he.2.2, hf] at hq
            cases hq
          rw [Function.update_of_ne hne, holds_cons, hq]
          rfl
        | some g =>
          rw [Option.bind_some]
          by_cases hg : g = f
          · -- the table that is written
            subst g
            have he := hd _ _ f hq hf
            simp only [Role.node.injEq] at he
            obtain ⟨rfl, rfl⟩ := he
            rw [Function.update_self]
            by_cases hx : x = k
            · subst x; rw [Function.update_self, Function.update_self]
            · rw [Function.update_of_ne hx, Function.update_of_ne (by simpa using hx),
                holds_cons_some hf]
          · rw [Function.update_of_ne hg]
            have hne : (Role.node j (x :: q) : Role ι K) ≠ .node i (k :: path) := by
              intro he
              simp only [Role.node.injEq, List.cons.injEq] at he
              rw [he.1, he.2.2, hf] at hq
              exact hg (Option.some.inj hq).symm
            rw [Function.update_of_ne hne, holds_cons_some hq]

/-- Words change at the written place only, when the slot above them has not changed. -/
theorem wordAt_set (hd : Distinct (holds decode t H)) {i : ι} {path : List K} {f : ℕ}
    (hf : holds decode t H (.node i path) = some f) {k : K} {w : W}
    (hbefore : ∀ n, decode path.length (t f k) = some n →
      ∀ k', decode (path.length + 1) (t n k') = none)
    (hafter : ∀ n, decode path.length w = some n →
      ∀ k', decode (path.length + 1) (Function.update t f (Function.update (t f) k w) n k') = none)
    {j : ι} {x : K} {q : List K} (hq : ¬ (j = i ∧ q = k :: path)) :
    wordAt decode (Function.update t f (Function.update (t f) k w)) H j x q =
      if j = i ∧ q = path ∧ x = k then some w else wordAt decode t H j x q := by
  rw [wordAt, holds_set hd hf hbefore hafter, Function.update_of_ne (by simpa using hq), wordAt]
  cases hg : holds decode t H (.node j q) with
  | none =>
    rw [Option.map_none, if_neg]
    · rfl
    · rintro ⟨rfl, rfl, -⟩
      rw [hf] at hg; cases hg
  | some g =>
    rw [Option.map_some]
    by_cases he : g = f
    · subst g
      have hr := hd _ _ f hg hf
      simp only [Role.node.injEq] at hr
      obtain ⟨rfl, rfl⟩ := hr
      rw [Function.update_self]
      by_cases hx : x = k
      · subst x; simp
      · simp [hx]
    · rw [Function.update_of_ne he, if_neg]
      · rfl
      · rintro ⟨rfl, rfl, -⟩
        rw [hf] at hg
        exact he (Option.some.inj hg).symm

end Update

end RadixForest
