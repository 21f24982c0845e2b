import Mathlib.Data.List.Basic

/-! # Runs with labels

A step relation whose steps show a list of labels, and its runs. -/
namespace Trace

variable {σ α : Type*} {step : σ → List α → σ → Prop}

/-- A run from one state to another with the labels its steps show, in order. -/
inductive Path (step : σ → List α → σ → Prop) : σ → List α → σ → Prop where
  | refl (s) : Path step s [] s
  | tail {s t u ls ms} (h : Path step s ls t) (hs : step t ms u) : Path step s (ls ++ ms) u

variable {s t u : σ} {ls ms : List α}

theorem Path.single (h : step s ls t) : Path step s ls t := by
  have := (@Path.refl _ _ step s).tail h
  rwa [List.nil_append] at this

theorem Path.trans (h : Path step s ls t) (h' : Path step t ms u) : Path step s (ls ++ ms) u := by
  induction h' with
  | refl => rwa [List.append_nil]
  | tail _ hs ih =>
    rw [← List.append_assoc]
    exact ih.tail hs

theorem Path.head (h : step s ls t) (h' : Path step t ms u) : Path step s (ls ++ ms) u :=
  (Path.single h).trans h'

theorem Path.preserves {I : σ → Prop} (hstep : ∀ s ls t, I s → step s ls t → I t)
    (h : Path step s ls t) (hs : I s) : I t := by
  induction h with
  | refl => exact hs
  | tail _ ht ih => exact hstep _ _ _ ih ht

theorem Path.split {a : α} (h : Path step s ls u) (ha : a ∈ ls) :
    ∃ l1 m l2 t t', Path step s l1 t ∧ step t m t' ∧ Path step t' l2 u ∧ a ∈ m ∧
      ls = l1 ++ m ++ l2 := by
  induction h with
  | refl => cases ha
  | @tail t u ls ms hp hs ih =>
    rcases List.mem_append.mp ha with hl | hm
    · obtain ⟨l1, m, l2, v, v', h1, hm, h2, ham, he⟩ := ih hl
      exact ⟨l1, m, l2 ++ ms, v, v', h1, hm, h2.tail hs, ham, by rw [he, List.append_assoc]⟩
    · exact ⟨ls, ms, [], t, u, hp, hs, .refl u, hm, (List.append_nil _).symm⟩

end Trace
