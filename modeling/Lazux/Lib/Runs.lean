import Mathlib.Data.List.Basic

/-! # The maximal runs of a list

A run holds no separator and reaches from one to the next, or to an end of the list. -/
namespace Runs

variable {α : Type*} {sep : α → Prop} {x : α} {xs w rest run : List α} {i start : ℕ}
  {ws : List (ℕ × List α)}

/-- A maximal run of a list whose first element has number `i`. -/
structure IsRun (sep : α → Prop) (i : ℕ) (xs : List α) (start : ℕ) (run : List α) : Prop where
  nonempty : run ≠ []
  clear : ∀ x ∈ run, ¬ sep x
  bounded : ∃ before after, xs = before ++ run ++ after ∧ start = i + before.length ∧
    (∀ x ∈ before.getLast?, sep x) ∧ ∀ x ∈ after.head?, sep x

structure AllRuns (sep : α → Prop) (xs : List α) (ws : List (ℕ × List α)) : Prop where
  ordered : ws.Pairwise fun v w => v.1 < w.1
  mem : ∀ start run, (start, run) ∈ ws ↔ IsRun sep 0 xs start run

/-- How a scan from left to right finds them. -/
inductive Scan (sep : α → Prop) : ℕ → List α → List (ℕ × List α) → Prop where
  | done {i : ℕ} : Scan sep i [] []
  | skip {i : ℕ} {x : α} {xs : List α} {ws : List (ℕ × List α)} (hx : sep x)
      (h : Scan sep (i + 1) xs ws) : Scan sep i (x :: xs) ws
  | last {i : ℕ} {w : List α} (hw : w ≠ []) (hclear : ∀ x ∈ w, ¬ sep x) : Scan sep i w [(i, w)]
  | word {i : ℕ} {w : List α} {x : α} {rest : List α} {ws : List (ℕ × List α)} (hw : w ≠ [])
      (hclear : ∀ x ∈ w, ¬ sep x) (hx : sep x) (h : Scan sep (i + w.length + 1) rest ws) :
      Scan sep i (w ++ x :: rest) ((i, w) :: ws)

theorem IsRun.le (h : IsRun sep i xs start run) : i ≤ start := by
  obtain ⟨before, _, _, hstart, _⟩ := h.bounded
  omega

theorem no_last : ∀ x ∈ ([] : List α).getLast?, sep x := fun _ h => nomatch h

theorem no_head : ∀ x ∈ ([] : List α).head?, sep x := fun _ h => nomatch h

theorem head_cons (hx : sep x) : ∀ y ∈ (x :: xs).head?, sep y := by
  intro y hy
  obtain rfl := Option.some.inj hy
  exact hx

theorem not_isRun_nil : ¬ IsRun sep i [] start run := by
  intro h
  obtain ⟨before, after, hxs, _⟩ := h.bounded
  have hrun := (List.append_eq_nil_iff.mp (List.append_eq_nil_iff.mp hxs.symm).1).2
  exact h.nonempty hrun

theorem isRun_cons (hx : sep x) :
    IsRun sep i (x :: xs) start run ↔ IsRun sep (i + 1) xs start run := by
  constructor
  · rintro ⟨hne, hclear, before, after, hxs, hstart, hbefore, hafter⟩
    refine ⟨hne, hclear, ?_⟩
    cases before with
    | nil =>
      cases run with
      | nil => exact absurd rfl hne
      | cons y run =>
        obtain ⟨rfl, -⟩ := List.cons_eq_cons.mp hxs
        exact absurd hx (hclear x List.mem_cons_self)
    | cons y before =>
      obtain ⟨rfl, hrest⟩ := List.cons_eq_cons.mp hxs
      refine ⟨before, after, hrest, ?_, ?_, hafter⟩
      · rw [hstart, List.length_cons]
        omega
      · intro z hz
        cases before with
        | nil => cases hz
        | cons c before => exact hbefore z (by rwa [List.getLast?_cons_cons])
  · rintro ⟨hne, hclear, before, after, hxs, hstart, hbefore, hafter⟩
    refine ⟨hne, hclear, x :: before, after, by rw [hxs]; rfl, ?_, ?_, hafter⟩
    · rw [hstart, List.length_cons]
      omega
    · intro z hz
      cases before with
      | nil =>
        obtain rfl := Option.some.inj hz
        exact hx
      | cons c before =>
        rw [List.getLast?_cons_cons] at hz
        exact hbefore z hz

theorem leading_unique {after : List α} (hcut : w ++ rest = run ++ after)
    (hw : ∀ x ∈ w, ¬ sep x) (hrest : ∀ x ∈ rest.head?, sep x)
    (hrun : ∀ x ∈ run, ¬ sep x) (hafter : ∀ x ∈ after.head?, sep x) : run = w := by
  obtain ⟨t, hrunw, hrestt⟩ | ⟨t, hwrun, haftert⟩ := List.append_eq_append_iff.mp hcut
  · cases t with
    | nil => rw [hrunw, List.append_nil]
    | cons y t =>
      have hy : ¬ sep y := hrun y (by rw [hrunw]; exact List.mem_append_right _ List.mem_cons_self)
      exact absurd (hrest y (by rw [hrestt]; rfl)) hy
  · cases t with
    | nil => rw [hwrun, List.append_nil]
    | cons y t =>
      have hy : ¬ sep y := hw y (by rw [hwrun]; exact List.mem_append_right _ List.mem_cons_self)
      exact absurd (hafter y (by rw [haftert]; rfl)) hy

theorem isRun_append (hw : w ≠ []) (hclear : ∀ x ∈ w, ¬ sep x) (hrest : ∀ x ∈ rest.head?, sep x) :
    IsRun sep i (w ++ rest) start run ↔
      (start = i ∧ run = w) ∨ IsRun sep (i + w.length) rest start run := by
  constructor
  · rintro ⟨hne, hrun, before, after, hxs, hstart, hbefore, hafter⟩
    rw [List.append_assoc] at hxs
    obtain ⟨t, hpre, hcut⟩ | ⟨t, hpre, hcut⟩ := List.append_eq_append_iff.mp hxs
    · -- the run lies behind `w`
      refine Or.inr ⟨hne, hrun, t, after, ?_, ?_, ?_, hafter⟩
      · rw [hcut, List.append_assoc]
      · rw [hstart, hpre, List.length_append]
        omega
      · intro y hy
        apply hbefore
        rw [hpre, List.getLast?_append, hy]
        rfl
    · left
      rcases List.eq_nil_or_concat before with hnil | ⟨front, y, hfront⟩
      · subst hnil
        refine ⟨hstart, ?_⟩
        exact leading_unique hxs hclear hrest hrun hafter
      · -- a separator before the run would lie in `w`
        have hy : sep y := by
          apply hbefore
          rw [hfront, List.concat_eq_append, List.getLast?_concat]
          rfl
        have hmem : y ∈ w := by
          rw [hpre, hfront, List.concat_eq_append]
          exact List.mem_append_left _ (List.mem_append_right _ (List.mem_singleton_self y))
        exact absurd hy (hclear y hmem)
  · rintro (⟨rfl, rfl⟩ | ⟨hne, hrun, before, after, hxs, hstart, hbefore, hafter⟩)
    · exact ⟨hw, hclear, [], rest, rfl, rfl, no_last, hrest⟩
    · refine ⟨hne, hrun, w ++ before, after, ?_, ?_, ?_, hafter⟩
      · rw [hxs]
        simp only [List.append_assoc]
      · rw [hstart, List.length_append]
        omega
      · intro y hy
        rcases List.eq_nil_or_concat before with hnil | ⟨front, z, hfront⟩
        · -- the rest cannot begin with a run
          cases run with
          | nil => exact absurd rfl hne
          | cons c run =>
            have hc : sep c := hrest c (by rw [hxs, hnil]; rfl)
            exact absurd hc (hrun c List.mem_cons_self)
        · rw [List.getLast?_append, hfront, List.concat_eq_append, List.getLast?_concat] at hy
          apply hbefore
          rw [hfront, List.concat_eq_append, List.getLast?_concat]
          exact hy

theorem exists_leading (sep : α → Prop) (xs : List α) :
    ∃ w rest, xs = w ++ rest ∧ (∀ x ∈ w, ¬ sep x) ∧ ∀ x ∈ rest.head?, sep x := by
  induction xs with
  | nil => exact ⟨[], [], rfl, List.forall_mem_nil _, no_head⟩
  | cons x xs ih =>
    by_cases hx : sep x
    · exact ⟨[], x :: xs, rfl, List.forall_mem_nil _, head_cons hx⟩
    · obtain ⟨w, rest, hxs, hclear, hrest⟩ := ih
      refine ⟨x :: w, rest, by rw [hxs]; rfl, ?_, hrest⟩
      exact List.forall_mem_cons.mpr ⟨hx, hclear⟩

theorem exists_scan (sep : α → Prop) (i : ℕ) (xs : List α) : ∃ ws, Scan sep i xs ws := by
  induction hn : xs.length using Nat.strongRecOn generalizing i xs with
  | _ n ih =>
    subst hn
    obtain ⟨w, rest, hxs, hclear, hrest⟩ := exists_leading sep xs
    cases rest with
    | nil =>
      rw [List.append_nil] at hxs
      subst hxs
      rcases eq_or_ne xs [] with rfl | hne
      · exact ⟨[], .done⟩
      · exact ⟨[(i, xs)], .last hne hclear⟩
    | cons x rest =>
      have hx : sep x := hrest x rfl
      have hless : rest.length < xs.length := by
        rw [hxs, List.length_append, List.length_cons]
        omega
      obtain ⟨ws, hscan⟩ := ih _ hless (i + w.length + 1) rest rfl
      subst hxs
      rcases eq_or_ne w [] with rfl | hne
      · exact ⟨ws, .skip hx hscan⟩
      · exact ⟨(i, w) :: ws, .word hne hclear hx hscan⟩

theorem Scan.mem_iff (h : Scan sep i xs ws) :
    (start, run) ∈ ws ↔ IsRun sep i xs start run := by
  induction h with
  | done => exact iff_of_false (List.not_mem_nil) not_isRun_nil
  | skip hx _ ih => rw [isRun_cons hx, ih]
  | @last i w hw hclear =>
    have hrun : IsRun sep i (w ++ []) start run ↔ _ := isRun_append hw hclear no_head
    rw [List.append_nil] at hrun
    rw [hrun, List.mem_singleton, Prod.mk.injEq, or_iff_left not_isRun_nil]
  | word hw hclear hx _ ih =>
    rw [isRun_append hw hclear (head_cons hx), isRun_cons hx, ← ih,
      List.mem_cons, Prod.mk.injEq]

theorem Scan.ordered (h : Scan sep i xs ws) : ws.Pairwise fun v w => v.1 < w.1 := by
  induction h with
  | done => exact List.Pairwise.nil
  | skip _ _ ih => exact ih
  | last _ _ => exact List.pairwise_singleton _ _
  | word hw _ _ h ih =>
    refine List.Pairwise.cons ?_ ih
    intro v hv
    have hle := (h.mem_iff.mp hv).le
    have hpos := List.length_pos_iff.mpr hw
    omega

theorem Scan.allRuns (h : Scan sep 0 xs ws) : AllRuns sep xs ws :=
  ⟨h.ordered, fun _ _ => h.mem_iff⟩

section First

variable [DecidablePred sep]

def firstRun (sep : α → Prop) [DecidablePred sep] : List α → Option (List α)
  | [] => none
  | x :: xs => if sep x then firstRun sep xs else some (x :: xs.takeWhile (¬ sep ·))

theorem takeWhile_run (hclear : ∀ x ∈ w, ¬ sep x) (hrest : ∀ x ∈ rest.head?, sep x) :
    (w ++ rest).takeWhile (¬ sep ·) = w := by
  induction w with
  | nil =>
    cases rest with
    | nil => rfl
    | cons x rest => exact List.takeWhile_cons_of_neg (by simpa using hrest x rfl)
  | cons x w ih =>
    have hx : ¬ sep x := hclear x List.mem_cons_self
    rw [List.cons_append, List.takeWhile_cons_of_pos (by simpa using hx),
      ih fun y hy => hclear y (List.mem_cons_of_mem _ hy)]

theorem firstRun_run (hw : w ≠ []) (hclear : ∀ x ∈ w, ¬ sep x) (hrest : ∀ x ∈ rest.head?, sep x) :
    firstRun sep (w ++ rest) = some w := by
  cases w with
  | nil => exact absurd rfl hw
  | cons x w =>
    rw [List.cons_append, firstRun, if_neg (hclear x List.mem_cons_self),
      takeWhile_run (fun y hy => hclear y (List.mem_cons_of_mem _ hy)) hrest]

/-- The first run of a list is the first that a scan finds. -/
theorem Scan.head (h : Scan sep i xs ws) : ws.head?.map Prod.snd = firstRun sep xs := by
  induction h with
  | done => rfl
  | skip hx _ ih =>
    rw [firstRun, if_pos hx]
    exact ih
  | last hw hclear =>
    have hrun := firstRun_run hw hclear no_head
    rw [List.append_nil] at hrun
    exact hrun.symm
  | word hw hclear hx _ _ => exact (firstRun_run hw hclear (head_cons hx)).symm

end First

end Runs
