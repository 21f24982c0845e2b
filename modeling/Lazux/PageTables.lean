import Lazux.Ownership
import Mathlib.Data.Set.Finite.List

/-! # Building page tables

What `map_page` does to the tree it is given, to the allocator and to everything else,
with the number of frames it needs. -/
namespace Lazux

open PagedMemory RadixForest

variable {ι : Type*} {H : Forest ι} {p p' p'' : Phys} {lo : ℕ} {i : ι}

theorem finite_tables (p : Phys) (H : Forest ι) (i : ι) :
    {path : List (Fin 512) | (path.length = 1 ∨ path.length = 2) ∧
      held p H (.node i path) ≠ none}.Finite :=
  (List.finite_length_le (Fin 512) 2).subset fun path hp => by
    show path.length ≤ 2
    rcases hp.1 with hl | hl <;> omega

@[irreducible] noncomputable def tableSet (p : Phys) (H : Forest ι) (i : ι) :
  Finset (List (Fin 512)) :=
  (finite_tables p H i).toFinset

/-- The tables the entry of a page needs. -/
def PageNo.tables (q : PageNo) : Finset (List (Fin 512)) := {q.mid, q.low}

theorem mem_tableSet {path : List (Fin 512)} : path ∈ tableSet p H i ↔
    (path.length = 1 ∨ path.length = 2) ∧ held p H (.node i path) ≠ none := by
  rw [tableSet, Set.Finite.mem_toFinset]
  exact Iff.rfl

theorem tableSet_congr {ι' : Type*} {H' : Forest ι'} {j : ι'} (h : H'.root j = H.root i) :
    tableSet p H' j = tableSet p H i := by
  ext path
  rw [mem_tableSet, mem_tableSet, held_node, held_node, h]

/-- Tree `i` gains the tables `T`, and `n` frames besides are taken; nothing else that was
in use changes. -/
structure Grows (lo : ℕ) (H : Forest ι) (i : ι) (T : Finset (List (Fin 512))) (n : ℕ)
    (p p' : Phys) : Prop where
  owned : Owned lo H p'
  inUse : ∀ f, InUse p f → InUse p' f
  mem : ∀ f, InUse p f → (∀ path, path.length ≤ 2 → held p H (.node i path) ≠ some f) →
    p'.mem f = p.mem f
  others : ∀ r, (∀ path, r ≠ .node i path) → held p' H r = held p H r
  kept : ∀ path f, path.length ≤ 2 → held p H (.node i path) = some f →
    held p' H (.node i path) = some f
  fresh : ∀ path f, path.length ≤ 2 → held p' H (.node i path) = some f →
    held p H (.node i path) = some f ∨ ¬ InUse p f
  tables : tableSet p' H i = tableSet p H i ∪ T
  count : freeFrames p' + (tableSet p' H i).card + n = freeFrames p + (tableSet p H i).card

namespace Grows

variable {T T' : Finset (List (Fin 512))} {n n' : ℕ}

theorem refl (h : Owned lo H p) : Grows lo H i ∅ 0 p p :=
  ⟨h, fun _ => id, fun _ _ _ => rfl, fun _ _ => rfl, fun _ _ _ => id, fun _ _ _ => Or.inl,
    (Finset.union_empty _).symm, Nat.add_zero _⟩

theorem trans (h : Grows lo H i T n p p') (h' : Grows lo H i T' n' p' p'') :
    Grows lo H i (T ∪ T') (n + n') p p'' where
  owned := h'.owned
  inUse f hf := h'.inUse f (h.inUse f hf)
  mem f hf hn := by
    rw [h'.mem f (h.inUse f hf), h.mem f hf hn]
    intro path hp he
    rcases h.fresh path f hp he with hold | hfree
    · exact hn path hp hold
    · exact hfree hf
  others r hr := (h'.others r hr).trans (h.others r hr)
  kept path f hp hf := h'.kept path f hp (h.kept path f hp hf)
  fresh path f hp hf := by
    rcases h'.fresh path f hp hf with hmid | hfree
    · exact h.fresh path f hp hmid
    · exact Or.inr fun hu => hfree (h.inUse f hu)
  tables := by rw [h'.tables, h.tables, Finset.union_assoc]
  count := by
    have := h.count
    have := h'.count
    omega

theorem mem_other (h : Grows lo H i T n p p') (ho : Owned lo H p) {r : Role ι (Fin 512)} {f : ℕ}
    (hr : ∀ path, path.length ≤ 2 → r ≠ .node i path) (hf : held p H r = some f) :
    p'.mem f = p.mem f :=
  h.mem f (ho.inUse r f hf).1 fun path hp hpf => hr path hp (ho.distinct _ _ f hf hpf)

theorem entry_other (h : Grows lo H i T n p p') (ho : Owned lo H p) {j : ι} (hj : j ≠ i)
    (q : PageNo) :
    entry p'.mem (H.root j) q = entry p.mem (H.root j) q := by
  have hne : ∀ path, (Role.node j q.low : Role ι (Fin 512)) ≠ .node i path := by
    intro path he
    simp only [Role.node.injEq] at he
    exact hj he.1
  have hheld := h.others (.node j q.low) hne
  rw [held_node, held_node] at hheld
  rw [entry, entry, hheld]
  cases hf : tableAt p.mem (H.root j) q.low with
  | none => rfl
  | some f => simp [h.mem_other ho (fun path _ => hne path) hf]

theorem room (h : Grows lo H i T n p p') {K : Finset (List (Fin 512))} {m : ℕ} (hT : T ⊆ K)
    (hK : T' ⊆ K)
    (hfree : (tableSet p H i ∪ K).card + n + m ≤ freeFrames p + (tableSet p H i).card) :
    (tableSet p' H i ∪ T').card + m ≤ freeFrames p' + (tableSet p' H i).card := by
  have hle : (tableSet p' H i ∪ T').card ≤ (tableSet p H i ∪ K).card := by
    apply Finset.card_le_card
    rw [h.tables, Finset.union_assoc]
    exact Finset.union_subset_union_right (Finset.union_subset hT hK)
  have := h.count
  omega

theorem table_other (h : Grows lo H i T n p p') {j : ι} (hj : j ≠ i) :
    tableSet p' H j = tableSet p H j := by
  ext path
  rw [mem_tableSet, mem_tableSet, h.others]
  intro path' he
  simp only [Role.node.injEq] at he
  exact hj he.1

end Grows

/-- Tree `i` grows and gets the entries that `e` gives. -/
structure Placed (lo : ℕ) (H : Forest ι) (i : ι) (T : Finset (List (Fin 512))) (n : ℕ)
    (e : PageNo → Option Word) (p p' : Phys) : Prop where
  grows : Grows lo H i T n p p'
  entries : ∀ q, entry p'.mem (H.root i) q = (e q).getD (entry p.mem (H.root i) q)

namespace Placed

variable {T T' : Finset (List (Fin 512))} {n n' : ℕ} {e e' : PageNo → Option Word}

theorem refl (h : Owned lo H p) : Placed lo H i ∅ 0 (fun _ => none) p p :=
  ⟨.refl h, fun _ => rfl⟩

theorem trans (h : Placed lo H i T n e p p') (h' : Placed lo H i T' n' e' p' p'') :
    Placed lo H i (T ∪ T') (n + n') (fun q => (e' q).or (e q)) p p'' := by
  refine ⟨h.grows.trans h'.grows, fun q => ?_⟩
  rw [h'.entries, h.entries]
  cases e' q <;> rfl

theorem of_eq (h : Placed lo H i T n e p p') (hT : T = T') (he : ∀ q, e q = e' q) :
    Placed lo H i T' n e' p p' := by
  have : e = e' := funext he
  rwa [← hT, ← this]

theorem owned (h : Placed lo H i T n e p p') : Owned lo H p' := h.grows.owned

end Placed

section NextTable

variable {path : List (Fin 512)} {t n : ℕ} {k : Fin 512}

theorem mem_tableSet_cons (hp : path.length < 2) :
    k :: path ∈ tableSet p H i ↔ held p H (.node i (k :: path)) ≠ none := by
  rw [mem_tableSet, List.length_cons]
  exact and_iff_right (by omega)

/-- An entry of an upper table is valid exactly when a table lies below it. -/
theorem valid_iff (ht : held p H (.node i path) = some t)
    (hp : path.length < 2) : hasFlag (p.pte t k) pteV = true ↔ k :: path ∈ tableSet p H i := by
  rw [mem_tableSet_cons hp, held_cons, ht, Option.bind_some, decodePte_upper hp]
  show _ ↔ (if hasFlag (p.pte t k) pteV then _ else _) ≠ _
  by_cases hv : hasFlag (p.pte t k) pteV = true <;> simp [hv]

theorem nextTable_some [DecidableEq ι] (h : Owned lo H p) (ht : held p H (.node i path) = some t)
    (hp : path.length < 2) (hnext : nextTable p t k = (some n, p')) :
    Grows lo H i {k :: path} 0 p p' ∧ held p' H (.node i (k :: path)) = some n ∧
      (∀ j q, entry p'.mem (H.root j) q = entry p.mem (H.root j) q) ∧
      ∀ r f, held p' H r = some f → held p H r = some f ∨ ¬ InUse p f := by
  unfold nextTable at hnext
  dsimp only at hnext
  split_ifs at hnext with hv
  · -- found
    simp only [Prod.mk.injEq, Option.some.injEq] at hnext
    obtain ⟨rfl, rfl⟩ := hnext
    have hmem := (valid_iff ht hp).mp hv
    refine ⟨⟨h, fun _ => id, fun _ _ _ => rfl, fun _ _ => rfl, fun _ _ _ => id,
      fun _ _ _ => Or.inl, ?_, Nat.add_zero _⟩, ?_, fun _ _ => rfl, fun _ _ => Or.inl⟩
    · rw [Finset.union_eq_left.mpr (Finset.singleton_subset_iff.mpr hmem)]
    · rw [held_cons, ht, Option.bind_some, decodePte_upper hp]
      exact if_pos hv
  · -- made
    have hnot : k :: path ∉ tableSet p H i := fun hm => hv ((valid_iff ht hp).mpr hm)
    have hzero : (p.mem t).word k = 0 := by
      rcases h.pointers i path t hp ht k with hz | ⟨m, hm, he⟩
      · exact hz
      · exfalso
        refine hv ?_
        show hasFlag ((p.mem t).word k) pteV = true
        rw [he, pointer_valid]
    rcases ha : pmmAllocPage p with ⟨_ | new, q⟩
    · rw [ha] at hnext; simp at hnext
    rw [ha] at hnext
    simp only [Prod.mk.injEq, Option.some.injEq] at hnext
    obtain ⟨rfl, rfl⟩ := hnext
    obtain ⟨hram, hfree, hmemq, hcount, huse⟩ := pmmAllocPage_some ha
    obtain ⟨hq, hun, hlo⟩ := h.alloc ha
    have hheldq : held q H = held p H := held_congr fun f _ => by rw [hmemq]
    have hunq : Unheld q H new := fun r hr => hun r (by rwa [hheldq] at hr)
    set z := q.zeroPage new with hz
    have hoz : Owned lo H z := hq.setPage (fun j path' _ => hunq _) _
    have hmemz : ∀ f, ¬ NotTable q H f → z.mem f = q.mem f := by
      intro f hf
      refine mem_setPage_of_ne q ?_ _
      rintro rfl
      exact hf fun j path' _ => hunq _
    have hheldz : held z H = held p H := (held_congr hmemz).trans hheldq
    have htz : held z H (.node i path) = some t := by rw [hheldz, ht]
    have hunz : Unheld z H new := fun r hr => hun r (by rwa [hheldz] at hr)
    have hne : t ≠ new := by rintro rfl; exact hun _ ht
    have hzeroz : (z.mem t).word k = 0 := by
      rw [hz, Phys.zeroPage, mem_setPage_of_ne q hne, hmemq]
      exact hzero
    have huz : InUse z new := (huse new).mpr (Or.inl rfl)
    have hnewz : z.mem new = Page.zero := mem_setPage_self ..
    have hheld := hoz.held_setPointer htz hp hzeroz hunz hram hnewz
    rw [hheldz] at hheld
    have howned := hoz.setPointer htz hp hzeroz hunz huz hlo hnewz
    have hheld' : held (z.setPte t k (paToPte (pageAddr new) ||| pteV)) H =
        Function.update (held p H) (.node i (k :: path)) (some new) := hheld
    have hnew : ∀ r f, held (z.setPte t k (paToPte (pageAddr new) ||| pteV)) H r = some f →
        held p H r = some f ∨ ¬ InUse p f := by
      intro r f hf
      rw [hheld'] at hf
      by_cases hr : r = .node i (k :: path)
      · subst r
        rw [Function.update_self, Option.some.injEq] at hf
        subst f
        exact Or.inr hfree
      · rw [Function.update_of_ne hr] at hf
        exact Or.inl hf
    have htables : tableSet (z.setPte t k (paToPte (pageAddr new) ||| pteV)) H i =
        insert (k :: path) (tableSet p H i) := by
      ext path'
      rw [Finset.mem_insert, mem_tableSet, mem_tableSet, hheld']
      by_cases he : path' = k :: path
      · subst he
        have hl : path.length + 1 = 1 ∨ path.length + 1 = 2 := by omega
        simpa using hl
      · rw [Function.update_of_ne (by simpa using he)]
        simp [he]
    refine ⟨⟨howned, fun f hf => (huse f).mpr (Or.inr hf), fun f hf hn => ?_, fun r hr => ?_,
      fun path' f hp' hf => ?_, fun path' f hp' hf => ?_, ?_, ?_⟩, ?_, fun j q' => ?_,
      fun r f hf => ?_⟩
    · have hft : f ≠ t := by rintro rfl; exact hn path (by omega) ht
      have hfn : f ≠ new := by rintro rfl; exact hfree hf
      rw [mem_setPte_of_ne z hft, hz, Phys.zeroPage, mem_setPage_of_ne q hfn, hmemq]
    · rw [hheld', Function.update_of_ne (hr _)]
    · rw [hheld']
      by_cases he : path' = k :: path
      · have hsome : held p H (.node i (k :: path)) ≠ none := by rw [← he, hf]; simp
        exact absurd ((mem_tableSet_cons hp).mpr hsome) hnot
      · rw [Function.update_of_ne (by simpa using he), hf]
    · exact hnew _ f hf
    · rw [htables, Finset.union_comm, ← Finset.insert_eq]
    · rw [htables, Finset.card_insert_of_notMem hnot]
      show freeFrames q + _ + 0 = _
      omega
    · rw [hheld', Function.update_self]
    · have hset := hoz.entry_setPointer htz hp hzeroz hunz hram hnewz j q'
      rw [entry_congr hmemz, hmemq] at hset
      exact hset
    · exact hnew r f hf

theorem nextTable_none (ht : held p H (.node i path) = some t) (hp : path.length < 2) :
    (nextTable p t k).1 = none ↔ k :: path ∉ tableSet p H i ∧ freeFrames p = 0 := by
  rw [← valid_iff ht hp, nextTable]
  by_cases hv : hasFlag (p.pte t k) pteV = true
  · simp [hv]
  · rw [if_neg hv]
    rcases ha : pmmAllocPage p with ⟨_ | new, q⟩
    · have := pmmAllocPage_none.mp (show (pmmAllocPage p).1 = none by rw [ha])
      simp [hv, this]
    · have := freeFrames_pos_of_some ha
      simp [hv]
      omega

theorem nextTable_none_eq (hnext : nextTable p t k = (none, p')) : p' = p := by
  unfold nextTable at hnext
  dsimp only at hnext
  split_ifs at hnext with hv
  · cases hnext
  · rcases ha : pmmAllocPage p with ⟨_ | new, q⟩
    · rw [ha] at hnext
      cases hnext
      exact pmmAllocPage_none_eq ha
    · rw [ha] at hnext
      cases hnext

end NextTable

section MapPage

variable [DecidableEq ι] {root : ℕ} {va pa : Addr} {flags : Word}

theorem mem_tables {q : PageNo} {path : List (Fin 512)} :
    path ∈ q.tables ↔ path = q.mid ∨ path = q.low := by
  simp [PageNo.tables]

theorem mapPage_tables (h : Owned lo H p) (hr : H.root i = some root) :
    (∃ mid low p1 p2, nextTable p root (vpn va 2) = (some mid, p1) ∧
      nextTable p1 mid (vpn va 1) = (some low, p2) ∧
      Grows lo H i (pageNo va).tables 0 p p2 ∧ held p2 H (.node i (pageNo va).low) = some low ∧
      (∀ j q, entry p2.mem (H.root j) q = entry p.mem (H.root j) q) ∧
      (∀ r f, held p2 H r = some f → held p H r = some f ∨ ¬ InUse p f) ∧
      mapPage p root va pa flags =
        (true, p2.setPte low (vpn va 0) (paToPte pa ||| flags ||| pteV))) ∨
    ∃ T p2, mapPage p root va pa flags = (false, p2) ∧ T ⊆ (pageNo va).tables ∧
      Grows lo H i T 0 p p2 ∧ freeFrames p2 = 0 ∧ ¬ (pageNo va).tables ⊆ tableSet p2 H i ∧
      (∀ j q, entry p2.mem (H.root j) q = entry p.mem (H.root j) q) := by
  have h0 : held p H (.node i []) = some root := hr
  have hmid : vpn va 2 :: [] = (pageNo va).mid := rfl
  have hlow : vpn va 1 :: (pageNo va).mid = (pageNo va).low := rfl
  rcases h1 : nextTable p root (vpn va 2) with ⟨_ | mid, p1⟩
  · refine Or.inr ⟨∅, p1, by simp [mapPage, h1], by simp, ?_, ?_, ?_, ?_⟩
    all_goals rw [nextTable_none_eq h1]
    · exact .refl h
    · exact ((nextTable_none h0 (by simp)).mp (by rw [h1])).2
    · intro hs
      refine ((nextTable_none (k := vpn va 2) h0 (by simp)).mp (by rw [h1])).1 ?_
      exact hs (mem_tables.mpr (Or.inl hmid))
    · exact fun _ _ => rfl
  · obtain ⟨g1, ht1, he1, hf1⟩ := nextTable_some h h0 (by simp) h1
    rw [hmid] at ht1 g1
    rcases h2 : nextTable p1 mid (vpn va 1) with ⟨_ | low, p2⟩
    · refine Or.inr ⟨{(pageNo va).mid}, p2, by simp [mapPage, h1, h2], ?_, ?_, ?_, ?_, ?_⟩
      all_goals try rw [nextTable_none_eq h2]
      · exact Finset.singleton_subset_iff.mpr (mem_tables.mpr (Or.inl rfl))
      · exact g1
      · exact ((nextTable_none ht1 (by simp [PageNo.mid])).mp (by rw [h2])).2
      · intro hs
        refine ((nextTable_none (k := vpn va 1) ht1 (by simp [PageNo.mid])).mp (by rw [h2])).1 ?_
        exact hs (mem_tables.mpr (Or.inr hlow))
      · exact he1
    · obtain ⟨g2, ht2, he2, hf2⟩ := nextTable_some g1.owned ht1 (by simp [PageNo.mid]) h2
      rw [hlow] at ht2 g2
      refine Or.inl ⟨mid, low, p1, p2, rfl, h2, g1.trans g2, ht2,
        fun j q => (he2 j q).trans (he1 j q), fun r f hf => ?_, by simp [mapPage, h1, h2]⟩
      rcases hf2 r f hf with hold | hfree
      · exact hf1 r f hold
      · exact Or.inr fun hu => hfree (g1.inUse f hu)

omit [DecidableEq ι] in
/-- The frame of a user page is read off its entry. -/
theorem held_leaf (p : Phys) (H : Forest ι) (i : ι) (q : PageNo) :
    held p H (.node i q.leaf) = decodePte 2 (entry p.mem (H.root i) q) := by
  show (held p H (.node i q.low)).bind _ = decodePte 2 (entry p.mem (H.root i) q)
  rw [held_node, entry]
  cases tableAt p.mem (H.root i) q.low with
  | none => exact (decodePte_zero 2).symm
  | some f => rfl

omit [DecidableEq ι] in
/-- A frame is used by no role of tree `i`. -/
def Apart (p : Phys) (H : Forest ι) (i : ι) (f : ℕ) : Prop :=
  ∀ r : Role ι (Fin 512), r.owner = i → held p H r ≠ some f

omit [DecidableEq ι] in
theorem apart_iff {n : ℕ} : Apart p H i n ↔ H.extra i ≠ some n ∧
    (∀ path, path.length ≤ 2 → held p H (.node i path) ≠ some n) ∧
    ∀ q : PageNo, held p H (.node i q.leaf) ≠ some n := by
  constructor
  · intro h
    exact ⟨h (.extra i) rfl, fun path _ => h (.node i path) rfl, fun q => h (.node i q.leaf) rfl⟩
  · rintro ⟨he, ht, hq⟩ (j | ⟨j, path⟩) rfl
    · exact he
    · rcases Nat.lt_or_ge 2 path.length with hl | hl
      · match path with
        | [c, b, a] => exact hq (a, b, c)
        | d :: c :: b :: a :: rest =>
          intro hf
          rw [held_cons] at hf
          obtain ⟨f, -, hd⟩ := Option.bind_eq_some_iff.mp hf
          rw [decodePte_deep (by simp)] at hd
          cases hd
      · exact ht path hl

omit [DecidableEq ι] in
theorem unheld_iff {n : ℕ} : Unheld p H n ↔ (∀ j, H.extra j ≠ some n) ∧ NotTable p H n ∧
    ∀ j q, decodePte 2 (entry p.mem (H.root j) q) ≠ some n := by
  have hall : Unheld p H n ↔ ∀ j, Apart p H j n :=
    ⟨fun h j r _ => h r, fun h r => h r.owner r rfl⟩
  simp only [hall, apart_iff, held_leaf, NotTable, forall_and]

/-- A frame stays without a role while its tree grows around it. -/
theorem Grows.unheld {T : Finset (List (Fin 512))} {m n : ℕ} (hg : Grows lo H i T m p p')
    (ho : Owned lo H p) (hn : Unheld p H n) (hu : InUse p n)
    (he : ∀ q, decodePte 2 (entry p'.mem (H.root i) q) ≠ some n) : Unheld p' H n := by
  rw [unheld_iff] at hn ⊢
  refine ⟨hn.1, fun j path hp hf => ?_, fun j q => ?_⟩
  · by_cases hj : j = i
    · subst j
      rcases hg.fresh path n hp hf with hold | hfree
      · exact hn.2.1 i path hp hold
      · exact hfree hu
    · rw [hg.others _ (by simp [hj])] at hf
      exact hn.2.1 j path hp hf
  · by_cases hj : j = i
    · subst j; exact he q
    · rw [hg.entry_other ho hj]; exact hn.2.2 j q

section Leaf

variable {q : PageNo} {w : Word} {t : ℕ}

theorem grows_setLeaf (h : Owned lo H p) (ht : held p H (.node i q.low) = some t)
    (hw : LeafWord q w)
    (hn : ∀ n, decodePte 2 w = some n →
      InUse p n ∧ lo ≤ n ∧ ∀ r, r ≠ .node i q.leaf → held p H r ≠ some n) :
    Grows lo H i ∅ 0 p (p.setPte t q.2.2 w) := by
  have hheld := h.held_setLeaf ht (w := w)
  have hne : ∀ path : List (Fin 512), path.length ≤ 2 →
      (Role.node i path : Role ι (Fin 512)) ≠ .node i q.leaf := by
    intro path hp he
    simp only [Role.node.injEq, true_and] at he
    rw [he] at hp
    simp [PageNo.leaf] at hp
  have htables : tableSet (p.setPte t q.2.2 w) H i = tableSet p H i := by
    ext path
    rw [mem_tableSet, mem_tableSet, hheld]
    by_cases hp : path.length = 1 ∨ path.length = 2
    · rw [Function.update_of_ne (hne path (by omega))]
    · simp [hp]
  refine ⟨h.setLeaf ht hw hn, fun f hf => hf, fun f _ hf => ?_, fun r hr => ?_,
    fun path f hp hf => ?_,
    fun path f hp hf => ?_, by rw [htables, Finset.union_empty],
    by rw [htables, freeFrames_setPte, Nat.add_zero]⟩
  · refine mem_setPte_of_ne p ?_ _ _
    rintro rfl
    exact hf q.low (by simp [PageNo.low]) ht
  · rw [hheld, Function.update_of_ne (hr _)]
  · rw [hheld, Function.update_of_ne (hne path hp), hf]
  · rw [hheld, Function.update_of_ne (hne path hp)] at hf
    exact Or.inl hf

end Leaf

theorem mapPage_true (h : Owned lo H p) (hr : H.root i = some root)
    (hw : LeafWord (pageNo va) (paToPte pa ||| flags ||| pteV))
    (hn : ∀ n, decodePte 2 (paToPte pa ||| flags ||| pteV) = some n →
      InUse p n ∧ lo ≤ n ∧ Unheld p H n)
    (hm : mapPage p root va pa flags = (true, p')) :
    Placed lo H i (pageNo va).tables 0
      (fun q => if q = pageNo va then some (paToPte pa ||| flags ||| pteV) else none) p p' := by
  rcases @mapPage_tables _ _ _ _ _ _ _ va pa flags h hr with
    ⟨mid, low, p1, p2, -, -, hg, ht, he, hf, hm'⟩ | ⟨T, p2, hm', -⟩
  · rw [hm', Prod.mk.injEq] at hm
    obtain ⟨-, rfl⟩ := hm
    have hleaf := grows_setLeaf hg.owned ht hw fun n hd => ⟨hg.inUse n (hn n hd).1, (hn n hd).2.1,
      fun r _ hr => by
        rcases hf r n hr with hold | hfree
        · exact (hn n hd).2.2 r hold
        · exact hfree (hn n hd).1⟩
    have hboth := hg.trans hleaf
    rw [Finset.union_empty] at hboth
    refine ⟨hboth, fun q => ?_⟩
    have hset := hg.owned.entry_setLeaf ht (w := paToPte pa ||| flags ||| pteV) i q
    rw [he] at hset
    refine hset.trans ?_
    by_cases hq : q = pageNo va <;> simp [hq]
  · rw [hm'] at hm
    cases hm

/-- When it fails it may have made one table, and every frame is taken. -/
theorem mapPage_false (h : Owned lo H p) (hr : H.root i = some root)
    (hm : mapPage p root va pa flags = (false, p')) :
    freeFrames p' = 0 ∧ ∃ T ⊆ (pageNo va).tables, Placed lo H i T 0 (fun _ => none) p p' := by
  rcases @mapPage_tables _ _ _ _ _ _ _ va pa flags h hr with
    ⟨mid, low, p1, p2, -, -, hg, ht, he, hf, hm'⟩ | ⟨T, p2, hm', hT, hg, h0, -, he⟩
  · rw [hm'] at hm
    cases hm
  · rw [hm', Prod.mk.injEq] at hm
    obtain ⟨-, rfl⟩ := hm
    exact ⟨h0, T, hT, hg, he i⟩

/-- `map_page` succeeds exactly when the missing tables can be made. -/
theorem mapPage_fst (h : Owned lo H p) (hr : H.root i = some root) :
    (mapPage p root va pa flags).1 = true ↔
      (tableSet p H i ∪ (pageNo va).tables).card ≤ freeFrames p + (tableSet p H i).card := by
  rcases @mapPage_tables _ _ _ _ _ _ _ va pa flags h hr with
    ⟨mid, low, p1, p2, -, -, hg, ht, he, hf, hm⟩ | ⟨T, p2, hm, hT, hg, hfree, hsub, he⟩
  · rw [hm]
    have := hg.count
    rw [hg.tables] at this
    exact iff_of_true rfl (by omega)
  · rw [hm]
    have hcount := hg.count
    have hlt : (tableSet p2 H i).card < (tableSet p H i ∪ (pageNo va).tables).card := by
      refine Finset.card_lt_card ⟨?_, fun hs => hsub (Finset.union_subset_right hs)⟩
      rw [hg.tables]
      exact Finset.union_subset_union_right hT
    refine iff_of_false (by simp) ?_
    omega

end MapPage

section UserPage

variable {n : ℕ}

theorem placed_alloc (h : Owned lo H p) (ha : pmmAllocPage p = (some n, p')) (page : Page) :
    Placed lo H i ∅ 1 (fun _ => none) p (p'.setPage n page) ∧
      InUse (p'.setPage n page) n ∧ lo ≤ n ∧ Unheld (p'.setPage n page) H n ∧ ¬ InUse p n := by
  obtain ⟨hram, hfree, hmem, hcount, huse⟩ := pmmAllocPage_some ha
  obtain ⟨ho, hun, hlo⟩ := h.alloc ha
  have htab : ∀ f, ¬ NotTable p H f → (p'.setPage n page).mem f = p.mem f := by
    intro f hf
    rw [mem_setPage_of_ne p' _ page, hmem]
    rintro rfl
    exact hf fun j path _ => hun _
  have hheld := held_congr htab
  have hsets : tableSet (p'.setPage n page) H i = tableSet p H i := by
    ext path
    rw [mem_tableSet, mem_tableSet, hheld]
  have huse' : ∀ f, InUse p f → InUse (p'.setPage n page) f := fun f hf => (huse f).mpr (Or.inr hf)
  refine ⟨⟨⟨h.congr htab huse', huse', fun f hf _ => ?_, fun r _ => by rw [hheld],
    fun path f _ hf => by rw [hheld, hf], fun path f _ hf => Or.inl (by rwa [hheld] at hf), ?_, ?_⟩,
    entry_congr htab i⟩, (huse n).mpr (Or.inl rfl), hlo,
    fun r hr => hun r (by rwa [hheld] at hr), hfree⟩
  · rw [mem_setPage_of_ne p' _ page, hmem]
    rintro rfl
    exact hfree hf
  · rw [hsets, Finset.union_empty]
  · rw [hsets]
    show freeFrames p' + _ + 1 = _
    omega

end UserPage

end Lazux
