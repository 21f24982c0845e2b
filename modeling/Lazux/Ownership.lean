import Lazux.UserPointer
import Mathlib.Data.Finset.Card
import Mathlib.Data.Fintype.Prod

/-! # Who owns a frame

A family of page table trees, each with one extra frame, over one physical memory. The
invariant says that no frame has two roles and that the allocator knows of all of them.
What the primitive steps on memory do to the roles is said once, here. -/
namespace Lazux

open PagedMemory RadixForest

variable {ι : Type*} {H : Forest ι} {p p' p'' : Phys} {lo : ℕ}

/-- The frame that has a role. -/
def held (p : Phys) (H : Forest ι) (r : Role ι (Fin 512)) : Option ℕ :=
  holds decodePte p.mem.words H r

def PageNo.number (q : PageNo) : ℕ := q.1.val * 2 ^ 18 + q.2.1.val * 2 ^ 9 + q.2.2.val

/-- The pages the kernel maps to themselves: PLIC, UART and RAM. -/
def KernelPage (n : ℕ) : Prop :=
  (plicBase / 4096 ≤ n ∧ n < (plicBase + plicSize) / 4096) ∨ n = uart0Base / 4096 ∨
    (textStart ≤ n ∧ n < ramLast)

instance (n : ℕ) : Decidable (KernelPage n) := inferInstanceAs (Decidable (_ ∨ _ ∨ _))

/-- What an entry for the page `q` can be: entries without `PTE_U` are the kernel's. -/
structure LeafWord (q : PageNo) (w : Word) : Prop where
  reserved : w >>> 54 = 0
  kernel : hasFlag w pteV → ¬ hasFlag w pteU → KernelPage q.number ∧ frame (pteToPa w) = q.number

/-- Frames from `lo` on are the ones handed out. -/
structure Owned (lo : ℕ) (H : Forest ι) (p : Phys) : Prop where
  distinct : Distinct (held p H)
  inUse : ∀ r f, held p H r = some f → InUse p f ∧ lo ≤ f
  pointers : ∀ i path f, path.length < 2 → held p H (.node i path) = some f →
    ∀ k, (p.mem f).word k = 0 ∨ IsPointer ((p.mem f).word k)
  leaves : ∀ i q, LeafWord q (entry p.mem (H.root i) q)
  guard : ∀ f, InRam f → f < lo → InUse p f

def Unheld (p : Phys) (H : Forest ι) (f : ℕ) : Prop := ∀ r, held p H r ≠ some f

def NotTable (p : Phys) (H : Forest ι) (f : ℕ) : Prop :=
  ∀ i path, path.length ≤ 2 → held p H (.node i path) ≠ some f

section Basics

theorem number_pageNo (a : Addr) : (pageNo a).number = a.toNat / 4096 % 2 ^ 27 := by
  simp only [PageNo.number, pageNo, vpn_val]
  norm_num
  omega

theorem number_inj {q q' : PageNo} (h : q.number = q'.number) : q = q' := by
  obtain ⟨a, b, c⟩ := q
  obtain ⟨a', b', c'⟩ := q'
  simp only [PageNo.number] at h
  simp only [Prod.mk.injEq, Fin.ext_iff]
  omega

theorem leafWord_zero (q : PageNo) : LeafWord q 0 := by
  refine ⟨by simp, fun hv => ?_⟩
  simp at hv

theorem held_node (p : Phys) (H : Forest ι) (i : ι) (path : List (Fin 512)) :
    held p H (.node i path) = tableAt p.mem (H.root i) path := rfl

@[simp] theorem held_extra (i : ι) : held p H (.extra i) = H.extra i := rfl
@[simp] theorem held_root (i : ι) : held p H (.node i []) = H.root i := rfl

theorem held_cons (i : ι) (k : Fin 512) (path : List (Fin 512)) :
    held p H (.node i (k :: path)) =
      (held p H (.node i path)).bind fun f => decodePte path.length ((p.mem f).word k) := rfl

theorem entry_eq_wordAt (i : ι) (q : PageNo) : entry p.mem (H.root i) q =
    (wordAt decodePte p.mem.words H i q.2.2 q.low).getD 0 := rfl

theorem held_congr (hm : ∀ f, ¬ NotTable p H f → p'.mem f = p.mem f) : held p' H = held p H := by
  refine @holds_congr _ _ _ _ _ _ _ 3 (fun d w hd => decodePte_deep hd w) fun r hr f hf => ?_
  cases r with
  | extra i => exact hr.elim
  | node i path =>
    have : p'.mem f = p.mem f := hm f fun hn => hn i path (by simp [IsTable] at hr; omega) hf
    funext k
    simp only [Memory.words, this]

theorem entry_congr (hm : ∀ f, ¬ NotTable p H f → p'.mem f = p.mem f) (i : ι) (q : PageNo) :
    entry p'.mem (H.root i) q = entry p.mem (H.root i) q := by
  have hheld := congrFun (held_congr hm) (.node i q.low)
  rw [held_node, held_node] at hheld
  rw [entry, entry, hheld]
  cases hf : tableAt p.mem (H.root i) q.low with
  | none => rfl
  | some f =>
    have : p'.mem f = p.mem f := hm f fun hn => hn i q.low (by simp [PageNo.low]) hf
    simp [this]

end Basics

namespace Owned

variable (h : Owned lo H p)

include h

theorem inRam {r : Role ι (Fin 512)} {f : ℕ} (hf : held p H r = some f) : InRam f :=
  (h.inUse r f hf).1.1

theorem unheld_of_free {n : ℕ} (hn : ¬ InUse p n) : Unheld p H n :=
  fun r hr => hn (h.inUse r n hr).1

theorem threeLevel {i : ι} {root : ℕ} (hr : H.root i = some root) : ThreeLevel p.mem root := by
  refine ⟨fun path f hp hf k hv => ?_, fun q => ?_⟩
  · rcases h.pointers i path f hp (by rw [held_node, hr]; exact hf) k with hz | hptr
    · rw [hz] at hv; simp at hv
    · exact hptr
  · have := (h.leaves i q).reserved
    rwa [hr] at this

/-- Whatever leaves the tables alone and frees neither a role's frame nor a protected one
keeps the invariant. -/
theorem of_tables (hm : ∀ f, ¬ NotTable p H f → p'.mem f = p.mem f)
    (hu : ∀ r f, held p H r = some f → InUse p' f) (hg : ∀ f, InRam f → f < lo → InUse p' f) :
    Owned lo H p' := by
  have hheld := held_congr hm
  refine ⟨hheld ▸ h.distinct, fun r f hf => ?_, fun i path f hp hf k => ?_, fun i q => ?_, hg⟩
  · rw [hheld] at hf
    exact ⟨hu r f hf, (h.inUse r f hf).2⟩
  · rw [hheld] at hf
    rw [hm f fun hn => hn i path (by omega) hf]
    exact h.pointers i path f hp hf k
  · rw [entry_congr hm]
    exact h.leaves i q

theorem congr (hm : ∀ f, ¬ NotTable p H f → p'.mem f = p.mem f)
    (hu : ∀ f, InUse p f → InUse p' f) : Owned lo H p' :=
  h.of_tables hm (fun r f hf => hu f (h.inUse r f hf).1) fun f hr hf => hu f (h.guard f hr hf)

/-- A page the allocator hands out has no role and lies above the protected frames. -/
theorem alloc {n : ℕ} (ha : pmmAllocPage p = (some n, p')) :
    Owned lo H p' ∧ Unheld p H n ∧ lo ≤ n := by
  obtain ⟨hr, hfree, hmem, -, huse⟩ := pmmAllocPage_some ha
  refine ⟨h.congr (fun f _ => by rw [hmem]) fun f hf => (huse f).mpr (Or.inr hf),
    h.unheld_of_free hfree, ?_⟩
  by_contra hlt
  exact hfree (h.guard n hr (by omega))

theorem setPage {f : ℕ} (hf : NotTable p H f) (page : Page) : Owned lo H (p.setPage f page) := by
  refine h.congr (fun g hg => mem_setPage_of_ne p ?_ page) fun g hg => hg
  rintro rfl
  exact hg hf

theorem free {f : ℕ} (hf : InRam f) (hn : Unheld p H f) (hlo : lo ≤ f) {pa : Addr}
    (hpa : pa.toNat = f * 4096) : Owned lo H (pmmFreePage p pa) := by
  refine h.of_tables (fun g _ => by rw [mem_pmmFreePage]) (fun r g hg => ?_) fun g hr hg => ?_
  · refine (inUse_pmmFreePage p hf hpa g).mpr ⟨?_, (h.inUse r g hg).1⟩
    rintro rfl
    exact hn r hg
  · exact (inUse_pmmFreePage p hf hpa g).mpr ⟨by omega, h.guard g hr hg⟩

end Owned

section Writes

variable [DecidableEq ι] {i : ι} {f n : ℕ} {path : List (Fin 512)} {k : Fin 512}

theorem words_setPte (p : Phys) (f : ℕ) (k : Fin 512) (w : Word) :
    (p.setPte f k w).mem.words =
      Function.update p.mem.words f (Function.update (p.mem.words f) k w) :=
  words_memory_setWord p.mem f k w

theorem word_setPte (p : Phys) (f g : ℕ) (k k' : Fin 512) (w : Word) :
    ((p.setPte f k w).mem g).word k' = if g = f ∧ k' = k then w else (p.mem g).word k' := by
  have := congrFun (congrFun (words_setPte p f k w) g) k'
  rw [Memory.words] at this
  rw [this]
  by_cases hg : g = f
  · subst g
    by_cases hk : k' = k <;> simp [hk, Memory.words]
  · simp [hg, Memory.words]

omit [DecidableEq ι] in
theorem pointer_empty (hf : held p H (.node i path) = some f) (hn : Unheld p H n)
    (hram : InRam n) (hz : p.mem n = Page.zero) (hp : path.length < 2) :
    ∀ m, decodePte path.length (pointer n) = some m → ∀ k', decodePte (path.length + 1)
      (Function.update p.mem.words f (Function.update (p.mem.words f) k (pointer n)) m k') =
        none := by
  intro m hm k'
  have hlt : n < 2 ^ 44 := by have := hram.2; simp only [ramLast] at this; omega
  rw [decodePte_pointer hp hlt, Option.some.injEq] at hm
  subst m
  have hne : n ≠ f := by rintro rfl; exact hn _ hf
  rw [Function.update_of_ne hne, Memory.words, hz]
  simp

variable (h : Owned lo H p)

include h

theorem Owned.held_setPointer (hf : held p H (.node i path) = some f) (hp : path.length < 2)
    (hk : (p.mem f).word k = 0) (hn : Unheld p H n) (hram : InRam n) (hz : p.mem n = Page.zero) :
    held (p.setPte f k (pointer n)) H =
    Function.update (held p H) (.node i (k :: path)) (some n) := by
  have hlt : n < 2 ^ 44 := by have := hram.2; simp only [ramLast] at this; omega
  have hset := holds_set h.distinct hf (k := k) (w := pointer n)
    (fun m hm => by rw [Memory.words, hk] at hm; simp at hm)
    (pointer_empty hf hn hram hz hp)
  rw [decodePte_pointer hp hlt, ← words_setPte] at hset
  exact hset

theorem Owned.entry_setPointer (hf : held p H (.node i path) = some f) (hp : path.length < 2)
    (hk : (p.mem f).word k = 0) (hn : Unheld p H n) (hram : InRam n) (hz : p.mem n = Page.zero)
    (j : ι) (q : PageNo) :
    entry (p.setPte f k (pointer n)).mem (H.root j) q = entry p.mem (H.root j) q := by
  have hnone : held p H (.node i (k :: path)) = none := by
    rw [held_cons, hf, Option.bind_some, hk]
    exact decodePte_zero _
  rw [entry_eq_wordAt, entry_eq_wordAt]
  by_cases hq : j = i ∧ q.low = k :: path
  · -- the word lies in the new table
    obtain ⟨rfl, hq⟩ := hq
    have hnew : held (p.setPte f k (pointer n)) H (.node j q.low) = some n := by
      rw [h.held_setPointer hf hp hk hn hram hz, hq, Function.update_self]
    have hne : n ≠ f := by rintro rfl; exact hn _ hf
    have hold : held p H (.node j q.low) = none := by rw [hq, hnone]
    unfold held at hnew hold
    rw [wordAt, hnew, wordAt, hold]
    simp [Memory.words, mem_setPte_of_ne p hne, hz]
  · have hset := wordAt_set h.distinct hf (k := k) (w := pointer n)
      (fun m hm => by rw [Memory.words, hk] at hm; simp at hm)
      (pointer_empty hf hn hram hz hp) (j := j) (x := q.2.2) (q := q.low) hq
    rw [words_setPte, hset, if_neg]
    rintro ⟨-, hlow, -⟩
    rw [← hlow] at hp
    simp [PageNo.low] at hp

theorem Owned.setPointer (hf : held p H (.node i path) = some f) (hp : path.length < 2)
    (hk : (p.mem f).word k = 0) (hn : Unheld p H n) (hu : InUse p n) (hlo : lo ≤ n)
    (hz : p.mem n = Page.zero) : Owned lo H (p.setPte f k (pointer n)) := by
  have hlt : n < 2 ^ 44 := by have := hu.1.2; simp only [ramLast] at this; omega
  have hheld := h.held_setPointer hf hp hk hn hu.1 hz
  refine ⟨?_, fun r g hg => ?_, fun j path' g hp' hg k' => ?_, fun j q => ?_, h.guard⟩
  · rw [hheld]
    exact h.distinct.update_fresh _ hn
  · rw [hheld] at hg
    by_cases hr : r = .node i (k :: path)
    · subst r
      rw [Function.update_self, Option.some.injEq] at hg
      subst g
      exact ⟨hu, hlo⟩
    · rw [Function.update_of_ne hr] at hg
      exact h.inUse r g hg
  · rw [word_setPte]
    split_ifs with hslot
    · exact Or.inr ⟨n, hlt, rfl⟩
    · rw [hheld] at hg
      by_cases hr : (Role.node j path' : Role ι (Fin 512)) = .node i (k :: path)
      · rw [hr, Function.update_self, Option.some.injEq] at hg
        subst g
        simp [hz]
      · rw [Function.update_of_ne hr] at hg
        exact h.pointers j path' g hp' hg k'
  · rw [h.entry_setPointer hf hp hk hn hu.1 hz]
    exact h.leaves j q

variable {q : PageNo} {w : Word}

theorem Owned.held_setLeaf (hf : held p H (.node i q.low) = some f) :
    held (p.setPte f q.2.2 w) H =
      Function.update (held p H) (.node i q.leaf) (decodePte 2 w) := by
  have hset := holds_set h.distinct hf (k := q.2.2) (w := w)
    (fun m _ k' => decodePte_deep (by simp [PageNo.low]) _)
    (fun m _ k' => decodePte_deep (by simp [PageNo.low]) _)
  rw [← words_setPte] at hset
  exact hset

theorem Owned.entry_setLeaf (hf : held p H (.node i q.low) = some f) (j : ι) (q' : PageNo) :
    entry (p.setPte f q.2.2 w).mem (H.root j) q' =
      if j = i ∧ q' = q then w else entry p.mem (H.root j) q' := by
  have hset := wordAt_set h.distinct hf (k := q.2.2) (w := w)
    (fun m _ k' => decodePte_deep (by simp [PageNo.low]) _)
    (fun m _ k' => decodePte_deep (by simp [PageNo.low]) _)
    (j := j) (x := q'.2.2) (q := q'.low) (by simp [PageNo.low])
  rw [entry_eq_wordAt, entry_eq_wordAt, words_setPte, hset]
  have hiff : (j = i ∧ q'.low = q.low ∧ q'.2.2 = q.2.2) ↔ j = i ∧ q' = q := by
    obtain ⟨a, b, c⟩ := q
    obtain ⟨a', b', c'⟩ := q'
    simp only [PageNo.low, List.cons.injEq, and_true, Prod.mk.injEq]
    tauto
  by_cases hc : j = i ∧ q' = q
  · rw [if_pos (hiff.mpr hc), if_pos hc]
    rfl
  · rw [if_neg (fun hc' => hc (hiff.mp hc')), if_neg hc]

/-- Writing an entry whose page, if it is a user page, belongs to no other role. -/
theorem Owned.setLeaf (hf : held p H (.node i q.low) = some f) (hw : LeafWord q w)
    (hn : ∀ n, decodePte 2 w = some n →
      InUse p n ∧ lo ≤ n ∧ ∀ r, r ≠ .node i q.leaf → held p H r ≠ some n) :
    Owned lo H (p.setPte f q.2.2 w) := by
  have hheld := h.held_setLeaf hf (w := w)
  refine ⟨?_, fun r g hg => ?_, fun j path g hp hg k' => ?_, fun j q' => ?_, h.guard⟩
  · rw [hheld]
    cases hd : decodePte 2 w with
    | none => exact h.distinct.update_none _
    | some n =>
      have hclear := h.distinct.update_none (.node i q.leaf)
      have := hclear.update_fresh (.node i q.leaf) (n := n) fun r => by
        by_cases hr : r = .node i q.leaf
        · subst r; simp
        · rw [Function.update_of_ne hr]
          exact (hn n hd).2.2 r hr
      rwa [Function.update_idem] at this
  · rw [hheld] at hg
    by_cases hr : r = .node i q.leaf
    · subst r
      rw [Function.update_self] at hg
      obtain ⟨hu, hl, -⟩ := hn g hg
      exact ⟨hu, hl⟩
    · rw [Function.update_of_ne hr] at hg
      exact h.inUse r g hg
  · have hr : (Role.node j path : Role ι (Fin 512)) ≠ .node i q.leaf := by
      intro he
      simp only [Role.node.injEq] at he
      rw [he.2] at hp
      simp [PageNo.leaf] at hp
    rw [hheld, Function.update_of_ne hr] at hg
    rw [word_setPte, if_neg]
    · exact h.pointers j path g hp hg k'
    · rintro ⟨rfl, -⟩
      have he := h.distinct _ _ g hg hf
      simp only [Role.node.injEq] at he
      rw [he.2] at hp
      simp [PageNo.low] at hp
  · rw [h.entry_setLeaf hf]
    split_ifs with hc
    · rw [hc.2]
      exact hw
    · exact h.leaves j q'

end Writes

section Families

variable {ι' : Type*} {H' : Forest ι'}

theorem tableAt_of_root {m : Memory} {root root' : Option ℕ}
    (hr : ∀ f, root' = some f → root = some f) {path : List (Fin 512)} {f : ℕ}
    (hf : tableAt m root' path = some f) : tableAt m root path = some f := by
  cases root' with
  | none =>
    rw [tableAt_none] at hf
    cases hf
  | some g => rwa [hr g rfl]

theorem root_of_held {r : Option ℕ} {m : Memory} {path : List (Fin 512)} {f : ℕ}
    (hf : tableAt m r path = some f) : r ≠ none := by
  rintro rfl
  rw [tableAt_none] at hf
  cases hf

theorem entry_none (m : Memory) (q : PageNo) : entry m none q = 0 := by
  rw [entry, tableAt_none]
  rfl

theorem Owned.reindex (h : Owned lo H p) (g e : ι' → ι)
    (hr : ∀ i f, H'.root i = some f → H.root (g i) = some f)
    (he : ∀ i f, H'.extra i = some f → H.extra (e i) = some f)
    (hg : ∀ i j, H'.root i ≠ none → H'.root j ≠ none → g i = g j → i = j)
    (hi : ∀ i j, H'.extra i ≠ none → H'.extra j ≠ none → e i = e j → i = j) : Owned lo H' p := by
  let name : Role ι' (Fin 512) → Role ι (Fin 512)
    | .extra i => .extra (e i)
    | .node i path => .node (g i) path
  have hname : ∀ r f, held p H' r = some f → held p H (name r) = some f := by
    intro r f hf
    cases r with
    | extra i => exact he i f hf
    | node i path => exact tableAt_of_root (hr i) hf
  refine ⟨h.distinct.rename name ?_ hname, fun r f hf => h.inUse _ f (hname r f hf),
    fun i path f hp hf => h.pointers (g i) path f hp (hname (.node i path) f hf), fun i q => ?_,
    h.guard⟩
  · intro r s f hr' hs' heq
    cases r with
    | extra i =>
      cases s with
      | extra j =>
        simp only [name, Role.extra.injEq] at heq
        rw [hi i j (by rw [show H'.extra i = some f from hr']; simp)
          (by rw [show H'.extra j = some f from hs']; simp) heq]
      | node j path => cases heq
    | node i path =>
      cases s with
      | extra j => cases heq
      | node j path' =>
        simp only [name, Role.node.injEq] at heq
        rw [hg i j (root_of_held hr') (root_of_held hs') heq.1, heq.2]
  · cases hri : H'.root i with
    | none =>
      rw [entry_none]
      exact leafWord_zero q
    | some f =>
      rw [← hr i f hri]
      exact h.leaves (g i) q

theorem Owned.shrink {H' : Forest ι} (h : Owned lo H p)
    (hr : ∀ i f, H'.root i = some f → H.root i = some f)
    (he : ∀ i f, H'.extra i = some f → H.extra i = some f) : Owned lo H' p :=
  h.reindex id id hr he (fun _ _ _ _ hij => hij) fun _ _ _ _ hij => hij

variable [DecidableEq ι]

/-- The family with another frame at the root of tree `i`. -/
def withRoot (H : Forest ι) (i : ι) (r : Option ℕ) : Forest ι :=
  { H with root := Function.update H.root i r }

def withExtra (H : Forest ι) (i : ι) (r : Option ℕ) : Forest ι :=
  { H with extra := Function.update H.extra i r }

@[simp] theorem withRoot_self (H : Forest ι) (i : ι) (r : Option ℕ) : (withRoot H i r).root i = r :=
  Function.update_self ..

theorem withRoot_of_ne {i j : ι} (h : j ≠ i) (r : Option ℕ) : (withRoot H i r).root j = H.root j :=
  Function.update_of_ne h ..

@[simp] theorem withRoot_extra (H : Forest ι) (i : ι) (r : Option ℕ) :
    (withRoot H i r).extra = H.extra := rfl

@[simp] theorem withExtra_root (H : Forest ι) (i : ι) (r : Option ℕ) :
    (withExtra H i r).root = H.root := rfl

@[simp] theorem withExtra_self (H : Forest ι) (i : ι) (r : Option ℕ) :
    (withExtra H i r).extra i = r := Function.update_self ..

theorem withExtra_of_ne {i j : ι} (h : j ≠ i) (r : Option ℕ) :
    (withExtra H i r).extra j = H.extra j := Function.update_of_ne h ..

theorem Owned.addRoot (h : Owned lo H p) {i : ι} (hi : H.root i = none) {n : ℕ}
    (hn : Unheld p H n) (hu : InUse p n) (hlo : lo ≤ n) (hz : p.mem n = Page.zero) :
    Owned lo (withRoot H i (some n)) p := by
  have hnode : ∀ j path, held p (withRoot H i (some n)) (.node j path) =
      if j = i then if path = [] then some n else none else held p H (.node j path) := by
    intro j path
    by_cases hj : j = i
    · subst j
      rw [if_pos rfl]
      induction path with
      | nil => simp
      | cons k path ih =>
        rw [held_cons, ih, if_neg (List.cons_ne_nil k path)]
        by_cases hp : path = []
        · rw [if_pos hp, Option.bind_some, hz, word_zero]
          exact decodePte_zero _
        · rw [if_neg hp, Option.bind_none]
    · rw [if_neg hj, held_node, held_node, withRoot_of_ne hj]
  have hheld : held p (withRoot H i (some n)) =
      Function.update (held p H) (.node i []) (some n) := by
    funext r
    cases r with
    | extra j => simp
    | node j path =>
      rw [hnode]
      by_cases hj : j = i
      · subst j
        rw [if_pos rfl]
        by_cases hp : path = []
        · subst hp; simp
        · have hnone : held p H (.node i path) = none := by rw [held_node, hi, tableAt_none]
          rw [if_neg hp, Function.update_of_ne (by simpa using hp), hnone]
      · rw [if_neg hj, Function.update_of_ne (by simp [hj])]
  refine ⟨?_, fun r f hf => ?_, fun j path f hp hf k => ?_, fun j q => ?_, h.guard⟩
  · rw [hheld]
    exact h.distinct.update_fresh _ hn
  · rw [hheld] at hf
    by_cases hr : r = .node i []
    · subst r
      rw [Function.update_self, Option.some.injEq] at hf
      subst f
      exact ⟨hu, hlo⟩
    · rw [Function.update_of_ne hr] at hf
      exact h.inUse r f hf
  · rw [hnode] at hf
    split_ifs at hf
    · cases hf
      exact Or.inl (by rw [hz]; simp)
    · exact h.pointers j path f hp hf k
  · by_cases hj : j = i
    · subst hj
      have hlow := hnode j q.low
      rw [if_pos rfl, if_neg (by simp [PageNo.low]), held_node] at hlow
      rw [entry, hlow]
      exact leafWord_zero q
    · rw [withRoot_of_ne hj]
      exact h.leaves j q

theorem Owned.addExtra (h : Owned lo H p) (i : ι) {n : ℕ} (hn : Unheld p H n) (hu : InUse p n)
    (hlo : lo ≤ n) : Owned lo (withExtra H i (some n)) p := by
  have hheld : held p (withExtra H i (some n)) =
      Function.update (held p H) (.extra i) (some n) := by
    funext r
    cases r with
    | extra j =>
      by_cases hj : j = i
      · subst j; simp
      · simp [withExtra_of_ne, hj]
    | node j path => simp [held_node]
  refine ⟨?_, fun r f hf => ?_, h.pointers, h.leaves, h.guard⟩
  · rw [hheld]
    exact h.distinct.update_fresh _ hn
  · rw [hheld] at hf
    by_cases hr : r = .extra i
    · subst r
      rw [Function.update_self, Option.some.injEq] at hf
      subst f
      exact ⟨hu, hlo⟩
    · rw [Function.update_of_ne hr] at hf
      exact h.inUse r f hf

theorem Owned.dropRoot (h : Owned lo H p) (i : ι) : Owned lo (withRoot H i none) p := by
  refine h.shrink (fun j f hf => ?_) fun _ _ => id
  by_cases hj : j = i
  · subst j; simp at hf
  · rwa [withRoot_of_ne hj] at hf

theorem Owned.dropExtra (h : Owned lo H p) (i : ι) : Owned lo (withExtra H i none) p := by
  refine h.shrink (fun _ _ => id) fun j f hf => ?_
  by_cases hj : j = i
  · subst j; simp at hf
  · rwa [withExtra_of_ne hj] at hf

end Families

end Lazux
