import Lazux.Runs
import Lazux.Translation

/-! # What `vmm_free_pt` gives back

The recursion as the events it performs: the entries it reads and the pages it frees. For a page
table that was built by `vmm_map_kernel` and got user pages, each of its frames is freed once, after
the last time it is read. -/
namespace Lazux

open PagedMemory RadixForest

/-- An entry of a table is read, or a page goes back to the allocator. -/
inductive FreeEvent where
  | read (table : ℕ) (i : Fin 512)
  | free (pa : Addr)
  deriving DecidableEq

def FreeEvent.perform (p : Phys) : FreeEvent → Phys
  | .read _ _ => p
  | .free pa => pmmFreePage p pa

/-- The body of the loop of `free_page_table`, as its events. -/
def entryLog (below : Addr → List FreeEvent) (m : Memory) (pt : ℕ) (i : Fin 512) : List FreeEvent :=
  let pte := (m pt).word i
  .read pt i ::
    if hasFlag pte pteV then
      if isLeaf pte then if hasFlag pte pteU then [.free (pteToPa pte)] else []
      else below (pteToPa pte)
    else []

def freeLog (m : Memory) : ℕ → ℕ → List FreeEvent
  | 0, pt => (List.finRange 512).flatMap (entryLog (fun _ => []) m pt)
  | level + 1, pt =>
    (List.finRange 512).flatMap
      (entryLog (fun pa => freeLog m level (frame pa) ++ [.free pa]) m pt)

def vmmFreeLog (m : Memory) (root : ℕ) : List FreeEvent :=
  freeLog m 2 root ++ [.free (pageAddr root)]

/-- The frames of the tree below `root`: its tables, and the pages of its user leaves. -/
inductive TreeFrame (m : Memory) (root : ℕ) : ℕ → Prop where
  | table {path : List (Fin 512)} {f : ℕ} (hp : path.length ≤ 2)
      (h : tableAt m (some root) path = some f) : TreeFrame m root f
  | page (q : PageNo) (h : UserLeaf (entry m (some root) q)) :
      TreeFrame m root (frame (pteToPa (entry m (some root) q)))

/-- How a page table comes about: `vmm_map_kernel` fills an empty one, and pages are mapped for user
programs, each in a frame nothing else of the tree is in, or copied from another tree. In between
the kernel may do whatever leaves the tables as they are and its frames in use. -/
inductive Built (L : Layout) : ℕ → Phys → Prop where
  | kernel {root : ℕ} {p p' : Phys} (hu : InUse p root)
      (hk : vmmMapKernel L root (p.zeroPage root) = .ok p') : Built L root p'
  | user {root n : ℕ} {p p' : Phys} {va : Addr} {flags : Word} {ok : Bool} (h : Built L root p)
      (hf : UserFlags flags) (hu : InUse p n)
      (hn : ∀ path, tableAt p.mem (some root) path = some n → path = (pageNo va).leaf)
      (hm : mapPage p root va (pageAddr n) flags = (ok, p')) : Built L root p'
  | copied {root parent : ℕ} {p p' : Phys} (h : Built L root p) (hp : Built L parent p)
      (hd : ∀ f, TreeFrame p.mem root f → ¬ TreeFrame p.mem parent f)
      (hc : vmmCopyUvm 2 parent root p = .ok p') : Built L root p'
  | other {root : ℕ} {p p' : Phys} (h : Built L root p)
      (hm : ∀ path f, path.length ≤ 2 → tableAt p.mem (some root) path = some f →
        p'.mem f = p.mem f)
      (hu : ∀ f, TreeFrame p.mem root f → InUse p' f) : Built L root p'

/-- What may come after an event: no page is freed again, or read as a table, once it is free. -/
def InOrder (a b : FreeEvent) : Prop :=
  ∀ pa, a = .free pa → b ≠ .free pa ∧ ∀ i, b ≠ .read (frame pa) i

variable {ι : Type*} {H : Forest ι} {p p' q : Phys} {lo : ℕ} {i : ι} {root f n : ℕ}
  {path : List (Fin 512)} {k : Fin 512} {m : Memory}

section Log

theorem mem_perform (log : List FreeEvent) (q : Phys) :
    (log.foldl FreeEvent.perform q).mem = q.mem := by
  induction log generalizing q with
  | nil => rfl
  | cons e log ih =>
    rw [List.foldl_cons, ih]
    cases e with
    | read t j => rfl
    | free pa => exact mem_pmmFreePage q pa

theorem freeEntry_log {below : Addr → Phys → Phys} {log : Addr → List FreeEvent}
    (hb : ∀ pa q, q.mem = m → below pa q = (log pa).foldl FreeEvent.perform q) (pt : ℕ)
    (k : Fin 512)
    (hq : q.mem = m) :
    freeEntry below pt q k = (entryLog log m pt k).foldl FreeEvent.perform q := by
  subst hq
  rw [freeEntry_eq below rfl, entryLog, List.foldl_cons, FreeEvent.perform]
  split_ifs
  · rfl
  · rfl
  · exact hb _ _ rfl
  · rfl

theorem entries_log {below : Addr → Phys → Phys} {log : Addr → List FreeEvent}
    (hb : ∀ pa q, q.mem = m → below pa q = (log pa).foldl FreeEvent.perform q) (pt : ℕ)
    (l : List (Fin 512)) (hq : q.mem = m) :
    l.foldl (freeEntry below pt) q = (l.flatMap (entryLog log m pt)).foldl FreeEvent.perform q := by
  induction l generalizing q with
  | nil => rfl
  | cons k l ih =>
    rw [List.foldl_cons, List.flatMap_cons, List.foldl_append, freeEntry_log hb pt k hq]
    exact ih ((mem_perform _ q).trans hq)

theorem freePageTable_log (level pt : ℕ) (hq : q.mem = m) :
    freePageTable level pt q = (freeLog m level pt).foldl FreeEvent.perform q := by
  induction level generalizing pt q with
  | zero =>
    rw [freePageTable, freeLog]
    refine entries_log (fun pa q _ => ?_) pt _ hq
    rw [List.foldl_nil]
  | succ level ih =>
    rw [freePageTable, freeLog]
    refine entries_log (fun pa q hq => ?_) pt _ hq
    rw [List.foldl_append, ih (frame pa) hq]
    rfl

theorem vmmFreePt_log (root : ℕ) (p : Phys) :
    vmmFreePt root p = (vmmFreeLog p.mem root).foldl FreeEvent.perform p := by
  rw [vmmFreePt, freePageTable_log 2 root rfl, vmmFreeLog, List.foldl_append]
  rfl

end Log

section Order

theorem inOrder_read (t : ℕ) (j : Fin 512) (b : FreeEvent) : InOrder (.read t j) b := by
  intro pa hpa
  cases hpa

/-- A page that is freed last has to be new. -/
theorem inOrder_free {a : FreeEvent} {pa : Addr} (h : a ≠ .free pa) : InOrder a (.free pa) := by
  rintro pa' rfl
  refine ⟨fun he => h he.symm, fun j hj => ?_⟩
  cases hj

/-- The log of an entry of table `f`, `P` the path it continues: it frees exactly the frames at and
below `P`, and reads only `f` and tables among them. -/
structure EntryLog (p : Phys) (H : Forest ι) (i : ι) (f : ℕ) (P : List (Fin 512))
    (log : List FreeEvent) : Prop where
  reads : ∀ t j, FreeEvent.read t j ∈ log →
    t = f ∨ ∃ path, held p H (.node i (path ++ P)) = some t
  frees : ∀ pa, FreeEvent.free pa ∈ log ↔
    ∃ path g, held p H (.node i (path ++ P)) = some g ∧ pa = pageAddr g
  ordered : log.Pairwise InOrder

/-- The log of the table at `P`: it frees exactly the frames below, and reads only it and tables
among them. -/
structure TableLog (p : Phys) (H : Forest ι) (i : ι) (P : List (Fin 512)) (log : List FreeEvent) :
    Prop where
  reads : ∀ t j, FreeEvent.read t j ∈ log → ∃ path, held p H (.node i (path ++ P)) = some t
  frees : ∀ pa, FreeEvent.free pa ∈ log ↔
    ∃ k path g, held p H (.node i (path ++ k :: P)) = some g ∧ pa = pageAddr g
  ordered : log.Pairwise InOrder

theorem Owned.pageAddr_inj (h : Owned lo H p) {r s : Role ι (Fin 512)} {f g : ℕ}
    (hf : held p H r = some f) (hg : held p H s = some g) (ha : pageAddr f = pageAddr g) :
    f = g ∧ r = s := by
  have hlt := (h.inRam hf).2
  have hlt' := (h.inRam hg).2
  simp only [ramLast] at hlt hlt'
  have hfg : f = g := by
    rw [← @frame_pageAddr f (by omega), ha, frame_pageAddr (by omega)]
  subst hfg
  exact ⟨rfl, h.distinct r s f hf hg⟩

theorem Owned.inOrder_entries (h : Owned lo H p) (hf : held p H (.node i path) = some f)
    {k k' : Fin 512}
    (hne : k ≠ k') {a b : List FreeEvent} (ha : EntryLog p H i f (k :: path) a)
    (hb : EntryLog p H i f (k' :: path) b) : ∀ x ∈ a, ∀ y ∈ b, InOrder x y := by
  rintro x hx y hy pa rfl
  obtain ⟨P, g, hg, rfl⟩ := (ha.frees _).mp hx
  have hapart : ∀ P', P ++ k :: path ≠ P' ++ k' :: path := by
    intro P' he
    have htail := (List.append_inj' he rfl).2
    rw [List.cons.injEq] at htail
    exact hne htail.1
  constructor
  · rintro rfl
    obtain ⟨P', g', hg', hpa⟩ := (hb.frees _).mp hy
    have hrole := (h.pageAddr_inj hg hg' hpa).2
    simp only [Role.node.injEq, true_and] at hrole
    exact hapart P' hrole
  · rintro j rfl
    have hlt := (h.inRam hg).2
    simp only [ramLast] at hlt
    rw [frame_pageAddr (by omega)] at hy
    rcases hb.reads _ j hy with rfl | ⟨P', hP'⟩
    · have hrole := h.distinct _ _ _ hg hf
      simp only [Role.node.injEq, true_and] at hrole
      have hlen := congrArg List.length hrole
      simp at hlen
      omega
    · have hrole := h.distinct _ _ _ hg hP'
      simp only [Role.node.injEq, true_and] at hrole
      exact hapart P' hrole

theorem entryLog_low (hp : path.length = 2)
    (hf : held p H (.node i path) = some f) (k : Fin 512) :
    EntryLog p H i f (k :: path) (entryLog (fun _ => []) p.mem f k) := by
  have hk : held p H (.node i (k :: path)) = decodePte 2 ((p.mem f).word k) := by
    rw [held_cons, hf, Option.bind_some, hp]
  have hdeep : ∀ P g, held p H (.node i (P ++ k :: path)) = some g →
      decodePte 2 ((p.mem f).word k) = some g := by
    intro P g hg
    cases P with
    | nil => rwa [← hk]
    | cons x P =>
      rw [List.cons_append, held_cons] at hg
      obtain ⟨g', -, hdec⟩ := Option.bind_eq_some_iff.mp hg
      rw [decodePte_deep (by simp; omega)] at hdec
      cases hdec
  have hfree : ∀ pa, FreeEvent.free pa ∈ entryLog (fun _ => []) p.mem f k ↔
      hasFlag ((p.mem f).word k) pteV ∧ hasFlag ((p.mem f).word k) pteU ∧
        isLeaf ((p.mem f).word k) ∧ pa = pteToPa ((p.mem f).word k) := by
    intro pa
    unfold entryLog
    dsimp only
    split_ifs with hv hl hu
    · simp [hv, hl, hu]
    · simp [hu]
    · simp [hl]
    · simp [hv]
  refine ⟨fun t j hread => ?_, fun pa => ?_, ?_⟩
  · left
    unfold entryLog at hread
    dsimp only at hread
    split_ifs at hread <;> simp at hread <;> exact hread.1
  · rw [hfree]
    have haddr : pteToPa ((p.mem f).word k) = pageAddr (frame (pteToPa ((p.mem f).word k))) := by
      apply BitVec.eq_of_toNat_eq
      rw [pageAddr_toNat (by rw [frame_pteToPa]; omega), pteToPa_toNat, frame_pteToPa]
    constructor
    · rintro ⟨hv, hu, hl, rfl⟩
      refine ⟨[], frame (pteToPa ((p.mem f).word k)), ?_, haddr⟩
      rw [List.nil_append, hk, decodePte, if_neg (by decide), if_pos ⟨rfl, hv, hu, hl⟩]
    · rintro ⟨P, g, hg, rfl⟩
      have hdec := hdeep P g hg
      rw [decodePte, if_neg (by decide)] at hdec
      split_ifs at hdec with hc
      cases hdec
      exact ⟨hc.2.1, hc.2.2.1, hc.2.2.2, haddr.symm⟩
  · unfold entryLog
    dsimp only
    split_ifs <;> simp [inOrder_read]

/-- The log of an entry of the upper levels: that of the table below it, and then the table. -/
theorem Owned.entryLog_upper (h : Owned lo H p) (hp : path.length < 2)
    (hf : held p H (.node i path) = some f) (k : Fin 512) (below : ℕ → List FreeEvent)
    (hbelow : ∀ n, held p H (.node i (k :: path)) = some n → TableLog p H i (k :: path) (below n)) :
    EntryLog p H i f (k :: path)
      (entryLog (fun pa => below (frame pa) ++ [.free pa]) p.mem f k) := by
  have hk : held p H (.node i (k :: path)) = decodePte path.length ((p.mem f).word k) := by
    rw [held_cons, hf, Option.bind_some]
  unfold entryLog
  rcases h.pointers i path f hp hf k with hz | ⟨n, hn, hw⟩
  · have hnone : held p H (.node i (k :: path)) = none := by
      rw [hk, hz]
      exact decodePte_zero _
    dsimp only
    rw [hz, if_neg (by decide)]
    refine ⟨fun t j hread => ?_, fun pa => ?_, List.pairwise_singleton _ _⟩
    · rw [List.mem_singleton, FreeEvent.read.injEq] at hread
      exact Or.inl hread.1
    · constructor
      · intro hfree
        simp at hfree
      · rintro ⟨P, g, hg, -⟩
        have hP := holds_prefix_none hnone P
        rw [held, hP] at hg
        cases hg
  · have hsome : held p H (.node i (k :: path)) = some n := by
      rw [hk, hw, decodePte_pointer hp hn]
    obtain ⟨hreads, hfrees, hordered⟩ := hbelow n hsome
    dsimp only
    rw [hw, if_pos (pointer_valid n), if_neg (by simp), pteToPa_pointer hn,
      frame_pageAddr (by omega)]
    refine ⟨fun t j hread => ?_, fun pa => ?_, ?_⟩
    · rw [List.mem_cons, FreeEvent.read.injEq, List.mem_append] at hread
      rcases hread with ⟨rfl, -⟩ | hread | hread
      · exact Or.inl rfl
      · exact Or.inr (hreads t j hread)
      · simp at hread
    · have hsplit : FreeEvent.free pa ∈ FreeEvent.read f k :: (below n ++ [.free (pageAddr n)]) ↔
          FreeEvent.free pa ∈ below n ∨ pa = pageAddr n := by
        simp
      rw [hsplit, hfrees]
      constructor
      · rintro (⟨j, P, g, hg, rfl⟩ | rfl)
        · exact ⟨P ++ [j], g, by rw [List.append_assoc]; exact hg, rfl⟩
        · exact ⟨[], n, hsome, rfl⟩
      · rintro ⟨P, g, hg, rfl⟩
        rcases List.eq_nil_or_concat P with rfl | ⟨front, x, rfl⟩
        · rw [List.nil_append, hsome] at hg
          cases hg
          exact Or.inr rfl
        · rw [List.concat_eq_append, List.append_assoc] at hg
          exact Or.inl ⟨x, front, g, hg, rfl⟩
    · rw [List.pairwise_cons, List.pairwise_append]
      refine ⟨fun b _ => inOrder_read f k b, hordered, List.pairwise_singleton _ _, ?_⟩
      intro a ha b hb
      obtain rfl := List.mem_singleton.mp hb
      apply inOrder_free
      rintro rfl
      obtain ⟨j, P, g, hg, hpa⟩ := (hfrees _).mp ha
      have hrole := (h.pageAddr_inj hsome hg hpa).2
      simp only [Role.node.injEq, true_and] at hrole
      have hlen := congrArg List.length hrole
      simp at hlen
      omega

theorem Owned.tableLog (h : Owned lo H p) (hf : held p H (.node i path) = some f)
    {log : Fin 512 → List FreeEvent} (hlog : ∀ k, EntryLog p H i f (k :: path) (log k)) :
    TableLog p H i path ((List.finRange 512).flatMap log) := by
  refine ⟨fun t j hread => ?_, fun pa => ?_, List.pairwise_flatMap.mpr ⟨fun k _ => ?_, ?_⟩⟩
  · obtain ⟨k, -, hread⟩ := List.mem_flatMap.mp hread
    rcases (hlog k).reads t j hread with rfl | ⟨P, hP⟩
    · exact ⟨[], hf⟩
    · exact ⟨P ++ [k], by rw [List.append_assoc]; exact hP⟩
  · rw [List.mem_flatMap]
    constructor
    · rintro ⟨k, -, hfree⟩
      exact ⟨k, ((hlog k).frees pa).mp hfree⟩
    · rintro ⟨k, hfree⟩
      exact ⟨k, List.mem_finRange k, ((hlog k).frees pa).mpr hfree⟩
  · exact (hlog k).ordered
  · exact (List.nodup_finRange 512).imp fun hne =>
      h.inOrder_entries hf hne (hlog _) (hlog _)

theorem Owned.freeLog_table (h : Owned lo H p) (level : ℕ) (hl : level + path.length = 2)
    (hf : held p H (.node i path) = some f) : TableLog p H i path (freeLog p.mem level f) := by
  induction level generalizing path f with
  | zero =>
    rw [freeLog]
    exact h.tableLog hf fun k => entryLog_low (by omega) hf k
  | succ level ih =>
    rw [freeLog]
    refine h.tableLog hf fun k => h.entryLog_upper (by omega) hf k (freeLog p.mem level)
      fun n hn => ih ?_ hn
    rw [List.length_cons]
    omega

end Order

section Built

theorem tableAt_leaf (m : Memory) (root : ℕ) (q : PageNo) :
    tableAt m (some root) q.leaf = decodePte 2 (entry m (some root) q) :=
  held_leaf ⟨m, fun _ => 0⟩ (treeOf root) () q

theorem treeFrame_iff : TreeFrame m root f ↔ ∃ path, tableAt m (some root) path = some f := by
  constructor
  · rintro (⟨hp, h⟩ | ⟨q, h⟩)
    · exact ⟨_, h⟩
    · exact ⟨q.leaf, (tableAt_leaf m root q).trans (decodePte_userLeaf h)⟩
  · rintro ⟨path, h⟩
    by_cases hp : path.length ≤ 2
    · exact .table hp h
    · -- the path is that of a page: below its frame there is nothing
      have hlen : path.length = 3 := by
        match path with
        | k :: rest =>
          obtain ⟨g, -, hg⟩ := Option.bind_eq_some_iff.mp h
          by_contra hlong
          rw [decodePte_deep (by rw [List.length_cons] at hp hlong; omega)] at hg
          cases hg
      obtain ⟨c, b, a, rfl⟩ := List.length_eq_three.mp hlen
      have hdec : decodePte 2 (entry m (some root) (a, b, c)) = some f :=
        (tableAt_leaf m root (a, b, c)).symm.trans h
      have huser : UserLeaf (entry m (some root) (a, b, c)) := by
        rw [userLeaf_iff, hdec]
        simp
      rw [decodePte_userLeaf huser, Option.some.injEq] at hdec
      rw [← hdec]
      exact .page _ huser

/-- `vmm_free_pt` gives back exactly the frames of the tree, each once and after it was last
read. -/
structure TreeReleased (p : Phys) (root : ℕ) : Prop where
  performs : vmmFreePt root p = (vmmFreeLog p.mem root).foldl FreeEvent.perform p
  frees : ∀ pa, FreeEvent.free pa ∈ vmmFreeLog p.mem root ↔
    ∃ f, TreeFrame p.mem root f ∧ pa = pageAddr f
  ordered : (vmmFreeLog p.mem root).Pairwise InOrder
  marked : ∀ f, TreeFrame p.mem root f → InUse p f
  cleared : ∀ f, InUse (vmmFreePt root p) f ↔ InUse p f ∧ ¬ TreeFrame p.mem root f
  memory : (vmmFreePt root p).mem = p.mem

theorem Owned.tree_released (h : Owned lo H p) (hr : H.root i = some root) :
    TreeReleased p root := by
  have ht : held p H (.node i []) = some root := hr
  have hframe : ∀ f, TreeFrame p.mem root f ↔ ∃ path, held p H (.node i path) = some f := by
    intro f
    rw [treeFrame_iff, ← hr]
    rfl
  obtain ⟨hreads, hfrees, hordered⟩ := h.freeLog_table 2 rfl ht
  refine ⟨vmmFreePt_log root p, fun pa => ?_, ?_, fun f hf => ?_, fun f => ?_, ?_⟩
  · rw [vmmFreeLog, List.mem_append, hfrees, List.mem_singleton, FreeEvent.free.injEq]
    constructor
    · rintro (⟨k, P, g, hg, rfl⟩ | rfl)
      · exact ⟨g, (hframe g).mpr ⟨_, hg⟩, rfl⟩
      · exact ⟨root, (hframe root).mpr ⟨[], ht⟩, rfl⟩
    · rintro ⟨g, hg, rfl⟩
      obtain ⟨path, hpath⟩ := (hframe g).mp hg
      rcases List.eq_nil_or_concat path with rfl | ⟨front, k, rfl⟩
      · rw [ht] at hpath
        cases hpath
        exact Or.inr rfl
      · rw [List.concat_eq_append] at hpath
        exact Or.inl ⟨k, front, g, hpath, rfl⟩
  · rw [vmmFreeLog, List.pairwise_append]
    refine ⟨hordered, List.pairwise_singleton _ _, fun a ha b hb => ?_⟩
    obtain rfl := List.mem_singleton.mp hb
    apply inOrder_free
    rintro rfl
    obtain ⟨k, P, g, hg, hpa⟩ := (hfrees _).mp ha
    have hrole := (h.pageAddr_inj ht hg hpa).2
    simp at hrole
  · obtain ⟨path, hpath⟩ := (hframe f).mp hf
    exact (h.inUse _ f hpath).1
  · rw [h.inUse_vmmFreePt hr rfl, hframe, not_exists]
  · rw [vmmFreePt, mem_pmmFreePage, mem_freePageTable]

theorem owned_zeroPage (hu : InUse p root) : Owned 0 (treeOf root) (p.zeroPage root) := by
  have hempty : Owned 0 (⟨fun _ => none, fun _ => none⟩ : Forest Unit) (p.zeroPage root) := by
    have hnone : ∀ r,
        held (p.zeroPage root) (⟨fun _ => none, fun _ => none⟩ : Forest Unit) r = none := by
      intro r
      cases r with
      | extra i => rfl
      | node i path => exact tableAt_none _ _
    refine ⟨fun r s f hr => ?_, fun r f hr => ?_, fun i path f _ hr => ?_, fun i q => ?_,
      fun f _ hlt => absurd hlt (Nat.not_lt_zero f)⟩
    · rw [hnone] at hr
      cases hr
    · rw [hnone] at hr
      cases hr
    · rw [hnone] at hr
      cases hr
    · rw [entry_none]
      exact leafWord_zero q
  have hunheld : Unheld (p.zeroPage root) (⟨fun _ => none, fun _ => none⟩ : Forest Unit) root := by
    intro r hr
    cases r with
    | extra i => cases hr
    | node i path =>
      rw [held_node, tableAt_none] at hr
      cases hr
  have hroot := hempty.addRoot (i := ()) rfl hunheld hu (Nat.zero_le _) (mem_setPage_self _ _ _)
  have hupdate : Function.update (fun _ : Unit => (none : Option ℕ)) () (some root) =
      fun _ => some root := funext fun _ => Function.update_self _ _ _
  have hsame : withRoot (⟨fun _ => none, fun _ => none⟩ : Forest Unit) () (some root) =
      treeOf root := by
    rw [withRoot, treeOf, hupdate]
  rwa [hsame] at hroot

/-- A page is mapped in a frame that nothing else of the tree is in. -/
theorem Owned.user_mapped {va : Addr} {flags : Word} {ok : Bool} (h : Owned 0 (treeOf root) p)
    (hf : UserFlags flags) (hu : InUse p n)
    (hn : ∀ path, tableAt p.mem (some root) path = some n → path = (pageNo va).leaf)
    (hm : mapPage p root va (pageAddr n) flags = (ok, p')) : Owned 0 (treeOf root) p' := by
  have hr : (treeOf root).root () = some root := rfl
  have hlt : n < 2 ^ 44 := by
    have := hu.1.2
    simp only [ramLast] at this
    omega
  cases ok with
  | false =>
    obtain ⟨-, T, -, hplaced⟩ := mapPage_false h hr hm
    exact hplaced.grows.owned
  | true =>
    rcases @mapPage_tables _ _ _ _ _ _ _ va (pageAddr n) flags h hr with
      ⟨mid, low, p1, p2, -, -, hg, ht, -, hold, hm'⟩ | ⟨T, p2, hm', -⟩
    · rw [hm', Prod.mk.injEq] at hm
      obtain ⟨-, rfl⟩ := hm
      refine hg.owned.setLeaf ht (leafWord_userWord hf hlt (pageNo va)) fun m hdec => ?_
      rw [show paToPte (pageAddr n) ||| flags ||| pteV = userWord n flags from rfl,
        decode_userWord hf hlt] at hdec
      split_ifs at hdec
      cases hdec
      refine ⟨hg.inUse n hu, Nat.zero_le _, fun r hr hheld => ?_⟩
      rcases hold r n hheld with hbefore | hfree
      · cases r with
        | extra i => cases hbefore
        | node i path => exact hr (by rw [hn path hbefore])
      · exact hfree hu
    · rw [hm'] at hm
      cases hm

def pairOf (root parent : ℕ) : Forest Bool :=
  ⟨fun b => some (if b then root else parent), fun _ => none⟩

theorem Owned.pair {parent : ℕ} (h : Owned 0 (treeOf root) p) (h' : Owned 0 (treeOf parent) p)
    (hd : ∀ f, TreeFrame p.mem root f → ¬ TreeFrame p.mem parent f) :
    Owned 0 (pairOf root parent) p := by
  have hone : ∀ b path, held p (pairOf root parent) (.node b path) =
      held p (treeOf (if b then root else parent)) (.node () path) := fun _ _ => rfl
  have howned : ∀ b : Bool, Owned 0 (treeOf (if b then root else parent)) p := by
    intro b
    cases b
    · exact h'
    · exact h
  have hframe : ∀ (r : ℕ) path f, held p (treeOf r) (.node () path) = some f →
      TreeFrame p.mem r f :=
    fun r path f hf => treeFrame_iff.mpr ⟨path, hf⟩
  refine ⟨fun r s f hr hs => ?_, fun r f hr => ?_, fun b path f hp hf => ?_, fun b q => ?_,
    fun f _ hlt => absurd hlt (Nat.not_lt_zero f)⟩
  · cases r with
    | extra b => cases hr
    | node b path =>
      cases s with
      | extra b' => cases hs
      | node b' path' =>
        rw [hone] at hr hs
        cases b with
        | false =>
          cases b' with
          | false =>
            have hrole := h'.distinct _ _ f hr hs
            simp only [Role.node.injEq, true_and] at hrole
            rw [hrole]
          | true => exact absurd (hframe _ _ f hr) (hd f (hframe _ _ f hs))
        | true =>
          cases b' with
          | false => exact absurd (hframe _ _ f hs) (hd f (hframe _ _ f hr))
          | true =>
            have hrole := h.distinct _ _ f hr hs
            simp only [Role.node.injEq, true_and] at hrole
            rw [hrole]
  · cases r with
    | extra b => cases hr
    | node b path => exact (howned b).inUse (.node () path) f hr
  · exact (howned b).pointers () path f hp hf
  · exact (howned b).leaves () q

/-- A page table built so is a tree of its own. -/
theorem Built.owned {L : Layout} (h : Built L root p) : Owned 0 (treeOf root) p := by
  induction h with
  | @kernel root p p' hu hk =>
    exact ((vmmMapKernel_meets (i := ()) L (owned_zeroPage hu) rfl).ensures p' hk).grows.owned
  | user h hf hu hn hm ih => exact ih.user_mapped hf hu hn hm
  | @copied root parent p p' h hp hd hc ih ihp =>
    have hpair := ih.pair ihp hd
    have hcopy :=
      ((vmmCopyUvm_meets (i := false) (j := true) (P := []) (by decide) 2 rfl hpair rfl rfl
      ).ensures p' hc).grows.owned
    refine hcopy.reindex (fun _ => true) (fun _ => true) (fun i f hf => hf) (fun i f hf => ?_)
      (fun i j _ _ _ => rfl) fun i j _ _ _ => rfl
    cases hf
  | @other root p p' h hm hu ih =>
    refine ih.of_tables (fun f hf => ?_) (fun r f hr => ?_) fun f _ hlt =>
      absurd hlt (Nat.not_lt_zero f)
    · rw [NotTable] at hf
      push Not at hf
      obtain ⟨i, path, hp, hpath⟩ := hf
      exact hm path f hp hpath
    · cases r with
      | extra i => cases hr
      | node i path => exact hu f (treeFrame_iff.mpr ⟨path, hr⟩)

theorem process_tree_released {L : Layout} {ram : Memory} {st : KState} {j : Slot}
    (h : Reachable L ram st) (hu : (st.processTable j).state ≠ .unused) :
    TreeReleased st.phys (st.rootOf j) := by
  have hs := (reachable_settled h).sound
  exact hs.owned.tree_released (hs.root hu)

/-- For a page table built by `vmm_map_kernel` that got user pages in frames of their own,
`vmm_free_pt` clears exactly the bits of its tables and its user pages, each once, and reads no
table after freeing it. -/
theorem vmm_free_pt_releases {L : Layout} (h : Built L root p) : TreeReleased p root :=
  h.owned.tree_released (i := ()) rfl

/-- A kernel table with one page of a user program. -/
theorem vmm_free_pt_releases_page : ∃ p root n, Built smallLayout root p ∧
    tableAt p.mem (some root) (pageNo 0x400000).leaf = some n ∧ TreeReleased p root := by
  have hroom : freeFrames (initPmm smallLayout smallRam) = 32252 := by
    rw [freeFrames_initPmm]
    decide
  obtain ⟨root, p1, ha⟩ := pmmAllocPage_returns (p := initPmm smallLayout smallRam) (by omega)
  have htree :=
    kernelTree (L := smallLayout) (owned_initPmm (ι := Unit) smallLayout smallRam) (i := ())
    rfl ha
  obtain ⟨p2, hk⟩ := htree.returns (by omega)
  have hcount := (htree.ensures p2 hk).count
  obtain ⟨hram, -, -, -, huse⟩ := pmmAllocPage_some ha
  have hb : Built smallLayout root p2 := .kernel ((huse root).mpr (Or.inl rfl)) hk
  have hpages : (pageNo 0x400000).tables.card ≤ 2 := Finset.card_le_two
  have hunion := Finset.card_union_le (tableSet p2 (treeOf root) ()) (pageNo 0x400000).tables
  obtain ⟨n, p3, p4, ha', hm⟩ := @placeUserPage_fits Unit (treeOf root) p2 0 () _ root 0x400000
    (pteU ||| pteR) hb.owned rfl Page.zero (by omega)
  obtain ⟨hplaced, hu, -, hun, -⟩ := placed_alloc (i := ()) hb.owned ha' Page.zero
  have hfilled : Built smallLayout root (p3.setPage n Page.zero) := by
    refine .other hb (fun path f hp hf => ?_) fun f hf => ?_
    · have hmem := pmmAllocPage_some ha'
      rw [mem_setPage_of_ne, hmem.2.2.1]
      rintro rfl
      exact hb.owned.unheld_of_free hmem.2.1 (.node () path) hf
    · obtain ⟨path, hpath⟩ := treeFrame_iff.mp hf
      exact hplaced.grows.inUse f (hb.owned.inUse (.node () path) f hpath).1
  have hflags : UserFlags (pteU ||| pteR) := ⟨by decide, by decide⟩
  have hmapped : Built smallLayout root p4 :=
    .user hfilled hflags hu (fun path hpath => absurd hpath (hun (.node () path))) hm
  obtain ⟨hentries, -⟩ := @placeUserPage Unit (treeOf root) p2 p3 p4 0 () _ root n 0x400000
    (pteU ||| pteR) hb.owned rfl hflags ha' Page.zero hm
  refine ⟨p4, root, n, hmapped, ?_, vmm_free_pt_releases hmapped⟩
  have hword : entry p4.mem (some root) (pageNo 0x400000) = userWord n (pteU ||| pteR) := by
    rw [show some root = (treeOf root).root () from rfl, hentries.entries, if_pos rfl]
    rfl
  have hlt : n < 2 ^ 44 := by
    have := hu.1.2
    simp only [ramLast] at this
    omega
  rw [tableAt_leaf, hword, decode_userWord hflags hlt, if_pos (isLeaf_userWord (by decide))]

end Built

end Lazux
