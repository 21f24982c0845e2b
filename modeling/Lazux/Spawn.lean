import Lazux.Isolation

/-! # New address spaces (`alloc_proc`, and the first half of `SYS_EXEC`)

A fresh root with the kernel's mappings, and for a process its kernel stack. -/
namespace Lazux

open PagedMemory RadixForest Run

section KernelTree

variable {ι : Type*} [DecidableEq ι] {H : Forest ι} {p p1 p2 : Phys} {lo root : ℕ} {i : ι}
  {L : Layout}

/-- `root` is taken from the free frames of `p` and maps what the kernel needs. -/
structure KernelTree (L : Layout) (lo : ℕ) (H : Forest ι) (i : ι) (root : ℕ) (p p' : Phys) :
    Prop where
  owned : Owned lo (withRoot H i (some root)) p'
  inUse : ∀ f, InUse p f → InUse p' f
  mem : ∀ f, InUse p f → p'.mem f = p.mem f
  others : ∀ r, (∀ path, r ≠ .node i path) → held p' (withRoot H i (some root)) r = held p H r
  fresh : ∀ path f, path.length ≤ 2 → held p' (withRoot H i (some root)) (.node i path) = some f →
    ¬ InUse p f
  entries : ∀ q, entry p'.mem (some root) q = (kernelEntry L q).getD 0
  tables : tableSet p' (withRoot H i (some root)) i = kernelTables
  count : freeFrames p' + 69 = freeFrames p

omit [DecidableEq ι] in
theorem held_zero {path : List (Fin 512)} (hr : H.root i = some root)
    (hz : p.mem root = Page.zero) :
    held p H (.node i path) = if path = [] then some root else none := by
  induction path with
  | nil => exact hr
  | cons k path ih =>
    rw [held_cons, ih, if_neg (List.cons_ne_nil k path)]
    by_cases hp : path = []
    · rw [if_pos hp, Option.bind_some, hz, word_zero]
      exact decodePte_zero _
    · rw [if_neg hp, Option.bind_none]

omit [DecidableEq ι] in
theorem tableSet_zero (hr : H.root i = some root) (hz : p.mem root = Page.zero) :
    tableSet p H i = ∅ := by
  refine Finset.eq_empty_of_forall_notMem fun path hp => ?_
  obtain ⟨hlen, hheld⟩ := mem_tableSet.mp hp
  rw [held_zero hr hz, if_neg] at hheld
  · exact hheld rfl
  · rintro rfl
    simp at hlen

theorem entry_zero (hz : p.mem root = Page.zero) (q : PageNo) : entry p.mem (some root) q = 0 := by
  have := @held_zero _ (⟨fun _ => some root, fun _ => none⟩ : Forest Unit) _ _ () q.low rfl hz
  rw [if_neg (by simp [PageNo.low])] at this
  exact entry_of_none this

theorem freshRoot (ho : Owned lo H p) (hi : H.root i = none)
    (ha : pmmAllocPage p = (some root, p1)) :
    Owned lo (withRoot H i (some root)) (p1.zeroPage root) ∧ ¬ InUse p root ∧
      (p1.zeroPage root).mem root = Page.zero ∧ freeFrames (p1.zeroPage root) + 1 = freeFrames p ∧
      (∀ f, InUse p f → InUse (p1.zeroPage root) f ∧ (p1.zeroPage root).mem f = p.mem f) ∧
      ∀ r, (∀ path, r ≠ .node i path) →
        held (p1.zeroPage root) (withRoot H i (some root)) r = held p H r := by
  obtain ⟨hp, hu, hlo, hun, hfree⟩ := placed_alloc (i := i) ho ha Page.zero
  obtain ⟨-, -, -, hcount, -⟩ := pmmAllocPage_some ha
  have hz : (p1.setPage root Page.zero).mem root = Page.zero := mem_setPage_self ..
  refine ⟨hp.owned.addRoot hi hun hu hlo hz, hfree, hz, hcount,
    fun f hf => ⟨hp.grows.inUse f hf, ?_⟩,
    fun r hr => ?_⟩
  · refine hp.grows.mem f hf fun path _ => ?_
    rw [held_node, hi, tableAt_none]
    simp
  · rw [← hp.grows.others r hr]
    cases r with
    | extra j => rfl
    | node j path =>
      rw [held_node, held_node, withRoot_of_ne]
      · rfl
      · rintro rfl
        exact hr path rfl

theorem kernelTree (ho : Owned lo H p) (hi : H.root i = none)
    (ha : pmmAllocPage p = (some root, p1)) :
    Meets (vmmMapKernel L root (p1.zeroPage root)) (69 ≤ freeFrames p)
      (KernelTree L lo H i root p) := by
  obtain ⟨h1, hfree, hz, hcount, hold, hothers⟩ := freshRoot ho hi ha
  have hr : (withRoot H i (some root)).root i = some root := withRoot_self H i _
  have hempty := tableSet_zero hr hz
  have hmeets := vmmMapKernel_meets (L := L) h1 hr
  rw [hempty, Finset.empty_union, Finset.card_empty, kernelTables_card] at hmeets
  refine hmeets.mono (by omega) fun p2 h2 => ?_
  have htables := h2.grows.tables
  have hcount2 := h2.grows.count
  rw [hempty, Finset.empty_union] at htables
  rw [htables, hempty, kernelTables_card, Finset.card_empty] at hcount2
  have hroot : ∀ path f,
    held (p1.zeroPage root) (withRoot H i (some root)) (.node i path) = some f →
      f = root := by
    intro path f hf
    rw [held_zero hr hz] at hf
    split_ifs at hf
    exact (Option.some.inj hf).symm
  refine ⟨h2.owned, fun f hf => h2.grows.inUse f (hold f hf).1, fun f hf => ?_, fun r hr' => ?_,
    fun path f hp hf hu => ?_, fun q => ?_, htables, by omega⟩
  · rw [h2.grows.mem f (hold f hf).1, (hold f hf).2]
    intro path _ hpath
    rw [hroot path f hpath] at hf
    exact hfree hf
  · rw [h2.grows.others r hr', hothers r hr']
  · rcases h2.grows.fresh path f hp hf with hzero | hnot
    · rw [hroot path f hzero] at hu
      exact hfree hu
    · exact hnot (hold f hu).1
  · have := h2.entries q
    rwa [hr, entry_zero hz] at this

/-- Pages above the kernel image are mapped to themselves for reading and writing. -/
theorem kernelEntry_free {n : ℕ} (hn : L.protectedEnd ≤ n) (hlast : n < ramLast) {q : PageNo}
    (hq : q.number = n) : kernelEntry L q = some (identity n (pteR ||| pteW)) := by
  have h1 := L.text_le
  have h2 := L.rodata_le
  have h3 := L.data_le
  simp only [Layout.protectedEnd] at hn
  have hpage : KernelPage n := Or.inr (Or.inr ⟨by omega, hlast⟩)
  rw [kernelEntry, kernelFlags, hq, if_neg (by omega), if_neg (by omega), if_pos hpage]
  rfl

theorem kernelFlags_some {n : ℕ} {flags : Word} (h : kernelFlags L n = some flags) :
    KernelFlags flags ∧ KernelPage n := by
  have h1 := L.rodata_le
  have h2 := L.data_le
  have h3 := L.end_lt
  have h4 := L.text_le
  unfold kernelFlags at h
  split_ifs at h with ht hro hk
  · cases h
    exact ⟨kernelFlags_rx, Or.inr (Or.inr (by omega))⟩
  · cases h
    exact ⟨kernelFlags_r, Or.inr (Or.inr (by omega))⟩
  · cases h
    exact ⟨kernelFlags_rw, hk⟩

theorem decode_kernelEntry (q : PageNo) : decodePte 2 ((kernelEntry L q).getD 0) = none := by
  cases hk : kernelEntry L q with
  | none => exact decodePte_zero 2
  | some w =>
    obtain ⟨flags, hf, rfl⟩ := Option.map_eq_some_iff.mp hk
    exact decode_identity (kernelFlags_some hf).1

/-- The stack of a new process is mapped where it already was. -/
structure KernelStack (L : Layout) (H : Forest ι) (i : ι) (root stack : ℕ) (p p' : Phys) :
    Prop where
  owned : Owned L.protectedEnd (withExtra (withRoot H i (some root)) i (some stack)) p'
  inUse : ∀ f, InUse p f → InUse p' f
  mem : ∀ f, InUse p f → p'.mem f = p.mem f
  held : ∀ r, (∀ path, r ≠ .node i path) → held p' (withRoot H i (some root)) r = held p H r
  fresh : ¬ InUse p stack ∧ ∀ path f, path.length ≤ 2 →
    Lazux.held p' (withRoot H i (some root)) (.node i path) = some f → ¬ InUse p f
  entries : ∀ q, entry p'.mem (some root) q = (kernelEntry L q).getD 0
  tables : tableSet p' (withRoot H i (some root)) i = kernelTables
  count : freeFrames p' + 70 = freeFrames p

theorem kernelStack {stack : ℕ} {p3 : Phys}
    (ht : KernelTree L L.protectedEnd H i root p p2) (ha : pmmAllocPage p2 = (some stack, p3)) :
    KernelStack L H i root stack p
      (mapPage (p3.zeroPage stack) root (pageAddr stack) (pageAddr stack) (pteR ||| pteW)).2 := by
  have hr : (withRoot H i (some root)).root i = some root := withRoot_self H i _
  obtain ⟨hp, hu, hlo, hun, hfree⟩ := placed_alloc (i := i) ht.owned ha Page.zero
  have hlast : stack < ramLast := hu.1.2
  have hnum : (pageNo (pageAddr stack)).number = stack :=
    number_pageAddr (by simp only [ramLast] at hlast; omega)
  have hentry := kernelEntry_free hlo hlast hnum
  have hkernel : KernelPage stack := by
    have h1 := L.text_le
    have h2 := L.rodata_le
    have h3 := L.data_le
    simp only [Layout.protectedEnd] at hlo
    exact Or.inr (Or.inr ⟨by omega, hlast⟩)
  -- the tables are there, so the mapping cannot fail
  have hsub : (pageNo (pageAddr stack)).tables ⊆ tableSet (p3.setPage stack Page.zero)
      (withRoot H i (some root)) i := by
    rw [hp.grows.tables, Finset.union_empty, ht.tables]
    intro path hpath
    exact mem_kernelTables.mpr ⟨_, by rwa [hnum], mem_tables.mp hpath⟩
  obtain ⟨ok, p4, hm⟩ : ∃ ok p4, mapPage (p3.zeroPage stack) root (pageAddr stack) (pageAddr stack)
      (pteR ||| pteW) = (ok, p4) := ⟨_, _, rfl⟩
  have hok : ok = true := by
    have := (@mapPage_fst _ (withRoot H i (some root)) (p3.setPage stack Page.zero) _ i _ root
      (pageAddr stack) (pageAddr stack) (pteR ||| pteW) hp.owned hr).mpr (by
        rw [Finset.union_eq_left.mpr hsub]
        exact Nat.le_add_left _ _)
    rw [show (p3.setPage stack Page.zero) = p3.zeroPage stack from rfl, hm] at this
    exact this
  subst hok
  have hw : LeafWord (pageNo (pageAddr stack)) (identity stack (pteR ||| pteW)) := by
    have := leafWord_identity (q := pageNo (pageAddr stack)) kernelFlags_rw (by rwa [hnum])
    rwa [hnum] at this
  have hd : decodePte 2 (identity stack (pteR ||| pteW)) = none := decode_identity kernelFlags_rw
  have hmap := mapPage_true hp.owned hr hw (fun m hm' => by
    have hm' : decodePte 2 (identity stack (pteR ||| pteW)) = some m := hm'
    rw [hd] at hm'
    cases hm') hm
  have hall := hp.trans hmap
  rw [hm]
  have hent : ∀ q, entry p4.mem (some root) q = (kernelEntry L q).getD 0 := by
    intro q
    have := hall.entries q
    rw [hr, ht.entries] at this
    rw [this]
    by_cases hq : q = pageNo (pageAddr stack)
    · rw [if_pos hq, hq, hentry]
      rfl
    · rw [if_neg hq, Option.none_or, Option.getD_none]
  have hunheld : Unheld p4 (withRoot H i (some root)) stack :=
    hmap.grows.unheld hp.owned hun hu fun q hq => by
      rw [hr, hent] at hq
      rw [decode_kernelEntry] at hq
      cases hq
  have hcount := hall.grows.count
  have htab := hall.grows.tables
  rw [Finset.empty_union, Finset.union_eq_left.mpr
    (by rw [hp.grows.tables, Finset.union_empty] at hsub; exact hsub)] at htab
  refine ⟨hall.owned.addExtra i hunheld (hmap.grows.inUse stack hu) hlo,
    fun f hf => hall.grows.inUse f (ht.inUse f hf), fun f hf => ?_,
    fun r hr' => (hall.grows.others r hr').trans (ht.others r hr'),
    ⟨fun hs => hfree (ht.inUse stack hs),
      fun path f hpath hf hu' => ?_⟩, hent, htab.trans ht.tables, ?_⟩
  · rw [hall.grows.mem f (ht.inUse f hf), ht.mem f hf]
    exact fun path hpath hf' => ht.fresh path f hpath hf' hf
  · rcases hall.grows.fresh path f hpath hf with hold | hnew
    · exact ht.fresh path f hpath hold hu'
    · exact hnew (ht.inUse f hu')
  · have := ht.count
    rw [htab] at hcount
    show freeFrames p4 + 70 = freeFrames p
    omega

end KernelTree

section Processes

variable {L : Layout} {st st' mid : KState} {i child : Slot}

theorem trees_modifyProc (st : KState) (i : Slot) (f : Process → Process) :
    trees (st.modifyProc i f) = withExtra (withRoot (trees st) i
      (if (f (st.processTable i)).state = .unused then none
        else (f (st.processTable i)).pageTable)) i
      (if (f (st.processTable i)).state = .unused then none
        else (f (st.processTable i)).kernelStack) := by
  simp only [trees, withExtra, withRoot, Forest.mk.injEq]
  constructor
  · funext j
    by_cases hj : j = i
    · subst j
      simp
    · rw [modifyProc_of_ne _ hj, Function.update_of_ne hj]
  · funext j
    by_cases hj : j = i
    · subst j
      simp
    · rw [modifyProc_of_ne _ hj, Function.update_of_ne hj]

theorem withRoot_none {H : Forest Slot} (h : H.root i = none) : withRoot H i none = H := by
  rw [withRoot, ← h, Function.update_eq_self]

theorem withExtra_none {H : Forest Slot} (h : H.extra i = none) : withExtra H i none = H := by
  rw [withExtra, ← h, Function.update_eq_self]

theorem trees_unused (hu : (st.processTable i).state = .unused) :
    (trees st).root i = none ∧ (trees st).extra i = none := by
  simp [trees, hu]

theorem trees_still_unused (hu : (st.processTable i).state = .unused) {f : Process → Process}
    (hf : (f (st.processTable i)).state = .unused) : trees (st.modifyProc i f) = trees st := by
  obtain ⟨hr, he⟩ := trees_unused hu
  rw [trees_modifyProc, if_pos hf, if_pos hf, withRoot_none hr, withExtra_none he]

theorem Sound.modifyProc (h : Sound L st) {f : Process → Process}
    (ho : Owned L.protectedEnd (trees (st.modifyProc i f)) st.phys)
    (ht : (f (st.processTable i)).state ≠ .unused → (f (st.processTable i)).pageTable ≠ none)
    (hh : (f (st.processTable i)).heapMax.toNat ≤ 0x3FFFE000) : Sound L (st.modifyProc i f) := by
  refine ⟨ho, fun j hj => ?_, fun j => ?_⟩
  · by_cases he : j = i
    · subst j
      rw [modifyProc_self] at hj ⊢
      exact ht hj
    · rw [modifyProc_of_ne _ he] at hj ⊢
      exact h.table j hj
  · by_cases he : j = i
    · subst j
      rw [modifyProc_self]
      exact hh
    · rw [modifyProc_of_ne _ he]
      exact h.heap j

theorem Sound.withPhys (h : Sound L st) (hp : st'.processTable = st.processTable)
    (ho : Owned L.protectedEnd (trees st) st'.phys) : Sound L st' := by
  have ht : trees st' = trees st := by rw [trees, trees, hp]
  refine ⟨?_, ?_, ?_⟩
  · rwa [ht]
  · rw [hp]
    exact h.table
  · rw [hp]
    exact h.heap

/-- A created process has a kernel table and a stack of its own. -/
structure Spawned (L : Layout) (st : KState) (child : Slot) (root stack : ℕ) (mid : KState) :
    Prop where
  memory : KernelStack L (trees st) child root stack st.phys mid.phys
  trees_eq : trees mid = withExtra (withRoot (trees st) child (some root)) child (some stack)
  process : mid.processTable child = { st.processTable child with
    pid := BitVec.ofNat 32 st.nextPid, openFiles := initProcessFds, state := .ready
    pageTable := some root, kernelStack := some stack
    trapFrame := { TrapFrame.zero with kernelSp := pageAddr stack + 4096 } }

theorem AllocProc.spawned (hs : Sound L st) (h : AllocProc L st (some child) mid) :
    ∃ root stack, Spawned L st child root stack mid := by
  cases h with
  | created i hu root stack p1 p2 p3 ha hk hst =>
    obtain ⟨hr, he⟩ := trees_unused hu
    have htree := (kernelTree (L := L) hs.owned hr ha).ensures p2 hk
    refine ⟨root, stack, kernelStack htree hst, ?_, modifyProc_self ..⟩
    rw [trees_modifyProc, if_neg (by simp), if_neg (by simp)]
    rfl

theorem Spawned.sound (hs : Sound L st) {root stack : ℕ}
    (ha : AllocProc L st (some child) mid) (h : Spawned L st child root stack mid) :
    Sound L mid := by
  obtain ⟨-, -, hother⟩ := ha.of_some
  refine ⟨?_, fun j hj => ?_, fun j => ?_⟩
  · rw [h.trees_eq]
    exact h.memory.owned
  · by_cases he : j = child
    · subst j
      simp [h.process]
    · rw [hother j he] at hj ⊢
      exact hs.table j hj
  · by_cases he : j = child
    · subst j
      rw [h.process]
      exact hs.heap child
    · rw [hother j he]
      exact hs.heap j

/-- `alloc_proc` keeps the address spaces sound however it ends. -/
theorem sound_allocProc {r : Option Slot} (hs : Sound L st) (h : AllocProc L st r mid) :
    Sound L mid := by
  cases h with
  | full hu => exact hs.withPhys rfl hs.owned
  | noRoot i hu ha =>
    have hs' : Sound L { st with nextPid := st.nextPid + 1 } := hs.withPhys rfl hs.owned
    refine hs'.modifyProc ?_ (fun hc => absurd rfl hc) (hs.heap i)
    rw [trees_still_unused (i := i) (by exact hu) rfl]
    exact hs.owned
  | noStack i hu root p1 p2 ha hk hst =>
    obtain ⟨hr, he⟩ := trees_unused hu
    have htree := (kernelTree (L := L) hs.owned hr ha).ensures p2 hk
    have hold : Owned L.protectedEnd (trees st) p2 := by
      have := htree.owned.dropRoot i
      rwa [show withRoot (withRoot (trees st) i (some root)) i none = trees st by
        rw [← withRoot_none hr]
        simp only [withRoot, Function.update_idem]] at this
    have hs' : Sound L { st with nextPid := st.nextPid + 1, phys := p2 } := hs.withPhys rfl hold
    refine hs'.modifyProc ?_ (fun hc => absurd rfl hc) (hs.heap i)
    rw [trees_still_unused (i := i) (by exact hu) rfl]
    exact hold
  | created i hu root stack p1 p2 p3 ha hk hst =>
    have hc := AllocProc.created i hu root stack p1 p2 p3 ha hk hst
    obtain ⟨root', stack', hsp⟩ := hc.spawned hs
    exact hsp.sound hs hc

end Processes

end Lazux
