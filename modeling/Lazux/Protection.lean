import Lazux.Fork

/-! # What may be written and executed

Every entry of every page table is one of the kernel's own or maps a page of a program, which
is never writable and executable at once. -/
namespace Lazux

open PagedMemory RadixForest Run Trace

variable {L : Layout} {ram : Memory} {st st' mid : KState} {ls : List Label} {tf i j : Slot}
  {q : PageNo} {w : Word} {root : ℕ}

section Entries

def WX (w : Word) : Prop := hasFlag w pteW ∧ hasFlag w pteX

/-- A valid entry is the kernel's for its page, or a user page that is not `WX`. -/
def Guarded (L : Layout) (q : PageNo) (w : Word) : Prop :=
  hasFlag w pteV → kernelEntry L q = some w ∨ hasFlag w pteU ∧ ¬ WX w

/-- What the kernel writes into the entry of a page, besides what a process had there. -/
inductive Written (L : Layout) (st : KState) (q : PageNo) : Word → Prop
  | gone : Written L st q 0
  | kernel : Written L st q ((kernelEntry L q).getD 0)
  | copied (n : ℕ) (hu : UserLeaf (entryOf st st.currentProc q)) :
      Written L st q (copiedWord n (entryOf st st.currentProc q))
  | data (n : ℕ) : Written L st q (userWord n (pteU ||| pteR ||| pteW))
  | segment (n : ℕ) (ph : Phdr) : Written L st q (userWord n (segmentFlags ph))

theorem Grow.entry_cases {increment : Word} {ok : Bool} {phys : Phys} (hs : Sound L st)
    (hst : Steady tf st) (h : Grow st increment ok phys) (q : PageNo) :
    entryOf (grown st increment ok phys) st.currentProc q = entryOf st st.currentProc q ∨
      (∃ a ∈ pageSteps (pageCeil st.current.heapBreak)
        (pageCeil (st.current.heapBreak + increment)), q = pageNo a) ∧
      (entryOf (grown st increment ok phys) st.currentProc q = 0 ∨
        ∃ n, entryOf (grown st increment ok phys) st.currentProc q =
          userWord n (pteU ||| pteR ||| pteW)) := by
  have hcases := (h.result hs hst).entry_cases q
  have htrees : trees (grown st increment ok phys) = trees st := by
    cases ok with
    | false => rfl
    | true =>
      rw [grown, if_pos rfl]
      exact (benign_modifyProc { st with phys := phys } st.currentProc (f := fun p =>
        { p with heapBreak := st.current.heapBreak + increment }) Iff.rfl rfl rfl rfl).trees_eq
  have hphys : (grown st increment ok phys).phys = phys := by
    cases ok with
    | false => rfl
    | true => rfl
  rw [entryOf, htrees, hphys]
  exact hcases

theorem written_loaded {elf : Addr → Except Stop Byte} {phoff phnum start : ℕ}
    {pl : List Placement} {maxEnd : Addr} (hplan : Plan elf phoff phnum start pl maxEnd)
    (h : w = (kernelEntry L q).getD 0 ∨ ∃ n flags, w = userWord n flags ∧
      (q = pageNo userStackBase ∧ flags = pteU ||| pteR ||| pteW ∨
        ∃ y ∈ pl, y.page = q ∧ y.flags = flags)) : Written L st q w := by
  rcases h with rfl | ⟨n, flags, rfl, ⟨-, rfl⟩ | ⟨y, hy, -, rfl⟩⟩
  · exact .kernel
  · exact .data n
  · obtain ⟨a, -, ph, -, c, -, -, hflags⟩ := (planSegments_pages hplan.segments).1 y hy
    rw [hflags]
    exact .segment n ph

/-- A refused creation changes no entry. -/
theorem AllocProc.entry_refused (hs : Sound L st) (h : AllocProc L st none mid) (j : Slot)
    (q : PageNo) :
    entryOf mid j q = entryOf st j q := by
  by_cases hu : (st.processTable j).state = .unused
  · -- a free slot has no entries, before and after
    rw [entryOf, entryOf, trees_allocProc_none h, (trees_unused hu).1, entry_none, entry_none]
  · rcases within_allocProc_none hs h with hw | ⟨i, hi, hw⟩
    · have hsame := hw (j + 1)
      exact hsame.entry_other hs.owned (by simp) q
    · apply hw.entry_other hs.owned
      rintro rfl
      exact hu hi

theorem Act.written (h : Act L st ls st') (hs : Sound L st) (j : Slot) (q : PageNo) :
    entryOf st' j q = entryOf st j q ∨ Written L st q (entryOf st' j q) := by
  have benign : Benign st st' → entryOf st' j q = entryOf st j q ∨
      Written L st q (entryOf st' j q) := by
    intro hb
    left
    rw [entryOf, hb.trees_eq]
    exact hb.phys.entry_eq j q
  cases h with
  | console c => exact Or.inl rfl
  | status w => exact Or.inl rfl
  | regs hst f hf => exact benign (benign_setFrame st _ f)
  | file hst fd f => exact benign (benign_setFile st fd f)
  | take hst b u h => exact Or.inl rfl
  | store hst q' pa b h => exact benign (benign_phys (.setByte hs.owned h (leaf_ne_table _ q') b))
  | receive b => exact benign (benign_uartByte st b)
  | grow hst increment ok phys h =>
    by_cases hj : j = st.currentProc
    · subst hj
      rcases h.entry_cases hs hst q with hold | ⟨-, hgone | ⟨n, hdata⟩⟩
      · exact Or.inl hold
      · rw [hgone]
        exact Or.inr .gone
      · rw [hdata]
        exact Or.inr (.data n)
    · exact Or.inl ((within_grown hs hst h).entry_other hs.owned hj q)
  | forkFailed hst mid h => exact Or.inl (h.entry_refused hs j q)
  | fork hst child mid phys ha hne hc =>
    by_cases hj : j = child
    · subst hj
      rcases child_entry hs hst ha hne hc q with ⟨-, hu, n, -, he, -⟩ | ⟨-, he⟩
      · rw [he]
        exact Or.inr (.copied n hu)
      · rw [he]
        exact Or.inr .kernel
    · exact Or.inl ((within_forked hs hst ha hne hc).entry_other hs.owned hj q)
  | exec hst st' h =>
    rcases h.answers hs with ⟨w, rfl⟩ | ⟨newPt, start, pl, maxEnd, elf, phoff, phnum, hrep,
      hplan, -⟩
    · exact benign (benign_setA0 st _ w)
    · by_cases hj : j = st.currentProc
      · subst hj
        exact Or.inr (written_loaded hplan (hrep.entry_cases hst q))
      · exact Or.inl ((hrep.within hs hst).entry_other hs.owned hj q)
  | reap hst i hz hp =>
    have hu : (st.processTable i).state ≠ .unused := by rw [hz]; decide
    by_cases hj : j = i
    · subst hj
      obtain ⟨-, -, htrees⟩ := freeProc_released hs hu
      rw [entryOf, htrees, withExtra_root, withRoot_self, entry_none]
      exact Or.inr .gone
    · exact Or.inl ((within_freeProc hs hu).entry_other hs.owned hj q)
  | sleep hst ch hp => exact benign (benign_sleeping hst ch)
  | exit hst => exact benign (benign_exiting hst)
  | yield hst => exact benign (benign_state st _ hst.used (by simp) rfl rfl rfl)

theorem wx_congr {w w' : Word} (h2 : w.getLsbD 2 = w'.getLsbD 2) (h3 : w.getLsbD 3 = w'.getLsbD 3) :
    WX w ↔ WX w' := by
  rw [WX, WX, hasFlag_pteW, hasFlag_pteW, hasFlag_pteX, hasFlag_pteX, h2, h3]

theorem wx_userWord (n : ℕ) (flags : Word) : WX (userWord n flags) ↔ WX (flags ||| pteV) :=
  wx_congr (getLsbD_userWord (by norm_num)) (getLsbD_userWord (by norm_num))

/-- The loader drops the right to execute from a writable segment. -/
theorem not_wx_segmentFlags (ph : Phdr) : ¬ WX (segmentFlags ph ||| pteV) := by
  unfold segmentFlags
  generalize hasFlag ph.pFlags pfR = r
  generalize hasFlag ph.pFlags pfW = w
  generalize hasFlag ph.pFlags pfX = x
  unfold WX
  cases r <;> cases w <;> cases x <;> decide

theorem guarded_zero : Guarded L q 0 := by
  intro hv
  exact absurd hv (by decide)

theorem guarded_kernel : Guarded L q ((kernelEntry L q).getD 0) := by
  cases hk : kernelEntry L q with
  | none => exact guarded_zero
  | some w => exact fun _ => Or.inl hk

theorem guarded_userWord {n : ℕ} {flags : Word} (hf : UserFlags flags)
    (hwx : ¬ WX (flags ||| pteV)) : Guarded L q (userWord n flags) :=
  fun _ => Or.inr ⟨userWord_user hf, fun h => hwx ((wx_userWord n flags).mp h)⟩

theorem Guarded.copied {n : ℕ} (h : Guarded L q w) (hu : UserLeaf w) :
    Guarded L q (copiedWord n w) := by
  intro _
  rcases h hu.1 with hk | ⟨-, hwx⟩
  · have := userLeaf_kernelEntry (L := L) q
    rw [hk] at this
    exact absurd hu this
  · refine Or.inr ⟨(userLeaf_copiedWord.mpr hu).2.2, fun h => hwx ?_⟩
    exact (wx_congr (getLsbD_copiedWord (by norm_num)) (getLsbD_copiedWord (by norm_num))).mp h

theorem Written.guarded (h : Written L st q w) (hg : Guarded L q (entryOf st st.currentProc q)) :
    Guarded L q w := by
  cases h with
  | gone => exact guarded_zero
  | kernel => exact guarded_kernel
  | copied n hu => exact hg.copied hu
  | data n => exact guarded_userWord userFlags_heap (by unfold WX; decide)
  | segment n ph => exact guarded_userWord (segmentFlags_user ph) (not_wx_segmentFlags ph)

theorem Alike.entry_eq (h : Alike st st') (j : Slot) (q : PageNo) :
    entryOf st' j q = entryOf st j q := by
  rw [entryOf, h.trees_eq, h.phys]

theorem Act.guarded (h : Act L st ls st') (hs : Sound L st)
    (hg : ∀ j q, Guarded L q (entryOf st j q)) (j : Slot) (q : PageNo) :
    Guarded L q (entryOf st' j q) := by
  rcases h.written hs j q with hold | hnew
  · rw [hold]
    exact hg j q
  · exact hnew.guarded (hg _ q)

theorem booted_guarded (h : kmain L ram = .ok st) (j : Slot) (q : PageNo) :
    Guarded L q (entryOf st j q) := by
  by_cases hj : j = st.currentProc
  · subst hj
    obtain ⟨elf, phoff, phnum, start, pl, maxEnd, hplan, hinst, -⟩ := installed h
    -- before the first process there was nothing to copy
    have hw : Written L (early L ram) q (entryOf st st.currentProc q) :=
      written_loaded hplan (hinst.entry_cases q)
    exact hw.guarded guarded_zero
  · have hc : (coord st).state j = .unused := by
      rw [(booted h).2]
      exact if_neg hj
    rw [entryOf, (trees_unused hc).1, entry_none]
    exact guarded_zero

theorem reachable_guarded (h : Reachable L ram st) (j : Slot) (q : PageNo) :
    Guarded L q (entryOf st j q) := by
  have hkeeps := h.keeps (P := fun s => ∀ j q, Guarded L q (entryOf s j q))
    (fun s hb => booted_guarded hb) (fun s s' ls hs ha hg => ha.guarded hs hg)
    fun s s' ha hg j q => by
      rw [ha.entry_eq]
      exact hg j q
  exact hkeeps j q

end Entries

section Strays

def lone (root : ℕ) : Forest Unit := ⟨fun _ => some root, fun _ => none⟩

/-- A page table of the kernel's own that no process has: the one of boot, or one that is left
of a process that could not be created. -/
structure Stray (L : Layout) (st : KState) (root : ℕ) : Prop where
  owned : Owned L.protectedEnd (lone root) st.phys
  entries : ∀ q, entry st.phys.mem (some root) q = (kernelEntry L q).getD 0
  unheld : ∀ path f, path.length ≤ 2 → tableAt st.phys.mem (some root) path = some f →
    Unheld st.phys (trees st) f

theorem Stray.table_of_held (h : Stray L st root) {r : Role Unit (Fin 512)} {f : ℕ}
    (hf : held st.phys (lone root) r = some f) :
    ∃ path, path.length ≤ 2 ∧ tableAt st.phys.mem (some root) path = some f := by
  have hapart : ¬ Apart st.phys (lone root) () f := fun ha => ha r rfl hf
  rw [apart_iff] at hapart
  by_contra hnone
  apply hapart
  refine ⟨Option.some_ne_none f ∘ Eq.symm, fun path hp hpath => hnone ⟨path, hp, hpath⟩,
    fun q hq => ?_⟩
  rw [held_leaf] at hq
  have hentry : entry st.phys.mem ((lone root).root ()) q = (kernelEntry L q).getD 0 := h.entries q
  rw [hentry] at hq
  exact userLeaf_kernelEntry q (userLeaf_iff.mpr (by rw [hq]; exact Option.some_ne_none f))

theorem Stray.within (h : Stray L st root) (hs' : Sound L st') (hw : Within i st st') :
    Stray L st' root := by
  have hkept : ∀ path f, path.length ≤ 2 → tableAt st.phys.mem (some root) path = some f →
      InUse st'.phys f ∧ st'.phys.mem f = st.phys.mem f ∧ Unheld st'.phys (trees st') f := by
    intro path f hp hf
    have hu := (h.owned.inUse (.node () path) f hf).1
    exact hw.unheld hu (h.unheld path f hp hf)
  have hmem : ∀ f, ¬ NotTable st.phys (lone root) f → st'.phys.mem f = st.phys.mem f := by
    intro f hf
    obtain ⟨path, hp, hpath⟩ : ∃ path : List (Fin 512), path.length ≤ 2 ∧
        tableAt st.phys.mem (some root) path = some f := by
      by_contra hnone
      exact hf fun _ path hp hpath => hnone ⟨path, hp, hpath⟩
    exact (hkept path f hp hpath).2.1
  constructor
  · apply h.owned.of_tables hmem
    · intro r f hf
      obtain ⟨path, hp, hpath⟩ := h.table_of_held hf
      exact (hkept path f hp hpath).1
    · exact hs'.owned.guard
  · intro q
    rw [← h.entries q]
    exact entry_congr hmem () q
  · intro path f hp hf
    have hheld := congrFun (held_congr hmem) (.node () path)
    exact (hkept path f hp (hheld.symm.trans hf)).2.2

theorem Alike.stray (ha : Alike st st') (h : Stray L st root) : Stray L st' root := by
  obtain ⟨ho, he, hu⟩ := h
  constructor
  · rw [ha.phys]
    exact ho
  · rw [ha.phys]
    exact he
  · rw [ha.phys, ha.trees_eq]
    exact hu

theorem KernelTree.stray {p : Phys} (h : KernelTree L L.protectedEnd (trees st) i root p st.phys)
    (hr : (trees st).root i = none) : Stray L st root := by
  constructor
  · refine h.owned.reindex (fun _ => i) (fun _ => i) (fun _ f hf => ?_) (fun _ f hf => by cases hf)
      (fun _ _ _ _ _ => rfl) fun _ _ _ _ _ => rfl
    rw [withRoot_self]
    exact hf
  · exact h.entries
  · intro path f hp hf r hr'
    have hnode : held st.phys (withRoot (trees st) i (some root)) (.node i path) = some f := by
      rw [held_node, withRoot_self]
      exact hf
    have hne : ∀ path', r ≠ .node i path' := by
      rintro path' rfl
      rw [held_node, hr, tableAt_none] at hr'
      cases hr'
    have hother := h.owned.distinct _ _ f hnode ((held_withRoot hne).trans hr')
    exact hne path hother.symm

/-- A free slot was free before with the same table, or its table is nobody's. -/
def FreeSlot (L : Layout) (i : Slot) (st st' : KState) : Prop :=
  ((st.processTable i).state = .unused ∧
    (st'.processTable i).pageTable = (st.processTable i).pageTable) ∨
  ∀ root, (st'.processTable i).pageTable = some root → Stray L st' root

theorem freeSlot_same (hu : (st'.processTable i).state = .unused)
    (hsame : st'.processTable i = st.processTable i) : FreeSlot L i st st' := by
  rw [hsame] at hu
  exact Or.inl ⟨hu, by rw [hsame]⟩

theorem freeSlot_other {c : Slot} (hu : (st'.processTable i).state = .unused)
    (hc : (st'.processTable c).state ≠ .unused)
    (hother : ∀ j, j ≠ c → st'.processTable j = st.processTable j) : FreeSlot L i st st' := by
  refine freeSlot_same hu (hother i ?_)
  rintro rfl
  exact hc hu

theorem freeSlot_benign (hu : (st'.processTable i).state = .unused) (hst : Steady tf st)
    (hb : Benign st st')
    (hother : ∀ j, j ≠ st.currentProc → st'.processTable j = st.processTable j) :
    FreeSlot L i st st' :=
  freeSlot_other hu ((hb.used _).not.mpr hst.used) hother

theorem freeSlot_failed (h : AllocProc L st none st') (hs : Sound L st)
    (hu : (st'.processTable i).state = .unused) : FreeSlot L i st st' := by
  cases h with
  | full hfull => exact Or.inl ⟨hu, rfl⟩
  | noRoot k hk ha =>
    by_cases hi : i = k
    · subst hi
      right
      intro root hroot
      rw [modifyProc_self] at hroot
      cases hroot
    · exact freeSlot_same hu (modifyProc_of_ne _ hi _)
  | noStack k hk root p1 p2 ha hm hb =>
    by_cases hi : i = k
    · subst hi
      right
      intro root' hroot
      rw [modifyProc_self] at hroot
      cases hroot
      have hnone := (trees_unused hk).1
      have htree := (kernelTree (L := L) hs.owned hnone ha).ensures p2 hm
      have htrees := trees_allocProc_none (L := L) (.noStack i hk root p1 p2 ha hm hb)
      rw [← htrees] at htree hnone
      exact htree.stray hnone
    · exact freeSlot_same hu (modifyProc_of_ne _ hi _)

/-- A slot that is free after an action was free and is unchanged, or has just been given up. -/
theorem Act.free_slot (h : Act L st ls st') (hs : Sound L st)
    (hu : (st'.processTable i).state = .unused) : FreeSlot L i st st' := by
  cases h with
  | console c => exact Or.inl ⟨hu, rfl⟩
  | status w => exact Or.inl ⟨hu, rfl⟩
  | regs hst f hf =>
    exact freeSlot_benign hu hst (benign_setFrame st _ f) fun j hj => modifyProc_of_ne _ hj _
  | file hst fd f =>
    exact freeSlot_benign hu hst (benign_setFile st fd f) fun j hj => modifyProc_of_ne _ hj _
  | take hst b u h => exact Or.inl ⟨hu, rfl⟩
  | store hst q pa b h => exact Or.inl ⟨hu, rfl⟩
  | receive b =>
    obtain ⟨s, c, hp⟩ := (onlyWakes_uartByte st b).process i
    refine Or.inl ⟨((benign_uartByte st b).used i).mp hu, ?_⟩
    rw [hp]
  | grow hst increment ok phys h =>
    cases ok with
    | false => exact Or.inl ⟨hu, rfl⟩
    | true =>
      rw [grown, if_pos rfl] at hu ⊢
      refine freeSlot_other hu (c := st.currentProc) ?_ fun j hj => modifyProc_of_ne _ hj _
      rw [modifyProc_self]
      exact hst.used
  | forkFailed hst mid h => exact freeSlot_failed h hs hu
  | fork hst child mid phys ha hne hc =>
    obtain ⟨hfree, hcur, hother⟩ := ha.of_some
    have hi : i ≠ child := by
      rintro rfl
      rw [forked, modifyProc_self] at hu
      cases hu
    have hrecord : (forked st mid child phys).processTable i =
        (({ mid with phys := phys } : KState).setA0 st.currentProc
          ((mid.processTable child).pid.signExtend 64)).processTable i := modifyProc_of_ne _ hi _
    by_cases hic : i = st.currentProc
    · subst hic
      rw [hrecord, KState.setA0, KState.setFrame, modifyProc_self] at hu
      have hmid : (mid.processTable st.currentProc).state = .unused := hu
      rw [hother _ hi] at hmid
      exact absurd hmid hst.used
    · rw [setA0_of_ne _ hic] at hrecord
      exact freeSlot_same hu (hrecord.trans (hother i hi))
  | exec hst st' h =>
    rcases h.answers hs with ⟨w, rfl⟩ | ⟨newPt, start, pl, maxEnd, elf, phoff, phnum, hrep, -⟩
    · exact freeSlot_benign hu hst (benign_setA0 st _ w) fun j hj => setA0_of_ne st hj w
    · refine freeSlot_other hu (c := st.currentProc) ?_ hrep.other
      rw [hrep.process]
      exact hst.used
  | reap hst k hz hp =>
    by_cases hi : i = k
    · subst hi
      right
      intro root hroot
      rw [freeProc, if_neg (by rw [hz]; decide), modifyProc_self] at hroot
      cases hroot
    · exact freeSlot_same hu (freeProc_of_ne hi)
  | sleep hst ch hp =>
    refine freeSlot_benign hu hst (benign_sleeping hst ch) fun j hj => ?_
    rw [sleeping, KState.setFrame, modifyProc_of_ne _ hj]
    exact modifyProc_of_ne _ hj _
  | exit hst =>
    have hfree := ((benign_exiting hst).used i).mp hu
    have hi : i ≠ st.currentProc := by
      rintro rfl
      exact hst.used hfree
    have hsame : (st.modifyProc st.currentProc fun p =>
        { p with state := .zombie }).processTable i = st.processTable i := modifyProc_of_ne _ hi _
    refine Or.inl ⟨hfree, ?_⟩
    rw [← hsame]
    unfold exiting
    dsimp only
    split
    · obtain ⟨s, c, hp⟩ := (onlyWakes_wakeup (st.modifyProc st.currentProc fun p =>
        { p with state := .zombie }) (.pcb _)).process i
      rw [hp]
    · rfl
  | yield hst =>
    exact freeSlot_benign hu hst (benign_state st _ hst.used (by simp) rfl rfl rfl) fun j hj =>
      modifyProc_of_ne _ hj _

/-- The tables that no process has, those the free slots still name and that of boot. -/
def Spared (L : Layout) (ram : Memory) (st : KState) (root : ℕ) : Prop :=
  (∃ i, (st.processTable i).state = .unused ∧ (st.processTable i).pageTable = some root) ∨
    (pmmAllocPage (initPmm L ram)).1 = some root

theorem Act.strays (h : Act L st ls st') (hs : Sound L st)
    (hp : ∀ root, Spared L ram st root → Stray L st root) (root : ℕ)
    (hr : Spared L ram st' root) : Stray L st' root := by
  obtain ⟨k, -, hw⟩ := h.within hs
  have hs' := h.sound hs
  rcases hr with ⟨i, hu, hroot⟩ | hboot
  · rcases h.free_slot hs hu with ⟨hfree, hsame⟩ | hnew
    · exact (hp root (Or.inl ⟨i, hfree, hsame.symm.trans hroot⟩)).within hs' hw
    · exact hnew root hroot
  · exact (hp root (Or.inr hboot)).within hs' hw

theorem Alike.strays (ha : Alike st st') (hp : ∀ root, Spared L ram st root → Stray L st root)
    (root : ℕ) (hr : Spared L ram st' root) : Stray L st' root := by
  apply ha.stray
  apply hp
  rcases hr with ⟨i, hu, hroot⟩ | hboot
  · obtain ⟨f, s, c, hproc⟩ := ha.process i
    rw [hproc] at hroot
    exact Or.inl ⟨i, (ha.used i).mp hu, hroot⟩
  · exact Or.inr hboot

theorem AllocProc.within (hs : Sound L st) (h : AllocProc L st (some i) mid) : Within i st mid := by
  obtain ⟨root, stack, hsp⟩ := h.spawned hs
  have hc := hsp.memory.confined
  rw [← hsp.trees_eq] at hc
  exact hc

theorem Loaded.within {elf : Addr → Except Stop Byte} {phoff phnum start page : ℕ} {maxEnd : Addr}
    {p1 p2 : Phys} (hs : Sound L st) (hu : (st.processTable i).state ≠ .unused)
    (h : Loaded st i elf st' phoff phnum start page maxEnd p1 p2) : Within i st st' := by
  obtain ⟨pl, hpl, hreal, hstack⟩ := h.placed hs.owned (hs.root hu)
  rw [Within, h.trees_eq]
  exact (hreal.confined (planSegments_userFlags hpl)).trans hstack.confined

theorem booted_strays (h : kmain L ram = .ok st) (root : ℕ) (hr : Spared L ram st root) :
    Stray L st root := by
  obtain ⟨rootPt, p1, p2, c, ha, hk, hstart⟩ := kmain_result h
  have htree := bootTree ha hk
  have hsound := sound_mapped ha hk c
  have hnone := trees_mapped L ram rootPt p2 c
  have hstray : Stray L (mapped L ram rootPt p2 c) rootPt := by
    rw [← hnone] at htree
    apply htree.stray
    rw [hnone]
  cases hstart with
  | started i mid fin entry console hp he hl =>
    have hmid := sound_allocProc hsound hp
    obtain ⟨-, -, hother⟩ := hp.of_some
    obtain ⟨r, stack, hsp⟩ := hp.spawned hsound
    obtain ⟨phoff, phnum, start, page, maxEnd, q1, q2, hl⟩ := loadElf_true hl
    have hused : (mid.processTable i).state ≠ .unused := by simp [hsp.process]
    have hfin := (hstray.within hmid (hp.within hsound)).within (hl.sound hmid hused)
      (hl.within hmid hused)
    have hstate := congrArg Process.state hl.process
    have halike : Alike fin { ({ fin with currentProc := i }.modifyProc i fun p =>
        { p with state := .running }) with
        console := console, satp := fin.rootOf i, sscratch := i, sstatus := bootStatus } := by
      have hfree : ({ fin with currentProc := i }.processTable i).state ≠ .unused :=
        fun hf => hused (hstate.symm.trans hf)
      have hstarted := alike_state (s := .running) hfree (by decide)
      exact ⟨hstarted.phys, hstarted.used, hstarted.process⟩
    apply halike.strays _ root hr
    rintro root (⟨j, hu, hroot⟩ | hboot)
    · -- no slot has been given up yet
      have hji : j ≠ i := by
        rintro rfl
        exact hused (hstate.symm.trans hu)
      rw [hl.processTable_of_ne hji, hother j hji] at hroot
      cases hroot
    · rw [ha] at hboot
      cases hboot
      exact hfin

theorem reachable_strays (h : Reachable L ram st) (root : ℕ) (hr : Spared L ram st root) :
    Stray L st root := by
  have hkeeps := h.keeps (P := fun s => ∀ root, Spared L ram s root → Stray L s root)
    (fun s hb => booted_strays hb) (fun s s' ls hs ha hp => ha.strays hs hp)
    fun s s' ha hp => ha.strays hp
  exact hkeeps root hr

end Strays

section Leaves

/-- The page tables of the machine: that of boot and those the slots name, used or not. -/
def PageTable (L : Layout) (ram : Memory) (st : KState) (root : ℕ) : Prop :=
  (∃ i, (st.processTable i).pageTable = some root) ∨
    (pmmAllocPage (initPmm L ram)).1 = some root

/-- What the hardware may do through a leaf. -/
structure Protected (L : Layout) (st : KState) (w : Word) : Prop where
  xor : ¬ WX w
  user : hasFlag w pteU → L.protectedEnd ≤ frame (pteToPa w) ∧ frame (pteToPa w) < ramLast
  write : hasFlag w pteW → ¬ (textStart ≤ frame (pteToPa w) ∧ frame (pteToPa w) < L.rodataEnd)
  execute : hasFlag w pteX →
    (textStart ≤ frame (pteToPa w) ∧ frame (pteToPa w) < L.textEnd) ∨
    hasFlag w pteU ∧ ∃ i q, held st.phys (trees st) (.node i (PageNo.leaf q)) =
      some (frame (pteToPa w))

theorem kernelEntry_cases (h : kernelEntry L q = some w) : frame (pteToPa w) = q.number ∧
    ¬ hasFlag w pteU ∧
    (hasFlag w pteW → ¬ hasFlag w pteX ∧ ¬ (textStart ≤ q.number ∧ q.number < L.rodataEnd)) ∧
    (hasFlag w pteX → textStart ≤ q.number ∧ q.number < L.textEnd) := by
  obtain ⟨flags, hflags, rfl⟩ := Option.map_eq_some_iff.mp h
  have hle := L.text_le
  have hflag : ∀ {k : ℕ} {flag : Word}, k < 10 → (∀ w, hasFlag w flag = w.getLsbD k) →
      hasFlag (identity q.number flags) flag = hasFlag (flags ||| pteV) flag := hasFlag_identity
  have hw := hflag (by norm_num) hasFlag_pteW
  have hx := hflag (by norm_num) hasFlag_pteX
  have hu := hflag (by norm_num) hasFlag_pteU
  rw [hw, hx, hu]
  rw [frame_identity (kernelFlags_some hflags).1]
  unfold kernelFlags at hflags
  split_ifs at hflags with h1 h2 h3
  · cases hflags
    exact ⟨rfl, by decide, fun hw => absurd hw (by decide), fun _ => h1⟩
  · cases hflags
    exact ⟨rfl, by decide, fun hw => absurd hw (by decide), fun hx => absurd hx (by decide)⟩
  · cases hflags
    exact ⟨rfl, by decide, fun _ => ⟨by decide, by omega⟩, fun hx => absurd hx (by decide)⟩

theorem protected_kernel (h : kernelEntry L q = some w) : Protected L st w := by
  obtain ⟨hframe, hu, hw, hx⟩ := kernelEntry_cases h
  rw [← hframe] at hw hx
  exact ⟨fun hwx => (hw hwx.1).1 hwx.2, fun h => absurd h hu, fun h => (hw h).2,
    fun h => Or.inl (hx h)⟩

/-- A user page of a process is protected, wherever it is. -/
theorem protected_user (hs : Sound L st) (hl : UserLeaf (entryOf st i q))
    (hwx : ¬ WX (entryOf st i q)) : Protected L st (entryOf st i q) := by
  have hheld : held st.phys (trees st) (.node i q.leaf) =
      some (frame (pteToPa (entryOf st i q))) := by
    rw [held_leaf]
    exact decodePte_userLeaf hl
  have hlo := (hs.owned.inUse _ _ hheld).2
  have hram := hs.owned.inRam hheld
  have hend := L.data_le
  refine ⟨hwx, fun _ => ⟨hlo, hram.2⟩, fun _ hro => ?_, fun _ => Or.inr ⟨hl.2.2, i, q, hheld⟩⟩
  simp only [Layout.protectedEnd] at hlo
  omega

theorem entry_of_path {p : Phys} {path : List (Fin 512)} {f : ℕ} (hp : path.length = 2)
    (ht : tableAt p.mem (some root) path = some f) (k : Fin 512) :
    ∃ q : PageNo, entry p.mem (some root) q = (p.mem f).word k := by
  obtain ⟨a, b, rfl⟩ := List.length_eq_two.mp hp
  refine ⟨(b, a, k), ?_⟩
  rw [entry, PageNo.low, ht]
  rfl

/-- Where the kernel works on the memory it means, every leaf of every page table is a page of 4 KiB
with such rights. -/
theorem leaf_protected (h : Reachable L ram st) (hroot : PageTable L ram st root)
    {path : List (Fin 512)} (hp : path.length ≤ 2) {f : ℕ}
    (ht : tableAt st.phys.mem (some root) path = some f) {k : Fin 512}
    (hv : hasFlag ((st.phys.mem f).word k) pteV) (hl : isLeaf ((st.phys.mem f).word k)) :
    path.length = 2 ∧ Protected L st ((st.phys.mem f).word k) := by
  have hs := reachable_sound h
  have hcases : (∃ i, (trees st).root i = some root) ∨ Stray L st root := by
    rcases hroot with ⟨i, hi⟩ | hboot
    · by_cases hu : (st.processTable i).state = .unused
      · exact Or.inr (reachable_strays h root (Or.inl ⟨i, hu, hi⟩))
      · left
        refine ⟨i, ?_⟩
        rw [← hi]
        exact if_neg hu
    · exact Or.inr (reachable_strays h root (Or.inr hboot))
  -- words of the upper levels point to tables
  have hlow : path.length = 2 := by
    by_contra hne
    have hlt : path.length < 2 := by omega
    have hpointer : (st.phys.mem f).word k = 0 ∨ IsPointer ((st.phys.mem f).word k) := by
      rcases hcases with ⟨i, hi⟩ | hstray
      · rw [← hi] at ht
        exact hs.owned.pointers i path f hlt ht k
      · exact hstray.owned.pointers () path f hlt ht k
    rcases hpointer with hzero | ⟨n, -, hn⟩
    · rw [hzero] at hv
      exact absurd hv (by decide)
    · rw [hn, pointer_not_leaf] at hl
      exact absurd hl Bool.false_ne_true
  refine ⟨hlow, ?_⟩
  obtain ⟨q, hq⟩ := entry_of_path hlow ht k
  rw [← hq] at hv hl ⊢
  rcases hcases with ⟨i, hi⟩ | hstray
  · rw [← hi] at hv hl ⊢
    rcases reachable_guarded h i q hv with hk | ⟨hu, hwx⟩
    · exact protected_kernel hk
    · exact protected_user hs ⟨hv, hl, hu⟩ hwx
  · have hentry := hstray.entries q
    cases hk : kernelEntry L q with
    | none =>
      rw [hentry, hk] at hv
      exact absurd hv (by decide)
    | some w =>
      rw [hentry, hk]
      exact protected_kernel hk

end Leaves

end Lazux
