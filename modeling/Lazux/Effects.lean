import Lazux.Actions

/-! # What an action touches

Every action is confined to the address space of one process: the one that runs, a new one
or a dead one. -/
namespace Lazux

open PagedMemory RadixForest Run Trace

section Trees

variable {ι : Type*} [DecidableEq ι] {H : Forest ι} {p p' : Phys} {lo root page : ℕ} {i : ι}
  {L : Layout}

theorem held_withExtra {r : Option ℕ} {s : Role ι (Fin 512)} (hs : s ≠ .extra i) :
    held p (withExtra H i r) s = held p H s := by
  cases s with
  | extra j =>
    apply withExtra_of_ne
    rintro rfl
    exact hs rfl
  | node j path => rfl

theorem held_withRoot {r : Option ℕ} {s : Role ι (Fin 512)} (hs : ∀ path, s ≠ .node i path) :
    held p (withRoot H i r) s = held p H s := by
  cases s with
  | extra j => rfl
  | node j path =>
    have hj : j ≠ i := by
      rintro rfl
      exact hs path rfl
    rw [held_node, held_node, withRoot_of_ne hj]

theorem KernelTree.apart (h : KernelTree L lo H i root p p') {f : ℕ} (hu : InUse p f)
    (path : List (Fin 512)) : held p' (withRoot H i (some root)) (.node i path) ≠ some f := by
  have hparts : Apart p' ⟨(withRoot H i (some root)).root, fun _ => none⟩ i f := by
    rw [apart_iff]
    refine ⟨by simp, fun path hp hf => h.fresh path f hp hf hu, fun q hf => ?_⟩
    rw [held_leaf] at hf
    have he := h.entries q
    rw [show (some root : Option ℕ) = (withRoot H i (some root)).root i from
      (withRoot_self H i _).symm] at he
    rw [he, decode_kernelEntry] at hf
    cases hf
  exact hparts (.node i path) rfl

theorem KernelTree.confined (h : KernelTree L lo H i root p p') :
    Confined i H p (withRoot H i (some root)) p' := by
  constructor
  · intro r hr
    apply h.others
    rintro path rfl
    exact hr rfl
  · intro f hu ha
    refine ⟨h.inUse f hu, h.mem f hu, ?_⟩
    rintro (j | ⟨j, path⟩) hj
    · exact ha (.extra j) hj
    · have hj : j = i := hj
      subst hj
      exact h.apart hu path

theorem KernelStack.confined (h : KernelStack L H i root page p p') :
    Confined i H p (withExtra (withRoot H i (some root)) i (some page)) p' := by
  constructor
  · intro r hr
    rw [held_withExtra (by rintro rfl; exact hr rfl)]
    apply h.held
    rintro path rfl
    exact hr rfl
  · intro f hu ha
    refine ⟨h.inUse f hu, h.mem f hu, apart_iff.mpr ⟨?_, ?_, ?_⟩⟩
    · rw [withExtra_self]
      rintro he
      cases he
      exact h.fresh.1 hu
    · intro path hp hf
      rw [held_withExtra (by simp)] at hf
      exact h.fresh.2 path f hp hf hu
    · intro q hf
      rw [held_leaf, withExtra_root, withRoot_self, h.entries, decode_kernelEntry] at hf
      cases hf

def kernelRoles (i : ι) : Finset (Role ι (Fin 512)) :=
  insert (Role.node i []) (kernelTables.image (Role.node i))

theorem kernelRoles_card (i : ι) : (kernelRoles i).card = 69 := by
  have hinj : Function.Injective (Role.node i : List (Fin 512) → Role ι (Fin 512)) := by
    intro a b hab
    injection hab
  rw [kernelRoles, Finset.card_insert_of_notMem, Finset.card_image_of_injective _ hinj,
    kernelTables_card]
  intro hmem
  obtain ⟨path, hpath, he⟩ := Finset.mem_image.mp hmem
  injection he with _ he
  subst he
  obtain ⟨q, -, hq⟩ := mem_kernelTables.mp hpath
  rcases hq with hq | hq <;> simp [PageNo.mid, PageNo.low] at hq

theorem kernelRoles_held {H' : Forest ι} (hr : H'.root i = some root)
    (ht : tableSet p' H' i = kernelTables) (hfresh : ∀ path f, path.length ≤ 2 →
      held p' H' (.node i path) = some f → ¬ InUse p f) :
    ∀ r ∈ kernelRoles i, r.owner = i ∧ ∃ f, held p' H' r = some f ∧ ¬ InUse p f := by
  intro r hmem
  rcases Finset.mem_insert.mp hmem with rfl | hmem
  · exact ⟨rfl, root, hr, hfresh [] root (Nat.zero_le _) hr⟩
  · obtain ⟨path, hpath, rfl⟩ := Finset.mem_image.mp hmem
    rw [← ht] at hpath
    obtain ⟨hlen, hne⟩ := mem_tableSet.mp hpath
    obtain ⟨f, hf⟩ := Option.ne_none_iff_exists'.mp hne
    exact ⟨rfl, f, hf, hfresh path f (by omega) hf⟩

theorem KernelTree.tight (h : KernelTree L lo H i root p p') (hr : H.root i = none)
    (he : H.extra i = none) : Tight i H p (withRoot H i (some root)) p' := by
  apply tight_new h.owned h.inUse (apart_of_none hr he)
  · exact kernelRoles_held (withRoot_self _ _ _) h.tables h.fresh
  · rw [kernelRoles_card]
    exact h.count

theorem KernelStack.tight (h : KernelStack L H i root page p p') (hr : H.root i = none)
    (he : H.extra i = none) :
    Tight i H p (withExtra (withRoot H i (some root)) i (some page)) p' := by
  apply tight_new (G := insert (.extra i) (kernelRoles i)) h.owned h.inUse (apart_of_none hr he)
  · intro r hmem
    rcases Finset.mem_insert.mp hmem with rfl | hmem
    · exact ⟨rfl, page, withExtra_self _ _ _, h.fresh.1⟩
    · have htables : tableSet p' (withExtra (withRoot H i (some root)) i (some page)) i =
          kernelTables := by
        rw [← h.tables]
        apply tableSet_congr
        rfl
      have hroot : (withExtra (withRoot H i (some root)) i (some page)).root i = some root :=
        withRoot_self _ _ _
      exact kernelRoles_held hroot htables h.fresh.2 r hmem
  · have hnew : Role.extra i ∉ kernelRoles i := by simp [kernelRoles]
    rw [Finset.card_insert_of_notMem hnew, kernelRoles_card]
    exact h.count

omit [DecidableEq ι] in
theorem StackPlaced.confined (h : StackPlaced lo H i page p p') : Confined i H p H p' := by
  cases h with
  | lost T hT hp => exact hp.confined_none
  | mapped hp hf =>
    apply hp.confined
    intro q w f hw hd hu
    split at hw
    · cases hw
      have hlt : page < 2 ^ 44 := by
        have := hf.inUse.1.2
        simp only [ramLast] at this
        omega
      rw [decode_userWord userFlags_heap hlt] at hd
      split at hd
      · cases hd
        exact hf.fresh hu
      · cases hd
    · cases hw

end Trees

variable {L : Layout} {st st' mid : KState} {ls : List Label} {i j child : Slot} {tf : Slot}

section Confinement

/-- Only the address space of slot `i` changes. -/
abbrev Within (i : Slot) (st st' : KState) : Prop :=
  Confined i (trees st) st.phys (trees st') st'.phys

theorem within_same (ht : trees st' = trees st) (hp : st'.phys = st.phys) : Within i st st' := by
  rw [Within, ht, hp]
  exact .refl i _ _

theorem trees_forked {phys : Phys} {root stack : ℕ} (hsp : Spawned L st child root stack mid)
    (hne : child ≠ st.currentProc) : trees (forked st mid child phys) = trees mid := by
  have hb := (benign_setA0 { mid with phys := phys } st.currentProc
    ((mid.processTable child).pid.signExtend 64)).trees_eq
  have hproc : ({ mid with phys := phys }.setA0 st.currentProc
      ((mid.processTable child).pid.signExtend 64)).processTable child =
      mid.processTable child := by
    rw [KState.setA0, KState.setFrame, modifyProc_of_ne _ hne]
  have hready : (mid.processTable child).state ≠ .unused := by simp [hsp.process]
  have hroot : (trees mid).root child = (mid.processTable child).pageTable := if_neg hready
  have hextra : (trees mid).extra child = (mid.processTable child).kernelStack := if_neg hready
  have hmid : trees { mid with phys := phys } = trees mid := rfl
  rw [forked, trees_modifyProc, hproc, hb, hmid, if_neg (by simp [inherit]),
    if_neg (by simp [inherit])]
  simp only [inherit]
  rw [← hroot, ← hextra, withRoot, Function.update_eq_self, withExtra, Function.update_eq_self]

theorem within_forked {phys : Phys} (hs : Sound L st) (hst : Steady tf st)
    (ha : AllocProc L st (some child) mid) (hne : child ≠ st.currentProc)
    (hc : vmmCopyUvm 2 (mid.rootOf st.currentProc) (mid.rootOf child) mid.phys = .ok phys) :
    Within child st (forked st mid child phys) := by
  obtain ⟨root, stack, hsp⟩ := ha.spawned hs
  have h1 := hsp.memory.confined
  rw [← hsp.trees_eq] at h1
  have h2 := (ForkCall.copied hs hst ha hne hc).confined
  have h := h1.trans h2
  rw [Within, trees_forked hsp hne]
  exact h

theorem trees_allocProc_none (h : AllocProc L st none mid) : trees mid = trees st := by
  cases h with
  | full hu => rfl
  | noRoot i hu ha =>
    exact @trees_still_unused { st with nextPid := st.nextPid + 1 } _ hu _ rfl
  | noStack i hu root p1 p2 ha hk hb =>
    exact @trees_still_unused { st with nextPid := st.nextPid + 1, phys := p2 } _ hu _ rfl

theorem within_allocProc_none (hs : Sound L st) (h : AllocProc L st none mid) :
    (∀ i, Within i st mid) ∨ ∃ i, (st.processTable i).state = .unused ∧ Within i st mid := by
  cases h with
  | full hu => exact Or.inl fun _ => within_same rfl rfl
  | noRoot i hu ha =>
    exact Or.inl fun _ => within_same (trees_allocProc_none (L := L) (.noRoot i hu ha)) rfl
  | noStack i hu root p1 p2 ha hk hb =>
    obtain ⟨hr, he⟩ := trees_unused hu
    have htree := (kernelTree (L := L) hs.owned hr ha).ensures p2 hk
    refine Or.inr ⟨i, hu, ?_⟩
    rw [Within, trees_allocProc_none (L := L) (.noStack i hu root p1 p2 ha hk hb)]
    constructor
    · intro r hr'
      have hnode : ∀ path, r ≠ .node i path := by
        rintro path rfl
        exact hr' rfl
      have := htree.others r hnode
      rw [held_withRoot hnode] at this
      exact this
    · intro f hf ha'
      refine ⟨htree.inUse f hf, htree.mem f hf, ?_⟩
      rintro (k | ⟨k, path⟩) hk'
      · exact ha' (.extra k) hk'
      · have hk' : k = i := hk'
        subst hk'
        rw [held_node, hr, tableAt_none]
        simp

/-- The running process has exchanged its page table for one in frames that were free; the frames
of the old one are free now, and all others are as they were. -/
structure Swapped (st st' : KState) : Prop where
  others : ∀ r, (∀ path, r ≠ .node st.currentProc path) →
    held st'.phys (trees st') r = held st.phys (trees st) r
  inUse : ∀ f, InUse st.phys f → (InUse st'.phys f ↔
    ∀ path, held st.phys (trees st) (.node st.currentProc path) ≠ some f)
  mem : ∀ f, InUse st.phys f → st'.phys.mem f = st.phys.mem f
  fresh : ∀ f, InUse st.phys f → ∀ path,
    held st'.phys (trees st') (.node st.currentProc path) ≠ some f

theorem Replaced.swapped {newPt start : ℕ} {pl : List Placement} {maxEnd : Addr} (hs : Sound L st)
    (hst : Steady tf st) (h : Replaced L st st' newPt start pl maxEnd) : Swapped st st' := by
  obtain ⟨p2, q1, q2, page, htree, hreal, hstack, hphys⟩ := h.memory
  set K := withRoot (spare (trees st)) none (some newPt) with hK
  have hc : Confined none (spare (trees st)) st.phys K q2 :=
    (htree.confined.trans (hreal.confined h.flags)).trans hstack.confined
  have hold : K.root (some st.currentProc) = some (st.rootOf st.currentProc) := by
    rw [hK, withRoot_of_ne (by simp)]
    exact hs.root hst.used
  have hmem : st'.phys.mem = q2.mem := by
    rw [hphys, vmmFreePt, mem_pmmFreePage, mem_freePageTable]
  have hkept : ∀ (j : Slot) path, held q2 K (.node (some j) path) =
      held st.phys (trees st) (.node j path) := by
    intro j path
    rw [hc.others _ (by simp [Role.owner])]
    rfl
  have hnew : ∀ path, held st'.phys (trees st') (.node st.currentProc path) =
      held q2 K (.node none path) := by
    intro path
    rw [h.trees_eq hst, held_node, held_node, hmem, withRoot_self, hK, withRoot_self]
  -- while it is built the new tree belongs to nobody
  have hspared : ∀ f, InUse st.phys f → InUse q2 f ∧ q2.mem f = st.phys.mem f ∧
      Apart q2 K none f := by
    intro f hu
    apply hc.spared f hu
    rintro (o | ⟨o, path⟩) ho
    · have ho : o = none := ho
      subst ho
      simp [spare]
    · have ho : o = none := ho
      subst ho
      rw [held_node]
      simp [spare]
  constructor
  · rintro (j | ⟨j, path⟩) hj
    · rw [h.trees_eq hst]
      rfl
    · have hj : j ≠ st.currentProc := by
        rintro rfl
        exact hj path rfl
      rw [h.trees_eq hst, held_node, withRoot_of_ne hj, hmem, ← hkept, held_node, hK,
        withRoot_of_ne (by simp)]
      rfl
  · intro f hu
    have huse : InUse st'.phys f ↔ InUse q2 f ∧
        ∀ path, held st.phys (trees st) (.node st.currentProc path) ≠ some f := by
      rw [hphys, hstack.owned.inUse_vmmFreePt hold rfl]
      simp only [hkept]
    rw [huse]
    exact and_iff_right (hspared f hu).1
  · intro f hu
    rw [hmem]
    exact (hspared f hu).2.1
  · intro f hu path
    rw [hnew]
    exact (hspared f hu).2.2 (.node none path) rfl

theorem Replaced.within {newPt start : ℕ} {pl : List Placement} {maxEnd : Addr} (hs : Sound L st)
    (hst : Steady tf st) (h : Replaced L st st' newPt start pl maxEnd) :
    Within st.currentProc st st' := by
  have hsw := h.swapped hs hst
  constructor
  · intro r hr
    apply hsw.others
    rintro path rfl
    exact hr rfl
  · intro f hu ha
    refine ⟨(hsw.inUse f hu).mpr fun path => ha (.node _ path) rfl, hsw.mem f hu, ?_⟩
    rintro (j | ⟨j, path⟩) hj
    · rw [h.trees_eq hst]
      exact ha (.extra j) hj
    · have hj : j = st.currentProc := hj
      subst hj
      exact hsw.fresh f hu path

/-- An entry of the new image is the kernel's, the stack's or that of a page of the file. -/
theorem Replaced.entry_cases {newPt start : ℕ} {pl : List Placement} {maxEnd : Addr}
    (hst : Steady tf st) (h : Replaced L st st' newPt start pl maxEnd) (q : PageNo) :
    entryOf st' st.currentProc q = (kernelEntry L q).getD 0 ∨
      ∃ n flags, entryOf st' st.currentProc q = userWord n flags ∧
        (q = pageNo userStackBase ∧ flags = pteU ||| pteR ||| pteW ∨
          ∃ y ∈ pl, y.page = q ∧ y.flags = flags) := by
  obtain ⟨p2, q1, q2, page, htree, hreal, hstack, hphys⟩ := h.memory
  have hmem : st'.phys.mem = q2.mem := by
    rw [hphys, vmmFreePt, mem_pmmFreePage, mem_freePageTable]
  have hroot : (trees st').root st.currentProc = some newPt := by
    rw [h.trees_eq hst, withRoot_self]
  have hcases := loaded_entry hreal hstack q
  rw [withRoot_self, htree.entries] at hcases
  rw [entryOf, hmem, hroot]
  exact hcases

theorem freeProc_released (hs : Sound L st) (hu : (st.processTable i).state ≠ .unused) :
    (freeProc st i).phys.mem = st.phys.mem ∧
    (∀ f, InUse (freeProc st i).phys f ↔ InUse st.phys f ∧ Apart st.phys (trees st) i f) ∧
    trees (freeProc st i) = withExtra (withRoot (trees st) i none) i none := by
  obtain ⟨root, hroot⟩ := Option.ne_none_iff_exists'.mp (hs.table i hu)
  have hr : (trees st).root i = some root := by simp [trees, hu, hroot]
  have he : (trees st).extra i = (st.processTable i).kernelStack := by simp [trees, hu]
  have htree : ∀ (p0 : Phys), p0.mem = st.phys.mem → (vmmFreePt root p0).mem = st.phys.mem ∧
      ∀ f, InUse (vmmFreePt root p0) f ↔ InUse p0 f ∧
        ∀ path, held st.phys (trees st) (.node i path) ≠ some f := by
    intro p0 hm
    refine ⟨?_, hs.owned.inUse_vmmFreePt hr hm⟩
    rw [vmmFreePt, mem_pmmFreePage, mem_freePageTable, hm]
  have hapart : ∀ f, Apart st.phys (trees st) i f ↔ (trees st).extra i ≠ some f ∧
      ∀ path, held st.phys (trees st) (.node i path) ≠ some f := by
    intro f
    constructor
    · intro h
      exact ⟨h (.extra i) rfl, fun path => h (.node i path) rfl⟩
    · rintro ⟨h1, h2⟩ (j | ⟨j, path⟩) rfl
      · exact h1
      · exact h2 path
  unfold freeProc
  dsimp only
  rw [if_neg hu, hroot]
  refine ⟨?_, fun f => ?_, trees_modifyProc ..⟩
  · cases (st.processTable i).kernelStack with
    | none => exact (htree st.phys rfl).1
    | some stack => exact (htree _ (mem_pmmFreePage _ _)).1
  · cases hk : (st.processTable i).kernelStack with
    | none =>
      refine ((htree st.phys rfl).2 f).trans ?_
      rw [hapart, he, hk]
      simp
    | some stack =>
      have hstack : held st.phys (trees st) (.extra i) = some stack := he.trans hk
      have hlt : stack < 2 ^ 52 := by
        have := (hs.owned.inRam hstack).2
        simp only [ramLast] at this
        omega
      refine ((htree _ (mem_pmmFreePage _ _)).2 f).trans ?_
      rw [hs.owned.inUse_free hstack (pageAddr_toNat hlt), hapart, he, hk, and_assoc]
      simp

theorem within_freeProc (hs : Sound L st) (hu : (st.processTable i).state ≠ .unused) :
    Within i st (freeProc st i) := by
  obtain ⟨hm, huse, ht⟩ := freeProc_released hs hu
  constructor
  · rintro (j | ⟨j, path⟩) hj
    · have hj : j ≠ i := hj
      rw [ht, held_extra, withExtra_of_ne hj]
      rfl
    · have hj : j ≠ i := hj
      rw [ht, held_node, hm, withExtra_root, withRoot_of_ne hj, held_node]
  · intro f hf ha
    refine ⟨(huse f).mpr ⟨hf, ha⟩, congrFun hm f, ?_⟩
    rintro (j | ⟨j, path⟩) hj
    · have hj : j = i := hj
      rw [ht, hj, held_extra, withExtra_self]
      simp
    · have hj : j = i := hj
      rw [ht, hj, held_node, withExtra_root, withRoot_self, tableAt_none]
      simp

theorem within_grown {increment : Word} {ok : Bool} {phys : Phys} (hs : Sound L st)
    (hst : Steady tf st) (h : Grow st increment ok phys) :
    Within st.currentProc st (grown st increment ok phys) := by
  have hc := (h.remapped hs hst).confined
  cases ok with
  | false => exact hc
  | true =>
    have ht := (benign_modifyProc { st with phys := phys } st.currentProc (f := fun p =>
      { p with heapBreak := st.current.heapBreak + increment }) Iff.rfl rfl rfl rfl).trees_eq
    rw [Within, grown, if_pos rfl, ht]
    exact hc

theorem within_benign (h : Benign st st') (hp : st'.phys = st.phys) : Within i st st' :=
  within_same h.trees_eq hp

theorem within_setByte {pa : Addr} (hs : Sound L st) (q : PageNo)
    (h : held st.phys (trees st) (.node i q.leaf) = some (frame pa)) (b : Byte) :
    Within i st { st with phys := { st.phys with mem := st.phys.mem.setByte pa b } } := by
  have hw := UserWrites.setByte hs.owned h (leaf_ne_table _ q) b
  refine ⟨fun r _ => congrFun hw.held_eq r, fun f hu ha => ⟨hu, ?_, fun r hr => ?_⟩⟩
  · apply setByte_of_ne
    rintro rfl
    exact ha _ rfl h
  · have := congrFun hw.held_eq r
    exact fun hf => ha r hr (this.symm.trans hf)

/-- Every action is confined to the running process, to a free slot or to a dead process. -/
theorem Act.within (h : Act L st ls st') (hs : Sound L st) :
    ∃ i, (i = st.currentProc ∨ (st.processTable i).state = .unused ∨
      (st.processTable i).state = .zombie) ∧ Within i st st' := by
  have mine : Within st.currentProc st st' → ∃ i, (i = st.currentProc ∨
      (st.processTable i).state = .unused ∨ (st.processTable i).state = .zombie) ∧
      Within i st st' := fun hw => ⟨_, Or.inl rfl, hw⟩
  cases h with
  | console c => exact mine (within_same rfl rfl)
  | status w => exact mine (within_same rfl rfl)
  | regs hst f hf => exact mine (within_benign (benign_setFrame st _ f) rfl)
  | file hst fd f => exact mine (within_benign (benign_setFile st fd f) rfl)
  | take hst b u h => exact mine (within_same rfl rfl)
  | store hst q pa b h => exact mine (within_setByte hs q h b)
  | receive b => exact mine (within_benign (benign_uartByte st b) (onlyWakes_uartByte st b).phys)
  | grow hst increment ok phys h => exact mine (within_grown hs hst h)
  | forkFailed hst mid h =>
    rcases within_allocProc_none hs h with hw | ⟨i, hu, hw⟩
    · exact mine (hw _)
    · exact ⟨i, Or.inr (Or.inl hu), hw⟩
  | fork hst child mid phys ha hne hc =>
    exact ⟨child, Or.inr (Or.inl ha.of_some.1), within_forked hs hst ha hne hc⟩
  | exec hst st' h =>
    rcases h.answers hs with ⟨w, rfl⟩ | ⟨newPt, start, pl, maxEnd, elf, phoff, phnum, hrep, -⟩
    · exact mine (within_benign (benign_setA0 st _ w) rfl)
    · exact mine (hrep.within hs hst)
  | reap hst i hz hp => exact ⟨i, Or.inr (Or.inr hz), within_freeProc hs (by rw [hz]; decide)⟩
  | sleep hst ch hp => exact mine (within_benign (benign_sleeping hst ch) rfl)
  | exit hst => exact mine (within_benign (benign_exiting hst) (phys_exiting st))
  | yield hst =>
    exact mine (within_benign (benign_state st _ hst.used (by simp) rfl rfl rfl) rfl)

end Confinement

section Bystanders

theorem Act.ready (h : Act L st ls st') (hj : j ≠ st.currentProc)
    (hr : (st.processTable j).state = .ready) : st'.processTable j = st.processTable j := by
  have hfree : ∀ {i}, (st.processTable i).state = .unused → j ≠ i := by
    rintro i hu rfl
    rw [hr] at hu
    cases hu
  cases h with
  | console c => rfl
  | status w => rfl
  | regs hst f hf => exact modifyProc_of_ne _ hj _
  | file hst fd f => exact modifyProc_of_ne _ hj _
  | take hst b u h => rfl
  | store hst q pa b h => rfl
  | receive b => exact uartByte_of_ready hr
  | grow hst increment ok phys h =>
    cases ok with
    | false => rfl
    | true =>
      rw [grown, if_pos rfl]
      exact modifyProc_of_ne _ hj _
  | forkFailed hst mid h =>
    cases h with
    | full hu => rfl
    | noRoot i hu ha => exact modifyProc_of_ne _ (hfree hu) _
    | noStack i hu root p1 p2 ha hk hb => exact modifyProc_of_ne _ (hfree hu) _
  | fork hst child mid phys ha hne hc =>
    obtain ⟨hu, hcur, hother⟩ := ha.of_some
    have hchild := hfree hu
    rw [forked, modifyProc_of_ne _ hchild, setA0_of_ne _ hj]
    exact hother j hchild
  | exec hst st' h =>
    cases h with
    | badName hn => exact setA0_of_ne st hj _
    | noEntry hn he => exact setA0_of_ne st hj _
    | replaced entry newPt p1 p2 mid hn he ha hk hl =>
      obtain ⟨phoff, phnum, start, page, maxEnd, q1, q2, hl⟩ := loadElf_true hl
      exact (hl.processTable_of_ne hj).trans (modifyProc_of_ne _ hj _)
  | reap hst i hz hp =>
    apply freeProc_of_ne
    rintro rfl
    rw [hr] at hz
    cases hz
  | sleep hst ch hp =>
    rw [sleeping, KState.setFrame, modifyProc_of_ne _ hj]
    exact modifyProc_of_ne _ hj _
  | exit hst =>
    have hsame : (st.modifyProc st.currentProc fun p =>
        { p with state := .zombie }).processTable j = st.processTable j := modifyProc_of_ne _ hj _
    unfold exiting
    dsimp only
    split
    · rw [wakeup_of_ready (by rw [hsame]; exact hr)]
      exact hsame
    · exact hsame
  | yield hst => exact modifyProc_of_ne _ hj _

theorem Act.ready_memory (h : Act L st ls st') (hs : Sound L st) (hj : j ≠ st.currentProc)
    (hr : (st.processTable j).state = .ready) :
    (∀ r : Role Slot (Fin 512), r.owner = j →
      held st'.phys (trees st') r = held st.phys (trees st) r ∧
      ∀ f, held st.phys (trees st) r = some f → st'.phys.mem f = st.phys.mem f) ∧
    ∀ q, entry st'.phys.mem ((trees st').root j) q = entry st.phys.mem ((trees st).root j) q := by
  obtain ⟨i, hi, hw⟩ := h.within hs
  have hji : j ≠ i := by
    rintro rfl
    rcases hi with hc | hu | hz
    · exact hj hc
    · rw [hr] at hu
      cases hu
    · rw [hr] at hz
      cases hz
  refine ⟨fun r ho => ⟨hw.others r (by rw [ho]; exact hji), fun f hf => ?_⟩,
    fun q => hw.entry_other hs.owned hji q⟩
  exact hw.mem_other hs.owned (by rw [ho]; exact hji) hf

end Bystanders

end Lazux
