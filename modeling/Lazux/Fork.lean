import Lazux.Effects
import Lazux.Family
import Lazux.FirstProcess

/-! # Fork: an independent copy of the parent, or nothing

When `SYS_FORK` gets to its end, what the child then has, and what is left of a call that
does not. -/
namespace Lazux

open PagedMemory RadixForest Run Trace

variable {L : Layout} {ram : Memory} {st st' mid : KState} {child i : Slot} {tf : Slot}
  {regs : TrapFrame} {input : Input} {r : Slot × KState}

section Creation

def freeSlot (st : KState) : Option Slot :=
  (List.finRange 64).find? fun i => (st.processTable i).state = .unused

theorem freeSlot_none : freeSlot st = none ↔ ∀ i, (st.processTable i).state ≠ .unused := by
  rw [freeSlot, List.find?_eq_none]
  constructor
  · intro h i hu
    exact h i (List.mem_finRange i) (by simpa using hu)
  · intro h i _ hu
    exact h i (by simpa using hu)

theorem freeSlot_some (h : freeSlot st = some i) : (st.processTable i).state = .unused := by
  simpa using List.find?_some h

/-- A full table is reported on the console. -/
theorem allocProc_full (h : freeSlot st = none) :
    allocProc L st = .ok (none, st.puts "alloc_proc: Process table is full!\n") := by
  unfold allocProc
  unfold freeSlot at h
  rw [h]

/-- Without any frame left the slot loses what its page table field still held. -/
theorem allocProc_noRoot (h : freeSlot st = some i) (h0 : freeFrames st.phys = 0) :
    allocProc L st = .ok (none, { st with nextPid := st.nextPid + 1 }.modifyProc i fun p =>
      { p with
        pid := BitVec.ofNat 32 st.nextPid, openFiles := initProcessFds, state := .unused
        pageTable := none }) := by
  have ha : pmmAllocPage st.phys = (none, st.phys) := by
    have hnone := pmmAllocPage_none.mpr h0
    cases hp : pmmAllocPage st.phys with
    | mk o p' =>
      rw [hp] at hnone
      have hnone : o = none := hnone
      subst hnone
      rw [pmmAllocPage_none_eq hp]
  unfold allocProc
  unfold freeSlot at h
  rw [h]
  simp only [KState.modifyProc, ha, Function.update_self, Function.update_idem]

theorem AllocProc.frames (hs : Sound L st) (h : AllocProc L st (some child) mid) :
    freeFrames mid.phys + 70 = freeFrames st.phys := by
  obtain ⟨root, stack, hsp⟩ := h.spawned hs
  exact hsp.memory.count

/-- A creation that fails for want of a frame had none, or just not enough for the stack. -/
theorem AllocProc.failed_frames (hs : Sound L st) (h : AllocProc L st none mid) :
    (∀ i, (st.processTable i).state ≠ .unused) ∨ freeFrames st.phys = 0 ∨
      freeFrames st.phys = 69 ∧ ∃ n, InUse mid.phys n ∧ ¬ InUse st.phys n := by
  cases h with
  | full hu => exact Or.inl hu
  | noRoot i hu ha =>
    right
    left
    exact pmmAllocPage_none.mp (by rw [ha])
  | noStack i hu root p1 p2 ha hk hb =>
    right
    right
    have htree := (kernelTree (L := L) hs.owned (trees_unused hu).1 ha).ensures p2 hk
    have hcount := htree.count
    have h0 : freeFrames p2 = 0 := pmmAllocPage_none.mp (by rw [hb])
    refine ⟨by omega, root, ?_, (pmmAllocPage_some ha).2.1⟩
    exact (htree.owned.inUse (.node i []) root (withRoot_self ..)).1

end Creation

section Copying

/-- The part of an address space below 2 GB. -/
abbrev Low : List (Fin 512) → Prop := Walked 2 [] (List.finRange 512)

theorem low_leaf (q : PageNo) : Low q.leaf ↔ q.number < 2 ^ 19 := by
  have hbound : q.number < 2 ^ 19 ↔ q.1.val < 2 := by
    have h1 := q.2.1.isLt
    have h2 := q.2.2.isLt
    simp only [PageNo.number]
    omega
  rw [hbound]
  constructor
  · rintro ⟨k, -, hk, hsuf⟩
    have hk' : k = q.1 := by
      obtain ⟨l, hl⟩ := hsuf
      have hlast := congrArg List.getLast? hl
      simpa [PageNo.leaf] using hlast
    rw [← hk']
    exact hk rfl
  · intro h
    exact ⟨q.1, List.mem_finRange _, fun _ => h, [q.2.2, q.2.1], rfl⟩

/-- There are frames for the root, the tables and the stack of a child and for its copies of
the user pages, and each of these pages can be accessed somehow. -/
structure CopyFits (p : Phys) (H : Forest Slot) (i : Slot) : Prop where
  frames : (kernelTables ∪ tablesIn p H i Low).card + (userPages p H i Low).card + 2 ≤ freeFrames p
  accessible : ∀ q, Low q.leaf → hasFlag (entry p.mem (H.root i) q) pteV →
    isLeaf (entry p.mem (H.root i) q)

theorem CopyFits.seventy {p : Phys} {H : Forest Slot} (h : CopyFits p H i) :
    70 ≤ freeFrames p := by
  have hcard : kernelTables.card ≤ (kernelTables ∪ tablesIn p H i Low).card :=
    Finset.card_le_card Finset.subset_union_left
  have hframes := h.frames
  rw [kernelTables_card] at hcard
  omega

theorem copy_card {ι : Type*} {p : Phys} {H : Forest ι} {lo : ℕ} {i : ι}
    {R : List (Fin 512) → Prop} (ho : Owned lo H p) :
    (tablesIn p H i R).card + (userPages p H i R).card ≤ (usedFrames p).card := by
  classical
  set G : Finset (Role ι (Fin 512)) := (tablesIn p H i R).image (Role.node i) ∪
    (userPages p H i R).image fun q => Role.node i q.leaf with hG
  have hroles : ∀ r ∈ G, held p H r ≠ none := by
    intro r hr
    rcases Finset.mem_union.mp hr with hr | hr
    · obtain ⟨path, hpath, rfl⟩ := Finset.mem_image.mp hr
      exact (mem_tableSet.mp (mem_tablesIn.mp hpath).1).2
    · obtain ⟨q, hq, rfl⟩ := Finset.mem_image.mp hr
      rw [held_leaf, decodePte_userLeaf (mem_userPages.mp hq).2]
      simp
  have hsep : Disjoint ((tablesIn p H i R).image (Role.node i))
      ((userPages p H i R).image fun q => Role.node i q.leaf) := by
    rw [Finset.disjoint_left]
    intro r hr hr'
    obtain ⟨path, hpath, rfl⟩ := Finset.mem_image.mp hr
    obtain ⟨q, -, hq⟩ := Finset.mem_image.mp hr'
    injection hq with _ hq
    have hlen := (mem_tableSet.mp (mem_tablesIn.mp hpath).1).1
    rw [← hq] at hlen
    simp [PageNo.leaf] at hlen
  have hcard : G.card = (tablesIn p H i R).card + (userPages p H i R).card := by
    rw [hG, Finset.card_union_of_disjoint hsep, Finset.card_image_of_injective,
      Finset.card_image_of_injective]
    · intro q q' hqq
      injection hqq with _ hqq
      exact leaf_injective hqq
    · intro path path' hpp
      injection hpp
  rw [← hcard]
  exact roles_card ho hroles

theorem CopyFits.of_free {p : Phys} {H : Forest Slot} {lo : ℕ} (ho : Owned lo H p)
    (hfree : totalPages + 70 ≤ 2 * freeFrames p)
    (haccess : ∀ q, hasFlag (entry p.mem (H.root i) q) pteV → isLeaf (entry p.mem (H.root i) q)) :
    CopyFits p H i := by
  refine ⟨?_, fun q _ => haccess q⟩
  have hused := copy_card (R := Low) (i := i) ho
  have htotal := card_usedFrames p
  have hunion := Finset.card_union_le kernelTables (tablesIn p H i Low)
  rw [kernelTables_card] at hunion
  omega

theorem Spawned.budget_iff {root stack : ℕ} (hs : Sound L st)
    (hsp : Spawned L st child root stack mid) (hi : i ≠ child) :
    Budget (trees mid) i child Low mid.phys ↔ CopyFits st.phys (trees st) i := by
  have hc : Confined child (trees st) st.phys (trees mid) mid.phys := by
    rw [hsp.trees_eq]
    exact hsp.memory.confined
  have hheld : ∀ path, held mid.phys (trees mid) (.node i path) =
      held st.phys (trees st) (.node i path) := fun path => hc.others _ hi
  have hentry := hc.entry_other hs.owned hi
  have htables : tablesIn mid.phys (trees mid) i Low = tablesIn st.phys (trees st) i Low := by
    ext path
    rw [mem_tablesIn, mem_tablesIn, mem_tableSet, mem_tableSet, hheld]
  have hpages : userPages mid.phys (trees mid) i Low = userPages st.phys (trees st) i Low := by
    ext q
    rw [mem_userPages, mem_userPages, hentry]
  have hchild : tableSet mid.phys (trees mid) child = kernelTables := by
    rw [← hsp.memory.tables]
    apply tableSet_congr
    rw [hsp.trees_eq, withExtra_root]
  have hcount := hsp.memory.count
  have hcard := kernelTables_card
  constructor
  · rintro ⟨hframes, hgood⟩
    rw [hchild, htables, hpages] at hframes
    refine ⟨by omega, fun q hq hv => ?_⟩
    have := hgood q hq
    rw [hentry] at this
    exact this hv
  · rintro ⟨hframes, hgood⟩
    refine ⟨?_, fun q hq => ?_⟩
    · rw [hchild, htables, hpages]
      omega
    · rw [hentry]
      exact hgood q hq

end Copying

section Calls

theorem fork_returns (hs : Sound L st) (hst : Steady tf st) (hslot : freeSlot st ≠ none)
    (hfit : CopyFits st.phys (trees st) st.currentProc) :
    ∃ st', sysForkCall L tf st = .ok (tf, st') := by
  obtain ⟨i, hi⟩ := Option.ne_none_iff_exists'.mp hslot
  obtain ⟨child, mid, halloc⟩ := allocProc_returns (L := L) hs ⟨i, freeSlot_some hi⟩ hfit.seventy
  have ha := allocProc_result halloc
  obtain ⟨root, stack, hsp⟩ := ha.spawned hs
  obtain ⟨hu, hcur, hother⟩ := ha.of_some
  have hne : child ≠ st.currentProc := by
    rintro rfl
    exact hst.used hu
  have hmid := sound_allocProc hs ha
  have hused : (mid.processTable st.currentProc).state ≠ .unused := by
    rw [hother _ hne.symm]
    exact hst.used
  have hchild : (mid.processTable child).state ≠ .unused := by simp [hsp.process]
  have hcopy := vmmCopyUvm_meets (P := []) hne 2 rfl hmid.owned (hmid.root hused)
    (hmid.root hchild)
  obtain ⟨phys, hc⟩ := hcopy.returns ((hsp.budget_iff hs hne.symm).mpr hfit)
  have htf := hst.frame
  subst htf
  unfold sysForkCall
  rw [modifyProc_eq_self (f := fun p => { p with trapFrame := st.frameOf st.currentProc }) rfl]
  refine ⟨_, bind_eq_ok.mpr ⟨_, halloc, bind_eq_ok.mpr ⟨phys, ?_, rfl⟩⟩⟩
  simpa [KState.setA0, KState.setFrame, KState.modifyProc, KState.rootOf, hcur, hne.symm,
    hne] using hc

theorem forked_of_fits (hs : Sound L st) (hslot : freeSlot st ≠ none)
    (hfit : CopyFits st.phys (trees st) st.currentProc) (h : ForkCall L st st') :
    ∃ child mid phys, AllocProc L st (some child) mid ∧ child ≠ st.currentProc ∧
      vmmCopyUvm 2 (mid.rootOf st.currentProc) (mid.rootOf child) mid.phys = .ok phys ∧
      st' = forked st mid child phys := by
  cases h with
  | forked child mid phys ha hne hc => exact ⟨child, mid, phys, ha, hne, hc, rfl⟩
  | failed mid ha =>
    have hfree := hfit.seventy
    rcases ha.failed_frames hs with hfull | h0 | ⟨h69, -⟩
    · exact absurd (freeSlot_none.mpr hfull) hslot
    · omega
    · omega

theorem forked_frames {phys : Phys} (hs : Sound L st) (hst : Steady tf st)
    (ha : AllocProc L st (some child) mid) (hne : child ≠ st.currentProc)
    (hc : vmmCopyUvm 2 (mid.rootOf st.currentProc) (mid.rootOf child) mid.phys = .ok phys) :
    2 * freeFrames st.phys ≤ freeFrames phys + totalPages + 140 := by
  have hcopy : Copied L.protectedEnd (trees mid) st.currentProc child Low mid.phys phys :=
    ForkCall.copied hs hst ha hne hc
  have hfree := ha.frames hs
  have hcount := hcopy.grows.count
  have hunion := Finset.card_union_le (tableSet mid.phys (trees mid) child)
    (tablesIn mid.phys (trees mid) st.currentProc Low)
  rw [← hcopy.grows.tables] at hunion
  have hused := copy_card (R := Low) (i := st.currentProc) (sound_allocProc hs ha).owned
  have htotal := card_usedFrames mid.phys
  omega

end Calls

section Twins

/-- What a fork leaves when the parent's frame at the call was `f`: a child with the parent's
registers, files and heap and its own copies of the user pages, and nothing else changed. -/
structure Twin (L : Layout) (st : KState) (f : TrapFrame) (child : Slot) (st' : KState) :
    Prop where
  registers : ∃ stack, (st'.processTable child).kernelStack = some stack ∧
    st'.frameOf child = { f with a0 := 0, kernelSp := pageAddr stack + 4096 }
  files : (st'.processTable child).openFiles = st.current.openFiles
  heapBreak : (st'.processTable child).heapBreak = st.current.heapBreak
  heapMax : (st'.processTable child).heapMax = st.current.heapMax
  leaves : ∀ q : PageNo, q.number < 2 ^ 19 →
    (UserLeaf (entryOf st' child q) ↔ UserLeaf (entryOf st st.currentProc q))
  flags : ∀ q : PageNo, q.number < 2 ^ 19 → UserLeaf (entryOf st st.currentProc q) →
    entryOf st' child q &&& 0x3FF = entryOf st st.currentProc q &&& 0x3FF
  contents : ∀ q : PageNo, q.number < 2 ^ 19 → UserLeaf (entryOf st st.currentProc q) →
    st'.phys.mem (frame (pteToPa (entryOf st' child q))) =
      st.phys.mem (frame (pteToPa (entryOf st st.currentProc q)))
  own : ∀ (q : PageNo) (j : Slot) (q' : PageNo), UserLeaf (entryOf st' child q) →
    UserLeaf (entryOf st' j q') →
    frame (pteToPa (entryOf st' j q')) = frame (pteToPa (entryOf st' child q)) → j = child ∧ q' = q
  kernel : ∀ q w, kernelEntry L q = some w → entryOf st' child q = w
  parent : st'.processTable st.currentProc = { st.current with
    trapFrame := { f with a0 := (st'.processTable child).pid.signExtend 64 } }
  bystanders : ∀ j, j ≠ child → j ≠ st.currentProc → st'.processTable j = st.processTable j
  roles : ∀ r : Role Slot (Fin 512), r.owner ≠ child →
    held st'.phys (trees st') r = held st.phys (trees st) r
  entries : ∀ j, j ≠ child → ∀ q, entryOf st' j q = entryOf st j q
  memory : ∀ (r : Role Slot (Fin 512)) (n : ℕ), r.owner ≠ child →
    held st.phys (trees st) r = some n → st'.phys.mem n = st.phys.mem n

theorem low_bits {w w' : Word} (h : ∀ k < 10, w.getLsbD k = w'.getLsbD k) :
    w &&& 0x3FF = w' &&& 0x3FF := by
  apply BitVec.eq_of_getLsbD_eq
  intro k hk
  rw [BitVec.getLsbD_and, BitVec.getLsbD_and]
  by_cases hk' : k < 10
  · rw [h k hk']
  · have hmask : (0x3FF : Word).getLsbD k = false := by
      apply Nat.testBit_lt_two_pow
      have hpow : 2 ^ 10 ≤ 2 ^ k := Nat.pow_le_pow_right (by decide) (by omega)
      have h1023 : (0x3FF : Word).toNat < 2 ^ 10 := by decide
      omega
    rw [hmask, Bool.and_false, Bool.and_false]

theorem Sound.own_page (hs : Sound L st) {i j : Slot} {q q' : PageNo}
    (h : UserLeaf (entryOf st i q)) (h' : UserLeaf (entryOf st j q'))
    (heq : frame (pteToPa (entryOf st j q')) = frame (pteToPa (entryOf st i q))) :
    j = i ∧ q' = q := by
  have hi : held st.phys (trees st) (.node i q.leaf) = some (frame (pteToPa (entryOf st i q))) := by
    rw [held_leaf]
    exact decodePte_userLeaf h
  have hj : held st.phys (trees st) (.node j q'.leaf) =
      some (frame (pteToPa (entryOf st i q))) := by
    rw [held_leaf, ← heq]
    exact decodePte_userLeaf h'
  have hrole := hs.owned.distinct _ _ _ hj hi
  injection hrole with hij hqq
  exact ⟨hij, leaf_inj hqq⟩

theorem userLeaf_kernelEntry (q : PageNo) : ¬ UserLeaf ((kernelEntry L q).getD 0) := by
  intro h
  have hd := decodePte_userLeaf h
  rw [decode_kernelEntry] at hd
  cases hd

theorem devicePage_of_kernelEntry {q : PageNo} {w : Word} (h : kernelEntry L q = some w)
    (hlow : q.number < 2 ^ 19) : DevicePage q.number := by
  obtain ⟨flags, hf, -⟩ := Option.map_eq_some_iff.mp h
  rcases (kernelFlags_some hf).2 with hp | hu | ⟨hram, -⟩
  · exact Or.inl hp
  · exact Or.inr hu
  · simp only [textStart] at hram
    omega

/-- A page of the child is a copy of the parent's or the kernel's. -/
theorem child_entry {phys : Phys} (hs : Sound L st) (hst : Steady tf st)
    (ha : AllocProc L st (some child) mid) (hne : child ≠ st.currentProc)
    (hc : vmmCopyUvm 2 (mid.rootOf st.currentProc) (mid.rootOf child) mid.phys = .ok phys)
    (q : PageNo) :
    (q.number < 2 ^ 19 ∧ UserLeaf (entryOf st st.currentProc q) ∧
      ∃ n, n < 2 ^ 44 ∧ entryOf (forked st mid child phys) child q =
        copiedWord n (entryOf st st.currentProc q) ∧
        phys.mem n = st.phys.mem (frame (pteToPa (entryOf st st.currentProc q)))) ∨
    ((q.number < 2 ^ 19 → ¬ UserLeaf (entryOf st st.currentProc q)) ∧
      entryOf (forked st mid child phys) child q = (kernelEntry L q).getD 0) := by
  obtain ⟨root, stack, hsp⟩ := ha.spawned hs
  have hcopy := ForkCall.copied hs hst ha hne hc
  have htrees := @trees_forked _ _ _ _ phys _ _ hsp hne
  -- before the copy the parent's entries are as they were and the child's are the kernel's
  have hfirst : Confined child (trees st) st.phys (trees mid) mid.phys := by
    rw [hsp.trees_eq]
    exact hsp.memory.confined
  have hparent : entry mid.phys.mem ((trees mid).root st.currentProc) q =
      entryOf st st.currentProc q := hfirst.entry_other hs.owned hne.symm q
  have hempty : entry mid.phys.mem ((trees mid).root child) q = (kernelEntry L q).getD 0 := by
    rw [hsp.trees_eq, withExtra_root, withRoot_self]
    exact hsp.memory.entries q
  have hentry : entryOf (forked st mid child phys) child q =
      entry phys.mem ((trees mid).root child) q := by
    rw [entryOf, htrees]
    rfl
  by_cases hq : q.number < 2 ^ 19 ∧ UserLeaf (entryOf st st.currentProc q)
  · obtain ⟨hlow, hq⟩ := hq
    obtain ⟨n, -, hn, he, hm⟩ := hcopy.user q ((low_leaf q).mpr hlow) (by rwa [hparent])
    rw [hparent] at he hm
    have hram := (hcopy.grows.owned.inRam hn).2
    have hheld : held st.phys (trees st) (.node st.currentProc q.leaf) =
        some (frame (pteToPa (entryOf st st.currentProc q))) := by
      rw [held_leaf]
      exact decodePte_userLeaf hq
    left
    refine ⟨hlow, hq, n, ?_, hentry.trans he,
      hm.trans (hfirst.mem_other hs.owned (r := .node _ _) hne.symm hheld)⟩
    simp only [ramLast] at hram
    omega
  · have hrest : q.number < 2 ^ 19 → ¬ UserLeaf (entryOf st st.currentProc q) :=
      fun hlow hu => hq ⟨hlow, hu⟩
    right
    refine ⟨hrest, ?_⟩
    rw [hentry, hcopy.rest q fun hlow => by rw [hparent]; exact hrest ((low_leaf q).mp hlow),
      hempty]

theorem twin_forked {phys : Phys} (hs : Sound L st) (hst : Steady tf st)
    (ha : AllocProc L st (some child) mid) (hne : child ≠ st.currentProc)
    (hc : vmmCopyUvm 2 (mid.rootOf st.currentProc) (mid.rootOf child) mid.phys = .ok phys)
    (hclear : ∀ q : PageNo, DevicePage q.number → ¬ UserLeaf (entryOf st st.currentProc q)) :
    Twin L st (st.frameOf st.currentProc) child (forked st mid child phys) := by
  obtain ⟨root, stack, hsp⟩ := ha.spawned hs
  obtain ⟨hu, hcur, hother⟩ := ha.of_some
  have hwithin := within_forked hs hst ha hne hc
  have hsound : Sound L (forked st mid child phys) :=
    ForkCall.sound hs hst (.forked child mid phys ha hne hc)
  have hchild : (forked st mid child phys).processTable child =
      inherit st.current (st.frameOf st.currentProc) (mid.processTable child) := by
    rw [forked, modifyProc_self, KState.setA0, KState.setFrame, modifyProc_of_ne _ hne]
  have hentry := child_entry hs hst ha hne hc
  refine ⟨⟨stack, ?_, ?_⟩, ?_, ?_, ?_, ?_, ?_, ?_, ?_, ?_, ?_, ?_, ?_, ?_, ?_⟩
  · rw [hchild, hsp.process]
    rfl
  · rw [KState.frameOf, hchild, hsp.process]
    rfl
  · rw [hchild]
    rfl
  · rw [hchild]
    rfl
  · rw [hchild]
    rfl
  · intro q hlow
    rcases hentry q with ⟨-, hq, n, -, he, -⟩ | ⟨hq, he⟩
    · rw [he, userLeaf_copiedWord]
    · rw [he]
      exact iff_of_false (userLeaf_kernelEntry q) (hq hlow)
  · intro q hlow hu
    rcases hentry q with ⟨-, -, n, -, he, -⟩ | ⟨hq, -⟩
    · rw [he]
      exact low_bits fun k hk => getLsbD_copiedWord hk
    · exact absurd hu (hq hlow)
  · intro q hlow hu
    rcases hentry q with ⟨-, -, n, hn, he, hm⟩ | ⟨hq, -⟩
    · rw [he, frame_copiedWord hn]
      exact hm
    · exact absurd hu (hq hlow)
  · intro q j q' h h' heq
    exact hsound.own_page h h' heq
  · intro q w hw
    rcases hentry q with ⟨hlow, hu, -⟩ | ⟨-, he⟩
    · exact absurd hu (hclear q (devicePage_of_kernelEntry hw hlow))
    · rw [he, hw, Option.getD_some]
  · rw [hchild, forked, modifyProc_of_ne _ hne.symm, KState.setA0, KState.setFrame,
      modifyProc_self]
    simp only [inherit, hother _ hne.symm]
    rfl
  · intro j hj hj'
    rw [forked, modifyProc_of_ne _ hj, KState.setA0, KState.setFrame, modifyProc_of_ne _ hj']
    exact hother j hj
  · exact fun r hr => hwithin.others r hr
  · exact fun j hj q => hwithin.entry_other hs.owned hj q
  · exact fun r n hr hn => hwithin.mem_other hs.owned hr hn

end Twins

section Atomicity

/-- The call has made a child, and every frame that is in use now belongs to a process or was
already in use without one. -/
structure ForkDone (st : KState) (r : Slot × KState) : Prop where
  answer : Returns st ((BitVec.ofNat 32 st.nextPid).signExtend 64) r
  child : ∃ i, (st.processTable i).state = .unused ∧ (r.2.processTable i).state = .ready ∧
    (r.2.processTable i).pid = BitVec.ofNat 32 st.nextPid
  owned : ∀ f, InUse r.2.phys f → Unheld r.2.phys (trees r.2) f →
    InUse st.phys f ∧ Unheld st.phys (trees st) f

/-- The call has failed and left everything as it was. -/
structure ForkRefused (st : KState) (r : Slot × KState) : Prop where
  answer : ∃ w : Word, w.msb = true ∧ Returns st w r
  bitmap : r.2.phys.bitmap = st.phys.bitmap
  memory : r.2.phys.mem = st.phys.mem
  slots : ∀ i, (r.2.processTable i).state = (st.processTable i).state ∧
    (r.2.processTable i).pageTable = (st.processTable i).pageTable ∧
    (r.2.processTable i).kernelStack = (st.processTable i).kernelStack
  parent : r.2.current.openFiles = st.current.openFiles ∧
    r.2.current.heapBreak = st.current.heapBreak ∧ r.2.current.heapMax = st.current.heapMax

/-- No slot is free, or no frame is, or there are enough of both. -/
def ForkSettled (st : KState) : Prop :=
  freeSlot st = none ∨
  (freeFrames st.phys = 0 ∧
    ∀ i, freeSlot st = some i → (st.processTable i).pageTable = none) ∨
  (freeSlot st ≠ none ∧ CopyFits st.phys (trees st) st.currentProc)

theorem tight_forked {phys : Phys} (hs : Sound L st) (hst : Steady tf st)
    (ha : AllocProc L st (some child) mid) (hne : child ≠ st.currentProc)
    (hc : vmmCopyUvm 2 (mid.rootOf st.currentProc) (mid.rootOf child) mid.phys = .ok phys) :
    Tight child (trees st) st.phys (trees (forked st mid child phys)) phys := by
  obtain ⟨root, stack, hsp⟩ := ha.spawned hs
  obtain ⟨hr, he⟩ := trees_unused ha.of_some.1
  have h1 := hsp.memory.tight hr he
  rw [← hsp.trees_eq] at h1
  have hnone : ∀ q : PageNo, held mid.phys (trees mid) (.node child q.leaf) = none := by
    intro q
    rw [held_leaf, hsp.trees_eq, withExtra_root, withRoot_self, hsp.memory.entries,
      decode_kernelEntry]
  rw [trees_forked hsp hne]
  exact h1.trans ((ForkCall.copied hs hst ha hne hc).tight hnone)

theorem unheld_of_tight (hw : Within i st st')
    (ht : Tight i (trees st) st.phys (trees st') st'.phys) {f : ℕ} (hu : InUse st'.phys f)
    (hn : Unheld st'.phys (trees st') f) : InUse st.phys f ∧ Unheld st.phys (trees st) f := by
  obtain ⟨hold, hapart⟩ := ht f hu fun r _ => hn r
  refine ⟨hold, fun r hr => ?_⟩
  by_cases hi : r.owner = i
  · exact hapart r hi hr
  · exact hn r ((hw.others r hi).trans hr)

theorem forkDone_forked {phys : Phys} (hs : Sound L st) (hst : Steady tf st)
    (ha : AllocProc L st (some child) mid) (hne : child ≠ st.currentProc)
    (hc : vmmCopyUvm 2 (mid.rootOf st.currentProc) (mid.rootOf child) mid.phys = .ok phys) :
    ForkDone st (tf, forked st mid child phys) := by
  have hcoord := coord_forked phys ha hne
  refine ⟨returns_forked hst ha hne, ⟨child, ha.of_some.1, ?_, ?_⟩, ?_⟩
  · have hstate := congrFun (congrArg Coord.state hcoord) child
    exact hstate.trans (Function.update_self ..)
  · have hpid := congrFun (congrArg Coord.pid hcoord) child
    exact hpid.trans (Function.update_self ..)
  · intro f hu hn
    exact unheld_of_tight (within_forked hs hst ha hne hc) (tight_forked hs hst ha hne hc) hu hn

theorem forkRefused_of_slots (hst : Steady tf st) (hcur : mid.currentProc = st.currentProc)
    (hphys : mid.phys = st.phys)
    (hparent : mid.processTable st.currentProc = st.processTable st.currentProc)
    (hslots : ∀ i, (mid.processTable i).state = (st.processTable i).state ∧
      (mid.processTable i).pageTable = (st.processTable i).pageTable ∧
      (mid.processTable i).kernelStack = (st.processTable i).kernelStack) :
    ForkRefused st (tf, mid.setA0 tf eAgain) := by
  have hsame : ∀ i, ((mid.setA0 tf eAgain).processTable i).state = (mid.processTable i).state ∧
      ((mid.setA0 tf eAgain).processTable i).pageTable = (mid.processTable i).pageTable ∧
      ((mid.setA0 tf eAgain).processTable i).kernelStack = (mid.processTable i).kernelStack ∧
      ((mid.setA0 tf eAgain).processTable i).openFiles = (mid.processTable i).openFiles ∧
      ((mid.setA0 tf eAgain).processTable i).heapBreak = (mid.processTable i).heapBreak ∧
      ((mid.setA0 tf eAgain).processTable i).heapMax = (mid.processTable i).heapMax := by
    intro i
    by_cases hi : i = tf
    · subst hi
      simp [KState.setA0, KState.setFrame]
    · rw [setA0_of_ne _ hi]
      exact ⟨rfl, rfl, rfl, rfl, rfl, rfl⟩
  have hcur' : (mid.setA0 tf eAgain).currentProc = st.currentProc := hcur
  constructor
  · have hframe : mid.frameOf st.currentProc = st.frameOf st.currentProc := by
      rw [KState.frameOf, hparent]
      rfl
    exact ⟨eAgain, by decide, returns_answer hst hcur hframe eAgain⟩
  · exact congrArg Phys.bitmap hphys
  · exact congrArg Phys.mem hphys
  · intro i
    obtain ⟨h1, h2, h3, -⟩ := hsame i
    obtain ⟨h1', h2', h3'⟩ := hslots i
    exact ⟨h1.trans h1', h2.trans h2', h3.trans h3'⟩
  · obtain ⟨-, -, -, h1, h2, h3⟩ := hsame st.currentProc
    rw [hparent] at h1 h2 h3
    simp only [KState.current, hcur']
    exact ⟨h1, h2, h3⟩

theorem fork_call (h : allocProc L st = .ok (none, mid)) (hst : Steady tf st) :
    sysForkCall L tf st = .ok (tf, mid.setA0 tf eAgain) := by
  have htf := hst.frame
  subst htf
  unfold sysForkCall
  rw [modifyProc_eq_self (f := fun p => { p with trapFrame := st.frameOf st.currentProc }) rfl]
  exact bind_eq_ok.mpr ⟨_, h, rfl⟩

theorem fork_settled (hs : Sound L st) (hst : Steady tf st) (h : ForkSettled st) :
    ∃ r, sysForkCall L tf st = .ok r ∧ (ForkDone st r ∨ ForkRefused st r) := by
  rcases h with hfull | ⟨h0, hstale⟩ | ⟨hslot, hfit⟩
  · refine ⟨_, fork_call (allocProc_full hfull) hst, Or.inr ?_⟩
    exact forkRefused_of_slots hst rfl rfl rfl fun _ => ⟨rfl, rfl, rfl⟩
  · cases hfree : freeSlot st with
    | none =>
      refine ⟨_, fork_call (allocProc_full hfree) hst, Or.inr ?_⟩
      exact forkRefused_of_slots hst rfl rfl rfl fun _ => ⟨rfl, rfl, rfl⟩
    | some i =>
      have hu := freeSlot_some hfree
      have hne : st.currentProc ≠ i := by
        rintro rfl
        exact hst.used hu
      refine ⟨_, fork_call (allocProc_noRoot hfree h0) hst, Or.inr ?_⟩
      refine forkRefused_of_slots hst ?_ ?_ ?_ ?_
      · rfl
      · rfl
      · exact modifyProc_of_ne _ hne _
      · intro j
        by_cases hj : j = i
        · subst hj
          rw [modifyProc_self]
          exact ⟨hu.symm, (hstale j hfree).symm, rfl⟩
        · rw [modifyProc_of_ne _ hj]
          exact ⟨rfl, rfl, rfl⟩
  · obtain ⟨st', hret⟩ := fork_returns (L := L) hs hst hslot hfit
    obtain ⟨-, hcall⟩ := sysForkCall_result hst.frame hst.running hret
    obtain ⟨child, mid, phys, ha, hne, hc, rfl⟩ := forked_of_fits hs hslot hfit hcall
    exact ⟨_, hret, Or.inl (forkDone_forked hs hst ha hne hc)⟩

end Atomicity

section Traps

theorem syscall_fork (h7 : (st.frameOf tf).a7 = sysFork) :
    syscall L input tf st = sysForkCall L tf st := by
  unfold syscall
  dsimp only
  rw [h7, if_neg (by decide), if_neg (by decide), if_pos rfl]

theorem Settled.called (h : Settled L st) (regs : TrapFrame) :
    Sound L (entered (saveFrame regs st)) ∧ Steady st.sscratch (entered (saveFrame regs st)) := by
  have hst : Steady st.sscratch (saveFrame regs st) := (calm_saveFrame regs st).steady h.steady
  have hs : Sound L (saveFrame regs st) := (benign_saveFrame regs st).sound h.sound
  have hst' : Steady (saveFrame regs st).currentProc (saveFrame regs st) := hst.frame ▸ hst
  exact ⟨(acts_entered hst').sound hs, (calm_entered _).steady hst⟩

theorem benign_called (regs : TrapFrame) (st : KState) :
    Benign st (entered (saveFrame regs st)) := by
  refine (benign_saveFrame regs st).trans ((benign_setFrame (saveFrame regs st)
    (saveFrame regs st).currentProc fun f => { f with sepc := f.sepc + 4 }).trans ?_)
  exact benign_same rfl rfl

theorem trees_entered (regs : TrapFrame) (st : KState) :
    trees (entered (saveFrame regs st)) = trees st := (benign_called regs st).trees_eq

theorem process_entered (hst : Steady st.sscratch st) (regs : TrapFrame) (j : Slot) :
    ∃ f, (entered (saveFrame regs st)).processTable j =
      { st.processTable j with trapFrame := f } ∧
      (j ≠ st.currentProc → f = (st.processTable j).trapFrame) := by
  by_cases hj : j = st.currentProc
  · subst hj
    refine ⟨(entered (saveFrame regs st)).frameOf st.currentProc, ?_, fun h => absurd rfl h⟩
    simp [entered, saveFrame, KState.setFrame, KState.modifyProc, KState.frameOf, hst.frame]
  · refine ⟨(st.processTable j).trapFrame, ?_, fun _ => rfl⟩
    have hj' : j ≠ st.sscratch := hst.frame ▸ hj
    simp [entered, saveFrame, KState.setFrame, KState.modifyProc, hj, hj']

theorem current_entered (hst : Steady st.sscratch st) (regs : TrapFrame) :
    ∃ f, (entered (saveFrame regs st)).current = { st.current with trapFrame := f } := by
  obtain ⟨f, hp, -⟩ := process_entered hst regs st.currentProc
  exact ⟨f, hp⟩

theorem entered_other (hst : Steady st.sscratch st) (regs : TrapFrame) {j : Slot}
    (hj : j ≠ st.currentProc) :
    (entered (saveFrame regs st)).processTable j = st.processTable j := by
  obtain ⟨f, hp, hsame⟩ := process_entered hst regs j
  rw [hp, hsame hj]

theorem fork_step (hset : Settled L st) (h8 : regs.scause = 8) (h7 : regs.a7 = sysFork)
    (hslot : freeSlot st ≠ none) (hfit : CopyFits st.phys (trees st) st.currentProc) :
    ∃ child mid phys, AllocProc L (entered (saveFrame regs st)) (some child) mid ∧
      child ≠ st.currentProc ∧
      vmmCopyUvm 2 (mid.rootOf st.currentProc) (mid.rootOf child) mid.phys = .ok phys ∧
      takeTrap L regs input st =
        .ok (resume st.sscratch (forked (entered (saveFrame regs st)) mid child phys)) := by
  obtain ⟨hs, hst⟩ := hset.called regs
  have hcall : ((entered (saveFrame regs st)).frameOf st.sscratch).a7 = sysFork := by
    rw [frameOf_entered hset.steady]
    exact h7
  have hslot' : freeSlot (entered (saveFrame regs st)) ≠ none := by
    unfold freeSlot at hslot ⊢
    simp only [pid_entered]
    exact hslot
  have hfit' : CopyFits (entered (saveFrame regs st)).phys (trees (entered (saveFrame regs st)))
      (entered (saveFrame regs st)).currentProc := by
    rw [trees_entered]
    exact hfit
  obtain ⟨st', hret⟩ := fork_returns (L := L) hs hst hslot' hfit'
  obtain ⟨-, hfork⟩ := sysForkCall_result hst.frame hst.running hret
  obtain ⟨child, mid, phys, ha, hne, hc, rfl⟩ := forked_of_fits hs hslot' hfit' hfork
  refine ⟨child, mid, phys, ha, hne, hc, ?_⟩
  rw [takeTrap, trapHandler_ecall hset.steady h8, syscall_fork hcall, hret]
  rfl

theorem Twin.resumed {f : TrapFrame} (hst : Steady st.sscratch st)
    (h : Twin L (entered (saveFrame regs st)) f child st') :
    Twin L st f child (resume tf st') := by
  have htrees := trees_entered regs st
  have hentry : ∀ i q, entryOf (entered (saveFrame regs st)) i q = entryOf st i q := by
    intro i q
    rw [entryOf, htrees]
    rfl
  obtain ⟨g, hcur⟩ := current_entered hst regs
  obtain ⟨hregs, hfiles, hbreak, hmax, hleaves, hflags, hcontents, hown, hkernel, hparent, hby,
    hroles, hentries, hmemory⟩ := h
  have hcp : (entered (saveFrame regs st)).currentProc = st.currentProc := rfl
  rw [hcur] at hfiles hbreak hmax hparent
  simp only [hentry, hcp, htrees] at hleaves hflags hcontents hentries hroles hmemory hparent hby
  refine ⟨hregs, hfiles, hbreak, hmax, hleaves, hflags, hcontents, hown, hkernel, hparent, ?_,
    hroles, hentries, hmemory⟩
  intro j hj hj'
  have hrecord := hby j hj hj'
  rw [entered_other hst regs hj'] at hrecord
  exact hrecord

theorem fork_twin (hset : Settled L st) (h8 : regs.scause = 8) (h7 : regs.a7 = sysFork)
    (hslot : freeSlot st ≠ none) (hfit : CopyFits st.phys (trees st) st.currentProc)
    (hclear : ∀ q : PageNo, DevicePage q.number → ¬ UserLeaf (entryOf st st.currentProc q)) :
    ∃ child st' f, takeTrap L regs input st = .ok st' ∧ child ≠ st.currentProc ∧
      (st.processTable child).state = .unused ∧ (st'.processTable child).state = .ready ∧
      Twin L st f child st' := by
  obtain ⟨child, mid, phys, ha, hne, hc, hret⟩ := fork_step hset h8 h7 hslot hfit
  obtain ⟨hs, hst⟩ := hset.called regs
  have htwin := twin_forked hs hst ha hne hc (by
    intro q hq
    rw [entryOf, trees_entered]
    exact hclear q hq)
  refine ⟨child, _, _, hret, hne, ?_, ?_, htwin.resumed hset.steady⟩
  · rw [← (pid_entered regs st child).2.2]
    exact ha.of_some.1
  · have hstate := congrFun (congrArg Coord.state (coord_forked phys ha hne)) child
    exact hstate.trans (Function.update_self ..)

def forkCall : TrapFrame := { TrapFrame.zero with scause := 8, a7 := sysFork }

theorem booted_slot (h : kmain L ram = .ok st) : freeSlot st ≠ none := by
  intro hnone
  have hne : ∃ i, i ≠ st.currentProc := by
    by_cases h0 : st.currentProc = 0
    · exact ⟨1, by rw [h0]; decide⟩
    · exact ⟨0, fun h => h0 h.symm⟩
  obtain ⟨i, hi⟩ := hne
  exact freeSlot_none.mp hnone i (booted_alone h hi)

/-- The first process of a small image can fork. -/
theorem InitImage.forks (img : InitImage smallLayout ram)
    (hpl : ∀ x ∈ img.placements, isLeaf x.flags)
    (h : kmain smallLayout ram = .ok st) :
    freeSlot st ≠ none ∧ 32110 ≤ freeFrames st.phys + 3 * img.placements.length ∧
      ∀ q, hasFlag (entryOf st st.currentProc q) pteV → isLeaf (entryOf st st.currentProc q) := by
  obtain ⟨elf, phoff, phnum, start, pl, maxEnd, -, hinst, -, himg⟩ := installed h
  obtain ⟨rfl, -, -⟩ := himg img
  exact ⟨booted_slot h, hinst.small_frames, fun q hv => hinst.accessible hpl hv⟩

theorem small_fits (h : kmain smallLayout smallRam = .ok st) :
    freeSlot st ≠ none ∧ 32110 ≤ freeFrames st.phys ∧
      ∀ q, hasFlag (entryOf st st.currentProc q) pteV → isLeaf (entryOf st st.currentProc q) := by
  obtain ⟨hslot, hfree, haccess⟩ := smallImage.forks (fun x hx => by cases hx) h
  have hnone : smallImage.placements.length = 0 := rfl
  exact ⟨hslot, by omega, haccess⟩

theorem self_forks (h : kmain smallLayout selfRam = .ok st) : freeSlot st ≠ none ∧
    CopyFits st.phys (trees st) st.currentProc ∧
    ∀ q : PageNo, DevicePage q.number → ¬ UserLeaf (entryOf st st.currentProc q) := by
  have hset := reachable_settled (.boot st h)
  have hleaf : ∀ x ∈ selfImage.placements, isLeaf x.flags := by
    intro x hx
    obtain rfl := List.mem_singleton.mp hx
    decide
  obtain ⟨hslot, hfree, haccess⟩ := selfImage.forks hleaf h
  have hone : selfImage.placements.length = 1 := rfl
  have hfit := CopyFits.of_free hset.sound.owned
    (le_trans (by decide)
      (Nat.mul_le_mul_left 2 (show 32107 ≤ freeFrames st.phys by omega))) haccess
  refine ⟨hslot, hfit, fun q hq => ?_⟩
  obtain ⟨elf, phoff, phnum, start, pl, maxEnd, -, hinst, -, himg⟩ := installed h
  obtain ⟨rfl, -, -⟩ := himg selfImage
  rcases hinst.entry_cases q with hk | ⟨n, flags, -, ⟨rfl, -⟩ | ⟨x, hx, rfl, -⟩⟩
  · rw [hk]
    exact userLeaf_kernelEntry q
  · exact absurd hq (by decide)
  · obtain rfl := List.mem_singleton.mp hx
    exact absurd hq (by decide)

/-- A kernel image that leaves 200 frames of RAM. -/
def tightLayout : Layout := pageLayout 0x87F36 (by decide)

end Traps

end Lazux
