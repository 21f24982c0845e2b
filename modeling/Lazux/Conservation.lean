import Lazux.Lifetime
import Lazux.Resume
import Mathlib.Algebra.BigOperators.Group.Finset.Basic

/-! # Where the frames are

Every frame is free, or some process has it, or it is the kernel's own. Over a whole run the three
kinds always make up all of RAM, so no order of forks, execs, heap growths, exits and waits uses
memory up. -/
namespace Lazux

open PagedMemory RadixForest Run

variable {L : Layout} {ram : Memory} {st st' mid : KState} {tf i : Slot} {regs : TrapFrame}
  {input : Input} {f : ℕ}

section Steps

theorem LaidOut.off_stack {elf : Addr → Except Stop Byte} {phoff phnum start : ℕ}
    {pl : List Placement} {maxEnd : Addr} (h : LaidOut elf)
    (hp : Plan elf phoff phnum start pl maxEnd) : ∀ x ∈ pl, x.page ≠ pageNo userStackBase := by
  intro x hx he
  obtain ⟨hend, hpages⟩ := h.low hp
  have hlow := hpages x hx
  have hnum : (pageNo userStackBase).number = 0x3FFFF := by
    rw [number_pageNo]
    decide
  rw [he, hnum] at hlow
  omega

/-- A frame in use that is no process's. -/
def Unowned (st : KState) (f : ℕ) : Prop := InUse st.phys f ∧ Unheld st.phys (trees st) f

theorem unheld_tight {ι : Type*} {H H' : Forest ι} {p p' : Phys} {i : ι}
    (hc : Confined i H p H' p') (ht : Tight i H p H' p') :
    InUse p' f ∧ Unheld p' H' f ↔ InUse p f ∧ Unheld p H f := by
  constructor
  · rintro ⟨hu, hn⟩
    obtain ⟨hold, hapart⟩ := ht f hu fun r _ => hn r
    refine ⟨hold, fun r hr => ?_⟩
    by_cases hi : r.owner = i
    · exact hapart r hi hr
    · exact hn r ((hc.others r hi).trans hr)
  · rintro ⟨hu, hn⟩
    obtain ⟨hu', -, hn'⟩ := hc.unheld hu hn
    exact ⟨hu', hn'⟩

theorem unowned_iff (hw : Within i st st') (ht : Tight i (trees st) st.phys (trees st') st'.phys) :
    Unowned st' f ↔ Unowned st f := unheld_tight hw ht

theorem unowned_same (ht : trees st' = trees st) (hp : UserWrites (trees st) st.phys st'.phys) :
    Unowned st' f ↔ Unowned st f := by
  unfold Unowned Unheld
  rw [ht, hp.held_eq, hp.inUse_iff]

theorem Plain.unowned (h : Plain st st') : Unowned st' f ↔ Unowned st f :=
  unowned_same h.trees_eq h.writes

/-- A process is not made with some of its frames: this takes exactly 69 free frames. -/
theorem AllocProc.unowned (hs : Sound L st) (h : AllocProc L st none mid)
    (hroom : freeSlot st = none ∨ freeFrames st.phys ≠ 69) : Unowned mid f ↔ Unowned st f := by
  have htrees := trees_allocProc_none h
  cases h with
  | full hu => exact unowned_same htrees (.refl _)
  | noRoot k hu ha => exact unowned_same htrees (.refl _)
  | noStack k hu root p1 p2 ha hk hb =>
    exfalso
    have htree := (kernelTree (L := L) hs.owned (trees_unused hu).1 ha).ensures p2 hk
    have hcount := htree.count
    have h0 : freeFrames p2 = 0 := pmmAllocPage_none.mp (by rw [hb])
    rcases hroom with hfull | h69
    · exact freeSlot_none.mp hfull k hu
    · omega

/-- No call loses a frame or finds one again, as long as a fork has its frames, images are laid out
as they should be and the stack gets its page. -/
theorem Footprint.unowned (h : Footprint L st mid) (hs : Sound L st)
    (hst : Steady st.currentProc st)
    (hopen : HeapOpen st st.currentProc)
    (hfork : st.a7 = sysFork → freeSlot st = none ∨ freeFrames st.phys ≠ 69)
    (hexec : st.a7 = sysExec → ∀ elf newPt start pl maxEnd, ExecFile L st.currentProc st elf →
      Replaced L st mid newPt start pl maxEnd →
      LaidOut elf ∧ UserLeaf (entryOf mid st.currentProc (pageNo userStackBase))) :
    Unowned mid f ↔ Unowned st f := by
  cases h with
  | same => exact Iff.rfl
  | filed fd file =>
    have hb := benign_setFile st fd file
    exact unowned_same hb.trees_eq hb.phys
  | grown ok phys h7 hg =>
    apply unowned_iff (within_grown hs hst hg)
    rw [trees_grown, phys_grown]
    exact hg.tight hs hst hopen
  | refused _ h7 ha => exact ha.unowned hs (hfork h7)
  | forked child m phys h7 ha hne hc =>
    exact unowned_iff (within_forked hs hst ha hne hc) (tight_forked hs hst ha hne hc)
  | execed _ newPt start pl maxEnd elf phoff phnum h7 hf hp hr =>
    obtain ⟨hlaid, hstack⟩ := hexec h7 elf newPt start pl maxEnd hf hr
    exact unowned_iff (hr.within hs hst)
      (hr.tight hs hst (hlaid.laid hp) (hlaid.off_stack hp) hstack)
  | reaped k hz =>
    have hu : (st.processTable k).state ≠ .unused := by
      rw [(zombieKid_some hz).2]
      decide
    apply unowned_iff (within_freeProc hs hu)
    intro g hg _
    exact ((freeProc_released hs hu).2.1 g).mp hg

end Steps

section Counts

variable {ι : Type*} {H : Forest ι} {p : Phys} {lo : ℕ} {i : ι}

/-- The frames of a tree: its tables and pages, and its extra frame. -/
noncomputable def framesOf (p : Phys) (H : Forest ι) (i : ι) : Finset ℕ := by
  classical
  exact (usedFrames p).filter fun f => ¬ Apart p H i f

theorem Owned.mem_framesOf (h : Owned lo H p) : f ∈ framesOf p H i ↔
    ∃ r : Role ι (Fin 512), r.owner = i ∧ held p H r = some f := by
  classical
  rw [framesOf, Finset.mem_filter, mem_usedFrames]
  constructor
  · rintro ⟨-, hf⟩
    unfold Apart at hf
    push Not at hf
    exact hf
  · rintro ⟨r, hr, hf⟩
    exact ⟨(h.inUse r f hf).1, fun ha => ha r hr hf⟩

/-- Every frame is free, some tree's, or nobody's. -/
theorem Owned.card_frames [Fintype ι] (h : Owned lo H p) {S : Finset ℕ}
    (hS : ∀ f, f ∈ S ↔ InUse p f ∧ Unheld p H f) :
    freeFrames p + ∑ i, (framesOf p H i).card + S.card = totalPages := by
  classical
  have hdisj : ∀ i ∈ Finset.univ, ∀ j ∈ Finset.univ, i ≠ j →
      Disjoint (framesOf p H i) (framesOf p H j) := by
    intro i _ j _ hij
    rw [Finset.disjoint_left]
    intro f hi hj
    obtain ⟨r, hr, hf⟩ := h.mem_framesOf.mp hi
    obtain ⟨r', hr', hf'⟩ := h.mem_framesOf.mp hj
    have hsame := h.distinct _ _ _ hf hf'
    exact hij (hr.symm.trans (hsame ▸ hr'))
  have hunion : Finset.univ.biUnion (framesOf p H) ∪ S = usedFrames p := by
    ext f
    rw [Finset.mem_union, Finset.mem_biUnion, hS, mem_usedFrames]
    constructor
    · rintro (⟨i, -, hf⟩ | ⟨hu, -⟩)
      · obtain ⟨r, -, hr⟩ := h.mem_framesOf.mp hf
        exact (h.inUse r f hr).1
      · exact hu
    · intro hu
      by_cases hn : Unheld p H f
      · exact Or.inr ⟨hu, hn⟩
      · unfold Unheld at hn
        push Not at hn
        obtain ⟨r, hr⟩ := hn
        exact Or.inl ⟨r.owner, Finset.mem_univ _, h.mem_framesOf.mpr ⟨r, rfl, hr⟩⟩
  have hsep : Disjoint (Finset.univ.biUnion (framesOf p H)) S := by
    rw [Finset.disjoint_left]
    intro f hf hn
    obtain ⟨i, -, hi⟩ := Finset.mem_biUnion.mp hf
    obtain ⟨r, -, hr⟩ := h.mem_framesOf.mp hi
    exact ((hS f).mp hn).2 r hr
  have hcard := card_usedFrames p
  rw [← hunion, Finset.card_union_of_disjoint hsep, Finset.card_biUnion hdisj] at hcard
  omega

/-- What a tree has frames for: its root, its extra frame, its other tables and its pages. -/
noncomputable def treeRoles (p : Phys) (H : Forest ι) (i : ι) : Finset (Role ι (Fin 512)) := by
  classical
  exact {.extra i, .node i []} ∪ ((tableSet p H i).image (.node i) ∪
    (userPages p H i fun _ => True).image fun q => .node i q.leaf)

theorem mem_treeRoles (he : H.extra i ≠ none) (hr : H.root i ≠ none)
    {r : Role ι (Fin 512)} : r ∈ treeRoles p H i ↔ r.owner = i ∧ held p H r ≠ none := by
  classical
  have hmem : r ∈ treeRoles p H i ↔ (r = .extra i ∨ r = .node i []) ∨
      (∃ path ∈ tableSet p H i, .node i path = r) ∨
      ∃ q ∈ userPages p H i fun _ => True, .node i q.leaf = r := by
    simp only [treeRoles, Finset.mem_union, Finset.mem_insert, Finset.mem_singleton,
      Finset.mem_image]
  rw [hmem]
  constructor
  · rintro ((rfl | rfl) | ⟨path, hp, rfl⟩ | ⟨q, hq, rfl⟩)
    · exact ⟨rfl, he⟩
    · exact ⟨rfl, hr⟩
    · exact ⟨rfl, (mem_tableSet.mp hp).2⟩
    · refine ⟨rfl, ?_⟩
      rw [held_leaf]
      exact userLeaf_iff.mp (mem_userPages.mp hq).2
  · rintro ⟨hi, hne⟩
    match r, hi, hne with
    | .extra j, rfl, _ => exact Or.inl (Or.inl rfl)
    | .node j [], rfl, _ => exact Or.inl (Or.inr rfl)
    | .node j [a], rfl, hne =>
      exact Or.inr (Or.inl ⟨_, mem_tableSet.mpr ⟨Or.inl rfl, hne⟩, rfl⟩)
    | .node j [a, b], rfl, hne =>
      exact Or.inr (Or.inl ⟨_, mem_tableSet.mpr ⟨Or.inr rfl, hne⟩, rfl⟩)
    | .node j [c, b, a], rfl, hne =>
      refine Or.inr (Or.inr ⟨(a, b, c), mem_userPages.mpr ⟨trivial, ?_⟩, rfl⟩)
      rw [userLeaf_iff, ← held_leaf]
      exact hne
    | .node j (d :: c :: b :: a :: rest), rfl, hne =>
      exfalso
      apply hne
      rw [held_cons]
      cases held p H (.node j (c :: b :: a :: rest)) with
      | none => rfl
      | some g => exact decodePte_deep (by simp) _

theorem card_treeRoles : (treeRoles p H i).card =
    (tableSet p H i).card + (userPages p H i fun _ => True).card + 2 := by
  classical
  have hlen : ∀ path ∈ tableSet p H i, path.length = 1 ∨ path.length = 2 := fun path hp =>
    (mem_tableSet.mp hp).1
  have hleaf : Function.Injective fun q : PageNo => (.node i q.leaf : Role ι (Fin 512)) := by
    rintro ⟨a, b, c⟩ ⟨a', b', c'⟩ hq
    simpa [PageNo.leaf, and_comm, and_assoc] using hq
  have hnode : Function.Injective fun path => (.node i path : Role ι (Fin 512)) := by
    intro path path' hp
    simpa using hp
  rw [treeRoles, Finset.card_union_of_disjoint, Finset.card_union_of_disjoint,
    Finset.card_image_of_injective _ hnode, Finset.card_image_of_injective _ hleaf,
    Finset.card_pair]
  · omega
  · simp
  · rw [Finset.disjoint_left]
    intro r hr hr'
    obtain ⟨path, hp, rfl⟩ := Finset.mem_image.mp hr
    obtain ⟨q, -, hq⟩ := Finset.mem_image.mp hr'
    have := hlen path hp
    rw [← hnode hq] at this
    simp [PageNo.leaf] at this
  · rw [Finset.disjoint_left]
    intro r hr hr'
    simp only [Finset.mem_insert, Finset.mem_singleton] at hr
    rcases Finset.mem_union.mp hr' with hr' | hr'
    · obtain ⟨path, hp, hpath⟩ := Finset.mem_image.mp hr'
      have := hlen path hp
      rcases hr with rfl | rfl
      · cases hpath
      · rw [hnode hpath] at this
        simp at this
    · obtain ⟨q, -, hq⟩ := Finset.mem_image.mp hr'
      rcases hr with rfl | rfl
      · cases hq
      · simp [PageNo.leaf] at hq

theorem Owned.card_framesOf (h : Owned lo H p) (he : H.extra i ≠ none) (hr : H.root i ≠ none) :
    (framesOf p H i).card =
      (tableSet p H i).card + (userPages p H i fun _ => True).card + 2 := by
  have hheld : ∀ r ∈ treeRoles p H i, held p H r = some ((held p H r).getD 0) := by
    intro r hmem
    obtain ⟨f, hf⟩ := Option.ne_none_iff_exists'.mp ((mem_treeRoles he hr).mp hmem).2
    rw [hf, Option.getD_some]
  rw [← card_treeRoles]
  symm
  apply Finset.card_bij fun r _ => (held p H r).getD 0
  · intro r hmem
    exact h.mem_framesOf.mpr ⟨r, ((mem_treeRoles he hr).mp hmem).1, hheld r hmem⟩
  · intro a ha b hb hab
    have h2 := hheld b hb
    rw [← hab] at h2
    exact h.distinct _ _ _ (hheld a ha) h2
  · intro f hf
    obtain ⟨r, hi, hr'⟩ := h.mem_framesOf.mp hf
    refine ⟨r, (mem_treeRoles he hr).mpr ⟨hi, ?_⟩, ?_⟩
    · rw [hr']
      exact Option.some_ne_none f
    · rw [hr', Option.getD_some]

theorem framesOf_none (he : H.extra i = none) (hr : H.root i = none) : framesOf p H i = ∅ := by
  classical
  rw [framesOf, Finset.filter_eq_empty_iff]
  intro f _ hf
  exact hf (apart_of_none hr he f)

end Counts

section Supplies

/-- The states a run comes to in which every fork with a slot gets its frames or none at all, images
are laid out as they should be, and each gets the frames it asks for. -/
inductive Supplied (L : Layout) (ram : Memory) : KState → Prop where
  | boot (s : KState) (h : kmain L ram = .ok s) (hfile : ∀ elf, BootFile L ram elf → LaidOut elf)
      (hstack : UserLeaf (entryOf s s.currentProc (pageNo userStackBase))) : Supplied L ram s
  | store {st st' : KState} {va : Addr} {b : Byte} (h : Supplied L ram st)
      (hs : Step L st (.store va b) st') : Supplied L ram st'
  | trap {st st' : KState} {regs : TrapFrame} {input : Input} (h : Supplied L ram st)
      (hs : Step L st (.trap regs input) st')
      (hfork : regs.scause = 8 → regs.a7 = sysFork →
        freeSlot st = none ∨ freeFrames st.phys ≠ 69)
      (hexec : regs.scause = 8 → regs.a7 = sysExec → ∀ elf,
        ExecFile L st.currentProc (entered (saveFrame regs st)) elf →
          LaidOut elf ∧ StackFits elf st.phys) :
      Supplied L ram st'

theorem Supplied.conducted (h : Supplied L ram st) : Conducted L ram laidOut st := by
  induction h with
  | boot s h hfile hstack => exact .boot s h hfile
  | store _ hs ih => exact .store ih hs
  | trap _ hs _ hexec ih =>
    exact .trap ih hs (fun h8 h7 elf hf => (hexec h8 h7 elf hf).1) fun _ _ => trivial

theorem trap_unowned (hc : Conducted L ram laidOut st) (hs : Step L st (.trap regs input) st')
    (hfork : regs.scause = 8 → regs.a7 = sysFork → freeSlot st = none ∨ freeFrames st.phys ≠ 69)
    (hexec : regs.scause = 8 → regs.a7 = sysExec → ∀ elf,
      ExecFile L st.currentProc (entered (saveFrame regs st)) elf →
        LaidOut elf ∧ StackFits elf st.phys) : Unowned st' f ↔ Unowned st f := by
  have hset := reachable_settled hc.reachable
  have ht : takeTrap L regs input st = .ok st' := by
    cases hs with
    | trap _ _ _ hd ht => exact ht
  have htrap : Trapped L laidOut st regs st' := hs.trapped hset
    (fun h8 h7 elf hf => (hexec h8 h7 elf hf).1) fun _ _ => trivial
  cases htrap with
  | other h8 hplain => exact hplain.unowned
  | call mid h8 hsound hst hfoot hplain hfile hgrow =>
    have hcalled := plain_called regs st
    have ha7 : (entered (saveFrame regs st)).a7 = regs.a7 := KState.a7_entered hset.steady regs
    have hslot : freeSlot (entered (saveFrame regs st)) = freeSlot st := by
      unfold freeSlot
      simp only [pid_entered]
    rw [hplain.unowned, ← hcalled.unowned]
    apply hfoot.unowned hsound hst
    · exact (conducted_open hc _ hset.steady.used).plain hcalled
    · rw [ha7, hslot]
      exact hfork h8
    · intro h7 elf newPt start pl maxEnd hf hr
      have hcall := ha7.symm.trans h7
      have hcur : (entered (saveFrame regs st)).currentProc = st.currentProc := rfl
      rw [hcur] at hf ⊢
      obtain ⟨hlaid, hroom⟩ := hexec h8 hcall elf hf
      exact ⟨hlaid, stack_of_room hc.reachable h8 hcall ht hplain hf hr hroom⟩

/-- At boot the kernel has taken 69 frames for a page table of its own. -/
theorem unowned_boot (h : kmain L ram = .ok st) (hfile : ∀ elf, BootFile L ram elf → LaidOut elf)
    (hstack : UserLeaf (entryOf st st.currentProc (pageNo userStackBase))) :
    ∃ S : Finset ℕ, (∀ f, f ∈ S ↔ Unowned st f) ∧
      totalPages + 69 = ramLast - L.protectedEnd + S.card := by
  classical
  have hr : Reachable L ram st := .boot st h
  have hset := reachable_settled hr
  obtain ⟨elf, phoff, phnum, start, pl, maxEnd, hplan, hinst, hf, -⟩ := installed h
  obtain ⟨p0, p1, page, ho, hentries, htables, hcount, hreal, hplaced⟩ := hinst.memory
  have hlaid := hfile elf hf
  set H := trees st with hH
  set i := st.currentProc with hi
  have hu : (st.processTable i).state ≠ .unused := hset.steady.used
  have hno : ∀ q : PageNo, held p0 H (.node i q.leaf) = none := by
    intro q
    rw [held_leaf, hentries, decode_kernelEntry]
  have hpages : (userPages p0 H i fun _ => True) = ∅ := by
    apply Finset.eq_empty_of_forall_notMem
    intro q hq
    have huser := userLeaf_iff.mp (mem_userPages.mp hq).2
    rw [← held_leaf, hno] at huser
    exact huser rfl
  have hextra : H.extra i ≠ none := by
    obtain ⟨stack, hstack, -⟩ := (reachable_inUser hr).stack i hu
    have he : H.extra i = (st.processTable i).kernelStack := if_neg hu
    rw [he, hstack]
    exact Option.some_ne_none stack
  have hroot : H.root i ≠ none := by
    have he : H.root i = (st.processTable i).pageTable := if_neg hu
    rw [he]
    exact hset.sound.table i hu
  have hone : (framesOf p0 H i).card = 70 := by
    rw [ho.card_framesOf hextra hroot, htables, kernelTables_card, hpages]
    rfl
  have hrest : ∀ j, j ≠ i → framesOf p0 H j = ∅ := by
    intro j hj
    obtain ⟨hroot, he⟩ := trees_unused (booted_alone h hj)
    exact framesOf_none he hroot
  have hflags := planSegments_userFlags hplan.segments
  have hlast : Tight i H p1 H st.phys := by
    have hclear : held p1 H (.node i (pageNo userStackBase).leaf) = none := by
      rw [held_leaf, hreal.absent _ (lastAt_none.mpr (hlaid.off_stack hplan)), ← held_leaf, hno]
    cases hplaced with
    | mapped hp hfill =>
      have hsize : page < 2 ^ 44 := by
        have hram := hfill.inUse.1.2
        simp only [ramLast] at hram
        omega
      exact hp.tight_page userFlags_heap (by decide) hsize hfill.fresh hclear
    | lost T hT hp =>
      have huser := userLeaf_iff.mp hstack
      rw [entryOf, ← hH, hp.entries, Option.getD_none, ← held_leaf, hclear] at huser
      exact absurd rfl huser
  have hwell := hlaid.laid hplan
  have htight : Tight i H p0 H st.phys :=
    (hreal.tight hflags hwell.accessible hwell.once fun x _ => hno x.page).trans hlast
  have hconf : Confined i H p0 H st.phys := (hreal.confined hflags).trans hplaced.confined
  refine ⟨(usedFrames p0).filter fun f => Unheld p0 H f, fun f => ?_, ?_⟩
  · rw [Finset.mem_filter, mem_usedFrames]
    exact (unheld_tight hconf htight).symm
  · have hall := ho.card_frames (S := (usedFrames p0).filter fun f => Unheld p0 H f) fun f => by
      rw [Finset.mem_filter, mem_usedFrames]
    rw [Finset.sum_eq_single i (fun j _ hj => by rw [hrest j hj, Finset.card_empty])
      (fun hout => absurd (Finset.mem_univ i) hout), hone] at hall
    omega

/-- Whatever the run, the frames in use that no process has are the 69 of boot and the kernel. -/
theorem Supplied.unowned (h : Supplied L ram st) : ∃ S : Finset ℕ,
    (∀ f, f ∈ S ↔ Unowned st f) ∧ totalPages + 69 = ramLast - L.protectedEnd + S.card := by
  induction h with
  | boot s h hfile hstack => exact unowned_boot h hfile hstack
  | @store s s' va b h hs ih =>
    obtain ⟨S, hS, hcount⟩ := ih
    have hset := reachable_settled h.conducted.reachable
    refine ⟨S, fun f => ?_, hcount⟩
    cases hs with
    | store _ _ pa hpa => exact (hS f).trans (plain_store hset hpa b).unowned.symm
  | trap h hs hfork hexec ih =>
    obtain ⟨S, hS, hcount⟩ := ih
    exact ⟨S, fun f => (hS f).trans (trap_unowned h.conducted hs hfork hexec).symm, hcount⟩

theorem card_framesOf_used (hr : Reachable L ram st) (hu : (st.processTable i).state ≠ .unused) :
    (framesOf st.phys (trees st) i).card = (tableSet st.phys (trees st) i).card +
      (userPages st.phys (trees st) i fun _ => True).card + 2 := by
  have hs := reachable_sound hr
  apply hs.owned.card_framesOf
  · obtain ⟨stack, hstack, -⟩ := (reachable_inUser hr).stack i hu
    have he : (trees st).extra i = (st.processTable i).kernelStack := if_neg hu
    rw [he, hstack]
    exact Option.some_ne_none stack
  · have he : (trees st).root i = (st.processTable i).pageTable := if_neg hu
    rw [he]
    exact hs.table i hu

/-- Every frame behind the kernel is free, or one process has it, or it is one of the 69 of the
kernel's own page table: in every state of a run that has the frames it asks for, in whatever order
processes fork, exec, grow, exit and are waited for. -/
theorem every_frame_accounted (h : Supplied L ram st) :
    freeFrames st.phys + ∑ i, (framesOf st.phys (trees st) i).card + 69 =
      ramLast - L.protectedEnd ∧
    ∀ i, (framesOf st.phys (trees st) i).card =
      if (st.processTable i).state = .unused then 0
      else (tableSet st.phys (trees st) i).card +
        (userPages st.phys (trees st) i fun _ => True).card + 2 := by
  have hr := h.conducted.reachable
  constructor
  · obtain ⟨S, hS, hcount⟩ := h.unowned
    have hall := (reachable_sound hr).owned.card_frames hS
    omega
  · intro i
    by_cases hu : (st.processTable i).state = .unused
    · obtain ⟨hroot, he⟩ := trees_unused hu
      rw [if_pos hu, framesOf_none he hroot, Finset.card_empty]
    · rw [if_neg hu, card_framesOf_used hr hu]

/-- The first process has forked, and its child is dead and not yet waited for. -/
theorem every_frame_accounted_small : ∃ st child, Supplied smallLayout smallRam st ∧
    (st.processTable child).state = .zombie ∧
    freeFrames st.phys + ∑ i, (framesOf st.phys (trees st) i).card + 69 =
      ramLast - smallLayout.protectedEnd ∧
    ∀ i, (framesOf st.phys (trees st) i).card =
      if (st.processTable i).state = .unused then 0
      else (tableSet st.phys (trees st) i).card +
        (userPages st.phys (trees st) i fun _ => True).card + 2 := by
  obtain ⟨st0, st1, st2, st3, st4, k, h⟩ := reaping_run
  obtain ⟨-, hfree, -⟩ := small_fits h.boots
  obtain ⟨elf, phoff, phnum, start, pl, maxEnd, hplan, hinst, hf, -⟩ := installed h.boots
  obtain ⟨p0, p1, page, -, -, -, -, -, hplaced⟩ := hinst.memory
  have hstack : UserLeaf (entryOf st0 st0.currentProc (pageNo userStackBase)) := by
    cases hplaced with
    | lost T hT hp hfull => omega
    | mapped hp hfill =>
      rw [entryOf, hp.entries, if_pos rfl, Option.getD_some]
      exact userLeaf_heap page
  have h0 : Supplied smallLayout smallRam st0 := .boot st0 h.boots (fun _ => small_laidOut) hstack
  have h1 : Supplied smallLayout smallRam st1 :=
    .trap h0 h.forks (fun _ _ => .inr (by omega)) fun _ h7 => absurd h7 (by decide)
  have h2 : Supplied smallLayout smallRam st2 :=
    .trap h1 h.ticks (fun h8 => absurd h8 (by decide)) fun h8 => absurd h8 (by decide)
  have h3 : Supplied smallLayout smallRam st3 :=
    .trap h2 h.exits (fun _ h7 => absurd h7 (by decide)) fun _ h7 => absurd h7 (by decide)
  obtain ⟨hsum, heach⟩ := every_frame_accounted h3
  exact ⟨st3, k, h3, h.exited.state_other, hsum, heach⟩

end Supplies

end Lazux
