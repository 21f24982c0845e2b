import Lazux.Exec
import Lazux.Fairness
import Lazux.HeapExact
import Lazux.Orphans

/-! # What a process takes it gives back

Every frame a process gets belongs to its address space, so whoever waits for it returns them all.
-/
namespace Lazux

open PagedMemory RadixForest Run

section Images

variable {elf : Addr → Except Stop Byte} {ph : Phdr} {l : List Phdr} {phoff phnum start : ℕ}
  {pl : List Placement} {maxEnd : Addr}

def Phdr.Separate (a b : Phdr) : Prop := ∀ k < a.pMemsz.toNat, ∀ k' < b.pMemsz.toNat,
  pageNo (a.pVaddr + BitVec.ofNat 64 k) ≠ pageNo (b.pVaddr + BitVec.ofNat 64 k')

/-- A segment that asks for some permission. -/
def Phdr.Permitted (ph : Phdr) : Prop :=
  hasFlag ph.pFlags pfR ∨ hasFlag ph.pFlags pfW ∨ hasFlag ph.pFlags pfX

/-- The segments lie below the guard page of the stack, touch different pages and ask for some
permission each. -/
structure LaidOut (elf : Addr → Except Stop Byte) : Prop where
  below : ∀ ph ∈ segments elf, ph.pVaddr.toNat + ph.pMemsz.toNat ≤ 0x3FFFE000
  separate : (segments elf).Pairwise Phdr.Separate
  permitted : ∀ ph ∈ segments elf, ph.Permitted

/-- The pages of such a segment are freed with the table they are in. -/
theorem isLeaf_segmentFlags (ph : Phdr) : isLeaf (segmentFlags ph) ↔ ph.Permitted := by
  have key : ∀ r w x : Bool, isLeaf (permissionFlags r w x) ↔ r ∨ w ∨ x := by decide
  rw [segmentFlags_eq]
  exact key _ _ _

theorem step_page {c : Word} (hbelow : ph.pVaddr.toNat + ph.pMemsz.toNat ≤ 0x3FFFE000)
    (hc : c ∈ pageSteps 0 ph.pMemsz) : c.toNat < ph.pMemsz.toNat ∧ c.toNat % 4096 = 0 ∧
      (pageNo (ph.pVaddr + c)).number = (ph.pVaddr.toNat + c.toNat) / 4096 := by
  obtain ⟨k, hk, rfl⟩ := mem_pageSteps.mp hc
  have hzero : (0 : Addr).toNat = 0 := rfl
  rw [hzero] at hk
  have hstep : (0 + BitVec.ofNat 64 (4096 * k) : Word).toNat = 4096 * k := by
    rw [BitVec.toNat_add, BitVec.toNat_ofNat, hzero]
    omega
  rw [hstep, number_pageNo, BitVec.toNat_add, hstep]
  refine ⟨by omega, by omega, ?_⟩
  omega

theorem steps_nodup (hbelow : ph.pVaddr.toNat + ph.pMemsz.toNat ≤ 0x3FFFE000) :
    ((pageSteps 0 ph.pMemsz).map fun c => pageNo (ph.pVaddr + c)).Nodup := by
  have hinj : ∀ c ∈ pageSteps 0 ph.pMemsz, ∀ c' ∈ pageSteps 0 ph.pMemsz,
      pageNo (ph.pVaddr + c) = pageNo (ph.pVaddr + c') → c = c' := by
    intro c hc c' hc' he
    obtain ⟨-, h0, hnum⟩ := step_page hbelow hc
    obtain ⟨-, h0', hnum'⟩ := step_page hbelow hc'
    rw [he, hnum'] at hnum
    apply BitVec.eq_of_toNat_eq
    omega
  refine List.Nodup.map_on hinj (List.Nodup.map_on (fun k hk k' hk' he => ?_) List.nodup_range)
  have hlt := List.mem_range.mp hk
  have hlt' := List.mem_range.mp hk'
  have hnat := congrArg BitVec.toNat he
  simp only [BitVec.toNat_add, BitVec.toNat_ofNat] at hnat hlt hlt'
  omega

theorem loadSteps_nodup (hbelow : ∀ ph ∈ l, ph.pVaddr.toNat + ph.pMemsz.toNat ≤ 0x3FFFE000)
    (hsep : l.Pairwise Phdr.Separate) :
    ((loadSteps l).map fun s => pageNo (s.1.pVaddr + s.2)).Nodup := by
  induction l with
  | nil => exact List.nodup_nil
  | cons ph l ih =>
    obtain ⟨hfirst, hrest⟩ := List.pairwise_cons.mp hsep
    have hlow := hbelow ph List.mem_cons_self
    rw [loadSteps, List.flatMap_cons, List.map_append, List.map_map, List.nodup_append]
    refine ⟨steps_nodup hlow, ih (fun ph' h => hbelow ph' (List.mem_cons_of_mem _ h)) hrest, ?_⟩
    intro q hq q' hq' he
    obtain ⟨c, hc, rfl⟩ := List.mem_map.mp hq
    obtain ⟨s, hs, rfl⟩ := List.mem_map.mp hq'
    obtain ⟨hmem, hstep⟩ := mem_loadSteps.mp hs
    have h1 := (step_page hlow hc).1
    have h2 := (step_page (hbelow s.1 (List.mem_cons_of_mem _ hmem)) hstep).1
    have hne := hfirst s.1 hmem _ h1 _ h2
    rw [BitVec.ofNat_toNat, BitVec.setWidth_eq, BitVec.ofNat_toNat, BitVec.setWidth_eq] at hne
    exact hne he

theorem carried_pages {steps : List (Phdr × Word)} (h : List.Forall₂ (Carried elf) steps pl) :
    pl.map (·.page) = steps.map fun s => pageNo (s.1.pVaddr + s.2) := by
  induction h with
  | nil => rfl
  | cons hs _ ih => rw [List.map_cons, List.map_cons, ih, hs.page]

/-- The pages the loader places are placed once, and freed with their table. -/
theorem LaidOut.laid (h : LaidOut elf) (hp : Plan elf phoff phnum start pl maxEnd) :
    WellLaid pl := by
  have hcarried := planSegments_carried hp.segments
  rw [← segments_eq hp.phoff_eq hp.phnum_eq] at hcarried
  refine ⟨?_, fun x hx => ?_⟩
  · rw [carried_pages hcarried]
    exact loadSteps_nodup h.below h.separate
  · obtain ⟨a, hmem, ph, hph, c, hc, -, hflags⟩ := (planSegments_pages hp.segments).1 x hx
    rw [hflags, isLeaf_segmentFlags]
    apply h.permitted
    rw [segments_eq hp.phoff_eq hp.phnum_eq]
    exact List.mem_filterMap.mpr ⟨a, hmem, segmentAt_eq hph⟩

/-- They lie below the break, and the break below the guard page. -/
theorem LaidOut.low (h : LaidOut elf) (hp : Plan elf phoff phnum start pl maxEnd) :
    maxEnd.toNat ≤ 0x3FFFE000 ∧ ∀ x ∈ pl, x.page.number * 4096 < maxEnd.toNat := by
  obtain ⟨-, hall, hlast⟩ := planSegments_end hp.segments
  rw [← segments_eq hp.phoff_eq hp.phnum_eq] at hall hlast
  have hend : ∀ ph ∈ segments elf, (ph.pVaddr + ph.pMemsz).toNat =
      ph.pVaddr.toNat + ph.pMemsz.toNat := by
    intro ph hph
    have := h.below ph hph
    rw [BitVec.toNat_add]
    omega
  constructor
  · rcases hlast with rfl | ⟨ph, hph, rfl⟩
    · decide
    · rw [hend ph hph]
      exact h.below ph hph
  · intro x hx
    obtain ⟨a, hmem, ph, hph, c, hc, hpage, -⟩ := (planSegments_pages hp.segments).1 x hx
    have hseg : ph ∈ segments elf := by
      rw [segments_eq hp.phoff_eq hp.phnum_eq]
      exact List.mem_filterMap.mpr ⟨a, hmem, segmentAt_eq hph⟩
    obtain ⟨hlt, -, hnum⟩ := step_page (h.below ph hseg) hc
    have hle := hall ph hseg
    rw [hend ph hseg] at hle
    rw [hpage, hnum]
    omega

end Images

section Heaps

variable {L : Layout} {ram : Memory} {st st' mid : KState} {tf i child : Slot} {increment : Word}
  {ok : Bool} {phys : Phys} {elf : Addr → Except Stop Byte} {phoff phnum start : ℕ}
  {pl : List Placement} {maxEnd : Addr}

/-- No page is the program's between its break and its stack. -/
structure HeapOpen (st : KState) (i : Slot) : Prop where
  low : (st.processTable i).heapBreak.toNat ≤ 0x3FFFE000
  free : ∀ q : PageNo, (pageCeil (st.processTable i).heapBreak).toNat ≤ q.number * 4096 →
    q ≠ pageNo userStackBase → ¬ UserLeaf (entryOf st i q)

theorem HeapOpen.congr (h : HeapOpen st i) (he : ∀ q, entryOf st' i q = entryOf st i q)
    (hb : (st'.processTable i).heapBreak = (st.processTable i).heapBreak) : HeapOpen st' i := by
  constructor
  · rw [hb]
    exact h.low
  · intro q
    rw [hb, he]
    exact h.free q

theorem HeapOpen.plain (h : HeapOpen st i) (hp : Plain st st') : HeapOpen st' i := by
  obtain ⟨f, s, c, hproc⟩ := hp.process i
  refine h.congr (hp.entry_eq i) ?_
  rw [hproc]

theorem heapOpen_loaded (hl : LaidOut elf) (hplan : Plan elf phoff phnum start pl maxEnd)
    (hb : (st.processTable i).heapBreak = pageCeil maxEnd)
    (he : ∀ q, entryOf st i q = (kernelEntry L q).getD 0 ∨
      ∃ n flags, entryOf st i q = userWord n flags ∧
        (q = pageNo userStackBase ∧ flags = pteU ||| pteR ||| pteW ∨
          ∃ x ∈ pl, x.page = q ∧ x.flags = flags)) : HeapOpen st i := by
  obtain ⟨hend, hpages⟩ := hl.low hplan
  have hceil := @pageCeil_toNat maxEnd (by omega)
  have haligned : (pageCeil maxEnd).toNat % 4096 = 0 := by omega
  constructor
  · rw [hb]
    omega
  · intro q hq hstack
    rw [hb, pageCeil_of_aligned haligned] at hq
    rcases he q with hk | ⟨n, flags, -, ⟨hs, -⟩ | ⟨x, hx, rfl, -⟩⟩
    · rw [hk]
      exact userLeaf_kernelEntry q
    · exact absurd hs hstack
    · have := hpages x hx
      omega

theorem HeapOpen.forked (h : HeapOpen st st.currentProc) (hs : Sound L st) (hst : Steady tf st)
    (ha : AllocProc L st (some child) mid) (hne : child ≠ st.currentProc)
    (hc : vmmCopyUvm 2 (mid.rootOf st.currentProc) (mid.rootOf child) mid.phys = .ok phys) :
    HeapOpen (Lazux.forked st mid child phys) child := by
  have hb : ((Lazux.forked st mid child phys).processTable child).heapBreak =
      st.current.heapBreak := by
    rw [Lazux.forked, modifyProc_self]
    rfl
  constructor
  · rw [hb]
    exact h.low
  · intro q hq hstack
    rw [hb] at hq
    rcases child_entry hs hst ha hne hc q with ⟨-, hu, -⟩ | ⟨-, he⟩
    · exact absurd hu (h.free q hq hstack)
    · rw [he]
      exact userLeaf_kernelEntry q

theorem Grow.span_open (h : Grow st increment ok phys) (hs : Sound L st)
    (hk : HeapOpen st st.currentProc) : Span st increment := by
  apply h.span_of_fits hs
  have hlow : st.current.heapBreak.toNat ≤ 0x3FFFE000 := hk.low
  have hpos : increment.toNat < 2 ^ 63 := by
    have hmsb := h.nonneg
    rw [BitVec.msb_eq_decide, decide_eq_false_iff_not] at hmsb
    omega
  omega

theorem Grow.unheld (h : Grow st increment ok phys) (hs : Sound L st)
    (hk : HeapOpen st st.currentProc) {a : Addr}
    (ha : a ∈ pageSteps (pageCeil st.current.heapBreak)
      (pageCeil (st.current.heapBreak + increment))) :
    held st.phys (trees st) (.node st.currentProc (pageNo a).leaf) = none := by
  obtain ⟨halign, hbound⟩ := h.steps hs
  have hspan := h.span_open hs hk
  obtain ⟨h1, h2⟩ := (mem_heapSteps halign hbound).mp ⟨a, ha, rfl⟩
  have hnew := hspan.new
  have hhigh := hspan.high
  have hstack : pageNo a ≠ pageNo userStackBase := by
    intro he
    rw [he] at h2
    have hnum : (pageNo userStackBase).number = 0x3FFFF := by
      rw [number_pageNo]
      decide
    omega
  rw [held_leaf]
  by_contra hne
  exact hk.free _ h1 hstack (userLeaf_iff.mpr hne)

theorem Grow.tight (h : Grow st increment ok phys) (hs : Sound L st) (hst : Steady tf st)
    (hk : HeapOpen st st.currentProc) :
    Tight st.currentProc (trees st) st.phys (trees st) phys := by
  have hres := h.result hs hst
  cases ok with
  | false =>
    obtain ⟨done, a, rest, hsteps, hback⟩ := hres
    apply hback.tight
    intro b hb
    apply h.unheld hs hk
    rw [hsteps]
    exact List.mem_append_left _ hb
  | true =>
    have hreal : Realised _ _ _ _ _ _ := hres
    obtain ⟨halign, hbound⟩ := h.steps hs
    obtain ⟨hnd, -, -⟩ := heapSteps _ _ halign hbound
    apply hreal.tight userFlags_heapPages
    · intro x hx
      obtain ⟨a, -, rfl⟩ := List.mem_map.mp hx
      exact (by decide : isLeaf (pteU ||| pteR ||| pteW))
    · rw [List.map_map]
      exact hnd
    · intro x hx
      obtain ⟨a, ha, rfl⟩ := List.mem_map.mp hx
      exact h.unheld hs hk ha

theorem HeapOpen.grown (hk : HeapOpen st st.currentProc) (hs : Sound L st) (hst : Steady tf st)
    (h : Grow st increment ok phys) :
    HeapOpen (Lazux.grown st increment ok phys) st.currentProc := by
  obtain ⟨halign, hbound⟩ := h.steps hs
  have hspan := h.span_open hs hk
  cases ok with
  | false =>
    obtain ⟨done, a, rest, hsteps, hback⟩ := h.result hs hst
    refine ⟨hk.low, fun q hq hstack => ?_⟩
    by_cases hin : ∃ b ∈ done, q = pageNo b
    · obtain ⟨b, hb, rfl⟩ := hin
      have hgone : entryOf (Lazux.grown st increment false phys) st.currentProc (pageNo b) = 0 :=
        hback.gone b hb
      rw [hgone]
      exact fun hu => absurd hu.1 (by decide)
    · have hsame : entryOf (Lazux.grown st increment false phys) st.currentProc q =
          entryOf st st.currentProc q :=
        hback.remapped.outside q fun b hb he => hin ⟨b, hb, he⟩
      rw [hsame]
      exact hk.free q hq hstack
  | true =>
    have hb : ((Lazux.grown st increment true phys).processTable st.currentProc).heapBreak =
        st.current.heapBreak + increment := by
      rw [process_grown_self]
      rfl
    have hhigh := hspan.high
    have hold := hspan.old
    have hnew := hspan.new
    have hsum := hspan.sum
    constructor
    · rw [hb]
      exact hhigh
    · intro q hq hstack
      rw [hb] at hq
      have hout : ¬ ∃ a ∈ pageSteps (pageCeil st.current.heapBreak)
          (pageCeil (st.current.heapBreak + increment)), q = pageNo a := by
        intro hin
        have := ((mem_heapSteps halign hbound).mp hin).2
        omega
      rw [(h.entry_done hs hst).2 _ q fun _ => hout]
      apply hk.free q _ hstack
      show (pageCeil st.current.heapBreak).toNat ≤ _
      omega

/-- The runs whose images are laid out like that. -/
def laidOut : Conduct := ⟨LaidOut, fun _ => True⟩

theorem Footprint.heapOpen (h : Footprint L st mid) (hs : Sound L st)
    (hst : Steady st.currentProc st)
    (hfile : ∀ elf, st.a7 = sysExec → ExecFile L st.currentProc st elf → LaidOut elf)
    (hk : ∀ i, (st.processTable i).state ≠ .unused → HeapOpen st i)
    (hi : (mid.processTable i).state ≠ .unused) : HeapOpen mid i := by
  cases h.fate hs hst hi with
  | kept hu he f fs hp =>
    apply (hk i hu).congr he
    rw [hp]
  | grown ok phys h7 hg hc hm =>
    subst hc hm
    exact (hk _ hst.used).grown hs hst hg
  | forked m phys ha hne hc hm =>
    subst hm
    exact (hk _ hst.used).forked hs hst ha hne hc
  | execed newPt start pl maxEnd elf phoff phnum h7 hf hp hr hc =>
    subst hc
    apply heapOpen_loaded (hfile elf h7 hf) hp
    · rw [hr.process]
    · exact hr.entry_cases hst

/-- In such runs the heap of every process can grow. -/
theorem conducted_open (h : Conducted L ram laidOut st) (i : Slot)
    (hi : (st.processTable i).state ≠ .unused) : HeapOpen st i := by
  have hkeeps := h.keeps (P := fun s => ∀ i, (s.processTable i).state ≠ .unused → HeapOpen s i)
    ?_ ?_ ?_
  · exact hkeeps i hi
  · intro s elf phoff phnum start pl maxEnd hb hf hp hinst i hi
    have hone : i = s.currentProc := by
      by_contra hne
      exact hi (booted_alone hb hne)
    subst hone
    exact heapOpen_loaded hf hp hinst.heapBreak hinst.entry_cases
  · intro s s' hp hk i hi
    exact (hk i fun h0 => hi ((hp.used i).mpr h0)).plain hp
  · intro s s' hs hst hfoot hfile _ hk i hi
    exact hfoot.heapOpen hs hst hfile hk hi

end Heaps

section Accounts

variable {L : Layout} {ram : Memory} {st st' mid : KState} {tf i : Slot} {regs : TrapFrame} {f : ℕ}

/-- The frames in use that are not process `i`'s. -/
def Besides (i : Slot) (st : KState) (f : ℕ) : Prop :=
  InUse st.phys f ∧ Apart st.phys (trees st) i f

theorem besides_iff (hw : Within i st st') (ht : Tight i (trees st) st.phys (trees st') st'.phys) :
    Besides i st' f ↔ Besides i st f := by
  constructor
  · rintro ⟨hu, ha⟩
    exact ht f hu ha
  · rintro ⟨hu, ha⟩
    obtain ⟨hu', -, ha'⟩ := hw.spared f hu ha
    exact ⟨hu', ha'⟩

theorem besides_same (ht : trees st' = trees st) (hp : UserWrites (trees st) st.phys st'.phys) :
    Besides i st' f ↔ Besides i st f := by
  unfold Besides Apart
  rw [ht, hp.held_eq, hp.inUse_iff]

theorem Plain.besides (h : Plain st st') : Besides i st' f ↔ Besides i st f :=
  besides_same h.trees_eq h.writes

theorem besides_unused (hu : (st.processTable i).state = .unused) :
    Besides i st f ↔ InUse st.phys f := by
  obtain ⟨hr, he⟩ := trees_unused hu
  exact and_iff_left (apart_of_none hr he f)

theorem Replaced.tight {newPt start : ℕ} {pl : List Placement} {maxEnd : Addr} (hs : Sound L st)
    (hst : Steady tf st) (h : Replaced L st st' newPt start pl maxEnd) (hlaid : WellLaid pl)
    (hoff : ∀ x ∈ pl, x.page ≠ pageNo userStackBase)
    (hstack : UserLeaf (entryOf st' st.currentProc (pageNo userStackBase))) :
    Tight st.currentProc (trees st) st.phys (trees st') st'.phys := by
  obtain ⟨p2, q1, q2, page, htree, hreal, hplaced, hphys⟩ := h.memory
  set K := withRoot (spare (trees st)) none (some newPt) with hK
  have hempty : ∀ q : PageNo, held p2 K (.node none q.leaf) = none := by
    intro q
    rw [held_leaf, hK, withRoot_self, htree.entries, decode_kernelEntry]
  have hmem : st'.phys.mem = q2.mem := by
    rw [hphys, vmmFreePt, mem_pmmFreePage, mem_freePageTable]
  have hnew : ∀ path, held st'.phys (trees st') (.node st.currentProc path) =
      held q2 K (.node none path) := by
    intro path
    rw [h.trees_eq hst, held_node, held_node, hmem, withRoot_self, hK, withRoot_self]
  -- the page for the stack would not be there had its frame been lost
  have hsize : ∀ n, Filled K q1 q2 n Page.zero → n < 2 ^ 44 := by
    intro n hf
    have hram := hf.inUse.1.2
    simp only [ramLast] at hram
    omega
  have hno : held q1 K (.node none (pageNo userStackBase).leaf) = none := by
    have hlast : lastAt pl (pageNo userStackBase) = none := lastAt_none.mpr hoff
    rw [held_leaf, hreal.absent _ hlast, ← held_leaf]
    exact hempty _
  have hlast : Tight none K q1 K q2 := by
    cases hplaced with
    | mapped hp hf =>
      exact hp.tight_page userFlags_heap (by decide) (hsize page hf) hf.fresh hno
    | lost T hT hp =>
      have hq := hnew (pageNo userStackBase).leaf
      rw [held_leaf, held_leaf, hp.entries, Option.getD_none, ← held_leaf q1, hno] at hq
      exact absurd hq (userLeaf_iff.mp hstack)
  have hall : Tight none (spare (trees st)) st.phys K q2 :=
    ((htree.tight rfl rfl).trans (hreal.tight h.flags hlaid.accessible hlaid.once
      fun x _ => hempty x.page)).trans hlast
  have hold : K.root (some st.currentProc) = some (st.rootOf st.currentProc) := by
    rw [hK, withRoot_of_ne (by simp)]
    exact hs.root hst.used
  have hkept : ∀ path, held q2 K (.node (some st.currentProc) path) =
      held st.phys (trees st) (.node st.currentProc path) := by
    intro path
    have hc : Confined none (spare (trees st)) st.phys K q2 :=
      (htree.confined.trans (hreal.confined h.flags)).trans hplaced.confined
    rw [hc.others _ (by simp [Role.owner])]
    rfl
  intro f hu ha
  rw [hphys, hplaced.owned.inUse_vmmFreePt hold rfl] at hu
  obtain ⟨hu, hgone⟩ := hu
  have hnone : Apart q2 K none f := by
    rintro (o | ⟨o, path⟩) ho
    · have ho : o = none := ho
      subst ho
      simp [hK, spare]
    · have ho : o = none := ho
      subst ho
      rw [← hnew]
      exact ha (.node _ path) rfl
  refine ⟨(hall f hu hnone).1, ?_⟩
  rintro (j | ⟨j, path⟩) hj
  · have hextra := ha (.extra j) hj
    rw [h.trees_eq hst] at hextra
    exact hextra
  · have hj : j = st.currentProc := hj
    subst hj
    rw [← hkept]
    exact hgone path

end Accounts

section Lives

variable {L : Layout} {ram : Memory} {st st' st₁ st₂ mid : KState} {child : Slot} {regs : TrapFrame}
  {input : Input} {f : ℕ}

/-- A step in the life of process `child`. Nobody forks, only it takes memory, its images are laid
out as they should be and get the frames they ask for, and nobody is reaped. -/
inductive Living (L : Layout) (child : Slot) : KState → KState → Prop where
  | store {st st' : KState} {va : Addr} {b : Byte} (hs : Step L st (.store va b) st') :
      Living L child st st'
  | trap {st st' : KState} {regs : TrapFrame} {input : Input}
      (hs : Step L st (.trap regs input) st')
      (hcall : regs.scause = 8 → regs.a7 ≠ sysFork ∧
        (st.currentProc ≠ child → regs.a7 ≠ sysExec ∧ regs.a7 ≠ sysSbrk))
      (hexec : regs.scause = 8 → regs.a7 = sysExec → ∀ elf,
        ExecFile L st.currentProc (entered (saveFrame regs st)) elf →
          LaidOut elf ∧ StackFits elf st.phys)
      (hstay : ∀ i, (st.processTable i).state ≠ .unused → (st'.processTable i).state ≠ .unused) :
      Living L child st st'

/-- From the fork that makes process `child` to the wait that gives its slot back. -/
inductive Lifetime (L : Layout) (child : Slot) : KState → KState → Prop where
  | intro {st born last st' : KState} {regs regs' : TrapFrame} {input input' : Input}
      (hfork : Step L st (.trap regs input) born) (h8 : regs.scause = 8) (h7 : regs.a7 = sysFork)
      (hnew : (st.processTable child).state = .unused)
      (hborn : (born.processTable child).state ≠ .unused)
      (hlife : Relation.ReflTransGen (Living L child) born last)
      (hwait : Step L last (.trap regs' input') st') (h8' : regs'.scause = 8)
      (h7' : regs'.a7 = sysWait) (hgone : (st'.processTable child).state = .unused) :
      Lifetime L child st st'

theorem Living.conducted (h : Living L child st st') (hc : Conducted L ram laidOut st) :
    Conducted L ram laidOut st' := by
  cases h with
  | store hs => exact .store hc hs
  | trap hs hcall hexec hstay =>
    exact .trap hc hs (fun h8 h7 elf hf => (hexec h8 h7 elf hf).1) fun _ _ => trivial

theorem Living.stays (h : Living L child st st') (hu : (st.processTable child).state ≠ .unused) :
    (st'.processTable child).state ≠ .unused := by
  cases h with
  | store hs =>
    cases hs
    exact hu
  | trap hs hcall hexec hstay => exact hstay child hu

theorem phys_grown {increment : Word} {ok : Bool} {phys : Phys} :
    (grown st increment ok phys).phys = phys := by
  cases ok with
  | false => rfl
  | true => rfl

theorem stack_of_room {newPt start : ℕ} {pl : List Placement} {maxEnd : Addr}
    {elf : Addr → Except Stop Byte} (hr : Reachable L ram st) (h8 : regs.scause = 8)
    (h7 : regs.a7 = sysExec) (ht : takeTrap L regs input st = .ok st') (hplain : Plain mid st')
    (hfile : ExecFile L st.currentProc (entered (saveFrame regs st)) elf)
    (hrep : Replaced L (entered (saveFrame regs st)) mid newPt start pl maxEnd)
    (hroom : StackFits elf st.phys) :
    UserLeaf (entryOf mid st.currentProc (pageNo userStackBase)) := by
  have hset := reachable_settled hr
  obtain ⟨hs, hst⟩ := hset.called regs
  have hnew := hrep.new_root hs hst
  obtain ⟨f, s, c, hp⟩ := hplain.process st.currentProc
  have hnew' : (st'.processTable st.currentProc).pageTable ≠ st.current.pageTable := by
    obtain ⟨f', hcur⟩ := current_entered hset.steady regs
    have hold : (mid.processTable st.currentProc).pageTable ≠
        (entered (saveFrame regs st)).current.pageTable := hnew
    rw [hcur] at hold
    rw [hp]
    exact hold
  obtain ⟨n, he, -⟩ := (stack_mapped_iff hr h8 h7 ht hnew' hfile).mpr hroom
  rw [← hplain.entry_eq, he]
  exact userLeaf_heap n

/-- A call that is no fork and reaps nobody takes and gives back frames of its caller only. -/
theorem Footprint.besides (h : Footprint L st mid) (hs : Sound L st)
    (hst : Steady st.currentProc st)
    (hfork : st.a7 ≠ sysFork)
    (hown : st.a7 = sysExec ∨ st.a7 = sysSbrk → st.currentProc = child)
    (hopen : HeapOpen st st.currentProc)
    (hexec : st.a7 = sysExec → ∀ elf newPt start pl maxEnd, ExecFile L st.currentProc st elf →
      Replaced L st mid newPt start pl maxEnd →
      LaidOut elf ∧ UserLeaf (entryOf mid st.currentProc (pageNo userStackBase)))
    (hstay : ∀ i, (st.processTable i).state ≠ .unused → (mid.processTable i).state ≠ .unused) :
    Besides child mid f ↔ Besides child st f := by
  cases h with
  | same => exact Iff.rfl
  | filed fd file =>
    have hb := benign_setFile st fd file
    exact besides_same hb.trees_eq hb.phys
  | grown ok phys h7 hg =>
    obtain rfl := hown (Or.inr h7)
    apply besides_iff (within_grown hs hst hg)
    rw [trees_grown, phys_grown]
    exact hg.tight hs hst hopen
  | refused _ h7 _ => exact absurd h7 hfork
  | forked _ _ _ h7 _ _ => exact absurd h7 hfork
  | execed _ newPt start pl maxEnd elf phoff phnum h7 hf hp hr =>
    obtain rfl := hown (Or.inl h7)
    obtain ⟨hlaid, hstack⟩ := hexec h7 elf newPt start pl maxEnd hf hr
    refine besides_iff (hr.within hs hst) (hr.tight hs hst (hlaid.laid hp) ?_ hstack)
    intro x hx he
    obtain ⟨hend, hpages⟩ := hlaid.low hp
    have hlow := hpages x hx
    have hnum : (pageNo userStackBase).number = 0x3FFFF := by
      rw [number_pageNo]
      decide
    rw [he, hnum] at hlow
    omega
  | reaped k hz =>
    have hu : (st.processTable k).state ≠ .unused := by
      rw [(zombieKid_some hz).2]
      decide
    exact absurd (freeProc_gone hu) (hstay k hu)

theorem Living.besides (h : Living L child st st') (hc : Conducted L ram laidOut st) :
    Besides child st' f ↔ Besides child st f := by
  have hset := reachable_settled hc.reachable
  cases h with
  | @store va b hs =>
    cases hs with
    | store _ _ pa hpa => exact (plain_store hset hpa b).besides
  | @trap regs input hs hcall hexec hstay =>
    have ht : takeTrap L regs input st = .ok st' := by
      cases hs with
      | trap _ _ _ hd ht => exact ht
    have htrap : Trapped L laidOut st regs st' := hs.trapped hset
      (fun h8 h7 elf hf => (hexec h8 h7 elf hf).1) fun _ _ => trivial
    cases htrap with
    | other h8 hplain => exact hplain.besides
    | call mid h8 hsound hst hfoot hplain hfile hgrow =>
      have hcalled := plain_called regs st
      have ha7 : (entered (saveFrame regs st)).a7 = regs.a7 := KState.a7_entered hset.steady regs
      rw [hplain.besides, ← hcalled.besides]
      apply hfoot.besides hsound hst
      · rw [ha7]
        exact (hcall h8).1
      · rw [ha7]
        intro h7
        by_contra hne
        obtain ⟨h1, h2⟩ := (hcall h8).2 hne
        exact h7.elim h1 h2
      · exact (conducted_open hc _ hset.steady.used).plain hcalled
      · intro h7 elf newPt start pl maxEnd hf hr
        have hcall := ha7.symm.trans h7
        have hcur : (entered (saveFrame regs st)).currentProc = st.currentProc := rfl
        rw [hcur] at hf ⊢
        obtain ⟨hlaid, hroom⟩ := hexec h8 hcall elf hf
        exact ⟨hlaid, stack_of_room hc.reachable h8 hcall ht hplain hf hr hroom⟩
      · intro i hu h0
        exact hstay i (fun h => hu ((hcalled.used i).mpr h)) ((hplain.used i).mpr h0)

theorem besides_life (h : Relation.ReflTransGen (Living L child) st st')
    (hc : Conducted L ram laidOut st) (hu : (st.processTable child).state ≠ .unused) :
    Conducted L ram laidOut st' ∧ (st'.processTable child).state ≠ .unused ∧
      (Besides child st' f ↔ Besides child st f) := by
  induction h with
  | refl => exact ⟨hc, hu, Iff.rfl⟩
  | tail _ hstep ih =>
    obtain ⟨hc', hu', hsame⟩ := ih
    exact ⟨hstep.conducted hc', hstep.stays hu', (hstep.besides hc').trans hsame⟩

theorem Footprint.besides_born (h : Footprint L st mid) (hs : Sound L st)
    (hst : Steady st.currentProc st) (hnew : (st.processTable child).state = .unused)
    (hborn : (mid.processTable child).state ≠ .unused) : Besides child mid f ↔ InUse st.phys f := by
  rw [← besides_unused hnew]
  cases h.fate hs hst hborn with
  | kept hu => exact absurd hnew hu
  | grown ok phys h7 hg hi => exact absurd (hi ▸ hnew) hst.used
  | execed newPt start pl maxEnd elf phoff phnum h7 hf hp hr hi => exact absurd (hi ▸ hnew) hst.used
  | forked m phys ha hne hc hm =>
    subst hm
    exact besides_iff (within_forked hs hst ha hne hc) (tight_forked hs hst ha hne hc)

theorem Footprint.besides_gone (h : Footprint L st mid) (hs : Sound L st) (h7 : st.a7 = sysWait)
    (hu : (st.processTable child).state ≠ .unused)
    (hgone : (mid.processTable child).state = .unused) : InUse mid.phys f ↔ Besides child st f := by
  cases h with
  | same => exact absurd hgone hu
  | filed fd file => exact absurd (((benign_setFile st fd file).used child).mp hgone) hu
  | grown ok phys h => exact absurd (h7.symm.trans h) (by decide)
  | refused _ h => exact absurd (h7.symm.trans h) (by decide)
  | forked _ _ _ h => exact absurd (h7.symm.trans h) (by decide)
  | execed _ _ _ _ _ _ _ _ h => exact absurd (h7.symm.trans h) (by decide)
  | reaped k hz =>
    have hk : (st.processTable k).state ≠ .unused := by
      rw [(zombieKid_some hz).2]
      decide
    obtain rfl : child = k := by
      by_contra hne
      rw [freeProc_of_ne hne] at hgone
      exact hu hgone
    exact (freeProc_released hs hk).2.1 f

/-- No frame is lost over the life of a process: when it has been reaped the frames in use are those
that were before it was forked. -/
theorem no_frame_lost (hc : Conducted L ram laidOut st) (h : Lifetime L child st st') (f : ℕ) :
    InUse st'.phys f ↔ InUse st.phys f := by
  obtain @⟨born, last, _, regs, regs', input, input', hfork, h8, h7, hnew, hborn, hlife, hwait, h8',
    h7', hgone⟩ := h
  have hset := reachable_settled hc.reachable
  have hexec : regs.scause = 8 → regs.a7 = sysExec → ∀ elf,
      ExecFile L st.currentProc (entered (saveFrame regs st)) elf → laidOut.file elf := by
    intro _ h
    exact absurd (h7.symm.trans h) (by decide)
  have hc' : Conducted L ram laidOut born := .trap hc hfork hexec fun _ _ => trivial
  have hfirst : Besides child born f ↔ InUse st.phys f := by
    have htrap : Trapped L laidOut st regs born := hfork.trapped hset hexec fun _ _ => trivial
    cases htrap with
    | other hno => exact absurd h8 hno
    | call mid _ hs hst hfoot hplain =>
      have hcalled := plain_called regs st
      rw [hplain.besides, ← hcalled.writes.inUse_iff]
      exact hfoot.besides_born hs hst ((hcalled.used child).mpr hnew)
        fun h0 => hborn ((hplain.used child).mpr h0)
  obtain ⟨hc'', hu, hsame⟩ := @besides_life _ _ _ _ _ f hlife hc' hborn
  have hset' := reachable_settled hc''.reachable
  have htrap : Trapped L laidOut last regs' st' := hwait.trapped hset'
    (fun _ h => absurd (h7'.symm.trans h) (by decide)) fun _ _ => trivial
  cases htrap with
  | other hno => exact absurd h8' hno
  | call mid _ hs hst hfoot hplain =>
    have hcalled := plain_called regs' last
    have hlast := @Footprint.besides_gone _ _ _ child f hfoot hs
      ((KState.a7_entered hset'.steady regs').trans h7')
      (fun h0 => hu ((hcalled.used child).mp h0)) ((hplain.used child).mp hgone)
    rw [hplain.writes.inUse_iff, hlast, hcalled.besides, hsame, hfirst]

end Lives

section Example

variable {L : Layout} {st st' : KState} {start next : Slot} {input : Input}
  {elf : Addr → Except Stop Byte}

theorem small_laidOut (h : BootFile smallLayout smallRam elf) : LaidOut elf := by
  have hplan := smallImage.plan.below (smallImage.boot_file h)
  have hnone : segments elf = [] := by
    rw [segments_eq hplan.phoff_eq hplan.phnum_eq]
    rfl
  constructor
  · intro ph hph
    rw [hnone] at hph
    cases hph
  · rw [hnone]
    exact List.Pairwise.nil
  · intro ph hph
    rw [hnone] at hph
    cases hph

/-- The first process forks, the child exits, and the first process waits for it. -/
theorem no_frame_lost_small : ∃ st st' child, Conducted smallLayout smallRam laidOut st ∧
    Lifetime smallLayout child st st' ∧ ∀ f, InUse st'.phys f ↔ InUse st.phys f := by
  obtain ⟨st0, st1, st2, st3, st4, k, h⟩ := reaping_run
  have hlife : Relation.ReflTransGen (Living smallLayout k) st1 st3 := by
    refine .tail (.single (.trap h.ticks ?_ ?_ fun i => h.forked.stay h.ticked (by decide)))
      (.trap h.exits ?_ ?_ fun i => h.ticked.stay h.exited (by decide))
    · exact fun h => absurd h (by decide)
    · exact fun h => absurd h (by decide)
    · exact fun _ => ⟨by decide, fun _ => by decide⟩
    · exact fun _ h => absurd h (by decide)
  have hcond : Conducted smallLayout smallRam laidOut st0 :=
    .boot st0 h.boots fun _ => small_laidOut
  have hborn : (st1.processTable k).state ≠ .unused := by
    have hready : (st1.processTable k).state = .ready := h.forked.state_other
    rw [hready]
    decide
  have hlives : Lifetime smallLayout k st0 st4 :=
    .intro h.forks rfl rfl h.unused hborn hlife h.waits rfl rfl h.gone
  exact ⟨st0, st4, k, hcond, hlives, no_frame_lost hcond hlives⟩

end Example

end Lazux
