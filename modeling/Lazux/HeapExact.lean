import Lazux.Conduct
import Lazux.Contents

/-! # The heap is what the breaks say

The pages a process has between the start of its heap and the stack are those below its break,
as long as no image covers the guard page and no increment wraps around. -/
namespace Lazux

open PagedMemory RadixForest Run

section Region

variable {L : Layout} {st st' mid : KState} {i j child : Slot} {tf : Slot} {q : PageNo}
  {start : Addr}

def guardPage : ℕ := 0x3FFFE

def HeapLeaf (w : Word) : Prop := UserLeaf w ∧ hasFlag w pteR ∧ hasFlag w pteW

/-- The heap of process `i`, which starts at `start`. -/
structure HeapKept (L : Layout) (start : Addr) (st : KState) (i : Slot) : Prop where
  aligned : start.toNat % 4096 = 0
  le_break : start.toNat ≤ (st.processTable i).heapBreak.toNat
  bounded : (st.processTable i).heapBreak = start ∨ (st.processTable i).heapBreak.toNat ≤ 0x3FFFE000
  max : (st.processTable i).heapMax = userStackBase - 4096
  heap : ∀ q : PageNo, start.toNat ≤ q.number * 4096 →
    q.number * 4096 < (pageCeil (st.processTable i).heapBreak).toNat → HeapLeaf (entryOf st i q)
  above : ∀ q : PageNo, (pageCeil (st.processTable i).heapBreak).toNat ≤ q.number * 4096 →
    q ≠ pageNo userStackBase → entryOf st i q = (kernelEntry L q).getD 0
  guard : ∀ q : PageNo, q.number = guardPage → entryOf st i q = 0

theorem kernelEntry_guard (h : q.number = guardPage) : (kernelEntry L q).getD 0 = 0 := by
  cases hk : kernelEntry L q with
  | none => rfl
  | some w =>
    obtain ⟨flags, hf, -⟩ := Option.map_eq_some_iff.mp hk
    have hpage := (kernelFlags_some hf).2
    rw [h] at hpage
    exact absurd hpage (by decide)

theorem HeapKept.congr (h : HeapKept L start st i) (he : ∀ q, entryOf st' i q = entryOf st i q)
    (hb : (st'.processTable i).heapBreak = (st.processTable i).heapBreak)
    (hm : (st'.processTable i).heapMax = (st.processTable i).heapMax) :
    HeapKept L start st' i := by
  constructor
  · exact h.aligned
  · rw [hb]
    exact h.le_break
  · rw [hb]
    exact h.bounded
  · rw [hm]
    exact h.max
  · intro q
    rw [hb, he]
    exact h.heap q
  · intro q
    rw [hb, he]
    exact h.above q
  · intro q
    rw [he]
    exact h.guard q

theorem HeapKept.plain (h : HeapKept L start st i) (hp : Plain st st') :
    HeapKept L start st' i := by
  obtain ⟨f, s, c, hproc⟩ := hp.process i
  refine h.congr (hp.entry_eq i) ?_ ?_
  · rw [hproc]
  · rw [hproc]

/-- What happens in the address space of one process leaves the heaps of the others alone. -/
theorem HeapKept.within (h : HeapKept L start st i) (hs : Sound L st) (hw : Within j st st')
    (hj : i ≠ j) (hp : st'.processTable i = st.processTable i) : HeapKept L start st' i := by
  refine h.congr (hw.entry_other hs.owned hj) ?_ ?_
  · rw [hp]
  · rw [hp]

theorem heapKept_loaded {elf : Addr → Except Stop Byte} {phoff phnum entryPc : ℕ}
    {pl : List Placement} {maxEnd : Addr} (hplan : Plan elf phoff phnum entryPc pl maxEnd)
    (hbelow : ∀ x ∈ pl, x.page.number * 4096 < (pageCeil maxEnd).toNat)
    (hguard : SegmentsAvoid elf fun q => q.number = guardPage)
    (hb : (st.processTable i).heapBreak = pageCeil maxEnd)
    (hm : (st.processTable i).heapMax = userStackBase - 4096)
    (he : ∀ q, entryOf st i q = (kernelEntry L q).getD 0 ∨
      ∃ n flags, entryOf st i q = userWord n flags ∧
        (q = pageNo userStackBase ∧ flags = pteU ||| pteR ||| pteW ∨
          ∃ x ∈ pl, x.page = q ∧ x.flags = flags)) : HeapKept L (pageCeil maxEnd) st i := by
  have haligned : (pageCeil maxEnd).toNat % 4096 = 0 := by
    rw [pageCeil, pageFloor_toNat]
    omega
  have hceil := pageCeil_of_aligned haligned
  constructor
  · exact haligned
  · rw [hb]
  · exact Or.inl hb
  · exact hm
  · intro q h1 h2
    rw [hb, hceil] at h2
    omega
  · intro q h1 hq
    rw [hb, hceil] at h1
    rcases he q with hk | ⟨n, flags, -, ⟨hstack, -⟩ | ⟨x, hx, rfl, -⟩⟩
    · exact hk
    · exact absurd hstack hq
    · have := hbelow x hx
      omega
  · intro q hq
    rcases he q with hk | ⟨n, flags, -, ⟨hstack, -⟩ | ⟨x, hx, rfl, -⟩⟩
    · rw [hk]
      exact kernelEntry_guard hq
    · rw [hstack] at hq
      exact absurd hq (by decide)
    · exact absurd hq ((hplan.avoids_iff _).mp hguard x hx)

theorem HeapLeaf.copied {w : Word} {n : ℕ} (h : HeapLeaf w) : HeapLeaf (copiedWord n w) := by
  obtain ⟨hu, hr, hw⟩ := h
  rw [hasFlag_pteR] at hr
  rw [hasFlag_pteW] at hw
  refine ⟨userLeaf_copiedWord.mpr hu, ?_, ?_⟩
  · rw [hasFlag_pteR, getLsbD_copiedWord (by decide)]
    exact hr
  · rw [hasFlag_pteW, getLsbD_copiedWord (by decide)]
    exact hw

theorem heapLeaf_data (n : ℕ) : HeapLeaf (userWord n (pteU ||| pteR ||| pteW)) := by
  refine ⟨userLeaf_heap n, ?_, ?_⟩
  · rw [hasFlag_pteR, getLsbD_userWord (by decide)]
    decide
  · rw [hasFlag_pteW, getLsbD_userWord (by decide)]
    decide

theorem HeapKept.heap_low (h : HeapKept L start st i) (h1 : start.toNat ≤ q.number * 4096)
    (h2 : q.number * 4096 < (pageCeil (st.processTable i).heapBreak).toNat) :
    q.number < guardPage := by
  rcases h.bounded with hb | hb
  · rw [hb, pageCeil_of_aligned h.aligned] at h2
    omega
  · rw [pageCeil_toNat (by omega)] at h2
    unfold guardPage
    omega

theorem HeapKept.forked (h : HeapKept L start st st.currentProc) (hs : Sound L st)
    (hst : Steady tf st) {phys : Phys} (ha : AllocProc L st (some child) mid)
    (hne : child ≠ st.currentProc)
    (hc : vmmCopyUvm 2 (mid.rootOf st.currentProc) (mid.rootOf child) mid.phys = .ok phys) :
    HeapKept L start (Lazux.forked st mid child phys) child := by
  have hb : ((Lazux.forked st mid child phys).processTable child).heapBreak =
      st.current.heapBreak := by
    rw [Lazux.forked, modifyProc_self]
    rfl
  have hm : ((Lazux.forked st mid child phys).processTable child).heapMax = st.current.heapMax := by
    rw [Lazux.forked, modifyProc_self]
    rfl
  have hentry := child_entry hs hst ha hne hc
  constructor
  · exact h.aligned
  · rw [hb]
    exact h.le_break
  · rw [hb]
    exact h.bounded
  · rw [hm]
    exact h.max
  · intro q h1 h2
    rw [hb] at h2
    have hleaf := h.heap q h1 h2
    have hlow := h.heap_low h1 h2
    rcases hentry q with ⟨-, -, n, -, he, -⟩ | ⟨hnot, -⟩
    · rw [he]
      exact hleaf.copied
    · refine absurd hleaf.1 (hnot ?_)
      unfold guardPage at hlow
      omega
  · intro q h1 hq
    rw [hb] at h1
    rcases hentry q with ⟨-, hu, -⟩ | ⟨-, he⟩
    · rw [h.above q h1 hq] at hu
      exact absurd hu (userLeaf_kernelEntry q)
    · exact he
  · intro q hq
    rcases hentry q with ⟨-, hu, -⟩ | ⟨-, he⟩
    · rw [h.guard q hq] at hu
      exact absurd hu.1 (by simp)
    · rw [he]
      exact kernelEntry_guard hq

theorem mem_heapSteps {a b : Addr} (ha : a.toNat % 4096 = 0) (hb : b.toNat ≤ 2 ^ 30) :
    (∃ x ∈ pageSteps a b, q = pageNo x) ↔
      a.toNat ≤ q.number * 4096 ∧ q.number * 4096 < b.toNat := by
  have hstart : a.toNat = a.toNat / 4096 * 4096 := by omega
  have hrange : (∃ x ∈ pageSteps a b, q = pageNo x) ↔
      q ∈ pageRange (a.toNat / 4096) ((b.toNat + 4095) / 4096) := by
    rw [pageSteps_eq hstart, pageRange, List.mem_map]
    constructor
    · rintro ⟨x, hx, rfl⟩
      obtain ⟨k, hk, rfl⟩ := List.mem_map.mp hx
      exact ⟨k, hk, rfl⟩
    · rintro ⟨k, hk, rfl⟩
      exact ⟨_, List.mem_map.mpr ⟨k, hk, rfl⟩, rfl⟩
  rw [hrange, mem_pageRange (by omega)]
  omega

variable {increment : Word} {ok : Bool} {phys : Phys}

/-- The increment neither wraps around to a break that is accepted nor reaches a device. -/
structure Clear (st : KState) (increment : Word) : Prop where
  fits : increment.msb = false → ¬ st.current.heapBreak + increment > st.current.heapMax →
    st.current.heapBreak.toNat + increment.toNat < 2 ^ 64
  devices : increment.msb = false → ∀ a ∈ pageSteps (pageCeil st.current.heapBreak)
    (pageCeil (st.current.heapBreak + increment)), ¬ DevicePage (pageNo a).number

/-- Where an accepted increment moves the break. -/
structure Span (st : KState) (increment : Word) : Prop where
  sum : (st.current.heapBreak + increment).toNat = st.current.heapBreak.toNat + increment.toNat
  high : (st.current.heapBreak + increment).toNat ≤ 0x3FFFE000
  old : (pageCeil st.current.heapBreak).toNat = (st.current.heapBreak.toNat + 4095) / 4096 * 4096
  new : (pageCeil (st.current.heapBreak + increment)).toNat =
    ((st.current.heapBreak + increment).toNat + 4095) / 4096 * 4096

theorem Grow.span_of_fits (h : Grow st increment ok phys) (hs : Sound L st)
    (hfits : st.current.heapBreak.toNat + increment.toNat < 2 ^ 64) : Span st increment := by
  have hmax : st.current.heapMax.toNat ≤ 0x3FFFE000 := hs.heap st.currentProc
  have hbelow : (st.current.heapBreak + increment).toNat ≤ st.current.heapMax.toNat := by
    simpa [BitVec.lt_def] using h.below
  have hsum : (st.current.heapBreak + increment).toNat =
      st.current.heapBreak.toNat + increment.toNat := by
    rw [BitVec.toNat_add]
    exact Nat.mod_eq_of_lt hfits
  refine ⟨hsum, hbelow.trans hmax, pageCeil_toNat (by omega), pageCeil_toNat (by omega)⟩

theorem Grow.span (h : Grow st increment ok phys) (hs : Sound L st) (hc : Clear st increment) :
    Span st increment := h.span_of_fits hs (hc.fits h.nonneg h.below)

/-- The pages asked for have no entries yet. -/
theorem Grow.empty (h : Grow st increment ok phys) (hs : Sound L st) (hc : Clear st increment)
    (hk : HeapKept L start st st.currentProc)
    (hq : ∃ a ∈ pageSteps (pageCeil st.current.heapBreak)
      (pageCeil (st.current.heapBreak + increment)), q = pageNo a) :
    entryOf st st.currentProc q = 0 := by
  obtain ⟨halign, hbound⟩ := h.steps hs
  have hspan := h.span hs hc
  obtain ⟨h1, h2⟩ := (mem_heapSteps halign hbound).mp hq
  have hnum : q.number < guardPage := by
    have hnew := hspan.new
    have hhigh := hspan.high
    unfold guardPage
    omega
  have hstack : q ≠ pageNo userStackBase := by
    rintro rfl
    exact absurd hnum (by decide)
  rw [hk.above q h1 hstack]
  cases hkern : kernelEntry L q with
  | none => rfl
  | some w =>
    obtain ⟨a, ha, rfl⟩ := hq
    have hdev := devicePage_of_kernelEntry hkern (by unfold guardPage at hnum; omega)
    exact absurd hdev (hc.devices h.nonneg a ha)

theorem Grow.entry_failed (h : Grow st increment false phys) (hs : Sound L st)
    (hst : Steady tf st) (hc : Clear st increment) (hk : HeapKept L start st st.currentProc)
    (j : Slot) (q : PageNo) : entryOf (grown st increment false phys) j q = entryOf st j q := by
  by_cases hj : j = st.currentProc
  · subst hj
    obtain ⟨done, a, rest, hsteps, hback⟩ := h.result hs hst
    by_cases hq : ∃ b ∈ done, q = pageNo b
    · have hempty : entryOf st st.currentProc q = 0 := by
        apply h.empty hs hc hk
        obtain ⟨b, hb, rfl⟩ := hq
        refine ⟨b, ?_, rfl⟩
        rw [hsteps]
        exact List.mem_append_left _ hb
      obtain ⟨b, hb, rfl⟩ := hq
      rw [hempty]
      exact hback.gone b hb
    · apply hback.remapped.outside
      intro b hb he
      exact hq ⟨b, hb, he⟩
  · exact (within_grown hs hst h).entry_other hs.owned hj q

/-- The pages that were asked for are filled with zeroes, can be read and written, and lie in
frames that were free; the others are as they were. -/
theorem Grow.entry_done (h : Grow st increment true phys) (hs : Sound L st) (hst : Steady tf st) :
    (∀ q, (∃ a ∈ pageSteps (pageCeil st.current.heapBreak)
      (pageCeil (st.current.heapBreak + increment)), q = pageNo a) →
      ∃ n, ¬ InUse st.phys n ∧ phys.mem n = Page.zero ∧ n < 2 ^ 44 ∧
        entryOf (grown st increment true phys) st.currentProc q =
          userWord n (pteU ||| pteR ||| pteW)) ∧
    ∀ j q, (j = st.currentProc → ¬ ∃ a ∈ pageSteps (pageCeil st.current.heapBreak)
      (pageCeil (st.current.heapBreak + increment)), q = pageNo a) →
      entryOf (grown st increment true phys) j q = entryOf st j q := by
  have hreal : Realised _ _ _ _ _ _ := h.result hs hst
  constructor
  · rintro q ⟨a, ha, rfl⟩
    cases hl : lastAt ((pageSteps (pageCeil st.current.heapBreak)
        (pageCeil (st.current.heapBreak + increment))).map heapPage) (pageNo a) with
    | none => exact absurd rfl (lastAt_none.mp hl (heapPage a) (List.mem_map_of_mem ha))
    | some x =>
      obtain ⟨n, hf, he⟩ := hreal.present _ x hl
      obtain ⟨b, -, rfl⟩ := List.mem_map.mp (lastAt_some hl).1
      have hram := hf.inUse.1.2
      refine ⟨n, hf.fresh, hf.content, ?_, ?_⟩
      · unfold ramLast at hram
        omega
      · rw [entryOf, trees_grown]
        exact he
  · intro j q hq
    by_cases hj : j = st.currentProc
    · subst hj
      rw [entryOf, trees_grown]
      apply hreal.heap_outside
      intro a ha he
      exact hq rfl ⟨a, ha, he⟩
    · exact (within_grown hs hst h).entry_other hs.owned hj q

theorem HeapKept.grown (hk : HeapKept L start st st.currentProc) (hs : Sound L st)
    (hst : Steady tf st) (h : Grow st increment ok phys) (hc : Clear st increment) :
    HeapKept L start (Lazux.grown st increment ok phys) st.currentProc := by
  cases ok with
  | false => exact hk.congr (h.entry_failed hs hst hc hk _) rfl rfl
  | true =>
    obtain ⟨halign, hbound⟩ := h.steps hs
    have hspan := h.span hs hc
    obtain ⟨hnew, hold⟩ := h.entry_done hs hst
    have hb : ((Lazux.grown st increment true phys).processTable st.currentProc).heapBreak =
        st.current.heapBreak + increment := by
      rw [process_grown_self]
      rfl
    have hm : ((Lazux.grown st increment true phys).processTable st.currentProc).heapMax =
        st.current.heapMax := by
      rw [process_grown_self]
      rfl
    have hle : start.toNat ≤ st.current.heapBreak.toNat := hk.le_break
    have hhigh := hspan.high
    have hnewCeil := hspan.new
    have holdCeil := hspan.old
    have hsum := hspan.sum
    constructor
    · exact hk.aligned
    · rw [hb]
      omega
    · rw [hb]
      exact Or.inr hhigh
    · rw [hm]
      exact hk.max
    · intro q h1 h2
      rw [hb] at h2
      by_cases hq : (pageCeil st.current.heapBreak).toNat ≤ q.number * 4096
      · obtain ⟨n, -, -, -, he⟩ := hnew q ((mem_heapSteps halign hbound).mpr ⟨hq, h2⟩)
        rw [he]
        exact heapLeaf_data n
      · rw [hold _ q fun _ hin => hq ((mem_heapSteps halign hbound).mp hin).1]
        exact hk.heap q h1 (Nat.lt_of_not_le hq)
    · intro q h1 hq
      rw [hb] at h1
      rw [hold _ q fun _ hin => ?_]
      · apply hk.above q _ hq
        show (pageCeil st.current.heapBreak).toNat ≤ _
        omega
      · have := ((mem_heapSteps halign hbound).mp hin).2
        omega
    · intro q hq
      rw [hold _ q fun _ hin => ?_]
      · exact hk.guard q hq
      · have hlt := ((mem_heapSteps halign hbound).mp hin).2
        rw [hq] at hlt
        unfold guardPage at hlt
        omega

end Region

section Histories

variable {L : Layout} {ram : Memory} {st st' mid : KState} {i : Slot} {regs : TrapFrame}
  {start : Slot → Addr}

/-- Where the heap of each process starts: at the end of the image that was loaded, by the
process or, before it was forked, by a parent. -/
def heapStart : Watch (Slot → Addr) where
  first st := fun _ => st.current.heapBreak
  next start st _ st' := fun i =>
    if (st.processTable i).state = .unused then start st.currentProc
    else if (st'.processTable i).pageTable = (st.processTable i).pageTable then start i
    else (st'.processTable i).heapBreak

/-- The image ends where its heap starts. -/
def BelowHeap (elf : Addr → Except Stop Byte) : Prop :=
  ∀ phoff phnum start pl maxEnd, Plan elf phoff phnum start pl maxEnd →
    ∀ x ∈ pl, x.page.number * 4096 < (pageCeil maxEnd).toNat

/-- No segment covers the guard page. -/
def OffGuard (elf : Addr → Except Stop Byte) : Prop :=
  SegmentsAvoid elf fun q => q.number = guardPage

/-- The runs whose images leave the guard page free and whose heaps grow clear of devices. -/
def heaped : Conduct where
  file elf := BelowHeap elf ∧ OffGuard elf
  growth st := Clear st (st.frameOf st.currentProc).a0

theorem heapStart_congr {s m : KState} (h : Plain st s) (h' : Plain m st')
    (hcur : s.currentProc = st.currentProc) (i : Slot) :
    heapStart.next start st regs st' i = heapStart.next start s regs m i := by
  obtain ⟨f, u, c, hp⟩ := h.process i
  obtain ⟨f', u', c', hp'⟩ := h'.process i
  have hunused := h.used i
  simp only [heapStart, hp', hcur]
  rw [if_congr hunused.symm rfl rfl]
  simp only [hp]

theorem Replaced.new_root {newPt entryPc : ℕ} {pl : List Placement} {maxEnd : Addr} {tf : Slot}
    (hs : Sound L st) (hst : Steady tf st) (h : Replaced L st st' newPt entryPc pl maxEnd) :
    (st'.processTable st.currentProc).pageTable ≠ (st.processTable st.currentProc).pageTable := by
  obtain ⟨p2, q1, q2, page, htree, -⟩ := h.memory
  rw [h.process]
  intro he
  have hroot : held st.phys (trees st) (.node st.currentProc []) = some newPt := by
    exact (if_neg hst.used).trans he.symm
  refine htree.fresh [] newPt (Nat.zero_le _) ?_ (hs.owned.inUse _ _ hroot).1
  rw [held_root, withRoot_self]

theorem heapStart_same (hu : (st.processTable i).state ≠ .unused)
    (hp : (st'.processTable i).pageTable = (st.processTable i).pageTable) :
    heapStart.next start st regs st' i = start i := by
  simp only [heapStart]
  rw [if_neg hu, if_pos hp]

theorem heaps_footprint (hs : Sound L st) (hst : Steady st.currentProc st) (h : Footprint L st mid)
    (hfile : ∀ elf, st.a7 = sysExec → ExecFile L st.currentProc st elf → heaped.file elf)
    (hgrow : st.a7 = sysSbrk → heaped.growth st)
    (hk : ∀ i, (st.processTable i).state ≠ .unused → HeapKept L (start i) st i) (i : Slot)
    (hi : (mid.processTable i).state ≠ .unused) :
    HeapKept L (heapStart.next start st regs mid i) mid i := by
  cases h.fate hs hst hi with
  | kept hu he f fs hp =>
    rw [heapStart_same hu (by rw [hp])]
    refine (hk i hu).congr he ?_ ?_
    · rw [hp]
    · rw [hp]
  | grown ok phys h7 hg hc hm =>
    subst hc hm
    have hsame : ((grown st (st.frameOf st.currentProc).a0 ok phys).processTable
        st.currentProc).pageTable = (st.processTable st.currentProc).pageTable := by
      rw [process_grown_self]
    rw [heapStart_same hst.used hsame]
    exact (hk _ hst.used).grown hs hst hg (hgrow h7)
  | forked m phys ha hne hc hm =>
    subst hm
    obtain ⟨hu, -, -⟩ := ha.of_some
    have hnext : heapStart.next start st regs (forked st m i phys) i = start st.currentProc := by
      simp only [heapStart]
      rw [if_pos hu]
    rw [hnext]
    exact (hk _ hst.used).forked hs hst ha hne hc
  | execed newPt entryPc pl maxEnd elf phoff phnum h7 hf hp hr hc =>
    subst hc
    obtain ⟨hbelow, hguard⟩ := hfile elf h7 hf
    have hb : (mid.processTable st.currentProc).heapBreak = pageCeil maxEnd := by
      rw [hr.process]
    have hnext : heapStart.next start st regs mid st.currentProc = pageCeil maxEnd := by
      simp only [heapStart]
      rw [if_neg hst.used, if_neg (hr.new_root hs hst), hb]
    rw [hnext]
    apply heapKept_loaded hp (hbelow _ _ _ _ _ hp) hguard hb
    · rw [hr.process]
    · exact hr.entry_cases hst

theorem watched_heaps (h : Watched L ram heaped heapStart start st) (i : Slot)
    (hi : (st.processTable i).state ≠ .unused) : HeapKept L (start i) st i := by
  have hkeeps := h.keeps (P := fun start s => ∀ i, (s.processTable i).state ≠ .unused →
    HeapKept L (start i) s i) ?_ ?_ ?_
  · exact hkeeps i hi
  · intro s elf phoff phnum entryPc pl maxEnd hb hf hp hinst i hi
    have hone : i = s.currentProc := by
      by_contra hne
      have hc : (coord s).state i = .unused := by
        rw [(booted hb).2]
        exact if_neg hne
      exact hi hc
    subst hone
    have hbreak : s.current.heapBreak = pageCeil maxEnd := hinst.heapBreak
    have hfirst : heapStart.first s s.currentProc = pageCeil maxEnd := hbreak
    rw [hfirst]
    exact heapKept_loaded hp (hf.1 _ _ _ _ _ hp) hf.2 hbreak hinst.heapMax hinst.entry_cases
  · intro start s s' hplain hk i hi
    have hu := fun h0 => hi ((hplain.used i).mpr h0)
    exact (hk i hu).plain hplain
  · intro start s regs s' hset htrap hk i hi
    cases htrap with
    | call mid h8 hs hst hfoot hplain hfile hgrow =>
      have hcalled := plain_called regs s
      have hmid : (mid.processTable i).state ≠ .unused := fun h0 => hi ((hplain.used i).mpr h0)
      have hk' : ∀ j, ((entered (saveFrame regs s)).processTable j).state ≠ .unused →
          HeapKept L (start j) (entered (saveFrame regs s)) j := by
        intro j hj
        have hu := fun h0 => hj ((hcalled.used j).mpr h0)
        exact (hk j hu).plain hcalled
      rw [heapStart_congr hcalled hplain rfl]
      exact (heaps_footprint hs hst hfoot hfile hgrow hk' i hmid).plain hplain
    | other h8 hplain =>
      have hu := fun h0 => hi ((hplain.used i).mpr h0)
      obtain ⟨f, u, c, hp⟩ := hplain.process i
      rw [heapStart_same hu (by rw [hp])]
      exact (hk i hu).plain hplain

end Histories

section Answers

variable {L : Layout} {ram : Memory} {st st' mid : KState} {i : Slot} {regs : TrapFrame}
  {input : Input} {tf : Slot} {increment w : Word} {brk : Addr} {phys : Phys}

/-- A call is answered with `w`; besides memory and registers only the break may move. -/
structure Answers (st st' : KState) (w : Word) (brk : Addr) : Prop where
  resumed : st'.sscratch = st.currentProc
  answer : (st'.frameOf st.currentProc).a0 = w
  process : ∃ f, st'.processTable st.currentProc =
    { st.processTable st.currentProc with trapFrame := f, heapBreak := brk }
  others : ∀ j, j ≠ st.currentProc → st'.processTable j = st.processTable j

/-- Every entry stays as it was, and so does every page; frames are taken for tables at most. -/
structure Untouched (st st' : KState) : Prop where
  entries : ∀ j q, entryOf st' j q = entryOf st j q
  contents : ∀ f, InUse st.phys f → (∀ path, path.length ≤ 2 →
    held st.phys (trees st) (.node st.currentProc path) ≠ some f) → st'.phys.mem f = st.phys.mem f
  inUse : ∀ f, InUse st.phys f → InUse st'.phys f
  tables : ∀ f, InUse st'.phys f → ¬ InUse st.phys f → ∃ path, (path.length = 1 ∨ path.length = 2) ∧
    held st'.phys (trees st') (.node st.currentProc path) = some f

/-- The pages from the old break to `brk` are new, empty pages of the heap; nothing else is. -/
structure Extended (st : KState) (brk : Addr) (st' : KState) : Prop where
  new : ∀ q : PageNo, (pageCeil st.current.heapBreak).toNat ≤ q.number * 4096 →
    q.number * 4096 < (pageCeil brk).toNat → entryOf st st.currentProc q = 0 ∧
      ∃ n, ¬ InUse st.phys n ∧ st'.phys.mem n = Page.zero ∧ n < 2 ^ 44 ∧
        entryOf st' st.currentProc q = userWord n (pteU ||| pteR ||| pteW)
  entries : ∀ j (q : PageNo), (j = st.currentProc → q.number * 4096 <
    (pageCeil st.current.heapBreak).toNat ∨ (pageCeil brk).toNat ≤ q.number * 4096) →
    entryOf st' j q = entryOf st j q
  contents : ∀ f, InUse st.phys f → (∀ path, path.length ≤ 2 →
    held st.phys (trees st) (.node st.currentProc path) ≠ some f) → st'.phys.mem f = st.phys.mem f
  inUse : ∀ f, InUse st.phys f → InUse st'.phys f
  frames : ∀ f, InUse st'.phys f → ¬ InUse st.phys f →
    ∃ path, held st'.phys (trees st') (.node st.currentProc path) = some f

/-- Frames for the pages up to the new break, and for the tables they need, are left. -/
def HeapFits (st : KState) (increment : Word) : Prop :=
  Fits (trees st) st.currentProc ((pageSteps (pageCeil st.current.heapBreak)
    (pageCeil (st.current.heapBreak + increment))).map heapPage) st.phys

structure SbrkExact (st : KState) (increment : Word) (st' : KState) : Prop where
  query : increment = 0 →
    Answers st st' st.current.heapBreak st.current.heapBreak ∧ Untouched st st'
  negative : increment.msb → Answers st st' ePerm st.current.heapBreak ∧ Untouched st st'
  refused : increment ≠ 0 → increment.msb = false →
    st.current.heapMax.toNat < st.current.heapBreak.toNat + increment.toNat ∨
      ¬ HeapFits st increment → Answers st st' eNomem st.current.heapBreak ∧ Untouched st st'
  granted : increment ≠ 0 → increment.msb = false →
    st.current.heapBreak.toNat + increment.toNat ≤ st.current.heapMax.toNat →
    HeapFits st increment →
    Answers st st' st.current.heapBreak (st.current.heapBreak + increment) ∧
      Extended st (st.current.heapBreak + increment) st'

theorem Untouched.of_eq (ht : trees st' = trees st) (hp : st'.phys = st.phys) :
    Untouched st st' := by
  constructor
  · intro j q
    rw [entryOf, ht, hp]
  · intro f _ _
    rw [hp]
  · intro f hf
    rw [hp]
    exact hf
  · intro f hf hn
    rw [hp] at hf
    exact absurd hf hn

/-- A frame that a growing heap has left in use is a table's, if no entry has changed. -/
theorem Grow.untouched (h : Grow st increment false phys) (hs : Sound L st) (hst : Steady tf st)
    (hc : Clear st increment) {start : Addr} (hk : HeapKept L start st st.currentProc) :
    Untouched st { st with phys := phys } := by
  have hentries : ∀ j q, entryOf { st with phys := phys } j q = entryOf st j q :=
    h.entry_failed hs hst hc hk
  have howned : Owned L.protectedEnd (trees st) phys := (h.remapped hs hst).owned
  obtain ⟨done, a, rest, hsteps, hback⟩ := h.result hs hst
  have hleaf : ∀ q : PageNo, held phys (trees st) (.node st.currentProc q.leaf) =
      held st.phys (trees st) (.node st.currentProc q.leaf) := by
    intro q
    rw [held_leaf, held_leaf]
    exact congrArg (decodePte 2) (hentries st.currentProc q)
  have htight : Tight st.currentProc (trees st) st.phys (trees st) phys := by
    apply hback.tight
    intro b hb
    have hempty : entryOf st st.currentProc (pageNo b) = 0 := by
      apply h.empty hs hc hk
      refine ⟨b, ?_, rfl⟩
      rw [hsteps]
      exact List.mem_append_left _ hb
    rw [held_leaf]
    exact (congrArg (decodePte 2) hempty).trans (decodePte_zero 2)
  refine ⟨hentries, hback.mem, fun f hf => ?_, fun f hf hn => ?_⟩
  · by_cases ha : Apart st.phys (trees st) st.currentProc f
    · exact (hback.remapped.confined.spared f hf ha).1
    · -- the tree still has it
      rw [apart_iff] at ha
      by_cases he : (trees st).extra st.currentProc = some f
      · exact (howned.inUse (.extra st.currentProc) f he).1
      by_cases ht : ∃ path, path.length ≤ 2 ∧
          held st.phys (trees st) (.node st.currentProc path) = some f
      · obtain ⟨path, hp, hf⟩ := ht
        exact (howned.inUse _ f (hback.kept path f hp hf)).1
      by_cases hl : ∃ q : PageNo, held st.phys (trees st) (.node st.currentProc q.leaf) = some f
      · obtain ⟨q, hq⟩ := hl
        rw [← hleaf q] at hq
        exact (howned.inUse _ f hq).1
      · exact absurd ⟨he, fun path hp hf => ht ⟨path, hp, hf⟩, fun q hq => hl ⟨q, hq⟩⟩ ha
  · have hnot : ¬ Apart phys (trees st) st.currentProc f := fun ha => hn (htight f hf ha).1
    rw [apart_iff] at hnot
    by_contra hnone
    refine hnot ⟨fun he => hn (hs.owned.inUse (.extra st.currentProc) f he).1, fun path hp hf => ?_,
      fun q hq => ?_⟩
    · by_cases h0 : path.length = 0
      · obtain rfl := List.length_eq_zero_iff.mp h0
        exact hn (hs.owned.inUse (.node st.currentProc []) f hf).1
      · exact hnone ⟨path, by omega, hf⟩
    · rw [hleaf q] at hq
      exact hn (hs.owned.inUse _ f hq).1

theorem Grow.extended (h : Grow st increment true phys) (hs : Sound L st) (hst : Steady tf st)
    (hc : Clear st increment) {start : Addr} (hk : HeapKept L start st st.currentProc) :
    Extended st (st.current.heapBreak + increment) (grown st increment true phys) := by
  obtain ⟨halign, hbound⟩ := h.steps hs
  obtain ⟨hnd, -, -⟩ := heapSteps _ _ halign hbound
  obtain ⟨hnew, hold⟩ := h.entry_done hs hst
  have hreal : Realised L.protectedEnd (trees st) st.currentProc _ st.phys phys := h.result hs hst
  have htight : Tight st.currentProc (trees st) st.phys (trees st) phys := by
    apply hreal.tight userFlags_heapPages
    · intro x hx
      obtain ⟨b, -, rfl⟩ := List.mem_map.mp hx
      exact (by decide : isLeaf (pteU ||| pteR ||| pteW))
    · rw [List.map_map]
      exact hnd
    · intro x hx
      obtain ⟨b, hb, rfl⟩ := List.mem_map.mp hx
      have hempty : entryOf st st.currentProc (pageNo b) = 0 := h.empty hs hc hk ⟨b, hb, rfl⟩
      rw [held_leaf]
      exact (congrArg (decodePte 2) hempty).trans (decodePte_zero 2)
  constructor
  · intro q h1 h2
    have hin := (mem_heapSteps halign hbound).mpr ⟨h1, h2⟩
    exact ⟨h.empty hs hc hk hin, hnew q hin⟩
  · intro j q hq
    apply hold j q
    intro hj hin
    obtain ⟨h1, h2⟩ := (mem_heapSteps halign hbound).mp hin
    rcases hq hj with hlt | hge
    · omega
    · omega
  · exact hreal.grows.mem
  · exact hreal.grows.inUse
  · intro f hf hn
    rw [trees_grown]
    by_contra hnone
    refine hn (htight f hf fun r hr hheld => ?_).1
    cases r with
    | extra k =>
      obtain rfl : k = st.currentProc := hr
      exact hn (hs.owned.inUse (.extra st.currentProc) f hheld).1
    | node k path =>
      obtain rfl : k = st.currentProc := hr
      exact hnone ⟨path, hheld⟩

theorem sbrk_goes (htf : tf = st.currentProc) :
    ((st.frameOf tf).a0 = 0 → sysSbrkCall tf st = .ok (tf, st.setA0 tf st.current.heapBreak)) ∧
    ((st.frameOf tf).a0.msb → sysSbrkCall tf st = .ok (tf, st.setA0 tf ePerm)) ∧
    ((st.frameOf tf).a0 ≠ 0 → (st.frameOf tf).a0.msb = false →
      st.current.heapBreak + (st.frameOf tf).a0 > st.current.heapMax →
      sysSbrkCall tf st = .ok (tf, st.setA0 tf eNomem)) ∧
    ((st.frameOf tf).a0 ≠ 0 → (st.frameOf tf).a0.msb = false →
      ¬ st.current.heapBreak + (st.frameOf tf).a0 > st.current.heapMax →
      ∃ ok phys, Grow st (st.frameOf tf).a0 ok phys ∧ sysSbrkCall tf st =
        .ok (tf, (grown st (st.frameOf tf).a0 ok phys).setA0 tf
          (if ok then st.current.heapBreak else eNomem))) := by
  subst htf
  unfold sysSbrkCall
  dsimp only
  refine ⟨fun h0 => ?_, fun hneg => ?_, fun h0 hneg hmax => ?_, fun h0 hneg hmax => ?_⟩
  · rw [if_pos h0]
    rfl
  · have h0 : (st.frameOf st.currentProc).a0 ≠ 0 := by
      intro h0
      rw [h0] at hneg
      exact absurd hneg (by decide)
    rw [if_neg h0, if_pos hneg]
    rfl
  · rw [if_neg h0, if_neg (by simp [hneg]), if_pos hmax]
    rfl
  · rw [if_neg h0, if_neg (by simp [hneg]), if_neg hmax]
    rcases hres : sbrkPages (st.rootOf st.currentProc) (pageCeil st.current.heapBreak)
      (pageSteps (pageCeil st.current.heapBreak)
        (pageCeil (st.current.heapBreak + (st.frameOf st.currentProc).a0))) st.phys with ⟨ok, phys⟩
    refine ⟨ok, phys, ⟨h0, hneg, hmax, hres⟩, ?_⟩
    cases ok with
    | false => rfl
    | true => rfl

/-- All pages are there exactly if the frames are. -/
theorem Grow.fits_iff {ok : Bool} (h : Grow st increment ok phys) (hs : Sound L st)
    (hst : Steady tf st) : HeapFits st increment ↔ ok = true := by
  have hres := h.result hs hst
  cases ok with
  | true =>
    have hreal : Realised L.protectedEnd (trees st) st.currentProc _ st.phys phys := hres
    exact iff_of_true hreal.fits rfl
  | false =>
    obtain ⟨done, a, rest, hsteps, hback⟩ := hres
    refine iff_of_false (fun hfit => hback.stuck ?_) Bool.false_ne_true
    unfold HeapFits at hfit
    have hsplit : done ++ a :: rest = (done ++ [a]) ++ rest := by simp
    rw [hsteps, hsplit, List.map_append] at hfit
    exact hfit.left

variable {s m : KState}

/-- The same memory and trees with other registers. -/
structure SameTrees (st st' : KState) : Prop where
  trees : trees st' = trees st
  phys : st'.phys = st.phys

theorem SameTrees.entry_eq (h : SameTrees st st') (j : Slot) (q : PageNo) :
    entryOf st' j q = entryOf st j q := by
  rw [entryOf, h.trees, h.phys]

theorem Untouched.same (h : Untouched s m) (hs : SameTrees s st) (hm : SameTrees m st')
    (hcur : st.currentProc = s.currentProc) : Untouched st st' := by
  constructor
  · intro j q
    rw [hs.entry_eq, hm.entry_eq]
    exact h.entries j q
  · intro f
    rw [hs.phys, hs.trees, hm.phys, hcur]
    exact h.contents f
  · intro f
    rw [hs.phys, hm.phys]
    exact h.inUse f
  · intro f
    rw [hs.phys, hm.phys, hm.trees, hcur]
    exact h.tables f

theorem Extended.same (h : Extended s brk m) (hs : SameTrees s st) (hm : SameTrees m st')
    (hcur : st.currentProc = s.currentProc) (hb : st.current.heapBreak = s.current.heapBreak) :
    Extended st brk st' := by
  constructor
  · intro q
    rw [hs.entry_eq, hm.entry_eq, hs.phys, hm.phys, hcur, hb]
    exact h.new q
  · intro j q
    rw [hs.entry_eq, hm.entry_eq, hcur, hb]
    exact h.entries j q
  · intro f
    rw [hs.phys, hs.trees, hm.phys, hcur]
    exact h.contents f
  · intro f
    rw [hs.phys, hm.phys]
    exact h.inUse f
  · intro f
    rw [hs.phys, hm.phys, hm.trees, hcur]
    exact h.frames f

theorem sameTrees_called (regs : TrapFrame) (st : KState) :
    SameTrees (entered (saveFrame regs st)) st := ⟨(trees_entered regs st).symm, rfl⟩

theorem sameTrees_resumed (tf : Slot) (m : KState) (w : Word) :
    SameTrees m (resume tf (m.setA0 tf w)) :=
  ⟨((plain_setA0 m tf w).trans (plain_resume tf _)).trees_eq, rfl⟩

theorem answers_resumed (hst : Steady st.sscratch st)
    (hp : ∃ f, m.processTable st.currentProc =
      { st.processTable st.currentProc with trapFrame := f, heapBreak := brk })
    (ho : ∀ j, j ≠ st.currentProc → m.processTable j = st.processTable j) (w : Word) :
    Answers st (resume st.sscratch (m.setA0 st.sscratch w)) w brk := by
  rw [hst.frame]
  constructor
  · rfl
  · simp [resume, KState.setA0, KState.setFrame, KState.frameOf, KState.modifyProc]
  · obtain ⟨f, hp⟩ := hp
    refine ⟨{ f with a0 := w }, ?_⟩
    simp [resume, KState.setA0, KState.setFrame, KState.modifyProc, hp]
  · intro j hj
    rw [← ho j hj]
    show (m.setA0 st.currentProc w).processTable j = m.processTable j
    rw [KState.setA0, KState.setFrame, modifyProc_of_ne m hj]

theorem answers_grown (hst : Steady st.sscratch st) (increment : Word) (ok : Bool) (w : Word) :
    Answers st (resume st.sscratch
      ((grown (entered (saveFrame regs st)) increment ok phys).setA0 st.sscratch w)) w
      (if ok then st.current.heapBreak + increment else st.current.heapBreak) := by
  obtain ⟨f, hproc⟩ := current_entered hst regs
  have hb : (entered (saveFrame regs st)).current.heapBreak = st.current.heapBreak := by rw [hproc]
  refine answers_resumed hst ⟨f, ?_⟩ (fun j hj => ?_) w
  · have hself := @process_grown_self (entered (saveFrame regs st)) increment ok phys
    have hcur : (entered (saveFrame regs st)).currentProc = st.currentProc := rfl
    have hrecord : (entered (saveFrame regs st)).processTable st.currentProc = _ := hproc
    rw [hb, hcur, hrecord] at hself
    exact hself
  · rw [← entered_other hst regs hj]
    exact process_grown hj

theorem syscall_sbrk (h7 : (st.frameOf tf).a7 = sysSbrk) :
    syscall L input tf st = sysSbrkCall tf st := by
  unfold syscall
  dsimp only
  rw [h7, if_neg (by decide), if_neg (by decide), if_neg (by decide), if_neg (by decide),
    if_neg (by decide), if_pos rfl]

/-- `SYS_SBRK` comes back, and all or nothing has happened. -/
theorem sbrk_step (hset : Settled L st) {start : Addr} (hk : HeapKept L start st st.currentProc)
    (h8 : regs.scause = 8) (h7 : regs.a7 = sysSbrk) (hc : Clear st regs.a0) :
    ∃ st', takeTrap L regs input st = .ok st' ∧ SbrkExact st regs.a0 st' := by
  obtain ⟨hs, hst⟩ := hset.called regs
  have hframe := frameOf_entered hset.steady regs
  have hcall : ((entered (saveFrame regs st)).frameOf st.sscratch).a7 = sysSbrk := by
    rw [hframe]
    exact h7
  have hinc : ((entered (saveFrame regs st)).frameOf st.sscratch).a0 = regs.a0 := by rw [hframe]
  obtain ⟨f, hproc⟩ := current_entered hset.steady regs
  have hother : ∀ j, j ≠ st.currentProc →
      (entered (saveFrame regs st)).processTable j = st.processTable j :=
    fun j hj => entered_other hset.steady regs hj
  have hb : (entered (saveFrame regs st)).current.heapBreak = st.current.heapBreak := by rw [hproc]
  have hm : (entered (saveFrame regs st)).current.heapMax = st.current.heapMax := by rw [hproc]
  have hsame := sameTrees_called regs st
  have hcalled : Clear (entered (saveFrame regs st)) regs.a0 :=
    ⟨fun hneg => hb ▸ hm ▸ hc.fits hneg, fun hneg => hb ▸ hc.devices hneg⟩
  have hk' := hk.plain (plain_called regs st)
  have hfits : HeapFits (entered (saveFrame regs st)) regs.a0 ↔ HeapFits st regs.a0 := by
    unfold HeapFits
    rw [hb, trees_entered]
    rfl
  obtain ⟨hzero, hneg, hmax, hgrow⟩ := sbrk_goes hst.frame
  rw [hinc] at hzero hneg hmax hgrow
  rw [takeTrap, trapHandler_ecall hset.steady h8, syscall_sbrk hcall]
  -- an answer that leaves the break where it is
  have refuse : ∀ w, sysSbrkCall st.sscratch (entered (saveFrame regs st)) =
      .ok (st.sscratch, (entered (saveFrame regs st)).setA0 st.sscratch w) →
      ∃ st', ((sysSbrkCall st.sscratch (entered (saveFrame regs st))).bind fun r =>
        .ok (resume r.1 r.2)) = .ok st' ∧
        Answers st st' w st.current.heapBreak ∧ Untouched st st' := by
    intro w hw
    refine ⟨_, by rw [hw]; rfl, answers_resumed hset.steady ⟨f, hproc⟩ hother w, ?_⟩
    exact (Untouched.of_eq rfl rfl).same hsame (sameTrees_resumed _ _ w) rfl
  by_cases h0 : regs.a0 = 0
  · obtain ⟨st', hret, ha, hu⟩ := refuse _ (hzero h0)
    rw [hb] at ha
    refine ⟨st', hret, fun _ => ⟨ha, hu⟩, fun hmsb => ?_, fun hne => absurd h0 hne,
      fun hne => absurd h0 hne⟩
    rw [h0] at hmsb
    exact absurd hmsb (by decide)
  cases hmsb : regs.a0.msb with
  | true =>
    obtain ⟨st', hret, hdone⟩ := refuse _ (hneg hmsb)
    refine ⟨st', hret, fun h => absurd h h0, fun _ => hdone, fun _ hpos => ?_, fun _ hpos => ?_⟩
    · rw [hmsb] at hpos
      cases hpos
    · rw [hmsb] at hpos
      cases hpos
  | false =>
    have hnoneg : ¬ regs.a0.msb = true := by
      rw [hmsb]
      exact Bool.false_ne_true
    by_cases hover : (entered (saveFrame regs st)).current.heapBreak + regs.a0 >
        (entered (saveFrame regs st)).current.heapMax
    · obtain ⟨st', hret, hdone⟩ := refuse _ (hmax h0 hmsb hover)
      refine ⟨st', hret, fun h => absurd h h0, fun h => absurd h hnoneg, fun _ _ _ => hdone,
        fun _ _ hle _ => ?_⟩
      rw [hb, hm, gt_iff_lt, BitVec.lt_def, BitVec.toNat_add] at hover
      have := Nat.mod_le (st.current.heapBreak.toNat + regs.a0.toNat) (2 ^ 64)
      omega
    · obtain ⟨ok, phys, hg, hret⟩ := hgrow h0 hmsb hover
      have hspan := hg.span hs hcalled
      have hin : st.current.heapBreak.toNat + regs.a0.toNat ≤ st.current.heapMax.toNat := by
        have hsum := hspan.sum
        have hbelow := hg.below
        rw [hm, gt_iff_lt, BitVec.lt_def, hsum, hb] at hbelow
        omega
      have hok := (hfits.symm.trans (hg.fits_iff hs hst))
      cases ok with
      | false =>
        refine ⟨_, by rw [hret]; rfl, fun h => absurd h h0, fun h => absurd h hnoneg,
          fun _ _ _ => ⟨?_, ?_⟩, fun _ _ _ hfit => absurd (hok.mp hfit) Bool.false_ne_true⟩
        · exact answers_grown hset.steady _ false eNomem
        · exact (hg.untouched hs hst hcalled hk').same hsame (sameTrees_resumed _ _ eNomem) rfl
      | true =>
        refine ⟨_, by rw [hret]; rfl, fun h => absurd h h0, fun h => absurd h hnoneg,
          fun _ _ hor => ?_, fun _ _ _ _ => ⟨?_, ?_⟩⟩
        · rcases hor with hlt | hnot
          · omega
          · exact absurd (hok.mpr rfl) hnot
        · rw [if_pos rfl, hb]
          exact answers_grown hset.steady _ true st.current.heapBreak
        · rw [← hb]
          exact (hg.extended hs hst hcalled hk').same hsame (sameTrees_resumed _ _ _) rfl hb.symm

/-- `SYS_SBRK` is all or nothing, the pages of a heap are those between its start and its break,
and nothing is ever mapped below the stack. -/
theorem sbrk_exact {start : Slot → Addr} (h : Watched L ram heaped heapStart start st) :
    (∀ regs input, regs.scause = 8 → regs.a7 = sysSbrk → Clear st regs.a0 →
      ∃ st', takeTrap L regs input st = .ok st' ∧ SbrkExact st regs.a0 st') ∧
    ∀ i, (st.processTable i).state ≠ .unused →
      (∀ q : PageNo, (start i).toNat ≤ q.number * 4096 → q.number * 4096 < userStackBase.toNat →
        (UserLeaf (entryOf st i q) ↔
          q.number * 4096 < (pageCeil (st.processTable i).heapBreak).toNat)) ∧
      ∀ q : PageNo, q.number = guardPage → entryOf st i q = 0 := by
  have hset := reachable_settled h.conducted.reachable
  refine ⟨fun regs input h8 h7 hc => ?_, fun i hi => ?_⟩
  · exact sbrk_step hset (watched_heaps h _ hset.steady.used) h8 h7 hc
  · have hk := watched_heaps h i hi
    refine ⟨fun q h1 h2 => ⟨fun hu => ?_, fun hlt => (hk.heap q h1 hlt).1⟩, hk.guard⟩
    by_contra hge
    have hstack : q ≠ pageNo userStackBase := by
      rintro rfl
      exact absurd h2 (by decide)
    rw [hk.above q (Nat.le_of_not_lt hge) hstack] at hu
    exact userLeaf_kernelEntry q hu

theorem sbrk_moves (hset : Settled L st) (h8 : regs.scause = 8) (h7 : regs.a7 = sysSbrk)
    (hpos : regs.a0 ≠ 0) (hneg : regs.a0.msb = false)
    (hbelow : ¬ st.current.heapBreak + regs.a0 > st.current.heapMax) (hfit : HeapFits st regs.a0)
    (input : Input) : ∃ st', Step L st (.trap regs input) st' ∧
      st'.currentProc = st.currentProc ∧
      (st'.processTable st.currentProc).heapBreak = st.current.heapBreak + regs.a0 := by
  obtain ⟨hs, hst⟩ := hset.called regs
  have hframe := frameOf_entered hset.steady regs
  have hcall : ((entered (saveFrame regs st)).frameOf st.sscratch).a7 = sysSbrk := by
    rw [hframe]
    exact h7
  have hinc : ((entered (saveFrame regs st)).frameOf st.sscratch).a0 = regs.a0 := by rw [hframe]
  obtain ⟨f, hproc⟩ := current_entered hset.steady regs
  have hb : (entered (saveFrame regs st)).current.heapBreak = st.current.heapBreak := by rw [hproc]
  have hm : (entered (saveFrame regs st)).current.heapMax = st.current.heapMax := by rw [hproc]
  obtain ⟨-, -, -, hgrow⟩ := sbrk_goes hst.frame
  rw [hinc, hb, hm] at hgrow
  obtain ⟨ok, phys, hg, hret⟩ := hgrow hpos hneg hbelow
  have hfits : HeapFits (entered (saveFrame regs st)) regs.a0 := by
    unfold HeapFits at hfit ⊢
    rw [hb, trees_entered]
    exact hfit
  obtain rfl := (hg.fits_iff hs hst).mp hfits
  have hdel : Delivered regs.scause := by
    rw [h8]
    exact fun h => absurd h (by decide)
  have htrap : takeTrap L regs input st = .ok (resume st.sscratch
      ((grown (entered (saveFrame regs st)) regs.a0 true phys).setA0 st.sscratch
        st.current.heapBreak)) := by
    rw [takeTrap, trapHandler_ecall hset.steady h8, syscall_sbrk hcall, hret]
    rfl
  refine ⟨_, .trap _ _ _ _ hdel htrap, rfl, ?_⟩
  obtain ⟨f, hprocess⟩ := (answers_grown hset.steady regs.a0 true st.current.heapBreak).process
  exact congrArg Process.heapBreak hprocess

theorem aligned_heap (h : kmain smallLayout (segmentRam 0x400000 0) = .ok st) :
    st.current.heapBreak = 0x401000 ∧ st.current.heapMax = userStackBase - 4096 ∧
    ∀ increment, pageCeil (0x401000 + increment) = 0x402000 → HeapFits st increment := by
  obtain ⟨_, _, _, _, _, maxEnd, -, hinst, -, himg⟩ := installed h
  obtain ⟨rfl, -, rfl⟩ := himg alignedImage
  have hb : st.current.heapBreak = 0x401000 := hinst.heapBreak.trans (by decide)
  refine ⟨hb, hinst.heapMax, fun increment hone => ?_⟩
  have hsteps : pageSteps (pageCeil 0x401000) 0x402000 = [0x401000] := by decide
  have hfit := @Installed.fits _ _ _ _ _ hinst [heapPage 0x401000] (by decide)
  rw [HeapFits, hb, hone, hsteps]
  exact hfit

/-- The image of such a file ends before its heap and leaves the guard page alone. -/
theorem aligned_heaped {elf : Addr → Except Stop Byte}
    (hf : BootFile smallLayout (segmentRam 0x400000 0) elf) : heaped.file elf := by
  have hplan := alignedImage.plan.below (alignedImage.boot_file hf)
  constructor
  · intro phoff phnum start pl maxEnd h x hx
    obtain ⟨rfl, -, rfl⟩ := h.unique hplan
    obtain rfl := List.mem_singleton.mp hx
    decide
  · rw [OffGuard, hplan.avoids_iff]
    intro x hx
    obtain rfl := List.mem_singleton.mp hx
    decide

def sbrkCall : TrapFrame := { TrapFrame.zero with a7 := sysSbrk, a0 := 4096, scause := 8 }

theorem sbrk_exact_aligned : ∃ st start,
    Watched smallLayout (segmentRam 0x400000 0) heaped heapStart start st ∧
    (∃ st', takeTrap smallLayout sbrkCall ⟨⟨0, []⟩, []⟩ st = .ok st' ∧ SbrkExact st 4096 st') ∧
    ∀ q : PageNo, q.number = guardPage → entryOf st st.currentProc q = 0 := by
  obtain ⟨st, h⟩ := boot_returns alignedImage
  have hrun :
      Watched smallLayout (segmentRam 0x400000 0) heaped heapStart (heapStart.first st) st :=
    .boot st h fun elf hf => aligned_heaped hf
  obtain ⟨hcall, hheap⟩ := sbrk_exact hrun
  have hset := reachable_settled hrun.conducted.reachable
  refine ⟨st, _, hrun, hcall sbrkCall _ rfl rfl ?_, (hheap _ hset.steady.used).2⟩
  obtain ⟨elf, phoff, phnum, start, pl, maxEnd, -, hinst, -, himg⟩ := installed h
  have hend : maxEnd = 0x401000 := (himg alignedImage).2.2
  have hb : st.current.heapBreak = 0x401000 := by
    rw [hinst.heapBreak, hend]
    decide
  have ha : sbrkCall.a0 = 4096 := rfl
  have hsteps : pageSteps (pageCeil 0x401000) (pageCeil (0x401000 + 4096)) = [0x401000] := by decide
  constructor
  · intro _ _
    rw [hb, ha]
    decide
  · intro _ a hmem
    rw [hb, ha, hsteps] at hmem
    obtain rfl := List.mem_singleton.mp hmem
    decide

/-- An `init.elf` whose one page is the guard page. -/
def guardImage : InitImage smallLayout (segmentRam 0x3FFFE000 0) where
  entry := ⟨48, 120⟩
  phoff := 64
  phnum := 1
  start := 0x400000
  placements := [⟨pageNo 0x3FFFE000, Page.zero, pteU ||| pteR ||| pteW⟩]
  maxEnd := 0x3FFFF000
  found := by rfl
  plan := ⟨by rfl, by rfl, by rfl, by rfl, segment_plan (by rfl) (by rfl) (by decide) (by decide)⟩
  fits := pages_fit _ (by decide)

/-- The image ends below its heap, and the page below the stack is mapped. -/
theorem guard_page_mapped : ∃ st, Reachable smallLayout (segmentRam 0x3FFFE000 0) st ∧
    (∀ elf, BootFile smallLayout (segmentRam 0x3FFFE000 0) elf → BelowHeap elf) ∧
    ∃ q : PageNo, q.number = guardPage ∧ UserLeaf (entryOf st st.currentProc q) := by
  obtain ⟨st, h⟩ := boot_returns guardImage
  refine ⟨st, .boot st h, fun elf hf => ?_, pageNo 0x3FFFE000, by decide, ?_⟩
  · have hplan := guardImage.plan.below (guardImage.boot_file hf)
    intro phoff phnum start pl maxEnd hp x hx
    obtain ⟨rfl, -, rfl⟩ := hp.unique hplan
    obtain rfl := List.mem_singleton.mp hx
    decide
  · obtain ⟨elf, phoff, phnum, start, pl, maxEnd, -, hinst, -, himg⟩ := installed h
    obtain ⟨rfl, -, -⟩ := himg guardImage
    obtain ⟨n, hentry⟩ := hinst.entry_page (List.nodup_singleton _) (List.mem_singleton_self
      (Placement.mk (pageNo 0x3FFFE000) Page.zero (pteU ||| pteR ||| pteW))) (by decide)
    have hentry : entryOf st st.currentProc (pageNo 0x3FFFE000) =
      userWord n (pteU ||| pteR ||| pteW) := hentry
    rw [hentry]
    exact userLeaf_heap n

end Answers

end Lazux
