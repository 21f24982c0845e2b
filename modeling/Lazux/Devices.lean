import Lazux.HeapExact

/-! # The heap and the device windows

The windows of the PLIC and the UART lie in the middle of the addresses a heap can grow through. -/
namespace Lazux

open PagedMemory RadixForest Run

section Growth

variable {L : Layout} {ram : Memory} {st st' mid : KState} {i : Slot} {tf : Slot} {q : PageNo}
  {increment : Word} {ok : Bool} {phys : Phys}

/-- The entry of a device page is the kernel's: the page itself, for reading and writing. -/
def DevicesKept (st : KState) (i : Slot) : Prop :=
  ∀ q : PageNo, DevicePage q.number → entryOf st i q = identity q.number (pteR ||| pteW)

/-- If the heap is to grow over a device page, there are too few frames to get that far. -/
def ShortOfDevices (st : KState) (increment : Word) : Prop :=
  increment ≠ 0 → increment.msb = false → ¬ st.current.heapBreak + increment > st.current.heapMax →
    ∀ done a rest, pageSteps (pageCeil st.current.heapBreak)
      (pageCeil (st.current.heapBreak + increment)) = done ++ a :: rest →
      DevicePage (pageNo a).number →
      ¬ Fits (trees st) st.currentProc ((done ++ [a]).map heapPage) st.phys

theorem kernelEntry_device (h : DevicePage q.number) :
    kernelEntry L q = some (identity q.number (pteR ||| pteW)) := by
  have hlow : q.number < textStart := by
    rcases h with ⟨-, hp⟩ | hu
    · simp only [plicBase, plicSize] at hp
      unfold textStart
      omega
    · rw [hu]
      decide
  have htext := L.text_le
  have hkernel : KernelPage q.number := by
    rcases h with hp | hu
    · exact Or.inl hp
    · exact Or.inr (Or.inl hu)
  unfold kernelEntry kernelFlags
  rw [if_neg (by omega), if_neg (by omega), if_pos hkernel]
  rfl

theorem userLeaf_identity_device : ¬ UserLeaf (identity q.number (pteR ||| pteW)) := by
  intro h
  have hu := h.2.2
  rw [identity_user kernelFlags_rw] at hu
  cases hu

theorem identity_ne_zero (n : ℕ) (flags : Word) : identity n flags ≠ 0 := by
  intro h
  have hv := identity_valid n flags
  rw [h] at hv
  exact absurd hv (by simp)

theorem Grow.devices_iff (h : Grow st increment ok phys) (hs : Sound L st) (hst : Steady tf st)
    (hk : DevicesKept st st.currentProc) :
    DevicesKept (grown st increment ok phys) st.currentProc ↔ ShortOfDevices st increment := by
  have hres := h.result hs hst
  constructor
  · intro hkept _ _ _ done a rest hsteps hdev hfit
    have hentry := hkept (pageNo a) hdev
    cases ok with
    | true =>
      obtain ⟨hnew, -⟩ := h.entry_done hs hst
      obtain ⟨n, -, -, -, he⟩ := hnew (pageNo a) ⟨a, by rw [hsteps]; simp, rfl⟩
      rw [he] at hentry
      refine @userLeaf_identity_device (pageNo a) ?_
      rw [← hentry]
      exact userLeaf_heap n
    | false =>
      obtain ⟨done', a', rest', hsteps', hback⟩ := hres
      -- the loop got past the device page
      have hmem : a ∈ done' := by
        have hpre : done ++ [a] <+: done' ++ a' :: rest' := ⟨rest, by rw [← hsteps', hsteps]; simp⟩
        rcases Nat.lt_or_ge done'.length (done ++ [a]).length with hlt | hle
        · have hpre' : done' ++ [a'] <+: done' ++ a' :: rest' := ⟨rest', by simp⟩
          obtain ⟨t, ht⟩ := List.prefix_of_prefix_length_le hpre' hpre (by simp at hlt ⊢; omega)
          rw [← ht, List.map_append] at hfit
          exact absurd hfit.left hback.stuck
        · have hin := List.prefix_of_prefix_length_le hpre (List.prefix_append _ _) hle
          exact hin.subset (by simp)
      have hgone : entryOf (grown st increment false phys) st.currentProc (pageNo a) = 0 :=
        hback.gone a hmem
      rw [hgone] at hentry
      exact identity_ne_zero _ _ hentry.symm
  · intro hshort q hdev
    have hclear := hshort h.nonzero h.nonneg h.below
    rw [← hk q hdev]
    cases ok with
    | true =>
      obtain ⟨-, hold⟩ := h.entry_done hs hst
      apply hold _ q
      rintro - ⟨a, ha, rfl⟩
      obtain ⟨done, rest, hsteps⟩ := List.append_of_mem ha
      have hreal : Realised L.protectedEnd (trees st) st.currentProc _ st.phys phys := hres
      have hfit := hreal.fits
      have hsplit : done ++ a :: rest = (done ++ [a]) ++ rest := by simp
      rw [hsteps, hsplit, List.map_append] at hfit
      exact hclear done a rest hsteps hdev hfit.left
    | false =>
      obtain ⟨done', a', rest', hsteps', hback⟩ := hres
      apply hback.remapped.outside
      rintro b hb rfl
      obtain ⟨done, rest, rfl⟩ := List.append_of_mem hb
      have hfit := hback.fits
      have hsplit : done ++ b :: rest = (done ++ [b]) ++ rest := by simp
      rw [hsplit, List.map_append] at hfit
      refine hclear done b (rest ++ a' :: rest') ?_ hdev hfit.left
      rw [hsteps']
      simp

/-- The runs whose images and heaps keep off the devices. -/
def deviceless : Conduct where
  file elf := SegmentsAvoid elf fun q => DevicePage q.number
  growth st := ShortOfDevices st (st.frameOf st.currentProc).a0

theorem devicePage_ne_stack (h : DevicePage q.number) : q ≠ pageNo userStackBase := by
  rintro rfl
  exact absurd h (by decide)

theorem devicesKept_loaded {elf : Addr → Except Stop Byte} {phoff phnum entryPc : ℕ}
    {pl : List Placement} {maxEnd : Addr} (hplan : Plan elf phoff phnum entryPc pl maxEnd)
    (hfile : SegmentsAvoid elf fun q => DevicePage q.number)
    (he : ∀ q, entryOf st i q = (kernelEntry L q).getD 0 ∨
      ∃ n flags, entryOf st i q = userWord n flags ∧
        (q = pageNo userStackBase ∧ flags = pteU ||| pteR ||| pteW ∨
          ∃ x ∈ pl, x.page = q ∧ x.flags = flags)) : DevicesKept st i := by
  intro q hdev
  rcases he q with hk | ⟨n, flags, -, ⟨hstack, -⟩ | ⟨x, hx, rfl, -⟩⟩
  · rw [hk, kernelEntry_device hdev]
    rfl
  · exact absurd hstack (devicePage_ne_stack hdev)
  · exact absurd hdev ((hplan.avoids_iff _).mp hfile x hx)

theorem devices_footprint (hs : Sound L st) (hst : Steady st.currentProc st)
    (h : Footprint L st mid)
    (hfile : ∀ elf, st.a7 = sysExec → ExecFile L st.currentProc st elf → deviceless.file elf)
    (hgrow : st.a7 = sysSbrk → deviceless.growth st)
    (hk : ∀ i, (st.processTable i).state ≠ .unused → DevicesKept st i) (i : Slot)
    (hi : (mid.processTable i).state ≠ .unused) : DevicesKept mid i := by
  cases h.fate hs hst hi with
  | kept hu he =>
    intro q hdev
    rw [he]
    exact hk i hu q hdev
  | grown ok phys h7 hg hc hm =>
    subst hc hm
    exact (hg.devices_iff hs hst (hk _ hst.used)).mpr (hgrow h7)
  | forked m phys ha hne hc hm =>
    subst hm
    intro q hdev
    rcases child_entry hs hst ha hne hc q with ⟨-, hu, -⟩ | ⟨-, he⟩
    · rw [hk _ hst.used q hdev] at hu
      exact absurd hu userLeaf_identity_device
    · rw [he, kernelEntry_device hdev]
      rfl
  | execed newPt entryPc pl maxEnd elf phoff phnum h7 hf hp hr hc =>
    subst hc
    exact devicesKept_loaded hp (hfile elf h7 hf) (hr.entry_cases hst)

theorem conducted_devices (h : Conducted L ram deviceless st) (i : Slot)
    (hi : (st.processTable i).state ≠ .unused) : DevicesKept st i := by
  have hkeeps := h.keeps (P := fun s => ∀ i, (s.processTable i).state ≠ .unused → DevicesKept s i)
    ?_ ?_ ?_
  · exact hkeeps i hi
  · intro s elf phoff phnum entryPc pl maxEnd hb hf hp hinst i hi
    have hone : i = s.currentProc := by
      by_contra hne
      have hc : (coord s).state i = .unused := by
        rw [(booted hb).2]
        exact if_neg hne
      exact hi hc
    subst hone
    exact devicesKept_loaded hp hf hinst.entry_cases
  · intro s s' hplain hk i hi q hdev
    rw [hplain.entry_eq]
    exact hk i (fun h0 => hi ((hplain.used i).mpr h0)) q hdev
  · intro s s' hs hst hfoot hfile hgrow hk i hi
    exact devices_footprint hs hst hfoot hfile hgrow hk i hi

/-- Where the devices are mapped to themselves, the kernel reaches their registers. -/
theorem DevicesKept.translate (h : DevicesKept st i) (hs : Sound L st)
    (hu : (st.processTable i).state ≠ .unused) (sum : Bool) (va : Addr) (acc : Access)
    (hdev : DevicePage (va.toNat / 4096)) :
    kernelTranslate st.phys.mem (st.rootOf i) sum acc va = some va := by
  have hlow : va.toNat < 2 ^ 38 := by
    simp only [DevicePage, plicBase, plicSize, uart0Base] at hdev
    omega
  have hnum : (pageNo va).number = va.toNat / 4096 := by
    rw [number_pageNo]
    omega
  have hroot := hs.root hu
  have hentry := h (pageNo va) (by rwa [hnum])
  rw [entryOf, hroot] at hentry
  exact kernelTranslate_identity hs.owned hroot hlow kernelFlags_rw hentry (fun _ => by decide) _

/-- With images off the devices and heaps that do not get there, the devices stay mapped to
themselves in every process, and the kernel can reach their registers from the running one. -/
theorem devices_kept (h : Conducted L ram deviceless st) :
    (∀ i, (st.processTable i).state ≠ .unused → DevicesKept st i) ∧
    ∀ (va : Addr) (acc : Access), DevicePage (va.toNat / 4096) →
      kernelTranslate st.phys.mem st.satp st.sum acc va = some va := by
  have hset := reachable_settled h.reachable
  have hused := hset.steady.used
  have hk := conducted_devices h
  refine ⟨hk, fun va acc hdev => ?_⟩
  rw [hset.steady.satp]
  exact (hk _ hused).translate hset.sound hused st.sum va acc hdev

/-- The heap of the first program has grown by a page. -/
theorem devices_kept_aligned : ∃ st,
    Conducted smallLayout (segmentRam 0x400000 0) deviceless st ∧
    st.current.heapBreak = 0x402000 ∧ DevicesKept st st.currentProc ∧
    ∀ (va : Addr) (acc : Access), DevicePage (va.toNat / 4096) →
      kernelTranslate st.phys.mem st.satp st.sum acc va = some va := by
  obtain ⟨st, h⟩ := boot_returns alignedImage
  have hrun : Conducted smallLayout (segmentRam 0x400000 0) deviceless st := by
    refine .boot st h fun elf hf => ?_
    have hplan := alignedImage.plan.below (alignedImage.boot_file hf)
    refine (hplan.avoids_iff fun q => DevicePage q.number).mpr fun x hx => ?_
    obtain rfl := List.mem_singleton.mp hx
    decide
  have hset := reachable_settled hrun.reachable
  obtain ⟨hb, hm, hfits⟩ := aligned_heap h
  have hbelow : ¬ st.current.heapBreak + sbrkCall.a0 > st.current.heapMax := by
    rw [hb, hm]
    decide
  obtain ⟨st', hs, hcur, hbreak⟩ :=
    sbrk_moves hset rfl rfl (by decide : sbrkCall.a0 ≠ 0) (by decide)
    hbelow (hfits _ (by decide)) ⟨⟨0, []⟩, []⟩
  have hgrown : Conducted smallLayout (segmentRam 0x400000 0) deviceless st' := by
    refine hrun.trap hs (fun _ h7 => absurd h7 (by decide))
      fun _ _ _ _ _ done a rest hsteps hdev _ => ?_
    -- the one page the heap grows over is not a device's
    obtain ⟨f, hproc⟩ := current_entered hset.steady sbrkCall
    have hbrk : (entered (saveFrame sbrkCall st)).current.heapBreak = 0x401000 := by
      rw [hproc]
      exact hb
    have hinc : ((entered (saveFrame sbrkCall st)).frameOf st.currentProc).a0 = 4096 := by
      rw [← hset.steady.frame, frameOf_entered hset.steady]
      rfl
    have hone : pageSteps (pageCeil 0x401000) (pageCeil (0x401000 + 4096)) = [0x401000] := by decide
    have hmem : a ∈ [(0x401000 : Addr)] := by
      rw [← hone]
      have hin : a ∈ done ++ a :: rest := List.mem_append_right done List.mem_cons_self
      rw [← hsteps, hbrk, show ((entered (saveFrame sbrkCall st)).frameOf
        (entered (saveFrame sbrkCall st)).currentProc).a0 = 4096 from hinc] at hin
      exact hin
    rw [List.mem_singleton.mp hmem] at hdev
    exact absurd hdev (by decide)
  obtain ⟨hkept, hreach⟩ := devices_kept hgrown
  refine ⟨st', hgrown, ?_, hkept _ (reachable_settled hgrown.reachable).steady.used, hreach⟩
  show (st'.processTable st'.currentProc).heapBreak = 0x402000
  rw [hcur, hbreak, hb]
  rfl

/-- An `init.elf` whose one page lies below the PLIC. -/
def edgeImage : InitImage smallLayout (segmentRam 0x0BFFF000 0) where
  entry := ⟨48, 120⟩
  phoff := 64
  phnum := 1
  start := 0x400000
  placements := [⟨pageNo 0x0BFFF000, Page.zero, pteU ||| pteR ||| pteW⟩]
  maxEnd := 0x0C000000
  found := by rfl
  plan := ⟨by rfl, by rfl, by rfl, by rfl, segment_plan (by rfl) (by rfl) (by decide) (by decide)⟩
  fits := pages_fit _ (by decide)

/-- Its segments lie below the guard page and outside the windows of the devices; the first page
of its heap lies in one of them. -/
theorem heap_over_plic : ∃ st st', Reachable smallLayout (segmentRam 0x0BFFF000 0) st ∧
    (∀ elf, BootFile smallLayout (segmentRam 0x0BFFF000 0) elf →
      SegmentsAvoid elf fun q => DevicePage q.number ∨ guardPage ≤ q.number) ∧
    takeTrap smallLayout sbrkCall ⟨⟨0, []⟩, []⟩ st = .ok st' ∧
      ¬ DevicesKept st' st.currentProc := by
  obtain ⟨st, h⟩ := boot_returns edgeImage
  have hplan : ∀ elf, BootFile smallLayout (segmentRam 0x0BFFF000 0) elf →
      Plan elf 64 1 0x400000 edgeImage.placements 0x0C000000 := fun elf hf =>
    edgeImage.plan.below (edgeImage.boot_file hf)
  have hrun : Conducted smallLayout (segmentRam 0x0BFFF000 0) deviceless st := by
    refine .boot st h fun elf hf => ?_
    refine ((hplan elf hf).avoids_iff fun q => DevicePage q.number).mpr fun x hx => ?_
    obtain rfl := List.mem_singleton.mp hx
    decide
  have hset := reachable_settled hrun.reachable
  obtain ⟨elf, phoff, phnum, start, pl, maxEnd, -, hinst, -, himg⟩ := installed h
  obtain ⟨rfl, -, rfl⟩ := himg edgeImage
  obtain ⟨hs, hst⟩ := hset.called sbrkCall
  have hplain := plain_called sbrkCall st
  have hframe := frameOf_entered hset.steady sbrkCall
  have hinc : ((entered (saveFrame sbrkCall st)).frameOf st.sscratch).a0 = 4096 := by
    rw [hframe]
    rfl
  have hcall : ((entered (saveFrame sbrkCall st)).frameOf st.sscratch).a7 = sysSbrk := by
    rw [hframe]
    rfl
  obtain ⟨f, hproc⟩ := current_entered hset.steady sbrkCall
  have hb : (entered (saveFrame sbrkCall st)).current.heapBreak = 0x0C000000 := by
    rw [hproc]
    exact hinst.heapBreak.trans (by decide)
  have hm : (entered (saveFrame sbrkCall st)).current.heapMax = userStackBase - 4096 := by
    rw [hproc]
    exact hinst.heapMax
  have hbelow : ¬ (entered (saveFrame sbrkCall st)).current.heapBreak + 4096 >
      (entered (saveFrame sbrkCall st)).current.heapMax := by
    rw [hb, hm]
    decide
  have hgrow := (sbrk_goes hst.frame).2.2.2
  rw [hinc] at hgrow
  obtain ⟨ok, phys, hg, hret⟩ := hgrow (by decide) (by decide) hbelow
  refine ⟨st, _, .boot st h, fun elf hf => ((hplan elf hf).avoids_iff _).mpr fun x hx => ?_,
    by rw [takeTrap, trapHandler_ecall hset.steady rfl, syscall_sbrk hcall, hret]; rfl,
    fun hkept => ?_⟩
  · obtain rfl := List.mem_singleton.mp hx
    decide
  · have hdev : DevicesKept (entered (saveFrame sbrkCall st)) st.currentProc := by
      intro q hq
      rw [hplain.entry_eq]
      exact conducted_devices hrun _ hset.steady.used q hq
    have hgrown : DevicesKept (grown (entered (saveFrame sbrkCall st)) 4096 ok phys)
        st.currentProc := by
      intro q hq
      rw [← (sameTrees_resumed st.sscratch _ _).entry_eq]
      exact hkept q hq
    have hshort := (hg.devices_iff hs hst hdev).mp hgrown
    have hsteps : pageSteps (pageCeil 0x0C000000) (pageCeil (0x0C000000 + 4096)) =
        [0x0C000000] := by
      decide
    refine hshort (by decide) (by decide) hbelow [] 0x0C000000 [] ?_ (by decide) ?_
    · rw [hb, hsteps]
      rfl
    · have hfit := @Installed.fits _ _ _ _ _ hinst [heapPage 0x0C000000] (by decide)
      have htrees := trees_entered sbrkCall st
      rw [htrees]
      exact hfit

end Growth

end Lazux
