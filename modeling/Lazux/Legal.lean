import Lazux.KernelImage

/-! # Page tables the hardware accepts

Whether an entry is a leaf is read off its permissions, and those of a segment come from the
file. -/
namespace Lazux

open PagedMemory RadixForest Run

section Words

variable {w : Word} {L : Layout} {q : PageNo} {n : ℕ}

/-- If the entry is valid, the hardware accepts it as a leaf. -/
def Legal (w : Word) : Prop := hasFlag w pteV → HardwareLeaf w

instance (w : Word) : Decidable (Legal w) := inferInstanceAs (Decidable (_ → _))

theorem legal_zero : Legal 0 := by decide

theorem legal_congr {w w' : Word} (h : ∀ k < 4, w.getLsbD k = w'.getLsbD k) (hw : Legal w) :
    Legal w' := by
  unfold Legal HardwareLeaf at *
  rw [hasFlag_pteV, hasFlag_pteR, hasFlag_pteW, hasFlag_pteX] at *
  rw [← h 0 (by decide), ← h 1 (by decide), ← h 2 (by decide), ← h 3 (by decide)]
  exact hw

theorem legal_userWord {flags : Word} (h : Legal (flags ||| pteV)) : Legal (userWord n flags) := by
  apply legal_congr _ h
  intro k hk
  exact (getLsbD_userWord (by omega)).symm

theorem Legal.copied (h : Legal w) : Legal (copiedWord n w) := by
  apply legal_congr _ h
  intro k hk
  exact (getLsbD_copiedWord (by omega)).symm

theorem legal_kernel : Legal ((kernelEntry L q).getD 0) := by
  cases hk : kernelEntry L q with
  | none => exact legal_zero
  | some w =>
    obtain ⟨flags, hf, rfl⟩ := Option.map_eq_some_iff.mp hk
    have hflags : flags = pteR ||| pteX ∨ flags = pteR ∨ flags = pteR ||| pteW := by
      unfold kernelFlags at hf
      split_ifs at hf
      · exact Or.inl (Option.some.inj hf).symm
      · exact Or.inr (Or.inl (Option.some.inj hf).symm)
      · exact Or.inr (Or.inr (Option.some.inj hf).symm)
    have hlegal : Legal (flags ||| pteV) := by
      rcases hflags with rfl | rfl | rfl
      all_goals decide
    apply legal_congr _ hlegal
    intro k hk
    rw [Option.getD_some, identity, BitVec.or_assoc]
    exact (getLsbD_paToPte_or _ _ (by omega)).symm

/-- A segment that can be read, or executed without being written. -/
def Phdr.Accessible (ph : Phdr) : Prop :=
  hasFlag ph.pFlags pfR ∨ hasFlag ph.pFlags pfX ∧ ¬ hasFlag ph.pFlags pfW

instance (ph : Phdr) : Decidable ph.Accessible := inferInstanceAs (Decidable (_ ∨ _))

/-- These are the segments whose pages get legal entries. -/
theorem legal_segmentFlags (ph : Phdr) : Legal (segmentFlags ph ||| pteV) ↔ ph.Accessible := by
  have key : ∀ r w x : Bool, Legal (permissionFlags r w x ||| pteV) ↔ r ∨ x ∧ ¬ w := by decide
  rw [segmentFlags_eq]
  exact key _ _ _

end Words

section Copy

variable {ι : Type*} [DecidableEq ι] {H : Forest ι} {p : Phys} {lo : ℕ} {i j : ι}
  {P : List (Fin 512)} {f g : ℕ}

/-- Why a copy stops when every entry it meets is a leaf where it should be. -/
def CopyStop (e : Stop) : Prop := e = .panic "PANIC: vmm_copy_uvm out of memory!\n"

/-- The copy below `P` is under way: the tree that is read is as it was. -/
structure CopyGoes (lo : ℕ) (H : Forest ι) (i j : ι) (P : List (Fin 512)) (f g : ℕ) (p t : Phys) :
    Prop where
  owned : Owned lo H t
  source : held t H (.node i P) = some f
  target : held t H (.node j P) = some g
  entries : ∀ q, entry t.mem (H.root i) q = entry p.mem (H.root i) q

omit [DecidableEq ι] in
theorem Copied.goes {R : List (Fin 512) → Prop} {t t' : Phys} (hij : j ≠ i) (hP : P.length ≤ 2)
    (h : CopyGoes lo H i j P f g p t) (hc : Copied lo H i j R t t') :
    CopyGoes lo H i j P f g p t' := by
  obtain ⟨-, he, hheld⟩ := hc.source hij h.owned
  refine ⟨hc.grows.owned, (hheld P).trans h.source, hc.grows.kept P g hP h.target, fun q => ?_⟩
  exact (he q).trans (h.entries q)

theorem ends_copyEntry_page (hij : j ≠ i) {q : PageNo} {t : Phys}
    (h : CopyGoes lo H i j q.low f g p t)
    (hgood : hasFlag (entry p.mem (H.root i) q) pteV → isLeaf (entry p.mem (H.root i) q))
    (next : ℕ → ℕ → Phys → Except Stop Phys) :
    Ends (copyEntry next 0 f g t q.2.2) (CopyGoes lo H i j q.low f g p) CopyStop := by
  have hpage := copyEntry_page h.owned h.source h.target next
  refine ⟨hpage.ensures.mono fun t' ht' => ht'.goes hij le_rfl h, fun e he => ?_⟩
  have hpte : t.pte f q.2.2 = entry p.mem (H.root i) q := by
    rw [← h.entries q, entry_of_held h.source]
    rfl
  unfold copyEntry at he
  dsimp only at he
  rw [hpte] at he
  split at he
  · cases he
  rename_i hv
  have hleaf := hgood (by simpa using hv)
  rw [if_pos hleaf] at he
  split at he
  · cases he
  split at he
  · cases he
    rfl
  · cases he

/-- A copy of a tree whose valid entries are leaves runs out of frames or comes to an end. -/
theorem ends_vmmCopyUvm (hij : j ≠ i) (level : ℕ) (hl : level + P.length = 2) (ho : Owned lo H p)
    (hf : held p H (.node i P) = some f) (hg : held p H (.node j P) = some g)
    (hgood : ∀ q, hasFlag (entry p.mem (H.root i) q) pteV → isLeaf (entry p.mem (H.root i) q)) :
    Ends (vmmCopyUvm level f g p) (CopyGoes lo H i j P f g p) CopyStop := by
  induction level generalizing P f g p with
  | zero =>
    refine ends_foldlM ⟨ho, hf, hg, fun q => rfl⟩ fun t ht k _ => ?_
    obtain ⟨b, a, rfl⟩ := List.length_eq_two.mp (show P.length = 2 by omega)
    exact ends_copyEntry_page hij (q := (a, b, k)) ht (hgood _) _
  | succ level ih =>
    refine ends_foldlM ⟨ho, hf, hg, fun q => rfl⟩ fun t ht k _ => ?_
    split
    · exact ends_ok ht
    rcases ht.owned.pointers i P f (by omega) ht.source k with hz | ⟨n, hn, hw⟩
    · -- nothing below this entry
      have hpte : t.pte f k = 0 := hz
      unfold copyEntry
      dsimp only
      rw [hpte, if_pos (by decide)]
      exact ends_ok ht
    · have hP : P.length < 2 := by omega
      rw [copyEntry_table hP ht.owned ht.target hw hn]
      rcases hnt : nextTable t g k with ⟨_ | c, t1⟩
      · exact ends_error rfl
      · obtain ⟨hgrow, hc, he, -⟩ := nextTable_some ht.owned ht.target hP hnt
        have hother : ∀ path, held t1 H (.node i path) = held t H (.node i path) := by
          intro path
          exact hgrow.others _ fun path' h => hij (by injection h with h1; exact h1.symm)
        have hn1 : held t1 H (.node i (k :: P)) = some n := by
          rw [hother, held_cons, ht.source, Option.bind_some, hw, decodePte_pointer hP hn]
        have hgood1 : ∀ q, hasFlag (entry t1.mem (H.root i) q) pteV →
            isLeaf (entry t1.mem (H.root i) q) := by
          intro q
          rw [he, ht.entries]
          exact hgood q
        have hlen : level + (k :: P).length = 2 := by
          rw [List.length_cons]
          omega
        have hbelow := ih hlen hgrow.owned hn1 hc hgood1
        refine ⟨fun t' ht' => ?_, hbelow.stops⟩
        have hcopied := (vmmCopyUvm_meets hij level hlen hgrow.owned hn1 hc).ensures t' ht'
        obtain ⟨-, -, hheld⟩ := hcopied.source hij hgrow.owned
        have hentries := (hbelow.ensures t' ht').entries
        refine ⟨hcopied.grows.owned, ?_, ?_, fun q => ?_⟩
        · rw [hheld, hother]
          exact ht.source
        · exact hcopied.grows.kept P g (by omega) (hgrow.kept P g (by omega) ht.target)
        · rw [hentries q, he]
          exact ht.entries q

end Copy

section Trees

variable {L : Layout} {ram : Memory} {st st' mid : KState} {i j tf : Slot} {q : PageNo}
  {elf : Addr → Except Stop Byte} {phoff phnum start : ℕ} {pl : List Placement} {maxEnd : Addr}
  {regs : TrapFrame} {input : Input}

/-- If it is an ELF, every segment that takes pages can be accessed. -/
def Usable (elf : Addr → Except Stop Byte) : Prop :=
  readLe elf 0 4 = .ok elfNum → ∀ ph ∈ segments elf, 0 < ph.pMemsz.toNat → ph.Accessible

/-- The runs in which all files loaded are of that kind and keep clear of the kernel's RAM. -/
def usable : Conduct := ⟨fun elf => Usable elf ∧ ramClear.file elf, fun _ => True⟩

theorem Plan.legal (h : Plan elf phoff phnum start pl maxEnd) (ha : Usable elf)
    {x : Placement} (hx : x ∈ pl) : Legal (x.flags ||| pteV) := by
  obtain ⟨a, hmem, ph, hph, c, hc, -, hflags⟩ := (planSegments_pages h.segments).1 x hx
  rw [hflags, legal_segmentFlags]
  have hseg : ph ∈ Lazux.segments elf := by
    rw [segments_eq h.phoff_eq h.phnum_eq]
    exact List.mem_filterMap.mpr ⟨a, hmem, segmentAt_eq hph⟩
  apply ha h.magic ph hseg
  obtain ⟨k, hk, -⟩ := mem_pageSteps.mp hc
  omega

theorem legal_data (n : ℕ) : Legal (userWord n (pteU ||| pteR ||| pteW)) :=
  legal_userWord (by decide)

theorem Installed.legal (hp : Plan elf phoff phnum start pl maxEnd) (ha : Usable elf)
    (h : Installed L st pl start maxEnd) (q : PageNo) : Legal (entryOf st st.currentProc q) := by
  rcases h.entry_cases q with he | ⟨n, flags, he, ⟨-, hfl⟩ | ⟨x, hx, -, hfl⟩⟩
  · rw [he]
    exact legal_kernel
  · rw [he, hfl]
    exact legal_data n
  · rw [he, ← hfl]
    exact legal_userWord (hp.legal ha hx)

theorem Footprint.legal (hs : Sound L st) (hst : Steady tf st) (h : Footprint L st st')
    (hfile : ∀ elf, st.a7 = sysExec → ExecFile L st.currentProc st elf → Usable elf)
    (hl : ∀ j q, Legal (entryOf st j q)) (j : Slot) (q : PageNo) : Legal (entryOf st' j q) := by
  by_cases hu : (st'.processTable j).state = .unused
  · rw [entryOf, (trees_unused hu).1, entry_none]
    exact legal_zero
  cases h.fate hs hst hu with
  | kept hused he =>
    rw [he]
    exact hl j q
  | grown ok phys h7 hg hj hm =>
    subst hj hm
    rcases hg.entry_cases hs hst q with hold | ⟨-, hgone | ⟨n, hdata⟩⟩
    · rw [hold]
      exact hl _ q
    · rw [hgone]
      exact legal_zero
    · rw [hdata]
      exact legal_data n
  | forked m phys ha hne hc hm =>
    subst hm
    rcases child_entry hs hst ha hne hc q with ⟨-, -, n, -, he, -⟩ | ⟨-, he⟩
    · rw [he]
      exact (hl _ q).copied
    · rw [he]
      exact legal_kernel
  | execed newPt start pl maxEnd elf phoff phnum h7 hf hp hr hj =>
    subst hj
    rcases hr.entry_cases hst q with he | ⟨n, flags, he, ⟨-, hfl⟩ | ⟨x, hx, -, hfl⟩⟩
    · rw [he]
      exact legal_kernel
    · rw [he, hfl]
      exact legal_data n
    · rw [he, ← hfl]
      exact legal_userWord (hp.legal (hfile elf h7 hf) hx)

theorem conducted_legal (h : Conducted L ram usable st) (j : Slot) (q : PageNo) :
    Legal (entryOf st j q) := by
  have hkeeps := h.keeps (P := fun s => ∀ j q, Legal (entryOf s j q)) ?_ ?_ ?_
  · exact hkeeps j q
  · intro s elf phoff phnum start pl maxEnd hb hf hp hinst j q
    by_cases hj : j = s.currentProc
    · subst hj
      exact hinst.legal hp hf.1 q
    · have hc : (coord s).state j = .unused := by
        rw [(booted hb).2]
        exact if_neg hj
      rw [entryOf, (trees_unused hc).1, entry_none]
      exact legal_zero
  · intro s s' hplain hl j q
    rw [hplain.entry_eq]
    exact hl j q
  · intro s s' hs hst hfoot hfile _ hl
    exact hfoot.legal hs hst (fun elf h7 he => (hfile elf h7 he).1) hl

/-- Entries of the upper levels point to tables of the same tree, which no one else has; those
of the lowest are leaves the hardware accepts. -/
structure LegalTree (st : KState) (i : Slot) : Prop where
  upper : ∀ path f k, path.length < 2 → held st.phys (trees st) (.node i path) = some f →
    hasFlag ((st.phys.mem f).word k) pteV → ∃ n, (st.phys.mem f).word k = pointer n ∧
    InUse st.phys n ∧
      ∀ r, held st.phys (trees st) r = some n ↔ r = .node i (k :: path)
  lower : ∀ q, hasFlag (entryOf st i q) pteV → HardwareLeaf (entryOf st i q)

theorem Sound.legalTree (hs : Sound L st) (hl : ∀ q, Legal (entryOf st i q)) : LegalTree st i := by
  refine ⟨fun path f k hp hf hv => ?_, hl⟩
  rcases hs.owned.pointers i path f hp hf k with hz | ⟨n, hn, hw⟩
  · rw [hz] at hv
    exact absurd hv (by simp)
  · have hheld : held st.phys (trees st) (.node i (k :: path)) = some n := by
      rw [held_cons, hf, Option.bind_some, hw, decodePte_pointer hp hn]
    refine ⟨n, hw, (hs.owned.inUse _ n hheld).1, fun r => ⟨fun hr => ?_, fun hr => ?_⟩⟩
    · exact hs.owned.distinct _ _ n hr hheld
    · rw [hr]
      exact hheld

/-- The stop of `vmm_copy_uvm` at an entry of the lowest level that is no leaf. -/
def invalidNonLeaf : Stop := .panic "PANIC: vmm_copy_uvm: invalid non-leaf PTE at level 0!\n"

theorem mapIdentityRange_stops {root : ℕ} {a b : Addr} {flags : Word} {p : Phys} {e : Stop}
    (h : mapIdentityRange root a b flags p = .error e) :
    e = .panic "PANIC: vmm_map_kernel out of memory!\n" := by
  have hends : Ends (mapIdentityRange root a b flags p) (fun _ => True)
      (· = .panic "PANIC: vmm_map_kernel out of memory!\n") := by
    refine ends_foldlM trivial fun t _ addr _ => ?_
    split
    · exact ends_ok trivial
    · exact ends_error rfl
  exact hends.stops e h

theorem vmmMapKernel_stops {root : ℕ} {p : Phys} {e : Stop} (h : vmmMapKernel L root p = .error e) :
    e = .panic "PANIC: vmm_map_kernel out of memory!\n" := by
  unfold vmmMapKernel at h
  rcases bind_eq_error.mp h with h | ⟨_, -, h⟩
  · exact mapIdentityRange_stops h
  rcases bind_eq_error.mp h with h | ⟨_, -, h⟩
  · exact mapIdentityRange_stops h
  rcases bind_eq_error.mp h with h | ⟨_, -, h⟩
  · exact mapIdentityRange_stops h
  rcases bind_eq_error.mp h with h | ⟨_, -, h⟩
  · exact mapIdentityRange_stops h
  rcases bind_eq_error.mp h with h | ⟨_, -, h⟩
  · exact mapIdentityRange_stops h
  exact mapIdentityRange_stops h

theorem allocProc_stops {e : Stop} (h : allocProc L st = .error e) :
    e = .panic "PANIC: vmm_map_kernel out of memory!\n" := by
  unfold allocProc at h
  split at h
  · cases h
  dsimp only at h
  split at h
  · cases h
  rcases bind_eq_error.mp h with h | ⟨_, -, h⟩
  · exact vmmMapKernel_stops h
  · split at h
    · cases h
    · cases h

/-- `SYS_FORK` only stops the kernel when it runs out of frames. -/
theorem fork_stops {e : Stop} (hs : Sound L st) (hst : Steady tf st)
    (hl : ∀ q, Legal (entryOf st st.currentProc q)) (h : sysForkCall L tf st = .error e) :
    e = .panic "PANIC: vmm_map_kernel out of memory!\n" ∨ CopyStop e := by
  have htf := hst.frame
  subst htf
  unfold sysForkCall at h
  rw [modifyProc_eq_self (f := fun p => { p with trapFrame := st.frameOf st.currentProc }) rfl] at h
  rcases bind_eq_error.mp h with h | ⟨⟨r, mid⟩, ha, h⟩
  · exact Or.inl (allocProc_stops h)
  cases r with
  | none => cases h
  | some child =>
    right
    have ha := allocProc_result ha
    obtain ⟨root, stack, hsp⟩ := ha.spawned hs
    obtain ⟨hu, hcur, hother⟩ := ha.of_some
    have hne : child ≠ st.currentProc := by
      rintro rfl
      exact hst.used hu
    have hmid := sound_allocProc hs ha
    have hused : (mid.processTable st.currentProc).state ≠ .unused := by
      rw [hother _ hne.symm]
      exact hst.used
    have hchild : (mid.processTable child).state ≠ .unused := by simp [hsp.process]
    have hgood : ∀ q, hasFlag (entry mid.phys.mem ((trees mid).root st.currentProc) q) pteV →
        isLeaf (entry mid.phys.mem ((trees mid).root st.currentProc) q) := by
      intro q hv
      have hsame := (AllocProc.within hs ha).entry_other hs.owned hne.symm q
      rw [hsame] at hv ⊢
      exact hardwareLeaf_isLeaf (hl q hv)
    have hcopy := ends_vmmCopyUvm (P := []) hne 2 rfl hmid.owned (hmid.root hused)
      (hmid.root hchild) hgood
    apply hcopy.stops
    rcases bind_eq_error.mp h with h | ⟨phys, -, h⟩
    · simpa [KState.setA0, KState.setFrame, KState.modifyProc, KState.rootOf, hcur, hne.symm,
        hne] using h
    · cases h

/-- A page of a legal tree is given back with it. -/
theorem Sound.user_page_freed (hs : Sound L st) (hl : Legal (entryOf st i q))
    (hv : hasFlag (entryOf st i q) pteV) (hu : hasFlag (entryOf st i q) pteU) :
    ¬ InUse (vmmFreePt (st.rootOf i) st.phys) (frame (pteToPa (entryOf st i q))) := by
  have hused : (st.processTable i).state ≠ .unused := by
    intro hun
    rw [entryOf, (trees_unused hun).1, entry_none] at hv
    exact absurd hv (by simp)
  have hleaf : UserLeaf (entryOf st i q) := ⟨hv, hardwareLeaf_isLeaf (hl hv), hu⟩
  have hheld : held st.phys (trees st) (.node i q.leaf) =
      some (frame (pteToPa (entryOf st i q))) := by
    rw [held_leaf]
    exact decodePte_userLeaf hleaf
  rw [hs.owned.inUse_vmmFreePt (hs.root hused) rfl]
  rintro ⟨-, hnot⟩
  exact hnot _ hheld

/-- If every segment that is ever loaded can be accessed and none lies over the kernel's RAM, page
tables are legal trees, their copies never stop at an entry that is no leaf, and their pages are all
given back. -/
theorem legal_trees (h : Conducted L ram usable st) (i : Slot) : LegalTree st i ∧
    (∀ regs input, regs.scause = 8 → regs.a7 = sysFork →
      takeTrap L regs input st ≠ .error invalidNonLeaf) ∧
    ∀ q, hasFlag (entryOf st i q) pteV → hasFlag (entryOf st i q) pteU →
      ¬ InUse (vmmFreePt (st.rootOf i) st.phys) (frame (pteToPa (entryOf st i q))) := by
  have hset := reachable_settled h.reachable
  have hl := conducted_legal h
  refine ⟨hset.sound.legalTree (hl i), fun regs input h8 h7 hstop => ?_, fun q hv hu => ?_⟩
  · obtain ⟨hs, hst⟩ := hset.called regs
    have hcall : ((entered (saveFrame regs st)).frameOf st.sscratch).a7 = sysFork := by
      rw [frameOf_entered hset.steady]
      exact h7
    rw [takeTrap, trapHandler_ecall hset.steady h8, syscall_fork hcall] at hstop
    rcases bind_eq_error.mp hstop with hfork | ⟨r, -, hr⟩
    · have hlegal : ∀ q, Legal (entryOf (entered (saveFrame regs st))
          (entered (saveFrame regs st)).currentProc q) := by
        intro q
        rw [((plain_saveFrame regs st).trans (plain_entered _)).entry_eq]
        exact hl _ q
      rcases fork_stops hs hst hlegal hfork with he | he
      · injection he with he
        exact absurd he (by decide)
      · injection he with he
        exact absurd he (by decide)
    · cases hr
  · exact hset.sound.user_page_freed (hl i q) hv hu

theorem legal_trees_aligned : ∃ st, Conducted smallLayout (segmentRam 0x400000 0) usable st ∧
    LegalTree st st.currentProc ∧
    (∀ regs input, regs.scause = 8 → regs.a7 = sysFork →
      takeTrap smallLayout regs input st ≠ .error invalidNonLeaf) ∧
    ∀ q, hasFlag (entryOf st st.currentProc q) pteV → hasFlag (entryOf st st.currentProc q) pteU →
      ¬ InUse (vmmFreePt (st.rootOf st.currentProc) st.phys)
        (frame (pteToPa (entryOf st st.currentProc q))) := by
  obtain ⟨st, h⟩ := boot_returns alignedImage
  have hrun : Conducted smallLayout (segmentRam 0x400000 0) usable st := by
    refine .boot st h fun elf hf => ?_
    have hread := alignedImage.boot_file hf
    have hseg : segments elf = [⟨1, 6, 0, 0x400000, 0, 4096⟩] :=
      segments_single (readLe_below hread _ _ _ (by rfl)) (readLe_below hread _ _ _ (by rfl))
        (readPhdr_below hread _ _ (by rfl))
    refine ⟨fun _ => ?_, ((alignedImage.plan.below hread).avoids_iff KernelRam).mpr ?_⟩
    · rw [hseg]
      intro ph hph _
      obtain rfl := List.mem_singleton.mp hph
      decide
    · rintro x hx ⟨hlow, -⟩
      obtain rfl := List.mem_singleton.mp hx
      exact absurd hlow (by decide)
  exact ⟨st, hrun, legal_trees hrun st.currentProc⟩

/-- The same file with a segment that grants nothing. -/
def deniedRam : Memory :=
  fun f o => if f = 0x80201 ∧ o.val = 116 then 0 else segmentRam 0x400000 0 f o

def deniedImage : InitImage smallLayout deniedRam where
  entry := ⟨48, 120⟩
  phoff := 64
  phnum := 1
  start := 0x400000
  placements := [⟨pageNo 0x400000, Page.zero, pteU⟩]
  maxEnd := 0x401000
  found := by rfl
  plan := ⟨by rfl, by rfl, by rfl, by rfl, segment_plan (by rfl) (by rfl) (by decide) (by decide)⟩
  fits := pages_fit _ (by decide)

/-- Its page gets a valid entry of the lowest level that is no leaf. -/
theorem denied_page_not_leaf : ∃ st, kmain smallLayout deniedRam = .ok st ∧
    ¬ LegalTree st st.currentProc := by
  obtain ⟨st, h⟩ := boot_returns deniedImage
  refine ⟨st, h, fun hlegal => ?_⟩
  obtain ⟨elf, phoff, phnum, start, pl, maxEnd, -, hinst, -, himg⟩ := installed h
  obtain ⟨rfl, -, -⟩ := himg deniedImage
  obtain ⟨n, hentry⟩ := hinst.entry_page (List.nodup_singleton _)
    (List.mem_singleton_self (Placement.mk (pageNo 0x400000) Page.zero pteU)) (by decide)
  have hentry : entryOf st st.currentProc (pageNo 0x400000) = userWord n pteU := hentry
  have hv : hasFlag (entryOf st st.currentProc (pageNo 0x400000)) pteV := by
    rw [hentry]
    exact userWord_valid n pteU
  have hl := hardwareLeaf_isLeaf (hlegal.lower _ hv)
  rw [hentry, isLeaf_userWord_iff] at hl
  exact absurd hl (by decide)

end Trees

end Lazux
