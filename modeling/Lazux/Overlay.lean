import Lazux.Protection
import Lazux.Residue

/-! # Images over the kernel's memory

`load_elf` maps a segment at the address its header names, whatever the kernel has there. A page
that covers one of the program's own page tables is what the kernel reads in place of that table. -/
namespace Lazux

open PagedMemory RadixForest Run

theorem low_bit {w w' : Word} (h : w &&& 0x3FF = w' &&& 0x3FF) {k : ℕ} (hk : k < 10) :
    w.getLsbD k = w'.getLsbD k := by
  have hbit := congrArg (fun w : Word => w.getLsbD k) h
  have hmask : ∀ k : Fin 10, (0x3FF : Word).getLsbD k.val = true := by decide
  simpa only [BitVec.getLsbD_and, hmask ⟨k, hk⟩, Bool.and_true] using hbit

section Runs

variable {L : Layout} {ram : Memory} {C : Conduct} {st : KState} {t u : ℕ}

/-- Under the address of its page table `t` the kernel comes to the page `u` of the program; all
other frames are found where they are. -/
structure Covers (st : KState) (t u : ℕ) : Prop where
  ram : textStart ≤ t ∧ t < ramLast
  page : u < ramLast
  table : ∃ path, path.length ≤ 2 ∧ tableAt st.phys.mem (some st.satp) path = some t
  moved : t ≠ u
  comes : ∀ acc, kernelTranslate st.phys.mem st.satp true acc (pageAddr t) = some (pageAddr u)
  others : ∀ f, textStart ≤ f → f < ramLast → f ≠ t →
    kernelTranslate st.phys.mem st.satp true .read (pageAddr f) = some (pageAddr f)

/-- Memory as the kernel finds it. -/
def KState.found (st : KState) (t u : ℕ) : KState :=
  { st with phys := st.phys.setPage t (st.phys.mem u) }

/-- What has been written to `t` lies in `u`. -/
def KState.putBack (st fin : KState) (t u : ℕ) : KState :=
  { fin with phys := (fin.phys.setPage u (fin.phys.mem t)).setPage t (st.phys.mem t) }

/-- A fork does not come to frame `u` under its own address: it is neither free nor a page table nor
one of the pages to copy. -/
structure Aside (st : KState) (u : ℕ) : Prop where
  inUse : InUse st.phys u
  notTable : NotTable st.phys (trees st) u
  notCopied : ∀ q : PageNo, q.number < 2 ^ 19 → UserLeaf (entryOf st st.currentProc q) →
    frame (pteToPa (entryOf st st.currentProc q)) ≠ u

/-- The runs in which the kernel, too, reaches memory through the current page table. Where the
table maps the kernel's RAM to itself a trap does what it says; of the traps on a table that is
covered the forks are followed. -/
inductive Addressed (L : Layout) (ram : Memory) (C : Conduct) : KState → Prop where
  | boot (st : KState) (h : kmain L ram = .ok st) (hfile : ∀ elf, BootFile L ram elf → C.file elf)
      (hfound : KernelMapped st.phys.mem st.satp ∨ ∃ t u, Covers st t u) : Addressed L ram C st
  | store {st st' va b} (h : Addressed L ram C st) (hs : Step L st (.store va b) st') :
      Addressed L ram C st'
  | trap {st st' regs input} (h : Addressed L ram C st) (hs : Step L st (.trap regs input) st')
      (hfound : KernelMapped st.phys.mem st.satp) (hfound' : KernelMapped st'.phys.mem st'.satp)
      (hexec : regs.scause = 8 → regs.a7 = sysExec → ∀ elf,
        ExecFile L st.currentProc (entered (saveFrame regs st)) elf → C.file elf)
      (hgrow : regs.scause = 8 → regs.a7 = sysSbrk → C.growth (entered (saveFrame regs st))) :
      Addressed L ram C st'
  | fork {st fin t u regs input} (h : Addressed L ram C st) (hc : Covers st t u)
      (h8 : regs.scause = 8) (h7 : regs.a7 = sysFork) (hu : Aside (st.found t u) u)
      (ht : takeTrap L regs input (st.found t u) = .ok fin) : Addressed L ram C (st.putBack fin t u)

/-- Every leaf of every page table is a page of 4 KiB, never writable and executable at once.
If it is for users it maps a page above the kernel's image; if it is writable, nothing of
text, read-only data or RAMDISK; if it is executable, text or a page of a user program. -/
def LeavesProtected (L : Layout) (ram : Memory) (st : KState) : Prop :=
  ∀ root path f k, PageTable L ram st root → path.length ≤ 2 →
    tableAt st.phys.mem (some root) path = some f → hasFlag ((st.phys.mem f).word k) pteV →
    isLeaf ((st.phys.mem f).word k) → path.length = 2 ∧ Protected L st ((st.phys.mem f).word k)

theorem Covers.not_mapsRam {H : Forest Slot} {lo : ℕ} {i : Slot} (h : Covers st t u)
    (ho : Owned lo H st.phys) (hr : H.root i = some st.satp) : ¬ MapsRam L st.phys.mem st.satp := by
  intro hm
  obtain ⟨hlow, hhigh⟩ := h.ram
  have hpage := h.page
  simp only [ramLast] at hhigh hpage
  have hframe : frame (pageAddr t) = t := frame_pageAddr (by omega)
  have hself := hm.translate ho hr (by rwa [hframe]) (by rw [hframe]; exact h.ram.2) true
  rw [h.comes, Option.some.injEq] at hself
  have hsame := congrArg frame hself
  rw [hframe, frame_pageAddr (by omega)] at hsame
  exact h.moved hsame.symm

/-- Images that keep clear of the kernel's RAM cover nothing: their runs are as the source has
them. -/
theorem addressed_iff : Addressed L ram ramClear st ↔ Conducted L ram ramClear st := by
  constructor
  · intro h
    induction h with
    | boot st h hfile => exact .boot st h hfile
    | store _ hs ih => exact .store ih hs
    | trap _ hs _ _ hexec hgrow ih => exact .trap ih hs hexec hgrow
    | fork _ hc _ _ _ _ ih =>
      have hset := reachable_settled ih.reachable
      exact absurd ih.mapsRam (hc.not_mapsRam hset.sound.owned (hset.steady.root hset.sound))
  · intro h
    induction h with
    | boot st h hfile => exact .boot st h hfile (Or.inl (Conducted.boot st h hfile).kernelMapped)
    | store _ hs ih => exact .store ih hs
    | trap h hs hexec hgrow ih =>
      exact .trap ih hs h.kernelMapped (h.trap hs hexec hgrow).kernelMapped hexec hgrow

/-- In every run whose images keep clear of the kernel's RAM all leaves are protected. -/
theorem memory_protection (h : Addressed L ram ramClear st) : LeavesProtected L ram st :=
  fun _ _ _ _ hroot hp ht hv hl => leaf_protected (addressed_iff.mp h).reachable hroot hp ht hv hl

/-- After a fork of a program that may write its page. -/
theorem memory_protection_self : ∃ st child, Addressed smallLayout selfRam ramClear st ∧
    (st.processTable child).state = .ready ∧ UserLeaf (entryOf st child (pageNo 0x400000)) ∧
    hasFlag (entryOf st child (pageNo 0x400000)) pteW ∧ LeavesProtected smallLayout selfRam st := by
  obtain ⟨st, h⟩ := boot_returns selfImage
  have hrun := selfImage.conducted self_clear h
  obtain ⟨hslot, hfit, hclear⟩ := self_forks h
  obtain ⟨child, st', f, hret, -, -, hready, htwin⟩ :=
    @fork_twin smallLayout _ forkCall ⟨⟨0, []⟩, []⟩
    (reachable_settled hrun.reachable) rfl rfl hslot hfit hclear
  have hstep : Step smallLayout st (.trap forkCall ⟨⟨0, []⟩, []⟩) st' :=
    .trap _ _ _ _ (fun h => absurd h (by decide)) hret
  have hforked := addressed_iff.mpr
    (hrun.trap hstep (fun _ h7 => absurd h7 (by decide)) fun _ _ => trivial)
  obtain ⟨elf, phoff, phnum, start, pl, maxEnd, -, hinst, -, himg⟩ := installed h
  obtain ⟨rfl, -, -⟩ := himg selfImage
  obtain ⟨n, -, he, -⟩ := hinst.entry_some (List.nodup_singleton _) (List.mem_singleton_self _)
    (by decide)
  have hflags : UserFlags (pteU ||| pteR ||| pteW) := ⟨by decide, by decide⟩
  have hparent : UserLeaf (entryOf st st.currentProc (pageNo 0x400000)) := by
    rw [he]
    exact ⟨userWord_valid _ _, isLeaf_userWord (by decide), userWord_user hflags⟩
  have hsame := htwin.flags (pageNo 0x400000) (by decide) hparent
  refine ⟨st', child, hforked, hready, (htwin.leaves _ (by decide)).mpr hparent, ?_,
    memory_protection hforked⟩
  rw [he] at hsame
  rw [hasFlag_pteW, low_bit hsame (by norm_num), getLsbD_userWord (by norm_num)]
  decide

end Runs

section Order

variable {ι : Type*} [DecidableEq ι] {H : Forest ι} {lo n root : ℕ} {i : ι} {p p' : Phys}
  {elf : Addr → Except Stop Byte} {ph : Phdr} {a va pa maxEnd maxEnd' : Addr} {as : List Addr}
  {flags : Word}

theorem mapPage_low (ho : Owned lo H p) (hr : H.root i = some root) (hn : TakenBelow n p)
    (hlo : ramFirst ≤ n) (hmid : (pageNo va).mid ∈ tableSet p H i)
    (hlow : (pageNo va).low ∉ tableSet p H i) (hm : mapPage p root va pa flags = (true, p')) :
    held p' H (.node i (pageNo va).low) = some n := by
  have h0 : held p H (.node i []) = some root := hr
  have hfirst : nextTable p root (vpn va 2) = (some (frame (pteToPa (p.pte root (vpn va 2)))), p) :=
    if_pos ((valid_iff h0 (by decide)).mpr hmid)
  obtain ⟨-, ht, -⟩ := nextTable_some ho h0 (by decide) hfirst
  have hsecond :
      ¬ hasFlag (p.pte (frame (pteToPa (p.pte root (vpn va 2)))) (vpn va 1)) pteV = true :=
    fun hv => hlow ((valid_iff ht (by simp)).mp hv)
  unfold mapPage at hm
  rw [hfirst] at hm
  dsimp only at hm
  rcases e : nextTable p (frame (pteToPa (p.pte root (vpn va 2)))) (vpn va 1) with ⟨_ | low, p1⟩ <;>
    rw [e] at hm
  · cases hm
  obtain ⟨hg, hlow', -⟩ := nextTable_some ho ht (by simp) e
  unfold nextTable at e
  rw [if_neg hsecond] at e
  rcases ha : pmmAllocPage p with ⟨_ | m, p2⟩ <;> rw [ha] at e
  · cases e
  obtain ⟨rfl, -⟩ := hn.alloc hlo ha
  obtain rfl : m = low := by simpa using congrArg Prod.fst e
  obtain rfl : p1.setPte m (vpn va 0) (paToPte pa ||| flags ||| pteV) = p' := congrArg Prod.snd hm
  have hset : held (p1.setPte m (vpn va 0) (paToPte pa ||| flags ||| pteV)) H = _ :=
    hg.owned.held_setLeaf (q := pageNo va) hlow'
  rw [hset, Function.update_of_ne]
  · exact hlow'
  · simp [PageNo.low, PageNo.leaf]

/-- The page of a first segment that has one, and the table made for it, are the next two frames. -/
theorem loadSegments_first (ho : Owned lo H p) (hr : H.root i = some root) (hn : TakenBelow n p)
    (hlo : ramFirst ≤ n) (hph : readPhdr elf a = .ok (some ph)) (hone : pageSteps 0 ph.pMemsz = [0])
    (hmid : (pageNo ph.pVaddr).mid ∈ tableSet p H i)
    (hlow : (pageNo ph.pVaddr).low ∉ tableSet p H i)
    (h : loadSegments elf root (a :: as) maxEnd p = .ok (none, maxEnd', p')) :
    ∃ p1 m, Owned lo H p1 ∧ held p1 H (.node i (pageNo ph.pVaddr).low) = some (n + 1) ∧
      entry p1.mem (H.root i) (pageNo ph.pVaddr) = userWord n (segmentFlags ph) ∧
      loadSegments elf root as m p1 = .ok (none, maxEnd', p') := by
  have hzero : ph.pVaddr + 0 = ph.pVaddr := BitVec.add_zero _
  unfold loadSegments at h
  rw [hph, ok_bind] at h
  dsimp only at h
  rw [hone] at h
  obtain ⟨⟨message, p1⟩, hpages, h⟩ := bind_eq_ok.mp h
  cases message with
  | some m => cases h
  | none =>
    obtain ⟨⟨message', p2⟩, hpage, hrest⟩ := bind_eq_ok.mp hpages
    cases message' with
    | some m => cases hrest
    | none =>
      obtain rfl : p2 = p1 := by simpa [loadPages] using hrest
      unfold loadPage at hpage
      rcases ha : pmmAllocPage p with ⟨_ | k, q⟩ <;> rw [ha] at hpage
      · cases hpage
      obtain ⟨content, -, hmap⟩ := bind_eq_ok.mp hpage
      rw [hzero] at hmap
      rcases e : mapPage (q.setPage k content) root ph.pVaddr (pageAddr k) (segmentFlags ph)
        with ⟨_ | _, q2⟩ <;> rw [e] at hmap
      · cases hmap
      obtain rfl : q2 = p2 := by simpa [pure, Except.pure] using hmap
      obtain ⟨rfl, htaken⟩ := hn.alloc hlo ha
      obtain ⟨hp, -⟩ := placed_alloc (i := i) ho ha content
      have hplaced := (placeUserPage ho hr (segmentFlags_user ph) ha content e).1
      refine ⟨q2, _, hplaced.owned, ?_, ?_, h⟩
      · refine mapPage_low hp.owned hr (n := k + 1) (fun f hf => ?_) (by omega) ?_ ?_ e
        · rw [inUse_setPage]
          exact htaken f hf
        · rw [hp.grows.tables, Finset.union_empty]
          exact hmid
        · rw [hp.grows.tables, Finset.union_empty]
          exact hlow
      · rw [hplaced.entries, if_pos rfl, Option.getD_some]

end Order

section Cover

variable {st : KState}

/-- An `init.elf` of two pages: its code, and at the address of the page table that the code's entry
is made in a page that starts with another entry for it, writable and executable. -/
def coverDisk : List Byte :=
  [0x55, 0x5A, 0x41, 0x4C, 1, 0, 0, 0] ++ initName ++ List.replicate 24 0 ++
    [48, 0, 0, 0, 196, 0, 0, 0] ++
    [0x7F, 0x45, 0x4C, 0x46] ++ List.replicate 20 0 ++ le8 0x400000 ++ le8 64 ++
    List.replicate 16 0 ++ [2, 0, 0, 0, 0, 0, 0, 0] ++
    [1, 0, 0, 0, 5, 0, 0, 0] ++ le8 184 ++ le8 0x400000 ++ le8 0 ++ le8 12 ++ le8 4096 ++ le8 0 ++
    [1, 0, 0, 0, 6, 0, 0, 0] ++ le8 176 ++ le8 0x80290000 ++ le8 0 ++ le8 8 ++ le8 4096 ++ le8 0 ++
    le8 0x200A3C1F ++
    -- li a7, SYS_FORK; ecall; j .
    [0x93, 0x08, 0x30, 0x00, 0x73, 0x00, 0x00, 0x00, 0x6F, 0x00, 0x00, 0x00]

def coverRam : Memory := fun f o => if f = 0x80201 then coverDisk.getD o.val 0 else 0

def coverFile (a : Addr) : Except Stop Byte :=
  imageReader smallLayout coverRam ((48 : BitVec 32).setWidth 64 + a)

def codePage : Page := (copyIn coverFile 184 12).toOption.getD Page.zero

/-- The entry in the file, for the code's page at frame 0x8028F. -/
def coverWord : Word := userWord 0x8028F (pteU ||| pteR ||| pteW ||| pteX)

def tablePage : Page := Page.zero.setWord 0 coverWord

theorem cover_read {a : Addr} (h : a.toNat < 196) :
    coverFile a = .ok (coverDisk.getD (48 + a.toNat) 0) :=
  small_file (fun _ => if_pos rfl) (by omega)

theorem cover_table : copyIn coverFile 176 8 = .ok tablePage := by
  have hcopy : copyIn coverFile 176 8 =
      .ok fun o => if o.val < 8 then coverDisk.getD (224 + o.val) 0 else 0 := by
    refine copyIn_reads (c := fun k => coverDisk.getD (224 + k) 0) fun k hk => ?_
    have h176 : (176 : Addr).toNat = 176 := rfl
    have hsum : (176 + BitVec.ofNat 64 k : Addr).toNat = 176 + k := by
      rw [BitVec.toNat_add, h176, BitVec.toNat_ofNat]
      omega
    rw [cover_read (by omega), hsum, ← Nat.add_assoc]
  have hbytes : ∀ k : Fin 8, coverDisk.getD (224 + k.val) 0 =
      coverWord.extractLsb' (8 * k.val) 8 := by
    decide
  rw [hcopy]
  congr 1
  funext o
  unfold tablePage Page.setWord
  by_cases ho : o.val < 8
  · rw [if_pos ho, if_pos (show o.val / 8 = (0 : Fin 512).val by simp; omega), hbytes ⟨o.val, ho⟩,
      Nat.mod_eq_of_lt ho]
  · rw [if_neg ho, if_neg (show ¬ o.val / 8 = (0 : Fin 512).val by simp; omega)]
    rfl

def codePhdr : Phdr := ⟨1, 5, 184, 0x400000, 12, 4096⟩
def tablePhdr : Phdr := ⟨1, 6, 176, 0x80290000, 8, 4096⟩

theorem cover_phdrs : readPhdr coverFile 64 = .ok (some codePhdr) ∧
    readPhdr coverFile 120 = .ok (some tablePhdr) := ⟨by rfl, by rfl⟩

def codePlacement : Placement := ⟨pageNo 0x400000, codePage, pteU ||| pteR ||| pteX⟩
def tablePlacement : Placement := ⟨pageNo 0x80290000, tablePage, pteU ||| pteR ||| pteW⟩

theorem cover_plan : planSegments coverFile (phdrAddrs 64 2) 0 =
    .ok ([codePlacement, tablePlacement], 0x80291000) := by
  have haddrs : phdrAddrs 64 2 = [64, 120] := by decide
  rw [haddrs]
  exact segments_plan cover_phdrs.1 (by rfl) (by decide) (by decide)
    (segments_plan cover_phdrs.2 cover_table (by decide) (by decide) rfl)

def coverImage : InitImage smallLayout coverRam where
  entry := ⟨48, 196⟩
  phoff := 64
  phnum := 2
  start := 0x400000
  placements := [codePlacement, tablePlacement]
  maxEnd := 0x80291000
  found := by rfl
  plan := ⟨by rfl, by rfl, by rfl, by rfl, cover_plan⟩
  fits := pages_fit _ (by decide)

/-- What the image leaves in memory: the code in the page below the table at frame 0x80290, and a
page at the address of that table. -/
structure Overlaid (st : KState) (u : ℕ) : Prop where
  table : held st.phys (trees st) (.node st.currentProc (pageNo 0x400000).low) = some 0x80290
  code : entryOf st st.currentProc (pageNo 0x400000) = userWord 0x8028F (pteU ||| pteR ||| pteX)
  page : entryOf st st.currentProc (pageNo 0x80290000) = userWord u (pteU ||| pteR ||| pteW)
  content : st.phys.mem u = tablePage
  bound : u < 2 ^ 44
  rest : ∀ q : PageNo, entryOf st st.currentProc q = (kernelEntry smallLayout q).getD 0 ∨
    q = pageNo 0x400000 ∨ q = pageNo 0x80290000 ∨
    q = pageNo userStackBase ∧
    ∃ n, entryOf st st.currentProc q = userWord n (pteU ||| pteR ||| pteW)

/-- Before the image is loaded the frames below 0x8028F are taken. -/
theorem cover_taken {rootPt : ℕ} {p1 p2 : Phys} {c : List Byte} {i : Slot} {mid : KState}
    (ha : pmmAllocPage (initPmm smallLayout coverRam) = (some rootPt, p1))
    (hk : vmmMapKernel smallLayout rootPt (p1.zeroPage rootPt) = .ok p2)
    (hp : AllocProc smallLayout (mapped smallLayout coverRam rootPt p2 c) (some i) mid) :
    TakenBelow 0x8028F mid.phys := by
  have hsound := sound_mapped ha hk c
  have hlo := ramFirst_le_protectedEnd smallLayout
  have hup := (upward_booted ha hk).trans (hp.upward hsound)
  obtain ⟨n, hn, htaken⟩ := hup.taken _ hlo (takenBelow_init smallLayout coverRam)
  obtain ⟨root, stack, hsp⟩ := hp.spawned hsound
  have hboot := (bootTree ha hk).count
  have hspawn : freeFrames mid.phys + 70 = freeFrames p2 := hsp.memory.count
  have hcount := htaken.count (hlo.trans hn)
  have hinit : freeFrames (initPmm smallLayout coverRam) = 32252 := by
    rw [freeFrames_initPmm]
    decide
  have hlast : ramLast = 0x8028F + 32113 := by decide
  obtain rfl : n = 0x8028F := by omega
  exact htaken

/-- The code's page and its table are made first. -/
theorem cover_loaded {i : Slot} {mid fin : KState} {elf : Addr → Except Stop Byte}
    {phoff phnum start page : ℕ} {maxEnd : Addr} {q1 q2 : Phys} (hb : Bare smallLayout mid i)
    (htaken : TakenBelow 0x8028F mid.phys) (hread : ∀ a, Below (coverFile a) (elf a))
    (hl : Loaded mid i elf fin phoff phnum start page maxEnd q1 q2) :
    held fin.phys (trees mid) (.node i (pageNo 0x400000).low) = some 0x80290 ∧
      entry fin.phys.mem ((trees mid).root i) (pageNo 0x400000) =
        userWord 0x8028F (pteU ||| pteR ||| pteX) := by
  have hplan := coverImage.plan.below hread
  have hroot := hb.sound.root hb.used
  obtain rfl : phoff = 64 := Except.ok.inj (hl.phoff_eq.symm.trans hplan.phoff_eq)
  obtain rfl : phnum = 2 := Except.ok.inj (hl.phnum_eq.symm.trans hplan.phnum_eq)
  have haddrs : phdrAddrs (BitVec.ofNat 64 64) 2 = [64, 120] := by decide
  have hmid : (pageNo codePhdr.pVaddr).mid ∈ kernelTables :=
    mem_kernelTables.mpr ⟨(0, 0x80, 0), by decide, Or.inl (by decide)⟩
  have hlow : (pageNo codePhdr.pVaddr).low ∉ kernelTables := by
    have htwo : (pageNo codePhdr.pVaddr).low = [2, 0] := by decide
    rw [htwo]
    exact table_not_kernel (by decide)
  rw [← hb.tables] at hmid hlow
  have hsegments := hl.segments
  rw [haddrs] at hsegments
  obtain ⟨p1, m, ho, htable, hcode, hrest⟩ :=
    loadSegments_first hb.sound.owned hroot htaken (by decide)
    (readPhdr_below hread 64 _ cover_phdrs.1) (by decide) hmid hlow hsegments
  -- the second page has another number, and so has the stack
  obtain ⟨pl, hpl, hreal⟩ := loadSegments_ensures ho hroot [120] m _ hrest rfl
  have hstack : StackPlaced smallLayout.protectedEnd (trees mid) i page q1 fin.phys := by
    rw [hl.result]
    exact stackPlaced hreal.grows.owned hroot hl.stack
  obtain ⟨T, n, hg⟩ := hstack.grows
  refine ⟨hg.kept _ _ (by decide) (hreal.grows.kept _ _ (by decide) htable), ?_⟩
  have habsent : lastAt pl (pageNo 0x400000) = none := by
    refine lastAt_none.mpr fun x hx => ?_
    obtain ⟨a, ha, ph, hph, c, hc, hpage, -⟩ := (planSegments_pages hpl).1 x hx
    obtain rfl := List.mem_singleton.mp ha
    have hsame := hph.symm.trans (readPhdr_below hread 120 _ cover_phdrs.2)
    obtain rfl : ph = tablePhdr := Option.some.inj (Except.ok.inj hsame)
    have hone : pageSteps 0 tablePhdr.pMemsz = [0] := by decide
    rw [hone] at hc
    obtain rfl := List.mem_singleton.mp hc
    rw [hpage]
    decide
  rw [hstack.entry_of_ne (by decide), hreal.absent _ habsent]
  exact hcode

theorem cover_overlaid (h : kmain smallLayout coverRam = .ok st) : ∃ u, Overlaid st u := by
  obtain ⟨elf, phoff, phnum, start, pl, maxEnd, -, hinst, -, himg⟩ := installed h
  obtain ⟨rfl, -, -⟩ := himg coverImage
  have hnd : (coverImage.placements.map (·.page)).Nodup := by decide
  obtain ⟨u, hu, hpage, hcontent⟩ := hinst.entry_some hnd (x := tablePlacement)
    (List.mem_cons_of_mem _ (List.mem_singleton_self _)) (by decide)
  obtain ⟨rootPt, p1, p2, c, ha, hk, hstart⟩ := kmain_result h
  cases hstart with
  | started i mid fin entry console hp he hl =>
    have hsound := sound_mapped ha hk c
    have hb := hp.bare hsound
    obtain ⟨phoff', phnum', start', page, maxEnd', q1, q2, hl⟩ := loadElf_true hl
    obtain ⟨htable, hcode⟩ := cover_loaded hb (cover_taken ha hk hp)
      (coverImage.file_found ha hk hp he) hl
    have hready : (fin.processTable i).state ≠ .unused := by
      rw [hl.process]
      exact hb.used
    have htrees := (trees_running hready console).trans hl.trees_eq
    refine ⟨u, ?_, ?_, hpage, hcontent, hu, fun q => ?_⟩
    · rw [htrees]
      exact htable
    · rw [entryOf, htrees]
      exact hcode
    · rcases hinst.entry_cases q with hkernel | ⟨n, flags, hn, ⟨rfl, rfl⟩ | ⟨x, hx, rfl, rfl⟩⟩
      · exact Or.inl hkernel
      · exact Or.inr (Or.inr (Or.inr ⟨rfl, n, hn⟩))
      · rcases List.mem_cons.mp hx with rfl | hx
        · exact Or.inr (Or.inl rfl)
        · obtain rfl := List.mem_singleton.mp hx
          exact Or.inr (Or.inr (Or.inl rfl))

section Fork

variable {u : ℕ}

theorem held_userWord {i : Slot} {q : PageNo} {n : ℕ} {flags : Word}
    (hf : UserFlags flags) (hl : isLeaf flags) (hn : n < 2 ^ 44)
    (he : entryOf st i q = userWord n flags) :
    held st.phys (trees st) (.node i q.leaf) = some n := by
  have hdecode : decodePte 2 (entryOf st i q) = some n := by
    rw [he, decode_userWord hf hn, if_pos (isLeaf_userWord hl)]
  rw [held_leaf]
  exact hdecode

/-- A page of the program that lies above 2 GB is out of a fork's way. -/
theorem aside_of_high {L : Layout} (hs : Sound L st) {q : PageNo} (hhigh : 2 ^ 19 ≤ q.number)
    (hq : held st.phys (trees st) (.node st.currentProc q.leaf) = some u) : Aside st u := by
  refine ⟨(hs.owned.inUse _ u hq).1, fun i path hp hheld => ?_, fun q' hlow huser hsame => ?_⟩
  · have hrole := hs.owned.distinct _ _ _ hheld hq
    simp only [Role.node.injEq] at hrole
    rw [hrole.2] at hp
    simp [PageNo.leaf] at hp
  · have hheld : held st.phys (trees st) (.node st.currentProc q'.leaf) = some u := by
      rw [held_leaf, ← hsame]
      exact decodePte_userLeaf huser
    have hrole := hs.owned.distinct _ _ _ hheld hq
    simp only [Role.node.injEq, PageNo.leaf, List.cons.injEq, and_true, true_and] at hrole
    have hnum : q'.number = q.number := by
      rw [PageNo.number, PageNo.number, hrole.1, hrole.2.1, hrole.2.2]
    omega

theorem Overlaid.page_held (h : Overlaid st u) :
    held st.phys (trees st) (.node st.currentProc (pageNo 0x80290000).leaf) = some u :=
  held_userWord ⟨by decide, by decide⟩ (by decide) h.bound h.page

theorem Overlaid.code_held (h : Overlaid st u) :
    held st.phys (trees st) (.node st.currentProc (pageNo 0x400000).leaf) = some 0x8028F :=
  held_userWord ⟨by decide, by decide⟩ (by decide) (by norm_num) h.code

theorem Overlaid.moved (h : Overlaid st u) (hset : Settled smallLayout st) : u ≠ 0x80290 := by
  rintro rfl
  have hsame := hset.sound.owned.distinct _ _ _ h.table (h.page_held)
  simp only [Role.node.injEq] at hsame
  exact absurd hsame.2 (by decide)

/-- The kernel finds the program's page in the place of the table. -/
theorem Overlaid.covers (h : Overlaid st u) (hset : Settled smallLayout st) :
    Covers st 0x80290 u := by
  have hroot := hset.steady.root hset.sound
  have ho := hset.sound.owned
  have hflags : UserFlags (pteU ||| pteR ||| pteW) := ⟨by decide, by decide⟩
  have hu := (ho.inUse _ u (h.page_held)).1.1.2
  have haddr : pageAddr 0x80290 = (0x80290000 : Addr) := by decide
  refine ⟨by decide, hu, ⟨(pageNo 0x400000).low, by decide, ?_⟩, (h.moved hset).symm,
    fun acc => ?_, fun f hlow hhigh hne => ?_⟩
  · rw [← hroot]
    exact h.table
  · have hpage := h.page
    rw [entryOf, hroot] at hpage
    have hacc : permits (userWord u (pteU ||| pteR ||| pteW)) acc := by
      cases acc with
      | read => exact userWord_read (by decide)
      | write =>
        rw [permits, hasFlag_pteW, getLsbD_userWord (by norm_num)]
        decide
    rw [haddr, translate_data ho hroot (by decide) hacc hpage (canonical_of_lt (by decide))]
    congr 1
    apply BitVec.eq_of_toNat_eq
    have hoff : (0x80290000 : Addr).toNat % 4096 = 0 := by decide
    simp only [ramLast] at hu
    rw [leafPa_toNat, frame_userWord hflags h.bound, hoff, pageAddr_toNat (by omega), Nat.add_zero]
  · have hnum : (pageNo (pageAddr f)).number = f :=
      number_pageAddr (by simp only [ramLast] at hhigh; omega)
    have hframe : frame (pageAddr f) = f := frame_pageAddr (by simp only [ramLast] at hhigh; omega)
    refine kernelTranslate_ram (L := smallLayout) ho hroot (by rwa [hframe])
      (by rwa [hframe]) ?_ true
    rcases h.rest (pageNo (pageAddr f)) with hk | hq | hq | ⟨hq, -⟩
    · rw [entryOf, hroot] at hk
      exact hk
    all_goals
      have hsame := congrArg PageNo.number hq
      rw [hnum] at hsame
    · have hcode : (pageNo 0x400000).number = 0x400 := by decide
      simp only [textStart] at hlow
      omega
    · have hpage : (pageNo 0x80290000).number = 0x80290 := by decide
      exact absurd (hsame.trans hpage) hne
    · have hstack : (pageNo userStackBase).number = 0x3FFFF := by decide
      simp only [textStart] at hlow
      omega

theorem Overlaid.empty (h : Overlaid st u) (k : Fin 512) (hk : k ≠ 0) :
    (st.phys.mem 0x80290).word k = 0 := by
  have hlow : (pageNo 0x400000).low = PageNo.low (0, 2, k) := by simp only [PageNo.low]; decide
  have htable := h.table
  rw [hlow] at htable
  have hword : entryOf st st.currentProc (0, 2, k) = (st.phys.mem 0x80290).word k :=
    entry_of_held htable
  rw [← hword]
  rcases h.rest (0, 2, k) with hkernel | hq | hq | ⟨hq, -⟩
  · have hnone : kernelEntry smallLayout (0, 2, k) = none := by
      have hk := k.isLt
      have hnum : PageNo.number (0, 2, k) = 1024 + k.val := by
        simp [PageNo.number]
      have hdata := smallLayout.text_le
      have hrodata := smallLayout.rodata_le
      have hpage : ¬ KernelPage (1024 + k.val) := by
        simp only [KernelPage, plicBase, plicSize, uart0Base, textStart, ramLast]
        omega
      simp only [textStart] at hdata
      rw [kernelEntry, hnum, kernelFlags, if_neg (by simp only [textStart]; omega),
        if_neg (by omega),
        if_neg hpage, Option.map_none]
    rw [hkernel, hnone, Option.getD_none]
  · exact absurd ((congrArg (fun q : PageNo => q.2.2) hq).trans (by decide)) hk
  · have hfirst : (0 : Fin 512) ≠ (pageNo 0x80290000).1 := by decide
    exact absurd (congrArg (fun q : PageNo => q.1) hq) hfirst
  · have hsecond : (2 : Fin 512) ≠ (pageNo userStackBase).2.1 := by decide
    exact absurd (congrArg (fun q : PageNo => q.2.1) hq) hsecond

/-- To the kernel the code's page is writable. -/
theorem Overlaid.found_phys (h : Overlaid st u) :
    (st.found 0x80290 u).phys = st.phys.setPte 0x80290 (pageNo 0x400000).2.2 coverWord := by
  have hpage : st.phys.mem u = (st.phys.mem 0x80290).setWord (pageNo 0x400000).2.2 coverWord := by
    rw [h.content]
    have hslot : (pageNo 0x400000).2.2 = 0 := by decide
    refine word_injective fun k => ?_
    rw [hslot, tablePage]
    by_cases hk : k = 0
    · rw [hk, word_setWord, word_setWord]
    · rw [word_setWord_ne _ hk, word_setWord_ne _ hk, word_zero, h.empty k hk]
  rw [KState.found, hpage]
  rfl

theorem Overlaid.found_entry (h : Overlaid st u) (hset : Settled smallLayout st) (j : Slot)
    (q : PageNo) :
    entryOf (st.found 0x80290 u) j q =
      if j = st.currentProc ∧ q = pageNo 0x400000 then coverWord else entryOf st j q := by
  have hset' := hset.sound.owned.entry_setLeaf (w := coverWord) h.table j q
  rw [← h.found_phys] at hset'
  exact hset'

theorem Overlaid.found_settled (h : Overlaid st u) (hset : Settled smallLayout st) :
    Settled smallLayout (st.found 0x80290 u) := by
  have hflags : UserFlags (pteU ||| pteR ||| pteW ||| pteX) := ⟨by decide, by decide⟩
  have howned := hset.sound.owned.setLeaf (w := coverWord) h.table
    (leafWord_userWord hflags (by norm_num) _) (by
      intro n hn
      have hdecode : decodePte 2 coverWord = some 0x8028F := by
        rw [coverWord, decode_userWord hflags (by norm_num)]
        rfl
      obtain rfl : 0x8028F = n := Option.some.inj (hdecode.symm.trans hn)
      obtain ⟨hu, hlo⟩ := hset.sound.owned.inUse _ _ h.code_held
      refine ⟨hu, hlo, fun r hr hheld => hr ?_⟩
      exact hset.sound.owned.distinct _ _ _ hheld h.code_held)
  rw [← h.found_phys] at howned
  exact ⟨hset.sound.withPhys rfl howned,
    ⟨hset.steady.running, hset.steady.frame, hset.steady.satp⟩, hset.run⟩

theorem Overlaid.aside (h : Overlaid st u) (hset : Settled smallLayout st) :
    Aside (st.found 0x80290 u) u := by
  have he := h.found_entry hset st.currentProc (pageNo 0x80290000)
  have hne : ¬ pageNo 0x80290000 = pageNo 0x400000 := by decide
  rw [if_neg fun hc => hne hc.2, h.page] at he
  exact aside_of_high (h.found_settled hset).sound (by decide)
    (held_userWord (i := st.currentProc) ⟨by decide, by decide⟩ (by decide) h.bound he)

/-- Whose tables are neither of the two frames has the same tables in the machine's memory. -/
theorem putBack_tables {L : Layout} {fin : KState} {t : ℕ} {j : Slot} (hs : Sound L fin)
    {r r' : Role Slot (Fin 512)} (ht : held fin.phys (trees fin) r = some t) (hr : r.owner ≠ j)
    (hu : held fin.phys (trees fin) r' = some u) (hr' : r'.owner ≠ j) {path : List (Fin 512)}
    (hp : path.length ≤ 2) {f : ℕ}
    (hf : tableAt fin.phys.mem ((trees fin).root j) path = some f) :
    tableAt (st.putBack fin t u).phys.mem ((trees fin).root j) path = some f ∧
      (st.putBack fin t u).phys.mem f = fin.phys.mem f := by
  -- the tree of this process alone
  let H : Forest Unit := ⟨fun _ => (trees fin).root j, fun _ => none⟩
  have hsame : ∀ g, ¬ NotTable fin.phys H g → (st.putBack fin t u).phys.mem g = fin.phys.mem g := by
    intro g hg
    obtain ⟨-, path', hp', hheld⟩ : ∃ _ : Unit, ∃ path', path'.length ≤ 2 ∧
        held fin.phys (trees fin) (.node j path') = some g := by
      by_contra hno
      refine hg fun i path' hp' hheld => hno ⟨i, path', hp', hheld⟩
    have hgt : g ≠ t := by
      rintro rfl
      exact hr (congrArg Role.owner (hs.owned.distinct _ _ _ ht hheld))
    have hgu : g ≠ u := by
      rintro rfl
      exact hr' (congrArg Role.owner (hs.owned.distinct _ _ _ hu hheld))
    rw [KState.putBack, mem_setPage_of_ne _ hgt, mem_setPage_of_ne _ hgu]
  have hheld := congrFun (held_congr hsame) (.node () path)
  rw [held_node, held_node] at hheld
  refine ⟨hheld.trans hf, hsame f fun hnot => hnot () path hp hf⟩

theorem coverWord_leaf : UserLeaf coverWord := by
  have hflags : UserFlags (pteU ||| pteR ||| pteW ||| pteX) := ⟨by decide, by decide⟩
  exact ⟨userWord_valid _ _, isLeaf_userWord (by decide), userWord_user hflags⟩

theorem Overlaid.found_forks (h : Overlaid st u) (hboot : kmain smallLayout coverRam = .ok st) :
    ∃ child fin f, takeTrap smallLayout forkCall ⟨⟨0, []⟩, []⟩ (st.found 0x80290 u) = .ok fin ∧
      child ≠ st.currentProc ∧ Twin smallLayout (st.found 0x80290 u) f child fin := by
  have hset := reachable_settled (.boot st hboot)
  have hv := h.found_settled hset
  have hleaves : ∀ x ∈ coverImage.placements, isLeaf x.flags := by
    intro x hx
    rcases List.mem_cons.mp hx with rfl | hx
    · decide
    · obtain rfl := List.mem_singleton.mp hx
      decide
  obtain ⟨hslot, hfree, haccess⟩ := coverImage.forks hleaves hboot
  have hlen : coverImage.placements.length = 2 := rfl
  have hcount : freeFrames (st.found 0x80290 u).phys = freeFrames st.phys := rfl
  have hfit : CopyFits (st.found 0x80290 u).phys (trees (st.found 0x80290 u)) st.currentProc := by
    refine CopyFits.of_free hv.sound.owned ?_ fun q hvalid => ?_
    · rw [hcount]
      exact le_trans (by decide) (Nat.mul_le_mul_left 2 (show 32104 ≤ freeFrames st.phys by omega))
    · have he :
        entry (st.found 0x80290 u).phys.mem ((trees (st.found 0x80290 u)).root st.currentProc) q =
        _ := h.found_entry hset st.currentProc q
      rw [he] at hvalid ⊢
      split_ifs at hvalid ⊢
      · exact coverWord_leaf.2.1
      · exact haccess q hvalid
  have hclear : ∀ q : PageNo, DevicePage q.number →
      ¬ UserLeaf (entryOf (st.found 0x80290 u) st.currentProc q) := by
    intro q hq
    rw [h.found_entry hset]
    rcases h.rest q with hk | rfl | rfl | ⟨rfl, -⟩
    · rw [if_neg, hk]
      · exact userLeaf_kernelEntry q
      · rintro ⟨-, rfl⟩
        exact absurd hq (by decide)
    all_goals exact absurd hq (by decide)
  obtain ⟨child, fin, f, hret, hne, -, -, htwin⟩ := @fork_twin smallLayout _ forkCall
    ⟨⟨0, []⟩, []⟩ hv rfl rfl hslot hfit hclear
  exact ⟨child, fin, f, hret, hne, htwin⟩

/-- A leaf of a process that has neither frame among its tables is one of the machine's. -/
theorem LeavesProtected.xor {L : Layout} {ram : Memory} {fin : KState} {t : ℕ} {j : Slot}
    {q : PageNo} (h : LeavesProtected L ram (st.putBack fin t u)) (hs : Sound L fin)
    {r r' : Role Slot (Fin 512)} (ht : held fin.phys (trees fin) r = some t) (hr : r.owner ≠ j)
    (hu : held fin.phys (trees fin) r' = some u) (hr' : r'.owner ≠ j)
    (hl : UserLeaf (entryOf fin j q)) : ¬ WX (entryOf fin j q) := by
  cases hlow : held fin.phys (trees fin) (.node j q.low) with
  | none =>
    have hzero : entryOf fin j q = 0 := entry_of_none hlow
    rw [hzero] at hl
    exact absurd hl.1 (by decide)
  | some g =>
    have hword : entryOf fin j q = (fin.phys.mem g).word q.2.2 := entry_of_held hlow
    obtain ⟨hat, hmem⟩ := @putBack_tables st _ _ _ _ _ hs _ _ ht hr hu hr' q.low
      (by simp [PageNo.low]) _ hlow
    obtain ⟨root, hroot⟩ := Option.ne_none_iff_exists'.mp (root_of_held hlow)
    rw [hroot] at hat
    have hslot : (fin.processTable j).pageTable = some root := by
      rw [trees] at hroot
      dsimp only at hroot
      split_ifs at hroot
      exact hroot
    have hprotected := h root _ g q.2.2 (Or.inl ⟨j, hslot⟩) (by simp [PageNo.low]) hat
      (by rw [hmem, ← hword]; exact hl.1) (by rw [hmem, ← hword]; exact hl.2.1)
    rw [hmem, ← hword] at hprotected
    exact hprotected.2.xor

section Child

variable {child : Slot} {fin : KState} {f : TrapFrame}

theorem Overlaid.child_leaf (h : Overlaid st u) (hset : Settled smallLayout st)
    (htwin : Twin smallLayout (st.found 0x80290 u) f child fin) :
    UserLeaf (entryOf fin child (pageNo 0x400000)) ∧
      WX (entryOf fin child (pageNo 0x400000)) := by
  have hcode := h.found_entry hset st.currentProc (pageNo 0x400000)
  rw [if_pos ⟨rfl, rfl⟩] at hcode
  have hparent : UserLeaf (entryOf (st.found 0x80290 u) st.currentProc (pageNo 0x400000)) := by
    rw [hcode]
    exact coverWord_leaf
  have hcopied : entryOf fin child (pageNo 0x400000) &&& 0x3FF = coverWord &&& 0x3FF := by
    rw [← hcode]
    exact htwin.flags (pageNo 0x400000) (by decide) hparent
  refine ⟨(htwin.leaves (pageNo 0x400000) (by decide)).mpr hparent, ?_⟩
  rw [WX, hasFlag_pteW, hasFlag_pteX, low_bit hcopied (by norm_num),
    low_bit hcopied (by norm_num)]
  exact ⟨by decide, by decide⟩

/-- The two frames stay the parent's. -/
theorem Overlaid.roles_forked (h : Overlaid st u) (hset : Settled smallLayout st)
    (hne : child ≠ st.currentProc) (htwin : Twin smallLayout (st.found 0x80290 u) f child fin) :
    held fin.phys (trees fin) (.node st.currentProc (pageNo 0x400000).low) = some 0x80290 ∧
      held fin.phys (trees fin) (.node st.currentProc (pageNo 0x80290000).leaf) = some u := by
  constructor
  · have hkept : held fin.phys (trees fin) (.node st.currentProc (pageNo 0x400000).low) =
        held (st.found 0x80290 u).phys (trees st) (.node st.currentProc (pageNo 0x400000).low) :=
      htwin.roles _ hne.symm
    rw [hkept, h.found_phys, hset.sound.owned.held_setLeaf h.table, Function.update_of_ne]
    · exact h.table
    · simp [PageNo.low, PageNo.leaf]
  · have he : entryOf fin st.currentProc (pageNo 0x80290000) = _ :=
      htwin.entries st.currentProc hne.symm (pageNo 0x80290000)
    have hother : ¬ pageNo 0x80290000 = pageNo 0x400000 := by decide
    rw [h.found_entry hset, if_neg fun hc => hother hc.2, h.page] at he
    exact held_userWord ⟨by decide, by decide⟩ (by decide) h.bound he

end Child

/-- The child gets a page that may be written and executed. -/
theorem table_overlaid : ∃ st, Addressed smallLayout coverRam ⟨fun _ => True, fun _ => True⟩ st ∧
    ¬ LeavesProtected smallLayout coverRam st := by
  obtain ⟨st, h⟩ := boot_returns coverImage
  have hset := reachable_settled (.boot st h)
  obtain ⟨u, hov⟩ := cover_overlaid h
  obtain ⟨child, fin, f, hret, hne, htwin⟩ := hov.found_forks h
  have hrun : Addressed smallLayout coverRam ⟨fun _ => True, fun _ => True⟩ st :=
    .boot st h (fun _ _ => trivial) (Or.inr ⟨_, _, hov.covers hset⟩)
  refine ⟨_, hrun.fork (hov.covers hset) rfl rfl (hov.aside hset) hret, fun hall => ?_⟩
  have hfin := (settled_step (hov.found_settled hset)
    (.trap _ forkCall _ fin (fun h => absurd h (by decide)) hret)).sound
  obtain ⟨htable, hpage⟩ := hov.roles_forked hset hne htwin
  obtain ⟨hleaf, hwx⟩ := hov.child_leaf hset htwin
  exact hall.xor hfin htable hne.symm hpage hne.symm hleaf hwx

end Fork

end Cover

end Lazux
