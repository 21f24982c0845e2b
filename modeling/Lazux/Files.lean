import Lazux.Names
import Lazux.Ramdisk

/-! # RAMDISK files as streams

Which descriptors a call changes, what a read puts in the buffer, and what a descriptor has
delivered over a run. -/
namespace Lazux

open PagedMemory RadixForest Run

variable {L : Layout} {ram : Memory} {st st' s mid : KState} {tf : Slot} {input : Input}
  {buffer src : Addr} {size : BitVec 32} {bytes : List Byte} {regs : TrapFrame}

section Copy

/-- The bytes are those at `src`, as far as these stay while the buffer is filled. -/
def Fetched (L : Layout) (st : KState) (buffer src : Addr) (bytes : List Byte) : Prop :=
  ∀ k b, k < bytes.length →
    (∀ n s, Copying st buffer n s → Acts L st [] s → s.load (src + BitVec.ofNat 64 k) = .ok b) →
    bytes[k]? = some b

theorem deposited_copyOut (more : ℕ) (hs : Sound L st) (hst : Steady st.currentProc st)
    (hok : userRangeOk st.phys.mem st.satp buffer (size.setWidth 64) pteW = true)
    (hn : bytes.length + more ≤ size.toNat) (h : Deposited st buffer bytes s)
    (ha : Acts L st [] s) (hf : Fetched L st buffer src bytes) :
    Ensures (copyOut src buffer more bytes.length s) fun s' => ∃ bytes',
      bytes'.length = bytes.length + more ∧ Deposited st buffer bytes' s' ∧
      Fetched L st buffer src bytes' := by
  induction more generalizing bytes s with
  | zero => exact ensures_ok.mpr ⟨bytes, rfl, h, hf⟩
  | succ more ih =>
    refine Ensures.of_bind fun b hb => ?_
    refine (h.next hs hst hok (by omega) b).bind fun s' hstep => ?_
    obtain ⟨pa, htarget, rfl, hnext⟩ := hstep
    have hlength : (bytes ++ [b]).length = bytes.length + 1 := by simp
    have hfetched : Fetched L st buffer src (bytes ++ [b]) := by
      intro k c hk hsame
      rw [hlength] at hk
      rcases Nat.lt_succ_iff_lt_or_eq.mp hk with hlt | rfl
      · rw [List.getElem?_append_left hlt]
        exact hf k c hlt hsame
      · have hread := hsame _ _ h.copying ha
        rw [hb] at hread
        rw [List.getElem?_concat_length, Except.ok.inj hread]
    have hacts := ha.tail (h.copying.act hs hst htarget b)
    have hrest := ih (by omega) hnext hacts hfetched
    rw [hlength] at hrest
    refine hrest.mono fun s' hdone => ?_
    obtain ⟨bytes', hlen, hrest⟩ := hdone
    exact ⟨bytes', by omega, hrest⟩

theorem Deposited.userBytes (h : Deposited st buffer bytes s) (hs : Sound L st)
    (hst : Steady st.currentProc st) {k : ℕ} (hk : k < bytes.length) :
    userBytes s (buffer + BitVec.ofNat 64 k) = some bytes[k] := by
  have hroot := hst.root hs
  obtain ⟨pa, htarget, hbyte⟩ := h.stored k hk
  have huser : hasFlag (entry s.phys.mem (some s.satp)
      (pageNo (buffer + BitVec.ofNat 64 k))) pteU := by
    have he := h.copying.writes.entry_eq st.currentProc (pageNo (buffer + BitVec.ofNat 64 k))
    rw [hroot] at he
    rw [h.copying.satp, he]
    exact htarget.user
  have hmoved : Target s.phys s.satp s.sum (buffer + BitVec.ofNat 64 k) pa :=
    ⟨(h.copying.translate_eq hs hst _ _).trans htarget.translated, huser⟩
  rw [← h.copying.satp] at hroot
  rw [Lazux.userBytes, hmoved.userTranslate (h.copying.writes.owned hs.owned) hroot,
    Option.map_some, hbyte]

theorem Acts.image {ls : List Label} (h : Acts L st ls st') (hs : Sound L st) {f : ℕ}
    (hram : InRam f) (hlo : f < L.protectedEnd) : st'.phys.mem f = st.phys.mem f := by
  refine (h.preserves (I := fun s => Sound L s ∧ s.phys.mem f = st.phys.mem f) ?_ ⟨hs, rfl⟩).2
  rintro s ls s' ⟨hs, hm⟩ ha
  exact ⟨ha.sound hs, (ha.image hs hram hlo).trans hm⟩

/-- The RAMDISK is read as it was loaded, also while a buffer is filled. -/
theorem Copying.disk {n : ℕ} {a : Addr} (h : Copying st buffer n s) (ha : Acts L st [] s)
    (hs : Sound L st) (hst : Steady st.currentProc st) (hk : RamKept L st st.currentProc)
    (himage : ∀ f, InRam f → f < L.protectedEnd → st.phys.mem f = ram f) :
    Below (imageReader L ram a) (diskByte L s a) := by
  have hroot := hst.root hs
  have h4 := L.end_lt
  refine imageReader_below (h.writes.owned hs.owned) hroot h.satp (fun q h1 h2 => ?_)
    (fun f hf => ?_) a
  · have he := h.writes.entry_eq st.currentProc q
    rw [hroot] at he
    rw [he, ← hroot]
    simp only [Layout.protectedEnd] at h2
    exact hk q ⟨h1, by omega⟩
  · obtain ⟨hram, hlo⟩ := (inUse_initPmm L ram f).mp hf
    exact (ha.image hs hram hlo).trans (himage f hram hlo)

end Copy

section Kept

variable {i : Slot}

/-- A process that stays keeps its descriptors, and a new one has those of the caller. -/
structure FilesKept (st st' : KState) : Prop where
  old : ∀ i, (st.processTable i).state ≠ .unused → (st'.processTable i).state ≠ .unused →
    (st'.processTable i).openFiles = (st.processTable i).openFiles
  new : ∀ i, (st.processTable i).state = .unused → (st'.processTable i).state ≠ .unused →
    (st'.processTable i).openFiles = st.current.openFiles

theorem Plain.openFiles (h : Plain st st') (i : Slot) :
    (st'.processTable i).openFiles = (st.processTable i).openFiles := by
  obtain ⟨f, x, c, hp⟩ := h.process i
  rw [hp]

theorem filesKept_of_old
    (h : ∀ i, (st'.processTable i).state ≠ .unused → (st.processTable i).state ≠ .unused ∧
      (st'.processTable i).openFiles = (st.processTable i).openFiles) : FilesKept st st' :=
  ⟨fun i _ hi => (h i hi).2, fun i h0 hi => absurd h0 (h i hi).1⟩

theorem Plain.filesKept (h : Plain st st') : FilesKept st st' :=
  filesKept_of_old fun i hi => ⟨fun h0 => hi ((h.used i).mpr h0), h.openFiles i⟩

theorem FilesKept.trans_plain (h : FilesKept st mid) (hp : Plain mid st') : FilesKept st st' := by
  have hback : ∀ i, (st'.processTable i).state ≠ .unused → (mid.processTable i).state ≠ .unused :=
    fun i hi h0 => hi ((hp.used i).mpr h0)
  constructor
  · intro i h0 hi
    exact (hp.openFiles i).trans (h.old i h0 (hback i hi))
  · intro i h0 hi
    exact (hp.openFiles i).trans (h.new i h0 (hback i hi))

theorem Plain.trans_filesKept (hp : Plain st mid) (hc : mid.currentProc = st.currentProc)
    (h : FilesKept mid st') : FilesKept st st' := by
  constructor
  · intro i h0 hi
    exact (h.old i (fun hu => h0 ((hp.used i).mp hu)) hi).trans (hp.openFiles i)
  · intro i h0 hi
    have hnew := h.new i ((hp.used i).mpr h0) hi
    rw [KState.current, hc] at hnew
    exact hnew.trans (hp.openFiles _)

theorem filesKept_grown {increment : Word} {ok : Bool} {phys : Phys} :
    FilesKept st (grown st increment ok phys) := by
  apply filesKept_of_old
  intro i hi
  by_cases hj : i = st.currentProc
  · subst hj
    rw [process_grown_self] at hi ⊢
    exact ⟨hi, rfl⟩
  · rw [process_grown hj] at hi ⊢
    exact ⟨hi, rfl⟩

theorem AllocProc.filesKept (h : AllocProc L st none mid) : FilesKept st mid := by
  apply filesKept_of_old
  intro i hi
  have hp := h.refused_process hi
  rw [hp] at hi ⊢
  exact ⟨hi, rfl⟩

theorem filesKept_forked {child : Slot} {phys : Phys} (ha : AllocProc L st (some child) mid) :
    FilesKept st (forked st mid child phys) := by
  constructor
  · intro i h0 hi
    by_cases hj : i = child
    · subst hj
      exact absurd ha.of_some.1 h0
    · obtain ⟨f, hp⟩ := @process_forked _ _ _ _ _ phys ha hj
      rw [hp]
  · intro i h0 hi
    by_cases hj : i = child
    · subst hj
      rw [forked, modifyProc_self]
      rfl
    · obtain ⟨f, hp⟩ := @process_forked _ _ _ _ _ phys ha hj
      rw [hp] at hi
      exact absurd h0 hi

theorem Replaced.filesKept {newPt start : ℕ} {pl : List Placement} {maxEnd : Addr}
    (h : Replaced L st st' newPt start pl maxEnd) : FilesKept st st' := by
  apply filesKept_of_old
  intro i hi
  by_cases hj : i = st.currentProc
  · subst hj
    rw [h.process] at hi ⊢
    exact ⟨hi, rfl⟩
  · rw [h.other i hj] at hi ⊢
    exact ⟨hi, rfl⟩

theorem filesKept_freeProc (hu : (st.processTable i).state ≠ .unused) :
    FilesKept st (freeProc st i) := by
  apply filesKept_of_old
  intro j hj
  by_cases hji : j = i
  · subst hji
    exact absurd (freeProc_gone hu) hj
  · rw [freeProc_of_ne hji] at hj ⊢
    exact ⟨hj, rfl⟩

end Kept

section Calls

variable {fd : Fin 16}

def openedFile (L : Layout) (e : RamdiskEntry) : File :=
  ⟨.ramdisk, 0, e.size, L.ramdiskStart + e.offset.setWidth 64⟩

/-- How many bytes a read of this file delivers. -/
def readLength (st : KState) (file : File) : BitVec 32 :=
  if st.readSize > file.size - file.offset then file.size - file.offset else st.readSize

inductive FileCall (L : Layout) (st : KState) : Slot × KState → Prop where
  | failed {r} (h7 : st.a7 = sysOpen ∨ st.a7 = sysRead ∨ st.a7 = sysClose) (w : Word)
      (hw : w.msb = true) (hr : Returns st w r) (hp : Plain st r.2) : FileCall L st r
  | opened {r} (h7 : st.a7 = sysOpen) (fd : Fin 16) (hfd : freeFd st.current = some fd)
      (e : RamdiskEntry) (he : ramdiskGetEntry (diskByte L st) st.load
        (st.frameOf st.currentProc).a0 (nameMax + 1) = .ok (some e))
      (hr : Returns st (BitVec.ofNat 64 fd.val) r)
      (hp : Plain (st.setFile fd (openedFile L e)) r.2) : FileCall L st r
  | console {r} (h7 : st.a7 = sysRead) (fd : Fin 16) (hfd : ReadsFrom st fd .console)
      (hp : Plain st r.2) : FileCall L st r
  | ended {r} (h7 : st.a7 = sysRead) (fd : Fin 16) (hfd : ReadsFrom st fd .ramdisk)
      (hend : (st.current.openFiles fd).offset = (st.current.openFiles fd).size)
      (hr : Returns st 0 r) (hp : Plain st r.2) : FileCall L st r
  | read {r} (h7 : st.a7 = sysRead) (fd : Fin 16) (hfd : ReadsFrom st fd .ramdisk)
      (hleft : (st.current.openFiles fd).offset ≠ (st.current.openFiles fd).size)
      (bytes : List Byte) (hlen : bytes.length = (readLength st (st.current.openFiles fd)).toNat)
      (hf : Fetched L st (st.frameOf st.currentProc).a1 ((st.current.openFiles fd).data +
        (st.current.openFiles fd).offset.setWidth 64) bytes)
      (hb : ∀ k (hk : k < bytes.length),
        userBytes r.2 ((st.frameOf st.currentProc).a1 + BitVec.ofNat 64 k) = some bytes[k])
      (hr : Returns st (BitVec.ofNat 64 bytes.length) r)
      (hp : Plain (st.setFile fd { st.current.openFiles fd with
        offset := (st.current.openFiles fd).offset +
          readLength st (st.current.openFiles fd) }) r.2) : FileCall L st r
  | closed {r} (h7 : st.a7 = sysClose) (fd : Fin 16)
      (hfd : fdOf (st.frameOf st.currentProc).a0 = some fd) (hr : Returns st 0 r)
      (hp : Plain (st.setFile fd File.closed) r.2) : FileCall L st r
  | other {r} (h7 : st.a7 ≠ sysOpen ∧ st.a7 ≠ sysRead ∧ st.a7 ≠ sysClose)
      (hk : FilesKept st r.2) : FileCall L st r

theorem frameOf_setFile (st : KState) (fd : Fin 16) (f : File) (i : Slot) :
    (st.setFile fd f).frameOf i = st.frameOf i := by
  rw [KState.frameOf, KState.setFile]
  by_cases hi : i = st.currentProc
  · subst hi
    rw [modifyProc_self]
    rfl
  · rw [modifyProc_of_ne _ hi]
    rfl

theorem returns_setFile (hst : Steady tf st) (hc : mid.currentProc = st.currentProc)
    (hf : mid.frameOf st.currentProc = st.frameOf st.currentProc) (fd : Fin 16) (f : File)
    (w : Word) : Returns st w (tf, (mid.setFile fd f).setA0 tf w) := by
  have hproc : (mid.setFile fd f).currentProc = st.currentProc := hc
  have hframe := (frameOf_setFile mid fd f st.currentProc).trans hf
  exact returns_answer hst hproc hframe w

theorem files_refused (hst : Steady tf st)
    (h7 : st.a7 = sysOpen ∨ st.a7 = sysRead ∨ st.a7 = sysClose) {w : Word} (hw : w.msb = true) :
    Ensures (st.answer tf w) (FileCall L st) := by
  rintro ⟨tf', s⟩ hr
  obtain ⟨rfl, rfl⟩ := answer_result hr
  exact .failed h7 w hw (returns_answer hst rfl rfl w) (plain_setA0 st _ w)

theorem files_open (hst : Steady tf st) (h7 : st.a7 = sysOpen) :
    Ensures (sysOpenCall L tf st) (FileCall L st) := by
  have hframe := hst.frame
  subst hframe
  unfold sysOpenCall
  dsimp only
  refine Ensures.of_bind fun ok _ => ?_
  split
  · exact files_refused hst (Or.inl h7) (by decide)
  split
  · exact files_refused hst (Or.inl h7) (by decide)
  · rename_i fd hfd
    refine Ensures.of_bind fun entry hentry => ?_
    split
    · exact files_refused hst (Or.inl h7) (by decide)
    · rename_i e
      rintro ⟨tf', s⟩ hr
      obtain ⟨rfl, rfl⟩ := answer_result hr
      exact .opened h7 fd hfd e hentry (returns_setFile hst rfl rfl fd (openedFile L e) _)
        (plain_setA0 _ _ _)

theorem files_close (hst : Steady tf st) (h7 : st.a7 = sysClose) :
    Ensures (sysCloseCall tf st) (FileCall L st) := by
  have hframe := hst.frame
  subst hframe
  unfold sysCloseCall
  split
  · exact files_refused hst (Or.inr (Or.inr h7)) (by decide)
  · rename_i fd hfd
    split
    · exact files_refused hst (Or.inr (Or.inr h7)) (by decide)
    · rintro ⟨tf', s⟩ hr
      obtain ⟨rfl, rfl⟩ := answer_result hr
      exact .closed h7 fd hfd (returns_setFile hst rfl rfl fd File.closed 0) (plain_setA0 _ _ _)

theorem readLength_le (st : KState) (file : File) :
    (readLength st file).toNat ≤ st.readSize.toNat := by
  unfold readLength
  split
  · rename_i hlt
    exact (BitVec.lt_def.mp hlt).le
  · exact le_refl _

theorem files_read (hs : Sound L st) (hst : Steady tf st) (h7 : st.a7 = sysRead) :
    Ensures (sysReadCall input tf st) (FileCall L st) := by
  have hframe := hst.frame
  subst hframe
  unfold sysReadCall
  dsimp only
  split
  · exact files_refused hst (Or.inr (Or.inl h7)) (by decide)
  rename_i hgood
  have hb : BufferOk st := by simpa [BufferOk] using hgood
  have hok : userRangeOk st.phys.mem st.satp (st.frameOf st.currentProc).a1
      (st.readSize.setWidth 64) pteW = true := by
    rw [hst.satp]
    exact hb
  split
  · exact files_refused hst (Or.inr (Or.inl h7)) (by decide)
  rename_i fd hfd
  split
  · exact files_refused hst (Or.inr (Or.inl h7)) (by decide)
  · -- the console
    rename_i htype
    exact (plain_console hs hst hok).mono fun r h => .console h7 fd ⟨hfd, htype⟩ h
  · -- a file
    rename_i htype
    have hreads : ReadsFrom st fd .ramdisk := ⟨hfd, htype⟩
    split
    · rename_i hzero
      rintro ⟨tf', s⟩ hr
      obtain ⟨rfl, rfl⟩ := answer_result hr
      exact .ended h7 fd hreads (sub_eq_zero.mp hzero).symm (returns_answer hst rfl rfl 0)
        (plain_setA0 st _ 0)
    · rename_i hleft
      have hcopy :=
        @deposited_copyOut L _ _ _
          ((st.current.openFiles fd).data + (st.current.openFiles fd).offset.setWidth 64) _ []
        (readLength st (st.current.openFiles fd)).toNat hs hst hok
        (by simpa using readLength_le st (st.current.openFiles fd)) (.start _) (.refl st)
        (fun k b hk => absurd hk (Nat.not_lt_zero k))
      refine hcopy.bind fun s hdone => ?_
      obtain ⟨bytes, hlen, hdep, hfetched⟩ := hdone
      rintro ⟨tf', s'⟩ hr
      obtain ⟨rfl, rfl⟩ := answer_result hr
      rw [List.length_nil, Nat.zero_add] at hlen
      have hlast : (readLength st (st.current.openFiles fd)).setWidth 64 =
          BitVec.ofNat 64 bytes.length := by
        apply BitVec.eq_of_toNat_eq
        rw [hlen, BitVec.toNat_setWidth, BitVec.toNat_ofNat]
      have hframe : s.frameOf st.currentProc = st.frameOf st.currentProc := by
        rw [KState.frameOf, hdep.copying.processTable]
        rfl
      refine .read h7 fd hreads (fun h0 => hleft (sub_eq_zero.mpr h0.symm)) bytes hlen hfetched
        (fun k hk => hdep.userBytes hs hst hk) ?_ ?_
      · rw [← hlast]
        exact returns_setFile hst hdep.copying.currentProc hframe fd _ _
      · exact (hdep.copying.plain_setFile fd _).trans (plain_setA0 _ _ _)

theorem files_syscall (hs : Sound L st) (hst : Steady tf st) :
    Ensures (syscall L input tf st) (FileCall L st) := by
  have h7 : (st.frameOf tf).a7 = st.a7 := by rw [KState.a7, hst.frame]
  have other : ∀ {x : Outcome}, st.a7 ≠ sysOpen ∧ st.a7 ≠ sysRead ∧ st.a7 ≠ sysClose →
      (Ensures x fun r => FilesKept st r.2) → Ensures x (FileCall L st) :=
    fun h7 hx => hx.mono fun r hr => .other h7 hr
  unfold syscall
  dsimp only
  rw [h7]
  split
  · rename_i h
    apply other (by rw [h]; decide)
    rintro ⟨tf', s⟩ hr
    obtain ⟨rfl, rfl⟩ := answer_result hr
    have hput : ∀ c, Plain st (st.putchar c) := fun c => plain_same rfl rfl
    exact ((hput _).trans (plain_setA0 _ _ _)).filesKept
  split
  · rename_i h
    apply other (by rw [h]; decide)
    exact (plain_exitCurrent hst).mono fun r h => h.filesKept
  split
  · rename_i h
    apply other (by rw [h]; decide)
    rintro ⟨tf', s⟩ hr
    obtain ⟨-, hcall⟩ := sysForkCall_result hst.frame hst.running hr
    cases hcall with
    | failed mid ha => exact ha.filesKept.trans_plain (plain_setA0 mid _ _)
    | forked child mid phys ha hne hc => exact filesKept_forked ha
  split
  · rename_i h
    apply other (by rw [h]; decide)
    intro r hr
    obtain ⟨-, hcall⟩ := sysExecCall_result hr
    rcases hcall.answers hs with ⟨w, hw⟩ | ⟨newPt, start, pl, maxEnd, elf, phoff, phnum, hrep, -, -⟩
    · rw [hw]
      exact (plain_setA0 st _ w).filesKept
    · exact hrep.filesKept
  split
  · rename_i h
    apply other (by rw [h]; decide)
    unfold sysWaitCall
    split
    · rename_i i hz
      rintro ⟨tf', s⟩ hr
      obtain ⟨rfl, rfl⟩ := answer_result hr
      have hu : (st.processTable i).state ≠ .unused := by
        rw [(zombieKid_some hz).2]
        decide
      exact (filesKept_freeProc hu).trans_plain (plain_setA0 _ _ _)
    · split
      · rintro ⟨tf', s⟩ hr
        obtain ⟨rfl, rfl⟩ := answer_result hr
        exact (plain_setA0 st _ _).filesKept
      · have hframe := hst.frame
        subst hframe
        have hsleep := @plain_sleep _ _ input.idle (.pcb st.currentProc) hst
        exact hsleep.mono fun r h => h.filesKept
  split
  · rename_i h
    apply other (by rw [h]; decide)
    intro r hr
    have hframe := hst.frame
    subst hframe
    obtain ⟨-, hr | hr | hr | ⟨ok, phys, -, hr⟩⟩ := sysSbrkCall_result hr
    · rw [hr]
      exact (plain_setA0 st _ _).filesKept
    · rw [hr]
      exact (plain_setA0 st _ _).filesKept
    · rw [hr]
      exact (plain_setA0 st _ _).filesKept
    · rw [hr]
      exact filesKept_grown.trans_plain (plain_setA0 _ _ _)
  split
  · rename_i h
    exact files_open hst h
  split
  · rename_i h
    exact files_read hs hst h
  split
  · rename_i h
    apply other (by rw [h]; decide)
    exact plain_write.mono fun r h => h.filesKept
  split
  · rename_i h
    exact files_close hst h
  · exact ensures_error

end Calls

section Traps

theorem Step.files (hset : Settled L st) (hs : Step L st (.trap regs input) st') :
    (regs.scause = 8 ∧ ∃ r, FileCall L (entered (saveFrame regs st)) r ∧ st' = resume r.1 r.2) ∨
      (regs.scause ≠ 8 ∧ Plain st st') := by
  cases hs with
  | trap _ _ _ hd ht =>
    by_cases h8 : regs.scause = 8
    · left
      obtain ⟨r, hret, hres⟩ := bind_eq_ok.mp ht
      rw [trapHandler_ecall hset.steady h8] at hret
      obtain ⟨hsound, hsteady⟩ := hset.called regs
      refine ⟨h8, r, files_syscall hsound hsteady r hret, ?_⟩
      cases hres
      rfl
    · right
      rcases takeTrap_leaves hset ht with ⟨h, -⟩ | ⟨-, hplain⟩
      · exact absurd h h8
      · exact ⟨h8, hplain⟩

def Touches (regs : TrapFrame) (answer : Word) (fd : Fin 16) : Prop :=
  regs.scause = 8 ∧ (regs.a7 = sysOpen ∧ BitVec.ofNat 64 fd.val = answer ∨
    (regs.a7 = sysRead ∨ regs.a7 = sysClose) ∧ fdOf regs.a0 = some fd)

/-- A trap changes the descriptor it is about and no other, and none if it refuses. -/
structure FilesTouched (st : KState) (regs : TrapFrame) (st' : KState) : Prop where
  refused : regs.scause = 8 → regs.a7 = sysOpen ∨ regs.a7 = sysRead ∨ regs.a7 = sysClose →
    (st'.frameOf st.currentProc).a0.msb = true →
    ∀ i, (st'.processTable i).openFiles = (st.processTable i).openFiles
  ended : regs.scause = 8 → regs.a7 = sysRead → ∀ fd, fdOf regs.a0 = some fd →
    (st.current.openFiles fd).type = .ramdisk → regs.a2.setWidth 32 ≠ (0 : BitVec 32) →
    (st'.frameOf st.currentProc).a0 = 0 →
    (st.current.openFiles fd).offset = (st.current.openFiles fd).size
  frame : ∀ i, (st.processTable i).state ≠ .unused → (st'.processTable i).state ≠ .unused →
    ∀ fd, ¬ (i = st.currentProc ∧ Touches regs (st'.frameOf i).a0 fd) →
    (st'.processTable i).openFiles fd = (st.processTable i).openFiles fd
  child : ∀ i, (st.processTable i).state = .unused → (st'.processTable i).state ≠ .unused →
    (st'.processTable i).openFiles = st.current.openFiles

theorem FilesKept.touched (h : FilesKept st st')
    (h7 : regs.scause = 8 → regs.a7 ≠ sysOpen ∧ regs.a7 ≠ sysRead ∧ regs.a7 ≠ sysClose) :
    FilesTouched st regs st' := by
  constructor
  · intro h8 h
    obtain ⟨h1, h2, h3⟩ := h7 h8
    rcases h with h | h | h
    · exact absurd h h1
    · exact absurd h h2
    · exact absurd h h3
  · intro h8 h
    exact absurd h (h7 h8).2.1
  · intro i h0 hi fd _
    rw [h.old i h0 hi]
  · exact h.new

/-- If nothing changes, it only has to be seen that the end of the file is reported rightly. -/
theorem Plain.touched (h : Plain st st')
    (hend : regs.scause = 8 → regs.a7 = sysRead → ∀ fd, fdOf regs.a0 = some fd →
      (st.current.openFiles fd).type = .ramdisk → regs.a2.setWidth 32 ≠ (0 : BitVec 32) →
      (st'.frameOf st.currentProc).a0 = 0 →
      (st.current.openFiles fd).offset = (st.current.openFiles fd).size) :
    FilesTouched st regs st' := by
  constructor
  · intro _ _ _ i
    exact h.openFiles i
  · exact hend
  · intro i _ _ fd _
    rw [h.openFiles i]
  · exact h.filesKept.new

theorem setFile_openFiles (st : KState) (fd : Fin 16) (f : File) (i : Slot) (x : Fin 16) :
    ((st.setFile fd f).processTable i).openFiles x =
      if i = st.currentProc ∧ x = fd then f else (st.processTable i).openFiles x := by
  rw [KState.setFile]
  by_cases hi : i = st.currentProc
  · subst hi
    rw [modifyProc_self]
    dsimp only
    rw [Function.update_apply]
    simp
  · rw [modifyProc_of_ne _ hi, if_neg (fun h => hi h.1)]

/-- What a call that sets a descriptor leaves, seen from the trap. -/
structure FileSet (st : KState) (regs : TrapFrame) (fd : Fin 16) (f : File)
    (st' : KState) : Prop where
  files : ∀ i x, (st'.processTable i).openFiles x =
    if i = st.currentProc ∧ x = fd then f else (st.processTable i).openFiles x
  used : ∀ i, (st'.processTable i).state = .unused ↔ (st.processTable i).state = .unused

theorem fileSet_of_plain {fd : Fin 16} {f : File} {r : Slot × KState}
    (h : Plain ((entered (saveFrame regs st)).setFile fd f) r.2) :
    FileSet st regs fd f (resume r.1 r.2) := by
  have hp := h.trans (plain_resume r.1 r.2)
  have hcall := plain_called regs st
  constructor
  · intro i x
    rw [hp.openFiles i, setFile_openFiles, hcall.openFiles i]
    rfl
  · intro i
    exact (hp.used i).trans (((benign_setFile _ fd f).used i).trans (hcall.used i))

theorem FileSet.touched {fd : Fin 16} {f : File} (h : FileSet st regs fd f st')
    (hmsb : (st'.frameOf st.currentProc).a0.msb = false)
    (htouch : Touches regs (st'.frameOf st.currentProc).a0 fd)
    (hend : regs.a7 = sysRead → regs.a2.setWidth 32 ≠ (0 : BitVec 32) →
      (st'.frameOf st.currentProc).a0 ≠ 0) : FilesTouched st regs st' := by
  constructor
  · intro _ _ hneg
    exact absurd (hmsb.symm.trans hneg) Bool.false_ne_true
  · intro _ h7 _ _ _ hsize hzero
    exact absurd hzero (hend h7 hsize)
  · intro i _ _ x hx
    rw [h.files i x, if_neg]
    rintro ⟨rfl, rfl⟩
    exact hx ⟨rfl, htouch⟩
  · intro i h0 hi
    exact absurd ((h.used i).mpr h0) hi

theorem called_regs (hset : Settled L st) (regs : TrapFrame) :
    (entered (saveFrame regs st)).a7 = regs.a7 ∧
      ((entered (saveFrame regs st)).frameOf st.currentProc).a0 = regs.a0 ∧
      ((entered (saveFrame regs st)).frameOf st.currentProc).a1 = regs.a1 ∧
      ((entered (saveFrame regs st)).frameOf st.currentProc).a2 = regs.a2 := by
  have hframe := frameOf_entered hset.steady regs
  rw [hset.steady.frame] at hframe
  rw [hframe]
  exact ⟨KState.a7_entered hset.steady regs, rfl, rfl, rfl⟩

theorem Returns.a0 {w : Word} {r : Slot × KState} (h : Returns (entered (saveFrame regs st)) w r) :
    ((resume r.1 r.2).frameOf st.currentProc).a0 = w := by
  have hframe : r.2.frameOf st.currentProc = _ := h.2.2
  show (r.2.frameOf st.currentProc).a0 = w
  rw [hframe]

theorem called_file (regs : TrapFrame) (st : KState) (fd : Fin 16) :
    (entered (saveFrame regs st)).current.openFiles fd = st.current.openFiles fd :=
  congrFun ((plain_called regs st).openFiles st.currentProc) fd

end Traps

section Lengths

variable {file : File}

theorem readLength_ne (hleft : file.offset ≠ file.size) (hsize : st.readSize ≠ 0) :
    readLength st file ≠ 0 := by
  unfold readLength
  split
  · intro h0
    exact hleft (sub_eq_zero.mp h0).symm
  · exact hsize

theorem readLength_fits (h : file.offset.toNat ≤ file.size.toNat) :
    file.offset.toNat + (readLength st file).toNat ≤ file.size.toNat := by
  have hsub : (file.size - file.offset).toNat = file.size.toNat - file.offset.toNat :=
    BitVec.toNat_sub_of_le (BitVec.le_def.mpr h)
  have hle : (readLength st file).toNat ≤ (file.size - file.offset).toNat := by
    unfold readLength
    split
    · exact le_refl _
    · rename_i hlt
      exact Nat.le_of_not_lt fun hgt => hlt (BitVec.lt_def.mpr hgt)
  omega

end Lengths

section Touched

theorem msb_ofNat {n : ℕ} (h : n < 2 ^ 32) : (BitVec.ofNat 64 n).msb = false := by
  rw [BitVec.msb_eq_false_iff_two_mul_lt, BitVec.toNat_ofNat]
  omega

theorem Step.filesTouched (hset : Settled L st) (hs : Step L st (.trap regs input) st') :
    FilesTouched st regs st' := by
  obtain ⟨ha7, ha0, ha1, ha2⟩ := called_regs hset regs
  rcases hs.files hset with ⟨h8, r, hcall, rfl⟩ | ⟨h8, hplain⟩
  · have hplain : ∀ {s}, Plain (entered (saveFrame regs st)) s → Plain st (resume r.1 s) :=
      fun h => ((plain_called regs st).trans h).trans (plain_resume r.1 _)
    cases hcall with
    | failed h7 w hw hr hp =>
      apply (hplain hp).touched
      intro _ _ _ _ _ _ hzero
      rw [hr.a0] at hzero
      rw [hzero] at hw
      exact absurd hw (by decide)
    | opened h7 fd hfd e he hr hp =>
      apply (fileSet_of_plain hp).touched
      · rw [hr.a0]
        exact msb_ofNat (by omega)
      · refine ⟨h8, Or.inl ⟨ha7 ▸ h7, hr.a0.symm⟩⟩
      · intro hread
        rw [← ha7, h7] at hread
        exact absurd hread (by decide)
    | console h7 fd hfd hp =>
      apply (hplain hp).touched
      intro _ _ x hx htype
      obtain ⟨hfd, hcons⟩ := hfd
      have hx' : fdOf regs.a0 = some fd := ha0 ▸ hfd
      cases hx.symm.trans hx'
      rw [called_file, htype] at hcons
      cases hcons
    | ended h7 fd hfd hend hr hp =>
      apply (hplain hp).touched
      intro _ _ x hx _ _ _
      have hx' : fdOf regs.a0 = some fd := ha0 ▸ hfd.1
      cases hx.symm.trans hx'
      rw [called_file] at hend
      exact hend
    | read h7 fd hfd hleft bytes hlen hf hb hr hp =>
      have hshort : bytes.length < 2 ^ 32 := by
        rw [hlen]
        exact BitVec.isLt _
      apply (fileSet_of_plain hp).touched
      · rw [hr.a0]
        exact msb_ofNat hshort
      · exact ⟨h8, Or.inr ⟨Or.inl (ha7 ▸ h7), ha0 ▸ hfd.1⟩⟩
      · intro _ hsize hzero
        have hreq : (entered (saveFrame regs st)).readSize ≠ 0 := by
          have hreg : (entered (saveFrame regs st)).readSize = regs.a2.setWidth 32 := by
            rw [← ha2]
            rfl
          rw [hreg]
          exact hsize
        have hpos := readLength_ne hleft hreq
        rw [hr.a0] at hzero
        apply hpos
        apply BitVec.eq_of_toNat_eq
        have hzero := congrArg BitVec.toNat hzero
        rw [BitVec.toNat_ofNat, Nat.mod_eq_of_lt (by omega)] at hzero
        rw [← hlen, hzero]
        rfl
    | closed h7 fd hfd hr hp =>
      apply (fileSet_of_plain hp).touched
      · rw [hr.a0]
        decide
      · exact ⟨h8, Or.inr ⟨Or.inr (ha7 ▸ h7), ha0 ▸ hfd⟩⟩
      · intro hread
        rw [← ha7, h7] at hread
        exact absurd hread (by decide)
    | other h7 hk =>
      have hkept :=
        ((plain_called regs st).trans_filesKept rfl hk).trans_plain (plain_resume r.1 r.2)
      apply hkept.touched
      intro _
      rw [← ha7]
      exact h7
  · apply hplain.touched
    intro h
    exact absurd h h8

end Touched

section Streams

/-- What a descriptor has delivered: of which file, from where on, and what. -/
structure Stream where
  entry : RamdiskEntry
  start : ℕ
  bytes : List Byte

abbrev Streams := Slot → Fin 16 → Option Stream

def bufferBytes (st : KState) (buffer : Addr) (n : ℕ) : List Byte :=
  (List.range n).map fun k => (userBytes st (buffer + BitVec.ofNat 64 k)).getD 0

/-- The file a name in user memory stands for. -/
def namedEntry (L : Layout) (st : KState) (name : Addr) : Option RamdiskEntry :=
  match ramdiskGetEntry (diskByte L st) st.load name (nameMax + 1) with
  | .ok found => found
  | .error _ => none

/-- What one trap adds: a stream begins when a file is opened, goes on with what a read delivers,
ends when the descriptor is closed, and begins again in a child where its parent is. -/
def observe (L : Layout) (h : Streams) (st : KState) (regs : TrapFrame) (st' : KState) : Streams :=
  fun i fd =>
    let answer := (st'.frameOf st.currentProc).a0
    if (st.processTable i).state = .unused then
      (h st.currentProc fd).map fun s =>
        ⟨s.entry, (st.current.openFiles fd).offset.toNat, []⟩
    else if i = st.currentProc ∧ regs.scause = 8 ∧ answer.msb = false then
      if regs.a7 = sysOpen ∧ BitVec.ofNat 64 fd.val = answer then
        (namedEntry L (entered (saveFrame regs st)) regs.a0).map fun e => ⟨e, 0, []⟩
      else if regs.a7 = sysRead ∧ fdOf regs.a0 = some fd ∧
          (st.current.openFiles fd).type = .ramdisk then
        (h i fd).map fun s => { s with bytes := s.bytes ++ bufferBytes st' regs.a1 answer.toNat }
      else if regs.a7 = sysClose ∧ fdOf regs.a0 = some fd then none
      else h i fd
    else h i fd

def fileWatch (L : Layout) : Watch Streams := ⟨fun _ _ _ => none, observe L⟩

/-- The stream has come to the offset of the descriptor and is that part of the file. -/
structure Stream.Follows (L : Layout) (ram : Memory) (s : Stream) (f : File) : Prop where
  data : f.data = L.ramdiskStart + s.entry.offset.setWidth 64
  size : f.size = s.entry.size
  offset : f.offset.toNat = s.start + s.bytes.length
  bound : f.offset.toNat ≤ f.size.toNat
  slice : ∀ content, HoldsBytes (imageReader L ram) (s.entry.offset.setWidth 64) content →
    content.length = s.entry.size.toNat → s.bytes = (content.drop s.start).take s.bytes.length

/-- Every open file of every process is being streamed. -/
def Streamed (L : Layout) (ram : Memory) (h : Streams) (st : KState) : Prop :=
  ∀ i, (st.processTable i).state ≠ .unused → ∀ fd,
    ((st.processTable i).openFiles fd).type = .ramdisk →
    ∃ s, h i fd = some s ∧ s.Follows L ram ((st.processTable i).openFiles fd)

variable {h : Streams} {i : Slot} {fd : Fin 16}

theorem observe_new (hu : (st.processTable i).state = .unused) :
    observe L h st regs st' i fd = (h st.currentProc fd).map fun s =>
      ⟨s.entry, (st.current.openFiles fd).offset.toNat, []⟩ :=
  if_pos hu

/-- A call about another descriptor, or a refusal, adds nothing. -/
theorem observe_same (hu : (st.processTable i).state ≠ .unused)
    (hno : ¬ (i = st.currentProc ∧ Touches regs (st'.frameOf st.currentProc).a0 fd ∧
      (st'.frameOf st.currentProc).a0.msb = false)) : observe L h st regs st' i fd = h i fd := by
  unfold observe
  dsimp only
  rw [if_neg hu]
  split
  · rename_i hcall
    obtain ⟨hi, h8, hmsb⟩ := hcall
    rw [if_neg, if_neg, if_neg]
    · rintro ⟨h7, hfd⟩
      exact hno ⟨hi, ⟨h8, Or.inr ⟨Or.inr h7, hfd⟩⟩, hmsb⟩
    · rintro ⟨h7, hfd, -⟩
      exact hno ⟨hi, ⟨h8, Or.inr ⟨Or.inl h7, hfd⟩⟩, hmsb⟩
    · rintro ⟨h7, hfd⟩
      exact hno ⟨hi, ⟨h8, Or.inl ⟨h7, hfd⟩⟩, hmsb⟩
  · rfl

theorem observe_opened (hu : (st.processTable st.currentProc).state ≠ .unused)
    (h8 : regs.scause = 8) (h7 : regs.a7 = sysOpen)
    (ha : (st'.frameOf st.currentProc).a0 = BitVec.ofNat 64 fd.val) :
    observe L h st regs st' st.currentProc fd =
      (namedEntry L (entered (saveFrame regs st)) regs.a0).map fun e => ⟨e, 0, []⟩ := by
  unfold observe
  dsimp only
  rw [if_neg hu, ha, if_pos ⟨rfl, h8, msb_ofNat (by omega)⟩, if_pos ⟨h7, rfl⟩]

theorem observe_read (hu : (st.processTable st.currentProc).state ≠ .unused)
    (h8 : regs.scause = 8) (h7 : regs.a7 = sysRead) (hfd : fdOf regs.a0 = some fd)
    (htype : (st.current.openFiles fd).type = .ramdisk)
    (hmsb : (st'.frameOf st.currentProc).a0.msb = false) :
    observe L h st regs st' st.currentProc fd = (h st.currentProc fd).map fun s =>
      { s with
        bytes := s.bytes ++ bufferBytes st' regs.a1 (st'.frameOf st.currentProc).a0.toNat } := by
  have hopen :
      ¬ (regs.a7 = sysOpen ∧ BitVec.ofNat 64 fd.val = (st'.frameOf st.currentProc).a0) := by
    rintro ⟨h7', -⟩
    rw [h7] at h7'
    exact absurd h7' (by decide)
  unfold observe
  dsimp only
  rw [if_neg hu, if_pos ⟨rfl, h8, hmsb⟩, if_neg hopen, if_pos ⟨h7, hfd, htype⟩]

theorem bufferBytes_eq {bytes : List Byte} (hb : ∀ k (hk : k < bytes.length),
    userBytes st (buffer + BitVec.ofNat 64 k) = some bytes[k]) :
    bufferBytes st buffer bytes.length = bytes := by
  apply List.ext_getElem
  · rw [bufferBytes, List.length_map, List.length_range]
  · intro k h1 h2
    simp only [bufferBytes, List.getElem_map, List.getElem_range, hb k h2, Option.getD_some]

theorem Stream.Follows.fetched {s : Stream} {f : File} (hf : s.Follows L ram f)
    (hfetch : Fetched L st buffer (f.data + f.offset.setWidth 64) bytes)
    (hlen : f.offset.toNat + bytes.length ≤ f.size.toNat)
    (hdisk : ∀ n s a, Copying st buffer n s → Acts L st [] s →
      Below (imageReader L ram a) (diskByte L s a))
    {content : List Byte}
    (hcontent : HoldsBytes (imageReader L ram) (s.entry.offset.setWidth 64) content)
    (hsize : content.length = s.entry.size.toNat) :
    bytes = (content.drop f.offset.toNat).take bytes.length := by
  have htotal : f.offset.toNat + bytes.length ≤ content.length := by
    rw [hsize, ← hf.size]
    exact hlen
  apply List.ext_getElem?
  intro k
  by_cases hk : k < bytes.length
  · have hin : f.offset.toNat + k < content.length := by omega
    rw [List.getElem?_take_of_lt hk, List.getElem?_drop, List.getElem?_eq_getElem hin]
    apply hfetch k _ hk
    intro n s' hcopy hacts
    have himage := hcontent _ _ (List.getElem?_eq_getElem hin)
    have hread := hdisk n s' _ hcopy hacts _ himage
    have haddr : f.data + f.offset.setWidth 64 + BitVec.ofNat 64 k = L.ramdiskStart +
        (s.entry.offset.setWidth 64 + BitVec.ofNat 64 (f.offset.toNat + k)) := by
      have hoff : f.offset.setWidth 64 = BitVec.ofNat 64 f.offset.toNat := by
        apply BitVec.eq_of_toNat_eq
        rw [BitVec.toNat_setWidth, BitVec.toNat_ofNat]
      rw [hf.data, hoff, BitVec.ofNat_add]
      simp only [BitVec.add_assoc]
    rw [haddr]
    exact hread
  · rw [List.getElem?_eq_none (Nat.le_of_not_lt hk), List.getElem?_eq_none]
    rw [List.length_take]
    omega

theorem Stream.Follows.read {s : Stream} {f : File} (hf : s.Follows L ram f)
    (hlen : bytes.length = (readLength st f).toNat)
    (hfetch : Fetched L st buffer (f.data + f.offset.setWidth 64) bytes)
    (hdisk : ∀ n s a, Copying st buffer n s → Acts L st [] s →
      Below (imageReader L ram a) (diskByte L s a)) :
    Stream.Follows L ram { s with bytes := s.bytes ++ bytes }
      { f with offset := f.offset + readLength st f } := by
  have hfits := @readLength_fits st _ hf.bound
  have hoff : (f.offset + readLength st f).toNat = f.offset.toNat + bytes.length := by
    have hsize := f.size.isLt
    rw [BitVec.toNat_add, ← hlen]
    exact Nat.mod_eq_of_lt (by omega)
  constructor
  · exact hf.data
  · exact hf.size
  · show (f.offset + readLength st f).toNat = s.start + (s.bytes ++ bytes).length
    rw [hoff, hf.offset, List.length_append, Nat.add_assoc]
  · show (f.offset + readLength st f).toNat ≤ f.size.toNat
    rw [hoff, hlen]
    exact hfits
  · intro content hcontent hsize
    have hnext := hf.fetched hfetch (by rw [hlen]; exact hfits) hdisk hcontent hsize
    have hold := hf.slice content hcontent hsize
    show s.bytes ++ bytes = (content.drop s.start).take (s.bytes ++ bytes).length
    rw [List.length_append, List.take_add, ← hold, List.drop_drop, ← hf.offset, ← hnext]

end Streams

section Runs

variable {h hist : Streams} {i : Slot} {fd : Fin 16} {f : File}

theorem Stream.Follows.start (L : Layout) (ram : Memory) {s : Stream} (hf : s.Follows L ram f) :
    Stream.Follows L ram ⟨s.entry, f.offset.toNat, []⟩ f :=
  ⟨hf.data, hf.size, rfl, hf.bound, fun _ _ _ => rfl⟩

/-- Where no descriptor is set, streams stay as they are and children get theirs. -/
theorem FilesKept.streamed (hk : FilesKept st st') (hs : Streamed L ram h st)
    (hcur : (st.processTable st.currentProc).state ≠ .unused)
    (hsame : ∀ i, (st.processTable i).state ≠ .unused → ∀ fd,
      ((st.processTable i).openFiles fd).type = .ramdisk →
      observe L h st regs st' i fd = h i fd) : Streamed L ram (observe L h st regs st') st' := by
  intro i hi fd htype
  by_cases hu : (st.processTable i).state = .unused
  · rw [hk.new i hu hi] at htype ⊢
    obtain ⟨s, hs, hf⟩ := hs st.currentProc hcur fd htype
    rw [observe_new hu, hs]
    exact ⟨_, rfl, hf.start⟩
  · rw [hk.old i hu hi] at htype ⊢
    rw [hsame i hu fd htype]
    exact hs i hu fd htype

theorem FileSet.streamed (hset : FileSet st regs fd f st') (hs : Streamed L ram h st)
    (hsame : ∀ i, (st.processTable i).state ≠ .unused → ∀ x, ¬ (i = st.currentProc ∧ x = fd) →
      observe L h st regs st' i x = h i x)
    (hthis : f.type = .ramdisk → ∃ s, observe L h st regs st' st.currentProc fd = some s ∧
      s.Follows L ram f) : Streamed L ram (observe L h st regs st') st' := by
  intro i hi x htype
  have hu : (st.processTable i).state ≠ .unused := fun h0 => hi ((hset.used i).mpr h0)
  rw [hset.files i x] at htype ⊢
  by_cases hx : i = st.currentProc ∧ x = fd
  · rw [if_pos hx] at htype ⊢
    rw [hx.1, hx.2]
    exact hthis htype
  · rw [if_neg hx] at htype ⊢
    rw [hsame i hu x hx]
    exact hs i hu x htype

theorem Touches.unique {a : Word} {x : Fin 16} (h1 : Touches regs a fd) (h2 : Touches regs a x) :
    x = fd := by
  obtain ⟨-, ⟨h7, ha⟩ | ⟨h7, ha⟩⟩ := h1
  · obtain ⟨-, ⟨-, hb⟩ | ⟨h7', -⟩⟩ := h2
    · have heq := congrArg BitVec.toNat (hb.trans ha.symm)
      rw [BitVec.toNat_ofNat, BitVec.toNat_ofNat] at heq
      apply Fin.ext
      omega
    · rw [h7] at h7'
      exact absurd h7' (by decide)
  · obtain ⟨-, ⟨h7', -⟩ | ⟨-, hb⟩⟩ := h2
    · rw [h7'] at h7
      exact absurd h7 (by decide)
    · exact Option.some.inj (hb.symm.trans ha)

theorem Step.streamed (hr : Conducted L ram ramClear st) (hstep : Step L st (.trap regs input) st')
    (hs : Streamed L ram h st) : Streamed L ram (observe L h st regs st') st' := by
  have hset := reachable_settled hr.reachable
  have hcur := hset.steady.used
  obtain ⟨ha7, ha0, ha1, -⟩ := called_regs hset regs
  obtain ⟨hsound, hsteady⟩ := hset.called regs
  rw [hset.steady.frame] at hsteady
  have hcalled := plain_called regs st
  rcases hstep.files hset with ⟨h8, r, hcall, rfl⟩ | ⟨h8, hplain⟩
  · have hplain : ∀ {s}, Plain (entered (saveFrame regs st)) s → Plain st (resume r.1 s) :=
      fun h => (hcalled.trans h).trans (plain_resume r.1 _)
    -- the descriptor a call has set is the one it touches
    have hothers : ∀ {fd}, Touches regs ((resume r.1 r.2).frameOf st.currentProc).a0 fd →
        ∀ i, (st.processTable i).state ≠ .unused → ∀ x, ¬ (i = st.currentProc ∧ x = fd) →
        observe L h st regs (resume r.1 r.2) i x = h i x := by
      intro fd htouch i hu x hx
      apply observe_same hu
      rintro ⟨hi, hx', -⟩
      exact hx ⟨hi, htouch.unique hx'⟩
    cases hcall with
    | failed h7 w hw hr hp =>
      apply (hplain hp).filesKept.streamed hs hcur
      intro i hu x _
      apply observe_same hu
      rintro ⟨-, -, hmsb⟩
      rw [hr.a0, hw] at hmsb
      cases hmsb
    | opened h7 fd hfd e he hr hp =>
      have htouch : Touches regs ((resume r.1 r.2).frameOf st.currentProc).a0 fd :=
        ⟨h8, Or.inl ⟨ha7 ▸ h7, hr.a0.symm⟩⟩
      apply (fileSet_of_plain hp).streamed hs (hothers htouch)
      intro _
      have hname : namedEntry L (entered (saveFrame regs st)) regs.a0 = some e := by
        have he' : ramdiskGetEntry _ _ regs.a0 _ = _ := ha0 ▸ he
        rw [namedEntry, he']
      rw [observe_opened hcur h8 (ha7 ▸ h7) hr.a0, hname]
      refine ⟨_, rfl, rfl, rfl, rfl, Nat.zero_le _, ?_⟩
      intro _ _ _
      rfl
    | console h7 fd hfd hp =>
      apply (hplain hp).filesKept.streamed hs hcur
      intro i hu x htype
      apply observe_same hu
      rintro ⟨rfl, ⟨-, ⟨h7', -⟩ | ⟨-, hx⟩⟩, -⟩
      · rw [← ha7, h7] at h7'
        exact absurd h7' (by decide)
      · obtain ⟨hfd, hcons⟩ := hfd
        have hx' : fdOf regs.a0 = some fd := ha0 ▸ hfd
        cases hx.symm.trans hx'
        rw [called_file, KState.current, htype] at hcons
        cases hcons
    | ended h7 fd hfd hend hr hp =>
      apply (hplain hp).filesKept.streamed hs hcur
      intro i hu x htype
      by_cases hx : i = st.currentProc ∧ x = fd
      · obtain ⟨rfl, rfl⟩ := hx
        rw [observe_read hcur h8 (ha7 ▸ h7) (ha0 ▸ hfd.1) htype (by rw [hr.a0]; decide), hr.a0]
        obtain ⟨s, hs, -⟩ := hs st.currentProc hcur x htype
        rw [hs]
        simp [bufferBytes]
      · have htouch : Touches regs ((resume r.1 r.2).frameOf st.currentProc).a0 fd :=
          ⟨h8, Or.inr ⟨Or.inl (ha7 ▸ h7), ha0 ▸ hfd.1⟩⟩
        exact hothers htouch i hu x hx
    | read h7 fd hfd hleft bytes hlen hf hb hret hp =>
      have htouch : Touches regs ((resume r.1 r.2).frameOf st.currentProc).a0 fd :=
        ⟨h8, Or.inr ⟨Or.inl (ha7 ▸ h7), ha0 ▸ hfd.1⟩⟩
      have hshort : bytes.length < 2 ^ 32 := by
        rw [hlen]
        exact BitVec.isLt _
      apply (fileSet_of_plain hp).streamed hs (hothers htouch)
      rw [called_file] at hlen hf ⊢
      intro htype
      obtain ⟨s, hs, hfollows⟩ := hs st.currentProc hcur fd htype
      have hdelivered : bufferBytes (resume r.1 r.2) regs.a1
          ((resume r.1 r.2).frameOf st.currentProc).a0.toNat = bytes := by
        rw [hret.a0, BitVec.toNat_ofNat, Nat.mod_eq_of_lt (by omega)]
        apply bufferBytes_eq
        intro k hk
        have hbyte := hb k hk
        have ha1' : ((entered (saveFrame regs st)).frameOf
          (entered (saveFrame regs st)).currentProc).a1 = regs.a1 := ha1
        rw [ha1'] at hbyte
        exact hbyte
      rw [observe_read hcur h8 (ha7 ▸ h7) (ha0 ▸ hfd.1) htype
        (by rw [hret.a0]; exact msb_ofNat hshort), hs, hdelivered]
      refine ⟨_, rfl, hfollows.read hlen hf ?_⟩
      intro n s' a hcopy hacts
      have hkept : RamKept L (entered (saveFrame regs st)) st.currentProc := by
        intro q hq
        rw [hcalled.entry_eq]
        exact hr.ram_kept hcur q hq
      exact hcopy.disk hacts hsound hsteady hkept fun f hram hlo => image_kept hr.reachable hram hlo
    | closed h7 fd hfd hr hp =>
      have htouch : Touches regs ((resume r.1 r.2).frameOf st.currentProc).a0 fd :=
        ⟨h8, Or.inr ⟨Or.inr (ha7 ▸ h7), ha0 ▸ hfd⟩⟩
      apply (fileSet_of_plain hp).streamed hs (hothers htouch)
      intro htype
      cases htype
    | other h7 hk =>
      have hkept := (hcalled.trans_filesKept rfl hk).trans_plain (plain_resume r.1 r.2)
      apply hkept.streamed hs hcur
      intro i hu x _
      apply observe_same hu
      rintro ⟨-, ⟨-, ⟨h, -⟩ | ⟨h | h, -⟩⟩, -⟩
      · exact h7.1 (ha7.trans h)
      · exact h7.2.1 (ha7.trans h)
      · exact h7.2.2 (ha7.trans h)
  · apply hplain.filesKept.streamed hs hcur
    intro i hu x _
    apply observe_same hu
    rintro ⟨-, ⟨h, -⟩, -⟩
    exact h8 h

theorem booted_streamed (h : kmain L ram = .ok st) (hist : Streams) : Streamed L ram hist st := by
  intro i hi fd htype
  by_cases hj : i = st.currentProc
  · subst hj
    rw [show (st.processTable st.currentProc).openFiles = initProcessFds from booted_files h,
      initProcessFds] at htype
    split at htype
    · cases htype
    · cases htype
  · exact absurd (booted_alone h hj) hi

/-- In every run whose images keep clear of the kernel's RAM each open file is streamed, and a trap
leaves the descriptors it is not about. -/
theorem file_reads_stream (h : Watched L ram ramClear (fileWatch L) hist st) :
    Streamed L ram hist st ∧ ∀ regs input st', Step L st (.trap regs input) st' →
      FilesTouched st regs st' := by
  constructor
  · induction h with
    | boot st hboot hfile => exact booted_streamed hboot _
    | store h hs ih =>
      cases hs with
      | store va b pa ht => exact ih
    | trap h hs _ _ ih => exact hs.streamed h.conducted ih
  · intro regs input st' hs
    exact hs.filesTouched (reachable_settled h.conducted.reachable)

theorem sysOpenCall_returns {e : RamdiskEntry}
    (hname : userStrOk st.phys.mem (st.rootOf st.currentProc) st.load (st.frameOf tf).a0 nameMax =
      .ok true) (hfd : freeFd st.current = some fd)
    (he : ramdiskGetEntry (diskByte L st) st.load (st.frameOf tf).a0 (nameMax + 1) = .ok (some e)) :
    sysOpenCall L tf st =
      .ok (tf, (st.setFile fd (openedFile L e)).setA0 tf (BitVec.ofNat 64 fd.val)) := by
  refine bind_eq_ok.mpr ⟨true, hname, ?_⟩
  rw [if_neg (by decide), hfd]
  exact bind_eq_ok.mpr ⟨some e, he, rfl⟩

theorem trapHandler_open (hset : Settled L st) (h8 : regs.scause = 8) (h7 : regs.a7 = sysOpen) :
    trapHandler L input st.sscratch (saveFrame regs st) =
      sysOpenCall L st.sscratch (entered (saveFrame regs st)) := by
  have hreg : ((entered (saveFrame regs st)).frameOf st.sscratch).a7 = sysOpen := by
    rw [frameOf_entered hset.steady]
    exact h7
  rw [trapHandler_ecall hset.steady h8]
  unfold syscall
  dsimp only
  rw [hreg, if_neg (by decide), if_neg (by decide), if_neg (by decide), if_neg (by decide),
    if_neg (by decide), if_neg (by decide), if_pos rfl]

theorem store_data {n : ℕ} (hs : Sound L st) (hst : Steady tf st) (hsum : st.sum = true)
    (he : entryOf st st.currentProc (pageNo buffer) = userWord n (pteU ||| pteR ||| pteW))
    (hc : Canonical buffer) (b : Byte) : ∃ s, st.store buffer b = .ok s := by
  obtain ⟨hleaf, -, hwrite⟩ := writeLeaf_heap n
  have hroot := hst.root hs
  rw [entryOf, hroot] at he
  have htrans : kernelTranslate st.phys.mem st.satp st.sum .write buffer =
      some (leafPa (userWord n (pteU ||| pteR ||| pteW)) 0 buffer) := by
    rw [kernelTranslate_iff (hs.owned.threeLevel hroot), he]
    exact ⟨hc, hleaf, fun _ => hsum, hwrite, rfl⟩
  have hphys : kernelStore st.phys st.satp st.sum buffer b = .ok { st.phys with
      mem := st.phys.mem.setByte (leafPa (userWord n (pteU ||| pteR ||| pteW)) 0 buffer) b } := by
    rw [kernelStore, htrans]
  exact ⟨_, bind_eq_ok.mpr ⟨_, hphys, rfl⟩⟩

theorem sysReadCall_byte {n : ℕ} {b : Byte} {file : File} (hs : Sound L st) (hst : Steady tf st)
    (hsum : st.sum = true) (hfd : fdOf (st.frameOf tf).a0 = some fd)
    (hfile : st.current.openFiles fd = file) (htype : file.type = .ramdisk)
    (ha2 : (st.frameOf tf).a2 = 1) (hleft : file.size - file.offset ≠ 0)
    (he : entryOf st st.currentProc (pageNo (st.frameOf tf).a1) =
      userWord n (pteU ||| pteR ||| pteW))
    (hlow : (st.frameOf tf).a1.toNat < 2 ^ 38) (hne : (st.frameOf tf).a1 ≠ 0)
    (hb : st.load (file.data + file.offset.setWidth 64) = .ok b) :
    ∃ s, sysReadCall input tf st =
        .ok (tf, (s.setFile fd { file with offset := file.offset + 1 }).setA0 tf 1) ∧
      Deposited st (st.frameOf tf).a1 [b] s := by
  obtain rfl := hst.frame
  have hsize : (st.frameOf st.currentProc).a2.setWidth 32 = (1 : BitVec 32) := by
    rw [ha2]
    rfl
  have hok : userRangeOk st.phys.mem st.satp (st.frameOf st.currentProc).a1
      (((st.frameOf st.currentProc).a2.setWidth 32).setWidth 64) pteW = true := by
    have hflag : hasFlag (userWord n (pteU ||| pteR ||| pteW)) pteW := (writeLeaf_heap n).2.2
    have he' := he
    rw [entryOf, hst.root hs] at he'
    rw [ha2]
    exact rangeOk_data hne (by omega) (by unfold Permissions; decide) userFlags_heap
      (need_write hflag) he'
  have hzero : ∀ a : Addr, a + BitVec.ofNat 64 0 = a := BitVec.add_zero
  obtain ⟨s, hstore⟩ := store_data hs hst hsum he (canonical_of_lt hlow) b
  have hnone : Deposited st (st.frameOf st.currentProc).a1 [] st := .start _
  obtain ⟨pa, -, hs', hdep⟩ := hnone.next hs hst hok (by rw [hsize]; decide) b s (by
      rw [List.length_nil, hzero]
      exact hstore)
  refine ⟨s, ?_, hdep⟩
  have hgt : ¬ (1 : BitVec 32) > file.size - file.offset := by
    intro hgt
    apply hleft
    apply BitVec.eq_of_toNat_eq
    have hlt := BitVec.lt_def.mp hgt
    have h1 : (1 : BitVec 32).toNat = 1 := rfl
    have h0 : (0 : BitVec 32).toNat = 0 := rfl
    omega
  have hone : (1 : BitVec 32).toNat = 1 := rfl
  unfold sysReadCall
  dsimp only
  rw [← hst.satp, hok, hfd, hsize]
  dsimp only
  rw [hfile, if_neg hgt, Bool.not_true, if_neg Bool.false_ne_true, if_neg hleft]
  split
  · rename_i hnone
    cases hnone.symm.trans htype
  · rename_i hconsole
    cases hconsole.symm.trans htype
  refine bind_eq_ok.mpr ⟨s, ?_, rfl⟩
  rw [hone, copyOut, hzero, hzero, hb, ok_bind, hstore, ok_bind, copyOut]

theorem trapHandler_read (hset : Settled L st) (h8 : regs.scause = 8) (h7 : regs.a7 = sysRead) :
    trapHandler L input st.sscratch (saveFrame regs st) =
      sysReadCall input st.sscratch (entered (saveFrame regs st)) := by
  have hreg : ((entered (saveFrame regs st)).frameOf st.sscratch).a7 = sysRead := by
    rw [frameOf_entered hset.steady]
    exact h7
  rw [trapHandler_ecall hset.steady h8]
  unfold syscall
  dsimp only
  rw [hreg, if_neg (by decide), if_neg (by decide), if_neg (by decide), if_neg (by decide),
    if_neg (by decide), if_neg (by decide), if_neg (by decide), if_pos rfl]

def openCall (name : Addr) : TrapFrame :=
  { TrapFrame.zero with scause := 8, a7 := sysOpen, a0 := name }

def byteCall (buffer : Addr) : TrapFrame :=
  { TrapFrame.zero with scause := 8, a7 := sysRead, a0 := 3, a1 := buffer, a2 := 1 }

section First

variable {name : Addr} {e : RamdiskEntry} {n : ℕ} {b : Byte}

theorem booted_opens (input : Input) (h : kmain L ram = .ok st)
    (hname : userStrOk (entered (saveFrame (openCall name) st)).phys.mem
      ((entered (saveFrame (openCall name) st)).rootOf st.currentProc)
      (entered (saveFrame (openCall name) st)).load name nameMax = .ok true)
    (hlook : ramdiskGetEntry (diskByte L (entered (saveFrame (openCall name) st)))
      (entered (saveFrame (openCall name) st)).load name (nameMax + 1) = .ok (some e)) :
    ∃ st', Step L st (.trap (openCall name) input) st' ∧
      (st'.frameOf st.currentProc).a0 = BitVec.ofNat 64 (3 : Fin 16).val ∧
      st'.current.openFiles 3 = openedFile L e ∧ st'.currentProc = st.currentProc ∧
      st'.phys = st.phys ∧ st'.satp = st.satp := by
  have hset := reachable_settled (.boot st h)
  obtain ⟨hs, hst⟩ := hset.called (openCall name)
  obtain ⟨-, ha0, -⟩ := called_regs hset (openCall name)
  have hfd : freeFd (entered (saveFrame (openCall name) st)).current = some 3 := by
    have hfiles : (entered (saveFrame (openCall name) st)).current.openFiles = initProcessFds :=
      ((plain_called (openCall name) st).openFiles st.currentProc).trans (booted_files h)
    rw [freeFd, hfiles]
    decide
  have hframe : ((entered (saveFrame (openCall name) st)).frameOf st.sscratch).a0 = name := by
    rw [hset.steady.frame]
    exact ha0
  have hcall := sysOpenCall_returns (by rw [hframe]; exact hname) hfd (by rw [hframe]; exact hlook)
  have hret :=
    @returns_setFile _ _ _ hst rfl rfl 3 (openedFile L e) (BitVec.ofNat 64 (3 : Fin 16).val)
  have hplain := plain_setA0 ((entered (saveFrame (openCall name) st)).setFile 3 (openedFile L e))
    st.sscratch (BitVec.ofNat 64 (3 : Fin 16).val)
  have hfile := (@fileSet_of_plain st (openCall name) 3 _ (st.sscratch, _) hplain).files
    st.currentProc 3
  rw [if_pos ⟨rfl, rfl⟩] at hfile
  have hirq : ¬ (openCall name).scause.msb = true := by
    show ¬ (8 : Word).msb = true
    decide
  refine ⟨_, .trap st (openCall name) input _ (fun h => absurd h hirq)
    (bind_eq_ok.mpr ⟨_, (trapHandler_open hset rfl rfl).trans hcall, rfl⟩), hret.a0, hfile,
    rfl, rfl,
    rfl⟩

theorem reads_byte (input : Input) {buffer : Addr} (h : Reachable L ram st)
    (hfile : st.current.openFiles 3 = openedFile L e) (hsize : e.size ≠ 0)
    (he : entryOf st st.currentProc (pageNo buffer) = userWord n (pteU ||| pteR ||| pteW))
    (hne : buffer ≠ 0) (hlow : buffer.toNat < 2 ^ 38)
    (hb : ∀ s : KState, s.phys = st.phys → s.satp = st.satp → s.sum = true →
      diskByte L s (e.offset.setWidth 64) = .ok b) :
    ∃ st', Step L st (.trap (byteCall buffer) input) st' ∧
      (st'.frameOf st.currentProc).a0 = 1 ∧ st'.currentProc = st.currentProc ∧
      (st'.current.openFiles 3).type = .ramdisk ∧ bufferBytes st' buffer 1 = [b] := by
  have hset := reachable_settled h
  obtain ⟨hs, hst⟩ := hset.called (byteCall buffer)
  obtain ⟨-, ha0, ha1, ha2⟩ := called_regs hset (byteCall buffer)
  have hfr := hset.steady.frame
  rw [← hfr] at ha0 ha1 ha2
  have hcalled := (called_file (byteCall buffer) st 3).trans hfile
  have hentry : entryOf (entered (saveFrame (byteCall buffer) st)) st.currentProc (pageNo buffer) =
      userWord n (pteU ||| pteR ||| pteW) := by
    rw [(plain_called (byteCall buffer) st).entry_eq]
    exact he
  have hfd : fdOf (byteCall buffer).a0 = some 3 := by
    show fdOf 3 = some 3
    decide
  have hbyte : (entered (saveFrame (byteCall buffer) st)).load
      ((openedFile L e).data + (openedFile L e).offset.setWidth 64) = .ok b := by
    have hat : (openedFile L e).data + (openedFile L e).offset.setWidth 64 =
        L.ramdiskStart + e.offset.setWidth 64 := BitVec.add_zero _
    rw [hat]
    exact hb _ rfl rfl (sum_entered _)
  have hleft : (openedFile L e).size - (openedFile L e).offset ≠ 0 := by
    have hall : (openedFile L e).size - (openedFile L e).offset = e.size := BitVec.sub_zero _
    rw [hall]
    exact hsize
  obtain ⟨s, hret, hdep⟩ := sysReadCall_byte hs hst (sum_entered _) (by rw [ha0]; exact hfd) hcalled
    rfl ha2 hleft (by rw [ha1]; exact hentry)
    (by rw [ha1]; exact hlow) (by rw [ha1]; exact hne) hbyte
  have hframe : s.frameOf st.currentProc =
      (entered (saveFrame (byteCall buffer) st)).frameOf st.currentProc := by
    rw [KState.frameOf, hdep.copying.processTable]
    rfl
  obtain ⟨f, hf⟩ : ∃ f, f = { openedFile L e with offset := (openedFile L e).offset + 1 } :=
    ⟨_, rfl⟩
  rw [← hf] at hret
  have hcur : (resume st.sscratch ((s.setFile 3 f).setA0 st.sscratch 1)).currentProc =
      st.currentProc := hdep.copying.currentProc
  have hplain := (hdep.copying.plain_setFile 3 f).trans (plain_setA0 _ st.sscratch 1)
  have hfiles := (@fileSet_of_plain st (byteCall buffer) 3 _ (st.sscratch, _) hplain).files
    st.currentProc 3
  rw [if_pos ⟨rfl, rfl⟩] at hfiles
  have hirq : ¬ (byteCall buffer).scause.msb = true := by
    show ¬ (8 : Word).msb = true
    decide
  refine ⟨_, .trap st (byteCall buffer) input _ (fun h => absurd h hirq)
    (bind_eq_ok.mpr ⟨_, (trapHandler_read hset rfl rfl).trans hret, rfl⟩), ?_, hcur, ?_, ?_⟩
  · rw [hfr] at hst ⊢
    exact (returns_setFile hst hdep.copying.currentProc hframe 3 f 1).a0
  · rw [KState.current, hcur]
    exact (congrArg File.type hfiles).trans (congrArg File.type hf)
  · rw [ha1] at hdep
    exact @bufferBytes_eq _ _ [b] fun k hk => hdep.userBytes hs (hfr ▸ hst) hk

theorem booted_delivers (input : Input) (buffer : Addr) (h : kmain L ram = .ok st)
    (hname : userStrOk (entered (saveFrame (openCall name) st)).phys.mem
      ((entered (saveFrame (openCall name) st)).rootOf st.currentProc)
      (entered (saveFrame (openCall name) st)).load name nameMax = .ok true)
    (hlook : ramdiskGetEntry (diskByte L (entered (saveFrame (openCall name) st)))
      (entered (saveFrame (openCall name) st)).load name (nameMax + 1) = .ok (some e))
    (hsize : e.size ≠ 0)
    (he : entryOf st st.currentProc (pageNo buffer) = userWord n (pteU ||| pteR ||| pteW))
    (hne : buffer ≠ 0) (hlow : buffer.toNat < 2 ^ 38)
    (hb : ∀ s : KState, s.phys = st.phys → s.satp = st.satp → s.sum = true →
      diskByte L s (e.offset.setWidth 64) = .ok b) :
    ∃ st1 st2, Step L st (.trap (openCall name) input) st1 ∧
      Step L st1 (.trap (byteCall buffer) input) st2 ∧
      (st2.current.openFiles 3).type = .ramdisk ∧ ∀ hist,
        observe L (observe L hist st (openCall name) st1) st1 (byteCall buffer) st2
            st2.currentProc 3 =
          some ⟨e, 0, [b]⟩ := by
  have hset := reachable_settled (.boot st h)
  obtain ⟨st1, h1, ha1, hf1, hc1, hp1, hsatp⟩ := booted_opens input h hname hlook
  have hr1 : Reachable L ram st1 := .step (.boot st h) h1
  have hset1 := reachable_settled hr1
  have he1 : entryOf st1 st1.currentProc (pageNo buffer) = userWord n (pteU ||| pteR ||| pteW) := by
    rw [entryOf, hset1.steady.root hset1.sound, hp1, hsatp, ← hset.steady.root hset.sound]
    exact he
  obtain ⟨st2, h2, ha2, hc2, ht2, hbuf⟩ := reads_byte input hr1 hf1 hsize he1 hne hlow
    fun s hs hsatp' => hb s (hs.trans hp1) (hsatp'.trans hsatp)
  refine ⟨st1, st2, h1, h2, ht2, fun hist => ?_⟩
  have hstream : observe L hist st (openCall name) st1 st1.currentProc 3 = some ⟨e, 0, []⟩ := by
    rw [hc1, observe_opened hset.steady.used rfl rfl ha1, namedEntry]
    have hfound : ramdiskGetEntry (diskByte L (entered (saveFrame (openCall name) st)))
      (entered (saveFrame (openCall name) st)).load (openCall name).a0 (nameMax + 1) =
      .ok (some e) := hlook
    rw [hfound]
    rfl
  have hfd : fdOf (byteCall buffer).a0 = some 3 := by
    show fdOf 3 = some 3
    decide
  have hopen : (st1.current.openFiles 3).type = .ramdisk := congrArg File.type hf1
  rw [hc2, observe_read hset1.steady.used rfl rfl hfd hopen (by rw [ha2]; decide), hstream, ha2]
  exact congrArg (fun bs => some (⟨e, 0, bs⟩ : Stream)) hbuf

end First

theorem self_streams :
    ∃ hist st, Watched smallLayout selfRam ramClear (fileWatch smallLayout) hist st ∧
    (st.current.openFiles 3).type = .ramdisk ∧
    hist st.currentProc 3 = some ⟨⟨48, 120⟩, 0, [0x7F]⟩ := by
  obtain ⟨st, h⟩ := boot_returns selfImage
  have hrun := selfImage.conducted self_clear h
  obtain ⟨elf, phoff, phnum, start, pl, maxEnd, -, hinst, -, himg⟩ := installed h
  obtain ⟨rfl, -, -⟩ := himg selfImage
  obtain ⟨n, hn, he, -⟩ := hinst.entry_some (List.nodup_singleton _) (List.mem_singleton_self _)
    (by decide)
  obtain ⟨hname, hlook⟩ := self_named rfl le_rfl h hrun ⟨start, maxEnd, hinst⟩ (openCall selfName)
  have hbyte : ∀ s : KState, s.phys = st.phys → s.satp = st.satp → s.sum = true →
      diskByte smallLayout s ((48 : BitVec 32).setWidth 64) = .ok 0x7F := by
    intro s hp hsatp _
    refine diskByte_image hrun hsatp (fun f hf => hp ▸ hf) (fun f _ => by rw [hp]) _ _ ?_
    rfl
  obtain ⟨st1, st2, h1, h2, htype, hstream⟩ := booted_delivers ⟨⟨0, []⟩, []⟩ 0x400800
    h hname hlook (by decide) he (by decide) (by decide) hbyte
  have hwatch : Watched smallLayout selfRam ramClear (fileWatch smallLayout) (fun _ _ => none) st :=
    .boot st h fun _ hf =>
      ((selfImage.plan.below (selfImage.boot_file hf)).avoids_iff KernelRam).mpr
      self_clear
  have hopened := hwatch.trap h1 (fun _ h7 => absurd h7 (by decide)) fun _ _ => trivial
  have hread := hopened.trap h2 (fun _ h7 => absurd h7 (by decide)) fun _ _ => trivial
  exact ⟨_, st2, hread, htype, hstream fun _ _ => none⟩

theorem file_reads_stream_self : ∃ hist st s, hist st.currentProc 3 = some s ∧ s.bytes = [0x7F] ∧
    Streamed smallLayout selfRam hist st ∧
      ∀ regs input st', Step smallLayout st (.trap regs input) st' →
      FilesTouched st regs st' := by
  obtain ⟨hist, st, hwatch, -, hstream⟩ := self_streams
  exact ⟨hist, st, _, hstream, rfl, file_reads_stream hwatch⟩

section Shadow

/-- An `init.elf` whose page lies over the RAMDISK. The page starts with a copy of the directory,
then comes the program: it opens `init.elf`, by the name in the copy, and reads a byte. -/
def shadowDisk : List Byte :=
  let directory := [0x55, 0x5A, 0x41, 0x4C, 1, 0, 0, 0] ++ initName ++ List.replicate 24 0 ++
    [48, 0, 0, 0, 204, 0, 0, 0]
  directory ++
    [0x7F, 0x45, 0x4C, 0x46] ++ List.replicate 20 0 ++ le8 0x80201030 ++ le8 64 ++
    List.replicate 16 0 ++ [1, 0, 0, 0, 0, 0, 0, 0] ++
    [1, 0, 0, 0, 5, 0, 0, 0] ++ le8 120 ++ le8 0x80201000 ++ le8 0 ++ le8 84 ++ le8 4096 ++ le8 0 ++
    directory ++
    -- auipc a0, 0; addi a0, a0, -40; li a7, SYS_OPEN; ecall
    [0x17, 0x05, 0x00, 0x00, 0x13, 0x05, 0x85, 0xFD, 0x93, 0x08, 0x70, 0x00, 0x73, 0x00, 0x00, 0x00,
    -- addi a1, sp, -16; li a2, 1; li a7, SYS_READ; ecall; j .
      0x93, 0x05, 0x01, 0xFF, 0x13, 0x06, 0x10, 0x00, 0x93, 0x08, 0x80, 0x00, 0x73,
      0x00, 0x00, 0x00,
      0x6F, 0x00, 0x00, 0x00]

def shadowRam : Memory := fun f o => if f = 0x80201 then shadowDisk.getD o.val 0 else 0

def shadowFile (a : Addr) : Except Stop Byte :=
  imageReader smallLayout shadowRam ((48 : BitVec 32).setWidth 64 + a)

def shadowPage : Page := fun o => if o.val < 84 then shadowDisk.getD (168 + o.val) 0 else 0

theorem shadow_read {a : Addr} (h : a.toNat < 204) :
    shadowFile a = .ok (shadowDisk.getD (48 + a.toNat) 0) :=
  small_file (fun _ => if_pos rfl) (by omega)

theorem shadow_copy : copyIn shadowFile 120 84 = .ok shadowPage := by
  refine copyIn_reads (c := fun k => shadowDisk.getD (168 + k) 0) fun k hk => ?_
  have h120 : (120 : Addr).toNat = 120 := rfl
  have hsum : (120 + BitVec.ofNat 64 k : Addr).toNat = 120 + k := by
    rw [BitVec.toNat_add, h120, BitVec.toNat_ofNat]
    omega
  rw [shadow_read (by omega), hsum, ← Nat.add_assoc]

theorem shadow_plan : planSegments shadowFile (phdrAddrs 64 1) 0 =
    .ok ([⟨pageNo 0x80201000, shadowPage, pteU ||| pteR ||| pteX⟩], 0x80202000) :=
  have hph : readPhdr shadowFile 64 = .ok (some ⟨1, 5, 120, 0x80201000, 84, 4096⟩) := by rfl
  segment_plan hph shadow_copy (by decide) (by decide)

def shadowImage : InitImage smallLayout shadowRam where
  entry := ⟨48, 204⟩
  phoff := 64
  phnum := 1
  start := 0x80201030
  placements := [⟨pageNo 0x80201000, shadowPage, pteU ||| pteR ||| pteX⟩]
  maxEnd := 0x80202000
  found := by rfl
  plan := ⟨by rfl, by rfl, by rfl, by rfl, shadow_plan⟩
  fits := pages_fit _ (by decide)

/-- What the kernel reads in place of the RAMDISK. -/
def shadowReader (a : Addr) : Except Stop Byte :=
  pageReader (pageNo 0x80201000) shadowPage (smallLayout.ramdiskStart + a)

theorem shadow_found : ramdiskGetEntry shadowReader (pageReader (pageNo 0x80201000) shadowPage)
    0x80201008 (nameMax + 1) = .ok (some ⟨48, 204⟩) := by
  rfl

/-- The file begins with the number of an ELF file. -/
theorem shadow_holds : HoldsBytes (imageReader smallLayout shadowRam) ((48 : BitVec 32).setWidth 64)
    ((List.range 204).map fun k => shadowDisk.getD (48 + k) 0) := by
  intro k c hc
  rw [List.getElem?_map] at hc
  obtain ⟨j, hj, rfl⟩ := Option.map_eq_some_iff.mp hc
  obtain ⟨hlt, rfl⟩ := List.getElem?_eq_some_iff.mp hj
  rw [List.length_range] at hlt
  have hread := @shadow_read (BitVec.ofNat 64 k) (by rw [BitVec.toNat_ofNat]; omega)
  rw [BitVec.toNat_ofNat, Nat.mod_eq_of_lt (by omega)] at hread
  rw [List.getElem_range]
  exact hread

/-- The kernel delivers the program's own page for the file. -/
theorem shadowed_read : ∃ hist st,
    Watched smallLayout shadowRam ⟨fun _ => True, fun _ => True⟩ (fileWatch smallLayout) hist st ∧
      ¬ Streamed smallLayout shadowRam hist st := by
  obtain ⟨st, h⟩ := boot_returns shadowImage
  have hset := reachable_settled (.boot st h)
  obtain ⟨elf, phoff, phnum, start, pl, maxEnd, -, hinst, -, himg⟩ := installed h
  obtain ⟨rfl, -, -⟩ := himg shadowImage
  obtain ⟨n, hn, he, hcontent⟩ := hinst.entry_some (List.nodup_singleton _)
    (List.mem_singleton_self _) (by decide)
  dsimp only at he hcontent
  have hflags : UserFlags (pteU ||| pteR ||| pteX) := ⟨by decide, by decide⟩
  have hshadow : ∀ s : KState, s.phys = st.phys → s.satp = st.satp → s.sum = true → ∀ a,
      Below (shadowReader a) (diskByte smallLayout s a) := by
    intro s hp hsatp hsum a
    have hroot := hset.steady.root hset.sound
    rw [entryOf, hroot] at he
    rw [shadowReader, ← hcontent, ← hp]
    exact page_load (hp ▸ hset.sound.owned) (hsatp ▸ hroot) hsum hflags (by decide)
      (by rw [hp, hsatp]; exact he) hn _
  have hname : userStrOk (entered (saveFrame (openCall 0x80201008) st)).phys.mem
      ((entered (saveFrame (openCall 0x80201008) st)).rootOf st.currentProc)
      (entered (saveFrame (openCall 0x80201008) st)).load 0x80201008 nameMax = .ok true := by
    refine userStrOk_page hset hflags (by decide) he hn ?_
    rw [hcontent]
    rfl
  have hlook : ramdiskGetEntry (diskByte smallLayout (entered (saveFrame (openCall 0x80201008) st)))
      (entered (saveFrame (openCall 0x80201008) st)).load 0x80201008 (nameMax + 1) =
      .ok (some ⟨48, 204⟩) := by
    have hload : ∀ a, Below (pageReader (pageNo 0x80201000) (st.phys.mem n) a)
        ((entered (saveFrame (openCall 0x80201008) st)).load a) :=
      page_read hset hflags (by decide) he hn
    rw [hcontent] at hload
    exact ramdiskGetEntry_below
      (hshadow (entered (saveFrame (openCall 0x80201008) st)) rfl rfl (sum_entered _)) hload
      0x80201008 (nameMax + 1) (some ⟨48, 204⟩) shadow_found
  have hfree : freeFrames st.phys ≠ 0 := by
    have hframes := hinst.small_frames
    have hlen : shadowImage.placements.length = 1 := rfl
    omega
  obtain ⟨stack, hstack⟩ := hinst.stack_entry hfree
  obtain ⟨st1, st2, h1, h2, htype, hstream⟩ := booted_delivers ⟨⟨0, []⟩, []⟩ 0x3FFFFFF0
    h hname hlook (by decide) hstack (by decide) (by decide) (b := 0x17)
    fun s hp hsatp hsum => hshadow s hp hsatp hsum _ _ (by rfl)
  have hwatch : Watched smallLayout shadowRam ⟨fun _ => True, fun _ => True⟩ (fileWatch smallLayout)
      (fun _ _ => none) st := .boot st h fun _ _ => trivial
  have hopened := hwatch.trap h1 (fun _ _ _ _ => trivial) fun _ _ => trivial
  have hread := hopened.trap h2 (fun _ _ _ _ => trivial) fun _ _ => trivial
  refine ⟨_, st2, hread, fun hst => ?_⟩
  obtain ⟨s, hs, hfollows⟩ := hst st2.currentProc
    (reachable_settled hread.conducted.reachable).steady.used 3 htype
  cases (hstream fun _ _ => none).symm.trans hs
  have hslice := hfollows.slice _ shadow_holds (by rw [List.length_map, List.length_range]; rfl)
  rw [List.drop_zero] at hslice
  exact absurd hslice (by decide)

end Shadow

end Runs

end Lazux
