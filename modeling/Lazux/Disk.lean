import Lazux.Output
import Lazux.Residue

/-! # From the files of `mkramdisk` to programs

The image the tool writes is linked into the kernel. What programs open, read and run are the
files the tool was given. -/
namespace Lazux

open PagedMemory Run

variable {L : Layout} {ram : Memory} {st st' : KState} {regs : TrapFrame} {input : Input}
  {files : List InputFile} {x : InputFile} {s : CString} {found : RamdiskEntry}

/-- The kernel has been built with an image of these files. -/
structure Packed (L : Layout) (ram : Memory) (files : List InputFile) : Prop where
  image : ∃ image, mkramdisk files = some image ∧ image.length < 2 ^ 32 ∧
    HoldsBytes (imageReader L ram) 0 image
  short : ∀ f ∈ files, f.basename.val.length ≤ 31
  distinct : (files.map InputFile.basename).Nodup

/-- Where the bytes of a file lie. -/
structure EntryOf (L : Layout) (ram : Memory) (files : List InputFile) (x : InputFile)
    (e : RamdiskEntry) : Prop where
  lookup : (imageEntries files).lookup x.basename = some e
  size : e.size.toNat = x.bytes.length
  data : HoldsBytes (imageReader L ram) (e.offset.setWidth 64) x.bytes

section Directory

variable {disk bytesB : Addr → Except Stop Byte} {name : Addr} {len : ℕ}

theorem Packed.laid (h : Packed L ram files) (hdisk : ∀ a, Below (imageReader L ram a) (disk a)) :
    Laid disk files := by
  obtain ⟨image, hmake, hsize, himage⟩ := h.image
  exact mkramdisk_laid hmake hsize fun i b hb => hdisk _ b (himage i b hb)

theorem Packed.getEntry (h : Packed L ram files)
    (hdisk : ∀ a, Below (imageReader L ram a) (disk a)) (hname : Named bytesB name len s) :
    ramdiskGetEntry disk bytesB name len = .ok ((imageEntries files).lookup s) :=
  (h.laid hdisk).getEntry h.short hname

theorem Packed.file (h : Packed L ram files) (hx : x ∈ files) : ∃ e, EntryOf L ram files x e := by
  obtain ⟨pre, post, rfl⟩ := List.append_of_mem hx
  have hnew : x.basename ∉ pre.map InputFile.basename := by
    have hd := h.distinct
    rw [List.map_append, List.map_cons, List.nodup_append] at hd
    exact fun hmem => hd.2.2 _ hmem _ List.mem_cons_self rfl
  obtain ⟨e, hlookup, hsize, hdata⟩ := (h.laid fun a => Below.refl _).file hnew
  exact ⟨e, hlookup, hsize, hdata⟩

theorem Packed.named (h : Packed L ram files) (hl : (imageEntries files).lookup s = some found) :
    ∃ x ∈ files, x.basename = s ∧ EntryOf L ram files x found := by
  have hmem : s ∈ files.map InputFile.basename := by
    by_contra hno
    rw [imageEntries, fillEntries_other hno] at hl
    cases hl
  obtain ⟨x, hx, rfl⟩ := List.mem_map.mp hmem
  obtain ⟨e, he⟩ := h.file hx
  cases he.lookup.symm.trans hl
  exact ⟨x, hx, rfl, he⟩

theorem Packed.entry (h : Packed L ram files) {e : CString × RamdiskEntry}
    (he : e ∈ imageEntries files) : ∃ x ∈ files, EntryOf L ram files x e.2 := by
  have hkeys : ((imageEntries files).map (·.1)).Nodup := by
    rw [imageEntries, fillEntries_names]
    exact h.distinct
  have hl : (imageEntries files).lookup e.1 = some e.2 := by
    obtain ⟨before, after, hsplit⟩ := List.append_of_mem he
    refine List.lookup_eq_some_iff.mpr ⟨before, after, hsplit, fun p hp => ?_⟩
    rw [hsplit, List.map_append, List.map_cons, List.nodup_append] at hkeys
    have hne := hkeys.2.2 p.1 (List.mem_map_of_mem hp) e.1 List.mem_cons_self
    simpa using Ne.symm hne
  obtain ⟨x, hx, -, hentry⟩ := h.named hl
  exact ⟨x, hx, hentry⟩

theorem Packed.answered (h : Packed L ram files) : Answered L ram (imageEntries files) := by
  intro disk bytesB name len found hdisk hfound
  have hlaid := h.laid hdisk
  obtain ⟨magic, -, hfound⟩ := bind_eq_ok.mp hfound
  split_ifs at hfound
  · cases hfound
  · obtain ⟨n, hn, hfound⟩ := bind_eq_ok.mp hfound
    cases hn.symm.trans hlaid.count
    rw [← imageEntries_length files] at hfound
    exact findEntry_mem hlaid.entries hfound

end Directory

section Strings

variable {r : Addr → Except Stop Byte} {name : Addr} {n : ℕ}

theorem strEnds_terminated {t : List Byte} (ht : 0 ∉ t) (h : HoldsBytes r name (t ++ [0]))
    (hn : t.length < n) : strEnds r name n = .ok true := by
  induction t generalizing name n with
  | nil =>
    obtain ⟨m, rfl⟩ := Nat.exists_eq_add_of_lt hn
    refine bind_eq_ok.mpr ⟨0, (holdsBytes_cons.mp h).1, ?_⟩
    exact if_pos rfl
  | cons b t ih =>
    obtain ⟨hb, hrest⟩ := holdsBytes_cons.mp h
    cases n with
    | zero => exact absurd hn (Nat.not_lt_zero _)
    | succ n =>
      rw [List.mem_cons, not_or] at ht
      refine bind_eq_ok.mpr ⟨b, hb, ?_⟩
      rw [if_neg (Ne.symm ht.1)]
      exact ih ht.2 hrest (Nat.lt_of_succ_lt_succ hn)

/-- What the program can read, null and the last page apart. -/
def programReader (st : KState) (a : Addr) : Except Stop Byte :=
  match readable st a with
  | some b => if a ≠ 0 ∧ a.toNat + 4096 < 2 ^ 64 then .ok b else .error .spin
  | none => .error .spin

def Spelled (st : KState) (name : Addr) (s : CString) : Prop :=
  Named (programReader st) name nameMax s

theorem programReader_ok {a : Addr} {b : Byte} (h : programReader st a = .ok b) :
    readable st a = some b ∧ a ≠ 0 ∧ a.toNat + 4096 < 2 ^ 64 := by
  unfold programReader at h
  split at h
  · rename_i c hc
    split_ifs at h with ha
    cases h
    exact ⟨hc, ha⟩
  · cases h

variable {tf : Slot}

theorem programReader_load (hs : Sound L st) (hst : Steady tf st) (hsum : st.sum = true)
    (a : Addr) : Below (programReader st a) (st.load a) := by
  intro b hb
  have h3 := hs.owned.threeLevel (hst.root hs)
  obtain ⟨pa, hpa, hbyte⟩ := Option.map_eq_some_iff.mp (programReader_ok hb).1
  obtain ⟨hc, hl, -, hp, he⟩ := (userTranslate_iff h3).mp hpa
  have hk := (kernelTranslate_iff h3).mpr ⟨hc, hl, fun _ => hsum, hp, he⟩
  rw [KState.load, kernelLoad, hk, ← hbyte]

theorem programReader_range (hs : Sound L st) (hst : Steady tf st) {a : Addr} {b : Byte}
    (h : programReader st a = .ok b) : userRangeOk st.phys.mem st.satp a 1 pteR = true := by
  obtain ⟨hb, hne, hfit⟩ := programReader_ok h
  obtain ⟨pa, hpa, -⟩ := Option.map_eq_some_iff.mp hb
  have hm := pageMapped_of_readable (hs.owned.threeLevel (hst.root hs)) hpa
  refine (@userRangeOk_of_fit _ _ _ _ 1 hne permissions_read (by omega) (by omega)).mpr
    ⟨by omega, fun k hk => ?_⟩
  obtain rfl : k = 0 := by omega
  have hzero : a + BitVec.ofNat 64 0 = a := BitVec.add_zero a
  rw [hzero]
  exact hm

theorem Spelled.accepted (h : Spelled st name s) (hs : Sound L st) (hst : Steady tf st)
    (hsum : st.sum = true) :
    userStrOk st.phys.mem st.satp st.load name nameMax = .ok true ∧
      Named st.load name (nameMax + 1) s := by
  refine ⟨?_, fun i b hb => ?_, h.room.trans (Nat.lt_succ_self _)⟩
  · exact userStrOk_below (fun a b ha => programReader_range hs hst ha)
      (programReader_load hs hst hsum) name nameMax _
      (strEnds_terminated s.property h.holds h.room)
  · exact programReader_load hs hst hsum _ b (h.holds i b hb)

end Strings

section Opening

/-- What opening a file by its name comes to. -/
inductive OpenOutcome (L : Layout) (ram : Memory) (files : List InputFile) (st : KState)
    (regs : TrapFrame) (s : CString) (st' : KState) : Prop
  | full (hfd : freeFd st.current = none) (ha : ReadAnswer st regs st' eNomem)
      (hfiles : st'.current.openFiles = st.current.openFiles)
  | missing (hs : s ∉ files.map InputFile.basename) (ha : ReadAnswer st regs st' eNoent)
      (hfiles : st'.current.openFiles = st.current.openFiles)
  /-- The first free descriptor stands at the start of the file, where its bytes lie. -/
  | opened (x : InputFile) (hx : x ∈ files) (hs : x.basename = s) (e : RamdiskEntry)
      (he : EntryOf L ram files x e) (fd : Fin 16) (hfd : freeFd st.current = some fd)
      (ha : ReadAnswer st regs st' (BitVec.ofNat 64 fd.val))
      (hfiles : st'.current.openFiles =
        Function.update st.current.openFiles fd (openedFile L e))

theorem openFiles_answered (regs : TrapFrame) (st : KState) (w : Word) :
    (resume st.sscratch ((entered (saveFrame regs st)).setA0 st.sscratch w)).current.openFiles =
      st.current.openFiles := by
  have hplain := ((plain_called regs st).trans (plain_setA0 (entered (saveFrame regs st))
    st.sscratch w)).trans (plain_resume st.sscratch _)
  exact hplain.openFiles st.currentProc

theorem freeFd_entered (regs : TrapFrame) (st : KState) :
    freeFd (entered (saveFrame regs st)).current = freeFd st.current := by
  have hfiles : (entered (saveFrame regs st)).current.openFiles = st.current.openFiles :=
    (plain_called regs st).openFiles st.currentProc
  rw [freeFd, freeFd, hfiles]

/-- A name is looked up among the files, and the lowest free descriptor gets the one it names. -/
theorem Packed.opens (hp : Packed L ram files) (hr : Conducted L ram ramClear st)
    (h8 : regs.scause = 8)
    (h7 : regs.a7 = sysOpen) (hname : Spelled st regs.a0 s) (input : Input) :
    ∃ st', takeTrap L regs input st = .ok st' ∧ OpenOutcome L ram files st regs s st' := by
  have hset := reachable_settled hr.reachable
  obtain ⟨hs, hst⟩ := hset.called regs
  have hcalled : Spelled (entered (saveFrame regs st)) regs.a0 s := hname
  obtain ⟨hok, hnamed⟩ := hcalled.accepted hs hst (sum_entered _)
  have hlook := hp.getEntry (called_disk hr regs) hnamed
  have ha0 : ((entered (saveFrame regs st)).frameOf st.sscratch).a0 = regs.a0 := by
    rw [frameOf_entered hset.steady]
  rw [hst.satp, ← ha0] at hok
  rw [← ha0] at hlook
  have hfree := freeFd_entered regs st
  have back : ∀ r, sysOpenCall L st.sscratch (entered (saveFrame regs st)) = .ok r →
      takeTrap L regs input st = .ok (resume r.1 r.2) := by
    intro r hcall
    rw [takeTrap, trapHandler_open hset h8 h7, hcall]
    rfl
  cases hfd : freeFd st.current with
  | none =>
    have hcall : sysOpenCall L st.sscratch (entered (saveFrame regs st)) =
        .ok (st.sscratch, (entered (saveFrame regs st)).setA0 st.sscratch eNomem) := by
      refine bind_eq_ok.mpr ⟨true, hok, ?_⟩
      rw [if_neg (by decide), hfree, hfd]
      rfl
    exact ⟨_, back _ hcall, .full hfd (readAnswer_answered hset regs eNomem)
      (openFiles_answered regs st eNomem)⟩
  | some fd =>
    rw [hfd] at hfree
    cases hfound : (imageEntries files).lookup s with
    | none =>
      rw [hfound] at hlook
      have hcall : sysOpenCall L st.sscratch (entered (saveFrame regs st)) =
          .ok (st.sscratch, (entered (saveFrame regs st)).setA0 st.sscratch eNoent) := by
        refine bind_eq_ok.mpr ⟨true, hok, ?_⟩
        rw [if_neg (by decide), hfree]
        exact bind_eq_ok.mpr ⟨none, hlook, rfl⟩
      refine ⟨_, back _ hcall, .missing (fun hmem => ?_) (readAnswer_answered hset regs eNoent)
        (openFiles_answered regs st eNoent)⟩
      obtain ⟨x, hx, rfl⟩ := List.mem_map.mp hmem
      obtain ⟨e, he⟩ := hp.file hx
      rw [he.lookup] at hfound
      cases hfound
    | some e =>
      rw [hfound] at hlook
      obtain ⟨x, hx, hs', hentry⟩ := hp.named hfound
      have hret := readAnswer_returns hset (returns_setFile hst rfl rfl fd (openedFile L e)
        (BitVec.ofNat 64 fd.val))
      have hfiles := @fileSet_of_plain st regs fd _ (st.sscratch, _) (plain_setA0
        ((entered (saveFrame regs st)).setFile fd (openedFile L e)) st.sscratch
        (BitVec.ofNat 64 fd.val))
      refine ⟨_, back _ (sysOpenCall_returns hok hfree hlook), .opened x hx hs' e hentry fd hfd hret
        (funext fun y => ?_)⟩
      refine (hfiles.files st.currentProc y).trans ?_
      by_cases hy : y = fd
      · rw [if_pos ⟨rfl, hy⟩, hy, Function.update_self]
      · rw [if_neg fun h => hy h.2, Function.update_of_ne hy]
        rfl

end Opening

section Loading

variable {r elf : Addr → Except Stop Byte} {off : Addr} {bytes : List Byte}

theorem HoldsBytes.file (h : HoldsBytes r off bytes) (helf : ∀ a, Below (r (off + a)) (elf a)) :
    HoldsBytes elf 0 bytes := by
  intro i b hb
  have hzero : (0 : Addr) + BitVec.ofNat 64 i = BitVec.ofNat 64 i := BitVec.zero_add _
  rw [hzero]
  exact helf _ b (h i b hb)

theorem Packed.execs (hp : Packed L ram files) (hr : Conducted L ram ramClear st)
    (hname : Spelled st regs.a0 s)
    (hfile : ExecFile L st.currentProc (entered (saveFrame regs st)) elf) :
    ∃ x ∈ files, x.basename = s ∧ HoldsBytes elf 0 x.bytes := by
  have hset := reachable_settled hr.reachable
  obtain ⟨hs, hst⟩ := hset.called regs
  have hcalled : Spelled (entered (saveFrame regs st)) regs.a0 s := hname
  obtain ⟨-, hnamed⟩ := hcalled.accepted hs hst (sum_entered _)
  have hlook := hp.getEntry (called_disk hr regs) hnamed
  obtain ⟨e, newPt, p1, p2, he, ha, hk, rfl⟩ := hfile
  obtain ⟨-, ha0, -⟩ := called_regs hset regs
  rw [ha0] at he
  rw [he, Except.ok.injEq] at hlook
  obtain ⟨x, hx, hs', hentry⟩ := hp.named hlook.symm
  have htree := @execTree _ (entered (saveFrame regs st)) _ _ _ hs ha hk
  exact ⟨x, hx, hs', hentry.data.file fun a => diskByte_image hr
    (s := execing (entered (saveFrame regs st)) newPt p2) rfl htree.inUse htree.mem _⟩

theorem Packed.boots (hp : Packed L ram files) (hfile : BootFile L ram elf) :
    ∃ x ∈ files, x.basename.val = initName ∧ HoldsBytes elf 0 x.bytes := by
  obtain ⟨rootPt, p1, p2, c, i, mid, e, ha, hk, hproc, he, rfl⟩ := hfile
  have hread := image_read ha hk hproc
  have hlook := hp.getEntry hread initName_named
  rw [he, Except.ok.injEq] at hlook
  obtain ⟨x, hx, hs, hentry⟩ := hp.named hlook.symm
  exact ⟨x, hx, congrArg Subtype.val hs, hentry.data.file fun a => hread _⟩

end Loading

section Delivering

variable {hist : Streams} {i : Slot} {fd : Fin 16}

/-- A descriptor has delivered this part of a file and stands behind it. -/
structure Delivers (x : InputFile) (s : Stream) (f : File) : Prop where
  size : f.size.toNat = x.bytes.length
  offset : f.offset.toNat = s.start + s.bytes.length
  bound : s.start + s.bytes.length ≤ x.bytes.length
  bytes : s.bytes = (x.bytes.drop s.start).take s.bytes.length

theorem Packed.delivers (hp : Packed L ram files) (hr : Conducted L ram ramClear st)
    (hstream : Streamed L ram hist st) (hi : (st.processTable i).state ≠ .unused)
    (hfd : ((st.processTable i).openFiles fd).type = .ramdisk) :
    ∃ x ∈ files, ∃ s, hist i fd = some s ∧ EntryOf L ram files x s.entry ∧
      Delivers x s ((st.processTable i).openFiles fd) := by
  obtain ⟨s, hs, hfollows⟩ := hstream i hi fd hfd
  obtain ⟨e, he, hdata, hsize, -⟩ := files_answered hp.answered hr i hi fd hfd
  obtain ⟨x, hx, hentry⟩ := hp.entry he
  have hsame : s.entry = e.2 := by
    have hoff := hfollows.data.symm.trans hdata
    rw [BitVec.add_right_inj] at hoff
    have hoff' : s.entry.offset = e.2.offset := by
      apply BitVec.eq_of_toNat_eq
      have hnat := congrArg BitVec.toNat hoff
      have h1 := s.entry.offset.isLt
      have h2 := e.2.offset.isLt
      rw [BitVec.toNat_setWidth, BitVec.toNat_setWidth] at hnat
      omega
    have hsize' : s.entry.size = e.2.size := hfollows.size.symm.trans hsize
    calc s.entry = ⟨s.entry.offset, s.entry.size⟩ := rfl
      _ = e.2 := by rw [hoff', hsize']
  rw [← hsame] at hentry
  have hlen := (congrArg BitVec.toNat hfollows.size).trans hentry.size
  have hbound := hfollows.bound
  refine ⟨x, hx, s, hs, hentry, hlen, hfollows.offset, ?_, ?_⟩
  · rw [hfollows.offset, hlen] at hbound
    exact hbound
  · exact hfollows.slice x.bytes hentry.data hentry.size.symm

theorem watched_streamed (h : Watched L ram ramClear (fileWatch L) hist st) :
    Streamed L ram hist st := by
  induction h with
  | boot st hboot => exact booted_streamed hboot _
  | store h hs ih =>
    cases hs with
    | store va b pa ht => exact ih
  | trap h hs _ _ ih => exact hs.streamed h.conducted ih

/-- The files `mkramdisk` was given are what programs get. In every run whose images keep clear of
the kernel's RAM each open descriptor of each process has delivered a part of one of them, in order
and without a gap, and stands behind it; a name opens the file with that name, or nothing if there
is none; and boot and `SYS_EXEC` load the files of their names. -/
theorem packed_files_delivered (hp : Packed L ram files)
    (h : Watched L ram ramClear (fileWatch L) hist st) :
    (∀ i, (st.processTable i).state ≠ .unused → ∀ fd,
      ((st.processTable i).openFiles fd).type = .ramdisk → ∃ x ∈ files, ∃ s, hist i fd = some s ∧
        EntryOf L ram files x s.entry ∧ Delivers x s ((st.processTable i).openFiles fd)) ∧
    (∀ regs s, regs.scause = 8 → regs.a7 = sysOpen → Spelled st regs.a0 s → ∀ input,
      ∃ st', takeTrap L regs input st = .ok st' ∧ OpenOutcome L ram files st regs s st') ∧
    (∀ regs s elf, Spelled st regs.a0 s →
      ExecFile L st.currentProc (entered (saveFrame regs st)) elf →
      ∃ x ∈ files, x.basename = s ∧ HoldsBytes elf 0 x.bytes) ∧
    ∀ elf, BootFile L ram elf →
      ∃ x ∈ files, x.basename.val = initName ∧ HoldsBytes elf 0 x.bytes := by
  have hr := h.conducted
  exact ⟨fun i hi fd hfd => hp.delivers hr (watched_streamed h) hi hfd,
    fun regs s h8 h7 hname input => hp.opens hr h8 h7 hname input,
    fun regs s elf hname hfile => hp.execs hr hname hfile, fun elf hfile => hp.boots hfile⟩

theorem initName_clean : 0 ∉ initName := by decide

def selfFiles : List InputFile := [⟨⟨initName, initName_clean⟩, selfDisk.drop 48⟩]

theorem self_packed : Packed smallLayout selfRam selfFiles := by
  refine ⟨?_, by decide, List.nodup_singleton _⟩
  obtain ⟨image, hmake⟩ : ∃ image, mkramdisk selfFiles = some image := ⟨_, rfl⟩
  have himage := mkramdisk_layout hmake
  refine ⟨image, hmake, ?_, ?_⟩
  · rw [himage]
    decide +kernel
  · rw [himage]
    exact @selfDisk_holds _ 0 (by decide +kernel) (by decide +kernel)

/-- The first program has read a byte of its own file, which is the one `mkramdisk` was given. -/
theorem packed_files_delivered_self : ∃ (hist : Streams) (st : KState) (s : Stream),
    hist st.currentProc 3 = some s ∧
    s.bytes = [0x7F] ∧ ∃ x ∈ selfFiles, EntryOf smallLayout selfRam selfFiles x s.entry ∧
      Delivers x s (st.current.openFiles 3) := by
  obtain ⟨hist, st, hwatch, htype, hstream⟩ := self_streams
  obtain ⟨x, hx, s, hs, hentry, hdelivers⟩ := (packed_files_delivered self_packed hwatch).1
    st.currentProc (reachable_settled hwatch.conducted.reachable).steady.used 3 htype
  cases hstream.symm.trans hs
  exact ⟨hist, st, _, hstream, rfl, x, hx, hentry, hdelivers⟩

end Delivering

end Lazux
