import Lazux.Actions

/-! # System calls that copy to user memory

A copy goes byte by byte to the pages `user_range_ok` has seen, so each byte is an action of
its own. A console read delivers the bytes it takes off the ring, in order. -/
namespace Lazux

open PagedMemory RadixForest Run Trace

section Translation

variable {ι : Type*} {H : Forest ι} {p p' : Phys} {lo root : ℕ} {i : ι} {sum : Bool}
  {va va' pa : Addr}

theorem UserWrites.kernelTranslate_eq (h : UserWrites H p p') (ho : Owned lo H p)
    (hr : H.root i = some root) (acc : Access) (va : Addr) :
    kernelTranslate p'.mem root sum acc va = kernelTranslate p.mem root sum acc va := by
  have he := h.entry_eq i (pageNo va)
  rw [hr] at he
  apply Option.ext
  intro pa
  rw [kernelTranslate_iff ((h.owned ho).threeLevel hr), kernelTranslate_iff (ho.threeLevel hr), he]

/-- A store through `va` goes to the byte `pa` of a user page. -/
structure Target (p : Phys) (root : ℕ) (sum : Bool) (va pa : Addr) : Prop where
  translated : kernelTranslate p.mem root sum .write va = some pa
  user : hasFlag (entry p.mem (some root) (pageNo va)) pteU

theorem Target.held (h : Target p root sum va pa) (ho : Owned lo H p) (hr : H.root i = some root) :
    held p H (.node i (pageNo va).leaf) = some (frame pa) := by
  obtain ⟨-, hleaf, -, -, rfl⟩ := (kernelTranslate_iff (ho.threeLevel hr)).mp h.translated
  exact held_of_user hr hleaf h.user

theorem Target.userTranslate (h : Target p root sum va pa) (ho : Owned lo H p)
    (hr : H.root i = some root) : userTranslate p.mem root .write va = some pa := by
  obtain ⟨hc, hleaf, -, hperm, hpa⟩ := (kernelTranslate_iff (ho.threeLevel hr)).mp h.translated
  exact (userTranslate_iff (ho.threeLevel hr)).mpr ⟨hc, hleaf, h.user, hperm, hpa⟩

theorem leaf_inj {q q' : PageNo} (h : q.leaf = q'.leaf) : q = q' := by
  simp only [PageNo.leaf, List.cons.injEq, and_true] at h
  obtain ⟨h0, h1, h2⟩ := h
  exact Prod.ext h2 (Prod.ext h1 h0)

theorem canonical_inj (h : Canonical va) (h' : Canonical va') (hp : pageNo va = pageNo va')
    (ho : va.toNat % 4096 = va'.toNat % 4096) : va = va' := by
  have hlow : va.setWidth 39 = va'.setWidth 39 := by
    have := pageNo_eq_iff.mp hp
    apply BitVec.eq_of_toNat_eq
    rw [BitVec.toNat_setWidth, BitVec.toNat_setWidth]
    omega
  rw [← h, ← h', hlow]

theorem Target.unique (h : Target p root sum va pa) (h' : Target p root sum va' pa)
    (ho : Owned lo H p) (hr : H.root i = some root) : va = va' := by
  have hrole := ho.distinct _ _ _ (h.held ho hr) (h'.held ho hr)
  have hpage : pageNo va = pageNo va' := leaf_inj (by simpa using hrole)
  obtain ⟨hc, -, -, -, hpa⟩ := (kernelTranslate_iff (ho.threeLevel hr)).mp h.translated
  obtain ⟨hc', -, -, -, hpa'⟩ := (kernelTranslate_iff (ho.threeLevel hr)).mp h'.translated
  refine canonical_inj hc hc' hpage ?_
  have hv := congrArg (fun a : Addr => a.toNat % 4096) (hpa.symm.trans hpa')
  simp only [leafPa_toNat] at hv
  omega

end Translation

section Copying

variable {L : Layout} {st s s' : KState} {buffer va pa : Addr} {size : BitVec 32} {n : ℕ}

/-- A copy into a checked buffer has come to byte `n`. -/
structure Copying (st : KState) (buffer : Addr) (n : ℕ) (s : KState) : Prop where
  processTable : s.processTable = st.processTable
  currentProc : s.currentProc = st.currentProc
  satp : s.satp = st.satp
  sstatus : s.sstatus = st.sstatus
  writes : UserWrites (trees st) st.phys s.phys
  reached : ∀ k < n, kernelTranslate st.phys.mem st.satp st.sum .write
    (buffer + BitVec.ofNat 64 k) ≠ none

namespace Copying

theorem start (buffer : Addr) : Copying st buffer 0 st :=
  ⟨rfl, rfl, rfl, rfl, .refl _, fun _ hk => absurd hk (Nat.not_lt_zero _)⟩

theorem withUart (h : Copying st buffer n s) (uart : Uart) :
    Copying st buffer n { s with uart := uart } :=
  ⟨h.processTable, h.currentProc, h.satp, h.sstatus, h.writes, h.reached⟩

theorem steady (h : Copying st buffer n s) (hst : Steady st.currentProc st) :
    Steady s.currentProc s := by
  refine ⟨?_, rfl, ?_⟩
  · rw [KState.current, h.processTable, h.currentProc]
    exact hst.running
  · rw [KState.rootOf, h.satp, h.processTable, h.currentProc]
    exact hst.satp

theorem trees_eq (h : Copying st buffer n s) : trees s = trees st := by
  rw [trees, trees, h.processTable]

/-- What a load of the kernel finds does not move. -/
theorem translate_eq (h : Copying st buffer n s) (hs : Sound L st) (hst : Steady st.currentProc st)
    (acc : Access) (va : Addr) : kernelTranslate s.phys.mem s.satp s.sum acc va =
      kernelTranslate st.phys.mem st.satp st.sum acc va := by
  rw [h.satp, show s.sum = st.sum by rw [KState.sum, KState.sum, h.sstatus]]
  exact h.writes.kernelTranslate_eq hs.owned (hst.root hs) acc va

theorem store (hs : Sound L st) (hst : Steady st.currentProc st)
    (hok : userRangeOk st.phys.mem st.satp buffer (size.setWidth 64) pteW = true)
    (hn : n < size.toNat) (h : Copying st buffer n s) (b : Byte) :
    Ensures (s.store (buffer + BitVec.ofNat 64 n) b) fun s' => ∃ pa,
      Target st.phys st.satp st.sum (buffer + BitVec.ofNat 64 n) pa ∧
      s' = { s with phys := { s.phys with mem := s.phys.mem.setByte pa b } } ∧
      Copying st buffer (n + 1) s' := by
  have hroot := hst.root hs
  have htr := h.translate_eq hs hst .write (buffer + BitVec.ofNat 64 n)
  intro s' hstore
  obtain ⟨phys, hphys, hres⟩ := bind_eq_ok.mp hstore
  cases hres
  unfold kernelStore at hphys
  rw [htr] at hphys
  cases hpa : kernelTranslate st.phys.mem st.satp st.sum .write (buffer + BitVec.ofNat 64 n) with
  | none =>
    rw [hpa] at hphys
    cases hphys
  | some pa =>
    rw [hpa] at hphys
    cases hphys
    have huser := checked_user hs.owned hroot hok hn h.reached (by rw [hpa]; simp)
    have htarget : Target st.phys st.satp st.sum (buffer + BitVec.ofNat 64 n) pa := ⟨hpa, huser⟩
    have hheld := htarget.held hs.owned hroot
    have hwrite : UserWrites (trees st) s.phys
        { s.phys with mem := s.phys.mem.setByte pa b } :=
      .setByte (h.writes.owned hs.owned) (by rw [h.writes.held_eq]; exact hheld)
        (leaf_ne_table _ _) b
    refine ⟨pa, htarget, rfl, h.processTable, h.currentProc, h.satp, h.sstatus,
      h.writes.trans hwrite, fun k hk => ?_⟩
    rcases Nat.lt_succ_iff_lt_or_eq.mp hk with hlt | rfl
    · exact h.reached k hlt
    · rw [hpa]
      simp

theorem act (h : Copying st buffer n s) (hs : Sound L st) (hst : Steady st.currentProc st)
    (ht : Target st.phys st.satp st.sum va pa) (b : Byte) :
    Act L s [] { s with phys := { s.phys with mem := s.phys.mem.setByte pa b } } := by
  refine .store (h.steady hst) (pageNo va) pa b ?_
  rw [h.trees_eq, h.currentProc, h.writes.held_eq]
  exact ht.held hs.owned (hst.root hs)

end Copying

theorem acts_copyOut {src : Addr} (more n : ℕ) (hs : Sound L st) (hst : Steady st.currentProc st)
    (hok : userRangeOk st.phys.mem st.satp buffer (size.setWidth 64) pteW = true)
    (hn : n + more ≤ size.toNat) (h : Copying st buffer n s) (ha : Acts L st [] s) :
    Ensures (copyOut src buffer more n s) fun s' =>
      Acts L st [] s' ∧ Copying st buffer (n + more) s' := by
  induction more generalizing n s with
  | zero => exact ensures_ok.mpr ⟨ha, h⟩
  | succ more ih =>
    refine Ensures.of_bind fun b _ => ?_
    refine (h.store hs hst hok (by omega) b).bind fun s' hstep => ?_
    obtain ⟨pa, htarget, rfl, hcopy⟩ := hstep
    have := ih (n + 1) (by omega) hcopy (ha.tail (h.act hs hst htarget b))
    rwa [show n + 1 + more = n + (more + 1) by omega] at this

end Copying

section Deposited

variable {L : Layout} {st s : KState} {buffer : Addr} {size : BitVec 32} {bytes : List Byte}

/-- A copy into a checked buffer has put `bytes` there. -/
structure Deposited (st : KState) (buffer : Addr) (bytes : List Byte) (s : KState) : Prop where
  copying : Copying st buffer bytes.length s
  stored : ∀ k (hk : k < bytes.length), ∃ pa,
    Target st.phys st.satp st.sum (buffer + BitVec.ofNat 64 k) pa ∧ s.phys.mem.byte pa = bytes[k]

theorem Deposited.start (buffer : Addr) : Deposited st buffer [] st :=
  ⟨.start buffer, fun _ hk => absurd hk (Nat.not_lt_zero _)⟩

theorem Deposited.next (h : Deposited st buffer bytes s) (hs : Sound L st)
    (hst : Steady st.currentProc st)
    (hok : userRangeOk st.phys.mem st.satp buffer (size.setWidth 64) pteW = true)
    (hn : bytes.length < size.toNat) (c : Byte) :
    Ensures (s.store (buffer + BitVec.ofNat 64 bytes.length) c) fun s' => ∃ pa,
      Target st.phys st.satp st.sum (buffer + BitVec.ofNat 64 bytes.length) pa ∧
      s' = { s with phys := { s.phys with mem := s.phys.mem.setByte pa c } } ∧
      Deposited st buffer (bytes ++ [c]) s' := by
  refine (h.copying.store hs hst hok hn c).mono fun s' hstep => ?_
  obtain ⟨pa, htarget, rfl, hcopy⟩ := hstep
  refine ⟨pa, htarget, rfl, ?_, fun k hk => ?_⟩
  · rw [List.length_append]
    exact hcopy
  · rw [List.length_append, List.length_singleton] at hk
    by_cases hlast : k = bytes.length
    · subst hlast
      refine ⟨pa, htarget, ?_⟩
      rw [List.getElem_append_right le_rfl]
      simp
    · have hlt : k < bytes.length := by omega
      obtain ⟨pa', htarget', hbyte⟩ := h.stored k hlt
      refine ⟨pa', htarget', ?_⟩
      rw [List.getElem_append_left hlt, ← hbyte]
      refine byte_setByte_ne _ ?_ _
      rintro rfl
      have hva := htarget'.unique htarget hs.owned (hst.root hs)
      have hsize := size.isLt
      have hk' := congrArg BitVec.toNat (add_left_cancel hva)
      rw [BitVec.toNat_ofNat, BitVec.toNat_ofNat] at hk'
      omega

end Deposited

section Reading

variable {L : Layout} {st s s' : KState} {buffer : Addr} {size : BitVec 32} {n : ℕ}
  {bytes : List Byte}

/-- A console read has delivered `bytes` so far. -/
structure Reading (L : Layout) (st : KState) (buffer : Addr) (bytes : List Byte) (s : KState) :
    Prop where
  copying : Copying st buffer bytes.length s
  acts : Acts L st (bytes.map .taken) s
  stored : ∀ k (hk : k < bytes.length), ∃ pa,
    Target st.phys st.satp st.sum (buffer + BitVec.ofNat 64 k) pa ∧ s.phys.mem.byte pa = bytes[k]

theorem Reading.start (buffer : Addr) : Reading L st buffer [] st :=
  ⟨.start buffer, .refl st, fun _ hk => absurd hk (Nat.not_lt_zero _)⟩

theorem Reading.next (h : Reading L st buffer bytes s) (hs : Sound L st)
    (hst : Steady st.currentProc st)
    (hok : userRangeOk st.phys.mem st.satp buffer (size.setWidth 64) pteW = true)
    (hn : bytes.length < size.toNat) {c : Byte} {uart : Uart}
    (hget : uartGetc s.uart = (some c, uart)) :
    Ensures ({ s with uart := uart }.store (buffer + BitVec.ofNat 64 bytes.length) c)
      (Reading L st buffer (bytes ++ [c])) := by
  have hdeposited : Deposited st buffer bytes { s with uart := uart } :=
    ⟨h.copying.withUart uart, h.stored⟩
  have htake := h.acts.tail (Act.take (h.copying.steady hst) c uart hget)
  refine (hdeposited.next hs hst hok hn c).mono fun s' hstep => ?_
  obtain ⟨pa, htarget, rfl, hnext⟩ := hstep
  refine ⟨hnext.copying, ?_, hnext.stored⟩
  have := htake.tail (hdeposited.copying.act hs hst htarget c)
  simpa using this

theorem Reading.last (h : Reading L st buffer bytes s) (hs : Sound L st)
    (hst : Steady st.currentProc st) (hne : bytes ≠ []) :
    Ensures (s.load (buffer + BitVec.ofNat 64 (bytes.length - 1))) (· = bytes.getLast hne) := by
  have hpos := List.length_pos_iff.mpr hne
  obtain ⟨pa, htarget, hbyte⟩ := h.stored (bytes.length - 1) (by omega)
  intro b hload
  unfold KState.load kernelLoad at hload
  rw [h.copying.translate_eq hs hst] at hload
  split at hload
  · rename_i pa' hpa'
    cases hload
    rw [kernelTranslate_unique hpa' htarget.translated, hbyte, List.getLast_eq_getElem]
  · cases hload

/-- How a console read ends: the buffer is full, a line is complete or the ring is empty. -/
structure Delivery (L : Layout) (st : KState) (buffer : Addr) (size : ℕ) (bytes : List Byte)
    (s : KState) : Prop where
  reading : Reading L st buffer bytes s
  nonempty : bytes ≠ []
  length_le : bytes.length ≤ size
  inner : ∀ b ∈ bytes.dropLast, b ≠ newline
  stop : bytes.length < size → bytes.getLast? = some newline ∨ (uartGetc s.uart).1 = none

theorem delivery_consoleRead (more : ℕ) (hs : Sound L st) (hst : Steady st.currentProc st)
    (hok : userRangeOk st.phys.mem st.satp buffer (size.setWidth 64) pteW = true)
    (hn : bytes.length + more = size.toNat) (hne : bytes ≠ [])
    (hinner : ∀ b ∈ bytes.dropLast, b ≠ newline) (h : Reading L st buffer bytes s) :
    Ensures (consoleRead buffer more bytes.length s) fun r => ∃ bytes',
      Delivery L st buffer size.toNat bytes' r.2 ∧ r.1 = bytes'.length := by
  induction more generalizing bytes s with
  | zero =>
    refine ensures_ok.mpr ⟨bytes, ⟨h, hne, by omega, hinner, fun hlt => ?_⟩, rfl⟩
    omega
  | succ more ih =>
    refine (h.last hs hst hne).bind fun last hlast => ?_
    subst hlast
    split_ifs with hnl
    · refine ensures_pure.mpr ⟨bytes, ⟨h, hne, by omega, hinner, fun _ => Or.inl ?_⟩, rfl⟩
      rw [List.getLast?_eq_some_getLast hne, hnl]
    · split
      · rename_i u hget
        refine ensures_pure.mpr ⟨bytes, ⟨h, hne, by omega, hinner, fun _ => Or.inr ?_⟩, rfl⟩
        rw [hget]
      · rename_i c uart hget
        refine (h.next hs hst hok (by omega) hget).bind fun s' hnext => ?_
        have hlen : (bytes ++ [c]).length = bytes.length + 1 := by simp
        rw [← hlen]
        refine ih (by rw [hlen]; omega) (by simp) (fun b hb => ?_) hnext
        rw [List.dropLast_concat] at hb
        rw [← List.dropLast_append_getLast hne] at hb
        rcases List.mem_append.mp hb with hold | hnew
        · exact hinner b hold
        · rw [List.mem_singleton.mp hnew]
          exact hnl

theorem delivery_read {α : Type} {k : ℕ × KState → Except Stop α} {Q : α → Prop} {c : Byte}
    {uart : Uart} (hs : Sound L st) (hst : Steady st.currentProc st)
    (hok : userRangeOk st.phys.mem st.satp buffer (size.setWidth 64) pteW = true)
    (hsize : size ≠ 0) (hget : uartGetc st.uart = (some c, uart))
    (hk : ∀ bytes s, Delivery L st buffer size.toNat bytes s → Ensures (k (bytes.length, s)) Q) :
    Ensures (({ st with uart := uart } : KState).store buffer c >>= fun s =>
      consoleRead buffer (size.toNat - 1) 1 s >>= k) Q := by
  have hpos : 0 < size.toNat := by
    rw [Nat.pos_iff_ne_zero]
    intro h0
    exact hsize (BitVec.eq_of_toNat_eq h0)
  have hfirst := (@Reading.start L st buffer).next hs hst hok hpos hget
  have hzero : buffer + BitVec.ofNat 64 ([] : List Byte).length = buffer := by simp
  rw [hzero, List.nil_append] at hfirst
  refine hfirst.bind fun s hread => ?_
  refine (delivery_consoleRead _ hs hst hok ?_ (by simp) (by simp) hread).bind fun x hx => ?_
  · rw [List.length_singleton]
    omega
  · obtain ⟨n, s'⟩ := x
    obtain ⟨bytes, hd, hn⟩ := hx
    dsimp only at hd hn
    subst hn
    exact hk bytes s' hd

end Reading

end Lazux
