import Lazux.Devices
import Lazux.Exec
import Lazux.Files
import Lazux.Legal

/-! # What a trap cannot do to the kernel

The handler comes back with a frame to resume, idles or shuts down, as long as the programs keep to
the system calls there are and their memory off the devices. -/
namespace Lazux

open PagedMemory RadixForest Run

variable {L : Layout} {ram : Memory} {st st' s mid : KState} {tf next : Slot} {regs : TrapFrame}
  {input : Input} {idle : List Wakeup} {dev : Device} {e : Stop}

section Scheduling

/-- The registers of the devices answer at their own addresses. -/
def DevicesReached (st : KState) : Prop := ∀ (va : Addr) (acc : Access),
  DevicePage (va.toNat / 4096) → kernelTranslate st.phys.mem st.satp st.sum acc va = some va

/-- No process is left that could run, now or later. -/
def NobodyLeft (st : KState) : Prop :=
  ∀ i, (st.processTable i).state ≠ .ready ∧ (st.processTable i).state ≠ .blocked

/-- How the kernel may stop handling a trap: it idles until an interrupt comes, or it shuts down
as nobody is left. -/
def Rests (st : KState) (e : Stop) : Prop := e = .waiting ∨ e = .shutdown ∧ NobodyLeft st

theorem DevicesReached.congr (h : DevicesReached st) (hp : st'.phys = st.phys)
    (hsatp : st'.satp = st.satp) (hstatus : st'.sstatus = st.sstatus) : DevicesReached st' := by
  intro va acc hdev
  rw [hp, hsatp, KState.sum, hstatus]
  exact h va acc hdev

def Stirs (st st' : KState) : Prop := ∀ i,
  (st'.processTable i).state = (st.processTable i).state ∨
    (st.processTable i).state = .blocked ∧ (st'.processTable i).state = .ready

theorem Stirs.refl (st : KState) : Stirs st st := fun _ => Or.inl rfl

theorem Stirs.trans (h : Stirs st mid) (h' : Stirs mid st') : Stirs st st' := by
  intro i
  rcases h i with he | ⟨hb, hr⟩
  · rw [← he]
    exact h' i
  · rcases h' i with he | ⟨hb', -⟩
    · exact Or.inr ⟨hb, he.trans hr⟩
    · rw [hr] at hb'
      cases hb'

theorem Stirs.used (h : Stirs st st') {i : Slot} (hu : (st'.processTable i).state ≠ .unused) :
    (st.processTable i).state ≠ .unused := by
  intro h0
  rcases h i with he | ⟨hb, -⟩
  · exact hu (he.trans h0)
  · rw [h0] at hb
    cases hb

theorem Stirs.nobodyLeft (h : Stirs st st') (hleft : NobodyLeft st') : NobodyLeft st := by
  intro i
  obtain ⟨hready, hblocked⟩ := hleft i
  rcases h i with he | ⟨-, hr⟩
  · rw [← he]
    exact ⟨hready, hblocked⟩
  · exact absurd hr hready

theorem stirs_wakeup (st : KState) (ch : Chan) : Stirs st (wakeup st ch) := by
  intro i
  by_cases hi : (st.processTable i).state = .blocked ∧ (st.processTable i).chan = some ch
  · exact Or.inr ⟨hi.1, by simp [wakeup, hi]⟩
  · exact Or.inl (by simp [wakeup, hi])

theorem stirs_bytes (bytes : List Byte) (st : KState) : Stirs st (bytes.foldl uartByte st) := by
  induction bytes generalizing st with
  | nil => exact .refl st
  | cons b bytes ih =>
    have hbyte : Stirs st (uartByte st b) := by
      unfold uartByte
      dsimp only
      split
      · exact stirs_wakeup _ _
      · exact .refl _
    exact hbyte.trans (ih _)

theorem plicDispatch_served (h : DevicesReached st) (dev : Device) :
    ∃ st', plicDispatch dev st = .ok st' ∧ OnlyWakes st st' ∧ Stirs st st' := by
  have hread : kernelTranslate st.phys.mem st.satp st.sum .read plicClaim = some plicClaim :=
    h _ _ (by decide)
  have hclaim : claimIrq dev st = .ok dev.irq := by
    unfold claimIrq
    rw [hread]
    exact congrArg Except.ok (if_pos rfl)
  have hcomplete : ∀ {s : KState}, OnlyWakes st s → completeIrq dev.irq s = .ok s := by
    intro s hs
    have hwrite := (h.congr hs.phys hs.satp hs.sstatus) plicClaim .write (by decide)
    unfold completeIrq
    rw [hwrite]
    exact congrArg Except.ok (if_pos rfl)
  have hroute : ∃ s, routeIrq dev dev.irq st = .ok s ∧ OnlyWakes st s ∧ Stirs st s := by
    unfold routeIrq
    split
    · have hlsr : kernelTranslate st.phys.mem st.satp st.sum .read uartLsr = some uartLsr :=
        h _ _ (by decide)
      unfold uartInterrupt
      rw [hlsr]
      exact ⟨_, if_pos rfl, onlyWakes_bytes _ _, stirs_bytes _ _⟩
    · exact ⟨_, rfl, ⟨rfl, rfl, rfl, rfl, rfl, rfl, fun _ => ⟨_, _, rfl⟩⟩, .refl st⟩
  unfold plicDispatch
  by_cases h0 : dev.irq = 0
  · refine ⟨st, bind_eq_ok.mpr ⟨dev.irq, hclaim, if_pos h0⟩, .refl st, .refl st⟩
  · obtain ⟨s, hs, hw⟩ := hroute
    refine ⟨s, bind_eq_ok.mpr ⟨dev.irq, hclaim, ?_⟩, hw⟩
    rw [if_neg h0]
    exact bind_eq_ok.mpr ⟨s, hs, hcomplete hw.1⟩

theorem plicDispatch_typed (h : DevicesReached st) (bytes : List Byte) :
    plicDispatch ⟨uart0Irq, bytes⟩ st = .ok (bytes.foldl uartByte st) := by
  have hread : kernelTranslate st.phys.mem st.satp st.sum .read plicClaim = some plicClaim :=
    h _ _ (by decide)
  have hlsr : kernelTranslate st.phys.mem st.satp st.sum .read uartLsr = some uartLsr :=
    h _ _ (by decide)
  have hclaim : claimIrq ⟨uart0Irq, bytes⟩ st = .ok uart0Irq := by
    unfold claimIrq
    rw [hread]
    exact congrArg Except.ok (if_pos rfl)
  have hroute : routeIrq ⟨uart0Irq, bytes⟩ uart0Irq st = .ok (bytes.foldl uartByte st) := by
    unfold routeIrq uartInterrupt
    rw [if_pos rfl, hlsr]
    exact if_pos rfl
  have hcomplete : completeIrq uart0Irq (bytes.foldl uartByte st) =
      .ok (bytes.foldl uartByte st) := by
    have hw := onlyWakes_bytes bytes st
    have hwrite := (h.congr hw.phys hw.satp hw.sstatus) plicClaim .write (by decide)
    unfold completeIrq
    rw [hwrite]
    exact congrArg Except.ok (if_pos rfl)
  unfold plicDispatch
  refine bind_eq_ok.mpr ⟨uart0Irq, hclaim, ?_⟩
  rw [if_neg (by decide)]
  exact bind_eq_ok.mpr ⟨_, hroute, hcomplete⟩

theorem idleService_served (h : DevicesReached st) (w : Wakeup) :
    ∃ st', idleService w st = .ok st' ∧ OnlyWakes st st' ∧ Stirs st st' := by
  unfold idleService
  split
  · exact plicDispatch_served h w.device
  · exact ⟨st, rfl, .refl st, .refl st⟩

theorem anyBlocked_false (hb : ¬ anyBlocked st = true) (i : Slot) :
    (st.processTable i).state ≠ .blocked := by
  intro h
  exact hb (List.any_eq_true.mpr ⟨i, List.mem_finRange i, by simpa using h⟩)

theorem ends_awaitReady (start : Slot) (idle : List Wakeup) (h : DevicesReached st)
    (hc : st.current.state ≠ .running) :
    Ends (awaitReady start idle st) (fun r => ∃ next, r.1 = some next) (Rests st) := by
  induction idle generalizing st with
  | nil =>
    unfold awaitReady
    split
    · rename_i next hf
      exact ends_ok ⟨next, rfl⟩
    · rename_i hf
      have hnone := findReady_none hf
      rw [if_neg (fun hcur => hcur.elim (hnone _) hc)]
      split
      · rename_i hb
        exact ends_error (Or.inr ⟨rfl, fun i => ⟨hnone i, anyBlocked_false (by simpa using hb) i⟩⟩)
      · exact ends_error (Or.inl rfl)
  | cons w ws ih =>
    unfold awaitReady
    split
    · rename_i next hf
      exact ends_ok ⟨next, rfl⟩
    · rename_i hf
      have hnone := findReady_none hf
      rw [if_neg (fun hcur => hcur.elim (hnone _) hc)]
      split
      · rename_i hb
        exact ends_error (Or.inr ⟨rfl, fun i => ⟨hnone i, anyBlocked_false (by simpa using hb) i⟩⟩)
      · obtain ⟨s, hs, hw, hstir⟩ := idleService_served h w
        dsimp only
        rw [hs, ok_bind]
        refine (ih (h.congr hw.phys hw.satp hw.sstatus) ?_).mono (fun r hr => hr) fun e he => ?_
        · rw [KState.current, hw.currentProc]
          intro hrun
          rcases hstir st.currentProc with hsame | ⟨-, hready⟩
          · exact hc (hsame.symm.trans hrun)
          · rw [hready] at hrun
            cases hrun
        · exact he.imp_right (And.imp_right hstir.nobodyLeft)

theorem NobodyLeft.parked (h : NobodyLeft (parked tf st)) (hc : st.current.state ≠ .running) :
    NobodyLeft st := by
  intro i
  have hi := h i
  by_cases hcur : i = st.currentProc
  · subst hcur
    have hstate : ((Lazux.parked tf st).processTable st.currentProc).state =
        (st.processTable st.currentProc).state := by
      rw [Lazux.parked, modifyProc_self]
      exact if_neg hc
    rw [← hstate]
    exact hi
  · rw [Lazux.parked, modifyProc_of_ne _ hcur] at hi
    exact hi

/-- A process that cannot go on is followed by another, or the kernel rests. -/
theorem ends_schedule (idle : List Wakeup) (tf : Slot) (h : DevicesReached st)
    (hc : st.current.state ≠ .running) :
    Ends (schedule idle tf st) (fun _ => True) (Rests st) := by
  obtain ⟨handOver, hnext, heq⟩ := schedule_eq idle tf st
  have hparked : (parked tf st).current.state ≠ .running := parked_not_running tf st
  have hreached : DevicesReached (parked tf st) := h.congr rfl rfl rfl
  rw [heq]
  refine ((ends_awaitReady st.currentProc idle hreached hparked).mono (fun r hr => hr)
    fun e he => he.imp_right (And.imp_right fun hleft => hleft.parked hc)).bind ?_
  rintro ⟨r, s⟩ ⟨next, rfl⟩
  rw [hnext]
  exact ends_ok trivial

theorem DevicesReached.exiting (h : DevicesReached st) : DevicesReached (exiting st) := by
  unfold Lazux.exiting
  dsimp only
  split
  · exact h.congr rfl rfl rfl
  · exact h.congr rfl rfl rfl

theorem NobodyLeft.exiting (h : NobodyLeft (exiting st)) (hrun : st.current.state = .running) :
    NobodyLeft st := by
  have hzombie :
      NobodyLeft (st.modifyProc st.currentProc fun p => { p with state := .zombie }) := by
    unfold Lazux.exiting at h
    dsimp only at h
    split at h
    · exact (stirs_wakeup _ _).nobodyLeft h
    · exact h
  intro i
  by_cases hcur : i = st.currentProc
  · subst hcur
    rw [show (st.processTable st.currentProc).state = .running from hrun]
    exact ⟨by decide, by decide⟩
  · have hi := hzombie i
    rw [modifyProc_of_ne _ hcur] at hi
    exact hi

theorem ends_exitCurrent (hst : Steady tf st) (h : DevicesReached st) :
    Ends (exitCurrent idle tf st) (fun _ => True) (Rests st) := by
  obtain ⟨hcur, hzombie⟩ := exiting_fields st
  rw [exitCurrent_eq]
  refine (ends_schedule idle tf h.exiting ?_).mono (fun r hr => hr) fun e he =>
    he.imp_right (And.imp_right fun hleft => hleft.exiting hst.running)
  rw [hzombie]
  decide

theorem ends_sleeping (ch : Chan) (h : DevicesReached st) :
    Ends (schedule idle tf (sleeping st ch)) (fun _ => True) (· = .waiting) := by
  have hself : ((sleeping st ch).processTable st.currentProc).state = .blocked := by
    simp [sleeping, sleepOn, KState.setFrame]
  have hreached : DevicesReached (sleeping st ch) := h.congr rfl rfl rfl
  refine (ends_schedule idle tf hreached ?_).mono (fun r hr => hr) fun e he => ?_
  · rw [show (sleeping st ch).current.state = .blocked from hself]
    decide
  · rcases he with he | ⟨-, hleft⟩
    · exact he
    · exact absurd hself (hleft st.currentProc).2

end Scheduling

section Access

variable {a va name : Addr} {n len : ℕ} {acc : Access}

/-- The hardware takes the address, and `user_range_ok` can count past its page. -/
def ProperByte (a : Addr) : Prop := Canonical a ∧ a.toNat + 4096 < 2 ^ 64

def ProperRange (va : Addr) (len : ℕ) : Prop := ∀ k < len, ProperByte (va + BitVec.ofNat 64 k)

/-- What `user_range_ok` asks for an access of this kind. -/
def Access.need : Access → Word
  | .read => pteR
  | .write => pteW

/-- The kernel serves a system call: it may use the pages of the caller, and the entries for these
are ones the hardware accepts. -/
structure Serving (L : Layout) (st : KState) : Prop where
  sound : Sound L st
  steady : Steady st.currentProc st
  sum : st.sum = true
  legal : ∀ q, Legal (entryOf st st.currentProc q)

theorem permissions_need (acc : Access) : Permissions acc.need := by
  cases acc
  · unfold Permissions
    decide
  · unfold Permissions
    decide

theorem permits_of_need {w : Word} (h : acc.need &&& ~~~w = 0) : permits w acc := by
  have hbit : ∀ k < 64, BitVec.twoPow 64 k &&& ~~~w = 0 → w.getLsbD k = true := by
    intro k hk h
    rw [BitVec.twoPow_and, BitVec.getLsbD_not] at h
    by_contra hno
    rw [Bool.not_eq_true] at hno
    rw [hno, if_pos (by simpa using hk)] at h
    have hval := congrArg (BitVec.getLsbD · k) h
    simp [hk] at hval
  cases acc with
  | read =>
    rw [permits, hasFlag_pteR]
    exact hbit 1 (by decide) h
  | write =>
    rw [permits, hasFlag_pteW]
    exact hbit 2 (by decide) h

theorem range_mapped {m : Memory} {root : ℕ} {need : Word} (hneed : Permissions need)
    (hok : userRangeOk m root va (BitVec.ofNat 64 len) need = true) (hp : ProperRange va len)
    {k : ℕ} (hk : k < len) (hlen : len < 2 ^ 32) :
    PageMapped m root need (va + BitVec.ofNat 64 k) := by
  have hva : va ≠ 0 := by
    rintro rfl
    simp [userRangeOk] at hok
  have hfit : va.toNat + len + 4095 < 2 ^ 64 := by
    by_contra hcarry
    have hlt := va.isLt
    obtain ⟨-, hlow⟩ := hp (2 ^ 64 - 4096 - va.toNat) (by omega)
    rw [BitVec.toNat_add, BitVec.toNat_ofNat] at hlow
    omega
  exact ((userRangeOk_of_fit hva hneed (by omega) hfit).mp hok).2 k hk

theorem Serving.translates (acc : Access) (h : Serving L st)
    (hm : PageMapped st.phys.mem st.satp acc.need a)
    (hc : Canonical a) (acc' : Access) (hacc : acc' = acc ∨ acc' = .read) :
    ∃ pa, kernelTranslate st.phys.mem st.satp st.sum acc' a = some pa := by
  have hroot := h.steady.root h.sound
  obtain ⟨hv, hu, hneed⟩ := hm.entry
  have hleaf : HardwareLeaf (entry st.phys.mem (some st.satp) (pageNo a)) := by
    have hlegal := h.legal (pageNo a)
    rw [entryOf, hroot] at hlegal
    exact hlegal hv
  have hpermits : permits (entry st.phys.mem (some st.satp) (pageNo a)) acc' := by
    have hacc' := permits_of_need hneed
    rcases hacc with rfl | rfl
    · exact hacc'
    · cases acc with
      | read => exact hacc'
      | write => exact hleaf.2.2 hacc'
  exact ⟨_, (kernelTranslate_iff (h.sound.owned.threeLevel hroot)).mpr
    ⟨hc, hleaf, fun _ => h.sum, hpermits, rfl⟩⟩

theorem Serving.load (acc : Access) (h : Serving L st)
    (hm : PageMapped st.phys.mem st.satp acc.need a) (hc : Canonical a) :
    ∃ b, st.load a = .ok b := by
  obtain ⟨pa, hpa⟩ := h.translates acc hm hc .read (Or.inr rfl)
  refine ⟨st.phys.mem.byte pa, ?_⟩
  rw [KState.load, kernelLoad, hpa]

theorem Serving.store {buffer : Addr} {size : BitVec 32} (h : Serving L st)
    (hok : userRangeOk st.phys.mem st.satp buffer (size.setWidth 64) pteW = true)
    (hp : ProperRange buffer size.toNat) (hn : n < size.toNat) (hcopy : Copying st buffer n s)
    (b : Byte) : ∃ s', s.store (buffer + BitVec.ofNat 64 n) b = .ok s' ∧
      Copying st buffer (n + 1) s' := by
  have hsize : size.setWidth 64 = BitVec.ofNat 64 size.toNat := by
    apply BitVec.eq_of_toNat_eq
    simp
  rw [hsize] at hok
  have hm := range_mapped (permissions_need .write) hok hp hn size.isLt
  obtain ⟨pa, hpa⟩ := h.translates .write hm (hp n hn).1 .write (Or.inl rfl)
  have hstore : s.store (buffer + BitVec.ofNat 64 n) b =
      .ok { s with phys := { s.phys with mem := s.phys.mem.setByte pa b } } := by
    rw [← hcopy.translate_eq h.sound h.steady] at hpa
    unfold KState.store kernelStore
    rw [hpa]
    rfl
  rw [← hsize] at hok
  obtain ⟨-, -, -, hnext⟩ := hcopy.store h.sound h.steady hok hn b _ hstore
  exact ⟨_, hstore, hnext⟩

theorem Serving.load_back {buffer : Addr} {size : BitVec 32} (h : Serving L st)
    (hok : userRangeOk st.phys.mem st.satp buffer (size.setWidth 64) pteW = true)
    (hp : ProperRange buffer size.toNat) {k : ℕ} (hk : k < size.toNat)
    (hcopy : Copying st buffer n s) : ∃ b, s.load (buffer + BitVec.ofNat 64 k) = .ok b := by
  have hsize : size.setWidth 64 = BitVec.ofNat 64 size.toNat := by
    apply BitVec.eq_of_toNat_eq
    simp
  rw [hsize] at hok
  have hm := range_mapped (permissions_need .write) hok hp hk size.isLt
  obtain ⟨pa, hpa⟩ := h.translates .write hm (hp k hk).1 .read (Or.inr rfl)
  rw [← hcopy.translate_eq h.sound h.steady] at hpa
  exact ⟨s.phys.mem.byte pa, by rw [KState.load, kernelLoad, hpa]⟩

theorem consoleRead_returns {buffer : Addr} {size : BitVec 32} (h : Serving L st)
    (hok : userRangeOk st.phys.mem st.satp buffer (size.setWidth 64) pteW = true)
    (hp : ProperRange buffer size.toNat) (more : ℕ) (hn : n + more = size.toNat) (hpos : 0 < n)
    (hcopy : Copying st buffer n s) : ∃ r, consoleRead buffer more n s = .ok r := by
  induction more generalizing n s with
  | zero => exact ⟨(n, s), rfl⟩
  | succ more ih =>
    obtain ⟨last, hlast⟩ := @Serving.load_back _ _ _ n _ _ h hok hp (n - 1) (by omega) hcopy
    unfold consoleRead
    rw [hlast, ok_bind]
    split_ifs
    · exact ⟨(n, s), rfl⟩
    · split
      · exact ⟨(n, s), rfl⟩
      · rename_i c uart _
        obtain ⟨s', hs', hnext⟩ := h.store hok hp (by omega) (hcopy.withUart uart) c
        rw [hs', ok_bind]
        exact ih (by omega) (Nat.succ_pos n) hnext

theorem copyOut_returns {src buffer : Addr} {size : BitVec 32} (h : Serving L st)
    (hok : userRangeOk st.phys.mem st.satp buffer (size.setWidth 64) pteW = true)
    (hp : ProperRange buffer size.toNat) (more : ℕ) (hn : n + more ≤ size.toNat)
    (hsrc : ∀ k < n + more, ∃ b, st.load (src + BitVec.ofNat 64 k) = .ok b)
    (hcopy : Copying st buffer n s) : ∃ s', copyOut src buffer more n s = .ok s' := by
  induction more generalizing n s with
  | zero => exact ⟨s, rfl⟩
  | succ more ih =>
    have hload : ∃ b, s.load (src + BitVec.ofNat 64 n) = .ok b := by
      obtain ⟨b, hb⟩ := hsrc n (by omega)
      rw [KState.load, kernelLoad] at hb ⊢
      rw [hcopy.translate_eq h.sound h.steady]
      split at hb
      · exact ⟨_, rfl⟩
      · cases hb
    obtain ⟨b, hb⟩ := hload
    obtain ⟨s', hs', hnext⟩ := h.store hok hp (by omega) hcopy b
    unfold copyOut
    rw [hb, ok_bind, hs', ok_bind]
    exact ih (by omega) (fun k hk => hsrc k (by omega)) hnext

theorem consoleWrite_returns {buffer : Addr} (more : ℕ)
    (hload : ∀ k < n + more, ∃ b, st.load (buffer + BitVec.ofNat 64 k) = .ok b)
    (hphys : s.phys = st.phys) (hsatp : s.satp = st.satp) (hstatus : s.sstatus = st.sstatus) :
    ∃ s', consoleWrite buffer more n s = .ok s' := by
  induction more generalizing n s with
  | zero => exact ⟨s, rfl⟩
  | succ more ih =>
    obtain ⟨b, hb⟩ := hload n (by omega)
    have hsame : s.load (buffer + BitVec.ofNat 64 n) = .ok b := by
      rw [← hb, KState.load, KState.load, hphys, hsatp, KState.sum, KState.sum, hstatus]
    unfold consoleWrite
    rw [hsame, ok_bind]
    exact ih (fun k hk => hload k (by omega)) hphys hsatp hstatus

end Access

section Names

variable {name : Addr} {n : ℕ} {entries : List (CString × RamdiskEntry)} {found : RamdiskEntry}

/-- The bytes `user_str_ok` looks at are at addresses it can judge. -/
def ProperName (st : KState) (name : Addr) : Prop := ∀ k < nameMax,
  (∀ j < k, ∃ c, c ≠ 0 ∧ st.load (name + BitVec.ofNat 64 j) = .ok c) →
  userRangeOk st.phys.mem st.satp (name + BitVec.ofNat 64 k) 1 pteR = true →
  ProperByte (name + BitVec.ofNat 64 k)

theorem Named.widen {bytesB : Addr → Except Stop Byte} {len : ℕ} {s : CString}
    (h : Named bytesB name len s) : Named bytesB name (len + 1) s :=
  ⟨h.holds, h.room.trans (Nat.lt_succ_self _)⟩

theorem userStrOk_named {m : Memory} {root : ℕ} {load : Addr → Except Stop Byte}
    (h : userStrOk m root load name n = .ok true) : ∃ s : CString, Named load name n s := by
  induction n generalizing name with
  | zero => cases h
  | succ n ih =>
    unfold userStrOk at h
    split at h
    · cases h
    obtain ⟨b, hb, h⟩ := bind_eq_ok.mp h
    by_cases h0 : b = 0
    · subst h0
      refine ⟨⟨[], List.not_mem_nil⟩, holdsBytes_cons.mpr ⟨hb, ?_⟩, Nat.succ_pos n⟩
      intro i c hc
      cases hc
    · rw [if_neg h0] at h
      obtain ⟨s, hs⟩ := ih h
      refine ⟨⟨b :: s.val, ?_⟩, holdsBytes_cons.mpr ⟨hb, hs.holds⟩, Nat.succ_lt_succ hs.room⟩
      rw [List.mem_cons, not_or]
      exact ⟨Ne.symm h0, s.property⟩

theorem userStrOk_returns {m : Memory} {root : ℕ} {load : Addr → Except Stop Byte}
    (hbytes : ∀ k < n, (∀ j < k, ∃ c, c ≠ 0 ∧ load (name + BitVec.ofNat 64 j) = .ok c) →
      userRangeOk m root (name + BitVec.ofNat 64 k) 1 pteR = true →
      ∃ b, load (name + BitVec.ofNat 64 k) = .ok b) :
    ∃ ok, userStrOk m root load name n = .ok ok := by
  induction n generalizing name with
  | zero => exact ⟨false, rfl⟩
  | succ n ih =>
    have hzero : name + BitVec.ofNat 64 0 = name := BitVec.add_zero name
    unfold userStrOk
    by_cases hok : userRangeOk m root name 1 pteR = true
    · obtain ⟨b, hb⟩ := hbytes 0 (Nat.succ_pos n) (fun j hj => absurd hj (Nat.not_lt_zero j))
        (by rw [hzero]; exact hok)
      rw [hzero] at hb
      rw [hok, hb]
      by_cases h0 : b = 0
      · subst h0
        exact ⟨true, rfl⟩
      · obtain ⟨ok, hret⟩ := @ih (name + 1) (by
          intro k hk hprev hrange
          rw [← addr_succ] at hrange ⊢
          refine hbytes (k + 1) (by omega) (fun j hj => ?_) hrange
          cases j with
          | zero => exact ⟨b, h0, by rw [hzero]; exact hb⟩
          | succ j =>
            rw [addr_succ]
            exact hprev j (by omega))
        refine ⟨ok, ?_⟩
        rw [if_neg (by decide), ok_bind, if_neg h0]
        exact hret
    · rw [Bool.not_eq_true] at hok
      rw [hok]
      exact ⟨false, rfl⟩

theorem Serving.checks_name (h : Serving L st) (hp : ProperName st name) :
    ∃ ok, userStrOk st.phys.mem st.satp st.load name nameMax = .ok ok ∧
      (ok = true → ∃ s : CString, Named st.load name nameMax s) := by
  have hret : ∃ ok, userStrOk st.phys.mem st.satp st.load name nameMax = .ok ok := by
    apply userStrOk_returns
    intro k hk hprev hrange
    have hproper := hp k hk hprev hrange
    have hone : (1 : Word) = BitVec.ofNat 64 1 := rfl
    have hsingle : ProperRange (name + BitVec.ofNat 64 k) 1 := by
      intro j hj
      obtain rfl : j = 0 := by omega
      rw [show name + BitVec.ofNat 64 k + BitVec.ofNat 64 0 = name + BitVec.ofNat 64 k from
        BitVec.add_zero _]
      exact hproper
    rw [hone] at hrange
    have hm := range_mapped (permissions_need .read) hrange hsingle (Nat.lt_succ_self 0) (by omega)
    rw [show name + BitVec.ofNat 64 k + BitVec.ofNat 64 0 = name + BitVec.ofNat 64 k from
      BitVec.add_zero _] at hm
    exact h.load .read hm hproper.1
  obtain ⟨ok, hok⟩ := hret
  exact ⟨ok, hok, fun htrue => userStrOk_named (htrue ▸ hok)⟩

def fileReader (L : Layout) (ram : Memory) (e : RamdiskEntry) (a : Addr) : Except Stop Byte :=
  imageReader L ram (e.offset.setWidth 64 + a)

/-- The RAMDISK lists files that lie in it and are images the loader can read. -/
structure LoadableDisk (L : Layout) (ram : Memory) (entries : List (CString × RamdiskEntry)) :
    Prop where
  count : entries.length < 2 ^ 32
  header : HoldsBytes (imageReader L ram) 0 (encodeHeader entries.length)
  short : ∀ e ∈ entries, e.1.val.length ≤ 31
  directory : Directory (imageReader L ram) 0 entries
  present : ∀ e ∈ entries, ∀ k < e.2.size.toNat,
    ∃ b, fileReader L ram e.2 (BitVec.ofNat 64 k) = .ok b
  loadable : ∀ e ∈ entries, ∃ phoff phnum start pl maxEnd,
    Plan (fileReader L ram e.2) phoff phnum start pl maxEnd

theorem LoadableDisk.lookup (h : LoadableDisk L ram entries) {disk bytesB : Addr → Except Stop Byte}
    (hdisk : ∀ a, Below (imageReader L ram a) (disk a)) {s : CString} {len : ℕ}
    (hname : Named bytesB name len s) :
    ramdiskGetEntry disk bytesB name len = .ok (entries.lookup s) := by
  have hheader : HoldsBytes disk 0 (encodeHeader entries.length) :=
    fun i b hb => hdisk _ b (h.header i b hb)
  have hdirectory : Directory disk 0 entries := fun i b hb => hdisk _ b (h.directory i b hb)
  obtain ⟨hmagic, hcount⟩ := holdsBytes_append.mp hheader
  rw [leBytes_length] at hcount
  have hmagic' := readLe_leBytes hmagic
  have hcount' := readLe_leBytes hcount
  rw [Nat.mod_eq_of_lt (by decide)] at hmagic'
  rw [Nat.mod_eq_of_lt (show entries.length < 256 ^ 4 from h.count)] at hcount'
  refine bind_eq_ok.mpr ⟨_, hmagic', ?_⟩
  rw [if_neg (not_not.mpr rfl)]
  refine bind_eq_ok.mpr ⟨_, hcount', ?_⟩
  exact findEntry_lookup h.short hdirectory hname

theorem lookup_mem {s : CString} (h : entries.lookup s = some found) : (s, found) ∈ entries := by
  obtain ⟨before, after, he, -⟩ := List.lookup_eq_some_iff.mp h
  rw [he]
  exact List.mem_append_right before List.mem_cons_self

end Names

section OpenFiles

variable {entries : List (CString × RamdiskEntry)} {found : RamdiskEntry} {fd : Fin 16} {f : File}

theorem findEntry_mem {disk bytesB : Addr → Except Stop Byte} {name : Addr} {len i : ℕ}
    (hdir : Directory disk i entries)
    (h : findEntry disk bytesB name len entries.length i = .ok (some found)) :
    ∃ e ∈ entries, e.2 = found := by
  induction entries generalizing i with
  | nil => cases h
  | cons e rest ih =>
    obtain ⟨n, e⟩ := e
    obtain ⟨hentry, hrest⟩ := directory_cons.mp hdir
    obtain ⟨-, hoffset, hsize⟩ := encodeEntry_holds hentry
    obtain ⟨same, -, h⟩ := bind_eq_ok.mp h
    cases same with
    | false =>
      obtain ⟨x, hx, hfound⟩ := ih hrest h
      exact ⟨x, List.mem_cons_of_mem _ hx, hfound⟩
    | true =>
      rw [if_pos rfl, hoffset, ok_bind, hsize, ok_bind] at h
      cases h
      refine ⟨(n, e), List.mem_cons_self, ?_⟩
      rw [BitVec.ofNat_toNat, BitVec.ofNat_toNat, BitVec.setWidth_eq, BitVec.setWidth_eq]

theorem LoadableDisk.mem (h : LoadableDisk L ram entries) {disk bytesB : Addr → Except Stop Byte}
    {name : Addr} {len : ℕ} (hdisk : ∀ a, Below (imageReader L ram a) (disk a))
    (hfound : ramdiskGetEntry disk bytesB name len = .ok (some found)) :
    ∃ e ∈ entries, e.2 = found := by
  have hheader : HoldsBytes disk 0 (encodeHeader entries.length) :=
    fun i b hb => hdisk _ b (h.header i b hb)
  have hdirectory : Directory disk 0 entries := fun i b hb => hdisk _ b (h.directory i b hb)
  obtain ⟨-, hcount⟩ := holdsBytes_append.mp hheader
  rw [leBytes_length] at hcount
  have hcount' := readLe_leBytes hcount
  rw [Nat.mod_eq_of_lt (show entries.length < 256 ^ 4 from h.count)] at hcount'
  obtain ⟨magic, -, hfound⟩ := bind_eq_ok.mp hfound
  split_ifs at hfound
  · cases hfound
  · obtain ⟨n, hn, hfound⟩ := bind_eq_ok.mp hfound
    cases hn.symm.trans hcount'
    exact findEntry_mem hdirectory hfound

/-- Whatever is looked up, the directory answers with one of these. -/
def Answered (L : Layout) (ram : Memory) (entries : List (CString × RamdiskEntry)) : Prop :=
  ∀ (disk bytesB : Addr → Except Stop Byte) (name : Addr) (len : ℕ) (found : RamdiskEntry),
    (∀ a, Below (imageReader L ram a) (disk a)) →
    ramdiskGetEntry disk bytesB name len = .ok (some found) → ∃ e ∈ entries, e.2 = found

/-- A descriptor of a listed file that has not been read past its end. -/
def OfEntry (L : Layout) (entries : List (CString × RamdiskEntry)) (f : File) : Prop :=
  ∃ e ∈ entries, f.data = L.ramdiskStart + e.2.offset.setWidth 64 ∧ f.size = e.2.size ∧
    f.offset.toNat ≤ f.size.toNat

def FilesListed (L : Layout) (entries : List (CString × RamdiskEntry)) (st : KState) : Prop :=
  ∀ i, (st.processTable i).state ≠ .unused → ∀ fd,
    ((st.processTable i).openFiles fd).type = .ramdisk →
    OfEntry L entries ((st.processTable i).openFiles fd)

theorem FilesKept.listed (hk : FilesKept st st') (h : FilesListed L entries st)
    (hcur : (st.processTable st.currentProc).state ≠ .unused) : FilesListed L entries st' := by
  intro i hi fd htype
  by_cases hu : (st.processTable i).state = .unused
  · rw [hk.new i hu hi] at htype ⊢
    exact h st.currentProc hcur fd htype
  · rw [hk.old i hu hi] at htype ⊢
    exact h i hu fd htype

theorem FileSet.listed (hset : FileSet st regs fd f st') (h : FilesListed L entries st)
    (hf : f.type = .ramdisk → OfEntry L entries f) : FilesListed L entries st' := by
  intro i hi x htype
  have hu : (st.processTable i).state ≠ .unused := fun h0 => hi ((hset.used i).mpr h0)
  rw [hset.files i x] at htype ⊢
  split_ifs at htype ⊢ with hx
  · exact hf htype
  · exact h i hu x htype

theorem called_disk (h : Conducted L ram ramClear st) (regs : TrapFrame) (a : Addr) :
    Below (imageReader L ram a) (diskByte L (entered (saveFrame regs st)) a) :=
  diskByte_image (s := entered (saveFrame regs st)) h rfl (fun _ hu => hu) (fun _ _ => rfl) a

theorem Step.listed (hd : Answered L ram entries) (hr : Conducted L ram ramClear st)
    (hs : Step L st (.trap regs input) st') (h : FilesListed L entries st) :
    FilesListed L entries st' := by
  have hset := reachable_settled hr.reachable
  have hcur := hset.steady.used
  have hcalled := plain_called regs st
  rcases hs.files hset with ⟨-, r, hcall, rfl⟩ | ⟨-, hplain⟩
  · have hplain : ∀ {s}, Plain (entered (saveFrame regs st)) s → Plain st (resume r.1 s) :=
      fun h => (hcalled.trans h).trans (plain_resume r.1 _)
    cases hcall with
    | failed h7 w hw hret hp => exact (hplain hp).filesKept.listed h hcur
    | console h7 fd hfd hp => exact (hplain hp).filesKept.listed h hcur
    | ended h7 fd hfd hend hret hp => exact (hplain hp).filesKept.listed h hcur
    | opened h7 fd hfd e he hret hp =>
      apply (fileSet_of_plain hp).listed h
      intro _
      obtain ⟨x, hx, rfl⟩ := hd _ _ _ _ e (called_disk hr regs) he
      exact ⟨x, hx, rfl, rfl, Nat.zero_le _⟩
    | read h7 fd hfd hleft bytes hlen hf hb hret hp =>
      apply (fileSet_of_plain hp).listed h
      intro htype
      rw [called_file] at htype ⊢
      obtain ⟨x, hx, hdata, hsize, hle⟩ := h st.currentProc hcur fd htype
      refine ⟨x, hx, hdata, hsize, ?_⟩
      have hfits := @readLength_fits (entered (saveFrame regs st)) _ hle
      have hlt := (st.current.openFiles fd).size.isLt
      show ((st.current.openFiles fd).offset + readLength (entered (saveFrame regs st))
        (st.current.openFiles fd)).toNat ≤ (st.current.openFiles fd).size.toNat
      have hfits' : (st.current.openFiles fd).offset.toNat + (readLength
        (entered (saveFrame regs st)) (st.current.openFiles fd)).toNat ≤
          (st.current.openFiles fd).size.toNat := hfits
      rw [BitVec.toNat_add, Nat.mod_eq_of_lt (by omega)]
      exact hfits'
    | closed h7 fd hfd hret hp =>
      apply (fileSet_of_plain hp).listed h
      intro htype
      cases htype
    | other h7 hk =>
      exact ((hcalled.trans_filesKept rfl hk).trans_plain (plain_resume r.1 r.2)).listed h hcur
  · exact hplain.filesKept.listed h hcur

theorem files_answered (hd : Answered L ram entries) (h : Conducted L ram ramClear st) :
    FilesListed L entries st := by
  induction h with
  | boot s hboot _ =>
    intro i hi fd htype
    by_cases hj : i = s.currentProc
    · subst hj
      rw [show (s.processTable s.currentProc).openFiles = initProcessFds from booted_files hboot,
        initProcessFds] at htype
      split at htype
      · cases htype
      · cases htype
    · exact absurd (booted_alone hboot hj) hi
  | store hr hs ih =>
    cases hs with
    | store va b pa ht => exact ih
  | trap hr hs _ _ ih => exact hs.listed hd hr ih

theorem files_listed (hd : LoadableDisk L ram entries) (h : Conducted L ram ramClear st) :
    FilesListed L entries st :=
  files_answered (fun _ _ _ _ _ hdisk hfound => hd.mem hdisk hfound) h

end OpenFiles

section Calls

variable {entries : List (CString × RamdiskEntry)}

theorem ends_wait (hst : Steady tf st) (h : DevicesReached st) :
    Ends (sysWaitCall input tf st) (fun _ => True) (Rests st) := by
  obtain rfl := hst.frame
  unfold sysWaitCall
  split
  · exact ends_ok trivial
  · split
    · exact ends_ok trivial
    · exact (ends_sleeping (.pcb st.currentProc) h).mono (fun r hr => hr)
        fun e he => Or.inl he

theorem ends_sbrk : Ends (sysSbrkCall tf st) (fun _ => True) (Rests st) := by
  unfold sysSbrkCall
  dsimp only
  split
  · exact ends_ok trivial
  · split
    · exact ends_ok trivial
    · split
      · exact ends_ok trivial
      · split
        · exact ends_ok trivial
        · exact ends_ok trivial

theorem ends_close : Ends (sysCloseCall tf st) (fun _ => True) (Rests st) := by
  unfold sysCloseCall
  split
  · exact ends_ok trivial
  · split
    · exact ends_ok trivial
    · exact ends_ok trivial

/-- The bytes left of an open file can be read from the RAMDISK. -/
theorem OfEntry.loads {f : File} (h : OfEntry L entries f) (hd : LoadableDisk L ram entries)
    (hdisk : ∀ a, Below (imageReader L ram a) (diskByte L st a)) {k : ℕ}
    (hk : f.offset.toNat + k < f.size.toNat) :
    ∃ b, st.load (f.data + f.offset.setWidth 64 + BitVec.ofNat 64 k) = .ok b := by
  obtain ⟨e, he, hdata, hsize, -⟩ := h
  rw [hsize] at hk
  obtain ⟨b, hb⟩ := hd.present e he (f.offset.toNat + k) hk
  refine ⟨b, ?_⟩
  have haddr : f.data + f.offset.setWidth 64 + BitVec.ofNat 64 k = L.ramdiskStart +
      (e.2.offset.setWidth 64 + BitVec.ofNat 64 (f.offset.toNat + k)) := by
    have hoffset : f.offset.setWidth 64 = BitVec.ofNat 64 f.offset.toNat := by
      apply BitVec.eq_of_toNat_eq
      simp
    rw [hdata, hoffset, BitVec.ofNat_add]
    simp only [BitVec.add_assoc]
  rw [haddr]
  exact hdisk _ b hb

theorem Serving.reads_console {fd : Fin 16} {c : Byte} {uart : Uart} (h : Serving L st)
    (hok : userRangeOk st.phys.mem st.satp (st.frameOf st.currentProc).a1
      (((st.frameOf st.currentProc).a2.setWidth 32).setWidth 64) pteW = true)
    (hp : ProperRange (st.frameOf st.currentProc).a1
      ((st.frameOf st.currentProc).a2.setWidth 32).toNat)
    (hfd : fdOf (st.frameOf st.currentProc).a0 = some fd)
    (htype : (st.current.openFiles fd).type = .console)
    (hsize : (st.frameOf st.currentProc).a2.setWidth 32 ≠ 0)
    (hget : uartGetc st.uart = (some c, uart)) :
    ∃ r, sysReadCall input st.currentProc st = .ok r := by
  have hpos : 0 < ((st.frameOf st.currentProc).a2.setWidth 32).toNat := by
    rw [Nat.pos_iff_ne_zero]
    intro h0
    exact hsize (BitVec.eq_of_toNat_eq h0)
  obtain ⟨s, hs, hcopy⟩ := h.store hok hp hpos ((Copying.start _).withUart uart) c
  rw [show (st.frameOf st.currentProc).a1 + BitVec.ofNat 64 0 = (st.frameOf st.currentProc).a1 from
    BitVec.add_zero _] at hs
  obtain ⟨⟨n, s'⟩, hread⟩ := consoleRead_returns h hok hp
    (((st.frameOf st.currentProc).a2.setWidth 32).toNat - 1) (by omega) Nat.one_pos hcopy
  unfold sysReadCall
  dsimp only
  rw [← h.steady.satp, hok, if_neg (by decide), hfd]
  simp only [htype]
  rw [if_neg hsize, hget]
  dsimp only
  rw [hs, ok_bind, hread]
  exact ⟨_, rfl⟩

theorem ends_read (h : Serving L st) (hreached : DevicesReached st)
    (hd : LoadableDisk L ram entries)
    (hdisk : ∀ a, Below (imageReader L ram a) (diskByte L st a))
    (hfiles : ∀ fd, (st.current.openFiles fd).type = .ramdisk →
      OfEntry L entries (st.current.openFiles fd))
    (hp : ∀ fd, fdOf (st.frameOf st.currentProc).a0 = some fd →
      (st.current.openFiles fd).type ≠ .none →
      userRangeOk st.phys.mem st.satp (st.frameOf st.currentProc).a1
        (((st.frameOf st.currentProc).a2.setWidth 32).setWidth 64) pteW = true →
      ProperRange (st.frameOf st.currentProc).a1
        ((st.frameOf st.currentProc).a2.setWidth 32).toNat) :
    Ends (sysReadCall input st.currentProc st) (fun _ => True) (Rests st) := by
  unfold sysReadCall
  dsimp only
  rw [← h.steady.satp]
  split
  · exact ends_ok trivial
  · rename_i hok
    rw [Bool.not_eq_true, Bool.not_eq_false'] at hok
    split
    · exact ends_ok trivial
    · rename_i fd hfd
      have hproper := fun hopen => hp fd hfd hopen hok
      split
      · exact ends_ok trivial
      · rename_i htype
        split
        · exact ends_ok trivial
        · rename_i hsize
          have hpos : 0 < ((st.frameOf st.currentProc).a2.setWidth 32).toNat := by
            rw [Nat.pos_iff_ne_zero]
            intro h0
            exact hsize (BitVec.eq_of_toNat_eq h0)
          specialize hproper (by rw [htype]; decide)
          split
          · exact (ends_sleeping .uartRx hreached).mono (fun r hr => hr)
              fun e he => Or.inl he
          · rename_i c uart _
            obtain ⟨s, hs, hcopy⟩ := h.store hok hproper hpos ((Copying.start _).withUart uart) c
            have hfirst : (st.frameOf st.currentProc).a1 + BitVec.ofNat 64 0 =
                (st.frameOf st.currentProc).a1 := BitVec.add_zero _
            rw [hfirst] at hs
            obtain ⟨⟨n, s'⟩, hread⟩ := consoleRead_returns h hok hproper
              (((st.frameOf st.currentProc).a2.setWidth 32).toNat - 1) (by omega) Nat.one_pos hcopy
            rw [hs, ok_bind]
            exact (ends_of_eq_ok hread).bind fun _ _ => ends_ok trivial
      · rename_i htype
        specialize hproper (by rw [htype]; decide)
        have hentry := hfiles fd htype
        split
        · exact ends_ok trivial
        · have hle := hentry.choose_spec.2.2.2
          have hfits := @readLength_fits st _ hle
          have hsize : (readLength st (st.current.openFiles fd)).toNat ≤
              ((st.frameOf st.currentProc).a2.setWidth 32).toNat := by
            unfold readLength
            split
            · rename_i hlt
              exact (BitVec.lt_def.mp hlt).le
            · exact le_refl _
          obtain ⟨s, hs⟩ := copyOut_returns h hok hproper
            (readLength st (st.current.openFiles fd)).toNat (by omega)
            (fun k hk => hentry.loads hd hdisk (by omega)) (Copying.start _)
          exact (ends_of_eq_ok hs).bind fun _ _ => ends_ok trivial

theorem ends_write (h : Serving L st)
    (hp : ∀ fd, fdOf (st.frameOf st.currentProc).a0 = some fd →
      (st.current.openFiles fd).type = .console →
      userRangeOk st.phys.mem st.satp (st.frameOf st.currentProc).a1
        (((st.frameOf st.currentProc).a2.setWidth 32).setWidth 64) pteR = true →
      ProperRange (st.frameOf st.currentProc).a1
        ((st.frameOf st.currentProc).a2.setWidth 32).toNat) :
    Ends (sysWriteCall st.currentProc st) (fun _ => True) (Rests st) := by
  unfold sysWriteCall
  dsimp only
  rw [← h.steady.satp]
  split
  · exact ends_ok trivial
  · rename_i hok
    rw [Bool.not_eq_true, Bool.not_eq_false'] at hok
    split
    · exact ends_ok trivial
    · rename_i fd hfd
      split
      · exact ends_ok trivial
      · rename_i htype
        have hproper := hp fd hfd htype hok
        have hsize : ((st.frameOf st.currentProc).a2.setWidth 32).setWidth 64 =
            BitVec.ofNat 64 ((st.frameOf st.currentProc).a2.setWidth 32).toNat := by
          apply BitVec.eq_of_toNat_eq
          simp
        rw [hsize] at hok
        have hload : ∀ k < ((st.frameOf st.currentProc).a2.setWidth 32).toNat,
            ∃ b, st.load ((st.frameOf st.currentProc).a1 + BitVec.ofNat 64 k) = .ok b := by
          intro k hk
          have hm := range_mapped (permissions_need .read) hok hproper hk (BitVec.isLt _)
          exact h.load .read hm (hproper k hk).1
        obtain ⟨s, hs⟩ := @consoleWrite_returns _ st 0 _
          ((st.frameOf st.currentProc).a2.setWidth 32).toNat (by simpa using hload) rfl rfl rfl
        exact (ends_of_eq_ok hs).bind fun _ _ => ends_ok trivial
      · exact ends_ok trivial

end Calls

section Traps

variable {entries : List (CString × RamdiskEntry)}

theorem ends_open (h : Serving L st) (hd : LoadableDisk L ram entries)
    (hdisk : ∀ a, Below (imageReader L ram a) (diskByte L st a))
    (hp : ProperName st (st.frameOf st.currentProc).a0) :
    Ends (sysOpenCall L st.currentProc st) (fun _ => True) (Rests st) := by
  obtain ⟨ok, hok, hname⟩ := h.checks_name hp
  unfold sysOpenCall
  rw [← h.steady.satp]
  dsimp only
  rw [hok, ok_bind]
  cases ok with
  | false => exact ends_ok trivial
  | true =>
    obtain ⟨s, hs⟩ := hname rfl
    rw [hd.lookup hdisk hs.widen, if_neg (by decide)]
    split
    · exact ends_ok trivial
    · rw [ok_bind]
      split
      · exact ends_ok trivial
      · exact ends_ok trivial

/-- There are frames for all pages of a copy and its tables. -/
def CopyRoom (st : KState) : Prop :=
  (kernelTables ∪ tablesIn st.phys (trees st) st.currentProc Low).card +
    (userPages st.phys (trees st) st.currentProc Low).card + 2 ≤ freeFrames st.phys

theorem ends_fork (h : Serving L st) (hroom : freeSlot st ≠ none → CopyRoom st) :
    Ends (sysForkCall L st.currentProc st) (fun _ => True) (Rests st) := by
  have hset : ForkSettled st := by
    by_cases hslot : freeSlot st = none
    · exact Or.inl hslot
    · refine Or.inr (Or.inr ⟨hslot, hroom hslot, fun q _ hv => ?_⟩)
      exact hardwareLeaf_isLeaf (h.legal q hv)
  obtain ⟨r, hr, -⟩ := fork_settled h.sound h.steady hset
  exact (ends_of_eq_ok hr).mono (fun _ _ => trivial) fun e he => he

theorem ends_exec (h : Conducted L ram ramClear st) (hs : Serving L (entered (saveFrame regs st)))
    (hd : LoadableDisk L ram entries)
    (hp : ProperName (entered (saveFrame regs st))
      ((entered (saveFrame regs st)).frameOf st.currentProc).a0)
    (hroom : ∀ e, ramdiskGetEntry (diskByte L (entered (saveFrame regs st)))
      (entered (saveFrame regs st)).load ((entered (saveFrame regs st)).frameOf st.currentProc).a0
      (nameMax + 1) = .ok (some e) → StackFits (fileReader L ram e) st.phys) :
    Ends (sysExecCall L st.currentProc (entered (saveFrame regs st))) (fun _ => True)
      (Rests (entered (saveFrame regs st))) := by
  suffices hret : ∃ r, sysExecCall L st.currentProc (entered (saveFrame regs st)) = .ok r by
    obtain ⟨r, hr⟩ := hret
    exact (ends_of_eq_ok hr).mono (fun _ _ => trivial) fun e he => he
  obtain ⟨ok, hok, hname⟩ := hs.checks_name hp
  rw [hs.steady.satp] at hok
  cases ok with
  | false => exact ⟨_, sysExecCall_badName hok⟩
  | true =>
    obtain ⟨name, hnamed⟩ := hname rfl
    have hlook := hd.lookup (called_disk h regs) hnamed.widen
    cases he : entries.lookup name with
    | none =>
      rw [he] at hlook
      exact ⟨_, sysExecCall_noEntry hok hlook⟩
    | some e =>
      rw [he] at hlook
      obtain ⟨phoff, phnum, start, pl, maxEnd, hplan⟩ := hd.loadable _ (lookup_mem he)
      have hfits := (hroom e hlook).room hplan
      have hfree : 69 ≤ freeFrames st.phys := by
        have hkernel := Finset.card_le_card (@Finset.subset_union_left _ _ kernelTables
          (tablesOf (pl.map (·.page))))
        rw [kernelTables_card] at hkernel
        omega
      obtain ⟨elf, hfile, hread⟩ := named_file h hlook hfree
      obtain ⟨newPt, p1, p2, mid, -, -, -, hret⟩ :=
        exec_loads hs.sound hs.steady hok hfile (hplan.below hread) hfits
      exact ⟨_, hret⟩

/-- The runs whose images leave the devices and the kernel's memory alone and whose pages the
hardware accepts, and whose heaps do not get to the devices. -/
def harmless : Conduct where
  file elf := deviceless.file elf ∧ usable.file elf
  growth := deviceless.growth

theorem Conducted.ramClear (h : Conducted L ram harmless st) : Conducted L ram ramClear st :=
  h.mono (fun _ he => he.2.2) fun _ _ => trivial

theorem Conducted.reaches (h : Conducted L ram harmless st) (hp : Plain st s) (hs : Sound L s)
    (hst : Steady s.currentProc s) : DevicesReached s := by
  have hrun : Conducted L ram deviceless st := h.mono (fun elf he => he.1) fun _ hg => hg
  intro va acc hva
  have hkept : DevicesKept s s.currentProc := by
    intro q hq
    rw [hp.entry_eq]
    exact conducted_devices hrun _ (fun h0 => hst.used ((hp.used _).mpr h0)) q hq
  rw [hst.satp]
  exact hkept.translate hs hst.used _ va acc hva

/-- What is typed while a program runs gets to the driver, and the program goes on. -/
theorem Conducted.hears (h : Conducted L ram harmless st) (regs : TrapFrame)
    (hc : regs.scause = externalInterrupt) (bytes : List Byte) (idle : List Wakeup) :
    takeTrap L regs ⟨⟨uart0Irq, bytes⟩, idle⟩ st =
      .ok (resume st.sscratch (bytes.foldl uartByte (saveFrame regs st))) := by
  have hset := reachable_settled h.reachable
  have hst := (calm_saveFrame regs st).steady hset.steady
  have hreached := h.reaches (plain_saveFrame regs st)
    ((benign_saveFrame regs st).sound hset.sound) (hst.frame ▸ hst)
  have hcause : ((saveFrame regs st).frameOf st.sscratch).scause = externalInterrupt := by
    rw [frameOf_saveFrame]
    exact hc
  have hret : trapHandler L ⟨⟨uart0Irq, bytes⟩, idle⟩ st.sscratch (saveFrame regs st) =
      .ok (st.sscratch, bytes.foldl uartByte (saveFrame regs st)) := by
    unfold trapHandler
    dsimp only
    rw [hcause, if_pos (by decide), if_neg (by decide), if_pos (by decide),
      plicDispatch_typed hreached]
    rfl
  rw [takeTrap, hret]
  rfl

theorem Conducted.mapsRam (h : Conducted L ram Lazux.ramClear st) :
    MapsRam L st.phys.mem st.satp := by
  have hset := reachable_settled h.reachable
  intro q h1 h2
  have hkept := h.ram_kept hset.steady.used q ⟨h1, h2⟩
  rw [entryOf, hset.steady.root hset.sound] at hkept
  exact hkept

theorem Conducted.kernelMapped (h : Conducted L ram Lazux.ramClear st) :
    KernelMapped st.phys.mem st.satp :=
  have hset := reachable_settled h.reachable
  h.mapsRam.kernelMapped hset.sound.owned (hset.steady.root hset.sound)

theorem Conducted.serving (h : Conducted L ram harmless st) (regs : TrapFrame) :
    Serving L (entered (saveFrame regs st)) := by
  have hrun : Conducted L ram usable st := h.mono (fun elf he => he.2) fun _ _ => trivial
  obtain ⟨hs, hst⟩ := (reachable_settled h.reachable).called regs
  refine ⟨hs, hst.frame ▸ hst, sum_entered _, fun q => ?_⟩
  rw [(plain_called regs st).entry_eq]
  exact conducted_legal hrun _ q

theorem NobodyLeft.called (h : NobodyLeft (entered (saveFrame regs st))) (hset : Settled L st) :
    NobodyLeft st := by
  intro i
  obtain ⟨f, hp, -⟩ := process_entered hset.steady regs i
  have hi := h i
  rw [hp] at hi
  exact hi

def systemCalls : List Word :=
  [sysPutchar, sysExit, sysFork, sysExec, sysWait, sysSbrk, sysOpen, sysRead, sysWrite, sysClose]

/-- A system call there is. What it takes for a buffer or a name keeps clear of the last page and of
addresses the hardware does not take, and the file it loads leaves the kernel's memory alone. -/
structure Harmless (L : Layout) (st : KState) (regs : TrapFrame) : Prop where
  known : regs.a7 ∈ systemCalls
  read : regs.a7 = sysRead → ∀ fd, fdOf regs.a0 = some fd →
    (st.current.openFiles fd).type ≠ .none →
    userRangeOk st.phys.mem st.satp regs.a1 ((regs.a2.setWidth 32).setWidth 64) pteW = true →
    ProperRange regs.a1 (regs.a2.setWidth 32).toNat
  write : regs.a7 = sysWrite → ∀ fd, fdOf regs.a0 = some fd →
    (st.current.openFiles fd).type = .console →
    userRangeOk st.phys.mem st.satp regs.a1 ((regs.a2.setWidth 32).setWidth 64) pteR = true →
    ProperRange regs.a1 (regs.a2.setWidth 32).toNat
  name : regs.a7 = sysOpen ∨ regs.a7 = sysExec →
    ProperName (entered (saveFrame regs st)) regs.a0
  image : regs.a7 = sysExec → ∀ elf, ExecFile L st.currentProc (entered (saveFrame regs st)) elf →
    SegmentsAvoid elf KernelRam

/-- A fork or an exec gets the frames it asks for. -/
structure FramesFor (L : Layout) (ram : Memory) (st : KState) (regs : TrapFrame) : Prop where
  fork : regs.a7 = sysFork → freeSlot st ≠ none → CopyRoom st
  exec : regs.a7 = sysExec → ∀ e, ramdiskGetEntry (diskByte L (entered (saveFrame regs st)))
    (entered (saveFrame regs st)).load regs.a0 (nameMax + 1) = .ok (some e) →
    StackFits (fileReader L ram e) st.phys

theorem ends_syscall (h : Conducted L ram harmless st) (hd : LoadableDisk L ram entries)
    (hsafe : Harmless L st regs) (hroom : FramesFor L ram st regs) :
    Ends (syscall L input st.currentProc (entered (saveFrame regs st))) (fun _ => True)
      (Rests (entered (saveFrame regs st))) := by
  have hset := reachable_settled h.reachable
  have hserv := h.serving regs
  have hreached := h.reaches (plain_called regs st) hserv.sound hserv.steady
  have hframe := frameOf_entered hset.steady regs
  rw [hset.steady.frame] at hframe
  have h7 : ((entered (saveFrame regs st)).frameOf st.currentProc).a7 = regs.a7 := by
    rw [hframe]
  have h0 : ((entered (saveFrame regs st)).frameOf st.currentProc).a0 = regs.a0 := by
    rw [hframe]
  have h1 : ((entered (saveFrame regs st)).frameOf st.currentProc).a1 = regs.a1 := by
    rw [hframe]
  have h2 : ((entered (saveFrame regs st)).frameOf st.currentProc).a2 = regs.a2 := by
    rw [hframe]
  unfold syscall
  dsimp only
  rw [h7]
  refine ends_ite (fun _ => ends_ok trivial) fun n1 => ?_
  refine ends_ite (fun _ => ends_exitCurrent hserv.steady hreached) fun n2 => ?_
  refine ends_ite (fun hcall => ?_) fun n3 => ?_
  · refine ends_fork hserv fun hslot => ?_
    have hslots : freeSlot (entered (saveFrame regs st)) = freeSlot st := by
      unfold freeSlot
      simp only [pid_entered]
    rw [hslots] at hslot
    have hcopy := hroom.fork hcall hslot
    rw [CopyRoom, ← trees_entered regs st] at hcopy
    exact hcopy
  refine ends_ite (fun hcall => ?_) fun n4 => ?_
  · refine ends_exec h.ramClear hserv hd ?_ ?_
    · rw [h0]
      exact hsafe.name (Or.inr hcall)
    · rw [h0]
      exact hroom.exec hcall
  refine ends_ite (fun _ => ends_wait hserv.steady hreached) fun n5 => ?_
  refine ends_ite (fun _ => ends_sbrk) fun n6 => ?_
  refine ends_ite (fun hcall => ?_) fun n7 => ?_
  · have hname := hsafe.name (Or.inl hcall)
    rw [← h0] at hname
    exact ends_open hserv hd (called_disk h.ramClear regs) hname
  refine ends_ite (fun hcall => ?_) fun n8 => ?_
  · have hfiles := files_listed hd h.ramClear st.currentProc hset.steady.used
    refine ends_read hserv hreached hd (called_disk h.ramClear regs) (fun fd => ?_) (fun fd => ?_)
    · rw [called_file]
      exact hfiles fd
    · have hread := hsafe.read hcall fd
      rw [← called_file regs, ← h0, ← h1, ← h2] at hread
      exact hread
  refine ends_ite (fun hcall => ?_) fun n9 => ?_
  · refine ends_write hserv fun fd => ?_
    have hwrite := hsafe.write hcall fd
    rw [← called_file regs, ← h0, ← h1, ← h2] at hwrite
    exact hwrite
  refine ends_ite (fun _ => ends_close) fun n10 => ?_
  exact absurd hsafe.known (by simp [systemCalls, n1, n2, n3, n4, n5, n6, n7, n8, n9, n10])

theorem ends_fault (h : Conducted L ram harmless st) (headline : String) (f : TrapFrame) :
    Ends (exitCurrent idle st.sscratch (reportFault (saveFrame regs st) headline f))
      (fun _ => True) (Rests st) := by
  have hset := reachable_settled h.reachable
  obtain ⟨c, hc⟩ := reportFault_eq (saveFrame regs st) headline f
  rw [hc]
  have hcalm := (calm_saveFrame regs st).trans
    (calm_fields _ st.phys (saveFrame regs st).sstatus st.sscratch c)
  have hst : Steady st.sscratch { saveFrame regs st with console := c } :=
    hcalm.steady hset.steady
  have hp : Plain st { saveFrame regs st with console := c } :=
    (plain_saveFrame regs st).trans (plain_same rfl rfl)
  have hs : Sound L { saveFrame regs st with console := c } := hp.benign.sound hset.sound
  refine (ends_exitCurrent hst (h.reaches hp hs (hst.frame ▸ hst))).mono (fun r hr => hr)
    fun e he => he.imp_right (And.imp_right fun hleft i => ?_)
  have hi := hleft i
  by_cases hcur : i = st.sscratch
  · have hrun : (st.processTable i).state = .running := by
      rw [hcur, hset.steady.frame]
      exact hset.steady.running
    rw [hrun]
    exact ⟨by decide, by decide⟩
  · have hproc : (saveFrame regs st).processTable i = st.processTable i := by
      simp [saveFrame, KState.setFrame, KState.modifyProc, hcur]
    rw [← hproc]
    exact hi

/-- In a run whose images and heaps leave the devices and the kernel alone, a trap of a user program
that is a fault or a system call there is, with buffers and names clear of the last page, resumes a
process on a table the kernel runs on, idles or shuts down as nobody is left. -/
theorem traps_survived (hd : LoadableDisk L ram entries) (h : Conducted L ram harmless st)
    (hcause : regs.scause.msb = false) (hsafe : regs.scause = 8 → Harmless L st regs)
    (hroom : regs.scause = 8 → FramesFor L ram st regs) :
    Ends (trapHandler L input st.sscratch (saveFrame regs st))
      (fun r => Steady r.1 r.2 ∧ KernelMapped r.2.phys.mem r.2.satp) (Rests st) := by
  have hset := reachable_settled h.reachable
  have huser : fromSupervisor ((saveFrame regs st).frameOf st.sscratch) = false := by
    rw [frameOf_saveFrame]
    exact fromSupervisor_trapStatus _
  have hends : Ends (trapHandler L input st.sscratch (saveFrame regs st)) (fun _ => True)
      (Rests st) := by
    by_cases h8 : regs.scause = 8
    · rw [trapHandler_ecall hset.steady h8, hset.steady.frame]
      refine (ends_syscall h hd (hsafe h8) (hroom h8)).mono (fun r hr => hr) fun e he =>
        he.imp_right (And.imp_right fun hleft => hleft.called hset)
    · have hscause : ((saveFrame regs st).frameOf st.sscratch).scause = regs.scause := by
        rw [frameOf_saveFrame]
      unfold trapHandler
      dsimp only
      rw [hscause, hcause, if_neg Bool.false_ne_true, huser, if_neg Bool.false_ne_true, if_neg h8]
      exact ends_fault h _ _
  refine ⟨fun r hr => ?_, hends.stops⟩
  obtain ⟨ls, -, hsteady, -⟩ := does_trapHandler ((benign_saveFrame regs st).sound hset.sound)
    ((calm_saveFrame regs st).steady hset.steady) huser r hr
  have hstep : Step L st (.trap regs input) (resume r.1 r.2) :=
    .trap _ _ _ _ (fun hmsb => absurd hmsb (by rw [hcause]; decide)) (bind_eq_ok.mpr ⟨r, hr, rfl⟩)
  have hnext := h.ramClear.trap hstep (fun h8 h7 => (hsafe h8).image h7) fun _ _ => trivial
  exact ⟨hsteady, hnext.kernelMapped⟩

end Traps

section Examples

variable {st : KState} {elf : Addr → Except Stop Byte}

def selfEntries : List (CString × RamdiskEntry) := [(⟨initName, by decide⟩, ⟨48, 120⟩)]

theorem selfDisk_byte {k : ℕ} (hk : k < 4096) :
    imageReader smallLayout selfRam (BitVec.ofNat 64 k) = .ok (selfDisk.getD k 0) := by
  have hval : (BitVec.ofNat 64 k).toNat = k := by
    rw [BitVec.toNat_ofNat]
    omega
  rw [small_read (by omega), selfRam, if_pos rfl]
  simp only [hval]

theorem selfDisk_holds {bytes : List Byte} {i : ℕ} (h : bytes <+: selfDisk.drop i)
    (hi : i + bytes.length ≤ 4096) :
    HoldsBytes (imageReader smallLayout selfRam) (BitVec.ofNat 64 i) bytes := by
  intro k b hb
  obtain ⟨hk, -⟩ := List.getElem?_eq_some_iff.mp hb
  rw [← BitVec.ofNat_add, selfDisk_byte (by omega)]
  have hdrop : (selfDisk.drop i)[k]? = some b := by
    obtain ⟨rest, hrest⟩ := h
    rw [← hrest, List.getElem?_append_left hk]
    exact hb
  rw [List.getElem?_drop] at hdrop
  rw [List.getD_eq_getElem?_getD, hdrop]
  rfl

theorem self_loadable : LoadableDisk smallLayout selfRam selfEntries := by
  refine ⟨by decide, ?_, ?_, ?_, ?_, ?_⟩
  · exact selfDisk_holds (i := 0) (by decide) (by decide)
  · intro e he
    obtain rfl := List.mem_singleton.mp he
    decide
  · exact selfDisk_holds (i := 8) (by decide) (by decide)
  · intro e he k hk
    obtain rfl := List.mem_singleton.mp he
    have hk' : k < 120 := hk
    refine ⟨selfDisk.getD (48 + k) 0, ?_⟩
    have haddr : BitVec.setWidth 64 (48 : BitVec 32) + BitVec.ofNat 64 k =
        BitVec.ofNat 64 (48 + k) := by
      rw [BitVec.ofNat_add]
      rfl
    show imageReader smallLayout selfRam
      (BitVec.setWidth 64 (48 : BitVec 32) + BitVec.ofNat 64 k) = _
    rw [haddr]
    exact selfDisk_byte (by omega)
  · intro e he
    obtain rfl := List.mem_singleton.mp he
    exact ⟨_, _, _, _, _, selfImage.plan⟩

theorem self_harmless (hread : ∀ a, Below (selfFile a) (elf a)) : harmless.file elf := by
  have hplan : Plan elf 64 1 0x400000 selfImage.placements 0x401000 := selfImage.plan.below hread
  refine ⟨?_, fun _ => ?_, (self_avoids hread).2⟩
  · refine (hplan.avoids_iff fun q => DevicePage q.number).mpr fun x hx => ?_
    obtain rfl := List.mem_singleton.mp hx
    decide
  · have hseg : segments elf = [⟨1, 6, 0, 0x400000, 24, 4096⟩] :=
      segments_single (readLe_below hread _ _ _ (by rfl)) (readLe_below hread _ _ _ (by rfl))
        (readPhdr_below hread _ _ (by rfl))
    rw [hseg]
    intro ph hph _
    obtain rfl := List.mem_singleton.mp hph
    decide

theorem self_behaves (h : kmain smallLayout selfRam = .ok st) :
    Conducted smallLayout selfRam harmless st :=
  .boot st h fun _ hf => self_harmless (selfImage.boot_file hf)

theorem self_properByte {k : ℕ} (hk : k < nameMax) : ProperByte (selfName + BitVec.ofNat 64 k) := by
  have hk' : k < 256 := hk
  have hval : (selfName + BitVec.ofNat 64 k).toNat = 0x400008 + k := by
    have hbase : selfName.toNat = 0x400008 := rfl
    rw [BitVec.toNat_add, BitVec.toNat_ofNat, hbase]
    omega
  exact ⟨canonical_of_lt (by omega), by omega⟩

/-- The first program survives a call of its own file. -/
theorem traps_survived_self : ∃ st, Conducted smallLayout selfRam harmless st ∧
    Ends (trapHandler smallLayout ⟨⟨0, []⟩, []⟩ st.sscratch (saveFrame execCall st))
      (fun r => Steady r.1 r.2 ∧ KernelMapped r.2.phys.mem r.2.satp) (Rests st) := by
  obtain ⟨st, h⟩ := boot_returns selfImage
  have hroom := small_room
  obtain ⟨hfree, -, hlook⟩ := self_call rfl le_rfl (by decide) h (self_behaves h).ramClear
  obtain ⟨elf, hfile, hread⟩ := self_file rfl le_rfl (by decide) h (self_behaves h).ramClear
  refine ⟨st, self_behaves h, traps_survived self_loadable (self_behaves h) rfl
    (fun _ => ⟨by decide, ?_, ?_, ?_, ?_⟩) fun _ => ⟨?_, ?_⟩⟩
  · intro h7
    exact absurd h7 (by decide)
  · intro h7
    exact absurd h7 (by decide)
  · intro _ k hk _ _
    exact self_properByte hk
  · intro _ elf' hfile'
    obtain rfl := hfile.unique hfile'
    exact (self_avoids hread).2
  · intro h7
    exact absurd h7 (by decide)
  · intro _ e he
    have hframe := frameOf_entered (reachable_settled (.boot st h)).steady execCall
    rw [(reachable_settled (.boot st h)).steady.frame] at hframe
    rw [hframe] at hlook
    cases hlook.symm.trans he
    exact (self_stackFits selfImage.plan).mpr (by omega)

def unknownCall : TrapFrame := { TrapFrame.zero with scause := 8, a7 := 99 }

/-- Such a call stops the kernel. -/
theorem unknown_call_halts : ∃ st, Reachable smallLayout selfRam st ∧
    LoadableDisk smallLayout selfRam selfEntries ∧
    trapHandler smallLayout ⟨⟨0, []⟩, []⟩ st.sscratch (saveFrame unknownCall st) =
      .error (.panic "\n[kernel] unknown syscall, killing user\n") := by
  obtain ⟨st, h⟩ := boot_returns selfImage
  have hset := reachable_settled (.boot st h)
  refine ⟨st, .boot st h, self_loadable, ?_⟩
  have h7 : ((entered (saveFrame unknownCall st)).frameOf st.sscratch).a7 = 99 := by
    rw [frameOf_entered hset.steady]
    rfl
  rw [trapHandler_ecall hset.steady rfl]
  unfold syscall
  dsimp only
  rw [h7, if_neg (by decide), if_neg (by decide), if_neg (by decide), if_neg (by decide),
    if_neg (by decide), if_neg (by decide), if_neg (by decide), if_neg (by decide),
    if_neg (by decide), if_neg (by decide)]

end Examples

end Lazux
