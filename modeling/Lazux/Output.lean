import Lazux.Names
import Lazux.Readers
import Lazux.Refinement
import Lazux.UserPointer

/-! # What appears on the console

The bytes sent with `sbi_putchar` in a run: what programs write, the echo of what is typed and a few
notices of the kernel, one after the other. -/
namespace Lazux

open PagedMemory RadixForest Run

inductive Chunk where
  | output (pid : BitVec 32) (text : List Byte)
  | echo (b : Byte) (text : List Byte)
  | notice (text : List Byte)

namespace Chunk

def text : Chunk → List Byte
  | .output _ t => t
  | .echo _ t => t
  | .notice t => t

def written : Chunk → Option (BitVec 32 × List Byte)
  | .output pid t => some (pid, t)
  | _ => none

def echoed : Chunk → List Byte
  | .echo _ t => t
  | _ => []

end Chunk

def ascii (s : String) : List Byte := s.toList.map fun c => BitVec.ofNat 8 c.toNat

def hexText (x : Word) : List Byte := (List.range 16).map fun k =>
  BitVec.ofNat 8 (KState.hexDigits.getD ((x.toNat / 16 ^ (15 - k)) % 16) '0').toNat

def faultText (f : TrapFrame) : List Byte :=
  ascii "\n[TRAP] U-mode fault (kill)\n" ++ ascii "  scause=0x" ++ hexText f.scause ++
    ascii "\n  sepc  =0x" ++ hexText f.sepc ++ ascii "\n  stval =0x" ++
    hexText f.stval ++ ascii "\n"

/-- What the kernel says on its own account once programs run. -/
inductive Notice : List Byte → Prop where
  | full : Notice (ascii "alloc_proc: Process table is full!\n")
  | irq (x : Word) : Notice (ascii "[plic] unexpected IRQ 0x" ++ hexText x ++ ascii "\n")
  | fault (f : TrapFrame) : Notice (faultText f)

/-- The driver goes from one state to another while this is printed. -/
inductive Listens : Uart → List Chunk → Uart → Prop where
  | refl (u : Uart) : Listens u [] u
  | take {u u' v : Uart} {b : Byte} {cs : List Chunk} (h : uartGetc u = (some b, u'))
      (hrest : Listens u' cs v) : Listens u cs v
  | echo {u v : Uart} (b : Byte) {cs : List Chunk} (hrest : Listens (uartReceive u b).uart cs v) :
      Listens u (.echo b (uartReceive u b).echo :: cs) v
  | output {u v : Uart} (pid : BitVec 32) (t : List Byte) {cs : List Chunk}
      (hrest : Listens u cs v) : Listens u (.output pid t :: cs) v
  | notice {u v : Uart} {t : List Byte} (ht : Notice t) {cs : List Chunk}
      (hrest : Listens u cs v) : Listens u (.notice t :: cs) v

/-- Between two states of the kernel `cs` appears. -/
structure Prints (st : KState) (cs : List Chunk) (st' : KState) : Prop where
  console : st'.console = st.console ++ cs.flatMap Chunk.text
  listens : Listens st.uart cs st'.uart

def Utters (st : KState) (out : List (BitVec 32 × List Byte)) (st' : KState) : Prop :=
  ∃ cs, Prints st cs st' ∧ cs.filterMap Chunk.written = out

def readable (st : KState) (va : Addr) : Option Byte :=
  (userTranslate st.phys.mem st.satp .read va).map st.phys.mem.byte

/-- What the kernel can read with user memory open. -/
def kernelReadable (st : KState) (va : Addr) : Option Byte :=
  (kernelTranslate st.phys.mem st.satp true .read va).map st.phys.mem.byte

/-- The bytes of a buffer, if all of them are there. -/
def stretch (look : Addr → Option Byte) (buffer : Addr) (n : ℕ) : List Byte :=
  if ∀ k < n, (look (buffer + BitVec.ofNat 64 k)).isSome then
    (List.range n).map fun k => (look (buffer + BitVec.ofNat 64 k)).getD 0
  else []

/-- Where rounding up the end of the buffer carries out of 64 bits the kernel checks nothing. -/
def writable (st : KState) (buffer : Addr) (n : ℕ) : Addr → Option Byte :=
  if buffer.toNat + n + 4095 < 2 ^ 64 then readable st else kernelReadable st

def ToConsole (st : KState) (fd : Word) : Prop :=
  ∃ i, fdOf fd = some i ∧ (st.current.openFiles i).type = .console

instance (st : KState) (fd : Word) : Decidable (ToConsole st fd) :=
  inferInstanceAs (Decidable (∃ _, _))

def written (st : KState) (f : TrapFrame) : List Byte :=
  let size := f.a2.setWidth 32
  if f.a1 ≠ 0 ∧ ToConsole st f.a0 then
    stretch (writable st f.a1 (size : BitVec 32).toNat) f.a1 (size : BitVec 32).toNat
  else []

def called (st : KState) (f : TrapFrame) : List Byte :=
  if f.a7 = sysPutchar then [f.a0.setWidth 8]
  else if f.a7 = sysWrite then written st f
  else []

def spoken (st : KState) (regs : TrapFrame) : List Byte :=
  if regs.scause = 8 then called st regs else []

/-- A text with the process that says it. -/
def said (pid : BitVec 32) (text : List Byte) : List (BitVec 32 × List Byte) :=
  if text = [] then [] else [(pid, text)]

/-- All that programs have had printed. -/
def outputWatch : Watch (List (BitVec 32 × List Byte)) where
  first _ := []
  next g st regs _ := g ++ said st.current.pid (spoken st regs)

variable {L : Layout} {ram : Memory} {st st' mid : KState} {tf : Slot} {regs : TrapFrame}
  {input : Input} {u v w : Uart} {cs ds : List Chunk} {out out' : List (BitVec 32 × List Byte)}

theorem Listens.trans (h : Listens u cs v) (h' : Listens v ds w) : Listens u (cs ++ ds) w := by
  induction h with
  | refl u => exact h'
  | take hget _ ih => exact .take hget (ih h')
  | echo b _ ih => exact .echo b (ih h')
  | output pid t _ ih => exact .output pid t (ih h')
  | notice ht _ ih => exact .notice ht (ih h')

namespace Utters

theorem silent (hc : st'.console = st.console) (hu : st'.uart = st.uart) : Utters st [] st' := by
  refine ⟨[], ⟨?_, ?_⟩, rfl⟩
  · rw [hc, List.flatMap_nil, List.append_nil]
  · rw [hu]
    exact .refl _

theorem trans (h : Utters st out mid) (h' : Utters mid out' st') : Utters st (out ++ out') st' := by
  obtain ⟨cs, hcs, rfl⟩ := h
  obtain ⟨ds, hds, rfl⟩ := h'
  refine ⟨cs ++ ds, ⟨?_, hcs.listens.trans hds.listens⟩, List.filterMap_append⟩
  rw [hds.console, hcs.console, List.flatMap_append, List.append_assoc]

theorem then_silent (h : Utters st out mid) (h' : Utters mid [] st') : Utters st out st' := by
  have := h.trans h'
  rwa [List.append_nil] at this

theorem after_silent (hc : mid.console = st.console) (hu : mid.uart = st.uart)
    (h : Utters mid out st') : Utters st out st' := (Utters.silent hc hu).trans h

theorem take {b : Byte} (hget : uartGetc st.uart = (some b, u)) :
    Utters st [] { st with uart := u } :=
  ⟨[], ⟨(List.append_nil _).symm, .take hget (.refl _)⟩, rfl⟩

theorem notice {t : List Byte} (ht : Notice t) :
    Utters st [] { st with console := st.console ++ t } := by
  refine ⟨[.notice t], ⟨?_, .notice ht (.refl _)⟩, rfl⟩
  rw [List.flatMap_singleton]
  rfl

theorem output (pid : BitVec 32) (t : List Byte) :
    Utters st [(pid, t)] { st with console := st.console ++ t } := by
  refine ⟨[.output pid t], ⟨?_, .output pid t (.refl _)⟩, rfl⟩
  rw [List.flatMap_singleton]
  rfl

end Utters

section Devices

theorem utters_uartByte (st : KState) (b : Byte) : Utters st [] (uartByte st b) := by
  have hsame : (uartByte st b).console = st.console ++ (uartReceive st.uart b).echo ∧
      (uartByte st b).uart = (uartReceive st.uart b).uart := by
    unfold uartByte
    dsimp only
    split
    · exact ⟨rfl, rfl⟩
    · exact ⟨rfl, rfl⟩
  refine ⟨[.echo b (uartReceive st.uart b).echo], ⟨?_, ?_⟩, rfl⟩
  · rw [hsame.1, List.flatMap_singleton]
    rfl
  · rw [hsame.2]
    exact .echo b (.refl _)

theorem utters_bytes (bytes : List Byte) (st : KState) :
    Utters st [] (bytes.foldl uartByte st) := by
  induction bytes generalizing st with
  | nil => exact .silent rfl rfl
  | cons b bytes ih => exact (utters_uartByte st b).then_silent (ih _)

theorem utters_uartInterrupt (bytes : List Byte) :
    Ensures (uartInterrupt bytes st) (Utters st []) := by
  intro st' h
  obtain ⟨bs, rfl⟩ := uartInterrupt_result h
  exact utters_bytes bs st

theorem utters_routeIrq (dev : Device) (irq : BitVec 32) :
    Ensures (routeIrq dev irq st) (Utters st []) := by
  unfold routeIrq
  split
  · exact utters_uartInterrupt dev.bytes
  · have hsaid : ((st.puts "[plic] unexpected IRQ 0x").puthex (irq.setWidth 64)).puts "\n" =
        { st with console := st.console ++ (ascii "[plic] unexpected IRQ 0x" ++
          hexText (irq.setWidth 64) ++ ascii "\n") } := by
      simp only [KState.puts, KState.puthex, ascii, hexText, List.append_assoc]
    rw [hsaid]
    exact ensures_ok.mpr (.notice (.irq _))

theorem utters_plicDispatch (dev : Device) : Ensures (plicDispatch dev st) (Utters st []) := by
  unfold plicDispatch
  refine Ensures.of_bind fun irq _ => ?_
  split
  · exact ensures_pure.mpr (.silent rfl rfl)
  · refine (utters_routeIrq dev irq).bind fun mid hmid => ?_
    intro st' h
    unfold completeIrq at h
    split at h
    · cases h
    · cases h
      refine hmid.then_silent ?_
      split
      · exact .silent rfl rfl
      · exact .silent rfl rfl

theorem utters_idleService (wake : Wakeup) : Ensures (idleService wake st) (Utters st []) := by
  unfold idleService
  split
  · exact utters_plicDispatch wake.device
  · exact ensures_ok.mpr (.silent rfl rfl)

theorem utters_awaitReady (start : Slot) (idle : List Wakeup) :
    Ensures (awaitReady start idle st) fun r => Utters st [] r.2 := by
  induction idle generalizing st with
  | nil =>
    unfold awaitReady
    split
    · exact ensures_ok.mpr (.silent rfl rfl)
    split
    · exact ensures_ok.mpr (.silent rfl rfl)
    split
    · exact ensures_error
    · exact ensures_error
  | cons wake idle ih =>
    unfold awaitReady
    split
    · exact ensures_ok.mpr (.silent rfl rfl)
    split
    · exact ensures_ok.mpr (.silent rfl rfl)
    split
    · exact ensures_error
    · refine (utters_idleService wake).bind fun mid hmid => ?_
      exact (@ih mid).mono fun r hr => hmid.then_silent hr

theorem utters_schedule (idle : List Wakeup) (tf : Slot) :
    Ensures (schedule idle tf st) fun r => Utters st [] r.2 := by
  have hpark : ∀ (start : Slot) (s : KState), s.console = st.console → s.uart = st.uart →
      Ensures (awaitReady start idle s) fun r => Utters st [] r.2 := fun start s hc hu =>
    (utters_awaitReady start idle).mono fun r hr => .after_silent hc hu hr
  unfold schedule
  dsimp only
  refine Ensures.bind (hpark _ _ ?_ ?_) fun r hr => ?_
  · split
    · rfl
    · rfl
  · split
    · rfl
    · rfl
  · split
    · exact ensures_pure.mpr hr
    · intro r' h
      cases h
      exact hr.then_silent (.silent rfl rfl)

theorem utters_schedule_from (hc : mid.console = st.console) (hu : mid.uart = st.uart)
    (idle : List Wakeup) (tf : Slot) :
    Ensures (schedule idle tf mid) fun r => Utters st [] r.2 :=
  (utters_schedule idle tf).mono fun _ hr => .after_silent hc hu hr

theorem utters_exiting (st : KState) : Utters st [] (exiting st) := by
  unfold exiting
  dsimp only
  split
  · exact .silent rfl rfl
  · exact .silent rfl rfl

theorem utters_exitCurrent (idle : List Wakeup) (tf : Slot) :
    Ensures (exitCurrent idle tf st) fun r => Utters st [] r.2 := by
  rw [exitCurrent_eq]
  exact (utters_schedule idle tf).mono fun r hr => (utters_exiting st).trans hr

theorem utters_reportFault (f : TrapFrame) :
    Utters st [] (reportFault st "\n[TRAP] U-mode fault (kill)\n" f) := by
  have hsaid : reportFault st "\n[TRAP] U-mode fault (kill)\n" f =
      { st with console := st.console ++ faultText f } := by
    simp only [reportFault, KState.puts, KState.puthex, faultText, ascii, hexText,
      List.append_assoc]
  rw [hsaid]
  exact .notice (.fault f)

end Devices

section Calls

theorem utters_answer {st mid : KState} {tf : Slot} {out : List (BitVec 32 × List Byte)}
    (h : Utters st out mid) (w : Word) :
    Ensures (mid.answer tf w) fun r => Utters st out r.2 := by
  rintro ⟨tf', s⟩ hr
  obtain ⟨-, rfl⟩ := answer_result hr
  exact h.then_silent (.silent rfl rfl)

theorem utters_fork (hst : Steady tf st) :
    Ensures (sysForkCall L tf st) fun r => Utters st [] r.2 := by
  have hmid : ∀ {r : Option Slot} {mid : KState}, AllocProc L st r mid → Utters st [] mid := by
    intro r mid ha
    cases ha with
    | full hu => exact .notice .full
    | noRoot i hu ha => exact .silent rfl rfl
    | noStack i hu root p1 p2 ha hk hs => exact .silent rfl rfl
    | created i hu root stack p1 p2 p3 ha hk hs => exact .silent rfl rfl
  rintro ⟨tf', s⟩ h
  obtain ⟨-, hcall⟩ := sysForkCall_result hst.frame hst.running h
  cases hcall with
  | failed mid ha => exact (hmid ha).then_silent (.silent rfl rfl)
  | forked child mid phys ha hne hc => exact (hmid ha).then_silent (.silent rfl rfl)

theorem utters_exec : Ensures (sysExecCall L tf st) fun r => Utters st [] r.2 := by
  intro r h
  obtain ⟨-, hcall⟩ := sysExecCall_result h
  exact .silent hcall.console hcall.uart

theorem utters_wait : Ensures (sysWaitCall input tf st) fun r => Utters st [] r.2 := by
  unfold sysWaitCall
  split
  · rename_i i hz
    refine utters_answer (.silent ?_ ?_) _
    · unfold freeProc
      dsimp only
      split_ifs <;> rfl
    · unfold freeProc
      dsimp only
      split_ifs <;> rfl
  · split
    · exact utters_answer (.silent rfl rfl) _
    · refine utters_schedule_from ?_ ?_ input.idle tf
      · rfl
      · rfl

theorem utters_sbrk (htf : tf = st.currentProc) :
    Ensures (sysSbrkCall tf st) fun r => Utters st [] r.2 := by
  intro r h
  subst htf
  obtain ⟨-, hr | hr | hr | ⟨ok, phys, hg, hr⟩⟩ := sysSbrkCall_result h
  · rw [hr]
    exact .silent rfl rfl
  · rw [hr]
    exact .silent rfl rfl
  · rw [hr]
    exact .silent rfl rfl
  · rw [hr]
    refine .silent ?_ ?_
    · cases ok <;> rfl
    · cases ok <;> rfl

theorem utters_open : Ensures (sysOpenCall L tf st) fun r => Utters st [] r.2 := by
  unfold sysOpenCall
  dsimp only
  refine Ensures.of_bind fun ok _ => ?_
  split
  · exact utters_answer (.silent rfl rfl) _
  split
  · exact utters_answer (.silent rfl rfl) _
  · refine Ensures.of_bind fun entry _ => ?_
    split
    · exact utters_answer (.silent rfl rfl) _
    · exact @utters_answer st (st.setFile _ _) _ _ (.silent rfl rfl) _

theorem utters_close : Ensures (sysCloseCall tf st) fun r => Utters st [] r.2 := by
  unfold sysCloseCall
  split
  · exact utters_answer (.silent rfl rfl) _
  · split
    · exact utters_answer (.silent rfl rfl) _
    · exact @utters_answer st (st.setFile _ _) _ _ (.silent rfl rfl) _

theorem utters_store (va : Addr) (b : Byte) : Ensures (st.store va b) (Utters st []) := by
  intro s hs
  obtain ⟨phys, -, hs⟩ := bind_eq_ok.mp hs
  cases hs
  exact .silent rfl rfl

theorem utters_consoleRead (buffer : Addr) (more n : ℕ) :
    Ensures (consoleRead buffer more n st) fun r => Utters st [] r.2 := by
  induction more generalizing n st with
  | zero => exact ensures_ok.mpr (.silent rfl rfl)
  | succ more ih =>
    unfold consoleRead
    refine Ensures.of_bind fun last _ => ?_
    split
    · exact ensures_pure.mpr (.silent rfl rfl)
    split
    · exact ensures_pure.mpr (.silent rfl rfl)
    · rename_i c u hget
      refine (utters_store _ c).bind fun s hs => ?_
      exact (ih (n + 1)).mono fun r hr => (Utters.take hget).then_silent (hs.then_silent hr)

theorem utters_copyOut (src dst : Addr) (more n : ℕ) :
    Ensures (copyOut src dst more n st) (Utters st []) := by
  induction more generalizing n st with
  | zero => exact ensures_ok.mpr (.silent rfl rfl)
  | succ more ih =>
    unfold copyOut
    refine Ensures.of_bind fun b _ => (utters_store _ b).bind fun s hs => ?_
    exact (ih (n + 1)).mono fun r hr => hs.then_silent hr

theorem utters_read : Ensures (sysReadCall input tf st) fun r => Utters st [] r.2 := by
  unfold sysReadCall
  dsimp only
  split
  · exact utters_answer (.silent rfl rfl) _
  split
  · exact utters_answer (.silent rfl rfl) _
  split
  · exact utters_answer (.silent rfl rfl) _
  · split
    · exact utters_answer (.silent rfl rfl) _
    split
    · refine utters_schedule_from ?_ ?_ input.idle tf
      · rfl
      · rfl
    · rename_i c u hget
      refine (utters_store _ c).bind fun s hs => (utters_consoleRead _ _ _).bind fun r hr => ?_
      exact utters_answer ((Utters.take hget).then_silent (hs.then_silent hr)) _
  · split
    · exact utters_answer (.silent rfl rfl) _
    · refine (utters_copyOut _ _ _ 0).bind fun s hs => ?_
      exact @utters_answer st (s.setFile _ _) _ _ (hs.then_silent (.silent rfl rfl)) _

theorem consoleWrite_prints (buffer : Addr) (more n : ℕ) (c : List Byte) :
    Ensures (consoleWrite buffer more n { st with console := c }) fun s => ∃ bytes : List Byte,
      bytes.length = more ∧ s = { st with console := c ++ bytes } ∧
      ∀ k (hk : k < bytes.length), st.load (buffer + BitVec.ofNat 64 (n + k)) = .ok bytes[k] := by
  induction more generalizing n c with
  | zero =>
    refine ensures_ok.mpr ⟨[], rfl, ?_, fun k hk => absurd hk (Nat.not_lt_zero k)⟩
    rw [List.append_nil]
  | succ more ih =>
    unfold consoleWrite
    refine Ensures.of_bind fun b hb => ?_
    refine (ih (n + 1) (c ++ [b])).mono ?_
    rintro s ⟨bytes, hlen, hs, hload⟩
    refine ⟨b :: bytes, by rw [List.length_cons, hlen], ?_, fun k hk => ?_⟩
    · rw [hs, List.append_assoc]
      rfl
    · cases k with
      | zero => exact hb
      | succ k =>
        have hnext := hload k (Nat.lt_of_succ_lt_succ hk)
        rw [show n + (k + 1) = n + 1 + k by omega]
        exact hnext

theorem Utters.said (pid : BitVec 32) (t : List Byte) :
    Utters st (said pid t) { st with console := st.console ++ t } := by
  unfold Lazux.said
  split
  · rename_i hnil
    refine .silent ?_ rfl
    rw [hnil]
    exact List.append_nil _
  · exact .output pid t

section Buffers

variable {look : Addr → Option Byte} {buffer : Addr} {n k : ℕ}

theorem stretch_zero : stretch look buffer 0 = [] := by
  rw [stretch, List.range_zero, List.map_nil, ite_self]

theorem stretch_missing (hk : k < n) (h : look (buffer + BitVec.ofNat 64 k) = none) :
    stretch look buffer n = [] := by
  refine if_neg fun hall => ?_
  have hsome := hall k hk
  rw [h] at hsome
  cases hsome

theorem stretch_bytes {bytes : List Byte}
    (h : ∀ k (hk : k < bytes.length), look (buffer + BitVec.ofNat 64 k) = some bytes[k]) :
    stretch look buffer bytes.length = bytes := by
  rw [stretch, if_pos fun k hk => by rw [h k hk]; rfl]
  apply List.ext_getElem
  · rw [List.length_map, List.length_range]
  · intro k _ hk
    rw [List.getElem_map, List.getElem_range, h k hk]
    rfl

theorem pageMapped_of_readable {root : ℕ} {va pa : Addr} {m : Memory} (h3 : ThreeLevel m root)
    (h : userTranslate m root .read va = some pa) : PageMapped m root pteR va := by
  obtain ⟨-, hl, hu, hp, -⟩ := (userTranslate_iff h3).mp h
  cases ht : tableAt m (some root) (pageNo va).low with
  | none =>
    rw [entry, ht] at hl
    exact absurd hl not_hardwareLeaf_zero
  | some f =>
    have hword : entry m (some root) (pageNo va) = (m f).word (vpn va 0) := by
      rw [entry, ht]
      rfl
    rw [hword] at hl hu hp
    refine ⟨f, vpn va 0, ?_, hl.1, hu, need_read hp⟩
    rw [vmmLookup_eq, ht]
    rfl

theorem load_translates {va : Addr} {b : Byte} (hsum : st.sum = true) (h : st.load va = .ok b) :
    ∃ pa, kernelTranslate st.phys.mem st.satp true .read va = some pa ∧
      b = st.phys.mem.byte pa := by
  unfold KState.load kernelLoad at h
  rw [hsum] at h
  split at h
  · rename_i pa hpa
    cases h
    exact ⟨pa, hpa, rfl⟩
  · cases h

theorem readable_of_load {va : Addr} {b : Byte} (hs : Sound L st) (hst : Steady tf st)
    (hsum : st.sum = true) (hm : PageMapped st.phys.mem st.satp pteR va) (h : st.load va = .ok b) :
    readable st va = some b := by
  have h3 := hs.owned.threeLevel (hst.root hs)
  obtain ⟨pa, hpa, hb⟩ := load_translates hsum h
  obtain ⟨hc, hl, -, hp, he⟩ := (kernelTranslate_iff h3).mp hpa
  rw [readable, (userTranslate_iff h3).mpr ⟨hc, hl, hm.entry.2.1, hp, he⟩, Option.map_some, hb]

theorem permissions_read : Permissions pteR := by
  unfold Permissions
  decide

/-- A buffer of some length is refused only where the program cannot read it. -/
theorem stretch_refused (hs : Sound L st) (hst : Steady tf st) (hva : buffer ≠ 0) (hn : n < 2 ^ 32)
    (hno : userRangeOk st.phys.mem st.satp buffer (BitVec.ofNat 64 n) pteR = false) :
    stretch (writable st buffer n) buffer n = [] := by
  rcases Nat.eq_zero_or_pos n with rfl | hpos
  · exact stretch_zero
  by_cases hfit : buffer.toNat + n + 4095 < 2 ^ 64
  · by_contra hsome
    have hall : ∀ k < n, ∃ b, readable st (buffer + BitVec.ofNat 64 k) = some b := by
      intro k hk
      cases hb : readable st (buffer + BitVec.ofNat 64 k) with
      | some b => exact ⟨b, rfl⟩
      | none =>
        rw [writable, if_pos hfit] at hsome
        exact absurd (stretch_missing hk hb) hsome
    have hok := (userRangeOk_of_fit hva permissions_read hpos hfit).mpr
      ⟨by omega, fun k hk => by
        obtain ⟨b, hb⟩ := hall k hk
        obtain ⟨pa, hpa, -⟩ := Option.map_eq_some_iff.mp hb
        exact pageMapped_of_readable (hs.owned.threeLevel (hst.root hs)) hpa⟩
    rw [hno] at hok
    cases hok
  · rw [userRangeOk, if_neg hva, pageSteps_carry hn (by omega)] at hno
    cases hno

theorem stretch_loaded {bytes : List Byte} (hs : Sound L st) (hst : Steady tf st)
    (hsum : st.sum = true) (hva : buffer ≠ 0)
    (hok : userRangeOk st.phys.mem st.satp buffer (BitVec.ofNat 64 bytes.length) pteR = true)
    (hload : ∀ k (hk : k < bytes.length), st.load (buffer + BitVec.ofNat 64 k) = .ok bytes[k]) :
    stretch (writable st buffer bytes.length) buffer bytes.length = bytes := by
  refine stretch_bytes fun k hk => ?_
  unfold writable
  split
  · rename_i hfit
    have hmapped := (userRangeOk_of_fit hva permissions_read (by omega) hfit).mp hok
    exact readable_of_load hs hst hsum (hmapped.2 k hk) (hload k hk)
  · obtain ⟨pa, hpa, hb⟩ := load_translates hsum (hload k hk)
    rw [kernelReadable, hpa, Option.map_some, hb]

end Buffers

section Write

theorem utters_write (hs : Sound L st) (hst : Steady tf st) (hsum : st.sum = true) :
    Ensures (sysWriteCall tf st) fun r =>
      Utters st (said st.current.pid (written st (st.frameOf tf))) r.2 := by
  generalize hf : st.frameOf tf = f
  have hsize : (f.a2.setWidth 32).setWidth 64 = BitVec.ofNat 64 (f.a2.setWidth 32).toNat := by
    apply BitVec.eq_of_toNat_eq
    simp
  have refused : ∀ w, written st f = [] → Ensures (st.answer tf w) fun r =>
      Utters st (said st.current.pid (written st f)) r.2 := by
    intro w hnil
    rw [hnil]
    exact utters_answer (.silent rfl rfl) w
  have foreign : ¬ ToConsole st f.a0 → written st f = [] := fun h => if_neg fun hc => h hc.2
  unfold sysWriteCall
  dsimp only
  rw [hf, ← hst.satp, hsize]
  split
  · rename_i hno
    refine refused _ ?_
    unfold written
    dsimp only
    split
    · rename_i hc
      exact stretch_refused hs hst hc.1 (BitVec.isLt _) (by simpa using hno)
    · rfl
  rename_i hok
  have hok : userRangeOk st.phys.mem st.satp f.a1 (BitVec.ofNat 64 (f.a2.setWidth 32).toNat) pteR =
      true := by simpa using hok
  have hva : f.a1 ≠ 0 := by
    intro hz
    rw [hz, userRangeOk, if_pos rfl] at hok
    cases hok
  split
  · rename_i hfd
    refine refused _ (foreign ?_)
    rintro ⟨i, hi, -⟩
    rw [hfd] at hi
    cases hi
  rename_i fd hfd
  have only : (st.current.openFiles fd).type ≠ .console → ¬ ToConsole st f.a0 := by
    rintro hne ⟨i, hi, ht⟩
    rw [hfd, Option.some_inj] at hi
    subst hi
    exact hne ht
  split
  · rename_i htype
    refine refused _ (foreign (only ?_))
    rw [htype]
    decide
  · rename_i htype
    refine (consoleWrite_prints f.a1 _ 0 st.console).bind ?_
    rintro s ⟨bytes, hlen, rfl, hload⟩
    have hbytes : written st f = bytes := by
      rw [written, if_pos ⟨hva, fd, hfd, htype⟩, ← hlen]
      rw [← hlen] at hok
      refine stretch_loaded hs hst hsum hva hok fun k hk => ?_
      have h := hload k hk
      rwa [Nat.zero_add] at h
    rw [hbytes]
    exact utters_answer (Utters.said _ bytes) _
  · rename_i htype
    refine refused _ (foreign (only ?_))
    rw [htype]
    decide

end Write

section Traps

theorem utters_syscall (hs : Sound L st) (hst : Steady tf st) (hsum : st.sum = true) :
    Ensures (syscall L input tf st) fun r =>
      Utters st (said st.current.pid (called st (st.frameOf tf))) r.2 := by
  have hframe := hst.frame
  have mute : (st.frameOf tf).a7 ≠ sysPutchar → (st.frameOf tf).a7 ≠ sysWrite →
      said st.current.pid (called st (st.frameOf tf)) = [] := by
    intro h1 h2
    rw [called, if_neg h1, if_neg h2]
    rfl
  unfold syscall
  dsimp only
  split
  · rename_i h7
    have hcalled : called st (st.frameOf tf) = [(st.frameOf tf).a0.setWidth 8] := if_pos h7
    rw [hcalled]
    exact @utters_answer st (st.putchar _) _ _ (Utters.said _ _) _
  rename_i hput
  split
  · rename_i h7
    rw [mute hput (by rw [h7]; decide)]
    exact utters_exitCurrent input.idle tf
  split
  · rename_i h7
    rw [mute hput (by rw [h7]; decide)]
    exact utters_fork hst
  split
  · rename_i h7
    rw [mute hput (by rw [h7]; decide)]
    exact utters_exec
  split
  · rename_i h7
    rw [mute hput (by rw [h7]; decide)]
    exact utters_wait
  split
  · rename_i h7
    rw [mute hput (by rw [h7]; decide)]
    exact utters_sbrk hframe
  split
  · rename_i h7
    rw [mute hput (by rw [h7]; decide)]
    exact utters_open
  split
  · rename_i h7
    rw [mute hput (by rw [h7]; decide)]
    exact utters_read
  split
  · rename_i h7
    have hcalled : called st (st.frameOf tf) = written st (st.frameOf tf) := by
      rw [called, if_neg hput, if_pos h7]
    rw [hcalled]
    exact utters_write hs hst hsum
  rename_i hwrite
  rw [mute hput hwrite]
  split
  · exact utters_close
  · exact ensures_error

theorem called_entered (hst : Steady st.sscratch st) (regs : TrapFrame) :
    called (entered (saveFrame regs st)) ((entered (saveFrame regs st)).frameOf st.sscratch) =
      called st regs := by
  have hto : ∀ fd, ToConsole (entered (saveFrame regs st)) fd ↔ ToConsole st fd := by
    intro fd
    simp only [ToConsole, called_file]
  rw [frameOf_entered hst regs]
  simp only [called, written, hto]
  rfl

theorem utters_trapHandler (hset : Settled L st) (regs : TrapFrame) (input : Input) :
    Ensures (trapHandler L input st.sscratch (saveFrame regs st)) fun r =>
      Utters (saveFrame regs st) (said st.current.pid (spoken st regs)) r.2 := by
  have hframe : (saveFrame regs st).frameOf st.sscratch = _ := frameOf_saveFrame regs st
  have hu : fromSupervisor ((saveFrame regs st).frameOf st.sscratch) = false := by
    rw [hframe]
    exact fromSupervisor_trapStatus _
  have hcause : ((saveFrame regs st).frameOf st.sscratch).scause = regs.scause := by rw [hframe]
  have mute : regs.scause ≠ 8 → said st.current.pid (spoken st regs) = [] := by
    intro h8
    rw [spoken, if_neg h8]
    rfl
  by_cases h8 : regs.scause = 8
  · obtain ⟨hsound, hsteady⟩ := hset.called regs
    have hpid : (entered (saveFrame regs st)).current.pid = st.current.pid :=
      (pid_entered regs st st.currentProc).1
    rw [trapHandler_ecall hset.steady h8, spoken, if_pos h8, ← called_entered hset.steady regs,
      ← hpid]
    have hsilent : Utters (saveFrame regs st) [] (entered (saveFrame regs st)) := .silent rfl rfl
    exact (utters_syscall hsound hsteady (sum_entered _)).mono fun r hr => hsilent.trans hr
  · rw [mute h8]
    unfold trapHandler
    dsimp only
    split
    · split
      · exact utters_schedule input.idle st.sscratch
      split
      · refine (utters_plicDispatch input.device).bind fun s hs => ?_
        exact ensures_pure.mpr hs
      · exact ensures_error
    rw [if_neg (by rw [hu]; decide), if_neg (by rw [hcause]; exact h8)]
    refine (utters_exitCurrent input.idle st.sscratch).mono fun r hr => ?_
    exact (utters_reportFault _).trans hr

theorem Step.utters (hset : Settled L st) (hs : Step L st (.trap regs input) st') :
    Utters st (said st.current.pid (spoken st regs)) st' := by
  cases hs with
  | trap _ _ _ hd ht =>
    obtain ⟨⟨tf, mid⟩, hr, ht⟩ := bind_eq_ok.mp ht
    cases ht
    have hsilent : Utters st [] (saveFrame regs st) := .silent rfl rfl
    exact (hsilent.trans (utters_trapHandler hset regs input _ hr)).then_silent (.silent rfl rfl)

end Traps

section Runs

variable {g : List (BitVec 32 × List Byte)}

theorem Listens.notices (h : Listens u cs v) : ∀ t, Chunk.notice t ∈ cs → Notice t := by
  induction h with
  | refl u => exact fun t ht => absurd ht List.not_mem_nil
  | take hget _ ih => exact ih
  | echo b _ ih =>
    intro t ht
    rcases List.mem_cons.mp ht with ht | ht
    · cases ht
    · exact ih t ht
  | output pid s _ ih =>
    intro t ht
    rcases List.mem_cons.mp ht with ht | ht
    · cases ht
    · exact ih t ht
  | notice hs _ ih =>
    intro t ht
    rcases List.mem_cons.mp ht with ht | ht
    · cases ht
      exact hs
    · exact ih t ht

theorem Listens.screen (h : Listens u cs v) : ∀ s : Screen, s.uart = u → ∃ es : List UartEvent,
    (es.foldl screenStep s).uart = v ∧
    (es.foldl screenStep s).echo = s.echo ++ cs.flatMap Chunk.echoed := by
  induction h with
  | refl u => exact fun s hs => ⟨[], hs, (List.append_nil _).symm⟩
  | take hget _ ih =>
    intro s hs
    obtain ⟨es, huart, hecho⟩ := ih { s with uart := (uartGetc s.uart).2 } (by rw [hs, hget])
    exact ⟨.getc :: es, huart, hecho⟩
  | echo b _ ih =>
    intro s hs
    obtain ⟨es, huart, hecho⟩ := ih (s.receive b) (by rw [← hs]; rfl)
    refine ⟨.intr [b] :: es, huart, hecho.trans ?_⟩
    rw [List.flatMap_cons, ← List.append_assoc, ← hs]
    rfl
  | output pid t _ ih => exact fun s hs => ih s hs
  | notice ht _ ih => exact fun s hs => ih s hs

theorem watched_utters (h : Watched L ram ⟨fun _ => True, fun _ => True⟩ outputWatch g st) :
    ∃ first, kmain L ram = .ok first ∧ Utters first g st := by
  induction h with
  | boot st hboot => exact ⟨st, hboot, .silent rfl rfl⟩
  | store h hs ih =>
    obtain ⟨first, hboot, hout⟩ := ih
    cases hs with
    | store va b pa ht => exact ⟨first, hboot, hout.then_silent (.silent rfl rfl)⟩
  | trap h hs _ _ ih =>
    obtain ⟨first, hboot, hout⟩ := ih
    exact ⟨first, hboot, hout.trans (hs.utters (reachable_settled h.conducted.reachable))⟩

/-- In every run the console shows the messages of the boot and then, one after the other, what
programs write, whole and in the order of their calls, the echo of what is typed and notices of the
kernel; and the echo is that of the driver, whatever is printed in between. -/
theorem console_transcript (h : Watched L ram ⟨fun _ => True, fun _ => True⟩ outputWatch g st) :
    ∃ (first : KState) (log : List Chunk), kmain L ram = .ok first ∧
      st.console = first.console ++ log.flatMap Chunk.text ∧
      log.filterMap Chunk.written = g ∧ (∀ t, Chunk.notice t ∈ log → Notice t) ∧
      ∃ es, (screenRun es).uart = st.uart ∧ (screenRun es).echo = log.flatMap Chunk.echoed := by
  obtain ⟨first, hboot, log, hprints, hout⟩ := watched_utters h
  obtain ⟨es, huart, hecho⟩ := hprints.listens.screen Screen.init (booted_uart hboot).symm
  exact ⟨first, log, hboot, hprints.console, hout, hprints.listens.notices, es, huart, hecho⟩

def putCall : TrapFrame := { TrapFrame.zero with scause := 8, a7 := sysPutchar, a0 := 0x41 }

theorem takeTrap_put (hset : Settled L st) (input : Input) :
    ∃ st', takeTrap L putCall input st = .ok st' := by
  have h7 : ((entered (saveFrame putCall st)).frameOf st.sscratch).a7 = sysPutchar := by
    rw [frameOf_entered hset.steady]
    rfl
  rw [takeTrap, trapHandler_ecall hset.steady rfl, syscall, if_pos h7]
  exact ⟨_, rfl⟩

/-- After boot the first program prints it. -/
theorem console_transcript_put : ∃ (st : KState) (pid : BitVec 32) (first : KState)
    (log : List Chunk), kmain smallLayout smallRam = .ok first ∧
      st.console = first.console ++ log.flatMap Chunk.text ∧
      log.filterMap Chunk.written = [(pid, [0x41])] ∧ (∀ t, Chunk.notice t ∈ log → Notice t) ∧
      ∃ es, (screenRun es).uart = st.uart ∧ (screenRun es).echo = log.flatMap Chunk.echoed := by
  obtain ⟨st, hboot⟩ := boot_returns smallImage
  have hrun : Watched smallLayout smallRam ⟨fun _ => True, fun _ => True⟩ outputWatch [] st :=
    .boot st hboot fun _ _ => trivial
  obtain ⟨st', ht⟩ := takeTrap_put (reachable_settled (.boot st hboot)) ⟨⟨0, []⟩, []⟩
  have hstep : Step smallLayout st (.trap putCall ⟨⟨0, []⟩, []⟩) st' :=
    .trap st putCall ⟨⟨0, []⟩, []⟩ st' (fun hmsb => absurd hmsb (by decide)) ht
  have hlast := hrun.trap hstep (fun _ _ _ _ => trivial) fun _ _ => trivial
  exact ⟨st', st.current.pid, console_transcript hlast⟩

end Runs

end Calls

end Lazux
