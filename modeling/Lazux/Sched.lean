import Lazux.Elf

/-! # Interrupt dispatch and the scheduler (`plic.c`, `process.c`)

What devices do is an input: the interrupt the PLIC reports, the bytes waiting in the
UART and the interrupts that end each `wfi`. A device register is reached through the
current page table; a heap page mapped over it is ordinary memory. -/
namespace Lazux

open PagedMemory

/-- What the PLIC and the UART hold when they are asked. -/
structure Device where
  irq : BitVec 32
  bytes : List Byte

/-- What `sip` shows after a `wfi`. -/
structure Wakeup where
  timer : Bool
  external : Bool
  device : Device

def plicClaim : Addr := 0x0C201004
def uartLsr : Addr := 0x10000005

/-- `csrw satp` and `sfence.vma`: the next access goes through the new table, whatever it maps. -/
def writeSatp (st : KState) (root : ℕ) : KState := { st with satp := root }

/-- One turn of the loop of `uart_intr` in the kernel. -/
def uartByte (st : KState) (b : Byte) : KState :=
  let r := uartReceive st.uart b
  let st := { st with uart := r.uart, console := st.console ++ r.echo }
  if r.wake then wakeup st .uartRx else st

def uartInterrupt (bytes : List Byte) (st : KState) : Except Stop KState :=
  match kernelTranslate st.phys.mem st.satp st.sum .read uartLsr with
  | none => .error (.fault uartLsr)
  | some pa =>
    if pa = uartLsr then .ok (bytes.foldl uartByte st)
    -- not the device: the ready bit read there never changes
    else if (st.phys.mem.byte pa).getLsbD 0 then .error .spin
    else .ok st

/-- 32-bit accesses, least significant byte first. -/
def loadWord32 (m : Memory) (pa : Addr) : BitVec 32 :=
  m.byte (pa + 3) ++ m.byte (pa + 2) ++ m.byte (pa + 1) ++ m.byte pa

def storeWord32 (m : Memory) (pa : Addr) (w : BitVec 32) : Memory :=
  (List.range 4).foldl (fun m k => m.setByte (pa + BitVec.ofNat 64 k) (w.extractLsb' (8 * k) 8)) m

/-- Reads the claim register. -/
def claimIrq (dev : Device) (st : KState) : Except Stop (BitVec 32) :=
  match kernelTranslate st.phys.mem st.satp st.sum .read plicClaim with
  | none => .error (.fault plicClaim)
  | some pa => .ok (if pa = plicClaim then dev.irq else loadWord32 st.phys.mem pa)

/-- Hands the interrupt to the driver that owns it. -/
def routeIrq (dev : Device) (irq : BitVec 32) (st : KState) : Except Stop KState :=
  if irq = uart0Irq then uartInterrupt dev.bytes st
  else .ok (((st.puts "[plic] unexpected IRQ 0x").puthex (irq.setWidth 64)).puts "\n")

/-- Writes the claim register back. -/
def completeIrq (irq : BitVec 32) (st : KState) : Except Stop KState :=
  match kernelTranslate st.phys.mem st.satp st.sum .write plicClaim with
  | none => .error (.fault plicClaim)
  | some pa =>
    .ok (if pa = plicClaim then st
      else { st with phys := { st.phys with mem := storeWord32 st.phys.mem pa irq } })

def plicDispatch (dev : Device) (st : KState) : Except Stop KState := do
  let irq ← claimIrq dev st
  if irq = 0 then pure st else routeIrq dev irq st >>= completeIrq irq

/-- Re-arming the timer leaves no trace in the state. -/
def idleService (w : Wakeup) (st : KState) : Except Stop KState :=
  if w.external then plicDispatch w.device st else .ok st

/-- The loop of `schedule` that looks for the next process and idles while all sleep;
`none` keeps the current one. -/
def awaitReady (start : Slot) : List Wakeup → KState → Except Stop (Option Slot × KState)
  | ws, st =>
    match findReady st start with
    | some i => .ok (some i, st)
    | none =>
      if st.current.state = .ready ∨ st.current.state = .running then
        .ok (none, st.modifyProc st.currentProc fun p => { p with state := .running })
      else if !anyBlocked st then .error .shutdown
      else match ws with
        | [] => .error .waiting
        | w :: ws => do
          let st ← idleService w st
          awaitReady start ws st

/-- Returns the trap frame to resume, as the slot that holds it. -/
def schedule (idle : List Wakeup) (tf : Slot) (st : KState) : Except Stop (Slot × KState) := do
  let st := st.modifyProc st.currentProc fun p => { p with trapFrame := st.frameOf tf }
  let st :=
    if st.current.state = .running then
      st.modifyProc st.currentProc fun p => { p with state := .ready }
    else st
  match ← awaitReady st.currentProc idle st with
  | (none, st) => pure (tf, st)
  | (some next, st) =>
    let st := { st with currentProc := next }.modifyProc next fun p => { p with state := .running }
    pure (next, writeSatp st (st.current.pageTable.getD 0))

/-- `exit_current`: the running process becomes a zombie and its parent is woken. -/
def exitCurrent (idle : List Wakeup) (tf : Slot) (st : KState) : Except Stop (Slot × KState) :=
  let st := st.modifyProc st.currentProc fun p => { p with state := .zombie }
  let st := match (List.finRange 64).find? fun i =>
      (st.processTable i).pid = st.current.parentPid ∧ (st.processTable i).state ≠ .unused with
    | some i => wakeup st (.pcb i)
    | none => st
  schedule idle tf st

end Lazux
