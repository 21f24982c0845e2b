import Lazux.Sched

/-! # The trap handler (`arch/riscv/trap_handler.c`)

`tf` is the slot whose trap frame the handler was given; the result is the slot whose
frame is resumed. Each system call is a function of its own. -/
namespace Lazux

open PagedMemory

/-- What the devices do while a trap is handled: what the PLIC and UART hold at the trap
itself and what ends each idle wait. -/
structure Input where
  device : Device
  idle : List Wakeup

abbrev Outcome := Except Stop (Slot × KState)

namespace KState

variable (st : KState)

/-- `tf->a0 = w; return tf;` -/
def answer (tf : Slot) (w : Word) : Outcome := .ok (tf, st.setA0 tf w)

def rootOf (i : Slot) : ℕ := (st.processTable i).pageTable.getD 0

end KState

def diskByte (L : Layout) (st : KState) (a : Addr) : Except Stop Byte :=
  st.load (L.ramdiskStart + a)

/-- Longest file name `SYS_EXEC` and `SYS_OPEN` take, terminator included. -/
def nameMax : ℕ := 256

def sysForkCall (L : Layout) (tf : Slot) (st : KState) : Outcome := do
  let st := st.modifyProc st.currentProc fun p => { p with trapFrame := st.frameOf tf }
  match ← allocProc L st with
  | (none, st) => st.answer tf eAgain
  | (some child, st) =>
    let parent := st.current
    let st := st.modifyProc child fun p =>
      { p with
        parentPid := parent.pid
        heapBreak := parent.heapBreak
        heapMax := parent.heapMax
        openFiles := parent.openFiles
        trapFrame := { st.frameOf tf with kernelSp := p.trapFrame.kernelSp } }
    let st := st.setA0 tf ((st.processTable child).pid.signExtend 64)
    let st := st.setA0 child 0
    let phys ← vmmCopyUvm 2 (st.rootOf st.currentProc) (st.rootOf child) st.phys
    pure (tf, { st with phys := phys }.modifyProc child fun p => { p with state := .ready })

def sysExecCall (L : Layout) (tf : Slot) (st : KState) : Outcome := do
  let filename := (st.frameOf tf).a0
  if !(← userStrOk st.phys.mem (st.rootOf st.currentProc) st.load filename nameMax) then
    st.answer tf eFault
  else match ← ramdiskGetEntry (diskByte L st) st.load filename (nameMax + 1) with
    | none => st.answer tf eNoent
    | some entry =>
      let oldPt := st.rootOf st.currentProc
      match pmmAllocPage st.phys with
      | (none, _) => .error (.panic "PANIC: exec OOM\n")
      | (some newPt, phys) =>
        let phys ← vmmMapKernel L newPt (phys.zeroPage newPt)
        let st := { st with phys := phys }.modifyProc st.currentProc fun p =>
          { p with pageTable := some newPt }
        match ← loadElf st st.currentProc
            (fun a => diskByte L st (entry.offset.setWidth 64 + a)) with
        | (false, _) => .error (.panic "PANIC: exec failed to load ELF\n")
        | (true, st) =>
          let st := writeSatp st newPt
          pure (tf, { st with phys := vmmFreePt oldPt st.phys })

/-- The scan of `SYS_WAIT`: whether there are children, and the first zombie among them. -/
def hasKids (st : KState) : Bool :=
  (List.finRange 64).any fun i =>
    (st.processTable i).parentPid = st.current.pid ∧ (st.processTable i).state ≠ .unused

def zombieKid (st : KState) : Option Slot :=
  (List.finRange 64).find? fun i =>
    (st.processTable i).parentPid = st.current.pid ∧ (st.processTable i).state = .zombie

def sysWaitCall (input : Input) (tf : Slot) (st : KState) : Outcome :=
  match zombieKid st with
  | some i =>
    let dead := (st.processTable i).pid
    (freeProc st i).answer tf (dead.signExtend 64)
  | none =>
    if !hasKids st then st.answer tf eNoent
    else
      let st := sleepOn st (.pcb st.currentProc)
      schedule input.idle tf (st.setFrame tf fun f => { f with sepc := f.sepc - 4 })

/-- The loop of `SYS_SBRK` over the pages to add; `start` is the first of them. -/
def sbrkPages (root : ℕ) (start : Addr) : List Addr → Phys → Bool × Phys
  | [], p => (true, p)
  | addr :: rest, p =>
    match pmmAllocPage p with
    | (none, p) => (false, vmmUnmapRange p root start addr)
    | (some page, p) =>
      match mapPage (p.zeroPage page) root addr (pageAddr page) (pteU ||| pteR ||| pteW) with
      | (true, p) => sbrkPages root start rest p
      | (false, p) => (false, vmmUnmapRange (pmmFreePage p (pageAddr page)) root start addr)

def sysSbrkCall (tf : Slot) (st : KState) : Outcome :=
  let increment := (st.frameOf tf).a0
  let oldBreak := st.current.heapBreak
  let newBreak := oldBreak + increment
  if increment = 0 then st.answer tf oldBreak
  else if increment.msb then st.answer tf ePerm
  else if newBreak > st.current.heapMax then st.answer tf eNomem
  else
    match sbrkPages (st.rootOf st.currentProc) (pageCeil oldBreak)
        (pageSteps (pageCeil oldBreak) (pageCeil newBreak)) st.phys with
    | (false, phys) => { st with phys := phys }.answer tf eNomem
    | (true, phys) =>
      ({ st with phys := phys }.modifyProc st.currentProc fun p =>
        { p with heapBreak := newBreak }).answer tf oldBreak

/-- The first free descriptor above the standard three. -/
def freeFd (p : Process) : Option (Fin 16) :=
  (List.finRange 16).find? fun i => 3 ≤ i.val ∧ (p.openFiles i).type = .none

def KState.setFile (st : KState) (fd : Fin 16) (f : File) : KState :=
  st.modifyProc st.currentProc fun p => { p with openFiles := Function.update p.openFiles fd f }

def sysOpenCall (L : Layout) (tf : Slot) (st : KState) : Outcome := do
  let filename := (st.frameOf tf).a0
  if !(← userStrOk st.phys.mem (st.rootOf st.currentProc) st.load filename nameMax) then
    st.answer tf eFault
  else match freeFd st.current with
    | none => st.answer tf eNomem
    | some fd =>
      match ← ramdiskGetEntry (diskByte L st) st.load filename (nameMax + 1) with
      | none => st.answer tf eNoent
      | some entry =>
        (st.setFile fd ⟨.ramdisk, 0, entry.size,
          L.ramdiskStart + entry.offset.setWidth 64⟩).answer tf (BitVec.ofNat 64 fd.val)

/-- The descriptor `(int)a0` names, if it is in range. -/
def fdOf (a0 : Word) : Option (Fin 16) :=
  let fd := a0.setWidth 32
  if fd.msb then none
  else if h : fd.toNat < 16 then some ⟨fd.toNat, h⟩
  else none

/-- The loop of a console read: `n` bytes are in the buffer, `more` still fit. -/
def consoleRead (buffer : Addr) : ℕ → ℕ → KState → Except Stop (ℕ × KState)
  | 0, n, st => .ok (n, st)
  | more + 1, n, st => do
    let last ← st.load (buffer + BitVec.ofNat 64 (n - 1))
    if last = newline then pure (n, st)
    else match uartGetc st.uart with
      | (none, _) => pure (n, st)
      | (some c, uart) =>
        let st ← { st with uart := uart }.store (buffer + BitVec.ofNat 64 n) c
        consoleRead buffer more (n + 1) st

/-- `memcpy` of `more` bytes to a user buffer, `n` of which are done. -/
def copyOut (src dst : Addr) : ℕ → ℕ → KState → Except Stop KState
  | 0, _, st => .ok st
  | more + 1, n, st => do
    let b ← st.load (src + BitVec.ofNat 64 n)
    let st ← st.store (dst + BitVec.ofNat 64 n) b
    copyOut src dst more (n + 1) st

def sysReadCall (input : Input) (tf : Slot) (st : KState) : Outcome :=
  let f := st.frameOf tf
  let buffer := f.a1
  let size := f.a2.setWidth 32
  if !userRangeOk st.phys.mem (st.rootOf st.currentProc) buffer (size.setWidth 64) pteW then
    st.answer tf eFault
  else match fdOf f.a0 with
    | none => st.answer tf eBadf
    | some fd =>
      let file := st.current.openFiles fd
      match file.type with
      | .none => st.answer tf eBadf
      | .console =>
        if size = 0 then st.answer tf 0
        else match uartGetc st.uart with
          | (none, _) =>
            let st := sleepOn st .uartRx
            schedule input.idle tf (st.setFrame tf fun f => { f with sepc := f.sepc - 4 })
          | (some c, uart) => do
            let st ← { st with uart := uart }.store buffer c
            let (n, st) ← consoleRead buffer (size.toNat - 1) 1 st
            st.answer tf (BitVec.ofNat 64 n)
      | .ramdisk =>
        let bytesLeft := file.size - file.offset
        if bytesLeft = 0 then st.answer tf 0
        else do
          let readSize := if size > bytesLeft then bytesLeft else size
          let st ← copyOut (file.data + file.offset.setWidth 64) buffer readSize.toNat 0 st
          (st.setFile fd { file with offset := file.offset + readSize }).answer tf
            (readSize.setWidth 64)

/-- The loop of a console write. -/
def consoleWrite (buffer : Addr) : ℕ → ℕ → KState → Except Stop KState
  | 0, _, st => .ok st
  | more + 1, n, st => do
    let b ← st.load (buffer + BitVec.ofNat 64 n)
    consoleWrite buffer more (n + 1) (st.putchar b)

def sysWriteCall (tf : Slot) (st : KState) : Outcome :=
  let f := st.frameOf tf
  let size := f.a2.setWidth 32
  if !userRangeOk st.phys.mem (st.rootOf st.currentProc) f.a1 (size.setWidth 64) pteR then
    st.answer tf eFault
  else match fdOf f.a0 with
    | none => st.answer tf eBadf
    | some fd =>
      match (st.current.openFiles fd).type with
      | .none => st.answer tf eBadf
      | .console => do
        let st ← consoleWrite f.a1 size.toNat 0 st
        st.answer tf (size.setWidth 64)
      | .ramdisk => st.answer tf ePerm

def sysCloseCall (tf : Slot) (st : KState) : Outcome :=
  match fdOf (st.frameOf tf).a0 with
  | none => st.answer tf eBadf
  | some fd =>
    if (st.current.openFiles fd).type = .none then st.answer tf eBadf
    else (st.setFile fd File.closed).answer tf 0

/-- The dispatch on `a7`. -/
def syscall (L : Layout) (input : Input) (tf : Slot) (st : KState) : Outcome :=
  let a7 := (st.frameOf tf).a7
  if a7 = sysPutchar then (st.putchar ((st.frameOf tf).a0.setWidth 8)).answer tf 0
  else if a7 = sysExit then exitCurrent input.idle tf st
  else if a7 = sysFork then sysForkCall L tf st
  else if a7 = sysExec then sysExecCall L tf st
  else if a7 = sysWait then sysWaitCall input tf st
  else if a7 = sysSbrk then sysSbrkCall tf st
  else if a7 = sysOpen then sysOpenCall L tf st
  else if a7 = sysRead then sysReadCall input tf st
  else if a7 = sysWrite then sysWriteCall tf st
  else if a7 = sysClose then sysCloseCall tf st
  else .error (.panic "\n[kernel] unknown syscall, killing user\n")

def fromSupervisor (f : TrapFrame) : Bool := f.sstatus.getLsbD 8

def reportFault (st : KState) (headline : String) (f : TrapFrame) : KState :=
  let st := st.puts headline
  let st := (st.puts "  scause=0x").puthex f.scause
  let st := (st.puts "\n  sepc  =0x").puthex f.sepc
  let st := (st.puts "\n  stval =0x").puthex f.stval
  st.puts "\n"

/-- A trap taken in S-mode: only `ebreak` is survived. -/
def supervisorTrap (tf : Slot) (st : KState) : Outcome :=
  let f := st.frameOf tf
  if f.scause = 3 then do
    let st := (((st.puts "\n[TRAP] S-mode ebreak\n").puts "  sepc  =0x").puthex f.sepc).puts "\n"
    let h ← readLe st.load f.sepc 2
    pure (tf, st.setFrame tf fun f => { f with sepc := f.sepc + if h % 4 ≠ 3 then 2 else 4 })
  else .error (.panic "\n[FATAL] unexpected S-mode trap!\n")

def trapHandler (L : Layout) (input : Input) (tf : Slot) (st : KState) : Outcome :=
  let f := st.frameOf tf
  if f.scause.msb then
    let code := f.scause &&& 0x7FFFFFFFFFFFFFFF
    if code = 5 then schedule input.idle tf st
    else if code = 9 then do
      let st ← plicDispatch input.device st
      pure (tf, st)
    else .error (.panic "\n[FATAL] unexpected Interrupt!\n")
  else if fromSupervisor f then supervisorTrap tf st
  else if f.scause = 8 then
    let st := st.setFrame tf fun f => { f with sepc := f.sepc + 4 }
    syscall L input tf { st with sstatus := st.sstatus ||| 0x40000 }
  else exitCurrent input.idle tf (reportFault st "\n[TRAP] U-mode fault (kill)\n" f)

end Lazux
