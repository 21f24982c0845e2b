import Lazux.Trap

/-! # The machine: boot, traps and user stores (`main.c`, `trap.S`)

User programs are arbitrary. Between two traps they may store through their page table;
at a trap their registers hold anything. -/
namespace Lazux

open PagedMemory

/-- Clears SPP, sets SPIE and SIE, clears SUM: what `switch_to_user` and `sret` leave. -/
def bootStatus : Word := 0x22

def initName : List Byte := "init.elf".toList.map fun c => BitVec.ofNat 8 c.toNat

def constByte (s : List Byte) (a : Addr) : Except Stop Byte := .ok (s.getD a.toNat 0)

/-- The kernel's state before it has done anything but set up the page allocator. -/
def early (L : Layout) (ram : Memory) : KState :=
  ⟨initPmm L ram, fun _ => Process.zero, 1, 0, 0, 0, 0, Uart.init, []⟩

/-- The first part of `kmain`: the kernel's own page table. -/
def enableMmu (L : Layout) (st : KState) : Except Stop KState :=
  match pmmAllocPage st.phys with
  | (none, _) => .error (.panic "PANIC: Failed to allocate root page table!\n")
  | (some rootPt, phys) => do
    let phys ← vmmMapKernel L rootPt (phys.zeroPage rootPt)
    let st := ({ st with phys := phys }.puts "Kernel mapped successfully!\n").puts
      "Flipping the MMU switch...\n"
    let st := writeSatp st rootPt
    pure (st.puts "MMU IS ON! Welcome to Sv39 Virtual Memory.\n")

/-- The second part of `kmain`, up to the jump to the first process. -/
def startInit (L : Layout) (st : KState) : Except Stop KState := do
  match ← allocProc L st with
  | (none, _) => .error (.fault 0)
  | (some procA, st) =>
    match ← ramdiskGetEntry (diskByte L st) (constByte initName) 0 9 with
    | none => .error (.panic "Failed to load ELF!\n")
    | some entry =>
      match ← loadElf st procA (fun a => diskByte L st (entry.offset.setWidth 64 + a)) with
      | (false, _) => .error (.panic "Failed to load ELF!\n")
      | (true, st) =>
        let st := { st with currentProc := procA }.modifyProc procA fun p =>
          { p with state := .running }
        let st := (st.puts "Timer interrupt armed for 10ms in the future!\n").puts
          "Jumping to isolated user space at 0x400000...\n"
        let st := writeSatp st (st.rootOf procA)
        pure { st with sscratch := procA, sstatus := bootStatus }

/-- `kmain` on the RAM contents `ram`. The device registers it writes are not modelled. -/
def kmain (L : Layout) (ram : Memory) : Except Stop KState := do
  let st ← enableMmu L ((early L ram).puts "Setting up Virtual Memory...\n")
  startInit L (st.puts "Initializing Process Subsystem...\n")

/-- The `sstatus` a trap from U-mode leaves: SPP clear, SPIE the old SIE, SIE clear. -/
def trapStatus (s : Word) : Word :=
  s &&& ~~~(0x122 : Word) ||| if s.getLsbD 1 then 0x20 else 0

/-- The `sstatus` after `sret`: SIE the old SPIE, SPIE set, SPP clear. -/
def sretStatus (s : Word) : Word :=
  s &&& ~~~(0x122 : Word) ||| 0x20 ||| if s.getLsbD 5 then 0x2 else 0

/-- Trap entry: the user's registers, with cause and program counter, go to the frame
`sscratch` points to; its kernel stack pointer stays. -/
def saveFrame (regs : TrapFrame) (st : KState) : KState :=
  { st with sstatus := trapStatus st.sstatus }.setFrame st.sscratch fun old =>
    { regs with sstatus := trapStatus st.sstatus, kernelSp := old.kernelSp }

def resume (tf : Slot) (st : KState) : KState :=
  { st with sscratch := tf, sstatus := sretStatus (st.frameOf tf).sstatus }

def takeTrap (L : Layout) (regs : TrapFrame) (input : Input) (st : KState) :
    Except Stop KState := do
  let (tf, st) ← trapHandler L input st.sscratch (saveFrame regs st)
  pure (resume tf st)

inductive Event where
  | store (va : Addr) (b : Byte)
  | trap (regs : TrapFrame) (input : Input)

/-- The timer and the PLIC are the only interrupts enabled. -/
def Delivered (scause : Word) : Prop :=
  scause.msb → scause &&& 0x7FFFFFFFFFFFFFFF = 5 ∨ scause &&& 0x7FFFFFFFFFFFFFFF = 9

inductive Step (L : Layout) : KState → Event → KState → Prop where
  | store (st va b pa) (h : userTranslate st.phys.mem st.satp .write va = some pa) :
      Step L st (.store va b) { st with phys := { st.phys with mem := st.phys.mem.setByte pa b } }
  | trap (st regs input st') (hd : Delivered regs.scause) (h : takeTrap L regs input st = .ok st') :
      Step L st (.trap regs input) st'

/-- The states in which a user program runs. -/
inductive Reachable (L : Layout) (ram : Memory) : KState → Prop where
  | boot (st) (h : kmain L ram = .ok st) : Reachable L ram st
  | step {st st' e} (h : Reachable L ram st) (hs : Step L st e st') : Reachable L ram st'

end Lazux
