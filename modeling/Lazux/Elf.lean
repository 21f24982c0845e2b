import Lazux.Process

/-! # The RAMDISK directory and the ELF loader (`ramdisk_get_entry`, `load_elf`)

The image is read through a byte reader fixed when the call begins, so a load never sees
its own writes: the RAMDISK lies in `.rodata`. A program header is read as a whole. -/
namespace Lazux

open PagedMemory

def ramdiskMagic : ℕ := 0x4C415A55
def elfNum : ℕ := 0x464C457F
def ptLoad : ℕ := 1
def pfX : Word := 0x1
def pfW : Word := 0x2
def pfR : Word := 0x4

structure RamdiskEntry where
  offset : BitVec 32
  size : BitVec 32
  deriving DecidableEq

/-- Whether the strings at `a` and `b` are equal. The last argument bounds the bytes
compared; the caller gives one past the length of a terminated string. -/
def streq (bytesA bytesB : Addr → Except Stop Byte) (a b : Addr) : ℕ → Except Stop Bool
  | 0 => .error .spin
  | n + 1 => do
    let x ← bytesA a
    let y ← bytesB b
    if x ≠ 0 ∧ y ≠ 0 then
      if x ≠ y then pure false else streq bytesA bytesB (a + 1) (b + 1) n
    else pure (x = y)

/-- Entry `i` of the directory: its name starts it, then come offset and size. -/
def entryAddr (i : ℕ) : Addr := 8 + BitVec.ofNat 64 (40 * i)

/-- The loop over the entries from `i` on, of which `n` remain. -/
def findEntry (disk bytesB : Addr → Except Stop Byte) (name : Addr) (len : ℕ) :
    ℕ → ℕ → Except Stop (Option RamdiskEntry)
  | 0, _ => .ok none
  | n + 1, i => do
    if ← streq disk bytesB (entryAddr i) name len then
      let offset ← readLe disk (entryAddr i + 32) 4
      let size ← readLe disk (entryAddr i + 36) 4
      pure (some ⟨BitVec.ofNat 32 offset, BitVec.ofNat 32 size⟩)
    else findEntry disk bytesB name len n (i + 1)

/-- `ramdisk_get_entry`; `disk` reads the image from its start, `bytesB` the name. -/
def ramdiskGetEntry (disk bytesB : Addr → Except Stop Byte) (name : Addr) (len : ℕ) :
    Except Stop (Option RamdiskEntry) := do
  let magic ← readLe disk 0 4
  if magic ≠ ramdiskMagic then pure none
  else
    let n ← readLe disk 4 4
    findEntry disk bytesB name len n 0

structure Phdr where
  pType : ℕ
  pFlags : Word
  pOffset : Addr
  pVaddr : Addr
  pFilesz : Word
  pMemsz : Word
  deriving DecidableEq

/-- The fields of a program header; those after `p_type` are only read for `PT_LOAD`. -/
def readPhdr (elf : Addr → Except Stop Byte) (a : Addr) : Except Stop (Option Phdr) := do
  let type ← readLe elf a 4
  if type ≠ ptLoad then pure none
  else
    let flags ← readLe elf (a + 4) 4
    let offset ← readLe elf (a + 8) 8
    let vaddr ← readLe elf (a + 16) 8
    let filesz ← readLe elf (a + 32) 8
    let memsz ← readLe elf (a + 40) 8
    pure (some ⟨type, BitVec.ofNat 64 flags, BitVec.ofNat 64 offset, BitVec.ofNat 64 vaddr,
      BitVec.ofNat 64 filesz, BitVec.ofNat 64 memsz⟩)

/-- A zeroed page with its first `n` bytes copied from `src`. -/
def copyIn (elf : Addr → Except Stop Byte) (src : Addr) : ℕ → Except Stop Page
  | 0 => .ok Page.zero
  | n + 1 => do
    let page ← copyIn elf src n
    let b ← elf (src + BitVec.ofNat 64 n)
    pure fun o => if o.val = n then b else page o

/-- The flags of a segment's pages: never writable and executable at once. -/
def segmentFlags (ph : Phdr) : Word :=
  let flags := pteU
  let flags := if hasFlag ph.pFlags pfR then flags ||| pteR else flags
  let flags := if hasFlag ph.pFlags pfW then flags ||| pteW else flags
  let flags := if hasFlag ph.pFlags pfX then flags ||| pteX else flags
  if flags &&& (pteW ||| pteX) = pteW ||| pteX then flags &&& ~~~pteX else flags

/-- How many file bytes the page at `current` receives. -/
def copySize (ph : Phdr) (current : Word) : ℕ :=
  if current + 4096 > ph.pFilesz then
    if ph.pFilesz > current then (ph.pFilesz - current).toNat else 0
  else 4096

/-- One page of a segment; a message stands for a return of `-1`. -/
def loadPage (elf : Addr → Except Stop Byte) (root : ℕ) (ph : Phdr) (p : Phys) (current : Word) :
    Except Stop (Option String × Phys) :=
  match pmmAllocPage p with
  | (none, _) => .error (.panic "PANIC: Out of memory loading ELF!\n")
  | (some page, p) => do
    let content ← copyIn elf (ph.pOffset + current) (copySize ph current)
    match mapPage (p.setPage page content) root (ph.pVaddr + current) (pageAddr page)
        (segmentFlags ph) with
    | (true, p) => pure (none, p)
    | (false, p) =>
      pure (some "PANIC: Out of memory mapping ELF segment!\n", pmmFreePage p (pageAddr page))

def loadPages (elf : Addr → Except Stop Byte) (root : ℕ) (ph : Phdr) :
    List Word → Phys → Except Stop (Option String × Phys)
  | [], p => .ok (none, p)
  | current :: rest, p => do
    match ← loadPage elf root ph p current with
    | (some message, p) => pure (some message, p)
    | (none, p) => loadPages elf root ph rest p

/-- The program headers at the given addresses; the number is the largest segment end. -/
def loadSegments (elf : Addr → Except Stop Byte) (root : ℕ) :
    List Addr → Addr → Phys → Except Stop (Option String × Addr × Phys)
  | [], maxEnd, p => .ok (none, maxEnd, p)
  | a :: rest, maxEnd, p => do
    match ← readPhdr elf a with
    | none => loadSegments elf root rest maxEnd p
    | some ph =>
      match ← loadPages elf root ph (pageSteps 0 ph.pMemsz) p with
      | (some message, p) => pure (some message, maxEnd, p)
      | (none, p) =>
        let segmentEnd := ph.pVaddr + ph.pMemsz
        loadSegments elf root rest (if segmentEnd > maxEnd then segmentEnd else maxEnd) p

def phdrAddrs (phoff : Addr) (phnum : ℕ) : List Addr :=
  (List.range phnum).map fun i => phoff + BitVec.ofNat 64 (56 * i)

def userStackTop : Addr := 0x40000000
def userStackBase : Addr := 0x40000000 - 4096

/-- `load_elf` into the page table of slot `i`; `false` stands for a return of `-1`. -/
def loadElf (st : KState) (i : Slot) (elf : Addr → Except Stop Byte) :
    Except Stop (Bool × KState) := do
  let root := (st.processTable i).pageTable.getD 0
  let magic ← readLe elf 0 4
  if magic ≠ elfNum then pure (false, st.puts "PANIC: Invalid ELF format!\n")
  else
    let phoff ← readLe elf 0x20 8
    let phnum ← readLe elf 0x38 2
    match ← loadSegments elf root (phdrAddrs (BitVec.ofNat 64 phoff) phnum) 0 st.phys with
    | (some message, _, phys) => pure (false, { st with phys := phys }.puts message)
    | (none, maxEnd, phys) =>
      let entry ← readLe elf 0x18 8
      let st :=
        { st with phys := phys }.setFrame i fun tf => { tf with sepc := BitVec.ofNat 64 entry }
      match pmmAllocPage st.phys with
      | (none, _) => pure (false, st.puts "PANIC: Failed to allocate user stack!\n")
      | (some page, phys) =>
        -- the source ignores whether the stack could be mapped
        let phys := (mapPage (phys.zeroPage page) root userStackBase (pageAddr page)
          (pteU ||| pteR ||| pteW)).2
        pure (true, { st with phys := phys }.modifyProc i fun p =>
          { p with
            trapFrame := { p.trapFrame with sp := userStackTop }
            heapBreak := pageCeil maxEnd
            heapMax := userStackBase - 4096 })

end Lazux
