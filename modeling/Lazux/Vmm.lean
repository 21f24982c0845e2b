import Lazux.Pmm

/-! # Page tables (`mm/vmm.c`, `include/vmm.h`)

Tables are named by their frame. A function that can halt the kernel returns
`Except Stop`. -/
namespace Lazux

open PagedMemory

def pteV : Word := 0x1
def pteR : Word := 0x2
def pteW : Word := 0x4
def pteX : Word := 0x8
def pteU : Word := 0x10

def hasFlag (pte flag : Word) : Bool := pte &&& flag != 0

/-- `(pte & PTE_R) || (pte & PTE_W) || (pte & PTE_X)`. -/
def isLeaf (pte : Word) : Bool := hasFlag pte pteR || hasFlag pte pteW || hasFlag pte pteX

def pteToPa (pte : Word) : Addr := (pte >>> 10) <<< 12
def paToPte (pa : Addr) : Word := (pa >>> 12) <<< 10

def vpn (va : Addr) (level : ℕ) : Fin 512 :=
  ⟨(va >>> (12 + 9 * level)).toNat % 512, Nat.mod_lt _ (by decide)⟩

/-- `a & ~0xFFF`. -/
def pageFloor (a : Addr) : Addr := a &&& ~~~(0xFFF : Addr)

/-- `(a + 0xFFF) & ~0xFFF`, in 64-bit arithmetic. -/
def pageCeil (a : Addr) : Addr := pageFloor (a + 0xFFF)

/-- The addresses of `for (a = start; a < stop; a += 4096)`. -/
def pageSteps (start stop : Addr) : List Addr :=
  (List.range ((stop.toNat - start.toNat + 4095) / 4096)).map fun k =>
    start + BitVec.ofNat 64 (4096 * k)

/-- The body of the loop of `free_page_table`; `below` frees a lower table. -/
def freeEntry (below : Addr → Phys → Phys) (pt : ℕ) (p : Phys) (i : Fin 512) : Phys :=
  let pte := p.pte pt i
  if hasFlag pte pteV then
    if isLeaf pte then if hasFlag pte pteU then pmmFreePage p (pteToPa pte) else p
    else below (pteToPa pte) p
  else p

def freePageTable : ℕ → ℕ → Phys → Phys
  | 0, pt, p => (List.finRange 512).foldl (freeEntry (fun _ p => p) pt) p
  | level + 1, pt, p =>
    (List.finRange 512).foldl
      (freeEntry (fun pa p => pmmFreePage (freePageTable level (frame pa) p) pa) pt) p

/-- The leaf entry of `va`, as the table it lies in and its index. -/
def vmmLookup (m : Memory) (root : ℕ) (va : Addr) : Option (ℕ × Fin 512) :=
  let pte := (m root).word (vpn va 2)
  if hasFlag pte pteV then
    let pte := (m (frame (pteToPa pte))).word (vpn va 1)
    if hasFlag pte pteV then some (frame (pteToPa pte), vpn va 0) else none
  else none

/-- One level of the descent of `map_page`: the table entry `i` of `table` points to,
allocated if it is missing. -/
def nextTable (p : Phys) (table : ℕ) (i : Fin 512) : Option ℕ × Phys :=
  let pte := p.pte table i
  if hasFlag pte pteV then (some (frame (pteToPa pte)), p)
  else match pmmAllocPage p with
    | (none, p) => (none, p)
    | (some new, p) => (some new, (p.zeroPage new).setPte table i (paToPte (pageAddr new) ||| pteV))

/-- Returns whether the page was mapped; the source's `-1` is `false`. -/
def mapPage (p : Phys) (root : ℕ) (va pa : Addr) (flags : Word) : Bool × Phys :=
  match nextTable p root (vpn va 2) with
  | (none, p) => (false, p)
  | (some mid, p) =>
    match nextTable p mid (vpn va 1) with
    | (none, p) => (false, p)
    | (some low, p) => (true, p.setPte low (vpn va 0) (paToPte pa ||| flags ||| pteV))

def vmmUnmapRange (p : Phys) (root : ℕ) (start stop : Addr) : Phys :=
  (pageSteps start stop).foldl (fun p a =>
    match vmmLookup p.mem root a with
    | none => p
    | some (table, i) =>
      let pte := p.pte table i
      if hasFlag pte pteV then (pmmFreePage p (pteToPa pte)).setPte table i 0 else p) p

def mapIdentityRange (root : ℕ) (start stop : Addr) (flags : Word) (p : Phys) :
    Except Stop Phys :=
  (pageSteps start stop).foldlM (fun p addr =>
    match mapPage p root addr addr flags with
    | (true, p) => .ok p
    | (false, _) => .error (.panic "PANIC: vmm_map_kernel out of memory!\n")) p

def vmmMapKernel (L : Layout) (root : ℕ) (p : Phys) : Except Stop Phys := do
  let p ← mapIdentityRange root (pageAddr textStart) (pageAddr L.textEnd) (pteR ||| pteX) p
  let p ← mapIdentityRange root (pageAddr L.textEnd) (pageAddr L.rodataEnd) pteR p
  let p ← mapIdentityRange root (pageAddr L.rodataEnd) (pageAddr L.kernelEnd) (pteR ||| pteW) p
  let p ← mapIdentityRange root (pageAddr L.kernelEnd)
    (BitVec.ofNat 64 (physicalRamStart + physicalRamSize)) (pteR ||| pteW) p
  let p ← mapIdentityRange root (BitVec.ofNat 64 uart0Base)
    (BitVec.ofNat 64 (uart0Base + uart0Size)) (pteR ||| pteW) p
  mapIdentityRange root (BitVec.ofNat 64 plicBase) (BitVec.ofNat 64 (plicBase + plicSize))
    (pteR ||| pteW) p

def vmmFreePt (root : ℕ) (p : Phys) : Phys := pmmFreePage (freePageTable 2 root p) (pageAddr root)

/-- The body of the loop of `vmm_copy_uvm` below the check of the top level; `next` is
the recursive call. -/
def copyEntry (next : ℕ → ℕ → Phys → Except Stop Phys) (level parent child : ℕ) (p : Phys)
    (i : Fin 512) : Except Stop Phys :=
  let pte := p.pte parent i
  if !hasFlag pte pteV then .ok p
  else if isLeaf pte then
    if !hasFlag pte pteU then .ok p
    else match pmmAllocPage p with
      | (none, _) => .error (.panic "PANIC: vmm_copy_uvm out of memory!\n")
      | (some new, p) =>
        .ok ((p.setPage new (p.mem (frame (pteToPa pte)))).setPte child i
          (paToPte (pageAddr new) ||| (pte &&& 0x3FF)))
  else if level = 0 then
    .error (.panic "PANIC: vmm_copy_uvm: invalid non-leaf PTE at level 0!\n")
  else
    let childPte := p.pte child i
    if hasFlag childPte pteV then
      if isLeaf childPte then
        .error (.panic "PANIC: vmm_copy_uvm: child has a leaf where parent has a table!\n")
      else next (frame (pteToPa pte)) (frame (pteToPa childPte)) p
    else match pmmAllocPage p with
      | (none, _) => .error (.panic "PANIC: vmm_copy_uvm out of memory!\n")
      | (some new, p) =>
        next (frame (pteToPa pte)) new
          ((p.zeroPage new).setPte child i (paToPte (pageAddr new) ||| pteV))

def vmmCopyUvm : ℕ → ℕ → ℕ → Phys → Except Stop Phys
  | 0, parent, child, p =>
    (List.finRange 512).foldlM (copyEntry (fun _ _ p => .ok p) 0 parent child) p
  | level + 1, parent, child, p =>
    (List.finRange 512).foldlM (fun p i =>
      -- only user memory: VPN[2] < 2, below 2 GB
      if level + 1 = 2 ∧ i.val ≥ 2 then .ok p
      else copyEntry (vmmCopyUvm level) (level + 1) parent child p i) p

end Lazux
