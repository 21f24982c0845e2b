import Lazux.KernelImage

/-! # RAMDISK images

The host tool that packs files into an image (`mkramdisk`), and the two places in the kernel that
look a name up in it. -/
namespace Lazux

open PagedMemory Run

/-- A C string, without its terminator. -/
abbrev CString := {s : List Byte // 0 ∉ s}

def slash : Byte := 0x2F

/-- The loop of `get_filename`, with `p` bytes before the pointer. -/
def filenameStart (path : List Byte) : ℕ → ℕ
  | 0 => 0
  | p + 1 => if path[p]? ≠ some slash then filenameStart path p else p + 1

def getFilename (path : CString) : CString :=
  ⟨path.val.drop (filenameStart path.val path.val.length),
    fun h => path.property (List.mem_of_mem_drop h)⟩

structure InputFile where
  path : CString
  bytes : List Byte

def InputFile.basename (f : InputFile) : CString := getFilename f.path

/-- `strncpy(name, s, 31)`, and the byte after it. -/
def nameField (s : CString) : List Byte := (s.val.take 31).rightpad 31 0 ++ [0]

def leBytes : ℕ → ℕ → List Byte
  | 0, _ => []
  | n + 1, w => BitVec.ofNat 8 w :: leBytes n (w / 256)

def encodeEntry (name : CString) (e : RamdiskEntry) : List Byte :=
  nameField name ++ (leBytes 4 e.offset.toNat ++ leBytes 4 e.size.toNat)

def encodeHeader (numEntries : ℕ) : List Byte := leBytes 4 ramdiskMagic ++ leBytes 4 numEntries

/-- The first pass over the files: their names, offsets and sizes. -/
def fillEntries : BitVec 32 → List InputFile → List (CString × RamdiskEntry)
  | _, [] => []
  | currentOffset, f :: rest =>
    let size := BitVec.ofNat 32 f.bytes.length
    (getFilename f.path, ⟨currentOffset, size⟩) :: fillEntries (currentOffset + size) rest

/-- One file of the second pass, through a buffer. -/
def copyFile (out input : List Byte) : List Byte :=
  if input.length = 0 then out else copyFile (out ++ input.take 4096) (input.drop 4096)
termination_by input.length

/-- What `main` of the tool writes for its input files; without any it only shows its usage. -/
def mkramdisk : List InputFile → Option (List Byte)
  | [] => none
  | f :: rest =>
    let files := f :: rest
    let entries := fillEntries (BitVec.ofNat 32 (8 + 40 * files.length)) files
    let out := encodeHeader files.length ++ entries.flatMap fun e => encodeEntry e.1 e.2
    some (files.foldl (fun out f => copyFile out f.bytes) out)

/-- The loop of `ramdisk_find` over the entries from `i` on, of which `n` remain. -/
def findData (ramdiskStart : Addr) (disk bytesB : Addr → Except Stop Byte) (name : Addr) (len : ℕ) :
    ℕ → ℕ → Except Stop (Option Addr)
  | 0, _ => .ok none
  | n + 1, i => do
    if ← streq disk bytesB (entryAddr i) name len then
      let offset ← readLe disk (entryAddr i + 32) 4
      pure (some (ramdiskStart + (BitVec.ofNat 32 offset).setWidth 64))
    else findData ramdiskStart disk bytesB name len n (i + 1)

/-- `ramdisk_find` of `main.c`, which has its own copy of `streq`. -/
def ramdiskFind (ramdiskStart : Addr) (disk bytesB : Addr → Except Stop Byte) (name : Addr)
    (len : ℕ) : Except Stop (Option Addr) := do
  let magic ← readLe disk 0 4
  if magic ≠ ramdiskMagic then pure none
  else
    let n ← readLe disk 4 4
    findData ramdiskStart disk bytesB name len n 0

section Filename

theorem filenameStart_le (path : List Byte) (n : ℕ) : filenameStart path n ≤ n := by
  induction n with
  | zero => exact le_refl 0
  | succ n ih =>
    unfold filenameStart
    split
    · exact Nat.le_succ_of_le ih
    · exact le_refl (n + 1)

theorem filenameStart_slash (path : List Byte) (n : ℕ) :
    filenameStart path n = 0 ∨ path[filenameStart path n - 1]? = some slash := by
  induction n with
  | zero => exact Or.inl rfl
  | succ n ih =>
    unfold filenameStart
    split
    · exact ih
    · rename_i hslash
      exact Or.inr (not_not.mp hslash)

theorem filenameStart_passed (path : List Byte) (n : ℕ) {k : ℕ} (hlo : filenameStart path n ≤ k)
    (hhi : k < n) : path[k]? ≠ some slash := by
  induction n with
  | zero => exact absurd hhi (Nat.not_lt_zero k)
  | succ n ih =>
    unfold filenameStart at hlo
    split at hlo
    · rename_i hnone
      rcases Nat.lt_succ_iff_lt_or_eq.mp hhi with hlt | rfl
      · exact ih hlo hlt
      · exact hnone
    · exact absurd hhi (Nat.not_lt.mpr hlo)

/-- The name of a file is what follows the last slash of its path. -/
theorem getFilename_spec (path : CString) : slash ∉ (getFilename path).val ∧
    ∃ dir, path.val = dir ++ (getFilename path).val ∧ (dir = [] ∨ dir.getLast? = some slash) := by
  constructor
  · intro hmem
    obtain ⟨k, hk⟩ := List.mem_iff_getElem?.mp hmem
    have hget : path.val[filenameStart path.val path.val.length + k]? = some slash := by
      rw [← hk]
      exact List.getElem?_drop.symm
    obtain ⟨hlt, -⟩ := List.getElem?_eq_some_iff.mp hget
    exact filenameStart_passed path.val _ (Nat.le_add_right _ k) hlt hget
  · refine ⟨path.val.take (filenameStart path.val path.val.length),
      (List.take_append_drop _ _).symm, ?_⟩
    have hle := filenameStart_le path.val path.val.length
    rcases filenameStart_slash path.val path.val.length with h0 | hslash
    · left
      rw [h0]
      exact List.take_zero
    · by_cases h0 : filenameStart path.val path.val.length = 0
      · left
        rw [h0]
        exact List.take_zero
      · right
        rw [List.getLast?_take, if_neg h0, hslash]
        rfl

end Filename

section Bytes

variable {r : Addr → Except Stop Byte} {a : Addr} {b : Byte} {bytes rest : List Byte} {w : ℕ}

def HoldsBytes (r : Addr → Except Stop Byte) (a : Addr) (bytes : List Byte) : Prop :=
  ∀ i b, bytes[i]? = some b → r (a + BitVec.ofNat 64 i) = .ok b

theorem addr_succ (a : Addr) (i : ℕ) :
    a + BitVec.ofNat 64 (i + 1) = a + 1 + BitVec.ofNat 64 i := by
  rw [Nat.add_comm i 1, BitVec.ofNat_add, ← BitVec.add_assoc]
  rfl

theorem holdsBytes_cons :
    HoldsBytes r a (b :: bytes) ↔ r a = .ok b ∧ HoldsBytes r (a + 1) bytes := by
  constructor
  · intro h
    constructor
    · simpa using h 0 b rfl
    · intro i c hc
      rw [← addr_succ]
      exact h (i + 1) c hc
  · rintro ⟨hfirst, hrest⟩ i c hc
    cases i with
    | zero =>
      obtain rfl : b = c := Option.some.inj hc
      simpa using hfirst
    | succ i =>
      rw [addr_succ]
      exact hrest i c hc

theorem holdsBytes_append : HoldsBytes r a (bytes ++ rest) ↔
    HoldsBytes r a bytes ∧ HoldsBytes r (a + BitVec.ofNat 64 bytes.length) rest := by
  induction bytes generalizing a with
  | nil =>
    simp only [List.nil_append, List.length_nil, BitVec.add_zero, iff_and_self]
    intro _ i c hc
    cases hc
  | cons b bytes ih =>
    rw [List.cons_append, holdsBytes_cons, holdsBytes_cons, ih, List.length_cons, addr_succ,
      and_assoc]

theorem leBytes_length (n w : ℕ) : (leBytes n w).length = n := by
  induction n generalizing w with
  | zero => rfl
  | succ n ih => rw [leBytes, List.length_cons, ih]

theorem readLe_leBytes {n : ℕ} (h : HoldsBytes r a (leBytes n w)) :
    readLe r a n = .ok (w % 256 ^ n) := by
  induction n generalizing a w with
  | zero => rw [Nat.pow_zero, Nat.mod_one, readLe]
  | succ n ih =>
    obtain ⟨hlow, hhigh⟩ := holdsBytes_cons.mp h
    have hsplit : w % 256 ^ (n + 1) = w % 256 + 256 * (w / 256 % 256 ^ n) := by
      rw [Nat.pow_succ', Nat.mod_mul]
    refine bind_eq_ok.mpr ⟨_, hlow, bind_eq_ok.mpr ⟨_, ih hhigh, ?_⟩⟩
    rw [hsplit, BitVec.toNat_ofNat]
    rfl

theorem readLe_field {x : BitVec 32} (h : HoldsBytes r a (leBytes 4 x.toNat)) :
    readLe r a 4 = .ok x.toNat := by
  have hfit : x.toNat < 256 ^ 4 := x.isLt
  rw [readLe_leBytes h, Nat.mod_eq_of_lt hfit]

end Bytes

section Strings

variable {r r' : Addr → Except Stop Byte} {a b : Addr} {s t : List Byte} {len : ℕ}

theorem streq_terminated (hs : 0 ∉ s) (ht : 0 ∉ t) (h : HoldsBytes r a (s ++ [0]))
    (h' : HoldsBytes r' b (t ++ [0])) (hlen : t.length < len) :
    streq r r' a b len = .ok (decide (s = t)) := by
  induction s generalizing a b t len with
  | nil =>
    obtain ⟨n, rfl⟩ := Nat.exists_eq_add_of_lt hlen
    obtain ⟨hx, -⟩ := holdsBytes_cons.mp h
    cases t with
    | nil =>
      obtain ⟨hy, -⟩ := holdsBytes_cons.mp h'
      refine bind_eq_ok.mpr ⟨0, hx, bind_eq_ok.mpr ⟨0, hy, ?_⟩⟩
      rfl
    | cons y t =>
      obtain ⟨hy, -⟩ := holdsBytes_cons.mp h'
      refine bind_eq_ok.mpr ⟨0, hx, bind_eq_ok.mpr ⟨y, hy, ?_⟩⟩
      have hy0 : (0 : Byte) ≠ y := fun h0 => ht (h0 ▸ List.mem_cons_self)
      rw [if_neg (fun hboth => hboth.1 rfl), decide_eq_false hy0,
        decide_eq_false (List.cons_ne_nil y t).symm]
      rfl
  | cons x s ih =>
    have hx0 : x ≠ 0 := fun h0 => hs (h0 ▸ List.mem_cons_self)
    obtain ⟨hx, hrest⟩ := holdsBytes_cons.mp h
    cases t with
    | nil =>
      obtain ⟨n, rfl⟩ := Nat.exists_eq_add_of_lt hlen
      obtain ⟨hy, -⟩ := holdsBytes_cons.mp h'
      refine bind_eq_ok.mpr ⟨x, hx, bind_eq_ok.mpr ⟨0, hy, ?_⟩⟩
      rw [if_neg (fun hboth => hboth.2 rfl), decide_eq_false hx0,
        decide_eq_false (List.cons_ne_nil x s)]
      rfl
    | cons y t =>
      obtain ⟨n, rfl⟩ : ∃ n, len = n + 1 := ⟨len - 1, by omega⟩
      obtain ⟨hy, hrest'⟩ := holdsBytes_cons.mp h'
      have hy0 : y ≠ 0 := fun h0 => ht (h0 ▸ List.mem_cons_self)
      refine bind_eq_ok.mpr ⟨x, hx, bind_eq_ok.mpr ⟨y, hy, ?_⟩⟩
      rw [if_pos ⟨hx0, hy0⟩]
      by_cases hxy : x = y
      · subst hxy
        have hlt : t.length < n := Nat.lt_of_succ_lt_succ hlen
        rw [if_neg (not_not.mpr rfl), ih (fun hm => hs (List.mem_cons_of_mem x hm))
          (fun hm => ht (List.mem_cons_of_mem x hm)) hrest hrest' hlt]
        simp only [List.cons.injEq, true_and]
      · have hne : x :: s ≠ y :: t := fun heq => hxy (List.cons.inj heq).1
        rw [if_pos hxy, decide_eq_false hne]
        rfl

theorem nameField_length (s : CString) : (nameField s).length = 32 := by
  have hle : (s.val.take 31).length ≤ 31 := List.length_take_le 31 s.val
  simp only [nameField, List.rightpad, List.length_append, List.length_replicate,
    List.length_singleton]
  omega

/-- A short name is followed by its terminator. -/
theorem nameField_holds {s : CString} (hs : s.val.length ≤ 31)
    (h : HoldsBytes r a (nameField s)) : HoldsBytes r a (s.val ++ [0]) := by
  have hpad : ∃ zeros, nameField s = (s.val ++ [0]) ++ zeros := by
    rw [nameField, List.take_of_length_le hs, List.rightpad]
    cases hk : 31 - s.val.length with
    | zero => exact ⟨[], by simp⟩
    | succ k => exact ⟨List.replicate k 0 ++ [0], by simp [List.replicate_succ]⟩
  obtain ⟨zeros, hz⟩ := hpad
  rw [hz] at h
  exact (holdsBytes_append.mp h).1

end Strings

section Directory

variable {disk bytesB : Addr → Except Stop Byte} {a name ramdiskStart : Addr} {len i : ℕ}
  {s n : CString} {e : RamdiskEntry} {entries : List (CString × RamdiskEntry)}

theorem encodeEntry_length (n : CString) (e : RamdiskEntry) : (encodeEntry n e).length = 40 := by
  simp only [encodeEntry, List.length_append, nameField_length, leBytes_length]

theorem encodeEntry_holds (h : HoldsBytes disk a (encodeEntry n e)) :
    HoldsBytes disk a (nameField n) ∧ readLe disk (a + 32) 4 = .ok e.offset.toNat ∧
      readLe disk (a + 36) 4 = .ok e.size.toNat := by
  obtain ⟨hname, hnumbers⟩ := holdsBytes_append.mp h
  rw [nameField_length] at hnumbers
  obtain ⟨hoffset, hsize⟩ := holdsBytes_append.mp hnumbers
  rw [leBytes_length, BitVec.add_assoc] at hsize
  exact ⟨hname, readLe_field hoffset, readLe_field hsize⟩

theorem entryAddr_succ (i : ℕ) : entryAddr (i + 1) = entryAddr i + BitVec.ofNat 64 40 := by
  rw [entryAddr, entryAddr, Nat.mul_succ, BitVec.ofNat_add, BitVec.add_assoc]

def Directory (disk : Addr → Except Stop Byte) (i : ℕ) (entries : List (CString × RamdiskEntry)) :
    Prop :=
  HoldsBytes disk (entryAddr i) (entries.flatMap fun e => encodeEntry e.1 e.2)

theorem directory_cons : Directory disk i ((n, e) :: entries) ↔
    HoldsBytes disk (entryAddr i) (encodeEntry n e) ∧ Directory disk (i + 1) entries := by
  rw [Directory, List.flatMap_cons, holdsBytes_append, encodeEntry_length, ← entryAddr_succ]
  rfl

/-- A name in memory, and room to compare it. -/
structure Named (bytesB : Addr → Except Stop Byte) (name : Addr) (len : ℕ)
    (s : CString) : Prop where
  holds : HoldsBytes bytesB name (s.val ++ [0])
  room : s.val.length < len

theorem Named.streq_entry (h : Named bytesB name len s) (hn : n.val.length ≤ 31)
    (hentry : HoldsBytes disk a (encodeEntry n e)) :
    streq disk bytesB a name len = .ok (decide (n = s)) := by
  rw [streq_terminated n.property s.property (nameField_holds hn (encodeEntry_holds hentry).1)
    h.holds h.room]
  simp only [Subtype.ext_iff]

theorem findEntry_lookup (hshort : ∀ e ∈ entries, e.1.val.length ≤ 31)
    (hdir : Directory disk i entries) (h : Named bytesB name len s) :
    findEntry disk bytesB name len entries.length i = .ok (entries.lookup s) := by
  induction entries generalizing i with
  | nil => rfl
  | cons e rest ih =>
    obtain ⟨n, e⟩ := e
    obtain ⟨hentry, hrest⟩ := directory_cons.mp hdir
    obtain ⟨-, hoffset, hsize⟩ := encodeEntry_holds hentry
    have hcmp := h.streq_entry (hshort _ List.mem_cons_self) hentry
    refine bind_eq_ok.mpr ⟨_, hcmp, ?_⟩
    rw [List.lookup_cons]
    by_cases hn : n = s
    · rw [if_pos (decide_eq_true hn), beq_iff_eq.mpr hn.symm]
      refine bind_eq_ok.mpr ⟨_, hoffset, bind_eq_ok.mpr ⟨_, hsize, ?_⟩⟩
      rw [BitVec.ofNat_toNat, BitVec.ofNat_toNat, BitVec.setWidth_eq, BitVec.setWidth_eq]
      rfl
    · rw [if_neg (by simpa using hn), beq_eq_false_iff_ne.mpr (Ne.symm hn)]
      exact ih (fun x hx => hshort x (List.mem_cons_of_mem _ hx)) hrest

theorem findData_lookup (hshort : ∀ e ∈ entries, e.1.val.length ≤ 31)
    (hdir : Directory disk i entries) (h : Named bytesB name len s) :
    findData ramdiskStart disk bytesB name len entries.length i =
      .ok ((entries.lookup s).map fun e => ramdiskStart + e.offset.setWidth 64) := by
  induction entries generalizing i with
  | nil => rfl
  | cons e rest ih =>
    obtain ⟨n, e⟩ := e
    obtain ⟨hentry, hrest⟩ := directory_cons.mp hdir
    obtain ⟨-, hoffset, -⟩ := encodeEntry_holds hentry
    have hcmp := h.streq_entry (hshort _ List.mem_cons_self) hentry
    refine bind_eq_ok.mpr ⟨_, hcmp, ?_⟩
    rw [List.lookup_cons]
    by_cases hn : n = s
    · rw [if_pos (decide_eq_true hn), beq_iff_eq.mpr hn.symm]
      refine bind_eq_ok.mpr ⟨_, hoffset, ?_⟩
      rw [BitVec.ofNat_toNat, BitVec.setWidth_eq]
      rfl
    · rw [if_neg (by simpa using hn), beq_eq_false_iff_ne.mpr (Ne.symm hn)]
      exact ih (fun x hx => hshort x (List.mem_cons_of_mem _ hx)) hrest

end Directory

section Image

variable {files pre post : List InputFile} {f : InputFile} {off : BitVec 32} {s : CString}
  {image : List Byte}

theorem fillEntries_length (off : BitVec 32) (files : List InputFile) :
    (fillEntries off files).length = files.length := by
  induction files generalizing off with
  | nil => rfl
  | cons f rest ih => rw [fillEntries, List.length_cons, List.length_cons, ih]

theorem fillEntries_names (off : BitVec 32) (files : List InputFile) :
    (fillEntries off files).map (·.1) = files.map InputFile.basename := by
  induction files generalizing off with
  | nil => rfl
  | cons f rest ih =>
    rw [fillEntries, List.map_cons, List.map_cons, ih]
    rfl

theorem fillEntries_other (h : s ∉ files.map InputFile.basename) :
    (fillEntries off files).lookup s = none := by
  rw [List.lookup_eq_none_iff]
  intro e he
  have hmem : e.1 ∈ files.map InputFile.basename := by
    rw [← fillEntries_names off]
    exact List.mem_map_of_mem he
  exact bne_iff_ne.mpr fun heq => h (heq ▸ hmem)

/-- A file lies behind those named before it. -/
theorem fillEntries_file (h : f.basename ∉ pre.map InputFile.basename) :
    (fillEntries off (pre ++ f :: post)).lookup f.basename =
      some ⟨off + BitVec.ofNat 32 (pre.flatMap InputFile.bytes).length,
        BitVec.ofNat 32 f.bytes.length⟩ := by
  induction pre generalizing off with
  | nil =>
    rw [List.nil_append, fillEntries, List.lookup_cons]
    rw [show (f.basename == getFilename f.path) = true from beq_iff_eq.mpr rfl]
    simp
  | cons g rest ih =>
    rw [List.map_cons, List.mem_cons, not_or] at h
    have hne : (f.basename == getFilename g.path) = false := beq_eq_false_iff_ne.mpr h.1
    rw [List.cons_append, fillEntries, List.lookup_cons, hne]
    dsimp only
    rw [ih h.2, List.flatMap_cons, List.length_append, BitVec.ofNat_add, BitVec.add_assoc]

/-- However a file is cut into buffers, it is copied as a whole. -/
theorem copyFile_eq (out input : List Byte) : copyFile out input = out ++ input := by
  induction out, input using copyFile.induct with
  | case1 out input h =>
    rw [copyFile, if_pos h, List.eq_nil_of_length_eq_zero h, List.append_nil]
  | case2 out input h ih =>
    rw [copyFile, if_neg h, ih, List.append_assoc, List.take_append_drop]

theorem copyFiles_eq (out : List Byte) (files : List InputFile) :
    files.foldl (fun out f => copyFile out f.bytes) out = out ++ files.flatMap InputFile.bytes := by
  induction files generalizing out with
  | nil => rw [List.foldl_nil, List.flatMap_nil, List.append_nil]
  | cons f rest ih =>
    rw [List.foldl_cons, ih, copyFile_eq, List.append_assoc, List.flatMap_cons]

theorem mkramdisk_layout (h : mkramdisk files = some image) :
    image = encodeHeader files.length ++
      (((fillEntries (BitVec.ofNat 32 (8 + 40 * files.length)) files).flatMap fun e =>
        encodeEntry e.1 e.2) ++ files.flatMap InputFile.bytes) := by
  cases files with
  | nil => cases h
  | cons f rest =>
    rw [← Option.some.inj h, copyFiles_eq, List.append_assoc]

end Image

section RoundTrip

variable {files pre post : List InputFile} {f : InputFile} {s : CString} {image : List Byte}
  {mem disk bytesB : Addr → Except Stop Byte} {ramdiskStart name : Addr} {len : ℕ}

theorem holdsBytes_shift {a b : Addr} {bytes : List Byte} :
    HoldsBytes (fun x => mem (a + x)) b bytes ↔ HoldsBytes mem (a + b) bytes := by
  unfold HoldsBytes
  simp only [BitVec.add_assoc]

def imageEntries (files : List InputFile) : List (CString × RamdiskEntry) :=
  fillEntries (BitVec.ofNat 32 (8 + 40 * files.length)) files

theorem imageEntries_length (files : List InputFile) :
    (imageEntries files).length = files.length :=
  fillEntries_length _ files

/-- The parts of an image, each where the kernel looks for it. -/
structure Laid (disk : Addr → Except Stop Byte) (files : List InputFile) : Prop where
  magic : readLe disk 0 4 = .ok ramdiskMagic
  count : readLe disk 4 4 = .ok files.length
  entries : Directory disk 0 (imageEntries files)
  data : HoldsBytes disk (BitVec.ofNat 64 (8 + 40 * files.length))
    (files.flatMap InputFile.bytes)
  fits : 8 + 40 * files.length + (files.flatMap InputFile.bytes).length < 2 ^ 32

theorem mkramdisk_laid (hmake : mkramdisk files = some image) (hsize : image.length < 2 ^ 32)
    (hdisk : HoldsBytes disk 0 image) : Laid disk files := by
  have hlayout := mkramdisk_layout hmake
  rw [← imageEntries] at hlayout
  have hdirLength : ((imageEntries files).flatMap fun e => encodeEntry e.1 e.2).length =
      40 * files.length := by
    rw [List.length_flatMap, ← imageEntries_length files]
    simp only [encodeEntry_length, List.map_const', List.sum_replicate, smul_eq_mul, mul_comm]
  have hheadLength : (encodeHeader files.length).length = 8 := by
    rw [encodeHeader, List.length_append, leBytes_length, leBytes_length]
  rw [hlayout] at hdisk hsize
  rw [List.length_append, List.length_append, hdirLength, hheadLength] at hsize
  obtain ⟨hheader, hrest⟩ := holdsBytes_append.mp hdisk
  obtain ⟨hmagic, hcount⟩ := holdsBytes_append.mp hheader
  rw [leBytes_length] at hcount
  rw [hheadLength] at hrest
  obtain ⟨hdir, hdata⟩ := holdsBytes_append.mp hrest
  rw [hdirLength, BitVec.add_assoc, ← BitVec.ofNat_add] at hdata
  constructor
  · exact readLe_leBytes hmagic
  · have hread := readLe_leBytes hcount
    rw [Nat.mod_eq_of_lt (by omega)] at hread
    exact hread
  · exact hdir
  · exact (BitVec.zero_add (BitVec.ofNat 64 (8 + 40 * files.length))) ▸ hdata
  · omega

theorem imageEntries_short (h : ∀ f ∈ files, f.basename.val.length ≤ 31) :
    ∀ e ∈ imageEntries files, e.1.val.length ≤ 31 := by
  intro e he
  have hmem : e.1 ∈ files.map InputFile.basename := by
    rw [← fillEntries_names]
    exact List.mem_map_of_mem he
  obtain ⟨f, hf, hname⟩ := List.mem_map.mp hmem
  rw [← hname]
  exact h f hf

theorem Laid.getEntry (h : Laid disk files) (hshort : ∀ f ∈ files, f.basename.val.length ≤ 31)
    (hname : Named bytesB name len s) :
    ramdiskGetEntry disk bytesB name len = .ok ((imageEntries files).lookup s) := by
  refine bind_eq_ok.mpr ⟨_, h.magic, ?_⟩
  rw [if_neg (not_not.mpr rfl)]
  refine bind_eq_ok.mpr ⟨_, h.count, ?_⟩
  rw [← imageEntries_length files]
  exact findEntry_lookup (imageEntries_short hshort) h.entries hname

theorem Laid.find (h : Laid disk files) (hshort : ∀ f ∈ files, f.basename.val.length ≤ 31)
    (hname : Named bytesB name len s) :
    ramdiskFind ramdiskStart disk bytesB name len =
      .ok (((imageEntries files).lookup s).map fun e => ramdiskStart + e.offset.setWidth 64) := by
  refine bind_eq_ok.mpr ⟨_, h.magic, ?_⟩
  rw [if_neg (not_not.mpr rfl)]
  refine bind_eq_ok.mpr ⟨_, h.count, ?_⟩
  rw [← imageEntries_length files]
  exact findData_lookup (imageEntries_short hshort) h.entries hname

theorem Laid.file (h : Laid disk (pre ++ f :: post))
    (hnew : f.basename ∉ pre.map InputFile.basename) :
    ∃ e, (imageEntries (pre ++ f :: post)).lookup f.basename = some e ∧
      e.size.toNat = f.bytes.length ∧ HoldsBytes disk (e.offset.setWidth 64) f.bytes := by
  refine ⟨_, fillEntries_file hnew, ?_⟩
  have hdata := h.data
  have hfits := h.fits
  generalize 8 + 40 * (pre ++ f :: post).length = start at hdata hfits ⊢
  rw [List.flatMap_append, List.flatMap_cons] at hdata hfits
  rw [List.length_append, List.length_append] at hfits
  obtain ⟨-, hrest⟩ := holdsBytes_append.mp hdata
  obtain ⟨hfile, -⟩ := holdsBytes_append.mp hrest
  constructor
  · rw [BitVec.toNat_ofNat, Nat.mod_eq_of_lt (by omega)]
  · have haddr : (BitVec.ofNat 32 start +
        BitVec.ofNat 32 (pre.flatMap InputFile.bytes).length).setWidth 64 =
        BitVec.ofNat 64 start + BitVec.ofNat 64 (pre.flatMap InputFile.bytes).length := by
      rw [← BitVec.ofNat_add, ← BitVec.ofNat_add]
      apply BitVec.eq_of_toNat_eq
      rw [BitVec.toNat_setWidth, BitVec.toNat_ofNat, BitVec.toNat_ofNat]
      omega
    rw [haddr]
    exact hfile

/-- An image in memory as the kernel sees it: the file with a name is found, nothing else is, and
both lookups agree. -/
structure RoundTrip (files : List InputFile) (mem : Addr → Except Stop Byte) (ramdiskStart : Addr) :
    Prop where
  found : ∀ f ∈ files, ∀ bytesB name len, Named bytesB name len f.basename →
    ∃ e, ramdiskGetEntry (fun a => mem (ramdiskStart + a)) bytesB name len = .ok (some e) ∧
      e.size.toNat = f.bytes.length ∧
      HoldsBytes mem (ramdiskStart + e.offset.setWidth 64) f.bytes
  missing : ∀ s ∉ files.map InputFile.basename, ∀ bytesB name len, Named bytesB name len s →
    ramdiskGetEntry (fun a => mem (ramdiskStart + a)) bytesB name len = .ok none
  agree : ∀ s bytesB name len, Named bytesB name len s →
    ramdiskFind ramdiskStart (fun a => mem (ramdiskStart + a)) bytesB name len =
      (ramdiskGetEntry (fun a => mem (ramdiskStart + a)) bytesB name len).map
        (Option.map fun e => ramdiskStart + e.offset.setWidth 64)

/-- What `mkramdisk` wrote is read back by name. -/
theorem mkramdisk_round_trip (hmake : mkramdisk files = some image) (hsize : image.length < 2 ^ 32)
    (hshort : ∀ f ∈ files, f.basename.val.length ≤ 31)
    (hdistinct : (files.map InputFile.basename).Nodup)
    (himage : HoldsBytes mem ramdiskStart image) :
    RoundTrip files mem ramdiskStart := by
  have hdisk : HoldsBytes (fun a => mem (ramdiskStart + a)) 0 image := by
    rw [holdsBytes_shift]
    exact (BitVec.add_zero ramdiskStart).symm ▸ himage
  have hlaid := mkramdisk_laid hmake hsize hdisk
  constructor
  · intro f hf bytesB name len hname
    obtain ⟨pre, post, rfl⟩ := List.append_of_mem hf
    have hnew : f.basename ∉ pre.map InputFile.basename := by
      rw [List.map_append, List.map_cons] at hdistinct
      intro hmem
      exact (List.nodup_append.mp hdistinct).2.2 _ hmem _ List.mem_cons_self rfl
    obtain ⟨e, he, hlength, hbytes⟩ := hlaid.file hnew
    refine ⟨e, ?_, hlength, holdsBytes_shift.mp hbytes⟩
    rw [hlaid.getEntry hshort hname, he]
  · intro s hs bytesB name len hname
    rw [hlaid.getEntry hshort hname, imageEntries, fillEntries_other hs]
  · intro s bytesB name len hname
    rw [hlaid.find hshort hname, hlaid.getEntry hshort hname]
    rfl

theorem constByte_holds {bytes : List Byte} (h : bytes.length ≤ 2 ^ 64) :
    HoldsBytes (constByte bytes) 0 bytes := by
  intro i b hb
  obtain ⟨hlt, hget⟩ := List.getElem?_eq_some_iff.mp hb
  have hzero : (0 : Addr) + BitVec.ofNat 64 i = BitVec.ofNat 64 i := BitVec.zero_add _
  have hi : (BitVec.ofNat 64 i).toNat = i := by
    rw [BitVec.toNat_ofNat]
    exact Nat.mod_eq_of_lt (by omega)
  rw [constByte, hzero, hi, List.getD_eq_getElem?_getD, hb]
  rfl

def twoFiles : List InputFile :=
  [⟨⟨[0x64, slash, 0x61], by decide⟩, [7, 0, 7]⟩, ⟨⟨[0x62], by decide⟩, []⟩]

theorem mkramdisk_round_trip_two : ∃ image, mkramdisk twoFiles = some image ∧
    RoundTrip twoFiles (constByte image) 0 := by
  obtain ⟨image, hmake⟩ : ∃ image, mkramdisk twoFiles = some image := ⟨_, rfl⟩
  have hlength : image.length = 91 := by
    rw [mkramdisk_layout hmake]
    decide
  refine ⟨image, hmake, mkramdisk_round_trip hmake ?_ (by decide) (by decide) ?_⟩
  · rw [hlength]
    decide
  · apply constByte_holds
    rw [hlength]
    decide

/-- As long as images keep clear of its RAM the kernel finds the image it was built with. -/
theorem ramdisk_embedded {L : Layout} {ram : Memory} {st : KState}
    (h : Conducted L ram ramClear st)
    (himage : HoldsBytes (imageReader L ram) 0 image) :
    HoldsBytes st.load L.ramdiskStart image := by
  intro i b hb
  have hload := diskByte_image h (s := st) rfl (fun _ hu => hu) (fun _ _ => rfl) _ b (himage i b hb)
  have hzero : (0 : Addr) + BitVec.ofNat 64 i = BitVec.ofNat 64 i := BitVec.zero_add _
  rw [hzero] at hload
  exact hload

end RoundTrip

end Lazux
