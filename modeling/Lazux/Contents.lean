import Lazux.Completeness

/-! # What a load puts where

The loader copies whole pages from the file. A page step of a segment fills the page its address
lies in from the start of that page on, whatever the offset of the segment in the page is. -/
namespace Lazux

open PagedMemory RadixForest Run

section Steps

variable {elf : Addr → Except Stop Byte} {ph : Phdr} {pl : List Placement} {cs : List Word}
  {as : List Addr} {maxEnd maxEnd' : Addr}

def segmentAt (elf : Addr → Except Stop Byte) (a : Addr) : Option Phdr :=
  (readPhdr elf a).toOption.join

def segmentsAt (elf : Addr → Except Stop Byte) (as : List Addr) : List Phdr :=
  as.filterMap (segmentAt elf)

def segments (elf : Addr → Except Stop Byte) : List Phdr :=
  match readLe elf 0x20 8, readLe elf 0x38 2 with
  | .ok phoff, .ok phnum => segmentsAt elf (phdrAddrs (BitVec.ofNat 64 phoff) phnum)
  | _, _ => []

/-- The steps in which pages are loaded: a segment and how far into it. -/
def loadSteps (l : List Phdr) : List (Phdr × Word) :=
  l.flatMap fun ph => (pageSteps 0 ph.pMemsz).map fun c => (ph, c)

/-- The step that loads page `q` last. -/
def lastStep (l : List (Phdr × Word)) (q : PageNo) : Option (Phdr × Word) :=
  l.reverse.find? fun s => pageNo (s.1.pVaddr + s.2) = q

/-- Byte `k` of a segment: from the file, or zero. -/
def fileByte (elf : Addr → Except Stop Byte) (ph : Phdr) (k : ℕ) : Except Stop Byte :=
  if k < ph.pFilesz.toNat then elf (ph.pOffset + BitVec.ofNat 64 k) else .ok 0

structure Carried (elf : Addr → Except Stop Byte) (s : Phdr × Word) (x : Placement) : Prop where
  page : x.page = pageNo (s.1.pVaddr + s.2)
  flags : x.flags = segmentFlags s.1
  content : pageContent elf s.1 s.2 = .ok x.content

theorem segmentAt_eq {a : Addr} {r : Option Phdr} (h : readPhdr elf a = .ok r) :
    segmentAt elf a = r := by
  rw [segmentAt, h]
  cases r <;> rfl

theorem planPages_carried (h : planPages elf ph cs = .ok pl) :
    List.Forall₂ (Carried elf) (cs.map fun c => (ph, c)) pl := by
  induction cs generalizing pl with
  | nil =>
    cases h
    exact .nil
  | cons c cs ih =>
    obtain ⟨content, hc, h⟩ := bind_eq_ok.mp h
    obtain ⟨later, hlater, h⟩ := bind_eq_ok.mp h
    cases h
    exact .cons ⟨rfl, rfl, (pageContent_eq elf ph c).trans hc⟩ (ih hlater)

theorem planSegments_carried (h : planSegments elf as maxEnd = .ok (pl, maxEnd')) :
    List.Forall₂ (Carried elf) (loadSteps (segmentsAt elf as)) pl := by
  induction as generalizing maxEnd pl with
  | nil =>
    cases h
    exact .nil
  | cons a as ih =>
    obtain ⟨r, hr, h⟩ := bind_eq_ok.mp h
    have hseg := segmentAt_eq hr
    cases r with
    | none =>
      rw [segmentsAt, List.filterMap_cons_none hseg]
      exact ih h
    | some ph =>
      obtain ⟨pages, hpages, h⟩ := bind_eq_ok.mp h
      obtain ⟨⟨later, m⟩, hlater, h⟩ := bind_eq_ok.mp h
      cases h
      rw [segmentsAt, List.filterMap_cons_some hseg, loadSteps, List.flatMap_cons]
      exact List.rel_append (planPages_carried hpages) (ih hlater)

theorem lastAt_carried {l : List (Phdr × Word)} (h : List.Forall₂ (Carried elf) l pl) (q : PageNo) :
    Option.Rel (Carried elf) (lastStep l q) (lastAt pl q) := by
  have hrev : List.Forall₂ (Carried elf) l.reverse pl.reverse := List.rel_reverse h
  unfold lastStep lastAt
  generalize l.reverse = l₁ at hrev ⊢
  generalize pl.reverse = l₂ at hrev ⊢
  induction hrev with
  | nil => exact .none
  | @cons s x l' pl' hs hrest ih =>
    rw [List.find?_cons, List.find?_cons, hs.page]
    by_cases hq : pageNo (s.1.pVaddr + s.2) = q
    · simp only [hq, decide_true]
      exact .some hs
    · simp only [hq, decide_false]
      exact ih

theorem planSegments_end (h : planSegments elf as maxEnd = .ok (pl, maxEnd')) :
    maxEnd.toNat ≤ maxEnd'.toNat ∧
      (∀ ph ∈ segmentsAt elf as, (ph.pVaddr + ph.pMemsz).toNat ≤ maxEnd'.toNat) ∧
      (maxEnd' = maxEnd ∨ ∃ ph ∈ segmentsAt elf as, maxEnd' = ph.pVaddr + ph.pMemsz) := by
  induction as generalizing maxEnd pl with
  | nil =>
    cases h
    exact ⟨le_rfl, fun ph hph => absurd hph List.not_mem_nil, Or.inl rfl⟩
  | cons a as ih =>
    obtain ⟨r, hr, h⟩ := bind_eq_ok.mp h
    have hseg := segmentAt_eq hr
    cases r with
    | none =>
      rw [segmentsAt, List.filterMap_cons_none hseg]
      exact ih h
    | some ph =>
      obtain ⟨pages, hpages, h⟩ := bind_eq_ok.mp h
      obtain ⟨⟨later, m⟩, hlater, h⟩ := bind_eq_ok.mp h
      cases h
      obtain ⟨hle, hall, hlast⟩ := ih hlater
      rw [segmentsAt, List.filterMap_cons_some hseg]
      have hmax : maxEnd.toNat ≤ maxEnd'.toNat ∧ (ph.pVaddr + ph.pMemsz).toNat ≤ maxEnd'.toNat := by
        split at hle
        · rename_i hgt
          have hgt : maxEnd.toNat < (ph.pVaddr + ph.pMemsz).toNat := hgt
          omega
        · rename_i hgt
          have hgt : (ph.pVaddr + ph.pMemsz).toNat ≤ maxEnd.toNat := Nat.le_of_not_lt hgt
          omega
      refine ⟨hmax.1, fun ph' hph' => ?_, ?_⟩
      · rcases List.mem_cons.mp hph' with rfl | hph'
        · exact hmax.2
        · exact hall ph' hph'
      · rcases hlast with hlast | ⟨ph', hph', he⟩
        · split at hlast
          · exact Or.inr ⟨ph, List.mem_cons_self, hlast⟩
          · exact Or.inl hlast
        · exact Or.inr ⟨ph', List.mem_cons_of_mem _ hph', he⟩

theorem copyIn_bytes {src : Addr} {n : ℕ} {page : Page} (h : copyIn elf src n = .ok page)
    (o : Fin 4096) :
    (o.val < n → elf (src + BitVec.ofNat 64 o.val) = .ok (page o)) ∧ (n ≤ o.val → page o = 0) := by
  induction n generalizing page with
  | zero =>
    cases h
    exact ⟨fun ho => absurd ho (Nat.not_lt_zero _), fun _ => rfl⟩
  | succ n ih =>
    obtain ⟨page', hpage, h⟩ := bind_eq_ok.mp h
    obtain ⟨b, hb, h⟩ := bind_eq_ok.mp h
    cases h
    obtain ⟨hread, hzero⟩ := ih hpage
    by_cases hn : o.val = n
    · simp only [hn, if_true]
      exact ⟨fun _ => hb, fun hle => by omega⟩
    · simp only [hn, if_false]
      exact ⟨fun hlt => hread (by omega), fun hle => hzero (by omega)⟩

theorem copySize_toNat {c : Word} (hc : c.toNat + 4096 < 2 ^ 64) :
    copySize ph c = min 4096 (ph.pFilesz.toNat - c.toNat) := by
  have hsum : (c + 4096).toNat = c.toNat + 4096 := by
    rw [BitVec.toNat_add]
    exact Nat.mod_eq_of_lt hc
  unfold copySize
  split
  · rename_i hgt
    have hgt : ph.pFilesz.toNat < (c + 4096).toNat := hgt
    split
    · rename_i hmore
      have hmore : c.toNat < ph.pFilesz.toNat := hmore
      rw [BitVec.toNat_sub_of_le (BitVec.le_of_lt hmore)]
      omega
    · rename_i hmore
      have hmore : ph.pFilesz.toNat ≤ c.toNat := Nat.le_of_not_lt hmore
      omega
  · rename_i hgt
    have hgt : (c + 4096).toNat ≤ ph.pFilesz.toNat := Nat.le_of_not_lt hgt
    omega

theorem Carried.byte {s : Phdr × Word} {x : Placement} (h : Carried elf s x)
    (hc : s.2.toNat + 4096 < 2 ^ 64) (o : Fin 4096) :
    fileByte elf s.1 (s.2.toNat + o.val) = .ok (x.content o) := by
  have hcopy := h.content
  rw [pageContent_eq] at hcopy
  obtain ⟨hread, hzero⟩ := copyIn_bytes hcopy o
  rw [copySize_toNat hc] at hread hzero
  have ho := o.isLt
  unfold fileByte
  split
  · rename_i hlt
    have haddr : s.1.pOffset + BitVec.ofNat 64 (s.2.toNat + o.val) =
        s.1.pOffset + s.2 + BitVec.ofNat 64 o.val := by
      rw [BitVec.ofNat_add, BitVec.ofNat_toNat, BitVec.setWidth_eq, BitVec.add_assoc]
    rw [haddr]
    exact hread (by omega)
  · rename_i hge
    rw [hzero (by omega)]

end Steps

section Built

variable {L : Layout} {st st' : KState} {i : Slot} {elf : Addr → Except Stop Byte}

/-- Two segments share no byte. -/
def Phdr.Apart (a b : Phdr) : Prop := ∀ k < a.pMemsz.toNat, ∀ k' < b.pMemsz.toNat,
  a.pVaddr + BitVec.ofNat 64 k ≠ b.pVaddr + BitVec.ofNat 64 k'

instance : Std.Symm Phdr.Apart := ⟨fun _ _ h k hk k' hk' he => h k' hk' k hk he.symm⟩

/-- The segments lie in the file and below the guard page of the stack, leave the device pages
alone and share no byte. -/
structure WellFormed (elf : Addr → Except Stop Byte) : Prop where
  sizes : ∀ ph ∈ segments elf, ph.pFilesz.toNat ≤ ph.pMemsz.toNat
  inFile : ∀ ph ∈ segments elf, ∀ k < ph.pFilesz.toNat,
    ∃ b, elf (ph.pOffset + BitVec.ofNat 64 k) = .ok b
  below : ∀ ph ∈ segments elf, ph.pVaddr.toNat + ph.pMemsz.toNat ≤ 0x3FFFE000
  clear : ∀ ph ∈ segments elf, ∀ k < ph.pMemsz.toNat,
    ¬ DevicePage (pageNo (ph.pVaddr + BitVec.ofNat 64 k)).number
  disjoint : (segments elf).Pairwise Phdr.Apart

/-- The byte a program finds at `va`, if the page is mapped for it. -/
def userByte (st : KState) (i : Slot) (va : Addr) : Option Byte :=
  if UserLeaf (entryOf st i (pageNo va)) then
    some (st.phys.mem (frame (pteToPa (entryOf st i (pageNo va)))) (offset va))
  else none

/-- The address space holds the segments byte by byte; the program starts at its entry point,
and its heap at the first page boundary after all segments. -/
structure ImageBuilt (i : Slot) (elf : Addr → Except Stop Byte) (st' : KState) : Prop where
  bytes : ∀ ph ∈ segments elf, ∀ k < ph.pMemsz.toNat, ∃ b, fileByte elf ph k = .ok b ∧
    userByte st' i (ph.pVaddr + BitVec.ofNat 64 k) = some b
  entry : ∃ e, readLe elf 0x18 8 = .ok e ∧ (st'.frameOf i).sepc = BitVec.ofNat 64 e
  heap : IsLeast {n | n % 4096 = 0 ∧ ∀ ph ∈ segments elf, ph.pVaddr.toNat + ph.pMemsz.toNat ≤ n}
    (st'.processTable i).heapBreak.toNat

/-- At every address of a segment the last step for the page, which may be one of another
segment, has a permission and copies the right byte there. -/
def BytesInPlace (elf : Addr → Except Stop Byte) : Prop :=
  ∀ ph ∈ segments elf, ∀ k < ph.pMemsz.toNat, ∃ s,
    lastStep (loadSteps (segments elf)) (pageNo (ph.pVaddr + BitVec.ofNat 64 k)) = some s ∧
    isLeaf (segmentFlags s.1) ∧
    fileByte elf s.1 (s.2.toNat + (offset (ph.pVaddr + BitVec.ofNat 64 k)).val) = fileByte elf ph k

theorem segments_eq {phoff phnum : ℕ} (hoff : readLe elf 0x20 8 = .ok phoff)
    (hnum : readLe elf 0x38 2 = .ok phnum) :
    segments elf = segmentsAt elf (phdrAddrs (BitVec.ofNat 64 phoff) phnum) := by
  rw [segments, hoff, hnum]

theorem WellFormed.below_stack (hwf : WellFormed elf) {ph : Phdr} (hph : ph ∈ segments elf) {k : ℕ}
    (hk : k < ph.pMemsz.toNat) :
    pageNo (ph.pVaddr + BitVec.ofNat 64 k) ≠ pageNo userStackBase := by
  intro he
  have hbelow := hwf.below ph hph
  have hva : (ph.pVaddr + BitVec.ofNat 64 k).toNat = ph.pVaddr.toNat + k := by
    rw [BitVec.toNat_add, BitVec.toNat_ofNat]
    omega
  have hnum := congrArg PageNo.number he
  rw [number_pageNo, number_pageNo, hva] at hnum
  have hstack : userStackBase.toNat = 0x3FFFF000 := by decide
  rw [hstack] at hnum
  omega

theorem mem_of_lastStep {l : List (Phdr × Word)} {q : PageNo} {s : Phdr × Word}
    (h : lastStep l q = some s) : s ∈ l ∧ pageNo (s.1.pVaddr + s.2) = q := by
  refine ⟨List.mem_reverse.mp (List.mem_of_find?_eq_some h), ?_⟩
  simpa using List.find?_some h

theorem mem_loadSteps {l : List Phdr} {s : Phdr × Word} :
    s ∈ loadSteps l ↔ s.1 ∈ l ∧ s.2 ∈ pageSteps 0 s.1.pMemsz := by
  simp only [loadSteps, List.mem_flatMap, List.mem_map]
  constructor
  · rintro ⟨ph, hph, c, hc, rfl⟩
    exact ⟨hph, hc⟩
  · rintro ⟨hph, hc⟩
    exact ⟨s.1, hph, s.2, hc, rfl⟩

theorem step_lt (hwf : WellFormed elf) {s : Phdr × Word} (hs : s ∈ loadSteps (segments elf)) :
    s.2.toNat + 4096 < 2 ^ 64 := by
  obtain ⟨hph, hc⟩ := mem_loadSteps.mp hs
  obtain ⟨k, hk, he⟩ := mem_pageSteps.mp hc
  have hbelow := hwf.below s.1 hph
  have hzero : (0 : Addr).toNat = 0 := rfl
  rw [hzero] at hk
  rw [he, BitVec.toNat_add, BitVec.toNat_ofNat, hzero]
  omega

theorem Image.userByte_eq {pl : List Placement} (hb : Bare L st i)
    (h : Image L st i pl st') (hflags : ∀ x ∈ pl, UserFlags x.flags) {va : Addr}
    (hva : pageNo va ≠ pageNo userStackBase) :
    userByte st' i va = (lastAt pl (pageNo va)).bind fun x =>
      if isLeaf x.flags then some (x.content (offset va)) else none := by
  unfold userByte
  cases hl : lastAt pl (pageNo va) with
  | none =>
    rw [h.entry_none hva hl, hb.entries, if_neg (userLeaf_kernelEntry _)]
    rfl
  | some x =>
    obtain ⟨n, hn, he, hcontent⟩ := h.entry_some hva hl
    have hx := hflags x (lastAt_some hl).1
    have hleaf : UserLeaf (userWord n x.flags) ↔ isLeaf x.flags := by
      rw [← isLeaf_userWord_iff (n := n)]
      exact ⟨fun hu => hu.2.1, fun hl => ⟨userWord_valid n _, hl, userWord_user hx⟩⟩
    rw [he, Option.bind_some, frame_userWord hx hn, hcontent]
    exact if_congr hleaf rfl rfl

/-- A load makes the image its file describes exactly when the pages happen to receive the right
bytes. -/
theorem image_built_iff (hb : Bare L st i) (h : loadElf st i elf = .ok (true, st'))
    (hwf : WellFormed elf) : ImageBuilt i elf st' ↔ BytesInPlace elf := by
  obtain ⟨phoff, phnum, start, pl, maxEnd, hplan, himage, hproc⟩ := hb.loaded h
  have hseg := segments_eq hplan.phoff_eq hplan.phnum_eq
  have hcarried := planSegments_carried hplan.segments
  rw [← hseg] at hcarried
  have hfind := fun {va : Addr} (hva : pageNo va ≠ pageNo userStackBase) =>
    himage.userByte_eq hb (planSegments_userFlags hplan.segments) hva
  constructor
  · intro hbuilt ph hph k hk
    obtain ⟨b, hfile, huser⟩ := hbuilt.bytes ph hph k hk
    rw [hfind (hwf.below_stack hph hk)] at huser
    obtain ⟨x, hx, hbyte⟩ := Option.bind_eq_some_iff.mp huser
    have hrel := lastAt_carried hcarried (pageNo (ph.pVaddr + BitVec.ofNat 64 k))
    rw [hx] at hrel
    cases hs : lastStep (loadSteps (segments elf)) (pageNo (ph.pVaddr + BitVec.ofNat 64 k)) with
    | none =>
      rw [hs] at hrel
      cases hrel
    | some s =>
      rw [hs] at hrel
      cases hrel with
      | some hcar =>
        have hlt := step_lt hwf (mem_of_lastStep hs).1
        split at hbyte
        · rename_i hleaf
          cases hbyte
          refine ⟨s, rfl, ?_, ?_⟩
          · rw [← hcar.flags]
            exact hleaf
          · rw [hcar.byte hlt, hfile]
        · cases hbyte
  · intro hplace
    refine ⟨fun ph hph k hk => ?_, ⟨start, hplan.start_eq, ?_⟩, ?_⟩
    · obtain ⟨s, hs, hleaf, hfile⟩ := hplace ph hph k hk
      have hrel := lastAt_carried hcarried (pageNo (ph.pVaddr + BitVec.ofNat 64 k))
      rw [hs] at hrel
      cases hx : lastAt pl (pageNo (ph.pVaddr + BitVec.ofNat 64 k)) with
      | none =>
        rw [hx] at hrel
        cases hrel
      | some x =>
        rw [hx] at hrel
        cases hrel with
        | some hcar =>
          have hlt := step_lt hwf (mem_of_lastStep hs).1
          refine ⟨x.content (offset (ph.pVaddr + BitVec.ofNat 64 k)), ?_, ?_⟩
          · rw [← hfile, hcar.byte hlt]
          · rw [hfind (hwf.below_stack hph hk), hx, Option.bind_some, if_pos]
            rw [hcar.flags]
            exact hleaf
    · rw [KState.frameOf, hproc]
    · obtain ⟨-, hall, hlast⟩ := planSegments_end hplan.segments
      rw [← hseg] at hall hlast
      have hend : ∀ ph ∈ segments elf,
          (ph.pVaddr + ph.pMemsz).toNat = ph.pVaddr.toNat + ph.pMemsz.toNat := by
        intro ph hph
        have hbelow := hwf.below ph hph
        rw [BitVec.toNat_add]
        omega
      have hmax : maxEnd.toNat ≤ 0x3FFFE000 := by
        rcases hlast with rfl | ⟨ph, hph, rfl⟩
        · exact Nat.zero_le _
        · rw [hend ph hph]
          exact hwf.below ph hph
      rw [hproc]
      dsimp only
      rw [pageCeil_toNat (by omega)]
      constructor
      · refine ⟨Nat.mul_mod_left _ _, fun ph hph => ?_⟩
        have hle := hall ph hph
        rw [hend ph hph] at hle
        omega
      · rintro n ⟨hn, hends⟩
        rcases hlast with rfl | ⟨ph, hph, rfl⟩
        · exact Nat.zero_le _
        · have hle := hends ph hph
          rw [hend ph hph]
          omega

theorem bytesInPlace_of_aligned (hwf : WellFormed elf) (hal : ∀ ph ∈ segments elf,
    ph.pVaddr.toNat % 4096 = 0 ∧ isLeaf (segmentFlags ph)) : BytesInPlace elf := by
  intro ph hph k hk
  have hbelow := hwf.below ph hph
  have hva : (ph.pVaddr + BitVec.ofNat 64 k).toNat = ph.pVaddr.toNat + k := by
    rw [BitVec.toNat_add, BitVec.toNat_ofNat]
    omega
  have halign := (hal ph hph).1
  -- the step of this segment that covers the byte
  have hcovers : ∃ s ∈ loadSteps (segments elf),
      pageNo (s.1.pVaddr + s.2) = pageNo (ph.pVaddr + BitVec.ofNat 64 k) := by
    refine ⟨(ph, BitVec.ofNat 64 (4096 * (k / 4096))), mem_loadSteps.mpr ⟨hph, ?_⟩, ?_⟩
    · refine mem_pageSteps.mpr ⟨k / 4096, ?_, (BitVec.zero_add _).symm⟩
      have hzero : (0 : Addr).toNat = 0 := rfl
      dsimp only
      omega
    · apply number_inj
      rw [number_pageNo, number_pageNo, hva, BitVec.toNat_add, BitVec.toNat_ofNat]
      dsimp only
      omega
  cases hs : lastStep (loadSteps (segments elf)) (pageNo (ph.pVaddr + BitVec.ofNat 64 k)) with
  | none =>
    obtain ⟨s, hmem, hpage⟩ := hcovers
    have hno := List.find?_eq_none.mp hs s (List.mem_reverse.mpr hmem)
    exact absurd hpage (by simpa using hno)
  | some s =>
    obtain ⟨hmem, hpage⟩ := mem_of_lastStep hs
    obtain ⟨hph', hc⟩ := mem_loadSteps.mp hmem
    obtain ⟨j, hj, hstep⟩ := mem_pageSteps.mp hc
    have hbelow' := hwf.below s.1 hph'
    obtain ⟨halign', hleaf⟩ := hal s.1 hph'
    have hzero : (0 : Addr).toNat = 0 := rfl
    rw [hzero] at hj
    have hoff : s.2.toNat = 4096 * j := by
      rw [hstep, BitVec.toNat_add, BitVec.toNat_ofNat, hzero]
      omega
    have hstart : s.1.pVaddr.toNat + 4096 * j = ph.pVaddr.toNat + 4096 * (k / 4096) := by
      have hnum := congrArg PageNo.number hpage
      rw [number_pageNo, number_pageNo, hva, BitVec.toNat_add, hoff] at hnum
      omega
    -- both segments have the first byte of the page
    have hsame : s.1 = ph := by
      by_contra hne
      have hmeet : s.1.pVaddr + BitVec.ofNat 64 (4096 * j) =
          ph.pVaddr + BitVec.ofNat 64 (4096 * (k / 4096)) := by
        apply BitVec.eq_of_toNat_eq
        rw [BitVec.toNat_add, BitVec.toNat_add, BitVec.toNat_ofNat, BitVec.toNat_ofNat]
        omega
      have hapart : s.1.Apart ph := hwf.disjoint.forall hph' hph hne
      exact hapart _ (by omega) _ (by omega) hmeet
    rw [hsame] at hstart
    refine ⟨s, rfl, hleaf, ?_⟩
    rw [hsame]
    congr 1
    show s.2.toNat + (ph.pVaddr + BitVec.ofNat 64 k).toNat % 4096 = k
    rw [hva]
    omega

/-- An `init.elf` with one segment of zeroes at a page boundary. -/
def alignedImage : InitImage smallLayout (segmentRam 0x400000 0) where
  entry := ⟨48, 120⟩
  phoff := 64
  phnum := 1
  start := 0x400000
  placements := [⟨pageNo 0x400000, Page.zero, pteU ||| pteR ||| pteW⟩]
  maxEnd := 0x401000
  found := by rfl
  plan := ⟨by rfl, by rfl, by rfl, by rfl, segment_plan (by rfl) (by rfl) (by decide) (by decide)⟩
  fits := pages_fit _ (by decide)

/-- The same segment a few bytes further on, where it reaches into a second page. -/
def skewedImage : InitImage smallLayout (segmentRam 0x400010 0) where
  entry := ⟨48, 120⟩
  phoff := 64
  phnum := 1
  start := 0x400000
  placements := [⟨pageNo 0x400010, Page.zero, pteU ||| pteR ||| pteW⟩]
  maxEnd := 0x401010
  found := by rfl
  plan := ⟨by rfl, by rfl, by rfl, by rfl, segment_plan (by rfl) (by rfl) (by decide) (by decide)⟩
  fits := pages_fit _ (by decide)

theorem segments_single {va filesz : Word}
    (hoff : readLe elf 0x20 8 = .ok 64) (hnum : readLe elf 0x38 2 = .ok 1)
    (hph : readPhdr elf 64 = .ok (some ⟨1, 6, 0, va, filesz, 4096⟩)) :
    segments elf = [⟨1, 6, 0, va, filesz, 4096⟩] := by
  rw [segments_eq hoff hnum]
  have haddrs : phdrAddrs (BitVec.ofNat 64 64) 1 = [64] := by decide
  rw [haddrs, segmentsAt, List.filterMap_cons_some (segmentAt_eq hph), List.filterMap_nil]

theorem wellFormed_single {va filesz : Word}
    (hseg : segments elf = [⟨1, 6, 0, va, filesz, 4096⟩]) (hsize : filesz.toNat ≤ 4096)
    (hfile : ∀ k < filesz.toNat, ∃ b, elf (0 + BitVec.ofNat 64 k) = .ok b)
    (hlow : 0x400000 ≤ va.toNat) (hhigh : va.toNat ≤ 0x401000) : WellFormed elf := by
  refine ⟨?_, ?_, ?_, ?_, ?_⟩
  all_goals rw [hseg]
  · intro ph hph
    obtain rfl := List.mem_singleton.mp hph
    exact hsize
  · intro ph hph k hk
    obtain rfl := List.mem_singleton.mp hph
    exact hfile k hk
  · intro ph hph
    obtain rfl := List.mem_singleton.mp hph
    have hsize : (4096 : Word).toNat = 4096 := rfl
    dsimp only
    omega
  · intro ph hph k hk hdev
    obtain rfl := List.mem_singleton.mp hph
    have hsize : (4096 : Word).toNat = 4096 := rfl
    dsimp only at hk hdev
    rw [number_pageNo, BitVec.toNat_add, BitVec.toNat_ofNat] at hdev
    simp only [DevicePage, plicBase, plicSize, uart0Base] at hdev
    omega
  · exact List.pairwise_singleton _ _

/-- A page of which the first bytes come from the file. -/
theorem image_built_iff_self : ∃ st i elf st', Bare smallLayout st i ∧
    loadElf st i elf = .ok (true, st') ∧ WellFormed elf ∧ ImageBuilt i elf st' := by
  obtain ⟨st, h⟩ := boot_returns selfImage
  obtain ⟨mid, i, elf, fin, hb, -, hl, hfile⟩ := booted_loads h
  have hread := hfile selfImage
  have hseg : segments elf = [⟨1, 6, 0, 0x400000, 24, 4096⟩] :=
    segments_single (readLe_below hread _ _ _ (by rfl)) (readLe_below hread _ _ _ (by rfl))
      (readPhdr_below hread _ _ (by rfl))
  have hbytes : ∀ k < (24 : Word).toNat, ∃ b, elf (0 + BitVec.ofNat 64 k) = .ok b := by
    intro k hk
    obtain ⟨b, hb⟩ := selfFile_ok hk
    exact ⟨b, hread _ b hb⟩
  have hwf := wellFormed_single hseg (by decide) hbytes (by decide) (by decide)
  refine ⟨mid, i, elf, fin, hb, hl, hwf, (image_built_iff hb hl hwf).mpr ?_⟩
  apply bytesInPlace_of_aligned hwf
  rw [hseg]
  intro ph hph
  obtain rfl := List.mem_singleton.mp hph
  exact ⟨by decide, by decide⟩

/-- The end of a segment that starts inside a page is not mapped. -/
theorem skewed_segment : ∃ st i elf st', Bare smallLayout st i ∧
    loadElf st i elf = .ok (true, st') ∧ WellFormed elf ∧ ¬ ImageBuilt i elf st' := by
  obtain ⟨st, h⟩ := boot_returns skewedImage
  obtain ⟨mid, i, elf, fin, hb, -, hl, hfile⟩ := booted_loads h
  have hread := hfile skewedImage
  have hseg : segments elf = [⟨1, 6, 0, 0x400010, 0, 4096⟩] :=
    segments_single (readLe_below hread _ _ _ (by rfl)) (readLe_below hread _ _ _ (by rfl))
      (readPhdr_below hread _ _ (by rfl))
  have hwf := wellFormed_single hseg (by decide) (fun k hk => absurd hk (Nat.not_lt_zero _))
    (by decide) (by decide)
  refine ⟨mid, i, elf, fin, hb, hl, hwf, fun hbuilt => ?_⟩
  have hplace := (image_built_iff hb hl hwf).mp hbuilt
  rw [BytesInPlace, hseg] at hplace
  obtain ⟨s, hs, -⟩ := hplace _ (List.mem_singleton_self _) 4095 (by decide)
  obtain ⟨hmem, hpage⟩ := mem_of_lastStep hs
  have hsteps : loadSteps [⟨1, 6, 0, 0x400010, 0, 4096⟩] = [(⟨1, 6, 0, 0x400010, 0, 4096⟩, 0)] := by
    decide
  rw [hsteps] at hmem
  obtain rfl := List.mem_singleton.mp hmem
  exact absurd hpage (by decide)

end Built

end Lazux
