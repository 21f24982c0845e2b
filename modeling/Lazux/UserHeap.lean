import Lazux.Integrity

/-! # The kernel under the allocator

What the running program can read and write is what its page table maps for it. Its stores change
one byte of that, and `SYS_SBRK` answers and changes it as the allocator assumes. -/
namespace Lazux

open PagedMemory RadixForest Run

/-- The bytes the running program can both read and write. -/
def userBytes (st : KState) : ByteMemory.Bytes := fun va =>
  (userTranslate st.phys.mem st.satp .write va).map st.phys.mem.byte

def userOf (st : KState) (base : Addr) : User := ⟨userBytes st, st.current.heapBreak, base⟩

/-- An entry that lets the program write. -/
def WriteLeaf (w : Word) : Prop := HardwareLeaf w ∧ hasFlag w pteU ∧ hasFlag w pteW

instance (w : Word) : Decidable (WriteLeaf w) := inferInstanceAs (Decidable (_ ∧ _ ∧ _))

section Bytes

variable {L : Layout} {ram : Memory} {st st' : KState} {va x : Addr} {b : Byte} {q : PageNo}

theorem userBytes_eq (hset : Settled L st) (va : Addr) :
    userBytes st va = if Canonical va ∧ WriteLeaf (entryOf st st.currentProc (pageNo va)) then
      some (st.phys.mem (frame (pteToPa (entryOf st st.currentProc (pageNo va)))) (offset va))
    else none := by
  have hroot := hset.steady.root hset.sound
  have hthree := hset.sound.owned.threeLevel hroot
  have hiff := fun pa => @userTranslate_iff _ _ .write va pa hthree
  rw [← hroot] at hiff
  unfold userBytes
  split
  · rename_i h
    obtain ⟨hc, hleaf, hu, hw⟩ := h
    rw [(hiff _).mpr ⟨hc, hleaf, hu, hw, rfl⟩, Option.map_some]
    have hoff : offset (leafPa (entryOf st st.currentProc (pageNo va)) 0 va) = offset va := by
      apply Fin.ext
      show (leafPa _ 0 va).toNat % 4096 = va.toNat % 4096
      rw [leafPa_toNat]
      omega
    rw [← hoff, ← frame_leafPa _ va]
    rfl
  · rename_i h
    cases ht : userTranslate st.phys.mem st.satp .write va with
    | none => rfl
    | some pa =>
      obtain ⟨hc, hleaf, hu, hw, -⟩ := (hiff pa).mp ht
      exact absurd ⟨hc, hleaf, hu, hw⟩ h

theorem WriteLeaf.held (h : WriteLeaf (entryOf st st.currentProc q)) :
    held st.phys (trees st) (.node st.currentProc q.leaf) =
      some (frame (pteToPa (entryOf st st.currentProc q))) := by
  obtain ⟨hleaf, hu, -⟩ := h
  rw [held_leaf]
  change decodePte 2 (entryOf st st.currentProc q) = _
  rw [decodePte, if_neg (by norm_num), if_pos ⟨rfl, hleaf.1, hu, hardwareLeaf_isLeaf hleaf⟩]

theorem userBytes_congr (hset : Settled L st) (hset' : Settled L st')
    (hcur : st'.currentProc = st.currentProc)
    (he : entryOf st' st.currentProc (pageNo va) = entryOf st st.currentProc (pageNo va))
    (hmem : ∀ f, InUse st.phys f → (∀ path, path.length ≤ 2 →
      held st.phys (trees st) (.node st.currentProc path) ≠ some f) →
      st'.phys.mem f = st.phys.mem f) : userBytes st' va = userBytes st va := by
  rw [userBytes_eq hset, userBytes_eq hset', hcur, he]
  by_cases h : Canonical va ∧ WriteLeaf (entryOf st st.currentProc (pageNo va))
  · rw [if_pos h, if_pos h, hmem]
    · exact (hset.sound.owned.inUse _ _ h.2.held).1
    · intro path hp hf
      have hsame := hset.sound.owned.distinct _ _ _ h.2.held hf
      exact leaf_ne_table _ _ _ path hp hsame
  · rw [if_neg h, if_neg h]

theorem userTranslate_unique (hset : Settled L st) {pa : Addr}
    (h : userTranslate st.phys.mem st.satp .write va = some pa)
    (h' : userTranslate st.phys.mem st.satp .write x = some pa) : x = va := by
  have hroot := hset.steady.root hset.sound
  have hthree := hset.sound.owned.threeLevel hroot
  have htarget : ∀ {y}, userTranslate st.phys.mem st.satp .write y = some pa →
      Target st.phys st.satp true y pa := by
    intro y hy
    obtain ⟨hc, hleaf, hu, hw, hpa⟩ := (userTranslate_iff hthree).mp hy
    exact ⟨(kernelTranslate_iff hthree).mpr ⟨hc, hleaf, fun _ => rfl, hw, hpa⟩, hu⟩
  exact (htarget h').unique (htarget h) hset.sound.owned hroot

theorem userBytes_store {pa : Addr} (hset : Settled L st)
    (h : userTranslate st.phys.mem st.satp .write va = some pa) (b : Byte) :
    userBytes { st with phys := { st.phys with mem := st.phys.mem.setByte pa b } } =
      Function.update (userBytes st) va (some b) := by
  have hroot := hset.steady.root hset.sound
  have hwrites := userWrites_user hset.sound.owned hroot h b
  have htrans : ∀ y, userTranslate (st.phys.mem.setByte pa b) st.satp .write y =
      userTranslate st.phys.mem st.satp .write y := by
    intro y
    have he := hwrites.entry_eq st.currentProc (pageNo y)
    rw [hroot] at he
    apply Option.ext
    intro pa'
    rw [userTranslate_iff ((hwrites.owned hset.sound.owned).threeLevel hroot),
      userTranslate_iff (hset.sound.owned.threeLevel hroot), he]
  funext y
  unfold userBytes
  dsimp only
  rw [htrans]
  by_cases hy : y = va
  · rw [hy, Function.update_self, h, Option.map_some, byte_setByte]
  · rw [Function.update_of_ne hy]
    cases ht : userTranslate st.phys.mem st.satp .write y with
    | none => rfl
    | some pa' =>
      have hne : pa' ≠ pa := by
        rintro rfl
        exact hy (userTranslate_unique hset h ht)
      rw [Option.map_some, Option.map_some, byte_setByte_ne _ hne]

end Bytes

section Answers

variable {L : Layout} {ram : Memory} {st st' : KState} {start : Slot → Addr} {regs : TrapFrame}
  {input : Input} {w : Word} {brk va : Addr}

theorem Untouched.userBytes_eq (h : Untouched st st') (hset : Settled L st) (hset' : Settled L st')
    (hcur : st'.currentProc = st.currentProc) : userBytes st' = userBytes st := by
  funext va
  exact userBytes_congr hset hset' hcur (h.entries _ _) h.contents

theorem writeLeaf_heap (n : ℕ) : WriteLeaf (userWord n (pteU ||| pteR ||| pteW)) := by
  obtain ⟨hu, hr, hw⟩ := heapLeaf_data n
  exact ⟨⟨hu.1, Or.inl hr, fun _ => hr⟩, hu.2.2, hw⟩

theorem canonical_low (hc : Canonical va) (h : (pageNo va).number < 2 ^ 26) :
    va.toNat = (pageNo va).number * 4096 + va.toNat % 4096 := by
  have hnum := number_pageNo va
  have hlow : (BitVec.ofNat 64 (va.toNat % 2 ^ 39)).toNat = va.toNat % 2 ^ 39 := by
    rw [BitVec.toNat_ofNat]
    omega
  have hsame : va = BitVec.ofNat 64 (va.toNat % 2 ^ 39) := by
    apply canonical_inj hc (canonical_of_lt (by omega))
    · rw [pageNo_eq_iff, hlow]
      omega
    · rw [hlow]
      omega
  have := congrArg BitVec.toNat hsame
  omega

theorem Extended.userBytes_eq (h : Extended st brk st') (hset : Settled L st)
    (hset' : Settled L st') (hcur : st'.currentProc = st.currentProc)
    (hhigh : brk.toNat ≤ 0x3FFFE000) (va : Addr) :
    userBytes st' va = if pageCeil st.current.heapBreak ≤ va ∧ va < pageCeil brk then some 0
      else userBytes st va := by
  have hbrk := pageCeil_toNat (a := brk) (by omega)
  have hnum := number_pageNo va
  have hlt := va.isLt
  have hold : (pageCeil st.current.heapBreak).toNat % 4096 = 0 := by
    rw [pageCeil, pageFloor_toNat]
    omega
  split
  · rename_i hin
    rw [BitVec.le_def, BitVec.lt_def] at hin
    obtain ⟨-, n, -, hzero, hn, he⟩ := h.new (pageNo va) (by omega) (by omega)
    rw [Lazux.userBytes_eq hset', hcur, he, if_pos ⟨canonical_of_lt (by omega), writeLeaf_heap n⟩,
      frame_userWord userFlags_heap hn, hzero]
    rfl
  · rename_i hout
    rw [BitVec.le_def, BitVec.lt_def] at hout
    by_cases hc : Canonical va
    · refine userBytes_congr hset hset' hcur (h.entries _ _ fun _ => ?_) h.contents
      by_contra hin
      have hlow := canonical_low hc (by omega)
      omega
    · rw [Lazux.userBytes_eq hset, Lazux.userBytes_eq hset', if_neg fun h => hc h.1,
        if_neg fun h => hc h.1]

/-- The answer of `SYS_SBRK`, and what the caller sees then. -/
structure SbrkSeen (st : KState) (base : Addr) (frames : Bool) (increment : Word) (st' : KState) :
    Prop where
  answer : (st'.frameOf st.currentProc).a0 = ((userOf st base).sysSbrk frames increment).1
  seen : userOf st' base = ((userOf st base).sysSbrk frames increment).2

theorem Answers.seen (h : Answers st st' w brk) (hcur : st'.currentProc = st.currentProc)
    (base : Addr) : userOf st' base = ⟨userBytes st', brk, base⟩ := by
  obtain ⟨f, hp⟩ := h.process
  have hb : st'.current.heapBreak = brk := by
    show (st'.processTable st'.currentProc).heapBreak = brk
    rw [hcur, hp]
  rw [userOf, hb]

theorem sbrk_seen (h : Watched L ram heaped heapStart start st) (h8 : regs.scause = 8)
    (h7 : regs.a7 = sysSbrk) (hc : Clear st regs.a0) (base : Addr) :
    ∃ st' frames, takeTrap L regs input st = .ok st' ∧ SbrkSeen st base frames regs.a0 st' := by
  have hset := reachable_settled h.conducted.reachable
  have hk := watched_heaps h _ hset.steady.used
  obtain ⟨st', hret, hexact⟩ := @sbrk_step _ _ _ input hset _ hk h8 h7 hc
  have hdel : Delivered regs.scause := by
    intro hmsb
    rw [h8] at hmsb
    exact absurd hmsb (by decide)
  have hset' := settled_step hset (.trap st regs input st' hdel hret)
  have hcur : ∀ {w brk}, Answers st st' w brk → st'.currentProc = st.currentProc := fun ha =>
    hset'.steady.frame.symm.trans ha.resumed
  have hmax : st.current.heapMax = heapLimit := hk.max
  -- an answer that leaves everything as it is
  have same : ∀ {w}, Answers st st' w st.current.heapBreak → Untouched st st' →
      (st'.frameOf st.currentProc).a0 = w ∧ userOf st' base = userOf st base := by
    intro w ha hu
    refine ⟨ha.answer, ?_⟩
    rw [ha.seen (hcur ha), hu.userBytes_eq hset hset' (hcur ha)]
    rfl
  by_cases h0 : regs.a0 = 0
  · obtain ⟨ha, hu⟩ := hexact.query h0
    obtain ⟨hw, hseen⟩ := same ha hu
    refine ⟨st', true, hret, ?_, ?_⟩
    · rw [User.sysSbrk, if_pos h0]
      exact hw
    · rw [User.sysSbrk, if_pos h0]
      exact hseen
  cases hmsb : regs.a0.msb with
  | true =>
    obtain ⟨ha, hu⟩ := hexact.negative hmsb
    obtain ⟨hw, hseen⟩ := same ha hu
    refine ⟨st', true, hret, ?_, ?_⟩
    · rw [User.sysSbrk, if_neg h0, if_pos hmsb]
      exact hw
    · rw [User.sysSbrk, if_neg h0, if_pos hmsb]
      exact hseen
  | false =>
    have hneg : ¬ regs.a0.msb = true := by
      rw [hmsb]
      exact Bool.false_ne_true
    have hrefused : st.current.heapMax.toNat < st.current.heapBreak.toNat + regs.a0.toNat ∨
        ¬ HeapFits st regs.a0 →
        ∃ st' frames, takeTrap L regs input st = .ok st' ∧ SbrkSeen st base frames regs.a0 st' := by
      intro hor
      obtain ⟨ha, hu⟩ := hexact.refused h0 hmsb hor
      obtain ⟨hw, hseen⟩ := same ha hu
      refine ⟨st', false, hret, ?_, ?_⟩
      · rw [User.sysSbrk, if_neg h0, if_neg hneg]
        split
        · exact hw
        · exact hw
      · rw [User.sysSbrk, if_neg h0, if_neg hneg]
        split
        · exact hseen
        · exact hseen
    by_cases hlimit : st.current.heapBreak.toNat + regs.a0.toNat ≤ st.current.heapMax.toNat
    · by_cases hfit : HeapFits st regs.a0
      · obtain ⟨ha, hext⟩ := hexact.granted h0 hmsb hlimit hfit
        have hl : st.current.heapMax.toNat = 0x3FFFE000 := by
          rw [hmax]
          exact heapLimit_toNat
        have hsum : (st.current.heapBreak + regs.a0).toNat =
            st.current.heapBreak.toNat + regs.a0.toNat := by
          rw [BitVec.toNat_add]
          exact Nat.mod_eq_of_lt (by omega)
        have hle : ¬ (userOf st base).heapBreak + regs.a0 > heapLimit := by
          show ¬ st.current.heapBreak + regs.a0 > heapLimit
          rw [gt_iff_lt, BitVec.lt_def, hsum, ← hmax]
          omega
        refine ⟨st', true, hret, ?_, ?_⟩
        · rw [User.sysSbrk, if_neg h0, if_neg hneg, if_neg hle, if_pos rfl]
          exact ha.answer
        · rw [User.sysSbrk, if_neg h0, if_neg hneg, if_neg hle, if_pos rfl, ha.seen (hcur ha)]
          have hbytes : userBytes st' = ((userOf st base).grow regs.a0).mem := by
            funext va
            exact hext.userBytes_eq hset hset' (hcur ha) (by omega) va
          rw [hbytes]
          rfl
      · exact hrefused (Or.inr hfit)
    · exact hrefused (Or.inl (Nat.lt_of_not_le hlimit))

end Answers

section Top

/-- A RAMDISK whose `init.elf` has its code and its data in the last two pages there are. -/
def topDisk : List Byte :=
  [0x55, 0x5A, 0x41, 0x4C, 1, 0, 0, 0] ++ initName ++ List.replicate 24 0 ++
    [48, 0, 0, 0, 176, 0, 0, 0] ++
    [0x7F, 0x45, 0x4C, 0x46] ++ List.replicate 20 0 ++ le8 0xFFFFFFFFFFFFE000 ++ le8 64 ++
    List.replicate 16 0 ++ [2, 0, 0, 0, 0, 0, 0, 0] ++
    [1, 0, 0, 0, 5, 0, 0, 0] ++ le8 0 ++ le8 0xFFFFFFFFFFFFE000 ++ le8 0 ++
    le8 0 ++ le8 4096 ++ le8 0 ++
    [1, 0, 0, 0, 6, 0, 0, 0] ++ le8 0 ++ le8 0xFFFFFFFFFFFFF000 ++ le8 0 ++
    le8 0 ++ le8 2048 ++ le8 0

def topRam : Memory := fun f o => if f = 0x80201 then topDisk.getD o.val 0 else 0

def topFile (a : Addr) : Except Stop Byte :=
  imageReader smallLayout topRam ((48 : BitVec 32).setWidth 64 + a)

def topPlacements : List Placement :=
  [⟨pageNo 0xFFFFFFFFFFFFE000, Page.zero, pteU ||| pteR ||| pteX⟩,
    ⟨pageNo 0xFFFFFFFFFFFFF000, Page.zero, pteU ||| pteR ||| pteW⟩]

theorem top_plan : planSegments topFile (phdrAddrs 64 2) 0 =
    .ok (topPlacements, 0xFFFFFFFFFFFFF800) := by
  have haddrs : phdrAddrs 64 2 = [64, 120] := by decide
  have hcode : readPhdr topFile 64 = .ok (some ⟨1, 5, 0, 0xFFFFFFFFFFFFE000, 0, 4096⟩) := by rfl
  have hdata : readPhdr topFile 120 = .ok (some ⟨1, 6, 0, 0xFFFFFFFFFFFFF000, 0, 2048⟩) := by rfl
  have hsteps : pageSteps 0 4096 = [0] := by decide
  have hsteps' : pageSteps 0 2048 = [0] := by decide
  have hflags : segmentFlags ⟨1, 5, 0, 0, 0, 0⟩ = pteU ||| pteR ||| pteX := by decide
  have hflags' : segmentFlags ⟨1, 6, 0, 0, 0, 0⟩ = pteU ||| pteR ||| pteW := by decide
  have hcopy : copySize ⟨1, 5, 0, 0xFFFFFFFFFFFFE000, 0, 4096⟩ 0 = 0 := by rfl
  have hcopy' : copySize ⟨1, 6, 0, 0xFFFFFFFFFFFFF000, 0, 2048⟩ 0 = 0 := by rfl
  have hend : (0xFFFFFFFFFFFFE000 : Addr) + 4096 = 0xFFFFFFFFFFFFF000 := by decide
  have hend' : (0xFFFFFFFFFFFFF000 : Addr) + 2048 = 0xFFFFFFFFFFFFF800 := by decide
  have hlt : (0xFFFFFFFFFFFFF000 : Addr) > 0 := by decide
  have hlt' : (0xFFFFFFFFFFFFF800 : Addr) > 0xFFFFFFFFFFFFF000 := by decide
  change segmentFlags ⟨1, 5, 0, 0xFFFFFFFFFFFFE000, 0, 4096⟩ = _ at hflags
  change segmentFlags ⟨1, 6, 0, 0xFFFFFFFFFFFFF000, 0, 2048⟩ = _ at hflags'
  simp only [haddrs, planSegments, hcode, hdata, planPages, hsteps, hsteps', hcopy, hcopy', copyIn,
    hflags, hflags', hend, hend', if_pos hlt, if_pos hlt', bind, Except.bind, pure,
    Except.pure, List.append_nil]
  rfl

/-- An `init.elf` at the end of the address space. -/
def topImage : InitImage smallLayout topRam where
  entry := ⟨48, 176⟩
  phoff := 64
  phnum := 2
  start := 0xFFFFFFFFFFFFE000
  placements := topPlacements
  maxEnd := 0xFFFFFFFFFFFFF800
  found := by rfl
  plan := ⟨by rfl, by rfl, by rfl, by rfl, top_plan⟩
  fits := pages_fit _ (by decide)

/-- Its heap starts at address 0, and so a run loses its first block. -/
theorem heap_at_zero : ∃ st, Reachable smallLayout topRam st ∧ st.current.heapBreak = 0 ∧
    ¬ ∀ l u, Uses Succeeds st.current.heapBreak l u → Integrity l u := by
  obtain ⟨st, h⟩ := boot_returns topImage
  obtain ⟨elf, phoff, phnum, start, pl, maxEnd, -, hinst, -, himg⟩ := installed h
  have hend : maxEnd = 0xFFFFFFFFFFFFF800 := (himg topImage).2.2
  have hzero : st.current.heapBreak = 0 := by
    rw [hinst.heapBreak, hend]
    decide
  refine ⟨st, .boot st h, hzero, fun hall => ?_⟩
  rw [hzero] at hall
  obtain ⟨l, u, hruns, -, hnot⟩ := first_block_lost
  exact hnot (hall l u hruns).list

end Top

end Lazux
