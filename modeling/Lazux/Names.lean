import Lazux.KernelImage
import Lazux.UserHeap

/-! # File names in user memory

`SYS_EXEC` and `SYS_OPEN` check a name byte by byte before they look it up. -/
namespace Lazux

open PagedMemory RadixForest Run

section Access

variable {ι : Type*} {H : Forest ι} {lo root n : ℕ} {i : ι} {s : KState} {va : Addr}
  {flags need : Word}

theorem userWord_read (hflag : hasFlag flags pteR) : hasFlag (userWord n flags) pteR := by
  rw [hasFlag_pteR] at hflag ⊢
  rw [getLsbD_userWord (by norm_num), BitVec.getLsbD_or, hflag, Bool.true_or]

/-- The kernel comes to a page of the running program under the program's address. -/
theorem translate_data {acc : Access} (ho : Owned lo H s.phys) (hr : H.root i = some s.satp)
    (hflag : hasFlag flags pteR) (hacc : permits (userWord n flags) acc)
    (he : entry s.phys.mem (some s.satp) (pageNo va) = userWord n flags) (hc : Canonical va) :
    kernelTranslate s.phys.mem s.satp true acc va = some (leafPa (userWord n flags) 0 va) := by
  have hread : hasFlag (userWord n flags) pteR := userWord_read hflag
  rw [kernelTranslate_iff (ho.threeLevel hr), he]
  exact ⟨hc, ⟨userWord_valid n flags, Or.inl hread, fun _ => hread⟩, fun _ => rfl, hacc, rfl⟩

/-- And reads it if it may be read. -/
theorem load_data (ho : Owned lo H s.phys) (hr : H.root i = some s.satp) (hsum : s.sum = true)
    (hf : UserFlags flags) (hflag : hasFlag flags pteR)
    (he : entry s.phys.mem (some s.satp) (pageNo va) = userWord n flags)
    (hn : n < 2 ^ 44) (hc : Canonical va) : s.load va = .ok (s.phys.mem n (offset va)) := by
  have htrans : kernelTranslate s.phys.mem s.satp s.sum .read va =
      some (leafPa (userWord n flags) 0 va) := by
    rw [hsum]
    exact translate_data ho hr hflag (userWord_read hflag) he hc
  have hoff : offset (leafPa (userWord n flags) 0 va) = offset va := by
    apply Fin.ext
    show (leafPa _ 0 va).toNat % 4096 = va.toNat % 4096
    rw [leafPa_toNat]
    omega
  have hframe : frame (leafPa (userWord n flags) 0 va) = n := by
    rw [frame_leafPa, frame_userWord hf hn]
  rw [KState.load, kernelLoad, htrans]
  simp only [Memory.byte, hoff, hframe]

theorem need_read {w : Word} (h : hasFlag w pteR) : pteR &&& ~~~w = 0 := by
  rw [hasFlag_pteR] at h
  have hbit : pteR = BitVec.twoPow 64 1 := by decide
  rw [hbit, BitVec.twoPow_and]
  simp [h]

theorem need_write {w : Word} (h : hasFlag w pteW) : pteW &&& ~~~w = 0 := by
  rw [hasFlag_pteW] at h
  have hbit : pteW = BitVec.twoPow 64 2 := by decide
  rw [hbit, BitVec.twoPow_and]
  simp [h]

/-- And finds that the program may use a part of it so. -/
theorem rangeOk_page {m : Memory} {len : ℕ} (hva : va ≠ 0) (hlen : 0 < len)
    (hfit : va.toNat + len + 4095 < 2 ^ 64)
    (hneed : Permissions need) (hf : UserFlags flags) (hflag : need &&& ~~~(userWord n flags) = 0)
    (he : ∀ k < len, entry m (some root) (pageNo (va + BitVec.ofNat 64 k)) = userWord n flags) :
    userRangeOk m root va (BitVec.ofNat 64 len) need = true := by
  refine (userRangeOk_of_fit hva hneed hlen hfit).mpr ⟨by omega, fun k hk => ?_⟩
  have he := he k hk
  generalize va + BitVec.ofNat 64 k = a at he ⊢
  cases ht : tableAt m (some root) (pageNo a).low with
  | none =>
    have hvalid := userWord_valid n flags
    rw [← he, entry, ht, Option.map_none, Option.getD_none] at hvalid
    exact absurd hvalid (by decide)
  | some f =>
    have hword : (m f).word (vpn a 0) = userWord n flags := by
      rw [← he, entry, ht]
      rfl
    refine ⟨f, vpn a 0, ?_, ?_⟩
    · rw [vmmLookup_eq, ht]
      rfl
    · rw [hword]
      exact ⟨userWord_valid _ _, userWord_user hf, hflag⟩

theorem rangeOk_data {m : Memory} (hva : va ≠ 0) (hfit : va.toNat + 4096 < 2 ^ 64)
    (hneed : Permissions need) (hf : UserFlags flags) (hflag : need &&& ~~~(userWord n flags) = 0)
    (he : entry m (some root) (pageNo va) = userWord n flags) :
    userRangeOk m root va 1 need = true := by
  refine @rangeOk_page _ _ _ _ _ m 1 hva one_pos (by omega) hneed hf hflag fun k hk => ?_
  obtain rfl : k = 0 := by omega
  rw [show va + BitVec.ofNat 64 0 = va from BitVec.add_zero va]
  exact he

end Access

/-- Whether a string ends within `n` bytes, as far as it can be read. -/
def strEnds (r : Addr → Except Stop Byte) (s : Addr) : ℕ → Except Stop Bool
  | 0 => .error .spin
  | n + 1 => do
    let c ← r s
    if c = 0 then pure true else strEnds r (s + 1) n

theorem userStrOk_below {r load : Addr → Except Stop Byte} {m : Memory} {root : ℕ}
    (hrange : ∀ a b, r a = .ok b → userRangeOk m root a 1 pteR = true)
    (hload : ∀ a, Below (r a) (load a)) (s : Addr) (n : ℕ) :
    Below (strEnds r s n) (userStrOk m root load s n) := by
  induction n generalizing s with
  | zero =>
    intro b hb
    cases hb
  | succ n ih =>
    intro b hb
    obtain ⟨c, hc, hb⟩ := bind_eq_ok.mp hb
    rw [userStrOk, hrange s c hc, Bool.not_true, if_neg Bool.false_ne_true]
    refine bind_eq_ok.mpr ⟨c, hload s c hc, ?_⟩
    split at hb
    · rename_i h0
      rw [if_pos h0]
      exact hb
    · rename_i h0
      rw [if_neg h0]
      exact ih (s + 1) b hb

section Page

variable {L : Layout} {ram : Memory} {st : KState} {regs : TrapFrame} {q : PageNo} {n : ℕ}
  {content : Page} {pl : List Placement} {start : ℕ} {maxEnd : Addr} {name : Addr} {flags : Word}

def pageReader (q : PageNo) (content : Page) (a : Addr) : Except Stop Byte :=
  if pageNo a = q ∧ a.toNat < 2 ^ 38 ∧ a ≠ 0 then .ok (content (offset a)) else .error .spin

theorem Installed.stack_entry (h : Installed L st pl start maxEnd)
    (hfree : freeFrames st.phys ≠ 0) :
    ∃ n, entryOf st st.currentProc (pageNo userStackBase) =
      userWord n (pteU ||| pteR ||| pteW) := by
  obtain ⟨p0, p1, page, -, -, -, -, -, hstack⟩ := h.memory
  cases hstack with
  | mapped hp hf =>
    refine ⟨page, ?_⟩
    rw [entryOf, hp.entries, if_pos rfl]
    rfl
  | lost T hT hp hfull => exact absurd hfull hfree

theorem Installed.entry_some (h : Installed L st pl start maxEnd) (hnd : (pl.map (·.page)).Nodup)
    {x : Placement} (hx : x ∈ pl) (hq : x.page ≠ pageNo userStackBase) :
    ∃ n, n < 2 ^ 44 ∧ entryOf st st.currentProc x.page = userWord n x.flags ∧
      st.phys.mem n = x.content := by
  obtain ⟨p0, p1, page, -, -, -, -, hreal, hstack⟩ := h.memory
  obtain ⟨n, hf, he⟩ := hreal.present _ _ (lastAt_of_nodup hnd hx)
  obtain ⟨T, m, hg⟩ := hstack.grows
  have hfilled := hf.grow hg
  refine ⟨n, ?_, ?_, hfilled.content⟩
  · have hram := hfilled.inUse.1.2
    simp only [ramLast] at hram
    omega
  · rw [entryOf, hstack.entry_of_ne hq]
    exact he

theorem sum_entered (st : KState) : (entered st).sum = true := by
  show (st.sstatus ||| 0x40000).getLsbD 18 = true
  rw [BitVec.getLsbD_or]
  simp

theorem page_load {ι : Type*} {H : Forest ι} {lo : ℕ} {i : ι} {s : KState}
    (ho : Owned lo H s.phys) (hr : H.root i = some s.satp) (hsum : s.sum = true)
    (hf : UserFlags flags) (hflag : hasFlag flags pteR)
    (he : entry s.phys.mem (some s.satp) q = userWord n flags) (hn : n < 2 ^ 44) (a : Addr) :
    Below (pageReader q (s.phys.mem n) a) (s.load a) := by
  intro b hb
  unfold pageReader at hb
  split_ifs at hb with hin
  cases hb
  obtain ⟨rfl, hlow, -⟩ := hin
  exact load_data ho hr hsum hf hflag he hn (canonical_of_lt hlow)

theorem page_read (hset : Settled L st) (hf : UserFlags flags) (hflag : hasFlag flags pteR)
    (he : entryOf st st.currentProc q = userWord n flags) (hn : n < 2 ^ 44) (a : Addr) :
    Below (pageReader q (st.phys.mem n) a) ((entered (saveFrame regs st)).load a) := by
  have hroot := hset.steady.root hset.sound
  rw [entryOf, hroot] at he
  exact page_load (s := entered (saveFrame regs st)) hset.sound.owned hroot (sum_entered _) hf hflag
    he hn a

theorem page_ok {need : Word} (hset : Settled L st) (hneed : Permissions need)
    (hf : UserFlags flags) (hflag : need &&& ~~~(userWord n flags) = 0)
    (he : entryOf st st.currentProc q = userWord n flags) (a : Addr) (b : Byte)
    (hb : pageReader q content a = .ok b) :
    userRangeOk (entered (saveFrame regs st)).phys.mem
      ((entered (saveFrame regs st)).rootOf st.currentProc) a 1 need = true := by
  unfold pageReader at hb
  split_ifs at hb with hin
  obtain ⟨rfl, hlow, hne⟩ := hin
  have hroot : (entered (saveFrame regs st)).rootOf st.currentProc = st.rootOf st.currentProc := by
    obtain ⟨f, hp, -⟩ := process_entered hset.steady regs st.currentProc
    rw [KState.rootOf, hp]
    rfl
  rw [hroot]
  apply rangeOk_data (n := n) hne (by omega) hneed hf hflag
  rw [entryOf, hset.sound.root hset.steady.used] at he
  exact he

theorem userStrOk_page (hset : Settled L st) (hf : UserFlags flags) (hflag : hasFlag flags pteR)
    (he : entryOf st st.currentProc q = userWord n flags) (hn : n < 2 ^ 44)
    (hend : strEnds (pageReader q (st.phys.mem n)) name nameMax = .ok true) :
    userStrOk (entered (saveFrame regs st)).phys.mem
      ((entered (saveFrame regs st)).rootOf st.currentProc) (entered (saveFrame regs st)).load name
      nameMax = .ok true :=
  userStrOk_below
    (page_ok hset (by unfold Permissions; decide) hf (need_read (userWord_read hflag)) he)
    (page_read hset hf hflag he hn) name nameMax true hend

theorem lookup_page (h : Conducted L ram ramClear st) (hf : UserFlags flags)
    (hflag : hasFlag flags pteR)
    (he : entryOf st st.currentProc q = userWord n flags) (hn : n < 2 ^ 44)
    {r : Option RamdiskEntry}
    (hfind : ramdiskGetEntry (imageReader L ram) (pageReader q (st.phys.mem n)) name (nameMax + 1) =
      .ok r) :
    ramdiskGetEntry (diskByte L (entered (saveFrame regs st)))
      (entered (saveFrame regs st)).load name
      (nameMax + 1) = .ok r := by
  have hdisk := fun a => diskByte_image (s := entered (saveFrame regs st)) h rfl (fun _ hu => hu)
    (fun _ _ => rfl) a
  exact ramdiskGetEntry_below hdisk
    (page_read (reachable_settled h.reachable) hf hflag he hn) name _
    r hfind

end Page

section Self

variable {L L' : Layout} {ram : Memory} {st : KState}

theorem imageReader_widen (hr : L'.ramdiskStart = L.ramdiskStart)
    (hle : L.protectedEnd ≤ L'.protectedEnd) (a : Addr) :
    Below (imageReader L ram a) (imageReader L' ram a) := by
  intro b hb
  unfold imageReader at hb ⊢
  rw [hr]
  split_ifs at hb with hc
  rw [if_pos ⟨hc.1, lt_of_lt_of_le hc.2 hle⟩]
  exact hb

/-- A kernel with more data reads the same RAMDISK, and starts the same program if there is room. -/
def InitImage.widen (img : InitImage L ram) (L' : Layout) (hr : L'.ramdiskStart = L.ramdiskStart)
    (hle : L.protectedEnd ≤ L'.protectedEnd)
    (hfits : (kernelTables ∪ tablesOf (img.placements.map (·.page))).card + img.placements.length +
      140 ≤ ramLast - L'.protectedEnd + 68) : InitImage L' ram where
  entry := img.entry
  phoff := img.phoff
  phnum := img.phnum
  start := img.start
  placements := img.placements
  maxEnd := img.maxEnd
  found := ramdiskGetEntry_below (imageReader_widen hr hle) (fun a => .refl (constByte initName a))
    0 9 _ img.found
  plan := img.plan.below fun _ => imageReader_widen hr hle _
  fits := hfits

theorem copyIn_reads {elf : Addr → Except Stop Byte} {src : Addr} {n : ℕ} {c : ℕ → Byte}
    (h : ∀ k < n, elf (src + BitVec.ofNat 64 k) = .ok (c k)) :
    copyIn elf src n = .ok fun o => if o.val < n then c o.val else 0 := by
  induction n with
  | zero => rfl
  | succ n ih =>
    have hlast : (fun o : Fin 4096 => if o.val = n then c n else if o.val < n then c o.val else 0) =
        fun o => if o.val < n + 1 then c o.val else 0 := by
      funext o
      by_cases ho : o.val = n
      · rw [if_pos ho, if_pos (by omega), ho]
      · by_cases hlt : o.val < n
        · rw [if_neg ho, if_pos hlt, if_pos (by omega)]
        · rw [if_neg ho, if_neg hlt, if_neg (by omega)]
    rw [copyIn, ih fun k hk => h k (by omega), ok_bind, h n (Nat.lt_succ_self n), ok_bind, ← hlast]
    rfl

theorem InitImage.conducted (img : InitImage L ram)
    (hclear : ∀ x ∈ img.placements, ¬ KernelRam x.page)
    (h : kmain L ram = .ok st) : Conducted L ram ramClear st :=
  .boot st h fun _ hf => ((img.plan.below (img.boot_file hf)).avoids_iff KernelRam).mpr hclear

theorem self_clear : ∀ x ∈ selfImage.placements, ¬ KernelRam x.page := by
  rintro x hx ⟨hlow, -⟩
  obtain rfl := List.mem_singleton.mp hx
  exact absurd hlow (by decide)

theorem self_named {L : Layout} (hr : L.ramdiskStart = smallLayout.ramdiskStart)
    (hle : smallLayout.protectedEnd ≤ L.protectedEnd) (h : kmain L selfRam = .ok st)
    (hrun : Conducted L selfRam ramClear st)
    (hpl : ∃ start maxEnd, Installed L st selfImage.placements start maxEnd) (regs : TrapFrame) :
    userStrOk (entered (saveFrame regs st)).phys.mem
      ((entered (saveFrame regs st)).rootOf st.currentProc)
      (entered (saveFrame regs st)).load selfName
      nameMax = .ok true ∧
    ramdiskGetEntry (diskByte L (entered (saveFrame regs st))) (entered (saveFrame regs st)).load
      selfName (nameMax + 1) = .ok (some ⟨48, 120⟩) := by
  obtain ⟨start, maxEnd, hinst⟩ := hpl
  obtain ⟨n, hn, he, hcontent⟩ := hinst.entry_some (List.nodup_singleton _)
    (List.mem_singleton_self _) (by decide)
  constructor
  · apply userStrOk_page (reachable_settled (.boot st h)) userFlags_heap (by decide) he hn
    rw [hcontent]
    rfl
  · apply lookup_page hrun userFlags_heap (by decide) he hn
    rw [hcontent]
    exact ramdiskGetEntry_below (imageReader_widen hr hle) (fun a => .refl _) _ _ (some ⟨48, 120⟩)
      (by rfl)

theorem Installed.mapped {L : Layout} {pl : List Placement} {start : ℕ} {maxEnd : Addr}
    (h : Installed L st pl start maxEnd) (hfree : freeFrames st.phys ≠ 0) :
    tableSet st.phys (trees st) st.currentProc =
      kernelTables ∪ tablesOf (pl.map (·.page)) ∪ (pageNo userStackBase).tables := by
  obtain ⟨p0, p1, page, ho, -, htables, hcount, hreal, hstack⟩ := h.memory
  have h1 := hreal.grows.tables
  rw [htables] at h1
  cases hstack with
  | mapped hp hf => rw [hp.grows.tables, h1]
  | lost T hT hp hfull => exact absurd hfull hfree

theorem self_tables : (kernelTables ∪ tablesOf (selfImage.placements.map (·.page))).card = 69 ∧
    (kernelTables ∪ tablesOf (selfImage.placements.map (·.page)) ∪
      (pageNo userStackBase).tables).card = 70 := by
  have hmid : ([0] : List (Fin 512)) ∈ kernelTables :=
    mem_kernelTables.mpr ⟨(0, 0x80, 0), by decide, Or.inl rfl⟩
  have hpage : tablesOf (selfImage.placements.map (·.page)) = {[0], [2, 0]} := by
    have hlist : selfImage.placements.map (·.page) = [pageNo 0x400000] := rfl
    rw [hlist, tablesOf_singleton]
    decide
  have hstack : (pageNo userStackBase).tables = {[0], [511, 0]} := by decide
  have h1 : ([2, 0] : List (Fin 512)) ∉ kernelTables := table_not_kernel (by decide)
  have h2 : ([511, 0] : List (Fin 512)) ∉ insert [2, 0] kernelTables := by
    rw [Finset.mem_insert, not_or]
    exact ⟨by decide, table_not_kernel (by decide)⟩
  have hone : kernelTables ∪ tablesOf (selfImage.placements.map (·.page)) =
      insert [2, 0] kernelTables := by
    rw [hpage, Finset.union_insert, Finset.union_singleton, Finset.insert_eq_self]
    exact Finset.mem_insert_of_mem hmid
  have htwo : insert [2, 0] kernelTables ∪ (pageNo userStackBase).tables =
      insert [511, 0] (insert [2, 0] kernelTables) := by
    rw [hstack, Finset.union_insert, Finset.union_singleton, Finset.insert_eq_self]
    exact Finset.mem_insert_of_mem (Finset.mem_insert_of_mem hmid)
  rw [hone, htwo, Finset.card_insert_of_notMem h2, Finset.card_insert_of_notMem h1,
    kernelTables_card]
  exact ⟨rfl, rfl⟩

theorem self_fits {L : Layout} (hn : 143 ≤ ramLast - L.protectedEnd) :
    (kernelTables ∪ tablesOf (selfImage.placements.map (·.page))).card +
      selfImage.placements.length + 140 ≤ ramLast - L.protectedEnd + 68 := by
  have hlen : selfImage.placements.length = 1 := rfl
  rw [self_tables.1, hlen]
  omega

theorem self_frames {L : Layout} {start : ℕ} {maxEnd : Addr}
    (h : Installed L st selfImage.placements start maxEnd) (hn : 144 ≤ ramLast - L.protectedEnd) :
    freeFrames st.phys + 143 = ramLast - L.protectedEnd := by
  have hframes := h.frames
  have hlen : selfImage.placements.length = 1 := rfl
  rw [hlen] at hframes
  have hupper := Finset.card_le_card h.tables
  rw [self_tables.2] at hupper
  have htables := h.mapped (by omega)
  rw [htables, self_tables.2] at hframes
  omega

end Self

end Lazux
