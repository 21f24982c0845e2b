import Lazux.PageTables
import Lazux.Lib.Run

/-! # The kernel's own mappings

Every page table maps RAM from the load address on, the UART and the PLIC to themselves.
`vmm_map_kernel` needs the same tables wherever the linker puts the sections. -/
namespace Lazux

open PagedMemory RadixForest Run

variable {ι : Type*} {H : Forest ι} {p p' : Phys} {lo : ℕ} {i : ι}

def identity (n : ℕ) (flags : Word) : Word := paToPte (pageAddr n) ||| flags ||| pteV

/-- The tables needed for a list of pages. -/
def tablesOf (l : List PageNo) : Finset (List (Fin 512)) := l.toFinset.biUnion PageNo.tables

theorem mem_tablesOf {l : List PageNo} {path : List (Fin 512)} :
    path ∈ tablesOf l ↔ ∃ q ∈ l, path = q.mid ∨ path = q.low := by
  simp [tablesOf, mem_tables]

theorem tablesOf_append (l l' : List PageNo) :
    tablesOf (l ++ l') = tablesOf l ∪ tablesOf l' := by
  ext path
  simp only [mem_tablesOf, Finset.mem_union, List.mem_append]
  constructor
  · rintro ⟨q, hq | hq, hp⟩
    · exact Or.inl ⟨q, hq, hp⟩
    · exact Or.inr ⟨q, hq, hp⟩
  · rintro (⟨q, hq, hp⟩ | ⟨q, hq, hp⟩)
    · exact ⟨q, Or.inl hq, hp⟩
    · exact ⟨q, Or.inr hq, hp⟩

theorem tablesOf_singleton (q : PageNo) : tablesOf [q] = q.tables := by
  ext path
  rw [mem_tablesOf, mem_tables]
  simp

theorem tablesOf_card (l : List PageNo) : (tablesOf l).card ≤ 2 * l.length := by
  induction l with
  | nil => exact le_rfl
  | cons q l ih =>
    have hone : (tablesOf [q]).card ≤ 2 := by
      rw [tablesOf_singleton]
      exact Finset.card_le_two
    have hunion := Finset.card_union_le (tablesOf [q]) (tablesOf l)
    have happ := tablesOf_append [q] l
    rw [List.singleton_append] at happ
    rw [happ, List.length_cons]
    omega

section Identity

/-- Flags of a kernel mapping: readable, not for users. -/
structure KernelFlags (flags : Word) : Prop where
  small : (flags ||| pteV).toNat < 1024
  readable : hasFlag flags pteR
  noUser : ¬ hasFlag flags pteU

variable {n : ℕ} {flags : Word}

theorem number_pageAddr (hn : n < 2 ^ 27) : (pageNo (pageAddr n)).number = n := by
  rw [number_pageNo, pageAddr_toNat (by omega)]
  omega

theorem hasFlag_identity {k : ℕ} {flag : Word} (hk : k < 10)
    (hb : ∀ w, hasFlag w flag = w.getLsbD k) :
    hasFlag (identity n flags) flag = hasFlag (flags ||| pteV) flag := by
  rw [hb, hb, identity, BitVec.or_assoc, getLsbD_paToPte_or _ _ hk]

theorem identity_valid (n : ℕ) (flags : Word) : hasFlag (identity n flags) pteV = true := by
  rw [hasFlag_identity (by norm_num) hasFlag_pteV, hasFlag_pteV, BitVec.getLsbD_or]
  have : pteV.getLsbD 0 = true := by decide
  simp [this]

theorem identity_user (hf : KernelFlags flags) : hasFlag (identity n flags) pteU = false := by
  have hu := hf.noUser
  rw [hasFlag_identity (by norm_num) hasFlag_pteU, hasFlag_pteU, BitVec.getLsbD_or]
  have hv : pteV.getLsbD 4 = false := by decide
  rw [hasFlag_pteU] at hu
  rw [hv, Bool.or_false]
  simpa using hu

theorem identity_readable (hf : KernelFlags flags) : hasFlag (identity n flags) pteR = true := by
  have hr := hf.readable
  rw [hasFlag_identity (by norm_num) hasFlag_pteR, hasFlag_pteR, BitVec.getLsbD_or]
  rw [hasFlag_pteR] at hr
  simp [hr]

theorem number_lt (q : PageNo) : q.number < 2 ^ 27 := by
  simp only [PageNo.number]
  omega

theorem frame_identity (hf : KernelFlags flags) (q : PageNo) :
    frame (pteToPa (identity q.number flags)) = q.number := by
  have hlt := number_lt q
  rw [identity, BitVec.or_assoc, frame_pteToPa_or _ hf.small, frame_pageAddr (by omega)]

theorem leafWord_identity {q : PageNo} (hf : KernelFlags flags) (hq : KernelPage q.number) :
    LeafWord q (identity q.number flags) := by
  have hlt := number_lt q
  refine ⟨?_, fun _ _ => ⟨hq, frame_identity hf q⟩⟩
  rw [identity, BitVec.or_assoc]
  exact reserved_paToPte_or (by rw [pageAddr_toNat (by omega)]; omega) hf.small

theorem decode_identity (hf : KernelFlags flags) : decodePte 2 (identity n flags) = none := by
  rw [decodePte, if_neg (by norm_num), if_neg]
  rw [identity_user hf]
  simp

end Identity

theorem pageSteps_eq {start stop : Addr} {a : ℕ} (hs : start.toNat = a * 4096) :
    pageSteps start stop = (List.range ((stop.toNat + 4095) / 4096 - a)).map fun k =>
    pageAddr (a + k) := by
  have hlen : (stop.toNat - start.toNat + 4095) / 4096 = (stop.toNat + 4095) / 4096 - a := by
    omega
  rw [pageSteps, hlen]
  apply List.map_congr_left
  intro k hk
  apply BitVec.eq_of_toNat_eq
  rw [BitVec.toNat_add, hs]
  simp only [pageAddr, BitVec.toNat_ofNat]
  omega

/-- The pages numbered from `a` up to but not including `b`. -/
def pageRange (a b : ℕ) : List PageNo := (List.range (b - a)).map fun k => pageNo (pageAddr (a + k))

theorem mem_pageRange {a b : ℕ} (hb : b ≤ 2 ^ 27) {q : PageNo} :
    q ∈ pageRange a b ↔ a ≤ q.number ∧ q.number < b := by
  simp only [pageRange, List.mem_map, List.mem_range]
  constructor
  · rintro ⟨k, hk, rfl⟩
    rw [number_pageAddr (by omega)]
    omega
  · rintro ⟨ha, hb'⟩
    refine ⟨q.number - a, by omega, number_inj ?_⟩
    rw [number_pageAddr (by omega)]
    omega

def identityOn (flags : Word) (l : List PageNo) (q : PageNo) : Option Word :=
  if q ∈ l then some (identity q.number flags) else none

/-- The pages in `l` are mapped to themselves. -/
abbrev Identified (lo : ℕ) (H : Forest ι) (i : ι) (flags : Word) (l : List PageNo)
    (p p' : Phys) : Prop := Placed lo H i (tablesOf l) 0 (identityOn flags l) p p'

section Range

variable [DecidableEq ι] {root : ℕ} {flags : Word} {a b : ℕ} {start stop : Addr}

theorem Identified.step {l : List PageNo} {p0 : Phys} (hI : Identified lo H i flags l p0 p)
    (hr : H.root i = some root) (hf : KernelFlags flags) {n : ℕ} (hn : KernelPage n)
    (hlt : n < 2 ^ 27) (hm : mapPage p root (pageAddr n) (pageAddr n) flags = (true, p')) :
    Identified lo H i flags (l ++ [pageNo (pageAddr n)]) p0 p' := by
  have hnum := number_pageAddr hlt
  have hw : LeafWord (pageNo (pageAddr n)) (paToPte (pageAddr n) ||| flags ||| pteV) := by
    have := leafWord_identity (q := pageNo (pageAddr n)) hf (by rwa [hnum])
    rwa [hnum] at this
  have hd : decodePte 2 (paToPte (pageAddr n) ||| flags ||| pteV) = none := decode_identity hf
  have hg := mapPage_true hI.owned hr hw (fun m hm => by rw [hd] at hm; cases hm) hm
  refine (hI.trans hg).of_eq ?_ fun q => ?_
  · rw [tablesOf_append, tablesOf_singleton]
  · by_cases hq : q = pageNo (pageAddr n)
    · have hin : identityOn flags (l ++ [pageNo (pageAddr n)]) q = some (identity n flags) := by
        rw [identityOn, if_pos (by simp [hq]), hq, hnum]
      rw [if_pos hq, hin]
      rfl
    · rw [if_neg hq]
      simp [identityOn, hq]

theorem mapIdentityRange_eq (hs : start.toNat = a * 4096) (hb : (stop.toNat + 4095) / 4096 = b)
    (root : ℕ) (flags : Word) (p : Phys) : mapIdentityRange root start stop flags p =
      ((List.range (b - a)).map fun k => a + k).foldlM (fun p n =>
        match mapPage p root (pageAddr n) (pageAddr n) flags with
        | (true, p) => .ok p
        | (false, _) => .error (.panic "PANIC: vmm_map_kernel out of memory!\n")) p := by
  rw [mapIdentityRange, pageSteps_eq hs, hb, List.foldlM_map]
  symm
  exact List.foldlM_map

theorem pageRange_map (a b : ℕ) : pageRange a b =
    ((List.range (b - a)).map fun k => a + k).map fun n => pageNo (pageAddr n) := by
  rw [pageRange, List.map_map]
  rfl

theorem mapIdentityRange_meets (h : Owned lo H p) (hr : H.root i = some root)
    (hf : KernelFlags flags) (hs : start.toNat = a * 4096) (hb : (stop.toNat + 4095) / 4096 = b)
    (hk : ∀ n, a ≤ n → n < b → KernelPage n) (hlt : b ≤ 2 ^ 27) :
    Meets (mapIdentityRange root start stop flags p)
      ((tableSet p H i ∪ tablesOf (pageRange a b)).card ≤ freeFrames p + (tableSet p H i).card)
      (Identified lo H i flags (pageRange a b) p) := by
  rw [mapIdentityRange_eq hs hb, pageRange_map]
  refine meets_foldlM (I := fun done t =>
    Identified lo H i flags (done.map fun n => pageNo (pageAddr n)) p t) ?_ ?_
  · exact (Placed.refl h).of_eq rfl fun q => by simp [identityOn]
  · intro done n rest hl t ht
    have hn : a ≤ n ∧ n < b := by
      have : n ∈ (List.range (b - a)).map fun k => a + k := by rw [hl]; simp
      simp only [List.mem_map, List.mem_range] at this
      omega
    obtain ⟨ok, t', hm⟩ : ∃ ok t', mapPage t root (pageAddr n) (pageAddr n) flags = (ok, t') :=
      ⟨_, _, rfl⟩
    rw [hm]
    cases ok with
    | true =>
      refine meets_ok ?_
      rw [List.map_append]
      exact ht.step hr hf (hk n hn.1 hn.2) (by omega) hm
    | false =>
      refine meets_error fun hfree => ?_
      have hroom := @Grows.room _ _ _ _ _ _ _ (pageNo (pageAddr n)).tables _ ht.grows
        (tablesOf (((List.range (b - a)).map fun k => a + k).map fun n => pageNo (pageAddr n))) 0
        ?_ ?_ hfree
      · have := (@mapPage_fst _ _ _ _ _ _ _ (pageAddr n) (pageAddr n) flags
          ht.owned hr).mpr hroom
        rw [hm] at this
        cases this
      · rw [hl, List.map_append, tablesOf_append]
        exact Finset.subset_union_left
      · rw [hl, List.map_append, List.map_cons]
        intro path hp
        exact mem_tablesOf.mpr ⟨_, List.mem_append_right _ List.mem_cons_self, mem_tables.mp hp⟩

end Range

section Kernel

def DevicePage (n : ℕ) : Prop :=
  (plicBase / 4096 ≤ n ∧ n < (plicBase + plicSize) / 4096) ∨ n = uart0Base / 4096

instance (n : ℕ) : Decidable (DevicePage n) := inferInstanceAs (Decidable (_ ∨ _))

/-- The flags with which the kernel maps a page of its own. -/
def kernelFlags (L : Layout) (n : ℕ) : Option Word :=
  if textStart ≤ n ∧ n < L.textEnd then some (pteR ||| pteX)
  else if L.textEnd ≤ n ∧ n < L.rodataEnd then some pteR
  else if KernelPage n then some (pteR ||| pteW)
  else none

def kernelEntry (L : Layout) (q : PageNo) : Option Word :=
  (kernelFlags L q.number).map (identity q.number)

@[irreducible] def kernelTables : Finset (List (Fin 512)) :=
  {[0], [2], [0x60, 0], [0x61, 0], [0x80, 0]} ∪
    (Finset.range 63).image fun k => [Fin.ofNat 512 (k + 1), 2]

theorem kernelTables_card : kernelTables.card = 68 := by decide +kernel

theorem mem_kernelTables {path : List (Fin 512)} :
    path ∈ kernelTables ↔ ∃ q : PageNo, KernelPage q.number ∧ (path = q.mid ∨ path = q.low) := by
  simp only [kernelTables, Finset.mem_union, Finset.mem_insert, Finset.mem_singleton,
    Finset.mem_image, Finset.mem_range]
  constructor
  · rintro ((rfl | rfl | rfl | rfl | rfl) | ⟨k, hk, rfl⟩)
    · exact ⟨(0, 0x60, 0), by decide, Or.inl rfl⟩
    · exact ⟨(2, 1, 0), by decide, Or.inl rfl⟩
    · exact ⟨(0, 0x60, 0), by decide, Or.inr rfl⟩
    · exact ⟨(0, 0x61, 0), by decide, Or.inr rfl⟩
    · exact ⟨(0, 0x80, 0), by decide, Or.inr rfl⟩
    · refine ⟨(2, Fin.ofNat 512 (k + 1), 0), ?_, Or.inr rfl⟩
      have : (Fin.ofNat 512 (k + 1)).val = k + 1 := Nat.mod_eq_of_lt (by omega)
      simp only [KernelPage, PageNo.number, this, textStart, ramLast]
      right; right
      norm_num
      omega
  · rintro ⟨⟨a, b, c⟩, hk, hp⟩
    have hb := b.isLt
    have hc := c.isLt
    simp only [KernelPage, PageNo.number, plicBase, plicSize, uart0Base, textStart, ramLast] at hk
    have hcases : (a.val = 0 ∧ (b.val = 0x60 ∨ b.val = 0x61 ∨ b.val = 0x80)) ∨
        (a.val = 2 ∧ 1 ≤ b.val ∧ b.val ≤ 63) := by omega
    simp only [PageNo.mid, PageNo.low] at hp
    rcases hcases with ⟨ha, hb'⟩ | ⟨ha, hb'⟩
    · obtain rfl : a = 0 := Fin.ext ha
      rcases hp with rfl | rfl
      · exact Or.inl (Or.inl rfl)
      · rcases hb' with hb' | hb' | hb'
        · obtain rfl : b = 0x60 := Fin.ext hb'
          simp
        · obtain rfl : b = 0x61 := Fin.ext hb'
          simp
        · obtain rfl : b = 0x80 := Fin.ext hb'
          simp
    · obtain rfl : a = 2 := Fin.ext ha
      rcases hp with rfl | rfl
      · simp
      · refine Or.inr ⟨b.val - 1, by omega, ?_⟩
        have : Fin.ofNat 512 (b.val - 1 + 1) = b := by
          apply Fin.ext
          show (b.val - 1 + 1) % 512 = b.val
          omega
        rw [this]

theorem pageRange_tables {a b : ℕ} (hb : b ≤ 2 ^ 27) (hk : ∀ n, a ≤ n → n < b → KernelPage n) :
    tablesOf (pageRange a b) ⊆ kernelTables := by
  intro path hp
  obtain ⟨q, hq, hp⟩ := mem_tablesOf.mp hp
  rw [mem_pageRange hb] at hq
  exact mem_kernelTables.mpr ⟨q, hk _ hq.1 hq.2, hp⟩

/-- One of the six ranges the kernel maps. -/
structure KernelRange (start stop : Addr) (a b : ℕ) (flags : Word) : Prop where
  start_eq : start.toNat = a * 4096
  stop_eq : (stop.toNat + 4095) / 4096 = b
  flags_ok : KernelFlags flags
  kernel : ∀ n, a ≤ n → n < b → KernelPage n
  small : b ≤ 2 ^ 27

theorem kernelFlags_rx : KernelFlags (pteR ||| pteX) := ⟨by decide, by decide, by decide⟩
theorem kernelFlags_r : KernelFlags pteR := ⟨by decide, by decide, by decide⟩
theorem kernelFlags_rw : KernelFlags (pteR ||| pteW) := ⟨by decide, by decide, by decide⟩

theorem kernelRange_ram {a b : ℕ} {flags : Word} (hf : KernelFlags flags) (ha : textStart ≤ a)
    (hb : b ≤ ramLast) (hab : a ≤ b) : KernelRange (pageAddr a) (pageAddr b) a b flags := by
  have hlast : ramLast < 2 ^ 27 := by decide
  refine ⟨pageAddr_toNat (by omega), ?_, hf, fun n h1 h2 => Or.inr (Or.inr (by omega)), by omega⟩
  rw [pageAddr_toNat (by omega)]
  omega

section Layout

variable [DecidableEq ι] {root : ℕ} (L : Layout)

theorem KernelRange.meets {start stop : Addr} {a b : ℕ} {flags : Word}
    (hk : KernelRange start stop a b flags) (h : Owned lo H p) (hr : H.root i = some root) :
    Meets (mapIdentityRange root start stop flags p)
      ((tableSet p H i ∪ tablesOf (pageRange a b)).card ≤ freeFrames p + (tableSet p H i).card)
      (Identified lo H i flags (pageRange a b) p) :=
  mapIdentityRange_meets h hr hk.flags_ok hk.start_eq hk.stop_eq hk.kernel hk.small

theorem kernelRange_text :
    KernelRange (pageAddr textStart) (pageAddr L.textEnd) textStart L.textEnd (pteR ||| pteX) :=
  kernelRange_ram kernelFlags_rx le_rfl
    (by have := L.rodata_le; have := L.data_le; have := L.end_lt; omega) L.text_le

theorem kernelRange_rodata :
    KernelRange (pageAddr L.textEnd) (pageAddr L.rodataEnd) L.textEnd L.rodataEnd pteR :=
  kernelRange_ram kernelFlags_r L.text_le
    (by have := L.data_le; have := L.end_lt; omega) L.rodata_le

theorem kernelRange_data :
    KernelRange (pageAddr L.rodataEnd) (pageAddr L.kernelEnd) L.rodataEnd L.kernelEnd
      (pteR ||| pteW) :=
  kernelRange_ram kernelFlags_rw (by have := L.text_le; have := L.rodata_le; omega)
    (by have := L.end_lt; omega) L.data_le

theorem kernelRange_free :
    KernelRange (pageAddr L.kernelEnd) (BitVec.ofNat 64 (physicalRamStart + physicalRamSize))
      L.kernelEnd ramLast (pteR ||| pteW) :=
  kernelRange_ram kernelFlags_rw
    (by have := L.text_le; have := L.rodata_le; have := L.data_le; omega) le_rfl L.end_lt.le

theorem kernelRange_uart :
    KernelRange (BitVec.ofNat 64 uart0Base) (BitVec.ofNat 64 (uart0Base + uart0Size))
      (uart0Base / 4096) (uart0Base / 4096 + 1) (pteR ||| pteW) :=
  ⟨by decide, by decide, kernelFlags_rw, fun n h1 h2 => Or.inr (Or.inl (by omega)), by decide⟩

theorem kernelRange_plic :
    KernelRange (BitVec.ofNat 64 plicBase) (BitVec.ofNat 64 (plicBase + plicSize))
      (plicBase / 4096) ((plicBase + plicSize) / 4096) (pteR ||| pteW) :=
  ⟨by decide, by decide, kernelFlags_rw, fun n h1 h2 => Or.inl ⟨h1, h2⟩, by decide⟩

theorem kernelRanges_tables :
    tablesOf (pageRange textStart L.textEnd) ∪ tablesOf (pageRange L.textEnd L.rodataEnd) ∪
      tablesOf (pageRange L.rodataEnd L.kernelEnd) ∪ tablesOf (pageRange L.kernelEnd ramLast) ∪
      tablesOf (pageRange (uart0Base / 4096) (uart0Base / 4096 + 1)) ∪
      tablesOf (pageRange (plicBase / 4096) ((plicBase + plicSize) / 4096)) = kernelTables := by
  apply Finset.Subset.antisymm
  · refine Finset.union_subset (Finset.union_subset (Finset.union_subset (Finset.union_subset
      (Finset.union_subset ?_ ?_) ?_) ?_) ?_) ?_
    · exact pageRange_tables (kernelRange_text L).small (kernelRange_text L).kernel
    · exact pageRange_tables (kernelRange_rodata L).small (kernelRange_rodata L).kernel
    · exact pageRange_tables (kernelRange_data L).small (kernelRange_data L).kernel
    · exact pageRange_tables (kernelRange_free L).small (kernelRange_free L).kernel
    · exact pageRange_tables kernelRange_uart.small kernelRange_uart.kernel
    · exact pageRange_tables kernelRange_plic.small kernelRange_plic.kernel
  · intro path hp
    simp only [Finset.mem_union, mem_tablesOf]
    obtain ⟨q, hq, hp⟩ := mem_kernelTables.mp hp
    rcases hq with hq | hq | ⟨h1, h2⟩
    · exact Or.inr ⟨q, (mem_pageRange kernelRange_plic.small).mpr hq, hp⟩
    · have hin : uart0Base / 4096 ≤ q.number ∧ q.number < uart0Base / 4096 + 1 :=
        ⟨hq.ge, Nat.lt_succ_of_le hq.le⟩
      exact Or.inl (Or.inr ⟨q, (mem_pageRange kernelRange_uart.small).mpr hin, hp⟩)
    · left; left
      rcases Nat.lt_or_ge q.number L.textEnd with ht | ht
      · exact Or.inl
          (Or.inl (Or.inl ⟨q, (mem_pageRange (kernelRange_text L).small).mpr ⟨h1, ht⟩, hp⟩))
      rcases Nat.lt_or_ge q.number L.rodataEnd with hro | hro
      · exact Or.inl
          (Or.inl (Or.inr ⟨q, (mem_pageRange (kernelRange_rodata L).small).mpr ⟨ht, hro⟩, hp⟩))
      rcases Nat.lt_or_ge q.number L.kernelEnd with hd | hd
      · exact Or.inl (Or.inr ⟨q, (mem_pageRange (kernelRange_data L).small).mpr ⟨hro, hd⟩, hp⟩)
      · exact Or.inr ⟨q, (mem_pageRange (kernelRange_free L).small).mpr ⟨hd, h2⟩, hp⟩

theorem kernelRanges_entries (q : PageNo) :
    (identityOn (pteR ||| pteW) (pageRange (plicBase / 4096) ((plicBase + plicSize) / 4096)) q).or
      ((identityOn (pteR ||| pteW) (pageRange (uart0Base / 4096) (uart0Base / 4096 + 1)) q).or
      ((identityOn (pteR ||| pteW) (pageRange L.kernelEnd ramLast) q).or
      ((identityOn (pteR ||| pteW) (pageRange L.rodataEnd L.kernelEnd) q).or
      ((identityOn pteR (pageRange L.textEnd L.rodataEnd) q).or
        (identityOn (pteR ||| pteX) (pageRange textStart L.textEnd) q))))) = kernelEntry L q := by
  have h1 := L.text_le
  have h2 := L.rodata_le
  have h3 := L.data_le
  have h4 := L.end_lt
  simp only [identityOn, mem_pageRange kernelRange_plic.small, mem_pageRange kernelRange_uart.small,
    mem_pageRange (kernelRange_free L).small, mem_pageRange (kernelRange_data L).small,
    mem_pageRange (kernelRange_rodata L).small, mem_pageRange (kernelRange_text L).small]
  simp only [kernelEntry, kernelFlags]
  have hk : KernelPage q.number ↔ (plicBase / 4096 ≤ q.number ∧
    q.number < (plicBase + plicSize) / 4096) ∨ q.number = uart0Base / 4096 ∨
      (textStart ≤ q.number ∧ q.number < ramLast) := Iff.rfl
  have hp : (plicBase + plicSize) / 4096 ≤ uart0Base / 4096 := by decide
  have hu : uart0Base / 4096 < textStart := by decide
  by_cases hpage : KernelPage q.number
  · have := hk.mp hpage
    simp only [hpage, if_true]
    split_ifs <;> first | (exfalso; omega) | rfl
  · have hnot := mt hk.mpr hpage
    simp only [hpage, if_false]
    split_ifs <;> first | (exfalso; omega) | rfl

/-- `vmm_map_kernel` makes the kernel's entries; room for the missing tables is all it takes. -/
theorem vmmMapKernel_meets (h : Owned lo H p) (hr : H.root i = some root) :
    Meets (vmmMapKernel L root p)
      ((tableSet p H i ∪ kernelTables).card ≤ freeFrames p + (tableSet p H i).card)
      (Placed lo H i kernelTables 0 (kernelEntry L) p) := by
  have room := fun {q : Phys} {T T' : Finset (List (Fin 512))} {e : PageNo → Option Word}
    (hp : Placed lo H i T 0 e p q) (hT : T ⊆ kernelTables) (hT' : T' ⊆ kernelTables) =>
      @Grows.room _ _ _ _ _ _ _ T' _ hp.grows kernelTables 0 hT hT'
  have t1 := pageRange_tables (kernelRange_text L).small (kernelRange_text L).kernel
  have t2 := pageRange_tables (kernelRange_rodata L).small (kernelRange_rodata L).kernel
  have t3 := pageRange_tables (kernelRange_data L).small (kernelRange_data L).kernel
  have t4 := pageRange_tables (kernelRange_free L).small (kernelRange_free L).kernel
  have t5 := pageRange_tables kernelRange_uart.small kernelRange_uart.kernel
  have t6 := pageRange_tables kernelRange_plic.small kernelRange_plic.kernel
  refine (((kernelRange_text L).meets h hr).mono
    (room (.refl h) (Finset.empty_subset _) t1) fun _ => id).bind fun p1 h1 => ?_
  refine (((kernelRange_rodata L).meets h1.owned hr).mono (room h1 t1 t2) fun _ => id).bind
    fun p2 h2 => ?_
  have h12 := h1.trans h2
  have t12 := Finset.union_subset t1 t2
  refine (((kernelRange_data L).meets h2.owned hr).mono (room h12 t12 t3) fun _ => id).bind
    fun p3 h3 => ?_
  have h13 := h12.trans h3
  have t13 := Finset.union_subset t12 t3
  refine (((kernelRange_free L).meets h3.owned hr).mono (room h13 t13 t4) fun _ => id).bind
    fun p4 h4 => ?_
  have h14 := h13.trans h4
  have t14 := Finset.union_subset t13 t4
  refine ((kernelRange_uart.meets h4.owned hr).mono (room h14 t14 t5) fun _ => id).bind
    fun p5 h5 => ?_
  have h15 := h14.trans h5
  have t15 := Finset.union_subset t14 t5
  refine (kernelRange_plic.meets h5.owned hr).mono (room h15 t15 t6) fun p6 h6 => ?_
  exact (h15.trans h6).of_eq (kernelRanges_tables L) (kernelRanges_entries L)

end Layout

end Kernel

end Lazux
