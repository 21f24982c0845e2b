import Lazux.Elf
import Lazux.KernelMap

/-! # What the ELF loader puts into a page table

A load is a list of page placements read off the image, and then their execution one after
the other; a later placement hides an earlier one of the same page. -/
namespace Lazux

open PagedMemory RadixForest Run

variable {ι : Type*} {H : Forest ι} {p p' p'' : Phys} {lo : ℕ} {i : ι}

def userWord (n : ℕ) (flags : Word) : Word := paToPte (pageAddr n) ||| flags ||| pteV

structure UserFlags (flags : Word) : Prop where
  small : (flags ||| pteV).toNat < 1024
  user : hasFlag flags pteU

structure Placement where
  page : PageNo
  content : Page
  flags : Word

section UserWord

variable {n : ℕ} {flags : Word}

theorem getLsbD_userWord {k : ℕ} (hk : k < 10) :
    (userWord n flags).getLsbD k = (flags ||| pteV).getLsbD k := by
  rw [userWord, BitVec.or_assoc, getLsbD_paToPte_or _ _ hk]

theorem frame_userWord (hf : UserFlags flags) (hn : n < 2 ^ 44) :
    frame (pteToPa (userWord n flags)) = n := by
  rw [userWord, BitVec.or_assoc, frame_pteToPa_or _ hf.small, frame_pageAddr (by omega)]

theorem userWord_valid (n : ℕ) (flags : Word) : hasFlag (userWord n flags) pteV := by
  rw [hasFlag_pteV, getLsbD_userWord (by norm_num), BitVec.getLsbD_or]
  have : pteV.getLsbD 0 = true := by decide
  simp [this]

theorem userWord_user (hf : UserFlags flags) : hasFlag (userWord n flags) pteU := by
  have hu := hf.user
  rw [hasFlag_pteU] at hu
  rw [hasFlag_pteU, getLsbD_userWord (by norm_num), BitVec.getLsbD_or, hu, Bool.true_or]

theorem leafWord_userWord (hf : UserFlags flags) (hn : n < 2 ^ 44) (q : PageNo) :
    LeafWord q (userWord n flags) := by
  refine ⟨?_, fun _ hu => absurd (userWord_user hf) hu⟩
  rw [userWord, BitVec.or_assoc]
  exact reserved_paToPte_or (by rw [pageAddr_toNat (by omega)]; omega) hf.small

/-- A user page is a page of its tree unless it can be neither read, written nor executed. -/
theorem decode_userWord (hf : UserFlags flags) (hn : n < 2 ^ 44) :
    decodePte 2 (userWord n flags) = if isLeaf (userWord n flags) then some n else none := by
  rw [decodePte, if_neg (by norm_num)]
  by_cases hl : isLeaf (userWord n flags) = true
  · rw [if_pos ⟨rfl, userWord_valid n flags, userWord_user hf, hl⟩, if_pos hl, frame_userWord hf hn]
  · rw [if_neg (fun h => hl h.2.2.2), if_neg hl]

theorem isLeaf_userWord_iff : isLeaf (userWord n flags) ↔ isLeaf flags := by
  rw [isLeaf, isLeaf, hasFlag_pteR, hasFlag_pteW, hasFlag_pteX, hasFlag_pteR, hasFlag_pteW,
    hasFlag_pteX]
  rw [getLsbD_userWord (by norm_num), getLsbD_userWord (by norm_num),
    getLsbD_userWord (by norm_num),
    BitVec.getLsbD_or, BitVec.getLsbD_or, BitVec.getLsbD_or]
  have h1 : pteV.getLsbD 1 = false := by decide
  have h2 : pteV.getLsbD 2 = false := by decide
  have h3 : pteV.getLsbD 3 = false := by decide
  rw [h1, h2, h3, Bool.or_false, Bool.or_false, Bool.or_false]

theorem isLeaf_userWord (h : isLeaf flags) : isLeaf (userWord n flags) := isLeaf_userWord_iff.mpr h

/-- The flags for the three permissions a segment can ask for. -/
def permissionFlags (r w x : Bool) : Word :=
  let flags := pteU
  let flags := if r then flags ||| pteR else flags
  let flags := if w then flags ||| pteW else flags
  let flags := if x then flags ||| pteX else flags
  if flags &&& (pteW ||| pteX) = pteW ||| pteX then flags &&& ~~~pteX else flags

theorem segmentFlags_eq (ph : Phdr) : segmentFlags ph =
    permissionFlags (hasFlag ph.pFlags pfR) (hasFlag ph.pFlags pfW) (hasFlag ph.pFlags pfX) := rfl

theorem segmentFlags_user (ph : Phdr) : UserFlags (segmentFlags ph) := by
  have key : ∀ r w x : Bool, UserFlags (permissionFlags r w x) := by
    intro r w x
    cases r <;> cases w <;> cases x <;> exact ⟨by decide, by decide⟩
  rw [segmentFlags_eq]
  exact key _ _ _

end UserWord

theorem Grows.notTable {T : Finset (List (Fin 512))} {m n : ℕ} (hg : Grows lo H i T m p p')
    (hn : NotTable p H n) (hu : InUse p n) : NotTable p' H n := by
  intro j path hp hf
  by_cases hj : j = i
  · subst j
    rcases hg.fresh path n hp hf with hold | hfree
    · exact hn i path hp hold
    · exact hfree hu
  · rw [hg.others _ (by simp [hj])] at hf
    exact hn j path hp hf

/-- A frame taken since `p` that no tree uses as a table, with its contents. -/
structure Filled (H : Forest ι) (p p' : Phys) (n : ℕ) (content : Page) : Prop where
  fresh : ¬ InUse p n
  inUse : InUse p' n
  notTable : NotTable p' H n
  content : p'.mem n = content

theorem Filled.grow {T : Finset (List (Fin 512))} {m n : ℕ} {content : Page}
    (h : Filled H p p' n content) (hg : Grows lo H i T m p' p'') : Filled H p p'' n content where
  fresh := h.fresh
  inUse := hg.inUse n h.inUse
  notTable := hg.notTable h.notTable h.inUse
  content := (hg.mem n h.inUse fun path hp => h.notTable i path hp).trans h.content

theorem Filled.before {T : Finset (List (Fin 512))} {m n : ℕ} {content : Page}
    (h : Filled H p' p'' n content) (hg : Grows lo H i T m p p') : Filled H p p'' n content where
  fresh hu := h.fresh (hg.inUse n hu)
  inUse := h.inUse
  notTable := h.notTable
  content := h.content

section UserPage

variable [DecidableEq ι] {root n : ℕ} {va : Addr} {flags : Word}

theorem placeUserPage (h : Owned lo H p) (hr : H.root i = some root) (hf : UserFlags flags)
    (ha : pmmAllocPage p = (some n, p')) (page : Page)
    (hm : mapPage (p'.setPage n page) root va (pageAddr n) flags = (true, p'')) :
    Placed lo H i (pageNo va).tables 1
      (fun q => if q = pageNo va then some (userWord n flags) else none) p p'' ∧
      Filled H p p'' n page := by
  obtain ⟨hp, hu, hlo, hun, hfree⟩ := placed_alloc (i := i) h ha page
  have hlt : n < 2 ^ 44 := by have := hu.1.2; simp only [ramLast] at this; omega
  have hmap := mapPage_true hp.owned hr (leafWord_userWord hf hlt (pageNo va)) (fun m hm => by
    rw [show paToPte (pageAddr n) ||| flags ||| pteV = userWord n flags from rfl,
      decode_userWord hf hlt] at hm
    split_ifs at hm
    cases hm
    exact ⟨hu, hlo, hun⟩) hm
  refine ⟨(hp.trans hmap).of_eq (Finset.empty_union _) fun q => by simp [userWord], ?_⟩
  have hfill : Filled H p (p'.setPage n page) n page :=
    ⟨hfree, hu, fun j path _ => hun _, mem_setPage_self ..⟩
  exact hfill.grow hmap.grows

theorem placeUserPage_fits (h : Owned lo H p) (hr : H.root i = some root) (page : Page)
    (hfree : (tableSet p H i ∪ (pageNo va).tables).card + 1 ≤
      freeFrames p + (tableSet p H i).card) :
    ∃ n p' p'', pmmAllocPage p = (some n, p') ∧
      mapPage (p'.setPage n page) root va (pageAddr n) flags = (true, p'') := by
  have hle : (tableSet p H i).card ≤ (tableSet p H i ∪ (pageNo va).tables).card :=
    Finset.card_le_card Finset.subset_union_left
  rcases ha : pmmAllocPage p with ⟨_ | n, p1⟩
  · have := pmmAllocPage_none.mp (show (pmmAllocPage p).1 = none by rw [ha])
    omega
  · obtain ⟨hp, -⟩ := placed_alloc (i := i) h ha page
    have hroom := hp.grows.room (m := 0) (Finset.empty_subset _) (Finset.Subset.refl _) hfree
    have hok := (@mapPage_fst _ _ _ _ _ _ _ va (pageAddr n) flags hp.owned hr).mpr hroom
    refine ⟨n, p1, (mapPage (p1.setPage n page) root va (pageAddr n) flags).2, rfl, ?_⟩
    rw [← hok]

/-- A page that cannot be mapped is given back; at most a table has been made for it. -/
theorem placeUserPage_false (h : Owned lo H p) (hr : H.root i = some root)
    (ha : pmmAllocPage p = (some n, p')) (page : Page)
    (hm : mapPage (p'.setPage n page) root va (pageAddr n) flags = (false, p'')) :
    ∃ T, Placed lo H i T 0 (fun _ => none) p (pmmFreePage p'' (pageAddr n)) := by
  obtain ⟨hp, hu, hlo, hun, hfree⟩ := placed_alloc (i := i) h ha page
  obtain ⟨-, T, -, hT⟩ := mapPage_false hp.owned hr hm
  have hboth := (hp.trans hT).of_eq (Finset.empty_union T) fun _ => rfl
  have hunheld : Unheld p'' H n := hT.grows.unheld hp.owned hun hu fun q => by
    rw [hT.entries, Option.getD_none, ← held_leaf]
    exact hun _
  have hu'' := hT.grows.inUse n hu
  have hlt : n < 2 ^ 44 := by
    have := hu.1.2
    simp only [ramLast] at this
    omega
  have hpa : (pageAddr n).toNat = n * 4096 := pageAddr_toNat (by omega)
  have hheld : ∀ r, held (pmmFreePage p'' (pageAddr n)) H r = held p'' H r := by
    intro r
    rw [held, mem_pmmFreePage]
    rfl
  have htables : tableSet (pmmFreePage p'' (pageAddr n)) H i = tableSet p'' H i := by
    ext path
    rw [mem_tableSet, mem_tableSet, hheld]
  refine ⟨T, ⟨hT.owned.free hu.1 hunheld hlo hpa, fun f hf => ?_, fun f hf hpath => ?_,
    fun r hr' => ?_, fun path f hpath hf => ?_, fun path f hpath hf => ?_, ?_, ?_⟩, fun q => ?_⟩
  · rw [inUse_pmmFreePage _ hu.1 hpa]
    refine ⟨?_, hboth.grows.inUse f hf⟩
    rintro rfl
    exact hfree hf
  · rw [mem_pmmFreePage]
    exact hboth.grows.mem f hf hpath
  · rw [hheld]
    exact hboth.grows.others r hr'
  · rw [hheld]
    exact hboth.grows.kept path f hpath hf
  · rw [hheld] at hf
    exact hboth.grows.fresh path f hpath hf
  · rw [htables]
    exact hboth.grows.tables
  · have hcount := hboth.grows.count
    rw [htables, freeFrames_pmmFreePage _ hu'' hpa]
    omega
  · rw [mem_pmmFreePage]
    exact hboth.entries q

end UserPage

/-- What the last placement of a page says. -/
def lastAt (pl : List Placement) (q : PageNo) : Option Placement :=
  pl.reverse.find? fun x => x.page = q

theorem lastAt_none {pl : List Placement} {q : PageNo} :
    lastAt pl q = none ↔ ∀ x ∈ pl, x.page ≠ q := by
  simp [lastAt, List.find?_eq_none]

theorem lastAt_some {pl : List Placement} {q : PageNo} {y : Placement} (h : lastAt pl q = some y) :
    y ∈ pl ∧ y.page = q := by
  refine ⟨List.mem_reverse.mp (List.mem_of_find?_eq_some h), ?_⟩
  simpa using List.find?_some h

theorem lastAt_of_nodup {pl : List Placement} (h : (pl.map (·.page)).Nodup) {x : Placement}
    (hx : x ∈ pl) : lastAt pl x.page = some x := by
  cases hl : lastAt pl x.page with
  | none => exact absurd rfl (lastAt_none.mp hl x hx)
  | some y =>
    obtain ⟨hy, hpage⟩ := lastAt_some hl
    exact congrArg some (List.inj_on_of_nodup_map h hy hx hpage)

/-- The placements have been carried out in tree `i`. -/
structure Realised (lo : ℕ) (H : Forest ι) (i : ι) (pl : List Placement) (p p' : Phys) : Prop where
  grows : Grows lo H i (tablesOf (pl.map (·.page))) pl.length p p'
  absent : ∀ q, lastAt pl q = none → entry p'.mem (H.root i) q = entry p.mem (H.root i) q
  present : ∀ q x, lastAt pl q = some x → ∃ n, Filled H p p' n x.content ∧
    entry p'.mem (H.root i) q = userWord n x.flags

namespace Realised

variable {pl pl' : List Placement}

theorem lastAt_append (q : PageNo) : lastAt (pl ++ pl') q = (lastAt pl' q).or (lastAt pl q) := by
  rw [lastAt, List.reverse_append, List.find?_append]
  rfl

theorem nil (h : Owned lo H p) : Realised lo H i [] p p :=
  ⟨.refl h, fun _ _ => rfl, fun _ _ hx => by cases hx⟩

theorem append (h : Realised lo H i pl p p') (h' : Realised lo H i pl' p' p'') :
    Realised lo H i (pl ++ pl') p p'' := by
  refine ⟨?_, fun q hq => ?_, fun q x hq => ?_⟩
  · rw [List.map_append, tablesOf_append, List.length_append]
    exact h.grows.trans h'.grows
  · rw [lastAt_append, Option.or_eq_none_iff] at hq
    rw [h'.absent q hq.1, h.absent q hq.2]
  · rw [lastAt_append] at hq
    cases hl : lastAt pl' q with
    | some y =>
      rw [hl, Option.some_or, Option.some.injEq] at hq
      subst y
      obtain ⟨n, hf, he⟩ := h'.present q x hl
      exact ⟨n, hf.before h.grows, he⟩
    | none =>
      rw [hl, Option.none_or] at hq
      obtain ⟨n, hf, he⟩ := h.present q x hq
      exact ⟨n, hf.grow h'.grows, (h'.absent q hl).trans he⟩

end Realised

/-- The placements of a segment's pages. -/
def planPages (elf : Addr → Except Stop Byte) (ph : Phdr) : List Word → Except Stop (List Placement)
  | [] => .ok []
  | current :: rest => do
    let content ← copyIn elf (ph.pOffset + current) (copySize ph current)
    let later ← planPages elf ph rest
    pure (⟨pageNo (ph.pVaddr + current), content, segmentFlags ph⟩ :: later)

/-- The placements of all segments and the largest segment end. -/
def planSegments (elf : Addr → Except Stop Byte) :
    List Addr → Addr → Except Stop (List Placement × Addr)
  | [], maxEnd => .ok ([], maxEnd)
  | a :: rest, maxEnd => do
    match ← readPhdr elf a with
    | none => planSegments elf rest maxEnd
    | some ph =>
      let pages ← planPages elf ph (pageSteps 0 ph.pMemsz)
      let segmentEnd := ph.pVaddr + ph.pMemsz
      let (later, maxEnd) ← planSegments elf rest
        (if segmentEnd > maxEnd then segmentEnd else maxEnd)
      pure (pages ++ later, maxEnd)

/-- The header of an image and the pages its segments ask for. -/
structure Plan (elf : Addr → Except Stop Byte) (phoff phnum start : ℕ) (pl : List Placement)
    (maxEnd : Addr) : Prop where
  magic : readLe elf 0 4 = .ok elfNum
  phoff_eq : readLe elf 0x20 8 = .ok phoff
  phnum_eq : readLe elf 0x38 2 = .ok phnum
  start_eq : readLe elf 0x18 8 = .ok start
  segments : planSegments elf (phdrAddrs (BitVec.ofNat 64 phoff) phnum) 0 = .ok (pl, maxEnd)

section Plan

variable {elf : Addr → Except Stop Byte} {ph : Phdr} {cs : List Word} {as : List Addr}
  {maxEnd maxEnd' : Addr} {pl : List Placement}

theorem planPages_pages (h : planPages elf ph cs = .ok pl) :
    pl.map (·.page) = cs.map (fun c => pageNo (ph.pVaddr + c)) ∧
      ∀ x ∈ pl, x.flags = segmentFlags ph := by
  induction cs generalizing pl with
  | nil =>
    cases h
    exact ⟨rfl, fun x hx => absurd hx List.not_mem_nil⟩
  | cons c cs ih =>
    obtain ⟨content, -, h⟩ := bind_eq_ok.mp h
    obtain ⟨later, hlater, h⟩ := bind_eq_ok.mp h
    cases h
    obtain ⟨hpages, hflags⟩ := ih hlater
    constructor
    · simp only [List.map_cons, hpages]
    · intro x hx
      rcases List.mem_cons.mp hx with rfl | hx
      · rfl
      · exact hflags x hx

theorem planSegments_pages (h : planSegments elf as maxEnd = .ok (pl, maxEnd')) :
    (∀ x ∈ pl, ∃ a ∈ as, ∃ ph, readPhdr elf a = .ok (some ph) ∧
      ∃ c ∈ pageSteps 0 ph.pMemsz, x.page = pageNo (ph.pVaddr + c) ∧ x.flags = segmentFlags ph) ∧
    ∀ a ∈ as, ∀ ph, readPhdr elf a = .ok (some ph) →
      ∀ c ∈ pageSteps 0 ph.pMemsz, ∃ x ∈ pl, x.page = pageNo (ph.pVaddr + c) := by
  induction as generalizing maxEnd pl with
  | nil =>
    cases h
    exact ⟨fun x hx => absurd hx List.not_mem_nil, fun a ha => absurd ha List.not_mem_nil⟩
  | cons a as ih =>
    obtain ⟨r, hr, h⟩ := bind_eq_ok.mp h
    cases r with
    | none =>
      obtain ⟨hl, hr'⟩ := ih h
      constructor
      · intro x hx
        obtain ⟨b, hb, hrest⟩ := hl x hx
        exact ⟨b, List.mem_cons_of_mem _ hb, hrest⟩
      · intro b hb ph hph
        rcases List.mem_cons.mp hb with rfl | hb
        · rw [hr] at hph
          cases hph
        · exact hr' b hb ph hph
    | some ph =>
      obtain ⟨pages, hpages, h⟩ := bind_eq_ok.mp h
      obtain ⟨⟨later, m⟩, hlater, h⟩ := bind_eq_ok.mp h
      cases h
      obtain ⟨hmap, hflags⟩ := planPages_pages hpages
      obtain ⟨hl, hr'⟩ := ih hlater
      constructor
      · intro x hx
        rcases List.mem_append.mp hx with hx | hx
        · have hpage : x.page ∈ pages.map (·.page) := List.mem_map_of_mem hx
          rw [hmap] at hpage
          obtain ⟨c, hc, he⟩ := List.mem_map.mp hpage
          exact ⟨a, List.mem_cons_self, ph, hr, c, hc, he.symm, hflags x hx⟩
        · obtain ⟨b, hb, hrest⟩ := hl x hx
          exact ⟨b, List.mem_cons_of_mem _ hb, hrest⟩
      · intro b hb ph' hph c hc
        rcases List.mem_cons.mp hb with rfl | hb
        · rw [hr] at hph
          cases hph
          have hpage : pageNo (ph.pVaddr + c) ∈ pages.map (·.page) := by
            rw [hmap]
            exact List.mem_map_of_mem hc
          obtain ⟨x, hx, he⟩ := List.mem_map.mp hpage
          exact ⟨x, List.mem_append_left _ hx, he⟩
        · obtain ⟨x, hx, he⟩ := hr' b hb ph' hph c hc
          exact ⟨x, List.mem_append_right _ hx, he⟩

theorem planSegments_userFlags (h : planSegments elf as maxEnd = .ok (pl, maxEnd')) :
    ∀ x ∈ pl, UserFlags x.flags := by
  intro x hx
  obtain ⟨a, -, ph, -, c, -, -, he⟩ := (planSegments_pages h).1 x hx
  rw [he]
  exact segmentFlags_user ph

end Plan

/-- The frames for the placements and the tables they need are there. -/
def Fits (H : Forest ι) (i : ι) (pl : List Placement) (p : Phys) : Prop :=
  (tableSet p H i ∪ tablesOf (pl.map (·.page))).card + pl.length ≤
    freeFrames p + (tableSet p H i).card

section Load

variable [DecidableEq ι] {root : ℕ} {elf : Addr → Except Stop Byte} {ph : Phdr}
  {pl pl' : List Placement}

omit [DecidableEq ι] in
theorem Realised.fits (h : Realised lo H i pl p p') : Fits H i pl p := by
  have := h.grows.count
  rw [h.grows.tables] at this
  unfold Fits
  omega

omit [DecidableEq ι] in
theorem Realised.room (h : Realised lo H i pl p p') (hfit : Fits H i (pl ++ pl') p) :
    Fits H i pl' p' := by
  unfold Fits at hfit ⊢
  rw [List.map_append, tablesOf_append, List.length_append, ← Nat.add_assoc] at hfit
  exact h.grows.room Finset.subset_union_left Finset.subset_union_right hfit

omit [DecidableEq ι] in
theorem Fits.left (hfit : Fits H i (pl ++ pl') p) : Fits H i pl p := by
  unfold Fits at hfit ⊢
  rw [List.map_append, tablesOf_append, List.length_append] at hfit
  have : (tableSet p H i ∪ tablesOf (pl.map (·.page))).card ≤
      (tableSet p H i ∪ (tablesOf (pl.map (·.page)) ∪ tablesOf (pl'.map (·.page)))).card :=
    Finset.card_le_card (Finset.union_subset_union_right Finset.subset_union_left)
  omega

omit [DecidableEq ι] in
theorem Placed.realised {n : ℕ} {x : Placement}
    (h : Placed lo H i x.page.tables 1
      (fun q => if q = x.page then some (userWord n x.flags) else none) p p')
    (hf : Filled H p p' n x.content) : Realised lo H i [x] p p' := by
  have hlast : ∀ q, lastAt [x] q = if q = x.page then some x else none := by
    intro q
    by_cases hq : q = x.page
    · simp [lastAt, hq]
    · simp [lastAt, hq, Ne.symm hq]
  refine ⟨?_, fun q hq => ?_, fun q y hq => ?_⟩
  · rw [List.map_singleton, tablesOf_singleton]
    exact h.grows
  · rw [hlast] at hq
    split_ifs at hq with hc
    rw [h.entries, if_neg hc]
    rfl
  · rw [hlast] at hq
    split_ifs at hq with hc
    cases hq
    exact ⟨n, hf, by rw [h.entries, if_pos hc]; rfl⟩

theorem realised_single (h : Owned lo H p) (hr : H.root i = some root) {n : ℕ} {va : Addr}
    {flags : Word} (hf : UserFlags flags) (ha : pmmAllocPage p = (some n, p')) (page : Page)
    (hm : mapPage (p'.setPage n page) root va (pageAddr n) flags = (true, p'')) :
    Realised lo H i [⟨pageNo va, page, flags⟩] p p'' := by
  obtain ⟨hp, hfill⟩ := placeUserPage h hr hf ha page hm
  exact Placed.realised hp hfill

theorem loadPage_ensures (h : Owned lo H p) (hr : H.root i = some root) (current : Word) :
    Ensures (loadPage elf root ph p current) fun r => r.1 = none → ∃ content,
      copyIn elf (ph.pOffset + current) (copySize ph current) = .ok content ∧
        Realised lo H i [⟨pageNo (ph.pVaddr + current), content, segmentFlags ph⟩] p r.2 := by
  unfold loadPage
  rcases ha : pmmAllocPage p with ⟨_ | n, p1⟩
  · exact ensures_error
  · refine Ensures.of_bind fun content hc => ?_
    rcases hm : mapPage (p1.setPage n content) root (ph.pVaddr + current) (pageAddr n)
      (segmentFlags ph) with ⟨_ | _, p2⟩
    · exact ensures_pure.mpr fun hn => by cases hn
    · exact ensures_pure.mpr fun _ =>
        ⟨content, hc, realised_single h hr (segmentFlags_user ph) ha content hm⟩

theorem loadPage_returns (h : Owned lo H p) (hr : H.root i = some root) {current : Word}
    {content : Page} (hc : copyIn elf (ph.pOffset + current) (copySize ph current) = .ok content)
    (hfit : Fits H i [⟨pageNo (ph.pVaddr + current), content, segmentFlags ph⟩] p) :
    ∃ p', loadPage elf root ph p current = .ok (none, p') := by
  unfold Fits at hfit
  rw [List.map_singleton, tablesOf_singleton] at hfit
  obtain ⟨n, p1, p2, ha, hm⟩ :=
    @placeUserPage_fits _ _ _ _ _ _ _ _ (segmentFlags ph) h hr content hfit
  refine ⟨p2, ?_⟩
  unfold loadPage
  rw [ha]
  dsimp only
  rw [hc]
  simp only [ok_bind, hm]
  rfl

theorem loadPages_ensures (h : Owned lo H p) (hr : H.root i = some root) (cs : List Word) :
    Ensures (loadPages elf root ph cs p) fun r => r.1 = none → ∃ pl,
      planPages elf ph cs = .ok pl ∧ Realised lo H i pl p r.2 := by
  induction cs generalizing p with
  | nil => exact ensures_ok.mpr fun _ => ⟨[], rfl, .nil h⟩
  | cons c rest ih =>
    refine (loadPage_ensures h hr c).bind fun r hr' => ?_
    obtain ⟨_ | m, p1⟩ := r
    · obtain ⟨content, hc, hreal⟩ := hr' rfl
      refine (ih hreal.grows.owned).mono fun r' hr'' hn => ?_
      obtain ⟨pl, hpl, hreal'⟩ := hr'' hn
      refine ⟨_ :: pl, ?_, hreal.append hreal'⟩
      rw [planPages, hc, hpl]
      rfl
    · exact ensures_pure.mpr fun hn => by cases hn

theorem loadPages_returns (h : Owned lo H p) (hr : H.root i = some root) {cs : List Word}
    (hpl : planPages elf ph cs = .ok pl) (hfit : Fits H i pl p) :
    ∃ p', loadPages elf root ph cs p = .ok (none, p') := by
  induction cs generalizing p pl with
  | nil => exact ⟨p, rfl⟩
  | cons c rest ih =>
    obtain ⟨content, hc, hpl⟩ := bind_eq_ok.mp hpl
    obtain ⟨later, hlater, hpl⟩ := bind_eq_ok.mp hpl
    cases hpl
    obtain ⟨p1, hp1⟩ := loadPage_returns h hr hc
      (@Fits.left _ _ _ _ [⟨pageNo (ph.pVaddr + c), content, segmentFlags ph⟩] later hfit)
    obtain ⟨content', hc', hreal⟩ := loadPage_ensures h hr c _ hp1 rfl
    rw [hc] at hc'
    cases hc'
    obtain ⟨p2, hp2⟩ := ih hreal.grows.owned hlater (hreal.room hfit)
    refine ⟨p2, ?_⟩
    rw [loadPages, hp1]
    exact hp2

theorem loadSegments_ensures (h : Owned lo H p) (hr : H.root i = some root) (as : List Addr)
    (maxEnd : Addr) :
    Ensures (loadSegments elf root as maxEnd p) fun r => r.1 = none → ∃ pl,
      planSegments elf as maxEnd = .ok (pl, r.2.1) ∧ Realised lo H i pl p r.2.2 := by
  induction as generalizing p maxEnd with
  | nil => exact ensures_ok.mpr fun _ => ⟨[], rfl, .nil h⟩
  | cons a rest ih =>
    refine Ensures.of_bind fun o ho => ?_
    rw [planSegments, ho]
    cases o with
    | none => exact ih h maxEnd
    | some ph =>
      refine Ensures.of_bind fun r hr' => ?_
      have hload := loadPages_ensures h hr _ r hr'
      obtain ⟨_ | m, p1⟩ := r
      · obtain ⟨pages, hpages, hreal⟩ := hload rfl
        refine (ih hreal.grows.owned _).mono fun r' hr'' hn => ?_
        obtain ⟨later, hlater, hreal'⟩ := hr'' hn
        refine ⟨pages ++ later, ?_, hreal.append hreal'⟩
        show (planPages elf ph (pageSteps 0 ph.pMemsz) >>= fun pages => _) = _
        rw [hpages]
        show (planSegments elf rest _ >>= fun x => _) = _
        rw [hlater]
        rfl
      · exact ensures_pure.mpr fun hn => by cases hn

theorem loadSegments_returns (h : Owned lo H p) (hr : H.root i = some root) {as : List Addr}
    {maxEnd maxEnd' : Addr} (hpl : planSegments elf as maxEnd = .ok (pl, maxEnd'))
    (hfit : Fits H i pl p) :
    ∃ p', loadSegments elf root as maxEnd p = .ok (none, maxEnd', p') := by
  induction as generalizing p maxEnd pl with
  | nil => cases hpl; exact ⟨p, rfl⟩
  | cons a rest ih =>
    obtain ⟨o, ho, hpl⟩ := bind_eq_ok.mp hpl
    rw [loadSegments, ho]
    cases o with
    | none => exact ih h hpl hfit
    | some ph =>
      obtain ⟨pages, hpages, hpl⟩ := bind_eq_ok.mp hpl
      obtain ⟨⟨later, m⟩, hlater, hpl⟩ := bind_eq_ok.mp hpl
      cases hpl
      obtain ⟨p1, hp1⟩ := loadPages_returns h hr hpages hfit.left
      obtain ⟨pages', hpages', hreal⟩ := loadPages_ensures h hr _ _ hp1 rfl
      rw [hpages] at hpages'
      cases hpages'
      obtain ⟨p2, hp2⟩ := ih hreal.grows.owned hlater (hreal.room hfit)
      refine ⟨p2, ?_⟩
      show (loadPages elf root ph (pageSteps 0 ph.pMemsz) p >>= fun x => _) = _
      rw [hp1]
      exact hp2

end Load

end Lazux
