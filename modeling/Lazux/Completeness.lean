import Lazux.Loader

/-! # Complete loads

A load is complete when the stack and every byte of the segments are mapped and no frame has
been lost on the way. -/
namespace Lazux

open PagedMemory RadixForest Run

section Kept

variable {ι : Type*} {H : Forest ι} {p p' p'' : Phys} {lo : ℕ} {i : ι} {pl : List Placement}
  {T : Finset (List (Fin 512))}

/-- Every frame taken since `p` is a table or a page of tree `i`. -/
def Kept (H : Forest ι) (i : ι) (p p' : Phys) : Prop :=
  ∀ f, InUse p' f → InUse p f ∨ ∃ path, held p' H (.node i path) = some f

/-- Each page is placed once and can be accessed somehow. -/
structure WellLaid (pl : List Placement) : Prop where
  once : (pl.map (·.page)).Nodup
  accessible : ∀ x ∈ pl, isLeaf x.flags

theorem Kept.refl (H : Forest ι) (i : ι) (p : Phys) : Kept H i p p := fun _ hu => Or.inl hu

theorem Tight.kept (h : Tight i H p H p') (ho : Owned lo H p) : Kept H i p p' := by
  intro f hu
  by_contra hno
  obtain ⟨hnot, hpath⟩ := not_or.mp hno
  have hapart : Apart p' H i f := by
    rintro (j | ⟨j, path⟩) hj hf
    · exact hnot (ho.inUse (.extra j) f hf).1
    · obtain rfl : j = i := hj
      exact hpath ⟨path, hf⟩
  exact hnot (h f hu hapart).1

theorem node_cases {path : List (Fin 512)} {f : ℕ} (hf : held p H (.node i path) = some f) :
    path.length ≤ 2 ∨ ∃ q : PageNo, path = q.leaf := by
  rcases Nat.lt_or_ge 2 path.length with hl | hl
  · match path with
    | [c, b, a] => exact Or.inr ⟨(a, b, c), rfl⟩
    | d :: c :: b :: a :: rest =>
      rw [held_cons] at hf
      obtain ⟨g, -, hd⟩ := Option.bind_eq_some_iff.mp hf
      rw [decodePte_deep (by simp)] at hd
      cases hd
  · exact Or.inl hl

/-- Frames that a growing tree keeps are those of its new tables and of the pages it gains. -/
theorem Grows.kept_card {n : ℕ} (h : Grows lo H i T n p p') (ho : Owned lo H p)
    (hk : Kept H i p p') {S : Finset PageNo}
    (hS : ∀ q f, held p' H (.node i (PageNo.leaf q)) = some f → ¬ InUse p f → q ∈ S) :
    n ≤ S.card := by
  classical
  have hsub : tableSet p H i ⊆ tableSet p' H i := by
    rw [h.tables]
    exact Finset.subset_union_left
  let paths : Finset (List (Fin 512)) := (tableSet p' H i \ tableSet p H i) ∪ S.image PageNo.leaf
  let frameAt : List (Fin 512) → ℕ := fun path => (held p' H (.node i path)).getD 0
  have hnew : usedFrames p' \ usedFrames p ⊆ paths.image frameAt := by
    intro f hf
    obtain ⟨hu', hu⟩ := Finset.mem_sdiff.mp hf
    rw [mem_usedFrames] at hu hu'
    obtain ⟨path, hpath⟩ := (hk f hu').resolve_left hu
    refine Finset.mem_image.mpr ⟨path, ?_, by simp only [frameAt, hpath, Option.getD_some]⟩
    rcases node_cases hpath with hlen | ⟨q, rfl⟩
    · apply Finset.mem_union_left
      have hnone : ∀ g, held p H (.node i path) ≠ some g := by
        intro g hg
        have hkept := h.kept path g hlen hg
        rw [hpath] at hkept
        cases hkept
        exact hu (ho.inUse _ _ hg).1
      have hne : path ≠ [] := by
        rintro rfl
        exact hnone f hpath
      have hpos := List.length_pos_of_ne_nil hne
      rw [Finset.mem_sdiff, mem_tableSet, mem_tableSet]
      refine ⟨⟨by omega, by simp [hpath]⟩, fun hold => ?_⟩
      obtain ⟨g, hg⟩ := Option.ne_none_iff_exists'.mp hold.2
      exact hnone g hg
    · apply Finset.mem_union_right
      exact Finset.mem_image_of_mem _ (hS q f hpath hu)
  have hused : usedFrames p ⊆ usedFrames p' := by
    intro f hf
    rw [mem_usedFrames] at hf ⊢
    exact h.inUse f hf
  have h1 := Finset.card_le_card hnew
  have h2 : (paths.image frameAt).card ≤ paths.card := Finset.card_image_le
  have h3 := Finset.card_union_le (tableSet p' H i \ tableSet p H i) (S.image PageNo.leaf)
  have h4 : (S.image PageNo.leaf).card ≤ S.card := Finset.card_image_le
  have h5 := Finset.card_sdiff_add_card_eq_card hsub
  have h6 := Finset.card_sdiff_add_card_eq_card hused
  have h7 := h.count
  have h8 := card_usedFrames p
  have h9 := card_usedFrames p'
  have h10 : paths.card ≤ (tableSet p' H i \ tableSet p H i).card + (S.image PageNo.leaf).card := h3
  omega

/-- Into a tree without user pages, frames are lost unless each page is placed once and can be
accessed. -/
theorem Realised.kept_iff (h : Realised lo H i pl p p') (ho : Owned lo H p)
    (hflags : ∀ x ∈ pl, UserFlags x.flags)
    (hclear : ∀ q : PageNo, held p H (.node i q.leaf) = none) :
    Kept H i p p' ↔ WellLaid pl := by
  classical
  constructor
  · intro hk
    let S := (pl.map (·.page)).toFinset.filter fun q => isLeaf ((lastAt pl q).elim 0 (·.flags))
    have hcard : pl.length ≤ S.card := by
      apply h.grows.kept_card ho hk
      intro q f hf hu
      cases hl : lastAt pl q with
      | none =>
        rw [held_leaf, h.absent q hl, ← held_leaf, hclear q] at hf
        cases hf
      | some y =>
        obtain ⟨hy, hpage⟩ := lastAt_some hl
        obtain ⟨m, hfill, he⟩ := h.present q y hl
        have hlt : m < 2 ^ 44 := by
          have := hfill.inUse.1.2
          simp only [ramLast] at this
          omega
        rw [held_leaf, he, decode_userWord (hflags y hy) hlt] at hf
        have hleaf : isLeaf (userWord m y.flags) := by
          by_contra hno
          rw [if_neg hno] at hf
          cases hf
        rw [Finset.mem_filter, List.mem_toFinset]
        refine ⟨hpage ▸ List.mem_map_of_mem hy, ?_⟩
        rw [hl, Option.elim_some]
        exact isLeaf_userWord_iff.mp hleaf
    have hsub : S ⊆ (pl.map (·.page)).toFinset := Finset.filter_subset _ _
    have hle := Finset.card_le_card hsub
    have hlen := List.toFinset_card_le (pl.map (·.page))
    rw [List.length_map] at hlen
    have hfull : (pl.map (·.page)).toFinset.card = (pl.map (·.page)).length := by
      rw [List.length_map]
      omega
    have honce : (pl.map (·.page)).Nodup :=
      Multiset.coe_nodup.mp (Multiset.toFinset_card_eq_card_iff_nodup.mp hfull)
    have hall : S = (pl.map (·.page)).toFinset := Finset.eq_of_subset_of_card_le hsub (by omega)
    refine ⟨honce, fun x hx => ?_⟩
    have hmem : x.page ∈ S := by
      rw [hall, List.mem_toFinset]
      exact List.mem_map_of_mem hx
    have hleaf := (Finset.mem_filter.mp hmem).2
    rw [lastAt_of_nodup honce hx, Option.elim_some] at hleaf
    exact hleaf
  · rintro ⟨honce, haccess⟩
    exact (h.tight hflags haccess honce fun x _ => hclear x.page).kept ho

end Kept

section Wanted

@[irreducible] def pageContent (elf : Addr → Except Stop Byte) (ph : Phdr) (current : Word) :
    Except Stop Page := copyIn elf (ph.pOffset + current) (copySize ph current)

theorem pageContent_eq (elf : Addr → Except Stop Byte) (ph : Phdr) (current : Word) :
    pageContent elf ph current = copyIn elf (ph.pOffset + current) (copySize ph current) := by
  unfold pageContent
  rfl

/-- The pages of a segment in order up to one that cannot be read, and whether these are all. -/
def wantedPages (elf : Addr → Except Stop Byte) (ph : Phdr) : List Word → List Placement × Bool
  | [] => ([], true)
  | current :: rest =>
    match pageContent elf ph current with
    | .error _ => ([], false)
    | .ok content =>
      let later := wantedPages elf ph rest
      (⟨pageNo (ph.pVaddr + current), content, segmentFlags ph⟩ :: later.1, later.2)

/-- The same for the program headers at the given addresses. -/
def wantedSegments (elf : Addr → Except Stop Byte) : List Addr → List Placement × Bool
  | [] => ([], true)
  | a :: rest =>
    match readPhdr elf a with
    | .error _ => ([], false)
    | .ok none => wantedSegments elf rest
    | .ok (some ph) =>
      let pages := wantedPages elf ph (pageSteps 0 ph.pMemsz)
      if pages.2 then
        let later := wantedSegments elf rest
        (pages.1 ++ later.1, later.2)
      else pages

variable {ι : Type*} [DecidableEq ι] {H : Forest ι} {p p' : Phys} {lo root : ℕ} {i : ι}
  {elf : Addr → Except Stop Byte} {ph : Phdr} {pl : List Placement} {cs : List Word}
  {as : List Addr} {maxEnd maxEnd' : Addr}

theorem wantedPages_of_plan (h : planPages elf ph cs = .ok pl) :
    wantedPages elf ph cs = (pl, true) := by
  induction cs generalizing pl with
  | nil =>
    cases h
    rfl
  | cons c cs ih =>
    obtain ⟨content, hc, h⟩ := bind_eq_ok.mp h
    obtain ⟨later, hlater, h⟩ := bind_eq_ok.mp h
    cases h
    have hcontent := (pageContent_eq elf ph c).trans hc
    simp only [wantedPages, hcontent, ih hlater]

theorem wantedSegments_of_plan (h : planSegments elf as maxEnd = .ok (pl, maxEnd')) :
    wantedSegments elf as = (pl, true) := by
  induction as generalizing maxEnd pl with
  | nil =>
    cases h
    rfl
  | cons a as ih =>
    obtain ⟨r, hr, h⟩ := bind_eq_ok.mp h
    cases r with
    | none => simp only [wantedSegments, hr, ih h]
    | some ph =>
      obtain ⟨pages, hpages, h⟩ := bind_eq_ok.mp h
      obtain ⟨⟨later, m⟩, hlater, h⟩ := bind_eq_ok.mp h
      cases h
      simp only [wantedSegments, hr, wantedPages_of_plan hpages, ih hlater, if_true]

theorem wantedPages_flags : ∀ x ∈ (wantedPages elf ph cs).1, x.flags = segmentFlags ph := by
  induction cs with
  | nil => exact fun x hx => absurd hx List.not_mem_nil
  | cons c cs ih =>
    intro x hx
    unfold wantedPages at hx
    split at hx
    · exact absurd hx List.not_mem_nil
    · rcases List.mem_cons.mp hx with rfl | hx
      · rfl
      · exact ih x hx

theorem wantedSegments_userFlags : ∀ x ∈ (wantedSegments elf as).1, UserFlags x.flags := by
  induction as with
  | nil => exact fun x hx => absurd hx List.not_mem_nil
  | cons a as ih =>
    have hpages : ∀ ph cs, ∀ x ∈ (wantedPages elf ph cs).1, UserFlags x.flags := by
      intro ph cs x hx
      rw [wantedPages_flags x hx]
      exact segmentFlags_user ph
    intro x hx
    unfold wantedSegments at hx
    split at hx
    · exact absurd hx List.not_mem_nil
    · exact ih x hx
    · dsimp only at hx
      split at hx
      · rcases List.mem_append.mp hx with hx | hx
        · exact hpages _ _ x hx
        · exact ih x hx
      · exact hpages _ _ x hx

/-- A load has stopped at page `x`, for which a frame is left but not all its tables. -/
structure Stuck (lo : ℕ) (H : Forest ι) (i : ι) (x : Placement) (p p' : Phys) : Prop where
  placed : ∃ T, Placed lo H i T 0 (fun _ => none) p p'
  full : ¬ Fits H i [x] p

/-- The pages before it are in place. -/
structure StoppedAt (lo : ℕ) (H : Forest ι) (i : ι) (wanted : List Placement) (p p' : Phys) :
    Prop where
  reached : ∃ done x rest p1, wanted = done ++ x :: rest ∧ Realised lo H i done p p1 ∧
    Stuck lo H i x p1 p'

omit [DecidableEq ι] in
theorem StoppedAt.cons {x : Placement} {p1 : Phys} {wanted : List Placement}
    (h : Realised lo H i [x] p p1) (hs : StoppedAt lo H i wanted p1 p') :
    StoppedAt lo H i (x :: wanted) p p' := by
  obtain ⟨done, y, rest, p2, rfl, hreal, hstuck⟩ := hs.reached
  exact ⟨x :: done, y, rest, p2, rfl, h.append hreal, hstuck⟩

omit [DecidableEq ι] in
theorem StoppedAt.append {p1 : Phys} {wanted : List Placement}
    (h : Realised lo H i pl p p1) (hs : StoppedAt lo H i wanted p1 p') :
    StoppedAt lo H i (pl ++ wanted) p p' := by
  obtain ⟨done, y, rest, p2, rfl, hreal, hstuck⟩ := hs.reached
  exact ⟨pl ++ done, y, rest, p2, by rw [List.append_assoc], h.append hreal, hstuck⟩

omit [DecidableEq ι] in
theorem StoppedAt.more {wanted later : List Placement} (h : StoppedAt lo H i wanted p p') :
    StoppedAt lo H i (wanted ++ later) p p' := by
  obtain ⟨done, y, rest, p2, rfl, hreal, hstuck⟩ := h.reached
  exact ⟨done, y, rest ++ later, p2, by simp, hreal, hstuck⟩

theorem loadPage_stuck (h : Owned lo H p) (hr : H.root i = some root) (current : Word) :
    Ensures (loadPage elf root ph p current) fun r => r.1 ≠ none → ∃ content,
      copyIn elf (ph.pOffset + current) (copySize ph current) = .ok content ∧
        Stuck lo H i ⟨pageNo (ph.pVaddr + current), content, segmentFlags ph⟩ p r.2 := by
  unfold loadPage
  rcases ha : pmmAllocPage p with ⟨_ | n, p1⟩
  · exact ensures_error
  · refine Ensures.of_bind fun content hc => ?_
    rcases hm : mapPage (p1.setPage n content) root (ph.pVaddr + current) (pageAddr n)
      (segmentFlags ph) with ⟨_ | _, p2⟩
    · refine ensures_pure.mpr fun _ => ⟨content, hc, placeUserPage_false h hr ha content hm, ?_⟩
      intro hfit
      unfold Fits at hfit
      rw [List.map_singleton, tablesOf_singleton] at hfit
      obtain ⟨n', p1', p2', ha', hm'⟩ :=
        @placeUserPage_fits _ _ _ _ _ _ _ _ (segmentFlags ph) h hr content hfit
      rw [ha] at ha'
      cases ha'
      rw [hm] at hm'
      cases hm'
    · exact ensures_pure.mpr fun hn => absurd rfl hn

theorem loadPages_stopped (h : Owned lo H p) (hr : H.root i = some root) (cs : List Word) :
    Ensures (loadPages elf root ph cs p) fun r => r.1 ≠ none →
      StoppedAt lo H i (wantedPages elf ph cs).1 p r.2 := by
  induction cs generalizing p with
  | nil => exact ensures_ok.mpr fun hn => absurd rfl hn
  | cons c rest ih =>
    refine Ensures.of_bind fun r hr' => ?_
    have hplaced := loadPage_ensures h hr c r hr'
    have hstuck := loadPage_stuck h hr c r hr'
    obtain ⟨_ | m, p1⟩ := r
    · obtain ⟨content, hc, hreal⟩ := hplaced rfl
      refine (ih hreal.grows.owned).mono fun r' hstop hn => ?_
      have hcontent := (pageContent_eq elf ph c).trans hc
      rw [wantedPages, hcontent]
      exact (hstop hn).cons hreal
    · refine ensures_pure.mpr fun _ => ?_
      obtain ⟨content, hc, hs⟩ := hstuck (by simp)
      have hcontent := (pageContent_eq elf ph c).trans hc
      rw [wantedPages, hcontent]
      exact ⟨[], _, _, p, rfl, .nil h, hs⟩

theorem loadSegments_stopped (h : Owned lo H p) (hr : H.root i = some root) (as : List Addr)
    (maxEnd : Addr) :
    Ensures (loadSegments elf root as maxEnd p) fun r => r.1 ≠ none →
      StoppedAt lo H i (wantedSegments elf as).1 p r.2.2 := by
  induction as generalizing p maxEnd with
  | nil => exact ensures_ok.mpr fun hn => absurd rfl hn
  | cons a rest ih =>
    refine Ensures.of_bind fun o ho => ?_
    rw [wantedSegments, ho]
    cases o with
    | none => exact ih h maxEnd
    | some ph =>
      refine Ensures.of_bind fun r hr' => ?_
      have hplaced := loadPages_ensures h hr _ r hr'
      have hstop := loadPages_stopped h hr _ r hr'
      obtain ⟨_ | m, p1⟩ := r
      · obtain ⟨pages, hpages, hreal⟩ := hplaced rfl
        refine (ih hreal.grows.owned _).mono fun r' hs hn => ?_
        dsimp only
        rw [wantedPages_of_plan hpages, if_pos rfl]
        exact (hs hn).append hreal
      · refine ensures_pure.mpr fun hn => ?_
        dsimp only
        split
        · exact (hstop hn).more
        · exact hstop hn

end Wanted

section Complete

variable {L : Layout} {ram : Memory} {st st' mid : KState} {i : Slot}
  {elf : Addr → Except Stop Byte} {pl pl' : List Placement} {ok whole : Bool}

def stackPlacement : Placement := ⟨pageNo userStackBase, Page.zero, pteU ||| pteR ||| pteW⟩

/-- The pages the headers of an image ask for, as far as it can be read. -/
def Asked (elf : Addr → Except Stop Byte) (pl : List Placement) (whole : Bool) : Prop :=
  readLe elf 0 4 = .ok elfNum ∧ ∃ phoff phnum, readLe elf 0x20 8 = .ok phoff ∧
    readLe elf 0x38 2 = .ok phnum ∧
    wantedSegments elf (phdrAddrs (BitVec.ofNat 64 phoff) phnum) = (pl, whole)

def Segment (elf : Addr → Except Stop Byte) (ph : Phdr) : Prop :=
  ∃ phoff phnum, readLe elf 0x20 8 = .ok phoff ∧ readLe elf 0x38 2 = .ok phnum ∧
    ∃ a ∈ phdrAddrs (BitVec.ofNat 64 phoff) phnum, readPhdr elf a = .ok (some ph)

structure LoadComplete (st : KState) (i : Slot) (elf : Addr → Except Stop Byte) (ok : Bool)
    (st' : KState) : Prop where
  stack : ok = true → ∃ n, InUse st'.phys n ∧ st'.phys.mem n = Page.zero ∧
    entryOf st' i (pageNo userStackBase) = userWord n (pteU ||| pteR ||| pteW)
  segments : ok = true → ∀ ph, Segment elf ph → ∀ k < ph.pMemsz.toNat,
    UserLeaf (entryOf st' i (pageNo (ph.pVaddr + BitVec.ofNat 64 k)))
  kept : Kept (trees st') i st.phys st'.phys

theorem LoadComplete.of_failed (h : Kept (trees st') i st.phys st'.phys) :
    LoadComplete st i elf false st' := by
  constructor
  · intro he
    cases he
  · intro he
    cases he
  · exact h

def FrameLeft (H : Forest Slot) (i : Slot) (pl : List Placement) (p : Phys) : Prop :=
  (tableSet p H i ∪ tablesOf (pl.map (·.page))).card + pl.length + 1 ≤
    freeFrames p + (tableSet p H i).card

/-- As far as the frames go the pages are asked for once each and can be accessed; if a frame
is left for the stack then so are those for its tables, and together with the stack's the
pages are those the segments touch. -/
structure LoadsWhole (st : KState) (i : Slot) (elf : Addr → Except Stop Byte) : Prop where
  laid : ∀ pl whole, Asked elf pl whole → ∀ pl', pl' <+: pl → Fits (trees st) i pl' st.phys →
    WellLaid pl'
  stack : ∀ pl, Asked elf pl true → FrameLeft (trees st) i pl st.phys →
    Fits (trees st) i (pl ++ [stackPlacement]) st.phys ∧ WellLaid (pl ++ [stackPlacement]) ∧
    ∀ ph, Segment elf ph → ∀ k < ph.pMemsz.toNat, ∃ x ∈ pl ++ [stackPlacement],
      x.page = pageNo (ph.pVaddr + BitVec.ofNat 64 k)

theorem Asked.unique (h : Asked elf pl ok) (h' : Asked elf pl' whole) : pl = pl' ∧ ok = whole := by
  obtain ⟨-, phoff, phnum, hoff, hnum, hw⟩ := h
  obtain ⟨-, phoff', phnum', hoff', hnum', hw'⟩ := h'
  cases hoff.symm.trans hoff'
  cases hnum.symm.trans hnum'
  rw [hw] at hw'
  exact Prod.mk.inj hw'

theorem WellLaid.of_prefix (h : WellLaid pl) (hp : pl' <+: pl) : WellLaid pl' := by
  refine ⟨h.once.sublist (hp.sublist.map _), fun x hx => h.accessible x (hp.subset hx)⟩

theorem Fits.of_prefix {H : Forest Slot} {p : Phys} (h : Fits H i pl p) (hp : pl' <+: pl) :
    Fits H i pl' p := by
  obtain ⟨rest, rfl⟩ := hp
  exact h.left

theorem FrameLeft.fits {H : Forest Slot} {p : Phys} (h : FrameLeft H i pl p) : Fits H i pl p := by
  unfold FrameLeft at h
  unfold Fits
  omega

theorem userFlags_append_stack (h : ∀ x ∈ pl, UserFlags x.flags) :
    ∀ x ∈ pl ++ [stackPlacement], UserFlags x.flags := by
  intro x hx
  rcases List.mem_append.mp hx with hx | hx
  · exact h x hx
  · obtain rfl := List.mem_singleton.mp hx
    exact userFlags_heap

theorem Bare.clear (hb : Bare L st i) (q : PageNo) :
    held st.phys (trees st) (.node i q.leaf) = none := by
  rw [held_leaf]
  exact (congrArg (decodePte 2) (hb.entries q)).trans (decode_kernelEntry q)

/-- After the segments the stack is placed, or its page is lost because a table cannot be had. -/
theorem Loaded.stack_cases {K : Forest Slot} {lo phoff phnum start page : ℕ} {maxEnd : Addr}
    {p1 p2 : Phys} (h : Loaded st i elf st' phoff phnum start page maxEnd p1 p2)
    (ho : Owned lo K p1) (hr : K.root i = some (st.rootOf i)) :
    Realised lo K i [stackPlacement] p1 st'.phys ∨
      ¬ Fits K i [stackPlacement] p1 ∧ ∃ T, Grows lo K i T 1 p1 st'.phys ∧
        ∀ q, entry st'.phys.mem (K.root i) q = entry p1.mem (K.root i) q := by
  have hphys : st'.phys = (mapPage (p2.zeroPage page) (st.rootOf i) userStackBase (pageAddr page)
      (pteU ||| pteR ||| pteW)).2 := by
    rw [h.result]
    rfl
  rcases hm : mapPage (p2.zeroPage page) (st.rootOf i) userStackBase (pageAddr page)
    (pteU ||| pteR ||| pteW) with ⟨_ | _, p3⟩
  · right
    constructor
    · intro hfit
      unfold Fits at hfit
      rw [List.map_singleton, tablesOf_singleton] at hfit
      obtain ⟨n, p2', p3', ha, hm'⟩ :=
        @placeUserPage_fits _ _ _ _ _ _ _ userStackBase (pteU ||| pteR ||| pteW) ho hr Page.zero
          hfit
      rw [h.stack] at ha
      cases ha
      have hm'' : mapPage (p2.zeroPage page) (st.rootOf i) userStackBase (pageAddr page)
        (pteU ||| pteR ||| pteW) = (true, p3') := hm'
      rw [hm] at hm''
      cases hm''
    · obtain ⟨hp, -⟩ := placed_alloc (i := i) ho h.stack Page.zero
      obtain ⟨-, T, -, hT⟩ := mapPage_false hp.owned hr hm
      have hboth := (hp.trans hT).of_eq (Finset.empty_union T) fun _ => rfl
      rw [hphys, hm]
      exact ⟨T, hboth.grows, hboth.entries⟩
  · left
    rw [hphys, hm]
    exact realised_single ho hr userFlags_heap h.stack Page.zero hm

theorem complete_iff_of_placed (hb : Bare L st i) (ht : trees st' = trees st)
    (hask : Asked elf pl true) (hflags : ∀ x ∈ pl, UserFlags x.flags)
    (hreal : Realised L.protectedEnd (trees st) i (pl ++ [stackPlacement]) st.phys st'.phys) :
    LoadComplete st i elf true st' ↔ LoadsWhole st i elf := by
  have hkept := hreal.kept_iff hb.sound.owned (userFlags_append_stack hflags) hb.clear
  constructor
  · intro h
    have hlaid := hkept.mp (by rw [← ht]; exact h.kept)
    refine ⟨fun pl₁ whole hask₁ pl' hpre _ => ?_, fun pl₁ hask₁ _ => ?_⟩
    · obtain ⟨rfl, -⟩ := hask.unique hask₁
      exact hlaid.of_prefix (hpre.trans (List.prefix_append _ _))
    · obtain ⟨rfl, -⟩ := hask.unique hask₁
      refine ⟨hreal.fits, hlaid, fun ph hph k hk => ?_⟩
      by_contra hno
      have hnone : lastAt (pl ++ [stackPlacement])
          (pageNo (ph.pVaddr + BitVec.ofNat 64 k)) = none := by
        rw [lastAt_none]
        intro x hx he
        exact hno ⟨x, hx, he⟩
      have hmapped := h.segments rfl ph hph k hk
      rw [entryOf, ht, hreal.absent _ hnone] at hmapped
      have hbare := hb.entries (pageNo (ph.pVaddr + BitVec.ofNat 64 k))
      rw [entryOf] at hbare
      rw [hbare] at hmapped
      exact userLeaf_kernelEntry _ hmapped
  · intro h
    have hleft : FrameLeft (trees st) i pl st.phys := by
      have hfit := hreal.fits
      unfold Fits at hfit
      rw [List.length_append, List.map_append, tablesOf_append] at hfit
      have hsub : (tableSet st.phys (trees st) i ∪ tablesOf (pl.map (·.page))).card ≤
          (tableSet st.phys (trees st) i ∪ (tablesOf (pl.map (·.page)) ∪
            tablesOf ([stackPlacement].map (·.page)))).card :=
        Finset.card_le_card (Finset.union_subset_union_right Finset.subset_union_left)
      rw [List.length_singleton] at hfit
      unfold FrameLeft
      omega
    obtain ⟨-, hlaid, hcovers⟩ := h.stack pl hask hleft
    have hplaced : ∀ x ∈ pl ++ [stackPlacement],
        ∃ n, Filled (trees st) st.phys st'.phys n x.content ∧
        entryOf st' i x.page = userWord n x.flags := by
      intro x hx
      obtain ⟨n, hf, he⟩ := hreal.present x.page x (lastAt_of_nodup hlaid.once hx)
      exact ⟨n, hf, by rw [entryOf, ht]; exact he⟩
    refine ⟨fun _ => ?_, fun _ ph hph k hk => ?_, ?_⟩
    · obtain ⟨n, hf, he⟩ :=
        hplaced stackPlacement (List.mem_append_right _ (List.mem_singleton_self _))
      exact ⟨n, hf.inUse, hf.content, he⟩
    · obtain ⟨x, hx, hpage⟩ := hcovers ph hph k hk
      obtain ⟨n, -, he⟩ := hplaced x hx
      rw [← hpage, he]
      exact ⟨userWord_valid n x.flags, isLeaf_userWord (hlaid.accessible x hx),
        userWord_user (userFlags_append_stack hflags x hx)⟩
    · rw [ht]
      exact hkept.mpr hlaid

theorem complete_iff_of_lost {p1 : Phys} {T : Finset (List (Fin 512))} (hb : Bare L st i)
    (ht : trees st' = trees st) (hask : Asked elf pl true)
    (hreal : Realised L.protectedEnd (trees st) i pl st.phys p1)
    (hgrows : Grows L.protectedEnd (trees st) i T 1 p1 st'.phys)
    (hentries : ∀ q, entry st'.phys.mem ((trees st).root i) q = entry p1.mem ((trees st).root i) q)
    (hfull : ¬ Fits (trees st) i [stackPlacement] p1) :
    LoadComplete st i elf true st' ↔ LoadsWhole st i elf := by
  classical
  constructor
  · intro h
    -- the lost frame is one too many
    have hcard := (hreal.grows.trans hgrows).kept_card hb.sound.owned (by rw [← ht]; exact h.kept)
      (S := (pl.map (·.page)).toFinset) fun q f hf hu => by
        rw [List.mem_toFinset]
        cases hl : lastAt pl q with
        | none =>
          rw [held_leaf, hentries, hreal.absent q hl, ← held_leaf, hb.clear] at hf
          cases hf
        | some x =>
          obtain ⟨hx, hpage⟩ := lastAt_some hl
          exact hpage ▸ List.mem_map_of_mem hx
    have hlen := List.toFinset_card_le (pl.map (·.page))
    rw [List.length_map] at hlen
    omega
  · intro h
    have hleft : FrameLeft (trees st) i pl st.phys := by
      have h1 := hreal.grows.count
      have h2 := hgrows.count
      have hsub : tableSet p1 (trees st) i ⊆ tableSet st'.phys (trees st) i := by
        rw [hgrows.tables]
        exact Finset.subset_union_left
      have h3 := Finset.card_le_card hsub
      rw [hreal.grows.tables] at h1 h2 h3
      unfold FrameLeft
      omega
    exact absurd (hreal.room (h.stack pl hask hleft).1) hfull

theorem complete_iff_of_stopped {wanted : List Placement} (hb : Bare L st i)
    (ht : trees st' = trees st) (hask : Asked elf wanted whole)
    (hflags : ∀ x ∈ wanted, UserFlags x.flags)
    (h : StoppedAt L.protectedEnd (trees st) i wanted st.phys st'.phys) :
    LoadComplete st i elf false st' ↔ LoadsWhole st i elf := by
  obtain ⟨done, x, rest, p1, rfl, hreal, ⟨T, hT⟩, hfull⟩ := h.reached
  have hpre : done <+: done ++ x :: rest := List.prefix_append _ _
  have hkept := hreal.kept_iff hb.sound.owned (fun y hy => hflags y (hpre.subset hy)) hb.clear
  have hmore : ∀ pl', pl' <+: done ++ x :: rest → Fits (trees st) i pl' st.phys → pl' <+: done := by
    intro pl' hp hfit
    have hnext : done ++ [x] <+: done ++ x :: rest := ⟨rest, by simp⟩
    rcases List.prefix_or_prefix_of_prefix hp hnext with hle | hge
    · rcases List.prefix_concat_iff.mp hle with rfl | hle
      · exact absurd (hreal.room hfit) hfull
      · exact hle
    · exact absurd (hreal.room (hfit.of_prefix hge)) hfull
  constructor
  · intro h
    have hk := h.kept
    rw [ht] at hk
    have hlaid : WellLaid done := hkept.mp fun f hu => by
      by_cases hold : InUse st.phys f
      · exact Or.inl hold
      · right
        obtain ⟨path, hpath⟩ := (hk f (hT.grows.inUse f hu)).resolve_left hold
        refine ⟨path, ?_⟩
        rcases node_cases hpath with hlen | ⟨q, rfl⟩
        · exact (hT.grows.fresh path f hlen hpath).resolve_right fun hno => hno hu
        · rw [held_leaf, hT.entries] at hpath
          rw [held_leaf]
          exact hpath
    refine ⟨fun pl₁ whole' hask₁ pl' hp hfit => ?_, fun pl₁ hask₁ hleft => ?_⟩
    · obtain ⟨rfl, -⟩ := hask.unique hask₁
      exact hlaid.of_prefix (hmore pl' hp hfit)
    · obtain ⟨rfl, -⟩ := hask.unique hask₁
      have hall := (hmore _ List.prefix_rfl hleft.fits).length_le
      rw [List.length_append, List.length_cons] at hall
      omega
  · intro h
    apply LoadComplete.of_failed
    have hlaid := h.laid _ whole hask done hpre hreal.fits
    have htight := (hreal.tight (fun y hy => hflags y (hpre.subset hy)) hlaid.accessible hlaid.once
      fun y _ => hb.clear y.page).trans hT.tight_none
    rw [ht]
    exact htight.kept hb.sound.owned

/-- All pages are placed and no frame is left for the stack. -/
theorem complete_iff_of_full (hb : Bare L st i) (ht : trees st' = trees st)
    (hask : Asked elf pl true) (hflags : ∀ x ∈ pl, UserFlags x.flags)
    (hreal : Realised L.protectedEnd (trees st) i pl st.phys st'.phys)
    (hfull : freeFrames st'.phys = 0) :
    LoadComplete st i elf false st' ↔ LoadsWhole st i elf := by
  have hkept := hreal.kept_iff hb.sound.owned hflags hb.clear
  constructor
  · intro h
    have hlaid := hkept.mp (by rw [← ht]; exact h.kept)
    refine ⟨fun pl₁ whole hask₁ pl' hp _ => ?_, fun pl₁ hask₁ hleft => ?_⟩
    · obtain ⟨rfl, -⟩ := hask.unique hask₁
      exact hlaid.of_prefix hp
    · obtain ⟨rfl, -⟩ := hask.unique hask₁
      have hcount := hreal.grows.count
      rw [hreal.grows.tables] at hcount
      unfold FrameLeft at hleft
      omega
  · intro h
    apply LoadComplete.of_failed
    rw [ht]
    exact hkept.mpr (h.laid pl true hask pl List.prefix_rfl hreal.fits)

/-- A load that returned -1. -/
inductive LoadFailed (st : KState) (i : Slot) (elf : Addr → Except Stop Byte) (st' : KState) : Prop
  | badMagic (h : readLe elf 0 4 ≠ .ok elfNum) (hp : st'.phys = st.phys)
  | stopped (phoff phnum : ℕ) (hm : readLe elf 0 4 = .ok elfNum)
      (hoff : readLe elf 0x20 8 = .ok phoff) (hnum : readLe elf 0x38 2 = .ok phnum)
      (message : String) (maxEnd : Addr)
      (h : loadSegments elf (st.rootOf i) (phdrAddrs (BitVec.ofNat 64 phoff) phnum) 0 st.phys =
        .ok (some message, maxEnd, st'.phys))
  | full (phoff phnum : ℕ) (hm : readLe elf 0 4 = .ok elfNum)
      (hoff : readLe elf 0x20 8 = .ok phoff) (hnum : readLe elf 0x38 2 = .ok phnum) (maxEnd : Addr)
      (h : loadSegments elf (st.rootOf i) (phdrAddrs (BitVec.ofNat 64 phoff) phnum) 0 st.phys =
        .ok (none, maxEnd, st'.phys))
      (hfull : freeFrames st'.phys = 0)

theorem loadElf_false (h : loadElf st i elf = .ok (false, st')) :
    LoadFailed st i elf st' ∧ trees st' = trees st := by
  unfold loadElf at h
  obtain ⟨magic, hmagic, h⟩ := bind_eq_ok.mp h
  split_ifs at h with hm
  · cases h
    refine ⟨.badMagic (fun he => ?_) rfl, rfl⟩
    rw [hmagic] at he
    cases he
    exact hm rfl
  rw [not_not] at hm
  subst hm
  obtain ⟨phoff, hphoff, h⟩ := bind_eq_ok.mp h
  obtain ⟨phnum, hphnum, h⟩ := bind_eq_ok.mp h
  obtain ⟨⟨message, maxEnd, p1⟩, hseg, h⟩ := bind_eq_ok.mp h
  cases message with
  | some m =>
    cases h
    exact ⟨.stopped phoff phnum hmagic hphoff hphnum m maxEnd hseg, rfl⟩
  | none =>
    obtain ⟨entry, hentry, h⟩ := bind_eq_ok.mp h
    simp only at h
    rcases ha : pmmAllocPage p1 with ⟨_ | page, p2⟩
    · simp only [KState.setFrame, KState.modifyProc, ha] at h
      cases h
      have hsame := pmmAllocPage_none_eq ha
      have hzero := pmmAllocPage_none.mp (show (pmmAllocPage p1).1 = none by rw [ha])
      refine ⟨.full phoff phnum hmagic hphoff hphnum maxEnd hseg hzero, ?_⟩
      have halike := alike_frame { st with phys := p1 } i fun tf =>
        { tf with sepc := BitVec.ofNat 64 entry }
      exact halike.trees_eq
    · simp only [KState.setFrame, KState.modifyProc, ha] at h
      cases h

/-- A load of a new address space is complete exactly when the frames suffice for the stack's
tables too and the segments have pages of their own, each with a permission, that reach to
their ends. -/
theorem load_complete_iff (hb : Bare L st i) (h : loadElf st i elf = .ok (ok, st')) :
    LoadComplete st i elf ok st' ↔ LoadsWhole st i elf := by
  have hroot := hb.sound.root hb.used
  cases ok with
  | true =>
    obtain ⟨phoff, phnum, start, page, maxEnd, p1, p2, hl⟩ := loadElf_true h
    obtain ⟨pl, hpl, hreal⟩ := loadSegments_ensures hb.sound.owned hroot _ 0 _ hl.segments rfl
    have hask : Asked elf pl true :=
      ⟨hl.magic, phoff, phnum, hl.phoff_eq, hl.phnum_eq, wantedSegments_of_plan hpl⟩
    rcases hl.stack_cases hreal.grows.owned hroot with hstack | ⟨hfull, T, hgrows, hentries⟩
    · exact complete_iff_of_placed hb hl.trees_eq hask (planSegments_userFlags hpl)
        (hreal.append hstack)
    · exact complete_iff_of_lost hb hl.trees_eq hask hreal hgrows hentries hfull
  | false =>
    obtain ⟨hfail, ht⟩ := loadElf_false h
    cases hfail with
    | badMagic hm hp =>
      refine iff_of_true (LoadComplete.of_failed ?_)
        ⟨fun _ _ hask => absurd hask.1 hm, fun _ hask => absurd hask.1 hm⟩
      rw [hp]
      exact .refl _ _ _
    | stopped phoff phnum hm hoff hnum message maxEnd hseg =>
      exact @complete_iff_of_stopped _ _ _ _ _ (wantedSegments elf
        (phdrAddrs (BitVec.ofNat 64 phoff) phnum)).2 _ hb ht ⟨hm, phoff, phnum, hoff, hnum, rfl⟩
        wantedSegments_userFlags (loadSegments_stopped hb.sound.owned hroot _ 0 _ hseg (by simp))
    | full phoff phnum hm hoff hnum maxEnd hseg hfull =>
      obtain ⟨pl, hpl, hreal⟩ := loadSegments_ensures hb.sound.owned hroot _ 0 _ hseg rfl
      exact complete_iff_of_full hb ht
        ⟨hm, phoff, phnum, hoff, hnum, wantedSegments_of_plan hpl⟩ (planSegments_userFlags hpl)
        hreal hfull

/-- The pages of an image whose headers can be read are there if three frames for each of them and
for the stack are left. -/
theorem loadsWhole_of_plan {phoff phnum start : ℕ} {maxEnd : Addr}
    (hplan : Plan elf phoff phnum start pl maxEnd) (hlaid : WellLaid (pl ++ [stackPlacement]))
    (hcover : ∀ ph, Segment elf ph → ∀ k < ph.pMemsz.toNat, ∃ x ∈ pl,
      x.page = pageNo (ph.pVaddr + BitVec.ofNat 64 k))
    (hroom : 3 * pl.length + 3 ≤ freeFrames st.phys) : LoadsWhole st i elf := by
  have hask : Asked elf pl true :=
    ⟨hplan.magic, phoff, phnum, hplan.phoff_eq, hplan.phnum_eq,
      wantedSegments_of_plan hplan.segments⟩
  constructor
  · intro pl' whole hask' pre hp _
    obtain ⟨rfl, -⟩ := hask.unique hask'
    exact hlaid.of_prefix (hp.trans (List.prefix_append _ _))
  · intro pl' hask' _
    obtain ⟨rfl, -⟩ := hask.unique hask'
    refine ⟨?_, hlaid, fun ph hph k hk => ?_⟩
    · have hunion := Finset.card_union_le (tableSet st.phys (trees st) i)
        (tablesOf ((pl ++ [stackPlacement]).map (·.page)))
      have htwo := tablesOf_card ((pl ++ [stackPlacement]).map (·.page))
      rw [List.length_map, List.length_append, List.length_singleton] at htwo
      unfold Fits
      rw [List.length_append, List.length_singleton]
      omega
    · obtain ⟨x, hx, hpage⟩ := hcover ph hph k hk
      exact ⟨x, List.mem_append_left _ hx, hpage⟩

/-- A program with a page of its file, and a stack. -/
theorem load_complete_iff_self : ∃ st i elf st', Bare smallLayout st i ∧
    loadElf st i elf = .ok (true, st') ∧ LoadComplete st i elf true st' := by
  obtain ⟨st, h⟩ := boot_returns selfImage
  obtain ⟨mid, i, elf, fin, hb, hfree, hl, hfile⟩ := booted_loads h
  have hroom := small_room
  have hlen : selfImage.placements.length = 1 := rfl
  have hplan : Plan elf 64 1 0x400000 selfImage.placements 0x401000 :=
    selfImage.plan.below (hfile selfImage)
  refine ⟨mid, i, elf, fin, hb, hl, (load_complete_iff hb hl).mpr ?_⟩
  refine loadsWhole_of_plan hplan ⟨by decide, fun x hx => ?_⟩ (fun ph hph k hk => ?_) (by omega)
  · rcases List.mem_append.mp hx with hx | hx
    all_goals
      obtain rfl := List.mem_singleton.mp hx
      exact (by decide : isLeaf (pteU ||| pteR ||| pteW))
  · refine ⟨_, List.mem_singleton_self _, ?_⟩
    obtain ⟨phoff, phnum, hoff, hnum, a, ha, hread⟩ := hph
    cases hplan.phoff_eq.symm.trans hoff
    cases hplan.phnum_eq.symm.trans hnum
    have haddrs : phdrAddrs (BitVec.ofNat 64 64) 1 = [64] := by decide
    rw [haddrs] at ha
    obtain rfl := List.mem_singleton.mp ha
    have hheader := readPhdr_below (hfile selfImage) 64 _ (show readPhdr selfFile 64 =
      .ok (some ⟨1, 6, 0, 0x400000, 24, 4096⟩) by rfl)
    cases hheader.symm.trans hread
    -- all its bytes lie in one page
    have hk : k < 4096 := hk
    rw [pageNo_eq_iff, BitVec.toNat_add, BitVec.toNat_ofNat]
    show 0x400000 / 4096 % 2 ^ 27 = (0x400000 + k % 2 ^ 64) % 2 ^ 64 / 4096 % 2 ^ 27
    omega

/-- A kernel image that leaves 140 frames of RAM, one more than the first process needs before
its image is loaded. -/
def fullLayout : Layout := pageLayout 0x87F72 (by decide)

def fullImage : InitImage fullLayout smallRam where
  entry := ⟨48, 64⟩
  phoff := 0
  phnum := 0
  start := 0x400000
  placements := []
  maxEnd := 0
  found := by rfl
  plan := ⟨by rfl, by rfl, by rfl, by rfl, by rfl⟩
  fits := by
    simp [tablesOf, kernelTables_card]
    decide

/-- In the first gigabyte the kernel has mappings near its devices only. -/
theorem table_not_kernel {k : Fin 512} (hk : k.val ≠ 0x60 ∧ k.val ≠ 0x61 ∧ k.val ≠ 0x80) :
    ([k, 0] : List (Fin 512)) ∉ kernelTables := by
  rw [mem_kernelTables]
  rintro ⟨q, hq, hmid | hlow⟩
  · have hlen := congrArg List.length hmid
    simp [PageNo.mid] at hlen
  · have h1 : k = q.2.1 ∧ (0 : Fin 512) = q.1 := by simpa [PageNo.low] using hlow
    have h2 : q.number = k.val * 2 ^ 9 + q.2.2.val := by
      rw [PageNo.number, ← h1.1, ← h1.2]
      simp
    have h3 := q.2.2.isLt
    unfold KernelPage at hq
    simp only [plicBase, plicSize, uart0Base, textStart, ramLast] at hq
    omega

theorem stackTable_not_kernel : (pageNo userStackBase).low ∉ kernelTables := by
  have hstack : (pageNo userStackBase).low = [511, 0] := by decide
  rw [hstack]
  exact table_not_kernel (by decide)

/-- With one frame left for the stack and none for its table, the first process is started without
it. -/
theorem stack_page_lost : ∃ st i elf st', Bare fullLayout st i ∧
    loadElf st i elf = .ok (true, st') ∧ ¬ LoadComplete st i elf true st' := by
  obtain ⟨st, h⟩ := boot_returns fullImage
  obtain ⟨mid, i, elf, fin, hb, hfree, hl, hfile⟩ := booted_loads h
  have hroom : ramLast - fullLayout.protectedEnd = 140 := by decide
  refine ⟨mid, i, elf, fin, hb, hl, fun hcomplete => ?_⟩
  have hwhole := (load_complete_iff hb hl).mp hcomplete
  have hplan := fullImage.plan.below (hfile fullImage)
  have hask : Asked elf [] true :=
    ⟨hplan.magic, _, _, hplan.phoff_eq, hplan.phnum_eq, wantedSegments_of_plan hplan.segments⟩
  have htables := hb.tables
  have hleft : FrameLeft (trees mid) i [] mid.phys := by
    show (tableSet mid.phys (trees mid) i ∪ ∅).card + 0 + 1 ≤ _
    rw [Finset.union_empty]
    omega
  obtain ⟨hfit, -⟩ := hwhole.stack [] hask hleft
  -- so there would have to be a table for the stack already
  have hcard : (tableSet mid.phys (trees mid) i ∪ tablesOf [pageNo userStackBase]).card + 1 ≤
      freeFrames mid.phys + (tableSet mid.phys (trees mid) i).card := hfit
  have hsub : kernelTables ∪ tablesOf [pageNo userStackBase] ⊆ kernelTables := by
    rw [htables] at hcard
    have heq := Finset.eq_of_subset_of_card_le
      (@Finset.subset_union_left _ _ kernelTables (tablesOf [pageNo userStackBase])) (by omega)
    rw [← heq]
  apply stackTable_not_kernel
  apply hsub
  apply Finset.mem_union_right
  rw [tablesOf_singleton, mem_tables]
  exact Or.inr rfl

end Complete

end Lazux
