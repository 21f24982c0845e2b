import Lazux.Allocator

/-! # What a program may rely on

The blocks of live requests never overlap, the list has every block, and no block promises more
than the kernel has granted. -/
namespace Lazux

open PagedMemory ByteMemory

/-- The list is intact, the blocks in use are apart from each other and from the headers, and
requests can be served. -/
structure Integrity (l : Ledger) (u : User) : Prop where
  list : Linked u.mem u.globalBase l.created
  increasing : l.created.Pairwise fun c d => c.toNat < d.toNat
  below : ∀ p size, l.live p = some size → p.toNat + size.toNat ≤ u.heapBreak.toNat
  apart : ∀ p q m n, p ≠ q → l.live p = some m → l.live q = some n →
    p.toNat + m.toNat ≤ q.toNat ∨ q.toNat + n.toNat ≤ p.toNat
  headers : ∀ p size c, l.live p = some size → c ∈ l.created →
    p.toNat + size.toNat ≤ c.toNat ∨ c.toNat + 24 ≤ p.toNat
  unused : ∀ c ∈ l.created, Free u.mem 0 c ↔ l.live (c + 24) = none
  frees : ∀ p, p = 0 ∨ p ∈ l.returned → ∃ u', free p u = .ok u'
  mallocs : ∀ frames size, size ≠ 0 → size.toNat + 24 < 2 ^ 31 →
    (¬ u.Fits size → u.Grants frames (request size)) →
    ∃ fuel p u', malloc frames fuel size u = .ok (p, u') ∧ p ≠ 0 ∧ l.live p = none ∧
      (u'.heapBreak = u.heapBreak ↔ u.Fits size)

/-- Requests below 2 GiB for which `SYS_SBRK` does not fail. -/
def Succeeds (u : User) (frames : Bool) (size : Word) : Prop :=
  size.toNat + 24 < 2 ^ 31 ∧ (size ≠ 0 → ¬ u.Fits size → u.Grants frames (request size))

section Integrity

variable {start : Addr} {l : Ledger} {u u' : User} {bs : List Block} {b : Block}
  {first : ℕ} {size : Word} {frames : Bool} {p : Addr}

/-- The break does not wrap around, so a grant leaves the heap below its limit. -/
theorem Arranged.room (h : Arranged start l u bs first) (hlow : start.toNat ≤ 2 ^ 64 - 2 ^ 31)
    (hsize : size.toNat + 24 < 2 ^ 31) (hg : u.Grants frames (request size)) :
    Room u frames size := by
  obtain ⟨hreq, -⟩ := request_small hsize
  obtain ⟨-, -, hmax, hframes⟩ := hg
  have hbreak : u.heapBreak.toNat ≤ 2 ^ 64 - 2 ^ 31 := by
    rcases h.bounded with ⟨hstart, -⟩ | hle
    · rw [hstart]
      exact hlow
    · rw [heapLimit_toNat] at hle
      omega
  refine ⟨hsize, ?_, hframes⟩
  rw [gt_iff_lt, BitVec.lt_def, BitVec.toNat_add, Nat.mod_eq_of_lt (by omega)] at hmax
  omega

theorem Arranged.met_unused (h : Arranged start l u bs first) (hm : Met u bs size p u')
    (hsmall : u'.heapBreak.toNat ≤ 0x3FFFE000) (hfirst : first = start.toNat) :
    p ≠ 0 ∧ l.live p = none := by
  cases hm with
  | reused b hb hfree hle hp hbreak =>
    obtain ⟨-, -, -, hptr⟩ := h.block hb
    rw [hp]
    refine ⟨fun h0 => ?_, (h.free b hb).mp hfree⟩
    rw [h0] at hptr
    simp at hptr
  | created hnone hp hbreak =>
    obtain ⟨hptr, hne⟩ := @break_ptr u (by omega)
    rw [hp]
    refine ⟨hne, Option.eq_none_iff_forall_ne_some.mpr fun n hl => ?_⟩
    rcases h.live _ n hl with ⟨h1, h2⟩ | ⟨b, hb, hpb, hle⟩
    · omega
    · obtain ⟨-, hstop, -, hbptr⟩ := h.block hb
      rw [← hpb] at hbptr
      omega

theorem Arranged.met_small (h : Arranged start l u bs first) (hm : Met u bs size p u')
    (hroom : (∀ b ∈ bs, ¬ (b.free = true ∧ size ≤ b.size)) → Room u frames size) :
    u'.heapBreak.toNat ≤ 0x3FFFE000 := by
  cases hm with
  | reused b hb hfree hle hp hbreak =>
    rw [hbreak]
    exact (h.block hb).2.2.1
  | created hnone hp hbreak =>
    have hlimit := (hroom hnone).limit
    rw [heapLimit_toNat] at hlimit
    omega

theorem Arranged.integrity (h : Arranged start l u bs first) (h0 : start ≠ 0)
    (hlow : start.toNat ≤ 2 ^ 64 - 2 ^ 31) : Integrity l u := by
  obtain ⟨hfirst, hcreated⟩ := h.created.resolve_right h0
  have hlive : ∀ p size, l.live p = some size → ∃ b ∈ bs, p = b.addr + 24 ∧ size ≤ b.size := by
    intro p size hl
    rcases h.live p size hl with ⟨h1, h2⟩ | hin
    · omega
    · exact hin
  constructor
  · exact h.linked.mpr hcreated
  · rw [hcreated]
    exact h.chain.increasing
  · intro p size hl
    obtain ⟨b, hb, rfl, hle⟩ := hlive p size hl
    obtain ⟨-, hstop, -, hptr⟩ := h.block hb
    rw [BitVec.le_def] at hle
    omega
  · intro p q m n hne hp hq
    obtain ⟨b, hb, rfl, hle⟩ := hlive p m hp
    obtain ⟨c, hc, rfl, hle'⟩ := hlive q n hq
    have hbptr := (h.block hb).2.2.2
    have hcptr := (h.block hc).2.2.2
    rw [BitVec.le_def] at hle hle'
    rcases h.chain.apart hb hc with rfl | happ | happ
    · exact absurd rfl hne
    · omega
    · omega
  · intro p size c hl hc
    obtain ⟨b, hb, rfl, hle⟩ := hlive p size hl
    rw [hcreated] at hc
    obtain ⟨d, hd, rfl⟩ := List.mem_map.mp hc
    have hbptr := (h.block hb).2.2.2
    rw [BitVec.le_def] at hle
    rcases h.chain.apart hb hd with rfl | happ | happ
    · omega
    · omega
    · omega
  · intro c hc
    rw [hcreated] at hc
    obtain ⟨b, hb, rfl⟩ := List.mem_map.mp hc
    obtain ⟨z, hs⟩ := h.chain.stored_of_mem hb
    rw [hs.free_iff, ← h.free b hb]
    exact and_iff_left (Nat.zero_le _)
  · intro p hp
    obtain ⟨u', bs', hgo, -⟩ := h.free_goes hp
    exact ⟨u', hgo⟩
  · intro frames size hne hsize hgrant
    have hcan : (∃ b ∈ bs, b.free = true ∧ size ≤ b.size) ∨ Room u frames size := by
      by_cases hfit : u.Fits size
      · exact Or.inl (h.fits_iff.mp hfit)
      · exact Or.inr (h.room hlow hsize (hgrant hfit))
    obtain ⟨p, u', bs', first', hgo, hmet, -⟩ := h.malloc_goes hne hcan (bs.length + 1)
    have hsmall := h.met_small hmet fun hnone => hcan.resolve_left fun ⟨b, hb, hfit⟩ =>
      hnone b hb hfit
    obtain ⟨hp, hunused⟩ := h.met_unused hmet hsmall hfirst
    refine ⟨bs.length + 1, p, u', ?_, hp, hunused, ?_⟩
    · rcases hgo with hgo | ⟨hfuel, -⟩
      · exact hgo
      · omega
    · rw [h.fits_iff]
      cases hmet with
      | reused b hb hfree hle hp hbreak => exact iff_of_true hbreak ⟨b, hb, hfree, hle⟩
      | created hnone hp hbreak =>
        refine iff_of_false (fun he => ?_) fun ⟨b, hb, hfit⟩ => hnone b hb hfit
        rw [he] at hbreak
        omega

def fresh (start : Addr) : User := ⟨fun _ => none, start, 0⟩

/-- The first block of a heap that starts at address 0 is not on the list. -/
theorem first_block_lost : ∃ l u, Uses Succeeds 0 l u ∧ l.created = [0] ∧
    ¬ Linked u.mem u.globalBase l.created := by
  have harr : Arranged 0 .empty (fresh 0) [] 0 := Arranged.begin rfl rfl rfl
  have hroom : Room (fresh 0) true 1 := ⟨by decide, by decide, rfl⟩
  obtain ⟨p, u', bs', first', hgo, hmet, -⟩ := harr.malloc_goes (by decide) (Or.inr hroom) 1
  have hret : malloc true 1 1 (fresh 0) = .ok (p, u') := by
    rcases hgo with hgo | ⟨hfuel, -⟩
    · exact hgo
    · exact absurd hfuel (by decide)
  have hruns : Uses Succeeds 0 _ u' :=
    (Uses.start (fresh 0) rfl rfl).malloc true 1 1 p u' ⟨by decide, fun _ _ => hroom.grants⟩ hret
  have hsmall := harr.met_small hmet fun _ => hroom
  have hp := (harr.met_unused hmet hsmall rfl).1
  have hcreated : (Ledger.empty.malloced (fresh 0) u' p 1).created = [0] := by
    cases hmet with
    | reused b hb => cases hb
    | created hnone hp' hbreak =>
      have hmoved : u'.heapBreak ≠ (fresh 0).heapBreak := by
        intro he
        rw [he] at hbreak
        exact absurd hbreak (by decide)
      rw [malloced_grown hp hmoved]
      rfl
  refine ⟨_, u', hruns, hcreated, ?_⟩
  rw [hcreated]
  intro ⟨_, hne, _⟩
  exact hne rfl

/-- A break just below the end of the address space wraps around, and the block is not there. -/
theorem wrapped_malloc (haligned : start.toNat % 4096 = 0) (hhigh : 2 ^ 64 - 2 ^ 31 < start.toNat) :
    ∃ size : Word, size ≠ 0 ∧ size.toNat + 24 < 2 ^ 31 ∧
      (fresh start).Grants true (request size) ∧
      ∀ fuel p u', malloc true fuel size (fresh start) ≠ .ok (p, u') := by
  have hlt := start.isLt
  obtain ⟨size, hsize⟩ : ∃ size : Word, size.toNat = 2 ^ 64 - start.toNat - 24 :=
    ⟨BitVec.ofNat 64 (2 ^ 64 - start.toNat - 24), by rw [BitVec.toNat_ofNat]; omega⟩
  obtain ⟨hreq, hneg⟩ := @request_small size (by omega)
  have hsum : start + request size = 0 := by
    apply BitVec.eq_of_toNat_eq
    rw [BitVec.toNat_add]
    show _ = 0
    omega
  have h0 : size ≠ 0 := by
    intro h0
    rw [h0] at hsize
    simp at hsize
    omega
  have hg : (fresh start).Grants true (request size) := by
    refine ⟨fun h => ?_, ?_, ?_, rfl⟩
    · rw [h] at hreq
      simp at hreq
    · rw [hneg]
      exact Bool.false_ne_true
    · show ¬ start + request size > heapLimit
      rw [hsum]
      decide
  refine ⟨size, h0, by omega, hg, fun fuel p u' hret => ?_⟩
  cases fuel with
  | zero =>
    rw [malloc, if_neg h0] at hret
    cases hret
  | succ fuel =>
    have hanswer : start ≠ -1 := by
      rintro rfl
      exact absurd haligned (by decide)
    have hnone : ((fresh start).grow (request size)).store start 8 size =
        .error (.fault start) := by
      have hmem : ((fresh start).grow (request size)).mem = fun _ => none := by
        funext va
        show (if pageCeil start ≤ va ∧ va < pageCeil (start + request size) then _ else _) = _
        have hnot : ¬ (pageCeil start ≤ va ∧ va < pageCeil 0) := by
          rintro ⟨_, hlt⟩
          exact absurd hlt (by simp [pageCeil, pageFloor])
        rw [hsum, if_neg hnot]
        rfl
      rw [User.store, hmem]
      rfl
    have hnew : newBlock true 0 size (fresh start) = .error (.fault start) := by
      rw [newBlock, sbrk_granted hg]
      change (if start = -1 then _ else _) = _
      rw [if_neg hanswer]
      change ((fresh start).grow (request size)).store start 8 size >>= _ = _
      rw [hnone]
      rfl
    rw [malloc, if_neg h0] at hret
    change newBlock true 0 size (fresh start) = _ at hret
    rw [hnew] at hret
    cases hret

/-- The heap is intact in every run exactly if it neither starts at address 0 nor so high that
the break can wrap around. -/
theorem heap_intact (maxEnd : Addr) :
    (∀ l u, Uses Succeeds (pageCeil maxEnd) l u → Integrity l u) ↔
      pageCeil maxEnd ≠ 0 ∧ (pageCeil maxEnd).toNat ≤ 2 ^ 64 - 2 ^ 31 := by
  have haligned : (pageCeil maxEnd).toNat % 4096 = 0 := by
    rw [pageCeil, pageFloor_toNat]
    omega
  constructor
  · intro h
    constructor
    · intro h0
      rw [h0] at h
      obtain ⟨l, u, hruns, -, hnot⟩ := first_block_lost
      exact hnot (h l u hruns).list
    · by_contra hhigh
      obtain ⟨size, h0, hsize, hg, hnot⟩ := wrapped_malloc haligned (Nat.lt_of_not_le hhigh)
      obtain ⟨fuel, p, u', hret, -⟩ :=
        (h _ _ (.start (fresh _) rfl rfl)).mallocs true size h0 hsize fun _ => hg
      exact hnot fuel p u' hret
  · rintro ⟨h0, hlow⟩ l u hruns
    obtain ⟨bs, first, harr⟩ :=
      hruns.arranged haligned fun l u bs first frames size harr hok hne => by
      by_cases hfit : u.Fits size
      · exact Or.inl hfit
      · exact Or.inr (harr.room hlow hok.1 (hok.2 hne hfit))
    exact harr.integrity h0 hlow

end Integrity

end Lazux
