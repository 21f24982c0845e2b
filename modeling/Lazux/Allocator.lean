import Lazux.Blocks

/-! # Runs of the allocator

What a program has asked for is kept beside its memory: the blocks that were created, the pointers
that were returned, and the sizes of those in use. -/
namespace Lazux

open PagedMemory ByteMemory

structure Ledger where
  created : List Addr
  returned : List Addr
  live : Addr → Option Word

def Ledger.empty : Ledger := ⟨[], [], fun _ => none⟩

/-- A block is created where the break was if the heap has grown. -/
def Ledger.malloced (l : Ledger) (u u' : User) (p : Addr) (size : Word) : Ledger :=
  if p = 0 then l
  else
    { created := if u'.heapBreak = u.heapBreak then l.created else l.created ++ [u.heapBreak]
      returned := p :: l.returned
      live := Function.update l.live p (some size) }

def Ledger.freed (l : Ledger) (p : Addr) : Ledger :=
  { l with live := Function.update l.live p none }

theorem freed_live_ne {l : Ledger} {p q : Addr} (h : q ≠ p) : (l.freed p).live q = l.live q := by
  unfold Ledger.freed
  exact Function.update_of_ne h _ _

theorem freed_live_some {l : Ledger} {p q : Addr} {size : Word}
    (h : (l.freed p).live q = some size) : l.live q = some size := by
  by_cases hq : q = p
  · subst hq
    rw [Ledger.freed] at h
    dsimp only at h
    rw [Function.update_self] at h
    cases h
  · rw [← freed_live_ne hq]
    exact h

def Ledger.Owns (l : Ledger) (x : Addr) : Prop :=
  ∃ p size, l.live p = some size ∧ p.toNat ≤ x.toNat ∧ x.toNat < p.toNat + size.toNat

/-- Calls of `malloc` that meet `ok`, calls of `free`, and writes to live blocks and to memory
outside the heap. -/
inductive Uses (ok : User → Bool → Word → Prop) (start : Addr) : Ledger → User → Prop where
  | start (u : User) (hbreak : u.heapBreak = start) (hbase : u.globalBase = 0) :
      Uses ok start .empty u
  | malloc {l : Ledger} {u : User} (h : Uses ok start l u) (frames fuel size p u')
      (hok : ok u frames size) (hret : malloc frames fuel size u = .ok (p, u')) :
      Uses ok start (l.malloced u u' p size) u'
  | free {l : Ledger} {u : User} (h : Uses ok start l u) (p u') (hp : p = 0 ∨ p ∈ l.returned)
      (hret : free p u = .ok u') : Uses ok start (l.freed p) u'
  | write {l : Ledger} {u : User} (h : Uses ok start l u) (m : Bytes)
      (hmapped : ∀ x, (m x).isSome = (u.mem x).isSome)
      (hsame : ∀ x, m x = u.mem x ∨ l.Owns x ∨ x.toNat < start.toNat ∨
        u.heapBreak.toNat ≤ x.toNat) :
      Uses ok start l { u with mem := m }

/-- The list from `p` on, through the headers. -/
def Linked (m : Bytes) : Addr → List Addr → Prop
  | p, [] => p = 0
  | p, c :: cs => p = c ∧ c ≠ 0 ∧
      ∃ next : Addr, load m (c + 8) 8 = some next.toNat ∧ Linked m next cs

def Free (m : Bytes) (size : Word) (c : Addr) : Prop :=
  (∃ isFree, load m (c + 16) 4 = some isFree ∧ isFree ≠ 0) ∧
    ∃ room, load m c 8 = some room ∧ size.toNat ≤ room

def User.Fits (u : User) (size : Word) : Prop :=
  ∃ cs, Linked u.mem u.globalBase cs ∧ ∃ c ∈ cs, Free u.mem size c

def User.Grants (u : User) (frames : Bool) (increment : Word) : Prop :=
  increment ≠ 0 ∧ ¬ increment.msb ∧ ¬ u.heapBreak + increment > heapLimit ∧ frames

/-- What `malloc` hands to the kernel. -/
def request (size : Word) : Word := ((metaSize + size).setWidth 32).signExtend 64

/-- The heap of a program: `[first, break)` is divided into the blocks on the list. -/
structure Arranged (start : Addr) (l : Ledger) (u : User) (bs : List Block) (first : ℕ) : Prop where
  base : u.globalBase = headOr bs 0
  chain : Chain u.mem 0 bs first u.heapBreak.toNat
  low : start.toNat ≤ first
  bounded : u.heapBreak = start ∧ bs = [] ∨ u.heapBreak.toNat ≤ heapLimit.toNat
  mapped : ∀ x : Addr, start.toNat ≤ x.toNat → x.toNat < (pageCeil u.heapBreak).toNat →
    (u.mem x).isSome
  returned : ∀ p ∈ l.returned, (start.toNat + 24 ≤ p.toNat ∧ p.toNat ≤ first) ∨
    ∃ b ∈ bs, p = b.addr + 24
  live : ∀ p size, l.live p = some size →
    (start.toNat + 24 ≤ p.toNat ∧ p.toNat + size.toNat ≤ first) ∨
      ∃ b ∈ bs, p = b.addr + 24 ∧ size ≤ b.size
  free : ∀ b ∈ bs, b.free = true ↔ l.live (b.addr + 24) = none
  created : first = start.toNat ∧ l.created = bs.map Block.addr ∨ start = 0
  positive : ∀ b ∈ bs, b.addr ≠ 0

section Steps

variable {start : Addr} {l : Ledger} {u u' : User} {bs pre post : List Block} {b c : Block}
  {first : ℕ} {size : Word} {frames : Bool} {p : Addr} {m : Bytes}

theorem request_small (h : size.toNat + 24 < 2 ^ 31) :
    (request size).toNat = size.toNat + 24 ∧ (request size).msb = false := by
  have hsum : (metaSize + size).toNat = size.toNat + 24 := by
    rw [BitVec.toNat_add, metaSize]
    show (24 + size.toNat) % 2 ^ 64 = _
    omega
  have hlow : ((metaSize + size).setWidth 32).toNat = size.toNat + 24 := by
    rw [BitVec.toNat_setWidth, hsum]
    omega
  have hpos : ((metaSize + size).setWidth 32).msb = false := by
    rw [BitVec.msb_eq_decide, hlow]
    simp only [decide_eq_false_iff_not, not_le]
    omega
  have hval : (request size).toNat = size.toNat + 24 := by
    rw [request, BitVec.signExtend_eq_setWidth_of_msb_false hpos, BitVec.toNat_setWidth, hlow]
    omega
  refine ⟨hval, ?_⟩
  rw [BitVec.msb_eq_decide, hval]
  simp only [decide_eq_false_iff_not, not_le]
  omega

theorem sbrk_granted {increment : BitVec 32} (h : u.Grants frames (increment.signExtend 64)) :
    u.sbrk frames increment = (u.heapBreak, u.grow (increment.signExtend 64)) := by
  obtain ⟨h0, hneg, hmax, hframes⟩ := h
  rw [User.sbrk, User.sysSbrk, if_neg h0, if_neg hneg, if_neg hmax, if_pos hframes]

theorem heapLimit_toNat : heapLimit.toNat = 0x3FFFE000 := by decide

/-- The end of the heap leaves room in the address space. -/
theorem Arranged.stop_small (h : Arranged start l u bs first) (hne : bs ≠ []) :
    u.heapBreak.toNat ≤ 0x3FFFE000 := by
  rcases h.bounded with ⟨-, hnil⟩ | hle
  · exact absurd hnil hne
  · rw [heapLimit_toNat] at hle
    exact hle

theorem Arranged.block (h : Arranged start l u bs first) (hb : b ∈ bs) :
    first ≤ b.addr.toNat ∧ b.addr.toNat + 24 + b.size.toNat ≤ u.heapBreak.toNat ∧
      u.heapBreak.toNat ≤ 0x3FFFE000 ∧ (b.addr + 24).toNat = b.addr.toNat + 24 := by
  have hspan := h.chain.span hb
  have hsmall := h.stop_small (List.ne_nil_of_mem hb)
  refine ⟨hspan.1, hspan.2, hsmall, ?_⟩
  exact toNat_add_small (k := 24) (n := 25) (by omega) (by omega)

theorem Arranged.header_not_owned (h : Arranged start l u bs first) (hb : b ∈ bs) {x : Addr}
    (h1 : b.addr.toNat ≤ x.toNat) (h2 : x.toNat < b.addr.toNat + 24) : ¬ l.Owns x := by
  intro ⟨p, size, hl, hp1, hp2⟩
  have hblock := h.block hb
  rcases h.live p size hl with ⟨-, hlow⟩ | ⟨c, hc, rfl, hle⟩
  · omega
  · have hother := h.block hc
    rw [BitVec.le_def] at hle
    rcases h.chain.apart hb hc with rfl | happ | happ
    · omega
    · omega
    · omega

theorem Arranged.begin (haligned : start.toNat % 4096 = 0) (hbreak : u.heapBreak = start)
    (hbase : u.globalBase = 0) : Arranged start .empty u [] start.toNat := by
  constructor
  · exact hbase
  · rw [hbreak]
    rfl
  · exact Nat.le_refl _
  · exact Or.inl ⟨hbreak, rfl⟩
  · intro x h1 h2
    rw [hbreak, pageCeil_of_aligned haligned] at h2
    omega
  · intro p hp
    cases hp
  · intro p size hl
    cases hl
  · intro b hb
    cases hb
  · exact Or.inl ⟨rfl, rfl⟩
  · intro b hb
    cases hb

theorem Arranged.write (h : Arranged start l u bs first)
    (hmapped : ∀ x, (m x).isSome = (u.mem x).isSome)
    (hsame : ∀ x, m x = u.mem x ∨ l.Owns x ∨ x.toNat < start.toNat ∨ u.heapBreak.toNat ≤ x.toNat) :
    Arranged start l { u with mem := m } bs first := by
  refine { h with chain := ?_, mapped := ?_ }
  · apply h.chain.congr (Nat.le_of_lt u.heapBreak.isLt)
    intro b hb x h1 h2
    have hblock := h.block hb
    have hlow := h.low
    rcases hsame x with he | ho | hout | hout
    · exact he
    · exact absurd ho (h.header_not_owned hb h1 h2)
    · omega
    · omega
  · intro x h1 h2
    rw [hmapped x]
    exact h.mapped x h1 h2

theorem le_pageCeil {a : Addr} (h : a.toNat ≤ 0x3FFFE000) : a.toNat ≤ (pageCeil a).toNat := by
  rw [pageCeil_toNat (by omega)]
  omega

theorem Arranged.store_below (h : Arranged start l u bs first) {va : Addr} {n : ℕ} (w : ℕ)
    (hsmall : u.heapBreak.toNat ≤ 0x3FFFE000) (h1 : start.toNat ≤ va.toNat)
    (h2 : va.toNat + n ≤ u.heapBreak.toNat) : ∃ m', store u.mem va n w = some m' := by
  have hceil := le_pageCeil hsmall
  exact store_exists w h.mapped (Nat.le_of_lt (BitVec.isLt _)) h1 (h2.trans hceil)

theorem Arranged.flagged {f : Bool} {l' : Ledger} {v : Option Word}
    (h : Arranged start l u (pre ++ b :: post) first)
    (hm : store u.mem (b.addr + 16) 4 f.toNat = some m) (hcreated : l'.created = l.created)
    (hreturned : ∀ p ∈ l'.returned, p = b.addr + 24 ∨ p ∈ l.returned)
    (hlive : l'.live = Function.update l.live (b.addr + 24) v) (hf : f = true ↔ v = none)
    (hsize : ∀ size, v = some size → size ≤ b.size) :
    Arranged start l' { u with mem := m } (pre ++ { b with free := f } :: post) first := by
  have hin : b ∈ pre ++ b :: post := List.mem_append_right pre List.mem_cons_self
  obtain ⟨hlow, hstop, hsmall, hptr⟩ := h.block hin
  obtain ⟨hbefore, hbehind⟩ := h.chain.around
  obtain ⟨h8, h16⟩ := @toNat_header b (by omega)
  -- the same blocks, but for the flag
  have hmem : ∀ c, c ∈ pre ++ b :: post → ∃ d ∈ pre ++ { b with free := f } :: post,
      d.addr = c.addr ∧ d.size = c.size := by
    intro c hc
    rcases List.mem_append.mp hc with hpre | hrest
    · exact ⟨c, List.mem_append_left _ hpre, rfl, rfl⟩
    · rcases List.mem_cons.mp hrest with rfl | hpost
      · exact ⟨_, List.mem_append_right pre List.mem_cons_self, rfl, rfl⟩
      · exact ⟨c, List.mem_append_right pre (List.mem_cons_of_mem _ hpost), rfl, rfl⟩
  constructor
  · rw [headOr_append]
    refine h.base.trans ?_
    rw [headOr_append]
    rfl
  · refine h.chain.replace (h.chain.stored.setFree (by omega) hm) (by omega) ?_
    intro c hc x h1 h2
    apply store_outside hm (by omega)
    rcases hc with hpre | hpost
    · have := hbefore c hpre
      omega
    · have := hbehind c hpost
      omega
  · exact h.low
  · right
    rw [heapLimit_toNat]
    exact hsmall
  · intro x h1 h2
    rw [store_mapped hm]
    exact h.mapped x h1 h2
  · intro p hp
    have hcase : (start.toNat + 24 ≤ p.toNat ∧ p.toNat ≤ first) ∨
        ∃ c ∈ pre ++ b :: post, p = c.addr + 24 := by
      rcases hreturned p hp with rfl | hold
      · exact Or.inr ⟨b, hin, rfl⟩
      · exact h.returned p hold
    rcases hcase with hlost | ⟨c, hc, rfl⟩
    · exact Or.inl hlost
    · obtain ⟨d, hd, ha, -⟩ := hmem c hc
      exact Or.inr ⟨d, hd, by rw [ha]⟩
  · intro p size hl
    rw [hlive] at hl
    by_cases hp : p = b.addr + 24
    · rw [hp, Function.update_self] at hl
      obtain ⟨d, hd, ha, hs⟩ := hmem b hin
      refine Or.inr ⟨d, hd, ?_, ?_⟩
      · rw [hp, ha]
      · rw [hs]
        exact hsize size hl
    · rw [Function.update_of_ne hp] at hl
      rcases h.live p size hl with hlost | ⟨c, hc, rfl, hle⟩
      · exact Or.inl hlost
      · obtain ⟨d, hd, ha, hs⟩ := hmem c hc
        refine Or.inr ⟨d, hd, by rw [ha], ?_⟩
        rw [hs]
        exact hle
  · -- a pointer of another block is not the one that changes
    have hother : ∀ c, c ∈ pre ++ b :: post → c.addr.toNat ≠ b.addr.toNat →
        (c.free = true ↔ l'.live (c.addr + 24) = none) := by
      intro c hc hne
      have hcptr := (h.block hc).2.2.2
      have hp : c.addr + 24 ≠ b.addr + 24 := by
        intro he
        have := congrArg BitVec.toNat he
        omega
      rw [hlive, Function.update_of_ne hp]
      exact h.free c hc
    intro c hc
    rcases List.mem_append.mp hc with hpre | hrest
    · have := hbefore c hpre
      exact hother c (List.mem_append_left _ hpre) (by omega)
    · rcases List.mem_cons.mp hrest with rfl | hpost
      · rw [hlive]
        dsimp only
        rw [Function.update_self]
        exact hf
      · have := hbehind c hpost
        exact hother c (List.mem_append_right pre (List.mem_cons_of_mem _ hpost)) (by omega)
  · rcases h.created with ⟨hfirst, hc⟩ | h0
    · left
      refine ⟨hfirst, ?_⟩
      rw [hcreated, hc, List.map_append, List.map_append]
      rfl
    · exact Or.inr h0
  · intro c hc
    rcases List.mem_append.mp hc with hpre | hrest
    · exact h.positive c (List.mem_append_left _ hpre)
    · rcases List.mem_cons.mp hrest with rfl | hpost
      · exact h.positive b hin
      · exact h.positive c (List.mem_append_right pre (List.mem_cons_of_mem _ hpost))

theorem store_ok {va : Addr} {n : ℕ} {w : Word} (h : store u.mem va n w.toNat = some m) :
    u.store va n w = .ok { u with mem := m } := by
  rw [User.store, h]

/-- A pointer that was returned can be freed, also twice. -/
theorem Arranged.free_goes (h : Arranged start l u bs first) (hp : p = 0 ∨ p ∈ l.returned) :
    ∃ u' bs', Lazux.free p u = .ok u' ∧ Arranged start (l.freed p) u' bs' first := by
  by_cases h0 : p = 0
  · subst h0
    refine ⟨u, bs, if_pos rfl, { h with live := ?_, free := ?_ }⟩
    · intro p size hl
      exact h.live p size (freed_live_some hl)
    · intro b hb
      have hptr := (h.block hb).2.2.2
      have hne : b.addr + 24 ≠ 0 := by
        intro he
        rw [he] at hptr
        simp at hptr
      rw [freed_live_ne hne]
      exact h.free b hb
  · have hin := hp.resolve_left h0
    have hfree : Lazux.free p u = u.store (p - metaSize + 16) 4 1 := if_neg h0
    rcases h.returned p hin with ⟨h1, h2⟩ | ⟨b, hb, rfl⟩
    · -- a block that is not on the list
      have hva : (p - metaSize + 16).toNat = p.toNat - 8 := by
        have hback : p - metaSize + 16 = p - 8 := by
          rw [metaSize]
          bv_omega
        have h8 : (8 : Addr) ≤ p := by
          rw [BitVec.le_def]
          show 8 ≤ p.toNat
          omega
        rw [hback, BitVec.toNat_sub_of_le h8]
        rfl
      have hlow := h.low
      have hstop := h.chain.le
      have hsmall : u.heapBreak.toNat ≤ 0x3FFFE000 := by
        rcases h.bounded with ⟨hstart, -⟩ | hle
        · rw [hstart] at hstop
          omega
        · rw [heapLimit_toNat] at hle
          exact hle
      obtain ⟨m, hm⟩ :=
        @Arranged.store_below _ _ _ _ _ h (p - metaSize + 16) 4 (1 : Word).toNat hsmall
        (by omega) (by omega)
      refine ⟨{ u with mem := m }, bs, hfree.trans (store_ok hm),
        { h with chain := ?_, mapped := ?_, live := ?_, free := ?_ }⟩
      · apply h.chain.congr (Nat.le_of_lt u.heapBreak.isLt)
        intro b hb x h3 h4
        have hblock := h.block hb
        apply store_outside hm (by omega)
        omega
      · intro x h3 h4
        rw [store_mapped hm]
        exact h.mapped x h3 h4
      · intro q size hl
        exact h.live q size (freed_live_some hl)
      · intro b hb
        have hblock := h.block hb
        have hne : b.addr + 24 ≠ p := by
          rintro rfl
          omega
        rw [freed_live_ne hne]
        exact h.free b hb
    · obtain ⟨pre, post, rfl⟩ := List.append_of_mem hb
      obtain ⟨hlow, hstop, hsmall, hptr⟩ := h.block hb
      have hva : b.addr + 24 - metaSize + 16 = b.addr + 16 := by
        rw [metaSize, BitVec.add_sub_cancel]
      have hstart := h.low
      obtain ⟨h8, h16⟩ := @toNat_header b (by omega)
      obtain ⟨m, hm⟩ := @Arranged.store_below _ _ _ _ _ h (b.addr + 16) 4 (1 : Word).toNat hsmall
        (by omega) (by omega)
      refine ⟨{ u with mem := m }, _, ?_, h.flagged (f := true) (v := none) hm rfl
        (fun q hq => Or.inr hq) rfl (by simp) (by simp)⟩
      rw [hfree, hva]
      exact store_ok hm

theorem Arranged.reuse_goes (h : Arranged start l u (pre ++ b :: post) first)
    (hle : size ≤ b.size) : ∃ m, u.store (b.addr + 16) 4 0 = .ok { u with mem := m } ∧
      Arranged start (l.malloced u { u with mem := m } (b.addr + 24) size) { u with mem := m }
        (pre ++ { b with free := false } :: post) first := by
  have hin : b ∈ pre ++ b :: post := List.mem_append_right pre List.mem_cons_self
  obtain ⟨hlow, hstop, hsmall, hptr⟩ := h.block hin
  have hstart := h.low
  obtain ⟨h8, h16⟩ := @toNat_header b (by omega)
  obtain ⟨m, hm⟩ := @Arranged.store_below _ _ _ _ _ h (b.addr + 16) 4 (0 : Word).toNat hsmall
    (by omega) (by omega)
  have hne : b.addr + 24 ≠ 0 := by
    intro he
    rw [he] at hptr
    simp at hptr
  refine ⟨m, store_ok hm, h.flagged (f := false) (v := some size) hm ?_ ?_ ?_ (by simp) ?_⟩
  · rw [Ledger.malloced, if_neg hne]
    exact if_pos rfl
  · intro q hq
    rw [Ledger.malloced, if_neg hne] at hq
    exact List.mem_cons.mp hq
  · rw [Ledger.malloced, if_neg hne]
  · intro n hn
    obtain rfl := Option.some.inj hn
    exact hle

theorem Arranged.grow_mem (h : Arranged start l u bs first) {increment : Word}
    (hsum : (u.heapBreak + increment).toNat = u.heapBreak.toNat + increment.toNat)
    (hlimit : u.heapBreak.toNat + increment.toNat ≤ 0x3FFFE000) :
    (∀ x : Addr, x.toNat < u.heapBreak.toNat → (u.grow increment).mem x = u.mem x) ∧
    ∀ x : Addr, start.toNat ≤ x.toNat → x.toNat < (pageCeil (u.grow increment).heapBreak).toNat →
      ((u.grow increment).mem x).isSome := by
  have hceil := @le_pageCeil u.heapBreak (by omega)
  constructor
  · intro x hx
    unfold User.grow
    dsimp only
    rw [if_neg]
    intro ⟨hle, _⟩
    rw [BitVec.le_def] at hle
    omega
  · intro x h1 h2
    unfold User.grow at h2 ⊢
    dsimp only at h2 ⊢
    split
    · rfl
    · rename_i hnot
      apply h.mapped x h1
      rw [not_and, BitVec.le_def, BitVec.lt_def] at hnot
      by_contra hge
      exact hnot (Nat.le_of_not_lt hge) h2

theorem lastOr_cases (bs : List Block) : bs = [] ∨ ∃ init b, bs = init ++ [b] := by
  rcases List.eq_nil_or_concat bs with rfl | ⟨init, b, rfl⟩
  · exact Or.inl rfl
  · exact Or.inr ⟨init, b, List.concat_eq_append⟩

theorem Chain.link (h : Chain u.mem 0 bs first u.heapBreak.toNat)
    (hb : b.addr = u.heapBreak) (hsmall : u.heapBreak.toNat + 24 + b.size.toNat ≤ 2 ^ 63)
    (hnew : b.Stored 0 m) (hne : bs ≠ [])
    (hpos : ∀ c ∈ bs, c.addr ≠ 0)
    (hsame : ∀ x : Addr, x.toNat < u.heapBreak.toNat → m x = u.mem x)
    (hmapped : ∀ x : Addr, first ≤ x.toNat → x.toNat < u.heapBreak.toNat → (m x).isSome) :
    lastOr bs 0 ≠ 0 ∧ ∃ m', store m (lastOr bs 0 + 8) 8 u.heapBreak.toNat = some m' ∧
      Chain m' 0 (bs ++ [b]) first (u.heapBreak.toNat + 24 + b.size.toNat) := by
  rcases lastOr_cases bs with rfl | ⟨init, c, rfl⟩
  · exact absurd rfl hne
  have hin : c ∈ init ++ [c] := List.mem_append_right init List.mem_cons_self
  rw [lastOr_append]
  have hspan := h.span hin
  obtain ⟨h8, h16⟩ := @toNat_header c (by omega)
  obtain ⟨m', hm'⟩ := @store_exists m (c.addr + 8) 8 first u.heapBreak.toNat u.heapBreak.toNat
    hmapped (by omega) (by omega) (by omega)
  refine ⟨hpos c hin, m', hm', ?_⟩
  obtain ⟨mid, hinit, hlast, hs, hstop⟩ := chain_append.mp h
  have hcongr : Block.Stored c 0 m := by
    apply hs.congr (by omega)
    intro x h1 h2
    exact hsame x (by omega)
  have hnew' : b.Stored 0 m' := by
    apply hnew.congr
    · rw [hb]
      omega
    · intro x h1 h2
      rw [hb] at h1
      apply store_outside hm' (by omega)
      omega
  rw [List.append_assoc]
  refine chain_append.mpr ⟨mid, ?_, hlast, ?_, ?_, hnew', ?_⟩
  · apply hinit.congr (by omega)
    intro d hd x h1 h2
    have hd' := (hinit.span hd).2
    rw [store_outside hm' (by omega) (by omega)]
    exact hsame x (by omega)
  · have hset := hcongr.setNext (z := u.heapBreak) (by omega) hm'
    rw [← hb] at hset
    exact hset
  · rw [hb]
    exact hstop.symm
  · show mid + 24 + c.size.toNat + 24 + b.size.toNat = _
    have hstop' : mid + 24 + c.size.toNat = u.heapBreak.toNat := hstop
    omega

theorem break_ptr (h : u.heapBreak.toNat + 24 ≤ 0x3FFFE000) :
    (u.heapBreak + 24).toNat = u.heapBreak.toNat + 24 ∧ u.heapBreak + 24 ≠ 0 := by
  have hptr := @toNat_add_small u.heapBreak 24 25 (by omega) (by omega)
  refine ⟨hptr, fun he => ?_⟩
  have hzero := congrArg BitVec.toNat he
  rw [show u.heapBreak + 24 = u.heapBreak + BitVec.ofNat 64 24 from rfl, hptr] at hzero
  simp at hzero

theorem malloced_grown (hp : p ≠ 0) (hb : u'.heapBreak ≠ u.heapBreak) :
    l.malloced u u' p size =
      ⟨l.created ++ [u.heapBreak], p :: l.returned, Function.update l.live p (some size)⟩ := by
  rw [Ledger.malloced, if_neg hp, if_neg hb]

theorem Arranged.appended (h : Arranged start l u bs first) (hb : b.addr = u.heapBreak)
    (hfree : b.free = false) (h0 : u.heapBreak ≠ 0)
    (hbreak : u'.heapBreak.toNat = u.heapBreak.toNat + 24 + b.size.toNat)
    (hlimit : u'.heapBreak.toNat ≤ 0x3FFFE000) (hbase : u'.globalBase = headOr (bs ++ [b]) 0)
    (hchain : Chain u'.mem 0 (bs ++ [b]) first (u.heapBreak.toNat + 24 + b.size.toNat))
    (hmapped : ∀ x : Addr, start.toNat ≤ x.toNat → x.toNat < (pageCeil u'.heapBreak).toNat →
      (u'.mem x).isSome) :
    Arranged start (l.malloced u u' (u.heapBreak + 24) b.size) u' (bs ++ [b]) first := by
  obtain ⟨hptr, hne⟩ := @break_ptr u (by omega)
  have hmoved : u'.heapBreak ≠ u.heapBreak := by
    intro he
    rw [he] at hbreak
    omega
  have hlast : b ∈ bs ++ [b] := List.mem_append_right bs List.mem_cons_self
  rw [malloced_grown hne hmoved]
  constructor
  · exact hbase
  · rw [hbreak]
    exact hchain
  · exact h.low
  · right
    rw [heapLimit_toNat]
    exact hlimit
  · exact hmapped
  · intro q hq
    rcases List.mem_cons.mp hq with rfl | hold
    · exact Or.inr ⟨b, hlast, by rw [hb]⟩
    · rcases h.returned q hold with hlost | ⟨c, hc, rfl⟩
      · exact Or.inl hlost
      · exact Or.inr ⟨c, List.mem_append_left _ hc, rfl⟩
  · intro q n hl
    by_cases hq : q = u.heapBreak + 24
    · dsimp only at hl
      rw [hq, Function.update_self] at hl
      obtain rfl := Option.some.inj hl
      refine Or.inr ⟨b, hlast, ?_, BitVec.le_refl _⟩
      rw [hq, hb]
    · dsimp only at hl
      rw [Function.update_of_ne hq] at hl
      rcases h.live q n hl with hlost | ⟨c, hc, rfl, hle⟩
      · exact Or.inl hlost
      · exact Or.inr ⟨c, List.mem_append_left _ hc, rfl, hle⟩
  · intro c hc
    dsimp only
    rcases List.mem_append.mp hc with hold | hnew
    · obtain ⟨-, hstop, -, hcptr⟩ := h.block hold
      have hq : c.addr + 24 ≠ u.heapBreak + 24 := by
        intro he
        have := congrArg BitVec.toNat he
        omega
      rw [Function.update_of_ne hq]
      exact h.free c hold
    · obtain rfl := List.mem_singleton.mp hnew
      rw [hb, Function.update_self, hfree]
      simp
  · rcases h.created with ⟨hfirst, hc⟩ | h0
    · left
      refine ⟨hfirst, ?_⟩
      rw [hc, List.map_append, List.map_singleton, hb]
    · exact Or.inr h0
  · intro c hc
    rcases List.mem_append.mp hc with hold | hnew
    · exact h.positive c hold
    · obtain rfl := List.mem_singleton.mp hnew
      rw [hb]
      exact h0

/-- A block at address 0 does not get on the list. -/
theorem Arranged.lost (h : Arranged start l u bs first) (h0 : u.heapBreak = 0)
    (hbreak : u'.heapBreak.toNat = u.heapBreak.toNat + 24 + size.toNat)
    (hlimit : u'.heapBreak.toNat ≤ 0x3FFFE000) (hbase : u'.globalBase = 0)
    (hmapped : ∀ x : Addr, start.toNat ≤ x.toNat → x.toNat < (pageCeil u'.heapBreak).toNat →
      (u'.mem x).isSome) :
    bs = [] ∧
      Arranged start (l.malloced u u' (u.heapBreak + 24) size) u' [] u'.heapBreak.toNat := by
  have hzero : u.heapBreak.toNat = 0 := congrArg BitVec.toNat h0
  have hfirst : first = 0 := by
    have := h.chain.le
    omega
  have hstart : start = 0 := by
    apply BitVec.eq_of_toNat_eq
    have := h.low
    show start.toNat = 0
    omega
  have hnil : bs = [] := by
    by_contra hne
    obtain ⟨b, hb⟩ := List.exists_mem_of_ne_nil bs hne
    have := (h.chain.span hb).2
    omega
  subst hnil
  obtain ⟨hptr, hne⟩ := @break_ptr u (by omega)
  have hmoved : u'.heapBreak ≠ u.heapBreak := by
    intro he
    rw [he] at hbreak
    omega
  refine ⟨rfl, ?_⟩
  rw [malloced_grown hne hmoved]
  constructor
  · exact hbase
  · rfl
  · rw [hstart]
    exact Nat.zero_le _
  · right
    rw [heapLimit_toNat]
    exact hlimit
  · exact hmapped
  · intro q hq
    left
    rcases List.mem_cons.mp hq with rfl | hold
    · rw [hstart, hptr, hbreak]
      show 0 + 24 ≤ _ ∧ _
      omega
    · rcases h.returned q hold with ⟨h1, h2⟩ | ⟨c, hc, -⟩
      · omega
      · cases hc
  · intro q n hl
    left
    dsimp only at hl
    by_cases hq : q = u.heapBreak + 24
    · rw [hq, Function.update_self] at hl
      obtain rfl := Option.some.inj hl
      rw [hq, hptr, hbreak, hstart]
      show 0 + 24 ≤ _ ∧ _
      omega
    · rw [Function.update_of_ne hq] at hl
      rcases h.live q n hl with ⟨h1, h2⟩ | ⟨c, hc, -⟩
      · omega
      · cases hc
  · intro c hc
    cases hc
  · exact Or.inr hstart
  · intro c hc
    cases hc

theorem made_header {high : ℕ} {low : ℕ} (hb : low ≤ b.addr.toNat)
    (hhigh : b.addr.toNat + 24 ≤ high) (hsmall : high ≤ 2 ^ 63)
    (hm : ∀ x : Addr, low ≤ x.toNat → x.toNat < high → (u.mem x).isSome) :
    ∃ m₁ m₂ m₃, store u.mem b.addr 8 b.size.toNat = some m₁ ∧
      store m₁ (b.addr + 16) 4 b.free.toNat = some m₂ ∧
      store m₂ (b.addr + 8) 8 (0 : Addr).toNat = some m₃ ∧ b.Stored 0 m₃ ∧
      (∀ x : Addr, x.toNat < b.addr.toNat → m₃ x = u.mem x) ∧
      ∀ x, (m₃ x).isSome = (u.mem x).isSome := by
  obtain ⟨h8, h16⟩ := @toNat_header b (by omega)
  obtain ⟨m₁, h1⟩ := @store_exists u.mem b.addr 8 low high b.size.toNat hm (by omega) (by omega)
    (by omega)
  have hm1 := store_mapped h1
  obtain ⟨m₂, h2⟩ := @store_exists m₁ (b.addr + 16) 4 low high b.free.toNat
    (fun x hx hx' => by rw [hm1]; exact hm x hx hx') (by omega) (by omega) (by omega)
  have hm2 := store_mapped h2
  obtain ⟨m₃, h3⟩ := @store_exists m₂ (b.addr + 8) 8 low high (0 : Addr).toNat
    (fun x hx hx' => by rw [hm2, hm1]; exact hm x hx hx') (by omega) (by omega) (by omega)
  refine ⟨m₁, m₂, m₃, h1, h2, h3, Block.Stored.made (by omega) h1 h2 h3, fun x hx => ?_,
    fun x => ?_⟩
  · rw [store_outside h3 (by omega) (by omega), store_outside h2 (by omega) (by omega),
      store_outside h1 (by omega) (by omega)]
  · rw [store_mapped h3, hm2, hm1]

theorem Arranged.newBlock_goes (h : Arranged start l u bs first) (hb : b.addr = u.heapBreak)
    (hfree : b.free = false) (hsize : b.size.toNat + 24 < 2 ^ 31)
    (hg : u.Grants frames (request b.size))
    (hlimit : u.heapBreak.toNat + 24 + b.size.toNat ≤ 0x3FFFE000) :
    ∃ u' bs' first', newBlock frames (lastOr bs 0) b.size u = .ok (u.heapBreak + 24, u') ∧
      u'.heapBreak.toNat = u.heapBreak.toNat + 24 + b.size.toNat ∧ (∃ z, b.Stored z u'.mem) ∧
      Arranged start (l.malloced u u' (u.heapBreak + 24) b.size) u' bs' first' := by
  obtain ⟨hreq, -⟩ := request_small hsize
  have hsum : (u.heapBreak + request b.size).toNat =
      u.heapBreak.toNat + (request b.size).toNat := by
    rw [BitVec.toNat_add]
    exact Nat.mod_eq_of_lt (by omega)
  obtain ⟨hsame, hmapped⟩ := h.grow_mem hsum (by omega)
  have hstart := h.low.trans h.chain.le
  have hbreak : (u.grow (request b.size)).heapBreak.toNat =
      u.heapBreak.toNat + 24 + b.size.toNat := by
    show (u.heapBreak + request b.size).toNat = _
    omega
  have hend : (u.grow (request b.size)).heapBreak.toNat ≤ 0x3FFFE000 := by omega
  have hceil := le_pageCeil hend
  obtain ⟨m₁, m₂, m, h1, h2, h3, hstored, hbelow, hkept⟩ :=
    @made_header (u.grow (request b.size)) b (u.grow (request b.size)).heapBreak.toNat start.toNat
      (by rw [hb]; exact hstart) (by rw [hb]; omega) (by omega)
      (fun x hx hx' => hmapped x hx (by omega))
  rw [hb] at h1 h2 h3 hbelow
  rw [hfree] at h2
  have hold : ∀ x : Addr, x.toNat < u.heapBreak.toNat → m x = u.mem x := by
    intro x hx
    rw [hbelow x hx, hsame x hx]
  have hall : ∀ x : Addr, start.toNat ≤ x.toNat →
      x.toNat < (pageCeil (u.grow (request b.size)).heapBreak).toNat → (m x).isSome := by
    intro x hx hx'
    rw [hkept]
    exact hmapped x hx hx'
  have hanswer : u.heapBreak ≠ -1 := by
    intro he
    have := congrArg BitVec.toNat he
    simp at this
    omega
  have hgoes : newBlock frames (lastOr bs 0) b.size u = (do
      let u' ← if lastOr bs 0 = 0 then
          pure { u.grow (request b.size) with mem := m, globalBase := u.heapBreak }
        else
          ({ u.grow (request b.size) with mem := m } : User).store (lastOr bs 0 + 8) 8 u.heapBreak
      pure (u.heapBreak + metaSize, u')) := by
    have hsbrk := sbrk_granted hg
    rw [newBlock, hsbrk]
    dsimp only
    rw [if_neg hanswer]
    have hs1 := @store_ok (u.grow (request b.size)) m₁ u.heapBreak 8 b.size h1
    have hs2 := @store_ok { u.grow (request b.size) with mem := m₁ } m₂ (u.heapBreak + 16) 4 0 h2
    have hs3 := @store_ok { u.grow (request b.size) with mem := m₂ } m (u.heapBreak + 8) 8 0 h3
    change (u.grow (request b.size)).store u.heapBreak 8 b.size >>= _ = _
    rw [hs1]
    change ({ u.grow (request b.size) with mem := m₁ } : User).store _ 4 0 >>= _ = _
    rw [hs2]
    change ({ u.grow (request b.size) with mem := m₂ } : User).store _ 8 0 >>= _ = _
    rw [hs3]
    rfl
  rw [hgoes]
  by_cases hnil : bs = []
  · subst hnil
    rw [lastOr, if_pos rfl]
    by_cases h0 : u.heapBreak = 0
    · have hlost := @Arranged.lost _ _ _
        { u.grow (request b.size) with mem := m, globalBase := u.heapBreak }
        _ _ b.size h h0 hbreak hend h0 hall
      exact ⟨_, [], _, rfl, hbreak, ⟨0, hstored⟩, hlost.2⟩
    · have hfirst : first = u.heapBreak.toNat := h.chain
      refine ⟨_, [b], first, rfl, hbreak, ⟨0, hstored⟩, ?_⟩
      refine h.appended hb hfree h0 hbreak hend hb.symm ⟨?_, hstored, ?_⟩ hall
      · rw [hb, hfirst]
      · rw [hfirst]
        rfl
  · obtain ⟨hlast, m', hm', hchain⟩ := h.chain.link hb (by omega)
      hstored hnil h.positive hold (fun x hx hx' => hall x (h.low.trans hx) (by omega))
    rw [if_neg hlast, @store_ok { u.grow (request b.size) with mem := m } m' _ 8 u.heapBreak hm']
    have h0 : u.heapBreak ≠ 0 := by
      intro he
      obtain ⟨b, hb⟩ := List.exists_mem_of_ne_nil bs hnil
      have hstop := (h.chain.span hb).2
      rw [he] at hstop
      simp at hstop
    have hnew := hchain.stored_of_mem (List.mem_append_right bs (List.mem_singleton_self b))
    refine ⟨_, bs ++ [b], first, rfl, hbreak, hnew, ?_⟩
    refine h.appended hb hfree h0 hbreak hend ?_ hchain ?_
    · rw [headOr_append]
      cases bs with
      | nil => exact absurd rfl hnil
      | cons b bs => exact h.base
    · intro x hx hx'
      dsimp only
      rw [store_mapped hm']
      exact hall x hx hx'

structure Room (u : User) (frames : Bool) (size : Word) : Prop where
  narrow : size.toNat + 24 < 2 ^ 31
  limit : u.heapBreak.toNat + 24 + size.toNat ≤ heapLimit.toNat
  frames : frames = true

theorem Room.grants (h : Room u frames size) : u.Grants frames (request size) := by
  obtain ⟨hreq, hneg⟩ := request_small h.narrow
  have hlimit := h.limit
  have hl := heapLimit_toNat
  refine ⟨?_, ?_, ?_, h.frames⟩
  · intro h0
    rw [h0] at hreq
    simp at hreq
  · rw [hneg]
    exact Bool.false_ne_true
  · rw [gt_iff_lt, BitVec.lt_def, BitVec.toNat_add]
    omega

/-- How a request was served. -/
inductive Met (u : User) (bs : List Block) (size : Word) (p : Addr) (u' : User) : Prop where
  | reused (b : Block) (hb : b ∈ bs) (hfree : b.free = true) (hle : size ≤ b.size)
      (hp : p = b.addr + 24) (hbreak : u'.heapBreak = u.heapBreak)
      (hroom : load u'.mem b.addr 8 = some b.size.toNat)
  | created (hnone : ∀ b ∈ bs, ¬ (b.free = true ∧ size ≤ b.size)) (hp : p = u.heapBreak + 24)
      (hbreak : u'.heapBreak.toNat = u.heapBreak.toNat + 24 + size.toNat)
      (hroom : load u'.mem u.heapBreak 8 = some size.toNat)

theorem Arranged.malloc_goes (h : Arranged start l u bs first) (h0 : size ≠ 0)
    (hok : (∃ b ∈ bs, b.free = true ∧ size ≤ b.size) ∨ Room u frames size) (fuel : ℕ) :
    ∃ p u' bs' first', (malloc frames fuel size u = .ok (p, u') ∨
        fuel ≤ bs.length ∧ malloc frames fuel size u = .error .loops) ∧
      Met u bs size p u' ∧ Arranged start (l.malloced u u' p size) u' bs' first' := by
  have hsearch := @findFreeBlock_eq _ _ _ size _ h.chain h.positive fuel 0
  rw [← h.base] at hsearch
  have hstop : findFreeBlock u size fuel u.globalBase 0 = .error .loops →
      malloc frames fuel size u = .error .loops := by
    intro hloop
    rw [malloc, if_neg h0, hloop]
    rfl
  rcases firstFit_cases size bs 0 with ⟨pre, b, post, rfl, hfree, hle, hfit⟩ | ⟨hnone, hfit⟩
  · have hin : b ∈ pre ++ b :: post := List.mem_append_right pre List.mem_cons_self
    obtain ⟨m, hm, harr⟩ := h.reuse_goes hle
    have hroom : load m b.addr 8 = some b.size.toNat := harr.chain.stored.size
    refine ⟨_, { u with mem := m }, _, first, ?_, .reused b hin hfree hle rfl rfl hroom, harr⟩
    rcases hsearch with hfound | ⟨hfuel, hloop⟩
    · left
      rw [malloc, if_neg h0, hfound, hfit]
      change (if b.addr = 0 then _ else _) = _
      rw [if_neg (h.positive b hin), hm]
      rfl
    · exact Or.inr ⟨hfuel, hstop hloop⟩
  · have hroom : Room u frames size := by
      rcases hok with ⟨b, hb, hfree, hle⟩ | hroom
      · exact absurd ⟨hfree, hle⟩ (hnone b hb)
      · exact hroom
    have hlimit := hroom.limit
    rw [heapLimit_toNat] at hlimit
    obtain ⟨u', bs', first', hgo, hbreak, ⟨z, hstored⟩, harr⟩ :=
      h.newBlock_goes (b := ⟨u.heapBreak, size, false⟩) rfl rfl hroom.narrow hroom.grants hlimit
    refine ⟨_, u', bs', first', ?_, .created hnone rfl hbreak hstored.size, harr⟩
    rcases hsearch with hfound | ⟨hfuel, hloop⟩
    · left
      rw [malloc, if_neg h0, hfound, hfit]
      exact hgo
    · exact Or.inr ⟨hfuel, hstop hloop⟩

theorem Chain.linked (h : Chain m 0 bs first u.heapBreak.toNat) (hpos : ∀ b ∈ bs, b.addr ≠ 0)
    {cs : List Addr} : Linked m (headOr bs 0) cs ↔ cs = bs.map Block.addr := by
  induction bs generalizing first cs with
  | nil =>
    cases cs with
    | nil => exact iff_of_true rfl rfl
    | cons c cs =>
      refine iff_of_false ?_ (List.cons_ne_nil _ _)
      intro ⟨hp, hne, _⟩
      exact hne hp.symm
  | cons b bs ih =>
    obtain ⟨-, hs, hrest⟩ := h
    have ih' := @ih _ hrest fun c hc => hpos c (List.mem_cons_of_mem _ hc)
    cases cs with
    | nil =>
      refine iff_of_false ?_ (List.cons_ne_nil _ _).symm
      exact hpos b List.mem_cons_self
    | cons c cs =>
      constructor
      · intro ⟨hp, _, next, hload, htail⟩
        obtain rfl : b.addr = c := hp
        rw [hs.next] at hload
        obtain rfl : headOr bs 0 = next := BitVec.eq_of_toNat_eq (Option.some.inj hload)
        rw [List.map_cons, ih'.mp htail]
      · intro he
        obtain ⟨rfl, rfl⟩ := List.cons_eq_cons.mp he
        exact ⟨rfl, hpos b List.mem_cons_self, headOr bs 0, hs.next, ih'.mpr rfl⟩

theorem Block.Stored.free_iff {next : Addr} (h : b.Stored next m) :
    Free m size b.addr ↔ b.free = true ∧ size ≤ b.size := by
  constructor
  · intro ⟨⟨isFree, hf, hne⟩, room, hr, hle⟩
    rw [h.isFree] at hf
    rw [h.size] at hr
    obtain rfl := Option.some.inj hf
    obtain rfl := Option.some.inj hr
    refine ⟨?_, hle⟩
    cases hb : b.free with
    | true => rfl
    | false =>
      rw [hb] at hne
      exact absurd rfl hne
  · intro ⟨hf, hle⟩
    refine ⟨⟨_, h.isFree, ?_⟩, _, h.size, hle⟩
    rw [hf]
    decide

theorem Arranged.linked (h : Arranged start l u bs first) {cs : List Addr} :
    Linked u.mem u.globalBase cs ↔ cs = bs.map Block.addr := by
  rw [h.base]
  exact h.chain.linked h.positive

theorem Arranged.fits_iff (h : Arranged start l u bs first) :
    u.Fits size ↔ ∃ b ∈ bs, b.free = true ∧ size ≤ b.size := by
  constructor
  · intro ⟨cs, hcs, c, hc, hfree⟩
    obtain rfl := h.linked.mp hcs
    obtain ⟨b, hb, rfl⟩ := List.mem_map.mp hc
    obtain ⟨z, hs⟩ := h.chain.stored_of_mem hb
    exact ⟨b, hb, hs.free_iff.mp hfree⟩
  · intro ⟨b, hb, hfit⟩
    obtain ⟨z, hs⟩ := h.chain.stored_of_mem hb
    exact ⟨_, h.linked.mpr rfl, b.addr, List.mem_map_of_mem hb, hs.free_iff.mpr hfit⟩

variable {ok : User → Bool → Word → Prop}

theorem Uses.arranged (haligned : start.toNat % 4096 = 0)
    (hok : ∀ l u bs first frames size, Arranged start l u bs first → ok u frames size → size ≠ 0 →
      u.Fits size ∨ Room u frames size)
    (h : Uses ok start l u) : ∃ bs first, Arranged start l u bs first := by
  induction h with
  | start u hbreak hbase => exact ⟨[], _, .begin haligned hbreak hbase⟩
  | @malloc l u h frames fuel size p u' hmeets hret ih =>
    obtain ⟨bs, first, harr⟩ := ih
    by_cases h0 : size = 0
    · rw [Lazux.malloc, if_pos h0] at hret
      obtain ⟨rfl, rfl⟩ := Prod.mk.inj (Except.ok.inj hret)
      rw [Ledger.malloced, if_pos rfl]
      exact ⟨bs, first, harr⟩
    · have hcan := hok l u bs first frames size harr hmeets h0
      rw [harr.fits_iff] at hcan
      obtain ⟨q, v, bs', first', hgo, -, harr'⟩ := harr.malloc_goes h0 hcan fuel
      rcases hgo with hgo | ⟨-, hgo⟩
      · rw [hgo] at hret
        obtain ⟨rfl, rfl⟩ := Prod.mk.inj (Except.ok.inj hret)
        exact ⟨bs', first', harr'⟩
      · rw [hgo] at hret
        cases hret
  | free h p u' hp hret ih =>
    obtain ⟨bs, first, harr⟩ := ih
    obtain ⟨v, bs', hgo, harr'⟩ := harr.free_goes hp
    rw [hgo] at hret
    obtain rfl := Except.ok.inj hret
    exact ⟨bs', first, harr'⟩
  | write h m hmapped hsame ih =>
    obtain ⟨bs, first, harr⟩ := ih
    exact ⟨bs, first, harr.write hmapped hsame⟩

end Steps

end Lazux
