import Lazux.Integrity

/-! # Calls of the allocator piece by piece

`malloc` and `free` store their bytes one after the other and ask the kernel for pages in between.
What their callers write elsewhere meanwhile makes no difference. -/
namespace Lazux

open PagedMemory RadixForest Run ByteMemory

def User.put (u : User) (va : Addr) (b : Byte) : User :=
  { u with mem := Function.update u.mem va (some b) }

theorem User.put_self (u : User) (va : Addr) (b : Byte) : (u.put va b).mem va = some b :=
  Function.update_self ..

theorem User.put_of_ne {va x : Addr} (u : User) (b : Byte) (h : x ≠ va) :
    (u.put va b).mem x = u.mem x := Function.update_of_ne h ..

/-- What a call of the allocator does to its process, piece by piece. -/
inductive Work where
  | store (va : Addr) (b : Byte)
  | grow (increment : Word)

/-- Pieces of work one after the other. -/
inductive Works : User → List Work → User → Prop where
  | nil (u : User) : Works u [] u
  | store {u u' : User} {ws : List Work} (va : Addr) (b : Byte) (hm : (u.mem va).isSome)
      (h : Works (u.put va b) ws u') : Works u (.store va b :: ws) u'
  | grow {u u' : User} {ws : List Work} (increment : Word) (hg : u.Grants true increment)
      (hfits : u.heapBreak.toNat + increment.toNat < 2 ^ 64) (h : Works (u.grow increment) ws u') :
      Works u (.grow increment :: ws) u'

def Stores (ws : List Work) : Prop := ∀ w ∈ ws, ∃ va b, w = .store va b

/-- The pieces of one call: pages are asked for once at most, and first. -/
def OneCall (size : Word) (ws : List Work) : Prop :=
  Stores ws ∨ ∃ vs, ws = .grow (request size) :: vs ∧ Stores vs

section Works

variable {u u' v : User} {ws vs : List Work} {va : Addr} {b : Byte} {n : ℕ} {w size : Word}
  {frames : Bool} {fuel : ℕ} {p last : Addr} {start : Addr} {l : Ledger} {bs : List Block}
  {first : ℕ}

theorem Works.append (h : Works u ws v) (h' : Works v vs u') : Works u (ws ++ vs) u' := by
  induction h with
  | nil => exact h'
  | store va b hm _ ih => exact .store va b hm (ih h')
  | grow increment hg hfits _ ih => exact .grow increment hg hfits (ih h')

theorem Works.globalBase (h : Works u ws u') : u'.globalBase = u.globalBase := by
  induction h with
  | nil => rfl
  | store va b hm _ ih => exact ih
  | grow increment hg hfits _ ih => exact ih

theorem Stores.append (h : Stores ws) (h' : Stores vs) : Stores (ws ++ vs) := by
  intro w hw
  rcases List.mem_append.mp hw with hw | hw
  · exact h w hw
  · exact h' w hw

theorem store_works (n : ℕ) (hn : n ≤ 2 ^ 64) {m : Bytes} {w : ℕ}
    (h : ByteMemory.store u.mem va n w = some m) :
    ∃ ws, Works u ws { u with mem := m } ∧ Stores ws := by
  induction n generalizing m with
  | zero =>
    have hm : m = u.mem := by
      funext x
      rw [store_eq h x, if_neg (Nat.not_lt_zero _)]
    rw [hm]
    exact ⟨[], .nil u, fun w hw => absurd hw List.not_mem_nil⟩
  | succ n ih =>
    obtain ⟨m₁, h₁, hm, hsome⟩ := store_succ h hn
    obtain ⟨ws, hws, hall⟩ := ih (Nat.le_of_succ_le hn) h₁
    refine ⟨ws ++ [.store (va + BitVec.ofNat 64 n) (byteAt w n)], hws.append (.store _ _ hsome ?_),
      hall.append fun w hw => ?_⟩
    · rw [hm]
      exact .nil _
    · rw [List.mem_singleton.mp hw]
      exact ⟨_, _, rfl⟩

theorem User.store_works (hn : n ≤ 2 ^ 64) (h : u.store va n w = .ok u') :
    (∃ ws, Works u ws u' ∧ Stores ws) ∧ u'.globalBase = u.globalBase := by
  unfold User.store at h
  split at h
  · rename_i m hm
    obtain rfl := Except.ok.inj h
    exact ⟨Lazux.store_works n hn hm, rfl⟩
  · cases h

theorem newBlock_works (hg : u.Grants frames (request size))
    (hfits : u.heapBreak.toNat + (request size).toNat < 2 ^ 64)
    (hret : newBlock frames last size u = .ok (p, u')) :
    ∃ ws, Works u ws { u' with globalBase := u.globalBase } ∧ OneCall size ws := by
  have hgrants : u.Grants true (request size) := ⟨hg.1, hg.2.1, hg.2.2.1, rfl⟩
  unfold newBlock at hret
  rw [sbrk_granted hg] at hret
  dsimp only at hret
  split at hret
  · obtain ⟨rfl, rfl⟩ := Prod.mk.inj (Except.ok.inj hret)
    exact ⟨[.grow (request size)], .grow _ hgrants hfits (.nil _),
      .inr ⟨[], rfl, fun w hw => absurd hw List.not_mem_nil⟩⟩
  · obtain ⟨u₁, h₁, hret⟩ := bind_eq_ok.mp hret
    obtain ⟨u₂, h₂, hret⟩ := bind_eq_ok.mp hret
    obtain ⟨u₃, h₃, hret⟩ := bind_eq_ok.mp hret
    obtain ⟨⟨ws₁, hws₁, hs₁⟩, hb₁⟩ := User.store_works (by norm_num) h₁
    obtain ⟨⟨ws₂, hws₂, hs₂⟩, hb₂⟩ := User.store_works (by norm_num) h₂
    obtain ⟨⟨ws₃, hws₃, hs₃⟩, hb₃⟩ := User.store_works (by norm_num) h₃
    have hstores : Stores (ws₁ ++ (ws₂ ++ ws₃)) := hs₁.append (hs₂.append hs₃)
    have hbase : u₃.globalBase = u.globalBase := hb₃.trans (hb₂.trans hb₁)
    have hheader : Works u (.grow (request size) :: (ws₁ ++ (ws₂ ++ ws₃))) u₃ :=
      .grow _ hgrants hfits (hws₁.append (hws₂.append hws₃))
    split at hret
    · obtain ⟨rfl, rfl⟩ := Prod.mk.inj (Except.ok.inj hret)
      rw [← hbase]
      exact ⟨_, hheader, .inr ⟨_, rfl, hstores⟩⟩
    · obtain ⟨u₄, h₄, hret⟩ := bind_eq_ok.mp hret
      obtain ⟨rfl, rfl⟩ := Prod.mk.inj (Except.ok.inj hret)
      obtain ⟨⟨ws₄, hws₄, hs₄⟩, hb₄⟩ := User.store_works (by norm_num) h₄
      rw [← hbase, ← hb₄]
      exact ⟨_, hheader.append hws₄, .inr ⟨_, rfl, hstores.append hs₄⟩⟩

/-- The search comes to nothing only where nothing fits. -/
theorem Arranged.search_none (h : Arranged start l u bs first)
    (hs : findFreeBlock u size fuel u.globalBase 0 = .ok (0, last)) : ¬ u.Fits size := by
  rw [h.fits_iff]
  have hsearch := @findFreeBlock_eq _ _ _ size _ h.chain h.positive fuel 0
  rw [← h.base, hs] at hsearch
  rcases hsearch with hfound | ⟨-, hloop⟩
  · rcases firstFit_cases size bs 0 with ⟨pre, b, post, rfl, -, -, hfit⟩ | ⟨hnone, -⟩
    · rw [hfit] at hfound
      have hb : 0 = b.addr := (Prod.mk.inj (Except.ok.inj hfound)).1
      exact absurd hb.symm (h.positive b (List.mem_append_right pre List.mem_cons_self))
    · rintro ⟨b, hb, hok⟩
      exact hnone b hb hok
  · cases hloop

theorem Arranged.malloc_works (h : Arranged start l u bs first)
    (hlow : start.toNat ≤ 2 ^ 64 - 2 ^ 31) (hok : Succeeds u frames size)
    (hret : malloc frames fuel size u = .ok (p, u')) :
    ∃ ws, Works u ws { u' with globalBase := u.globalBase } ∧ OneCall size ws := by
  unfold malloc at hret
  split at hret
  · obtain ⟨rfl, rfl⟩ := Prod.mk.inj (Except.ok.inj hret)
    exact ⟨[], .nil _, .inl fun w hw => absurd hw List.not_mem_nil⟩
  rename_i h0
  obtain ⟨⟨block, last⟩, hsearch, hret⟩ := bind_eq_ok.mp hret
  dsimp only at hret
  split at hret
  · rename_i hblock
    rw [hblock] at hsearch
    have hg := hok.2 h0 (h.search_none hsearch)
    have hroom := h.room hlow hok.1 hg
    have hlimit := hroom.limit
    rw [heapLimit_toNat] at hlimit
    refine newBlock_works hg ?_ hret
    rw [(request_small hok.1).1]
    omega
  · obtain ⟨v, hv, hret⟩ := bind_eq_ok.mp hret
    obtain ⟨rfl, rfl⟩ := Prod.mk.inj (Except.ok.inj hret)
    obtain ⟨⟨ws, hws, hs⟩, hb⟩ := User.store_works (by norm_num) hv
    rw [← hb]
    exact ⟨ws, hws, .inl hs⟩

theorem free_works (hret : Lazux.free p u = .ok u') :
    ∃ ws, Works u ws { u' with globalBase := u.globalBase } ∧ Stores ws := by
  unfold free at hret
  split at hret
  · obtain rfl := Except.ok.inj hret
    exact ⟨[], .nil _, fun w hw => absurd hw List.not_mem_nil⟩
  · obtain ⟨hws, hb⟩ := User.store_works (by norm_num) hret
    rw [← hb]
    exact hws

/-- The same but for the byte at `va`. -/
structure Beside (va : Addr) (u v : User) : Prop where
  heapBreak : v.heapBreak = u.heapBreak
  globalBase : v.globalBase = u.globalBase
  mapped : ∀ x, (v.mem x).isSome = (u.mem x).isSome
  mem : ∀ x, x ≠ va → v.mem x = u.mem x

theorem beside_store (hm : (u.mem va).isSome) (b : Byte) :
    Beside va u (u.put va b) := by
  refine ⟨rfl, rfl, fun x => ?_, fun x hx => u.put_of_ne b hx⟩
  by_cases hx : x = va
  · subst hx
    rw [User.put_self, hm]
    rfl
  · rw [User.put_of_ne u b hx]

theorem Works.beside (h : Works u ws u') (hv : Beside va u v) :
    ∃ v', Works v ws v' ∧ Beside va u' v' := by
  induction h generalizing v with
  | nil => exact ⟨v, .nil v, hv⟩
  | @store u u' ws x b hm _ ih =>
    have hmapped : (v.mem x).isSome := (hv.mapped x).trans hm
    obtain ⟨v', hws, hv'⟩ := @ih (v.put x b) <| by
      refine ⟨hv.heapBreak, hv.globalBase, fun y => ?_, fun y hy => ?_⟩
      · by_cases hyx : y = x
        · subst hyx
          rw [User.put_self, User.put_self]
        · rw [User.put_of_ne _ _ hyx, User.put_of_ne _ _ hyx, hv.mapped]
      · by_cases hyx : y = x
        · subst hyx
          rw [User.put_self, User.put_self]
        · rw [User.put_of_ne _ _ hyx, User.put_of_ne _ _ hyx, hv.mem y hy]
    exact ⟨v', .store x b hmapped hws, hv'⟩
  | @grow u u' ws increment hg hfits _ ih =>
    obtain ⟨v', hws, hv'⟩ := @ih (v.grow increment) <| by
      refine ⟨?_, hv.globalBase, fun y => ?_, fun y hy => ?_⟩
      · exact congrArg (· + increment) hv.heapBreak
      · simp only [User.grow, hv.heapBreak]
        split
        · rfl
        · exact hv.mapped y
      · simp only [User.grow, hv.heapBreak]
        split
        · rfl
        · exact hv.mem y hy
    refine ⟨v', .grow increment ⟨hg.1, hg.2.1, ?_, rfl⟩ ?_ hws, hv'⟩
    · rw [hv.heapBreak]
      exact hg.2.2.1
    · rw [hv.heapBreak]
      exact hfits

theorem Arranged.malloc_ok (h : Arranged start l u bs first)
    (hlow : start.toNat ≤ 2 ^ 64 - 2 ^ 31) (hok : Succeeds u frames size)
    (hret : malloc frames fuel size u = .ok (p, u')) :
    ∃ bs' first', Arranged start (l.malloced u u' p size) u' bs' first' := by
  by_cases h0 : size = 0
  · rw [Lazux.malloc, if_pos h0] at hret
    obtain ⟨rfl, rfl⟩ := Prod.mk.inj (Except.ok.inj hret)
    rw [Ledger.malloced, if_pos rfl]
    exact ⟨bs, first, h⟩
  · have hcan : (∃ b ∈ bs, b.free = true ∧ size ≤ b.size) ∨ Room u frames size := by
      rw [← h.fits_iff]
      by_cases hfit : u.Fits size
      · exact Or.inl hfit
      · exact Or.inr (h.room hlow hok.1 (hok.2 h0 hfit))
    obtain ⟨q, v, bs', first', hgo, -, harr⟩ := h.malloc_goes h0 hcan fuel
    rcases hgo with hgo | ⟨-, hgo⟩
    · rw [hgo] at hret
      obtain ⟨rfl, rfl⟩ := Prod.mk.inj (Except.ok.inj hret)
      exact ⟨bs', first', harr⟩
    · rw [hgo] at hret
      cases hret

theorem Arranged.free_ok (h : Arranged start l u bs first) (hp : p = 0 ∨ p ∈ l.returned)
    (hret : Lazux.free p u = .ok u') : ∃ bs', Arranged start (l.freed p) u' bs' first := by
  obtain ⟨v, bs', hgo, harr⟩ := h.free_goes hp
  rw [hgo] at hret
  obtain rfl := Except.ok.inj hret
  exact ⟨bs', harr⟩

theorem Arranged.congr (h : Arranged start l u bs first) (hbreak : u'.heapBreak = u.heapBreak)
    (hbase : u'.globalBase = u.globalBase)
    (hsame : ∀ x : Addr, start.toNat ≤ x.toNat → x.toNat < (pageCeil u.heapBreak).toNat →
      u'.mem x = u.mem x) : Arranged start l u' bs first := by
  refine { h with base := hbase.trans h.base, chain := ?_, bounded := ?_, mapped := ?_ }
  · rw [hbreak]
    apply h.chain.congr (Nat.le_of_lt u.heapBreak.isLt)
    intro b hb x h1 h2
    have hblock := h.block hb
    have hlow := h.low
    have hceil := le_pageCeil hblock.2.2.1
    exact hsame x (by omega) (by omega)
  · rw [hbreak]
    exact h.bounded
  · intro x h1 h2
    rw [hbreak] at h2
    rw [hsame x h1 h2]
    exact h.mapped x h1 h2

end Works

end Lazux
