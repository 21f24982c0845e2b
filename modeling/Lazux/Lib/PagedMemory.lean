import Mathlib.Logic.Function.Basic
import Mathlib.Data.BitVec
import Mathlib.Tactic.NormNum

/-! # Byte memory divided into 4 KB frames

A memory gives the page held by every physical frame. A page is 4096 bytes and is
also read as 512 little-endian 64-bit words. Addresses are 64-bit; the frame of an
address is its value divided by the page size. -/
namespace PagedMemory

abbrev Byte := BitVec 8
abbrev Word := BitVec 64
abbrev Addr := BitVec 64
abbrev Page := Fin 4096 → Byte
abbrev Memory := ℕ → Page

instance neZero_words : NeZero (512 : ℕ) := ⟨by decide⟩

def Page.zero : Page := fun _ => 0

def Page.byteOf (p : Page) (i : Fin 512) (k : Fin 8) : Byte := p ⟨8 * i + k, by omega⟩

def Page.word (p : Page) (i : Fin 512) : Word :=
  p.byteOf i 7 ++ p.byteOf i 6 ++ p.byteOf i 5 ++ p.byteOf i 4 ++
  p.byteOf i 3 ++ p.byteOf i 2 ++ p.byteOf i 1 ++ p.byteOf i 0

def Page.setWord (p : Page) (i : Fin 512) (w : Word) : Page := fun o =>
  if o.val / 8 = i.val then w.extractLsb' (8 * (o.val % 8)) 8 else p o

private theorem byteOf_setWord (p : Page) (i : Fin 512) (w : Word) (k : Fin 8) :
    (p.setWord i w).byteOf i k = w.extractLsb' (8 * k.val) 8 := by
  have h : (8 * i.val + k.val) / 8 = i.val := by omega
  have h' : (8 * i.val + k.val) % 8 = k.val := by omega
  simp [Page.byteOf, Page.setWord, h, h']

@[simp] theorem word_setWord (p : Page) (i : Fin 512) (w : Word) :
    (p.setWord i w).word i = w := by
  unfold Page.word
  simp only [byteOf_setWord]
  apply BitVec.eq_of_getLsbD_eq
  intro j hj
  simp
  grind

theorem word_setWord_ne (p : Page) {i j : Fin 512} (h : j ≠ i) (w : Word) :
    (p.setWord i w).word j = p.word j := by
  have hb : ∀ k, (p.setWord i w).byteOf j k = p.byteOf j k := by
    intro k
    have : ¬ (8 * j.val + k.val) / 8 = i.val := by omega
    simp [Page.byteOf, Page.setWord, this]
  simp [Page.word, hb]

theorem words_setWord (p : Page) (i : Fin 512) (w : Word) :
    (p.setWord i w).word = Function.update p.word i w := by
  funext j
  by_cases h : j = i
  · subst j; simp
  · simp [word_setWord_ne p h, h]

@[simp] theorem word_zero (i : Fin 512) : Page.zero.word i = 0 := by
  simp only [Page.word, Page.byteOf, Page.zero]
  decide

theorem byteOf_word (p : Page) (i : Fin 512) (k : Fin 8) :
    (p.word i).extractLsb' (8 * k.val) 8 = p.byteOf i k := by
  apply BitVec.eq_of_getLsbD_eq
  intro j hj
  unfold Page.word
  match k with
  | 0 | 1 | 2 | 3 | 4 | 5 | 6 | 7 => (simp [hj]; grind)

/-- A page is determined by its words. -/
theorem word_injective {p q : Page} (h : ∀ i, p.word i = q.word i) : p = q := by
  funext o
  have hi : o.val / 8 < 512 := by omega
  have hk : o.val % 8 < 8 := Nat.mod_lt _ (by norm_num)
  have hbyte : ∀ r : Page, r o = r.byteOf ⟨o.val / 8, hi⟩ ⟨o.val % 8, hk⟩ := by
    intro r
    unfold Page.byteOf
    congr 1
    apply Fin.ext
    exact (Nat.div_add_mod o.val 8).symm
  rw [hbyte p, hbyte q, ← byteOf_word, ← byteOf_word, h]
def frame (a : Addr) : ℕ := a.toNat / 4096

def offset (a : Addr) : Fin 4096 := ⟨a.toNat % 4096, Nat.mod_lt _ (by norm_num)⟩

theorem addr_ext {a b : Addr} (hf : frame a = frame b) (ho : offset a = offset b) : a = b := by
  have hv : (offset a).val = (offset b).val := by rw [ho]
  simp only [frame, offset] at hf hv
  apply BitVec.eq_of_toNat_eq
  omega

def Memory.byte (m : Memory) (a : Addr) : Byte := m (frame a) (offset a)

def Memory.setByte (m : Memory) (a : Addr) (b : Byte) : Memory :=
  Function.update m (frame a) (Function.update (m (frame a)) (offset a) b)

def Memory.setWord (m : Memory) (f : ℕ) (i : Fin 512) (w : Word) : Memory :=
  Function.update m f ((m f).setWord i w)

@[simp] theorem byte_setByte (m : Memory) (a : Addr) (b : Byte) :
    (m.setByte a b).byte a = b := by
  simp [Memory.byte, Memory.setByte]

theorem byte_setByte_ne (m : Memory) {a x : Addr} (h : x ≠ a) (b : Byte) :
    (m.setByte a b).byte x = m.byte x := by
  unfold Memory.byte Memory.setByte
  by_cases hf : frame x = frame a
  · have ho : offset x ≠ offset a := fun ho => h (addr_ext hf ho)
    rw [hf, Function.update_self, Function.update_of_ne ho]
  · rw [Function.update_of_ne hf]

theorem setByte_self (m : Memory) (a : Addr) : m.setByte a (m.byte a) = m := by
  simp only [Memory.setByte, Memory.byte, Function.update_eq_self]

theorem setByte_of_ne (m : Memory) {a : Addr} {f : ℕ} (h : f ≠ frame a) (b : Byte) :
    m.setByte a b f = m f := Function.update_of_ne h _ _

theorem setWord_of_ne (m : Memory) {f g : ℕ} (h : g ≠ f) (i : Fin 512) (w : Word) :
    m.setWord f i w g = m g := Function.update_of_ne h _ _

def Memory.words (m : Memory) : ℕ → Fin 512 → Word := fun f => (m f).word

theorem words_memory_setWord (m : Memory) (f : ℕ) (i : Fin 512) (w : Word) :
    (m.setWord f i w).words = Function.update m.words f (Function.update (m.words f) i w) := by
  funext g
  by_cases h : g = f
  · subst g; simp [Memory.words, Memory.setWord, words_setWord]
  · simp [Memory.words, Memory.setWord, h]

end PagedMemory
