import Bingos.KmallocModel
import Bingos.PointerChains
import Mathlib.Tactic.IntervalCases
import Mathlib.Algebra.BigOperators.Group.List.Basic

set_option autoImplicit false

/-! The heap as pages cut into blocks: for every page its free blocks, for
every order the pages that have one, and how the words of memory show them. -/
namespace Bingos.Kmalloc
open MachineWords PointerChains

variable {h : Heap} {l : List (ℕ × ℕ)} {m : Mem} {a b o q : ℕ}

theorem class_bounds (ho : o < 8) : 32 ≤ blockSize o ∧ blockSize o % 4 = 0 ∧
    descriptorSize + nblocks o * blockSize o ≤ pageSize ∧ 1 ≤ nblocks o ∧ nblocks o ≤ 127 := by
  interval_cases o <;> decide

/-- The header address of a block of page `q`, cut in blocks of order `o`. -/
def IsSlot (q o b : ℕ) : Prop := ∃ k < nblocks o, b = q + descriptorSize + k * blockSize o

theorem IsSlot.bounds (h : IsSlot q o b) (ho : o < 8) :
    q + 16 ≤ b ∧ b + blockSize o ≤ q + 4096 := by
  obtain ⟨k, hk, rfl⟩ := h
  obtain ⟨_, _, hfit, _⟩ := class_bounds ho
  have hmul : (k + 1) * blockSize o ≤ nblocks o * blockSize o := Nat.mul_le_mul_right _ hk
  rw [Nat.succ_mul] at hmul
  unfold descriptorSize pageSize at *
  omega

theorem IsSlot.apart {c : ℕ} (hb : IsSlot q o b) (hc : IsSlot q o c) (hne : b ≠ c) :
    b + blockSize o ≤ c ∨ c + blockSize o ≤ b := by
  obtain ⟨k, _, rfl⟩ := hb
  obtain ⟨j, _, rfl⟩ := hc
  rcases Nat.lt_trichotomy k j with h | rfl | h
  · have hmul : (k + 1) * blockSize o ≤ j * blockSize o := Nat.mul_le_mul_right _ h
    rw [Nat.succ_mul] at hmul
    omega
  · exact absurd rfl hne
  · have hmul : (j + 1) * blockSize o ≤ k * blockSize o := Nat.mul_le_mul_right _ h
    rw [Nat.succ_mul] at hmul
    omega

def OwnWord (q o a : ℕ) : Prop :=
  (a = q ∨ a = q + 4 ∨ a = q + 8 ∨ a = q + 12) ∨
    ∃ b, IsSlot q o b ∧ (a = b ∨ a = b + 4 ∨ a = b + 8)

theorem OwnWord.bounds (h : OwnWord q o a) (ho : o < 8) : q ≤ a ∧ a < q + 4096 := by
  rcases h with h | ⟨b, hb, h⟩
  · omega
  · have hbounds := hb.bounds ho
    have hsize := (class_bounds ho).1
    omega

structure PageLayout (m : Mem) (q o : ℕ) (chain : List ℕ) : Prop where
  order : m (q + 8) = o
  nfree : m (q + 12) = chain.length
  links : Chain 0 (fun b => m (b + 8)) (m (q + 4)) chain
  unlinked : chain = [] → m q = 0
  slots : ∀ b ∈ chain, IsSlot q o b
  free : ∀ b ∈ chain, m b = mfFree
  magic : ∀ b, IsSlot q o b → m (b + 4) = blockMagic

theorem PageLayout.congr {m' : Mem} {chain : List ℕ} (h : PageLayout m q o chain)
    (heq : ∀ a, OwnWord q o a → m' a = m a) : PageLayout m' q o chain := by
  have hslot : ∀ b, IsSlot q o b → m' b = m b ∧ m' (b + 4) = m (b + 4) ∧ m' (b + 8) = m (b + 8) :=
    fun b hb => ⟨heq _ (Or.inr ⟨b, hb, by simp⟩), heq _ (Or.inr ⟨b, hb, by simp⟩),
      heq _ (Or.inr ⟨b, hb, by simp⟩)⟩
  have hword : m' q = m q ∧ m' (q + 4) = m (q + 4) ∧ m' (q + 8) = m (q + 8) ∧
      m' (q + 12) = m (q + 12) :=
    ⟨heq _ (Or.inl (by simp)), heq _ (Or.inl (by simp)), heq _ (Or.inl (by simp)),
      heq _ (Or.inl (by simp))⟩
  obtain ⟨h0, h4, h8, h12⟩ := hword
  refine ⟨h8.trans h.order, h12.trans h.nfree, ?_, fun hc => h0.trans (h.unlinked hc), h.slots, ?_, ?_⟩
  · rw [h4]
    exact h.links.congr (fun b hb => (hslot b (h.slots b hb)).2.2)
  · intro b hb
    rw [(hslot b (h.slots b hb)).1]
    exact h.free b hb
  · intro b hb
    rw [(hslot b hb).2.1]
    exact h.magic b hb

/-- For every page its order and its free blocks, for every order the pages
that have free blocks, in the order of their links. -/
structure View where
  order : ℕ → ℕ
  chain : ℕ → List ℕ
  avail : ℕ → List ℕ

def Held (h : Heap) (v : View) (x : ℕ × ℕ) : Prop :=
  ∃ q ∈ h.pages, ∃ b, x.1 = b + headerSize ∧ IsSlot q (v.order q) b ∧ b ∉ v.chain q ∧
    getOrder x.2 = some (v.order q) ∧ h.mem b = mfUsed ∧ h.mem (b + 8) = x.2

def blocksOf (o : ℕ) (live : List (ℕ × ℕ)) : ℕ := live.countP (fun x => getOrder x.2 = some o)

def bytesOf (o : ℕ) (live : List (ℕ × ℕ)) : ℕ :=
  ((live.filter (fun x => getOrder x.2 = some o)).map Prod.snd).sum

structure Placement (h : Heap) : Prop where
  started : 0 < h.kmallocStart
  aligned : ∀ q ∈ h.pages, q % 4096 = 0
  inside : ∀ q ∈ h.pages, h.kmallocStart < q ∧ q + 4096 ≤ h.kmallocEnd
  nodup : h.pages.Nodup
  endAligned : h.kmallocEnd % 4096 = 0
  endBound : h.kmallocEnd < 2 ^ 32
  drawn : h.kmallocStart + 0x2000 * h.pages.length ≤ h.kmallocEnd

/-- The heap is laid out as the view says, and `live` are its blocks in use. -/
structure Holds (h : Heap) (v : View) (live : List (ℕ × ℕ)) : Prop extends Placement h where
  order : ∀ q ∈ h.pages, v.order q < 8
  page : ∀ q ∈ h.pages, PageLayout h.mem q (v.order q) (v.chain q)
  queue : ∀ o < 8, Chain 0 h.mem (h.sizes o).firstfree (v.avail o)
  avail : ∀ o < 8, ∀ q, q ∈ v.avail o ↔ q ∈ h.pages ∧ v.order q = o ∧ v.chain q ≠ []
  held : ∀ x ∈ live, Held h v x
  once : (live.map Prod.fst).Nodup
  count : ∀ o < 8, (h.sizes o).nmallocs - (h.sizes o).nfrees = BitVec.ofNat 32 (blocksOf o live)
  bytes : ∀ o < 8, (h.sizes o).nbytesmalloced = BitVec.ofNat 32 (bytesOf o live)

theorem Placement.page_eq (hp : Placement h) {r : ℕ} (hq : q ∈ h.pages)
    (hr : r ∈ h.pages) (ha : q ≤ a ∧ a < q + 4096) (hb : r ≤ a ∧ a < r + 4096) : q = r := by
  have h1 := hp.aligned q hq
  have h2 := hp.aligned r hr
  omega

theorem Placement.ne_zero (hp : Placement h) (hq : q ∈ h.pages) : q ≠ 0 := by
  have := (hp.inside q hq).1
  omega

variable {v : View}

theorem Holds.perm {l' : List (ℕ × ℕ)} (hh : Holds h v l) (hp : l.Perm l') :
    Holds h v l' := by
  refine { hh with
    held := fun x hx => hh.held x (hp.mem_iff.mpr hx)
    once := (hp.map _).nodup_iff.mp hh.once
    count := fun o ho => ?_
    bytes := fun o ho => ?_ }
  · rw [hh.count o ho, blocksOf, hp.countP_eq, blocksOf]
  · rw [hh.bytes o ho, bytesOf, ((hp.filter _).map _).sum_eq, bytesOf]

theorem Holds.write (hh : Holds h v l)
    (hm : ∀ q ∈ h.pages, ∀ a, OwnWord q (v.order q) a → m a = h.mem a) :
    Holds { h with mem := m } v l := by
  refine { hh with
    page := fun q hq => (hh.page q hq).congr (hm q hq)
    queue := fun o ho => (hh.queue o ho).congr (fun q hq => ?_)
    held := fun x hx => ?_ }
  · exact hm q ((hh.avail o ho q).mp hq).1 q (Or.inl (Or.inl rfl))
  · obtain ⟨q, hq, b, hx, hb, hfree, ho, hflag, hlen⟩ := hh.held x hx
    refine ⟨q, hq, b, hx, hb, hfree, ho, ?_, ?_⟩
    · exact (hm q hq b (Or.inr ⟨b, hb, Or.inl rfl⟩)).trans hflag
    · exact (hm q hq (b + 8) (Or.inr ⟨b, hb, Or.inr (Or.inr rfl)⟩)).trans hlen

end Bingos.Kmalloc
