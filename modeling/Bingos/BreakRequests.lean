import Bingos.HeapGrowth
import Bingos.MallocRuns

set_option autoImplicit false

/-! From `malloc` through `request_space` and `sbrk` to `sys_brk` and back. The kernel answers a
refused request with the old break, and `sbrk` does not look at the answer. The system call itself
turns every answer from 2^31 on into -1. -/
namespace Bingos.BreakRequests
open ByteMemory Frames MachineWords Malloc Mmap PointerChains

/-- The bytes of a process, `_base` of its C library, and what the kernel keeps for it. -/
structure User where
  mem : Memory
  base : ℕ
  kernel : BrkProcess

/-- The stub of `DEFN_SYSCALL1`: a negative result is the number of an error and becomes -1. -/
def syscallBrk (kmalloc : ℕ → ℕ) (k : BrkProcess) (addr : ℕ) : Option (ℕ × BrkProcess) :=
  (sysBrk kmalloc k addr).map fun r => (if 0 ≤ asInt r.1 then r.1 else 2 ^ 32 - 1, r.2)

/-- `none` if the kernel does not return. -/
def sbrk (kmalloc : ℕ → ℕ) (u : User) (increment : ℕ) : Option (ℕ × User) :=
  (syscallBrk kmalloc u.kernel 0).bind fun p =>
    (syscallBrk kmalloc p.2 (add32 p.1 increment)).map fun r => (p.1, { u with kernel := r.2 })

def requestSpace (kmalloc : ℕ → ℕ) (u : User) (last size : ℕ) : Option (ℕ × User) :=
  (sbrk kmalloc u 0).bind fun block =>
    (sbrk kmalloc block.2 (add32 size metaSize)).map fun request =>
      if request.1 = 2 ^ 32 - 1 then (0, request.2)
      else (block.1, { request.2 with mem := extended request.2.mem last block.1 size })

def malloc (kmalloc : ℕ → ℕ) (fuel : ℕ) (u : User) (size : ℕ) : Option (ℕ × User) :=
  if size = 0 then some (0, u)
  else if u.base = 0 then
    (requestSpace kmalloc u 0 size).map fun r =>
      if r.1 = 0 then (0, r.2) else (add32 r.1 metaSize, { r.2 with base := r.1 })
  else
    (findFreeBlock u.mem size fuel u.base u.base).bind fun found =>
      if found.2 = 0 then
        (requestSpace kmalloc u found.1 size).map fun r =>
          if r.1 = 0 then (0, r.2) else (add32 r.1 metaSize, r.2)
      else some (add32 found.2 metaSize, { u with mem := mark u.mem found.2 0 0x77777777 })

/-- The kernel answers a request for the break `new` and leaves the break where it is: there is
nothing to raise, or it counts too few free pages. -/
def LeftAlone (k : BrkProcess) (new : ℕ) : Prop :=
  new ≤ k.brk ∨ pageAlign k.brk ≠ pageAlign new ∧ asInt (freePages k.space.frames) < 0

/-- The break can be raised by `n` bytes: it stays in the address space, and the kernel gets the
pages that are new. -/
def Granted (kmalloc : ℕ → ℕ) (k : BrkProcess) (n : ℕ) : Prop :=
  k.brk + n < 2 ^ 32 ∧ (pageAlign k.brk ≠ pageAlign (k.brk + n) →
    ¬ asInt (freePages k.space.frames) < 0 ∧
      (doMmap kmalloc k.space (pageAlign k.brk)
        (sub32 (pageAlign (k.brk + n)) (pageAlign k.brk))).isSome)

variable {kmalloc : ℕ → ℕ} {k : BrkProcess} {u : User} {n new : ℕ} {r : ℕ × BrkProcess}

section Kernel

theorem sysBrk_zero (kmalloc : ℕ → ℕ) (k : BrkProcess) : sysBrk kmalloc k 0 = some (k.brk, k) := by
  obtain ⟨space, brk⟩ := k
  rw [sysBrk]
  by_cases hbrk : 0 < brk
  · rw [if_pos hbrk]
  · obtain rfl : brk = 0 := by omega
    rw [if_neg (Nat.lt_irrefl 0), if_pos rfl]

theorem sysBrk_above (kmalloc : ℕ → ℕ) (h : k.brk ≤ new) : sysBrk kmalloc k new =
    if pageAlign k.brk = pageAlign new then some (new, { k with brk := new })
    else if asInt (freePages k.space.frames) < 0 then some (k.brk, k)
    else (doMmap kmalloc k.space (pageAlign k.brk) (sub32 (pageAlign new) (pageAlign k.brk))).map
      fun s => (new, ⟨s, new⟩) := by
  rw [sysBrk, if_neg (Nat.not_lt.mpr h)]
  by_cases hpage : pageAlign k.brk = pageAlign new
  · rw [if_pos hpage, if_pos hpage]
  · have hne : ¬ new ≤ k.brk := fun hle => hpage (by rw [Nat.le_antisymm h hle])
    rw [if_neg hpage, if_neg hpage, if_neg hne]

theorem granted_zero (h : k.brk < 2 ^ 32) : Granted kmalloc k 0 :=
  ⟨h, fun hne => absurd rfl hne⟩

theorem sysBrk_granted (h : Granted kmalloc k n) :
    ∃ k', sysBrk kmalloc k (add32 k.brk n) = some (k.brk + n, k') ∧ k'.brk = k.brk + n := by
  obtain ⟨hlt, hpages⟩ := h
  rw [add32_of_lt hlt, sysBrk_above kmalloc (Nat.le_add_right _ _)]
  by_cases hpage : pageAlign k.brk = pageAlign (k.brk + n)
  · rw [if_pos hpage]
    exact ⟨_, rfl, rfl⟩
  · obtain ⟨hfree, hmap⟩ := hpages hpage
    obtain ⟨s, hs⟩ := Option.isSome_iff_exists.mp hmap
    rw [if_neg hpage, if_neg hfree, hs, Option.map_some]
    exact ⟨_, rfl, rfl⟩

theorem sysBrk_lower (h : new < k.brk) : sysBrk kmalloc k new = some (k.brk, k) := by
  rw [sysBrk, if_pos h]

theorem sysBrk_refused (hk : k.brk < 2 ^ 32) (hn : n < 2 ^ 32) (h : ¬ Granted kmalloc k n) :
    sysBrk kmalloc k (add32 k.brk n) = none ∨
      sysBrk kmalloc k (add32 k.brk n) = some (k.brk, k) := by
  by_cases hlt : k.brk + n < 2 ^ 32
  · rw [add32_of_lt hlt, sysBrk_above kmalloc (Nat.le_add_right _ _)]
    by_cases hpage : pageAlign k.brk = pageAlign (k.brk + n)
    · exact absurd ⟨hlt, fun hne => absurd hpage hne⟩ h
    · rw [if_neg hpage]
      by_cases hfree : asInt (freePages k.space.frames) < 0
      · rw [if_pos hfree]
        exact Or.inr rfl
      · rw [if_neg hfree]
        left
        rw [Option.map_eq_none_iff, ← Option.not_isSome_iff_eq_none]
        exact fun hmap => h ⟨hlt, fun _ => ⟨hfree, hmap⟩⟩
  · right
    apply sysBrk_lower
    rw [add32]
    omega

theorem sysBrk_leftAlone (h : LeftAlone k new) :
    ∃ ret, sysBrk kmalloc k new = some (ret, k) := by
  rcases h with hle | ⟨hpage, hfree⟩
  · rcases hle.lt_or_eq with hlt | rfl
    · exact ⟨_, sysBrk_lower hlt⟩
    · rw [sysBrk_above kmalloc le_rfl, if_pos rfl]
      exact ⟨_, rfl⟩
  · by_cases hlt : new < k.brk
    · exact ⟨_, sysBrk_lower hlt⟩
    · rw [sysBrk_above kmalloc (Nat.not_lt.mp hlt), if_neg hpage, if_pos hfree]
      exact ⟨_, rfl⟩

theorem leftAlone_of_sysBrk {ret : ℕ} {k' : BrkProcess}
    (h : sysBrk kmalloc k new = some (ret, k')) (hbrk : k'.brk = k.brk) : LeftAlone k new := by
  by_cases hle : new ≤ k.brk
  · exact Or.inl hle
  · right
    -- Otherwise the break has become `new`.
    rw [sysBrk_above kmalloc (by omega)] at h
    split_ifs at h with hpage hfree
    · cases h
      exact absurd hbrk.le hle
    · exact ⟨hpage, hfree⟩
    · obtain ⟨s, -, hs⟩ := Option.map_eq_some_iff.mp h
      cases hs
      exact absurd hbrk.le hle

theorem sysBrk_max (hk : k.brk < 2 ^ 32) (h : sysBrk kmalloc k (2 ^ 32 - 1) = some r) :
    r.2.brk = 2 ^ 32 - 1 ∨ r.2 = k ∧ asInt (freePages k.space.frames) < 0 := by
  rw [sysBrk_above kmalloc (by omega)] at h
  split_ifs at h with hpage hfree
  · cases h
    exact Or.inl rfl
  · cases h
    exact Or.inr ⟨rfl, hfree⟩
  · obtain ⟨s, -, rfl⟩ := Option.map_eq_some_iff.mp h
    exact Or.inl rfl

theorem sysBrk_of_few (kmalloc : ℕ → ℕ) (h : asInt (freePages k.space.frames) < 0) (new : ℕ) :
    (sysBrk kmalloc k new).isSome := by
  by_cases hlt : new < k.brk
  · rw [sysBrk_lower hlt]
    rfl
  · rw [sysBrk_above kmalloc (Nat.not_lt.mp hlt)]
    split_ifs <;> rfl

end Kernel

section Sbrk

def breakSeen (k : BrkProcess) : ℕ := if 0 ≤ asInt k.brk then k.brk else 2 ^ 32 - 1

theorem breakSeen_low (h : k.brk < 2 ^ 31) : breakSeen k = k.brk := by
  refine if_pos ?_
  unfold asInt
  split_ifs <;> omega

theorem breakSeen_high (h : 2 ^ 31 ≤ k.brk) (hk : k.brk < 2 ^ 32) :
    breakSeen k = 2 ^ 32 - 1 := by
  refine if_neg ?_
  unfold asInt
  split_ifs <;> omega

theorem sbrk_eq (kmalloc : ℕ → ℕ) (u : User) (n : ℕ) : sbrk kmalloc u n =
    (sysBrk kmalloc u.kernel (add32 (breakSeen u.kernel) n)).map
      fun s => (breakSeen u.kernel, { u with kernel := s.2 }) := by
  rw [sbrk, syscallBrk, sysBrk_zero, Option.map_some, Option.bind_some, syscallBrk, Option.map_map]
  rfl

theorem sbrk_zero (h : u.kernel.brk < 2 ^ 31) :
    sbrk kmalloc u 0 = some (u.kernel.brk, u) := by
  rw [sbrk_eq, breakSeen_low h, add32_of_lt (by omega), Nat.add_zero, sysBrk_above kmalloc le_rfl,
    if_pos rfl]
  rfl

/-- The break is raised and the old one returned, or -1 is returned and the break stays. -/
def SbrkReports (kmalloc : ℕ → ℕ) (u : User) (increment : ℕ) : Prop :=
  ∃ ret u', sbrk kmalloc u increment = some (ret, u') ∧
    (ret = u.kernel.brk ∧ u'.kernel.brk = u.kernel.brk + increment ∨
      ret = 2 ^ 32 - 1 ∧ u'.kernel.brk = u.kernel.brk)

theorem sbrkReports_low (hk : u.kernel.brk < 2 ^ 31) (hn : n < 2 ^ 32) :
    SbrkReports kmalloc u n ↔ Granted kmalloc u.kernel n := by
  have hsbrk := sbrk_eq kmalloc u n
  rw [breakSeen_low hk] at hsbrk
  constructor
  · rintro ⟨ret, u', hcall, hret⟩
    by_contra hgranted
    have hpos : n ≠ 0 := by
      rintro rfl
      exact hgranted (granted_zero (by omega))
    rw [hsbrk] at hcall
    rcases sysBrk_refused (by omega) hn hgranted with hnone | hsame
    · rw [hnone] at hcall
      cases hcall
    · rw [hsame] at hcall
      cases hcall
      rcases hret with ⟨-, hraised⟩ | ⟨htop, -⟩
      · have hraised : u.kernel.brk = u.kernel.brk + n := hraised
        omega
      · omega
  · intro hgranted
    obtain ⟨k', hcall, hbrk⟩ := sysBrk_granted hgranted
    refine ⟨u.kernel.brk, { u with kernel := k' }, ?_, Or.inl ⟨rfl, hbrk⟩⟩
    rw [hsbrk, hcall]
    rfl

/-- From 2^31 on `sbrk` takes the break for -1, asks for the break `increment - 1` and returns -1,
whether the kernel raises the break or not. -/
theorem sbrkReports_high (hlow : 2 ^ 31 ≤ u.kernel.brk) (hk : u.kernel.brk < 2 ^ 32) :
    SbrkReports kmalloc u n ↔ LeftAlone u.kernel (add32 (2 ^ 32 - 1) n) := by
  have hsbrk := sbrk_eq kmalloc u n
  rw [breakSeen_high hlow hk] at hsbrk
  constructor
  · rintro ⟨ret, u', hcall, hret⟩
    rw [hsbrk] at hcall
    obtain ⟨r, hr, hdone⟩ := Option.map_eq_some_iff.mp hcall
    cases hdone
    rcases hret with ⟨htop, -⟩ | ⟨-, hsame⟩
    · left
      have hnew : add32 (2 ^ 32 - 1) n < 2 ^ 32 := Nat.mod_lt _ (by decide)
      omega
    · exact leftAlone_of_sysBrk hr hsame
  · intro hleft
    obtain ⟨ret, hret⟩ := @sysBrk_leftAlone kmalloc _ _ hleft
    refine ⟨2 ^ 32 - 1, u, ?_, Or.inr ⟨rfl, rfl⟩⟩
    rw [hsbrk, hret]
    rfl

end Sbrk

structure Heap (u : User) (blocks : List ℕ) : Prop where
  chain : Chain 0 (blockNext u.mem) u.base blocks
  inside : ∀ b ∈ blocks, b + metaSize + blockSize u.mem b ≤ u.kernel.brk
  brk_lt : u.kernel.brk < 2 ^ 32

def Fits (m : Memory) (size b : ℕ) : Prop := blockFree m b ≠ 0 ∧ size ≤ blockSize m b

structure SameList (u u' : User) (blocks : List ℕ) : Prop where
  base : u'.base = u.base
  chain : Chain 0 (blockNext u'.mem) u'.base blocks
  blocks : ∀ b ∈ blocks, blockSize u'.mem b = blockSize u.mem b ∧
    blockFree u'.mem b = blockFree u.mem b

def Backed (u : User) (ptr size : ℕ) : Prop :=
  ∃ b, ptr = b + metaSize ∧ size ≤ blockSize u.mem b ∧ b + metaSize + size ≤ u.kernel.brk

def MallocReports (kmalloc : ℕ → ℕ) (u : User) (blocks : List ℕ) (size : ℕ) : Prop :=
  ∃ ptr u' rounds, (∀ fuel, rounds ≤ fuel → malloc kmalloc fuel u size = some (ptr, u')) ∧
    (ptr = 0 ∧ SameList u u' blocks ∨ Backed u' ptr size)

section Search

theorem findFreeBlock_end {m : Memory} {size fuel last l current : ℕ} {blocks : List ℕ}
    (h : Chain 0 (blockNext m) current blocks)
    (hfound : findFreeBlock m size fuel last current = some (l, 0)) :
    ∀ b ∈ blocks, ¬ Fits m size b := by
  induction blocks generalizing fuel last current with
  | nil => exact fun b hb => absurd hb List.not_mem_nil
  | cons c blocks ih =>
    obtain ⟨rfl, hc, hrest⟩ := h
    cases fuel with
    | zero => cases hfound
    | succ fuel =>
      rw [findFreeBlock] at hfound
      split_ifs at hfound with hgo
      · rw [List.forall_mem_cons]
        exact ⟨hgo.2, ih hrest hfound⟩
      · have hzero : current = 0 := (Prod.mk.inj (Option.some.inj hfound)).2
        exact absurd hzero hc

end Search

section Malloc
variable {blocks : List ℕ} {size : ℕ}

theorem requestSpace_low (hk : u.kernel.brk < 2 ^ 31) (last : ℕ) :
    requestSpace kmalloc u last size =
      (sysBrk kmalloc u.kernel (add32 u.kernel.brk (add32 size metaSize))).map fun s =>
        (u.kernel.brk, ⟨extended u.mem last u.kernel.brk size, u.base, s.2⟩) := by
  have htop : u.kernel.brk ≠ 2 ^ 32 - 1 := by omega
  rw [requestSpace, sbrk_zero hk, Option.bind_some, sbrk_eq, breakSeen_low hk, Option.map_map]
  simp only [Function.comp_def, if_neg htop]

theorem requestSpace_high (hlow : 2 ^ 31 ≤ u.kernel.brk) (hk : u.kernel.brk < 2 ^ 32) (last : ℕ)
    (hret : (sysBrk kmalloc u.kernel (2 ^ 32 - 1)).isSome) :
    ∃ k, requestSpace kmalloc u last size = some (0, { u with kernel := k }) := by
  obtain ⟨r, hr⟩ := Option.isSome_iff_exists.mp hret
  have hfirst : sbrk kmalloc u 0 = some (2 ^ 32 - 1, { u with kernel := r.2 }) := by
    rw [sbrk_eq, breakSeen_high hlow hk, add32_of_lt (by omega), Nat.add_zero, hr]
    rfl
  have hagain : 2 ^ 31 ≤ r.2.brk ∧ r.2.brk < 2 ^ 32 ∧
      ∀ new < 2 ^ 32, (sysBrk kmalloc r.2 new).isSome := by
    rcases sysBrk_max hk hr with htop | ⟨hsame, hfew⟩
    · refine ⟨by omega, by omega, fun new hnew => ?_⟩
      obtain ⟨ret, hdone⟩ := @sysBrk_leftAlone kmalloc r.2 new (Or.inl (by omega))
      rw [hdone]
      rfl
    · rw [hsame]
      exact ⟨hlow, hk, fun new _ => sysBrk_of_few kmalloc hfew new⟩
  obtain ⟨hlow', hk', hreturns⟩ := hagain
  obtain ⟨s, hs⟩ := Option.isSome_iff_exists.mp
    (hreturns (add32 (2 ^ 32 - 1) (add32 size metaSize)) (Nat.mod_lt _ (by decide)))
  refine ⟨s.2, ?_⟩
  rw [requestSpace, hfirst, Option.bind_some, sbrk_eq]
  change ((sysBrk kmalloc r.2 (add32 (breakSeen r.2) _)).map fun s => (breakSeen r.2, _)).map _ = _
  rw [breakSeen_high hlow' hk', hs]
  rfl

theorem requestSpace_stuck (hlow : 2 ^ 31 ≤ u.kernel.brk) (hk : u.kernel.brk < 2 ^ 32) (last : ℕ)
    (hstuck : sysBrk kmalloc u.kernel (2 ^ 32 - 1) = none) :
    requestSpace kmalloc u last size = none := by
  rw [requestSpace, sbrk_eq, breakSeen_high hlow hk, add32_of_lt (by omega), Nat.add_zero, hstuck]
  rfl

theorem malloc_request (kmalloc : ℕ → ℕ) (h : Heap u blocks) (hsize : size ≠ 0)
    (hnone : ∀ b ∈ blocks, ¬ Fits u.mem size b) :
    ∃ rounds, ∀ fuel, rounds ≤ fuel → malloc kmalloc fuel u size =
      (requestSpace kmalloc u (blocks.getLast?.getD 0) size).map fun r =>
        if r.1 = 0 then (0, r.2)
        else (add32 r.1 metaSize, { r.2 with base := if blocks = [] then r.1 else r.2.base }) := by
  by_cases hbase : u.base = 0
  · obtain rfl : blocks = [] := h.chain.eq_null_iff.mp hbase
    refine ⟨0, fun fuel _ => ?_⟩
    rw [malloc, if_neg hsize, if_pos hbase]
    rfl
  · have hne : blocks ≠ [] := fun hnil => hbase (h.chain.eq_null_iff.mpr hnil)
    obtain ⟨found, hfound, hcases⟩ := findFreeBlock_spec size u.base h.chain
    refine ⟨blocks.length + 1, fun fuel hfuel => ?_⟩
    rcases hcases with ⟨hmem, -, hfree, hfit⟩ | hend
    · exact absurd ⟨hfree, hfit⟩ (hnone _ hmem)
    · rw [malloc, if_neg hsize, if_neg hbase, hfound fuel hfuel, Option.bind_some, hend, if_pos rfl,
        List.getLast?_eq_some_getLast hne]
      simp only [if_neg hne, Option.getD_some]

section Requests

variable (h : Heap u blocks) (hsize : size ≠ 0)
include h hsize

theorem malloc_take
    (hfits : ∃ b ∈ blocks, Fits u.mem size b) : MallocReports kmalloc u blocks size := by
  obtain ⟨b, hb, hfit⟩ := hfits
  have hbase : u.base ≠ 0 := fun hz => by
    rw [h.chain.eq_null_iff.mp hz] at hb
    exact List.not_mem_nil hb
  obtain ⟨found, hfound, hcases⟩ := findFreeBlock_spec size u.base h.chain
  rcases hcases with ⟨hmem, hne, -, hle⟩ | hend
  · have hin := h.inside _ hmem
    have hlt := h.brk_lt
    unfold metaSize at hin
    refine ⟨add32 found.2 metaSize, { u with mem := mark u.mem found.2 0 0x77777777 },
      blocks.length + 1, fun fuel hfuel => ?_, Or.inr ⟨found.2, ?_, ?_, ?_⟩⟩
    · rw [malloc, if_neg hsize, if_neg hbase, hfound fuel hfuel, Option.bind_some, if_neg hne]
    · exact add32_of_lt (by unfold metaSize; omega)
    · have hsame : blockSize (mark u.mem found.2 0 0x77777777) found.2 = blockSize u.mem found.2 :=
        load32_of_agree (by omega) fun x _ _ => mark_off _ _ (by omega) (by omega) (by omega)
      rw [hsame]
      exact hle
    · change found.2 + 16 + size ≤ u.kernel.brk
      omega
  · have hdone := hfound _ le_rfl
    rw [hend] at hdone
    exact absurd hfit (findFreeBlock_end h.chain hdone b hb)

theorem malloc_granted (hnone : ∀ b ∈ blocks, ¬ Fits u.mem size b) (hlow : u.kernel.brk < 2 ^ 31)
    (hpos : u.kernel.brk ≠ 0) (hgranted : Granted kmalloc u.kernel (size + metaSize)) :
    MallocReports kmalloc u blocks size := by
  obtain ⟨rounds, hcall⟩ := malloc_request kmalloc h hsize hnone
  obtain ⟨k', hbrk, hk'⟩ := sysBrk_granted hgranted
  have hlt : u.kernel.brk + (size + 16) < 2 ^ 32 := hgranted.1
  have hinc : add32 size metaSize = size + metaSize := add32_of_lt (by unfold metaSize; omega)
  refine ⟨add32 u.kernel.brk metaSize, ⟨extended u.mem (blocks.getLast?.getD 0) u.kernel.brk size,
    if blocks = [] then u.kernel.brk else u.base, k'⟩, rounds, fun fuel hfuel => ?_,
    Or.inr ⟨u.kernel.brk, ?_, ?_, ?_⟩⟩
  · rw [hcall fuel hfuel, requestSpace_low hlow, hinc, hbrk, Option.map_some, Option.map_some,
      if_neg hpos]
  · exact add32_of_lt (by unfold metaSize; omega)
  · change size ≤ blockSize (extended u.mem _ u.kernel.brk size) u.kernel.brk
    rw [extended, blockSize_writeMeta _ _ (by omega), Nat.mod_eq_of_lt (by omega)]
  · change u.kernel.brk + metaSize + size ≤ k'.brk
    rw [hk']
    omega

theorem malloc_null (hzero : u.kernel.brk = 0)
    (hret : (sysBrk kmalloc u.kernel (add32 size metaSize)).isSome) :
    MallocReports kmalloc u blocks size := by
  obtain rfl : blocks = [] := by
    rw [List.eq_nil_iff_forall_not_mem]
    intro b hb
    have hin := h.inside b hb
    unfold metaSize at hin
    omega
  obtain ⟨rounds, hcall⟩ := malloc_request kmalloc h hsize fun b hb =>
    absurd hb List.not_mem_nil
  obtain ⟨r, hr⟩ := Option.isSome_iff_exists.mp hret
  have hnew : add32 0 (add32 size metaSize) = add32 size metaSize := by
    unfold add32
    omega
  have hlow : u.kernel.brk < 2 ^ 31 := by omega
  refine ⟨0, ⟨extended u.mem 0 0 size, u.base, r.2⟩, rounds, fun fuel hfuel => ?_,
    Or.inl ⟨rfl, rfl, h.chain.congr fun b hb => absurd hb List.not_mem_nil,
      fun b hb => absurd hb List.not_mem_nil⟩⟩
  rw [hcall fuel hfuel, requestSpace_low hlow, hzero, hnew, hr, Option.map_some, Option.map_some]
  exact congrArg some (if_pos rfl)

theorem malloc_high (hnone : ∀ b ∈ blocks, ¬ Fits u.mem size b) (hlow : 2 ^ 31 ≤ u.kernel.brk)
    (hret : (sysBrk kmalloc u.kernel (2 ^ 32 - 1)).isSome) :
    MallocReports kmalloc u blocks size := by
  obtain ⟨rounds, hcall⟩ := malloc_request kmalloc h hsize hnone
  obtain ⟨k, hspace⟩ := requestSpace_high hlow h.brk_lt (blocks.getLast?.getD 0) hret
  refine ⟨0, { u with kernel := k }, rounds, fun fuel hfuel => ?_,
    Or.inl ⟨rfl, rfl, h.chain, fun b _ => ⟨rfl, rfl⟩⟩⟩
  rw [hcall fuel hfuel, hspace, Option.map_some, if_pos rfl]

theorem malloc_stuck (hnone : ∀ b ∈ blocks, ¬ Fits u.mem size b)
    (hstuck : requestSpace kmalloc u (blocks.getLast?.getD 0) size = none) :
    ¬ MallocReports kmalloc u blocks size := by
  rintro ⟨ptr, u', rounds, hret, -⟩
  obtain ⟨rounds', hcall⟩ := malloc_request kmalloc h hsize hnone
  have hdone := hret (max rounds rounds') (Nat.le_max_left _ _)
  rw [hcall _ (Nat.le_max_right _ _), hstuck] at hdone
  cases hdone

end Requests

theorem sysBrk_denied (hbrk : u.kernel.brk < 2 ^ 32) (hsize : size ≠ 0) (hlt : size < 2 ^ 32)
    (hdenied : ¬ Granted kmalloc u.kernel (size + metaSize))
    (hr : sysBrk kmalloc u.kernel (add32 u.kernel.brk (add32 size metaSize)) = some r) :
    r.2.brk < u.kernel.brk + metaSize + size := by
  have hinc : add32 size metaSize < 2 ^ 32 := Nat.mod_lt _ (by decide)
  by_cases hgranted : Granted kmalloc u.kernel (add32 size metaSize)
  · obtain ⟨k', hbrk', hk'⟩ := sysBrk_granted hgranted
    rw [hbrk'] at hr
    cases hr
    have hwrap : ¬ size + metaSize < 2 ^ 32 := by
      intro hno
      rw [add32_of_lt hno] at hgranted
      exact hdenied hgranted
    change k'.brk < _
    rw [hk']
    unfold add32 metaSize at *
    omega
  · rcases sysBrk_refused hbrk hinc hgranted with hno | hsame
    · rw [hno] at hr
      cases hr
    · rw [hsame] at hr
      cases hr
      change u.kernel.brk < _
      omega

theorem malloc_unbacked (h : Heap u blocks) (hsize : size ≠ 0) (hlt : size < 2 ^ 32)
    (hnone : ∀ b ∈ blocks, ¬ Fits u.mem size b) (hpos : u.kernel.brk ≠ 0)
    (hlow : u.kernel.brk < 2 ^ 31) (hdenied : ¬ Granted kmalloc u.kernel (size + metaSize)) :
    ¬ MallocReports kmalloc u blocks size := by
  rintro ⟨ptr, u', rounds, hret, hreport⟩
  obtain ⟨rounds', hcall⟩ := malloc_request kmalloc h hsize hnone
  have hdone := hret (max rounds rounds') (Nat.le_max_left _ _)
  rw [hcall _ (Nat.le_max_right _ _), requestSpace_low hlow] at hdone
  have hbrk := h.brk_lt
  cases hs : sysBrk kmalloc u.kernel (add32 u.kernel.brk (add32 size metaSize)) with
  | none =>
    rw [hs] at hdone
    cases hdone
  | some r =>
    have hend := sysBrk_denied hbrk hsize hlt hdenied hs
    rw [hs, Option.map_some, Option.map_some, if_neg hpos] at hdone
    cases hdone
    rcases hreport with ⟨hnull, -⟩ | ⟨b, hptr, -, hin⟩
    · unfold add32 metaSize at hnull
      omega
    · change b + metaSize + size ≤ r.2.brk at hin
      unfold add32 at hptr
      unfold metaSize at *
      omega

theorem malloc_low_iff (h : Heap u blocks) (hsize : size ≠ 0) (hlt : size < 2 ^ 32)
    (hnone : ∀ b ∈ blocks, ¬ Fits u.mem size b) (hlow : u.kernel.brk < 2 ^ 31) :
    MallocReports kmalloc u blocks size ↔
      u.kernel.brk = 0 ∧ (sysBrk kmalloc u.kernel (add32 size metaSize)).isSome ∨
        Granted kmalloc u.kernel (size + metaSize) := by
  by_cases hzero : u.kernel.brk = 0
  · have hnew : add32 u.kernel.brk (add32 size metaSize) = add32 size metaSize := by
      rw [hzero]
      unfold add32
      omega
    by_cases hret : (sysBrk kmalloc u.kernel (add32 size metaSize)).isSome
    · exact iff_of_true (malloc_null h hsize hzero hret) (Or.inl ⟨hzero, hret⟩)
    · have hstuck := Option.not_isSome_iff_eq_none.mp hret
      refine iff_of_false (malloc_stuck h hsize hnone ?_) ?_
      · rw [requestSpace_low hlow, hnew, hstuck]
        rfl
      · rintro (⟨-, hno⟩ | hgranted)
        · exact hret hno
        · have hlt := hgranted.1
          obtain ⟨k', hcall, -⟩ := sysBrk_granted hgranted
          rw [← @add32_of_lt size metaSize (by omega), hnew, hstuck] at hcall
          cases hcall
  · by_cases hgranted : Granted kmalloc u.kernel (size + metaSize)
    · exact iff_of_true (malloc_granted h hsize hnone hlow hzero hgranted) (Or.inr hgranted)
    · refine iff_of_false (malloc_unbacked h hsize hlt hnone hzero hlow hgranted) ?_
      rintro (⟨hno, -⟩ | hno)
      · exact hzero hno
      · exact hgranted hno

end Malloc

/-- A request is answered as it should exactly if it is granted, or at a break from 2^31 on, which
the C library reads as -1, if the kernel leaves the break alone. `malloc` makes none for size 0 and
for a block that fits; at the break 0 and from 2^31 on it returns NULL if the kernel returns. -/
theorem break_failure_reported_iff (kmalloc : ℕ → ℕ) (u : User) (blocks : List ℕ)
    (h : Heap u blocks) :
    (∀ increment : BitVec 32, SbrkReports kmalloc u increment.toNat ↔
      u.kernel.brk < 2 ^ 31 ∧ Granted kmalloc u.kernel increment.toNat ∨
        2 ^ 31 ≤ u.kernel.brk ∧ LeftAlone u.kernel (add32 (2 ^ 32 - 1) increment.toNat)) ∧
    ∀ size : BitVec 32, MallocReports kmalloc u blocks size.toNat ↔
      size.toNat = 0 ∨ (∃ b ∈ blocks, Fits u.mem size.toNat b) ∨
        2 ^ 31 ≤ u.kernel.brk ∧ (sysBrk kmalloc u.kernel (2 ^ 32 - 1)).isSome ∨
        u.kernel.brk = 0 ∧ (sysBrk kmalloc u.kernel (add32 size.toNat metaSize)).isSome ∨
        u.kernel.brk < 2 ^ 31 ∧ Granted kmalloc u.kernel (size.toNat + metaSize) := by
  have hbrk := h.brk_lt
  refine ⟨fun increment => ?_, fun size => ?_⟩
  · rcases Nat.lt_or_ge u.kernel.brk (2 ^ 31) with hlow | hhigh
    · simp only [sbrkReports_low hlow increment.isLt, hlow, Nat.not_le.mpr hlow, true_and,
        false_and, or_false]
    · simp only [sbrkReports_high hhigh hbrk, hhigh, Nat.not_lt.mpr hhigh, true_and, false_and,
        false_or]
  by_cases hsize : size.toNat = 0
  · refine iff_of_true ⟨0, u, 0, fun fuel _ => ?_,
      Or.inl ⟨rfl, rfl, h.chain, fun _ _ => ⟨rfl, rfl⟩⟩⟩ (Or.inl hsize)
    rw [malloc, if_pos hsize]
  by_cases hfits : ∃ b ∈ blocks, Fits u.mem size.toNat b
  · exact iff_of_true (malloc_take h hsize hfits) (Or.inr (Or.inl hfits))
  have hnone : ∀ b ∈ blocks, ¬ Fits u.mem size.toNat b := fun b hb hfit => hfits ⟨b, hb, hfit⟩
  rcases Nat.lt_or_ge u.kernel.brk (2 ^ 31) with hlow | hhigh
  · simp only [malloc_low_iff h hsize size.isLt hnone hlow, hsize, hfits, hlow,
      Nat.not_le.mpr hlow, true_and, false_and, false_or]
  · have hzero : u.kernel.brk ≠ 0 := by omega
    simp only [hsize, hfits, hzero, hhigh, Nat.not_lt.mpr hhigh, true_and, false_and, false_or,
      or_false]
    refine ⟨fun hreports => ?_, malloc_high h hsize hnone hhigh⟩
    by_contra hret
    exact malloc_stuck h hsize hnone (requestSpace_stuck hhigh hbrk _
      (Option.not_isSome_iff_eq_none.mp hret)) hreports

/-- A process after `do_exec` that has not used its heap. -/
def fresh : User := ⟨fun _ => 0, 0, ⟨booted, uheapStart⟩⟩

theorem fresh_heap : Heap fresh [] where
  chain := rfl
  inside b hb := absurd hb List.not_mem_nil
  brk_lt := by decide

theorem fresh_low : fresh.kernel.brk < 2 ^ 31 := by decide

theorem fresh_granted : Granted id fresh.kernel 116 :=
  ⟨by decide, fun _ => ⟨by decide +kernel, by decide +kernel⟩⟩

theorem first_page_granted :
    Heap fresh [] ∧ SbrkReports id fresh 116 ∧ MallocReports id fresh [] 100 := by
  obtain ⟨hsbrk, hmalloc⟩ := break_failure_reported_iff id fresh [] fresh_heap
  have hgranted := And.intro fresh_low fresh_granted
  exact ⟨fresh_heap, (hsbrk 116).mpr (Or.inl hgranted),
    (hmalloc 100).mpr (Or.inr (Or.inr (Or.inr (Or.inr hgranted))))⟩

/-- Raising the break 0x31100000 by 0xE0000000 wraps: the kernel keeps the break, `sbrk` returns
it like a success, and `malloc` hands out a block beyond it. -/
theorem wrapped_request_unreported :
    Heap fresh [] ∧
      (∃ u, sbrk id fresh 0xE0000000 = some (0x31100000, u) ∧ u.kernel.brk = 0x31100000) ∧
      ¬ SbrkReports id fresh 0xE0000000 ∧ ¬ MallocReports id fresh [] 0xE0000000 := by
  have hdenied : ∀ n, 0xE0000000 ≤ n → ¬ Granted id fresh.kernel n := by
    intro n hn hgranted
    have hlt : 0x31100000 + n < 2 ^ 32 := hgranted.1
    omega
  refine ⟨fresh_heap, ⟨fresh, ?_, rfl⟩, fun hreports => ?_, ?_⟩
  · have hlower : sysBrk id fresh.kernel (add32 fresh.kernel.brk 0xE0000000) =
        some (fresh.kernel.brk, fresh.kernel) :=
      sysBrk_lower (by change (0x31100000 + 0xE0000000) % 2 ^ 32 < 0x31100000; omega)
    rw [sbrk_eq, breakSeen_low fresh_low, hlower]
    rfl
  · exact hdenied _ le_rfl ((sbrkReports_low fresh_low (by omega)).mp hreports)
  · exact malloc_unbacked fresh_heap (by decide) (by omega) (fun b hb => absurd hb List.not_mem_nil)
      (by decide) fresh_low (hdenied _ (Nat.le_add_right _ _))

end Bingos.BreakRequests
