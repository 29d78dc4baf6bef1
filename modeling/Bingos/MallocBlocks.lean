import Bingos.BlockTilings
import Bingos.DisjointRanges
import Bingos.MallocModel
import Bingos.PointerChains

set_option autoImplicit false

/-! The blocks of the C library's heap lie one behind the other up to the break, in
the order of their links, and every operation keeps them so. -/
namespace Bingos.Malloc
open BlockTilings ByteMemory CStrings MachineWords PointerChains

variable {live : List (ℕ × ℕ)} {m : Memory} {b c dst n ptr src : ℕ} {x : ℕ × ℕ}

section Writes
variable {x : ℕ}

theorem mark_off (free magic : ℕ) (hb : b + 16 ≤ 2 ^ 32) (hx : x < 2 ^ 32)
    (h : x < b + 4 ∨ b + 12 ≤ x) : mark m b free magic x = m x := by
  rw [mark, store32_off _ (by omega) hx (by omega), store32_off _ (by omega) hx (by omega)]

theorem blockFree_mark (free magic : ℕ) (hb : b + 16 ≤ 2 ^ 32) :
    blockFree (mark m b free magic) b = free % 2 ^ 32 := by
  rw [blockFree, mark, load32_store32_apart _ (by omega) (by omega) (by omega), load32_store32]

theorem writeMeta_off (size : ℕ) (hb : b + 16 ≤ 2 ^ 32) (hx : x < 2 ^ 32)
    (h : x < b ∨ b + 16 ≤ x) : writeMeta m b size x = m x := by
  rw [writeMeta, store32_off _ (by omega) hx (by omega), store32_off _ (by omega) hx (by omega),
    store32_off _ (by omega) hx (by omega), store32_off _ (by omega) hx (by omega)]

theorem blockSize_writeMeta (m : Memory) (size : ℕ) (hb : b + 16 ≤ 2 ^ 32) :
    blockSize (writeMeta m b size) b = size % 2 ^ 32 := by
  rw [blockSize, writeMeta, load32_store32_apart _ (by omega) (by omega) (by omega),
    load32_store32_apart _ (by omega) (by omega) (by omega),
    load32_store32_apart _ (by omega) (by omega) (by omega), load32_store32]

theorem blockFree_writeMeta (m : Memory) (size : ℕ) (hb : b + 16 ≤ 2 ^ 32) :
    blockFree (writeMeta m b size) b = 0 := by
  rw [blockFree, writeMeta, load32_store32_apart _ (by omega) (by omega) (by omega), load32_store32,
    Nat.zero_mod]

theorem blockNext_writeMeta (m : Memory) (size : ℕ) (hb : b + 16 ≤ 2 ^ 32) :
    blockNext (writeMeta m b size) b = 0 := by
  rw [blockNext, writeMeta, load32_store32_apart _ (by omega) (by omega) (by omega),
    load32_store32_apart _ (by omega) (by omega) (by omega), load32_store32, Nat.zero_mod]

theorem memcpy_off (hn : dst + n ≤ 2 ^ 32) (h : x < dst ∨ dst + n ≤ x) :
    memcpy m dst src n x = m x := by
  induction n generalizing m dst src with
  | zero => rfl
  | succ n ih =>
    have hdst : dst % 2 ^ 32 = dst := Nat.mod_eq_of_lt (by omega)
    rw [memcpy, ih (by omega) (by omega), hdst, Function.update_of_ne (by omega)]

theorem memcpy_at {i : ℕ} (hn : dst + n ≤ 2 ^ 32) (hsrc : src + n ≤ 2 ^ 32)
    (hapart : dst + n ≤ src ∨ src + n ≤ dst) (hi : i < n) :
    memcpy m dst src n (dst + i) = m (src + i) := by
  induction n generalizing m dst src i with
  | zero => omega
  | succ n ih =>
    have hdst : dst % 2 ^ 32 = dst := Nat.mod_eq_of_lt (by omega)
    have hread : src % 2 ^ 32 = src := Nat.mod_eq_of_lt (by omega)
    rw [memcpy, hdst, hread]
    cases i with
    | zero =>
      rw [memcpy_off (by omega) (by omega)]
      exact Function.update_self ..
    | succ i =>
      rw [show dst + (i + 1) = dst + 1 + i by omega,
        ih (by omega) (by omega) (by omega) (by omega), Function.update_of_ne (by omega)]
      exact congrArg m (by omega)

end Writes

/-- The blocks handed out fill the addresses up to the break in the order of the
links, and the live pointers belong to different ones that are marked used. -/
structure Holds (first : ℕ) (s : System) : Prop where
  tiles : ∃ a, first ≤ a ∧ Tiles metaSize (blockSize s.proc.mem) a s.created s.proc.brk
  chain : Chain 0 (blockNext s.proc.mem) s.proc.base s.created
  bound : s.created ≠ [] → s.proc.brk < 2 ^ 32
  live : ∀ x ∈ s.live, ∃ b ∈ s.created, x.1 = b + metaSize ∧ x.2 ≤ blockSize s.proc.mem b ∧
    blockFree s.proc.mem b = 0
  nodup : (s.live.map Prod.fst).Nodup

def System.payload (s : System) (x : ℕ × ℕ) : Bytes :=
  load s.proc.mem x.1 (blockSize s.proc.mem (x.1 - metaSize))

def Kept (s t : System) (x : ℕ × ℕ) : Prop := x ∈ t.live ∧ t.payload x = s.payload x

section Invariant
variable {first : ℕ} {s : System}

theorem Holds.inside (h : Holds first s) (hb : b ∈ s.created) :
    first ≤ b ∧ b + 16 + blockSize s.proc.mem b ≤ s.proc.brk ∧ s.proc.brk < 2 ^ 32 := by
  obtain ⟨a, ha, ht⟩ := h.tiles
  have hin := ht.bounds hb
  unfold metaSize at hin
  exact ⟨ha.trans hin.1, hin.2, h.bound (List.ne_nil_of_mem hb)⟩

theorem Holds.apart (h : Holds first s) (hb : b ∈ s.created) (hc : c ∈ s.created)
    (hne : c ≠ b) : c + 16 + blockSize s.proc.mem c ≤ b ∨ b + 16 + blockSize s.proc.mem b ≤ c := by
  obtain ⟨a, -, ht⟩ := h.tiles
  exact ht.apart hc hb hne

theorem Holds.memory (h : Holds first s)
    (hsize : ∀ b ∈ s.created, blockSize m b = blockSize s.proc.mem b)
    (hnext : ∀ b ∈ s.created, blockNext m b = blockNext s.proc.mem b)
    (hlive : ∀ x ∈ live, ∃ b ∈ s.created, x.1 = b + metaSize ∧ x.2 ≤ blockSize m b ∧
      blockFree m b = 0)
    (hnodup : (live.map Prod.fst).Nodup) :
    Holds first ⟨{ s.proc with mem := m }, live, s.created⟩ := by
  obtain ⟨a, ha, ht⟩ := h.tiles
  exact ⟨⟨a, ha, ht.congr hsize⟩, h.chain.congr hnext, h.bound, hlive, hnodup⟩

end Invariant

/-- A memory that has the bytes of a block unchanged, its header among them. -/
structure Untouched (m m' : Memory) (c : ℕ) : Prop where
  room : c + 16 + blockSize m c ≤ 2 ^ 32
  same : ∀ x, c ≤ x → x < c + 16 + blockSize m c → m' x = m x

namespace Untouched
variable {m' : Memory}

theorem size (h : Untouched m m' c) : blockSize m' c = blockSize m c := by
  have hroom := h.room
  exact load32_of_agree (by omega) fun x _ _ => h.same x (by omega) (by omega)

theorem free (h : Untouched m m' c) : blockFree m' c = blockFree m c := by
  have hroom := h.room
  exact load32_of_agree (by omega) fun x _ _ => h.same x (by omega) (by omega)

theorem next (h : Untouched m m' c) : blockNext m' c = blockNext m c := by
  have hroom := h.room
  exact load32_of_agree (by omega) fun x _ _ => h.same x (by omega) (by omega)

theorem payload (h : Untouched m m' c) :
    load m' (c + 16) (blockSize m c) = load m (c + 16) (blockSize m c) := by
  have hroom := h.room
  exact load_of_agree hroom fun x _ _ => h.same x (by omega) (by omega)

end Untouched

structure SamePayload (m m' : Memory) (c : ℕ) : Prop where
  size : blockSize m' c = blockSize m c
  bytes : load m' (c + 16) (blockSize m c) = load m (c + 16) (blockSize m c)

theorem Untouched.samePayload {m' : Memory} (h : Untouched m m' c) : SamePayload m m' c :=
  ⟨h.size, h.payload⟩

section Operations
variable {first : ℕ} {s : System}

theorem payload_eq (hx : x.1 = b + metaSize) :
    s.payload x = load s.proc.mem (b + 16) (blockSize s.proc.mem b) := by
  rw [System.payload, hx, Nat.add_sub_cancel]
  rfl

theorem Holds.kept (h : Holds first s) {t : System} (hx : x ∈ s.live)
    (ht : x ∈ t.live) (hsame : ∀ c ∈ s.created, x.1 = c + metaSize →
      SamePayload s.proc.mem t.proc.mem c) : Kept s t x := by
  obtain ⟨c, hc, hxc, -, -⟩ := h.live x hx
  refine ⟨ht, ?_⟩
  rw [payload_eq hxc, payload_eq hxc, (hsame c hc hxc).size, (hsame c hc hxc).bytes]

theorem Holds.mark_untouched (h : Holds first s) (hb : b ∈ s.created) (hc : c ∈ s.created)
    (hne : c ≠ b) (free magic : ℕ) :
    Untouched s.proc.mem (mark s.proc.mem b free magic) c := by
  have hin := h.inside hb
  have hin' := h.inside hc
  have hapart := h.apart hb hc hne
  exact ⟨by omega, fun x _ _ => mark_off free magic (by omega) (by omega) (by omega)⟩

theorem Holds.mark_same (h : Holds first s) (hb : b ∈ s.created) (hc : c ∈ s.created)
    (free magic : ℕ) :
    SamePayload s.proc.mem (mark s.proc.mem b free magic) c ∧
      blockNext (mark s.proc.mem b free magic) c = blockNext s.proc.mem c := by
  by_cases hne : c = b
  · subst hne
    have hin := h.inside hc
    have hoff : ∀ x, x < 2 ^ 32 → x < c + 4 ∨ c + 12 ≤ x →
        mark s.proc.mem c free magic x = s.proc.mem x :=
      fun x hx hout => mark_off free magic (by omega) hx hout
    exact ⟨⟨load32_of_agree (by omega) fun x _ _ => hoff x (by omega) (by omega),
      load_of_agree (by omega) fun x _ _ => hoff x (by omega) (by omega)⟩,
      load32_of_agree (by omega) fun x _ _ => hoff x (by omega) (by omega)⟩
  · have hun := h.mark_untouched hb hc hne free magic
    exact ⟨hun.samePayload, hun.next⟩

theorem Holds.take (h : Holds first s) {size : ℕ} (hb : b ∈ s.created)
    (hfree : blockFree s.proc.mem b ≠ 0) (hsize : size ≤ blockSize s.proc.mem b) (magic : ℕ) :
    Holds first ⟨{ s.proc with mem := mark s.proc.mem b 0 magic },
      (b + metaSize, size) :: s.live, s.created⟩ := by
  have hroom : b + 16 ≤ 2 ^ 32 := by
    have hin := h.inside hb
    omega
  have hused : ∀ x ∈ s.live, ∀ c, x.1 = c + metaSize → blockFree s.proc.mem c = 0 → c ≠ b := by
    rintro x - c - hzero rfl
    exact hfree hzero
  apply h.memory
  · intro c hc
    exact (h.mark_same hb hc 0 magic).1.size
  · intro c hc
    exact (h.mark_same hb hc 0 magic).2
  · intro x hx
    rcases List.mem_cons.mp hx with rfl | hx
    · refine ⟨b, hb, rfl, ?_, blockFree_mark 0 magic hroom⟩
      rwa [(h.mark_same hb hb 0 magic).1.size]
    · obtain ⟨c, hc, hxc, hle, hzero⟩ := h.live x hx
      have hun := h.mark_untouched hb hc (hused x hx c hxc hzero) 0 magic
      exact ⟨c, hc, hxc, by rwa [hun.size], by rwa [hun.free]⟩
  · rw [List.map_cons, List.nodup_cons]
    refine ⟨fun hmem => ?_, h.nodup⟩
    obtain ⟨x, hx, hxb⟩ := List.mem_map.mp hmem
    obtain ⟨c, hc, hxc, -, hzero⟩ := h.live x hx
    exact hused x hx c hxc hzero (by omega)

theorem nodup_filter (h : (live.map Prod.fst).Nodup) (p : ℕ × ℕ → Bool) :
    ((live.filter p).map Prod.fst).Nodup :=
  h.sublist (List.filter_sublist.map Prod.fst)

theorem Holds.release (h : Holds first s) (hb : b ∈ s.created)
    (hptr : ptr = b + metaSize) (magic : ℕ) :
    Holds first ({ s with proc := { s.proc with mem := mark s.proc.mem b 1 magic } }.drop ptr) := by
  apply h.memory
  · intro c hc
    exact (h.mark_same hb hc 1 magic).1.size
  · intro c hc
    exact (h.mark_same hb hc 1 magic).2
  · intro x hx
    obtain ⟨hx, hne⟩ := List.mem_filter.mp hx
    obtain ⟨c, hc, hxc, hle, hzero⟩ := h.live x hx
    have hun := h.mark_untouched hb hc (by
      rintro rfl
      exact of_decide_eq_true hne (hxc.trans hptr.symm)) 1 magic
    exact ⟨c, hc, hxc, by rwa [hun.size], by rwa [hun.free]⟩
  · exact nodup_filter h.nodup _

theorem Holds.overwrite_untouched (h : Holds first s) (hb : b ∈ s.created)
    (hm : ∀ x, x < b + 16 ∨ b + 16 + blockSize s.proc.mem b ≤ x → m x = s.proc.mem x)
    (hc : c ∈ s.created) (hne : c ≠ b) : Untouched s.proc.mem m c := by
  have hin := h.inside hc
  have hapart := h.apart hb hc hne
  exact ⟨by omega, fun x _ _ => hm x (by omega)⟩

theorem Holds.overwrite (h : Holds first s) (hb : b ∈ s.created)
    (hm : ∀ x, x < b + 16 ∨ b + 16 + blockSize s.proc.mem b ≤ x → m x = s.proc.mem x) :
    Holds first { s with proc := { s.proc with mem := m } } := by
  have hin := h.inside hb
  have hheader : ∀ c ∈ s.created, blockSize m c = blockSize s.proc.mem c ∧
      blockNext m c = blockNext s.proc.mem c ∧ blockFree m c = blockFree s.proc.mem c := by
    intro c hc
    by_cases hne : c = b
    · subst hne
      exact ⟨load32_of_agree (by omega) fun x _ _ => hm x (by omega),
        load32_of_agree (by omega) fun x _ _ => hm x (by omega),
        load32_of_agree (by omega) fun x _ _ => hm x (by omega)⟩
    · have hun := h.overwrite_untouched hb hm hc hne
      exact ⟨hun.size, hun.next, hun.free⟩
  refine h.memory (fun c hc => (hheader c hc).1) (fun c hc => (hheader c hc).2.1) ?_ h.nodup
  intro x hx
  obtain ⟨c, hc, hxc, hle, hzero⟩ := h.live x hx
  obtain ⟨hsize, -, hfree⟩ := hheader c hc
  exact ⟨c, hc, hxc, by rwa [hsize], by rwa [hfree]⟩

theorem Holds.resize (h : Holds first s) {size : ℕ} (hb : b ∈ s.created) (hptr : ptr = b + metaSize)
    (hfree : blockFree s.proc.mem b = 0) (hsize : size ≤ blockSize s.proc.mem b) :
    Holds first { s.drop ptr with live := (ptr, size) :: (s.drop ptr).live } := by
  refine h.memory (fun _ _ => rfl) (fun _ _ => rfl) ?_ ?_
  · intro x hx
    rcases List.mem_cons.mp hx with rfl | hx
    · exact ⟨b, hb, hptr, hsize, hfree⟩
    · exact h.live x (List.mem_of_mem_filter hx)
  · rw [List.map_cons, List.nodup_cons]
    refine ⟨fun hmem => ?_, nodup_filter h.nodup _⟩
    obtain ⟨x, hx, rfl⟩ := List.mem_map.mp hmem
    exact of_decide_eq_true (List.mem_filter.mp hx).2 rfl

end Operations

def extended (m : Memory) (last e size : ℕ) : Memory :=
  writeMeta (if last ≠ 0 then store32 m (last + 12) e else m) e size

section Extension
variable {first : ℕ} {s : System} {size : ℕ}

/-- The last block of the list, or `NULL`. -/
def System.last (s : System) : ℕ := s.created.getLast?.getD 0

theorem last_mem (hlast : s.last ≠ 0) : s.last ∈ s.created := by
  cases hl : s.created.getLast? with
  | none =>
    rw [System.last, hl] at hlast
    exact absurd rfl hlast
  | some b =>
    rw [System.last, hl, Option.getD_some]
    exact List.mem_of_getLast? hl

theorem blockSize_extended (m : Memory) (last : ℕ) {e : ℕ}
    (hroom : e + (size + metaSize) < 2 ^ 32) :
    blockSize (extended m last e size) e = size := by
  unfold metaSize at hroom
  rw [extended, blockSize_writeMeta _ _ (by omega), Nat.mod_eq_of_lt (by omega)]

section Extension

variable (h : Holds first s) (hroom : s.proc.brk + (size + metaSize) < 2 ^ 32)
include h hroom

theorem Holds.extended_off
    {x : ℕ} (hx : x < s.proc.brk) (hout : x < s.last + 12 ∨ s.last + 16 ≤ x) :
    extended s.proc.mem s.last s.proc.brk size x = s.proc.mem x := by
  unfold metaSize at hroom
  rw [extended, writeMeta_off size (by omega) (by omega) (by omega)]
  split_ifs with hlast
  · have hin := h.inside (last_mem hlast)
    exact store32_off _ (by omega) (by omega) hout
  · rfl

theorem Holds.extended_same (hc : c ∈ s.created) :
    SamePayload s.proc.mem (extended s.proc.mem s.last s.proc.brk size) c ∧
      blockFree (extended s.proc.mem s.last s.proc.brk size) c = blockFree s.proc.mem c ∧
      (c ≠ s.last → blockNext (extended s.proc.mem s.last s.proc.brk size) c =
        blockNext s.proc.mem c) := by
  have hin := h.inside hc
  by_cases hne : c = s.last
  · have hoff : ∀ x, x < s.proc.brk → x < c + 12 ∨ c + 16 ≤ x →
        extended s.proc.mem s.last s.proc.brk size x = s.proc.mem x := by
      intro x hx hout
      exact h.extended_off hroom hx (hne ▸ hout)
    refine ⟨⟨?_, ?_⟩, ?_, fun hno => absurd hne hno⟩
    · exact load32_of_agree (by omega) fun x _ _ => hoff x (by omega) (by omega)
    · exact load_of_agree (by omega) fun x _ _ => hoff x (by omega) (by omega)
    · exact load32_of_agree (by omega) fun x _ _ => hoff x (by omega) (by omega)
  · have hun : Untouched s.proc.mem (extended s.proc.mem s.last s.proc.brk size) c := by
      refine ⟨by omega, fun x hx hx' => ?_⟩
      by_cases hlast : s.last = 0
      · -- No link is written.
        unfold metaSize at hroom
        rw [extended, if_neg (by rw [hlast]; exact fun h => h rfl),
          writeMeta_off size (by omega) (by omega) (by omega)]
      · have hapart := h.apart (last_mem hlast) hc hne
        exact h.extended_off hroom (by omega) (by omega)
    exact ⟨hun.samePayload, hun.free, fun _ => hun.next⟩

theorem Holds.extended_link (hlast : s.last ≠ 0) :
    blockNext (extended s.proc.mem s.last s.proc.brk size) s.last = s.proc.brk := by
  have hin := h.inside (last_mem hlast)
  unfold metaSize at hroom
  rw [extended, if_pos hlast, blockNext, load32_of_agree (m := store32 s.proc.mem (s.last + 12) _)
    (by omega) fun x _ _ => writeMeta_off size (by omega) (by omega) (by omega), load32_store32,
    Nat.mod_eq_of_lt (by omega)]

theorem Holds.extend (hbrk : s.proc.brk ≠ 0) :
    Holds first ⟨⟨extended s.proc.mem s.last s.proc.brk size, s.proc.brk + (size + metaSize),
        if s.created = [] then s.proc.brk else s.proc.base⟩,
      (s.proc.brk + metaSize, size) :: s.live, s.created ++ [s.proc.brk]⟩ := by
  have hsame := fun c hc => h.extended_same (c := c) hroom hc
  have hnew := blockSize_extended s.proc.mem s.last hroom
  have hmeta : s.proc.brk + 16 ≤ 2 ^ 32 := by
    unfold metaSize at hroom
    omega
  constructor
  · obtain ⟨a, ha, ht⟩ := h.tiles
    refine ⟨a, ha, ?_⟩
    have hsnoc := (ht.congr fun c hc => (hsame c hc).1.size).snoc
    rwa [hnew, Nat.add_assoc, Nat.add_comm metaSize] at hsnoc
  · apply h.chain.snoc hbrk (blockNext_writeMeta _ _ hmeta)
    · intro y hy
      have hlast : s.last = y := by rw [System.last, hy, Option.getD_some]
      subst hlast
      exact h.extended_link hroom (h.chain.ne_null _ (List.mem_of_getLast? hy))
    · intro y hy hne
      refine (hsame y hy).2.2 fun hlast => hne ?_
      subst hlast
      cases hl : s.created.getLast? with
      | none =>
        rw [List.getLast?_eq_none_iff] at hl
        rw [hl] at hy
        cases hy
      | some b => rw [System.last, hl, Option.getD_some]
  · intro _
    exact hroom
  · intro x hx
    rcases List.mem_cons.mp hx with rfl | hx
    · exact ⟨s.proc.brk, List.mem_append_right _ (List.mem_singleton_self _), rfl, hnew.ge,
        blockFree_writeMeta _ _ hmeta⟩
    · obtain ⟨c, hc, hxc, hle, hzero⟩ := h.live x hx
      exact ⟨c, List.mem_append_left _ hc, hxc, by rwa [(hsame c hc).1.size],
        by rwa [(hsame c hc).2.1]⟩
  · rw [List.map_cons, List.nodup_cons]
    refine ⟨fun hmem => ?_, h.nodup⟩
    obtain ⟨x, hx, hxb⟩ := List.mem_map.mp hmem
    obtain ⟨c, hc, hxc, -, -⟩ := h.live x hx
    have hin := h.inside hc
    omega

end Extension

end Extension

end Bingos.Malloc
