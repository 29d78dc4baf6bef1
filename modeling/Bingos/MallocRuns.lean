import Bingos.MallocBlocks
import Bingos.StepRuns

set_option autoImplicit false

/-! Runs of a program that uses the heap of the C library. -/
namespace Bingos.Malloc
open BlockTilings ByteMemory CStrings DisjointRanges MachineWords PointerChains StepRuns

variable {m : Memory} {p : Process} {s t : System} {b ptr q r size first k n : ℕ} {x : ℕ × ℕ}
  {call : Call}

theorem findFreeBlock_spec (size last : ℕ) {current : ℕ} {blocks : List ℕ}
    (h : Chain 0 (blockNext m) current blocks) :
    ∃ found : ℕ × ℕ, (∀ fuel, blocks.length + 1 ≤ fuel →
        findFreeBlock m size fuel last current = some found) ∧
      (found.2 ∈ blocks ∧ found.2 ≠ 0 ∧ blockFree m found.2 ≠ 0 ∧ size ≤ blockSize m found.2 ∨
        found = (blocks.getLast?.getD last, 0)) := by
  induction blocks generalizing current last with
  | nil =>
    have hcur : current = 0 := h
    refine ⟨(last, current), fun fuel hfuel => ?_, Or.inr (by rw [hcur]; rfl)⟩
    obtain ⟨n, rfl⟩ := Nat.exists_eq_add_of_le' hfuel
    exact if_neg fun hc => hc.1 hcur
  | cons b blocks ih =>
    obtain ⟨rfl, hb, hrest⟩ := h
    by_cases hfit : blockFree m current ≠ 0 ∧ size ≤ blockSize m current
    · refine ⟨(last, current), fun fuel hfuel => ?_,
        Or.inl ⟨List.mem_cons_self, hb, hfit.1, hfit.2⟩⟩
      obtain ⟨n, rfl⟩ := Nat.exists_eq_add_of_le' hfuel
      exact if_neg fun hc => hc.2 hfit
    · obtain ⟨found, hfound, hcases⟩ := ih current hrest
      refine ⟨found, fun fuel hfuel => ?_, ?_⟩
      · obtain ⟨n, rfl⟩ := Nat.exists_eq_add_of_le' hfuel
        have hn := hfound (n + (blocks.length + 1)) (Nat.le_add_left _ _)
        rw [← hn]
        exact if_pos ⟨hb, hfit⟩
      · rcases hcases with ⟨hmem, hspec⟩ | hend
        · exact Or.inl ⟨List.mem_cons_of_mem _ hmem, hspec⟩
        · right
          rw [hend]
          cases blocks with
          | nil => rfl
          | cons c blocks => rw [List.getLast?_cons_cons, List.getLast?_cons]; rfl

theorem requestSpace_eq (last : ℕ) (hroom : p.brk + (size + metaSize) < 2 ^ 32) :
    requestSpace p last size =
      (p.brk, ⟨extended p.mem last p.brk size, p.brk + (size + metaSize), p.base⟩) := by
  unfold metaSize at hroom
  have hzero : add32 p.brk 0 = p.brk := add32_of_lt (by omega)
  have hsize : add32 size metaSize = size + metaSize := add32_of_lt (by unfold metaSize; omega)
  have hraise : add32 p.brk (size + metaSize) = p.brk + (size + metaSize) :=
    add32_of_lt (by unfold metaSize; omega)
  have hok : p.brk ≠ 2 ^ 32 - 1 := by omega
  have hgranted : ¬ p.brk + (size + metaSize) < p.brk := by omega
  simp only [requestSpace, sbrk, hzero, ite_self, hsize, hraise, if_neg hgranted, if_neg hok]
  rfl

def Small (s : System) (size : ℕ) : Prop := s.proc.brk + (size + metaSize) < 2 ^ 32

section Calls

theorem handOut_eq (hb : b + metaSize ≠ 0) :
    s.handOut (b + metaSize) size = { s with
      live := (b + metaSize, size) :: s.live
      created := if b ∈ s.created then s.created else s.created ++ [b] } := by
  rw [System.handOut, if_neg hb, Nat.add_sub_cancel]

theorem Holds.live_nil (h : Holds first s) (hcreated : s.created = []) : s.live = [] := by
  rw [List.eq_nil_iff_forall_not_mem]
  intro x hx
  obtain ⟨c, hc, -⟩ := h.live x hx
  rw [hcreated] at hc
  cases hc

structure Mallocs (first : ℕ) (s : System) (size q : ℕ) (p : Process) : Prop where
  holds : Holds first ({ s with proc := p }.handOut q size)
  same : ∀ c ∈ s.created, SamePayload s.proc.mem p.mem c
  served : size ≠ 0 → s.created ≠ [] → q ≠ 0

theorem Holds.mallocs_extend (h : Holds first s) (hroom : Small s size) (hbrk : s.proc.brk ≠ 0) :
    Mallocs first s size (add32 s.proc.brk metaSize)
      ⟨extended s.proc.mem s.last s.proc.brk size, s.proc.brk + (size + metaSize),
        if s.created = [] then s.proc.brk else s.proc.base⟩ := by
  have hlt : s.proc.brk + (size + metaSize) < 2 ^ 32 := hroom
  have hq : add32 s.proc.brk metaSize = s.proc.brk + metaSize := add32_of_lt (by omega)
  have hne : s.proc.brk + metaSize ≠ 0 := by omega
  have hfresh : s.proc.brk ∉ s.created := by
    intro hmem
    have hin := h.inside hmem
    omega
  rw [hq]
  refine ⟨?_, fun c hc => (h.extended_same hroom hc).1, fun _ _ => hne⟩
  rw [handOut_eq hne, if_neg hfresh]
  exact h.extend hroom hbrk

theorem Holds.mallocs_take (h : Holds first s) (hb : b ∈ s.created)
    (hfree : blockFree s.proc.mem b ≠ 0) (hsize : size ≤ blockSize s.proc.mem b) :
    Mallocs first s size (add32 b metaSize) { s.proc with mem := mark s.proc.mem b 0 0x77777777 } := by
  have hin := h.inside hb
  have hq : add32 b metaSize = b + metaSize := add32_of_lt (by unfold metaSize; omega)
  have hne : b + metaSize ≠ 0 := by
    unfold metaSize
    omega
  rw [hq]
  refine ⟨?_, fun c hc => (h.mark_same hb hc 0 _).1, fun _ _ => hne⟩
  rw [handOut_eq hne, if_pos hb]
  exact h.take hb hfree hsize _

theorem Holds.mallocs_null (h : Holds first s) (hcreated : s.created = []) (p : Process)
    (hbase : p.base = 0) (hbrk : s.proc.brk ≤ p.brk) : Mallocs first s size 0 p := by
  refine ⟨?_, ?_, fun _ hne => absurd hcreated hne⟩
  · rw [System.handOut, if_pos rfl]
    obtain ⟨a, ha, ht⟩ := h.tiles
    have hle := ht.le
    refine ⟨⟨p.brk, ha.trans (hle.trans hbrk), ?_⟩, ?_, fun hne => absurd hcreated hne, ?_, ?_⟩
    · rw [hcreated]
      rfl
    · rw [hcreated]
      exact hbase
    · rw [h.live_nil hcreated]
      simp
    · exact h.nodup
  · rw [hcreated]
    simp

theorem malloc_spec (h : Holds first s) (hroom : Small s size) :
    ∃ q p rounds, (∀ fuel, rounds ≤ fuel → malloc fuel s.proc size = some (q, p)) ∧
      Mallocs first s size q p := by
  by_cases hzero : size = 0
  · refine ⟨0, s.proc, 0, fun fuel _ => if_pos hzero, ?_⟩
    refine ⟨?_, fun c _ => ⟨rfl, rfl⟩, fun hno => absurd hzero hno⟩
    rw [System.handOut, if_pos rfl]
    exact h
  by_cases hbase : s.proc.base = 0
  · have hcreated : s.created = [] := h.chain.eq_null_iff.mp hbase
    have hreq := requestSpace_eq 0 hroom
    by_cases hbrk : s.proc.brk = 0
    · refine ⟨0, ⟨extended s.proc.mem 0 s.proc.brk size, s.proc.brk + (size + metaSize), s.proc.base⟩,
        0, fun fuel _ => ?_, h.mallocs_null hcreated _ hbase (Nat.le_add_right _ _)⟩
      rw [malloc, if_neg hzero, if_pos hbase, hreq]
      exact if_pos hbrk
    · refine ⟨_, _, 0, fun fuel _ => ?_, h.mallocs_extend hroom hbrk⟩
      have hlast : s.last = 0 := by rw [System.last, hcreated]; rfl
      rw [malloc, if_neg hzero, if_pos hbase, hreq, hlast, if_pos hcreated]
      exact if_neg hbrk
  · have hcreated : s.created ≠ [] := fun hnil => hbase (h.chain.eq_null_iff.mpr hnil)
    obtain ⟨found, hfound, hcases⟩ := findFreeBlock_spec size s.proc.base h.chain
    rcases hcases with ⟨hmem, hne, hfree, hfit⟩ | hend
    · refine ⟨_, _, s.created.length + 1, fun fuel hfuel => ?_, h.mallocs_take hmem hfree hfit⟩
      rw [malloc, if_neg hzero, if_neg hbase, hfound fuel hfuel, Option.map_some, if_neg hne]
    · have hbrk : s.proc.brk ≠ 0 := by
        obtain ⟨b, hb⟩ := List.exists_mem_of_ne_nil _ hcreated
        have hin := h.inside hb
        omega
      refine ⟨_, _, s.created.length + 1, fun fuel hfuel => ?_, h.mallocs_extend hroom hbrk⟩
      have hlast : s.created.getLast?.getD s.proc.base = s.last := by
        rw [System.last, List.getLast?_eq_some_getLast hcreated]
        rfl
      rw [malloc, if_neg hzero, if_neg hbase, hfound fuel hfuel, Option.map_some, hend, hlast,
        if_pos rfl, requestSpace_eq _ hroom, if_neg hcreated]
      exact congrArg some (if_neg hbrk)

theorem SamePayload.trans {m' m'' : Memory} {c : ℕ} (h : SamePayload m m' c)
    (h' : SamePayload m' m'' c) : SamePayload m m'' c := by
  refine ⟨h'.size.trans h.size, ?_⟩
  have hbytes := h'.bytes
  rw [h.size] at hbytes
  exact hbytes.trans h.bytes

theorem getBlockPtr_add (b : ℕ) (hb : b + metaSize < 2 ^ 32) : getBlockPtr (b + metaSize) = b := by
  rw [getBlockPtr, sub32_of_le hb (Nat.le_add_left _ _), Nat.add_sub_cancel]

theorem take_load {a : ℕ} (h : k ≤ n) : (load m a n).take k = load m a k := by
  obtain ⟨j, rfl⟩ := Nat.exists_eq_add_of_le h
  rw [load_append, List.take_append_of_le_length (by rw [length_load]), List.take_of_length_le
    (by rw [length_load])]

theorem load_memcpy {dst src : ℕ} (hdst : dst + n ≤ 2 ^ 32)
    (hsrc : src + n ≤ 2 ^ 32) (hapart : dst + n ≤ src ∨ src + n ≤ dst) (hk : k ≤ n) :
    load (memcpy m dst src n) dst k = load m src k := by
  refine List.map_congr_left fun i hi => ?_
  rw [List.mem_range] at hi
  have h₁ : (dst + i) % 2 ^ 32 = dst + i := Nat.mod_eq_of_lt (by omega)
  have h₂ : (src + i) % 2 ^ 32 = src + i := Nat.mod_eq_of_lt (by omega)
  rw [h₁, h₂, memcpy_at hdst hsrc hapart (by omega)]

def Copied (s : System) (ptr r : ℕ) (q size : ℕ) (t : System) : Prop :=
  q ≠ 0 ∧ (q, size) ∈ t.live ∧
    (t.payload (q, size)).take (min r size) = (s.payload (ptr, r)).take (min r size)

end Calls

def Call.target : Call → ℕ
  | .malloc _ => 0
  | .free ptr => ptr
  | .realloc ptr _ => ptr
  | .write ptr _ _ => ptr

/-- The system behind a call: the other live payloads are as before, and `realloc`
has kept the bytes. -/
structure Served (first : ℕ) (s : System) (call : Call) (q : ℕ) (t : System) : Prop where
  holds : Holds first t
  kept : ∀ x ∈ s.live, x.1 ≠ call.target → Kept s t x
  copied : ∀ ptr size r, call = .realloc ptr size → (ptr, r) ∈ s.live → Copied s ptr r q size t

def Returns (s : System) (call : Call) (q : ℕ) (t : System) : Prop :=
  ∃ rounds, ∀ fuel, rounds ≤ fuel → exec fuel s call = some (q, t)

section Served

theorem Holds.live_ne_zero (h : Holds first s) (hx : x ∈ s.live) : x.1 ≠ 0 := by
  obtain ⟨c, -, hxc, -⟩ := h.live x hx
  unfold metaSize at hxc
  omega

theorem Holds.drop_zero (h : Holds first s) (p : Process) :
    { s with proc := p }.drop 0 = { s with proc := p } := by
  have hall : s.live.filter (fun a => a.1 ≠ 0) = s.live :=
    List.filter_eq_self.mpr fun x hx => decide_eq_true (h.live_ne_zero hx)
  rw [System.drop, hall]

theorem Holds.block (h : Holds first s) (hr : (ptr, r) ∈ s.live) :
    ∃ b ∈ s.created, ptr = b + 16 ∧ r ≤ blockSize s.proc.mem b ∧ blockFree s.proc.mem b = 0 ∧
      getBlockPtr ptr = b := by
  obtain ⟨b, hb, hpb, hle, hfree⟩ := h.live _ hr
  have hptr : ptr = b + metaSize := hpb
  have hin := h.inside hb
  refine ⟨b, hb, hptr, hle, hfree, ?_⟩
  rw [hptr]
  exact getBlockPtr_add b (by unfold metaSize; omega)

theorem handOut_proc (q size : ℕ) : (s.handOut q size).proc = s.proc := by
  unfold System.handOut
  split_ifs
  all_goals rfl

theorem mem_handOut (hx : x ∈ s.live) (q size : ℕ) : x ∈ (s.handOut q size).live := by
  unfold System.handOut
  by_cases hq : q = 0
  · rwa [if_pos hq]
  · rw [if_neg hq]
    exact List.mem_cons_of_mem _ hx

theorem Mallocs.kept (h : Holds first s) (hm : Mallocs first s size q p) (hx : x ∈ s.live) :
    Kept s ({ s with proc := p }.handOut q size) x := by
  refine h.kept hx (mem_handOut (s := { s with proc := p }) hx q size) fun c hc _ => ?_
  rw [handOut_proc]
  exact hm.same c hc

theorem malloc_served (h : Holds first s) (hroom : Small s size) :
    ∃ q t, Returns s (.malloc size) q t ∧ Served first s (.malloc size) q t := by
  obtain ⟨q, p, rounds, hret, hm⟩ := malloc_spec h hroom
  refine ⟨q, _, ⟨rounds, fun fuel hfuel => ?_⟩, hm.holds, fun x hx _ => hm.kept h hx, ?_⟩
  · rw [exec, hret fuel hfuel, Option.map_some]
  · intro ptr size r hcall
    cases hcall

theorem free_served (h : Holds first s) (hptr : ptr = 0 ∨ ∃ r, (ptr, r) ∈ s.live) :
    ∃ q t, Returns s (.free ptr) q t ∧ Served first s (.free ptr) q t := by
  refine ⟨0, _, ⟨0, fun fuel _ => rfl⟩, ?_⟩
  rcases hptr with rfl | ⟨r, hr⟩
  · have hfree : free s.proc 0 = s.proc := if_pos rfl
    rw [h.drop_zero, hfree]
    refine ⟨h, fun x hx _ => ⟨hx, rfl⟩, ?_⟩
    intro ptr size r hcall
    cases hcall
  · obtain ⟨b, hb, hpb, -, -, hblock⟩ := h.block hr
    rw [free, if_neg (h.live_ne_zero hr), hblock]
    refine ⟨h.release hb hpb _, fun x hx hne => ?_, ?_⟩
    · exact h.kept hx (List.mem_filter.mpr ⟨hx, decide_eq_true hne⟩)
        fun c hc _ => (h.mark_same hb hc 1 _).1
    · intro ptr size r hcall
      cases hcall

theorem write_served (h : Holds first s) {i : ℕ} (hr : (ptr, r) ∈ s.live) (hi : i < r) (v : UInt8) :
    ∃ q t, Returns s (.write ptr i v) q t ∧ Served first s (.write ptr i v) q t := by
  obtain ⟨b, hb, hpb, hle, -⟩ := h.block hr
  have hoff : ∀ x, x < b + 16 ∨ b + 16 + blockSize s.proc.mem b ≤ x →
      Function.update s.proc.mem (ptr + i) v x = s.proc.mem x := by
    intro x hx
    exact Function.update_of_ne (by omega) _ _
  refine ⟨0, _, ⟨0, fun fuel _ => rfl⟩, h.overwrite hb hoff, fun x hx hne => ?_, ?_⟩
  · refine h.kept hx hx fun c hc hxc => ?_
    refine (h.overwrite_untouched hb hoff hc ?_).samePayload
    rintro rfl
    exact hne (hxc.trans hpb.symm)
  · intro ptr size r hcall
    cases hcall

theorem Kept.trans {u : System} (h : Kept s t x) (h' : Kept t u x) : Kept s u x :=
  ⟨h'.1, h'.2.trans h.2⟩

def moveTo (p : Process) (q ptr : ℕ) : Process :=
  free { p with mem := memcpy p.mem q ptr (blockSize p.mem (getBlockPtr ptr)) } ptr

section Move
variable (h : Holds first s) (hq : (q, size) ∈ s.live) (hr : (ptr, r) ∈ s.live) (hne : q ≠ ptr)
  (hfit : blockSize s.proc.mem (getBlockPtr ptr) ≤ size)
include h hq hr hne hfit

/-- What a move does: the copy stays inside the block of `q`, and the mark changes
no payload. -/
theorem Holds.move_spec :
    Holds first ({ s with proc := moveTo s.proc q ptr }.drop ptr) ∧
      (∀ c ∈ s.created, q ≠ c + metaSize →
        SamePayload s.proc.mem (moveTo s.proc q ptr).mem c) ∧
      ∀ k ≤ blockSize s.proc.mem (getBlockPtr ptr),
        ({ s with proc := moveTo s.proc q ptr }.payload (q, size)).take k =
          (s.payload (ptr, r)).take k := by
  obtain ⟨d, hd, hqd, hle, -⟩ := h.block hq
  obtain ⟨b, hb, hpb, -, -, hblock⟩ := h.block hr
  rw [hblock] at hfit ⊢
  have hin := h.inside hd
  have hin' := h.inside hb
  have hapart := h.apart hb hd (by omega)
  obtain ⟨m, hm⟩ : ∃ m, m = memcpy s.proc.mem q ptr (blockSize s.proc.mem b) := ⟨_, rfl⟩
  have hoff : ∀ x, x < d + 16 ∨ d + 16 + blockSize s.proc.mem d ≤ x → m x = s.proc.mem x := by
    intro x hx
    rw [hm]
    exact memcpy_off (by omega) (by omega)
  have hcopy := h.overwrite hd hoff
  have hmove : moveTo s.proc q ptr = { s.proc with mem := mark m b 1 0x55555555 } := by
    rw [moveTo, free, if_neg (by omega), hblock, hm]
  rw [hmove]
  refine ⟨hcopy.release hb hpb _, fun c hc hqc => ?_, fun k hk => ?_⟩
  · have hun := h.overwrite_untouched hd hoff hc (by
      rintro rfl
      exact hqc hqd)
    exact hun.samePayload.trans (hcopy.mark_same hb hc 1 _).1
  · have hsame := (hcopy.mark_same hb hd 1 0x55555555).1
    have hsize : blockSize m d = blockSize s.proc.mem d :=
      load32_of_agree (by omega) fun x _ _ => hoff x (by omega)
    have hnew : ({ s with proc := { s.proc with mem := mark m b 1 0x55555555 } } : System).payload
        (q, size) = load m (d + 16) (blockSize s.proc.mem d) := by
      rw [payload_eq (b := d) hqd, hsame.size, hsame.bytes, hsize]
    have hkd : k ≤ blockSize s.proc.mem d := by omega
    rw [hnew, payload_eq (b := b) hpb, take_load hkd, take_load hk, ← hqd, hm,
      load_memcpy (by omega) (by omega) (by omega) hk, hpb]

end Move

theorem handOut_drop (hq : q ≠ 0) (hne : q ≠ ptr) (p p' : Process) :
    ({ s with proc := p' }.drop ptr).handOut q size =
      { { s with proc := p }.handOut q size with proc := p' }.drop ptr := by
  have hfilter : ((q, size) :: s.live).filter (fun a => a.1 ≠ ptr) =
      (q, size) :: s.live.filter fun a => a.1 ≠ ptr :=
    List.filter_cons_of_pos (decide_eq_true hne)
  rw [System.handOut, if_neg hq, System.handOut, if_neg hq]
  dsimp only [System.drop]
  rw [hfilter]
  rfl

theorem Mallocs.fresh (hm : Mallocs first s size q p) (hq : q ≠ 0) (hx : x ∈ s.live) : q ≠ x.1 := by
  have hnodup := hm.holds.nodup
  rw [System.handOut, if_neg hq, List.map_cons, List.nodup_cons] at hnodup
  intro hqx
  exact hnodup.1 (List.mem_map.mpr ⟨x, hx, hqx.symm⟩)

theorem Mallocs.moved (h : Holds first s) (hm : Mallocs first s size q p) (hr : (ptr, r) ∈ s.live)
    (hq : q ≠ 0) (hsize : blockSize s.proc.mem (getBlockPtr ptr) < size) :
    Served first s (.realloc ptr size) q
      (({ s with proc := moveTo p q ptr }.drop ptr).handOut q size) := by
  obtain ⟨t, ht⟩ : ∃ t, t = { s with proc := p }.handOut q size := ⟨_, rfl⟩
  have hproc : t.proc = p := by rw [ht, handOut_proc]
  have hlive : t.live = (q, size) :: s.live := by rw [ht, System.handOut, if_neg hq]
  have hnew : (q, size) ∈ t.live := by
    rw [hlive]
    exact List.mem_cons_self
  have hkept : ∀ x ∈ s.live, Kept s t x := fun x hx => ht ▸ hm.kept h hx
  have hne : q ≠ ptr := hm.fresh hq hr
  obtain ⟨b, hb, hpb, hle, -, hblock⟩ := h.block hr
  have hfit : blockSize t.proc.mem (getBlockPtr ptr) ≤ size := by
    rw [hproc, hblock, (hm.same b hb).size, ← hblock]
    exact hsize.le
  obtain ⟨hholds, hsame, hbytes⟩ := (ht ▸ hm.holds).move_spec hnew (hkept _ hr).1 hne hfit
  rw [handOut_drop hq hne p, ← ht, ← hproc]
  have hin : ∀ x ∈ t.live, x.1 ≠ ptr →
      x ∈ ({ t with proc := moveTo t.proc q ptr }.drop ptr).live :=
    fun x hx hxp => List.mem_filter.mpr ⟨hx, decide_eq_true hxp⟩
  refine ⟨hholds, fun x hx hxp => ?_, fun ptr' size' r' hcall hr' => ?_⟩
  · refine (hkept x hx).trans ((ht ▸ hm.holds).kept (hkept x hx).1 (hin x (hkept x hx).1 hxp) ?_)
    intro c hc hxc
    exact hsame c hc fun hqc => hm.fresh hq hx (hqc.trans hxc.symm)
  · cases hcall
    obtain ⟨b', hb', hpb', hle', -⟩ := h.block hr'
    have hbb : b' = b := by omega
    refine ⟨hq, hin _ hnew hne, ?_⟩
    have hold : t.payload (ptr, r') = s.payload (ptr, r') := (hkept _ hr').2
    have hk : min r' size ≤ blockSize t.proc.mem (getBlockPtr ptr) := by
      rw [hproc, hblock, (hm.same b hb).size, ← hbb]
      exact (min_le_left _ _).trans hle'
    rw [← hold]
    exact hbytes _ hk

theorem Holds.resized (h : Holds first s) (hr : (ptr, r) ∈ s.live)
    (hb : b ∈ s.created) (hpb : ptr = b + 16) (hfree : blockFree s.proc.mem b = 0)
    (hsize : size ≤ blockSize s.proc.mem b) :
    Served first s (.realloc ptr size) ptr ((s.drop ptr).handOut ptr size) := by
  have hne : ptr ≠ 0 := h.live_ne_zero hr
  have hout : (s.drop ptr).handOut ptr size =
      { s.drop ptr with live := (ptr, size) :: (s.drop ptr).live } := by
    have hcreated : ptr - metaSize ∈ (s.drop ptr).created := by
      rw [hpb]
      exact hb
    rw [System.handOut, if_neg hne, if_pos hcreated]
  rw [hout]
  refine ⟨h.resize hb hpb hfree hsize, fun x hx hxp => ⟨?_, rfl⟩, ?_⟩
  · exact List.mem_cons_of_mem _ (List.mem_filter.mpr ⟨hx, decide_eq_true hxp⟩)
  · intro ptr' size' r' hcall _
    cases hcall
    exact ⟨hne, List.mem_cons_self, rfl⟩

theorem realloc_served (h : Holds first s) (hroom : Small s size)
    (hptr : ptr = 0 ∨ ∃ r, (ptr, r) ∈ s.live) :
    ∃ q t, Returns s (.realloc ptr size) q t ∧ Served first s (.realloc ptr size) q t := by
  obtain ⟨q, p, rounds, hret, hm⟩ := malloc_spec h hroom
  rcases hptr with rfl | ⟨r, hr⟩
  · refine ⟨q, _, ⟨rounds, fun fuel hfuel => ?_⟩, hm.holds, fun x hx _ => hm.kept h hx, ?_⟩
    · rw [exec, realloc, if_pos rfl, hret fuel hfuel, Option.map_some, h.drop_zero]
      by_cases hq : q = 0
      · rw [if_pos hq, hq, System.handOut, if_pos rfl]
      · rw [if_neg hq]
    · rintro ptr size r hcall hr
      cases hcall
      exact absurd rfl (h.live_ne_zero hr)
  · obtain ⟨b, hb, hpb, hle, hfree, hblock⟩ := h.block hr
    have hne : ptr ≠ 0 := h.live_ne_zero hr
    by_cases hsize : size ≤ blockSize s.proc.mem (getBlockPtr ptr)
    · refine ⟨ptr, (s.drop ptr).handOut ptr size, ⟨0, fun fuel _ => ?_⟩, ?_⟩
      · rw [exec, realloc, if_neg hne, if_pos hsize, Option.map_some, if_neg hne]
      · rw [hblock] at hsize
        exact h.resized hr hb hpb hfree hsize
    · have hq : q ≠ 0 := hm.served (by omega) (List.ne_nil_of_mem hb)
      refine ⟨q, _, ⟨rounds, fun fuel hfuel => ?_⟩, hm.moved h hr hq (Nat.lt_of_not_le hsize)⟩
      rw [exec, realloc, if_neg hne, if_neg hsize, hret fuel hfuel, Option.map_some, Option.map_some,
        if_neg hq]
      exact congrArg some (if_neg hq)

end Served

/-- The calls of the program that are allowed: requests the break can be raised
for, `free` and `realloc` of live pointers or `NULL`, and writes to bytes asked for. -/
def Allowed (s : System) : Call → Prop
  | .malloc size => Small s size
  | .free ptr => ptr = 0 ∨ ∃ r, (ptr, r) ∈ s.live
  | .realloc ptr size => Small s size ∧ (ptr = 0 ∨ ∃ r, (ptr, r) ∈ s.live)
  | .write ptr i _ => ∃ r, (ptr, r) ∈ s.live ∧ i < r

def Step (s : System) (l : Call × ℕ) (t : System) : Prop := Allowed s l.1 ∧ Returns s l.1 l.2 t

theorem exec_served (h : Holds first s)
    (hallowed : Allowed s call) : ∃ q t, Returns s call q t ∧ Served first s call q t := by
  cases call with
  | malloc size => exact malloc_served h hallowed
  | free ptr => exact free_served h hallowed
  | realloc ptr size => exact realloc_served h hallowed.1 hallowed.2
  | write ptr i v =>
    obtain ⟨r, hr, hi⟩ := hallowed
    exact write_served h hr hi v

theorem Returns.unique {t' : System} {q' : ℕ} (h : Returns s call q t)
    (h' : Returns s call q' t') : q = q' ∧ t = t' := by
  obtain ⟨n, hn⟩ := h
  obtain ⟨n', hn'⟩ := h'
  have heq := (hn _ (le_max_left n n')).symm.trans (hn' _ (le_max_right n n'))
  simpa using heq

theorem start_holds (m : Memory) (first : ℕ) : Holds first (start m first) :=
  ⟨⟨first, le_rfl, rfl⟩, rfl, fun hne => absurd rfl hne,
    fun _ hx => absurd hx List.not_mem_nil, List.nodup_nil⟩

theorem reach_holds {calls : List (Call × ℕ)}
    (h : Reach Step (start m first) calls s) : Holds first s := by
  refine h.invariant (fun _ s => Holds first s) (start_holds m first) ?_
  rintro ls s ⟨call, q⟩ t - hs ⟨hallowed, hret⟩
  obtain ⟨q', t', hret', hserved⟩ := exec_served hs hallowed
  obtain ⟨-, rfl⟩ := hret.unique hret'
  exact hserved.holds

def System.range (s : System) (x : ℕ × ℕ) : ℕ × ℕ :=
  (x.1, blockSize s.proc.mem (x.1 - metaSize))

structure Sound (first : ℕ) (s : System) : Prop where
  disjoint : s.live.Pairwise fun x y => Apart (s.range x) (s.range y)
  headers : ∀ x ∈ s.live, ∀ b ∈ s.created, Apart (s.range x) (b, metaSize)
  inside : ∀ x ∈ s.live, first ≤ (s.range x).1 ∧ (s.range x).1 + (s.range x).2 ≤ s.proc.brk
  long : ∀ x ∈ s.live, x.2 ≤ (s.range x).2
  visits : Chain 0 (blockNext s.proc.mem) s.proc.base s.created
  ordered : s.created.Pairwise (· < ·)

section Soundness

theorem Holds.range_eq (h : Holds first s) (hx : x ∈ s.live) :
    ∃ b ∈ s.created, s.range x = (b + 16, blockSize s.proc.mem b) ∧
      x.2 ≤ blockSize s.proc.mem b ∧ x.1 = b + 16 := by
  obtain ⟨b, hb, hxb, hle, -⟩ := h.live x hx
  refine ⟨b, hb, ?_, hle, hxb⟩
  rw [System.range, hxb, Nat.add_sub_cancel]
  rfl

theorem Holds.sound (h : Holds first s) : Sound first s := by
  constructor
  · refine (List.pairwise_map.mp h.nodup).imp_of_mem fun {x y} hx hy hne => ?_
    obtain ⟨b, hb, hrange, -, hxb⟩ := h.range_eq hx
    obtain ⟨c, hc, hrange', -, hyc⟩ := h.range_eq hy
    have hapart := h.apart hc hb (by omega)
    rw [hrange, hrange', Apart]
    dsimp only
    omega
  · intro x hx c hc
    obtain ⟨b, hb, hrange, -⟩ := h.range_eq hx
    rw [hrange, Apart, metaSize]
    dsimp only
    by_cases hbc : b = c
    · omega
    · have hapart := h.apart hc hb hbc
      omega
  · intro x hx
    obtain ⟨b, hb, hrange, -⟩ := h.range_eq hx
    have hin := h.inside hb
    rw [hrange]
    dsimp only
    omega
  · intro x hx
    obtain ⟨b, hb, hrange, hle, -⟩ := h.range_eq hx
    rwa [hrange]
  · exact h.chain
  · obtain ⟨a, -, ht⟩ := h.tiles
    refine ht.ordered.imp fun {b c} hle => ?_
    unfold metaSize at hle
    omega

end Soundness

/-- In every state of every run the heap is sound, and every allowed call returns,
keeps the payloads of the other live pointers and, if it is a `realloc`, the bytes
of its own. -/
theorem user_heap (m : Memory) (first : ℕ) {calls : List (Call × ℕ)} {s : System}
    (h : Reach Step (start m first) calls s) :
    Sound first s ∧ ∀ call, Allowed s call → ∃ q t, Returns s call q t ∧ Sound first t ∧
      (∀ x ∈ s.live, x.1 ≠ call.target → Kept s t x) ∧
      ∀ ptr size r, call = .realloc ptr size → (ptr, r) ∈ s.live → Copied s ptr r q size t := by
  have hs := reach_holds h
  refine ⟨hs.sound, fun call hallowed => ?_⟩
  obtain ⟨q, t, hret, hserved⟩ := exec_served hs hallowed
  exact ⟨q, t, hret, hserved.holds.sound, hserved.kept, hserved.copied⟩

def oneBlock : System :=
  ⟨⟨extended (fun _ => 0) 0 0x20 8, 0x38, 0x20⟩, [(0x30, 8)], [0x20]⟩

theorem user_heap_grown : ∃ q t,
    Reach Step (start (fun _ => 0) 0x20) [(.malloc 8, 0x30)] oneBlock ∧
      Allowed oneBlock (.realloc 0x30 20) ∧ Returns oneBlock (.realloc 0x30 20) q t ∧
      Sound 0x20 t ∧ Copied oneBlock 0x30 8 q 20 t := by
  have hstep : Step (start (fun _ => 0) 0x20) (.malloc 8, 0x30) oneBlock := by
    refine ⟨by unfold Allowed Small; decide, 0, fun fuel _ => ?_⟩
    have hbase : (start (fun _ => 0) 0x20).proc.base = 0 := rfl
    have hptr : add32 0x20 metaSize = 0x30 := by decide
    rw [exec, malloc, if_neg (by decide), if_pos hbase, requestSpace_eq 0 (by decide)]
    dsimp only [start]
    rw [if_neg (by decide), Option.map_some, hptr, System.handOut, if_neg (by decide),
      if_neg List.not_mem_nil]
    rfl
  have hreach := Reach.next Reach.start hstep
  have hallowed : Allowed oneBlock (.realloc 0x30 20) :=
    ⟨by unfold Small; decide, Or.inr ⟨8, List.mem_cons_self⟩⟩
  obtain ⟨q, t, hret, hsound, -, hcopied⟩ := (user_heap _ _ hreach).2 _ hallowed
  exact ⟨q, t, hreach, hallowed, hret, hsound, hcopied _ _ _ rfl List.mem_cons_self⟩

end Bingos.Malloc
