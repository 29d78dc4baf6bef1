import Bingos.MmapAgreement
import Bingos.VirtualBytes

set_option autoImplicit false

/-! What a failed `exec` leaves of the calling process. The file is staged over
the user stack before its header is checked, and a missing or short file fails
an assertion. -/
namespace Bingos.Mmap
open MachineWords Frames CStrings ByteMemory Modules

/-- A process between two system calls: its areas are mapped user space, and
memory is not exhausted. -/
structure Sane (p : ExecProcess) : Prop where
  good : Good p.machine.space
  live : Live p.machine.space
  separate : Separate p.machine.space.mmap
  user : ∀ a ∈ p.machine.space.mmap, a.vmEnd ≤ kheapStart
  mapped : ∀ a ∈ p.machine.space.mmap, ∀ v, a.vmStart ≤ pageSize * v → pageSize * v < a.vmEnd →
    frameOf p.machine.space v ≠ 0
  spare : 0 < (freeFrames p.machine.space.frames).card

/-- The file cannot be entered: it does not exist, is shorter than an ELF
header, or its header is rejected. -/
def Rejected (file : Option Bytes) : Prop :=
  ∀ f, file = some f → f.length < 52 ∨ elfEhdrCheck (fun a => f.getD a 0) 0 = false

/-- Areas, frames and contents of the user pages, break and stack are the same. -/
structure Intact (p q : ExecProcess) : Prop where
  areas : q.machine.space.mmap = p.machine.space.mmap
  frames : ∀ v < kheapStart / pageSize, frameOf q.machine.space v = frameOf p.machine.space v
  contents : ∀ v < kheapStart / pageSize, frameOf p.machine.space v ≠ 0 → ∀ k < 0x1000,
    q.machine.phys (frameByte (frameOf q.machine.space v) k) =
      p.machine.phys (frameByte (frameOf p.machine.space v) k)
  brk : q.brk = p.brk
  ustack : q.ustack = p.ustack

/-- The stack area is just as large as the file and holds its bytes already,
and its pages get the same frames when they are mapped anew. -/
structure Staged (p : ExecProcess) (f : Bytes) : Prop where
  length : 52 ≤ f.length
  area : ⟨ustackBottom, ustackBottom + pageAlign f.length⟩ ∈ p.machine.space.mmap
  behind : ustackBottom + pageAlign f.length < kheapStart →
    frameOf p.machine.space (ustackBottom / pageSize + pages f.length) ≠ 0
  settled : Settled p.machine.space (ustackBottom / pageSize) (pages f.length)
  bytes : ∀ k (hk : k < f.length), p.machine.phys (byteAddr p.machine.space (ustackBottom + k)) = f[k]

theorem pageAlign_ge {len : ℕ} (hlen : len < 2 ^ 32) (hz : pageAlign len ≠ 0) :
    len ≤ pageAlign len := by
  unfold pageAlign add32 pageSize at *
  omega

theorem pageAlign_lt (len : ℕ) : pageAlign len < 2 ^ 32 := by
  unfold pageAlign add32 pageSize
  omega

theorem elfEhdrCheck_congr {m m' : Memory} {a b : ℕ}
    (h : ∀ k < 52, m ((a + k) % 2 ^ 32) = m' ((b + k) % 2 ^ 32)) :
    elfEhdrCheck m a = elfEhdrCheck m' b := by
  have h8 : ∀ i < 52, load8 m (a + i) = load8 m' (b + i) := fun i hi => by
    rw [load8, load8, h i hi]
  have h0 : load m a 4 = load m' b 4 := load_window h (i := 0) (by decide)
  have h20 : load m (a + 20) 4 = load m' (b + 20) 4 := load_window h (by decide)
  have h18 : load m (a + 18) 2 = load m' (b + 18) 2 := load_window h (by decide)
  simp only [elfEhdrCheck, load32, load16, h0, h20, h18, h8 4 (by decide), h8 5 (by decide),
    h8 6 (by decide)]

section Staging

variable {p : ExecProcess} {f : Bytes} {kmalloc : ℕ → ℕ}

theorem Sane.range (h : Sane p) (hlen : f.length < 2 ^ 32) (hz : pageAlign f.length ≠ 0)
    (harea : ⟨ustackBottom, ustackBottom + pageAlign f.length⟩ ∈ p.machine.space.mmap) :
    UserRange ustackBottom f.length := by
  have hge := pageAlign_ge hlen hz
  have huser : ustackBottom + pageAlign f.length ≤ kheapStart := h.user _ harea
  exact ⟨by decide, by omega⟩

theorem Sane.framed (h : Sane p) (hr : UserRange ustackBottom f.length)
    (harea : ⟨ustackBottom, ustackBottom + pageAlign f.length⟩ ∈ p.machine.space.mmap) :
    ∀ u, InRange (ustackBottom / pageSize) (pages f.length) u → frameOf p.machine.space u ≠ 0 := by
  intro u hu
  have hbase := hr.addr_eq
  have hal := pageAlign_eq f.length
  unfold InRange at hu
  refine h.mapped _ harea u ?_ ?_
  · change ustackBottom ≤ pageSize * u
    unfold pageSize at *
    omega
  · change pageSize * u < ustackBottom + pageAlign f.length
    unfold pageSize at *
    omega

theorem Sane.enough (h : Sane p) (hr : UserRange ustackBottom f.length)
    (harea : ⟨ustackBottom, ustackBottom + pageAlign f.length⟩ ∈ p.machine.space.mmap) :
    lacking p.machine.space (ustackBottom / pageSize) (pages f.length + 1) ≤
      (freeFrames p.machine.space.frames).card := by
  have hnone := lacking_eq_zero (h.framed hr harea)
  have hspare := h.spare
  rw [lacking_snoc, hnone]
  split_ifs <;> omega

theorem Sane.remap (h : Sane p) (hk : Fresh p.machine.space kmalloc)
    (hr : UserRange ustackBottom f.length) (hz : pageAlign f.length ≠ 0)
    (harea : ⟨ustackBottom, ustackBottom + pageAlign f.length⟩ ∈ p.machine.space.mmap) :
    ∃ t, doMmap kmalloc p.machine.space ustackBottom f.length = some t ∧
      Mmapped p.machine.space kmalloc ustackBottom f.length t ∧
      t.mmap = p.machine.space.mmap ∧
      ((∀ u, InRange (ustackBottom / pageSize) (pages f.length) u →
        frameOf t u = frameOf p.machine.space u) ↔
          Settled p.machine.space (ustackBottom / pageSize) (pages f.length)) := by
  have hany : p.machine.space.mmap.any
      (overlaps ustackBottom (add32 ustackBottom (pageAlign f.length))) = true := by
    refine List.any_eq_true.mpr ⟨_, harea, ?_⟩
    have huser : ustackBottom + pageAlign f.length ≤ kheapStart := h.user _ harea
    rw [add32_of_lt (huser.trans_lt (by decide))]
    simp only [overlaps, Bool.not_eq_true', Bool.or_eq_false_iff, decide_eq_false_iff_not]
    omega
  have hcov : Covered p.machine.space ustackBottom (pageAlign f.length) := fun _ => by
    obtain ⟨-, halign⟩ := hr.align
    rw [pages, halign, ← pages]
    exact h.framed hr harea
  obtain ⟨t, hrun, ht⟩ := doMmap_spec h.good hk hr hcov (h.enough hr harea)
  refine ⟨t, hrun, ht, ?_, doMmap_restores h.good hk hr hz hany (h.framed hr harea)
    (h.enough hr harea) hrun⟩
  rw [doMmap_mmap hrun]
  exact h.separate.mapAreas_self hr.inSpace hz harea

theorem Sane.store (h : Sane p) (hr : UserRange ustackBottom f.length)
    (hlen : f.length < 2 ^ 32) (hz : pageAlign f.length ≠ 0) {t : Space}
    (hrun : doMmap kmalloc p.machine.space ustackBottom f.length = some t)
    (ht : Mmapped p.machine.space kmalloc ustackBottom f.length t) :
    ∃ M, storeBytes { p.machine with space := t } ustackBottom f = some M ∧ M.space = t ∧
      (∀ k < f.length, loadByte M (ustackBottom + k) = f[k]?) ∧
      (∀ k (hk : k < f.length), M.phys (byteAddr t (ustackBottom + k)) = f[k]) ∧
      ∀ x, (∀ k < f.length, x ≠ byteAddr t (ustackBottom + k)) → M.phys x = p.machine.phys x := by
  have hge := pageAlign_ge hlen hz
  have hin := hr.inside
  have hlive := h.live.doMmap hrun
  have hframe : ∀ k < f.length, frameOf t ((ustackBottom + k) / 0x1000) ≠ 0 := by
    intro k hk
    refine ht.given hz _ ?_
    have hbase := hr.addr_eq
    have hal := pageAlign_eq f.length
    unfold InRange pageSize at *
    omega
  obtain ⟨M, hstore, hspace, hbytes, hkept⟩ := storeBytes_mapped
    (M := { p.machine with space := t }) ht.good hlive hin hframe
  refine ⟨M, hstore, hspace, fun k hk => ?_, hbytes, hkept⟩
  have hlt : ustackBottom + k < 2 ^ 32 := by
    unfold kheapStart at hin
    omega
  obtain rfl : M.space = t := hspace
  rw [loadByte_mapped hlive hlt (hframe k hk), List.getElem?_eq_getElem hk]
  exact congrArg some (hbytes k hk)

theorem Sane.intact (h : Sane p) (hk : Fresh p.machine.space kmalloc) (hlen : f.length < 2 ^ 32)
    (hz : pageAlign f.length ≠ 0) (hs : Staged p f) :
    ∃ t M, doMmap kmalloc p.machine.space ustackBottom f.length = some t ∧
      storeBytes { p.machine with space := t } ustackBottom f = some M ∧
      (∀ k < f.length, loadByte M (ustackBottom + k) = f[k]?) ∧
      Intact p { p with machine := M } := by
  have hr := h.range hlen hz hs.area
  obtain ⟨t, hrun, ht, hareas, hsame⟩ := h.remap hk hr hz hs.area
  obtain ⟨M, hstore, rfl, hread, hbytes, hkept⟩ := h.store hr hlen hz hrun ht
  have hbase := hr.addr_eq
  have hal := pageAlign_eq f.length
  have hframes : ∀ v < kheapStart / pageSize, frameOf M.space v = frameOf p.machine.space v := by
    intro v hv
    by_cases hin : InRange (ustackBottom / pageSize) (pages f.length) v
    · exact hsame.mpr hs.settled v hin
    · refine ht.kept v hin fun he _ => ?_
      subst he
      refine hs.behind ?_
      unfold kheapStart pageSize at *
      omega
  refine ⟨_, M, hrun, hstore, hread, hareas, hframes, fun v hv hf k hk => ?_, rfl, rfl⟩
  rw [hframes v hv]
  by_cases hin : ∃ j < f.length, frameByte (frameOf p.machine.space v) k =
      byteAddr M.space (ustackBottom + j)
  · obtain ⟨j, hj, he⟩ := hin
    have hpage : frameOf M.space ((ustackBottom + j) / 0x1000) =
        frameOf p.machine.space ((ustackBottom + j) / 0x1000) := by
      refine hframes _ ?_
      have hge := pageAlign_ge hlen hz
      have hend := hr.inside
      unfold kheapStart pageSize at *
      omega
    change M.phys (frameByte (frameOf p.machine.space v) k) = _
    rw [he, hbytes j hj, ← hs.bytes j hj, byteAddr, byteAddr, hpage]
  · exact hkept _ fun j hj he => hin ⟨j, hj, he⟩

theorem Sane.staged (h : Sane p) (hk : Fresh p.machine.space kmalloc) (hlen : f.length < 2 ^ 32)
    (hz : pageAlign f.length ≠ 0) (hshort : 52 ≤ f.length) {t : Space} {M : Machine}
    (hrun : doMmap kmalloc p.machine.space ustackBottom f.length = some t)
    (hstore : storeBytes { p.machine with space := t } ustackBottom f = some M)
    (hi : Intact p { p with machine := M }) : Staged p f := by
  have hspace : M.space = t := storeBytes_space hstore
  have hnew : ⟨ustackBottom, add32 ustackBottom (pageAlign f.length)⟩ ∈ p.machine.space.mmap := by
    have hareas : M.space.mmap = p.machine.space.mmap := hi.areas
    rw [← hareas, hspace, doMmap_mmap hrun, mapAreas, if_neg hz]
    exact (insertVm_perm _ _).mem_iff.mpr (List.mem_cons_self ..)
  have harea : ⟨ustackBottom, ustackBottom + pageAlign f.length⟩ ∈ p.machine.space.mmap := by
    -- an area whose end wraps around would be empty
    have hpos : ustackBottom < add32 ustackBottom (pageAlign f.length) :=
      h.separate.nonempty _ hnew
    have hlt := pageAlign_lt f.length
    have hstop : add32 ustackBottom (pageAlign f.length) = ustackBottom + pageAlign f.length := by
      unfold add32 ustackBottom at *
      omega
    rwa [hstop] at hnew
  have hr := h.range hlen hz harea
  have hbase := hr.addr_eq
  have hal := pageAlign_eq f.length
  have hin := hr.inside
  have hge := pageAlign_ge hlen hz
  obtain ⟨t', hrun', ht, -, hsame⟩ := h.remap hk hr hz harea
  obtain rfl := Option.some.inj (hrun.symm.trans hrun')
  obtain ⟨M', hstore', -, -, hbytes, -⟩ := h.store hr hlen hz hrun ht
  obtain rfl := Option.some.inj (hstore.symm.trans hstore')
  have hframes : ∀ v < kheapStart / pageSize, frameOf t v = frameOf p.machine.space v := by
    rw [← hspace]
    exact hi.frames
  refine ⟨hshort, harea, fun hbehind => ?_, hsame.mp fun u hu => hframes u ?_, fun k hk => ?_⟩
  · rw [← hframes _ (by unfold kheapStart pageSize at *; omega)]
    exact ht.given hz _ ⟨by omega, by omega⟩
  · have hend := hr.end_le
    unfold InRange at hu
    omega
  · have hv : (ustackBottom + k) / 0x1000 < kheapStart / pageSize := by
      unfold kheapStart pageSize at *
      omega
    have hf : frameOf p.machine.space ((ustackBottom + k) / 0x1000) ≠ 0 := by
      refine h.framed hr harea _ ?_
      unfold InRange pageSize at *
      omega
    have hsame := hi.contents _ hv hf ((ustackBottom + k) % 0x1000) (Nat.mod_lt _ (by decide))
    change M.phys (byteAddr M.space (ustackBottom + k)) = _ at hsame
    rw [hspace, hbytes k hk] at hsame
    exact hsame.symm

end Staging

/-- A failed `exec` returns an error and leaves its caller as it was exactly
when the file lies in the stack area already, byte by byte. -/
theorem failed_exec_iff {p : ExecProcess} (h : Sane p) {kmalloc : ℕ → ℕ}
    (hk : Fresh p.machine.space kmalloc) {vfsLookup : Bytes → Option Bytes} {path : Bytes}
    (hlen : ∀ f, vfsLookup path = some f → f.length < 2 ^ 32) (hrej : Rejected (vfsLookup path)) :
    (∃ ret q, sysExec kmalloc vfsLookup path p = .returned ret q ∧ ret < 0 ∧ Intact p q) ↔
      ∃ f, vfsLookup path = some f ∧ Staged p f := by
  constructor
  · rintro ⟨ret, q, hrun, -, hi⟩
    unfold sysExec doExec at hrun
    split at hrun
    · cases hrun
    rename_i f hf
    by_cases hz : pageAlign f.length = 0
    · rw [if_pos hz] at hrun
      cases hrun
    rw [if_neg hz] at hrun
    split at hrun
    · cases hrun
    rename_i M hstage
    obtain ⟨t, hmap, hstore⟩ := Option.bind_eq_some_iff.mp hstage
    split_ifs at hrun with hshort
    unfold checkAndLoad at hrun
    split_ifs at hrun with hread hcheck
    · split at hrun
      · cases hrun
      · unfold enterProgram at hrun
        split at hrun <;> cases hrun
    · obtain ⟨-, rfl⟩ := ExecResult.returned.inj hrun
      exact ⟨f, hf, h.staged hk (hlen f hf) hz (by omega) hmap hstore hi⟩
  · rintro ⟨f, hf, hs⟩
    have hz : pageAlign f.length ≠ 0 := by
      intro hz
      have hpos := h.separate.nonempty _ hs.area
      simp only [hz, Nat.add_zero, lt_irrefl] at hpos
    obtain ⟨t, M, hmap, hstore, hread, hi⟩ := h.intact hk (hlen f hf) hz hs
    have hshort := hs.length
    have hbytes : ∀ k < 52, loadByte M ((ustackBottom + k) % 2 ^ 32) = some (f.getD k 0) := by
      intro k hk
      rw [Nat.mod_eq_of_lt (by unfold ustackBottom; omega), hread k (by omega),
        List.getD_eq_getElem?_getD, List.getElem?_eq_getElem (by omega), Option.getD_some]
    have hreadable : readable M ustackBottom 52 = true := by
      refine List.all_eq_true.mpr fun k hk => ?_
      rw [hbytes k (List.mem_range.mp hk), Option.isSome_some]
    have hcheck : elfEhdrCheck (view M) ustackBottom = false := by
      have hsame : elfEhdrCheck (view M) ustackBottom = elfEhdrCheck (fun a => f.getD a 0) 0 :=
        elfEhdrCheck_congr fun k hk => by
          rw [view, hbytes k hk, Option.getD_some, Nat.zero_add, Nat.mod_eq_of_lt (by omega)]
      rw [hsame]
      exact (hrej f hf).resolve_left (by omega)
    refine ⟨-1, _, ?_, by decide, hi⟩
    rw [sysExec, doExec, hf]
    simp only [if_neg hz, hmap, Option.bind_some, hstore, if_neg (show ¬ f.length < 52 by omega),
      checkAndLoad, hreadable, if_true, hcheck, Bool.false_eq_true, if_false]

def stackProcess : ExecProcess :=
  ⟨⟨(doMmap id booted ustackBottom 0x1000).getD booted, fun _ => 0⟩, uheapStart,
    ustackBottom + 0x1000⟩

theorem stackProcess_mapped :
    doMmap id booted ustackBottom 0x1000 = some stackProcess.machine.space ∧
      Mmapped booted id ustackBottom 0x1000 stackProcess.machine.space := by
  have hr : UserRange ustackBottom 0x1000 := ⟨by decide, by decide⟩
  have hfree : lacking booted (ustackBottom / pageSize) (pages 0x1000 + 1) ≤
      (freeFrames booted.frames).card := by
    rw [show (freeFrames booted.frames).card = 63 by decide +kernel]
    decide
  obtain ⟨t, hrun, ht⟩ := doMmap_spec booted_good booted_fresh hr nofun hfree
  have hspace : stackProcess.machine.space = t := by
    rw [stackProcess, hrun, Option.getD_some]
  rw [hspace]
  exact ⟨hrun, ht⟩

theorem stackProcess_mmap :
    stackProcess.machine.space.mmap = [⟨ustackBottom, ustackBottom + 0x1000⟩] := by
  rw [doMmap_mmap stackProcess_mapped.1]
  decide

theorem stackProcess_free : (freeFrames stackProcess.machine.space.frames).card = 61 := by
  have hspent := stackProcess_mapped.2.spent (by decide) (by decide)
  rw [show (freeFrames booted.frames).card = 63 by decide +kernel,
    show lacking booted (ustackBottom / pageSize) (pages 0x1000 + 1) = 2 by decide] at hspent
  omega

theorem stackProcess_live : Live stackProcess.machine.space := by
  have hlive : Live booted := fun r h => absurd rfl h
  exact hlive.doMmap stackProcess_mapped.1

theorem stackProcess_frameOf :
    frameOf stackProcess.machine.space (ustackBottom / pageSize) = 1 := by
  decide +kernel

theorem stackProcess_sane : Sane stackProcess := by
  obtain ⟨hrun, ht⟩ := stackProcess_mapped
  refine ⟨ht.good, stackProcess_live, ?_, ?_, ?_, ?_⟩
  · rw [stackProcess_mmap]
    exact ⟨List.pairwise_singleton _ _, by decide, by decide⟩
  · rw [stackProcess_mmap]
    decide
  · rw [stackProcess_mmap]
    intro a ha v hs he
    obtain rfl := List.mem_singleton.mp ha
    refine ht.given (by decide) v ?_
    unfold InRange
    change ustackBottom ≤ pageSize * v at hs
    change pageSize * v < ustackBottom + 0x1000 at he
    rw [show pages 0x1000 = 1 by decide]
    unfold ustackBottom pageSize at *
    omega
  · rw [stackProcess_free]
    decide

theorem stackProcess_staged : Staged stackProcess (List.replicate 52 0) := by
  obtain ⟨hrun, ht⟩ := stackProcess_mapped
  have hpages : pages (List.replicate 52 (0 : UInt8)).length = 1 := by decide
  refine ⟨by simp, ?_, fun _ => ?_, ?_, fun k hk => ?_⟩
  · rw [stackProcess_mmap]
    decide
  · exact ht.given (by decide) _ ⟨by omega, by rw [hpages]; decide⟩
  · rw [hpages]
    refine ⟨List.pairwise_singleton _ _, fun u hu g hg => ?_⟩
    obtain rfl : u = ustackBottom / pageSize := by
      unfold InRange at hu
      omega
    rw [stackProcess_frameOf] at hg
    obtain rfl : g = 0 := by omega
    exact ht.good.zero
  · rw [List.getElem_replicate]
    rfl

theorem failed_exec_iff_zeros : ∃ ret q,
    sysExec id (fun _ => some (List.replicate 52 0)) [] stackProcess = .returned ret q ∧
      ret < 0 ∧ Intact stackProcess q :=
  (failed_exec_iff stackProcess_sane stackProcess_mapped.2.fresh (fun f hf => by
    rw [← Option.some.inj hf]
    simp) (fun f hf => .inr (by
    rw [← Option.some.inj hf]
    decide))).mpr ⟨_, rfl, stackProcess_staged⟩

/-- A path that does not exist fails an assertion. -/
theorem missing_file_panics : Sane stackProcess ∧ Fresh stackProcess.machine.space id ∧
    Rejected none ∧ sysExec id (fun _ => none) [] stackProcess = .panic :=
  ⟨stackProcess_sane, stackProcess_mapped.2.fresh, nofun, rfl⟩

end Bingos.Mmap
