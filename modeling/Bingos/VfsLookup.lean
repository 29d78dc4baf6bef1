import Bingos.VfsMounts

set_option autoImplicit false

/-! Which node a path lookup asks, and for which component, against the walk that a path
denotes. -/
namespace Bingos.Vfs

open CStrings PathWalks

/-- A component of a path: not empty, and without slashes and terminators. -/
structure Component (c : Bytes) : Prop where
  ne_nil : c ≠ []
  nulFree : 0 ∉ c
  slashFree : slash ∉ c

variable {cs : List Bytes} {d i n found : ℕ}

theorem nulFree_of_components (hcs : ∀ c ∈ cs, Component c) : ∀ c ∈ cs, 0 ∉ c :=
  fun c hc => (hcs c hc).nulFree

theorem slashFree_of_components (hcs : ∀ c ∈ cs, Component c) :
    ∀ c ∈ cs, slash ∉ c :=
  fun c hc => (hcs c hc).slashFree

def absolute (cs : List Bytes) : Bytes := cs.flatMap (slash :: ·)

/-- The walk a path denotes: `vfs_finddir` once per component, on the node found before. -/
def resolve (fs : FileSystem) (vfsRoot : ℕ) (tree : TreeNode) (node : ℕ) : List Bytes → Option ℕ
  | [] => some node
  | c :: cs =>
    (vfsFinddir fs vfsRoot tree node c).bind (resolve fs vfsRoot tree · cs)

def mountedDepth (T : List Bytes → Option ℕ) (cs : List Bytes) (i : ℕ) : ℕ :=
  Nat.findGreatest (fun j => (T (cs.take j)).isSome) i

def knownDepth (K : List Bytes → Bool) (cs : List Bytes) : ℕ :=
  Nat.findGreatest (fun j => K (cs.take j)) cs.length

theorem splitPath_absolute (hcs : ∀ c ∈ cs, slash ∉ c) (beyond : Bytes) :
    (splitPath (absolute cs)).1 ++ 0 :: beyond = 0 :: (encode cs ++ beyond) ∧
      (splitPath (absolute cs)).2 = cs.length := by
  induction cs with
  | nil => exact ⟨rfl, rfl⟩
  | cons c cs ih =>
    obtain ⟨hbytes, hcount⟩ := ih fun x hx => hcs x (List.mem_cons_of_mem _ hx)
    have hsplit : splitPath (absolute (c :: cs)) =
        (0 :: (c ++ (splitPath (absolute cs)).1), (splitPath (absolute cs)).2 + 1) := by
      change splitPath (slash :: (c ++ absolute cs)) = _
      rw [splitPath_slash, splitPath_append (hcs c List.mem_cons_self)]
    rw [hsplit]
    refine ⟨?_, by simpa using hcount⟩
    rw [encode_cons, List.cons_append, List.append_assoc, hbytes]
    simp

def offset (cs : List Bytes) (i : ℕ) : ℕ := 1 + (encode (cs.take i)).length

theorem offset_succ (hi : i < cs.length) :
    offset cs (i + 1) = offset cs i + cs[i].length + 1 := by
  rw [offset, offset, List.take_succ_eq_append_getElem hi, encode_append, List.length_append,
    encode_cons]
  simp only [encode_nil, List.length_append, List.length_cons, List.length_nil]
  omega

theorem offset_le {j : ℕ} (hij : i ≤ j) (hj : j ≤ cs.length) :
    offset cs i + (j - i) ≤ offset cs j := by
  induction j, hij using Nat.le_induction with
  | base => simp
  | succ j hij ih =>
    have := ih (by omega)
    rw [offset_succ (by omega)]
    omega

section Buffer

variable {beyond : Bytes}

theorem drop_offset (i : ℕ) :
    (0 :: (encode cs ++ beyond)).drop (offset cs i) = encode (cs.drop i) ++ beyond := by
  have hsplit : encode cs = encode (cs.take i) ++ encode (cs.drop i) := by
    rw [← encode_append, List.take_append_drop]
  rw [offset, Nat.add_comm, List.drop_succ_cons, hsplit, List.append_assoc, List.drop_left]

theorem drop_component (hi : i < cs.length) :
    (0 :: (encode cs ++ beyond)).drop (offset cs i) =
      cs[i] ++ 0 :: (encode (cs.drop (i + 1)) ++ beyond) := by
  rw [drop_offset, List.drop_eq_getElem_cons hi, encode_cons, List.append_assoc, List.cons_append]

theorem byte_offset (hcs : ∀ c ∈ cs, Component c) (hi : i < cs.length) :
    (0 :: (encode cs ++ beyond)).getD (offset cs i) 0 ≠ 0 := by
  have hc := hcs _ (List.getElem_mem hi)
  obtain ⟨x, xs, hx⟩ := List.exists_cons_of_ne_nil hc.ne_nil
  have hdrop : (0 :: (encode cs ++ beyond)).drop (offset cs i) = _ := drop_component hi
  rw [hx, List.cons_append] at hdrop
  have hget : (0 :: (encode cs ++ beyond))[offset cs i]? = some x := by
    rw [← List.head?_drop, hdrop, List.head?_cons]
  rw [List.getD_eq_getElem?_getD, hget]
  rintro rfl
  exact hc.nulFree (by rw [hx]; exact List.mem_cons_self)

variable (hcs : ∀ c ∈ cs, 0 ∉ c)
include hcs

theorem cstr_offset (hi : i < cs.length) :
    cstr (0 :: (encode cs ++ beyond)) (offset cs i) = cs[i] :=
  cstr_of_drop (hcs _ (List.getElem_mem hi)) (drop_component hi)

theorem next_offset (hi : i < cs.length) :
    offset cs i + strlen (0 :: (encode cs ++ beyond)) (offset cs i) + 1 = offset cs (i + 1) := by
  rw [strlen, cstr_offset hcs hi, offset_succ hi]

theorem skipStrings_offset (hd : i + d ≤ cs.length) :
    skipStrings (0 :: (encode cs ++ beyond)) (offset cs i) d = offset cs (i + d) := by
  induction d generalizing i with
  | zero => rfl
  | succ d ih =>
    rw [skipStrings, next_offset hcs (by omega), ih (by omega)]
    congr 1
    omega

theorem lookupLoop_offset (fs : FileSystem) (vfsRoot : ℕ) (tree : TreeNode) (n : ℕ)
    (ret : Option ℕ) (hd : i + d < cs.length) :
    lookupLoop fs vfsRoot tree (0 :: (encode cs ++ beyond)) n (d + 1) (offset cs i) ret =
      vfsFinddir fs vfsRoot tree n cs[i + d] := by
  induction d generalizing i ret with
  | zero =>
    rw [lookupLoop, lookupLoop, cstr_offset hcs (by omega)]
    rfl
  | succ d ih =>
    rw [lookupLoop, next_offset hcs (by omega), ih _ (by omega)]
    congr 2
    omega

end Buffer

theorem findGreatest_stable {P : ℕ → Prop} [DecidablePred P] (hin : i ≤ n)
    (h : ∀ j, i < j → j ≤ n → ¬ P j) : Nat.findGreatest P n = Nat.findGreatest P i := by
  induction n, hin using Nat.le_induction with
  | base => rfl
  | succ n hin ih =>
    rw [Nat.findGreatest_succ, if_neg (h _ (by omega) le_rfl), ih fun j hj hn => h j hj (by omega)]

section Search

variable {σ : Type} {child : σ → Bytes → Option σ} {file : σ → Option ℕ} {node t : σ}
  {T : List Bytes → Option ℕ} {K : List Bytes → Bool}

/-- The walks from `t` find the files of the table `T` and the nodes of `K`. -/
structure Charts (child : σ → Bytes → Option σ) (file : σ → Option ℕ) (t : σ)
    (T : List Bytes → Option ℕ) (K : List Bytes → Bool) : Prop where
  file : ∀ ds, (walk child t ds).bind file = T ds
  node : ∀ ds, (walk child t ds).isSome = K ds

theorem Represents.charts {t : TreeNode} (h : Represents t T K) :
    Charts TreeNode.child TreeNode.file t T K where
  file := h.file
  node := h.node

theorem mountedDepth_le (cs : List Bytes) (i : ℕ) : mountedDepth T cs i ≤ i :=
  Nat.findGreatest_le i

theorem mountedDepth_spec (cs : List Bytes) (h0 : (T []).isSome) :
    (T (cs.take (mountedDepth T cs cs.length))).isSome = true :=
  Nat.findGreatest_spec (P := fun j => (T (cs.take j)).isSome = true) (Nat.zero_le cs.length)
    (by simpa using h0)

theorem mountedDepth_known (ht : Charts child file t T K) (cs : List Bytes) (h0 : (T []).isSome) :
    mountedDepth T cs cs.length ≤ knownDepth K cs := by
  refine Nat.le_findGreatest (mountedDepth_le cs _) ?_
  have hfile := mountedDepth_spec cs h0
  rw [← ht.file] at hfile
  rw [← ht.node]
  cases hd : walk child t (cs.take (mountedDepth T cs cs.length)) with
  | none => simp [hd] at hfile
  | some n => rfl

theorem depths_end (ht : Charts child file t T K)
    (hi : i ≤ cs.length) (hnode : walk child t (cs.take i) = some node)
    (hnone : ∀ j, i < j → j ≤ cs.length → walk child t (cs.take j) = none) :
    mountedDepth T cs cs.length = mountedDepth T cs i ∧ knownDepth K cs = i := by
  constructor
  · apply findGreatest_stable hi
    intro j hij hj
    simp [← ht.file, hnone j hij hj]
  · have hknown : K (cs.take i) = true := by
      rw [← ht.node, hnode]
      rfl
    rw [knownDepth, findGreatest_stable hi, Nat.findGreatest_eq hknown]
    intro j hij hj
    simp [← ht.node, hnone j hij hj]

def searched (T : List Bytes → Option ℕ) (vfsRoot : ℕ) (cs : List Bytes) (i : ℕ) : MountPoint :=
  ⟨(T (cs.take (mountedDepth T cs i))).getD vfsRoot, offset cs (mountedDepth T cs i), i⟩

theorem searched_succ (vfsRoot : ℕ) (cs : List Bytes) (i : ℕ) :
    searched T vfsRoot cs (i + 1) =
      match T (cs.take (i + 1)) with
      | some file => ⟨file, offset cs (i + 1), i + 1⟩
      | none => ⟨(searched T vfsRoot cs i).last, (searched T vfsRoot cs i).mountPath, i + 1⟩ := by
  simp only [searched, mountedDepth, Nat.findGreatest_succ]
  cases hT : T (cs.take (i + 1)) <;> simp [hT]

/-- The search loop of `vfs_get_mount_point` over any nodes with children and files. -/
def searchLoop (child : σ → Bytes → Option σ) (file : σ → Option ℕ) (buf : Bytes) (stop : ℕ) :
    ℕ → ℕ → σ → MountPoint → MountPoint
  | 0, _, _, mp => mp
  | fuel + 1, p, node, mp =>
    if stop ≤ p then
      mp
    else
      match child node (cstr buf p) with
      | none => mp
      | some next =>
        searchLoop child file buf stop fuel (p + strlen buf p + 1) next
          (match file next with
            | some f => ⟨f, p + strlen buf p + 1, mp.mountDepth + 1⟩
            | none => ⟨mp.last, mp.mountPath, mp.mountDepth + 1⟩)

theorem mountPointLoop_eq (buf : Bytes) (stop fuel p : ℕ) (node : TreeNode) (mp : MountPoint) :
    mountPointLoop buf stop fuel p node mp =
      searchLoop TreeNode.child TreeNode.file buf stop fuel p node mp := by
  induction fuel generalizing p node mp with
  | zero => rfl
  | succ fuel ih =>
    rw [mountPointLoop, searchLoop]
    simp only [ih]
    cases node.child (cstr buf p) with
    | none => rfl
    | some next => cases hf : next.file <;> simp only [hf]

theorem searchLoop_eq (ht : Charts child file t T K) (hcs : ∀ c ∈ cs, 0 ∉ c) (beyond : Bytes)
    (vfsRoot : ℕ) {fuel : ℕ} (hi : i ≤ cs.length)
    (hnode : walk child t (cs.take i) = some node) (hfuel : cs.length - i < fuel) :
    searchLoop child file (0 :: (encode cs ++ beyond)) (offset cs cs.length) fuel (offset cs i) node
        (searched T vfsRoot cs i) =
      ⟨(T (cs.take (mountedDepth T cs cs.length))).getD vfsRoot,
        offset cs (mountedDepth T cs cs.length), knownDepth K cs⟩ := by
  induction fuel generalizing i node with
  | zero => omega
  | succ fuel ih =>
    rw [searchLoop]
    rcases Nat.eq_or_lt_of_le hi with heq | hlt
    · obtain ⟨hk, hm⟩ := depths_end ht hi hnode (by omega)
      rw [if_pos (by rw [heq]), hk, hm, searched]
    · have hmove := offset_le hi le_rfl
      rw [if_neg (by omega), cstr_offset hcs hlt]
      have hchild : walk child t (cs.take (i + 1)) =
          (walk child t (cs.take i)).bind (child · cs[i]) := walk_take_succ hlt
      rw [hnode, Option.bind_some] at hchild
      cases hc : child node cs[i] with
      | none =>
        obtain ⟨hk, hm⟩ := depths_end ht hi hnode fun j hij _ =>
          walk_take_none hij (hchild.trans hc)
        rw [hk, hm]
        rfl
      | some next =>
        rw [hc] at hchild
        have hfile : T (cs.take (i + 1)) = file next := by
          rw [← ht.file, hchild, Option.bind_some]
        simp only [next_offset hcs hlt]
        rw [← ih hlt hchild (by omega), searched_succ, hfile]
        rfl

theorem searchLoop_path (ht : Charts child file t T K)
    (hcs : ∀ c ∈ cs, 0 ∉ c) (beyond : Bytes) {vfsRoot : ℕ} (hroot : T [] = some vfsRoot) :
    searchLoop child file (0 :: (encode cs ++ beyond))
        (skipStrings (0 :: (encode cs ++ beyond)) 1 cs.length)
        (skipStrings (0 :: (encode cs ++ beyond)) 1 cs.length) 1 t ⟨vfsRoot, 1, 0⟩ =
      ⟨(T (cs.take (mountedDepth T cs cs.length))).getD vfsRoot,
        offset cs (mountedDepth T cs cs.length), knownDepth K cs⟩ := by
  have hfirst : offset cs 0 = 1 := by simp [offset]
  have hstop : skipStrings (0 :: (encode cs ++ beyond)) 1 cs.length = offset cs cs.length := by
    rw [← hfirst, skipStrings_offset hcs (by omega), Nat.zero_add]
  have hstart : searched T vfsRoot cs 0 = ⟨vfsRoot, 1, 0⟩ := by
    simp [searched, mountedDepth, hfirst, hroot]
  have hlen := offset_le (Nat.zero_le cs.length) le_rfl
  rw [hstop, ← hstart, ← hfirst]
  exact searchLoop_eq ht hcs beyond vfsRoot (Nat.zero_le _) rfl (by omega)

end Search

section Lookup

variable {vfsRoot : ℕ} {ms : List MountCall} {t : TreeNode}

def askedComponent (vfsRoot : ℕ) (ms : List MountCall) (cs : List Bytes) : Bytes :=
  cs.getD (mountedDepth (mounted vfsRoot ms) cs cs.length +
    (cs.length - knownDepth (known ms) cs - 1)) []

theorem lookupInternal_offset (hcs : ∀ c ∈ cs, Component c) (fs : FileSystem) (beyond : Bytes)
    (n : ℕ) {k : ℕ} (hk : k + (d - 1) < cs.length) :
    vfsLookupInternal fs vfsRoot t (0 :: (encode cs ++ beyond)) n (offset cs k) d =
      vfsFinddir fs vfsRoot t n (cs.getD (k + (d - 1)) []) := by
  rw [vfsLookupInternal, if_neg (byte_offset hcs (by omega)), List.getD_eq_getElem _ _ hk]
  cases d with
  | zero =>
    rw [if_pos rfl, cstr_offset (nulFree_of_components hcs) (by omega)]
    rfl
  | succ d =>
    rw [if_neg (Nat.succ_ne_zero d)]
    exact lookupLoop_offset (nulFree_of_components hcs) fs vfsRoot t n none hk

theorem vfsGetMountPoint_eq (hrun : mountAll vfsRoot ms = some t) (hcs : ∀ c ∈ cs, 0 ∉ c)
    (beyond : Bytes) :
    vfsGetMountPoint vfsRoot t (0 :: (encode cs ++ beyond)) 1 cs.length =
      ⟨(mounted vfsRoot ms (cs.take (mountedDepth (mounted vfsRoot ms) cs cs.length))).getD vfsRoot,
        offset cs (mountedDepth (mounted vfsRoot ms) cs cs.length), knownDepth (known ms) cs⟩ := by
  rw [vfsGetMountPoint, mountPointLoop_eq]
  exact searchLoop_path (represents_mountAll hrun).charts hcs beyond (mounted_root vfsRoot ms)

theorem absolute_guards (hcs : ∀ c ∈ cs, Component c) (hne : 0 < cs.length) :
    (absolute cs).head? = some slash ∧ (absolute cs).length ≠ 1 := by
  cases cs with
  | nil => simp at hne
  | cons c cs =>
    have hc := List.length_pos_iff.mpr (hcs c List.mem_cons_self).ne_nil
    refine ⟨rfl, ?_⟩
    change (slash :: (c ++ absolute cs)).length ≠ 1
    rw [List.length_cons, List.length_append]
    omega

theorem vfsLookup_absolute (hrun : mountAll vfsRoot ms = some t) (hnul : ∀ c ∈ cs, 0 ∉ c)
    (hslash : ∀ c ∈ cs, slash ∉ c) (hhead : (absolute cs).head? = some slash)
    (hone : (absolute cs).length ≠ 1) (fs : FileSystem) (beyond : Bytes) :
    vfsLookup fs vfsRoot t (absolute cs) beyond =
      vfsLookupInternal fs vfsRoot t (0 :: (encode cs ++ beyond))
        ((mounted vfsRoot ms (cs.take (mountedDepth (mounted vfsRoot ms) cs cs.length))).getD vfsRoot)
        (offset cs (mountedDepth (mounted vfsRoot ms) cs cs.length))
        (cs.length - knownDepth (known ms) cs) := by
  obtain ⟨hbuf, hcount⟩ := splitPath_absolute hslash beyond
  have hknown : knownDepth (known ms) cs ≤ cs.length := Nat.findGreatest_le _
  simp only [vfsLookup, hhead, hone, hbuf, hcount, vfsGetMountPoint_eq hrun hnul beyond, ne_eq,
    not_true_eq_false, if_false, hknown, if_true]

/-- A lookup asks one node once: the one at the longest mounted prefix. -/
theorem vfsLookup_eq (hrun : mountAll vfsRoot ms = some t) (hcs : ∀ c ∈ cs, Component c)
    (hk : mountedDepth (mounted vfsRoot ms) cs cs.length < cs.length) (fs : FileSystem)
    (beyond : Bytes) :
    vfsLookup fs vfsRoot t (absolute cs) beyond =
      vfsFinddir fs vfsRoot t
        ((mounted vfsRoot ms (cs.take (mountedDepth (mounted vfsRoot ms) cs cs.length))).getD vfsRoot)
        (askedComponent vfsRoot ms cs) := by
  obtain ⟨hhead, hone⟩ := absolute_guards hcs (by omega)
  have hdepth := mountedDepth_known (represents_mountAll hrun).charts cs (by rw [mounted_root]; rfl)
  rw [vfsLookup_absolute hrun (nulFree_of_components hcs) (slashFree_of_components hcs) hhead hone]
  exact lookupInternal_offset hcs fs beyond _ (by omega)

theorem vfsFinddir_root (hrun : mountAll vfsRoot ms = some t) (fs : FileSystem) (c : Bytes) :
    vfsFinddir fs vfsRoot t vfsRoot c = mounted vfsRoot ms [c] := by
  rw [vfsFinddir, if_pos rfl, ← (represents_mountAll hrun).file, fileAt, walk]
  cases t.child c <;> rfl

theorem mounted_prefix (hroot : ∀ m ∈ ms, m.lroot ≠ some vfsRoot) (cs : List Bytes) :
    ∃ n, mounted vfsRoot ms (cs.take (mountedDepth (mounted vfsRoot ms) cs cs.length)) = some n ∧
      (n = vfsRoot ↔ mountedDepth (mounted vfsRoot ms) cs cs.length = 0) := by
  have hle : mountedDepth (mounted vfsRoot ms) cs cs.length ≤ cs.length := mountedDepth_le cs _
  have hsome := mountedDepth_spec (T := mounted vfsRoot ms) cs (by rw [mounted_root]; rfl)
  generalize mountedDepth (mounted vfsRoot ms) cs cs.length = k at hle hsome
  obtain ⟨n, hn⟩ := Option.isSome_iff_exists.mp hsome
  refine ⟨n, hn, ?_, ?_⟩
  · rintro rfl
    by_contra hk
    obtain ⟨m, hm, he⟩ := mounted_of_call (by simp; grind) hn
    exact hroot m hm he
  · rintro rfl
    rw [List.take_zero, mounted_root] at hn
    exact (Option.some.inj hn).symm

theorem resolve_unmounted (hrun : mountAll vfsRoot ms = some t)
    (hk0 : mountedDepth (mounted vfsRoot ms) cs cs.length = 0) (hcs : 0 < cs.length)
    (fs : FileSystem) : resolve fs vfsRoot t vfsRoot cs = none := by
  have hfirst : ¬ (mounted vfsRoot ms (cs.take 1)).isSome = true :=
    Nat.findGreatest_eq_zero_iff.mp hk0 Nat.one_pos hcs
  cases cs with
  | nil => simp at hcs
  | cons c cs =>
    rw [resolve, vfsFinddir_root hrun]
    rw [Option.not_isSome_iff_eq_none] at hfirst
    exact congrArg (Option.bind · _) hfirst

theorem askedComponent_last (hrun : mountAll vfsRoot ms = some t)
    (hlast : mountedDepth (mounted vfsRoot ms) cs cs.length + 1 = cs.length) :
    askedComponent vfsRoot ms cs =
      cs.get ⟨mountedDepth (mounted vfsRoot ms) cs cs.length, by omega⟩ := by
  have hdepth := mountedDepth_known (represents_mountAll hrun).charts cs (by rw [mounted_root]; rfl)
  have hindex : cs.length - knownDepth (known ms) cs - 1 = 0 := by omega
  rw [askedComponent, hindex, Nat.add_zero, List.getD_eq_getElem _ _ (by omega), List.get_eq_getElem]

/-- A file system in which `n` is the only directory and finds `found` under every name. -/
def singleDirectory (n found : ℕ) : FileSystem :=
  ⟨fun x => if x = n then vfsDirectory else 0, fun _ => some fun _ => some found⟩

theorem finddir_singleDirectory (hn : n ≠ vfsRoot) (c : Bytes) :
    vfsFinddir (singleDirectory n found) vfsRoot t n c = some found := by
  simp [vfsFinddir, singleDirectory, hn, vfsDirectory]

theorem resolve_singleDirectory (hn : n ≠ vfsRoot) (hfound : found ≠ vfsRoot)
    (hne : found ≠ n) (c d : Bytes) (cs : List Bytes) :
    resolve (singleDirectory n found) vfsRoot t n (c :: d :: cs) = none := by
  rw [resolve, finddir_singleDirectory hn, Option.bind_some, resolve]
  simp [vfsFinddir, singleDirectory, hfound, hne, vfsDirectory]

end Lookup

/-- A lookup finds what the path denotes, whatever file systems are mounted, exactly if one
component remains, or if nothing on the path is mounted and the component the root is asked for
is no mounted name either. With two components behind a mount the first is skipped. -/
theorem lookup_resolves_iff (vfsRoot : ℕ) (ms : List MountCall) (t : TreeNode)
    (hroot : ∀ m ∈ ms, m.lroot ≠ some vfsRoot) (hrun : mountAll vfsRoot ms = some t)
    (cs : List Bytes) (hcs : ∀ c ∈ cs, Component c)
    (hk : mountedDepth (mounted vfsRoot ms) cs cs.length < cs.length) (beyond : Bytes) :
    (∀ fs, vfsLookup fs vfsRoot t (absolute cs) beyond =
        (mounted vfsRoot ms (cs.take (mountedDepth (mounted vfsRoot ms) cs cs.length))).bind
          fun n => resolve fs vfsRoot t n
            (cs.drop (mountedDepth (mounted vfsRoot ms) cs cs.length))) ↔
      cs.length - mountedDepth (mounted vfsRoot ms) cs cs.length = 1 ∨
        mountedDepth (mounted vfsRoot ms) cs cs.length = 0 ∧
          mounted vfsRoot ms [askedComponent vfsRoot ms cs] = none := by
  obtain ⟨n, hn, hzero⟩ := mounted_prefix hroot cs
  have hlookup := vfsLookup_eq hrun hcs hk
  simp only [hlookup, hn, Option.getD_some, Option.bind_some]
  rcases Nat.lt_or_ge 1 (cs.length - mountedDepth (mounted vfsRoot ms) cs cs.length) with hr | hr
  · rw [or_iff_right (by omega)]
    by_cases hnr : n = vfsRoot
    · -- No prefix is mounted, so the walk fails at its first component.
      subst hnr
      have hk0 := hzero.mp rfl
      simp only [hk0, List.drop_zero, resolve_unmounted hrun hk0 (by omega), vfsFinddir_root hrun,
        forall_const, true_and]
    · have hk0 := mt hzero.mpr hnr
      refine iff_of_false (fun hall => ?_) (fun h => hk0 h.1)
      have hfs := hall (singleDirectory n (n + vfsRoot + 1))
      rw [List.drop_eq_getElem_cons hk, List.drop_eq_getElem_cons (by omega),
        finddir_singleDirectory hnr, resolve_singleDirectory hnr (by omega) (by omega)] at hfs
      exact absurd hfs nofun
  · refine iff_of_true (fun fs => ?_) (Or.inl (by omega))
    rw [askedComponent_last hrun (by omega), List.drop_eq_getElem_cons hk,
      List.drop_eq_nil_of_le (by omega)]
    simp [resolve]

def mountBin : MountCall := ⟨[slash, 98, 105, 110], some 2, by decide⟩

theorem lookup_resolves_iff_bin :
    ∃ t, mountAll 1 [mountBin] = some t ∧
      ∀ fs, vfsLookup fs 1 t (absolute [[98, 105, 110], [97]]) [] = resolve fs 1 t 2 [[97]] := by
  refine ⟨_, rfl, (lookup_resolves_iff 1 [mountBin] _ (by decide) rfl [[98, 105, 110], [97]] ?_
    (by decide) []).mpr (Or.inl (by decide))⟩
  intro c hc
  fin_cases hc <;> exact ⟨by decide, by decide, by decide⟩

/-- `/bin` holds a directory `a` (node 3), which holds a file `b` (node 4). -/
def nestedFiles : FileSystem where
  flags n := if n = 4 then 1 else vfsDirectory
  finddir
    | 2 => some fun c => if c = [97] then some 3 else none
    | 3 => some fun c => if c = [98] then some 4 else none
    | _ => none

/-- `/bin/a/b` exists, but its lookup asks `/bin` for `b`. -/
theorem nested_file_not_found :
    ∃ t, mountAll 1 [mountBin] = some t ∧
      mountedDepth (mounted 1 [mountBin]) [[98, 105, 110], [97], [98]] 3 = 1 ∧
      mounted 1 [mountBin] [[98, 105, 110]] = some 2 ∧
      resolve nestedFiles 1 t 2 [[97], [98]] = some 4 ∧
      vfsLookup nestedFiles 1 t (absolute [[98, 105, 110], [97], [98]]) [] = none := by
  refine ⟨_, rfl, ?_, ?_, ?_, ?_⟩ <;> decide

end Bingos.Vfs
