import Bingos.PathWalks
import Bingos.VfsModel

set_option autoImplicit false

/-! The mount tree as a table from component lists to mounted nodes. -/
namespace Bingos.Vfs

open CStrings PathWalks

/-- The components of a path behind its leading slash, each ended by a slash or by the end. -/
def components : Bytes → List Bytes
  | [] => []
  | c :: s =>
    if c = slash then [] :: components s
    else match components s with
      | [] => [[c]]
      | x :: xs => (c :: x) :: xs

def fileAt (t : TreeNode) (cs : List Bytes) : Option ℕ := (walk TreeNode.child t cs).bind TreeNode.file

def mountAt (lroot : Option ℕ) : TreeNode → List Bytes → Option TreeNode
  | t, [] => some (.mk t.name lroot t.children)
  | t, c :: cs =>
    match t.child c with
    | some child =>
      (mountAt lroot child cs).map fun n => .mk t.name t.file (replaceFirst n t.children)
    | none =>
      if maxTreeChildren ≤ t.children.length ∨ entryNameSize ≤ c.length then none
      else (mountAt lroot (.mk c none []) cs).map fun n => .mk t.name t.file (t.children ++ [n])

variable {buf s x c : Bytes} {cs : List Bytes} {lroot : Option ℕ} {n t t' : TreeNode}
  {fuel p vfsRoot stop : ℕ} {l : List TreeNode}

theorem child_name (h : t.child c = some n) : n.name = c := by
  simpa using List.find?_some h

theorem mountAt_name (h : mountAt lroot t cs = some t') : t'.name = t.name := by
  cases cs with
  | nil =>
    simp only [mountAt, Option.some.injEq] at h
    rw [← h, TreeNode.name]
  | cons c cs =>
    simp only [mountAt] at h
    split at h
    · obtain ⟨n, -, rfl⟩ := Option.map_eq_some_iff.mp h
      rfl
    · split_ifs at h
      obtain ⟨n, -, rfl⟩ := Option.map_eq_some_iff.mp h
      rfl

theorem find_replaceFirst (d : Bytes) (hmem : (l.find? (fun x => x.name = n.name)).isSome) :
    (replaceFirst n l).find? (fun x => x.name = d) =
      if d = n.name then some n else l.find? (fun x => x.name = d) := by
  induction l with
  | nil => simp at hmem
  | cons x xs ih =>
    rw [replaceFirst]
    by_cases hx : x.name = n.name
    · rw [if_pos hx]
      by_cases hd : d = n.name
      · simp [hd]
      · have hd' : ¬ n.name = d := fun e => hd e.symm
        simp [hd, hd', hx]
    · rw [if_neg hx]
      rw [List.find?_cons_of_neg (by simpa using hx)] at hmem
      by_cases hxd : x.name = d
      · have hd : ¬ d = n.name := fun e => hx (hxd.trans e)
        simp [hxd, hd]
      · simp [hxd, ih hmem]

theorem find_append_fresh (d : Bytes) (hfresh : l.find? (fun x => x.name = n.name) = none) :
    (l ++ [n]).find? (fun x => x.name = d) =
      if d = n.name then some n else l.find? (fun x => x.name = d) := by
  rw [List.find?_append]
  by_cases hd : d = n.name
  · simp [hd, hfresh]
  · have hd' : ¬ n.name = d := fun e => hd e.symm
    simp [hd, hd']

/-- What one round of a mount does to the children: the child it goes through is exchanged or
added, the others stay. -/
theorem mountAt_cons (h : mountAt lroot t (c :: cs) = some t') :
    ∃ n, mountAt lroot ((t.child c).getD (.mk c none [])) cs = some n ∧ t'.file = t.file ∧
      ∀ d, t'.child d = if d = c then some n else t.child d := by
  simp only [mountAt] at h
  split at h
  next child hchild =>
    obtain ⟨n, hn, rfl⟩ := Option.map_eq_some_iff.mp h
    have hname : n.name = c := (mountAt_name hn).trans (child_name hchild)
    refine ⟨n, by simpa [hchild] using hn, rfl, fun d => ?_⟩
    rw [← hname]
    apply find_replaceFirst
    rw [hname]
    exact Option.isSome_iff_exists.mpr ⟨child, hchild⟩
  next hchild =>
    split_ifs at h
    obtain ⟨n, hn, rfl⟩ := Option.map_eq_some_iff.mp h
    have hname : n.name = c := mountAt_name hn
    refine ⟨n, by simpa [hchild] using hn, rfl, fun d => ?_⟩
    rw [← hname]
    apply find_append_fresh
    rw [hname]
    exact hchild

@[simp] theorem walk_leaf (c : Bytes) (ds : List Bytes) :
    walk TreeNode.child (.mk c none []) ds = if ds = [] then some (.mk c none []) else none := by
  cases ds <;> simp [walk, TreeNode.child, TreeNode.children]

theorem walk_mountAt (h : mountAt lroot t cs = some t') (ds : List Bytes) :
    (walk TreeNode.child t' ds).isSome ↔ (walk TreeNode.child t ds).isSome ∨ ds <+: cs := by
  induction ds generalizing t t' cs with
  | nil => simp [walk]
  | cons d ds ih =>
    cases cs with
    | nil =>
      simp only [mountAt, Option.some.injEq] at h
      subst h
      simp [walk, TreeNode.child, TreeNode.children]
    | cons c cs =>
      obtain ⟨n, hn, -, hchild⟩ := mountAt_cons h
      simp only [walk, hchild d]
      by_cases hd : d = c
      · subst hd
        have hrec := ih hn
        cases hc : t.child d with
        | some child => simpa [hc] using hrec
        | none =>
          have hnil : ds = [] → ds <+: cs := by
            rintro rfl
            exact List.nil_prefix
          simp only [hc, Option.getD_none, walk_leaf] at hrec
          split_ifs at hrec with he <;> simp_all
      · simp [hd]

theorem fileAt_mountAt (h : mountAt lroot t cs = some t') (ds : List Bytes) :
    fileAt t' ds = if ds = cs then lroot else fileAt t ds := by
  induction ds generalizing t t' cs with
  | nil =>
    cases cs with
    | nil =>
      simp only [mountAt, Option.some.injEq] at h
      subst h
      rfl
    | cons c cs =>
      obtain ⟨n, -, hfile, -⟩ := mountAt_cons h
      simpa [fileAt, walk] using hfile
  | cons d ds ih =>
    cases cs with
    | nil =>
      simp only [mountAt, Option.some.injEq] at h
      subst h
      rfl
    | cons c cs =>
      obtain ⟨n, hn, -, hchild⟩ := mountAt_cons h
      have hrec := ih hn
      simp only [fileAt, walk, hchild d] at hrec ⊢
      by_cases hd : d = c
      · subst hd
        cases hc : t.child d with
        | some child => simpa [hc] using hrec
        | none =>
          simp only [hc, Option.getD_none, walk_leaf] at hrec
          split_ifs at hrec with he hds <;> simp_all [TreeNode.file]
      · simp [hd]

theorem splitPath_append (hx : slash ∉ x) (s : Bytes) :
    splitPath (x ++ s) = (x ++ (splitPath s).1, (splitPath s).2) := by
  induction x with
  | nil => rfl
  | cons c x ih =>
    obtain ⟨hc, hx⟩ := not_or.mp (List.mem_cons.not.mp hx)
    rw [List.cons_append, splitPath, if_neg (fun e => hc e.symm), ih hx, List.cons_append]

theorem splitPath_slash (s : Bytes) :
    splitPath (slash :: s) = (0 :: (splitPath s).1, (splitPath s).2 + 1) := by
  rw [splitPath, if_pos rfl]

theorem splitPath_plain (hx : slash ∉ x) : splitPath x = (x, 0) := by
  simpa [splitPath] using splitPath_append hx []

theorem components_eq (hs : s ≠ []) :
    ∃ x u, components s = x :: components u ∧ slash ∉ x ∧
      (s = x ++ slash :: u ∨ s = x ∧ u = []) := by
  induction s with
  | nil => exact absurd rfl hs
  | cons c s ih =>
    rw [components]
    by_cases hc : c = slash
    · exact ⟨[], s, by rw [if_pos hc], by simp, Or.inl (by simp [hc])⟩
    · have hc' : ¬ slash = c := fun e => hc e.symm
      rw [if_neg hc]
      by_cases hn : s = []
      · exact ⟨[c], [], by simp [hn, components], by simpa using hc', Or.inr (by simp [hn])⟩
      · obtain ⟨x, u, hx, hslash, hsplit⟩ := ih hn
        refine ⟨c :: x, u, by rw [hx], by simp [hc', hslash], ?_⟩
        rcases hsplit with h | ⟨h, hu⟩
        · exact Or.inl (by rw [h, List.cons_append])
        · exact Or.inr ⟨by rw [h], hu⟩

theorem mountLoop_round {xs : List Bytes} (lroot : Option ℕ)
    (t : TreeNode) (hp : p < stop) (hx : cstr buf p = x)
    (hnext : ∀ n, mountLoop buf stop lroot fuel (p + x.length + 1) n = mountAt lroot n xs) :
    mountLoop buf stop lroot (fuel + 1) p t = mountAt lroot t (x :: xs) := by
  have hlen : strlen buf p = x.length := by rw [strlen, hx]
  rw [mountLoop, if_neg (Nat.not_le.mpr hp), mountAt, hx, hlen]
  cases t.child x with
  | some child => simp only [hnext]
  | none => simp only [hnext]

/-- A pointer loop over a split path goes through the components of the path, whether or not it
ends in a slash, and needs no more rounds than the path has bytes. -/
theorem components_induction (P : ℕ → ℕ → List Bytes → Prop)
    (done : ∀ fuel p, stop ≤ p → 0 < fuel → P fuel p [])
    (round : ∀ fuel p x xs, p < stop → cstr buf p = x → P fuel (p + x.length + 1) xs →
      P (fuel + 1) p (x :: xs)) (hs : 0 ∉ s) (hbuf : buf.drop p = (splitPath s).1 ++ [0])
    (hstop : stop = p + s.length) (hfuel : s.length < fuel) : P fuel p (components s) := by
  induction fuel generalizing s p with
  | zero => omega
  | succ fuel ih =>
    by_cases hn : s = []
    · subst hn
      exact done _ p (by simp [hstop]) (by omega)
    · have hpos := List.length_pos_iff.mpr hn
      obtain ⟨x, u, hx, hslash, rfl | ⟨rfl, rfl⟩⟩ := components_eq hn
      · have hu : 0 ∉ u := fun h => hs (by simp [h])
        have hx0 : 0 ∉ x := fun h => hs (by simp [h])
        simp only [splitPath_append hslash, splitPath_slash, List.append_assoc, List.cons_append] at hbuf
        rw [List.length_append, List.length_cons] at hstop hfuel
        rw [hx]
        refine round fuel p x _ (by omega) (cstr_of_drop hx0 hbuf) ?_
        exact ih hu (drop_next hbuf) (by omega) (by omega)
      · rw [splitPath_plain hslash] at hbuf
        rw [hx]
        refine round fuel p s _ (by omega) (cstr_of_drop hs hbuf) ?_
        exact done _ _ (by omega) (by omega)

structure MountCall where
  path : Bytes
  lroot : Option ℕ
  nulFree : 0 ∉ path

variable {m : MountCall} {ms : List MountCall}

/-- Where the call mounts its node; relative paths and the root directory are refused. -/
def MountCall.target (m : MountCall) : Option (List Bytes) :=
  if m.path.head? ≠ some slash ∨ m.path.length = 1 then none else some (components m.path.tail)

theorem refused_of_target {α : Type} (h : m.target = none) (a b : α) :
    (if m.path.head? ≠ some slash then a else if m.path.length = 1 then a else b) = a := by
  rw [MountCall.target] at h
  split_ifs at h with hguard
  rcases hguard with hhead | hone
  · rw [if_pos hhead]
  · rw [if_pos hone, ite_self]

theorem target_eq_some (h : m.target = some cs) :
    ∃ s, m.path = slash :: s ∧ s ≠ [] ∧ 0 ∉ s ∧ cs = components s := by
  rw [MountCall.target] at h
  split_ifs at h with hguard
  obtain ⟨hhead, hone⟩ := not_or.mp hguard
  obtain ⟨s, hs⟩ := List.head?_eq_some_iff.mp (not_not.mp hhead)
  refine ⟨s, hs, ?_, fun h0 => m.nulFree (hs ▸ List.mem_cons_of_mem _ h0), ?_⟩
  · rintro rfl
    exact hone (by rw [hs]; rfl)
  · rw [← Option.some.inj h, hs, List.tail_cons]

theorem mountLoop_eq (lroot : Option ℕ) (t : TreeNode) (hs : 0 ∉ s)
    (hbuf : buf.drop p = (splitPath s).1 ++ [0]) (hfuel : s.length < fuel) :
    mountLoop buf (p + s.length) lroot fuel p t = mountAt lroot t (components s) := by
  refine components_induction
    (fun fuel q xs => ∀ t, mountLoop buf (p + s.length) lroot fuel q t = mountAt lroot t xs)
    (fun fuel q hq hpos t => ?_) (fun fuel q x xs hq hx hnext t => ?_) hs hbuf rfl hfuel t
  · obtain ⟨fuel, rfl⟩ := Nat.exists_eq_succ_of_ne_zero (Nat.pos_iff_ne_zero.mp hpos)
    rw [mountLoop, if_pos hq, mountAt]
  · exact mountLoop_round lroot t hq hx hnext

theorem vfsMount_eq (t : TreeNode) (m : MountCall) :
    vfsMount t m.path m.lroot =
      match m.target with
      | none => some t
      | some cs => mountAt m.lroot t cs := by
  cases htarget : m.target with
  | none => exact refused_of_target htarget _ _
  | some cs =>
    obtain ⟨s, hs, hne, hs0, rfl⟩ := target_eq_some htarget
    have hlen : (slash :: s).length = 1 + s.length := by rw [List.length_cons, Nat.add_comm]
    have hpos := List.length_pos_iff.mpr hne
    rw [vfsMount, hs, if_neg (by simp), if_neg (by omega), hlen, splitPath_slash]
    exact mountLoop_eq m.lroot t hs0 (by simp) (by omega)

def mountAll (vfsRoot : ℕ) (ms : List MountCall) : Option TreeNode :=
  ms.foldlM (fun t m => vfsMount t m.path m.lroot) (vfsInit vfsRoot)

def mounted (vfsRoot : ℕ) (ms : List MountCall) : List Bytes → Option ℕ :=
  ms.foldl (fun T m ds => if m.target = some ds then m.lroot else T ds)
    (fun ds => if ds = [] then some vfsRoot else none)

def known (ms : List MountCall) (ds : List Bytes) : Bool :=
  ds.isEmpty || ms.any fun m =>
    match m.target with
    | none => false
    | some cs => ds.isPrefixOf cs

structure Represents (t : TreeNode) (T : List Bytes → Option ℕ) (K : List Bytes → Bool) : Prop where
  file : ∀ ds, fileAt t ds = T ds
  node : ∀ ds, (walk TreeNode.child t ds).isSome = K ds

theorem represents_init (vfsRoot : ℕ) :
    Represents (vfsInit vfsRoot) (mounted vfsRoot []) (known []) := by
  refine ⟨fun ds => ?_, fun ds => ?_⟩ <;> cases ds <;> rfl

theorem mounted_snoc (vfsRoot : ℕ) (ms : List MountCall) (m : MountCall) (ds : List Bytes) :
    mounted vfsRoot (ms ++ [m]) ds =
      if m.target = some ds then m.lroot else mounted vfsRoot ms ds := by
  simp [mounted]

theorem known_snoc (ms : List MountCall) (m : MountCall) (ds : List Bytes) :
    known (ms ++ [m]) ds = true ↔
      known ms ds = true ∨ ∃ cs, m.target = some cs ∧ ds <+: cs := by
  cases h : m.target <;> simp [known, h, or_assoc]

theorem Represents.mount (ht : Represents t (mounted vfsRoot ms) (known ms))
    (h : vfsMount t m.path m.lroot = some t') :
    Represents t' (mounted vfsRoot (ms ++ [m])) (known (ms ++ [m])) := by
  rw [vfsMount_eq] at h
  refine ⟨fun ds => ?_, fun ds => Bool.eq_iff_iff.mpr ?_⟩
  · rw [mounted_snoc]
    cases hm : m.target with
    | none =>
      simp only [hm, Option.some.injEq] at h
      simpa [← h] using ht.file ds
    | some cs =>
      simp only [hm] at h
      simp only [fileAt_mountAt h, ht.file ds, Option.some.injEq, eq_comm]
  · rw [known_snoc, ← ht.node]
    cases hm : m.target with
    | none =>
      simp only [hm, Option.some.injEq] at h
      simp [← h]
    | some cs =>
      simp only [hm] at h
      simp [walk_mountAt h]

theorem mountAll_snoc (h : mountAll vfsRoot (ms ++ [m]) = some t) :
    ∃ t₀, mountAll vfsRoot ms = some t₀ ∧ vfsMount t₀ m.path m.lroot = some t := by
  rw [mountAll, List.foldlM_append] at h
  obtain ⟨t₀, h₀, hstep⟩ := Option.bind_eq_some_iff.mp h
  exact ⟨t₀, h₀, by simpa only [List.foldlM_cons, List.foldlM_nil, bind_pure] using hstep⟩

theorem represents_mountAll
    (h : mountAll vfsRoot ms = some t) : Represents t (mounted vfsRoot ms) (known ms) := by
  induction ms using List.reverseRecOn generalizing t with
  | nil =>
    simp only [mountAll, List.foldlM_nil] at h
    cases h
    exact represents_init vfsRoot
  | append_singleton ms m ih =>
    obtain ⟨t₀, h₀, hstep⟩ := mountAll_snoc h
    exact (ih h₀).mount hstep

theorem components_ne_nil (hs : s ≠ []) : components s ≠ [] := by
  obtain ⟨x, u, h, -⟩ := components_eq hs
  simp [h]

theorem target_ne_root (m : MountCall) : m.target ≠ some [] := by
  intro h
  obtain ⟨s, -, hne, -, hnil⟩ := target_eq_some h
  exact components_ne_nil hne hnil.symm

theorem mounted_root (vfsRoot : ℕ) (ms : List MountCall) :
    mounted vfsRoot ms [] = some vfsRoot := by
  induction ms using List.reverseRecOn with
  | nil => rfl
  | append_singleton ms m ih => rw [mounted_snoc, if_neg (target_ne_root m), ih]

theorem mounted_of_call {ds : List Bytes} {n : ℕ}
    (hds : ds ≠ []) (h : mounted vfsRoot ms ds = some n) : ∃ m ∈ ms, m.lroot = some n := by
  induction ms using List.reverseRecOn with
  | nil => simp [mounted, hds] at h
  | append_singleton ms m ih =>
    rw [mounted_snoc] at h
    split_ifs at h
    · exact ⟨m, by simp, h⟩
    · obtain ⟨m', hm', hn⟩ := ih h
      exact ⟨m', List.mem_append_left _ hm', hn⟩

end Bingos.Vfs
