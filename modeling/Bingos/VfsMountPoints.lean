import Bingos.VfsLookup

set_option autoImplicit false

/-! Lookups of a path that is itself a mount point. The search has then used up
the copy of the path, and `vfs_lookup_internal` reads on behind it. -/
namespace Bingos.Vfs

open CStrings PathWalks

theorem splitOn_slash_induction (P : Bytes → List Bytes → Prop) (nil : P [] [[]])
    (sep : ∀ s cs, P s cs → P (slash :: s) ([] :: cs))
    (byte : ∀ c s x cs, c ≠ slash → P s (x :: cs) → P (c :: s) ((c :: x) :: cs)) (s : Bytes) :
    P s (s.splitOn slash) := by
  induction s with
  | nil => exact nil
  | cons c s ih =>
    rw [List.splitOn_cons_eq_if_modifyHead]
    by_cases hc : c = slash
    · rw [hc, beq_self_eq_true, if_pos rfl]
      exact sep s _ ih
    · rw [if_neg (by simpa using hc)]
      obtain ⟨x, cs, hx⟩ := List.exists_cons_of_ne_nil (List.splitOn_ne_nil slash s)
      rw [hx] at ih ⊢
      exact byte c s x cs hc ih

theorem components_splitOn (s : Bytes) :
    components s = s.splitOn slash ∨ components s ++ [[]] = s.splitOn slash := by
  apply splitOn_slash_induction fun s cs => components s = cs ∨ components s ++ [[]] = cs
  · exact Or.inr rfl
  · intro s cs h
    rw [components, if_pos rfl]
    exact h.imp (congrArg _) (congrArg _)
  · intro c s x cs hc h
    rw [components, if_neg hc]
    rcases h with h | h
    · rw [h]
      exact Or.inl rfl
    · cases hs : components s with
      | nil =>
        rw [hs, List.nil_append] at h
        obtain ⟨rfl, rfl⟩ := List.cons.inj h
        exact Or.inl rfl
      | cons y ys =>
        rw [hs, List.cons_append] at h
        obtain ⟨rfl, rfl⟩ := List.cons.inj h
        exact Or.inr rfl

theorem absolute_splitOn (s : Bytes) : absolute (s.splitOn slash) = slash :: s := by
  apply splitOn_slash_induction fun s cs => absolute cs = slash :: s
  · rfl
  · intro s cs h
    rw [← h]
    rfl
  · intro c s x cs _ h
    have hx : x ++ absolute cs = s := (List.cons.inj h).2
    rw [← hx]
    rfl

theorem mem_splitOn (s : Bytes) : ∀ x ∈ s.splitOn slash, slash ∉ x ∧ x ⊆ s := by
  apply splitOn_slash_induction fun s cs => ∀ x ∈ cs, slash ∉ x ∧ x ⊆ s
  · simp
  · intro s cs h x hx
    rcases List.mem_cons.mp hx with rfl | hx
    · simp
    · exact ⟨(h x hx).1, List.subset_cons_of_subset _ (h x hx).2⟩
  · intro c s y cs hc h x hx
    rcases List.mem_cons.mp hx with rfl | hx
    · obtain ⟨hslash, hsub⟩ := h y List.mem_cons_self
      exact ⟨by simpa [Ne.symm hc] using hslash, List.cons_subset_cons c hsub⟩
    · have hmem := h x (List.mem_cons_of_mem _ hx)
      exact ⟨hmem.1, List.subset_cons_of_subset _ hmem.2⟩

section EndOfPath

variable {vfsRoot : ℕ} {ms : List MountCall} {t : TreeNode} {cs : List Bytes}

theorem mountedDepth_snoc {T : List Bytes → Option ℕ} {c : Bytes} (hcs : (T cs).isSome)
    (hc : T (cs ++ [c]) = none) :
    mountedDepth T (cs ++ [c]) (cs ++ [c]).length = cs.length := by
  have hlast : ¬ (T ((cs ++ [c]).take (cs.length + 1))).isSome = true := by
    rw [List.take_of_length_le (by simp), hc]
    simp
  rw [mountedDepth, List.length_append, List.length_singleton, Nat.findGreatest_succ,
    if_neg hlast]
  apply Nat.findGreatest_eq
  rw [List.take_left]
  exact hcs

theorem depths_whole (hrun : mountAll vfsRoot ms = some t) {m : ℕ}
    (hm : mounted vfsRoot ms cs = some m) :
    mountedDepth (mounted vfsRoot ms) cs cs.length = cs.length ∧
      knownDepth (known ms) cs = cs.length := by
  have hmounted : mountedDepth (mounted vfsRoot ms) cs cs.length = cs.length := by
    apply Nat.findGreatest_eq
    rw [List.take_length, hm]
    rfl
  have hle := mountedDepth_known (represents_mountAll hrun).charts cs (by rw [mounted_root]; rfl)
  have hknown : knownDepth (known ms) cs ≤ cs.length := Nat.findGreatest_le _
  exact ⟨hmounted, by omega⟩

theorem lookupInternal_end (fs : FileSystem) (beyond : Bytes) (m : ℕ) :
    vfsLookupInternal fs vfsRoot t (0 :: (encode cs ++ beyond)) m (offset cs cs.length) 0 =
      if beyond.headD 0 = 0 then some m else vfsFinddir fs vfsRoot t m (cstr beyond 0) := by
  have hdrop : (0 :: (encode cs ++ beyond)).drop (offset cs cs.length) = beyond := by
    rw [drop_offset, List.drop_length, encode_nil, List.nil_append]
  have hbyte : (0 :: (encode cs ++ beyond)).getD (offset cs cs.length) 0 = beyond.headD 0 := by
    rw [List.getD_eq_getElem?_getD, ← List.head?_drop, hdrop, List.headD_eq_head?_getD]
  rw [vfsLookupInternal, hbyte, if_pos rfl, cstr, hdrop]
  rfl

theorem lookupInternal_final_slash (fs : FileSystem) (beyond : Bytes) (m depth : ℕ) :
    vfsLookupInternal fs vfsRoot t (0 :: (encode (cs ++ [[]]) ++ beyond)) m
      (offset (cs ++ [[]]) cs.length) depth = some m := by
  have hdrop : (0 :: (encode (cs ++ [[]]) ++ beyond)).drop (offset (cs ++ [[]]) cs.length) =
      0 :: beyond := by
    rw [drop_offset, List.drop_left]
    rfl
  have hbyte : (0 :: (encode (cs ++ [[]]) ++ beyond)).getD (offset (cs ++ [[]]) cs.length) 0 = 0 := by
    rw [List.getD_eq_getElem?_getD, ← List.head?_drop, hdrop]
    rfl
  rw [vfsLookupInternal, if_pos hbyte]

end EndOfPath

/-- The lookup of a mount point, at every path that `vfs_mount` reads as this mount point. It
returns the node mounted there for the root, for a path whose final slash leads to no other
mount, and where the byte behind the copy ends the string or the string found there leads back
to the node. -/
theorem mount_point_lookup_iff (vfsRoot : ℕ) (ms : List MountCall) (t : TreeNode)
    (hrun : mountAll vfsRoot ms = some t) (s : Bytes) (hs : 0 ∉ s) (n : ℕ)
    (hn : mounted vfsRoot ms (components s) = some n) (fs : FileSystem) (beyond : Bytes) :
    vfsLookup fs vfsRoot t (slash :: s) beyond = some n ↔
      s = [] ∨ ∀ m, mounted vfsRoot ms (s.splitOn slash) = some m →
        if beyond.headD 0 = 0 then m = n
        else vfsFinddir fs vfsRoot t m (cstr beyond 0) = some n := by
  by_cases hempty : s = []
  · subst hempty
    rw [components, mounted_root] at hn
    exact iff_of_true (by rw [← hn]; rfl) (Or.inl rfl)
  have hnul : ∀ c ∈ s.splitOn slash, 0 ∉ c := fun c hc h0 => hs ((mem_splitOn s c hc).2 h0)
  have hslash : ∀ c ∈ s.splitOn slash, slash ∉ c := fun c hc => (mem_splitOn s c hc).1
  have hpath := absolute_splitOn s
  have hone : (absolute (s.splitOn slash)).length ≠ 1 := by
    rw [hpath]
    simpa using hempty
  have hlookup := vfsLookup_absolute hrun hnul hslash (by rw [hpath]; rfl) hone fs beyond
  rw [← hpath, hlookup, or_iff_right hempty]
  cases hm : mounted vfsRoot ms (s.splitOn slash) with
  | some m =>
    obtain ⟨hdepth, hknown⟩ := depths_whole hrun hm
    rw [hdepth, hknown, List.take_length, hm, Option.getD_some, Nat.sub_self, lookupInternal_end]
    simp only [Option.some.injEq, forall_eq']
    split_ifs with hbyte
    · exact Option.some_inj
    · exact Iff.rfl
  | none =>
    -- The search stops at the empty component behind the final slash.
    rcases components_splitOn s with hsame | hfinal
    · rw [← hsame, hn] at hm
      cases hm
    · rw [← hfinal] at hm ⊢
      rw [mountedDepth_snoc (by rw [hn]; rfl) hm, List.take_left, hn, Option.getD_some,
        lookupInternal_final_slash]
      exact iff_of_true rfl fun m hm' => by cases hm'

theorem mount_point_lookup_iff_bin : ∃ t, mountAll 1 [mountBin] = some t ∧
    vfsLookup nestedFiles 1 t [slash, 98, 105, 110] [] = some 2 := by
  refine ⟨_, rfl, (mount_point_lookup_iff 1 [mountBin] _ rfl [98, 105, 110] (by decide) 2
    (by decide) nestedFiles []).mpr (Or.inr ?_)⟩
  intro m hm
  have hbin : mounted 1 [mountBin] ([98, 105, 110].splitOn slash) = some 2 := by decide
  rw [hbin] at hm
  exact (Option.some.inj hm).symm

/-- `/bin` is mounted, but behind the copy of the path the heap holds the end of
an earlier one. -/
theorem stale_bytes_hide_mount_point : ∃ t, mountAll 1 [mountBin] = some t ∧
    mounted 1 [mountBin] (components [98, 105, 110]) = some 2 ∧
    vfsLookup nestedFiles 1 t [slash, 98, 105, 110] [] = some 2 ∧
    vfsLookup nestedFiles 1 t [slash, 98, 105, 110] [115, 104, 0] = none := by
  refine ⟨_, rfl, ?_, ?_, ?_⟩ <;> decide

end Bingos.Vfs
