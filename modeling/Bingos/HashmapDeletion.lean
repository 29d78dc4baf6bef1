import Bingos.HashmapRefinement

set_option autoImplicit false

/-! `hashmap_delete` on maps that earlier calls of it and of `hashmap_set` left. Behind a first entry
with another key, its loop reads the next entry before it tests whether there is one. -/
namespace Bingos.HashmapDeletion
open CStrings PointerChains StepRuns StringMaps HashmapMemory

/-- A freed block is not live, and may hold anything. -/
def free (t : Table) (x : ℕ) (junk : Entry) : Table :=
  { t with entry := Function.update t.entry x junk, live := t.live.erase x }

/-- The loop of `hashmap_delete`, which reads the entry at `x` first of all. -/
def deleteLoop (junk : Entry) (key : Bytes) (t : Table) : ℕ → ℕ → ℕ → Option (ℕ × Table)
  | 0, _, _ => none
  | fuel + 1, p, x =>
    if x = 0 then none
    else if hashmapStringCompare (t.entry x).key key ≠ 0 then
      some ((t.entry x).value, free (t.setNext p (t.entry x).next) x junk)
    else if (t.entry x).next ≠ 0 then deleteLoop junk key t fuel x (t.entry x).next
    else some (0, t)

/-- `none` is an access outside the array or through NULL, or the end of the fuel. -/
def hashmapDelete (junk : Entry) (fuel : ℕ) (t : Table) (key : Bytes) : Option (ℕ × Table) :=
  let hash := hashmapStringHash (cstr key 0) % t.size % 2 ^ 30
  let x := t.entries hash
  if t.capacity ≤ hash then none
  else if x = 0 then some (0, t)
  else if hashmapStringCompare (t.entry x).key key ≠ 0 then
    some ((t.entry x).value, free (t.setSlot hash (t.entry x).next) x junk)
  else deleteLoop junk key t fuel x (t.entry x).next

variable {junk : Entry} {t' : Table} {fuel' i size : ℕ} {r : ℕ × Table}
  {chain : ℕ → List ℕ}

section Loop
variable {t : Table} {key : Bytes} {x fuel : ℕ} {ns pre post : List ℕ}

theorem deleteLoop_found {y : ℕ} (h : Chain 0 t.next x (pre ++ y :: post)) (hkey : 0 ∈ key)
    (hkeys : ∀ z ∈ pre ++ y :: post, 0 ∈ (t.entry z).key)
    (hpre : ∀ z ∈ pre, cstr (t.entry z).key 0 ≠ cstr key 0)
    (hy : cstr (t.entry y).key 0 = cstr key 0) (hfuel : pre.length < fuel) (junk : Entry) (p : ℕ) :
    deleteLoop junk key t fuel p x =
      some ((t.entry y).value, free (t.setNext (pre.getLast?.getD p) (t.next y)) y junk) := by
  obtain ⟨fuel', hrun⟩ := h.skip (f := deleteLoop junk key t) (fun z hz fuel p hn => by
    have hcmp := hashmapStringCompare_iff (hkeys z (List.mem_append_left _ hz)) hkey
    rw [deleteLoop, if_neg (h.ne_null z (List.mem_append_left _ hz)),
      if_neg (mt hcmp.mp (hpre z hz))]
    exact if_pos hn) hfuel p
  have hcmp := hashmapStringCompare_iff (hkeys y (by simp)) hkey
  rw [hrun, deleteLoop, if_neg h.after.1, if_pos (hcmp.mpr hy)]
  rfl

theorem deleteLoop_missing (h : Chain 0 t.next x ns) (hx : x ≠ 0) (hkey : 0 ∈ key)
    (hkeys : ∀ z ∈ ns, 0 ∈ (t.entry z).key) (hall : ∀ z ∈ ns, cstr (t.entry z).key 0 ≠ cstr key 0)
    (hfuel : ns.length ≤ fuel) (junk : Entry) (p : ℕ) :
    deleteLoop junk key t fuel p x = some (0, t) := by
  induction ns generalizing x fuel p with
  | nil => exact absurd h hx
  | cons y ns ih =>
    obtain ⟨fuel, rfl⟩ := Nat.exists_eq_succ_of_ne_zero (Nat.ne_zero_of_lt hfuel)
    obtain ⟨rfl, _, hrest⟩ := h
    have hcmp := hashmapStringCompare_iff (hkeys x (by simp)) hkey
    rw [deleteLoop, if_neg hx, if_neg (mt hcmp.mp (hall x (by simp)))]
    by_cases hn : (t.entry x).next = 0
    · rw [if_neg (not_not.mpr hn)]
    · rw [if_pos hn]
      exact ih hrest hn (fun w hw => hkeys w (List.mem_cons_of_mem _ hw))
        (fun w hw => hall w (List.mem_cons_of_mem _ hw)) (Nat.le_of_succ_le_succ hfuel) x

theorem deleteLoop_null (junk : Entry) (key : Bytes) (t : Table) (fuel p : ℕ) :
    deleteLoop junk key t fuel p 0 = none := by
  cases fuel with
  | zero => rfl
  | succ fuel => rw [deleteLoop, if_pos rfl]

theorem deleteLoop_mono {p : ℕ} (hle : fuel ≤ fuel')
    (h : deleteLoop junk key t fuel p x = some r) : deleteLoop junk key t fuel' p x = some r := by
  induction fuel generalizing fuel' p x with
  | zero => cases h
  | succ fuel ih =>
    obtain ⟨fuel', rfl⟩ := Nat.exists_eq_succ_of_ne_zero (Nat.ne_zero_of_lt hle)
    rw [deleteLoop] at h ⊢
    split_ifs at h ⊢
    · exact h
    · exact ih (Nat.le_of_succ_le_succ hle) h
    · exact h

theorem hashmapDelete_mono (hle : fuel ≤ fuel')
    (h : hashmapDelete junk fuel t key = some r) : hashmapDelete junk fuel' t key = some r := by
  unfold hashmapDelete at h ⊢
  dsimp only at h ⊢
  split_ifs at h ⊢
  · exact h
  · exact h
  · exact deleteLoop_mono hle h

end Loop

variable {key : Bytes} {map : Hashmap} {t : Table}

/-! Chains of pairs with a key taken out. -/
section Chains

def chainDelete (key : Bytes) (chain : StringMaps.Chain) : StringMaps.Chain :=
  chain.filter fun e => e.1 ≠ key

theorem chainFind_chainDelete (key k : Bytes) (chain : StringMaps.Chain) :
    chainFind k (chainDelete key chain) = if k = key then none else chainFind k chain := by
  induction chain with
  | nil => simp [chainDelete, chainFind]
  | cons e chain ih =>
    rw [chainDelete] at ih ⊢
    by_cases he : e.1 = key
    · rw [List.filter_cons_of_neg (by simpa using he), ih, chainFind, he]
      split_ifs with hk hk'
      · rfl
      · exact absurd hk'.symm hk
      · rfl
    · rw [List.filter_cons_of_pos (by simpa using he), chainFind, chainFind, ih]
      by_cases hk : e.1 = k
      · rw [if_pos hk, if_pos hk, if_neg (by rw [← hk]; exact he)]
      · rw [if_neg hk, if_neg hk]

def deleteKey (map : Hashmap) (key : Bytes) : Hashmap :=
  { map with
    entries := Function.update map.entries (bucket map key)
      (chainDelete key (map.entries (bucket map key))) }

theorem find_deleteKey (map : Hashmap) (key k : Bytes) :
    find (deleteKey map key) k = if k = key then none else find map k := by
  rw [find, deleteKey]
  change chainFind k (Function.update map.entries (bucket map key) _ (bucket map k)) = _
  by_cases hb : bucket map k = bucket map key
  · rw [hb, Function.update_self, chainFind_chainDelete, find, hb]
  · have hk : k ≠ key := fun h => hb (by rw [h])
    rw [Function.update_of_ne hb, if_neg hk]
    rfl

theorem placed_deleteKey (h : Placed map) (key : Bytes) :
    Placed (deleteKey map key) := by
  have hsub : ∀ i, ((deleteKey map key).entries i).Sublist (map.entries i) := by
    intro i
    change (Function.update map.entries (bucket map key) _ i).Sublist _
    rw [Function.update_apply]
    split_ifs with hi
    · rw [hi]
      exact List.filter_sublist
    · exact List.Sublist.refl _
  refine ⟨fun i e he => h.bucket i e ((hsub i).subset he), fun i => ?_⟩
  exact (h.distinct i).sublist ((hsub i).map Prod.fst)

end Chains

section Memory
variable {b y : ℕ} {pre post : List ℕ}

def unlink (t : Table) (b : ℕ) (pre : List ℕ) (y : ℕ) : Table :=
  match pre.getLast? with
  | none => t.setSlot b (t.next y)
  | some p => t.setNext p (t.next y)

theorem unlink_entry (t : Table) (b : ℕ) (pre : List ℕ) (y x : ℕ) : (unlink t b pre y).entry x =
    if pre.getLast? = some x then { t.entry x with next := t.next y } else t.entry x := by
  rw [unlink]
  cases hlast : pre.getLast? with
  | none => rfl
  | some p =>
    change (t.setNext p (t.next y)).entry x = _
    rw [setNext_entry]
    by_cases hx : x = p
    · rw [if_pos hx, if_pos (by rw [hx]), hx]
    · rw [if_neg hx, if_neg (fun h => hx (Option.some.inj h).symm)]

theorem unlink_entries (t : Table) (b : ℕ) (pre : List ℕ) (y i : ℕ) :
    (unlink t b pre y).entries i = if i = b ∧ pre = [] then t.next y else t.entries i := by
  rw [unlink]
  cases hlast : pre.getLast? with
  | none =>
    change Function.update t.entries b (t.next y) i = _
    rw [Function.update_apply, List.getLast?_eq_none_iff.mp hlast]
    simp only [and_true]
  | some p =>
    have hne : pre ≠ [] := by
      rintro rfl
      cases hlast
    rw [if_neg fun h => hne h.2]
    rfl

theorem unlink_same (t : Table) (b : ℕ) (pre : List ℕ) (y : ℕ) :
    (unlink t b pre y).size = t.size ∧ (unlink t b pre y).capacity = t.capacity ∧
      (unlink t b pre y).live = t.live := by
  rw [unlink]
  cases pre.getLast? <;> exact ⟨rfl, rfl, rfl⟩

theorem holds_remove (h : Holds t map chain) (hb : b < t.capacity)
    (hchain : chain b = pre ++ y :: post) (junk : Entry) :
    Holds (free (unlink t b pre y) y junk)
      { map with entries := Function.update map.entries b ((pre ++ post).map t.pair) }
      (Function.update chain b (pre ++ post)) := by
  obtain ⟨hsize, hcap, hlive⟩ := unlink_same t b pre y
  have hlinked := h.linked b hb
  rw [hchain] at hlinked
  have hsub : ∀ x ∈ pre ++ post, x ∈ chain b := by
    intro x hx
    rw [hchain]
    simp only [List.mem_append, List.mem_cons] at hx ⊢
    tauto
  have hne : ∀ x ∈ pre ++ post, x ≠ y := by
    have hnodup := hlinked.nodup
    rw [List.nodup_middle, List.nodup_cons] at hnodup
    rintro x hx rfl
    exact hnodup.1 hx
  have hentry : ∀ x ≠ y, (free (unlink t b pre y) y junk).entry x = (unlink t b pre y).entry x :=
    fun x hx => Function.update_of_ne hx ..
  have hkept : ∀ x ≠ y, ((free (unlink t b pre y) y junk).entry x).key = (t.entry x).key ∧
      ((free (unlink t b pre y) y junk).entry x).value = (t.entry x).value := by
    intro x hx
    rw [hentry x hx, unlink_entry]
    split_ifs <;> exact ⟨rfl, rfl⟩
  obtain ⟨n, hn⟩ := t.live.exists_notMem
  refine h.update _ hb hn hsize hcap (fun i hi => ?_) (fun x hx _ => ?_) ?_ ?_ (fun x hx => ?_)
    (fun x hx => Or.inl (hsub x hx)) (fun x hx => ?_)
  · exact (unlink_entries t b pre y i).trans (if_neg fun hboth => hi hboth.1)
  · have hxy : x ≠ y := by
      rintro rfl
      exact hx (by rw [hchain]; simp)
    have hxl : pre.getLast? ≠ some x := fun hlast =>
      hx (hsub x (List.mem_append_left _ (List.mem_of_getLast? hlast)))
    rw [hentry x hxy, unlink_entry, if_neg hxl]
  · have hnext : ∀ x ∈ pre ++ post, (free (unlink t b pre y) y junk).next x =
        if pre.getLast? = some x then t.next y else t.next x := by
      intro x hx
      rw [Table.next, hentry x (hne x hx), unlink_entry]
      split_ifs <;> rfl
    have hlast : ∀ z, pre.getLast? = some z →
        (free (unlink t b pre y) y junk).next z = t.next y := by
      intro z hz
      rw [hnext z (List.mem_append_left _ (List.mem_of_getLast? hz)), if_pos hz]
    have hremoved := hlinked.remove hlast fun z hz hother => by rw [hnext z hz, if_neg hother]
    have hstart : (free (unlink t b pre y) y junk).entries b =
        if pre = [] then t.next y else t.entries b := by
      change (unlink t b pre y).entries b = _
      rw [unlink_entries]
      simp only [true_and]
    rw [hstart]
    exact hremoved
  · refine List.map_congr_left fun x hx => ?_
    obtain ⟨hk, hv⟩ := hkept x (hne x hx)
    rw [Table.pair, Table.pair, hk, hv]
  · rw [(hkept x (hne x hx)).1]
    exact h.keys b hb x (hsub x hx)
  · change x ∈ (unlink t b pre y).live.erase y
    rw [hlive, Finset.mem_erase]
    rcases hx with hx | hx
    · refine ⟨?_, hx.1⟩
      rintro rfl
      exact hx.2 (by rw [hchain]; simp)
    · exact ⟨hne x hx, h.live b hb x (hsub x hx)⟩

theorem find_eq_none_iff (h : Holds t map chain) (hb : bucket map key < t.capacity) :
    find map key = none ↔ ∀ x ∈ chain (bucket map key), cstr (t.entry x).key 0 ≠ key := by
  rw [find, chainFind_eq_none_iff, ← h.pairs _ hb, List.forall_mem_map]
  rfl

theorem filter_eq_append (h : Holds t map chain) (hp : Placed map) (hb : b < t.capacity)
    (hchain : chain b = pre ++ y :: post) :
    (chain b).filter (fun x => cstr (t.entry x).key 0 ≠ cstr (t.entry y).key 0) = pre ++ post := by
  have hdistinct := hp.distinct b
  rw [← h.pairs b hb, List.map_map, hchain] at hdistinct
  change ((pre ++ y :: post).map fun x => cstr (t.entry x).key 0).Nodup at hdistinct
  rw [List.map_append, List.map_cons, List.nodup_middle, List.nodup_cons, ← List.map_append]
    at hdistinct
  have hother : ∀ x ∈ pre ++ post, cstr (t.entry x).key 0 ≠ cstr (t.entry y).key 0 :=
    fun x hx heq => hdistinct.1 (List.mem_map.mpr ⟨x, hx, heq⟩)
  rw [hchain, List.filter_append, List.filter_cons_of_neg (by simp), ← List.filter_append,
    List.filter_eq_self.mpr fun x hx => by simpa using hother x hx]

def keeping (t : Table) (key : Bytes) (ns : List ℕ) : List ℕ :=
  ns.filter fun x => cstr (t.entry x).key 0 ≠ key

theorem map_keeping (t : Table) (key : Bytes) (ns : List ℕ) :
    (keeping t key ns).map t.pair = chainDelete key (ns.map t.pair) := by
  rw [keeping, chainDelete, List.filter_map]
  rfl

section Unfold
variable (hsize : t.size = map.size) (junk : Entry) (fuel : ℕ)
include hsize

theorem hashmapDelete_outside (hb : t.capacity ≤ bucket map (cstr key 0)) :
    hashmapDelete junk fuel t key = none := by
  unfold hashmapDelete
  rw [hsize]
  exact if_pos hb

variable (hb : bucket map (cstr key 0) < t.capacity)
include hb

theorem hashmapDelete_empty (hx : t.entries (bucket map (cstr key 0)) = 0) :
    hashmapDelete junk fuel t key = some (0, t) := by
  unfold hashmapDelete
  rw [hsize]
  exact (if_neg (Nat.not_le.mpr hb)).trans (if_pos hx)

theorem hashmapDelete_first {x : ℕ} (hx : t.entries (bucket map (cstr key 0)) = x)
    (hx0 : x ≠ 0) : hashmapDelete junk fuel t key =
      if hashmapStringCompare (t.entry x).key key ≠ 0 then
        some ((t.entry x).value, free (t.setSlot (bucket map (cstr key 0)) (t.next x)) x junk)
      else deleteLoop junk key t fuel x (t.next x) := by
  subst hx
  unfold hashmapDelete
  rw [hsize]
  exact (if_neg (Nat.not_le.mpr hb)).trans (if_neg hx0)

end Unfold

section Calls
variable {fuel : ℕ} (h : Holds t map chain) (hkey : 0 ∈ key)
  (hb : bucket map (cstr key 0) < t.capacity) (hfuel : t.live.card ≤ fuel)
include h hkey hb hfuel

theorem hashmapDelete_absent
    (hall : ∀ x ∈ chain (bucket map (cstr key 0)), cstr (t.entry x).key 0 ≠ cstr key 0)
    (hsingle : ∀ x, chain (bucket map (cstr key 0)) ≠ [x]) (junk : Entry) :
    hashmapDelete junk fuel t key = some (0, t) := by
  have hlinked := h.linked _ hb
  have hkeys := h.keys _ hb
  have hlen := (h.length_le hb).trans hfuel
  cases hc : chain (bucket map (cstr key 0)) with
  | nil =>
    rw [hc] at hlinked
    exact hashmapDelete_empty h.size junk fuel hb hlinked
  | cons x rest =>
    rw [hc] at hlinked hkeys hall hlen
    obtain ⟨hx, hx0, hrest⟩ := hlinked
    have hcmp := hashmapStringCompare_iff (hkeys x List.mem_cons_self) hkey
    have hnext : t.next x ≠ 0 := by
      intro hz
      rw [(Chain.eq_null_iff hrest).mp hz] at hc
      exact hsingle x hc
    rw [hashmapDelete_first h.size junk fuel hb hx hx0,
      if_neg (mt hcmp.mp (hall x List.mem_cons_self))]
    exact deleteLoop_missing hrest hnext hkey (fun z hz => hkeys z (List.mem_cons_of_mem _ hz))
      (fun z hz => hall z (List.mem_cons_of_mem _ hz)) (Nat.le_of_succ_le hlen) junk x

theorem hashmapDelete_present (hsplit : chain (bucket map (cstr key 0)) = pre ++ y :: post)
    (hpre : ∀ x ∈ pre, cstr (t.entry x).key 0 ≠ cstr key 0)
    (hy : cstr (t.entry y).key 0 = cstr key 0) (junk : Entry) :
    hashmapDelete junk fuel t key =
      some ((t.entry y).value, free (unlink t (bucket map (cstr key 0)) pre y) y junk) := by
  have hlinked := h.linked _ hb
  have hkeys := h.keys _ hb
  have hlen := (h.length_le hb).trans hfuel
  rw [hsplit] at hlinked hkeys hlen
  cases pre with
  | nil =>
    obtain ⟨hx, hx0, _⟩ := hlinked
    have hcmp := hashmapStringCompare_iff (hkeys y List.mem_cons_self) hkey
    rw [hashmapDelete_first h.size junk fuel hb hx hx0, if_pos (hcmp.mpr hy)]
    rfl
  | cons x pre =>
    obtain ⟨hx, hx0, hrest⟩ := hlinked
    have hcmp := hashmapStringCompare_iff (hkeys x List.mem_cons_self) hkey
    rw [hashmapDelete_first h.size junk fuel hb hx hx0,
      if_neg (mt hcmp.mp (hpre x List.mem_cons_self))]
    refine (deleteLoop_found hrest hkey (fun z hz => hkeys z (List.mem_cons_of_mem _ hz))
      (fun z hz => hpre z (List.mem_cons_of_mem _ hz)) hy ?_ junk x).trans ?_
    · simp only [List.length_append, List.length_cons] at hlen
      omega
    · rw [unlink, List.getLast?_cons]

end Calls

theorem find_eq_some (h : Holds t map chain) (hb : bucket map key < t.capacity)
    (hsplit : chain (bucket map key) = pre ++ y :: post)
    (hpre : ∀ x ∈ pre, cstr (t.entry x).key 0 ≠ key) (hy : cstr (t.entry y).key 0 = key) :
    find map key = some (t.entry y).value := by
  rw [find, ← h.pairs _ hb, hsplit]
  clear hsplit
  induction pre with
  | nil => exact if_pos hy
  | cons x pre ih =>
    refine (if_neg (hpre x List.mem_cons_self)).trans (ih fun z hz => ?_)
    exact hpre z (List.mem_cons_of_mem _ hz)

theorem holds_keeping (h : Holds t map chain) (hb : bucket map key < t.capacity) {ns : List ℕ}
    (hkeep : keeping t key (chain (bucket map key)) = ns)
    (h' : Holds t' { map with
      entries := Function.update map.entries (bucket map key) (ns.map t.pair) }
      (Function.update chain (bucket map key) ns)) :
    Holds t' (deleteKey map key)
      (Function.update chain (bucket map key) (keeping t key (chain (bucket map key)))) := by
  subst hkeep
  rwa [map_keeping, h.pairs _ hb] at h'

theorem holds_hashmapDelete (h : Holds t map chain) (hp : Placed map) {fuel : ℕ}
    (hkey : 0 ∈ key) (hb : bucket map (cstr key 0) < t.capacity) (hfuel : t.live.card ≤ fuel)
    (hsingle : ∀ x, chain (bucket map (cstr key 0)) = [x] → cstr (t.entry x).key 0 = cstr key 0)
    (junk : Entry) :
    ∃ t', hashmapDelete junk fuel t key = some ((find map (cstr key 0)).getD 0, t') ∧
      t'.capacity = t.capacity ∧
      Holds t' (deleteKey map (cstr key 0)) (Function.update chain (bucket map (cstr key 0))
        (keeping t (cstr key 0) (chain (bucket map (cstr key 0))))) ∧
      (find map (cstr key 0) = none → t' = t) ∧
      ∀ v, find map (cstr key 0) = some v →
        ∃ y ∈ t.live, t.pair y = (cstr key 0, v) ∧ t'.live = t.live.erase y := by
  rcases find_entry t (cstr key 0) (chain (bucket map (cstr key 0))) with
    hall | ⟨pre, y, post, hsplit, hy, hpre⟩
  · have hnone : find map (cstr key 0) = none := (find_eq_none_iff h hb).mpr hall
    have hmore : ∀ x, chain (bucket map (cstr key 0)) ≠ [x] := fun x hx =>
      hall x (by rw [hx]; exact List.mem_singleton_self x) (hsingle x hx)
    have hkeep : keeping t (cstr key 0) (chain (bucket map (cstr key 0))) =
        chain (bucket map (cstr key 0)) :=
      List.filter_eq_self.mpr fun x hx => by simpa using hall x hx
    refine ⟨t, ?_, rfl, holds_keeping h hb hkeep ?_, fun _ => rfl, fun v hv => ?_⟩
    · rw [hnone]
      exact hashmapDelete_absent h hkey hb hfuel hall hmore junk
    · rw [h.pairs _ hb, Function.update_eq_self, Function.update_eq_self]
      exact h
    · rw [hnone] at hv
      cases hv
  · have hmem : y ∈ chain (bucket map (cstr key 0)) := by
      rw [hsplit]
      simp
    have hvalue := find_eq_some h hb hsplit hpre hy
    have hkeep : keeping t (cstr key 0) (chain (bucket map (cstr key 0))) = pre ++ post := by
      have hfilter := filter_eq_append h hp hb hsplit
      rwa [hy] at hfilter
    refine ⟨free (unlink t (bucket map (cstr key 0)) pre y) y junk, ?_,
      (unlink_same t _ pre y).2.1, holds_keeping h hb hkeep (holds_remove h hb hsplit junk),
      fun hnone => ?_, fun v hv => ⟨y, h.live _ hb y hmem, ?_, ?_⟩⟩
    · rw [hvalue]
      exact hashmapDelete_present h hkey hb hfuel hsplit hpre hy junk
    · rw [hvalue] at hnone
      cases hnone
    · rw [hvalue] at hv
      rw [Table.pair, hy, Option.some.inj hv]
    · change (unlink t _ pre y).live.erase y = _
      rw [(unlink_same t _ pre y).2.2]

end Memory

inductive Op where
  | set (key : Bytes) (value : ℕ)
  | delete (key : Bytes)

/-- Calls that return; a new entry has a block of its own, which may be one freed before. -/
inductive Step : Table → Op → Table → Prop where
  | set {t t' : Table} {key : Bytes} {n fuel value out : ℕ} (hkey : 0 ∈ key) (hn0 : n ≠ 0)
      (hn : n ∉ t.live) (h : HashmapMemory.hashmapSet n fuel t key value = some (out, t')) :
      Step t (.set key value) t'
  | delete {t t' : Table} {key : Bytes} {junk : Entry} {fuel out : ℕ} (hkey : 0 ∈ key)
      (h : hashmapDelete junk fuel t key = some (out, t')) : Step t (.delete key) t'

def recorded (ops : List Op) : Bytes → Option ℕ :=
  ops.foldl (fun f op =>
    match op with
    | .set key value => Function.update f (cstr key 0) (some value)
    | .delete key => Function.update f (cstr key 0) none) fun _ => none

theorem recorded_set (ops : List Op) (key k : Bytes) (value : ℕ) :
    recorded (ops ++ [.set key value]) k =
      if k = cstr key 0 then some value else recorded ops k := by
  rw [recorded, List.foldl_append, ← Function.update_apply]
  rfl

theorem recorded_delete (ops : List Op) (key k : Bytes) :
    recorded (ops ++ [.delete key]) k = if k = cstr key 0 then none else recorded ops k := by
  rw [recorded, List.foldl_append, ← Function.update_apply]
  rfl

/-- What every run keeps. The array may be too small for the buckets; calls beyond it do not
return. -/
def Kept (size : ℕ) (ops : List Op) (t : Table) : Prop :=
  ∃ map chain, Holds t map chain ∧ map.size = size ∧ t.capacity = 4 * size % 2 ^ 32 / 4 ∧
    Placed map ∧ ∀ k, find map k = recorded ops k

theorem kept_create (heap : ℕ → Entry) (size : ℕ) : Kept size [] (hashmapCreate heap size) :=
  ⟨StringMaps.hashmapCreate size, fun _ => [], ⟨rfl, fun _ _ => rfl, fun _ _ => rfl, by simp,
    by simp, by simp⟩, rfl, rfl, ⟨fun _ _ he => (by cases he), fun _ => List.nodup_nil⟩,
    fun _ => rfl⟩

section Calls
variable {fuel out : ℕ}

theorem bucket_lt_of_set {n value : ℕ} (hh : Holds t map chain)
    (h : HashmapMemory.hashmapSet n fuel t key value = some (out, t')) :
    bucket map (cstr key 0) < t.capacity := by
  by_contra hb
  rw [HashmapMemory.hashmapSet, hh.size] at h
  change (if t.capacity ≤ bucket map (cstr key 0) then none else _) = _ at h
  rw [if_pos (Nat.not_lt.mp hb)] at h
  cases h

theorem bucket_lt_of_delete (hh : Holds t map chain)
    (h : hashmapDelete junk fuel t key = some (out, t')) :
    bucket map (cstr key 0) < t.capacity := by
  by_contra hb
  rw [hashmapDelete_outside hh.size junk fuel (Nat.not_lt.mp hb)] at h
  cases h

theorem single_of_delete (hh : Holds t map chain) (hkey : 0 ∈ key)
    (h : hashmapDelete junk fuel t key = some (out, t')) (x : ℕ)
    (hx : chain (bucket map (cstr key 0)) = [x]) : cstr (t.entry x).key 0 = cstr key 0 := by
  have hb := bucket_lt_of_delete hh h
  have hlinked := hh.linked _ hb
  have hkeys := hh.keys _ hb
  rw [hx] at hlinked hkeys
  obtain ⟨hslot, hx0, hnull⟩ := hlinked
  by_contra hne
  have hcmp := hashmapStringCompare_iff (hkeys x List.mem_cons_self) hkey
  have hnext : t.next x = 0 := hnull
  rw [hashmapDelete_first hh.size junk fuel hb hslot hx0, if_neg (mt hcmp.mp hne), hnext,
    deleteLoop_null] at h
  cases h

end Calls

variable {ops : List Op}

theorem kept_step {op : Op} (h : Kept size ops t)
    (hs : Step t op t') : Kept size (ops ++ [op]) t' := by
  obtain ⟨map, chain, hh, hsize, hcap, hplaced, hfind⟩ := h
  cases hs with
  | @set _ key n fuel value _ hkey hn0 hn hcall =>
    have hb := bucket_lt_of_set hh hcall
    obtain ⟨chain', hcap', hh'⟩ := hh.of_hashmapSet hkey hb hn0 hn hcall
    refine ⟨_, _, hh', hsize, hcap'.trans hcap, hplaced.hashmapSet _ value, fun k => ?_⟩
    rw [find_hashmapSet, recorded_set, hfind]
  | @delete _ key junk fuel _ hkey hcall =>
    have hb := bucket_lt_of_delete hh hcall
    obtain ⟨t'', hcall', hcap', hh', -, -⟩ := holds_hashmapDelete hh hplaced hkey hb
      (Nat.le_max_right fuel t.live.card) (single_of_delete hh hkey hcall) junk
    have heq := (hashmapDelete_mono (Nat.le_max_left fuel t.live.card) hcall).symm.trans hcall'
    obtain ⟨_, rfl⟩ := Prod.mk.inj (Option.some.inj heq)
    refine ⟨_, _, hh', hsize, hcap'.trans hcap, placed_deleteKey hplaced _, fun k => ?_⟩
    rw [find_deleteKey, recorded_delete, hfind]

/-- A deletion returns the value of its key, takes out the entry with the key and no other, and
other keys keep their values. Without the key, nothing changes. -/
structure Deleted (before : Bytes → Option ℕ) (t : Table) (key : Bytes) (out : ℕ) (t' : Table) :
    Prop where
  value : out = (before (cstr key 0)).getD 0
  absent : before (cstr key 0) = none → t' = t
  present : ∀ v, before (cstr key 0) = some v →
    ∃ y ∈ t.live, t.pair y = (cstr key 0, v) ∧ t'.live = t.live.erase y
  chains : ∀ h < t.capacity, ∃ ns, Chain 0 t.next (t.entries h) ns ∧
    Chain 0 t'.next (t'.entries h) (keeping t (cstr key 0) ns) ∧
    ∀ x ∈ keeping t (cstr key 0) ns, t'.pair x = t.pair x
  gone : ∀ fuel, t.live.card ≤ fuel → HashmapMemory.hashmapGet fuel t' key = some 0
  others : ∀ k fuel, 0 ∈ k → cstr k 0 ≠ cstr key 0 → t.live.card ≤ fuel →
    HashmapMemory.hashmapGet fuel t' k = HashmapMemory.hashmapGet fuel t k

theorem hashmapGet_eq_find (map : Hashmap) (key : Bytes) :
    StringMaps.hashmapGet map key = (find map key).getD 0 :=
  chainGet_eq key _

theorem keeping_other (hh : Holds t map chain)
    (hp : Placed map) (hi : i < t.capacity) (hne : i ≠ bucket map key) :
    keeping t key (chain i) = chain i := by
  apply List.filter_eq_self.mpr
  intro x hx
  have hmem : t.pair x ∈ map.entries i := hh.pairs i hi ▸ List.mem_map_of_mem hx
  have hbucket := hp.bucket i _ hmem
  have hkey : cstr (t.entry x).key 0 ≠ key := by
    rintro rfl
    exact hne hbucket.symm
  simpa using hkey

theorem deleteKey_bucket (hh : Holds t map chain) (hp : Placed map)
    (hb : bucket map key < t.capacity) (hi : i < t.capacity) :
    Function.update chain (bucket map key) (keeping t key (chain (bucket map key))) i =
        keeping t key (chain i) ∧
      (deleteKey map key).entries i = (keeping t key (chain i)).map t.pair := by
  change _ ∧ Function.update map.entries (bucket map key) _ i = _
  rw [Function.update_apply, Function.update_apply]
  by_cases hib : i = bucket map key
  · rw [if_pos hib, if_pos hib, hib, map_keeping, hh.pairs _ hb]
    exact ⟨rfl, rfl⟩
  · rw [if_neg hib, if_neg hib, keeping_other hh hp hi hib, hh.pairs i hi]
    exact ⟨rfl, rfl⟩

theorem Kept.deleted (h : Kept size ops t)
    (hkey : 0 ∈ key) (hb : hashmapStringHash (cstr key 0) % size % 2 ^ 30 < t.capacity)
    (hsingle : t.entries (hashmapStringHash (cstr key 0) % size % 2 ^ 30) ≠ 0 →
      t.next (t.entries (hashmapStringHash (cstr key 0) % size % 2 ^ 30)) = 0 →
        cstr (t.entry (t.entries (hashmapStringHash (cstr key 0) % size % 2 ^ 30))).key 0 =
          cstr key 0)
    (junk : Entry) :
    ∃ out t', (∀ fuel, t.live.card ≤ fuel → hashmapDelete junk fuel t key = some (out, t')) ∧
      Deleted (recorded ops) t key out t' := by
  obtain ⟨map, chain, hh, rfl, -, hplaced, hfind⟩ := h
  obtain ⟨t', hcall, hcap', hh', habsent, hpresent⟩ := holds_hashmapDelete hh hplaced hkey hb le_rfl
    (fun x hx => by
      have hlinked := hh.linked _ hb
      change PointerChains.Chain 0 t.next _ (chain (bucket map (cstr key 0))) at hlinked
      rw [hx] at hlinked
      obtain ⟨hslot, hx0, hnull⟩ := hlinked
      rw [hslot] at hsingle
      exact hsingle hx0 hnull) junk
  have hlive : t'.live.card ≤ t.live.card := by
    cases hv : find map (cstr key 0) with
    | none => rw [habsent hv]
    | some v =>
      obtain ⟨y, -, -, hy⟩ := hpresent v hv
      rw [hy]
      exact Finset.card_erase_le
  have hget : ∀ k fuel, 0 ∈ k → bucket map (cstr k 0) < t.capacity → t.live.card ≤ fuel →
      HashmapMemory.hashmapGet fuel t' k =
        some ((find (deleteKey map (cstr key 0)) (cstr k 0)).getD 0) := by
    intro k fuel hk hbk hfuel
    rw [← hashmapGet_eq_find]
    exact hh'.hashmapGet hk (by rw [hcap']; exact hbk) (hlive.trans hfuel)
  refine ⟨_, t', fun fuel hfuel => hashmapDelete_mono hfuel hcall, ?_, ?_, ?_, fun i hi => ?_,
    fun fuel hfuel => ?_, fun k fuel hk hne hfuel => ?_⟩
  · rw [hfind]
  · rw [← hfind]
    exact habsent
  · intro v hv
    rw [← hfind] at hv
    exact hpresent v hv
  · have hlinked' := hh'.linked i (by rw [hcap']; exact hi)
    have hpairs' := hh'.pairs i (by rw [hcap']; exact hi)
    obtain ⟨hchain, hentries⟩ := deleteKey_bucket hh hplaced hb hi
    rw [hchain] at hlinked' hpairs'
    rw [hentries] at hpairs'
    exact ⟨chain i, hh.linked i hi, hlinked', List.map_inj_left.mp hpairs'⟩
  · rw [hget key fuel hkey hb hfuel, find_deleteKey, if_pos rfl, Option.getD_none]
  · by_cases hbk : bucket map (cstr k 0) < t.capacity
    · rw [hget k fuel hk hbk hfuel, hh.hashmapGet hk hbk hfuel, hashmapGet_eq_find, find_deleteKey,
        if_neg hne]
    · have hsize : t'.size = t.size := hh'.size.trans hh.size.symm
      rw [HashmapMemory.hashmapGet, HashmapMemory.hashmapGet, hsize, hcap', hh.size]
      change (if t.capacity ≤ bucket map (cstr k 0) then none else _) =
        if t.capacity ≤ bucket map (cstr k 0) then none else _
      rw [if_pos (Nat.not_lt.mp hbk), if_pos (Nat.not_lt.mp hbk)]

/-- `hashmap_delete` on a map that completed calls left does what it should exactly if its bucket
lies in the array and, when the bucket has one entry only, this entry has the key. -/
theorem hashmap_delete_iff (heap : ℕ → Entry) (size : ℕ) (ops : List Op) (t : Table)
    (hrun : Reach Step (hashmapCreate heap size) ops t) (key : Bytes) (hkey : 0 ∈ key)
    (junk : Entry) :
    (∃ out t', (∀ fuel, t.live.card ≤ fuel → hashmapDelete junk fuel t key = some (out, t')) ∧
        Deleted (recorded ops) t key out t') ↔
      hashmapStringHash (cstr key 0) % size % 2 ^ 30 < t.capacity ∧
        (t.entries (hashmapStringHash (cstr key 0) % size % 2 ^ 30) ≠ 0 →
          t.next (t.entries (hashmapStringHash (cstr key 0) % size % 2 ^ 30)) = 0 →
            cstr (t.entry (t.entries (hashmapStringHash (cstr key 0) % size % 2 ^ 30))).key 0 =
              cstr key 0) := by
  have hkept : Kept size ops t := hrun.invariant (Kept size) (kept_create heap size)
    fun _ _ _ _ _ hk hs => kept_step hk hs
  constructor
  · rintro ⟨out, t', hcall, -⟩
    obtain ⟨map, chain, hh, rfl, -, -, -⟩ := hkept
    have hdone := hcall t.live.card le_rfl
    have hb := bucket_lt_of_delete hh hdone
    refine ⟨hb, fun hx hnull => single_of_delete hh hkey hdone _ ?_⟩
    exact ((hh.linked _ hb).unique ⟨rfl, hx, hnull⟩)
  · rintro ⟨hb, hsingle⟩
    exact hkept.deleted hkey hb hsingle junk

def oneEntry : Table where
  size := 1
  capacity := 1
  entries := Function.update (fun _ => 0) 0 8
  entry := Function.update (fun _ => ⟨[], 0, 0⟩) 8 ⟨[97, 0], 5, 0⟩
  live := {8}

theorem reach_oneEntry :
    Reach Step (hashmapCreate (fun _ => ⟨[], 0, 0⟩) 1) [.set [97, 0] 5] oneEntry :=
  .next .start (@Step.set _ oneEntry [97, 0] 8 0 5 0 (by decide) (by decide) (by decide) rfl)

def twoEntries : Table := (oneEntry.newEntry 9 [98, 0] 6).setNext 8 9

def threeEntries : Table := (twoEntries.newEntry 10 [99, 0] 7).setNext 9 10

def threeSets : List Op := [.set [97, 0] 5, .set [98, 0] 6, .set [99, 0] 7]

theorem reach_threeEntries :
    Reach Step (hashmapCreate (fun _ => ⟨[], 0, 0⟩) 1) threeSets threeEntries := by
  have htwo : Step oneEntry (.set [98, 0] 6) twoEntries :=
    @Step.set _ _ _ 9 1 _ 0 (by decide) (by decide) (by decide) rfl
  have hthree : Step twoEntries (.set [99, 0] 7) threeEntries :=
    @Step.set _ _ _ 10 2 _ 0 (by decide) (by decide) (by decide) rfl
  exact (reach_oneEntry.next htwo).next hthree

/-- `b` is taken out from between `a` and `c`. -/
theorem delete_middle_entry :
    Reach Step (hashmapCreate (fun _ => ⟨[], 0, 0⟩) 1) threeSets threeEntries ∧
      ∃ out t', (∀ fuel, threeEntries.live.card ≤ fuel →
          hashmapDelete ⟨[], 0, 0⟩ fuel threeEntries [98, 0] = some (out, t')) ∧
        Deleted (recorded threeSets) threeEntries [98, 0] out t' :=
  ⟨reach_threeEntries, (hashmap_delete_iff _ 1 _ threeEntries reach_threeEntries [98, 0]
    (by decide) ⟨[], 0, 0⟩).mpr (by decide +kernel)⟩

/-- Deleting `b` from the map that holds only `a` reads through NULL. -/
theorem delete_beside_only_entry :
    Reach Step (hashmapCreate (fun _ => ⟨[], 0, 0⟩) 1) [.set [97, 0] 5] oneEntry ∧
      ∀ fuel, hashmapDelete ⟨[], 0, 0⟩ fuel oneEntry [98, 0] = none := by
  refine ⟨reach_oneEntry, fun fuel => ?_⟩
  have hfirst : hashmapDelete ⟨[], 0, 0⟩ fuel oneEntry [98, 0] =
      deleteLoop ⟨[], 0, 0⟩ [98, 0] oneEntry fuel 8 0 := rfl
  rw [hfirst, deleteLoop_null]

end Bingos.HashmapDeletion
