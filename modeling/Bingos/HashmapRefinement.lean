import Bingos.HashmapMemory

set_option autoImplicit false

/-! The string map in memory holds a finite map, as long as its array holds a
pointer for every bucket. -/
namespace Bingos.HashmapMemory
open CStrings PointerChains StepRuns StringMaps

structure Holds (t : Table) (map : Hashmap) (chain : ℕ → List ℕ) : Prop where
  size : t.size = map.size
  linked : ∀ h < t.capacity, Chain 0 t.next (t.entries h) (chain h)
  pairs : ∀ h < t.capacity, (chain h).map t.pair = map.entries h
  keys : ∀ h < t.capacity, ∀ x ∈ chain h, 0 ∈ (t.entry x).key
  apart : ∀ h < t.capacity, ∀ i < t.capacity, h ≠ i → ∀ x ∈ chain h, x ∉ chain i
  live : ∀ h < t.capacity, ∀ x ∈ chain h, x ∈ t.live

variable {t t' : Table} {map : Hashmap} {chain : ℕ → List ℕ} {b n fuel : ℕ} {ns : List ℕ}

theorem Holds.update (h : Holds t map chain) (l : StringMaps.Chain) (hb : b < t.capacity)
    (hn : n ∉ t.live) (hsize : t'.size = t.size) (hcap : t'.capacity = t.capacity)
    (hslot : ∀ i ≠ b, t'.entries i = t.entries i)
    (hentry : ∀ x, x ∉ chain b → x ≠ n → t'.entry x = t.entry x)
    (hlinked : Chain 0 t'.next (t'.entries b) ns) (hpairs : ns.map t'.pair = l)
    (hkeys : ∀ x ∈ ns, 0 ∈ (t'.entry x).key) (hns : ∀ x ∈ ns, x ∈ chain b ∨ x = n)
    (hlive : ∀ x, x ∈ t.live ∧ x ∉ chain b ∨ x ∈ ns → x ∈ t'.live) :
    Holds t' { map with entries := Function.update map.entries b l }
      (Function.update chain b ns) := by
  have hsame : ∀ i < t.capacity, i ≠ b → ∀ x ∈ chain i, t'.entry x = t.entry x := by
    intro i hi hib x hx
    refine hentry x (fun hxb => h.apart i hi b hb hib x hx hxb) ?_
    rintro rfl
    exact hn (h.live i hi x hx)
  have hout : ∀ i < t.capacity, i ≠ b → ∀ x ∈ chain i, x ∉ ns := by
    intro i hi hib x hx hxn
    rcases hns x hxn with hxb | rfl
    · exact h.apart i hi b hb hib x hx hxb
    · exact hn (h.live i hi x hx)
  refine ⟨hsize.trans h.size, ?_, ?_, ?_, ?_, ?_⟩
  all_goals rw [hcap]
  · intro i hi
    by_cases hib : i = b
    · subst hib
      rw [Function.update_self]
      exact hlinked
    · rw [Function.update_of_ne hib, hslot i hib]
      refine (h.linked i hi).congr fun x hx => ?_
      rw [Table.next, Table.next, hsame i hi hib x hx]
  · intro i hi
    by_cases hib : i = b
    · subst hib
      simp only [Function.update_self]
      exact hpairs
    · rw [Function.update_of_ne hib]
      refine Eq.trans ?_ ((h.pairs i hi).trans (Function.update_of_ne hib ..).symm)
      refine List.map_congr_left fun x hx => ?_
      rw [Table.pair, Table.pair, hsame i hi hib x hx]
  · intro i hi
    by_cases hib : i = b
    · subst hib
      rw [Function.update_self]
      exact hkeys
    · rw [Function.update_of_ne hib]
      intro x hx
      rw [hsame i hi hib x hx]
      exact h.keys i hi x hx
  · intro i hi j hj hij x hx
    by_cases hib : i = b
    · subst hib
      rw [Function.update_self] at hx
      rw [Function.update_of_ne hij.symm]
      exact fun hxj => hout j hj hij.symm x hxj hx
    · rw [Function.update_of_ne hib] at hx
      by_cases hjb : j = b
      · subst hjb
        rw [Function.update_self]
        exact hout i hi hib x hx
      · rw [Function.update_of_ne hjb]
        exact h.apart i hi j hj hij x hx
  · intro i hi x hx
    by_cases hib : i = b
    · subst hib
      rw [Function.update_self] at hx
      exact hlive x (Or.inr hx)
    · rw [Function.update_of_ne hib] at hx
      exact hlive x (Or.inl ⟨h.live i hi x hx, h.apart i hi b hb hib x hx⟩)

theorem Holds.length_le (h : Holds t map chain) (hb : b < t.capacity) :
    (chain b).length ≤ t.live.card := by
  rw [← List.toFinset_card_of_nodup (h.linked b hb).nodup]
  exact Finset.card_le_card fun x hx => h.live b hb x (List.mem_toFinset.mp hx)

variable {key : Bytes} {size value : ℕ} {r : ℕ × Table}

theorem Holds.hashmapGet (h : Holds t map chain) (hkey : 0 ∈ key)
    (hb : bucket map (cstr key 0) < t.capacity) (hfuel : t.live.card ≤ fuel) :
    hashmapGet fuel t key = some (StringMaps.hashmapGet map (cstr key 0)) := by
  have hlinked := h.linked _ hb
  rw [HashmapMemory.hashmapGet, h.size]
  change (if t.capacity ≤ bucket map (cstr key 0) then _ else _) = _
  rw [if_neg (Nat.not_le.mpr hb), StringMaps.hashmapGet, ← h.pairs _ hb]
  by_cases hx : t.entries (bucket map (cstr key 0)) = 0
  · rw [(Chain.eq_null_iff hlinked).mp hx]
    exact if_pos hx
  · refine (if_neg hx).trans (getLoop_eq hlinked hx hkey (h.keys _ hb) ?_)
    exact (h.length_le hb).trans hfuel

theorem find_entry (t : Table) (key : Bytes) (ns : List ℕ) :
    (∀ x ∈ ns, cstr (t.entry x).key 0 ≠ key) ∨
      ∃ pre y post, ns = pre ++ y :: post ∧ cstr (t.entry y).key 0 = key ∧
        ∀ x ∈ pre, cstr (t.entry x).key 0 ≠ key := by
  cases hfind : ns.find? fun x => cstr (t.entry x).key 0 = key with
  | none => exact Or.inl fun x hx => by simpa using List.find?_eq_none.mp hfind x hx
  | some y =>
    obtain ⟨hy, pre, post, hsplit, hpre⟩ := List.find?_eq_some_iff_append.mp hfind
    exact Or.inr ⟨pre, y, post, hsplit, by simpa using hy, fun x hx => by simpa using hpre x hx⟩

variable {pre : List ℕ} {fuel' y : ℕ}

section Set
variable (value : ℕ)

theorem newEntry_entry (t : Table) (n x : ℕ) (key : Bytes) :
    (t.newEntry n key value).entry x =
      if x = n then ⟨hashmapStringDup key, value, 0⟩ else t.entry x := by
  simp only [Table.newEntry, Function.update_apply]

theorem setValue_entry (t : Table) (y x : ℕ) :
    (t.setValue y value).entry x =
      if x = y then { t.entry y with value := value } else t.entry x := by
  simp only [Table.setValue, Function.update_apply]

theorem setNext_entry (t : Table) (y x n : ℕ) :
    (t.setNext y n).entry x = if x = y then { t.entry y with next := n } else t.entry x := by
  simp only [Table.setNext, Function.update_apply]

theorem hashmapStringDup_nul (hkey : 0 ∈ key) : 0 ∈ hashmapStringDup key := by
  rw [hashmapStringDup_eq hkey]
  simp

theorem Holds.set_empty (h : Holds t map chain) (hkey : 0 ∈ key) (hb : b < t.capacity)
    (hn0 : n ≠ 0) (hn : n ∉ t.live) :
    Holds ((t.newEntry n key value).setSlot b n)
      { map with entries := Function.update map.entries b [(cstr key 0, value)] }
      (Function.update chain b [n]) := by
  have hentry := fun x => newEntry_entry value t n x key
  have hself : (t.newEntry n key value).entry n = ⟨hashmapStringDup key, value, 0⟩ := by
    rw [hentry, if_pos rfl]
  refine h.update _ hb hn rfl rfl (fun i hi => Function.update_of_ne hi ..)
    (fun x _ hx => (hentry x).trans (if_neg hx)) ⟨Function.update_self .., hn0, ?_⟩ ?_
    (fun x hx => ?_) (fun x hx => Or.inr (List.mem_singleton.mp hx)) (fun x hx => ?_)
  · change ((t.newEntry n key value).entry n).next = 0
    rw [hself]
  · change [(cstr ((t.newEntry n key value).entry n).key 0,
      ((t.newEntry n key value).entry n).value)] = _
    rw [hself, cstr_hashmapStringDup hkey]
  · rw [List.mem_singleton.mp hx]
    change 0 ∈ ((t.newEntry n key value).entry n).key
    rw [hself]
    exact hashmapStringDup_nul hkey
  · change x ∈ insert n t.live
    rw [Finset.mem_insert]
    exact hx.symm.imp List.mem_singleton.mp And.left

theorem Holds.set_found (h : Holds t map chain) (hb : b < t.capacity) (hn : n ∉ t.live)
    {post : List ℕ} (hchain : chain b = pre ++ y :: post) :
    Holds (t.setValue y value)
      { map with
        entries := Function.update map.entries b
          (pre.map t.pair ++ (cstr (t.entry y).key 0, value) :: post.map t.pair) }
      (Function.update chain b (chain b)) := by
  have hentry := setValue_entry value t y
  have hlinked := h.linked b hb
  have hnodup := hlinked.nodup
  rw [hchain] at hnodup
  have hy : y ∉ pre ∧ y ∉ post := by
    rw [List.nodup_append, List.nodup_cons] at hnodup
    exact ⟨fun hmem => hnodup.2.2 y hmem y (by simp) rfl, hnodup.2.1.1⟩
  have hpair : ∀ ns : List ℕ, y ∉ ns → ns.map (t.setValue y value).pair = ns.map t.pair := by
    intro ns hns
    refine List.map_congr_left fun x hx => ?_
    have hxy : x ≠ y := fun heq => hns (heq ▸ hx)
    rw [Table.pair, Table.pair, hentry, if_neg hxy]
  refine h.update _ hb hn rfl rfl (fun _ _ => rfl) (fun x hx _ => ?_) (hlinked.congr fun x _ => ?_)
    ?_ (fun x hx => ?_) (fun x hx => Or.inl hx) (fun x hx => hx.elim And.left (h.live b hb x))
  · have hxy : x ≠ y := fun heq => hx (by rw [hchain, heq]; simp)
    rw [hentry, if_neg hxy]
  · rw [Table.next, Table.next, hentry]
    split_ifs with hxy
    · rw [hxy]
    · rfl
  · rw [hchain, List.map_append, List.map_cons, hpair pre hy.1, hpair post hy.2, Table.pair,
      hentry, if_pos rfl]
  · rw [hentry]
    split_ifs with hxy
    · exact h.keys b hb y (hxy ▸ hx)
    · exact h.keys b hb x hx

theorem Holds.set_missing (h : Holds t map chain) (hkey : 0 ∈ key) (hb : b < t.capacity)
    (hn0 : n ≠ 0) (hn : n ∉ t.live) (hchain : chain b = pre ++ [y]) :
    Holds ((t.newEntry n key value).setNext y n)
      { map with
        entries := Function.update map.entries b
          ((chain b).map t.pair ++ [(cstr key 0, value)]) }
      (Function.update chain b (chain b ++ [n])) := by
  have hlinked := h.linked b hb
  have hyn : y ≠ n := fun heq => hn (heq ▸ h.live b hb y (by rw [hchain]; simp))
  have hne : ∀ x ∈ chain b, x ≠ n := fun x hx heq => hn (heq ▸ h.live b hb x hx)
  have hold : ∀ x ≠ n, ((t.newEntry n key value).setNext y n).entry x =
      if x = y then { t.entry y with next := n } else t.entry x := fun x hx => by
    rw [setNext_entry, newEntry_entry, newEntry_entry, if_neg hyn, if_neg hx]
  have hself : ((t.newEntry n key value).setNext y n).entry n =
      ⟨hashmapStringDup key, value, 0⟩ := by
    rw [setNext_entry, if_neg hyn.symm, newEntry_entry, if_pos rfl]
  have hlast : (chain b).getLast? = some y := by rw [hchain]; simp
  have hnull : ((t.newEntry n key value).setNext y n).next n = 0 := by rw [Table.next, hself]
  have htail : ∀ z, (chain b).getLast? = some z →
      ((t.newEntry n key value).setNext y n).next z = n := fun z hz => by
    obtain rfl : y = z := Option.some.inj (hlast.symm.trans hz)
    rw [Table.next, hold y hyn, if_pos rfl]
  have hrest : ∀ z ∈ chain b, (chain b).getLast? ≠ some z →
      ((t.newEntry n key value).setNext y n).next z = t.next z := fun z hz hzl => by
    have hzy : z ≠ y := fun heq => hzl (heq ▸ hlast)
    rw [Table.next, hold z (hne z hz), if_neg hzy]
    rfl
  have hend := hlinked.snoc hn0 hnull htail hrest
  rw [if_neg (by rw [hchain]; simp)] at hend
  refine h.update _ hb hn rfl rfl (fun _ _ => rfl) (fun x hx hxn => ?_) hend ?_ (fun x hx => ?_)
    (fun x hx => by simpa using hx) (fun x hx => ?_)
  · have hxy : x ≠ y := fun heq => hx (by rw [hchain, heq]; simp)
    rw [hold x hxn, if_neg hxy]
  · rw [List.map_append]
    congr 1
    · refine List.map_congr_left fun x hx => ?_
      rw [Table.pair, Table.pair, hold x (hne x hx)]
      split_ifs with hxy
      · rw [hxy]
      · rfl
    · rw [List.map_singleton, Table.pair, hself, cstr_hashmapStringDup hkey]
  · rcases List.mem_append.mp hx with hx | hx
    · rw [hold x (hne x hx)]
      split_ifs with hxy
      · exact h.keys b hb y (hxy ▸ hx)
      · exact h.keys b hb x hx
    · rw [List.mem_singleton.mp hx, hself]
      exact hashmapStringDup_nul hkey
  · change x ∈ insert n t.live
    rw [Finset.mem_insert]
    rcases hx with hx | hx
    · exact Or.inr hx.1
    · rcases List.mem_append.mp hx with hx | hx
      · exact Or.inr (h.live b hb x hx)
      · exact Or.inl (List.mem_singleton.mp hx)

theorem Holds.hashmapSet (h : Holds t map chain) (hkey : 0 ∈ key)
    (hb : bucket map (cstr key 0) < t.capacity) (hn0 : n ≠ 0) (hn : n ∉ t.live)
    (hfuel : t.live.card ≤ fuel) :
    ∃ t' chain', hashmapSet n fuel t key value =
        some (StringMaps.hashmapGet map (cstr key 0), t') ∧ t'.capacity = t.capacity ∧
      Holds t' (StringMaps.hashmapSet map (cstr key 0) value) chain' := by
  have hlinked := h.linked _ hb
  have hpairs := h.pairs _ hb
  have hkeys := h.keys _ hb
  have hlen := (h.length_le hb).trans hfuel
  rw [HashmapMemory.hashmapSet, h.size]
  change ∃ t' chain', (if t.capacity ≤ bucket map (cstr key 0) then _ else _) = _ ∧ _ ∧ _
  rw [if_neg (Nat.not_le.mpr hb), StringMaps.hashmapGet, StringMaps.hashmapSet, ← hpairs]
  by_cases hx : t.entries (bucket map (cstr key 0)) = 0
  · rw [(Chain.eq_null_iff hlinked).mp hx]
    exact ⟨_, _, if_pos hx, rfl, h.set_empty value hkey hb hn0 hn⟩
  · rcases find_entry t (cstr key 0) (chain (bucket map (cstr key 0))) with
      hall | ⟨pre, y, post, hsplit, hy, hpre⟩
    · have hmissing : ∀ e ∈ (chain (bucket map (cstr key 0))).map t.pair, e.1 ≠ cstr key 0 := by
        intro e he
        obtain ⟨x, hxmem, rfl⟩ := List.mem_map.mp he
        exact hall x hxmem
      rw [chainGet_missing hmissing, chainSet_missing hmissing]
      rcases List.eq_nil_or_concat (chain (bucket map (cstr key 0))) with hnil | ⟨pre, y, hconcat⟩
      · exact absurd ((Chain.eq_null_iff hlinked).mpr hnil) hx
      · rw [List.concat_eq_append] at hconcat
        refine ⟨_, _, (if_neg hx).trans (setLoop_missing (hconcat ▸ hlinked) hkey
          (hconcat ▸ hkeys) (hconcat ▸ hall) ?_ n value), rfl,
          h.set_missing value hkey hb hn0 hn hconcat⟩
        rw [hconcat, List.length_append] at hlen
        exact hlen
    · have hbefore : ∀ e ∈ pre.map t.pair, e.1 ≠ cstr key 0 := by
        intro e he
        obtain ⟨x, hxmem, rfl⟩ := List.mem_map.mp he
        exact hpre x hxmem
      have hset := h.set_found value hb hn hsplit
      rw [hy] at hset
      rw [hsplit, List.map_append, List.map_cons, Table.pair, hy, chainGet_found hbefore,
        chainSet_found hbefore]
      refine ⟨_, _, (if_neg hx).trans (setLoop_found (hsplit ▸ hlinked) hkey
        (hsplit ▸ hkeys) hpre hy ?_ n value), rfl, hset⟩
      rw [hsplit, List.length_append, List.length_cons] at hlen
      omega

end Set

/-- Every entry is in the bucket of its key, and no chain has a key twice. -/
structure Placed (map : Hashmap) : Prop where
  bucket : ∀ h, ∀ e ∈ map.entries h, bucket map e.1 = h
  distinct : ∀ h, ((map.entries h).map Prod.fst).Nodup

theorem hashmapSet_entries (map : Hashmap) (key : Bytes) (value i : ℕ) :
    (StringMaps.hashmapSet map key value).entries i =
      if i = StringMaps.bucket map key then chainSet key value (map.entries i)
      else map.entries i := by
  rw [StringMaps.hashmapSet]
  simp only [Function.update_apply]
  split_ifs with hi
  · rw [hi]
  · rfl

theorem Placed.hashmapSet (h : Placed map) (key : Bytes) (value : ℕ) :
    Placed (StringMaps.hashmapSet map key value) := by
  have hentries := hashmapSet_entries map key value
  refine ⟨fun i e he => ?_, fun i => ?_⟩
  · change StringMaps.bucket map e.1 = i
    by_cases hi : i = StringMaps.bucket map key
    · have hmem := List.mem_map_of_mem (f := Prod.fst) he
      rw [hentries, if_pos hi, keys_chainSet] at hmem
      have hold : e.1 = key ∨ e.1 ∈ (map.entries i).map Prod.fst := by
        split_ifs at hmem
        · exact Or.inr hmem
        · simpa [or_comm] using hmem
      rcases hold with hkey | hmem
      · rw [hkey, hi]
      · obtain ⟨e', he', heq⟩ := List.mem_map.mp hmem
        rw [← heq, h.bucket i e' he']
    · rw [hentries, if_neg hi] at he
      exact h.bucket i e he
  · rw [hentries]
    split_ifs
    · rw [keys_chainSet]
      split_ifs with hmem
      · exact h.distinct i
      · rw [← List.concat_eq_append]
        exact (h.distinct i).concat hmem
    · exact h.distinct i

inductive Call where
  | set (key : Bytes) (value : ℕ)
  | get (key : Bytes)

inductive Step : Table → Call → Table → Prop where
  | set {t t' : Table} {key : Bytes} {n fuel value out : ℕ} (hkey : 0 ∈ key) (hn0 : n ≠ 0)
      (hn : n ∉ t.live) (h : hashmapSet n fuel t key value = some (out, t')) :
      Step t (.set key value) t'
  | get {t : Table} {key : Bytes} {fuel out : ℕ} (hkey : 0 ∈ key)
      (h : hashmapGet fuel t key = some out) : Step t (.get key) t

def contents (calls : List Call) : Bytes → ℕ :=
  calls.foldl (fun f c =>
    match c with
    | .set key value => Function.update f (cstr key 0) value
    | .get _ => f) fun _ => 0

structure IsMap (size : ℕ) (calls : List Call) (t : Table) : Prop where
  chains : ∀ h < size, ∃ ns, Chain 0 t.next (t.entries (h % 2 ^ 30)) ns ∧
    (∀ x ∈ ns, hashmapStringHash (cstr (t.entry x).key 0) % size = h) ∧
    (ns.map fun x => cstr (t.entry x).key 0).Nodup
  get : ∀ key fuel, 0 ∈ key → t.live.card ≤ fuel →
    hashmapGet fuel t key = some (contents calls (cstr key 0))
  set : ∀ key value n fuel, 0 ∈ key → n ≠ 0 → n ∉ t.live → t.live.card ≤ fuel →
    ∃ t', hashmapSet n fuel t key value = some (contents calls (cstr key 0), t')

def Kept (size : ℕ) (calls : List Call) (t : Table) : Prop :=
  ∃ map chain, Holds t map chain ∧ map.size = size ∧ t.capacity = size ∧ Placed map ∧
    ∀ k, StringMaps.hashmapGet map k = contents calls k

theorem kept_create (heap : ℕ → Entry) (hsize : size < 2 ^ 30) :
    Kept size [] (hashmapCreate heap size) := by
  refine ⟨StringMaps.hashmapCreate size, fun _ => [], ⟨rfl, fun _ _ => rfl, fun _ _ => rfl, by simp,
    by simp, by simp⟩, rfl, ?_, ⟨fun _ _ he => (by cases he), fun _ => List.nodup_nil⟩, fun _ => rfl⟩
  change 4 * size % 2 ^ 32 / 4 = size
  omega

theorem setLoop_mono {x : ℕ} (hle : fuel ≤ fuel')
    (h : setLoop n key value t fuel x = some r) : setLoop n key value t fuel' x = some r := by
  induction fuel generalizing fuel' x with
  | zero => cases h
  | succ fuel ih =>
    obtain ⟨fuel', rfl⟩ := Nat.exists_eq_succ_of_ne_zero (Nat.ne_zero_of_lt hle)
    rw [setLoop] at h ⊢
    split_ifs at h ⊢
    · exact h
    · exact ih (Nat.le_of_succ_le_succ hle) h
    · exact h

theorem hashmapSet_mono (hle : fuel ≤ fuel')
    (h : hashmapSet n fuel t key value = some r) : hashmapSet n fuel' t key value = some r := by
  unfold hashmapSet at h ⊢
  dsimp only at h ⊢
  split_ifs at h ⊢
  · exact h
  · exact setLoop_mono hle h

theorem Holds.of_hashmapSet (h : Holds t map chain)
    (hkey : 0 ∈ key) (hb : bucket map (cstr key 0) < t.capacity) (hn0 : n ≠ 0) (hn : n ∉ t.live)
    (hcall : HashmapMemory.hashmapSet n fuel t key value = some r) :
    ∃ chain', r.2.capacity = t.capacity ∧
      Holds r.2 (StringMaps.hashmapSet map (cstr key 0) value) chain' := by
  obtain ⟨t', chain', hcall', hcap, hh⟩ :=
    h.hashmapSet value hkey hb hn0 hn (Nat.le_max_right fuel t.live.card)
  have heq := (hashmapSet_mono (Nat.le_max_left fuel t.live.card) hcall).symm.trans hcall'
  obtain rfl := Option.some.inj heq
  exact ⟨chain', hcap, hh⟩

theorem contents_set (calls : List Call) (key k : Bytes) (value : ℕ) :
    contents (calls ++ [.set key value]) k =
      if k = cstr key 0 then value else contents calls k := by
  rw [contents, List.foldl_append, ← Function.update_apply]
  rfl

theorem contents_get (calls : List Call) (key : Bytes) :
    contents (calls ++ [.get key]) = contents calls := by
  rw [contents, List.foldl_append]
  rfl

theorem bucket_lt (hpos : 0 < size) (hsize : map.size = size) (key : Bytes) :
    bucket map key < size := by
  rw [bucket, hsize]
  exact (Nat.mod_le _ _).trans_lt (Nat.mod_lt _ hpos)

theorem bucket_eq (hpos : 0 < size) (hlow : size < 2 ^ 30) (hsize : map.size = size)
    (key : Bytes) : bucket map key = hashmapStringHash key % size := by
  rw [bucket, hsize]
  exact Nat.mod_eq_of_lt ((Nat.mod_lt _ hpos).trans hlow)

variable {calls : List Call}

theorem kept_step {c : Call} (hpos : 0 < size)
    (h : Kept size calls t) (hs : Step t c t') : Kept size (calls ++ [c]) t' := by
  obtain ⟨map, chain, hh, hsize, hcap, hplaced, hget⟩ := h
  cases hs with
  | @set _ key n fuel value _ hkey hn0 hn hcall =>
    have hb : bucket map (cstr key 0) < t.capacity := hcap ▸ bucket_lt hpos hsize _
    obtain ⟨chain', hcap', hh'⟩ := hh.of_hashmapSet hkey hb hn0 hn hcall
    refine ⟨_, _, hh', hsize, hcap'.trans hcap, hplaced.hashmapSet _ value, fun k => ?_⟩
    rw [hashmapGet_hashmapSet, contents_set, hget]
  | get _ _ =>
    refine ⟨map, chain, hh, hsize, hcap, hplaced, fun k => ?_⟩
    rw [contents_get, hget]

theorem Kept.isMap (hpos : 0 < size) (hlow : size < 2 ^ 30)
    (h : Kept size calls t) : IsMap size calls t := by
  obtain ⟨map, chain, hh, hsize, hcap, hplaced, hget⟩ := h
  have hb : ∀ key, bucket map key < t.capacity := fun key => hcap ▸ bucket_lt hpos hsize key
  refine ⟨fun i hi => ?_, fun key fuel hkey hfuel => ?_,
    fun key value n fuel hkey hn0 hn hfuel => ?_⟩
  · have hi' : i < t.capacity := hcap ▸ hi
    have hmap : ((chain i).map fun x => cstr (t.entry x).key 0) =
        (map.entries i).map Prod.fst := by
      rw [← hh.pairs i hi', List.map_map]
      rfl
    rw [Nat.mod_eq_of_lt (hi.trans hlow)]
    refine ⟨chain i, hh.linked i hi', fun x hx => ?_, hmap ▸ hplaced.distinct i⟩
    have hmem : t.pair x ∈ map.entries i := hh.pairs i hi' ▸ List.mem_map_of_mem hx
    rw [← bucket_eq hpos hlow hsize]
    exact hplaced.bucket i _ hmem
  · rw [hh.hashmapGet hkey (hb _) hfuel, hget]
  · obtain ⟨t', _, hcall, _, _⟩ := hh.hashmapSet value hkey (hb _) hn0 hn hfuel
    exact ⟨t', by rw [hcall, hget]⟩

theorem get_outside (heap : ℕ → Entry)
    (h : 4 * size % 2 ^ 32 / 4 ≤ hashmapStringHash (cstr key 0) % size % 2 ^ 30) (fuel : ℕ) :
    hashmapGet fuel (hashmapCreate heap size) key = none :=
  if_pos h

def farKey : Bytes := [121, 113, 118, 112, 101, 115, 0]

theorem farKey_hash : hashmapStringHash (cstr farKey 0) = 2 ^ 29 := by decide +kernel

/-- A key whose hash is 2^30 - 1: its bucket is the last cell that 32 bits can index. -/
def lastKey : Bytes := [112, 97, 108, 117, 119, 120, 122, 0]

theorem lastKey_hash : hashmapStringHash (cstr lastKey 0) = 2 ^ 30 - 1 := by decide +kernel

theorem exists_get_outside (heap : ℕ → Entry) (hlow : 2 ^ 30 ≤ size) (hint : size < 2 ^ 31) :
    ∃ key, 0 ∈ key ∧ ∀ fuel, hashmapGet fuel (hashmapCreate heap size) key = none := by
  by_cases hfar : size ≤ 2 ^ 30 + 2 ^ 29
  · have hmod : 2 ^ 29 % size = 2 ^ 29 := Nat.mod_eq_of_lt (by omega)
    refine ⟨farKey, by decide, get_outside heap ?_⟩
    rw [farKey_hash, hmod]
    omega
  · have hmod : (2 ^ 30 - 1) % size = 2 ^ 30 - 1 := Nat.mod_eq_of_lt (by omega)
    refine ⟨lastKey, by decide, get_outside heap ?_⟩
    rw [lastKey_hash, hmod]
    omega

/-- The map made with `size` buckets, an `int`, is a finite map in every run
exactly if the bytes of its array can be counted in 32 bits. -/
theorem hashmap_is_map_iff (heap : ℕ → Entry) {size : ℕ} (hpos : 0 < size) (hint : size < 2 ^ 31) :
    (∀ calls t, Reach Step (hashmapCreate heap size) calls t → IsMap size calls t) ↔
      size < 2 ^ 30 := by
  constructor
  · intro h
    by_contra hlow
    obtain ⟨key, hkey, hnone⟩ := exists_get_outside heap (Nat.not_lt.mp hlow) hint
    have hget := (h [] _ .start).get key _ hkey le_rfl
    rw [hnone] at hget
    cases hget
  · intro hsize calls t hrun
    have hkept := hrun.invariant (Kept size) (kept_create heap hsize)
      fun _ _ _ _ _ hk hs => kept_step hpos hk hs
    exact hkept.isMap hpos hsize

theorem hashmap_is_map_iff_symbols :
    (∀ calls t, Reach Step (hashmapCreate (fun _ => ⟨[], 0, 0⟩) 10) calls t → IsMap 10 calls t) ↔
      10 < 2 ^ 30 :=
  hashmap_is_map_iff _ (by decide) (by decide)

/-- The array of 2^30 buckets has no room for any; a read is 2^31 bytes beyond it. -/
theorem empty_array_read :
    (hashmapCreate (fun _ => ⟨[], 0, 0⟩) (2 ^ 30)).capacity = 0 ∧
      4 * (hashmapStringHash (cstr farKey 0) % 2 ^ 30 % 2 ^ 30) = 2 ^ 31 ∧
      ∀ fuel, hashmapGet fuel (hashmapCreate (fun _ => ⟨[], 0, 0⟩) (2 ^ 30)) farKey = none := by
  refine ⟨rfl, ?_, get_outside _ ?_⟩
  · rw [farKey_hash]
    decide
  · rw [farKey_hash]
    decide

end Bingos.HashmapMemory
