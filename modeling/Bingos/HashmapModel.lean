import Bingos.CStrings

set_option autoImplicit false

/-! The string map of `common/hashmap.c`: buckets with chains of entries. Values are pointers,
and a missing key reads as the null pointer 0. -/
namespace Bingos.StringMaps

open CStrings

/-- `char` is signed; its value as a 32-bit word. -/
def charWord (c : UInt8) : ℕ := if c.toNat < 128 then c.toNat else c.toNat + (2 ^ 32 - 256)

def hashmapStringHash (key : Bytes) : ℕ :=
  key.foldl (fun hash c =>
    (charWord c + hash * 2 ^ 6 + hash * 2 ^ 16 + (2 ^ 32 - hash)) % 2 ^ 32) 0

abbrev Chain := List (Bytes × ℕ)

structure Hashmap where
  size : ℕ
  entries : ℕ → Chain

def hashmapCreate (size : ℕ) : Hashmap := ⟨size, fun _ => []⟩

/-- The pointer is 4 * index bytes into the array, in 32 bits. -/
def bucket (map : Hashmap) (key : Bytes) : ℕ := hashmapStringHash key % map.size % 2 ^ 30

def chainGet (key : Bytes) : Chain → ℕ
  | [] => 0
  | (k, v) :: chain => if k = key then v else chainGet key chain

def chainSet (key : Bytes) (value : ℕ) : Chain → Chain
  | [] => [(key, value)]
  | (k, v) :: chain => if k = key then (k, value) :: chain else (k, v) :: chainSet key value chain

def hashmapGet (map : Hashmap) (key : Bytes) : ℕ := chainGet key (map.entries (bucket map key))

/-- The map after `hashmap_set`; the function returns the value the key had, `hashmapGet`. -/
def hashmapSet (map : Hashmap) (key : Bytes) (value : ℕ) : Hashmap :=
  { map with
    entries := Function.update map.entries (bucket map key)
      (chainSet key value (map.entries (bucket map key))) }

def chainFind (key : Bytes) : Chain → Option ℕ
  | [] => none
  | (k, v) :: chain => if k = key then some v else chainFind key chain

theorem chainGet_eq (key : Bytes) (chain : Chain) :
    chainGet key chain = (chainFind key chain).getD 0 := by
  induction chain with
  | nil => rfl
  | cons e chain ih =>
    rw [chainGet, chainFind]
    split_ifs
    · rfl
    · exact ih

theorem chainFind_chainSet (key k : Bytes) (value : ℕ) (chain : Chain) :
    chainFind k (chainSet key value chain) = if k = key then some value else chainFind k chain := by
  induction chain with
  | nil =>
    by_cases hk : k = key
    · simp [chainSet, chainFind, hk]
    · simp [chainSet, chainFind, hk, Ne.symm hk]
  | cons e chain ih =>
    obtain ⟨k', v⟩ := e
    rw [chainSet]
    split_ifs with he hk hk
    · simp [chainFind, he, hk]
    · have hne : ¬ k' = k := fun h => hk (h.symm.trans he)
      simp [chainFind, hne]
    · subst k
      simpa [chainFind, he] using ih
    · rw [chainFind, chainFind, ih, if_neg hk]

theorem chainFind_eq_none_iff {key : Bytes} {chain : Chain} :
    chainFind key chain = none ↔ ∀ e ∈ chain, e.1 ≠ key := by
  induction chain with
  | nil => simp [chainFind]
  | cons e chain ih =>
    rw [chainFind, List.forall_mem_cons, ← ih]
    split_ifs with he <;> simp [he]

def find (map : Hashmap) (key : Bytes) : Option ℕ := chainFind key (map.entries (bucket map key))

theorem find_hashmapSet (map : Hashmap) (key k : Bytes) (value : ℕ) :
    find (hashmapSet map key value) k = if k = key then some value else find map k := by
  rw [find, hashmapSet]
  change chainFind k (Function.update map.entries (bucket map key) _ (bucket map k)) = _
  by_cases hb : bucket map k = bucket map key
  · rw [hb, Function.update_self, chainFind_chainSet, find, hb]
  · have hk : k ≠ key := fun h => hb (by rw [h])
    rw [Function.update_of_ne hb, if_neg hk]
    rfl

theorem hashmapGet_hashmapSet (map : Hashmap) (key k : Bytes) (value : ℕ) :
    hashmapGet (hashmapSet map key value) k =
      if k = key then value else hashmapGet map k := by
  rw [hashmapGet, chainGet_eq, ← find, find_hashmapSet, hashmapGet, chainGet_eq, ← find]
  split_ifs <;> rfl

def enter (table : Hashmap) (b : Bytes × ℕ) : Hashmap := hashmapSet table b.1 b.2

def lastValue (bs : List (Bytes × ℕ)) (name : Bytes) : Option ℕ :=
  (bs.reverse.find? fun b => b.1 = name).map Prod.snd

theorem lastValue_concat (bs : List (Bytes × ℕ)) (b : Bytes × ℕ) (name : Bytes) :
    lastValue (bs ++ [b]) name = if name = b.1 then some b.2 else lastValue bs name := by
  rw [lastValue, List.reverse_append, List.reverse_singleton, List.singleton_append,
    List.find?_cons]
  by_cases hname : name = b.1
  · rw [if_pos hname, decide_eq_true hname.symm]
    rfl
  · rw [if_neg hname, decide_eq_false (Ne.symm hname)]
    rfl

theorem hashmapGet_foldl_enter (bs : List (Bytes × ℕ)) (table : Hashmap) (name : Bytes) :
    hashmapGet (bs.foldl enter table) name = (lastValue bs name).getD (hashmapGet table name) := by
  induction bs using List.reverseRecOn with
  | nil => rfl
  | append_singleton bs b ih =>
    rw [List.foldl_append, List.foldl_cons, List.foldl_nil, enter, hashmapGet_hashmapSet, ih,
      lastValue_concat]
    by_cases hname : name = b.1
    · rw [if_pos hname, if_pos hname, Option.getD_some]
    · rw [if_neg hname, if_neg hname]

end Bingos.StringMaps
