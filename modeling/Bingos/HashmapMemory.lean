import Bingos.HashmapModel
import Bingos.PointerChains
import Bingos.StepRuns

set_option autoImplicit false

/-! The string map of `common/hashmap.c` in memory: an array of pointers to
chains of entries, each with a copy of its key. -/
namespace Bingos.HashmapMemory
open CStrings PointerChains StringMaps

def strcmp : Bytes → Bytes → ℤ
  | x :: a, y :: b =>
    if x = y ∧ y ≠ 0 then strcmp a b else ((x.toNat : ℤ) - y.toNat).sign
  | _, _ => 0

def hashmapStringCompare (a b : Bytes) : ℕ := if strcmp a b = 0 then 1 else 0

def hashmapStringDup (key : Bytes) : Bytes := key.take (strlen key 0 + 1)

structure Entry where
  key : Bytes
  value : ℕ
  next : ℕ

/-- The block of `entries` holds `capacity` pointers; `live` are the entries
allocated. -/
structure Table where
  size : ℕ
  capacity : ℕ
  entries : ℕ → ℕ
  entry : ℕ → Entry
  live : Finset ℕ

namespace Table

def setSlot (t : Table) (hash x : ℕ) : Table :=
  { t with entries := Function.update t.entries hash x }

def setValue (t : Table) (x value : ℕ) : Table :=
  { t with entry := Function.update t.entry x { t.entry x with value := value } }

def setNext (t : Table) (x n : ℕ) : Table :=
  { t with entry := Function.update t.entry x { t.entry x with next := n } }

def newEntry (t : Table) (n : ℕ) (key : Bytes) (value : ℕ) : Table :=
  { t with
    entry := Function.update t.entry n ⟨hashmapStringDup key, value, 0⟩
    live := insert n t.live }

def next (t : Table) (x : ℕ) : ℕ := (t.entry x).next

end Table

def hashmapCreate (heap : ℕ → Entry) (size : ℕ) : Table where
  size := size
  capacity := 4 * size % 2 ^ 32 / 4
  entries _ := 0
  entry := heap
  live := ∅

def setLoop (n : ℕ) (key : Bytes) (value : ℕ) (t : Table) : ℕ → ℕ → Option (ℕ × Table)
  | 0, _ => none
  | fuel + 1, x =>
    if hashmapStringCompare (t.entry x).key key ≠ 0 then
      some ((t.entry x).value, t.setValue x value)
    else if (t.entry x).next ≠ 0 then setLoop n key value t fuel (t.entry x).next
    else some (0, (t.newEntry n key value).setNext x n)

/-- The byte offset of `entries[hash]` wraps at 2^32. `none` is an access outside the block of the
array, or the end of the fuel. -/
def hashmapSet (n fuel : ℕ) (t : Table) (key : Bytes) (value : ℕ) : Option (ℕ × Table) :=
  let hash := hashmapStringHash (cstr key 0) % t.size % 2 ^ 30
  if t.capacity ≤ hash then none
  else if t.entries hash = 0 then some (0, (t.newEntry n key value).setSlot hash n)
  else setLoop n key value t fuel (t.entries hash)

def getLoop (key : Bytes) (t : Table) : ℕ → ℕ → Option ℕ
  | 0, _ => none
  | fuel + 1, x =>
    if hashmapStringCompare (t.entry x).key key ≠ 0 then some (t.entry x).value
    else if (t.entry x).next ≠ 0 then getLoop key t fuel (t.entry x).next
    else some 0

def hashmapGet (fuel : ℕ) (t : Table) (key : Bytes) : Option ℕ :=
  let hash := hashmapStringHash (cstr key 0) % t.size % 2 ^ 30
  if t.capacity ≤ hash then none
  else if t.entries hash = 0 then some 0
  else getLoop key t fuel (t.entries hash)

variable {a b key : Bytes} {y : ℕ}

section Strings

theorem strcmp_eq_zero_iff (ha : 0 ∈ a) (hb : 0 ∈ b) :
    strcmp a b = 0 ↔ cstr a 0 = cstr b 0 := by
  induction a generalizing b with
  | nil => cases ha
  | cons x a ih =>
    cases b with
    | nil => cases hb
    | cons y b =>
      rw [strcmp, cstr_cons, cstr_cons]
      by_cases hxy : x = y
      · subst hxy
        by_cases hx : x = 0
        · simp [hx]
        · have ha' : 0 ∈ a := (List.mem_cons.mp ha).resolve_left (Ne.symm hx)
          have hb' : 0 ∈ b := (List.mem_cons.mp hb).resolve_left (Ne.symm hx)
          rw [if_pos ⟨rfl, hx⟩, if_neg hx, if_neg hx, ih ha' hb', List.cons_inj_right]
      · have hne : (x.toNat : ℤ) - y.toNat ≠ 0 := fun h =>
          hxy (UInt8.toNat_inj.mp (by omega))
        rw [if_neg fun h => hxy h.1, Int.sign_eq_zero_iff_zero]
        refine iff_of_false hne fun h => ?_
        split_ifs at h <;> simp_all

theorem hashmapStringCompare_iff (ha : 0 ∈ a) (hb : 0 ∈ b) :
    hashmapStringCompare a b ≠ 0 ↔ cstr a 0 = cstr b 0 := by
  rw [← strcmp_eq_zero_iff ha hb, hashmapStringCompare]
  split_ifs with h <;> simp [h]

theorem hashmapStringDup_eq (h : 0 ∈ key) :
    hashmapStringDup key = cstr key 0 ++ [0] := by
  induction key with
  | nil => cases h
  | cons x key ih =>
    rw [hashmapStringDup, strlen, cstr_cons]
    by_cases hx : x = 0
    · simp [hx]
    · have h' := ih ((List.mem_cons.mp h).resolve_left (Ne.symm hx))
      rw [if_neg hx, List.length_cons, List.take_succ_cons, List.cons_append]
      exact congrArg _ h'

theorem cstr_hashmapStringDup (h : 0 ∈ key) :
    cstr (hashmapStringDup key) 0 = cstr key 0 := by
  rw [hashmapStringDup_eq h]
  exact cstr_of_drop (cstr_notMem key 0) (List.drop_zero ..)

end Strings

def Table.pair (t : Table) (x : ℕ) : Bytes × ℕ := (cstr (t.entry x).key 0, (t.entry x).value)

section Loops
variable {t : Table} {x n fuel : ℕ} {ns pre post : List ℕ}

theorem getLoop_eq (h : Chain 0 t.next x ns) (hx : x ≠ 0) (hkey : 0 ∈ key)
    (hkeys : ∀ y ∈ ns, 0 ∈ (t.entry y).key) (hfuel : ns.length ≤ fuel) :
    getLoop key t fuel x = some (chainGet (cstr key 0) (ns.map t.pair)) := by
  induction ns generalizing x fuel with
  | nil => exact absurd h hx
  | cons y ns ih =>
    obtain ⟨fuel, rfl⟩ := Nat.exists_eq_succ_of_ne_zero (Nat.ne_zero_of_lt hfuel)
    obtain ⟨rfl, _, hrest⟩ := h
    have hcmp := hashmapStringCompare_iff (hkeys x (by simp)) hkey
    rw [getLoop, List.map_cons, Table.pair, chainGet]
    by_cases hk : cstr (t.entry x).key 0 = cstr key 0
    · rw [if_pos (hcmp.mpr hk), if_pos hk]
    · rw [if_neg (mt hcmp.mp hk), if_neg hk]
      by_cases hn : (t.entry x).next = 0
      · rw [if_neg (not_not.mpr hn), (Chain.eq_null_iff hrest).mp hn]
        rfl
      · rw [if_pos hn]
        exact ih hrest hn (fun z hz => hkeys z (by simp [hz])) (Nat.le_of_succ_le_succ hfuel)

theorem setLoop_skip (h : Chain 0 t.next x (pre ++ y :: post)) (hkey : 0 ∈ key)
    (hkeys : ∀ z ∈ pre ++ y :: post, 0 ∈ (t.entry z).key)
    (hpre : ∀ z ∈ pre, cstr (t.entry z).key 0 ≠ cstr key 0) (hfuel : pre.length < fuel)
    (n value : ℕ) :
    ∃ fuel', setLoop n key value t fuel x = setLoop n key value t (fuel' + 1) y := by
  refine h.skip (f := fun fuel _ x => setLoop n key value t fuel x) (fun z hz fuel _ hn => ?_) hfuel 0
  have hcmp := hashmapStringCompare_iff (hkeys z (List.mem_append_left _ hz)) hkey
  rw [setLoop, if_neg (mt hcmp.mp (hpre z hz))]
  exact if_pos hn

theorem setLoop_found (h : Chain 0 t.next x (pre ++ y :: post)) (hkey : 0 ∈ key)
    (hkeys : ∀ z ∈ pre ++ y :: post, 0 ∈ (t.entry z).key)
    (hpre : ∀ z ∈ pre, cstr (t.entry z).key 0 ≠ cstr key 0)
    (hy : cstr (t.entry y).key 0 = cstr key 0) (hfuel : pre.length < fuel) (n value : ℕ) :
    setLoop n key value t fuel x = some ((t.entry y).value, t.setValue y value) := by
  obtain ⟨fuel', hrun⟩ := setLoop_skip h hkey hkeys hpre hfuel n value
  rw [hrun, setLoop, if_pos ((hashmapStringCompare_iff (hkeys y (by simp)) hkey).mpr hy)]

theorem setLoop_missing (h : Chain 0 t.next x (pre ++ [y])) (hkey : 0 ∈ key)
    (hkeys : ∀ z ∈ pre ++ [y], 0 ∈ (t.entry z).key)
    (hall : ∀ z ∈ pre ++ [y], cstr (t.entry z).key 0 ≠ cstr key 0) (hfuel : pre.length < fuel)
    (n value : ℕ) :
    setLoop n key value t fuel x = some (0, (t.newEntry n key value).setNext y n) := by
  obtain ⟨fuel', hrun⟩ := setLoop_skip h hkey hkeys
    (fun z hz => hall z (List.mem_append_left _ hz)) hfuel n value
  have hcmp := hashmapStringCompare_iff (hkeys y (by simp)) hkey
  have hend : (t.entry y).next = 0 := h.after.2
  rw [hrun, setLoop, if_neg (mt hcmp.mp (hall y (by simp))), if_neg (not_not.mpr hend)]

end Loops

section Chains
variable {k : Bytes} {value w : ℕ} {pre post chain : StringMaps.Chain}

theorem chainSet_found (h : ∀ e ∈ pre, e.1 ≠ key) :
    chainSet key value (pre ++ (key, w) :: post) = pre ++ (key, value) :: post := by
  induction pre with
  | nil => simp [chainSet]
  | cons e pre ih =>
    rw [List.cons_append, chainSet, if_neg (h e (by simp)),
      ih fun f hf => h f (List.mem_cons_of_mem _ hf)]
    rfl

theorem chainGet_found (h : ∀ e ∈ pre, e.1 ≠ key) :
    chainGet key (pre ++ (key, w) :: post) = w := by
  induction pre with
  | nil => simp [chainGet]
  | cons e pre ih =>
    rw [List.cons_append, chainGet, if_neg (h e (by simp)),
      ih fun f hf => h f (List.mem_cons_of_mem _ hf)]

theorem chainSet_missing (h : ∀ e ∈ chain, e.1 ≠ key) :
    chainSet key value chain = chain ++ [(key, value)] := by
  induction chain with
  | nil => rfl
  | cons e chain ih =>
    rw [chainSet, if_neg (h e (by simp)), ih fun f hf => h f (List.mem_cons_of_mem _ hf)]
    rfl

theorem chainGet_missing (h : ∀ e ∈ chain, e.1 ≠ key) : chainGet key chain = 0 := by
  rw [chainGet_eq, chainFind_eq_none_iff.mpr h]
  rfl

theorem keys_chainSet (key : Bytes) (value : ℕ) (chain : StringMaps.Chain) :
    (chainSet key value chain).map Prod.fst =
      if key ∈ chain.map Prod.fst then chain.map Prod.fst else chain.map Prod.fst ++ [key] := by
  induction chain with
  | nil => rfl
  | cons e chain ih =>
    rw [chainSet]
    by_cases he : e.1 = key
    · simp [he]
    · have hne : key ≠ e.1 := Ne.symm he
      rw [if_neg he, List.map_cons, ih, List.map_cons]
      by_cases hk : key ∈ chain.map Prod.fst
      · rw [if_pos hk, if_pos (List.mem_cons_of_mem _ hk)]
      · rw [if_neg hk, if_neg (List.not_mem_cons_of_ne_of_not_mem hne hk)]
        rfl

end Chains

end Bingos.HashmapMemory
