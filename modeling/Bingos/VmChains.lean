import Bingos.MmapAreas
import Bingos.MmapFrames
import Bingos.PointerChains

set_option autoImplicit false

/-! The area lists in kernel memory: singly linked records, unlinked and
inserted through a pointer to the link that leads to them. -/
namespace Bingos.Mmap
open MachineWords PointerChains StepRuns

structure VmNode where
  vmStart : ℕ
  vmEnd : ℕ
  next : ℕ

/-- The area records in use, and the `mmap` field of each process; address zero
is the null pointer. Using memory that is no record in use is an error. -/
structure AreaHeap where
  nodes : ℕ → Option VmNode
  mmap : ℕ → ℕ

inductive Slot where
  | mmap (p : ℕ)
  | next (a : ℕ)

def readSlot (h : AreaHeap) : Slot → Option ℕ
  | .mmap p => some (h.mmap p)
  | .next a => (h.nodes a).map VmNode.next

def setNode (h : AreaHeap) (a : ℕ) (n : VmNode) : AreaHeap :=
  { h with nodes := Function.update h.nodes a (some n) }

def writeNext (h : AreaHeap) (a v : ℕ) : Option AreaHeap :=
  (h.nodes a).map fun n => setNode h a { n with next := v }

def writeSlot (h : AreaHeap) : Slot → ℕ → Option AreaHeap
  | .mmap p, v => some { h with mmap := Function.update h.mmap p v }
  | .next a, v => writeNext h a v

def insertPosition (h : AreaHeap) (start : ℕ) (prev : Slot) (i : ℕ) : ℕ → Option (Slot × ℕ)
  | 0 => none
  | fuel + 1 =>
    if i = 0 then some (prev, i)
    else (h.nodes i).bind fun n =>
      if n.vmStart > start then some (prev, i) else insertPosition h start (.next i) n.next fuel

def listFuel : ℕ := 2 ^ 32 + 1

def insertVmNode (h : AreaHeap) (p area : ℕ) : Option AreaHeap :=
  (h.nodes area).bind fun n =>
    (insertPosition h n.vmStart (.mmap p) (h.mmap p) listFuel).bind fun place =>
      (writeNext h area place.2).bind fun h => writeSlot h place.1 area

/-- The first loop of `do_munmap` moves the areas that meet the range to a list
of their own. -/
def unlinkLoop (h : AreaHeap) (npp : Slot) (free addr stop : ℕ) : ℕ → Option (AreaHeap × ℕ)
  | 0 => none
  | fuel + 1 =>
    (readSlot h npp).bind fun i =>
      if i = 0 then some (h, free)
      else (h.nodes i).bind fun n =>
        if stop ≤ n.vmStart ∨ n.vmEnd ≤ addr then unlinkLoop h (.next i) free addr stop fuel
        else (writeSlot h npp n.next).bind fun h =>
          (writeNext h i free).bind fun h => unlinkLoop h npp i addr stop fuel

def freeLoop (h : AreaHeap) (free : ℕ) : ℕ → Option AreaHeap
  | 0 => none
  | fuel + 1 =>
    if free = 0 then some h
    else (h.nodes free).bind fun n =>
      freeLoop { h with nodes := Function.update h.nodes free none } n.next fuel

def chainMunmap (h : AreaHeap) (p addr len : ℕ) : Option AreaHeap :=
  if pageAlign len = 0 then some h
  else (unlinkLoop h (.mmap p) 0 addr (add32 addr len) listFuel).bind fun r =>
    if r.2 = 0 then some r.1 else freeLoop r.1 r.2 listFuel

/-- `do_mmap` without its page loop; `area` is the block `kmalloc` returns. -/
def chainMmap (area : ℕ) (h : AreaHeap) (p addr len : ℕ) : Option AreaHeap :=
  if pageAlign len = 0 then some h
  else (chainMunmap h p addr (pageAlign len)).bind fun h =>
    insertVmNode (setNode h area ⟨addr, add32 addr (pageAlign len), 0⟩) p area

/-- The loop of `dup_mmap`, with the blocks its calls of `kmalloc` return. -/
def dupLoop : List ℕ → AreaHeap → Slot → ℕ → Option AreaHeap
  | blocks, h, ptr, i =>
    if i = 0 then some h
    else match blocks with
      | [] => none
      | tmp :: blocks =>
        (h.nodes i).bind fun n =>
          (writeSlot (setNode h tmp { n with next := 0 }) ptr tmp).bind fun h =>
            (h.nodes i).bind fun n => dupLoop blocks h (.next tmp) n.next

def dupMmap (blocks : List ℕ) (h : AreaHeap) (p parent : ℕ) : Option AreaHeap :=
  dupLoop blocks h (.mmap p) (h.mmap parent)

def nextOf (h : AreaHeap) (a : ℕ) : ℕ := ((h.nodes a).map VmNode.next).getD 0

def areaOf (h : AreaHeap) (a : ℕ) : Option VmArea := (h.nodes a).map fun n => ⟨n.vmStart, n.vmEnd⟩

/-- The list of process `p` runs through the records `l`, which hold `areas`. -/
structure Holds (h : AreaHeap) (p : ℕ) (l : List ℕ) (areas : List VmArea) : Prop where
  chain : Chain 0 (nextOf h) (h.mmap p) l
  areas : l.map (areaOf h) = areas.map some

def slotAfter (p : ℕ) (pre : List ℕ) : Slot := pre.getLast?.elim (.mmap p) .next

theorem slotAfter_concat (p : ℕ) (pre : List ℕ) (i : ℕ) : slotAfter p (pre ++ [i]) = .next i := by
  simp [slotAfter]

variable {h : AreaHeap} {areas : List VmArea} {l pre rest blocks : List ℕ}
  {area p a addr free len parent : ℕ}

theorem areaOf_eq_some (hs : (areaOf h a).isSome) :
    ∃ n, h.nodes a = some n ∧ nextOf h a = n.next ∧ areaOf h a = some ⟨n.vmStart, n.vmEnd⟩ := by
  cases hn : h.nodes a with
  | none => simp [areaOf, hn] at hs
  | some n => exact ⟨n, rfl, by simp [nextOf, hn], by simp [areaOf, hn]⟩

theorem readSlot_slotAfter (hc : Chain 0 (nextOf h) (h.mmap p) (pre ++ rest))
    (hlive : ∀ a ∈ pre, (areaOf h a).isSome) :
    readSlot h (slotAfter p pre) = some (rest.head?.getD 0) := by
  rcases List.eq_nil_or_concat pre with rfl | ⟨pre, a, rfl⟩
  · exact congrArg some hc.eq_head
  · rw [List.concat_eq_append] at hc hlive ⊢
    obtain ⟨n, hn, hnext, -⟩ := areaOf_eq_some (hlive a (by simp))
    rw [List.append_assoc, List.singleton_append] at hc
    rw [slotAfter_concat, readSlot, hn, Option.map_some, ← hnext, ← hc.after.2.eq_head]

theorem areaOf_setNode (h : AreaHeap) (a : ℕ) (n : VmNode) :
    areaOf (setNode h a n) = Function.update (areaOf h) a (some ⟨n.vmStart, n.vmEnd⟩) := by
  funext b
  by_cases hb : b = a
  · subst hb
    simp [areaOf, setNode]
  · simp [areaOf, setNode, Function.update_of_ne hb]

theorem nextOf_setNode (h : AreaHeap) (a : ℕ) (n : VmNode) :
    nextOf (setNode h a n) = Function.update (nextOf h) a n.next := by
  funext b
  by_cases hb : b = a
  · subst hb
    simp [nextOf, setNode]
  · simp [nextOf, setNode, Function.update_of_ne hb]

theorem writeNext_spec (hs : (areaOf h a).isSome) (v : ℕ) :
    ∃ h', writeNext h a v = some h' ∧ h'.mmap = h.mmap ∧ areaOf h' = areaOf h ∧
      nextOf h' = Function.update (nextOf h) a v := by
  obtain ⟨n, hn, -, harea⟩ := areaOf_eq_some hs
  refine ⟨setNode h a { n with next := v }, ?_, rfl, ?_, nextOf_setNode h a _⟩
  · rw [writeNext, hn, Option.map_some]
  · rw [areaOf_setNode, ← harea, Function.update_eq_self]

theorem writeSlot_spec (hlive : ∀ a ∈ pre, (areaOf h a).isSome) (v : ℕ) :
    ∃ h', writeSlot h (slotAfter p pre) v = some h' ∧ areaOf h' = areaOf h ∧
      (∀ y, pre.getLast? = some y → nextOf h' y = v) ∧
      (∀ y, pre.getLast? ≠ some y → nextOf h' y = nextOf h y) ∧
      h'.mmap p = (if pre = [] then v else h.mmap p) ∧ ∀ q, q ≠ p → h'.mmap q = h.mmap q := by
  rcases List.eq_nil_or_concat pre with rfl | ⟨pre, a, rfl⟩
  · exact ⟨_, rfl, rfl, nofun, fun _ _ => rfl, Function.update_self _ _ _,
      fun q hq => Function.update_of_ne hq _ _⟩
  · rw [List.concat_eq_append] at hlive ⊢
    obtain ⟨h', hw, hmmap, harea, hnext⟩ := writeNext_spec (hlive a (by simp)) v
    refine ⟨h', by rw [slotAfter_concat]; exact hw, harea, ?_, ?_, ?_, fun q _ => by rw [hmmap]⟩
    · intro y hy
      obtain rfl : a = y := by simpa using hy
      rw [hnext, Function.update_self]
    · intro y hy
      have hne : y ≠ a := by
        rintro rfl
        simp at hy
      rw [hnext, Function.update_of_ne hne]
    · rw [hmmap, if_neg (by simp)]

def stays (d : ℕ → Option VmArea) (addr stop a : ℕ) : Bool :=
  (d a).any fun v => !overlaps addr stop v

theorem unlinkLoop_spec {fuel : ℕ} {freed : List ℕ}
    (addr stop : ℕ) (hc : Chain 0 (nextOf h) (h.mmap p) (pre ++ rest))
    (hlive : ∀ a ∈ pre ++ rest, (areaOf h a).isSome) (hfree : Chain 0 (nextOf h) free freed)
    (hout : ∀ a ∈ freed, a ∉ pre ++ rest) (hfuel : rest.length < fuel) :
    ∃ h' free', unlinkLoop h (slotAfter p pre) free addr stop fuel = some (h', free') ∧
      areaOf h' = areaOf h ∧
      Chain 0 (nextOf h') (h'.mmap p) (pre ++ rest.filter (stays (areaOf h) addr stop)) ∧
      Chain 0 (nextOf h') free'
        ((rest.filter (fun a => !stays (areaOf h) addr stop a)).reverse ++ freed) := by
  induction rest generalizing h pre free freed fuel with
  | nil =>
    obtain ⟨fuel, rfl⟩ := Nat.exists_eq_succ_of_ne_zero (by omega : fuel ≠ 0)
    have hread := readSlot_slotAfter hc fun a ha => hlive a (by simp [ha])
    refine ⟨h, free, ?_, rfl, by simpa using hc, by simpa using hfree⟩
    simp [unlinkLoop, hread]
  | cons i rest ih =>
    obtain ⟨fuel, rfl⟩ := Nat.exists_eq_succ_of_ne_zero (by omega : fuel ≠ 0)
    have hread := readSlot_slotAfter hc fun a ha => hlive a (by simp [ha])
    rw [List.head?_cons, Option.getD_some] at hread
    obtain ⟨n, hn, hnext, harea⟩ := areaOf_eq_some (hlive i (by simp))
    have hi : i ≠ 0 := hc.ne_null i (by simp)
    have hlen : rest.length < fuel := by
      rw [List.length_cons] at hfuel
      omega
    have hstays : stays (areaOf h) addr stop i = decide (stop ≤ n.vmStart ∨ n.vmEnd ≤ addr) := by
      simp [stays, harea, overlaps]
    rw [unlinkLoop, hread, Option.bind_some, if_neg hi, hn, Option.bind_some]
    split_ifs with hkeep
    · -- the record stays, and the pointer moves on to its link
      have heq : pre ++ i :: rest = (pre ++ [i]) ++ rest := by simp
      rw [heq] at hc hlive hout
      obtain ⟨h', free', hrun, hdata, hc', hfree'⟩ := ih hc hlive hfree hout hlen
      rw [slotAfter_concat] at hrun
      refine ⟨h', free', hrun, hdata, ?_, ?_⟩
      · rw [List.filter_cons_of_pos (by rw [hstays, decide_eq_true hkeep])]
        simpa using hc'
      · rw [List.filter_cons_of_neg (by rw [hstays, decide_eq_true hkeep]; decide)]
        exact hfree'
    · -- the record moves to the other list, and the pointer stays
      have hnodup := hc.nodup
      have hpre : i ∉ pre := fun hmem =>
        (List.disjoint_of_nodup_append hnodup) hmem List.mem_cons_self
      have hrest : i ∉ rest := (List.nodup_cons.mp (List.nodup_append.mp hnodup).2.1).1
      have hlivePre : ∀ a ∈ pre, (areaOf h a).isSome := fun a ha => hlive a (by simp [ha])
      obtain ⟨h₁, hw₁, hdata₁, hlast₁, hother₁, hhead₁, -⟩ :=
        writeSlot_spec (p := p) hlivePre n.next
      have hlivei : (areaOf h₁ i).isSome := by
        rw [hdata₁]
        exact hlive i (by simp)
      obtain ⟨h₂, hw₂, hmmap₂, hdata₂, hnext₂⟩ := writeNext_spec hlivei free
      have hdata : areaOf h₂ = areaOf h := hdata₂.trans hdata₁
      have hne : ∀ y, y ∈ pre ++ rest → y ≠ i := by
        rintro y hy rfl
        rcases List.mem_append.mp hy with hy | hy
        · exact hpre hy
        · exact hrest hy
      have hc₂ : Chain 0 (nextOf h₂) (h₂.mmap p) (pre ++ rest) := by
        rw [hmmap₂, hhead₁, ← hnext]
        refine hc.remove (fun y hy => ?_) (fun y hy hy' => ?_)
        · have hmem : y ∈ pre ++ rest := List.mem_append_left _ (List.mem_of_getLast? hy)
          rw [hnext₂, Function.update_of_ne (hne y hmem), hlast₁ y hy, hnext]
        · rw [hnext₂, Function.update_of_ne (hne y hy), hother₁ y hy']
      have hfree₂ : Chain 0 (nextOf h₂) i (i :: freed) := by
        refine ⟨rfl, hi, ?_⟩
        rw [hnext₂, Function.update_self]
        refine hfree.congr fun y hy => ?_
        have hy' := hout y hy
        have hyi : y ≠ i := by
          rintro rfl
          exact hy' (by simp)
        have hylast : pre.getLast? ≠ some y := fun hl =>
          hy' (List.mem_append_left _ (List.mem_of_getLast? hl))
        rw [Function.update_of_ne hyi, hother₁ y hylast]
      have hlive₂ : ∀ a ∈ pre ++ rest, (areaOf h₂ a).isSome := by
        intro a ha
        rw [hdata]
        refine hlive a ?_
        rcases List.mem_append.mp ha with ha | ha <;> simp [ha]
      have hout₂ : ∀ a ∈ i :: freed, a ∉ pre ++ rest := by
        intro a ha hmem
        rcases List.mem_cons.mp ha with rfl | ha
        · exact hne a hmem rfl
        · refine hout a ha ?_
          rcases List.mem_append.mp hmem with hm | hm <;> simp [hm]
      obtain ⟨h', free', hrun, hdata', hc', hfree'⟩ := ih hc₂ hlive₂ hfree₂ hout₂ hlen
      rw [hdata] at hdata' hc' hfree'
      refine ⟨h', free', ?_, hdata', ?_, ?_⟩
      · rw [hw₁, Option.bind_some, hw₂, Option.bind_some]
        exact hrun
      · rw [List.filter_cons_of_neg (by rw [hstays, decide_eq_false hkeep]; decide)]
        exact hc'
      · rw [List.filter_cons_of_pos (by rw [hstays, decide_eq_false hkeep]; decide),
          List.reverse_cons, List.append_assoc, List.singleton_append]
        exact hfree'

theorem freeLoop_spec {fuel : ℕ} (hc : Chain 0 (nextOf h) free l)
    (hlive : ∀ a ∈ l, (areaOf h a).isSome) (hfuel : l.length < fuel) :
    freeLoop h free fuel =
      some { h with nodes := fun a => if a ∈ l then none else h.nodes a } := by
  induction l generalizing h free fuel with
  | nil =>
    obtain ⟨fuel, rfl⟩ := Nat.exists_eq_succ_of_ne_zero (by omega : fuel ≠ 0)
    rw [freeLoop, if_pos (chain_nil.mp hc)]
    simp
  | cons a l ih =>
    obtain ⟨fuel, rfl⟩ := Nat.exists_eq_succ_of_ne_zero (by omega : fuel ≠ 0)
    have hnot := (List.nodup_cons.mp hc.nodup).1
    obtain ⟨rfl, ha, ht⟩ := hc
    obtain ⟨n, hn, hnext, -⟩ := areaOf_eq_some (hlive free List.mem_cons_self)
    have hne : ∀ y ∈ l, y ≠ free := by
      rintro y hy rfl
      exact hnot hy
    rw [freeLoop, if_neg ha, hn, Option.bind_some, ih]
    · congr 2
      funext y
      by_cases hy : y = free
      · subst hy
        simp
      · simp [hy]
    · rw [← hnext]
      refine ht.congr fun y hy => ?_
      simp [nextOf, Function.update_of_ne (hne y hy)]
    · intro y hy
      have h' := hlive y (List.mem_cons_of_mem _ hy)
      simpa [areaOf, Function.update_of_ne (hne y hy)] using h'
    · rw [List.length_cons] at hfuel
      omega

theorem Holds.live (hh : Holds h p l areas) : ∀ a ∈ l, (areaOf h a).isSome := by
  intro a ha
  have hmem : areaOf h a ∈ l.map (areaOf h) := List.mem_map_of_mem ha
  rw [hh.areas] at hmem
  obtain ⟨v, -, hv⟩ := List.mem_map.mp hmem
  rw [← hv]
  rfl

theorem Holds.length (hh : Holds h p l areas) : l.length = areas.length := by
  have := congrArg List.length hh.areas
  simpa using this

theorem Holds.filter (hh : Holds h p l areas) (addr stop : ℕ) :
    (l.filter (stays (areaOf h) addr stop)).map (areaOf h) =
      (areas.filter fun a => !overlaps addr stop a).map some := by
  let keep (o : Option VmArea) : Bool := o.any fun v => !overlaps addr stop v
  calc (l.filter (stays (areaOf h) addr stop)).map (areaOf h)
      = (l.map (areaOf h)).filter keep := List.filter_map.symm
    _ = (areas.map some).filter keep := by rw [hh.areas]
    _ = (areas.filter fun a => !overlaps addr stop a).map some := List.filter_map

theorem chainMunmap_spec (hh : Holds h p l areas) (hlen : areas.length < listFuel) (addr len : ℕ) :
    ∃ h' l', chainMunmap h p addr len = some h' ∧ l'.Sublist l ∧
      Holds h' p l' (unmapAreas areas addr len) := by
  unfold chainMunmap unmapAreas
  split_ifs with hz
  · exact ⟨h, l, rfl, List.Sublist.refl l, hh⟩
  · have hc := hh.chain
    rw [← List.nil_append l] at hc
    have hlive : ∀ a ∈ [] ++ l, (areaOf h a).isSome := by simpa using hh.live
    have hempty : Chain 0 (nextOf h) 0 [] := chain_nil.mpr rfl
    obtain ⟨h₁, free, hrun, hdata, hc₁, hfree⟩ := unlinkLoop_spec addr (add32 addr len) hc hlive
      hempty (by simp) (show l.length < listFuel by rw [hh.length]; exact hlen)
    have hareas := hh.filter addr (add32 addr len)
    have hrun' : unlinkLoop h (.mmap p) 0 addr (add32 addr len) listFuel = some (h₁, free) := hrun
    rw [List.nil_append] at hc₁
    rw [List.append_nil] at hfree
    rw [hrun', Option.bind_some]
    dsimp only
    split_ifs with hfree0
    · exact ⟨h₁, _, rfl, List.filter_sublist, hc₁, by rw [hdata]; exact hareas⟩
    · refine ⟨_, l.filter (stays (areaOf h) addr (add32 addr len)), freeLoop_spec hfree ?_ ?_,
        List.filter_sublist, ?_, ?_⟩
      · intro a ha
        rw [hdata]
        exact hh.live a (List.mem_of_mem_filter (List.mem_reverse.mp ha))
      · rw [List.length_reverse]
        exact Nat.lt_of_le_of_lt (List.length_filter_le _ _) (by rw [hh.length]; exact hlen)
      · refine hc₁.congr fun a ha => ?_
        have hstay := (List.mem_filter.mp ha).2
        simp [nextOf, hstay]
      · rw [← hareas]
        refine List.map_congr_left fun a ha => ?_
        have hstay := (List.mem_filter.mp ha).2
        rw [← hdata] at hstay ⊢
        simp [areaOf, hstay]

def passed (d : ℕ → Option VmArea) (start a : ℕ) : Bool :=
  (d a).any fun v => v.vmStart ≤ start

theorem insertPosition_spec {fuel : ℕ} (start : ℕ)
    (hc : Chain 0 (nextOf h) (h.mmap p) (pre ++ rest))
    (hlive : ∀ a ∈ pre ++ rest, (areaOf h a).isSome) (hfuel : rest.length < fuel) :
    insertPosition h start (slotAfter p pre) (rest.head?.getD 0) fuel =
      some (slotAfter p (pre ++ rest.takeWhile (passed (areaOf h) start)),
        (rest.dropWhile (passed (areaOf h) start)).head?.getD 0) := by
  induction rest generalizing pre fuel with
  | nil =>
    obtain ⟨fuel, rfl⟩ := Nat.exists_eq_succ_of_ne_zero (by omega : fuel ≠ 0)
    simp [insertPosition]
  | cons i rest ih =>
    obtain ⟨fuel, rfl⟩ := Nat.exists_eq_succ_of_ne_zero (by omega : fuel ≠ 0)
    obtain ⟨n, hn, hnext, harea⟩ := areaOf_eq_some (hlive i (by simp))
    have hi : i ≠ 0 := hc.ne_null i (by simp)
    have hpassed : passed (areaOf h) start i = decide (n.vmStart ≤ start) := by
      simp [passed, harea]
    rw [List.head?_cons, Option.getD_some, insertPosition, if_neg hi, hn, Option.bind_some]
    split_ifs with hgt
    · have hstop : ¬ passed (areaOf h) start i = true := by
        rw [hpassed, decide_eq_true_eq]
        omega
      rw [List.takeWhile_cons_of_neg hstop, List.dropWhile_cons_of_neg hstop, List.append_nil,
        List.head?_cons, Option.getD_some]
    · have hgo : passed (areaOf h) start i = true := by
        rw [hpassed, decide_eq_true_eq]
        omega
      have heq : pre ++ i :: rest = (pre ++ [i]) ++ rest := by simp
      have hhead : n.next = rest.head?.getD 0 := by rw [← hnext, ← hc.after.2.eq_head]
      rw [heq] at hc hlive
      have hrec := ih hc hlive (show rest.length < fuel by rw [List.length_cons] at hfuel; omega)
      rw [slotAfter_concat] at hrec
      rw [List.takeWhile_cons_of_pos hgo, List.dropWhile_cons_of_pos hgo, hhead, hrec,
        List.append_assoc, List.singleton_append]

theorem Holds.split (hh : Holds h p l areas) (start : ℕ) :
    (l.takeWhile (passed (areaOf h) start)).map (areaOf h) =
        (areas.takeWhile fun a => a.vmStart ≤ start).map some ∧
      (l.dropWhile (passed (areaOf h) start)).map (areaOf h) =
        (areas.dropWhile fun a => a.vmStart ≤ start).map some := by
  let before (o : Option VmArea) : Bool := o.any fun v => v.vmStart ≤ start
  constructor
  · calc (l.takeWhile (passed (areaOf h) start)).map (areaOf h)
        = (l.map (areaOf h)).takeWhile before := List.takeWhile_map.symm
      _ = (areas.map some).takeWhile before := by rw [hh.areas]
      _ = (areas.takeWhile fun a => a.vmStart ≤ start).map some := List.takeWhile_map
  · calc (l.dropWhile (passed (areaOf h) start)).map (areaOf h)
        = (l.map (areaOf h)).dropWhile before := List.dropWhile_map.symm
      _ = (areas.map some).dropWhile before := by rw [hh.areas]
      _ = (areas.dropWhile fun a => a.vmStart ≤ start).map some := List.dropWhile_map

theorem insertVmNode_spec {v : VmArea} (hh : Holds h p l areas) (hlen : areas.length < listFuel)
    (hv : areaOf h area = some v) (harea : area ≠ 0) (hnot : area ∉ l) :
    ∃ h' l', insertVmNode h p area = some h' ∧ Holds h' p l' (insertVm areas v) := by
  obtain ⟨n, hn, -, hn'⟩ := areaOf_eq_some (show (areaOf h area).isSome by rw [hv]; rfl)
  obtain rfl : v = ⟨n.vmStart, n.vmEnd⟩ := Option.some.inj (hv.symm.trans hn')
  let pre := l.takeWhile (passed (areaOf h) n.vmStart)
  let post := l.dropWhile (passed (areaOf h) n.vmStart)
  have hl : pre ++ post = l := List.takeWhile_append_dropWhile
  have hc := hh.chain
  rw [← List.nil_append l] at hc
  have hlive : ∀ a ∈ [] ++ l, (areaOf h a).isSome := by simpa using hh.live
  have hpos := insertPosition_spec n.vmStart hc hlive
    (show l.length < listFuel by rw [hh.length]; exact hlen)
  rw [List.nil_append] at hpos hc
  rw [← hc.eq_head] at hpos
  have hpos' : insertPosition h n.vmStart (.mmap p) (h.mmap p) listFuel =
      some (slotAfter p pre, post.head?.getD 0) := hpos
  obtain ⟨h₁, hw₁, hmmap₁, hdata₁, hnext₁⟩ :=
    writeNext_spec (show (areaOf h area).isSome by rw [hv]; rfl) (post.head?.getD 0)
  have hlive₁ : ∀ a ∈ pre, (areaOf h₁ a).isSome := by
    intro a ha
    rw [hdata₁]
    exact hh.live a (hl ▸ List.mem_append_left _ ha)
  obtain ⟨h₂, hw₂, hdata₂, hlast₂, hother₂, hhead₂, -⟩ := writeSlot_spec (p := p) hlive₁ area
  have hdata : areaOf h₂ = areaOf h := hdata₂.trans hdata₁
  have hne : ∀ y ∈ pre ++ post, y ≠ area := by
    rintro y hy rfl
    exact hnot (hl ▸ hy)
  have hlast : pre.getLast? ≠ some area := fun he =>
    hne area (List.mem_append_left _ (List.mem_of_getLast? he)) rfl
  refine ⟨h₂, pre ++ area :: post, ?_, ?_, ?_⟩
  · rw [insertVmNode, hn, Option.bind_some, hpos', Option.bind_some, hw₁, Option.bind_some]
    exact hw₂
  · rw [hhead₂, hmmap₁]
    rw [← hl] at hc
    refine hc.insert harea ?_ hlast₂ fun y hy hy' => ?_
    · rw [hother₂ area hlast, hnext₁, Function.update_self]
    · rw [hother₂ y hy', hnext₁, Function.update_of_ne (hne y hy)]
  · obtain ⟨hpre, hpost⟩ := hh.split n.vmStart
    rw [hdata, List.map_append, List.map_cons, hpre, hpost, hv, insertVm, List.map_append,
      List.map_cons]

theorem holds_setNode (hh : Holds h p l areas) (hnot : area ∉ l) (n : VmNode) :
    Holds (setNode h area n) p l areas := by
  have hne : ∀ y ∈ l, y ≠ area := by
    rintro y hy rfl
    exact hnot hy
  refine ⟨hh.chain.congr fun y hy => ?_, ?_⟩
  · rw [nextOf_setNode, Function.update_of_ne (hne y hy)]
  · rw [← hh.areas]
    refine List.map_congr_left fun y hy => ?_
    rw [areaOf_setNode, Function.update_of_ne (hne y hy)]

theorem Holds.not_mem (hh : Holds h p l areas) (hunused : h.nodes area = none) : area ∉ l := by
  intro hmem
  have := hh.live area hmem
  simp [areaOf, hunused] at this

/-- `kmalloc` returns a block for the new area that is not in use. -/
def Unused (h : AreaHeap) (p addr len area : ℕ) : Prop :=
  area ≠ 0 ∧ ∀ h', chainMunmap h p addr (pageAlign len) = some h' → h'.nodes area = none

theorem chainMmap_spec (hh : Holds h p l areas) (hlen : areas.length < listFuel)
    (hk : Unused h p addr len area) :
    ∃ h' l', chainMmap area h p addr len = some h' ∧ Holds h' p l' (mapAreas areas addr len) := by
  unfold chainMmap mapAreas
  split_ifs with hz
  · exact ⟨h, l, rfl, hh⟩
  · obtain ⟨h₁, l₁, hrun, hsub, hh₁⟩ := chainMunmap_spec hh hlen addr (pageAlign len)
    have hnot := hh₁.not_mem (hk.2 h₁ hrun)
    have hset := holds_setNode hh₁ hnot ⟨addr, add32 addr (pageAlign len), 0⟩
    have hlen₁ : (unmapAreas areas addr (pageAlign len)).length < listFuel := by
      have := hsub.length_le
      rw [hh₁.length, hh.length] at this
      omega
    rw [hrun, Option.bind_some]
    refine insertVmNode_spec hset hlen₁ ?_ hk.1 hnot
    rw [areaOf_setNode, Function.update_self]

theorem dupLoop_spec {done : List ℕ} (hp : p ≠ parent) (hparent : Holds h parent l areas)
    (hrest : Chain 0 (nextOf h) (rest.head?.getD 0) rest) (hin : ∀ a ∈ rest, a ∈ l)
    (hdone : Chain 0 (nextOf h) (h.mmap p) done) (hlive : ∀ a ∈ done, (areaOf h a).isSome)
    (hapart : ∀ a ∈ done, a ∉ l) (hblocks : blocks.length = rest.length)
    (hfresh : ∀ a ∈ blocks, a ≠ 0 ∧ a ∉ l ∧ a ∉ done) (hnodup : blocks.Nodup) :
    ∃ h', dupLoop blocks h (slotAfter p done) (rest.head?.getD 0) = some h' ∧
      Holds h' parent l areas ∧ Chain 0 (nextOf h') (h'.mmap p) (done ++ blocks) ∧
      (done ++ blocks).map (areaOf h') = (done ++ rest).map (areaOf h) := by
  induction rest generalizing h done blocks with
  | nil =>
    obtain rfl := List.length_eq_zero_iff.mp hblocks
    refine ⟨h, ?_, hparent, by simpa using hdone, rfl⟩
    rw [dupLoop]
    simp
  | cons i rest ih =>
    obtain ⟨tmp, blocks, rfl⟩ := List.exists_cons_of_length_pos (by rw [hblocks]; simp)
    obtain ⟨htmp0, htmpl, htmpd⟩ := hfresh tmp List.mem_cons_self
    obtain ⟨htmpb, hnodup⟩ := List.nodup_cons.mp hnodup
    have hil : i ∈ l := hin i List.mem_cons_self
    have hi : i ≠ 0 := hparent.chain.ne_null i hil
    have hne : i ≠ tmp := by
      rintro rfl
      exact htmpl hil
    obtain ⟨n, hn, hnext, harea⟩ := areaOf_eq_some (hparent.live i hil)
    let h₁ := setNode h tmp { n with next := 0 }
    have harea₁ : areaOf h₁ = Function.update (areaOf h) tmp (areaOf h i) := by
      rw [areaOf_setNode, harea]
    have hnext₁ : nextOf h₁ = Function.update (nextOf h) tmp 0 := nextOf_setNode h tmp _
    have hnetmp : ∀ y ∈ done, y ≠ tmp := by
      rintro y hy rfl
      exact htmpd hy
    have hlive₁ : ∀ a ∈ done, (areaOf h₁ a).isSome := by
      intro a ha
      rw [harea₁, Function.update_of_ne (hnetmp a ha)]
      exact hlive a ha
    obtain ⟨h₂, hw₂, harea₂, hlast₂, hother₂, hhead₂, hheads₂⟩ := writeSlot_spec (p := p) hlive₁ tmp
    have hnotlast : ∀ y ∈ l, done.getLast? ≠ some y := fun y hy he =>
      hapart y (List.mem_of_getLast? he) hy
    have hnetl : ∀ y ∈ l, y ≠ tmp := by
      rintro y hy rfl
      exact htmpl hy
    have hnextl : ∀ y ∈ l, nextOf h₂ y = nextOf h y := by
      intro y hy
      rw [hother₂ y (hnotlast y hy), hnext₁, Function.update_of_ne (hnetl y hy)]
    have harea₂' : areaOf h₂ = Function.update (areaOf h) tmp (areaOf h i) := harea₂.trans harea₁
    have hparent₂ : Holds h₂ parent l areas := by
      refine ⟨?_, ?_⟩
      · rw [hheads₂ parent hp.symm]
        exact hparent.chain.congr hnextl
      · rw [← hparent.areas]
        refine List.map_congr_left fun y hy => ?_
        rw [harea₂', Function.update_of_ne (hnetl y hy)]
    obtain ⟨n₂, hn₂, hnext₂, -⟩ := areaOf_eq_some (hparent₂.live i hil)
    have hhead : n₂.next = rest.head?.getD 0 := by
      rw [← hnext₂, hnextl i hil]
      exact hrest.2.2.eq_head
    have hrest₂ : Chain 0 (nextOf h₂) (rest.head?.getD 0) rest := by
      have ht := hrest.2.2.congr fun y hy => hnextl y (hin y (List.mem_cons_of_mem i hy))
      rw [ht.eq_head] at ht
      exact ht
    have hdone₂ : Chain 0 (nextOf h₂) (h₂.mmap p) (done ++ [tmp]) := by
      rw [hhead₂]
      refine hdone.snoc htmp0 ?_ hlast₂ fun y hy hy' => ?_
      · have hnl : done.getLast? ≠ some tmp := fun he => htmpd (List.mem_of_getLast? he)
        rw [hother₂ tmp hnl, hnext₁, Function.update_self]
      · rw [hother₂ y hy', hnext₁, Function.update_of_ne (hnetmp y hy)]
    have hlive₂ : ∀ a ∈ done ++ [tmp], (areaOf h₂ a).isSome := by
      intro a ha
      rw [harea₂']
      rcases List.mem_append.mp ha with ha | ha
      · rw [Function.update_of_ne (hnetmp a ha)]
        exact hlive a ha
      · obtain rfl := List.mem_singleton.mp ha
        rw [Function.update_self, harea]
        rfl
    have hapart₂ : ∀ a ∈ done ++ [tmp], a ∉ l := by
      intro a ha
      rcases List.mem_append.mp ha with ha | ha
      · exact hapart a ha
      · obtain rfl := List.mem_singleton.mp ha
        exact htmpl
    have hfresh₂ : ∀ a ∈ blocks, a ≠ 0 ∧ a ∉ l ∧ a ∉ done ++ [tmp] := by
      intro a ha
      obtain ⟨h0, hal, had⟩ := hfresh a (List.mem_cons_of_mem tmp ha)
      refine ⟨h0, hal, fun hmem => ?_⟩
      rcases List.mem_append.mp hmem with hmem | hmem
      · exact had hmem
      · obtain rfl := List.mem_singleton.mp hmem
        exact htmpb ha
    obtain ⟨h', hrun, hparent', hchain', hareas'⟩ := ih hparent₂ hrest₂
      (fun a ha => hin a (List.mem_cons_of_mem i ha)) hdone₂ hlive₂ hapart₂
      (by simpa using hblocks) hfresh₂ hnodup
    refine ⟨h', ?_, hparent', by simpa using hchain', ?_⟩
    · rw [slotAfter_concat] at hrun
      rw [dupLoop, List.head?_cons, Option.getD_some, if_neg hi]
      simp only [hn, Option.bind_some]
      rw [show setNode h tmp { n with next := 0 } = h₁ from rfl, hw₂]
      simp only [Option.bind_some, hn₂, hhead]
      exact hrun
    · have hdone' : done.map (areaOf h₂) = done.map (areaOf h) := by
        refine List.map_congr_left fun y hy => ?_
        rw [harea₂', Function.update_of_ne (hnetmp y hy)]
      have hrest' : rest.map (areaOf h₂) = rest.map (areaOf h) := by
        refine List.map_congr_left fun y hy => ?_
        rw [harea₂', Function.update_of_ne (hnetl y (hin y (List.mem_cons_of_mem i hy)))]
      have htmp' : areaOf h₂ tmp = areaOf h i := by rw [harea₂', Function.update_self]
      rw [List.append_assoc, List.singleton_append, List.append_assoc, List.singleton_append] at hareas'
      rw [hareas', List.map_append, List.map_append, hdone', List.map_cons, List.map_cons, hrest',
        htmp']

/-- `kmalloc` returns a block for each copy, not in use and different ones. -/
structure Blocks (h : AreaHeap) (n : ℕ) (blocks : List ℕ) : Prop where
  length : blocks.length = n
  nonnull : ∀ a ∈ blocks, a ≠ 0
  unused : ∀ a ∈ blocks, h.nodes a = none
  nodup : blocks.Nodup

theorem dupMmap_spec (hp : p ≠ parent) (hh : Holds h parent l areas)
    (hempty : h.mmap p = 0) (hb : Blocks h areas.length blocks) :
    ∃ h', dupMmap blocks h p parent = some h' ∧ Holds h' p blocks areas ∧
      Holds h' parent l areas := by
  have hhead := hh.chain.eq_head
  have hc := hh.chain
  rw [hhead] at hc
  obtain ⟨h', hrun, hparent, hchain, hareas⟩ := dupLoop_spec hp hh hc (fun _ ha => ha)
    (chain_nil.mpr hempty) nofun nofun (by rw [hb.length, hh.length])
    (fun a ha => ⟨hb.nonnull a ha, hh.not_mem (hb.unused a ha), List.not_mem_nil⟩) hb.nodup
  refine ⟨h', ?_, ⟨by simpa using hchain, ?_⟩, hparent⟩
  · rw [dupMmap, hhead]
    exact hrun
  · rw [List.nil_append, List.nil_append] at hareas
    rw [hareas, hh.areas]

def ChainStep (p : ℕ) (h : AreaHeap) : Call → AreaHeap → Prop
  | .mmap addr len, h' => ∃ area, Unused h p addr len area ∧ chainMmap area h p addr len = some h'
  | .munmap addr len, h' => chainMunmap h p addr len = some h'

theorem Separate.fuel (h : Separate areas) : areas.length < listFuel := by
  have := h.length_le
  unfold listFuel
  omega

theorem run_separate {init : AreaHeap} {cs : List Call} (h0 : init.mmap p = 0)
    (hrun : Reach (Guarded (fun _ c => InSpace c.addr c.len) (ChainStep p)) init cs h) :
    ∃ l areas, Holds h p l areas ∧ Separate areas := by
  refine hrun.invariant (fun _ h => ∃ l areas, Holds h p l areas ∧ Separate areas)
    ⟨[], [], ⟨chain_nil.mpr h0, rfl⟩, .nil⟩ ?_
  rintro cs h c h' - ⟨l, areas, hh, hs⟩ ⟨hin, hstep⟩
  cases c with
  | mmap addr len =>
    obtain ⟨area, hk, hstep⟩ := hstep
    obtain ⟨h'', l', hrun, hh'⟩ := chainMmap_spec hh hs.fuel hk
    obtain rfl := Option.some.inj (hrun.symm.trans hstep)
    exact ⟨l', _, hh', hs.map hin⟩
  | munmap addr len =>
    obtain ⟨h'', l', hrun, -, hh'⟩ := chainMunmap_spec hh hs.fuel addr len
    obtain rfl := Option.some.inj (hrun.symm.trans hstep)
    exact ⟨l', _, hh', hs.unmap addr len⟩

/-- In every state reached from an empty list, the list is sorted and its areas
are not empty and disjoint; unmapping keeps the records of the areas that do
not meet the range in their order, mapping puts the new area in once, and the
copy for a child holds the same areas. -/
theorem area_list_invariant {p : ℕ} {init h : AreaHeap} {cs : List Call} (h0 : init.mmap p = 0)
    (hrun : Reach (Guarded (fun _ c => InSpace c.addr c.len) (ChainStep p)) init cs h) :
    ∃ l areas, Holds h p l areas ∧
      areas.Pairwise (fun a b => a.vmStart < b.vmStart) ∧
      (∀ a ∈ areas, a.vmStart < a.vmEnd) ∧
      areas.Pairwise (fun a b =>
        Disjoint (Set.Ico a.vmStart a.vmEnd) (Set.Ico b.vmStart b.vmEnd)) ∧
      (∀ addr len area, InSpace addr len → 0 < len → Unused h p addr len area →
        ∃ h' l' areas', chainMmap area h p addr len = some h' ∧ Holds h' p l' areas' ∧
          areas'.count ⟨addr, addr + pageAlign len⟩ = 1) ∧
      (∀ addr len, InSpace addr len →
        ∃ h' l' areas', chainMunmap h p addr len = some h' ∧ Holds h' p l' areas' ∧
          l'.Sublist l ∧ areas'.Sublist areas ∧
          ∀ a ∈ areas, Disjoint (Set.Ico a.vmStart a.vmEnd) (Set.Ico addr (addr + len)) →
            a ∈ areas') ∧
      ∀ child blocks, child ≠ p → h.mmap child = 0 → Blocks h areas.length blocks →
        ∃ h', dupMmap blocks h child p = some h' ∧ Holds h' child blocks areas ∧
          Holds h' p l areas := by
  classical
  obtain ⟨l, areas, hh, hs⟩ := run_separate h0 hrun
  refine ⟨l, areas, hh, hs.sorted, hs.nonempty, hs.disjoint, ?_, ?_, ?_⟩
  · intro addr len area hin hlen hk
    obtain ⟨h', l', hmap, hh'⟩ := chainMmap_spec hh hs.fuel hk
    exact ⟨h', l', _, hmap, hh', mapAreas_count hin hlen⟩
  · intro addr len hin
    obtain ⟨h', l', hunmap, hsub, hh'⟩ := chainMunmap_spec hh hs.fuel addr len
    rw [unmapAreas_eq_filter hs hin] at hh'
    refine ⟨h', l', _, hunmap, hh', hsub, List.filter_sublist, fun a ha hd => ?_⟩
    exact List.mem_filter.mpr ⟨ha, decide_eq_true hd⟩
  · intro child blocks hne hempty hb
    exact dupMmap_spec hne hh hempty hb

theorem unused_of_munmap {h' : AreaHeap} (hrun : chainMunmap h p addr (pageAlign len) = some h')
    (hne : area ≠ 0) (hnode : h'.nodes area = none) : Unused h p addr len area := by
  refine ⟨hne, fun h'' hrun' => ?_⟩
  rw [← Option.some.inj (hrun.symm.trans hrun')]
  exact hnode

/-- Two areas mapped by process 1, at blocks at 16 and 24, and a third one at
32 that takes the place of the first, which it overlaps. -/
theorem area_list_invariant_overlapping :
    ∃ h, Reach (Guarded (fun _ c => InSpace c.addr c.len) (ChainStep 1))
        ⟨fun _ => none, fun _ => 0⟩
        [.mmap 0x20000000 0x1234, .mmap 0x20004000 0x1000, .mmap 0x20001000 0x2000] h ∧
      (h.mmap 1 = 32 ∧ nextOf h 32 = 24 ∧ areaOf h 16 = none) ∧
      ∃ l areas, Holds h 1 l areas ∧ areas.Pairwise (fun a b => a.vmStart < b.vmStart) := by
  have hrun : Reach (Guarded (fun _ c => InSpace c.addr c.len) (ChainStep 1))
      ⟨fun _ => none, fun _ => 0⟩ ([] ++ [.mmap 0x20000000 0x1234] ++ [.mmap 0x20004000 0x1000] ++
        [.mmap 0x20001000 0x2000]) _ :=
    .next (.next (.next .start
      ⟨show InSpace 0x20000000 0x1234 by decide, 16, unused_of_munmap rfl (by decide) rfl, rfl⟩)
      ⟨show InSpace 0x20004000 0x1000 by decide, 24, unused_of_munmap rfl (by decide) rfl, rfl⟩)
      ⟨show InSpace 0x20001000 0x2000 by decide, 32, unused_of_munmap rfl (by decide) rfl, rfl⟩
  obtain ⟨l, areas, hh, hsorted, -⟩ := area_list_invariant rfl hrun
  exact ⟨_, hrun, ⟨rfl, rfl, rfl⟩, l, areas, hh, hsorted⟩

end Bingos.Mmap
