import Bingos.KmallocLayout
import Mathlib.Data.List.Perm.Subperm

set_option autoImplicit false

/-! Taking, giving back and formatting blocks keep the layout of the heap. -/
namespace Bingos.Kmalloc
open MachineWords PointerChains

theorem store_apply (m : Mem) (a w b : ℕ) : store m a w b = if b = a then w else m b :=
  Function.update_apply _ _ _ _

variable {h h' : Heap} {live : List (ℕ × ℕ)} {bs chain pages : List ℕ} {v : View}
  {b n o o' q size c r : ℕ} {m : Mem} {x : ℕ × ℕ}

theorem PageLayout.length_le (h : PageLayout m q o chain) :
    chain.length ≤ nblocks o := by
  let slots := (List.range (nblocks o)).map (fun k => q + descriptorSize + k * blockSize o)
  have hsub : chain ⊆ slots := by
    intro b hb
    obtain ⟨k, hk, rfl⟩ := h.slots b hb
    exact List.mem_map.mpr ⟨k, List.mem_range.mpr hk, rfl⟩
  have hle := (List.subperm_of_subset h.links.nodup hsub).length_le
  simpa [slots] using hle

theorem Holds.other_page (hh : Holds h v live) (hq : q % 4096 = 0) (hr : r ∈ h.pages)
    (hne : r ≠ q) (hout : ∀ a, a < q ∨ q + 4096 ≤ a → m a = h.mem a) :
    PageLayout m r (v.order r) (v.chain r) := by
  refine (hh.page r hr).congr (fun a ha => hout a ?_)
  have hb := ha.bounds (hh.order r hr)
  have hal := hh.aligned r hr
  omega

theorem blocksOf_cons (o p size : ℕ) (live : List (ℕ × ℕ)) : blocksOf o ((p, size) :: live) =
    blocksOf o live + if getOrder size = some o then 1 else 0 := by
  simp [blocksOf, List.countP_cons]

theorem bytesOf_cons (o p size : ℕ) (live : List (ℕ × ℕ)) : bytesOf o ((p, size) :: live) =
    bytesOf o live + if getOrder size = some o then size else 0 := by
  unfold bytesOf
  by_cases h : getOrder size = some o
  · simp [h, Nat.add_comm]
  · simp [h]

def View.edit (v : View) (q : ℕ) (bs pages : List ℕ) : View :=
  { v with
    chain := Function.update v.chain q bs
    avail := Function.update v.avail (v.order q) pages }

theorem Held.edit (hx : Held h v x) (hpages : h'.pages = h.pages)
    (hkeep : ∀ r ∈ h.pages, ∀ b, x.1 = b + headerSize → IsSlot r (v.order r) b → b ∉ v.chain r →
      (r = q → b ∉ bs) ∧ h'.mem b = h.mem b ∧ h'.mem (b + 8) = h.mem (b + 8)) :
    Held h' (v.edit q bs pages) x := by
  obtain ⟨r, hr, b, hxb, hb, hfree, ho, hflag, hlen⟩ := hx
  obtain ⟨hnot, hm, hm'⟩ := hkeep r hr b hxb hb hfree
  refine ⟨r, hpages ▸ hr, b, hxb, hb, ?_, ho, hm.trans hflag, hm'.trans hlen⟩
  by_cases hrq : r = q
  · subst hrq
    simpa [View.edit] using hnot rfl
  · simpa [View.edit, Function.update_of_ne hrq] using hfree

theorem Holds.edit {live' : List (ℕ × ℕ)} (hh : Holds h v live)
    (hq : q ∈ h.pages)
    (hsame : { h with mem := h'.mem, sizes := h'.sizes } = h')
    (hout : ∀ a, a < q ∨ q + 4096 ≤ a → h'.mem a = h.mem a)
    (hpage : PageLayout h'.mem q (v.order q) bs)
    (hqueue : Chain 0 h'.mem (h'.sizes (v.order q)).firstfree pages)
    (havail : ∀ r, r ∈ pages ↔ if r = q then bs ≠ [] else r ∈ v.avail (v.order q))
    (hsizes : ∀ o, o ≠ v.order q → h'.sizes o = h.sizes o)
    (hheld : ∀ x ∈ live', Held h' (v.edit q bs pages) x)
    (honce : (live'.map Prod.fst).Nodup)
    (hcount : (h'.sizes (v.order q)).nmallocs - (h'.sizes (v.order q)).nfrees =
      BitVec.ofNat 32 (blocksOf (v.order q) live'))
    (hbytes : (h'.sizes (v.order q)).nbytesmalloced = BitVec.ofNat 32 (bytesOf (v.order q) live'))
    (hlive : ∀ o, o ≠ v.order q →
      blocksOf o live' = blocksOf o live ∧ bytesOf o live' = bytesOf o live) :
    Holds h' (v.edit q bs pages) live' := by
  have hpages : h'.pages = h.pages := by rw [← hsame]
  have hplace : Placement h' := by
    rw [← hsame]
    exact { hh.toPlacement with }
  refine { hplace with
    order := fun r hr => hh.order r (hpages ▸ hr)
    page := ?_
    queue := ?_
    avail := ?_
    held := hheld
    once := honce
    count := ?_
    bytes := ?_ }
  · intro r hr
    rw [hpages] at hr
    by_cases hrq : r = q
    · subst hrq
      simpa [View.edit] using hpage
    · simpa [View.edit, Function.update_of_ne hrq] using
        hh.other_page (hh.aligned q hq) hr hrq hout
  · intro o ho'
    by_cases hoq : o = v.order q
    · subst hoq
      simpa [View.edit] using hqueue
    · rw [hsizes o hoq]
      simp only [View.edit, Function.update_of_ne hoq]
      refine (hh.queue o ho').congr (fun r hr => hout r ?_)
      obtain ⟨hrp, hro, -⟩ := (hh.avail o ho' r).mp hr
      have hne : r ≠ q := by
        rintro rfl
        exact hoq hro.symm
      have h1 := hh.aligned r hrp
      have h2 := hh.aligned q hq
      omega
  · intro o ho' r
    rw [hpages]
    change r ∈ Function.update v.avail (v.order q) pages o ↔
      r ∈ h.pages ∧ v.order r = o ∧ Function.update v.chain q bs r ≠ []
    by_cases hrq : r = q
    · subst hrq
      rw [Function.update_self]
      by_cases hoq : o = v.order r
      · subst hoq
        rw [Function.update_self, havail, if_pos rfl]
        simp [hq]
      · rw [Function.update_of_ne hoq, hh.avail o ho' r]
        have hne : v.order r ≠ o := fun he => hoq he.symm
        simp [hne]
    · rw [Function.update_of_ne hrq, ← hh.avail o ho' r]
      by_cases hoq : o = v.order q
      · subst hoq
        rw [Function.update_self, havail, if_neg hrq]
      · rw [Function.update_of_ne hoq]
  · intro o ho'
    by_cases hoq : o = v.order q
    · subst hoq
      exact hcount
    · rw [hsizes o hoq, (hlive o hoq).1]
      exact hh.count o ho'
  · intro o ho'
    by_cases hoq : o = v.order q
    · subst hoq
      exact hbytes
    · rw [hsizes o hoq, (hlive o hoq).2]
      exact hh.bytes o ho'

theorem Holds.outside (hh : Holds h v live)
    (hq : q ∈ h.pages) (hr : r ∈ h.pages) (hne : r ≠ q) : r + 4096 ≤ q ∨ q + 4096 ≤ r := by
  have hqa := hh.aligned q hq
  have hra := hh.aligned r hr
  omega

/-- The words that stay when block `b` of page `q` changes hands: those of other pages and of
other blocks, the order of the page and the mark of the block. -/
structure BlockFrame (m m' : Mem) (q o b : ℕ) : Prop where
  outside : ∀ a, a < q ∨ q + 4096 ≤ a → m' a = m a
  blocks : ∀ c, IsSlot q o c → c ≠ b → ∀ d, d = 0 ∨ d = 4 ∨ d = 8 → m' (c + d) = m (c + d)
  order : m' (q + 8) = m (q + 8)
  mark : m' (b + 4) = m (b + 4)

section Frame
variable {m' : Mem}

theorem BlockFrame.of_writes (ho : o < 8) (hb : IsSlot q o b)
    (h : ∀ a, a ≠ q → a ≠ q + 4 → a ≠ q + 12 → a ≠ b → a ≠ b + 8 → m' a = m a) :
    BlockFrame m m' q o b := by
  have hsz := (class_bounds ho).1
  have hbb := hb.bounds ho
  refine ⟨fun a ha => ?_, fun c hc hne d hd => ?_, ?_, ?_⟩
  · apply h <;> omega
  · have hcb := hc.bounds ho
    have hap := hc.apart hb hne
    apply h <;> omega
  · apply h <;> omega
  · apply h <;> omega

theorem BlockFrame.magic (hf : BlockFrame m m' q o b)
    (hp : PageLayout m q o chain) (hc : IsSlot q o c) : m' (c + 4) = blockMagic := by
  by_cases hne : c = b
  · subst hne
    exact hf.mark.trans (hp.magic c hc)
  · exact (hf.blocks c hc hne 4 (by simp)).trans (hp.magic c hc)

theorem BlockFrame.free (hf : BlockFrame m m' q o b)
    (hp : PageLayout m q o chain) (hc : c ∈ chain) (hne : c ≠ b) : m' c = mfFree := by
  have hword := hf.blocks c (hp.slots c hc) hne 0 (by simp)
  rw [Nat.add_zero] at hword
  exact hword.trans (hp.free c hc)

theorem BlockFrame.held (hh : Holds h v live)
    (hq : q ∈ h.pages) (hf : BlockFrame h.mem h'.mem q (v.order q) b)
    (hpages : h'.pages = h.pages)
    (hbs : ∀ c, c ≠ b → c ∉ v.chain q → c ∉ bs) (hx : Held h v x)
    (hne : ∀ r ∈ h.pages, ∀ c, x.1 = c + headerSize → IsSlot r (v.order r) c → c ∉ v.chain r →
      c ≠ b) :
    Held h' (v.edit q bs pages) x := by
  refine hx.edit hpages (fun r hr c hxc hcs hfree => ?_)
  have hcne := hne r hr c hxc hcs hfree
  by_cases hrq : r = q
  · subst hrq
    exact ⟨fun _ => hbs c hcne hfree, by simpa using hf.blocks c hcs hcne 0 (by simp),
      hf.blocks c hcs hcne 8 (by simp)⟩
  · have hcb := hcs.bounds (hh.order r hr)
    have hsz := (class_bounds (hh.order r hr)).1
    have hout := hh.outside hq hr hrq
    exact ⟨fun h => absurd h hrq, hf.outside c (by omega), hf.outside (c + 8) (by omega)⟩

end Frame

theorem counts_other (hsize : getOrder size = some o) (hne : o' ≠ o) (p : ℕ) (live : List (ℕ × ℕ)) :
    blocksOf o' ((p, size) :: live) = blocksOf o' live ∧
      bytesOf o' ((p, size) :: live) = bytesOf o' live := by
  have hno : getOrder size ≠ some o' := by
    rw [hsize]
    exact fun h => hne (Option.some.inj h).symm
  rw [blocksOf_cons, bytesOf_cons, if_neg hno, if_neg hno]
  exact ⟨rfl, rfl⟩

theorem takeBlock_mem (hn : sub32 (h.mem (q + 12)) 1 = n) (a : ℕ) :
    (takeBlock h o q b size).mem a =
      if a = b + 8 then size else if a = b then mfUsed
      else if a = q ∧ n = 0 then 0 else if a = q + 12 then n
      else if a = q + 4 then h.mem (b + 8) else h.mem a := by
  unfold takeBlock
  simp only [hn]
  by_cases hz : n = 0
  · simp only [hz, if_true, store_apply, and_true]
  · simp only [hz, if_false, store_apply, and_false]

theorem takeBlock_firstfree (hn : sub32 (h.mem (q + 12)) 1 = n) :
    ((takeBlock h o q b size).sizes o).firstfree =
      if n = 0 then h.mem q else (h.sizes o).firstfree := by
  unfold takeBlock
  simp only [hn, Function.update_self]
  by_cases hz : n = 0
  · simp [hz, store_apply]
  · simp [hz]

theorem takeBlock_sizes_ne (h : Heap) (q b size : ℕ) (hne : o' ≠ o) :
    (takeBlock h o q b size).sizes o' = h.sizes o' := by
  unfold takeBlock
  exact Function.update_of_ne hne _ _

theorem takeBlock_counts (h : Heap) (o q b size : ℕ) :
    ((takeBlock h o q b size).sizes o).nmallocs = (h.sizes o).nmallocs + 1 ∧
    ((takeBlock h o q b size).sizes o).nfrees = (h.sizes o).nfrees ∧
    ((takeBlock h o q b size).sizes o).nbytesmalloced =
      (h.sizes o).nbytesmalloced + BitVec.ofNat 32 size := by
  unfold takeBlock
  simp only [Function.update_self, and_self]

theorem Holds.take (hh : Holds h v live) (ho : o < 8) {rest : List ℕ} (ha : v.avail o = q :: rest)
    (hc : v.chain q = b :: bs) (hsize : getOrder size = some o) :
    Holds (takeBlock h o q b size) (v.edit q bs (if bs = [] then rest else q :: rest))
      ((b + headerSize, size) :: live) := by
  obtain ⟨hq, rfl, -⟩ := (hh.avail o ho q).mp (by simp [ha])
  have hpage := hh.page q hq
  have hlen := hpage.length_le
  have hlinks := hpage.links
  have hnodup := hlinks.nodup
  have hslots := hpage.slots
  have hqueue := hh.queue _ ho
  rw [hc] at hlen hlinks hnodup hslots
  rw [ha] at hqueue
  obtain ⟨hsz, -, -, -, hnb⟩ := class_bounds ho
  have hb := hslots b (by simp)
  have hbb := hb.bounds ho
  have hbbs : ∀ c ∈ bs, c ≠ b := by
    rintro c hcm rfl
    exact (List.nodup_cons.mp hnodup).1 hcm
  have hqrest : q ∉ rest := (List.nodup_cons.mp hqueue.nodup).1
  have hn : sub32 (h.mem (q + 12)) 1 = bs.length := by
    rw [List.length_cons] at hlen
    rw [hpage.nfree, hc, List.length_cons, sub32_of_le (by omega) (by omega)]
    omega
  have hmem := @takeBlock_mem h b _ (v.order q) q size hn
  -- A block in use is not the free block `b`, on whichever page it lies.
  have hused : ∀ r ∈ h.pages, ∀ c, IsSlot r (v.order r) c → c ∉ v.chain r → c ≠ b := by
    rintro r hr c hcs hfree rfl
    have hcb := hcs.bounds (hh.order r hr)
    have hsz' := (class_bounds (hh.order r hr)).1
    have hrq := hh.page_eq (a := c) hr hq (by omega) (by omega)
    subst hrq
    rw [hc] at hfree
    exact hfree List.mem_cons_self
  have hframe : BlockFrame h.mem (takeBlock h (v.order q) q b size).mem q (v.order q) b := by
    refine .of_writes ho hb fun a h0 h4 h12 hab hab8 => ?_
    rw [hmem, if_neg (by omega), if_neg (by omega), if_neg (by omega), if_neg (by omega),
      if_neg (by omega)]
  obtain ⟨hcm, hcf, hcb⟩ := takeBlock_counts h (v.order q) q b size
  refine hh.edit hq rfl hframe.outside ?_ ?_ ?_ (fun o' hne => takeBlock_sizes_ne h q b size hne)
    ?_ ?_ ?_ ?_ (fun o' hne => counts_other hsize hne _ live)
  · refine ⟨hframe.order.trans hpage.order, ?_, ?_, ?_, fun c hcm => hslots c (by simp [hcm]),
      fun c hcm => hframe.free hpage (by simp [hc, hcm]) (hbbs c hcm), fun c => hframe.magic hpage⟩
    · rw [hmem, if_neg (by omega), if_neg (by omega), if_neg (by omega), if_pos rfl]
    · rw [hmem, if_neg (by omega), if_neg (by omega), if_neg (by omega), if_neg (by omega),
        if_pos rfl]
      exact hlinks.2.2.congr
        (fun c hcm => hframe.blocks c (hslots c (by simp [hcm])) (hbbs c hcm) 8 (by simp))
    · intro hbs
      rw [hmem, if_neg (by omega), if_neg (by omega), if_pos (by simp [hbs])]
  · rw [takeBlock_firstfree hn, hqueue.1]
    have htail : Chain 0 (takeBlock h (v.order q) q b size).mem (h.mem q) rest := by
      refine hqueue.2.2.congr (fun r hr => hframe.outside r ?_)
      have hrp := ((hh.avail _ ho r).mp (by simp [ha, hr])).1
      have hne : r ≠ q := by
        rintro rfl
        exact hqrest hr
      have hapart := hh.outside hq hrp hne
      omega
    by_cases hbs : bs = []
    · simpa [hbs] using htail
    · rw [if_neg hbs, if_neg (by simpa using hbs)]
      refine ⟨rfl, hqueue.2.1, ?_⟩
      rw [hmem, if_neg (by omega), if_neg (by omega), if_neg (by simpa using hbs),
        if_neg (by omega), if_neg (by omega)]
      exact htail
  · intro r
    rw [ha]
    by_cases hrq : r = q
    · subst hrq
      by_cases hbs : bs = [] <;> simp [hbs, hqrest]
    · by_cases hbs : bs = [] <;> simp [hbs, hrq]
  · intro x hx
    rcases List.mem_cons.mp hx with rfl | hx
    · refine ⟨q, hq, b, rfl, hb, ?_, hsize, ?_, ?_⟩
      · simpa [View.edit] using fun hbm => hbbs b hbm rfl
      · rw [hmem, if_neg (by omega), if_pos rfl]
      · rw [hmem, if_pos rfl]
    · refine hframe.held hh hq rfl (fun c _ hfree hbm => hfree ?_) (hh.held x hx)
        (fun r hr c _ hcs hfree => hused r hr c hcs hfree)
      rw [hc]
      exact List.mem_cons_of_mem b hbm
  · refine List.nodup_cons.mpr ⟨?_, hh.once⟩
    intro hmem'
    obtain ⟨x, hx, hxp⟩ := List.mem_map.mp hmem'
    obtain ⟨r, hr, c, hxc, hcs, hfree, -⟩ := hh.held x hx
    exact hused r hr c hcs hfree (by omega)
  · rw [hcm, hcf, blocksOf_cons, if_pos hsize, BitVec.ofNat_add, ← hh.count _ ho]
    grind
  · rw [hcb, bytesOf_cons, if_pos hsize, BitVec.ofNat_add, hh.bytes _ ho]

theorem giveBlock_mem (hb : q + 16 ≤ b)
    (hn : add32 (h.mem (q + 12)) 1 = n) (hz : n = 1 → h.mem q = 0) (a : ℕ) :
    (giveBlock h b q o).mem a =
      if a = q ∧ n = 1 then (h.sizes o).firstfree else if a = q + 12 then n
      else if a = q + 4 then b else if a = b + 8 then h.mem (q + 4)
      else if a = b then mfFree else h.mem a := by
  have h12 : q + 12 ≠ b + 8 ∧ q + 12 ≠ b ∧ q + 4 ≠ b := by omega
  have h0 : q ≠ q + 12 ∧ q ≠ q + 4 ∧ q ≠ b + 8 ∧ q ≠ b := by omega
  simp only [giveBlock, store_apply, h12, h0, if_false, hn]
  by_cases h1 : n = 1
  · simp only [h1, hz h1, and_self, if_true, store_apply, and_true]
  · simp only [h1, false_and, and_false, if_false, store_apply]

theorem giveBlock_firstfree (hb : q + 16 ≤ b)
    (hn : add32 (h.mem (q + 12)) 1 = n) (hz : n = 1 → h.mem q = 0) :
    ((giveBlock h b q o).sizes o).firstfree = if n = 1 then q else (h.sizes o).firstfree := by
  have h12 : q + 12 ≠ b + 8 ∧ q + 12 ≠ b ∧ q + 4 ≠ b := by omega
  have h0 : q ≠ q + 12 ∧ q ≠ q + 4 ∧ q ≠ b + 8 ∧ q ≠ b := by omega
  simp only [giveBlock, store_apply, h12, h0, if_false, hn, Function.update_self]
  by_cases h1 : n = 1
  · simp only [h1, hz h1, and_self, if_true]
  · simp only [h1, false_and, if_false]

theorem giveBlock_sizes_ne (h : Heap) (q b : ℕ) (hne : o' ≠ o) :
    (giveBlock h b q o).sizes o' = h.sizes o' := by
  unfold giveBlock
  exact Function.update_of_ne hne _ _

theorem giveBlock_counts (h : Heap) (o q b : ℕ) :
    ((giveBlock h b q o).sizes o).nmallocs = (h.sizes o).nmallocs ∧
    ((giveBlock h b q o).sizes o).nfrees = (h.sizes o).nfrees + 1 ∧
    ((giveBlock h b q o).sizes o).nbytesmalloced =
      (h.sizes o).nbytesmalloced - BitVec.ofNat 32 (h.mem (b + 8)) := by
  unfold giveBlock
  simp only [Function.update_self, and_self]

theorem Holds.give (hh : Holds h v ((b + headerSize, size) :: live)) (hq : q ∈ h.pages)
    (hb : IsSlot q (v.order q) b) (hfree : b ∉ v.chain q)
    (hsize : getOrder size = some (v.order q)) (hlen : h.mem (b + 8) = size) :
    Holds (giveBlock h b q (v.order q)) (v.edit q (b :: v.chain q)
      (if v.chain q = [] then q :: v.avail (v.order q) else v.avail (v.order q))) live := by
  have ho := hh.order q hq
  have hpage := hh.page q hq
  have hcount := hpage.length_le
  have hqueue := hh.queue _ ho
  obtain ⟨hsz, -, -, -, hnb⟩ := class_bounds ho
  have hbb := hb.bounds ho
  have hslots : ∀ c ∈ v.chain q, IsSlot q (v.order q) c ∧ c ≠ b := by
    intro c hcm
    refine ⟨hpage.slots c hcm, ?_⟩
    rintro rfl
    exact hfree hcm
  have hn : add32 (h.mem (q + 12)) 1 = (v.chain q).length + 1 := by
    rw [hpage.nfree, add32_of_lt (by omega)]
  have hz : (v.chain q).length + 1 = 1 → h.mem q = 0 := fun h1 =>
    hpage.unlinked (List.eq_nil_of_length_eq_zero (by omega))
  have hiff : (v.chain q).length + 1 = 1 ↔ v.chain q = [] := by simp
  have hmem := fun a => giveBlock_mem (o := v.order q) hbb.1 hn hz a
  have hframe : BlockFrame h.mem (giveBlock h b q (v.order q)).mem q (v.order q) b := by
    refine .of_writes ho hb fun a h0 h4 h12 hab hab8 => ?_
    rw [hmem, if_neg (by omega), if_neg (by omega), if_neg (by omega), if_neg (by omega),
      if_neg (by omega)]
  have honce := hh.once
  rw [List.map_cons, List.nodup_cons] at honce
  obtain ⟨hcm, hcf, hcb⟩ := giveBlock_counts h (v.order q) q b
  refine hh.edit hq rfl hframe.outside ?_ ?_ ?_ (fun o' hne => giveBlock_sizes_ne h q b hne)
    (fun x hx => ?_) honce.2 ?_ ?_
    (fun o' hne => (counts_other hsize hne _ live).imp Eq.symm Eq.symm)
  · refine ⟨hframe.order.trans hpage.order, ?_, ?_, by simp, ?_, ?_, fun c => hframe.magic hpage⟩
    · rw [hmem, if_neg (by omega), if_pos rfl, List.length_cons]
    · rw [hmem, if_neg (by omega), if_neg (by omega), if_pos rfl]
      refine ⟨rfl, by omega, ?_⟩
      change Chain 0 _ ((giveBlock h b q (v.order q)).mem (b + 8)) _
      rw [hmem, if_neg (by omega), if_neg (by omega), if_neg (by omega), if_pos rfl]
      exact hpage.links.congr
        (fun c hcm => hframe.blocks c (hslots c hcm).1 (hslots c hcm).2 8 (by simp))
    · intro c hcm
      rcases List.mem_cons.mp hcm with rfl | hcm
      · exact hb
      · exact (hslots c hcm).1
    · intro c hcm
      rcases List.mem_cons.mp hcm with rfl | hcm
      · rw [hmem, if_neg (by omega), if_neg (by omega), if_neg (by omega), if_neg (by omega),
          if_pos rfl]
      · exact hframe.free hpage hcm (hslots c hcm).2
  · rw [giveBlock_firstfree hbb.1 hn hz]
    have hqnot : v.chain q = [] → q ∉ v.avail (v.order q) :=
      fun hc hqm => ((hh.avail _ ho q).mp hqm).2.2 hc
    have hkept : ∀ r ∈ v.avail (v.order q), r ≠ q →
        (giveBlock h b q (v.order q)).mem r = h.mem r := by
      intro r hr hne
      have hapart := hh.outside hq ((hh.avail _ ho r).mp hr).1 hne
      exact hframe.outside r (by omega)
    by_cases hc : v.chain q = []
    · rw [if_pos hc, if_pos (hiff.mpr hc)]
      refine ⟨rfl, hh.ne_zero hq, ?_⟩
      rw [hmem, if_pos ⟨rfl, hiff.mpr hc⟩]
      refine hqueue.congr (fun r hr => hkept r hr ?_)
      rintro rfl
      exact hqnot hc hr
    · rw [if_neg hc, if_neg (fun h1 => hc (hiff.mp h1))]
      refine hqueue.congr (fun r hr => ?_)
      by_cases hrq : r = q
      · subst hrq
        rw [hmem, if_neg (fun h => hc (hiff.mp h.2)), if_neg (by omega), if_neg (by omega),
          if_neg (by omega), if_neg (by omega)]
      · exact hkept r hr hrq
  · intro r
    by_cases hrq : r = q
    · subst hrq
      rw [if_pos rfl]
      by_cases hc : v.chain r = []
      · simp [hc]
      · simp [hc, (hh.avail _ ho r).mpr ⟨hq, rfl, hc⟩]
    · rw [if_neg hrq]
      by_cases hc : v.chain q = [] <;> simp [hc, hrq]
  · refine hframe.held hh hq rfl (fun c hne hcfree => ?_) (hh.held x (by simp [hx])) ?_
    · simp [hne, hcfree]
    · rintro r - c hxc - - rfl
      exact honce.1 (List.mem_map.mpr ⟨x, hx, hxc⟩)
  · have hold := hh.count _ ho
    rw [blocksOf_cons, if_pos hsize, BitVec.ofNat_add] at hold
    rw [hcm, hcf]
    grind
  · have hold := hh.bytes _ ho
    rw [bytesOf_cons, if_pos hsize, BitVec.ofNat_add] at hold
    rw [hcb, hold, hlen]
    grind

end Bingos.Kmalloc
