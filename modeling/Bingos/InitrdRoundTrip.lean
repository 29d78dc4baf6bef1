import Bingos.InitrdModel

set_option autoImplicit false

/-! What the kernel reads from a ramdisk image is what the tool put in. -/
namespace Bingos.Initrd

open CStrings ByteMemory

structure Header.Describes (h : Header) (f : HostFile) (off : ℕ) : Prop where
  name : ∃ old, h.name = f.name ++ 0 :: old
  length : h.length = f.content.length
  offset : h.offset = off

def contentsBefore (files : List HostFile) (i : ℕ) : Bytes := (files.take i).flatMap HostFile.content

theorem Header.fill_describes (h : Header) {f : HostFile} (off : ℕ)
    (hlen : f.content.length < 2 ^ 32) : (h.fill f off).Describes f off :=
  ⟨⟨_, rfl⟩, Nat.mod_eq_of_lt hlen, rfl⟩

theorem length_contentsBefore_cons (f : HostFile) (files : List HostFile) (i : ℕ) :
    (contentsBefore (f :: files) (i + 1)).length =
      f.content.length + (contentsBefore files i).length := by
  simp [contentsBefore]

variable {files : List HostFile} {i offset size : ℕ} {hs stack : List Header} {r : Ramdisk}

theorem fillHeaders_spec (off : ℕ) (hslots : files.length ≤ stack.length)
    (hfit : off + (contentsBefore files files.length).length < 2 ^ 32) :
    ∃ filled, fillHeaders off files stack = filled ++ stack.drop files.length ∧
      filled.length = files.length ∧
      ∀ i (hi : i < files.length) (hf : i < filled.length),
        filled[i].Describes files[i] (off + (contentsBefore files i).length) := by
  induction files generalizing off stack with
  | nil => exact ⟨[], rfl, rfl, fun i hi => absurd hi (Nat.not_lt_zero i)⟩
  | cons f files ih =>
    cases stack with
    | nil => simp at hslots
    | cons h stack =>
      rw [List.length_cons, length_contentsBefore_cons] at hfit
      have hfill := h.fill_describes off (f := f) (by omega)
      have hnext : (off + (h.fill f off).length) % 2 ^ 32 = off + f.content.length := by
        rw [hfill.length]
        exact Nat.mod_eq_of_lt (by omega)
      obtain ⟨filled, heq, hlen, hdesc⟩ := ih (off + f.content.length)
        (Nat.le_of_succ_le_succ hslots) (by omega)
      refine ⟨h.fill f off :: filled, ?_, by simp [hlen], ?_⟩
      · rw [fillHeaders, hnext, heq]
        rfl
      · intro i hi hf
        cases i with
        | zero => exact hfill
        | succ i =>
          have hi' := hdesc i (Nat.lt_of_succ_lt_succ hi) (Nat.lt_of_succ_lt_succ hf)
          rw [length_contentsBefore_cons, ← Nat.add_assoc]
          exact hi'

theorem contents_split (hi : i < files.length) :
    contentsBefore files files.length =
      contentsBefore files i ++
        (files[i].content ++ (files.drop (i + 1)).flatMap HostFile.content) := by
  rw [contentsBefore, contentsBefore, List.take_length, ← List.flatMap_cons, ← List.flatMap_append,
    ← List.drop_eq_getElem_cons hi, List.take_append_drop]

def imageOf (n : ℕ) (headers : List Header) (contents : Bytes) : Bytes :=
  toLE 4 n ++ (headers.flatMap Header.bytes ++ contents)

@[simp] theorem length_bytes (h : Header) : h.bytes.length = headerSize := by
  simp [Header.bytes, h.length_name, h.length_padding, headerSize]

theorem length_flatMap_bytes (hs : List Header) :
    (hs.flatMap Header.bytes).length = headerSize * hs.length := by
  simp [Nat.mul_comm]

theorem length_imageOf (n : ℕ) (hs : List Header) (contents : Bytes) :
    (imageOf n hs contents).length = 4 + headerSize * hs.length + contents.length := by
  rw [imageOf, List.length_append, List.length_append, length_toLE, length_flatMap_bytes,
    Nat.add_assoc]

def Holds (m : Memory) (location n : ℕ) (hs : List Header) (contents : Bytes) : Prop :=
  load m location (imageOf n hs contents).length = imageOf n hs contents

section Fields

variable {m : Memory} {location n : ℕ} {pre post : List Header} {h : Header} {contents : Bytes}

theorem Holds.count (hm : Holds m location n hs contents) (hn : n < 2 ^ 32) :
    load32 m location = n := by
  have hload := load_part (A := []) (x := toLE 4 n) (B := hs.flatMap Header.bytes ++ contents) hm
  rw [List.length_nil, Nat.add_zero, length_toLE] at hload
  rw [load32, hload]
  exact ofLE_toLE_of_lt hn

theorem Holds.header (hm : Holds m location n (pre ++ h :: post) contents) :
    load m (headerAddress ((location + 4) % 2 ^ 32) pre.length) headerSize = h.bytes := by
  have himage : imageOf n (pre ++ h :: post) contents =
      (toLE 4 n ++ pre.flatMap Header.bytes) ++
        (h.bytes ++ (post.flatMap Header.bytes ++ contents)) := by
    simp [imageOf]
  rw [Holds, himage] at hm
  have hload := load_part hm
  rw [length_bytes] at hload
  rw [← hload]
  apply load_congr
  rw [headerAddress, List.length_append, length_toLE, length_flatMap_bytes]
  omega

theorem Holds.header_getElem (hm : Holds m location n hs contents) (hi : i < hs.length) :
    load m (headerAddress ((location + 4) % 2 ^ 32) i) headerSize = hs[i].bytes := by
  have hsplit : hs = hs.take i ++ hs[i] :: hs.drop (i + 1) := by
    rw [← List.drop_eq_getElem_cons hi, List.take_append_drop]
  rw [hsplit] at hm
  have hload := hm.header
  rwa [List.length_take, Nat.min_eq_left hi.le] at hload

theorem Holds.setOffset (hm : Holds m location n (pre ++ h :: post) contents)
    (hlen : (imageOf n (pre ++ h :: post) contents).length ≤ 2 ^ 32) (v : ℕ) :
    Holds (store32 m (headerAddress ((location + 4) % 2 ^ 32) pre.length + 68) v) location n
      (pre ++ { h with offset := v } :: post) contents := by
  have himage : ∀ g : Header, g.magic :: (g.name ++ g.padding) = h.magic :: (h.name ++ h.padding) →
      imageOf n (pre ++ g :: post) contents =
        (toLE 4 n ++ (pre.flatMap Header.bytes ++ (h.magic :: (h.name ++ h.padding)))) ++
          (toLE 4 g.offset ++ (toLE 4 g.length ++ (post.flatMap Header.bytes ++ contents))) := by
    intro g hg
    simp [imageOf, Header.bytes, ← hg]
  have haddress : (headerAddress ((location + 4) % 2 ^ 32) pre.length + 68) % 2 ^ 32 =
      (location + (toLE 4 n ++ (pre.flatMap Header.bytes ++
        (h.magic :: (h.name ++ h.padding)))).length) % 2 ^ 32 := by
    simp only [headerAddress, List.length_append, length_toLE, length_flatMap_bytes,
      List.length_cons, h.length_name, h.length_padding]
    omega
  rw [Holds, himage h rfl] at hm
  rw [himage h rfl] at hlen
  rw [Holds, himage { h with offset := v } rfl, store32, store_congr m _ haddress]
  exact load_store_part hm (by simp) hlen

variable {a : ℕ} (hb : load m a headerSize = h.bytes)
include hb

theorem load_header_name {c old : Bytes} (hname : h.name = c ++ 0 :: old) (hc : 0 ∉ c)
    {room : ℕ} (hroom : c.length < room) : loadCString m (a + 1) room = some c := by
  apply loadCString_eq hc ?_ hroom
  apply load_part (A := [h.magic]) (B := old ++ (h.padding ++ (toLE 4 h.offset ++ toLE 4 h.length)))
  rw [hb, Header.bytes, hname]
  simp

theorem load_header_offset : load32 m (a + 68) = h.offset % 2 ^ 32 := by
  have hload := load_part hb
  simp only [List.length_cons, List.length_append, h.length_name, h.length_padding,
    length_toLE] at hload
  rw [load32, hload, ofLE_toLE_four]

theorem load_header_length : load32 m (a + 72) = h.length % 2 ^ 32 := by
  have hload := load_part (A := (h.magic :: (h.name ++ h.padding)) ++ toLE 4 h.offset)
    (x := toLE 4 h.length) (B := []) (hb.trans (by simp [Header.bytes]))
  simp only [List.length_cons, List.length_append, h.length_name, h.length_padding,
    length_toLE] at hload
  rw [load32, hload, ofLE_toLE_four]

end Fields

def Header.rebase (location : ℕ) (h : Header) : Header :=
  { h with offset := (h.offset % 2 ^ 32 + location) % 2 ^ 32 }

def nodesOf (files : List HostFile) : List Node :=
  files.mapIdx fun i f => ⟨f.name, f.content.length, i⟩

/-- A finished image: the headers of the files, the unused ones and the contents. -/
structure Written (files : List HostFile) (filled unused : List Header) (contents : Bytes) :
    Prop where
  length : filled.length = files.length
  slots : (filled ++ unused).length = headerSlots
  contents_eq : contents = contentsBefore files files.length
  describes : ∀ i (hi : i < files.length) (hf : i < filled.length),
    filled[i].Describes files[i] (headerSize * headerSlots + 4 + (contentsBefore files i).length)
  fits : (imageOf files.length (filled ++ unused) contents).length < 2 ^ 32

section Init

variable {m : Memory} {location : ℕ} {filled unused : List Header} {contents : Bytes}

def rebased (location : ℕ) (filled : List Header) (i : ℕ) : List Header :=
  (filled.take i).map (Header.rebase location) ++ filled.drop i

theorem rebased_split (location : ℕ) (hi : i < filled.length) :
    rebased location filled i ++ unused =
      (filled.take i).map (Header.rebase location) ++
        filled[i] :: (filled.drop (i + 1) ++ unused) := by
  rw [rebased, List.drop_eq_getElem_cons hi, List.append_assoc, List.cons_append]

theorem rebased_succ (location : ℕ) (hi : i < filled.length) :
    rebased location filled (i + 1) ++ unused =
      (filled.take i).map (Header.rebase location) ++
        filled[i].rebase location :: (filled.drop (i + 1) ++ unused) := by
  rw [rebased, List.take_succ_eq_append_getElem hi, List.map_append]
  simp

theorem length_rebased (location : ℕ) (filled : List Header) (i : ℕ) :
    (rebased location filled i).length = filled.length := by
  simp only [rebased, List.length_append, List.length_map, List.length_take, List.length_drop]
  omega

theorem nodesOf_take_succ (hi : i < files.length) :
    nodesOf (files.take (i + 1)) =
      nodesOf (files.take i) ++ [⟨files[i].name, files[i].content.length, i⟩] := by
  rw [nodesOf, nodesOf, List.take_succ_eq_append_getElem hi, List.mapIdx_concat, List.length_take,
    Nat.min_eq_left hi.le]

structure Progress (location : ℕ) (files : List HostFile) (filled unused : List Header)
    (contents : Bytes) (i : ℕ) (r : Ramdisk) : Prop where
  holds : Holds r.mem location files.length (rebased location filled i ++ unused) contents
  fileHeaders : r.fileHeaders = (location + 4) % 2 ^ 32
  rootNodes : r.rootNodes = nodesOf (files.take i)

variable (hw : Written files filled unused contents)
include hw

theorem Written.content_lt (hi : i < files.length) : files[i].content.length < 2 ^ 32 := by
  have hfits := hw.fits
  rw [length_imageOf, hw.contents_eq, contents_split hi] at hfits
  simp only [List.length_append] at hfits
  omega

theorem Written.count_lt : files.length < 2 ^ 32 := by
  have hslots := hw.slots
  rw [List.length_append, hw.length, headerSlots] at hslots
  omega

theorem Written.fits_rebased (location i : ℕ) :
    (imageOf files.length (rebased location filled i ++ unused) contents).length < 2 ^ 32 := by
  have hfits := hw.fits
  rw [length_imageOf, List.length_append] at hfits ⊢
  rwa [length_rebased]

/-- One round: the header is rebased in memory and its node is made. -/
theorem Progress.step
    (hp : Progress location files filled unused contents i r) (hi : i < files.length) :
    let m := store32 r.mem (headerAddress r.fileHeaders i + 68)
      ((headerOffset r.mem r.fileHeaders i + location) % 2 ^ 32)
    loadCString m (headerAddress r.fileHeaders i + 1) nodeNameSize = some files[i].name ∧
      Progress location files filled unused contents (i + 1)
        ⟨m, r.fileHeaders,
          r.rootNodes ++ [⟨files[i].name, headerLength m r.fileHeaders i, i⟩]⟩ := by
  intro m
  have hf : i < filled.length := by
    rw [hw.length]
    exact hi
  have hdesc := hw.describes i hi hf
  have hpre : ((filled.take i).map (Header.rebase location)).length = i := by
    rw [List.length_map, List.length_take, Nat.min_eq_left hf.le]
  have hm := hp.holds
  have hlen := (hw.fits_rebased location i).le
  rw [rebased_split location hf] at hm hlen
  have hbytes := hm.header
  have hset := hm.setOffset hlen ((headerOffset r.mem r.fileHeaders i + location) % 2 ^ 32)
  rw [hpre, ← hp.fileHeaders] at hbytes hset
  have hoffset : headerOffset r.mem r.fileHeaders i = filled[i].offset % 2 ^ 32 :=
    load_header_offset hbytes
  have hheader : { filled[i] with
      offset := (headerOffset r.mem r.fileHeaders i + location) % 2 ^ 32 } =
        filled[i].rebase location := by
    rw [hoffset]
    rfl
  rw [hheader] at hset
  have hbytes' := hset.header
  rw [hpre, ← hp.fileHeaders] at hbytes'
  obtain ⟨old, hname⟩ := hdesc.name
  have hshort := files[i].name_short
  refine ⟨load_header_name hbytes' hname files[i].nulFree (by rw [nodeNameSize]; omega), ?_, ?_, ?_⟩
  · rw [rebased_succ location hf]
    exact hset
  · exact hp.fileHeaders
  · have hlength : headerLength m r.fileHeaders i = files[i].content.length := by
      refine (load_header_length hbytes').trans ?_
      change filled[i].length % 2 ^ 32 = _
      rw [hdesc.length, Nat.mod_eq_of_lt (hw.content_lt hi)]
    rw [nodesOf_take_succ hi, hp.rootNodes, hlength]

theorem initLoop_spec {fuel : ℕ} (hp : Progress location files filled unused contents i r)
    (hi : i ≤ files.length) (hfuel : files.length - i < fuel) :
    ∃ r', initLoop location fuel i r = some r' ∧
      Progress location files filled unused contents files.length r' := by
  induction fuel generalizing i r with
  | zero => omega
  | succ fuel ih =>
    rw [initLoop, hp.holds.count hw.count_lt]
    rcases Nat.eq_or_lt_of_le hi with heq | hlt
    · subst heq
      exact ⟨r, by rw [if_neg (Nat.lt_irrefl _)], hp⟩
    · obtain ⟨hname, hnext⟩ := hp.step hw hlt
      rw [if_pos hlt]
      simp only [hname, Option.bind_some]
      exact ih hnext hlt (by omega)

theorem initrdInit_spec (hm : Holds m location files.length (filled ++ unused) contents) :
    ∃ r, initrdInit m location = some r ∧
      Progress location files filled unused contents files.length r := by
  have hstart : Progress location files filled unused contents 0
      ⟨m, (location + 4) % 2 ^ 32, []⟩ := ⟨hm, rfl, rfl⟩
  rw [initrdInit, hm.count hw.count_lt]
  exact initLoop_spec hw hstart (Nat.zero_le _) (by omega)

end Init

section Reading

variable {location : ℕ} {filled unused : List Header} {contents : Bytes}

def fileNode (files : List HostFile) (i : ℕ) (hi : i < files.length) : Node :=
  ⟨files[i].name, files[i].content.length, i⟩

theorem initrdFinddir_eq (hp : Progress location files filled unused contents files.length r)
    (hdistinct : (files.map HostFile.name).Nodup) (hi : i < files.length) :
    initrdFinddir r files[i].name = some (fileNode files i hi) := by
  rw [initrdFinddir, hp.rootNodes, List.take_length, List.find?_eq_some_iff_getElem]
  refine ⟨by simp [fileNode], i, by simpa [nodesOf] using hi, by simp [nodesOf, fileNode], ?_⟩
  intro j hj
  have hne : files[i].name ≠ files[j].name := by
    intro heq
    have hi' : i < (files.map HostFile.name).length := by simpa using hi
    have hj' : j < (files.map HostFile.name).length := by omega
    have heq' : (files.map HostFile.name)[i] = (files.map HostFile.name)[j] := by simpa using heq
    have hij := hdistinct.getElem_inj_iff.mp heq'
    omega
  simpa [nodesOf] using hne

variable (hw : Written files filled unused contents)
  (hp : Progress location files filled unused contents files.length r)
include hw hp

theorem Progress.header (hi : i < files.length) :
    headerLength r.mem r.fileHeaders i = files[i].content.length ∧
      headerOffset r.mem r.fileHeaders i =
        (headerSize * headerSlots + 4 + (contentsBefore files i).length + location) % 2 ^ 32 := by
  have hf : i < filled.length := by
    rw [hw.length]
    exact hi
  have hdesc := hw.describes i hi hf
  have hslot : i < (rebased location filled files.length ++ unused).length := by
    rw [List.length_append, length_rebased]
    omega
  have hget : (rebased location filled files.length ++ unused)[i] = filled[i].rebase location := by
    simp [rebased, ← hw.length, hf]
  have hbytes := hp.holds.header_getElem hslot
  rw [hget, ← hp.fileHeaders] at hbytes
  constructor
  · refine (load_header_length hbytes).trans ?_
    change filled[i].length % 2 ^ 32 = _
    rw [hdesc.length, Nat.mod_eq_of_lt (hw.content_lt hi)]
  · refine (load_header_offset hbytes).trans ?_
    change (filled[i].offset % 2 ^ 32 + location) % 2 ^ 32 % 2 ^ 32 = _
    rw [hdesc.offset]
    omega

theorem Progress.content (hi : i < files.length) (hend : offset + size ≤ files[i].content.length) :
    load r.mem ((headerOffset r.mem r.fileHeaders i + offset) % 2 ^ 32) size =
      (files[i].content.drop offset).take size := by
  obtain ⟨-, hoffset⟩ := hp.header hw hi
  have hslots := hw.slots
  have hx : ((files[i].content.drop offset).take size).length = size := by
    rw [List.length_take, List.length_drop]
    omega
  have hsplit : files[i].content = files[i].content.take offset ++
      ((files[i].content.drop offset).take size ++ (files[i].content.drop offset).drop size) := by
    rw [List.take_append_drop, List.take_append_drop]
  have himage : imageOf files.length (rebased location filled files.length ++ unused) contents =
      (toLE 4 files.length ++ ((rebased location filled files.length ++ unused).flatMap Header.bytes
        ++ (contentsBefore files i ++ files[i].content.take offset))) ++
      ((files[i].content.drop offset).take size ++ ((files[i].content.drop offset).drop size ++
        (files.drop (i + 1)).flatMap HostFile.content)) := by
    rw [imageOf, hw.contents_eq, contents_split hi]
    nth_rewrite 1 [hsplit]
    simp only [List.append_assoc]
  have hm := hp.holds
  rw [Holds, himage] at hm
  have hload := load_part hm
  rw [hx] at hload
  rw [← hload]
  apply load_congr
  rw [hoffset]
  simp only [List.length_append, length_toLE, length_flatMap_bytes, length_rebased,
    List.length_take, Nat.min_eq_left (show offset ≤ files[i].content.length by omega)] at hslots ⊢
  rw [hslots]
  omega

theorem initrdRead_eq (hi : i < files.length) (hsize : offset + size < 2 ^ 32) :
    initrdRead r (fileNode files i hi) offset size =
      ((files[i].content.drop offset).take size, ((files[i].content.drop offset).take size).length) := by
  obtain ⟨hlength, -⟩ := hp.header hw hi
  simp only [initrdRead, fileNode, hlength, Nat.mod_eq_of_lt hsize]
  split_ifs with hout hlong
  · simp [List.drop_eq_nil_of_le hout.le]
  · rw [hp.content hw hi (by omega)]
    have htake : (files[i].content.drop offset).take size = files[i].content.drop offset :=
      List.take_of_length_le (by rw [List.length_drop]; omega)
    rw [htake, List.take_of_length_le (by rw [List.length_drop]), List.length_drop]
  · rw [hp.content hw hi (by omega)]
    rw [List.length_take, List.length_drop, Nat.min_eq_left (by omega)]

def readChunks (r : Ramdisk) (node : Node) : ℕ → List ℕ → Bytes
  | _, [] => []
  | offset, size :: sizes =>
    (initrdRead r node offset size).1 ++
      readChunks r node (offset + (initrdRead r node offset size).2) sizes

theorem readChunks_eq (hi : i < files.length) {sizes : List ℕ}
    (hoff : offset ≤ files[i].content.length)
    (hsizes : ∀ k (hk : k < sizes.length),
      min (offset + (sizes.take k).sum) files[i].content.length + sizes[k] < 2 ^ 32) :
    readChunks r (fileNode files i hi) offset sizes =
      (files[i].content.drop offset).take sizes.sum := by
  induction sizes generalizing offset with
  | nil => rfl
  | cons size sizes ih =>
    have hfirst := hsizes 0 (by simp)
    simp only [List.take_zero, List.sum_nil, Nat.add_zero, List.getElem_cons_zero] at hfirst
    have hlen : ((files[i].content.drop offset).take size).length =
        min size (files[i].content.length - offset) := by
      rw [List.length_take, List.length_drop]
    -- A short read ends at the end of the file.
    have hrest : files[i].content.drop (offset + min size (files[i].content.length - offset)) =
        files[i].content.drop (offset + size) := by
      rcases Nat.le_total size (files[i].content.length - offset) with hle | hle
      · rw [Nat.min_eq_left hle]
      · rw [Nat.min_eq_right hle, List.drop_eq_nil_of_le (by omega),
          List.drop_eq_nil_of_le (by omega)]
    rw [readChunks, initrdRead_eq hw hp hi (by omega), hlen, ih (by omega), hrest, List.sum_cons,
      List.take_add, List.drop_drop]
    · intro k hk
      have hnext := hsizes (k + 1) (by simpa using hk)
      simp only [List.take_succ_cons, List.sum_cons, List.getElem_cons_succ] at hnext
      omega

end Reading

theorem initrdImage_written
    (hcount : files.length ≤ headerSlots) (hstack : stack.length = headerSlots)
    (hsize : 4 + headerSize * headerSlots + (files.map fun f => f.content.length).sum < 2 ^ 32) :
    ∃ filled unused contents, Written files filled unused contents ∧
      initrdImage files stack = imageOf files.length (filled ++ unused) contents := by
  have htotal : (contentsBefore files files.length).length =
      (files.map fun f => f.content.length).sum := by
    rw [contentsBefore, List.take_length, List.length_flatMap]
  obtain ⟨filled, heq, hlen, hdesc⟩ := fillHeaders_spec (headerSize * headerSlots + 4)
    (by rw [hstack]; exact hcount) (by rw [htotal]; omega)
  have hslots : (filled ++ stack.drop files.length).length = headerSlots := by
    rw [List.length_append, List.length_drop, hlen, hstack]
    omega
  have hcontents : (files.flatMap fun f => f.content.take (f.content.length % 2 ^ 32)) =
      contentsBefore files files.length := by
    rw [contentsBefore, List.take_length, List.flatMap_def, List.flatMap_def]
    congr 1
    refine List.map_congr_left fun f hf => ?_
    have hle := List.le_sum_of_mem (List.mem_map_of_mem (f := fun f => f.content.length) hf)
    rw [Nat.mod_eq_of_lt (by omega), List.take_length]
  refine ⟨filled, stack.drop files.length, contentsBefore files files.length,
    ⟨hlen, hslots, rfl, hdesc, ?_⟩, ?_⟩
  · rw [length_imageOf, hslots, htotal]
    exact hsize
  · rw [initrdImage, imageOf, heq, hcontents]

/-- Every file put into an image is found in it by its name, and every read of it gives its
bytes, wherever the image is loaded and whatever the tool's stack held. -/
theorem initrd_round_trip (files : List HostFile) (stack : List Header)
    (hcount : files.length ≤ headerSlots) (hstack : stack.length = headerSlots)
    (hdistinct : (files.map HostFile.name).Nodup)
    (hsize : 4 + headerSize * headerSlots + (files.map fun f => f.content.length).sum < 2 ^ 32)
    (m : Memory) (location : ℕ)
    (hload : load m location (initrdImage files stack).length = initrdImage files stack) :
    ∃ r, initrdInit m location = some r ∧ ∀ i (hi : i < files.length),
      ∃ node, initrdFinddir r files[i].name = some node ∧
        node.length = files[i].content.length ∧
        (∀ offset size, offset + size < 2 ^ 32 →
          initrdRead r node offset size = ((files[i].content.drop offset).take size,
            ((files[i].content.drop offset).take size).length)) ∧
        ∀ sizes : List ℕ, (∀ k (hk : k < sizes.length),
            min (sizes.take k).sum files[i].content.length + sizes[k] < 2 ^ 32) →
          readChunks r node 0 sizes = files[i].content.take sizes.sum := by
  obtain ⟨filled, unused, contents, hw, himage⟩ := initrdImage_written hcount hstack hsize
  rw [himage] at hload
  obtain ⟨r, hinit, hp⟩ := initrdInit_spec hw hload
  refine ⟨r, hinit, fun i hi => ⟨fileNode files i hi, initrdFinddir_eq hp hdistinct hi, rfl, ?_, ?_⟩⟩
  · intro offset size hos
    exact initrdRead_eq hw hp hi hos
  · intro sizes hsizes
    exact readChunks_eq hw hp hi (Nat.zero_le _) (by simpa using hsizes)

def blankHeader : Header := ⟨0, List.replicate 64 0, [0, 0, 0], 0, 0, by simp, rfl⟩

def smallFile : HostFile := ⟨[97], [7, 8], by decide, by decide⟩

theorem initrd_round_trip_small :
    ∃ m r node, initrdInit m 0x100000 = some r ∧ initrdFinddir r [97] = some node ∧
      initrdRead r node 1 5 = ([8], 1) := by
  have hstack : (List.replicate headerSlots blankHeader).length = headerSlots := by simp
  have hsize : 4 + headerSize * headerSlots +
      ([smallFile].map fun f => f.content.length).sum < 2 ^ 32 := by decide
  obtain ⟨filled, unused, contents, hw, himage⟩ :=
    initrdImage_written (by decide) hstack hsize
  obtain ⟨r, hinit, hfiles⟩ := initrd_round_trip [smallFile] (List.replicate headerSlots blankHeader)
    (by decide) hstack (by decide) hsize
    (store (fun _ => 0) 0x100000 (initrdImage [smallFile] (List.replicate headerSlots blankHeader)))
    0x100000 (load_store_self (by rw [himage]; exact hw.fits.le))
  obtain ⟨node, hfind, -, hread, -⟩ := hfiles 0 (by decide)
  exact ⟨_, r, node, hinit, hfind, hread 1 5 (by decide)⟩

end Bingos.Initrd
