import Bingos.AtaModel

set_option autoImplicit false

/-! The sector operations at the level of the ports: `ata_device_write_sector` of `modules/ata.c`
and `ide_read_sector` of `drivers/ide.c`, which `read_ata` uses, against a channel with two
drives. -/
namespace Bingos.AtaPorts
open Ata (ataSectorSize memcpy)

abbrev Word := UInt8 × UInt8

inductive Transfer where
  | none
  | toHost (words : List Word)
  | toDisk (slave : Bool) (lba total : ℕ) (words : List Word)

/-- The registers are shared by the drives, of which bit 4 of `hddevsel` selects one. The `n`-th
command keeps the channel busy for `delay n` reads of the status. -/
structure Channel where
  disk : Bool → ℕ → UInt8
  heads : Bool → ℕ
  perTrack : Bool → ℕ
  seccount : ℕ
  lba0 : ℕ
  lba1 : ℕ
  lba2 : ℕ
  hddevsel : ℕ
  delay : ℕ → ℕ
  commands : ℕ
  busy : ℕ
  transfer : Transfer

def Channel.slave (c : Channel) : Bool := c.hddevsel.testBit 4

/-- Bit 6 of `hddevsel` tells a block number from cylinder, head and sector. -/
def Channel.address (c : Channel) : ℕ :=
  if c.hddevsel.testBit 6 then
    c.hddevsel % 16 * 2 ^ 24 + c.lba2 * 2 ^ 16 + c.lba1 * 2 ^ 8 + c.lba0
  else
    ((c.lba2 * 2 ^ 8 + c.lba1) * c.heads c.slave + c.hddevsel % 16) * c.perTrack c.slave +
      c.lba0 - 1

def Channel.count (c : Channel) : ℕ := if c.seccount = 0 then 256 else c.seccount

def wordsAt (disk : ℕ → UInt8) (lba count : ℕ) : List Word :=
  (List.range (256 * count)).map fun i =>
    (disk (lba * ataSectorSize + 2 * i), disk (lba * ataSectorSize + (2 * i + 1)))

def byteAt (words : List Word) (i : ℕ) : UInt8 :=
  let w := words.getD (i / 2) (0, 0)
  if i % 2 = 0 then w.1 else w.2

def ataCmdReadPio : ℕ := 0x20

def ataCmdWritePio : ℕ := 0x30

def ataCmdCacheFlush : ℕ := 0xe7

def command (c : Channel) (value : ℕ) : Channel :=
  { c with
    busy := c.delay c.commands
    commands := c.commands + 1
    transfer :=
      if value = ataCmdReadPio then .toHost (wordsAt (c.disk c.slave) c.address c.count)
      else if value = ataCmdWritePio then .toDisk c.slave c.address (256 * c.count) []
      else .none }

/-- A write to a port. A busy channel takes no notice, nor does it of ports that are not its own,
such as `bus + ATA_REG_CONTROL`. -/
def outb (bus : ℕ) (c : Channel) (port value : ℕ) : Channel :=
  let p := port % 2 ^ 16
  let v := value % 2 ^ 8
  if c.busy ≠ 0 then c
  else if p = bus + 2 then { c with seccount := v }
  else if p = bus + 3 then { c with lba0 := v }
  else if p = bus + 4 then { c with lba1 := v }
  else if p = bus + 5 then { c with lba2 := v }
  else if p = bus + 6 then { c with hddevsel := v }
  else if p = bus + 7 then command c v
  else c

def inStatus (c : Channel) : ℕ × Channel :=
  if c.busy ≠ 0 then (0x80, { c with busy := c.busy - 1 })
  else (0x40 ||| (match c.transfer with | .none => 0x00 | _ => 0x08), c)

def ataStatusWait (c : Channel) : Channel :=
  if (inStatus c).1 &&& 0x80 ≠ 0 then ataStatusWait (inStatus c).2 else (inStatus c).2
termination_by c.busy
decreasing_by
  rename_i h
  unfold inStatus at h ⊢
  split_ifs at h ⊢ with hb
  · dsimp only
    omega
  · cases hc : c.transfer <;> simp [hc] at h

def inw (c : Channel) : Word × Channel :=
  match c.transfer with
  | .toHost (w :: words) =>
    (w, { c with transfer := match words with | [] => .none | _ :: _ => .toHost words })
  | _ => ((0xff, 0xff), c)

def outw (c : Channel) (w : Word) : Channel :=
  match c.transfer with
  | .toDisk slave lba total words =>
    let words := words ++ [w]
    if words.length = total then
      { c with
        disk := Function.update c.disk slave
          (memcpy (c.disk slave) (lba * ataSectorSize) (byteAt words) (2 * total))
        transfer := .none }
    else { c with transfer := .toDisk slave lba total words }
  | _ => c

def insm : ℕ → Channel → List Word × Channel
  | 0, c => ([], c)
  | n + 1, c =>
    let r := inw c
    let rest := insm n r.2
    (r.1 :: rest.1, rest.2)

def outsm (buf : ℕ → UInt8) (n : ℕ) (c : Channel) : Channel :=
  ((List.range n).map fun i => (buf (2 * i), buf (2 * i + 1))).foldl outw c

def deviceSelect (slave : Bool) (lba : ℕ) : ℕ :=
  0xe0 ||| slave.toNat <<< 4 ||| (lba &&& 0x0f000000) >>> 24

/-- The device select goes to the port `buf + ATA_REG_HDDEVSEL`, with `buf` the address of the
caller's buffer. -/
def ideReadSector (bus : ℕ) (slave : Bool) (lba buf : ℕ) (c : Channel) : List Word × Channel :=
  let c := outb bus c (bus + 1) 0x0
  let c := outb bus c (bus + 2) 1
  let c := outb bus c (buf + 6) (deviceSelect slave lba)
  let c := outb bus c (bus + 3) ((lba &&& 0x000000ff) >>> 0)
  let c := outb bus c (bus + 4) ((lba &&& 0x0000ff00) >>> 8)
  let c := outb bus c (bus + 5) ((lba &&& 0x00ff0000) >>> 16)
  let c := outb bus c (bus + 7) ataCmdReadPio
  insm 256 (ataStatusWait c)

/-- `ata_io_wait` reads ports that are not the channel's. -/
def ataDeviceWriteSector (bus : ℕ) (slave : Bool) (lba : ℕ) (buf : ℕ → UInt8) (c : Channel) :
    Channel :=
  let c := outb bus c (bus + 0x0c) 0x02
  let c := ataStatusWait c
  let c := outb bus c (bus + 6) (deviceSelect slave lba)
  let c := ataStatusWait c
  let c := outb bus c (bus + 1) 0x00
  let c := outb bus c (bus + 2) 0x01
  let c := outb bus c (bus + 3) ((lba &&& 0x000000ff) >>> 0)
  let c := outb bus c (bus + 4) ((lba &&& 0x0000ff00) >>> 8)
  let c := outb bus c (bus + 5) ((lba &&& 0x00ff0000) >>> 16)
  let c := outb bus c (bus + 7) ataCmdWritePio
  let c := ataStatusWait c
  let c := outsm buf (ataSectorSize / 2) c
  let c := outb bus c (bus + 7) ataCmdCacheFlush
  ataStatusWait c

section Ports
variable {bus : ℕ} {c : Channel}

theorem inStatus_ready (h : c.busy = 0) : (inStatus c).1 &&& 0x80 = 0 ∧ (inStatus c).2 = c := by
  unfold inStatus
  rw [if_neg (not_not.mpr h)]
  cases c.transfer <;> exact ⟨by simp, rfl⟩

theorem inStatus_busy (h : c.busy ≠ 0) : inStatus c = (0x80, { c with busy := c.busy - 1 }) :=
  if_pos h

theorem ataStatusWait_eq (c : Channel) : ataStatusWait c = { c with busy := 0 } := by
  induction hb : c.busy generalizing c with
  | zero =>
    obtain ⟨hready, hsame⟩ := inStatus_ready hb
    rw [ataStatusWait, if_neg (not_not.mpr hready), hsame, ← hb]
  | succ n ih =>
    rw [ataStatusWait, inStatus_busy (by omega), if_pos (by simp), ih _ (by rw [hb]; rfl)]

theorem outb_foreign {port : ℕ} (value : ℕ) (h : ∀ k < 8, port % 2 ^ 16 ≠ bus + k) :
    outb bus c port value = c := by
  unfold outb
  dsimp only
  rw [if_neg (h 2 (by decide)), if_neg (h 3 (by decide)), if_neg (h 4 (by decide)),
    if_neg (h 5 (by decide)), if_neg (h 6 (by decide)), if_neg (h 7 (by decide)), ite_self]

theorem outb_control (value : ℕ) : outb bus c (bus + 0x0c) value = c :=
  outb_foreign value fun k hk => by omega

def setRegister (c : Channel) (v : ℕ) : ℕ → Channel
  | 2 => { c with seccount := v }
  | 3 => { c with lba0 := v }
  | 4 => { c with lba1 := v }
  | 5 => { c with lba2 := v }
  | 6 => { c with hddevsel := v }
  | 7 => command c v
  | _ => c

theorem outb_register (hbus : bus + 7 < 2 ^ 16) (value : ℕ) (hc : c.busy = 0) {k : ℕ} (hk : k < 8) :
    outb bus c (bus + k) value = setRegister c (value % 2 ^ 8) k := by
  unfold outb
  rw [Nat.mod_eq_of_lt (by omega)]
  interval_cases k <;> simp [hc, setRegister]

theorem outb_features (hbus : bus + 7 < 2 ^ 16) (value : ℕ) (hc : c.busy = 0) :
    outb bus c (bus + 1) value = c :=
  outb_register hbus value hc (by decide)

theorem insm_toHost (w : Word) (words : List Word) (c : Channel) :
    insm (words.length + 1) { c with transfer := .toHost (w :: words) } =
      (w :: words, { c with transfer := .none }) := by
  induction words generalizing w with
  | nil => rfl
  | cons v words ih =>
    rw [List.length_cons, insm]
    simp only [inw]
    rw [ih v]

theorem foldl_outw (slave : Bool) (lba : ℕ) (before : List Word) (w : Word) (words : List Word)
    (c : Channel) :
    (w :: words).foldl outw
        { c with transfer := .toDisk slave lba (before ++ w :: words).length before } =
      { c with
        disk := Function.update c.disk slave (memcpy (c.disk slave) (lba * ataSectorSize)
          (byteAt (before ++ w :: words)) (2 * (before ++ w :: words).length))
        transfer := .none } := by
  induction words generalizing w before with
  | nil =>
    rw [List.foldl_cons, List.foldl_nil, outw]
    simp
  | cons v words ih =>
    have hmore : (before ++ [w]).length ≠ (before ++ w :: v :: words).length := by simp
    rw [List.foldl_cons]
    simp only [outw]
    rw [if_neg hmore, List.append_cons before w (v :: words)]
    exact ih (before ++ [w]) v

theorem byteAt_map (f : ℕ → Word) (n i : ℕ) (h : i < 2 * n) :
    byteAt ((List.range n).map f) i = if i % 2 = 0 then (f (i / 2)).1 else (f (i / 2)).2 := by
  rw [byteAt, List.getD_eq_getElem _ _ (by simp; omega)]
  simp

end Ports

section Addresses
variable (slave : Bool) (lba : ℕ)

theorem mask_shift (k w : ℕ) :
    (lba &&& (2 ^ w - 1) <<< k) >>> k = lba / 2 ^ k % 2 ^ w := by
  rw [Nat.shiftRight_and_distrib, Nat.shiftRight_eq_div_pow, Nat.shiftLeft_shiftRight]
  exact Nat.and_two_pow_sub_one_eq_mod _ w

theorem deviceSelect_bits : deviceSelect slave lba < 2 ^ 8 ∧ (deviceSelect slave lba).testBit 6 ∧
    (deviceSelect slave lba).testBit 4 = slave ∧
      deviceSelect slave lba % 16 = lba / 2 ^ 24 % 2 ^ 4 := by
  rw [deviceSelect, show (lba &&& 0x0f000000) >>> 24 = _ from mask_shift lba 24 4]
  have hlt : lba / 2 ^ 24 % 2 ^ 4 < 16 := Nat.mod_lt _ (by decide)
  generalize lba / 2 ^ 24 % 2 ^ 4 = nibble at hlt ⊢
  cases slave <;> interval_cases nibble <;> decide

end Addresses

/-- Two drives behind one select register, which reads do not set. -/
structure Disks where
  disk : Bool → ℕ → UInt8
  slave : Bool
  nibble : ℕ

inductive Op where
  | read (slave : Bool) (lba buf : ℕ)
  | write (slave : Bool) (lba : ℕ) (buf : ℕ → UInt8)

def Disks.serve (d : Disks) : Op → List Word × Disks
  | .read _ lba _ => (wordsAt (d.disk d.slave) (d.nibble * 2 ^ 24 + lba % 2 ^ 24) 1, d)
  | .write slave lba buf =>
    ([], { disk := Function.update d.disk slave
             (memcpy (d.disk slave) (lba % 2 ^ 28 * ataSectorSize) buf ataSectorSize)
           slave
           nibble := lba / 2 ^ 24 % 2 ^ 4 })

def serve (bus : ℕ) (c : Channel) : Op → List Word × Channel
  | .read slave lba buf => ideReadSector bus slave lba buf c
  | .write slave lba buf => ([], ataDeviceWriteSector bus slave lba buf c)

def runAll {σ : Type} (f : σ → Op → List Word × σ) : List Op → σ → List (List Word) × σ
  | [], s => ([], s)
  | op :: ops, s =>
    let r := f s op
    let rest := runAll f ops r.2
    (r.1 :: rest.1, rest.2)

/-- The channel is ready and has the select register set to a drive and the top of a block
number. -/
structure Shows (c : Channel) (d : Disks) : Prop where
  ready : c.busy = 0
  disk : c.disk = d.disk
  lbaMode : c.hddevsel.testBit 6
  slave : c.hddevsel.testBit 4 = d.slave
  nibble : c.hddevsel % 16 = d.nibble

section Refinement
variable {bus : ℕ} {c : Channel} {d : Disks}

theorem insm_wordsAt (disk : ℕ → UInt8) (lba : ℕ) (c : Channel) :
    insm 256 { c with transfer := .toHost (wordsAt disk lba 1) } =
      (wordsAt disk lba 1, { c with transfer := .none }) := by
  have hlen : (wordsAt disk lba 1).length = 256 := by simp [wordsAt]
  cases h : wordsAt disk lba 1 with
  | nil => simp [h] at hlen
  | cons w words =>
    rw [h, List.length_cons] at hlen
    rw [← hlen]
    exact insm_toHost w words c

def setBlock (c : Channel) (lba : ℕ) : Channel :=
  { c with
    seccount := 1
    lba0 := lba % 2 ^ 8
    lba1 := lba / 2 ^ 8 % 2 ^ 8
    lba2 := lba / 2 ^ 16 % 2 ^ 8 }

theorem setBlock_address (lba : ℕ) (h : c.hddevsel.testBit 6) :
    (setBlock c lba).address = c.hddevsel % 16 * 2 ^ 24 + lba % 2 ^ 24 := by
  refine (if_pos h).trans ?_
  dsimp only [setBlock]
  omega

theorem outb_block (hbus : bus + 7 < 2 ^ 16) (hc : c.busy = 0) (lba : ℕ) :
    outb bus (outb bus (outb bus (outb bus c (bus + 2) 1)
      (bus + 3) ((lba &&& 0x000000ff) >>> 0)) (bus + 4) ((lba &&& 0x0000ff00) >>> 8))
      (bus + 5) ((lba &&& 0x00ff0000) >>> 16) = setBlock c lba := by
  have hbyte0 : (lba &&& 0x000000ff) >>> 0 = lba % 2 ^ 8 := Nat.and_two_pow_sub_one_eq_mod lba 8
  have hbyte1 : (lba &&& 0x0000ff00) >>> 8 = lba / 2 ^ 8 % 2 ^ 8 := mask_shift lba 8 8
  have hbyte2 : (lba &&& 0x00ff0000) >>> 16 = lba / 2 ^ 16 % 2 ^ 8 := mask_shift lba 16 8
  simp only [outb_register hbus, setRegister, Nat.reduceLT, hc, hbyte0, hbyte1, hbyte2, Nat.mod_mod]
  rw [← hc]
  rfl

theorem ataStatusWait_ready (hc : c.busy = 0) : ataStatusWait c = c := by
  rw [ataStatusWait_eq, ← hc]

theorem outb_flush (hbus : bus + 7 < 2 ^ 16) (hc : c.busy = 0) :
    ataStatusWait (outb bus c (bus + 7) ataCmdCacheFlush) =
      { c with commands := c.commands + 1, transfer := .none } := by
  rw [outb_register hbus _ hc (by decide), ataStatusWait_eq, ← hc]
  rfl

theorem ideReadSector_eq (hbus : bus + 7 < 2 ^ 16) (hc : c.busy = 0) (slave : Bool) (lba : ℕ)
    {buf : ℕ} (hbuf : ∀ k < 8, (buf + 6) % 2 ^ 16 ≠ bus + k) :
    ideReadSector bus slave lba buf c =
      (wordsAt (c.disk c.slave) (setBlock c lba).address 1,
        { setBlock c lba with commands := c.commands + 1, transfer := .none }) := by
  have hblock : (setBlock c lba).busy = 0 := hc
  rw [ideReadSector]
  dsimp only
  rw [outb_features hbus _ hc, outb_foreign _ hbuf, outb_block hbus hc,
    outb_register hbus _ hblock (by decide), setRegister, ataStatusWait_eq, ← hc]
  exact insm_wordsAt _ _ { setBlock c lba with commands := c.commands + 1 }

theorem outsm_sector (hcount : c.seccount = 1) (buf : ℕ → UInt8) :
    outsm buf (ataSectorSize / 2)
        { c with transfer := .toDisk c.slave c.address (256 * c.count) [] } =
      { c with
        disk := Function.update c.disk c.slave (memcpy (c.disk c.slave)
          (c.address * ataSectorSize) buf ataSectorSize)
        transfer := .none } := by
  have hcells : c.count = 1 := by rw [Channel.count, hcount, if_neg Nat.one_ne_zero]
  let word : ℕ → Word := fun i => (buf (2 * i), buf (2 * i + 1))
  have hbytes : memcpy (c.disk c.slave) (c.address * ataSectorSize)
      (byteAt ((List.range 256).map word)) (2 * 256) =
        memcpy (c.disk c.slave) (c.address * ataSectorSize) buf ataSectorSize := by
    funext q
    rw [memcpy, memcpy, ataSectorSize]
    refine if_ctx_congr Iff.rfl (fun hq => ?_) fun _ => rfl
    rw [byteAt_map _ _ _ (by omega)]
    generalize q - c.address * 512 = i
    split_ifs with hparity
    · exact congrArg buf (by omega : 2 * (i / 2) = i)
    · exact congrArg buf (by omega : 2 * (i / 2) + 1 = i)
  have hrange : (List.range 256).map word =
      word 0 :: (List.range 255).map (fun i => word (i + 1)) := by
    rw [List.range_succ_eq_map, List.map_cons, List.map_map]
    rfl
  have hfold :=
    foldl_outw c.slave c.address [] (word 0) ((List.range 255).map fun i => word (i + 1)) c
  rw [← hrange, List.nil_append, List.length_map, List.length_range, hbytes] at hfold
  rw [hcells, outsm]
  exact hfold

theorem ataDeviceWriteSector_eq (hbus : bus + 7 < 2 ^ 16) (hc : c.busy = 0) (slave : Bool)
    (lba : ℕ) (buf : ℕ → UInt8) :
    ataDeviceWriteSector bus slave lba buf c =
      let selected : Channel := { c with hddevsel := deviceSelect slave lba }
      { setBlock selected lba with
        disk := Function.update c.disk slave (memcpy (c.disk slave)
          ((setBlock selected lba).address * ataSectorSize) buf ataSectorSize)
        commands := c.commands + 2
        transfer := .none } := by
  let selected : Channel := { c with hddevsel := deviceSelect slave lba }
  have hselected : selected.busy = 0 := hc
  have hblock : (setBlock selected lba).busy = 0 := hc
  obtain ⟨hlt, -, hslave, -⟩ := deviceSelect_bits slave lba
  have hselect : outb bus c (bus + 6) (deviceSelect slave lba) = selected := by
    rw [outb_register hbus _ hc (by decide), Nat.mod_eq_of_lt hlt]
    rfl
  rw [ataDeviceWriteSector]
  dsimp only
  rw [outb_control, ataStatusWait_ready hc, hselect, ataStatusWait_ready hselected,
    outb_features hbus _ hselected, outb_block hbus hselected,
    outb_register hbus _ hblock (by decide), setRegister]
  let ready : Channel := { setBlock selected lba with commands := c.commands + 1 }
  have hdata := outsm_sector (c := ready) rfl buf
  have hready : ataStatusWait (command (setBlock selected lba) (ataCmdWritePio % 2 ^ 8)) =
      { ready with transfer := .toDisk ready.slave ready.address (256 * ready.count) [] } := by
    rw [ataStatusWait_eq, ← hc]
    rfl
  have hdrive : ready.slave = slave := hslave
  rw [hready, hdata, hdrive]
  exact outb_flush hbus hc

/-- The port is none of the channel's. -/
def Op.Clear (bus : ℕ) : Op → Prop
  | .read _ _ buf => ∀ k < 8, (buf + 6) % 2 ^ 16 ≠ bus + k
  | .write _ _ _ => True

theorem Shows.serve (h : Shows c d) (hbus : bus + 7 < 2 ^ 16) {op : Op} (hop : op.Clear bus) :
    (serve bus c op).1 = (d.serve op).1 ∧ Shows (serve bus c op).2 (d.serve op).2 := by
  cases op with
  | read slave lba buf =>
    have hread := ideReadSector_eq hbus h.ready slave lba hop
    rw [setBlock_address lba h.lbaMode, h.nibble, Channel.slave, h.slave, h.disk] at hread
    constructor
    · exact congrArg Prod.fst hread
    · rw [AtaPorts.serve, hread]
      exact ⟨h.ready, h.disk, h.lbaMode, h.slave, h.nibble⟩
  | write slave lba buf =>
    obtain ⟨-, hmode, hslave, hnibble⟩ := deviceSelect_bits slave lba
    refine ⟨rfl, ?_⟩
    rw [AtaPorts.serve, ataDeviceWriteSector_eq hbus h.ready]
    refine ⟨h.ready, ?_, hmode, hslave, hnibble⟩
    have haddress := setBlock_address (c := { c with hddevsel := deviceSelect slave lba }) lba hmode
    dsimp only at haddress ⊢
    rw [haddress, hnibble, h.disk, show lba / 2 ^ 24 % 2 ^ 4 * 2 ^ 24 + lba % 2 ^ 24 = lba % 2 ^ 28
      by omega]
    rfl

end Refinement

/-- However long the drives are busy, `ata_device_write_sector` replaces the sector with the low 28
bits of the number on the drive it names, and nothing else; `ide_read_sector` delivers a sector of
the drive that was written last, with the top bits of the number that was written last, whatever
drive and number it names. -/
theorem channel_serves_selected_drive {bus : ℕ} (hbus : bus + 7 < 2 ^ 16) {c : Channel} {d : Disks}
    (h : Shows c d) {ops : List Op} (hops : ∀ op ∈ ops, op.Clear bus) :
    (runAll (serve bus) ops c).1 = (runAll Disks.serve ops d).1 ∧
      Shows (runAll (serve bus) ops c).2 (runAll Disks.serve ops d).2 := by
  induction ops generalizing c d with
  | nil => exact ⟨rfl, h⟩
  | cons op ops ih =>
    obtain ⟨hresult, hnext⟩ := h.serve hbus (hops op List.mem_cons_self)
    obtain ⟨hresults, hlast⟩ := ih hnext fun o ho => hops o (List.mem_cons_of_mem op ho)
    exact ⟨congrArg₂ List.cons hresult hresults, hlast⟩

/-- A read from the slave while the master is selected. -/
theorem channel_serves_selected_drive_master :
    (runAll (serve 0x1f0) [.read true 5 0xc0002000]
      ⟨fun slave _ => if slave then 1 else 2, fun _ => 16, fun _ => 63, 0, 0, 0, 0, 0xe0,
        fun n => n, 0, 0, .none⟩).1 = [wordsAt (fun _ => 2) 5 1] := by
  refine (channel_serves_selected_drive (d := ⟨_, false, 0⟩) (by decide)
    ⟨rfl, rfl, rfl, rfl, rfl⟩ ?_).1
  intro op hop
  cases List.mem_singleton.mp hop
  intro k hk
  omega

end Bingos.AtaPorts
