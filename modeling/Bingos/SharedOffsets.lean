import Bingos.DescriptorTable
import Bingos.InitrdModel

set_option autoImplicit false

/-! Descriptors of several processes for the files of the ramdisk. The position
of a read is a field of the node, which all descriptors of a file share and no
call resets. -/
namespace Bingos.SharedOffsets
open MachineWords StepRuns DescriptorTable Initrd ByteMemory CStrings

/-- The operations of the ramdisk's nodes; they have no `write`, `readdir` or `close`. The value
of `vfs_close` is then left to the caller's register. -/
def ramdiskVfs (r : Ramdisk) (register : Node → ℤ) : Vfs Node where
  read node offset size := (initrdRead r node offset size).2
  write _ _ _ := 0
  readdir _ _ := false
  close := register

/-- The table of every process, the positions in the nodes, and the bytes each
descriptor has delivered since it was opened. -/
structure System where
  fds : ℕ → FdSet Node
  offset : Node → ℕ
  delivered : ℕ → ℕ → Bytes

inductive Action where
  | openFile (name : Bytes)
  | read (fd : BitVec 32) (count : ℕ)
  | close (fd : BitVec 32)

def Action.call (r : Ramdisk) : Action → Call Node
  | .openFile name => .openPath (initrdFinddir r name)
  | .read fd count => .read fd count
  | .close fd => .close fd

namespace System

def process (s : System) (pid : ℕ) : Process Node := ⟨s.fds pid, s.offset⟩

def entry (s : System) (pid fd : ℕ) : Option Node := (s.fds pid).entries fd

end System

def put {β : Type} (f : ℕ → ℕ → β) (pid fd : ℕ) (v : β) : ℕ → ℕ → β :=
  Function.update f pid (Function.update (f pid) fd v)

theorem put_apply {β : Type} (f : ℕ → ℕ → β) (pid fd : ℕ) (v : β) (p d : ℕ) :
    put f pid fd v p d = if p = pid ∧ d = fd then v else f p d := by
  by_cases hp : p = pid
  · subst hp
    simp [put, Function.update_apply]
  · simp [put, hp]

def deliver (r : Ramdisk) (s : System) (pid : ℕ) : Action → Outcome Node → ℕ → ℕ → Bytes
  | .openFile _, .accepted _ fd => put s.delivered pid fd.toNat []
  | .read fd count, .accepted node _ =>
    put s.delivered pid fd.toNat
      (s.delivered pid fd.toNat ++ (initrdRead r node (s.offset node) count).1)
  | _, _ => s.delivered

def Step (r : Ramdisk) (register : Node → ℤ) (s : System) (e : ℕ × Action) (t : System) : Prop :=
  ∃ o p, call (ramdiskVfs r register) (s.process e.1) (e.2.call r) = (o, p) ∧ o.Completes ∧
    t = ⟨Function.update s.fds e.1 p.fds, p.offset, deliver r s e.1 e.2 o⟩

def content (r : Ramdisk) (node : Node) : Bytes :=
  load r.mem (headerOffset r.mem r.fileHeaders node.inode)
    (headerLength r.mem r.fileHeaders node.inode)

inductive Change (r : Ramdisk) (s t : System) (pid : ℕ) : Action → Prop where
  | none {a : Action} (entry : t.entry = s.entry) (offset : t.offset = s.offset)
      (delivered : t.delivered = s.delivered) : Change r s t pid a
  | opened {name : Bytes} {node : Node} {fd : ℕ} (found : initrdFinddir r name = some node)
      (entry : t.entry = put s.entry pid fd (some node)) (offset : t.offset = s.offset)
      (delivered : t.delivered = put s.delivered pid fd []) : Change r s t pid (.openFile name)
  | closed {fd : BitVec 32} (entry : t.entry = put s.entry pid fd.toNat Option.none)
      (offset : t.offset = s.offset) (delivered : t.delivered = s.delivered) :
      Change r s t pid (.close fd)
  | read {fd : BitVec 32} {count : ℕ} {node : Node} (held : s.entry pid fd.toNat = some node)
      (entry : t.entry = s.entry)
      (offset : t.offset = Function.update s.offset node
        (add32 (s.offset node) (initrdRead r node (s.offset node) count).2))
      (delivered : t.delivered = put s.delivered pid fd.toNat
        (s.delivered pid fd.toNat ++ (initrdRead r node (s.offset node) count).1)) :
      Change r s t pid (.read fd count)

theorem entry_update (s : System) (pid : ℕ) (fds : FdSet Node) (offset : Node → ℕ)
    (delivered : ℕ → ℕ → Bytes) :
    (System.mk (Function.update s.fds pid fds) offset delivered).entry =
      Function.update s.entry pid fds.entries := by
  funext p d
  simp only [System.entry, Function.update_apply]
  split_ifs <;> rfl

variable {r : Ramdisk} {s t : System} {e : ℕ × Action} {node : Node} {offset : ℕ}
  {register : Node → ℤ}

theorem Step.change {pid : ℕ} {a : Action}
    (h : Step r register s (pid, a) t) : Change r s t pid a := by
  obtain ⟨o, p, hcall, ho, rfl⟩ := h
  have hself : Function.update s.entry pid (s.fds pid).entries = s.entry :=
    Function.update_eq_self pid s.entry
  cases a with
  | openFile name =>
    rcases sysOpen_cases hcall ho with ⟨v, rfl, rfl⟩ | ⟨node, fd, hfound, -, -, rfl, rfl⟩
    · exact .none ((entry_update ..).trans hself) rfl rfl
    · exact .opened hfound (entry_update ..) rfl rfl
  | read fd count =>
    rcases validated_cases hcall ho with ⟨v, rfl, rfl⟩ | ⟨node, hheld, rfl, rfl⟩
    · exact .none ((entry_update ..).trans hself) rfl rfl
    · exact .read hheld ((entry_update ..).trans hself) rfl rfl
  | close fd =>
    rcases sysClose_cases hcall ho with ⟨v, rfl, rfl⟩ | ⟨node, -, -, rfl, rfl⟩
    · exact .none ((entry_update ..).trans hself) rfl rfl
    · exact .closed (entry_update ..) rfl rfl

/-- An open finds a node at position 0 that no descriptor refers to, and a read
does not end beyond 2^32. -/
def Alone (r : Ramdisk) (s : System) (e : ℕ × Action) : Prop :=
  match e.2 with
  | .openFile name => ∀ node, initrdFinddir r name = some node →
      s.offset node = 0 ∧ ∀ pid fd, s.entry pid fd ≠ some node
  | .read fd count => ∀ node, s.entry e.1 fd.toNat = some node → s.offset node + count < 2 ^ 32
  | .close _ => True

/-- The position in a node is that of the one descriptor that refers to it. -/
structure Positioned (r : Ramdisk) (s : System) : Prop where
  position : ∀ pid fd node, s.entry pid fd = some node →
    s.offset node ≤ (content r node).length ∧
      s.delivered pid fd = (content r node).take (s.offset node)
  single : ∀ {pid fd pid' fd' node}, s.entry pid fd = some node → s.entry pid' fd' = some node →
    pid' = pid ∧ fd' = fd

theorem headerLength_lt (m : Memory) (fileHeaders i : ℕ) :
    headerLength m fileHeaders i < 2 ^ 32 := by
  have h := ofLE_lt (load m (headerAddress fileHeaders i + 72) 4)
  rw [length_load] at h
  exact h

theorem load_drop_take (m : Memory) (a : ℕ) {n o k : ℕ} (h : o + k ≤ n) :
    load m (a + o) k = ((load m a n).drop o).take k := by
  obtain ⟨j, rfl⟩ := Nat.exists_eq_add_of_le h
  rw [load_append, load_append, List.append_assoc, List.drop_left' (length_load ..),
    List.take_left' (length_load ..)]

theorem initrdRead_content {count : ℕ}
    (hoff : offset ≤ (content r node).length) (hsize : offset + count < 2 ^ 32) :
    (initrdRead r node offset count).1 = ((content r node).drop offset).take count ∧
      (initrdRead r node offset count).2 = min count ((content r node).length - offset) := by
  rw [content, length_load] at hoff
  have hread : initrdRead r node offset count =
      (load r.mem ((headerOffset r.mem r.fileHeaders node.inode + offset) % 2 ^ 32)
        (min count ((content r node).length - offset)),
        min count ((content r node).length - offset)) := by
    have hmin : (if headerLength r.mem r.fileHeaders node.inode < offset + count then
        headerLength r.mem r.fileHeaders node.inode - offset else count) =
          min count (headerLength r.mem r.fileHeaders node.inode - offset) := by
      split_ifs <;> omega
    simp only [initrdRead, if_neg (Nat.not_lt.mpr hoff), Nat.mod_eq_of_lt hsize, content,
      length_load, hmin]
  rw [hread]
  refine ⟨?_, rfl⟩
  have hlen : (content r node).length = headerLength r.mem r.fileHeaders node.inode :=
    length_load ..
  have hend : offset + min count ((content r node).length - offset) ≤
      headerLength r.mem r.fileHeaders node.inode := by omega
  calc
    _ = load r.mem (headerOffset r.mem r.fileHeaders node.inode + offset)
          (min count ((content r node).length - offset)) := load_congr r.mem _ (Nat.mod_mod ..)
    _ = ((content r node).drop offset).take (min count ((content r node).length - offset)) :=
          load_drop_take r.mem _ hend
    _ = ((content r node).drop offset).take count := by
          rw [← List.length_drop, ← List.take_eq_take_min]

/-- A read delivers what its size and the end of the file allow, of the file's own bytes. -/
def ReadsFile (r : Ramdisk) (node : Node) (offset size : ℕ) : Prop :=
  if offset ≤ (content r node).length then
    (initrdRead r node offset size).1 = ((content r node).drop offset).take size ∧
      (initrdRead r node offset size).2 = min size ((content r node).length - offset)
  else initrdRead r node offset size = ([], 0)

theorem initrdRead_wrapped {size : ℕ}
    (hoff : offset ≤ (content r node).length) (hsize : size < 2 ^ 32)
    (hwrap : 2 ^ 32 ≤ offset + size) : (initrdRead r node offset size).2 = size := by
  have hlt := headerLength_lt r.mem r.fileHeaders node.inode
  rw [content, length_load] at hoff
  have hsum : (offset + size) % 2 ^ 32 = offset + size - 2 ^ 32 := by omega
  have hkept : ¬ headerLength r.mem r.fileHeaders node.inode < offset + size - 2 ^ 32 := by omega
  simp only [initrdRead, if_neg (Nat.not_lt.mpr hoff), hsum, if_neg hkept]

/-- `initrd_read` stays inside the file exactly if the sum of a position in the file and the
size does not wrap. -/
theorem initrdRead_file_iff (r : Ramdisk) (node : Node) (offset size : BitVec 32) :
    ReadsFile r node offset.toNat size.toNat ↔
      (offset.toNat ≤ (content r node).length → offset.toNat + size.toNat < 2 ^ 32) := by
  have hlt := headerLength_lt r.mem r.fileHeaders node.inode
  have hlen : (content r node).length = headerLength r.mem r.fileHeaders node.inode :=
    length_load ..
  constructor
  · intro hread hoff
    by_contra hwrap
    rw [ReadsFile, if_pos hoff, initrdRead_wrapped hoff size.isLt (Nat.not_lt.mp hwrap)] at hread
    have hmin := hread.2
    omega
  · intro hsum
    rw [ReadsFile]
    split_ifs with hoff
    · exact initrdRead_content hoff (hsum hoff)
    · rw [hlen] at hoff
      simp only [initrdRead, if_pos (Nat.not_le.mp hoff)]

theorem Positioned.start (r : Ramdisk) (offset : Node → ℕ) (delivered : ℕ → ℕ → Bytes) :
    Positioned r ⟨fun _ => ⟨fun _ => none, 0⟩, offset, delivered⟩ where
  position _ _ _ h := by cases h
  single h := by cases h

theorem Positioned.fewer (h : Positioned r s)
    (hentry : ∀ q d node, t.entry q d = some node → s.entry q d = some node)
    (hoff : t.offset = s.offset) (hdel : t.delivered = s.delivered) : Positioned r t := by
  refine ⟨fun q d node hd => ?_, fun hd hd' => h.single (hentry _ _ _ hd) (hentry _ _ _ hd')⟩
  rw [hoff, hdel]
  exact h.position q d node (hentry q d node hd)

theorem Positioned.step
    (h : Positioned r s) (ha : Alone r s e) (hs : Step r register s e t) : Positioned r t := by
  obtain ⟨pid, a⟩ := e
  cases hs.change with
  | none hentry hoff hdel =>
    apply h.fewer _ hoff hdel
    intro q d node hd
    rw [← hentry]
    exact hd
  | @opened name found fd hfound hentry hoff hdel =>
    -- The node is at its start, and no other descriptor refers to it.
    obtain ⟨hzero, hunused⟩ := ha found hfound
    have hother : ∀ {q d node}, t.entry q d = some node →
        (q = pid ∧ d = fd) ∧ found = node ∨ ¬(q = pid ∧ d = fd) ∧ s.entry q d = some node := by
      intro q d node hd
      rw [hentry, put_apply] at hd
      split_ifs at hd with hqd
      · exact Or.inl ⟨hqd, Option.some.inj hd⟩
      · exact Or.inr ⟨hqd, hd⟩
    refine ⟨fun q d node hd => ?_, fun hd hd' => ?_⟩
    · rw [hoff, hdel, put_apply]
      rcases hother hd with ⟨hqd, rfl⟩ | ⟨hqd, hold⟩
      · rw [if_pos hqd, hzero]
        exact ⟨Nat.zero_le _, rfl⟩
      · rw [if_neg hqd]
        exact h.position q d node hold
    · rcases hother hd with ⟨hqd, rfl⟩ | ⟨-, hold⟩
      · rcases hother hd' with ⟨hqd', -⟩ | ⟨-, hold'⟩
        · exact ⟨hqd'.1.trans hqd.1.symm, hqd'.2.trans hqd.2.symm⟩
        · exact absurd hold' (hunused _ _)
      · rcases hother hd' with ⟨-, rfl⟩ | ⟨-, hold'⟩
        · exact absurd hold (hunused _ _)
        · exact h.single hold hold'
  | @closed fd hentry hoff hdel =>
    apply h.fewer _ hoff hdel
    intro q d node hd
    rw [hentry, put_apply] at hd
    split_ifs at hd
    exact hd
  | @read fd count node hheld hentry hoff hdel =>
    obtain ⟨hle, hpos⟩ := h.position pid fd.toNat node hheld
    obtain ⟨hbytes, hcount⟩ := initrdRead_content hle (ha node hheld)
    have hlt := headerLength_lt r.mem r.fileHeaders node.inode
    have hlen : (content r node).length = headerLength r.mem r.fileHeaders node.inode :=
      length_load ..
    refine ⟨fun q d node' hd => ?_, fun hd hd' => ?_⟩
    · rw [hentry] at hd
      rw [hoff, hdel, put_apply]
      by_cases hqd : q = pid ∧ d = fd.toNat
      · obtain ⟨rfl, rfl⟩ := hqd
        obtain rfl := Option.some.inj (hheld.symm.trans hd)
        rw [if_pos ⟨rfl, rfl⟩, Function.update_self, hbytes, hcount, hpos,
          add32_of_lt (by omega)]
        refine ⟨by omega, ?_⟩
        rw [List.take_add, ← List.length_drop, ← List.take_eq_take_min]
      · have hne : node' ≠ node := by
          rintro rfl
          exact hqd (h.single hheld hd)
        rw [if_neg hqd, Function.update_of_ne hne]
        exact h.position q d node' hd
    · rw [hentry] at hd hd'
      exact h.single hd hd'

/-- As long as every file is opened at position 0 and by one descriptor only,
whatever other descriptors do, each delivers its file from the start. -/
theorem descriptors_independent {r : Ramdisk} {register : Node → ℤ} {offset : Node → ℕ}
    {delivered : ℕ → ℕ → Bytes} {es : List (ℕ × Action)} {s : System}
    (h : Reach (Guarded (Alone r) (Step r register))
      ⟨fun _ => ⟨fun _ => none, 0⟩, offset, delivered⟩ es s)
    {pid fd : ℕ} {node : Node} (hopen : s.entry pid fd = some node) :
    s.delivered pid fd <+: content r node := by
  have hpos : Positioned r s := h.invariant (fun _ => Positioned r) (.start r offset delivered)
    fun _ _ _ _ _ hp hs => hp.step hs.1 hs.2
  rw [(hpos.position pid fd node hopen).2]
  exact List.take_prefix _ _

section Example

def smallDisk : Ramdisk where
  mem address :=
    if address = 72 then 2 else if address = 68 then 200 else if address = 200 then 65
    else if address = 201 then 66 else 0
  fileHeaders := 0
  rootNodes := [⟨[97], 2, 0⟩]

def idle : System := ⟨fun _ => ⟨fun _ => none, 0⟩, fun _ => 0, fun _ _ => []⟩

def after (s : System) (e : ℕ × Action) : System :=
  let c := call (ramdiskVfs smallDisk fun _ => 0) (s.process e.1) (e.2.call smallDisk)
  ⟨Function.update s.fds e.1 c.2.fds, c.2.offset, deliver smallDisk s e.1 e.2 c.1⟩

theorem step_after
    (h : (call (ramdiskVfs smallDisk fun _ => 0) (s.process e.1) (e.2.call smallDisk)).1.Completes) :
    Step smallDisk (fun _ => 0) s e (after s e) :=
  ⟨_, _, rfl, h, rfl⟩

theorem descriptors_independent_first :
    (after (after idle (1, .openFile [97])) (1, .read 0 1)).delivered 1 0 = [65] ∧
      (after (after idle (1, .openFile [97])) (1, .read 0 1)).delivered 1 0 <+:
        content smallDisk ⟨[97], 2, 0⟩ := by
  have hopen : Guarded (Alone smallDisk) (Step smallDisk fun _ => 0) idle (1, .openFile [97])
      (after idle (1, .openFile [97])) :=
    ⟨fun _ _ => ⟨rfl, fun _ _ => nofun⟩, step_after trivial⟩
  have hread : Guarded (Alone smallDisk) (Step smallDisk fun _ => 0)
      (after idle (1, .openFile [97])) (1, .read 0 1)
      (after (after idle (1, .openFile [97])) (1, .read 0 1)) :=
    ⟨fun _ _ => (by decide : 0 + 1 < 2 ^ 32), step_after trivial⟩
  refine ⟨by decide +kernel, descriptors_independent (.next (.next .start hopen) hread) ?_⟩
  decide +kernel

theorem reach_after {es : List (ℕ × Action)}
    (h : Reach (Step smallDisk fun _ => 0) idle es s) (e : ℕ × Action)
    (hc : (call (ramdiskVfs smallDisk fun _ => 0) (s.process e.1) (e.2.call smallDisk)).1.Completes) :
    Reach (Step smallDisk fun _ => 0) idle (es ++ [e]) (after s e) :=
  .next h (step_after hc)

/-- A file that was read once is opened again where the first reader stopped. -/
theorem reopened_file_continues :
    ∃ s, Reach (Step smallDisk fun _ => 0) idle
        [(1, .openFile [97]), (1, .read 0 1), (1, .close 0), (1, .openFile [97]), (1, .read 0 1)] s ∧
      s.entry 1 0 = some ⟨[97], 2, 0⟩ ∧ s.delivered 1 0 = [66] ∧
      content smallDisk ⟨[97], 2, 0⟩ = [65, 66] := by
  have hopen := reach_after .start (1, .openFile [97]) trivial
  have hread := reach_after hopen (1, .read 0 1) trivial
  have hclose := reach_after hread (1, .close 0) trivial
  have hagain := reach_after hclose (1, .openFile [97]) trivial
  have hrest := reach_after hagain (1, .read 0 1) trivial
  refine ⟨_, hrest, ?_, ?_, ?_⟩ <;> decide +kernel

/-- One byte behind the start of the file, a read of 2^32 - 1 bytes is not cut. -/
theorem wrapped_read_leaves_file :
    ∃ s, Reach (Step smallDisk fun _ => 0) idle [(1, .openFile [97]), (1, .read 0 1)] s ∧
      s.entry 1 0 = some ⟨[97], 2, 0⟩ ∧ s.offset ⟨[97], 2, 0⟩ = 1 ∧
      (content smallDisk ⟨[97], 2, 0⟩).length = 2 ∧
      (initrdRead smallDisk ⟨[97], 2, 0⟩ 1 (2 ^ 32 - 1)).2 = 2 ^ 32 - 1 ∧
      ¬ ReadsFile smallDisk ⟨[97], 2, 0⟩ 1 (2 ^ 32 - 1) := by
  have hlen : (content smallDisk ⟨[97], 2, 0⟩).length = 2 := by decide +kernel
  have hoff : 1 ≤ (content smallDisk ⟨[97], 2, 0⟩).length := by rw [hlen]; decide
  have hsize : (initrdRead smallDisk ⟨[97], 2, 0⟩ 1 (2 ^ 32 - 1)).2 = 2 ^ 32 - 1 :=
    initrdRead_wrapped hoff (by omega) (by omega)
  have hopen := reach_after .start (1, .openFile [97]) trivial
  refine ⟨_, reach_after hopen (1, .read 0 1) trivial, by decide +kernel, by decide +kernel, hlen,
    hsize, fun hread => ?_⟩
  rw [ReadsFile, if_pos hoff, hsize, hlen] at hread
  have hmin := hread.2
  omega

end Example

end Bingos.SharedOffsets
