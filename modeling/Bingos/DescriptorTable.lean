import Bingos.MachineWords
import Bingos.StepRuns

set_option autoImplicit false

/-! The file descriptor table of one process. Descriptors reach the calls as
32-bit registers: `sys_close` compares them as signed integers, the three
validated calls as unsigned ones. -/
namespace Bingos.DescriptorTable
open MachineWords StepRuns

variable {Node : Type} {fd : BitVec 32}

def nrOpen : ℕ := 256
def eBadf : ℤ := 9
def eMfile : ℤ := 24

structure FdSet (Node : Type) where
  entries : ℕ → Option Node
  length : ℕ

structure Process (Node : Type) where
  fds : FdSet Node
  offset : Node → ℕ

/-- The results of the operations behind a node: byte counts, whether a
directory entry was produced, and the close result. -/
structure Vfs (Node : Type) where
  read : Node → ℕ → ℕ → ℕ
  write : Node → ℕ → ℕ → ℕ
  readdir : Node → ℕ → Bool
  close : Node → ℤ

/-- `outside` is an access to `entries` at an index the table does not have,
`nullNode` a dereference of the missing node. -/
inductive Outcome (Node : Type) where
  | rejected (value : ℤ)
  | accepted (node : Node) (value : ℤ)
  | outside (index : ℤ)
  | nullNode

def freeSlot (entries : ℕ → Option Node) : ℕ → ℕ → ℕ
  | fd, 0 => fd
  | fd, fuel + 1 => if (entries fd).isNone then fd else freeSlot entries (fd + 1) fuel

def doOpen (p : Process Node) (lookup : Option Node) : Outcome Node × Process Node :=
  let fd := freeSlot p.fds.entries 0 nrOpen
  if nrOpen ≤ fd then (.rejected (-eMfile), p)
  else match lookup with
    | none => (.nullNode, p)
    | some node =>
      (.accepted node fd, { p with fds :=
        ⟨Function.update p.fds.entries fd (some node), add32 p.fds.length 1⟩ })

def sysOpen (p : Process Node) (lookup : Option Node) : Outcome Node × Process Node :=
  doOpen p lookup

def sysClose (vfs : Vfs Node) (p : Process Node) (fd : BitVec 32) : Outcome Node × Process Node :=
  if (nrOpen : ℤ) < fd.toInt then (.rejected (-eBadf), p)
  else if fd.toInt < 0 ∨ (nrOpen : ℤ) ≤ fd.toInt then (.outside fd.toInt, p)
  else match p.fds.entries fd.toNat with
    | none => (.rejected (-eBadf), p)
    | some node =>
      (.accepted node (vfs.close node), { p with fds :=
        ⟨Function.update p.fds.entries fd.toNat none, sub32 p.fds.length 1⟩ })

/-- `validate_fd`, followed by the body of the calling function on the entry. -/
def validated (p : Process Node) (fd : BitVec 32) (body : Node → ℤ × Process Node) :
    Outcome Node × Process Node :=
  if p.fds.length ≤ fd.toNat then (.rejected (-1), p)
  else if nrOpen ≤ fd.toNat then (.outside fd.toNat, p)
  else match p.fds.entries fd.toNat with
    | none => (.rejected (-1), p)
    | some node => (.accepted node (body node).1, (body node).2)

def sysRead [DecidableEq Node] (vfs : Vfs Node) (p : Process Node) (fd : BitVec 32) (count : ℕ) :
    Outcome Node × Process Node :=
  validated p fd (fun node =>
    let nread := vfs.read node (p.offset node) count
    (asInt nread,
      { p with offset := Function.update p.offset node (add32 (p.offset node) nread) }))

def sysReaddir (vfs : Vfs Node) (p : Process Node) (fd : BitVec 32) (index : ℕ) :
    Outcome Node × Process Node :=
  validated p fd (fun node => (if vfs.readdir node index then 0 else 1, p))

def sysWrite (vfs : Vfs Node) (p : Process Node) (fd : BitVec 32) (size : ℕ) :
    Outcome Node × Process Node :=
  validated p fd (fun node => (asInt (vfs.write node (p.offset node) size), p))

inductive Call (Node : Type) where
  | openPath (lookup : Option Node)
  | close (fd : BitVec 32)
  | read (fd : BitVec 32) (count : ℕ)
  | readdir (fd : BitVec 32) (index : ℕ)
  | write (fd : BitVec 32) (size : ℕ)

def call [DecidableEq Node] (vfs : Vfs Node) (p : Process Node) :
    Call Node → Outcome Node × Process Node
  | .openPath lookup => sysOpen p lookup
  | .close fd => sysClose vfs p fd
  | .read fd count => sysRead vfs p fd count
  | .readdir fd index => sysReaddir vfs p fd index
  | .write fd size => sysWrite vfs p fd size

abbrev Event (Node : Type) := Call Node × Outcome Node

def Outcome.Completes : Outcome Node → Prop
  | .rejected _ => True
  | .accepted _ _ => True
  | .outside _ => False
  | .nullNode => False

/-- A call that returns to its caller. After an access outside the table the
contents of the table are no longer determined by it. -/
def Step [DecidableEq Node] (vfs : Vfs Node) (p : Process Node) (e : Event Node)
    (q : Process Node) : Prop :=
  call vfs p e.1 = (e.2, q) ∧ e.2.Completes

def empty (offset : Node → ℕ) : Process Node := ⟨⟨fun _ => none, 0⟩, offset⟩

def track (fd : ℤ) (held : Bool) : Event Node → Bool
  | (.openPath _, .accepted _ value) => if value = fd then true else held
  | (.close closed, .accepted _ _) => if closed.toInt = fd then false else held
  | _ => held

/-- Whether `fd` was returned by an open that has not been closed since. -/
def held (history : List (Event Node)) (fd : ℤ) : Bool := history.foldl (track fd) false

/-! What the calls that return can do. -/

theorem freeSlot_spec (entries : ℕ → Option Node) (fd fuel : ℕ) :
    freeSlot entries fd fuel ≤ fd + fuel ∧
      (freeSlot entries fd fuel < fd + fuel → entries (freeSlot entries fd fuel) = none) := by
  induction fuel generalizing fd with
  | zero => exact ⟨le_refl _, fun h => absurd h (lt_irrefl _)⟩
  | succ fuel ih =>
    unfold freeSlot
    split_ifs with h
    · exact ⟨by omega, fun _ => Option.isNone_iff_eq_none.mp h⟩
    · have hn := ih (fd + 1)
      exact ⟨by omega, fun hlt => hn.2 (by omega)⟩

theorem toInt_of_nonneg (h : 0 ≤ fd.toInt) : fd.toInt = (fd.toNat : ℤ) := by
  have hc := BitVec.toInt_eq_toNat_cond fd
  have hlt := fd.isLt
  split_ifs at hc <;> omega

theorem toInt_of_small (h : fd.toNat < nrOpen) : fd.toInt = (fd.toNat : ℤ) := by
  have hc := BitVec.toInt_eq_toNat_cond fd
  unfold nrOpen at h
  split_ifs at hc <;> omega

section Cases
variable {p q : Process Node} {o : Outcome Node}

theorem sysOpen_cases {lookup : Option Node} (h : sysOpen p lookup = (o, q)) (ho : o.Completes) :
    (∃ v, o = .rejected v ∧ q = p) ∨
      ∃ node fd, lookup = some node ∧ fd < nrOpen ∧ p.fds.entries fd = none ∧
        o = .accepted node (fd : ℕ) ∧ q = ⟨⟨Function.update p.fds.entries fd (some node),
          add32 p.fds.length 1⟩, p.offset⟩ := by
  simp only [sysOpen, doOpen] at h
  split_ifs at h with hfull
  · obtain ⟨rfl, rfl⟩ := Prod.mk.inj h
    exact Or.inl ⟨_, rfl, rfl⟩
  · cases lookup with
    | none =>
      obtain ⟨rfl, rfl⟩ := Prod.mk.inj h
      exact ho.elim
    | some node =>
      obtain ⟨rfl, rfl⟩ := Prod.mk.inj h
      have hspec := freeSlot_spec p.fds.entries 0 nrOpen
      exact Or.inr ⟨node, _, rfl, by omega, hspec.2 (by omega), rfl, rfl⟩

theorem sysClose_cases {vfs : Vfs Node} (h : sysClose vfs p fd = (o, q)) (ho : o.Completes) :
    (∃ v, o = .rejected v ∧ q = p) ∨
      ∃ node, fd.toNat < nrOpen ∧ p.fds.entries fd.toNat = some node ∧
        o = .accepted node (vfs.close node) ∧ q = ⟨⟨Function.update p.fds.entries fd.toNat none,
          sub32 p.fds.length 1⟩, p.offset⟩ := by
  unfold sysClose at h
  split_ifs at h with hbig hout
  · obtain ⟨rfl, rfl⟩ := Prod.mk.inj h
    exact Or.inl ⟨_, rfl, rfl⟩
  · obtain ⟨rfl, rfl⟩ := Prod.mk.inj h
    exact ho.elim
  · have hint := toInt_of_nonneg (show 0 ≤ fd.toInt by omega)
    cases he : p.fds.entries fd.toNat with
    | none =>
      rw [he] at h
      obtain ⟨rfl, rfl⟩ := Prod.mk.inj h
      exact Or.inl ⟨_, rfl, rfl⟩
    | some node =>
      rw [he] at h
      obtain ⟨rfl, rfl⟩ := Prod.mk.inj h
      exact Or.inr ⟨node, by omega, rfl, rfl, rfl⟩

theorem validated_cases {body : Node → ℤ × Process Node}
    (h : validated p fd body = (o, q)) (ho : o.Completes) :
    (∃ v, o = .rejected v ∧ q = p) ∨
      ∃ node, p.fds.entries fd.toNat = some node ∧ o = .accepted node (body node).1 ∧
        q = (body node).2 := by
  unfold validated at h
  split_ifs at h
  · obtain ⟨rfl, rfl⟩ := Prod.mk.inj h
    exact Or.inl ⟨_, rfl, rfl⟩
  · obtain ⟨rfl, rfl⟩ := Prod.mk.inj h
    exact ho.elim
  · cases he : p.fds.entries fd.toNat with
    | none =>
      rw [he] at h
      obtain ⟨rfl, rfl⟩ := Prod.mk.inj h
      exact Or.inl ⟨_, rfl, rfl⟩
    | some node =>
      rw [he] at h
      obtain ⟨rfl, rfl⟩ := Prod.mk.inj h
      exact Or.inr ⟨node, rfl, rfl, rfl⟩

end Cases

end Bingos.DescriptorTable
