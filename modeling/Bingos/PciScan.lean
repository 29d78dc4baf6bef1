import Bingos.ListLoops
import Bingos.NestedCalls

set_option autoImplicit false

/-! The enumeration of `drivers/pci.c`. `pci_scan_bus`, `pci_scan_slot` and `pci_scan_func` call one
another; the number counted down is that of the nested calls of `pci_scan_bus`. -/
namespace Bingos.Pci
open ListLoops NestedCalls Relation

/-- The contents of the configuration space: the four bytes at the data port, by the address written
to the address port. -/
abbrev Config := ℕ → BitVec 32

/-- A `pci_func_t` with what it reads and changes: device, vendor id and device id. -/
abbrev Callback (σ : Type) := ℕ → ℕ → ℕ → σ → σ

def vendorId : ℕ := 0x00
def deviceId : ℕ := 0x02
def subclass : ℕ := 0x0a
def classCode : ℕ := 0x0b
def headerType : ℕ := 0x0e
def secondaryBus : ℕ := 0x19
def typeBridge : ℕ := 0x0604
def pciNone : ℕ := 0xFFFF

def pciExtractBus (device : ℕ) : ℕ := (device >>> 16) % 2 ^ 8

def pciExtractSlot (device : ℕ) : ℕ := (device >>> 8) % 2 ^ 8

def pciExtractFunc (device : ℕ) : ℕ := device % 2 ^ 8

def pciGetAddr (device field : ℕ) : ℕ :=
  0x80000000 ||| (pciExtractBus device <<< 16) ||| (pciExtractSlot device <<< 11) |||
    (pciExtractFunc device <<< 8) ||| (field &&& 0xFC)

def pciBoxDevice (bus slot func : ℕ) : ℕ := (bus <<< 16) ||| (slot <<< 8) ||| func

def pciReadField (cfg : Config) (device field size : ℕ) : ℕ :=
  let value := (cfg (pciGetAddr device field)).toNat
  if size = 4 then value
  else if size = 2 then (value >>> (8 * (field &&& 2))) % 2 ^ 16
  else if size = 1 then (value >>> (8 * (field &&& 3))) % 2 ^ 8
  else 0xFFFF

def pciFindType (cfg : Config) (dev : ℕ) : ℕ :=
  (pciReadField cfg dev classCode 1 <<< 8) ||| pciReadField cfg dev subclass 1

section Source
variable {σ : Type} (cfg : Config) (f : Callback σ) (type : ℤ)

def pciScanHit (dev : ℕ) (extra : σ) : σ :=
  f dev (pciReadField cfg dev vendorId 2) (pciReadField cfg dev deviceId 2) extra

def pciScanFunc (scanBus : ℕ → σ → Option σ) (bus slot func : ℕ) (extra : σ) : Option σ :=
  let dev := pciBoxDevice bus slot func
  let extra := if type = -1 ∨ type = pciFindType cfg dev then pciScanHit cfg f dev extra else extra
  if pciFindType cfg dev = typeBridge then scanBus (pciReadField cfg dev secondaryBus 1) extra
  else some extra

def pciScanSlot (scanBus : ℕ → σ → Option σ) (bus slot : ℕ) (extra : σ) : Option σ :=
  let dev := pciBoxDevice bus slot 0
  if pciReadField cfg dev vendorId 2 = pciNone then some extra
  else
    (pciScanFunc cfg f type scanBus bus slot 0 extra).bind fun extra =>
      if pciReadField cfg dev headerType 1 = 0 then some extra
      else
        (List.range' 1 7).foldlM (fun extra func =>
          if pciReadField cfg (pciBoxDevice bus slot func) vendorId 2 ≠ pciNone then
            pciScanFunc cfg f type scanBus bus slot func extra
          else some extra) extra

def pciScanBus : ℕ → ℕ → σ → Option σ
  | 0, _, _ => none
  | depth + 1, bus, extra =>
    (List.range 32).foldlM
      (fun extra slot => pciScanSlot cfg f type (pciScanBus depth) bus slot extra) extra

/-- The loop over the functions of the host controller, which is left at the first one missing. -/
def scanHosts (depth : ℕ) : List ℕ → σ → Option σ
  | [], extra => some extra
  | func :: funcs, extra =>
    if pciReadField cfg (pciBoxDevice 0 0 func) vendorId 2 ≠ pciNone then
      (pciScanBus cfg f type depth func extra).bind (scanHosts depth funcs)
    else some extra

def pciScan (depth : ℕ) (extra : σ) : Option σ :=
  if pciReadField cfg 0 headerType 1 &&& 0x80 = 0 then pciScanBus cfg f type depth 0 extra
  else scanHosts cfg f type depth (List.range 8) extra

end Source

/-! Which buses a scan comes to. -/
section Buses
variable (cfg : Config)

structure Probed (bus slot func : ℕ) : Prop where
  slot_lt : slot < 32
  func_lt : func < 8
  slot_used : pciReadField cfg (pciBoxDevice bus slot 0) vendorId 2 ≠ pciNone
  func_used : func = 0 ∨ pciReadField cfg (pciBoxDevice bus slot 0) headerType 1 ≠ 0 ∧
    pciReadField cfg (pciBoxDevice bus slot func) vendorId 2 ≠ pciNone

def IsBridge (dev bus : ℕ) : Prop :=
  pciFindType cfg dev = typeBridge ∧ pciReadField cfg dev secondaryBus 1 = bus

def Leads (bus bus' : ℕ) : Prop :=
  ∃ slot func, Probed cfg bus slot func ∧ IsBridge cfg (pciBoxDevice bus slot func) bus'

def hostBuses : List ℕ :=
  if pciReadField cfg 0 headerType 1 &&& 0x80 = 0 then [0]
  else (List.range 8).takeWhile fun func =>
    pciReadField cfg (pciBoxDevice 0 0 func) vendorId 2 ≠ pciNone

end Buses

section Nesting
variable {σ : Type} {cfg : Config} {f : Callback σ} {type : ℤ}

theorem pciReadField_byte_lt (dev field : ℕ) : pciReadField cfg dev field 1 < 256 :=
  Nat.mod_lt _ (by decide)

theorem Leads.lt {bus bus' : ℕ} (h : Leads cfg bus bus') : bus' < 256 := by
  obtain ⟨slot, func, -, -, rfl⟩ := h
  exact pciReadField_byte_lt _ _

section Calls
variable {scanBus : ℕ → σ → Option σ} {P : ℕ → Prop} (h : ∀ bus extra, (scanBus bus extra).isSome ↔ P bus)
include h

theorem pciScanFunc_isSome_iff (bus slot func : ℕ) (extra : σ) :
    (pciScanFunc cfg f type scanBus bus slot func extra).isSome ↔
      ∀ bus', IsBridge cfg (pciBoxDevice bus slot func) bus' → P bus' := by
  rw [pciScanFunc]
  by_cases hbridge : pciFindType cfg (pciBoxDevice bus slot func) = typeBridge
  · rw [if_pos hbridge, h]
    constructor
    · rintro hP bus' ⟨-, rfl⟩
      exact hP
    · intro hall
      exact hall _ ⟨hbridge, rfl⟩
  · rw [if_neg hbridge]
    refine iff_of_true rfl fun bus' hbus' => ?_
    exact absurd hbus'.1 hbridge

theorem otherFuncs_isSome_iff {bus slot : ℕ} (hslot : slot < 32)
    (hused : pciReadField cfg (pciBoxDevice bus slot 0) vendorId 2 ≠ pciNone)
    (hheader : pciReadField cfg (pciBoxDevice bus slot 0) headerType 1 ≠ 0) (extra : σ) :
    ((List.range' 1 7).foldlM (fun extra func =>
        if pciReadField cfg (pciBoxDevice bus slot func) vendorId 2 ≠ pciNone then
          pciScanFunc cfg f type scanBus bus slot func extra
        else some extra) extra).isSome ↔
      ∀ func, func ≠ 0 → Probed cfg bus slot func → ∀ bus',
        IsBridge cfg (pciBoxDevice bus slot func) bus' → P bus' := by
  rw [foldlM_isSome_iff (P := fun func => Probed cfg bus slot func → ∀ bus',
    IsBridge cfg (pciBoxDevice bus slot func) bus' → P bus')]
  · constructor
    · intro hall func hne hprobed
      have hlt := hprobed.func_lt
      exact hall func (List.mem_range'_1.mpr ⟨by omega, by omega⟩) hprobed
    · intro hall func hfunc
      have hpos := (List.mem_range'_1.mp hfunc).1
      exact hall func (by omega)
  · intro func hfunc extra
    have hbounds := List.mem_range'_1.mp hfunc
    by_cases hvendor : pciReadField cfg (pciBoxDevice bus slot func) vendorId 2 ≠ pciNone
    · have hprobed : Probed cfg bus slot func :=
        ⟨hslot, by omega, hused, Or.inr ⟨hheader, hvendor⟩⟩
      rw [if_pos hvendor, pciScanFunc_isSome_iff h]
      exact ⟨fun hall _ => hall, fun hall => hall hprobed⟩
    · rw [if_neg hvendor]
      refine iff_of_true rfl fun hprobed => ?_
      rcases hprobed.func_used with rfl | hfound
      · omega
      · exact absurd hfound.2 hvendor

theorem pciScanSlot_isSome_iff {slot : ℕ} (hslot : slot < 32) (bus : ℕ) (extra : σ) :
    (pciScanSlot cfg f type scanBus bus slot extra).isSome ↔
      ∀ func, Probed cfg bus slot func → ∀ bus',
        IsBridge cfg (pciBoxDevice bus slot func) bus' → P bus' := by
  rw [pciScanSlot]
  by_cases hused : pciReadField cfg (pciBoxDevice bus slot 0) vendorId 2 = pciNone
  · rw [if_pos hused]
    refine iff_of_true rfl fun func hprobed => ?_
    exact absurd hused hprobed.slot_used
  · have hfirst : Probed cfg bus slot 0 := ⟨hslot, by decide, hused, Or.inl rfl⟩
    rw [if_neg hused, bind_isSome_iff (Q := ∀ func, func ≠ 0 → Probed cfg bus slot func → ∀ bus',
      IsBridge cfg (pciBoxDevice bus slot func) bus' → P bus'), pciScanFunc_isSome_iff h]
    · constructor
      · intro hall func hprobed
        by_cases hzero : func = 0
        · subst hzero
          exact hall.1
        · exact hall.2 func hzero hprobed
      · intro hall
        exact ⟨hall 0 hfirst, fun func _ => hall func⟩
    · intro extra
      by_cases hheader : pciReadField cfg (pciBoxDevice bus slot 0) headerType 1 = 0
      · rw [if_pos hheader]
        refine iff_of_true rfl fun func hne hprobed => ?_
        rcases hprobed.func_used with hzero | hfound
        · exact absurd hzero hne
        · exact absurd hheader hfound.1
      · rw [if_neg hheader]
        exact otherFuncs_isSome_iff h hslot hused hheader extra

end Calls

theorem pciScanBus_isSome_iff (depth bus : ℕ) (extra : σ) :
    (pciScanBus cfg f type depth bus extra).isSome ↔ Within (Leads cfg) depth bus := by
  induction depth generalizing bus extra with
  | zero => exact iff_of_false Bool.false_ne_true id
  | succ depth ih =>
    rw [pciScanBus, foldlM_isSome_iff (P := fun slot => ∀ func, Probed cfg bus slot func → ∀ bus',
      IsBridge cfg (pciBoxDevice bus slot func) bus' → Within (Leads cfg) depth bus')]
    · constructor
      · rintro hall bus' ⟨slot, func, hprobed, hbridge⟩
        exact hall slot (List.mem_range.mpr hprobed.slot_lt) func hprobed bus' hbridge
      · intro hall slot _ func hprobed bus' hbridge
        exact hall bus' ⟨slot, func, hprobed, hbridge⟩
    · intro slot hslot extra
      exact pciScanSlot_isSome_iff ih (List.mem_range.mp hslot) bus extra

theorem scanHosts_isSome_iff (depth : ℕ) (funcs : List ℕ) (extra : σ) :
    (scanHosts cfg f type depth funcs extra).isSome ↔
      ∀ bus ∈ funcs.takeWhile fun func =>
        pciReadField cfg (pciBoxDevice 0 0 func) vendorId 2 ≠ pciNone,
        Within (Leads cfg) depth bus := by
  induction funcs generalizing extra with
  | nil => exact iff_of_true rfl (List.forall_mem_nil _)
  | cons func funcs ih =>
    rw [scanHosts]
    by_cases hvendor : pciReadField cfg (pciBoxDevice 0 0 func) vendorId 2 ≠ pciNone
    · rw [if_pos hvendor, bind_isSome_iff ih, pciScanBus_isSome_iff,
        List.takeWhile_cons_of_pos (by simpa using hvendor), List.forall_mem_cons]
    · rw [if_neg hvendor, List.takeWhile_cons_of_neg (by simpa using hvendor)]
      exact iff_of_true rfl (List.forall_mem_nil _)

theorem pciScan_isSome_iff (depth : ℕ) (extra : σ) :
    (pciScan cfg f type depth extra).isSome ↔ ∀ bus ∈ hostBuses cfg, Within
    (Leads cfg) depth bus := by
  rw [pciScan, hostBuses]
  by_cases hsingle : pciReadField cfg 0 headerType 1 &&& 0x80 = 0
  · rw [if_pos hsingle, if_pos hsingle, pciScanBus_isSome_iff, List.forall_mem_singleton]
  · rw [if_neg hsingle, if_neg hsingle, scanHosts_isSome_iff]

end Nesting

def NoLoops (cfg : Config) : Prop :=
  ∀ host ∈ hostBuses cfg, ∀ bus, ReflTransGen (Leads cfg) host bus → ¬ TransGen (Leads cfg) bus bus

theorem NoLoops.within {cfg : Config} (h : NoLoops cfg) {host : ℕ} (hhost : host ∈ hostBuses cfg) :
    Within (Leads cfg) 257 host := by
  have hrange : ∀ bus bus', Leads cfg bus bus' → bus' ∈ Finset.range 256 := by
    intro bus bus' hleads
    exact Finset.mem_range.mpr hleads.lt
  apply within_of_acyclic hrange (h host hhost)
  rw [Finset.card_range]
  decide

theorem noLoops_of_within {cfg : Config} {depth : ℕ}
    (h : ∀ bus ∈ hostBuses cfg, Within (Leads cfg) depth bus) : NoLoops cfg := by
  intro host hhost bus hreach
  obtain ⟨_, hbus⟩ := (h host hhost).reachable hreach
  exact hbus.not_cycle

/-- `pci_scan` finishes exactly if the bridges it finds form no loop, and then the calls of
`pci_scan_bus` are nested at most 257 deep. -/
theorem pci_scan_finishes_iff {σ : Type} (cfg : Config) (f : Callback σ) (type : ℤ) (extra : σ) :
    ((∃ depth, (pciScan cfg f type depth extra).isSome) ↔ NoLoops cfg) ∧
      ((pciScan cfg f type 257 extra).isSome ↔ NoLoops cfg) := by
  have hends : NoLoops cfg → (pciScan cfg f type 257 extra).isSome := by
    intro hloops
    exact (pciScan_isSome_iff 257 extra).mpr fun _ hhost => hloops.within hhost
  have hloops : ∀ depth, (pciScan cfg f type depth extra).isSome → NoLoops cfg := by
    intro depth hsome
    exact noLoops_of_within ((pciScan_isSome_iff depth extra).mp hsome)
  constructor
  · exact ⟨fun ⟨depth, hsome⟩ => hloops depth hsome, fun h => ⟨257, hends h⟩⟩
  · exact ⟨hloops 257, hends⟩

def bridgeToItself : Config := fun addr =>
  if addr = 0x80000000 then 0x12378086
  else if addr = 0x80000008 then 0x06040000
  else if addr = 0x8000000C then 0x00010000
  else if addr = 0x80000018 then 0x00000000
  else 0xFFFFFFFF

theorem bridgeToItself_leads : Leads bridgeToItself 0 0 := by
  refine ⟨0, 0, ⟨by decide, by decide, by decide, Or.inl rfl⟩, ?_, ?_⟩
  all_goals decide

def collect : Callback (List ℕ) := fun device _ _ devices => devices ++ [device]

theorem bridge_to_itself_scanned_forever :
    (∀ depth, pciScan bridgeToItself collect (-1) depth [] = none) ∧ hostBuses bridgeToItself = [0] := by
  have hhosts : hostBuses bridgeToItself = [0] := if_pos (by decide)
  refine ⟨fun depth => ?_, hhosts⟩
  rw [← Option.not_isSome_iff_eq_none, pciScan_isSome_iff, hhosts, List.forall_mem_singleton]
  intro hwithin
  exact hwithin.not_cycle (.single bridgeToItself_leads)

end Bingos.Pci
