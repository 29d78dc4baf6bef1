import Bingos.DirectoryModel

set_option autoImplicit false

/-! Copies of whole frames: `copy_page_physical` moves 1024 words, and a list
of copies into frames not copied from keeps the contents of all sources. -/
namespace Bingos.Mmap
open MachineWords ByteMemory

variable {ps : List (ℕ × ℕ)} {b : ℕ} {p : ℕ × ℕ}

theorem copyLoop_eq {phys : Memory} {src dst n : ℕ} (hsrc : src + 4 * n ≤ 2 ^ 32)
    (hdst : dst + 4 * n ≤ 2 ^ 32) (hapart : src + 4 * n ≤ dst ∨ dst + 4 * n ≤ src)
    (hb : b < 2 ^ 32) :
    copyLoop phys src dst n b =
      if dst ≤ b ∧ b < dst + 4 * n then phys (src + (b - dst)) else phys b := by
  induction n generalizing phys src dst with
  | zero => rw [copyLoop, if_neg (by omega)]
  | succ n ih =>
    have hword : ∀ c, c < 2 ^ 32 → store32 phys dst (load32 phys src) c =
        if dst ≤ c ∧ c < dst + 4 then phys (src + (c - dst)) else phys c := by
      intro c hc
      rw [store32_load32]
      split_ifs with hin
      · have hlen : c - dst < (load phys src 4).length := by
          rw [length_load]
          omega
        have hat : store phys dst (load phys src 4) ((dst + (c - dst)) % 2 ^ 32) =
            (load phys src 4)[c - dst] := store_at hlen (by rw [length_load]; decide)
        rw [Nat.mod_eq_of_lt (by omega), show dst + (c - dst) = c by omega] at hat
        rw [hat]
        simp only [load, List.getElem_map, List.getElem_range]
        rw [Nat.mod_eq_of_lt (by omega)]
      · refine store_off (fun i hi => ?_) hc
        rw [length_load] at hi
        omega
    rw [copyLoop]
    cases n with
    | zero =>
      rw [copyLoop, hword b hb]
    | succ n =>
      rw [add32_of_lt (by omega), add32_of_lt (by omega),
        ih (by omega) (by omega) (by omega)]
      by_cases hrest : dst + 4 ≤ b ∧ b < dst + 4 + 4 * (n + 1)
      · rw [if_pos hrest, if_pos (by omega), hword _ (by omega), if_neg (by omega),
          show src + 4 + (b - (dst + 4)) = src + (b - dst) by omega]
      · rw [if_neg hrest, hword b hb]
        by_cases hfirst : dst ≤ b ∧ b < dst + 4
        · rw [if_pos hfirst, if_pos (by omega)]
        · rw [if_neg hfirst, if_neg (by omega)]

def frameByte (f k : ℕ) : ℕ := f * 0x1000 + k

theorem copyPagePhysical_eq {phys : Memory} {g f : ℕ} (hg : g < 2 ^ 20) (hf : f < 2 ^ 20)
    (hne : g ≠ f) (hb : b < 2 ^ 32) :
    copyPagePhysical phys (g * 0x1000 % 2 ^ 32) (f * 0x1000 % 2 ^ 32) b =
      if b / 0x1000 = f then phys (frameByte g (b % 0x1000)) else phys b := by
  rw [Nat.mod_eq_of_lt (by omega), Nat.mod_eq_of_lt (by omega), copyPagePhysical,
    copyLoop_eq (by omega) (by omega) (by omega) hb]
  by_cases h : b / 0x1000 = f
  · rw [if_pos h, if_pos (by omega), frameByte,
      show g * 0x1000 + (b - f * 0x1000) = g * 0x1000 + b % 0x1000 by omega]
  · rw [if_neg h, if_neg (by omega)]

/-- The copies of `table_clone`, each a pair of source and destination frame. -/
def copyFrames (phys : Memory) (ps : List (ℕ × ℕ)) : Memory :=
  ps.foldl (fun M p => copyPagePhysical M (p.1 * 0x1000 % 2 ^ 32) (p.2 * 0x1000 % 2 ^ 32)) phys

theorem copyFrames_cons (phys : Memory) (p : ℕ × ℕ) (ps : List (ℕ × ℕ)) :
    copyFrames phys (p :: ps) = copyFrames
      (copyPagePhysical phys (p.1 * 0x1000 % 2 ^ 32) (p.2 * 0x1000 % 2 ^ 32)) ps :=
  List.foldl_cons ..

theorem copyFrames_append (phys : Memory) (ps qs : List (ℕ × ℕ)) :
    copyFrames phys (ps ++ qs) = copyFrames (copyFrames phys ps) qs :=
  List.foldl_append

/-- The frames of a list of copies have numbers of 20 bits, and no frame is
copied from and copied to. -/
structure Apart (ps : List (ℕ × ℕ)) : Prop where
  source : ∀ p ∈ ps, p.1 < 2 ^ 20
  target : ∀ p ∈ ps, p.2 < 2 ^ 20
  apart : ∀ p ∈ ps, ∀ q ∈ ps, p.1 ≠ q.2
  nodup : (ps.map Prod.snd).Nodup

theorem Apart.tail (h : Apart (p :: ps)) : Apart ps where
  source q hq := h.source q (List.mem_cons_of_mem _ hq)
  target q hq := h.target q (List.mem_cons_of_mem _ hq)
  apart q hq r hr := h.apart q (List.mem_cons_of_mem _ hq) r (List.mem_cons_of_mem _ hr)
  nodup := (List.nodup_cons.mp h.nodup).2

theorem Apart.head (h : Apart (p :: ps)) (phys : Memory) (hb : b < 2 ^ 32) :
    copyPagePhysical phys (p.1 * 0x1000 % 2 ^ 32) (p.2 * 0x1000 % 2 ^ 32) b =
      if b / 0x1000 = p.2 then phys (frameByte p.1 (b % 0x1000)) else phys b :=
  copyPagePhysical_eq (h.source p List.mem_cons_self) (h.target p List.mem_cons_self)
    (h.apart p List.mem_cons_self p List.mem_cons_self) hb

theorem Apart.frame (h : Apart ps) (phys : Memory) (hb : b < 2 ^ 32)
    (hout : b / 0x1000 ∉ ps.map Prod.snd) : copyFrames phys ps b = phys b := by
  induction ps generalizing phys with
  | nil => rfl
  | cons p ps ih =>
    rw [List.map_cons, List.mem_cons, not_or] at hout
    rw [copyFrames_cons, ih h.tail _ hout.2, h.head phys hb, if_neg hout.1]

theorem Apart.copied (h : Apart ps) (phys : Memory) (hp : p ∈ ps) {k : ℕ} (hk : k < 0x1000) :
    copyFrames phys ps (frameByte p.2 k) = phys (frameByte p.1 k) := by
  have hbyte : ∀ f, f < 2 ^ 20 → frameByte f k < 2 ^ 32 ∧ frameByte f k / 0x1000 = f ∧
      frameByte f k % 0x1000 = k := by
    intro f hf
    unfold frameByte
    omega
  induction ps generalizing phys with
  | nil => cases hp
  | cons q ps ih =>
    rcases List.mem_cons.mp hp with rfl | hrest
    · obtain ⟨hlt, hframe, hoff⟩ := hbyte p.2 (h.target p hp)
      have hlater : frameByte p.2 k / 0x1000 ∉ ps.map Prod.snd := by
        rw [hframe]
        exact (List.nodup_cons.mp h.nodup).1
      rw [copyFrames_cons, h.tail.frame _ hlt hlater, h.head phys hlt, if_pos hframe, hoff]
    · obtain ⟨hlt, hframe, -⟩ := hbyte p.1 (h.source p hp)
      rw [copyFrames_cons, ih h.tail _ hrest, h.head phys hlt, hframe,
        if_neg (h.apart p hp q List.mem_cons_self)]

end Bingos.Mmap
