import Mathlib.Data.List.Induction
import Mathlib.Order.Basic

set_option autoImplicit false

/-! Walks along labelled edges, and rooted trees of them, in which a walk is
determined by the node it leads to. -/
namespace Bingos.PathWalks

variable {σ κ : Type} {child child' : σ → κ → Option σ} {root x n y : σ} {N : σ → Prop}
  {cs ds : List κ} {i : ℕ}

def walk (child : σ → κ → Option σ) : σ → List κ → Option σ
  | x, [] => some x
  | x, c :: cs => (child x c).bind (walk child · cs)

theorem walk_append (x : σ) (cs ds : List κ) :
    walk child x (cs ++ ds) = (walk child x cs).bind (walk child · ds) := by
  induction cs generalizing x with
  | nil => rfl
  | cons c cs ih =>
    rw [List.cons_append, walk, walk]
    cases child x c with
    | none => rfl
    | some y => exact ih y

theorem walk_snoc (x : σ) (cs : List κ) (c : κ) :
    walk child x (cs ++ [c]) = (walk child x cs).bind (child · c) := by
  rw [walk_append]
  refine congrArg _ (funext fun y => ?_)
  rw [walk]
  cases child y c <;> rfl

theorem walk_isSome (h : walk child x cs = some y) (hds : ds <+: cs) :
    (walk child x ds).isSome := by
  obtain ⟨es, rfl⟩ := hds
  rw [walk_append] at h
  obtain ⟨z, hz, -⟩ := Option.bind_eq_some_iff.mp h
  rw [hz]
  rfl

theorem walk_take_succ (hi : i < cs.length) :
    walk child x (cs.take (i + 1)) = (walk child x (cs.take i)).bind (child · cs[i]) := by
  rw [List.take_succ_eq_append_getElem hi, walk_snoc]

theorem walk_take_none {j : ℕ} (hij : i ≤ j)
    (h : walk child x (cs.take i) = none) : walk child x (cs.take j) = none := by
  have hsplit : cs.take j = cs.take i ++ (cs.take j).drop i := by
    have happ := (List.take_append_drop i (cs.take j)).symm
    rwa [List.take_take, Nat.min_eq_left hij] at happ
  rw [hsplit, walk_append, h]
  rfl

/-- Among the nodes `N` there is at most one edge into each, and none into the
root. -/
structure Rooted (child : σ → κ → Option σ) (root : σ) (N : σ → Prop) : Prop where
  root_mem : N root
  closed : ∀ {x c y}, N x → child x c = some y → N y
  root_free : ∀ {x} c, N x → child x c ≠ some root
  unique : ∀ {x y c d z}, N x → N y → child x c = some z → child y d = some z → x = y ∧ c = d

theorem Rooted.walk_mem (h : Rooted child root N) (hy : walk child root cs = some y) : N y := by
  induction cs using List.reverseRecOn generalizing y with
  | nil =>
    cases hy
    exact h.root_mem
  | append_singleton cs c ih =>
    rw [walk_snoc] at hy
    obtain ⟨z, hz, hy⟩ := Option.bind_eq_some_iff.mp hy
    exact h.closed (ih hz) hy

theorem Rooted.walk_congr (h : Rooted child root N) (heq : ∀ x, N x → ∀ c, child' x c = child x c)
    (cs : List κ) : walk child' root cs = walk child root cs := by
  induction cs using List.reverseRecOn with
  | nil => rfl
  | append_singleton cs c ih =>
    rw [walk_snoc, walk_snoc, ih]
    cases hy : walk child root cs with
    | none => rfl
    | some y => exact heq y (h.walk_mem hy) c

theorem Rooted.walk_injective (h : Rooted child root N)
    (hc : walk child root cs = some y) (hd : walk child root ds = some y) : cs = ds := by
  induction cs using List.reverseRecOn generalizing ds y with
  | nil =>
    cases hc
    rcases List.eq_nil_or_concat ds with rfl | ⟨ds, d, rfl⟩
    · rfl
    · rw [List.concat_eq_append, walk_snoc] at hd
      obtain ⟨z, hz, hd⟩ := Option.bind_eq_some_iff.mp hd
      exact absurd hd (h.root_free d (h.walk_mem hz))
  | append_singleton cs c ih =>
    rw [walk_snoc] at hc
    obtain ⟨z, hz, hc⟩ := Option.bind_eq_some_iff.mp hc
    rcases List.eq_nil_or_concat ds with rfl | ⟨ds, d, rfl⟩
    · cases hd
      exact absurd hc (h.root_free c (h.walk_mem hz))
    · rw [List.concat_eq_append, walk_snoc] at hd
      obtain ⟨w, hw, hd⟩ := Option.bind_eq_some_iff.mp hd
      obtain ⟨rfl, rfl⟩ := h.unique (h.walk_mem hz) (h.walk_mem hw) hc hd
      rw [ih hz hw, List.concat_eq_append]

section Insert
variable [DecidableEq σ] [DecidableEq κ] {c : κ}
  (hedge : ∀ y, N y → ∀ d, child' y d = if y = x ∧ d = c then some n else child y d)
  (hleaf : ∀ d, child' n d = none)
include hedge hleaf

theorem Rooted.walk_insert (h : Rooted child root N) {ps : List κ}
    (hx : walk child root ps = some x) (hc : child x c = none) (ds : List κ) :
    walk child' root ds = if ds = ps ++ [c] then some n else walk child root ds := by
  induction ds using List.reverseRecOn with
  | nil => rw [if_neg (by simp)]; rfl
  | append_singleton ds d ih =>
    rw [walk_snoc, ih, walk_snoc]
    by_cases hds : ds = ps ++ [c]
    · -- The walk goes on from the new leaf.
      subst hds
      have hlen : ¬ ps ++ [c] ++ [d] = ps ++ [c] := fun heq => by simpa using congrArg List.length heq
      rw [if_pos rfl, if_neg hlen, walk_snoc, hx]
      simp [hc, hleaf]
    · rw [if_neg hds]
      cases hw : walk child root ds with
      | none =>
        have hne : ¬ ds ++ [d] = ps ++ [c] := fun heq => by
          obtain rfl := (List.append_inj' heq rfl).1
          rw [hx] at hw
          cases hw
        rw [if_neg hne]
        rfl
      | some y =>
        rw [Option.bind_some, Option.bind_some, hedge y (h.walk_mem hw)]
        refine if_congr ⟨?_, fun heq => ?_⟩ rfl rfl
        · rintro ⟨rfl, rfl⟩
          rw [h.walk_injective hw hx]
        · obtain ⟨rfl, hd⟩ := List.append_inj' heq rfl
          exact ⟨Option.some.inj (hw.symm.trans hx), by simpa using hd⟩

theorem Rooted.insert (h : Rooted child root N) (hn : ¬ N n) :
    Rooted child' root fun y => N y ∨ y = n := by
  have hcases : ∀ {y d z}, N y ∨ y = n → child' y d = some z →
      N y ∧ (y = x ∧ d = c ∧ z = n ∨ child y d = some z ∧ N z) := by
    rintro y d z (hy | rfl) hz
    · refine ⟨hy, ?_⟩
      rw [hedge y hy] at hz
      split_ifs at hz with hxc
      · exact Or.inl ⟨hxc.1, hxc.2, (Option.some.inj hz).symm⟩
      · exact Or.inr ⟨hz, h.closed hy hz⟩
    · rw [hleaf] at hz
      cases hz
  refine ⟨Or.inl h.root_mem, fun hy hz => ?_, fun d hy hz => ?_, fun hy hw hz hz' => ?_⟩
  · rcases (hcases hy hz).2 with ⟨-, -, rfl⟩ | ⟨-, hz⟩
    · exact Or.inr rfl
    · exact Or.inl hz
  · obtain ⟨hy, ⟨-, -, rfl⟩ | ⟨hz, -⟩⟩ := hcases hy hz
    · exact hn h.root_mem
    · exact h.root_free d hy hz
  · obtain ⟨hy, ⟨rfl, rfl, rfl⟩ | ⟨hz, hzN⟩⟩ := hcases hy hz
    · obtain ⟨-, ⟨rfl, rfl, -⟩ | ⟨-, hN⟩⟩ := hcases hw hz'
      · exact ⟨rfl, rfl⟩
      · exact absurd hN hn
    · obtain ⟨hw, ⟨-, -, rfl⟩ | ⟨hz', -⟩⟩ := hcases hw hz'
      · exact absurd hzN hn
      · exact h.unique hy hw hz hz'

end Insert

end Bingos.PathWalks
