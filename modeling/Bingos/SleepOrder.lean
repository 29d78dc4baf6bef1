import Bingos.StableQueues
import Bingos.SwitchTargets

set_option autoImplicit false

/-! The sleep queue in the order of its deadlines. -/
namespace Bingos.Scheduler
open MachineWords StepRuns StableQueues

def deadline (b : Pcb) : ℕ ×ₗ ℕ := toLex (b.endTick, b.endSubtick)

theorem due_eq (b : Pcb) (ticks subticks : ℕ) :
    due b ticks subticks = decide (deadline b ≤ toLex (ticks, subticks)) := by
  rw [Bool.eq_iff_iff, decide_eq_true_iff, deadline, Prod.Lex.toLex_le_toLex]
  simp [due]

theorem not_later_eq (b : Pcb) (seconds subseconds : ℕ) :
    (!later b seconds subseconds) = decide (deadline b ≤ toLex (seconds, subseconds)) := by
  rw [← due_eq, Bool.eq_iff_iff]
  simp only [later, due, Bool.not_eq_true', Bool.or_eq_false_iff, decide_eq_false_iff_not,
    Bool.and_eq_false_iff, beq_eq_false_iff_ne, Bool.or_eq_true, decide_eq_true_eq,
    Bool.and_eq_true, beq_iff_eq]
  omega

def deadlines (s : Sched) (p : ℕ) : ℕ ×ₗ ℕ := deadline (s.pcb p)

theorem deadlines_sleepEnqueue_self (s : Sched) (p seconds subseconds : ℕ) :
    deadlines (sleepEnqueue s p seconds subseconds) p = toLex (seconds, subseconds) := by
  simp [deadlines, deadline, sleepEnqueue]

variable {woken : List ℕ} {s : Sched} {p q : ℕ}

theorem deadlines_sleepEnqueue_of_ne (seconds subseconds : ℕ) (h : q ≠ p) :
    deadlines (sleepEnqueue s p seconds subseconds) q = deadlines s q := by
  simp [deadlines, sleepEnqueue, h]

theorem sleepEnqueue_sleepQueue (seconds subseconds : ℕ) (hp : p ∉ s.sleepQueue) :
    (sleepEnqueue s p seconds subseconds).sleepQueue =
      insert (deadlines (sleepEnqueue s p seconds subseconds)) p s.sleepQueue := by
  have hkey : ∀ q ∈ s.sleepQueue,
      deadlines (sleepEnqueue s p seconds subseconds) q = deadlines s q := fun q hq =>
    deadlines_sleepEnqueue_of_ne seconds subseconds fun h => hp (h ▸ hq)
  rw [StableQueues.insert, deadlines_sleepEnqueue_self, upTo_congr _ hkey, beyond_congr _ hkey]
  simp only [sleepEnqueue, not_later_eq]
  rfl

theorem sleepEnqueue_sorted (seconds subseconds : ℕ)
    (hs : Sorted (deadlines s) s.sleepQueue) (hp : p ∉ s.sleepQueue) :
    Sorted (deadlines (sleepEnqueue s p seconds subseconds))
      (sleepEnqueue s p seconds subseconds).sleepQueue := by
  rw [sleepEnqueue_sleepQueue seconds subseconds hp]
  refine Sorted.insert (hs.congr fun q hq => ?_) p
  exact deadlines_sleepEnqueue_of_ne seconds subseconds fun h => hp (h ▸ hq)

def awaken (woken : List ℕ) (pcb : ℕ → Pcb) (p : ℕ) : Pcb :=
  if p ∈ woken then { pcb p with endTick := 0, endSubtick := 0, status := 0 } else pcb p

theorem awaken_update (pcb : ℕ → Pcb) (hq : q ∉ woken) :
    awaken woken (Function.update pcb q { pcb q with endTick := 0, endSubtick := 0, status := 0 }) =
      awaken (q :: woken) pcb := by
  funext p
  by_cases hp : p = q
  · subst hp
    simp [awaken, hq]
  · simp [awaken, hp]

theorem wakeupLoop_eq (ticks subticks : ℕ) {l : List ℕ} (hl : l.Nodup) (s : Sched) :
    wakeupLoop ticks subticks l s =
      { s with
        sleepQueue := beyond (deadlines s) (toLex (ticks, subticks)) l
        processQueue :=
          (upTo (deadlines s) (toLex (ticks, subticks)) l).reverse ++ s.processQueue
        pcb := awaken (upTo (deadlines s) (toLex (ticks, subticks)) l) s.pcb } := by
  induction l generalizing s with
  | nil =>
    simp only [wakeupLoop, beyond, upTo, List.dropWhile_nil, List.takeWhile_nil, List.reverse_nil,
      List.nil_append]
    congr 1
  | cons q rest ih =>
    obtain ⟨hq, hrest⟩ := List.nodup_cons.mp hl
    unfold wakeupLoop
    rw [due_eq]
    by_cases hdue : deadline (s.pcb q) ≤ toLex (ticks, subticks)
    · rw [if_pos (decide_eq_true hdue), ih hrest]
      have hkey : ∀ x ∈ rest, deadlines (schedEnqueue { s with
          pcb := Function.update s.pcb q { s.pcb q with endTick := 0, endSubtick := 0, status := 0 }
          sleepQueue := rest } q) x = deadlines s x := by
        intro x hx
        have hne : x ≠ q := fun h => hq (h ▸ hx)
        simp [deadlines, schedEnqueue, hne]
      rw [upTo_congr _ hkey, beyond_congr _ hkey]
      have hqt : q ∉ upTo (deadlines s) (toLex (ticks, subticks)) rest := fun h =>
        hq ((List.takeWhile_sublist _).subset h)
      have htake : upTo (deadlines s) (toLex (ticks, subticks)) (q :: rest) =
          q :: upTo (deadlines s) (toLex (ticks, subticks)) rest :=
        List.takeWhile_cons_of_pos (decide_eq_true hdue)
      have hdrop : beyond (deadlines s) (toLex (ticks, subticks)) (q :: rest) =
          beyond (deadlines s) (toLex (ticks, subticks)) rest :=
        List.dropWhile_cons_of_pos (decide_eq_true hdue)
      rw [htake, hdrop, ← awaken_update s.pcb hqt, List.reverse_cons, List.append_assoc]
      rfl
    · have hno : ¬decide (deadline (s.pcb q) ≤ toLex (ticks, subticks)) = true := fun h =>
        hdue (of_decide_eq_true h)
      have htake : upTo (deadlines s) (toLex (ticks, subticks)) (q :: rest) = [] :=
        List.takeWhile_cons_of_neg hno
      have hdrop : beyond (deadlines s) (toLex (ticks, subticks)) (q :: rest) = q :: rest :=
        List.dropWhile_cons_of_neg hno
      rw [if_neg hno, htake, hdrop]
      rfl

theorem deadlines_awaken (h : p ∉ woken) :
    deadline (awaken woken s.pcb p) = deadlines s p := by
  simp [deadlines, awaken, h]

end Bingos.Scheduler
