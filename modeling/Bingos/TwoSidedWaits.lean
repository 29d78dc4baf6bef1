import Bingos.StepRuns

set_option autoImplicit false

/-! Parties on two sides that wait for each other. Each side has a queue of sleepers. A party that
takes a turn wakes the oldest sleeper of the other side, and then leaves or goes to sleep itself. -/
namespace Bingos.TwoSidedWaits
open StepRuns

variable {ι : Type} [DecidableEq ι]

@[ext]
structure Waits (ι : Type) where
  pending : Bool → Finset ι
  queue : Bool → List ι

structure WellQueued (w : Waits ι) : Prop where
  pending : ∀ b, ∀ i ∈ w.queue b, i ∈ w.pending b
  nodup : ∀ b, (w.queue b).Nodup

def awake (w : Waits ι) (b : Bool) : Finset ι := (w.pending b).filter (· ∉ w.queue b)

inductive Move (ι : Type) where
  | arrive (side : Bool) (party : ι)
  | leave (side : Bool) (party : ι)
  | rest (side : Bool) (party : ι)

def arrive (w : Waits ι) (b : Bool) (i : ι) : Waits ι :=
  { w with pending := Function.update w.pending b (insert i (w.pending b)) }

def wake (w : Waits ι) (b : Bool) : Waits ι :=
  { w with queue := Function.update w.queue b (w.queue b).dropLast }

def leave (w : Waits ι) (b : Bool) (i : ι) : Waits ι :=
  { w with pending := Function.update w.pending b ((w.pending b).erase i) }

def rest (w : Waits ι) (b : Bool) (i : ι) : Waits ι :=
  { w with queue := Function.update w.queue b (i :: w.queue b) }

inductive Step : Waits ι → Move ι → Waits ι → Prop where
  | arrive {w : Waits ι} {b : Bool} {i : ι} (h : i ∉ w.pending b) :
      Step w (.arrive b i) (arrive w b i)
  | leave {w : Waits ι} {b : Bool} {i : ι} (h : i ∈ awake w b) :
      Step w (.leave b i) (leave (wake w (!b)) b i)
  | rest {w : Waits ι} {b : Bool} {i : ι} (h : i ∈ awake w b) :
      Step w (.rest b i) (rest (wake w (!b)) b i)

def empty : Waits ι := ⟨fun _ => ∅, fun _ => []⟩

section Fields
variable (w : Waits ι) (b c : Bool) (i : ι)

theorem arrive_pending :
    (arrive w b i).pending c = if c = b then insert i (w.pending b) else w.pending c :=
  Function.update_apply ..

theorem leave_pending :
    (leave w b i).pending c = if c = b then (w.pending b).erase i else w.pending c :=
  Function.update_apply ..

@[simp] theorem leave_queue : (leave w b i).queue = w.queue := rfl

omit [DecidableEq ι] in
theorem wake_queue :
    (wake w b).queue c = if c = b then (w.queue b).dropLast else w.queue c :=
  Function.update_apply ..

omit [DecidableEq ι] in
@[simp] theorem wake_pending : (wake w b).pending = w.pending := rfl

omit [DecidableEq ι] in
theorem rest_queue : (rest w b i).queue c = if c = b then i :: w.queue b else w.queue c :=
  Function.update_apply ..

omit [DecidableEq ι] in
@[simp] theorem rest_pending : (rest w b i).pending = w.pending := rfl

end Fields

theorem mem_awake {w : Waits ι} {b : Bool} {i : ι} :
    i ∈ awake w b ↔ i ∈ w.pending b ∧ i ∉ w.queue b := Finset.mem_filter

omit [DecidableEq ι] in
theorem wellQueued_empty : WellQueued (empty : Waits ι) :=
  ⟨fun _ _ hi => absurd hi List.not_mem_nil, fun _ => List.nodup_nil⟩

omit [DecidableEq ι] in
theorem WellQueued.wake {w : Waits ι} (h : WellQueued w) (b : Bool) : WellQueued (wake w b) := by
  refine ⟨fun c i hi => h.pending c i ?_, fun c => ?_⟩
  · rw [wake_queue] at hi
    split_ifs at hi with hc
    · exact hc ▸ List.mem_of_mem_dropLast hi
    · exact hi
  · rw [wake_queue]
    split_ifs
    · exact (h.nodup b).sublist (List.dropLast_sublist _)
    · exact h.nodup c

theorem WellQueued.step {w w' : Waits ι} {m : Move ι} (h : WellQueued w) (hs : Step w m w') :
    WellQueued w' := by
  cases hs with
  | @arrive b i hnew =>
    refine ⟨fun c j hj => ?_, h.nodup⟩
    have hold := h.pending c j hj
    rw [arrive_pending]
    split_ifs with hc
    · exact Finset.mem_insert_of_mem (hc ▸ hold)
    · exact hold
  | @leave b i hi =>
    have hw := h.wake (!b)
    refine ⟨fun c j hj => ?_, hw.nodup⟩
    have hold := hw.pending c j hj
    rw [leave_pending]
    split_ifs with hc
    · refine Finset.mem_erase.mpr ⟨?_, hc ▸ hold⟩
      rintro rfl
      rw [leave_queue, wake_queue, if_neg (by simp [hc]), hc] at hj
      exact (mem_awake.mp hi).2 hj
    · exact hold
  | @rest b i hi =>
    have hw := h.wake (!b)
    obtain ⟨hpending, hqueue⟩ := mem_awake.mp hi
    refine ⟨fun c j hj => ?_, fun c => ?_⟩
    · rw [rest_queue] at hj
      split_ifs at hj with hc
      · rcases List.mem_cons.mp hj with rfl | hj
        · exact hc ▸ hpending
        · exact hc ▸ hw.pending b j hj
      · exact hw.pending c j hj
    · rw [rest_queue]
      split_ifs with hc
      · rw [wake_queue, if_neg (by simp)]
        exact List.nodup_cons.mpr ⟨hqueue, h.nodup b⟩
      · exact hw.nodup c

theorem WellQueued.awake_wake {w : Waits ι} (h : WellQueued w) {b : Bool}
    (hp : (w.pending b).Nonempty) : (awake (TwoSidedWaits.wake w b) b).Nonempty := by
  rcases List.eq_nil_or_concat (w.queue b) with hq | ⟨l, i, hq⟩
  · obtain ⟨i, hi⟩ := hp
    refine ⟨i, mem_awake.mpr ⟨hi, ?_⟩⟩
    rw [wake_queue, if_pos rfl, hq]
    exact List.not_mem_nil
  · rw [List.concat_eq_append] at hq
    have hnodup := h.nodup b
    rw [hq, List.nodup_append] at hnodup
    refine ⟨i, mem_awake.mpr ⟨h.pending b i ?_, ?_⟩⟩
    · rw [hq]
      exact List.mem_concat_self
    · rw [wake_queue, if_pos rfl, hq, List.dropLast_concat]
      exact fun hi => hnodup.2.2 i hi i (List.mem_singleton_self i) rfl

def Live (w : Waits ι) : Prop := (∀ b, (w.pending b).Nonempty) → ∃ b, (awake w b).Nonempty

theorem Live.of_step {w w' : Waits ι} {m : Move ι} (hw : WellQueued w) (hs : Step w m w') :
    Live w' := by
  intro hboth
  cases hs with
  | @arrive b i hnew =>
    refine ⟨b, i, mem_awake.mpr ⟨?_, fun hq => hnew (hw.pending b i hq)⟩⟩
    rw [arrive_pending, if_pos rfl]
    exact Finset.mem_insert_self i _
  | @leave b i hi =>
    have hother : (leave (wake w (!b)) b i).pending (!b) = w.pending (!b) := by
      rw [leave_pending, if_neg (by simp), wake_pending]
    have hp := hboth (!b)
    rw [hother] at hp
    obtain ⟨j, hj⟩ := hw.awake_wake hp
    obtain ⟨hj, hjq⟩ := mem_awake.mp hj
    exact ⟨!b, j, mem_awake.mpr ⟨hother ▸ hj, hjq⟩⟩
  | @rest b i hi =>
    obtain ⟨j, hj⟩ := hw.awake_wake (hboth (!b))
    obtain ⟨hj, hjq⟩ := mem_awake.mp hj
    refine ⟨!b, j, mem_awake.mpr ⟨hj, ?_⟩⟩
    rwa [rest_queue, if_neg (by simp)]

theorem awake_of_reach {w : Waits ι} {ms : List (Move ι)} (h : Reach Step empty ms w) :
    WellQueued w ∧ Live w := by
  refine h.invariant (fun _ w => WellQueued w ∧ Live w) ⟨wellQueued_empty, ?_⟩ ?_
  · intro hboth
    exact absurd (hboth true) Finset.not_nonempty_empty
  · intro ms w m w' _ hw hs
    exact ⟨hw.1.step hs, Live.of_step hw.1 hs⟩

section Turns
variable {w : Waits ι} {b : Bool} {i : ι}

theorem awake_rest : awake (rest (wake w (!b)) b i) b = (awake w b).erase i := by
  ext j
  rw [mem_awake, Finset.mem_erase, mem_awake, rest_queue, if_pos rfl, wake_queue,
    if_neg (by simp), List.mem_cons, rest_pending, wake_pending]
  tauto

theorem awake_leave : awake (leave (wake w (!b)) b i) b = (awake w b).erase i := by
  ext j
  rw [mem_awake, Finset.mem_erase, mem_awake, leave_pending, if_pos rfl, Finset.mem_erase,
    leave_queue, wake_queue, if_neg (by simp), wake_pending]
  tauto

end Turns

end Bingos.TwoSidedWaits
