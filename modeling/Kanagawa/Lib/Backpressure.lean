/-
  Kanagawa.Lib.Backpressure

  A buffer whose producer learns with a delay that it is filling up.

  Writes that are at least some number of cycles apart come to a bounded number in
  any window of cycles.  A buffer that is written only where, a fixed number of
  cycles before, it held less than a threshold holds, on top of the threshold, no
  more than what is written in a window of that length.
-/
import Mathlib

namespace Kanagawa.Backpressure

/-! ## Events in a window -/

/-- The number of cycles with an event, of `count` cycles from `first` on. -/
def events (event : Nat → Bool) (first count : Nat) : Nat :=
  (List.range' first count).countP event

/-- Events are at least `rate` cycles apart. -/
def Spaced (rate : Nat) (event : Nat → Bool) : Prop :=
  ∀ t t' : Nat, event t = true → event t' = true → t < t' → t + rate ≤ t'

variable {event : Nat → Bool} {rate first count : Nat}

theorem events_zero : events event first 0 = 0 := rfl

theorem events_cons :
    events event first (count + 1) = (event first).toNat + events event (first + 1) count := by
  rw [events, List.range'_succ, List.countP_cons, events, Nat.add_comm]
  cases event first <;> rfl

/-- A window is the sum of its parts. -/
theorem events_add (n : Nat) :
    events event first (count + n) = events event first count + events event (first + count) n := by
  rw [events, ← List.range'_append_1, List.countP_append]
  rfl

/-- The last cycle of a window. -/
theorem events_succ :
    events event first (count + 1) = events event first count + (event (first + count)).toNat := by
  rw [events_add, events_cons, events_zero, Nat.add_zero]

theorem events_eq_zero (h : ∀ i < count, event (first + i) = false) :
    events event first count = 0 := by
  induction count with
  | zero => rfl
  | succ n ih =>
    rw [events_succ, ih fun i hi => h i (Nat.lt_succ_of_lt hi), h n (Nat.lt_succ_self n)]
    rfl

/-- Windows of `count` cycles have one event for each `rate` cycles, rounded up. -/
theorem events_le (hrate : 0 < rate) (hspaced : Spaced rate event) (first count : Nat) :
    events event first count ≤ (count + rate - 1) / rate := by
  induction count using Nat.strong_induction_on generalizing first with
  | _ count ih =>
  cases count with
  | zero => exact Nat.zero_le _
  | succ n =>
    rw [events_cons]
    cases hevent : event first with
    | false =>
      have hrest := ih n (Nat.lt_succ_self n) (first + 1)
      have hmono : (n + rate - 1) / rate ≤ (n + 1 + rate - 1) / rate :=
        Nat.div_le_div_right (by omega)
      exact (Nat.zero_add _).le.trans (hrest.trans hmono)
    | true =>
      -- No event follows for `rate - 1` cycles
      have hnone : ∀ i, i + 1 < rate → event (first + 1 + i) = false := by
        intro i hi
        by_contra htrue
        have hle := hspaced first (first + 1 + i) hevent (Bool.eq_true_of_not_eq_false htrue)
          (by omega)
        omega
      have hround : (n + 1 + rate - 1) / rate = n / rate + 1 := by
        rw [← Nat.add_div_right n hrate]
        congr 1
        omega
      rw [hround]
      change 1 + _ ≤ _
      by_cases hn : n < rate
      · rw [events_eq_zero fun i hi => hnone i (by omega)]
        exact Nat.le_add_left 1 _
      · have hsplit : n = rate - 1 + (n + 1 - rate) := by omega
        have hrest := ih (n + 1 - rate) (by omega) (first + 1 + (rate - 1))
        have hdiv : (n + 1 - rate + rate - 1) / rate = n / rate := by
          congr 1
          omega
        rw [hsplit, events_add, events_eq_zero fun i hi => hnone i (by omega), ← hsplit]
        rw [hdiv] at hrest
        omega

/-! ## Levels -/

/-- What a buffer holds grows by no more than what is written. -/
theorem level_le_add_events {used : Nat → Nat} {write : Nat → Bool}
    (hstep : ∀ t, used (t + 1) ≤ used t + (write t).toNat) (t n : Nat) :
    used (t + n) ≤ used t + events write t n := by
  induction n with
  | zero => exact Nat.le_refl _
  | succ n ih =>
    calc used (t + (n + 1)) ≤ used (t + n) + (write (t + n)).toNat := hstep (t + n)
      _ ≤ used t + events write t n + (write (t + n)).toNat := Nat.add_le_add_right ih _
      _ = used t + events write t (n + 1) := by rw [events_succ, Nat.add_assoc]

/-- A sum is rounded up to no more than the parts. -/
theorem roundUp_add_le (hrate : 0 < rate) (m n : Nat) :
    (m + n + rate - 1) / rate ≤ (m + rate - 1) / rate + n := by
  have hle : m + n + rate - 1 ≤ (m + rate - 1) + rate * n := by
    have := Nat.le_mul_of_pos_left n hrate
    omega
  exact (Nat.div_le_div_right hle).trans_eq (Nat.add_mul_div_left _ _ hrate)

/-- A buffer that is empty at first, is written no sooner than cycle `stage`, at most
    once in `rate` cycles, and only where it held less than the threshold
    `stage + latency` cycles before, never holds more than the threshold and what is
    written in the meantime. -/
theorem level_le {used : Nat → Nat} {write : Nat → Bool} {stage latency threshold depth : Nat}
    (hrate : 0 < rate) (hempty : used 0 = 0)
    (hstep : ∀ t, used (t + 1) ≤ used t + (write t).toNat) (hspaced : Spaced rate write)
    (hstart : ∀ t < stage, write t = false)
    (hgate : ∀ t, write (t + (stage + latency)) = true → used t < threshold)
    (hdepth : threshold + ((stage + rate - 1) / rate + latency) ≤ depth) (t : Nat) :
    used t ≤ depth := by
  induction t with
  | zero =>
    rw [hempty]
    exact Nat.zero_le _
  | succ t ih =>
    cases hwrite : write t with
    | false =>
      have hle := hstep t
      rw [hwrite] at hle
      exact hle.trans ih
    | true =>
      by_cases hlate : stage + latency ≤ t
      · -- Count from the cycle that decided about this write
        obtain ⟨u, rfl⟩ := Nat.exists_eq_add_of_le' hlate
        have hlow := hgate u hwrite
        have hgrowth := level_le_add_events hstep u (stage + latency + 1)
        have hevents := events_le hrate hspaced u (stage + latency + 1)
        have hround := roundUp_add_le hrate stage (latency + 1)
        rw [← Nat.add_assoc] at hround
        rw [Nat.add_assoc u]
        omega
      · -- Nothing is written before cycle `stage`
        have hgrowth := level_le_add_events hstep 0 (t + 1)
        have hle : stage ≤ t := by
          by_contra hlt
          rw [hstart t (by omega)] at hwrite
          cases hwrite
        have hsplit : t + 1 = stage + (t + 1 - stage) := by omega
        have hnone : events write 0 stage = 0 := events_eq_zero fun i hi => by
          rw [Nat.zero_add]
          exact hstart i hi
        have hevents := events_le hrate hspaced (0 + stage) (t + 1 - stage)
        have hround := roundUp_add_le hrate 0 (t + 1 - stage)
        have hzero : (0 + rate - 1) / rate = 0 := Nat.div_eq_of_lt (by omega)
        rw [hzero, Nat.zero_add] at hround
        have hparts : events write 0 (t + 1) =
            events write 0 stage + events write (0 + stage) (t + 1 - stage) := by
          rw [← events_add, ← hsplit]
        rw [hparts, hnone, hempty, Nat.zero_add, Nat.zero_add, Nat.zero_add] at hgrowth
        have hroom : latency ≤ depth :=
          ((Nat.le_add_left _ _).trans (Nat.le_add_left _ _)).trans hdepth
        omega

end Kanagawa.Backpressure
