import Mathlib.Tactic.IntervalCases
import Mnthr.L2Sched.Machine

/-!
# Deadlines and the poll timeout

A relative delay becomes a value of the clock (`deadline`), and the earliest
value in the sleep queue becomes the time that `mnthr_loop` waits in `kevent`.
Both are 64-bit arithmetic next to the reserved values of `expire_ticks`.

* `deadlines_sound_iff`: the delays up to a bound all have sound deadlines
  exactly when the deadline of the bound stays below `MNTHR_SLEEP_FOREVER`, and
  the clock is not 0 where the unit is a tick.
* `timeout_sound_iff`: the timeout is sound exactly when the earliest entry is
  less than 2^63 ticks ahead.
-/
namespace Mnthr

/-! ## Deadlines -/

/-- What a thread that sleeps for `v` relies on. -/
structure DeadlineSound (now : Nat) (u : TimeUnit) (v : Nat) : Prop where
  later : now < deadline now u v
  plain : deadline now u v ∉ [SLEEP_UNDEFINED, SLEEP_RESUME_NOW, SLEEP_FOREVER]
  monotone : ∀ w, 0 < w → w ≤ v → deadline now u w ≤ deadline now u v

theorem TimeUnit.scale_pos (u : TimeUnit) : 0 < u.scale := by cases u <;> decide

theorem TimeUnit.scale_le (u : TimeUnit) : u.scale ≤ 1000000 := by cases u <;> decide

section
variable {now v V : Nat} {u : TimeUnit}

theorem deadline_eq (h0 : 0 < v) (hv : v < SLEEP_FOREVER) :
    deadline now u v = (now + v * u.scale) % 2 ^ 64 := by
  unfold deadline
  rw [if_neg (Nat.ne_of_lt hv), if_neg (Nat.ne_of_gt h0)]

/-- Below the reserved value nothing wraps. -/
theorem deadline_of_lt (h0 : 0 < v) (hv : now + v * u.scale < SLEEP_FOREVER) :
    deadline now u v = now + v * u.scale := by
  have hle : v ≤ v * u.scale := Nat.le_mul_of_pos_right v u.scale_pos
  have hmax : SLEEP_FOREVER < 2 ^ 64 := by decide
  rw [deadline_eq h0 (by omega), Nat.mod_eq_of_lt (by omega)]

theorem sound_of_lt (h0 : 0 < v) (hv : now + v * u.scale < SLEEP_FOREVER)
    (hclock : ¬ (now = 0 ∧ u.scale = 1)) : DeadlineSound now u v := by
  have hle : v ≤ v * u.scale := Nat.le_mul_of_pos_right v u.scale_pos
  have hd := deadline_of_lt h0 hv
  refine ⟨by omega, ?_, fun w hw hwv => ?_⟩
  · have h1 : now + v * u.scale ≠ 1 := by
      intro h1
      have hs := u.scale_pos
      have hscale : u.scale ≤ v * u.scale := Nat.le_mul_of_pos_left u.scale h0
      exact hclock ⟨by omega, by omega⟩
    simp only [hd, List.mem_cons, List.not_mem_nil, or_false, SLEEP_UNDEFINED, SLEEP_RESUME_NOW]
    omega
  · have hmul : w * u.scale ≤ v * u.scale := Nat.mul_le_mul_right u.scale hwv
    rw [hd, deadline_of_lt hw (by omega)]
    omega

/-- The first delay whose deadline does not fit has an unsound one: it is
`MNTHR_SLEEP_FOREVER`, or it wraps below that of the delay before. -/
theorem unsound_of_first (hnow : now < 2 ^ 63) (hv : v + 1 < SLEEP_FOREVER)
    (hfit : now + v * u.scale < SLEEP_FOREVER) (hlast : SLEEP_FOREVER ≤ now + (v + 1) * u.scale) :
    ¬ DeadlineSound now u (v + 1) := by
  intro h
  have hscale := u.scale_le
  have hmul : (v + 1) * u.scale = v * u.scale + u.scale := Nat.succ_mul v u.scale
  have hd : deadline now u (v + 1) = (now + (v + 1) * u.scale) % 2 ^ 64 :=
    deadline_eq (Nat.succ_pos v) hv
  have hmax : SLEEP_FOREVER = 2 ^ 64 - 1 := rfl
  by_cases heq : now + (v + 1) * u.scale = SLEEP_FOREVER
  · rw [heq] at hd
    exact h.plain (by rw [hd]; decide)
  · have hw : deadline now u (v + 1) + 2 ^ 64 = now + (v + 1) * u.scale := by omega
    rcases Nat.eq_zero_or_pos v with rfl | hpos
    · omega
    · have hprev := h.monotone v hpos (Nat.le_succ v)
      rw [deadline_of_lt hpos hfit] at hprev
      omega

theorem sound_up_to (hnow : now < 2 ^ 63) (hV : V < SLEEP_FOREVER)
    (h : ∀ v, 0 < v → v ≤ V → DeadlineSound now u v) :
    ∀ v, v ≤ V → now + v * u.scale < SLEEP_FOREVER := by
  intro v
  induction v with
  | zero =>
    intro _
    simp only [SLEEP_FOREVER]
    omega
  | succ v ih =>
    intro hle
    by_contra hlast
    exact unsound_of_first hnow (Nat.lt_of_le_of_lt hle hV) (ih (Nat.le_of_succ_le hle))
      (Nat.not_lt.1 hlast) (h (v + 1) (Nat.succ_pos v) hle)

end

/-- For every clock below 2^63, unit and bound `V`, other than 0 and
`MNTHR_SLEEP_FOREVER`: all delays up to `V` have sound deadlines exactly when
that of `V` stays below the reserved values and a tick is not 1. -/
theorem deadlines_sound_iff (now : Nat) (u : TimeUnit) (V : Nat) (hnow : now < 2 ^ 63)
    (hV0 : 0 < V) (hV : V < SLEEP_FOREVER) :
    (∀ v, 0 < v → v ≤ V → DeadlineSound now u v) ↔
      now + V * u.scale < SLEEP_FOREVER ∧ ¬ (now = 0 ∧ u.scale = 1) := by
  constructor
  · intro h
    refine ⟨sound_up_to hnow hV h V (Nat.le_refl V), fun hclock => ?_⟩
    obtain ⟨hn, hu⟩ := hclock
    refine (h 1 (by decide) hV0).plain ?_
    rw [deadline_eq (by decide) (by decide), hn, hu]
    decide
  · intro h v h0 hle
    have hmul : v * u.scale ≤ V * u.scale := Nat.mul_le_mul_right u.scale hle
    exact sound_of_lt h0 (by omega) h.2

/-- A second of milliseconds. -/
theorem deadlines_sound_second : DeadlineSound 7 .msec 1000 :=
  (deadlines_sound_iff 7 .msec 1000 (by decide) (by decide) (by decide)).2 (by decide) 1000
    (by decide) (by decide)

/-- A sleep of 2^64 / 1000 microseconds, rounded up, ends before one of a
microsecond that started at the same time. -/
theorem long_sleep_wraps :
    deadline 1700000000000000000 .usec 18446744073709552 = 1700000000000000384 ∧
      deadline 1700000000000000000 .usec 1 = 1700000000000001000 ∧
      ¬ DeadlineSound 1700000000000000000 .usec 18446744073709552 :=
  ⟨by decide, by decide, fun h => absurd (h.monotone 1 (by decide) (by decide)) (by decide)⟩

/-- `yield` out of a call leaves the other fields of the context alone. -/
theorem yieldAs_expireTicks {s s' : St} {c : Ptr} {k : Call} {eintr : Bool} (hme : s.me = some c)
    (hst : (s.ctx c).state.resumable) (h : s.yieldAs k eintr = some s') :
    (s'.ctx c).expireTicks = (s.ctx c).expireTicks := by
  simp only [St.yieldAs, hme, Option.bind_some, St.swapBack] at h
  split at h
  · cases h; simp [St.setCtx]
  · split at h
    · cases h
    · rw [if_pos (by simpa [St.setCtx] using hst)] at h
      cases h
      simp [St.setCtx]

theorem sleepUntil_expireTicks {s s' : St} {c : Ptr} {d : Nat} {k : Call} {eintr : Bool}
    (hme : s.me = some c) (hst : (s.ctx c).state.resumable)
    (h : s.sleepUntil d k eintr = some s') : (s'.ctx c).expireTicks = d := by
  simp only [St.sleepUntil, hme, Option.bind_some] at h
  rw [yieldAs_expireTicks (by exact hme) ?_ h]
  · simp [St.sleepqEnqueue, St.setCtx]
  · simpa [St.sleepqEnqueue, St.sleepqRemove, St.setCtx] using hst

/-- The value `mnthr_sleep_usec`, `mnthr_sleep` and `mnthr_sleep_ticks` store. -/
theorem sleep_deadline {D : Diag} {s s' : St} {c : Ptr} {u : TimeUnit} {v : Nat} {eintr : Bool}
    (hpc : s.pc = .user c) (hme : s.me = some c)
    (h : s.step D (.block (.sleep u v) eintr) = some s') :
    (s'.ctx c).expireTicks = deadline s.now u v := by
  simp only [St.step, hpc, St.block] at h
  split at h
  · split at h
    · obtain ⟨s1, hs1, h⟩ := Option.bind_eq_some_iff.1 h
      simp only [St.setState, hme, Option.map_some, Option.some.injEq] at hs1
      subst hs1
      exact sleepUntil_expireTicks (by exact hme) (by simp [St.setCtx, CoState.resumable]) h
    · cases h
  · cases h

/-! ## The poll timeout -/

/-- `struct timespec` -/
structure Timespec where
  sec : Int
  nsec : Int
  deriving DecidableEq, Repr

/-- mirrors src/kevent_poller.c:639-640: the host under the smallest key. -/
def St.earliest (s : St) : Option Ptr := s.sleepq.trie.entries.head?.map Prod.snd

/-- mirrors src/kevent_poller.c:655-658 without `USE_TSC`: `diff` is an
`int64_t`, and `/` and `%` truncate towards zero. -/
def splitTicks (d now : Nat) : Timespec :=
  let diff : Int := ((d : Int) - now).bmod (2 ^ 64)
  ⟨diff.tdiv 1000000000, diff.tmod 1000000000⟩

/-- mirrors src/kevent_poller.c:638-672; `none` is no timeout. -/
def St.timeout (s : St) : Option Timespec :=
  s.earliest.map fun c =>
    if s.now < (s.ctx c).expireTicks then splitTicks (s.ctx c).expireTicks s.now else ⟨0, 0⟩

/-- The time until `d`, in a form that the kernel accepts. -/
structure Timespec.Sound (d now : Nat) (t : Timespec) : Prop where
  sec : 0 ≤ t.sec
  nsec : 0 ≤ t.nsec ∧ t.nsec < 1000000000
  exact : now < d → t.sec * 1000000000 + t.nsec = d - now

theorem splitTicks_sound_iff {d now : Nat} (hlt : now < d) (hd : d < 2 ^ 64) :
    (splitTicks d now).Sound d now ↔ d < now + 2 ^ 63 := by
  have hdiv : ∀ x : Int, x.tmod 1000000000 + x.tdiv 1000000000 * 1000000000 = x := fun x =>
    Int.tmod_add_tdiv_mul x 1000000000
  constructor
  · intro h
    by_contra hge
    -- the difference is stored as a negative number, so one part is negative
    have hneg : ((d : Int) - now).bmod (2 ^ 64) < 0 := by
      rw [Int.bmod_def]
      omega
    have hx := hdiv (((d : Int) - now).bmod (2 ^ 64))
    have hsec := h.sec
    have hnsec := h.nsec.1
    simp only [splitTicks] at hsec hnsec
    omega
  · intro hge
    have hdiff : ((d : Int) - now).bmod (2 ^ 64) = d - now :=
      Int.bmod_eq_of_le (by omega) (by omega)
    have hx := hdiv ((d : Int) - now)
    have h0 : 0 ≤ (d : Int) - now := by omega
    refine ⟨?_, ⟨?_, ?_⟩, fun _ => ?_⟩ <;> simp only [splitTicks, hdiff]
    · exact Int.tdiv_nonneg h0 (by decide)
    · exact Int.tmod_nonneg _ h0
    · exact Int.tmod_lt_of_pos _ (by decide)
    · omega

/-- For every sleep queue and clock: the timeout is sound exactly when the
earliest entry is less than 2^63 ticks ahead. -/
theorem timeout_sound_iff (s : St)
    (hticks : ∀ c, s.earliest = some c → (s.ctx c).expireTicks < 2 ^ 64) :
    (∀ c t, s.earliest = some c → s.timeout = some t →
        t.Sound (s.ctx c).expireTicks s.now) ↔
      ∀ c, s.earliest = some c → (s.ctx c).expireTicks < s.now + 2 ^ 63 := by
  have htimeout : ∀ {c}, s.earliest = some c → s.timeout = some
      (if s.now < (s.ctx c).expireTicks then splitTicks (s.ctx c).expireTicks s.now else ⟨0, 0⟩) := by
    intro c hc
    rw [St.timeout, hc, Option.map_some]
  constructor
  · intro h c hc
    have hs := h c _ hc (htimeout hc)
    by_cases hlt : s.now < (s.ctx c).expireTicks
    · rw [if_pos hlt] at hs
      exact (splitTicks_sound_iff hlt (hticks c hc)).1 hs
    · omega
  · intro h c t hc ht
    obtain rfl := Option.some.inj ((htimeout hc).symm.trans ht)
    by_cases hlt : s.now < (s.ctx c).expireTicks
    · rw [if_pos hlt]
      exact (splitTicks_sound_iff hlt (hticks c hc)).2 (h c hc)
    · rw [if_neg hlt]
      exact ⟨by decide, by decide, fun h' => absurd h' hlt⟩

/-- The only thread sleeps, or gives up, at 10; later it is 25. -/
def oneSleeper (b : Blk) : List Event :=
  [.call (.spawn 0), .tick 10, .sift, .next, .block b false, .tick 25]

/-- A sleep of 3 ms from 10 on, seen at 25. -/
theorem timeout_sound_sleeper : ∃ s, sampleRun (oneSleeper (.sleep .msec 3)) = some s ∧
    s.timeout = some ⟨0, 2999985⟩ ∧ Timespec.Sound 3000010 25 ⟨0, 2999985⟩ := by
  obtain ⟨s, hs⟩ := Option.isSome_iff_exists.1
    (show (sampleRun (oneSleeper (.sleep .msec 3))).isSome by decide)
  have hc : s.earliest = some 0 := sampleRun_fact hs (f := St.earliest) (by decide)
  have ht : s.timeout = some ⟨0, 2999985⟩ := sampleRun_fact hs (f := St.timeout) (by decide)
  have hd : (s.ctx 0).expireTicks = 3000010 :=
    sampleRun_fact hs (f := fun s => (s.ctx 0).expireTicks) (by decide)
  have hn : s.now = 25 := sampleRun_fact hs (f := St.now) (by decide)
  refine ⟨s, hs, ht, ?_⟩
  rw [← hd, ← hn]
  refine (timeout_sound_iff s fun c hc' => ?_).2 (fun c hc' => ?_) 0 _ hc ht <;>
    cases hc.symm.trans hc' <;> omega

/-- With a thread that gave up alone in the queue, the timeout is 26 ns in the
past. -/
theorem timeout_negative : ∃ s t, sampleRun (oneSleeper .giveup) = some s ∧
    s.earliest = some 0 ∧ s.timeout = some t ∧ t = ⟨0, -26⟩ ∧
    ¬ t.Sound (s.ctx 0).expireTicks s.now := by
  obtain ⟨s, hs⟩ := Option.isSome_iff_exists.1
    (show (sampleRun (oneSleeper .giveup)).isSome by decide)
  exact ⟨s, ⟨0, -26⟩, hs, sampleRun_fact hs (f := St.earliest) (by decide),
    sampleRun_fact hs (f := St.timeout) (by decide), rfl,
    fun h => absurd h.nsec.1 (by decide)⟩

end Mnthr
