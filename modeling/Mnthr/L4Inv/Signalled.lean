import Mnthr.L4Inv.Untimed
import Mnthr.L2Sched.Grants

/-!
# Signalled threads

In the fragment without interrupts and timed waits a thread that was taken off
a wait queue is suspended off the queue, or has just been switched back to,
until it goes on (`Signalled`); it cannot be queued again before that, so the
history `signalled` names every such thread once (`SignalledInv`).
-/
namespace Mnthr
open St

/-- `t` is in a call that waits on `q`, and off the queue. -/
structure Signalled (q : Waitq) (s : St) (t : Ptr) : Prop where
  live : (s.ctx t).state ≠ .dormant
  off : s.wq.hosting t = none
  call : ∃ k, k.queue = some q ∧
    ((s.pc.runs ≠ some t ∧ (s.ctx t).uc = k) ∨ s.pc = .post t k)

structure SignalledInv (q : Waitq) (p : St × List Ptr) : Prop where
  inv : UntimedInv p.1
  nodup : p.2.Nodup
  all : ∀ t ∈ p.2, Signalled q p.1 t

section
variable {D : Diag} {e : Event} {s s' : St} {t : Ptr} {q : Waitq} {k : Call}

/-- A thread that has yet to go on and does not run is left alone, or switched
to. -/
theorem Signalled.keep (hI : UntimedInv s) (hp : Untimed s e) (hs : s.step D e = some s')
    (hlive : (s.ctx t).state ≠ .dormant) (hr : s.pc.runs ≠ some t)
    (hk : (s.ctx t).uc.queue = some q) (hoff : s'.wq.hosting t = none) : Signalled q s' t := by
  have hlive' : (s'.ctx t).state ≠ .dormant := by
    rcases live_step hI hp hs hlive with h | ⟨-, hpc⟩
    · exact h
    · exact absurd (by rw [hpc]; rfl) hr
  refine ⟨hlive', hoff, _, hk, ?_⟩
  rcases blocked_step hI hp hs hlive hr with h | ⟨rfl, hn, -⟩
  · exact .inl h
  · have hr := hI.sleep.resumable (.inr (mem_pending_of_nextPick hn))
    exact .inr (next_post hs hn hr fun h0 => by rw [h0] at hk; cases hk)

/-- A queued thread does not run. -/
theorem UntimedInv.queued (hI : UntimedInv s) (hq : s.wq.hosting t = some q) :
    s.pc.runs ≠ some t ∨ s.pc = .lib t := by
  cases hpc : s.pc with
  | sched => exact .inl (by simp [Pc.runs])
  | lib x =>
    by_cases hx : x = t
    · exact .inr (by rw [hx])
    · exact .inl (by simpa [Pc.runs] using hx)
  | user x =>
    refine .inl fun hx => ?_
    cases hx
    rw [hI.tidy.user t hpc] at hq
    cases hq
  | post x k =>
    refine .inl fun hx => ?_
    cases hx
    obtain ⟨y, n, hk, -⟩ := hI.tidy.back t k q hpc hq
    rw [Call.plain_target (hI.calls.post t k hpc)] at hk
    cases hk

/-- A thread that an event takes off the queue. -/
theorem signalled_new (hI : UntimedInv s) (hp : Untimed s e) (hs : s.step D e = some s')
    (hc : ∀ b, e ≠ .cont b) (ht : t ∈ s.wq.queue q) (ht' : t ∉ s'.wq.queue q) :
    s.wq.hosting t = some q ∧ Signalled q s' t := by
  have hq := (hI.tidy.ok.mem t q).1 ht
  have hI' := untimed_step hI hp hs
  have hr : s.pc.runs ≠ some t := by
    rcases hI.queued hq with hr | hpc
    · exact hr
    · have := (busy_step (by simp [hpc]) (by simp [hpc]) hc hs).2.1
      rw [this] at ht'
      exact absurd ht ht'
  have hw := hI.tidy.parked t q hq hr
  refine ⟨hq, .keep hI hp hs (resumable_ne hw.resumable).1 hr hw.queue ?_⟩
  by_contra hn
  obtain ⟨q', hq'⟩ := Option.ne_none_iff_exists'.1 hn
  have := hosting_step hI hp hs hr hq'
  rw [hq] at this
  cases this
  exact ht' ((hI'.tidy.ok.mem t q).2 hq')

/-- How the history of `q` changes: a signalled thread goes on, a thread goes on
in another call, or those that leave the queue are added. -/
theorem signals_cases {p p' : St × List Ptr} (hs : signals D q p e = some p') :
    (∃ b t k, e = .cont b ∧ p.1.pc = .post t k ∧ k.queue = some q ∧ p'.2 = p.2.erase t) ∨
    (∃ b t k, e = .cont b ∧ p.1.pc = .post t k ∧ k.queue ≠ some q ∧ p'.2 = p.2) ∨
    ((∀ b, e ≠ .cont b) ∧
      p'.2 = p.2 ++ (p.1.wq.queue q).filter fun t => decide (t ∉ p'.1.wq.queue q)) := by
  obtain ⟨hstep, hrec⟩ := recorded_step hs
  rw [hrec]
  cases e with
  | cont b =>
    cases hpc : p.1.pc with
    | post t k =>
      by_cases hk : k.queue = some q
      · exact .inl ⟨b, t, k, rfl, rfl, hk, by simp [signalled, hpc, hk]⟩
      · exact .inr (.inl ⟨b, t, k, rfl, rfl, hk, by simp [signalled, hpc, hk]⟩)
    | _ => simp [step, hpc] at hstep
  | _ => exact .inr (.inr ⟨by simp, rfl⟩)

theorem signalled_step {p p' : St × List Ptr} (h : SignalledInv q p) (hp : Untimed p.1 e)
    (hs : signals D q p e = some p') : SignalledInv q p' := by
  obtain ⟨hI, hnd, hall⟩ := h
  have hstep := (recorded_step hs).1
  have hI' := untimed_step hI hp hstep
  -- who was signalled before and does not run
  have keep : ∀ t ∈ p.2, p.1.pc.runs ≠ some t → Signalled q p'.1 t := by
    intro t ht hr
    obtain ⟨hlive, hoff, k, hk, hcase⟩ := hall t ht
    rcases hcase with ⟨-, huc⟩ | hpc
    · refine .keep hI hp hstep hlive hr (by rw [huc]; exact hk) ?_
      by_contra hn
      obtain ⟨q', hq'⟩ := Option.ne_none_iff_exists'.1 hn
      rw [hosting_step hI hp hstep hr hq'] at hoff
      cases hoff
    · exact absurd (by rw [hpc]; rfl) hr
  -- who goes on is not in the history any more
  have went : ∀ {t₀ k₀}, p.1.pc = .post t₀ k₀ → (∀ t ∈ p'.2, t ∈ p.2 ∧ t ≠ t₀) →
      ∀ t ∈ p'.2, Signalled q p'.1 t := by
    intro t₀ k₀ hpc hmem t ht
    obtain ⟨h1, h2⟩ := hmem t ht
    exact keep t h1 (by rw [hpc]; simpa [Pc.runs] using h2.symm)
  rcases signals_cases hs with ⟨-, t₀, k₀, -, hpc, hk, hP⟩ | ⟨-, t₀, k₀, -, hpc, hk, hP⟩ | ⟨hc, hP⟩
  · refine ⟨hI', by rw [hP]; exact hnd.erase _, went hpc fun t ht => ?_⟩
    rw [hP] at ht
    exact ((List.Nodup.mem_erase_iff hnd).1 ht).symm
  · refine ⟨hI', by rw [hP]; exact hnd, went hpc fun t ht => ?_⟩
    rw [hP] at ht
    refine ⟨ht, ?_⟩
    intro heq
    subst heq
    obtain ⟨-, -, k, hk', hcase⟩ := hall t ht
    rcases hcase with ⟨hr, -⟩ | hpc'
    · exact hr (by rw [hpc]; rfl)
    · rw [hpc] at hpc'
      cases hpc'
      exact hk hk'
  · have hnew : ∀ t ∈ (p.1.wq.queue q).filter fun t => decide (t ∉ p'.1.wq.queue q),
        p.1.wq.hosting t = some q ∧ Signalled q p'.1 t := by
      intro t ht
      obtain ⟨h1, h2⟩ := List.mem_filter.1 ht
      exact signalled_new hI hp hstep hc h1 (of_decide_eq_true h2)
    refine ⟨hI', ?_, fun t ht => ?_⟩
    · rw [hP]
      refine List.nodup_append.2 ⟨hnd, (hI.tidy.ok.nodup q).filter _, ?_⟩
      intro a ha b hb heq
      subst heq
      have h1 := (hnew a hb).1
      rw [(hall a ha).off] at h1
      cases h1
    · rw [hP] at ht
      rcases List.mem_append.1 ht with ht | ht
      swap
      · exact (hnew t ht).2
      by_cases hr : p.1.pc.runs = some t
      swap
      · exact keep t ht hr
      obtain ⟨hlive, hoff, k, hk, hcase⟩ := hall t ht
      rcases hcase with ⟨hn, -⟩ | hpc
      · exact absurd hr hn
      obtain ⟨h1, h2, h3⟩ := busy_step (by simp [hpc]) (by simp [hpc]) hc hstep
      exact ⟨by rw [h1]; exact hlive, by rw [h2]; exact hoff, k, hk, .inr (by rw [h3]; exact hpc)⟩

theorem signalled_exec {objs : Objs} {now : Nat} {es : List Event} {l : List Ptr}
    (hr : exec (signals D q) (St.init objs now, []) es = some (s, l))
    (hc : Along (St.step D) Untimed (St.init objs now) es) : SignalledInv q (s, l) :=
  exec_inv (fun _ _ _ hu hpu hs => signalled_step hu hpu hs)
    ⟨untimed_init objs now, List.nodup_nil, by simp⟩
    ((along_recorded (p := (St.init objs now, []))).1 hc) hr

end

end Mnthr
