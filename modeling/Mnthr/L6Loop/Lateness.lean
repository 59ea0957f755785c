import Mnthr.L3Micro.Clock
import Mnthr.L6Loop.Turns

/-!
# How late a timed wait ends

`wakes_in_time`: a thread that waits with a deadline is taken out of the sleep
queue after it, and no later than `σ + δ` after it, when

* a round, from the start of its sift to the return of the kernel, takes at
  most `σ` longer than the timeout that the kernel was given, and
* the batch loop, from there to the next sift, takes at most `δ`.

Time is not under the control of the library, so these are hypotheses
(`Prompt`), as is that no deadline lies in the past. `LoopMark` is a history
variable: when the current round, or the batch loop, began.
-/
namespace Mnthr
open St

/-- The last reading of the clock by `mnthr_loop`, and in which of its two parts. -/
inductive LoopMark where
  | none
  | round (since : Nat)
  | batch (since : Nat)
  deriving DecidableEq, Repr

namespace Loop

def mark (l : Loop) (e : LoopEvent) (_ : Loop) (m : LoopMark) : LoopMark :=
  match e with
  | .call => .none
  | .test v => if l.shutdown then m else .round v
  | .kevent v _ => .batch v
  | _ => m

/-- The loop with its marks. -/
def marked (D : KevBuild) : Loop × LoopMark → LoopEvent → Option (Loop × LoopMark) :=
  recorded (step D) mark

end Loop

namespace LoopEvent

/-- The clock is set. -/
def clock : LoopEvent → Option Nat
  | .test v | .kevent v _ | .thread (.tick v) => some v
  | _ => none

/-- The clock is read by `mnthr_loop` itself. -/
def reads : LoopEvent → Option Nat
  | .test v | .kevent v _ => some v
  | _ => none

/-- The deadline under which the step puts the running thread in the sleep queue. -/
def deadline (s : St) : LoopEvent → Option Nat
  | .thread k => s.deadlineOf k
  | _ => none

end LoopEvent

/-- The ticks to the first deadline, when somebody sleeps. -/
def St.ticksLeft (s : St) : Option Nat := s.earliest.map fun c => (s.ctx c).expireTicks - s.now

/-- `v` is not too late for the next reading of the clock by `mnthr_loop`. -/
def ReadInTime (σ δ : Nat) (l : Loop) (m : LoopMark) (v : Nat) : Prop :=
  match m with
  | .none => True
  | .round b => ∀ w ∈ l.st.ticksLeft, v ≤ b + w + σ
  | .batch b => v ≤ b + δ

instance (σ δ : Nat) (l : Loop) (m : LoopMark) (v : Nat) : Decidable (ReadInTime σ δ l m v) := by
  unfold ReadInTime
  cases m <;> infer_instance

/-- The clock does not go back, `mnthr_loop` reads it in time, and no deadline is
in the past. -/
def Prompt (σ δ : Nat) (l : Loop) (m : LoopMark) (e : LoopEvent) : Prop :=
  (∀ v ∈ e.clock, l.st.now ≤ v) ∧ (∀ v ∈ e.reads, ReadInTime σ δ l m v) ∧
    ∀ d ∈ e.deadline l.st, d ≤ SLEEP_RESUME_NOW ∨ l.st.now ≤ d

instance (σ δ : Nat) (l : Loop) (m : LoopMark) (e : LoopEvent) : Decidable (Prompt σ δ l m e) := by
  unfold Prompt
  infer_instance

/-- No deadline in the sleep queue is more than `slack` before `b`. -/
def Fresh (slack b : Nat) (s : St) : Prop :=
  ∀ c ∈ s.sleepq.all, SLEEP_RESUME_NOW < (s.ctx c).expireTicks → b ≤ (s.ctx c).expireTicks + slack

section
variable {D : Diag} {e : Event} {es : List Event} {s s' : St} {slack b : Nat}

theorem fresh_step (hI : Inv s) (hS : SleepInv s) (hc : Calm s e) (he : e ≠ .sift)
    (hs : s.step D e = some s')
    (hd : ∀ d ∈ s.deadlineOf e, d ≤ SLEEP_RESUME_NOW ∨ b ≤ d + slack) (h : Fresh slack b s) :
    Fresh slack b s' := by
  intro c hin hk
  rcases key_step hI hS hc he hs hin hk with ⟨h1, h2⟩ | h1
  · rw [h2] at hk ⊢
    exact h c h1 hk
  · exact (hd _ h1).resolve_left (Nat.not_le.2 hk)

/-- Events that compute no deadline and do not set the clock. -/
theorem fresh_exec (hI : Inv s) (hS : SleepInv s) (hc : Along (St.step D) Calm s es)
    (hr : exec (St.step D) s es = some s')
    (hes : ∀ k ∈ es, k ≠ .sift ∧ (∀ v, k ≠ .tick v) ∧ ∀ u, St.deadlineOf u k = none)
    (h : Fresh slack b s) : Fresh slack b s' ∧ s'.now = s.now := by
  refine calm_exec (I := fun u => Fresh slack b u ∧ u.now = s.now)
    (C := fun k => k ≠ .sift ∧ (∀ v, k ≠ .tick v) ∧ ∀ u, St.deadlineOf u k = none)
    hI hS hc hes hr ⟨h, rfl⟩ ?_
  intro u k v hIu hSu hu hk hC hv
  refine ⟨fresh_step hIu hSu hk hC.1 hv (by simp [hC.2.2 u]) hu.1, ?_⟩
  exact ((now_step hv).resolve_left fun ⟨w, hw⟩ => hC.2.1 w hw).trans hu.2

theorem fresh_sift (hS : SleepInv s) (hs : s.sift = some s') : Fresh 0 s.now s' := by
  intro c hin _
  obtain ⟨-, hx, hle⟩ := key_sift hS hs hin
  rw [hx]
  exact hle

/-- At the end of a round that is in time. -/
theorem Fresh.returned {σ v : Nat} (hS : SleepInv s) (h : Fresh 0 b s) (hb : b ≤ s.now)
    (hv : ∀ w ∈ s.ticksLeft, v ≤ b + w + σ) : Fresh σ v s := by
  intro c hin hk
  have hle := h c hin hk
  cases hx : s.earliest with
  | none =>
    rw [earliest_none hx] at hin
    cases hin
  | some x =>
    have hmin := (earliest_le hS hx).2 c hin
    have := hv ((s.ctx x).expireTicks - s.now) (by rw [St.ticksLeft, hx]; rfl)
    omega

end

/-- What the marks say of the sleep queue. -/
structure Timely (σ : Nat) (p : Loop × LoopMark) : Prop where
  inv : LoopInv p.1
  round : ∀ b, p.2 = .round b → b ≤ p.1.st.now ∧ Fresh 0 b p.1.st
  batch : ∀ b, p.2 = .batch b → b ≤ p.1.st.now ∧ Fresh σ b p.1.st
  /-- a round is under way -/
  phase : (p.1.pc = .sift ∨ ∃ t, p.1.pc = .wait t) → ∃ b, p.2 = .round b

theorem timely_init (σ : Nat) (objs : Objs) (now : Nat) : Timely σ (.init objs now, .none) where
  inv := loopInv_init objs now
  round := by simp
  batch := by simp
  phase := by simp [Loop.init]

section
variable {D : KevBuild} {σ δ : Nat} {l l' : Loop} {m : LoopMark} {e : LoopEvent}

/-- The steps that keep the mark. -/
theorem Timely.keeps (h : Timely σ (l, m)) (h' : LoopInv l')
    (hst : ∀ slack b, b ≤ l.st.now + slack → b ≤ l.st.now → Fresh slack b l.st →
      b ≤ l'.st.now ∧ Fresh slack b l'.st)
    (hpc : (l'.pc = .sift ∨ ∃ t, l'.pc = .wait t) → l.pc = .sift ∨ ∃ t, l.pc = .wait t) :
    Timely σ (l', m) where
  inv := h'
  round b hb := hst 0 b (h.round b hb).1 (h.round b hb).1 (h.round b hb).2
  batch b hb := hst σ b (Nat.le_add_right_of_le (h.batch b hb).1) (h.batch b hb).1 (h.batch b hb).2
  phase hp := h.phase (hpc hp)

/-- What a step that is no test and no return of the kernel does to the sleep queue. -/
theorem LoopInv.fresh_step {slack b : Nat} (h : LoopInv l) (hc : CalmLoop D l e)
    (hs : l.step D e = some l') (hp : Prompt σ δ l m e) (hr : e.reads = none)
    (hb : b ≤ l.st.now) (hf : Fresh slack b l.st) : b ≤ l'.st.now ∧ Fresh slack b l'.st := by
  obtain ⟨l1, -, hst, -⟩ := Loop.step_some hs
  have plain : (∀ k ∈ l.parts D e, k ≠ .sift ∧ (∀ v, k ≠ .tick v) ∧ ∀ u, St.deadlineOf u k = none) →
      b ≤ l'.st.now ∧ Fresh slack b l'.st := fun hes => by
    obtain ⟨h1, h2⟩ := fresh_exec h.inv h.sleep hc hst hes hf
    exact ⟨by rw [h2]; exact hb, h1⟩
  cases e with
  | test | kevent => cases hr
  | thread k =>
    rcases parts_thread D l k with he | ⟨x, rfl, he⟩
    · rw [CalmLoop, he] at hc
      rw [he] at hst
      obtain ⟨u, hu, hr⟩ := exec_cons hst
      cases hr
      have hns : k ≠ .sift := fun hk => by
        have := (Loop.phase_step hs).1.1
        rw [hk] at this
        cases this
      refine ⟨?_, Mnthr.fresh_step h.inv h.sleep hc.1 hns hu (fun d hd => ?_) hf⟩
      · rcases now_step hu with ⟨v, rfl⟩ | hnow
        · rw [tick_eq hu]; exact hb.trans (hp.1 v rfl)
        · rw [hnow]; exact hb
      · exact (hp.2.2 d hd).imp id fun hle => (hb.trans hle).trans (Nat.le_add_right ..)
    · exact plain (by rw [he]; simp [deadlineOf])
  | wait w x => exact plain (by cases hw : w.fn.state <;> simp [Loop.parts, deadlineOf, CoState.waiting, hw])
  | shutdown => exact plain (by simp [Loop.parts, deadlineOf])
  | entry =>
    refine plain fun k hk => ?_
    simp only [Loop.parts] at hk
    split at hk
    · split at hk <;> (rw [List.mem_singleton] at hk; subst hk; simp [deadlineOf])
    · cases hk
  | _ => exact plain (by simp [Loop.parts])

theorem timely_step {p p' : Loop × LoopMark} (h : Timely σ p)
    (hc : CalmLoop D p.1 e ∧ Prompt σ δ p.1 p.2 e) (hrec : Loop.marked D p e = some p') :
    Timely σ p' := by
  obtain ⟨l, m⟩ := p
  obtain ⟨l', m'⟩ := p'
  obtain ⟨hs, hm⟩ := recorded_step hrec
  clear hrec
  simp only at hs hm hc
  have hph := Loop.phase_step hs
  have h' := loopInv_step h.inv hc.1 hs
  have keeps : e.reads = none → m' = m →
      ((l'.pc = .sift ∨ ∃ t, l'.pc = .wait t) → l.pc = .sift ∨ ∃ t, l.pc = .wait t) →
      Timely σ (l', m') := fun hr hm hpc => by
    rw [hm]
    exact h.keeps h' (fun slack b _ hb hf => h.inv.fresh_step hc.1 hs hc.2 hr hb hf) hpc
  cases e with
  | call => subst hm; exact ⟨h', by simp [Loop.mark], by simp [Loop.mark], by simp [hph.2]⟩
  | test v =>
    by_cases hsh : l.shutdown
    · rw [show m' = m from hm.trans (if_pos hsh)]
      refine h.keeps h' (fun slack b _ hb hf => ?_) (by simp [hph.2, hsh])
      rw [Loop.test_shutdown hs hsh]
      exact ⟨hb, hf⟩
    · have hsift := Loop.test_sifts hs (by simpa using hsh)
      have hnow : l'.st.now = v :=
        (now_step (D := D.toDiag) (e := .sift) hsift).resolve_left (by simp)
      obtain rfl : m' = .round v := hm.trans (if_neg hsh)
      refine ⟨h', fun b hb => ?_, by simp, fun _ => ⟨v, rfl⟩⟩
      cases hb
      exact ⟨hnow.ge, fresh_sift (s := { l.st with now := v }) { h.inv.sleep with } hsift⟩
  | thread | shutdown | close => exact keeps rfl hm (by rw [hph.2]; exact id)
  | wait w x => exact keeps rfl hm (by rw [show l'.pc = l.pc from hph]; exact id)
  | timeout => exact keeps rfl hm fun _ => .inl hph.1
  | kevent v a =>
    obtain ⟨tmout, hw, -, hans⟩ := hph
    obtain ⟨b, hb⟩ := h.phase (.inr ⟨tmout, hw⟩)
    obtain ⟨hbn, hf⟩ := h.round b hb
    obtain rfl : m' = .batch v := hm
    refine ⟨h', by simp, fun x hx => ?_, fun hp => ?_⟩
    · cases hx
      have hin := hc.2.2.1 v rfl
      rw [show m = .round b from hb] at hin
      rw [Loop.kevent_tick hs]
      exact ⟨Nat.le_refl _, Fresh.returned (s := l.st) h.inv.sleep hf hbn hin⟩
    · rcases hans.pc_cases with h1 | h1 | h1 <;> simp [h1] at hp
  | idle f =>
    obtain ⟨tmout, hw, -⟩ := hph
    exact keeps rfl hm fun _ => .inr ⟨tmout, hw⟩
  | entry | done => exact keeps rfl hm (by simp [hph.2.2])

end

theorem wakes_in_time {D : KevBuild} {objs : Objs} {now σ δ v : Nat} {es : List LoopEvent}
    {p : Loop × LoopMark} {l' : Loop} {c : Ptr}
    (hr : exec (Loop.marked D) (.init objs now, .none) es = some p)
    (hc : Along (Loop.marked D) (fun p e => CalmLoop D p.1 e ∧ Prompt σ δ p.1 p.2 e)
      (.init objs now, .none) (es ++ [.test v]))
    (hs : p.1.step D (.test v) = some l') (hm : p.2 ≠ .none) (ht : c ∈ l'.st.pending)
    (hk : SLEEP_RESUME_NOW < (p.1.st.ctx c).expireTicks) :
    (p.1.st.ctx c).expireTicks < v ∧ v ≤ (p.1.st.ctx c).expireTicks + σ + δ := by
  have h : Timely σ p := exec_inv (fun _ _ _ hp hk hs => timely_step hp hk hs)
    (timely_init σ objs now) (along_left hc) hr
  have hlast := (along_append hc hr).1.2
  obtain ⟨htmp, hrunq⟩ := h.inv.empty (by rw [(Loop.phase_step hs).1]; simp)
  by_cases hsh : p.1.shutdown
  · -- no sift begins
    rw [Loop.test_shutdown hs hsh, St.pending, htmp, hrunq] at ht
    cases ht
  · have hw := Loop.test_sifts hs (by simpa using hsh)
    have hS : SleepInv { p.1.st with now := v } := { h.inv.sleep with }
    have hfiled : ({ p.1.st with now := v } : St).filed c :=
      ((filed_micro (D := D.toDiag) (a := .sift) hS trivial (.sift hw)).came (.inr ht)).resolve_right
        (by simp [Act.files])
    have hin := mem_all_of_filed (s := p.1.st) htmp hrunq hfiled
    refine ⟨(mem_sift hS hw hfiled).1 ht, ?_⟩
    have htime := hlast.2.1 v rfl
    unfold ReadInTime at htime
    split at htime
    · exact absurd ‹_› hm
    · rename_i b hb
      obtain ⟨hbn, hf⟩ := h.round b hb
      exact Nat.le_add_right_of_le (hf.returned h.inv.sleep hbn htime c hin hk)
    · rename_i b hb
      have := (h.batch b hb).2 c hin hk
      omega

/-- Thread 0 sleeps for 5 ms at 10, and the kernel returns 7 ticks late. -/
def oneSleeps : List LoopEvent :=
  [.thread (.call (.spawn 0)), .call, .test 10, .thread .next,
    .thread (.block (.sleep .msec 5) false), .timeout, .idle none]

theorem wakes_in_time_oneSleeps : ∃ p l',
    exec (Loop.marked .sample) (.init .sample 0, .none) oneSleeps = some p ∧
    p.1.step .sample (.test 5000017) = some l' ∧ l'.st.pending = [0] ∧
    5000010 < 5000017 ∧ 5000017 ≤ 5000010 + 7 + 0 := by
  obtain ⟨p, hp⟩ := Option.isSome_iff_exists.1
    (show (exec (Loop.marked .sample) (.init .sample 0, .none) oneSleeps).isSome by decide)
  obtain ⟨l', hl', hf⟩ := Option.map_eq_some_iff.1 (fact_of_map hp (a := some [0])
    (f := fun p => (p.1.step .sample (.test 5000017)).map fun l => l.st.pending) (by decide))
  have hx : ((p.1.st.ctx 0).expireTicks, p.2) = (5000010, .round 10) :=
    fact_of_map hp (f := fun p => ((p.1.st.ctx 0).expireTicks, p.2)) (by decide)
  obtain ⟨hx, hm⟩ := Prod.mk.inj hx
  have hcalm : Along (Loop.marked .sample)
      (fun p e => CalmLoop .sample p.1 e ∧ Prompt 7 0 p.1 p.2 e) (.init .sample 0, .none)
      (oneSleeps ++ [.test 5000017]) :=
    along_and (along_recorded.1 (calmLoop_of_check (by decide))) (along_of_decide (by decide))
  have hlate := wakes_in_time (c := 0) hp hcalm hl' (by rw [hm]; simp) (by rw [hf]; decide)
    (by rw [hx]; decide)
  rw [hx] at hlate
  exact ⟨p, l', hp, hl', hf, hlate⟩

end Mnthr
