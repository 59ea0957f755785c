import Mnthr.L4Inv.Residue

/-!
# The fragment without interrupts and timed waits

`Untimed` is the part of the library without interrupts, timed waits, `fini`,
signals and pollers; `Plain` is the same with `errno` not `EINTR` whenever a
thread switches back. A thread of the fragment is suspended in a call that
sleeps or in one that waits, never in one that does both (`PlainCalls`), so the
conditions of `SleepInv` and `Tidy` hold of every event (`untimed_clean`) and
both are invariants (`UntimedInv`).

`blocked_step` and `dequeued_step` are what the fragment is good for: a
suspended thread is switched to only when the sift takes it from its batch, and
leaves a wait queue only when it is woken.
-/
namespace Mnthr
open St

/-! ## The fragment -/

def Op.plain : Op → Bool
  | .new _ | .newSig _ | .spawn _ | .spawnSig _ | .run _ | .condSignalOne _ | .condSignalAll _
  | .semaTryAcquire _ | .semaRelease _ | .isemaAcquire _ | .isemaRelease _
  | .rwlockTryAcquireRead _ | .rwlockReleaseRead _ | .rwlockTryAcquireWrite _
  | .rwlockReleaseWrite _ => true
  | _ => false

def Blk.plain : Blk → Bool
  | .sleep .. | .yield | .giveup | .join _ | .condWait _ | .semaAcquire _ | .isemaWait _
  | .rwlockAcquireRead _ | .rwlockAcquireWrite _ => true
  | _ => false

/-- Calls of the fragment, with `errno` not `EINTR` when the thread switches
back, and the scheduler without its poller. -/
def Event.plain : Event → Bool
  | .call op => op.plain
  | .block op b => op.plain && !b
  | .cont b | .exit b => !b
  | .sift | .next | .tick _ => true
  | .pollResume .. | .pollFast _ => false

/-- The same, whatever `errno` is. -/
def Event.untimed : Event → Bool
  | .call op => op.plain
  | .block op _ => op.plain
  | .cont _ | .exit _ | .sift | .next | .tick _ => true
  | .pollResume .. | .pollFast _ => false

/-- The deadline of a `mnthr_sleep` does not overflow the clock. -/
def St.fits (s : St) : Event → Bool
  | .block (.sleep u v) _ => decide (v = SLEEP_FOREVER ∨ s.now + v * u.scale < 2 ^ 64)
  | _ => true

def Plain (s : St) (e : Event) : Prop := e.plain ∧ s.fits e

instance (s : St) (e : Event) : Decidable (Plain s e) := by unfold Plain; infer_instance

def Untimed (s : St) (e : Event) : Prop := e.untimed ∧ s.fits e

instance (s : St) (e : Event) : Decidable (Untimed s e) := by unfold Untimed; infer_instance

theorem Plain.untimed {s : St} {e : Event} (h : Plain s e) : Untimed s e := by
  refine ⟨?_, h.2⟩
  have he := h.1
  cases e with
  | block op b => exact (Bool.and_eq_true_iff.1 he).1
  | cont | exit => rfl
  | _ => exact he

/-- The calls a thread of the fragment may be suspended in. -/
def Call.plain : Call → Bool
  | .start | .gone | .sleep _ | .join _ | .condWait _ | .semaAcquire _ | .isemaWait _ | .readLock _
  | .writeLock _ => true
  | _ => false

structure PlainCalls (s : St) : Prop where
  calls : ∀ t, (s.ctx t).uc.plain
  post : ∀ t k, s.pc = .post t k → k.plain

/-- What holds of the fragment. -/
structure UntimedInv (s : St) : Prop where
  inv : Inv s
  sleep : SleepInv s
  tidy : Tidy s
  unwaited : Unwaited s
  calls : PlainCalls s

theorem untimed_init (objs : Objs) (now : Nat) : UntimedInv (St.init objs now) :=
  ⟨inv_init objs now, sinv_init objs now, (tidy_init objs now).1, (tidy_init objs now).2,
    by constructor <;> simp [St.init, Ctx.init, Call.plain]⟩

section
variable {D : Diag} {a : Act} {e : Event} {s s' u v : St} {t x : Ptr} {q : Waitq}

theorem Call.plain_target {k : Call} (h : k.plain) : k.target = none := by
  cases k <;> simp_all [Call.plain, Call.target]

/-- A queued thread of the fragment is in an untimed wait and nowhere else. -/
theorem PlainCalls.waiting (h : PlainCalls s) (hT : Tidy s) (hq : s.wq.hosting t = some q)
    (hr : s.pc.runs ≠ some t) : Waiting s t q ∧ ¬ s.filed t := by
  have hw := hT.parked t q hq hr
  exact ⟨hw, hw.out (Call.plain_target (h.calls t))⟩

theorem PlainCalls.notMem_pending (h : PlainCalls s) (hT : Tidy s) (hS : SleepInv s)
    (ht : t ∈ s.wq.queue q) : t ∉ s.pending := by
  intro hm
  by_cases hr : s.pc.runs = some t
  · exact (hS.running t hr).2 hm
  · exact (h.waiting hT ((hT.ok.mem t q).1 ht) hr).2 (.inr hm)

/-! ## The condition -/

theorem mem_of_wakes (h : (q, t) ∈ s.wakes e) : t ∈ s.wq.queue q := by
  have one : ∀ {q'}, (q, t) ∈ s.wakesOne q' → t ∈ s.wq.queue q := by
    intro q' h
    obtain ⟨x, hx, he⟩ := List.mem_map.1 h
    cases he
    exact List.mem_of_mem_take hx
  have all : ∀ {q'}, (q, t) ∈ s.wakesAll q' → t ∈ s.wq.queue q := by
    intro q' h
    obtain ⟨x, hx, he⟩ := List.mem_map.1 h
    cases he
    exact hx
  unfold wakes at h
  split at h
  all_goals first
    | exact one h
    | exact all h
    | (obtain ⟨c, -, h⟩ := List.mem_flatMap.1 h; first | exact all h | (split at h; cases h; exact all h))
    | (split at h; cases h; exact all h)
    | cases h

theorem creates_dormant {c : Ptr} (hI : Inv s) (hS : SleepInv s) (hc : s.creates e = some c) :
    (s.ctx c).f = none := by
  have pop : s.popFree.1 = c → (s.ctx c).f = none := by
    intro heq
    subst heq
    unfold popFree
    split
    · rename_i x hx
      exact hS.dead x (.inl (List.mem_of_find?_eq_some hx))
    · exact hI.fresh _ (Nat.le_refl _)
  unfold creates at hc
  split at hc
  all_goals first
    | exact pop (Option.some.inj hc)
    | (cases hc; exact hI.fresh _ (Nat.le_refl _))
    | cases hc

theorem untimed_interrupts (h : PlainCalls s) (he : e.untimed) : s.interrupts e = [] := by
  unfold interrupts
  split
  · cases he
  · cases he
  · cases he
  · split
    · rename_i x n hpc
      have := h.post _ _ hpc
      cases this
    · rfl
  · rfl

theorem deadline_ne {n w : Nat} {u : TimeUnit} (h : w = SLEEP_FOREVER ∨ n + w * u.scale < 2 ^ 64) :
    deadline n u w ≠ SLEEP_UNDEFINED := by
  unfold deadline
  split
  · decide
  · rename_i hf
    split
    · decide
    · rename_i hz
      have hs : 0 < u.scale := by cases u <;> decide
      have : 0 < w * u.scale := Nat.mul_pos (Nat.pos_of_ne_zero hz) hs
      rw [Nat.mod_eq_of_lt (h.resolve_left hf)]
      simp only [SLEEP_UNDEFINED]
      omega

/-- The fragment meets the conditions of the library at large. -/
theorem untimed_clean (hI : Inv s) (hS : SleepInv s) (hT : Tidy s) (h : PlainCalls s)
    (hp : Untimed s e) : Clean s e := by
  obtain ⟨he, hfit⟩ := hp
  have hint := untimed_interrupts h he
  refine ⟨⟨fun t ht => ?_, fun hd => ?_, fun c hc => ?_⟩, fun t ht => ?_, fun x hx => ?_⟩
  · rw [touched, hint, List.append_nil, List.mem_append] at ht
    rcases ht with ht | ht
    · -- what is started is dormant
      have key : ∀ {c}, s.creates e = some c → c ∉ s.pending := fun hc =>
        (hS.dormant hI (.inl (creates_dormant hI hS hc))).2
      unfold starts at ht
      split at ht
      · split at ht
        · rename_i hd
          rw [List.mem_singleton.1 ht]
          exact (hS.dormant hI (.inr hd)).2
        · cases ht
      all_goals first
        | cases he; done
        | cases ht; done
        | exact key (Option.mem_toList.1 ht)
    · obtain ⟨⟨q, y⟩, hw, rfl⟩ := List.mem_map.1 ht
      exact h.notMem_pending hT hS (mem_of_wakes hw)
  · unfold deadlineOf at hd
    split at hd
    · exact deadline_ne (of_decide_eq_true hfit) (Option.some.inj hd)
    all_goals first
      | (cases he; done)
      | cases hd
  · unfold polled at hc
    split at hc
    · cases he
    · cases hc
  · rw [hint] at ht; cases ht
  · unfold Event.peeks at hx
    split at hx
    · cases he
    · cases hx

/-! ## Steps -/

/-- A thread of the fragment goes to sleep, or into a wait queue. -/
theorem untimed_suspends {k : Call} (he : e.untimed) (hk : s.suspends e = some k) :
    k.plain ∧ ((∃ d, k = .sleep d ∧ s.deadlineOf e = some d) ∨
      (k.queue ≠ none ∧ s.deadlineOf e = none)) := by
  cases e with
  | block op b =>
    cases op with
    | sleep u v => cases hk; exact ⟨rfl, .inl ⟨_, rfl, rfl⟩⟩
    | yield => cases hk; exact ⟨rfl, .inl ⟨_, rfl, rfl⟩⟩
    | giveup => cases hk; exact ⟨rfl, .inl ⟨_, rfl, rfl⟩⟩
    | join c =>
      simp only [suspends] at hk
      split at hk <;> cases hk
      exact ⟨rfl, .inr ⟨by simp [Call.queue], rfl⟩⟩
    | condWait i | semaAcquire i | isemaWait i | rwlockAcquireRead i | rwlockAcquireWrite i =>
      cases hk
      exact ⟨rfl, .inr ⟨by simp [Call.queue], rfl⟩⟩
    | _ => cases he
  | cont b =>
    obtain ⟨-, hl⟩ := Option.filter_eq_some_iff.1 hk
    cases k <;> simp_all [Call.loops, Call.queue, Call.plain, deadlineOf]
  | _ => cases hk

theorem calls_micro (he : e.untimed) (h : PlainCalls u) (ha : May s e a) (hm : Micro D a u v) :
    PlainCalls v where
  calls := by
    intro t
    rcases uc_cases (t := t) hm with hc | ⟨k, b, rfl, hc⟩ | ⟨d, k, b, dormant, rfl, hc⟩ | ⟨rfl, -⟩ |
      ⟨poll, rfl, hc⟩
    · rw [hc]; exact h.calls t
    · rw [hc]; exact (untimed_suspends he ha.2.1).1
    · rw [hc]; exact (untimed_suspends he ha.2.1).1
    · exact absurd ha id
    · rw [hc]; rfl
  post := by
    intro t k hv
    rcases post_micro hm hv with hu | ⟨poll, -, rfl⟩
    · exact h.post t k hu
    · exact h.calls t

theorem calls_create {c : Ptr} (h : PlainCalls s) (hm : Micro D (.create c) s u) :
    PlainCalls u where
  calls := by
    intro t
    by_cases htc : c = t
    · subst htc
      rw [(create_frame hm).2.2.2.1]
      rfl
    · rw [(micro_sameFor hm (by simpa [Act.subject] using htc)).ctx]
      exact h.calls t
  post := by
    intro t k hv
    rw [(create_frame hm).1] at hv
    exact h.post t k hv

/-- Invariant rule for the micro-steps of an event of the fragment. -/
theorem untimed_chain {I : St → Prop} (h : UntimedInv s) (hp : Untimed s e)
    (hs : s.step D e = some s') (hbegin : ∀ s1, Begin D s e s1 → I s1)
    (hstep : ∀ a u v, May s e a → Micro D a u v → a.calm u → Inv u → SleepInv u → TidyAt s e u →
      TidyAt s e v → PlainCalls u → I u → I v) : UntimedInv s' ∧ I s' := by
  obtain ⟨hI, hS, hT, hU, hP⟩ := h
  have hc := untimed_clean hI hS hT hP hp
  obtain ⟨h1, h2, h3⟩ := tidy_step hI hS hT hU hc hs
  obtain ⟨-, -, h4, h5⟩ := calm_chain (I := fun u => TidyAt s e u ∧ PlainCalls u ∧ I u) hI hS hc.1
    hs (fun s1 hb => ⟨tidy_begin hI hS hT hU hc hs hb, by
      cases hb with
      | same => exact hP
      | create hcr hm => exact calls_create hP hm, hbegin s1 hb⟩)
    fun a u v ha hm hcalm hIu hSu ⟨hTu, hPu, hu⟩ =>
      have hTv := tidy_micro hc ha hm hcalm hIu hSu hTu
      ⟨hTv, calls_micro hp.1 hPu ha hm, hstep a u v ha hm hcalm hIu hSu hTu hTv hPu hu⟩
  exact ⟨⟨inv_step hI hs, h1, h2, h3, h4⟩, h5⟩

theorem untimed_step (h : UntimedInv s) (hp : Untimed s e) (hs : s.step D e = some s') :
    UntimedInv s' :=
  (untimed_chain (I := fun _ => True) h hp hs (fun _ _ => trivial)
    fun _ _ _ _ _ _ _ _ _ _ _ _ => trivial).1

/-! ## Blocked threads -/

/-- The thread that a step creates is none of those that exist. -/
theorem begin_live {s1 : St} (h : UntimedInv s) (hf : (s.ctx t).f ≠ none) (hb : Begin D s e s1) :
    SameFor t s s1 :=
  hb.sameFor fun hc => hf (creates_dormant h.inv h.sleep hc)

/-- Only its exit ends a thread. -/
theorem live_step (h : UntimedInv s) (hp : Untimed s e) (hs : s.step D e = some s')
    (ht : (s.ctx t).state ≠ .dormant) :
    (s'.ctx t).state ≠ .dormant ∨ (e = .exit false ∧ s.pc = .user t) := by
  refine (untimed_chain
    (I := fun u => (u.ctx t).state ≠ .dormant ∨ (e = .exit false ∧ s.pc = .user t)) h hp hs
    (fun s1 hb => ?_) ?_).2
  · rw [(begin_live h (h.inv.live t ht) hb).ctx]
    exact .inl ht
  · rintro a u v ha hm hcalm hI hS - - - hu
    rcases hu with hu | hu
    swap
    · exact .inr hu
    have hf := hI.live t hu
    have hc : a ≠ .create t := by intro heq; subst heq; exact ha
    by_cases hfv : (v.ctx t).f = none
    · have := die_of_cleared hS hcalm hm hc hf hfv
      subst this
      exact .inr ha
    · exact .inl fun hd => hu ((alive_before hm hc hfv).2.2 hd)

/-- A started thread that does not run keeps its saved context, until the sift
switches to it. -/
theorem blocked_step (h : UntimedInv s) (hp : Untimed s e) (hs : s.step D e = some s')
    (ht : (s.ctx t).state ≠ .dormant) (hr : s.pc.runs ≠ some t) :
    (s'.pc.runs ≠ some t ∧ (s'.ctx t).uc = (s.ctx t).uc) ∨
      (e = .next ∧ s.nextPick = some t ∧ s'.pc.runs = some t) := by
  refine (untimed_chain (I := fun u => (u.pc.runs ≠ some t ∧ (u.ctx t).uc = (s.ctx t).uc) ∨
    (e = .next ∧ s.nextPick = some t ∧ u.pc.runs = some t)) h hp hs (fun s1 hb => ?_) ?_).2
  · left
    have hsame := begin_live h (h.inv.live t ht) hb
    exact ⟨fun hu => hr (hsame.runs.1 hu), by rw [hsame.ctx]⟩
  · rintro a u v ha hm - - - - - - hu
    rcases hu with ⟨hur, huc⟩ | ⟨rfl, hn, hur⟩
    · by_cases hv : v.pc.runs = some t
      · obtain ⟨poll, rfl⟩ := (runs_micro hm hv).resolve_left hur
        cases poll with
        | false => exact .inr ⟨ha.1, ha.2, hv⟩
        | true => obtain ⟨rc, rfl, -⟩ := ha; cases hp.1
      · refine .inl ⟨hv, ?_⟩
        rw [uc_micro hm hur (by intro heq; subst heq; exact ha)
          (by intro poll heq; subst heq; exact hv (enter_runs hm))]
        exact huc
    · refine .inr ⟨rfl, hn, ?_⟩
      by_contra hv
      rcases leaves_micro hm hur hv with ⟨k, b, rfl⟩ | ⟨d, k, b, dormant, rfl⟩ | rfl | rfl
      · cases ha.2.1
      · cases ha.2.1
      · cases ha.1
      · cases ha.1

/-- A blocked thread leaves its wait queue only when it is woken. -/
theorem dequeued_step (h : UntimedInv s) (hp : Untimed s e) (hs : s.step D e = some s')
    (hr : s.pc.runs ≠ some t) (hq : s.wq.hosting t = some q) :
    s'.wq.hosting t = some q ∨ (q, t) ∈ s.wakes e := by
  refine (untimed_chain (I := fun u => (u.pc.runs = some t → e = .next) ∧
    (u.wq.hosting t = some q ∨ (q, t) ∈ s.wakes e)) h hp hs (fun s1 hb => ?_) ?_).2.2
  · cases hb with
    | same => exact ⟨fun hu => absurd hu hr, .inl hq⟩
    | create hcr hm =>
      obtain ⟨hw, hpc⟩ : s1.wq = s.wq ∧ s1.pc = s.pc := by cases hm <;> exact ⟨rfl, rfl⟩
      exact ⟨fun hu => absurd (hpc ▸ hu) hr, .inl (hw ▸ hq)⟩
  · rintro a u v ha hm - hI - hT - - ⟨hur, hu⟩
    refine ⟨fun hv => ?_, ?_⟩
    · rcases runs_micro hm hv with hru | ⟨poll, rfl⟩
      · exact hur hru
      · cases poll with
        | false => exact ha.1
        | true => obtain ⟨rc, rfl, -⟩ := ha; cases hp.1
    · rcases hu with hu | hu
      swap
      · exact .inr hu
      cases hv : v.wq.hosting t with
      | none =>
        rcases hosting_lost hm (by rw [hu]; simp) hv with ⟨q', rfl⟩ | ⟨q', rfl⟩ | rfl
        · have hq' : u.wq.hosting t = some q' := by
            cases hm with
            | wake hq => exact (hT.tidy.ok.mem t q').1 (by simp [hq])
          cases hu.symm.trans hq'
          exact .inr ha
        · obtain ⟨⟨b, rfl⟩, k, hk⟩ := ha
          exact absurd (by rw [hk]; rfl) hr
        · cases hm with
          | unlink hf =>
            -- a context that is queued has a thread
            exfalso
            by_cases hru : u.pc.runs = some t
            · exact hI.live t (hI.run t hru) hf
            · exact hI.live t (resumable_ne (hT.tidy.parked t q hu hru).resumable).1 hf
      | some q' =>
        rcases hosting_micro hm hv with hu' | rfl
        · exact .inl (hu'.symm.trans hu)
        · cases hm with
          | append hpc =>
            have := hur (by rw [hpc]; rfl)
            subst this
            cases ha

/-- A thread that does not run enters no wait queue. -/
theorem hosting_step (h : UntimedInv s) (hp : Untimed s e) (hs : s.step D e = some s')
    (hr : s.pc.runs ≠ some t) (hq : s'.wq.hosting t = some q) : s.wq.hosting t = some q := by
  refine ((untimed_chain (I := fun u => (u.pc.runs = some t → e = .next) ∧
    (u.wq.hosting t = some q → s.wq.hosting t = some q)) h hp hs (fun s1 hb => ?_) ?_).2).2 hq
  · cases hb with
    | same => exact ⟨fun hu => absurd hu hr, id⟩
    | create hcr hm =>
      obtain ⟨hw, hpc⟩ : s1.wq = s.wq ∧ s1.pc = s.pc := by cases hm <;> exact ⟨rfl, rfl⟩
      exact ⟨fun hu => absurd (hpc ▸ hu) hr, fun hu => hw ▸ hu⟩
  · rintro a u v ha hm - - - - - - ⟨hur, hu⟩
    refine ⟨fun hv => ?_, fun hv => ?_⟩
    · rcases runs_micro hm hv with hru | ⟨poll, rfl⟩
      · exact hur hru
      · cases poll with
        | false => exact ha.1
        | true => obtain ⟨rc, rfl, -⟩ := ha; cases hp.1
    · rcases hosting_micro hm hv with hu' | rfl
      · exact hu hu'
      · cases hm with
        | append hpc =>
          have := hur (by rw [hpc]; rfl)
          subst this
          cases ha

/-- A context that keeps a thread keeps its id. -/
theorem id_step (h : UntimedInv s) (hp : Untimed s e) (hs : s.step D e = some s')
    (hf : (s.ctx x).f ≠ none) : (s'.ctx x).f = none ∨ (s'.ctx x).id = (s.ctx x).id := by
  refine (untimed_chain (I := fun u => (u.ctx x).f = none ∨ (u.ctx x).id = (s.ctx x).id) h hp hs
    (fun s1 hb => ?_) ?_).2
  · rw [(begin_live h hf hb).ctx]
    exact .inr rfl
  · rintro a u v ha hm - - - - - - hu
    by_cases hfv : (v.ctx x).f = none
    · exact .inl hfv
    · obtain ⟨hfu, hid, -⟩ := alive_before hm (by intro heq; subst heq; exact ha) hfv
      exact .inr (hid.trans (hu.resolve_left hfu))

theorem siftNow_step (h : Inv s) (he : e ≠ .sift) (hs : s.step D e = some s') :
    s'.siftNow = s.siftNow := by
  obtain ⟨s1, hb, hch⟩ := step_micro h.base hs
  refine hch.inv (I := fun u => u.siftNow = s.siftNow) ?_ ?_
  · intro a u v ha hm hu
    exact (siftNow_micro hm (by intro heq; subst heq; exact he ha)).trans hu
  · cases hb with
    | same => rfl
    | create _ hm => exact siftNow_micro hm (by simp)

end

end Mnthr
