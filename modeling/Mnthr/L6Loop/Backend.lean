import Mnthr.L6Loop.Deeds
import Mnthr.L6Loop.Polls

/-!
# The loop refines the model of the backend

`loop_refines`: every run of the loop in which no switch is taken for an
interrupted one is, as the backend sees it, a run of its model
(`L2Sched.Kevent`). A step that returns to a thread inside a wait is matched
when the wait returns: there the model has the switch and the rest of the wait
in one event, so that until then it is one event behind (`Returning`).
-/
namespace Mnthr
open St Kqueue

namespace KevSt
variable {D : KevBuild} {k k' k2 : KevSt} {t : Ptr} {w : KevWait}

/-! ## What the queue is made of -/

theorem addEvents_shared (ps : List KevPair) (k : KevSt) (t : Ptr) :
    (ps.foldl (fun s p => s.addEvent p t) k).shared =
      ps.foldl (fun s p => s.addEvent p t) k.shared := by
  induction ps generalizing k with
  | nil => rfl
  | cons p ps ih => exact ih _

theorem waitBegin_shared : (k.waitBegin t w).shared =
    w.pairs.foldl (fun s p => s.addEvent p t) k.shared := by
  rw [← addEvents_shared]
  rfl

theorem kevent_congr {refused : List Bool} {fired : List (KevPair × Ptr × KevData)}
    (h : k.shared = k2.shared) (hs : k2.kevent refused fired = some k') :
    k.kevent refused fired = some { k' with thr := k.thr, me := k.me } := by
  obtain ⟨thr, me, k0, k1, ec, em, kq, ba, re⟩ := k
  obtain ⟨thr2, me2, k02, k12, ec2, em2, kq2, ba2, re2⟩ := k2
  simp only [shared, KevSt.mk.injEq, true_and] at h
  obtain ⟨rfl, rfl, rfl, rfl, rfl, rfl, rfl⟩ := h
  unfold kevent at hs ⊢
  simp only at hs ⊢
  split at hs
  · rename_i hc
    cases hs
    exact if_pos hc
  · cases hs

theorem kevent_kept {refused : List Bool} {fired : List (KevPair × Ptr × KevData)}
    (h : k.kevent refused fired = some k') : k'.thr = k.thr ∧ k'.eventMax = k.capacity ∧
      (k.results refused fired = [] → k'.batch = []) := by
  unfold kevent at h
  simp only at h
  split at h
  · cases h
    exact ⟨rfl, rfl, fun hr => by simp [hr]⟩
  · cases h

theorem keventError_kept {n : Nat} {refused : List Bool}
    (h : k.keventError n refused = some k') : k'.thr = k.thr ∧ k'.eventMax = k.capacity ∧
      k'.batch = k.batch := by
  unfold keventError at h
  simp only at h
  split at h
  · cases h
    exact ⟨rfl, rfl, rfl⟩
  · cases h

theorem keventError_congr {n : Nat} {refused : List Bool}
    (h : k.shared = k2.shared) (hs : k2.keventError n refused = some k') :
    k.keventError n refused = some { k' with thr := k.thr, me := k.me } := by
  obtain ⟨thr, me, k0, k1, ec, em, kq, ba, re⟩ := k
  obtain ⟨thr2, me2, k02, k12, ec2, em2, kq2, ba2, re2⟩ := k2
  simp only [shared, KevSt.mk.injEq, true_and] at h
  obtain ⟨rfl, rfl, rfl, rfl, rfl, rfl, rfl⟩ := h
  unfold keventError at hs ⊢
  simp only at hs ⊢
  split at hs
  · rename_i hc
    cases hs
    exact if_pos hc
  · cases hs

/-- The end of a wait reads the thread's return code and `pdata`. -/
theorem waitEnd_congr (k2 : KevSt) (h : k.shared = k2.shared) (hrc : (k.thr t).rc = (k2.thr t).rc)
    (hid : (k.thr t).ident = (k2.thr t).ident) (hf : (k.thr t).filter = (k2.thr t).filter)
    (hx : (k2.thr t).rc = 0 → w.fn ≠ .waitForEvents → (k.thr t).idx = (k2.thr t).idx)
    (hs : k2.waitEnd D t w = some k') : ∃ x x' r, k.waitEnd D t w = some (k.waitReturn t x r) ∧
      k' = k2.waitReturn t x' r ∧ x.live = (k.thr t).live ∧ x.state = (k.thr t).state ∧
      x.expireTicks = (k.thr t).expireTicks ∧ x.queued = (k.thr t).queued := by
  have hk1 : k.kevents1 = k2.kevents1 := (shared_iff.1 h).2.1
  unfold waitEnd at hs ⊢
  dsimp only at hs ⊢
  rw [hrc, hid]
  split at hs
  · rename_i h0
    cases hs
    rw [if_pos h0]
    exact ⟨_, _, _, rfl, rfl, rfl, rfl, rfl, rfl⟩
  · rename_i h0
    rw [if_neg h0]
    split at hs
    · rename_i h1
      cases hs
      rw [if_pos h1]
      exact ⟨_, _, _, rfl, rfl, rfl, rfl, rfl, rfl⟩
    · rename_i h1
      rw [if_neg h1]
      split at hs
      · rename_i h2
        cases hs
        rw [if_pos h2, hf]
        exact ⟨_, _, _, rfl, rfl, rfl, rfl, rfl, rfl⟩
      · rename_i h2
        rw [if_neg h2, hx (not_not.1 h0) h2, hk1]
        obtain ⟨kev, hkev, rfl⟩ := Option.map_eq_some_iff.1 hs
        rw [hkev]
        exact ⟨_, _, _, rfl, rfl, rfl, rfl, rfl, rfl⟩

end KevSt
namespace Loop

/-! ## The two levels -/

/-- `k` is the state of the backend, with no wait about to return. -/
structure Seen (l : Loop) (k : KevSt) : Prop where
  agrees : Agrees l.waits l.st k
  shared : k.shared = l.kev.shared
  thr : ∀ t, l.waits t ≠ none →
    (k.thr t).ident = (l.pdata t).ident ∧ (k.thr t).filter = (l.pdata t).filter

/-- `k` is the state of the backend at the switch to `t`, which goes on in `w`. -/
structure Returning (l : Loop) (t : Ptr) (w : KevWait) (k : KevSt) : Prop where
  pictures : Pictures True l.st l.waits k
  waits : Waits l.st (Function.update l.waits t none)
  rc : ∀ u, l.waits u ≠ none → (k.thr u).rc = (l.st.ctx u).rc
  shared : k.shared = l.kev.shared
  thr : ∀ u, l.waits u ≠ none →
    (k.thr u).ident = (l.pdata u).ident ∧ (k.thr u).filter = (l.pdata u).filter
  idx : (l.st.ctx t).rc = 0 → w.fn ≠ .waitForEvents → (k.thr t).idx = (l.pdata t).idx

/-- The model is in step with the loop, or one event behind it. -/
def Views (D : KevBuild) (C : KevSt → KevEvent → Prop) (l : Loop) (k : KevSt) : Prop :=
  match l.waitOf with
  | none => l.Seen k
  | some (t, w) => ∃ k1 ke, l.Returning t w k1 ∧ C k ke ∧ kevStep D k ke = k1.waitEnd D t w

structure Refines (D : KevBuild) (C : KevSt → KevEvent → Prop) (l : Loop) (k : KevSt) : Prop where
  inv : LoopInv l
  caller : l.st.me = l.st.pc.runs
  batch : l.pc ≠ .batch → l.batch = []
  max : 0 ≤ l.eventMax
  views : Views D C l k

/-- What the step tells the backend. -/
def tells (l : Loop) : LoopEvent → List KevEvent
  | .thread e => (l.st.interrupts e).map .interrupt
  | .wait w _ => [.wait w]
  | .close fd => [.close fd]
  | .kevent _ (.entries refused fired) => [.kevent refused fired]
  | .kevent _ (.failed _ refused) => [.kevent refused []]
  | .kevent _ (.full n refused) => [.keventError n refused]
  | .entry => [.entry]
  | _ => []

/-- No switch is taken for an interrupted one, and nobody sets a thread for
resume that waits for a descriptor. -/
def Apart (l : Loop) : LoopEvent → Prop
  | .thread e => e.eintr = false ∧ Unwoken l.waits l.st e
  | .wait _ b => b = false
  | _ => True

instance (l : Loop) (e : LoopEvent) : Decidable (l.Apart e) := by
  cases e <;> unfold Apart <;> infer_instance

/-- A condition on the events of the backend that reads what the two levels
have in common. -/
structure Shared (C : KevSt → KevEvent → Prop) : Prop extends Told C where
  seen : ∀ l k ke, Inv l.st → Seen l k → C l.kev ke → C k ke

section
variable {D : KevBuild} {C : KevSt → KevEvent → Prop} {l l' l1 : Loop} {k k' : KevSt}
  {e : LoopEvent} {t c : Ptr} {w : KevWait} {s : St}

/-- Waits and batch stay. -/
structure Alike (l l' : Loop) : Prop where
  waits : l'.waits = l.waits
  pdata : ∀ t, l.waits t ≠ none → l'.pdata t = l.pdata t
  batch : l'.batch = l.batch
  max : l'.eventMax = l.eventMax

theorem Alike.refl (l : Loop) : Alike l l := ⟨rfl, fun _ _ => rfl, rfl, rfl⟩

theorem Alike.trans (h : Alike l l1) (h' : Alike l1 l') : Alike l l' :=
  ⟨h'.waits.trans h.waits, fun t ht => (h'.pdata t (by rwa [h.waits])).trans (h.pdata t ht),
    h'.batch.trans h.batch, h'.max.trans h.max⟩

theorem keep_alike {kl : KevSt} (h : kl.thr = l.kev.thr) (hb : kl.batch = l.batch)
    (hm : kl.eventMax = l.eventMax) : Alike l (l.keep kl) := by
  refine ⟨?_, fun t _ => ?_, hb, hm⟩
  · funext t; simp [keep, h, kev, thr]
  · simp [keep, h, kev, thr]

theorem keep_kev (l : Loop) (kl : KevSt) : (l.keep kl).kev.shared = kl.shared := rfl

theorem clearEvent_alike (l : Loop) (t : Ptr) : Alike l (l.clearEvent t) := by
  unfold clearEvent
  split
  · exact .refl l
  · have hsh := KevSt.clearEvent_shared l.kev t
    exact keep_alike (clearEvent_spec l.kev t).1 (congrArg KevSt.batch hsh)
      (congrArg KevSt.eventMax hsh)

theorem clearPdata_alike (h : l.waits t = none) : Alike l (l.clearPdata t) ∧
    (l.clearPdata t).kev.shared = l.kev.shared := by
  refine ⟨⟨?_, fun u hu => ?_, rfl, rfl⟩, rfl⟩
  · rw [clearPdata, ← h, Function.update_eq_self]
  · have hut : u ≠ t := fun he => hu (he ▸ h)
    simp [clearPdata, hut]

theorem clearPdatas_alike {ts : List Ptr} (h : ∀ t ∈ ts, l.waits t = none) :
    Alike l (ts.foldl clearPdata l) ∧ (ts.foldl clearPdata l).kev.shared = l.kev.shared := by
  induction ts generalizing l with
  | nil => exact ⟨.refl l, rfl⟩
  | cons t ts ih =>
    obtain ⟨h1, h2⟩ := clearPdata_alike (h t (List.mem_cons_self ..))
    obtain ⟨h3, h4⟩ := ih (l := l.clearPdata t) fun u hu => by
      rw [h1.waits]; exact h u (List.mem_cons_of_mem _ hu)
    exact ⟨h1.trans h3, h4.trans h2⟩

theorem Seen.unchanged (h : l.Seen k) (hst : l'.st = l.st) (ha : Alike l l')
    (hsh : l'.kev.shared = l.kev.shared) : l'.Seen k := by
  refine ⟨?_, h.shared.trans hsh.symm, fun t ht => ?_⟩
  · rw [hst, ha.waits]; exact h.agrees
  · rw [ha.waits] at ht
    rw [ha.pdata t ht]
    exact h.thr t ht

/-- With no wait about to return, whoever waits is suspended. -/
theorem Seen.waitOf (h : l.Seen k) (hI : Inv l.st) : l.waitOf = none := by
  unfold Loop.waitOf
  split
  · rename_i t st hpc
    cases hw : l.waits t with
    | none => rfl
    | some w =>
      have ht : l.waits t ≠ none := by rw [hw]; exact Option.some_ne_none w
      exact absurd (by rw [hpc]; rfl) (h.agrees.waits.away hI ht).2
  · rfl

theorem Seen.views (h : l.Seen k) (hI : Inv l.st) : Views D C l k := by
  rw [Views, h.waitOf hI]
  exact h

theorem Seen.refines (h : l.Seen k) (hI : LoopInv l) (hc : l.st.me = l.st.pc.runs)
    (hb : l.pc ≠ .batch → l.batch = []) (hm : 0 ≤ l.eventMax) : Refines D C l k :=
  ⟨hI, hc, hb, hm, h.views hI.inv⟩

theorem Views.seen (h : Views D C l k) (hw : l.waitOf = none) : l.Seen k := by
  rwa [Views, hw] at h

/-- Both levels discard the same pairs. -/
theorem Seen.clears (h : l.Seen k) (hr : l.st.pc.runs ≠ some t) :
    (k.thr t).clears = (l.kev.thr t).clears := by
  have hst : (k.thr t).state = (l.st.ctx t).state := by
    rw [h.agrees.pictures.state, St.seen, if_neg hr]
  by_cases hp : (l.st.ctx t).state.polling
  · obtain ⟨h1, h2⟩ := h.thr t (h.agrees.waits.complete t hp)
    simp [KevThr.clears, hst, h1, h2, kev, Loop.thr]
  · have hp : (l.st.ctx t).state.polling = false := by simpa using hp
    rw [clears_unpolled (by rw [hst]; exact hp), clears_unpolled (x := l.kev.thr t) hp]

/-! ## Threads -/

/-- The contexts that an event of the threads finalizes wait for nothing. -/
theorem finalizes_idle {e : Event} (hI : Inv l.st) (hS : SleepInv l.st) (hw : Waits l.st l.waits)
    (he : e.ofThreads) (ht : t ∈ l.st.finalizes e) : l.waits t = none := by
  by_contra hn
  obtain ⟨hd, hr⟩ := hw.away hI hn
  unfold St.finalizes at ht
  split at ht
  · exact hr (by simpa using ht)
  · cases he
  · cases he
  · have := (List.mem_filter.1 (List.mem_filter.1 ht).1).2
    exact hI.live t hd (hS.dead t ((of_decide_eq_true this).imp id And.left))
  · cases ht

/-- The queue after the interrupts, on both levels. -/
theorem Seen.interrupts (h : l.Seen k) (hI : Inv l.st) (e : Event) :
    Alike l ((l.st.interrupts e).foldl clearEvent l) ∧
      ((l.st.interrupts e).foldl KevSt.clearEvent k).shared =
        ((l.st.interrupts e).foldl clearEvent l).kev.shared := by
  rcases interrupts_le l.st e with hi | ⟨x, hi, hx⟩
  · rw [hi]; exact ⟨.refl l, h.shared⟩
  · have hr : l.st.pc.runs ≠ some x := fun hr => hx (hI.me x hr)
    rw [hi]
    refine ⟨clearEvent_alike l x, ?_⟩
    change (k.clearEvent x).shared = (l.clearEvent x).kev.shared
    rw [KevSt.clearEvent_congr h.shared (h.clears hr), clearEvent]
    split
    · rename_i hf
      have hd : (l.st.ctx x).state = .dormant := by
        by_contra hd
        exact hI.live x hd hf
      have hp : (l.kev.thr x).state.polling = false := by simp [kev, Loop.thr, hd, CoState.polling]
      rw [KevSt.clearEvent_shared, clears_unpolled hp]
      simp [KevQueue.discards, KevSt.shared, KevSt.queue]
    · rw [keep_kev]

theorem thread_refines {e : Event} (hR : Refines D C l k) (hC : Shared C) (hc : CalmLoop D l (.thread e))
    (ha : l.Apart (.thread e)) (ht : ∀ ke ∈ l.tells (.thread e), C l.kev ke) (hne : e ≠ .next)
    (hw : l.waitOf = none) (hs : l.step D (.thread e) = some l') :
    ∃ k', Follows (kevStep D) C k k' ∧ Refines D C l' k' := by
  have hseen := hR.views.seen hw
  obtain ⟨hI, hS⟩ : Inv l.st ∧ SleepInv l.st := ⟨hR.inv.inv, hR.inv.sleep⟩
  have hinv := loopInv_step hR.inv hc hs
  obtain ⟨hmay, hpc⟩ := phase_step hs
  have hev : e.ofThreads := by
    have := hmay.1
    cases e <;> first | exact absurd rfl hne | simpa [Event.ofThreads] using this
  have hparts : l.parts D (.thread e) = [e] := by
    cases e <;> first | rfl | simp [parts, hw]
  obtain ⟨l1, hb, hst, he⟩ := step_some hs
  rw [hparts] at hst
  obtain ⟨s', hs', hst⟩ := exec_cons hst
  cases hst
  have hcalm : Calm l.st e := by
    rw [CalmLoop, hparts] at hc
    exact hc.1
  obtain ⟨k', hf, hag, hsp, hsh⟩ := agrees_step hseen.agrees hC.toTold hI hS hcalm hs' hev ha.1
    hR.caller ha.2 fun x hx _ => hC.seen l k _ hR.inv.inv hseen (ht _ (List.mem_map.2 ⟨x, hx, rfl⟩))
  have hl1 : l1 = (l.st.finalizes e).foldl clearPdata ((l.st.interrupts e).foldl clearEvent l) := by
    simp only [backend, if_pos hmay, hw] at hb
    exact (Option.some.inj hb).symm
  obtain ⟨hal1, hsh1⟩ := hseen.interrupts hI e
  obtain ⟨hal2, hsh2⟩ := clearPdatas_alike (l := (l.st.interrupts e).foldl clearEvent l)
    fun t (ht : t ∈ l.st.finalizes e) => by
      rw [hal1.waits]; exact finalizes_idle hI hS hseen.agrees.waits hev ht
  have hal := hal1.trans hal2
  rw [← hl1] at hal hsh2
  have hseen' : l'.Seen k' := by
    rw [he]
    refine ⟨?_, hsh.trans (hsh1.trans hsh2.symm), fun t ht => ?_⟩
    · show Agrees l1.waits l'.st k'
      rw [hal.waits]; exact hag
    · have ht0 : l.waits t ≠ none := by rw [← hal.waits]; exact ht
      obtain ⟨h1, h2⟩ := hseen.thr t ht0
      obtain ⟨h3, h4⟩ := hsp.thr t ht0
      show (k'.thr t).ident = (l1.pdata t).ident ∧ (k'.thr t).filter = (l1.pdata t).filter
      rw [hal.pdata t ht0]
      exact ⟨h3.trans h1, h4.trans h2⟩
  exact ⟨k', hf, hseen'.refines hinv (caller_step hI hs' ha.1 hR.caller)
    (fun hp => by rw [he]; exact hal.batch.trans (hR.batch (hpc ▸ hp)))
    (by rw [he]; exact hal.max ▸ hR.max)⟩

/-! ## The statements of the loop -/

theorem waitOf_none (h : l.st.pc = .sched ∨ ∃ c, l.st.pc = .user c) : l.waitOf = none := by
  unfold Loop.waitOf
  split
  · rename_i hpc
    rcases h with h | ⟨c, h⟩ <;> rw [hpc] at h <;> cases h
  · rfl

theorem mayCall_waitOf (hI : LoopInv l) (h : l.mayCall) : l.waitOf = none := by
  refine waitOf_none ?_
  unfold mayCall at h
  split at h
  · exact .inr ⟨_, ‹_›⟩
  · exact .inl (hI.sched (by rw [h]; simp) (by rw [h]; simp))

/-- The scheduler stays, and what the backend keeps. -/
theorem Refines.still (hR : Refines D C l k) (hw : l.waitOf = none) (hI : LoopInv l')
    (hst : l'.st = l.st) (hk : l'.kev.shared = l.kev.shared) (ha : Alike l l')
    (hb : l'.pc ≠ .batch → l.batch = []) : Refines D C l' k :=
  ((hR.views.seen hw).unchanged hst ha hk).refines hI (by rw [hst]; exact hR.caller)
    (fun hp => ha.batch.trans (hb hp)) (ha.max ▸ hR.max)

/-- A statement that leaves the scheduler alone, but for the clock. -/
theorem Seen.tick (D : KevBuild) {v : Nat} (h : l.Seen k) (hI : Inv l.st) (hS : SleepInv l.st)
    (hst : l'.st = { l.st with now := v }) (hws : l'.waits = l.waits) (hpd : l'.pdata = l.pdata)
    (ht : k'.thr = k.thr) (hm : k'.me = k.me) (hk : k'.shared = l'.kev.shared) : l'.Seen k' := by
  have hmic : Micro D.toDiag .env l.st { l.st with now := v } := .env l.st.objs v l.st.ret
  have htr := pictures_unseen (a := .env) hI hS trivial trivial hmic h.agrees.pictures
  have hw := waits_micro (E := True) (a := .env) hI hS hmic (.inl trivial) (by simp) h.agrees.waits
  have hag : Agrees l.waits { l.st with now := v } k := ⟨htr, hw, h.agrees.rc⟩
  refine ⟨?_, hk, fun t hn => ?_⟩
  · rw [hst, hws]; exact hag.congr ht hm
  · rw [hws] at hn
    rw [hpd, ht]
    exact h.thr t hn

theorem close_refines {fd : Int} (hR : Refines D C l k) (hC : Shared C)
    (hc : CalmLoop D l (.close fd)) (ht : ∀ ke ∈ l.tells (.close fd), C l.kev ke)
    (hs : l.step D (.close fd) = some l') : ∃ k', Follows (kevStep D) C k k' ∧ Refines D C l' k' := by
  have hinv := loopInv_step hR.inv hc hs
  obtain ⟨hmay, hpc⟩ := phase_step hs
  have hseen := hR.views.seen (mayCall_waitOf hR.inv hmay)
  have hst := step_apart hs rfl
  obtain ⟨l1, hb, -, he⟩ := step_some hs
  simp only [backend, if_pos hmay, Option.some.injEq] at hb
  subst hb
  have hstep : kevStep D k (.close fd) =
      some { k with kq := k.kq.filter fun x => decide (x.1.ident ≠ fd) } := rfl
  have hkq : k.kq = l.kq := congrArg KevSt.kq hseen.shared
  have hseen' : l'.Seen { k with kq := k.kq.filter fun x => decide (x.1.ident ≠ fd) } := by
    have h2 := hseen.shared
    have hag : Agrees l.waits l'.st { k with kq := k.kq.filter fun x => decide (x.1.ident ≠ fd) } := by
      rw [hst]; exact hseen.agrees.congr rfl rfl
    rw [he]
    refine ⟨hag, ?_, hseen.thr⟩
    simp only [KevSt.shared, kev, KevSt.mk.injEq, true_and] at h2 ⊢
    obtain ⟨h3, h4, h5, h6, h7, h8, h9⟩ := h2
    exact ⟨h3, h4, h5, h6, by rw [h7], h8, h9⟩
  exact ⟨_, .one (hC.seen l k _ hR.inv.inv hseen (ht _ (List.mem_singleton.2 rfl))) hstep,
    hseen'.refines hinv (by rw [hst]; exact hR.caller)
      (fun hp => by rw [he]; exact hR.batch (hpc ▸ hp)) (by rw [he]; exact hR.max)⟩

theorem shutdown_refines (hR : Refines D C l k) (hC : Shared C) (hc : CalmLoop D l .shutdown)
    (hs : l.step D .shutdown = some l') : ∃ k', Follows (kevStep D) C k k' ∧ Refines D C l' k' := by
  obtain ⟨hI, hS⟩ : Inv l.st ∧ SleepInv l.st := ⟨hR.inv.inv, hR.inv.sleep⟩
  have hinv := loopInv_step hR.inv hc hs
  obtain ⟨hmay, hpc⟩ := phase_step hs
  have hseen := hR.views.seen (mayCall_waitOf hR.inv hmay)
  obtain ⟨l1, hb, hst, he⟩ := step_some hs
  simp only [backend, if_pos hmay, Option.some.injEq] at hb
  subst hb
  obtain ⟨s', hs', hst⟩ := exec_cons hst
  cases hst
  have hu : Unwoken l.waits l.st (.call (.spawn uyuyuy)) := by
    intro t hm
    by_contra ht
    have hd := (hseen.agrees.waits.away hI ht).1
    simp only [starts, creates, wakes, Option.toList_some, List.map_nil, List.append_nil,
      List.mem_singleton] at hm
    refine hI.live t hd ?_
    subst hm
    unfold popFree
    split
    · rename_i c hc
      exact hS.dead c (.inl (List.mem_of_find?_eq_some hc))
    · exact hI.fresh _ (Nat.le_refl _)
  obtain ⟨k', hf, hag, hsp, hsh⟩ := agrees_step hseen.agrees hC.toTold hI hS hc.1 hs' rfl rfl
    hR.caller hu (by simp [St.interrupts])
  have hseen' : l'.Seen k' := by
    rw [he]
    refine ⟨hag, hsh.trans hseen.shared, fun t ht => ?_⟩
    obtain ⟨h1, h2⟩ := hseen.thr t ht
    obtain ⟨h3, h4⟩ := hsp.thr t ht
    exact ⟨h3.trans h1, h4.trans h2⟩
  exact ⟨k', hf, hseen'.refines hinv (caller_step hI hs' rfl hR.caller)
    (fun hp => by rw [he]; exact hR.batch (hpc ▸ hp)) (by rw [he]; exact hR.max)⟩

theorem test_refines {v : Nat} (hR : Refines D C l k) (hc : CalmLoop D l (.test v))
    (hs : l.step D (.test v) = some l') : ∃ k', Follows (kevStep D) C k k' ∧ Refines D C l' k' := by
  obtain ⟨hI, hS⟩ : Inv l.st ∧ SleepInv l.st := ⟨hR.inv.inv, hR.inv.sleep⟩
  have hinv := loopInv_step hR.inv hc hs
  obtain ⟨hpc, -⟩ := phase_step hs
  have hne : l.pc ≠ .batch := by rw [hpc]; simp
  have hsched := hR.inv.sched (by rw [hpc]; simp) hne
  obtain ⟨l1, hb, -, he⟩ := step_some hs
  simp only [backend, if_pos hpc, Option.some.injEq] at hb
  subst hb
  by_cases hsh : l.shutdown = true
  · exact ⟨k, .refl k, hR.still (waitOf_none (.inl hsched)) hinv (test_shutdown hs hsh)
      (by rw [he]; rfl) (by rw [he]; exact ⟨rfl, fun _ _ => rfl, rfl, rfl⟩) fun _ => hR.batch hne⟩
  · have hsift := test_sifts hs (by simpa using hsh)
    have hseen := hR.views.seen (waitOf_none (.inl hsched))
    -- the clock, then the sift
    have h1 : Seen { l with st := { l.st with now := v } } k :=
      hseen.tick D hI hS rfl rfl rfl rfl rfl hseen.shared
    have hm0 : Micro D.toDiag .env l.st { l.st with now := v } := .env l.st.objs v l.st.ret
    have hI0 := inv_micro hI hm0
    have hS0 := (sinv_micro (a := .env) hI hS trivial hm0).1
    have hm : Micro D.toDiag .sift { l.st with now := v } l'.st := .sift hsift
    have htr := pictures_unseen (a := .sift) hI0 hS0 trivial trivial hm h1.agrees.pictures
    have hw := waits_micro (E := True) (a := .sift) hI0 hS0 hm (.inl trivial) (by simp) h1.agrees.waits
    obtain ⟨hsc, -, -, heq⟩ := sift_cases hsift
    have hag : Agrees l.waits l'.st k := ⟨htr, hw, by rw [heq]; exact h1.agrees.rc⟩
    have hseen' : l'.Seen k := by
      rw [he]
      exact ⟨hag, hseen.shared, hseen.thr⟩
    exact ⟨k, .refl k, hseen'.refines hinv (by rw [heq]; exact hR.caller)
      (fun _ => by rw [he]; exact hR.batch hne) (by rw [he]; exact hR.max)⟩

theorem Seen.called (D : KevBuild) (kl : KevSt) {v : Nat} (h : l.Seen k) (hI : Inv l.st)
    (hS : SleepInv l.st) (hst : l'.st = { l.st with now := v }) (hws : l'.waits = l.waits)
    (hpd : l'.pdata = l.pdata) (hk : l'.kev.shared = kl.shared) :
    l'.Seen { kl with thr := k.thr, me := k.me } :=
  h.tick D hI hS hst hws hpd rfl rfl hk.symm

/-- A call that fails with all changes applied is one that returns nothing. -/
theorem failed_kevent {refused : List Bool} (hp : l.passes) (hm : 0 ≤ l.kev.capacity)
    (ha : (applyChanges l.kevents0 refused l.kq).2 = []) (hb : l.batch = []) :
    l.kev.kevent refused [] = some { l.kev with
      kq := (applyChanges l.kevents0 refused l.kq).1, kevents0 := [],
      eventMax := l.kev.capacity } := by
  have hres : l.kev.results refused [] = [] := by simp [KevSt.results, kev, ha]
  unfold KevSt.kevent
  simp only [hres]
  rw [if_pos ⟨hp, hm, List.nodup_nil, by simp⟩]
  simp [kev, hb]

theorem kevent_refines {v : Nat} {a : KevAnswer} (hR : Refines D C l k) (hC : Shared C)
    (hc : CalmLoop D l (.kevent v a)) (ht : ∀ ke ∈ l.tells (.kevent v a), C l.kev ke)
    (hs : l.step D (.kevent v a) = some l') : ∃ k', Follows (kevStep D) C k k' ∧ Refines D C l' k' := by
  obtain ⟨hI, hS⟩ : Inv l.st ∧ SleepInv l.st := ⟨hR.inv.inv, hR.inv.sleep⟩
  have hinv := loopInv_step hR.inv hc hs
  obtain ⟨tmout, hpc, hpass, -⟩ := phase_step hs
  have hne : l.pc ≠ .batch := by rw [hpc]; simp
  have hsched := hR.inv.sched (by rw [hpc]; simp) hne
  have hseen := hR.views.seen (waitOf_none (.inl hsched))
  have hbatch := hR.batch hne
  have htop : k.atTop := ⟨hseen.agrees.pictures.me.trans (by rw [hsched]; rfl),
    (congrArg KevSt.batch hseen.shared).trans hbatch⟩
  have hst := kevent_tick hs
  have hcap : 0 ≤ l.kev.capacity := Int.le_trans hR.max (Int.le_max_left _ _)
  have hcaller : l'.st.me = l'.st.pc.runs := by rw [hst]; exact hR.caller
  obtain ⟨l1, hb, -, he⟩ := step_some hs
  simp only [backend, hpc] at hb
  split at hb
  swap
  · cases hb
  rename_i hans
  cases a with
  | entries refused fired =>
    obtain ⟨kl, hkl, rfl⟩ := Option.map_eq_some_iff.1 hb
    have hk := KevSt.kevent_congr hseen.shared hkl
    have hstep : kevStep D k (.kevent refused fired) = some { kl with thr := k.thr, me := k.me } := by
      simp only [kevStep, if_pos htop, hk]
    obtain ⟨hthr, hmax, hnil⟩ := KevSt.kevent_kept hkl
    have hseen' := hseen.called D kl hI hS hst (by rw [he]; simp [keep, hthr]; rfl)
      (by rw [he]; simp [keep, hthr]; rfl) (by rw [he]; rfl)
    refine ⟨_, .one (hC.seen l k _ hR.inv.inv hseen (ht _ (List.mem_singleton.2 rfl))) hstep,
      hseen'.refines hinv hcaller (fun hp => ?_)
        (by rw [he]; show 0 ≤ kl.eventMax; rw [hmax]; exact hcap)⟩
    rw [he] at hp ⊢
    by_cases hres : l.kev.results refused fired = []
    · exact hnil hres
    · simp [hres] at hp
  | failed eintr refused =>
    cases hb
    obtain ⟨kl, hdef, hkl⟩ : ∃ kl, kl = { l.kev with
        kq := (applyChanges l.kevents0 refused l.kq).1, kevents0 := [],
        eventMax := l.kev.capacity } ∧ l.kev.kevent refused [] = some kl :=
      ⟨_, rfl, failed_kevent hpass hcap hans.2.1 hbatch⟩
    have hk := KevSt.kevent_congr hseen.shared hkl
    have hstep : kevStep D k (.kevent refused []) = some { kl with thr := k.thr, me := k.me } := by
      simp only [kevStep, if_pos htop, hk]
    have hseen' := hseen.called D kl hI hS hst (by rw [he]) (by rw [he]) (by rw [he, hdef]; rfl)
    exact ⟨_, .one (hC.seen l k _ hR.inv.inv hseen (ht _ (List.mem_singleton.2 rfl))) hstep,
      hseen'.refines hinv hcaller (fun _ => by rw [he]; exact hbatch) (by rw [he]; exact hcap)⟩
  | full n refused =>
    obtain ⟨kl, hkl, rfl⟩ := Option.map_eq_some_iff.1 hb
    have hk := KevSt.keventError_congr hseen.shared hkl
    have hstep : kevStep D k (.keventError n refused) = some { kl with thr := k.thr, me := k.me } := by
      simp only [kevStep, if_pos htop, hk]
    obtain ⟨hthr, hmax, hsame⟩ := KevSt.keventError_kept hkl
    have hseen' := hseen.called D kl hI hS hst (by rw [he]; simp [keep, hthr]; rfl)
      (by rw [he]; simp [keep, hthr]; rfl) (by rw [he]; rfl)
    exact ⟨_, .one (hC.seen l k _ hR.inv.inv hseen (ht _ (List.mem_singleton.2 rfl))) hstep,
      hseen'.refines hinv hcaller (fun _ => by rw [he]; exact hsame.trans hbatch)
        (by rw [he]; show 0 ≤ kl.eventMax; rw [hmax]; exact hcap)⟩

end
end Loop

end Mnthr
