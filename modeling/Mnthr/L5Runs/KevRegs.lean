import Mnthr.L5Runs.KevResumes

/-!
# Registrations: how many, and whose

`event_count` goes with the change list: up by one for an `EV_ADD`, down by one
for an `EV_DELETE`, whatever the kqueue holds. `event_count_exact`: it is the
number of registrations that the list leads to exactly while pairs are added
once and deleted while they are registered (`Accounted`).

A second wait for a pair takes the registration of the first one over, and a
deletion does not look whose it is. `no_stranded`: while that happens to no
thread that is blocked (`SoleWaiter`), every blocked thread is the udata of the
registrations it waits for.
-/
namespace Mnthr
open Kqueue KevSt

/-! ## The count -/

/-- The pair is registered once the pending changes are applied. -/
def KevSt.Registered (s : KevSt) (p : KevPair) : Prop := p ∈ s.regAfter.map Prod.fst

instance (s : KevSt) (p : KevPair) : Decidable (s.Registered p) := by
  unfold KevSt.Registered; infer_instance

/-- Waits are for pairs that are not registered, entries and interrupts discard
pairs that are, and no `EV_ADD` that the list ends with is refused. -/
def Accounted (s : KevSt) : KevEvent → Prop
  | .wait w => ∀ p ∈ w.pairs, ¬ s.Registered p
  | .interrupt t => (s.thr t).live → ∀ p ∈ (s.thr t).clears, s.Registered p
  | .kevent refused _ => ∀ p ∈ s.regAfter.map Prod.fst,
      p ∈ (applyChanges s.kevents0 refused s.kq).1.map Prod.fst
  | .keventError n refused =>
      (applyChanges (s.kevents0.take n) refused s.kq).1.length = s.regAfter.length
  | .entry => ∀ x ∈ s.batch.head?, x.2.error = false → s.Registered x.2.pair
  | _ => True

instance (s : KevSt) (e : KevEvent) : Decidable (Accounted s e) := by
  refine e.casesOn ?_ ?_ ?_ ?_ ?_ ?_ ?_ ?_ ?_ ?_ ?_ ?_ <;> intros <;> unfold Accounted <;>
    infer_instance

/-- No descriptor with a registration is closed. -/
def ClosesIdle (s : KevSt) : KevEvent → Prop
  | .close fd => ∀ x ∈ s.kq, x.1.ident ≠ fd
  | _ => True

instance (s : KevSt) (e : KevEvent) : Decidable (ClosesIdle s e) := by
  refine e.casesOn ?_ ?_ ?_ ?_ ?_ ?_ ?_ ?_ ?_ ?_ ?_ ?_ <;> intros <;> unfold ClosesIdle <;>
    infer_instance

/-- `event_count` is the number of registrations that the pending changes lead
to. -/
def CountExact (s : KevSt) : Prop := s.eventCount = s.regAfter.length

/-- The loop then polls while anything is registered. -/
theorem CountExact.polls {s : KevSt} (h : CountExact s) :
    0 ≤ s.eventCount ∧ (s.regAfter ≠ [] → s.kevents0 ≠ [] ∨ s.eventCount ≠ 0) := by
  unfold CountExact at h
  refine ⟨by omega, fun hne => .inr ?_⟩
  have := List.length_pos_of_ne_nil hne
  omega

section
variable {D : KevBuild} {s s' : KevSt} {e : KevEvent} {t u : Ptr} {w : KevWait} {p : KevPair}

theorem clears_nodup (x : KevThr) : x.clears.Nodup := by
  unfold KevThr.clears
  split
  · exact List.nodup_nil
  · cases x.state <;> simp [EVFILT_READ, EVFILT_WRITE]

/-- One registration for a pair. -/
theorem keys_step (hI : (s.kq.map Prod.fst).Nodup) (hs : kevStep D s e = some s') :
    (s'.kq.map Prod.fst).Nodup := by
  have hq : s'.kq = (s.queueAfter e).kq := congrArg KevQueue.kq (kevStep_queue hs)
  rw [hq]
  cases e with
  | wait w =>
    rw [queueAfter]
    cases s.me <;> exact hI
  | interrupt t =>
    rw [queueAfter]
    split <;> exact hI
  | close fd => exact hI.sublist (List.filter_sublist.map _)
  | kevent refused fired => exact keys_apply hI
  | keventError n refused => exact keys_apply hI
  | entry =>
    rw [queueAfter]
    split
    · exact hI
    · split <;> exact hI
  | _ => exact hI

theorem regAfter_queue (s : KevSt) : s.regAfter = settle s.queue.kevents0 s.queue.kq := rfl

theorem count_step (hI : (s.kq.map Prod.fst).Nodup) (hB : ClosesIdle s e) (hC : CountExact s)
    (hs : kevStep D s e = some s') : CountExact s' ↔ Accounted s e := by
  have hq := kevStep_queue hs
  have hn : (s.regAfter.map Prod.fst).Nodup := keys_settle hI
  have hreg : s'.regAfter = settle (s.queueAfter e).kevents0 (s.queueAfter e).kq := by
    rw [regAfter_queue, hq]
  have hcount : s'.eventCount = (s.queueAfter e).eventCount := congrArg KevQueue.eventCount hq
  have same : s'.regAfter = s.regAfter → s'.eventCount = s.eventCount → CountExact s' :=
    fun h1 h2 => by unfold CountExact at hC ⊢; rw [h1, h2, hC]
  -- discarding pairs that are registered, and only that, keeps the count
  have discards : ∀ ps : List KevPair, ps.Nodup → (∃ u,
      s'.regAfter = settle (s.kevents0 ++ ps.map (⟨·, false, u⟩)) s.kq) →
      s'.eventCount = s.eventCount - ps.length →
      (CountExact s' ↔ ∀ p ∈ ps, s.Registered p) := by
    intro ps hps hr hc
    obtain ⟨u, hr⟩ := hr
    rw [settle_append] at hr
    obtain ⟨hle, hiff⟩ := length_deletes (u := u) hn hps
    unfold CountExact at hC ⊢
    rw [hc, hC, hr]
    refine Iff.trans ?_ hiff
    change ((s.regAfter.length : Int) - ps.length =
      ((settle (ps.map (⟨·, false, u⟩)) s.regAfter).length : Int)) ↔ _
    omega
  cases e with
  | spawn t | resume t | block st d | exit | wake t | setRc t v =>
    exact ⟨fun _ => trivial, fun _ => same hreg hcount⟩
  | wait w =>
    obtain ⟨t, ht, -⟩ := Option.map_eq_some_iff.1 hs
    simp only [queueAfter, ht, Option.elim, KevQueue.adds] at hreg hcount
    rw [show s.queue.kevents0 = s.kevents0 from rfl, settle_append] at hreg
    obtain ⟨hle, hiff⟩ := length_adds (u := t) hn (pairs_nodup w)
    unfold CountExact at hC ⊢
    rw [hcount, show s.queue.eventCount = s.eventCount from rfl, hC, hreg]
    refine Iff.trans ?_ hiff
    change ((s.regAfter.length : Int) + w.pairs.length =
      ((settle (w.pairs.map (⟨·, true, t⟩)) s.regAfter).length : Int)) ↔ _
    omega
  | interrupt t =>
    by_cases hl : (s.thr t).live
    · rw [queueAfter, if_pos hl] at hreg hcount
      refine (discards _ (clears_nodup _) ⟨t, hreg⟩ hcount).trans ?_
      exact ⟨fun h _ => h, fun h => h hl⟩
    · rw [queueAfter, if_neg hl] at hreg hcount
      exact ⟨fun _ h => absurd h hl, fun _ => same hreg hcount⟩
  | close fd =>
    refine ⟨fun _ => trivial, fun _ => same (hreg.trans ?_) hcount⟩
    have : s.kq.filter (fun x => decide (x.1.ident ≠ fd)) = s.kq :=
      List.filter_eq_self.2 fun x hx => decide_eq_true (hB x hx)
    rw [queueAfter, this]
    rfl
  | kevent refused fired =>
    have hr : s'.regAfter = (applyChanges s.kevents0 refused s.kq).1 := hreg
    have hc : s'.eventCount = s.eventCount := hcount
    have hsub := keys_apply_subset (l := s.kevents0) (b := refused) (List.Subset.refl
      (s.kq.map Prod.fst))
    have hnd := keys_apply (l := s.kevents0) (b := refused) hI
    unfold CountExact at hC ⊢
    rw [hc, hC, hr]
    have hlen : (s.regAfter.length : Int) = ((applyChanges s.kevents0 refused s.kq).1.length : Int) ↔
        (s.regAfter.map Prod.fst).length ≤
          ((applyChanges s.kevents0 refused s.kq).1.map Prod.fst).length := by
      have := (List.subperm_of_subset hnd hsub).length_le
      simp only [List.length_map] at this ⊢
      change _ ≤ s.regAfter.length at this
      omega
    rw [hlen]
    constructor
    · intro h p hp
      exact ((List.subperm_of_subset hnd hsub).perm_of_length_le h).mem_iff.2 hp
    · intro h
      exact (List.subperm_of_subset hn h).length_le
  | keventError n refused =>
    have hr : s'.regAfter = (applyChanges (s.kevents0.take n) refused s.kq).1 := hreg
    have hc : s'.eventCount = s.eventCount := hcount
    unfold CountExact at hC ⊢
    rw [hc, hC, hr]
    change _ ↔ (applyChanges (s.kevents0.take n) refused s.kq).1.length = s.regAfter.length
    omega
  | entry =>
    obtain ⟨i, kev, rest, hb⟩ := entry_batch hs
    rw [queueAfter, hb] at hreg hcount
    dsimp only at hreg hcount
    have hacc : Accounted s .entry ↔ (kev.error = false → s.Registered kev.pair) := by
      unfold Accounted
      rw [hb]
      constructor
      · exact fun h => h (i, kev) rfl
      · intro h x hx
        cases hx
        exact h
    rw [hacc]
    by_cases he : kev.error
    · rw [if_pos he] at hreg hcount
      refine ⟨fun _ h => ?_, fun _ => same hreg hcount⟩
      rw [he] at h
      cases h
    · rw [if_neg he] at hreg hcount
      refine (discards [kev.pair] (List.nodup_singleton _) ⟨kev.udata, hreg⟩ hcount).trans ?_
      simp [he]

end

/-- In every run that closes no descriptor with a registration. -/
theorem event_count_exact {D : KevBuild} {es : List KevEvent} {s : KevSt}
    (hB : Along (kevStep D) ClosesIdle .init es) (hr : exec (kevStep D) .init es = some s) :
    (∀ pre post u, es = pre ++ post → exec (kevStep D) .init pre = some u → CountExact u) ↔
      Along (kevStep D) Accounted .init es :=
  exec_inv_iff (J := fun s => (s.kq.map Prod.fst).Nodup)
    (fun _ _ _ hJ hs => keys_step hJ hs) (fun _ _ _ hJ hB hC hs => count_step hJ hB hC hs)
    List.nodup_nil rfl hB hr

theorem event_count_bothReady : ∃ s, exec (kevStep .sample) .init bothReady = some s ∧
    s.atTop ∧ s.eventCount = 0 ∧ CountExact s := by
  obtain ⟨s, hs⟩ := Option.isSome_iff_exists.1
    (show (exec (kevStep .sample) .init bothReady).isSome by decide)
  refine ⟨s, hs, ⟨fact_of_map hs (f := KevSt.me) (by decide),
    fact_of_map hs (f := KevSt.batch) (by decide)⟩,
    fact_of_map hs (f := KevSt.eventCount) (by decide), ?_⟩
  exact (event_count_exact (along_of_decide (by decide)) hs).2 (along_of_decide (by decide)) _ []
    s (by simp) hs

/-- The registration of thread 2 is discarded by the interrupt and by its entry. -/
theorem event_count_negative : ∃ s,
    exec (kevStep .sample) .init (interruptInBatch ++ [.entry, .block .join none]) = some s ∧
    Along (kevStep .sample) ClosesIdle .init (interruptInBatch ++ [.entry, .block .join none]) ∧
    s.atTop ∧ s.eventCount = -1 ∧ s.regAfter = [] ∧ ¬ CountExact s := by
  obtain ⟨s, hs⟩ := Option.isSome_iff_exists.1
    (show (exec (kevStep .sample) .init
      (interruptInBatch ++ [.entry, .block .join none])).isSome by decide)
  have hc := fact_of_map hs (f := KevSt.eventCount) (a := -1) (by decide)
  have hr := fact_of_map hs (f := KevSt.regAfter) (a := []) (by decide)
  refine ⟨s, hs, along_of_decide (by decide), ⟨fact_of_map hs (f := KevSt.me) (by decide),
    fact_of_map hs (f := KevSt.batch) (by decide)⟩, hc, hr, fun h => ?_⟩
  unfold CountExact at h
  rw [hc, hr] at h
  cases h

/-! ## Blocked threads -/

namespace KevSt

/-- `u` waits for `p`, and nothing has set it for resume. -/
def Blocked (s : KevSt) (u : Ptr) (p : KevPair) : Prop :=
  ∃ w ∈ (s.thr u).wait, p ∈ w.pairs ∧ (s.thr u).state = w.fn.state

instance (s : KevSt) (u : Ptr) (p : KevPair) : Decidable (s.Blocked u p) := by
  unfold Blocked; infer_instance

/-- Every blocked thread is the udata of what it waits for, once the pending
changes are applied, unless an entry to come reports that this failed. -/
def NoneStranded (s : KevSt) : Prop :=
  ∀ u p, s.Blocked u p → (p, u) ∈ s.regAfter ∨ ∃ x ∈ s.batch, x.2.error ∧ x.2.reg = (p, u)

end KevSt

/-- No registration that `B` is about is taken over by a wait, discarded for
another thread, closed or lost with the changes behind a failed `kevent`. -/
def Protects (B : Ptr → KevPair → Prop) (s : KevSt) : KevEvent → Prop
  | .wait w => ∀ x ∈ s.regAfter, x.1 ∈ w.pairs → ¬ B x.2 x.1
  | .interrupt t => (s.thr t).live →
      ∀ x ∈ s.regAfter, x.1 ∈ (s.thr t).clears → x.2 ≠ t → ¬ B x.2 x.1
  | .close fd => ∀ x ∈ s.kq, x.1.ident = fd → ¬ B x.2 x.1
  | .keventError n refused => ∀ x ∈ s.regAfter, B x.2 x.1 →
      x ∈ (applyChanges (s.kevents0.take n) refused s.kq).1
  | .entry => ∀ y ∈ s.batch.head?, y.2.error = false →
      ∀ x ∈ s.regAfter, x.1 = y.2.pair → x.2 ≠ y.2.udata → ¬ B x.2 x.1
  | _ => True

instance (B : Ptr → KevPair → Prop) [∀ u p, Decidable (B u p)] (s : KevSt) (e : KevEvent) :
    Decidable (Protects B s e) := by
  refine e.casesOn ?_ ?_ ?_ ?_ ?_ ?_ ?_ ?_ ?_ ?_ ?_ ?_ <;> intros <;> unfold Protects <;>
    infer_instance

def SoleWaiter (s : KevSt) (e : KevEvent) : Prop := Protects s.Blocked s e

instance (s : KevSt) (e : KevEvent) : Decidable (SoleWaiter s e) := by
  unfold SoleWaiter; infer_instance

/-- What may end the registration of `p` for `u` all the same. -/
inductive Dropped (s s' : KevSt) (u : Ptr) (p : KevPair) : KevEvent → Prop where
  | refused {refused : List Bool} {fired : List (KevPair × Ptr × KevData)} {x : Nat × Kevent}
      (hx : x ∈ s'.batch) (he : x.2.error) (hr : x.2.reg = (p, u)) :
      Dropped s s' u p (.kevent refused fired)
  | interrupted (hl : (s.thr u).live) (hp : p ∈ (s.thr u).clears) : Dropped s s' u p (.interrupt u)
  | delivered {i : Nat} {kev : Kevent} {rest : List (Nat × Kevent)}
      (hb : s.batch = (i, kev) :: rest) (hr : kev.reg = (p, u)) (he : kev.error = false) :
      Dropped s s' u p .entry

section
variable {D : KevBuild} {s s' : KevSt} {e : KevEvent} {t u : Ptr} {w : KevWait} {p : KevPair}

theorem fn_state_ne (fn : KevFn) : fn.state ≠ .setResume ∧ fn.state ≠ .setInterrupt := by
  cases fn <;> decide

theorem Kept.blocked (h : Kept (s.thr u) (s'.thr u)) (hb : s'.Blocked u p) : s.Blocked u p := by
  obtain ⟨w, hw, hp, hst⟩ := hb
  rw [Option.mem_def, h.wait] at hw
  refine ⟨w, hw, hp, ?_⟩
  rcases h.state (by rw [hw]; exact Option.some_ne_none w) with h | h | h
  · rw [← h, hst]
  · exact absurd (hst.symm.trans h) (fn_state_ne _).1
  · exact absurd (hst.symm.trans h) (fn_state_ne _).2

theorem entry_deliver {i : Nat} {kev : Kevent} {rest : List (Nat × Kevent)}
    (hb : s.batch = (i, kev) :: rest) (hs : kevStep D s .entry = some s') :
    ∃ (s1 : KevSt) (rc : Int), s1.thr = s.thr ∧ s1.deliver D i kev rc = some s' := by
  obtain ⟨-, i', kev', rest', s1, hb', hthr, -, -, hd⟩ := entry_cases hs
  obtain ⟨hx, -⟩ := List.cons.inj (hb.symm.trans hb')
  cases hx
  exact ⟨s1, _, hthr, hd⟩

/-- The thread of an entry waits on only in `mnthr_wait_for_events`, set for
resume. -/
theorem entry_defers (hI : KevInv s) {i : Nat} {kev : Kevent} {rest : List (Nat × Kevent)}
    (hb : s.batch = (i, kev) :: rest) (hs : kevStep D s .entry = some s')
    (hw : (s'.thr kev.udata).wait = some w) : (s.thr kev.udata).state = .otherPoller ∧
      (s'.thr kev.udata).state = .setResume ∧ (s'.thr kev.udata).queued := by
  have hl := (kev_step hI hs).1.isLive hw
  obtain ⟨s1, rc, h1, hd⟩ := entry_deliver hb hs
  rcases deliver_cases hd with ⟨x, rfl, hxl, -, -, hx⟩ | ⟨-, -, hran⟩
  · rw [setThr_self] at hl ⊢
    rcases hx with ⟨hd, -⟩ | ⟨-, hop, hx, hqd⟩
    · rw [hxl, hd] at hl
      cases hl
    · exact ⟨h1 ▸ hop, hx, hqd⟩
  · rw [hran.wait] at hw
    cases hw

/-- The thread of an entry is not blocked after it. -/
theorem entry_unblocks (hI : KevInv s) {i : Nat} {kev : Kevent} {rest : List (Nat × Kevent)}
    (hb : s.batch = (i, kev) :: rest) (hs : kevStep D s .entry = some s') :
    ¬ s'.Blocked kev.udata p := by
  intro hbl
  obtain ⟨w, hw, -, hst⟩ := hbl
  exact (fn_state_ne _).1 (hst.symm.trans (entry_defers hI hb hs hw).2.1)

theorem interrupt_unblocks (hl : (s.thr t).live) (hs : kevStep D s (.interrupt t) = some s') :
    ¬ s'.Blocked t p := by
  intro hbl
  obtain ⟨w, -, -, hst⟩ := hbl
  obtain ⟨-, rfl⟩ := interrupt_cases hs
  rw [(setInterrupt_spec hl).2.2] at hst
  exact (fn_state_ne _).2 hst.symm

/-- A wait that begins is registered; one that goes on was blocked before. -/
theorem kev_blocked_step (hI : KevInv s) (hs : kevStep D s e = some s') (hb : s'.Blocked u p) :
    s.Blocked u p ∨ ∃ w, e = .wait w ∧ s.me = some u ∧ p ∈ w.pairs := by
  cases (kev_step hI hs).2 u with
  | kept h => exact .inl (h.blocked hb)
  | began w he hme hw =>
    obtain ⟨w', hw', hp, -⟩ := hb
    cases hw.symm.trans hw'
    exact .inr ⟨w, he, hme, hp⟩
  | returned rc he hw hret =>
    obtain ⟨w', hw', -⟩ := hb
    cases hw.symm.trans hw'

/-- What a step that `Protects` it leaves of a registration. -/
theorem registration_stays {B : Ptr → KevPair → Prop} (hc : Protects B s e) (hB : B u p)
    (h : (p, u) ∈ s.regAfter) (hs : kevStep D s e = some s') :
    (p, u) ∈ s'.regAfter ∨ Dropped s s' u p e := by
  have hq := kevStep_queue hs
  have hreg : s'.regAfter = settle (s.queueAfter e).kevents0 (s.queueAfter e).kq := by
    rw [regAfter_queue, hq]
  have hbatch : s'.batch = (s.queueAfter e).batch := congrArg KevQueue.batch hq
  -- deletions of other pairs
  have kept : ∀ {l : List KevPair} {t : Ptr}, p ∉ l →
      s'.regAfter = settle (s.kevents0 ++ l.map (⟨·, false, t⟩)) s.kq → (p, u) ∈ s'.regAfter := by
    intro l t hp hr
    rw [hr, settle_append]
    exact mem_deletes.2 ⟨h, hp⟩
  cases e with
  | spawn t | resume t | block st d | exit | wake t | setRc t v => exact .inl (hreg ▸ h)
  | wait w =>
    left
    obtain ⟨t, ht, -⟩ := Option.map_eq_some_iff.1 hs
    simp only [queueAfter, ht, Option.elim, KevQueue.adds] at hreg
    rw [hreg, show s.queue.kevents0 = s.kevents0 from rfl, settle_append]
    exact mem_adds.2 (.inr ⟨h, fun hp => hc (p, u) h hp hB⟩)
  | interrupt t =>
    by_cases hl : (s.thr t).live
    · rw [queueAfter, if_pos hl] at hreg
      by_cases hp : p ∈ (s.thr t).clears
      · by_cases hut : u = t
        · subst hut
          exact .inr (.interrupted hl hp)
        · exact absurd hB (hc hl (p, u) h hp hut)
      · exact .inl (kept hp hreg)
    · rw [queueAfter, if_neg hl] at hreg
      exact .inl (hreg ▸ h)
  | close fd =>
    left
    rw [hreg]
    refine settle_of_mem (fun hk => List.mem_filter.2 ⟨hk, decide_eq_true fun hfd => ?_⟩) h
    exact hc (p, u) hk hfd hB
  | kevent refused fired =>
    have hr : s'.regAfter = (applyChanges s.kevents0 refused s.kq).1 := hreg
    rcases mem_apply_or_failed (e := []) (b := refused) (fun y hy => .inl hy) h with h | h
    · exact .inl (hr ▸ h)
    · obtain ⟨c, hc, hcp⟩ := List.mem_map.1 h
      have hmem : (⟨c.key, true, c.udata, ⟨0, 0⟩⟩ : Kevent) ∈ s.results refused fired :=
        List.mem_append_left _ (List.mem_map.2 ⟨c, hc, rfl⟩)
      obtain ⟨n, hn, hget⟩ := List.mem_iff_getElem.1 hmem
      refine .inr (.refused (x := (n, ⟨c.key, true, c.udata, ⟨0, 0⟩⟩)) ?_ rfl hcp)
      rw [hbatch]
      refine List.mem_map.2 ⟨(⟨c.key, true, c.udata, ⟨0, 0⟩⟩, n), ?_, rfl⟩
      exact List.mem_zipIdx_iff_getElem?.2 (by rw [← hget]; exact List.getElem?_eq_getElem hn)
  | keventError n refused =>
    left
    have hr : s'.regAfter = (applyChanges (s.kevents0.take n) refused s.kq).1 := hreg
    rw [hr]
    exact hc (p, u) h hB
  | entry =>
    obtain ⟨i, kev, rest, hb⟩ := entry_batch hs
    rw [queueAfter, hb] at hreg
    dsimp only at hreg
    by_cases he : kev.error
    · rw [if_pos he] at hreg
      exact .inl (hreg ▸ h)
    · rw [if_neg he] at hreg
      have he : kev.error = false := by simpa using he
      by_cases hp : p = kev.pair
      · by_cases hut : u = kev.udata
        · exact .inr (.delivered hb (by rw [hp, hut]; rfl) he)
        · exact absurd hB (hc (i, kev) (by rw [hb]; rfl) he (p, u) h hp hut)
      · exact .inl (kept (t := kev.udata) (l := [kev.pair])
          (fun h => hp (List.mem_singleton.1 h)) hreg)

/-- An entry to come stays, except when its thread is resumed, or set for it. -/
theorem error_stays (hI : KevInv s) (hbl : s'.Blocked u p) {x : Nat × Kevent} (hx : x ∈ s.batch)
    (hxr : x.2.reg = (p, u)) (hs : kevStep D s e = some s') : x ∈ s'.batch := by
  have hbatch : s'.batch = (s.queueAfter e).batch := congrArg KevQueue.batch (kevStep_queue hs)
  rw [hbatch]
  cases e with
  | wait w =>
    rw [queueAfter]
    cases s.me <;> exact hx
  | interrupt t =>
    rw [queueAfter]
    split <;> exact hx
  | kevent refused fired =>
    rw [(kevent_cases hs).1.2] at hx
    cases hx
  | entry =>
    cases hb : s.batch with
    | nil =>
      rw [hb] at hx
      cases hx
    | cons y rest =>
      obtain ⟨i, kev⟩ := y
      rw [queueAfter, hb]
      rw [hb] at hx
      rcases List.mem_cons.1 hx with rfl | hx
      · have hu : kev.udata = u := congrArg Prod.snd hxr
        exact absurd (hu ▸ hbl) (entry_unblocks hI hb hs)
      · exact hx
  | _ => exact hx

theorem stranded_step (hI : KevInv s) (hN : s.NoneStranded) (hc : SoleWaiter s e)
    (hs : kevStep D s e = some s') : s'.NoneStranded := by
  intro u p hbl
  rcases kev_blocked_step hI hs hbl with hold | ⟨w, he, hme, hp⟩
  · rcases hN u p hold with h | ⟨x, hx, he, hxr⟩
    · rcases registration_stays hc hold h hs with h | h
      · exact .inl h
      · cases h with
        | refused hx he hr => exact .inr ⟨_, hx, he, hr⟩
        | interrupted hl hp => exact absurd hbl (interrupt_unblocks hl hs)
        | @delivered i kev rest hb hr he =>
          have hu : kev.udata = u := congrArg Prod.snd hr
          exact absurd (hu ▸ hbl) (entry_unblocks hI hb hs)
    · exact .inr ⟨x, error_stays hI hbl hx hxr hs, he, hxr⟩
  · left
    subst he
    have hq := kevStep_queue hs
    rw [regAfter_queue, hq]
    simp only [queueAfter, hme, Option.elim, KevQueue.adds]
    rw [show s.queue.kevents0 = s.kevents0 from rfl, show s.queue.kq = s.kq from rfl,
      settle_append]
    exact mem_adds.2 (.inl ⟨hp, rfl⟩)

end

/-- In every state of every run of such steps, and so whenever the loop polls,
each blocked thread is the udata of its registrations. -/
theorem no_stranded {D : KevBuild} {es : List KevEvent} {s : KevSt}
    (hc : Along (kevStep D) SoleWaiter .init es) (hr : exec (kevStep D) .init es = some s) :
    s.NoneStranded ∧ (s.atTop → ∀ u p, s.Blocked u p → (p, u) ∈ s.regAfter) := by
  obtain ⟨-, hN⟩ := exec_inv (I := fun s => KevInv s ∧ s.NoneStranded)
    (fun _ _ _ hI hc hs => ⟨(kev_step hI.1 hs).1, stranded_step hI.1 hI.2 hc hs⟩)
    ⟨kev_init, fun u p h => by obtain ⟨w, hw, -⟩ := h; cases hw⟩ hc hr
  refine ⟨hN, fun ht u p hb => ?_⟩
  rcases hN u p hb with h | ⟨x, hx, -⟩
  · exact h
  · rw [ht.2] at hx
    cases hx

theorem no_stranded_twoDescriptors : ∃ s,
    exec (kevStep .sample) .init twoDescriptors = some s ∧
    s.Blocked 1 ⟨5, EVFILT_READ⟩ ∧ s.Blocked 2 ⟨6, EVFILT_READ⟩ ∧ s.NoneStranded := by
  obtain ⟨s, hs⟩ := Option.isSome_iff_exists.1
    (show (exec (kevStep .sample) .init twoDescriptors).isSome by decide)
  have blocked (u : Ptr) (p : KevPair) (h : ((exec (kevStep .sample) .init twoDescriptors).map
      fun s => decide (s.Blocked u p)) = some true) : s.Blocked u p :=
    of_decide_eq_true (fact_of_map hs h)
  exact ⟨s, hs, blocked 1 _ (by decide), blocked 2 _ (by decide),
    (no_stranded (along_of_decide (by decide)) hs).1⟩

/-- Two threads read one descriptor: the second registration replaces the first,
and the wait is not refused. -/
theorem second_reader_strands : ∃ s,
    exec (kevStep .sample) .init [.spawn 1, .spawn 2, .resume 1, .wait ⟨.waitForRead, 5⟩,
      .resume 2, .wait ⟨.waitForRead, 5⟩] = some s ∧
    s.atTop ∧ s.Blocked 1 ⟨5, EVFILT_READ⟩ ∧ s.Blocked 2 ⟨5, EVFILT_READ⟩ ∧
    s.regAfter = [(⟨5, EVFILT_READ⟩, 2)] ∧ ¬ s.NoneStranded := by
  obtain ⟨s, hs⟩ := Option.isSome_iff_exists.1
    (show (exec (kevStep .sample) .init [.spawn 1, .spawn 2, .resume 1, .wait ⟨.waitForRead, 5⟩,
      .resume 2, .wait ⟨.waitForRead, 5⟩]).isSome by decide)
  have h1 : s.Blocked 1 ⟨5, EVFILT_READ⟩ := of_decide_eq_true
    (fact_of_map hs (f := fun s => decide (s.Blocked 1 ⟨5, EVFILT_READ⟩)) (a := true) (by decide))
  have h2 : s.Blocked 2 ⟨5, EVFILT_READ⟩ := of_decide_eq_true
    (fact_of_map hs (f := fun s => decide (s.Blocked 2 ⟨5, EVFILT_READ⟩)) (a := true) (by decide))
  have hr := fact_of_map hs (f := KevSt.regAfter) (a := [(⟨5, EVFILT_READ⟩, 2)]) (by decide)
  have hb := fact_of_map hs (f := KevSt.batch) (a := []) (by decide)
  refine ⟨s, hs, ⟨fact_of_map hs (f := KevSt.me) (by decide), hb⟩, h1, h2, hr, fun hN => ?_⟩
  rcases hN 1 _ h1 with h | ⟨x, hx, -⟩
  · rw [hr] at h
    revert h
    decide
  · rw [hb] at hx
    cases hx

end Mnthr
