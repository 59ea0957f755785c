import Mnthr.L4Inv.Sift

/-!
# Within a sift

`Serving` holds from the moment `poller_sift_sleepq` has taken the expired
hosts out until it returns, as long as the threads set no context of the batch
for resume (`Within`): the batch is apart from the sleep queue, and what is in
it can be switched to. It does not ask for deadlines that do not overflow, and
so the sleep queue need not be in order (`SleepInv`) when the sift is over.

`Moved` says what a micro-step does to the sleep queue and the batch; the
invariant and the order of what the threads do not touch come from that.
-/
namespace Mnthr
open St

structure Serving (s : St) : Prop where
  apart : s.sleepq.Apart s.tmp s.runq
  parted : s.sleepq.Parted s.runq fun c => (s.ctx c).expireTicks
  resumable : ∀ c, s.filed c → (s.ctx c).state.resumable
  running : ∀ c, s.pc.runs = some c → ¬ s.filed c
  free : (s.freeList ++ s.gcRest).Nodup
  dead : ∀ c, c ∈ s.freeList ∨ c ∈ s.gcRest → (s.ctx c).f = none
  saved : ∀ c ∈ s.pending, c ∈ s.ctxes ∧ (s.ctx c).uc ≠ .gone

/-- The micro-step is not a poller's, and sets no context of the batch for
resume or interrupt. -/
def Act.within (s : St) : Act → Prop
  | .resume t | .interrupt t | .wake _ t => t ∉ s.pending
  | .resumeFast _ | .enter _ true | .discard _ true | .sift => False
  | _ => True

inductive Moved (a : Act) (s s' : St) : Prop where
  | same (ha : ∀ c, a ≠ .enter c false) (hq : s'.sleepq = s.sleepq) (ht : s'.tmp = s.tmp)
      (hr : s'.runq = s.runq)
      (hk : ∀ c ∈ s.sleepq.all, (s'.ctx c).expireTicks = (s.ctx c).expireTicks)
  /-- one context is filed under `d`, out of its old place -/
  | filed {c : Ptr} {d : Nat} {prio : Bool} (ha : a.files = some c) (hc : c ∉ s.pending)
      (hd : c ∉ s.sleepq.all ∨ d ≤ SLEEP_RESUME_NOW)
      (hq : s'.sleepq = (s.sleepq.remove (s.ctx c).expireTicks c).enqueue prio d c)
      (ht : s'.tmp = s.tmp) (hr : s'.runq = s.runq)
      (hk : (fun t => (s'.ctx t).expireTicks) =
        Function.update (fun t => (s.ctx t).expireTicks) c d)
      (hst : (s'.ctx c).state.resumable)
  /-- the batch loses its first context, which is switched to -/
  | popped {c : Ptr} {u : St} (ha : a = .enter c false) (hp : Picked s c false u)
      (hq : s'.sleepq = u.sleepq) (ht : s'.tmp = u.tmp) (hr : s'.runq = u.runq)
      (hk : ∀ t, t ≠ c → (s'.ctx t).expireTicks = (s.ctx t).expireTicks)

namespace Serving
variable {D : Diag} {a : Act} {s s' u : St} {c t : Ptr}

/-- Dead contexts and contexts without a thread are not queued. -/
theorem notFiled (hI : Inv s) (h : Serving s)
    (hf : (s.ctx c).f = none ∨ (s.ctx c).state = .dormant) : ¬ s.filed c := by
  intro hm
  have hr := (resumable_ne (h.resumable c hm)).1
  exact hI.live c hr (hf.resolve_right hr)

/-- The batch loses its next context, and nothing else moves. -/
theorem popped (h : Serving s) (hp : Picked s c false u) :
    u.sleepq.Apart u.tmp u.runq ∧ u.sleepq.Parted u.runq (fun t => (s.ctx t).expireTicks) ∧
      s.pending = c :: u.pending ∧ c ∉ u.pending ∧ u.sleepq.all = s.sleepq.all ∧
      u.sleepq.view = s.sleepq.view := by
  cases hp with
  | @tmp rest hc ht =>
    have ha := h.apart
    rw [ht] at ha
    obtain ⟨h1, h2⟩ := ha.popTmp
    exact ⟨h1, h.parted, by simp [St.pending, popTmp, clearExpire, St.setCtx, ht], h2, rfl, rfl⟩
  | @runq rest hc ht hr =>
    have ha := h.apart
    rw [ht, hr] at ha
    obtain ⟨h1, h2⟩ := ha.popRunq
    have hnd := ha.nodup
    rw [h2, List.nodup_cons] at hnd
    -- `c` is no host any more, so the trie does not see its bucket
    have hhost : ∀ {k x}, s.sleepq.trie.find? k = some x → x ≠ c := by
      intro k x hf heq
      subst heq
      exact ha.hosts k x hf (by rw [h2]; exact List.mem_cons_self ..)
    have hview : (s.sleepq.setBucket c []).view = s.sleepq.view := by
      funext k
      unfold Sleepq.view
      rw [Sleepq.setBucket_trie]
      cases hf : s.sleepq.trie.find? k with
      | none => rfl
      | some x => simp only [Sleepq.setBucket_of_ne (hhost hf)]
    refine ⟨h1, ⟨fun k x hx => ?_, fun k hk => ?_, fun x hx => ?_⟩, ?_, hnd.1, ?_, hview⟩
    · refine h.parted.filed k x (Sleepq.mem_view.1 ?_)
      rw [← hview]; exact Sleepq.mem_view.2 hx
    · rw [show (s.popRunq c rest).sleepq.view = _ from hview]; exact h.parted.once k hk
    · have hxc : x ≠ c := by intro heq; subst heq; simp [popRunq, clearExpire, St.setCtx] at hx
      simp only [popRunq, clearExpire, St.setCtx, Sleepq.setBucket_of_ne hxc] at hx
      refine (h.parted.hosted x hx).imp id fun hm => ?_
      rw [hr] at hm
      exact (List.mem_cons.1 hm).resolve_left hxc
    · rw [show s.pending = s.sleepq.batch s.tmp s.runq from rfl, ht, hr, h2]; rfl
    · refine Sleepq.flat_update_of_notMem fun e he => hhost (k := e.1) ?_
      exact OrdMap.mem_entries_iff.1 he

/-- What the sift resumes is resumable. -/
theorem not_discard {poll : Bool} (h : Serving s) (ha : Act.within s (.discard c poll))
    (hp : Picked s c poll u) (hst : (s.ctx c).state.resumable = false) : False := by
  cases poll with
  | true => exact ha
  | false =>
    obtain ⟨-, -, h3, -⟩ := h.popped hp
    have hr := h.resumable c (.inr (by rw [h3]; exact List.mem_cons_self ..))
    rw [hst] at hr
    cases hr

/-- A context is set for resume or interrupt, perhaps after it left a wait queue. -/
theorem filed_queueNow (hc : c ∉ s.pending) (ha : a.files = some c) {w : WaitQs} {b : Bool} {v : Int}
    {st : CoState} (hst : st.resumable) :
    Moved a s ({ s with wq := w, waitqOk := b }.queueNow c { s.ctx c with rc := v, state := st }) := by
  refine @Moved.filed _ _ _ c SLEEP_RESUME_NOW (s.ctx c).prio ha hc
    (.inr (Nat.le_refl _)) ?_ rfl rfl ?_ ?_
  · simp [St.queueNow, sleepqEnqueue, sleepqRemove, St.setCtx]
  · funext t
    by_cases htc : t = c
    · subst htc; simp [St.queueNow, sleepqEnqueue, sleepqRemove, St.setCtx]
    · simp [St.queueNow, sleepqEnqueue, sleepqRemove, St.setCtx, htc]
  · simpa [St.queueNow, sleepqEnqueue, sleepqRemove, St.setCtx] using hst

end Serving

section
variable {D : Diag} {a : Act} {s s' : St} {c t : Ptr}

theorem moved_micro (hI : Inv s) (h : Serving s) (ha : a.within s) (hm : Micro D a s s') :
    Moved a s s' := by
  have out : ∀ {c}, s.pc.runs = some c → c ∉ s.sleepq.all := fun hr hm =>
    h.running _ hr (.inl hm)
  -- a change of one context that is not in the trie, or keeps its `expire_ticks`
  have set : ∀ {c x}, (c ∉ s.sleepq.all ∨ x.expireTicks = (s.ctx c).expireTicks) →
      ∀ t ∈ s.sleepq.all, ((s.setCtx c x).ctx t).expireTicks = (s.ctx t).expireTicks := by
    intro c x hx t ht
    by_cases htc : t = c
    · subst htc
      simpa [setCtx] using hx.resolve_left (not_not.2 ht)
    · simp [setCtx, htc]
  cases hm with
  | env | append | removeMe | quit | unlink | gcList => exact .same (by simp) rfl rfl rfl fun _ _ => rfl
  | attr | rc | enterLib | yield | drop => exact .same (by simp) rfl rfl rfl (set (.inr rfl))
  | expire hpc => exact .same (by simp) rfl rfl rfl (set (.inl (out (by rw [hpc]; rfl))))
  | @sleepYield _ c k dormant hpc hk =>
    have hr : s.pc.runs = some c := by rw [hpc]; rfl
    refine .filed rfl (fun hm => h.running c hr (.inr hm)) (.inl (out hr)) rfl rfl rfl ?_ ?_
    · funext t
      by_cases htc : t = c
      · subst htc; simp [St.parked, St.asleep, setCtx]
      · simp [St.parked, St.asleep, setCtx, htc]
    · have := hk.real
      rw [← hk.state] at this
      simpa [St.parked, St.asleep, setCtx] using this
  | @complete _ c _ _ _ _ hpc ht hq =>
    refine .same (by simp) ?_ rfl rfl fun _ _ => rfl
    rcases hq with hq | hq
    · exact hq
    · exact hq.trans (Sleepq.remove_of_notMem (out (by rw [hpc]; rfl)))
  | resume | interrupt => exact Serving.filed_queueNow ha rfl rfl
  | wake hq hne =>
    unfold woken
    split
    · exact .same (by simp) rfl rfl rfl fun _ _ => rfl
    · exact Serving.filed_queueNow ha rfl rfl
  | createFree => exact .same (by simp) rfl rfl rfl (set (.inr rfl))
  | createNew =>
    refine .same (by simp) rfl rfl rfl (set (.inl fun hm => ?_))
    exact h.notFiled hI (.inl (hI.fresh _ (Nat.le_refl _))) (.inl hm)
  | @die _ c hpc =>
    have hout := out (c := c) (by rw [hpc]; rfl)
    exact .same (by simp) (Sleepq.remove_of_notMem hout) rfl rfl (set (.inl hout))
  | discard hpc hp hst => exact (h.not_discard ha hp hst).elim
  | release hl =>
    refine .same (by simp) rfl rfl rfl (set (.inl fun hm => ?_))
    exact h.notFiled hI (.inl (h.dead _ (hl.imp id And.left))) (.inl hm)
  | @enter _ u s' c poll hpc hp hst hs =>
    cases poll with
    | true => exact absurd ha id
    | false =>
      have hctx : ∀ t, t ≠ c → (u.ctx t).expireTicks = (s.ctx t).expireTicks := fun t htc => by
        rw [hp.ctx_eq, Function.update_of_ne htc]
      rcases enter_cases hs with ⟨-, rfl⟩ | ⟨-, -, rfl⟩
      all_goals
        refine .popped rfl hp rfl rfl rfl fun t htc => ?_
        simpa [setCtx, htc] using hctx t htc
  | resumeFast | sift => exact absurd ha id

/-- What the move means for the order of the queue and for who is in it. -/
structure Order (a : Act) (s s' : St) : Prop where
  apart : s'.sleepq.Apart s'.tmp s'.runq
  parted : s'.sleepq.Parted s'.runq fun t => (s'.ctx t).expireTicks
  filed : ∀ t, s'.filed t → s.filed t ∨ (a.files = some t ∧ (s'.ctx t).state.resumable)
  pending : ((∀ c, a ≠ .enter c false) ∧ s'.pending = s.pending) ∨
    ∃ c, a = .enter c false ∧ s.pending = c :: s'.pending ∧ ¬ s'.filed c
  view : ∀ k, SLEEP_RESUME_NOW < k → ∀ p : Ptr → Bool, (∀ c, a.files = some c → p c = false) →
    (s'.sleepq.view k).filter p = (s.sleepq.view k).filter p

theorem Sleepq.Parted.congr_key {q : Sleepq} {runq : List Ptr} {key key' : Ptr → Nat}
    (h : q.Parted runq key) (hk : ∀ c ∈ q.all, key' c = key c) : q.Parted runq key' :=
  { h with filed := fun k c hc => by rw [hk c (Sleepq.mem_all.2 ⟨k, hc⟩)]; exact h.filed k c hc }

theorem Serving.order (h : Serving s) (hm : Moved a s s') : Order a s s' := by
  cases hm with
  | same ha hq ht hr hk =>
    have hpend : s'.pending = s.pending := by rw [St.pending, St.pending, hq, ht, hr]
    refine ⟨by rw [hq, ht, hr]; exact h.apart, ?_, fun t hf => .inl ?_, .inl ⟨ha, hpend⟩,
      fun k _ p _ => by rw [hq]⟩
    · rw [hq, hr]; exact h.parted.congr_key hk
    · rwa [St.filed, hq, hpend] at hf
  | @filed c d prio ha hc hd hq ht hr hk hst =>
    obtain ⟨h1, h2⟩ := h.apart.remove (s.ctx c).expireTicks c
    obtain ⟨h3, h4⟩ := h1.enqueue (c := c) (by rw [h2]; exact hc) prio d
    have hcr : c ∉ s.runq := fun hm => hc (Sleepq.mem_batch_of_runq hm)
    obtain ⟨h5, h6, h7⟩ := h.parted.requeue hcr hd prio
    have hpend : s'.pending = s.pending := by
      rw [show s'.pending = s'.sleepq.batch s'.tmp s'.runq from rfl, hq, ht, hr]
      exact h4.trans h2
    refine ⟨by rw [hq, ht, hr]; exact h3, ?_, fun t hf => ?_, .inl ⟨?_, hpend⟩,
      fun k hlt p hp => ?_⟩
    · rw [hq, hr, hk]; exact h5
    · rw [St.filed, hq, hpend] at hf
      rcases hf with hf | hf
      · rcases h6 t hf with rfl | hf
        · exact .inr ⟨ha, hst⟩
        · exact .inl (.inl hf)
      · exact .inl (.inr hf)
    · intro x heq
      rw [heq] at ha
      cases ha
    · rw [hq]; exact h7 k hlt p (hp c ha)
  | @popped c u ha hp hq ht hr hk =>
    obtain ⟨h1, h2, h3, h4, h5, h6⟩ := h.popped hp
    have hpend : s'.pending = u.pending := by rw [St.pending, St.pending, hq, ht, hr]
    have hc : c ∉ s.sleepq.all := fun hm => h.apart.notMem hm (by
      rw [show s.sleepq.batch s.tmp s.runq = s.pending from rfl, h3]
      exact List.mem_cons_self ..)
    refine ⟨by rw [hq, ht, hr]; exact h1, ?_, fun t hf => .inl ?_, .inr ⟨c, ha, ?_, ?_⟩,
      fun k _ p _ => by rw [hq, h6]⟩
    · rw [hq, hr]
      refine h2.congr_key fun t htm => hk t fun heq => ?_
      subst heq
      exact hc (h5 ▸ htm)
    · rw [St.filed, hq, hpend, h5] at hf
      exact hf.imp id fun hm => by rw [h3]; exact List.mem_cons_of_mem _ hm
    · rw [hpend, h3]
    · rw [St.filed, hq, hpend, h5]
      exact fun hf => hf.elim hc h4

/-- A suspended thread stays suspended until it is switched to. -/
theorem suspended_micro (hI : Inv s) (hm : Micro D a s s') (hr : (s.ctx t).state.resumable)
    (hrun : s.pc.runs ≠ some t) (hfree : t ∉ s.freeList ∧ t ∉ s.gcRest)
    (he : ∀ poll, a ≠ .enter t poll) :
    (s'.ctx t).state.resumable ∧ (s'.ctx t).uc = (s.ctx t).uc ∧ (t ∈ s.ctxes → t ∈ s'.ctxes) := by
  have hf : (s.ctx t).f ≠ none := hI.live t (resumable_ne hr).1
  by_cases hx : a.subject = some t
  swap
  · have h := micro_sameFor hm hx
    exact ⟨by rw [h.ctx]; exact hr, by rw [h.ctx], h.alloc⟩
  cases hm with
  | env | gcList | sift => cases hx
  | unlink => exact ⟨hr, rfl, id⟩
  | attr | rc => cases hx; simpa [setCtx] using hr
  | enterLib hpc =>
    cases hx
    exact absurd (by rcases hpc with hpc | ⟨k, hpc, -⟩ <;> rw [hpc] <;> rfl) hrun
  | expire hpc | append hpc | yield hpc | sleepYield hpc | removeMe hpc | complete _ _ hpc | die hpc
  | quit hpc =>
    cases hx
    exact absurd (by rw [hpc]; rfl) hrun
  | resume | interrupt =>
    cases hx
    simp [queueNow, sleepqEnqueue, sleepqRemove, setCtx, CoState.resumable]
  | resumeFast => cases hx; simp [setCtx, CoState.resumable]
  | wake =>
    cases hx
    unfold woken
    rw [if_neg hf]
    simp [queueNow, sleepqEnqueue, sleepqRemove, setCtx, dequeue, CoState.resumable]
  | createFree hc => cases hx; exact absurd (List.mem_of_find?_eq_some hc) hfree.1
  | createNew => cases hx; exact absurd (hI.fresh _ (Nat.le_refl _)) hf
  | discard hpc hp hst => cases hx; rw [hst] at hr; cases hr
  | release hl => cases hx; exact absurd hl fun h => h.elim hfree.1 fun h => hfree.2 h.1
  | drop hr' hf' => cases hx; exact absurd hf' hf
  | @enter _ _ _ c poll =>
    exact absurd (congrArg (Act.enter · poll) (Option.some.inj hx)) (he poll)

theorem files_runs (hI : Inv s) (hm : Micro D a s s') (ha : a.files = some t) :
    s'.pc.runs ≠ some t := by
  have hne : s.me ≠ some t → s.pc.runs ≠ some t := fun h hr => h (hI.me t hr)
  cases hm with
  | sleepYield => simp [St.parked, Pc.runs]
  | resume h | interrupt h => cases ha; exact hne h
  | resumeFast hpc => cases ha; simp [setCtx, hpc, Pc.runs]
  | wake hq h =>
    cases ha
    unfold woken
    split <;> exact hne h
  | _ => cases ha

/-- The free list holds dead contexts, each once. -/
theorem free_micro (hI : Inv s) (h : Serving s) (ha : a.within s) (hm : Micro D a s s') :
    (s'.freeList ++ s'.gcRest).Nodup ∧
      ∀ c, c ∈ s'.freeList ∨ c ∈ s'.gcRest → (s'.ctx c).f = none := by
  -- what is free has no thread, and gets none
  have dead : (∀ x, a ≠ .create x) → (∀ c, c ∈ s'.freeList ∨ c ∈ s'.gcRest →
      c ∈ s.freeList ∨ c ∈ s.gcRest) → ∀ c, c ∈ s'.freeList ∨ c ∈ s'.gcRest →
      (s'.ctx c).f = none := by
    intro hc hsub c hm'
    by_contra hf
    exact (alive_before hm (hc c) hf).1 (h.dead c (hsub c hm'))
  cases hm with
  | @createFree _ c hc hid f n =>
    have hmem : c ∈ s.freeList := List.mem_of_find?_eq_some hc
    refine ⟨h.free.sublist ((List.erase_sublist ..).append_right _), fun t ht => ?_⟩
    have htc : t ≠ c := by
      intro heq
      subst heq
      rcases ht with ht | ht
      · exact (List.nodup_append.1 h.free).1.not_mem_erase ht
      · exact (List.nodup_append.1 h.free).2.2 t hmem t ht rfl
    simpa [setCtx, htc] using h.dead t (ht.imp List.mem_of_mem_erase id)
  | createNew f n =>
    refine ⟨h.free, fun t ht => ?_⟩
    have htc : t ≠ s.brk := Nat.ne_of_lt (hI.free t ht)
    simpa [setCtx, htc] using h.dead t ht
  | @die _ c hpc hst =>
    have hcf : ¬ (c ∈ s.freeList ∨ c ∈ s.gcRest) := fun hm =>
      hI.live c (by simp [hst]) (h.dead c hm)
    constructor
    · show (s.freeList ++ [c] ++ s.gcRest).Nodup
      rw [List.append_assoc, List.singleton_append, List.nodup_middle, List.nodup_cons,
        List.mem_append]
      exact ⟨hcf, h.free⟩
    · intro t ht
      by_cases htc : t = c
      · subst htc; simp [buried, setCtx, Ctx.cleared]
      · have := h.dead t (by simpa [buried, setCtx, htc] using ht)
        simpa [buried, setCtx, htc] using this
  | discard hpc hp hst => exact (h.not_discard ha hp hst).elim
  | @gcList _ l1 l2 hl hs =>
    refine ⟨hI.nodup.sublist hs, fun t ht => ?_⟩
    exact h.dead t ((hl t (List.mem_append.2 ht)).imp id And.left)
  | wake =>
    refine ⟨?_, dead (by simp) fun t ht => ?_⟩
    · unfold woken; split <;> exact h.free
    · unfold woken at ht
      split at ht <;> exact ht
  | @enter _ u s' c poll hpc hp hst hs =>
    have hl : s'.freeList = s.freeList ∧ s'.gcRest = s.gcRest := by
      rcases enter_cases hs with ⟨-, rfl⟩ | ⟨-, -, rfl⟩ <;> cases hp <;> exact ⟨rfl, rfl⟩
    exact ⟨by rw [hl.1, hl.2]; exact h.free, dead (by simp) fun t ht => by rwa [hl.1, hl.2] at ht⟩
  | resumeFast | sift => exact absurd ha id
  | _ => exact ⟨h.free, dead (by simp) fun t ht => ht⟩

/-- Every micro-step of the call keeps `Serving`. -/
theorem serving_micro (hI : Inv s) (h : Serving s) (ha : a.within s) (hm : Micro D a s s') :
    Serving s' ∧ Order a s s' := by
  have ho := h.order (moved_micro hI h ha hm)
  obtain ⟨hfree, hdead⟩ := free_micro hI h ha hm
  -- who is queued stays suspended
  have susp : ∀ t, s.filed t → s'.filed t → (s'.ctx t).state.resumable ∧
      (s'.ctx t).uc = (s.ctx t).uc ∧ (t ∈ s.ctxes → t ∈ s'.ctxes) := by
    intro t ht ht'
    have hr := h.resumable t ht
    have hl : ¬ (t ∈ s.freeList ∨ t ∈ s.gcRest) := fun hm =>
      h.notFiled hI (.inl (h.dead t hm)) ht
    refine suspended_micro hI hm hr (fun hr => h.running t hr ht)
      ⟨fun hm => hl (.inl hm), fun hm => hl (.inr hm)⟩ fun poll heq => ?_
    subst heq
    cases poll with
    | true => exact ha
    | false =>
      rcases ho.pending with ⟨hn, -⟩ | ⟨c, he, -, hc⟩
      · exact hn t rfl
      · cases he; exact hc ht'
  refine ⟨⟨ho.apart, ho.parted, fun t ht => ?_, fun t hr ht => ?_, hfree, hdead, fun t ht => ?_⟩, ho⟩
  · rcases ho.filed t ht with hs | ⟨-, hs⟩
    · exact (susp t hs ht).1
    · exact hs
  · rcases ho.filed t ht with hs | ⟨hs, -⟩
    · rcases runs_micro hm hr with hr' | ⟨poll, rfl⟩
      · exact h.running t hr' hs
      · cases poll with
        | true => exact ha
        | false =>
          rcases ho.pending with ⟨hn, -⟩ | ⟨c, he, -, hc⟩
          · exact hn t rfl
          · cases he; exact hc ht
    · exact files_runs hI hm hs hr
  · have hp : t ∈ s.pending := by
      rcases ho.pending with ⟨-, he⟩ | ⟨c, -, he, -⟩
      · rwa [he] at ht
      · rw [he]; exact List.mem_cons_of_mem _ ht
    obtain ⟨-, h2, h3⟩ := susp t (.inr hp) (.inr ht)
    exact ⟨h3 (h.saved t hp).1, by rw [h2]; exact (h.saved t hp).2⟩

end

/-! ## Events -/

/-- What goes on between the slices of a sift: the next slice, and the clock. -/
def Event.inSift : Event → Bool
  | .next | .tick _ => true
  | _ => false

/-- The event is the sift's, or a thread's that sets no context of the batch
for resume or interrupt. -/
def Within (s : St) (e : Event) : Prop :=
  (s.pc = .sched → e.inSift) ∧ ∀ t ∈ s.touched e, t ∉ s.pending

instance (s : St) (e : Event) : Decidable (Within s e) := by unfold Within; infer_instance

/-- What an event of the call does, as far as `u`. -/
structure ServingAt (s : St) (e : Event) (u : St) : Prop where
  inv : Inv u
  serving : Serving u
  batch : ∀ t ∈ u.pending, t ∈ s.pending
  pending : e ≠ .next → u.pending = s.pending
  runs : ∀ t, u.pc.runs = some t → s.pc.runs = some t ∨ (e = .next ∧ s.nextPick = some t)
  view : ∀ k, SLEEP_RESUME_NOW < k → ∀ p : Ptr → Bool, (∀ t ∈ s.touched e, p t = false) →
    (∀ t, s.pc.runs = some t → p t = false) →
    (u.sleepq.view k).filter p = (s.sleepq.view k).filter p

section
variable {D : Diag} {a : Act} {e : Event} {s s' u v : St}

theorem Within.notPoll (hw : Within s e) (hs : s.step D e = some s') :
    e ≠ .sift ∧ (∀ c rc, e ≠ .pollResume c rc) ∧ ∀ c, e ≠ .pollFast c := by
  have idle : ∀ {e'}, e = e' → s.pc = .sched → e'.inSift := fun he hpc => he ▸ hw.1 hpc
  refine ⟨fun he => ?_, fun c rc he => ?_, fun c he => ?_⟩
  all_goals
    subst he
    simp only [step, St.sift, St.pollResume, St.pollFast] at hs
    split at hs
    · rename_i hpc
      have := hw.1 hpc.1
      cases this
    · cases hs

/-- Who is put in the sleep queue is touched by the event, or runs. -/
theorem ServingAt.files (h : ServingAt s e u) (hs : s.step D e = some s') (hw : Within s e)
    (ha : May s e a) (hm : Micro D a u v) {t : Ptr} (hf : a.files = some t) :
    t ∈ s.touched e ∨ s.pc.runs = some t := by
  cases a with
  | resume x => cases hf; exact .inl (List.mem_append_left _ (List.mem_append_left _ ha))
  | interrupt x => cases hf; exact .inl (List.mem_append_left _ (List.mem_append_right _ ha))
  | wake q x => cases hf; exact .inl (List.mem_append_right _ (List.mem_map.2 ⟨(q, t), ha, rfl⟩))
  | resumeFast x => exact absurd ha ((hw.notPoll hs).2.2 x)
  | sleepYield x d k b dormant =>
    cases hf
    refine .inr ((h.runs t ?_).resolve_right fun hn => ?_)
    · cases hm with
      | sleepYield hpc => rw [hpc]; rfl
    · have hk := ha.2.1
      rw [hn.1] at hk
      cases hk
  | _ => cases hf

theorem ServingAt.within (h : ServingAt s e u) (hs : s.step D e = some s') (hw : Within s e)
    (ha : May s e a) : a.within u := by
  have out : ∀ t, t ∈ s.touched e → t ∉ u.pending := fun t ht hm => hw.2 t ht (h.batch t hm)
  obtain ⟨hsift, hres, hfast⟩ := hw.notPoll hs
  cases a with
  | resume t => exact out t (List.mem_append_left _ (List.mem_append_left _ ha))
  | interrupt t => exact out t (List.mem_append_left _ (List.mem_append_right _ ha))
  | wake q t => exact out t (List.mem_append_right _ (List.mem_map.2 ⟨(q, t), ha, rfl⟩))
  | resumeFast t => exact hfast t ha
  | enter c poll | discard c poll =>
    cases poll with
    | false => trivial
    | true =>
      obtain ⟨rc, he, -⟩ := ha
      exact hres c rc he
  | sift => exact hsift ha
  | _ => trivial

theorem servingAt_micro (h : ServingAt s e u) (hs : s.step D e = some s') (hw : Within s e)
    (ha : May s e a) (hm : Micro D a u v) : ServingAt s e v := by
  obtain ⟨h1, ho⟩ := serving_micro h.inv h.serving (h.within hs hw ha) hm
  have hbatch : ∀ t ∈ v.pending, t ∈ u.pending := by
    intro t ht
    rcases ho.pending with ⟨-, he⟩ | ⟨c, -, he, -⟩
    · rwa [he] at ht
    · rw [he]; exact List.mem_cons_of_mem _ ht
  refine ⟨inv_micro h.inv hm, h1, fun t ht => h.batch t (hbatch t ht), fun hn => ?_,
    fun t hr => ?_, fun k hk p hp hp' => ?_⟩
  · rcases ho.pending with ⟨-, he⟩ | ⟨c, rfl, -, -⟩
    · rw [he]; exact h.pending hn
    · exact absurd ha.1 hn
  · rcases runs_micro hm hr with hr' | ⟨poll, rfl⟩
    · exact h.runs t hr'
    · cases poll with
      | false => exact .inr ha
      | true => exact absurd (h.within hs hw ha) id
  · rw [ho.view k hk p fun c hc => ?_]
    · exact h.view k hk p hp hp'
    · exact (h.files hs hw ha hm hc).elim (hp c) (hp' c)

theorem serving_step (hI : Inv s) (h : Serving s) (hw : Within s e) (hs : s.step D e = some s') :
    ServingAt s e s' := by
  obtain ⟨s1, hb, hch⟩ := step_micro hI.base hs
  refine hch.inv (fun a u v ha hm hu => servingAt_micro hu hs hw ha hm) ?_
  cases hb with
  | same => exact ⟨hI, h, fun _ ht => ht, fun _ => rfl, fun _ hr => .inl hr, fun _ _ _ _ _ => rfl⟩
  | @create c s1 hc hm =>
    obtain ⟨h1, ho⟩ := serving_micro (a := .create c) hI h trivial hm
    have hpend : s1.pending = s.pending := by
      rcases ho.pending with ⟨-, he⟩ | ⟨x, he, -⟩
      · exact he
      · cases he
    refine ⟨inv_micro hI hm, h1, fun t ht => hpend ▸ ht, fun _ => hpend, fun t hr => ?_,
      fun k hk p _ _ => ho.view k hk p fun x hx => ?_⟩
    · rcases runs_micro hm hr with hr' | ⟨poll, he⟩
      · exact .inl hr'
      · cases he
    · cases hx

end

end Mnthr
