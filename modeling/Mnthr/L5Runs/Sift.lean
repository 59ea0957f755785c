import Mnthr.L4Inv.Serving
import Mnthr.L5Runs.Sleep
import Mnthr.L5Runs.Subscribe
import Mathlib.Data.List.Flatten

/-!
# One slice for each expired thread

A call of `poller_sift_sleepq` is the event `sift` and then a run of slices,
whatever the threads do in theirs as long as they set no context of the batch
for resume or interrupt (`Within`). `sift_serves`: the batch is what was
expired at entry, in the order of the keys, host first, then its bucket; it is
resumed in that order, each context once and with `expire_ticks` cleared;
nothing that is queued during the call is resumed by it, and what the threads
do not touch stays in place.

The batch is fixed in two stages, the hosts at entry and each bucket when its
host is resumed; that nothing changes in between is `Serving`.
-/
namespace Mnthr
open St

/-- The contexts under the keys below the clock, key by key, the host first. -/
def St.expired (s : St) : List Ptr :=
  ((s.sleepq.trie.entries.map Prod.fst).filter fun k => decide (k < s.now)).flatMap s.sleepq.view

/-- The scheduler is about to sift, and `the_sleepq` is well-formed: every
context in it is there once, under its own `expire_ticks`, and is a suspended
thread. The free list holds dead contexts, each once. -/
structure Siftable (s : St) : Prop where
  inv : Inv s
  pc : s.pc = .sched
  runq : s.runq = []
  tmp : s.tmp = []
  queue : s.sleepq.Ok [] [] fun c => (s.ctx c).expireTicks
  thread : ∀ c ∈ s.sleepq.all, c ∈ s.ctxes ∧ (s.ctx c).state.resumable ∧ (s.ctx c).uc ≠ .gone
  free : (s.freeList ++ s.gcRest).Nodup
  dead : ∀ c, c ∈ s.freeList ∨ c ∈ s.gcRest → (s.ctx c).f = none

/-- What a call has done: the contexts that it has resumed, each with its
`expire_ticks` when it was switched to, and those that its threads have set for
resume or interrupt. -/
structure Served where
  slices : List (Ptr × Nat)
  touched : List Ptr

def St.serve (s : St) (e : Event) (s' : St) (h : Served) : Served where
  slices := h.slices ++ (s.siftResumes e).toList.map fun t => (t, (s'.ctx t).expireTicks)
  touched := h.touched ++ s.touched e

/-- The machine with what the current call has done beside it. -/
def serves (D : Diag) : St × Served → Event → Option (St × Served) :=
  recorded (St.step D) St.serve

/-- `s'` is reached within the call that begins in `s`, which has done `h`. -/
structure Sifted (D : Diag) (s s' : St) (h : Served) : Prop where
  once : s.expired.Nodup
  due : ∀ c, c ∈ s.expired ↔ c ∈ s.sleepq.all ∧ (s.ctx c).expireTicks < s.now
  sorted : s.expired.Pairwise fun a b => (s.ctx a).expireTicks ≤ (s.ctx b).expireTicks
  /-- the slices so far, then what is left of the batch -/
  slices : h.slices ++ s'.pending.map (·, SLEEP_UNDEFINED) =
    s.expired.map (·, SLEEP_UNDEFINED)
  /-- what is queued is left for a later sift -/
  later : ∀ c ∈ s'.sleepq.all, c ∉ s'.pending
  others : ∀ k, s.now ≤ k →
    (s'.sleepq.view k).filter (fun c => decide (c ∉ s.expired ∧ c ∉ h.touched)) =
      (s.sleepq.view k).filter fun c => decide (c ∉ s.expired ∧ c ∉ h.touched)
  /-- the loop goes on until the batch is empty -/
  goesOn : s'.pc = .sched → (s'.pending ≠ [] ↔ ∃ v, s'.step D .next = some v)

/-! ## The beginning -/

section
variable {s : St}

theorem expired_eq (s : St) : s.expired =
    Sleepq.flat s.sleepq.bucket (s.sleepq.trie.entries.filter fun e => decide (e.1 < s.now)) := by
  have hview : ∀ e ∈ s.sleepq.trie.entries, s.sleepq.view e.1 = e.2 :: s.sleepq.bucket e.2 :=
    fun e he => Sleepq.view_of_find (OrdMap.mem_entries_iff.1 he)
  rw [St.expired, List.filter_map, List.flatMap_map, Sleepq.flat]
  refine List.flatMap_congr fun e he => ?_
  exact hview e (List.mem_filter.1 he).1

theorem Siftable.mem_expired (h : Siftable s) {c : Ptr} :
    c ∈ s.expired ↔ c ∈ s.sleepq.all ∧ (s.ctx c).expireTicks < s.now := by
  rw [expired_eq, Sleepq.mem_flat]
  constructor
  · intro hc
    obtain ⟨k, x, hx, hc⟩ := hc
    obtain ⟨hin, hlt⟩ := List.mem_filter.1 hx
    have hat : s.sleepq.At k c := ⟨x, hin, hc⟩
    exact ⟨Sleepq.mem_all.2 ⟨k, hat⟩, by rw [h.queue.filed k c hat]; exact of_decide_eq_true hlt⟩
  · intro hc
    obtain ⟨k, x, hin, hx⟩ := Sleepq.mem_all.1 hc.1
    refine ⟨k, x, List.mem_filter.2 ⟨hin, decide_eq_true ?_⟩, hx⟩
    have := h.queue.filed k c ⟨x, hin, hx⟩
    show k < s.now
    rw [← this]
    exact hc.2

theorem Siftable.expired_nodup (h : Siftable s) : s.expired.Nodup := by
  have hn := h.queue.nodup_all
  rw [expired_eq]
  exact hn.sublist (List.filter_sublist.flatMap _)

theorem Siftable.expired_sorted (h : Siftable s) :
    s.expired.Pairwise fun a b => (s.ctx a).expireTicks ≤ (s.ctx b).expireTicks := by
  have hkey : ∀ e ∈ s.sleepq.trie.entries, ∀ c ∈ e.2 :: s.sleepq.bucket e.2,
      (s.ctx c).expireTicks = e.1 := fun e he c hc => h.queue.filed e.1 c ⟨e.2, he, hc⟩
  have hsub := List.filter_sublist (l := s.sleepq.trie.entries) (p := fun e => decide (e.1 < s.now))
  rw [expired_eq, Sleepq.flat, List.pairwise_flatMap]
  refine ⟨fun e he => ?_, ?_⟩
  · refine List.pairwise_of_forall_mem_list fun a ha b hb => ?_
    rw [hkey e (hsub.subset he) a ha, hkey e (hsub.subset he) b hb]
  · refine (s.sleepq.trie.sorted.sublist hsub).imp_of_mem fun {e e'} he he' hlt a ha b hb => ?_
    rw [hkey e (hsub.subset he) a ha, hkey e' (hsub.subset he') b hb]
    exact hlt.le

/-- The hosts that the sift takes out are those of the expired keys. -/
theorem Siftable.sift (h : Siftable s) : ∃ u, s.sift = some u ∧ Inv u ∧ Serving u ∧
    u.pc = .sched ∧ u.pending = s.expired ∧
    ∀ k, s.now ≤ k → u.sleepq.view k = s.sleepq.view k := by
  let due : Ptr → Bool := fun c => decide ((s.ctx c).expireTicks < s.now)
  let u : St := { s with
    siftNow := s.now, runq := s.sleepq.trie.front due,
    sleepq := { s.sleepq with trie := s.sleepq.trie.popWhile due } }
  have hs : s.sift = some u := by
    unfold St.sift
    rw [if_pos ⟨h.pc, h.runq, h.tmp⟩]
  obtain ⟨hok, hall, -⟩ := h.queue.sift due
  obtain ⟨hbatch, hview⟩ : u.sleepq.batch [] u.runq = s.expired ∧ _ := h.queue.view_sift s.now
  have hpend : u.pending = s.expired := by
    rw [← hbatch, show u.pending = u.sleepq.batch u.tmp u.runq from rfl, show u.tmp = s.tmp from rfl,
      h.tmp]
  -- what is in the trie or in the batch was in the trie
  have hfiled : ∀ c, u.filed c → c ∈ s.sleepq.all := by
    intro c hc
    rw [St.filed, hpend, ← hbatch] at hc
    rw [hall, List.mem_append]
    exact hc.symm
  refine ⟨u, hs, { h.inv with }, ⟨?_, hok.parted, fun c hc => (h.thread c (hfiled c hc)).2.1,
    fun c hr => ?_, h.free, h.dead, fun c hc => ?_⟩, h.pc, hpend, fun k hk => ?_⟩
  · rw [show u.tmp = [] from h.tmp]; exact hok.apart
  · rw [show u.pc = .sched from h.pc] at hr
    cases hr
  · obtain ⟨h1, -, h2⟩ := h.thread c (hfiled c (.inr hc))
    exact ⟨h1, h2⟩
  · rw [hview k, if_neg (Nat.not_lt.2 hk)]

end

/-! ## Within the call -/

/-- What holds within the call that began in `s`; `v` is the multimap that the
sift left. -/
structure Sifting (s : St) (v : Nat → List Ptr) (p : St × Served) : Prop where
  inv : Inv p.1
  serving : Serving p.1
  slices : p.2.slices ++ p.1.pending.map (·, SLEEP_UNDEFINED) =
    s.expired.map (·, SLEEP_UNDEFINED)
  runs : ∀ t, p.1.pc.runs = some t → t ∈ s.expired
  view : ∀ k, SLEEP_RESUME_NOW < k → ∀ q : Ptr → Bool, (∀ t ∈ p.2.touched, q t = false) →
    (∀ t ∈ s.expired, q t = false) → (p.1.sleepq.view k).filter q = (v k).filter q
  idle : s.expired = [] → p.1.pc = .sched ∧ p.1.sleepq.view = v

section
variable {D : Diag} {s u s' : St} {v : Nat → List Ptr} {p p' : St × Served} {e : Event} {t : Ptr}

theorem Sifting.pending_subset (h : Sifting s v p) (ht : t ∈ p.1.pending) : t ∈ s.expired := by
  have hm : (t, SLEEP_UNDEFINED) ∈ s.expired.map (·, SLEEP_UNDEFINED) := by
    rw [← h.slices]
    exact List.mem_append_right _ (List.mem_map.2 ⟨t, ht, rfl⟩)
  obtain ⟨x, hx, he⟩ := List.mem_map.1 hm
  cases he
  exact hx

/-- One `poller_resume` of the sift: the first of the batch is switched to,
with `expire_ticks` cleared. -/
theorem Serving.next (h : Serving s) (hs : s.step D .next = some s') : ∃ t,
    s.siftResumes .next = some t ∧ s.pending = t :: s'.pending ∧
      (s'.ctx t).expireTicks = SLEEP_UNDEFINED := by
  obtain ⟨t, w, -, hn, hp, hcase⟩ := next_cases hs
  have hr := h.resumable t (.inr (mem_pending_of_nextPick hn))
  rcases hcase with ⟨-, hen⟩ | ⟨hd, -⟩
  · obtain ⟨-, -, h3, -⟩ := h.popped hp
    have hx : (w.ctx t).expireTicks = SLEEP_UNDEFINED := by rw [hp.ctx_eq, Function.update_self]
    refine ⟨t, by simp [siftResumes, hn, hr], ?_⟩
    rcases enter_cases hen with ⟨-, rfl⟩ | ⟨-, -, rfl⟩
    all_goals exact ⟨h3, by simpa [setCtx] using hx⟩
  · rw [hr] at hd
    cases hd

theorem sifting_step (h : Sifting s v p) (hw : Within p.1 e) (hs : serves D p e = some p') :
    Sifting s v p' := by
  obtain ⟨h1, h2⟩ := recorded_step hs
  have hat := serving_step h.inv h.serving hw h1
  refine ⟨hat.inv, hat.serving, ?_, fun t hr => ?_, fun k hk q hq hq' => ?_, fun he => ?_⟩
  · rw [← h.slices, h2]
    by_cases hn : e = .next
    · subst hn
      obtain ⟨t, ht, hp, hx⟩ := h.serving.next h1
      simp [serve, ht, hp, hx]
    · have hnone : p.1.siftResumes e = none := by
        cases e with
        | next => exact absurd rfl hn
        | _ => rfl
      rw [hat.pending hn]
      simp [serve, hnone]
  · rcases hat.runs t hr with hr | ⟨-, hn⟩
    · exact h.runs t hr
    · exact h.pending_subset (mem_pending_of_nextPick hn)
  · rw [h2] at hq
    simp only [serve, List.mem_append] at hq
    rw [hat.view k hk q (fun t ht => hq t (.inr ht)) fun t hr => hq' t (h.runs t hr)]
    exact h.view k hk q (fun t ht => hq t (.inl ht)) hq'
  · -- nothing is due, and only the clock goes on
    obtain ⟨hpc, hv⟩ := h.idle he
    have hin := hw.1 hpc
    cases e with
    | next =>
      obtain ⟨t, -, -, hn, -⟩ := next_cases h1
      have := h.pending_subset (mem_pending_of_nextPick hn)
      rw [he] at this
      cases this
    | tick n =>
      simp only [step] at h1
      split at h1
      · have := Option.some.inj h1
        rw [← this]
        exact ⟨hpc, hv⟩
      · cases h1
    | _ => cases hin

/-- The next slice can begin. -/
theorem Serving.goesOn (h : Serving s) (hpc : s.pc = .sched) (ht : s.nextPick = some t) :
    ∃ s', s.step D .next = some s' := by
  have hm := mem_pending_of_nextPick ht
  obtain ⟨hc, hu⟩ := h.saved t hm
  have hr := h.resumable t (.inr hm)
  have entered : ∀ {w : St}, w.ctx = Function.update s.ctx t
      { s.ctx t with expireTicks := SLEEP_UNDEFINED } → ∃ s', w.pollerResume t = some s' := by
    intro w hw
    have hx : w.ctx t = { s.ctx t with expireTicks := SLEEP_UNDEFINED } := by
      rw [hw, Function.update_self]
    unfold pollerResume enter
    simp only [hx, hr, if_true]
    cases huc : (s.ctx t).uc with
    | gone => exact absurd huc hu
    | _ => exact ⟨_, rfl⟩
  unfold nextPick at ht
  simp only [step, St.next, hpc, ne_eq, not_true, if_false]
  cases htmp : s.tmp with
  | cons c rest =>
    rw [htmp] at ht
    cases ht
    simp only [hc, if_true]
    exact entered rfl
  | nil =>
    rw [htmp] at ht
    cases hrun : s.runq with
    | nil => rw [hrun] at ht; cases ht
    | cons c rest =>
      rw [hrun] at ht
      cases ht
      simp only [hc, if_true]
      exact entered rfl

theorem nextPick_of_pending (h : s.pending ≠ []) : ∃ t, s.nextPick = some t := by
  unfold nextPick
  cases htmp : s.tmp with
  | cons c rest => exact ⟨c, rfl⟩
  | nil =>
    cases hr : s.runq with
    | cons c rest => exact ⟨c, rfl⟩
    | nil => exact absurd (by rw [St.pending, htmp, hr]; rfl) h

end

theorem sift_serves {D : Diag} {s : St} (hs : Siftable s) : ∃ u, s.step D .sift = some u ∧
    ∀ es s' h, Along (St.step D) Within u es →
      exec (serves D) (u, ⟨[], []⟩) es = some (s', h) → Sifted D s s' h := by
  obtain ⟨u, hu, hI, hS, hpc, hpend, hview⟩ := hs.sift
  refine ⟨u, hu, fun es s' h hw hr => ?_⟩
  have hinit : Sifting s u.sleepq.view (u, ⟨[], []⟩) :=
    ⟨hI, hS, by simp [hpend], fun t ht => (by rw [hpc] at ht; cases ht), fun _ _ _ _ _ => rfl,
      fun _ => ⟨hpc, rfl⟩⟩
  have hall := exec_inv (C := fun p e => Within p.1 e) (fun _ _ _ hp hc hs => sifting_step hp hc hs)
    hinit (along_recorded.1 hw) hr
  refine ⟨hs.expired_nodup, fun c => hs.mem_expired, hs.expired_sorted, hall.slices,
    fun c hc => hall.serving.apart.notMem hc, fun k hk => ?_, fun hpc' => ⟨fun hne => ?_, fun hv => ?_⟩⟩
  · rw [← hview k hk]
    by_cases hlow : SLEEP_RESUME_NOW < k
    · exact hall.view k hlow _ (fun t ht => decide_eq_false fun h => h.2 ht)
        fun t ht => decide_eq_false fun h => h.1 ht
    · -- nothing is due at such a time: no key is below it but the undefined one
      have hnil : s.expired = [] := by
        refine List.eq_nil_iff_forall_not_mem.2 fun c hc => ?_
        obtain ⟨hin, hlt⟩ := hs.mem_expired.1 hc
        have := (hs.queue.at_key hin).2
        simp only [SLEEP_UNDEFINED, SLEEP_RESUME_NOW] at this hlow
        omega
      rw [(hall.idle hnil).2]
  · obtain ⟨t, ht⟩ := nextPick_of_pending hne
    exact hall.serving.goesOn hpc' ht
  · obtain ⟨v, hv⟩ := hv
    obtain ⟨t, -, -, hn, -⟩ := next_cases hv
    exact List.ne_nil_of_mem (mem_pending_of_nextPick hn)

/-- A calm run leads to a state in which a sift may begin, if the queued
threads have saved themselves. -/
theorem SleepInv.siftable {s : St} (hI : Inv s) (h : SleepInv s) (hpc : s.pc = .sched)
    (ht : s.tmp = []) (hr : s.runq = [])
    (hu : ∀ c ∈ s.sleepq.all, c ∈ s.ctxes ∧ (s.ctx c).uc ≠ .gone) : Siftable s where
  inv := hI
  pc := hpc
  runq := hr
  tmp := ht
  queue := by
    have hq := h.queue
    rwa [ht, hr] at hq
  thread c hc := ⟨(hu c hc).1, h.resumable (.inl hc), (hu c hc).2⟩
  free := h.free
  dead := h.dead

/-- Threads 0 and 1 sleep under one key, thread 2 under an earlier one, and
thread 3 under a later one. -/
def fourSleepers : List Event :=
  [.call (.spawn 0), .call (.spawn 0), .call (.spawn 0), .call (.spawn 0), .tick 10, .sift, .next,
    .block (.sleep .msec 5) false, .next, .block (.sleep .msec 5) false, .next,
    .block (.sleep .ticks 20) false, .next, .block (.sleep .msec 100) false, .tick 6000000]

/-- In the sift that follows, thread 2 starts thread 4 and yields, thread 0
exits, and thread 1 sleeps until the end of time. -/
def threeSlices : List Event :=
  [.next, .cont false, .call (.spawn 0), .block .yield false, .next, .cont false, .exit false, .next,
    .cont false, .block .giveup false]

theorem sift_serves_fourSleepers : ∃ s u s' h, sampleRun fourSleepers = some s ∧
    s.step .sample .sift = some u ∧ exec (serves .sample) (u, ⟨[], []⟩) threeSlices = some (s', h) ∧
    h.slices.map Prod.fst = [2, 0, 1] ∧ s'.sleepq.view SLEEP_RESUME_NOW = [4, 2] ∧
    Sifted .sample s s' h := by
  obtain ⟨s, hs⟩ := Option.isSome_iff_exists.1 (show (sampleRun fourSleepers).isSome by decide)
  obtain ⟨hI, hS⟩ := sinv_exec hs (along_of_decide (by decide))
  have hall : s.sleepq.all = [2, 0, 1, 3] :=
    sampleRun_fact hs (f := fun s => s.sleepq.all) (by decide)
  have hsaved : ∀ c ∈ [2, 0, 1, 3], c ∈ s.ctxes ∧ (s.ctx c).uc ≠ .gone := by
    simpa using sampleRun_fact hs (a := true)
      (f := fun s => [2, 0, 1, 3].all fun c => decide (c ∈ s.ctxes ∧ (s.ctx c).uc ≠ .gone))
      (by decide)
  have hsift : Siftable s := hS.siftable hI (sampleRun_fact hs (f := St.pc) (by decide))
    (sampleRun_fact hs (f := St.tmp) (by decide)) (sampleRun_fact hs (f := St.runq) (by decide))
    (by rw [hall]; exact hsaved)
  obtain ⟨u, hu, hcall⟩ := sift_serves (D := .sample) hsift
  have hrun := sampleRun_fact hs (a := some ([2, 0, 1], [4, 2]))
    (f := fun s => (s.step .sample .sift).bind fun u =>
      (exec (serves .sample) (u, ⟨[], []⟩) threeSlices).map fun p =>
        (p.2.slices.map Prod.fst, p.1.sleepq.view SLEEP_RESUME_NOW)) (by decide)
  have hwithin : checkAlong (St.step .sample) (fun s e => decide (Within s e)) u threeSlices :=
    fact_of_map hu (f := fun u =>
      checkAlong (St.step .sample) (fun s e => decide (Within s e)) u threeSlices) (by
      have := sampleRun_fact hs (a := some true) (f := fun s => (s.step .sample .sift).map fun u =>
        checkAlong (St.step .sample) (fun s e => decide (Within s e)) u threeSlices) (by decide)
      exact this)
  rw [hu, Option.bind_some] at hrun
  obtain ⟨p, hp, hf⟩ := Option.map_eq_some_iff.1 hrun
  obtain ⟨hslices, hview⟩ := Prod.mk.inj hf
  exact ⟨s, u, p.1, p.2, hs, hu, hp, hslices, hview,
    hcall _ _ _ (along_of_decide hwithin) hp⟩

end Mnthr
