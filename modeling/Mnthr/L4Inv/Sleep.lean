import Mnthr.L3Micro.Frame
import Mnthr.L4Inv.Threads
import Mathlib.Data.List.TakeWhile

/-!
# The sleep queue and the sift batch

`Sleepq.Ok`: nothing is stored twice in the trie, its buckets and the batch
that the current sift has taken out, and everything in the trie is filed under
its own `expire_ticks`. Filing a context under a new key keeps it
(`Ok.requeue`), provided that the context is not in the batch: `sleepq_remove`
looks in the trie only, so a context of the batch would end up in both.

`SleepInv` carries it through runs, with what it means for the contexts: what
is queued can be resumed, what runs is not queued, and what is free is dead
and free once. `Calm` is the condition on an event.
-/
namespace Mnthr
open St

namespace Sleepq

/-- The contexts a sift has taken out and not resumed: `sleepq_bucket_tmp`,
then the hosts of `runq` with their buckets. -/
def batch (q : Sleepq) (tmp runq : List Ptr) : List Ptr :=
  tmp ++ runq.flatMap fun h => h :: q.bucket h

structure Ok (q : Sleepq) (tmp runq : List Ptr) (key : Ptr → Nat) : Prop where
  nodup : (q.all ++ q.batch tmp runq).Nodup
  filed : ∀ k c, q.At k c → key c = k
  defined : ∀ k c, q.At k c → k ≠ SLEEP_UNDEFINED
  hosted : q.Hosted runq

theorem batch_congr {q q' : Sleepq} {tmp runq : List Ptr}
    (h : ∀ c ∈ runq, q'.bucket c = q.bucket c) : q'.batch tmp runq = q.batch tmp runq := by
  have : (runq.flatMap fun h => h :: q'.bucket h) = runq.flatMap fun h => h :: q.bucket h :=
    List.flatMap_congr fun c hc => by rw [h c hc]
  rw [batch, batch, this]

theorem mem_batch_of_runq {q : Sleepq} {tmp runq : List Ptr} {c : Ptr} (h : c ∈ runq) :
    c ∈ q.batch tmp runq :=
  List.mem_append_right _ (List.mem_flatMap.2 ⟨c, h, List.mem_cons_self ..⟩)

namespace Ok
variable {q : Sleepq} {tmp runq : List Ptr} {key : Ptr → Nat} {c : Ptr}

theorem nodup_all (h : q.Ok tmp runq key) : q.all.Nodup := (List.nodup_append.1 h.nodup).1

theorem notMem_batch (h : q.Ok tmp runq key) (hc : c ∈ q.all) : c ∉ q.batch tmp runq :=
  fun hb => (List.nodup_append.1 h.nodup).2.2 c hc c hb rfl

theorem at_key (h : q.Ok tmp runq key) (hc : c ∈ q.all) :
    q.At (key c) c ∧ key c ≠ SLEEP_UNDEFINED := by
  obtain ⟨k, hk⟩ := mem_all.1 hc
  rw [h.filed k c hk]
  exact ⟨hk, h.defined k c hk⟩

/-- `sleepq_remove` takes `c` out, and out of nothing else. -/
theorem remove (h : q.Ok tmp runq key) (c : Ptr) :
    (q.remove (key c) c).Ok tmp runq key ∧
      (∀ x, x ∈ (q.remove (key c) c).all ↔ x ∈ q.all ∧ x ≠ c) ∧
      (q.remove (key c) c).batch tmp runq = q.batch tmp runq := by
  by_cases hc : c ∈ q.all
  · obtain ⟨hat, hk⟩ := h.at_key hc
    have hb : (q.remove (key c) c).batch tmp runq = q.batch tmp runq :=
      batch_congr fun x hx => remove_bucket h.nodup_all hk hat
        fun hm => h.notMem_batch hm (mem_batch_of_runq hx)
    have hp := remove_perm h.nodup_all hk hat
    refine ⟨⟨?_, ?_, ?_, h.hosted.remove h.nodup_all hk hat⟩,
      fun x => mem_remove h.nodup_all hk hat, hb⟩
    · rw [hb]
      exact (List.nodup_cons.1 ((hp.append_right _).nodup_iff.1 h.nodup)).2
    · exact fun k x hx => h.filed k x (at_remove h.nodup_all hk hat hx)
    · exact fun k x hx => h.defined k x (at_remove h.nodup_all hk hat hx)
  · rw [remove_of_notMem hc]
    refine ⟨h, fun x => ⟨fun hx => ⟨hx, ?_⟩, fun hx => hx.1⟩, rfl⟩
    intro heq
    subst heq
    exact hc hx

/-- A context that is stored nowhere is filed under `d`. -/
theorem enqueue (h : q.Ok tmp runq key) (hc : c ∉ q.all) (hb : c ∉ q.batch tmp runq) (prio : Bool)
    {d : Nat} (hd : d ≠ SLEEP_UNDEFINED) :
    (q.enqueue prio d c).Ok tmp runq (Function.update key c d) ∧
      (∀ x, x ∈ (q.enqueue prio d c).all ↔ x = c ∨ x ∈ q.all) ∧
      (q.enqueue prio d c).batch tmp runq = q.batch tmp runq := by
  have hnil : q.bucket c = [] := h.hosted.bucket_nil hc fun hr => hb (mem_batch_of_runq hr)
  have hbat : (q.enqueue prio d c).batch tmp runq = q.batch tmp runq :=
    batch_congr fun x hx => enqueue_bucket prio
      fun hm => h.notMem_batch hm (mem_batch_of_runq hx)
  refine ⟨⟨?_, ?_, ?_, h.hosted.enqueue prio d c⟩, fun x => mem_enqueue prio h.nodup_all hnil, hbat⟩
  · rw [hbat, ((enqueue_perm prio h.nodup_all hnil).append_right _).nodup_iff]
    refine List.nodup_cons.2 ⟨fun hm => ?_, h.nodup⟩
    rcases List.mem_append.1 hm with hm | hm
    · exact hc hm
    · exact hb hm
  · intro k x hx
    rcases at_enqueue prio h.nodup_all hnil hx with ⟨rfl, rfl⟩ | hat
    · exact Function.update_self ..
    · have hxc : x ≠ c := by intro heq; subst heq; exact hc (mem_all.2 ⟨k, hat⟩)
      rw [Function.update_of_ne hxc]
      exact h.filed k x hat
  · intro k x hx
    rcases at_enqueue prio h.nodup_all hnil hx with ⟨rfl, rfl⟩ | hx
    · exact hd
    · exact h.defined k x hx

/-- Out of its old place, if it has one, and filed under `d`. -/
theorem requeue (h : q.Ok tmp runq key) (hb : c ∉ q.batch tmp runq) (prio : Bool) {d : Nat}
    (hd : d ≠ SLEEP_UNDEFINED) :
    ((q.remove (key c) c).enqueue prio d c).Ok tmp runq (Function.update key c d) ∧
      (∀ x, x ∈ ((q.remove (key c) c).enqueue prio d c).all ↔ x = c ∨ x ∈ q.all) ∧
      ((q.remove (key c) c).enqueue prio d c).batch tmp runq = q.batch tmp runq := by
  obtain ⟨h1, h2, h3⟩ := h.remove c
  obtain ⟨h4, h5, h6⟩ := h1.enqueue (fun hm => ((h2 c).1 hm).2 rfl) (by rwa [h3]) prio hd
  refine ⟨h4, fun x => ?_, h6.trans h3⟩
  rw [h5, h2]
  tauto

/-- Keys of contexts that are not in the trie are free. -/
theorem congr_key (h : q.Ok tmp runq key) {key' : Ptr → Nat} (hk : ∀ c ∈ q.all, key' c = key c) :
    q.Ok tmp runq key' :=
  { h with filed := fun k c hc => by rw [hk c (mem_all.2 ⟨k, hc⟩)]; exact h.filed k c hc }

/-- The batch loses the first context of its current bucket. -/
theorem popTmp {rest : List Ptr} (h : q.Ok (c :: rest) runq key) :
    q.Ok rest runq key ∧ c ∉ q.all := by
  have hn := h.nodup
  rw [show q.batch (c :: rest) runq = c :: q.batch rest runq from rfl, List.nodup_middle,
    List.nodup_cons] at hn
  exact ⟨{ h with nodup := hn.2 }, fun hm => hn.1 (List.mem_append_left _ hm)⟩

/-- The batch loses its first host, whose bucket it goes on with. -/
theorem popRunq {rest : List Ptr} (h : q.Ok [] (c :: rest) key) :
    (q.setBucket c []).Ok (q.bucket c) rest key ∧ (q.setBucket c []).all = q.all ∧
      q.batch [] (c :: rest) = c :: (q.setBucket c []).batch (q.bucket c) rest ∧ c ∉ q.all := by
  have hn := h.nodup
  rw [show q.batch [] (c :: rest) = c :: q.batch (q.bucket c) rest by simp [batch],
    List.nodup_middle, List.nodup_cons] at hn
  have hc : c ∉ q.all := fun hm => hn.1 (List.mem_append_left _ hm)
  have hcr : c ∉ rest := fun hm => hn.1 (List.mem_append_right _ (mem_batch_of_runq hm))
  have hb : (q.setBucket c []).batch (q.bucket c) rest = q.batch (q.bucket c) rest :=
    batch_congr fun x hx => setBucket_of_ne fun e => hcr (e ▸ hx)
  have hhost : ∀ e ∈ q.trie.entries, e.2 ≠ c := fun e he hec => hc (hec ▸ host_mem_flat he)
  have hall : (q.setBucket c []).all = q.all := flat_update_of_notMem hhost
  have hat : ∀ k x, (q.setBucket c []).At k x → q.At k x := by
    intro k x hx
    obtain ⟨y, hy, hx⟩ := hx
    rw [setBucket_of_ne (hhost _ hy)] at hx
    exact ⟨y, hy, hx⟩
  refine ⟨⟨?_, fun k x hx => h.filed k x (hat k x hx), fun k x hx => h.defined k x (hat k x hx),
    ?_⟩, hall, by rw [hb]; simp [batch], hc⟩
  · rw [hall, hb]; exact hn.2
  · intro x hx
    have hxc : x ≠ c := by intro heq; subst heq; simp at hx
    rw [setBucket_of_ne hxc] at hx
    refine (h.hosted x hx).imp id fun hm => ?_
    exact (List.mem_cons.1 hm).resolve_left hxc

/-- The leading hosts that satisfy `p` become the batch, with their buckets. -/
theorem sift (h : q.Ok [] [] key) (p : Ptr → Bool) :
    Ok { q with trie := q.trie.popWhile p } [] (q.trie.front p) key ∧
      q.all = batch { q with trie := q.trie.popWhile p } [] (q.trie.front p) ++
        all { q with trie := q.trie.popWhile p } ∧
      ∀ x ∈ batch { q with trie := q.trie.popWhile p } [] (q.trie.front p),
        ∃ y, p y ∧ key x = key y := by
  have he := q.trie.front_append_popWhile p
  have hbat : batch { q with trie := q.trie.popWhile p } [] (q.trie.front p) =
      flat q.bucket (q.trie.entries.takeWhile fun e => p e.2) := by
    simp [batch, OrdMap.front, flat, List.flatMap_map]
  have hall : q.all = batch { q with trie := q.trie.popWhile p } [] (q.trie.front p) ++
      all { q with trie := q.trie.popWhile p } := by
    rw [hbat, all, all, ← flat_append, ← he]
  have hat : ∀ k x, At { q with trie := q.trie.popWhile p } k x → q.At k x := by
    intro k x hx
    obtain ⟨y, hy, hx⟩ := hx
    exact ⟨y, he ▸ List.mem_append_right _ hy, hx⟩
  refine ⟨⟨?_, fun k x hx => h.filed k x (hat k x hx), fun k x hx => h.defined k x (hat k x hx),
    ?_⟩, hall, ?_⟩
  · have hn := h.nodup
    rw [show q.batch [] [] = [] from rfl, List.append_nil, hall] at hn
    exact List.perm_append_comm.nodup_iff.1 hn
  · intro x hx
    rcases h.hosted x hx with hm | hm
    · rw [hosts, he, List.map_append, List.mem_append] at hm
      exact hm.symm
    · cases hm
  · intro x hx
    rw [hbat, mem_flat] at hx
    obtain ⟨k, y, hy, hx⟩ := hx
    have hin : (k, y) ∈ q.trie.entries := he ▸ List.mem_append_left _ hy
    refine ⟨y, List.mem_takeWhile_imp (p := fun e : Nat × Ptr => p e.2) hy, ?_⟩
    rw [h.filed k x ⟨y, hin, hx⟩, h.filed k y ⟨y, hin, List.mem_cons_self ..⟩]

end Ok
end Sleepq

/-! ## Along runs -/

structure SleepInv (s : St) : Prop where
  queue : s.sleepq.Ok s.tmp s.runq fun c => (s.ctx c).expireTicks
  queueable : ∀ c, c ∈ s.sleepq.all ∨ c ∈ s.pending → (s.ctx c).state.queueable
  running : ∀ c, s.pc.runs = some c → c ∉ s.sleepq.all ∧ c ∉ s.pending
  free : (s.freeList ++ s.gcRest).Nodup
  dead : ∀ c, c ∈ s.freeList ∨ c ∈ s.gcRest → (s.ctx c).f = none

/-- The event sets no context of the current sift batch for resume or
interrupt, computes no deadline that overflows to the undefined one, and when
it is a poller's, it is for a thread that waits for a descriptor. -/
def Calm (s : St) (e : Event) : Prop :=
  (∀ t ∈ s.touched e, t ∉ s.pending) ∧ s.deadlineOf e ≠ some SLEEP_UNDEFINED ∧
    ∀ c ∈ s.polled e, (s.ctx c).state.polling

instance (s : St) (e : Event) : Decidable (Calm s e) := by unfold Calm; infer_instance

theorem polling_resumable {st : CoState} (h : st.polling) : st.resumable := by
  cases st <;> simp_all [CoState.polling, CoState.resumable]

/-- The same for a micro-step. -/
def Act.calm (s : St) : Act → Prop
  | .resume t | .interrupt t | .wake _ t => t ∉ s.pending
  | .sleepYield _ d k _ _ => d ≠ SLEEP_UNDEFINED ∧ k.coState.queueable
  | .enter c true | .discard c true => (s.ctx c).state.polling
  | _ => True

/-- The micro-steps that take contexts into or out of the batch. -/
def Act.batch : Act → Prop
  | .enter .. | .discard .. | .sift => True
  | _ => False

theorem sinv_init (objs : Objs) (now : Nat) : SleepInv (St.init objs now) := by
  refine ⟨⟨?_, ?_, ?_, ?_⟩, ?_, ?_, ?_, ?_⟩
  all_goals simp [St.init, Sleepq.empty, Sleepq.all, Sleepq.flat, Sleepq.At, Sleepq.Hosted,
    Sleepq.batch, OrdMap.empty, Pc.runs, St.pending]

namespace SleepInv
variable {D : Diag} {s s' : St} {c t : Ptr} {q : Waitq}

/-- Queues and lists stay, and so does what is read of the contexts in them. -/
theorem congr (h : SleepInv s) (hq : s'.sleepq = s.sleepq) (ht : s'.tmp = s.tmp)
    (hr : s'.runq = s.runq)
    (hx : ∀ c, c ∈ s.sleepq.all ∨ c ∈ s.pending →
      (s'.ctx c).expireTicks = (s.ctx c).expireTicks ∧ (s'.ctx c).state.queueable)
    (hp : ∀ c, s'.pc.runs = some c → c ∉ s.sleepq.all ∧ c ∉ s.pending)
    (hfree : (s'.freeList ++ s'.gcRest).Nodup)
    (hf : ∀ c, c ∈ s'.freeList ∨ c ∈ s'.gcRest → (s'.ctx c).f = none) :
    SleepInv s' ∧ s'.pending = s.pending := by
  have hpend : s'.pending = s.pending := by rw [pending, pending, hq, ht, hr]
  refine ⟨⟨?_, ?_, ?_, hfree, hf⟩, hpend⟩
  · rw [hq, ht, hr]
    exact h.queue.congr_key fun c hc => (hx c (.inl hc)).1
  · rw [hq, hpend]; exact fun c hc => (hx c hc).2
  · rw [hq, hpend]; exact hp

/-- One context changes that is not queued. -/
theorem setCtx (h : SleepInv s) {x : Ctx} (hc : c ∉ s.sleepq.all ∧ c ∉ s.pending)
    (hf : x.f = none ∨ (s.ctx c).f ≠ none) :
    SleepInv (s.setCtx c x) ∧ (s.setCtx c x).pending = s.pending := by
  refine h.congr rfl rfl rfl (fun t ht => ?_) h.running h.free fun t ht => ?_
  · have htc : t ≠ c := by
      intro heq
      subst heq
      rcases ht with ht | ht
      · exact hc.1 ht
      · exact hc.2 ht
    simpa [St.setCtx, htc] using h.queueable t ht
  · have := h.dead t ht
    by_cases htc : t = c
    · subst htc
      rcases hf with hf | hf
      · simpa [St.setCtx] using hf
      · exact absurd this hf
    · simpa [St.setCtx, htc] using this

theorem resumable (h : SleepInv s) (hc : c ∈ s.sleepq.all ∨ c ∈ s.pending) :
    (s.ctx c).state.resumable := (Bool.and_eq_true_iff.1 (h.queueable c hc)).1

/-- A thread that waits for a descriptor is not queued. -/
theorem polling (h : SleepInv s) (hp : (s.ctx c).state.polling) :
    c ∉ s.sleepq.all ∧ c ∉ s.pending := by
  have hq : ¬ (s.ctx c).state.queueable := by simp [CoState.queueable, hp]
  exact ⟨fun hm => hq (h.queueable c (.inl hm)), fun hm => hq (h.queueable c (.inr hm))⟩

/-- A new thread is in a context without one. -/
theorem created {u : St} (h : SleepInv s) (hI : Inv s) (hm : Micro D (.create c) s u) :
    (s.ctx c).f = none ∧ (s.ctx c).state = .dormant := by
  have hf : (s.ctx c).f = none := by
    cases hm with
    | createFree hc => exact h.dead c (.inl (List.mem_of_find?_eq_some hc))
    | createNew => exact hI.fresh _ (Nat.le_refl _)
  refine ⟨hf, ?_⟩
  by_contra hd
  exact hI.live c hd hf

/-- Dormant contexts are not queued. -/
theorem dormant (hI : Inv s) (h : SleepInv s) (hf : (s.ctx c).f = none ∨ (s.ctx c).state = .dormant) :
    c ∉ s.sleepq.all ∧ c ∉ s.pending := by
  have hd : (s.ctx c).state = .dormant := by
    rcases hf with hf | hf
    · by_contra hd; exact hI.live c hd hf
    · exact hf
  constructor <;> intro hm
  · have := h.queueable c (.inl hm); rw [hd] at this; cases this
  · have := h.queueable c (.inr hm); rw [hd] at this; cases this

/-- `c` is filed under `d`, from wherever it was in the trie. -/
theorem requeue (h : SleepInv s) (hc : c ∉ s.pending) {d : Nat} (hd : d ≠ SLEEP_UNDEFINED)
    {x : Ctx} (hx : x.expireTicks = d) (hst : x.state.queueable) (hf : x.f = (s.ctx c).f)
    (prio : Bool) (hctx : s'.ctx = Function.update s.ctx c x)
    (hq : s'.sleepq = (s.sleepq.remove (s.ctx c).expireTicks c).enqueue prio d c)
    (ht : s'.tmp = s.tmp) (hr : s'.runq = s.runq) (hfl : s'.freeList = s.freeList)
    (hg : s'.gcRest = s.gcRest) (hp : ∀ t, s'.pc.runs = some t → s.pc.runs = some t ∧ t ≠ c) :
    SleepInv s' ∧ s'.pending = s.pending := by
  obtain ⟨h1, h2, h3⟩ := h.queue.requeue hc prio hd
  have hpend : s'.pending = s.pending := by
    rw [show s'.pending = s'.sleepq.batch s'.tmp s'.runq from rfl, hq, ht, hr]; exact h3
  have hkey : (fun t => (s'.ctx t).expireTicks) =
      Function.update (fun t => (s.ctx t).expireTicks) c d := by
    funext t
    by_cases htc : t = c
    · subst htc; simp [hctx, hx]
    · simp [hctx, htc]
  refine ⟨⟨?_, ?_, ?_, ?_, ?_⟩, hpend⟩
  · rw [hq, ht, hr, hkey]; exact h1
  · intro t htm
    by_cases htc : t = c
    · subst htc; rw [hctx, Function.update_self]; exact hst
    · rw [hctx, Function.update_of_ne htc]
      refine h.queueable t ?_
      rw [hq, hpend, h2] at htm
      tauto
  · intro t htr
    obtain ⟨h4, h5⟩ := hp t htr
    rw [hq, hpend, h2]
    have := h.running t h4
    tauto
  · rw [hfl, hg]; exact h.free
  · intro t htm
    rw [hfl, hg] at htm
    by_cases htc : t = c
    · subst htc; rw [hctx, Function.update_self, hf]; exact h.dead t htm
    · rw [hctx, Function.update_of_ne htc]; exact h.dead t htm

/-- A context outside the batch is set for resume or interrupt. -/
theorem queueNow (h : SleepInv s) (hc : c ∉ s.pending) (hrun : s.pc.runs ≠ some c) {v : Int}
    {st : CoState} (hst : st.queueable) :
    SleepInv (s.queueNow c { s.ctx c with rc := v, state := st }) ∧
      (s.queueNow c { s.ctx c with rc := v, state := st }).pending = s.pending := by
  refine h.requeue (d := SLEEP_RESUME_NOW)
    (x := { s.ctx c with rc := v, state := st, expireTicks := SLEEP_RESUME_NOW }) hc (by decide)
    rfl hst rfl (s.ctx c).prio rfl ?_ rfl rfl rfl rfl ?_
  · simp [St.queueNow, sleepqEnqueue, sleepqRemove, St.setCtx]
  · intro t ht
    exact ⟨ht, fun e => hrun (e ▸ ht)⟩

/-- The batch loses its next context, and nothing else moves. -/
theorem popped {s1 : St} (h : SleepInv s) (hp : Picked s c false s1) :
    s1.sleepq.Ok s1.tmp s1.runq (fun t => (s1.ctx t).expireTicks) ∧
      s1.sleepq.all = s.sleepq.all ∧ s.pending = c :: s1.pending ∧ c ∉ s.sleepq.all := by
  have hq := h.queue
  have hkey : c ∉ s.sleepq.all → ∀ t ∈ s.sleepq.all, ((Function.update s.ctx c
      { s.ctx c with expireTicks := SLEEP_UNDEFINED }) t).expireTicks = (s.ctx t).expireTicks := by
    intro hc t ht
    have htc : t ≠ c := by intro heq; subst heq; exact hc ht
    rw [Function.update_of_ne htc]
  cases hp with
  | tmp hc ht =>
    rw [ht] at hq
    obtain ⟨h1, h2⟩ := hq.popTmp
    exact ⟨h1.congr_key (hkey h2), rfl, by simp [St.pending, popTmp, clearExpire, St.setCtx, ht], h2⟩
  | runq hc ht hr =>
    rw [ht, hr] at hq
    obtain ⟨h1, h2, h3, h4⟩ := hq.popRunq
    refine ⟨h1.congr_key fun t htm => hkey h4 t (h2 ▸ htm), h2, ?_, h4⟩
    rw [show s.pending = s.sleepq.batch s.tmp s.runq from rfl, ht, hr, h3]
    rfl

/-- What the batch or a calm poller resumes is resumable. -/
theorem not_discard {s1 : St} {poll : Bool} (h : SleepInv s) (ha : Act.calm s (.discard c poll))
    (hp : Picked s c poll s1) (hst : (s.ctx c).state.resumable = false) : False := by
  have hr : (s.ctx c).state.resumable := by
    cases poll with
    | true => exact polling_resumable ha
    | false =>
      obtain ⟨-, -, h3, -⟩ := h.popped hp
      exact h.resumable (.inr (by rw [h3]; exact List.mem_cons_self ..))
  rw [hst] at hr
  cases hr

/-- A context leaves the batch and is switched to. -/
theorem enter {s1 : St} (h : SleepInv s) (hp : Picked s c false s1)
    (hs : s1.enter c = some s') : SleepInv s' := by
  obtain ⟨h1, h2, h3, h4⟩ := h.popped hp
  have hn := h.queue.nodup
  rw [show s.sleepq.batch s.tmp s.runq = s.pending from rfl, h3, List.nodup_middle,
    List.nodup_cons, List.mem_append, not_or] at hn
  have hctx : ∀ t, t ≠ c → s1.ctx t = s.ctx t := by
    intro t htc
    cases hp <;> simp [popTmp, popRunq, clearExpire, St.setCtx, htc]
  have hf : (s1.ctx c).f = (s.ctx c).f := by
    cases hp <;> simp [popTmp, popRunq, clearExpire, St.setCtx]
  have hlist : s1.freeList = s.freeList ∧ s1.gcRest = s.gcRest := by cases hp <;> exact ⟨rfl, rfl⟩
  obtain ⟨x, hctx', hx, hq', ht', hr', hf', hg', hp'⟩ : ∃ x : Ctx,
      s'.ctx = Function.update s1.ctx c x ∧ x.f = (s.ctx c).f ∧ s'.sleepq = s1.sleepq ∧ s'.tmp = s1.tmp ∧
      s'.runq = s1.runq ∧ s'.freeList = s1.freeList ∧ s'.gcRest = s1.gcRest ∧
      s'.pc.runs = some c := by
    rcases enter_cases hs with ⟨-, rfl⟩ | ⟨-, -, rfl⟩
    · exact ⟨_, rfl, hf, rfl, rfl, rfl, rfl, rfl, rfl⟩
    · exact ⟨_, rfl, hf, rfl, rfl, rfl, rfl, rfl, rfl⟩
  have hpend : s'.pending = s1.pending := by rw [St.pending, St.pending, hq', ht', hr']
  refine ⟨?_, ?_, ?_, ?_, ?_⟩
  · rw [hq', ht', hr']
    refine h1.congr_key fun t ht => ?_
    have htc : t ≠ c := by intro heq; subst heq; exact h4 (h2 ▸ ht)
    rw [hctx', Function.update_of_ne htc]
  · intro t ht
    rw [hq', hpend, h2] at ht
    have htc : t ≠ c := by intro heq; subst heq; tauto
    rw [hctx', Function.update_of_ne htc, hctx t htc]
    refine h.queueable t (ht.imp id fun hm => ?_)
    rw [h3]; exact List.mem_cons_of_mem _ hm
  · intro t ht
    rw [hp'] at ht
    cases ht
    rw [hq', hpend, h2]
    exact hn.1
  · rw [hf', hg', hlist.1, hlist.2]; exact h.free
  · intro t ht
    rw [hf', hg', hlist.1, hlist.2] at ht
    by_cases htc : t = c
    · subst htc; rw [hctx', Function.update_self, hx]; exact h.dead t ht
    · rw [hctx', Function.update_of_ne htc, hctx t htc]; exact h.dead t ht

/-- A thread that waits for a descriptor is switched to. -/
theorem enterPolled {s1 : St} (h : SleepInv s) (hpoll : (s.ctx c).state.polling)
    (hp : Picked s c true s1) (hs : s1.enter c = some s') : SleepInv s' := by
  have hout := h.polling hpoll
  cases hp with
  | poll hc hf =>
    rcases enter_cases hs with ⟨-, rfl⟩ | ⟨-, -, rfl⟩
    all_goals
      obtain ⟨h1, h2⟩ := h.setCtx (c := c) hout (.inr hf)
      refine { h1 with running := fun t ht => ?_ }
      cases ht
      exact hout

theorem sift (h : SleepInv s) (hs : s.sift = some s') : SleepInv s' := by
  obtain ⟨hpc, hr, ht, rfl⟩ := sift_cases hs
  have hq := h.queue
  rw [ht, hr] at hq
  obtain ⟨h1, h2, -⟩ := hq.sift fun t => decide ((s.ctx t).expireTicks < s.now)
  refine ⟨?_, ?_, ?_, h.free, h.dead⟩
  · simp only [ht]; exact h1
  · intro t htm
    refine h.queueable t (.inl ?_)
    rw [h2, List.mem_append]
    simpa only [St.pending, ht, Sleepq.batch, or_comm] using htm
  · intro t htr
    rw [show Pc.runs s.pc = none by rw [hpc]; rfl] at htr
    cases htr

end SleepInv

/-- Every micro-step that meets the condition keeps `SleepInv`, and the batch
unless it is about the batch. -/
theorem sinv_micro {D : Diag} {a : Act} {s s' : St} (hI : Inv s) (h : SleepInv s)
    (ha : a.calm s) (hm : Micro D a s s') : SleepInv s' ∧ (¬ a.batch → s'.pending = s.pending) := by
  have hrun : ∀ c, s.me ≠ some c → s.pc.runs ≠ some c := fun c hne hr => hne (hI.me c hr)
  -- what a change that leaves the queues alone keeps
  have keep : ∀ {u : St}, SleepInv u ∧ u.pending = s.pending →
      SleepInv u ∧ (¬ a.batch → u.pending = s.pending) := fun hu => ⟨hu.1, fun _ => hu.2⟩
  have same : ∀ c, c ∈ s.sleepq.all ∨ c ∈ s.pending →
      (s.ctx c).expireTicks = (s.ctx c).expireTicks ∧ (s.ctx c).state.queueable :=
    fun c hc => ⟨rfl, h.queueable c hc⟩
  cases hm with
  | env | append | unlink => exact keep (h.congr rfl rfl rfl same h.running h.free h.dead)
  | attr c | rc c =>
    refine keep (h.congr rfl rfl rfl (fun t ht => ?_) h.running h.free fun t ht => ?_)
    · have := h.queueable t ht
      by_cases htc : t = c
      · subst htc; simpa [setCtx] using this
      · simpa [setCtx, htc] using this
    · have := h.dead t ht
      by_cases htc : t = c
      · subst htc; simpa [setCtx] using this
      · simpa [setCtx, htc] using this
  | @enterLib _ c st hpc hst =>
    have hr : s.pc.runs = some c := by rcases hpc with h | ⟨k, h, -⟩ <;> rw [h] <;> rfl
    have hf : (s.ctx c).f ≠ none := hI.live c (hI.run c hr)
    obtain ⟨h1, h2⟩ := h.setCtx (x := { s.ctx c with state := st }) (h.running c hr) (.inr hf)
    refine keep ⟨{ h1 with running := fun t ht => ?_ }, h2⟩
    cases ht
    rw [show (s.inLib c st).pending = s.pending from h2]
    exact h.running c hr
  | @expire _ c hpc d =>
    have hr : s.pc.runs = some c := by rw [hpc]; rfl
    exact keep (h.setCtx (h.running c hr) (.inr (hI.live c (hI.run c hr))))
  | @yield _ c k hpc hk ht eintr =>
    have hr : s.pc.runs = some c := by rw [hpc]; rfl
    obtain ⟨h1, h2⟩ := h.setCtx (x := { s.ctx c with uc := k }) (h.running c hr)
      (.inr (hI.live c (hI.run c hr)))
    exact keep ⟨{ h1 with running := fun t ht => by cases ht }, h2⟩
  | @sleepYield _ c k dormant hpc hk ht d eintr =>
    have hr : s.pc.runs = some c := by rw [hpc]; rfl
    refine keep (h.requeue (d := d) (x := { s.ctx c with expireTicks := d, uc := k })
      (h.running c hr).2 ha.1 rfl ?_ rfl (s.ctx c).prio ?_ rfl rfl rfl rfl rfl fun t ht => by cases ht)
    · show (s.ctx c).state.queueable
      rw [hk.state]; exact ha.2
    · simp [St.parked, St.asleep, St.setCtx]
  | @removeMe _ c x n k hpc ht hx =>
    have hr : s.pc.runs = some c := by rw [hpc]; rfl
    refine keep (h.congr rfl rfl rfl same (fun t ht => ?_) h.free h.dead)
    cases ht
    exact h.running c hr
  | @complete _ c k v sq o hpc ht hq hv =>
    have hr : s.pc.runs = some c := by rw [hpc]; rfl
    have hsq : sq = s.sleepq := by
      rcases hq with hq | hq
      · exact hq
      · rw [hq, Sleepq.remove_of_notMem (h.running c hr).1]
    refine keep (h.congr hsq rfl rfl same (fun t ht => ?_) h.free h.dead)
    cases ht
    exact h.running c hr
  | resume hne hf hst => exact keep (h.queueNow ha (hrun _ hne) rfl)
  | @resumeFast _ c hpc hf hst =>
    -- not queued, so it is inserted
    obtain ⟨hall, hpend⟩ := h.polling (c := c) (by rw [hst]; rfl)
    refine keep (h.requeue (d := SLEEP_RESUME_NOW)
      (x := { s.ctx c with state := .setResume, expireTicks := SLEEP_RESUME_NOW }) hpend (by decide)
      rfl rfl rfl true rfl ?_ rfl rfl rfl rfl fun t ht => ?_)
    · rw [Sleepq.remove_of_notMem hall]
      exact Sleepq.insertOnce_of_notMem hall
    · replace ht : s.pc.runs = some t := ht
      rw [hpc] at ht
      cases ht
  | interrupt hne hf => exact keep (h.queueNow ha (hrun _ hne) rfl)
  | @wake _ q t rest hq hne hx =>
    obtain ⟨h1, h2⟩ : SleepInv (s.dequeue q t rest) ∧ (s.dequeue q t rest).pending = s.pending :=
      h.congr rfl rfl rfl same h.running h.free h.dead
    unfold woken
    split
    · exact keep ⟨h1, h2⟩
    · exact keep (h1.queueNow ha (hrun _ hne) rfl)
  | @createFree _ c hc hid f n =>
    have hmem : c ∈ s.freeList := List.mem_of_find?_eq_some hc
    have hout := h.dormant hI (.inl (h.dead c (.inl hmem)))
    have hfree := h.free
    have hne : ∀ t, t ∈ s.freeList.erase c ∨ t ∈ s.gcRest → t ≠ c := by
      intro t ht heq
      subst heq
      rcases ht with ht | ht
      · exact (List.nodup_append.1 hfree).1.not_mem_erase ht
      · exact (List.nodup_append.1 hfree).2.2 t hmem t ht rfl
    refine keep (h.congr rfl rfl rfl (fun t ht => ?_) h.running ?_ fun t ht => ?_)
    · have htc : t ≠ c := by intro heq; subst heq; tauto
      simpa [setCtx, htc] using h.queueable t ht
    · exact hfree.sublist ((List.erase_sublist ..).append_right _)
    · simpa [setCtx, hne t ht] using h.dead t (ht.imp List.mem_of_mem_erase id)
  | createNew f n =>
    have hout := h.dormant hI (.inl (hI.fresh s.brk (Nat.le_refl _)))
    refine keep (h.congr rfl rfl rfl (fun t ht => ?_) h.running h.free fun t ht => ?_)
    · have htc : t ≠ s.brk := by intro heq; subst heq; tauto
      simpa [setCtx, htc] using h.queueable t ht
    · have htc : t ≠ s.brk := Nat.ne_of_lt (hI.free t ht)
      simpa [setCtx, htc] using h.dead t ht
  | @die _ c hpc hst =>
    have hr : s.pc.runs = some c := by rw [hpc]; rfl
    have hout := h.running c hr
    have hcf : ¬ (c ∈ s.freeList ∨ c ∈ s.gcRest) := fun hm =>
      hI.live c (by simp [hst]) (h.dead c hm)
    obtain ⟨h1, h2⟩ := h.setCtx (x := (s.ctx c).cleared) hout (.inl rfl)
    refine keep (h1.congr (Sleepq.remove_of_notMem hout.1) rfl rfl
      (fun t ht => ⟨rfl, h1.queueable t ht⟩) (fun t ht => by cases ht) ?_ fun t ht => ?_)
    · show (s.freeList ++ [c] ++ s.gcRest).Nodup
      rw [List.append_assoc, List.singleton_append, List.nodup_middle, List.nodup_cons,
        List.mem_append]
      exact ⟨hcf, h.free⟩
    · by_cases htc : t = c
      · subst htc; simp [buried, setCtx, Ctx.cleared]
      · refine h1.dead t ?_
        simp only [buried, List.mem_append, List.mem_singleton] at ht
        tauto
  | quit hpc =>
    exact keep (h.congr rfl rfl rfl same (fun t ht => by cases ht) h.free h.dead)
  | discard hpc hp hst => exact (h.not_discard ha hp hst).elim
  | @release _ c hl hr =>
    have hf : (s.ctx c).f = none := h.dead c (hl.imp id And.left)
    exact keep (h.setCtx (h.dormant hI (.inl hf)) (.inl rfl))
  | @drop _ c hr hf =>
    obtain ⟨h1, h2⟩ := h.setCtx (x := { s.ctx c with rc := 0 }) (h.dormant hI (.inl hf)) (.inl hf)
    exact keep ⟨{ h1 with }, h2⟩
  | @gcList _ l1 l2 hl hs =>
    refine keep (h.congr rfl rfl rfl same h.running (hI.nodup.sublist hs) fun t ht => ?_)
    exact h.dead t ((hl t (List.mem_append.2 ht)).imp id And.left)
  | @enter _ s1 s' c poll hpc hp hst hs =>
    cases poll with
    | true => exact ⟨h.enterPolled ha hp hs, fun hn => absurd trivial hn⟩
    | false => exact ⟨h.enter hp hs, fun hn => absurd trivial hn⟩
  | sift hs => exact ⟨h.sift hs, fun hn => absurd trivial hn⟩

/-! ## Who is queued -/

/-- `t` is in the sleep queue or in the batch. -/
def St.filed (s : St) (t : Ptr) : Prop := t ∈ s.sleepq.all ∨ t ∈ s.pending

section
variable {D : Diag} {a : Act} {s s' : St} {c t : Ptr}

theorem SleepInv.filed_requeue (h : SleepInv s) (hc : c ∉ s.pending) {d : Nat}
    (hd : d ≠ SLEEP_UNDEFINED) (prio : Bool)
    (hq : s'.sleepq = (s.sleepq.remove (s.ctx c).expireTicks c).enqueue prio d c)
    (ht : s'.tmp = s.tmp) (hr : s'.runq = s.runq) : s'.filed t ↔ t = c ∨ s.filed t := by
  obtain ⟨-, h2, h3⟩ := h.queue.requeue hc prio hd
  have hpend : s'.pending = s.pending := by
    rw [show s'.pending = s'.sleepq.batch s'.tmp s'.runq from rfl, hq, ht, hr]; exact h3
  rw [St.filed, St.filed, hpend, hq, h2, or_assoc]

theorem SleepInv.filed_queueNow (h : SleepInv s) (hc : c ∉ s.pending) (x : Ctx) :
    (s.queueNow c x).filed t ↔ t = c ∨ s.filed t := by
  refine h.filed_requeue hc (d := SLEEP_RESUME_NOW) (by decide) x.prio ?_ rfl rfl
  simp [St.queueNow, sleepqEnqueue, sleepqRemove, St.setCtx]

/-- A context enters the sleep queue when it is put there, and leaves it when
it is switched to. -/
structure Filing (a : Act) (t : Ptr) (s s' : St) : Prop where
  came : s'.filed t → s.filed t ∨ a.files = some t
  put : a.files = some t → (s.ctx t).f ≠ none → s'.filed t
  left : s.filed t → s'.filed t ∨ ∃ poll, a = .enter t poll

theorem filed_micro (h : SleepInv s) (ha : a.calm s) (hm : Micro D a s s') :
    Filing a t s s' := by
  have same : (a.files = some t → (s.ctx t).f = none) → s'.sleepq = s.sleepq → s'.tmp = s.tmp →
      s'.runq = s.runq → Filing a t s s' := by
    intro hn h1 h2 h3
    have : s'.filed t ↔ s.filed t := by rw [St.filed, St.filed, St.pending, St.pending, h1, h2, h3]
    exact ⟨fun ht => .inl (this.1 ht), fun hf ht => absurd (hn hf) ht, fun ht => .inl (this.2 ht)⟩
  have put : ∀ {c}, a.files = some c → (s'.filed t ↔ t = c ∨ s.filed t) → Filing a t s s' := by
    intro c hc hiff
    refine ⟨fun ht => ?_, fun hf _ => hiff.2 (.inl ?_), fun ht => .inl (hiff.2 (.inr ht))⟩
    · rcases hiff.1 ht with rfl | ht
      · exact .inr hc
      · exact .inl ht
    · exact Option.some.inj (hf.symm.trans hc)
  cases hm with
  | @sleepYield _ c _ _ hpc =>
    exact put rfl (h.filed_requeue (h.running c (by rw [hpc]; rfl)).2 ha.1 (s.ctx c).prio
      rfl rfl rfl)
  | @complete _ c k v sq o hpc ht hq =>
    refine same (by simp [Act.files]) ?_ rfl rfl
    rcases hq with hq | hq
    · exact hq
    · exact hq.trans (Sleepq.remove_of_notMem (h.running c (by rw [hpc]; rfl)).1)
  | resume => exact put rfl (h.filed_queueNow ha _)
  | interrupt => exact put rfl (h.filed_queueNow ha _)
  | @resumeFast _ c hpc hf hst =>
    obtain ⟨hall, hpend⟩ := h.polling (c := c) (by rw [hst]; rfl)
    refine put rfl (h.filed_requeue hpend (d := SLEEP_RESUME_NOW) (by decide) true ?_
      rfl rfl)
    rw [Sleepq.remove_of_notMem hall]
    exact Sleepq.insertOnce_of_notMem hall
  | @wake _ q c rest hq hne hx =>
    by_cases hf : (s.ctx c).f = none
    · unfold woken at same ⊢
      rw [if_pos hf] at same ⊢
      exact same (fun hc => Option.some.inj hc ▸ hf) rfl rfl rfl
    · unfold woken at put ⊢
      rw [if_neg hf] at put ⊢
      have h1 : SleepInv (s.dequeue q c rest) := { h with }
      exact put rfl (h1.filed_queueNow ha _)
  | @die _ c hpc =>
    exact same (by simp [Act.files]) (Sleepq.remove_of_notMem (h.running c (by rw [hpc]; rfl)).1) rfl rfl
  | discard hpc hp hst => exact (h.not_discard ha hp hst).elim
  | @enter _ s1 s' c poll hpc hp hst hs =>
    obtain ⟨hq, ht, hr⟩ : s'.sleepq = s1.sleepq ∧ s'.tmp = s1.tmp ∧ s'.runq = s1.runq := by
      rcases enter_cases hs with ⟨-, rfl⟩ | ⟨-, -, rfl⟩ <;> exact ⟨rfl, rfl, rfl⟩
    have h1 : s'.filed t ↔ s1.filed t := by
      rw [St.filed, St.filed, St.pending, St.pending, hq, ht, hr]
    cases poll with
    | true =>
      cases hp
      exact ⟨fun ht => .inl (h1.1 ht), by simp [Act.files], fun ht => .inl (h1.2 ht)⟩
    | false =>
      obtain ⟨-, h2, h3, -⟩ := h.popped hp
      have h4 : s.filed t ↔ t ∈ s1.sleepq.all ∨ t = c ∨ t ∈ s1.pending := by
        rw [St.filed, h2, h3, List.mem_cons]
      refine ⟨fun ht => .inl (h4.2 ((h1.1 ht).imp id .inr)), by simp [Act.files], fun ht => ?_⟩
      rw [h1]
      rcases h4.1 ht with ht | rfl | ht
      · exact .inl (.inl ht)
      · exact .inr ⟨false, rfl⟩
      · exact .inl (.inr ht)
  | sift hs =>
    obtain ⟨hpc, hr, ht, rfl⟩ := sift_cases hs
    have hq := h.queue
    rw [ht, hr] at hq
    obtain ⟨-, h2, -⟩ := hq.sift fun t => decide ((s.ctx t).expireTicks < s.now)
    have h0 : s.pending = [] := by rw [St.pending, ht, hr]; rfl
    refine ⟨fun hf => ?_, by simp [Act.files], fun hf => ?_⟩
    · refine .inl (.inl ?_)
      rw [h2, List.mem_append]
      simpa only [St.filed, St.pending, ht, Sleepq.batch, or_comm] using hf
    · rw [St.filed, h0, h2, List.mem_append] at hf
      refine .inl ?_
      simp only [List.not_mem_nil, or_false] at hf
      simpa only [St.filed, St.pending, ht, Sleepq.batch, or_comm] using hf
  | _ => exact same (by simp [Act.files]) rfl rfl rfl

/-- What is put in the sleep queue is not in the batch. -/
theorem SleepInv.files_notPending (h : SleepInv s) (ha : a.calm s) (hm : Micro D a s s')
    (hf : a.files = some t) : t ∉ s.pending := by
  cases hm with
  | sleepYield hpc => cases hf; exact (h.running t (by rw [hpc]; rfl)).2
  | resume | interrupt | wake => cases hf; exact ha
  | resumeFast hpc hf' hst => cases hf; exact (h.polling (by rw [hst]; rfl)).2
  | _ => cases hf

end

/-! ## Events -/

theorem mem_pending_of_nextPick {s : St} {c : Ptr} (h : s.nextPick = some c) : c ∈ s.pending := by
  have hm : c ∈ s.tmp ++ s.runq := List.mem_of_mem_head? h
  rcases List.mem_append.1 hm with hm | hm
  · exact List.mem_append_left _ hm
  · exact Sleepq.mem_batch_of_runq hm

/-- The sift resumes what it took out, so it wakes nobody's joiners. -/
theorem SleepInv.touched_next {s : St} (h : SleepInv s) : s.touched .next = [] := by
  have : s.wakes .next = [] := by
    cases hp : s.nextPick with
    | none => simp [wakes, hp]
    | some c => simp [wakes, hp, h.resumable (.inr (mem_pending_of_nextPick hp))]
  simp [touched, starts, interrupts, this]

/-- What stays true of `Calm` within the event. -/
structure CalmAt (s : St) (e : Event) (u : St) : Prop where
  touched : ∀ t ∈ s.touched e, t ∉ u.pending
  polled : ∀ c ∈ s.polled e, u.pc = .sched → (u.ctx c).state.polling

section
variable {D : Diag} {a : Act} {e : Event} {s u v : St}

/-- An event that sends a thread to sleep does so in a state of its own. -/
theorem queueable_of_suspends {k : Call} {d : Nat} (hk : s.suspends e = some k)
    (hd : s.deadlineOf e = some d) : k.coState.queueable := by
  unfold deadlineOf at hd
  unfold suspends at hk
  split at hd <;> simp only [reduceCtorEq, Option.some.injEq] at hk hd
  all_goals first
    | (subst hk; rfl)
    | (split at hk <;> cases hk; rfl)

theorem CalmAt.calm (hc : Calm s e) (h : CalmAt s e u) (ha : May s e a) (hm : Micro D a u v) :
    a.calm u := by
  cases a with
  | resume t => exact h.touched t (List.mem_append_left _ (List.mem_append_left _ ha))
  | interrupt t => exact h.touched t (List.mem_append_left _ (List.mem_append_right _ ha))
  | wake q t => exact h.touched t (List.mem_append_right _ (List.mem_map.2 ⟨(q, t), ha, rfl⟩))
  | sleepYield c d k b dormant =>
    obtain ⟨-, hk, hd, -⟩ := ha
    refine ⟨?_, queueable_of_suspends hk hd⟩
    intro heq
    subst heq
    exact hc.2.1 hd
  | enter c poll | discard c poll =>
    cases poll with
    | false => trivial
    | true =>
      obtain ⟨rc, rfl, hf⟩ := ha
      refine h.polled c (by simp [St.polled, hf]) ?_
      cases hm; assumption
  | _ => trivial

/-- A thread that a poller is about to resume waits for its descriptor until
it is switched to. -/
theorem polled_micro {c : Ptr} (hp : (s.ctx c).state.polling) (hc : c ∈ s.polled e)
    (ha : May s e a) (hm : Micro D a u v) (hu : u.pc = .sched → (u.ctx c).state.polling) :
    v.pc = .sched → (v.ctx c).state.polling := by
  obtain ⟨rc, rfl⟩ : ∃ rc, e = .pollResume c rc := by
    unfold polled at hc
    split at hc
    · split at hc
      · cases hc
      · cases hc; exact ⟨_, rfl⟩
    · cases hc
  intro hv
  cases hm with
  | env | append | unlink => exact hu hv
  | attr x | rc x =>
    have := hu hv
    by_cases hcx : c = x
    · subst hcx; simpa [setCtx] using this
    · simpa [setCtx, hcx] using this
  | enterLib | removeMe | complete => cases hv
  | expire => obtain ⟨_, _, _, h⟩ := ha; cases h
  | yield | sleepYield => cases ha.2.1
  | resume | interrupt | resumeFast | createFree | createNew | gcList | sift => cases ha
  | wake => simp [May, wakes, polling_resumable hp] at ha
  | die | quit | release | drop => cases ha.1
  | @discard _ s1 x poll hpc hpk hst =>
    cases poll with
    | false => cases ha.1
    | true =>
      obtain ⟨_, h, -⟩ := ha
      cases h
      have := polling_resumable (hu hpc)
      rw [hst] at this
      cases this
  | enter hpc hpk hst hs => rcases enter_cases hs with ⟨-, rfl⟩ | ⟨-, -, rfl⟩ <;> cases hv

/-- The part of the event that takes contexts into or out of the batch touches
nobody. -/
theorem SleepInv.touched_batch (h : SleepInv s) (hc : Calm s e) (ha : May s e a) (hb : a.batch) :
    s.touched e = [] := by
  cases a with
  | enter c poll | discard c poll =>
    cases poll with
    | false => obtain ⟨rfl, -⟩ := ha; exact h.touched_next
    | true =>
      obtain ⟨rc, rfl, hf⟩ := ha
      have := polling_resumable (hc.2.2 c (by simp [polled, hf]))
      simp [touched, starts, interrupts, wakes, this]
  | sift => cases ha; rfl
  | _ => exact absurd hb id

/-- Invariant rule for the micro-steps of a calm event: `SleepInv` holds
throughout. -/
theorem calm_chain {I : St → Prop} {s' : St} (hI : Inv s) (h : SleepInv s) (hc : Calm s e)
    (hs : s.step D e = some s') (hbegin : ∀ s1, Begin D s e s1 → I s1)
    (hstep : ∀ a u v, May s e a → Micro D a u v → a.calm u → Inv u → SleepInv u → I u → I v) :
    SleepInv s' ∧ I s' := by
  obtain ⟨s1, hb, hch⟩ := step_micro hI.base hs
  have h1 : SleepInv s1 ∧ CalmAt s e s1 := by
    cases hb with
    | same => exact ⟨h, hc.1, fun c hp _ => hc.2.2 c hp⟩
    | @create x _ hcr hm =>
      obtain ⟨h2, h3⟩ := sinv_micro (a := .create _) hI h trivial hm
      refine ⟨h2, fun t ht => by rw [h3 id]; exact hc.1 t ht, fun c hp => ?_⟩
      unfold polled at hp
      split at hp
      · cases hcr
      · cases hp
  refine (hch.inv (I := fun u => Inv u ∧ (SleepInv u ∧ CalmAt s e u) ∧ I u) ?_
    ⟨inv_begin hI hb, h1, hbegin s1 hb⟩).2.imp And.left id
  intro a u v ha hm hx
  obtain ⟨hIu, ⟨hu, hat⟩, hi⟩ := hx
  have hcalm := hat.calm hc ha hm
  obtain ⟨h2, h3⟩ := sinv_micro hIu hu hcalm hm
  refine ⟨inv_micro hIu hm, ⟨h2, ?_, fun c hp => polled_micro (hc.2.2 c hp) hp ha hm (hat.polled c hp)⟩,
    hstep a u v ha hm hcalm hIu hu hi⟩
  intro t ht
  by_cases hab : a.batch
  · rw [h.touched_batch hc ha hab] at ht; cases ht
  · rw [h3 hab]; exact hat.touched t ht

theorem sinv_step {s' : St} (hI : Inv s) (h : SleepInv s) (hc : Calm s e)
    (hs : s.step D e = some s') : SleepInv s' :=
  (calm_chain (I := fun _ => True) hI h hc hs (fun _ _ => trivial)
    fun _ _ _ _ _ _ _ _ _ => trivial).1

end

end Mnthr
