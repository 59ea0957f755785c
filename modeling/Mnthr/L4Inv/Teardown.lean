import Mnthr.L3Micro.Teardown
import Mnthr.L4Inv.Line
import Mnthr.L4Inv.Multimap

/-!
# The memory under `mnthr_fini`

`Heap.Stands h s`: the memory `h` is laid out as the lists of `s` say.
-/
namespace Mnthr
open St

namespace Sleepq

/-- Whom `sleepq_remove` of `c` meets under key `k`. -/
def meets (q : Sleepq) (k : Nat) (c : Ptr) : List Ptr :=
  match q.view k with
  | [] => []
  | h :: l => if h = c then l.take 2 else h :: Dtqueue.besides c l

end Sleepq

/-- Whom a context meets that is enqueued under the key of a list: the host, and
the end of the bucket at which it goes in. -/
def atDoor (prio : Bool) : List Ptr → List Ptr
  | [] => []
  | h :: l => h :: (if prio then l.head? else l.getLast?).toList

namespace SleepqMem

/-- The memory stands for the queue, and who is in no bucket has no links. -/
structure Exact (m : SleepqMem) (q : Sleepq) : Prop extends m.Holds q where
  free : ∀ c, (∀ a, c ∉ q.bucket a) → m.link.Free c

section
variable {m : SleepqMem} {q : Sleepq} {c host x : Ptr} {key : Ptr → Nat} {l : List Ptr}

theorem Exact.enqueueTail (h : m.Exact q) (hn : q.all.Nodup) (hh : q.Hosted []) (hc : c ∉ q.all) :
    (m.enqueueTail host c).1.Exact (q.setBucket host (q.bucket host ++ [c])) := by
  refine ⟨h.toHolds.enqueueTail hn hh hc, fun x hx => ?_⟩
  have hhost := hx host
  rw [Sleepq.setBucket_self] at hhost
  have hxc : x ≠ c := fun e => hhost (by simp [e])
  have hxb : x ∉ q.bucket host := fun hm => hhost (List.mem_append_left _ hm)
  refine (Dtqueue.enqueue_same (h.bucket host) hxb hxc).free (h.free x fun a ha => ?_)
  by_cases hah : a = host
  · exact hxb (hah ▸ ha)
  · exact hx a (by rwa [Sleepq.setBucket_of_ne hah])

theorem Exact.append (h : m.Exact q) (hn : q.all.Nodup) (hh : q.Hosted []) (hc : c ∉ q.all) :
    (m.append c).1.Exact (q.append (m.expireTicks c) c) ∧
      (m.append c).2 = c :: atDoor false (q.view (m.expireTicks c)) := by
  unfold SleepqMem.append Sleepq.append
  rw [h.trie]
  cases hf : q.trie.find? (m.expireTicks c) with
  | none => exact ⟨⟨⟨rfl, h.bucket⟩, h.free⟩, by rw [Sleepq.view_of_none hf]; rfl⟩
  | some host =>
    refine ⟨h.enqueueTail hn hh hc, ?_⟩
    rw [Sleepq.view_of_find hf]
    simp [SleepqMem.enqueueTail, atDoor, (h.bucket host).tail]

theorem Exact.insert (h : m.Exact q) (hn : q.all.Nodup) (hh : q.Hosted []) (hc : c ∉ q.all) :
    (m.insert c).1.Exact (q.insert (m.expireTicks c) c) ∧
      (m.insert c).2 = c :: atDoor true (q.view (m.expireTicks c)) := by
  have hold := h.toHolds.insert hn hh hc
  unfold SleepqMem.insert Sleepq.insert at hold ⊢
  rw [h.trie] at hold ⊢
  cases hf : q.trie.find? (m.expireTicks c) with
  | none => exact ⟨⟨⟨rfl, h.bucket⟩, h.free⟩, by rw [Sleepq.view_of_none hf]; rfl⟩
  | some host =>
    have hb := h.bucket host
    rw [Sleepq.view_of_find hf]
    simp only [hf] at hold ⊢
    cases hl : q.bucket host with
    | nil =>
      have hnew : (m.enqueueTail host c).1.Exact _ := h.enqueueTail hn hh hc
      simp only [hb.head, hl, List.head?_nil]
      rw [hl] at hnew
      exact ⟨hnew, by simp [SleepqMem.enqueueTail, atDoor, hb.tail, hl]⟩
    | cons y l =>
      simp only [hb.head, hl, List.head?_cons] at hold ⊢
      rw [hl] at hb
      refine ⟨⟨hold, fun x hx => ?_⟩, ?_⟩
      · have hhost := hx host
        rw [Sleepq.setBucket_self] at hhost
        have hxc : x ≠ c := fun e => hhost (by simp [e])
        have hxb : x ∉ y :: l := fun hm => hhost (List.mem_cons_of_mem _ hm)
        refine (Dtqueue.insertBefore_same hb hxb hxc).free (h.free x fun a ha => ?_)
        by_cases hah : a = host
        · subst hah
          exact hxb (hl ▸ ha)
        · exact hx a (by rwa [Sleepq.setBucket_of_ne hah])
      · have hprev : m.link.prev y = none := hb.seg.1
        simp [hprev, atDoor]

theorem Exact.enqueue (h : m.Exact q) (hok : q.Ok [] [] key) (hc : c ∉ q.all) (prio : Bool) :
    (m.enqueue prio c).1.Exact (q.enqueue prio (m.expireTicks c) c) ∧
      (m.enqueue prio c).2 = c :: atDoor prio (q.view (m.expireTicks c)) := by
  cases prio with
  | true => exact h.insert hok.nodup_all hok.hosted hc
  | false => exact h.append hok.nodup_all hok.hosted hc

/-- The host of a key with a bucket leaves. -/
theorem Exact.handOver (h : m.Exact q) (hn : q.all.Nodup) (hh : q.Hosted []) {p : Ptr}
    (hb : q.bucket c = p :: l) :
    (m.handOver c p).Exact ⟨q.trie.insert (m.expireTicks c) p,
      Function.update (Function.update q.bucket p l) c []⟩ := by
  refine ⟨h.toHolds.handOver hn hh hb, fun x hx => ?_⟩
  have hold := h.bucket c
  rw [hb] at hold
  have hpc : p ≠ c := by
    intro e
    subst e
    have hp : p ∈ q.hosts := (hh p (by simp [hb])).resolve_right (by simp)
    exact Sleepq.host_notMem_bucket hn hh hp (hb ▸ List.mem_cons_self ..)
  have hxl : x ∉ l := by simpa [hpc] using hx p
  show (((Dtqueue.dequeue (m.link, m.bucket c)).1.clear p).clear c).Free x
  by_cases hxc : x = c
  · exact Links.clear_free (.inl hxc)
  by_cases hxp : x = p
  · exact Links.clear_free (.inr (Links.clear_free (.inl hxp)))
  -- `x` was in no bucket before
  refine Links.clear_free (.inr (Links.clear_free (.inr ?_)))
  refine (Dtqueue.dequeue_same hold hxl).free (h.free x fun a ha => ?_)
  by_cases hac : a = c
  · subst hac
    rw [hb] at ha
    exact (List.mem_cons.1 ha).elim hxp hxl
  by_cases hap : a = p
  · subst hap
    have hbp : q.bucket a = [] := by
      by_contra hne
      have ha' := (hh a hne).resolve_right (by simp)
      exact Sleepq.host_notMem_bucket hn hh ha' (hb ▸ List.mem_cons_self ..)
    rw [hbp] at ha
    cases ha
  · exact hx a (by simpa [hac, hap] using ha)

theorem Exact.remove_absent_touches (h : m.Exact q) (hok : q.Ok [] [] key)
    (hk : m.expireTicks c = key c) (hc : c ∉ q.all) (hfree : m.link.Free c) :
    (m.remove c).2 = c :: q.meets (key c) c := by
  have hdef : q.view SLEEP_UNDEFINED = [] := List.eq_nil_iff_forall_not_mem.2 fun x hx =>
    hok.defined _ x (Sleepq.mem_view.1 hx) rfl
  unfold SleepqMem.remove Sleepq.meets
  rw [h.trie, hk]
  by_cases hu : key c = SLEEP_UNDEFINED
  · simp only [hu, if_true, hdef]
  cases hf : q.trie.find? (key c) with
  | none => simp only [hu, if_false, Sleepq.view_of_none hf]
  | some sle =>
    have hin := OrdMap.mem_entries_iff.2 hf
    have hsc : sle ≠ c := fun e => hc (Sleepq.mem_all.2 ⟨_, sle, hin, by simp [e]⟩)
    have hb : c ∉ q.bucket sle := fun hm => hc (Sleepq.mem_all.2 ⟨_, sle, hin, by simp [hm]⟩)
    have ho := (h.bucket sle).orphan hb hfree
    simp only [hu, if_false, hsc, ho, if_true, Sleepq.view_of_find hf, Dtqueue.besides_of_notMem hb]
    cases (m.bucket sle).head <;> rfl

/-- `sleepq_remove` of a context that is under its key, or nowhere. -/
theorem Exact.remove (h : m.Exact q) (hok : q.Ok [] [] key) (hk : m.expireTicks c = key c) :
    (m.remove c).1.Exact (q.remove (key c) c) ∧ (m.remove c).2 = c :: q.meets (key c) c := by
  have hn := hok.nodup_all
  have hh := hok.hosted
  by_cases hc : c ∈ q.all
  swap
  · have hfree : m.link.Free c := h.free c fun a ha => hc (Sleepq.mem_all_of_bucket hh ha)
    rw [Sleepq.remove_of_notMem hc]
    refine ⟨?_, h.remove_absent_touches hok hk hc hfree⟩
    rw [h.toHolds.remove_absent hc hfree]
    exact h
  obtain ⟨⟨sle, hin, hmem⟩, hdef⟩ := hok.at_key hc
  have hf := OrdMap.mem_entries_iff.1 hin
  have hb := h.bucket sle
  unfold SleepqMem.remove Sleepq.remove Sleepq.meets
  rw [Sleepq.view_of_find hf, h.trie, hk]
  simp only [hdef, if_false, hf, hb.head]
  cases hl : q.bucket sle with
  | nil =>
    have hsc : sle = c := by simpa [hl, eq_comm] using hmem
    simp only [List.head?_nil, hsc, if_true, List.take_nil]
    exact ⟨⟨⟨rfl, h.bucket⟩, h.free⟩, trivial⟩
  | cons p rest =>
    simp only [List.head?_cons]
    by_cases hsc : sle = c
    · subst hsc
      rw [hl] at hb
      have hnext : m.link.next p = rest.head? := hb.seg.2.1
      simp only [if_true, hnext]
      refine ⟨hk ▸ h.handOver hn hh hl, ?_⟩
      cases rest <;> rfl
    · have hcb : c ∈ q.bucket sle := (List.mem_cons.1 hmem).resolve_left (Ne.symm hsc)
      have ho := hb.not_orphan hcb
      obtain ⟨hprev, hnext⟩ := hb.links hcb
      simp only [hsc, if_false, ho, ← hl, hprev, hnext]
      refine ⟨⟨h.toHolds.setBucket (hb.remove hcb) fun a ha x hx =>
        Dtqueue.remove_same hb hcb (Sleepq.bucket_apart hn hh ha hx), fun x hx => ?_⟩,
        by simp [Dtqueue.besides]⟩
      by_cases hxc : x = c
      · subst hxc
        exact Links.unlink_free ..
      -- who else is in no bucket was in none before
      have hout : ∀ a, x ∉ q.bucket a := by
        intro a ha
        by_cases has : a = sle
        · subst has
          exact hx a (by simpa using (List.mem_erase_of_ne hxc).2 ha)
        · exact hx a (by rwa [Sleepq.setBucket_of_ne has])
      exact (Dtqueue.remove_same hb hcb (hout sle)).free (h.free x hout)

end
end SleepqMem

/-! ## The heap -/

/-- Whom `set_resume` of `t` meets in the sleep queue: under the key of `t`, and
then, without `t`, under `MNTHR_SLEEP_RESUME_NOW`. -/
def St.meets (s : St) (t : Ptr) : List Ptr :=
  if (s.ctx t).f = none then []
  else s.sleepq.meets (s.ctx t).expireTicks t ++
    atDoor (s.ctx t).prio ((s.sleepq.view SLEEP_RESUME_NOW).erase t)

structure Heap.Stands (h : Heap) (s : St) : Prop where
  ctx : h.ctx = s.ctx
  sleepq : h.sleepq.Exact s.sleepq
  waitq : ∀ q, (h.waitq q).Holds h.waitLink (s.wq.queue q)
  hosting : h.hosting = s.wq.hosting

/-- `key` says where everybody is filed; for those with a thread, the finalized
ones are not among them, it is `expire_ticks`. -/
structure Filed (s : St) (key : Ptr → Nat) : Prop where
  queue : s.sleepq.Ok [] [] key
  key : ∀ c, (s.ctx c).f ≠ none → (s.ctx c).expireTicks = key c

namespace Heap
variable {h : Heap} {s : St} {c t : Ptr} {key : Ptr → Nat}

theorem Stands.setResume (hs : h.Stands s) (hf : Filed s key) :
    (h.setResume t).1.Stands
        (if (s.ctx t).f = none then s else s.queueNow t { s.ctx t with state := .setResume }) ∧
      ∀ a, a ∈ (h.setResume t).2 ↔ a = t ∨ a ∈ s.meets t := by
  unfold Heap.setResume St.meets
  rw [hs.ctx]
  by_cases hfn : (s.ctx t).f = none
  · simp only [hfn, if_true]
    exact ⟨hs, by simp⟩
  simp only [hfn, if_false]
  have hk : h.sleepq.expireTicks t = key t := by
    rw [← hf.key t hfn, ← hs.ctx]
    rfl
  obtain ⟨hr, hrt⟩ := hs.sleepq.remove hf.queue hk
  obtain ⟨hok, hout, -⟩ := hf.queue.remove t
  -- `t` is out, with the new key in it
  have hmid : ((h.setSleepq (h.sleepq.remove t).1).setCtx t
      { s.ctx t with state := .setResume, expireTicks := SLEEP_RESUME_NOW }).sleepq.Exact
        (s.sleepq.remove (key t) t) := ⟨⟨hr.trie, hr.bucket⟩, hr.free⟩
  obtain ⟨he, het⟩ := hmid.enqueue hok (fun hm => ((hout t).1 hm).2 rfl) (s.ctx t).prio
  have hnow : ((h.setSleepq (h.sleepq.remove t).1).setCtx t
      { s.ctx t with state := .setResume, expireTicks := SLEEP_RESUME_NOW }).sleepq.expireTicks t =
        SLEEP_RESUME_NOW := by simp [Heap.sleepq, Heap.setCtx]
  rw [hnow] at he het
  rw [hf.queue.view_remove] at het
  constructor
  · refine ⟨?_, ?_, hs.waitq, hs.hosting⟩
    · simp [queueNow, sleepqEnqueue, sleepqRemove, St.setCtx, Heap.setCtx, Heap.setSleepq, hs.ctx]
    · have hq : (s.queueNow t { s.ctx t with state := .setResume }).sleepq =
          (s.sleepq.remove (key t) t).enqueue (s.ctx t).prio SLEEP_RESUME_NOW t := by
        simp [queueNow, sleepqEnqueue, sleepqRemove, St.setCtx, hf.key t hfn]
      rw [hq]
      exact ⟨⟨he.trie, he.bucket⟩, he.free⟩
  · intro a
    rw [hrt, het, hf.key t hfn]
    simp only [List.cons_append, List.mem_cons, List.mem_append]
    tauto

theorem Stands.dequeue (hs : h.Stands s) (hw : s.wq.Ok) {q : Waitq} {rest : List Ptr}
    (hq : s.wq.queue q = t :: rest) :
    Stands { h with
      waitLink := (Dtqueue.dequeue (h.waitLink, h.waitq q)).1.clear t
      waitq := Function.update h.waitq q (Dtqueue.dequeue (h.waitLink, h.waitq q)).2
      hosting := Function.update h.hosting t none } (s.dequeue q t rest) := by
  have hold := hs.waitq q
  rw [hq] at hold
  have ht := (List.nodup_cons.1 hold.nodup).1
  refine ⟨hs.ctx, hs.sleepq, fun q' => ?_, ?_⟩
  · by_cases hqq : q' = q
    · subst hqq
      simp only [St.dequeue, WaitQs.setQueue, WaitQs.setHosting, Function.update_self]
      exact hold.dequeue.congr fun x hx => Links.clear_same fun e => ht (e ▸ hx)
    · simp only [St.dequeue, WaitQs.setQueue, WaitQs.setHosting, Function.update_of_ne hqq]
      refine (hs.waitq q').congr fun x hx => ?_
      have hxq : x ∉ t :: rest := fun hm => by
        have h1 := (hw.mem x q').1 hx
        rw [(hw.mem x q).1 (hq ▸ hm)] at h1
        exact hqq (Option.some.inj h1).symm
      obtain ⟨hxt, hxr⟩ := not_or.1 (mt List.mem_cons.2 hxq)
      exact (Dtqueue.dequeue_same hold hxr).trans (Links.clear_same hxt)
  · simp [St.dequeue, WaitQs.setQueue, WaitQs.setHosting, hs.hosting]

/-- A round of `resume_waitq_all`. -/
theorem Stands.wake (hs : h.Stands s) (hf : Filed s key) (hw : s.wq.Ok) {rest : List Ptr}
    (hq : s.wq.queue (.ctx c) = t :: rest) :
    (h.wake c t).1.Stands (s.woken (.ctx c) t rest) ∧
      ∀ a, a ∈ (h.wake c t).2 ↔ a = c ∨ a = t ∨ rest.head? = some a ∨ a ∈ s.meets t := by
  have hnext : h.waitLink.next t = rest.head? := by
    have hold := hs.waitq (.ctx c)
    rw [hq] at hold
    exact hold.seg.2.1
  have hf1 : Filed (s.dequeue (.ctx c) t rest) key := ⟨hf.queue, hf.key⟩
  obtain ⟨h1, h2⟩ := (hs.dequeue hw hq).setResume (t := t) hf1
  refine ⟨h1, fun a => ?_⟩
  simp only [Heap.wake, List.mem_append, h2, hnext]
  simp only [List.mem_cons, List.not_mem_nil, or_false, Option.mem_toList]
  show _ ∨ _ ∨ a ∈ s.meets t ↔ _
  tauto

/-- The end of `mnthr_ctx_fini`: nobody waits for `c` any more. -/
theorem Stands.release (hs : h.Stands s) (hw : s.wq.Ok) (hq : s.wq.queue (.ctx c) = []) :
    (h.release c).1.Stands (s.releaseCtx c) ∧
      ∀ a ∈ (h.release c).2, a = c ∨ s.wq.hosting a ≠ none ∨
        ∃ q, s.wq.hosting c = some q ∧ q.owner = some a := by
  have hempty : Function.update h.waitq (.ctx c) .empty = h.waitq := by
    have hold := hs.waitq (.ctx c)
    rw [hq] at hold
    have : h.waitq (.ctx c) = .empty := by
      cases hx : h.waitq (.ctx c)
      rw [hx] at hold
      cases hold.head
      cases hold.tail
      rfl
    rw [← this, Function.update_eq_self]
  have hctx : Function.update h.ctx c { h.ctx c with rc := 0 } = (s.releaseCtx c).ctx := by
    simp [releaseCtx, St.setCtx, hs.ctx]
  have hwq := releaseCtx_wq hq
  unfold Heap.release
  have hhost : h.hosting c = s.wq.hosting c := by rw [hs.hosting]
  cases hh : s.wq.hosting c with
  | none =>
    have hsame : (s.releaseCtx c).wq = s.wq := by
      have hleave : s.wq.leave c = s.wq := by simp only [WaitQs.leave, hh]
      rw [hwq, hleave, WaitQs.setHosting, ← hh, Function.update_eq_self]
    simp only [hempty, hhost, hh]
    refine ⟨⟨hctx, ⟨⟨hs.sleepq.trie, hs.sleepq.bucket⟩, hs.sleepq.free⟩, ?_, ?_⟩, by simp⟩
    · rw [hsame]; exact hs.waitq
    · rw [hsame]; exact hs.hosting
  | some q =>
    have hm : c ∈ s.wq.queue q := (hw.mem c q).2 hh
    have hold := hs.waitq q
    have hleft : (s.releaseCtx c).wq = (s.wq.unlink q c).setHosting c none := by
      rw [hwq]
      simp only [WaitQs.leave, hh]
    simp only [hempty, hhost, hh]
    refine ⟨⟨hctx, ⟨⟨hs.sleepq.trie, hs.sleepq.bucket⟩, hs.sleepq.free⟩, fun q' => ?_, ?_⟩, ?_⟩
    · rw [hleft]
      by_cases hqq : q' = q
      · subst hqq
        simpa [WaitQs.unlink, WaitQs.setQueue, WaitQs.setHosting, Heap.setCtx] using hold.remove hm
      · have hsame : ((s.wq.unlink q c).setHosting c none).queue q' = s.wq.queue q' := by
          simp [WaitQs.unlink, WaitQs.setQueue, WaitQs.setHosting, hqq]
        rw [hsame]
        simp only [Heap.setCtx, Function.update_of_ne hqq]
        refine (hs.waitq q').congr fun x hx => Dtqueue.remove_same hold hm fun hxq => hqq ?_
        have h1 := (hw.mem x q').1 hx
        rw [(hw.mem x q).1 hxq] at h1
        exact (Option.some.inj h1).symm
    · rw [hleft]
      simp [WaitQs.unlink, WaitQs.setQueue, WaitQs.setHosting, Heap.setCtx, hs.hosting]
    · intro a ha
      have hmem : h.waitLink.prev c = some a ∨ h.waitLink.next c = some a → s.wq.hosting a ≠ none :=
        fun hl => by
          rw [(hw.mem a q).1 (hold.mem_of_link hm hl)]
          simp
      simp only [List.mem_cons, List.mem_append, Option.mem_toList] at ha
      rcases ha with rfl | (ha | ha) | ha
      · exact .inl rfl
      · exact .inr (.inr ⟨q, rfl, ha⟩)
      · exact .inr (.inl (hmem (.inl ha)))
      · exact .inr (.inl (hmem (.inr ha)))

theorem Stands.clear (hs : h.Stands s) : (h.clear c).1.Stands (s.setCtx c (s.ctx c).cleared) :=
  ⟨by simp [Heap.clear, Heap.setCtx, St.setCtx, hs.ctx],
    ⟨⟨hs.sleepq.trie, hs.sleepq.bucket⟩, hs.sleepq.free⟩, hs.waitq, hs.hosting⟩

end Heap

/-! ## The steps -/

/-- The queues are in order, and nothing leads to a context that has been freed,
except the sleep queue. -/
structure TeardownOk (u : Teardown St) : Prop where
  filed : ∃ key, Filed u.mem key
  wq : u.mem.wq.Ok
  once : (u.freed ++ u.todo).Nodup
  gone : ∀ a ∈ u.freed, u.mem.wq.hosting a = none ∧ u.mem.wq.queue (.ctx a) = []

/-- The same point on lists and in memory. -/
structure Mirrors (p : Teardown Heap) (u : Teardown St) : Prop where
  mem : p.mem.Stands u.mem
  todo : p.todo = u.todo
  begun : p.begun = u.begun
  freed : p.freed = u.freed
  ok : TeardownOk u

/-- A thread that is woken meets nobody in the sleep queue who has been freed. -/
def Teardown.MeetsLive (u : Teardown St) : FiniStep → Prop
  | .wake _ t => ∀ a ∈ u.mem.meets t, a ∉ u.freed
  | _ => True

section
variable {p p' : Teardown Heap} {u u' : Teardown St} {l : FiniStep} {s : St} {c t : Ptr}
  {key : Ptr → Nat}

theorem Filed.clear (h : Filed s key) : Filed (s.setCtx c (s.ctx c).cleared) key := by
  refine ⟨h.queue, fun x hx => ?_⟩
  by_cases hxc : x = c
  · subst hxc
    simp [St.setCtx, Ctx.cleared] at hx
  · simp only [St.setCtx, Function.update_of_ne hxc] at hx ⊢
    exact h.key x hx

theorem Filed.wake (h : Filed s key) (q : Waitq) (rest : List Ptr) :
    ∃ key', Filed (s.woken q t rest) key' := by
  unfold St.woken
  by_cases hf : (s.ctx t).f = none
  · exact ⟨key, by simp only [hf, if_true]; exact ⟨h.queue, h.key⟩⟩
  simp only [hf, if_false]
  refine ⟨Function.update key t SLEEP_RESUME_NOW, ?_, fun x hx => ?_⟩
  · have hsq : ((s.dequeue q t rest).queueNow t { s.ctx t with state := .setResume }).sleepq =
        (s.sleepq.remove (key t) t).enqueue (s.ctx t).prio SLEEP_RESUME_NOW t := by
      simp [queueNow, sleepqEnqueue, sleepqRemove, St.setCtx, St.dequeue, h.key t hf]
    rw [hsq]
    exact (h.queue.requeue (by simp [Sleepq.batch]) (s.ctx t).prio (by decide)).1
  · by_cases hxt : x = t
    · subst hxt
      simp [queueNow, sleepqEnqueue, sleepqRemove, St.setCtx]
    · rw [Function.update_of_ne hxt]
      simp only [queueNow, sleepqEnqueue, sleepqRemove, St.setCtx, St.dequeue,
        Function.update_of_ne hxt] at hx ⊢
      exact h.key x hx

theorem TeardownOk.release {cs : List Ptr} (h : TeardownOk u) (ht : u.todo = c :: cs)
    (hq : u.mem.wq.queue (.ctx c) = []) :
    TeardownOk ⟨u.mem.releaseCtx c, cs, false, u.freed ++ [c]⟩ := by
  have hwq := releaseCtx_wq hq
  obtain ⟨key, hf⟩ := h.filed
  refine ⟨⟨key, hf.queue, fun x hx => ?_⟩, ?_, ?_, ?_⟩
  · by_cases hxc : x = c
    · subst hxc
      simp only [releaseCtx, St.setCtx, Function.update_self] at hx ⊢
      exact hf.key x hx
    · simp only [releaseCtx, St.setCtx, Function.update_of_ne hxc] at hx ⊢
      exact hf.key x hx
  · show (u.mem.releaseCtx c).wq.Ok
    rw [hwq]
    exact h.wq.leave c
  · have := h.once
    rwa [ht, List.append_cons] at this
  · intro a ha
    show (u.mem.releaseCtx c).wq.hosting a = none ∧ (u.mem.releaseCtx c).wq.queue (.ctx a) = []
    rw [hwq]
    have hnil : ∀ {q}, u.mem.wq.queue q = [] → (u.mem.wq.leave c).queue q = [] := fun hq =>
      List.eq_nil_iff_forall_not_mem.2 fun x hx => by
        have := leave_subset hx
        rw [hq] at this
        cases this
    by_cases hac : a = c
    · subst hac
      exact ⟨by simp [WaitQs.setHosting], hnil hq⟩
    · have ha' : a ∈ u.freed := (List.mem_append.1 ha).resolve_right (by simpa using hac)
      obtain ⟨h1, h2⟩ := h.gone a ha'
      refine ⟨?_, hnil h2⟩
      simpa [WaitQs.setHosting, hac, leave_hosting] using h1

theorem TeardownOk.notFreed (h : TeardownOk u) (hc : c ∈ u.todo ∨ u.mem.wq.hosting c ≠ none) :
    c ∉ u.freed := by
  intro hm
  rcases hc with hc | hc
  · exact (List.nodup_append.1 h.once).2.2 c hm c hc rfl
  · exact hc (h.gone c hm).1

theorem TeardownOk.wake {rest : List Ptr} (h : TeardownOk u) (hc : c ∈ u.todo)
    (hq : u.mem.wq.queue (.ctx c) = t :: rest) :
    TeardownOk { u with mem := u.mem.woken (.ctx c) t rest } := by
  obtain ⟨key, hf⟩ := h.filed
  have hwq : (u.mem.woken (.ctx c) t rest).wq =
      (u.mem.wq.setQueue (.ctx c) rest).setHosting t none := by
    unfold St.woken
    split <;> rfl
  refine ⟨hf.wake (.ctx c) rest, ?_, h.once, fun a ha => ?_⟩
  · show (u.mem.woken (.ctx c) t rest).wq.Ok
    rw [hwq]
    exact h.wq.dequeue hq
  · show (u.mem.woken (.ctx c) t rest).wq.hosting a = none ∧
      (u.mem.woken (.ctx c) t rest).wq.queue (.ctx a) = []
    rw [hwq]
    obtain ⟨h1, h2⟩ := h.gone a ha
    have hac : a ≠ c := fun e => h.notFreed (.inl hc) (e ▸ ha)
    refine ⟨?_, by simpa [WaitQs.setQueue, WaitQs.setHosting, hac] using h2⟩
    simp only [WaitQs.setQueue, WaitQs.setHosting, Function.update_apply]
    split
    · rfl
    · exact h1

/-- A step in memory is the step on lists, and reads or writes what has been freed
only where the lists say so. -/
theorem mirrors_step (h : Mirrors p u) (hs : p.step Heap.ctxOps l = some p') :
    ∃ u', u.step St.ctxOps l = some u' ∧ Mirrors p' u' ∧
      ((∀ a ∈ p.mem.touches l, a ∉ p.freed) ↔ u.MeetsLive l) := by
  obtain ⟨m, todo, begun, freed⟩ := p
  obtain ⟨hm, rfl, rfl, rfl, hok⟩ := h
  obtain ⟨key, hf⟩ := hok.filed
  have hfirst : ∀ c, Heap.ctxOps.first m c = St.ctxOps.first u.mem c := fun c =>
    (hm.waitq (.ctx c)).head
  cases l with
  | begin c =>
    simp only [Teardown.step] at hs
    split at hs
    swap
    · cases hs
    rename_i hc
    cases hs
    refine ⟨_, if_pos hc, ⟨hm.clear, rfl, rfl, rfl, ⟨key, hf.clear⟩, hok.wq, hok.once,
      hok.gone⟩, ?_⟩
    simpa [Heap.touches, Heap.clear, Teardown.MeetsLive] using
      hok.notFreed (.inl (List.mem_of_head? hc.1))
  | wake c t =>
    simp only [Teardown.step, hfirst] at hs
    split at hs
    swap
    · cases hs
    rename_i hc
    cases hs
    have hct := List.mem_of_head? hc.1
    obtain ⟨rest, hq⟩ := List.head?_eq_some_iff.1 hc.2.2
    obtain ⟨hw, ht⟩ := hm.wake hf hok.wq hq
    have hwake : St.ctxOps.wake u.mem c t = u.mem.woken (.ctx c) t rest := by
      simp [ctxOps, hq]
    refine ⟨_, if_pos hc, ⟨?_, rfl, rfl, rfl, ?_⟩, ?_⟩
    · rw [hwake]; exact hw
    · rw [hwake]; exact hok.wake hct hq
    · have hlive : ∀ a ∈ t :: rest, a ∉ u.freed := fun a ha =>
        hok.notFreed (.inr (by rw [(hok.wq.mem a _).1 (hq ▸ ha)]; simp))
      constructor
      · exact fun h a ha => h a ((ht a).2 (.inr (.inr (.inr ha))))
      · intro h a ha
        rcases (ht a).1 ha with rfl | rfl | ha | ha
        · exact hok.notFreed (.inl hct)
        · exact hlive a (by simp)
        · exact hlive a (List.mem_cons_of_mem _ (List.mem_of_head? ha))
        · exact h a ha
  | release c =>
    simp only [Teardown.step, hfirst] at hs
    split at hs
    swap
    · cases hs
    rename_i hc
    cases hs
    obtain ⟨cs, htodo⟩ := List.head?_eq_some_iff.1 hc.1
    have hq := List.head?_eq_none_iff.1 hc.2.2
    obtain ⟨hr, ht⟩ := hm.release hok.wq hq
    refine ⟨_, if_pos hc, ⟨hr, rfl, rfl, rfl, ?_⟩, ?_⟩
    · have := hok.release htodo hq
      rwa [htodo]
    · refine ⟨fun _ => trivial, fun _ a ha => ?_⟩
      rcases ht a ha with rfl | ha | ⟨q, hq', ho⟩
      · exact hok.notFreed (.inl (by simp [htodo]))
      · exact hok.notFreed (.inr ha)
      · -- the owner of the queue that `c` is in has not been freed: its queue is not empty
        intro hfr
        cases q with
        | ctx d =>
          cases ho
          have hmem := (hok.wq.mem c (.ctx a)).2 hq'
          rw [(hok.gone a hfr).2] at hmem
          cases hmem
        | _ => cases ho

end

/-! ## A memory for the lists -/

/-- A memory that is laid out as the lists say. -/
def St.heap (s : St) : Heap where
  ctx := s.ctx
  trie := s.sleepq.trie
  bucket c := Dtqueue.ends (s.sleepq.bucket c)
  link := Dtqueue.linksOf fun x =>
    (s.sleepq.hosts.find? fun c => decide (x ∈ s.sleepq.bucket c)).elim [] s.sleepq.bucket
  waitq q := Dtqueue.ends (s.wq.queue q)
  waitLink := Dtqueue.linksOf fun x => (s.wq.hosting x).elim [] s.wq.queue
  hosting := s.wq.hosting

theorem Sleepq.bucket_nodup {q : Sleepq} {c : Ptr} (hn : q.all.Nodup) (hh : q.Hosted []) :
    (q.bucket c).Nodup := by
  by_cases hb : q.bucket c = []
  · rw [hb]; exact .nil
  obtain ⟨⟨k, c⟩, he, rfl⟩ := List.mem_map.1 ((hh c hb).resolve_right (by simp))
  obtain ⟨xs, ys, -, -, -, hall, -⟩ := Sleepq.zip_of_find (OrdMap.mem_entries_iff.1 he) hn
  rw [hall, List.nodup_append] at hn
  exact (List.nodup_cons.1 (List.nodup_append.1 hn.2.1).1).2

theorem heap_stands {s : St} {key : Ptr → Nat} (hq : s.sleepq.Ok [] [] key) (hw : s.wq.Ok) :
    s.heap.Stands s := by
  have hblock : ∀ c, ∀ x ∈ s.sleepq.bucket c,
      (s.sleepq.hosts.find? fun c => decide (x ∈ s.sleepq.bucket c)).elim [] s.sleepq.bucket =
        s.sleepq.bucket c := by
    intro c x hx
    have hc := (hq.hosted c (List.ne_nil_of_mem hx)).resolve_right (by simp)
    cases hf : s.sleepq.hosts.find? fun c => decide (x ∈ s.sleepq.bucket c) with
    | none => exact absurd (decide_eq_true hx) (List.find?_eq_none.1 hf c hc)
    | some b =>
      have hb : x ∈ s.sleepq.bucket b := by simpa using List.find?_some hf
      by_cases hbc : b = c
      · rw [hbc]; rfl
      · exact absurd hx (Sleepq.bucket_apart hq.nodup_all hq.hosted hbc hb)
  refine ⟨rfl, ⟨⟨rfl, fun c => Dtqueue.holds_linksOf (hblock c)
    (Sleepq.bucket_nodup hq.nodup_all hq.hosted)⟩, fun x hx => Dtqueue.linksOf_free ?_⟩,
    fun q => Dtqueue.holds_linksOf (fun x hx => ?_) (hw.nodup q), rfl⟩
  · have hnone : (s.sleepq.hosts.find? fun c => decide (x ∈ s.sleepq.bucket c)) = none :=
      List.find?_eq_none.2 fun c _ => by simpa using hx c
    rw [hnone]
    rfl
  · rw [(hw.mem x q).1 hx]
    rfl

end Mnthr
