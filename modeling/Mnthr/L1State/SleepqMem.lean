import Mnthr.Core.Dtqueue
import Mnthr.L1State.Sleepq

/-!
# The sleep queue in memory

`Sleepq` keeps a bucket as a list. In memory it is a `DTQUEUE` whose head and
tail are fields of the host (`sleepq_bucket`) and whose links are fields of the
members (`sleepq_link`). `SleepqMem` is that memory, with the operations of
src/mnthr.c on it; each also returns the contexts that it reads or writes.

`SleepqMem.Holds` says which `Sleepq` a memory stands for. `Holds.append`,
`Holds.insert` and `Holds.remove`: the operations on links do what those on
lists do, for a context that is absent, or stored under its own key.
-/
namespace Mnthr

structure SleepqMem where
  trie : OrdMap Nat Ptr
  bucket : Ptr → Dtqueue Ptr
  link : Links Ptr
  expireTicks : Ptr → Nat

namespace SleepqMem

def setBucket (m : SleepqMem) (h : Ptr) (p : Links Ptr × Dtqueue Ptr) : SleepqMem :=
  { m with link := p.1, bucket := Function.update m.bucket h p.2 }

/-- mirrors src/mnthr.c:326-344: the host hands its bucket over to the first
member. -/
def handOver (m : SleepqMem) (sle pretendent : Ptr) : SleepqMem :=
  let p := Dtqueue.dequeue (m.link, m.bucket sle)
  { m with
    trie := m.trie.insert (m.expireTicks sle) pretendent
    bucket := Function.update (Function.update m.bucket pretendent p.2) sle .empty
    link := (p.1.clear pretendent).clear sle }

/-- mirrors src/mnthr.c:287-390 -/
def remove (m : SleepqMem) (ctx : Ptr) : SleepqMem × List Ptr :=
  if m.expireTicks ctx = SLEEP_UNDEFINED then (m, [ctx])
  else match m.trie.find? (m.expireTicks ctx) with
    | none => (m, [ctx])
    | some sle =>
      match (m.bucket sle).head with
      | some pretendent =>
        if sle = ctx then
          (m.handOver sle pretendent, [ctx, pretendent] ++ (m.link.next pretendent).toList)
        else if (m.bucket sle).Orphan m.link ctx then (m, [ctx, sle])
        else
          (m.setBucket sle (Dtqueue.remove (m.link, m.bucket sle) ctx),
            [ctx, sle] ++ (m.link.prev ctx).toList ++ (m.link.next ctx).toList)
      | none =>
        if sle = ctx then ({ m with trie := m.trie.erase (m.expireTicks ctx) }, [ctx])
        else (m, [ctx, sle])

/-- `DTQUEUE_ENQUEUE` on the bucket of `host` -/
def enqueueTail (m : SleepqMem) (host ctx : Ptr) : SleepqMem × List Ptr :=
  (m.setBucket host (Dtqueue.enqueue (m.link, m.bucket host) ctx),
    [ctx, host] ++ (m.bucket host).tail.toList)

/-- mirrors src/mnthr.c:393-435 -/
def insert (m : SleepqMem) (ctx : Ptr) : SleepqMem × List Ptr :=
  match m.trie.find? (m.expireTicks ctx) with
  | some host =>
    match (m.bucket host).head with
    | none => m.enqueueTail host ctx
    | some head =>
      (m.setBucket host (Dtqueue.insertBefore (m.link, m.bucket host) head ctx),
        [ctx, host, head] ++ (m.link.prev head).toList)
  | none => ({ m with trie := m.trie.insert (m.expireTicks ctx) ctx }, [ctx])

/-- mirrors src/mnthr.c:438-468 -/
def insertOnce (m : SleepqMem) (ctx : Ptr) : SleepqMem × List Ptr :=
  match m.trie.find? (m.expireTicks ctx) with
  | some bucketHost =>
    if bucketHost = ctx then (m, [ctx])
    else match (m.bucket bucketHost).head with
      | none => m.enqueueTail bucketHost ctx
      | some head =>
        (m.setBucket bucketHost (Dtqueue.insertBefore (m.link, m.bucket bucketHost) head ctx),
          [ctx, bucketHost, head] ++ (m.link.prev head).toList)
  | none => m.insert ctx

/-- mirrors src/mnthr.c:471-501 -/
def append (m : SleepqMem) (ctx : Ptr) : SleepqMem × List Ptr :=
  match m.trie.find? (m.expireTicks ctx) with
  | some host => m.enqueueTail host ctx
  | none => ({ m with trie := m.trie.insert (m.expireTicks ctx) ctx }, [ctx])

/-- `ctx->sleepq_enqueue(ctx)` -/
def enqueue (m : SleepqMem) (prio : Bool) (ctx : Ptr) : SleepqMem × List Ptr :=
  if prio then m.insert ctx else m.append ctx

/-- The memory stands for the queue. -/
structure Holds (m : SleepqMem) (q : Sleepq) : Prop where
  trie : m.trie = q.trie
  bucket : ∀ c, (m.bucket c).Holds m.link (q.bucket c)

end SleepqMem

/-! ## Blocks are apart -/

namespace Sleepq
variable {q : Sleepq} {a b x : Ptr}

/-- Every context is in one block only. -/
theorem host_unique (hn : q.all.Nodup) (ha : a ∈ q.hosts) (hb : b ∈ q.hosts)
    (hxa : x ∈ a :: q.bucket a) (hxb : x ∈ b :: q.bucket b) : a = b := by
  obtain ⟨⟨ka, a⟩, hea, rfl⟩ := List.mem_map.1 ha
  obtain ⟨⟨kb, b⟩, heb, rfl⟩ := List.mem_map.1 hb
  have hk := at_unique hn ⟨a, hea, hxa⟩ ⟨b, heb, hxb⟩
  subst hk
  exact Option.some.inj ((OrdMap.mem_entries_iff.1 hea).symm.trans (OrdMap.mem_entries_iff.1 heb))

/-- Members of different buckets differ. -/
theorem bucket_apart (hn : q.all.Nodup) (hh : q.Hosted []) (hab : a ≠ b) (ha : x ∈ q.bucket a) :
    x ∉ q.bucket b := by
  intro hb
  have host : ∀ {c}, x ∈ q.bucket c → c ∈ q.hosts := fun hx =>
    (hh _ (List.ne_nil_of_mem hx)).resolve_right (by simp)
  exact hab (host_unique hn (host ha) (host hb) (List.mem_cons_of_mem _ ha)
    (List.mem_cons_of_mem _ hb))

theorem mem_all_of_bucket (hh : q.Hosted []) (hx : x ∈ q.bucket a) : x ∈ q.all := by
  have ha := (hh a (List.ne_nil_of_mem hx)).resolve_right (by simp)
  obtain ⟨⟨k, a⟩, he, rfl⟩ := List.mem_map.1 ha
  exact mem_all.2 ⟨k, a, he, List.mem_cons_of_mem _ hx⟩

/-- A host is in no host's bucket. -/
theorem host_notMem_hosted (hn : q.all.Nodup) (ha : a ∈ q.hosts) (hb : b ∈ q.hosts) :
    a ∉ q.bucket b := by
  intro hab
  have heq := host_unique hn ha hb (List.mem_cons_self ..) (List.mem_cons_of_mem _ hab)
  subst heq
  obtain ⟨⟨k, a⟩, he, rfl⟩ := List.mem_map.1 ha
  obtain ⟨xs, ys, -, -, -, hall, -⟩ := zip_of_find (OrdMap.mem_entries_iff.1 he) hn
  rw [hall, List.nodup_append, List.cons_append, List.nodup_cons] at hn
  exact hn.2.1.1 (List.mem_append_left _ hab)

/-- A host is in no bucket. -/
theorem host_notMem_bucket (hn : q.all.Nodup) (hh : q.Hosted []) (ha : a ∈ q.hosts) :
    a ∉ q.bucket b := by
  intro hab
  have hb := (hh b (List.ne_nil_of_mem hab)).resolve_right (by simp)
  exact host_notMem_hosted hn ha hb hab

end Sleepq

/-! ## The operations -/

namespace SleepqMem
variable {m : SleepqMem} {q : Sleepq} {c host : Ptr} {l : List Ptr}

/-- One bucket changes; the members of the others keep their links. -/
theorem Holds.setBucket (h : m.Holds q) {p : Links Ptr × Dtqueue Ptr} (hp : p.2.Holds p.1 l)
    (hs : ∀ a, a ≠ host → ∀ x ∈ q.bucket a, m.link.Same p.1 x) :
    (m.setBucket host p).Holds (q.setBucket host l) := by
  refine ⟨h.trie, fun a => ?_⟩
  by_cases ha : a = host
  · subst ha
    simpa [SleepqMem.setBucket, Sleepq.setBucket] using hp
  · simpa [SleepqMem.setBucket, Sleepq.setBucket, ha] using (h.bucket a).congr (hs a ha)

theorem Holds.enqueueTail (h : m.Holds q) (hn : q.all.Nodup) (hh : q.Hosted []) (hc : c ∉ q.all) :
    (m.enqueueTail host c).1.Holds (q.setBucket host (q.bucket host ++ [c])) := by
  refine h.setBucket ((h.bucket host).enqueue fun hm => hc (Sleepq.mem_all_of_bucket hh hm)) ?_
  intro a ha x hx
  refine Dtqueue.enqueue_same (h.bucket host) (Sleepq.bucket_apart hn hh ha hx) fun e => ?_
  subst e
  exact hc (Sleepq.mem_all_of_bucket hh hx)

theorem Holds.append (h : m.Holds q) (hn : q.all.Nodup) (hh : q.Hosted []) (hc : c ∉ q.all) :
    (m.append c).1.Holds (q.append (m.expireTicks c) c) := by
  unfold SleepqMem.append Sleepq.append
  rw [h.trie]
  cases q.trie.find? (m.expireTicks c) with
  | none => exact ⟨rfl, h.bucket⟩
  | some host => exact h.enqueueTail hn hh hc

theorem Holds.insert (h : m.Holds q) (hn : q.all.Nodup) (hh : q.Hosted []) (hc : c ∉ q.all) :
    (m.insert c).1.Holds (q.insert (m.expireTicks c) c) := by
  unfold SleepqMem.insert Sleepq.insert
  rw [h.trie]
  cases q.trie.find? (m.expireTicks c) with
  | none => exact ⟨rfl, h.bucket⟩
  | some host =>
    have hb := h.bucket host
    cases hl : q.bucket host with
    | nil =>
      have : (m.enqueueTail host c).1.Holds _ := h.enqueueTail hn hh hc
      simp only [hb.head, hl, List.head?_nil]
      rwa [hl] at this
    | cons y l =>
      simp only [hb.head, hl, List.head?_cons]
      rw [hl] at hb
      have hcy : c ∉ y :: l := fun hm => hc (Sleepq.mem_all_of_bucket hh (hl ▸ hm))
      refine h.setBucket (hb.insertBefore hcy) fun a ha x hx => ?_
      refine Dtqueue.insertBefore_same hb (hl ▸ Sleepq.bucket_apart hn hh ha hx) fun e => ?_
      subst e
      exact hc (Sleepq.mem_all_of_bucket hh hx)

/-- `sleepq_remove` of an absent context whose link is clear. -/
theorem Holds.remove_absent (h : m.Holds q) (hc : c ∉ q.all) (hf : m.link.Free c) :
    (m.remove c).1 = m := by
  unfold SleepqMem.remove
  rw [h.trie]
  split
  · rfl
  · cases hfind : q.trie.find? (m.expireTicks c) with
    | none => rfl
    | some sle =>
      have hin : (m.expireTicks c, sle) ∈ q.trie.entries := OrdMap.mem_entries_iff.2 hfind
      have hne : sle ≠ c := fun e => hc (Sleepq.mem_all.2 ⟨_, sle, hin, by simp [e]⟩)
      have hb : c ∉ q.bucket sle := fun hm => hc (Sleepq.mem_all.2 ⟨_, sle, hin, by simp [hm]⟩)
      have ho := (h.bucket sle).orphan hb hf
      simp only [hne, if_false, ho, if_true]
      cases (m.bucket sle).head <;> rfl

/-- The host of a key with a bucket leaves. -/
theorem Holds.handOver (h : m.Holds q) (hn : q.all.Nodup) (hh : q.Hosted []) {p : Ptr}
    (hb : q.bucket c = p :: l) :
    (m.handOver c p).Holds ⟨q.trie.insert (m.expireTicks c) p,
      Function.update (Function.update q.bucket p l) c []⟩ := by
  have hold := h.bucket c
  rw [hb] at hold
  have hc : c ∈ q.hosts := (hh c (by simp [hb])).resolve_right (by simp)
  -- a context that is neither host nor first member keeps what the dequeue leaves it
  have hclear : ∀ x, x ≠ p → x ≠ c → x ∉ l → m.link.Same (m.handOver c p).link x := by
    intro x hxp hxc hxl
    exact (Dtqueue.dequeue_same hold hxl).trans
      ((Links.clear_same hxp).trans (Links.clear_same hxc))
  have hrest : (Dtqueue.dequeue (m.link, m.bucket c)).2.Holds (m.handOver c p).link l := by
    refine hold.dequeue.congr fun x hx => ?_
    have hxp : x ≠ p := by
      intro e
      subst e
      exact (List.nodup_cons.1 hold.nodup).1 hx
    have hxc : x ≠ c := by
      intro e
      subst e
      exact Sleepq.host_notMem_bucket hn hh hc (hb ▸ List.mem_cons_of_mem _ hx)
    exact (Links.clear_same hxp).trans (Links.clear_same hxc)
  refine ⟨by simp [SleepqMem.handOver, h.trie], fun a => ?_⟩
  simp only [SleepqMem.handOver] at hrest hclear ⊢
  by_cases hac : a = c
  · subst hac
    simpa using Dtqueue.holds_empty _
  by_cases hap : a = p
  · subst hap
    simpa [hac] using hrest
  simp only [Function.update_of_ne hac, Function.update_of_ne hap]
  refine (h.bucket a).congr fun x hx => ?_
  have hxb := Sleepq.bucket_apart hn hh hac hx
  rw [hb] at hxb
  refine hclear x (fun e => hxb (by simp [e])) (fun e => ?_) fun hm => hxb (by simp [hm])
  subst e
  exact Sleepq.host_notMem_bucket hn hh hc hx

/-- `sleepq_remove` of a context that is stored under its key. -/
theorem Holds.remove (h : m.Holds q) (hn : q.all.Nodup) (hh : q.Hosted [])
    (hk : m.expireTicks c ≠ SLEEP_UNDEFINED) (hc : q.At (m.expireTicks c) c) :
    (m.remove c).1.Holds (q.remove (m.expireTicks c) c) := by
  obtain ⟨sle, hin, hmem⟩ := hc
  have hfind := OrdMap.mem_entries_iff.1 hin
  unfold SleepqMem.remove Sleepq.remove
  rw [h.trie]
  simp only [hk, if_false, hfind, (h.bucket sle).head]
  cases hb : q.bucket sle with
  | nil =>
    have hsc : sle = c := by simpa [hb, eq_comm] using hmem
    simp only [List.head?_nil, hsc, if_true]
    exact ⟨rfl, h.bucket⟩
  | cons p rest =>
    simp only [List.head?_cons]
    by_cases hsc : sle = c
    · subst hsc
      simp only [if_true]
      exact h.handOver hn hh hb
    · have hcb : c ∈ q.bucket sle := (List.mem_cons.1 hmem).resolve_left (Ne.symm hsc)
      have ho := (h.bucket sle).not_orphan hcb
      simp only [hsc, if_false, ho]
      rw [← hb]
      refine h.setBucket ((h.bucket sle).remove hcb) fun a ha x hx => ?_
      exact Dtqueue.remove_same (h.bucket sle) hcb (Sleepq.bucket_apart hn hh ha hx)

end SleepqMem
end Mnthr
