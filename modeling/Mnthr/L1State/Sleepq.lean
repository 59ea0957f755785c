import Mnthr.Core.OrdMap
import Mathlib.Data.List.Perm.Basic
import Mathlib.Data.List.Nodup
import Mathlib.Algebra.Group.Nat.Defs
import Mathlib.Data.Nat.Basic
import Mathlib.Logic.Function.Basic

/-!
# The sleep queue (`the_sleepq`)

`the_sleepq` is a trie keyed by `expire_ticks`. A key has one node; the node's
value is the *bucket host*, and further contexts with the same key sit in the
host's own `sleepq_bucket`. `Sleepq` is that pair: the trie (mncommon's btrie,
an ordered map) and the `sleepq_bucket` of every context. The queue of one
bucket is a list (mncommon's `DTQUEUE`, a doubly linked FIFO).

`all q` lists everything stored, hosts with their buckets; `At q k c` says
that `c` is stored under key `k`, as host or in the host's bucket. The
lemmas `enqueue_perm`, `remove_perm`, `at_enqueue`, `at_remove` say what the
three operations do to them.

The operations are only specified for a context whose `sleepq_link` is in no
other queue: `DTQUEUE_REMOVE` on an entry of a foreign queue is outside the
contract of a doubly linked FIFO, and `List.erase` does nothing there.
-/
namespace Mnthr

/-- A context, by address (`mnthr_ctx_t *`). -/
abbrev Ptr := Nat

/-! Reserved values of `expire_ticks`, src/mnthr_private.h:181-183. -/

def SLEEP_UNDEFINED : Nat := 0
def SLEEP_RESUME_NOW : Nat := 1
def SLEEP_FOREVER : Nat := 2 ^ 64 - 1

structure Sleepq where
  trie : OrdMap Nat Ptr
  bucket : Ptr → List Ptr

namespace Sleepq

def empty : Sleepq := ⟨.empty, fun _ => []⟩

def setBucket (q : Sleepq) (c : Ptr) (l : List Ptr) : Sleepq :=
  { q with bucket := Function.update q.bucket c l }

@[simp] theorem setBucket_trie (q : Sleepq) (c : Ptr) (l : List Ptr) :
    (q.setBucket c l).trie = q.trie := rfl

@[simp] theorem setBucket_self (q : Sleepq) (c : Ptr) (l : List Ptr) :
    (q.setBucket c l).bucket c = l := Function.update_self ..

theorem setBucket_of_ne {q : Sleepq} {c x : Ptr} {l : List Ptr} (h : x ≠ c) :
    (q.setBucket c l).bucket x = q.bucket x := Function.update_of_ne h ..

/-- mirrors src/mnthr.c:287-390; `k` is `ctx->expire_ticks`. A host with a
bucket hands the bucket over to its first member. -/
def remove (q : Sleepq) (k : Nat) (c : Ptr) : Sleepq :=
  if k = SLEEP_UNDEFINED then q
  else match q.trie.find? k with
    | none => q
    | some sle =>
      match q.bucket sle with
      | pretendent :: rest =>
        if sle = c then
          { trie := q.trie.insert k pretendent,
            bucket := Function.update (Function.update q.bucket pretendent rest) sle [] }
        else q.setBucket sle ((q.bucket sle).erase c)
      | [] => if sle = c then { q with trie := q.trie.erase k } else q

/-- mirrors src/mnthr.c:393-435: directly behind the host. -/
def insert (q : Sleepq) (k : Nat) (c : Ptr) : Sleepq :=
  match q.trie.find? k with
  | some host => q.setBucket host (c :: q.bucket host)
  | none => { q with trie := q.trie.insert k c }

/-- mirrors src/mnthr.c:438-468: only the host is compared with `c`. -/
def insertOnce (q : Sleepq) (k : Nat) (c : Ptr) : Sleepq :=
  match q.trie.find? k with
  | some host => if host = c then q else q.setBucket host (c :: q.bucket host)
  | none => q.insert k c

/-- mirrors src/mnthr.c:471-501: at the end of the host's bucket. -/
def append (q : Sleepq) (k : Nat) (c : Ptr) : Sleepq :=
  match q.trie.find? k with
  | some host => q.setBucket host (q.bucket host ++ [c])
  | none => { q with trie := q.trie.insert k c }

/-- `ctx->sleepq_enqueue(ctx)`: `sleepq_insert` for a context with priority,
`sleepq_append` otherwise.
mirrors src/mnthr.c:504-508 -/
def enqueue (q : Sleepq) (prio : Bool) (k : Nat) (c : Ptr) : Sleepq :=
  if prio then q.insert k c else q.append k c

/-! ## What is stored -/

def hosts (q : Sleepq) : List Ptr := q.trie.entries.map Prod.snd

/-- Hosts with their buckets, over a list of trie entries. -/
def flat (bucket : Ptr → List Ptr) (es : List (Nat × Ptr)) : List Ptr :=
  es.flatMap fun e => e.2 :: bucket e.2

def all (q : Sleepq) : List Ptr := flat q.bucket q.trie.entries

/-- `c` is stored under `k`, as host or in the host's bucket. -/
def At (q : Sleepq) (k : Nat) (c : Ptr) : Prop :=
  ∃ h, (k, h) ∈ q.trie.entries ∧ c ∈ h :: q.bucket h

theorem mem_flat {b : Ptr → List Ptr} {es : List (Nat × Ptr)} {c : Ptr} :
    c ∈ flat b es ↔ ∃ k h, (k, h) ∈ es ∧ c ∈ h :: b h := by
  simp [flat]

theorem mem_all {q : Sleepq} {c : Ptr} : c ∈ q.all ↔ ∃ k, q.At k c := by
  rw [all, mem_flat]; rfl

theorem flat_append (b : Ptr → List Ptr) (xs ys : List (Nat × Ptr)) :
    flat b (xs ++ ys) = flat b xs ++ flat b ys := by simp [flat]

theorem flat_cons (b : Ptr → List Ptr) (e : Nat × Ptr) (es : List (Nat × Ptr)) :
    flat b (e :: es) = (e.2 :: b e.2) ++ flat b es := by simp [flat]

theorem flat_congr {b b' : Ptr → List Ptr} {es : List (Nat × Ptr)}
    (h : ∀ e ∈ es, b e.2 = b' e.2) : flat b es = flat b' es := by
  induction es with
  | nil => rfl
  | cons e es ih =>
    rw [flat_cons, flat_cons, h e (List.mem_cons_self ..),
      ih fun x hx => h x (List.mem_cons_of_mem _ hx)]

theorem host_mem_flat {b : Ptr → List Ptr} {es : List (Nat × Ptr)} {e : Nat × Ptr} (h : e ∈ es) :
    e.2 ∈ flat b es := mem_flat.2 ⟨e.1, e.2, h, List.mem_cons_self ..⟩

theorem host_mem_all {q : Sleepq} {h : Ptr} (hh : h ∈ q.hosts) : h ∈ q.all := by
  obtain ⟨e, he, rfl⟩ := List.mem_map.1 hh
  exact host_mem_flat he

/-- Updating the bucket of a context that hosts none of `es` changes nothing there. -/
theorem flat_update_of_notMem {b : Ptr → List Ptr} {es : List (Nat × Ptr)} {c : Ptr} {l : List Ptr}
    (h : ∀ e ∈ es, e.2 ≠ c) : flat (Function.update b c l) es = flat b es :=
  flat_congr fun e he => Function.update_of_ne (h e he) _ _

/-! ## Cutting the queue at a key -/

/-- The queue around a key that is present: everything before, the host with
its bucket, everything after. Without duplicates nothing of the block is a
host elsewhere. -/
theorem zip_of_find {q : Sleepq} {k : Nat} {h : Ptr} (hf : q.trie.find? k = some h)
    (hn : q.all.Nodup) :
    ∃ xs ys, q.trie.entries = xs ++ (k, h) :: ys ∧ (q.trie.erase k).entries = xs ++ ys ∧
      (∀ b, (q.trie.insert k b).entries = xs ++ (k, b) :: ys) ∧
      q.all = flat q.bucket xs ++ (h :: q.bucket h ++ flat q.bucket ys) ∧
      (∀ c ∈ h :: q.bucket h, ∀ e ∈ xs ++ ys, c ∉ e.2 :: q.bucket e.2) := by
  obtain ⟨xs, ys, he, hr, hi⟩ := OrdMap.find?_some_zip hf
  have hall : q.all = flat q.bucket xs ++ (h :: q.bucket h ++ flat q.bucket ys) := by
    rw [all, he, flat_append, flat_cons]
  refine ⟨xs, ys, he, hr, hi, hall, ?_⟩
  intro c hc e hm hce
  rw [hall, List.nodup_append] at hn
  obtain ⟨-, h2, h3⟩ := hn
  rw [List.nodup_append] at h2
  rcases List.mem_append.1 hm with hm | hm
  · exact h3 c (mem_flat.2 ⟨e.1, e.2, hm, hce⟩) c (List.mem_append_left _ hc) rfl
  · exact h2.2.2 c hc c (mem_flat.2 ⟨e.1, e.2, hm, hce⟩) rfl

/-- A context is stored under one key only. -/
theorem at_unique {q : Sleepq} {k k' : Nat} {c : Ptr} (hn : q.all.Nodup) (h : q.At k c)
    (h' : q.At k' c) : k' = k := by
  obtain ⟨a, ha, hc⟩ := h
  obtain ⟨b, hb, hc'⟩ := h'
  obtain ⟨xs, ys, he, -, -, -, hne⟩ := zip_of_find (OrdMap.mem_entries_iff.1 ha) hn
  rw [he] at hb
  simp only [List.mem_append, List.mem_cons, Prod.mk.injEq] at hb
  rcases hb with hb | hb | hb
  · exact absurd hc' (hne c hc (k', b) (List.mem_append_left _ hb))
  · exact hb.1
  · exact absurd hc' (hne c hc (k', b) (List.mem_append_right _ hb))

/-! ## Enqueueing -/

section Enqueue
variable {q : Sleepq} {k : Nat} {c : Ptr}

/-- Both ways of enqueueing, seen from outside: on a missing key `c` becomes
the host; on a present one its host's bucket gains `c` and nothing else changes. -/
theorem enqueue_cases (q : Sleepq) (prio : Bool) (k : Nat) (c : Ptr) :
    (q.trie.find? k = none ∧ q.enqueue prio k c = { q with trie := q.trie.insert k c }) ∨
    ∃ h l, q.trie.find? k = some h ∧ l.Perm (c :: q.bucket h) ∧
      q.enqueue prio k c = q.setBucket h l := by
  unfold enqueue insert append
  cases hf : q.trie.find? k with
  | none => left; cases prio <;> simp
  | some h =>
    right
    cases prio
    · exact ⟨h, q.bucket h ++ [c], rfl, List.perm_append_comm, by simp⟩
    · exact ⟨h, c :: q.bucket h, rfl, List.Perm.refl _, by simp⟩

theorem enqueue_perm (prio : Bool) (hn : q.all.Nodup) (hb : q.bucket c = []) :
    (q.enqueue prio k c).all.Perm (c :: q.all) := by
  rcases enqueue_cases q prio k c with ⟨hf, he⟩ | ⟨h, l, hf, hl, he⟩
  · obtain ⟨xs, ys, hE, hI⟩ := OrdMap.find?_none_zip hf
    rw [he, all, all, hI, hE, flat_append, flat_append, flat_cons]
    simp only [hb]
    exact List.perm_middle
  · obtain ⟨xs, ys, hE, -, -, hall, hne⟩ := zip_of_find hf hn
    have hxy : ∀ e ∈ xs ++ ys, e.2 ≠ h := fun e hm heq =>
      hne h (List.mem_cons_self ..) e hm (by simp [heq])
    have hx : flat (Function.update q.bucket h l) xs = flat q.bucket xs :=
      flat_update_of_notMem fun e hm => hxy e (List.mem_append_left _ hm)
    have hy : flat (Function.update q.bucket h l) ys = flat q.bucket ys :=
      flat_update_of_notMem fun e hm => hxy e (List.mem_append_right _ hm)
    have hm : (h :: l).Perm (c :: h :: q.bucket h) := (hl.cons h).trans (List.Perm.swap c h _)
    rw [he, hall, all, setBucket]
    simp only [hE, flat_append, flat_cons, hx, hy, Function.update_self]
    exact ((hm.append_right _).append_left _).trans List.perm_middle

theorem mem_enqueue (prio : Bool) (hn : q.all.Nodup) (hb : q.bucket c = []) {x : Ptr} :
    x ∈ (q.enqueue prio k c).all ↔ x = c ∨ x ∈ q.all := by
  rw [(enqueue_perm prio hn hb).mem_iff, List.mem_cons]

theorem at_enqueue (prio : Bool) (hn : q.all.Nodup) (hb : q.bucket c = []) {k' : Nat} {x : Ptr}
    (h : (q.enqueue prio k c).At k' x) : (k' = k ∧ x = c) ∨ q.At k' x := by
  obtain ⟨y, hy, hx⟩ := h
  rcases enqueue_cases q prio k c with ⟨hf, he⟩ | ⟨h, l, hf, hl, he⟩
  · rw [he] at hy hx
    rcases OrdMap.mem_insertL hy with h | h
    · cases h; left; simpa [hb] using hx
    · exact .inr ⟨y, h, hx⟩
  · rw [he] at hy hx
    by_cases hyh : y = h
    · subst hyh
      have hk : k' = k := at_unique hn ⟨y, OrdMap.mem_entries_iff.2 hf, List.mem_cons_self ..⟩
        ⟨y, hy, List.mem_cons_self ..⟩
      simp only [setBucket, Function.update_self, List.mem_cons, hl.mem_iff] at hx
      rcases hx with rfl | rfl | hx
      · exact .inr ⟨x, hy, List.mem_cons_self ..⟩
      · exact .inl ⟨hk, rfl⟩
      · exact .inr ⟨y, hy, List.mem_cons_of_mem _ hx⟩
    · simp only [setBucket, Function.update_of_ne hyh] at hx
      exact .inr ⟨y, hy, hx⟩

/-- The context just enqueued is stored, whatever the queue was. -/
theorem at_enqueue_self (prio : Bool) : (q.enqueue prio k c).At k c := by
  rcases enqueue_cases q prio k c with ⟨hf, he⟩ | ⟨h, l, hf, hl, he⟩
  · obtain ⟨xs, ys, -, hI⟩ := OrdMap.find?_none_zip hf
    rw [he]
    exact ⟨c, by rw [hI]; simp, List.mem_cons_self ..⟩
  · rw [he]
    refine ⟨h, OrdMap.mem_entries_iff.2 hf, List.mem_cons_of_mem _ ?_⟩
    simp [setBucket, hl.mem_iff]

theorem enqueue_bucket (prio : Bool) {x : Ptr} (hx : x ∉ q.all) :
    (q.enqueue prio k c).bucket x = q.bucket x := by
  rcases enqueue_cases q prio k c with ⟨-, he⟩ | ⟨h, l, hf, -, he⟩
  · rw [he]
  · rw [he]
    refine Function.update_of_ne ?_ _ _
    intro heq
    subst heq
    exact hx (mem_all.2 ⟨k, x, OrdMap.mem_entries_iff.2 hf, List.mem_cons_self ..⟩)

end Enqueue

/-! ## Removing -/

section Remove
variable {q : Sleepq} {k : Nat} {c : Ptr}

theorem remove_of_notMem (hc : c ∉ q.all) : q.remove k c = q := by
  unfold remove
  split
  · rfl
  · split
    · rfl
    · rename_i sle hf
      have hin : (k, sle) ∈ q.trie.entries := OrdMap.mem_entries_iff.2 hf
      have hne : sle ≠ c := fun he => hc (mem_all.2 ⟨k, sle, hin, by simp [he]⟩)
      have hnb : c ∉ q.bucket sle := fun h => hc (mem_all.2 ⟨k, sle, hin, by simp [h]⟩)
      split
      · rw [if_neg hne, setBucket, List.erase_of_not_mem hnb, Function.update_eq_self]
      · rw [if_neg hne]

theorem insertOnce_of_notMem (hc : c ∉ q.all) : q.insertOnce k c = q.enqueue true k c := by
  unfold insertOnce enqueue insert
  cases hf : q.trie.find? k with
  | none => simp
  | some h =>
    have hne : h ≠ c := fun he =>
      hc (mem_all.2 ⟨k, h, OrdMap.mem_entries_iff.2 hf, by simp [he]⟩)
    simp [hne]

/-- What removing a stored context does to the block of its key: the block
loses `c`, and every other bucket stays. -/
theorem remove_cases (hn : q.all.Nodup) (hk : k ≠ SLEEP_UNDEFINED) (hc : q.At k c) :
    ∃ xs ys h, q.trie.entries = xs ++ (k, h) :: ys ∧ c ∈ h :: q.bucket h ∧
      (∀ e ∈ xs ++ ys, e.2 ∉ h :: q.bucket h) ∧
      ((q.bucket h = [] ∧ c = h ∧ q.remove k c = { q with trie := q.trie.erase k } ∧
          (q.trie.erase k).entries = xs ++ ys) ∨
        (∃ p rest, q.bucket h = p :: rest ∧ c = h ∧ p ≠ h ∧
          q.remove k c = ⟨q.trie.insert k p,
            Function.update (Function.update q.bucket p rest) h []⟩ ∧
          (q.trie.insert k p).entries = xs ++ (k, p) :: ys) ∨
        (c ≠ h ∧ c ∈ q.bucket h ∧ q.remove k c = q.setBucket h ((q.bucket h).erase c))) := by
  obtain ⟨h, hin, hmem⟩ := hc
  have hf := OrdMap.mem_entries_iff.1 hin
  obtain ⟨xs, ys, he, hr, hi, hall, hne⟩ := zip_of_find hf hn
  have hb : (h :: q.bucket h).Nodup := by
    rw [hall, List.nodup_append] at hn
    exact (List.nodup_append.1 hn.2.1).1
  refine ⟨xs, ys, h, he, hmem, fun e hm hx => hne e.2 hx e hm (List.mem_cons_self ..), ?_⟩
  unfold remove
  rw [if_neg hk]
  simp only [hf]
  cases hbk : q.bucket h with
  | nil =>
    left
    have hch : c = h := by simpa [hbk] using hmem
    exact ⟨rfl, hch, by simp [hch], hr⟩
  | cons p rest =>
    right
    rw [hbk] at hb
    by_cases hch : c = h
    · left
      refine ⟨p, rest, rfl, hch, ?_, by simp [hch], hi p⟩
      intro heq
      subst heq
      simp at hb
    · right
      refine ⟨hch, by simpa [hbk, hch] using hmem, ?_⟩
      have hhc : ¬ h = c := fun e => hch e.symm
      simp only [hhc, if_false]

theorem remove_perm (hn : q.all.Nodup) (hk : k ≠ SLEEP_UNDEFINED) (hc : q.At k c) :
    q.all.Perm (c :: (q.remove k c).all) := by
  obtain ⟨xs, ys, h, he, hmem, hne, hcase⟩ := remove_cases hn hk hc
  have hall : q.all = flat q.bucket xs ++ ((h :: q.bucket h) ++ flat q.bucket ys) := by
    rw [all, he, flat_append, flat_cons]
  have hx : ∀ {a : Ptr} {l : List Ptr} {b : Ptr → List Ptr}, a ∈ h :: q.bucket h →
      flat (Function.update b a l) xs = flat b xs := fun ha =>
    flat_update_of_notMem fun e hm heq => hne e (List.mem_append_left _ hm) (heq ▸ ha)
  have hy : ∀ {a : Ptr} {l : List Ptr} {b : Ptr → List Ptr}, a ∈ h :: q.bucket h →
      flat (Function.update b a l) ys = flat b ys := fun ha =>
    flat_update_of_notMem fun e hm heq => hne e (List.mem_append_right _ hm) (heq ▸ ha)
  rw [hall]
  rcases hcase with ⟨hb, rfl, hr, hE⟩ | ⟨p, rest, hb, rfl, hp, hr, hE⟩ | ⟨hch, hin, hr⟩
  · rw [hr, all, hE, flat_append, hb]
    exact List.perm_middle
  · have h1 : p ∈ c :: q.bucket c := by simp [hb]
    have h0 : c ∈ c :: q.bucket c := List.mem_cons_self ..
    rw [hr, all]
    simp only [hE, flat_append, flat_cons, hx h0, hy h0, hx h1, hy h1,
      Function.update_of_ne hp, Function.update_self, hb]
    exact List.perm_middle
  · have h0 : h ∈ h :: q.bucket h := List.mem_cons_self ..
    rw [hr, all, setBucket]
    simp only [he, flat_append, flat_cons, hx h0, hy h0, Function.update_self]
    have hp : (h :: q.bucket h).Perm (c :: h :: (q.bucket h).erase c) :=
      ((List.perm_cons_erase hin).cons h).trans (List.Perm.swap c h _)
    exact ((hp.append_right _).append_left _).trans List.perm_middle

theorem mem_remove (hn : q.all.Nodup) (hk : k ≠ SLEEP_UNDEFINED) (hc : q.At k c) {x : Ptr} :
    x ∈ (q.remove k c).all ↔ x ∈ q.all ∧ x ≠ c := by
  have hp := remove_perm hn hk hc
  have hnd : (c :: (q.remove k c).all).Nodup := hp.nodup_iff.1 hn
  rw [hp.mem_iff, List.mem_cons]
  constructor
  · intro h; exact ⟨.inr h, fun e => (List.nodup_cons.1 hnd).1 (e ▸ h)⟩
  · rintro ⟨h | h, hne⟩
    · exact absurd h hne
    · exact h

theorem at_remove (hn : q.all.Nodup) (hk : k ≠ SLEEP_UNDEFINED) (hc : q.At k c) {k' : Nat}
    {x : Ptr} (h : (q.remove k c).At k' x) : q.At k' x := by
  obtain ⟨y, hy, hx⟩ := h
  obtain ⟨xs, ys, h, he, -, hne, hcase⟩ := remove_cases hn hk hc
  rcases hcase with ⟨hb, rfl, hr, hE⟩ | ⟨p, rest, hb, rfl, hp, hr, hE⟩ | ⟨hch, hin, hr⟩
  · rw [hr] at hy hx
    simp only [hE] at hy
    exact ⟨y, by rw [he]; simp only [List.mem_append, List.mem_cons] at hy ⊢; tauto, hx⟩
  · rw [hr] at hy hx
    simp only [hE, List.mem_append, List.mem_cons, Prod.mk.injEq] at hy
    by_cases hyp : y = p
    · subst hyp
      have hkk : k' = k := by
        rcases hy with hy | hy | hy
        · exact absurd (show y ∈ c :: q.bucket c by simp [hb])
            (hne (k', y) (List.mem_append_left _ hy))
        · exact hy.1
        · exact absurd (show y ∈ c :: q.bucket c by simp [hb])
            (hne (k', y) (List.mem_append_right _ hy))
      simp only [Function.update_of_ne hp, Function.update_self] at hx
      exact ⟨c, by rw [he, hkk]; simp, by simp only [hb]; exact List.mem_cons_of_mem _ hx⟩
    · have hyc : y ≠ c := by
        intro heq
        subst heq
        rcases hy with hy | hy | hy
        · exact hne (k', y) (List.mem_append_left _ hy) (List.mem_cons_self ..)
        · exact hyp hy.2
        · exact hne (k', y) (List.mem_append_right _ hy) (List.mem_cons_self ..)
      simp only [Function.update_of_ne hyc, Function.update_of_ne hyp] at hx
      exact ⟨y, by rw [he]; simp only [List.mem_append, List.mem_cons, Prod.mk.injEq]; tauto, hx⟩
  · rw [hr] at hy hx
    refine ⟨y, hy, ?_⟩
    by_cases hyh : y = h
    · subst hyh
      simp only [setBucket, Function.update_self, List.mem_cons] at hx ⊢
      exact hx.imp id List.mem_of_mem_erase
    · simpa only [setBucket, Function.update_of_ne hyh] using hx

theorem remove_bucket (hn : q.all.Nodup) (hk : k ≠ SLEEP_UNDEFINED) (hc : q.At k c) {x : Ptr}
    (hx : x ∉ q.all) : (q.remove k c).bucket x = q.bucket x := by
  obtain ⟨xs, ys, h, he, -, -, hcase⟩ := remove_cases hn hk hc
  have hin : ∀ y ∈ h :: q.bucket h, x ≠ y := fun y hy e =>
    hx (e ▸ mem_all.2 ⟨k, h, by simp [he], hy⟩)
  rcases hcase with ⟨-, -, hr, -⟩ | ⟨p, rest, hb, -, -, hr, -⟩ | ⟨-, -, hr⟩
  · rw [hr]
  · rw [hr]
    simp only [Function.update_of_ne (hin h (by simp)), Function.update_of_ne (hin p (by simp [hb]))]
  · rw [hr, setBucket_of_ne (hin h (by simp))]

end Remove

/-! ## Buckets belong to hosts -/

/-- Only hosts, and the contexts of `extra`, have a bucket. -/
def Hosted (q : Sleepq) (extra : List Ptr) : Prop :=
  ∀ c, q.bucket c ≠ [] → c ∈ q.hosts ∨ c ∈ extra

theorem Hosted.enqueue {q : Sleepq} {extra : List Ptr} (h : q.Hosted extra) (prio : Bool) (k : Nat)
    (c : Ptr) : (q.enqueue prio k c).Hosted extra := by
  intro x hx
  rcases enqueue_cases q prio k c with ⟨hf, he⟩ | ⟨y, l, hf, -, he⟩
  · obtain ⟨xs, ys, hE, hI⟩ := OrdMap.find?_none_zip hf
    rw [he] at hx ⊢
    refine (h x hx).imp (fun hm => ?_) id
    simp only [hosts, hI, hE, List.map_append, List.map_cons, List.mem_append, List.mem_cons] at hm ⊢
    tauto
  · rw [he] at hx ⊢
    by_cases hxy : x = y
    · subst hxy
      exact .inl (List.mem_map.2 ⟨(k, x), OrdMap.mem_entries_iff.2 hf, rfl⟩)
    · rw [setBucket_of_ne hxy] at hx
      exact h x hx

theorem Hosted.remove {q : Sleepq} {extra : List Ptr} {k : Nat} {c : Ptr} (h : q.Hosted extra)
    (hn : q.all.Nodup) (hk : k ≠ SLEEP_UNDEFINED) (hc : q.At k c) :
    (q.remove k c).Hosted extra := by
  intro x hx
  obtain ⟨xs, ys, y, he, -, -, hcase⟩ := remove_cases hn hk hc
  have hosts_eq : q.hosts = xs.map Prod.snd ++ y :: ys.map Prod.snd := by simp [hosts, he]
  rcases hcase with ⟨hb, rfl, hr, hE⟩ | ⟨p, rest, hb, rfl, hp, hr, hE⟩ | ⟨hch, hin, hr⟩
  · rw [hr] at hx ⊢
    have hxc : x ≠ c := by intro heq; subst heq; exact hx hb
    refine (h x hx).imp (fun hm => ?_) id
    rw [hosts_eq] at hm
    simp only [hosts, hE, List.map_append, List.mem_append, List.mem_cons] at hm ⊢
    tauto
  · rw [hr] at hx ⊢
    have hxc : x ≠ c := by intro heq; subst heq; simp at hx
    by_cases hxp : x = p
    · subst hxp; left; simp [hosts, hE]
    · simp only [Function.update_of_ne hxc, Function.update_of_ne hxp] at hx
      refine (h x hx).imp (fun hm => ?_) id
      rw [hosts_eq] at hm
      simp only [hosts, hE, List.map_append, List.map_cons, List.mem_append, List.mem_cons] at hm ⊢
      tauto
  · rw [hr] at hx ⊢
    by_cases hxy : x = y
    · subst hxy; left; simp [hosts, setBucket, he]
    · rw [setBucket_of_ne hxy] at hx
      exact h x hx

/-- A context that is stored nowhere has an empty bucket. -/
theorem Hosted.bucket_nil {q : Sleepq} {extra : List Ptr} (h : q.Hosted extra) {c : Ptr}
    (hc : c ∉ q.all) (he : c ∉ extra) : q.bucket c = [] := by
  by_contra hne
  rcases h c hne with hm | hm
  · exact hc (host_mem_all hm)
  · exact he hm

end Sleepq
end Mnthr
