import Mnthr.L4Inv.Multimap

/-!
# The sleep queue while a sift is going on

`poller_sift_sleepq` takes the expired hosts out of the trie and resumes them
one after the other, each with the bucket it has when its turn comes
(src/poller.c:124-232). Meanwhile the threads put themselves and others into
the same trie, and the buckets of its hosts change.

`Sleepq.Apart` keeps the two apart: nothing of the batch is in the trie or in
the bucket of anybody else, so the operations cannot reach it. `Sleepq.Parted`
is what is left of the order of the trie when a thread may sleep until a
deadline that overflows to `MNTHR_SLEEP_UNDEFINED`: a context under that key is
never removed, and is filed under `MNTHR_SLEEP_RESUME_NOW` a second time, but
the later keys are in order.
-/
namespace Mnthr
open St

namespace Sleepq

/-- Nothing is in the batch twice, and nothing of it is in the trie or in a
bucket that is not the batch's. -/
structure Apart (q : Sleepq) (tmp runq : List Ptr) : Prop where
  nodup : (q.batch tmp runq).Nodup
  hosts : ∀ k h, q.trie.find? k = some h → h ∉ q.batch tmp runq
  buckets : ∀ c, c ∉ runq → ∀ x ∈ q.bucket c, x ∉ q.batch tmp runq

/-- Behind `MNTHR_SLEEP_RESUME_NOW` every context is stored once, under its own
`expire_ticks`. -/
structure Parted (q : Sleepq) (runq : List Ptr) (key : Ptr → Nat) : Prop where
  filed : ∀ k c, q.At k c → key c = k ∨ (k ≤ SLEEP_RESUME_NOW ∧ key c ≤ SLEEP_RESUME_NOW)
  once : ∀ k, SLEEP_RESUME_NOW < k → (q.view k).Nodup
  hosted : q.Hosted runq

theorem at_iff {q : Sleepq} {k : Nat} {c : Ptr} :
    q.At k c ↔ ∃ h, q.trie.find? k = some h ∧ c ∈ h :: q.bucket h := by
  simp only [At, OrdMap.mem_entries_iff]

/-- What `sleepq_remove` does, whatever is stored: nothing, or the host hands
its bucket over, or the last one of a key leaves it, or the bucket loses `c`. -/
theorem remove_shape (q : Sleepq) (k : Nat) (c : Ptr) :
    (q.remove k c = q ∧ (k ≠ SLEEP_UNDEFINED → ¬ q.At k c)) ∨
    (∃ p rest, q.trie.find? k = some c ∧ q.bucket c = p :: rest ∧ q.remove k c =
      ⟨q.trie.insert k p, Function.update (Function.update q.bucket p rest) c []⟩) ∨
    (q.trie.find? k = some c ∧ q.bucket c = [] ∧ q.remove k c = { q with trie := q.trie.erase k }) ∨
    (∃ h, q.trie.find? k = some h ∧ c ≠ h ∧ q.remove k c = q.setBucket h ((q.bucket h).erase c)) := by
  unfold remove
  split
  · exact .inl ⟨rfl, fun h => absurd ‹_› h⟩
  · cases hf : q.trie.find? k with
    | none => exact .inl ⟨rfl, fun _ hc => by simp [at_iff, hf] at hc⟩
    | some h =>
      by_cases hhc : h = c
      · subst hhc
        cases hb : q.bucket h with
        | nil => exact .inr (.inr (.inl ⟨rfl, rfl, by simp [hb]⟩))
        | cons p rest => exact .inr (.inl ⟨p, rest, rfl, rfl, by simp [hb]⟩)
      · refine .inr (.inr (.inr ⟨h, rfl, Ne.symm hhc, ?_⟩))
        cases hb : q.bucket h with
        | nil =>
          have hself : q.setBucket h [] = q := by rw [← hb]; simp [setBucket]
          simp [hb, hhc, hself]
        | cons p rest => simp [hb, hhc]

namespace Apart
variable {q : Sleepq} {tmp runq : List Ptr} {c : Ptr}

theorem notMem (h : q.Apart tmp runq) (hc : c ∈ q.all) : c ∉ q.batch tmp runq := by
  obtain ⟨k, hat⟩ := mem_all.1 hc
  obtain ⟨x, hf, hx⟩ := at_iff.1 hat
  have hh := h.hosts k x hf
  rcases List.mem_cons.1 hx with rfl | hx
  · exact hh
  · exact h.buckets x (fun hr => hh (mem_batch_of_runq hr)) c hx

/-- A change of buckets outside the batch leaves the batch alone. -/
theorem congr {q' : Sleepq} (h : q.Apart tmp runq) (hr : ∀ x ∈ runq, q'.bucket x = q.bucket x)
    (hh : ∀ k x, q'.trie.find? k = some x → x ∉ q.batch tmp runq)
    (hb : ∀ x, x ∉ runq → ∀ y ∈ q'.bucket x, y ∉ q.batch tmp runq) :
    q'.Apart tmp runq ∧ q'.batch tmp runq = q.batch tmp runq := by
  have he : q'.batch tmp runq = q.batch tmp runq := batch_congr hr
  exact ⟨⟨he ▸ h.nodup, by rwa [he], by rwa [he]⟩, he⟩

theorem enqueue (h : q.Apart tmp runq) (hc : c ∉ q.batch tmp runq) (prio : Bool) (k : Nat) :
    (q.enqueue prio k c).Apart tmp runq ∧
      (q.enqueue prio k c).batch tmp runq = q.batch tmp runq := by
  rcases enqueue_cases q prio k c with ⟨-, he⟩ | ⟨x, l, hf, hl, he⟩
  · rw [he]
    refine h.congr (fun _ _ => rfl) (fun k' y hy => ?_) h.buckets
    rw [OrdMap.find?_insert] at hy
    split at hy
    · cases hy; exact hc
    · exact h.hosts k' y hy
  · rw [he]
    have hx := h.hosts k x hf
    have hxr : x ∉ runq := fun hr => hx (mem_batch_of_runq hr)
    refine h.congr (fun y hy => setBucket_of_ne fun e => hxr (e ▸ hy)) h.hosts fun y hy z hz => ?_
    by_cases hyx : y = x
    · subst hyx
      rw [setBucket_self, hl.mem_iff] at hz
      rcases List.mem_cons.1 hz with rfl | hz
      · exact hc
      · exact h.buckets y hy z hz
    · rw [setBucket_of_ne hyx] at hz
      exact h.buckets y hy z hz

theorem remove (h : q.Apart tmp runq) (k : Nat) (c : Ptr) :
    (q.remove k c).Apart tmp runq ∧ (q.remove k c).batch tmp runq = q.batch tmp runq := by
  have outside : ∀ {x}, q.trie.find? k = some x → x ∉ runq := fun hf hr =>
    h.hosts k _ hf (mem_batch_of_runq hr)
  rcases remove_shape q k c with ⟨he, -⟩ | ⟨p, rest, hf, hb, he⟩ | ⟨hf, hb, he⟩ | ⟨x, hf, -, he⟩
  · rw [he]; exact ⟨h, rfl⟩
  · have hcr := outside hf
    have hp : ∀ y ∈ q.bucket c, y ∉ q.batch tmp runq := h.buckets c hcr
    have hpr : p ∉ runq := fun hr => hp p (by simp [hb]) (mem_batch_of_runq hr)
    rw [he]
    refine h.congr (fun y hy => ?_) (fun k' y hy => ?_) fun y hy z hz => ?_
    · have h1 : y ≠ c := fun e => hcr (e ▸ hy)
      have h2 : y ≠ p := fun e => hpr (e ▸ hy)
      simp only [Function.update_of_ne h1, Function.update_of_ne h2]
    · simp only [OrdMap.find?_insert] at hy
      split at hy
      · cases hy; exact hp p (by simp [hb])
      · exact h.hosts k' y hy
    · by_cases hyc : y = c
      · subst hyc; simp at hz
      · simp only [Function.update_of_ne hyc] at hz
        by_cases hyp : y = p
        · subst hyp
          rw [Function.update_self] at hz
          exact hp z (by simp [hb, hz])
        · rw [Function.update_of_ne hyp] at hz
          exact h.buckets y hy z hz
  · rw [he]
    refine h.congr (fun _ _ => rfl) (fun k' y hy => ?_) h.buckets
    rw [OrdMap.find?_erase hf] at hy
    split at hy
    · cases hy
    · exact h.hosts k' y hy
  · have hxr := outside hf
    rw [he]
    refine h.congr (fun y hy => setBucket_of_ne fun e => hxr (e ▸ hy)) h.hosts fun y hy z hz => ?_
    by_cases hyx : y = x
    · subst hyx
      rw [setBucket_self] at hz
      exact h.buckets y hy z (List.mem_of_mem_erase hz)
    · rw [setBucket_of_ne hyx] at hz
      exact h.buckets y hy z hz

theorem popTmp {rest : List Ptr} (h : q.Apart (c :: rest) runq) :
    q.Apart rest runq ∧ c ∉ q.batch rest runq := by
  have hn := h.nodup
  rw [show q.batch (c :: rest) runq = c :: q.batch rest runq from rfl, List.nodup_cons] at hn
  exact ⟨⟨hn.2, fun k x hf hm => h.hosts k x hf (List.mem_cons_of_mem _ hm),
    fun x hx y hy hm => h.buckets x hx y hy (List.mem_cons_of_mem _ hm)⟩, hn.1⟩

theorem popRunq {rest : List Ptr} (h : q.Apart [] (c :: rest)) :
    (q.setBucket c []).Apart (q.bucket c) rest ∧
      q.batch [] (c :: rest) = c :: (q.setBucket c []).batch (q.bucket c) rest := by
  have hn := h.nodup
  have hcons : q.batch [] (c :: rest) = c :: q.batch (q.bucket c) rest := by simp [batch]
  rw [hcons, List.nodup_cons] at hn
  have hcr : c ∉ rest := fun hm => hn.1 (mem_batch_of_runq hm)
  have he : (q.setBucket c []).batch (q.bucket c) rest = q.batch (q.bucket c) rest :=
    batch_congr fun x hx => setBucket_of_ne fun e => hcr (e ▸ hx)
  have hsub : ∀ x ∈ q.batch (q.bucket c) rest, x ∈ q.batch [] (c :: rest) := fun x hx => by
    rw [hcons]; exact List.mem_cons_of_mem _ hx
  refine ⟨⟨by rw [he]; exact hn.2, fun k x hf hm => ?_, fun x hx y hy hm => ?_⟩, by rw [he, hcons]⟩
  · rw [he] at hm
    exact h.hosts k x hf (hsub x hm)
  · rw [he] at hm
    by_cases hxc : x = c
    · subst hxc; simp at hy
    · rw [setBucket_of_ne hxc] at hy
      exact h.buckets x (by simp [hxc, hx]) y hy (hsub y hm)

end Apart

namespace Parted
variable {q : Sleepq} {runq : List Ptr} {key : Ptr → Nat} {c : Ptr}

/-- Behind `MNTHR_SLEEP_RESUME_NOW`, a context is under one key. -/
theorem unique (h : q.Parted runq key) {k k' : Nat} {x : Ptr} (hk : SLEEP_RESUME_NOW < k)
    (hx : q.At k x) (hx' : q.At k' x) : k' = k := by
  have h1 := h.filed k x hx
  have h2 := h.filed k' x hx'
  omega

/-- A context whose key is not its `expire_ticks` is under one of the two
reserved keys. -/
theorem low (h : q.Parted runq key) {k : Nat} {x : Ptr} (hx : q.At k x) (hne : key x ≠ k) :
    k ≤ SLEEP_RESUME_NOW := (h.filed k x hx).elim (fun e => absurd e hne) And.left

/-- Contexts that share a bucket, under two keys. -/
theorem shared (h : q.Parted runq key) {k k' : Nat} {x : Ptr} (hx : q.At k x) (hx' : q.At k' x)
    (hne : k' ≠ k) : k ≤ SLEEP_RESUME_NOW ∧ k' ≤ SLEEP_RESUME_NOW := by
  constructor <;> by_contra hk
  · exact hne (h.unique (by omega) hx hx')
  · exact hne (h.unique (by omega) hx' hx).symm

theorem view_remove (h : q.Parted runq key) {k : Nat} (hk : SLEEP_RESUME_NOW < k) (c : Ptr) :
    (q.remove (key c) c).view k = (q.view k).erase c := by
  have absent : key c ≠ k → (q.view k).erase c = q.view k := fun hne =>
    List.erase_of_not_mem fun hm => absurd (h.low (mem_view.1 hm) hne) (by omega)
  rcases remove_shape q (key c) c with ⟨he, hn⟩ | ⟨p, rest, hf, hb, he⟩ | ⟨hf, hb, he⟩ |
    ⟨x, hf, hcx, he⟩
  · rw [he]
    by_cases hck : key c = k
    · refine (List.erase_of_not_mem fun hm => hn ?_ (hck ▸ mem_view.1 hm)).symm
      rw [hck, SLEEP_UNDEFINED]
      omega
    · exact (absent hck).symm
  · have hat : ∀ y ∈ c :: p :: rest, q.At (key c) y := fun y hy => at_iff.2 ⟨c, hf, hb ▸ hy⟩
    rw [he]
    by_cases hck : key c = k
    · rw [hck] at hf
      have hone := h.once k hk
      rw [view_of_find hf, hb] at hone ⊢
      have hpc : p ≠ c := fun e => (List.nodup_cons.1 hone).1 (by simp [e])
      rw [hck, view_of_find (h := p) (by simp [OrdMap.find?_insert]), List.erase_cons_head]
      simp [hpc]
    · rw [absent hck]
      unfold view
      simp only [OrdMap.find?_insert, Ne.symm hck, if_false]
      cases hf' : q.trie.find? k with
      | none => rfl
      | some y =>
        have hy : q.At k y := at_iff.2 ⟨y, hf', List.mem_cons_self ..⟩
        have ne : ∀ z ∈ c :: p :: rest, y ≠ z := fun z hz e =>
          hck (h.unique hk hy (e ▸ hat z hz))
        simp only [Function.update_of_ne (ne c (by simp)), Function.update_of_ne (ne p (by simp))]
  · rw [he]
    unfold view
    simp only [OrdMap.find?_erase hf]
    by_cases hck : k = key c
    · rw [← hck] at hf
      simp [hck ▸ hf, hck, hb]
    · rw [if_neg hck]
      exact (absent (Ne.symm hck)).symm
  · rw [he]
    by_cases hck : key c = k
    · rw [hck] at hf
      rw [view_of_find hf, view_of_find (q := q.setBucket x _) hf, setBucket_self,
        List.erase_cons_tail (by simpa using Ne.symm hcx)]
    · rw [absent hck]
      unfold view
      rw [setBucket_trie]
      cases hf' : q.trie.find? k with
      | none => rfl
      | some y =>
        have hyx : y ≠ x := fun e => hck (h.unique hk (at_iff.2 ⟨y, hf', List.mem_cons_self ..⟩)
          (at_iff.2 ⟨x, hf, by simp [e]⟩))
        simp only [setBucket_of_ne hyx]

theorem at_remove (h : q.Parted runq key) {k : Nat} {x : Ptr} (hx : (q.remove (key c) c).At k x) :
    q.At k x ∨ (k ≤ SLEEP_RESUME_NOW ∧ ∃ k', k' ≤ SLEEP_RESUME_NOW ∧ q.At k' x) := by
  obtain ⟨y, hy, hxy⟩ := at_iff.1 hx
  rcases remove_shape q (key c) c with ⟨he, -⟩ | ⟨p, rest, hf, hb, he⟩ | ⟨hf, hb, he⟩ |
    ⟨z, hf, -, he⟩
  · rw [he] at hx; exact .inl hx
  · have hat : ∀ w ∈ c :: p :: rest, q.At (key c) w := fun w hw => at_iff.2 ⟨c, hf, hb ▸ hw⟩
    rw [he] at hy hxy
    have hyk : q.At k y := by
      rw [OrdMap.find?_insert] at hy
      split at hy
      · rename_i hk
        have hpy : p = y := Option.some.inj hy
        rw [hk, ← hpy]
        exact hat p (by simp)
      · exact at_iff.2 ⟨y, hy, List.mem_cons_self ..⟩
    rcases List.mem_cons.1 hxy with rfl | hxy
    · exact .inl hyk
    · by_cases hyc : y = c
      · subst hyc; simp at hxy
      · by_cases hyp : y = p
        · -- the bucket that `p` takes over shows under each key that `p` is host of
          subst hyp
          have hx' : q.At (key c) x := hat x (by
            simp only [Function.update_of_ne hyc, Function.update_self] at hxy
            simp [hxy])
          by_cases hk : k = key c
          · exact .inl (hk ▸ hx')
          · have := h.shared (hat y (by simp)) hyk hk
            exact .inr ⟨this.2, key c, this.1, hx'⟩
        · simp only [Function.update_of_ne hyc, Function.update_of_ne hyp] at hxy
          rw [OrdMap.find?_insert] at hy
          split at hy
          · cases hy; exact absurd rfl hyp
          · exact .inl (at_iff.2 ⟨y, hy, List.mem_cons_of_mem _ hxy⟩)
  · rw [he] at hy hxy
    rw [OrdMap.find?_erase hf] at hy
    split at hy
    · cases hy
    · exact .inl (at_iff.2 ⟨y, hy, hxy⟩)
  · rw [he] at hy hxy
    refine .inl (at_iff.2 ⟨y, hy, ?_⟩)
    by_cases hyz : y = z
    · subst hyz
      rw [setBucket_self] at hxy
      exact (List.mem_cons.1 hxy).elim (fun e => by simp [e])
        fun hm => List.mem_cons_of_mem _ (List.mem_of_mem_erase hm)
    · rwa [setBucket_of_ne hyz] at hxy

theorem mem_hosts {h : Ptr} : h ∈ q.hosts ↔ ∃ k, q.trie.find? k = some h := by
  simp [hosts, OrdMap.mem_entries_iff]

theorem hosted_remove (h : q.Hosted runq) (k : Nat) (c : Ptr) : (q.remove k c).Hosted runq := by
  intro y hy
  have keep : ∀ {t : OrdMap Nat Ptr} {b : Ptr → List Ptr}, q.bucket y ≠ [] →
      (∀ k', q.trie.find? k' = some y → ∃ k'', t.find? k'' = some y) →
      y ∈ (⟨t, b⟩ : Sleepq).hosts ∨ y ∈ runq := by
    intro t b hb ht
    refine (h y hb).imp (fun hm => ?_) id
    obtain ⟨k', hk'⟩ := mem_hosts.1 hm
    exact mem_hosts.2 (ht k' hk')
  rcases remove_shape q k c with ⟨he, -⟩ | ⟨p, rest, hf, hb, he⟩ | ⟨hf, hb, he⟩ | ⟨z, hf, -, he⟩
  · rw [he] at hy ⊢; exact h y hy
  · rw [he] at hy ⊢
    have hyc : y ≠ c := by intro e; subst e; simp at hy
    by_cases hyp : y = p
    · exact .inl (mem_hosts.2 ⟨k, by simp [OrdMap.find?_insert, hyp]⟩)
    · simp only [Function.update_of_ne hyc, Function.update_of_ne hyp] at hy
      refine keep hy fun k' hk' => ⟨k', ?_⟩
      have hkk : k' ≠ k := by intro e; subst e; rw [hf] at hk'; cases hk'; exact hyc rfl
      rw [OrdMap.find?_insert, if_neg hkk, hk']
  · rw [he] at hy ⊢
    refine keep hy fun k' hk' => ⟨k', ?_⟩
    have hkk : k' ≠ k := by intro e; subst e; rw [hf] at hk'; cases hk'; exact hy hb
    rw [OrdMap.find?_erase hf, if_neg hkk, hk']
  · rw [he] at hy ⊢
    by_cases hyz : y = z
    · subst hyz; exact .inl (mem_hosts.2 ⟨k, hf⟩)
    · rw [setBucket_of_ne hyz] at hy
      exact keep hy fun k' hk' => ⟨k', hk'⟩

/-- `sleepq_remove` leaves `c` at most under a reserved key. -/
theorem remove (h : q.Parted runq key) (c : Ptr) :
    (q.remove (key c) c).Parted runq key ∧
      (∀ x, x ∈ (q.remove (key c) c).all → x ∈ q.all) ∧
      ∀ k, (q.remove (key c) c).At k c → k ≤ SLEEP_RESUME_NOW := by
  refine ⟨⟨fun k x hx => ?_, fun k hk => ?_, hosted_remove h.hosted _ c⟩, fun x hx => ?_,
    fun k hk => ?_⟩
  · rcases h.at_remove hx with hx | ⟨hk, k', hk', hx⟩
    · exact h.filed k x hx
    · exact .inr ⟨hk, (h.filed k' x hx).elim (fun e => e ▸ hk') And.right⟩
  · rw [h.view_remove hk]; exact (h.once k hk).erase c
  · obtain ⟨k, hx⟩ := mem_all.1 hx
    rcases h.at_remove hx with hx | ⟨-, k', -, hx⟩
    · exact mem_all.2 ⟨k, hx⟩
    · exact mem_all.2 ⟨k', hx⟩
  · by_contra hlt
    have hm := mem_view.2 hk
    rw [h.view_remove (Nat.lt_of_not_le hlt)] at hm
    exact (h.once k (Nat.lt_of_not_le hlt)).not_mem_erase hm

section Enqueue
variable {d : Nat}

/-- A context goes between two that are stored, under its key, if that is not
one of the reserved ones. -/
theorem view_enqueue (h : q.Parted runq key) (hr : c ∉ runq)
    (hc : ∀ k, q.At k c → k ≤ SLEEP_RESUME_NOW ∧ d ≤ SLEEP_RESUME_NOW) (prio : Bool) {k : Nat}
    (hk : SLEEP_RESUME_NOW < k) : ∃ l₁ l₂, q.view k = l₁ ++ l₂ ∧
      (q.enqueue prio d c).view k = l₁ ++ ((if k = d then [c] else []) ++ l₂) := by
  cases hf : q.trie.find? d with
  | none =>
    have he : q.enqueue prio d c = { q with trie := q.trie.insert d c } := by
      cases prio <;> simp [enqueue, insert, append, hf]
    rw [he]
    by_cases hkd : k = d
    · subst hkd
      have hb : q.bucket c = [] := by
        by_contra hne
        obtain ⟨k', hk'⟩ := mem_hosts.1 ((h.hosted c hne).resolve_right hr)
        have := (hc k' (at_iff.2 ⟨c, hk', List.mem_cons_self ..⟩)).2
        omega
      exact ⟨[], [], view_of_none hf, by simp [view_newHost hf hb]⟩
    · refine ⟨q.view k, [], by simp, ?_⟩
      simp [view, OrdMap.find?_insert, hkd]
  | some x =>
    by_cases hkd : k = d
    · subst hkd
      rw [view_of_find hf, if_pos rfl]
      cases prio with
      | false =>
        refine ⟨x :: q.bucket x, [], by simp, ?_⟩
        simp [enqueue, append, hf, view]
      | true =>
        refine ⟨[x], q.bucket x, rfl, ?_⟩
        simp [enqueue, insert, hf, view]
    · refine ⟨q.view k, [], by simp, ?_⟩
      obtain ⟨l, he⟩ : ∃ l, q.enqueue prio d c = q.setBucket x l := by
        cases prio
        · exact ⟨_, by simp [enqueue, append, hf]; rfl⟩
        · exact ⟨_, by simp [enqueue, insert, hf]; rfl⟩
      rw [he, if_neg hkd]
      unfold view
      rw [setBucket_trie]
      cases hf' : q.trie.find? k with
      | none => rfl
      | some y =>
        have hyx : y ≠ x := fun e => hkd (h.unique hk (at_iff.2 ⟨y, hf', List.mem_cons_self ..⟩)
          (at_iff.2 ⟨x, hf, by simp [e]⟩)).symm
        simp [setBucket_of_ne hyx]

theorem at_enqueue (h : q.Parted runq key) (hr : c ∉ runq)
    (hc : ∀ k, q.At k c → k ≤ SLEEP_RESUME_NOW ∧ d ≤ SLEEP_RESUME_NOW) (prio : Bool) {k : Nat}
    {x : Ptr} (hx : (q.enqueue prio d c).At k x) :
    (x = c ∧ k = d) ∨ q.At k x ∨ (k ≤ SLEEP_RESUME_NOW ∧ d ≤ SLEEP_RESUME_NOW ∧
      (x = c ∨ ∃ k', k' ≤ SLEEP_RESUME_NOW ∧ q.At k' x)) := by
  obtain ⟨y, hy, hxy⟩ := at_iff.1 hx
  rcases enqueue_cases q prio d c with ⟨hf, he⟩ | ⟨z, l, hf, hl, he⟩
  · rw [he] at hy hxy
    rw [OrdMap.find?_insert] at hy
    split at hy
    · rename_i hkd
      cases hy
      rcases List.mem_cons.1 hxy with rfl | hxy
      · exact .inl ⟨rfl, hkd⟩
      · -- what is still in the bucket of `c` is under the key of `c`
        have hne : q.bucket c ≠ [] := List.ne_nil_of_mem hxy
        obtain ⟨k', hk'⟩ := mem_hosts.1 ((h.hosted c hne).resolve_right hr)
        have hle := hc k' (at_iff.2 ⟨c, hk', List.mem_cons_self ..⟩)
        exact .inr (.inr ⟨hkd ▸ hle.2, hle.2, .inr ⟨k', hle.1,
          at_iff.2 ⟨c, hk', List.mem_cons_of_mem _ hxy⟩⟩⟩)
    · exact .inr (.inl (at_iff.2 ⟨y, hy, hxy⟩))
  · rw [he] at hy hxy
    rw [setBucket_trie] at hy
    by_cases hyz : y = z
    · subst hyz
      simp only [setBucket_self, List.mem_cons, hl.mem_iff] at hxy
      have hyk : ∀ w ∈ y :: q.bucket y, q.At k w := fun w hw => at_iff.2 ⟨y, hy, hw⟩
      rcases hxy with rfl | rfl | hxy
      · exact .inr (.inl (hyk x (by simp)))
      · by_cases hkd : k = d
        · exact .inl ⟨rfl, hkd⟩
        · have hs := h.shared (hyk y (by simp)) (at_iff.2 ⟨y, hf, List.mem_cons_self ..⟩)
            (Ne.symm hkd)
          exact .inr (.inr ⟨hs.1, hs.2, .inl rfl⟩)
      · exact .inr (.inl (hyk x (List.mem_cons_of_mem _ hxy)))
    · rw [setBucket_of_ne hyz] at hxy
      exact .inr (.inl (at_iff.2 ⟨y, hy, hxy⟩))

/-- `c`, which is stored under a reserved key at most, is filed under `d`. -/
theorem enqueue (h : q.Parted runq key) (hr : c ∉ runq)
    (hc : ∀ k, q.At k c → k ≤ SLEEP_RESUME_NOW ∧ d ≤ SLEEP_RESUME_NOW) (prio : Bool) :
    (q.enqueue prio d c).Parted runq (Function.update key c d) ∧
      ∀ x, x ∈ (q.enqueue prio d c).all → x = c ∨ x ∈ q.all := by
  refine ⟨⟨fun k x hx => ?_, fun k hk => ?_, h.hosted.enqueue prio d c⟩, fun x hx => ?_⟩
  · by_cases hxc : x = c
    · subst hxc
      rw [Function.update_self]
      rcases h.at_enqueue hr hc prio hx with ⟨-, rfl⟩ | hx | ⟨h1, h2, -⟩
      · exact .inl rfl
      · exact .inr (hc k hx)
      · exact .inr ⟨h1, h2⟩
    · rw [Function.update_of_ne hxc]
      rcases h.at_enqueue hr hc prio hx with ⟨rfl, -⟩ | hx | ⟨h1, -, rfl | ⟨k', hk', hx⟩⟩
      · exact absurd rfl hxc
      · exact h.filed k x hx
      · exact absurd rfl hxc
      · exact .inr ⟨h1, (h.filed k' x hx).elim (fun e => e ▸ hk') And.right⟩
  · obtain ⟨l₁, l₂, h1, h2⟩ := h.view_enqueue hr hc prio hk
    have hone := h.once k hk
    rw [h2]
    split
    · rename_i hkd
      rw [List.singleton_append, List.nodup_middle, ← h1, List.nodup_cons]
      refine ⟨fun hm => ?_, hone⟩
      have := (hc k (mem_view.1 hm)).1
      omega
    · rwa [List.nil_append, ← h1]
  · obtain ⟨k, hx⟩ := mem_all.1 hx
    rcases h.at_enqueue hr hc prio hx with ⟨rfl, -⟩ | hx | ⟨-, -, rfl | ⟨k', -, hx⟩⟩
    · exact .inl rfl
    · exact .inr (mem_all.2 ⟨k, hx⟩)
    · exact .inl rfl
    · exact .inr (mem_all.2 ⟨k', hx⟩)

/-- Out of its old place and filed under `d`: a context that is stored nowhere
may take any key, and every context a reserved one. What is elsewhere stays in
its order. -/
theorem requeue (h : q.Parted runq key) (hr : c ∉ runq) (hc : c ∉ q.all ∨ d ≤ SLEEP_RESUME_NOW)
    (prio : Bool) :
    ((q.remove (key c) c).enqueue prio d c).Parted runq (Function.update key c d) ∧
      (∀ x, x ∈ ((q.remove (key c) c).enqueue prio d c).all → x = c ∨ x ∈ q.all) ∧
      ∀ k, SLEEP_RESUME_NOW < k → ∀ p : Ptr → Bool, p c = false →
        (((q.remove (key c) c).enqueue prio d c).view k).filter p = (q.view k).filter p := by
  obtain ⟨h1, h2, h3⟩ := h.remove c
  have hc' : ∀ k, (q.remove (key c) c).At k c → k ≤ SLEEP_RESUME_NOW ∧ d ≤ SLEEP_RESUME_NOW := by
    intro k hk
    exact ⟨h3 k hk, hc.resolve_left fun hn => hn (h2 c (mem_all.2 ⟨k, hk⟩))⟩
  obtain ⟨h4, h5⟩ := h1.enqueue hr hc' prio
  refine ⟨h4, fun x hx => (h5 x hx).imp id (h2 x), fun k hk p hp => ?_⟩
  obtain ⟨l₁, l₂, h6, h7⟩ := h1.view_enqueue hr hc' prio hk
  have h8 : ((q.remove (key c) c).view k).filter p = (q.view k).filter p := by
    rw [h.view_remove hk, (h.once k hk).erase_eq_filter, List.filter_filter]
    refine List.filter_congr fun x _ => ?_
    by_cases hxc : x = c <;> simp [hxc, hp]
  rw [h7, ← h8, h6, List.filter_append, List.filter_append, List.filter_append]
  split <;> simp [hp]

end Enqueue

end Parted

/-! ## A queue in order -/

theorem view_nodup {q : Sleepq} (hn : q.all.Nodup) (k : Nat) : (q.view k).Nodup := by
  cases hf : q.trie.find? k with
  | none => rw [view_of_none hf]; exact .nil
  | some x =>
    obtain ⟨xs, ys, -, -, -, hall, -⟩ := zip_of_find hf hn
    rw [hall, List.nodup_append] at hn
    rw [view_of_find hf]
    exact (List.nodup_append.1 hn.2.1).1

namespace Ok
variable {q : Sleepq} {tmp runq : List Ptr} {key : Ptr → Nat}

theorem apart (h : q.Ok tmp runq key) : q.Apart tmp runq where
  nodup := (List.nodup_append.1 h.nodup).2.1
  hosts k x hf := h.notMem_batch (host_mem_all (host_of_find hf))
  buckets c hc x hx := by
    obtain ⟨k, hf⟩ := Parted.mem_hosts.1 ((h.hosted c (List.ne_nil_of_mem hx)).resolve_right hc)
    exact h.notMem_batch (mem_all.2 ⟨k, at_iff.2 ⟨c, hf, List.mem_cons_of_mem _ hx⟩⟩)

theorem parted (h : q.Ok tmp runq key) : q.Parted runq key :=
  ⟨fun k c hc => .inl (h.filed k c hc), fun k _ => view_nodup h.nodup_all k, h.hosted⟩

end Ok

end Sleepq
end Mnthr
