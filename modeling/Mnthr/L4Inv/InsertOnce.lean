import Mnthr.L4Inv.Multimap

/-!
# `sleepq_insert_once`

The function (src/mnthr.c:438-468) leaves a context alone that is the host of its
key, but it does not look for it in the bucket of the host.
`sleepq_insert_once_iff`: it files the context once exactly when the context is
absent or a host; for it to be idempotent no other context may be under the key.
A member of a bucket is linked a second time, which closes a cycle.
-/
namespace Mnthr

/-- In `v'`, `c` is there once, under `k`, and the others are under the keys they
have in `v`, in their order. -/
structure InsertedOnce (c : Ptr) (k : Nat) (v v' : Nat → List Ptr) : Prop where
  once : ∀ k', (v' k').count c = if k' = k then 1 else 0
  others : ∀ k', (v' k').filter (fun x => decide (x ≠ c)) = (v k').filter fun x => decide (x ≠ c)

namespace SleepqMem
variable {m : SleepqMem} {v : Nat → List Ptr} {c host : Ptr} {k : Nat} {l : List Ptr}

theorem insertOnce_host (h : m.Stores v) (hc : (v (m.expireTicks c)).head? = some c) :
    (m.insertOnce c).1 = m := by
  simp only [insertOnce, h.host, hc, if_true]

theorem insertOnce_absent (h : m.Stores v) (hc : c ∉ v (m.expireTicks c)) :
    m.insertOnce c = m.insert c := by
  unfold insertOnce
  rw [h.host]
  cases hv : v (m.expireTicks c) with
  | nil => rfl
  | cons x xs =>
    have hxc : x ≠ c := fun e => hc (by simp [hv, e])
    have hfind : m.trie.find? (m.expireTicks c) = some x := by simp [h.host, hv]
    simp only [List.head?_cons, hxc, if_false, insert, hfind]

/-- A context in the bucket: nothing is stored any more. -/
theorem insertOnce_member (h : m.Stores v) (hv : v (m.expireTicks c) = host :: l) (hc : c ∈ l)
    (v' : Nat → List Ptr) : ¬ (m.insertOnce c).1.Stores v' := by
  have hhc : host ≠ c := by
    intro e
    subst e
    have := h.once (m.expireTicks host)
    rw [hv] at this
    exact (List.nodup_cons.1 this).1 hc
  have hb := h.bucket _ host l hv
  have hfind : m.trie.find? (m.expireTicks c) = some host := by simp [h.host, hv]
  cases l with
  | nil => cases hc
  | cons y l =>
    have hm : (m.insertOnce c).1 =
        m.setBucket host (Dtqueue.insertBefore (m.link, m.bucket host) y c) := by
      simp only [insertOnce, hfind, hhc, if_false, hb.head, List.head?_cons]
    intro hs
    rw [hm] at hs
    -- the host is the same, so what is stored begins with it
    obtain ⟨l', hl'⟩ := List.head?_eq_some_iff.1 ((hs.host (m.expireTicks c)).symm.trans hfind)
    have hb' := hs.bucket _ host l' hl'
    simp only [setBucket, Function.update_self] at hb'
    exact Dtqueue.insertBefore_member hb hc l' hb'

theorem count_behindFirst (hc : c ∉ l) : (behindFirst c l).count c = 1 := by
  cases l with
  | nil => simp [behindFirst]
  | cons x xs =>
    obtain ⟨hx, hxs⟩ := not_or.1 (mt List.mem_cons.2 hc)
    simp [behindFirst, Ne.symm hx, List.count_eq_zero.2 hxs]

/-- An absent context. -/
theorem insertedOnce_behindFirst (habs : ∀ k, c ∉ v k) :
    InsertedOnce c k v (Function.update v k (behindFirst c (v k))) := by
  constructor <;> intro k' <;> by_cases hk : k' = k
  · subst hk
    simpa using count_behindFirst (habs k')
  · simpa [hk] using List.count_eq_zero.2 (habs k')
  · subst hk
    rw [Function.update_self]
    exact Sleepq.filter_behindFirst (by simp) _
  · rw [Function.update_of_ne hk]

/-- A context that is there. -/
theorem insertedOnce_self (h : m.Stores v) (hc : c ∈ v (m.expireTicks c)) :
    InsertedOnce c (m.expireTicks c) v v := by
  refine ⟨fun k' => ?_, fun _ => rfl⟩
  split
  · rename_i hk
    subst hk
    exact List.count_eq_one_of_mem (h.once _) hc
  · rename_i hk
    exact List.count_eq_zero.2 fun hm => hk (h.filed k' c hm).symm

end SleepqMem

open SleepqMem in
/-- For a context that may be filed: what one call does, and that a second one
does nothing. -/
theorem sleepq_insert_once_iff {m : SleepqMem} {v : Nat → List Ptr} {c : Ptr} (h : m.Stores v)
    (hk : m.expireTicks c ≠ SLEEP_UNDEFINED) :
    ((∃ v', (m.insertOnce c).1.Stores v' ∧ InsertedOnce c (m.expireTicks c) v v') ↔
      (∀ k, c ∉ v k) ∨ (v (m.expireTicks c)).head? = some c) ∧
    ((∃ v', (m.insertOnce c).1.Stores v' ∧ InsertedOnce c (m.expireTicks c) v v' ∧
        ((m.insertOnce c).1.insertOnce c).1.Stores v') ↔
      v (m.expireTicks c) = [] ∨ (v (m.expireTicks c)).head? = some c) := by
  by_cases hhost : (v (m.expireTicks c)).head? = some c
  · have hself := insertedOnce_self h (List.mem_of_head? hhost)
    have hm := insertOnce_host h hhost
    rw [hm, hm]
    exact ⟨⟨fun _ => .inr hhost, fun _ => ⟨v, h, hself⟩⟩,
      fun _ => .inr hhost, fun _ => ⟨v, h, hself, h⟩⟩
  by_cases hmem : c ∈ v (m.expireTicks c)
  · -- a member of the bucket
    obtain ⟨host, l, hv⟩ := List.exists_cons_of_ne_nil (List.ne_nil_of_mem hmem)
    have hc : c ∈ l := by
      rw [hv] at hmem hhost
      exact (List.mem_cons.1 hmem).resolve_left fun e => hhost (by simp [e])
    have hbad := insertOnce_member h hv hc
    refine ⟨⟨fun hs => ?_, fun hs => ?_⟩, fun hs => ?_, fun hs => ?_⟩
    · obtain ⟨v', hs, -⟩ := hs
      exact absurd hs (hbad v')
    · exact hs.elim (fun habs => absurd hmem (habs _)) fun e => absurd e hhost
    · obtain ⟨v', hs, -⟩ := hs
      exact absurd hs (hbad v')
    · exact hs.elim (fun e => absurd (e ▸ hmem) List.not_mem_nil) fun e => absurd e hhost
  · have habs : ∀ k, c ∉ v k := fun k hk' => hmem ((h.filed k c hk').symm ▸ hk')
    have hs := h.insert hk habs
    have hm : (m.insertOnce c).1 = (m.insert c).1 := congrArg Prod.fst (insertOnce_absent h hmem)
    rw [← hm] at hs
    have hones := insertedOnce_behindFirst (k := m.expireTicks c) habs
    have hkey : (m.insertOnce c).1.expireTicks = m.expireTicks := by
      rw [hm, insert_expireTicks]
    refine ⟨⟨fun _ => .inl habs, fun _ => ⟨_, hs, hones⟩⟩, fun hs' => .inl ?_, fun hs' => ?_⟩
    · -- under a key in use the context becomes a member, and the second call fails
      obtain ⟨v', -, -, hs'⟩ := hs'
      by_contra hne
      obtain ⟨host, l, hv⟩ := List.exists_cons_of_ne_nil hne
      have hnow : Function.update v (m.expireTicks c) (behindFirst c (v (m.expireTicks c)))
          ((m.insertOnce c).1.expireTicks c) = host :: c :: l := by
        rw [hkey, Function.update_self, hv]
        rfl
      exact insertOnce_member hs hnow (List.mem_cons_self ..) v' hs'
    · have hnil : v (m.expireTicks c) = [] := hs'.resolve_right hhost
      refine ⟨_, hs, hones, ?_⟩
      rw [insertOnce_host hs (by rw [hkey, Function.update_self, hnil]; rfl)]
      exact hs

/-- Contexts 0 and 1 are appended under one key. -/
def pairKey : SleepqMem := (((SleepqMem.empty fun _ => 5).append 0).1.append 1).1

theorem pairKey_stores : ∃ v, pairKey.Stores v ∧ v 5 = [0, 1] := by
  have h1 := (SleepqMem.stores_empty fun _ => 5).append (c := 0) (by decide) (by simp)
  have h2 := h1.append (c := 1) (by decide) fun k => by
    by_cases hk : k = 5 <;> simp [Function.update_apply, SleepqMem.empty, hk]
  exact ⟨_, h2, by simp [Function.update_apply, SleepqMem.empty]⟩

/-- Filing the host once more changes nothing. -/
theorem sleepq_insert_once_host : ∃ v v', v 5 = [0, 1] ∧ InsertedOnce 0 5 v v' ∧
    (pairKey.insertOnce 0).1.Stores v' ∧ ((pairKey.insertOnce 0).1.insertOnce 0).1.Stores v' := by
  obtain ⟨v, hs, hv⟩ := pairKey_stores
  obtain ⟨v', h1, h2, h3⟩ := (sleepq_insert_once_iff (c := 0) hs (by decide)).2.2
    (.inr (by rw [show pairKey.expireTicks 0 = 5 from rfl, hv]; rfl))
  exact ⟨v, v', hv, h2, h1, h3⟩

/-- Filing the other one links it to itself. -/
theorem sleepq_insert_once_cycle : ∃ v, pairKey.Stores v ∧ v 5 = [0, 1] ∧
    (pairKey.insertOnce 1).1.link.next 1 = some 1 ∧
    ∀ v', ¬ (pairKey.insertOnce 1).1.Stores v' := by
  obtain ⟨v, hs, hv⟩ := pairKey_stores
  refine ⟨v, hs, hv, by decide, ?_⟩
  exact SleepqMem.insertOnce_member hs hv (by simp)

end Mnthr
