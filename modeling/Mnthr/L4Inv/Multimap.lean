import Mnthr.L1State.SleepqMem
import Mnthr.L4Inv.Sleep

/-!
# The sleep queue as an ordered multimap

`the_sleepq` is meant as a multimap from `expire_ticks` to lists of contexts:
the host of a key, then its bucket (src/mnthr_private.h:189-200).
`SleepqMem.Stores m v` says that the memory `m` is well-formed and stores the
multimap `v`; `sleepq_multimap` says what the operations do to `v`. It is proved
on the lists of `Sleepq`, which the memory stands for: a multimap is stored
exactly when such lists are, in order (`stores_iff`).
-/
namespace Mnthr

/-- `c` directly behind the first element. -/
def behindFirst {α : Type} (c : α) : List α → List α
  | [] => [c]
  | h :: t => h :: c :: t

namespace Sleepq

/-- The list stored under each key: the host, then its bucket. -/
def view (q : Sleepq) (k : Nat) : List Ptr :=
  match q.trie.find? k with
  | some h => h :: q.bucket h
  | none => []

section
variable {q : Sleepq} {k : Nat} {c h : Ptr} {l : List Ptr}

theorem view_of_find (hf : q.trie.find? k = some h) : q.view k = h :: q.bucket h := by
  simp only [view, hf]

theorem view_of_none (hf : q.trie.find? k = none) : q.view k = [] := by
  simp only [view, hf]

theorem mem_view : c ∈ q.view k ↔ q.At k c := by
  unfold view At
  constructor
  · intro hc
    split at hc
    · exact ⟨_, OrdMap.mem_entries_iff.2 ‹_›, hc⟩
    · cases hc
  · intro hc
    obtain ⟨h, he, hc⟩ := hc
    simpa only [OrdMap.mem_entries_iff.1 he] using hc

theorem host_of_find (hf : q.trie.find? k = some h) : h ∈ q.hosts :=
  List.mem_map.2 ⟨(k, h), OrdMap.mem_entries_iff.2 hf, rfl⟩

/-- A host is the host of one key. -/
theorem key_unique (hn : q.all.Nodup) {k' : Nat} (hf : q.trie.find? k = some h)
    (hf' : q.trie.find? k' = some h) : k' = k :=
  at_unique hn ⟨h, OrdMap.mem_entries_iff.2 hf, List.mem_cons_self ..⟩
    ⟨h, OrdMap.mem_entries_iff.2 hf', List.mem_cons_self ..⟩

theorem view_setBucket (hn : q.all.Nodup) (hf : q.trie.find? k = some h) (l : List Ptr) :
    (q.setBucket h l).view = Function.update q.view k (h :: l) := by
  funext k'
  by_cases hk : k' = k
  · subst hk
    rw [Function.update_self, view_of_find (q := q.setBucket h l) hf, setBucket_self]
  · rw [Function.update_of_ne hk]
    unfold view
    rw [setBucket_trie]
    cases hf' : q.trie.find? k' with
    | none => rfl
    | some h' =>
      have hne : h' ≠ h := by
        intro e
        subst e
        exact hk (key_unique hn hf hf')
      simp only [setBucket_of_ne hne]

/-- The bucket of a context that is no host does not count. -/
theorem view_setBucket_of_notHost (hc : c ∉ q.hosts) (l : List Ptr) :
    (q.setBucket c l).view = q.view := by
  funext k
  unfold view
  rw [setBucket_trie]
  cases hf : q.trie.find? k with
  | none => rfl
  | some x =>
    have hxc : x ≠ c := fun e => hc (e ▸ host_of_find hf)
    simp only [setBucket_of_ne hxc]

theorem view_newHost (hf : q.trie.find? k = none) (hb : q.bucket c = []) :
    view { q with trie := q.trie.insert k c } = Function.update q.view k [c] := by
  funext k'
  unfold view
  simp only [OrdMap.find?_insert]
  by_cases hk : k' = k
  · subst hk
    simp [hb]
  · simp only [hk, if_false, Function.update_of_ne hk]

theorem view_append (hn : q.all.Nodup) (hb : q.bucket c = []) :
    (q.append k c).view = Function.update q.view k (q.view k ++ [c]) := by
  unfold append
  cases hf : q.trie.find? k with
  | none => rw [view_of_none hf]; exact view_newHost hf hb
  | some h => rw [view_of_find hf]; exact view_setBucket hn hf _

theorem view_insert (hn : q.all.Nodup) (hb : q.bucket c = []) :
    (q.insert k c).view = Function.update q.view k (behindFirst c (q.view k)) := by
  unfold insert
  cases hf : q.trie.find? k with
  | none => rw [view_of_none hf]; exact view_newHost hf hb
  | some h => rw [view_of_find hf]; exact view_setBucket hn hf _

theorem view_filed (hn : q.all.Nodup) (hb : q.bucket c = []) (prio : Bool) (k : Nat) :
    (q.enqueue prio k c).view = Function.update q.view k
      (if prio then behindFirst c (q.view k) else q.view k ++ [c]) := by
  cases prio with
  | true => exact view_insert hn hb
  | false => exact view_append hn hb

theorem view_remove (hn : q.all.Nodup) (hk : k ≠ SLEEP_UNDEFINED) (hc : q.At k c) :
    (q.remove k c).view = Function.update q.view k ((q.view k).erase c) := by
  obtain ⟨h, hin, hmem⟩ := hc
  have hf := OrdMap.mem_entries_iff.1 hin
  unfold remove
  simp only [hk, if_false, hf, view_of_find hf]
  cases hb : q.bucket h with
  | nil =>
    have hhc : h = c := by simpa [hb, eq_comm] using hmem
    subst hhc
    simp only [if_true, List.erase_cons_head]
    funext k'
    unfold view
    simp only [OrdMap.find?_erase hf]
    by_cases hk' : k' = k
    · subst hk'; simp
    · simp only [hk', if_false, Function.update_of_ne hk']
  | cons p rest =>
    by_cases hhc : h = c
    · subst hhc
      simp only [if_true, List.erase_cons_head]
      have hp : p ∈ q.bucket h := by simp [hb]
      funext k'
      unfold view
      simp only [OrdMap.find?_insert]
      by_cases hk' : k' = k
      · subst hk'
        have hph : p ≠ h := by
          intro e
          subst e
          exact host_notMem_hosted hn (host_of_find hf) (host_of_find hf) hp
        simp [hph]
      · simp only [hk', if_false, Function.update_of_ne hk']
        cases hf' : q.trie.find? k' with
        | none => rfl
        | some h' =>
          have hne : h' ≠ h := by
            intro e
            subst e
            exact hk' (key_unique hn hf hf')
          have hnp : h' ≠ p := by
            intro e
            subst e
            exact host_notMem_hosted hn (host_of_find hf') (host_of_find hf) hp
          simp only [Function.update_of_ne hne, Function.update_of_ne hnp]
    · have herase : (h :: p :: rest).erase c = h :: (p :: rest).erase c :=
        List.erase_cons_tail (by simpa using hhc)
      simp only [hhc, if_false, herase]
      exact view_setBucket hn hf _

/-! ## What keeps its order -/

theorem filter_erase {p : Ptr → Bool} (hp : p c = false) (l : List Ptr) :
    (l.erase c).filter p = l.filter p := by
  rw [← List.erase_filter, List.erase_of_not_mem]
  intro hm
  have := (List.mem_filter.1 hm).2
  rw [hp] at this
  cases this

theorem filter_behindFirst {p : Ptr → Bool} (hp : p c = false) (l : List Ptr) :
    (behindFirst c l).filter p = l.filter p := by
  cases l with
  | nil => simp [behindFirst, hp]
  | cons h t => simp [behindFirst, hp, List.filter_cons]

namespace Ok
variable {tmp runq : List Ptr} {key : Ptr → Nat}

/-- Taken out of the queue, wherever it is. -/
theorem view_remove (h : q.Ok tmp runq key) (c : Ptr) (k : Nat) :
    (q.remove (key c) c).view k = (q.view k).erase c := by
  have out : ∀ {k}, ¬ q.At k c → (q.view k).erase c = q.view k := fun hc =>
    List.erase_of_not_mem fun hm => hc (mem_view.1 hm)
  by_cases hc : c ∈ q.all
  · obtain ⟨hat, hk⟩ := h.at_key hc
    rw [Sleepq.view_remove h.nodup_all hk hat]
    by_cases hkc : k = key c
    · subst hkc
      rw [Function.update_self]
    · rw [Function.update_of_ne hkc, out fun hk => hkc (at_unique h.nodup_all hat hk)]
  · rw [remove_of_notMem hc, out fun hk => hc (mem_all.2 ⟨k, hk⟩)]

/-- Filing `c` under another key leaves the others in their order. -/
theorem view_requeue (h : q.Ok tmp runq key) (hb : c ∉ q.batch tmp runq) (prio : Bool) (d : Nat)
    {p : Ptr → Bool} (hp : p c = false) (k : Nat) :
    (((q.remove (key c) c).enqueue prio d c).view k).filter p = (q.view k).filter p := by
  have hremove : ((q.remove (key c) c).view k).filter p = (q.view k).filter p := by
    rw [h.view_remove, filter_erase hp]
  obtain ⟨h1, h2, h3⟩ := h.remove c
  have hout : c ∉ (q.remove (key c) c).all := fun hm => ((h2 c).1 hm).2 rfl
  have hnil : (q.remove (key c) c).bucket c = [] :=
    h1.hosted.bucket_nil hout fun hr => hb (h3 ▸ mem_batch_of_runq hr)
  rw [← hremove, view_filed h1.nodup_all hnil]
  by_cases hkd : k = d
  · subst hkd
    rw [Function.update_self]
    split
    · exact filter_behindFirst hp _
    · rw [List.filter_append]
      simp [hp]
  · rw [Function.update_of_ne hkd]

/-- The sift takes out what is under the keys below the clock, key by key. -/
theorem view_sift (h : q.Ok [] [] key) (n : Nat) :
    batch { q with trie := q.trie.popWhile fun c => decide (key c < n) } []
        (q.trie.front fun c => decide (key c < n)) =
      ((q.trie.entries.map Prod.fst).filter fun k => decide (k < n)).flatMap q.view ∧
    ∀ k, view { q with trie := q.trie.popWhile fun c => decide (key c < n) } k =
      if k < n then [] else q.view k := by
  have hkeys : ∀ e ∈ q.trie.entries, decide (key e.2 < n) = decide (e.1 < n) := fun e he => by
    rw [h.filed e.1 e.2 ⟨e.2, he, List.mem_cons_self ..⟩]
  obtain ⟨htake, hdrop⟩ :=
    OrdMap.takeWhile_below (p := fun e => decide (key e.2 < n)) q.trie.sorted hkeys
  constructor
  · rw [batch, OrdMap.front, htake, List.filter_map, List.flatMap_map, List.flatMap_map,
      List.nil_append]
    refine List.flatMap_congr fun e he => ?_
    exact (view_of_find (OrdMap.mem_entries_iff.1 (List.mem_filter.1 he).1)).symm
  · intro k
    have hfind : (q.trie.popWhile fun c => decide (key c < n)).find? k =
        if k < n then none else q.trie.find? k := by
      refine Option.ext fun x => ?_
      have hmem : (k, x) ∈ (q.trie.popWhile fun c => decide (key c < n)).entries ↔ _ :=
        Iff.of_eq (congrArg ((k, x) ∈ ·) hdrop)
      rw [← OrdMap.mem_entries_iff, hmem, List.mem_filter, OrdMap.mem_entries_iff]
      by_cases hk : k < n
      · simp [hk]
      · simp [hk, Nat.le_of_not_lt hk]
    unfold view
    simp only [hfind]
    by_cases hk : k < n <;> simp only [hk, if_true, if_false]

end Ok
end

end Sleepq

namespace SleepqMem

/-- The memory is well-formed and stores the multimap `v`: every key has its
host in the trie and the rest of its list in the bucket of the host, every
context is there once, under its own `expire_ticks`, nothing is stored under
`MNTHR_SLEEP_UNDEFINED`, and who is not a host has an empty bucket. -/
structure Stores (m : SleepqMem) (v : Nat → List Ptr) : Prop where
  host : ∀ k, m.trie.find? k = (v k).head?
  bucket : ∀ k h l, v k = h :: l → (m.bucket h).Holds m.link l
  once : ∀ k, (v k).Nodup
  filed : ∀ k, ∀ c ∈ v k, m.expireTicks c = k
  defined : v SLEEP_UNDEFINED = []
  others : ∀ c, (∀ k, (v k).head? ≠ some c) → m.bucket c = .empty

section
variable {m : SleepqMem} {q : Sleepq} {v : Nat → List Ptr}

theorem Holds.stores (h : m.Holds q) (hok : q.Ok [] [] m.expireTicks) : m.Stores q.view where
  host k := by
    rw [h.trie]
    unfold Sleepq.view
    cases q.trie.find? k <;> rfl
  bucket k x l hx := by
    have hb := h.bucket x
    unfold Sleepq.view at hx
    split at hx
    · cases hx; exact hb
    · cases hx
  once k := by
    cases hf : q.trie.find? k with
    | none => rw [Sleepq.view_of_none hf]; exact .nil
    | some x =>
      obtain ⟨xs, ys, -, -, -, hall, -⟩ := Sleepq.zip_of_find hf hok.nodup_all
      have hn := hok.nodup_all
      rw [hall, List.nodup_append] at hn
      rw [Sleepq.view_of_find hf]
      exact (List.nodup_append.1 hn.2.1).1
  filed k c hc := hok.filed k c (Sleepq.mem_view.1 hc)
  defined := by
    refine List.eq_nil_iff_forall_not_mem.2 fun c hc => ?_
    exact hok.defined _ c (Sleepq.mem_view.1 hc) rfl
  others c hc := by
    have hb := h.bucket c
    have hnil : q.bucket c = [] := by
      by_contra hne
      obtain ⟨⟨k, c⟩, he, rfl⟩ := List.mem_map.1 ((hok.hosted c hne).resolve_right (by simp))
      exact hc k (by rw [Sleepq.view_of_find (OrdMap.mem_entries_iff.1 he)]; rfl)
    rw [hnil] at hb
    have hhead := hb.head
    have htail := hb.tail
    cases hq : m.bucket c
    rw [hq] at hhead htail
    cases hhead
    cases htail
    rfl

/-- The lists of a multimap. -/
def lists (m : SleepqMem) (v : Nat → List Ptr) : Sleepq where
  trie := m.trie
  bucket c := if (v (m.expireTicks c)).head? = some c then (v (m.expireTicks c)).tail else []

theorem Stores.block (h : m.Stores v) {k : Nat} {x : Ptr} (hf : m.trie.find? k = some x) :
    v k = x :: (m.lists v).bucket x := by
  have hh := h.host k
  rw [hf] at hh
  obtain ⟨l, hl⟩ := List.head?_eq_some_iff.1 hh.symm
  have hx : m.expireTicks x = k := h.filed k x (by simp [hl])
  simp [lists, hx, hl]

theorem Stores.view (h : m.Stores v) : (m.lists v).view = v := by
  funext k
  cases hf : m.trie.find? k with
  | none =>
    rw [Sleepq.view_of_none (q := m.lists v) hf]
    exact (List.head?_eq_none_iff.1 ((h.host k).symm.trans hf)).symm
  | some x => rw [Sleepq.view_of_find (q := m.lists v) hf, h.block hf]

theorem Stores.holds (h : m.Stores v) : m.Holds (m.lists v) := by
  refine ⟨rfl, fun c => ?_⟩
  by_cases hc : (v (m.expireTicks c)).head? = some c
  · obtain ⟨l, hl⟩ := List.head?_eq_some_iff.1 hc
    have := h.bucket _ c l hl
    simpa [lists, hl] using this
  · have hnil : (m.lists v).bucket c = [] := if_neg hc
    rw [hnil, h.others c fun k hk => hc ?_]
    · exact Dtqueue.holds_empty _
    · have hkc := h.filed k c (List.mem_of_head? hk)
      rw [hkc]; exact hk

theorem Stores.ok (h : m.Stores v) : (m.lists v).Ok [] [] m.expireTicks := by
  have hat : ∀ k c, (m.lists v).At k c → c ∈ v k := by
    intro k c hc
    rw [← h.view]
    exact Sleepq.mem_view.2 hc
  refine ⟨?_, fun k c hc => h.filed k c (hat k c hc), fun k c hc e => ?_, fun c hc => ?_⟩
  · rw [show (m.lists v).batch [] [] = [] from rfl, List.append_nil, Sleepq.all, Sleepq.flat,
      List.nodup_flatMap]
    have hblock : ∀ e ∈ m.trie.entries, e.2 :: (m.lists v).bucket e.2 = v e.1 := fun e he =>
      (h.block (OrdMap.mem_entries_iff.1 he)).symm
    refine ⟨fun e he => by rw [hblock e he]; exact h.once e.1, ?_⟩
    refine m.trie.sorted.imp_of_mem fun {a b} ha hb hlt => ?_
    show List.Disjoint (a.2 :: _) (b.2 :: _)
    rw [hblock a ha, hblock b hb]
    intro x hxa hxb
    have := h.filed _ x hxa
    have := h.filed _ x hxb
    omega
  · have := hat k c hc
    rw [e, h.defined] at this
    cases this
  · left
    have hh : (v (m.expireTicks c)).head? = some c := by
      by_contra hne
      exact hc (if_neg hne)
    exact Sleepq.host_of_find (q := m.lists v) ((h.host _).trans hh)

theorem stores_iff : m.Stores v ↔ ∃ q, m.Holds q ∧ q.Ok [] [] m.expireTicks ∧ v = q.view := by
  constructor
  · exact fun h => ⟨m.lists v, h.holds, h.ok, h.view.symm⟩
  · intro h
    obtain ⟨q, hh, hok, rfl⟩ := h
    exact hh.stores hok

/-! The operations leave `expire_ticks` alone. -/

@[simp] theorem remove_expireTicks (m : SleepqMem) (c : Ptr) :
    (m.remove c).1.expireTicks = m.expireTicks := by
  unfold remove
  repeat' split
  all_goals rfl

@[simp] theorem insert_expireTicks (m : SleepqMem) (c : Ptr) :
    (m.insert c).1.expireTicks = m.expireTicks := by
  unfold insert
  repeat' split
  all_goals rfl

@[simp] theorem append_expireTicks (m : SleepqMem) (c : Ptr) :
    (m.append c).1.expireTicks = m.expireTicks := by
  unfold append
  split <;> rfl

end
end SleepqMem

namespace SleepqMem
variable {m : SleepqMem} {v : Nat → List Ptr} {c : Ptr} {k : Nat}

/-- The lists of a memory that does not store `c`, and `c` filed under its key. -/
theorem Stores.filing (h : m.Stores v) (hk : m.expireTicks c ≠ SLEEP_UNDEFINED)
    (habs : ∀ k, c ∉ v k) (prio : Bool) :
    ∃ q, m.Holds q ∧ q.all.Nodup ∧ q.Hosted [] ∧ c ∉ q.all ∧
      (q.enqueue prio (m.expireTicks c) c).Ok [] [] m.expireTicks ∧
      (q.enqueue prio (m.expireTicks c) c).view = Function.update v (m.expireTicks c)
        (if prio then behindFirst c (v (m.expireTicks c)) else v (m.expireTicks c) ++ [c]) := by
  obtain ⟨q, hh, hok, rfl⟩ := stores_iff.1 h
  have hc : c ∉ q.all := by
    intro hm
    obtain ⟨k, hat⟩ := Sleepq.mem_all.1 hm
    exact habs k (Sleepq.mem_view.2 hat)
  have hok' := (hok.enqueue hc (by simp [Sleepq.batch]) prio hk).1
  -- the key of `c` is not changed by filing it under it
  rw [show Function.update m.expireTicks c (m.expireTicks c) = m.expireTicks from
    Function.update_eq_self ..] at hok'
  exact ⟨q, hh, hok.nodup_all, hok.hosted, hc, hok',
    Sleepq.view_filed hok.nodup_all (hok.hosted.bucket_nil hc (by simp)) prio _⟩

theorem Stores.append (h : m.Stores v) (hk : m.expireTicks c ≠ SLEEP_UNDEFINED)
    (habs : ∀ k, c ∉ v k) : (m.append c).1.Stores
      (Function.update v (m.expireTicks c) (v (m.expireTicks c) ++ [c])) := by
  obtain ⟨q, hh, hn, hhost, hc, hok, hview⟩ := h.filing hk habs false
  have := (hh.append hn hhost hc).stores (by rw [append_expireTicks]; exact hok)
  exact hview ▸ this

theorem Stores.insert (h : m.Stores v) (hk : m.expireTicks c ≠ SLEEP_UNDEFINED)
    (habs : ∀ k, c ∉ v k) : (m.insert c).1.Stores
      (Function.update v (m.expireTicks c) (behindFirst c (v (m.expireTicks c)))) := by
  obtain ⟨q, hh, hn, hhost, hc, hok, hview⟩ := h.filing hk habs true
  have := (hh.insert hn hhost hc).stores (by rw [insert_expireTicks]; exact hok)
  exact hview ▸ this

theorem Stores.remove (h : m.Stores v) (hk : m.expireTicks c ≠ SLEEP_UNDEFINED) (hc : c ∈ v k) :
    (m.remove c).1.Stores (Function.update v k ((v k).erase c)) := by
  obtain ⟨q, hh, hok, rfl⟩ := stores_iff.1 h
  have hat := Sleepq.mem_view.1 hc
  obtain rfl := hok.filed k c hat
  rw [← Sleepq.view_remove hok.nodup_all hk hat]
  refine (hh.remove hok.nodup_all hok.hosted hk hat).stores ?_
  rw [remove_expireTicks]
  exact (hok.remove c).1

theorem Stores.remove_absent (h : m.Stores v) (habs : ∀ k, c ∉ v k) (hf : m.link.Free c) :
    (m.remove c).1 = m := by
  obtain ⟨q, hh, -, rfl⟩ := stores_iff.1 h
  refine hh.remove_absent (fun hm => ?_) hf
  obtain ⟨k, hat⟩ := Sleepq.mem_all.1 hm
  exact habs k (Sleepq.mem_view.2 hat)

end SleepqMem

/-- What the operations do to the multimap, for a context that may be filed. -/
theorem sleepq_multimap {m : SleepqMem} {v : Nat → List Ptr} {c : Ptr} (h : m.Stores v)
    (hk : m.expireTicks c ≠ SLEEP_UNDEFINED) :
    ((∀ k, c ∉ v k) →
      (m.append c).1.Stores
        (Function.update v (m.expireTicks c) (v (m.expireTicks c) ++ [c])) ∧
      (m.insert c).1.Stores
        (Function.update v (m.expireTicks c) (behindFirst c (v (m.expireTicks c)))) ∧
      (m.link.Free c → (m.remove c).1 = m)) ∧
    ∀ k, c ∈ v k → (m.remove c).1.Stores (Function.update v k ((v k).erase c)) :=
  ⟨fun habs => ⟨h.append hk habs, h.insert hk habs, h.remove_absent habs⟩, fun _ => h.remove hk⟩

/-- Between two sifts, a sleep queue in order is such a multimap. -/
theorem SleepInv.stores {s : St} {m : SleepqMem} (h : SleepInv s) (ht : s.tmp = [])
    (hr : s.runq = []) (hm : m.Holds s.sleepq)
    (hk : m.expireTicks = fun c => (s.ctx c).expireTicks) : m.Stores s.sleepq.view := by
  refine hm.stores ?_
  have hok := h.queue
  rwa [ht, hr, ← hk] at hok

/-- Nothing is queued. -/
def SleepqMem.empty (key : Ptr → Nat) : SleepqMem :=
  ⟨.empty, fun _ => .empty, ⟨fun _ => none, fun _ => none⟩, key⟩

theorem SleepqMem.stores_empty (key : Ptr → Nat) : (SleepqMem.empty key).Stores fun _ => [] :=
  ⟨fun _ => rfl, fun _ _ _ h => (by cases h), fun _ => .nil, fun _ _ h => (by cases h), rfl,
    fun _ _ => rfl⟩

/-- Contexts 0 and 1 are appended under one key, 2 is inserted with priority. -/
def sharedKey : SleepqMem :=
  ((((SleepqMem.empty fun _ => 5).append 0).1.append 1).1.insert 2).1

/-- The host leaves: its bucket is handed over to 2. -/
theorem sleepq_multimap_sharedKey : ∃ v, (sharedKey.remove 0).1.Stores v ∧ v 5 = [2, 1] := by
  have h0 := SleepqMem.stores_empty fun _ => 5
  have h1 := ((sleepq_multimap (c := 0) h0 (by decide)).1 (by simp)).1
  have h2 := ((sleepq_multimap (c := 1) h1 (by decide)).1 fun k => by
    by_cases hk : k = 5 <;> simp [Function.update_apply, SleepqMem.empty, hk]).1
  have h3 := ((sleepq_multimap (c := 2) h2 (by decide)).1 fun k => by
    by_cases hk : k = 5 <;> simp [Function.update_apply, SleepqMem.empty, hk]).2.1
  refine ⟨_, (sleepq_multimap (c := 0) h3 (by decide)).2 5 ?_, ?_⟩ <;>
    simp [Function.update_apply, SleepqMem.empty, behindFirst]

end Mnthr
