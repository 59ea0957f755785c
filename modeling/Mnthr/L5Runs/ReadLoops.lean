import Mnthr.L2Sched.IoLoops

/-!
# The loops that read and accept

* `read_loses_nothing`: what `mnthr_read_allb_et` returns is what it consumed,
  and it reports an error only when it consumed nothing.
* `accept_loops_lose_nothing`: `mnthr_accept_all` and `mnthr_accept_all2`
  append exactly the connections they accepted, and report an error only when
  they accepted none.
-/
namespace Mnthr

theorem take_overwrite {α : Type} (buf bs : List α) : (overwrite buf 0 bs).take bs.length = bs := by
  simp [overwrite]

namespace ReadLoop
variable {buf : List UInt8} {sz : Nat} {s s' : ReadLoop}

/-- A loop that goes on has consumed nothing yet. -/
structure Running (sz : Nat) (s : ReadLoop) : Prop where
  totread : s.totread = 0
  nleft : s.nleft = sz
  consumed : s.consumed = []

/-- What a loop that has returned `r` owes its caller. -/
structure Returned (sz : Nat) (s : ReadLoop) (r : Int) : Prop where
  ok : 0 ≤ r → r ≤ sz ∧ s.consumed.length = r ∧ s.buf.take r.toNat = s.consumed
  error : r = -1 → s.consumed = []

def Inv (sz : Nat) (s : ReadLoop) : Prop :=
  match s.phase with
  | .ret r => Returned sz s r
  | _ => Running sz s

theorem Running.loop (h : Running sz s) : Inv sz (loop sz s) := by
  unfold Inv ReadLoop.loop
  by_cases h0 : s.totread < sz
  · rw [if_pos h0]
    exact ⟨h.totread, h.nleft, h.consumed⟩
  · rw [if_neg h0]
    refine ⟨fun _ => ?_, fun _ => h.consumed⟩
    simp [h.totread, h.consumed]

/-- A read that succeeds is the last one. -/
theorem Running.read {bs : List UInt8} (h : Running sz s)
    (hs : step sz s (.ok bs) = some s') : Inv sz s' := by
  simp only [step] at hs
  split at hs
  · cases hs
  · rename_i hno
    obtain ⟨hle, -⟩ := not_or.1 (not_or.1 hno).2
    have htake : (overwrite s.buf s.totread bs).take bs.length = bs := by
      rw [h.totread]
      exact take_overwrite _ _
    have hret : ∀ {u : ReadLoop}, u.buf = overwrite s.buf s.totread bs → u.consumed = bs →
        Returned sz u (bs.length : Int) := by
      intro u hb hc
      refine ⟨fun _ => ⟨?_, ?_, ?_⟩, fun h1 => ?_⟩
      · have := h.nleft
        omega
      · rw [hc]
      · rw [hb, hc, Int.toNat_natCast, htake]
      · omega
    have hc : s.consumed ++ bs = bs := by rw [h.consumed, List.nil_append]
    have ht : s.totread + bs.length = bs.length := by rw [h.totread, Nat.zero_add]
    split at hs <;> cases hs
    · unfold Inv
      dsimp only
      rw [ht]
      exact hret rfl hc
    · rename_i hlt
      have hfull : ¬ s.totread + bs.length < sz := by
        have := h.nleft
        omega
      unfold Inv ReadLoop.loop
      dsimp only
      rw [if_neg hfull, ht]
      exact hret rfl hc

theorem inv_step {a : Answer (List UInt8)} (h : Inv sz s) (hs : step sz s a = some s') :
    Inv sz s' := by
  cases a with
  | poll v =>
    simp only [step] at hs
    split at hs
    · cases hs
    · rename_i hp
      simp only [Inv, not_not.1 hp] at h
      split at hs <;> cases hs
      · exact ⟨fun h0 => absurd h0 (by decide), fun _ => h.consumed⟩
      · exact h.loop
  | fail e =>
    simp only [step] at hs
    split at hs
    · cases hs
    · rename_i hp
      simp only [Inv, not_not.1 hp] at h
      split at hs <;> cases hs
      · exact ⟨h.totread, h.nleft, h.consumed⟩
      · exact ⟨fun h0 => absurd h0 (by decide), fun _ => h.consumed⟩
  | ok bs =>
    have hp : s.phase = .call := by
      by_contra hp
      simp [step, hp] at hs
    simp only [Inv, hp] at h
    exact h.read hs

end ReadLoop

/-- Over every sequence of answers: what is returned was consumed and is in the
buffer, and with -1 nothing was consumed. -/
theorem read_loses_nothing (buf : List UInt8) (sz : Nat) (as : List (Answer (List UInt8)))
    (s : ReadLoop) (h : exec (ReadLoop.step sz) (.start sz buf) as = some s) :
    (∀ r, s.phase = .ret r → 0 ≤ r →
      r ≤ sz ∧ s.consumed.length = r ∧ s.buf.take r.toNat = s.consumed) ∧
    (s.phase = .ret (-1) → s.consumed = []) := by
  have hI : ReadLoop.Inv sz s :=
    exec_inv (C := fun _ _ => True) (fun _ _ _ hI _ hs => ReadLoop.inv_step hI hs)
      (ReadLoop.Running.loop ⟨rfl, rfl, rfl⟩) (along_of_forall fun _ _ => trivial) h
  constructor
  · intro r hr
    simp only [ReadLoop.Inv, hr] at hI
    exact hI.ok
  · intro hr
    simp only [ReadLoop.Inv, hr] at hI
    exact hI.error rfl

/-- The descriptor is empty at first, then has less than was asked for. -/
theorem read_loses_nothing_short :
    ∃ s, exec (ReadLoop.step 3) (.start 3 [0, 0, 0]) [.fail .EAGAIN, .poll 0, .ok [7, 8]] = some s ∧
      s.consumed.length = (2 : Int) ∧ s.buf.take (2 : Int).toNat = s.consumed :=
  ⟨_, rfl, ((read_loses_nothing [0, 0, 0] 3 [.fail .EAGAIN, .poll 0, .ok [7, 8]] _ rfl).1 2 rfl
    (by decide)).2⟩

/-! ## Accepting -/

@[simp] theorem entries_length (junk : Socket) (buf : List Socket) (n : Nat) :
    (entries junk buf n).length = n := by
  simp only [entries, List.length_append, List.length_take, List.length_replicate]
  omega

theorem entries_of_le {junk : Socket} {buf : List Socket} {n : Nat} (h : n ≤ buf.length) :
    entries junk buf n = buf.take n := by
  simp [entries, Nat.sub_eq_zero_of_le h]

/-- New memory after the end changes nothing that was there. -/
theorem entries_entries {junk : Socket} {buf : List Socket} {m n : Nat} (h : n ≤ m) :
    entries junk (entries junk buf m) n = entries junk buf n := by
  rw [entries_of_le (by simpa using h), entries, entries, List.take_append, List.take_take,
    List.take_replicate, Nat.min_eq_left h, List.length_take]
  congr 2
  omega

/-- A store behind the entries in use. -/
theorem entries_set {junk x : Socket} {buf : List Socket} {n : Nat} :
    entries junk (buf.set n x) n = entries junk buf n := by
  rw [entries, entries, List.length_set, List.take_set_of_le (Nat.le_refl n)]

/-- A store in the next entry. -/
theorem entries_set_succ {junk x : Socket} {buf : List Socket} {n : Nat} (h : n < buf.length) :
    entries junk (buf.set n x) (n + 1) = entries junk buf n ++ [x] := by
  rw [entries_of_le (by rw [List.length_set]; exact h), entries_of_le (Nat.le_of_lt h),
    List.take_add_one,
    List.getElem?_set_self h, List.take_set_of_le (Nat.le_refl n)]
  rfl

namespace AcceptLoop
variable {D : IoDiag} {junk : Socket} {old : List Socket} {off : Nat} {s s' : AcceptLoop}

/-- The entries a loop has counted follow the old ones. -/
structure Filled (junk : Socket) (old : List Socket) (off : Nat) (s : AcceptLoop) : Prop where
  offset : s.offset = off
  count : s.accepted.length = s.nread
  filled : entries junk s.buf (off + s.nread) = entries junk old off ++ s.accepted

/-- What a loop that has returned `r` owes its caller. -/
structure Returned (junk : Socket) (old : List Socket) (off : Nat) (s : AcceptLoop) (r : Int) :
    Prop where
  ok : r = 0 → s.buf.take s.offset = entries junk old off ++ s.accepted ∧
    s.offset = off + s.accepted.length ∧ s.accepted ≠ []
  error : r ≠ 0 → s.offset = off ∧ s.accepted = []

/-- Both loops between two answers; `bounded` adds what only the first one
keeps, its count below `navail`. -/
def Inv (bounded : Bool) (junk : Socket) (old : List Socket) (off : Nat) (s : AcceptLoop) : Prop :=
  match s.phase with
  | .ret r => Returned junk old off s r
  | .poll => Filled junk old off s ∧ s.nread = 0
  | .call => Filled junk old off s ∧ off + s.nread < s.buf.length ∧
      (bounded → s.nread < s.navail)

theorem inv_start {b : Bool} : Inv b junk old off (start old off) :=
  ⟨⟨rfl, rfl, by simp [start]⟩, rfl⟩

namespace Filled

/-- The call that `accept` makes has a place for its result. -/
theorem accept {b : Bool} (h : off + s.nread < s.buf.length → Filled junk old off s)
    (hoff : s.offset = off) (hb : b → s.nread < s.navail) (hs : s.accept = some s') :
    Inv b junk old off s' := by
  unfold AcceptLoop.accept at hs
  split at hs
  · cases hs
  · rename_i x hx
    obtain ⟨hlt, -⟩ := List.getElem?_eq_some_iff.1 hx
    rw [hoff] at hlt
    cases hs
    obtain ⟨-, hcount, hfill⟩ := h hlt
    refine ⟨⟨hoff, hcount, ?_⟩, by simpa using hlt, hb⟩
    simp only [hoff]
    rw [entries_set, hfill]

theorem store (h : Filled junk old off s) (hlt : off + s.nread < s.buf.length) (x : Socket) :
    Filled junk old off (s.store x) := by
  refine ⟨h.offset, by simp [AcceptLoop.store, h.count], ?_⟩
  simp only [AcceptLoop.store, h.offset, ← Nat.add_assoc]
  rw [entries_set_succ hlt, h.filled, List.append_assoc]

theorem storeFailed (h : Filled junk old off s) : Filled junk old off s.storeFailed := by
  refine ⟨h.offset, h.count, ?_⟩
  simp only [AcceptLoop.storeFailed, h.offset, List.modify_eq_set_getElem?]
  cases s.buf[off + s.nread]? with
  | none => exact h.filled
  | some x => exact entries_set.trans h.filled

/-- A loop that ends with something counted succeeds. -/
theorem counted (h : Filled junk old off s) (h0 : s.nread ≠ 0)
    (hle : off + s.nread ≤ s.buf.length) :
    Returned junk old off { s with offset := s.offset + s.nread, phase := .ret 0 } 0 := by
  refine ⟨fun _ => ⟨?_, ?_, fun hn => h0 ?_⟩, fun hn => absurd rfl hn⟩
  · simp only [h.offset]
    rw [← h.filled, entries_of_le hle]
  · simp only [h.offset, h.count]
  · rw [← h.count, hn, List.length_nil]

/-- A loop that ends with nothing counted fails. -/
theorem uncounted (h : Filled junk old off s) (h0 : s.nread = 0) {r : Int} (hr : r ≠ 0) {p : Phase} :
    Returned junk old off { s with phase := p } r :=
  ⟨fun hz => absurd hz hr, fun _ => ⟨h.offset, List.eq_nil_of_length_eq_zero (h.count.trans h0)⟩⟩

/-- Memory that is long enough for the next entry holds what is filled. -/
theorem realloc (h : Filled junk old off s) {n k : Nat}
    (hlt : off + s.nread < (reallocSockets junk s.buf n).length) :
    Filled junk old off { s with buf := reallocSockets junk s.buf n, navail := k } := by
  refine ⟨h.offset, h.count, ?_⟩
  simp only [reallocSockets, entries_length] at hlt
  simp only [reallocSockets]
  rw [entries_entries (Nat.le_of_lt hlt), h.filled]

theorem finish {b : Bool} (h : Filled junk old off s) (hle : off + s.nread ≤ s.buf.length)
    (hb : s.nread = 0 → s.nread < s.navail) : Inv b junk old off (s.finish D) := by
  unfold AcceptLoop.finish
  split
  · exact h.uncounted (by omega) (D.code_ne_zero _ (by decide))
  · exact h.counted (by omega) hle

theorem finish2 {b : Bool} (h : Filled junk old off s) (hle : off + s.nread ≤ s.buf.length) :
    Inv b junk old off (s.finish2 D) := by
  unfold AcceptLoop.finish2
  split
  · exact h.uncounted ‹_› (D.code_ne_zero _ (by decide))
  · exact h.counted ‹_› hle

theorem loop2 (h : Filled junk old off s) (hs : s.loop2 junk = some s') :
    Inv false junk old off s' :=
  accept (s := { s with buf := reallocSockets junk s.buf (s.offset + s.nread + 1) })
    h.realloc h.offset (fun hb => by cases hb) hs

end Filled

theorem storeFailed_length : s.storeFailed.buf.length = s.buf.length := by
  simp [storeFailed]

theorem inv_step {a : Answer Socket} (h : Inv true junk old off s)
    (hs : step D junk s a = some s') : Inv true junk old off s' := by
  cases a with
  | poll v =>
    simp only [step] at hs
    split at hs
    · cases hs
    · rename_i hp
      simp only [Inv, not_not.1 hp] at h
      obtain ⟨hf, h0⟩ := h
      split at hs
      · cases hs
        exact hf.uncounted h0 (D.code_ne_zero _ (by decide))
      · have hn : s.nread < v.toNat := by omega
        simp only [loop, hn, if_true] at hs
        exact Filled.accept (s := { s with
          navail := v.toNat, buf := reallocSockets junk s.buf (s.offset + v.toNat) })
          hf.realloc hf.offset (fun _ => hn) hs
  | fail e =>
    simp only [step] at hs
    split at hs
    · cases hs
    · rename_i hp
      simp only [Inv, not_not.1 hp] at h
      obtain ⟨hf, hlt, hb⟩ := h
      cases hs
      exact hf.storeFailed.finish (by rw [storeFailed_length]; exact Nat.le_of_lt hlt)
        fun _ => hb trivial
  | ok x =>
    simp only [step] at hs
    split at hs
    · cases hs
    · rename_i hp
      obtain ⟨hp, -⟩ := not_or.1 hp
      simp only [Inv, not_not.1 hp] at h
      obtain ⟨hf, hlt, -⟩ := h
      have hst := hf.store hlt x
      have hlen : off + (s.store x).nread ≤ (s.store x).buf.length := by
        simp only [store, List.length_set]
        omega
      unfold loop at hs
      split at hs
      · exact Filled.accept (fun _ => hst) hst.offset (fun _ => ‹_›) hs
      · cases hs
        exact hst.finish hlen fun h0 => by simp [store] at h0

theorem inv_step2 {a : Answer Socket} (h : Inv false junk old off s)
    (hs : step2 D junk s a = some s') : Inv false junk old off s' := by
  cases a with
  | poll v =>
    simp only [step2] at hs
    split at hs
    · cases hs
    · rename_i hp
      simp only [Inv, not_not.1 hp] at h
      split at hs
      · cases hs
        exact h.1.uncounted h.2 (D.code_ne_zero _ (by decide))
      · exact h.1.loop2 hs
  | fail e =>
    simp only [step2] at hs
    split at hs
    · cases hs
    · rename_i hp
      simp only [Inv, not_not.1 hp] at h
      obtain ⟨hf, hlt, -⟩ := h
      cases hs
      exact hf.storeFailed.finish2 (by rw [storeFailed_length]; exact Nat.le_of_lt hlt)
  | ok x =>
    simp only [step2] at hs
    split at hs
    · cases hs
    · rename_i hp
      obtain ⟨hp, -⟩ := not_or.1 hp
      simp only [Inv, not_not.1 hp] at h
      exact (h.1.store h.2.1 x).loop2 hs

theorem Inv.returned {b : Bool} {r : Int} (h : Inv b junk old off s) (hr : s.phase = .ret r) :
    Returned junk old off s r := by
  simpa only [Inv, hr] using h

end AcceptLoop

/-- Over every sequence of answers to the two accept loops: with 0, the entries
up to the offset are the old ones and then exactly what was accepted, at least
one; with a code, nothing was accepted and the offset is the old one. -/
theorem accept_loops_lose_nothing (D : IoDiag) (junk : Socket) (buf : List Socket) (offset : Nat)
    (as : List (Answer Socket)) (s : AcceptLoop)
    (h : exec (AcceptLoop.step D junk) (.start buf offset) as = some s ∨
      exec (AcceptLoop.step2 D junk) (.start buf offset) as = some s) :
    (s.phase = .ret 0 → s.buf.take s.offset = entries junk buf offset ++ s.accepted ∧
      s.offset = offset + s.accepted.length ∧ s.accepted ≠ []) ∧
    (∀ r, s.phase = .ret r → r ≠ 0 → s.offset = offset ∧ s.accepted = []) := by
  have hret : ∀ r, s.phase = .ret r → AcceptLoop.Returned junk buf offset s r := by
    intro r hr
    obtain h | h := h
    · exact (exec_inv (C := fun _ _ => True) (fun _ _ _ hI _ hs => AcceptLoop.inv_step hI hs)
        AcceptLoop.inv_start (along_of_forall fun _ _ => trivial) h).returned hr
    · exact (exec_inv (C := fun _ _ => True) (fun _ _ _ hI _ hs => AcceptLoop.inv_step2 hI hs)
        AcceptLoop.inv_start (along_of_forall fun _ _ => trivial) h).returned hr
  exact ⟨fun hr => (hret 0 hr).ok rfl, fun r hr => (hret r hr).error⟩

/-- Two connections behind an old one, then an error. -/
theorem accept_loops_lose_nothing_two :
    ∃ s, exec (AcceptLoop.step2 .sample ⟨0, [], 0⟩) (.start [⟨5, [], 28⟩] 1)
        [.poll 0, .ok ⟨6, [1], 16⟩, .ok ⟨7, [2], 16⟩, .fail .EAGAIN] = some s ∧
      s.buf.take s.offset = entries ⟨0, [], 0⟩ [⟨5, [], 28⟩] 1 ++ s.accepted ∧
      s.offset = 1 + s.accepted.length ∧ s.accepted ≠ [] :=
  ⟨_, rfl, (accept_loops_lose_nothing .sample ⟨0, [], 0⟩ [⟨5, [], 28⟩] 1
    [.poll 0, .ok ⟨6, [1], 16⟩, .ok ⟨7, [2], 16⟩, .fail .EAGAIN] _ (.inr rfl)).1 rfl⟩

end Mnthr
