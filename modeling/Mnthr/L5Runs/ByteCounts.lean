import Mnthr.L5Runs.KevResumes
import Mnthr.L5Runs.WriteLoops

/-!
# Byte counts

`mnthr_get_rbuflen` and `mnthr_get_wbuflen` pass the 64-bit count of
`kev->data` through an `int` (src/kevent_poller.c:417, 442; 493, 520). What a
count below 2^31 bytes becomes is the count itself, and the functions that read
and write by it succeed; from 2^31 bytes on it becomes another number
(`byte_counts_survive_iff`), negative for 2^31 itself: a file with 2 GiB left
to read is at its end for `mnthr_read_all` (`byte_counts_negative`).
-/
namespace Mnthr

/-- The batch loop comes to the entry of a thread that waits in `w`. -/
structure KevSt.Reports (s : KevSt) (w : KevWait) (kev : Kevent) : Prop where
  me : s.me = none
  batch : ∃ i rest, s.batch = (i, kev) :: rest ∧ s.kevents1[i]? = some kev
  ident : kev.pair.ident ≠ -1
  error : kev.error = false
  live : (s.thr kev.udata).live
  wait : (s.thr kev.udata).wait = some w
  state : (s.thr kev.udata).state = w.fn.state
  fd : (s.thr kev.udata).ident ≠ -1

/-- What the wait returns that the next entry of the batch ends. -/
def KevSt.entryReturns (K : KevBuild) (s : KevSt) : Option Int :=
  (kevStep K s .entry).bind fun s' => s'.ret.map KevRet.val

/-- The count that a function owes its caller for `d` bytes. -/
def KevFn.count (d : Int) : KevFn → Int
  | .getWbuflen => if d ≠ 0 then d else MNTHR_DEFAULT_WBUFLEN
  | _ => d

/-- An answer for a descriptor with space for some bytes, at most `d`, whose
system calls succeed. -/
def Writable (K : KevBuild) (d : Int) : Answer Nat → Prop
  | .poll v => ∃ (s : KevSt) (w : KevWait) (kev : Kevent), s.Reports w kev ∧ w.fn = .getWbuflen ∧
      0 < kev.val.data ∧ kev.val.data ≤ d ∧ s.entryReturns K = some v
  | .fail _ => False
  | .ok _ => True

/-- The count `d` reaches the caller of the wait, and neither the single reads
nor `mnthr_write_all` fail by it. A read of a descriptor with bytes to read
gives at least one, if at least one is asked for. -/
structure CountSurvives (K : KevBuild) (C : DiagClass) (D : IoDiag) (s : KevSt) (w : KevWait)
    (d : Int) : Prop where
  count : s.entryReturns K = some (w.fn.count d)
  readAll : w.fn = .getRbuflen → 0 < d → ∀ junk buf (offset : Nat) bs, bs ≠ [] → bs.length ≤ d →
    offset + d < 2 ^ 63 → ∃ v u, s.entryReturns K = some v ∧
      exec (SingleRead.step C junk) (.start buf offset) [.poll v, .ok bs] = some u ∧
      u.phase = .ret 0
  readAllb : w.fn = .getRbuflen → 0 < d → ∀ buf (sz : Nat) bs, sz ≤ buf.length →
    (bs = [] → sz = 0) → bs.length ≤ d → bs.length ≤ sz → ∃ v u, s.entryReturns K = some v ∧
      exec (SingleRead.stepb sz) (.start buf 0) [.poll v, .ok bs] = some u ∧
      u.phase = .ret bs.length
  writeAll : w.fn = .getWbuflen → 0 < d → ∀ buf len as u, (∀ a ∈ as, Writable K d a) →
    exec (WriteLoop.step D writeAll buf len) (.start writeAll len) as = some u → ¬ u.Refused

section
variable {K : KevBuild} {s : KevSt} {w : KevWait} {kev : Kevent} {d v : Int}

/-- The entry resumes its thread, whose wait returns. -/
theorem KevSt.Reports.returns (h : s.Reports w kev) (hfn : w.fn ≠ .waitForEvents) :
    s.entryReturns K = some (w.fn.result kev.val) := by
  obtain ⟨i, rest, hb, hk⟩ := h.batch
  have hst : w.fn.state ≠ .otherPoller ∧ w.fn.state.resumable := by
    revert hfn
    cases w.fn <;> simp [KevFn.state, CoState.resumable]
  simp [entryReturns, kevStep, h.me, entry, hb, h.ident, h.error, deliver, discardEvent, newEvent,
    h.state, hst, h.live, pollerResume, h.wait, setThr, waitEnd, h.fd, hfn, hk, waitReturn]

/-- An `int` holds a count exactly when it is below 2^31. -/
theorem bmod_eq_self_iff (h0 : 0 ≤ d) : d.bmod (2 ^ 32) = d ↔ d < 2 ^ 31 := by
  constructor
  · intro h
    have := Int.bmod_lt (x := d) (m := 2 ^ 32) (by decide)
    omega
  · intro h
    exact Int.bmod_eq_of_le (by omega) (by omega)

theorem KevFn.result_eq_count_iff {fn : KevFn} {x : KevData}
    (hfn : fn = .getRbuflen ∨ fn = .getWbuflen) (h0 : 0 ≤ x.data) :
    fn.result x = fn.count x.data ↔ x.data < 2 ^ 31 := by
  obtain rfl | rfl := hfn
  · exact bmod_eq_self_iff h0
  · simp only [result, count]
    split
    · exact bmod_eq_self_iff h0
    · have : MNTHR_DEFAULT_WBUFLEN.bmod (2 ^ 32) = MNTHR_DEFAULT_WBUFLEN := by decide
      simp only [this, true_iff]
      omega

/-- The poll that a count below 2^31 answers lets the write loop go on. -/
theorem Writable.not_refuses {a : Answer Nat} (h : Writable K d a) (hd : d < 2 ^ 31) :
    ¬ writeAll.refuses a := by
  cases a with
  | poll v =>
    obtain ⟨s, w, kev, hr, hfn, h0, hle, hv⟩ := h
    rw [hr.returns (by rw [hfn]; decide), Option.some.injEq,
      (KevFn.result_eq_count_iff (.inr hfn) (by omega)).2 (by omega), hfn] at hv
    simp only [KevFn.count, ne_eq, Int.ne_of_gt h0, not_false_eq_true, if_true] at hv
    simp only [WriteFn.refuses]
    omega
  | fail e => exact h.elim
  | ok n => exact not_false

end

namespace SingleRead
variable {C : DiagClass} {buf bs : List UInt8} {v : Int}

/-- `mnthr_read_all` appends what it has read. -/
theorem run_step {junk : UInt8} {offset : Nat} (hbs : bs ≠ []) (hle : bs.length ≤ v)
    (hoff : offset + v < 2 ^ 63) :
    exec (step C junk) (start buf offset) [.poll v, .ok bs] =
      some ⟨overwrite (reallocBytes junk buf (offset + v.toNat)) offset bs, offset + bs.length,
        v.toNat, .ret 0⟩ := by
  have hpos : 0 < bs.length := List.length_pos_iff.2 hbs
  have hv : ¬ v ≤ 0 := by omega
  have hoff' : ¬ 2 ^ 63 ≤ offset + v := by omega
  have hreq : ¬ v.toNat < bs.length := by omega
  simp only [exec, step, start, ne_eq, not_true_eq_false, if_false, hv, hoff', Option.bind_some,
    hreq, or_self, hpos.ne', and_false]

/-- `mnthr_read_allb` returns the count of what it has read. -/
theorem run_stepb {sz : Nat} (hbuf : sz ≤ buf.length) (hbs : bs = [] → sz = 0) (hv : 0 < v)
    (hle : bs.length ≤ v) (hsz : bs.length ≤ sz) :
    exec (stepb sz) (start buf 0) [.poll v, .ok bs] =
      some ⟨overwrite buf 0 bs, 0, min v.toNat sz, .ret bs.length⟩ := by
  have hv : ¬ v ≤ 0 := by omega
  have hreq : ¬ min v.toNat sz < bs.length := by omega
  have hlen : ¬ buf.length < bs.length := by omega
  have heof : ¬ (bs.length < min v.toNat sz ∧ bs.length = 0) := by
    intro h
    have := hbs (List.length_eq_zero_iff.1 h.2)
    omega
  simp only [exec, stepb, start, ne_eq, not_true_eq_false, if_false, hv, Option.bind_some, hreq,
    hlen, or_self, heof]

end SingleRead

/-- Exactly the counts below 2^31 bytes survive. -/
theorem byte_counts_survive_iff {K : KevBuild} {C : DiagClass} {D : IoDiag} {s : KevSt}
    {w : KevWait} {kev : Kevent} (hr : s.Reports w kev)
    (hfn : w.fn = .getRbuflen ∨ w.fn = .getWbuflen) (h0 : 0 ≤ kev.val.data) :
    CountSurvives K C D s w kev.val.data ↔ kev.val.data < 2 ^ 31 := by
  have hne : w.fn ≠ .waitForEvents := by
    obtain hfn | hfn := hfn <;> rw [hfn] <;> decide
  have hret := hr.returns (K := K) hne
  have hiff := KevFn.result_eq_count_iff (x := kev.val) hfn h0
  constructor
  · intro h
    exact hiff.1 (Option.some.inj (hret.symm.trans h.count))
  · intro hd
    rw [hiff.2 hd] at hret
    have hcount (hg : w.fn = .getRbuflen) : s.entryReturns K = some kev.val.data := by
      rw [hret, hg]
      rfl
    refine ⟨hret, fun hg _ junk buf offset bs hbs hle hoff => ?_,
      fun hg hpos buf sz bs hbuf hbs hle hsz => ?_, fun _ _ buf len as u has hu => ?_⟩
    · exact ⟨_, _, hcount hg, SingleRead.run_step hbs hle hoff, rfl⟩
    · exact ⟨_, _, hcount hg, SingleRead.run_stepb hbuf hbs hpos hle hsz, rfl⟩
    · refine exec_inv (C := fun _ a => ¬ writeAll.refuses a)
        (fun l a l' _ ha hl => fun hl' => ha ((WriteLoop.refused_step hl).1 hl'))
        WriteLoop.not_refused_loop (along_of_forall fun a ha => (has a ha).not_refuses hd) hu

/-- Thread 1 asks how much there is to read of descriptor 5, and `kevent`
reports `d` bytes. -/
def readable (d : Int) : List KevEvent :=
  [.spawn 1, .resume 1, .wait ⟨.getRbuflen, 5⟩, .kevent [] [(⟨5, EVFILT_READ⟩, 1, ⟨0, d⟩)]]

theorem reports_readable (d : Int) :
    ∃ s, exec (kevStep .sample) .init (readable d) = some s ∧
      s.Reports ⟨.getRbuflen, 5⟩ ⟨⟨5, EVFILT_READ⟩, false, 1, ⟨0, d⟩⟩ := by
  have h5 : (5 : Int) ≠ -1 := by decide
  exact ⟨_, rfl, rfl, ⟨0, [], rfl, rfl⟩, h5, rfl, rfl, rfl, rfl, h5⟩

theorem byte_counts_survive_five : ∃ s, exec (kevStep .sample) .init (readable 5) = some s ∧
    CountSurvives .sample .sample .sample s ⟨.getRbuflen, 5⟩ 5 := by
  obtain ⟨s, hs, hr⟩ := reports_readable 5
  exact ⟨s, hs, (byte_counts_survive_iff hr (.inl rfl) (by decide)).2 (by decide)⟩

/-- 2 GiB are a negative count, and `mnthr_read_all` fails before it reads. -/
theorem byte_counts_negative : ∃ s, exec (kevStep .sample) .init (readable (2 ^ 31)) = some s ∧
    s.Reports ⟨.getRbuflen, 5⟩ ⟨⟨5, EVFILT_READ⟩, false, 1, ⟨0, 2 ^ 31⟩⟩ ∧
    ¬ CountSurvives .sample .sample .sample s ⟨.getRbuflen, 5⟩ (2 ^ 31) ∧
    s.entryReturns .sample = some (-2 ^ 31) ∧
    ∃ u, exec (SingleRead.step .sample 0) (.start [] 0) [.poll (-2 ^ 31)] = some u ∧
      u.phase = .ret (DiagClass.sample.code 1) := by
  obtain ⟨s, hs, hr⟩ := reports_readable (2 ^ 31)
  have hret : s.entryReturns .sample = some (-2 ^ 31) := hr.returns (by decide)
  refine ⟨s, hs, hr, fun h => ?_, hret, _, rfl, rfl⟩
  exact absurd (Option.some.inj (hret.symm.trans h.count)) (by decide)

end Mnthr
