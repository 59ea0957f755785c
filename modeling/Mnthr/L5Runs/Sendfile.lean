import Mnthr.L2Sched.IoLoops

/-!
# `mnthr_sendfile`

The loop subtracts every result from what is left, -1 included. A run without a
failed call sends what was asked for (`inv_run`); the first failed call leaves
one byte more to send, or, when all of the 2^64 - 1 bytes that a `size_t` can
ask for are left, ends the loop with 0 (`failed_step`).

`sendfile_exact_iff`: the loop does what it should exactly in the runs without
a failed call.
-/
namespace Mnthr
namespace Sendfile
variable {D : IoDiag} {nbytes : Nat} {s s' : Sendfile}

/-- What the loop owes its caller, at any moment. -/
structure Exact (nbytes : Nat) (s : Sendfile) : Prop where
  sent : s.sent ≤ nbytes
  whole : s.phase = .ret 0 → s.sent = nbytes ∨ s.eof

/-- A failed call leaves no more to send than before. -/
def FailSafe (D : IoDiag) (s : Sendfile) (a : Answer Nat) : Prop :=
  ∀ e v, a = .fail e → step D s a = some v → v.nbytes ≤ s.nbytes

def failed : Answer Nat → Bool
  | .fail _ => true
  | _ => false

/-- As long as no call fails: what is left is what is not sent. -/
structure Inv (nbytes : Nat) (s : Sendfile) : Prop where
  total : s.sent + s.nbytes = nbytes
  lt : nbytes < 2 ^ 64
  running : s.phase = .call → 0 < s.nbytes ∧ s.eof = false
  entry : s.phase = .poll → s.eof = false
  done : s.phase = .ret 0 → s.nbytes = 0 ∨ s.eof

theorem inv_start (h : nbytes < 2 ^ 64) : Inv nbytes (start nbytes) :=
  ⟨Nat.zero_add _, h, fun hp => (by cases hp), fun _ => rfl, fun hp => by cases hp⟩

theorem Inv.exact (h : Inv nbytes s) : Exact nbytes s := by
  have htotal := h.total
  refine ⟨by omega, fun hp => ?_⟩
  obtain h0 | he := h.done hp
  · exact .inl (by omega)
  · exact .inr he

theorem inv_loop (htotal : s.sent + s.nbytes = nbytes) (hlt : nbytes < 2 ^ 64)
    (he : s.eof = false) : Inv nbytes s.loop := by
  refine ⟨htotal, hlt, fun hp => ?_, fun _ => he, fun hp => ?_⟩ <;>
    simp only [loop] at hp <;> split at hp
  · exact ⟨‹_›, he⟩
  · cases hp
  · cases hp
  · exact .inl (Nat.eq_zero_of_not_pos ‹_›)

theorem inv_step {a : Answer Nat} (h : Inv nbytes s) (ha : failed a = false)
    (hs : step D s a = some s') : Inv nbytes s' := by
  cases a with
  | poll v =>
    simp only [step] at hs
    split at hs
    · cases hs
    · rename_i hp
      split at hs <;> cases hs
      · refine ⟨h.total, h.lt, fun hq => (by cases hq), fun hq => (by cases hq), fun hq => ?_⟩
        exact absurd (Phase.ret.inj hq) (D.code_ne_zero _ (by decide))
      · exact inv_loop h.total h.lt (h.entry (not_not.1 hp))
  | fail e => cases ha
  | ok n =>
    simp only [step] at hs
    split at hs
    · cases hs
    · rename_i hno
      obtain ⟨hp, hno⟩ := not_or.1 hno
      obtain ⟨hpos, he⟩ := h.running (not_not.1 hp)
      have htotal := h.total
      have hlt := h.lt
      split at hs <;> cases hs
      · exact ⟨htotal, hlt, fun hq => (by cases hq), fun hq => (by cases hq), fun _ => .inr rfl⟩
      · refine inv_loop ?_ hlt he
        simp only [subtract]
        omega

theorem inv_run {as : List (Answer Nat)} (h : Inv nbytes s) (ha : ∀ a ∈ as, failed a = false)
    (hs : exec (step D) s as = some s') : Inv nbytes s' :=
  exec_inv (C := fun _ a => failed a = false) (fun _ _ _ hI hc hs => inv_step hI hc hs) h
    (along_of_forall ha) hs

/-- The first failed call leaves more to send, or ends the loop early. -/
theorem failed_step {e : Errno} (h : Inv nbytes s) (hs : step D s (.fail e) = some s')
    (hle : s'.nbytes ≤ s.nbytes) : ¬ Exact nbytes s' := by
  simp only [step] at hs
  split at hs
  · cases hs
  · rename_i hp
    obtain ⟨hpos, he⟩ := h.running (not_not.1 hp)
    have htotal := h.total
    have hlt := h.lt
    cases hs
    simp only [loop, subtract] at hle
    have hwrap : ((s.nbytes - (-1 : Int)) % 2 ^ 64).toNat = 0 := by omega
    intro hx
    obtain hw | hw := hx.whole (by simp only [loop, subtract, hwrap]; rfl)
    · simp only [loop, subtract] at hw
      omega
    · simp [loop, subtract, he] at hw

theorem failed_run {as : List (Answer Nat)} (h : Inv nbytes s) (hs : exec (step D) s as = some s')
    (hx : ∀ pre post u, as = pre ++ post → exec (step D) s pre = some u → Exact nbytes u)
    (hf : Along (step D) (FailSafe D) s as) : ∀ a ∈ as, failed a = false := by
  induction as generalizing s with
  | nil => exact fun a ha => by cases ha
  | cons b as ih =>
    obtain ⟨u, hu, hr⟩ := exec_cons hs
    have hb : failed b = false := by
      cases b with
      | fail e =>
        refine absurd (hx [.fail e] as u rfl ?_) (failed_step h hu (hf.1 e u rfl hu))
        simp only [exec, hu, Option.bind_some]
      | poll v => rfl
      | ok n => rfl
    refine List.forall_mem_cons.2 ⟨hb, ih (inv_step h hb hu) hr (fun pre post v hp hv => ?_)
      (hf.2 u hu)⟩
    refine hx (b :: pre) post v (by rw [hp]; rfl) ?_
    simp only [exec, hu, Option.bind_some, hv]

end Sendfile

/-- For every `nbytes` and every run: at each moment no more was sent than asked
for, 0 is returned only at the end of the file or with everything sent, and no
failed call adds to what is left, exactly when no call of the run fails. -/
theorem sendfile_exact_iff (D : IoDiag) (nbytes : Nat) (hn : nbytes < 2 ^ 64)
    (as : List (Answer Nat)) (s : Sendfile)
    (h : exec (Sendfile.step D) (.start nbytes) as = some s) :
    ((∀ pre post u, as = pre ++ post → exec (Sendfile.step D) (.start nbytes) pre = some u →
        u.Exact nbytes) ∧ Along (Sendfile.step D) (Sendfile.FailSafe D) (.start nbytes) as)
      ↔ ∀ a ∈ as, Sendfile.failed a = false := by
  have hI := Sendfile.inv_start hn
  constructor
  · exact fun hall => Sendfile.failed_run hI h hall.1 hall.2
  · intro ha
    refine ⟨fun pre post u hp hu => ?_, ?_⟩
    · exact (Sendfile.inv_run hI (fun a hm => ha a (by rw [hp]; simp [hm])) hu).exact
    · refine along_mono (fun s a hf e v he _ => ?_) (along_of_forall ha)
      rw [he] at hf
      cases hf

/-- A short count, then the rest. -/
theorem sendfile_exact_short :
    ∃ s, exec (Sendfile.step .sample) (.start 5) [.poll 8, .ok 2, .ok 3] = some s ∧
      s.phase = .ret 0 ∧ Along (Sendfile.step .sample) (Sendfile.FailSafe .sample) (.start 5)
        [.poll 8, .ok 2, .ok 3] :=
  ⟨_, rfl, rfl, ((sendfile_exact_iff .sample 5 (by decide) _ _ rfl).2 (by decide)).2⟩

/-- Of 5 bytes 3 are sent, then the descriptor takes nothing for a while: 6 bytes
are sent in all. -/
theorem sendfile_sends_more :
    ∃ s, exec (Sendfile.step .sample) (.start 5) [.poll 8, .ok 3, .fail .EAGAIN, .ok 3] = some s ∧
      s.phase = .ret 0 ∧ s.sent = 6 ∧ ¬ s.Exact 5 :=
  ⟨_, rfl, rfl, rfl, fun h => absurd h.sent (by decide)⟩

end Mnthr
