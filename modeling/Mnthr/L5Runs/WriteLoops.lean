import Mnthr.L2Sched.IoLoops

/-!
# The write loops

* `write_loops_deliver`: whatever the poller and the system call answer, every
  request of `mnthr_write_all`, `mnthr_write_all_et`, `mnthr_send_all` and
  `mnthr_sendto_all` lies in the buffer, the bytes taken are a prefix of it,
  all of it when the loop returns 0, and the loop returns a code exactly when
  it was refused.
* `stream_advances_iff`: `mnthr_bytestream_write` adds the 0 that its loop
  returns to `pos`. Of the calls within the stream, only those for no bytes and
  those that fail leave `pos` where it should be.
-/
namespace Mnthr

/-- An answer that the loop does not go on after. -/
def WriteFn.refuses (f : WriteFn) : Answer Nat → Prop
  | .poll v => v ≤ 0
  | .fail e => ¬ f.retries e
  | .ok _ => False

instance (f : WriteFn) : ∀ a, Decidable (f.refuses a)
  | .poll v => inferInstanceAs (Decidable (v ≤ 0))
  | .fail e => inferInstanceAs (Decidable (¬ f.retries e))
  | .ok _ => inferInstanceAs (Decidable False)

theorem WriteFn.wrap_of_lt (f : WriteFn) {v : Int} (h0 : 0 ≤ v) (h : v < 2 ^ 63) : f.wrap v = v := by
  unfold WriteFn.wrap
  split
  · omega
  · exact Int.bmod_eq_of_le (by omega) (by omega)

namespace WriteLoop
variable {D : IoDiag} {f : WriteFn} {buf : List UInt8} {len : Nat} {s s' : WriteLoop}

/-- Between two answers: what is left is not sent, and is not empty while the
loop runs. -/
structure Inv (buf : List UInt8) (len : Nat) (s : WriteLoop) : Prop where
  nonneg : 0 ≤ s.remaining
  le : s.remaining ≤ len
  sent : s.sent = buf.take (s.offset len).toNat
  running : s.phase = .poll ∨ s.phase = .call → 0 < s.remaining
  space : s.phase = .call → 0 < s.navail ∧ s.navail < 2 ^ 63
  done : s.phase = .ret 0 → s.remaining = 0

theorem Inv.loop (h0 : 0 ≤ s.remaining) (hle : s.remaining ≤ len)
    (hsent : s.sent = buf.take (s.offset len).toNat)
    (hspace : f.et → 0 < s.remaining → 0 < s.navail ∧ s.navail < 2 ^ 63) :
    Inv buf len (loop f s) := by
  refine ⟨h0, hle, hsent, fun h => ?_, fun h => ?_, fun h => ?_⟩ <;>
    simp only [WriteLoop.loop] at h <;> split at h
  · assumption
  · simp at h
  · split at h
    · exact hspace ‹_› ‹_›
    · cases h
  · cases h
  · split at h <;> cases h
  · simp only [WriteLoop.loop]
    omega

theorem inv_start (hlen : len < 2 ^ 63) : Inv buf len (start f len) := by
  have hw : f.wrap len = len := f.wrap_of_lt (by omega) (by omega)
  have hb : (len : Int).bmod (2 ^ 64) = len := Int.bmod_eq_of_le (by omega) (by omega)
  unfold start
  rw [hw, hb]
  apply Inv.loop
  · simp
  · simp
  · simp [offset]
  · intro _ hpos
    exact ⟨hpos, by dsimp only; omega⟩

/-- Every answer refuses, grants space, has the loop wait, or takes bytes. -/
theorem step_cases {a : Answer Nat} (h : step D f buf len s a = some s') :
    (f.refuses a ∧ ∃ v c, c < 0 ∧ s' = { s with navail := v, phase := .ret c }) ∨
    (∃ v, a = .poll v ∧ 0 < v ∧ v < 2 ^ 63 ∧ s.phase = .poll ∧
      (f.et ∧ s' = loop f { s with navail := v } ∨ s' = { s with navail := v, phase := .call })) ∨
    (∃ e, a = .fail e ∧ f.retries e ∧ s.phase = .call ∧ s' = { s with phase := .poll }) ∨
    (∃ n, a = .ok n ∧ n ≤ s.request f ∧ s.phase = .call ∧ s' = loop f { s with
      remaining := f.wrap (s.remaining - n)
      sent := s.sent ++ (buf.drop (s.offset len).toNat).take n }) := by
  cases a with
  | poll v =>
    simp only [step] at h
    split at h
    · cases h
    · rename_i hp
      obtain ⟨hp, hv⟩ : s.phase = .poll ∧ v.bmod (2 ^ 64) = v := by
        simpa only [not_or, not_not] using hp
      have hlt : v < 2 ^ 63 := by
        have := Int.bmod_lt (x := v) (m := 2 ^ 64) (by decide)
        omega
      split at h
      · cases h
        exact .inl ⟨‹v ≤ 0›, v, _, D.neg _ 1 (by decide), rfl⟩
      · rename_i hpos
        refine .inr (.inl ⟨v, rfl, by omega, hlt, hp, ?_⟩)
        split at h <;> cases h
        · exact .inl ⟨‹_›, rfl⟩
        · exact .inr rfl
  | fail e =>
    simp only [step] at h
    split at h
    · cases h
    · rename_i hp
      split at h <;> cases h
      · exact .inr (.inr (.inl ⟨e, rfl, ‹_›, not_not.1 hp, rfl⟩))
      · exact .inl ⟨‹_›, s.navail, _, D.neg _ 2 (by decide), rfl⟩
  | ok n =>
    simp only [step] at h
    split at h
    · cases h
    · rename_i hp
      obtain ⟨hp, hn⟩ := not_or.1 hp
      cases h
      exact .inr (.inr (.inr ⟨n, rfl, Nat.le_of_not_lt hn, not_not.1 hp, rfl⟩))

/-- The request of a loop that calls. -/
theorem Inv.request (h : Inv buf len s) (hlen : len < 2 ^ 63) (hp : s.phase = .call) :
    (s.request f : Int) = min s.navail s.remaining := by
  have hr := h.running (.inr hp)
  have hle := h.le
  obtain ⟨hv, hv'⟩ := h.space hp
  unfold WriteLoop.request
  rw [f.wrap_of_lt (by omega) hv']
  omega

theorem inv_step {a : Answer Nat} (hlen : len < 2 ^ 63) (h : Inv buf len s)
    (hs : step D f buf len s a = some s') : Inv buf len s' := by
  obtain ⟨-, v, c, hc, rfl⟩ | ⟨v, rfl, h0, hv, hp, he⟩ | ⟨e, rfl, -, hp, rfl⟩ | ⟨n, rfl, hn, hp, rfl⟩ :=
    step_cases hs
  · refine ⟨h.nonneg, h.le, h.sent, fun hp => by simp at hp, fun hp => by simp at hp, fun hp => ?_⟩
    cases hp
    omega
  · obtain ⟨-, rfl⟩ | rfl := he
    · exact Inv.loop h.nonneg h.le h.sent fun _ _ => ⟨h0, hv⟩
    · refine ⟨h.nonneg, h.le, h.sent, fun _ => h.running (.inl hp), fun _ => ⟨h0, hv⟩, fun hp => ?_⟩
      cases hp
  · refine ⟨h.nonneg, h.le, h.sent, fun _ => h.running (.inr hp), fun hp => ?_, fun hp => ?_⟩ <;>
      cases hp
  · have hreq := h.request (f := f) hlen hp
    have h0 := h.nonneg
    have hle := h.le
    obtain ⟨hv, hv'⟩ := h.space hp
    have hrem : f.wrap (s.remaining - n) = s.remaining - n := f.wrap_of_lt (by omega) (by omega)
    -- the bytes taken start where the sent ones end
    have hoff : (s.offset len + n).toNat = (s.offset len).toNat + n := by
      have : 0 ≤ s.offset len := by unfold offset; omega
      omega
    rw [hrem]
    apply Inv.loop
    · dsimp only; omega
    · dsimp only; omega
    · have : offset len { s with remaining := s.remaining - n } = s.offset len + n := by
        simp only [offset]; omega
      simp only [offset] at this hoff ⊢
      rw [this, hoff, List.take_add, h.sent]
      rfl
    · exact fun _ _ => ⟨hv, hv'⟩

theorem inv_run (hlen : len < 2 ^ 63) {as : List (Answer Nat)}
    (h : exec (step D f buf len) (start f len) as = some s) : Inv buf len s :=
  exec_inv (C := fun _ _ => True) (fun _ _ _ hI _ hs => inv_step hlen hI hs) (inv_start hlen)
    (along_of_forall fun _ _ => trivial) h

/-- A loop that has returned asks nothing. -/
theorem step_ret {a : Answer Nat} {r : Int} (hp : s.phase = .ret r) :
    step D f buf len s a = none := by
  cases a <;> simp [step, hp]

/-- The loop has returned one of its codes. -/
def Refused (s : WriteLoop) : Prop := ∃ r, s.phase = .ret r ∧ r ≠ 0

theorem not_refused (h : ∀ r, s.phase = .ret r → r = 0) : ¬ s.Refused := fun hr => by
  obtain ⟨r, hr, h0⟩ := hr
  exact h0 (h r hr)

theorem not_refused_loop : ¬ (loop f s).Refused := by
  refine not_refused fun r hr => ?_
  simp only [loop] at hr
  split at hr
  · split at hr <;> cases hr
  · cases hr
    rfl

theorem refused_step {a : Answer Nat} (h : step D f buf len s a = some s') :
    s'.Refused ↔ f.refuses a := by
  obtain ⟨ha, v, c, hc, rfl⟩ | ⟨v, rfl, h0, -, -, he⟩ | ⟨e, rfl, he, -, rfl⟩ | ⟨n, rfl, -, -, rfl⟩ :=
    step_cases h
  · exact iff_of_true ⟨c, rfl, Int.ne_of_lt hc⟩ ha
  · refine iff_of_false ?_ fun hv => ?_
    · obtain ⟨-, rfl⟩ | rfl := he
      · exact not_refused_loop
      · exact not_refused fun r hr => by cases hr
    · exact absurd h0 (not_lt_of_ge hv)
  · exact iff_of_false (not_refused fun r hr => by cases hr) fun hn => hn he
  · exact iff_of_false not_refused_loop id

theorem refused_run {as : List (Answer Nat)} (hs : ¬ s.Refused)
    (h : exec (step D f buf len) s as = some s') : s'.Refused ↔ ∃ a ∈ as, f.refuses a := by
  induction as generalizing s with
  | nil => cases h; simpa using hs
  | cons a as ih =>
    obtain ⟨u, hu, hr⟩ := exec_cons h
    have ha := refused_step hu
    by_cases hf : f.refuses a
    · obtain ⟨r, hr0, h0⟩ := ha.2 hf
      cases as with
      | nil =>
        cases hr
        exact iff_of_true ⟨r, hr0, h0⟩ ⟨a, List.mem_cons_self, hf⟩
      | cons b bs =>
        obtain ⟨v, hv, -⟩ := exec_cons hr
        cases (step_ret hr0).symm.trans hv
    · rw [ih (fun hc => hf (ha.1 hc)) hr]
      simp [hf]

theorem ret_nonpos {as : List (Answer Nat)} (hs : ∀ r, s.phase = .ret r → r ≤ 0)
    (h : exec (step D f buf len) s as = some s') : ∀ r, s'.phase = .ret r → r ≤ 0 := by
  induction as generalizing s with
  | nil => cases h; exact hs
  | cons a as ih =>
    obtain ⟨u, hu, hr⟩ := exec_cons h
    refine ih (fun r hp => ?_) hr
    by_cases h0 : r = 0
    · exact Int.le_of_eq h0
    obtain ⟨-, v, c, hc, rfl⟩ | ⟨v, rfl, -, -, -, he⟩ | ⟨e, rfl, -, -, rfl⟩ | ⟨n, rfl, -, -, rfl⟩ :=
      step_cases hu
    · cases hp
      exact Int.le_of_lt hc
    · obtain ⟨-, rfl⟩ | rfl := he
      · exact absurd ⟨r, hp, h0⟩ not_refused_loop
      · cases hp
    · cases hp
    · exact absurd ⟨r, hp, h0⟩ not_refused_loop

/-- With nothing to write, or a length that `off_t` cannot hold, a loop on an
`off_t` returns at once. -/
theorem run_of_nonpos {as : List (Answer Nat)} (hf : f.unsigned = false)
    (hlen : (len : Int).bmod (2 ^ 64) ≤ 0)
    (h : exec (step D f buf len) (start f len) as = some s) : s.sent = [] ∧ s.phase = .ret 0 := by
  have hw : f.wrap len ≤ 0 := by simpa [WriteFn.wrap, hf] using hlen
  have hp : (start f len).phase = .ret 0 := by
    simp only [start, loop]
    exact if_neg (Int.not_lt.2 hw)
  cases as with
  | nil =>
    cases h
    exact ⟨rfl, hp⟩
  | cons a as =>
    obtain ⟨u, hu, -⟩ := exec_cons h
    cases (step_ret hp).symm.trans hu

/-- What a write loop owes its caller, at any moment. -/
structure Delivers (f : WriteFn) (buf : List UInt8) (as : List (Answer Nat)) (s : WriteLoop) :
    Prop where
  inside : s.phase = .call →
    0 ≤ s.offset buf.length ∧ s.offset buf.length + s.request f ≤ buf.length
  inOrder : s.sent <+: buf
  whole : s.phase = .ret 0 → s.sent = buf
  code : s.Refused ↔ ∃ a ∈ as, f.refuses a

theorem delivers {as : List (Answer Nat)} (hlen : buf.length < 2 ^ 63)
    (h : exec (step D f buf buf.length) (start f buf.length) as = some s) :
    Delivers f buf as s := by
  have hI := inv_run hlen h
  refine ⟨fun hp => ?_, ?_, fun hp => ?_, refused_run not_refused_loop h⟩
  · have hreq := hI.request (f := f) hlen hp
    have h0 := hI.nonneg
    have hle := hI.le
    unfold offset
    omega
  · rw [hI.sent]
    exact List.take_prefix ..
  · rw [hI.sent, offset, hI.done hp]
    simp

end WriteLoop

/-- Over every sequence of answers, the four write loops deliver the buffer
once and in order, and fail exactly when they are refused. -/
theorem write_loops_deliver (D : IoDiag) (f : WriteFn)
    (_hf : f ∈ [writeAll, writeAllEt, sendAll, sendtoAll]) (buf : List UInt8)
    (hlen : buf.length < 2 ^ 63) (as : List (Answer Nat)) (s : WriteLoop)
    (h : exec (WriteLoop.step D f buf buf.length) (.start f buf.length) as = some s) :
    s.Delivers f buf as :=
  WriteLoop.delivers hlen h

/-- A short write, a descriptor that takes nothing for a while, the rest. -/
theorem write_loops_deliver_short :
    ∃ s, exec (WriteLoop.step .sample writeAllEt [1, 2, 3] 3) (.start writeAllEt 3)
        [.ok 1, .fail .EAGAIN, .poll 8, .ok 2] = some s ∧
      s.phase = .ret 0 ∧ s.Delivers writeAllEt [1, 2, 3] [.ok 1, .fail .EAGAIN, .poll 8, .ok 2] :=
  ⟨_, rfl, rfl, write_loops_deliver .sample writeAllEt (by simp) [1, 2, 3] (by decide) _ _ rfl⟩

/-! ## Bytestreams -/

/-- What a call owes the stream. -/
structure Advances (s s' : Bytestream) (c : WriteCall) (w : Wrote) : Prop where
  taken : 0 ≤ w.ret → c.sz ≤ s.eod - s.pos →
    s'.pos = s.pos + c.sz ∧ w.sent = (s.data.drop s.pos).take c.sz
  kept : w.ret < 0 → s'.pos = s.pos

namespace Bytestream
variable {D : IoDiag} {useEv : Bool} {s s' : Bytestream} {c : WriteCall} {w : Wrote}

theorem fn_signed (c : WriteCall) (useEv : Bool) : (c.fn useEv).unsigned = false := by
  unfold WriteCall.fn
  split <;> rfl

/-- No call moves the stream: the loop returns 0 or a code. -/
theorem write_cases (h : s.write D useEv c = some (s', w)) : s' = s ∧ c.sz < 2 ^ 64 ∧
    ((w = ⟨-1, true, []⟩ ∧ s.eod < s.pos + (c.sz : Int).bmod (2 ^ 64)) ∨
      (s.pos + (c.sz : Int).bmod (2 ^ 64) ≤ s.eod ∧ w.refused = false ∧ w.ret ≤ 0 ∧ ∃ l : WriteLoop,
        exec (WriteLoop.step D (c.fn useEv) (s.data.drop s.pos) c.sz) (.start (c.fn useEv) c.sz)
          c.answers = some l ∧ l.phase = .ret w.ret ∧ w.sent = l.sent)) := by
  simp only [write] at h
  split at h
  · cases h
  · rename_i hsz
    have hlt : c.sz < 2 ^ 64 := by omega
    split at h
    · cases h
      exact ⟨rfl, hlt, .inl ⟨rfl, ‹_›⟩⟩
    · rename_i hle
      obtain ⟨l, hl, h⟩ := Option.bind_eq_some_iff.1 h
      split at h
      · rename_i r hr
        have hr0 : r ≤ 0 := by
          refine WriteLoop.ret_nonpos (fun r hp => ?_) hl r hr
          by_cases h0 : r = 0
          · exact Int.le_of_eq h0
          · exact absurd ⟨r, hp, h0⟩ WriteLoop.not_refused_loop
        cases h
        have hpos : (if 0 ≤ r then s.pos + r.toNat else s.pos) = s.pos := by
          split
          · have : r = 0 := by omega
            simp [this]
          · rfl
        exact ⟨by rw [hpos], hlt, .inr ⟨Int.not_lt.1 hle, rfl, hr0, l, hl, hr, rfl⟩⟩
      · cases h

/-- A call within the stream that nothing refuses returns 0. -/
theorem write_ret (h : s.write D useEv c = some (s', w)) (hsz : c.sz ≤ s.eod - s.pos)
    (hpos : s.pos ≤ s.eod) (heod : s.eod < 2 ^ 63)
    (ha : ∀ a ∈ c.answers, ¬ (c.fn useEv).refuses a) : w.ret = 0 := by
  have hb : (c.sz : Int).bmod (2 ^ 64) = c.sz := Int.bmod_eq_of_le (by omega) (by omega)
  obtain ⟨-, -, ⟨-, hlt⟩ | ⟨-, -, -, l, hl, hr, -⟩⟩ := write_cases h
  · rw [hb] at hlt
    omega
  · by_contra h0
    obtain ⟨a, hm, hf⟩ := (WriteLoop.refused_run WriteLoop.not_refused_loop hl).1 ⟨_, hr, h0⟩
    exact ha a hm hf

/-- A call that takes nothing, or that cannot: nothing is written. -/
theorem write_nothing (h : s.write D useEv c = some (s', w))
    (hsz : c.sz = 0 ∨ s.eod - s.pos < c.sz) (hpos : s.pos ≤ s.eod) : w.sent = [] := by
  obtain ⟨-, hlt, ⟨rfl, -⟩ | ⟨hle, -, -, l, hl, hr, hw⟩⟩ := write_cases h
  · rfl
  · rw [hw]
    refine (WriteLoop.run_of_nonpos (fn_signed c useEv) ?_ hl).1
    obtain h0 | hgt := hsz
    · simp [h0]
    · have := Int.bmod_def (c.sz : Int) (2 ^ 64)
      omega

theorem writes_stream {cs : List WriteCall} {p q : Bytestream × List Wrote}
    (h : exec (writes D useEv) p cs = some q) : q.1 = p.1 := by
  induction cs generalizing p with
  | nil => cases h; rfl
  | cons c cs ih =>
    obtain ⟨u, hu, hr⟩ := exec_cons h
    obtain ⟨x, hx, rfl⟩ := Option.map_eq_some_iff.1 hu
    rw [ih hr]
    exact (write_cases hx).1

/-- What is listed beside the stream, call by call. -/
theorem writes_calls {cs : List WriteCall} {p q : Bytestream × List Wrote}
    (h : exec (writes D useEv) p cs = some q) :
    ∃ ws, q.2 = p.2 ++ ws ∧ ∀ w ∈ ws, ∃ c ∈ cs, p.1.write D useEv c = some (p.1, w) := by
  induction cs generalizing p with
  | nil => cases h; exact ⟨[], by simp, fun _ hw => by simp at hw⟩
  | cons c cs ih =>
    obtain ⟨u, hu, hr⟩ := exec_cons h
    obtain ⟨x, hx, rfl⟩ := Option.map_eq_some_iff.1 hu
    have hs : x.1 = p.1 := (write_cases hx).1
    obtain ⟨ws, hq, hws⟩ := ih hr
    simp only [hs] at hq hws
    refine ⟨x.2 :: ws, by rw [hq, List.append_assoc]; rfl, fun w hw => ?_⟩
    obtain rfl | hw := List.mem_cons.1 hw
    · exact ⟨c, List.mem_cons_self, by rw [hx, ← hs]⟩
    · obtain ⟨d, hd, hdw⟩ := hws w hw
      exact ⟨d, List.mem_cons_of_mem _ hd, hdw⟩

end Bytestream

/-- The calls of a run advance the stream as they should, and what they write is
what it moved over, exactly when every call within the stream is for no bytes
or is refused by the poller or the system call. -/
theorem stream_advances_iff (D : IoDiag) (useEv : Bool) (s : Bytestream) (hpos : s.pos ≤ s.eod)
    (heod : s.eod ≤ s.data.length) (hlen : s.data.length < 2 ^ 63) (cs : List WriteCall)
    (p : Bytestream × List Wrote) (h : exec (writes D useEv) (s, []) cs = some p) :
    ((∀ pre c post u q w, cs = pre ++ c :: post → exec (writes D useEv) (s, []) pre = some u →
        u.1.write D useEv c = some (q, w) → Advances u.1 q c w) ∧
      ((∀ w ∈ p.2, w.refused ∨ 0 ≤ w.ret) →
        (p.2.map Wrote.sent).flatten = (s.data.drop s.pos).take (p.1.pos - s.pos)))
      ↔ ∀ c ∈ cs, c.sz = 0 ∨ s.eod - s.pos < c.sz ∨ ∃ a ∈ c.answers, (c.fn useEv).refuses a := by
  obtain ⟨ws, hp, hws⟩ := Bytestream.writes_calls h
  have hstream : p.1 = s := Bytestream.writes_stream h
  rw [List.nil_append] at hp
  constructor
  · intro hall c hc
    by_contra hno
    simp only [not_or, Nat.not_lt, not_exists, not_and] at hno
    obtain ⟨hsz, hle, ha⟩ := hno
    obtain ⟨pre, post, rfl⟩ := List.append_of_mem hc
    obtain ⟨u, hu, hr⟩ := exec_append h
    have hus : u.1 = s := Bytestream.writes_stream hu
    obtain ⟨v, hv, -⟩ := exec_cons hr
    obtain ⟨⟨q, w⟩, hx, -⟩ := Option.map_eq_some_iff.1 hv
    have hadv := hall.1 pre c post u q w rfl hu hx
    rw [hus] at hx hadv
    have hret := Bytestream.write_ret hx hle hpos (by omega) ha
    have := (hadv.taken (by omega) hle).1
    rw [(Bytestream.write_cases hx).1] at this
    omega
  · intro hno
    -- a call that returns 0 took nothing, or could not
    have hidle : ∀ {c w}, c ∈ cs → s.write D useEv c = some (s, w) → w.refused ∨ 0 ≤ w.ret →
        c.sz = 0 ∨ s.eod - s.pos < c.sz := by
      intro c w hc hw hok
      obtain h0 | hgt | ha := hno c hc
      · exact .inl h0
      · exact .inr hgt
      · obtain ⟨-, -, ⟨rfl, hlt⟩ | ⟨-, hf, h0, l, hl, hr, -⟩⟩ := Bytestream.write_cases hw
        · by_contra hn
          simp only [not_or, Nat.not_lt] at hn
          have hb : (c.sz : Int).bmod (2 ^ 64) = c.sz := Int.bmod_eq_of_le (by omega) (by omega)
          omega
        · obtain ⟨r, hr', hr0⟩ := (WriteLoop.refused_run WriteLoop.not_refused_loop hl).2 ha
          have hret : 0 ≤ w.ret := hok.resolve_left (by simp [hf])
          cases hr.symm.trans hr'
          omega
    refine ⟨fun pre c post u q w hcs hu hw => ?_, fun hok => ?_⟩
    · have hus : u.1 = s := Bytestream.writes_stream hu
      rw [hus] at hw ⊢
      obtain ⟨rfl, -⟩ := Bytestream.write_cases hw
      refine ⟨fun h0 hle => ?_, fun _ => rfl⟩
      obtain hz | hgt := hidle (by simp [hcs]) hw (.inr h0)
      · rw [Bytestream.write_nothing hw (.inl hz) hpos]
        simp [hz]
      · omega
    · have hnone : ∀ w ∈ ws, w.sent = [] := by
        intro w hw
        obtain ⟨c, hc, hcw⟩ := hws w hw
        exact Bytestream.write_nothing hcw (hidle hc hcw (hok w (hp ▸ hw))) hpos
      rw [hp, hstream, Nat.sub_self, List.take_zero, List.flatten_eq_nil_iff]
      simpa using hnone

/-- Two calls that succeed, for one byte each, write the first byte twice. -/
theorem stream_repeats :
    ∃ p, exec (writes .sample false) (⟨[65, 66], 0, 2⟩, [])
        [⟨false, 1, [.poll 8, .ok 1]⟩, ⟨false, 1, [.poll 8, .ok 1]⟩] = some p ∧
      p.2 = [⟨0, false, [65]⟩, ⟨0, false, [65]⟩] ∧
      ¬ (p.2.map Wrote.sent).flatten = ([65, 66].drop 0).take (p.1.pos - 0) ∧
      ¬ Advances ⟨[65, 66], 0, 2⟩ p.1 ⟨false, 1, [.poll 8, .ok 1]⟩ ⟨0, false, [65]⟩ := by
  refine ⟨_, rfl, rfl, by decide, fun h => ?_⟩
  exact absurd (h.taken (by decide) (by decide)).1 (by decide)

/-- A call for nothing, one beyond the end and one that the descriptor refuses. -/
theorem stream_advances_refused :
    ∃ p, exec (writes .sample false) (⟨[65, 66], 0, 2⟩, [])
        [⟨false, 0, []⟩, ⟨false, 3, []⟩, ⟨true, 1, [.fail (.other 32)]⟩] = some p ∧
      ∀ pre c post u q w, [⟨false, 0, []⟩, ⟨false, 3, []⟩, ⟨true, 1, [.fail (.other 32)]⟩] =
        pre ++ c :: post → exec (writes .sample false) (⟨[65, 66], 0, 2⟩, []) pre = some u →
        u.1.write .sample false c = some (q, w) → Advances u.1 q c w :=
  ⟨_, rfl, ((stream_advances_iff .sample false ⟨[65, 66], 0, 2⟩ (by decide) (by decide)
    (by decide) _ _ rfl).2 (by decide)).1⟩

end Mnthr
