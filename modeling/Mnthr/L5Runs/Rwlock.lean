import Mnthr.L4Inv.Locks

/-!
# Readers-writer locks

`rwlock_safe`: in every run in which a thread releases only a lock that it
holds, and fewer than 2^32 read locks are held at once, the two fields of a lock
say who holds it: `nreaders` is the number of read locks, `fwriter` is set iff
the write lock is held, and never both. Interrupts, spurious resumes and every
other call of the library may come at any time.
-/
namespace Mnthr
open St

/-- What an event does to lock `i`. -/
inductive RwlockStep (i : Nat) (s : St) (e : Event) (s' : St) : Prop where
  | grantRead (hg : s.granted e s' = some (.read i)) (hf : s.objs.fwriter i = false)
      (hw : s'.objs.fwriter i = false)
      (hn : s'.objs.nreaders i = (s.objs.nreaders i + 1) % 2 ^ 32)
  | grantWrite (hg : s.granted e s' = some (.write i)) (hf : s.objs.fwriter i = false)
      (h0 : s.objs.nreaders i = 0) (hw : s'.objs.fwriter i = true) (hn : s'.objs.nreaders i = 0)
  | giveRead (hg : s.granted e s' = none) (hv : e.gives = some (.read i))
      (hf : s.objs.fwriter i = false) (hw : s'.objs.fwriter i = false)
      (hn : s'.objs.nreaders i = (s.objs.nreaders i + (2 ^ 32 - 1)) % 2 ^ 32)
  | giveWrite (hg : s.granted e s' = none) (hv : e.gives = some (.write i))
      (hf : s.objs.fwriter i = true) (h0 : s.objs.nreaders i = 0)
      (hw : s'.objs.fwriter i = false) (hn : s'.objs.nreaders i = 0)
  | other (hg : ∀ g : Grant, g.queue = .rwlock i → s.granted e s' ≠ some g ∧ e.gives ≠ some g)
      (hw : s'.objs.fwriter i = s.objs.fwriter i) (hn : s'.objs.nreaders i = s.objs.nreaders i)

section
variable {D : Diag} {s s' : St} {e : Event} {g : Grant} {i : Nat}

theorem RwlockStep.grant (hg : s.granted e s' = some g) (hv : e.gives = none)
    (hf : s.objs.free g) (ho : s'.objs = s.objs.grant g) : RwlockStep i s e s' := by
  by_cases hq : g.queue = .rwlock i
  · cases g with
    | sema j => cases hq
    | read j =>
      cases hq
      exact .grantRead hg hf (by rw [ho]; exact hf) (by rw [ho]; simp [Objs.grant, Objs.setNreaders])
    | write j =>
      cases hq
      exact .grantWrite hg hf.1 hf.2 (by rw [ho]; simp [Objs.grant, Objs.setFwriter])
        (by rw [ho]; exact hf.2)
  · refine .other (fun g' hg' => ⟨?_, by simp [hv]⟩) ?_ ?_
    · rw [hg]
      rintro ⟨⟩
      exact hq hg'
    all_goals
      rw [ho]
      cases g with
      | sema j => rfl
      | read j | write j =>
        have hj : i ≠ j := fun hx => hq (by rw [hx]; rfl)
        simp [Objs.grant, Objs.setNreaders, Objs.setFwriter, hj]

theorem RwlockStep.give (hg : s.granted e s' = none) (hv : e.gives = some g)
    (ha : s.objs.givable g) (ho : s'.objs = s.objs.give g) : RwlockStep i s e s' := by
  by_cases hq : g.queue = .rwlock i
  · cases g with
    | sema j => cases hq
    | read j =>
      cases hq
      exact .giveRead hg hv ha (by rw [ho]; exact ha) (by rw [ho]; simp [Objs.give, Objs.setNreaders])
    | write j =>
      cases hq
      exact .giveWrite hg hv ha.1 ha.2 (by rw [ho]; simp [Objs.give, Objs.setFwriter])
        (by rw [ho]; exact ha.2)
  · refine .other (fun g' hg' => ⟨by simp [hg], ?_⟩) ?_ ?_
    · rw [hv]
      rintro ⟨⟩
      exact hq hg'
    all_goals
      rw [ho]
      cases g with
      | sema j => rfl
      | read j | write j =>
        have hj : i ≠ j := fun hx => hq (by rw [hx]; rfl)
        simp [Objs.give, Objs.setNreaders, Objs.setFwriter, hj]

theorem rwlock_step (h : StepEffect s e s') (he : e ≠ .call (.rwlockFini i)) :
    RwlockStep i s e s' := by
  have still : s.granted e s' = none → e.gives = none → s'.objs.fwriter i = s.objs.fwriter i →
      s'.objs.nreaders i = s.objs.nreaders i → RwlockStep i s e s' :=
    fun h1 h2 => .other fun g _ => ⟨by simp [h1], by simp [h2]⟩
  cases h.objs with
  | same hg hv ho => exact still hg hv (by rw [ho]) (by rw [ho])
  | owner hg hv ho => exact still hg hv (by rw [ho]; rfl) (by rw [ho]; rfl)
  | grant hg hv hf ho => exact .grant hg hv hf ho
  | give hg hv ha ho => exact .give hg hv ha ho
  | isemaAcquire he' ha ho =>
    subst he'
    exact still (granted_of_asks rfl) rfl (by rw [ho]; rfl) (by rw [ho]; rfl)
  | isemaRelease he' ho | isemaFini he' ho | semaFini he' ho =>
    subst he'
    exact still (granted_of_asks rfl) rfl (by rw [ho]; rfl) (by rw [ho]; rfl)
  | @rwlockFini j he' ho =>
    subst he'
    have hj : i ≠ j := fun hx => he (by rw [hx])
    refine still (granted_of_asks rfl) rfl ?_ ?_
    all_goals
      rw [ho]
      simp [Objs.rwlockFini, Objs.setNreaders, Objs.setFwriter, hj]

/-- A thread releases lock `i` only when it holds it, fewer than 2^32 read locks
are held at once, and nobody finalizes the lock. -/
def RwlockUse (D : Diag) (i : Nat) (p : St × List (Option Ptr × Grant)) (e : Event) : Prop :=
  (e.gives = some (.read i) → (p.1.me, .read i) ∈ p.2) ∧
  (e.gives = some (.write i) → (p.1.me, .write i) ∈ p.2) ∧
  e ≠ .call (.rwlockFini i) ∧ ∀ p' ∈ ledger D p e, held (.read i) p'.2 < 2 ^ 32

instance (p : St × List (Option Ptr × Grant)) (e : Event) : Decidable (RwlockUse D i p e) := by
  unfold RwlockUse; infer_instance

structure LockFields (i : Nat) (p : St × List (Option Ptr × Grant)) : Prop where
  writer : held (.write i) p.2 = if p.1.objs.fwriter i then 1 else 0
  readers : p.1.objs.nreaders i = held (.read i) p.2
  exclusion : p.1.objs.fwriter i = true → p.1.objs.nreaders i = 0

theorem lockFields_step {p p' : St × List (Option Ptr × Grant)} (hI : Inv p.1)
    (h : LockFields i p) (hu : RwlockUse D i p e) (hs : ledger D p e = some p') :
    LockFields i p' := by
  obtain ⟨hstep, hbook⟩ := recorded_step hs
  obtain ⟨hread, hwrite, hfini, hmany⟩ := hu
  have hmany := hmany p' hs
  have hw := h.writer
  have hr := h.readers
  cases rwlock_step (step_effect hI.base hstep) hfini with
  | grantRead hg hf hw' hn =>
    rw [hbook, book_granted hg, held_cons, if_pos rfl] at hmany
    rw [hf] at hw
    refine ⟨?_, ?_, by simp [hw']⟩
    · rw [hbook, book_granted hg, held_cons, if_neg (by simp), hw', hw]
      rfl
    · rw [hbook, book_granted hg, held_cons, if_pos rfl, hn, hr]
      exact Nat.mod_eq_of_lt hmany
  | grantWrite hg hf h0 hw' hn =>
    rw [hf] at hw
    refine ⟨?_, ?_, fun _ => hn⟩
    · rw [hbook, book_granted hg, held_cons, if_pos rfl, hw', hw]
      rfl
    · rw [hbook, book_granted hg, held_cons, if_neg (by simp), hn, ← hr, h0]
  | giveRead hg hv hf hw' hn =>
    have hm := hread hv
    have hpos := held_pos hm
    have her := held_erase (g := .read i) hm
    have hew := held_erase (g := .write i) hm
    rw [if_pos rfl] at her
    rw [if_neg (by simp)] at hew
    rw [hf] at hw
    refine ⟨?_, ?_, by simp [hw']⟩
    · rw [hbook, book_gives hg hv, hw', ← hw]
      exact hew
    · rw [hbook, book_gives hg hv] at hmany ⊢
      rw [hn, hr, ← her]
      omega
  | giveWrite hg hv hf h0 hw' hn =>
    have hm := hwrite hv
    have her := held_erase (g := .read i) hm
    have hew := held_erase (g := .write i) hm
    rw [if_neg (by simp)] at her
    rw [if_pos rfl, hw, hf] at hew
    refine ⟨?_, ?_, by simp [hw']⟩
    · rw [hbook, book_gives hg hv, hw']
      simpa using hew
    · rw [hbook, book_gives hg hv, hn, ← h0, hr]
      exact her.symm
  | other hg hw' hn =>
    have hsame : ∀ g : Grant, g.queue = .rwlock i → held g p'.2 = held g p.2 := by
      intro g hq
      rw [hbook]
      exact held_book_ne (hg g hq).1 (hg g hq).2
    refine ⟨?_, ?_, ?_⟩
    · rw [hsame _ rfl, hw', hw]
    · rw [hsame _ rfl, hn, hr]
    · rw [hw', hn]
      exact h.exclusion

end

/-! ## Runs -/

/-- Lock `i` with the ledger `l`: its fields say who holds it, what the release
functions assert holds for a holder, the reader count of a holder is not 0, and
an acquire that does not return 0 changes neither field. The acquire functions
assert the negation of the test that they have just made. -/
structure RwlockSafe (D : Diag) (i : Nat) (s : St) (l : List (Option Ptr × Grant)) : Prop where
  writer : s.objs.fwriter i = true ↔ held (.write i) l = 1
  single : held (.write i) l ≤ 1
  readers : s.objs.nreaders i = held (.read i) l
  exclusion : s.objs.fwriter i = true → s.objs.nreaders i = 0
  acquire : ∀ g : Grant, g.queue = .rwlock i → ¬ s.objs.busy g → s.objs.free g
  release : ∀ g : Grant, g.queue = .rwlock i → (s.me, g) ∈ l → s.objs.givable g
  underflow : (s.me, .read i) ∈ l → 0 < s.objs.nreaders i
  failed : ∀ e s' g, s.step D e = some s' → s.asks e = some g → s.granted e s' = none →
    s'.objs.fwriter i = s.objs.fwriter i ∧ s'.objs.nreaders i = s.objs.nreaders i

section
variable {D : Diag} {i : Nat} {s : St} {l : List (Option Ptr × Grant)}

theorem rwlock_acquire {g : Grant} (hq : g.queue = .rwlock i) (h : ¬ s.objs.busy g) :
    s.objs.free g := by
  cases g with
  | sema j => cases hq
  | read j => simpa [Objs.busy, Objs.free] using h
  | write j =>
    simp only [Objs.busy, not_or] at h
    exact ⟨by simpa using h.1, by omega⟩

/-- What a holder may rely on in the release functions. -/
theorem rwlock_release (h : LockFields i (s, l)) {g : Grant} (hq : g.queue = .rwlock i)
    (hm : (s.me, g) ∈ l) : s.objs.givable g := by
  have hpos := held_pos hm
  have hw : held (.write i) l = if s.objs.fwriter i then 1 else 0 := h.writer
  have hr : s.objs.nreaders i = held (.read i) l := h.readers
  have hx : s.objs.fwriter i = true → s.objs.nreaders i = 0 := h.exclusion
  cases g with
  | sema j => cases hq
  | read j =>
    cases hq
    show s.objs.fwriter i = false
    rw [Bool.eq_false_iff]
    intro hf
    have := hx hf
    omega
  | write j =>
    cases hq
    have hf : s.objs.fwriter i = true := by
      by_contra hf
      rw [if_neg hf] at hw
      omega
    exact ⟨hf, hx hf⟩

theorem rwlock_failed (hI : Inv s) {e : Event} {s' : St} {g : Grant} (hs : s.step D e = some s')
    (ha : s.asks e = some g) (hg : s.granted e s' = none) :
    s'.objs.fwriter i = s.objs.fwriter i ∧ s'.objs.nreaders i = s.objs.nreaders i := by
  have hfini : e ≠ .call (.rwlockFini i) := by
    intro heq
    subst heq
    cases ha
  cases rwlock_step (step_effect hI.base hs) hfini with
  | grantRead hg' | grantWrite hg' => rw [hg] at hg'; cases hg'
  | giveRead _ hv | giveWrite _ hv => rw [gives_of_asks ha] at hv; cases hv
  | other _ hw hn => exact ⟨hw, hn⟩

end

theorem rwlock_safe {D : Diag} {objs : Objs} {now i : Nat} {es : List Event} {s : St}
    {l : List (Option Ptr × Grant)} (h0 : objs.nreaders i = 0) (hf : objs.fwriter i = false)
    (hr : exec (ledger D) (St.init objs now, []) es = some (s, l))
    (hc : Along (ledger D) (RwlockUse D i) (St.init objs now, []) es) : RwlockSafe D i s l := by
  have hstart : LockFields i (St.init objs now, []) :=
    ⟨by simp [St.init, held, hf], by simp [St.init, held, h0], by simp [St.init, hf]⟩
  obtain ⟨hI, h⟩ := exec_inv (I := fun p => Inv p.1 ∧ LockFields i p)
    (fun p e p' hp hu hs => ⟨inv_step hp.1 (recorded_step hs).1, lockFields_step hp.1 hp.2 hu hs⟩)
    ⟨inv_init objs now, hstart⟩ hc hr
  have hw : held (.write i) l = if s.objs.fwriter i then 1 else 0 := h.writer
  have hn : s.objs.nreaders i = held (.read i) l := h.readers
  refine ⟨?_, ?_, hn, h.exclusion, fun g => rwlock_acquire, fun g => rwlock_release h, ?_,
    fun e s' g => rwlock_failed hI⟩
  · rw [hw]; split <;> simp_all
  · rw [hw]; split <;> omega
  · intro hm
    have := held_pos hm
    omega

/-- Thread 0 takes the write lock, threads 1 and 2 wait to read; thread 1 is
interrupted, thread 0 releases the lock, thread 2 reads. -/
def interruptedReader : List Event :=
  [.call (.spawn 0), .call (.spawn 0), .call (.spawn 0), .tick 10, .sift, .next,
    .block (.rwlockAcquireWrite 0) false, .block .yield false, .next,
    .block (.rwlockAcquireRead 0) false, .next, .block (.rwlockAcquireRead 0) false, .sift, .next,
    .cont false, .call (.setInterrupt 1), .call (.rwlockReleaseWrite 0),
    .block (.sleep .msec 5) false, .sift, .next, .cont false, .block .yield false, .next,
    .cont false]

theorem rwlock_safe_interruptedReader : ∃ s l,
    exec (ledger .sample) (St.init .sample 0, []) interruptedReader = some (s, l) ∧
    l = [(some 2, .read 0)] ∧ RwlockSafe .sample 0 s l := by
  obtain ⟨⟨s, l⟩, hs⟩ := Option.isSome_iff_exists.1
    (show (exec (ledger .sample) (St.init .sample 0, []) interruptedReader).isSome by decide)
  refine ⟨s, l, hs, fact_of_map hs (f := fun p => p.2) (by decide), ?_⟩
  exact rwlock_safe rfl rfl hs (along_of_decide (by decide))

/-! ## Progress -/

/-- No interrupts and timed waits, and no read lock is asked for when `nreaders`
is at its maximum. -/
def ReadersFit (i : Nat) (s : St) (e : Event) : Prop :=
  Untimed s e ∧ (s.asks e = some (.read i) → s.objs.nreaders i + 1 < 2 ^ 32)

instance (i : Nat) (s : St) (e : Event) : Decidable (ReadersFit i s e) := by
  unfold ReadersFit; infer_instance

/-- `t` is blocked in `mnthr_rwlock_acquire_write`. -/
def WaitsToWrite (i : Nat) (s : St) (t : Ptr) : Prop :=
  s.pc.runs ≠ some t ∧ (s.ctx t).uc = .writeLock i

section
variable {D : Diag} {s s' : St} {e : Event} {t : Ptr} {i : Nat}

theorem rwlock_wants {k : Call} (h : k.queue = some (.rwlock i)) :
    k.wants = some (.read i) ∨ k.wants = some (.write i) := by
  cases k <;> cases h
  · exact .inl rfl
  · exact .inr rfl

theorem gives_write (h : e.gives = some (.write i)) : e = .call (.rwlockReleaseWrite i) := by
  unfold Event.gives at h
  split at h
  all_goals cases h
  rfl

theorem gives_read (h : e.gives = some (.read i)) : e = .call (.rwlockReleaseRead i) := by
  unfold Event.gives at h
  split at h
  all_goals cases h
  rfl

/-- The writer that leaves empties the queue. -/
theorem releaseWrite_queue (h : s.step D (.call (.rwlockReleaseWrite i)) = some s') :
    s'.wq.queue (.rwlock i) = [] := by
  simp only [step, callOp, St.rwlockReleaseWrite] at h
  split at h
  · split at h
    · exact resumeWaitqAll_queue h
    · cases h
  · cases h

/-- The last reader that leaves takes one thread off the queue. -/
theorem releaseRead_queue {rest : List Ptr} (h : s.step D (.call (.rwlockReleaseRead i)) = some s')
    (h0 : s'.objs.nreaders i = 0) (hq : s.wq.queue (.rwlock i) = t :: rest) :
    s'.wq.queue (.rwlock i) = rest := by
  simp only [step, callOp, St.rwlockReleaseRead] at h
  split at h
  swap
  · cases h
  split at h
  · cases h
  split at h
  · exact resumeWaitqOne_queue h hq
  · rename_i hn
    cases h
    exact absurd (by simpa [Objs.setNreaders] using h0) hn

/-- Who enters the queue finds the lock taken. -/
theorem rwlock_joins (hI : UntimedInv s) (hp : Untimed s e) (hs : s.step D e = some s')
    (ht : t ∈ s'.wq.queue (.rwlock i)) : t ∈ s.wq.queue (.rwlock i) ∨
      (s'.objs.fwriter i = true ∨ 0 < s'.objs.nreaders i ∧ WaitsToWrite i s' t) := by
  rcases joins_busy hI hp hs (fun k hk => (rwlock_wants hk).elim (⟨_, ·⟩) (⟨_, ·⟩)) ht with
    ht | ⟨g, k, b, hw, hk, hb, rfl⟩
  · exact .inl ht
  refine .inr ?_
  cases k <;> cases hk <;> cases hw
  · exact .inl hb
  · rcases hb with hb | hb
    · exact .inl hb
    · exact .inr ⟨hb, by simp [waits, parked, Pc.runs], by simp [waits, parked, setCtx]⟩

/-- A free lock or one with readers only has no reader in its queue. -/
theorem writers_step (hI : UntimedInv s) (hp : Untimed s e) (hs : s.step D e = some s')
    (h : s.objs.fwriter i = false → ∀ t ∈ s.wq.queue (.rwlock i), WaitsToWrite i s t)
    (hf : s'.objs.fwriter i = false) (ht : t ∈ s'.wq.queue (.rwlock i)) : WaitsToWrite i s' t := by
  rcases rwlock_joins hI hp hs ht with hq | hw | ⟨-, hw⟩
  · have keep : s.objs.fwriter i = false → WaitsToWrite i s' t := by
      intro hf
      obtain ⟨hr, hu⟩ := h hf t hq
      obtain ⟨hr', hu'⟩ := queued_step hI hp hs hq hr
      exact ⟨hr', hu'.trans hu⟩
    have hfini : e ≠ .call (.rwlockFini i) := by
      intro heq
      subst heq
      cases hp.1
    cases rwlock_step (step_effect hI.inv.base hs) hfini with
    | grantRead _ hf' | giveRead _ _ hf' => exact keep hf'
    | grantWrite _ _ _ hw => rw [hf] at hw; cases hw
    | giveWrite _ hv =>
      have := gives_write hv
      subst this
      rw [releaseWrite_queue hs] at ht
      cases ht
    | other _ hw => exact keep (hw.symm.trans hf)
  · rw [hf] at hw; cases hw
  · exact hw

/-- A lock that becomes free wakes a waiter, and a waiter that goes on takes the
lock or finds it taken. -/
theorem awaited_step {p p' : St × List Ptr} (h : LockInv (.rwlock i) p) (hp : ReadersFit i p.1 e)
    (hn : p.1.wq.queue (.rwlock i) ≠ [] → p.1.objs.fwriter i = false → p.1.objs.nreaders i = 0 →
      p.2 ≠ [])
    (hs : signals D (.rwlock i) p e = some p') (hne : p'.1.wq.queue (.rwlock i) ≠ [])
    (hf : p'.1.objs.fwriter i = false) (h0 : p'.1.objs.nreaders i = 0) : p'.2 ≠ [] := by
  have hI := h.signalled.inv
  have hstep := (recorded_step hs).1
  have hfini : e ≠ .call (.rwlockFini i) := by
    intro heq
    subst heq
    cases hp.1.1
  have hq : p.1.wq.queue (.rwlock i) ≠ [] := by
    obtain ⟨t, ht⟩ := List.exists_mem_of_ne_nil _ hne
    rcases rwlock_joins hI hp.1 hstep ht with ht | hw | ⟨hw, -⟩
    · exact List.ne_nil_of_mem ht
    · rw [hf] at hw; cases hw
    · omega
  cases rwlock_step (step_effect hI.inv.base hstep) hfini with
  | grantRead hg _ _ hn' =>
    have hfit := hp.2 (asks_of_granted hg)
    rw [Nat.mod_eq_of_lt hfit] at hn'
    omega
  | grantWrite _ _ _ hw => rw [hf] at hw; cases hw
  | giveRead _ hv =>
    have he := gives_read hv
    subst he
    obtain ⟨t, rest, hq⟩ := List.exists_cons_of_ne_nil hq
    have hnd := hI.tidy.ok.nodup (.rwlock i)
    rw [hq] at hnd
    rcases signals_cases hs with ⟨_, _, _, he, -⟩ | ⟨_, _, _, he, -⟩ | ⟨-, hP⟩
    · cases he
    · cases he
    · have hmem : t ∈ p'.2 := by
        rw [hP, hq, releaseRead_queue hstep h0 hq]
        refine List.mem_append_right _ (List.mem_filter.2 ⟨List.mem_cons_self, ?_⟩)
        simpa using (List.nodup_cons.1 hnd).1
      exact List.ne_nil_of_mem hmem
  | giveWrite _ hv =>
    have he := gives_write hv
    subst he
    exact absurd (releaseWrite_queue hstep) hne
  | other hg hw hn' =>
    have hl := hn hq (hw.symm.trans hf) (hn'.symm.trans h0)
    rcases signals_cases hs with ⟨b, t, k, rfl, hpc, hk, hP⟩ | ⟨b, t, k, rfl, hpc, hk, hP⟩ | ⟨-, hP⟩
    · -- who is switched back to finds the lock free and gets it
      exfalso
      rw [hw] at hf
      rw [hn'] at h0
      rcases rwlock_wants hk with hwant | hwant
      all_goals
        rcases retest h hpc hwant hs with ⟨hg', -⟩ | ⟨hb, -⟩
        · exact (hg _ rfl).1 hg'
      · have : p.1.objs.fwriter i = true := hb
        rw [hf] at this; cases this
      · have : p.1.objs.fwriter i = true ∨ 0 < p.1.objs.nreaders i := hb
        rw [hf, h0] at this; simp at this
    · rw [hP]; exact hl
    · rw [hP]; simp [hl]

end

/-- The threads `l` were taken off the wait queue of lock `i` and have yet to
test it again. -/
structure RwlockProgress (i : Nat) (s : St) (l : List Ptr) : Prop where
  nodup : l.Nodup
  pending : ∀ t ∈ l, Signalled (.rwlock i) s t
  writers : s.objs.fwriter i = false → ∀ t ∈ s.wq.queue (.rwlock i), WaitsToWrite i s t
  stranded : s.wq.queue (.rwlock i) ≠ [] → s.objs.fwriter i = false → s.objs.nreaders i = 0 →
    l ≠ []

theorem rwlock_progress {D : Diag} {objs : Objs} {now i : Nat} {es : List Event} {s : St}
    {l : List Ptr} (hr : exec (signals D (.rwlock i)) (St.init objs now, []) es = some (s, l))
    (hc : Along (St.step D) (ReadersFit i) (St.init objs now) es) : RwlockProgress i s l := by
  obtain ⟨h, hw, hn⟩ := exec_inv (I := fun p => LockInv (.rwlock i) p ∧
      (p.1.objs.fwriter i = false → ∀ t ∈ p.1.wq.queue (.rwlock i), WaitsToWrite i p.1 t) ∧
      (p.1.wq.queue (.rwlock i) ≠ [] → p.1.objs.fwriter i = false → p.1.objs.nreaders i = 0 →
        p.2 ≠ []))
    (fun p e p' hp hu hs =>
      have hI := hp.1.signalled.inv
      ⟨lockInv_step hp.1 hu.1 hs,
        fun hf t ht => writers_step hI hu.1 (recorded_step hs).1 hp.2.1 hf ht,
        awaited_step hp.1 hu hp.2.2 hs⟩)
    ⟨lockInv_init objs now _, fun _ t ht => absurd ht List.not_mem_nil, fun h => absurd rfl h⟩
    ((along_recorded (p := (St.init objs now, []))).1 hc) hr
  exact ⟨h.signalled.nodup, h.signalled.all, hw, hn⟩

/-- Thread 0 reads, thread 1 waits to write. -/
def waitingWriter : List Event :=
  [.call (.spawn 0), .call (.spawn 0), .tick 10, .sift, .next, .block (.rwlockAcquireRead 0) false,
    .block .yield false, .next, .block (.rwlockAcquireWrite 0) false, .sift, .next, .cont false]

/-- The last reader leaves: thread 1 is on its way. -/
theorem rwlock_progress_lastReader : ∃ s l,
    exec (signals .sample (.rwlock 0)) (St.init .sample 0, [])
      (waitingWriter ++ [.call (.rwlockReleaseRead 0)]) = some (s, l) ∧
    s.objs.nreaders 0 = 0 ∧ l = [1] ∧ RwlockProgress 0 s l := by
  obtain ⟨⟨s, l⟩, hs⟩ := Option.isSome_iff_exists.1
    (show (exec (signals .sample (.rwlock 0)) (St.init .sample 0, [])
      (waitingWriter ++ [.call (.rwlockReleaseRead 0)])).isSome by decide)
  refine ⟨s, l, hs, fact_of_map hs (f := fun p => p.1.objs.nreaders 0) (by decide),
    fact_of_map hs (f := fun p => p.2) (by decide), ?_⟩
  exact rwlock_progress hs (along_of_decide (by decide))

/-! ### The reader count wraps around -/

section
variable {D : Diag} {s : St} {l : List Ptr} {i : Nat}

/-- A thread that may go on taking read locks of `i`, `n` of them counted. -/
structure Reading (i n : Nat) (w : WaitQs) (s : St) : Prop where
  mayCall : s.mayCall
  fwriter : s.objs.fwriter i = false
  nreaders : s.objs.nreaders i = n % 2 ^ 32
  wq : s.wq = w

theorem reading_step {n : Nat} {w : WaitQs} (h : Reading i n w s) : ∃ s',
    signals D (.rwlock i) (s, l) (.call (.rwlockTryAcquireRead i)) = some (s', l) ∧
      Reading i (n + 1) w s' := by
  refine ⟨{ s with objs := s.objs.setNreaders i ((s.objs.nreaders i + 1) % 2 ^ 32) }.returns 0,
    ?_, h.mayCall, h.fwriter, ?_, h.wq⟩
  · simp only [signals, recorded, step, h.mayCall, callOp, h.fwriter, if_pos]
    refine congrArg some (Prod.ext rfl ?_)
    show l ++ (s.wq.queue _).filter (fun t => decide (t ∉ s.wq.queue _)) = l
    rw [List.filter_eq_nil_iff.2 (by simp), List.append_nil]
  · simp [returns, Objs.setNreaders, h.nreaders]

theorem reading_many {w : WaitQs} (k : Nat) {n : Nat} (h : Reading i n w s) : ∃ s',
    exec (signals D (.rwlock i)) (s, l)
      (List.replicate k (.call (.rwlockTryAcquireRead i))) = some (s', l) ∧
      Reading i (n + k) w s' := by
  induction k generalizing s n with
  | zero => exact ⟨s, rfl, h⟩
  | succ k ih =>
    obtain ⟨s1, h1, hr1⟩ := reading_step (l := l) (D := D) h
    obtain ⟨s2, h2, hr2⟩ := ih hr1
    refine ⟨s2, by simp only [List.replicate_succ, exec, h1, Option.bind_some, h2], ?_⟩
    rwa [show n + 1 + k = n + (k + 1) by omega] at hr2

end

/-- After 2^32 read locks `nreaders` is 0 again: the writer waits for a lock
that looks free, and nobody is on the way to take it. -/
theorem rwlock_stranded_wrap : ∃ es s l,
    exec (signals .sample (.rwlock 0)) (St.init .sample 0, []) es = some (s, l) ∧
    Along (St.step .sample) Untimed (St.init .sample 0) es ∧
    s.wq.queue (.rwlock 0) = [1] ∧ s.objs.fwriter 0 = false ∧ s.objs.nreaders 0 = 0 ∧ l = [] := by
  obtain ⟨⟨s, l⟩, hs⟩ := Option.isSome_iff_exists.1
    (show (exec (signals .sample (.rwlock 0)) (St.init .sample 0, []) waitingWriter).isSome by
      decide)
  have hread : Reading 0 1 s.wq s :=
    ⟨fact_of_map hs (f := fun p => p.1.mayCall) (by decide),
      fact_of_map hs (f := fun p => p.1.objs.fwriter 0) (by decide),
      fact_of_map hs (f := fun p => p.1.objs.nreaders 0) (by decide), rfl⟩
  have hq := fact_of_map hs (f := fun p => p.1.wq.queue (.rwlock 0)) (a := [1]) (by decide)
  have hl := fact_of_map hs (f := fun p => p.2) (a := []) (by decide)
  obtain ⟨s', hs', hread'⟩ := reading_many (D := .sample) (l := l) (2 ^ 32 - 1) hread
  refine ⟨_, s', l, exec_trans hs hs', ?_, ?_, hread'.fwriter, ?_, hl⟩
  · refine along_mono (C := fun _ e => ∀ s, Untimed s e) (fun s e he => he s)
      (along_of_forall fun e he => ?_)
    rcases List.mem_append.1 he with he | he
    · simp only [waitingWriter, List.mem_cons, List.not_mem_nil, or_false] at he
      rcases he with rfl | rfl | rfl | rfl | rfl | rfl | rfl | rfl | rfl | rfl | rfl | rfl
      all_goals exact fun s => ⟨rfl, rfl⟩
    · rw [List.eq_of_mem_replicate he]
      exact fun s => ⟨rfl, rfl⟩
  · rw [hread'.wq]
    exact hq
  · rw [hread'.nreaders]
    decide

end Mnthr
