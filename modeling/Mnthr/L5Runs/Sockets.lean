import Mnthr.L2Sched.Sockets

/-!
# Address fallback

The loops over the addresses of a host stop at the first one that gives a
socket (src/mnthr.c:1672, 1730), also when the socket is then closed because
`connect` or `bind` has failed. No descriptor is lost, but the addresses behind
are not tried: `address_fallback_iff` says when that makes no difference.
-/
namespace Mnthr

/-- The address gives a socket, and what is done with it succeeds. -/
def Addrinfo.succeeds (ok : Addrinfo → Prop) (ai : Addrinfo) : Prop := ai.socket.isSome ∧ ok ai

def Addrinfo.connects (CONNECT : DiagClass) (ai : Addrinfo) : Prop := mnthrConnect CONNECT ai = 0

def Addrinfo.binds (ai : Addrinfo) : Prop := ai.fcntl ∧ ai.bind

/-- The descriptors `t'` after a function that has returned `r`: those before it
and the one returned. No other one was closed; `close(-1)` closes nothing. -/
structure ClosedOnce (t t' : Fds) (r : Int) : Prop where
  live : (r = -1 ∧ t'.live = t.live) ∨ ∃ fd : Nat, r = fd ∧ t'.live = fd :: t.live
  stray : ∃ n, t'.stray = List.replicate n (-1) ++ t.stray

/-- What a function owes its caller that goes through `ais`. -/
structure FallsBack (ok : Addrinfo → Prop) (ais : List Addrinfo) (t : Fds) (p : Fds × Int) :
    Prop where
  usable : (∃ ai ∈ ais, ai.succeeds ok) →
    ∃ ai ∈ ais, ok ai ∧ ∃ fd : Nat, ai.socket = some fd ∧ p.2 = fd
  fails : p.2 = -1 → ∀ ai ∈ ais, ¬ ai.succeeds ok
  closed : ClosedOnce t p.1 p.2

/-- The first address that gives a socket is as good as any. -/
def FirstDecides (ok : Addrinfo → Prop) (ais : List Addrinfo) : Prop :=
  (∀ ai ∈ ais, ¬ ai.succeeds ok) ∨ ∃ ai, ais.find? (fun ai => ai.socket.isSome) = some ai ∧ ok ai

/-- What is done with a new socket: it is kept, or closed. -/
structure KeepsOrCloses (ok : Addrinfo → Prop) (body : Addrinfo → Fds → Int → Fds × Int) :
    Prop where
  keeps : ∀ ai t (fd : Nat), ok ai → body ai t fd = (t, ↑fd)
  closes : ∀ ai (t t1 : Fds) (fd : Nat), ¬ ok ai → t.socket fd = some t1 →
    ∃ n, body ai t1 fd = ({ t with stray := List.replicate n (-1) ++ t.stray }, -1)

section
variable {t t1 : Fds} {fd : Nat} {p : Fds × Int} {ok : Addrinfo → Prop} {ais : List Addrinfo}
  {body : Addrinfo → Fds → Int → Fds × Int}

theorem Fds.socket_some (h : t.socket fd = some t1) : t1 = { t with live := fd :: t.live } := by
  unfold Fds.socket at h
  split at h
  · cases h
  · exact (Option.some.inj h).symm

/-- A new socket that is closed leaves nothing behind. -/
theorem Fds.close_socket (h : t.socket fd = some t1) : t1.close fd = t := by
  rw [Fds.socket_some h]
  simp [Fds.close]

theorem Fds.close_neg (t : Fds) : t.close (-1) = { t with stray := -1 :: t.stray } := by
  simp [Fds.close]

theorem connectBody_spec (CONNECT : DiagClass) :
    KeepsOrCloses (Addrinfo.connects CONNECT) (connectBody CONNECT) where
  keeps ai t fd h := if_neg (not_not.2 h)
  closes ai t t1 fd h hs := by
    have hc : mnthrConnect CONNECT ai ≠ 0 := h
    exact ⟨0, by rw [connectBody, if_pos hc, Fds.close_socket hs]; rfl⟩

theorem bindBody_spec : KeepsOrCloses Addrinfo.binds bindBody where
  keeps ai t fd h := by
    have hfd : ¬ ((fd : Int) = -1) := by omega
    simp [bindBody, socketBody, h.1, h.2, hfd]
  closes ai t t1 fd h hs := by
    by_cases hf : ai.fcntl
    · have hb : ¬ ai.bind := fun hb => h ⟨hf, hb⟩
      exact ⟨0, by simp [bindBody, socketBody, hf, hb, Fds.close_socket hs]⟩
    · -- the `fd` of -1 is closed, too
      exact ⟨1, by simp [bindBody, socketBody, hf, Fds.close_socket hs, Fds.close_neg]⟩

/-- The loop ends behind the first address that gives a socket. -/
theorem firstSocket_cases (h : firstSocket body t ais = some p) :
    ((∀ ai ∈ ais, ai.socket = none) ∧ p = (t, -1)) ∨
    ∃ (ai : Addrinfo) (fd : Nat) (t1 : Fds), ais.find? (fun ai => ai.socket.isSome) = some ai ∧
      ai.socket = some fd ∧ t.socket fd = some t1 ∧ p = body ai t1 fd := by
  induction ais with
  | nil =>
    cases h
    exact .inl ⟨fun _ ha => absurd ha (List.not_mem_nil), rfl⟩
  | cons ai ais ih =>
    cases hs : ai.socket with
    | none =>
      simp only [firstSocket, hs] at h
      obtain ⟨hall, rfl⟩ | ⟨ai', fd, t1, hf, hrest⟩ := ih h
      · exact .inl ⟨List.forall_mem_cons.2 ⟨hs, hall⟩, rfl⟩
      · refine .inr ⟨ai', fd, t1, ?_, hrest⟩
        rw [List.find?_cons_of_neg (by simp [hs]), hf]
    | some fd =>
      simp only [firstSocket, hs, Option.map_eq_some_iff] at h
      obtain ⟨t1, ht, rfl⟩ := h
      exact .inr ⟨ai, fd, t1, List.find?_cons_of_pos (by simp [hs]), hs, ht, rfl⟩

/-- Whatever the outcomes, no descriptor is lost or closed twice. -/
theorem firstSocket_closes (hb : KeepsOrCloses ok body) (h : firstSocket body t ais = some p) :
    ClosedOnce t p.1 p.2 := by
  obtain ⟨-, rfl⟩ | ⟨ai, fd, t1, -, -, ht, rfl⟩ := firstSocket_cases h
  · exact ⟨.inl ⟨rfl, rfl⟩, 0, rfl⟩
  · by_cases hok : ok ai
    · rw [hb.keeps ai t1 fd hok, Fds.socket_some ht]
      exact ⟨.inr ⟨fd, rfl, rfl⟩, 0, rfl⟩
    · obtain ⟨n, hn⟩ := hb.closes ai t t1 fd hok ht
      rw [hn]
      exact ⟨.inl ⟨rfl, rfl⟩, n, rfl⟩

theorem firstSocket_fallsBack_iff (hb : KeepsOrCloses ok body)
    (h : firstSocket body t ais = some p) : FallsBack ok ais t p ↔ FirstDecides ok ais := by
  have hclosed := firstSocket_closes hb h
  obtain ⟨hnone, rfl⟩ | ⟨ai, fd, t1, hf, hs, ht, rfl⟩ := firstSocket_cases h
  · have hno : ∀ ai ∈ ais, ¬ ai.succeeds ok := fun ai ha hsu => by
      simp [Addrinfo.succeeds, hnone ai ha] at hsu
    exact iff_of_true ⟨fun he => by obtain ⟨ai, ha, hsu⟩ := he; exact absurd hsu (hno ai ha),
      fun _ => hno, hclosed⟩ (.inl hno)
  · have hmem := List.mem_of_find?_eq_some hf
    by_cases hok : ok ai
    · rw [hb.keeps ai t1 fd hok] at hclosed ⊢
      refine iff_of_true ⟨fun _ => ⟨ai, hmem, hok, fd, hs, rfl⟩, fun hr => ?_, hclosed⟩
        (.inr ⟨ai, hf, hok⟩)
      exact absurd hr (by dsimp only; omega)
    · obtain ⟨n, hn⟩ := hb.closes ai t t1 fd hok ht
      rw [hn] at hclosed ⊢
      constructor
      · exact fun hfb => .inl (hfb.fails rfl)
      · intro hd
        obtain hno | ⟨ai', hf', hok'⟩ := hd
        · refine ⟨fun he => ?_, fun _ => hno, hclosed⟩
          obtain ⟨ai', ha, hsu⟩ := he
          exact absurd hsu (hno ai' ha)
        · cases hf.symm.trans hf'
          exact absurd hok' hok

end

/-- For every list of addresses: the functions use an address whenever there is
one exactly when the first address that gives a socket succeeds, or none does. -/
theorem address_fallback_iff (CONNECT : DiagClass) (t : Fds) (ais : List Addrinfo) :
    (∀ p, mnthrSocketConnect CONNECT t (some ais) = some p →
      (FallsBack (Addrinfo.connects CONNECT) ais t p ↔
        FirstDecides (Addrinfo.connects CONNECT) ais)) ∧
    ∀ p, mnthrSocketBind t (some ais) = some p →
      (FallsBack Addrinfo.binds ais t p ↔ FirstDecides Addrinfo.binds ais) :=
  ⟨fun _ h => firstSocket_fallsBack_iff (connectBody_spec CONNECT) h,
    fun _ h => firstSocket_fallsBack_iff bindBody_spec h⟩

/-- The first address gives no socket, the second one takes the connection, and
the bound address. -/
theorem address_fallback_noSocket :
    let ais : List Addrinfo :=
      [⟨none, true, .failed, 0, none, false⟩, ⟨some 3, true, .done, 0, none, true⟩]
    FallsBack (Addrinfo.connects .sample) ais ⟨[0, 1, 2], []⟩ (⟨[3, 0, 1, 2], []⟩, 3) ∧
      FallsBack Addrinfo.binds ais ⟨[0, 1, 2], []⟩ (⟨[3, 0, 1, 2], []⟩, 3) := by
  intro ais
  obtain ⟨hconnect, hbind⟩ := address_fallback_iff .sample ⟨[0, 1, 2], []⟩ ais
  exact ⟨(hconnect _ rfl).2 (.inr ⟨_, rfl, rfl⟩), (hbind _ rfl).2 (.inr ⟨_, rfl, rfl, rfl⟩)⟩

/-- The first address refuses, and the second one, which would not, is never
tried. -/
theorem address_not_tried :
    let ais : List Addrinfo :=
      [⟨some 3, true, .failed, 0, none, false⟩, ⟨some 3, true, .done, 0, none, true⟩]
    mnthrSocketConnect .sample ⟨[0, 1, 2], []⟩ (some ais) = some (⟨[0, 1, 2], []⟩, -1) ∧
      mnthrSocketBind ⟨[0, 1, 2], []⟩ (some ais) = some (⟨[0, 1, 2], []⟩, -1) ∧
      ¬ FallsBack (Addrinfo.connects .sample) ais ⟨[0, 1, 2], []⟩ (⟨[0, 1, 2], []⟩, -1) ∧
      ¬ FallsBack Addrinfo.binds ais ⟨[0, 1, 2], []⟩ (⟨[0, 1, 2], []⟩, -1) := by
  intro ais
  have hlast : ais[1] ∈ ais := List.getElem_mem _
  exact ⟨rfl, rfl, fun h => h.fails rfl _ hlast ⟨rfl, rfl⟩,
    fun h => h.fails rfl _ hlast ⟨rfl, rfl, rfl⟩⟩

end Mnthr
