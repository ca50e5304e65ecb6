import SetQL.Server.EventLoop

/-!
# No client waits forever

The loop of a round goes through the slots once. A client is passed over only when another one in
front of it leaves and it takes its slot, which the loop has passed; so it moves to the front each
time, and in the slot behind the first one it is read for certain. A client whose descriptor stays
ready is therefore read within as many rounds as the number of its slot, however many connections
come and go, unless the first client leaves or the server stops.

## Main definitions

* `Networking.HasSlot n fd p`: only the client of a slot reads from the descriptor

## Main results

* `clientLoop_passed`: a client behind the loop keeps its slot
* `clientLoop_reads`: a ready client in front of the loop is read, or moves to the front
* `rounds_reads`: a client that stays ready is read
-/

namespace SetQL

/-- Only the client of the slot reads from the descriptor. -/
structure Networking.HasSlot (n : Networking) (fd : ℤ) (p : ℕ) : Prop where
  lt : p < n.clientCount
  readFd_eq_iff : ∀ j < n.clientCount, (n.client j).readFd = fd ↔ j = p

section Slots

variable {n n' : Networking} {fd : ℤ} {p i fuel : ℕ} {c : Client} {addresses : List SockaddrIn}
  {readfds : Finset ℤ}

theorem Networking.HasSlot.readFd_eq (h : n.HasSlot fd p) : (n.client p).readFd = fd :=
  (h.readFd_eq_iff p h.lt).mpr rfl

/-- The set of descriptors does not belong to the slots. -/
theorem Networking.HasSlot.select (h : n.HasSlot fd p) (readfds : Finset ℤ) :
    HasSlot { n with readfds } fd p := ⟨h.lt, h.readFd_eq_iff⟩

/-- A slot is kept when a client joins with another descriptor. -/
theorem Networking.HasSlot.join (h : n.HasSlot fd p) (hok : n.Ok) (hroom : n.clientCount < maxClients)
    (hne : c.readFd ≠ fd) : (n.join c addresses readfds).HasSlot fd p := by
  refine ⟨Nat.lt_succ_of_lt h.lt, fun j hj => ?_⟩
  have hj : j < n.clientCount + 1 := hj
  rw [hok.client_join hroom]
  split
  next heq => exact iff_of_false hne fun hjp => h.lt.ne (hjp.symm.trans heq)
  next hjn => exact h.readFd_eq_iff j (by omega)

/-- **When another client leaves, the slot is kept**, or the client was the last one and takes the
slot of the one that leaves. -/
theorem Networking.HasSlot.leave (h : n.HasSlot fd p) (hok : n.Ok) (hi : i < n.clientCount)
    (hzero : i ≠ 0) (hip : i ≠ p) :
    (n.leave i (n.replacement i) addresses readfds).HasSlot fd
      (if p = n.clientCount - 1 then i else p) := by
  have hlt := h.lt
  have hlast := h.readFd_eq_iff (n.clientCount - 1) (by omega)
  have hcount : (n.leave i (n.replacement i) addresses readfds).clientCount = n.clientCount - 1 := rfl
  refine ⟨by rw [hcount]; split <;> omega, fun j hj => ?_⟩
  rw [hcount] at hj
  rw [hok.client_leave hi, replacement, if_neg hzero]
  -- the last client is in the slot of the one that left, and all others are where they were
  by_cases hji : j = i
  · rw [if_pos hji, hlast]
    split <;> omega
  · rw [if_neg hji, h.readFd_eq_iff j (by omega)]
    split <;> omega

end Slots

/-! ## A round -/

section Round

variable {ω : Type} {f : Bytes → ℤ → ℕ → C ω} {answers : Round} {n n' : Networking} {fd : ℤ}
  {p i fuel : ℕ}

/-- **A visit that does not end the round** leaves the table as it is, or without the client. -/
theorem clientLoop_visit (h : n.Reachable) (hi : i < n.clientCount)
    (hmem : (n.client i).readFd ∈ n.readfds)
    (hloop : (clientLoop f answers (fuel + 1) i n).2 = .ok (1, n')) :
    ∃ m, m.Reachable ∧ (clientLoop f answers (fuel + 1) i n).1 =
        (n.client i).readFd :: (clientLoop f answers fuel (i + 1) m).1 ∧
      (clientLoop f answers fuel (i + 1) m).2 = .ok (1, n') ∧
      (m = n ∨ (answers.received i).result = 0 ∧ m = n.leave i (n.replacement i)
        (n.addressesWithout i) (n.readfds.erase (n.client i).readFd)) := by
  rw [clientLoop_of_mem (h.elim fun _ h => h.ok) hi hmem] at hloop ⊢
  rcases handleMessage_cases f answers h hi with ⟨v, hcall⟩ | ⟨hzero, v, hcall⟩ | ⟨e, hcall⟩ | ⟨m, v, hcall⟩
  · rw [hcall] at hloop ⊢
    exact ⟨n, h, rfl, hloop, Or.inl rfl⟩
  · rw [hcall] at hloop ⊢
    exact ⟨_, h.handleMessage hi hcall, rfl, hloop, Or.inr ⟨hzero, rfl⟩⟩
  · rw [hcall] at hloop
    cases hloop
  · rw [hcall] at hloop
    cases hloop

/-- A client behind the loop keeps its slot. -/
theorem clientLoop_passed (h : n.Reachable) (hslot : n.HasSlot fd p) (hp : p < i)
    (hloop : (clientLoop f answers fuel i n).2 = .ok (1, n')) : n'.HasSlot fd p := by
  induction fuel generalizing i n with
  | zero =>
    obtain ⟨-, rfl⟩ := Prod.mk.inj (Except.ok.inj hloop)
    exact hslot
  | succ fuel ih =>
    have hok := h.elim fun _ h => h.ok
    by_cases hi : i < n.clientCount
    · by_cases hmem : (n.client i).readFd ∈ n.readfds
      · obtain ⟨m, hm, -, hrest, rfl | ⟨-, rfl⟩⟩ := clientLoop_visit h hi hmem hloop
        · exact ih h hslot (Nat.lt_succ_of_lt hp) hrest
        · have hleave : (n.leave i (n.replacement i) (n.addressesWithout i)
              (n.readfds.erase (n.client i).readFd)).HasSlot fd
                (if p = n.clientCount - 1 then i else p) := hslot.leave hok hi (by omega) hp.ne'
          rw [if_neg (by omega)] at hleave
          exact ih hm hleave (Nat.lt_succ_of_lt hp) hrest
      · rw [clientLoop_of_not_mem hok hi hmem] at hloop
        exact ih h hslot (Nat.lt_succ_of_lt hp) hloop
    · rw [clientLoop, if_neg hi] at hloop
      obtain ⟨-, rfl⟩ := Prod.mk.inj (Except.ok.inj hloop)
      exact hslot

/-- **A ready client in front of the loop is read, or moves to the front**: to a slot behind the
first one, if the first client does not leave. -/
theorem clientLoop_reads (h : n.Reachable) (hslot : n.HasSlot fd p) (hready : fd ∈ n.readfds)
    (hp : i ≤ p) (hfuel : n.clientCount ≤ i + fuel)
    (hfirst : i = 0 → (n.client 0).readFd ∈ n.readfds → (answers.received 0).result ≠ 0)
    (hloop : (clientLoop f answers fuel i n).2 = .ok (1, n')) :
    fd ∈ (clientLoop f answers fuel i n).1 ∨ ∃ p', 0 < p' ∧ p' < p ∧ n'.HasSlot fd p' := by
  induction fuel generalizing i n with
  | zero =>
    have hlt := hslot.lt
    omega
  | succ fuel ih =>
    have hok := h.elim fun _ h => h.ok
    have hlt := hslot.lt
    rcases Nat.eq_or_lt_of_le hp with rfl | hip
    · left
      have hread := hslot.readFd_eq
      have hmem : (n.client i).readFd ∈ (clientLoop f answers (fuel + 1) i n).1 :=
        mem_clientLoop_calls h hlt (hread.symm ▸ hready)
      rwa [hread] at hmem
    have hi : i < n.clientCount := hip.trans hlt
    by_cases hmem : (n.client i).readFd ∈ n.readfds
    · obtain ⟨m, hm, hcalls, hrest, rfl | ⟨hzero, rfl⟩⟩ := clientLoop_visit h hi hmem hloop
      · rw [hcalls]
        exact (ih h hslot hready hip (by omega) (by omega) hrest).imp_left (List.mem_cons_of_mem _)
      · have hi0 : i ≠ 0 := by
          rintro rfl
          exact hfirst rfl hmem hzero
        have hother : (n.client i).readFd ≠ fd := fun heq =>
          hip.ne ((hslot.readFd_eq_iff i hi).mp heq)
        have hleave : (n.leave i (n.replacement i) (n.addressesWithout i)
            (n.readfds.erase (n.client i).readFd)).HasSlot fd
              (if p = n.clientCount - 1 then i else p) := hslot.leave hok hi hi0 hip.ne
        split_ifs at hleave with hlast
        · -- the client takes the slot, which the loop has passed
          exact Or.inr ⟨i, Nat.pos_of_ne_zero hi0, hip,
            clientLoop_passed hm hleave (Nat.lt_succ_self i) hrest⟩
        · rw [hcalls]
          have hcount : n.clientCount - 1 ≤ i + 1 + fuel := by omega
          exact (ih hm hleave (Finset.mem_erase.mpr ⟨hother.symm, hready⟩) hip hcount
            (by omega) hrest).imp_left (List.mem_cons_of_mem _)
    · rw [clientLoop_of_not_mem hok hi hmem] at hloop ⊢
      exact ih h hslot hready hip (by omega) (by omega) hloop

/-- A round that goes on runs its loop over the table, or over the table with a new client. -/
theorem exists_loop_of_round {ready : Finset ℤ} (h : n.Reachable) (hselect : answers.select = some ready)
    (hround : (round f answers n).outcome = .ok (1, n')) :
    ∃ m, m.Reachable ∧
      (m = { n with readfds := n.requested ∩ ready } ∨ n.clientCount < maxClients ∧
        m = { n with readfds := n.requested ∩ ready }.join
          ⟨clientTypeSocket, answers.accept.1, answers.accept.1⟩
          (n.clientAddresses.set n.clientCount answers.accept.2)
          (insert answers.accept.1 (n.requested ∩ ready))) ∧
      (round f answers n).calls = (clientLoop f answers m.clientCount 0 m).1 ∧
      (clientLoop f answers m.clientCount 0 m).2 = .ok (1, n') := by
  have hn := h.select (n.requested ∩ ready)
  have hok := hn.elim fun _ h => h.ok
  unfold round at hround ⊢
  simp only [hselect] at hround ⊢
  split_ifs at hround ⊢
  · rw [acceptConnection_eq hok] at hround ⊢
    split_ifs at hround ⊢ with hneg hroom
    · cases hround
    · have hcall := acceptConnection_eq hok answers.accept.1 answers.accept.2
      rw [if_neg hneg, if_pos hroom] at hcall
      exact ⟨_, hn.acceptConnection hcall, Or.inr ⟨hroom, rfl⟩, rfl, hround⟩
  · exact ⟨_, hn, Or.inl rfl, rfl, hround⟩

/-- **A ready client is read in a round, or moves to the front.** -/
theorem round_reads {ready : Finset ℤ} (h : n.Reachable) (hslot : n.HasSlot fd p) (hfd : 0 < fd)
    (hselect : answers.select = some ready) (hready : fd ∈ ready) (hfresh : answers.Fresh n)
    (hfirst : (n.client 0).readFd ∈ (round f answers n).calls → (answers.received 0).result ≠ 0)
    (hround : (round f answers n).outcome = .ok (1, n')) :
    fd ∈ (round f answers n).calls ∨ ∃ p', 0 < p' ∧ p' < p ∧ n'.HasSlot fd p' := by
  obtain ⟨m, hm, hcases, hcalls, hloop⟩ := exists_loop_of_round h hselect hround
  have hok := h.elim fun _ h => h.ok
  have hreported : fd ∈ n.requested ∩ ready := by
    refine Finset.mem_inter.mpr ⟨(Networking.mem_requested hok).mpr (Or.inr ⟨hfd, p, hslot.lt, ?_⟩), hready⟩
    exact hslot.readFd_eq
  obtain ⟨hslot', hmem, hzero⟩ : m.HasSlot fd p ∧ fd ∈ m.readfds ∧ m.client 0 = n.client 0 := by
    rcases hcases with rfl | ⟨hroom, rfl⟩
    · exact ⟨hslot.select _, hreported, rfl⟩
    · have hn := (h.select (n.requested ∩ ready)).elim fun _ h => h.ok
      have hne : answers.accept.1 ≠ fd := by
        intro heq
        obtain ⟨-, hzero⟩ := hfresh.2 p hslot.lt (hslot.readFd_eq.trans heq.symm)
        omega
      refine ⟨(hslot.select _).join hn hroom hne, Finset.mem_insert_of_mem hreported, ?_⟩
      rw [hn.client_join hroom, if_neg ((Nat.zero_le p).trans_lt hslot.lt).ne]
      rfl
  rw [hcalls] at hfirst ⊢
  refine clientLoop_reads hm hslot' hmem (Nat.zero_le p) (by omega) (fun _ hread => ?_) hloop
  obtain ⟨k, hk⟩ := Nat.exists_eq_succ_of_ne_zero ((Nat.zero_le p).trans_lt hslot'.lt).ne'
  refine hfirst ?_
  rw [hk, ← hzero]
  exact mem_clientLoop_calls hm (by omega) hread

end Round

/-! ## Runs of rounds -/

section Runs

variable {ω : Type} {f : Bytes → ℤ → ℕ → C ω} {n : Networking} {fd : ℤ} {p : ℕ}

/-- **A client that stays ready is read** within as many rounds as the number of its slot, or in the
first one if it has the first slot: whatever connections come and go, as long as the first client
does not leave and the server goes on. -/
theorem rounds_reads (h : n.Reachable) (hslot : n.HasSlot fd p) (hfd : 0 < fd) (l : List Round)
    (hlen : max p 1 ≤ l.length)
    (hready : ∀ q ∈ rounds f l n, ∃ ready, q.2.select = some ready ∧ fd ∈ ready)
    (hfresh : ∀ q ∈ rounds f l n, q.2.Fresh q.1)
    (hfirst : ∀ q ∈ rounds f l n, (q.1.client 0).readFd ∈ (round f q.2 q.1).calls →
      (q.2.received 0).result ≠ 0)
    (hgoes : ∀ q ∈ rounds f l n, ∃ n', (round f q.2 q.1).outcome = .ok (1, n')) :
    ∃ q ∈ (rounds f l n).take (max p 1), fd ∈ (round f q.2 q.1).calls := by
  induction l generalizing n p with
  | nil => simp at hlen
  | cons answers l ih =>
    rw [rounds, List.forall_mem_cons] at hready hfresh hfirst hgoes
    obtain ⟨n', hround⟩ := hgoes.1
    obtain ⟨ready, hselect, hmem⟩ := hready.1
    rw [rounds]
    simp only [hround] at hready hfresh hfirst hgoes ⊢
    obtain ⟨k, hk⟩ : ∃ k, max p 1 = k + 1 := ⟨max p 1 - 1, by omega⟩
    rw [hk, List.take_succ_cons]
    rcases round_reads h hslot hfd hselect hmem hfresh.1 hfirst.1 hround with
      hread | ⟨p', hpos, hlt, hslot'⟩
    · exact ⟨_, List.mem_cons_self, hread⟩
    · have hle : max p' 1 ≤ k := by omega
      obtain ⟨q, hq, hread⟩ := ih (round_reachable h hround) hslot'
        (hle.trans (by simpa [hk] using hlen)) hready.2 hfresh.2 hfirst.2 hgoes.2
      exact ⟨q, List.mem_cons_of_mem _ ((List.take_subset_take_left _ hle) hq), hread⟩

/-- The second connection is in the slot of the first one. -/
def clientsAfterLeaving : Networking :=
  { threeClients with
    clientReadFds := [5, 7, 7, 0, 0, 0, 0, 0]
    clientWriteFds := [5, 7, 7, 0, 0, 0, 0, 0]
    clientCount := 2
    readfds := (threeClients.requested ∩ {6, 7}).erase 6 }

theorem rounds_leavingRound : rounds (fun _ _ _ => .ok ()) [leavingRound 1, leavingRound 8]
    threeClients = [(threeClients, leavingRound 1), (clientsAfterLeaving, leavingRound 8)] := by
  have hround : (round (fun _ _ _ => .ok ()) (leavingRound 1) threeClients).outcome =
      .ok (1, clientsAfterLeaving) := by decide
  rw [rounds, hround]
  simp only [rounds]
  split <;> rfl

theorem rounds_reads_threeClients : ∃ q ∈ (rounds (fun _ _ _ => .ok ())
    [leavingRound 1, leavingRound 8] threeClients).take 2,
      7 ∈ (round (fun _ _ _ => .ok ()) q.2 q.1).calls := by
  have hcalls : ∀ q ∈ [(threeClients, leavingRound 1), (clientsAfterLeaving, leavingRound 8)],
      (q.1.client 0).readFd ∉ (round (fun _ _ _ => .ok ()) q.2 q.1).calls := by decide
  have hgoes : ∀ q ∈ [(threeClients, leavingRound 1), (clientsAfterLeaving, leavingRound 8)],
      (round (fun _ _ _ => .ok ()) q.2 q.1).outcome = .ok (1, clientsAfterLeaving) := by
    decide
  refine rounds_reads (p := 2) reachable_threeClients ⟨by decide, by decide⟩ (by decide) _ (by decide)
    ?_ ?_ ?_ ?_ <;> rw [rounds_leavingRound]
  · simp only [List.forall_mem_cons, List.not_mem_nil, IsEmpty.forall_iff, implies_true, and_true]
    exact ⟨⟨_, rfl, by decide⟩, ⟨_, rfl, by decide⟩⟩
  · simp only [List.forall_mem_cons, List.not_mem_nil, IsEmpty.forall_iff, implies_true, and_true]
    exact ⟨⟨by decide, by decide⟩, ⟨by decide, by decide⟩⟩
  · exact fun q hq hread => absurd hread (hcalls q hq)
  · exact fun q hq => ⟨_, hgoes q hq⟩

end Runs

end SetQL
