import SetQL.Base.Outcome
import Mathlib.Data.Finset.Basic
import Mathlib.Data.List.GetD
import Mathlib.Data.Multiset.AddSub

/-!
# The table of clients

`dbms_networking.c`: the clients are kept in four arrays and a counter. A connection or a pipe is
added behind the last client, and a client that leaves is replaced by the last one. The first client
is not replaced: its slot stays, with the descriptor 0 to read from, and the last client is lost.

## Main definitions

* `Networking`: the static variables
* `acceptConnection`, `killClient`, `dbmsNetworkingAddPipeClient`, `dbmsNetworkingInitialize`: the
  functions, with the answers of the system calls they make
* `Networking.clients`: the clients of the table
* `Networking.Keeps n id`: the last client of the table is not lost with the client of a slot
* `Reached keeps n live`: the tables that are reached, with the clients that have not left

## Main results

* `killClient_eq`: what a client that leaves does to the table
* `killClient_perm_iff`: when all other clients are kept
* `killClient_keeps_clients`: the same over runs
-/

namespace SetQL

/-- `MAX_CLIENTS`. -/
def maxClients : ℕ := 8

/-- `CLIENT_TYPE_SOCKET`. -/
def clientTypeSocket : ℤ := 0

/-- `CLIENT_TYPE_PIPE`. -/
def clientTypePipe : ℤ := 1

/-- `struct sockaddr_in`: the address of a peer. -/
structure SockaddrIn where
  sinAddr : BitVec 32
  sinPort : BitVec 16
  deriving DecidableEq, Repr

/-- The static variables. -/
structure Networking where
  /-- `dbms_started` -/
  dbmsStarted : Bool
  /-- `server_socket` -/
  serverSocket : ℤ
  /-- `client_addresses` -/
  clientAddresses : List SockaddrIn
  /-- `client_types` -/
  clientTypes : List ℤ
  /-- `client_read_fds` -/
  clientReadFds : List ℤ
  /-- `client_write_fds` -/
  clientWriteFds : List ℤ
  /-- `client_count` -/
  clientCount : ℕ
  /-- `readfds`, as the set of the descriptors in it -/
  readfds : Finset ℤ
  deriving DecidableEq

/-- The variables before anything is called. -/
def Networking.initial : Networking :=
  ⟨false, 0, List.replicate maxClients ⟨0, 0⟩, List.replicate maxClients 0,
    List.replicate maxClients 0, List.replicate maxClients 0, 0, ∅⟩

/-- The answers of the system while the server is set up. -/
structure SetUp where
  socket : ℤ
  setsockopt : ℤ
  ioctl : ℤ
  bind : ℤ
  listen : ℤ

/-- `dbms_networking_initialize`. -/
def dbmsNetworkingInitialize (answers : SetUp) (n : Networking) : ℤ × Networking :=
  if answers.socket < 0 then (0, { n with serverSocket := answers.socket })
  else
    let n := { n with serverSocket := answers.socket, readfds := {answers.socket} }
    if answers.setsockopt ≠ 0 then (0, n)
    else if answers.ioctl < 0 then (0, n)
    else if answers.bind < 0 then (0, n)
    else if answers.listen < 0 then (0, n)
    else (1, { n with dbmsStarted := true })

/-- `accept_connection`: `accept` answers a descriptor and the address of the peer. -/
def acceptConnection (newClient : ℤ) (incommingAddress : SockaddrIn) (n : Networking) :
    C (ℤ × Networking) :=
  if newClient < 0 then .ok (0, n)
  else do
    let clientAddresses ← store n.clientAddresses n.clientCount incommingAddress
    let clientTypes ← store n.clientTypes n.clientCount clientTypeSocket
    let clientReadFds ← store n.clientReadFds n.clientCount newClient
    let clientWriteFds ← store n.clientWriteFds n.clientCount newClient
    return (1, { n with
      clientAddresses, clientTypes, clientReadFds, clientWriteFds
      readfds := insert newClient n.readfds
      clientCount := n.clientCount + 1 })

/-- `dbms_networking_add_pipe_client`. -/
def dbmsNetworkingAddPipeClient (readFd writeFd : ℤ) (n : Networking) : C (ℤ × Networking) :=
  if n.dbmsStarted = false then .ok (0, n)
  else if n.clientCount + 1 ≥ maxClients then .ok (0, n)
  else do
    let clientTypes ← store n.clientTypes n.clientCount clientTypePipe
    let clientReadFds ← store n.clientReadFds n.clientCount readFd
    let clientWriteFds ← store n.clientWriteFds n.clientCount writeFd
    return (1, { n with
      clientTypes, clientReadFds, clientWriteFds
      clientCount := n.clientCount + 1 })

/-- The answers of `close` for a client. -/
structure Closes where
  read : ℤ
  write : ℤ
  deriving DecidableEq, Repr

/-- Whether the descriptors of a client of a type are closed. -/
def Closes.succeed (closes : Closes) (type : ℤ) : Bool :=
  if type = clientTypeSocket then closes.read != -1
  else if type = clientTypePipe then closes.read != -1 && closes.write != -1
  else false

/-- `kill_client`. -/
def killClient (closes : Closes) (id : ℕ) (n : Networking) : C (ℤ × Networking) := do
  let type ← fetch n.clientTypes id
  if closes.succeed type = false then return (0, n)
  else
    let readFd ← fetch n.clientReadFds id
    let n := { n with readfds := n.readfds.erase readFd }
    if id = 0 then do
      let clientReadFds ← store n.clientReadFds id 0
      return (1, { n with clientReadFds, clientCount := n.clientCount - 1 })
    else do
      let type ← fetch n.clientTypes (n.clientCount - 1)
      let clientTypes ← store n.clientTypes id type
      let readFd ← fetch n.clientReadFds (n.clientCount - 1)
      let clientReadFds ← store n.clientReadFds id readFd
      let writeFd ← fetch n.clientWriteFds (n.clientCount - 1)
      let clientWriteFds ← store n.clientWriteFds id writeFd
      let address ← fetch n.clientAddresses (n.clientCount - 1)
      let clientAddresses ← store n.clientAddresses id address
      return (1, { n with
        clientAddresses, clientTypes, clientReadFds, clientWriteFds
        clientCount := n.clientCount - 1 })

/-! ## The clients -/

/-- A client: its entries in the three arrays. -/
structure Client where
  type : ℤ
  readFd : ℤ
  writeFd : ℤ
  deriving DecidableEq, Repr

namespace Networking

/-- The client of a slot. -/
def client (n : Networking) (i : ℕ) : Client :=
  ⟨n.clientTypes.getD i 0, n.clientReadFds.getD i 0, n.clientWriteFds.getD i 0⟩

/-- The clients of the table. -/
def clients (n : Networking) : List Client := (List.range n.clientCount).map n.client

/-- The arrays have their size, and the clients fit in them. -/
structure Ok (n : Networking) : Prop where
  addresses : n.clientAddresses.length = maxClients
  types : n.clientTypes.length = maxClients
  readFds : n.clientReadFds.length = maxClients
  writeFds : n.clientWriteFds.length = maxClients
  count_le : n.clientCount ≤ maxClients

/-- The table with a client in a slot. -/
def put (n : Networking) (i : ℕ) (c : Client) : Networking :=
  { n with
    clientTypes := n.clientTypes.set i c.type
    clientReadFds := n.clientReadFds.set i c.readFd
    clientWriteFds := n.clientWriteFds.set i c.writeFd }

/-- The table with a client behind the last one. -/
def join (n : Networking) (c : Client) (addresses : List SockaddrIn) (readfds : Finset ℤ) :
    Networking :=
  { n.put n.clientCount c with
    clientAddresses := addresses, readfds, clientCount := n.clientCount + 1 }

/-- The table without the last client, and with a client in a slot. -/
def leave (n : Networking) (id : ℕ) (c : Client) (addresses : List SockaddrIn)
    (readfds : Finset ℤ) : Networking :=
  { n.put id c with
    clientAddresses := addresses, readfds, clientCount := n.clientCount - 1 }

/-- What is in the slot of a client that left. -/
def replacement (n : Networking) (id : ℕ) : Client :=
  if id = 0 then { n.client 0 with readFd := 0 } else n.client (n.clientCount - 1)

/-- The addresses after a client left. -/
def addressesWithout (n : Networking) (id : ℕ) : List SockaddrIn :=
  if id = 0 then n.clientAddresses
  else n.clientAddresses.set id (n.clientAddresses.getD (n.clientCount - 1) ⟨0, 0⟩)

end Networking

section Clients

variable {n n' : Networking} {c : Client} {i id : ℕ} {addresses : List SockaddrIn}
  {readfds : Finset ℤ} {closes : Closes} {r : ℤ}

@[simp] theorem Networking.length_clients : n.clients.length = n.clientCount := by
  simp [clients]

theorem Networking.getElem?_clients : n.clients[i]? =
    if i < n.clientCount then some (n.client i) else none := by
  rw [clients, List.getElem?_map]
  split
  · rw [List.getElem?_range ‹_›]
    rfl
  · rw [List.getElem?_eq_none (by simpa using Nat.not_lt.mp ‹_›)]
    rfl

theorem Networking.client_mem_clients (hi : i < n.clientCount) : n.client i ∈ n.clients :=
  List.mem_map_of_mem (List.mem_range.mpr hi)

theorem Networking.Ok.client_put (h : n.Ok) (hi : i < maxClients) (j : ℕ) :
    (n.put i c).client j = if j = i then c else n.client j := by
  have htypes := h.types
  have hread := h.readFds
  have hwrite := h.writeFds
  simp only [client, put, List.getD_eq_getElem?_getD, List.getElem?_set]
  by_cases hji : j = i
  · subst hji
    simp [htypes, hread, hwrite, hi]
  · simp [Ne.symm hji, hji]

theorem Networking.Ok.join (h : n.Ok) (hlt : n.clientCount < maxClients)
    (ha : addresses.length = maxClients) : (n.join c addresses readfds).Ok where
  addresses := ha
  types := by simp [Networking.join, put, h.types]
  readFds := by simp [Networking.join, put, h.readFds]
  writeFds := by simp [Networking.join, put, h.writeFds]
  count_le := hlt

theorem Networking.Ok.leave (h : n.Ok) (ha : addresses.length = maxClients) :
    (n.leave id c addresses readfds).Ok where
  addresses := ha
  types := by simp [Networking.leave, put, h.types]
  readFds := by simp [Networking.leave, put, h.readFds]
  writeFds := by simp [Networking.leave, put, h.writeFds]
  count_le := (Nat.sub_le _ _).trans h.count_le

theorem Networking.Ok.client_join (h : n.Ok) (hlt : n.clientCount < maxClients) (j : ℕ) :
    (n.join c addresses readfds).client j = if j = n.clientCount then c else n.client j :=
  h.client_put hlt j

theorem Networking.Ok.client_leave (h : n.Ok) (hid : id < n.clientCount) (j : ℕ) :
    (n.leave id c addresses readfds).client j = if j = id then c else n.client j :=
  h.client_put (hid.trans_le h.count_le) j

/-- A client that joins is the last one. -/
theorem Networking.Ok.clients_join (h : n.Ok) (hlt : n.clientCount < maxClients) :
    (n.join c addresses readfds).clients = n.clients ++ [c] := by
  apply List.ext_getElem?
  intro i
  rw [getElem?_clients, List.getElem?_append, length_clients, getElem?_clients]
  show (if i < n.clientCount + 1 then some ((n.join c addresses readfds).client i) else none) = _
  rw [h.client_join hlt]
  rcases lt_trichotomy i n.clientCount with hi | rfl | hi
  · rw [if_pos (by omega), if_neg (by omega), if_pos hi, if_pos hi]
  · simp
  · rw [if_neg (by omega), if_neg (by omega), List.getElem?_eq_none]
    simp only [List.length_singleton]
    omega

/-- A client that leaves is replaced, and the last client goes. -/
theorem Networking.Ok.clients_leave (h : n.Ok) (hid : id < n.clientCount) :
    (n.leave id c addresses readfds).clients = (n.clients.set id c).dropLast := by
  apply List.ext_getElem?
  intro i
  rw [getElem?_clients, List.getElem?_dropLast, List.length_set, length_clients,
    List.getElem?_set, length_clients, getElem?_clients]
  show (if i < n.clientCount - 1 then some ((n.leave id c addresses readfds).client i) else none) = _
  rw [h.client_leave hid]
  by_cases hi : i < n.clientCount - 1
  · rw [if_pos hi, if_pos hi]
    by_cases hii : i = id
    · rw [if_pos hii, if_pos hii.symm, if_pos hid]
    · rw [if_neg hii, if_neg (Ne.symm hii), if_pos (by omega)]
  · rw [if_neg hi, if_neg hi]

theorem fetch_eq_getD {α : Type} {l : List α} (hi : i < l.length) (d : α) :
    fetch l i = .ok (l.getD i d) := by
  rw [fetch_of_lt hi, List.getD_eq_getElem _ _ hi]

theorem Networking.Ok.fetch_types (h : n.Ok) (hi : i < maxClients) :
    fetch n.clientTypes i = .ok (n.client i).type :=
  fetch_eq_getD (hi.trans_eq h.types.symm) 0

theorem Networking.Ok.fetch_readFds (h : n.Ok) (hi : i < maxClients) :
    fetch n.clientReadFds i = .ok (n.client i).readFd :=
  fetch_eq_getD (hi.trans_eq h.readFds.symm) 0

theorem Networking.Ok.fetch_writeFds (h : n.Ok) (hi : i < maxClients) :
    fetch n.clientWriteFds i = .ok (n.client i).writeFd :=
  fetch_eq_getD (hi.trans_eq h.writeFds.symm) 0

/-- **A connection is accepted** while there is room in the arrays, which is not checked. -/
theorem acceptConnection_eq (h : n.Ok) (newClient : ℤ) (address : SockaddrIn) :
    acceptConnection newClient address n =
      if newClient < 0 then .ok (0, n)
      else if n.clientCount < maxClients then
        .ok (1, n.join ⟨clientTypeSocket, newClient, newClient⟩
          (n.clientAddresses.set n.clientCount address) (insert newClient n.readfds))
      else .error .outOfBounds := by
  unfold acceptConnection
  split
  · rfl
  · split
    next hlt =>
      rw [store_of_lt (hlt.trans_eq h.addresses.symm), ok_bind,
        store_of_lt (hlt.trans_eq h.types.symm), ok_bind,
        store_of_lt (hlt.trans_eq h.readFds.symm), ok_bind,
        store_of_lt (hlt.trans_eq h.writeFds.symm), ok_bind]
      rfl
    next hle =>
      rw [store_of_le (h.addresses.le.trans (Nat.not_lt.mp hle)), error_bind]

/-- **A pipe is added** while there is room for one more client behind it. -/
theorem dbmsNetworkingAddPipeClient_eq (h : n.Ok) (readFd writeFd : ℤ) :
    dbmsNetworkingAddPipeClient readFd writeFd n =
      if n.dbmsStarted = true ∧ n.clientCount + 1 < maxClients then
        .ok (1, n.join ⟨clientTypePipe, readFd, writeFd⟩ n.clientAddresses n.readfds)
      else .ok (0, n) := by
  unfold dbmsNetworkingAddPipeClient
  by_cases hstarted : n.dbmsStarted = true
  · by_cases hroom : n.clientCount + 1 < maxClients
    · have hlt : n.clientCount < maxClients := Nat.lt_of_succ_lt hroom
      rw [if_neg (by simp [hstarted]), if_neg (Nat.not_le.mpr hroom), if_pos ⟨hstarted, hroom⟩,
        store_of_lt (hlt.trans_eq h.types.symm), ok_bind,
        store_of_lt (hlt.trans_eq h.readFds.symm), ok_bind,
        store_of_lt (hlt.trans_eq h.writeFds.symm), ok_bind]
      rfl
    · rw [if_neg (by simp [hstarted]), if_pos (Nat.not_lt.mp hroom), if_neg fun h => hroom h.2]
  · rw [if_pos (by simpa using hstarted), if_neg fun h => hstarted h.1]

/-- **A client is killed** when its descriptors are closed. -/
theorem killClient_eq (h : n.Ok) (hid : id < n.clientCount) (closes : Closes) :
    killClient closes id n =
      if closes.succeed (n.client id).type = true then
        .ok (1, n.leave id (n.replacement id) (n.addressesWithout id)
          (n.readfds.erase (n.client id).readFd))
      else .ok (0, n) := by
  have hlt : id < maxClients := hid.trans_le h.count_le
  have hlast : n.clientCount - 1 < maxClients := (Nat.sub_one_lt_of_lt hid).trans_le h.count_le
  rw [killClient, h.fetch_types hlt, ok_bind]
  by_cases hclosed : closes.succeed (n.client id).type = true
  · rw [if_neg (by simp [hclosed]), if_pos hclosed, h.fetch_readFds hlt, ok_bind]
    by_cases hzero : id = 0
    · subst hzero
      rw [if_pos rfl, store_of_lt (hlt.trans_eq h.readFds.symm), ok_bind]
      have htypes : n.clientTypes.set 0 (n.clientTypes.getD 0 0) = n.clientTypes := by
        rw [List.getD_eq_getElem _ _ (hlt.trans_eq h.types.symm), List.set_getElem_self]
      have hwrites : n.clientWriteFds.set 0 (n.clientWriteFds.getD 0 0) = n.clientWriteFds := by
        rw [List.getD_eq_getElem _ _ (hlt.trans_eq h.writeFds.symm), List.set_getElem_self]
      simp only [Networking.leave, Networking.put, Networking.replacement, Networking.client,
        Networking.addressesWithout, if_true, htypes, hwrites, pure_eq_ok]
    · have hfetch := h.fetch_types hlast
      have hfetch' := h.fetch_readFds hlast
      have hfetch'' := h.fetch_writeFds hlast
      simp only [if_neg hzero, hfetch, hfetch', hfetch'', ok_bind,
        store_of_lt (hlt.trans_eq h.types.symm), store_of_lt (hlt.trans_eq h.readFds.symm),
        store_of_lt (hlt.trans_eq h.writeFds.symm), store_of_lt (hlt.trans_eq h.addresses.symm),
        fetch_eq_getD (hlast.trans_eq h.addresses.symm) ⟨0, 0⟩, Networking.leave, Networking.put,
        Networking.replacement, Networking.addressesWithout, pure_eq_ok]
  · rw [if_pos (by simpa using hclosed), if_neg hclosed]
    rfl

/-! A call that returns 1 has changed the table. -/

theorem acceptConnection_eq_one (h : n.Ok) {newClient : ℤ} {address : SockaddrIn} :
    acceptConnection newClient address n = .ok (1, n') ↔
      0 ≤ newClient ∧ n.clientCount < maxClients ∧
        n' = n.join ⟨clientTypeSocket, newClient, newClient⟩
          (n.clientAddresses.set n.clientCount address) (insert newClient n.readfds) := by
  rw [acceptConnection_eq h]
  split
  · simp only [Except.ok.injEq, Prod.mk.injEq]
    omega
  · split
    · simp only [Except.ok.injEq, Prod.mk.injEq, true_and, eq_comm (a := n')]
      exact ⟨fun heq => ⟨by omega, by omega, heq⟩, fun heq => heq.2.2⟩
    · simp only [reduceCtorEq, false_iff]
      omega

theorem dbmsNetworkingAddPipeClient_eq_one (h : n.Ok) {readFd writeFd : ℤ} :
    dbmsNetworkingAddPipeClient readFd writeFd n = .ok (1, n') ↔
      (n.dbmsStarted = true ∧ n.clientCount + 1 < maxClients) ∧
        n' = n.join ⟨clientTypePipe, readFd, writeFd⟩ n.clientAddresses n.readfds := by
  rw [dbmsNetworkingAddPipeClient_eq h]
  split
  · simp [*, eq_comm (a := n')]
  · simp [*]

theorem killClient_eq_one (h : n.Ok) (hid : id < n.clientCount) :
    killClient closes id n = .ok (1, n') ↔
      closes.succeed (n.client id).type = true ∧
        n' = n.leave id (n.replacement id) (n.addressesWithout id)
          (n.readfds.erase (n.client id).readFd) := by
  rw [killClient_eq h hid]
  split
  · simp [*, eq_comm (a := n')]
  · simp [*]

theorem Networking.Ok.length_addressesWithout (h : n.Ok) :
    (n.addressesWithout id).length = maxClients := by
  unfold addressesWithout
  split <;> simp [h.addresses]

end Clients

/-! ## Clients that leave -/

section Leave

variable {α : Type} {n n' : Networking} {id : ℕ} {closes : Closes}

/-- The last element in the place of another one: all other elements are kept. -/
theorem swapRemove_perm {l : List α} {i : ℕ} (hi : i < l.length) (a : α)
    (ha : l[l.length - 1]? = some a) : ((l.set i a).dropLast).Perm (l.eraseIdx i) := by
  obtain ⟨hlt, rfl⟩ := List.getElem?_eq_some_iff.mp ha
  rcases List.eq_nil_or_concat l with rfl | ⟨l, z, rfl⟩
  · exact absurd hi (Nat.not_lt_zero _)
  · simp only [List.concat_eq_append, List.length_append, List.length_singleton,
      Nat.add_sub_cancel, List.getElem_concat_length] at hi ⊢
    rcases Nat.lt_succ_iff_lt_or_eq.mp hi with hlt | rfl
    · rw [List.set_append_left _ _ hlt, List.dropLast_concat, List.eraseIdx_append_of_lt_length hlt,
        List.set_eq_take_append_cons_drop, if_pos hlt, List.eraseIdx_eq_take_drop_succ,
        List.append_assoc]
      exact (List.perm_append_singleton _ _).symm.append_left _
    · rw [List.eraseIdx_append_of_length_le le_rfl]
      simp

/-- The last client of the table is not lost with the client of a slot. -/
def Networking.Keeps (n : Networking) (id : ℕ) : Prop :=
  id ≠ 0 ∨ n.clientCount = 1 ∨ n.client (n.clientCount - 1) = { n.client 0 with readFd := 0 }

/-- **All other clients are kept exactly when** the client is not in the first slot, or alone, or
the last client is what stays in the first slot. -/
theorem killClient_perm_iff (h : n.Ok) (hid : id < n.clientCount)
    (hkill : killClient closes id n = .ok (1, n')) :
    n'.clients.Perm (n.clients.eraseIdx id) ↔ n.Keeps id := by
  obtain ⟨-, rfl⟩ := (killClient_eq_one h hid).mp hkill
  rw [h.clients_leave hid]
  have hlast : n.clients[n.clients.length - 1]? = some (n.client (n.clientCount - 1)) := by
    rw [Networking.getElem?_clients, Networking.length_clients, if_pos (by omega)]
  by_cases hzero : id = 0
  · subst hzero
    have hhead : n.clients[0]? = some (n.client 0) := by
      rw [Networking.getElem?_clients, if_pos hid]
    have hlength := n.length_clients
    rw [Networking.Keeps, Networking.replacement, if_pos rfl]
    cases hclients : n.clients with
    | nil => simp [hclients] at hhead
    | cons c l =>
      rw [hclients] at hlength hlast
      rcases List.eq_nil_or_concat l with rfl | ⟨l, z, rfl⟩
      · exact iff_of_true (by simp) (Or.inr (Or.inl hlength.symm))
      · -- what stays in the first slot stands for the last client
        simp only [List.concat_eq_append, List.length_cons, List.length_append,
          Nat.add_sub_cancel] at hlength hlast ⊢
        obtain rfl : z = n.client (n.clientCount - 1) := by simpa using hlast
        rw [List.set_cons_zero, ← List.cons_append, List.dropLast_concat, List.eraseIdx_cons_zero]
        have hcancel : ∀ a : Client, (a :: l).Perm (l ++ [n.client (n.clientCount - 1)]) ↔
            n.client (n.clientCount - 1) = a := by
          intro a
          rw [List.perm_comm, (List.perm_append_singleton _ l).congr_left, List.perm_comm]
          constructor
          · intro hperm
            have hcount := hperm.count_eq a
            by_contra hne
            simp [hne] at hcount
          · rintro rfl
            exact List.Perm.refl _
        rw [hcancel]
        simp [← hlength]
  · rw [Networking.replacement, if_neg hzero]
    exact iff_of_true (swapRemove_perm (by simpa using hid) _ hlast) (Or.inl hzero)

end Leave

/-! ## Runs -/

/-- The tables that are reached when a condition is met whenever a client is killed, with the
clients that joined and have not left. Between the calls the set of descriptors is set anew. -/
inductive Reached (keeps : Networking → ℕ → Prop) : Networking → Multiset Client → Prop
  | setUp {answers : SetUp} {n : Networking}
      (h : dbmsNetworkingInitialize answers .initial = (1, n)) : Reached keeps n 0
  | select {n : Networking} {live : Multiset Client} (h : Reached keeps n live)
      (readfds : Finset ℤ) : Reached keeps { n with readfds } live
  | accept {n n' : Networking} {live : Multiset Client} {newClient : ℤ} {address : SockaddrIn}
      (h : Reached keeps n live) (hcall : acceptConnection newClient address n = .ok (1, n')) :
      Reached keeps n' (⟨clientTypeSocket, newClient, newClient⟩ ::ₘ live)
  | addPipe {n n' : Networking} {live : Multiset Client} {readFd writeFd : ℤ}
      (h : Reached keeps n live)
      (hcall : dbmsNetworkingAddPipeClient readFd writeFd n = .ok (1, n')) :
      Reached keeps n' (⟨clientTypePipe, readFd, writeFd⟩ ::ₘ live)
  | kill {n n' : Networking} {live : Multiset Client} {closes : Closes} {id : ℕ}
      (h : Reached keeps n live) (hid : id < n.clientCount) (hkeeps : keeps n id)
      (hcall : killClient closes id n = .ok (1, n')) :
      Reached keeps n' (live.erase (n.client id))

section Runs

variable {keeps : Networking → ℕ → Prop} {n n' : Networking} {live : Multiset Client}

/-- The set-up fills in the descriptor of the server only. -/
theorem dbmsNetworkingInitialize_eq_one {answers : SetUp}
    (h : dbmsNetworkingInitialize answers .initial = (1, n)) : 0 ≤ answers.socket ∧
      n = { Networking.initial with
        dbmsStarted := true, serverSocket := answers.socket, readfds := {answers.socket} } := by
  unfold dbmsNetworkingInitialize at h
  split at h
  case isTrue => simp at h
  case isFalse hsocket =>
    refine ⟨not_lt.mp hsocket, ?_⟩
    simp only at h
    repeat' split at h
    all_goals simp_all

theorem Reached.ok (h : Reached keeps n live) : n.Ok := by
  induction h with
  | setUp h =>
    obtain ⟨-, rfl⟩ := dbmsNetworkingInitialize_eq_one h
    exact ⟨rfl, rfl, rfl, rfl, Nat.zero_le _⟩
  | select _ readfds ih => exact ⟨ih.addresses, ih.types, ih.readFds, ih.writeFds, ih.count_le⟩
  | accept _ hcall ih =>
    obtain ⟨-, hlt, rfl⟩ := (acceptConnection_eq_one ih).mp hcall
    exact ih.join hlt (by simp [ih.addresses])
  | addPipe _ hcall ih =>
    obtain ⟨⟨-, hroom⟩, rfl⟩ := (dbmsNetworkingAddPipeClient_eq_one ih).mp hcall
    exact ih.join (Nat.lt_of_succ_lt hroom) ih.addresses
  | kill _ hid _ hcall ih =>
    obtain ⟨-, rfl⟩ := (killClient_eq_one ih hid).mp hcall
    exact ih.leave ih.length_addressesWithout

theorem Reached.dbmsStarted (h : Reached keeps n live) : n.dbmsStarted = true := by
  induction h with
  | setUp h =>
    obtain ⟨-, rfl⟩ := dbmsNetworkingInitialize_eq_one h
    rfl
  | select _ readfds ih => exact ih
  | accept h hcall ih =>
    obtain ⟨-, -, rfl⟩ := (acceptConnection_eq_one h.ok).mp hcall
    exact ih
  | addPipe h hcall ih =>
    obtain ⟨-, rfl⟩ := (dbmsNetworkingAddPipeClient_eq_one h.ok).mp hcall
    exact ih
  | kill h hid _ hcall ih =>
    obtain ⟨-, rfl⟩ := (killClient_eq_one h.ok hid).mp hcall
    exact ih

/-- Every client is a connection or a pipe. -/
theorem Reached.type_eq (h : Reached keeps n live) {i : ℕ} (hi : i < n.clientCount) :
    (n.client i).type = clientTypeSocket ∨ (n.client i).type = clientTypePipe := by
  have hmem : ∀ c ∈ n.clients, c.type = clientTypeSocket ∨ c.type = clientTypePipe := by
    clear hi
    induction h with
    | setUp h =>
      obtain ⟨-, rfl⟩ := dbmsNetworkingInitialize_eq_one h
      exact fun c hc => absurd hc List.not_mem_nil
    | select _ readfds ih => exact ih
    | accept h hcall ih =>
      obtain ⟨-, hlt, rfl⟩ := (acceptConnection_eq_one h.ok).mp hcall
      rw [h.ok.clients_join hlt, List.forall_mem_append, List.forall_mem_singleton]
      exact ⟨ih, Or.inl rfl⟩
    | addPipe h hcall ih =>
      obtain ⟨⟨-, hroom⟩, rfl⟩ := (dbmsNetworkingAddPipeClient_eq_one h.ok).mp hcall
      rw [h.ok.clients_join (Nat.lt_of_succ_lt hroom), List.forall_mem_append,
        List.forall_mem_singleton]
      exact ⟨ih, Or.inr rfl⟩
    | @kill n _ _ _ id h hid _ hcall ih =>
      obtain ⟨-, rfl⟩ := (killClient_eq_one h.ok hid).mp hcall
      rw [h.ok.clients_leave hid]
      intro c hc
      rcases List.mem_or_eq_of_mem_set (List.mem_of_mem_dropLast hc) with hc | rfl
      · exact ih c hc
      · unfold Networking.replacement
        split
        · exact ih (n.client 0) (Networking.client_mem_clients (Nat.zero_lt_of_lt hid))
        · exact ih _ (Networking.client_mem_clients (by omega))
  exact hmem _ (Networking.client_mem_clients hi)

/-- A run whose kills all keep the last client keeps exactly the clients that have not left. -/
theorem Reached.clients_eq (h : Reached Networking.Keeps n live) :
    (n.clients : Multiset Client) = live := by
  induction h with
  | setUp h =>
    obtain ⟨-, rfl⟩ := dbmsNetworkingInitialize_eq_one h
    rfl
  | select _ readfds ih => exact ih
  | accept h hcall ih =>
    obtain ⟨-, hlt, rfl⟩ := (acceptConnection_eq_one h.ok).mp hcall
    rw [h.ok.clients_join hlt, ← ih, Multiset.cons_coe, Multiset.coe_eq_coe]
    exact List.perm_append_singleton _ _
  | addPipe h hcall ih =>
    obtain ⟨⟨-, hroom⟩, rfl⟩ := (dbmsNetworkingAddPipeClient_eq_one h.ok).mp hcall
    rw [h.ok.clients_join (Nat.lt_of_succ_lt hroom), ← ih, Multiset.cons_coe, Multiset.coe_eq_coe]
    exact List.perm_append_singleton _ _
  | @kill n _ _ _ id h hid hkeeps hcall ih =>
    have hperm := (killClient_perm_iff h.ok hid hcall).mpr hkeeps
    have hget : n.clients[id]? = some (n.client id) := by
      rw [Networking.getElem?_clients, if_pos hid]
    obtain ⟨hlt, heq⟩ := List.getElem?_eq_some_iff.mp hget
    rw [Multiset.coe_eq_coe.mpr hperm, ← ih,
      ← Multiset.coe_eq_coe.mpr (List.getElem_cons_eraseIdx_perm hlt), heq, ← Multiset.cons_coe,
      Multiset.erase_cons_head]

/-- **When other clients are kept**: a client that leaves takes no other one along exactly when the
last client is not lost with it, and over a run in which none is lost the table has exactly the
clients that joined and have not left. -/
theorem killClient_keeps_clients (n : Networking) (live : Multiset Client) :
    (∀ keeps, Reached keeps n live → ∀ closes id n', id < n.clientCount →
      killClient closes id n = .ok (1, n') →
      (n'.clients.Perm (n.clients.eraseIdx id) ↔ n.Keeps id)) ∧
    (Reached Networking.Keeps n live → (n.clients : Multiset Client) = live) :=
  ⟨fun _ h _ _ _ hid hkill => killClient_perm_iff h.ok hid hkill, fun h => h.clients_eq⟩

/-- The table after two connections. -/
def twoClients : Networking :=
  { Networking.initial with
    dbmsStarted := true, serverSocket := 3, clientReadFds := [4, 5, 0, 0, 0, 0, 0, 0]
    clientWriteFds := [4, 5, 0, 0, 0, 0, 0, 0], clientCount := 2, readfds := {5, 4, 3} }

theorem reached_twoClients (keeps : Networking → ℕ → Prop) :
    Reached keeps twoClients {⟨0, 5, 5⟩, ⟨0, 4, 4⟩} :=
  @Reached.accept keeps _ _ _ 5 ⟨0, 0⟩
    (@Reached.accept keeps _ _ _ 4 ⟨0, 0⟩ (@Reached.setUp keeps ⟨3, 0, 0, 0, 0⟩ _ rfl) rfl) rfl

theorem killClient_keeps_clients_second : ∃ n', killClient ⟨0, 0⟩ 1 twoClients = .ok (1, n') ∧
    (n'.clients.Perm (twoClients.clients.eraseIdx 1) ↔ twoClients.Keeps 1) ∧
      (twoClients.clients : Multiset Client) = {⟨0, 5, 5⟩, ⟨0, 4, 4⟩} :=
  ⟨_, rfl, (killClient_keeps_clients _ _).1 _ (reached_twoClients fun _ _ => True) ⟨0, 0⟩ 1 _
    (by decide) rfl, (killClient_keeps_clients _ _).2 (reached_twoClients _)⟩

/-- When the first of two clients leaves, the second one is lost. -/
theorem killClient_first : Reached (fun _ _ => True) twoClients {⟨0, 5, 5⟩, ⟨0, 4, 4⟩} ∧
    ∃ n', killClient ⟨0, 0⟩ 0 twoClients = .ok (1, n') ∧
      n'.clients = [⟨0, 0, 4⟩] ∧ ¬ n'.clients.Perm (twoClients.clients.eraseIdx 0) := by
  refine ⟨reached_twoClients _, _, rfl, rfl, ?_⟩
  decide

end Runs

end SetQL
