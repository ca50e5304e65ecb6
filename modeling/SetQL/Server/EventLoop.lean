import SetQL.Server.ClientTable
import SetQL.Base.Bytes
import Mathlib.Data.Finset.Dedup

/-!
# The event loop

`dbms_networking.c`: in each round `dbms_start` asks the system which descriptors can be read,
accepts a connection, and handles a message of each client whose descriptor is in the set. All of
the answers of the system are given, for every round.

## Main definitions

* `Received`: what a call that receives leaves
* `handleMessage`, `clientLoop`, `round`, `dbmsStart`: the functions, with the descriptors that are
  read
* `Event`, `Event.step`: connections, pipes and messages in any order
* `Event.Fits`: an event stays within the arrays
* `Round.Handled`: the messages of a round are handled
* `Round.ReadsReady`: a round reads only clients that were reported as ready
* `Round.Fair`: a connection is accepted in it only while a client leaves

## Main results

* `events_return_iff`: when the arrays are not overrun
* `round_readsReady_iff`: when only ready clients are read in a round
* `dbmsStart_calls_iff`: the same for runs
-/

namespace SetQL

/-- `MAX_MESSAGE_SIZE`, and the size of the buffer of `handle_message`. -/
def maxMessageSize : ℕ := 128

/-- What `recv` or `read` leaves: its result, and the buffer that it fills up to there. -/
structure Received where
  result : ℤ
  buffer : Bytes
  result_le : result ≤ maxMessageSize
  length_buffer : buffer.length = maxMessageSize

/-- The bytes that are received. -/
def Received.bytes (received : Received) : Bytes := received.buffer.take received.result.toNat

/-- `handle_message`: its return value, and what comes of the call of the message function. -/
def handleMessage {ω : Type} (messageFunction : Bytes → ℤ → ℕ → C ω) (received : Received)
    (closes : Closes) (id : ℕ) (n : Networking) : C (ℤ × Networking × Option ω) := do
  let type ← fetch n.clientTypes id
  if type ≠ clientTypeSocket ∧ type ≠ clientTypePipe then return (0, n, none)
  else if received.result < 0 then return (1, n, none)
  else if received.result = 0 then do
    let (killed, n) ← killClient closes id n
    if killed = 0 then return (0, n, none) else return (1, n, none)
  else do
    let buffer ← store received.buffer received.result.toNat 0
    let handled ← messageFunction buffer received.result id
    return (1, n, some handled)

/-! ## Rounds -/

/-- The answers of the system in a round. -/
structure Round where
  /-- The descriptors that `select` finds ready, or none for its error. -/
  select : Option (Finset ℤ)
  /-- The descriptor and the peer that `accept` answers. -/
  accept : ℤ × SockaddrIn
  /-- What is received for the client of a slot. -/
  received : ℕ → Received
  /-- What `close` answers for the client of a slot. -/
  closes : ℕ → Closes

/-- What happens in a round: the descriptors that were reported as ready, the ones of the clients
that `handle_message` was called for, and the return value that a call was left with. -/
structure RoundRun where
  reported : Finset ℤ
  calls : List ℤ
  outcome : C (ℤ × Networking)

/-- The descriptors that `select` is asked for. -/
def Networking.requested (n : Networking) : Finset ℤ :=
  insert n.serverSocket ((n.clientReadFds.take n.clientCount).filter (0 < ·)).toFinset

section Loop

variable {ω : Type} (messageFunction : Bytes → ℤ → ℕ → C ω)

/-- The loop over the clients from an index on. The number of clients never grows in it, so it ends
before `fuel` does. -/
def clientLoop (answers : Round) : ℕ → ℕ → Networking → List ℤ × C (ℤ × Networking)
  | 0, _, n => ([], .ok (1, n))
  | fuel + 1, i, n =>
    if i < n.clientCount then
      match fetch n.clientReadFds i with
      | .error e => ([], .error e)
      | .ok fd =>
        if fd ∈ n.readfds then
          match handleMessage messageFunction (answers.received i) (answers.closes i) i n with
          | .error e => ([fd], .error e)
          | .ok (r, n, _) =>
            if r = 0 then ([fd], .ok (0, n))
            else
              let rest := clientLoop answers fuel (i + 1) n
              (fd :: rest.1, rest.2)
        else clientLoop answers fuel (i + 1) n
    else ([], .ok (1, n))

/-- The body of the loop of `dbms_start`. What `select` leaves is a part of the set. -/
def round (answers : Round) (n : Networking) : RoundRun :=
  match answers.select with
  | none => ⟨∅, [], .ok (0, { n with readfds := n.requested })⟩
  | some ready =>
    let reported := n.requested ∩ ready
    let n := { n with readfds := reported }
    let accepted : C (ℤ × Networking) :=
      if n.serverSocket ∈ n.readfds then acceptConnection answers.accept.1 answers.accept.2 n
      else .ok (1, n)
    match accepted with
    | .error e => ⟨reported, [], .error e⟩
    | .ok (r, n) =>
      if r = 0 then ⟨reported, [], .ok (0, n)⟩
      else
        let loop := clientLoop messageFunction answers n.clientCount 0 n
        ⟨reported, loop.1, loop.2⟩

/-- The rounds that are begun, each with the variables before it: a round follows when the one
before it ends with 1. -/
def rounds : List Round → Networking → List (Networking × Round)
  | [], _ => []
  | answers :: l, n => (n, answers) ::
    match (round messageFunction answers n).outcome with
    | .ok (1, n) => rounds l n
    | _ => []

/-- `dbms_start`: the rounds that it begins. -/
def dbmsStart (answers : List Round) (n : Networking) : List (Networking × Round) :=
  if n.dbmsStarted = false then [] else rounds messageFunction answers n

end Loop

/-! ## Events -/

/-- What happens to the server. -/
inductive Event
  | accept (newClient : ℤ) (incommingAddress : SockaddrIn)
  | addPipe (readFd writeFd : ℤ)
  | message (id : ℕ) (received : Received) (closes : Closes)

/-- The variables after an event. Messages are handled for clients of the table. -/
def Event.step (n : Networking) : Event → C Networking
  | .accept newClient address => Prod.snd <$> acceptConnection newClient address n
  | .addPipe readFd writeFd => Prod.snd <$> dbmsNetworkingAddPipeClient readFd writeFd n
  | .message id received closes =>
    if id < n.clientCount then
      (fun result => result.2.1) <$> handleMessage (fun _ _ _ => .ok ()) received closes id n
    else .ok n

/-- An event stays within the arrays: there is room for a connection that is accepted, and a message
leaves room for the zero byte behind it. -/
def Event.Fits (n : Networking) : Event → Prop
  | .accept newClient _ => 0 ≤ newClient → n.clientCount < maxClients
  | .addPipe _ _ => True
  | .message id received _ => id < n.clientCount → received.result < maxMessageSize

section Message

variable {ω : Type} {f : Bytes → ℤ → ℕ → C ω} {received : Received} {closes : Closes} {id : ℕ}
  {n n' : Networking} {r : ℤ} {v : Option ω} {live : Multiset Client} {e : Event}

/-- The tables that are reached by any run. -/
def Networking.Reachable (n : Networking) : Prop := ∃ live, Reached (fun _ _ => True) n live

/-- **A message is handled**: an error is passed over, an empty one ends the client, and another one
is handed to the message function, with a zero byte behind it. -/
theorem handleMessage_eq (h : n.Reachable) (hid : id < n.clientCount) :
    handleMessage f received closes id n =
      if received.result < 0 then .ok (1, n, none)
      else if received.result = 0 then
        (fun killed => (killed.1, killed.2, none)) <$> killClient closes id n
      else if received.result < maxMessageSize then
        (fun handled => (1, n, some handled)) <$>
          f (received.buffer.set received.result.toNat 0) received.result id
      else .error .outOfBounds := by
  obtain ⟨live, h⟩ := h
  have hlt : id < maxClients := hid.trans_le h.ok.count_le
  have hknown : ¬ ((n.client id).type ≠ clientTypeSocket ∧ (n.client id).type ≠ clientTypePipe) := by
    rcases h.type_eq hid with htype | htype <;> simp [htype]
  rw [handleMessage, h.ok.fetch_types hlt, ok_bind, if_neg hknown]
  split
  · rfl
  · split
    · rw [killClient_eq h.ok hid]
      split <;> rfl
    · split
      next hpos hne hfits =>
        rw [store_of_lt (by rw [received.length_buffer]; omega), ok_bind]
        cases f (received.buffer.set received.result.toNat 0) received.result id <;> rfl
      next hpos hne hfits =>
        rw [store_of_le (by rw [received.length_buffer]; omega), error_bind]

theorem Networking.Reachable.killClient (h : n.Reachable) (hid : id < n.clientCount)
    (hcall : killClient closes id n = .ok (r, n')) : n'.Reachable := by
  obtain ⟨live, h⟩ := h
  by_cases hone : r = 1
  · subst hone
    exact ⟨_, h.kill hid trivial hcall⟩
  · rw [killClient_eq h.ok hid] at hcall
    split at hcall
    · exact absurd (Prod.mk.inj (Except.ok.inj hcall)).1.symm hone
    · obtain ⟨-, rfl⟩ := Prod.mk.inj (Except.ok.inj hcall)
      exact ⟨live, h⟩

theorem Networking.Reachable.acceptConnection (h : n.Reachable) {newClient : ℤ}
    {address : SockaddrIn} (hcall : acceptConnection newClient address n = .ok (r, n')) :
    n'.Reachable := by
  obtain ⟨live, h⟩ := h
  by_cases hone : r = 1
  · subst hone
    exact ⟨_, h.accept hcall⟩
  · rw [acceptConnection_eq h.ok] at hcall
    split at hcall
    · obtain ⟨-, rfl⟩ := Prod.mk.inj (Except.ok.inj hcall)
      exact ⟨live, h⟩
    · split at hcall
      · exact absurd (Prod.mk.inj (Except.ok.inj hcall)).1.symm hone
      · cases hcall

theorem Networking.Reachable.join (h : n.Reachable) {fd : ℤ} (address : SockaddrIn) (hfd : 0 ≤ fd)
    (hroom : n.clientCount < maxClients) :
    (n.join ⟨clientTypeSocket, fd, fd⟩ (n.clientAddresses.set n.clientCount address)
      (insert fd n.readfds)).Reachable := by
  have hok := h.elim fun _ h => h.ok
  exact h.acceptConnection ((acceptConnection_eq_one hok).mpr ⟨hfd, hroom, rfl⟩)

theorem Networking.Reachable.addPipeClient (h : n.Reachable) {readFd writeFd : ℤ}
    (hcall : dbmsNetworkingAddPipeClient readFd writeFd n = .ok (r, n')) : n'.Reachable := by
  obtain ⟨live, h⟩ := h
  by_cases hone : r = 1
  · subst hone
    exact ⟨_, h.addPipe hcall⟩
  · rw [dbmsNetworkingAddPipeClient_eq h.ok] at hcall
    split at hcall
    · exact absurd (Prod.mk.inj (Except.ok.inj hcall)).1.symm hone
    · obtain ⟨-, rfl⟩ := Prod.mk.inj (Except.ok.inj hcall)
      exact ⟨live, h⟩

/-- A table that a message is handled for is left as it is, or without the client. -/
theorem Networking.Reachable.handleMessage (h : n.Reachable) (hid : id < n.clientCount)
    (hcall : handleMessage f received closes id n = .ok (r, n', v)) : n'.Reachable := by
  rw [handleMessage_eq h hid] at hcall
  split at hcall
  · simp only [Except.ok.injEq, Prod.mk.injEq] at hcall
    exact hcall.2.1 ▸ h
  · split at hcall
    · obtain ⟨⟨killed, m⟩, hkill, heq⟩ := map_eq_ok.mp hcall
      simp only [Prod.mk.injEq] at heq
      exact heq.2.1 ▸ h.killClient hid hkill
    · split at hcall
      · obtain ⟨handled, -, heq⟩ := map_eq_ok.mp hcall
        simp only [Prod.mk.injEq] at heq
        exact heq.2.1 ▸ h
      · cases hcall

/-! ## The bounds of the arrays -/

/-- **An event stays within the arrays exactly when it fits.** -/
theorem Event.step_returns_iff (h : n.Reachable) :
    (∃ n', e.step n = .ok n') ↔ e.Fits n := by
  have hok := h.elim fun _ h => h.ok
  cases e with
  | accept newClient address =>
    rw [step, Fits, acceptConnection_eq hok]
    split
    next hneg => exact iff_of_true ⟨n, rfl⟩ fun hle => absurd hneg (not_lt.mpr hle)
    next hle =>
      split
      next hlt => exact iff_of_true ⟨_, rfl⟩ fun _ => hlt
      next hfull => exact iff_of_false nofun fun hfits => hfull (hfits (not_lt.mp hle))
  | addPipe readFd writeFd =>
    rw [step, Fits, dbmsNetworkingAddPipeClient_eq hok]
    split <;> exact iff_of_true ⟨_, rfl⟩ trivial
  | message id received closes =>
    rw [step, Fits]
    split
    next hid =>
      rw [handleMessage_eq h hid]
      split
      · exact iff_of_true ⟨n, rfl⟩ fun _ => by simp only [maxMessageSize]; omega
      · split
        · rw [killClient_eq hok hid]
          refine iff_of_true ?_ fun _ => by simp only [maxMessageSize]; omega
          split <;> exact ⟨_, rfl⟩
        · split
          next hfits => exact iff_of_true ⟨n, rfl⟩ fun _ => hfits
          next hfits => exact iff_of_false nofun fun h => hfits (h hid)
    next hid => exact iff_of_true ⟨n, rfl⟩ fun hlt => absurd hlt hid

theorem Event.step_reachable (h : n.Reachable) (hstep : e.step n = .ok n') : n'.Reachable := by
  cases e with
  | accept newClient address =>
    obtain ⟨⟨r, m⟩, hcall, rfl⟩ := map_eq_ok.mp hstep
    exact h.acceptConnection hcall
  | addPipe readFd writeFd =>
    obtain ⟨⟨r, m⟩, hcall, rfl⟩ := map_eq_ok.mp hstep
    exact h.addPipeClient hcall
  | message id received closes =>
    rw [step] at hstep
    split at hstep
    next hid =>
      obtain ⟨⟨r, m, v⟩, hcall, rfl⟩ := map_eq_ok.mp hstep
      exact h.handleMessage hid hcall
    next hid =>
      obtain rfl := Except.ok.inj hstep
      exact h

/-- **The arrays are not overrun exactly when** every connection is accepted with fewer than 8
clients in the table, and no message takes all 128 bytes. -/
theorem events_return_iff {answers : SetUp}
    (h : dbmsNetworkingInitialize answers .initial = (1, n)) (events : List Event) :
    (∃ n', events.foldlM Event.step n = .ok n') ↔
      ∀ pre e post, events = pre ++ e :: post → ∀ m, pre.foldlM Event.step n = .ok m →
        e.Fits m := by
  rw [foldlM_returns_iff]
  refine forall_congr' fun pre => forall_congr' fun e => forall_congr' fun post =>
    imp_congr_right fun _ => forall_congr' fun m => imp_congr_right fun hm => ?_
  apply Event.step_returns_iff
  exact foldlM_invariant (fun _ _ _ _ h hstep => Event.step_reachable h hstep)
    ⟨0, .setUp h⟩ hm

end Message

/-- A server that is set up. -/
def startedServer : Networking :=
  { Networking.initial with dbmsStarted := true, serverSocket := 3, readfds := {3} }

/-- A message of some bytes, or the end of the stream. -/
def textMessage (size : Fin (maxMessageSize + 1)) : Received :=
  ⟨size, List.replicate maxMessageSize 65, by exact_mod_cast Nat.le_of_lt_succ size.isLt,
    List.length_replicate⟩

/-- A pipe is added, a connection sends as much as it may and leaves, and another one comes. -/
def comingAndGoing : List Event :=
  [.addPipe 5 5, .accept 6 ⟨0, 0⟩, .message 1 (textMessage 127) ⟨0, 0⟩,
    .message 1 (textMessage 0) ⟨0, 0⟩, .accept 7 ⟨0, 0⟩]

theorem events_return_iff_single : dbmsNetworkingInitialize ⟨3, 0, 0, 0, 0⟩ .initial =
    (1, startedServer) ∧ ((∃ n', comingAndGoing.foldlM Event.step startedServer = .ok n') ↔
      ∀ pre e post, comingAndGoing = pre ++ e :: post →
        ∀ m, pre.foldlM Event.step startedServer = .ok m → e.Fits m) :=
  ⟨rfl, @events_return_iff _ ⟨3, 0, 0, 0, 0⟩ rfl _⟩

/-- A message that takes all 128 bytes. -/
def fullMessage : Received :=
  ⟨128, List.replicate maxMessageSize 65, le_rfl, List.length_replicate⟩

/-- A ninth connection, or a message of 128 bytes, overruns the arrays. -/
theorem events_overrun : dbmsNetworkingInitialize ⟨3, 0, 0, 0, 0⟩ .initial = (1, startedServer) ∧
    (List.replicate 9 (Event.accept 4 ⟨0, 0⟩)).foldlM Event.step startedServer =
      .error .outOfBounds ∧
    [Event.accept 4 ⟨0, 0⟩, .message 0 fullMessage ⟨0, 0⟩].foldlM Event.step startedServer =
      .error .outOfBounds := by
  refine ⟨rfl, ?_, ?_⟩
  · decide
  · decide +kernel

/-! ## Ready clients -/

section Ready

variable {ω : Type} {f : Bytes → ℤ → ℕ → C ω} {answers : Round} {n n' : Networking} {i fuel : ℕ}
  {reported : Finset ℤ} {fd : ℤ}

/-- **What a message does**: the table stays, or the client leaves, or the round ends. -/
theorem handleMessage_cases (f : Bytes → ℤ → ℕ → C ω) (answers : Round) (h : n.Reachable)
    (hi : i < n.clientCount) :
    (∃ v, handleMessage f (answers.received i) (answers.closes i) i n = .ok (1, n, v)) ∨
      ((answers.received i).result = 0 ∧
        ∃ v, handleMessage f (answers.received i) (answers.closes i) i n =
          .ok (1, n.leave i (n.replacement i) (n.addressesWithout i)
            (n.readfds.erase (n.client i).readFd), v)) ∨
      (∃ e, handleMessage f (answers.received i) (answers.closes i) i n = .error e) ∨
        ∃ m v, handleMessage f (answers.received i) (answers.closes i) i n = .ok (0, m, v) := by
  rw [handleMessage_eq h hi]
  split
  · exact Or.inl ⟨none, rfl⟩
  · split
    next hzero =>
      rw [killClient_eq (h.elim fun _ h => h.ok) hi]
      split
      · exact Or.inr (Or.inl ⟨hzero, none, rfl⟩)
      · exact Or.inr (Or.inr (Or.inr ⟨n, none, rfl⟩))
    next =>
      split
      · cases f ((answers.received i).buffer.set (answers.received i).result.toNat 0)
            (answers.received i).result i with
        | ok v => exact Or.inl ⟨some v, rfl⟩
        | error e => exact Or.inr (Or.inr (Or.inl ⟨e, rfl⟩))
      · exact Or.inr (Or.inr (Or.inl ⟨_, rfl⟩))

/-- The messages of a round are handled: they leave room for the zero byte behind them, and the
message function returns. -/
def Round.Handled (f : Bytes → ℤ → ℕ → C ω) (answers : Round) : Prop :=
  ∀ i, (answers.received i).result < maxMessageSize ∧ (0 < (answers.received i).result →
    ∃ v, f ((answers.received i).buffer.set (answers.received i).result.toNat 0)
      (answers.received i).result i = .ok v)

/-- **What a visit does when the messages are handled**: the table stays as it is, unless the client
has closed its side; then it leaves, or the server returns. -/
theorem visit_cases (hhandled : answers.Handled f) (h : n.Reachable) (hi : i < n.clientCount) :
    ((answers.received i).result ≠ 0 ∧ ∃ v,
      handleMessage f (answers.received i) (answers.closes i) i n = .ok (1, n, v)) ∨
    (answers.received i).result = 0 ∧
      ((∃ m v, handleMessage f (answers.received i) (answers.closes i) i n = .ok (0, m, v)) ∨
        ∃ v, handleMessage f (answers.received i) (answers.closes i) i n =
          .ok (1, n.leave i (n.replacement i) (n.addressesWithout i)
            (n.readfds.erase (n.client i).readFd), v)) := by
  obtain ⟨hlt, hreturns⟩ := hhandled i
  rw [handleMessage_eq h hi]
  split
  next hneg => exact Or.inl ⟨by omega, none, rfl⟩
  next hnonneg =>
    split
    next hzero =>
      rw [killClient_eq (h.elim fun _ h => h.ok) hi]
      split
      · exact Or.inr ⟨hzero, Or.inr ⟨none, rfl⟩⟩
      · exact Or.inr ⟨hzero, Or.inl ⟨n, none, rfl⟩⟩
    next hne =>
      obtain ⟨v, hv⟩ := hreturns (by omega)
      simp only [hv]
      exact Or.inl ⟨hne, some v, rfl⟩

/-! One pass of the loop. -/

theorem clientLoop_of_not_mem (h : n.Ok) (hi : i < n.clientCount)
    (hmem : (n.client i).readFd ∉ n.readfds) :
    clientLoop f answers (fuel + 1) i n = clientLoop f answers fuel (i + 1) n := by
  rw [clientLoop, if_pos hi, h.fetch_readFds (hi.trans_le h.count_le)]
  exact if_neg hmem

/-- The loop over a client that is in the set. -/
theorem clientLoop_of_mem (h : n.Ok) (hi : i < n.clientCount) (hmem : (n.client i).readFd ∈ n.readfds) :
    clientLoop f answers (fuel + 1) i n =
      match handleMessage f (answers.received i) (answers.closes i) i n with
      | .error e => ([(n.client i).readFd], .error e)
      | .ok (r, m, _) =>
        if r = 0 then ([(n.client i).readFd], .ok (0, m))
        else ((n.client i).readFd :: (clientLoop f answers fuel (i + 1) m).1,
          (clientLoop f answers fuel (i + 1) m).2) := by
  rw [clientLoop, if_pos hi, h.fetch_readFds (hi.trans_le h.count_le)]
  exact if_pos hmem

theorem clientLoop_of_ok {v : Option ω} (h : n.Ok) (hi : i < n.clientCount)
    (hmem : (n.client i).readFd ∈ n.readfds)
    (hcall : handleMessage f (answers.received i) (answers.closes i) i n = .ok (1, n', v)) :
    (clientLoop f answers (fuel + 1) i n).1 =
      (n.client i).readFd :: (clientLoop f answers fuel (i + 1) n').1 := by
  rw [clientLoop_of_mem h hi hmem, hcall]
  rfl

theorem clientLoop_of_ends (h : n.Ok) (hi : i < n.clientCount)
    (hmem : (n.client i).readFd ∈ n.readfds)
    (hcall : (∃ e, handleMessage f (answers.received i) (answers.closes i) i n = .error e) ∨
      ∃ m v, handleMessage f (answers.received i) (answers.closes i) i n = .ok (0, m, v)) :
    (clientLoop f answers (fuel + 1) i n).1 = [(n.client i).readFd] := by
  rw [clientLoop_of_mem h hi hmem]
  rcases hcall with ⟨e, hcall⟩ | ⟨m, v, hcall⟩ <;> rw [hcall]
  rfl

/-- A client that is in the set is read. -/
theorem mem_clientLoop_calls (h : n.Reachable) (hi : i < n.clientCount)
    (hmem : (n.client i).readFd ∈ n.readfds) :
    (n.client i).readFd ∈ (clientLoop f answers (fuel + 1) i n).1 := by
  have hok := h.elim fun _ h => h.ok
  rcases handleMessage_cases f answers h hi with ⟨v, hcall⟩ | ⟨-, v, hcall⟩ | hcall
  · rw [clientLoop_of_ok hok hi hmem hcall]
    exact List.mem_cons_self
  · rw [clientLoop_of_ok hok hi hmem hcall]
    exact List.mem_cons_self
  · rw [clientLoop_of_ends hok hi hmem hcall]
    exact List.mem_cons_self

/-- **The clients that are in the set are reported as ready, so only such ones are read.** -/
theorem clientLoop_calls_subset (h : n.Reachable)
    (hsafe : ∀ j, i ≤ j → j < n.clientCount → (n.client j).readFd ∈ n.readfds →
      (n.client j).readFd ∈ reported) :
    ∀ fd ∈ (clientLoop f answers fuel i n).1, fd ∈ reported := by
  induction fuel generalizing i n with
  | zero => exact fun fd hfd => absurd hfd List.not_mem_nil
  | succ fuel ih =>
    by_cases hi : i < n.clientCount
    · have hok := h.elim fun _ h => h.ok
      by_cases hmem : (n.client i).readFd ∈ n.readfds
      · have hhead := hsafe i le_rfl hi hmem
        rcases handleMessage_cases f answers h hi with ⟨v, hcall⟩ | ⟨-, v, hcall⟩ | hcall
        · rw [clientLoop_of_ok hok hi hmem hcall, List.forall_mem_cons]
          exact ⟨hhead, ih h fun j hj => hsafe j (Nat.le_of_succ_le hj)⟩
        · rw [clientLoop_of_ok hok hi hmem hcall, List.forall_mem_cons]
          refine ⟨hhead, ih (h.handleMessage hi hcall) fun j hj hlt hin => ?_⟩
          rw [hok.client_leave hi, if_neg (by omega)] at hin ⊢
          exact hsafe j (by omega) (lt_of_lt_of_le hlt (Nat.sub_le _ _)) (Finset.mem_of_mem_erase hin)
        · rw [clientLoop_of_ends hok hi hmem hcall]
          exact List.forall_mem_singleton.mpr hhead
      · rw [clientLoop_of_not_mem hok hi hmem]
        exact ih h fun j hj => hsafe j (Nat.le_of_succ_le hj)
    · rw [clientLoop, if_neg hi]
      exact fun fd hfd => absurd hfd List.not_mem_nil

/-- Messages that are handled keep the loop within the arrays. -/
theorem clientLoop_returns (hhandled : answers.Handled f) (h : n.Reachable) :
    ∃ out, (clientLoop f answers fuel i n).2 = .ok out := by
  induction fuel generalizing i n with
  | zero => exact ⟨_, rfl⟩
  | succ fuel ih =>
    by_cases hi : i < n.clientCount
    · have hok := h.elim fun _ h => h.ok
      by_cases hmem : (n.client i).readFd ∈ n.readfds
      · rw [clientLoop_of_mem hok hi hmem]
        rcases visit_cases hhandled h hi with ⟨-, v, hcall⟩ | ⟨-, ⟨m, v, hcall⟩ | ⟨v, hcall⟩⟩
        · rw [hcall]
          exact ih h
        · rw [hcall]
          exact ⟨_, rfl⟩
        · rw [hcall]
          exact ih (h.handleMessage hi hcall)
      · rw [clientLoop_of_not_mem hok hi hmem]
        exact ih h
    · rw [clientLoop, if_neg hi]
      exact ⟨_, rfl⟩

/-- An index for which nothing holds may be left out. -/
theorem exists_succ_le_iff {p : ℕ → Prop} (hp : ¬ p i) :
    (∃ j, i + 1 ≤ j ∧ p j) ↔ ∃ j, i ≤ j ∧ p j := by
  constructor
  · rintro ⟨j, hj, h⟩
    exact ⟨j, Nat.le_of_succ_le hj, h⟩
  · rintro ⟨j, hj, h⟩
    rcases Nat.eq_or_lt_of_le hj with rfl | hj
    · exact absurd h hp
    · exact ⟨j, hj, h⟩

/-- **A connection that is accepted is read in its round** unless a client leaves before. -/
theorem clientLoop_calls_iff (hhandled : answers.Handled f) (h : n.Reachable)
    (hlast : (n.client (n.clientCount - 1)).readFd = fd)
    (hset : n.readfds = insert fd reported) (hfd : fd ∉ reported)
    (hfresh : ∀ j, i ≤ j → j < n.clientCount - 1 → (n.client j).readFd ≠ fd)
    (hi : i < n.clientCount) (hfuel : fuel = n.clientCount - i) :
    (∀ fd ∈ (clientLoop f answers fuel i n).1, fd ∈ reported) ↔
      ∃ j, i ≤ j ∧ j < n.clientCount - 1 ∧ (n.client j).readFd ∈ reported ∧
        (answers.received j).result = 0 := by
  induction fuel generalizing i with
  | zero => omega
  | succ fuel ih =>
    have hok := h.elim fun _ h => h.ok
    rcases Nat.eq_or_lt_of_le (Nat.le_sub_one_of_lt hi) with rfl | hlt
    · refine iff_of_false (fun hall => hfd ?_) (by rintro ⟨j, hj, hlt, -⟩; omega)
      have hmem : (n.client (n.clientCount - 1)).readFd ∈ n.readfds := by
        rw [hlast, hset]
        exact Finset.mem_insert_self _ _
      exact hlast ▸ hall _ (mem_clientLoop_calls h hi hmem)
    · have hne := hfresh i le_rfl hlt
      have hrest := ih (fun j hj => hfresh j (Nat.le_of_succ_le hj)) (by omega) (by omega)
      by_cases hready : (n.client i).readFd ∈ reported
      · have hmem : (n.client i).readFd ∈ n.readfds := by
          rw [hset]
          exact Finset.mem_insert_of_mem hready
        rcases visit_cases hhandled h hi with ⟨hstays, v, hcall⟩ | ⟨hzero, hcall | ⟨v, hcall⟩⟩
        · rw [clientLoop_of_ok hok hi hmem hcall, List.forall_mem_cons, and_iff_right hready, hrest]
          exact exists_succ_le_iff fun h => hstays h.2.2
        · refine iff_of_true ?_ ⟨i, le_rfl, hlt, hready, hzero⟩
          rw [clientLoop_of_ends hok hi hmem (Or.inr hcall)]
          exact List.forall_mem_singleton.mpr hready
        · -- the connection moves to a slot that the loop has passed
          refine iff_of_true ?_ ⟨i, le_rfl, hlt, hready, hzero⟩
          rw [clientLoop_of_ok hok hi hmem hcall, List.forall_mem_cons]
          refine ⟨hready, clientLoop_calls_subset (h.handleMessage hi hcall)
            fun j hj hlt' hin => ?_⟩
          rw [hok.client_leave hi, if_neg (by omega)] at hin ⊢
          have hin := Finset.mem_of_mem_erase hin
          rw [hset] at hin
          exact Finset.mem_of_mem_insert_of_ne hin (hfresh j (by omega) hlt')
      · have hmem : (n.client i).readFd ∉ n.readfds := by
          rw [hset]
          exact fun hin => hready (Finset.mem_of_mem_insert_of_ne hin hne)
        rw [clientLoop_of_not_mem hok hi hmem, hrest]
        exact exists_succ_le_iff fun h => hready h.2.1

/-- What the system promises of a descriptor that `accept` answers: it was not open, so it is none
that the server or a client reads from, apart from the 0 that stays in the first slot. -/
def Round.Fresh (n : Networking) (answers : Round) : Prop :=
  answers.accept.1 ≠ n.serverSocket ∧ ∀ i < n.clientCount,
    (n.client i).readFd = answers.accept.1 → i = 0 ∧ answers.accept.1 = 0

/-- A round that accepts a connection has room for it, and a ready client has closed its side. -/
def Round.Fair (n : Networking) (answers : Round) : Prop :=
  ∀ ready, answers.select = some ready → n.serverSocket ∈ n.requested ∩ ready →
    0 ≤ answers.accept.1 → n.clientCount < maxClients ∧ (n.client 0).readFd ≠ answers.accept.1 ∧
      ∃ i < n.clientCount, (n.client i).readFd ∈ n.requested ∩ ready ∧
        (answers.received i).result = 0

/-- A round stays within the arrays, and reads only clients that were reported as ready. -/
@[mk_iff]
structure Round.ReadsReady (f : Bytes → ℤ → ℕ → C ω) (n : Networking) (answers : Round) : Prop where
  returns : ∃ out, (round f answers n).outcome = .ok out
  ready : ∀ fd ∈ (round f answers n).calls, fd ∈ (round f answers n).reported

theorem Networking.mem_requested (h : n.Ok) :
    fd ∈ n.requested ↔ fd = n.serverSocket ∨ 0 < fd ∧ ∃ i < n.clientCount, (n.client i).readFd = fd := by
  have hmem : fd ∈ n.clientReadFds.take n.clientCount ↔
      ∃ i < n.clientCount, (n.client i).readFd = fd := by
    have hle : n.clientCount ≤ n.clientReadFds.length := h.count_le.trans_eq h.readFds.symm
    rw [List.mem_take_iff_getElem]
    constructor
    · rintro ⟨i, hi, heq⟩
      have hi := lt_min_iff.mp hi
      exact ⟨i, hi.1, by rw [client, List.getD_eq_getElem _ _ hi.2, heq]⟩
    · rintro ⟨i, hi, heq⟩
      refine ⟨i, lt_min hi (hi.trans_le hle), ?_⟩
      rw [← heq, client, List.getD_eq_getElem _ _ (hi.trans_le hle)]
  rw [requested, Finset.mem_insert, List.mem_toFinset, List.mem_filter, hmem, decide_eq_true_eq,
    and_comm (b := 0 < fd)]

theorem Round.Fresh.notMem_requested (h : answers.Fresh n) (hok : n.Ok) :
    answers.accept.1 ∉ n.requested := by
  rw [Networking.mem_requested hok]
  rintro (heq | ⟨hpos, i, hi, heq⟩)
  · exact h.1 heq
  · have hzero := (h.2 i hi heq).2
    omega

/-- The set of descriptors does not belong to the table. -/
theorem Networking.Reachable.select (h : n.Reachable) (readfds : Finset ℤ) :
    Reachable { n with readfds } := by
  obtain ⟨live, h⟩ := h
  exact ⟨live, h.select readfds⟩

/-- The loop over the clients after a connection is accepted. -/
theorem acceptedLoop_calls_iff {addresses : List SockaddrIn} (hhandled : answers.Handled f)
    (h : n.Reachable) (hroom : n.clientCount < maxClients) (hfd : fd ∉ n.readfds)
    (hjoin : (n.join ⟨clientTypeSocket, fd, fd⟩ addresses (insert fd n.readfds)).Reachable)
    (hfresh : ∀ i < n.clientCount, (n.client i).readFd = fd → i = 0 ∧ fd = 0) :
    (∀ a ∈ (clientLoop f answers (n.clientCount + 1) 0
        (n.join ⟨clientTypeSocket, fd, fd⟩ addresses (insert fd n.readfds))).1, a ∈ n.readfds) ↔
      (n.client 0).readFd ≠ fd ∧
        ∃ i < n.clientCount, (n.client i).readFd ∈ n.readfds ∧
          (answers.received i).result = 0 := by
  have hok := h.elim fun _ h => h.ok
  set m := n.join ⟨clientTypeSocket, fd, fd⟩ addresses (insert fd n.readfds) with hm
  have hclient : ∀ j, m.client j = if j = n.clientCount then ⟨clientTypeSocket, fd, fd⟩
      else n.client j := hok.client_join hroom
  have hcount : m.clientCount = n.clientCount + 1 := rfl
  by_cases hzero : 0 < n.clientCount ∧ (n.client 0).readFd = fd
  · -- what stays in the first slot has the descriptor of the connection
    refine iff_of_false (fun hall => hfd ?_) fun h => h.1 hzero.2
    have hread : (m.client 0).readFd = fd := by rw [hclient, if_neg hzero.1.ne, hzero.2]
    rw [← hread]
    exact hall _ (mem_clientLoop_calls hjoin (Nat.succ_pos _)
      (hread ▸ Finset.mem_insert_self _ _))
  · have hother : ∀ j < n.clientCount, (n.client j).readFd ≠ fd := by
      intro j hj heq
      obtain ⟨rfl, -⟩ := hfresh j hj heq
      exact hzero ⟨hj, heq⟩
    have hlast : (m.client (m.clientCount - 1)).readFd = fd := by
      rw [hclient, hcount, if_pos (Nat.add_sub_cancel _ _)]
    have hfirst : ∀ j, 0 ≤ j → j < m.clientCount - 1 → (m.client j).readFd ≠ fd := by
      intro j _ hj
      rw [hclient, if_neg (by omega)]
      exact hother j (by omega)
    rw [clientLoop_calls_iff hhandled hjoin hlast rfl hfd hfirst (Nat.succ_pos _) (by omega)]
    constructor
    · rintro ⟨j, -, hj, hready, hends⟩
      have hj : j < n.clientCount := hj
      rw [hclient, if_neg hj.ne] at hready
      exact ⟨hother 0 (Nat.zero_lt_of_lt hj), j, hj, hready, hends⟩
    · rintro ⟨-, j, hj, hready, hends⟩
      refine ⟨j, Nat.zero_le _, hj, ?_, hends⟩
      rwa [hclient, if_neg hj.ne]

/-- **Only ready clients are read in a round exactly when** it accepts no connection, or a client
leaves in it. -/
theorem round_readsReady_iff (hhandled : answers.Handled f) (h : n.Reachable)
    (hfresh : answers.Fresh n) : answers.ReadsReady f n ↔ answers.Fair n := by
  have hok := h.elim fun _ h => h.ok
  rw [Round.readsReady_iff]
  unfold round Round.Fair
  cases answers.select with
  | none => simp
  | some ready =>
    simp only [Option.some.injEq, forall_eq']
    set reported := n.requested ∩ ready with hreported
    have hnew : answers.accept.1 ∉ reported := fun hin =>
      hfresh.notMem_requested hok (Finset.mem_inter.mp hin).1
    have hn := h.select reported
    have hok' := hn.elim fun _ h => h.ok
    by_cases hserver : n.serverSocket ∈ reported
    · rw [if_pos hserver, acceptConnection_eq hok']
      by_cases hneg : answers.accept.1 < 0
      · simp [hneg, not_le.mpr hneg]
      · by_cases hroom : n.clientCount < maxClients
        · rw [if_neg hneg, if_pos hroom]
          have hjoin := hn.join answers.accept.2 (not_lt.mp hneg) hroom
          refine (and_iff_right (clientLoop_returns hhandled hjoin)).trans
            ((acceptedLoop_calls_iff hhandled hn hroom hnew hjoin hfresh.2).trans ?_)
          exact ⟨fun h _ _ => ⟨hroom, h⟩, fun h => (h hserver (not_lt.mp hneg)).2⟩
        · simp [hneg, hroom, hserver]
    · rw [if_neg hserver]
      exact iff_of_true ⟨clientLoop_returns hhandled hn,
        clientLoop_calls_subset hn fun j _ _ hin => hin⟩ fun h => absurd h hserver

/-! ## Runs of rounds -/

theorem clientLoop_reachable {r : ℤ} (h : n.Reachable)
    (hloop : (clientLoop f answers fuel i n).2 = .ok (r, n')) : n'.Reachable := by
  induction fuel generalizing i n with
  | zero =>
    obtain ⟨-, rfl⟩ := Prod.mk.inj (Except.ok.inj hloop)
    exact h
  | succ fuel ih =>
    by_cases hi : i < n.clientCount
    · have hok := h.elim fun _ h => h.ok
      rw [clientLoop, if_pos hi, hok.fetch_readFds (hi.trans_le hok.count_le)] at hloop
      simp only at hloop
      split at hloop
      · cases hcall : handleMessage f (answers.received i) (answers.closes i) i n with
        | error e =>
          rw [hcall] at hloop
          cases hloop
        | ok result =>
          obtain ⟨r', m, v⟩ := result
          have hm := h.handleMessage hi hcall
          simp only [hcall] at hloop
          split at hloop
          · obtain ⟨-, rfl⟩ := Prod.mk.inj (Except.ok.inj hloop)
            exact hm
          · exact ih hm hloop
      · exact ih h hloop
    · rw [clientLoop, if_neg hi] at hloop
      obtain ⟨-, rfl⟩ := Prod.mk.inj (Except.ok.inj hloop)
      exact h

/-- A round leaves a table that is reached by a run. -/
theorem round_reachable {r : ℤ} (h : n.Reachable)
    (hround : (round f answers n).outcome = .ok (r, n')) : n'.Reachable := by
  unfold round at hround
  cases hselect : answers.select with
  | none =>
    simp only [hselect] at hround
    obtain ⟨-, rfl⟩ := Prod.mk.inj (Except.ok.inj hround)
    exact h.select _
  | some ready =>
    simp only [hselect] at hround
    have hn := h.select (n.requested ∩ ready)
    split at hround
    · cases hround
    next r' m haccepted =>
      have hm : m.Reachable := by
        split at haccepted
        · exact hn.acceptConnection haccepted
        · obtain ⟨-, rfl⟩ := Prod.mk.inj (Except.ok.inj haccepted)
          exact hn
      split at hround
      · obtain ⟨-, rfl⟩ := Prod.mk.inj (Except.ok.inj hround)
        exact hm
      · exact clientLoop_reachable hm hround

theorem rounds_reachable {l : List Round} (h : n.Reachable) :
    ∀ p ∈ rounds f l n, p.1.Reachable := by
  induction l generalizing n with
  | nil => exact fun p hp => absurd hp List.not_mem_nil
  | cons answers l ih =>
    rw [rounds, List.forall_mem_cons]
    refine ⟨h, ?_⟩
    split
    next m hround => exact ih (round_reachable h hround)
    next => exact fun p hp => absurd hp List.not_mem_nil

/-- **Only ready clients are read exactly when** no round accepts a connection, unless a client
leaves in it. -/
theorem dbmsStart_calls_iff (h : n.Reachable) (l : List Round)
    (hfresh : ∀ p ∈ dbmsStart f l n, p.2.Fresh p.1)
    (hhandled : ∀ p ∈ dbmsStart f l n, p.2.Handled f) :
    (∀ p ∈ dbmsStart f l n, p.2.ReadsReady f p.1) ↔ ∀ p ∈ dbmsStart f l n, p.2.Fair p.1 := by
  refine forall_congr' fun p => forall_congr' fun hp =>
    round_readsReady_iff (hhandled p hp) ?_ (hfresh p hp)
  unfold dbmsStart at hp
  split at hp
  · exact absurd hp List.not_mem_nil
  · exact rounds_reachable h p hp

/-- A round that accepts a connection whose peer stays silent: nothing is received. -/
def silentConnection : Round where
  select := some {3}
  accept := (4, ⟨0, 0⟩)
  received := fun _ => ⟨-1, List.replicate maxMessageSize 0, by decide, List.length_replicate⟩
  closes := fun _ => ⟨0, 0⟩

theorem reachable_startedServer : startedServer.Reachable :=
  ⟨0, @Reached.setUp _ ⟨3, 0, 0, 0, 0⟩ _ rfl⟩

/-- A pipe in the first slot, and two connections. -/
def threeClients : Networking :=
  { startedServer with
    clientTypes := [1, 0, 0, 0, 0, 0, 0, 0]
    clientReadFds := [5, 6, 7, 0, 0, 0, 0, 0]
    clientWriteFds := [5, 6, 7, 0, 0, 0, 0, 0]
    clientCount := 3
    readfds := {7, 6, 3} }

theorem reachable_threeClients : threeClients.Reachable := by
  have hrun : [Event.addPipe 5 5, .accept 6 ⟨0, 0⟩, .accept 7 ⟨0, 0⟩].foldlM Event.step startedServer =
      .ok threeClients := rfl
  exact foldlM_invariant (fun _ _ _ _ h hstep => Event.step_reachable h hstep)
    reachable_startedServer hrun

/-- Nothing is received: the peer of a slot has left, and the other peers are silent. -/
def leavingMessage (slot i : ℕ) : Received :=
  if i = slot then { silentConnection.received i with result := 0, result_le := Int.natCast_nonneg _ }
  else silentConnection.received i

/-- A round in which both connections are ready, and the client of a slot leaves. -/
def leavingRound (slot : ℕ) : Round where
  select := some {6, 7}
  accept := (8, ⟨0, 0⟩)
  received := leavingMessage slot
  closes := fun _ => ⟨0, 0⟩

/-- A round that accepts a connection, while the first connection leaves. -/
def joiningRound : Round := { leavingRound 1 with select := some {3, 6} }

theorem dbmsStart_silentConnection :
    dbmsStart (fun _ _ _ => .ok ()) [silentConnection] startedServer =
      [(startedServer, silentConnection)] := by
  rw [dbmsStart, if_neg (by decide), rounds]
  split <;> rfl

theorem fresh_silentConnection : silentConnection.Fresh startedServer :=
  ⟨by decide, fun _ hi => absurd hi (Nat.not_lt_zero _)⟩

theorem handled_leavingMessage {answers : Round} (slot : ℕ)
    (h : answers.received = leavingMessage slot) : answers.Handled (fun _ _ _ => .ok ()) := by
  intro i
  refine ⟨?_, fun _ => ⟨(), rfl⟩⟩
  rw [h, leavingMessage]
  split <;> simp [silentConnection, maxMessageSize]

/-- A round in which the accepted connection is ready. -/
def joinedRound : Round := { leavingRound 8 with select := some {8}, accept := (9, ⟨0, 0⟩) }

/-- The accepted connection is in the slot of the one that left. -/
def clientsAfterJoining : Networking :=
  { threeClients with
    clientReadFds := [5, 8, 7, 8, 0, 0, 0, 0]
    clientWriteFds := [5, 8, 7, 8, 0, 0, 0, 0]
    readfds := (insert 8 (threeClients.requested ∩ {3, 6})).erase 6 }

theorem dbmsStart_joiningRound :
    dbmsStart (fun _ _ _ => .ok ()) [joiningRound, joinedRound] threeClients =
      [(threeClients, joiningRound), (clientsAfterJoining, joinedRound)] := by
  have hround : (round (fun _ _ _ => .ok ()) joiningRound threeClients).outcome =
      .ok (1, clientsAfterJoining) := by decide
  rw [dbmsStart, if_neg (by decide), rounds, hround]
  simp only [rounds]
  split <;> rfl

theorem dbmsStart_calls_iff_single :
    (∀ p ∈ dbmsStart (fun _ _ _ => .ok ()) [joiningRound, joinedRound] threeClients,
      p.2.ReadsReady (fun _ _ _ => .ok ()) p.1) ↔
      ∀ p ∈ dbmsStart (fun _ _ _ => .ok ()) [joiningRound, joinedRound] threeClients,
        p.2.Fair p.1 := by
  refine dbmsStart_calls_iff reachable_threeClients _ ?_ ?_ <;> rw [dbmsStart_joiningRound] <;>
    simp only [List.forall_mem_cons, List.not_mem_nil, IsEmpty.forall_iff, implies_true, and_true]
  · exact ⟨⟨by decide, by decide⟩, by decide, by decide⟩
  · exact ⟨handled_leavingMessage 1 rfl, handled_leavingMessage 8 rfl⟩

/-- A silent connection is read in the round that accepts it, although only the server is reported
as ready. -/
theorem round_silentConnection : startedServer.Reachable ∧ silentConnection.Fresh startedServer ∧
    dbmsStart (fun _ _ _ => .ok ()) [silentConnection] startedServer =
      [(startedServer, silentConnection)] ∧
    (round (fun _ _ _ => .ok ()) silentConnection startedServer).calls = [4] ∧
    (round (fun _ _ _ => .ok ()) silentConnection startedServer).reported = {3} := by
  refine ⟨reachable_startedServer, fresh_silentConnection, dbmsStart_silentConnection, ?_, ?_⟩
  · decide
  · decide

end Ready

end SetQL
