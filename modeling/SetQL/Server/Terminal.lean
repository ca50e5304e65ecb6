import SetQL.Server.Dialogue
import Mathlib.Logic.Function.Basic

/-!
# The terminal

`main` makes one pipe and adds both of its ends as a client of the server, while the parent process
writes the lines of the terminal to the same pipe. So the answer to a line is written to the pipe
that the server reads its lines from.

## Main definitions

* `Writer`: who wrote a byte
* `Program`: the server with the bytes of the pipe and of the connections that are not read yet
* `sendDescriptor`: where `dbms_networking_send` writes to
* `Program.Step`: the terminal, the peers and the server, in any order
* `Program.Unanswered`: a line of the terminal is not answered

## Main results

* `Program.Inv.step`: the pipe holds bytes of the terminal only
* `taken_of_client`: the server reads bytes of its clients only, as long as no line is answered
-/

namespace SetQL

/-- Who wrote a byte: a client, which is the parent process or a peer, or the server. -/
inductive Writer
  | client
  | server
  deriving DecidableEq, Repr

/-- The program: the server, the bytes in the pipe, and the bytes that the peers of the connections
have sent. -/
structure Program where
  net : Networking
  pipe : List (Writer × UInt8)
  inbox : ℤ → List (Writer × UInt8)

/-- What happens in the program. -/
inductive Move
  /-- The parent process writes a line. -/
  | line (str : Bytes)
  /-- The peer of a connection sends bytes. -/
  | peer (fd : ℤ) (bs : Bytes)
  /-- `dbms_start` asks for the descriptors that can be read. -/
  | select (readfds : Finset ℤ)
  /-- A connection is accepted. -/
  | connect (newClient : ℤ) (address : SockaddrIn)
  /-- A message is handled, for which bytes are taken from where the client is read from. -/
  | message (id : ℕ) (un : Uninitialized) (received : Received) (taken : List (Writer × UInt8))

/-- The bytes that are read in a move. -/
def Move.taken : Move → List (Writer × UInt8)
  | message _ _ _ taken => taken
  | _ => []

/-- The descriptor that `dbms_networking_send` writes to. -/
def sendDescriptor (n : Networking) (id : ℕ) : C (Option ℤ) :=
  if n.dbmsStarted = false then .ok none
  else if id ≥ n.clientCount then .ok none
  else do
    let type ← fetch n.clientTypes id
    if type ≠ clientTypeSocket ∧ type ≠ clientTypePipe then return none
    else do
      let writeFd ← fetch n.clientWriteFds id
      return some writeFd

namespace Program

variable (fd₀ fd₁ : ℤ)

/-- What can be read from a descriptor: `fd[0]` is the end of the pipe to read from. -/
def channel (p : Program) (fd : ℤ) : List (Writer × UInt8) := if fd = fd₀ then p.pipe else p.inbox fd

/-- The program after the bytes of a descriptor are read up to a rest. -/
def consume (p : Program) (fd : ℤ) (rest : List (Writer × UInt8)) : Program :=
  if fd = fd₀ then { p with pipe := rest } else { p with inbox := Function.update p.inbox fd rest }

/-- The program after bytes are written to a descriptor: `fd[1]` is the end of the pipe to write to,
and what is written to a connection goes to its peer. -/
def write (p : Program) (writer : Writer) (fd : ℤ) (bs : Bytes) : Program :=
  if fd = fd₁ then { p with pipe := p.pipe ++ bs.map (Prod.mk writer) } else p

/-- The program after the server has sent what the message function returned. -/
def send (p : Program) (id : ℕ) : Option (ℤ × Bytes) → C Program
  | none => .ok p
  | some (_, reply) => do
    match ← sendDescriptor p.net id with
    | some fd => return p.write fd₁ .server fd reply
    | none => return p

/-- `main` sets up the server, and adds the two ends of the pipe as its first client. -/
def Starts (p : Program) : Prop :=
  ∃ answers n, dbmsNetworkingInitialize answers .initial = (1, n) ∧
    dbmsNetworkingAddPipeClient fd₀ fd₁ n = .ok (1, p.net) ∧ p.pipe = [] ∧ p.inbox = fun _ => []

/-- A move of the terminal, of a peer or of the server. The system promises that a new descriptor is
no end of the pipe, which are open, and that the pipe does not end, since the server keeps its end
to write to. -/
inductive Step (db : Database) : Program → Move → Program → Prop
  | line {p : Program} {str : Bytes} :
      Step db p (.line str) (p.write fd₁ .client fd₁ (ClientKind.terminal.written str))
  | peer {p : Program} {fd : ℤ} {bs : Bytes} :
      Step db p (.peer fd bs) { p with
        inbox := Function.update p.inbox fd (p.inbox fd ++ bs.map (Prod.mk .client)) }
  | select {p : Program} {readfds : Finset ℤ} :
      Step db p (.select readfds) { p with net := { p.net with readfds } }
  | connect {p : Program} {newClient r : ℤ} {address : SockaddrIn} {net : Networking}
      (hnew : newClient ≠ fd₀ ∧ newClient ≠ fd₁)
      (hcall : acceptConnection newClient address p.net = .ok (r, net)) :
      Step db p (.connect newClient address)
        { p with net, inbox := Function.update p.inbox newClient [] }
  | message {p p' : Program} {id : ℕ} {un : Uninitialized} {received : Received}
      {taken rest : List (Writer × UInt8)} {closes : Closes} {r : ℤ} {net : Networking}
      {v : Option (ℤ × Bytes)} (hid : id < p.net.clientCount)
      (hopen : received.result = 0 → (p.net.client id).readFd ≠ fd₀)
      (htaken : p.channel fd₀ (p.net.client id).readFd = taken ++ rest)
      (hbytes : taken.map Prod.snd = received.bytes)
      (hcall : handleMessage (messageCallback un db) received closes id p.net = .ok (r, net, v))
      (hsend : send fd₁ { p.consume fd₀ (p.net.client id).readFd rest with net } id v = .ok p') :
      Step db p (.message id un received taken) p'

/-- A line of the terminal is not answered. -/
def Unanswered (db : Database) (p : Program) : Move → Prop
  | .message id un received _ => (p.net.client id).readFd = fd₀ →
      ∀ reply, messageCallbackFunc un db (cstr received.bytes) ≠ .ok (1, reply)
  | _ => True

/-- The terminal is the first client, the others are connections, and whatever can be read was
written by a client. -/
structure Inv (p : Program) : Prop where
  reachable : p.net.Reachable
  count_pos : 0 < p.net.clientCount
  terminal : p.net.client 0 = ⟨clientTypePipe, fd₀, fd₁⟩
  sockets : ∀ i, 0 < i → i < p.net.clientCount →
    (p.net.client i).readFd ≠ fd₀ ∧ (p.net.client i).writeFd ≠ fd₁
  pipe : ∀ b ∈ p.pipe, b.1 = .client
  inbox : ∀ fd, ∀ b ∈ p.inbox fd, b.1 = .client

end Program

section Terminal

variable {fd₀ fd₁ fd : ℤ} {un : Uninitialized} {db : Database} {p p' : Program} {m : Move}
  {n net : Networking} {id : ℕ} {taken rest : List (Writer × UInt8)} {v : Option (ℤ × Bytes)}
  {received : Received} {closes : Closes} {r : ℤ} {bs : Bytes}

/-- A reply goes to the descriptor of the client. -/
theorem sendDescriptor_eq (h : n.Reachable) (hid : id < n.clientCount) :
    sendDescriptor n id = .ok (some (n.client id).writeFd) := by
  obtain ⟨live, h⟩ := h
  have hlt : id < maxClients := hid.trans_le h.ok.count_le
  have hknown : ¬ ((n.client id).type ≠ clientTypeSocket ∧ (n.client id).type ≠ clientTypePipe) := by
    rcases h.type_eq hid with htype | htype <;> simp [htype]
  rw [sendDescriptor, h.dbmsStarted, if_neg (by decide), if_neg (Nat.not_le.mpr hid),
    h.ok.fetch_types hlt, ok_bind, if_neg hknown, h.ok.fetch_writeFds hlt]
  rfl

theorem forall_tagged {writer : Writer} : ∀ b ∈ bs.map (Prod.mk writer), b.1 = writer := by
  intro b hb
  obtain ⟨_, -, rfl⟩ := List.mem_map.mp hb
  rfl

namespace Program

theorem Inv.mem_channel (h : p.Inv fd₀ fd₁) : ∀ b ∈ p.channel fd₀ fd, b.1 = .client := by
  unfold channel
  split
  · exact h.pipe
  · exact h.inbox fd

/-- What is left to read was written by a client. -/
theorem Inv.consume (h : p.Inv fd₀ fd₁) (htaken : p.channel fd₀ fd = taken ++ rest) :
    (p.consume fd₀ fd rest).Inv fd₀ fd₁ := by
  have hrest : ∀ b ∈ rest, b.1 = .client := fun b hb =>
    h.mem_channel b (htaken ▸ List.mem_append_right _ hb)
  unfold Program.consume
  split
  · exact { h with pipe := hrest }
  · refine { h with inbox := fun fd' => ?_ }
    by_cases heq : fd' = fd
    · subst heq
      simpa using hrest
    · simpa [heq] using h.inbox fd'

/-- A connection that leaves is replaced by a connection. -/
theorem Inv.kill (h : p.Inv fd₀ fd₁) (hpos : 0 < id) (hid : id < p.net.clientCount)
    (hcall : killClient closes id p.net = .ok (r, net)) :
    Inv fd₀ fd₁ { p with net } := by
  have hreachable := h.reachable.killClient hid hcall
  have hok := h.reachable.elim fun _ h => h.ok
  rw [killClient_eq hok hid] at hcall
  split at hcall
  · obtain ⟨-, rfl⟩ := Prod.mk.inj (Except.ok.inj hcall)
    have hcount : ∀ c as rs, (p.net.leave id c as rs).clientCount = p.net.clientCount - 1 :=
      fun _ _ _ => rfl
    refine { h with
      reachable := hreachable
      count_pos := by simp only [hcount]; omega
      terminal := ?_
      sockets := fun i hi hlt => ?_ }
    · rw [hok.client_leave hid, if_neg hpos.ne]
      exact h.terminal
    · simp only [hcount] at hlt
      rw [hok.client_leave hid]
      split
      · rw [Networking.replacement, if_neg hpos.ne']
        exact h.sockets _ (by omega) (by omega)
      · exact h.sockets i hi (by omega)
  · obtain ⟨-, rfl⟩ := Prod.mk.inj (Except.ok.inj hcall)
    exact h

/-- A connection that is accepted is no end of the pipe. -/
theorem Inv.connect {newClient : ℤ} {address : SockaddrIn} (h : p.Inv fd₀ fd₁)
    (hnew : newClient ≠ fd₀ ∧ newClient ≠ fd₁)
    (hcall : acceptConnection newClient address p.net = .ok (r, net)) :
    Inv fd₀ fd₁ { p with net, inbox := Function.update p.inbox newClient [] } := by
  have hinbox : ∀ fd, ∀ b ∈ Function.update p.inbox newClient [] fd, b.1 = Writer.client := by
    intro fd
    by_cases heq : fd = newClient
    · simp [heq]
    · simpa [heq] using h.inbox fd
  have hreachable := h.reachable.acceptConnection hcall
  have hok := h.reachable.elim fun _ h => h.ok
  rw [acceptConnection_eq hok] at hcall
  split at hcall
  · obtain ⟨-, rfl⟩ := Prod.mk.inj (Except.ok.inj hcall)
    exact { h with inbox := hinbox }
  · split at hcall
    next hlt =>
      obtain ⟨-, rfl⟩ := Prod.mk.inj (Except.ok.inj hcall)
      refine { h with
        reachable := hreachable
        count_pos := Nat.succ_pos _
        terminal := ?_
        sockets := fun i hi hlt' => ?_
        inbox := hinbox }
      · rw [hok.client_join hlt, if_neg h.count_pos.ne]
        exact h.terminal
      · rw [hok.client_join hlt]
        split
        · exact hnew
        · have hlt' : i < p.net.clientCount + 1 := hlt'
          exact h.sockets i hi (by omega)
    next => cases hcall

/-- A reply goes to a connection, unless it is one to the terminal. -/
theorem Inv.send (h : p.Inv fd₀ fd₁) (hid : id < p.net.clientCount)
    (hreply : ∀ ret reply, v = some (ret, reply) → id = 0 → reply = [])
    (hsend : send fd₁ p id v = .ok p') : p'.Inv fd₀ fd₁ := by
  cases v with
  | none =>
    obtain rfl := Except.ok.inj hsend
    exact h
  | some result =>
    obtain ⟨ret, reply⟩ := result
    rw [Program.send, sendDescriptor_eq h.reachable hid, ok_bind] at hsend
    obtain rfl := Except.ok.inj hsend
    unfold write
    split
    next heq =>
      -- only the terminal has the pipe to write to
      have hzero : id = 0 := by
        by_contra hne
        exact (h.sockets id (Nat.pos_of_ne_zero hne) hid).2 heq
      obtain rfl := hreply ret reply rfl hzero
      simpa using h
    next => exact h

theorem inv_starts (h : p.Starts fd₀ fd₁) : p.Inv fd₀ fd₁ := by
  obtain ⟨answers, n, hsetUp, hadd, hpipe, hinbox⟩ := h
  have hn : n.Reachable := ⟨0, .setUp hsetUp⟩
  have hok := hn.elim fun _ h => h.ok
  obtain ⟨⟨-, hroom⟩, hnet⟩ := (dbmsNetworkingAddPipeClient_eq_one hok).mp hadd
  have hzero : n.clientCount = 0 := by
    obtain ⟨-, rfl⟩ := dbmsNetworkingInitialize_eq_one hsetUp
    rfl
  have hcount : p.net.clientCount = 1 := by
    rw [hnet]
    exact congrArg (· + 1) hzero
  refine ⟨hn.addPipeClient hadd, by omega, ?_, fun i hi hlt => by omega, ?_, ?_⟩
  · rw [hnet, hok.client_join (Nat.lt_of_succ_lt hroom), if_pos hzero.symm]
  · simp [hpipe]
  · simp [hinbox]

/-- **The pipe holds bytes of the terminal only**, as long as no line is answered. -/
theorem Inv.step (h : p.Inv fd₀ fd₁) (hquiet : p.Unanswered fd₀ db m)
    (hstep : Step fd₀ fd₁ db p m p') : p'.Inv fd₀ fd₁ := by
  cases hstep with
  | line =>
    rw [write, if_pos rfl]
    exact { h with pipe := List.forall_mem_append.mpr ⟨h.pipe, forall_tagged⟩ }
  | @peer fd bs =>
    refine { h with inbox := fun fd' => ?_ }
    by_cases heq : fd' = fd
    · subst heq
      simp only [Function.update_self]
      exact List.forall_mem_append.mpr ⟨h.inbox fd', forall_tagged⟩
    · simpa [heq] using h.inbox fd'
  | select => exact { h with reachable := h.reachable.select _ }
  | connect hnew hcall => exact h.connect hnew hcall
  | @message _ id un received taken rest closes r net v hid hopen htaken hbytes hcall hsend =>
    have hconsumed := h.consume htaken
    have hnet : (p.consume fd₀ (p.net.client id).readFd rest).net = p.net := by
      unfold Program.consume
      split <;> rfl
    have hsame : ({ p.consume fd₀ (p.net.client id).readFd rest with net := p.net } : Program) =
        p.consume fd₀ (p.net.client id).readFd rest := by
      unfold Program.consume
      split <;> rfl
    have hid' : id < (p.consume fd₀ (p.net.client id).readFd rest).net.clientCount := by
      rw [hnet]
      exact hid
    have hcases := hcall
    rw [handleMessage_eq h.reachable hid] at hcases
    split at hcases
    · simp only [Except.ok.injEq, Prod.mk.injEq] at hcases
      obtain ⟨-, rfl, rfl⟩ := hcases
      rw [hsame] at hsend
      exact hconsumed.send hid' (fun ret reply heq => by cases heq) hsend
    · split at hcases
      next hend =>
        obtain ⟨⟨killed, m⟩, hkill, heq⟩ := map_eq_ok.mp hcases
        simp only [Prod.mk.injEq] at heq
        obtain ⟨-, rfl, rfl⟩ := heq
        obtain rfl := Except.ok.inj hsend
        have hpos : 0 < id := Nat.pos_of_ne_zero fun hzero => hopen hend (by
          rw [hzero, h.terminal])
        exact hconsumed.kill hpos hid' (hnet ▸ hkill)
      next hend =>
        have hpos : 0 < received.result := by omega
        split at hcases
        next =>
          obtain ⟨⟨ret, reply⟩, -, heq⟩ := map_eq_ok.mp hcases
          simp only [Prod.mk.injEq] at heq
          obtain ⟨rfl, rfl, rfl⟩ := heq
          have hcallback := messageCallbackFunc_of_handleMessage h.reachable hid hpos hcall
          rw [hsame] at hsend
          refine hconsumed.send hid' (fun ret' reply' heq hzero => ?_) hsend
          obtain ⟨rfl, rfl⟩ := Prod.mk.inj (Option.some.inj heq)
          refine (messageCallbackFunc_cases hcallback).resolve_left fun hone => ?_
          exact hquiet (by rw [hzero, h.terminal]) reply (hone ▸ hcallback)
        next => cases hcases

end Program

/-- **The server reads bytes of its clients only**, as long as no line of the terminal is
answered. -/
theorem taken_of_client
    (h : Run (Program.Starts fd₀ fd₁) (Program.Step fd₀ fd₁ db) (Program.Unanswered fd₀ db) p)
    (hstep : Program.Step fd₀ fd₁ db p m p') : ∀ b ∈ m.taken, b.1 = .client := by
  have hinv : p.Inv fd₀ fd₁ := h.invariant (fun _ hs => Program.inv_starts hs)
    fun _ _ _ hinv hquiet hstep => hinv.step hquiet hstep
  cases hstep with
  | message hid hopen htaken hbytes hcall hsend =>
    exact fun b hb => hinv.mem_channel b (htaken ▸ List.mem_append_left _ hb)
  | line => exact fun b hb => absurd hb List.not_mem_nil
  | peer => exact fun b hb => absurd hb List.not_mem_nil
  | select => exact fun b hb => absurd hb List.not_mem_nil
  | connect => exact fun b hb => absurd hb List.not_mem_nil

/-! ## A line that is answered -/

/-- The server as `main` sets it up, with the pipe of the descriptors 5 and 6. -/
def terminalServer : Networking :=
  { startedServer with
    clientTypes := [1, 0, 0, 0, 0, 0, 0, 0], clientReadFds := [5, 0, 0, 0, 0, 0, 0, 0]
    clientWriteFds := [6, 0, 0, 0, 0, 0, 0, 0], clientCount := 1 }

theorem starts_terminalServer : Program.Starts 5 6 ⟨terminalServer, [], fun _ => []⟩ :=
  ⟨⟨3, 0, 0, 0, 0⟩, startedServer, rfl, rfl, rfl, rfl⟩

theorem reachable_terminalServer : terminalServer.Reachable :=
  (Program.inv_starts starts_terminalServer).reachable

/-- The server handles what it reads of the pipe. -/
theorem Program.step_terminal (db : Database) (un : Uninitialized)
    {tagged : List (Writer × UInt8)} (rest : List (Writer × UInt8)) {reply : Bytes} {ret : ℤ}
    (hne : tagged ≠ []) (hlt : (tagged.map Prod.snd).length < maxMessageSize)
    (hcallback : messageCallbackFunc un db (cstr (tagged.map Prod.snd)) = .ok (ret, reply)) :
    Step 5 6 db ⟨terminalServer, tagged ++ rest, fun _ => []⟩
      (.message 0 un (receive (tagged.map Prod.snd) hlt.le) tagged)
      ⟨terminalServer, rest ++ reply.map (Prod.mk .server), fun _ => []⟩ := by
  have hpos : 0 < (receive (tagged.map Prod.snd) hlt.le).result := by
    rw [result_receive, List.length_map]
    exact_mod_cast List.length_pos_iff.mpr hne
  refine @Step.message 5 6 db ⟨terminalServer, tagged ++ rest, fun _ => []⟩ _ 0 un _ tagged rest
    ⟨0, 0⟩ 1 terminalServer (some (ret, reply)) (show 0 < terminalServer.clientCount by decide)
    (fun h => absurd h hpos.ne') rfl
    (bytes_receive _).symm
    (handleMessage_receive reachable_terminalServer (by decide) (by simpa using hne) hlt hcallback)
    ?_
  rw [send, sendDescriptor_eq reachable_terminalServer (by decide)]
  rfl

/-- A line is written to the pipe. -/
theorem Program.run_line (db : Database) (meets : Program → Move → Prop) (str : Bytes)
    (hmeets : ∀ p str, meets p (.line str)) :
    Run (Starts 5 6) (Step 5 6 db) meets
      ⟨terminalServer, (str ++ [0]).map (Prod.mk .client), fun _ => []⟩ :=
  (Run.start starts_terminalServer).step (hmeets _ str) .line

theorem taken_of_client_single : ∃ db p m p',
    Run (Program.Starts 5 6) (Program.Step 5 6 db) (Program.Unanswered 5 db) p ∧
      Program.Step 5 6 db p m p' ∧ m.taken ≠ [] ∧ ∀ b ∈ m.taken, b.1 = .client := by
  obtain ⟨db, un, -⟩ := exists_answer
  have hrun := Program.run_line db (Program.Unanswered 5 db) (lit "x") fun _ _ => trivial
  have hcallback : messageCallbackFunc un db
      (cstr (((lit "x" ++ [0]).map (Prod.mk Writer.client)).map Prod.snd)) = .ok (-1, []) :=
    messageCallbackFunc_of_rejected (by decide)
  have hstep := Program.step_terminal db un [] (by decide) (by decide) hcallback
  rw [List.append_nil] at hstep
  exact ⟨db, _, _, _, hrun, hstep, List.cons_ne_nil _ _, taken_of_client hrun hstep⟩

/-- The answer to a line is read as the next line. -/
theorem taken_of_server : ∃ db p m p', Loaded db ∧
    Run (Program.Starts 5 6) (Program.Step 5 6 db) (fun _ _ => True) p ∧
      Program.Step 5 6 db p m p' ∧ ∃ b ∈ m.taken, b.1 = .server := by
  obtain ⟨db, un, reply, values, hdb, hcallback, hreply, -⟩ := exists_answer
  cases reply with
  | nil => cases hreply
  | cons b reply =>
    obtain rfl := Option.some.inj hreply
    have hline : cstr (((lit "SELECT id FROM S;" ++ [0]).map (Prod.mk Writer.client)).map Prod.snd) =
        lit "SELECT id FROM S;" := by decide
    have hanswered := Program.step_terminal db un [] (by decide) (by decide)
      (hline ▸ hcallback)
    rw [List.append_nil, List.nil_append, List.map_cons] at hanswered
    have hrun := (Program.run_line db (fun _ _ => True) (lit "SELECT id FROM S;")
      fun _ _ => trivial).step trivial hanswered
    have hnext : messageCallbackFunc un db (cstr ([(Writer.server, 1)].map Prod.snd)) =
        .ok (-1, []) := messageCallbackFunc_of_rejected (by decide)
    have hstep := Program.step_terminal db un (reply.map (Prod.mk Writer.server))
      (List.cons_ne_nil _ _) (by decide) hnext
    exact ⟨db, _, _, _, hdb, hrun, hstep, _, List.mem_singleton_self _, rfl⟩

end Terminal

end SetQL
