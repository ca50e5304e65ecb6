import SetQL.Base.Terminated
import SetQL.Server.EventLoop
import SetQL.Server.Queries

/-!
# The delivery of queries

A client writes its queries to a stream, and `handle_message` reads the stream in pieces. Each piece
is handed to `parse_query` as one string. Nothing marks the end of a query on a connection, and the
zero bytes of the terminal are not looked for.

## Main definitions

* `ClientKind.written`: what a client writes for a query
* `ValidQuery`: the queries that are accepted and short enough
* `passedOn`: the strings that are handed to `parse_query`

## Main results

* `passedOn_eq`: what is handed over of each piece
* `passedOn_eq_iff`: when it is exactly the queries
-/

namespace SetQL

/-- The two kinds of clients: a peer on a connection, and the parent process at the terminal. -/
inductive ClientKind
  | socket
  | terminal
  deriving DecidableEq, Repr

/-- What a client writes for a query: `send_query` the text, and the loop in `main` the text with
its zero byte. -/
def ClientKind.written : ClientKind → Bytes → Bytes
  | socket, query => query
  | terminal, str => str ++ [0]

/-- A query that `parse_query` accepts, of at most 127 bytes. -/
structure ValidQuery (s : Bytes) : Prop where
  nulFree : NulFree s
  length_lt : s.length < maxMessageSize
  accepted : ∃ q, parseQuery s = .ok (.ok q)

/-- What `message_callback_func` hands to `parse_query`. -/
def queryString (msg : Bytes) (_size : ℤ) (_id : ℕ) : C Bytes := .ok (cstr msg)

/-- A piece is read, and what is handed over for it is recorded. -/
def deliver (closes : Closes) (id : ℕ) (state : Networking × List Bytes) (received : Received) :
    C (Networking × List Bytes) := do
  let (_, n, passed) ← handleMessage queryString received closes id state.1
  return (n, state.2 ++ passed.toList)

/-- The strings that are handed over for the pieces of the stream of a client. -/
def passedOn (closes : Closes) (id : ℕ) (n : Networking) (reads : List Received) :
    C (List Bytes) :=
  Prod.snd <$> reads.foldlM (deliver closes id) (n, [])

section Delivery

variable {closes : Closes} {id : ℕ} {n : Networking} {reads : List Received} {received : Received}
  {passed queries : List Bytes} {kind : ClientKind}

/-- The string in the buffer ends before the first zero byte that is received. -/
theorem Received.cstr_buffer (h : received.result < maxMessageSize) :
    cstr (received.buffer.set received.result.toNat 0) = cstr received.bytes := by
  have hlt : received.result.toNat < received.buffer.length := by
    rw [received.length_buffer]
    simp only [maxMessageSize] at h ⊢
    omega
  rw [List.set_eq_take_append_cons_drop, if_pos hlt]
  exact upTo_append_terminator

/-- **What is handed over of each piece** is what stands before its first zero byte, as long as no
piece fills the buffer. -/
theorem passedOn_eq (h : n.Reachable) (hid : id < n.clientCount)
    (hpos : ∀ r ∈ reads, 0 < r.result) :
    passedOn closes id n reads =
      if ∀ r ∈ reads, r.result < maxMessageSize then .ok (reads.map fun r => cstr r.bytes)
      else .error .outOfBounds := by
  have hfold : ∀ passed, reads.foldlM (deliver closes id) (n, passed) =
      if ∀ r ∈ reads, r.result < maxMessageSize then
        .ok (n, passed ++ reads.map fun r => cstr r.bytes)
      else .error .outOfBounds := by
    induction reads with
    | nil => simp
    | cons r reads ih =>
      intro passed
      obtain ⟨hr, hpos⟩ := List.forall_mem_cons.mp hpos
      rw [List.foldlM_cons, deliver, handleMessage_eq h hid, if_neg (by omega), if_neg (by omega)]
      by_cases hfits : r.result < maxMessageSize
      · rw [if_pos hfits, queryString, r.cstr_buffer hfits]
        simp only [map_ok, ok_bind, Option.toList_some, pure_eq_ok, ih hpos, List.forall_mem_cons,
          hfits, true_and, List.map_cons, List.append_assoc, List.singleton_append]
      · rw [if_neg hfits, error_bind, error_bind, if_neg fun hall => hfits (hall r List.mem_cons_self)]
  rw [passedOn, hfold]
  split <;> rfl

theorem parseQuery_nil (q : Query) : parseQuery [] ≠ .ok (.ok q) := by
  have hnil : (fun r : Except Bytes Query => r.isOk) <$> parseQuery [] = .ok false := by
    decide
  intro h
  rw [h] at hnil
  cases hnil

theorem ValidQuery.ne_nil {s : Bytes} (h : ValidQuery s) : s ≠ [] := by
  rintro rfl
  obtain ⟨q, hq⟩ := h.accepted
  exact parseQuery_nil q hq

/-- Pieces without a zero byte are handed over as they are. -/
theorem map_cstr_of_nulFree {pieces : List Bytes} (h : NulFree pieces.flatten) :
    pieces.map cstr = pieces := by
  refine (List.map_congr_left fun piece hpiece => ?_).trans (List.map_id pieces)
  exact cstr_of_nulFree fun hz => h (List.mem_flatten.mpr ⟨piece, hpiece, hz⟩)

/-- What is handed over of the pieces of a stream. -/
theorem map_cstr_eq_iff {pieces : List Bytes} (hvalid : ∀ q ∈ queries, ValidQuery q)
    (hstream : pieces.flatten = (queries.map kind.written).flatten) :
    pieces.map cstr = queries ↔ pieces = queries.map kind.written := by
  cases kind with
  | socket =>
    have hwritten : queries.map ClientKind.socket.written = queries := List.map_id queries
    rw [hwritten] at hstream ⊢
    rw [map_cstr_of_nulFree]
    rw [hstream]
    intro hz
    obtain ⟨q, hq, hzq⟩ := List.mem_flatten.mp hz
    exact (hvalid q hq).nulFree hzq
  | terminal =>
    exact map_upTo_eq_iff (fun q hq => (hvalid q hq).ne_nil) (fun q hq => (hvalid q hq).nulFree)
      hstream

/-- **The queries are handed over, each once and in order, exactly when** every piece is what was
written for one query, and none fills the buffer. -/
theorem passedOn_eq_iff (h : n.Reachable) (hid : id < n.clientCount)
    (hvalid : ∀ q ∈ queries, ValidQuery q) (hpos : ∀ r ∈ reads, 0 < r.result)
    (hstream : (reads.map Received.bytes).flatten = (queries.map kind.written).flatten) :
    passedOn closes id n reads = .ok queries ↔
      reads.map Received.bytes = queries.map kind.written ∧
        ∀ r ∈ reads, r.result < maxMessageSize := by
  rw [passedOn_eq h hid hpos, ← map_cstr_eq_iff hvalid hstream, List.map_map]
  split
  next hfits =>
    rw [Except.ok.injEq]
    exact (and_iff_left hfits).symm
  next hfull => exact iff_of_false nofun fun h => hfull h.2

/-- A server with one connection. -/
def connectedServer : Networking :=
  { startedServer with
    clientReadFds := [4, 0, 0, 0, 0, 0, 0, 0], clientWriteFds := [4, 0, 0, 0, 0, 0, 0, 0]
    clientCount := 1, readfds := {4, 3} }

theorem reachable_connectedServer : connectedServer.Reachable :=
  reachable_startedServer.acceptConnection
    (show acceptConnection 4 ⟨0, 0⟩ startedServer = .ok (1, _) from rfl)

/-- What is left by a call that receives bytes. -/
def receive (bs : Bytes) (h : bs.length ≤ maxMessageSize) : Received where
  result := bs.length
  buffer := bs ++ List.replicate (maxMessageSize - bs.length) 0
  result_le := by exact_mod_cast h
  length_buffer := by
    rw [List.length_append, List.length_replicate]
    omega

theorem bytes_receive {bs : Bytes} (h : bs.length ≤ maxMessageSize) : (receive bs h).bytes = bs := by
  rw [Received.bytes, receive, Int.toNat_natCast, List.take_left]

theorem validQuery_known : ValidQuery (lit "SELECT id FROM S;") where
  nulFree := by decide
  length_lt := by decide
  accepted := ⟨_, parseQuery_known⟩

/-- Two lines of the terminal, each in one piece with its zero byte. -/
theorem passedOn_eq_iff_single :
    passedOn ⟨0, 0⟩ 0 connectedServer (List.replicate 2
        (receive (lit "SELECT id FROM S;" ++ [0]) (by decide))) =
      .ok [lit "SELECT id FROM S;", lit "SELECT id FROM S;"] := by
  have hvalid : ∀ q ∈ [lit "SELECT id FROM S;", lit "SELECT id FROM S;"], ValidQuery q :=
    List.forall_mem_cons.mpr ⟨validQuery_known, List.forall_mem_singleton.mpr validQuery_known⟩
  have hwhole : (List.replicate 2 (receive (lit "SELECT id FROM S;" ++ [0]) (by decide))).map
      Received.bytes =
        [lit "SELECT id FROM S;", lit "SELECT id FROM S;"].map ClientKind.terminal.written := by
    decide
  exact (passedOn_eq_iff reachable_connectedServer (by decide) hvalid (by decide) (by decide)).mpr
    ⟨hwhole, by decide⟩

/-- Two queries that arrive together are handed over as one string, and a query that arrives in two
pieces as two. -/
theorem passedOn_merged_and_cut : connectedServer.Reachable ∧
    ValidQuery (lit "SELECT id FROM S;") ∧
    passedOn ⟨0, 0⟩ 0 connectedServer
        [receive (lit "SELECT id FROM S;SELECT id FROM S;") (by decide)] =
      .ok [lit "SELECT id FROM S;SELECT id FROM S;"] ∧
    passedOn ⟨0, 0⟩ 0 connectedServer
        [receive (lit "SELECT id ") (by decide), receive (lit "FROM S;") (by decide)] =
      .ok [lit "SELECT id ", lit "FROM S;"] := by
  refine ⟨reachable_connectedServer, validQuery_known, ?_, ?_⟩
  · decide +kernel
  · decide +kernel

end Delivery

end SetQL
