import SetQL.Base.Runs
import SetQL.Server.Delivery
import SetQL.Server.Wire

/-!
# The dialogue of a client and the server

`dbms_communicator.py` against the server: a client sends a query and fetches its result, over and
over. The server reads what has arrived in pieces and answers each piece that it accepts. Replies
carry no name, and what a call of `fetch_result` did not wait for stays in the stream.

## Main definitions

* `Dialogue`: the queries, the values that were fetched, and the bytes in flight
* `Dialogue.Step`: what the two parties do, in any order
* `IsAnswer db query values`: values that are fetched of the answer to a query
* `Dialogue.Timely`: no reply is late

## Main results

* `Dialogue.fetched_isAnswer`: when no reply is late, answers match questions
-/

namespace SetQL

/-- `message_callback_func` on the buffer of a message. -/
def messageCallback (un : Uninitialized) (db : Database) (msg : Bytes) (_size : ℤ) (_id : ℕ) :
    C (ℤ × Bytes) :=
  messageCallbackFunc un db (cstr msg)

/-- A client and the server: the queries that were sent, the values that `fetch_result` returned,
and the bytes that are sent and not read in the two directions. -/
structure Dialogue where
  asked : List Bytes
  fetched : List (List Column)
  toServer : Bytes
  toClient : Bytes

/-- What the two parties do. -/
inductive Action
  /-- The client calls `send_query`. -/
  | send (query : Bytes)
  /-- The server handles a message of the client. -/
  | serve (un : Uninitialized) (received : Received)
  /-- The client calls `fetch_result`, and its `select` finds the socket ready or runs out of time. -/
  | fetch (ready : Bool)

namespace Dialogue

/-- Nothing is sent yet. -/
def Starts (d : Dialogue) : Prop := d = ⟨[], [], [], []⟩

/-- The client has sent a query and has not fetched its result. -/
def Waiting (d : Dialogue) : Prop := d.fetched.length < d.asked.length

/-- A step of the client or of the server, which keeps the client in the slot `id` of its table. The
socket is ready when bytes have arrived, and may be found not ready as long as they are on their
way. -/
inductive Step (db : Database) (n : Networking) (id : ℕ) : Dialogue → Action → Dialogue → Prop
  | send {d : Dialogue} {query : Bytes} (hturn : ¬ d.Waiting) :
      Step db n id d (.send query)
        { d with asked := d.asked ++ [query], toServer := d.toServer ++ query }
  | serve {d : Dialogue} {un : Uninitialized} {received : Received} {rest reply : Bytes} {ret : ℤ}
      {closes : Closes} (hpos : 0 < received.result)
      (hread : d.toServer = received.bytes ++ rest)
      (hcall : handleMessage (messageCallback un db) received closes id n =
        .ok (1, n, some (ret, reply))) :
      Step db n id d (.serve un received) { d with toServer := rest, toClient := d.toClient ++ reply }
  | fetch {d : Dialogue} {ready : Bool} {values : List Column} {rest : Bytes} (hturn : d.Waiting)
      (hready : ready = true → d.toClient ≠ [])
      (hfetch : fetchResult ready d.toClient = .ok (values, rest)) :
      Step db n id d (.fetch ready) { d with fetched := d.fetched ++ [values], toClient := rest }

/-- Values that the client fetches of the answer to a query, when nothing else is in the stream. -/
def IsAnswer (db : Database) (query : Bytes) (values : List Column) : Prop :=
  ∃ un reply, messageCallbackFunc un db (cstr query) = .ok (1, reply) ∧
    fetchResult true reply = .ok (values, [])

/-- No reply is late. What the server answers is the query that the client is waiting for, with no
other reply on its way, and the whole reply is fetched; and the client does not run out of time
while a reply is on its way. -/
def Timely (db : Database) (d : Dialogue) : Action → Prop
  | .send _ => True
  | .serve un received => ∀ reply, messageCallbackFunc un db (cstr received.bytes) = .ok (1, reply) →
      d.Waiting ∧ d.asked.getLast? = some received.bytes ∧ d.toClient = [] ∧
        ∀ values rest, fetchResult true reply = .ok (values, rest) → rest = []
  | .fetch ready => ready = false → d.toClient = []

/-- Every value that was fetched is empty, or of the answer to the query it was fetched for. -/
def Matches (db : Database) (d : Dialogue) : Prop :=
  ∀ (k : ℕ) values, d.fetched[k]? = some values →
    values = [] ∨ ∃ query, d.asked[k]? = some query ∧ IsAnswer db query values

end Dialogue

/-! ## The bytes in flight -/

section Flight

variable {un : Uninitialized} {db : Database} {n : Networking} {id : ℕ} {d d' : Dialogue}
  {a : Action} {msg reply : Bytes} {ret : ℤ} {received : Received} {closes : Closes}
  {v : Option (ℤ × Bytes)}

/-- The callback answers with 1, or sends nothing. -/
theorem messageCallbackFunc_cases (h : messageCallbackFunc un db msg = .ok (ret, reply)) :
    ret = 1 ∨ reply = [] := by
  rw [messageCallbackFunc, bind_eq_ok] at h
  obtain ⟨parsed, -, h⟩ := h
  cases parsed with
  | error e =>
    obtain ⟨-, rfl⟩ := Prod.mk.inj (Except.ok.inj h)
    exact Or.inr rfl
  | ok q =>
    obtain ⟨result, -, h⟩ := bind_eq_ok.mp h
    obtain ⟨sent, -, h⟩ := bind_eq_ok.mp h
    obtain ⟨rfl, -⟩ := Prod.mk.inj (Except.ok.inj h)
    exact Or.inl rfl

/-- Nothing is sent for a query that is rejected. -/
theorem messageCallbackFunc_of_rejected
    (h : (fun parsed : Except Bytes Query => parsed.isOk) <$> parseQuery msg = .ok false) :
    messageCallbackFunc un db msg = .ok (-1, []) := by
  obtain ⟨parsed, hparsed, hrejected⟩ := map_eq_ok.mp h
  cases parsed with
  | error e =>
    rw [messageCallbackFunc, hparsed]
    rfl
  | ok q => cases hrejected

/-- The callback is called with the string that was received. -/
theorem messageCallbackFunc_of_handleMessage (h : n.Reachable) (hid : id < n.clientCount)
    (hpos : 0 < received.result)
    (hcall : handleMessage (messageCallback un db) received closes id n =
      .ok (1, n, some (ret, reply))) :
    messageCallbackFunc un db (cstr received.bytes) = .ok (ret, reply) := by
  rw [handleMessage_eq h hid, if_neg (by omega), if_neg (by omega)] at hcall
  split at hcall
  case isTrue hfits =>
    rw [messageCallback, received.cstr_buffer hfits] at hcall
    obtain ⟨handled, hhandled, heq⟩ := map_eq_ok.mp hcall
    simp only [Prod.mk.injEq, true_and, Option.some.injEq] at heq
    rw [hhandled, heq]
  case isFalse => cases hcall

/-- The client and the server take turns, and what is in flight to the client is the answer to the
query that it waits for. -/
structure Dialogue.Inv (db : Database) (d : Dialogue) : Prop where
  turn : d.asked.length = d.fetched.length ∨ d.asked.length = d.fetched.length + 1
  flight : d.toClient = [] ∨ d.Waiting ∧ ∃ query un, d.asked.getLast? = some query ∧
    messageCallbackFunc un db (cstr query) = .ok (1, d.toClient) ∧
      ∀ values rest, fetchResult true d.toClient = .ok (values, rest) → rest = []
  answers : d.Matches db

theorem Dialogue.inv_starts (h : d.Starts) : d.Inv db := by
  subst h
  exact ⟨Or.inl rfl, Or.inl rfl, fun k values hk => by simp at hk⟩

/-- **A timely step keeps the answers with their questions.** -/
theorem Dialogue.Inv.step (h : d.Inv db) (hn : n.Reachable) (hid : id < n.clientCount)
    (htimely : d.Timely db a) (hstep : Step db n id d a d') : d'.Inv db := by
  cases hstep with
  | send hturn =>
    have hlength : d.asked.length = d.fetched.length :=
      h.turn.resolve_right fun heq => hturn (by rw [Waiting]; omega)
    refine ⟨Or.inr (by simp [hlength]), ?_, fun k values hk => ?_⟩
    · exact Or.inl (h.flight.resolve_right fun hflight => hturn hflight.1)
    · refine (h.answers k values hk).imp_right fun ⟨query, hquery, hanswer⟩ => ⟨query, ?_, hanswer⟩
      exact List.getElem?_append_left (List.getElem?_eq_some_iff.mp hquery).1 ▸ hquery
  | @serve un received rest reply ret closes hpos hread hcall =>
    have hcallback := messageCallbackFunc_of_handleMessage hn hid hpos hcall
    refine ⟨h.turn, ?_, h.answers⟩
    rcases messageCallbackFunc_cases hcallback with rfl | rfl
    · obtain ⟨hwaiting, hlast, hempty, hwhole⟩ := htimely reply hcallback
      refine Or.inr ⟨hwaiting, received.bytes, un, hlast, ?_⟩
      simp only [hempty, List.nil_append]
      exact ⟨hcallback, hwhole⟩
    · simp only [List.append_nil]
      exact h.flight
  | @fetch ready values rest hturn hready hfetch =>
    have hlength : d.asked.length = d.fetched.length + 1 :=
      h.turn.resolve_left fun heq => absurd hturn (by rw [Waiting]; omega)
    have hold : ∀ (k : ℕ) w, d.fetched[k]? = some w →
        w = [] ∨ ∃ query, d.asked[k]? = some query ∧ IsAnswer db query w := h.answers
    -- A value that is fetched in time is the answer in flight, and nothing is left behind it.
    have hnew : rest = [] ∧ (values = [] ∨ ∃ query, d.asked[d.fetched.length]? = some query ∧
        IsAnswer db query values) := by
      cases ready with
      | false =>
        obtain ⟨rfl, rfl⟩ := Prod.mk.inj (Except.ok.inj hfetch)
        exact ⟨htimely rfl, Or.inl rfl⟩
      | true =>
        obtain ⟨-, query, un, hlast, hcallback, hwhole⟩ := h.flight.resolve_left (hready rfl)
        obtain rfl := hwhole values rest hfetch
        refine ⟨rfl, Or.inr ⟨query, ?_, un, d.toClient, hcallback, hfetch⟩⟩
        rw [← hlast, List.getLast?_eq_getElem?, hlength, Nat.add_sub_cancel]
    refine ⟨Or.inl (by simp [hlength]), Or.inl hnew.1, fun k w hk => ?_⟩
    rcases Nat.lt_trichotomy k d.fetched.length with hlt | rfl | hgt
    · rw [List.getElem?_append_left hlt] at hk
      exact hold k w hk
    · simp only [List.getElem?_concat_length, Option.some.injEq] at hk
      exact hk ▸ hnew.2
    · rw [List.getElem?_eq_none (by simp; omega)] at hk
      cases hk

/-- **When no reply is late, answers match questions**: every value that was fetched is empty, or of
the answer to the query it was fetched for. -/
theorem Dialogue.fetched_isAnswer (hn : n.Reachable) (hid : id < n.clientCount)
    (h : Run Starts (Step db n id) (Timely db) d) : d.Matches db :=
  (h.invariant (fun _ hs => inv_starts hs)
    fun _ _ _ hinv htimely hstep => hinv.step hn hid htimely hstep).answers

theorem ne_nil_of_head? {b : UInt8} (h : reply.head? = some b) : reply ≠ [] := by
  rintro rfl
  cases h

/-- A database of one key, and a query with a row in its answer, which is fetched as a whole. -/
theorem exists_answer : ∃ db un reply values, Loaded db ∧
    messageCallbackFunc un db (lit "SELECT id FROM S;") = .ok (1, reply) ∧ reply.head? = some 1 ∧
      fetchResult true reply = .ok (values, []) ∧ values ≠ [] := by
  have h₀ : createEmptyDB 1 1 3 =
      .ok ⟨[], [], createTable 1, createTable 3, createTable 1, 1, 0, 1, 3, []⟩ :=
    createEmptyDB_of_tableSize (by decide) (by decide) (by decide)
  have hrun : (do
      let loaded ← dbAddParsedData ⟨fun _ _ => 0, fun _ _ _ => 0, fun _ _ _ => 0⟩
        ⟨[], [], createTable 1, createTable 3, createTable 1, 1, 0, 1, 3, []⟩ singleUniverse
      let answer ← messageCallbackFunc ⟨fun _ => 0, fun _ _ => 0⟩ loaded.1.db
        (lit "SELECT id FROM S;")
      return (answer.1, answer.2.head?,
        (fetchResult true answer.2).toOption.map fun result => (result.1.isEmpty, result.2))) =
        (.ok (1, some 1, some (false, [])) : C (ℤ × Option UInt8 × _)) := by
    decide +kernel
  obtain ⟨⟨s, loaded⟩, hload, hrun⟩ := bind_eq_ok.mp hrun
  obtain ⟨⟨ret, reply⟩, hcallback, hrun⟩ := bind_eq_ok.mp hrun
  simp only [pure_eq_ok, Except.ok.injEq, Prod.mk.injEq] at hrun
  obtain ⟨rfl, hreply, hfetch⟩ := hrun
  cases hfetched : fetchResult true reply with
  | error e => simp [hfetched, Except.toOption] at hfetch
  | ok result =>
    obtain ⟨values, rest⟩ := result
    simp only [hfetched, Except.toOption, Option.map_some, Option.some.injEq, Prod.mk.injEq] at hfetch
    obtain ⟨hvalues, rfl⟩ := hfetch
    refine ⟨s.db, _, reply, values, .first (by decide) h₀ hload, hcallback, hreply, hfetched, ?_⟩
    simpa using hvalues

theorem result_receive {bs : Bytes} (h : bs.length ≤ maxMessageSize) :
    (receive bs h).result = bs.length := rfl

/-- A whole query is handled. -/
theorem handleMessage_receive {bs : Bytes} (h : n.Reachable) (hid : id < n.clientCount)
    (hbs : bs ≠ []) (hlt : bs.length < maxMessageSize)
    (hcallback : messageCallbackFunc un db (cstr bs) = .ok (ret, reply)) :
    handleMessage (messageCallback un db) (receive bs hlt.le) closes id n =
      .ok (1, n, some (ret, reply)) := by
  have hpos := List.length_pos_iff.mpr hbs
  have hresult := result_receive hlt.le
  have hfits : (receive bs hlt.le).result < maxMessageSize := by omega
  rw [handleMessage_eq h hid, if_neg (by omega), if_neg (by omega), if_pos hfits, messageCallback,
    Received.cstr_buffer hfits, bytes_receive, hcallback]
  rfl

/-- The server handles a whole query that is the next one in the stream. -/
theorem Dialogue.Step.serve_query {asked : List Bytes} {fetched : List (List Column)}
    {query rest toClient : Bytes} (h : n.Reachable) (hid : id < n.clientCount) (hquery : query ≠ [])
    (hlt : query.length < maxMessageSize)
    (hcallback : messageCallbackFunc un db (cstr query) = .ok (ret, reply)) :
    Step db n id ⟨asked, fetched, query ++ rest, toClient⟩ (.serve un (receive query hlt.le))
      ⟨asked, fetched, rest, toClient ++ reply⟩ := by
  have hpos := List.length_pos_iff.mpr hquery
  have hresult := result_receive hlt.le
  refine @Step.serve db n id ⟨asked, fetched, query ++ rest, toClient⟩ un (receive query hlt.le) rest
    reply ret ⟨0, 0⟩ (by omega) (by rw [bytes_receive]) ?_
  exact handleMessage_receive h hid hquery hlt hcallback

theorem cstr_known : cstr (lit "SELECT id FROM S;") = lit "SELECT id FROM S;" :=
  cstr_of_nulFree (by decide)

theorem fetched_isAnswer_single : ∃ db d, Loaded db ∧
    Run Dialogue.Starts (Dialogue.Step db connectedServer 0) (Dialogue.Timely db) d ∧
      (∃ values, values ≠ [] ∧ d.fetched = [values]) ∧ d.Matches db := by
  obtain ⟨db, un, reply, values, hdb, hcallback, hreply, hfetch, hvalues⟩ := exists_answer
  have hcallback' : messageCallbackFunc un db (cstr (lit "SELECT id FROM S;")) = .ok (1, reply) :=
    cstr_known ▸ hcallback
  have hsent : Run Dialogue.Starts (Dialogue.Step db connectedServer 0) (Dialogue.Timely db)
      ⟨[lit "SELECT id FROM S;"], [], lit "SELECT id FROM S;", []⟩ :=
    .step (a := .send (lit "SELECT id FROM S;")) (.start rfl) trivial
      (.send (by simp [Dialogue.Waiting]))
  -- The reply is the only one in flight when it is sent.
  have hserved : Run Dialogue.Starts (Dialogue.Step db connectedServer 0) (Dialogue.Timely db)
      ⟨[lit "SELECT id FROM S;"], [], [], reply⟩ := by
    refine hsent.step ?_ (.serve_query reachable_connectedServer (by decide)
      (by decide) (by decide) hcallback')
    intro reply' hreply'
    rw [bytes_receive] at hreply' ⊢
    obtain rfl := (Prod.mk.inj (Except.ok.inj (hreply'.symm.trans hcallback'))).2
    refine ⟨by simp [Dialogue.Waiting], rfl, rfl, fun values' rest h => ?_⟩
    exact (Prod.mk.inj (Except.ok.inj (h.symm.trans hfetch))).2
  have hrun : Run Dialogue.Starts (Dialogue.Step db connectedServer 0) (Dialogue.Timely db)
      ⟨[lit "SELECT id FROM S;"], [values], [], []⟩ :=
    hserved.step (a := .fetch true) nofun
      (.fetch (by simp [Dialogue.Waiting]) (fun _ => ne_nil_of_head? hreply) hfetch)
  exact ⟨db, _, hdb, hrun, ⟨values, hvalues, rfl⟩,
    Dialogue.fetched_isAnswer reachable_connectedServer (by decide) hrun⟩

/-- A query that is rejected has no answer. -/
theorem Dialogue.not_isAnswer {query : Bytes} {values : List Column}
    (h : (fun parsed : Except Bytes Query => parsed.isOk) <$> parseQuery (cstr query) = .ok false) :
    ¬ IsAnswer db query values := by
  rintro ⟨un, reply, hcallback, -⟩
  rw [messageCallbackFunc_of_rejected h] at hcallback
  cases hcallback

/-- The answer to a query that was late is fetched for the next query. -/
theorem late_answer : ∃ db d, Loaded db ∧ connectedServer.Reachable ∧
    Run Dialogue.Starts (Dialogue.Step db connectedServer 0) (fun _ _ => True) d ∧
      d.asked = [lit "SELECT id FROM S;", lit "x"] ∧ ¬ d.Matches db := by
  obtain ⟨db, un, reply, values, hdb, hcallback, hreply, hfetch, hvalues⟩ := exists_answer
  have hcallback' : messageCallbackFunc un db (cstr (lit "SELECT id FROM S;")) = .ok (1, reply) :=
    cstr_known ▸ hcallback
  have hsent : Run Dialogue.Starts (Dialogue.Step db connectedServer 0) (fun _ _ => True)
      ⟨[lit "SELECT id FROM S;"], [], lit "SELECT id FROM S;", []⟩ :=
    .step (a := .send (lit "SELECT id FROM S;")) (.start rfl) trivial
      (.send (by simp [Dialogue.Waiting]))
  have htimeout : Run Dialogue.Starts (Dialogue.Step db connectedServer 0) (fun _ _ => True)
      ⟨[lit "SELECT id FROM S;"], [[]], lit "SELECT id FROM S;", []⟩ :=
    hsent.step (a := .fetch false) trivial (.fetch (by simp [Dialogue.Waiting]) nofun rfl)
  have hserved : Run Dialogue.Starts (Dialogue.Step db connectedServer 0) (fun _ _ => True)
      ⟨[lit "SELECT id FROM S;"], [[]], [], reply⟩ :=
    htimeout.step trivial (.serve_query reachable_connectedServer (by decide) (by decide)
      (by decide) hcallback')
  have hnext : Run Dialogue.Starts (Dialogue.Step db connectedServer 0) (fun _ _ => True)
      ⟨[lit "SELECT id FROM S;", lit "x"], [[]], lit "x", reply⟩ :=
    hserved.step (a := .send (lit "x")) trivial (.send (by simp [Dialogue.Waiting]))
  have hrun : Run Dialogue.Starts (Dialogue.Step db connectedServer 0) (fun _ _ => True)
      ⟨[lit "SELECT id FROM S;", lit "x"], [[], values], lit "x", []⟩ :=
    hnext.step (a := .fetch true) trivial
      (.fetch (by simp [Dialogue.Waiting]) (fun _ => ne_nil_of_head? hreply) hfetch)
  refine ⟨db, _, hdb, reachable_connectedServer, hrun, rfl, fun hmatches => ?_⟩
  rcases hmatches 1 values rfl with hnil | ⟨query, hquery, hanswer⟩
  · exact hvalues hnil
  · obtain rfl := Option.some.inj hquery
    exact Dialogue.not_isAnswer (by decide) hanswer

end Flight

end SetQL
