import SetQL.DataStructures.Columns
import SetQL.DataStructures.TableSizes
import Mathlib.Data.UInt

/-!
# Attribute values as they are printed

`printAttributes` reads the slot of a key back by the type of its table. After any run of
`db_setAttribute` it reads the value last accepted for that key and attribute.

## Main definitions

* `Printed`, `Attributes.print`, `Database.printed`: what is read for a key
* `Payload.reading`: what is read of a value, by the shape of the table
* `SetCall`, `Database.Accepts`, `lastAccepted`: the calls of `db_setAttribute` and the last one that
  a table takes
* `Database.WordsExist`: the unions of every key exist in every table

## Main results

* `Attributes.print_eq`: a slot is read whole
* `reading_int64`, `reading_text`: the readings of integers and strings
* `written_run`: the slots after a run of calls
* `printed_run`: what is read after a run of calls
-/

namespace SetQL

/-- What `printAttributes` prints for a key. -/
inductive Printed
  | undefined
  | number (n : ℕ)
  | text (s : Bytes)
  deriving DecidableEq, Repr

/-- The loop over the characters of a string slot, up to its first zero byte. -/
def printText (data : Block) (keyIndex strl : ℕ) : List ℕ → C Bytes
  | [] => .ok []
  | k :: ks => do
    let c ← data.readByte (charU ((keyIndex * strl + k) / 8) ((keyIndex * strl + k) % 8))
    if c = 0 then .ok []
    else do
      let cs ← printText data keyIndex strl ks
      return c :: cs

/-- The value of a key, read by the type of the table. -/
def Attributes.print (attr : Attributes) (keyIndex : ℕ) : C Printed :=
  match attr.type with
  | .undefined => .ok .undefined
  | .type8 => do
    let bs ← attr.data.read (charU (keyIndex / 8) (keyIndex % 8)) 1
    return .number (leNat bs)
  | .string => do
    let cs ← printText attr.data keyIndex attr.stringLength (List.range attr.stringLength)
    return .text cs
  | .type16 => do
    let bs ← attr.data.read (int16U (keyIndex / 4) (keyIndex % 4)) 2
    return .number (leNat bs)
  | .type32 => do
    let bs ← attr.data.read (int32U (keyIndex / 2) (keyIndex % 2)) 4
    return .number (leNat bs)
  | .type64 => do
    let bs ← attr.data.read (int64U keyIndex) 8
    return .number (leNat bs)

/-- The value printed for a known key under a known attribute. -/
def Database.printed (db : Database) (attrName keyName : Bytes) : Option (C Printed) :=
  (db.table attrName).bind fun attr =>
    (stSearch db.keyTable keyName).map fun d => attr.print d.index

/-- What the bytes of a slot are read as. -/
def AttrType.reading : AttrType → Bytes → Printed
  | .undefined, _ => .undefined
  | .string, bs => .text (cstr bs)
  | .type8, bs | .type16, bs | .type32, bs | .type64, bs => .number (leNat bs)

/-- What a value is read as: its low bytes as a number, or its characters up to the first zero byte
or the length of a slot. -/
def Payload.reading (p : Payload) (t : Shape) : Printed := t.type.reading (p.bytes t.width)

/-- A call of `db_setAttribute`. -/
structure SetCall where
  attrName : Bytes
  keyName : Bytes
  data : Payload

/-- The call as a public operation. -/
def SetCall.op (c : SetCall) : Op := .setAttribute c.attrName c.keyName c.data

/-- The call names a known attribute and a known key, and its value is not too long. -/
def Database.Accepts (db : Database) (c : SetCall) : Prop :=
  (∃ attr, db.table c.attrName = some attr ∧ attr.shape.Fits c.data) ∧
    ∃ d, stSearch db.keyTable c.keyName = some d

/-- The last value for a key and an attribute that fits the table of the attribute. -/
def lastAccepted (t : Shape) (calls : List SetCall) (attrName keyName : Bytes) : Option Payload :=
  ((calls.filter fun c => c.attrName = attrName ∧ c.keyName = keyName ∧ t.Fits c.data).getLast?).map
    SetCall.data

/-- The unions of every known key exist in every table. -/
def Database.WordsExist (db : Database) : Prop :=
  ∀ attr ∈ db.attributes, ∀ keyName d, stSearch db.keyTable keyName = some d →
    ∀ e ∈ addressedElements attr.type attr.stringLength d.index, e < attr.data.size / 8

/-! ## Reading a slot -/

section Reading

variable {attr : Attributes} {k : ℕ}

/-- The characters of a slot are read up to the first zero byte. -/
theorem printText_eq {b : Block} {strl n j : ℕ} (h : k * strl + (j + n) ≤ b.size) :
    printText b k strl (List.range' j n) = .ok (cstr (b.slice (k * strl + j) n)) := by
  induction n generalizing j with
  | zero => rfl
  | succ n ih =>
    have haddr : charU ((k * strl + j) / 8) ((k * strl + j) % 8) = k * strl + j := by
      rw [charU]
      omega
    have hlt : k * strl + j < b.size := by omega
    have hnext := ih (j := j + 1) (by omega)
    rw [List.range'_succ, printText, haddr, Block.readByte, if_pos hlt, ok_bind, Block.slice_succ,
      cstr, List.takeWhile_cons]
    by_cases hzero : b.byte (k * strl + j) = 0
    · simp [hzero]
    · rw [if_neg hzero, hnext, ok_bind, if_pos (by simpa using hzero)]
      rfl

/-- **A slot is read whole** when it lies in the block. -/
theorem Attributes.print_eq (h : (k + 1) * attr.width ≤ attr.data.size) :
    attr.print k = .ok (attr.type.reading (attr.slot k)) := by
  rw [Nat.succ_mul] at h
  have hread : ∀ a n, n = attr.width → a = k * attr.width →
      attr.data.read a n = .ok (attr.slot k) := by
    rintro a n rfl rfl
    exact Block.read_eq_ok.mpr ⟨Or.inr h, rfl⟩
  cases htype : attr.type with
  | undefined => simp only [print, htype, AttrType.reading]
  | string =>
    have hwidth : attr.width = attr.stringLength := by simp only [width, htype]
    rw [hwidth] at h
    have hroom : k * attr.stringLength + (0 + attr.stringLength) ≤ attr.data.size := by
      rwa [Nat.zero_add]
    have htext := printText_eq hroom
    rw [← List.range_eq_range', Nat.add_zero] at htext
    simp only [print, htype, htext, slot, hwidth]
    rfl
  | type8 | type16 | type32 | type64 =>
    simp only [print, htype, charU, int16U, int32U, int64U]
    rw [hread]
    · rfl
    · simp only [width, htype]
    · simp only [width, htype]
      omega

theorem leNat_leBytes_take {n w : ℕ} (v : ℕ) (h : n ≤ w) :
    leNat ((leBytes w v).take n) = v % 256 ^ n := by
  have htake : (leBytes w v).take n = leBytes n v := by
    induction n generalizing w v with
    | zero => rfl
    | succ n ih =>
      obtain ⟨w, rfl⟩ := Nat.exists_eq_add_of_lt h
      rw [show n + w + 1 = (n + w) + 1 from rfl, leBytes, leBytes, List.take_succ_cons,
        ih (v / 256) (Nat.le_add_right n w)]
  rw [htake, leNat_leBytes]

/-- An integer is read truncated to the bits of the slot. -/
theorem reading_int64 {t : Shape} {v : BitVec 64} {behind : ℕ → UInt8}
    (ht : t.type ≠ .string) (hu : t.type ≠ .undefined) :
    (Payload.int64 v behind).reading t = .number (v.toNat % 2 ^ (8 * t.width)) := by
  have hwidth : t.width ≤ 8 := by
    obtain ⟨type, strl⟩ := t
    cases type with
    | string => exact absurd rfl ht
    | undefined | type8 | type16 | type32 | type64 =>
      simp only [Shape.width, Attributes.width]
      omega
  -- a slot takes the low bytes, and what lies behind the value is not reached
  have hbytes : (Payload.int64 v behind).bytes t.width = (leBytes 8 v.toNat).take t.width := by
    rw [← bytes_int64 (m := behind), Payload.bytes, Payload.bytes, ← List.map_take, List.take_range,
      Nat.min_eq_left hwidth]
  have hpow : 256 ^ t.width = 2 ^ (8 * t.width) := (pow_mul 2 8 t.width).symm
  rw [Payload.reading, hbytes, ← hpow, ← leNat_leBytes_take v.toNat hwidth]
  obtain ⟨type, strl⟩ := t
  cases type with
  | string => exact absurd rfl ht
  | undefined => exact absurd rfl hu
  | type8 | type16 | type32 | type64 => rfl

/-- A string that fits is read whole. -/
theorem reading_text {strl : ℕ} {s : Bytes} {behind : ℕ → UInt8} (hs : NulFree s)
    (hlen : s.length ≤ strl) : (Payload.text s behind).reading ⟨.string, strl⟩ = .text s :=
  congrArg Printed.text (cstr_bytes_text hs hlen)

end Reading

/-! ## Runs of calls -/

theorem lastAccepted_snoc (t : Shape) (calls : List SetCall) (c : SetCall) (a k : Bytes) :
    lastAccepted t (calls ++ [c]) a k =
      if c.attrName = a ∧ c.keyName = k ∧ t.Fits c.data then some c.data
      else lastAccepted t calls a k := by
  rw [lastAccepted, List.filter_append]
  split_ifs with h
  · rw [List.filter_singleton, decide_eq_true h, cond_true, List.getLast?_concat]
    rfl
  · rw [List.filter_singleton, decide_eq_false h, cond_false, List.append_nil]
    rfl

section Run

variable {db₀ db db' : Database} {calls : List SetCall} {c : SetCall}

/-- After the calls every table has kept its shape and its size, and each slot holds the last value
accepted. -/
structure AfterWrites (db db' : Database) (calls : List SetCall) : Prop where
  keys : db'.keyTable = db.keyTable
  columns : ∀ a, (db'.table a).map (fun attr => (attr.shape, attr.data.size)) =
    (db.table a).map fun attr => (attr.shape, attr.data.size)
  slots : ∀ a k attr attr' d, db.table a = some attr → db'.table a = some attr' →
    stSearch db.keyTable k = some d → attr'.slot d.index =
      (lastAccepted attr.shape calls a k).elim (attr.slot d.index) fun p => p.bytes attr.width

theorem afterWrites_nil (db : Database) : AfterWrites db db [] where
  keys := rfl
  columns := fun _ => rfl
  slots := by
    intro a k attr attr' d h h' _
    obtain rfl := Option.some.inj (h.symm.trans h')
    rfl

/-- The table after the calls, and the one it comes from. -/
theorem AfterWrites.exists_table (h : AfterWrites db db' calls) {a : Bytes} {attr' : Attributes}
    (ha : db'.table a = some attr') : ∃ attr, db.table a = some attr ∧
      attr'.shape = attr.shape ∧ attr'.data.size = attr.data.size := by
  have hcolumn := h.columns a
  rw [ha] at hcolumn
  obtain ⟨attr, hattr, heq⟩ := Option.map_eq_some_iff.mp hcolumn.symm
  obtain ⟨hshape, hsize⟩ := Prod.mk.inj heq
  exact ⟨attr, hattr, hshape.symm, hsize.symm⟩

/-- A table keeps its shape and its size. -/
theorem AfterWrites.shape_eq (h : AfterWrites db db' calls) {a : Bytes} {attr attr' : Attributes}
    (ha : db.table a = some attr) (ha' : db'.table a = some attr') :
    attr'.shape = attr.shape ∧ attr'.data.size = attr.data.size := by
  obtain ⟨attr₀, ha₀, hkept⟩ := h.exists_table ha'
  obtain rfl := Option.some.inj (ha.symm.trans ha₀)
  exact hkept

/-- The calls accepted stay the same. -/
theorem AfterWrites.accepts (h : AfterWrites db db' calls) (hc : db'.Accepts c) : db.Accepts c := by
  obtain ⟨⟨attr', ha, hfits⟩, d, hd⟩ := hc
  obtain ⟨attr, hattr, hshape, -⟩ := h.exists_table ha
  exact ⟨⟨attr, hattr, hshape ▸ hfits⟩, d, h.keys ▸ hd⟩

/-- **A rejected call changes nothing.** -/
theorem exec_of_not_accepts (hinv : Inv db) (hc : ¬ db.Accepts c) : c.op.exec db = .ok db := by
  show dbSetAttribute db c.attrName c.keyName c.data = .ok db
  unfold dbSetAttribute
  cases ha : stSearch db.attrNamesTable c.attrName with
  | none => rfl
  | some attrData =>
    cases hk : stSearch db.keyTable c.keyName with
    | none => rfl
    | some keyData =>
      obtain ⟨attr, hget, htable⟩ := hinv.exists_table ha
      have hlong : attr.type = .string ∧ c.data.longerThan attr.stringLength = true := by
        by_contra hfits
        exact hc ⟨⟨attr, htable, hfits⟩, keyData, hk⟩
      simp only [fetch_eq_ok.mpr hget, ok_bind]
      rw [if_pos hlong]
      rfl

/-- The slot of a key lies in its table, as the unions of the key exist. -/
theorem Database.WordsExist.slot_le (hwords : db.WordsExist) {a k : Bytes} {attr : Attributes}
    {d : TableData} (ha : db.table a = some attr) (hd : stSearch db.keyTable k = some d) :
    (d.index + 1) * attr.width ≤ attr.data.size := by
  obtain ⟨e, -, hget⟩ := table_eq_some.mp ha
  have hexists := addressed_lt_iff.mp (hwords attr (List.mem_of_getElem? hget) k d hd)
  rcases hexists with hzero | hle
  · rw [hzero]
    exact Nat.zero_le _
  · exact hle.trans (Nat.mul_div_le _ 8)

/-- The value of an accepted call is assigned, as the unions of its key exist. -/
theorem exists_exec_of_accepts (hinv : Inv db') (hw : AfterWrites db db' calls)
    (hwords : db.WordsExist) {attr' : Attributes} {d : TableData}
    (ha : db'.table c.attrName = some attr') (hd : stSearch db'.keyTable c.keyName = some d)
    (hfits : attr'.shape.Fits c.data) :
    ∃ db'' block, c.op.exec db' = .ok db'' ∧ attr'.assign d.index c.data = .ok block ∧
      db''.keyTable = db'.keyTable ∧
      ∀ a, db''.table a =
        if a = c.attrName then some { attr' with data := block } else db'.table a := by
  obtain ⟨attr, hattr, hshape, hsize⟩ := hw.exists_table ha
  obtain ⟨e', he', hget'⟩ := table_eq_some.mp ha
  have hroom : (d.index + 1) * attr'.width ≤ attr'.data.size := by
    rw [Attributes.width_of_shape hshape, hsize]
    exact hwords.slot_le hattr (hw.keys ▸ hd)
  obtain ⟨block, hblock⟩ := (exists_assign_iff c.data).mpr (Or.inr hroom)
  refine ⟨_, block, dbSetAttribute_known he' hd hget' hfits hblock, hblock, rfl, ?_⟩
  exact table_set _ hinv he' (List.getElem?_eq_some_iff.mp hget').1

/-- One more call. -/
theorem afterWrites_snoc (hinv : Inv db') (hw : AfterWrites db db' calls) (hwords : db.WordsExist)
    (c : SetCall) : ∃ db'', c.op.exec db' = .ok db'' ∧ AfterWrites db db'' (calls ++ [c]) := by
  by_cases hc : db'.Accepts c
  · obtain ⟨⟨attr', ha, hfits⟩, d, hd⟩ := hc
    obtain ⟨db'', block, hexec, hblock, hkeys, htable⟩ :=
      exists_exec_of_accepts hinv hw hwords ha hd hfits
    refine ⟨db'', hexec, hkeys.trans hw.keys, fun a => ?_, ?_⟩
    · rw [htable, ← hw.columns a]
      split_ifs with heq
      · rw [heq, ha, Option.map_some, Option.map_some, Attributes.size_of_assign hblock]
        rfl
      · rfl
    · intro a k attr attr'' e hattr ha'' he
      rw [lastAccepted_snoc]
      rw [htable] at ha''
      split_ifs at ha'' with heq
      · obtain rfl := Option.some.inj ha''
        subst heq
        obtain ⟨hshape, -⟩ := hw.shape_eq hattr ha
        rw [slot_of_assign hblock, hw.slots _ k attr attr' e hattr ha he,
          Attributes.width_of_shape hshape]
        by_cases hkey : c.keyName = k
        · subst hkey
          obtain rfl := Option.some.inj (he.symm.trans (hw.keys ▸ hd))
          rw [if_pos rfl, if_pos ⟨rfl, rfl, hshape ▸ hfits⟩]
          rfl
        · have hne : e.index ≠ d.index := fun hindex =>
            hkey (hinv.keys.name_eq hd (hw.keys.symm ▸ he) hindex.symm)
          rw [if_neg hne, if_neg fun h => hkey h.2.1]
      · rw [if_neg fun h => heq h.1.symm]
        exact hw.slots a k attr attr'' e hattr ha'' he
  · refine ⟨db', exec_of_not_accepts hinv hc, hw.keys, hw.columns, ?_⟩
    intro a k attr attr' e hattr ha' he
    obtain ⟨hshape, -⟩ := hw.shape_eq hattr ha'
    have hreject : ¬ (c.attrName = a ∧ c.keyName = k ∧ attr.shape.Fits c.data) := by
      rintro ⟨rfl, rfl, hfits⟩
      exact hc ⟨⟨attr', ha', hshape.symm ▸ hfits⟩, e, hw.keys.symm ▸ he⟩
    rw [lastAccepted_snoc, if_neg hreject]
    exact hw.slots a k attr attr' e hattr ha' he

/-- **A run of calls returns, and each slot holds the last value accepted.** -/
theorem written_run (hinv : Inv db) (hwords : db.WordsExist) (calls : List SetCall) :
    ∃ db', run db (calls.map SetCall.op) = .ok db' ∧ Inv db' ∧ AfterWrites db db' calls := by
  induction calls using List.reverseRecOn with
  | nil => exact ⟨db, rfl, hinv, afterWrites_nil db⟩
  | append_singleton calls c ih =>
    obtain ⟨db', hrun, hinv', hw⟩ := ih
    obtain ⟨db'', hexec, hw'⟩ := afterWrites_snoc hinv' hw hwords c
    refine ⟨db'', ?_, inv_exec hinv' hexec, hw'⟩
    rw [run] at hrun
    rw [run, List.map_append, List.foldlM_append, hrun, ok_bind, List.map_singleton,
      List.foldlM_cons, hexec]
    rfl

/-- What is read after the calls. -/
theorem AfterWrites.printed_eq (h : AfterWrites db db' calls) (hwords : db.WordsExist) {a k : Bytes}
    {attr : Attributes} {d : TableData} (ha : db.table a = some attr)
    (hd : stSearch db.keyTable k = some d) :
    db'.printed a k = some ((lastAccepted attr.shape calls a k).elim (attr.print d.index)
      fun p => .ok (p.reading attr.shape)) := by
  have hcolumn := h.columns a
  rw [ha] at hcolumn
  obtain ⟨attr', ha', -⟩ := Option.map_eq_some_iff.mp hcolumn
  obtain ⟨hshape, hsize⟩ := h.shape_eq ha ha'
  have hroom := hwords.slot_le ha hd
  have htype : attr'.type = attr.type := congrArg Shape.type hshape
  have hprint' : attr'.print d.index = .ok (attr.type.reading (attr'.slot d.index)) := by
    rw [← htype]
    exact Attributes.print_eq (by rwa [Attributes.width_of_shape hshape, hsize])
  rw [Database.printed, ha', h.keys, hd, Option.bind_some, Option.map_some, hprint',
    h.slots a k attr attr' d ha ha' hd, Attributes.print_eq hroom]
  cases lastAccepted attr.shape calls a k with
  | none => rfl
  | some p => rfl

/-- **Attribute writes do not disturb each other.** From any reachable database in which the unions
exist, a run of calls returns; each known key then reads as the value last accepted for it, or as
before the run; and a rejected call changes nothing. -/
theorem printed_run {m s a : ℕ} {ops : List Op} (h₀ : createEmptyDB m s a = .ok db₀)
    (hops : run db₀ ops = .ok db) (hwords : db.WordsExist) (calls : List SetCall) :
    ∃ db', run db (calls.map SetCall.op) = .ok db' ∧
      (∀ attrName keyName attr d, db.table attrName = some attr →
        stSearch db.keyTable keyName = some d →
        db'.printed attrName keyName = some ((lastAccepted attr.shape calls attrName keyName).elim
          (attr.print d.index) fun p => .ok (p.reading attr.shape))) ∧
      ∀ c : SetCall, ¬ db.Accepts c →
        dbSetAttribute db' c.attrName c.keyName c.data = .ok db' := by
  have hinv := inv_run (inv_createEmptyDB h₀) hops
  obtain ⟨db', hrun, hinv', hw⟩ := written_run hinv hwords calls
  refine ⟨db', hrun, fun attrName keyName attr d ha hd => hw.printed_eq hwords ha hd, ?_⟩
  exact fun c hc => exec_of_not_accepts hinv' fun hc' => hc (hw.accepts hc')

/-- Two writes to the only key of a column of 64-bit integers. -/
theorem printed_run_one : ∃ db₀ db db', createEmptyDB 1 1 1 = .ok db₀ ∧
    run db₀ [.addKey (lit "k"), .createAttribute (lit "a") .type64 0] = .ok db ∧ db.WordsExist ∧
    run db ([⟨lit "a", lit "k", .int64 300 0⟩, ⟨lit "a", lit "k", .int64 7 0⟩].map SetCall.op) =
      .ok db' ∧ db'.printed (lit "a") (lit "k") = some (.ok (.number 7)) := by
  have hrun : run ⟨[], [], createTable 1, createTable 1, createTable 1, 1, 0, 1, 1, []⟩
      [.addKey (lit "k"), .createAttribute (lit "a") .type64 0] =
      .ok ⟨[], [newAttributes 1 .type64 0], createTable 1, ⟨[some ⟨0, lit "a"⟩], 1⟩,
        ⟨[some ⟨0, lit "k"⟩], 1⟩, 1, 1, 1, 1, []⟩ := rfl
  have hwords : Database.WordsExist ⟨[], [newAttributes 1 .type64 0], createTable 1,
      ⟨[some ⟨0, lit "a"⟩], 1⟩, ⟨[some ⟨0, lit "k"⟩], 1⟩, 1, 1, 1, 1, []⟩ := by
    intro attr hattr keyName d hd e he
    obtain rfl := List.mem_singleton.mp hattr
    have hindex : d = ⟨0, lit "k"⟩ := by
      simp only [stSearch, stSearchFrom] at hd
      split_ifs at hd
      exact (Option.some.inj hd).symm
    subst hindex
    obtain rfl := List.mem_singleton.mp he
    decide
  obtain ⟨db', hrun', hprinted, -⟩ := printed_run createEmptyDB_one hrun hwords
    [⟨lit "a", lit "k", .int64 300 0⟩, ⟨lit "a", lit "k", .int64 7 0⟩]
  refine ⟨_, _, db', createEmptyDB_one, hrun, hwords, hrun', ?_⟩
  rw [hprinted (lit "a") (lit "k") (newAttributes 1 .type64 0) ⟨0, lit "k"⟩ rfl rfl]
  rfl

end Run

end SetQL
