import SetQL.Translation.Erasure

/-!
# What lies behind a value

A string is written into its slot with the bytes behind it. The stored slot depends on these bytes
exactly when the string and its terminator do not fill the slot, and after a load a cell depends on
them exactly when the last value that may have been written to it does not fill its slot.

## Main definitions

* `MayFit t bs`: a value with these bytes of its own may fit
* `Covered u a k`: the last value that may have been written to a cell fills its slot
* `Memory.marks`: a memory that differs from the zeros behind every value

## Main results

* `stored_text_eq_iff`: when a stored string does not depend on what lies behind it
* `slotContents_of_covered`: a covered cell does not depend on what lies behind its values
* `slotContents_ne`: every other cell that was written to does
-/

namespace SetQL

/-! ## The bytes of a value -/

section Payload

variable {p p' : Payload} {n j : ℕ} {s : Bytes} {m m' : ℕ → UInt8} {t : Shape}

theorem Payload.byte_of_lt {i : ℕ} (h : i < p.known.length) : p.byte i = p.known.getD i 0 := if_pos h

/-- The bytes of a value that fills its slot are its own. -/
theorem bytes_eq_take (h : n ≤ p.known.length) : p.bytes n = p.known.take n := by
  refine List.ext_getElem (by simpa using h) fun i hi hi' => ?_
  have hlt : i < p.known.length := by
    rw [Payload.length_bytes] at hi
    omega
  simp only [Payload.bytes, List.getElem_map, List.getElem_range, List.getElem_take]
  rw [Payload.byte_of_lt hlt, List.getD_eq_getElem?_getD, List.getElem?_eq_getElem hlt,
    Option.getD_some]

/-- The bytes of a value that does not fill its slot depend on what lies behind it. -/
theorem bytes_ne (hknown : p.known.length = p'.known.length) (hlt : p.known.length + j < n)
    (hne : p.behind j ≠ p'.behind j) : p.bytes n ≠ p'.bytes n := by
  intro heq
  have hbyte : ∀ q : Payload, q.known.length = p.known.length →
      (q.bytes n)[p.known.length + j]? = some (q.behind j) := by
    intro q hq
    rw [Payload.bytes, List.getElem?_map, List.getElem?_range hlt, Option.map_some, Payload.byte,
      if_neg (by omega), hq, Nat.add_sub_cancel_left]
  have := hbyte p rfl
  rw [heq, hbyte p' hknown.symm] at this
  exact hne (Option.some.inj this).symm

/-- A value with these bytes of its own may fit: they do not already make it longer than a slot. -/
def MayFit (t : Shape) (bs : Bytes) : Prop :=
  ¬ (t.type = .string ∧ t.stringLength < bs.length ∧ 0 ∉ bs.take (t.stringLength + 1))

theorem mayFit_of_fits (h : t.Fits p) : MayFit t p.known := by
  rintro ⟨htype, hlt, hzero⟩
  refine h ⟨htype, List.all_eq_true.mpr fun i hi => ?_⟩
  have hi : i < t.stringLength + 1 := List.mem_range.mp hi
  rw [Payload.byte_of_lt (by omega), bne_iff_ne, List.getD_eq_getElem?_getD,
    List.getElem?_eq_getElem (by omega), Option.getD_some]
  rintro heq
  refine hzero (heq ▸ ?_)
  rw [← List.getElem_take (j := t.stringLength + 1) (h := by rw [List.length_take]; omega)]
  exact List.getElem_mem _

/-- A string fits when it may. -/
theorem fits_text (hs : NulFree s) (h : MayFit t (s ++ [0])) : t.Fits (.text s m) := by
  rintro ⟨htype, hlong⟩
  have hlt := (longerThan_text_iff hs).mp hlong
  refine h ⟨htype, by simp; omega, ?_⟩
  rw [List.take_append_of_le_length (by omega)]
  exact fun hmem => hs (List.mem_of_mem_take hmem)

/-- An integer fits into the slots of strings when it ends before a zero byte. -/
theorem fits_int64 {v : BitVec 64} (hm : m 0 = 0) (hlen : t.type = .string → 8 ≤ t.stringLength) :
    t.Fits (.int64 v m) := by
  rintro ⟨htype, hlong⟩
  have hbyte := List.all_eq_true.mp hlong 8 (List.mem_range.mpr (by have := hlen htype; omega))
  have hzero : (Payload.int64 v m).byte 8 = m 0 := by simp [Payload.byte, Payload.known, Payload.behind]
  rw [hzero, hm] at hbyte
  exact absurd hbyte (by decide)

end Payload

/-! ## One slot -/

section Slot

variable {db db' : Database} {name key : Bytes} {attr : Attributes} {d : TableData} {p : Payload}
  {s : Bytes}

/-- A value that fits is stored. -/
theorem stored_dbSetAttribute (hattr : db.table name = some attr)
    (hk : stSearch db.keyTable key = some d) (hfits : attr.shape.Fits p)
    (h : dbSetAttribute db name key p = .ok db') :
    db'.stored name key = some (p.bytes attr.width) := by
  obtain ⟨e, he, hget⟩ := table_eq_some.mp hattr
  obtain ⟨hunknown, -⟩ | ⟨e', d', attr', he', hk', hattr', ⟨htype, hlong, -⟩ | ⟨-, block, hblock, rfl⟩⟩ :=
    dbSetAttribute_cases h
  · rcases hunknown with hn | hn
    · rw [hn] at he
      cases he
    · rw [hn] at hk
      cases hk
  · obtain rfl := Option.some.inj (he.symm.trans he')
    obtain rfl := Option.some.inj (hget.symm.trans hattr')
    exact absurd ⟨htype, hlong⟩ hfits
  · obtain rfl := Option.some.inj (he.symm.trans he')
    obtain rfl := Option.some.inj (hget.symm.trans hattr')
    obtain rfl := Option.some.inj (hk.symm.trans hk')
    have hlt := (List.getElem?_eq_some_iff.mp hget).1
    have htable : ({ db with attributes := db.attributes.set e.index { attr with data := block } } :
        Database).table name = some { attr with data := block } :=
      table_eq_some.mpr ⟨e, he, by simp [hlt]⟩
    rw [Database.stored, htable]
    show (stSearch db.keyTable key).map _ = _
    rw [hk, Option.map_some, slot_of_assign hblock, if_pos rfl]

/-- **A stored string does not depend on what lies behind it exactly when it fills its slot** with
its terminator. -/
theorem stored_text_eq_iff (hattr : db.table name = some attr) (htype : attr.type = .string)
    (hk : stSearch db.keyTable key = some d) (hs : NulFree s) (hlen : s.length ≤ attr.stringLength)
    (hret : ∀ m, ∃ db', dbSetAttribute db name key (.text s m) = .ok db') :
    (∀ m m' db' db'', dbSetAttribute db name key (.text s m) = .ok db' →
      dbSetAttribute db name key (.text s m') = .ok db'' →
        db'.stored name key = db''.stored name key) ↔ attr.stringLength ≤ s.length + 1 := by
  have hwidth : attr.width = attr.stringLength := by
    rw [Attributes.width, htype]
  have hfits : ∀ m, attr.shape.Fits (.text s m) := by
    rintro m ⟨-, hlong⟩
    exact absurd ((longerThan_text_iff hs).mp hlong) (Nat.not_lt.mpr hlen)
  have hstored : ∀ m db', dbSetAttribute db name key (.text s m) = .ok db' →
      db'.stored name key = some ((Payload.text s m).bytes attr.stringLength) := fun m db' h =>
    hwidth ▸ stored_dbSetAttribute hattr hk (hfits m) h
  constructor
  · intro hsame
    by_contra hshort
    obtain ⟨db', hdb'⟩ := hret fun _ => 0
    obtain ⟨db'', hdb''⟩ := hret fun _ => 1
    have heq := hsame _ _ _ _ hdb' hdb''
    rw [hstored _ _ hdb', hstored _ _ hdb'', Option.some.injEq] at heq
    refine absurd heq (bytes_ne (j := 0) rfl ?_ ?_)
    · simp only [Payload.known, List.length_append, List.length_singleton]
      omega
    · show (0 : UInt8) ≠ 1
      decide
  · intro hfull m m' db' db'' hdb' hdb''
    have hle : ∀ m, attr.stringLength ≤ (Payload.text s m).known.length := by
      simpa [Payload.known] using hfull
    rw [hstored m _ hdb', hstored m' _ hdb'', bytes_eq_take (hle m), bytes_eq_take (hle m')]
    rfl

end Slot

/-! ## The cells of a load -/

/-- The strings of the keys and the values end at their first zero byte. -/
structure Strings (u : Universe) : Prop where
  key : ∀ r < u.rows, NulFree (u.key r)
  value : ∀ i < u.attributeDataNames.length, ∀ r < u.rows, NulFree (u.value i r)

/-- The last value that may have been written to a cell fills its slot. -/
def Covered (u : Universe) (a k : Bytes) : Prop :=
  ∀ t bs, shapeOf u.knownCalls a = some t → LastWritten MayFit u.knownCalls a k bs →
    t.width ≤ bs.length

/-- A memory that differs from the zeros behind every value. Behind an integer it begins with a zero
byte, which ends the integer where it is read as a string. -/
def Memory.marks : Memory := ⟨fun _ _ => 1, fun _ _ _ => 1, fun _ _ n => if n = 0 then 0 else 1⟩

section Load

variable {mem mem' : Memory} {u : Universe} {a k bs : Bytes} {t : Shape} {p : Payload}

/-- The values that a load writes. -/
theorem payload_of_mem (h : .setAttribute a k p ∈ loadOps mem u 1000 100) :
    (∃ r < u.rows, p = .text (u.key r) (mem.key r)) ∨
      (∃ i < u.attributeDataNames.length, ∃ r < u.rows, p = .text (u.value i r) (mem.value r i)) ∨
        ∃ i r v, p = .int64 v (mem.integer r i) := by
  rcases mem_loadOps h with h | ⟨set, -, h⟩ | h
  · rcases List.mem_cons.mp h with h | h
    · cases h
    · obtain ⟨r, hr, h | h⟩ := mem_keyOps.mp h
      · cases h
      · exact Or.inl ⟨r, hr, (Op.setAttribute.inj h).2.2⟩
  · obtain h | ⟨_, -, h⟩ := mem_setOps.mp h <;> cases h
  · obtain ⟨i, -, hi, h | ⟨-, h⟩⟩ := mem_attributeOps h
    · cases h
    · obtain ⟨r, hr, h⟩ := mem_valueOps.mp h
      obtain rfl := (Op.setAttribute.inj h).2.2
      rw [payload]
      split
      · exact Or.inr (Or.inl ⟨i, by omega, r, hr, rfl⟩)
      · exact Or.inr (Or.inr ⟨i, r, _, rfl⟩)

/-- The columns that a load creates. -/
theorem shape_of_shapeOf (h : shapeOf u.knownCalls a = some t) :
    t = newShape .string dbMaxStringLength ∨ t.type = .type64 ∨ t.type = .undefined := by
  rw [Universe.knownCalls, shapeOf_map] at h
  obtain ⟨c, hc, hshape⟩ := List.exists_of_findSome?_eq_some h
  obtain ⟨op, hop, hcall⟩ := List.mem_filterMap.mp hc
  cases c with
  | addKey k => cases hshape
  | write b k p => cases hshape
  | createColumn b t' =>
    have hloads := loads_of_mem hop
    obtain ⟨-, rfl⟩ : b = a ∧ t' = t := by simpa using hshape
    cases op with
    | createAttribute name type stringSize =>
      rw [Op.cellCall] at hcall
      split_ifs at hcall
      obtain ⟨-, rfl⟩ := CellCall.createColumn.inj (Option.some.inj hcall)
      rcases hloads with ⟨rfl, rfl⟩ | rfl | rfl
      · exact Or.inl rfl
      · exact Or.inr (Or.inl rfl)
      · exact Or.inr (Or.inr rfl)
    | addKey name =>
      rw [Op.cellCall] at hcall
      split_ifs at hcall
      cases hcall
    | _ => cases hcall

/-- The last value that may have been written in one memory. -/
theorem lastWritten_of_known (mem : Memory) (hl : LastWritten MayFit u.knownCalls a k bs) :
    ∃ p, p.known = bs ∧ .setAttribute a k p ∈ loadOps mem u 1000 100 ∧
      LastWritten (fun t p => MayFit t p.known) (cellCalls (loadOps mem u 1000 100)) a k p := by
  rw [← map_known_cellCalls mem] at hl
  obtain ⟨p, hp, hl⟩ := lastWritten_map.mp hl
  refine ⟨p, hp, ?_, hl⟩
  obtain ⟨pre, post, t, heq, -⟩ := hl
  exact mem_cellCalls_write.mp (by rw [heq]; simp)

/-- The value of a cell, when the last value that may have been written fits. -/
theorem value_of_fits (ht : shapeOf u.knownCalls a = some t)
    (hl : LastWritten (fun t p => MayFit t p.known) (cellCalls (loadOps mem u 1000 100)) a k p)
    (hfits : t.Fits p) :
    (Cells.run Shape.Fits (cellCalls (loadOps mem u 1000 100))).value a k = some p := by
  refine value_run_iff.mpr (hl.of_imp (fun _ _ => mayFit_of_fits) fun t' ht' => ?_)
  rw [← shapeOf_map Payload.known, map_known_cellCalls, ht] at ht'
  exact Option.some.inj ht' ▸ hfits

/-- A cell that no value may have been written to has none. -/
theorem value_of_not_written (hno : ¬ ∃ bs, LastWritten MayFit u.knownCalls a k bs) :
    (Cells.run Shape.Fits (cellCalls (loadOps mem u 1000 100))).value a k = none := by
  refine Option.eq_none_iff_forall_ne_some.mpr fun p hp => hno ?_
  obtain ⟨p', hp'⟩ := exists_lastWritten_of_imp (fun _ _ => mayFit_of_fits) (value_run_iff.mp hp)
  rw [← map_known_cellCalls mem]
  exact ⟨_, lastWritten_map.mpr ⟨p', rfl, hp'⟩⟩

theorem mayFit_of_lastWritten (ht : shapeOf u.knownCalls a = some t)
    (hl : LastWritten MayFit u.knownCalls a k bs) : MayFit t bs := by
  obtain ⟨pre, post, t', heq, ht', hmay, -⟩ := hl
  rw [heq, shapeOf_append, ht', Option.some_or] at ht
  exact Option.some.inj ht ▸ hmay

theorem width_of_string (ht : shapeOf u.knownCalls a = some t) (htype : t.type = .string) :
    t.width = dbMaxStringLength := by
  rcases shape_of_shapeOf ht with rfl | h | h
  · rfl
  · rw [h] at htype
    cases htype
  · rw [h] at htype
    cases htype

/-- A value that may fit does, when the integers among the values do. -/
theorem fits_of_mem (hu : Strings u) (hmem : .setAttribute a k p ∈ loadOps mem u 1000 100)
    (hmay : MayFit t p.known)
    (hint : ∀ i r v, p = .int64 v (mem.integer r i) → t.Fits (.int64 v (mem.integer r i))) :
    t.Fits p := by
  obtain ⟨r, hr, rfl⟩ | ⟨i, hi, r, hr, rfl⟩ | ⟨i, r, v, rfl⟩ := payload_of_mem hmem
  · exact fits_text (hu.key r hr) hmay
  · exact fits_text (hu.value i hi r hr) hmay
  · exact hint i r v rfl

/-- **A covered cell does not depend on what lies behind its values.** -/
theorem slotContents_of_covered (hu : Strings u) (ht : shapeOf u.knownCalls a = some t)
    (hc : Covered u a k) (mem mem' : Memory) :
    slotContents t.width
        ((Cells.run Shape.Fits (cellCalls (loadOps mem u 1000 100))).value a k) =
      slotContents t.width
        ((Cells.run Shape.Fits (cellCalls (loadOps mem' u 1000 100))).value a k) := by
  by_cases hw : ∃ bs, LastWritten MayFit u.knownCalls a k bs
  · obtain ⟨bs, hl⟩ := hw
    have hle := hc t bs ht hl
    suffices hown : ∀ mem, slotContents t.width
        ((Cells.run Shape.Fits (cellCalls (loadOps mem u 1000 100))).value a k) =
          bs.take t.width by
      rw [hown mem, hown mem']
    intro mem
    obtain ⟨p, rfl, hmem, hl'⟩ := lastWritten_of_known mem hl
    have hmay := mayFit_of_lastWritten ht hl
    have hfits : t.Fits p := by
      apply fits_of_mem hu hmem hmay
      rintro i r v rfl ⟨htype, -⟩
      -- the 8 bytes of an integer do not fill a slot of strings
      rw [width_of_string ht htype, Payload.known, length_leBytes] at hle
      exact absurd hle (by decide)
    rw [value_of_fits ht hl' hfits]
    exact bytes_eq_take hle
  · rw [value_of_not_written hw, value_of_not_written hw]

/-- **A cell that is not covered depends on what lies behind its last value.** -/
theorem slotContents_ne (hu : Strings u) (ht : shapeOf u.knownCalls a = some t)
    (hc : ¬ Covered u a k) :
    slotContents t.width
        ((Cells.run Shape.Fits (cellCalls (loadOps Memory.zeros u 1000 100))).value a k) ≠
      slotContents t.width
        ((Cells.run Shape.Fits (cellCalls (loadOps Memory.marks u 1000 100))).value a k) := by
  rw [Covered] at hc
  push Not at hc
  obtain ⟨t', bs, ht', hl, hlt⟩ := hc
  obtain rfl := Option.some.inj (ht.symm.trans ht')
  -- the two memories differ only behind the last value written
  have hmay := mayFit_of_lastWritten ht hl
  have hstring : t.type = .string → t.stringLength = dbMaxStringLength := fun h =>
    (show t.width = t.stringLength by rw [Shape.width, Attributes.width, h]) ▸ width_of_string ht h
  have hint : ∀ m : ℕ → UInt8, m 0 = 0 → ∀ v, t.Fits (.int64 v m) := fun m hm v =>
    fits_int64 hm fun h => by
      rw [hstring h]
      decide
  obtain ⟨p, hp, hmem, hl₁⟩ := lastWritten_of_known Memory.zeros hl
  obtain ⟨p', rfl, hmem', hl₂⟩ := lastWritten_of_known Memory.marks hl
  rw [value_of_fits ht hl₁ (fits_of_mem hu hmem (hp ▸ hmay) fun i r v _ => hint _ rfl v),
    value_of_fits ht hl₂ (fits_of_mem hu hmem' hmay fun i r v _ => hint _ rfl v)]
  have hzero : ∀ j, p.behind j = 0 := by
    obtain ⟨r, -, rfl⟩ | ⟨i, -, r, -, rfl⟩ | ⟨i, r, v, rfl⟩ := payload_of_mem hmem <;>
      exact fun _ => rfl
  have hne : (0 : UInt8) ≠ 1 := by decide
  by_cases hroom : p'.known.length + 1 < t.width
  · refine bytes_ne (j := 1) (congrArg List.length hp) (hp ▸ hroom) ?_
    rw [hzero]
    obtain ⟨r, -, rfl⟩ | ⟨i, -, r, -, rfl⟩ | ⟨i, r, v, rfl⟩ := payload_of_mem hmem' <;>
      exact hne
  · refine bytes_ne (j := 0) (congrArg List.length hp) (hp ▸ hlt) ?_
    rw [hzero]
    obtain ⟨r, -, rfl⟩ | ⟨i, -, r, -, rfl⟩ | ⟨i, r, v, rfl⟩ := payload_of_mem hmem'
    · exact hne
    · exact hne
    · have hwidth : t.width = 9 := by
        simp only [Payload.known, length_leBytes] at hlt hroom
        omega
      rcases shape_of_shapeOf ht with rfl | h | h
      · exact absurd hwidth (by decide)
      · simp [Shape.width, Attributes.width, h] at hwidth
      · simp [Shape.width, Attributes.width, h] at hwidth

end Load

end SetQL
