import SetQL.Base.Heap
import SetQL.Query.Evaluation

/-!
# Ownership of intermediate bitsets

`db_run_set_operation` over a heap. The structs of the stored sets are one block, `db->sets`, and a
leaf of a tree is a pointer into it. An operator allocates a struct and an array of words for its
result, and the operands that are marked for it are freed after their use. The array of an
intermediate result is not freed.

## Main definitions

* `BitsetPtr`, `BitsetStruct`, `BitsetHeap`: pointers to bitsets, and the memory they point into
* `BitsetHeap.bitsetComplement`, `BitsetHeap.bitsetUnion`, `BitsetHeap.bitsetIntersection`,
  `BitsetHeap.bitsetDifference`: the operators, word by word
* `BitsetHeap.freeBitsets`, `BitsetHeap.dbRunSetOperation`: the evaluation of a tree
* `BitsetHeap.Loads h p b`: the pointer `p` is to a bitset of the words of `b`
* `BitsetHeap.Holds h sets db`: the sets of `db` are at the pointer `sets`

## Main results

* `loads_zip`, `loads_complement`: an operator computes the words of its value in a fresh struct
* `exists_release`: an intermediate result can be freed once it has been used
* `runs_binary`, `runs_toSetOp`: the evaluation over the heap has the value of the one without it
* `dbRunSetOperation_undisturbed`: and leaves nothing in the heap but its result
-/

namespace SetQL

/-- A pointer to a bitset: a block of structs, and an index into it. -/
structure BitsetPtr where
  block : ℕ
  offset : ℕ
  deriving DecidableEq, Repr

/-- A `bitset`: the number of its words, and the block they are in. -/
structure BitsetStruct where
  integerCount : ℕ
  bits : ℕ
  deriving DecidableEq, Repr

/-- The blocks of structs, and the arrays of words. A word that was not written is absent. -/
structure BitsetHeap where
  structs : Heap (List BitsetStruct)
  arrays : Heap (List (Option Word))
  deriving DecidableEq, Repr

/-- A pointer to a bitset, and whether it is freed after its use. -/
structure SetOpPtr where
  bs : BitsetPtr
  free : Bool
  deriving DecidableEq, Repr

/-- The struct that is freed after the use of a result. -/
def SetOpPtr.owned (r : SetOpPtr) : List ℕ := if r.free then [r.bs.block] else []

namespace BitsetHeap

/-- The struct at a pointer. -/
def deref (h : BitsetHeap) (b : BitsetPtr) : C BitsetStruct := do
  let structs ← h.structs.read b.block
  fetch structs b.offset

/-- `b->bits[i]`. -/
def word (h : BitsetHeap) (b : BitsetPtr) (i : ℕ) : C Word := do
  let s ← h.deref b
  let words ← h.arrays.read s.bits
  match ← fetch words i with
  | some w => return w
  | none => .error .undefined

/-- `b->bits[i] = w`. -/
def setWord (h : BitsetHeap) (b : BitsetPtr) (i : ℕ) (w : Word) : C BitsetHeap := do
  let s ← h.deref b
  let words ← h.arrays.read s.bits
  let words ← store words i (some w)
  let arrays ← h.arrays.write s.bits words
  return { h with arrays }

/-- `free(b)`: the pointer to the start of a block frees it. -/
def free (h : BitsetHeap) (b : BitsetPtr) : C BitsetHeap :=
  if b.offset = 0 then do
    let structs ← h.structs.free b.block
    return { h with structs }
  else .error .undefined

/-- A bitset of `size` bits that are not initialized. -/
def bitsetCreateNoDefault (h : BitsetHeap) (size : ℤ) : C (BitsetPtr × BitsetHeap) := do
  let integerCount ← allocWords size
  let (bits, arrays) := h.arrays.alloc (List.replicate integerCount none)
  let (block, structs) := h.structs.alloc [⟨integerCount, bits⟩]
  return (⟨block, 0⟩, ⟨structs, arrays⟩)

/-- The loop shared by the operators: word `i` of the result is computed from the operands. -/
def setWords (wordAt : BitsetHeap → ℕ → C Word) (c : BitsetPtr) (size : ℕ) (h : BitsetHeap) :
    C BitsetHeap :=
  (List.range size).foldlM (fun h i => do
    let w ← wordAt h i
    h.setWord c i w) h

/-- The complement, word by word. -/
def bitsetComplement (h : BitsetHeap) (b : BitsetPtr) : C (BitsetPtr × BitsetHeap) := do
  let s ← h.deref b
  let (c, h) ← h.bitsetCreateNoDefault (toInt (s.integerCount * integerBitSize))
  let h ← h.setWords (fun h i => do
    let w ← h.word b i
    return ~~~w) c s.integerCount
  return (c, h)

/-- A binary operator: the words of the shorter operand are combined with those of the other. -/
def bitsetZip (f : Word → Word → Word) (h : BitsetHeap) (b1 b2 : BitsetPtr) :
    C (BitsetPtr × BitsetHeap) := do
  let s1 ← h.deref b1
  let s2 ← h.deref b2
  let size := if s1.integerCount > s2.integerCount then s2.integerCount else s1.integerCount
  let (c, h) ← h.bitsetCreateNoDefault (toInt (size * integerBitSize))
  let h ← h.setWords (fun h i => do
    let w1 ← h.word b1 i
    let w2 ← h.word b2 i
    return f w1 w2) c size
  return (c, h)

/-- The intersection, word by word. -/
def bitsetIntersection : BitsetHeap → BitsetPtr → BitsetPtr → C (BitsetPtr × BitsetHeap) :=
  bitsetZip (· &&& ·)

/-- The union, word by word. -/
def bitsetUnion : BitsetHeap → BitsetPtr → BitsetPtr → C (BitsetPtr × BitsetHeap) :=
  bitsetZip (· ||| ·)

/-- The difference, word by word. -/
def bitsetDifference : BitsetHeap → BitsetPtr → BitsetPtr → C (BitsetPtr × BitsetHeap) :=
  bitsetZip fun w1 w2 => w1 &&& ~~~w2

/-- A result is freed where it is marked for it. -/
def release (h : BitsetHeap) (r : SetOpPtr) : C BitsetHeap := if r.free then h.free r.bs else .ok h

/-- The operands of a binary operator are freed where they are marked for it. -/
def freeBitsets (h : BitsetHeap) (rbl rbr : SetOpPtr) : C BitsetHeap := do
  let h ← h.release rbl
  h.release rbr

/-- The case of `db_run_set_operation` shared by the binary operators. -/
def runBinary (op : BitsetHeap → BitsetPtr → BitsetPtr → C (BitsetPtr × BitsetHeap))
    (left right : BitsetHeap → C (SetOpPtr × BitsetHeap)) (h : BitsetHeap) :
    C (SetOpPtr × BitsetHeap) := do
  let (rbl, h) ← left h
  let (rbr, h) ← right h
  let (result, h) ← op h rbl.bs rbr.bs
  let h ← h.freeBitsets rbl rbr
  return (⟨result, true⟩, h)

/-- The evaluation of a tree over the sets at the pointer `sets`. An unknown operation returns an
uninitialized result. -/
def dbRunSetOperation (db : Database) (sets : ℕ) :
    SetOp → BitsetHeap → C (SetOpPtr × BitsetHeap)
  | .null, _ => .error .nullDeref
  | .node true none _ _ _, _ => .error .nullDeref
  | .node true (some setName) _ _ _, h =>
    match stSearch db.setNamesTable setName with
    | none => .error .nullDeref
    | some tb => .ok (⟨⟨sets, tb.index⟩, false⟩, h)
  | .node false _ leftOp rightOp opType, h =>
    if opType = opComplement then do
      let (rbl, h) ← dbRunSetOperation db sets leftOp h
      let (result, h) ← h.bitsetComplement rbl.bs
      let h ← h.release rbl
      return (⟨result, true⟩, h)
    else if opType = opUnion then
      runBinary bitsetUnion (dbRunSetOperation db sets leftOp)
        (dbRunSetOperation db sets rightOp) h
    else if opType = opIntersection then
      runBinary bitsetIntersection (dbRunSetOperation db sets leftOp)
        (dbRunSetOperation db sets rightOp) h
    else if opType = opDifference then
      runBinary bitsetDifference (dbRunSetOperation db sets leftOp)
        (dbRunSetOperation db sets rightOp) h
    else .error .undefined

/-! ## Bitsets in the heap -/

/-- The pointer is to a bitset of these words. -/
def Loads (h : BitsetHeap) (p : BitsetPtr) (b : Bitset) : Prop :=
  ∃ structs s, h.structs.block p.block = some structs ∧ structs[p.offset]? = some s ∧
    s.integerCount = b.integerCount ∧ h.arrays.block s.bits = some (b.bits.map some)

/-- The sets of a database are in the heap, in the order of their indices. -/
def Holds (h : BitsetHeap) (sets : ℕ) (db : Database) : Prop :=
  ∀ i b, db.sets[i]? = some b → h.Loads ⟨sets, i⟩ b

/-- What code does to the heap that owns the structs `ps` at its end. The arrays it allocates are
not freed. -/
structure Grows (h h' : BitsetHeap) (ps : List ℕ) : Prop where
  structs : h.structs.Owns h'.structs ps
  arrays : ∀ q words, h.arrays.block q = some words → h'.arrays.block q = some words

variable {h h' h'' : BitsetHeap} {p c : BitsetPtr} {b b1 b2 : Bitset} {ps qs : List ℕ} {n : ℕ}

theorem Grows.refl (h : BitsetHeap) : Grows h h [] := ⟨.refl _, fun _ _ hq => hq⟩

theorem Grows.trans (hg : Grows h h' ps) (hg' : Grows h' h'' qs) : Grows h h'' (qs ++ ps) :=
  ⟨hg.structs.trans hg'.structs, fun q words hq => hg'.arrays q words (hg.arrays q words hq)⟩

/-- A bitset stays where it is. -/
theorem Grows.loads (hg : Grows h h' ps) (hb : h.Loads p b) : h'.Loads p b := by
  obtain ⟨structs, s, hblock, hs, hcount, hwords⟩ := hb
  exact ⟨structs, s, hg.structs.block_eq hblock, hs, hcount, hg.arrays _ _ hwords⟩

theorem Grows.holds {sets : ℕ} {db : Database} (hg : Grows h h' ps) (hh : h.Holds sets db) :
    h'.Holds sets db := fun i b hb => hg.loads (hh i b hb)

theorem deref_eq_ok {structs : List BitsetStruct} {s : BitsetStruct}
    (hblock : h.structs.block p.block = some structs) (hs : structs[p.offset]? = some s) :
    h.deref p = .ok s := by
  rw [deref, Heap.read_eq_ok.mpr hblock, ok_bind, fetch_eq_ok.mpr hs]

theorem Loads.exists_deref (hb : h.Loads p b) :
    ∃ s, h.deref p = .ok s ∧ s.integerCount = b.integerCount := by
  obtain ⟨structs, s, hblock, hs, hcount, -⟩ := hb
  exact ⟨s, deref_eq_ok hblock hs, hcount⟩

theorem Loads.word_eq (hb : h.Loads p b) {i : ℕ} {w : Word} (hw : b.bits[i]? = some w) :
    h.word p i = .ok w := by
  obtain ⟨structs, s, hblock, hs, -, hwords⟩ := hb
  have hfetch : fetch (b.bits.map some) i = .ok (some w) :=
    fetch_eq_ok.mpr (by rw [List.getElem?_map, hw, Option.map_some])
  rw [word, deref_eq_ok hblock hs, ok_bind, Heap.read_eq_ok.mpr hwords, ok_bind, hfetch, ok_bind]
  rfl

/-! ## The operators -/

/-- The heap with one array changed at most. -/
structure Beside (bits : ℕ) (h h' : BitsetHeap) : Prop where
  structs : h'.structs = h.structs
  arrays : ∀ q, q ≠ bits → h'.arrays.block q = h.arrays.block q

theorem Beside.refl (bits : ℕ) (h : BitsetHeap) : Beside bits h h := ⟨rfl, fun _ _ => rfl⟩

theorem Beside.trans {bits : ℕ} (hb : Beside bits h h') (hb' : Beside bits h' h'') :
    Beside bits h h'' :=
  ⟨hb'.structs.trans hb.structs, fun q hq => (hb'.arrays q hq).trans (hb.arrays q hq)⟩

/-- What the array of a result holds before step `i` of the loop over its words. -/
def filled (ws : List Word) (i : ℕ) : List (Option Word) :=
  (ws.take i).map some ++ List.replicate (ws.length - i) none

theorem filled_set {ws : List Word} {i : ℕ} (hi : i < ws.length) :
    (filled ws i).set i (some ws[i]) = filled ws (i + 1) := by
  have hlen : ((ws.take i).map some).length = i := by
    rw [List.length_map, List.length_take, Nat.min_eq_left (Nat.le_of_lt hi)]
  have hrest : ws.length - i = ws.length - (i + 1) + 1 := by omega
  have htake : (ws.take (i + 1)).map some = (ws.take i).map some ++ [some ws[i]] := by
    rw [List.take_succ_eq_append_getElem hi, List.map_append]
    rfl
  rw [filled, filled, List.set_append_right _ _ (Nat.le_of_eq hlen), hlen, Nat.sub_self, hrest,
    List.replicate_succ, List.set_cons_zero, htake, List.append_assoc, List.singleton_append]

/-- One word of a result is written. -/
theorem exists_setWord {s : BitsetStruct} {ws : List Word} {i : ℕ} (hi : i < ws.length)
    (hc : h.deref c = .ok s) (harray : h.arrays.block s.bits = some (filled ws i)) :
    ∃ h', h.setWord c i ws[i] = .ok h' ∧ Beside s.bits h h' ∧
      h'.arrays.block s.bits = some (filled ws (i + 1)) := by
  have hlt : i < (filled ws i).length := by
    rw [filled, List.length_append, List.length_map, List.length_take, List.length_replicate]
    omega
  obtain ⟨arrays, hwrite, hblock⟩ := Heap.exists_write harray (filled ws (i + 1))
  refine ⟨⟨h.structs, arrays⟩, ?_, ⟨rfl, fun q hq => ?_⟩, ?_⟩
  · rw [setWord, hc, ok_bind, Heap.read_eq_ok.mpr harray, ok_bind, store_of_lt hlt, ok_bind,
      filled_set hi, hwrite, ok_bind]
    rfl
  · rw [hblock, if_neg hq]
  · rw [hblock, if_pos rfl]

/-- **The loop over the words of a result**: each word is written once, and nothing else is. -/
theorem exists_setWords {s : BitsetStruct} (ws : List Word) (wordAt : BitsetHeap → ℕ → C Word)
    (hc : h.deref c = .ok s) (harray : h.arrays.block s.bits = some (filled ws 0))
    (hw : ∀ h', Beside s.bits h h' → ∀ i (hi : i < ws.length), wordAt h' i = .ok ws[i]) :
    ∃ h', h.setWords wordAt c ws.length = .ok h' ∧ Beside s.bits h h' ∧
      h'.arrays.block s.bits = some (ws.map some) := by
  have step : ∀ i t, i < ws.length →
      Beside s.bits h t ∧ t.arrays.block s.bits = some (filled ws i) →
      ∃ t', (do let w ← wordAt t i; t.setWord c i w) = .ok t' ∧
        Beside s.bits h t' ∧ t'.arrays.block s.bits = some (filled ws (i + 1)) := by
    rintro i t hi ⟨ht, hfilled⟩
    have hderef : t.deref c = .ok s := by rw [deref, ht.structs, ← deref, hc]
    obtain ⟨t', hset, hbeside, hfilled'⟩ := exists_setWord hi hderef hfilled
    exact ⟨t', by rw [hw t ht i hi, ok_bind, hset], ht.trans hbeside, hfilled'⟩
  -- before step `i` the first `i` words are written, the others uninitialized
  obtain ⟨h', hloop, hbeside, hwords⟩ := foldlM_range
    (R := fun i h' => Beside s.bits h h' ∧ h'.arrays.block s.bits = some (filled ws i))
    ⟨.refl _ h, harray⟩ step
  refine ⟨h', hloop, hbeside, ?_⟩
  rw [hwords, filled, List.take_length, Nat.sub_self, List.replicate_zero, List.append_nil]

/-- **A result is in a fresh struct and a fresh array.** -/
theorem exists_create (ws : List Word) (wordAt : BitsetHeap → ℕ → C Word)
    (hn : Bitset.Stable ws.length)
    (hw : ∀ h', (∀ p b, h.Loads p b → h'.Loads p b) →
      ∀ i (hi : i < ws.length), wordAt h' i = .ok ws[i]) :
    ∃ c h' h'', h.bitsetCreateNoDefault (toInt (ws.length * integerBitSize)) = .ok (c, h') ∧
      h'.setWords wordAt c ws.length = .ok h'' ∧ c.offset = 0 ∧ Grows h h'' [c.block] ∧
      h''.Loads c ⟨ws⟩ := by
  let bits := h.arrays.next
  let h' : BitsetHeap := ⟨(h.structs.alloc [⟨ws.length, bits⟩]).2,
    (h.arrays.alloc (List.replicate ws.length none)).2⟩
  let c : BitsetPtr := ⟨h.structs.next, 0⟩
  have hstruct : h'.structs.block c.block = some [⟨ws.length, bits⟩] := Heap.block_alloc_self
  have harray : h'.arrays.block bits = some (filled ws 0) := Heap.block_alloc_self
  have howns : h.structs.Owns h'.structs [c.block] := Heap.owns_alloc _ _
  have hold : ∀ t, Beside bits h' t → ∀ q words, h.arrays.block q = some words →
      t.arrays.block q = some words := by
    intro t ht q words hq
    have hne : q ≠ bits := Nat.ne_of_lt (Heap.lt_next_of_block hq)
    rw [ht.arrays q hne]
    exact (Heap.block_alloc_of_ne hne).trans hq
  have hgrows : ∀ t, Beside bits h' t → Grows h t [c.block] := fun t ht =>
    ⟨ht.structs ▸ howns, hold t ht⟩
  obtain ⟨h'', hloop, hbeside, hwords⟩ := exists_setWords (h := h') (c := c) ws wordAt
    (deref_eq_ok hstruct rfl) harray fun t ht => hw t fun p b hb => (hgrows t ht).loads hb
  refine ⟨c, h', h'', ?_, hloop, rfl, hgrows h'' hbeside, [⟨ws.length, bits⟩], _, ?_, rfl, rfl,
    hwords⟩
  · rw [bitsetCreateNoDefault, Bitset.allocWords_of_stable hn]
    rfl
  · rw [hbeside.structs]
    exact hstruct

theorem loads_complement (hb : h.Loads p b) (hn : Bitset.Stable b.integerCount) :
    ∃ c h', h.bitsetComplement p = .ok (c, h') ∧ c.offset = 0 ∧ Grows h h' [c.block] ∧
      h'.Loads c ⟨b.bits.map (~~~ ·)⟩ := by
  have hlen : (b.bits.map (~~~ ·)).length = b.integerCount := List.length_map _
  obtain ⟨s, hderef, hcount⟩ := hb.exists_deref
  obtain ⟨c, h', h'', hcreate, hloop, hrest⟩ := exists_create (h := h) (b.bits.map (~~~ ·))
    (fun h i => do let w ← h.word p i; return ~~~w) (hlen ▸ hn) fun t ht i hi => by
      have hi' : i < b.bits.length := by rwa [List.length_map] at hi
      rw [(ht p b hb).word_eq (List.getElem?_eq_getElem hi'), ok_bind, List.getElem_map]
      rfl
  rw [hlen, ← hcount] at hcreate hloop
  refine ⟨c, h'', ?_, hrest⟩
  rw [bitsetComplement, hderef, ok_bind, hcreate, ok_bind]
  exact congrArg (· >>= _) hloop

theorem loads_zip {p1 p2 : BitsetPtr} (f : Word → Word → Word) (hb1 : h.Loads p1 b1)
    (hb2 : h.Loads p2 b2) (hn : Bitset.Stable b1.integerCount)
    (hlen : b2.integerCount = b1.integerCount) :
    ∃ c h', bitsetZip f h p1 p2 = .ok (c, h') ∧ c.offset = 0 ∧ Grows h h' [c.block] ∧
      h'.Loads c ⟨List.zipWith f b1.bits b2.bits⟩ := by
  have hzip : (List.zipWith f b1.bits b2.bits).length = b1.integerCount := by
    rw [List.length_zipWith]
    exact (congrArg (min _) hlen).trans (min_self _)
  obtain ⟨s1, hderef1, hcount1⟩ := hb1.exists_deref
  obtain ⟨s2, hderef2, hcount2⟩ := hb2.exists_deref
  obtain ⟨c, h', h'', hcreate, hloop, hrest⟩ := exists_create (h := h)
    (List.zipWith f b1.bits b2.bits)
    (fun h i => do let w1 ← h.word p1 i; let w2 ← h.word p2 i; return f w1 w2)
    (hzip ▸ hn) fun t ht i hi => by
      rw [List.length_zipWith] at hi
      have hi1 : i < b1.bits.length := Nat.lt_of_lt_of_le hi (Nat.min_le_left _ _)
      have hi2 : i < b2.bits.length := Nat.lt_of_lt_of_le hi (Nat.min_le_right _ _)
      rw [(ht p1 b1 hb1).word_eq (List.getElem?_eq_getElem hi1), ok_bind,
        (ht p2 b2 hb2).word_eq (List.getElem?_eq_getElem hi2), ok_bind, List.getElem_zipWith]
      rfl
  have hsize : (if s1.integerCount > s2.integerCount then s2.integerCount else s1.integerCount) =
      b1.integerCount := by
    rw [hcount1, hcount2, hlen, ite_self]
  rw [hzip] at hcreate hloop
  refine ⟨c, h'', ?_, hrest⟩
  rw [bitsetZip, hderef1, ok_bind, hderef2, ok_bind, hsize]
  dsimp only
  rw [hcreate, ok_bind]
  exact congrArg (· >>= _) hloop

/-! ## Freeing -/

/-- **An intermediate result can be freed**, and every other bitset stays where it is. -/
theorem exists_release {r : SetOpPtr} (hr : r.free = true → r.bs.offset = 0)
    (hg : Grows h h' (ps ++ (r.owned ++ qs))) :
    ∃ h'', h'.release r = .ok h'' ∧ Grows h h'' (ps ++ qs) ∧
      ∀ p b, p.block ∉ r.owned → h'.Loads p b → h''.Loads p b := by
  unfold release SetOpPtr.owned at *
  by_cases hfree : r.free = true
  · rw [if_pos hfree] at hg ⊢
    obtain ⟨structs, hstructs, howns, hother⟩ := hg.structs.exists_free
    refine ⟨⟨structs, h'.arrays⟩, ?_, ⟨howns, hg.arrays⟩, fun p b hp hb => ?_⟩
    · rw [free, if_pos (hr hfree), hstructs]
      rfl
    · obtain ⟨block, s, hblock, hrest⟩ := hb
      rw [if_pos hfree, List.mem_singleton] at hp
      exact ⟨block, s, (hother _ hp).trans hblock, hrest⟩
  · rw [if_neg hfree, List.nil_append] at hg
    exact ⟨h', if_neg hfree, hg, fun p b _ hb => hb⟩

/-! ## Evaluation -/

section Evaluation

variable {db : Database} {sets : ℕ} {r : SetOpPtr}

/-- What the evaluation of a tree to a bitset leaves in the heap: the struct of an intermediate
result, and no other. -/
structure Leaves (db : Database) (sets : ℕ) (h h' : BitsetHeap) (r : SetOpPtr) (b : Bitset) :
    Prop where
  grows : Grows h h' r.owned
  loads : h'.Loads r.bs b
  start : r.free = true → r.bs.offset = 0
  stored : r.free = false → ∃ i < db.sets.length, r.bs = ⟨sets, i⟩

/-- The evaluation `run` of an operand reaches the result of the evaluation by values. -/
def Runs (db : Database) (sets : ℕ) (run : BitsetHeap → C (SetOpPtr × BitsetHeap))
    (r : SetOpReturn) : Prop :=
  ∀ h : BitsetHeap, h.Holds sets db →
    ∃ bs h', run h = .ok (⟨bs, r.free⟩, h') ∧ Leaves db sets h h' ⟨bs, r.free⟩ r.bs

/-- **A leaf points into the database.** -/
theorem runs_leaf {name : Bytes} {d : TableData} (hd : stSearch db.setNamesTable name = some d)
    (hb : db.sets[d.index]? = some b) :
    Runs db sets (dbRunSetOperation db sets (createSetOpLeave name)) ⟨b, false⟩ := by
  intro h hh
  refine ⟨⟨sets, d.index⟩, h, ?_, .refl h, hh _ _ hb, nofun, fun _ => ⟨d.index, ?_, rfl⟩⟩
  · rw [createSetOpLeave, dbRunSetOperation, hd]
  · exact (List.getElem?_eq_some_iff.mp hb).1

/-- **An inner node with one operand** frees the intermediate result it has used. -/
theorem runs_complement {rbl : SetOpReturn} {leftOp : SetOp} {setName : Option Bytes}
    (hl : Runs db sets (dbRunSetOperation db sets leftOp) rbl)
    (hn : Bitset.Stable rbl.bs.integerCount) :
    Runs db sets (dbRunSetOperation db sets (.node false setName leftOp .null opComplement))
      ⟨⟨rbl.bs.bits.map (~~~ ·)⟩, true⟩ := by
  intro h hh
  obtain ⟨p, h₁, hrun, hleaves⟩ := hl h hh
  obtain ⟨c, h₂, hop, hstart, hgrows, hc⟩ := loads_complement hleaves.loads hn
  have hboth : Grows h h₂ ([c.block] ++ ((⟨p, rbl.free⟩ : SetOpPtr).owned ++ [])) := by
    rw [List.append_nil]
    exact hleaves.grows.trans hgrows
  obtain ⟨h₃, hrelease, hgrows₃, hloads⟩ := exists_release hleaves.start hboth
  have hne : c.block ∉ (⟨p, rbl.free⟩ : SetOpPtr).owned := by
    rw [List.append_nil] at hboth
    exact (List.nodup_cons.mp hboth.structs.nodup).1
  refine ⟨c, h₃, ?_, hgrows₃, hloads c _ hne hc, fun _ => hstart, nofun⟩
  rw [dbRunSetOperation, if_pos rfl, hrun, ok_bind]
  dsimp only
  rw [hop, ok_bind]
  dsimp only
  rw [hrelease, ok_bind]
  rfl

/-- **An inner node with two operands** frees the intermediate results among them, once each: they
are different structs. -/
theorem runs_binary {f : Word → Word → Word} {rbl rbr : SetOpReturn}
    {left right : BitsetHeap → C (SetOpPtr × BitsetHeap)} (hl : Runs db sets left rbl)
    (hr : Runs db sets right rbr) (hn : Bitset.Stable rbl.bs.integerCount)
    (hlen : rbr.bs.integerCount = rbl.bs.integerCount) :
    Runs db sets (runBinary (bitsetZip f) left right)
      ⟨⟨List.zipWith f rbl.bs.bits rbr.bs.bits⟩, true⟩ := by
  intro h hh
  obtain ⟨pl, h₁, hrunl, hleft⟩ := hl h hh
  obtain ⟨pr, h₂, hrunr, hright⟩ := hr h₁ (hleft.grows.holds hh)
  obtain ⟨c, h₃, hop, hstart, hgrows, hc⟩ :=
    loads_zip f (hright.grows.loads hleft.loads) hright.loads hn hlen
  have hall : Grows h h₃ ([c.block] ++ ((⟨pr, rbr.free⟩ : SetOpPtr).owned ++
      (⟨pl, rbl.free⟩ : SetOpPtr).owned)) := (hleft.grows.trans hright.grows).trans hgrows
  have hne : c.block ∉ (⟨pr, rbr.free⟩ : SetOpPtr).owned ++ (⟨pl, rbl.free⟩ : SetOpPtr).owned :=
    (List.nodup_cons.mp hall.structs.nodup).1
  rw [List.mem_append, not_or] at hne
  have hall' : Grows h h₃ (([c.block] ++ (⟨pr, rbr.free⟩ : SetOpPtr).owned) ++
      ((⟨pl, rbl.free⟩ : SetOpPtr).owned ++ [])) := by
    rwa [List.append_nil, List.append_assoc]
  obtain ⟨h₄, hreleasel, hgrows₄, hloads₄⟩ := exists_release hleft.start hall'
  rw [List.append_assoc] at hgrows₄
  obtain ⟨h₅, hreleaser, hgrows₅, hloads₅⟩ := exists_release hright.start hgrows₄
  refine ⟨c, h₅, ?_, hgrows₅, hloads₅ c _ hne.1 (hloads₄ c _ hne.2 hc), fun _ => hstart, nofun⟩
  rw [runBinary, hrunl, ok_bind]
  dsimp only
  rw [hrunr, ok_bind]
  dsimp only
  rw [hop, ok_bind]
  dsimp only
  rw [freeBitsets, hreleasel, ok_bind, hreleaser, ok_bind]
  rfl

/-- The values of two operands have as many words as each other, and are combined word by word. -/
theorem bitsetZip_operands (hinv : Inv db) {l r : SetExpr Bytes} {rbl rbr : SetOpReturn}
    (f : Word → Word → Word)
    (h : ∀ s ∈ l.leaves ++ r.leaves, (stSearch db.setNamesTable s).isSome)
    (hrbl : SetQL.dbRunSetOperation db l.toSetOp = .ok rbl)
    (hrbr : SetQL.dbRunSetOperation db r.toSetOp = .ok rbr) :
    rbr.bs.integerCount = rbl.bs.integerCount ∧ Bitset.Stable rbl.bs.integerCount ∧
      SetQL.bitsetZip f rbl.bs rbr.bs = .ok ⟨List.zipWith f rbl.bs.bits rbr.bs.bits⟩ := by
  obtain ⟨rbl', hrbl', hl⟩ := dbRunSetOperation_toSetOp hinv l fun s hs =>
    h s (List.mem_append_left _ hs)
  obtain ⟨rbr', hrbr', hr⟩ := dbRunSetOperation_toSetOp hinv r fun s hs =>
    h s (List.mem_append_right _ hs)
  obtain rfl := Except.ok.inj (hrbl.symm.trans hrbl')
  obtain rfl := Except.ok.inj (hrbr.symm.trans hrbr')
  have hlen := hr.words.trans hl.words.symm
  exact ⟨hlen, hinv.stable hl.words, Bitset.bitsetZip_eq_ok f (hinv.stable hl.words) hlen⟩

/-- A node with two operands runs when its operands do. -/
theorem runs_operands (hinv : Inv db) {l r : SetExpr Bytes} (f : Word → Word → Word)
    (h : ∀ s ∈ l.leaves ++ r.leaves, (stSearch db.setNamesTable s).isSome)
    (ihl : (∀ s ∈ l.leaves, (stSearch db.setNamesTable s).isSome) →
      ∃ rbl, SetQL.dbRunSetOperation db l.toSetOp = .ok rbl ∧
        Runs db sets (dbRunSetOperation db sets l.toSetOp) rbl)
    (ihr : (∀ s ∈ r.leaves, (stSearch db.setNamesTable s).isSome) →
      ∃ rbr, SetQL.dbRunSetOperation db r.toSetOp = .ok rbr ∧
        Runs db sets (dbRunSetOperation db sets r.toSetOp) rbr) :
    ∃ rbl rbr, SetQL.dbRunSetOperation db l.toSetOp = .ok rbl ∧
      SetQL.dbRunSetOperation db r.toSetOp = .ok rbr ∧
      SetQL.bitsetZip f rbl.bs rbr.bs = .ok ⟨List.zipWith f rbl.bs.bits rbr.bs.bits⟩ ∧
      Runs db sets (runBinary (bitsetZip f) (dbRunSetOperation db sets l.toSetOp)
        (dbRunSetOperation db sets r.toSetOp))
        ⟨⟨List.zipWith f rbl.bs.bits rbr.bs.bits⟩, true⟩ := by
  obtain ⟨rbl, hrbl, hl⟩ := ihl fun s hs => h s (List.mem_append_left _ hs)
  obtain ⟨rbr, hrbr, hr⟩ := ihr fun s hs => h s (List.mem_append_right _ hs)
  obtain ⟨hlen, hn, hop⟩ := bitsetZip_operands hinv f h hrbl hrbr
  exact ⟨rbl, rbr, hrbl, hrbr, hop, runs_binary hl hr hn hlen⟩

/-- **Every tree with known leaves runs over the heap** to the value it has without one. -/
theorem runs_toSetOp (sets : ℕ) (hinv : Inv db) (e : SetExpr Bytes)
    (h : ∀ s ∈ e.leaves, (stSearch db.setNamesTable s).isSome) :
    ∃ r, SetQL.dbRunSetOperation db e.toSetOp = .ok r ∧
      Runs db sets (dbRunSetOperation db sets e.toSetOp) r := by
  induction e with
  | name s =>
    obtain ⟨d, hd⟩ := Option.isSome_iff_exists.mp (h s (List.mem_singleton_self s))
    obtain ⟨b, hb, -⟩ := hinv.exists_set hd
    refine ⟨⟨b, false⟩, ?_, runs_leaf hd hb⟩
    simp only [SetExpr.toSetOp, createSetOpLeave, SetQL.dbRunSetOperation, hd, fetch_eq_ok.mpr hb,
      ok_bind, pure_eq_ok]
  | complement e ih =>
    obtain ⟨rbl, hrbl, hl⟩ := ih h
    obtain ⟨rbl', hrbl', hev⟩ := dbRunSetOperation_toSetOp hinv e h
    obtain rfl := Except.ok.inj (hrbl.symm.trans hrbl')
    have hn := hinv.stable hev.words
    refine ⟨_, ?_, runs_complement hl hn⟩
    simp [SetExpr.toSetOp, SetQL.dbRunSetOperation, hrbl, Bitset.bitsetComplement_eq_ok hn]
  | union l r ihl ihr =>
    obtain ⟨rbl, rbr, hrbl, hrbr, hop, hruns⟩ := runs_operands hinv (· ||| ·) h ihl ihr
    exact ⟨_, by simp [SetExpr.toSetOp, SetQL.dbRunSetOperation, opUnion, opComplement, hrbl,
      hrbr, SetQL.bitsetUnion, hop], hruns⟩
  | intersection l r ihl ihr =>
    obtain ⟨rbl, rbr, hrbl, hrbr, hop, hruns⟩ := runs_operands hinv (· &&& ·) h ihl ihr
    exact ⟨_, by simp [SetExpr.toSetOp, SetQL.dbRunSetOperation, opUnion, opComplement,
      opIntersection, hrbl, hrbr, SetQL.bitsetIntersection, hop], hruns⟩
  | difference l r ihl ihr =>
    obtain ⟨rbl, rbr, hrbl, hrbr, hop, hruns⟩ :=
      runs_operands hinv (fun w1 w2 => w1 &&& ~~~w2) h ihl ihr
    exact ⟨_, by simp [SetExpr.toSetOp, SetQL.dbRunSetOperation, opUnion, opComplement,
      opIntersection, opDifference, hrbl, hrbr, SetQL.bitsetDifference, hop], hruns⟩

/-- The evaluation has left the heap as it was, but for its result: a live block keeps its content,
and of the structs allocated since then only a result to be freed is live. -/
structure Undisturbed (db : Database) (sets : ℕ) (h h' : BitsetHeap) (r : SetOpPtr) : Prop where
  structs : ∀ q block, h.structs.block q = some block → h'.structs.block q = some block
  arrays : ∀ q words, h.arrays.block q = some words → h'.arrays.block q = some words
  freed : ∀ q, h.structs.block q = none →
    ((h'.structs.block q).isSome ↔ r.free = true ∧ q = r.bs.block)
  stored : r.free = false ↔ ∃ i < db.sets.length, r.bs = ⟨sets, i⟩

theorem Leaves.undisturbed (hh : h.Holds sets db) (hl : Leaves db sets h h' r b) :
    Undisturbed db sets h h' r := by
  have howned : ∀ q, q ∈ r.owned ↔ r.free = true ∧ q = r.bs.block := by
    intro q
    unfold SetOpPtr.owned
    split_ifs with hfree <;> simp [hfree]
  refine ⟨fun _ _ => hl.grows.structs.block_eq, hl.grows.arrays, fun q hq => ?_, hl.stored, ?_⟩
  · rw [← howned]
    constructor
    · intro hlive
      by_contra hnot
      rw [hl.grows.structs.frame q hnot, hq] at hlive
      cases hlive
    · exact hl.grows.structs.live q
  · rintro ⟨i, hi, hr⟩
    obtain ⟨block, s, hblock, -⟩ := hh i _ (List.getElem?_eq_getElem hi)
    by_contra hfree
    have hmem := (howned r.bs.block).mpr ⟨Bool.eq_true_of_not_eq_false hfree, rfl⟩
    exact hl.grows.structs.not_mem hblock (by rwa [hr] at hmem)

/-- **The evaluation of a tree frees and alters no stored set.** It returns, so it reads live blocks
only and frees none twice; every block that was live is as it was, so the sets of the database are;
and no struct that it allocated is left but its result. The result is a set of the database exactly
if it is not to be freed, and is the value of the tree. -/
theorem dbRunSetOperation_undisturbed {m s a : ℕ} {db₀ : Database} {ops : List Op}
    (h₀ : createEmptyDB m s a = .ok db₀) (hrun : run db₀ ops = .ok db) (hh : h.Holds sets db)
    (e : SetExpr Bytes) (hleaves : ∀ s ∈ e.leaves, (stSearch db.setNamesTable s).isSome) :
    ∃ r h' b, dbRunSetOperation db sets e.toSetOp h = .ok (r, h') ∧
      Undisturbed db sets h h' r ∧ h'.Holds sets db ∧
      SetQL.dbRunSetOperation db e.toSetOp = .ok ⟨b, r.free⟩ ∧ h'.Loads r.bs b := by
  have hinv := inv_run (inv_createEmptyDB h₀) hrun
  obtain ⟨⟨b, free⟩, hvalue, hruns⟩ := runs_toSetOp sets hinv e hleaves
  obtain ⟨bs, h', hreturn, hl⟩ := hruns h hh
  exact ⟨⟨bs, free⟩, h', b, hreturn, hl.undisturbed hh, hl.grows.holds hh, hvalue, hl.loads⟩

/-- A heap with one set of one word. -/
def oneSet : BitsetHeap := ⟨⟨[some [⟨1, 0⟩]]⟩, ⟨[some [some 0]]⟩⟩

theorem dbRunSetOperation_undisturbed_one :
    ∃ db₀ db, createEmptyDB 1 1 1 = .ok db₀ ∧ run db₀ [.createSet (lit "S")] = .ok db ∧
      ∃ r h' b, dbRunSetOperation db 0
          (SetExpr.union (.name (lit "S")) (.complement (.name (lit "S")))).toSetOp oneSet =
            .ok (r, h') ∧
        Undisturbed db 0 oneSet h' r ∧ h'.Holds 0 db ∧
        SetQL.dbRunSetOperation db
          (SetExpr.union (.name (lit "S")) (.complement (.name (lit "S")))).toSetOp =
            .ok ⟨b, r.free⟩ ∧ h'.Loads r.bs b := by
  refine ⟨_, _, createEmptyDB_one, rfl, dbRunSetOperation_undisturbed createEmptyDB_one
    (show run _ [.createSet (lit "S")] = .ok _ from rfl) ?_ _ (by decide)⟩
  intro i b hb
  obtain ⟨rfl, rfl⟩ : i = 0 ∧ b = ⟨[0]⟩ := by
    match i with
    | 0 => exact ⟨rfl, (Option.some.inj hb).symm⟩
    | i + 1 => cases hb
  exact ⟨_, _, rfl, rfl, rfl, rfl⟩

end Evaluation

end BitsetHeap

end SetQL
