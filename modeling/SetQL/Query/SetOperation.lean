import SetQL.DataStructures.Invariant
import SetQL.Spec.Store

/-!
# Set operations

`query_parser.c` builds trees of set operations, and `db_run_set_operation` evaluates them over
the sets of a database, the left operand first.

## Main definitions

* `SetOp`, `createSetOpLeave`, `createSetOp`: a pointer to a tree, and its constructors
* `SetExpr.toSetOp`: the tree of an expression
* `dbRunSetOperation`: the evaluation
* `Database.inSet`: the bit of a named set

## Main results

* `dbRunSetOperation_toSetOp`: with all its sets found, a tree evaluates bit by bit
* `dbRunSetOperation_unknown`: an unknown set is a null dereference, wherever it stands
-/

namespace SetQL

/-- `OP_COMPLEMENT`. -/
def opComplement : ℕ := 1

/-- `OP_UNION`. -/
def opUnion : ℕ := 2

/-- `OP_INTERSECTION`. -/
def opIntersection : ℕ := 3

/-- `OP_DIFFERENCE`. -/
def opDifference : ℕ := 4

/-- A pointer to a `set_op`. -/
inductive SetOp
  | null
  | node (isLeave : Bool) (setName : Option Bytes) (leftOp rightOp : SetOp) (opType : ℕ)
  deriving DecidableEq, Repr

/-- A leaf. -/
def createSetOpLeave (setName : Bytes) : SetOp := .node true (some setName) .null .null 0

/-- An inner node, null for an unknown operation. A complement is created without a right
operand. -/
def createSetOp (leftOp rightOp : SetOp) (opType : ℕ) : C SetOp :=
  if opType = opComplement then
    if rightOp = .null then .ok (.node false none leftOp .null opComplement) else .error .assertion
  else if opType = opUnion ∨ opType = opIntersection ∨ opType = opDifference then
    .ok (.node false none leftOp rightOp opType)
  else .ok .null

/-- The names at the leaves of a tree, from left to right. -/
def SetOp.leaves : SetOp → List Bytes
  | null => []
  | node true setName _ _ _ => setName.toList
  | node false _ leftOp rightOp _ => leftOp.leaves ++ rightOp.leaves

/-- The tree of an expression. -/
def SetExpr.toSetOp : SetExpr Bytes → SetOp
  | name s => createSetOpLeave s
  | complement e => .node false none e.toSetOp .null opComplement
  | union l r => .node false none l.toSetOp r.toSetOp opUnion
  | intersection l r => .node false none l.toSetOp r.toSetOp opIntersection
  | difference l r => .node false none l.toSetOp r.toSetOp opDifference

@[simp] theorem SetExpr.leaves_toSetOp (e : SetExpr Bytes) : e.toSetOp.leaves = e.leaves := by
  induction e with
  | name s => rfl
  | complement e ih => simp [toSetOp, SetOp.leaves, leaves, ih]
  | union l r ihl ihr | intersection l r ihl ihr | difference l r ihl ihr =>
    simp [toSetOp, SetOp.leaves, leaves, ihl, ihr]

/-- A bitset, and whether it is freed after its use. -/
structure SetOpReturn where
  bs : Bitset
  free : Bool
  deriving DecidableEq, Repr

/-- The evaluation of a tree. An unknown name dereferences the null result of its search, and an
unknown operation returns an uninitialized result. -/
def dbRunSetOperation (db : Database) : SetOp → C SetOpReturn
  | .null => .error .nullDeref
  | .node true none _ _ _ => .error .nullDeref
  | .node true (some setName) _ _ _ =>
    match stSearch db.setNamesTable setName with
    | none => .error .nullDeref
    | some tb => do
      let bs ← fetch db.sets tb.index
      return ⟨bs, false⟩
  | .node false _ leftOp rightOp opType =>
    if opType = opComplement then do
      let rbl ← dbRunSetOperation db leftOp
      let result ← bitsetComplement rbl.bs
      return ⟨result, true⟩
    else if opType = opUnion then do
      let rbl ← dbRunSetOperation db leftOp
      let rbr ← dbRunSetOperation db rightOp
      let result ← bitsetUnion rbl.bs rbr.bs
      return ⟨result, true⟩
    else if opType = opIntersection then do
      let rbl ← dbRunSetOperation db leftOp
      let rbr ← dbRunSetOperation db rightOp
      let result ← bitsetIntersection rbl.bs rbr.bs
      return ⟨result, true⟩
    else if opType = opDifference then do
      let rbl ← dbRunSetOperation db leftOp
      let rbr ← dbRunSetOperation db rightOp
      let result ← bitsetDifference rbl.bs rbr.bs
      return ⟨result, true⟩
    else .error .undefined

namespace Database

/-- Bit `i` of a named set, absent for an unknown one. -/
def inSet (db : Database) (name : Bytes) (i : ℕ) : Bool :=
  match stSearch db.setNamesTable name with
  | none => false
  | some d => (db.sets.getD d.index ⟨[]⟩).bit i

/-- The number of words of every set. -/
def wordCount (db : Database) : ℕ := ceilDivSingle db.maxKeyCount integerBitSize

theorem inSet_of_stSearch {db : Database} {name : Bytes} {d : TableData} {b : Bitset} {i : ℕ}
    (hd : stSearch db.setNamesTable name = some d) (hb : db.sets[d.index]? = some b) :
    db.inSet name i = b.bit i := by
  simp [inSet, hd, List.getD_eq_getElem?_getD, hb]

end Database

section Evaluation

variable {db : Database} {name : Bytes}

/-- A known name is the name of a set. -/
theorem Inv.exists_set (hinv : Inv db) {d : TableData}
    (hd : stSearch db.setNamesTable name = some d) :
    ∃ b, db.sets[d.index]? = some b ∧ b ∈ db.sets := by
  have hlt : d.index < db.sets.length := hinv.setNames.index_lt_count hd
  exact ⟨db.sets[d.index], List.getElem?_eq_getElem hlt, List.getElem_mem hlt⟩

theorem Inv.inSet_lt (hinv : Inv db) {i : ℕ} (h : db.inSet name i = true) :
    i < db.keyTable.entries.length := by
  cases hd : stSearch db.setNamesTable name with
  | none => simp [Database.inSet, hd] at h
  | some d =>
    obtain ⟨b, hb, hmem⟩ := hinv.exists_set hd
    rw [Database.inSet_of_stSearch hd hb] at h
    exact hinv.members b hmem i h

theorem Inv.inSet_lt_words (hinv : Inv db) {i : ℕ} (h : db.inSet name i = true) :
    i < 64 * db.wordCount := by
  cases hd : stSearch db.setNamesTable name with
  | none => simp [Database.inSet, hd] at h
  | some d =>
    obtain ⟨b, hb, hmem⟩ := hinv.exists_set hd
    rw [Database.inSet_of_stSearch hd hb] at h
    by_contra hle
    rw [Bitset.bit_of_le (by rw [hinv.words b hmem]; exact Nat.not_lt.mp hle)] at h
    exact absurd h (by decide)

/-- What the evaluation of an expression returns: as many words as every set has, and at each
bit the reading of the expression there. -/
structure Evaluates (db : Database) (e : SetExpr Bytes) (b : Bitset) : Prop where
  words : b.integerCount = db.wordCount
  bit : ∀ i < 64 * db.wordCount, b.bit i = e.evalBool fun s => db.inSet s i

theorem Inv.stable (hinv : Inv db) {b : Bitset} (hb : b.integerCount = db.wordCount) :
    Bitset.Stable b.integerCount := by
  rw [hb]
  exact Bitset.stable_ceilDivSingle hinv.size_le

theorem dbRunSetOperation_leaf (hinv : Inv db) {d : TableData}
    (hd : stSearch db.setNamesTable name = some d) :
    ∃ r, dbRunSetOperation db (createSetOpLeave name) = .ok r ∧ Evaluates db (.name name) r.bs := by
  obtain ⟨b, hb, hmem⟩ := hinv.exists_set hd
  refine ⟨⟨b, false⟩, ?_, hinv.words b hmem, fun i _ => ?_⟩
  · simp only [createSetOpLeave, dbRunSetOperation, hd, fetch_eq_ok.mpr hb, ok_bind, pure_eq_ok]
  · exact (Database.inSet_of_stSearch hd hb).symm

theorem evaluates_complement (hinv : Inv db) {e : SetExpr Bytes} {b : Bitset}
    (h : Evaluates db e b) :
    ∃ c, bitsetComplement b = .ok c ∧ Evaluates db (.complement e) c := by
  refine ⟨_, Bitset.bitsetComplement_eq_ok (hinv.stable h.words), ?_, fun i hi => ?_⟩
  · rw [Bitset.integerCount, List.length_map]
    exact h.words
  · rw [Bitset.bit_complement (by rw [h.words]; exact hi), h.bit i hi, SetExpr.evalBool]

/-- A binary operator of words that acts bit by bit evaluates the operator of expressions that
reads as its Boolean operator. -/
theorem evaluates_zip (hinv : Inv db) {f : Word → Word → Word} {g : Bool → Bool → Bool}
    (hf : ∀ (w1 w2 : Word) (j : ℕ), j < 64 → (f w1 w2).getLsbD j = g (w1.getLsbD j) (w2.getLsbD j))
    {l r e : SetExpr Bytes} (he : ∀ leaf, e.evalBool leaf = g (l.evalBool leaf) (r.evalBool leaf))
    {bl br : Bitset} (hl : Evaluates db l bl) (hr : Evaluates db r br) :
    ∃ c, bitsetZip f bl br = .ok c ∧ Evaluates db e c := by
  have hlen : br.integerCount = bl.integerCount := hr.words.trans hl.words.symm
  refine ⟨_, Bitset.bitsetZip_eq_ok f (hinv.stable hl.words) hlen, ?_, fun i hi => ?_⟩
  · rw [Bitset.integerCount, List.length_zipWith]
    exact (congrArg (min _) hlen).trans ((min_self _).trans hl.words)
  · rw [Bitset.bit_zip hf hlen (by rw [hl.words]; exact hi), hl.bit i hi, hr.bit i hi, he]

/-- **With all its sets found, a tree evaluates bit by bit.** -/
theorem dbRunSetOperation_toSetOp (hinv : Inv db) (e : SetExpr Bytes)
    (h : ∀ s ∈ e.leaves, (stSearch db.setNamesTable s).isSome) :
    ∃ r, dbRunSetOperation db e.toSetOp = .ok r ∧ Evaluates db e r.bs := by
  induction e with
  | name s =>
    obtain ⟨d, hd⟩ := Option.isSome_iff_exists.mp (h s (List.mem_singleton_self s))
    exact dbRunSetOperation_leaf hinv hd
  | complement e ih =>
    obtain ⟨rbl, hrbl, hl⟩ := ih h
    obtain ⟨c, hc, hev⟩ := evaluates_complement hinv hl
    exact ⟨⟨c, true⟩, by simp [SetExpr.toSetOp, dbRunSetOperation, hrbl, hc], hev⟩
  | union l r ihl ihr =>
    obtain ⟨rbl, hrbl, hl⟩ := ihl fun s hs => h s (List.mem_append_left _ hs)
    obtain ⟨rbr, hrbr, hr⟩ := ihr fun s hs => h s (List.mem_append_right _ hs)
    obtain ⟨c, hc, hev⟩ := evaluates_zip (e := .union l r) (g := (· || ·)) hinv
      (fun w1 w2 j _ => BitVec.getLsbD_or) (fun _ => rfl) hl hr
    exact ⟨⟨c, true⟩, by simp [SetExpr.toSetOp, dbRunSetOperation, opUnion, opComplement, hrbl,
      hrbr, bitsetUnion, hc], hev⟩
  | intersection l r ihl ihr =>
    obtain ⟨rbl, hrbl, hl⟩ := ihl fun s hs => h s (List.mem_append_left _ hs)
    obtain ⟨rbr, hrbr, hr⟩ := ihr fun s hs => h s (List.mem_append_right _ hs)
    obtain ⟨c, hc, hev⟩ := evaluates_zip (e := .intersection l r) (g := (· && ·)) hinv
      (fun w1 w2 j _ => BitVec.getLsbD_and) (fun _ => rfl) hl hr
    exact ⟨⟨c, true⟩, by simp [SetExpr.toSetOp, dbRunSetOperation, opUnion, opComplement,
      opIntersection, hrbl, hrbr, bitsetIntersection, hc], hev⟩
  | difference l r ihl ihr =>
    obtain ⟨rbl, hrbl, hl⟩ := ihl fun s hs => h s (List.mem_append_left _ hs)
    obtain ⟨rbr, hrbr, hr⟩ := ihr fun s hs => h s (List.mem_append_right _ hs)
    obtain ⟨c, hc, hev⟩ := evaluates_zip (e := .difference l r) (f := fun w1 w2 => w1 &&& ~~~w2)
      (g := fun a b => a && !b) hinv (fun w1 w2 j hj => by simp [hj]) (fun _ => rfl) hl hr
    exact ⟨⟨c, true⟩, by simp [SetExpr.toSetOp, dbRunSetOperation, opUnion, opComplement,
      opIntersection, opDifference, hrbl, hrbr, bitsetDifference, hc], hev⟩

/-- **An unknown set is a null dereference**, wherever it stands: the operands before it evaluate,
and the operators are applied after it. -/
theorem dbRunSetOperation_unknown (hinv : Inv db) (e : SetExpr Bytes)
    (h : ∃ s ∈ e.leaves, stSearch db.setNamesTable s = none) :
    dbRunSetOperation db e.toSetOp = .error .nullDeref := by
  have operands : ∀ l r : SetExpr Bytes, (∃ s ∈ l.leaves ++ r.leaves,
      stSearch db.setNamesTable s = none) →
      (∃ s ∈ l.leaves, stSearch db.setNamesTable s = none) ∨
        ((∃ rbl, dbRunSetOperation db l.toSetOp = .ok rbl) ∧
          ∃ s ∈ r.leaves, stSearch db.setNamesTable s = none) := by
    rintro l r ⟨s, hs, hnone⟩
    by_cases hl : ∃ s ∈ l.leaves, stSearch db.setNamesTable s = none
    · exact Or.inl hl
    · have hknown : ∀ s ∈ l.leaves, (stSearch db.setNamesTable s).isSome := fun s hs =>
        Option.isSome_iff_ne_none.mpr fun hn => hl ⟨s, hs, hn⟩
      obtain ⟨rbl, hrbl, -⟩ := dbRunSetOperation_toSetOp hinv l hknown
      rcases List.mem_append.mp hs with hs | hs
      · exact Or.inl ⟨s, hs, hnone⟩
      · exact Or.inr ⟨⟨rbl, hrbl⟩, s, hs, hnone⟩
  induction e with
  | name s =>
    obtain ⟨s', hs', hnone⟩ := h
    obtain rfl := List.mem_singleton.mp hs'
    simp [SetExpr.toSetOp, createSetOpLeave, dbRunSetOperation, hnone]
  | complement e ih => simp [SetExpr.toSetOp, dbRunSetOperation, ih h]
  | union l r ihl ihr | intersection l r ihl ihr | difference l r ihl ihr =>
    rcases operands l r h with hl | ⟨⟨rbl, hrbl⟩, hr⟩
    · simp [SetExpr.toSetOp, dbRunSetOperation, opUnion, opComplement, opIntersection,
        opDifference, ihl hl]
    · simp [SetExpr.toSetOp, dbRunSetOperation, opUnion, opComplement, opIntersection,
        opDifference, hrbl, ihr hr]

end Evaluation

end SetQL
