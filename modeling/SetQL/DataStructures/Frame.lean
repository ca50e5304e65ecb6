import SetQL.DataStructures.Representation
import SetQL.DataStructures.Columns

/-!
# What operations leave alone

The keys, the sets and each attribute table are changed by operations on them only, and a table keeps
its shape. A stored value stays until another value for its key is accepted by its table.

## Main definitions

* `Op.column`: the column that an operation creates or writes
* `LastStored`: the value that a run has last stored for a key

## Main results

* `keys_run`, `sets_run`, `table_run`: the frame of a run
* `slot_of_lastStored`: the slot of a key holds the value last stored for it
-/

namespace SetQL

/-- The column that an operation creates or writes. -/
def Op.column : Op → Option Bytes
  | createAttribute name _ _ => some name
  | setAttribute name _ _ => some name
  | _ => none

/-- The operations on sets. -/
def Op.updatesSets : Op → Bool
  | createSet .. | removeFromSet .. | addToSet .. => true
  | _ => false

section Frame

variable {db db' : Database} {op : Op} {ops : List Op} {name : Bytes}

theorem keys_exec (hop : op.addsKey = false) (h : op.exec db = .ok db') :
    db'.keyTable = db.keyTable ∧ db'.keyCount = db.keyCount := by
  cases op with
  | createSet name =>
    obtain ⟨-, rfl⟩ | ⟨-, -, -, _, _, -, -, rfl⟩ := dbCreateSet_cases h <;> exact ⟨rfl, rfl⟩
  | addKey name => cases hop
  | addToSet set key | removeFromSet set key =>
    obtain ⟨-, rfl⟩ | ⟨_, _, _, _, -, -, -, -, rfl⟩ := dbUpdateSet_cases h <;> exact ⟨rfl, rfl⟩
  | createAttribute name type stringSize =>
    obtain ⟨-, rfl⟩ | ⟨-, -, -, _, -, rfl⟩ := dbCreateAttribute_cases h <;> exact ⟨rfl, rfl⟩
  | setAttribute attrName keyName data =>
    obtain ⟨-, rfl⟩ | ⟨_, _, _, -, -, -, ⟨-, -, rfl⟩ | ⟨-, _, -, rfl⟩⟩ := dbSetAttribute_cases h <;>
      exact ⟨rfl, rfl⟩

theorem sets_exec (hop : op.updatesSets = false) (h : op.exec db = .ok db') :
    db'.setNamesTable = db.setNamesTable ∧ db'.sets = db.sets := by
  cases op with
  | createSet _ | addToSet _ _ | removeFromSet _ _ => cases hop
  | addKey name =>
    obtain ⟨-, rfl⟩ | ⟨-, -, _, -, rfl⟩ := dbAddKey_cases h <;> exact ⟨rfl, rfl⟩
  | createAttribute name type stringSize =>
    obtain ⟨-, rfl⟩ | ⟨-, -, -, _, -, rfl⟩ := dbCreateAttribute_cases h <;> exact ⟨rfl, rfl⟩
  | setAttribute attrName keyName data =>
    obtain ⟨-, rfl⟩ | ⟨_, _, _, -, -, -, ⟨-, -, rfl⟩ | ⟨-, _, -, rfl⟩⟩ := dbSetAttribute_cases h <;>
      exact ⟨rfl, rfl⟩

/-- An operation changes no other column than its own. -/
theorem table_exec (hinv : Inv db) (hop : op.column ≠ some name) (h : op.exec db = .ok db') :
    db'.table name = db.table name := by
  cases op with
  | createSet name =>
    obtain ⟨-, rfl⟩ | ⟨-, -, -, _, _, -, -, rfl⟩ := dbCreateSet_cases h <;> rfl
  | addKey name =>
    obtain ⟨-, rfl⟩ | ⟨-, -, _, -, rfl⟩ := dbAddKey_cases h <;> rfl
  | addToSet set key | removeFromSet set key =>
    obtain ⟨-, rfl⟩ | ⟨_, _, _, _, -, -, -, -, rfl⟩ := dbUpdateSet_cases h <;> rfl
  | createAttribute new type stringSize =>
    have hne : name ≠ new := fun heq => hop (congrArg some heq.symm)
    obtain ⟨-, rfl⟩ | ⟨-, -, -, table, hins, rfl⟩ := dbCreateAttribute_cases h
    · rfl
    · unfold Database.table
      rw [stSearch_stInsert_of_ne hins hne]
      cases hd : stSearch db.attrNamesTable name with
      | none => rfl
      | some d =>
        exact List.getElem?_append_left (hinv.attrNames.index_lt_count hd)
  | setAttribute other keyName data =>
    have hne : name ≠ other := fun heq => hop (congrArg some heq.symm)
    obtain ⟨-, rfl⟩ | ⟨_, _, _, hname, -, hattr, ⟨-, -, rfl⟩ | ⟨-, _, -, rfl⟩⟩ :=
      dbSetAttribute_cases h
    · rfl
    · rfl
    · have hlt := (List.getElem?_eq_some_iff.mp hattr).1
      rw [table_set _ hinv hname hlt, if_neg hne]

theorem keys_run (hops : ∀ op ∈ ops, op.addsKey = false) (h : run db ops = .ok db') :
    db'.keyTable = db.keyTable ∧ db'.keyCount = db.keyCount := by
  refine foldlM_invariant (I := fun t => t.keyTable = db.keyTable ∧ t.keyCount = db.keyCount)
    (fun t op t' hop ht hstep => ?_) ⟨rfl, rfl⟩ h
  obtain ⟨hk, hc⟩ := keys_exec (hops op hop) hstep
  exact ⟨hk.trans ht.1, hc.trans ht.2⟩

theorem sets_run (hops : ∀ op ∈ ops, op.updatesSets = false) (h : run db ops = .ok db') :
    db'.setNamesTable = db.setNamesTable ∧ db'.sets = db.sets := by
  refine foldlM_invariant (I := fun t => t.setNamesTable = db.setNamesTable ∧ t.sets = db.sets)
    (fun t op t' hop ht hstep => ?_) ⟨rfl, rfl⟩ h
  obtain ⟨hn, hs⟩ := sets_exec (hops op hop) hstep
  exact ⟨hn.trans ht.1, hs.trans ht.2⟩

theorem table_run (hinv : Inv db) (hops : ∀ op ∈ ops, op.column ≠ some name)
    (h : run db ops = .ok db') : db'.table name = db.table name := by
  have hboth := foldlM_invariant (I := fun t => Inv t ∧ t.table name = db.table name)
    (fun t op t' hop ht hstep => ⟨inv_exec ht.1 hstep,
      (table_exec ht.1 (hops op hop) hstep).trans ht.2⟩) ⟨hinv, rfl⟩ h
  exact hboth.2

/-- A table keeps its shape. -/
theorem shape_exec (hinv : Inv db) (h : op.exec db = .ok db') {attr : Attributes}
    (hattr : db.table name = some attr) :
    ∃ attr', db'.table name = some attr' ∧ attr'.shape = attr.shape := by
  by_cases hop : op.column = some name
  · cases op with
    | createSet _ | addKey _ | addToSet _ _ | removeFromSet _ _ => cases hop
    | createAttribute new type stringSize =>
      obtain rfl := Option.some.inj hop
      obtain ⟨d, hd, -⟩ := table_eq_some.mp hattr
      obtain ⟨-, rfl⟩ | ⟨hnew, -, -, _, -, rfl⟩ := dbCreateAttribute_cases h
      · exact ⟨attr, hattr, rfl⟩
      · rw [hnew] at hd
        cases hd
    | setAttribute other keyName data =>
      obtain rfl := Option.some.inj hop
      obtain ⟨d, hd, hget⟩ := table_eq_some.mp hattr
      obtain ⟨-, rfl⟩ | ⟨attrData, _, attr', hdata, -, hget', ⟨-, -, rfl⟩ | ⟨-, block, -, rfl⟩⟩ :=
        dbSetAttribute_cases h
      · exact ⟨attr, hattr, rfl⟩
      · exact ⟨attr, hattr, rfl⟩
      · obtain rfl : d = attrData := Option.some.inj (hd.symm.trans hdata)
        obtain rfl : attr = attr' := Option.some.inj (hget.symm.trans hget')
        have hlt := (List.getElem?_eq_some_iff.mp hget).1
        exact ⟨{ attr with data := block }, table_eq_some.mpr ⟨d, hd,
          List.getElem?_set_self hlt⟩, rfl⟩
  · exact ⟨attr, (table_exec hinv hop h).trans hattr, rfl⟩

/-! ## Stored values stay -/

/-- The value is the last one stored for a key: its call found the table and the key and was not
refused, and every later call for them was. -/
def LastStored (db₀ : Database) (ops : List Op) (attrName key : Bytes) (p : Payload) : Prop :=
  ∃ pre post db attr d, ops = pre ++ .setAttribute attrName key p :: post ∧
    run db₀ pre = .ok db ∧ db.table attrName = some attr ∧ stSearch db.keyTable key = some d ∧
    attr.shape.Fits p ∧ ∀ q, .setAttribute attrName key q ∈ post → ¬ attr.shape.Fits q

/-- The table of an attribute has its shape, the key its index, and the slot of the key its
contents. -/
structure Holding (db : Database) (attrName key : Bytes) (d : TableData) (shape : Shape)
    (contents : Bytes) : Prop where
  key : stSearch db.keyTable key = some d
  table : ∃ attr, db.table attrName = some attr ∧ attr.shape = shape ∧ attr.slot d.index = contents

variable {attrName key : Bytes} {d : TableData} {shape : Shape} {contents : Bytes}

/-- A slot keeps its contents unless a value for its key is accepted. -/
theorem holding_exec (hinv : Inv db) (hh : Holding db attrName key d shape contents)
    (hop : ∀ q, op = .setAttribute attrName key q → ¬ shape.Fits q) (h : op.exec db = .ok db') :
    Holding db' attrName key d shape contents := by
  obtain ⟨hkey, attr, hattr, rfl, rfl⟩ := hh
  refine ⟨(search_exec h).1 _ _ hkey, ?_⟩
  by_cases hcolumn : op.column = some attrName
  · cases op with
    | createSet _ | addKey _ | addToSet _ _ | removeFromSet _ _ => cases hcolumn
    | createAttribute name type stringSize =>
      obtain rfl := Option.some.inj hcolumn
      obtain ⟨a, ha, -⟩ := table_eq_some.mp hattr
      obtain ⟨-, rfl⟩ | ⟨hnew, -, -, _, -, rfl⟩ := dbCreateAttribute_cases h
      · exact ⟨attr, hattr, rfl, rfl⟩
      · rw [hnew] at ha
        cases ha
    | setAttribute name other q =>
      obtain rfl := Option.some.inj hcolumn
      obtain ⟨a, ha, hget⟩ := table_eq_some.mp hattr
      obtain ⟨-, rfl⟩ | ⟨a', e, attr', ha', he, hget', ⟨-, -, rfl⟩ | ⟨hfits, block, hblock, rfl⟩⟩ :=
        dbSetAttribute_cases h
      · exact ⟨attr, hattr, rfl, rfl⟩
      · exact ⟨attr, hattr, rfl, rfl⟩
      · obtain rfl : a = a' := Option.some.inj (ha.symm.trans ha')
        obtain rfl : attr = attr' := Option.some.inj (hget.symm.trans hget')
        -- an accepted value is for another key, and goes to another slot
        have hne : d.index ≠ e.index := by
          intro heq
          obtain rfl := hinv.keys.name_eq hkey he heq
          exact hop q rfl hfits
        have hlt := (List.getElem?_eq_some_iff.mp hget).1
        refine ⟨{ attr with data := block }, table_eq_some.mpr ⟨a, ha,
          List.getElem?_set_self hlt⟩, rfl, ?_⟩
        rw [slot_of_assign hblock, if_neg hne]
  · exact ⟨attr, (table_exec hinv hcolumn h).trans hattr, rfl, rfl⟩

theorem holding_run (hinv : Inv db) (hh : Holding db attrName key d shape contents)
    (hops : ∀ q, .setAttribute attrName key q ∈ ops → ¬ shape.Fits q) (h : run db ops = .ok db') :
    Holding db' attrName key d shape contents := by
  have hboth := foldlM_invariant (I := fun t => Inv t ∧ Holding t attrName key d shape contents)
    (fun t op t' hop ht hstep => ⟨inv_exec ht.1 hstep,
      holding_exec ht.1 ht.2 (fun q hq => hops q (hq ▸ hop)) hstep⟩) ⟨hinv, hh⟩ h
  exact hboth.2

/-- **The slot of a key holds the value last stored for it**, within its table. -/
theorem slot_of_lastStored {db₀ : Database} {p : Payload} {attr : Attributes} (hinv : Inv db₀)
    (h : run db₀ ops = .ok db) (hattr : db.table attrName = some attr)
    (hkey : stSearch db.keyTable key = some d) (hlast : LastStored db₀ ops attrName key p) :
    attr.slot d.index = p.bytes attr.width ∧ attr.shape.Fits p ∧
      (attr.width ≠ 0 → d.index * attr.width + attr.width ≤ attr.data.size) := by
  obtain ⟨pre, post, db₁, attr₁, d₁, rfl, hpre, hattr₁, hkey₁, hfits, hpost⟩ := hlast
  obtain ⟨t, ht, hrest⟩ := foldlM_append_eq_ok.mp h
  obtain rfl := Except.ok.inj (hpre.symm.trans ht)
  obtain ⟨db₂, hstep, hrest⟩ := bind_eq_ok.mp hrest
  have hinv₁ := inv_run hinv hpre
  obtain ⟨a, ha, hget⟩ := table_eq_some.mp hattr₁
  obtain ⟨hunknown | hunknown, -⟩ | ⟨a', d', attr', ha', hd', hget', ⟨htype, hlong, -⟩ |
    ⟨-, block, hblock, hdb₂⟩⟩ := dbSetAttribute_cases hstep
  · rw [ha] at hunknown
    cases hunknown
  · rw [hkey₁] at hunknown
    cases hunknown
  · obtain rfl : a = a' := Option.some.inj (ha.symm.trans ha')
    obtain rfl : attr₁ = attr' := Option.some.inj (hget.symm.trans hget')
    exact absurd ⟨htype, hlong⟩ hfits
  obtain rfl : a = a' := Option.some.inj (ha.symm.trans ha')
  obtain rfl : attr₁ = attr' := Option.some.inj (hget.symm.trans hget')
  obtain rfl : d₁ = d' := Option.some.inj (hkey₁.symm.trans hd')
  have hlt := (List.getElem?_eq_some_iff.mp hget).1
  have hslot := slot_of_assign hblock d₁.index
  rw [if_pos rfl] at hslot
  have hinv₂ := inv_exec hinv₁ hstep
  have hheld : Holding db₂ attrName key d₁ attr₁.shape (p.bytes attr₁.width) := by
    rw [hdb₂]
    exact ⟨hkey₁, { attr₁ with data := block },
      table_eq_some.mpr ⟨a, ha, List.getElem?_set_self hlt⟩, rfl, hslot⟩
  obtain ⟨hkey₂, attr₂, hattr₂, hshape, hcontents⟩ := holding_run hinv₂ hheld hpost hrest
  obtain rfl := Option.some.inj (hkey.symm.trans hkey₂)
  obtain rfl := Option.some.inj (hattr.symm.trans hattr₂)
  obtain ⟨htype, hlen⟩ := Shape.mk.inj hshape
  have hwidth : attr.width = attr₁.width := by rw [Attributes.width, Attributes.width, htype, hlen]
  refine ⟨by rw [hcontents, hwidth], hshape ▸ hfits, fun hpos => ?_⟩
  rw [Attributes.assign_eq_write] at hblock
  obtain ⟨hnil | hbound, -⟩ := Block.write_eq_ok.mp hblock
  · have hzero := congrArg List.length hnil
    rw [Payload.length_bytes, List.length_nil] at hzero
    exact absurd (hwidth.trans hzero) hpos
  · obtain ⟨e, -, hget₂⟩ := table_eq_some.mp hattr
    have hsize := (inv_run hinv₂ hrest).tables _ (List.mem_of_getElem? hget₂)
    have hsize₁ := hinv₁.tables _ (List.mem_of_getElem? hget)
    have hmax := (capacities_run hrest).maxKeyCount.trans (capacities_exec hstep).maxKeyCount
    rw [htype, hlen, hmax] at hsize
    rw [Payload.length_bytes, hsize₁] at hbound
    rw [hwidth, hsize]
    exact hbound

end Frame

end SetQL
