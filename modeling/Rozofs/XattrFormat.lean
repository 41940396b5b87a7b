import Rozofs.ByteMemory

/-! The format of extended attributes in `xattr_nocache.c`: entries one after the other up to a word of
zeros, and the search of a name among them. An area of memory is given by its bytes from its base on. -/
namespace Rozofs.Xattr
open ByteMemory

/-- `struct ext4_xattr_entry` with the name that follows it. The hash is never used. -/
structure Entry where
  nameIndex : Nat
  name : List UInt8
  valueOffs : Nat
  valueBlock : Nat
  valueSize : Nat
  deriving DecidableEq, Repr

abbrev Key := Nat × List UInt8

def Entry.key (e : Entry) : Key := (e.nameIndex,e.name)

inductive Status where
  | ok | eio | enodata | enospc | erange | eexist
  | failed (errno : Nat)
  deriving DecidableEq, Repr

/-- `EXT4_XATTR_LEN`: the header of 16 bytes and the name, rounded to words. -/
def xattrLen (nameLen : Nat) : Nat := (nameLen + 3 + 16) / 4 * 4

def xattrSize (size : Nat) : Nat := (size + 3) / 4 * 4

def entryAt (m : Memory) (p : Nat) : Entry :=
  ⟨(m (p + 1)).toNat,run m (p + 16) (m p).toNat,read16 m (p + 2),read32 m (p + 4),read32 m (p + 8)⟩

def isLastEntry (m : Memory) (p : Nat) : Bool := read32 m p = 0

def Entry.len (e : Entry) : Nat := xattrLen e.name.length

def xattrNext (m : Memory) (p : Nat) : Nat := p + (entryAt m p).len

def memcmp : List UInt8 → List UInt8 → Int
  | x :: xs, y :: ys => if x = y then memcmp xs ys else (x.toNat : Int) - y.toNat
  | _, _ => 0

/-- The order of the names in a block: index, length, bytes. -/
def compareKey (a b : Key) : Int :=
  if (a.1 : Int) - b.1 ≠ 0 then (a.1 : Int) - b.1
  else if (a.2.length : Int) - b.2.length ≠ 0 then (a.2.length : Int) - b.2.length
  else memcmp a.2 b.2

/-- `none` is a walk that leaves the area. -/
def checkNames (m : Memory) (fin : Nat) : Nat → Nat → Option Bool
  | 0, _ => none
  | fuel + 1, entry =>
    if isLastEntry m entry then some true
    else if fin ≤ xattrNext m entry then some false
    else checkNames m fin fuel (xattrNext m entry)

def checkEntry (e : Entry) (size : Nat) : Bool := e.valueBlock = 0 && e.valueSize ≤ size && e.valueOffs + e.valueSize ≤ size

def findEntryLoop (m : Memory) (key : Key) (sorted : Bool) : Nat → Nat → Int → Option (Nat × Int)
  | 0, _, _ => none
  | fuel + 1, entry, cmp =>
    if isLastEntry m entry then some (entry,cmp)
    else
      let cmp := compareKey key (entryAt m entry).key
      if cmp ≤ 0 ∧ (sorted ∨ cmp = 0) then some (entry,cmp)
      else findEntryLoop m key sorted fuel (xattrNext m entry) cmp

/-- `ext4_xattr_find_entry`, in an area that ends at `fin`. -/
def findEntry (m : Memory) (fin : Nat) (first : Nat) (key : Key) (size : Nat) (sorted : Bool) : Option (Status × Nat) :=
  (findEntryLoop m key sorted fin first 1).map fun r =>
    (if r.2 = 0 && !checkEntry (entryAt m r.1) size then .eio else if r.2 ≠ 0 then .enodata else .ok,r.1)

/-! ### The order of names -/

theorem memcmp_swap (xs ys : List UInt8) : memcmp xs ys = -memcmp ys xs := by
  induction xs generalizing ys with
  | nil => cases ys <;> rfl
  | cons x xs ih =>
    cases ys with
    | nil => rfl
    | cons y ys =>
      rw [memcmp,memcmp]
      by_cases same : x = y
      · rw [if_pos same,if_pos same.symm,ih]
      · rw [if_neg same,if_neg (Ne.symm same)]
        omega

theorem memcmp_eq_zero : ∀ {xs ys : List UInt8}, xs.length = ys.length → memcmp xs ys = 0 → xs = ys
  | [], [], _, _ => rfl
  | x :: xs, y :: ys, length, zero => by
    rw [memcmp] at zero
    split at zero
    · rename_i same
      rw [same,memcmp_eq_zero (Nat.succ.inj length) zero]
    · rename_i other
      exact absurd (UInt8.toNat_inj.mp (by omega)) other

@[simp] theorem memcmp_self (xs : List UInt8) : memcmp xs xs = 0 := by
  induction xs with
  | nil => rfl
  | cons x xs ih => rw [memcmp,if_pos rfl,ih]

theorem memcmp_trans : ∀ {xs ys zs : List UInt8}, memcmp xs ys < 0 → memcmp ys zs < 0 → memcmp xs zs < 0
  | x :: xs, y :: ys, z :: zs, first, second => by
    rw [memcmp] at *
    by_cases same : x = y
    · rw [if_pos same] at first
      subst same
      by_cases equal : x = z
      · rw [if_pos equal] at second ⊢
        exact memcmp_trans first second
      · rw [if_neg equal] at second ⊢
        exact second
    · rw [if_neg same] at first
      by_cases equal : y = z
      · subst equal
        rw [if_neg same]
        exact first
      · rw [if_neg equal] at second
        have other : x ≠ z := by
          intro h
          subst h
          omega
        rw [if_neg other]
        omega
  | [], _, _, first, _ => by cases (show (0 : Int) < 0 from first)
  | _ :: _, [], _, first, _ => by cases (show (0 : Int) < 0 from first)
  | _ :: _, _ :: _, [], _, second => by cases (show (0 : Int) < 0 from second)

@[simp] theorem compareKey_self (a : Key) : compareKey a a = 0 := by simp [compareKey]

theorem compareKey_eq_zero : compareKey a b = 0 ↔ a = b := by
  refine ⟨fun zero => ?_,fun same => same ▸ compareKey_self a⟩
  rw [compareKey] at zero
  split at zero
  · contradiction
  · split at zero
    · contradiction
    · exact Prod.ext (by omega) (memcmp_eq_zero (by omega) zero)

theorem compareKey_swap (a b : Key) : compareKey a b = -compareKey b a := by
  rw [compareKey,compareKey,memcmp_swap a.2]
  by_cases index : (a.1 : Int) - b.1 ≠ 0
  · rw [if_pos index,if_pos (by omega)]
    omega
  · have index' : ¬((b.1 : Int) - a.1 ≠ 0) := by omega
    rw [if_neg index,if_neg index']
    by_cases length : (a.2.length : Int) - b.2.length ≠ 0
    · rw [if_pos length,if_pos (by omega)]
      omega
    · have length' : ¬((b.2.length : Int) - a.2.length ≠ 0) := by omega
      rw [if_neg length,if_neg length']

theorem compareKey_trans (first : compareKey a b < 0) (second : compareKey b c < 0) : compareKey a c < 0 := by
  rw [compareKey] at first second ⊢
  by_cases index : (a.1 : Int) - b.1 ≠ 0
  · rw [if_pos index] at first
    by_cases index' : (b.1 : Int) - c.1 ≠ 0
    · rw [if_pos index'] at second
      rw [if_pos (by omega)]
      omega
    · rw [if_pos (by omega)]
      omega
  · rw [if_neg index] at first
    by_cases index' : (b.1 : Int) - c.1 ≠ 0
    · rw [if_pos index'] at second
      rw [if_pos (by omega)]
      omega
    · rw [if_neg index'] at second
      rw [if_neg (by omega)]
      by_cases length : (a.2.length : Int) - b.2.length ≠ 0
      · rw [if_pos length] at first
        by_cases length' : (b.2.length : Int) - c.2.length ≠ 0
        · rw [if_pos length'] at second
          rw [if_pos (by omega)]
          omega
        · rw [if_pos (by omega)]
          omega
      · rw [if_neg length] at first
        by_cases length' : (b.2.length : Int) - c.2.length ≠ 0
        · rw [if_pos length'] at second
          rw [if_pos (by omega)]
          omega
        · rw [if_neg length'] at second
          rw [if_neg (by omega)]
          exact memcmp_trans first second

/-! ### Entries in memory -/

theorem xattrLen_bounds (n : Nat) : 16 + n ≤ xattrLen n ∧ xattrLen n ≤ n + 19 := by
  rw [xattrLen]
  omega

theorem xattrSize_bounds (n : Nat) : n ≤ xattrSize n ∧ xattrSize n ≤ n + 3 := by
  rw [xattrSize]
  omega

def tableSize (es : List Entry) : Nat := (es.map Entry.len).sum

@[simp] theorem tableSize_nil : tableSize [] = 0 := rfl

@[simp] theorem tableSize_cons (e : Entry) (es : List Entry) : tableSize (e :: es) = e.len + tableSize es := rfl

@[simp] theorem tableSize_append (xs ys : List Entry) : tableSize (xs ++ ys) = tableSize xs + tableSize ys := by
  simp [tableSize]

/-- The entries `es` are in memory from `p` on. An index of 0 is never used. -/
def Entries (m : Memory) : Nat → List Entry → Prop
  | _, [] => True
  | p, e :: es => entryAt m p = e ∧ 0 < e.nameIndex ∧ Entries m (p + e.len) es

theorem entries_append : Entries m p (xs ++ ys) ↔ Entries m p xs ∧ Entries m (p + tableSize xs) ys := by
  induction xs generalizing p with
  | nil => simp [Entries]
  | cons e xs ih => simp [Entries,ih,Nat.add_assoc,and_assoc]

theorem entryAt_congr {m m' : Memory} (same : ∀ i < (entryAt m p).len, m' (q + i) = m (p + i)) : entryAt m' q = entryAt m p := by
  have length : (entryAt m p).name.length = (m p).toNat := run_length _ _ _
  have long : 16 + (m p).toNat ≤ (entryAt m p).len := length ▸ (xattrLen_bounds _).1
  have size : m' q = m p := same 0 (by omega)
  have bytes : run m' (q + 16) (m p).toNat = run m (p + 16) (m p).toNat :=
    run_congr fun i bound => by rw [Nat.add_assoc,Nat.add_assoc,same (16 + i) (by omega)]
  have offs : read16 m' (q + 2) = read16 m (p + 2) := read16_congr (same 2 (by omega)) (same 3 (by omega))
  have block : read32 m' (q + 4) = read32 m (p + 4) :=
    read32_congr fun i bound => by rw [Nat.add_assoc,Nat.add_assoc,same (4 + i) (by omega)]
  have value : read32 m' (q + 8) = read32 m (p + 8) :=
    read32_congr fun i bound => by rw [Nat.add_assoc,Nat.add_assoc,same (8 + i) (by omega)]
  rw [entryAt,entryAt,size,same 1 (by omega),bytes,offs,block,value]

/-- Entries can be moved. -/
theorem entries_congr {m m' : Memory} (entries : Entries m p es) (same : ∀ i < tableSize es, m' (q + i) = m (p + i)) :
    Entries m' q es := by
  induction es generalizing p q with
  | nil => trivial
  | cons e es ih =>
    obtain ⟨here,index,rest⟩ := entries
    rw [tableSize_cons] at same
    refine ⟨?_,index,ih rest fun i bound => ?_⟩
    · rw [entryAt_congr fun i bound => same i (by rw [here] at bound; omega),here]
    · rw [Nat.add_assoc,Nat.add_assoc,same (e.len + i) (by omega)]

theorem isLastEntry_entry {m : Memory} (index : 0 < (entryAt m p).nameIndex) : isLastEntry m p = false := by
  apply decide_eq_false
  intro zero
  have byte := read32_eq_zero.mp zero 1 (by omega)
  have : (entryAt m p).nameIndex = 0 := by rw [entryAt,byte]; rfl
  omega

/-- Entries at `first` and the word of zeros that ends them. -/
structure Table (m : Memory) (first : Nat) (es : List Entry) : Prop where
  entries : Entries m first es
  stop : ∀ i < 4, m (first + tableSize es + i) = 0

theorem Table.congr {m m' : Memory} (table : Table m first es) (same : ∀ i < tableSize es + 4, m' (first + i) = m (first + i)) :
    Table m' first es where
  entries := entries_congr table.entries fun i bound => same i (by omega)
  stop i bound := by rw [Nat.add_assoc,same _ (by omega),← Nat.add_assoc,table.stop i bound]

theorem Table.tail {m : Memory} (table : Table m first (e :: es)) : Table m (first + e.len) es where
  entries := table.entries.2.2
  stop i bound := by
    have := table.stop i bound
    rwa [tableSize_cons,← Nat.add_assoc] at this

theorem Table.last {m : Memory} (table : Table m first []) : isLastEntry m first = true :=
  decide_eq_true (read32_eq_zero.mpr table.stop)

theorem Table.here {m : Memory} (table : Table m first (e :: es)) :
    isLastEntry m first = false ∧ entryAt m first = e ∧ xattrNext m first = first + e.len := by
  obtain ⟨here,index,_⟩ := table.entries
  exact ⟨isLastEntry_entry (here ▸ index),here,by rw [xattrNext,here]⟩

theorem len_long (e : Entry) : 16 ≤ e.len := by
  have := (xattrLen_bounds e.name.length).1
  rw [Entry.len]
  omega

theorem length_le_tableSize (es : List Entry) : 16 * es.length ≤ tableSize es := by
  induction es with
  | nil => simp
  | cons e es ih =>
    have := len_long e
    simp only [List.length_cons,tableSize_cons]
    omega

theorem checkNames_spec (es : List Entry) : ∀ fuel p, Table m p es → es.length < fuel → p + tableSize es < fin →
    checkNames m fin fuel p = some true := by
  induction es with
  | nil =>
    intro fuel p table enough inside
    obtain ⟨fuel,rfl⟩ : ∃ k, fuel = k + 1 := ⟨fuel - 1,by omega⟩
    rw [checkNames,if_pos table.last]
  | cons e es ih =>
    intro fuel p table enough inside
    rw [List.length_cons] at enough
    obtain ⟨fuel,rfl⟩ : ∃ k, fuel = k + 1 := ⟨fuel - 1,by omega⟩
    obtain ⟨more,_,next⟩ := table.here
    rw [tableSize_cons] at inside
    rw [checkNames,more,next,if_neg (by simp),if_neg (by omega)]
    exact ih fuel _ table.tail (by omega) (by omega)

/-! ### The search -/

/-- Where the loop stops. -/
def stops (key : Key) (sorted : Bool) (e : Entry) : Bool := compareKey key e.key ≤ 0 ∧ (sorted ∨ compareKey key e.key = 0)

theorem findEntryLoop_spec (key : Key) (sorted : Bool) (es : List Entry) : ∀ fuel p cmp, Table m p es → es.length < fuel → cmp ≠ 0 →
    ∃ pre post cmp', es = pre ++ post ∧ (∀ e ∈ pre, stops key sorted e = false) ∧
      (∀ e ∈ post.head?, stops key sorted e = true) ∧ findEntryLoop m key sorted fuel p cmp = some (p + tableSize pre,cmp') ∧
      (cmp' = 0 ↔ ∃ e ∈ post.head?, e.key = key) := by
  induction es with
  | nil =>
    intro fuel p cmp table enough other
    obtain ⟨fuel,rfl⟩ : ∃ k, fuel = k + 1 := ⟨fuel - 1,by omega⟩
    refine ⟨[],[],cmp,rfl,by simp,by simp,?_,by simpa using other⟩
    rw [findEntryLoop,if_pos table.last,tableSize_nil,Nat.add_zero]
  | cons e es ih =>
    intro fuel p cmp table enough other
    rw [List.length_cons] at enough
    obtain ⟨fuel,rfl⟩ : ∃ k, fuel = k + 1 := ⟨fuel - 1,by omega⟩
    obtain ⟨more,here,next⟩ := table.here
    rw [findEntryLoop,more,if_neg (by simp),here,next]
    by_cases stop : stops key sorted e = true
    · refine ⟨[],e :: es,_,rfl,by simp,by simpa using stop,if_pos (of_decide_eq_true stop),?_⟩
      rw [compareKey_eq_zero]
      simp [eq_comm]
    · have goes : ¬(compareKey key e.key ≤ 0 ∧ (sorted = true ∨ compareKey key e.key = 0)) := fun h => stop (decide_eq_true h)
      rw [if_neg goes]
      obtain ⟨pre,post,cmp',split,before,after,run,zero⟩ := ih fuel _ (compareKey key e.key) table.tail (by omega) (by
        intro zero
        exact goes ⟨by omega,.inr zero⟩)
      refine ⟨e :: pre,post,cmp',by rw [split]; rfl,?_,after,?_,zero⟩
      · intro f member
        cases List.mem_cons.mp member with
        | inl same =>
          rw [same]
          simpa using stop
        | inr later => exact before f later
      · rw [run,tableSize_cons,Nat.add_assoc]

end Rozofs.Xattr
