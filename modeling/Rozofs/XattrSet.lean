import Mathlib.Data.List.Pairwise
import Mathlib.Order.Interval.Finset.Nat
import Mathlib.Tactic.Tauto
import Rozofs.XattrFormat

/-! Insertion, replacement and removal of an extended attribute in an area: names grow from the first
entry on, values from the end of the area back, and both are kept without holes. -/
namespace Rozofs.Xattr
open ByteMemory

/-- `struct ext4_xattr_info`: without a value the attribute is removed. -/
structure Info where
  key : Key
  value : Option (List UInt8)

/-- `struct ext4_xattr_search`, the offsets taken from its base. -/
structure Search where
  first : Nat
  fin : Nat
  here : Nat
  notFound : Bool

def Entry.valued (e : Entry) : Bool := e.valueBlock = 0 && e.valueSize ≠ 0

/-- The loop that finds the last entry and the lowest value. -/
def spaceLoop (m : Memory) : Nat → Nat → Nat → Option (Nat × Nat)
  | 0, _, _ => none
  | fuel + 1, last, minOffs =>
    if isLastEntry m last then some (last,minOffs)
    else
      let e := entryAt m last
      spaceLoop m fuel (xattrNext m last) (if e.valued ∧ e.valueOffs < minOffs then e.valueOffs else minOffs)

/-- Offsets of the values below the one that was removed. -/
def adjustLoop (offs size : Nat) : Nat → Memory → Nat → Option Memory
  | 0, _, _ => none
  | fuel + 1, m, last =>
    if isLastEntry m last then some m
    else
      let e := entryAt m last
      let m := if e.valued ∧ e.valueOffs < offs then write16 m (last + 2) (e.valueOffs + size) else m
      adjustLoop offs size fuel m (xattrNext m last)

def insertName (m : Memory) (here last : Nat) (key : Key) : Memory :=
  let size := xattrLen key.2.length
  let m := memmove m (here + size) here (last - here + 4)
  let m := memset m here size
  let m := write8 m (here + 1) key.1
  let m := write8 m here key.2.length
  memcpy m (here + 16) key.2

def removeName (m : Memory) (here last nameLen : Nat) : Memory :=
  let size := xattrLen nameLen
  let last := last - size
  memset (memmove m here (here + size) (last - here + 4)) last size

/-- The new value has the size of the old one, up to the words. -/
def replaceValue (m : Memory) (here : Nat) (value : List UInt8) : Memory :=
  let val := (entryAt m here).valueOffs
  let size := xattrSize (entryAt m here).valueSize
  memcpy (memset (write32 m (here + 8) value.length) (val + size - 4) 4) val value

/-- The old value goes, and the values below it move up. -/
def removeValue (m : Memory) (fin first here minOffs : Nat) : Option Memory :=
  let offs := (entryAt m here).valueOffs
  let size := xattrSize (entryAt m here).valueSize
  let m := memset (memmove m (minOffs + size) minOffs (offs - minOffs)) minOffs size
  adjustLoop offs size fin (write16 (write32 m (here + 8) 0) (here + 2) 0) first

def insertValue (m : Memory) (here minOffs : Nat) (value : List UInt8) : Memory :=
  let m := write32 m (here + 8) value.length
  if value = [] then m
  else
    let val := minOffs - xattrSize value.length
    memcpy (memset (write16 m (here + 2) val) (minOffs - 4) 4) val value

/-- Room in the area, in the unsigned integers of the machine. -/
def freeSpace (m : Memory) (i : Info) (s : Search) (last minOffs : Nat) : Nat :=
  let free := (minOffs + 2 ^ 64 - last + 2 ^ 64 - 4) % 2 ^ 64
  if s.notFound then free
  else
    let here := entryAt m s.here
    (free + (if here.valued then xattrSize here.valueSize else 0) + xattrLen i.key.2.length) % 2 ^ 64

def tooLarge (i : Info) (free : Nat) : Bool :=
  match i.value with
  | none => false
  | some value => free < xattrSize value.length || free < xattrLen i.key.2.length + xattrSize value.length

/-- The old name goes, or the new value comes. -/
def finishEntry (i : Info) (s : Search) (last minOffs : Nat) (m : Memory) : Memory :=
  match i.value with
  | none => removeName m s.here last i.key.2.length
  | some value => insertValue m s.here minOffs value

def sameSize (i : Info) (size : Nat) : Bool :=
  match i.value with
  | none => false
  | some value => size = xattrSize value.length

/-- `ext4_xattr_set_entry`. -/
def setEntry (i : Info) (s : Search) (m : Memory) : Option (Status × Memory) :=
  (spaceLoop m s.fin s.first s.fin).bind fun r =>
    let last := r.1
    let minOffs := r.2
    let here := entryAt m s.here
    let size := xattrSize here.valueSize
    if tooLarge i (freeSpace m i s last minOffs) then some (.enospc,m)
    else if i.value.isSome && s.notFound then
      some (.ok,finishEntry i s last minOffs (insertName m s.here last i.key))
    else if here.valued then
      if sameSize i size then some (.ok,replaceValue m s.here (i.value.getD []))
      else (removeValue m s.fin s.first s.here minOffs).map fun m => (.ok,finishEntry i s last (minOffs + size) m)
    else some (.ok,finishEntry i s last minOffs m)

/-! ### Areas -/

/-- The values of two entries do not overlap. -/
def Apart (e f : Entry) : Prop := 0 < e.valueSize → 0 < f.valueSize →
  e.valueOffs + xattrSize e.valueSize ≤ f.valueOffs ∨ f.valueOffs + xattrSize f.valueSize ≤ e.valueOffs

theorem Apart.symm (apart : Apart e f) : Apart f e := fun first second => (apart second first).symm

/-- The value of an entry is between two offsets. -/
structure Entry.Fits (low fin : Nat) (e : Entry) : Prop where
  block : e.valueBlock = 0
  above : 0 < e.valueSize → low ≤ e.valueOffs
  within : 0 < e.valueSize → e.valueOffs + xattrSize e.valueSize ≤ fin
  unset : e.valueSize = 0 → e.valueOffs = 0

/-- The space of the values, each rounded to words. -/
def valueSpace (es : List Entry) : Nat := (es.map fun e => xattrSize e.valueSize).sum

@[simp] theorem valueSpace_nil : valueSpace [] = 0 := rfl

@[simp] theorem valueSpace_cons (e : Entry) (es : List Entry) : valueSpace (e :: es) = xattrSize e.valueSize + valueSpace es := rfl

@[simp] theorem valueSpace_append (xs ys : List Entry) : valueSpace (xs ++ ys) = valueSpace xs + valueSpace ys := by
  simp [valueSpace]

/-- An area that ends at `fin`: the bytes of a header `h`, entries up to `low` at most, and values, without
holes, from there on. -/
structure Area (h m : Memory) (first low fin : Nat) (es : List Entry) : Prop where
  header : ∀ i < first, m i = h i
  table : Table m first es
  room : first + tableSize es + 4 ≤ low
  packed : low + valueSpace es = fin
  fits : ∀ e ∈ es, e.Fits low fin
  apart : es.Pairwise Apart

def valueOf (m : Memory) (e : Entry) : List UInt8 := run m e.valueOffs e.valueSize

/-- Names with their values. -/
def content (m : Memory) (es : List Entry) : List (Key × List UInt8) := es.map fun e => (e.key,valueOf m e)

@[simp] theorem content_append (m : Memory) (xs ys : List Entry) : content m (xs ++ ys) = content m xs ++ content m ys :=
  List.map_append

@[simp] theorem content_cons (m : Memory) (e : Entry) (es : List Entry) :
    content m (e :: es) = (e.key,valueOf m e) :: content m es := rfl

theorem valued_iff (fits : Entry.Fits low fin e) : e.valued = true ↔ 0 < e.valueSize := by
  simp only [Entry.valued,fits.block,decide_true,Bool.true_and,decide_eq_true_eq]
  omega

theorem Entry.Fits.mono (fits : Entry.Fits low fin e) (le : low' ≤ low) : Entry.Fits low' fin e :=
  ⟨fits.block,fun some => Nat.le_trans le (fits.above some),fits.within,fits.unset⟩

theorem mem_middle {pre post : List Entry} {e f : Entry} : f ∈ pre ++ e :: post ↔ f = e ∨ f ∈ pre ++ post := by
  simp only [List.mem_append,List.mem_cons]
  tauto

theorem apart_middle {pre post : List Entry} {e : Entry} :
    (pre ++ e :: post).Pairwise Apart ↔ (∀ f ∈ pre ++ post, Apart e f) ∧ (pre ++ post).Pairwise Apart := by
  rw [List.pairwise_middle fun apart => apart.symm,List.pairwise_cons]

theorem Area.bound (area : Area h m first low fin es) : low ≤ fin := by
  have := area.packed
  omega

@[simp] theorem xattrSize_zero : xattrSize 0 = 0 := rfl

/-- What is at `low` or above decides the values. -/
theorem content_congr {m m' : Memory} (fits : ∀ e ∈ es, Entry.Fits low fin e) (same : ∀ i, low ≤ i → i < fin → m' i = m i) :
    content m' es = content m es := by
  apply List.map_congr_left
  intro e member
  have fit := fits e member
  refine Prod.ext rfl (run_congr fun i bound => ?_)
  have some : 0 < e.valueSize := by omega
  have above := fit.above some
  have within := fit.within some
  have := (xattrSize_bounds e.valueSize).1
  exact same _ (by omega) (by omega)

/-! ### The table under changes of one entry -/

theorem entryAt_size {m m' : Memory} (same : ∀ i, p ≤ i → i < p + 8 ∨ p + 12 ≤ i → i < p + (entryAt m p).len → m' i = m i)
    (field : read32 m' (p + 8) = size) : entryAt m' p = { entryAt m p with valueSize := size } := by
  have length : (entryAt m p).name.length = (m p).toNat := run_length _ _ _
  have long : 16 + (m p).toNat ≤ (entryAt m p).len := length ▸ (xattrLen_bounds _).1
  have bytes : run m' (p + 16) (m p).toNat = run m (p + 16) (m p).toNat :=
    run_congr fun i _ => same _ (by omega) (by omega) (by omega)
  have offs : read16 m' (p + 2) = read16 m (p + 2) :=
    read16_congr (same _ (by omega) (by omega) (by omega)) (same _ (by omega) (by omega) (by omega))
  have block : read32 m' (p + 4) = read32 m (p + 4) := read32_congr fun i _ => same _ (by omega) (by omega) (by omega)
  have nameLen := same p (by omega) (by omega) (by omega)
  have index := same (p + 1) (by omega) (by omega) (by omega)
  rw [entryAt,nameLen,index,bytes,offs,block,field,entryAt]

theorem entryAt_offs {m m' : Memory} (same : ∀ i, p ≤ i → i < p + 2 ∨ p + 4 ≤ i → i < p + (entryAt m p).len → m' i = m i)
    (field : read16 m' (p + 2) = offs) : entryAt m' p = { entryAt m p with valueOffs := offs } := by
  have length : (entryAt m p).name.length = (m p).toNat := run_length _ _ _
  have long : 16 + (m p).toNat ≤ (entryAt m p).len := length ▸ (xattrLen_bounds _).1
  have bytes : run m' (p + 16) (m p).toNat = run m (p + 16) (m p).toNat :=
    run_congr fun i _ => same _ (by omega) (by omega) (by omega)
  have block : read32 m' (p + 4) = read32 m (p + 4) := read32_congr fun i _ => same _ (by omega) (by omega) (by omega)
  have value : read32 m' (p + 8) = read32 m (p + 8) := read32_congr fun i _ => same _ (by omega) (by omega) (by omega)
  have nameLen := same p (by omega) (by omega) (by omega)
  have index := same (p + 1) (by omega) (by omega) (by omega)
  rw [entryAt,nameLen,index,bytes,field,block,value,entryAt]

section Tables
variable {m m' : Memory} {pre post es : List Entry} {e e' : Entry}

theorem Table.entry (table : Table m first (pre ++ e :: post)) :
    entryAt m (first + tableSize pre) = e ∧ 0 < e.nameIndex :=
  ⟨(entries_append.mp table.entries).2.1,(entries_append.mp table.entries).2.2.1⟩

/-- One entry is written, with the same length. -/
theorem Table.update (table : Table m first (pre ++ e :: post)) (entry : entryAt m' (first + tableSize pre) = e')
    (index : 0 < e'.nameIndex) (len : e'.len = e.len)
    (same : ∀ i, i < first + tableSize pre ∨ first + tableSize pre + e.len ≤ i →
      i < first + tableSize (pre ++ e :: post) + 4 → m' i = m i) : Table m' first (pre ++ e' :: post) := by
  have size : tableSize (pre ++ e' :: post) = tableSize (pre ++ e :: post) := by simp [len]
  obtain ⟨before,here,_,after⟩ := entries_append.mp table.entries
  simp only [tableSize_append,tableSize_cons] at same size
  refine ⟨entries_append.mpr ⟨entries_congr before fun i bound => same _ (by omega) (by omega),entry,index,?_⟩,fun i bound => ?_⟩
  · rw [len]
    exact entries_congr after fun i bound => same _ (by omega) (by omega)
  · rw [tableSize_append,tableSize_cons,size,same _ (by omega) (by omega)]
    have := table.stop i bound
    rwa [tableSize_append,tableSize_cons] at this

theorem spaceLoop_spec (es : List Entry) : ∀ fuel p low, Table m p es → es.length < fuel →
    ∃ low', spaceLoop m fuel p low = some (p + tableSize es,low') ∧ low' ≤ low ∧
      (∀ e ∈ es, e.valued = true → low' ≤ e.valueOffs) ∧
      (low' = low ∨ ∃ e ∈ es, e.valued = true ∧ low' = e.valueOffs) := by
  induction es with
  | nil =>
    intro fuel p low table enough
    obtain ⟨fuel,rfl⟩ : ∃ k, fuel = k + 1 := ⟨fuel - 1,by omega⟩
    exact ⟨low,by rw [spaceLoop,if_pos table.last]; rfl,Nat.le_refl _,by simp,.inl rfl⟩
  | cons e es ih =>
    intro fuel p low table enough
    rw [List.length_cons] at enough
    obtain ⟨fuel,rfl⟩ : ∃ k, fuel = k + 1 := ⟨fuel - 1,by omega⟩
    obtain ⟨more,here,next⟩ := table.here
    obtain ⟨low',run,le,below,reached⟩ :=
      ih fuel _ (if e.valued ∧ e.valueOffs < low then e.valueOffs else low) table.tail (by omega)
    refine ⟨low',?_,?_,?_,?_⟩
    · rw [spaceLoop,more,if_neg (by simp),here,next]
      simp only
      rw [run,tableSize_cons,Nat.add_assoc]
    · split at le <;> omega
    · intro f member valued
      cases List.mem_cons.mp member with
      | inl same =>
        subst same
        by_cases lower : f.valueOffs < low
        · rw [if_pos ⟨valued,lower⟩] at le
          exact le
        · split at le <;> omega
      | inr later => exact below f later valued
    · rcases reached with same | ⟨f,member,valued,same⟩
      · split at same
        · rename_i taken
          exact .inr ⟨e,List.mem_cons_self,taken.1,same⟩
        · exact .inl same
      · exact .inr ⟨f,List.mem_cons_of_mem _ member,valued,same⟩

/-- An entry after the values below `offs` moved. -/
def Entry.adjust (offs size : Nat) (e : Entry) : Entry :=
  if e.valued ∧ e.valueOffs < offs then { e with valueOffs := e.valueOffs + size } else e

@[simp] theorem adjust_len (offs size : Nat) (e : Entry) : (e.adjust offs size).len = e.len := by
  rw [Entry.adjust]
  split <;> rfl

@[simp] theorem adjust_tableSize (offs size : Nat) (es : List Entry) : tableSize (es.map (Entry.adjust offs size)) = tableSize es := by
  simp [tableSize,Function.comp_def]

@[simp] theorem adjust_valueSpace (offs size : Nat) (es : List Entry) :
    valueSpace (es.map (Entry.adjust offs size)) = valueSpace es := by
  have same (e : Entry) : (e.adjust offs size).valueSize = e.valueSize := by
    rw [Entry.adjust]
    split <;> rfl
  simp [valueSpace,Function.comp_def,same]

theorem adjustLoop_spec (offs size : Nat) (es : List Entry) : ∀ fuel m p, Table m p es → es.length < fuel → offs + size ≤ 2 ^ 16 →
    ∃ m', adjustLoop offs size fuel m p = some m' ∧ Table m' p (es.map (Entry.adjust offs size)) ∧
      ∀ i, i < p ∨ p + tableSize es ≤ i → m' i = m i := by
  induction es with
  | nil =>
    intro fuel m p table enough small
    obtain ⟨fuel,rfl⟩ : ∃ k, fuel = k + 1 := ⟨fuel - 1,by omega⟩
    exact ⟨m,by rw [adjustLoop,if_pos table.last],table,fun _ _ => rfl⟩
  | cons e es ih =>
    intro fuel m p table enough small
    rw [List.length_cons] at enough
    obtain ⟨fuel,rfl⟩ : ∃ k, fuel = k + 1 := ⟨fuel - 1,by omega⟩
    obtain ⟨more,here,next⟩ := table.here
    have long := len_long e
    have written : ∃ m₁, (if e.valued ∧ e.valueOffs < offs then write16 m (p + 2) (e.valueOffs + size) else m) = m₁ ∧
        entryAt m₁ p = e.adjust offs size ∧ ∀ i, i < p ∨ p + e.len ≤ i → m₁ i = m i := by
      refine ⟨_,rfl,?_,?_⟩
      · rw [Entry.adjust]
        split
        · rw [← here]
          apply entryAt_offs
          · intro i _ outside _
            exact write16_other (by omega)
          · exact read16_write16 _ _ (by rw [here]; omega)
        · exact here
      · intro i outside
        split
        · exact write16_other (by omega)
        · rfl
    obtain ⟨m₁,eq,entry,other⟩ := written
    have index : 0 < (e.adjust offs size).nameIndex := by
      have := table.entries.2.1
      rw [Entry.adjust]
      split <;> exact this
    have table₁ : Table m₁ p (e.adjust offs size :: es) := by
      apply Table.update (show Table m p ([] ++ e :: es) from table) entry index (adjust_len _ _ _)
      intro i outside _
      exact other i outside
    obtain ⟨m₂,run,table₂,frame⟩ := ih fuel m₁ (p + e.len) (by simpa using table₁.tail) (by omega) small
    refine ⟨m₂,?_,?_,?_⟩
    · rw [adjustLoop,more,if_neg (by simp),here]
      simp only
      rw [eq,xattrNext,entry,adjust_len]
      exact run
    · constructor
      · refine ⟨?_,index,by simpa using table₂.entries⟩
        rw [entryAt_congr (m := m₁) fun i bound => frame _ (by rw [entry,adjust_len] at bound; omega),entry]
      · intro i bound
        have := table₂.stop i bound
        rwa [Nat.add_assoc p,← adjust_len offs size e,← tableSize_cons] at this
    · intro i outside
      rw [tableSize_cons] at outside
      rw [frame i (by omega),other i (by omega)]

end Tables

/-! ### Names -/

def emptyEntry (key : Key) : Entry := ⟨key.1,key.2,0,0,0⟩

/-- Indexes and lengths that the header of an entry can hold. -/
structure Named (key : Key) : Prop where
  index : 0 < key.1
  short : key.1 < 2 ^ 8
  name : key.2.length < 2 ^ 8

section Names
variable {m : Memory} {pre post : List Entry} {e : Entry} {key : Key}

theorem insertName_below (low : i < here) : insertName m here last key i = m i := by
  have := (xattrLen_bounds key.2.length).1
  rw [insertName]
  rw [memcpy_outside (by omega),write8_other (by omega),write8_other (by omega),memset_outside (by omega),memmove_outside (by omega)]

theorem insertName_moved (m : Memory) (key : Key) (here last i : Nat) (bound : i < last - here + 4) : insertName m here last key (here + xattrLen key.2.length + i) = m (here + i) := by
  have := (xattrLen_bounds key.2.length).1
  rw [insertName]
  rw [memcpy_outside (by omega),write8_other (by omega),write8_other (by omega),memset_outside (by omega),
    memmove_inside (by omega) (by omega),Nat.add_sub_cancel_left]

theorem insertName_above (high : here + xattrLen key.2.length + (last - here + 4) ≤ i) : insertName m here last key i = m i := by
  have := (xattrLen_bounds key.2.length).1
  rw [insertName]
  rw [memcpy_outside (by omega),write8_other (by omega),write8_other (by omega),memset_outside (by omega),memmove_outside (by omega)]

theorem insertName_entry (named : Named key) : entryAt (insertName m here last key) here = emptyEntry key := by
  have long := (xattrLen_bounds key.2.length).1
  have zero : ∀ i, here + 2 ≤ i → i < here + 16 → insertName m here last key i = 0 := by
    intro i low high
    rw [insertName]
    rw [memcpy_outside (by omega),write8_other (by omega),write8_other (by omega),memset_inside (by omega) (by omega)]
  have length : (insertName m here last key here).toNat = key.2.length := by
    rw [insertName]
    rw [memcpy_outside (by omega),write8_same,toNat_byte,Nat.mod_eq_of_lt named.name]
  have index : (insertName m here last key (here + 1)).toNat = key.1 := by
    rw [insertName]
    rw [memcpy_outside (by omega),write8_other (by omega),write8_same,toNat_byte,Nat.mod_eq_of_lt named.short]
  have name : run (insertName m here last key) (here + 16) key.2.length = key.2 := run_memcpy _ _ _
  have block : read32 (insertName m here last key) (here + 4) = 0 := read32_eq_zero.mpr fun i _ => zero _ (by omega) (by omega)
  have size : read32 (insertName m here last key) (here + 8) = 0 := read32_eq_zero.mpr fun i _ => zero _ (by omega) (by omega)
  have offs : read16 (insertName m here last key) (here + 2) = 0 := by
    rw [read16,zero _ (by omega) (by omega),zero _ (by omega) (by omega)]
    rfl
  rw [entryAt,length,index,name,block,size,offs,emptyEntry]

theorem emptyEntry_fits (key : Key) : (emptyEntry key).Fits low fin :=
  ⟨rfl,fun some => absurd some (Nat.lt_irrefl 0),fun some => absurd some (Nat.lt_irrefl 0),fun _ => rfl⟩

theorem insertName_area (area : Area h m first low fin (pre ++ post)) (named : Named key)
    (room : first + tableSize (pre ++ post) + xattrLen key.2.length + 4 ≤ low) :
    Area h (insertName m (first + tableSize pre) (first + tableSize (pre ++ post)) key) first low fin (pre ++ emptyEntry key :: post) ∧
      content (insertName m (first + tableSize pre) (first + tableSize (pre ++ post)) key) (pre ++ emptyEntry key :: post) =
        content m pre ++ (key,[]) :: content m post := by
  have long := (xattrLen_bounds key.2.length).1
  have len : (emptyEntry key).len = xattrLen key.2.length := rfl
  obtain ⟨before,after⟩ := entries_append.mp area.table.entries
  have stop := area.table.stop
  simp only [tableSize_append] at room stop ⊢
  constructor
  · refine ⟨fun i low => (insertName_below (by omega)).trans (area.header i low),
      ⟨entries_append.mpr ⟨entries_congr before fun i bound => insertName_below (by omega),insertName_entry named,named.index,?_⟩,
      fun i bound => ?_⟩,?_,by simpa [emptyEntry] using area.packed,fun f member => ?_,?_⟩
    · rw [len]
      exact entries_congr after fun i bound => insertName_moved _ _ _ _ _ (by omega)
    · rw [tableSize_append,tableSize_cons,len]
      have moved := insertName_moved m key (first + tableSize pre) (first + (tableSize pre + tableSize post)) (tableSize post + i) (by omega)
      rw [show first + (tableSize pre + (xattrLen key.2.length + tableSize post)) + i =
        first + tableSize pre + xattrLen key.2.length + (tableSize post + i) by omega,moved]
      have := stop i bound
      rwa [show first + tableSize pre + (tableSize post + i) = first + (tableSize pre + tableSize post) + i by omega]
    · rw [tableSize_append,tableSize_cons,len]
      omega
    · cases mem_middle.mp member with
      | inl same => exact same ▸ emptyEntry_fits key
      | inr other => exact area.fits f other
    · exact apart_middle.mpr ⟨fun f _ some => absurd some (Nat.lt_irrefl 0),area.apart⟩
  · have values (es : List Entry) (part : ∀ f ∈ es, f ∈ pre ++ post) :
        content (insertName m (first + tableSize pre) (first + (tableSize pre + tableSize post)) key) es = content m es :=
      content_congr (fun f member => area.fits f (part f member)) fun i above _ => insertName_above (by omega)
    rw [content_append,content_cons,values pre (by simp_all),values post (by simp_all)]
    rfl

theorem removeName_area (area : Area h m first low fin (pre ++ e :: post)) (empty : e.valueSize = 0) :
    Area h (removeName m (first + tableSize pre) (first + tableSize (pre ++ e :: post)) e.name.length) first low fin (pre ++ post) ∧
      content (removeName m (first + tableSize pre) (first + tableSize (pre ++ e :: post)) e.name.length) (pre ++ post) =
        content m (pre ++ post) := by
  have long := len_long e
  have len : e.len = xattrLen e.name.length := rfl
  obtain ⟨before,here,_,after⟩ := entries_append.mp area.table.entries
  have stop := area.table.stop
  have room := area.room
  simp only [tableSize_append,tableSize_cons] at stop room ⊢
  have last : first + (tableSize pre + (e.len + tableSize post)) - e.len = first + tableSize pre + tableSize post := by omega
  rw [removeName,← len]
  rw [last]
  constructor
  · refine ⟨fun i low => ?_,⟨entries_append.mpr ⟨entries_congr before fun i bound => ?_,entries_congr after fun i bound => ?_⟩,fun i bound => ?_⟩,
      ?_,by simpa [empty] using area.packed,fun f member => area.fits f (mem_middle.mpr (.inr member)),(apart_middle.mp area.apart).2⟩
    · rw [memset_outside (by omega),memmove_outside (by omega),area.header i low]
    · rw [memset_outside (by omega),memmove_outside (by omega)]
    · rw [memset_outside (by omega),memmove_inside (by omega) (by omega),Nat.add_sub_cancel_left]
    · rw [tableSize_append,← Nat.add_assoc first]
      exact memset_inside (by omega) (by omega)
    · rw [tableSize_append]
      omega
  · apply content_congr (fun f member => area.fits f (mem_middle.mpr (.inr member)))
    intro i above _
    rw [memset_outside (by omega),memmove_outside (by omega)]

end Names

/-! ### Values -/

section Values
variable {m m' : Memory} {pre post : List Entry} {e : Entry} {value : List UInt8}

/-- The other values survive what happens in the place of one value. -/
theorem content_others (fits : ∀ f ∈ es, Entry.Fits low fin f) (apart : ∀ f ∈ es, Apart e f) (some : 0 < e.valueSize)
    (same : ∀ i, low ≤ i → i < fin → i < e.valueOffs ∨ e.valueOffs + xattrSize e.valueSize ≤ i → m' i = m i) :
    content m' es = content m es := by
  apply List.map_congr_left
  intro f member
  have fit := fits f member
  refine Prod.ext rfl (run_congr fun i bound => ?_)
  have valued : 0 < f.valueSize := by omega
  have above := fit.above valued
  have within := fit.within valued
  have long := (xattrSize_bounds f.valueSize).1
  exact same _ (by omega) (by omega) (by have := apart f member some valued; omega)

theorem replaceValue_area (area : Area h m first low fin (pre ++ e :: post)) (some : 0 < e.valueSize)
    (size : xattrSize e.valueSize = xattrSize value.length) (small : value.length < 2 ^ 32) :
    ∃ e', e'.key = e.key ∧ e'.len = e.len ∧
      Area h (replaceValue m (first + tableSize pre) value) first low fin (pre ++ e' :: post) ∧
      content (replaceValue m (first + tableSize pre) value) (pre ++ e' :: post) =
        content m pre ++ (e.key,value) :: content m post := by
  obtain ⟨here,index⟩ := area.table.entry
  have fit := area.fits e (mem_middle.mpr (.inl rfl))
  have above := fit.above some
  have within := fit.within some
  have short := (xattrSize_bounds value.length).1
  have words : 4 ≤ xattrSize e.valueSize := by
    rw [xattrSize]
    omega
  have room := area.room
  have long := len_long e
  obtain ⟨apart,others⟩ := apart_middle.mp area.apart
  simp only [tableSize_append,tableSize_cons] at room
  have bytes : ∀ i, i < first + tableSize pre + 8 ∨ first + tableSize pre + 12 ≤ i →
      i < e.valueOffs ∨ e.valueOffs + xattrSize e.valueSize ≤ i →
      replaceValue m (first + tableSize pre) value i = m i := by
    intro i outside apart
    rw [replaceValue,here,memcpy_outside (by omega),memset_outside (by omega),write32_other (by omega)]
  have entry : entryAt (replaceValue m (first + tableSize pre) value) (first + tableSize pre) = { e with valueSize := value.length } := by
    rw [← here]
    apply entryAt_size
    · intro i _ outside inner
      rw [here] at inner
      exact bytes i (by omega) (by omega)
    · rw [replaceValue,here]
      rw [read32_congr (m := write32 m (first + tableSize pre + 8) value.length) fun i _ => by
        rw [memcpy_outside (by omega),memset_outside (by omega)]]
      exact read32_write32 _ _ small
  refine ⟨{ e with valueSize := value.length },rfl,rfl,⟨fun i low => (bytes i (by omega) (by omega)).trans (area.header i low),?_,?_,by simpa [size] using area.packed,fun f member => ?_,?_⟩,?_⟩
  · refine area.table.update entry index rfl fun i outside inner => ?_
    simp only [tableSize_append,tableSize_cons] at inner
    exact bytes i (by omega) (by omega)
  · simp only [tableSize_append,tableSize_cons]
    exact room
  · cases mem_middle.mp member with
    | inl same =>
      subst same
      refine ⟨fit.block,fun _ => above,fun _ => size ▸ within,fun nothing => ?_⟩
      have : value.length = 0 := nothing
      rw [size,this,xattrSize_zero] at words
      omega
    | inr other => exact area.fits f (mem_middle.mpr (.inr other))
  · refine apart_middle.mpr ⟨fun f member first second => ?_,others⟩
    have := apart f member some second
    simp only [← size]
    exact this
  · have rest (es : List Entry) (part : ∀ f ∈ es, f ∈ pre ++ post) :
        content (replaceValue m (first + tableSize pre) value) es = content m es :=
      content_others (fun f member => area.fits f (mem_middle.mpr (.inr (part f member)))) (fun f member => apart f (part f member))
        some fun i low _ outside => bytes i (by omega) outside
    have stored : run (replaceValue m (first + tableSize pre) value) e.valueOffs value.length = value := by
      rw [replaceValue,here]
      exact run_memcpy _ _ _
    rw [content_append,content_cons,rest pre (by simp_all),rest post (by simp_all),valueOf]
    simp only [stored]
    rfl

theorem xattrSize_words (some : 0 < n) : 4 ≤ xattrSize n := by
  rw [xattrSize]
  omega

theorem insertValue_nil (m : Memory) (here low : Nat) : insertValue m here low [] = write32 m (here + 8) 0 := by
  rw [insertValue,if_pos rfl,List.length_nil]

theorem insertValue_cons (nothing : value ≠ []) : insertValue m here low value =
    memcpy (memset (write16 (write32 m (here + 8) value.length) (here + 2) (low - xattrSize value.length)) (low - 4) 4)
      (low - xattrSize value.length) value := if_neg nothing

theorem insertValue_other (nothing : value ≠ []) (room : xattrSize value.length ≤ low)
    (header : i < here + 2 ∨ (here + 4 ≤ i ∧ i < here + 8) ∨ here + 12 ≤ i)
    (apart : i < low - xattrSize value.length ∨ low ≤ i) : insertValue m here low value i = m i := by
  have short := (xattrSize_bounds value.length).1
  have words := xattrSize_words (List.length_pos_iff.mpr nothing)
  rw [insertValue_cons nothing,memcpy_outside (by omega),memset_outside (by omega),write16_other (by omega),write32_other (by omega)]

theorem insertValue_entry (nothing : value ≠ []) (here : entryAt m p = e) (room : p + e.len + xattrSize value.length ≤ low)
    (small : low < 2 ^ 16) : entryAt (insertValue m p low value) p =
      { e with valueOffs := low - xattrSize value.length, valueSize := value.length } := by
  have short := (xattrSize_bounds value.length).1
  have words := xattrSize_words (List.length_pos_iff.mpr nothing)
  have long := len_long e
  have sized : entryAt (write32 m (p + 8) value.length) p = { e with valueSize := value.length } :=
    here ▸ entryAt_size (fun i _ outside _ => write32_other (by omega)) (read32_write32 _ _ (by omega))
  have placed : entryAt (insertValue m p low value) p =
      { entryAt (write32 m (p + 8) value.length) p with valueOffs := low - xattrSize value.length } := by
    apply entryAt_offs
    · intro i _ outside inner
      rw [sized] at inner
      have inner : i < p + e.len := inner
      rw [insertValue_cons nothing,memcpy_outside (by omega),memset_outside (by omega),write16_other (by omega)]
    · have field := read16_write16 (write32 m (p + 8) value.length) (p + 2) (show low - xattrSize value.length < 2 ^ 16 by omega)
      rw [insertValue_cons nothing,← field]
      apply read16_congr <;> rw [memcpy_outside (by omega),memset_outside (by omega),field]
  rw [placed,sized]

theorem insertValue_area (value : List UInt8) (area : Area h m first low fin (pre ++ e :: post)) (empty : e.valueSize = 0)
    (room : first + tableSize (pre ++ e :: post) + 4 + xattrSize value.length ≤ low) (small : fin < 2 ^ 16) :
    ∃ e' low', e'.key = e.key ∧ e'.len = e.len ∧
      Area h (insertValue m (first + tableSize pre) low value) first low' fin (pre ++ e' :: post) ∧
      content (insertValue m (first + tableSize pre) low value) (pre ++ e' :: post) =
        content m pre ++ (e.key,value) :: content m post := by
  obtain ⟨here,index⟩ := area.table.entry
  have fit := area.fits e (mem_middle.mpr (.inl rfl))
  have bound := area.bound
  have long := len_long e
  obtain ⟨apart,others⟩ := apart_middle.mp area.apart
  simp only [tableSize_append,tableSize_cons] at room
  by_cases nothing : value = []
  · subst nothing
    rw [insertValue_nil]
    have entry : entryAt (write32 m (first + tableSize pre + 8) 0) (first + tableSize pre) = e := by
      have written : entryAt (write32 m (first + tableSize pre + 8) 0) (first + tableSize pre) =
          { entryAt m (first + tableSize pre) with valueSize := 0 } := entryAt_size
        (fun i _ outside _ => write32_other (by omega)) (read32_write32 _ _ (by simp))
      rw [written,here,← empty]
    refine ⟨e,low,rfl,rfl,⟨fun i below => (write32_other (by omega)).trans (area.header i below),area.table.update entry index rfl fun i outside _ => write32_other (by omega),?_,area.packed,area.fits,area.apart⟩,?_⟩
    · simp only [tableSize_append,tableSize_cons]
      omega
    · rw [content_congr area.fits fun i above _ => write32_other (by omega),content_append,content_cons,valueOf,empty,run_zero]
  · have short := (xattrSize_bounds value.length).1
    have entry := insertValue_entry nothing here (by omega) (Nat.lt_of_le_of_lt bound small)
    refine ⟨_,low - xattrSize value.length,?_,?_,⟨fun i below => ?_,area.table.update entry index ?_ fun i outside inner => ?_,?_,?_,fun f member => ?_,?_⟩,?_⟩
    · rfl
    · rfl
    · exact (insertValue_other nothing (by omega) (by omega) (by omega)).trans (area.header i below)
    · rfl
    · simp only [tableSize_append,tableSize_cons] at inner
      exact insertValue_other nothing (by omega) (by omega) (by omega)
    · simp only [tableSize_append,tableSize_cons]
      rw [show Entry.len { e with valueOffs := low - xattrSize value.length, valueSize := value.length } = e.len from rfl]
      omega
    · have packed := area.packed
      simp only [valueSpace_append,valueSpace_cons,empty,xattrSize_zero] at packed ⊢
      omega
    · cases mem_middle.mp member with
      | inl same =>
        subst same
        refine ⟨fit.block,fun _ => Nat.le_refl _,fun _ => ?_,fun empty => absurd (List.length_eq_zero_iff.mp empty) nothing⟩
        rw [Nat.sub_add_cancel (by omega)]
        exact bound
      | inr other => exact (area.fits f (mem_middle.mpr (.inr other))).mono (Nat.sub_le _ _)
    · refine apart_middle.mpr ⟨fun f member _ valued => .inl ?_,others⟩
      rw [Nat.sub_add_cancel (by omega)]
      exact (area.fits f (mem_middle.mpr (.inr member))).above valued
    · have rest (es : List Entry) (part : ∀ f ∈ es, f ∈ pre ++ post) :
          content (insertValue m (first + tableSize pre) low value) es = content m es :=
        content_congr (fun f member => area.fits f (mem_middle.mpr (.inr (part f member))))
          fun i above _ => insertValue_other nothing (by omega) (by omega) (by omega)
      have stored : run (insertValue m (first + tableSize pre) low value) (low - xattrSize value.length) value.length = value := by
        rw [insertValue_cons nothing]
        exact run_memcpy _ _ _
      rw [content_append,content_cons,rest pre (by simp_all),rest post (by simp_all),valueOf,stored]
      rfl

theorem adjust_spec (fits : Entry.Fits low fin f) (apart : Apart e f) (some : 0 < e.valueSize) :
    (f.adjust e.valueOffs (xattrSize e.valueSize)).key = f.key ∧
      (f.adjust e.valueOffs (xattrSize e.valueSize)).valueSize = f.valueSize ∧
      (f.adjust e.valueOffs (xattrSize e.valueSize)).valueBlock = f.valueBlock ∧
      (0 < f.valueSize → f.valueOffs + xattrSize f.valueSize ≤ e.valueOffs ∧
          (f.adjust e.valueOffs (xattrSize e.valueSize)).valueOffs = f.valueOffs + xattrSize e.valueSize ∨
        e.valueOffs + xattrSize e.valueSize ≤ f.valueOffs ∧
          (f.adjust e.valueOffs (xattrSize e.valueSize)).valueOffs = f.valueOffs) := by
  have words := xattrSize_words some
  rw [Entry.adjust]
  split
  · rename_i moved
    refine ⟨rfl,rfl,rfl,fun valued => .inl ⟨?_,rfl⟩⟩
    have := apart some valued
    omega
  · rename_i kept
    refine ⟨rfl,rfl,rfl,fun valued => .inr ⟨?_,rfl⟩⟩
    have words' := xattrSize_words valued
    have := apart some valued
    have : ¬f.valueOffs < e.valueOffs := fun less => kept ⟨(valued_iff fits).mpr valued,less⟩
    omega

/-- What the removal of a value does in the place of the values. -/
theorem compacted_bytes (m : Memory) (low offs size : Nat) : (∀ i, low ≤ i → i < offs →
      memset (memmove m (low + size) low (offs - low)) low size (i + size) = m i) ∧
    ∀ i, i < low ∨ offs + size ≤ i → low ≤ offs → memset (memmove m (low + size) low (offs - low)) low size i = m i := by
  constructor
  · intro i above below
    rw [memset_outside (by omega),memmove_inside (by omega) (by omega)]
    congr 1
    omega
  · intro i outside le
    rw [memset_outside (by omega),memmove_outside (by omega)]

theorem adjust_fits (fits : Entry.Fits low fin f) (apart : Apart e f) (some : 0 < e.valueSize) (above : low ≤ e.valueOffs)
    (within : e.valueOffs + xattrSize e.valueSize ≤ fin) :
    (f.adjust e.valueOffs (xattrSize e.valueSize)).Fits (low + xattrSize e.valueSize) fin := by
  obtain ⟨_,size,block,place⟩ := adjust_spec fits apart some
  refine ⟨block.trans fits.block,fun valued => ?_,fun valued => ?_,fun empty => ?_⟩
  · rw [size] at valued
    have := fits.above valued
    rcases place valued with ⟨_,moved⟩ | ⟨_,kept⟩ <;> omega
  · rw [size] at valued ⊢
    have := fits.within valued
    rcases place valued with ⟨_,moved⟩ | ⟨_,kept⟩ <;> omega
  · rw [size] at empty
    rw [Entry.adjust,if_neg (by simp [Entry.valued,empty]),fits.unset empty]

theorem adjust_apart (first : Entry.Fits low fin f) (second : Entry.Fits low fin g) (apartF : Apart e f) (apartG : Apart e g)
    (some : 0 < e.valueSize) (apart : Apart f g) :
    Apart (f.adjust e.valueOffs (xattrSize e.valueSize)) (g.adjust e.valueOffs (xattrSize e.valueSize)) := by
  obtain ⟨_,sizeF,_,placeF⟩ := adjust_spec first apartF some
  obtain ⟨_,sizeG,_,placeG⟩ := adjust_spec second apartG some
  intro valuedF valuedG
  rw [sizeF] at valuedF ⊢
  rw [sizeG] at valuedG ⊢
  have sides := apart valuedF valuedG
  rcases placeF valuedF with ⟨_,offsF⟩ | ⟨_,offsF⟩ <;> rcases placeG valuedG with ⟨_,offsG⟩ | ⟨_,offsG⟩ <;> omega

/-- The values that moved are found where their entries were adjusted to. -/
theorem adjust_content (fits : ∀ f ∈ es, Entry.Fits low fin f) (apart : ∀ f ∈ es, Apart e f) (some : 0 < e.valueSize)
    (moved : ∀ i, low ≤ i → i < e.valueOffs → m' (i + xattrSize e.valueSize) = m i)
    (kept : ∀ i, e.valueOffs + xattrSize e.valueSize ≤ i → m' i = m i) :
    content m' (es.map (Entry.adjust e.valueOffs (xattrSize e.valueSize))) = content m es := by
  rw [content,content,List.map_map]
  apply List.map_congr_left
  intro f member
  obtain ⟨key,size,_,place⟩ := adjust_spec (fits f member) (apart f member) some
  refine Prod.ext key ?_
  rw [Function.comp_apply,valueOf,size]
  apply run_congr
  intro i bound
  have valued : 0 < f.valueSize := by omega
  have above := (fits f member).above valued
  have long := (xattrSize_bounds f.valueSize).1
  rcases place valued with ⟨below,offs⟩ | ⟨beyond,offs⟩
  · rw [offs,show f.valueOffs + xattrSize e.valueSize + i = f.valueOffs + i + xattrSize e.valueSize by omega]
    exact moved _ (by omega) (by omega)
  · rw [offs]
    exact kept _ (by omega)

theorem removeValue_area (area : Area h m first low fin (pre ++ e :: post)) (some : 0 < e.valueSize) (small : fin < 2 ^ 16)
    (enough : (pre ++ e :: post).length < fin) :
    ∃ m' pre' e' post', removeValue m fin first (first + tableSize pre) low = Option.some m' ∧
      e'.key = e.key ∧ e'.len = e.len ∧ e'.valueSize = 0 ∧ tableSize pre' = tableSize pre ∧ tableSize post' = tableSize post ∧
      Area h m' first (low + xattrSize e.valueSize) fin (pre' ++ e' :: post') ∧
      content m' pre' = content m pre ∧ content m' post' = content m post := by
  obtain ⟨here,index⟩ := area.table.entry
  have fit := area.fits e (mem_middle.mpr (.inl rfl))
  have above := fit.above some
  have within := fit.within some
  have long := len_long e
  have room := area.room
  have words := xattrSize_words some
  obtain ⟨apart,others⟩ := apart_middle.mp area.apart
  simp only [tableSize_append,tableSize_cons] at room
  obtain ⟨moved,kept⟩ := compacted_bytes m low e.valueOffs (xattrSize e.valueSize)
  rw [removeValue,here]
  generalize memory : memset (memmove m (low + xattrSize e.valueSize) low (e.valueOffs - low)) low (xattrSize e.valueSize) = m₁ at moved kept ⊢
  have cleared : entryAt (write16 (write32 m₁ (first + tableSize pre + 8) 0) (first + tableSize pre + 2) 0) (first + tableSize pre) =
      { e with valueOffs := 0, valueSize := 0 } := by
    have same : entryAt m₁ (first + tableSize pre) = e := by
      rw [← here]
      exact entryAt_congr fun i bound => kept _ (by rw [here] at bound; omega) above
    have sized : entryAt (write32 m₁ (first + tableSize pre + 8) 0) (first + tableSize pre) =
        { entryAt m₁ (first + tableSize pre) with valueSize := 0 } :=
      entryAt_size (fun i _ outside _ => write32_other (by omega)) (read32_write32 _ _ (by simp))
    have placed : entryAt (write16 (write32 m₁ (first + tableSize pre + 8) 0) (first + tableSize pre + 2) 0) (first + tableSize pre) =
        { entryAt (write32 m₁ (first + tableSize pre + 8) 0) (first + tableSize pre) with valueOffs := 0 } :=
      entryAt_offs (fun i _ outside _ => write16_other (by omega)) (read16_write16 _ _ (by simp))
    rw [placed,sized,same]
  have table : Table (write16 (write32 m₁ (first + tableSize pre + 8) 0) (first + tableSize pre + 2) 0) first
      (pre ++ { e with valueOffs := 0, valueSize := 0 } :: post) := by
    refine area.table.update cleared index rfl fun i outside inner => ?_
    simp only [tableSize_append,tableSize_cons] at inner
    rw [write16_other (by omega),write32_other (by omega),kept _ (by omega) above]
  obtain ⟨m',run,table',frame⟩ := adjustLoop_spec e.valueOffs (xattrSize e.valueSize) _ fin _ _ table
    (by simpa using enough) (by omega)
  have e'Eq : Entry.adjust e.valueOffs (xattrSize e.valueSize) { e with valueOffs := 0, valueSize := 0 } =
      { e with valueOffs := 0, valueSize := 0 } := if_neg (by simp [Entry.valued])
  rw [List.map_append,List.map_cons,e'Eq] at table'
  have final : ∀ i, low ≤ i → m' i = m₁ i := by
    intro i high
    rw [frame i (by simp only [tableSize_append,tableSize_cons]; exact .inr (by change _ + (_ + (e.len + _)) ≤ i; omega)),
      write16_other (by omega),write32_other (by omega)]
  have fits : ∀ f ∈ pre ++ post, Entry.Fits low fin f := fun f member => area.fits f (mem_middle.mpr (.inr member))
  have adjusted : ∀ f ∈ pre.map (Entry.adjust e.valueOffs (xattrSize e.valueSize)) ++
      post.map (Entry.adjust e.valueOffs (xattrSize e.valueSize)), ∃ g ∈ pre ++ post, g.adjust e.valueOffs (xattrSize e.valueSize) = f := by
    intro f member
    rwa [← List.map_append,List.mem_map] at member
  have values (es : List Entry) (part : ∀ f ∈ es, f ∈ pre ++ post) :
      content m' (es.map (Entry.adjust e.valueOffs (xattrSize e.valueSize))) = content m es :=
    adjust_content (fun f member => fits f (part f member)) (fun f member => apart f (part f member)) some
      (fun i low high => by rw [final _ (by omega),moved i low high]) fun i high => by rw [final _ (by omega),kept _ (.inr high) above]
  refine ⟨m',_,_,_,run,?_,?_,?_,adjust_tableSize _ _ _,adjust_tableSize _ _ _,⟨fun i below => ?_,table',?_,?_,fun f member => ?_,?_⟩,
    values pre (by simp_all),values post (by simp_all)⟩
  · rfl
  · rfl
  · rfl
  · rw [frame i (.inl below),write16_other (by omega),write32_other (by omega),kept i (by omega) above,area.header i below]
  · simp only [tableSize_append,tableSize_cons,adjust_tableSize]
    rw [show Entry.len { e with valueOffs := 0, valueSize := 0 } = e.len from rfl]
    omega
  · have packed := area.packed
    simp only [valueSpace_append,valueSpace_cons,adjust_valueSpace,xattrSize_zero] at packed ⊢
    omega
  · cases mem_middle.mp member with
    | inl same =>
      subst same
      exact ⟨fit.block,fun valued => absurd valued (Nat.lt_irrefl 0),fun valued => absurd valued (Nat.lt_irrefl 0),fun _ => rfl⟩
    | inr other =>
      obtain ⟨g,place,rfl⟩ := adjusted f other
      exact adjust_fits (fits g place) (apart g place) some above within
  · refine apart_middle.mpr ⟨fun f _ valued => absurd valued (Nat.lt_irrefl 0),?_⟩
    rw [← List.map_append,List.pairwise_map]
    exact others.imp_of_mem fun {f g} first second sides =>
      adjust_apart (fits f first) (fits g second) (apart f first) (apart g second) some sides

end Values

/-! ### The room of an area -/

/-- Values that do not overlap have the room of their sizes. -/
theorem valueSpace_le (es : List Entry) (low : ∀ e ∈ es, 0 < e.valueSize → a ≤ e.valueOffs)
    (high : ∀ e ∈ es, 0 < e.valueSize → e.valueOffs + xattrSize e.valueSize ≤ b) (apart : es.Pairwise Apart) : valueSpace es ≤ b - a := by
  have cells : ∃ cells : Finset Nat, cells.card = valueSpace es ∧ cells ⊆ Finset.Ico a b ∧
      ∀ i ∈ cells, ∃ e ∈ es, 0 < e.valueSize ∧ e.valueOffs ≤ i ∧ i < e.valueOffs + xattrSize e.valueSize := by
    induction es with
    | nil => exact ⟨∅,rfl,by simp,by simp⟩
    | cons e es ih =>
      obtain ⟨alone,apart⟩ := List.pairwise_cons.mp apart
      obtain ⟨cells,card,inside,owner⟩ := ih (fun f member => low f (List.mem_cons_of_mem _ member))
        (fun f member => high f (List.mem_cons_of_mem _ member)) apart
      by_cases empty : e.valueSize = 0
      · refine ⟨cells,by rw [card,valueSpace_cons,empty,xattrSize_zero,Nat.zero_add],inside,fun i member => ?_⟩
        obtain ⟨f,place,found⟩ := owner i member
        exact ⟨f,List.mem_cons_of_mem _ place,found⟩
      · have valued : 0 < e.valueSize := by omega
        have above := low e List.mem_cons_self valued
        have below := high e List.mem_cons_self valued
        refine ⟨Finset.Ico e.valueOffs (e.valueOffs + xattrSize e.valueSize) ∪ cells,?_,?_,?_⟩
        · rw [Finset.card_union_of_disjoint,card,Nat.card_Ico,valueSpace_cons,Nat.add_sub_cancel_left]
          apply Finset.disjoint_left.mpr
          intro i here there
          obtain ⟨f,place,valued',lower,upper⟩ := owner i there
          have range := Finset.mem_Ico.mp here
          have := alone f place valued valued'
          omega
        · apply Finset.union_subset _ inside
          exact Finset.Ico_subset_Ico above below
        · intro i member
          cases Finset.mem_union.mp member with
          | inl here =>
            have range := Finset.mem_Ico.mp here
            exact ⟨e,List.mem_cons_self,valued,range.1,range.2⟩
          | inr there =>
            obtain ⟨f,place,found⟩ := owner i there
            exact ⟨f,List.mem_cons_of_mem _ place,found⟩
  obtain ⟨cells,card,inside,_⟩ := cells
  rw [← card,← Nat.card_Ico]
  exact Finset.card_le_card inside

/-- The loop over the entries finds where the values begin, as there are no holes between them. -/
theorem Area.space (area : Area h m first low fin es) (enough : es.length < fuel) :
    spaceLoop m fuel first fin = some (first + tableSize es,low) := by
  obtain ⟨low',run,le,below,reached⟩ := spaceLoop_spec es fuel first fin area.table enough
  have above : low ≤ low' := by
    rcases reached with same | ⟨e,member,valued,same⟩
    · rw [same]
      exact area.bound
    · rw [same]
      exact (area.fits e member).above ((valued_iff (area.fits e member)).mp valued)
  have space := valueSpace_le es (a := low') (b := fin) (fun e member valued => below e member ((valued_iff (area.fits e member)).mpr valued))
    (fun e member => (area.fits e member).within) area.apart
  have packed := area.packed
  rw [run,show low' = low by omega]

theorem Area.short (area : Area h m first low fin es) : es.length < fin := by
  have := length_le_tableSize es
  have := area.room
  have := area.bound
  omega

/-- The bytes that names with their values take. -/
def need (attrs : List (Key × List UInt8)) : Nat := (attrs.map fun a => xattrLen a.1.2.length + xattrSize a.2.length).sum

@[simp] theorem need_append (xs ys : List (Key × List UInt8)) : need (xs ++ ys) = need xs + need ys := by simp [need]

@[simp] theorem need_cons (a : Key × List UInt8) (attrs : List (Key × List UInt8)) :
    need (a :: attrs) = xattrLen a.1.2.length + xattrSize a.2.length + need attrs := rfl

theorem need_content (m : Memory) (es : List Entry) : need (content m es) = tableSize es + valueSpace es := by
  induction es with
  | nil => rfl
  | cons e es ih =>
    rw [content_cons,need_cons,ih,tableSize_cons,valueSpace_cons,show (valueOf m e).length = e.valueSize from run_length _ _ _]
    change xattrLen e.name.length + _ + _ = xattrLen e.name.length + _ + _
    omega

/-- The area from `first` to `fin` holds the names with their values, in this order. -/
def Holds (h m : Memory) (first fin : Nat) (attrs : List (Key × List UInt8)) : Prop :=
  ∃ low es, Area h m first low fin es ∧ content m es = attrs

/-- A word of zeros ends the names. -/
def Room (first fin : Nat) (attrs : List (Key × List UInt8)) : Prop := first + need attrs + 4 ≤ fin

instance (first fin : Nat) (attrs : List (Key × List UInt8)) : Decidable (Room first fin attrs) := inferInstanceAs (Decidable (_ ≤ _))

theorem Area.free (area : Area h m first low fin es) (small : fin < 2 ^ 16) :
    (low + 2 ^ 64 - (first + tableSize es) + 2 ^ 64 - 4) % 2 ^ 64 = low - (first + tableSize es) - 4 := by
  have := area.room
  have := area.bound
  omega

section Setting
variable {m : Memory} {pre post : List Entry} {e : Entry} {key : Key} {value : List UInt8}

theorem room_iff (area : Area h m first low fin (pre ++ post)) (key : Key) (value : List UInt8) :
    Room first fin (content m pre ++ (key,value) :: content m post) ↔
      first + tableSize (pre ++ post) + xattrLen key.2.length + xattrSize value.length + 4 ≤ low := by
  have packed := area.packed
  rw [Room,need_append,need_cons,need_content,need_content]
  simp only [tableSize_append,valueSpace_append] at packed ⊢
  omega

/-- A new name is stored with its value when there is room for both, and nothing happens otherwise. -/
theorem setEntry_insert (value : List UInt8) (area : Area h m first low fin (pre ++ post)) (small : fin < 2 ^ 16) (named : Named key) :
    if Room first fin (content m pre ++ (key,value) :: content m post) then
      ∃ m', setEntry ⟨key,some value⟩ ⟨first,fin,first + tableSize pre,true⟩ m = some (.ok,m') ∧
        Holds h m' first fin (content m pre ++ (key,value) :: content m post)
    else setEntry ⟨key,some value⟩ ⟨first,fin,first + tableSize pre,true⟩ m = some (.enospc,m) := by
  have free : freeSpace m ⟨key,some value⟩ ⟨first,fin,first + tableSize pre,true⟩ (first + tableSize (pre ++ post)) low =
      low - (first + tableSize (pre ++ post)) - 4 := by
    rw [freeSpace,if_pos rfl]
    exact area.free small
  have room := area.room
  rw [setEntry,area.space area.short,Option.bind_some]
  simp only [free,tooLarge,Option.isSome_some,Bool.true_and,if_true]
  by_cases fits : Room first fin (content m pre ++ (key,value) :: content m post)
  · rw [if_pos fits]
    rw [room_iff area] at fits
    obtain ⟨inserted,stored⟩ := insertName_area area named (by omega)
    have len : (emptyEntry key).len = xattrLen key.2.length := rfl
    obtain ⟨e',low',_,_,area',stored'⟩ := insertValue_area value inserted rfl (by
      simp only [tableSize_append,tableSize_cons] at fits ⊢
      omega) small
    rw [if_neg (by simp only [Bool.or_eq_true,decide_eq_true_eq]; omega)]
    refine ⟨_,rfl,low',_,area',?_⟩
    rw [content_append,content_cons] at stored
    obtain ⟨before,after⟩ := List.append_inj stored (by simp [content])
    exact stored'.trans (by rw [before,(List.cons.inj after).2]; rfl)
  · rw [if_neg fits]
    rw [room_iff area] at fits
    apply if_pos
    simp only [Bool.or_eq_true,decide_eq_true_eq]
    omega

theorem freeSpace_found (area : Area h m first low fin (pre ++ e :: post)) (small : fin < 2 ^ 16) (value : Option (List UInt8)) :
    freeSpace m ⟨e.key,value⟩ ⟨first,fin,first + tableSize pre,false⟩ (first + tableSize (pre ++ e :: post)) low =
      low - (first + tableSize (pre ++ e :: post)) - 4 + xattrSize e.valueSize + e.len := by
  have fit := area.fits e (mem_middle.mpr (.inl rfl))
  have room := area.room
  have packed := area.packed
  have free := area.free small
  have size : (if e.valued = true then xattrSize e.valueSize else 0) = xattrSize e.valueSize := by
    split
    · rfl
    · rename_i empty
      have := mt (valued_iff fit).mpr empty
      rw [show e.valueSize = 0 by omega,xattrSize_zero]
  rw [freeSpace,if_neg (by simp)]
  simp only
  rw [free,area.table.entry.1,size]
  simp only [tableSize_append,tableSize_cons,valueSpace_append,valueSpace_cons] at room packed ⊢
  rw [show xattrLen e.key.2.length = e.len from rfl]
  omega

/-- A name that is there gets the value when there is room, and keeps the old one otherwise. -/
theorem setEntry_replace (value : List UInt8) (area : Area h m first low fin (pre ++ e :: post)) (small : fin < 2 ^ 16) :
    if Room first fin (content m pre ++ (e.key,value) :: content m post) then
      ∃ m', setEntry ⟨e.key,some value⟩ ⟨first,fin,first + tableSize pre,false⟩ m = some (.ok,m') ∧
        Holds h m' first fin (content m pre ++ (e.key,value) :: content m post)
    else setEntry ⟨e.key,some value⟩ ⟨first,fin,first + tableSize pre,false⟩ m = some (.enospc,m) := by
  have fit := area.fits e (mem_middle.mpr (.inl rfl))
  have free := freeSpace_found area small (some value)
  have room := area.room
  have packed := area.packed
  have len : xattrLen e.key.2.length = e.len := rfl
  have room_iff : Room first fin (content m pre ++ (e.key,value) :: content m post) ↔
      first + tableSize (pre ++ e :: post) + xattrSize value.length + 4 ≤ low + xattrSize e.valueSize := by
    rw [Room,need_append,need_cons,need_content,need_content,len]
    simp only [tableSize_append,tableSize_cons,valueSpace_append,valueSpace_cons] at packed ⊢
    omega
  rw [setEntry,area.space area.short,Option.bind_some]
  simp only [free,tooLarge,Option.isSome_some,Bool.true_and,area.table.entry.1]
  by_cases fits : Room first fin (content m pre ++ (e.key,value) :: content m post)
  · rw [if_pos fits]
    rw [room_iff] at fits
    rw [if_neg (by simp only [Bool.or_eq_true,decide_eq_true_eq]; omega),if_neg (by simp)]
    by_cases valued : e.valued = true
    · have some : 0 < e.valueSize := (valued_iff fit).mp valued
      rw [if_pos valued]
      by_cases same : xattrSize e.valueSize = xattrSize value.length
      · have short := (xattrSize_bounds value.length).1
        have within := fit.within some
        obtain ⟨e',_,_,area',stored⟩ := replaceValue_area area some same (by omega)
        refine ⟨_,if_pos (by simpa [sameSize] using same),low,_,area',stored⟩
      · obtain ⟨m',pre',e',post',run,key,len',empty,sizePre,sizePost,area',before,after⟩ := removeValue_area area some small area.short
        have size : tableSize (pre' ++ e' :: post') = tableSize (pre ++ e :: post) := by simp [sizePre,sizePost,len']
        obtain ⟨e₂,low',_,_,area₂,stored'⟩ := insertValue_area value area' empty (by omega) small
        rw [sizePre] at area₂ stored'
        refine ⟨_,by rw [if_neg (by simpa [sameSize] using same),run]; rfl,low',_,area₂,stored'.trans ?_⟩
        rw [before,after,key]
    · have empty : e.valueSize = 0 := by
        have := mt (valued_iff fit).mpr valued
        omega
      rw [if_neg valued]
      obtain ⟨e',low',_,_,area',stored⟩ := insertValue_area value area empty (by rw [empty,xattrSize_zero] at fits; omega) small
      exact ⟨_,rfl,low',_,area',stored⟩
  · rw [if_neg fits]
    rw [room_iff] at fits
    apply if_pos
    simp only [Bool.or_eq_true,decide_eq_true_eq]
    omega

/-- A name is removed with its value. -/
theorem setEntry_remove (area : Area h m first low fin (pre ++ e :: post)) (small : fin < 2 ^ 16) :
    ∃ m', setEntry ⟨e.key,none⟩ ⟨first,fin,first + tableSize pre,false⟩ m = some (.ok,m') ∧
      Holds h m' first fin (content m pre ++ content m post) := by
  have fit := area.fits e (mem_middle.mpr (.inl rfl))
  rw [setEntry,area.space area.short,Option.bind_some]
  simp only [tooLarge,Option.isSome_none,Bool.false_and,area.table.entry.1]
  rw [if_neg (by simp),if_neg (by simp)]
  by_cases valued : e.valued = true
  · have some : 0 < e.valueSize := (valued_iff fit).mp valued
    obtain ⟨m',pre',e',post',run,key,len',empty,sizePre,sizePost,area',before,after⟩ := removeValue_area area some small area.short
    have size : tableSize (pre' ++ e' :: post') = tableSize (pre ++ e :: post) := by simp [sizePre,sizePost,len']
    have name : e'.name = e.name := congrArg Prod.snd key
    obtain ⟨area₂,stored'⟩ := removeName_area area' empty
    rw [sizePre,size,name] at area₂ stored'
    exact ⟨_,by rw [if_pos valued,if_neg (by simp [sameSize]),run]; rfl,_,_,area₂,stored'.trans (by rw [content_append,before,after])⟩
  · have empty : e.valueSize = 0 := by
      have := mt (valued_iff fit).mpr valued
      omega
    rw [if_neg valued]
    obtain ⟨area',stored⟩ := removeName_area area empty
    exact ⟨_,rfl,low,_,area',stored.trans (content_append _ _ _)⟩

end Setting

end Rozofs.Xattr
