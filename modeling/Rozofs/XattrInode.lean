import Rozofs.KeyTable
import Rozofs.XattrSet

/-! Extended attributes of an inode, from `xattr_nocache.c`: those that fit follow the attributes in the
inode, the others are in an extended block of their own. -/
namespace Rozofs.Xattr
open ByteMemory KeyTable

/-- The root inode: the attributes in `body` follow their header. -/
structure Root where
  extraIsize : Nat
  hasXattr : Bool
  body : Memory

/-- The extended inode: a block on disk, of reference `fileAcl`. -/
structure Extended where
  fileAcl : Nat
  block : Memory

/-- `lv2_entry_t`, as far as extended attributes go. -/
structure Inode where
  root : Root
  extended : Extended

/-- What the disk answers: whether the block is read, whether it is written in its place and `errno` after
that, the error (if any) and the reference of a new block, and the error when the inode is written. -/
structure Disk where
  read : Bool
  written : Bool
  errno : Nat
  create : Nat × Nat
  mark : Nat

/-- `ROZOFS_INODE_SZ`, less the header of the attributes. -/
def Root.fin (root : Root) : Nat := 512 - root.extraIsize - 4

/-- The last eight bytes are the reference of the block. -/
def blockEnd : Nat := 4096 - 8

def blockFirst : Nat := 32

def xattrMagic : Nat := 0xEA020000

def headerOk (m : Memory) : Bool := read32 m 0 = xattrMagic && read32 m 8 = 1

/-- `kzalloc`, and the header of a block. -/
def newBlock : Memory := write32 (write32 (write32 (fun _ => 0) 0 xattrMagic) 8 1) 4 1

/-! ### Reading -/

/-- Without a buffer only the size is asked for. -/
def readValue (m : Memory) (here : Nat) (buffer : Option Nat) : Except Status (Nat × List UInt8) :=
  let size := (entryAt m here).valueSize
  match buffer with
  | none => .ok (size,[])
  | some bufferSize => if bufferSize < size then .error .erange else .ok (size,run m (entryAt m here).valueOffs size)

def getFrom (m : Memory) (fin first : Nat) (key : Key) (sorted : Bool) (buffer : Option Nat) :
    Option (Except Status (Nat × List UInt8)) :=
  (findEntry m fin first key fin sorted).map fun r => if r.1 = .ok then readValue m r.2 buffer else .error r.1

/-- `ext4_xattr_ibody_get`. -/
def ibodyGet (root : Root) (key : Key) (buffer : Option Nat) : Option (Except Status (Nat × List UInt8)) :=
  if !root.hasXattr then some (.error .enodata)
  else
    (checkNames root.body root.fin root.fin 0).bind fun good =>
      if !good then some (.error .eio) else getFrom root.body root.fin 0 key false buffer

/-- `ext4_xattr_check_block`. -/
def checkBlock (m : Memory) : Option Bool :=
  if !headerOk m then some false else checkNames m blockEnd blockEnd blockFirst

/-- `ext4_xattr_block_get`: a block that is not read counts as one without the name. -/
def blockGet (disk : Disk) (ext : Extended) (key : Key) (buffer : Option Nat) : Option (Except Status (Nat × List UInt8)) :=
  if ext.fileAcl = 0 || !disk.read then some (.error .enodata)
  else
    (checkBlock ext.block).bind fun good =>
      if !good then some (.error .eio) else getFrom ext.block blockEnd blockFirst key true buffer

/-- `ext4_xattr_get`. -/
def xattrGet (disk : Disk) (inode : Inode) (key : Key) (buffer : Option Nat) : Option (Except Status (Nat × List UInt8)) :=
  (ibodyGet inode.root key buffer).bind fun r =>
    match r with
    | .error .enodata => blockGet disk inode.extended key buffer
    | r => some r

/-! ### Writing -/

/-- `ext4_xattr_ibody_find`. -/
def ibodyFind (root : Root) (key : Key) : Option (Status × Search) :=
  if root.extraIsize = 0 then some (.ok,⟨0,0,0,true⟩)
  else if !root.hasXattr then some (.ok,⟨0,root.fin,0,true⟩)
  else
    (checkNames root.body root.fin root.fin 0).bind fun good =>
      if !good then some (.eio,⟨0,root.fin,0,true⟩)
      else
        (findEntry root.body root.fin 0 key root.fin false).map fun r =>
          (if r.1 = .enodata then .ok else r.1,⟨0,root.fin,r.2,r.1 ≠ .ok⟩)

/-- `ext4_xattr_block_find`; without an extended block nothing is searched. -/
def blockFind (disk : Disk) (ext : Extended) (key : Key) : Option (Status × Option Search) :=
  if ext.fileAcl = 0 then some (.ok,none)
  else if !disk.read then some (.eio,none)
  else
    (checkBlock ext.block).bind fun good =>
      if !good then some (.eio,none)
      else
        (findEntry ext.block blockEnd blockFirst key blockEnd true).map fun r =>
          (if r.1 = .enodata then .ok else r.1,some ⟨blockFirst,blockEnd,r.2,r.1 ≠ .ok⟩)

def absent (s : Option Search) : Bool := s.all Search.notFound

/-- `ext4_xattr_ibody_set`. -/
def ibodySet (root : Root) (i : Info) (s : Search) : Option (Status × Root) :=
  if root.extraIsize = 0 then some (.enospc,root)
  else
    (setEntry i s root.body).map fun r =>
      if r.1 = .ok then (.ok,{ root with body := r.2, hasXattr := !isLastEntry r.2 s.first })
      else (r.1,{ root with body := r.2 })

def tooLong (i : Info) : Bool :=
  match i.value with
  | none => false
  | some value => blockEnd < value.length

/-- A block is written in its place. The test of the result is missing in `ext4_handle_dirty_metadata`:
whatever is in `errno` is returned, also when the block was written. -/
def rewriteBlock (disk : Disk) (ext : Extended) (m : Memory) : Status × Extended :=
  let block := if disk.written then m else ext.block
  if disk.errno ≠ 0 then (.failed disk.errno,{ ext with block })
  else (.ok,⟨if isLastEntry m blockFirst then 0 else ext.fileAcl,block⟩)

def createBlock (disk : Disk) (ext : Extended) (m : Memory) : Status × Extended :=
  if isLastEntry m blockFirst then (.ok,{ ext with fileAcl := 0 })
  else if disk.create.1 ≠ 0 then (.failed disk.create.1,ext)
  else (.ok,⟨disk.create.2,m⟩)

/-- `ext4_xattr_block_set`. -/
def blockSet (disk : Disk) (ext : Extended) (i : Info) (s : Option Search) : Option (Status × Extended) :=
  if tooLong i then some (.enospc,ext)
  else
    match s with
    | some s => (setEntry i s ext.block).map fun r => if r.1 = .ok then rewriteBlock disk ext r.2 else (r.1,ext)
    | none =>
      (setEntry i ⟨blockFirst,blockEnd,blockFirst,true⟩ newBlock).map fun r =>
        if r.1 = .ok then createBlock disk ext r.2 else (r.1,ext)

/-- The value did not fit in the root inode: it goes to the extended one, and what the root inode has of it goes. -/
def moveToBlock (disk : Disk) (inode : Inode) (key : Key) (value : List UInt8) (is : Search) (bs : Option Search) :
    Option (Status × Inode) :=
  (if inode.extended.fileAcl ≠ 0 ∧ bs.isNone then blockFind disk inode.extended key else some (.ok,bs)).bind fun found =>
    if found.1 ≠ .ok then some (found.1,inode)
    else
      (blockSet disk inode.extended ⟨key,some value⟩ found.2).bind fun r =>
        if r.1 ≠ .ok ∨ is.notFound then some (r.1,⟨inode.root,r.2⟩)
        else (ibodySet inode.root ⟨key,none⟩ is).map fun q => (q.1,⟨q.2,r.2⟩)

/-- The part of `ext4_xattr_set_handle` that follows the searches and the tests of the flags. -/
def change (disk : Disk) (inode : Inode) (i : Info) (is : Search) (bs : Option Search) : Option (Status × Inode) :=
  match i.value with
  | none =>
    if !is.notFound then (ibodySet inode.root i is).map fun r => (r.1,⟨r.2,inode.extended⟩)
    else if !absent bs then (blockSet disk inode.extended i bs).map fun r => (r.1,⟨inode.root,r.2⟩)
    else some (.eexist,inode)
  | some value =>
    (ibodySet inode.root i is).bind fun r =>
      if r.1 = .ok ∧ !absent bs then (blockSet disk inode.extended ⟨i.key,none⟩ bs).map fun q => (q.1,⟨r.2,q.2⟩)
      else if r.1 = .enospc then moveToBlock disk ⟨r.2,inode.extended⟩ i.key value is bs
      else some (r.1,⟨r.2,inode.extended⟩)

/-- `ext4_mark_iloc_dirty`. -/
def markDirty (disk : Disk) (status : Status) : Status := if status = .ok ∧ disk.mark ≠ 0 then .failed disk.mark else status

/-- `XATTR_CREATE` and `XATTR_REPLACE`. -/
structure Flags where
  create : Bool
  replace : Bool

/-- `ext4_xattr_set_handle`. -/
def setHandle (disk : Disk) (inode : Inode) (i : Info) (flags : Flags) : Option (Status × Inode) :=
  if 255 < i.key.2.length then some (.erange,inode)
  else
    (ibodyFind inode.root i.key).bind fun body =>
      if body.1 ≠ .ok then some (body.1,inode)
      else
        (if body.2.notFound then blockFind disk inode.extended i.key else some (.ok,none)).bind fun block =>
          if block.1 ≠ .ok then some (block.1,inode)
          else if body.2.notFound && absent block.2 && flags.replace then some (.enodata,inode)
          else if body.2.notFound && absent block.2 && i.value.isNone then some (.ok,inode)
          else if !(body.2.notFound && absent block.2) && flags.create then some (.eexist,inode)
          else (change disk inode i body.2 block.2).map fun r => (markDirty disk r.1,r.2)

/-! ### Areas as tables -/

abbrev Attrs := KeyTable.Table Key (List UInt8)

/-- An area that holds the cells of a table, in the order of the names when it is `sorted`. -/
def Stores (h m : Memory) (first fin : Nat) (sorted : Bool) (t : Attrs) : Prop :=
  ∃ attrs, Holds h m first fin attrs ∧ attrs.Perm t.cells ∧ (sorted = true → attrs.Pairwise fun a b => compareKey a.1 b.1 < 0)

theorem need_perm (same : List.Perm xs ys) : need xs = need ys := (same.map _).sum_eq

theorem room_perm (same : List.Perm xs ys) : Room first fin xs ↔ Room first fin ys := by rw [Room,Room,need_perm same]

/-- What the place that a search stops at is good for. -/
structure Located (h m : Memory) (first fin : Nat) (sorted : Bool) (t : Attrs) (key : Key) (here : Nat) : Prop where
  start : t.cells = [] → here = first
  put : ∀ value, Named key → if Room first fin (t.insert key value).cells then
      ∃ m', setEntry ⟨key,some value⟩ ⟨first,fin,here,(t.get key).isNone⟩ m = some (.ok,m') ∧
        Stores h m' first fin sorted (t.insert key value)
    else setEntry ⟨key,some value⟩ ⟨first,fin,here,(t.get key).isNone⟩ m = some (.enospc,m)
  drop : (t.get key).isSome → ∃ m', setEntry ⟨key,none⟩ ⟨first,fin,here,false⟩ m = some (.ok,m') ∧
    Stores h m' first fin sorted (t.erase key)
  value : ∀ v, t.get key = some v → run m (entryAt m here).valueOffs (entryAt m here).valueSize = v

section Areas
variable {h m : Memory} {t : Attrs} {key : Key} {pre post : List Entry} {e : Entry}

theorem checkEntry_fits (fits : Entry.Fits low fin e) : checkEntry e fin = true := by
  have := (xattrSize_bounds e.valueSize).1
  have bound : e.valueOffs + e.valueSize ≤ fin := by
    by_cases some : 0 < e.valueSize
    · have := fits.within some
      omega
    · rw [fits.unset (by omega)]
      omega
  simp only [checkEntry,fits.block,decide_true,Bool.true_and,Bool.and_eq_true,decide_eq_true_eq]
  omega

theorem middle_erase {xs ys cells : List (Key × List UInt8)} (nodup : (cells.map Prod.fst).Nodup)
    (same : (xs ++ (key,v) :: ys).Perm cells) : (xs ++ ys).Perm (cells.filter fun c => decide (c.1 ≠ key)) := by
  have kept := (List.perm_middle.symm.trans same).filter fun c => decide (c.1 ≠ key)
  have keys : ((xs ++ (key,v) :: ys).map Prod.fst).Nodup := ((same.map _).nodup_iff).mpr nodup
  rw [List.map_append,List.map_cons,List.nodup_middle,← List.map_append] at keys
  have other := (List.nodup_cons.mp keys).1
  rw [List.filter_cons_of_neg (by simp)] at kept
  apply List.Perm.trans _ kept
  apply List.Perm.of_eq
  symm
  apply List.filter_eq_self.mpr
  intro c member
  apply decide_eq_true
  intro same
  exact other (List.mem_map.mpr ⟨c,member,same⟩)

theorem ordered_middle {xs ys : List (Key × List UInt8)} (sorted : (xs ++ ys).Pairwise fun a b => compareKey a.1 b.1 < 0)
    (below : ∀ a ∈ xs, compareKey a.1 key < 0) (above : ∀ b ∈ ys, compareKey key b.1 < 0) :
    (xs ++ (key,v) :: ys).Pairwise fun a b => compareKey a.1 b.1 < 0 := by
  obtain ⟨first,second,cross⟩ := List.pairwise_append.mp sorted
  refine List.pairwise_append.mpr ⟨first,List.pairwise_cons.mpr ⟨above,second⟩,fun a left b right => ?_⟩
  cases List.mem_cons.mp right with
  | inl same => exact same ▸ below a left
  | inr there => exact cross a left b there

theorem ordered_erase {xs ys : List (Key × List UInt8)} (sorted : (xs ++ (key,v) :: ys).Pairwise fun a b => compareKey a.1 b.1 < 0) :
    (xs ++ ys).Pairwise fun a b => compareKey a.1 b.1 < 0 :=
  sorted.sublist ((List.sublist_cons_self _ _).append_left xs)

theorem ordered_keys {xs : List (Key × List UInt8)} : (xs.Pairwise fun a b => compareKey a.1 b.1 < 0) ↔
    (xs.map Prod.fst).Pairwise fun a b => compareKey a b < 0 := by
  rw [List.pairwise_map]

theorem get_content (same : (content m es).Perm t.cells) : t.get key = none ↔ ∀ e ∈ es, e.key ≠ key := by
  constructor
  · intro absent e member here
    have cell : (key,valueOf m e) ∈ t.cells := same.subset (List.mem_map.mpr ⟨e,member,by rw [here]⟩)
    rw [mem_cells_iff.mp cell] at absent
    cases absent
  · intro other
    cases found : t.get key with
    | none => rfl
    | some v =>
      obtain ⟨e,member,eq⟩ := List.mem_map.mp (same.symm.subset (mem_cells_iff.mpr found))
      exact absurd (congrArg Prod.fst eq) (other e member)

theorem located_present (area : Area h m first low fin (pre ++ e :: post)) (small : fin < 2 ^ 16)
    (same : (content m (pre ++ e :: post)).Perm t.cells)
    (order : sorted = true → (content m (pre ++ e :: post)).Pairwise fun a b => compareKey a.1 b.1 < 0) :
    t.get e.key = some (valueOf m e) ∧ Located h m first fin sorted t e.key (first + tableSize pre) := by
  have here := area.table.entry.1
  rw [content_append,content_cons] at same order
  have value : t.get e.key = some (valueOf m e) := mem_cells_iff.mp (same.subset (by simp))
  have erased : (content m pre ++ content m post).Perm (t.erase e.key).cells := middle_erase t.nodup same
  have replaced (v : List UInt8) : (content m pre ++ (e.key,v) :: content m post).Perm (t.insert e.key v).cells :=
    List.perm_middle.trans (erased.cons _)
  have ordered (v : List UInt8) (yes : sorted = true) :
      (content m pre ++ (e.key,v) :: content m post).Pairwise fun a b => compareKey a.1 b.1 < 0 := by
    have keys := ordered_keys.mp (order yes)
    apply ordered_keys.mpr
    rw [List.map_append,List.map_cons] at keys ⊢
    exact keys
  refine ⟨value,?_,?_,?_,?_⟩
  · intro empty
    rw [empty] at same
    exact absurd same.length_eq (by simp)
  · intro v _
    rw [value,Option.isNone_some]
    have stored := setEntry_replace v area small
    by_cases room : Room first fin (t.insert e.key v).cells
    · rw [if_pos ((room_perm (replaced v)).mpr room)] at stored
      rw [if_pos room]
      obtain ⟨m',run,holds⟩ := stored
      exact ⟨m',run,_,holds,replaced v,ordered v⟩
    · rw [if_neg (mt (room_perm (replaced v)).mp room)] at stored
      rwa [if_neg room]
  · intro _
    obtain ⟨m',run,holds⟩ := setEntry_remove area small
    exact ⟨m',run,_,holds,erased,fun yes => ordered_erase (order yes)⟩
  · intro v found
    rw [value] at found
    rw [here,← Option.some.inj found,valueOf]

theorem located_absent (area : Area h m first low fin (pre ++ post)) (small : fin < 2 ^ 16)
    (same : (content m (pre ++ post)).Perm t.cells) (absent : t.get key = none)
    (order : sorted = true → (content m (pre ++ post)).Pairwise fun a b => compareKey a.1 b.1 < 0)
    (below : sorted = true → ∀ e ∈ pre, compareKey e.key key < 0) (above : sorted = true → ∀ e ∈ post, compareKey key e.key < 0) :
    Located h m first fin sorted t key (first + tableSize pre) := by
  have inserted (v : List UInt8) : (content m pre ++ (key,v) :: content m post).Perm (t.insert key v).cells := by
    have kept : (t.erase key).cells = t.cells := congrArg _ (erase_of_get absent)
    rw [content_append,← kept] at same
    exact List.perm_middle.trans (same.cons _)
  have names (es : List Entry) (test : Key → Prop) (all : ∀ e ∈ es, test e.key) : ∀ a ∈ content m es, test a.1 := by
    intro a member
    obtain ⟨e,place,rfl⟩ := List.mem_map.mp member
    exact all e place
  refine ⟨?_,?_,?_,?_⟩
  · intro empty
    rw [empty] at same
    have none : pre ++ post = [] := List.map_eq_nil_iff.mp same.eq_nil
    rw [(List.append_eq_nil_iff.mp none).1,tableSize_nil,Nat.add_zero]
  · intro v named
    rw [absent,Option.isNone_none]
    have stored := setEntry_insert v area small named
    by_cases room : Room first fin (t.insert key v).cells
    · rw [if_pos ((room_perm (inserted v)).mpr room)] at stored
      rw [if_pos room]
      obtain ⟨m',run,holds⟩ := stored
      refine ⟨m',run,_,holds,inserted v,fun yes => ?_⟩
      have order := order yes
      rw [content_append] at order
      exact ordered_middle order (names pre (compareKey · key < 0) (below yes)) (names post (compareKey key · < 0) (above yes))
    · rw [if_neg (mt (room_perm (inserted v)).mp room)] at stored
      rwa [if_neg room]
  · intro some
    rw [absent] at some
    cases some
  · intro v some
    rw [absent] at some
    cases some

/-- A search finds the name when it is there, and else a place for it. -/
theorem Stores.search (stores : Stores h m first fin sorted t) (small : fin < 2 ^ 16) (key : Key) :
    ∃ here, findEntry m fin first key fin sorted = some (if (t.get key).isSome then .ok else .enodata,here) ∧
      Located h m first fin sorted t key here := by
  obtain ⟨attrs,⟨low,es,area,rfl⟩,same,order⟩ := stores
  obtain ⟨pre,post,cmp,split,before,after,loop,zero⟩ :=
    findEntryLoop_spec key sorted es fin first 1 area.table area.short (by decide)
  subst split
  refine ⟨first + tableSize pre,?_⟩
  rw [findEntry,loop,Option.map_some]
  by_cases found : ∃ e ∈ post.head?, e.key = key
  · obtain ⟨e,head,rfl⟩ := found
    obtain ⟨rest,rfl⟩ : ∃ rest, post = e :: rest := ⟨post.tail,(List.cons_head?_tail head).symm⟩
    obtain ⟨value,located⟩ := located_present area small same order
    refine ⟨?_,located⟩
    have checked := checkEntry_fits (area.fits e (mem_middle.mpr (.inl rfl)))
    have equal : cmp = 0 := zero.mpr ⟨e,head,rfl⟩
    simp only [area.table.entry.1,checked,equal,value,Option.isSome_some]
    rfl
  · have other : cmp ≠ 0 := fun equal => found (zero.mp equal)
    have skipped : ∀ e ∈ pre, compareKey key e.key ≠ 0 ∧ (sorted = true → 0 < compareKey key e.key) := by
      intro e member
      have := of_decide_eq_false (before e member)
      exact ⟨fun equal => this ⟨by omega,.inr equal⟩,fun yes => by
        have : ¬compareKey key e.key ≤ 0 := fun le => this ⟨le,.inl yes⟩
        omega⟩
    have beyond : ∀ e ∈ post, sorted = true ∧ compareKey key e.key < 0 := by
      cases post with
      | nil => simp
      | cons e rest =>
        obtain ⟨le,stop⟩ := of_decide_eq_true (after e rfl)
        have different : compareKey key e.key ≠ 0 := fun equal => found ⟨e,rfl,(compareKey_eq_zero.mp equal).symm⟩
        have yes : sorted = true := stop.resolve_right different
        have less : compareKey key e.key < 0 := by omega
        have order := ordered_keys.mp (order yes)
        simp only [content_append,content_cons,List.map_append,List.map_cons] at order
        have later := (List.pairwise_cons.mp (List.pairwise_append.mp order).2.1).1
        intro f member
        cases List.mem_cons.mp member with
        | inl same => exact ⟨yes,same ▸ less⟩
        | inr there =>
          refine ⟨yes,compareKey_trans less (later f.key ?_)⟩
          exact List.mem_map.mpr ⟨(f.key,valueOf m f),List.mem_map.mpr ⟨f,there,rfl⟩,rfl⟩
    have absent : t.get key = none := by
      rw [get_content same]
      intro e member here
      have equal : compareKey key e.key = 0 := compareKey_eq_zero.mpr here.symm
      cases List.mem_append.mp member with
      | inl left => exact (skipped e left).1 equal
      | inr right =>
        have := (beyond e right).2
        omega
    refine ⟨?_,located_absent area small same absent order ?_ fun _ e member => (beyond e member).2⟩
    · simp [absent,other]
    · intro yes e member
      have := (skipped e member).2 yes
      rw [compareKey_swap]
      omega

theorem Stores.checkNames (stores : Stores h m first fin sorted t) : Xattr.checkNames m fin fin first = some true := by
  obtain ⟨attrs,⟨low,es,area,_⟩,_⟩ := stores
  have room := area.room
  have bound := area.bound
  exact checkNames_spec es fin first area.table area.short (by omega)

/-- There is no first entry when there is none at all. -/
theorem Stores.last (stores : Stores h m first fin sorted t) : isLastEntry m first = t.cells.isEmpty := by
  obtain ⟨attrs,⟨low,es,area,rfl⟩,same,_⟩ := stores
  cases es with
  | nil =>
    rw [area.table.last,List.Perm.eq_nil same.symm]
    rfl
  | cons e es =>
    obtain ⟨c,cells,eq⟩ : ∃ c cells, t.cells = c :: cells := by
      cases found : t.cells with
      | nil =>
        rw [found] at same
        exact absurd same.length_eq (by simp)
      | cons c cells => exact ⟨c,cells,rfl⟩
    rw [area.table.here.1,eq]
    rfl

theorem Stores.header (stores : Stores h m blockFirst fin sorted t) : headerOk m = headerOk h := by
  obtain ⟨attrs,⟨low,es,area,_⟩,_⟩ := stores
  have magic : read32 m 0 = read32 h 0 := read32_congr fun i bound => area.header _ (by rw [blockFirst]; omega)
  have blocks : read32 m 8 = read32 h 8 := read32_congr fun i bound => area.header _ (by rw [blockFirst]; omega)
  rw [headerOk,headerOk,magic,blocks]

/-- An area of zeros behind its header. -/
theorem stores_empty (zero : ∀ i < 4, m (first + i) = 0) (room : first + 4 ≤ fin) : Stores m m first fin sorted KeyTable.Table.empty := by
  refine ⟨[],⟨fin,[],⟨fun _ _ => rfl,⟨trivial,?_⟩,room,rfl,by simp,List.Pairwise.nil⟩,rfl⟩,List.Perm.nil,fun _ => List.Pairwise.nil⟩
  simpa using zero

/-- What a reader gets of a value. -/
def answer (value : Option (List UInt8)) (buffer : Option Nat) : Except Status (Nat × List UInt8) :=
  match value,buffer with
  | none,_ => .error .enodata
  | some v,none => .ok (v.length,[])
  | some v,some size => if size < v.length then .error .erange else .ok (v.length,v)

theorem Stores.getFrom (stores : Stores h m first fin sorted t) (small : fin < 2 ^ 16) (key : Key) (buffer : Option Nat) :
    Xattr.getFrom m fin first key sorted buffer = some (answer (t.get key) buffer) := by
  obtain ⟨here,run,located⟩ := stores.search small key
  rw [Xattr.getFrom,run,Option.map_some]
  cases found : t.get key with
  | none => rfl
  | some v =>
    have value := located.value v found
    have length := congrArg List.length value
    rw [run_length] at length
    simp only [Option.isSome_some,if_true,readValue,value,answer]
    rw [length]
    cases buffer <;> rfl

end Areas

/-! ### The two inodes -/

/-- The root inode holds a table of attributes. -/
structure Root.Holds (root : Root) (t : Attrs) : Prop where
  area : root.extraIsize ≠ 0 → ∃ h, Stores h root.body 0 root.fin false t
  marked : root.hasXattr = false → t.cells = []
  bare : root.extraIsize = 0 → root.hasXattr = false

/-- The extended inode holds a table of attributes; without a block, an empty one. -/
structure Extended.Holds (ext : Extended) (t : Attrs) : Prop where
  area : ext.fileAcl ≠ 0 → ∃ h, headerOk h = true ∧ Stores h ext.block blockFirst blockEnd true t
  unlinked : ext.fileAcl = 0 → t.cells = []

section Inodes
variable {root : Root} {ext : Extended} {disk : Disk} {t : Attrs} {key : Key}

theorem Root.fin_small (root : Root) : root.fin < 2 ^ 16 := by
  rw [Root.fin]
  omega

theorem get_nothing (nothing : t.cells = []) (key : Key) : t.get key = none := by
  rw [KeyTable.Table.get,nothing]
  rfl

theorem ibodyGet_spec (holds : root.Holds t) (key : Key) (buffer : Option Nat) :
    ibodyGet root key buffer = some (answer (t.get key) buffer) := by
  rw [ibodyGet]
  cases marked : root.hasXattr with
  | false => rw [get_nothing (holds.marked marked)]; rfl
  | true =>
    obtain ⟨h,stores⟩ := holds.area fun none => by
      rw [holds.bare none] at marked
      cases marked
    rw [stores.checkNames]
    exact stores.getFrom root.fin_small key buffer

theorem blockEnd_small : blockEnd < 2 ^ 16 := by decide

theorem checkBlock_spec (ok : headerOk h = true) (stores : Stores h m blockFirst blockEnd true t) : checkBlock m = some true := by
  simp only [checkBlock,stores.header,ok,stores.checkNames,Bool.not_true,Bool.false_eq_true,if_false]

theorem blockGet_spec (holds : ext.Holds t) (key : Key) (buffer : Option Nat) :
    blockGet disk ext key buffer = some (answer (if disk.read then t.get key else none) buffer) := by
  rw [blockGet]
  by_cases linked : ext.fileAcl = 0
  · simp only [get_nothing (holds.unlinked linked),ite_self,linked,decide_true,Bool.true_or,if_true,answer]
  · simp only [linked,decide_false,Bool.false_or]
    cases disk.read with
    | false => simp only [Bool.not_false,if_true,Bool.false_eq_true,if_false,answer]
    | true =>
      obtain ⟨h,ok,stores⟩ := holds.area linked
      simp only [checkBlock_spec ok stores,stores.getFrom blockEnd_small,Bool.not_true,Option.bind_some,
        Bool.false_eq_true,if_false,if_true]

end Inodes

end Rozofs.Xattr
