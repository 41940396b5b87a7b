import Rozofs.Machine
import Mathlib.Logic.Function.Basic
import Mathlib.Algebra.BigOperators.Group.List.Basic
import Mathlib.Algebra.Order.Group.Nat
import Mathlib.Algebra.Order.Ring.Int

/-! The indirect pointer tables of the dirent cache: arrays of virtual pointers on several levels, made
when a pointer is stored and freed when their last pointer is deleted. An access outside of an array that
is allocated has no result. -/
namespace Rozofs.IndirectTable
open Function (update)

/-- An address of a process. The 62 bits of `s.val` hold it whole; 0 is `NULL`. -/
abbrev Addr := BitVec 62

/-- `mdirent_cache_ptr_t`. -/
structure CachePtr where
  rd : Bool
  dirty : Bool
  val : Addr
  deriving DecidableEq

/-- The arrays of virtual pointers that are allocated. -/
abbrev Heap := Addr → Option (List CachePtr)

/-- `p[k]`. -/
def Heap.read (heap : Heap) (p : Addr) (k : Nat) : Option CachePtr := (heap p).bind fun cells => cells[k]?

def Heap.write (heap : Heap) (p : Addr) (k : Nat) (f : CachePtr → CachePtr) : Heap :=
  update heap p ((heap p).map fun cells => cells.modify k f)

/-- An array is put in the memory that was given for it. -/
def Heap.alloc (heap : Heap) (p : Addr) (cells : List CachePtr) : Heap := update heap p (some cells)

/-- `DIRENT_FREE`. -/
def Heap.free (heap : Heap) (p : Addr) : Heap := update heap p none

/-- An array after `memset`. -/
def blank (n : Nat) : List CachePtr := List.replicate n ⟨false,false,0⟩

/-- `DIRENT_MALLOC`, which gives memory that is not in use, or `NULL`. -/
structure Allocator where
  malloc : Heap → Nat → Option Addr
  fresh : ∀ heap size p, malloc heap size = some p → heap p = none ∧ p ≠ 0

/-- `mdirent_indirect_ptr_template_t`. The number of indirections is the length of the list. -/
structure Template where
  lastIdx : Nat
  level : List Nat
  deriving DecidableEq

def Template.levels (t : Template) : Nat := t.level.length

def Template.nbBit (t : Template) (i : Nat) : Nat := t.level.getD i 0

/-- `mdirent_cache_indirect_coll_distrib`. -/
def indirectCollDistrib : Template := ⟨2048,[4,2,5]⟩

/-- `mdirent_cache_name_ptr_distrib`. -/
def namePtrDistrib : Template := ⟨128,[3,4]⟩

/-- The loop of `dirent_get_cache_indexes`. An index is kept on 8 bits. -/
def indexLoop (idx : Nat) : Nat → List Nat → List Nat
  | _, [] => []
  | shift, bits :: rest =>
    (((idx >>> (shift - bits)) &&& (1 <<< bits - 1)) % 256) :: indexLoop idx (shift - bits) rest

/-- `dirent_get_cache_indexes`; -1 is `none`. -/
def direntGetCacheIndexes (idx : BitVec 32) (t : Template) : Option (List Nat) :=
  if idx.toNat > t.lastIdx - 1 then none
  else some (indexLoop idx.toNat (t.level.foldl (fun shift bits => shift + bits) 0) t.level)

inductive Errno where
  | eproto
  | enomem
  deriving DecidableEq

/-- What `dirent_cache_store_ptr` returns, with `errno` when it is set. -/
structure Stored where
  errno : Option Errno
  value : Addr
  deriving DecidableEq

/-- The loop of `dirent_cache_store_ptr` over the levels from `i` on: the last array, or no memory. -/
def storeLoop (alloc : Allocator) (t : Template) (tabIdx : List Nat) : Nat → Nat → Heap → Addr → Option (Heap × Option Addr)
  | 0, _, heap, p => some (heap,some p)
  | n + 1, i, heap, p =>
    match heap.read p (tabIdx.getD i 0) with
    | none => none
    | some cell =>
      if cell.val = 0 then
        match alloc.malloc heap ((1 <<< t.nbBit (i + 1)) * 8) with
        | none => some (heap,none)
        | some ptr =>
          storeLoop alloc t tabIdx n (i + 1)
            ((heap.alloc ptr (blank (1 <<< t.nbBit (i + 1)))).write p (tabIdx.getD i 0) fun cell => { cell with val := ptr }) ptr
      else storeLoop alloc t tabIdx n (i + 1) heap cell.val

/-- `dirent_cache_store_ptr`. Without memory it returns the pointer of the loop, which is `NULL`. -/
def direntCacheStorePtr (alloc : Allocator) (t : Template) (virtHead : Addr) (idx : BitVec 32) (ptr : Addr) (heap : Heap) :
    Option (Heap × Stored) :=
  match direntGetCacheIndexes idx t with
  | none => some (heap,⟨some .eproto,ptr⟩)
  | some tabIdx =>
    match storeLoop alloc t tabIdx (t.levels - 1) 0 heap virtHead with
    | none => none
    | some (heap,none) => some (heap,⟨some .enomem,0⟩)
    | some (heap,some p) =>
      match heap.read p (tabIdx.getD (t.levels - 1) 0) with
      | none => none
      | some cell =>
        some (heap.write p (tabIdx.getD (t.levels - 1) 0) fun _ => { val := ptr, dirty := true, rd := false },⟨none,cell.val⟩)

/-- The loop that goes to the last array, with the arrays on the way: `ptr_tab` and `p`. It ends
early at a level that is not in the cache. -/
def followLoop (heap : Heap) (tabIdx : List Nat) : Nat → Nat → List Addr → Addr → Option (Option (List Addr × Addr))
  | 0, _, ptrTab, p => some (some (ptrTab,p))
  | n + 1, i, ptrTab, p =>
    match heap.read p (tabIdx.getD i 0) with
    | none => none
    | some cell => if cell.val = 0 then some none else followLoop heap tabIdx n (i + 1) (ptrTab ++ [p]) cell.val

/-- `dirent_cache_get_ptr`. -/
def direntCacheGetPtr (t : Template) (virtHead : Addr) (idx : BitVec 32) (heap : Heap) : Option Addr :=
  match direntGetCacheIndexes idx t with
  | none => some 0
  | some tabIdx =>
    match followLoop heap tabIdx (t.levels - 1) 0 [] virtHead with
    | none => none
    | some none => some 0
    | some (some (_,p)) => (heap.read p (tabIdx.getD (t.levels - 1) 0)).map CachePtr.val

/-- The search of an entry in use in an array, from `k` on. -/
def emptyLoop (heap : Heap) (p : Addr) : Nat → Nat → Option Bool
  | 0, _ => some true
  | n + 1, k =>
    match heap.read p k with
    | none => none
    | some cell => if cell.val ≠ 0 then some false else emptyLoop heap p n (k + 1)

/-- The loop of `dirent_cache_del_ptr` that frees the arrays that are empty, from the last one up. -/
def freeLoop (t : Template) (tabIdx : List Nat) (ptrTab : List Addr) : Nat → Nat → Heap → Addr → Option Heap
  | 0, _, heap, _ => some heap
  | n + 1, i, heap, p =>
    match emptyLoop heap p (1 <<< t.nbBit (t.levels - 1 - i)) 0 with
    | none => none
    | some false => some heap
    | some true =>
      match ptrTab[t.levels - 2 - i]? with
      | none => none
      | some parent =>
        match (heap.free p).read parent (tabIdx.getD (t.levels - 2 - i) 0) with
        | none => none
        | some _ =>
          freeLoop t tabIdx ptrTab n (i + 1)
            ((heap.free p).write parent (tabIdx.getD (t.levels - 2 - i) 0) fun cell => { cell with val := 0 }) parent

/-- `dirent_cache_del_ptr`: the arrays and the pointer that it returns. -/
def direntCacheDelPtr (t : Template) (virtHead : Addr) (idx : BitVec 32) (ptr : Addr) (heap : Heap) : Option (Heap × Addr) :=
  match direntGetCacheIndexes idx t with
  | none => some (heap,ptr)
  | some tabIdx =>
    match followLoop heap tabIdx (t.levels - 1) 0 [] virtHead with
    | none => none
    | some none => some (heap,ptr)
    | some (some (ptrTab,p)) =>
      match heap.read p (tabIdx.getD (t.levels - 1) 0) with
      | none => none
      | some cell =>
        if ptr ≠ cell.val then some (heap,cell.val)
        else
          (freeLoop t tabIdx ptrTab (t.levels - 1) 0
            (heap.write p (tabIdx.getD (t.levels - 1) 0) fun _ => { val := 0, dirty := true, rd := false }) p).map fun heap => (heap,0)

end Rozofs.IndirectTable
