import Rozofs.KeyTable
import Rozofs.Machine
import Mathlib.Logic.Function.Basic
import Mathlib.Algebra.Order.Ring.Int

/-! The namespace of an export, `export_tracking.c`: the inodes with their counters, the entries of
the directories, and the calls that create objects. The entries of a directory are a table of names,
and an operation on it succeeds or fails as a whole. -/
namespace Rozofs.Namespace
open KeyTable (Table get_insert_self get_insert_other get_erase_self get_erase_other erase_insert)
open Function (update)

abbrev Name := List Char

/-- `ROZOFS_DIR_TRASH`. -/
def dirTrash : Name := "@rozofs-trash@".toList

/-- The names that stand for several files. -/
def isMultiple (name : Name) : Bool := ".@rozofs-mf@".toList.isPrefixOf name

inductive Errno where
  | eacces
  | eexist
  | einval
  | eio
  | eisdir
  | enoent
  | enomem
  | enospc
  | enotdir
  | enotempty
  | enotsup
  | eperm
  | eproto
  | erange
  | erofs
  | other (n : Nat)
  deriving DecidableEq

/-- The file type in the mode; sockets, pipes and devices are `special`. -/
inductive Kind where
  | reg
  | dir
  | lnk
  | special
  deriving DecidableEq

/-- `s.trash` of the first storage byte of a directory. -/
inductive TrashFlag where
  | off
  | on
  | recursive
  deriving DecidableEq

/-- The slice in the number of an inode. -/
def slice (inode : Nat) : Nat := inode % 256

/-- The tracking file in the number of an inode. -/
def fileId (inode : Nat) : Nat := inode / 256 / 2048

/-- A file identifier that a client gives: the inode, and whether it has the delete pending bit or
the key of the trash. -/
structure Fid where
  inode : Nat
  del : Bool
  deriving DecidableEq

/-- The attributes of an inode. `nlink`, `children` and `nbDeletedFiles` have 16, 32 and 64 bits;
`del` is the delete pending bit of the identifier in the attributes, `cid` the share of the objects
of a directory, and `link` the block of a symbolic link. The share that holds the object is in
`share`; the source stores it in regular files only. -/
structure Attr where
  kind : Kind
  uid : Nat
  gid : Nat
  sgid : Bool
  nlink : Nat
  size : Nat
  children : Nat
  nbDeletedFiles : Nat
  cid : Nat
  share : Nat
  trash : TrashFlag
  del : Bool
  pfid : Nat
  link : Option Nat
  deriving DecidableEq

/-- An entry of a directory; `dir` is the type that it records. -/
structure Entry where
  inode : Nat
  del : Bool
  dir : Bool
  deriving DecidableEq

/-- A call of `rozofs_qt_inode_update` or `rozofs_qt_block_update`. -/
structure Update where
  block : Bool
  uid : Nat
  gid : Nat
  share : Nat
  amount : Int
  deriving DecidableEq

/-- No user and no group in a quota update. -/
def noId : Nat := 2 ^ 32 - 1

/-- `folders` are the directories on disk with their attributes file, `links` the blocks of symbolic
links, `recycled` the inodes to recycle in each slice, with the attributes that they keep. -/
structure State where
  attrs : Table Nat Attr
  entries : Nat → Table Name Entry
  recycled : Nat → List (Nat × Attr)
  links : Nat → Bool
  folders : Nat → Bool
  updates : List Update

/-- The disk operations that can fail in a call. -/
inductive Fault where
  | memory
  | parent
  | newParent
  | find
  | findNew
  | child
  | replaced
  | recycled
  | distribute
  | allocate
  | resolve
  | mkdirPath
  | openPath
  | bitmap
  | put
  | remove
  | write
  | writeParent
  | writeOldParent
  | writeLast
  | initialBitmap
  | updateFiles
  | unlinkPath
  | rmdirPath
  deriving DecidableEq

/-- What a call finds besides the namespace: the configuration, the space and the limits, the text of
the hour, the numbers of new inodes, the path that an uninitialised buffer holds, and the operation
that fails with its error, in a loop with the pass. -/
structure Env where
  mknodOk : Bool
  mkdirOk : Bool
  recent : Bool
  versioning : Bool
  recycle : Bool
  deviceFull : Bool
  overQuota : Bool
  blocksRefused : Bool
  thinRefused : Bool
  hour : Name
  fresh : Nat → Nat
  freshLink : Nat
  stale : Option Nat
  fault : Option Fault
  pass : Nat
  failure : Errno

/-- A state and the error of a call, if it failed. -/
abbrev Result := State × Option Errno

def Env.fails (env : Env) (fault : Fault) : Bool := decide (env.fault = some fault)

/-- `EXPORT_LOOKUP_FID`. -/
def State.lookup (s : State) (env : Env) (fault : Fault) (inode : Nat) : Option Attr :=
  if env.fails fault then none else s.attrs.get inode

/-- Attributes changed in the cache. -/
def State.modify (s : State) (inode : Nat) (f : Attr → Attr) : State :=
  match s.attrs.get inode with
  | none => s
  | some a => { s with attrs := s.attrs.insert inode (f a) }

def State.create (s : State) (inode : Nat) (a : Attr) : State := { s with attrs := s.attrs.insert inode a }

/-- `exp_attr_delete`. -/
def State.delete (s : State) (inode : Nat) : State := { s with attrs := s.attrs.erase inode }

/-- `put_mdirentry`. -/
def State.putEntry (s : State) (dir : Nat) (name : Name) (e : Entry) : State :=
  { s with entries := update s.entries dir ((s.entries dir).insert name e) }

/-- `del_mdirentry`. -/
def State.delEntry (s : State) (dir : Nat) (name : Name) : State :=
  { s with entries := update s.entries dir ((s.entries dir).erase name) }

def State.setFolder (s : State) (dir : Nat) (there : Bool) : State := { s with folders := update s.folders dir there }

def State.setLink (s : State) (block : Nat) (there : Bool) : State := { s with links := update s.links block there }

def State.setRecycled (s : State) (slice : Nat) (inodes : List (Nat × Attr)) : State := { s with recycled := update s.recycled slice inodes }

def State.issue (s : State) (u : Update) : State := { s with updates := u :: s.updates }

/-- `rozofs_qt_inode_update`. -/
def State.inodeUpdate (s : State) (uid gid share : Nat) (amount : Int) : State := s.issue ⟨false,uid,gid,share,amount⟩

/-- `rozofs_qt_block_update`. -/
def State.blockUpdate (s : State) (uid gid share : Nat) (amount : Int) : State := s.issue ⟨true,uid,gid,share,amount⟩

section Frames
variable {s : State} {i j : Nat}

theorem get_modify (s : State) (i j : Nat) (f : Attr → Attr) :
    (s.modify i f).attrs.get j = if j = i then (s.attrs.get i).map f else s.attrs.get j := by
  by_cases same : j = i
  · subst same
    simp only [State.modify,if_true]
    cases here : s.attrs.get j with
    | none => simp only [here,Option.map_none]
    | some a => simp only [get_insert_self,Option.map_some]
  · simp only [State.modify,same,if_false]
    split
    · rfl
    · exact get_insert_other _ _ same

theorem get_modify_other (f : Attr → Attr) (other : j ≠ i) : (s.modify i f).attrs.get j = s.attrs.get j := by
  rw [get_modify,if_neg other]

theorem get_modify_self (f : Attr → Attr) : (s.modify i f).attrs.get i = (s.attrs.get i).map f := by
  rw [get_modify,if_pos rfl]

@[simp] theorem modify_entries (s : State) (i : Nat) (f : Attr → Attr) : (s.modify i f).entries = s.entries := by
  unfold State.modify
  split
  · rfl
  · rfl

@[simp] theorem modify_recycled (s : State) (i : Nat) (f : Attr → Attr) : (s.modify i f).recycled = s.recycled := by
  unfold State.modify
  split
  · rfl
  · rfl

@[simp] theorem modify_links (s : State) (i : Nat) (f : Attr → Attr) : (s.modify i f).links = s.links := by
  unfold State.modify
  split
  · rfl
  · rfl

@[simp] theorem modify_updates (s : State) (i : Nat) (f : Attr → Attr) : (s.modify i f).updates = s.updates := by
  unfold State.modify
  split
  · rfl
  · rfl

theorem get_putEntry (s : State) (d d' : Nat) (n n' : Name) (e : Entry) :
    ((s.putEntry d n e).entries d').get n' = if d' = d ∧ n' = n then some e else (s.entries d').get n' := by
  by_cases here : d' = d
  · subst here
    simp only [State.putEntry,Function.update_self,true_and]
    split
    · rename_i same
      rw [same,get_insert_self]
    · rename_i other
      exact get_insert_other _ _ other
  · simp only [State.putEntry,Function.update_of_ne here,here,false_and,if_false]

theorem get_delEntry (s : State) (d d' : Nat) (n n' : Name) :
    ((s.delEntry d n).entries d').get n' = if d' = d ∧ n' = n then none else (s.entries d').get n' := by
  by_cases here : d' = d
  · subst here
    simp only [State.delEntry,Function.update_self,true_and]
    split
    · rename_i same
      rw [same,get_erase_self]
    · rename_i other
      exact get_erase_other _ other
  · simp only [State.delEntry,Function.update_of_ne here,here,false_and,if_false]

theorem get_create (s : State) (i j : Nat) (a : Attr) : (s.create i a).attrs.get j = if j = i then some a else s.attrs.get j := by
  by_cases same : j = i
  · subst same
    simp only [State.create,get_insert_self,if_true]
  · simp only [State.create,get_insert_other _ _ same,same,if_false]

theorem get_delete (s : State) (i j : Nat) : (s.delete i).attrs.get j = if j = i then none else s.attrs.get j := by
  by_cases same : j = i
  · subst same
    simp only [State.delete,get_erase_self,if_true]
  · simp only [State.delete,get_erase_other _ same,same,if_false]

@[simp] theorem create_entries (s : State) (i : Nat) (a : Attr) : (s.create i a).entries = s.entries := rfl

@[simp] theorem create_recycled (s : State) (i : Nat) (a : Attr) : (s.create i a).recycled = s.recycled := rfl

@[simp] theorem create_links (s : State) (i : Nat) (a : Attr) : (s.create i a).links = s.links := rfl

@[simp] theorem delete_entries (s : State) (i : Nat) : (s.delete i).entries = s.entries := rfl

@[simp] theorem delete_recycled (s : State) (i : Nat) : (s.delete i).recycled = s.recycled := rfl

@[simp] theorem delete_links (s : State) (i : Nat) : (s.delete i).links = s.links := rfl

@[simp] theorem putEntry_attrs (s : State) (d : Nat) (n : Name) (e : Entry) : (s.putEntry d n e).attrs = s.attrs := rfl

@[simp] theorem putEntry_recycled (s : State) (d : Nat) (n : Name) (e : Entry) : (s.putEntry d n e).recycled = s.recycled := rfl

@[simp] theorem putEntry_links (s : State) (d : Nat) (n : Name) (e : Entry) : (s.putEntry d n e).links = s.links := rfl

@[simp] theorem delEntry_attrs (s : State) (d : Nat) (n : Name) : (s.delEntry d n).attrs = s.attrs := rfl

@[simp] theorem delEntry_recycled (s : State) (d : Nat) (n : Name) : (s.delEntry d n).recycled = s.recycled := rfl

@[simp] theorem delEntry_links (s : State) (d : Nat) (n : Name) : (s.delEntry d n).links = s.links := rfl

/-- An inode that is allocated and released again. -/
theorem get_delete_create (unused : s.attrs.get i = none) (a : Attr) (j : Nat) :
    ((s.create i a).delete i).attrs.get j = s.attrs.get j := by
  simp only [State.create,State.delete,erase_insert unused]

end Frames

section Counters

def inc (width n : Nat) : Nat := (n + 1) % 2 ^ width

def dec (width n : Nat) : Nat := (n + 2 ^ width - 1) % 2 ^ width

def Attr.incChildren (a : Attr) : Attr := { a with children := inc 32 a.children }

def Attr.decChildren (a : Attr) : Attr := { a with children := dec 32 a.children }

def Attr.incNlink (a : Attr) : Attr := { a with nlink := inc 16 a.nlink }

def Attr.decNlink (a : Attr) : Attr := { a with nlink := dec 16 a.nlink }

def Attr.incDeleted (a : Attr) : Attr := { a with nbDeletedFiles := inc 64 a.nbDeletedFiles }

def Attr.decDeleted (a : Attr) : Attr := { a with nbDeletedFiles := dec 64 a.nbDeletedFiles }

@[simp] theorem decChildren_children : ∀ a : Attr, a.decChildren.children = dec 32 a.children
  | ⟨_,_,_,_,_,_,children,_,_,_,_,_,_,_⟩ => Eq.refl (dec 32 children)

@[simp] theorem decNlink_children : ∀ a : Attr, a.decNlink.children = a.children
  | ⟨_,_,_,_,_,_,children,_,_,_,_,_,_,_⟩ => Eq.refl children

@[simp] theorem incDeleted_children : ∀ a : Attr, a.incDeleted.children = a.children
  | ⟨_,_,_,_,_,_,children,_,_,_,_,_,_,_⟩ => Eq.refl children

@[simp] theorem decDeleted_children : ∀ a : Attr, a.decDeleted.children = a.children
  | ⟨_,_,_,_,_,_,children,_,_,_,_,_,_,_⟩ => Eq.refl children

end Counters

section Create
variable (env : Env) (s : State)

/-- The attributes of a new object that is not a directory. -/
def newFile (kind : Kind) (uid gid : Nat) (sgid : Bool) (size : Nat) (p : Attr) (pfid : Nat) (link : Option Nat) : Attr :=
  ⟨kind,uid,gid,sgid,1,size,0,0,0,p.cid,.off,false,pfid,link⟩

/-- The attributes of a new directory, with the share and the recursive trash of its parent. -/
def newDirectory (uid gid : Nat) (sgid : Bool) (p : Attr) (pfid : Nat) : Attr :=
  ⟨.dir,uid,gid,sgid,2,4096,0,0,p.cid,p.cid,if p.trash = .recursive then .recursive else .off,false,pfid,none⟩

/-- The group of a new object: that of the parent when it has the set-group bit. -/
def newGid (p : Attr) (gid : Nat) : Nat := if p.sgid then p.gid else gid

/-- An entry cannot be written when the parent has no folder. -/
def putFails (p : Attr) : Bool := env.fails .put || decide (p.kind ≠ .dir)

/-- `export_get_recycled_inode`: the inode leaves the list, also when its attributes cannot be read. -/
def takeRecycled (pfid : Nat) : State × Option (Nat × Attr) :=
  if env.recycle = false then (s,none)
  else
    match s.recycled (slice pfid) with
    | [] => (s,none)
    | r :: rest => (s.setRecycled (slice pfid) rest,if env.fails .recycled then none else some r)

/-- A recycled inode gets new attributes; the parent and the share stay those of the file that it
was, with what else the attributes hold. -/
def Attr.recycle (a : Attr) (kind : Kind) (uid gid : Nat) (sgid : Bool) : Attr :=
  { a with kind := kind, uid := uid, gid := gid, sgid := sgid, nlink := 1, size := 0, link := none }

/-- The second part of `export_mknod`: the inode, recycled or new, the entry and the counters.
`dir` is the type in the attributes that the caller gives for the answer. -/
def mknodCreate (pfid : Nat) (p : Attr) (name : Name) (kind : Kind) (uid gid : Nat) (sgid dir : Bool) : Result :=
  let taken := takeRecycled env s pfid
  let s := taken.1
  let new := (taken.2.map Prod.fst).getD (env.fresh 0)
  let a := (taken.2.map fun r => r.2.recycle kind uid gid sgid).getD (newFile kind uid gid sgid 0 p pfid none)
  if taken.2 = none ∧ env.fails .distribute then (s,some env.failure)
  else if taken.2 = none ∧ env.fails .allocate then (s,some env.failure)
  else if env.fails .bitmap then (if taken.2 = none then (s.create new a).delete new else s,some .eproto)
  else if putFails env p then (if taken.2 = none then (s.create new a).delete new else s,some env.failure)
  else
    let s := (s.create new a).putEntry pfid name ⟨new,false,dir⟩
    ((s.modify pfid Attr.incChildren).inodeUpdate uid gid p.cid 1,none)

section Multiple

def isSpace (c : Char) : Bool := decide (c = ' ') || decide (9 ≤ c.toNat ∧ c.toNat ≤ 13)

/-- The number that a text starts with, and the rest. -/
def digits : Nat → Name → Nat × Name
  | n, [] => (n,[])
  | n, c :: rest => if c.isDigit then digits (n * 10 + (c.toNat - '0'.toNat)) rest else (n,c :: rest)

/-- `strtoul` in base 10, on 64 bits. -/
def strtoul (text : Name) : Except Errno (Nat × Name) :=
  let body := text.dropWhile isSpace
  let negative := body.head? = some '-'
  let body := if negative ∨ body.head? = some '+' then body.tail else body
  if (body.head?.map Char.isDigit).getD false then
    let read := digits 0 body
    if read.1 ≥ 2 ^ 64 then .error .erange else .ok (if negative then (2 ^ 64 - read.1) % 2 ^ 64 else read.1,read.2)
  else .ok (0,text)

/-- `rozofs_parse_object_name`: how many files, a number of 32 bits, and the name that they share. -/
def parseObjectName (text : Name) : Except Errno (Int × Name) :=
  match strtoul text with
  | .error error => .error error
  | .ok (count,'-' :: base) => .ok (Int.bmod count (2 ^ 32),base)
  | .ok _ => .error .einval

/-- The text after `.@rozofs-mf@`. -/
def objectName (name : Name) : Name := name.drop 12

def numbered (base : Name) (k : Nat) : Name := base ++ '.' :: Nat.toDigits 10 k

/-- The name in a pass: the one that is asked first, then the numbered ones. -/
def multipleName (name base : Name) (k : Nat) : Name := if k = 0 then name else numbered base k

/-- Where a loop over the files stands: the state, the number of inodes allocated and the error. -/
structure Made where
  state : State
  allocated : Nat
  error : Option Errno

variable (pfid : Nat) (p a : Attr) (name base : Name) (dir : Bool)

/-- The operation fails in pass `k`. -/
def Env.failsAt (env : Env) (k : Nat) (fault : Fault) : Bool := decide (env.pass = k) && env.fails fault

/-- A pass of the loop: the attributes are written when the tracking file is not that of the first
inode. -/
def multiplePass (s : State) (k : Nat) : Made :=
  let new := env.fresh k
  if env.failsAt k .distribute ∨ env.failsAt k .allocate then ⟨s,k,some env.failure⟩
  else
    let s := s.create new a
    if env.failsAt k .bitmap then ⟨s,k + 1,some .eproto⟩
    else if env.failsAt k .put ∨ p.kind ≠ .dir then ⟨s,k + 1,some env.failure⟩
    else
      let s := s.putEntry pfid (multipleName name base k) ⟨new,false,dir⟩
      ⟨s,k + 1,if fileId new ≠ fileId (env.fresh 0) ∧ env.failsAt k .write then some env.failure else none⟩

def multipleLoop : Nat → Made
  | 0 => ⟨s,0,none⟩
  | k + 1 =>
    let made := multipleLoop k
    if made.error = none then multiplePass env pfid p a name base dir made.state k else made

/-- The inodes of the first passes are released and their names removed. -/
def multipleUndo (s : State) : Nat → State
  | 0 => s
  | k + 1 => ((multipleUndo s k).delete (env.fresh k)).delEntry pfid (multipleName name base k)

def Attr.addChildren (a : Attr) (n : Nat) : Attr := { a with children := (a.children + n) % 2 ^ 32 }

/-- The second part of `export_mknod_multiple`. -/
def multipleCreate (passes uid gid : Nat) : Result :=
  let made := multipleLoop env s pfid p a name base dir passes
  let error := if made.error = none ∧ passes ≠ 0 ∧ env.fails .writeLast then some env.failure else made.error
  match error with
  | some error => (multipleUndo env pfid name base made.state made.allocated,some error)
  | none => ((made.state.modify pfid fun p => p.addChildren passes).inodeUpdate uid gid p.cid passes,none)

/-- `export_mknod_multiple`. The names that are looked up have the numbers from 0, those that are
created the numbers from 1. -/
def mknodMultiple (kind : Kind) (uid gid : Nat) (sgid : Bool) : Result :=
  let there := fun n => ((s.entries pfid).get n).isSome
  match parseObjectName (objectName name) with
  | .error error => (s,some error)
  | .ok (count,base) =>
    let passes := Int.bmod (count + 1) (2 ^ 32)
    if passes < 0 ∨ env.fails .memory then (s,some .enomem)
    else if there name ∧ env.fails .find = false then (s,some .eexist)
    else if (List.range count.toNat).any fun k => there (numbered base k) then (s,some .eexist)
    else if env.fails .find then (s,some .eio)
    -- the error of the last lookup, not `ENOTSUP`
    else if kind ≠ .reg then (s,some .enoent)
    else if env.overQuota then (s,some .enospc)
    else multipleCreate env s pfid p (newFile kind uid gid sgid 0 p pfid none) name base dir passes.toNat uid gid

end Multiple

/-- `export_mknod`. -/
def mknod (pfid : Fid) (name : Name) (kind : Kind) (uid gid : Nat) (sgid dir : Bool) : Result :=
  if pfid.del then (s,some .erofs)
  else
    match s.lookup env .parent pfid.inode with
    | none => (s,some env.failure)
    | some p =>
      let gid := newGid p gid
      if isMultiple name then mknodMultiple env s pfid.inode p name dir kind uid gid sgid
      else if env.deviceFull then (s,some .enospc)
      -- an unreadable part of the directory makes it read only
      else if env.fails .find then (s,some .eio)
      else
        let child := ((s.entries pfid.inode).get name).bind fun e => s.lookup env .child e.inode
        match child with
        | some a => if env.mknodOk ∧ env.recent ∧ a.uid = uid ∧ a.gid = gid then (s,none) else (s,some .eexist)
        | none => if env.overQuota then (s,some .enospc) else mknodCreate env s pfid.inode p name kind uid gid sgid dir

/-- The end of `export_mkdir` on an error, before the path of the directory is known: a path left in
the buffer is removed. -/
def mkdirError (errno : Errno) : Result :=
  match env.stale with
  | none => (s,some errno)
  | some d => if errno = .eexist then (s,some errno) else (s.setFolder d false,some errno)

/-- The end of `export_mkdir` on an error once the path is known. -/
def mkdirCleanup (new : Nat) (errno : Errno) : Result :=
  let s := s.delete new
  (if errno = .eexist then s else s.setFolder new false,some errno)

/-- The second part of `export_mkdir`. -/
def mkdirCreate (pfid : Nat) (p : Attr) (name : Name) (uid gid : Nat) (sgid : Bool) : Result :=
  let new := env.fresh 0
  let a := newDirectory uid gid sgid p pfid
  if env.fails .allocate then mkdirError env s env.failure
  else
    let s := s.create new a
    if env.fails .resolve then mkdirError env (s.delete new) env.failure
    else if env.fails .mkdirPath then mkdirCleanup s new env.failure
    else
      let s := s.setFolder new true
      if env.fails .openPath then mkdirCleanup s new env.failure
      else if env.fails .bitmap then mkdirCleanup s new .eproto
      else if putFails env p then mkdirCleanup s new env.failure
      else
        let s := s.putEntry pfid name ⟨new,false,true⟩
        if env.fails .write then mkdirCleanup s new env.failure
        else
          let s := s.modify pfid fun p => p.incChildren.incNlink
          if env.fails .writeParent then mkdirCleanup s new env.failure
          else
            let s := s.inodeUpdate uid gid p.cid 1
            (s,if env.fails .initialBitmap then some env.failure else none)

/-- `errno` after `get_mdirentry`, which sets it first: it is 0 when the name is found. -/
def searchErrno (found : Option Entry) : Errno := if found.isSome then .other 0 else .enoent

/-- `export_mkdir`. When the name exists with its inode, the entry is removed if `errno` is `ENOENT`. -/
def mkdir (pfid : Fid) (name : Name) (uid gid : Nat) (sgid : Bool) : Result :=
  if pfid.del then mkdirError env s .erofs
  else if env.deviceFull then mkdirError env s .enospc
  else
    match s.lookup env .parent pfid.inode with
    | none => mkdirError env s env.failure
    | some p =>
      if name = dirTrash then
        if p.trash ≠ .off then mkdirError env s .eexist
        else (s.modify pfid.inode fun p => { p with trash := .on },none)
      else
        let gid := newGid p gid
        let sgid := sgid || p.sgid
        if env.fails .find then (s,some .eio)
        else
          let found := (s.entries pfid.inode).get name
          match found.bind fun e => s.lookup env .child e.inode with
          | some _ =>
            if env.mkdirOk then (s,none)
            else if searchErrno found ≠ .enoent then mkdirError env s (searchErrno found)
            else
              let s := if env.fails .remove then s else s.delEntry pfid.inode name
              if env.overQuota then mkdirError env s .enospc else mkdirCreate env s pfid.inode p name uid gid sgid
          | none => if env.overQuota then mkdirError env s .enospc else mkdirCreate env s pfid.inode p name uid gid sgid

/-- `export_symlink`. The block of the link is not released on an error. -/
def symlink (length : Nat) (pfid : Fid) (name : Name) (uid gid : Nat) (dir : Bool) : Result :=
  if pfid.del then (s,some .erofs)
  else
    match s.lookup env .parent pfid.inode with
    | none => (s,some env.failure)
    | some p =>
      if env.fails .find then (s,some .eio)
      else if ((s.entries pfid.inode).get name).isSome then (s,some .eexist)
      else if env.fails .allocate then (s,some env.failure)
      else
        let new := env.fresh 0
        let s := (s.create new (newFile .lnk uid gid false length p pfid.inode (some env.freshLink))).setLink env.freshLink true
        if env.fails .bitmap then (s.delete new,some .eproto)
        else if putFails env p then (s.delete new,some env.failure)
        else
          let s := s.putEntry pfid.inode name ⟨new,false,dir⟩
          if env.fails .write then (s.delete new,some env.failure)
          else
            let s := s.modify pfid.inode Attr.incChildren
            if env.fails .writeParent then (s.delete new,some env.failure)
            else (s.inodeUpdate uid gid p.cid 1,none)

end Create

end Rozofs.Namespace
