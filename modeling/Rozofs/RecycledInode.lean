import Mathlib.Logic.Function.Basic

/-! The attributes that `export_mknod` gives to a file, on a fresh inode or on one that `export_fid_recycle_attempt` has
put in a recycle list. -/
namespace Rozofs.RecycledInode
open Function (update)

/-- The bytes of a name, without the zero after them. -/
abbrev Name := List (BitVec 8)

/-- The fields of `rozofs_inode_t` that are looked at; `other` stands for all the others. -/
structure Fid where
  recycleCpt : BitVec 2
  usrId : BitVec 8
  other : Nat
  deriving DecidableEq

/-- `mdirent_fid_name_info_t`. -/
structure FidNameInfo where
  coll : Bool
  rootIdx : BitVec 15
  collIdx : BitVec 16
  chunkIdx : BitVec 12
  nbChunk : BitVec 4
  deriving DecidableEq

/-- The six bytes of the structure; the first field of a word is in its low bits. -/
def FidNameInfo.bytes (info : FidNameInfo) : List (BitVec 8) :=
  [info.rootIdx ++ BitVec.ofBool info.coll,info.collIdx,info.nbChunk ++ info.chunkIdx].flatMap fun word : BitVec 16 =>
    [word.setWidth 8,(word >>> 8).setWidth 8]

/-- `ROZOFS_OBJ_NAME_MAX`. -/
def objNameMax : Nat := 60

/-- `rozofs_inode_fname_t`: `indirect` is the name type, `area` the union of the name and of its place in the dirent files. -/
structure Fname where
  indirect : Bool
  len : Nat
  hashSuffix : Nat
  area : Vector (BitVec 8) objNameMax
  deriving DecidableEq

/-- `ext_mattr_t` of a regular file, without its fillers. `children` holds the indexes of the storage files, and
`ibody` is what follows the structure in the 512 bytes: the extended attributes that are in the inode. -/
structure ExtMattr where
  fid : Fid
  sids : List Nat
  cid : Nat
  mode : Nat
  uid : Nat
  gid : Nat
  nlink : Nat
  ctime : Nat
  atime : Nat
  mtime : Nat
  size : Nat
  children : Nat
  cr8time : Nat
  pfid : Fid
  hash1 : Nat
  hash2 : Nat
  iExtraIsize : Nat
  iState : Nat
  iFileAcl : Nat
  iLinkName : Nat
  shareId : Nat
  nbBlocksThin : Nat
  fname : Fname
  ibody : List (BitVec 8)
  deriving DecidableEq

/-- The configuration and the counters of the trash that decide whether a fid is recycled. -/
structure Config where
  fidRecycle : Bool
  ready : Bool
  pending : Nat
  thresholdHigh : Nat

/-- The attributes on disk and the recycle lists of an export, one for each slice. -/
structure Export where
  attributes : Fid → Option ExtMattr
  recycleBuckets : BitVec 8 → List Fid

/-- `export_fid_recycle_attempt`; `none` when the fid is not recycled. The block of extended attributes is released. -/
def fidRecycleAttempt (cfg : Config) (st : Export) (a : ExtMattr) : Option Export :=
  if cfg.fidRecycle = false then none
  else if cfg.ready = false then none
  else if cfg.pending < cfg.thresholdHigh then none
  else
    let fid := { a.fid with recycleCpt := a.fid.recycleCpt + 1 }
    let a := { a with fid := fid, cr8time := 0, iFileAcl := 0 }
    some ⟨update st.attributes fid (some a),update st.recycleBuckets fid.usrId (st.recycleBuckets fid.usrId ++ [fid])⟩

/-- `export_get_recycled_inode`. -/
def getRecycledInode (cfg : Config) (st : Export) (pfid : Fid) : Export × Option ExtMattr :=
  if cfg.fidRecycle = false then (st,none)
  else if cfg.ready = false then (st,none)
  else
    match st.recycleBuckets pfid.usrId with
    | [] => (st,none)
    | fid :: rest => ({ st with recycleBuckets := update st.recycleBuckets pfid.usrId rest },st.attributes fid)

/-- What `export_mknod` is asked, with the share of the parent, the time and the hashes of the name. -/
structure Request where
  pfid : Fid
  cid : Nat
  name : Name
  mode : Nat
  uid : Nat
  gid : Nat
  time : Nat
  hash1 : Nat
  hash2 : Nat

/-- What the volume, the tracking file and the dirent files answer. -/
structure Answers where
  distribute : Option (Nat × List Nat)
  allocate : Option Fid
  flush : Bool
  put : Option FidNameInfo

/-- The attributes before they are filled, `memset`. -/
def zeroed : ExtMattr := ⟨⟨0,0,0⟩,[],0,0,0,0,0,0,0,0,0,0,0,⟨0,0,0⟩,0,0,0,0,0,0,0,0,⟨false,0,0,Vector.replicate objNameMax 0⟩,[]⟩

/-- `ROZOFS_I_EXTRA_ISIZE`. -/
def iExtraIsize : Nat := 240

/-- Bytes written at the start of the area; the others stay. -/
def overwrite (bytes : List (BitVec 8)) (area : Vector (BitVec 8) objNameMax) : Vector (BitVec 8) objNameMax :=
  Vector.ofFn fun i => (bytes[i.val]?).getD area[i]

/-- `exp_store_fname_in_inode`: `strncpy` of the length of the name writes no zero after it, and the place of a long name
is followed by an empty suffix. -/
def storeFname (name : Name) (info : FidNameInfo) (fname : Fname) : Fname :=
  if name.length < objNameMax then ⟨false,name.length,0,overwrite name fname.area⟩
  else ⟨true,fname.len,0,overwrite (info.bytes ++ [0]) fname.area⟩

/-- The name that `strcmp` reads in an inode. -/
def Fname.read (fname : Fname) : Name := fname.area.toList.takeWhile (· ≠ 0)

/-- The attributes that are written over those of a recycled inode too; `rozofs_clear_xattr_flag` sets the flag. -/
def fill (req : Request) (a : ExtMattr) : ExtMattr :=
  { a with
    mode := req.mode ||| 0x80000000, uid := req.uid, gid := req.gid, nlink := 1, iExtraIsize := iExtraIsize, iState := 0, iFileAcl := 0,
    iLinkName := 0, ctime := req.time, atime := req.time, mtime := req.time, cr8time := req.time, size := 0 }

/-- The entry of the new file, then its attributes. -/
def enter (req : Request) (answers : Answers) (st : Export) (a : ExtMattr) : Export × Option ExtMattr :=
  let a := { a with hash1 := req.hash1, hash2 := req.hash2 }
  if answers.flush = false then (st,none)
  else
    match answers.put with
    | none => (st,none)
    | some info =>
      let a := { a with fname := storeFname req.name info a.fname }
      ({ st with attributes := update st.attributes a.fid (some a) },some a)

/-- `export_mknod` from the attributes on. -/
def mknod (cfg : Config) (req : Request) (answers : Answers) (st : Export) : Export × Option ExtMattr :=
  let ext := { zeroed with pfid := req.pfid, shareId := req.cid }
  match getRecycledInode cfg st req.pfid with
  | (st,some recycled) => enter req answers st (fill req recycled)
  | (st,none) =>
    match answers.distribute with
    | none => (st,none)
    | some (cid,sids) =>
      let ext := fill req { ext with cid := cid, sids := sids }
      match answers.allocate with
      | none => (st,none)
      | some fid => enter req answers st { ext with fid := fid }

/-- The same attributes, except for the fid, the distribution and the indexes of the storage files. -/
def Same (a b : ExtMattr) : Prop := { b with fid := a.fid, sids := a.sids, cid := a.cid, children := a.children } = a

instance (a b : ExtMattr) : Decidable (Same a b) := inferInstanceAs (Decidable (_ = _))

section Attributes
variable {cfg : Config} {req : Request} {answers : Answers} {st st' : Export} {a former : ExtMattr}

/-- The attributes that an inode has in the recycle list. -/
def recycled (a : ExtMattr) : ExtMattr := { a with fid := { a.fid with recycleCpt := a.fid.recycleCpt + 1 }, cr8time := 0, iFileAcl := 0 }

/-- A fid that is recycled goes to the end of the list of its slice, with its attributes. -/
theorem fidRecycleAttempt_spec (done : fidRecycleAttempt cfg st a = some st') :
    st'.attributes (recycled a).fid = some (recycled a) ∧
    st'.recycleBuckets = update st.recycleBuckets a.fid.usrId (st.recycleBuckets a.fid.usrId ++ [(recycled a).fid]) := by
  unfold fidRecycleAttempt at done
  split at done
  · cases done
  · split at done
    · cases done
    · split at done
      · cases done
      · cases done
        exact ⟨Function.update_self _ _ _,rfl⟩

theorem getRecycledInode_off (off : cfg.fidRecycle = false) (pfid : Fid) : getRecycledInode cfg st pfid = (st,none) := by
  rw [getRecycledInode,if_pos off]

theorem getRecycledInode_first (on : cfg.fidRecycle = true) (ready : cfg.ready = true) {pfid fid : Fid} {rest : List Fid}
    (list : st.recycleBuckets pfid.usrId = fid :: rest) (kept : st.attributes fid = some a) :
    (getRecycledInode cfg st pfid).2 = some a := by
  have enabled : ¬cfg.fidRecycle = false := by rw [on]; exact Bool.noConfusion
  have loaded : ¬cfg.ready = false := by rw [ready]; exact Bool.noConfusion
  simp only [getRecycledInode,if_neg enabled,if_neg loaded,list,kept]

/-- The attributes of a file that is entered. -/
theorem enter_some (done : (enter req answers st a).2 = some former) :
    ∃ info, answers.put = some info ∧ former = { a with hash1 := req.hash1, hash2 := req.hash2, fname := storeFname req.name info a.fname } := by
  simp only [enter] at done
  split at done
  · cases done
  · cases put : answers.put with
    | none =>
      rw [put] at done
      cases done
    | some info =>
      simp only [put,Option.some.injEq] at done
      exact ⟨info,rfl,done.symm⟩

/-- The attributes of a file on a recycled inode. -/
theorem mknod_recycled {result : ExtMattr} (supplied : (getRecycledInode cfg st req.pfid).2 = some a)
    (done : (mknod cfg req answers st).2 = some result) :
    ∃ info, answers.put = some info ∧
      result = { fill req a with hash1 := req.hash1, hash2 := req.hash2, fname := storeFname req.name info a.fname } := by
  have split : getRecycledInode cfg st req.pfid = ((getRecycledInode cfg st req.pfid).1,some a) := Prod.ext rfl supplied
  rw [mknod,split] at done
  exact enter_some done

/-- The attributes of a file on a fresh inode. -/
theorem mknod_fresh {result : ExtMattr} (off : cfg.fidRecycle = false) (done : (mknod cfg req answers st).2 = some result) :
    ∃ info fid cid sids, answers.put = some info ∧ result = { fill req { zeroed with pfid := req.pfid, shareId := req.cid } with
      fid := fid, cid := cid, sids := sids, hash1 := req.hash1, hash2 := req.hash2, fname := storeFname req.name info zeroed.fname } := by
  rw [mknod,getRecycledInode_off off] at done
  cases distribute : answers.distribute with
  | none =>
    simp only [distribute] at done
    cases done
  | some place =>
    cases allocate : answers.allocate with
    | none =>
      simp only [distribute,allocate] at done
      cases done
    | some fid =>
      simp only [distribute,allocate] at done
      obtain ⟨info,put,same⟩ := enter_some done
      exact ⟨info,fid,place.1,place.2,put,same⟩

/-- The new name covers what the former one has left in the inode: a name in the inode only its own bytes, the place of a
long name the first seven, and not the length. -/
def Covers (name : Name) (former : Fname) : Prop :=
  if name.length < objNameMax then ∀ i : Fin objNameMax, name.length ≤ i → former.area[i] = 0
  else former.len = 0 ∧ ∀ i : Fin objNameMax, 7 ≤ i.val → former.area[i] = 0

instance (name : Name) (former : Fname) : Decidable (Covers name former) :=
  inferInstanceAs (Decidable (if name.length < objNameMax then _ else _ ∧ _))

theorem overwrite_eq_iff (bytes : List (BitVec 8)) (area area' : Vector (BitVec 8) objNameMax) :
    overwrite bytes area = overwrite bytes area' ↔ ∀ i : Fin objNameMax, bytes.length ≤ i → area[i] = area'[i] := by
  constructor
  · intro same i after
    have entry : (overwrite bytes area)[i] = (overwrite bytes area')[i] := by rw [same]
    simpa only [overwrite,Fin.getElem_fin,Vector.getElem_ofFn,List.getElem?_eq_none after,Option.getD_none] using entry
  · intro rest
    apply Vector.ext
    intro i inside
    simp only [overwrite,Vector.getElem_ofFn]
    by_cases covered : i < bytes.length
    · simp only [List.getElem?_eq_getElem covered,Option.getD_some]
    · simp only [List.getElem?_eq_none (Nat.le_of_not_lt covered),Option.getD_none]
      exact rest ⟨i,inside⟩ (Nat.le_of_not_lt covered)

/-- The name in the inode is as on a fresh inode when the new name covers the former one. -/
theorem storeFname_eq_iff (name : Name) (info : FidNameInfo) (former : Fname) :
    storeFname name info zeroed.fname = storeFname name info former ↔ Covers name former := by
  have blank : ∀ i : Fin objNameMax, zeroed.fname.area[i] = 0 := fun i => Vector.getElem_replicate i.isLt
  have place : (info.bytes ++ [0]).length = 7 := rfl
  unfold storeFname Covers
  split
  · simp only [Fname.mk.injEq,true_and,overwrite_eq_iff,blank]
    exact forall₂_congr fun i _ => eq_comm
  · simp only [Fname.mk.injEq,true_and,overwrite_eq_iff,blank,place]
    exact and_congr eq_comm (forall₂_congr fun i _ => eq_comm)

/-- A file on a recycled inode has the attributes of one on a fresh inode exactly when the file that it was had the
same parent and share, no block, no extended attribute in the inode, and a name that the new one covers. -/
theorem recycled_as_fresh (cfg : Config) (req : Request) (answers : Answers) (st : Export) (former a b : ExtMattr) (first : Fid)
    (rest : List Fid) (on : cfg.fidRecycle = true) (ready : cfg.ready = true) (list : st.recycleBuckets req.pfid.usrId = first :: rest)
    (kept : st.attributes first = some (recycled former)) (reused : (mknod cfg req answers st).2 = some a)
    (fresh : (mknod { cfg with fidRecycle := false } req answers st).2 = some b) :
    Same a b ↔ former.pfid = req.pfid ∧ former.shareId = req.cid ∧ former.nbBlocksThin = 0 ∧ former.ibody = [] ∧
      Covers req.name former.fname := by
  obtain ⟨info,put,rfl⟩ := mknod_recycled (getRecycledInode_first on ready list kept) reused
  obtain ⟨info',fid,cid,sids,put',rfl⟩ := mknod_fresh rfl fresh
  rw [put,Option.some.injEq] at put'
  subst put'
  simp only [Same,fill,recycled,zeroed,ExtMattr.mk.injEq,true_and]
  rw [← storeFname_eq_iff req.name info]
  constructor
  · rintro ⟨parent,share,blocks,name,body⟩
    exact ⟨parent.symm,share.symm,blocks.symm,body.symm,name⟩
  · rintro ⟨parent,share,blocks,body,name⟩
    exact ⟨parent.symm,share.symm,blocks.symm,name,body.symm⟩

end Attributes

section Files

def enabled : Config := ⟨true,true,0,0⟩

def info : FidNameInfo := ⟨false,0,0,0,1⟩

/-- A file `abcdef` of share 3 with 8 blocks and an extended attribute in its inode. -/
def sharedFile : ExtMattr :=
  { zeroed with
    fid := ⟨0,7,50⟩, pfid := ⟨0,7,10⟩, shareId := 3, nbBlocksThin := 8, iState := 1, ibody := [1],
    fname := storeFname [0x61,0x62,0x63,0x64,0x65,0x66] info zeroed.fname }

/-- A file `b` without anything left. -/
def plainFile : ExtMattr :=
  { zeroed with fid := ⟨0,7,50⟩, pfid := ⟨0,7,20⟩, shareId := 5, size := 10, uid := 9, fname := storeFname [0x62] info zeroed.fname }

/-- The name `xy` in a directory of share 5. -/
def request : Request := ⟨⟨0,7,20⟩,5,[0x78,0x79],0x81A4,1,1,1000,11,12⟩

def answers : Answers := ⟨some (2,[4,5,6]),some ⟨0,7,51⟩,true,some info⟩

/-- An export without files. -/
def empty : Export := ⟨fun _ => none,fun _ => []⟩

/-- The export once a file has been removed. -/
def removed (a : ExtMattr) : Export := (fidRecycleAttempt enabled empty a).getD empty

/-- The inode of a file of the same directory, all of whose data is gone. -/
theorem recycled_as_fresh_plainFile :
    ∃ a b, (mknod enabled request answers (removed plainFile)).2 = some a ∧
      (mknod { enabled with fidRecycle := false } request answers (removed plainFile)).2 = some b ∧ Same a b := by
  have reused : (mknod enabled request answers (removed plainFile)).2.isSome = true := by decide
  have fresh : (mknod { enabled with fidRecycle := false } request answers (removed plainFile)).2.isSome = true := by decide
  obtain ⟨a,reused⟩ := Option.isSome_iff_exists.mp reused
  obtain ⟨b,fresh⟩ := Option.isSome_iff_exists.mp fresh
  have done : fidRecycleAttempt enabled empty plainFile = some (removed plainFile) := rfl
  obtain ⟨kept,buckets⟩ := fidRecycleAttempt_spec done
  have list : (removed plainFile).recycleBuckets request.pfid.usrId = (recycled plainFile).fid :: [] := by
    rw [buckets]
    rfl
  have same := (recycled_as_fresh enabled request answers (removed plainFile) plainFile a b (recycled plainFile).fid [] rfl rfl list kept
    reused fresh).mpr (by decide)
  exact ⟨a,b,reused,fresh,same⟩

/-- The new file keeps the parent, the share, the blocks, the extended attributes and the end of the name of the former one. -/
theorem former_attributes_kept :
    ∃ a b, (mknod enabled request answers (removed sharedFile)).2 = some a ∧
      (mknod { enabled with fidRecycle := false } request answers (removed sharedFile)).2 = some b ∧
      a.pfid = ⟨0,7,10⟩ ∧ a.shareId = 3 ∧ a.nbBlocksThin = 8 ∧ a.ibody = [1] ∧ a.fname.read = [0x78,0x79,0x63,0x64,0x65,0x66] ∧
      b.pfid = request.pfid ∧ b.shareId = request.cid ∧ b.nbBlocksThin = 0 ∧ b.ibody = [] ∧ b.fname.read = request.name ∧ ¬Same a b := by
  refine ⟨_,_,rfl,rfl,?_⟩
  decide

end Files

end Rozofs.RecycledInode
