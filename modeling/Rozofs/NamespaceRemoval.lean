import Rozofs.Namespace

/-! The calls that remove and move the objects of a namespace: `export_unlink` and `export_rename`. -/
namespace Rozofs.Namespace

variable (env : Env) (s : State)

/-- `export_build_deleted_name`; for a directory with the number of the inode, less its slice. -/
def deletedName (hour : Name) (key : Option Nat) (name : Name) : Name :=
  '@' :: hour ++ '@' :: (match key with
    | none => []
    | some inode => Nat.toDigits 16 (inode / 256)) ++ '@' :: name

/-- The name after the third `@`. -/
def stripDeleted : Nat → Name → Option Name
  | _, [] => none
  | count, c :: rest => if c = '@' then (if count = 2 then some rest else stripDeleted (count + 1) rest) else stripDeleted count rest

/-- `rozofs_export_eval_parent_delete_state` is 0: the parent is active for the client and in its
attributes. -/
def active (parent : Fid) (p : Attr) : Bool := !parent.del && !p.del

/-- The objects of an active parent go to the trash. -/
def toTrash (parent : Fid) (p : Attr) : Bool := active parent p && (env.versioning || decide (p.trash ≠ .off))

section Unlink

/-- The inode of a removed file is released or recycled, and its quota given back. -/
def State.release (s : State) (inode : Nat) (a p : Attr) : State :=
  let s := s.delete inode
  let s := match a.link with
    | none => s
    | some block => s.setLink block false
  let s := if a.kind = .reg ∧ env.recycle then s.setRecycled (slice inode) (s.recycled (slice inode) ++ [(inode,{ a with del := false })]) else s
  (s.inodeUpdate a.uid a.gid p.cid (-1)).blockUpdate a.uid a.gid p.cid (if a.kind = .reg then -(a.size : Int) else 0)

/-- Whether the last link of a file goes to the trash: not an empty file, nor one that is not
regular. -/
def keepsData (a : Attr) (rename : Bool) : Bool := rename && decide (a.kind = .reg) && decide (a.size ≠ 0)

/-- Whether the removal counts among the children of the parent. -/
def countsChild (a : Attr) (active : Bool) : Bool := active || decide (a.kind ≠ .reg) || decide (a.size = 0)

/-- A file goes to the trash, unless an entry with its name is there: then it is removed. -/
def trashFile (parent : Nat) (p : Attr) (name : Name) (e : Entry) (a : Attr) : State :=
  let s := s.modify parent fun p => p.decChildren.incDeleted
  let del := deletedName env.hour none name
  let s := s.modify e.inode fun a => { a with del := true }
  if ((s.entries parent).get del).isSome then
    let s := s.modify parent Attr.decDeleted
    if a.nlink = 1 then s.release env e.inode a p else s
  else s.putEntry parent del { e with del := true }

/-- A file is removed: its last link with the inode, and the counters of the parent. -/
def removeFile (parent : Fid) (p : Attr) (e : Entry) (a : Attr) : State :=
  let s := if a.nlink = 1 then s.release env e.inode a p else if a.nlink > 1 then s.modify e.inode Attr.decNlink else s
  let children := if a.nlink = 1 then countsChild a (active parent p) else decide (a.nlink > 1) || active parent p
  let s := if children then s.modify parent.inode Attr.decChildren else s
  if active parent p then s else s.modify parent.inode Attr.decDeleted

/-- What `export_unlink_multiple` counts: the inodes, the sizes, and the user of the first one. -/
structure Removed where
  state : State
  count : Nat
  size : Nat
  user : Nat

/-- The numbered files, whatever their type; nothing goes to the trash. -/
def removeNumbered (parent : Nat) (base : Name) : Nat → Removed
  | 0 => ⟨s,0,0,noId⟩
  | k + 1 =>
    let r := removeNumbered parent base k
    match (r.state.entries parent).get (numbered base (k + 1)) with
    | none => r
    | some e =>
      let s := r.state.delEntry parent (numbered base (k + 1))
      match s.attrs.get e.inode with
      | none => { r with state := s }
      | some a =>
        let s := s.delete e.inode
        let s := match a.link with
          | none => s
          | some block => s.setLink block false
        ⟨s,r.count + 1,r.size + a.size,if r.count = 0 then a.uid else r.user⟩

/-- `export_unlink_multiple`. The user is also the group, the sizes go to the number of inodes, and
the parent loses one child. -/
def unlinkMultiple (parent : Nat) (p : Attr) (name : Name) : Result :=
  match parseObjectName (objectName name) with
  | .error _ => (s,some .enotsup)
  | .ok (count,base) =>
    match (s.entries parent).get name with
    | none => (s,some .enoent)
    | some e =>
      if e.dir then (s,some .eisdir)
      else
        let r := removeNumbered s parent base count.toNat
        let s := r.state.inodeUpdate r.user r.user p.cid (-(r.count : Int))
        let s := s.inodeUpdate r.user r.user p.cid (-(r.size : Int))
        (s.modify parent Attr.decChildren,none)

/-- The rest of `export_unlink`, for one name. -/
def unlinkName (parent : Fid) (p : Attr) (name : Name) : Result :=
  match (s.entries parent.inode).get name with
  | none => (s,some .enoent)
  | some e =>
    if e.dir then (s,some .eisdir)
    else if e.del ∧ toTrash env parent p then (s,some .eacces)
    -- an active file is not removed through the trash or a deleted directory
    else if parent.del ≠ p.del ∧ e.del = false then (s,some .eacces)
    else
      match s.attrs.get e.inode with
      | none => (s.delEntry parent.inode name,some .enoent)
      | some a =>
        let s := s.delEntry parent.inode name
        let rename := if a.nlink = 1 then keepsData a (toTrash env parent p) else decide (a.nlink = 0) && toTrash env parent p
        (if rename then trashFile env s parent.inode p name e a else removeFile env s parent p e a,none)

/-- `export_unlink`. -/
def unlink (parent : Fid) (name : Name) : Result :=
  match s.attrs.get parent.inode with
  | none => (s,some .enoent)
  | some p =>
    if isMultiple name then
      let done := unlinkMultiple s parent.inode p name
      if done.2 = none then unlinkName env done.1 parent p name else done
    else unlinkName env s parent p name

end Unlink

section Rename

def Attr.decChildrenPositive (a : Attr) : Attr := if a.children > 0 then a.decChildren else a

/-- `export_rename_trash`: an empty directory is renamed to the trash of its parent, which gives the
parent a trash. The path that is removed is that of the identifier for the answer. -/
def renameTrash (pfid npfid : Fid) (name : Name) : Result :=
  match s.lookup env .parent pfid.inode with
  | none => (s,some env.failure)
  | some p =>
    if pfid.del then (s,some .eperm)
    else if pfid ≠ npfid then (s,some .eperm)
    else if p.trash ≠ .off then (s,some .eperm)
    else if env.fails .find then (s,some env.failure)
    else
      match (s.entries pfid.inode).get name with
      | none => (s,some .enoent)
      | some e =>
        match s.lookup env .child e.inode with
        | none => (s,some env.failure)
        | some a =>
          if a.kind ≠ .dir then (s,some .eperm)
          else if a.nbDeletedFiles ≠ 0 ∨ a.children ≠ 0 then (s,some .eperm)
          else if env.fails .resolve then (s,some env.failure)
          else
            let s := match env.stale with
              | none => s
              | some d => s.setFolder d false
            let s := s.delete e.inode
            let s := s.modify pfid.inode fun p => p.decChildrenPositive.decNlink
            let s := s.inodeUpdate a.uid a.gid p.cid (-1)
            let s := s.delEntry pfid.inode name
            (s.modify pfid.inode fun p => { p with trash := .on },none)

/-- The removal of the directory that a rename replaces; the error of the first operation that
fails. A folder that has entries cannot be removed. -/
def replaceDirectory (npfid : Nat) (inode : Nat) : Result :=
  let s := s.modify npfid fun p => p.decNlink.decChildren
  if env.fails .updateFiles then (s,some env.failure)
  else if env.fails .resolve then (s,some env.failure)
  else if env.fails .unlinkPath then (s,some env.failure)
  else
    let s := s.setFolder inode false
    if env.fails .rmdirPath ∨ (s.entries inode).cells ≠ [] then (s,some env.failure) else (s,none)

/-- What a rename does to the object that has the new name. -/
def replace (npfid : Fid) (newname : Name) (a : Attr) (r : Entry) : Result :=
  match s.lookup env .replaced r.inode with
  | none => (s,some env.failure)
  | some ra =>
    if ra.kind = .dir then
      if a.kind ≠ .dir then (s,some .eisdir)
      else if ra.children ≠ 0 then (s,some .enotempty)
      else replaceDirectory env s npfid.inode r.inode
    else if ra.kind = .reg ∨ ra.kind = .lnk then ((unlink env s npfid newname).1,none)
    else (s,none)

/-- The counters of the two parents, and the share of a regular file that changes its share. -/
def moveCounters (pfid npfid : Nat) (old new a : Attr) : State :=
  let dir := decide (a.kind = .dir)
  if pfid ≠ npfid then
    let s := s.modify npfid fun p => if dir then p.incChildren.incNlink else p.incChildren
    let s := s.modify pfid fun p => if a.del then p.decDeleted else if dir then p.decChildren.decNlink else p.decChildren
    if a.kind = .reg ∧ old.cid ≠ new.cid then
      let s := (s.inodeUpdate noId noId old.cid (-1)).blockUpdate noId noId old.cid (-(a.size : Int))
      (s.inodeUpdate noId noId new.cid 1).blockUpdate noId noId new.cid a.size
    else s
  else if a.del then s.modify npfid fun p => if dir then p.decDeleted.incChildren.incNlink else p.decDeleted.incChildren
  else s

/-- The attributes that a call still has of an inode: those of a removed file stay when it is to be
recycled. -/
def State.held (inode : Nat) : Option Attr :=
  match s.attrs.get inode with
  | some a => some a
  | none => ((s.recycled (slice inode)).find? fun r => r.1 = inode).map Prod.snd

/-- Attributes changed in the cache, also those of an inode to recycle. -/
def State.modifyHeld (inode : Nat) (f : Attr → Attr) : State :=
  if (s.attrs.get inode).isSome then s.modify inode f
  else s.setRecycled (slice inode) ((s.recycled (slice inode)).map fun r => if r.1 = inode then (r.1,f r.2) else r)

/-- `export_lv2_write_attributes`: the place of an inode that was released holds no attributes. -/
def writeAttributes (fault : Fault) (inode : Nat) : Option Errno :=
  if env.fails fault then some env.failure else if (s.held inode).isNone then some .enoent else none

/-- The last part of `export_rename`: the attributes of the parents are written, and those of the
object with its new parent. -/
def renameAttributes (pfid npfid inode : Nat) (old new : Attr) : Result :=
  let parents := if pfid = npfid then writeAttributes env s .writeParent npfid
    else (writeAttributes env s .writeParent npfid).or (writeAttributes env s .writeOldParent pfid)
  if parents.isSome then (s,parents)
  else
    let s := s.modifyHeld inode fun a => { a with pfid := npfid, share := if old.cid = new.cid then a.share else new.cid }
    (s,writeAttributes env s .write inode)

/-- The end of `export_rename`: the new entry, the old one, the counters and the attributes. The
attributes are those after the replacement. -/
def renameEntry (pfid npfid : Nat) (name newname : Name) (inode : Nat) (old new a : Attr) : Result :=
  let a := (s.held inode).getD a
  -- the delete pending bit goes before the insertion
  let s := s.modify inode fun a => { a with del := false }
  if env.fails .put then (s,some env.failure)
  else
    let s := s.putEntry npfid newname ⟨inode,false,decide (a.kind = .dir)⟩
    if env.fails .remove then (s,some env.failure)
    else renameAttributes env (moveCounters (s.delEntry pfid name) pfid npfid old new a) pfid npfid inode old new

/-- The second part of `export_rename`: what has the new name is replaced. -/
def renameOnto (pfid npfid : Fid) (name newname : Name) (inode : Nat) (old new a : Attr) (sourceIsTrash : Bool) : Result :=
  match (s.entries npfid.inode).get newname with
  | none => renameEntry env s pfid.inode npfid.inode name newname inode old new a
  | some r =>
    if sourceIsTrash then (s,some .eperm)
    else
      let done := replace env s npfid newname a r
      match done.2 with
      | some error => (done.1,some error)
      | none => renameEntry env done.1 pfid.inode npfid.inode name newname inode old new a

/-- `export_rename`. -/
def rename (pfid : Fid) (name : Name) (npfid : Fid) (newname : Name) : Result :=
  if newname = dirTrash then renameTrash env s pfid npfid name
  else
    match s.lookup env .parent pfid.inode with
    | none => (s,some env.failure)
    | some old =>
      match s.lookup env .newParent npfid.inode with
      | none => (s,some env.failure)
      | some new =>
        let sourceIsTrash := old.del || pfid.del
        if old.kind ≠ .dir then (s,some .enotdir)
        else if new.del ∨ npfid.del then (s,some .eperm)
        else if name = dirTrash then (s,some .eperm)
        else
          -- a file that leaves the trash with its name loses what was put before it
          match if sourceIsTrash ∧ name = newname then stripDeleted 0 newname else some newname with
          | none => (s,some .erofs)
          | some newname =>
            if env.fails .find then (s,some env.failure)
            else
              match (s.entries pfid.inode).get name with
              | none => (s,some .enoent)
              | some e =>
                match s.lookup env .child e.inode with
                | none => (s,some env.failure)
                | some a =>
                  if new.kind ≠ .dir then (s,some .enotdir)
                  else if env.fails .findNew then (s,some .eio)
                  else renameOnto env s pfid npfid name newname e.inode old new a sourceIsTrash

end Rename

end Rozofs.Namespace
