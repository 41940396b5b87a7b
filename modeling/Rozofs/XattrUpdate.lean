import Rozofs.XattrInode

/-! Updates of the attributes of an inode as updates of two tables, whatever the disk answers. -/
namespace Rozofs.Xattr
open ByteMemory KeyTable

/-! ### The root inode -/

/-- The root inode has room for the attributes of a table. -/
def Root.fits (root : Root) (t : Attrs) : Bool := root.extraIsize ≠ 0 && decide (Room 0 root.fin t.cells)

section RootInode
variable {root : Root} {t : Attrs}

theorem ibodySet_stored (space : root.extraIsize ≠ 0) (first : s.first = 0) (run : setEntry i s root.body = some (.ok,m))
    (stores : Stores h m 0 root.fin false t) :
    ∃ root', ibodySet root i s = some (.ok,root') ∧ root'.Holds t ∧ root'.extraIsize = root.extraIsize := by
  refine ⟨{ root with body := m, hasXattr := !isLastEntry m 0 },?_,⟨fun _ => ⟨h,stores⟩,fun marked => ?_,fun none => absurd none space⟩,rfl⟩
  · rw [ibodySet,if_neg space,run,Option.map_some,if_pos rfl,first]
  · have last : isLastEntry m 0 = true := by simpa using marked
    rw [stores.last] at last
    exact List.isEmpty_iff.mp last

theorem ibodySet_refused (space : root.extraIsize ≠ 0) (run : setEntry i s root.body = some (.enospc,root.body)) :
    ibodySet root i s = some (.enospc,root) := by
  rw [ibodySet,if_neg space,run,Option.map_some,if_neg fun same => by cases same]

theorem ibodyFind_spec (holds : root.Holds t) (stores : Stores h root.body 0 root.fin false t) (space : root.extraIsize ≠ 0) (key : Key) :
    ∃ here, ibodyFind root key = some (.ok,⟨0,root.fin,here,(t.get key).isNone⟩) ∧ Located h root.body 0 root.fin false t key here := by
  obtain ⟨here,run,located⟩ := stores.search root.fin_small key
  refine ⟨here,?_,located⟩
  rw [ibodyFind,if_neg space]
  cases marked : root.hasXattr with
  | false =>
    have nothing := holds.marked marked
    rw [get_nothing nothing,located.start nothing]
    rfl
  | true =>
    rw [stores.checkNames,Bool.not_true,if_neg (by decide),Option.bind_some,Bool.not_true,if_neg (by decide),run]
    cases t.get key <;> rfl

/-- What a search in the root inode allows. -/
structure Root.Ready (root : Root) (t : Attrs) (key : Key) (s : Search) : Prop where
  found : s.notFound = (t.get key).isNone
  put : ∀ value, Named key → root.fits (t.insert key value) = true → ∃ root', ibodySet root ⟨key,some value⟩ s = some (.ok,root') ∧
    root'.Holds (t.insert key value) ∧ root'.extraIsize = root.extraIsize
  refused : ∀ value, Named key → root.fits (t.insert key value) = false → ibodySet root ⟨key,some value⟩ s = some (.enospc,root)
  drop : (t.get key).isSome → ∃ root', ibodySet root ⟨key,none⟩ s = some (.ok,root') ∧ root'.Holds (t.erase key) ∧
    root'.extraIsize = root.extraIsize

theorem root_ready (holds : root.Holds t) (key : Key) : ∃ s, ibodyFind root key = some (.ok,s) ∧ root.Ready t key s := by
  by_cases space : root.extraIsize = 0
  · have nothing := holds.marked (holds.bare space)
    refine ⟨_,if_pos space,?_,?_,fun _ _ _ => if_pos space,?_⟩
    · rw [get_nothing nothing]
      rfl
    · intro v _ fits
      rw [Root.fits,space] at fits
      cases fits
    · intro some
      rw [get_nothing nothing] at some
      cases some
  · obtain ⟨h,stores⟩ := holds.area space
    obtain ⟨here,find,located⟩ := ibodyFind_spec holds stores space key
    have fits (u : Attrs) : root.fits u = decide (Room 0 root.fin u.cells) := by rw [Root.fits,decide_eq_true space,Bool.true_and]
    refine ⟨_,find,rfl,?_,?_,?_⟩
    · intro v named room
      rw [fits] at room
      have stored := located.put v named
      rw [if_pos (of_decide_eq_true room)] at stored
      obtain ⟨m,run,stores⟩ := stored
      exact ibodySet_stored space rfl run stores
    · intro v named room
      rw [fits] at room
      have stored := located.put v named
      rw [if_neg (of_decide_eq_false room)] at stored
      exact ibodySet_refused space stored
    · intro some
      obtain ⟨m,run,stores⟩ := located.drop some
      have present : (t.get key).isNone = false := by simpa using some
      exact ibodySet_stored space rfl (present ▸ run) stores

end RootInode

/-! ### The extended inode -/

def fitsBlock (t : Attrs) : Bool := decide (Room blockFirst blockEnd t.cells)

def Extended.readable (disk : Disk) (ext : Extended) : Bool := ext.fileAcl = 0 || disk.read

/-- What a change of the extended inode returns, and whether the disk has it. -/
def Extended.reply (disk : Disk) (ext : Extended) : Status :=
  if ext.fileAcl ≠ 0 then if disk.errno ≠ 0 then .failed disk.errno else .ok
  else if disk.create.1 ≠ 0 then .failed disk.create.1 else .ok

def Extended.stored (disk : Disk) (ext : Extended) : Bool := if ext.fileAcl ≠ 0 then disk.written else disk.create.1 = 0

/-- A failure leaves an error, and a new block has a reference. -/
structure Disk.Sane (disk : Disk) : Prop where
  reported : disk.written = false → disk.errno ≠ 0
  named : disk.create.1 = 0 → disk.create.2 ≠ 0

section ExtendedInode
variable {ext : Extended} {disk : Disk} {t u : Attrs} {key : Key}

theorem room_blockEnd (room : Room blockFirst blockEnd (t.insert key value).cells) : value.length ≤ blockEnd := by
  have long := (xattrSize_bounds value.length).1
  simp only [Room,KeyTable.Table.insert,need_cons] at room
  omega

theorem rewriteBlock_spec (sane : disk.Sane) (holds : ext.Holds t) (linked : ext.fileAcl ≠ 0) (ok : headerOk h = true)
    (stores : Stores h m blockFirst blockEnd true u) :
    ∃ ext', rewriteBlock disk ext m = (ext.reply disk,ext') ∧ ext'.Holds (if ext.stored disk then u else t) := by
  have after : ∃ h, headerOk h = true ∧
      Stores h (if disk.written then m else ext.block) blockFirst blockEnd true (if ext.stored disk then u else t) := by
    rw [Extended.stored,if_pos linked]
    cases disk.written with
    | true => exact ⟨h,ok,stores⟩
    | false => exact holds.area linked
  rw [rewriteBlock,Extended.reply,if_pos linked]
  by_cases failed : disk.errno ≠ 0
  · simp only [if_pos failed]
    exact ⟨_,rfl,fun _ => after,fun unlinked => absurd unlinked linked⟩
  · simp only [if_neg failed]
    have stored : ext.stored disk = true := by
      rw [Extended.stored,if_pos linked]
      cases written : disk.written with
      | true => rfl
      | false => exact absurd (sane.reported written) failed
    refine ⟨_,rfl,fun _ => after,fun unlinked => ?_⟩
    rw [stored,if_pos rfl]
    simp only [stores.last] at unlinked
    split at unlinked
    · rename_i last
      exact List.isEmpty_iff.mp last
    · exact absurd unlinked linked

theorem newBlock_zero (beyond : 12 ≤ i) : newBlock i = 0 := by
  rw [newBlock,write32_other (by omega),write32_other (by omega),write32_other (by omega)]

theorem stores_new : Stores newBlock newBlock blockFirst blockEnd true KeyTable.Table.empty :=
  stores_empty (fun i _ => newBlock_zero (by rw [blockFirst]; omega)) (by decide)

theorem createBlock_spec (sane : disk.Sane) (holds : ext.Holds t) (unlinked : ext.fileAcl = 0) (some : u.cells ≠ [])
    (stores : Stores newBlock m blockFirst blockEnd true u) :
    ∃ ext', createBlock disk ext m = (ext.reply disk,ext') ∧ ext'.Holds (if ext.stored disk then u else t) := by
  have more : isLastEntry m blockFirst = false := by
    rw [stores.last]
    exact List.isEmpty_eq_false_iff.mpr some
  have reply : ext.reply disk = if disk.create.1 ≠ 0 then .failed disk.create.1 else .ok := if_neg (not_not.mpr unlinked)
  have stored : ext.stored disk = decide (disk.create.1 = 0) := if_neg (not_not.mpr unlinked)
  rw [createBlock,more,if_neg (by simp),reply,stored]
  by_cases failed : disk.create.1 ≠ 0
  · rw [if_pos failed,if_pos failed]
    refine ⟨_,rfl,?_⟩
    rw [decide_eq_false failed,if_neg (by simp)]
    exact holds
  · have created : disk.create.1 = 0 := by simpa using failed
    rw [if_neg failed,if_neg failed]
    refine ⟨_,rfl,?_⟩
    rw [decide_eq_true created,if_pos rfl]
    exact ⟨fun _ => ⟨newBlock,by decide,stores⟩,fun none => absurd none (sane.named created)⟩

/-- What a search in the extended inode allows. -/
structure Extended.Ready (disk : Disk) (ext : Extended) (t : Attrs) (key : Key) (s : Option Search) : Prop where
  found : absent s = (t.get key).isNone
  searched : ext.fileAcl ≠ 0 → s.isNone = false
  put : ∀ value, Named key → fitsBlock (t.insert key value) = true →
    ∃ ext', blockSet disk ext ⟨key,some value⟩ s = some (ext.reply disk,ext') ∧
      ext'.Holds (if ext.stored disk then t.insert key value else t)
  refused : ∀ value, Named key → fitsBlock (t.insert key value) = false → blockSet disk ext ⟨key,some value⟩ s = some (.enospc,ext)
  drop : (t.get key).isSome → ∃ ext', blockSet disk ext ⟨key,none⟩ s = some (ext.reply disk,ext') ∧
    ext'.Holds (if ext.stored disk then t.erase key else t)

theorem blockSet_short (fits : fitsBlock (t.insert key value) = true) : tooLong ⟨key,some value⟩ = false := by
  have := room_blockEnd (of_decide_eq_true fits)
  apply decide_eq_false
  omega

theorem extended_ready (sane : disk.Sane) (holds : ext.Holds t) (readable : ext.readable disk = true) (key : Key) :
    ∃ s, blockFind disk ext key = some (.ok,s) ∧ ext.Ready disk t key s := by
  by_cases linked : ext.fileAcl = 0
  · have nothing := holds.unlinked linked
    have empty : t = KeyTable.Table.empty := KeyTable.Table.ext nothing
    obtain ⟨here,_,located⟩ := stores_new.search blockEnd_small key
    have start : here = blockFirst := located.start rfl
    subst empty start
    refine ⟨none,if_pos linked,rfl,fun other => absurd linked other,?_,?_,?_⟩
    · intro v named room
      have stored := located.put v named
      rw [if_pos (of_decide_eq_true room)] at stored
      obtain ⟨m,run,stores⟩ := stored
      rw [get_empty,Option.isNone_none] at run
      obtain ⟨ext',created,holds'⟩ := createBlock_spec sane holds linked (by simp [KeyTable.Table.insert]) stores
      refine ⟨ext',?_,holds'⟩
      rw [blockSet,blockSet_short room,if_neg (by simp)]
      simp only [run,Option.map_some,if_true,created]
    · intro v named room
      have stored := located.put v named
      rw [if_neg (of_decide_eq_false room),get_empty,Option.isNone_none] at stored
      rw [blockSet]
      split
      · rfl
      · simp only [stored,Option.map_some]
        rw [if_neg fun same => by cases same]
    · intro some
      cases some
  · have read : disk.read = true := by simpa [Extended.readable,linked] using readable
    obtain ⟨h,ok,stores⟩ := holds.area linked
    obtain ⟨here,run,located⟩ := stores.search blockEnd_small key
    refine ⟨some ⟨blockFirst,blockEnd,here,(t.get key).isNone⟩,?_,rfl,fun _ => rfl,?_,?_,?_⟩
    · rw [blockFind,if_neg linked,read,checkBlock_spec ok stores]
      simp only [Bool.not_true,Bool.false_eq_true,if_false,Option.bind_some,run,Option.map_some]
      cases t.get key <;> rfl
    · intro v named room
      have stored := located.put v named
      rw [if_pos (of_decide_eq_true room)] at stored
      obtain ⟨m,run,stores⟩ := stored
      obtain ⟨ext',written,holds'⟩ := rewriteBlock_spec sane holds linked ok stores
      refine ⟨ext',?_,holds'⟩
      rw [blockSet,blockSet_short room,if_neg (by simp)]
      simp only [run,Option.map_some,if_true,written]
    · intro v named room
      have stored := located.put v named
      rw [if_neg (of_decide_eq_false room)] at stored
      rw [blockSet]
      split
      · rfl
      · simp only [stored,Option.map_some]
        rw [if_neg fun same => by cases same]
    · intro some
      obtain ⟨m,run,stores⟩ := located.drop some
      obtain ⟨ext',written,holds'⟩ := rewriteBlock_spec sane holds linked ok stores
      have present : (t.get key).isNone = false := by simpa using some
      refine ⟨ext',?_,holds'⟩
      rw [blockSet,present,tooLong,if_neg (by simp)]
      simp only [run,Option.map_some,if_true,written]

end ExtendedInode

/-! ### Both -/

/-- What the two inodes hold. -/
structure Tables where
  root : Attrs
  extended : Attrs

def Tables.get (t : Tables) (key : Key) : Option (List UInt8) := (t.root.get key).or (t.extended.get key)

structure Inode.Holds (inode : Inode) (t : Tables) : Prop where
  root : inode.root.Holds t.root
  extended : inode.extended.Holds t.extended

/-- `xattrGet` reads the two tables, the root inode first. -/
theorem xattrGet_spec (holds : Inode.Holds inode t) (disk : Disk) (key : Key) (buffer : Option Nat) :
    xattrGet disk inode key buffer =
      some (answer ((t.root.get key).or (if disk.read then t.extended.get key else none)) buffer) := by
  rw [xattrGet,ibodyGet_spec holds.root,Option.bind_some]
  cases t.root.get key with
  | none => exact blockGet_spec holds.extended key buffer
  | some v =>
    cases buffer with
    | none => rfl
    | some size =>
      simp only [answer,Option.some_or]
      split
      · rename_i same
        split at same <;> cases same
      · rfl

/-- What is left of a change that passed the tests of the flags. -/
def changed (disk : Disk) (inode : Inode) (t : Tables) (i : Info) : Status × Tables :=
  match i.value with
  | none =>
    if (t.root.get i.key).isSome then (.ok,{ t with root := t.root.erase i.key })
    else
      (inode.extended.reply disk,
        ⟨t.root,if inode.extended.stored disk then t.extended.erase i.key else t.extended⟩)
  | some value =>
    if inode.root.fits (t.root.insert i.key value) then
      if (t.root.get i.key).isNone && (t.extended.get i.key).isSome then
        (inode.extended.reply disk,
          ⟨t.root.insert i.key value,if inode.extended.stored disk then t.extended.erase i.key else t.extended⟩)
      else (.ok,{ t with root := t.root.insert i.key value })
    else if !inode.extended.readable disk then (.eio,t)
    else if !fitsBlock (t.extended.insert i.key value) then (.enospc,t)
    else if inode.extended.reply disk ≠ .ok then
      (inode.extended.reply disk,
        ⟨t.root,if inode.extended.stored disk then t.extended.insert i.key value else t.extended⟩)
    else (.ok,⟨t.root.erase i.key,t.extended.insert i.key value⟩)

/-- `setHandle` on two tables. -/
def settled (disk : Disk) (inode : Inode) (t : Tables) (i : Info) (flags : Flags) : Status × Tables :=
  let missing := (t.root.get i.key).isNone && (t.extended.get i.key).isNone
  if 255 < i.key.2.length then (.erange,t)
  else if (t.root.get i.key).isNone && !inode.extended.readable disk then (.eio,t)
  else if missing && flags.replace then (.enodata,t)
  else if missing && i.value.isNone then (.ok,t)
  else if !missing && flags.create then (.eexist,t)
  else (markDirty disk (changed disk inode t i).1,(changed disk inode t i).2)

theorem isSome_of_not_isNone {o : Option α} (some : ¬o.isNone = true) : o.isSome = true := by
  cases o with
  | none => exact absurd rfl some
  | some a => rfl

section Both
variable {inode : Inode} {disk : Disk} {t : Tables} {key : Key}

theorem reply_stored (sane : disk.Sane) (ok : inode.extended.reply disk = .ok) : inode.extended.stored disk = true := by
  rw [Extended.reply] at ok
  rw [Extended.stored]
  split at ok
  · rename_i linked
    rw [if_pos linked]
    cases written : disk.written with
    | true => rfl
    | false =>
      rw [if_pos (sane.reported written)] at ok
      cases ok
  · rename_i unlinked
    rw [if_neg unlinked]
    split at ok
    · cases ok
    · rename_i created
      simpa using created

/-- The second search of the extended inode, when the first one was spared. -/
theorem search_again (sane : disk.Sane) (holds : inode.Holds t) (searched : (t.root.get key).isNone = true →
      inode.extended.readable disk = true ∧ inode.extended.Ready disk t.extended key bs)
    (spared : (t.root.get key).isNone = false → bs = none) :
    if inode.extended.readable disk then
      ∃ s, (if inode.extended.fileAcl ≠ 0 ∧ bs.isNone then blockFind disk inode.extended key else some (.ok,bs)) = some (.ok,s) ∧
        inode.extended.Ready disk t.extended key s
    else (if inode.extended.fileAcl ≠ 0 ∧ bs.isNone then blockFind disk inode.extended key else some (.ok,bs)) = some (.eio,none) := by
  cases found : (t.root.get key).isNone with
  | true =>
    obtain ⟨readable,ready⟩ := searched found
    rw [if_pos readable]
    refine ⟨bs,if_neg ?_,ready⟩
    rintro ⟨linked,none⟩
    rw [ready.searched linked] at none
    cases none
  | false =>
    rw [spared found]
    by_cases readable : inode.extended.readable disk = true
    · rw [if_pos readable]
      obtain ⟨s,find,ready⟩ := extended_ready sane holds.extended readable key
      by_cases linked : inode.extended.fileAcl = 0
      · rw [blockFind,if_pos linked] at find
        cases find
        exact ⟨none,if_neg fun h => h.1 linked,ready⟩
      · exact ⟨s,(if_pos ⟨linked,rfl⟩).trans find,ready⟩
    · rw [if_neg readable]
      have facts : inode.extended.fileAcl ≠ 0 ∧ disk.read = false := by simpa [Extended.readable] using readable
      rw [if_pos ⟨facts.1,rfl⟩,blockFind,if_neg facts.1,facts.2]
      rfl

/-- What `r` leaves: the tables and the room of the root inode. -/
def Leaves (r : Option (Status × Inode)) (inode : Inode) (after : Status × Tables) : Prop :=
  ∃ inode', r = some (after.1,inode') ∧ inode'.Holds after.2 ∧ inode'.root.extraIsize = inode.root.extraIsize

theorem moveToBlock_spec (sane : disk.Sane) (holds : inode.Holds t) (named : Named key) (ready : inode.root.Ready t.root key is)
    (full : inode.root.fits (t.root.insert key value) = false) (searched : (t.root.get key).isNone = true →
      inode.extended.readable disk = true ∧ inode.extended.Ready disk t.extended key bs)
    (spared : (t.root.get key).isNone = false → bs = none) :
    Leaves (moveToBlock disk inode key value is bs) inode (changed disk inode t ⟨key,some value⟩) := by
  have search := search_again sane holds searched spared
  simp only [changed,full,Bool.false_eq_true,if_false]
  rw [moveToBlock]
  by_cases readable : inode.extended.readable disk = true
  · rw [if_pos readable] at search
    obtain ⟨s,find,block⟩ := search
    rw [find,Option.bind_some,if_neg (by simp),readable,Bool.not_true,if_neg (by simp)]
    cases fits : fitsBlock (t.extended.insert key value) with
    | false =>
      rw [block.refused value named fits,Bool.not_false,if_pos rfl,Option.bind_some,if_pos (.inl fun same => by cases same)]
      exact ⟨inode,rfl,holds,rfl⟩
    | true =>
      obtain ⟨ext',run,holds'⟩ := block.put value named fits
      rw [run,Bool.not_true,if_neg (by simp),Option.bind_some]
      by_cases reply : inode.extended.reply disk = .ok
      · rw [reply_stored sane reply,if_pos rfl] at holds'
        rw [if_neg (not_not.mpr reply)]
        by_cases missing : (t.root.get key).isNone = true
        · refine ⟨⟨inode.root,ext'⟩,?_,⟨?_,holds'⟩,rfl⟩
          · rw [if_pos (.inr (ready.found.trans missing))]
            simp only [reply]
          · rw [erase_of_get (Option.isNone_iff_eq_none.mp missing)]
            exact holds.root
        · obtain ⟨root',dropped,rootHolds,space⟩ := ready.drop (isSome_of_not_isNone missing)
          refine ⟨⟨root',ext'⟩,?_,⟨rootHolds,holds'⟩,space⟩
          rw [if_neg (by simpa [reply] using ready.found.trans_ne missing),dropped]
          rfl
      · rw [if_pos reply,if_pos (.inl reply)]
        exact ⟨⟨inode.root,ext'⟩,rfl,⟨holds.root,holds'⟩,rfl⟩
  · rw [if_neg readable] at search
    rw [search,Option.bind_some,if_pos (by simp),if_pos (by simpa using readable)]
    exact ⟨inode,rfl,holds,rfl⟩

theorem change_spec (sane : disk.Sane) (holds : inode.Holds t) (named : Named i.key) (ready : inode.root.Ready t.root i.key is)
    (searched : (t.root.get i.key).isNone = true →
      inode.extended.readable disk = true ∧ inode.extended.Ready disk t.extended i.key bs)
    (spared : (t.root.get i.key).isNone = false → bs = none)
    (present : i.value.isNone = true → (t.root.get i.key).isNone = true → (t.extended.get i.key).isSome = true) :
    Leaves (change disk inode i is bs) inode (changed disk inode t i) := by
  obtain ⟨key,value⟩ := i
  have block : (!absent bs) = ((t.root.get key).isNone && (t.extended.get key).isSome) := by
    cases missing : (t.root.get key).isNone with
    | true => rw [(searched missing).2.found,Bool.true_and,Option.not_isNone]
    | false =>
      rw [spared missing]
      rfl
  cases value with
  | none =>
    simp only [change,changed,block,ready.found]
    by_cases missing : (t.root.get key).isNone = true
    · have found := present rfl missing
      obtain ⟨ext',run,holds'⟩ := (searched missing).2.drop found
      simp only [missing,found,Bool.not_true,Bool.false_eq_true,if_false,Bool.and_self,if_true,run,Option.map_some]
      rw [if_neg (by simpa using missing)]
      exact ⟨⟨inode.root,ext'⟩,rfl,⟨holds.root,holds'⟩,rfl⟩
    · obtain ⟨root',dropped,rootHolds,space⟩ := ready.drop (isSome_of_not_isNone missing)
      rw [Bool.eq_false_iff.mpr missing,Bool.not_false,if_pos rfl,if_pos (isSome_of_not_isNone missing),dropped]
      exact ⟨⟨root',inode.extended⟩,rfl,⟨rootHolds,holds.extended⟩,space⟩
  | some v =>
    cases fits : inode.root.fits (t.root.insert key v) with
    | true =>
      obtain ⟨root',run,rootHolds,space⟩ := ready.put v named fits
      simp only [change,changed,run,fits,block,Option.bind_some,true_and,if_true]
      by_cases elsewhere : ((t.root.get key).isNone && (t.extended.get key).isSome) = true
      · rw [if_pos elsewhere,if_pos elsewhere]
        obtain ⟨missing,found⟩ := Bool.and_eq_true_iff.mp elsewhere
        obtain ⟨ext',dropped,holds'⟩ := (searched missing).2.drop found
        rw [dropped]
        exact ⟨⟨root',ext'⟩,rfl,⟨rootHolds,holds'⟩,space⟩
      · rw [if_neg elsewhere,if_neg elsewhere,if_neg fun same => by cases same]
        exact ⟨⟨root',inode.extended⟩,rfl,⟨rootHolds,holds.extended⟩,space⟩
    | false =>
      simp only [change,ready.refused v named fits,Option.bind_some]
      rw [if_neg (by rintro ⟨same,_⟩; cases same),if_pos trivial]
      exact moveToBlock_spec sane holds named ready fits searched spared

theorem setHandle_spec (sane : disk.Sane) (holds : inode.Holds t) (index : 0 < i.key.1) (short : i.key.1 < 2 ^ 8) (flags : Flags) :
    Leaves (setHandle disk inode i flags) inode (settled disk inode t i flags) := by
  rw [setHandle,settled]
  by_cases long : 255 < i.key.2.length
  · rw [if_pos long,if_pos long]
    exact ⟨inode,rfl,holds,rfl⟩
  have named : Named i.key := ⟨index,short,by omega⟩
  obtain ⟨is,find,ready⟩ := root_ready holds.root i.key
  rw [if_neg long,if_neg long,find,Option.bind_some,if_neg (by simp)]
  simp only [ready.found]
  by_cases unread : ((t.root.get i.key).isNone && !inode.extended.readable disk) = true
  · obtain ⟨missing,bad⟩ := Bool.and_eq_true_iff.mp unread
    have facts : inode.extended.fileAcl ≠ 0 ∧ disk.read = false := by simpa [Extended.readable] using bad
    rw [if_pos unread,if_pos missing,blockFind,if_neg facts.1,facts.2]
    exact ⟨inode,rfl,holds,rfl⟩
  rw [if_neg unread]
  obtain ⟨bs,second,searched,spared⟩ : ∃ bs,
      (if (t.root.get i.key).isNone = true then blockFind disk inode.extended i.key else some (.ok,none)) = some (.ok,bs) ∧
      ((t.root.get i.key).isNone = true → inode.extended.readable disk = true ∧ inode.extended.Ready disk t.extended i.key bs) ∧
      ((t.root.get i.key).isNone = false → bs = none) := by
    cases missing : (t.root.get i.key).isNone with
    | true =>
      have readable : inode.extended.readable disk = true := by simpa [missing] using unread
      obtain ⟨bs,run,block⟩ := extended_ready sane holds.extended readable i.key
      exact ⟨bs,run,fun _ => ⟨readable,block⟩,fun other => by cases other⟩
    | false => exact ⟨none,rfl,(fun other => by cases other),fun _ => rfl⟩
  have both : ((t.root.get i.key).isNone && absent bs) = ((t.root.get i.key).isNone && (t.extended.get i.key).isNone) := by
    cases missing : (t.root.get i.key).isNone with
    | true => rw [(searched missing).2.found]
    | false => rfl
  rw [second,Option.bind_some,if_neg (by simp)]
  simp only [both]
  by_cases replaced : ((t.root.get i.key).isNone && (t.extended.get i.key).isNone && flags.replace) = true
  · rw [if_pos replaced,if_pos replaced]
    exact ⟨inode,rfl,holds,rfl⟩
  rw [if_neg replaced,if_neg replaced]
  by_cases nothing : ((t.root.get i.key).isNone && (t.extended.get i.key).isNone && i.value.isNone) = true
  · rw [if_pos nothing,if_pos nothing]
    exact ⟨inode,rfl,holds,rfl⟩
  rw [if_neg nothing,if_neg nothing]
  by_cases exists' : (!((t.root.get i.key).isNone && (t.extended.get i.key).isNone) && flags.create) = true
  · rw [if_pos exists',if_pos exists']
    exact ⟨inode,rfl,holds,rfl⟩
  rw [if_neg exists',if_neg exists']
  obtain ⟨inode',run,holds',space⟩ := change_spec sane holds named ready searched spared fun removed missing => by
    apply isSome_of_not_isNone
    simpa [removed,missing] using nothing
  exact ⟨inode',by rw [run]; rfl,holds',space⟩

/-- A change of an attribute in the bytes of the two inodes is a change of two tables. -/
theorem setHandle_refines (sane : disk.Sane) (holds : inode.Holds t) (index : 0 < i.key.1) (short : i.key.1 < 2 ^ 8) (flags : Flags) :
    ∃ inode', setHandle disk inode i flags = some ((settled disk inode t i flags).1,inode') ∧
      inode'.Holds (settled disk inode t i flags).2 ∧ inode'.root.extraIsize = inode.root.extraIsize :=
  setHandle_spec sane holds index short flags

end Both

/-- A new inode, with the attributes behind `extraIsize` bytes. -/
def fresh (extraIsize : Nat) : Inode := ⟨⟨extraIsize,false,fun _ => 0⟩,⟨0,fun _ => 0⟩⟩

theorem fresh_holds (room : extraIsize ≤ 504) : (fresh extraIsize).Holds ⟨KeyTable.Table.empty,KeyTable.Table.empty⟩ where
  root := ⟨fun _ => ⟨_,stores_empty (fun _ _ => rfl) (by rw [Root.fin]; change 0 + 4 ≤ 512 - extraIsize - 4; omega)⟩,fun _ => rfl,fun _ => rfl⟩
  extended := ⟨fun linked => absurd rfl linked,fun _ => rfl⟩

/-- A disk without failures. -/
def goodDisk : Disk := ⟨true,true,0,(0,1),0⟩

theorem goodDisk_sane : goodDisk.Sane := ⟨fun failed => absurd failed (by decide),fun _ => by decide⟩

/-- An inode with one attribute, and room for 38 bytes of them. -/
theorem one_attribute : ∃ inode, Inode.Holds inode ⟨KeyTable.Table.empty.insert (1,[97]) [1],KeyTable.Table.empty⟩ ∧
    inode.root.extraIsize = 470 := by
  obtain ⟨inode,_,holds,space⟩ := setHandle_spec (i := ⟨(1,[97]),some [1]⟩) goodDisk_sane (fresh_holds (by decide : 470 ≤ 504))
    (by decide) (by decide) ⟨false,false⟩
  rw [show settled goodDisk (fresh 470) ⟨KeyTable.Table.empty,KeyTable.Table.empty⟩ ⟨(1,[97]),some [1]⟩ ⟨false,false⟩ =
    (.ok,⟨KeyTable.Table.empty.insert (1,[97]) [1],KeyTable.Table.empty⟩) from rfl] at holds
  exact ⟨inode,holds,space⟩

theorem fits_one {inode : Inode} (space : inode.root.extraIsize = 470) (t : Attrs) : inode.root.fits t = decide (Room 0 38 t.cells) := by
  rw [Root.fits,Root.fin,space]
  rfl

/-- A second attribute that does not fit in the inode is put in the block. -/
theorem setHandle_refines_moved : ∃ inode inode', Inode.Holds inode ⟨KeyTable.Table.empty.insert (1,[97]) [1],KeyTable.Table.empty⟩ ∧
    setHandle goodDisk inode ⟨(1,[98]),some (List.replicate 20 7)⟩ ⟨true,false⟩ = some (.ok,inode') ∧
    Inode.Holds inode' ⟨KeyTable.Table.empty.insert (1,[97]) [1],KeyTable.Table.empty.insert (1,[98]) (List.replicate 20 7)⟩ := by
  obtain ⟨inode,holds,space⟩ := one_attribute
  obtain ⟨inode',run,holds',_⟩ := setHandle_refines (i := ⟨(1,[98]),some (List.replicate 20 7)⟩) goodDisk_sane holds
    (by decide) (by decide) ⟨true,false⟩
  have full : inode.root.fits ((KeyTable.Table.empty.insert (1,[97]) [1]).insert (1,[98]) (List.replicate 20 7)) = false := by
    rw [fits_one space]
    decide
  have reply : inode.extended.reply goodDisk = .ok := by
    rw [Extended.reply]
    split <;> rfl
  have readable : inode.extended.readable goodDisk = true := Bool.or_true _
  have done : settled goodDisk inode ⟨KeyTable.Table.empty.insert (1,[97]) [1],KeyTable.Table.empty⟩
      ⟨(1,[98]),some (List.replicate 20 7)⟩ ⟨true,false⟩ =
      (.ok,⟨KeyTable.Table.empty.insert (1,[97]) [1],KeyTable.Table.empty.insert (1,[98]) (List.replicate 20 7)⟩) := by
    simp only [settled,changed,full,reply,readable]
    rfl
  rw [done] at run holds'
  exact ⟨inode,inode',holds,run,holds'⟩

end Rozofs.Xattr
