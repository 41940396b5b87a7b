import Rozofs.XattrUpdate

/-! Runs of requests for extended attributes: the inode is a map from names to values while the disk
answers, and a request for one name leaves the others alone even when it does not. -/
namespace Rozofs.Xattr
open KeyTable

inductive Request where
  | set (i : Info) (flags : Flags)
  | get (key : Key) (buffer : Option Nat)

inductive Reply where
  | status (s : Status)
  | value (r : Except Status (Nat × List UInt8))

def Request.key : Request → Key
  | .set i _ => i.key
  | .get key _ => key

def serve (disk : Disk) (inode : Inode) : Request → Option (Reply × Inode)
  | .set i flags => (setHandle disk inode i flags).map fun r => (.status r.1,r.2)
  | .get key buffer => (xattrGet disk inode key buffer).map fun r => (.value r,inode)

def serveAll (inode : Inode) : List (Disk × Request) → Option (List Reply × Inode)
  | [] => some ([],inode)
  | q :: rest => (serve q.1 inode q.2).bind fun r => (serveAll r.2 rest).map fun s => (r.1 :: s.1,s.2)

/-! ### Other attributes -/

section Frame
variable {inode : Inode} {disk : Disk} {t : Tables} {key : Key} {i : Info}

/-- One name has the same values in both inodes. -/
def SameAt (key : Key) (t u : Tables) : Prop := u.root.get key = t.root.get key ∧ u.extended.get key = t.extended.get key

theorem changed_other (other : key ≠ i.key) : SameAt key t (changed disk inode t i).2 := by
  have erased (u : Attrs) : (u.erase i.key).get key = u.get key := get_erase_other u other
  have inserted (u : Attrs) (v : List UInt8) : (u.insert i.key v).get key = u.get key := get_insert_other u v other
  have either (b : Bool) (u w : Attrs) (same : u.get key = w.get key) : (if b then u else w).get key = w.get key := by
    cases b with
    | false => rfl
    | true => exact same
  rw [changed]
  cases i.value with
  | none =>
    simp only
    split
    · exact ⟨erased _,rfl⟩
    · exact ⟨rfl,either _ _ _ (erased _)⟩
  | some v =>
    simp only
    split
    · split
      · exact ⟨inserted _ v,either _ _ _ (erased _)⟩
      · exact ⟨inserted _ v,rfl⟩
    · split
      · exact ⟨rfl,rfl⟩
      · split
        · exact ⟨rfl,rfl⟩
        · split
          · exact ⟨rfl,either _ _ _ (inserted _ v)⟩
          · exact ⟨erased _,inserted _ v⟩

theorem settled_other (other : key ≠ i.key) (flags : Flags) : SameAt key t (settled disk inode t i flags).2 := by
  rw [settled]
  split
  · exact ⟨rfl,rfl⟩
  · split
    · exact ⟨rfl,rfl⟩
    · split
      · exact ⟨rfl,rfl⟩
      · split
        · exact ⟨rfl,rfl⟩
        · split
          · exact ⟨rfl,rfl⟩
          · exact changed_other other

/-- The names that the handlers of the prefixes pass on. -/
structure Request.Indexed (q : Request) : Prop where
  index : 0 < q.key.1
  short : q.key.1 < 2 ^ 8

theorem serve_total (sane : disk.Sane) (holds : inode.Holds t) (indexed : Request.Indexed q) :
    ∃ r inode' t', serve disk inode q = some (r,inode') ∧ inode'.Holds t' ∧ ∀ key, key ≠ q.key → SameAt key t t' := by
  cases q with
  | set i flags =>
    obtain ⟨inode',run,holds',_⟩ := setHandle_spec (i := i) sane holds indexed.index indexed.short flags
    exact ⟨_,inode',_,by rw [serve,run,Option.map_some],holds',fun key other => settled_other other flags⟩
  | get key buffer => exact ⟨_,inode,t,by rw [serve,xattrGet_spec holds,Option.map_some],holds,fun _ _ => ⟨rfl,rfl⟩⟩

theorem serveAll_total (requests : List (Disk × Request)) : ∀ {inode t}, Inode.Holds inode t →
    (∀ q ∈ requests, q.1.Sane ∧ q.2.Indexed) → ∃ replies inode' t', serveAll inode requests = some (replies,inode') ∧
      inode'.Holds t' ∧ ∀ key, (∀ q ∈ requests, key ≠ q.2.key) → SameAt key t t' := by
  induction requests with
  | nil =>
    intro inode t holds _
    exact ⟨[],inode,t,rfl,holds,fun _ _ => ⟨rfl,rfl⟩⟩
  | cons q rest ih =>
    intro inode t holds all
    obtain ⟨sane,indexed⟩ := all q List.mem_cons_self
    obtain ⟨r,inode₁,t₁,run,holds₁,same₁⟩ := serve_total sane holds indexed
    obtain ⟨replies,inode₂,t₂,runs,holds₂,same₂⟩ := ih holds₁ fun p member => all p (List.mem_cons_of_mem _ member)
    refine ⟨r :: replies,inode₂,t₂,by rw [serveAll,run,Option.bind_some,runs,Option.map_some],holds₂,fun key others => ?_⟩
    obtain ⟨root,extended⟩ := same₁ key (others q List.mem_cons_self)
    obtain ⟨root',extended'⟩ := same₂ key fun p member => others p (List.mem_cons_of_mem _ member)
    exact ⟨root'.trans root,extended'.trans extended⟩

/-- Requests for other names, failed ones among them, do not change what is read of an attribute. -/
theorem others_keep (holds : inode.Holds t) (requests : List (Disk × Request)) (all : ∀ q ∈ requests, q.1.Sane ∧ q.2.Indexed)
    (others : ∀ q ∈ requests, key ≠ q.2.key) : ∃ replies inode', serveAll inode requests = some (replies,inode') ∧
      ∀ disk buffer, xattrGet disk inode' key buffer = xattrGet disk inode key buffer := by
  obtain ⟨replies,inode',t',run,holds',same⟩ := serveAll_total requests holds all
  obtain ⟨root,extended⟩ := same key others
  refine ⟨replies,inode',run,fun disk buffer => ?_⟩
  rw [xattrGet_spec holds,xattrGet_spec holds',root,extended]

end Frame

/-- A disk whose block can be written neither when there is one nor when there is none. -/
def failingDisk : Disk := ⟨true,false,5,(5,0),5⟩

theorem failingDisk_sane : failingDisk.Sane := ⟨fun _ => by decide,fun created => absurd created (by decide)⟩

/-- An attribute is read after two others were set, and one of them with a failure. -/
theorem others_keep_stored : ∃ inode replies inode', serveAll inode [(failingDisk,.set ⟨(1,[98]),some (List.replicate 20 7)⟩ ⟨false,false⟩),
      (goodDisk,.set ⟨(1,[99]),some (List.replicate 20 8)⟩ ⟨false,false⟩)] = some (replies,inode') ∧
    ∀ disk buffer, xattrGet disk inode' (1,[97]) buffer = some (answer (some [1]) buffer) := by
  obtain ⟨inode,holds,_⟩ := one_attribute
  have others : ∀ q ∈ [(failingDisk,Request.set ⟨(1,[98]),some (List.replicate 20 7)⟩ ⟨false,false⟩),
      (goodDisk,.set ⟨(1,[99]),some (List.replicate 20 8)⟩ ⟨false,false⟩)], ((1,[97]) : Key) ≠ q.2.key := by
    intro q member
    simp only [List.mem_cons,List.not_mem_nil,or_false] at member
    rcases member with rfl | rfl <;> decide
  obtain ⟨replies,inode',run,same⟩ := others_keep holds _
    (by
      intro q member
      simp only [List.mem_cons,List.not_mem_nil,or_false] at member
      rcases member with rfl | rfl
      · exact ⟨failingDisk_sane,⟨by decide,by decide⟩⟩
      · exact ⟨goodDisk_sane,⟨by decide,by decide⟩⟩) others
  refine ⟨inode,replies,inode',run,fun disk buffer => ?_⟩
  rw [same,xattrGet_spec holds]
  rfl

/-! ### A disk that answers -/

/-- Nothing fails, and `errno` was cleared before the block is written. -/
structure Disk.Good (disk : Disk) : Prop where
  read : disk.read = true
  written : disk.written = true
  errno : disk.errno = 0
  created : disk.create.1 = 0
  named : disk.create.2 ≠ 0
  marked : disk.mark = 0

theorem goodDisk_good : goodDisk.Good := ⟨rfl,rfl,rfl,rfl,by decide,rfl⟩

theorem Disk.Good.sane {disk : Disk} (good : disk.Good) : disk.Sane :=
  ⟨fun failed => absurd (failed.symm.trans good.written) Bool.false_ne_true,fun _ => good.named⟩

/-- No name is in both inodes. -/
def Tables.Disjoint (t : Tables) : Prop := ∀ key, t.root.get key = none ∨ t.extended.get key = none

abbrev Attributes := Key → Option (List UInt8)

def put (m : Attributes) (key : Key) (value : Option (List UInt8)) : Attributes := fun k => if k = key then value else m k

/-- The answer to a change, for attributes in a map; `full` is a value that fits in neither inode. -/
def expected (m : Attributes) (i : Info) (flags : Flags) (full : Bool) : Status :=
  if 255 < i.key.2.length then .erange
  else if (m i.key).isNone && flags.replace then .enodata
  else if (m i.key).isNone && i.value.isNone then .ok
  else if (m i.key).isSome && flags.create then .eexist
  else if full then .enospc
  else .ok

def Inode.full (inode : Inode) (t : Tables) (i : Info) : Bool :=
  match i.value with
  | none => false
  | some value => !inode.root.fits (t.root.insert i.key value) && !fitsBlock (t.extended.insert i.key value)

section Map
variable {inode : Inode} {disk : Disk} {t : Tables} {key : Key} {i : Info}

theorem good_reply (good : disk.Good) (ext : Extended) : ext.reply disk = .ok := by
  rw [Extended.reply,good.errno,good.created]
  split <;> rfl

theorem good_stored (good : disk.Good) (ext : Extended) : ext.stored disk = true := by
  rw [Extended.stored,good.written,good.created]
  split <;> rfl

theorem good_readable (good : disk.Good) (ext : Extended) : ext.readable disk = true := by
  rw [Extended.readable,good.read,Bool.or_true]

/-- One name changes, and is in one of the inodes at most. -/
theorem put_spec {u : Tables} (disjoint : t.Disjoint) (others : ∀ k, k ≠ key → SameAt k t u)
    (here : u.root.get key = value ∧ u.extended.get key = none ∨ u.root.get key = none ∧ u.extended.get key = value) :
    u.Disjoint ∧ u.get = put t.get key value := by
  constructor
  · intro k
    by_cases same : k = key
    · subst same
      exact here.symm.imp And.left And.right
    · obtain ⟨root,extended⟩ := others k same
      rw [root,extended]
      exact disjoint k
  · funext k
    rw [put]
    split
    · rename_i same
      rw [same,Tables.get]
      rcases here with ⟨root,extended⟩ | ⟨root,extended⟩ <;> rw [root,extended]
      · exact Option.or_none
      · rfl
    · rename_i other
      obtain ⟨root,extended⟩ := others k other
      rw [Tables.get,root,extended,Tables.get]

theorem changed_full (good : disk.Good) (full : inode.full t i = true) : changed disk inode t i = (.enospc,t) := by
  rw [Inode.full] at full
  rw [changed]
  cases value : i.value with
  | none =>
    rw [value] at full
    cases full
  | some v =>
    rw [value] at full
    obtain ⟨root,block⟩ := Bool.and_eq_true_iff.mp full
    simp only [Bool.not_eq_true'] at root block
    simp only [root,block,good_readable good,Bool.not_true,Bool.not_false,Bool.false_eq_true,if_false,if_true]

theorem changed_placed (good : disk.Good) (disjoint : t.Disjoint) (room : inode.full t i = false) :
    (changed disk inode t i).1 = .ok ∧ (changed disk inode t i).2.Disjoint ∧
      (changed disk inode t i).2.get = put t.get i.key i.value := by
  have reply := good_reply good inode.extended
  have stored := good_stored good inode.extended
  have here := disjoint i.key
  have placed : (changed disk inode t i).1 = .ok ∧
      ((changed disk inode t i).2.root.get i.key = i.value ∧ (changed disk inode t i).2.extended.get i.key = none ∨
        (changed disk inode t i).2.root.get i.key = none ∧ (changed disk inode t i).2.extended.get i.key = i.value) := by
    rw [Inode.full] at room
    rw [changed]
    cases value : i.value with
    | none =>
      simp only [reply,stored,if_true]
      by_cases found : (t.root.get i.key).isSome = true
      · rw [if_pos found]
        exact ⟨rfl,.inl ⟨get_erase_self _ _,here.resolve_left (Option.isSome_iff_ne_none.mp found)⟩⟩
      · rw [if_neg found]
        exact ⟨rfl,.inl ⟨by simpa using found,get_erase_self _ _⟩⟩
    | some v =>
      rw [value] at room
      simp only [reply,stored,if_true,good_readable good,Bool.not_true,Bool.false_eq_true,if_false]
      by_cases fits : inode.root.fits (t.root.insert i.key v) = true
      · rw [if_pos fits]
        by_cases elsewhere : ((t.root.get i.key).isNone && (t.extended.get i.key).isSome) = true
        · rw [if_pos elsewhere]
          exact ⟨rfl,.inl ⟨get_insert_self _ _ _,get_erase_self _ _⟩⟩
        · rw [if_neg elsewhere]
          refine ⟨rfl,.inl ⟨get_insert_self _ _ _,?_⟩⟩
          cases here with
          | inl missing => simpa [missing] using elsewhere
          | inr absent => exact absent
      · have block : fitsBlock (t.extended.insert i.key v) = true := by simpa [fits] using room
        rw [if_neg fits,block,if_neg (by simp),if_neg (by simp)]
        exact ⟨rfl,.inr ⟨get_erase_self _ _,get_insert_self _ _ _⟩⟩
  exact ⟨placed.1,put_spec disjoint (fun k other => changed_other other) placed.2⟩

theorem get_isNone (t : Tables) (key : Key) : (t.get key).isNone = ((t.root.get key).isNone && (t.extended.get key).isNone) := by
  rw [Tables.get]
  cases t.root.get key <;> rfl

theorem settled_good (good : disk.Good) (disjoint : t.Disjoint) (flags : Flags) :
    (settled disk inode t i flags).1 = expected t.get i flags (inode.full t i) ∧ (settled disk inode t i flags).2.Disjoint ∧
      (settled disk inode t i flags).2.get =
        if expected t.get i flags (inode.full t i) = .ok then put t.get i.key i.value else t.get := by
  simp only [settled,expected,good_readable good,Bool.not_true,Bool.and_false,Bool.false_eq_true,if_false]
  rw [← get_isNone,Option.not_isNone]
  split
  · exact ⟨rfl,disjoint,by rw [if_neg fun same => by cases same]⟩
  · split
    · exact ⟨rfl,disjoint,by rw [if_neg fun same => by cases same]⟩
    · split
      · rename_i nothing
        obtain ⟨missing,removed⟩ := Bool.and_eq_true_iff.mp nothing
        refine ⟨rfl,disjoint,funext fun k => ?_⟩
        rw [if_pos rfl,put,Option.isNone_iff_eq_none.mp removed]
        split
        · rename_i same
          rw [same,Option.isNone_iff_eq_none.mp missing]
        · rfl
      · split
        · exact ⟨rfl,disjoint,by rw [if_neg fun same => by cases same]⟩
        · cases full : inode.full t i with
          | true =>
            rw [changed_full good full]
            exact ⟨rfl,disjoint,by rw [if_pos rfl,if_neg fun same => by cases same]⟩
          | false =>
            obtain ⟨ok,disjoint',map⟩ := changed_placed good disjoint full
            refine ⟨?_,disjoint',map.trans ?_⟩
            · rw [ok,markDirty,good.marked,if_neg (by simp),if_neg (by simp)]
            · simp only [Bool.false_eq_true,if_false,if_true]

/-- What a request may be answered, for attributes in a map. -/
def Allowed (m : Attributes) : Request → Reply → Prop
  | .set i flags,.status s => ∃ full, s = expected m i flags full ∧ (full = true → i.value.isSome)
  | .get key buffer,.value r => r = answer (m key) buffer
  | _,_ => False

def after (m : Attributes) : Request → Reply → Attributes
  | .set i _,.status .ok => put m i.key i.value
  | _,_ => m

theorem after_set (m : Attributes) (i : Info) (flags : Flags) (s : Status) :
    after m (.set i flags) (.status s) = if s = .ok then put m i.key i.value else m := by cases s <;> rfl

def Conforms (m : Attributes) : List Request → List Reply → Prop
  | [],[] => True
  | q :: qs,r :: rs => Allowed m q r ∧ Conforms (after m q r) qs rs
  | _,_ => False

theorem full_some (full : inode.full t i = true) : i.value.isSome = true := by
  rw [Inode.full] at full
  cases value : i.value with
  | none =>
    rw [value] at full
    cases full
  | some v => rfl

theorem serve_map (good : disk.Good) (holds : inode.Holds t) (disjoint : t.Disjoint) (indexed : Request.Indexed q) :
    ∃ r inode' t', serve disk inode q = some (r,inode') ∧ inode'.Holds t' ∧ t'.Disjoint ∧ Allowed t.get q r ∧ t'.get = after t.get q r := by
  cases q with
  | set i flags =>
    obtain ⟨inode',run,holds',_⟩ := setHandle_spec (i := i) good.sane holds indexed.index indexed.short flags
    obtain ⟨status,disjoint',map⟩ := settled_good (i := i) good disjoint flags
    refine ⟨.status _,inode',_,by rw [serve,run,Option.map_some],holds',disjoint',⟨_,status,full_some⟩,map.trans ?_⟩
    rw [after_set,status]
  | get key buffer =>
    refine ⟨_,inode,t,by rw [serve,xattrGet_spec holds,Option.map_some],holds,disjoint,?_,rfl⟩
    rw [Allowed,good.read]
    rfl

/-- While the disk answers, an inode is a map from names to values. -/
theorem runs_as_map (requests : List (Disk × Request)) : ∀ {inode t}, Inode.Holds inode t → Tables.Disjoint t →
    (∀ q ∈ requests, q.1.Good ∧ q.2.Indexed) → ∃ replies inode', serveAll inode requests = some (replies,inode') ∧
      Conforms t.get (requests.map Prod.snd) replies := by
  induction requests with
  | nil =>
    intro inode t _ _ _
    exact ⟨[],inode,rfl,trivial⟩
  | cons q rest ih =>
    intro inode t holds disjoint all
    obtain ⟨good,indexed⟩ := all q List.mem_cons_self
    obtain ⟨r,inode₁,t₁,run,holds₁,disjoint₁,allowed,map⟩ := serve_map good holds disjoint indexed
    obtain ⟨replies,inode₂,runs,conforms⟩ := ih holds₁ disjoint₁ fun p member => all p (List.mem_cons_of_mem _ member)
    exact ⟨r :: replies,inode₂,by rw [serveAll,run,Option.bind_some,runs,Option.map_some],allowed,map ▸ conforms⟩

end Map

theorem runs_as_map_fresh : ∃ replies inode', serveAll (fresh 64)
      [(goodDisk,.set ⟨(1,[97]),some [1]⟩ ⟨true,false⟩),(goodDisk,.get (1,[97]) none),(goodDisk,.set ⟨(1,[97]),none⟩ ⟨false,true⟩)] =
        some (replies,inode') ∧
      Conforms (Tables.get ⟨KeyTable.Table.empty,KeyTable.Table.empty⟩)
        [.set ⟨(1,[97]),some [1]⟩ ⟨true,false⟩,.get (1,[97]) none,.set ⟨(1,[97]),none⟩ ⟨false,true⟩] replies := by
  apply runs_as_map _ (fresh_holds (by decide)) fun _ => .inl rfl
  intro q member
  simp only [List.mem_cons,List.not_mem_nil,or_false] at member
  rcases member with rfl | rfl | rfl <;> exact ⟨goodDisk_good,⟨by decide,by decide⟩⟩

/-! ### The error that is always returned -/

section Stale
variable {inode : Inode} {disk good : Disk} {t : Tables} {key : Key} {old value : List UInt8}

/-- An attribute that outgrows the root inode, when there is an extended one already. -/
structure Outgrown (inode : Inode) (t : Tables) (key : Key) (old value : List UInt8) : Prop where
  stored : t.root.get key = some old
  linked : inode.extended.fileAcl ≠ 0
  full : inode.root.fits (t.root.insert key value) = false
  room : fitsBlock (t.extended.insert key value) = true

theorem settled_stale (outgrown : Outgrown inode t key old value) (named : Named key) (read : disk.read = true)
    (written : disk.written = true) (stale : disk.errno ≠ 0) (replace : Bool) :
    settled disk inode t ⟨key,some value⟩ ⟨false,replace⟩ = (.failed disk.errno,⟨t.root,t.extended.insert key value⟩) := by
  have short : ¬255 < key.2.length := by
    have := named.name
    omega
  have reply : inode.extended.reply disk = .failed disk.errno := by rw [Extended.reply,if_pos outgrown.linked,if_pos stale]
  have stored : inode.extended.stored disk = true := by rw [Extended.stored,if_pos outgrown.linked,written]
  have readable : inode.extended.readable disk = true := by rw [Extended.readable,read,Bool.or_true]
  have moved : changed disk inode t ⟨key,some value⟩ = (.failed disk.errno,⟨t.root,t.extended.insert key value⟩) := by
    simp only [changed,outgrown.full,outgrown.room,reply,stored,readable,Bool.not_true,Bool.false_eq_true,if_false,if_true]
    rw [if_pos fun same => by cases same]
  simp only [settled,outgrown.stored,short,moved,Option.isNone_some,Bool.false_and,Bool.and_false,Bool.false_eq_true,if_false]
  rw [markDirty,if_neg (by rintro ⟨same,_⟩; cases same)]

/-- A value that is moved to a block that exists is written there, reported as failed because of an old `errno`,
and left in the root inode; once that one is removed, the value that failed is read. -/
theorem failed_value_returns (holds : inode.Holds t) (outgrown : Outgrown inode t key old value) (named : Named key)
    (sane : disk.Sane) (read : disk.read = true) (written : disk.written = true) (stale : disk.errno ≠ 0) (replace : Bool)
    (answers : good.Good) :
    ∃ kept removed, setHandle disk inode ⟨key,some value⟩ ⟨false,replace⟩ = some (.failed disk.errno,kept) ∧
      (∀ d buffer, xattrGet d kept key buffer = some (answer (some old) buffer)) ∧
      setHandle good kept ⟨key,none⟩ ⟨false,true⟩ = some (.ok,removed) ∧
      ∀ d buffer, d.read = true → xattrGet d removed key buffer = some (answer (some value) buffer) := by
  obtain ⟨kept,run,holds₁,_⟩ := setHandle_spec (i := ⟨key,some value⟩) sane holds named.index named.short ⟨false,replace⟩
  rw [settled_stale outgrown named read written stale] at run holds₁
  have short : ¬255 < key.2.length := by
    have := named.name
    omega
  have dropped : settled good kept ⟨t.root,t.extended.insert key value⟩ ⟨key,none⟩ ⟨false,true⟩ =
      (.ok,⟨t.root.erase key,t.extended.insert key value⟩) := by
    simp only [settled,changed,outgrown.stored,short,Option.isNone_some,Option.isSome_some,Bool.false_and,Bool.and_false,
      Bool.false_eq_true,if_false,if_true]
    rw [markDirty,answers.marked,if_neg (by simp)]
  obtain ⟨removed,run',holds₂,_⟩ := setHandle_spec (i := ⟨key,none⟩) answers.sane holds₁ named.index named.short ⟨false,true⟩
  rw [dropped] at run' holds₂
  refine ⟨kept,removed,run,fun d buffer => ?_,run',fun d buffer read => ?_⟩
  · rw [xattrGet_spec holds₁]
    simp only [outgrown.stored,Option.some_or]
  · rw [xattrGet_spec holds₂]
    simp only [get_erase_self,get_insert_self,read,if_true,Option.none_or]

theorem settled_moved (good : disk.Good) (named : Named key) (missing : t.root.get key = none)
    (full : inode.root.fits (t.root.insert key value) = false) (room : fitsBlock (t.extended.insert key value) = true) :
    settled disk inode t ⟨key,some value⟩ ⟨false,false⟩ = (.ok,⟨t.root,t.extended.insert key value⟩) := by
  have short : ¬255 < key.2.length := by
    have := named.name
    omega
  simp only [settled,changed,full,room,short,good_reply good,good_readable good,erase_of_get missing,Option.isNone_some,
    Bool.and_false,Bool.not_true,Bool.false_eq_true,if_false]
  rw [if_neg (by simp),markDirty,good.marked,if_neg (by simp)]

/-- Such an inode: one byte in the root inode, and another attribute that did not fit there. -/
theorem outgrown_reached : ∃ inode t, Inode.Holds inode t ∧ Outgrown inode t (1,[97]) [1] (List.replicate 20 7) := by
  obtain ⟨inode₁,holds₁,space₁⟩ := one_attribute
  obtain ⟨inode₂,_,holds₂,space₂⟩ := setHandle_spec (i := ⟨(1,[98]),some (List.replicate 20 7)⟩) goodDisk_good.sane
    holds₁ (by decide) (by decide) ⟨false,false⟩
  rw [settled_moved goodDisk_good ⟨by decide,by decide,by decide⟩ rfl (by rw [fits_one space₁]; decide) (by decide)] at holds₂
  refine ⟨inode₂,_,holds₂,rfl,fun unlinked => ?_,?_,by decide⟩
  · cases holds₂.extended.unlinked unlinked
  · rw [fits_one (space₂.trans space₁)]
    decide

theorem failed_value_returns_byte : ∃ inode kept removed,
    setHandle ⟨true,true,61,(0,1),0⟩ inode ⟨(1,[97]),some (List.replicate 20 7)⟩ ⟨false,false⟩ = some (.failed 61,kept) ∧
      (∀ d buffer, xattrGet d kept (1,[97]) buffer = some (answer (some [1]) buffer)) ∧
      setHandle goodDisk kept ⟨(1,[97]),none⟩ ⟨false,true⟩ = some (.ok,removed) ∧
      ∀ d buffer, d.read = true → xattrGet d removed (1,[97]) buffer = some (answer (some (List.replicate 20 7)) buffer) := by
  obtain ⟨inode,t,holds,outgrown⟩ := outgrown_reached
  exact ⟨inode,failed_value_returns holds outgrown ⟨by decide,by decide,by decide⟩ ⟨fun failed => absurd failed (by decide),fun _ => by decide⟩ rfl rfl (by decide) false goodDisk_good⟩

end Stale

end Rozofs.Xattr
