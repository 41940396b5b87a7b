import Mathlib.Data.List.Basic
import Rozofs.Machine
import Rozofs.GeoReplication

/-! Geo-replication loses no update: a range that is inserted reaches the synchronisation files that are
available to the remote site. -/
namespace Rozofs.GeoReplication
open Function (update)

section Disk
variable {φ : Type} {env : Env} {forced : Bool} {base st st' st'' : State φ} {p r : FidEntry φ}

def records (st : State φ) (idx : Nat) : List (FidEntry φ) := ((st.dir.file idx).map SyncFile.records).getD []

/-- A file is available to the remote site, or will be so with the next index. -/
def OnDisk (st : State φ) (idx : Nat) : Prop := idx < st.lastIndex ∨ idx = st.lastIndex ∧ st.fileIdxWrPending = true

/-- The files of a state are there in a later one, with more records at their ends. -/
structure Later (st st' : State φ) : Prop where
  records : ∀ idx, records st idx <+: records st' idx
  onDisk : ∀ idx, OnDisk st idx → OnDisk st' idx

/-- A record that has been written after a state. -/
def Stored (base st : State φ) (r : FidEntry φ) : Prop :=
  ∃ idx, OnDisk st idx ∧ r ∈ (records st idx).drop (records base idx).length

theorem Later.refl (st : State φ) : Later st st := ⟨fun _ => List.prefix_refl _,fun _ onDisk => onDisk⟩

theorem Later.trans (first : Later st st') (second : Later st' st'') : Later st st'' where
  records idx := (first.records idx).trans (second.records idx)
  onDisk idx onDisk := second.onDisk idx (first.onDisk idx onDisk)

theorem Stored.later (stored : Stored base st r) (before : Later base st) (later : Later st st') : Stored base st' r := by
  obtain ⟨idx,onDisk,mem⟩ := stored
  refine ⟨idx,later.onDisk idx onDisk,?_⟩
  obtain ⟨more,same⟩ := later.records idx
  have short := (before.records idx).length_le
  rw [← same,List.drop_append_of_le_length short]
  exact List.mem_append_left _ mem

theorem Stored.earlier (stored : Stored st st' r) (before : Later base st) : Stored base st' r := by
  obtain ⟨idx,onDisk,mem⟩ := stored
  exact ⟨idx,onDisk,List.drop_subset_drop_left _ (before.records idx).length_le mem⟩

/-- The search for a file does not go back, and finds the length of the file. -/
theorem seek_spec (env : Env) (dir : Directory φ) (left idx : Nat) (enough : dir.bound ≤ idx + left) :
    idx ≤ (seek env dir left idx).1 ∧ ((seek env dir left idx).2 ≠ .failed →
      ((dir.file (seek env dir left idx).1).map SyncFile.size).getD 0 = (seek env dir left idx).2.size) := by
  induction left generalizing idx with
  | zero =>
    rw [seek]
    split
    · exact ⟨Nat.le_refl _,fun found => absurd rfl found⟩
    · rw [dir.absent idx enough]
      dsimp only
      rw [dir.absent idx enough]
      exact ⟨Nat.le_refl _,fun _ => rfl⟩
  | succ left ih =>
    rw [seek]
    split
    · exact ⟨Nat.le_refl _,fun found => absurd rfl found⟩
    · cases found : dir.file idx with
      | none =>
        dsimp only
        rw [found]
        exact ⟨Nat.le_refl _,fun _ => rfl⟩
      | some file =>
        dsimp only
        split
        · obtain ⟨later,size⟩ := ih (idx + 1) (by omega)
          exact ⟨by omega,size⟩
        · dsimp only
          rw [found]
          exact ⟨Nat.le_refl _,fun _ => rfl⟩

/-- The files have been written whole: they are empty, or have a header and records. -/
def Whole (st : State φ) : Prop := ∀ idx file, st.dir.file idx = some file → file.size = 0 ∨ Aligned file.size

/-- The writes of a flush of a table of some length put all their bytes. -/
def Writes (env : Env) (length : Nat) : Prop := geoRepFileHdrSz ≤ env.headerRoom ∧ length * fidEntrySize ≤ env.room

instance (env : Env) (length : Nat) : Decidable (Writes env length) := inferInstanceAs (Decidable (_ ∧ _))

theorem append_whole {file : SyncFile φ} (aligned : Aligned file.size) (table : List (FidEntry φ)) :
    Aligned (file.append table (table.length * fidEntrySize)).size ∧
      (file.append table (table.length * fidEntrySize)).records = file.records ++ table := by
  unfold SyncFile.append
  obtain ⟨header,whole⟩ := aligned
  constructor
  · unfold Aligned fidEntrySize at *
    dsimp only
    omega
  · rw [if_pos ⟨header,whole⟩,Nat.mul_div_cancel _ (by decide),List.take_length]

/-- A flush whose writes put all their bytes adds the table to its file. -/
theorem flush_whole {file : SyncFile φ} {table : List (FidEntry φ)} (writes : Writes env table.length)
    (whole : file.size = 0 ∨ Aligned file.size) :
    Aligned (file.flush env file.size table).size ∧ (file.flush env file.size table).records = file.records ++ table := by
  obtain ⟨header,room⟩ := writes
  unfold SyncFile.flush
  rw [Nat.min_eq_left room]
  split
  case isTrue empty =>
    rw [if_neg (Nat.not_lt_of_le header),empty]
    have start : Aligned (0 + geoRepFileHdrSz) := by decide
    exact append_whole start table
  case isFalse some => exact append_whole (whole.resolve_left some) table

theorem reinit_later (st : State φ) : Later st (geoRepReinit st) := by
  unfold geoRepReinit
  split
  · exact ⟨fun _ => List.prefix_refl _,fun _ onDisk => onDisk⟩
  · exact Later.refl st

theorem nextIndex_later (st : State φ) : Later st (geoRepDiskNextIndex st) := by
  refine ⟨fun _ => List.prefix_refl _,fun idx onDisk => .inl ?_⟩
  unfold geoRepDiskNextIndex
  rcases onDisk with below | ⟨rfl,_⟩
  · exact Nat.lt_succ_of_lt below
  · exact Nat.lt_succ_self _

theorem finish_later (env : Env) (forced : Bool) (size stSize : Nat) (st : State φ) : Later st (finish env forced size stSize st) := by
  unfold finish
  split
  · exact (nextIndex_later st).trans (reinit_later _)
  · exact reinit_later st

/-- What the end of a flush leaves. -/
theorem finish_spec (enabled : st.geoReplicationEnable = true) (env : Env) (forced : Bool) (size stSize : Nat) :
    (finish env forced size stSize st).geoReplicationEnable = true ∧ (finish env forced size stSize st).geoFidTable = [] ∧
      (finish env forced size stSize st).geoHashTable = (fun _ _ => none) ∧ (finish env forced size stSize st).dir = st.dir ∧
      (forced = true → (finish env forced size stSize st).fileIdxWrPending = false) := by
  have reinit : ∀ st' : State φ, st'.geoReplicationEnable = true →
      geoRepReinit st' = { st' with geoFidTable := [], geoHashTable := fun _ _ => none } := by
    intro st' on
    rw [geoRepReinit,if_pos on]
  unfold finish
  split
  case isTrue =>
    have enabled' : (geoRepDiskNextIndex st).geoReplicationEnable = true := enabled
    rw [reinit _ enabled']
    exact ⟨enabled,rfl,rfl,rfl,fun _ => rfl⟩
  case isFalse stays =>
    rw [reinit _ enabled]
    refine ⟨enabled,rfl,rfl,rfl,?_⟩
    intro isForced
    cases pending : st.fileIdxWrPending with
    | false => rfl
    | true => exact absurd ⟨pending,.inr (.inr isForced)⟩ stays

/-- What a flush whose writes put all their bytes does: it fails and keeps the table, or writes it. -/
structure Flushed (st : State φ) (forced : Bool) (result : State φ × Bool) : Prop where
  later : Later st result.1
  whole : Whole result.1
  enabled : result.1.geoReplicationEnable = true
  table : (result.2 = false ∧ result.1.geoFidTable = st.geoFidTable ∧ result.1.geoHashTable = st.geoHashTable ∧ result.1.dir = st.dir) ∨
    result.2 = true ∧ result.1.geoFidTable = [] ∧ result.1.geoHashTable = (fun _ _ => none) ∧ (∀ r ∈ st.geoFidTable, Stored st result.1 r) ∧
      (forced = true → result.1.fileIdxWrPending = false)

theorem put_whole (whole : Whole st) {idx : Nat} {file : SyncFile φ} (aligned : Aligned file.size) : Whole { st with dir := st.dir.put idx file } := by
  intro other found at_
  unfold Directory.put at at_
  dsimp only at at_
  by_cases same : other = idx
  · subst same
    rw [Function.update_self] at at_
    cases at_
    exact .inr aligned
  · rw [Function.update_of_ne same] at at_
    exact whole other found at_

theorem put_records (idx : Nat) (file : SyncFile φ) : records { st with dir := st.dir.put idx file } idx = file.records := by
  unfold records Directory.put
  dsimp only
  rw [Function.update_self]
  rfl

theorem put_later {idx : Nat} {file : SyncFile φ} {table : List (FidEntry φ)} (more : file.records = records st idx ++ table) :
    Later st { st with dir := st.dir.put idx file } := by
  refine ⟨fun other => ?_,fun _ onDisk => onDisk⟩
  by_cases same : other = idx
  · subst same
    rw [put_records,more]
    exact List.prefix_append _ _
  · have kept : records { st with dir := st.dir.put idx file } other = records st other := by
      unfold records Directory.put
      dsimp only
      rw [Function.update_of_ne same]
    exact kept ▸ List.prefix_refl _

/-- The file of a flush has been chosen. -/
theorem sought_later {idx : Nat} (forward : st.lastIndex ≤ idx) (time : Nat) :
    Later st { st with fileIdxWrPending := true, lastIndex := idx, lastTimeFileCr8 := time } := by
  refine ⟨fun _ => List.prefix_refl _,?_⟩
  rintro other (below | ⟨rfl,_⟩)
  · exact .inl (Nat.lt_of_lt_of_le below forward)
  · rcases Nat.lt_or_eq_of_le forward with before | same
    · exact .inl before
    · exact .inr ⟨same,rfl⟩

theorem flush_spec (enabled : st.geoReplicationEnable = true) (whole : Whole st) (writes : Writes env st.geoFidTable.length) :
    Flushed st forced (geoRepDiskFlush env forced st) := by
  unfold geoRepDiskFlush
  rw [if_neg (by simp [enabled])]
  split
  case isTrue empty =>
    obtain ⟨on,table,hashTable,dir,pending⟩ := finish_spec enabled env forced 0 env.unset
    have none : ∀ r ∈ st.geoFidTable, Stored st (finish env forced 0 env.unset st) r := by
      intro r mem
      rw [List.length_eq_zero_iff.mp empty] at mem
      cases mem
    refine ⟨finish_later ..,?_,on,.inr ⟨rfl,table,hashTable,none,pending⟩⟩
    unfold Whole
    dsimp only
    rw [dir]
    exact whole
  case isFalse some =>
    obtain ⟨forward,length⟩ := seek_spec env st.dir (st.dir.bound - st.lastIndex) st.lastIndex (by omega)
    generalize seek env st.dir (st.dir.bound - st.lastIndex) st.lastIndex = found at forward length
    obtain ⟨idx,place⟩ := found
    dsimp only at forward length ⊢
    have sought := sought_later forward (if place = .created then env.fileTime else st.lastTimeFileCr8)
    split
    case isTrue => exact ⟨sought,whole,enabled,.inl ⟨rfl,rfl,rfl,rfl⟩⟩
    case isFalse found =>
      rw [not_or] at found
      have sameLength : ((st.dir.file idx).getD ⟨0,[]⟩).size = place.size := by
        rw [← length found.1]
        cases st.dir.file idx <;> rfl
      have wholeFile : ((st.dir.file idx).getD ⟨0,[]⟩).size = 0 ∨ Aligned ((st.dir.file idx).getD ⟨0,[]⟩).size := by
        cases file : st.dir.file idx with
        | none => exact .inl rfl
        | some file' => exact whole idx file' file
      obtain ⟨aligned,more⟩ := flush_whole writes wholeFile
      rw [sameLength] at aligned more
      have old : ((st.dir.file idx).getD ⟨0,[]⟩).records = records st idx := by
        unfold records
        cases st.dir.file idx <;> rfl
      rw [old] at more
      generalize ((st.dir.file idx).getD ⟨0,[]⟩).flush env place.size st.geoFidTable = file at aligned more
      generalize (if place = .created then env.fileTime else st.lastTimeFileCr8) = time at sought
      have put : Later { st with fileIdxWrPending := true, lastIndex := idx, lastTimeFileCr8 := time }
          { st with fileIdxWrPending := true, lastIndex := idx, lastTimeFileCr8 := time, dir := st.dir.put idx file } := put_later more
      have ended := finish_later env forced (st.geoFidTable.length * fidEntrySize) place.size
        { st with fileIdxWrPending := true, lastIndex := idx, lastTimeFileCr8 := time, dir := st.dir.put idx file }
      have enabled' : ({ st with fileIdxWrPending := true, lastIndex := idx, lastTimeFileCr8 := time, dir := st.dir.put idx file } : State φ).geoReplicationEnable =
        true := enabled
      obtain ⟨on,table,hashTable,dir,pending⟩ := finish_spec enabled' env forced (st.geoFidTable.length * fidEntrySize) place.size
      refine ⟨(sought.trans put).trans ended,?_,on,.inr ⟨rfl,table,hashTable,?_,pending⟩⟩
      · unfold Whole
        dsimp only
        rw [dir]
        exact put_whole whole aligned
      · intro r mem
        have written : Stored st { st with fileIdxWrPending := true, lastIndex := idx, lastTimeFileCr8 := time, dir := st.dir.put idx file } r := by
          refine ⟨idx,.inr ⟨rfl,rfl⟩,?_⟩
          have here : records { st with fileIdxWrPending := true, lastIndex := idx, lastTimeFileCr8 := time, dir := st.dir.put idx file } idx = file.records :=
            put_records idx file
          rw [here,more,List.drop_left]
          exact mem
        exact written.later (sought.trans put) ended

/-- A flush that fails keeps the table, its hash table and the files. -/
theorem flush_failed (failed : (geoRepDiskFlush env forced st).2 = false) : (geoRepDiskFlush env forced st).1.geoFidTable = st.geoFidTable ∧
    (geoRepDiskFlush env forced st).1.geoHashTable = st.geoHashTable ∧ (geoRepDiskFlush env forced st).1.dir = st.dir := by
  unfold geoRepDiskFlush at failed ⊢
  split
  case isTrue => exact ⟨rfl,rfl,rfl⟩
  case isFalse enabled =>
    rw [if_neg enabled] at failed
    split
    case isTrue empty =>
      rw [if_pos empty] at failed
      cases failed
    case isFalse some =>
      rw [if_neg some] at failed
      dsimp only at failed ⊢
      split
      case isTrue => exact ⟨rfl,rfl,rfl⟩
      case isFalse found =>
        rw [if_neg found] at failed
        cases failed

end Disk

section Ranges
variable {φ : Type} {base st : State φ} {p q r : FidEntry φ} {D D' : Prop}

/-- The table is in its bounds, and the hash table finds entries of the table only. -/
structure Sound (st : State φ) : Prop where
  enabled : st.geoReplicationEnable = true
  small : st.geoFidTable.length ≤ geoMaxEntries
  indexed : ∀ line i idx, st.geoHashTable line i = some idx → idx < st.geoFidTable.length
  whole : Whole st

/-- A record covers the range of an insertion. -/
def Covers (r p : FidEntry φ) : Prop := r.fid = p.fid ∧ r.offStart ≤ p.offStart ∧ p.offEnd ≤ r.offEnd

/-- An entry that stands for a deletion. -/
def Deletion (r : FidEntry φ) : Prop := r.offStart = 0 ∧ r.offEnd = 0

instance (r : FidEntry φ) : Decidable (Deletion r) := inferInstanceAs (Decidable (_ ∧ _))

/-- A record answers for an insertion, when `D` says that its file was deleted later. -/
def Answers (D : Prop) (p r : FidEntry φ) : Prop := Covers r p ∨ r.fid = p.fid ∧ Deletion r ∧ D

/-- A record for an insertion is in the table, or has been written after a state. -/
def Owed (D : Prop) (base : State φ) (p : FidEntry φ) (st : State φ) : Prop :=
  (∃ r ∈ st.geoFidTable, Answers D p r) ∨ ∃ r, Stored base st r ∧ Answers D p r

theorem Answers.mono (answers : Answers D p r) (weaker : D → D') : Answers D' p r := by
  rcases answers with covers | ⟨same,deletion,deleted⟩
  · exact .inl covers
  · exact .inr ⟨same,deletion,weaker deleted⟩

theorem Owed.mono (owed : Owed D base p st) (weaker : D → D') : Owed D' base p st := by
  rcases owed with ⟨r,mem,answers⟩ | ⟨r,stored,answers⟩
  · exact .inl ⟨r,mem,answers.mono weaker⟩
  · exact .inr ⟨r,stored,answers.mono weaker⟩

theorem merge_fid (offStart offEnd : Nat) (r : FidEntry φ) : (r.merge offStart offEnd).fid = r.fid := by
  unfold FidEntry.merge
  split <;> rfl

theorem merge_deletion (deletion : Deletion p) (r : FidEntry φ) : Deletion (r.merge p.offStart p.offEnd) := by
  unfold FidEntry.merge
  split
  · exact ⟨rfl,rfl⟩
  · contradiction

theorem merge_range (range : ¬Deletion p) (r : FidEntry φ) :
    (r.merge p.offStart p.offEnd).offStart = min r.offStart p.offStart ∧ (r.merge p.offStart p.offEnd).offEnd = max r.offEnd p.offEnd := by
  unfold FidEntry.merge
  split
  · contradiction
  · exact ⟨rfl,rfl⟩

/-- An entry covers the ranges that are put into it. -/
theorem merge_covers (same : r.fid = p.fid) : Covers (r.merge p.offStart p.offEnd) p := by
  refine ⟨(merge_fid ..).trans same,?_⟩
  unfold FidEntry.merge
  split
  case isTrue deletion =>
    dsimp only
    omega
  case isFalse => exact ⟨Nat.min_le_right ..,Nat.le_max_right ..⟩

/-- An entry that answers for an insertion still does when another range of its file is put into it. -/
theorem merge_answers (answers : Answers D q r) (same : r.fid = p.fid) (enters : Deletion r → Deletion p) :
    Answers (D ∨ q.fid = p.fid ∧ Deletion p) q (r.merge p.offStart p.offEnd) := by
  have fid := merge_fid p.offStart p.offEnd r
  by_cases deletion : Deletion p
  · have marked := merge_deletion deletion r
    have own : r.fid = q.fid := by
      rcases answers with covers | ⟨own,_⟩
      · exact covers.1
      · exact own
    exact .inr ⟨fid.trans own,marked,.inr ⟨own.symm.trans same,deletion⟩⟩
  · rcases answers with ⟨own,low,high⟩ | ⟨_,before,_⟩
    · obtain ⟨start,last⟩ := merge_range deletion r
      refine .inl ⟨fid.trans own,?_,?_⟩
      · rw [start]
        exact Nat.le_trans (Nat.min_le_left ..) low
      · rw [last]
        exact Nat.le_trans high (Nat.le_max_left ..)
    · exact absurd (enters before) deletion

theorem mem_modify {α : Type} {l : List α} {idx : Nat} {a b : α} (f : α → α) (here : l[idx]? = some a) (mem : b ∈ l) :
    b ∈ l.modify idx f ∨ b = a ∧ f a ∈ l.modify idx f := by
  obtain ⟨j,at_⟩ := List.getElem?_of_mem mem
  by_cases same : idx = j
  · subst same
    rw [here] at at_
    cases at_
    refine .inr ⟨rfl,List.mem_of_getElem? (i := idx) ?_⟩
    rw [List.getElem?_modify_eq,here]
    rfl
  · refine .inl (List.mem_of_getElem? (i := j) ?_)
    rw [List.getElem?_modify_ne _ _ same,at_]

theorem Flushed.sound {forced : Bool} {result : State φ × Bool} (flushed : Flushed st forced result) (sound : Sound st) : Sound result.1 := by
  rcases flushed.table with ⟨_,table,hashTable,_⟩ | ⟨_,table,hashTable,_⟩
  · refine ⟨flushed.enabled,?_,?_,flushed.whole⟩
    · rw [table]
      exact sound.small
    · rw [table,hashTable]
      exact sound.indexed
  · refine ⟨flushed.enabled,?_,?_,flushed.whole⟩
    · rw [table]
      exact Nat.zero_le _
    · intro line i idx at_
      rw [hashTable] at at_
      cases at_

theorem Flushed.owed {forced : Bool} {result : State φ × Bool} (flushed : Flushed st forced result) (owed : Owed D base q st) (before : Later base st) :
    Owed D base q result.1 := by
  rcases owed with ⟨r,mem,answers⟩ | ⟨r,stored,answers⟩
  · rcases flushed.table with ⟨_,table,_⟩ | ⟨_,_,_,written,_⟩
    · exact .inl ⟨r,table ▸ mem,answers⟩
    · exact .inr ⟨r,(written r mem).earlier before,answers⟩
  · exact .inr ⟨r,stored.later before flushed.later,answers⟩

/-- A context that has been made, with files that were written whole. -/
structure Opened (st : State φ) : Prop where
  enabled : st.geoReplicationEnable = true
  empty : st.geoFidTable = []
  hashTable : st.geoHashTable = fun _ _ => none
  whole : Whole st

theorem Opened.sound (opened : Opened st) : Sound st := by
  refine ⟨opened.enabled,?_,?_,opened.whole⟩
  · rw [opened.empty]
    exact Nat.zero_le _
  · intro line i idx at_
    rw [opened.hashTable] at at_
    cases at_

end Ranges

section Updates
variable {φ : Type} [DecidableEq φ] {hash : φ → Nat} {env : Env} {base st st' : State φ} {p q : FidEntry φ} {D : Prop}

/-- An insertion finds room in the table, and does not put a range into the entry of a deletion. -/
def Enters (hash : φ → Nat) (p : FidEntry φ) (st : State φ) : Prop :=
  match search hash p.fid st with
  | some idx => ∀ r, st.geoFidTable[idx]? = some r → Deletion r → Deletion p
  | none => st.geoFidTable.length < geoMaxEntries

theorem search_some {fid : φ} {idx : Nat} (found : search hash fid st = some idx) :
    ∃ r, st.geoFidTable[idx]? = some r ∧ r.fid = fid := by
  obtain ⟨i,_,at_⟩ := List.exists_of_findSome?_eq_some found
  obtain ⟨idx',_,own⟩ := Option.bind_eq_some_iff.mp at_
  split at own
  case isTrue same =>
    cases own
    exact Option.map_eq_some_iff.mp same
  case isFalse => cases own

theorem enter_later (env : Env) (p : FidEntry φ) (st : State φ) : Later st (enter hash env p st) := by
  unfold enter
  split
  · exact ⟨fun _ => List.prefix_refl _,fun _ onDisk => onDisk⟩
  · exact ⟨fun _ => List.prefix_refl _,fun _ onDisk => onDisk⟩

theorem slot_some {idx idx' : Nat} (at_ : slot idx = some idx') : idx' ≤ idx := by
  unfold slot at at_
  split at at_
  · cases at_
  · cases at_
    exact Nat.mod_le ..

theorem enter_sound (env : Env) (sound : Sound st) (enters : Enters hash p st) : Sound (enter hash env p st) := by
  unfold Enters at enters
  unfold enter
  cases found : search hash p.fid st with
  | some idx =>
    constructor
    case enabled => exact sound.enabled
    case small =>
      dsimp only
      rw [List.length_modify]
      exact sound.small
    case indexed =>
      dsimp only
      rw [List.length_modify]
      exact sound.indexed
    case whole => exact sound.whole
  | none =>
    rw [found] at enters
    constructor
    case enabled => exact sound.enabled
    case small =>
      dsimp only at enters ⊢
      rw [List.length_append]
      exact enters
    case indexed =>
      dsimp only
      intro line i idx at_
      rw [List.length_append]
      have length : [p].length = 1 := rfl
      by_cases sameLine : line = hash p.fid % geoMaxHashSz
      · subst sameLine
        rw [Function.update_self,Function.update_apply] at at_
        split at at_
        · have le := slot_some at_
          omega
        · have less := sound.indexed _ _ _ at_
          omega
      · rw [Function.update_of_ne sameLine] at at_
        have less := sound.indexed _ _ _ at_
        omega
    case whole => exact sound.whole

/-- The entry of an insertion answers for it. -/
theorem enter_covers (hash : φ → Nat) (env : Env) (p : FidEntry φ) (st : State φ) : ∃ r ∈ (enter hash env p st).geoFidTable, Covers r p := by
  unfold enter
  cases found : search hash p.fid st with
  | some idx =>
    obtain ⟨r,here,same⟩ := search_some found
    refine ⟨r.merge p.offStart p.offEnd,?_,merge_covers same⟩
    apply List.mem_of_getElem? (i := idx)
    rw [List.getElem?_modify_eq,here]
    rfl
  | none => exact ⟨p,List.mem_append_right _ (List.mem_singleton_self p),rfl,Nat.le_refl _,Nat.le_refl _⟩

theorem enter_owed (env : Env) (owed : Owed D base q st) (before : Later base st) (enters : Enters hash p st) :
    Owed (D ∨ q.fid = p.fid ∧ Deletion p) base q (enter hash env p st) := by
  rcases owed with ⟨r,mem,answers⟩ | ⟨r,stored,answers⟩
  · left
    unfold Enters at enters
    unfold enter
    cases found : search hash p.fid st with
    | some idx =>
      rw [found] at enters
      obtain ⟨entry,here,same⟩ := search_some found
      rcases mem_modify (FidEntry.merge p.offStart p.offEnd) here mem with other | ⟨rfl,merged⟩
      · exact ⟨r,other,answers.mono .inl⟩
      · exact ⟨_,merged,merge_answers answers same (enters r here)⟩
    | none => exact ⟨r,List.mem_append_left _ mem,answers.mono .inl⟩
  · exact .inr ⟨r,stored.later before (enter_later env p st),answers.mono .inl⟩

/-- The condition on a step: an insertion finds room and no deletion to widen, and the writes of a flush put all
their bytes. -/
def Orderly (hash : φ → Nat) (st : State φ) : Act φ → Prop
  | .insert env p => Enters hash p st ∧ Writes env (st.geoFidTable.length + 1)
  | .flush env _ => Writes env st.geoFidTable.length

theorem Writes.mono {length length' : Nat} (writes : Writes env length) (less : length' ≤ length) : Writes env length' :=
  ⟨writes.1,Nat.le_trans (Nat.mul_le_mul_right _ less) writes.2⟩

theorem enter_length (env : Env) (p : FidEntry φ) (st : State φ) : (enter hash env p st).geoFidTable.length ≤ st.geoFidTable.length + 1 := by
  unfold enter
  split
  · dsimp only
    rw [List.length_modify]
    exact Nat.le_succ _
  · exact Nat.le_of_eq List.length_append

/-- An insertion is the entry in the table, with a flush after it or not. -/
theorem insert_cases (sound : Sound st) (orderly : Orderly hash st (.insert env p)) :
    geoRepInsertFid hash env p st = enter hash env p st ∨
      ∃ result, Flushed (enter hash env p st) false result ∧ geoRepInsertFid hash env p st = result.1 := by
  obtain ⟨enters,writes⟩ := orderly
  have entered := enter_sound env sound enters
  unfold geoRepInsertFid
  rw [if_neg (by simp [sound.enabled])]
  dsimp only
  split
  · exact .inr ⟨_,flush_spec entered.enabled entered.whole (writes.mono (enter_length env p st)),rfl⟩
  · exact .inl rfl

/-- An action that deletes a file. -/
def Act.Deletes (fid : φ) : Act φ → Prop
  | .insert _ p => fid = p.fid ∧ Deletion p
  | .flush .. => False

theorem step_sound {a : Act φ} (sound : Sound st) (orderly : Orderly hash st a) (done : step hash a st = some st') : Sound st' ∧ Later st st' := by
  cases a with
  | insert env p =>
    cases done
    have entered := enter_sound env sound orderly.1
    rcases insert_cases sound orderly with same | ⟨result,flushed,same⟩
    · rw [same]
      exact ⟨entered,enter_later env p st⟩
    · rw [same]
      exact ⟨flushed.sound entered,(enter_later env p st).trans flushed.later⟩
  | flush env forced =>
    cases done
    have flushed : Flushed st forced (geoRepDiskFlush env forced st) := flush_spec sound.enabled sound.whole orderly
    exact ⟨flushed.sound sound,flushed.later⟩

/-- A step keeps the record for an insertion, or deletes its file. -/
theorem step_owed {a : Act φ} (sound : Sound st) (orderly : Orderly hash st a) (done : step hash a st = some st') (before : Later base st)
    (owed : Owed D base q st) : Owed (D ∨ a.Deletes q.fid) base q st' := by
  cases a with
  | insert env p =>
    cases done
    have entered := enter_owed env owed before orderly.1
    rcases insert_cases sound orderly with same | ⟨result,flushed,same⟩
    · rw [same]
      exact entered
    · rw [same]
      exact flushed.owed entered (before.trans (enter_later env p st))
  | flush env forced =>
    cases done
    have flushed : Flushed st forced (geoRepDiskFlush env forced st) := flush_spec sound.enabled sound.whole orderly
    exact (flushed.owed owed before).mono .inl

/-- An insertion leaves a record that covers its range. -/
theorem insert_owed (sound : Sound st) (orderly : Orderly hash st (.insert env p)) : Owed False st p (geoRepInsertFid hash env p st) := by
  obtain ⟨r,mem,covers⟩ := enter_covers hash env p st
  have entered : Owed False st p (enter hash env p st) := .inl ⟨r,mem,.inl covers⟩
  rcases insert_cases sound orderly with same | ⟨result,flushed,same⟩
  · rw [same]
    exact entered
  · rw [same]
    exact flushed.owed entered (enter_later env p st)

/-- A run from a state to another deletes a file. -/
def Deleted (hash : φ → Nat) (fid : φ) (st st' : State φ) : Prop :=
  ∃ a before after, Machine.Run (step hash) (Orderly hash) st before ∧ a.Deletes fid ∧ step hash a before = some after ∧
    Machine.Run (step hash) (Orderly hash) after st'

theorem run_owed (sound : Sound st) (before : Later base st) (owed : Owed False base p st) (run : Machine.Run (step hash) (Orderly hash) st st') :
    Sound st' ∧ Later base st' ∧ Owed (Deleted hash p.fid st st') base p st' := by
  induction run with
  | refl =>
    exact ⟨sound,before,owed.mono False.elim⟩
  | tail run a orderly done ih =>
    obtain ⟨sound',before',owed'⟩ := ih
    obtain ⟨sound'',later⟩ := step_sound sound' orderly done
    have next := step_owed sound' orderly done before' owed'
    refine ⟨sound'',before'.trans later,?_⟩
    apply next.mono
    rintro (⟨a',first,second,run',deletes,done',rest⟩ | deletes)
    · exact ⟨a',first,second,run',deletes,done',rest.tail a orderly done⟩
    · exact ⟨a,_,_,run,deletes,done,.refl⟩

/-- A forced flush that succeeds makes a record for each insertion before it available to the remote site; the
table stays in its bounds, and a flush that fails keeps it. -/
theorem updates_available {start : State φ} (opened : Opened start) (run : Machine.Run (step hash) (Orderly hash) start st) :
    st.geoFidTable.length ≤ geoMaxEntries ∧
    (∀ env forced, (geoRepDiskFlush env forced st).2 = false → (geoRepDiskFlush env forced st).1.geoFidTable = st.geoFidTable ∧
      (geoRepDiskFlush env forced st).1.geoHashTable = st.geoHashTable ∧ (geoRepDiskFlush env forced st).1.dir = st.dir) ∧
    ∀ env p st', Orderly hash st (.insert env p) → Machine.Run (step hash) (Orderly hash) (geoRepInsertFid hash env p st) st' →
      ∀ env', Orderly hash st' (.flush env' true) → (geoRepDiskFlush env' true st').2 = true →
        ∃ idx < (geoRepDiskFlush env' true st').1.lastIndex, ∃ r ∈ (records (geoRepDiskFlush env' true st').1 idx).drop (records st idx).length,
          Answers (Deleted hash p.fid (geoRepInsertFid hash env p st) st') p r := by
  have sound : Sound st := run.invariant Sound opened.sound fun _ _ _ before orderly done => (step_sound before orderly done).1
  refine ⟨sound.small,fun _ _ failed => flush_failed failed,?_⟩
  intro env p st' orderly run' env' orderly' succeeded
  obtain ⟨sound',later⟩ := step_sound sound orderly rfl
  obtain ⟨sound'',later',owed⟩ := run_owed sound' later (insert_owed sound orderly) run'
  have flushed : Flushed st' true (geoRepDiskFlush env' true st') := flush_spec sound''.enabled sound''.whole orderly'
  rcases flushed.table with ⟨failed,_⟩ | ⟨_,table,_,_,pending⟩
  · rw [succeeded] at failed
    cases failed
  · rcases flushed.owed owed later' with ⟨r,mem,_⟩ | ⟨r,⟨idx,onDisk,new⟩,answers⟩
    · rw [table] at mem
      cases mem
    · refine ⟨idx,?_,r,new,answers⟩
      rcases onDisk with below | ⟨_,still⟩
      · exact below
      · rw [pending rfl] at still
        cases still

/-- A context without files, a call whose write of the table puts at most `room` bytes, and a range of a file. -/
def fresh : State Nat := ⟨true,[],fun _ _ => none,0,false,0,0,⟨fun _ => none,0,fun _ _ => rfl⟩⟩

def quiet (room : Nat) : Env := ⟨fun _ => true,fun _ => true,true,8,room,5,5,5,5,0⟩

def range : FidEntry Nat := ⟨7,20,30,1,[1,2,3],0⟩

theorem fresh_opened : Opened fresh := ⟨rfl,rfl,rfl,fun _ _ => nofun⟩

/-- Another file, and a range that overlaps the first one. -/
def other : FidEntry Nat := ⟨9,0,8,1,[1,2,3],0⟩

def overlapping : FidEntry Nat := ⟨7,28,40,1,[1,2,3],0⟩

/-- A range is inserted after another file, and one that overlaps it before the flush. -/
theorem updates_available_range : ∃ st st' : State Nat, st = geoRepInsertFid id (quiet 216) other fresh ∧
    st' = geoRepInsertFid id (quiet 216) overlapping (geoRepInsertFid id (quiet 216) range st) ∧
    ∃ idx < (geoRepDiskFlush (quiet 216) true st').1.lastIndex,
      ∃ r ∈ (records (geoRepDiskFlush (quiet 216) true st').1 idx).drop (records st idx).length,
        Answers (Deleted id 7 (geoRepInsertFid id (quiet 216) range st) st') range r := by
  have first : Enters id other fresh := Nat.zero_lt_succ 1023
  have second : Enters id range (geoRepInsertFid id (quiet 216) other fresh) := Nat.succ_lt_succ (Nat.zero_lt_succ 1022)
  have third : Enters id overlapping (geoRepInsertFid id (quiet 216) range (geoRepInsertFid id (quiet 216) other fresh)) := by
    intro r found deletion
    have same : some range = some r := found
    cases same
    exact absurd deletion (by decide)
  have run : Machine.Run (step id) (Orderly id) fresh (geoRepInsertFid id (quiet 216) other fresh) :=
    Machine.Run.refl.tail (.insert (quiet 216) other) ⟨first,by decide⟩ rfl
  exact ⟨_,_,rfl,rfl,(updates_available fresh_opened run).2.2 (quiet 216) range _ ⟨second,by decide⟩
    (Machine.Run.refl.tail (.insert (quiet 216) overlapping) ⟨third,by decide⟩ rfl) (quiet 216) (by decide : Writes (quiet 216) 2) rfl⟩

/-- A flush whose write of the table fails clears the table, and a forced flush makes no record available. -/
theorem update_lost : ∃ st st', Machine.Run (step id) (fun _ _ => True) (geoRepInsertFid id (quiet 72) range fresh) st ∧
    geoRepDiskFlush (quiet 72) true st = (st',true) ∧ st'.geoFidTable = [] ∧ ∀ idx, records st' idx = [] := by
  have failed : Machine.Run (step id) (fun _ _ => True) (geoRepInsertFid id (quiet 72) range fresh) _ :=
    Machine.Run.refl.tail (.flush (quiet 0) false) trivial rfl
  refine ⟨_,_,failed,rfl,rfl,?_⟩
  intro idx
  cases idx with
  | zero => rfl
  | succ idx => rfl

end Updates

end Rozofs.GeoReplication
