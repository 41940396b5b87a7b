import Rozofs.DirentRequests
import Rozofs.KeyedMap

/-! The names of a root file as a map: a client that notes the requests that were accepted knows what each
further request answers. -/
namespace Rozofs.Dirents
open Function (update)
open ByteMemory (Memory read32 write32 memcpy run read32_congr run_congr run_memcpy memcpy_outside read32_write32 write32_other)
open NameChunks (Held Apart nbChunks)
open DirentRepair (Dirent)
open KeyedMap (IsMap)

/-- The name and the value of a name entry. -/
def nameEntryAt (m : Memory) (p : Nat) : Name × Value := (run m (p + 20) (read32 m p / 2 ^ 20),valueAt m p)

/-- What is read through a hash entry. -/
def nameEntry (st : Files) (file : Option Nat) (idx : Nat) : Option (Name × Value) :=
  (nameEntryPtr st file idx).map (nameEntryAt (st.area file))

/-- The hash entry is in the list of the bucket. -/
def Linked (st : Dirent) (b : Nat) (file : Option Nat) (idx : Nat) : Prop := ∃ path, Chained st b path ∧ .next file idx ∈ path

/-- A name with its value is found through a hash entry. -/
structure Stored (cfg : Config) (st : Files) (key : Option Nat × Nat) (name : Name) (value : Value) : Prop where
  linked : Linked st.links (bucketIdx (cfg.hash2 name)) key.1 key.2
  hash : st.hash key.1 key.2 = (cfg.hash2 name).setWidth 28
  entry : nameEntry st key.1 key.2 = some (name,value)

abbrev Dict := Name → Option Value

/-- The files hold a map: each linked entry has a name of its bucket, each name is in one entry, and the name
entries fit in their chunks. -/
structure Holds (cfg : Config) (st : Files) (dict : Dict) : Prop extends Consistent st where
  filed : ∀ b f i, Linked st.links b f i → ∃ name value, Stored cfg st (f,i) name value
  isMap : IsMap (Stored cfg st) dict
  fits : ∀ f i chunks, (st.names f).given i = some chunks → 20 + read32 (st.area f) (64 * chunks.1) / 2 ^ 20 ≤ 64 * chunks.2

section Bytes
variable {m m' : Memory} {p : Nat} {name : Name} {value : Value} {chunks chunks' : Nat × Nat}

theorem named_iff : named m p name = true ↔ (nameEntryAt m p).1 = name := by
  simp only [named,nameEntryAt,Bool.and_eq_true,decide_eq_true_eq]
  constructor
  · rintro ⟨len,same⟩
    rw [len,same]
  · intro same
    have len := congrArg List.length same
    rw [ByteMemory.run_length] at len
    refine ⟨len,?_⟩
    rw [← len]
    exact same

theorem valueAt_congr (word : read32 m' p = read32 m p) (fid : run m' (p + 4) 16 = run m (p + 4) 16) : valueAt m' p = valueAt m p := by
  simp only [valueAt,word,fid]

/-- A name entry is read from its own bytes. -/
theorem nameEntryAt_congr (same : ∀ i < 20 + read32 m p / 2 ^ 20, m' (p + i) = m (p + i)) :
    nameEntryAt m' p = nameEntryAt m p ∧ read32 m' p = read32 m p := by
  have word : read32 m' p = read32 m p := read32_congr fun i low => same i (by omega)
  have fid : run m' (p + 4) 16 = run m (p + 4) 16 := run_congr fun i low => by
    rw [Nat.add_assoc]
    exact same (4 + i) (by omega)
  have bytes : run m' (p + 20) (read32 m p / 2 ^ 20) = run m (p + 20) (read32 m p / 2 ^ 20) := run_congr fun i low => by
    rw [Nat.add_assoc]
    exact same (20 + i) (by omega)
  refine ⟨?_,word⟩
  rw [nameEntryAt,nameEntryAt,word,bytes,valueAt_congr word fid]

/-- The name entries in other chunks are kept. -/
theorem nameEntryAt_apart (apart : Apart chunks chunks') (fits : 20 + read32 m (64 * chunks.1) / 2 ^ 20 ≤ 64 * chunks.2)
    (outside : ∀ a, a < 64 * chunks'.1 ∨ 64 * (chunks'.1 + chunks'.2) ≤ a → m' a = m a) :
    nameEntryAt m' (64 * chunks.1) = nameEntryAt m (64 * chunks.1) ∧ read32 m' (64 * chunks.1) = read32 m (64 * chunks.1) := by
  apply nameEntryAt_congr
  intro i low
  apply outside
  rcases apart with before | after
  · left
    omega
  · right
    omega

/-- The name entry that was written. -/
theorem nameEntryAt_write (m : Memory) (p : Nat) (value : Value) (short : name.length ≤ 300) :
    nameEntryAt (writeNameEntry p name value m) p = (name,value) ∧ read32 (writeNameEntry p name value m) p / 2 ^ 20 = name.length := by
  have type := value.type.isLt
  have word : read32 (writeNameEntry p name value m) p = value.type.toNat + 2 ^ 20 * name.length := by
    have small : value.type.toNat + 2 ^ 20 * name.length < 2 ^ 32 := by omega
    rw [← read32_write32 m p small]
    refine read32_congr fun i low => ?_
    rw [writeNameEntry,memcpy_outside (.inl (by omega)),memcpy_outside (.inl (by omega))]
  have len : (value.type.toNat + 2 ^ 20 * name.length) / 2 ^ 20 = name.length := by omega
  have fid : run (writeNameEntry p name value m) (p + 4) 16 = value.fid.val := by
    have copied := run_memcpy (write32 m p (value.type.toNat + 2 ^ 20 * name.length)) (p + 4) value.fid.val
    rw [value.fid.property] at copied
    refine Eq.trans (run_congr fun i low => ?_) copied
    rw [writeNameEntry,memcpy_outside (.inl (by omega))]
  have bytes : run (writeNameEntry p name value m) (p + 20) name.length = name := run_memcpy _ _ _
  have kind : BitVec.ofNat 20 (value.type.toNat + 2 ^ 20 * name.length) = value.type := by
    apply BitVec.eq_of_toNat_eq
    rw [BitVec.toNat_ofNat]
    omega
  rw [word]
  refine ⟨?_,len⟩
  rw [nameEntryAt,word,len,bytes]
  simp only [valueAt,word,fid,kind]

/-- The fid of a name entry is changed. -/
theorem nameEntryAt_fid (m : Memory) (p : Nat) (fid : Fid) :
    nameEntryAt (memcpy m (p + 4) fid.val) p = ((nameEntryAt m p).1,⟨fid,(nameEntryAt m p).2.type⟩) ∧
      read32 (memcpy m (p + 4) fid.val) p = read32 m p := by
  have size := fid.property
  have word : read32 (memcpy m (p + 4) fid.val) p = read32 m p := read32_congr fun i low => memcpy_outside (.inl (by omega))
  have bytes : run (memcpy m (p + 4) fid.val) (p + 20) (read32 m p / 2 ^ 20) = run m (p + 20) (read32 m p / 2 ^ 20) :=
    run_congr fun i low => memcpy_outside (.inr (by omega))
  have copied := run_memcpy m (p + 4) fid.val
  rw [size] at copied
  refine ⟨?_,word⟩
  simp only [nameEntryAt,word,bytes,valueAt,copied]

end Bytes

section Lists
variable {st st' : Dirent} {b b' i : Nat} {f : Option Nat} {path : List Slot}

theorem linked_iff (chained : Chained st b path) : Linked st b f i ↔ .next f i ∈ path := by
  constructor
  · rintro ⟨path',chained',member⟩
    rwa [chained.unique chained']
  · intro member
    exact ⟨path,chained,member⟩

/-- An entry is in the list of one bucket. -/
theorem Linked.unique (linked : Linked st b f i) (linked' : Linked st b' f i) : b = b' := by
  obtain ⟨path,chained,member⟩ := linked
  obtain ⟨path',chained',member'⟩ := linked'
  exact (chained.owned f i member).toAllocated.unique (chained'.owned f i member').toAllocated

/-- A list with one entry more. -/
theorem linked_perm {file : Option Nat} {idx : Nat} {path' : List Slot} (chained : Chained st b path) (chained' : Chained st' b path')
    (perm : (entriesOf path').Perm ((file,idx) :: entriesOf path)) : Linked st' b f i ↔ Linked st b f i ∨ (f,i) = (file,idx) := by
  rw [linked_iff chained,linked_iff chained',← mem_entriesOf,perm.mem_iff,List.mem_cons,mem_entriesOf,or_comm]

theorem linked_lists (sound : Sound st) (lists : ∀ b path, Chained st b path → Chained st' b path) :
    Linked st' b f i ↔ Linked st b f i := by
  obtain ⟨path,chained⟩ := sound.lists b
  rw [linked_iff chained,linked_iff (lists b path chained)]

end Lists

section Files
variable {cfg : Config} {st st' : Files} {dict : Dict} {b idx : Nat} {file : Option Nat} {name : Name} {value : Value} {key : Option Nat × Nat}

theorem Appended.linked (appended : Appended b file idx st st') (sound : Sound st.links) (b' : Nat) (f : Option Nat) (i : Nat) :
    Linked st'.links b' f i ↔ Linked st.links b' f i ∨ b' = b ∧ (f,i) = (file,idx) := by
  obtain ⟨path,chained⟩ := sound.lists b'
  by_cases own : b' = b
  · subst own
    obtain ⟨path',chained',perm⟩ := appended.list path chained
    rw [linked_perm chained chained' perm,and_iff_right rfl]
  · rw [linked_iff chained,linked_iff (appended.others b' path own chained)]
    simp only [own,false_and,or_false]

theorem Deleted.linked (deleted : Deleted b file idx st st') (sound : Sound st.links) (b' : Nat) (f : Option Nat) (i : Nat) :
    Linked st.links b' f i ↔ Linked st'.links b' f i ∨ b' = b ∧ (f,i) = (file,idx) := by
  obtain ⟨path,chained⟩ := sound.lists b'
  by_cases own : b' = b
  · subst own
    obtain ⟨path',chained',perm⟩ := deleted.list path chained
    rw [linked_perm chained' chained perm,and_iff_right rfl]
  · rw [linked_iff chained,linked_iff (deleted.others b' path own chained)]
    simp only [own,false_and,or_false]

/-- The removed entry is in no list. -/
theorem Deleted.gone (deleted : Deleted b file idx st st') (sound : Sound st.links) (b' : Nat) : ¬Linked st'.links b' file idx := by
  intro again
  have before := (deleted.linked sound b' file idx).mpr (.inl again)
  have here := (deleted.linked sound b file idx).mpr (.inr ⟨rfl,rfl⟩)
  cases before.unique here
  obtain ⟨path,chained⟩ := sound.lists b
  obtain ⟨path',chained',perm⟩ := deleted.list path chained
  have once := chained.nodup_entriesOf
  rw [perm.nodup_iff,List.nodup_cons] at once
  exact once.1 (mem_entriesOf.mpr ((linked_iff chained').mp again))

/-- The name entry is in the chunks of the hash entry. -/
theorem nameEntryPtr_given (held : Held (st.names file)) (idx : Nat) :
    nameEntryPtr st file idx = ((st.names file).given idx).map fun chunks => 64 * chunks.1 := by
  rw [nameEntryPtr,held.recorded]
  cases given : (st.names file).given idx with
  | none => rfl
  | some chunks =>
    simp only [Option.map_some,(held.inside idx chunks given).toNat.1]

theorem nameEntry_congr (names : (st'.names file).hashEntry idx = (st.names file).hashEntry idx) (area : st'.area file = st.area file) :
    nameEntry st' file idx = nameEntry st file idx := by
  rw [nameEntry,nameEntry,nameEntryPtr,nameEntryPtr,names,area]

/-- The search compares the name with the one that is stored. -/
theorem Matches.stored (matched : Matches st (cfg.hash2 name) name file idx) (linked : Linked st.links (bucketIdx (cfg.hash2 name)) file idx) :
    ∃ p, nameEntryPtr st file idx = some p ∧ Stored cfg st (file,idx) name (valueAt (st.area file) p) := by
  obtain ⟨hash,p,ptr,same⟩ := matched
  refine ⟨p,ptr,linked,hash,?_⟩
  rw [nameEntry,ptr,Option.map_some]
  exact congrArg some (Prod.ext (named_iff.mp same) rfl)

theorem Stored.matched (stored : Stored cfg st key name value) : Matches st (cfg.hash2 name) name key.1 key.2 := by
  obtain ⟨p,ptr,same⟩ := Option.map_eq_some_iff.mp stored.entry
  exact ⟨stored.hash,p,ptr,named_iff.mpr (by rw [same])⟩

theorem Stored.single {name' : Name} {value' : Value} (stored : Stored cfg st key name value) (stored' : Stored cfg st key name' value') :
    name' = name := by
  have same := stored'.entry.symm.trans stored.entry
  cases same
  rfl

theorem Holds.found (holds : Holds cfg st dict) (stored : Stored cfg st key name value) : dict name = some value :=
  (holds.isMap.means name value).mpr ⟨key,stored⟩

/-- Lists and entries that are kept hold the same map. -/
theorem Holds.kept (holds : Holds cfg st dict) (consistent : Consistent st')
    (linked : ∀ b f i, Linked st'.links b f i ↔ Linked st.links b f i) (hash : st'.hash = st.hash)
    (entries : ∀ b f i, Linked st.links b f i → nameEntry st' f i = nameEntry st f i)
    (fits : ∀ f i chunks, (st'.names f).given i = some chunks → 20 + read32 (st'.area f) (64 * chunks.1) / 2 ^ 20 ≤ 64 * chunks.2) :
    Holds cfg st' dict := by
  have same : Stored cfg st' = Stored cfg st := by
    funext key name value
    apply propext
    constructor
    · intro stored
      have before := (linked _ _ _).mp stored.linked
      exact ⟨before,by rw [← hash]; exact stored.hash,by rw [← entries _ _ _ before]; exact stored.entry⟩
    · intro stored
      exact ⟨(linked _ _ _).mpr stored.linked,by rw [hash]; exact stored.hash,by rw [entries _ _ _ stored.linked]; exact stored.entry⟩
  refine ⟨consistent,fun b f i inside => ?_,?_,fits⟩
  · rw [same]
    exact holds.filed b f i ((linked b f i).mp inside)
  · rw [same]
    exact holds.isMap

/-- An allocation holds the same map. -/
theorem Holds.granted (holds : Holds cfg st dict) (granted : Granted b file idx st st') : Holds cfg st' dict := by
  refine holds.kept (granted.consistent holds.toConsistent).1 (fun b f i => linked_lists holds.sound granted.lists) granted.hash
    (fun b f i linked => ?_) fun f i chunks given => ?_
  · obtain ⟨path,chained,member⟩ := linked
    rcases granted.names f with ⟨same,_⟩ | ⟨missing,_⟩
    · exact nameEntry_congr (by rw [same]) (by rw [granted.area])
    · exact absurd missing (chained.present member)
  · rw [granted.area]
    rcases granted.names f with ⟨same,_⟩ | ⟨_,same⟩
    · rw [same] at given
      exact holds.fits f i chunks given
    · rw [same] at given
      cases given

/-- The bytes of one entry are written, in its own chunks. -/
structure Overwritten (file : Option Nat) (idx : Nat) (chunks : Nat × Nat) (st st' : Files) : Prop where
  held : ∀ f, Held (st'.names f)
  own : (st'.names file).given idx = some chunks
  given : ∀ f i, (f,i) ≠ (file,idx) → (st'.names f).given i = (st.names f).given i
  hash : ∀ f i, (f,i) ≠ (file,idx) → st'.hash f i = st.hash f i
  areas : ∀ f, f ≠ file → st'.area f = st.area f
  outside : ∀ a, a < 64 * chunks.1 ∨ 64 * (chunks.1 + chunks.2) ≤ a → st'.area file a = st.area file a

section Written
variable {chunks : Nat × Nat}

/-- The other name entries are kept. -/
theorem Overwritten.read (wrote : Overwritten file idx chunks st st') (holds : Holds cfg st dict) {f : Option Nat} {i : Nat} (other : (f,i) ≠ (file,idx))
    {chunks' : Nat × Nat} (given : (st.names f).given i = some chunks') :
    nameEntryAt (st'.area f) (64 * chunks'.1) = nameEntryAt (st.area f) (64 * chunks'.1) ∧
      read32 (st'.area f) (64 * chunks'.1) = read32 (st.area f) (64 * chunks'.1) := by
  by_cases here : f = file
  · subst here
    have away : i ≠ idx := fun same => other (by rw [same])
    have again := (wrote.given f i other).trans given
    exact nameEntryAt_apart ((wrote.held f).apart i idx chunks' chunks again wrote.own away) (holds.fits f i chunks' given) wrote.outside
  · rw [wrote.areas f here]
    exact ⟨rfl,rfl⟩

theorem Overwritten.entry (wrote : Overwritten file idx chunks st st') (holds : Holds cfg st dict) (f : Option Nat) (i : Nat) (other : (f,i) ≠ (file,idx)) :
    nameEntry st' f i = nameEntry st f i := by
  rw [nameEntry,nameEntry,nameEntryPtr_given (wrote.held f),nameEntryPtr_given (holds.held f),wrote.given f i other]
  cases given : (st.names f).given i with
  | none => rfl
  | some chunks' =>
    simp only [Option.map_some]
    rw [(wrote.read holds other given).1]

theorem Overwritten.fits (wrote : Overwritten file idx chunks st st') (holds : Holds cfg st dict)
    (fit : 20 + read32 (st'.area file) (64 * chunks.1) / 2 ^ 20 ≤ 64 * chunks.2) (f : Option Nat) (i : Nat) (chunks' : Nat × Nat)
    (given : (st'.names f).given i = some chunks') : 20 + read32 (st'.area f) (64 * chunks'.1) / 2 ^ 20 ≤ 64 * chunks'.2 := by
  by_cases here : (f,i) = (file,idx)
  · cases here
    cases wrote.own.symm.trans given
    exact fit
  · rw [wrote.given f i here] at given
    rw [(wrote.read holds here given).2]
    exact holds.fits f i chunks' given

theorem Overwritten.stored (wrote : Overwritten file idx chunks st st') (linked : Linked st'.links (bucketIdx (cfg.hash2 name)) file idx)
    (hash : st'.hash file idx = (cfg.hash2 name).setWidth 28) (bytes : nameEntryAt (st'.area file) (64 * chunks.1) = (name,value)) :
    Stored cfg st' (file,idx) name value := by
  refine ⟨linked,hash,?_⟩
  rw [nameEntry,nameEntryPtr_given (wrote.held file),wrote.own]
  simp only [Option.map_some,bytes]

/-- A name that is not in the map is linked and written. -/
theorem Holds.append (holds : Holds cfg st dict) (absent : dict name = none) (consistent : Consistent st')
    (linked : ∀ b f i, Linked st'.links b f i ↔ Linked st.links b f i ∨ b = bucketIdx (cfg.hash2 name) ∧ (f,i) = (file,idx))
    (fresh : ∀ b, ¬Linked st.links b file idx) (wrote : Overwritten file idx chunks st st')
    (hash : st'.hash file idx = (cfg.hash2 name).setWidth 28) (bytes : nameEntryAt (st'.area file) (64 * chunks.1) = (name,value))
    (fit : 20 + read32 (st'.area file) (64 * chunks.1) / 2 ^ 20 ≤ 64 * chunks.2) : Holds cfg st' (update dict name (some value)) := by
  have own : Stored cfg st' (file,idx) name value := wrote.stored ((linked _ _ _).mpr (.inr ⟨rfl,rfl⟩)) hash bytes
  -- the entries before are not the new one
  have other : ∀ {b f i}, Linked st.links b f i → (f,i) ≠ (file,idx) := by
    intro b f i before here
    cases here
    exact fresh b before
  have keep : ∀ {f i name' value'}, Stored cfg st (f,i) name' value' → Stored cfg st' (f,i) name' value' := fun {f i _ _} stored =>
    ⟨(linked _ _ _).mpr (.inl stored.linked),(wrote.hash f i (other stored.linked)).trans stored.hash,
      (wrote.entry holds f i (other stored.linked)).trans stored.entry⟩
  refine ⟨consistent,fun b f i inside => ?_,?_,wrote.fits holds fit⟩
  · rcases (linked b f i).mp inside with before | ⟨_,here⟩
    · obtain ⟨name',value',stored⟩ := holds.filed b f i before
      exact ⟨name',value',keep stored⟩
    · cases here
      exact ⟨name,value,own⟩
  · refine holds.isMap.insert (file,idx) absent fun key name' value' => ⟨fun stored => ?_,?_⟩
    · rcases (linked _ _ _).mp stored.linked with before | ⟨_,here⟩
      · exact .inl ⟨before,(wrote.hash _ _ (other before)).symm.trans stored.hash,
          (wrote.entry holds _ _ (other before)).symm.trans stored.entry⟩
      · have here : key = (file,idx) := here
        subst here
        cases stored.entry.symm.trans own.entry
        exact .inr ⟨rfl,rfl,rfl⟩
    · rintro (stored | ⟨rfl,rfl,rfl⟩)
      · exact keep stored
      · exact own

/-- The value of a name is changed in its entry. -/
theorem Holds.overwrite (holds : Holds cfg st dict) {value' : Value} (stored : Stored cfg st (file,idx) name value)
    (consistent : Consistent st') (links : st'.links = st.links) (wrote : Overwritten file idx chunks st st')
    (hash : st'.hash file idx = st.hash file idx) (bytes : nameEntryAt (st'.area file) (64 * chunks.1) = (name,value'))
    (fit : 20 + read32 (st'.area file) (64 * chunks.1) / 2 ^ 20 ≤ 64 * chunks.2) : Holds cfg st' (update dict name (some value')) := by
  have own : Stored cfg st' (file,idx) name value' :=
    wrote.stored (by rw [links]; exact stored.linked) (hash.trans stored.hash) bytes
  have keep : ∀ {f i name1 value1}, (f,i) ≠ (file,idx) → (Stored cfg st' (f,i) name1 value1 ↔ Stored cfg st (f,i) name1 value1) := by
    intro f i name1 value1 other
    constructor
    · intro after
      exact ⟨by rw [← links]; exact after.linked,(wrote.hash f i other).symm.trans after.hash,
        (wrote.entry holds f i other).symm.trans after.entry⟩
    · intro before
      exact ⟨by rw [links]; exact before.linked,(wrote.hash f i other).trans before.hash,(wrote.entry holds f i other).trans before.entry⟩
  refine ⟨consistent,fun b f i inside => ?_,?_,wrote.fits holds fit⟩
  · by_cases here : (f,i) = (file,idx)
    · cases here
      exact ⟨name,value',own⟩
    · rw [links] at inside
      obtain ⟨name1,value1,before⟩ := holds.filed b f i inside
      exact ⟨name1,value1,(keep here).mpr before⟩
  · refine holds.isMap.replace stored (fun name1 value1 => stored.single) fun key name1 value1 => ⟨fun after => ?_,?_⟩
    · by_cases here : key = (file,idx)
      · subst here
        cases after.entry.symm.trans own.entry
        exact .inr ⟨rfl,rfl,rfl⟩
      · exact .inl ⟨(keep here).mp after,here⟩
    · rintro (⟨before,other⟩ | ⟨rfl,rfl,rfl⟩)
      · exact (keep other).mpr before
      · exact own

end Written

/-- A name is taken out of the list of its bucket. -/
theorem Holds.remove (holds : Holds cfg st dict) (stored : Stored cfg st (file,idx) name value)
    (deleted : Deleted (bucketIdx (cfg.hash2 name)) file idx st st') (hash : st'.hash = st.hash) (area : st'.area = st.area)
    (names : ∀ f i, (f,i) ≠ (file,idx) → (st'.names f).hashEntry i = (st.names f).hashEntry i)
    (given : ∀ f i chunks, (st'.names f).given i = some chunks → (st.names f).given i = some chunks) :
    Holds cfg st' (update dict name none) := by
  have other : ∀ {b f i}, Linked st'.links b f i → (f,i) ≠ (file,idx) := by
    intro b f i after here
    cases here
    exact deleted.gone holds.sound b after
  have entry : ∀ f i, (f,i) ≠ (file,idx) → nameEntry st' f i = nameEntry st f i := fun f i away => nameEntry_congr (names f i away) (by rw [area])
  have keep : ∀ {f i name' value'}, (f,i) ≠ (file,idx) → Stored cfg st (f,i) name' value' → Stored cfg st' (f,i) name' value' := by
    intro f i name' value' away before
    rcases (deleted.linked holds.sound _ f i).mp before.linked with after | ⟨_,here⟩
    · exact ⟨after,by rw [hash]; exact before.hash,(entry f i away).trans before.entry⟩
    · exact absurd here away
  refine ⟨deleted.consistent,fun b f i after => ?_,?_,fun f i chunks own => ?_⟩
  · obtain ⟨name',value',before⟩ := holds.filed b f i ((deleted.linked holds.sound b f i).mpr (.inl after))
    exact ⟨name',value',keep (other after) before⟩
  · refine holds.isMap.erase stored (fun name' value' => stored.single) fun key name' value' => ⟨fun after => ?_,?_⟩
    · refine ⟨⟨(deleted.linked holds.sound _ _ _).mpr (.inl after.linked),by rw [← hash]; exact after.hash,?_⟩,other after.linked⟩
      exact (entry _ _ (other after.linked)).symm.trans after.entry
    · rintro ⟨before,away⟩
      exact keep away before
  · rw [area]
    exact holds.fits f i chunks (given f i chunks own)

end Files

end Rozofs.Dirents
