import Rozofs.DirentEntries

/-! A client of a root file that notes the requests that were accepted: it knows what each further request
answers, over all runs of requests from a missing root file. -/
namespace Rozofs.Dirents
open Function (update)
open Bitmap (test)
open ByteMemory (Memory memcpy memcpy_outside write32_other)
open NameChunks (Held nbChunks)
open DirentRepair (Dirent)

/-- A root file that is missing holds no name. -/
def HoldsRoot (cfg : Config) : Option Files → Dict → Prop
  | none, dict => ∀ name, dict name = none
  | some st, dict => Holds cfg st dict

section Changes
variable {cfg : Config} {st : Files} {dict : Dict} {name : Name}

theorem Holds.missing (holds : Holds cfg st dict)
    (missed : ∀ path f i, Chained st.links (bucketIdx (cfg.hash2 name)) path → .next f i ∈ path → ¬Matches st (cfg.hash2 name) name f i) :
    dict name = none := by
  refine holds.isMap.absent.mpr fun key value stored => ?_
  obtain ⟨path,chained,member⟩ := stored.linked
  exact missed path key.1 key.2 chained member stored.matched

theorem Holds.marks (holds : Holds cfg st dict) (marks : Nat → BitVec 8) : Holds cfg { st with bucketSafeBitmap := marks } dict :=
  holds.kept (holds.toConsistent.marks marks) (fun _ _ _ => Iff.rfl) rfl (fun _ _ _ _ => rfl) holds.fits

/-- The search finds the entry of a name of the map. -/
theorem Holds.search (holds : Holds cfg st dict) (name : Name) :
    ∃ marks, (∃ position p, searchHashEntry cfg name st = ({ st with bucketSafeBitmap := marks },some position) ∧
        nameEntryPtr st position.cur.file position.idx = some p ∧
        Stored cfg st (position.cur.file,position.idx) name (valueAt (st.area position.cur.file) p)) ∨
      searchHashEntry cfg name st = ({ st with bucketSafeBitmap := marks },none) ∧ dict name = none := by
  obtain ⟨marks,⟨position,path,searched,chained,member,matched⟩ | ⟨searched,missed⟩⟩ := searchHashEntry_spec holds.toConsistent cfg name
  · obtain ⟨p,ptr,stored⟩ := matched.stored ⟨path,chained,member⟩
    exact ⟨marks,.inl ⟨position,p,searched,ptr,stored⟩⟩
  · exact ⟨marks,.inr ⟨searched,holds.missing missed⟩⟩

theorem writeNameEntry_outside {p a : Nat} (value : Value) (m : Memory) (out : a < p ∨ p + (20 + name.length) ≤ a) :
    writeNameEntry p name value m a = m a := by
  have size := value.fid.property
  rw [writeNameEntry,memcpy_outside (by omega),memcpy_outside (by omega),write32_other (by omega)]

/-- A name entry fits in the chunks for its name. -/
theorem size_le_chunks (len : Nat) : 20 + len ≤ 64 * nbChunks len := by
  rw [nbChunks]
  omega

/-- What is read in each file, when it is the same in the one that is changed. -/
theorem read_update {σ β : Type} {f file : Option Nat} (files : Option Nat → σ) (g : σ) (read : σ → β) (same : f = file → read g = read (files file)) :
    read (update files file g f) = read (files f) := by
  by_cases here : f = file
  · subst here
    rw [Function.update_self]
    exact same rfl
  · rw [Function.update_of_ne here]

/-- The bytes of the name entry are written in the chunks that are given to it. -/
theorem overwritten_fill {file : Option Nat} {idx start : Nat} (cfg : Config) (value : Value) (links : Dirent) (held : ∀ f, Held (st.names f))
    (put : Held (NameChunks.put idx start (nbChunks name.length) (st.names file))) : Overwritten file idx (start,nbChunks name.length) st { st with
      links := links
      hash := update st.hash file (update (st.hash file) idx ((cfg.hash2 name).setWidth 28))
      names := update st.names file (NameChunks.put idx start (nbChunks name.length) (st.names file))
      area := update st.area file (writeNameEntry (64 * start) name value (st.area file)) } := by
  have away : ∀ {f : Option Nat} {i : Nat}, (f,i) ≠ (file,idx) → f = file → i ≠ idx := fun other here same => other (by rw [here,same])
  refine ⟨fun f => ?_,?_,fun f i other => ?_,fun f i other => ?_,fun f other => Function.update_of_ne other _ _,fun a out => ?_⟩
  · by_cases here : f = file
    · subst here
      simp only [Function.update_self]
      exact put
    · simp only [Function.update_of_ne here]
      exact held f
  · simp only [Function.update_self,NameChunks.put]
  · exact read_update st.names _ (fun names => names.given i) fun here => Function.update_of_ne (away other here) _ _
  · exact read_update st.hash _ (fun hash => hash i) fun here => Function.update_of_ne (away other here) _ _
  · have enough := size_le_chunks name.length
    simp only [Function.update_self]
    simp only at out
    exact writeNameEntry_outside value _ (by omega)

/-- A name that is not in the map is put in it, or it is refused. -/
theorem Holds.appendEntry (holds : Holds cfg st dict) (absent : dict name = none) (value : Value)
    (room : ∃ c < 1024, test st.links.collBitmap c = true)
    (few : ∀ path, Chained st.links (bucketIdx (cfg.hash2 name)) path → (entriesOf path).length < entriesCount) (short : name.length ≤ 300) :
    ∃ st', appendEntry cfg name value st = some (st',true) ∧ Holds cfg st' (update dict name (some value)) ∨
      appendEntry cfg name value st = some (st',false) ∧ Holds cfg st' dict ∧
        (∀ i, (allocNameEntryIdx (bucketIdx (cfg.hash2 name)) st).2 ≠ some (none,i)) ∧
        ptr st.links (bucketIdx (cfg.hash2 name)) (.bucket none) = none := by
  rcases appendEntry_spec holds.toConsistent cfg value room few short with
    ⟨st',file,idx,done,appended,st1,links,granted,there,filled⟩ | ⟨st1,links,file,idx,done,consistent,lists,granted,full,memory⟩
  · have holds1 := holds.granted granted
    obtain ⟨consistent1,free⟩ := granted.consistent holds.toConsistent
    have before : Held (Files.names { st1 with links := links } file) := consistent1.held file
    obtain ⟨start,put,filled'⟩ := fillEntry_eq cfg value before there granted.fresh.low free short
    have same := congrArg Prod.fst (filled'.symm.trans filled)
    simp only at same
    subst same
    have wrote := overwritten_fill cfg value links consistent1.held put
    refine ⟨_,.inl ⟨done,holds1.append absent appended.consistent (fun b f i => ?_) (fun b linked => ?_) wrote ?_ ?_ ?_⟩⟩
    · exact (appended.linked holds.sound b f i).trans (or_congr (linked_lists holds.sound granted.lists).symm Iff.rfl)
    · obtain ⟨path,chained,member⟩ := linked
      exact granted.fresh.unlinked b path chained member
    · simp only [Function.update_self]
    · simp only [Function.update_self]
      exact (nameEntryAt_write _ _ value short).1
    · simp only [Function.update_self,(nameEntryAt_write _ _ value short).2]
      exact size_le_chunks name.length
  · have holds1 := holds.granted granted
    refine ⟨_,.inr ⟨done,holds1.kept consistent (fun b f i => ?_) rfl (fun _ _ _ _ => rfl) holds1.fits,full,memory⟩⟩
    exact (linked_lists holds.sound lists).trans (linked_lists holds.sound granted.lists).symm

/-- The fid of a name of the map is replaced, and its type is kept. -/
theorem Holds.putFid (holds : Holds cfg st dict) {file : Option Nat} {idx p : Nat} {value : Value} (marks : Nat → BitVec 8) (fid : Fid)
    (ptr : nameEntryPtr st file idx = some p) (stored : Stored cfg st (file,idx) name value) :
    Holds cfg { st with bucketSafeBitmap := marks, area := update st.area file (memcpy (st.area file) (p + 4) fid.val) }
      (update dict name (some ⟨fid,value.type⟩)) := by
  have entry := stored.entry
  rw [nameEntry,ptr,Option.map_some] at entry
  have bytes := Option.some.inj entry
  rw [nameEntryPtr_given (holds.held file)] at ptr
  obtain ⟨chunks,given,rfl⟩ := Option.map_eq_some_iff.mp ptr
  have inside := (holds.held file).inside idx chunks given
  have wrote : Overwritten file idx chunks st
      { st with bucketSafeBitmap := marks, area := update st.area file (memcpy (st.area file) (64 * chunks.1 + 4) fid.val) } := by
    refine ⟨holds.held,given,fun _ _ _ => rfl,fun _ _ _ => rfl,fun f other => Function.update_of_ne other _ _,fun a out => ?_⟩
    have size := fid.property
    have first := inside.some_chunk
    simp only [Function.update_self]
    exact memcpy_outside (by omega)
  refine holds.overwrite stored ((holds.toConsistent.marks marks).area _) rfl wrote rfl ?_ ?_
  · simp only [Function.update_self,(nameEntryAt_fid _ _ fid).1,bytes]
  · simp only [Function.update_self,(nameEntryAt_fid _ _ fid).2]
    exact holds.fits file idx chunks given

/-- A list is not longer than the names of the map are many: each of its entries has a name of its own. -/
theorem Holds.length_le (holds : Holds cfg st dict) {b : Nat} {path : List Slot} (chained : Chained st.links b path) (names : Finset Name)
    (all : ∀ name, dict name ≠ none → name ∈ names) : (entriesOf path).length ≤ names.card := by
  let nameOf := fun key : Option Nat × Nat => ((nameEntry st key.1 key.2).map Prod.fst).getD []
  have filed : ∀ key ∈ entriesOf path, ∃ value, Stored cfg st key (nameOf key) value := by
    intro key member
    obtain ⟨name,value,stored⟩ := holds.filed b key.1 key.2 ⟨path,chained,mem_entriesOf.mp member⟩
    have same : nameOf key = name := by simp only [nameOf,stored.entry,Option.map_some,Option.getD_some]
    rw [same]
    exact ⟨value,stored⟩
  rw [← List.toFinset_card_of_nodup chained.nodup_entriesOf]
  refine Finset.card_le_card_of_injOn nameOf (fun key member => ?_) fun key member key' member' same => ?_
  · obtain ⟨value,stored⟩ := filed key (List.mem_toFinset.mp member)
    exact all _ (by rw [holds.found stored]; exact Option.some_ne_none value)
  · obtain ⟨value,stored⟩ := filed key (List.mem_toFinset.mp member)
    obtain ⟨value',stored'⟩ := filed key' (List.mem_toFinset.mp member')
    rw [same] at stored
    exact holds.isMap.once key key' _ value value' stored stored'

/-- Without an allocated entry there is no name. -/
theorem Holds.empty (holds : Holds cfg st dict) (empty : checkEmpty st.links none = true) (name : Name) : dict name = none := by
  obtain ⟨entries,colls⟩ := (checkEmpty_iff st.links none).mp empty
  refine holds.isMap.absent.mpr fun key value stored => ?_
  obtain ⟨path,chained,member⟩ := stored.linked
  cases file : key.1 with
  | none =>
    rw [file] at member
    exact chained.unused entries key.2 member
  | some c =>
    rw [file] at member
    have there : (st.links.coll c).isSome = true := Option.isSome_iff_ne_none.mpr (chained.present member)
    have low := holds.sound.low c there
    rw [holds.sound.colls c,colls rfl c (Nat.lt_trans low (by decide))] at there
    cases there

theorem Holds.delColl (holds : Holds cfg st dict) {c : Nat} (empty : checkEmpty st.links (some c) = true)
    (mark : test st.collBitmapHashFull c = false) : Holds cfg { st with links := delCollisionPtr c st.links } dict := by
  have unused : ∀ b path, Chained st.links b path → ∀ i, .next (some c) i ∉ path := fun b path chained i =>
    chained.unused ((checkEmpty_iff st.links (some c)).mp empty).1 i
  refine holds.kept (holds.toConsistent.delColl empty mark) (fun b f i => ?_) rfl (fun _ _ _ _ => rfl) holds.fits
  exact linked_lists holds.sound fun b path list => list.delCollisionPtr (unused b path list)

/-- Files that are removed hold no name. -/
theorem HoldsRoot.filter {rest : Option Files} (holds : HoldsRoot cfg rest dict) (last : Bool) :
    HoldsRoot cfg (rest.filter fun st => !(last && checkEmpty st.links none)) dict := by
  cases rest with
  | none => exact holds
  | some st =>
    rw [Option.filter_some]
    split
    · exact holds
    · next dropped =>
      have both : last = true ∧ checkEmpty st.links none = true := by simpa using dropped
      exact Holds.empty holds both.2

theorem Holds.rest (holds : Holds cfg st dict) (file : Option Nat) (mark : ∀ c, file = some c → test st.collBitmapHashFull c = false) :
    HoldsRoot cfg (if checkEmpty st.links file then file.map fun collIdx => { st with links := delCollisionPtr collIdx st.links } else some st)
      dict := by
  split
  · next empty =>
    cases file with
    | none => exact holds.empty empty
    | some c => exact holds.delColl empty (mark c rfl)
  · exact holds

end Changes

section Requests
variable {cfg : Config} {st : Option Files} {dict : Dict} {name : Name}

theorem holds_createRoot (cfg : Config) : Holds cfg createRoot fun _ => none := by
  have none_linked : ∀ b f i, ¬Linked createRoot.links b f i := by
    rintro b f i ⟨path,chained,member⟩
    rw [list_createRoot chained] at member
    simp at member
  refine ⟨consistent_createRoot,fun b f i linked => absurd linked (none_linked b f i),⟨fun name value => ?_,?_⟩,fun f i chunks given => by cases given⟩
  · constructor
    · intro found
      cases found
    · rintro ⟨key,stored⟩
      exact absurd stored.linked (none_linked _ _ _)
  · intro key key' name value value' stored _
    exact absurd stored.linked (none_linked _ _ _)

/-- The first entry is in the root file. -/
theorem allocNameEntryIdx_createRoot (b : Nat) : (allocNameEntryIdx b createRoot).2 = some (none,0) := rfl

/-- The value of a name after it was put: the type is set by the first time. -/
def putValue (dict : Dict) (name : Name) (fid : Fid) (type : BitVec 32) : Value :=
  ⟨fid,((dict name).map Value.type).getD (type.setWidth 20)⟩

theorem putMdirentry_holds (holds : HoldsRoot cfg st dict) (fid : Fid) (type : BitVec 32) (place : Place cfg st (.put name fid type)) :
    ∃ after, putMdirentry cfg name fid type st = some (some after,true) ∧ Holds cfg after (update dict name (some (putValue dict name fid type))) ∨
      putMdirentry cfg name fid type st = some (some after,false) ∧ Holds cfg after dict ∧ dict name = none ∧
        ∃ before, st = some before ∧ ptr before.links (bucketIdx (cfg.hash2 name)) (.bucket none) = none := by
  obtain ⟨short,place⟩ := place
  cases st with
  | none =>
    have nothing : dict = fun _ => none := funext holds
    subst nothing
    have few : ∀ path, Chained createRoot.links (bucketIdx (cfg.hash2 name)) path → (entriesOf path).length < entriesCount := by
      intro path chained
      rw [list_createRoot chained]
      decide
    obtain ⟨after,⟨done,holds'⟩ | ⟨_,_,full,_⟩⟩ :=
      (holds_createRoot cfg).appendEntry rfl ⟨fid,type.setWidth 20⟩ ⟨0,by decide,free_createRoot 0⟩ few short
    · exact ⟨after,.inl ⟨by rw [putMdirentry,done,Option.map_some],holds'⟩⟩
    · exact absurd (allocNameEntryIdx_createRoot _) (full 0)
  | some before =>
    have holds : Holds cfg before dict := holds
    obtain ⟨room,few⟩ := place before rfl
    obtain ⟨marks,⟨position,p,searched,ptr,stored⟩ | ⟨searched,absent⟩⟩ := holds.search name
    · have found := holds.found stored
      have ptr' : nameEntryPtr { before with bucketSafeBitmap := marks } position.cur.file position.idx = some p := ptr
      have same : putValue dict name fid type = ⟨fid,(valueAt (before.area position.cur.file) p).type⟩ := by
        rw [putValue,found]
        rfl
      have changed := holds.putFid marks fid ptr stored
      rw [← same] at changed
      exact ⟨_,.inl ⟨by simp only [putMdirentry,searched,ptr'],changed⟩⟩
    · obtain ⟨after,⟨done,holds'⟩ | ⟨done,holds',_,memory⟩⟩ :=
        (holds.marks marks).appendEntry absent ⟨fid,type.setWidth 20⟩ room few short
      · refine ⟨after,.inl ⟨by simp only [putMdirentry,searched,done,Option.map_some],?_⟩⟩
        rw [putValue,absent]
        exact holds'
      · exact ⟨after,.inr ⟨by simp only [putMdirentry,searched,done,Option.map_some],holds',absent,before,rfl,memory⟩⟩

/-- The value of the map is read. -/
theorem getMdirentry_holds (holds : HoldsRoot cfg st dict) (name : Name) :
    (getMdirentry cfg name st).2 = dict name ∧ HoldsRoot cfg (getMdirentry cfg name st).1 dict := by
  cases st with
  | none => exact ⟨(holds name).symm,holds⟩
  | some before =>
    have holds : Holds cfg before dict := holds
    rw [getMdirentry]
    obtain ⟨marks,⟨position,p,searched,ptr,stored⟩ | ⟨searched,absent⟩⟩ := holds.search name
    · have ptr' : nameEntryPtr { before with bucketSafeBitmap := marks } position.cur.file position.idx = some p := ptr
      simp only [searched,ptr',Option.map_some]
      exact ⟨(holds.found stored).symm,holds.marks marks⟩
    · simp only [searched]
      exact ⟨absent.symm,holds.marks marks⟩

/-- The value of the map is given back, and the name is removed. -/
theorem delMdirentry_holds (holds : HoldsRoot cfg st dict) (name : Name) :
    (delMdirentry cfg name st).2 = dict name ∧ HoldsRoot cfg (delMdirentry cfg name st).1 (update dict name none) := by
  cases st with
  | none =>
    refine ⟨(holds name).symm,fun other => ?_⟩
    rw [Function.update_eq_self_iff.mpr (holds name).symm]
    exact holds other
  | some before =>
    have holds : Holds cfg before dict := holds
    rw [delMdirentry]
    rcases deleteHashEntry_spec holds.toConsistent cfg name with ⟨st1,removed,idx,done,deleted,erased⟩ | ⟨done,missed⟩
    · obtain ⟨p,ptr,stored⟩ := erased.matched.stored erased.linked
      obtain ⟨start,nb,names⟩ := erased.names
      have holds1 : Holds cfg st1 (update dict name none) := by
        refine holds.remove stored deleted erased.hash erased.area (fun f i other => ?_) fun f i chunks given => ?_
        · rw [names]
          refine read_update before.names _ (fun names => names.hashEntry i) fun here => ?_
          exact Function.update_of_ne (fun same => other (by rw [here,same])) _ _
        · rw [names] at given
          by_cases here : f = removed.file
          · subst here
            by_cases own : i = idx
            · simp only [own,Function.update_self,NameChunks.remove] at given
              cases given
            · simpa only [Function.update_self,NameChunks.remove,Function.update_of_ne own] using given
          · rwa [Function.update_of_ne here] at given
      simp only [done]
      refine ⟨?_,(holds1.rest removed.file deleted.mark).filter _⟩
      rw [holds.found stored,erased.value p ptr]
    · have absent := holds.missing missed
      simp only [done]
      refine ⟨absent.symm,?_⟩
      rw [Function.update_eq_self_iff.mpr absent.symm]
      exact holds

/-- What a request answers: if a name was put, or the value of a name that was there. -/
inductive Reply where
  | status (accepted : Bool)
  | value (found : Option Value)

/-- One request with its answer; `none` when it does not end. -/
def respond (cfg : Config) : Request → Option Files → Option (Option Files × Reply)
  | .put name fid type, st => (putMdirentry cfg name fid type st).map fun answer => (answer.1,.status answer.2)
  | .get name, st => some ((getMdirentry cfg name st).1,.value (getMdirentry cfg name st).2)
  | .del name, st => some ((delMdirentry cfg name st).1,.value (delMdirentry cfg name st).2)

/-- What the client notes: names that were accepted, and names that it has removed. -/
def noted : Request → Reply → Dict → Dict
  | .put name fid type, .status true, dict => update dict name (some (putValue dict name fid type))
  | .del name, _, dict => update dict name none
  | _, _, dict => dict

/-- The files and the notes after one request. -/
def observe (cfg : Config) (request : Request) (state : Option Files × Dict) : Option (Option Files × Dict) :=
  (respond cfg request state.1).map fun answer => (answer.1,noted request answer.2 state.2)

/-- One request keeps the notes true. -/
theorem observe_holds {request : Request} {st' : Option Files} {dict' : Dict} (holds : HoldsRoot cfg st dict) (place : Place cfg st request)
    (next : observe cfg request (st,dict) = some (st',dict')) : HoldsRoot cfg st' dict' := by
  cases request with
  | put name fid type =>
    obtain ⟨after,⟨done,holds'⟩ | ⟨done,holds',_⟩⟩ := putMdirentry_holds holds fid type place
    · simp only [observe,respond,done,Option.map_some,noted] at next
      cases next
      exact holds'
    · simp only [observe,respond,done,Option.map_some,noted] at next
      cases next
      exact holds'
  | get name =>
    cases next
    exact (getMdirentry_holds holds name).2
  | del name =>
    cases next
    exact (delMdirentry_holds holds name).2

theorem observe_run {state : Option Files × Dict}
    (run : Machine.Run (observe cfg) (fun state => Place cfg state.1) (none,fun _ => none) state) : HoldsRoot cfg state.1 state.2 := by
  have start : HoldsRoot cfg none fun _ => none := fun _ => rfl
  exact run.invariant (fun state : Option Files × Dict => HoldsRoot cfg state.1 state.2) start fun _ _ _ holds place next =>
    observe_holds holds place next

/-- While less than 384 names are noted, a name can be put as long as it is short and a collision file can be created. -/
theorem place_of_noted (run : Machine.Run (observe cfg) (fun state => Place cfg state.1) (none,fun _ => none) (st,dict)) (names : Finset Name)
    (all : ∀ name, dict name ≠ none → name ∈ names) (less : names.card < entriesCount) (short : name.length ≤ 300)
    (room : ∀ st', st = some st' → ∃ c < 1024, test st'.links.collBitmap c = true) (fid : Fid) (type : BitVec 32) :
    Place cfg st (.put name fid type) := by
  refine ⟨short,?_⟩
  rintro st' rfl
  have holds : Holds cfg st' dict := observe_run run
  exact ⟨room st' rfl,fun path chained => Nat.lt_of_le_of_lt (holds.length_le chained names all) less⟩

/-- After every run of requests from a missing root file, the answers are those of the notes: the search and the removal of a
name give the value that was noted last, a name that is noted is put again, and one that is not is
refused only when the root file has no memory for its bucket. -/
theorem requests_answer_as_noted (run : Machine.Run (observe cfg) (fun state => Place cfg state.1) (none,fun _ => none) (st,dict)) :
    (∀ name, (getMdirentry cfg name st).2 = dict name ∧ (delMdirentry cfg name st).2 = dict name) ∧
    ∀ name fid type, Place cfg st (.put name fid type) → ∃ after accepted, putMdirentry cfg name fid type st = some (after,accepted) ∧
      (accepted = false → dict name = none ∧
        ∃ before, st = some before ∧ ptr before.links (bucketIdx (cfg.hash2 name)) (.bucket none) = none) := by
  have holds : HoldsRoot cfg st dict := observe_run run
  refine ⟨fun name => ⟨(getMdirentry_holds holds name).1,(delMdirentry_holds holds name).1⟩,fun name fid type place => ?_⟩
  obtain ⟨after,⟨done,_⟩ | ⟨done,_,absent,memory⟩⟩ := putMdirentry_holds holds fid type place
  · exact ⟨some after,true,done,fun refused => by cases refused⟩
  · exact ⟨some after,false,done,fun _ => ⟨absent,memory⟩⟩

/-- Two names of one bucket are put, and the first one is removed. -/
theorem requests_answer_as_noted_bucket : ∃ st, (getMdirentry oneBucket [65] st).2 = none ∧
    (getMdirentry oneBucket [66] st).2 = some ⟨⟨List.replicate 16 8,by decide⟩,6#20⟩ ∧
    (delMdirentry oneBucket [66] st).2 = some ⟨⟨List.replicate 16 8,by decide⟩,6#20⟩ := by
  have computed : ((putMdirentry oneBucket [65] ⟨List.replicate 16 7,by decide⟩ 5#32 none).bind fun first =>
      (putMdirentry oneBucket [66] ⟨List.replicate 16 8,by decide⟩ 6#32 first.1).map fun second =>
        (first.1.map fun st => test st.links.collBitmap 0,second.2)) = some (some true,true) := by decide +kernel
  have start : HoldsRoot oneBucket none fun _ => none := fun _ => rfl
  have place : Place oneBucket none (.put [65] ⟨List.replicate 16 7,by decide⟩ 5#32) := ⟨by decide,fun st' none => by cases none⟩
  obtain ⟨first,⟨done,_⟩ | ⟨_,_,_,before,none,_⟩⟩ := putMdirentry_holds start ⟨List.replicate 16 7,by decide⟩ 5#32 place
  · rw [done,Option.bind_some,Option.map_some] at computed
    obtain ⟨second,done',seen⟩ := Option.map_eq_some_iff.mp computed
    have run : Machine.Run (observe oneBucket) (fun state => Place oneBucket state.1) (none,fun _ => none)
        (some first,noted (.put [65] ⟨List.replicate 16 7,by decide⟩ 5#32) (.status true) fun _ => none) :=
      Machine.Run.refl.tail (.put [65] ⟨List.replicate 16 7,by decide⟩ 5#32) place (by simp only [observe,respond,done,Option.map_some])
    have place' : Place oneBucket (some first) (.put [66] ⟨List.replicate 16 8,by decide⟩ 6#32) := by
      refine place_of_noted run {[65]} (fun name some => ?_) (by decide) (by decide) (fun st' same => ?_) _ _
      · rw [Finset.mem_singleton]
        by_contra other
        rw [noted,Function.update_of_ne other] at some
        exact some rfl
      · cases same
        exact ⟨0,by decide,Option.some.inj (congrArg Prod.fst seen)⟩
    have run' := run.tail (.put [66] ⟨List.replicate 16 8,by decide⟩ 6#32) place'
      (by simp only [observe,respond,done',Option.map_some]; rw [congrArg Prod.snd seen])
    have answers := (requests_answer_as_noted (run'.tail (.del [65]) trivial rfl)).1
    exact ⟨_,(answers [65]).1,(answers [66]).1,(answers [66]).2⟩
  · cases none

end Requests

end Rozofs.Dirents
