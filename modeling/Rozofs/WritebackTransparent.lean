import Rozofs.DirentWriteback

/-! What the write-back cache holds back is, over the disk, what was written: entries are flushed,
taken over and invalidated without a reader seeing it, as long as they are flushed in their own
export. -/
namespace Rozofs.DirentWriteback
open Extent

section Entries
variable {e : Entry} {w : Extent Byte} {i j : Nat}

/-- The run of the names array that a chunk may hold. -/
def Names (w : Extent Byte) : Prop := ∃ array, w.off = managementSz + chunkArraySz * array ∧ w.size = chunkArraySz

/-- The chunks of an entry have different offsets; what is pending has the place and the size of a
part. -/
structure Entry.Wf (e : Entry) : Prop where
  offsets : ∀ i < direntCacheMaxChunk, ∀ j < direntCacheMaxChunk, (e.chunk i).off ≠ 0 → (e.chunk i).off = (e.chunk j).off → i = j
  names : ∀ i < direntCacheMaxChunk, (e.chunk i).wrCpt ≠ 0 → Names ⟨(e.chunk i).off,(e.chunk i).size,(e.chunk i).data⟩
  header : e.wrCpt ≠ 0 → e.size = managementSz

theorem clean_iff : e.clean = true ↔ e.wrCpt = 0 ∧ ∀ i < direntCacheMaxChunk, (e.chunk i).wrCpt = 0 := by
  simp [Entry.clean]

theorem mem_pending : w ∈ e.pending ↔ e.wrCpt ≠ 0 ∧ w = ⟨0,e.size,e.header⟩ ∨
    ∃ i < direntCacheMaxChunk, (e.chunk i).wrCpt ≠ 0 ∧ w = ⟨(e.chunk i).off,(e.chunk i).size,(e.chunk i).data⟩ := by
  rw [Entry.pending,List.mem_append,List.mem_filterMap]
  apply or_congr
  · split
    · rename_i dirty
      simp [dirty]
    · rename_i tidy
      simp [not_not.mp tidy]
  · constructor
    · rintro ⟨i,low,found⟩
      split at found
      · rename_i dirty
        exact ⟨i,List.mem_range.mp low,dirty,(Option.some.inj found).symm⟩
      · cases found
    · rintro ⟨i,low,dirty,rfl⟩
      exact ⟨i,List.mem_range.mpr low,if_pos dirty⟩

theorem pending_of_clean (clean : e.clean = true) : e.pending = [] := by
  rw [List.eq_nil_iff_forall_not_mem]
  intro w member
  obtain ⟨tidy,chunks⟩ := clean_iff.mp clean
  rcases mem_pending.mp member with ⟨dirty,_⟩ | ⟨i,low,dirty,_⟩
  · exact dirty tidy
  · exact dirty (chunks i low)

theorem Names.apart_header {size : Nat} {data : Nat → Byte} (names : Names w) (small : size ≤ managementSz) :
    Apart ⟨0,size,data⟩ w := by
  obtain ⟨array,off,-⟩ := names
  intro a inside covers
  simp only [Covers,off] at inside covers
  omega

/-- Arrays of different offsets do not overlap. -/
theorem Names.apart {v : Extent Byte} (first : Names w) (second : Names v) (other : w.off ≠ v.off) : Apart w v := by
  obtain ⟨i,offW,sizeW⟩ := first
  obtain ⟨j,offV,sizeV⟩ := second
  intro a inside covers
  simp only [Covers,offW,sizeW,offV,sizeV,chunkArraySz] at inside covers other
  omega

theorem Entry.Wf.apart (wf : e.Wf) : e.pending.Pairwise Apart := by
  rw [Entry.pending,List.pairwise_append]
  refine ⟨?_,?_,?_⟩
  · split
    · exact List.pairwise_singleton _ _
    · exact List.Pairwise.nil
  · apply List.Pairwise.filterMap (R := fun i j => i < direntCacheMaxChunk ∧ j < direntCacheMaxChunk ∧ i ≠ j)
    · rintro i j ⟨lowI,lowJ,other⟩ w first v second
      simp only [Option.ite_none_right_eq_some] at first second
      obtain ⟨dirtyI,eqW⟩ := first
      obtain ⟨dirtyJ,eqV⟩ := second
      cases eqW
      cases eqV
      have namesI := wf.names i lowI dirtyI
      apply namesI.apart (wf.names j lowJ dirtyJ)
      intro same
      refine other (wf.offsets i lowI j lowJ ?_ same)
      obtain ⟨array,off,-⟩ := namesI
      simp only [managementSz] at off
      omega
    · rw [List.pairwise_iff_getElem]
      intro i j lowI lowJ less
      simp only [List.length_range] at lowI lowJ
      simp only [List.getElem_range]
      exact ⟨lowI,lowJ,Nat.ne_of_lt less⟩
  · intro w first v second
    rw [List.mem_filterMap] at second
    obtain ⟨j,low,found⟩ := second
    simp only [Option.ite_none_right_eq_some] at found
    obtain ⟨dirty,eqV⟩ := found
    cases eqV
    split at first
    · rename_i headed
      rw [List.mem_singleton.mp first]
      exact (wf.names j (List.mem_range.mp low) dirty).apart_header (Nat.le_of_eq (wf.header headed))
    · cases first

/-- A part is written in the cache: over any disk, the entry shows one more write. -/
theorem view_write {e' : Entry} (wf : e.Wf) (wf' : e'.Wf) (member : w ∈ e'.pending)
    (same : ∀ a, ¬w.Covers a → ∀ u : Extent Byte, u.Covers a → (u ∈ e'.pending ↔ u ∈ e.pending)) (f : Nat → Option Byte) :
    writeAll e'.pending f = Extent.write (writeAll e.pending f) w := by
  funext a
  by_cases covers : w.Covers a
  · rw [writeAll_of_mem wf'.apart member covers,write_of_covers covers]
  · rw [write_of_not covers]
    exact writeAll_congr wf'.apart wf.apart (same a covers) fun _ => rfl

/-- The management sectors are written. -/
def Entry.fillHeader (e : Entry) (w : Extent Byte) : Entry :=
  { e with header := w.data, size := w.size, wrCpt := increment e.wrCpt }

theorem Entry.Wf.fillHeader (wf : e.Wf) (size : w.size = managementSz) : (e.fillHeader w).Wf :=
  ⟨wf.offsets,wf.names,fun _ => size⟩

theorem view_fillHeader (wf : e.Wf) (off : w.off = 0) (size : w.size = managementSz) (counted : increment e.wrCpt ≠ 0)
    (f : Nat → Option Byte) : writeAll (e.fillHeader w).pending f = Extent.write (writeAll e.pending f) w := by
  have whole : w = ⟨0,w.size,w.data⟩ := by
    rw [← off]
  apply view_write wf (wf.fillHeader size)
  · exact mem_pending.mpr (.inl ⟨counted,whole⟩)
  · intro a out u covers
    rw [mem_pending,mem_pending]
    constructor
    · rintro (⟨_,here⟩ | chunk)
      · rw [here] at covers
        rw [whole] at out
        exact absurd covers out
      · exact .inr chunk
    · rintro (⟨dirty,rfl⟩ | chunk)
      · rw [Covers,off,size] at out
        rw [Covers] at covers
        simp only [wf.header dirty] at covers
        exact absurd covers out
      · exact .inr chunk

theorem findChunk_some {offset : Nat} (found : e.findChunk offset = some j) : j < direntCacheMaxChunk ∧
    ((e.chunk j).off = offset ∨
      (∀ i < direntCacheMaxChunk, (e.chunk i).off ≠ offset) ∧ ((e.chunk j).off = 0 ∨ (e.chunk j).wrCpt = 0)) := by
  rw [Entry.findChunk] at found
  cases first : (List.range direntCacheMaxChunk).find? fun i => (e.chunk i).off = offset with
  | some i =>
    rw [first,Option.some_or] at found
    cases found
    have shown := List.find?_some first
    exact ⟨List.mem_range.mp (List.mem_of_find?_eq_some first),.inl (of_decide_eq_true shown)⟩
  | none =>
    rw [first,Option.none_or] at found
    have shown := List.find?_some found
    refine ⟨List.mem_range.mp (List.mem_of_find?_eq_some found),.inr ⟨fun i low => ?_,of_decide_eq_true shown⟩⟩
    rw [List.find?_eq_none] at first
    exact fun same => first i (List.mem_range.mpr low) (decide_eq_true same)

theorem findChunk_none {offset : Nat} (missing : e.findChunk offset = none) (low : i < direntCacheMaxChunk) :
    (e.chunk i).off ≠ offset ∧ (e.chunk i).off ≠ 0 ∧ (e.chunk i).wrCpt ≠ 0 := by
  rw [Entry.findChunk,Option.or_eq_none_iff,List.find?_eq_none,List.find?_eq_none] at missing
  have other := missing.1 i (List.mem_range.mpr low)
  have busy := missing.2 i (List.mem_range.mpr low)
  simp only [decide_eq_true_eq,not_or] at other busy
  exact ⟨other,busy⟩

/-- A chunk that takes a run holds nothing else back. -/
def Entry.Takes (e : Entry) (j : Nat) (w : Extent Byte) : Prop :=
  j < direntCacheMaxChunk ∧ ((e.chunk j).off = w.off ∨
    (∀ i < direntCacheMaxChunk, (e.chunk i).off = w.off → i = j) ∧ (e.chunk j).wrCpt = 0)

theorem Entry.Wf.takes (wf : e.Wf) (found : e.findChunk w.off = some j) : e.Takes j w := by
  obtain ⟨low,same | ⟨other,free⟩⟩ := findChunk_some found
  · exact ⟨low,.inl same⟩
  · refine ⟨low,.inr ⟨fun i lowI same => absurd same (other i lowI),?_⟩⟩
    rcases free with zero | tidy
    · by_contra dirty
      obtain ⟨array,off,-⟩ := wf.names j low dirty
      simp only [managementSz,zero] at off
      omega
    · exact tidy

@[simp] theorem setChunk_same (c : ChunkCache) : (e.setChunk i c).chunk i = c := if_pos rfl

theorem setChunk_other (c : ChunkCache) (other : j ≠ i) : (e.setChunk i c).chunk j = e.chunk j := if_neg other

theorem Entry.Wf.fillChunk (wf : e.Wf) (takes : e.Takes j w) (names : Names w) : (e.fillChunk j w).Wf := by
  have unique : ∀ i < direntCacheMaxChunk, (e.chunk i).off = w.off → i = j := by
    intro i low same
    rcases takes.2 with here | ⟨alone,_⟩
    · refine (wf.offsets j takes.1 i low ?_ (here.trans same.symm)).symm
      obtain ⟨array,off,-⟩ := names
      rw [here,off,managementSz]
      omega
    · exact alone i low same
  constructor
  · intro i lowI k lowK real same
    by_cases atI : i = j
    · by_cases atK : k = j
      · rw [atI,atK]
      · rw [Entry.fillChunk,setChunk_other _ atK,atI,setChunk_same] at same
        exact absurd (unique k lowK same.symm) atK
    · by_cases atK : k = j
      · rw [Entry.fillChunk,setChunk_other _ atI,atK,setChunk_same] at same
        exact absurd (unique i lowI same) atI
      · rw [Entry.fillChunk,setChunk_other _ atI] at real same
        rw [setChunk_other _ atK] at same
        exact wf.offsets i lowI k lowK real same
  · intro i low dirty
    by_cases here : i = j
    · rw [here,Entry.fillChunk,setChunk_same]
      exact names
    · rw [Entry.fillChunk,setChunk_other _ here] at dirty ⊢
      exact wf.names i low dirty
  · exact wf.header

theorem view_fillChunk (wf : e.Wf) (takes : e.Takes j w) (names : Names w) (counted : increment (e.chunk j).wrCpt ≠ 0)
    (f : Nat → Option Byte) : writeAll (e.fillChunk j w).pending f = Extent.write (writeAll e.pending f) w := by
  apply view_write wf (wf.fillChunk takes names)
  · refine mem_pending.mpr (.inr ⟨j,takes.1,?_⟩)
    rw [Entry.fillChunk,setChunk_same]
    exact ⟨counted,rfl⟩
  · intro a out u covers
    rw [mem_pending,mem_pending]
    apply or_congr Iff.rfl
    constructor
    · rintro ⟨i,low,dirty,rfl⟩
      by_cases here : i = j
      · rw [here,Entry.fillChunk,setChunk_same] at covers
        exact absurd covers out
      · rw [Entry.fillChunk,setChunk_other _ here] at dirty ⊢
        exact ⟨i,low,dirty,rfl⟩
    · rintro ⟨i,low,dirty,rfl⟩
      by_cases here : i = j
      · -- the run that the chunk held has the place of the new one
        rw [here] at dirty covers
        rcases takes.2 with same | ⟨_,tidy⟩
        · obtain ⟨_,_,sizeW⟩ := names
          obtain ⟨_,_,sizeC⟩ := wf.names j takes.1 dirty
          simp only at sizeC
          simp only [Covers,same,sizeC] at covers
          rw [Covers,sizeW] at out
          exact absurd covers out
        · exact absurd tidy dirty
      · refine ⟨i,low,?_⟩
        rw [Entry.fillChunk,setChunk_other _ here]
        exact ⟨dirty,rfl⟩

/-- Chunk 0 once it is on disk. -/
def Entry.roomMade (e : Entry) : Entry := e.setChunk 0 { e.chunk 0 with wrCpt := 0 }

theorem roomMade_off (i : Nat) : (e.roomMade.chunk i).off = (e.chunk i).off := by
  by_cases here : i = 0
  · rw [here,Entry.roomMade,setChunk_same]
  · rw [Entry.roomMade,setChunk_other _ here]

theorem Entry.Wf.roomMade (wf : e.Wf) : e.roomMade.Wf := by
  constructor
  · intro i lowI j lowJ real same
    rw [roomMade_off] at real same
    rw [roomMade_off] at same
    exact wf.offsets i lowI j lowJ real same
  · intro i low dirty
    by_cases here : i = 0
    · rw [here,Entry.roomMade,setChunk_same] at dirty
      exact absurd rfl dirty
    · rw [Entry.roomMade,setChunk_other _ here] at dirty ⊢
      exact wf.names i low dirty
  · exact wf.header

/-- To write chunk 0 on disk changes nothing to what is seen. -/
theorem view_roomMade (wf : e.Wf) (dirty : (e.chunk 0).wrCpt ≠ 0) (f : Nat → Option Byte) :
    writeAll e.roomMade.pending (Extent.write f ⟨(e.chunk 0).off,(e.chunk 0).size,(e.chunk 0).data⟩) = writeAll e.pending f := by
  have first : (⟨(e.chunk 0).off,(e.chunk 0).size,(e.chunk 0).data⟩ : Extent Byte) ∈ e.pending :=
    mem_pending.mpr (.inr ⟨0,by decide,dirty,rfl⟩)
  have kept : ∀ u ∈ e.pending, u ≠ ⟨(e.chunk 0).off,(e.chunk 0).size,(e.chunk 0).data⟩ → u ∈ e.roomMade.pending := by
    intro u member other
    rcases mem_pending.mp member with head | ⟨i,low,held,rfl⟩
    · exact mem_pending.mpr (.inl head)
    · have away : i ≠ 0 := by
        intro here
        rw [here] at other
        exact other rfl
      refine mem_pending.mpr (.inr ⟨i,low,?_⟩)
      rw [Entry.roomMade,setChunk_other _ away]
      exact ⟨held,rfl⟩
  have fewer : ∀ u ∈ e.roomMade.pending, u ∈ e.pending ∧ Apart u ⟨(e.chunk 0).off,(e.chunk 0).size,(e.chunk 0).data⟩ := by
    intro u member
    have place := wf.names 0 (by decide) dirty
    rcases mem_pending.mp member with ⟨held,rfl⟩ | ⟨i,low,held,rfl⟩
    · refine ⟨mem_pending.mpr (.inl ⟨held,rfl⟩),place.apart_header (Nat.le_of_eq (wf.header held))⟩
    · by_cases here : i = 0
      · rw [here,Entry.roomMade,setChunk_same] at held
        exact absurd rfl held
      · rw [Entry.roomMade,setChunk_other _ here] at held ⊢
        refine ⟨mem_pending.mpr (.inr ⟨i,low,held,rfl⟩),(wf.names i low held).apart place fun same => ?_⟩
        obtain ⟨array,off,-⟩ := wf.names i low held
        refine here (wf.offsets i low 0 (by decide) ?_ same)
        simp only [managementSz] at off
        omega
  funext a
  by_cases covers : Covers (⟨(e.chunk 0).off,(e.chunk 0).size,(e.chunk 0).data⟩ : Extent Byte) a
  · rw [writeAll_of_not fun u member inside => (fewer u member).2 a inside covers,write_of_covers covers,
      writeAll_of_mem wf.apart first covers]
  · refine writeAll_congr wf.roomMade.apart wf.apart (fun u inside => ⟨fun member => (fewer u member).1,fun member => ?_⟩)
      fun _ => write_of_not covers
    refine kept u member fun same => ?_
    rw [same] at inside
    exact covers inside

end Entries

/-- What a reader of a file should see: the disk, with what the entry of the file holds back. -/
def view (s : State) (f : FileId) : Nat → Option Byte :=
  if (s.entries (getIndex f)).file = f then writeAll (s.entries (getIndex f)).pending (s.disk f) else s.disk f

/-- Invariant of the cache. An entry that holds something back is in use, at the index of its file;
an entry that is open has its file, and a file that is open without the cache has no entry. -/
structure Consistent (t : Traced) : Prop where
  wf : ∀ i, (t.cache.entries i).Wf
  busy : ∀ i, (t.cache.entries i).clean = false → (t.cache.entries i).state = true ∧ getIndex (t.cache.entries i).file = i
  cached : ∀ f i, t.cache.fds f = some (.cache i) →
    i = getIndex f ∧ (t.cache.entries i).file = f ∧ (t.cache.entries i).state = true ∧ (t.cache.entries i).locked = true
  direct : ∀ f g, t.cache.fds f = some (.file g) → g = f ∧ (t.cache.entries (getIndex f)).file ≠ f
  seen : ∀ f, view t.cache f = t.written f

section Steps
variable {t : Traced} {s : State} {f g : FileId} {i : Nat} {e : Entry}

@[simp] theorem setEntry_same : (s.setEntry i e).entries i = e := if_pos rfl

theorem setEntry_other {j : Nat} (other : j ≠ i) : (s.setEntry i e).entries j = s.entries j := if_neg other

theorem setDisk_same (contents : Nat → Option Byte) : (s.setDisk f contents).disk f = contents := if_pos rfl

theorem setDisk_other (contents : Nat → Option Byte) (other : g ≠ f) : (s.setDisk f contents).disk g = s.disk g := if_neg other

/-- An entry changes and its file stays: for each file that it may serve, the view is the new one. -/
theorem view_setEntry (same : e.file = (s.entries i).file)
    (pending : getIndex e.file = i → writeAll e.pending (s.disk e.file) = writeAll (s.entries i).pending (s.disk e.file)) :
    view (s.setEntry i e) f = view s f := by
  rw [view,view]
  by_cases here : getIndex f = i
  · rw [here,setEntry_same,same]
    by_cases owner : (s.entries i).file = f
    · have own : e.file = f := same.trans owner
      rw [if_pos owner,if_pos owner]
      rw [own] at pending
      exact pending here
    · rw [if_neg owner,if_neg owner]
      rfl
  · rw [setEntry_other here]
    rfl

theorem view_of_clean (clean : (s.entries (getIndex f)).clean = true) : view s f = s.disk f := by
  rw [view,pending_of_clean clean]
  split <;> rfl

theorem cleared_clean (e : Entry) : e.cleared.clean = true := clean_iff.mpr ⟨rfl,fun _ _ => rfl⟩

theorem Entry.Wf.cleared (wf : e.Wf) : e.cleared.Wf :=
  ⟨wf.offsets,fun _ _ dirty => absurd rfl dirty,fun dirty => absurd rfl dirty⟩

/-- The flush of an entry in its own export. -/
theorem Consistent.diskflush (consistent : Consistent t) (own : (t.cache.entries i).clean = false → (t.cache.entries i).file.eid = t.cache.eid)
    (run : diskflush t.cache i = some s) :
    Consistent { t with cache := s } ∧ (s.entries i).clean = true ∧ s.fds = t.cache.fds ∧ s.eid = t.cache.eid ∧
    (s.entries i).file = (t.cache.entries i).file ∧ (s.entries i).fd = (t.cache.entries i).fd ∧ (s.entries i).locked = false := by
  rw [DirentWriteback.diskflush] at run
  split at run
  · cases run
  · rename_i free
    split at run
    · rename_i clean
      cases run
      exact ⟨consistent,clean,rfl,rfl,rfl,rfl,Bool.not_eq_true _ ▸ free⟩
    · rename_i dirty
      cases run
      have dirty : (t.cache.entries i).clean = false := Bool.not_eq_true _ ▸ dirty
      obtain ⟨state,index⟩ := consistent.busy i dirty
      have target : t.cache.target i = (t.cache.entries i).file := by
        rw [State.target,← own dirty]
      refine ⟨⟨?_,?_,?_,?_,?_⟩,?_,rfl,rfl,?_,?_,?_⟩
      · intro j
        by_cases here : j = i
        · rw [here]
          simp only [setEntry_same]
          exact (consistent.wf i).cleared
        · simp only [setEntry_other here]
          exact consistent.wf j
      · intro j unclean
        by_cases here : j = i
        · rw [here] at unclean
          simp only [setEntry_same,cleared_clean] at unclean
          cases unclean
        · simp only [setEntry_other here] at unclean ⊢
          exact consistent.busy j unclean
      · intro f j opened
        obtain ⟨place,file,used,lock⟩ := consistent.cached f j opened
        by_cases here : j = i
        · rw [here] at lock
          exact absurd lock free
        · simp only [setEntry_other here]
          exact ⟨place,file,used,lock⟩
      · intro f g opened
        obtain ⟨same,other⟩ := consistent.direct f g opened
        refine ⟨same,?_⟩
        by_cases here : getIndex f = i
        · rw [here] at other ⊢
          simp only [setEntry_same]
          exact other
        · simp only [setEntry_other here]
          exact other
      · intro f
        rw [← consistent.seen f]
        by_cases here : getIndex f = i
        · rw [view_of_clean (by rw [here,setEntry_same]; exact cleared_clean _)]
          by_cases owner : (t.cache.entries i).file = f
          · rw [view,here,if_pos owner,target,owner]
            exact setDisk_same _
          · rw [view,here,if_neg owner,target]
            exact setDisk_other _ (Ne.symm owner)
        · have other : f ≠ t.cache.target i := by
            rw [target]
            intro same
            exact here (same ▸ index)
          rw [view,view,setEntry_other here]
          simp only [State.setEntry,setDisk_other _ other]
          rfl
      · simp only [setEntry_same]
        exact cleared_clean _
      · simp only [setEntry_same]
        rfl
      · simp only [setEntry_same]
        rfl
      · simp only [setEntry_same]
        exact Bool.not_eq_true _ ▸ free

/-- One entry changes, and no file is seen otherwise. -/
theorem Consistent.setEntry (consistent : Consistent t) (wf : e.Wf)
    (busy : e.clean = false → e.state = true ∧ getIndex e.file = i)
    (cached : ∀ f, t.cache.fds f = some (.cache i) → e.file = f ∧ e.state = true ∧ e.locked = true)
    (direct : ∀ f g, t.cache.fds f = some (.file g) → getIndex f = i → e.file ≠ f)
    (seen : ∀ f, view (t.cache.setEntry i e) f = view t.cache f) : Consistent { t with cache := t.cache.setEntry i e } := by
  constructor
  · intro j
    by_cases here : j = i
    · rw [here]
      simp only [setEntry_same]
      exact wf
    · simp only [setEntry_other here]
      exact consistent.wf j
  · intro j unclean
    by_cases here : j = i
    · rw [here] at unclean ⊢
      simp only [setEntry_same] at unclean ⊢
      exact busy unclean
    · simp only [setEntry_other here] at unclean ⊢
      exact consistent.busy j unclean
  · intro f j opened
    have old := consistent.cached f j opened
    by_cases here : j = i
    · subst here
      simp only [setEntry_same]
      exact ⟨old.1,cached f opened⟩
    · simp only [setEntry_other here]
      exact old
  · intro f g opened
    obtain ⟨same,other⟩ := consistent.direct f g opened
    refine ⟨same,?_⟩
    by_cases here : getIndex f = i
    · rw [here]
      simp only [setEntry_same]
      exact direct f g opened here
    · simp only [setEntry_other here]
      exact other
  · intro f
    exact (seen f).trans (consistent.seen f)

/-- A file is opened or closed. -/
theorem Consistent.setFd (consistent : Consistent t) (fd : Option Descriptor)
    (cached : ∀ i, fd = some (.cache i) →
      i = getIndex f ∧ (t.cache.entries i).file = f ∧ (t.cache.entries i).state = true ∧ (t.cache.entries i).locked = true)
    (direct : ∀ g, fd = some (.file g) → g = f ∧ (t.cache.entries (getIndex f)).file ≠ f) :
    Consistent { t with cache := t.cache.setFd f fd } := by
  refine ⟨consistent.wf,consistent.busy,?_,?_,consistent.seen⟩
  · intro g j opened
    simp only [State.setFd] at opened
    split at opened
    · rename_i same
      rw [same]
      exact cached j opened
    · exact consistent.cached g j opened
  · intro g k opened
    simp only [State.setFd] at opened
    split at opened
    · rename_i same
      rw [same]
      exact direct k opened
    · exact consistent.direct g k opened

/-- The lock of an entry is free when no file is open through it. -/
theorem Consistent.not_open (consistent : Consistent t) (free : (t.cache.entries i).locked = false) :
    t.cache.fds f ≠ some (.cache i) := by
  intro opened
  have lock := (consistent.cached f i opened).2.2.2
  rw [free] at lock
  cases lock

/-- A file takes an entry that holds nothing back. -/
theorem Consistent.takeEntry (consistent : Consistent t) (clean : (t.cache.entries (getIndex f)).clean = true)
    (closed : t.cache.fds f = none) (run : takeEntry t.cache (getIndex f) f = some (s,slot)) :
    slot = some (getIndex f) ∧ Consistent { t with cache := s.setFd f (some (.cache (getIndex f))) } := by
  rw [DirentWriteback.takeEntry] at run
  split at run
  · cases run
  · rename_i locked
    have free : (t.cache.entries (getIndex f)).locked = false := Bool.not_eq_true _ ▸ locked
    cases run
    refine ⟨rfl,?_⟩
    have taken : Consistent ⟨t.cache.setEntry (getIndex f)
        { t.cache.entries (getIndex f) with fd := 0, file := f, state := true, locked := true },t.written⟩ := by
      have wf := consistent.wf (getIndex f)
      apply consistent.setEntry
      · exact ⟨wf.offsets,wf.names,wf.header⟩
      · intro _
        exact ⟨rfl,rfl⟩
      · intro g opened
        exact absurd opened (consistent.not_open free)
      · intro g k opened _ same
        simp only at same
        rw [← same,closed] at opened
        cases opened
      · intro g
        by_cases here : getIndex g = getIndex f
        · have before : view t.cache g = t.cache.disk g := view_of_clean (by rw [here]; exact clean)
          rw [before]
          refine view_of_clean ?_
          rw [here,setEntry_same]
          exact clean
        · rw [view,view,setEntry_other here]
          rfl
    refine taken.setFd _ ?_ ?_
    · intro i same
      cases same
      simp only [setEntry_same]
      exact ⟨trivial,trivial,trivial,trivial⟩
    · intro g same
      cases same

theorem clean_of_free (consistent : Consistent t) (free : (!(t.cache.entries i).state || (t.cache.entries i).clean) = true) :
    (t.cache.entries i).clean = true := by
  by_contra dirty
  have unclean : (t.cache.entries i).clean = false := Bool.not_eq_true _ ▸ dirty
  rw [(consistent.busy i unclean).1,unclean] at free
  cases free

/-- `dirent_openat`. -/
theorem Consistent.openat (consistent : Consistent t) (closed : t.cache.fds f = none)
    (own : (t.cache.entries (getIndex f)).clean = false → (t.cache.entries (getIndex f)).file ≠ f →
      (t.cache.entries (getIndex f)).fd = -1 → (t.cache.entries (getIndex f)).file.eid = t.cache.eid)
    (run : openat t.cache f = some (s,fd)) : Consistent { t with cache := s.setFd f (some fd) } := by
  rw [DirentWriteback.openat,Option.map_eq_some_iff] at run
  obtain ⟨⟨s',slot⟩,run,result⟩ := run
  have take : ∀ t' : Traced, Consistent t' → (t'.cache.entries (getIndex f)).clean = true → t'.cache.fds f = none →
      t'.written = t.written → DirentWriteback.takeEntry t'.cache (getIndex f) f = some (s',slot) →
      Consistent { t with cache := s.setFd f (some fd) } := by
    intro t' good clean free same took
    obtain ⟨rfl,taken⟩ := good.takeEntry clean free took
    cases result
    rw [same] at taken
    exact taken
  simp only [wbcacheOpen] at run
  split at run
  · rename_i free
    exact take t consistent (clean_of_free consistent free) closed rfl run
  · rename_i used
    split at run
    · rename_i owner
      split at run
      · cases run
      · rename_i locked
        have free : (t.cache.entries (getIndex f)).locked = false := Bool.not_eq_true _ ▸ locked
        cases run
        cases result
        have unclean : (t.cache.entries (getIndex f)).clean = false := by
          cases clean : (t.cache.entries (getIndex f)).clean with
          | false => rfl
          | true => exact absurd (by rw [clean,Bool.or_true]) used
        have state := (consistent.busy _ unclean).1
        have locked : Consistent ⟨t.cache.setEntry (getIndex f) { t.cache.entries (getIndex f) with locked := true },t.written⟩ := by
          have wf := consistent.wf (getIndex f)
          apply consistent.setEntry
          · exact ⟨wf.offsets,wf.names,wf.header⟩
          · exact consistent.busy (getIndex f)
          · intro g opened
            exact absurd opened (consistent.not_open free)
          · intro g k opened here same
            have other := (consistent.direct g k opened).2
            rw [here] at other
            exact other same
          · intro g
            exact view_setEntry rfl fun _ => rfl
        refine locked.setFd _ ?_ ?_
        · intro i same
          cases same
          simp only [setEntry_same]
          exact ⟨trivial,owner,state,trivial⟩
        · intro g same
          cases same
    · rename_i other
      split at run
      · rename_i idle
        obtain ⟨flushed,flush,took⟩ := Option.bind_eq_some_iff.mp run
        obtain ⟨good,clean,fds,_⟩ := consistent.diskflush (fun unclean => own unclean other idle) flush
        exact take { t with cache := flushed } good clean (by simp only [fds]; exact closed) rfl took
      · cases run
        cases result
        refine consistent.setFd _ ?_ ?_
        · intro i same
          cases same
        · intro g same
          cases same
          exact ⟨rfl,other⟩

/-- A file gets one more write, in its entry or on disk. -/
theorem Consistent.written {w : Extent Byte} (consistent : Consistent t) (opened : t.cache.fds f = some (.cache i))
    (wf : e.Wf) (same : e.file = f ∧ e.state = true ∧ e.locked = true) (contents : Nat → Option Byte)
    (seen : writeAll e.pending contents = Extent.write (writeAll (t.cache.entries i).pending (t.cache.disk f)) w) :
    Consistent ⟨(t.cache.setDisk f contents).setEntry i e,t.setWritten f (Extent.write (t.written f) w)⟩ := by
  obtain ⟨place,owner,_⟩ := consistent.cached f i opened
  constructor
  · intro j
    by_cases here : j = i
    · rw [here]
      simp only [setEntry_same]
      exact wf
    · simp only [setEntry_other here]
      exact consistent.wf j
  · intro j unclean
    by_cases here : j = i
    · rw [here]
      simp only [setEntry_same]
      exact ⟨same.2.1,by rw [same.1,place]⟩
    · simp only [setEntry_other here] at unclean ⊢
      exact consistent.busy j unclean
  · intro g j there
    have old := consistent.cached g j there
    by_cases here : j = i
    · subst here
      have one : g = f := old.2.1.symm.trans owner
      simp only [setEntry_same]
      rw [one]
      exact ⟨place,same⟩
    · simp only [setEntry_other here]
      exact old
  · intro g k there
    obtain ⟨own,other⟩ := consistent.direct g k there
    refine ⟨own,?_⟩
    by_cases here : getIndex g = i
    · rw [here] at other ⊢
      simp only [setEntry_same]
      rw [same.1,← owner]
      exact other
    · simp only [setEntry_other here]
      exact other
  · intro g
    simp only [Traced.setWritten]
    by_cases one : g = f
    · rw [if_pos one,one,view,← place,setEntry_same,if_pos same.1]
      have before := consistent.seen f
      rw [view,← place,if_pos owner] at before
      rw [← before,← seen]
      simp only [State.setEntry,setDisk_same]
    · rw [if_neg one,← consistent.seen g,view,view]
      by_cases here : getIndex g = i
      · rw [here,setEntry_same,if_neg (by rw [same.1]; exact Ne.symm one),if_neg (by rw [owner]; exact Ne.symm one)]
        exact setDisk_other _ one
      · rw [setEntry_other here]
        simp only [State.setEntry,setDisk_other _ one]
        rfl

theorem setDisk_self : s.setDisk f (s.disk f) = s := by
  have same : (fun g => if g = f then s.disk f else s.disk g) = s.disk := by
    funext g
    split
    · rename_i here
      rw [here]
    · rfl
  rw [State.setDisk,same]

theorem names_extent (array : Nat) (data : Nat → Byte) : Names ((Part.names array).extent data) := ⟨array,rfl,rfl⟩

/-- `dirent_wbcache_write`. -/
theorem Consistent.wbcacheWrite (consistent : Consistent t) (opened : t.cache.fds f = some (.cache i)) (part : Part)
    (data : Nat → Byte) (own : makesRoom (t.cache.entries i) part = true → f.eid = t.cache.eid)
    (counted : increment (counterOf (t.cache.entries i) part) ≠ 0) :
    Consistent ⟨wbcacheWrite t.cache i (part.extent data),t.setWritten f (Extent.write (t.written f) (part.extent data))⟩ := by
  obtain ⟨place,owner,state,lock⟩ := consistent.cached f i opened
  have wf := consistent.wf i
  cases part with
  | header =>
    have good := consistent.written opened (wf.fillHeader (w := Part.header.extent data) rfl) ⟨owner,state,lock⟩ (t.cache.disk f)
      (view_fillHeader wf rfl rfl counted _)
    rw [setDisk_self] at good
    exact good
  | names array =>
    have names := names_extent array data
    have real : ((Part.names array).extent data).off ≠ 0 := by
      simp only [Part.extent,managementSz]
      omega
    simp only [DirentWriteback.wbcacheWrite]
    rw [if_neg real]
    cases found : (t.cache.entries i).findChunk ((Part.names array).extent data).off with
    | some j =>
      have takes := wf.takes found
      have count : increment ((t.cache.entries i).chunk j).wrCpt ≠ 0 := by
        have shown : (t.cache.entries i).findChunk ((Part.names array).extent fun _ => 0).off = some j := found
        rw [counterOf,shown] at counted
        exact counted
      have good := consistent.written opened (wf.fillChunk takes names) ⟨owner,state,lock⟩ (t.cache.disk f)
        (view_fillChunk wf takes names count _)
      rw [setDisk_self] at good
      exact good
    | none =>
      have room : makesRoom (t.cache.entries i) (.names array) = true := by
        have shown : (t.cache.entries i).findChunk ((Part.names array).extent fun _ => 0).off = none := found
        rw [makesRoom,shown]
        rfl
      have target : t.cache.target i = f := by
        rw [State.target,owner,← own room]
      obtain ⟨_,_,dirty⟩ := findChunk_none found (show 0 < direntCacheMaxChunk by decide)
      have takes : (t.cache.entries i).roomMade.Takes 0 ((Part.names array).extent data) := by
        refine ⟨by decide,.inr ⟨fun k low same => ?_,?_⟩⟩
        · rw [roomMade_off] at same
          exact absurd same (findChunk_none found low).1
        · rw [Entry.roomMade,setChunk_same]
      have count : increment ((t.cache.entries i).roomMade.chunk 0).wrCpt ≠ 0 := by
        rw [Entry.roomMade,setChunk_same]
        show increment 0 ≠ 0
        decide
      have good := consistent.written opened (wf.roomMade.fillChunk takes names) ⟨owner,state,lock⟩
        (Extent.write (t.cache.disk f) ⟨((t.cache.entries i).chunk 0).off,((t.cache.entries i).chunk 0).size,((t.cache.entries i).chunk 0).data⟩)
        (by rw [view_fillChunk wf.roomMade takes names count,view_roomMade wf dirty])
      simp only [chunkDiskflush,target,setEntry_same]
      have twice : ∀ (s : State) (a b : Entry), (s.setEntry i a).setEntry i b = s.setEntry i b := by
        intro s a b
        simp only [State.setEntry]
        congr 1
        funext j
        split <;> rfl
      rw [twice]
      exact good

/-- A write that does not go through the cache. -/
theorem Consistent.direct_write (consistent : Consistent t) (opened : t.cache.fds f = some (.file g)) (w : Extent Byte) :
    Consistent ⟨t.cache.setDisk g (Extent.write (t.cache.disk g) w),t.setWritten f (Extent.write (t.written f) w)⟩ := by
  obtain ⟨rfl,other⟩ := consistent.direct f g opened
  refine ⟨consistent.wf,consistent.busy,consistent.cached,consistent.direct,fun h => ?_⟩
  have before := consistent.seen h
  simp only [Traced.setWritten]
  by_cases one : h = g
  · rw [one,view,if_neg other] at before
    rw [if_pos one,one,view]
    simp only [State.setDisk]
    rw [if_neg other,if_pos trivial,← before]
  · rw [if_neg one,← before,view,view]
    simp only [State.setDisk,if_neg one]

/-- `dirent_wbcache_close`. -/
theorem Consistent.close (consistent : Consistent t) {fd : Descriptor} (opened : t.cache.fds f = some fd) :
    Consistent { t with cache := (close t.cache fd).setFd f none } := by
  have shut : Consistent { t with cache := t.cache.setFd f none } := by
    refine consistent.setFd none ?_ ?_
    · intro i same
      cases same
    · intro g same
      cases same
  cases fd with
  | file g => exact shut
  | cache i =>
    obtain ⟨place,owner,_⟩ := consistent.cached f i opened
    have wf := consistent.wf i
    have good : Consistent ⟨(t.cache.setFd f none).setEntry i { t.cache.entries i with fd := -1, locked := false },t.written⟩ := by
      apply shut.setEntry
      · exact ⟨wf.offsets,wf.names,wf.header⟩
      · exact consistent.busy i
      · intro g there
        simp only [State.setFd] at there
        split at there
        · cases there
        · rename_i other
          exact absurd ((consistent.cached g i there).2.1.symm.trans owner) other
      · intro g k there here same
        have apart := (shut.direct g k there).2
        rw [here] at apart
        exact apart same
      · intro g
        exact view_setEntry rfl fun _ => rfl
    exact good

/-- The entry of a file that is removed holds nothing back. -/
theorem Consistent.unlink (consistent : Consistent t) (run : checkInvalidateOnUnlink t.cache f = some s) :
    Consistent ⟨s.setDisk f fun _ => none,t.setWritten f fun _ => none⟩ := by
  -- the file is removed once its entry is clean, or is the entry of another file
  have removed : ∀ s : State, Consistent { t with cache := s } →
      ((s.entries (getIndex f)).clean = true ∨ (s.entries (getIndex f)).file ≠ f) →
      Consistent ⟨s.setDisk f fun _ => none,t.setWritten f fun _ => none⟩ := by
    intro s good gone
    refine ⟨good.wf,good.busy,good.cached,good.direct,fun g => ?_⟩
    simp only [Traced.setWritten]
    by_cases one : g = f
    · rw [if_pos one,one,view]
      simp only [State.setDisk,if_true]
      split
      · rename_i owner
        rw [pending_of_clean (gone.resolve_right fun other => other owner)]
        rfl
      · rfl
    · rw [if_neg one,← good.seen g,view,view]
      simp only [State.setDisk,if_neg one]
  simp only [checkInvalidateOnUnlink] at run
  split at run
  · rename_i free
    cases run
    exact removed _ consistent (.inl (clean_of_free consistent free))
  · split at run
    · rename_i other
      cases run
      exact removed _ consistent (.inr other)
    · split at run
      · cases run
      · rename_i owner locked
        have owner := not_not.mp owner
        have free : (t.cache.entries (getIndex f)).locked = false := Bool.not_eq_true _ ▸ locked
        cases run
        have wf := consistent.wf (getIndex f)
        -- what the entry held back was only of the file that is removed
        have cleared : Consistent ⟨(t.cache.setDisk f fun _ => none).setEntry (getIndex f)
            { (t.cache.entries (getIndex f)).cleared with state := false },t.setWritten f fun _ => none⟩ := by
          constructor
          · intro j
            by_cases here : j = getIndex f
            · rw [here]
              simp only [setEntry_same]
              exact ⟨wf.cleared.offsets,wf.cleared.names,wf.cleared.header⟩
            · simp only [setEntry_other here]
              exact consistent.wf j
          · intro j unclean
            by_cases here : j = getIndex f
            · rw [here] at unclean
              simp only [setEntry_same] at unclean
              have tidy := cleared_clean (t.cache.entries (getIndex f))
              exact absurd (tidy.symm.trans unclean) (by decide)
            · simp only [setEntry_other here] at unclean ⊢
              exact consistent.busy j unclean
          · intro g j opened
            by_cases here : j = getIndex f
            · rw [here] at opened
              exact absurd opened (consistent.not_open free)
            · simp only [setEntry_other here]
              exact consistent.cached g j opened
          · intro g k opened
            obtain ⟨own,apart⟩ := consistent.direct g k opened
            refine ⟨own,?_⟩
            by_cases here : getIndex g = getIndex f
            · rw [here] at apart ⊢
              simp only [setEntry_same]
              exact apart
            · simp only [setEntry_other here]
              exact apart
          · intro g
            simp only [Traced.setWritten]
            by_cases here : getIndex g = getIndex f
            · rw [view_of_clean (by rw [here,setEntry_same]; exact cleared_clean _)]
              by_cases one : g = f
              · rw [if_pos one,one]
                exact setDisk_same _
              · rw [if_neg one,← consistent.seen g,view,here,if_neg (by rw [owner]; exact Ne.symm one)]
                exact setDisk_other _ one
            · have one : g ≠ f := fun same => here (by rw [same])
              rw [if_neg one,← consistent.seen g,view,view,setEntry_other here]
              simp only [State.setEntry,setDisk_other _ one]
              rfl
        exact cleared

/-- `dirent_wbcache_check_flush_on_read`: the file is then on disk as it was written. -/
theorem Consistent.read (consistent : Consistent t) (here : f.eid = t.cache.eid) (run : checkFlushOnRead t.cache f = some s) :
    Consistent { t with cache := s } ∧ s.disk f = t.written f := by
  simp only [checkFlushOnRead] at run
  split at run
  · rename_i free
    cases run
    refine ⟨consistent,?_⟩
    rw [← consistent.seen f,view_of_clean (clean_of_free consistent free)]
  · split at run
    · rename_i other
      cases run
      refine ⟨consistent,?_⟩
      rw [← consistent.seen f,view,if_neg other]
    · rename_i owner
      have owner := not_not.mp owner
      obtain ⟨good,clean,_⟩ := consistent.diskflush (fun _ => by rw [owner]; exact here) run
      refine ⟨good,?_⟩
      rw [← good.seen f,view_of_clean clean]

theorem Consistent.step {a : Action} {t' : Traced} (consistent : Consistent t) (good : flushesInExport t a = true)
    (next : step a t = some t') : Consistent t' := by
  cases a with
  | setExport eid =>
    cases next
    exact ⟨consistent.wf,consistent.busy,consistent.cached,consistent.direct,consistent.seen⟩
  | openFile dirFid pathname =>
    simp only [DirentWriteback.step] at next
    split at next
    · cases next
    · rename_i closed
      obtain ⟨⟨s,fd⟩,run,rfl⟩ := Option.map_eq_some_iff.mp next
      refine consistent.openat (not_not.mp closed) (fun dirty other idle => ?_) run
      simpa [flushesInExport,dirty,other,idle] using good
  | write f part data =>
    obtain ⟨fd,opened,rfl⟩ := Option.map_eq_some_iff.mp next
    cases fd with
    | cache i =>
      simp only [flushesInExport,opened,Bool.and_eq_true,Bool.or_eq_true,Bool.not_eq_true',decide_eq_true_eq] at good
      refine consistent.wbcacheWrite opened part data (fun room => ?_) good.2
      exact good.1.resolve_left (by rw [room]; decide)
    | file g => exact consistent.direct_write opened _
  | close f =>
    obtain ⟨fd,opened,rfl⟩ := Option.map_eq_some_iff.mp next
    exact consistent.close opened
  | read dirFid pathname =>
    obtain ⟨s,run,rfl⟩ := Option.map_eq_some_iff.mp next
    exact (consistent.read rfl run).1
  | unlink dirFid pathname =>
    simp only [DirentWriteback.step] at next
    split at next
    · cases next
    · obtain ⟨s,run,rfl⟩ := Option.map_eq_some_iff.mp next
      exact consistent.unlink run
  | flush i =>
    simp only [DirentWriteback.step] at next
    split at next
    · cases next
      exact consistent
    · obtain ⟨s,run,rfl⟩ := Option.map_eq_some_iff.mp next
      refine (consistent.diskflush (fun dirty => ?_) run).1
      simpa [flushesInExport,dirty] using good

theorem consistent_initial (disk : FileId → Nat → Option Byte) (eid : Nat) : Consistent (initial disk eid) := by
  have clean : emptyEntry.clean = true := by decide
  refine ⟨fun i => ⟨?_,?_,?_⟩,?_,?_,?_,?_⟩
  · intro i _ j _ real
    exact absurd rfl real
  · intro i _ dirty
    exact absurd rfl dirty
  · intro dirty
    exact absurd rfl dirty
  · intro i dirty
    exact absurd (clean.symm.trans dirty) (by decide)
  · intro f i opened
    cases opened
  · intro f g opened
    cases opened
  · intro f
    exact view_of_clean clean

theorem Consistent.transparent (consistent : Consistent t) : Transparent t := by
  refine ⟨fun dirFid pathname s run => (consistent.read rfl run).2,fun f a empty => ?_⟩
  rw [← consistent.seen f,view] at empty
  split at empty
  · exact of_writeAll_eq_none empty
  · exact empty

end Steps

/-- In every run in which entries are flushed in their own export and no write counter comes back to
0, a read returns what was last written in the file, and what was removed is not on disk. -/
theorem writeback_transparent (disk : FileId → Nat → Option Byte) (eid : Nat) {t : Traced}
    (run : Machine.Run step (fun t a => flushesInExport t a = true) (initial disk eid) t) : Transparent t := by
  have consistent : Consistent t := run.invariant Consistent (consistent_initial disk eid) fun _ _ _ held good next =>
    held.step good next
  exact consistent.transparent

/-- The first root file of a directory, `d_0`. -/
def rootName : List Byte := [0x64,0x5f,0x30]

/-- The identifiers of two directories whose first root files have one entry of the cache. -/
def dirA : List Byte := [0,0,0,0,0,0,0,0,0,0,0,0,0,0,0x02,0x42]

def dirB : List Byte := [0,0,0,0,0,0,0,0,0,0,0,0,0,0,0x08,0x00]

def noFile : FileId → Nat → Option Byte := fun _ _ => none

/-- The second directory takes the entry of the first one, which is read after a flush; the file of
the second one is removed with what the cache holds of it. -/
theorem writeback_transparent_collision : ∃ t : Traced,
    Machine.Run step (fun t a => flushesInExport t a = true) (initial noFile 1) t ∧ Transparent t ∧
    t.cache.disk ⟨1,dirA,rootName⟩ 4608 = some 8 ∧ t.cache.disk ⟨1,dirB,rootName⟩ 0 = none := by
  have done : (Machine.exec step (fun t a => flushesInExport t a = true)
      [.openFile dirA rootName,.write ⟨1,dirA,rootName⟩ .header (fun _ => 7),.write ⟨1,dirA,rootName⟩ (.names 0) (fun _ => 8),
        .close ⟨1,dirA,rootName⟩,.openFile dirB rootName,.write ⟨1,dirB,rootName⟩ .header (fun _ => 9),
        .close ⟨1,dirB,rootName⟩,.unlink dirB rootName,.flush (getIndex ⟨1,dirB,rootName⟩)] (initial noFile 1)).map
      (fun t => (t.cache.disk ⟨1,dirA,rootName⟩ 4608,t.cache.disk ⟨1,dirB,rootName⟩ 0)) = some (some 8,none) := by decide +kernel
  obtain ⟨t,done,seen⟩ := Option.map_eq_some_iff.mp done
  have run : Machine.Run step (fun t a => flushesInExport t a = true) (initial noFile 1) t := Machine.Run.refl.exec done
  exact ⟨t,run,writeback_transparent noFile 1 run,congrArg Prod.fst seen,congrArg Prod.snd seen⟩

/-- A file of export 1 is written in the cache and export 9 becomes the current one; the background
flush then writes the file under the root path of export 9, and a read in export 1 finds nothing. -/
theorem flushed_in_other_export : ∃ t : Traced,
    Machine.Run step (fun _ _ => True) (initial noFile 1) t ∧ ¬Transparent t := by
  have done : (Machine.exec step (fun _ _ => True)
      [.openFile dirA rootName,.write ⟨1,dirA,rootName⟩ .header (fun _ => 7),.close ⟨1,dirA,rootName⟩,.setExport 9,
        .flush (getIndex ⟨1,dirA,rootName⟩),.setExport 1] (initial noFile 1)).map
      (fun t => ((checkFlushOnRead t.cache ⟨t.cache.eid,dirA,rootName⟩).map fun s => s.disk ⟨t.cache.eid,dirA,rootName⟩ 0,
        t.written ⟨t.cache.eid,dirA,rootName⟩ 0)) = some (some none,some 7) := by decide +kernel
  obtain ⟨t,done,seen⟩ := Option.map_eq_some_iff.mp done
  refine ⟨t,Machine.Run.refl.exec done,fun transparent => ?_⟩
  obtain ⟨read,written⟩ := Prod.mk.inj seen
  obtain ⟨s,run,lost⟩ := Option.map_eq_some_iff.mp read
  rw [transparent.1 dirA rootName s run,written] at lost
  cases lost

end Rozofs.DirentWriteback
