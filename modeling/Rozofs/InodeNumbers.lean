import Rozofs.TrackingSlots

/-! The number of a live inode is not given again, and its attributes stay on disk. -/
namespace Rozofs.Tracking
open Function (update)

variable {c : Config} {f : TrackingFile} {i : Nat} {b : List UInt8}

section Slice
variable {file : Nat → Option TrackingFile} {header : Option Header} {h : Header} {given : Nat → Nat → Bool}
  {attrs : Nat → Nat → Option (List UInt8)} {k : Nat}

/-- The invariant of a slice. The numbers given since the start are behind the next one to give, and
so are those of the live objects in the file that is open for allocation. -/
structure Kept (c : Config) (file : Nat → Option TrackingFile) (header : Option Header) (given : Nat → Nat → Bool)
    (attrs : Nat → Nat → Option (List UInt8)) : Prop where
  stored : ∀ k i b, attrs k i = some b → ∃ f, file k = some f ∧ Holds c f i b
  shaped : ∀ k f, file k = some f → Shaped c f
  behind : ∀ h, header = some h → h.indexAvailable = true → ∀ i b, attrs h.lastIdx i = some b → i < h.curIdx
  opened : ∀ h, header = some h → h.indexAvailable = true → h.curIdx < maxInodePerFile ∧ ∀ f, file h.lastIdx = some f → fileHeaderSize ≤ f.size
  given : ∀ k i, given k i = true → i < maxInodePerFile ∧ (∀ f, file k = some f → fileHeaderSize ≤ f.size) ∧
    ∃ h, header = some h ∧ (k < h.lastIdx ∨ k = h.lastIdx ∧ h.indexAvailable = true ∧ i < h.curIdx)

theorem Kept.stored_file (kept : Kept c file header given attrs) (live : attrs k i = some b) (here : file k = some f) : Holds c f i b := by
  obtain ⟨f',there,holds⟩ := kept.stored k i b live
  rw [here] at there
  cases there
  exact holds

/-- A change of one file that keeps what it holds. -/
theorem Kept.setFile (kept : Kept c file header given attrs) {f' : Option TrackingFile}
    (stored : ∀ i b, attrs k i = some b → ∃ f, f' = some f ∧ Holds c f i b)
    (shaped : ∀ f, f' = some f → Shaped c f)
    (long : ∀ f, f' = some f → (∃ f₀, file k = some f₀ ∧ (fileHeaderSize ≤ f₀.size → fileHeaderSize ≤ f.size)) ∨
      ((∀ i, given k i = false) ∧ ∀ h, header = some h → h.indexAvailable = true → k ≠ h.lastIdx)) :
    Kept c (update file k f') header given attrs := by
  refine ⟨fun k' i b live => ?_,fun k' f here => ?_,kept.behind,fun h there ready => ⟨(kept.opened h there ready).1,fun f here => ?_⟩,
    fun k' i mine => ⟨(kept.given k' i mine).1,fun f here => ?_,(kept.given k' i mine).2.2⟩⟩
  · by_cases own : k' = k
    · subst own
      rw [Function.update_self]
      exact stored i b live
    · rw [Function.update_of_ne own]
      exact kept.stored k' i b live
  · by_cases own : k' = k
    · rw [own,Function.update_self] at here
      exact shaped f here
    · rw [Function.update_of_ne own] at here
      exact kept.shaped k' f here
  · by_cases own : h.lastIdx = k
    · rw [own,Function.update_self] at here
      rcases long f here with ⟨f₀,before,grows⟩ | ⟨_,closed⟩
      · exact grows ((kept.opened h there ready).2 f₀ (own ▸ before))
      · exact absurd own.symm (closed h there ready)
    · rw [Function.update_of_ne own] at here
      exact (kept.opened h there ready).2 f here
  · by_cases own : k' = k
    · subst own
      rw [Function.update_self] at here
      rcases long f here with ⟨f₀,before,grows⟩ | ⟨none,_⟩
      · exact grows ((kept.given k' i mine).2.1 f₀ before)
      · rw [none i] at mine
        cases mine
    · rw [Function.update_of_ne own] at here
      exact (kept.given k' i mine).2.1 f here

/-- A file goes that holds nothing. -/
theorem Kept.unlink (kept : Kept c file header given attrs) (empty : ∀ i b, attrs k i ≠ some b) : Kept c (update file k none) header given attrs := by
  apply kept.setFile
  · intro i b live
    exact absurd live (empty i b)
  · intro f none
    cases none
  · intro f none
    cases none

theorem Kept.first (kept : Kept c file (some h) given attrs) (first : Nat) : Kept c file (some { h with firstIdx := first }) given attrs := by
  refine ⟨kept.stored,kept.shaped,fun h' same ready => ?_,fun h' same ready => ?_,fun k i mine => ⟨(kept.given k i mine).1,(kept.given k i mine).2.1,_,rfl,?_⟩⟩
  · cases same
    exact kept.behind h rfl ready
  · cases same
    exact kept.opened h rfl ready
  · obtain ⟨h',same,behind⟩ := (kept.given k i mine).2.2
    cases same
    exact behind

/-- The numbers given are in the files up to the last one. -/
theorem Kept.not_last (kept : Kept c file (some h) given attrs) (closed : h.indexAvailable = false) : ∀ i, given h.lastIdx i = false := by
  intro i
  by_contra mine
  obtain ⟨h',same,behind⟩ := (kept.given h.lastIdx i (by simpa using mine)).2.2
  cases same
  rcases behind with less | ⟨_,ready,_⟩
  · exact absurd less (Nat.lt_irrefl _)
  · rw [closed] at ready
    cases ready

/-- The next file is the last one. -/
theorem Kept.increment (kept : Kept c file (some h) given attrs) (cur : Nat) :
    Kept c file (some { h with lastIdx := h.lastIdx + 1, indexAvailable := false, curIdx := cur }) given attrs := by
  refine ⟨kept.stored,kept.shaped,fun h' same ready => ?_,fun h' same ready => ?_,fun k i mine => ⟨(kept.given k i mine).1,(kept.given k i mine).2.1,_,rfl,.inl ?_⟩⟩
  · cases same
    cases ready
  · cases same
    cases ready
  · obtain ⟨h',same,behind⟩ := (kept.given k i mine).2.2
    cases same
    show k < h.lastIdx + 1
    omega

/-- The last file is open at an index after those of its live objects. -/
theorem Kept.available (kept : Kept c file (some h) given attrs) (closed : h.indexAvailable = false) {cur : Nat} (index : cur < maxInodePerFile)
    (above : ∀ i b, attrs h.lastIdx i = some b → i < cur) (long : ∀ f, file h.lastIdx = some f → fileHeaderSize ≤ f.size) :
    Kept c file (some { h with indexAvailable := true, curIdx := cur }) given attrs := by
  refine ⟨kept.stored,kept.shaped,fun h' same ready => ?_,fun h' same ready => ?_,fun k i mine => ⟨(kept.given k i mine).1,(kept.given k i mine).2.1,_,rfl,.inl ?_⟩⟩
  · cases same
    exact above
  · cases same
    exact ⟨index,long⟩
  · obtain ⟨h',same,behind⟩ := (kept.given k i mine).2.2
    cases same
    rcases behind with less | ⟨_,ready,_⟩
    · exact less
    · rw [closed] at ready
      cases ready

section Open
variable {s : Slice} (io : Nat → OpenIo)

@[simp] theorem setFile_file (s : Slice) (k : Nat) (f : Option TrackingFile) : (s.setFile k f).file = update s.file k f := rfl

@[simp] theorem setFile_header (s : Slice) (k : Nat) (f : Option TrackingFile) : (s.setFile k f).header = s.header := rfl

@[simp] theorem writeMainTrackingFile_file (io : MainIo) (change : Replica → Replica) (s : Slice) :
    (writeMainTrackingFile io change s).1.file = s.file := rfl

@[simp] theorem writeMainTrackingFile_header (io : MainIo) (change : Replica → Replica) (s : Slice) :
    (writeMainTrackingFile io change s).1.header = s.header := rfl

/-- The invariant after an opening, and that the file is open when it succeeds. -/
def OpenedTo (c : Config) (given : Nat → Nat → Bool) (attrs : Nat → Nat → Option (List UInt8)) (r : Slice × Header × Bool) : Prop :=
  Kept c r.1.file (some r.2.1) given attrs ∧ (r.2.2 = true → r.2.1.indexAvailable = true)

theorem Kept.failed (kept : Kept c s.file (some h) given attrs) : OpenedTo c given attrs (s,h,false) :=
  ⟨kept,fun never => nomatch never⟩

/-- The last file does not exist. -/
theorem Kept.created (kept : Kept c s.file (some h) given attrs) (closed : h.indexAvailable = false) (absent : s.file h.lastIdx = none) (n : Nat) :
    Kept c (update s.file h.lastIdx (some (.create n))) (some h) given attrs := by
  apply kept.setFile
  · intro i b live
    obtain ⟨f,here,_⟩ := kept.stored _ i b live
    rw [absent] at here
    cases here
  · intro f here
    cases here
    exact shaped_create n
  · intro f here
    refine .inr ⟨kept.not_last closed,fun h' same ready => ?_⟩
    cases same
    rw [closed] at ready
    cases ready

/-- One turn of the opening: it ends, or a full file was skipped. -/
theorem Kept.openTurn (kept : Kept c s.file (some h) given attrs) (closed : h.indexAvailable = false) (left : Nat) :
    OpenedTo c given attrs (openTrackingFile c io left s h) ∨
      ∃ s' h', Kept c s'.file (some h') given attrs ∧ h'.indexAvailable = false ∧
        openTrackingFile c io left s h = match left with
          | 0 => (s',h',false)
          | left + 1 => openTrackingFile c io left s' h' := by
  rw [openTrackingFile.eq_def,closed,if_neg Bool.false_ne_true]
  split
  · exact .inl kept.failed
  · split
    · rename_i absent
      split
      · exact .inl kept.failed
      · have created := kept.created closed absent (io left).headerWritten
        simp only
        split
        · exact .inl ⟨created,fun never => nomatch never⟩
        · rename_i whole
          refine .inl ⟨created.available closed (by decide) (fun i b live => ?_) fun f here => ?_,fun _ => rfl⟩
          · obtain ⟨f,here,_⟩ := kept.stored _ i b live
            rw [absent] at here
            cases here
          · rw [Function.update_self,Option.some.injEq] at here
            subst here
            exact Nat.le_min.mpr ⟨Nat.le_of_not_lt whole,Nat.le_refl _⟩
    · rename_i f here
      split
      · exact .inl kept.failed
      · split
        · split
          · rename_i empty
            refine .inl ⟨kept.unlink fun i b live => ?_,fun never => nomatch never⟩
            have reached := (kept.stored_file live here).reached
            rw [empty.2.1] at reached
            unfold fileHeaderSize at reached
            omega
          · exact .inl kept.failed
        · rename_i long
          have whole : fileHeaderSize ≤ f.size := by
            by_contra short
            exact long (.inr (Nat.lt_of_not_le short))
          split
          · have next := kept.increment maxInodePerFile
            simp only
            split
            · rename_i failed
              refine .inl ⟨next,fun ok => ?_⟩
              rw [failed] at ok
              cases ok
            · refine .inr ⟨(incrementMainTrackingFile (io left).main s { h with indexAvailable := false, curIdx := maxInodePerFile }).1,_,next,rfl,?_⟩
              cases left with
              | zero => rfl
              | succ left => rfl
          · rename_i partly
            refine .inl ⟨kept.available closed (Nat.lt_of_le_of_ne (kept.shaped _ f here).nbEntries partly) (fun i b live => ?_) fun f' same => ?_,fun _ => rfl⟩
            · exact (kept.stored_file live here).entry
            · rw [here] at same
              cases same
              exact whole

theorem Kept.openTrackingFile (kept : Kept c s.file (some h) given attrs) (closed : h.indexAvailable = false) (left : Nat) :
    OpenedTo c given attrs (Tracking.openTrackingFile c io left s h) := by
  induction left generalizing s h with
  | zero =>
    rcases kept.openTurn io closed 0 with done | ⟨s',h',next,_,result⟩
    · exact done
    · rw [result]
      exact next.failed
  | succ left ih =>
    rcases kept.openTurn io closed (left + 1) with done | ⟨s',h',next,closed',result⟩
    · exact done
    · rw [result]
      exact ih next closed'

theorem Kept.openIfNeeded (kept : Kept c s.file (some h) given attrs) : OpenedTo c given attrs (Tracking.openIfNeeded c io s h) := by
  unfold Tracking.openIfNeeded
  split
  · rename_i ready
    exact ⟨kept,fun _ => ready⟩
  · rename_i closed
    exact kept.openTrackingFile io (by simpa using closed) maxRecurse

end Open

section Allocate
variable {s : Slice} {io : AllocateIo} (given' : Nat → Nat → Bool)

/-- The condition on an allocation: the number of the file fits in 40 bits. -/
def Slice.Below (c : Config) (s : Slice) (h : Header) (io : AllocateIo) : Prop := (openIfNeeded c io.opening s h).2.1.lastIdx < 2 ^ 40

/-- The next number is given. -/
theorem Kept.give (kept : Kept c file (some h) given attrs) (ready : h.indexAvailable = true)
    (more : ∀ k i, given' k i = true → given k i = true ∨ k = h.lastIdx ∧ i = h.curIdx) (more_left : h.curIdx + 1 < maxInodePerFile) :
    Kept c file (some { h with curIdx := h.curIdx + 1 }) given' attrs := by
  have opened := kept.opened h rfl ready
  refine ⟨kept.stored,kept.shaped,fun h' same _ i b live => ?_,fun h' same _ => ?_,fun k i mine => ?_⟩
  · cases same
    exact Nat.lt_succ_of_lt (kept.behind h rfl ready i b live)
  · cases same
    exact ⟨more_left,opened.2⟩
  · rcases more k i mine with old | ⟨rfl,rfl⟩
    · obtain ⟨index,long,h',same,behind⟩ := kept.given k i old
      cases same
      refine ⟨index,long,_,rfl,behind.imp_right fun last => ⟨last.1,last.2.1,?_⟩⟩
      exact Nat.lt_succ_of_lt last.2.2
    · exact ⟨opened.1,opened.2,_,rfl,.inr ⟨rfl,ready,Nat.lt_succ_self _⟩⟩

/-- The last number of a file is given. -/
theorem Kept.giveLast (kept : Kept c file (some h) given attrs) (ready : h.indexAvailable = true)
    (more : ∀ k i, given' k i = true → given k i = true ∨ k = h.lastIdx ∧ i = h.curIdx) :
    Kept c file (some { h with lastIdx := h.lastIdx + 1, curIdx := 0, indexAvailable := false }) given' attrs := by
  have next := kept.increment 0
  have opened := kept.opened h rfl ready
  refine ⟨next.stored,next.shaped,next.behind,next.opened,fun k i mine => ?_⟩
  rcases more k i mine with old | ⟨rfl,rfl⟩
  · exact next.given k i old
  · exact ⟨opened.1,opened.2,_,rfl,.inl (Nat.lt_succ_self _)⟩

/-- What an allocation does to a slice: a number that is given is that of no live object. -/
theorem Kept.allocateInode (kept : Kept c s.file (some h) given attrs) (below : s.Below c h io)
    (more : ∀ number, (s.allocateInode c h io).2 = some number → ∀ k i, given' k i = true → given k i = true ∨ (k,i) = number)
    (same : (s.allocateInode c h io).2 = none → ∀ k i, given' k i = true → given k i = true) :
    Kept c (s.allocateInode c h io).1.file (s.allocateInode c h io).1.header given' attrs ∧
      ∀ number, (s.allocateInode c h io).2 = some number → attrs number.1 number.2 = none := by
  obtain ⟨ready,opened⟩ := kept.openIfNeeded io.opening
  unfold Slice.Below at below
  unfold Slice.allocateInode at more same ⊢
  generalize Tracking.openIfNeeded c io.opening s h = r at ready opened below more same ⊢
  obtain ⟨s₁,h₁,ok⟩ := r
  simp only at ready opened below more same ⊢
  cases ok with
  | false =>
    simp only [if_true] at same ⊢
    refine ⟨?_,fun _ none => nomatch none⟩
    refine ⟨ready.stored,ready.shaped,ready.behind,ready.opened,fun k i mine => ready.given k i (same trivial k i mine)⟩
  | true =>
    have available := opened rfl
    have number : h₁.lastIdx % 2 ^ 40 = h₁.lastIdx := Nat.mod_eq_of_lt below
    have free : attrs h₁.lastIdx h₁.curIdx = none := by
      by_contra live
      obtain ⟨b,live⟩ := Option.ne_none_iff_exists'.mp live
      exact absurd (ready.behind h₁ rfl available _ b live) (Nat.lt_irrefl _)
    rw [number] at more same ⊢
    simp only [Bool.true_eq_false,if_false] at more same ⊢
    by_cases left : h₁.curIdx + 1 < maxInodePerFile
    · simp only [left,if_true] at more same ⊢
      refine ⟨ready.give given' available (fun k i mine => ?_) left,fun given' same => ?_⟩
      · simpa using more _ rfl k i mine
      · cases same
        exact free
    · simp only [left,if_false] at more same ⊢
      refine ⟨ready.giveLast given' available fun k i mine => ?_,fun given' same => ?_⟩
      · by_cases written : (incrementMainTrackingFile io.main s₁ { h₁ with indexAvailable := false, curIdx := 0 }).2.2 = true
        · simp only [written,if_true] at more
          simpa using more _ rfl k i mine
        · exact .inl (same (if_neg written) k i mine)
      · split at same
        · cases same
          exact free
        · cases same

end Allocate

section Write
variable {s : Slice} {attr : List UInt8} {io : WriteIo} {attrs' : Nat → Nat → Option (List UInt8)}

/-- A number that was given, or the number of a live object. -/
theorem Kept.known (kept : Kept c file header given attrs) (known : given k i = true ∨ (attrs k i).isSome = true) :
    i < maxInodePerFile ∧ (∀ f, file k = some f → fileHeaderSize ≤ f.size) ∧
      ∀ h, header = some h → h.indexAvailable = true → k = h.lastIdx → i < h.curIdx := by
  rcases known with mine | live
  · obtain ⟨index,long,h,here,behind⟩ := kept.given k i mine
    refine ⟨index,long,fun h' there ready last => ?_⟩
    rw [here] at there
    cases there
    rcases behind with less | ⟨_,_,before⟩
    · omega
    · exact before
  · obtain ⟨b,live⟩ := Option.isSome_iff_exists.mp live
    obtain ⟨f,here,holds⟩ := kept.stored k i b live
    refine ⟨holds.index,fun f' there => ?_,fun h there ready last => ?_⟩
    · rw [here] at there
      cases there
      have reached := holds.reached
      omega
    · subst last
      exact kept.behind h there ready i b live

/-- The attributes of one number change, as the files say. -/
theorem Kept.setAttributes (kept : Kept c file header given attrs) (before : ∀ h, header = some h → h.indexAvailable = true → k = h.lastIdx → i < h.curIdx)
    (other : ∀ k' i', (k',i') ≠ (k,i) → attrs' k' i' = attrs k' i')
    (stored : ∀ b, attrs' k i = some b → ∃ f, file k = some f ∧ Holds c f i b) : Kept c file header given attrs' := by
  refine ⟨fun k' i' b live => ?_,kept.shaped,fun h here ready i' b live => ?_,kept.opened,kept.given⟩
  · by_cases own : (k',i') = (k,i)
    · cases own
      exact stored b live
    · rw [other k' i' own] at live
      exact kept.stored k' i' b live
  · by_cases own : (h.lastIdx,i') = (k,i)
    · cases own
      exact before h here ready rfl
    · rw [other _ i' own] at live
      exact kept.behind h here ready i' b live

/-- The attributes recorded after a write. -/
def recorded (attr : List UInt8) (old : Option (List UInt8)) (count : Nat) : Option (List UInt8) :=
  if count = attr.length then some attr else old.map fun old => partlyWritten attr old count

theorem recorded_zero (filled : attr ≠ []) (old : Option (List UInt8)) : recorded attr old 0 = old := by
  have length : 0 ≠ attr.length := fun none => filled (List.length_eq_zero_iff.mp none.symm)
  simp [recorded,length,partlyWritten]

theorem Kept.writeAttributes (kept : Kept c s.file s.header given attrs) (known : given k i = true ∨ (attrs k i).isSome = true) (filled : attr ≠ [])
    (other : ∀ k' i', (k',i') ≠ (k,i) → attrs' k' i' = attrs k' i')
    (own : attrs' k i = recorded attr (attrs k i) (s.writeAttributes c k i attr io).2) :
    Kept c (s.writeAttributes c k i attr io).1.file (s.writeAttributes c k i attr io).1.header given attrs' := by
  obtain ⟨index,long,before⟩ := kept.known known
  have unwritten : attrs' k i = recorded attr (attrs k i) 0 → Kept c s.file s.header given attrs' := by
    intro same
    rw [recorded_zero filled] at same
    apply kept.setAttributes before other
    intro b live
    rw [same] at live
    exact kept.stored k i b live
  unfold Slice.writeAttributes at own ⊢
  split at own
  · rename_i large
    rw [if_pos large]
    exact unwritten own
  · rename_i small
    rw [if_neg small]
    have small : attr.length ≤ c.maxAttributesSz := Nat.le_of_not_lt small
    cases here : s.file k with
    | none =>
      simp only [here] at own ⊢
      exact unwritten own
    | some f =>
      simp only [here] at own ⊢
      split at own
      · rename_i closed
        rw [if_pos closed]
        exact unwritten own
      · rename_i opened
        rw [if_neg opened]
        cases found : f.getRelativeInodeIdx i with
        | none =>
          simp only [found] at own ⊢
          exact unwritten own
        | some real =>
          simp only [found] at own ⊢
          obtain ⟨rfl,table⟩ := (kept.shaped k f here).real (long f here) index found
          have taken : (attr.take io.count).length ≤ c.maxAttributesSz := Nat.le_trans (List.length_take_le' ..) small
          -- the slot changes first, and the record follows
          have cleared : Kept c s.file s.header given fun k' i' => if (k',i') = (k,real) then none else attrs k' i' := by
            refine ⟨fun k' i' b live => ?_,kept.shaped,fun h there ready i' b live => ?_,kept.opened,kept.given⟩
            · split at live
              · cases live
              · exact kept.stored k' i' b live
            · split at live
              · cases live
              · exact kept.behind h there ready i' b live
          have changed : Kept c (update s.file k (some (f.pwrite (real * c.maxAttributesSz) (attr.take io.count)))) s.header given
              fun k' i' => if (k',i') = (k,real) then none else attrs k' i' := by
            apply cleared.setFile
            · intro i' b live
              split at live
              · cases live
              · rename_i different
                exact ⟨_,rfl,(kept.stored_file live here).pwrite_other (by simpa using different) taken⟩
            · intro f' same
              cases same
              exact (kept.shaped k f here).pwrite (long f here) taken index
            · intro f' same
              cases same
              exact .inl ⟨f,here,fun whole => Nat.le_trans whole le_pwrite_size⟩
          apply changed.setAttributes before
          · intro k' i' different
            rw [other k' i' different,if_neg different]
          · intro b live
            rw [own,recorded] at live
            split at live
            · rename_i whole
              cases live
              have all : attr.take io.count = attr := List.take_of_length_le (by omega)
              rw [Function.update_self,all]
              exact ⟨_,rfl,holds_pwrite filled small index table⟩
            · obtain ⟨old,there,rfl⟩ := Option.map_eq_some_iff.mp live
              rw [Function.update_self]
              exact ⟨_,rfl,(kept.stored_file there here).partlyWritten small io.count⟩

theorem Kept.releaseInode (kept : Kept c s.file s.header given attrs) (known : given k i = true ∨ (attrs k i).isSome = true)
    (other : ∀ k' i', (k',i') ≠ (k,i) → attrs' k' i' = attrs k' i')
    (own : attrs' k i = if (s.releaseInode k i io).2 then none else attrs k i) :
    Kept c (s.releaseInode k i io).1.file (s.releaseInode k i io).1.header given attrs' := by
  obtain ⟨index,long,before⟩ := kept.known known
  have unchanged : attrs' k i = attrs k i → Kept c s.file s.header given attrs' := by
    intro same
    apply kept.setAttributes before other
    intro b live
    rw [same] at live
    exact kept.stored k i b live
  unfold Slice.releaseInode at own ⊢
  cases here : s.file k with
  | none =>
    simp only [here] at own ⊢
    exact unchanged own
  | some f =>
    simp only [here] at own ⊢
    split at own
    · rename_i failed
      rw [if_pos failed]
      exact unchanged own
    · rename_i done
      rw [if_neg done]
      have whole := long f here
      have size : max f.size (10 + 2 * i) = f.size := by
        unfold maxInodePerFile at index
        unfold fileHeaderSize at whole
        omega
      have gone : Kept c s.file s.header given attrs' := by
        apply kept.setAttributes before other
        intro b live
        rw [own] at live
        cases live
      apply gone.setFile
      · intro i' b live
        have different : i' ≠ i := by
          rintro rfl
          rw [own] at live
          cases live
        exact ⟨_,rfl,(gone.stored_file live here).release different _ size⟩
      · intro f' same
        cases same
        exact (kept.shaped k f here).release whole _ size
      · intro f' same
        cases same
        exact .inl ⟨f,here,fun _ => size.symm ▸ whole⟩

end Write

section Poll
variable {s : Slice}

theorem Kept.advanceFirst (kept : Kept c s.file s.header given attrs) (here : s.header = some h) (io : MainIo) (k : Nat) :
    Kept c (Tracking.advanceFirst io s h k).file (Tracking.advanceFirst io s h k).header given attrs := by
  unfold Tracking.advanceFirst
  split
  · rw [here] at kept
    exact kept.first _
  · exact kept

theorem Kept.deleteAttempt (kept : Kept c s.file s.header given attrs) (there : s.header = some h) (here : s.file k = some f)
    (whole : fileHeaderSize ≤ f.size) (io : VisitIo) :
    Kept c (Tracking.deleteAttempt c io s h k f).file (Tracking.deleteAttempt c io s h k f).header given attrs := by
  simp only [Tracking.deleteAttempt]
  split
  · exact kept
  · split
    · rename_i all
      have removed : Kept c (if io.unlinked then s.setFile k none else s).file (if io.unlinked then s.setFile k none else s).header given attrs := by
        split
        · apply kept.unlink
          intro i b live
          have used := (kept.stored_file live here).used
          omega
        · exact kept
      apply removed.advanceFirst
      split
      · exact there
      · exact there
    · split
      · apply kept.setFile
        · intro i b live
          exact ⟨_,rfl,(kept.stored_file live here).truncate⟩
        · intro f' same
          cases same
          exact (kept.shaped k f here).truncate whole _
        · intro f' same
          cases same
          exact .inl ⟨f,here,fun _ => Nat.le_add_right ..⟩
      · exact kept

theorem Kept.visit (kept : Kept c s.file s.header given attrs) (io : VisitIo) (k : Nat) :
    Kept c (s.visit c io k).file (s.visit c io k).header given attrs := by
  unfold Slice.visit
  split
  · exact kept
  · rename_i h there
    split
    · exact kept.advanceFirst there io.main k
    · rename_i f here
      split
      · rename_i read
        exact kept.deleteAttempt there here read.2.2 io
      · split
        · exact kept.advanceFirst there io.main k
        · exact kept

theorem Kept.releasePoll (kept : Kept c s.file s.header given attrs) (io : Nat → VisitIo) :
    Kept c (s.releasePoll c io).file (s.releasePoll c io).header given attrs := by
  unfold Slice.releasePoll
  split
  · exact kept
  · rename_i h there
    generalize List.range' h.firstIdx (h.lastIdx - h.firstIdx) = files
    clear there
    induction files generalizing s with
    | nil => exact kept
    | cons k files ih => exact ih (kept.visit (io k) k)

/-- A start of the export keeps the files and what they hold. -/
theorem Kept.load (kept : Kept c s.file s.header given attrs) (io : LoadIo) :
    Kept c (s.load io).file (s.load io).header (fun _ _ => false) attrs := by
  have closed : ∀ h, (s.load io).header = some h → h.indexAvailable = false := by
    intro h here
    simp only [Slice.load] at here
    obtain ⟨_,_,rfl⟩ := Option.map_eq_some_iff.mp here
    rfl
  refine ⟨kept.stored,kept.shaped,fun h here ready => ?_,fun h here ready => ?_,fun _ _ none => nomatch none⟩
  · rw [closed h here] at ready
    cases ready
  · rw [closed h here] at ready
    cases ready

end Poll

end Slice

section Runs
variable {s s' : State}

def Inv (c : Config) (s : State) : Prop :=
  ∀ i, Kept c (s.slice i).file (s.slice i).header (fun k n => s.given ⟨i,k,n⟩) fun k n => s.attributes ⟨i,k,n⟩

/-- The condition on a step: an allocation uses a tracking file whose number fits in 40 bits. -/
def Fit (c : Config) (s : State) : Action → Prop
  | .allocate i io => match (s.slice i).header with
    | some h => (s.slice i).Below c h io
    | none => True
  | _ => True

instance (c : Config) (s : State) (a : Action) : Decidable (Fit c s a) :=
  match a with
  | .allocate i io => match here : (s.slice i).header with
    | some h => decidable_of_iff ((openIfNeeded c io.opening (s.slice i) h).2.1.lastIdx < 2 ^ 40) (by rw [Fit,here]; exact .rfl)
    | none => .isTrue (by rw [Fit,here]; trivial)
  | .write .. => .isTrue trivial
  | .release .. => .isTrue trivial
  | .poll .. => .isTrue trivial
  | .restart .. => .isTrue trivial

theorem inv_initial (c : Config) : Inv c initial := by
  intro i
  refine ⟨fun _ _ _ none => ?_,fun _ _ none => ?_,fun _ none => ?_,fun _ none => ?_,fun _ _ none => ?_⟩
  · cases none
  · cases none
  · cases none
  · cases none
  · cases none

/-- A number belongs to a slice. -/
theorem inode_eq {inode : Inode} {i : Fin 256} {k n : Nat} : Inode.mk i k n = inode ↔ i = inode.usrId ∧ (k,n) = (inode.fileId,inode.idx) := by
  cases inode
  simp

theorem Inv.allocate (inv : Inv c s) (i : Fin 256) (io : AllocateIo) (fit : Fit c s (.allocate i io)) :
    Inv c (s.allocate c i io).1 ∧ ∀ inode, (s.allocate c i io).2 = some inode → s.attributes inode = none := by
  simp only [Fit] at fit
  simp only [State.allocate]
  cases there : (s.slice i).header with
  | none => exact ⟨inv,fun _ none => nomatch none⟩
  | some h =>
    rw [there] at fit
    have kept := inv i
    rw [there] at kept
    simp only
    cases number : ((s.slice i).allocateInode c h io).2 with
    | none =>
      refine ⟨fun i' => ?_,fun _ none => nomatch none⟩
      by_cases own : i' = i
      · subst own
        simp only [State.setSlice,Function.update_self]
        apply (kept.allocateInode _ fit _ _).1
        · intro _ same
          rw [number] at same
          cases same
        · exact fun _ _ _ mine => mine
      · simp only [State.setSlice,Function.update_of_ne own]
        exact inv i'
    | some number' =>
      have given := kept.allocateInode (fun k n => update s.given ⟨i,number'.1,number'.2⟩ true ⟨i,k,n⟩) fit
        (fun number'' same k n mine => ?_) fun none => ?_
      · refine ⟨fun i' => ?_,fun inode same => ?_⟩
        · by_cases own : i' = i
          · subst own
            simp only [State.setSlice,Function.update_self]
            exact given.1
          · simp only [State.setSlice,Function.update_of_ne own]
            have kept' := inv i'
            refine ⟨kept'.stored,kept'.shaped,kept'.behind,kept'.opened,fun k n mine => kept'.given k n ?_⟩
            rwa [Function.update_of_ne fun same => own (inode_eq.mp same).1] at mine
        · cases same
          exact given.2 number' number
      · rw [number] at same
        cases same
        by_cases here : (k,n) = number'
        · exact .inr here
        · rw [Function.update_of_ne fun same => here (inode_eq.mp same).2] at mine
          exact .inl mine
      · rw [number] at none
        cases none

/-- One slice changes, and the attributes of one of its numbers. -/
theorem Inv.setSlice (inv : Inv c s) {inode : Inode} {slice : Slice} {attributes : Inode → Option (List UInt8)}
    (other : ∀ inode', inode' ≠ inode → attributes inode' = s.attributes inode')
    (own : Kept c slice.file slice.header (fun k n => s.given ⟨inode.usrId,k,n⟩) fun k n => attributes ⟨inode.usrId,k,n⟩) :
    Inv c { s.setSlice inode.usrId slice with attributes := attributes } := by
  intro i
  by_cases here : i = inode.usrId
  · subst here
    simp only [State.setSlice,Function.update_self]
    exact own
  · simp only [State.setSlice,Function.update_of_ne here]
    have same : (fun k n => attributes ⟨i,k,n⟩) = fun k n => s.attributes ⟨i,k,n⟩ := by
      funext k n
      exact other _ fun same => here (inode_eq.mp same).1
    rw [same]
    exact inv i

theorem Inv.step (inv : Inv c s) {a : Action} (fit : Fit c s a) (stepped : Tracking.step c a s = some s') : Inv c s' := by
  cases a with
  | allocate i io =>
    cases stepped
    exact (inv.allocate i io fit).1
  | write inode attr io =>
    simp only [Tracking.step] at stepped
    split at stepped
    · rename_i known
      cases stepped
      apply inv.setSlice
      · intro inode' other
        exact Function.update_of_ne other ..
      · apply (inv inode.usrId).writeAttributes known.1 known.2
        · intro k n different
          exact Function.update_of_ne (fun same => different (inode_eq.mp same).2) ..
        · exact Function.update_self ..
    · cases stepped
  | release inode io =>
    simp only [Tracking.step] at stepped
    split at stepped
    · rename_i known
      cases stepped
      apply inv.setSlice
      · intro inode' other
        split
        · exact Function.update_of_ne other ..
        · rfl
      · apply (inv inode.usrId).releaseInode known
        · intro k n different
          split
          · exact Function.update_of_ne (fun same => different (inode_eq.mp same).2) ..
          · rfl
        · split
          · exact Function.update_self ..
          · rfl
    · cases stepped
  | poll io =>
    cases stepped
    exact fun i => (inv i).releasePoll (io i)
  | restart io =>
    cases stepped
    exact fun i => (inv i).load (io i)

/-- The attributes of a live object are read as they were written. -/
theorem Inv.read (inv : Inv c s) {inode : Inode} (live : s.attributes inode = some b) :
    (s.slice inode.usrId).readAttributes c inode.fileId inode.idx b.length = some b := by
  obtain ⟨f,here,holds⟩ := (inv inode.usrId).stored inode.fileId inode.idx b live
  have small : ¬b.length > c.maxAttributesSz := Nat.not_lt.mpr holds.size
  simp only [Slice.readAttributes,small,if_false,here,Option.bind_some]
  exact holds.read

/-- Every operation on the files succeeds. -/
def mainDone : MainIo := ⟨fun _ => true,fun _ => true⟩

def allocated : AllocateIo := ⟨fun _ => ⟨true,true,fileHeaderSize,true,true,true,mainDone⟩,mainDone⟩

def loaded : Fin 256 → LoadIo := fun _ => ⟨fun _ => true,fun _ => true,fun _ => true,fun _ => true⟩

def polled : Fin 256 → Nat → VisitIo := fun _ _ => ⟨true,true,false,true,true,mainDone⟩

def fourBytes : Config := ⟨4,by decide⟩

section Wrap

/-- A run that gives number after number: the last file and the next index. -/
structure Filling (s : State) (n j : Nat) : Prop where
  header : ∃ h, (s.slice 0).header = some h ∧ h.lastIdx = n ∧
    (h.indexAvailable = true ∧ h.curIdx = j ∨ h.indexAvailable = false ∧ j = 0 ∧ (s.slice 0).file n = none)
  above : ∀ m > n, (s.slice 0).file m = none
  replica : ((s.slice 0).replica 0).isSome = true

/-- The file that is needed is there or is created. -/
theorem open_filling {slice : Slice} {h : Header} {n j : Nat} (last : h.lastIdx = n)
    (next : h.indexAvailable = true ∧ h.curIdx = j ∨ h.indexAvailable = false ∧ j = 0 ∧ slice.file n = none) :
    ∃ file first, (∀ m > n, file m = slice.file m) ∧
      openIfNeeded fourBytes allocated.opening slice h = ({ slice with file := file },⟨first,n,true,j⟩,true) := by
  subst last
  rcases next with ⟨ready,rfl⟩ | ⟨closed,rfl,absent⟩
  · refine ⟨slice.file,h.firstIdx,fun _ _ => rfl,?_⟩
    rw [openIfNeeded,if_pos ready,← ready]
  · refine ⟨update slice.file h.lastIdx (some (.create fileHeaderSize)),h.firstIdx,fun m more => Function.update_of_ne (Nat.ne_of_gt more) ..,?_⟩
    simp only [openIfNeeded,openTrackingFile,closed,absent,allocated,Bool.false_eq_true,if_false,Bool.true_eq_false,Nat.lt_irrefl,Slice.setFile]

/-- A number is given, and the next one is in the same file. -/
theorem Filling.next {n j : Nat} (filling : Filling s n j) (more : j + 1 < maxInodePerFile) : Filling (s.allocate fourBytes 0 allocated).1 n (j + 1) := by
  obtain ⟨h,here,last,next⟩ := filling.header
  obtain ⟨file,first,same,opened⟩ := open_filling last next
  have done : (s.slice 0).allocateInode fourBytes h allocated = ({ s.slice 0 with file := file, header := some ⟨first,n,true,j + 1⟩ },some (n % 2 ^ 40,j)) := by
    simp only [Slice.allocateInode,opened,Bool.true_eq_false,if_false,more,if_true]
  simp only [State.allocate,here,done]
  refine ⟨⟨⟨first,n,true,j + 1⟩,?_,rfl,.inl ⟨rfl,rfl⟩⟩,fun m above => ?_,?_⟩
  · simp only [State.setSlice,Function.update_self]
  · simp only [State.setSlice,Function.update_self]
    rw [same m above]
    exact filling.above m above
  · simp only [State.setSlice,Function.update_self]
    exact filling.replica

/-- The last number of a file is given. -/
theorem Filling.nextFile {n j : Nat} (filling : Filling s n j) (full : j + 1 = maxInodePerFile) : Filling (s.allocate fourBytes 0 allocated).1 (n + 1) 0 := by
  obtain ⟨h,here,last,next⟩ := filling.header
  obtain ⟨file,first,same,opened⟩ := open_filling last next
  have there := filling.replica
  have done : ∃ replica : Nat → Option Replica, (replica 0).isSome = true ∧ (s.slice 0).allocateInode fourBytes h allocated =
      (⟨replica,file,some ⟨first,n + 1,false,0⟩⟩,some (n % 2 ^ 40,j)) := by
    refine ⟨fun i => if i < mainReplicaCount then ((s.slice 0).replica i).map (Replica.setLast (n + 1)) else (s.slice 0).replica i,?_,?_⟩
    · simp [mainReplicaCount,there]
    · have written : ((List.range mainReplicaCount).any fun i => ((s.slice 0).replica i).isSome) = true := by
        simp only [List.any_eq_true]
        exact ⟨0,by decide,there⟩
      have main : allocated.main = mainDone := rfl
      simp only [Slice.allocateInode,opened,Bool.true_eq_false,if_false,full,Nat.lt_irrefl,incrementMainTrackingFile,writeMainTrackingFile]
      simp only [main,mainDone,Bool.and_true,written,if_true,and_true]
  obtain ⟨replica,some,done⟩ := done
  simp only [State.allocate,here,done]
  refine ⟨⟨⟨first,n + 1,false,0⟩,?_,rfl,.inr ⟨rfl,rfl,?_⟩⟩,fun m above => ?_,?_⟩
  · simp only [State.setSlice,Function.update_self]
  · simp only [State.setSlice,Function.update_self]
    rw [same _ (Nat.lt_succ_self n)]
    exact filling.above _ (Nat.lt_succ_self n)
  · simp only [State.setSlice,Function.update_self]
    rw [same m (Nat.lt_of_succ_lt above)]
    exact filling.above m (Nat.lt_of_succ_lt above)
  · simp only [State.setSlice,Function.update_self]
    exact some

theorem allocate_attributes (s : State) (i : Fin 256) (io : AllocateIo) : (s.allocate c i io).1.attributes = s.attributes := by
  unfold State.allocate
  split
  · rfl
  · simp only
    split
    · rfl
    · rfl

/-- A state that a run reaches, with the attributes of another. -/
def Reached (s : State) (attributes : Inode → Option (List UInt8)) : Prop :=
  Machine.Run (step fourBytes) (fun _ _ => True) initial s ∧ s.attributes = attributes

theorem Reached.allocate {attributes : Inode → Option (List UInt8)} (reached : Reached s attributes) :
    Reached (s.allocate fourBytes 0 allocated).1 attributes :=
  ⟨reached.1.tail (.allocate 0 allocated) trivial rfl,(allocate_attributes s 0 allocated).trans reached.2⟩

/-- The rest of a file. -/
theorem Filling.file {n : Nat} {attributes : Inode → Option (List UInt8)} (d : Nat) {j : Nat} (left : j + d + 1 = maxInodePerFile)
    (reached : Reached s attributes) (filling : Filling s n j) : ∃ s', Reached s' attributes ∧ Filling s' (n + 1) 0 := by
  induction d generalizing s j with
  | zero => exact ⟨_,reached.allocate,filling.nextFile left⟩
  | succ d ih => exact ih (by omega) reached.allocate (filling.next (by omega))

/-- Any number of files. -/
theorem Filling.files {n : Nat} {attributes : Inode → Option (List UInt8)} (m : Nat) (reached : Reached s attributes) (filling : Filling s n 0) :
    ∃ s', Reached s' attributes ∧ Filling s' (n + m) 0 := by
  induction m with
  | zero => exact ⟨s,reached,filling⟩
  | succ m ih =>
    obtain ⟨s₁,reached,filling⟩ := ih
    exact filling.file 2043 rfl reached

theorem filling_loaded : ∀ s, step fourBytes (.restart loaded) initial = some s → Filling s 0 0 := by
  intro s stepped
  cases stepped
  exact ⟨⟨_,rfl,rfl,.inr ⟨rfl,rfl,rfl⟩⟩,fun _ _ => rfl,rfl⟩

/-- A write to the first file. -/
theorem Filling.write {n j : Nat} {attr : List UInt8} {io : WriteIo} (filling : Filling s n j) (later : 0 < j)
    (stepped : step fourBytes (.write ⟨0,0,0⟩ attr io) s = some s') : Filling s' n j := by
  simp only [step] at stepped
  split at stepped
  · cases stepped
    obtain ⟨h,here,last,next⟩ := filling.header
    have kept : ∀ slice : Slice, (slice.writeAttributes fourBytes 0 0 attr io).1 = slice ∨
        ∃ f, (slice.writeAttributes fourBytes 0 0 attr io).1 = slice.setFile 0 f := by
      intro slice
      unfold Slice.writeAttributes
      split
      · exact .inl rfl
      · split
        · exact .inl rfl
        · split
          · exact .inl rfl
          · split
            · exact .inl rfl
            · exact .inr ⟨_,rfl⟩
    have ready := next.resolve_right fun none => absurd none.2.1 (Nat.ne_of_gt later)
    rcases kept (s.slice 0) with same | ⟨f,same⟩
    · simp only [State.setSlice,same,Function.update_eq_self]
      exact ⟨filling.header,filling.above,filling.replica⟩
    · refine ⟨⟨h,?_,last,.inl ready⟩,fun m above => ?_,?_⟩
      · simp only [State.setSlice,same,Function.update_self]
        exact here
      · simp only [State.setSlice,same,Function.update_self,Slice.setFile]
        rw [Function.update_of_ne (Nat.ne_of_gt (Nat.lt_of_le_of_lt (Nat.zero_le n) above))]
        exact filling.above m above
      · simp only [State.setSlice,same,Function.update_self]
        exact filling.replica
  · cases stepped

end Wrap

end Runs

end Rozofs.Tracking
