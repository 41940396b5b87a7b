import Rozofs.BlockCache
import Mathlib.Tactic.Common

/-! Blocks of a buffer of the data cache: what the writes leave in the blocks of a key and of other
keys, and what a read returns. -/
namespace Rozofs.CacheBlocks
open BlockCache Overlay
open Function (update)

theorem bytes_dvd (bsize : BSize) : bsize.bytes ∣ mbcacheBufSize := by
  cases bsize <;> decide

theorem lenField_le (n : Nat) : lenField n ≤ n := Nat.mod_le n _

theorem block_before (size : Nat) (less : n < m) : n * size + size ≤ m * size := by
  rw [← Nat.succ_mul]
  exact Nat.mul_le_mul_right size less

/-- Outcome of a write of `len` bytes at `relative`: the blocks of the key hold its bytes or those
that they held, and the other blocks are as they were. -/
structure Stores (bsize : BSize) (buf buf' : Buffer β) (relative len : Nat) (src : Nat → β) (key : Nat) : Prop where
  mine : ∀ n x, (buf'.header n).ownerKey = key → x < (buf'.header n).len →
    (relative ≤ n * bsize.bytes + x ∧ n * bsize.bytes + x < relative + len) ∧
      buf'.payload (n * bsize.bytes + x) = src (n * bsize.bytes + x - relative) ∨
    ¬ (relative ≤ n * bsize.bytes + x ∧ n * bsize.bytes + x < relative + len) ∧ (buf.header n).ownerKey = key ∧
      x < (buf.header n).len ∧ buf'.payload (n * bsize.bytes + x) = buf.payload (n * bsize.bytes + x)
  others : ∀ n, (buf'.header n).ownerKey ≠ key → buf'.header n = buf.header n ∧
    ∀ x < bsize.bytes, buf'.payload (n * bsize.bytes + x) = buf.payload (n * bsize.bytes + x)
  short : (∀ n, (buf.header n).len ≤ bsize.bytes) → ∀ n, (buf'.header n).len ≤ bsize.bytes

section Blocks
variable {β : Type} {bsize : BSize}

/-- Headers after a write, block by block. -/
theorem header_cases (header : Nat → Header) (start count key lastLen size n : Nat) :
    (start ≤ n ∧ n < start + count ∧
      lastHeader (setHeaders header start count key size) (start + count) key lastLen n = ⟨key,lenField size⟩) ∨
    (n = start + count ∧ lastLen ≠ 0 ∧ ((header n).ownerKey ≠ key ∨ (header n).len < lastLen) ∧
      lastHeader (setHeaders header start count key size) (start + count) key lastLen n = ⟨key,lenField lastLen⟩) ∨
    ((n < start ∨ start + count ≤ n) ∧ (n = start + count → lastLen ≠ 0 → (header n).ownerKey = key) ∧
      lastHeader (setHeaders header start count key size) (start + count) key lastLen n = header n) := by
  have next : setHeaders header start count key size (start + count) = header (start + count) := by simp [setHeaders]
  by_cases inside : start ≤ n ∧ n < start + count
  · left
    have other : n ≠ start + count := by omega
    refine ⟨inside.1,inside.2,?_⟩
    unfold lastHeader
    split_ifs <;> simp [setHeaders,inside,other]
  · right
    have kept : setHeaders header start count key size n = header n := by simp [setHeaders,inside]
    by_cases last : n = start + count
    · subst last
      unfold lastHeader
      rw [next]
      split_ifs with none foreign more
      · exact .inr ⟨by omega,fun _ some => absurd none some,kept⟩
      · exact .inl ⟨rfl,none,.inl foreign,by simp⟩
      · exact .inl ⟨rfl,none,.inr more,by simp⟩
      · exact .inr ⟨by omega,fun _ _ => not_not.mp foreign,kept⟩
    · right
      refine ⟨by omega,fun same => absurd same last,?_⟩
      unfold lastHeader
      split_ifs <;> simp [kept,last]

/-- A write whose first block is aligned or belongs to the key up to the first byte. -/
theorem write_stores (buf : Buffer β) (src : Nat → β) (relative : Nat)
    (first : start * bsize.bytes ≤ relative ∧ relative < start * bsize.bytes + bsize.bytes)
    (before : relative ≠ start * bsize.bytes →
      (buf.header start).ownerKey = key ∧ relative - start * bsize.bytes ≤ (buf.header start).len)
    (stop : relative + len = (start + count) * bsize.bytes + lastLen) (small : lastLen < bsize.bytes) :
    Stores bsize buf ⟨lastHeader (setHeaders buf.header start count key bsize.bytes) (start + count) key lastLen,
      overlay buf.payload relative len src⟩ relative len src key := by
  -- a byte of a block of the key is written, or was in the block before
  have either : ∀ n x, (buf.header n).ownerKey = key → x < (buf.header n).len →
      (relative ≤ n * bsize.bytes + x ∧ n * bsize.bytes + x < relative + len) ∧
        overlay buf.payload relative len src (n * bsize.bytes + x) = src (n * bsize.bytes + x - relative) ∨
      ¬ (relative ≤ n * bsize.bytes + x ∧ n * bsize.bytes + x < relative + len) ∧ (buf.header n).ownerKey = key ∧
        x < (buf.header n).len ∧
        overlay buf.payload relative len src (n * bsize.bytes + x) = buf.payload (n * bsize.bytes + x) := by
    intro n x owner inside
    by_cases here : relative ≤ n * bsize.bytes + x ∧ n * bsize.bytes + x < relative + len
    · exact .inl ⟨here,overlay_inside here.1 here.2⟩
    · exact .inr ⟨here,owner,inside,overlay_outside (by omega)⟩
  have written : ∀ n x, relative ≤ n * bsize.bytes + x → n * bsize.bytes + x < relative + len →
      (relative ≤ n * bsize.bytes + x ∧ n * bsize.bytes + x < relative + len) ∧
        overlay buf.payload relative len src (n * bsize.bytes + x) = src (n * bsize.bytes + x - relative) :=
    fun n x low high => ⟨⟨low,high⟩,overlay_inside low high⟩
  refine ⟨fun n x owner inside => ?_,fun n foreign => ?_,fun old n => ?_⟩
  · dsimp only at owner inside ⊢
    rcases header_cases buf.header start count key lastLen bsize.bytes n with ⟨low,high,eq⟩ | ⟨rfl,some,lacks,eq⟩ | ⟨-,-,eq⟩
    · rw [eq] at inside
      have bound := lenField_le bsize.bytes
      have ends := block_before bsize.bytes high
      by_cases here : relative ≤ n * bsize.bytes + x
      · exact .inl (written n x here (by dsimp only at inside; omega))
      · -- the bytes before the write in its first block
        have same : n = start := by
          by_contra other
          have := block_before bsize.bytes (Nat.lt_of_le_of_ne low (Ne.symm other))
          omega
        subst same
        have := before (by omega)
        exact either n x this.1 (by omega)
    · rw [eq] at inside
      have bound := lenField_le lastLen
      dsimp only at inside
      by_cases here : relative ≤ (start + count) * bsize.bytes + x
      · exact .inl (written _ x here (by omega))
      · have none : count = 0 := by
          by_contra other
          have := block_before bsize.bytes (show start < start + count by omega)
          omega
        subst none
        have := before (by rw [Nat.add_zero] at here; omega)
        rw [Nat.add_zero] at here
        exact either start x this.1 (by omega)
    · rw [eq] at owner inside
      exact either n x owner inside
  · dsimp only at foreign ⊢
    rcases header_cases buf.header start count key lastLen bsize.bytes n with ⟨-,-,eq⟩ | ⟨-,-,-,eq⟩ | ⟨outside,last,eq⟩
    · rw [eq] at foreign
      exact absurd rfl foreign
    · rw [eq] at foreign
      exact absurd rfl foreign
    · rw [eq] at foreign
      refine ⟨eq,fun x inside => overlay_outside ?_⟩
      rcases outside with low | high
      · have := block_before bsize.bytes low
        omega
      · right
        by_cases same : n = start + count
        · have none : lastLen = 0 := by
            by_contra some
            exact foreign (last same some)
          subst same
          omega
        · have := block_before bsize.bytes (Nat.lt_of_le_of_ne high (Ne.symm same))
          omega
  · dsimp only
    rcases header_cases buf.header start count key lastLen bsize.bytes n with ⟨-,-,eq⟩ | ⟨-,-,-,eq⟩ | ⟨-,-,eq⟩
    · rw [eq]
      exact lenField_le _
    · rw [eq]
      exact Nat.le_trans (lenField_le _) (Nat.le_of_lt small)
    · rw [eq]
      exact old n

theorem relative_mod (bsize : BSize) (off : Nat) : off % bufferBsize bsize % bsize.bytes = off % bsize.bytes :=
  Nat.mod_mod_of_dvd off (Nat.dvd_mul_left bsize.bytes cacheBcount)

theorem bufferBsize_pos (bsize : BSize) : 0 < bufferBsize bsize := Nat.mul_pos (by decide) bsize.bytes_pos

/-- A part of a buffer that ends inside it has its blocks there. -/
theorem blocks_inside (fits : m * bsize.bytes + rest ≤ bufferBsize bsize) :
    m ≤ cacheBcount ∧ (rest ≠ 0 → m < cacheBcount) := by
  have positive := bsize.bytes_pos
  unfold bufferBsize at fits
  constructor
  · by_contra more
    have := block_before bsize.bytes (Nat.not_le.mp more)
    omega
  · intro some
    by_contra more
    have := Nat.mul_le_mul_right bsize.bytes (Nat.not_lt.mp more)
    omega

theorem headersUsed_inside (bsize : BSize) (fits : (start + count) * bsize.bytes + lastLen ≤ bufferBsize bsize) :
    ∀ i ∈ headersUsed start count lastLen, i < cacheBcount := by
  intro i member
  have bound := blocks_inside fits
  rcases List.mem_append.mp member with full | last
  · have := List.mem_range'_1.mp full
    omega
  · split at last
    · cases last
    · rename_i some
      cases List.mem_singleton.mp last
      exact bound.2 some

/-- What a part of an insertion needs of the buffer it goes to. -/
def Ready (bsize : BSize) (buf : Buffer β) (off len key : Nat) : Prop :=
  off % bsize.bytes = 0 ∨
  ((buf.header (off % bufferBsize bsize / bsize.bytes)).ownerKey = key ∧ off < bsize.bytes ∧
    off ≤ (buf.header (off % bufferBsize bsize / bsize.bytes)).len) ∨
  ((buf.header (off % bufferBsize bsize / bsize.bytes)).ownerKey ≠ key ∧ len ≤ off % bsize.bytes ∧
    off % bsize.bytes + len ≤ bsize.bytes)

theorem cacheInsert_stores {buf : Buffer β} (short : ∀ n, (buf.header n).len ≤ bsize.bytes)
    (fits : off % bufferBsize bsize + len ≤ bufferBsize bsize) (ready : Ready bsize buf off len key) (src : Nat → β) :
    Stores bsize buf (cacheInsert bsize buf off len src key).1 (off % bufferBsize bsize) len src key ∧
    ∀ i ∈ (cacheInsert bsize buf off len src key).2, i < cacheBcount := by
  have positive := bsize.bytes_pos
  have long : ¬ off % bufferBsize bsize + len > bufferBsize bsize := by omega
  have whole := Nat.div_add_mod' (off % bufferBsize bsize) bsize.bytes
  rw [relative_mod] at whole
  have below := Nat.mod_lt off positive
  unfold cacheInsert
  rw [relative_mod]
  by_cases aligned : off % bsize.bytes = 0
  · rw [if_pos aligned,cacheWrite]
    dsimp only
    rw [if_neg long]
    have parts := Nat.div_add_mod' len bsize.bytes
    have stop : off % bufferBsize bsize + len =
        (off % bufferBsize bsize / bsize.bytes + len / bsize.bytes) * bsize.bytes + len % bsize.bytes := by
      rw [Nat.add_mul]
      omega
    exact ⟨write_stores buf src _ (by omega) (by omega) stop (Nat.mod_lt len positive),headersUsed_inside bsize (by omega)⟩
  · rw [if_neg aligned,cacheWriteNotAligned]
    dsimp only
    rw [if_neg long,relative_mod]
    rcases ready with now | ⟨owner,first,known⟩ | ⟨foreign,less,inside⟩
    · exact absurd now aligned
    · have small : off < bufferBsize bsize := by
        unfold bufferBsize cacheBcount
        omega
      rw [Nat.mod_eq_of_lt small] at *
      rw [Nat.div_eq_of_lt first,Nat.div_eq_of_lt small,Nat.zero_mul,Nat.sub_zero] at *
      rw [if_neg (fun both => both.2 owner),if_pos aligned]
      have stop : off + len = (0 + (off + len) / bsize.bytes) * bsize.bytes + (off + len) % bsize.bytes := by
        rw [Nat.zero_add]
        exact (Nat.div_add_mod' _ _).symm
      refine ⟨write_stores buf src _ (by omega) (fun _ => ⟨owner,by omega⟩) stop (Nat.mod_lt _ positive),fun i member => ?_⟩
      rcases List.mem_cons.mp member with rfl | later
      · decide
      · exact headersUsed_inside bsize (by omega) i later
    · rw [if_pos ⟨aligned,foreign⟩,if_pos less]
      refine ⟨⟨fun n x owner inside' => ?_,fun n _ => ⟨rfl,fun _ _ => rfl⟩,fun old => old⟩,fun i member => ?_⟩
      · -- the bytes are in one block, which is not the key's
        refine .inr ⟨?_,owner,inside',rfl⟩
        rintro ⟨low,high⟩
        apply foreign
        have inside' : x < bsize.bytes := Nat.lt_of_lt_of_le inside' (short n)
        have same : n = off % bufferBsize bsize / bsize.bytes := by
          by_contra other
          rcases Nat.lt_or_gt_of_ne other with before | after
          · have := block_before bsize.bytes before
            omega
          · have := block_before bsize.bytes after
            omega
        rw [← same]
        exact owner
      · cases List.mem_singleton.mp member
        exact (blocks_inside (by rw [whole]; omega)).2 aligned

theorem readBlocks_spec (header : Nat → Header) (short : ∀ n, (header n).len ≤ bsize.bytes) (key i count : Nat) :
    (i ≤ (readBlocks bsize header key i count).2.1 ∧ (readBlocks bsize header key i count).2.1 ≤ i + count) ∧
    (readBlocks bsize header key i count).1 ≤ count * bsize.bytes ∧
    ∀ x < (readBlocks bsize header key i count).1, (header (i + x / bsize.bytes)).ownerKey = key ∧
      x % bsize.bytes < (header (i + x / bsize.bytes)).len := by
  have positive := bsize.bytes_pos
  induction count generalizing i with
  | zero => exact ⟨⟨Nat.le_refl i,Nat.le_refl i⟩,Nat.zero_le _,fun x inside => absurd inside (Nat.not_lt_zero x)⟩
  | succ count ih =>
    unfold readBlocks
    by_cases owner : (header i).ownerKey = key
    · rw [if_pos owner]
      by_cases full : (header i).len = bsize.bytes
      · rw [if_neg (not_not.mpr full)]
        obtain ⟨place,bound,right⟩ := ih (i + 1)
        generalize readBlocks bsize header key (i + 1) count = result at place bound right
        obtain ⟨len,next,eof⟩ := result
        dsimp only at place bound right ⊢
        rw [Nat.succ_mul]
        refine ⟨by omega,by omega,fun x inside => ?_⟩
        by_cases here : x < bsize.bytes
        · rw [Nat.div_eq_of_lt here,Nat.mod_eq_of_lt here,Nat.add_zero]
          exact ⟨owner,by omega⟩
        · have := right (x - bsize.bytes) (by omega)
          have later : x = x - bsize.bytes + bsize.bytes := by omega
          rw [later,Nat.add_div_right _ positive,Nat.add_mod_right]
          rw [← Nat.add_assoc,Nat.add_right_comm]
          exact this
      · rw [if_pos full]
        have bound := short i
        refine ⟨by dsimp only; omega,by dsimp only; rw [Nat.succ_mul]; omega,fun x inside => ?_⟩
        dsimp only at inside
        have here : x < bsize.bytes := by omega
        rw [Nat.div_eq_of_lt here,Nat.mod_eq_of_lt here,Nat.add_zero]
        exact ⟨owner,inside⟩
    · rw [if_neg owner]
      exact ⟨by dsimp only; omega,Nat.zero_le _,fun x inside => absurd inside (Nat.not_lt_zero x)⟩

/-- Blocks that a read looks at. -/
theorem read_inside (bsize : BSize) (off len : Nat) : off % bufferBsize bsize / bsize.bytes +
    (if off % bufferBsize bsize + len > bufferBsize bsize then bufferBsize bsize - off % bufferBsize bsize else len) /
      bsize.bytes ≤ cacheBcount := by
  have inside := Nat.mod_lt off (bufferBsize_pos bsize)
  generalize adjust : (if off % bufferBsize bsize + len > bufferBsize bsize then bufferBsize bsize - off % bufferBsize bsize
    else len) = adjusted
  have fits : off % bufferBsize bsize + adjusted ≤ bufferBsize bsize := by
    rw [← adjust]
    split <;> omega
  have first := Nat.div_mul_le_self (off % bufferBsize bsize) bsize.bytes
  have rest := Nat.div_mul_le_self adjusted bsize.bytes
  apply (@blocks_inside bsize _ 0 _).1
  rw [Nat.add_mul]
  omega

theorem readUsed_inside (low : start ≤ next) (high : next ≤ start + count) (inside : start + count ≤ cacheBcount) :
    ∀ i ∈ List.range' start (next - start) ++ (if next < start + count then [next] else []), i < cacheBcount := by
  intro i member
  rcases List.mem_append.mp member with before | last
  · have := List.mem_range'_1.mp before
    omega
  · split at last
    · cases List.mem_singleton.mp last
      omega
    · cases last

/-- A read of whole blocks returns bytes of blocks of the key. -/
theorem cacheRead_spec {buf : Buffer β} (short : ∀ n, (buf.header n).len ≤ bsize.bytes)
    (whole : len % bsize.bytes = 0 ∨ len < bsize.bytes) (off key : Nat) :
    (∀ i ∈ (cacheRead bsize buf off len key).2, i < cacheBcount) ∧
    ∀ n, (cacheRead bsize buf off len key).1 = some n → n ≤ len ∧ ∀ x < n,
      off % bufferBsize bsize / bsize.bytes + x / bsize.bytes < cacheBcount ∧
      (buf.header (off % bufferBsize bsize / bsize.bytes + x / bsize.bytes)).ownerKey = key ∧
      x % bsize.bytes < (buf.header (off % bufferBsize bsize / bsize.bytes + x / bsize.bytes)).len := by
  have positive := bsize.bytes_pos
  have inside := read_inside bsize off len
  have less : (if off % bufferBsize bsize + len > bufferBsize bsize then bufferBsize bsize - off % bufferBsize bsize
      else len) ≤ len := by
    split <;> omega
  unfold cacheRead
  dsimp only
  generalize (if off % bufferBsize bsize + len > bufferBsize bsize then bufferBsize bsize - off % bufferBsize bsize
    else len) = adjusted at inside less
  generalize off % bufferBsize bsize / bsize.bytes = start at inside
  obtain ⟨place,bound,right⟩ := readBlocks_spec buf.header short key start (adjusted / bsize.bytes)
  have most := Nat.div_mul_le_self adjusted bsize.bytes
  generalize readBlocks bsize buf.header key start (adjusted / bsize.bytes) = result at place bound right
  obtain ⟨lenRead,next,eof⟩ := result
  dsimp only at place bound right ⊢
  have used := readUsed_inside place.1 place.2 inside
  have bytes : lenRead ≤ len ∧ ∀ x < lenRead, start + x / bsize.bytes < cacheBcount ∧
      (buf.header (start + x / bsize.bytes)).ownerKey = key ∧ x % bsize.bytes < (buf.header (start + x / bsize.bytes)).len := by
    refine ⟨by omega,fun x below => ⟨?_,right x below⟩⟩
    have : x / bsize.bytes < adjusted / bsize.bytes := Nat.div_lt_of_lt_mul (by rw [Nat.mul_comm]; omega)
    omega
  generalize List.range' start (next - start) ++ (if next < start + adjusted / bsize.bytes then [next] else []) = looked at used
  by_cases full : eof = true
  · rw [if_pos full]
    exact ⟨used,fun n eq => by cases eq; exact bytes⟩
  · rw [if_neg full]
    by_cases none : next = start
    · rw [if_pos none]
      exact ⟨used,fun n eq => by cases eq⟩
    · -- a length that is not a multiple of a block is less than one
      have last : ¬ (next = start + adjusted / bsize.bytes ∧ len % bsize.bytes ≠ 0) := by
        rintro ⟨all,some⟩
        have nothing : adjusted / bsize.bytes = 0 := Nat.div_eq_of_lt (by omega)
        omega
      rw [if_neg none,if_neg last]
      exact ⟨used,fun n eq => by cases eq; exact bytes⟩

theorem cacheRead_foreign {buf : Buffer β} (foreign : (buf.header (off % bufferBsize bsize / bsize.bytes)).ownerKey ≠ key)
    (len : Nat) : (cacheRead bsize buf off len key).1 = none ∧ ∀ i ∈ (cacheRead bsize buf off len key).2, i < cacheBcount := by
  have inside := read_inside bsize off len
  unfold cacheRead
  dsimp only
  generalize (if off % bufferBsize bsize + len > bufferBsize bsize then bufferBsize bsize - off % bufferBsize bsize
    else len) / bsize.bytes = count at inside
  have stops : readBlocks bsize buf.header key (off % bufferBsize bsize / bsize.bytes) count =
      (0,off % bufferBsize bsize / bsize.bytes,false) := by
    cases count with
    | zero => rfl
    | succ count => rw [readBlocks,if_neg foreign]
  rw [stops]
  dsimp only
  rw [if_neg (by decide),if_pos rfl]
  exact ⟨rfl,readUsed_inside (Nat.le_refl _) (Nat.le_add_right _ _) inside⟩

end Blocks

end Rozofs.CacheBlocks
