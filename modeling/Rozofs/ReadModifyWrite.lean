import Rozofs.BlockTransform
import Rozofs.WritePlan

/-! A write request of the storage client from its split to the projections that the storages
keep: internal reads of the first and the last block, merge with the data of the request by
`rozofs_storcli_internal_read_rsp_cbk`, forward transform. -/
namespace Rozofs.ReadModifyWrite
open BlockTransform Mojette WritePlan

/-- `storcli_write_arg_no_data_t` with `data_write_p` and the timestamp of the context. -/
structure Request where
  off : Nat
  len : Nat
  flags : Nat
  timestamp : Nat
  data : Bytes

/-- Reply to an internal read: no file, or data of some length. The buffer holds anything
where nothing was read. -/
inductive Reply where
  | enoent (payload : Bytes)
  | success (dataLen : Nat) (data : Bytes)

def memcpy (dst : Bytes) (start : Nat) (src : Bytes) (n : Nat) : Bytes :=
  fun a => if start ≤ a ∧ a < start + n then src (a - start) else dst a

def memset (dst : Bytes) (n : Nat) : Bytes := fun a => if a < n then 0 else dst a

/-- Buffer to transform and its `last_block_size`. -/
structure Merged where
  data : Bytes
  lastBlockSize : Nat

section Callback
variable (bbytes : Nat) (req : Request) (s : Segment)

def mergeFirst : Reply → Merged
  | .enoent payload =>
    let data := memset payload (firstRelative req.off s)
    ⟨memcpy data (firstRelative req.off s) req.data (firstCopied bbytes req.off req.len s),
      if u32 (firstRelative req.off s + req.len) ≥ bbytes then bbytes else u32 (req.len + firstRelative req.off s)⟩
  | .success dataLen data =>
    let data := if dataLen = 0 then memset data (firstRelative req.off s) else data
    ⟨memcpy data (firstRelative req.off s) req.data (firstCopied bbytes req.off req.len s),
      if u32 (firstRelative req.off s + req.len) ≥ bbytes then bbytes
      else if u32 (req.len + firstRelative req.off s) > dataLen then u32 (req.len + firstRelative req.off s) else dataLen⟩

def mergeLast : Reply → Merged
  | .enoent payload =>
    ⟨memcpy payload 0 (req.data.shift (lastRelative req.off s)) (lastCopied req.off req.len s),
      lastCopied req.off req.len s⟩
  | .success dataLen data =>
    ⟨memcpy data 0 (req.data.shift (lastRelative req.off s)) (lastCopied req.off req.len s),
      if lastCopied req.off req.len s > dataLen then lastCopied req.off req.len s else dataLen⟩

end Callback

/-- A call of the forward transform: a segment with the buffer that is transformed. -/
structure Job where
  firstBlockIdx : Nat
  numberOfBlocks : Nat
  lastBlockSize : Nat
  data : Bytes

def Segment.job (req : Request) (s : Segment) (merge : Merged) : List Job :=
  match s.state with
  | .idle => []
  | .transformReq => [⟨s.firstBlockIdx,s.numberOfBlocks,s.lastBlockSize,req.data.shift (s.data.getD 0)⟩]
  | .rdReq => [⟨s.firstBlockIdx,s.numberOfBlocks,merge.lastBlockSize,merge.data⟩]

/-- The transforms of a request, given the replies to the reads of its first and last block. -/
def jobs (bsize : BSize) (req : Request) (first last : Reply) : List Job :=
  let p := prepare2write bsize req.off req.len req.flags
  Segment.job req p.first (mergeFirst bsize.bytes req p.first first) ++
    (Segment.job req p.middle ⟨req.data,0⟩ ++ Segment.job req p.last (mergeLast req p.last last))

def Job.run (layout : Layout) (bsize : BSize) (timestamp : Nat) (prj : Nat → Nat → PrjBlock) (j : Job) :
    Nat → Nat → PrjBlock :=
  transformForward layout bsize j.firstBlockIdx j.numberOfBlocks timestamp j.lastBlockSize j.data prj

/-- `data_len` and data of the reply to a read of one block. -/
def readReply (layout : Layout) (bsize : BSize) (ctx : BlockCtx) (prj : Nat → PrjBlock) (stack : Buffer)
    (buffer : Bytes) : Reply :=
  let r := transformInverse layout bsize 0 (fun _ => ctx) (fun _ => prj) (fun _ => stack) 1 0 buffer
  .success (r.2 * bsize.bytes) r.1

/-- Replies that an internal read of a block can get. -/
inductive Replies (layout : Layout) (bsize : BSize) (stored : Stored) : Reply → Prop
  | enoent (payload : Bytes) (missing : stored = .absent) : Replies layout bsize stored (.enoent payload)
  | read (ctx : BlockCtx) (prj : Nat → PrjBlock) (stack : Buffer) (buffer : Bytes)
      (decided : Decided layout bsize stored ctx prj) :
      Replies layout bsize stored (readReply layout bsize ctx prj stack buffer)

/-- Blocks of the file once the projections of the request are stored. -/
def writeBlocks (file : Nat → Stored) (p : Plan) (prj : Nat → Nat → PrjBlock) : Nat → Stored :=
  fun b => if p.bid ≤ b ∧ b < p.bid + p.nbBlocks then .present (prj (b - p.bid)) else file b

/-- One write: the reads are answered from the file, and the transforms run in any order,
since the replies do, on buffers with any content. -/
inductive Writes (layout : Layout) (bsize : BSize) (file : Nat → Stored) (req : Request) : (Nat → Stored) → Prop
  | intro (first last : Reply) (order : List Job) (prj : Nat → Nat → PrjBlock)
      (firstRead : Replies layout bsize (file (req.off / bsize.bytes)) first)
      (lastRead : Replies layout bsize (file ((req.off + req.len - 1) / bsize.bytes)) last)
      (scheduled : order.Perm (jobs bsize req first last)) :
      Writes layout bsize file req (writeBlocks file (prepare2write bsize req.off req.len req.flags)
        (order.foldl (Job.run layout bsize req.timestamp) prj))

/-- The contents of the file with the data of the request at its offset. -/
def overlay (bsize : BSize) (req : Request) (contents : Nat → Bytes) : Nat → Bytes := fun b j =>
  let a := b * bsize.bytes + j
  if req.off ≤ a ∧ a < req.off + req.len then req.data (a - req.off) else contents b j

namespace Job

def Covers (j : Job) (k : Nat) : Prop := j.firstBlockIdx ≤ k ∧ k < j.firstBlockIdx + j.numberOfBlocks

def Apart (a b : Job) : Prop := ∀ k, ¬(a.Covers k ∧ b.Covers k)

def effectiveLength (bsize : BSize) (j : Job) (k : Nat) : Nat :=
  if k - j.firstBlockIdx = j.numberOfBlocks - 1 then j.lastBlockSize else bsize.bytes

/-- User bytes of a block that the job transforms. -/
def bytes (bsize : BSize) (j : Job) (k : Nat) : Bytes := fun a =>
  if a < j.effectiveLength bsize k then j.data ((k - j.firstBlockIdx) * bsize.bytes + a) else 0

variable {layout : Layout} {bsize : BSize} {order : List Job} {j : Job} {k : Nat}

theorem run_other (apart : ¬Covers j k) : run layout bsize timestamp prj j k = prj k := by
  rw [Covers] at apart
  rw [run,transformForward_get,if_neg apart]

theorem run_covered (covers : Covers j k) :
    run layout bsize timestamp prj j k = transformBlock layout bsize timestamp (j.effectiveLength bsize k)
      (j.data.shift ((k - j.firstBlockIdx) * bsize.bytes)) (prj k) := by
  rw [Covers] at covers
  rw [run,transformForward_get,if_pos covers]
  rfl

theorem foldl_run_other (apart : ∀ j ∈ order, ¬Covers j k) :
    order.foldl (run layout bsize timestamp) prj k = prj k := by
  induction order generalizing prj with
  | nil => rfl
  | cons a rest ih =>
    rw [List.foldl_cons,ih fun j member => apart j (List.mem_cons_of_mem _ member)]
    exact run_other (apart a List.mem_cons_self)

/-- A block that one job of the schedule covers is the one that this job transforms. -/
theorem foldl_run_covered (disjoint : order.Pairwise Apart) (member : j ∈ order) (covers : Covers j k) :
    order.foldl (run layout bsize timestamp) prj k = transformBlock layout bsize timestamp (j.effectiveLength bsize k)
      (j.data.shift ((k - j.firstBlockIdx) * bsize.bytes)) (prj k) := by
  induction order generalizing prj with
  | nil => cases member
  | cons a rest ih =>
    obtain ⟨head,tail⟩ := List.pairwise_cons.mp disjoint
    rw [List.foldl_cons]
    rcases List.mem_cons.mp member with rfl | later
    · rw [foldl_run_other fun b inside covered => head b inside k ⟨covers,covered⟩]
      exact run_covered covers
    · rw [ih tail later]
      congr 1
      exact run_other fun covered => head j later k ⟨covered,covers⟩

theorem Apart.symm (apart : Apart a b) : Apart b a := fun k both => apart k both.symm

end Job

section Merge
variable {layout : Layout} {bsize : BSize} {contents : Bytes} {req : Request} {s : Segment}

/-- A reply holds no data and the block reads as zeros, or it holds the whole block. -/
theorem replies_cases (effective : Effective bsize) (holds : Holds layout bsize stored contents)
    (replies : Replies layout bsize stored reply) :
    ((∃ payload, reply = .enoent payload) ∧ ∀ j < bsize.bytes, contents j = 0) ∨
    ((∃ data, reply = .success 0 data) ∧ ∀ j < bsize.bytes, contents j = 0) ∨
    ∃ data, reply = .success bsize.bytes data ∧ ∀ j < bsize.bytes, data j = contents j := by
  have positive := bsize.bytes_pos
  cases replies with
  | enoent payload missing =>
    subst missing
    cases holds with
    | absent zero => exact .inl ⟨⟨payload,rfl⟩,zero⟩
  | read ctx prj stack buffer decided =>
    cases stored with
    | absent =>
      have none := transformInverse_absent 0 (fun _ => ctx) (fun _ => prj) (fun _ => stack) 1 0 buffer decided
      cases holds with
      | absent zero =>
        refine .inr (.inl ⟨⟨buffer,?_⟩,zero⟩)
        rw [readReply,none,Nat.zero_mul]
    | present blocks =>
      obtain ⟨count,bytes⟩ := transformInverse_holds effective 0 (fun _ => ctx) (fun _ => prj) (fun _ => stack)
        (fun _ => blocks) (fun _ => contents) 1 0 buffer (fun _ _ _ => holds) (fun _ _ _ => decided)
      refine .inr (.inr ⟨_,?_,fun j small => (bytes j).trans ?_⟩)
      · rw [readReply,count,Nat.zero_add,Nat.one_mul]
      · rw [if_pos (by omega),Nat.mod_eq_of_lt small]

/-- The merged first block is the previous one with the data of the request from its
relative offset on, whatever the reply. -/
theorem mergeFirst_bytes (effective : Effective bsize) (holds : Holds layout bsize stored contents)
    (replies : Replies layout bsize stored reply) (relative : firstRelative req.off s = r) (inside : r < bsize.bytes)
    (sum : u32 ((r : Int) + req.len) = r + req.len) (small : j < bsize.bytes) :
    (if j < (mergeFirst bsize.bytes req s reply).lastBlockSize then (mergeFirst bsize.bytes req s reply).data j else 0) =
      if r ≤ j ∧ j < r + req.len then req.data (j - r) else contents j := by
  have sum' : u32 ((req.len : Int) + r) = r + req.len := by rw [Int.add_comm,sum]
  rcases replies_cases effective holds replies with ⟨⟨payload,rfl⟩,zero⟩ | ⟨⟨data,rfl⟩,zero⟩ | ⟨data,rfl,same⟩
  · simp only [mergeFirst,firstCopied,relative,sum,sum',memcpy,memset,zero j small]
    split_ifs <;> first | rfl | omega
  · simp only [mergeFirst,firstCopied,relative,sum,sum',memcpy,memset,zero j small,if_true]
    split_ifs <;> first | rfl | omega
  · rw [← same j small]
    simp only [mergeFirst,firstCopied,relative,sum,sum',memcpy,if_neg (show bsize.bytes ≠ 0 by omega)]
    split_ifs <;> first | rfl | omega

theorem mergeLast_bytes (effective : Effective bsize) (holds : Holds layout bsize stored contents)
    (replies : Replies layout bsize stored reply) (copied : lastCopied req.off req.len s = l) (most : l ≤ bsize.bytes)
    (small : j < bsize.bytes) :
    (if j < (mergeLast req s reply).lastBlockSize then (mergeLast req s reply).data j else 0) =
      if j < l then req.data (lastRelative req.off s + j) else contents j := by
  rcases replies_cases effective holds replies with ⟨⟨payload,rfl⟩,zero⟩ | ⟨⟨data,rfl⟩,zero⟩ | ⟨data,rfl,same⟩
  · simp only [mergeLast,copied,memcpy,Bytes.shift,zero j small,Nat.zero_le,true_and,Nat.zero_add,Nat.sub_zero]
    split_ifs <;> rfl
  · simp only [mergeLast,copied,memcpy,Bytes.shift,zero j small,Nat.zero_le,true_and,Nat.zero_add,Nat.sub_zero]
    split_ifs <;> first | rfl | omega
  · rw [← same j small]
    simp only [mergeLast,copied,memcpy,Bytes.shift,Nat.zero_le,true_and,Nat.zero_add,Nat.sub_zero]
    split_ifs <;> first | rfl | omega

end Merge

/-- The job gives every block that it covers its overlaid contents. -/
def Job.Right (bsize : BSize) (req : Request) (contents : Nat → Bytes) (q : Nat) (j : Job) : Prop :=
  ∀ k, j.Covers k → ∀ a < bsize.bytes, j.bytes bsize k a = overlay bsize req contents (q + k) a

section Jobs
variable {layout : Layout} {bsize : BSize} {req : Request} {contents : Nat → Bytes} {q r d l : Nat}

/-- The job of a first block that is read. -/
def firstJob (bsize : BSize) (req : Request) (reply : Reply) (q : Nat) : Job :=
  let m := mergeFirst bsize.bytes req ⟨.rdReq,bsize.bytes,q * bsize.bytes,none,0,1,bsize.bytes⟩ reply
  ⟨0,1,m.lastBlockSize,m.data⟩

def lastJob (bsize : BSize) (req : Request) (reply : Reply) (d : Nat) : Job :=
  let m := mergeLast req (lastToRead bsize.bytes req.off req.len) reply
  ⟨d,1,m.lastBlockSize,m.data⟩

/-- Full blocks that are transformed from the buffer of the request. -/
theorem right_full (start : req.off + s = (q + f) * bsize.bytes)
    (inside : (q + f + n) * bsize.bytes ≤ req.off + req.len) :
    Job.Right bsize req contents q ⟨f,n,bsize.bytes,req.data.shift s⟩ := by
  rintro k ⟨low,high⟩ a small
  obtain ⟨i,rfl⟩ := Nat.exists_eq_add_of_le low
  have place : (q + (f + i)) * bsize.bytes = req.off + s + i * bsize.bytes := by
    rw [start]
    ring
  have stop : (q + (f + i)) * bsize.bytes + bsize.bytes ≤ (q + f + n) * bsize.bytes := by
    rw [← Nat.succ_mul]
    exact Nat.mul_le_mul_right _ (by simp only at high; omega)
  simp only [Job.bytes,Job.effectiveLength,overlay,ite_self,Bytes.shift,Nat.add_sub_cancel_left]
  rw [if_pos small,if_pos (by omega)]
  congr 1
  omega

theorem right_first (effective : Effective bsize) (shape : Shape bsize.bytes req.off req.len q r d l)
    (holds : Holds layout bsize stored (contents q)) (replies : Replies layout bsize stored reply) :
    Job.Right bsize req contents q (firstJob bsize req reply q) := by
  rintro k ⟨low,high⟩ a small
  have only : k = 0 := by
    simp only [firstJob] at high
    omega
  subst only
  have start := shape.start
  have merged := mergeFirst_bytes effective holds replies
    (shape.firstRelative_eq ⟨.rdReq,bsize.bytes,q * bsize.bytes,none,0,1,bsize.bytes⟩ rfl) shape.inside shape.sum_eq small
  simp only [Job.bytes,Job.effectiveLength,firstJob,overlay,Nat.sub_self,Nat.zero_mul,Nat.zero_add,Nat.add_zero,if_true]
  rw [merged]
  by_cases inside : r ≤ a ∧ a < r + req.len
  · rw [if_pos inside,if_pos (by omega)]
    congr 1
    omega
  · rw [if_neg inside,if_neg (by omega)]

theorem right_last (effective : Effective bsize) (shape : Shape bsize.bytes req.off req.len q r d l) (more : 0 < d)
    (holds : Holds layout bsize stored (contents (q + d))) (replies : Replies layout bsize stored reply) :
    Job.Right bsize req contents q (lastJob bsize req reply d) := by
  rintro k ⟨low,high⟩ a small
  have only : k = d := by
    simp only [lastJob] at low high
    omega
  subst only
  have start := shape.start
  have stop := shape.stop
  have inside := shape.inside
  have whole : bsize.bytes ≤ k * bsize.bytes := Nat.le_mul_of_pos_left _ more
  have merged := mergeLast_bytes effective holds replies (lastCopied_eq shape more) shape.most small
  simp only [Job.bytes,Job.effectiveLength,lastJob,overlay,Nat.sub_self,Nat.zero_mul,Nat.zero_add,if_true]
  rw [merged,lastRelative_eq shape more,Nat.add_mul]
  by_cases before : a < l
  · rw [if_pos before,if_pos (by omega)]
    congr 1
    omega
  · rw [if_neg before,if_neg (by omega)]

theorem jobs_one (shape : Shape bsize.bytes req.off req.len q r 0 l)
    (reread : req.flags &&& storcliFlagsNoEndReread = 0) (partly : r ≠ 0 ∨ l ≠ bsize.bytes) (first last : Reply) :
    jobs bsize req first last = [firstJob bsize req first q] := by
  have plan : prepare2write bsize req.off req.len req.flags = prepareOne bsize.bytes req.off req.len req.flags := by
    rw [prepare2write,shape.first_eq,shape.last_eq,if_pos (Nat.add_zero q).symm]
  have read : (fread bsize.bytes req.off || lread bsize.bytes req.off req.len req.flags) = true := by
    simpa [shape.fread_eq,shape.lread_eq,reread] using partly
  simp only [jobs,plan,prepareOne,read,if_true,shape.first_eq]
  rfl

theorem jobs_whole (shape : Shape bsize.bytes req.off req.len q 0 d bsize.bytes) (first last : Reply) :
    jobs bsize req first last = [⟨0,d + 1,bsize.bytes,req.data.shift 0⟩] := by
  have length := shape.length_eq
  have read : (fread bsize.bytes req.off || lread bsize.bytes req.off req.len req.flags) = false := by
    simp [shape.fread_eq,shape.lread_eq]
  rcases Nat.eq_zero_or_pos d with rfl | more
  · have plan : prepare2write bsize req.off req.len req.flags = prepareOne bsize.bytes req.off req.len req.flags := by
      rw [prepare2write,shape.first_eq,shape.last_eq,if_pos (Nat.add_zero q).symm]
    have whole : req.len = bsize.bytes := by omega
    simp only [jobs,plan,prepareOne,read]
    rw [← whole]
    rfl
  · have plan : prepare2write bsize req.off req.len req.flags = prepareAligned bsize.bytes req.off req.len := by
      rw [prepare2write,shape.first_eq,shape.last_eq,if_neg (by omega),read]
      rfl
    simp only [jobs,plan,prepareAligned,aligned_count shape]
    rfl

theorem prepare2write_read (shape : Shape bsize.bytes req.off req.len q r d l) (more : 0 < d)
    (reread : req.flags &&& storcliFlagsNoEndReread = 0) (partly : r ≠ 0 ∨ l ≠ bsize.bytes) :
    prepare2write bsize req.off req.len req.flags = prepareRead bsize.bytes req.off req.len req.flags := by
  have read : (fread bsize.bytes req.off || lread bsize.bytes req.off req.len req.flags) = true := by
    simpa [shape.fread_eq,shape.lread_eq,reread] using partly
  rw [prepare2write,shape.first_eq,shape.last_eq,if_neg (by omega),if_pos read]

/-- The last job of a split that reads blocks. -/
theorem tail_jobs (shape : Shape bsize.bytes req.off req.len q r d l)
    (reread : req.flags &&& storcliFlagsNoEndReread = 0) (last : Reply) :
    Segment.job req (prepareRead bsize.bytes req.off req.len req.flags).last
        (mergeLast req (prepareRead bsize.bytes req.off req.len req.flags).last last) =
      if l = bsize.bytes then [] else [lastJob bsize req last d] := by
  split
  · rename_i full
    rw [tail_unused shape (.inl full)]
    rfl
  · rename_i short
    rw [tail_last shape short reread]
    simp only [lastJob,← last_index shape]
    rfl

theorem jobs_after (shape : Shape bsize.bytes req.off req.len q r d l) (more : 0 < d)
    (reread : req.flags &&& storcliFlagsNoEndReread = 0) (unaligned : r ≠ 0) (first last : Reply) :
    jobs bsize req first last = firstJob bsize req first q ::
      ⟨1,if l = bsize.bytes then d else d - 1,bsize.bytes,req.data.shift (bsize.bytes - r)⟩ ::
      if l = bsize.bytes then [] else [lastJob bsize req last d] := by
  have read : fread bsize.bytes req.off = true := by simpa [shape.fread_eq] using unaligned
  rw [jobs,prepare2write_read shape more reread (.inl unaligned)]
  simp only [tail_jobs shape reread]
  simp only [prepareRead,read,if_true,Segment.job,middle_count shape more,shape.first_eq]
  rw [← shape.foffset_eq]
  rfl

theorem jobs_start (shape : Shape bsize.bytes req.off req.len q 0 d l) (more : 0 < d)
    (reread : req.flags &&& storcliFlagsNoEndReread = 0) (short : l ≠ bsize.bytes) (first last : Reply) :
    jobs bsize req first last = [⟨0,d,bsize.bytes,req.data.shift 0⟩,lastJob bsize req last d] := by
  have read : fread bsize.bytes req.off = false := by simp [shape.fread_eq]
  have count := start_count shape
  rw [if_neg short] at count
  rw [jobs,prepare2write_read shape more reread (.inr short)]
  simp only [tail_jobs shape reread,if_neg short]
  simp only [prepareRead,read,Segment.job,← count]
  rfl

/-- Jobs that cover the blocks `0..d` of a request once, each with the right bytes. -/
structure Schedule (bsize : BSize) (req : Request) (contents : Nat → Bytes) (q d : Nat) (jobs : List Job) : Prop where
  disjoint : jobs.Pairwise Job.Apart
  right : ∀ j ∈ jobs, j.Right bsize req contents q
  covered : ∀ k ≤ d, ∃ j ∈ jobs, j.Covers k

theorem schedule_one {a : Job} (right : a.Right bsize req contents q) (covers : ∀ k ≤ d, a.Covers k) :
    Schedule bsize req contents q d [a] := by
  refine ⟨List.pairwise_singleton _ _,?_,fun k most => ⟨a,List.mem_singleton_self a,covers k most⟩⟩
  intro j member
  rw [List.mem_singleton] at member
  exact member ▸ right

/-- A job for the first blocks, before the schedule of the others. -/
theorem Schedule.cons {a : Job} {rest : List Job} (right : a.Right bsize req contents q)
    (disjoint : rest.Pairwise Job.Apart) (others : ∀ j ∈ rest, j.Right bsize req contents q)
    (apart : ∀ j ∈ rest, a.Apart j) (covered : ∀ k ≤ d, a.Covers k ∨ ∃ j ∈ rest, j.Covers k) :
    Schedule bsize req contents q d (a :: rest) where
  disjoint := List.pairwise_cons.mpr ⟨apart,disjoint⟩
  right := by
    intro j member
    rcases List.mem_cons.mp member with rfl | later
    · exact right
    · exact others j later
  covered := by
    intro k most
    rcases covered k most with here | ⟨j,later,covers⟩
    · exact ⟨a,List.mem_cons_self,here⟩
    · exact ⟨j,List.mem_cons_of_mem _ later,covers⟩

theorem schedule_start (right : Job.Right bsize req contents q ⟨0,d,bsize.bytes,data⟩)
    (ends : (lastJob bsize req reply d).Right bsize req contents q) :
    Schedule bsize req contents q d [⟨0,d,bsize.bytes,data⟩,lastJob bsize req reply d] := by
  refine .cons right (List.pairwise_singleton _ _) (by simpa using ends) ?_ ?_
  · simp [Job.Apart,Job.Covers,lastJob]
    omega
  · intro k most
    simp only [List.mem_singleton,exists_eq_left,Job.Covers,lastJob]
    omega

theorem schedule_after (more : 0 < d) (begins : (firstJob bsize req first q).Right bsize req contents q)
    (right : Job.Right bsize req contents q ⟨1,n,bsize.bytes,data⟩)
    (ends : (lastJob bsize req last d).Right bsize req contents q)
    (count : n = if l = bsize.bytes then d else d - 1) :
    Schedule bsize req contents q d (firstJob bsize req first q :: ⟨1,n,bsize.bytes,data⟩ ::
      if l = bsize.bytes then [] else [lastJob bsize req last d]) := by
  by_cases full : l = bsize.bytes
  · rw [if_pos full] at count ⊢
    refine .cons begins (List.pairwise_singleton _ _) (by simpa using right) ?_ ?_
    · simp [Job.Apart,Job.Covers,firstJob]
    · intro k most
      simp only [List.mem_singleton,exists_eq_left,Job.Covers,firstJob]
      omega
  · rw [if_neg full] at count ⊢
    refine .cons begins (by simp [Job.Apart,Job.Covers,lastJob]; omega) (by simpa using ⟨right,ends⟩) ?_ ?_
    · simp [Job.Apart,Job.Covers,firstJob,lastJob]
      omega
    · intro k most
      simp only [List.mem_cons,List.not_mem_nil,or_false,exists_eq_or_imp,exists_eq_left,Job.Covers,firstJob,lastJob]
      omega

theorem jobs_schedule (effective : Effective bsize) (shape : Shape bsize.bytes req.off req.len q r d l)
    (reread : req.flags &&& storcliFlagsNoEndReread = 0) {first last : Reply} {file : Nat → Stored}
    (holds : ∀ b, Holds layout bsize (file b) (contents b))
    (firstRead : Replies layout bsize (file q) first) (lastRead : Replies layout bsize (file (q + d)) last) :
    Schedule bsize req contents q d (jobs bsize req first last) := by
  have start := shape.start
  have stop := shape.stop
  have inside := shape.inside
  have begins := right_first effective shape (holds q) firstRead
  by_cases whole : r = 0 ∧ l = bsize.bytes
  · obtain ⟨rfl,rfl⟩ := whole
    rw [jobs_whole shape]
    refine schedule_one (right_full (by omega) ?_) (by simp only [Job.Covers]; omega)
    rw [Nat.add_mul,Nat.add_mul,Nat.succ_mul]
    omega
  have partly : r ≠ 0 ∨ l ≠ bsize.bytes := by omega
  rcases Nat.eq_zero_or_pos d with rfl | more
  · rw [jobs_one shape reread partly]
    exact schedule_one begins (by simp only [Job.Covers,firstJob]; omega)
  have ends := right_last effective shape more (holds (q + d)) lastRead
  by_cases aligned : r = 0
  · subst aligned
    rw [jobs_start shape more reread (by omega)]
    refine schedule_start (right_full (by omega) ?_) ends
    rw [Nat.add_mul,Nat.add_mul]
    omega
  · rw [jobs_after shape more reread aligned]
    refine schedule_after more begins (right_full (by rw [Nat.succ_mul]; omega) ?_) ends rfl
    obtain ⟨e,rfl⟩ := Nat.exists_eq_succ_of_ne_zero (Nat.pos_iff_ne_zero.mp more)
    split <;> simp only [Nat.add_mul,Nat.succ_mul,Nat.succ_sub_one] at stop ⊢ <;> omega

end Jobs

section Overlay
variable {layout : Layout} {bsize : BSize} {file file' : Nat → Stored} {req : Request} {contents : Nat → Bytes}

theorem overlay_outside (shape : Shape bsize.bytes req.off req.len q r d l) (outside : ¬(q ≤ b ∧ b < q + (d + 1)))
    (small : j < bsize.bytes) : overlay bsize req contents b j = contents b j := by
  have start := shape.start
  have stop := shape.stop
  have most := shape.most
  refine if_neg fun inside => outside ⟨?_,?_⟩
  · refine Nat.le_of_not_lt fun before => ?_
    have : (b + 1) * bsize.bytes ≤ q * bsize.bytes := Nat.mul_le_mul_right _ before
    rw [Nat.succ_mul] at this
    omega
  · refine Nat.lt_of_not_le fun after => ?_
    have : (q + (d + 1)) * bsize.bytes ≤ b * bsize.bytes := Nat.mul_le_mul_right _ after
    rw [Nat.add_mul,Nat.succ_mul] at this
    omega

/-- A write that re-reads the end of its request turns a file into the overlaid one, block by
block; blocks outside of the request stay as they are. -/
theorem writes_holds (effective : Effective bsize) (positive : 0 < req.len) (small : req.len < 2 ^ 31)
    (fits : req.off + req.len < 2 ^ 64) (reread : req.flags &&& storcliFlagsNoEndReread = 0) (dated : req.timestamp ≠ 0)
    (holds : ∀ b, Holds layout bsize (file b) (contents b)) (writes : Writes layout bsize file req file') (b : Nat) :
    Holds layout bsize (file' b) (overlay bsize req contents b) ∧
    (req.off / bsize.bytes ≤ b ∧ b ≤ (req.off + req.len - 1) / bsize.bytes → ∃ prj, file' b = .present prj) := by
  obtain ⟨d,l,shape⟩ := exists_shape bsize req.off req.len positive small fits
  cases writes with
  | intro first last order prj firstRead lastRead scheduled =>
    rw [shape.span] at lastRead
    have schedule := jobs_schedule effective shape reread holds firstRead lastRead
    have disjoint : order.Pairwise Job.Apart :=
      (scheduled.pairwise_iff fun {_ _} apart => Job.Apart.symm apart).mpr schedule.disjoint
    have count := (prepare2write_tiles shape (.inl reread)).count
    rw [shape.span,Nat.add_sub_cancel_left] at count
    simp only [writeBlocks,prepare2write_bid,count,shape.span]
    by_cases inside : req.off / bsize.bytes ≤ b ∧ b < req.off / bsize.bytes + (d + 1)
    · obtain ⟨k,rfl⟩ := Nat.exists_eq_add_of_le inside.1
      obtain ⟨j,member,covers⟩ := schedule.covered k (by omega)
      rw [if_pos inside,Nat.add_sub_cancel_left,
        Job.foldl_run_covered disjoint (scheduled.mem_iff.mpr member) covers]
      refine ⟨.written _ _ _ _ dated fun a few => ?_,fun _ => ⟨_,rfl⟩⟩
      exact (schedule.right j member k covers a few).symm
    · rw [if_neg inside]
      refine ⟨(holds b).congr fun j few => ?_,by omega⟩
      exact overlay_outside shape inside few

theorem writes_outside (shape : Shape bsize.bytes req.off req.len (req.off / bsize.bytes) r d l)
    (reread : req.flags &&& storcliFlagsNoEndReread = 0) (writes : Writes layout bsize file req file')
    (outside : b < req.off / bsize.bytes ∨ (req.off + req.len - 1) / bsize.bytes < b) : file' b = file b := by
  cases writes with
  | intro first last order prj firstRead lastRead scheduled =>
    have count := (prepare2write_tiles shape (.inl reread)).count
    rw [shape.span,Nat.add_sub_cancel_left] at count
    rw [shape.span] at outside
    rw [writeBlocks,prepare2write_bid,count,if_neg (by omega)]

/-- Read back of a write: the blocks of the request hold the previous contents with its data at
their offsets, whatever the file, the replies, the buffers and the projections that are read. -/
theorem write_then_read (effective : Effective bsize) (positive : 0 < req.len) (small : req.len < 2 ^ 31)
    (fits : req.off + req.len < 2 ^ 64) (reread : req.flags &&& storcliFlagsNoEndReread = 0) (dated : req.timestamp ≠ 0)
    (holds : ∀ b, Holds layout bsize (file b) (contents b)) (writes : Writes layout bsize file req file')
    (start n : Nat) (low : req.off / bsize.bytes ≤ start) (high : start + n ≤ (req.off + req.len - 1) / bsize.bytes + 1)
    (ctxs : Nat → BlockCtx) (prj : Nat → Nat → PrjBlock) (stack : Nat → Buffer) (data : Bytes)
    (decided : ∀ k < n, Decided layout bsize (file' (start + k)) (ctxs k) (prj k)) :
    (transformInverse layout bsize 0 ctxs prj stack n 0 data).2 = n ∧
    (∀ k < n, ∀ j < bsize.bytes, (transformInverse layout bsize 0 ctxs prj stack n 0 data).1 (bsize.bytes * k + j) =
      overlay bsize req contents (start + k) j) ∧
    ∀ b, b < req.off / bsize.bytes ∨ (req.off + req.len - 1) / bsize.bytes < b → file' b = file b := by
  obtain ⟨d,l,shape⟩ := exists_shape bsize req.off req.len positive small fits
  have written := writes_holds effective positive small fits reread dated holds writes
  have present : ∀ k < n, ∃ blocks, file' (start + k) = .present blocks := fun k few =>
    (written (start + k)).2 ⟨by omega,by omega⟩
  have : Nonempty (Nat → PrjBlock) := ⟨prj 0⟩
  choose! blocks stored using present
  have rebuilt := transformInverse_holds effective 0 ctxs prj stack blocks (fun k => overlay bsize req contents (start + k))
    n 0 data (fun k _ few => stored k (by omega) ▸ (written (start + k)).1)
    (fun k _ few => stored k (by omega) ▸ decided k (by omega))
  refine ⟨by rw [rebuilt.1,Nat.zero_add],fun k few j inside => ?_,fun b => writes_outside shape reread writes⟩
  have room : bsize.bytes * k + bsize.bytes ≤ bsize.bytes * n := by
    rw [← Nat.mul_succ]
    exact Nat.mul_le_mul_left _ few
  rw [rebuilt.2,if_pos (by simp only [Nat.zero_add]; omega),Nat.mul_add_div (by omega),Nat.div_eq_of_lt inside,
    Nat.mul_add_mod,Nat.mod_eq_of_lt inside,Nat.add_zero,Nat.sub_zero]

/-- Fifty bytes at offset 100 of a file that does not exist. -/
def smallWrite : Request := ⟨100,50,0,1,fun _ => 7⟩

theorem write_then_read_small : ∃ file' ctx prj,
    Writes .layout_2_3_4 .bsize4K (fun _ => .absent) smallWrite file' ∧
    Decided .layout_2_3_4 .bsize4K (file' 0) ctx prj ∧
    (transformInverse .layout_2_3_4 .bsize4K 0 (fun _ => ctx) (fun _ => prj) (fun _ _ => 3) 1 0 (fun _ => 9)).1 120 = 7 ∧
    (transformInverse .layout_2_3_4 .bsize4K 0 (fun _ => ctx) (fun _ => prj) (fun _ _ => 3) 1 0 (fun _ => 9)).1 99 = 0 := by
  have holds : ∀ b : Nat, Holds .layout_2_3_4 .bsize4K .absent ((fun _ _ => 0 : Nat → Bytes) b) :=
    fun _ => .absent fun _ _ => rfl
  have writes : Writes .layout_2_3_4 .bsize4K (fun _ => .absent) smallWrite _ := .intro
    (.enoent fun _ => 5) (.enoent fun _ => 5) _ (fun _ _ => ⟨⟨0,0,0⟩,fun _ => 0,0⟩) (.enoent _ rfl) (.enoent _ rfl) (.refl _)
  obtain ⟨kept,present⟩ := writes_holds (.inl rfl) (by decide) (by decide) (by decide) (by decide) (by decide) holds writes 0
  obtain ⟨blocks,stored⟩ := present (by decide)
  rw [stored] at kept
  obtain ⟨ctx,decided⟩ := exists_decided (.inl rfl) kept
  obtain ⟨-,bytes,-⟩ := write_then_read (.inl rfl) (by decide) (by decide) (by decide) (by decide) (by decide) holds writes 0 1
    (by decide) (by decide) (fun _ => ctx) (fun _ => blocks) (fun _ _ => 3) (fun _ => 9) (fun k few => by
      rw [Nat.lt_one_iff.mp few,stored]
      exact decided)
  exact ⟨_,ctx,blocks,writes,stored ▸ decided,bytes 0 (by decide) 120 (by decide),bytes 0 (by decide) 99 (by decide)⟩

end Overlay

end Rozofs.ReadModifyWrite
