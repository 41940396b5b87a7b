import Rozofs.StorioSerialization

/-! At most one disk thread has a file, and the requests of a file are taken one by one in the
order of their arrival. A file that runs is in one hand: the main thread that activates it, the
socket with its activation message, or a disk thread. -/
namespace Rozofs.StorioSerialization
open CircularList (Links Ring)
open Function (update)

/-- Who has a file. -/
inductive Owner (τ : Type) where
  | nobody
  | main
  | socket
  | disk (t : τ)

section Tokens
variable {φ τ ρ : Type} {owner : φ → Owner τ} {isRunning : φ → Bool} {sending : Option φ} {posted : List φ}
  {thread : τ → Phase φ ρ}

/-- Each file that runs is in the hand of its owner only. -/
structure Tokens (owner : φ → Owner τ) (isRunning : φ → Bool) (sending : Option φ) (posted : List φ)
    (thread : τ → Phase φ ρ) : Prop where
  idle : ∀ file, isRunning file = false ↔ owner file = .nobody
  main : ∀ file, sending = some file ↔ owner file = .main
  socket : ∀ file, file ∈ posted ↔ owner file = .socket
  once : posted.Nodup
  disk : ∀ file t, (thread t).file = some file ↔ owner file = .disk t

variable [DecidableEq τ]

/-- A disk thread goes on with its file. -/
theorem Tokens.phase (tokens : Tokens owner isRunning sending posted thread) (t : τ) (next : Phase φ ρ)
    (same : next.file = (thread t).file) : Tokens owner isRunning sending posted (update thread t next) := by
  refine { tokens with disk := fun file other => ?_ }
  rw [← tokens.disk]
  by_cases eq : other = t
  · subst eq
    rw [Function.update_self,same]
  · rw [Function.update_of_ne eq]

variable [DecidableEq φ]

omit [DecidableEq τ] in
theorem Tokens.wake (tokens : Tokens owner isRunning none posted thread) (file : φ) (idle : owner file = .nobody) :
    Tokens (update owner file .main) (update isRunning file true) (some file) posted thread := by
  refine ⟨fun other => ?_,fun other => ?_,fun other => ?_,tokens.once,fun other t => ?_⟩
  · have old := tokens.idle other
    by_cases eq : other = file <;> simp [eq,old]
  · have old := tokens.main other
    by_cases eq : other = file
    · simp [eq]
    · simpa [eq,Ne.symm eq] using old
  · have old := tokens.socket other
    by_cases eq : other = file
    · subst eq
      simp [old,idle]
    · simp [eq,old]
  · have old := tokens.disk other t
    by_cases eq : other = file
    · subst eq
      simp [old,idle]
    · simp [eq,old]

omit [DecidableEq τ] in
theorem Tokens.post (tokens : Tokens owner isRunning (some file) posted thread) :
    Tokens (update owner file .socket) isRunning none (posted ++ [file]) thread := by
  have mine : owner file = .main := (tokens.main file).mp rfl
  refine ⟨fun other => ?_,fun other => ?_,fun other => ?_,?_,fun other t => ?_⟩
  · have old := tokens.idle other
    by_cases eq : other = file
    · subst eq
      simp [old,mine]
    · simp [eq,old]
  · have old := tokens.main other
    by_cases eq : other = file
    · simp [eq]
    · simpa [eq,Ne.symm eq] using old
  · have old := tokens.socket other
    by_cases eq : other = file <;> simp [eq,old]
  · have absent : file ∉ posted := by simp [tokens.socket,mine]
    exact tokens.once.append (List.nodup_singleton _) (by simpa using absent)
  · have old := tokens.disk other t
    by_cases eq : other = file
    · subst eq
      simp [old,mine]
    · simp [eq,old]

theorem Tokens.receive (tokens : Tokens owner isRunning sending (file :: rest) thread) (t : τ)
    (waits : thread t = .receive) :
    Tokens (update owner file (.disk t)) isRunning sending rest (update thread t (.get file)) := by
  have mine : owner file = .socket := (tokens.socket file).mp List.mem_cons_self
  obtain ⟨absent,once⟩ := List.nodup_cons.mp tokens.once
  refine ⟨fun other => ?_,fun other => ?_,fun other => ?_,once,fun other u => ?_⟩
  · have old := tokens.idle other
    by_cases eq : other = file
    · subst eq
      simp [old,mine]
    · simp [eq,old]
  · have old := tokens.main other
    by_cases eq : other = file
    · subst eq
      simp [old,mine]
    · simp [eq,old]
  · have old := tokens.socket other
    by_cases eq : other = file
    · subst eq
      simp [absent]
    · simpa [eq] using old
  · have old := tokens.disk other u
    by_cases eq : other = file
    · subst eq
      by_cases own : u = t
      · simp [own,Phase.file]
      · simp [own,old,mine,Ne.symm own]
    · by_cases own : u = t
      · subst own
        simp [waits,Phase.file] at old
        simp [eq,Ne.symm eq,Phase.file,old]
      · simp [eq,own,old]

/-- A disk thread leaves its file. -/
theorem Tokens.leave (tokens : Tokens owner isRunning sending posted thread) (t : τ)
    (works : (thread t).file = some file) :
    Tokens (update owner file .nobody) (update isRunning file false) sending posted (update thread t .receive) := by
  have mine : owner file = .disk t := (tokens.disk file t).mp works
  refine ⟨fun other => ?_,fun other => ?_,fun other => ?_,tokens.once,fun other u => ?_⟩
  · have old := tokens.idle other
    by_cases eq : other = file <;> simp [eq,old]
  · have old := tokens.main other
    by_cases eq : other = file
    · subst eq
      simp [old,mine]
    · simp [eq,old]
  · have old := tokens.socket other
    by_cases eq : other = file
    · subst eq
      simp [old,mine]
    · simp [eq,old]
  · have old := tokens.disk other u
    by_cases eq : other = file
    · subst eq
      by_cases own : u = t
      · simp [own,Phase.file]
      · simp [own,old,mine,Ne.symm own]
    · by_cases own : u = t
      · subst own
        simp [works,Ne.symm eq] at old
        simp [eq,Phase.file,old]
      · simp [eq,own,old]

end Tokens

section Invariant
variable {φ τ ρ : Type} {v : View φ τ ρ} {owner : φ → Owner τ} {st st' : State φ τ ρ}

/-- The requests of a file that its disk thread moved and has not taken. -/
def inHand (batch : τ → List ρ) : Owner τ → List ρ
  | .disk t => batch t
  | _ => []

/-- What a disk thread has read holds until its next step. -/
def Ready (v : View φ τ ρ) (t : τ) : Phase φ ρ → Prop
  | .receive => v.batch t = []
  | .lock file someSeen => if someSeen then v.waiting file ≠ [] else v.batch t = []
  | .first _ => v.batch t ≠ []
  | _ => True

structure Holds (v : View φ τ ρ) (owner : φ → Owner τ) (st : State φ τ ρ) : Prop where
  linking : Linking v st.links
  tokens : Tokens owner st.isRunning st.sending st.posted st.thread
  ready : ∀ t, Ready v t (st.thread t)
  order : ∀ file, st.handed file ++ inHand v.batch (owner file) ++ v.waiting file = st.arrived file
  quiet : ∀ file, owner file = .nobody → v.waiting file = []
  free : ∀ r, st.busy r = false ↔ v.place r = .free
  processed : ∀ t file r, st.thread t = .process file r → v.place r = .processed t
  answered : ∀ r, r ∈ st.answered ↔ v.place r = .answered
  once : st.answered.Nodup

theorem holds_start : ∃ (v : View φ τ ρ) (owner : φ → Owner τ), Holds v owner start := by
  refine ⟨⟨fun _ => [],fun _ => [],fun _ => .free⟩,fun _ => .nobody,?_⟩
  constructor
  · constructor
    · exact fun file => ⟨.singleton _,⟨rfl,rfl⟩,List.nodup_singleton _⟩
    · exact fun t => ⟨.singleton _,⟨rfl,rfl⟩,List.nodup_singleton _⟩
    all_goals simp
  · constructor <;> simp [start,Phase.file]
  all_goals simp [start,Ready,inHand]

theorem Ready.more_waiting (ready : Ready v t phase) [DecidableEq φ] (file : φ) (r : ρ) (place : ρ → Place φ τ) :
    Ready ⟨update v.waiting file (v.waiting file ++ [r]),v.batch,place⟩ t phase := by
  cases phase with
  | lock other someSeen =>
    by_cases eq : other = file
    · subst eq
      cases someSeen <;> simp_all [Ready]
    · simpa [Ready,eq] using ready
  | _ => exact ready

theorem Ready.frame (ready : Ready v t phase) (v' : View φ τ ρ) (batch : v'.batch t = v.batch t)
    (waiting : ∀ file, phase.file = some file → v'.waiting file = v.waiting file) : Ready v' t phase := by
  cases phase with
  | lock file someSeen => simpa [Ready,batch,waiting file rfl] using ready
  | get file => trivial
  | process file r => trivial
  | _ => simpa [Ready,batch] using ready

/-- Another file is not in the hand of the disk thread that has `file`. -/
theorem Holds.inHand_other [DecidableEq τ] (holds : Holds v owner st) (has : (st.thread t).file = some file)
    (eq : other ≠ file) (list : List ρ) : inHand (update v.batch t list) (owner other) = inHand v.batch (owner other) := by
  cases whose : owner other with
  | disk u =>
    have own : u ≠ t := by
      rintro rfl
      exact eq (Option.some.inj (((holds.tokens.disk other u).mpr whose).symm.trans has))
    simp [inHand,own]
  | _ => rfl

variable [DecidableEq φ] [DecidableEq τ] [DecidableEq ρ]

theorem Holds.begin (holds : Holds v owner st) (file : φ) (r : ρ) (quiet : st.sending = none)
    (free : st.busy r = false) : ∃ v owner, Holds v owner (serializationBegin file r st) := by
  have spare := (holds.free r).mp free
  have idle := holds.tokens.idle file
  refine ⟨⟨update v.waiting file (v.waiting file ++ [r]),v.batch,update v.place r (.waiting file)⟩,
    if st.isRunning file then owner else update owner file .main,holds.linking.enqueue file r spare,?_,
    fun t => (holds.ready t).more_waiting file r _,fun other => ?_,fun other nobody => ?_,fun x => ?_,
    fun t other x works => ?_,fun x => ?_,holds.once⟩
  · have tokens := holds.tokens
    rw [quiet] at tokens
    by_cases runs : st.isRunning file = true
    · have same : update st.isRunning file true = st.isRunning := Function.update_eq_self_iff.mpr runs.symm
      simpa [serializationBegin,insertPendingRequestList,runs,same] using tokens
    · have stopped : st.isRunning file = false := Bool.eq_false_iff.mpr runs
      simpa [serializationBegin,insertPendingRequestList,stopped] using tokens.wake file (idle.mp stopped)
  · have old := holds.order other
    by_cases eq : other = file
    · subst eq
      by_cases runs : st.isRunning other = true
      · simp [serializationBegin,insertPendingRequestList,runs,← old]
      · have nobody := idle.mp (Bool.eq_false_iff.mpr runs)
        simp [serializationBegin,insertPendingRequestList,runs,← old,nobody,inHand]
    · by_cases runs : st.isRunning file = true
      · simpa [serializationBegin,insertPendingRequestList,runs,eq] using old
      · simpa [serializationBegin,insertPendingRequestList,runs,eq] using old
  · by_cases eq : other = file
    · subst eq
      by_cases runs : st.isRunning other = true
      · simp [runs] at nobody
        simp [idle.mpr nobody] at runs
      · simp [runs] at nobody
    · have old : owner other = .nobody := by
        by_cases runs : st.isRunning file = true <;> simpa [runs,eq] using nobody
      simpa [eq] using holds.quiet other old
  · have old := holds.free x
    by_cases eq : x = r <;> simp [serializationBegin,insertPendingRequestList,eq,old]
  · have old := holds.processed t other x works
    by_cases eq : x = r
    · subst eq
      cases old.symm.trans spare
    · simp [eq,old]
  · have old := holds.answered x
    by_cases eq : x = r
    · subst eq
      simpa [serializationBegin,insertPendingRequestList,spare] using old
    · simp [serializationBegin,insertPendingRequestList,eq,old]

omit [DecidableEq τ] [DecidableEq ρ] in
theorem Holds.send (holds : Holds v owner st) (sends : st.sending = some file) :
    ∃ v owner, Holds v owner { st with sending := none, posted := st.posted ++ [file] } := by
  have tokens := holds.tokens
  rw [sends] at tokens
  have mine : owner file = .main := (tokens.main file).mp rfl
  refine ⟨v,update owner file .socket,{ holds with tokens := tokens.post, order := ?_, quiet := ?_ }⟩
  · intro other
    have old := holds.order other
    by_cases eq : other = file
    · subst eq
      simpa [mine,inHand] using old
    · simpa [eq] using old
  · intro other nobody
    by_cases eq : other = file
    · simp [eq] at nobody
    · exact holds.quiet other (by simpa [eq] using nobody)

theorem Holds.receive (holds : Holds v owner st) (t : τ) (waits : st.thread t = .receive)
    (posted : st.posted = file :: later) :
    ∃ v owner, Holds v owner
      { st with links := st.links.init (.batch t), posted := later, thread := update st.thread t (.get file) } := by
  have tokens := holds.tokens
  rw [posted] at tokens
  have mine : owner file = .socket := (tokens.socket file).mp List.mem_cons_self
  have none : v.batch t = [] := by
    have ready := holds.ready t
    rwa [waits] at ready
  refine ⟨v,update owner file (.disk t),{ holds with
    linking := holds.linking.initBatch t none, tokens := tokens.receive t waits,
    ready := ?_, order := ?_, quiet := ?_, processed := ?_ }⟩
  · intro u
    by_cases own : u = t
    · subst own
      simp [Ready]
    · simpa [own] using holds.ready u
  · intro other
    have old := holds.order other
    by_cases eq : other = file
    · subst eq
      simpa [mine,inHand,none] using old
    · simpa [eq] using old
  · intro other nobody
    by_cases eq : other = file
    · simp [eq] at nobody
    · exact holds.quiet other (by simpa [eq] using nobody)
  · intro u other r works
    by_cases own : u = t
    · simp [own] at works
    · exact holds.processed u other r (by simpa [own] using works)

/-- A disk thread reads the lists before it takes the lock. -/
theorem Holds.getBeforeLock (holds : Holds v owner st) (t : τ) (works : st.thread t = .get file) :
    Holds v owner (getBeforeLock t file st) := by
  have waiting := (holds.linking.waitingRing file).isEmpty
  have batch := (holds.linking.batchRing t).isEmpty
  simp only [List.isEmpty_map] at waiting batch
  refine { holds with tokens := holds.tokens.phase t _ ?_, ready := ?_, processed := ?_ }
  · rw [works]
    split
    · split <;> rfl
    · rfl
  · intro u
    by_cases own : u = t
    · subst own
      cases empty : v.waiting file <;> cases mine : v.batch u <;>
        simp [StorioSerialization.getBeforeLock,Ready,waiting,batch,empty,mine]
    · simpa [StorioSerialization.getBeforeLock,own] using holds.ready u
  · intro u other r process
    by_cases own : u = t
    · subst own
      simp only [StorioSerialization.getBeforeLock,Function.update_self] at process
      split at process
      · split at process <;> cases process
      · cases process
    · exact holds.processed u other r (by simpa [StorioSerialization.getBeforeLock,own] using process)

/-- A disk thread that has a file is the only one that moves its list. -/
theorem Holds.getLocked (holds : Holds v owner st) (t : τ) (works : st.thread t = .lock file someSeen) :
    ∃ v owner, Holds v owner (getLocked t file someSeen st) := by
  have waiting := (holds.linking.waitingRing file).isEmpty
  simp only [List.isEmpty_map] at waiting
  have has : (st.thread t).file = some file := by rw [works,Phase.file]
  have mine := (holds.tokens.disk file t).mp has
  have read := holds.ready t
  rw [works] at read
  have alone : ∀ u, u ≠ t → (st.thread u).file ≠ some file := by
    intro u other also
    cases ((holds.tokens.disk file u).mp also).symm.trans mine
    exact other rfl
  rw [StorioSerialization.getLocked,waiting]
  by_cases empty : v.waiting file = []
  · have seen : someSeen = false := by
      by_contra seen
      simp [Ready,seen,empty] at read
    have done : v.batch t = [] := by simpa [Ready,seen] using read
    simp only [seen,empty,Bool.not_false,List.isEmpty_nil,Bool.and_self,if_true]
    refine ⟨v,update owner file .nobody,{ holds with
      tokens := holds.tokens.leave t has, ready := ?_, order := ?_, quiet := ?_, processed := ?_ }⟩
    · intro u
      by_cases own : u = t
      · subst own
        simpa [Ready] using done
      · simpa [own] using holds.ready u
    · intro other
      have old := holds.order other
      by_cases eq : other = file
      · subst eq
        simpa [inHand,mine,done] using old
      · simpa [eq] using old
    · intro other nobody
      by_cases eq : other = file
      · exact eq ▸ empty
      · exact holds.quiet other (by simpa [eq] using nobody)
    · intro u other r process
      by_cases own : u = t
      · simp [own] at process
      · exact holds.processed u other r (by simpa [own] using process)
  · have more : (!someSeen && (v.waiting file).isEmpty) = false := by simp [empty]
    simp only [more,Bool.false_eq_true,if_false]
    refine ⟨_,owner,{ holds with
      linking := holds.linking.move file t empty, tokens := holds.tokens.phase t (.first file) (by rw [has,Phase.file]),
      ready := ?_, order := ?_, quiet := ?_, free := ?_, processed := ?_, answered := ?_ }⟩
    · intro u
      by_cases own : u = t
      · subst own
        simp [Ready,empty]
      · simp only [Function.update_of_ne own]
        refine (holds.ready u).frame _ (Function.update_of_ne own _ _) fun other also => ?_
        have eq : other ≠ file := by
          rintro rfl
          exact alone u own also
        exact Function.update_of_ne eq _ _
    · intro other
      have old := holds.order other
      by_cases eq : other = file
      · subst eq
        simpa [inHand,mine] using old
      · simpa [eq,holds.inHand_other has eq] using old
    · intro other nobody
      by_cases eq : other = file
      · simp [eq]
      · simpa [eq] using holds.quiet other nobody
    · intro r
      have old := holds.free r
      by_cases moved : v.place r = .waiting file <;> simp [moved,old]
    · intro u other r process
      by_cases own : u = t
      · simp [own] at process
      · have old := holds.processed u other r (by simpa [own] using process)
        simp [old]
    · intro r
      have old := holds.answered r
      by_cases moved : v.place r = .waiting file <;> simp [moved,old]

theorem Holds.take (holds : Holds v owner st) (t : τ) (works : st.thread t = .first file) :
    ∃ r, st.links.next (.batch t) = .request r ∧ ∃ v owner, Holds v owner { st with
      links := st.links.remove (.request r)
      thread := update st.thread t (.process file r)
      handed := update st.handed file (st.handed file ++ [r]) } := by
  have has : (st.thread t).file = some file := by rw [works,Phase.file]
  have mine := (holds.tokens.disk file t).mp has
  have some : v.batch t ≠ [] := by
    have read := holds.ready t
    rwa [works] at read
  obtain ⟨r,later,list⟩ := List.exists_cons_of_ne_nil some
  have here : v.place r = .batch t := (holds.linking.placeBatch r t).mp (by simp [list])
  have ring := holds.linking.batchRing t
  rw [list] at ring
  refine ⟨r,ring.next_first,_,owner,{ holds with
    linking := holds.linking.take t list,
    tokens := holds.tokens.phase t (.process file r) (by rw [has,Phase.file]),
    ready := ?_, order := ?_, free := ?_, processed := ?_, answered := ?_ }⟩
  · intro u
    by_cases own : u = t
    · subst own
      simp [Ready]
    · simp only [Function.update_of_ne own]
      exact (holds.ready u).frame _ (Function.update_of_ne own _ _) fun _ _ => rfl
  · intro other
    have old := holds.order other
    by_cases eq : other = file
    · subst eq
      simpa [inHand,mine,list] using old
    · simpa [eq,holds.inHand_other has eq] using old
  · intro x
    have old := holds.free x
    by_cases eq : x = r
    · subst eq
      simp [old,here]
    · simp [eq,old]
  · intro u other x process
    by_cases own : u = t
    · subst own
      simp only [Function.update_self,Phase.process.injEq] at process
      simp [process.2]
    · have old := holds.processed u other x (by simpa [own] using process)
      have eq : x ≠ r := by
        rintro rfl
        cases old.symm.trans here
      simp [eq,old]
  · intro x
    have old := holds.answered x
    by_cases eq : x = r
    · subst eq
      simp [old,here]
    · simp [eq,old]

omit [DecidableEq φ] in
theorem Holds.answer (holds : Holds v owner st) (t : τ) (works : st.thread t = .process file r) :
    ∃ v owner, Holds v owner { st with answered := st.answered ++ [r], thread := update st.thread t (.get file) } := by
  have here := holds.processed t file r works
  have fresh : r ∉ st.answered := by simp [holds.answered,here]
  refine ⟨_,owner,{ holds with
    linking := holds.linking.relabel r .answered (.inr ⟨t,here⟩) (.inl rfl),
    tokens := holds.tokens.phase t (.get file) (by rw [works,Phase.file,Phase.file]),
    ready := ?_, free := ?_, processed := ?_, answered := ?_,
    once := holds.once.append (List.nodup_singleton _) (by simpa using fresh) }⟩
  · intro u
    by_cases own : u = t
    · subst own
      simp [Ready]
    · simpa [Ready,own] using holds.ready u
  · intro x
    have old := holds.free x
    by_cases eq : x = r
    · subst eq
      simp [old,here]
    · simp [eq,old]
  · intro u other x process
    by_cases own : u = t
    · simp [own] at process
    · have old := holds.processed u other x (by simpa [own] using process)
      have eq : x ≠ r := by
        rintro rfl
        cases old.symm.trans here
        exact own rfl
      simp [eq,old]
  · intro x
    have old := holds.answered x
    by_cases eq : x = r <;> simp [eq,old]

theorem Holds.finish (holds : Holds v owner st) (answered : st.answered = r :: later) :
    ∃ v owner, Holds v owner (serializationEnd r { st with answered := later }) := by
  have here := (holds.answered r).mp (by simp [answered])
  have unlinked := (holds.linking.alone r (.inl here)).remove_alone
  have once := holds.once
  rw [answered] at once
  obtain ⟨fresh,once⟩ := List.nodup_cons.mp once
  simp only [serializationEnd,unlinked]
  refine ⟨_,owner,{ holds with
    linking := holds.linking.relabel r .free (.inl here) (.inr rfl), free := ?_, processed := ?_, answered := ?_,
    once := once }⟩
  · intro x
    have old := holds.free x
    by_cases eq : x = r <;> simp [eq,old]
  · intro u other x process
    have old := holds.processed u other x process
    have eq : x ≠ r := by
      rintro rfl
      cases old.symm.trans here
    simp [eq,old]
  · intro x
    have old := holds.answered x
    by_cases eq : x = r
    · subst eq
      simp [fresh]
    · simpa [answered,eq] using old

/-- A disk thread that has a file can go on. -/
theorem Holds.diskSerial (holds : Holds v owner st) (t : τ) (works : st.thread t ≠ .receive) :
    ∃ st', diskSerial t st = some st' ∧ ∃ v owner, Holds v owner st' := by
  cases phase : st.thread t with
  | receive => exact absurd phase works
  | get file => exact ⟨_,diskSerial_get phase,v,owner,holds.getBeforeLock t phase⟩
  | lock file someSeen => exact ⟨_,diskSerial_lock phase,holds.getLocked t phase⟩
  | first file =>
    obtain ⟨r,next,after⟩ := holds.take t phase
    exact ⟨_,diskSerial_first phase next,after⟩
  | process file r => exact ⟨_,diskSerial_process phase,holds.answer t phase⟩

theorem Holds.step (holds : Holds v owner st) (a : Action φ τ ρ) (next : step a st = some st') :
    ∃ v owner, Holds v owner st' := by
  cases a with
  | begin file r =>
    simp only [StorioSerialization.step] at next
    split at next
    · rename_i enabled
      cases next
      exact holds.begin file r enabled.1 enabled.2
    · cases next
  | send =>
    simp only [StorioSerialization.step] at next
    split at next
    · cases next
    · rename_i sends
      cases next
      exact holds.send sends
  | run t =>
    by_cases waits : st.thread t = .receive
    · simp only [StorioSerialization.step,StorioSerialization.diskSerial,waits] at next
      split at next
      · cases next
      · rename_i posted
        cases next
        exact holds.receive t waits posted
    · obtain ⟨_,runs,after⟩ := holds.diskSerial t waits
      cases runs.symm.trans next
      exact after
  | finish =>
    simp only [StorioSerialization.step] at next
    split at next
    · rename_i answered
      cases next
      exact holds.finish answered
    · cases next

theorem run_holds (run : Machine.Run step (fun _ _ => True) start st) : ∃ v owner, Holds v owner st :=
  run.invariant (fun st => ∃ v owner, Holds v owner st) holds_start
    fun _ a _ ⟨_,_,holds⟩ _ next => holds.step a next

/-- The steps a disk thread may make before it takes the next request. -/
def Phase.rank : Phase φ ρ → Nat
  | .receive => 0
  | .first _ => 1
  | .lock _ _ => 2
  | .get _ => 3
  | .process _ _ => 4

/-- A bound on the steps a disk thread has to make for a file. -/
def left (t : τ) (file : φ) (st : State φ τ ρ) : Nat :=
  5 * ((st.arrived file).length - (st.handed file).length) + (st.thread t).rank

/-- Each step of a disk thread brings it closer to the end, where everything is handed. -/
theorem Holds.closer (holds : Holds v owner st) (t : τ) (has : (st.thread t).file = some file) :
    ∃ st', StorioSerialization.diskSerial t st = some st' ∧ st'.arrived = st.arrived ∧
      ((st'.thread t).file = some file ∧ left t file st' < left t file st ∨
        st'.thread t = .receive ∧ st'.handed file = st.arrived file) := by
  have mine := (holds.tokens.disk file t).mp has
  have order := holds.order file
  rw [mine,inHand] at order
  have read := holds.ready t
  cases phase : st.thread t with
  | receive =>
    rw [phase] at has
    cases has
  | get other =>
    rw [phase] at has
    cases has
    refine ⟨_,diskSerial_get phase,rfl,.inl ?_⟩
    simp only [StorioSerialization.getBeforeLock,left,phase,Function.update_self]
    split
    · split <;> simp [Phase.file,Phase.rank]
    · simp [Phase.file,Phase.rank]
  | lock other someSeen =>
    rw [phase] at has read
    cases has
    refine ⟨_,diskSerial_lock phase,?_,?_⟩
    · rw [StorioSerialization.getLocked]
      split <;> rfl
    · have waiting := (holds.linking.waitingRing file).isEmpty
      simp only [List.isEmpty_map] at waiting
      rw [StorioSerialization.getLocked,waiting]
      split
      · rename_i done
        simp only [Bool.and_eq_true,Bool.not_eq_true',List.isEmpty_iff] at done
        have batch : v.batch t = [] := by simpa [Ready,done.1] using read
        right
        simpa [batch,done.2] using order
      · left
        simp [left,phase,Phase.file,Phase.rank]
  | first other =>
    rw [phase] at has read
    cases has
    obtain ⟨r,next,-⟩ := holds.take t phase
    refine ⟨_,diskSerial_first phase next,rfl,.inl ⟨by simp [Phase.file],?_⟩⟩
    have some : 0 < (v.batch t).length := List.length_pos_iff.mpr read
    have length := congrArg List.length order
    simp only [List.length_append] at length
    simp only [left,phase,Function.update_self,Phase.rank,List.length_append,List.length_singleton]
    omega
  | process other r =>
    rw [phase] at has
    cases has
    refine ⟨_,diskSerial_process phase,rfl,.inl ?_⟩
    simp [left,phase,Phase.file,Phase.rank]

/-- A disk thread that has a file hands every request that arrived, in its own steps. -/
theorem Holds.drain (holds : Holds v owner st) (t : τ) (has : (st.thread t).file = some file) :
    ∃ n st', Machine.exec StorioSerialization.step (fun _ _ => True) (List.replicate n (.run t)) st = some st' ∧
      st'.thread t = .receive ∧ st'.handed file = st.arrived file := by
  induction bound : left t file st using Nat.strong_induction_on generalizing v owner st with
  | _ bound ih =>
    obtain ⟨next,runs,same,⟨still,less⟩ | done⟩ := holds.closer t has
    · obtain ⟨v,owner,after⟩ := holds.step (.run t) runs
      obtain ⟨n,st',rest,done⟩ := ih _ (bound ▸ less) after still rfl
      refine ⟨n + 1,st',?_,same ▸ done⟩
      simpa [List.replicate_succ,Machine.exec,StorioSerialization.step,runs] using rest
    · refine ⟨1,next,?_,done⟩
      simpa [Machine.exec,StorioSerialization.step] using runs

end Invariant

section Serialisation
variable {φ τ ρ : Type} [DecidableEq φ] [DecidableEq τ] [DecidableEq ρ] {st : State φ τ ρ}

/-- In every state: one disk thread at most has a file, and it can go on until all requests that
arrived are handed. Requests are handed in the order of arrival, each once; the others are in the
list of that thread and then in that of the file. A file whose list is not empty runs, and it is in
the hand of a disk thread unless its activation message is about to be sent or received. -/
theorem file_requests_in_order (run : Machine.Run step (fun _ _ => True) (start : State φ τ ρ) st) (file : φ) :
    (∀ t u, (st.thread t).file = some file → (st.thread u).file = some file → t = u) ∧
    (∀ t, (st.thread t).file = some file →
      ∃ n st', Machine.exec step (fun _ _ => True) (List.replicate n (.run t)) st = some st' ∧
        st'.thread t = .receive ∧ st'.handed file = st.arrived file) ∧
    ∃ batch waiting : List ρ,
      st.handed file ++ batch ++ waiting = st.arrived file ∧
      Ring st.links (.pending file) (waiting.map .request) ∧
      (batch ≠ [] → ∃ t, (st.thread t).file = some file ∧ Ring st.links (.batch t) (batch.map .request)) ∧
      (waiting ≠ [] → st.isRunning file = true ∧
        (st.sending = some file ∨ file ∈ st.posted ∨ ∃ t, (st.thread t).file = some file)) := by
  obtain ⟨v,owner,holds⟩ := run_holds run
  refine ⟨fun t u one other => ?_,fun t has => holds.drain t has,inHand v.batch (owner file),v.waiting file,
    holds.order file,holds.linking.waitingRing file,fun some => ?_,fun some => ⟨?_,?_⟩⟩
  · cases ((holds.tokens.disk file t).mp one).symm.trans ((holds.tokens.disk file u).mp other)
    rfl
  · cases mine : owner file with
    | disk t => exact ⟨t,(holds.tokens.disk file t).mpr mine,holds.linking.batchRing t⟩
    | _ => exact absurd (by rw [mine]; rfl) some
  · by_contra stopped
    have idle := (holds.tokens.idle file).mp (Bool.eq_false_iff.mpr stopped)
    exact some (holds.quiet file idle)
  · cases mine : owner file with
    | nobody => exact absurd (holds.quiet file mine) some
    | main => exact .inl ((holds.tokens.main file).mpr mine)
    | socket => exact .inr (.inl ((holds.tokens.socket file).mpr mine))
    | disk t => exact .inr (.inr ⟨t,(holds.tokens.disk file t).mpr mine⟩)

end Serialisation

/-- A request that arrives while the first one is processed is in the next batch of the disk
thread, which then goes on to hand it. -/
theorem file_requests_in_order_batch : ∃ st : State Nat Nat Nat,
    (st.thread 0,st.handed 1,st.arrived 1,st.links.next (.batch 0)) = (.first 1,[7],[7,8],.request 8) ∧
    ∃ n st', Machine.exec step (fun _ _ => True) (List.replicate n (.run 0)) st = some st' ∧
      st'.thread 0 = .receive ∧ st'.handed 1 = st.arrived 1 := by
  have done : (Machine.exec step (fun _ _ => True)
      [.begin 1 7,.send,.run 0,.run 0,.run 0,.run 0,.begin 1 8,.run 0,.run 0,.run 0] (start : State Nat Nat Nat)).map
      (fun st => (st.thread 0,st.handed 1,st.arrived 1,st.links.next (.batch 0))) =
      some (.first 1,[7],[7,8],.request 8) := by decide +kernel
  obtain ⟨st,done,seen⟩ := Option.map_eq_some_iff.mp done
  have has : (st.thread 0).file = some 1 := by rw [(Prod.mk.inj seen).1,Phase.file]
  exact ⟨st,seen,(file_requests_in_order (Machine.Run.refl.exec done) 1).2.1 0 has⟩

/-- A file has a pending request from its insertion on, a disk thread only once one has received
the activation message. -/
theorem pending_before_disk_thread : ∃ st : State Nat Nat Nat, Machine.Run step (fun _ _ => True) start st ∧
    Ring st.links (.pending 1) [.request 7] ∧ ∀ t, (st.thread t).file ≠ some 1 := by
  have ring : Ring (start : State Nat Nat Nat).links (.pending 1) [] :=
    ⟨.singleton _,⟨rfl,rfl⟩,List.nodup_singleton _⟩
  refine ⟨serializationBegin 1 7 start,.tail .refl (.begin 1 7) trivial rfl,?_,fun t => by simp [serializationBegin,
    insertPendingRequestList,start,Phase.file]⟩
  refine (ring.frame fun n member => ?_).pushBack (by simp)
  cases List.mem_singleton.mp member
  exact CircularList.init_same (by simp)

end Rozofs.StorioSerialization
