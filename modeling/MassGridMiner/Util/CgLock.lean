import Mathlib.Data.List.Infix
import Mathlib.Data.List.Nodup
import MassGridMiner.Lib.Run

/-!
# The locks of the program's data

A `cglock_t` is a mutex and a reader-writer lock.  It is locked for reading, for writing, or in an
intermediate way, which lets readers in and which can be turned into either of these.  Each function
takes several steps, between which other threads take theirs.

## Main definitions

* `LockFn.ops` — the functions, as what they do to the mutex and to the reader-writer lock.
* `CgLock`, `CgLock.step` — a lock and its threads, and a step of one of them.
* `LockThread.grip` — what a thread has of the two, by what it has still to do.
* `Right`, `right_of_lockRun` — who excludes whom, what stays as it was seen, and who waits.
* `own_of_run` — who demotes or promotes a lock misses no change.
-/

namespace MassGridMiner

/-- The calls that a function is made of. -/
inductive LockOp
  | mutexLock
  | mutexUnlock
  | rdLock
  | wrLock
  | rdUnlock
  | wrUnlock
deriving DecidableEq

/-- In which way a thread has the lock. -/
inductive LockMode
  | idle
  | read
  | intermediate
  | write
deriving DecidableEq

/-- The functions, without those that make and destroy a lock. -/
inductive LockFn
  | cgRlock
  | cgIlock
  | cgUlock
  | cgWlock
  | cgDwlock
  | cgDwilock
  | cgDlock
  | cgRunlock
  | cgWunlock
deriving DecidableEq

namespace LockFn

/-- The bodies of the functions. -/
def ops : LockFn → List LockOp
  | cgRlock => [.mutexLock, .rdLock, .mutexUnlock]
  | cgIlock => [.mutexLock]
  | cgUlock => [.wrLock]
  | cgWlock => [.mutexLock, .wrLock]
  | cgDwlock => [.wrUnlock, .rdLock, .mutexUnlock]
  | cgDwilock => [.wrUnlock]
  | cgDlock => [.rdLock, .mutexUnlock]
  | cgRunlock => [.rdUnlock]
  | cgWunlock => [.wrUnlock, .mutexUnlock]

/-- In which way a thread is to have the lock that calls the function. -/
def before : LockFn → LockMode
  | cgRlock | cgIlock | cgWlock => .idle
  | cgUlock | cgDlock => .intermediate
  | cgDwlock | cgDwilock | cgWunlock => .write
  | cgRunlock => .read

/-- In which way it has the lock afterwards. -/
def after : LockFn → LockMode
  | cgRlock | cgDwlock | cgDlock => .read
  | cgIlock | cgDwilock => .intermediate
  | cgUlock | cgWlock => .write
  | cgRunlock | cgWunlock => .idle

/-- The functions that give the lock back. -/
def releases : LockFn → Bool
  | cgRunlock | cgWunlock => true
  | _ => false

end LockFn

/-- A thread, with what it has still to do of the function that it is in, and in which way it has
the lock when that is done.  `seen` is not in the source: the version of the data that the thread
may have read. -/
structure LockThread where
  mode : LockMode
  todo : List LockOp
  seen : ℕ

/-- `struct cglock`, with its threads.  `version` is not in the source: how often the data was
locked for writing. -/
structure CgLock (T : Type*) where
  mutex : Option T
  writer : Option T
  readers : List T
  thread : T → LockThread
  version : ℕ

/-- A thread calls a function, or takes a step of the one that it is in. -/
inductive LockEvent (T : Type*)
  | call (t : T) (f : LockFn)
  | go (t : T)

namespace CgLock
variable {T : Type*} [DecidableEq T]

/-- `cglock_init`. -/
def init : CgLock T where
  mutex := none
  writer := none
  readers := []
  thread := fun _ => ⟨.idle, [], 0⟩
  version := 0

/-- A thread has seen the data as it is. -/
def look (s : CgLock T) (t : T) : CgLock T :=
  { s with thread := Function.update s.thread t { s.thread t with seen := s.version } }

/-- What a call does, when it does not have to wait. -/
def perform (s : CgLock T) (t : T) : LockOp → Option (CgLock T)
  | .mutexLock => if s.mutex = none then some ({ s with mutex := some t }.look t) else none
  | .mutexUnlock => if s.mutex = some t then some { s with mutex := none } else none
  | .rdLock => if s.writer = none then some { s with readers := t :: s.readers } else none
  | .wrLock =>
    if s.writer = none ∧ s.readers = [] then
      some ({ s with writer := some t, version := s.version + 1 }.look t)
    else none
  | .rdUnlock => if t ∈ s.readers then some { s with readers := s.readers.erase t } else none
  | .wrUnlock => if s.writer = some t then some { s with writer := none } else none

/-- A thread has other things to do. -/
def put (s : CgLock T) (t : T) (mode : LockMode) (todo : List LockOp) : CgLock T :=
  { s with thread := Function.update s.thread t { s.thread t with mode := mode, todo := todo } }

/-- A step, where the thread is to take one and does not have to wait. -/
def step (s : CgLock T) : LockEvent T → Option (CgLock T)
  | .call t f =>
    if (s.thread t).todo = [] ∧ (s.thread t).mode = f.before then some (s.put t f.after f.ops)
    else none
  | .go t =>
    match (s.thread t).todo with
    | [] => none
    | op :: rest => (s.put t (s.thread t).mode rest).perform t op

/-- A thread is in no function and has the lock. -/
def Holds (s : CgLock T) (t : T) (mode : LockMode) : Prop :=
  (s.thread t).todo = [] ∧ (s.thread t).mode = mode

end CgLock

/-! ## What a thread has -/

/-- What a thread has of the reader-writer lock. -/
inductive RwGrip
  | free
  | read
  | write
deriving DecidableEq

/-- What a thread has of the mutex and of the reader-writer lock. -/
structure Grip where
  mutex : Bool
  rw : RwGrip
deriving DecidableEq

/-- Nothing. -/
def Grip.none : Grip := ⟨false, .free⟩

def LockMode.grip : LockMode → Grip
  | .idle => .none
  | .read => ⟨false, .read⟩
  | .intermediate => ⟨true, .free⟩
  | .write => ⟨true, .write⟩

/-- What a thread has before a call, by what it has afterwards. -/
def LockOp.undo : LockOp → Grip → Grip
  | .mutexLock, g => { g with mutex := false }
  | .mutexUnlock, g => { g with mutex := true }
  | .rdLock, g => { g with rw := .free }
  | .wrLock, g => { g with rw := .free }
  | .rdUnlock, g => { g with rw := .read }
  | .wrUnlock, g => { g with rw := .write }

/-- What a thread is to have before a call and afterwards. -/
def LockOp.Fits : LockOp → Grip → Grip → Prop
  | .mutexLock, g, g' => g = .none ∧ g' = ⟨true, .free⟩
  | .mutexUnlock, g, g' => g.mutex = true ∧ g.rw ≠ .write ∧ g' = { g with mutex := false }
  | .rdLock, g, g' => g = ⟨true, .free⟩ ∧ g' = ⟨true, .read⟩
  | .wrLock, g, g' => g = ⟨true, .free⟩ ∧ g' = ⟨true, .write⟩
  | .rdUnlock, g, g' => g = ⟨false, .read⟩ ∧ g' = .none
  | .wrUnlock, g, g' => g = ⟨true, .write⟩ ∧ g' = ⟨true, .free⟩

instance (op : LockOp) (g g' : Grip) : Decidable (op.Fits g g') := by
  cases op <;> unfold LockOp.Fits <;> infer_instance

/-- What a thread has that is still to do all this. -/
def gripBefore (todo : List LockOp) (g : Grip) : Grip := todo.foldr LockOp.undo g

/-- Each of the calls is made with what it is to be made with. -/
def Legal : List LockOp → Grip → Prop
  | [], _ => True
  | op :: rest, g => op.Fits (gripBefore (op :: rest) g) (gripBefore rest g) ∧ Legal rest g

instance decidableLegal : ∀ (todo : List LockOp) (g : Grip), Decidable (Legal todo g)
  | [], _ => isTrue trivial
  | op :: rest, g =>
    have := decidableLegal rest g
    inferInstanceAs (Decidable (op.Fits (gripBefore (op :: rest) g) (gripBefore rest g) ∧ _))

/-- The bodies of the functions take a thread from the one way to the other. -/
theorem LockFn.legal (f : LockFn) :
    Legal f.ops f.after.grip ∧ gripBefore f.ops f.after.grip = f.before.grip := by
  cases f <;> decide

/-- Who writes has the mutex. -/
theorem Legal.mutex_of_write {todo : List LockOp} {mode : LockMode} (H : Legal todo mode.grip)
    (h : (gripBefore todo mode.grip).rw = .write) : (gripBefore todo mode.grip).mutex = true := by
  cases todo with
  | nil => cases mode <;> first | rfl | cases h
  | cons op rest =>
      have hfits := H.1
      cases op with
      | mutexLock => rw [hfits.1] at h; cases h
      | mutexUnlock => exact absurd h hfits.2.1
      | rdLock => rw [hfits.1] at h; cases h
      | wrLock => rw [hfits.1] at h; cases h
      | rdUnlock => rw [hfits.1] at h; cases h
      | wrUnlock => rw [hfits.1]

namespace LockThread

/-- What a thread has. -/
def grip (x : LockThread) : Grip := gripBefore x.todo x.mode.grip

theorem grip_of_todo_eq_nil {x : LockThread} (h : x.todo = []) : x.grip = x.mode.grip := by
  rw [grip, h]
  rfl

/-- A thread has something all the time until its function is done. -/
def Keeps (x : LockThread) : Prop :=
  ∀ todo ∈ x.todo.tails, gripBefore todo x.mode.grip ≠ .none

theorem Keeps.grip_ne {x : LockThread} (H : x.Keeps) : x.grip ≠ .none :=
  H x.todo ((List.mem_tails _ _).mpr List.suffix_rfl)

end LockThread

/-- Who has the lock has something while it demotes or promotes it. -/
theorem LockFn.keeps {f : LockFn} (hreleases : f.releases = false) (hbefore : f.before ≠ .idle) :
    ∀ todo ∈ f.ops.tails, gripBefore todo f.after.grip ≠ .none := by
  cases f <;> first | exact absurd rfl hbefore | exact absurd hreleases (by decide) | decide

namespace CgLock
variable {T : Type*} [DecidableEq T] {s s' : CgLock T} {t u : T}

/-- What each thread has is what the mutex and the reader-writer lock say. -/
structure Agrees (mutex writer : Option T) (readers : List T) (grip : T → Grip) : Prop where
  mutex_iff : ∀ t, mutex = some t ↔ (grip t).mutex = true
  writer_iff : ∀ t, writer = some t ↔ (grip t).rw = .write
  mem_readers_iff : ∀ t, t ∈ readers ↔ (grip t).rw = .read
  nodup : readers.Nodup
  alone : writer ≠ none → readers = []

/-- What each thread has. -/
def grips (s : CgLock T) (t : T) : Grip := (s.thread t).grip

/-- The threads have what the lock says, do what they may do, and have seen the data as it is. -/
structure Inv (s : CgLock T) : Prop where
  agrees : Agrees s.mutex s.writer s.readers s.grips
  legal : ∀ t, Legal (s.thread t).todo (s.thread t).mode.grip
  seen : ∀ t, s.grips t ≠ .none → (s.thread t).seen = s.version

omit [DecidableEq T] in
theorem Inv.start : Inv (init : CgLock T) := by
  refine ⟨⟨fun t => ?_, fun t => ?_, fun t => ?_, List.nodup_nil, fun _ => rfl⟩, fun _ => trivial,
    fun t h => absurd rfl h⟩ <;> exact iff_of_false nofun nofun

/-! ## What there is of the lock -/

section
variable {mutex writer : Option T} {readers : List T} {grip : T → Grip} {g : Grip}

theorem Agrees.lockMutex (H : Agrees none writer readers grip) (h : grip t = .none) :
    Agrees (some t) writer readers (Function.update grip t ⟨true, .free⟩) := by
  refine ⟨fun u => ?_, fun u => ?_, fun u => ?_, H.nodup, H.alone⟩ <;>
    rcases eq_or_ne u t with rfl | hne
  · simp
  · have hu := H.mutex_iff u
    simpa [hne, hne.symm] using hu
  · have hu := H.writer_iff u
    simpa [h, Grip.none] using hu
  · simpa [hne] using H.writer_iff u
  · have hu := H.mem_readers_iff u
    simpa [h, Grip.none] using hu
  · simpa [hne] using H.mem_readers_iff u

theorem Agrees.unlockMutex (H : Agrees (some t) writer readers grip) :
    Agrees none writer readers (Function.update grip t { grip t with mutex := false }) := by
  refine ⟨fun u => ?_, fun u => ?_, fun u => ?_, H.nodup, H.alone⟩ <;>
    rcases eq_or_ne u t with rfl | hne
  · simp
  · have hu := H.mutex_iff u
    simpa [hne, hne.symm] using hu
  · simpa using H.writer_iff u
  · simpa [hne] using H.writer_iff u
  · simpa using H.mem_readers_iff u
  · simpa [hne] using H.mem_readers_iff u

theorem Agrees.lockRead (H : Agrees mutex none readers grip) (h : grip t = ⟨true, .free⟩) :
    Agrees mutex none (t :: readers) (Function.update grip t ⟨true, .read⟩) := by
  have hnot : t ∉ readers := fun hmem => by
    have hread := (H.mem_readers_iff t).mp hmem
    rw [h] at hread
    cases hread
  refine ⟨fun u => ?_, fun u => ?_, fun u => ?_, List.nodup_cons.mpr ⟨hnot, H.nodup⟩,
    fun hw => absurd rfl hw⟩ <;> rcases eq_or_ne u t with rfl | hne
  · simpa [h] using H.mutex_iff u
  · simpa [hne] using H.mutex_iff u
  · simp
  · simpa [hne] using H.writer_iff u
  · simp
  · simpa [hne] using H.mem_readers_iff u

theorem Agrees.lockWrite (H : Agrees mutex none [] grip) (h : grip t = ⟨true, .free⟩) :
    Agrees mutex (some t) [] (Function.update grip t ⟨true, .write⟩) := by
  refine ⟨fun u => ?_, fun u => ?_, fun u => ?_, List.nodup_nil, fun _ => rfl⟩ <;>
    rcases eq_or_ne u t with rfl | hne
  · simpa [h] using H.mutex_iff u
  · simpa [hne] using H.mutex_iff u
  · simp
  · have hu := H.writer_iff u
    simpa [hne, hne.symm] using hu
  · simp
  · simpa [hne] using H.mem_readers_iff u

theorem Agrees.unlockRead (H : Agrees mutex writer readers grip) (h : grip t = ⟨false, .read⟩) :
    Agrees mutex writer (readers.erase t) (Function.update grip t .none) := by
  refine ⟨fun u => ?_, fun u => ?_, fun u => ?_, H.nodup.erase t, fun hw => ?_⟩
  · rcases eq_or_ne u t with rfl | hne
    · simpa [h, Grip.none] using H.mutex_iff u
    · simpa [hne] using H.mutex_iff u
  · rcases eq_or_ne u t with rfl | hne
    · have hu := H.writer_iff u
      simpa [h, Grip.none] using hu
    · simpa [hne] using H.writer_iff u
  · rcases eq_or_ne u t with rfl | hne
    · simp [H.nodup.mem_erase_iff, Grip.none]
    · simpa [hne, H.nodup.mem_erase_iff] using H.mem_readers_iff u
  · rw [H.alone hw]
    rfl

theorem Agrees.unlockWrite (H : Agrees mutex (some t) readers grip)
    (h : grip t = ⟨true, .write⟩) :
    Agrees mutex none readers (Function.update grip t ⟨true, .free⟩) := by
  refine ⟨fun u => ?_, fun u => ?_, fun u => ?_, H.nodup, fun hw => absurd rfl hw⟩ <;>
    rcases eq_or_ne u t with rfl | hne
  · simpa [h] using H.mutex_iff u
  · simpa [hne] using H.mutex_iff u
  · simp
  · have hu := H.writer_iff u
    simpa [hne, hne.symm] using hu
  · have hu := H.mem_readers_iff u
    simpa [h] using hu
  · simpa [hne] using H.mem_readers_iff u

omit [DecidableEq T] in
/-- Where a thread has the mutex and nobody reads or writes, the others have nothing. -/
theorem Agrees.grip_eq_none (H : Agrees mutex none [] grip) (h : (grip t).mutex = true)
    (hne : u ≠ t) : grip u = .none := by
  have hmutex : (grip u).mutex = false := by
    by_contra htrue
    have hu := (H.mutex_iff u).mpr (by simpa using htrue)
    rw [(H.mutex_iff t).mpr h] at hu
    exact hne (Option.some.inj hu).symm
  have hwrite : (grip u).rw ≠ .write := fun hw => by cases (H.writer_iff u).mpr hw
  have hread : (grip u).rw ≠ .read := fun hr => by cases (H.mem_readers_iff u).mpr hr
  rcases hgrip : grip u with ⟨m, rw⟩
  rw [hgrip] at hmutex hwrite hread
  cases rw
  · rw [Grip.none, ← hmutex]
  · exact absurd rfl hread
  · exact absurd rfl hwrite

end

/-! ## One step -/

theorem grips_put (s : CgLock T) (t : T) (mode : LockMode) (todo : List LockOp) :
    (s.put t mode todo).grips = Function.update s.grips t (gripBefore todo mode.grip) := by
  funext u
  rcases eq_or_ne u t with rfl | hne
  · simp [grips, put, LockThread.grip]
  · simp [grips, put, hne]

theorem grips_look (s : CgLock T) (t : T) : (s.look t).grips = s.grips := by
  funext u
  rcases eq_or_ne u t with rfl | hne
  · simp [grips, look, LockThread.grip]
  · simp [grips, look, hne]

omit [DecidableEq T] in
/-- One thread does something that the others do not feel. -/
theorem Inv.after (H : Inv s) (hothers : ∀ u, u ≠ t → s'.thread u = s.thread u)
    (hagrees : Agrees s'.mutex s'.writer s'.readers s'.grips)
    (hlegal : Legal (s'.thread t).todo (s'.thread t).mode.grip)
    (hseen : s'.grips t ≠ .none → (s'.thread t).seen = s'.version)
    (hversion : ∀ u, u ≠ t → s.grips u ≠ .none → s'.version = s.version) : Inv s' := by
  refine ⟨hagrees, fun u => ?_, fun u hu => ?_⟩ <;> rcases eq_or_ne u t with rfl | hne
  · exact hlegal
  · rw [hothers u hne]
    exact H.legal u
  · exact hseen hu
  · have hgrip : s.grips u ≠ .none := by
      rwa [grips, ← hothers u hne]
    rw [hothers u hne, H.seen u hgrip, hversion u hne hgrip]

/-- A function is called by who may call it. -/
theorem Inv.call (H : Inv s) {f : LockFn} (htodo : (s.thread t).todo = [])
    (hmode : (s.thread t).mode = f.before) : Inv (s.put t f.after f.ops) := by
  obtain ⟨hlegal, hbefore⟩ := f.legal
  have hgrips : (s.put t f.after f.ops).grips = s.grips := by
    rw [grips_put, hbefore, ← hmode, ← LockThread.grip_of_todo_eq_nil htodo]
    exact Function.update_eq_self t s.grips
  refine H.after (t := t) (fun u hne => ?_) ?_ ?_ (fun hgrip => ?_) fun u _ _ => rfl
  · simp [put, hne]
  · rw [hgrips]
    exact H.agrees
  · simpa [put] using hlegal
  · rw [hgrips] at hgrip
    simpa [put] using H.seen t hgrip

omit [DecidableEq T] in
/-- What there is of a thread that is about to make a call. -/
theorem Inv.fits (H : Inv s) {op : LockOp} {rest : List LockOp}
    (htodo : (s.thread t).todo = op :: rest) :
    op.Fits (s.grips t) (gripBefore rest (s.thread t).mode.grip) ∧
      Legal rest (s.thread t).mode.grip := by
  have hlegal := H.legal t
  rw [htodo] at hlegal
  have hgrip : s.grips t = gripBefore (op :: rest) (s.thread t).mode.grip := by
    rw [grips, LockThread.grip, htodo]
  rw [hgrip]
  exact hlegal

/-- **A call** that does not have to wait. -/
theorem Inv.go (H : Inv s) {op : LockOp} {rest : List LockOp}
    (htodo : (s.thread t).todo = op :: rest)
    (hs : (s.put t (s.thread t).mode rest).perform t op = some s') : Inv s' := by
  obtain ⟨hfits, hrest⟩ := H.fits htodo
  have hgrips := grips_put s t (s.thread t).mode rest
  have hseen := H.seen t
  cases op with
  | mutexLock =>
      obtain ⟨hgrip, hafter⟩ := hfits
      obtain ⟨hfree, hs⟩ := Option.ite_none_right_eq_some.mp hs
      obtain rfl := Option.some.inj hs
      refine H.after (t := t) (fun u hne => ?_) ?_ ?_ (fun _ => ?_) fun u _ _ => rfl
      · simp [look, put, hne]
      · have hagrees := (show s.mutex = none from hfree) ▸ H.agrees
        rw [grips_look]
        exact (hgrips.trans (by rw [hafter])) ▸ hagrees.lockMutex hgrip
      · simpa [look, put] using hrest
      · simp [look, put]
  | mutexUnlock =>
      obtain ⟨-, -, hafter⟩ := hfits
      obtain ⟨hown, hs⟩ := Option.ite_none_right_eq_some.mp hs
      obtain rfl := Option.some.inj hs
      have hagrees := (show s.mutex = some t from hown) ▸ H.agrees
      have hmutex : (s.grips t).mutex = true := (H.agrees.mutex_iff t).mp hown
      refine H.after (t := t) (fun u hne => ?_) ?_ ?_ (fun _ => ?_) fun u _ _ => rfl
      · simp [put, hne]
      · exact (hgrips.trans (by rw [hafter])) ▸ hagrees.unlockMutex
      · simpa [put] using hrest
      · simpa [put] using hseen fun h => by simp [h, Grip.none] at hmutex
  | rdLock =>
      obtain ⟨hgrip, hafter⟩ := hfits
      obtain ⟨hfree, hs⟩ := Option.ite_none_right_eq_some.mp hs
      obtain rfl := Option.some.inj hs
      have hagrees := (show s.writer = none from hfree) ▸ H.agrees
      refine H.after (t := t) (fun u hne => ?_) ?_ ?_ (fun _ => ?_) fun u _ _ => rfl
      · simp [put, hne]
      · exact (show s.writer = none from hfree) ▸ (hgrips.trans (by rw [hafter])) ▸
          hagrees.lockRead hgrip
      · simpa [put] using hrest
      · simpa [put] using hseen (hgrip ▸ nofun)
  | wrLock =>
      obtain ⟨hgrip, hafter⟩ := hfits
      obtain ⟨⟨hfree, hnone⟩, hs⟩ := Option.ite_none_right_eq_some.mp hs
      obtain rfl := Option.some.inj hs
      have hagrees := (show s.writer = none from hfree) ▸ (show s.readers = [] from hnone) ▸
        H.agrees
      refine H.after (t := t) (fun u hne => ?_) ?_ ?_ (fun _ => ?_) fun u hne hu => ?_
      · simp [look, put, hne]
      · rw [grips_look]
        exact (show s.readers = [] from hnone) ▸ (hgrips.trans (by rw [hafter])) ▸
          hagrees.lockWrite hgrip
      · simpa [look, put] using hrest
      · simp [look, put]
      · exact absurd (hagrees.grip_eq_none (hgrip ▸ rfl) hne) hu
  | rdUnlock =>
      obtain ⟨hgrip, hafter⟩ := hfits
      obtain ⟨-, hs⟩ := Option.ite_none_right_eq_some.mp hs
      obtain rfl := Option.some.inj hs
      refine H.after (t := t) (fun u hne => ?_) ?_ ?_ (fun _ => ?_) fun u _ _ => rfl
      · simp [put, hne]
      · exact (hgrips.trans (by rw [hafter])) ▸ H.agrees.unlockRead hgrip
      · simpa [put] using hrest
      · simpa [put] using hseen (hgrip ▸ nofun)
  | wrUnlock =>
      obtain ⟨hgrip, hafter⟩ := hfits
      obtain ⟨hown, hs⟩ := Option.ite_none_right_eq_some.mp hs
      obtain rfl := Option.some.inj hs
      have hagrees := (show s.writer = some t from hown) ▸ H.agrees
      refine H.after (t := t) (fun u hne => ?_) ?_ ?_ (fun _ => ?_) fun u _ _ => rfl
      · simp [put, hne]
      · exact (hgrips.trans (by rw [hafter])) ▸ hagrees.unlockWrite hgrip
      · simpa [put] using hrest
      · simpa [put] using hseen (hgrip ▸ nofun)

/-- **Every step** keeps what is so. -/
theorem Inv.step (H : Inv s) {e : LockEvent T} (hs : s.step e = some s') : Inv s' := by
  cases e with
  | call t f =>
      obtain ⟨⟨htodo, hmode⟩, hs⟩ := Option.ite_none_right_eq_some.mp hs
      obtain rfl := Option.some.inj hs
      exact H.call htodo hmode
  | go t =>
      cases htodo : (s.thread t).todo with
      | nil =>
          simp only [CgLock.step, htodo] at hs
          cases hs
      | cons op rest =>
          simp only [CgLock.step, htodo] at hs
          exact H.go htodo hs

/-! ## Runs -/

/-- Two threads may have the lock at one time. -/
def compatible : LockMode → LockMode → Bool
  | .idle, _ | _, .idle => true
  | .read, .read | .read, .intermediate | .intermediate, .read => true
  | _, _ => false

/-- What is expected of the lock. -/
structure Right (s : CgLock T) : Prop where
  compatible : ∀ t u m m', t ≠ u → s.Holds t m → s.Holds u m' → compatible m m' = true
  current : ∀ t m, m ≠ .idle → s.Holds t m → (s.thread t).seen = s.version
  prompt : ∀ t op rest, (s.thread t).todo = op :: rest → op ≠ .mutexLock → op ≠ .wrLock →
    (s.step (.go t)).isSome
  progress : (∃ t, (s.thread t).todo ≠ []) →
    (∃ t, (s.step (.go t)).isSome) ∨ ∃ t m, m ≠ .idle ∧ s.Holds t m

omit [DecidableEq T] in
theorem grips_of_holds {m : LockMode} (h : s.Holds t m) : s.grips t = m.grip := by
  rw [grips, LockThread.grip_of_todo_eq_nil h.1, h.2]

omit [DecidableEq T] in
/-- Nobody writes where another thread has the mutex. -/
theorem Inv.eq_of_writer (H : Inv s) (hmutex : s.mutex = some t) (hwriter : s.writer = some u) :
    u = t := by
  have hwrite := (H.agrees.writer_iff u).mp hwriter
  have hown := (H.agrees.mutex_iff u).mpr ((H.legal u).mutex_of_write hwrite)
  exact Option.some.inj (hown.symm.trans hmutex)

/-- Only the mutex, and the lock for writing, are waited for. -/
theorem Inv.prompt (H : Inv s) {op : LockOp} {rest : List LockOp}
    (htodo : (s.thread t).todo = op :: rest) (hmutex : op ≠ .mutexLock) (hwrite : op ≠ .wrLock) :
    (s.step (.go t)).isSome := by
  have hfits := (H.fits htodo).1
  have hagrees := H.agrees
  simp only [CgLock.step, htodo]
  cases op with
  | mutexLock => exact absurd rfl hmutex
  | wrLock => exact absurd rfl hwrite
  | mutexUnlock =>
      have hown : s.mutex = some t := (hagrees.mutex_iff t).mpr hfits.1
      exact Option.isSome_iff_exists.mpr ⟨_, if_pos hown⟩
  | rdLock =>
      have hown : s.mutex = some t := (hagrees.mutex_iff t).mpr (by rw [hfits.1])
      have hfree : s.writer = none := by
        by_contra hsome
        obtain ⟨u, hu⟩ := Option.ne_none_iff_exists'.mp hsome
        obtain rfl := H.eq_of_writer hown hu
        have hwrites := (hagrees.writer_iff u).mp hu
        rw [hfits.1] at hwrites
        cases hwrites
      exact Option.isSome_iff_exists.mpr ⟨_, if_pos hfree⟩
  | rdUnlock =>
      have hmem : t ∈ s.readers := (hagrees.mem_readers_iff t).mpr (by rw [hfits.1])
      exact Option.isSome_iff_exists.mpr ⟨_, if_pos hmem⟩
  | wrUnlock =>
      have hown : s.writer = some t := (hagrees.writer_iff t).mpr (by rw [hfits.1])
      exact Option.isSome_iff_exists.mpr ⟨_, if_pos hown⟩

/-- A thread that has something goes on or is in no function, unless it is to lock for writing. -/
theorem Inv.moves (H : Inv s) (hgrip : s.grips t ≠ .none)
    (hwrite : ∀ rest, (s.thread t).todo ≠ .wrLock :: rest) :
    (∃ u, (s.step (.go u)).isSome) ∨ ∃ u m, m ≠ .idle ∧ s.Holds u m := by
  cases htodo : (s.thread t).todo with
  | nil =>
      refine .inr ⟨t, (s.thread t).mode, fun hidle => hgrip ?_, htodo, rfl⟩
      rw [grips_of_holds ⟨htodo, rfl⟩, hidle]
      rfl
  | cons op rest =>
      refine .inl ⟨t, H.prompt htodo (fun hop => hgrip ?_) fun hop => hwrite rest ?_⟩
      · exact (hop ▸ (H.fits htodo).1).1
      · rw [htodo, hop]

/-- A thread that is in a function and does not go on waits for another one that does, or that is in
none and has the lock. -/
theorem Inv.progress (H : Inv s) (h : (s.thread t).todo ≠ []) :
    (∃ u, (s.step (.go u)).isSome) ∨ ∃ u m, m ≠ .idle ∧ s.Holds u m := by
  have hagrees := H.agrees
  cases hmutex : s.mutex with
  | none =>
      obtain ⟨op, rest, htodo⟩ := List.exists_cons_of_ne_nil h
      rcases eq_or_ne op .mutexLock with rfl | hop
      · refine .inl ⟨t, ?_⟩
        simp only [CgLock.step, htodo]
        exact Option.isSome_iff_exists.mpr ⟨_, if_pos hmutex⟩
      · refine .inl ⟨t, H.prompt htodo hop fun hwrite => ?_⟩
        have hgrip := (hwrite ▸ (H.fits htodo).1).1
        have hown := (hagrees.mutex_iff t).mpr (by rw [hgrip])
        cases hmutex.symm.trans hown
  | some o =>
      have hown := (hagrees.mutex_iff o).mp hmutex
      by_cases hwrite : ∃ rest, (s.thread o).todo = .wrLock :: rest
      · obtain ⟨rest, htodo⟩ := hwrite
        have hgrip := (H.fits htodo).1.1
        have hfree : s.writer = none := by
          by_contra hsome
          obtain ⟨u, hu⟩ := Option.ne_none_iff_exists'.mp hsome
          obtain rfl := H.eq_of_writer hmutex hu
          have hwrites := (hagrees.writer_iff u).mp hu
          rw [hgrip] at hwrites
          cases hwrites
        -- it goes on when the last of the readers has gone
        cases hreaders : s.readers with
        | nil =>
            refine .inl ⟨o, ?_⟩
            simp only [CgLock.step, htodo]
            exact Option.isSome_iff_exists.mpr ⟨_, if_pos ⟨hfree, hreaders⟩⟩
        | cons r _ =>
            have hread : (s.grips r).rw = .read :=
              (hagrees.mem_readers_iff r).mp (hreaders ▸ List.mem_cons_self)
            refine H.moves (t := r) (fun hnone => ?_) fun rest' htodo' => ?_
            · rw [hnone] at hread
              cases hread
            · rw [(H.fits htodo').1.1] at hread
              cases hread
      · refine H.moves (t := o) (fun hnone => ?_) fun rest htodo => hwrite ⟨rest, htodo⟩
        rw [hnone] at hown
        cases hown

theorem Inv.right (H : Inv s) : Right s := by
  have hagrees := H.agrees
  refine ⟨fun t u m m' hne ht hu => ?_, fun t m hm ht => ?_, fun t op rest => H.prompt,
    fun ⟨t, ht⟩ => H.progress ht⟩
  · have hgrip := grips_of_holds ht
    have hgrip' := grips_of_holds hu
    have hmutex : ¬((s.grips t).mutex = true ∧ (s.grips u).mutex = true) := fun hboth => by
      have hown := (hagrees.mutex_iff t).mpr hboth.1
      exact hne (Option.some.inj (hown.symm.trans ((hagrees.mutex_iff u).mpr hboth.2)))
    have halone : ∀ a b, ¬((s.grips a).rw = .write ∧ (s.grips b).rw = .read) := fun a b hboth => by
      have hwriter := (hagrees.writer_iff a).mpr hboth.1
      have hmem := (hagrees.mem_readers_iff b).mpr hboth.2
      rw [hagrees.alone (by simp [hwriter])] at hmem
      cases hmem
    have hread := halone t u
    have hread' := halone u t
    rw [hgrip, hgrip'] at hmutex hread hread'
    cases m <;> cases m' <;> first | rfl | simp [LockMode.grip] at hmutex hread hread'
  · refine H.seen t ?_
    rw [grips_of_holds ht]
    cases m <;> first | exact absurd rfl hm | exact nofun

/-- **Whatever the threads do, in whatever order**, who may have the lock at one time is as the
comments on the functions say, what a thread has seen stays as it is while it has the lock, and the
threads that wait do so for one that goes on or that has the lock and is in no function. -/
theorem right_of_lockRun {es : List (LockEvent T)} (hrun : Run.exec step init es = some s) :
    Right s :=
  (Run.exec_of_invariant (I := Inv) (fun _ _ _ H hs => H.step hs) Inv.start hrun).right

/-- One thread reads while a second one has the lock in the intermediate way, and waits for it to
lock it for writing. -/
theorem right_of_lockRun_waits : ∃ s : CgLock ℕ, Run.exec step init
    [.call 0 .cgRlock, .go 0, .go 0, .go 0, .call 1 .cgIlock, .go 1, .call 1 .cgUlock] = some s ∧
      Right s := by
  obtain ⟨s, hrun⟩ : ∃ s : CgLock ℕ, Run.exec step init [.call 0 .cgRlock, .go 0, .go 0, .go 0,
      .call 1 .cgIlock, .go 1, .call 1 .cgUlock] = some s := ⟨_, rfl⟩
  exact ⟨s, hrun, right_of_lockRun hrun⟩

/-! ## Demotion and promotion -/

theorem thread_of_perform {op : LockOp} (hs : s.perform t op = some s') :
    (s'.thread u).todo = (s.thread u).todo ∧ (s'.thread u).mode = (s.thread u).mode := by
  have hlook : ∀ s : CgLock T, ((s.look t).thread u).todo = (s.thread u).todo ∧
      ((s.look t).thread u).mode = (s.thread u).mode := fun s => by
    rcases eq_or_ne u t with rfl | hne
    · simp [look]
    · simp [look, hne]
  cases op <;> obtain ⟨-, hs⟩ := Option.ite_none_right_eq_some.mp hs <;>
    obtain rfl := Option.some.inj hs <;> first | exact ⟨rfl, rfl⟩ | exact hlook _

/-- A thread that has the lock and does not give it back goes on having something. -/
theorem keeps_step (H : (s.thread t).Keeps) {e : LockEvent T} (hs : s.step e = some s')
    (he : ∀ f, e = .call t f → f.releases = false) : (s'.thread t).Keeps := by
  cases e with
  | call u f =>
      obtain ⟨⟨htodo, hmode⟩, hs⟩ := Option.ite_none_right_eq_some.mp hs
      obtain rfl := Option.some.inj hs
      rcases eq_or_ne u t with rfl | hne
      · have hbefore : f.before ≠ .idle := fun hidle => H.grip_ne (by
          rw [LockThread.grip_of_todo_eq_nil htodo, hmode, hidle]
          rfl)
        simpa [LockThread.Keeps, put] using f.keeps (he f rfl) hbefore
      · simpa [LockThread.Keeps, put, hne.symm] using H
  | go u =>
      cases htodo : (s.thread u).todo with
      | nil =>
          simp only [CgLock.step, htodo] at hs
          cases hs
      | cons op rest =>
          simp only [CgLock.step, htodo] at hs
          obtain ⟨htodo', hmode'⟩ := thread_of_perform (u := t) hs
          rw [LockThread.Keeps, htodo', hmode']
          rcases eq_or_ne u t with rfl | hne
          · intro todo hmem
            simp only [put, Function.update_self] at hmem ⊢
            refine H todo ?_
            rw [htodo, List.tails_cons]
            exact List.mem_cons_of_mem _ hmem
          · simpa [LockThread.Keeps, put, hne.symm] using H

/-- Where a thread has something, only it can write. -/
theorem Inv.own (H : Inv s) {e : LockEvent T} (hs : s.step e = some s') (hgrip : s.grips t ≠ .none)
    (hversion : s'.version ≠ s.version) :
    e = .go t ∧ ∃ rest, (s.thread t).todo = .wrLock :: rest := by
  cases e with
  | call u f =>
      obtain ⟨-, hs⟩ := Option.ite_none_right_eq_some.mp hs
      obtain rfl := Option.some.inj hs
      exact absurd rfl hversion
  | go u =>
      cases htodo : (s.thread u).todo with
      | nil =>
          simp only [CgLock.step, htodo] at hs
          cases hs
      | cons op rest =>
          have hfits := (H.fits htodo).1
          simp only [CgLock.step, htodo] at hs
          cases op with
          | wrLock =>
              obtain ⟨⟨hfree, hnone⟩, -⟩ := Option.ite_none_right_eq_some.mp hs
              have hagrees := (show s.writer = none from hfree) ▸
                (show s.readers = [] from hnone) ▸ H.agrees
              rcases eq_or_ne t u with rfl | hne
              · exact ⟨rfl, rest, htodo⟩
              · exact absurd (hagrees.grip_eq_none (hfits.1 ▸ rfl) hne) hgrip
          | _ =>
              obtain ⟨-, hs⟩ := Option.ite_none_right_eq_some.mp hs
              obtain rfl := Option.some.inj hs
              exact absurd rfl hversion

/-- **A thread that has the lock** in any way, and goes on from one way to another without giving it
back, misses no change of the data: no other thread gets to write, whatever they all do. -/
theorem own_of_run {es es' : List (LockEvent T)} {m : LockMode}
    (hrun : Run.exec step init es = some s) (hholds : s.Holds t m) (hm : m ≠ .idle)
    (hkeep : ∀ f, LockEvent.call t f ∈ es' → f.releases = false) :
    Run.AllSteps step (fun s e s' => s'.version ≠ s.version →
      e = .go t ∧ ∃ rest, (s.thread t).todo = .wrLock :: rest) s es' := by
  have hinv := Run.exec_of_invariant (I := Inv) (fun _ _ _ H hs => H.step hs) Inv.start hrun
  have hkeeps : (s.thread t).Keeps := by
    rw [LockThread.Keeps, hholds.1, hholds.2]
    simp only [List.tails, List.mem_singleton, forall_eq]
    cases m <;> first | exact absurd rfl hm | exact nofun
  clear hrun hholds
  induction es' generalizing s with
  | nil => trivial
  | cons e es' ih =>
      intro s' hs'
      refine ⟨hinv.own hs' hkeeps.grip_ne, ih (fun f hmem => ?_) (hinv.step hs') ?_⟩
      · exact hkeep f (List.mem_cons_of_mem _ hmem)
      · exact keeps_step hkeeps hs' fun f he => hkeep f (he ▸ List.mem_cons_self)

/-- One thread demotes the lock that it has for writing to the intermediate way and promotes it
again, while a second one asks for it. -/
theorem own_of_run_promotes : ∃ s : CgLock ℕ,
    Run.exec step init [.call 0 .cgWlock, .go 0, .go 0] = some s ∧
      Run.AllSteps step (fun s e s' => s'.version ≠ s.version →
        e = .go 0 ∧ ∃ rest, (s.thread 0).todo = .wrLock :: rest) s
        [.call 0 .cgDwilock, .call 1 .cgWlock, .go 0, .call 0 .cgUlock, .go 0] := by
  obtain ⟨s, hrun, hholds⟩ : ∃ s : CgLock ℕ,
      Run.exec step init [.call 0 .cgWlock, .go 0, .go 0] = some s ∧ s.Holds 0 .write :=
    ⟨_, rfl, rfl, rfl⟩
  refine ⟨s, hrun, own_of_run hrun hholds nofun fun f hmem => ?_⟩
  simp only [List.mem_cons, LockEvent.call.injEq, reduceCtorEq, List.not_mem_nil] at hmem
  rcases hmem with ⟨-, rfl⟩ | ⟨hzero, -⟩ | hmem | ⟨-, rfl⟩ | hmem <;> simp_all [LockFn.releases]

end CgLock
end MassGridMiner
