import Secretov.DurableWrites
import Secretov.StoreCommits
import Secretov.Daemon

/-! The store on a machine, over the lives of its daemon. The process may end between
any two system calls of a write, and the machine may lose power at any time. -/

namespace Secretov

variable {lib : Libsodium}

/-- How an operation on the files ends. `killed` is the end of the process in the
middle of its write. -/
inductive Committed (S : Sodium) where
  | kept (store : Store S)
  | wrote (store : Store S) (warned : Bool)
  | threw (e : Error)
  | killed

/-- `commit`, with the system calls of `write_file_atomic` for its write. -/
def commitOn (path : Bytes) (plan : StorePlan (storeFormat lib)) (outcomes : List Outcome) (files : Files) :
    Committed lib.sodium × Files :=
  match plan with
  | .error e => (.threw e, files)
  | .ok (none, store) => (.kept store, files)
  | .ok (some contents, store) =>
    match runWrite path contents outcomes (files, .ensureParentDir) with
    | (files, .returned warned) => (.wrote store warned, files)
    | (files, .threw what) => (.threw (.runtimeError what), files)
    | (files, _) => (.killed, files)

/-- A write that throws. -/
def Env.failing {S : Sodium} (env : Env S) (what : Bytes) : Env S :=
  { env with fault := fun call => if call = .write then some what else env.fault call }

/-- The same as over a file that is written in one step, by a write that returns or by
one that throws. Cut short: nothing of it, or all. -/
def Committed.Refines (env : Env lib.sodium) (plan : StorePlan (storeFormat lib))
    (content now : Option (storeFormat lib).File) : Committed lib.sodium → Prop
  | .kept store => commit env.writing plan content = (.ok store, now)
  | .wrote store _ => commit env.writing plan content = (.ok store, now)
  | .threw e => ∃ what, commit (env.failing what) plan content = (.error e, now)
  | .killed => now = content ∨ ∃ store, commit env.writing plan content = (.ok store, now)

/-- Connects the store on a machine with the store of one process: what an operation leaves
after its system calls, in any order of failures, is what `commit` gives in one step, on which
`Store.create`, `Store.open` and the operations on a `World` rest. -/
theorem commitOn_refines {path : Bytes} {files : Files} {content : Option Bytes} {older : Set (Option Bytes)}
    (h : files.Recalls path content older) (env : Env lib.sodium) (plan : StorePlan (storeFormat lib))
    (outcomes : List Outcome) : (commitOn path plan outcomes files).1.Refines env plan content
      ((commitOn path plan outcomes files).2.read path) := by
  have hread := h.now.read
  rcases plan with e | ⟨_ | contents, store⟩
  · exact ⟨[], by rw [← hread]; rfl⟩
  · rw [← hread]
    rfl
  · rcases hrun : runWrite path contents outcomes (files, .ensureParentDir) with ⟨files', pc⟩
    have hafter := runWrite_recalls h hrun
    simp only [commitOn, hrun]
    cases pc with
    | returned warned =>
      rw [hafter.now.read]
      rfl
    | threw what =>
      rw [hafter.now.read]
      exact ⟨what, rfl⟩
    | openDir | fsyncDir | closeDir warned =>
      rw [hafter.now.read]
      exact Or.inr ⟨store, rfl⟩
    | _ => exact Or.inl hafter.now.read

structure Machine (lib : Libsodium) where
  files : Files
  daemon : Option (Store lib.sodium)

/-- What an operation takes from outside, the outcomes of its write included. -/
structure Chance (lib : Libsodium) where
  env : Env lib.sodium
  outcomes : List Outcome

inductive MachineEvent (lib : Libsodium) where
  | init (passphrase : Bytes) (now : UInt64) (chance : Chance lib)
  | start (passphrase : Bytes) (now : UInt64) (opening rotating : Chance lib)
  | serve (req : Request) (now : UInt64) (chance : Chance lib)
  | stop
  | powerCut (after : Files)

/-- What the users of the store can know of an event. A write that the process did
not survive is `cutShort`: nobody was told how it ended. -/
inductive Observed where
  | quiet
  | created (passphrase : Bytes) (warned : Bool)
  | createCutShort (passphrase : Bytes)
  | acknowledged (op : StoreOp) (warned : Bool)
  | cutShort (op : StoreOp)
  | powerCut

def kRotateAfterDays : UInt64 := 30

def rotateDue (now createdAt : UInt64) : Bool :=
  createdAt < now && kRotateAfterDays * 24 * 3600 < now - createdAt

/-- The operation of the store that `dispatch` calls, where that may write. -/
def Request.storeOp (req : Request) (now : UInt64) : Option StoreOp :=
  if req.op = text "set" then if req.key = [] then none else some (.set req.key req.value)
  else if req.op = text "delete" then if req.key = [] then none else some (.remove req.key)
  else if req.op = text "rotate" then if req.oldPass = [] then none else some (.rotate req.oldPass now)
  else if req.op = text "passwd" then
    if req.oldPass = [] ∨ req.newPass = [] then none else some (.changePassphrase req.oldPass req.newPass now)
  else none

section

variable (json : Nlohmann) (path : Bytes)

/-- `Store::create` of `cmd_init`. -/
def Machine.init (passphrase : Bytes) (now : UInt64) (chance : Chance lib) (machine : Machine lib) :
    Machine lib × Observed :=
  match commitOn path (createPlan json chance.env path passphrase now (machine.files.read path)) chance.outcomes
    machine.files with
  | (.wrote _ warned, files) => ({ machine with files }, .created passphrase warned)
  | (.killed, files) => ({ machine with files }, .createCutShort passphrase)
  | (_, files) => ({ machine with files }, .quiet)

/-- `run_daemon` up to its loop: it opens the store, and rotates a key that is too old. -/
def Machine.start (passphrase : Bytes) (now : UInt64) (opening rotating : Chance lib) (machine : Machine lib) :
    Machine lib :=
  match machine.daemon with
  | some _ => machine
  | none =>
    match commitOn path (openPlan json opening.env path passphrase (machine.files.read path)) opening.outcomes
      machine.files with
    | (.kept store, files) | (.wrote store _, files) =>
      if rotateDue now store.env.keyCreatedAt then
        match commitOn path ((StoreOp.rotate passphrase now).plan json _ rotating.env store) rotating.outcomes
          files with
        | (.kept store, files) | (.wrote store _, files) => ⟨files, some store⟩
        | (_, files) => ⟨files, none⟩
      else ⟨files, some store⟩
    | (_, files) => ⟨files, none⟩

def Machine.serve (req : Request) (now : UInt64) (chance : Chance lib) (machine : Machine lib) :
    Machine lib × Observed :=
  match machine.daemon, req.storeOp now with
  | some store, some op =>
    match commitOn path (op.plan json _ chance.env store) chance.outcomes machine.files with
    | (.kept store, files) => (⟨files, some store⟩, .quiet)
    | (.wrote store warned, files) => (⟨files, some store⟩, .acknowledged op warned)
    | (.threw _, files) => (⟨files, some store⟩, .quiet)
    | (.killed, files) => (⟨files, none⟩, .cutShort op)
  | _, _ => (machine, .quiet)

def stepMachine : MachineEvent lib → Machine lib → Machine lib × Observed
  | .init passphrase now chance, machine => machine.init json path passphrase now chance
  | .start passphrase now opening rotating, machine =>
      (machine.start json path passphrase now opening rotating, .quiet)
  | .serve req now chance, machine => machine.serve json path req now chance
  | .stop, machine => ({ machine with daemon := none }, .quiet)
  | .powerCut after, _ => (⟨after, none⟩, .powerCut)

/-- A power cut leaves what it can leave of the files. All else may happen at any time. -/
def MachineEvent.Possible (machine : Machine lib) : MachineEvent lib → Prop
  | .powerCut after => machine.files.Crash after ∧ after.Booted
  | _ => True

inductive MachineRun : Machine lib → List Observed → Machine lib → Prop
  | nil (machine : Machine lib) : MachineRun machine [] machine
  | step {machine machine' : Machine lib} {observed : List Observed} (event : MachineEvent lib)
      (hpossible : event.Possible machine)
      (hrun : MachineRun (stepMachine json path event machine).1 observed machine') :
      MachineRun machine ((stepMachine json path event machine).2 :: observed) machine'

end

section

variable {S : Sodium} {F : Format S} {json : Nlohmann}

theorem bind_ofExcept_snd {α β : Type} (m : StoreM F α) (f : α → Except Error β) (w : World F) :
    ((m >>= fun a => Prog.ofExcept (f a)) w).2 = (m w).2 := by
  rw [Prog.bind_apply]
  rcases m w with ⟨e | a, w'⟩ <;> rfl

theorem dispatch_reads {env : Env S} {req : Request} {now : UInt64} (hset : req.op ≠ text "set")
    (hdelete : req.op ≠ text "delete") (hrotate : req.op ≠ text "rotate") (hpasswd : req.op ≠ text "passwd")
    (w : World F) : (dispatch json env req now w).2 = w := by
  unfold dispatch
  split_ifs
  · rfl
  · rw [Prog.bind_get, Prog.bind_apply, Prog.ofExcept_apply]
    rcases w.store.get req.key with e | (_ | value) <;> rfl
  · rfl
  · rfl
  · rw [Prog.bind_get, Prog.bind_apply, Prog.ofExcept_apply]
    rcases w.store.getPrefix req.key with e | values <;> rfl
  · rfl

/-- The daemon changes the store through this operation, or not at all. -/
theorem dispatch_storeOp (env : Env S) (req : Request) (now : UInt64) (w : World F) :
    (dispatch json env req now w).2 = match req.storeOp now with
      | none => w
      | some op => (op.run json env w).2 := by
  have hget : text "set" ≠ text "get" ∧ text "delete" ≠ text "get" ∧ text "rotate" ≠ text "get" ∧
    text "passwd" ≠ text "get" := by decide
  have hother : text "delete" ≠ text "set" ∧ text "rotate" ≠ text "set" ∧ text "rotate" ≠ text "delete" ∧
    text "rotate" ≠ text "list" ∧ text "rotate" ≠ text "getprefix" ∧ text "passwd" ≠ text "set" ∧
    text "passwd" ≠ text "delete" ∧ text "passwd" ≠ text "list" ∧ text "passwd" ≠ text "getprefix" ∧
    text "passwd" ≠ text "rotate" := by decide
  unfold Request.storeOp
  split_ifs with hset hkey hdelete hkey hrotate hpass hpasswd hpass
  · simp [dispatch, hset, hget, hkey]
  · simp only [dispatch, hset, hget, hkey, if_false, if_true]
    exact bind_ofExcept_snd _ (fun _ => okResponse json) w
  · simp [dispatch, hdelete, hget, hother, hkey]
  · simp only [dispatch, hdelete, hget, hother, hkey, if_false, if_true, StoreOp.run, Prog.bind_apply]
    rcases Store.remove json env req.key w with ⟨e | removed, w'⟩
    · rfl
    · cases removed <;> rfl
  · simp [dispatch, hrotate, hget, hother, hpass]
  · simp only [dispatch, hrotate, hget, hother, hpass, if_false, if_true]
    exact bind_ofExcept_snd _ (fun _ => okResponse json) w
  · simp [dispatch, hpasswd, hget, hother, hpass]
  · simp only [dispatch, hpasswd, hget, hother, hpass, if_false, if_true]
    exact bind_ofExcept_snd _ (fun _ => okResponse json) w
  · exact dispatch_reads hset hdelete hrotate hpasswd w

end

end Secretov
