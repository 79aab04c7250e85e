import Secretov.Bytes
import Secretov.Lib.FileSystem

/-! `write_file_atomic` (paths.hpp), one system call at a time. Each call gives
an outcome, so a list of outcomes is a run up to some point. -/

namespace Secretov

abbrev Files := FileSystem Bytes UInt8

inductive Outcome where
  | ok
  | wrote (n : Nat)
  | interrupted
  | failed (strerror : Bytes)
deriving DecidableEq

def Outcome.failure : Outcome → Option Bytes
  | .ok => none
  | .wrote _ => none
  | .interrupted => some (text "Interrupted system call")
  | .failed strerror => some strerror

/-- The call that comes next. `close` and `unlink` of `fail` carry its message. -/
inductive Pc where
  | ensureParentDir
  | unlink
  | create
  | write (fd written : Nat)
  | fsync (fd : Nat)
  | close (fd : Nat)
  | rename
  | failClose (fd : Nat) (what : Bytes)
  | failUnlink (what : Bytes)
  | openDir
  | fsyncDir
  | closeDir (warned : Bool)
  | returned (warned : Bool)
  | threw (what : Bytes)
deriving DecidableEq

def parentDir (path : Bytes) : Option Bytes :=
  let dir := (path.reverse.dropWhile (· ≠ slash)).tail.reverse
  if dir = [] ∨ dir = [slash] then none else some dir

def tmpName (path : Bytes) : Bytes :=
  path ++ text ".tmp"

theorem ne_tmpName (path : Bytes) : path ≠ tmpName path := by
  intro h
  have hlen := congrArg List.length h
  simp [tmpName, text] at hlen

def writeLoop (contents : Bytes) (fd written : Nat) : Pc :=
  if written < contents.length then .write fd written else .fsync fd

def failText (what tmp strerror : Bytes) : Bytes :=
  what ++ text " '" ++ tmp ++ text "': " ++ strerror

def stepWrite (path contents : Bytes) (o : Outcome) (fs : Files) : Pc → Files × Pc
  | .ensureParentDir => match parentDir path, o.failure with
    | some dir, some strerror => (fs, .threw (failText (text "mkdir") dir strerror))
    | _, _ => (fs, .unlink)
  | .unlink => match o.failure with
    | some _ => (fs, .create)
    | none => (fs.unlink (tmpName path), .create)
  | .create => match o.failure with
    | some strerror => (fs, .threw (failText (text "create") (tmpName path) strerror))
    | none => match fs.create (tmpName path) with
      | none => (fs, .threw (failText (text "create") (tmpName path) (text "File exists")))
      | some (fs, fd) => (fs, writeLoop contents fd 0)
  | .write fd written => match o with
    | .interrupted => (fs, .write fd written)
    | .failed strerror => (fs, .failClose fd (failText (text "write") (tmpName path) strerror))
    | .ok => (fs.write fd (contents.drop written), writeLoop contents fd contents.length)
    | .wrote n =>
      (fs.write fd ((contents.drop written).take n), writeLoop contents fd (min (written + n) contents.length))
  | .fsync fd => match o.failure with
    | some strerror => (fs, .failClose fd (failText (text "fsync") (tmpName path) strerror))
    | none => (fs.fsync fd, .close fd)
  | .close _ => match o.failure with
    | some strerror => (fs, .failUnlink (failText (text "close") (tmpName path) strerror))
    | none => (fs, .rename)
  | .rename =>
    let what := text "rename '" ++ tmpName path ++ text "' ->"
    match o.failure with
    | some strerror => (fs, .failUnlink (failText what path strerror))
    | none => match fs.rename (tmpName path) path with
      | none => (fs, .failUnlink (failText what path (text "No such file or directory")))
      | some fs => (fs, .openDir)
  | .failClose _ what => (fs, .failUnlink what)
  | .failUnlink what => match o.failure with
    | some _ => (fs, .threw what)
    | none => (fs.unlink (tmpName path), .threw what)
  | .openDir => match o.failure with
    | some _ => (fs, .returned true)
    | none => (fs, .fsyncDir)
  | .fsyncDir => match o.failure with
    | some _ => (fs, .closeDir true)
    | none => (fs.fsyncDir, .closeDir false)
  | .closeDir warned => (fs, .returned warned)
  | .returned warned => (fs, .returned warned)
  | .threw what => (fs, .threw what)

def Pc.created : Pc → Pc → Option Nat
  | .create, .write fd _ => some fd
  | .create, .fsync fd => some fd
  | _, _ => none

def Pc.renamed : Pc → Bool
  | .openDir => true
  | .fsyncDir => true
  | .closeDir _ => true
  | .returned _ => true
  | _ => false

def Pc.holdsTmp : Pc → Bool
  | .write _ _ => true
  | .fsync _ => true
  | .close _ => true
  | .rename => true
  | _ => false

/-- What a call knows of the inode that it made. -/
def OwnInode (contents : Bytes) (fs : Files) (made : Option Nat) : Pc → Prop
  | .write fd written => made = some fd ∧ written ≤ contents.length ∧ (fs.inodes fd).data = contents.take written
  | .fsync fd => made = some fd ∧ (fs.inodes fd).data = contents
  | .close fd => made = some fd ∧ (fs.inodes fd).Holds contents
  | .rename => ∃ fd, made = some fd ∧ (fs.inodes fd).Holds contents
  | .openDir => ∃ fd, made = some fd ∧ (fs.inodes fd).Holds contents
  | .fsyncDir => ∃ fd, made = some fd ∧ (fs.inodes fd).Holds contents
  | .closeDir _ => ∃ fd, made = some fd ∧ (fs.inodes fd).Holds contents
  | .returned _ => ∃ fd, made = some fd ∧ (fs.inodes fd).Holds contents
  | .ensureParentDir => made = none
  | .unlink => made = none
  | .create => made = none
  | .failClose _ _ => True
  | .failUnlink _ => True
  | .threw _ => True

theorem Pc.created_eq_none {pc : Pc} (pc' : Pc) (h : pc ≠ .create) : pc.created pc' = none := by
  cases pc with
  | create => exact absurd rfl h
  | _ => rfl

theorem OwnInode.of_eq {contents : Bytes} {fs fs' : Files} {made : Option Nat} {pc : Pc}
    (h : OwnInode contents fs made pc) (heq : ∀ i, made = some i → fs'.inodes i = fs.inodes i) :
    OwnInode contents fs' made pc := by
  cases pc with
  | write fd written =>
    obtain ⟨hmade, hle, hdata⟩ := h
    exact ⟨hmade, hle, by rw [heq fd hmade]; exact hdata⟩
  | fsync fd | close fd =>
    obtain ⟨hmade, hdata⟩ := h
    exact ⟨hmade, by rw [heq fd hmade]; exact hdata⟩
  | rename | openDir | fsyncDir | closeDir warned | returned warned =>
    obtain ⟨fd, hmade, hdata⟩ := h
    exact ⟨fd, hmade, by rw [heq fd hmade]; exact hdata⟩
  | ensureParentDir | unlink | create => exact h
  | failClose | failUnlink | threw => trivial

theorem OwnInode.holds {contents : Bytes} {fs : Files} {made : Option Nat} {pc : Pc}
    (h : OwnInode contents fs made pc) (hpc : pc.renamed = true) :
    ∃ fd, made = some fd ∧ (fs.inodes fd).Holds contents := by
  cases pc with
  | openDir | fsyncDir | closeDir warned | returned warned => exact h
  | _ => cases hpc

def Pc.durable : Pc → Bool
  | .closeDir false => true
  | .returned false => true
  | _ => false

/-- What a step of a call can do, to its own inode, to the others and to the names. -/
structure StepSpec (path contents : Bytes) (made : Option Nat) (fs : Files) (pc : Pc) (fs' : Files) (pc' : Pc) :
    Prop where
  own : OwnInode contents fs' ((pc.created pc').or made) pc'
  next_le : fs.next ≤ fs'.next
  created : ∀ fd, pc.created pc' = some fd →
    fd = fs.next ∧ fs.next < fs'.next ∧ fs'.names (tmpName path) = some fd
  inodes : ∀ i, i < fs.next → made ≠ some i → fs'.inodes i = fs.inodes i
  target : (pc'.renamed = pc.renamed ∧ fs'.names path = fs.names path ∧
      (fs'.past path = fs.past path ∨ fs'.past path = [])) ∨
    (pc = .rename ∧ pc' = .openDir ∧ ∃ i, FileSystem.Renamed fs fs' (tmpName path) path i)
  source : pc'.holdsTmp = true → (pc.holdsTmp = true ∧ pc.created pc' = none ∧
    fs'.names (tmpName path) = fs.names (tmpName path)) ∨ ∃ fd, pc.created pc' = some fd
  durable : pc'.durable = true → fs'.past path = [] ∨ (pc.durable = true ∧ fs'.past path = fs.past path)

section

variable {path contents : Bytes} {made : Option Nat} {fs : Files} {pc pc' : Pc}

theorem StepSpec.still (hown : OwnInode contents fs made pc') (hcreated : pc.created pc' = none)
    (hrenamed : pc'.renamed = pc.renamed) (htmp : pc'.holdsTmp = true → pc.holdsTmp = true)
    (hdurable : pc'.durable = true → pc.durable = true) : StepSpec path contents made fs pc fs pc' where
  own := by rw [hcreated]; exact hown
  next_le := le_rfl
  created fd h := by rw [hcreated] at h; cases h
  inodes _ _ _ := rfl
  target := Or.inl ⟨hrenamed, rfl, Or.inl rfl⟩
  source h := Or.inl ⟨htmp h, hcreated, rfl⟩
  durable h := Or.inr ⟨hdurable h, rfl⟩

theorem StepSpec.unlink (hown : OwnInode contents fs made pc') (hcreated : pc.created pc' = none)
    (hrenamed : pc'.renamed = pc.renamed) (htmp : pc'.holdsTmp = false) (hdurable : pc'.durable = false) :
    StepSpec path contents made fs pc (fs.unlink (tmpName path)) pc' where
  own := by rw [hcreated]; exact hown.of_eq fun _ _ => rfl
  next_le := le_rfl
  created fd h := by rw [hcreated] at h; cases h
  inodes _ _ _ := rfl
  target := Or.inl ⟨hrenamed, (fs.unlink_of_ne (ne_tmpName path)).1, Or.inl (fs.unlink_of_ne (ne_tmpName path)).2⟩
  source h := by rw [htmp] at h; cases h
  durable h := by rw [hdurable] at h; cases h

theorem StepSpec.ownInode {fd : Nat} {inode : Inode UInt8} (hmade : made = some fd)
    (hown : OwnInode contents (fs.setInode fd inode) made pc') (hcreated : pc.created pc' = none)
    (hrenamed : pc'.renamed = pc.renamed) (htmp : pc.holdsTmp = true) (hdurable : pc'.durable = false) :
    StepSpec path contents made fs pc (fs.setInode fd inode) pc' where
  own := by rw [hcreated]; exact hown
  next_le := le_rfl
  created fd h := by rw [hcreated] at h; cases h
  inodes i _ hi := fs.setInode_inodes_of_ne inode fun heq => hi (by rw [hmade, heq])
  target := Or.inl ⟨hrenamed, rfl, Or.inl rfl⟩
  source _ := Or.inl ⟨htmp, hcreated, rfl⟩
  durable h := by rw [hdurable] at h; cases h

theorem writeLoop_cases (contents : Bytes) (fd written : Nat) :
    (writeLoop contents fd written = .write fd written ∧ written < contents.length) ∨
    (writeLoop contents fd written = .fsync fd ∧ contents.length ≤ written) := by
  unfold writeLoop
  split_ifs with h
  · exact Or.inl ⟨rfl, h⟩
  · exact Or.inr ⟨rfl, not_lt.mp h⟩

theorem StepSpec.wrote {fd written n : Nat} (hown : OwnInode contents fs made (.write fd written)) :
    StepSpec path contents made fs (.write fd written) (fs.write fd ((contents.drop written).take n))
      (writeLoop contents fd (min (written + n) contents.length)) := by
  obtain ⟨hmade, hle, hdata⟩ := hown
  have hgrown : ((fs.write fd ((contents.drop written).take n)).inodes fd).data =
      contents.take (min (written + n) contents.length) := by
    rw [FileSystem.write, FileSystem.setInode_inodes_self, Inode.write, hdata, ← List.take_add,
      List.take_eq_take_min]
  rcases writeLoop_cases contents fd (min (written + n) contents.length) with ⟨hpc, hlt⟩ | ⟨hpc, hge⟩
  · rw [hpc]
    exact .ownInode hmade ⟨hmade, hlt.le, hgrown⟩ rfl rfl rfl rfl
  · rw [hpc]
    refine .ownInode hmade ⟨hmade, ?_⟩ rfl rfl rfl rfl
    rw [List.take_of_length_le hge] at hgrown
    exact hgrown

theorem StepSpec.create {fs' : Files} {fd : Nat} (h : fs.create (tmpName path) = some (fs', fd)) :
    StepSpec path contents none fs .create fs' (writeLoop contents fd 0) := by
  have hc := FileSystem.create_some h
  have hcreated : Pc.create.created (writeLoop contents fd 0) = some fd := by
    rcases writeLoop_cases contents fd 0 with ⟨hpc, -⟩ | ⟨hpc, -⟩ <;> rw [hpc] <;> rfl
  have hrenamed : (writeLoop contents fd 0).renamed = false := by
    rcases writeLoop_cases contents fd 0 with ⟨hpc, -⟩ | ⟨hpc, -⟩ <;> rw [hpc] <;> rfl
  have hdurable : (writeLoop contents fd 0).durable = false := by
    rcases writeLoop_cases contents fd 0 with ⟨hpc, -⟩ | ⟨hpc, -⟩ <;> rw [hpc] <;> rfl
  refine ⟨?_, by rw [hc.next]; omega, ?_, ?_, ?_, fun _ => Or.inr ⟨fd, hcreated⟩, ?_⟩
  · rw [hcreated]
    rcases writeLoop_cases contents fd 0 with ⟨hpc, hlt⟩ | ⟨hpc, hge⟩ <;> rw [hpc]
    · exact ⟨rfl, hlt.le, by rw [hc.empty, List.take_zero]⟩
    · exact ⟨rfl, by rw [hc.empty, List.eq_nil_of_length_eq_zero (Nat.le_zero.mp hge)]⟩
  · intro fd' hfd'
    rw [hcreated] at hfd'
    obtain rfl := Option.some.inj hfd'
    exact ⟨hc.inode, by rw [hc.next]; omega, hc.bound⟩
  · intro i hi _
    exact hc.inodes i (by rw [hc.inode]; omega)
  · obtain ⟨hname, hpast⟩ := hc.others path (ne_tmpName path)
    exact Or.inl ⟨hrenamed, hname, Or.inl hpast⟩
  · intro h
    rw [hdurable] at h
    cases h

theorem stepWrite_spec (o : Outcome) (hown : OwnInode contents fs made pc) :
    StepSpec path contents made fs pc (stepWrite path contents o fs pc).1
    (stepWrite path contents o fs pc).2 := by
  cases pc with
  | ensureParentDir =>
    simp only [stepWrite]
    split
    · exact .still trivial rfl rfl (by simp [Pc.holdsTmp]) (by simp [Pc.durable])
    · exact .still hown rfl rfl (by simp [Pc.holdsTmp]) (by simp [Pc.durable])
  | unlink =>
    simp only [stepWrite]
    split
    · exact .still hown rfl rfl (by simp [Pc.holdsTmp]) (by simp [Pc.durable])
    · exact .unlink hown rfl rfl rfl rfl
  | create =>
    obtain rfl : made = none := hown
    simp only [stepWrite]
    split
    · exact .still trivial rfl rfl (by simp [Pc.holdsTmp]) (by simp [Pc.durable])
    · split
      · exact .still trivial rfl rfl (by simp [Pc.holdsTmp]) (by simp [Pc.durable])
      · rename_i hcreate
        exact .create hcreate
  | write fd written =>
    cases o with
    | interrupted => exact .still hown rfl rfl id id
    | failed strerror => exact .still trivial rfl rfl (fun _ => rfl) id
    | wrote n => exact .wrote hown
    | ok =>
      have h := @StepSpec.wrote path contents made fs fd written (contents.length - written) hown
      obtain ⟨-, hle, -⟩ := hown
      rw [List.take_of_length_le (by simp), Nat.add_sub_cancel' hle, Nat.min_self] at h
      exact h
  | fsync fd =>
    simp only [stepWrite]
    obtain ⟨hmade, hdata⟩ := hown
    split
    · exact .still trivial rfl rfl (by simp [Pc.holdsTmp]) (by simp [Pc.durable])
    · refine .ownInode hmade ⟨hmade, ?_⟩ rfl rfl rfl rfl
      rw [FileSystem.setInode_inodes_self]
      exact ⟨hdata, by rw [Inode.fsync, hdata]⟩
  | close fd =>
    simp only [stepWrite]
    split
    · exact .still trivial rfl rfl (by simp [Pc.holdsTmp]) (by simp [Pc.durable])
    · exact .still ⟨fd, hown⟩ rfl rfl (fun _ => rfl) (by simp [Pc.durable])
  | rename =>
    simp only [stepWrite]
    split
    · exact .still trivial rfl rfl (by simp [Pc.holdsTmp]) (by simp [Pc.durable])
    · split
      · exact .still trivial rfl rfl (by simp [Pc.holdsTmp]) (by simp [Pc.durable])
      · rename_i fs' hrename
        obtain ⟨i, hr⟩ := FileSystem.rename_some (ne_tmpName path) hrename
        refine ⟨?_, hr.next.ge, by simp [Pc.created], fun _ _ _ => by rw [hr.inodes], Or.inr ⟨rfl, rfl, i, hr⟩,
          by simp [Pc.holdsTmp], by simp [Pc.durable]⟩
        exact @OwnInode.of_eq contents fs fs' made .openDir hown fun _ _ => by rw [hr.inodes]
  | failClose fd what =>
    exact .still trivial rfl rfl (by simp [stepWrite, Pc.holdsTmp]) (by simp [stepWrite, Pc.durable])
  | failUnlink what =>
    simp only [stepWrite]
    split
    · exact .still trivial rfl rfl (by simp [Pc.holdsTmp]) (by simp [Pc.durable])
    · exact .unlink trivial rfl rfl rfl rfl
  | openDir =>
    simp only [stepWrite]
    split
    · exact .still hown rfl rfl (by simp [Pc.holdsTmp]) (by simp [Pc.durable])
    · exact .still hown rfl rfl (by simp [Pc.holdsTmp]) (by simp [Pc.durable])
  | fsyncDir =>
    simp only [stepWrite]
    split
    · exact .still hown rfl rfl (by simp [Pc.holdsTmp]) (by simp [Pc.durable])
    · exact ⟨hown, le_rfl, by simp [Pc.created], fun _ _ _ => rfl, Or.inl ⟨rfl, rfl, Or.inr rfl⟩,
        by simp [Pc.holdsTmp], fun _ => Or.inl rfl⟩
  | closeDir warned =>
    cases warned <;> exact .still hown rfl rfl
      (by simp [stepWrite, Pc.holdsTmp]) (by simp [stepWrite, Pc.durable])
  | returned warned => exact .still hown rfl rfl id id
  | threw what => exact .still trivial rfl rfl id id

end

end Secretov
