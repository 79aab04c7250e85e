import Mathlib.Data.List.Infix
import Mathlib.Data.Set.Insert
import Mathlib.Logic.Function.Basic

/-! One directory of a file system, and what a crash may leave of it. Names are
bound to inodes, which live on under an open descriptor when their name is gone. -/

/-- The contents of an inode. The first `synced` of them survive a crash. -/
structure Inode (β : Type*) where
  data : List β
  synced : Nat
deriving DecidableEq

namespace Inode

variable {β : Type*}

def write (inode : Inode β) (chunk : List β) : Inode β :=
  { inode with data := inode.data ++ chunk }

def fsync (inode : Inode β) : Inode β :=
  { inode with synced := inode.data.length }

/-- All of `data`, and nothing of it can be lost. -/
def Holds (inode : Inode β) (data : List β) : Prop :=
  inode.data = data ∧ inode.synced = data.length

end Inode

/-- `past` keeps the bindings that a name had since the directory was last
synced: a crash may bring any of them back. -/
structure FileSystem (Name β : Type*) where
  names : Name → Option Nat
  past : Name → List (Option Nat)
  inodes : Nat → Inode β
  next : Nat
  bound_lt : ∀ name i, some i ∈ names name :: past name → i < next

namespace FileSystem

variable {Name β : Type*}

def read (fs : FileSystem Name β) (name : Name) : Option (List β) :=
  (fs.names name).map fun i => (fs.inodes i).data

def setInode (fs : FileSystem Name β) (i : Nat) (inode : Inode β) : FileSystem Name β :=
  { fs with inodes := Function.update fs.inodes i inode }

def write (fs : FileSystem Name β) (i : Nat) (chunk : List β) : FileSystem Name β :=
  fs.setInode i ((fs.inodes i).write chunk)

def fsync (fs : FileSystem Name β) (i : Nat) : FileSystem Name β :=
  fs.setInode i (fs.inodes i).fsync

def fsyncDir (fs : FileSystem Name β) : FileSystem Name β :=
  { fs with
    past := fun _ => []
    bound_lt := fun name i h => fs.bound_lt name i (by
      rw [List.mem_singleton] at h
      rw [h]
      exact List.mem_cons_self) }

/-- What may be found after a crash: every name at one of its bindings since the
last sync of the directory, every inode with its synced part, the rest of it in
any state. -/
def Crash (fs after : FileSystem Name β) : Prop :=
  (∀ name, after.names name ∈ fs.names name :: fs.past name) ∧
  ∀ i, (fs.inodes i).data.take (fs.inodes i).synced <+: (after.inodes i).data ∧
    (after.inodes i).data.length ≤ (fs.inodes i).data.length

/-- The binding stands for `content`, durably. -/
def Stands (fs : FileSystem Name β) (content : Option (List β)) : Option Nat → Prop
  | none => content = none
  | some i => ∃ data, content = some data ∧ (fs.inodes i).Holds data

/-- The name durably holds `content`: no crash can change what it reads. -/
def Settled (fs : FileSystem Name β) (name : Name) (content : Option (List β)) : Prop :=
  ∀ b ∈ fs.names name :: fs.past name, fs.Stands content b

theorem Stands.read {fs : FileSystem Name β} {name : Name} {content : Option (List β)}
    (h : fs.Stands content (fs.names name)) : fs.read name = content := by
  cases hb : fs.names name with
  | none =>
    rw [hb] at h
    simp [FileSystem.read, hb, show content = none from h]
  | some i =>
    rw [hb] at h
    obtain ⟨data, rfl, hdata, -⟩ := h
    simp [FileSystem.read, hb, hdata]

theorem Stands.crash {fs after : FileSystem Name β} {name : Name} {content : Option (List β)}
    (h : fs.Stands content (after.names name)) (hcrash : fs.Crash after) : after.read name = content := by
  cases hb : after.names name with
  | none =>
    rw [hb] at h
    simp [FileSystem.read, hb, show content = none from h]
  | some i =>
    rw [hb] at h
    obtain ⟨data, rfl, hdata, hsynced⟩ := h
    obtain ⟨hpre, hle⟩ := hcrash.2 i
    rw [hsynced, hdata, List.take_length] at hpre
    rw [hdata] at hle
    simp [FileSystem.read, hb, (hpre.eq_of_length_le hle).symm]

theorem Stands.of_eq {fs fs' : FileSystem Name β} {content : Option (List β)} {b : Option Nat}
    (h : fs.Stands content b) (heq : ∀ i, b = some i → fs'.inodes i = fs.inodes i) : fs'.Stands content b := by
  cases b with
  | none => exact h
  | some i =>
    obtain ⟨data, hcontent, hdata⟩ := h
    exact ⟨data, hcontent, by rw [heq i rfl]; exact hdata⟩

/-- The name holds `content` now, and a crash may bring back what is in `older`. -/
structure Recalls (fs : FileSystem Name β) (name : Name) (content : Option (List β))
    (older : Set (Option (List β))) : Prop where
  now : fs.Stands content (fs.names name)
  past : ∀ b ∈ fs.past name, ∃ c ∈ older, fs.Stands c b

/-- Right after a boot there is nothing that a further crash could take back. -/
def Booted (fs : FileSystem Name β) : Prop :=
  (∀ name, fs.past name = []) ∧ ∀ i, (fs.inodes i).synced = (fs.inodes i).data.length

theorem Settled.recalls {fs : FileSystem Name β} {name : Name} {content : Option (List β)}
    (h : fs.Settled name content) : fs.Recalls name content {content} where
  now := h _ List.mem_cons_self
  past b hb := ⟨content, rfl, h b (List.mem_cons_of_mem _ hb)⟩

theorem Recalls.crash {fs after : FileSystem Name β} {name : Name} {content : Option (List β)}
    {older : Set (Option (List β))} (h : fs.Recalls name content older) (hcrash : fs.Crash after) :
    after.read name = content ∨ after.read name ∈ older := by
  rcases List.mem_cons.mp (hcrash.1 name) with heq | hmem
  · refine Or.inl (Stands.crash ?_ hcrash)
    rw [heq]
    exact h.now
  · obtain ⟨c, hc, hstands⟩ := h.past _ hmem
    rw [hstands.crash hcrash]
    exact Or.inr hc

theorem Booted.recalls {fs : FileSystem Name β} (h : fs.Booted) (name : Name) :
    fs.Recalls name (fs.read name) ∅ where
  now := by
    cases hb : fs.names name with
    | none => simp [Stands, FileSystem.read, hb]
    | some i => exact ⟨_, by simp [FileSystem.read, hb], rfl, h.2 i⟩
  past b hb := by
    rw [h.1 name] at hb
    cases hb

theorem setInode_inodes_self (fs : FileSystem Name β) (i : Nat) (inode : Inode β) :
    (fs.setInode i inode).inodes i = inode := Function.update_self _ _ _

theorem setInode_inodes_of_ne (fs : FileSystem Name β) {i j : Nat} (inode : Inode β) (h : j ≠ i) :
    (fs.setInode i inode).inodes j = fs.inodes j := Function.update_of_ne h _ _

variable [DecidableEq Name]

def bind (fs : FileSystem Name β) (name : Name) (i : Option Nat) (h : ∀ j, i = some j → j < fs.next) :
    FileSystem Name β where
  names := Function.update fs.names name i
  past := Function.update fs.past name (fs.names name :: fs.past name)
  inodes := fs.inodes
  next := fs.next
  bound_lt := by
    intro other j hj
    by_cases hname : other = name
    · subst hname
      rw [Function.update_self, Function.update_self, List.mem_cons] at hj
      rcases hj with hj | hj
      · exact h j hj.symm
      · exact fs.bound_lt other j hj
    · rw [Function.update_of_ne hname, Function.update_of_ne hname] at hj
      exact fs.bound_lt other j hj

def unlink (fs : FileSystem Name β) (name : Name) : FileSystem Name β :=
  fs.bind name none (by simp)

/-- `open` with O_CREAT and O_EXCL: a new inode, or EEXIST. -/
def create (fs : FileSystem Name β) (name : Name) : Option (FileSystem Name β × Nat) :=
  match fs.names name with
  | some _ => none
  | none =>
    let grown : FileSystem Name β :=
      { fs with
        inodes := Function.update fs.inodes fs.next ⟨[], 0⟩
        next := fs.next + 1
        bound_lt := fun other i h => (fs.bound_lt other i h).trans (Nat.lt_succ_self _) }
    some (grown.bind name (some fs.next) (by simp [grown]), fs.next)

/-- `none` stands for ENOENT. -/
def rename (fs : FileSystem Name β) (src dst : Name) : Option (FileSystem Name β) :=
  match h : fs.names src with
  | none => none
  | some i =>
    let placed := fs.bind dst (some i) fun j hj => by
      obtain rfl := Option.some.inj hj
      exact fs.bound_lt src i (by rw [h]; exact List.mem_cons_self)
    some (placed.bind src none (by simp))

theorem unlink_of_ne (fs : FileSystem Name β) {name other : Name} (h : other ≠ name) :
    (fs.unlink name).names other = fs.names other ∧ (fs.unlink name).past other = fs.past other :=
  ⟨Function.update_of_ne h _ _, Function.update_of_ne h _ _⟩

/-- What a create that succeeds does. -/
structure Created (fs fs' : FileSystem Name β) (name : Name) (i : Nat) : Prop where
  inode : i = fs.next
  next : fs'.next = fs.next + 1
  bound : fs'.names name = some i
  empty : (fs'.inodes i).data = []
  inodes : ∀ j, j ≠ i → fs'.inodes j = fs.inodes j
  others : ∀ other, other ≠ name → fs'.names other = fs.names other ∧ fs'.past other = fs.past other

theorem create_some {fs fs' : FileSystem Name β} {name : Name} {i : Nat}
    (h : fs.create name = some (fs', i)) : Created fs fs' name i := by
  cases hb : fs.names name with
  | some j => simp [create, hb] at h
  | none =>
    simp only [create, hb, Option.some.injEq, Prod.mk.injEq] at h
    obtain ⟨rfl, rfl⟩ := h
    have hself : Function.update fs.inodes fs.next ⟨[], 0⟩ fs.next = (⟨[], 0⟩ : Inode β) :=
        Function.update_self _ _ _
    exact ⟨rfl, rfl, Function.update_self _ _ _, by simp only [bind, hself],
      fun j hj => Function.update_of_ne hj _ _,
      fun other hother => ⟨Function.update_of_ne hother _ _, Function.update_of_ne hother _ _⟩⟩

/-- What a rename that succeeds does. -/
structure Renamed (fs fs' : FileSystem Name β) (src dst : Name) (i : Nat) : Prop where
  source : fs.names src = some i
  target : fs'.names dst = some i
  past : fs'.past dst = fs.names dst :: fs.past dst
  inodes : fs'.inodes = fs.inodes
  next : fs'.next = fs.next

theorem rename_some {fs fs' : FileSystem Name β} {src dst : Name} (hne : dst ≠ src)
    (h : fs.rename src dst = some fs') : ∃ i, Renamed fs fs' src dst i := by
  unfold rename at h
  split at h
  · simp at h
  · rename_i i hb
    obtain rfl := Option.some.inj h
    refine ⟨i, hb, ?_, ?_, rfl, rfl⟩
    · exact (Function.update_of_ne hne _ _).trans (Function.update_self _ _ _)
    · exact (Function.update_of_ne hne _ _).trans (Function.update_self _ _ _)

theorem rename_none {fs : FileSystem Name β} {src dst : Name} (h : fs.rename src dst = none) :
    fs.names src = none := by
  unfold rename at h
  split at h
  · assumption
  · cases h

end FileSystem
