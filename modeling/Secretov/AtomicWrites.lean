import Secretov.WriteFileAtomic

/-! Runs of `write_file_atomic`: of one call, with failures and a crash at any
point, and of several calls on one path with their steps in any order. -/

namespace Secretov

def runWrite (path contents : Bytes) : List Outcome → Files × Pc → Files × Pc
  | [], s => s
  | o :: more, (fs, pc) => runWrite path contents more (stepWrite path contents o fs pc)

section

variable {path contents : Bytes} {old : Option Bytes} {made : Option Nat} {fs fs' : Files} {pc pc' : Pc}

/-- A binding from before the call. -/
def OldBinding (old : Option Bytes) (made : Option Nat) (fs : Files) (b : Option Nat) : Prop :=
  fs.Stands old b ∧ ∀ i, b = some i → made ≠ some i

/-- Where one call stands. Up to the rename every binding of the path is an old
one. From then on the path is bound to the inode of the call. -/
structure Solo (path contents : Bytes) (old : Option Bytes)
    (fs : Files) (pc : Pc) (made : Option Nat) : Prop where
  own : OwnInode contents fs made pc
  made_lt : ∀ fd, made = some fd → fd < fs.next
  tmp : pc.holdsTmp = true → fs.names (tmpName path) = made
  name : if pc.renamed then fs.names path = made else OldBinding old made fs (fs.names path)
  past : ∀ b ∈ fs.past path, OldBinding old made fs b
  durable : pc.durable = true → fs.past path = []

theorem OldBinding.step (hs : StepSpec path contents made fs pc fs' pc') {b : Option Nat}
    (hb : b ∈ fs.names path :: fs.past path) (h : OldBinding old made fs b) :
    OldBinding old ((pc.created pc').or made) fs' b := by
  obtain ⟨hstands, hnot⟩ := h
  have hlt (i : Nat) (hi : b = some i) : i < fs.next := fs.bound_lt path i (hi ▸ hb)
  refine ⟨hstands.of_eq fun i hi => hs.inodes i (hlt i hi) (hnot i hi), fun i hi => ?_⟩
  cases hc : pc.created pc' with
  | none =>
    rw [Option.none_or]
    exact hnot i hi
  | some fd =>
    obtain ⟨hfd, -, -⟩ := hs.created fd hc
    rw [Option.some_or]
    intro heq
    have hlt := hlt i hi
    obtain rfl := Option.some.inj heq
    omega

theorem Solo.step (h : Solo path contents old fs pc made) (o : Outcome) :
    ∃ made', Solo path contents old (stepWrite path contents o fs pc).1
    (stepWrite path contents o fs pc).2 made' := by
  have hs := @stepWrite_spec path contents made fs pc o h.own
  refine ⟨_, hs.own, ?_, ?_, ?_, ?_, ?_⟩
  · intro fd hfd
    cases hc : pc.created (stepWrite path contents o fs pc).2 with
    | none =>
      rw [hc, Option.none_or] at hfd
      exact (h.made_lt fd hfd).trans_le hs.next_le
    | some fd' =>
      obtain ⟨rfl, hlt, -⟩ := hs.created fd' hc
      rw [hc, Option.some_or] at hfd
      obtain rfl := Option.some.inj hfd
      exact hlt
  · intro hheld
    rcases hs.source hheld with ⟨hheld', hc, hname⟩ | ⟨fd, hc⟩
    · rw [hc, Option.none_or, hname, h.tmp hheld']
    · rw [hc, Option.some_or, (hs.created fd hc).2.2]
  · rcases hs.target with ⟨hrenamed, hname, -⟩ | ⟨rfl, hpc, i, hr⟩
    · rw [hrenamed, hname]
      have hn := h.name
      split_ifs at hn ⊢ with hpc
      · rw [Pc.created_eq_none _ (by rintro rfl; cases hpc), Option.none_or, hn]
      · exact hn.step hs List.mem_cons_self
    · have hmade := h.tmp rfl
      rw [hr.source] at hmade
      simp [hpc, Pc.renamed, Pc.created, hr.target, hmade]
  · intro b hb
    rcases hs.target with ⟨-, -, hpast | hpast⟩ | ⟨rfl, hpc, i, hr⟩
    · rw [hpast] at hb
      exact (h.past b hb).step hs (List.mem_cons_of_mem _ hb)
    · rw [hpast] at hb
      cases hb
    · rw [hr.past] at hb
      have hold : OldBinding old made fs b := by
        rcases List.mem_cons.mp hb with rfl | hb
        · exact h.name
        · exact h.past b hb
      exact hold.step hs hb
  · intro hdurable
    rcases hs.durable hdurable with hpast | ⟨hpc, hpast⟩
    · exact hpast
    · rw [hpast, h.durable hpc]

theorem Solo.run (h : Solo path contents old fs pc made) (outcomes : List Outcome) :
    ∃ made', Solo path contents old (runWrite path contents outcomes (fs, pc)).1
      (runWrite path contents outcomes (fs, pc)).2 made' := by
  induction outcomes generalizing fs pc made with
  | nil => exact ⟨made, h⟩
  | cons o more ih =>
    obtain ⟨made', h'⟩ := h.step o
    exact ih h'

theorem Solo.stands (h : Solo path contents old fs pc made) :
    (∀ b ∈ fs.past path, fs.Stands old b) ∧
    if pc.renamed then fs.Stands (some contents) (fs.names path) else fs.Stands old (fs.names path) := by
  refine ⟨fun b hb => (h.past b hb).1, ?_⟩
  have hn := h.name
  split_ifs at hn ⊢ with hpc
  · obtain ⟨fd, hmade, hholds⟩ := h.own.holds hpc
    rw [hn, hmade]
    exact ⟨contents, rfl, hholds⟩
  · exact hn.1

theorem Solo.start (hold : fs.Settled path old) : Solo path contents old fs .ensureParentDir none := by
  refine ⟨rfl, by simp, by simp [Pc.holdsTmp], ?_, ?_, by simp [Pc.durable]⟩
  · exact ⟨hold _ List.mem_cons_self, by simp⟩
  · exact fun b hb => ⟨hold b (List.mem_cons_of_mem _ hb), by simp⟩

theorem Solo.crash (h : Solo path contents old fs pc made) {after : Files} (hc : fs.Crash after)
    (hdurable : pc.durable = true) : after.names path = fs.names path := by
  have hmem := hc.1 path
  rw [h.durable hdurable] at hmem
  exact List.mem_singleton.mp hmem

theorem Solo.returned {warned : Bool} (h : Solo path contents old fs (.returned warned) made) :
    fs.read path = some contents ∧
    (warned = false → ∀ after, fs.Crash after → after.read path = some contents) := by
  have hname : fs.Stands (some contents) (fs.names path) := h.stands.2
  refine ⟨hname.read, ?_⟩
  rintro rfl after hc
  refine FileSystem.Stands.crash ?_ hc
  rw [h.crash hc rfl]
  exact hname

end

/-- One call, whatever its system calls give: at every point, and after a crash at
any point, the path holds the old content or the new one. After a throw it holds
the old one, after a return the new one, and that durably if no warning was given. -/
theorem write_file_atomic_or_nothing {path contents : Bytes} {old : Option Bytes} {start : Files}
    (hold : start.Settled path old) (outcomes : List Outcome) {fs : Files} {pc : Pc}
    (hrun : runWrite path contents outcomes (start, .ensureParentDir) = (fs, pc)) :
    (fs.read path = old ∨ fs.read path = some contents) ∧
    (∀ after, fs.Crash after → after.read path = old ∨ after.read path = some contents) ∧
    (∀ what, pc = .threw what → fs.read path = old ∧ ∀ after, fs.Crash after → after.read path = old) ∧
    ∀ warned, pc = .returned warned → fs.read path = some contents ∧
      (warned = false → ∀ after, fs.Crash after → after.read path = some contents) := by
  obtain ⟨made, h⟩ := (Solo.start hold).run outcomes
  rw [hrun] at h
  obtain ⟨hpast, hname⟩ := h.stands
  have hcrash (after : Files) (hc : fs.Crash after) :
      after.names path = fs.names path ∨ after.read path = old := by
    rcases List.mem_cons.mp (hc.1 path) with heq | hmem
    · exact Or.inl heq
    · exact Or.inr ((hpast _ hmem).crash hc)
  cases hpc : pc.renamed with
  | false =>
    rw [hpc] at hname
    have hread : fs.read path = old := hname.read
    have hafter (after : Files) (hc : fs.Crash after) : after.read path = old := by
      rcases hcrash after hc with heq | h
      · exact FileSystem.Stands.crash (by rw [heq]; exact hname) hc
      · exact h
    refine ⟨Or.inl hread, fun after hc => Or.inl (hafter after hc), fun _ _ => ⟨hread, hafter⟩, ?_⟩
    rintro warned rfl
    cases hpc
  | true =>
    rw [hpc] at hname
    have hread : fs.read path = some contents := hname.read
    refine ⟨Or.inr hread, fun after hc => ?_, ?_, ?_⟩
    · rcases hcrash after hc with heq | h
      · exact Or.inr (FileSystem.Stands.crash (by rw [heq]; exact hname) hc)
      · exact Or.inl h
    · rintro what rfl
      cases hpc
    · rintro warned rfl
      exact h.returned

def oneFile (path contents : Bytes) : Files where
  names name := if name = path then some 0 else none
  past _ := []
  inodes _ := ⟨contents, contents.length⟩
  next := 1
  bound_lt name i h := by
    rw [List.mem_singleton] at h
    split_ifs at h
    obtain rfl := Option.some.inj h
    decide

theorem oneFile_settled (path contents : Bytes) : (oneFile path contents).Settled path (some contents) := by
  intro b hb
  have hname : (oneFile path contents).names path = some 0 := if_pos rfl
  obtain rfl : b = some 0 := (List.mem_singleton.mp hb).trans hname
  exact ⟨contents, rfl, rfl, rfl⟩

/-- A write in two parts with an interruption, up to the opening of the directory. -/
def sampleOutcomes : List Outcome :=
  [.ok, .failed (text "No such file or directory"), .ok, .wrote 1, .interrupted, .wrote 2, .ok, .ok, .ok]

/-- The second part of the write does not fit on the disk. -/
def fullDiskOutcomes : List Outcome :=
  [.ok, .failed (text "No such file or directory"), .ok, .wrote 1, .failed (text "No space left on device"),
    .ok, .ok]

/-- A write of `new` to a file that has `old`. -/
def writeNew (outcomes : List Outcome) : Files × Pc :=
  runWrite (text "/d/f") (text "new") outcomes (oneFile (text "/d/f") (text "old"), .ensureParentDir)

theorem write_file_atomic_or_nothing_sample :
    (∃ fs, writeNew sampleOutcomes = (fs, .openDir) ∧ ∀ after, fs.Crash after →
      after.read (text "/d/f") = some (text "old") ∨ after.read (text "/d/f") = some (text "new")) ∧
    (∃ fs, writeNew (sampleOutcomes ++ [.ok, .ok, .ok]) = (fs, .returned false) ∧
      fs.read (text "/d/f") = some (text "new") ∧
      ∀ after, fs.Crash after → after.read (text "/d/f") = some (text "new")) ∧
    ∃ fs, writeNew fullDiskOutcomes = (fs, .threw (text "write '/d/f.tmp': No space left on device")) ∧
      fs.read (text "/d/f") = some (text "old") ∧
      ∀ after, fs.Crash after → after.read (text "/d/f") = some (text "old") := by
  have hold := oneFile_settled (text "/d/f") (text "old")
  have hends {outcomes : List Outcome} {pc : Pc} (h : (writeNew outcomes).2 = pc) :
      ∃ fs, writeNew outcomes = (fs, pc) := ⟨_, Prod.ext rfl h⟩
  obtain ⟨fs, hrun⟩ := hends (show (writeNew sampleOutcomes).2 = .openDir from rfl)
  obtain ⟨fs', hrun'⟩ := hends (show (writeNew (sampleOutcomes ++ [.ok, .ok, .ok])).2 = .returned false from rfl)
  obtain ⟨full, hfull⟩ := hends (show (writeNew fullDiskOutcomes).2 =
    .threw (text "write '/d/f.tmp': No space left on device") from rfl)
  obtain ⟨hread, hafter⟩ := (write_file_atomic_or_nothing hold _ hrun').2.2.2 false rfl
  exact ⟨⟨fs, hrun, (write_file_atomic_or_nothing hold _ hrun).2.1⟩, ⟨fs', hrun', hread, hafter rfl⟩,
    full, hfull, (write_file_atomic_or_nothing hold _ hfull).2.2.1 _ rfl⟩

/-! A call ends: only an interrupted write, or one of nothing, is made again. -/

def Outcome.advances : Outcome → Bool
  | .ok => true
  | .wrote n => decide (0 < n)
  | .interrupted => false
  | .failed _ => true

/-- How many advancing system calls end the call at the latest. -/
def Pc.callsLeft (contents : Bytes) : Pc → Nat
  | .ensureParentDir => contents.length + 10
  | .unlink => contents.length + 9
  | .create => contents.length + 8
  | .write _ written => contents.length - written + 7
  | .fsync _ => 6
  | .close _ => 5
  | .rename => 4
  | .openDir => 3
  | .fsyncDir => 2
  | .closeDir _ => 1
  | .failClose _ _ => 2
  | .failUnlink _ => 1
  | .returned _ => 0
  | .threw _ => 0

def Pc.Ended (pc : Pc) : Prop :=
  (∃ warned, pc = .returned warned) ∨ ∃ what, pc = .threw what

section

variable {path contents : Bytes}

theorem Pc.ended_of_callsLeft {pc : Pc} (h : pc.callsLeft contents = 0) : pc.Ended := by
  cases pc with
  | returned warned => exact Or.inl ⟨warned, rfl⟩
  | threw what => exact Or.inr ⟨what, rfl⟩
  | _ => simp [callsLeft] at h

theorem callsLeft_stepWrite (o : Outcome) (fs : Files) (pc : Pc) :
    (stepWrite path contents o fs pc).2.callsLeft contents ≤ pc.callsLeft contents - o.advances.toNat := by
  have hone : o.advances.toNat ≤ 1 := Bool.toNat_le _
  cases pc with
  | create =>
    simp only [stepWrite]
    split
    · simp [Pc.callsLeft]
    · split
      · simp [Pc.callsLeft]
      · rename_i fd _
        rcases writeLoop_cases contents fd 0 with ⟨hpc, -⟩ | ⟨hpc, -⟩
        all_goals
          simp only [hpc, Pc.callsLeft]
          omega
  | write fd written =>
    cases o with
    | interrupted => exact le_rfl
    | failed strerror =>
      simp only [stepWrite, Pc.callsLeft]
      omega
    | ok =>
      simp only [stepWrite, writeLoop, if_neg (lt_irrefl _), Pc.callsLeft]
      omega
    | wrote n =>
      simp only [stepWrite]
      rcases writeLoop_cases contents fd (min (written + n) contents.length) with ⟨hpc, hlt⟩ | ⟨hpc, -⟩
      · rw [hpc]
        rcases Nat.eq_zero_or_pos n with rfl | hn
        · simp only [Pc.callsLeft, Outcome.advances, lt_irrefl, decide_false, Bool.toNat_false]
          omega
        · simp only [Pc.callsLeft]
          omega
      · simp only [hpc, Pc.callsLeft]
        omega
  | returned warned | threw what => exact Nat.zero_le _
  | failClose fd what | closeDir warned =>
    simp only [stepWrite, Pc.callsLeft]
    omega
  | rename =>
    simp only [stepWrite]
    split
    · simp only [Pc.callsLeft]
      omega
    · split
      all_goals
        simp only [Pc.callsLeft]
        omega
  | _ =>
    simp only [stepWrite]
    split
    all_goals
      simp only [Pc.callsLeft]
      omega

theorem callsLeft_runWrite (outcomes : List Outcome) (fs : Files) (pc : Pc) :
    (runWrite path contents outcomes (fs, pc)).2.callsLeft contents ≤
      pc.callsLeft contents - outcomes.countP Outcome.advances := by
  induction outcomes generalizing fs pc with
  | nil => exact le_rfl
  | cons o more ih =>
    have hstep := @callsLeft_stepWrite path contents o fs pc
    have hmore : (runWrite path contents more (stepWrite path contents o fs pc)).2.callsLeft contents ≤ _ :=
      ih (stepWrite path contents o fs pc).1 (stepWrite path contents o fs pc).2
    have hcount : (o :: more).countP Outcome.advances = more.countP Outcome.advances + o.advances.toNat := by
      cases h : o.advances <;> simp [h]
    rw [runWrite, hcount]
    omega

/-- A call ends, whatever its system calls give and whatever it finds. -/
theorem write_file_atomic_ends (fs : Files) {outcomes : List Outcome}
    (henough : contents.length + 10 ≤ outcomes.countP Outcome.advances) :
    (runWrite path contents outcomes (fs, .ensureParentDir)).2.Ended := by
  have hleft := @callsLeft_runWrite path contents outcomes fs .ensureParentDir
  refine @Pc.ended_of_callsLeft contents _ ?_
  rw [Pc.callsLeft] at hleft
  omega

/-- From the creation of the temporary file on: nothing has failed, and the file is
there until it is renamed. -/
def OnCourse (path : Bytes) (fs : Files) : Pc → Prop
  | .create => fs.names (tmpName path) = none
  | .write _ _ => fs.names (tmpName path) ≠ none
  | .fsync _ => fs.names (tmpName path) ≠ none
  | .close _ => fs.names (tmpName path) ≠ none
  | .rename => fs.names (tmpName path) ≠ none
  | .openDir => True
  | .fsyncDir => True
  | .closeDir warned => warned = false
  | .returned warned => warned = false
  | .ensureParentDir => False
  | .unlink => False
  | .failClose _ _ => False
  | .failUnlink _ => False
  | .threw _ => False

theorem onCourse_writeLoop {fs : Files} (h : fs.names (tmpName path) ≠ none) (fd written : Nat) :
    OnCourse path fs (writeLoop contents fd written) := by
  rcases writeLoop_cases contents fd written with ⟨hpc, -⟩ | ⟨hpc, -⟩ <;> rw [hpc] <;> exact h

theorem OnCourse.step {o : Outcome} {fs : Files} {pc : Pc} (h : OnCourse path fs pc) (ho : o.failure = none) :
    OnCourse path (stepWrite path contents o fs pc).1 (stepWrite path contents o fs pc).2 := by
  cases pc with
  | create =>
    simp only [stepWrite, ho]
    cases hcreate : fs.create (tmpName path) with
    | none => simp [FileSystem.create, show fs.names (tmpName path) = none from h] at hcreate
    | some created =>
      refine onCourse_writeLoop ?_ created.2 0
      rw [(FileSystem.create_some hcreate).bound]
      exact Option.some_ne_none _
  | write fd written =>
    cases o with
    | ok => exact onCourse_writeLoop h fd _
    | wrote n => exact onCourse_writeLoop h fd _
    | interrupted => cases ho
    | failed strerror => cases ho
  | fsync fd | close fd =>
    simp only [stepWrite, ho]
    exact h
  | rename =>
    simp only [stepWrite, ho]
    cases hrename : fs.rename (tmpName path) path with
    | none => exact absurd (FileSystem.rename_none hrename) h
    | some renamed => trivial
  | openDir | fsyncDir =>
    simp only [stepWrite, ho]
    trivial
  | closeDir warned | returned warned => exact h
  | ensureParentDir | unlink | failClose fd what | failUnlink what | threw what => exact h.elim

theorem OnCourse.run {outcomes : List Outcome} {fs : Files} {pc : Pc} (h : OnCourse path fs pc)
    (hok : ∀ o ∈ outcomes, o.failure = none) :
    OnCourse path (runWrite path contents outcomes (fs, pc)).1 (runWrite path contents outcomes (fs, pc)).2 := by
  induction outcomes generalizing fs pc with
  | nil => exact h
  | cons o more ih =>
    exact ih (h.step (hok o List.mem_cons_self)) fun o ho => hok o (List.mem_cons_of_mem _ ho)

theorem onCourse_create {o : Outcome} {fs : Files}
    (ho : o.failure = none ∨ fs.names (tmpName path) = none) :
    (stepWrite path contents o fs .unlink).2 = .create ∧
      OnCourse path (stepWrite path contents o fs .unlink).1 .create := by
  rw [stepWrite]
  cases hf : o.failure with
  | none => exact ⟨rfl, Function.update_self _ _ _⟩
  | some strerror => exact ⟨rfl, ho.resolve_left (by rw [hf]; exact Option.some_ne_none _)⟩

/-- Without a failure, other than to remove a temporary file that is not there, a
call leaves the new content, and durably. -/
theorem write_file_atomic_writes {start : Files} {old : Option Bytes} (hold : start.Settled path old)
    {made removed : Outcome} {outcomes : List Outcome} (hmade : made.failure = none)
    (hremoved : removed.failure = none ∨ start.names (tmpName path) = none)
    (hok : ∀ o ∈ outcomes, o.failure = none)
    (henough : contents.length + 8 ≤ outcomes.countP Outcome.advances) :
    ∃ fs, runWrite path contents (made :: removed :: outcomes) (start, .ensureParentDir) = (fs, .returned false) ∧
      fs.read path = some contents ∧ ∀ after, fs.Crash after → after.read path = some contents := by
  have hstart : Solo path contents old start .ensureParentDir none := Solo.start hold
  obtain ⟨own, hsolo⟩ := hstart.run (made :: removed :: outcomes)
  have hfirst : stepWrite path contents made start .ensureParentDir = (start, .unlink) := by
    simp [stepWrite, hmade]
  obtain ⟨hcreate, hcourse⟩ := @onCourse_create path contents removed start hremoved
  rcases hremove : stepWrite path contents removed start .unlink with ⟨fs, pc⟩
  rw [hremove] at hcreate hcourse
  obtain rfl : pc = .create := hcreate
  generalize hs : runWrite path contents (made :: removed :: outcomes) (start, .ensureParentDir) = s at hsolo ⊢
  rw [runWrite, hfirst, runWrite, hremove] at hs
  have hdone := @OnCourse.run path contents outcomes _ _ hcourse hok
  have hleft := @callsLeft_runWrite path contents outcomes fs .create
  rw [hs] at hdone hleft
  have hended : s.2.Ended := by
    refine @Pc.ended_of_callsLeft contents _ ?_
    rw [Pc.callsLeft] at hleft
    omega
  obtain ⟨fs, pc⟩ := s
  rcases hended with ⟨warned, rfl⟩ | ⟨what, rfl⟩
  · obtain rfl : warned = false := hdone
    obtain ⟨hread, hafter⟩ := hsolo.returned
    exact ⟨fs, rfl, hread, hafter rfl⟩
  · exact hdone.elim

end

/-- Calls on one path, one for each `p`, and the inodes that they made. -/
structure Writers (ι : Type) where
  fs : Files
  pc : ι → Pc
  made : ι → Option Nat

section

variable {ι : Type} [DecidableEq ι] (path : Bytes) (contents : ι → Bytes)

def stepWriters (p : ι) (o : Outcome) (s : Writers ι) : Writers ι where
  fs := (stepWrite path (contents p) o s.fs (s.pc p)).1
  pc := Function.update s.pc p (stepWrite path (contents p) o s.fs (s.pc p)).2
  made := Function.update s.made p
    (((s.pc p).created (stepWrite path (contents p) o s.fs (s.pc p)).2).or (s.made p))

/-- Runs of the calls, each step one that `allowed` lets happen. The first state
of `history` is the last one. -/
inductive WritersRun (allowed : Writers ι → ι → Outcome → Prop) (fs : Files) : List (Writers ι) → Writers ι → Prop
  | start : WritersRun allowed fs [⟨fs, fun _ => .ensureParentDir, fun _ => none⟩]
      ⟨fs, fun _ => .ensureParentDir, fun _ => none⟩
  | step {history : List (Writers ι)} {s : Writers ι} (hrun : WritersRun allowed fs history s) (p : ι)
      (o : Outcome) (hallowed : allowed s p o) :
      WritersRun allowed fs (stepWriters path contents p o s :: history) (stepWriters path contents p o s)

/-- The calls are atomic among each other: the path always holds a complete
content, a call that returned had its own there while it ran, and the inode of a
call that threw was never there. -/
structure AtomicAmong (old : Option Bytes) (history : List (Writers ι)) (last : Writers ι) : Prop where
  complete : ∀ s ∈ history, s.fs.read path = old ∨ ∃ p, s.fs.read path = some (contents p)
  returned : ∀ p warned, last.pc p = .returned warned →
    ∃ s ∈ history, s.pc p = .openDir ∧ s.fs.names path = s.made p ∧ s.fs.read path = some (contents p)
  threw : ∀ p what, last.pc p = .threw what →
    ∀ s ∈ history, ∀ i, last.made p = some i → s.fs.names path ≠ some i

/-- A rename that takes effect moves the inode that its own call made. -/
def RenamesOwn (s : Writers ι) (p : ι) (o : Outcome) : Prop :=
  s.pc p = .rename → o.failure = none → ∀ i, s.fs.names (tmpName path) = some i → s.made p = some i

end

section

variable {ι : Type} [DecidableEq ι] {path : Bytes} {contents : ι → Bytes} {old : Option Bytes}

/-- The path holds the old content, or the inode of a call that has renamed. -/
structure Settling (path : Bytes) (contents : ι → Bytes) (old : Option Bytes) (s : Writers ι) : Prop where
  own : ∀ p, OwnInode (contents p) s.fs (s.made p) (s.pc p)
  made_lt : ∀ p fd, s.made p = some fd → fd < s.fs.next
  made_inj : ∀ p q fd, s.made p = some fd → s.made q = some fd → p = q
  target : (s.fs.read path = old ∧ ∀ i, s.fs.names path = some i → ∀ p, s.made p ≠ some i) ∨
    ∃ p fd, s.made p = some fd ∧ s.fs.names path = some fd ∧ (s.pc p).renamed = true

theorem StepSpec.made_cases {contents : Bytes} {made : Option Nat} {fs fs' : Files} {pc pc' : Pc}
    (hs : StepSpec path contents made fs pc fs' pc') {fd : Nat} (h : (pc.created pc').or made = some fd) :
    (pc.created pc' = none ∧ made = some fd) ∨ (fd = fs.next ∧ fs.next < fs'.next) := by
  cases hc : pc.created pc' with
  | none => exact Or.inl ⟨rfl, by rwa [hc, Option.none_or] at h⟩
  | some fd' =>
    rw [hc, Option.some_or] at h
    obtain rfl := Option.some.inj h
    exact Or.inr ⟨(hs.created fd' hc).1, (hs.created fd' hc).2.1⟩

theorem rename_failure {path contents : Bytes} {o : Outcome} {fs : Files}
    (h : (stepWrite path contents o fs .rename).2 = .openDir) : o.failure = none := by
  cases hf : o.failure with
  | none => rfl
  | some strerror => simp [stepWrite, hf] at h

section

variable {s : Writers ι} {p q : ι} {o : Outcome}

theorem stepWriters_made {fd : Nat} (hs : Settling path contents old s)
    (h : (stepWriters path contents p o s).made q = some fd) :
    s.made q = some fd ∨ (q = p ∧ fd = s.fs.next ∧ s.fs.next < (stepWriters path contents p o s).fs.next) := by
  by_cases hq : q = p
  · subst hq
    have hspec := @stepWrite_spec path (contents q) _ _ _ o (hs.own q)
    simp only [stepWriters, Function.update_self] at h
    rcases hspec.made_cases h with ⟨-, hmade⟩ | ⟨hfd, hlt⟩
    · exact Or.inl hmade
    · exact Or.inr ⟨rfl, hfd, hlt⟩
  · simp only [stepWriters, Function.update_of_ne hq] at h
    exact Or.inl h

theorem stepWriters_renamed (hs : Settling path contents old s) (h : (s.pc q).renamed = true) :
    ((stepWriters path contents p o s).pc q).renamed = true := by
  by_cases hq : q = p
  · subst hq
    have hspec := @stepWrite_spec path (contents q) _ _ _ o (hs.own q)
    simp only [stepWriters, Function.update_self]
    rcases hspec.target with ⟨hrenamed, -⟩ | ⟨-, hpc, -⟩
    · rw [hrenamed, h]
    · rw [hpc]
      rfl
  · simpa only [stepWriters, Function.update_of_ne hq] using h

theorem stepWriters_next (hs : Settling path contents old s) :
    s.fs.next ≤ (stepWriters path contents p o s).fs.next :=
  (@stepWrite_spec path (contents p) _ _ _ o (hs.own p)).next_le

theorem Settling.step (hs : Settling path contents old s) (hrenames : RenamesOwn path s p o) :
    Settling path contents old (stepWriters path contents p o s) := by
  have hspec := @stepWrite_spec path (contents p) _ _ _ o (hs.own p)
  have hmade_lt : ∀ q fd, (stepWriters path contents p o s).made q = some fd →
      fd < (stepWriters path contents p o s).fs.next := by
    intro q fd hfd
    rcases stepWriters_made hs hfd with h | ⟨-, rfl, hlt⟩
    · exact (hs.made_lt q fd h).trans_le (stepWriters_next hs)
    · exact hlt
  have hmade_inj : ∀ q r fd, (stepWriters path contents p o s).made q = some fd →
      (stepWriters path contents p o s).made r = some fd → q = r := by
    intro q r fd hq hr
    rcases stepWriters_made hs hq with hq' | ⟨hqp, hfd, -⟩
    · rcases stepWriters_made hs hr with hr' | ⟨-, hfd, -⟩
      · exact hs.made_inj q r fd hq' hr'
      · have hlt := hs.made_lt q fd hq'
        omega
    · rcases stepWriters_made hs hr with hr' | ⟨hrp, -, -⟩
      · have hlt := hs.made_lt r fd hr'
        omega
      · rw [hqp, hrp]
  refine ⟨fun q => ?_, hmade_lt, hmade_inj, ?_⟩
  · by_cases hq : q = p
    · subst hq
      simpa only [stepWriters, Function.update_self] using hspec.own
    · have hsame : ∀ i, s.made q = some i → (stepWriters path contents p o s).fs.inodes i = s.fs.inodes i := by
        intro i hi
        exact hspec.inodes i (hs.made_lt q i hi) fun hp => hq (hs.made_inj q p i hi hp)
      simpa only [stepWriters, Function.update_of_ne hq] using (hs.own q).of_eq hsame
  · rcases hspec.target with ⟨-, hname, -⟩ | ⟨hpc, hpc', i, hr⟩
    · rcases hs.target with ⟨hread, hforeign⟩ | ⟨q, fd, hmade, hbound, hrenamed⟩
      · refine Or.inl ⟨?_, fun i hi q hq => ?_⟩
        · rw [← hread]
          simp only [FileSystem.read, stepWriters, hname]
          cases hb : s.fs.names path with
          | none => rfl
          | some i =>
            have hlt := s.fs.bound_lt path i (by rw [hb]; exact List.mem_cons_self)
            simp only [Option.map_some, hspec.inodes i hlt (hforeign i hb p)]
        · have hi : s.fs.names path = some i := hname ▸ hi
          rcases stepWriters_made hs hq with hq | ⟨-, rfl, -⟩
          · exact hforeign i hi q hq
          · have hlt := s.fs.bound_lt path s.fs.next (by rw [hi]; exact List.mem_cons_self)
            omega
      · refine Or.inr ⟨q, fd, ?_, by simpa only [stepWriters, hname] using hbound,
          stepWriters_renamed hs hrenamed⟩
        by_cases hq : q = p
        · subst hq
          have hcreate : s.pc q ≠ .create := by
            intro hpc
            rw [hpc] at hrenamed
            cases hrenamed
          simpa only [stepWriters, Function.update_self, Pc.created_eq_none _ hcreate, Option.none_or] using hmade
        · simpa only [stepWriters, Function.update_of_ne hq] using hmade
    · have hown := hrenames hpc (rename_failure (hpc ▸ hpc')) i hr.source
      refine Or.inr ⟨p, i, ?_, hr.target, ?_⟩
      · have hcreate : s.pc p ≠ .create := by
          rw [hpc]
          simp
        simpa only [stepWriters, Function.update_self, Pc.created_eq_none _ hcreate, Option.none_or] using hown
      · simp only [stepWriters, Function.update_self, hpc', Pc.renamed]

omit [DecidableEq ι] in
theorem Settling.read (hs : Settling path contents old s) :
    s.fs.read path = old ∨ ∃ p, s.fs.read path = some (contents p) := by
  rcases hs.target with ⟨hread, -⟩ | ⟨p, fd, hmade, hbound, hrenamed⟩
  · exact Or.inl hread
  · obtain ⟨fd', hmade', hdata, -⟩ := (hs.own p).holds hrenamed
    obtain rfl := Option.some.inj (hmade.symm.trans hmade')
    exact Or.inr ⟨p, by simp only [FileSystem.read, hbound, Option.map_some, hdata]⟩

end

structure WriteHistory (path : Bytes) (contents : ι → Bytes) (old : Option Bytes) (history : List (Writers ι))
    (s : Writers ι) : Prop where
  now : Settling path contents old s
  complete : ∀ t ∈ history, t.fs.read path = old ∨ ∃ p, t.fs.read path = some (contents p)
  next_le : ∀ t ∈ history, t.fs.next ≤ s.fs.next
  installed : ∀ p, (s.pc p).renamed = true →
    ∃ t ∈ history, t.pc p = .openDir ∧ t.fs.names path = t.made p ∧ t.fs.read path = some (contents p)
  owner : ∀ t ∈ history, ∀ p fd, s.made p = some fd → t.fs.names path = some fd → (s.pc p).renamed = true

theorem WriteHistory.step {history : List (Writers ι)} {s : Writers ι}
    (h : WriteHistory path contents old history s) {p : ι} {o : Outcome} (hrenames : RenamesOwn path s p o) :
    WriteHistory path contents old (stepWriters path contents p o s :: history)
    (stepWriters path contents p o s) := by
  have hnow := h.now.step hrenames
  refine ⟨hnow, ?_, ?_, fun q hq => ?_, ?_⟩
  · exact List.forall_mem_cons.mpr ⟨hnow.read, h.complete⟩
  · exact List.forall_mem_cons.mpr ⟨le_rfl, fun t ht => (h.next_le t ht).trans (stepWriters_next h.now)⟩
  · cases hbefore : (s.pc q).renamed with
    | true =>
      obtain ⟨t, ht, hinstalled⟩ := h.installed q hbefore
      exact ⟨t, List.mem_cons_of_mem _ ht, hinstalled⟩
    | false =>
      have hqp : q = p := by
        by_contra hne
        simp only [stepWriters, Function.update_of_ne hne, hbefore, Bool.false_eq_true] at hq
      subst hqp
      have hspec := @stepWrite_spec path (contents q) _ _ _ o (h.now.own q)
      have hpc : (stepWriters path contents q o s).pc q = (stepWrite path (contents q) o s.fs (s.pc q)).2 :=
        Function.update_self _ _ _
      rw [hpc] at hq
      rcases hspec.target with ⟨hsame, -⟩ | ⟨hrename, hopen, i, hr⟩
      · rw [hsame, hbefore] at hq
        cases hq
      · have hown := hrenames hrename (rename_failure (hrename ▸ hopen)) i hr.source
        have hmade : (stepWriters path contents q o s).made q = some i := by
          have hcreate : s.pc q ≠ .create := by
            rw [hrename]
            simp
          simpa only [stepWriters, Function.update_self, Pc.created_eq_none _ hcreate, Option.none_or] using hown
        obtain ⟨fd, hfd, hdata, -⟩ := (hnow.own q).holds (by rw [hpc]; exact hq)
        obtain rfl := Option.some.inj (hmade.symm.trans hfd)
        have htarget : (stepWriters path contents q o s).fs.names path = some i := hr.target
        refine ⟨_, List.mem_cons_self, by rw [hpc, hopen], by rw [htarget, hmade], ?_⟩
        simp only [FileSystem.read, htarget, Option.map_some, hdata]
  · intro t ht q fd hfd hbound
    rcases List.mem_cons.mp ht with rfl | ht
    · rcases hnow.target with ⟨-, hforeign⟩ | ⟨r, fd', hmade, hbound', hrenamed⟩
      · exact absurd hfd (hforeign fd hbound q)
      · obtain rfl := Option.some.inj (hbound.symm.trans hbound')
        rw [hnow.made_inj q r fd hfd hmade]
        exact hrenamed
    · rcases stepWriters_made h.now hfd with hmade | ⟨-, rfl, -⟩
      · exact stepWriters_renamed h.now (h.owner t ht q fd hmade hbound)
      · have hlt := t.fs.bound_lt path _ (by rw [hbound]; exact List.mem_cons_self)
        have hle := h.next_le t ht
        omega

theorem WritersRun.history {start : Files} {history : List (Writers ι)} {s : Writers ι}
    (hrun : WritersRun path contents (RenamesOwn path) start history s) :
    WriteHistory path contents (start.read path) history s := by
  induction hrun with
  | start =>
    refine ⟨⟨fun p => rfl, by simp, by simp, Or.inl ⟨rfl, by simp⟩⟩, ?_, ?_, by simp [Pc.renamed], by simp⟩
    · exact fun t ht => Or.inl (by rw [List.mem_singleton.mp ht])
    · exact fun t ht => by rw [List.mem_singleton.mp ht]
  | step _ p o hrenames ih => exact ih.step hrenames

/-- Calls on one path, in any order of their steps and with any failures, are
atomic among each other as long as no rename moves a temporary file that another
call made. -/
theorem concurrent_writes_atomic {start : Files} {history : List (Writers ι)} {last : Writers ι}
    (hrun : WritersRun path contents (RenamesOwn path) start history last) :
    AtomicAmong path contents (start.read path) history last := by
  have h := hrun.history
  refine ⟨h.complete, fun p warned hpc => ?_, fun p what hpc t ht fd hmade hbound => ?_⟩
  · exact h.installed p (by rw [hpc]; rfl)
  · have hrenamed := h.owner t ht p fd hmade hbound
    rw [hpc] at hrenamed
    cases hrenamed

end

def sampleContents (p : Bool) : Bytes :=
  if p then text "aa" else text "bb"

/-- Both calls unlink before one of them creates. The other finds the file there. -/
theorem concurrent_writes_atomic_sample : ∃ history last,
    last.pc true = .openDir ∧ last.pc false = .threw (text "create 'f.tmp': File exists") ∧
    AtomicAmong (text "f") sampleContents (some (text "old")) history last := by
  have hstart := @WritersRun.start Bool _ (text "f") sampleContents (RenamesOwn (text "f"))
    (oneFile (text "f") (text "old"))
  have hcreates := ((((hstart.step true .ok nofun).step false .ok nofun).step true .ok nofun).step false .ok
    nofun).step true .ok nofun
  have hwrites := (((hcreates.step false .ok nofun).step true (.wrote 1) nofun).step true .ok nofun).step true .ok
    nofun
  have hrenames := (hwrites.step true .ok nofun).step true .ok fun _ _ i hi => hi
  exact ⟨_, _, rfl, rfl, concurrent_writes_atomic hrenames⟩

/-- The second call unlinks the temporary file of the first and creates its own,
and the first renames that one, empty still, to the path. -/
theorem concurrent_writes_torn : ∃ history last,
    WritersRun (text "f") sampleContents (fun _ _ o => o = .ok) (oneFile (text "f") (text "old")) history last ∧
    last.fs.read (text "f") = some [] ∧
    ¬ AtomicAmong (text "f") sampleContents (some (text "old")) history last := by
  have hstart := @WritersRun.start Bool _ (text "f") sampleContents (fun _ _ o => o = .ok)
    (oneFile (text "f") (text "old"))
  have hfirst := ((hstart.step true .ok rfl).step true .ok rfl).step true .ok rfl
  have hsecond := ((hfirst.step false .ok rfl).step false .ok rfl).step false .ok rfl
  have hrenamed := (((hsecond.step true .ok rfl).step true .ok rfl).step true .ok rfl).step true .ok rfl
  refine ⟨_, _, hrenamed, by decide, fun h => ?_⟩
  rcases h.complete _ List.mem_cons_self with hread | ⟨p, hread⟩
  · exact absurd hread (by decide)
  · cases p with
    | false => exact absurd hread (by decide)
    | true => exact absurd hread (by decide)

end Secretov
