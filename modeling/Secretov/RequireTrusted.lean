import Mathlib.Data.List.Nodup
import Secretov.Groups
import Secretov.Lib.Prog

/-! The owner and mode check of a file or directory (manifest.cpp), and who the
system lets write it. -/

namespace Secretov

def S_IWUSR : UInt32 := 0o200

def S_IWGRP : UInt32 := 0o020

def S_IWOTH : UInt32 := 0o002

structure Stat where
  uid : Nat
  gid : Nat
  mode : UInt32

/-- What stat gives of a file, the accounts that an access ACL grants write, and
the error of reading that ACL other than ENODATA and ENOTSUP. -/
structure FileInfo where
  stat : Stat
  acl : Option (AccountEntry → Bool)
  aclError : Option Bytes

def Stat.allows (st : Stat) (bit : UInt32) : Bool := st.mode &&& bit != 0

def join (parts : List Bytes) (separator : Bytes) : Bytes :=
  parts.foldl (fun joined part => (if joined = [] then joined else joined ++ separator) ++ part) []

structure SharedGroup where
  reason : Bytes
  regroupFix : Bytes
deriving DecidableEq

def describeSharedGroup (gid : Nat) (members : GroupMembers) : SharedGroup :=
  let memberDescriptions :=
    members.primary.map (· ++ text " (its primary group)") ++
    members.supplementary.map (fun listed => if listed.group = members.group then listed.user
      else listed.user ++ text " (via group '" ++ listed.group ++ text "')") ++
    members.otherNames.map fun otherName =>
      text "group '" ++ otherName ++ text "', which shares gid " ++ decimal gid
  let regroupCommands :=
    members.primary.map (fun user => text "sudo userdel " ++ user ++
      text " or sudo usermod -g <another group> " ++ user) ++
    members.supplementary.map (fun listed => text "sudo gpasswd -d " ++ listed.user ++ text " " ++
      listed.group) ++
    members.otherNames.map fun otherName => text "sudo groupmod -g <unused gid> " ++ otherName
  { reason := text "writable by group '" ++ members.group ++ text "', which also includes " ++
      join memberDescriptions (text ", ")
    regroupFix := text "or make '" ++ members.group ++ text "' yours alone: " ++
      join regroupCommands (text "; ") ++ text " (and end any of their processes still running)" }

def sharedGroupProblem (host : Host) (gid : Nat) : Except Error (Option SharedGroup) :=
  let notPrivate := some ⟨text "writable by group " ++ decimal gid ++
    text ", which is not your private group", []⟩
  match host.getpwuid host.uid with
  | none => .ok notPrivate
  | some myEntry =>
    if myEntry.gid ≠ gid then .ok notPrivate
    else do
      match ← otherGroupMembers host gid with
      | none => return some ⟨text "writable by group " ++ decimal gid ++
          text ", which has no group entry, so its members are unknown", []⟩
      | some members =>
        if members.group ≠ myEntry.name then
          return some ⟨text "writable by group '" ++ members.group ++
            text "', which is not your private group (named " ++ myEntry.name ++ text ")", []⟩
        else if oursAlone members then return none
        else return some (describeSharedGroup gid members)

def aclProblem (path : Bytes) (info : FileInfo) : Option Bytes :=
  match info.aclError with
  | some reason => some (text "group-writable, and its ACL cannot be read (" ++ reason ++
      text "); fix with: chmod g-w '" ++ path ++ text "'")
  | none => info.acl.map fun _ => text "has an ACL, so its group write may extend to other accounts; " ++
      text "fix with: setfacl -b '" ++ path ++ text "', or chmod g-w '" ++ path ++ text "'"

def requireTrusted (host : Host) (path : Bytes) (info : FileInfo) (noun : Bytes) (directory : Bool) :
    Except Error Unit := do
  let st := info.stat
  let refusing := text "refusing " ++ noun ++ (if directory then text " directory" else []) ++ text " '" ++
    path ++ text "': "
  Prog.throwIf (st.uid ≠ host.uid ∧ ¬ (directory ∧ st.uid = 0))
    (.runtimeError (refusing ++ text "owned by uid " ++ decimal st.uid ++ text ", not you (uid " ++
      decimal host.uid ++ text "); remove it or chown it to yourself"))
  let groupProblem ← groupProblemOf host st
  Prog.throwIf (st.allows S_IWOTH)
    (.runtimeError (refusing ++ text "writable by everyone; fix with: chmod " ++
      (if groupProblem.isSome then text "g-w,o-w" else text "o-w") ++ text " '" ++ path ++ text "'"))
  refuseGroup refusing groupProblem
  refuseAcl refusing st
where
  groupProblemOf (host : Host) (st : Stat) : Except Error (Option SharedGroup) :=
    if st.allows S_IWGRP then sharedGroupProblem host st.gid else .ok none
  refuseGroup (refusing : Bytes) : Option SharedGroup → Except Error Unit
    | none => .ok ()
    | some problem => .error (.runtimeError
        (refusing ++ problem.reason ++ text "; fix with: chmod g-w '" ++ path ++
        text "'" ++ if problem.regroupFix = [] then [] else text ", " ++ problem.regroupFix))
  refuseAcl (refusing : Bytes) (st : Stat) : Except Error Unit :=
    if st.allows S_IWGRP then
      match aclProblem path info with
      | some acl => .error (.runtimeError (refusing ++ acl))
      | none => .ok ()
    else .ok ()

/-- The account is in a group: as its primary one, or listed in an entry with the gid. -/
def InGroup (host : Host) (account : AccountEntry) (gid : Nat) : Prop :=
  account.gid = gid ∨ ∃ entry ∈ host.groups, entry.gid = gid ∧ account.name ∈ entry.members

def ModeAllows (host : Host) (st : Stat) (account : AccountEntry) : Prop :=
  (account.uid = st.uid ∧ st.allows S_IWUSR = true) ∨
    (account.uid ≠ st.uid ∧ InGroup host account st.gid ∧ st.allows S_IWGRP = true) ∨
    (account.uid ≠ st.uid ∧ ¬ InGroup host account st.gid ∧ st.allows S_IWOTH = true)

def MayWrite (host : Host) (info : FileInfo) (account : AccountEntry) : Prop :=
  ModeAllows host info.stat account ∨ ∃ grants, info.acl = some grants ∧ grants account = true

theorem otherGroupMembers_eq_ok {host : Host} {my : AccountEntry} {gid : Nat} {members : GroupMembers}
    (hmy : host.getpwuid host.uid = some my) (h : otherGroupMembers host gid = .ok (some members)) :
    ∃ first, members = collectGroupMembers gid host.uid my.name (first :: host.groups.filter (·.gid = gid))
      (host.accounts.filter (·.gid = gid)) := by
  simp only [otherGroupMembers, hmy] at h
  split at h
  · cases h
  · split at h
    · cases h
    · split at h
      · cases h
      · exact ⟨_, (Option.some.inj (Except.ok.inj h)).symm⟩

/-- A group that is no problem has nobody else in it. -/
theorem sharedGroupProblem_eq_none {host : Host} {gid : Nat} (hnames : (host.accounts.map (·.name)).Nodup)
    (h : sharedGroupProblem host gid = .ok none) :
    ∀ account ∈ host.accounts, InGroup host account gid → account.uid = host.uid := by
  unfold sharedGroupProblem at h
  cases hmy : host.getpwuid host.uid with
  | none => simp [hmy] at h
  | some my =>
    simp only [hmy] at h
    split_ifs at h with hprivate
    · cases h
    obtain ⟨members, hmembers, h⟩ := Prog.except_bind_eq_ok.mp h
    cases members with
    | none => cases h
    | some members =>
      obtain ⟨first, rfl⟩ := otherGroupMembers_eq_ok hmy hmembers
      simp only at h
      split_ifs at h with hname halone
      · cases h
      on_goal 2 => cases h
      obtain ⟨hprimary, hlisted, -⟩ := (collect_collected ..).oursAlone_iff.mp halone
      intro account haccount hin
      rcases hin with hgid | ⟨entry, hentry, hgid, hmem⟩
      · have hfilter : account ∈ host.accounts.filter (·.gid = gid) :=
          List.mem_filter.mpr ⟨haccount, by simpa using hgid⟩
        exact hprimary account hfilter hgid
      · -- a listed name is the caller's, and names are unique
        have hfilter : entry ∈ host.groups.filter (·.gid = gid) :=
            List.mem_filter.mpr ⟨hentry, by simpa using hgid⟩
        have hsame : account.name = my.name := hlisted entry (List.mem_cons_of_mem _ hfilter) hgid _ hmem
        have hmymem : my ∈ host.accounts := List.mem_of_find?_eq_some hmy
        obtain rfl : account = my := List.inj_on_of_nodup_map hnames haccount hmymem hsame
        simpa using List.find?_some hmy

theorem requireTrusted_eq_ok {host : Host} {path : Bytes} {info : FileInfo} {noun : Bytes} {directory : Bool}
    {u : Unit} (h : requireTrusted host path info noun directory = .ok u) :
    (info.stat.uid = host.uid ∨ directory = true ∧ info.stat.uid = 0) ∧ info.stat.allows S_IWOTH = false ∧
      (info.stat.allows S_IWGRP = true → sharedGroupProblem host info.stat.gid = .ok none ∧ info.acl = none) := by
  obtain ⟨_, howner, h⟩ := Prog.except_bind_eq_ok.mp h
  obtain ⟨problem, hproblem, h⟩ := Prog.except_bind_eq_ok.mp h
  obtain ⟨_, hothers, h⟩ := Prog.except_bind_eq_ok.mp h
  obtain ⟨_, hgroup, hacl⟩ := Prog.except_bind_eq_ok.mp h
  have howner := Prog.throwIf_eq_ok howner
  refine ⟨?_, by simpa using Prog.throwIf_eq_ok hothers, fun hwrite => ?_⟩
  · by_cases hme : info.stat.uid = host.uid
    · exact Or.inl hme
    · exact Or.inr (not_not.mp fun hno => howner ⟨hme, hno⟩)
  · constructor
    · rw [requireTrusted.groupProblemOf, if_pos hwrite] at hproblem
      cases problem with
      | none => exact hproblem
      | some problem => cases hgroup
    · rw [requireTrusted.refuseAcl, if_pos hwrite, aclProblem] at hacl
      cases herror : info.aclError with
      | some reason => simp [herror] at hacl
      | none =>
        cases hnone : info.acl with
        | none => rfl
        | some grants => simp [herror, hnone] at hacl

/-- The check is sound: what it accepts, nobody but the caller and root can write. -/
theorem require_trusted_sound {host : Host} {path : Bytes} {info : FileInfo} {noun : Bytes} {directory : Bool}
    (hnames : (host.accounts.map (·.name)).Nodup)
    (hmask : info.stat.allows S_IWGRP = false → ∀ grants, info.acl = some grants →
      ∀ account, account.uid ≠ host.uid → grants account = false)
    (h : requireTrusted host path info noun directory = .ok ()) :
    ∀ account ∈ host.accounts, account.uid ≠ host.uid → account.uid ≠ 0 → ¬ MayWrite host info account := by
  obtain ⟨howner, hothers, hgroup⟩ := requireTrusted_eq_ok h
  rintro account haccount hother hroot (hmode | ⟨grants, hgrants, hallowed⟩)
  · rcases hmode with ⟨hown, -⟩ | ⟨-, hin, hwrite⟩ | ⟨-, -, hwrite⟩
    · rcases howner with hme | ⟨-, hzero⟩
      · exact hother (hown.trans hme)
      · exact hroot (hown.trans hzero)
    · exact hother (sharedGroupProblem_eq_none hnames (hgroup hwrite).1 account haccount hin)
    · simp [hothers] at hwrite
  · cases hwrite : info.stat.allows S_IWGRP with
    | true => simp [(hgroup hwrite).2] at hgrants
    | false => simp [hmask hwrite grants hgrants account hother] at hallowed

def sampleHost : Host where
  uid := 1000
  groups := [⟨text "roudy", 1000, [text "roudy"]⟩, ⟨text "docker", 999, [text "bob"]⟩]
  accounts := [⟨text "root", 0, 0⟩, ⟨text "roudy", 1000, 1000⟩, ⟨text "bob", 1001, 1001⟩]
  groupScanError := none
  accountScanError := none

def privateFile : FileInfo where
  stat := ⟨1000, 1000, 0o100664⟩
  acl := none
  aclError := none

def rootDirectory : FileInfo where
  stat := ⟨0, 0, 0o40755⟩
  acl := some fun account => account.uid = 1000
  aclError := none

theorem require_trusted_sound_sample :
    ¬ MayWrite sampleHost privateFile ⟨text "bob", 1001, 1001⟩ ∧
      ¬ MayWrite sampleHost rootDirectory ⟨text "bob", 1001, 1001⟩ := by
  have hnames : (sampleHost.accounts.map (·.name)).Nodup := by decide
  have hfile : requireTrusted sampleHost (text "m") privateFile (text "manifest") false = .ok () := by decide
  have hdir : requireTrusted sampleHost (text "/") rootDirectory (text "manifest") true = .ok () := by decide
  constructor
  · exact require_trusted_sound hnames (fun hno => absurd hno (by decide)) hfile _ (by decide) (by decide)
      (by decide)
  · refine require_trusted_sound hnames ?_ hdir _ (by decide) (by decide) (by decide)
    rintro - _ ⟨⟩ account hother
    exact decide_eq_false hother

end Secretov
