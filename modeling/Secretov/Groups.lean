import Secretov.Json
import Secretov.Lib.Grouping

/-! The passwd and group databases, and who is in a group (manifest.cpp). -/

namespace Secretov

open Grouping

structure GroupEntry where
  name : Bytes
  gid : Nat
  members : List Bytes
deriving DecidableEq

structure AccountEntry where
  name : Bytes
  uid : Nat
  gid : Nat
deriving DecidableEq

structure ListedMember where
  user : Bytes
  group : Bytes
deriving DecidableEq

structure GroupMembers where
  group : Bytes
  primary : List Bytes
  supplementary : List ListedMember
  otherNames : List Bytes
deriving DecidableEq

/-- The caller and the databases. A scan error is one other than ENOENT. -/
structure Host where
  uid : Nat
  groups : List GroupEntry
  accounts : List AccountEntry
  groupScanError : Option Bytes
  accountScanError : Option Bytes

def Host.getpwuid (host : Host) (uid : Nat) : Option AccountEntry :=
  host.accounts.find? (·.uid = uid)

def Host.getgrgid (host : Host) (gid : Nat) : Option GroupEntry :=
  host.groups.find? (·.gid = gid)

def addListed (myName group : Bytes) (members : GroupMembers) (user : Bytes) : GroupMembers :=
  if user ≠ myName ∧ ⟨user, group⟩ ∉ members.supplementary then
    { members with supplementary := members.supplementary ++ [⟨user, group⟩] }
  else members

def nameGroup (name : Bytes) (named : Bool) (members : GroupMembers) : GroupMembers :=
  if !named then { members with group := name }
  else if name ≠ members.group ∧ name ∉ members.otherNames then
    { members with otherNames := members.otherNames ++ [name] }
  else members

def addGroup (gid : Nat) (myName : Bytes) (collected : Bool × GroupMembers) (entry : GroupEntry) :
    Bool × GroupMembers :=
  if entry.gid ≠ gid then collected
  else (true, entry.members.foldl (addListed myName entry.name) (nameGroup entry.name collected.1 collected.2))

def addAccount (gid myUid : Nat) (members : GroupMembers) (account : AccountEntry) : GroupMembers :=
  if account.gid = gid ∧ account.uid ≠ myUid ∧ account.name ∉ members.primary then
    { members with primary := members.primary ++ [account.name] }
  else members

def collectGroupMembers (gid myUid : Nat) (myName : Bytes) (groups : List GroupEntry)
    (accounts : List AccountEntry) : GroupMembers :=
  accounts.foldl (addAccount gid myUid) (groups.foldl (addGroup gid myName) (false, ⟨[], [], [], []⟩)).2

def oursAlone (members : GroupMembers) : Bool :=
  members.primary.isEmpty && members.supplementary.isEmpty && members.otherNames.isEmpty

def otherGroupMembers (host : Host) (gid : Nat) : Except Error (Option GroupMembers) :=
  let myName := match host.getpwuid host.uid with
    | some entry => entry.name
    | none => []
  match host.getgrgid gid with
  | none => .ok none
  | some groupEntry =>
    let scanFailed (what reason : Bytes) : Error := .runtimeError (text "cannot list " ++ what ++
      text " to check group " ++ groupEntry.name ++ text ": " ++ reason ++
      text "; fix with: chmod g-w on the manifest and its directory")
    let groups := groupEntry :: host.groups.filter (·.gid = gid)
    match host.groupScanError with
    | some reason => .error (scanFailed (text "groups") reason)
    | none =>
      let accounts := host.accounts.filter (·.gid = gid)
      match host.accountScanError with
      | some reason => .error (scanFailed (text "accounts") reason)
      | none => .ok (some (collectGroupMembers gid host.uid myName groups accounts))

/-! Who is in the group, as sets of what the databases list. -/

section

variable (gid myUid : Nat) (myName : Bytes)

def PrimaryOther (accounts : List AccountEntry) (name : Bytes) : Prop :=
  ∃ account ∈ accounts, account.gid = gid ∧ account.uid ≠ myUid ∧ account.name = name

def ListedOther (groups : List GroupEntry) (listed : ListedMember) : Prop :=
  ∃ entry ∈ groups, entry.gid = gid ∧ entry.name = listed.group ∧ listed.user ∈ entry.members ∧
    listed.user ≠ myName

def Named (groups : List GroupEntry) (name : Bytes) : Prop :=
    ∃ entry ∈ groups, entry.gid = gid ∧ entry.name = name

/-- The name of the first entry with the gid. -/
def firstName (groups : List GroupEntry) : Option Bytes := (groups.find? (·.gid = gid)).map GroupEntry.name

/-- No account but ours has the primary group, no member but us is listed, and no two names share the gid. -/
structure NobodyElse (groups : List GroupEntry) (accounts : List AccountEntry) : Prop where
  accounts : ∀ account ∈ accounts, account.gid = gid → account.uid = myUid
  members : ∀ entry ∈ groups, entry.gid = gid → ∀ user ∈ entry.members, user = myName
  names : ∀ entry ∈ groups, entry.gid = gid → ∀ other ∈ groups, other.gid = gid → other.name = entry.name

end

section

variable {gid myUid : Nat} {myName group : Bytes} {members : GroupMembers} {entries : List GroupEntry}

theorem firstName_concat (entry : GroupEntry) : firstName gid (entries ++ [entry]) =
    (firstName gid entries).or (if entry.gid = gid then some entry.name else none) := by
  rw [firstName, List.find?_append, List.find?_singleton, Option.map_or]
  congr 1
  by_cases hgid : entry.gid = gid
  · simp [hgid]
  · simp [hgid]

theorem firstName_eq_none : firstName gid entries = none ↔ ∀ name, ¬Named gid entries name := by
  rw [firstName, Option.map_eq_none_iff, List.find?_eq_none]
  refine ⟨?_, fun h entry hentry hgid => h entry.name ⟨entry, hentry, of_decide_eq_true hgid, rfl⟩⟩
  rintro h name ⟨entry, hentry, hgid, -⟩
  exact h entry hentry (decide_eq_true hgid)

theorem named_concat {entry : GroupEntry} {name : Bytes} :
    Named gid (entries ++ [entry]) name ↔ Named gid entries name ∨ entry.gid = gid ∧ entry.name = name := by
  simp only [Named, List.mem_append, List.mem_singleton, or_and_right, exists_or, exists_eq_left]

theorem listedOther_concat {entry : GroupEntry} {listed : ListedMember} :
    ListedOther gid myName (entries ++ [entry]) listed ↔ ListedOther gid myName entries listed ∨
      entry.gid = gid ∧ entry.name = listed.group ∧ listed.user ∈ entry.members ∧ listed.user ≠ myName := by
  simp only [ListedOther, List.mem_append, List.mem_singleton, or_and_right, exists_or, exists_eq_left]

theorem addListed_eq (user : Bytes) : addListed myName group members user =
    if user = myName then members
    else { members with supplementary := pushNew members.supplementary ⟨user, group⟩ } := by
  unfold addListed pushNew
  split_ifs
  all_goals grind

theorem nameGroup_named (name : Bytes) : nameGroup name true members =
    if name = members.group then members
    else { members with otherNames := pushNew members.otherNames name } := by
  unfold nameGroup pushNew
  split_ifs
  all_goals grind

theorem addAccount_eq (account : AccountEntry) : addAccount gid myUid members account =
    if account.gid = gid ∧ account.uid ≠ myUid then
      { members with primary := pushNew members.primary account.name }
    else members := by
  unfold addAccount pushNew
  split_ifs
  all_goals grind

theorem foldl_addListed (myName group : Bytes) (users : List Bytes) {p : ListedMember → Prop}
    (h : Once p members.supplementary) : ∃ supplementary,
      users.foldl (addListed myName group) members = { members with supplementary } ∧
      Once (fun listed => p listed ∨ group = listed.group ∧ listed.user ∈ users ∧ listed.user ≠ myName)
        supplementary := by
  induction users generalizing members p with
  | nil => exact ⟨_, rfl, h.congr fun listed => by simp⟩
  | cons user users ih =>
    rw [List.foldl_cons, addListed_eq]
    split_ifs with hours
    · obtain ⟨supplementary, heq, honce⟩ := ih h
      refine ⟨supplementary, heq, honce.congr fun listed => ?_⟩
      rw [List.mem_cons, hours]
      grind
    · have hpush : Once (fun listed => p listed ∨ listed = ⟨user, group⟩)
          ({ members with
            supplementary := pushNew members.supplementary ⟨user, group⟩ } : GroupMembers).supplementary :=
        h.pushNew _
      obtain ⟨supplementary, heq, honce⟩ := ih hpush
      refine ⟨supplementary, heq, honce.congr fun listed => ?_⟩
      obtain ⟨listedUser, listedGroup⟩ := listed
      rw [List.mem_cons, ListedMember.mk.injEq]
      grind

theorem foldl_addAccount (gid myUid : Nat) (accounts : List AccountEntry) {p : Bytes → Prop}
    (h : Once p members.primary) : ∃ primary,
      accounts.foldl (addAccount gid myUid) members = { members with primary } ∧
      Once (fun name => p name ∨ PrimaryOther gid myUid accounts name) primary := by
  induction accounts generalizing members p with
  | nil => exact ⟨_, rfl, h.congr fun name => by simp [PrimaryOther]⟩
  | cons account accounts ih =>
    rw [List.foldl_cons, addAccount_eq]
    split_ifs with hother
    · have hpush : Once (fun name => p name ∨ name = account.name)
          ({ members with primary := pushNew members.primary account.name } : GroupMembers).primary := h.pushNew _
      obtain ⟨primary, heq, honce⟩ := ih hpush
      refine ⟨primary, heq, honce.congr fun name => ?_⟩
      rw [PrimaryOther, PrimaryOther, List.exists_mem_cons_iff, or_assoc]
      simp [hother, eq_comm]
    · obtain ⟨primary, heq, honce⟩ := ih h
      refine ⟨primary, heq, honce.congr fun name => ?_⟩
      rw [PrimaryOther, PrimaryOther, List.exists_mem_cons_iff, ← and_assoc]
      simp [hother]

/-- What the loop over the entries has collected from those it has seen. -/
structure Seen (gid : Nat) (myName : Bytes) (entries : List GroupEntry)
    (collected : Bool × GroupMembers) : Prop where
  named : collected.1 = (firstName gid entries).isSome
  group : collected.2.group = (firstName gid entries).getD []
  primary : collected.2.primary = []
  supplementary : Once (ListedOther gid myName entries) collected.2.supplementary
  otherNames : Once (fun name => Named gid entries name ∧ name ≠ collected.2.group) collected.2.otherNames

theorem Seen.start (gid : Nat) (myName : Bytes) : Seen gid myName [] (false, ⟨[], [], [], []⟩) where
  named := rfl
  group := rfl
  primary := rfl
  supplementary := .nil nofun
  otherNames := by
    refine .nil ?_
    rintro name ⟨⟨entry, hentry, -⟩, -⟩
    cases hentry

/-- An entry with another gid adds nothing. -/
theorem Seen.skip {collected : Bool × GroupMembers} (h : Seen gid myName entries collected) {entry : GroupEntry}
    (hgid : entry.gid ≠ gid) : Seen gid myName (entries ++ [entry]) collected := by
  have hfirst : firstName gid (entries ++ [entry]) = firstName gid entries := by
    rw [firstName_concat, if_neg hgid, Option.or_none]
  refine ⟨?_, ?_, h.primary, h.supplementary.congr fun listed => ?_, h.otherNames.congr fun name => ?_⟩
  · rw [hfirst]
    exact h.named
  · rw [hfirst]
    exact h.group
  · rw [listedOther_concat, or_iff_left fun hlast => hgid hlast.1]
  · rw [named_concat, or_iff_left fun hlast => hgid hlast.1]

/-- An entry with the gid names the group where it is the first one, else its name joins the others. -/
theorem nameGroup_seen {collected : Bool × GroupMembers} (h : Seen gid myName entries collected)
    {entry : GroupEntry} (hgid : entry.gid = gid) : ∃ otherNames,
      nameGroup entry.name collected.1 collected.2 =
        { collected.2 with group := (firstName gid (entries ++ [entry])).getD [], otherNames } ∧
      Once (fun name => Named gid (entries ++ [entry]) name ∧ name ≠ (firstName gid (entries ++ [entry])).getD [])
        otherNames := by
  rw [firstName_concat, if_pos hgid, h.named]
  have hgroup := h.group
  have honce := h.otherNames
  cases hfirst : firstName gid entries with
  | none =>
    have hnone := firstName_eq_none.mp hfirst
    refine ⟨collected.2.otherNames, rfl, honce.congr fun name => ?_⟩
    rw [named_concat]
    refine ⟨fun hname => absurd hname.1 (hnone name), ?_⟩
    rintro ⟨hname | ⟨-, rfl⟩, hne⟩
    · exact absurd hname (hnone name)
    · exact absurd rfl hne
  | some first =>
    rw [hfirst, Option.getD_some] at hgroup
    rw [hgroup] at honce
    rw [Option.isSome_some, nameGroup_named, Option.or_some, Option.getD_some, hgroup]
    have hsame : collected.2 = { collected.2 with group := first } := by rw [← hgroup]
    split_ifs with hname
    · refine ⟨collected.2.otherNames, hsame, honce.congr fun name => ?_⟩
      rw [named_concat]
      grind
    · refine ⟨_, ?_, (honce.pushNew entry.name).congr fun name => ?_⟩
      · rw [← hgroup]
        rfl
      · rw [named_concat]
        grind

theorem Seen.step {collected : Bool × GroupMembers} (h : Seen gid myName entries collected) (entry : GroupEntry) :
    Seen gid myName (entries ++ [entry]) (addGroup gid myName collected entry) := by
  rw [addGroup]
  split_ifs with hgid
  · exact h.skip hgid
  · have hgid := not_not.mp hgid
    obtain ⟨otherNames, hnamed, hothers⟩ := nameGroup_seen h hgid
    rw [hnamed]
    have hlisted : Once (ListedOther gid myName entries) ({ collected.2 with
        group := (firstName gid (entries ++ [entry])).getD [], otherNames } : GroupMembers).supplementary :=
      h.supplementary
    obtain ⟨supplementary, heq, honce⟩ := foldl_addListed myName entry.name entry.members hlisted
    rw [heq]
    refine ⟨?_, rfl, h.primary, honce.congr fun listed => ?_, hothers⟩
    · rw [firstName_concat, if_pos hgid]
      cases firstName gid entries with
      | none => rfl
      | some first => rfl
    · rw [listedOther_concat, and_iff_right hgid]

theorem foldl_addGroup (groups : List GroupEntry) :
    Seen gid myName groups (groups.foldl (addGroup gid myName) (false, ⟨[], [], [], []⟩)) := by
  induction groups using List.reverseRecOn with
  | nil => exact .start gid myName
  | append_singleton groups entry ih =>
    rw [List.foldl_append]
    exact ih.step entry

variable {groups : List GroupEntry} {accounts : List AccountEntry}

/-- What is reported of the databases: the first name, and who else is in the group, each once. -/
structure Collected (gid myUid : Nat) (myName : Bytes) (groups : List GroupEntry) (accounts : List AccountEntry)
    (members : GroupMembers) : Prop where
  group : members.group = (firstName gid groups).getD []
  primary : Once (PrimaryOther gid myUid accounts) members.primary
  supplementary : Once (ListedOther gid myName groups) members.supplementary
  otherNames : Once (fun name => Named gid groups name ∧
    ∀ first, firstName gid groups = some first → name ≠ first) members.otherNames

theorem collect_collected (gid myUid : Nat) (myName : Bytes) (groups : List GroupEntry)
    (accounts : List AccountEntry) :
    Collected gid myUid myName groups accounts (collectGroupMembers gid myUid myName groups accounts) := by
  have hseen : Seen gid myName groups (groups.foldl (addGroup gid myName) (false, ⟨[], [], [], []⟩)) :=
    foldl_addGroup groups
  rw [collectGroupMembers]
  revert hseen
  generalize groups.foldl (addGroup gid myName) (false, ⟨[], [], [], []⟩) = collected
  rintro ⟨-, hgroup, hprimary, hlisted, hothers⟩
  have hnone : Once (fun _ => False) collected.2.primary := by
    rw [hprimary]
    exact .nil fun _ => id
  obtain ⟨primary, heq, honce⟩ := foldl_addAccount gid myUid accounts hnone
  rw [heq]
  refine ⟨hgroup, honce.congr fun name => by rw [false_or], hlisted, hothers.congr fun name => ?_⟩
  refine and_congr_right fun hname => ?_
  rw [hgroup]
  cases hfirst : firstName gid groups with
  | none => exact absurd hname (firstName_eq_none.mp hfirst name)
  | some first => simp

/-- Lists without members leave nobody else, and one name. -/
theorem Collected.oursAlone_iff (h : Collected gid myUid myName groups accounts members) :
    oursAlone members = true ↔ NobodyElse gid myUid myName groups accounts := by
  rw [oursAlone, Bool.and_eq_true, Bool.and_eq_true, List.isEmpty_iff, List.isEmpty_iff, List.isEmpty_iff,
    h.primary.eq_nil_iff, h.supplementary.eq_nil_iff, h.otherNames.eq_nil_iff]
  constructor
  · rintro ⟨⟨hprimary, hlisted⟩, hothers⟩
    refine ⟨?_, ?_, ?_⟩
    · intro account haccount hgid
      by_contra huid
      exact hprimary account.name ⟨account, haccount, hgid, huid, rfl⟩
    · intro entry hentry hgid user huser
      by_contra hne
      exact hlisted ⟨user, entry.name⟩ ⟨entry, hentry, hgid, rfl, huser, hne⟩
    · have hfirst : ∀ entry ∈ groups, entry.gid = gid → firstName gid groups = some entry.name := by
        intro entry hentry hgid
        by_contra hne
        refine hothers entry.name ⟨⟨entry, hentry, hgid, rfl⟩, ?_⟩
        rintro first hfirst rfl
        exact hne hfirst
      intro entry hentry hgid other hother hgid'
      exact Option.some.inj ((hfirst other hother hgid').symm.trans (hfirst entry hentry hgid))
  · rintro ⟨haccounts, hmembers, hnames⟩
    refine ⟨⟨?_, ?_⟩, ?_⟩
    · rintro name ⟨account, haccount, hgid, huid, -⟩
      exact huid (haccounts account haccount hgid)
    · rintro listed ⟨entry, hentry, hgid, -, huser, hne⟩
      exact hne (hmembers entry hentry hgid listed.user huser)
    · rintro name ⟨⟨entry, hentry, hgid, rfl⟩, hne⟩
      cases hfirst : firstName gid groups with
      | none => exact firstName_eq_none.mp hfirst entry.name ⟨entry, hentry, hgid, rfl⟩
      | some first =>
        obtain ⟨other, hfind, rfl⟩ := Option.map_eq_some_iff.mp hfirst
        have hother := List.find?_some hfind
        exact hne _ hfirst
          (hnames other (List.mem_of_find?_eq_some hfind) (of_decide_eq_true hother) entry hentry hgid)

theorem NobodyElse.congr {groups' : List GroupEntry} {accounts' : List AccountEntry}
    (hgroups : ∀ entry, entry ∈ groups' ↔ entry ∈ groups)
    (haccounts : ∀ account, account ∈ accounts' ↔ account ∈ accounts) :
    NobodyElse gid myUid myName groups' accounts' ↔ NobodyElse gid myUid myName groups accounts := by
  refine ⟨fun h => ⟨?_, ?_, ?_⟩, fun h => ⟨?_, ?_, ?_⟩⟩
  · simpa only [hgroups, haccounts] using h.accounts
  · simpa only [hgroups, haccounts] using h.members
  · simpa only [hgroups, haccounts] using h.names
  · simpa only [hgroups, haccounts] using h.accounts
  · simpa only [hgroups, haccounts] using h.members
  · simpa only [hgroups, haccounts] using h.names

/-- Reordering and repeating the entries and accounts leaves the verdict as it is. -/
theorem collect_exact (gid myUid : Nat) (myName : Bytes) (groups : List GroupEntry)
    (accounts : List AccountEntry) :
    Collected gid myUid myName groups accounts (collectGroupMembers gid myUid myName groups accounts) ∧
      (oursAlone (collectGroupMembers gid myUid myName groups accounts) = true ↔
        NobodyElse gid myUid myName groups accounts) ∧
      ∀ groups' accounts', (∀ entry, entry ∈ groups' ↔ entry ∈ groups) →
        (∀ account, account ∈ accounts' ↔ account ∈ accounts) →
        oursAlone (collectGroupMembers gid myUid myName groups' accounts') =
          oursAlone (collectGroupMembers gid myUid myName groups accounts) := by
  have hcollected := collect_collected gid myUid myName groups accounts
  refine ⟨hcollected, hcollected.oursAlone_iff, fun groups' accounts' hgroups haccounts => ?_⟩
  have hcollected' := collect_collected gid myUid myName groups' accounts'
  rw [Bool.eq_iff_iff, hcollected.oursAlone_iff, hcollected'.oursAlone_iff]
  exact NobodyElse.congr hgroups haccounts

example : collectGroupMembers 1000 1000 (text "me")
    [⟨text "me", 1000, [text "me"]⟩, ⟨text "share", 1000, [text "a", text "me", text "a"]⟩, ⟨text "me", 1000, []⟩]
    [⟨text "me", 1000, 1000⟩, ⟨text "b", 1001, 1000⟩, ⟨text "b", 1001, 1000⟩] =
      ⟨text "me", [text "b"], [⟨text "a", text "share"⟩], [text "share"]⟩ := by decide

end

end Secretov
