import Secretov.StoreMachine

/-! What survives. Beside the machine stands a ledger: the vault as it is, and the
vaults that a power cut may bring back. No acknowledged operation is lost as long as
the directory is synced. -/

namespace Secretov

variable {lib : Libsodium}

structure Ledger where
  current : Option Vault
  older : Set (Option Vault)

def Ledger.may (ledger : Ledger) : Set (Option Vault) := insert ledger.current ledger.older

/-- A write whose directory was not synced leaves a way back. -/
def Ledger.write (ledger : Ledger) (warned : Bool) (vault : Vault) : Ledger :=
  ⟨some vault, if warned then ledger.may else ∅⟩

def Vault.fresh (passphrase : Bytes) : Vault := ⟨fun _ => none, passphrase⟩

inductive Ledger.Step : Ledger → Observed → Ledger → Prop
  | quiet (ledger : Ledger) : Step ledger .quiet ledger
  | created {ledger : Ledger} (hnone : ledger.current = none) (passphrase : Bytes) (warned : Bool) :
      Step ledger (.created passphrase warned) (ledger.write warned (.fresh passphrase))
  | createLost (ledger : Ledger) (passphrase : Bytes) : Step ledger (.createCutShort passphrase) ledger
  | createLanded {ledger : Ledger} (hnone : ledger.current = none) (passphrase : Bytes) :
      Step ledger (.createCutShort passphrase) (ledger.write true (.fresh passphrase))
  | acknowledged {ledger : Ledger} {vault : Vault} (hvault : ledger.current = some vault) (op : StoreOp)
      (warned : Bool) : Step ledger (.acknowledged op warned) (ledger.write warned (vault.after op))
  | lost (ledger : Ledger) (op : StoreOp) : Step ledger (.cutShort op) ledger
  | landed {ledger : Ledger} {vault : Vault} (hvault : ledger.current = some vault) (op : StoreOp) :
      Step ledger (.cutShort op) (ledger.write true (vault.after op))
  | powerCut {ledger : Ledger} {vault : Option Vault} (hmay : vault ∈ ledger.may) :
      Step ledger .powerCut ⟨vault, ∅⟩

inductive Ledger.Run : Ledger → List Observed → Ledger → Prop
  | nil (ledger : Ledger) : Run ledger [] ledger
  | step {ledger next last : Ledger} {o : Observed} {observed : List Observed} (hstep : ledger.Step o next)
      (hrun : Run next observed last) : Run ledger (o :: observed) last

section

variable (json : Nlohmann) (path : Bytes)

/-- The content is a store file of the vault. -/
def StoredAs (lib : Libsodium) (vault : Option Vault) (content : Option Bytes) : Prop :=
  match vault with
  | none => content = none
  | some vault => ∃ store : Store lib.sodium, store.path = path ∧
      Tracks json (⟨store, content⟩ : World (storeFormat lib)) vault

def FilesMirror (lib : Libsodium) (files : Files) (ledger : Ledger) : Prop :=
  ∃ content older, files.Recalls path content older ∧ StoredAs json path lib ledger.current content ∧
    ∀ c ∈ older, ∃ vault ∈ ledger.may, StoredAs json path lib vault c

structure Machine.Mirrors (machine : Machine lib) (ledger : Ledger) : Prop where
  files : FilesMirror json path lib machine.files ledger
  daemon : ∀ store, machine.daemon = some store → ∃ vault, ledger.current = some vault ∧ store.path = path ∧
    Tracks json (⟨store, machine.files.read path⟩ : World (storeFormat lib)) vault

end

section

variable {json : Nlohmann} {path : Bytes} {files files' : Files} {ledger : Ledger} {machine : Machine lib}

theorem FilesMirror.read (h : FilesMirror json path lib files ledger) :
    StoredAs json path lib ledger.current (files.read path) := by
  obtain ⟨content, older, hrecalls, hcurrent, -⟩ := h
  rw [hrecalls.now.read]
  exact hcurrent

theorem FilesMirror.mono {ledger' : Ledger} (h : FilesMirror json path lib files ledger)
    (hcurrent : ledger'.current = ledger.current) (hmay : ledger.may ⊆ ledger'.may) :
    FilesMirror json path lib files ledger' := by
  obtain ⟨content, older, hrecalls, hholds, holder⟩ := h
  refine ⟨content, older, hrecalls, by rw [hcurrent]; exact hholds, fun c hc => ?_⟩
  obtain ⟨vault, hvault, hc⟩ := holder c hc
  exact ⟨vault, hmay hvault, hc⟩

theorem FilesMirror.crash {after : Files} (h : FilesMirror json path lib files ledger)
    (hcrash : files.Crash after) : ∃ vault ∈ ledger.may, StoredAs json path lib vault (after.read path) := by
  obtain ⟨content, older, hrecalls, hholds, holder⟩ := h
  rcases hrecalls.crash hcrash with heq | hmem
  · exact ⟨ledger.current, Set.mem_insert _ _, by rw [heq]; exact hholds⟩
  · exact holder _ hmem

theorem StoredAs.none_of_missing {vault : Option Vault} (h : StoredAs json path lib vault none) :
    vault = none := by
  cases vault with
  | none => rfl
  | some vault =>
    obtain ⟨store, -, ht⟩ := h
    obtain ⟨raw, _, _, hraw, -⟩ := ht.unlocks.file
    cases hraw

/-- What a write leaves, by where it ended. -/
theorem FilesMirror.write (h : FilesMirror json path lib files ledger) {contents : Bytes} {vault : Vault}
    (hholds : StoredAs json path lib (some vault) (some contents)) {outcomes : List Outcome} {pc : Pc}
    (hrun : runWrite path contents outcomes (files, .ensureParentDir) = (files', pc)) :
    if pc.renamed then files'.read path = some contents ∧
      FilesMirror json path lib files' (ledger.write (!pc.durable) vault)
    else files'.read path = files.read path ∧ FilesMirror json path lib files' ledger := by
  obtain ⟨content, older, hrecalls, hcurrent, holder⟩ := h
  have hafter := runWrite_recalls hrecalls hrun
  cases hrenamed : pc.renamed with
  | false =>
    rw [hrenamed] at hafter
    exact ⟨by rw [hafter.now.read, hrecalls.now.read], content, older, hafter, hcurrent, holder⟩
  | true =>
    rw [hrenamed, if_pos rfl] at hafter
    refine ⟨hafter.now.read, some contents, _, hafter, hholds, fun c hc => ?_⟩
    cases hdurable : pc.durable with
    | true =>
      rw [hdurable] at hc
      cases hc
    | false =>
      rw [hdurable] at hc
      rcases hc with rfl | hc
      · exact ⟨ledger.current, Or.inr (Set.mem_insert _ _), hcurrent⟩
      · obtain ⟨older, hmem, hc⟩ := holder c hc
        exact ⟨older, Or.inr hmem, hc⟩

/-- What is left by an operation that would make the vault this one. -/
def Committed.Leaves (json : Nlohmann) (path : Bytes) (files : Files) (ledger : Ledger)
    (plan : StorePlan (storeFormat lib)) (vault : Vault) (files' : Files) : Committed lib.sodium → Prop
  | .kept store => plan = .ok (none, store) ∧ files' = files
  | .wrote store warned => ∃ contents, plan = .ok (some contents, store) ∧ files'.read path = some contents ∧
      FilesMirror json path lib files' (ledger.write warned vault)
  | .threw _ => files'.read path = files.read path ∧ FilesMirror json path lib files' ledger
  | .killed => (∃ contents store, plan = .ok (some contents, store)) ∧
      (FilesMirror json path lib files' ledger ∨ FilesMirror json path lib files' (ledger.write true vault))

theorem commitOn_leaves (h : FilesMirror json path lib files ledger) {plan : StorePlan (storeFormat lib)}
    {vault : Vault}
    (hplan : ∀ contents store, plan = .ok (some contents, store) →
    StoredAs json path lib (some vault) (some contents))
    (outcomes : List Outcome) : (commitOn path plan outcomes files).1.Leaves json path files ledger plan vault
      (commitOn path plan outcomes files).2 := by
  cases plan with
  | error e => exact ⟨rfl, h⟩
  | ok planned =>
    obtain ⟨file, store⟩ := planned
    cases file with
    | none => exact ⟨rfl, rfl⟩
    | some contents =>
      rcases hrun : runWrite path contents outcomes (files, .ensureParentDir) with ⟨files', pc⟩
      have hwrite := h.write (hplan contents store rfl) hrun
      simp only [commitOn, hrun]
      cases pc with
      | returned warned =>
        refine ⟨contents, rfl, hwrite.1, ?_⟩
        cases warned <;> exact hwrite.2
      | threw what => exact hwrite
      | openDir | fsyncDir => exact ⟨⟨_, _, rfl⟩, Or.inr hwrite.2⟩
      | closeDir warned =>
        refine ⟨⟨_, _, rfl⟩, Or.inr ?_⟩
        cases warned with
        | true => exact hwrite.2
        | false => exact hwrite.2.mono rfl (Set.insert_subset_insert (Set.empty_subset _))
      | _ => exact ⟨⟨_, _, rfl⟩, Or.inl hwrite.2⟩

theorem Machine.Mirrors.off (h : FilesMirror json path lib files ledger) :
    Machine.Mirrors json path (⟨files, none⟩ : Machine lib) ledger :=
  ⟨h, fun _ hnone => by cases hnone⟩

/-- The daemon's view is kept where the file reads as before. -/
theorem Machine.Mirrors.same_read (h : machine.Mirrors json path ledger)
    (hread : files.read path = machine.files.read path) (hfiles : FilesMirror json path lib files ledger) :
    Machine.Mirrors json path { machine with files } ledger := by
  refine ⟨hfiles, fun store hstore => ?_⟩
  obtain ⟨vault, hvault, hpath, ht⟩ := h.daemon store hstore
  exact ⟨vault, hvault, hpath, by rw [hread]; exact ht⟩

theorem FilesMirror.of_write {vault : Vault} (hvault : ledger.current = some vault) {warned : Bool}
    (h : FilesMirror json path lib files (ledger.write warned vault)) :
    FilesMirror json path lib files ledger := by
  refine h.mono hvault ?_
  rintro v (rfl | hv)
  · exact Or.inl hvault.symm
  · cases warned with
    | true => exact hv
    | false => cases hv

variable (hs : lib.sodium.Ideal) (hj : json.ParseUndoesDump)

include hs hj

theorem Machine.Mirrors.init (h : machine.Mirrors json path ledger) (passphrase : Bytes) (now : UInt64)
    (chance : Chance lib) : ∃ ledger', ledger.Step (machine.init json path passphrase now chance).2 ledger' ∧
      (machine.init json path passphrase now chance).1.Mirrors json path ledger' := by
  have hf := storeFormat_decodeUndoesEncode lib
  have hmissing {file : Option (storeFormat lib).File} {store : Store lib.sodium}
      (hplan : createPlan json chance.env path passphrase now (machine.files.read path) = .ok (file, store)) :
      ledger.current = none := by
    have hread := h.files.read
    rw [(createPlan_tracks hs hj hf hplan).1] at hread
    exact hread.none_of_missing
  have hoff (hnone : ledger.current = none) : machine.daemon = none := by
    cases hdaemon : machine.daemon with
    | none => rfl
    | some store =>
      obtain ⟨vault, hvault, -⟩ := h.daemon store hdaemon
      rw [hnone] at hvault
      cases hvault
  have hholds (contents : (storeFormat lib).File) (store : Store lib.sodium)
      (hplan : createPlan json chance.env path passphrase now (machine.files.read path) =
        .ok (some contents, store)) : StoredAs json path lib (some (.fresh passphrase)) (some contents) := by
    obtain ⟨-, hpath, contents', hcontents, ht⟩ := createPlan_tracks hs hj hf hplan
    obtain rfl := Option.some.inj hcontents
    exact ⟨store, hpath, ht⟩
  have hleaves := commitOn_leaves h.files hholds chance.outcomes
  unfold Machine.init
  rcases hcommit : commitOn path (createPlan json chance.env path passphrase now (machine.files.read path))
    chance.outcomes machine.files with ⟨result, files⟩
  rw [hcommit] at hleaves
  cases result with
  | kept store =>
    obtain ⟨-, rfl⟩ := hleaves
    exact ⟨ledger, .quiet _, h⟩
  | wrote store warned =>
    obtain ⟨contents, hplan, hread, hfiles⟩ := hleaves
    refine ⟨_, .created (hmissing hplan) passphrase warned, hfiles, fun store hstore => ?_⟩
    rw [hoff (hmissing hplan)] at hstore
    cases hstore
  | threw e => exact ⟨ledger, .quiet _, h.same_read hleaves.1 hleaves.2⟩
  | killed =>
    obtain ⟨⟨contents, store, hplan⟩, hfiles⟩ := hleaves
    have hoff := hoff (hmissing hplan)
    rcases hfiles with hfiles | hfiles
    · exact ⟨ledger, .createLost _ _, hfiles, fun store hstore => absurd (hoff.symm.trans hstore) (by simp)⟩
    · exact ⟨_, .createLanded (hmissing hplan) _, hfiles,
        fun store hstore => absurd (hoff.symm.trans hstore) (by simp)⟩

theorem commitOn_op (h : FilesMirror json path lib files ledger) {store : Store lib.sodium} {vault : Vault}
    (hpath : store.path = path) (ht : Tracks json (⟨store, files.read path⟩ : World (storeFormat lib)) vault)
    (op : StoreOp) (chance : Chance lib) :
    (commitOn path (op.plan json _ chance.env store) chance.outcomes files).1.Leaves json path files ledger
      (op.plan json _ chance.env store) (vault.after op)
      (commitOn path (op.plan json _ chance.env store) chance.outcomes files).2 := by
  refine commitOn_leaves h (fun contents store' hplan => ?_) chance.outcomes
  obtain ⟨hpath', ht'⟩ := ht.plan hs hj (storeFormat_decodeUndoesEncode lib) hplan
  exact ⟨store', hpath'.trans hpath, ht'⟩

theorem Machine.Mirrors.wrote {store store' : Store lib.sodium}
    {vault : Vault} {op : StoreOp} {env : Env lib.sodium}
    {warned : Bool} {contents : (storeFormat lib).File} (hpath : store.path = path)
    (ht : Tracks json (⟨store, files.read path⟩ : World (storeFormat lib)) vault)
    (hplan : op.plan json (storeFormat lib) env store = .ok (some contents, store'))
    (hread : files'.read path = some contents)
    (hfiles : FilesMirror json path lib files' (ledger.write warned (vault.after op))) :
    Machine.Mirrors json path (⟨files', some store'⟩ : Machine lib) (ledger.write warned (vault.after op)) := by
  refine ⟨hfiles, fun daemon hdaemon => ?_⟩
  obtain rfl := Option.some.inj hdaemon
  obtain ⟨hpath', ht'⟩ := ht.plan hs hj (storeFormat_decodeUndoesEncode lib) hplan
  exact ⟨_, rfl, hpath'.trans hpath, by rw [hread]; exact ht'⟩

theorem Machine.Mirrors.serve (h : machine.Mirrors json path ledger) (req : Request) (now : UInt64)
    (chance : Chance lib) :
    ∃ ledger', ledger.Step (machine.serve json path req now chance).2 ledger' ∧
      (machine.serve json path req now chance).1.Mirrors json path ledger' := by
  unfold Machine.serve
  cases hdaemon : machine.daemon with
  | none => exact ⟨ledger, .quiet _, h⟩
  | some store =>
    cases req.storeOp now with
    | none => exact ⟨ledger, .quiet _, h⟩
    | some op =>
      obtain ⟨vault, hvault, hpath, ht⟩ := h.daemon store hdaemon
      have hleaves := commitOn_op hs hj h.files hpath ht op chance
      simp only
      rcases hcommit : commitOn path (op.plan json (storeFormat lib) chance.env store) chance.outcomes
        machine.files with ⟨result, files⟩
      rw [hcommit] at hleaves
      cases result with
      | kept store' =>
        obtain ⟨hplan, rfl⟩ := hleaves
        obtain rfl := StoreOp.plan_kept hplan
        exact ⟨ledger, .quiet _, h.files, fun daemon hsome => h.daemon daemon (hdaemon.trans hsome)⟩
      | wrote store' warned =>
        obtain ⟨contents, hplan, hread, hfiles⟩ := hleaves
        exact ⟨_, .acknowledged hvault op warned, Machine.Mirrors.wrote hs hj hpath ht hplan hread hfiles⟩
      | threw e =>
        rw [← hdaemon]
        exact ⟨ledger, .quiet _, h.same_read hleaves.1 hleaves.2⟩
      | killed =>
        rcases hleaves.2 with hfiles | hfiles
        · exact ⟨ledger, .lost _ op, .off hfiles⟩
        · exact ⟨_, .landed hvault op, .off hfiles⟩

omit hj in
theorem openPlan_mirrors (h : FilesMirror json path lib files ledger) {env : Env lib.sodium} {passphrase : Bytes}
    {file : Option (storeFormat lib).File} {store : Store lib.sodium}
    (hplan : openPlan json env path passphrase (files.read path) = .ok (file, store)) :
    file = none ∧ ∃ vault, ledger.current = some vault ∧ store.path = path ∧
      Tracks json (⟨store, files.read path⟩ : World (storeFormat lib)) vault := by
  have hread := h.read
  cases hcurrent : ledger.current with
  | none =>
    rw [hcurrent] at hread
    have hread : files.read path = none := hread
    rw [hread] at hplan
    obtain ⟨_, -, hplan⟩ := Prog.except_bind_eq_ok.mp hplan
    cases hfault : env.fault .readFile <;> simp [hfault] at hplan
  | some vault =>
    rw [hcurrent] at hread
    obtain ⟨stored, rfl, ht⟩ := hread
    obtain ⟨raw, _, _, hraw, -⟩ := ht.unlocks.file
    have hraw : files.read stored.path = some raw := hraw
    rw [hraw] at hplan ht ⊢
    obtain ⟨rfl, rfl⟩ := openPlan_tracks hs ht hplan
    exact ⟨rfl, vault, rfl, rfl, ht⟩

/-- A rotation leaves the vault as it is, so the ledger has nothing to write. -/
theorem Machine.Mirrors.rotated (h : FilesMirror json path lib files ledger) {store : Store lib.sodium}
    {vault : Vault} (hvault : ledger.current = some vault) (hpath : store.path = path)
    (ht : Tracks json (⟨store, files.read path⟩ : World (storeFormat lib)) vault)
    (passphrase : Bytes) (now : UInt64) (chance : Chance lib) :
    Machine.Mirrors json path (match commitOn path ((StoreOp.rotate passphrase now).plan json _ chance.env store)
        chance.outcomes files with
      | (.kept store, files) | (.wrote store _, files) => ⟨files, some store⟩
      | (_, files) => ⟨files, none⟩ : Machine lib) ledger := by
  have hleaves := commitOn_op hs hj h hpath ht (.rotate passphrase now) chance
  rcases hcommit : commitOn path ((StoreOp.rotate passphrase now).plan json (storeFormat lib) chance.env store)
    chance.outcomes files with ⟨result, files'⟩
  rw [hcommit] at hleaves
  cases result with
  | kept store' =>
    obtain ⟨hplan, rfl⟩ := hleaves
    obtain rfl := StoreOp.plan_kept hplan
    refine ⟨h, fun daemon hdaemon => ?_⟩
    obtain rfl := Option.some.inj hdaemon
    exact ⟨vault, hvault, hpath, ht⟩
  | wrote store' warned =>
    obtain ⟨contents, hplan, hread, hfiles⟩ := hleaves
    have hwrote := Machine.Mirrors.wrote hs hj hpath ht hplan hread hfiles
    refine ⟨hfiles.of_write hvault, fun daemon hdaemon => ?_⟩
    obtain ⟨vault', hvault', hdaemon⟩ := hwrote.daemon daemon hdaemon
    exact ⟨vault', hvault.trans hvault', hdaemon⟩
  | threw e => exact .off hleaves.2
  | killed =>
    rcases hleaves.2 with hfiles | hfiles
    · exact .off hfiles
    · exact .off (hfiles.of_write hvault)

theorem Machine.Mirrors.start (h : machine.Mirrors json path ledger) (passphrase : Bytes) (now : UInt64)
    (opening rotating : Chance lib) :
    (machine.start json path passphrase now opening rotating).Mirrors json path ledger := by
  unfold Machine.start
  cases hdaemon : machine.daemon with
  | some store => exact h
  | none =>
    simp only
    cases hplan : (openPlan json opening.env path passphrase (machine.files.read path) :
        StorePlan (storeFormat lib)) with
    | error e => exact .off h.files
    | ok planned =>
      obtain ⟨file, store⟩ := planned
      obtain ⟨rfl, vault, hvault, hpath, ht⟩ := openPlan_mirrors hs h.files hplan
      simp only [commitOn]
      split_ifs
      · exact Machine.Mirrors.rotated hs hj h.files hvault hpath ht passphrase now rotating
      · refine ⟨h.files, fun daemon hsome => ?_⟩
        obtain rfl := Option.some.inj hsome
        exact ⟨vault, hvault, hpath, ht⟩

theorem Machine.Mirrors.step (h : machine.Mirrors json path ledger) (event : MachineEvent lib)
    (hpossible : event.Possible machine) :
    ∃ ledger', ledger.Step (stepMachine json path event machine).2 ledger' ∧
      (stepMachine json path event machine).1.Mirrors json path ledger' := by
  cases event with
  | init passphrase now chance => exact h.init hs hj passphrase now chance
  | start passphrase now opening rotating =>
    exact ⟨ledger, .quiet _, h.start hs hj passphrase now opening rotating⟩
  | serve req now chance => exact h.serve hs hj req now chance
  | stop => exact ⟨ledger, .quiet _, .off h.files⟩
  | powerCut after =>
    obtain ⟨hcrash, hbooted⟩ := hpossible
    obtain ⟨vault, hmay, hholds⟩ := h.files.crash hcrash
    exact ⟨_, .powerCut hmay, .off ⟨_, ∅, hbooted.recalls path, hholds, by simp⟩⟩

theorem Machine.Mirrors.run {machine' : Machine lib} {observed : List Observed}
    (h : machine.Mirrors json path ledger) (hrun : MachineRun json path machine observed machine') :
    ∃ ledger', ledger.Run observed ledger' ∧ machine'.Mirrors json path ledger' := by
  induction hrun generalizing ledger with
  | nil machine => exact ⟨ledger, .nil _, h⟩
  | step event hpossible _ ih =>
    obtain ⟨next, hstep, hnext⟩ := h.step hs hj event hpossible
    obtain ⟨last, hrun, hlast⟩ := ih hnext
    exact ⟨last, .step hstep hrun, hlast⟩

end

section

variable (json : Nlohmann) (path : Bytes)

/-- How a machine is found: without a store, or with a version-2 file that opened. -/
inductive Found (lib : Libsodium) : Option Bytes → Option Vault → Prop
  | missing : Found lib none none
  | opened {env : Env lib.sodium} {passphrase raw : Bytes} {envelope : Envelope lib.sodium}
      {nonce : lib.sodium.Nonce} {box : lib.sodium.Box} {store : Store lib.sodium} {disk : Option Bytes}
      (hv2 : (storeFormat lib).decode path raw = .ok (.version2 envelope nonce box))
      (h : Store.open (F := storeFormat lib) json env path passphrase (some raw) = (.ok store, disk)) :
      Found lib (some raw) (some ⟨fun key => store.data[key]?, passphrase⟩)

/-- The file opens with the vault's passphrase, unless the system fails the open,
as a store that answers as the vault. Without a vault there is no file. -/
def Offers (lib : Libsodium) (content : Option Bytes) : Option Vault → Prop
  | none => content = none
  | some vault => ∃ store : Store lib.sodium, Answers store vault.map ∧ ∀ env : Env lib.sodium, env.Faultless →
      Store.open (F := storeFormat lib) json env path vault.passphrase content = (.ok store, content)

end

section

variable {json : Nlohmann} {path : Bytes} {content : Option Bytes} {vault : Option Vault}

theorem StoredAs.offers (h : StoredAs json path lib vault content) : Offers json path lib content vault := by
  cases vault with
  | none => exact h
  | some vault =>
    obtain ⟨store, rfl, ht⟩ := h
    exact ⟨store, Store.answers ht.map, fun env henv => ht.unlocks.open_eq fun call _ => henv call⟩

theorem Found.holds (h : Found json path lib content vault) : StoredAs json path lib vault content := by
  cases h with
  | missing => rfl
  | opened hv2 h =>
    have ht := open_tracks (decodeStore_version2 hv2) hv2 h
    obtain ⟨rfl, hpath, -⟩ := Store.open_version2_ok hv2 h
    exact ⟨_, hpath, ht⟩

theorem Found.mirrors {files : Files} (h : Found json path lib content vault)
    (hsettled : files.Settled path content) :
    Machine.Mirrors json path (⟨files, none⟩ : Machine lib) ⟨vault, ∅⟩ := by
  refine .off ⟨content, {content}, hsettled.recalls, h.holds, fun c hc => ?_⟩
  obtain rfl := Set.mem_singleton_iff.mp hc
  exact ⟨vault, Set.mem_insert _ _, h.holds⟩

/-- Over any lives of the daemon, with any failures, ends in the middle of a write and
power cuts: the machine behaves as the ledger. A running daemon answers as the current
vault, the file opens as it, and after a power cut as one that the ledger still has. -/
theorem machine_refines_ledger (hs : lib.sodium.Ideal) (hj : json.ParseUndoesDump) {files : Files}
    (hfound : Found json path lib content vault) (hsettled : files.Settled path content) {machine : Machine lib}
    {observed : List Observed} (hrun : MachineRun json path ⟨files, none⟩ observed machine) :
    ∃ ledger, Ledger.Run ⟨vault, ∅⟩ observed ledger ∧
      (∀ store, machine.daemon = some store → ∃ vault, ledger.current = some vault ∧ Answers store vault.map) ∧
      Offers json path lib (machine.files.read path) ledger.current ∧
      ∀ after, machine.files.Crash after →
      ∃ vault ∈ ledger.may, Offers json path lib (after.read path) vault := by
  obtain ⟨ledger, hledger, hmirrors⟩ := (hfound.mirrors hsettled).run hs hj hrun
  refine ⟨ledger, hledger, fun store hstore => ?_, hmirrors.files.read.offers, fun after hcrash => ?_⟩
  · obtain ⟨vault, hvault, -, ht⟩ := hmirrors.daemon store hstore
    exact ⟨vault, hvault, Store.answers ht.map⟩
  · obtain ⟨vault, hmay, hholds⟩ := hmirrors.files.crash hcrash
    exact ⟨vault, hmay, hholds.offers⟩

end

def noFiles : Files where
  names _ := none
  past _ := []
  inodes _ := ⟨[], 0⟩
  next := 0
  bound_lt name i h := by simp at h

theorem noFiles_settled (path : Bytes) : noFiles.Settled path none := by
  intro b hb
  obtain rfl : b = none := List.mem_singleton.mp hb
  rfl

def sampleChance (seed : UInt8) (calls : Nat) : Chance taggedBoxes :=
  ⟨sampleEnv seed, List.replicate calls .ok⟩

def settingRequest : Request :=
  ⟨text "t", text "set", text "a", text "b", [], []⟩

set_option maxRecDepth 20000 in
/-- A store is created, the daemon starts a month later and rotates the key, and it
ends between the rename and the sync of its first write. -/
theorem machine_refines_ledger_sample : ∃ (machine : Machine taggedBoxes) (ledger : Ledger),
    Ledger.Run ⟨none, ∅⟩ [.created (text "p") false, .quiet, .cutShort (.set (text "a") (text "b"))] ledger ∧
    Offers sampleJson (text "s") taggedBoxes (machine.files.read (text "s")) ledger.current := by
  have hrun := @MachineRun.step _ sampleJson (text "s") ⟨noFiles, none⟩ _ _
    (.init (text "p") 7 (sampleChance 1 10)) trivial (.step
      (.start (text "p") 2592008 (sampleChance 2 0) (sampleChance 3 10)) trivial (.step
        (.serve settingRequest 2592009 (sampleChance 4 7)) trivial (.nil _)))
  obtain ⟨ledger, hledger, -, hoffers, -⟩ :=
    machine_refines_ledger taggedBoxes_ideal (tableJson_parseUndoesDump _) .missing (noFiles_settled _) hrun
  exact ⟨_, ledger, hledger, hoffers⟩

section

variable {json : Nlohmann} {path : Bytes} {content : Option Bytes} {vault : Option Vault}

/-- Which operations have taken effect: those that were acknowledged, and of those
cut short some. -/
inductive Effective : List Observed → List StoreOp → Prop
  | nil : Effective [] []
  | acknowledged {observed : List Observed} {ops : List StoreOp} (h : Effective observed ops) (op : StoreOp)
      (warned : Bool) : Effective (observed ++ [.acknowledged op warned]) (ops ++ [op])
  | landed {observed : List Observed} {ops : List StoreOp} (h : Effective observed ops) (op : StoreOp) :
      Effective (observed ++ [.cutShort op]) (ops ++ [op])
  | lost {observed : List Observed} {ops : List StoreOp} (h : Effective observed ops) (op : StoreOp) :
      Effective (observed ++ [.cutShort op]) ops
  | quiet {observed : List Observed} {ops : List StoreOp} (h : Effective observed ops) :
      Effective (observed ++ [.quiet]) ops
  | createCutShort {observed : List Observed} {ops : List StoreOp} (h : Effective observed ops)
      (passphrase : Bytes) : Effective (observed ++ [.createCutShort passphrase]) ops
  | powerCut {observed : List Observed} {ops : List StoreOp} (h : Effective observed ops) :
      Effective (observed ++ [.powerCut]) ops

/-- Whatever a power cut may leave is the start with the operations that have taken effect. -/
def Ledger.Explained (start : Vault) (observed : List Observed) (ledger : Ledger) : Prop :=
  ∀ vault ∈ ledger.may, ∃ ops, Effective observed ops ∧ vault = some (ops.foldl Vault.after start)

theorem Ledger.Explained.current {start : Vault} {observed : List Observed} {ledger : Ledger}
    (h : ledger.Explained start observed) :
    ∃ ops, Effective observed ops ∧ ledger.current = some (ops.foldl Vault.after start) :=
  h _ (Set.mem_insert _ _)

theorem Ledger.Explained.step {start : Vault} {seen : List Observed} {ledger ledger' : Ledger} {o : Observed}
    (h : ledger.Explained start seen) (hstep : ledger.Step o ledger')
    (hsynced : ∀ op, o ≠ .acknowledged op true) : ledger'.Explained start (seen ++ [o]) := by
  obtain ⟨ops, hops, hcurrent⟩ := h.current
  intro vault hvault
  cases hstep with
  | quiet =>
    obtain ⟨ops, hops, rfl⟩ := h vault hvault
    exact ⟨ops, hops.quiet, rfl⟩
  | created hnone =>
    rw [hcurrent] at hnone
    cases hnone
  | createLost passphrase =>
    obtain ⟨ops, hops, rfl⟩ := h vault hvault
    exact ⟨ops, hops.createCutShort passphrase, rfl⟩
  | createLanded hnone =>
    rw [hcurrent] at hnone
    cases hnone
  | acknowledged hsome op warned =>
    cases warned with
    | true => exact absurd rfl (hsynced op)
    | false =>
      rw [hcurrent] at hsome
      obtain rfl := Option.some.inj hsome
      obtain rfl : vault = _ := hvault.resolve_right (by simp [Ledger.write])
      exact ⟨ops ++ [op], hops.acknowledged op false, by rw [List.foldl_append]; rfl⟩
  | lost op =>
    obtain ⟨ops, hops, rfl⟩ := h vault hvault
    exact ⟨ops, hops.lost op, rfl⟩
  | landed hsome op =>
    rcases hvault with rfl | hvault
    · rw [hcurrent] at hsome
      obtain rfl := Option.some.inj hsome
      exact ⟨ops ++ [op], hops.landed op, by rw [List.foldl_append]; rfl⟩
    · obtain ⟨ops, hops, rfl⟩ := h vault hvault
      exact ⟨ops, hops.lost op, rfl⟩
  | powerCut hmay =>
    obtain rfl : vault = _ := hvault.resolve_right (by simp)
    obtain ⟨ops, hops, rfl⟩ := h vault hmay
    exact ⟨ops, hops.powerCut, rfl⟩

theorem Ledger.Explained.run {start : Vault} {seen observed : List Observed} {ledger ledger' : Ledger}
    (h : ledger.Explained start seen) (hrun : ledger.Run observed ledger')
    (hsynced : ∀ op, .acknowledged op true ∉ observed) : ledger'.Explained start (seen ++ observed) := by
  induction hrun generalizing seen with
  | nil => simpa using h
  | step hstep _ ih =>
    have hnext := h.step hstep fun op heq => hsynced op (by simp [heq])
    have hlast := ih hnext fun op hmem => hsynced op (List.mem_cons_of_mem _ hmem)
    rwa [List.append_assoc] at hlast

/-- As long as every directory sync succeeds: at any time, and after a power cut at
any time, the store is the one found with all operations that were acknowledged and
some of those that were cut short, in their order. -/
theorem acknowledged_operations_survive (hs : lib.sodium.Ideal) (hj : json.ParseUndoesDump) {files : Files}
    {start : Vault} (hfound : Found json path lib content (some start)) (hsettled : files.Settled path content)
    {machine : Machine lib} {observed : List Observed}
    (hrun : MachineRun json path ⟨files, none⟩ observed machine)
    (hsynced : ∀ op, .acknowledged op true ∉ observed) :
    (∃ ops, Effective observed ops ∧
      Offers json path lib (machine.files.read path) (some (ops.foldl Vault.after start)) ∧
      ∀ store, machine.daemon = some store → Answers store (ops.foldl Vault.after start).map) ∧
    ∀ after, machine.files.Crash after → ∃ ops, Effective observed ops ∧
      Offers json path lib (after.read path) (some (ops.foldl Vault.after start)) := by
  obtain ⟨ledger, hledger, hmirrors⟩ := (hfound.mirrors hsettled).run hs hj hrun
  have hstart : Ledger.Explained start [] ⟨some start, ∅⟩ := by
    intro vault hvault
    obtain rfl : vault = _ := hvault.resolve_right (by simp)
    exact ⟨[], .nil, rfl⟩
  have hexplained : ledger.Explained start observed := hstart.run hledger hsynced
  constructor
  · obtain ⟨ops, hops, hcurrent⟩ := hexplained.current
    refine ⟨ops, hops, hcurrent ▸ hmirrors.files.read.offers, fun store hstore => ?_⟩
    obtain ⟨vault, hvault, -, ht⟩ := hmirrors.daemon store hstore
    obtain rfl := Option.some.inj (hvault.symm.trans hcurrent)
    exact Store.answers ht.map
  · intro after hcrash
    obtain ⟨vault, hmay, hholds⟩ := hmirrors.files.crash hcrash
    obtain ⟨ops, hops, rfl⟩ := hexplained vault hmay
    exact ⟨ops, hops, hholds.offers⟩

end

def sampleStoreFile : Bytes :=
  (storeFormat taggedBoxes).encode sampleStart.store.env (sampleEnv 1).payloadNonce
    (taggedBoxes.sodium.secretboxEasy (text "\x7b\x7d") (sampleEnv 1).payloadNonce sampleStart.store.key)

theorem sampleStoreFile_found : Found sampleJson (text "s") taggedBoxes (some sampleStoreFile)
    (some ⟨fun key => sampleStart.store.data[key]?, text "p"⟩) := by
  have hcreate : Store.create sampleJson (sampleEnv 1) (text "s") (text "p") 7 none =
      (.ok sampleStart.store, sampleStart.disk) := rfl
  have ht := create_tracks taggedBoxes_ideal (tableJson_parseUndoesDump _)
    (storeFormat_decodeUndoesEncode taggedBoxes) hcreate
  have hopen : Store.open (F := storeFormat taggedBoxes) sampleJson (sampleEnv 5) (text "s") (text "p")
      (some sampleStoreFile) = (.ok sampleStart.store, some sampleStoreFile) :=
    ht.unlocks.open_eq fun _ _ => rfl
  have hparams : checkKdfParams sampleStart.store.env.opslimit sampleStart.store.env.memlimit = .ok () :=
    checkKdfParams_default
  exact .opened (storeFormat_decodeUndoesEncode taggedBoxes (text "s") sampleStart.store.env
    (sampleEnv 1).payloadNonce _ hparams) hopen

def deletingRequest : Request :=
  { settingRequest with op := text "delete" }

set_option maxRecDepth 20000 in
/-- A value is set, and the daemon ends while it deletes it. -/
theorem acknowledged_operations_survive_sample : ∃ (machine : Machine taggedBoxes) (ops : List StoreOp),
    Effective [.quiet, .acknowledged (.set (text "a") (text "b")) false, .cutShort (.remove (text "a"))] ops ∧
    Offers sampleJson (text "s") taggedBoxes (machine.files.read (text "s"))
      (some (ops.foldl Vault.after ⟨fun key => sampleStart.store.data[key]?, text "p"⟩)) := by
  have hrun := @MachineRun.step _ sampleJson (text "s") ⟨oneFile (text "s") sampleStoreFile, none⟩ _ _
    (.start (text "p") 8 (sampleChance 2 0) (sampleChance 3 0)) trivial (.step
      (.serve settingRequest 9 (sampleChance 4 10)) trivial (.step
        (.serve deletingRequest 10 (sampleChance 5 3)) trivial (.nil _)))
  have hsynced : ∀ op, Observed.acknowledged op true ∉
      [.quiet, .acknowledged (.set (text "a") (text "b")) false, .cutShort (.remove (text "a"))] := by simp
  have h := acknowledged_operations_survive taggedBoxes_ideal (tableJson_parseUndoesDump _) sampleStoreFile_found
    (oneFile_settled _ _) hrun hsynced
  obtain ⟨⟨ops, hops, hoffers, -⟩, -⟩ := h
  exact ⟨_, ops, hops, hoffers⟩

end Secretov
