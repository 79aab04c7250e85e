import Mathlib.Logic.Function.Basic
import Mathlib.Logic.Relation

/-! Daemons that start on one socket path (transport.cpp, daemon.cpp): the system
calls of `Listener` and of the way out, with those of other processes between them. -/

namespace Secretov

/-- What `lstat` of the path finds. -/
structure PathEntry where
  ino : Nat
  isSocket : Bool
deriving DecidableEq

/-- A process, by the system call that it makes next. `ino` is the socket that it
has bound, `boundIno` what it has noted of it. -/
inductive ListenerPc where
  | lstat
  | connect (isSocket : Bool)
  | unlink
  | bind
  | chmod (ino : Nat)
  | lstatBound (ino : Nat)
  | listen (ino boundIno : Nat)
  | unlinkFailed (ino : Nat)
  | accept (ino boundIno : Nat)
  | lstatSame (closed : Bool) (ino boundIno : Nat)
  | unlinkSame (closed : Bool) (ino boundIno : Nat)
  | ended
deriving DecidableEq

namespace ListenerPc

/-- The socket that a running process has bound. -/
def bound : ListenerPc → Option Nat
  | chmod ino | lstatBound ino | listen ino _ | unlinkFailed ino | accept ino _
  | lstatSame _ ino _ | unlinkSame _ ino _ => some ino
  | _ => none

/-- The socket that connections reach. -/
def listening : ListenerPc → Option Nat
  | accept ino _ | lstatSame false ino _ | unlinkSame false ino _ => some ino
  | _ => none

/-- The socket of an open descriptor. Its inode number is not given out again. -/
def opened : ListenerPc → Option Nat
  | chmod ino | lstatBound ino | listen ino _ => some ino
  | pc => pc.listening

/-- Between `bind` and `listen`, or between the closing of the descriptor and the
last system call. -/
def Exposed (pc : ListenerPc) : Prop :=
  pc.bound.isSome ∧ pc.listening = none

end ListenerPc

variable {ι : Type}

structure Site (ι : Type) where
  entry : Option PathEntry
  pc : ι → ListenerPc

namespace Site

/-- `connect` reaches a process. -/
def Answers (s : Site ι) : Prop :=
  ∃ entry q, s.entry = some entry ∧ (s.pc q).listening = some entry.ino

def Removes (s t : Site ι) (ino : Nat) : Prop :=
  (∃ isSocket, s.entry = some ⟨ino, isSocket⟩) ∧ t.entry = none

/-- No file, a stale socket or the socket of a daemon that runs. -/
inductive Starts (s : Site ι) : Prop
  | noFile (hentry : s.entry = none) (hpc : ∀ p, s.pc p = .lstat)
  | stale (ino : Nat) (hentry : s.entry = some ⟨ino, true⟩) (hpc : ∀ p, s.pc p = .lstat)
  | live (ino : Nat) (d : ι) (hentry : s.entry = some ⟨ino, true⟩) (hd : s.pc d = .accept ino ino)
      (hpc : ∀ p, p ≠ d → s.pc p = .lstat)

variable [DecidableEq ι]

def next (s : Site ι) (p : ι) (pc : ListenerPc) (entry : Option PathEntry) : Site ι where
  entry
  pc := Function.update s.pc p pc

end Site

/-- What happens to a process: its next system call, with how that ends, or one of
the ways out. -/
inductive ListenerAct where
  | call (ok : Bool)
  | signal
  | unwind
  | killed
deriving DecidableEq

variable [DecidableEq ι]

/-- The system calls may fail at any time, also for reasons of their own. -/
inductive ListenerStep (s : Site ι) (p : ι) : ListenerAct → Site ι → Prop
  | lstat (h : s.pc p = .lstat) {entry : PathEntry} (hentry : s.entry = some entry) :
      ListenerStep s p (.call true) (s.next p (.connect entry.isSocket) s.entry)
  | lstatFails (h : s.pc p = .lstat) : ListenerStep s p (.call false) (s.next p .bind s.entry)
  | connect {isSocket : Bool} (h : s.pc p = .connect isSocket) (hanswers : s.Answers) :
      ListenerStep s p (.call true) (s.next p .ended s.entry)
  | connectFails {isSocket : Bool} (h : s.pc p = .connect isSocket) :
      ListenerStep s p (.call false) (s.next p (if isSocket then .unlink else .ended) s.entry)
  | unlink (h : s.pc p = .unlink) : ListenerStep s p (.call true) (s.next p .bind none)
  | unlinkFails (h : s.pc p = .unlink) : ListenerStep s p (.call false) (s.next p .ended s.entry)
  | bind (h : s.pc p = .bind) (hentry : s.entry = none) (ino : Nat) (hfresh : ∀ q, (s.pc q).opened ≠ some ino) :
      ListenerStep s p (.call true) (s.next p (.chmod ino) (some ⟨ino, true⟩))
  | bindFails (h : s.pc p = .bind) : ListenerStep s p (.call false) (s.next p .ended s.entry)
  | chmod {ino : Nat} (h : s.pc p = .chmod ino) (hentry : s.entry ≠ none) :
      ListenerStep s p (.call true) (s.next p (.lstatBound ino) s.entry)
  | chmodFails {ino : Nat} (h : s.pc p = .chmod ino) :
      ListenerStep s p (.call false) (s.next p (.unlinkFailed ino) s.entry)
  | lstatBound {ino : Nat} (h : s.pc p = .lstatBound ino) {entry : PathEntry} (hentry : s.entry = some entry) :
      ListenerStep s p (.call true) (s.next p (.listen ino entry.ino) s.entry)
  | lstatBoundFails {ino : Nat} (h : s.pc p = .lstatBound ino) :
      ListenerStep s p (.call false) (s.next p (.unlinkFailed ino) s.entry)
  | listen {ino boundIno : Nat} (h : s.pc p = .listen ino boundIno) :
      ListenerStep s p (.call true) (s.next p (.accept ino boundIno) s.entry)
  | listenFails {ino boundIno : Nat} (h : s.pc p = .listen ino boundIno) :
      ListenerStep s p (.call false) (s.next p (.unlinkFailed ino) s.entry)
  | unlinkFailed {ino : Nat} (h : s.pc p = .unlinkFailed ino) :
      ListenerStep s p (.call true) (s.next p .ended none)
  | unlinkFailedFails {ino : Nat} (h : s.pc p = .unlinkFailed ino) :
      ListenerStep s p (.call false) (s.next p .ended s.entry)
  | signal {ino boundIno : Nat} (h : s.pc p = .accept ino boundIno) :
      ListenerStep s p .signal (s.next p (.lstatSame false ino boundIno) s.entry)
  | unwind {ino boundIno : Nat} (h : s.pc p = .accept ino boundIno) :
      ListenerStep s p .unwind (s.next p (.lstatSame true ino boundIno) s.entry)
  | lstatSame {closed : Bool} {ino boundIno : Nat} (h : s.pc p = .lstatSame closed ino boundIno)
      (hino : boundIno ≠ 0) {isSocket : Bool} (hentry : s.entry = some ⟨boundIno, isSocket⟩) :
      ListenerStep s p (.call true) (s.next p (.unlinkSame closed ino boundIno) s.entry)
  | lstatOther {closed : Bool} {ino boundIno : Nat} (h : s.pc p = .lstatSame closed ino boundIno)
      {entry : PathEntry} (hentry : s.entry = some entry) (hother : entry.ino ≠ boundIno ∨ boundIno = 0) :
      ListenerStep s p (.call true) (s.next p .ended s.entry)
  | lstatSameFails {closed : Bool} {ino boundIno : Nat} (h : s.pc p = .lstatSame closed ino boundIno) :
      ListenerStep s p (.call false) (s.next p .ended s.entry)
  | unlinkSame {closed : Bool} {ino boundIno : Nat} (h : s.pc p = .unlinkSame closed ino boundIno) :
      ListenerStep s p (.call true) (s.next p .ended none)
  | unlinkSameFails {closed : Bool} {ino boundIno : Nat} (h : s.pc p = .unlinkSame closed ino boundIno) :
      ListenerStep s p (.call false) (s.next p .ended s.entry)
  | killed : ListenerStep s p .killed (s.next p .ended s.entry)

/-- Nobody else is exposed at a `connect`, and a failing one has nobody to reach.
Nobody else is about to unlink a stale socket at a `bind`. -/
def Apart (s : Site ι) (p : ι) (act : ListenerAct) : Prop :=
  match act, s.pc p with
  | .call ok, .connect _ => (∀ q, q ≠ p → ¬(s.pc q).Exposed) ∧ (ok = false → ¬s.Answers)
  | .call true, .bind => ∀ q, q ≠ p → s.pc q ≠ .unlink
  | _, _ => True

abbrev Interleaved : Site ι → Site ι → Prop :=
  Relation.ReflTransGen fun s t => ∃ p act, ListenerStep s p act t

/-- A run in which every step is apart from the other processes. -/
abbrev InterleavedApart : Site ι → Site ι → Prop :=
  Relation.ReflTransGen fun s t => ∃ p act, Apart s p act ∧ ListenerStep s p act t

/-! A step changes nothing but its process and the path. -/

namespace Site

variable (s : Site ι) (p : ι) (pc : ListenerPc) (entry : Option PathEntry)

@[simp] theorem next_entry : (s.next p pc entry).entry = entry := rfl

@[simp] theorem next_pc : (s.next p pc entry).pc p = pc := Function.update_self ..

theorem next_pc_of_ne {q : ι} (h : q ≠ p) : (s.next p pc entry).pc q = s.pc q := Function.update_of_ne h ..

end Site

/-- The three things that a step can do to the path. -/
inductive PathChange (s : Site ι) (p : ι) (act : ListenerAct) (pc : ListenerPc) : Option PathEntry → Prop
  | kept (hbound : pc.bound = none ∨ pc.bound = (s.pc p).bound)
      (hunlink : pc = .unlink → act = .call false ∧ s.pc p = .connect true)
      (hconnect : ∀ isSocket, pc = .connect isSocket → ∃ ino, s.entry = some ⟨ino, isSocket⟩) :
      PathChange s p act pc s.entry
  | removed (hbefore : s.pc p = .unlink ∨ (s.pc p).bound ≠ none) (hafter : pc = .bind ∨ pc = .ended) :
      PathChange s p act pc none
  | created {ino : Nat} (hact : act = .call true) (hbefore : s.pc p = .bind) (hentry : s.entry = none)
      (hafter : pc = .chmod ino) : PathChange s p act pc (some ⟨ino, true⟩)

variable {s t : Site ι} {p : ι} {act : ListenerAct}

theorem ListenerStep.change (h : ListenerStep s p act t) :
    ∃ pc entry, t = s.next p pc entry ∧ PathChange s p act pc entry := by
  cases h with
  | lstat h hentry =>
    refine ⟨_, _, rfl, .kept (.inl rfl) nofun fun isSocket hpc => ?_⟩
    obtain rfl := ListenerPc.connect.inj hpc
    exact ⟨_, hentry⟩
  | @connectFails isSocket h =>
    refine ⟨_, _, rfl, ?_⟩
    cases isSocket with
    | true => exact .kept (.inl rfl) (fun _ => ⟨rfl, h⟩) nofun
    | false => exact .kept (.inl rfl) nofun nofun
  | lstatFails | connect | unlinkFails | bindFails | unlinkFailedFails | lstatOther | lstatSameFails
  | unlinkSameFails | killed => exact ⟨_, _, rfl, .kept (.inl rfl) nofun nofun⟩
  | chmod h | chmodFails h | lstatBound h | lstatBoundFails h | listen h | listenFails h | signal h | unwind h
  | lstatSame h => exact ⟨_, _, rfl, .kept (.inr (by rw [h]; rfl)) nofun nofun⟩
  | unlink h => exact ⟨_, _, rfl, .removed (.inl h) (.inl rfl)⟩
  | unlinkFailed h | unlinkSame h => exact ⟨_, _, rfl, .removed (.inr (by simp [h, ListenerPc.bound])) (.inr rfl)⟩
  | bind h hentry ino => exact ⟨_, _, rfl, .created rfl h hentry rfl⟩

/-- A bound socket is the one at the path, and nobody is about to remove it as stale. -/
structure Owned (s : Site ι) : Prop where
  atPath : ∀ p ino, (s.pc p).bound = some ino → s.entry = some ⟨ino, true⟩
  alone : ∀ p q, (s.pc p).bound ≠ none → (s.pc q).bound ≠ none → p = q
  unheld : ∀ p, s.pc p = .unlink → ∀ q, (s.pc q).bound = none
  socket : ∀ ino isSocket, s.entry = some ⟨ino, isSocket⟩ → isSocket = true
  connects : ∀ p isSocket, s.pc p = .connect isSocket → isSocket = true

theorem Site.Starts.owned (h : s.Starts) : Owned s := by
  have hlstat {p : ι} (hp : s.pc p = .lstat) : (s.pc p).bound = none := by rw [hp]; rfl
  cases h with
  | noFile hentry hpc =>
    exact ⟨fun p ino hp => by simp [hlstat (hpc p)] at hp, fun p _ hp => absurd (hlstat (hpc p)) hp,
      fun p hp => by simp [hpc] at hp, fun ino isSocket he => by simp [hentry] at he,
      fun p isSocket hp => by simp [hpc] at hp⟩
  | stale ino hentry hpc =>
    refine ⟨fun p ino hp => by simp [hlstat (hpc p)] at hp, fun p _ hp => absurd (hlstat (hpc p)) hp,
      fun p hp => by simp [hpc] at hp, fun ino' isSocket he => ?_, fun p isSocket hp => by simp [hpc] at hp⟩
    rw [hentry] at he
    exact (congrArg PathEntry.isSocket (Option.some.inj he)).symm
  | live ino d hentry hd hpc =>
    have honly (p : ι) (hp : (s.pc p).bound ≠ none) : p = d := by
      by_contra hne
      exact hp (hlstat (hpc p hne))
    refine ⟨fun p ino' hp => ?_, fun p q hp hq => (honly p hp).trans (honly q hq).symm, fun p hp => ?_,
      fun ino' isSocket he => ?_, fun p isSocket hp => ?_⟩
    · obtain rfl := honly p (by simp [hp])
      rw [hd] at hp
      rw [hentry, Option.some.inj hp]
    · by_cases hpd : p = d
      · simp [hpd, hd] at hp
      · simp [hpc p hpd] at hp
    · rw [hentry] at he
      exact (congrArg PathEntry.isSocket (Option.some.inj he)).symm
    · by_cases hpd : p = d
      · simp [hpd, hd] at hp
      · simp [hpc p hpd] at hp

theorem ListenerPc.bound_of_listening {pc : ListenerPc} {ino : Nat} (h : pc.listening = some ino) :
    pc.bound = some ino := by
  fun_cases ListenerPc.listening pc with
  | case1 | case2 | case3 => exact h
  | case4 => simp [ListenerPc.listening] at h

omit [DecidableEq ι] in
theorem Owned.unbound (hs : Owned s) (h : s.entry = none) (q : ι) : (s.pc q).bound = none := by
  cases hq : (s.pc q).bound with
  | none => rfl
  | some ino => simp [hs.atPath q ino hq] at h

/-- A refused `connect` that is apart finds that nobody has bound a socket. -/
theorem Owned.unbound_of_refused (hs : Owned s) {isSocket : Bool} (hpc : s.pc p = .connect isSocket)
    (hapart : Apart s p (.call false)) (q : ι) : (s.pc q).bound = none := by
  simp only [Apart, hpc] at hapart
  obtain ⟨hothers, hanswers⟩ := hapart
  by_cases hqp : q = p
  · rw [hqp, hpc]
    rfl
  by_contra hbound
  obtain ⟨ino, hino⟩ := Option.ne_none_iff_exists'.mp hbound
  cases hlistening : (s.pc q).listening with
  | none => exact hothers q hqp ⟨Option.isSome_iff_ne_none.mpr hbound, hlistening⟩
  | some ino' =>
    have hentry := hs.atPath q ino' (ListenerPc.bound_of_listening hlistening)
    exact hanswers trivial ⟨_, q, hentry, hlistening⟩

omit [DecidableEq ι] in
/-- Who is about to remove the path leaves nobody else with a bound socket. -/
theorem Owned.unbound_of_removes (hs : Owned s) (hbefore : s.pc p = .unlink ∨ (s.pc p).bound ≠ none) {q : ι}
    (hqp : q ≠ p) : (s.pc q).bound = none := by
  rcases hbefore with hunlink | hbound
  · exact hs.unheld p hunlink q
  · by_contra hq
    exact hqp (hs.alone q p hq hbound)

theorem Owned.step (hs : Owned s) (hapart : Apart s p act) (h : ListenerStep s p act t) : Owned t := by
  obtain ⟨pc, entry, rfl, hchange⟩ := h.change
  cases hchange with
  | kept hbound hunlink hconnect =>
    have hback (q : ι) (ino : Nat) (hq : ((s.next p pc s.entry).pc q).bound = some ino) :
        (s.pc q).bound = some ino := by
      by_cases hqp : q = p
      · rw [hqp, Site.next_pc] at hq
        rcases hbound with hnone | hsame
        · simp [hnone] at hq
        · rw [hqp, ← hsame, hq]
      · rwa [Site.next_pc_of_ne _ _ _ _ hqp] at hq
    have hback' (q : ι) (hq : ((s.next p pc s.entry).pc q).bound ≠ none) : (s.pc q).bound ≠ none := by
      obtain ⟨ino, hino⟩ := Option.ne_none_iff_exists'.mp hq
      simp [hback q ino hino]
    refine ⟨fun q ino hq => hs.atPath q ino (hback q ino hq),
      fun q r hq hr => hs.alone q r (hback' q hq) (hback' r hr),
      fun q hq r => ?_, hs.socket, fun q isSocket hq => ?_⟩
    · by_contra hr
      by_cases hqp : q = p
      · rw [hqp, Site.next_pc] at hq
        obtain ⟨rfl, hpc⟩ := hunlink hq
        exact hback' r hr (hs.unbound_of_refused hpc hapart r)
      · rw [Site.next_pc_of_ne _ _ _ _ hqp] at hq
        exact hback' r hr (hs.unheld q hq r)
    · by_cases hqp : q = p
      · rw [hqp, Site.next_pc] at hq
        obtain ⟨ino, hentry⟩ := hconnect isSocket hq
        exact hs.socket ino isSocket hentry
      · rw [Site.next_pc_of_ne _ _ _ _ hqp] at hq
        exact hs.connects q isSocket hq
  | removed hbefore hafter =>
    have hnone (q : ι) : ((s.next p pc none).pc q).bound = none := by
      by_cases hqp : q = p
      · rw [hqp, Site.next_pc]
        rcases hafter with rfl | rfl <;> rfl
      · rw [Site.next_pc_of_ne _ _ _ _ hqp]
        exact hs.unbound_of_removes hbefore hqp
    refine ⟨fun q ino hq => ?_, fun q _ hq => absurd (hnone q) hq, fun q _ r => hnone r, nofun,
      fun q isSocket hq => ?_⟩
    · simp [hnone q] at hq
    · by_cases hqp : q = p
      · rw [hqp, Site.next_pc] at hq
        rcases hafter with rfl | rfl <;> cases hq
      · rw [Site.next_pc_of_ne _ _ _ _ hqp] at hq
        exact hs.connects q isSocket hq
  | @created ino hact hbefore hentry hafter =>
    subst hact hafter
    simp only [Apart, hbefore] at hapart
    have honly (q : ι) (hq : ((s.next p (.chmod ino) (some ⟨ino, true⟩)).pc q).bound ≠ none) : q = p := by
      by_contra hqp
      rw [Site.next_pc_of_ne _ _ _ _ hqp] at hq
      exact hq (hs.unbound hentry q)
    refine ⟨fun q ino' hq => ?_, fun q r hq hr => (honly q hq).trans (honly r hr).symm, fun q hq => ?_,
      fun ino' isSocket he => ?_, fun q isSocket hq => ?_⟩
    · obtain rfl := honly q (by simp [hq])
      rw [Site.next_pc] at hq
      rw [Site.next_entry, ← Option.some.inj hq]
    · by_cases hqp : q = p
      · rw [hqp, Site.next_pc] at hq
        cases hq
      · rw [Site.next_pc_of_ne _ _ _ _ hqp] at hq
        exact absurd hq (hapart q hqp)
    · exact (congrArg PathEntry.isSocket (Option.some.inj he)).symm
    · by_cases hqp : q = p
      · rw [hqp, Site.next_pc] at hq
        cases hq
      · rw [Site.next_pc_of_ne _ _ _ _ hqp] at hq
        exact hs.connects q isSocket hq

theorem InterleavedApart.owned {s₀ : Site ι} (hstart : s₀.Starts) (hrun : InterleavedApart s₀ s) : Owned s := by
  induction hrun with
  | refl => exact hstart.owned
  | tail _ hstep ih =>
    obtain ⟨p, act, hapart, h⟩ := hstep
    exact ih.step hapart h

/-- A step that is not apart lets the next one remove the socket of a process that runs. -/
theorem Owned.removed_next (hs : Owned s) (h : ListenerStep s p act t) (hapart : ¬Apart s p act) :
    ∃ r u ino, ListenerStep t r (.call true) u ∧ t.Removes u ino ∧ ∃ q, q ≠ r ∧ (t.pc q).bound = some ino := by
  cases h with
  | @connect isSocket h hanswers =>
    simp only [Apart, h, not_and_or, not_forall, not_not] at hapart
    obtain ⟨_, r, -, hlistening⟩ := hanswers
    rcases hapart with ⟨q, -, hbound, hnone⟩ | ⟨hfalse, -⟩
    · have hq := Option.isSome_iff_ne_none.mp hbound
      have hr := ListenerPc.bound_of_listening hlistening
      obtain rfl := hs.alone q r hq (by simp [hr])
      simp [hnone] at hlistening
    · cases hfalse
  | @connectFails isSocket h =>
    obtain rfl := hs.connects p isSocket h
    obtain ⟨q, ino, hqp, hq⟩ : ∃ q ino, q ≠ p ∧ (s.pc q).bound = some ino := by
      simp only [Apart, h, not_and_or, not_forall, not_not] at hapart
      rcases hapart with ⟨q, hqp, hbound, -⟩ | ⟨-, _, q, -, hlistening⟩
      · obtain ⟨ino, hino⟩ := Option.isSome_iff_exists.mp hbound
        exact ⟨q, ino, hqp, hino⟩
      · refine ⟨q, _, ?_, ListenerPc.bound_of_listening hlistening⟩
        rintro rfl
        simp [h, ListenerPc.listening] at hlistening
    refine ⟨p, _, ino, .unlink (Site.next_pc ..), ⟨⟨true, hs.atPath q ino hq⟩, rfl⟩, q, hqp, ?_⟩
    rw [Site.next_pc_of_ne _ _ _ _ hqp, hq]
  | bind h hentry ino =>
    simp only [Apart, h, not_forall, not_not] at hapart
    obtain ⟨q, hqp, hq⟩ := hapart
    refine ⟨q, _, ino, .unlink ((Site.next_pc_of_ne _ _ _ _ hqp).trans hq), ⟨⟨true, rfl⟩, rfl⟩, p, hqp.symm, ?_⟩
    rw [Site.next_pc]
    rfl
  | lstat h | lstatFails h | unlink h | unlinkFails h | bindFails h | chmod h | chmodFails h | lstatBound h
  | lstatBoundFails h | listen h | listenFails h | unlinkFailed h | unlinkFailedFails h | lstatSame h
  | lstatOther h | lstatSameFails h | unlinkSame h | unlinkSameFails h => simp [Apart, h] at hapart
  | signal | unwind | killed => exact absurd trivial hapart

/-- As long as every step is apart, no step removes a socket of another process
that runs, one daemon accepts at most, and the path names its socket. -/
theorem live_socket_stays {s₀ : Site ι} (hstart : s₀.Starts) (hrun : InterleavedApart s₀ s) :
    (∀ p act t ino, ListenerStep s p act t → s.Removes t ino → ∀ q, q ≠ p → (s.pc q).bound ≠ some ino) ∧
      (∀ p q ino boundIno ino' boundIno',
        s.pc p = .accept ino boundIno → s.pc q = .accept ino' boundIno' → p = q) ∧
      (∀ p ino boundIno, s.pc p = .accept ino boundIno → s.entry = some ⟨ino, true⟩) ∧
      ∀ p act t, ListenerStep s p act t → ¬Apart s p act →
        ∃ r u ino, ListenerStep t r (.call true) u ∧ t.Removes u ino ∧
          ∃ q, q ≠ r ∧ (t.pc q).bound = some ino := by
  have hs := hrun.owned hstart
  have hbound {p : ι} {ino boundIno : Nat} (h : s.pc p = .accept ino boundIno) : (s.pc p).bound = some ino := by
    rw [h]
    rfl
  refine ⟨fun p act t ino h hremoves q hqp hq => ?_, fun p q ino boundIno ino' boundIno' hp hq => ?_,
    fun p ino boundIno hp => hs.atPath p ino (hbound hp), fun p act t h hapart => hs.removed_next h hapart⟩
  · obtain ⟨⟨isSocket, hentry⟩, hgone⟩ := hremoves
    obtain ⟨pc, entry, rfl, hchange⟩ := h.change
    cases hchange with
    | kept => simp [hentry] at hgone
    | removed hbefore hafter => simp [hs.unbound_of_removes hbefore hqp] at hq
    | created => cases hgone
  · exact hs.alone p q (by simp [hbound hp]) (by simp [hbound hq])

/-- A daemon starts at a stale socket, and a second start is refused. -/
theorem live_socket_stays_sample : ∃ s₀ s : Site Bool,
    s₀.entry = some ⟨1, true⟩ ∧ InterleavedApart s₀ s ∧ s.pc true = .accept 2 2 ∧ s.pc false = .ended ∧
      s.entry = some ⟨2, true⟩ := by
  let s₀ : Site Bool := ⟨some ⟨1, true⟩, fun _ => .lstat⟩
  have hrun : InterleavedApart s₀ s₀ := .refl
  have hrun := hrun.tail ⟨true, .call true, trivial, .lstat rfl rfl⟩
  have hrun := hrun.tail ⟨true, .call false, by simp [Apart, Site.next, Site.Answers, s₀, ListenerPc.Exposed,
    ListenerPc.listening, ListenerPc.bound], .connectFails rfl⟩
  have hrun := hrun.tail ⟨true, .call true, trivial, .unlink rfl⟩
  have hrun := hrun.tail ⟨true, .call true, by simp [Apart, Site.next, s₀], .bind rfl rfl 2 (by
    simp [Site.next, s₀, ListenerPc.opened, ListenerPc.listening])⟩
  have hrun := hrun.tail ⟨true, .call true, trivial, .chmod rfl (by simp)⟩
  have hrun := hrun.tail ⟨true, .call true, trivial, .lstatBound rfl rfl⟩
  have hrun := hrun.tail ⟨true, .call true, trivial, .listen rfl⟩
  have hrun := hrun.tail ⟨false, .call true, trivial, .lstat rfl rfl⟩
  have hrun := hrun.tail ⟨false, .call true, by simp [Apart, Site.next, s₀, ListenerPc.Exposed,
    ListenerPc.listening], .connect rfl ⟨_, true, rfl, rfl⟩⟩
  obtain ⟨-, -, hpath, -⟩ := live_socket_stays (.stale 1 rfl fun _ => rfl) hrun
  exact ⟨s₀, _, rfl, hrun, rfl, rfl, hpath true 2 2 rfl⟩

/-- Two starts at a stale socket. Both find it refusing. One of them gets to its
accept loop before the other makes its `unlink`. -/
theorem live_socket_removed : ∃ s₀ s t u : Site Bool, s₀.Starts ∧ Interleaved s₀ s ∧
    s.pc true = .accept 2 2 ∧ ListenerStep s false (.call true) t ∧ s.Removes t 2 ∧ Interleaved t u ∧
      u.pc true = .accept 2 2 ∧ u.pc false = .accept 3 3 ∧ u.entry = some ⟨3, true⟩ := by
  let s₀ : Site Bool := ⟨some ⟨1, true⟩, fun _ => .lstat⟩
  have hrun : Interleaved s₀ s₀ := .refl
  have hrun := hrun.tail ⟨false, _, .lstat rfl rfl⟩
  have hrun := hrun.tail ⟨false, _, .connectFails rfl⟩
  have hrun := hrun.tail ⟨true, _, .lstat rfl rfl⟩
  have hrun := hrun.tail ⟨true, _, .connectFails rfl⟩
  have hrun := hrun.tail ⟨true, _, .unlink rfl⟩
  have hrun := hrun.tail ⟨true, _, .bind rfl rfl 2 (by
    simp [Site.next, s₀, ListenerPc.opened, ListenerPc.listening])⟩
  have hrun := hrun.tail ⟨true, _, .chmod rfl (by simp)⟩
  have hrun := hrun.tail ⟨true, _, .lstatBound rfl rfl⟩
  have hrun := hrun.tail ⟨true, _, .listen rfl⟩
  obtain ⟨s, hrun, hentry, hfalse, htrue⟩ : ∃ s, Interleaved s₀ s ∧ s.entry = some ⟨2, true⟩ ∧
      s.pc false = .unlink ∧ s.pc true = .accept 2 2 := ⟨_, hrun, rfl, rfl, rfl⟩
  let t := s.next false .bind none
  have hmore : Interleaved t t := .refl
  have hmore := hmore.tail ⟨false, _, .bind (Site.next_pc ..) rfl 3 (by
    simp [Site.next, htrue, ListenerPc.opened, ListenerPc.listening])⟩
  have hmore := hmore.tail ⟨false, _, .chmod (Site.next_pc ..) (by simp)⟩
  have hmore := hmore.tail ⟨false, _, .lstatBound (Site.next_pc ..) (Site.next_entry ..)⟩
  have hmore := hmore.tail ⟨false, _, .listen (Site.next_pc ..)⟩
  refine ⟨s₀, s, t, _, .stale 1 rfl fun _ => rfl, hrun, htrue, .unlink hfalse, ⟨⟨true, hentry⟩, rfl⟩, hmore, ?_,
    Site.next_pc .., rfl⟩
  simp [Site.next, htrue]

end Secretov
