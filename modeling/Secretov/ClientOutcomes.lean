import Secretov.ClientRequests

/-! What a client is told is what happened. In every interleaving of any number
of calls with the daemon, a call that returns took effect once while it ran, and
one that has failed for certain never does. -/

namespace Secretov

section

variable {ι : Type} {S : Sodium} {F : Format S} {i : ι} {log es : List (Event ι F)}

def Quiet (i : ι) (log : List (Event ι F)) : Prop :=
  ∀ e ∈ log, e.client ≠ i

/-- The one line of client `i` that the daemon has taken on is `e`, as its `k`-th. -/
def OnlyEvent (i : ι) (log : List (Event ι F)) (k : Nat) (e : Event ι F) : Prop :=
  log[k]? = some e ∧ e.client = i ∧ ∀ k' e', log[k']? = some e' → e'.client = i → k' = k

/-- The log is one run of the daemon alone, from `w₀`. -/
inductive History (json : Nlohmann) (expectedToken : Bytes) (w₀ : World F) : List (Event ι F) → World F → Prop
  | start : History json expectedToken w₀ [] w₀
  | event {log : List (Event ι F)} {e : Event ι F} {turn : Turn S}
      (h : History json expectedToken w₀ log e.before)
      (hrespond : respond json expectedToken turn e.line e.before = (e.response, e.after)) :
      History json expectedToken w₀ (log ++ [e]) e.after

def Event.wire (e : Event ι F) : Bytes :=
  match e.response with
  | .ok response => response ++ [newline]
  | .error _ => []

theorem Quiet.append (h : Quiet i log) (hes : Quiet i es) : Quiet i (log ++ es) := by
  intro e he
  exact (List.mem_append.mp he).elim (h e) (hes e)

theorem quiet_singleton {e : Event ι F} (h : e.client ≠ i) : Quiet i [e] := by
  intro e' he'
  rwa [List.mem_singleton.mp he']

theorem Quiet.onlyEvent {e : Event ι F} (h : Quiet i log) (he : e.client = i) :
    OnlyEvent i (log ++ [e]) log.length e := by
  refine ⟨by simp, he, fun k' e' hk' he' => ?_⟩
  rcases Nat.lt_trichotomy k' log.length with hlt | heq | hgt
  · rw [List.getElem?_append_left hlt] at hk'
    exact absurd he' (h e' (List.mem_of_getElem? hk'))
  · exact heq
  · simp [List.getElem?_eq_none (show (log ++ [e]).length ≤ k' by simp; omega)] at hk'

namespace OnlyEvent

variable {k : Nat} {e : Event ι F}

theorem mem (h : OnlyEvent i log k e) : e ∈ log :=
  List.mem_of_getElem? h.1

theorem lt (h : OnlyEvent i log k e) : k < log.length :=
  (List.getElem?_eq_some_iff.mp h.1).1

theorem not_quiet (h : OnlyEvent i log k e) : ¬ Quiet i log :=
  fun hq => hq e h.mem h.2.1

theorem eq_of_mem (h : OnlyEvent i log k e) {e' : Event ι F} (hmem : e' ∈ log) (he' : e'.client = i) :
    e' = e := by
  obtain ⟨k', hk'⟩ := List.mem_iff_getElem?.mp hmem
  have hkk : k' = k := h.2.2 k' e' hk' he'
  rw [hkk, h.1] at hk'
  exact (Option.some.inj hk').symm

theorem append (h : OnlyEvent i log k e) (hes : Quiet i es) : OnlyEvent i (log ++ es) k e := by
  refine ⟨by rw [List.getElem?_append_left h.lt]; exact h.1, h.2.1, fun k' e' hk' he' => ?_⟩
  rcases Nat.lt_or_ge k' log.length with hlt | hge
  · rw [List.getElem?_append_left hlt] at hk'
    exact h.2.2 k' e' hk' he'
  · rw [List.getElem?_append_right hge] at hk'
    exact absurd he' (hes e' (List.mem_of_getElem? hk'))

theorem le_of_quiet_take (h : OnlyEvent i log k e) {started : Nat} (hq : Quiet i (log.take started)) :
    started ≤ k := by
  by_contra hlt
  have hmem : e ∈ log.take started := List.mem_take_iff_getElem.mpr
    ⟨k, by have := h.lt; omega, (List.getElem?_eq_some_iff.mp h.1).2⟩
  exact hq e hmem h.2.1

end OnlyEvent

theorem History.sound {json : Nlohmann} {expectedToken : Bytes} {w₀ w : World F}
    (h : History json expectedToken w₀ log w) : ∀ e ∈ log, ∃ turn : Turn S,
      respond json expectedToken turn e.line e.before = (e.response, e.after) := by
  induction h with
  | start => simp
  | @event log e turn h hrespond ih =>
    intro e' he'
    rcases List.mem_append.mp he' with he' | he'
    · exact ih e' he'
    · rw [List.mem_singleton.mp he']
      exact ⟨turn, hrespond⟩

/-- A proper prefix of a line on the wire has no newline. -/
theorem notMem_of_append_eq {sent rest line : Bytes} (h : sent ++ rest = line ++ [newline]) (hrest : rest ≠ [])
    (hfree : newline ∉ line) : newline ∉ sent := by
  cases rest using List.reverseRecOn with
  | nil => exact absurd rfl hrest
  | append_singleton rest b =>
    rw [← List.append_assoc] at h
    have hline : sent ++ rest = line := List.append_inj_left' h rfl
    exact fun hm => hfree (hline ▸ List.mem_append_left rest hm)

end

section

variable {ι : Type} {S : Sodium} {F : Format S}

def Told (op : Op) (e : Event ι F) (told : Except LocalError Json) : Prop :=
  (∃ reply, told = .ok reply ∧ Applied e.before e.after reply op) ∨
    (∃ err, told = .error err ∧ err.maybeApplied = false ∧ e.after = e.before)

/-- Where a client is in its call. -/
inductive Phase (cfg : Setup ι) (s : System ι F) (i : ι) : Prop
  | idle (hpc : s.pc i = .idle) (hstate : (s.link i).state = .absent) (hsent : (s.link i).sent = [])
      (hdown : (s.link i).down = (s.link i).replied)
  | sending {started : Nat} {rest line : Bytes} (hpc : s.pc i = .sending started rest)
      (huid : cfg.uid i = cfg.daemonUid) (hline : serialize cfg.json (cfg.token i) (cfg.op i) = .ok line)
      (hrest : rest ≠ []) (hsent : (s.link i).sent ++ rest = line ++ [newline])
      (hdown : (s.link i).down = (s.link i).replied) (hstarted : started ≤ s.log.length)
  | receiving {started : Nat} {conn : Connection} {line : Bytes} (hpc : s.pc i = .receiving started conn)
      (huid : cfg.uid i = cfg.daemonUid) (hline : serialize cfg.json (cfg.token i) (cfg.op i) = .ok line)
      (hsent : (s.link i).sent = line ++ [newline])
      (hdown : conn.buffer ++ (s.link i).down = (s.link i).replied) (hstarted : started ≤ s.log.length)
      (hbefore : Quiet i (s.log.take started))
  | notSent {started finished : Nat} {err : LocalError} (hpc : s.pc i = .done started finished (.error err))
      (hmaybe : err.maybeApplied = false) (hsent : newline ∉ (s.link i).sent)
  | gaveUp {started finished : Nat} {err : LocalError} {line : Bytes}
      (hpc : s.pc i = .done started finished (.error err)) (hmaybe : err.maybeApplied = true)
      (huid : cfg.uid i = cfg.daemonUid) (hline : serialize cfg.json (cfg.token i) (cfg.op i) = .ok line)
      (hsent : (s.link i).sent = line ++ [newline])
  | answered {started finished k : Nat} {told : Except LocalError Json} {e : Event ι F}
      (hpc : s.pc i = .done started finished told) (honly : OnlyEvent i s.log k e) (hstarted : started ≤ k)
      (hfinished : k < finished) (htold : Told (cfg.op i) e told)

/-- Where the daemon is with the connection of a client. -/
inductive Progress (cfg : Setup ι) (s : System ι F) (i : ι) : Prop
  | pending (hquiet : Quiet i s.log) (hreplied : cfg.uid i = cfg.daemonUid → (s.link i).replied = [])
      (hread : ∀ conn, s.daemon = .serving i conn → conn.buffer ++ (s.link i).up = (s.link i).sent)
      (hwrite : ∀ conn rest carryOn, s.daemon ≠ .replying i conn rest carryOn)
      (hqueued : (s.link i).state ≠ .accepted → s.daemon.at ≠ some i ∧ (s.link i).up = (s.link i).sent)
  | taken {k : Nat} {e : Event ι F} (honly : OnlyEvent i s.log k e) (hfree : newline ∉ e.line)
      (hsent : (s.link i).sent = e.line ++ [newline]) (hreplied : (s.link i).replied <+: e.wire)
      (hread : ∀ conn, s.daemon = .serving i conn → conn.buffer ++ (s.link i).up = [])
      (hwrite : ∀ conn rest carryOn, s.daemon = .replying i conn rest carryOn →
        conn.buffer ++ (s.link i).up = [] ∧ (s.link i).replied ++ rest = e.wire)
      (hstate : (s.link i).state = .accepted)

structure Consistent (cfg : Setup ι) (s : System ι F) (i : ι) : Prop where
  phase : Phase cfg s i
  progress : Progress cfg s i

variable {cfg : Setup ι} {s t : System ι F} {i : ι}

theorem Phase.mono (h : Phase cfg s i) (hpc : t.pc i = s.pc i) (hsent : (t.link i).sent = (s.link i).sent)
    (hstate : (s.link i).state = .absent → (t.link i).state = .absent) {out : Bytes}
    (hreplied : (t.link i).replied = (s.link i).replied ++ out) (hdown : (t.link i).down = (s.link i).down ++ out)
    {es : List (Event ι F)} (hlog : t.log = s.log ++ es) (hes : Quiet i es) : Phase cfg t i := by
  have hlen : ∀ {n}, n ≤ s.log.length → n ≤ t.log.length := by
    intro n hn
    rw [hlog, List.length_append]
    omega
  cases h with
  | idle hpc' hstate' hsent' hdown' =>
    exact .idle (hpc.trans hpc') (hstate hstate') (hsent.trans hsent') (by rw [hdown, hreplied, hdown'])
  | sending hpc' huid hline hrest hsent' hdown' hstarted =>
    exact .sending (hpc.trans hpc') huid hline hrest (hsent ▸ hsent') (by rw [hdown, hreplied, hdown'])
      (hlen hstarted)
  | receiving hpc' huid hline hsent' hdown' hstarted hbefore =>
    refine .receiving (hpc.trans hpc') huid hline (hsent.trans hsent') ?_ (hlen hstarted) ?_
    · rw [hdown, hreplied, ← List.append_assoc, hdown']
    · rwa [hlog, List.take_append_of_le_length hstarted]
  | notSent hpc' hmaybe hsent' => exact .notSent (hpc.trans hpc') hmaybe (hsent ▸ hsent')
  | gaveUp hpc' hmaybe huid hline hsent' => exact .gaveUp (hpc.trans hpc') hmaybe huid hline (hsent.trans hsent')
  | answered hpc' honly hstarted hfinished htold =>
    exact .answered (hpc.trans hpc') (hlog ▸ honly.append hes) hstarted hfinished htold

theorem Progress.mono (h : Progress cfg s i) (hlink : t.link i = s.link i) (hdaemon : t.daemon.at ≠ some i)
    {es : List (Event ι F)} (hlog : t.log = s.log ++ es) (hes : Quiet i es) : Progress cfg t i := by
  have hserving : ∀ conn, t.daemon ≠ .serving i conn := fun conn hd => hdaemon (by rw [hd]; rfl)
  have hreplying : ∀ conn rest carryOn, t.daemon ≠ .replying i conn rest carryOn :=
    fun conn rest carryOn hd => hdaemon (by rw [hd]; rfl)
  cases h with
  | pending hquiet hreplied hread hwrite hqueued =>
    refine .pending (hlog ▸ hquiet.append hes) (hlink ▸ hreplied) (fun conn hd => absurd hd (hserving conn))
      hreplying fun hstate => ⟨hdaemon, ?_⟩
    rw [hlink] at hstate ⊢
    exact (hqueued hstate).2
  | taken honly hfree hsent hreplied hread hwrite hstate =>
    exact .taken (hlog ▸ honly.append hes) hfree (hlink ▸ hsent) (hlink ▸ hreplied)
      (fun conn hd => absurd hd (hserving conn)) (fun conn rest carryOn hd => absurd hd (hreplying _ _ _))
      (hlink ▸ hstate)

theorem Phase.of_idle (h : Phase cfg s i) (hpc : s.pc i = .idle) :
    (s.link i).state = .absent ∧ (s.link i).sent = [] ∧ (s.link i).down = (s.link i).replied := by
  cases h with
  | idle _ hstate hsent hdown => exact ⟨hstate, hsent, hdown⟩
  | sending hpc' | receiving hpc' | notSent hpc' | gaveUp hpc' | answered hpc' => simp [hpc] at hpc'

theorem Phase.of_sending (h : Phase cfg s i)
    {started : Nat} {rest : Bytes} (hpc : s.pc i = .sending started rest) :
    cfg.uid i = cfg.daemonUid ∧ rest ≠ [] ∧ (s.link i).down = (s.link i).replied ∧ started ≤ s.log.length ∧
      ∃ line, serialize cfg.json (cfg.token i) (cfg.op i) = .ok line ∧
        (s.link i).sent ++ rest = line ++ [newline] := by
  cases h with
  | sending hpc' huid hline hrest hsent hdown hstarted =>
    obtain ⟨rfl, rfl⟩ : started = _ ∧ rest = _ := by simpa [hpc] using hpc'
    exact ⟨huid, hrest, hdown, hstarted, _, hline, hsent⟩
  | idle hpc' | receiving hpc' | notSent hpc' | gaveUp hpc' | answered hpc' => simp [hpc] at hpc'

theorem Phase.of_receiving (h : Phase cfg s i) {started : Nat} {conn : Connection}
    (hpc : s.pc i = .receiving started conn) :
    cfg.uid i = cfg.daemonUid ∧ conn.buffer ++ (s.link i).down = (s.link i).replied ∧ started ≤ s.log.length ∧
      Quiet i (s.log.take started) ∧ ∃ line, serialize cfg.json (cfg.token i) (cfg.op i) = .ok line ∧
        (s.link i).sent = line ++ [newline] := by
  cases h with
  | receiving hpc' huid hline hsent hdown hstarted hbefore =>
    obtain ⟨rfl, rfl⟩ : started = _ ∧ conn = _ := by simpa [hpc] using hpc'
    exact ⟨huid, hdown, hstarted, hbefore, _, hline, hsent⟩
  | idle hpc' | sending hpc' | notSent hpc' | gaveUp hpc' | answered hpc' => simp [hpc] at hpc'

theorem Progress.quiet (h : Progress cfg s i) (hsent : newline ∉ (s.link i).sent) : Quiet i s.log := by
  cases h with
  | pending hquiet => exact hquiet
  | taken _ _ hsent' => exact absurd (by simp [hsent']) hsent

theorem serialize_notMem {json : Nlohmann} (hline : json.DumpsOneLine) {token line : Bytes} {op : Op}
    (h : serialize json token op = .ok line) : newline ∉ line :=
  hline _ _ (serialize_ok h)

theorem Phase.line_sent (h : Phase cfg s i) (hdump : cfg.json.DumpsOneLine) (hquiet : Quiet i s.log)
    (hmem : newline ∈ (s.link i).sent) :
    cfg.uid i = cfg.daemonUid ∧ (∃ line, newline ∉ line ∧ (s.link i).sent = line ++ [newline]) ∧
      ∀ t : System ι F, t.pc = s.pc → t.link = s.link → (∃ e, t.log = s.log ++ [e]) → Phase cfg t i := by
  cases h with
  | idle _ _ hsent => simp [hsent] at hmem
  | sending _ _ hline hrest hsent =>
    exact absurd hmem (notMem_of_append_eq hsent hrest (serialize_notMem hdump hline))
  | notSent _ _ hsent => exact absurd hmem hsent
  | answered _ honly => exact absurd hquiet honly.not_quiet
  | @receiving _ _ line hpc huid hline hsent hdown hstarted hbefore =>
    refine ⟨huid, ⟨line, serialize_notMem hdump hline, hsent⟩, ?_⟩
    rintro t htpc htlink ⟨e, htlog⟩
    refine .receiving (htpc ▸ hpc) huid hline (htlink ▸ hsent) (htlink ▸ hdown) ?_ ?_
    · rw [htlog, List.length_append]
      omega
    · rwa [htlog, List.take_append_of_le_length hstarted]
  | @gaveUp _ _ _ line hpc hmaybe huid hline hsent =>
    refine ⟨huid, ⟨line, serialize_notMem hdump hline, hsent⟩, ?_⟩
    rintro t htpc htlink -
    exact .gaveUp (htpc ▸ hpc) hmaybe huid hline (htlink ▸ hsent)

theorem Progress.accepted (h : Progress cfg s i) (hat : s.daemon.at = some i) : (s.link i).state = .accepted := by
  cases h with
  | pending _ _ _ _ hqueued =>
    by_contra hne
    exact (hqueued hne).1 hat
  | taken _ _ _ _ _ _ hstate => exact hstate

theorem Progress.of_queued (h : Progress cfg s i) (hstate : (s.link i).state = .queued) :
    Quiet i s.log ∧ (cfg.uid i = cfg.daemonUid → (s.link i).replied = []) ∧ (s.link i).up = (s.link i).sent := by
  cases h with
  | pending hquiet hreplied _ _ hqueued => exact ⟨hquiet, hreplied, (hqueued (by simp [hstate])).2⟩
  | taken _ _ _ _ _ _ hstate' => simp [hstate] at hstate'

theorem localRequest_error (e : Error) :
    ∃ err, localRequest (.error (.error e)) = .error err ∧ err.maybeApplied = false := by
  cases e with
  | runtimeError message =>
    simp only [localRequest]
    split_ifs
    all_goals exact ⟨_, rfl, rfl⟩
  | parseError | outOfRange | typeError => exact ⟨_, rfl, rfl⟩

theorem told_of_truthful {json : Nlohmann} {op : Op} {e : Event ι F} {r : Bytes}
    (h : Truthful json e.before e.after op r) : Told op e (localRequest (requestRaw json r)) := by
  rcases h.2 with ⟨reply, hreply, happlied⟩ | ⟨hsame, error, herror⟩
  · exact Or.inl ⟨reply, by rw [hreply]; rfl, happlied⟩
  · obtain ⟨err, htold, hmaybe⟩ := localRequest_error error
    exact Or.inr ⟨err, by rw [herror, htold], hmaybe, hsame⟩

/-- What a client reads is the reply to its own line. -/
theorem Consistent.reply (hparse : cfg.json.ParseUndoesDump) (hdump : cfg.json.DumpsOneLine)
    (hok : ∃ r, okResponse cfg.json = .ok r) (h : Consistent cfg s i)
    (hsound : ∀ e ∈ s.log, ∃ turn : Turn S,
      respond cfg.json cfg.expectedToken turn e.line e.before = (e.response, e.after))
    {started : Nat} {conn conn' : Connection} {line : Bytes} (hpc : s.pc i = .receiving started conn)
    (hpoll : conn.poll kMaxResponseBytes = .line line conn') :
    ∃ k e, OnlyEvent i s.log k e ∧ started ≤ k ∧ k < s.log.length ∧
      Told (cfg.op i) e (localRequest (requestRaw cfg.json line)) := by
  obtain ⟨huid, hdown, hstarted, hbefore, call, hcall, hsent⟩ := h.phase.of_receiving hpc
  obtain ⟨hcut, hfree⟩ := Connection.poll_line hpoll
  rw [hcut] at hdown
  cases h.progress with
  | pending _ hreplied => simp [hreplied huid] at hdown
  | @taken k e honly hfree' hsent' hreplied =>
    have hsame : e.line = call := (List.append_inj_left' (hsent'.symm.trans hsent) rfl)
    obtain ⟨turn, hrespond⟩ := hsound e honly.mem
    obtain ⟨r, hr, htruthful⟩ | ⟨⟨err, herr⟩, -⟩ := respond_call hparse hdump hok (hsame ▸ hcall) hrespond
    · obtain ⟨unread, hunread⟩ := hreplied
      have hwire : line ++ newline :: (conn'.buffer ++ (s.link i).down ++ unread) = r ++ newline :: [] := by
        rw [Event.wire, hr, ← hdown] at hunread
        simpa using hunread
      obtain ⟨rfl, -⟩ := Framing.cut_unique hfree htruthful.1 hwire
      exact ⟨k, e, honly, honly.le_of_quiet_take hbefore, honly.lt, told_of_truthful htruthful⟩
    · rw [Event.wire, herr, ← hdown] at hreplied
      simp at hreplied

theorem Phase.afterConnect (hpc : t.pc i = afterConnect cfg i t.log.length)
    (hsent : (t.link i).sent = []) (hdown : (t.link i).down = (t.link i).replied) : Phase cfg t i := by
  have hfree : newline ∉ (t.link i).sent := by simp [hsent]
  unfold Secretov.afterConnect at hpc
  split_ifs at hpc with huid
  · exact .notSent hpc rfl hfree
  · cases hserialize : serialize cfg.json (cfg.token i) (cfg.op i) with
    | error e =>
      obtain ⟨err, htold, hmaybe⟩ := localRequest_error e
      simp only [hserialize, htold] at hpc
      exact .notSent hpc hmaybe hfree
    | ok line =>
      simp only [hserialize] at hpc
      exact .sending hpc (not_not.mp huid) hserialize (by simp) (by rw [hsent, List.nil_append]) hdown le_rfl

theorem Phase.line_of_mem (h : Phase cfg s i) (hdump : cfg.json.DumpsOneLine) {line : Bytes}
    (hsent : (s.link i).sent = line ++ [newline]) :
    serialize cfg.json (cfg.token i) (cfg.op i) = .ok line ∨
      ∃ k e told, OnlyEvent i s.log k e ∧ Told (cfg.op i) e told := by
  have hmem : newline ∈ (s.link i).sent := by simp [hsent]
  cases h with
  | idle _ _ hsent' => simp [hsent'] at hmem
  | sending _ _ hline hrest hsent' =>
    exact absurd hmem (notMem_of_append_eq hsent' hrest (serialize_notMem hdump hline))
  | notSent _ _ hsent' => exact absurd hmem hsent'
  | answered _ honly _ _ htold => exact Or.inr ⟨_, _, _, honly, htold⟩
  | receiving _ _ hline hsent' | gaveUp _ _ _ hline hsent' =>
    have hsame := List.append_inj_left' (hsent.symm.trans hsent') rfl
    exact Or.inl (hsame ▸ hline)

/-- A line of a client is its call, applied or without effect, and there is one. -/
theorem Consistent.effect (hparse : cfg.json.ParseUndoesDump) (hdump : cfg.json.DumpsOneLine)
    (hok : ∃ r, okResponse cfg.json = .ok r) {w₀ : World F} (hc : Consistent cfg s i)
    (hs : History cfg.json cfg.expectedToken w₀ s.log s.world) {e : Event ι F} (hmem : e ∈ s.log)
    (he : e.client = i) :
    (∃ k, OnlyEvent i s.log k e) ∧
      ((∃ reply, Applied e.before e.after reply (cfg.op i)) ∨ e.after = e.before) := by
  cases hc.progress with
  | pending hquiet => exact absurd he (hquiet e hmem)
  | @taken k e' honly hfree hsent =>
    obtain rfl := honly.eq_of_mem hmem he
    refine ⟨⟨k, honly⟩, ?_⟩
    rcases hc.phase.line_of_mem hdump hsent with hline | ⟨k', e', told, honly', htold⟩
    · obtain ⟨turn, hrespond⟩ := hs.sound e hmem
      rcases respond_call hparse hdump hok hline hrespond with ⟨r, -, htruthful⟩ | ⟨-, hsame⟩
      · exact htruthful.2.imp (fun ⟨reply, _, happlied⟩ => ⟨reply, happlied⟩) fun ⟨hsame, _⟩ => hsame
      · exact Or.inr hsame
    · obtain rfl := honly'.eq_of_mem hmem he
      exact htold.imp (fun ⟨reply, _, happlied⟩ => ⟨reply, happlied⟩) fun ⟨_, _, _, hsame⟩ => hsame

theorem Consistent.process (h : Consistent cfg s i) (hdump : cfg.json.DumpsOneLine) {conn conn' : Connection}
    {line : Bytes} (hserving : s.daemon = .serving i conn) (hpoll : conn.poll kMaxRequestBytes = .line line conn')
    {e : Event ι F} (he : e.client = i) (heline : e.line = line) {carryOn : Bool} {w : World F} :
    Consistent cfg { s with
      daemon := afterRespond i conn' e.response carryOn
      world := w
      log := s.log ++ [e] } i := by
  obtain ⟨hcut, hfree⟩ := Connection.poll_line hpoll
  cases h.progress with
  | taken _ _ _ _ hread =>
    have hnone := hread conn hserving
    simp [hcut] at hnone
  | pending hquiet hreplied hread hwrite hqueued =>
    have hstream := hread conn hserving
    rw [hcut, List.append_assoc, List.cons_append] at hstream
    obtain ⟨huid, ⟨call, hcall, hsent⟩, hphase⟩ := h.phase.line_sent hdump hquiet (by simp [← hstream])
    obtain ⟨rfl, hrest⟩ := Framing.cut_unique hfree hcall (hstream.trans hsent)
    have haccepted : (s.link i).state = .accepted := by
      by_contra hne
      exact (hqueued hne).1 (by rw [hserving]; rfl)
    refine ⟨hphase _ rfl rfl ⟨e, rfl⟩, .taken (hquiet.onlyEvent he) (heline ▸ hfree) ?_ ?_ ?_ ?_ haccepted⟩
    · rw [heline, hsent]
    · simp [hreplied huid]
    · intro conn'' hd
      unfold afterRespond at hd
      split at hd
      all_goals simp at hd
    · intro conn'' rest c hd
      unfold afterRespond at hd
      split at hd
      · rename_i response hresponse
        simp only [DaemonPc.replying.injEq, true_and] at hd
        obtain ⟨rfl, rfl, -⟩ := hd
        exact ⟨hrest, by simp [hreplied huid, Event.wire, hresponse]⟩
      · cases hd

theorem consistent_start (w₀ : World F) : Consistent cfg (.start w₀) i :=
  ⟨.idle rfl rfl rfl rfl, .pending (by simp [Quiet, System.start]) (fun _ => rfl) (by simp [System.start])
    (by simp [System.start]) fun _ => ⟨by simp [System.start, DaemonPc.at], rfl⟩⟩

variable [DecidableEq ι]

theorem Progress.setClient (h : Progress cfg s i) (pc : ClientPc) {link : Link} (out : Bytes)
    (hsent : link.sent = (s.link i).sent ++ out) (hup : link.up = (s.link i).up ++ out)
    (hreplied : link.replied = (s.link i).replied)
    (hstate : link.state = .accepted ↔ (s.link i).state = .accepted)
    (hout : out = [] ∨ newline ∉ (s.link i).sent) : Progress cfg (s.setClient i pc link) i := by
  cases h with
  | pending hquiet hreplied' hread hwrite hqueued =>
    refine .pending hquiet ?_ (fun conn hd => ?_) hwrite ?_
    all_goals rw [System.setClient_link]
    · rwa [hreplied]
    · rw [hup, hsent, ← List.append_assoc, hread conn hd]
    · rw [hup, hsent]
      exact fun hs => (hqueued (mt hstate.mpr hs)).imp_right fun hsame => by rw [hsame]
  | taken honly hfree hsent' hreplied' hread hwrite hstate' =>
    have hnone : out = [] := hout.resolve_right fun hno => hno (by simp [hsent'])
    rw [hnone, List.append_nil] at hsent hup
    refine .taken honly hfree ?_ ?_ ?_ ?_ ?_
    all_goals rw [System.setClient_link]
    · rw [hsent, hsent']
    · rwa [hreplied]
    · rw [hup]
      exact hread
    · rw [hup, hreplied]
      exact hwrite
    · exact hstate.mpr hstate'

theorem ClientStep.consistent (hparse : cfg.json.ParseUndoesDump) (hdump : cfg.json.DumpsOneLine)
    (hok : ∃ r, okResponse cfg.json = .ok r) (h : ClientStep cfg s i t) (hc : Consistent cfg s i)
    (hsound : ∀ e ∈ s.log, ∃ turn : Turn S,
      respond cfg.json cfg.expectedToken turn e.line e.before = (e.response, e.after)) : Consistent cfg t i := by
  cases h with
  | notRunning hpc =>
    obtain ⟨hstate, hsent, hdown⟩ := hc.phase.of_idle hpc
    refine ⟨.notSent (System.setClient_pc ..) rfl (by simp [hsent]), ?_⟩
    apply hc.progress.setClient _ []
    all_goals simp
  | connect hpc =>
    obtain ⟨hstate, hsent, hdown⟩ := hc.phase.of_idle hpc
    refine ⟨.afterConnect (System.setClient_pc ..) (by simp [hsent]) (by simp [hdown]), ?_⟩
    apply hc.progress.setClient _ []
    all_goals simp [hstate]
  | connectThrows hpc what =>
    obtain ⟨hstate, hsent, hdown⟩ := hc.phase.of_idle hpc
    obtain ⟨err, htold, hmaybe⟩ := localRequest_error (.runtimeError what)
    refine ⟨.notSent (by rw [System.setClient_pc, htold]) hmaybe (by simp [hsent]), ?_⟩
    apply hc.progress.setClient _ []
    all_goals simp [hstate]
  | @send started rest hpc n =>
    obtain ⟨huid, hrest, hdown, hstarted, line, hline, hsent⟩ := hc.phase.of_sending hpc
    have hfree := notMem_of_append_eq hsent hrest (serialize_notMem hdump hline)
    have hquiet := hc.progress.quiet hfree
    refine ⟨?_, ?_⟩
    · by_cases hall : rest.drop n = []
      · have htake : rest.take n = rest := by
          simpa [hall] using List.take_append_drop n rest
        refine .receiving (by rw [System.setClient_pc, afterSend, if_pos hall]) huid hline
          (by simp [htake, hsent]) (by simp [Connection.fresh, hdown]) hstarted ?_
        exact fun e he => hquiet e (List.mem_of_mem_take he)
      · exact .sending (by rw [System.setClient_pc, afterSend, if_neg hall]) huid hline hall
          (by simp [hsent]) (by simp [hdown]) hstarted
    · apply hc.progress.setClient _ (rest.take n)
      all_goals simp [hfree]
  | @sendFails started rest hpc timedOut =>
    obtain ⟨huid, hrest, hdown, hstarted, line, hline, hsent⟩ := hc.phase.of_sending hpc
    have hfree := notMem_of_append_eq hsent hrest (serialize_notMem hdump hline)
    refine ⟨.notSent (System.setClient_pc ..) rfl (by simp [hfree]), ?_⟩
    apply hc.progress.setClient _ []
    all_goals simp
  | @receive started conn conn' hpc hpoll n =>
    obtain ⟨huid, hdown, hstarted, hbefore, line, hline, hsent⟩ := hc.phase.of_receiving hpc
    refine ⟨.receiving (System.setClient_pc ..) huid hline (by simp [hsent]) ?_ hstarted hbefore, ?_⟩
    · simp [Connection.poll_needRead hpoll, hdown]
    · apply hc.progress.setClient _ []
      all_goals simp
  | @reply started conn conn' line hpc hpoll =>
    obtain ⟨k, e, honly, hstarted, hfinished, htold⟩ := hc.reply hparse hdump hok hsound hpc hpoll
    refine ⟨.answered (System.setClient_pc ..) honly hstarted hfinished htold, ?_⟩
    apply hc.progress.setClient _ []
    all_goals simp
  | @noReply started conn hpc hpoll timedOut =>
    obtain ⟨huid, hdown, hstarted, hbefore, line, hline, hsent⟩ := hc.phase.of_receiving hpc
    refine ⟨.gaveUp (System.setClient_pc ..) rfl huid hline (by simp [hsent]), ?_⟩
    apply hc.progress.setClient _ []
    all_goals simp

theorem Phase.setDaemon (h : Phase cfg s i) (daemon : DaemonPc ι) {link : Link} (out : Bytes)
    (hsent : link.sent = (s.link i).sent) (hstate : (s.link i).state ≠ .absent)
    (hreplied : link.replied = (s.link i).replied ++ out) (hdown : link.down = (s.link i).down ++ out) :
    Phase cfg (s.setDaemon daemon i link) i := by
  refine @Phase.mono _ _ _ _ _ _ _ h rfl ?_ ?_ out ?_ ?_ [] (by simp [System.setDaemon]) (by simp [Quiet])
  all_goals rw [System.setDaemon_link]
  · exact hsent
  · exact fun hs => absurd hs hstate
  · exact hreplied
  · exact hdown

theorem DaemonStep.consistent (hdump : cfg.json.DumpsOneLine) (h : DaemonStep cfg s i t)
    (hc : Consistent cfg s i) : Consistent cfg t i := by
  cases h with
  | accept hwaiting hqueued huid =>
    refine ⟨hc.phase.setDaemon _ [] rfl (by simp [hqueued]) (by simp) (by simp), ?_⟩
    obtain ⟨hquiet, hreplied, hup⟩ := hc.progress.of_queued hqueued
    refine .pending hquiet (by simpa using hreplied) ?_ (by simp [System.setDaemon]) (by simp)
    rintro conn ⟨⟩
    simpa [Connection.fresh] using hup
  | @refuse hwaiting hqueued huid response hresponse n =>
    refine ⟨hc.phase.setDaemon _ _ rfl (by simp [hqueued]) rfl rfl, ?_⟩
    obtain ⟨hquiet, -, -⟩ := hc.progress.of_queued hqueued
    exact .pending hquiet (absurd · huid) (by simp [System.setDaemon]) (by simp [System.setDaemon]) (by simp)
  | @read conn conn' hserving hpoll n =>
    have hstate := hc.progress.accepted (by rw [hserving]; rfl)
    refine ⟨hc.phase.setDaemon _ [] rfl (by simp [hstate]) (by simp) (by simp), ?_⟩
    have hbuffer : ∀ {u}, conn.buffer ++ (s.link i).up = u →
        (conn'.append ((s.link i).up.take n)).buffer ++ (s.link i).up.drop n = u := by
      intro u hu
      simpa [Connection.poll_needRead hpoll] using hu
    cases hc.progress with
    | pending hquiet hreplied hread hwrite hqueued =>
      refine .pending hquiet (by simpa using hreplied) ?_ (by simp [System.setDaemon]) (by simp [hstate])
      rintro _ ⟨⟩
      simpa using hbuffer (hread conn hserving)
    | taken honly hfree hsent hreplied hread hwrite _ =>
      refine .taken honly hfree (by simpa using hsent) (by simpa using hreplied) ?_ (by simp [System.setDaemon])
        (by simp [hstate])
      rintro _ ⟨⟩
      rw [System.setDaemon_link]
      exact hbuffer (hread conn hserving)
  | @process conn conn' line hserving hpoll turn response w hrespond =>
    exact @Consistent.process _ _ _ _ _ _ hc hdump _ _ _ hserving hpoll
      ⟨i, line, s.world, response, w⟩ rfl rfl _ _
  | @write conn rest carryOn hreplying n =>
    have hstate := hc.progress.accepted (by rw [hreplying]; rfl)
    refine ⟨hc.phase.setDaemon _ _ rfl (by simp [hstate]) rfl rfl, ?_⟩
    cases hc.progress with
    | pending _ _ _ hwrite _ => exact absurd hreplying (hwrite _ _ _)
    | @taken k e honly hfree hsent hreplied hread hwrite _ =>
      obtain ⟨hempty, hwire⟩ := hwrite _ _ _ hreplying
      have hwire' : (s.link i).replied ++ rest.take n ++ rest.drop n = e.wire := by
        rw [List.append_assoc, List.take_append_drop, hwire]
      refine .taken honly hfree (by simpa using hsent) (by simpa using ⟨_, hwire'⟩) ?_ ?_ (by simp [hstate])
      · intro conn' hd
        simp only [System.setDaemon, afterWrite] at hd
        split_ifs at hd
        cases hd
        simpa using hempty
      · intro conn' rest' c hd
        simp only [System.setDaemon, afterWrite] at hd
        split_ifs at hd
        cases hd
        rw [System.setDaemon_link]
        exact ⟨hempty, hwire'⟩
  | @writeFails conn rest carryOn hreplying =>
    have hstate := hc.progress.accepted (by rw [hreplying]; rfl)
    refine ⟨hc.phase.setDaemon _ [] rfl (by simp [hstate]) (by simp) (by simp), ?_⟩
    cases hc.progress with
    | pending _ _ _ hwrite _ => exact absurd hreplying (hwrite _ _ _)
    | taken honly hfree hsent hreplied hread hwrite _ =>
      obtain ⟨hempty, -⟩ := hwrite _ _ _ hreplying
      refine .taken honly hfree (by simpa using hsent) (by simpa using hreplied) ?_ ?_ (by simp [hstate])
      · intro conn' hd
        simp only [System.setDaemon] at hd
        split_ifs at hd
        cases hd
        simpa using hempty
      · intro conn' rest' c hd
        simp only [System.setDaemon] at hd
        split_ifs at hd
  | @hangUp conn hserving hpoll =>
    have hstate := hc.progress.accepted (by rw [hserving]; rfl)
    refine ⟨hc.phase.setDaemon _ [] rfl (by simp [hstate]) (by simp) (by simp), ?_⟩
    cases hc.progress with
    | pending hquiet hreplied hread hwrite hqueued =>
      exact .pending hquiet (by simpa using hreplied) (by simp [System.setDaemon]) (by simp [System.setDaemon])
        (by simp [hstate])
    | taken honly hfree hsent hreplied hread hwrite _ =>
      exact .taken honly hfree (by simpa using hsent) (by simpa using hreplied) (by simp [System.setDaemon])
        (by simp [System.setDaemon]) (by simp [hstate])

theorem Consistent.setClient_of_ne (h : Consistent cfg s i) {j : ι} (hne : i ≠ j) (pc : ClientPc) (link : Link) :
    Consistent cfg (s.setClient j pc link) i := by
  have hlink : (s.setClient j pc link).link i = s.link i := System.setClient_link_of_ne _ _ _ _ hne
  refine ⟨@Phase.mono _ _ _ _ _ _ _ h.phase (System.setClient_pc_of_ne _ _ _ _ hne) (by rw [hlink])
    (by rw [hlink]; exact id) [] (by simp [hlink]) (by simp [hlink]) [] (by simp [System.setClient])
    (by simp [Quiet]), ?_⟩
  cases h.progress with
  | pending hquiet hreplied hread hwrite hqueued =>
    exact .pending hquiet (hlink ▸ hreplied) (hlink ▸ hread) hwrite (hlink ▸ hqueued)
  | taken honly hfree hsent hreplied hread hwrite hstate =>
    exact .taken honly hfree (hlink ▸ hsent) (hlink ▸ hreplied) (hlink ▸ hread) (hlink ▸ hwrite) (hlink ▸ hstate)

theorem ClientStep.eq_setClient (h : ClientStep cfg s i t) : ∃ pc link, t = s.setClient i pc link := by
  cases h with
  | notRunning | connect | connectThrows | send | sendFails | receive | reply | noReply => exact ⟨_, _, rfl⟩

theorem DaemonStep.others {j : ι} (h : DaemonStep cfg s j t) (hne : i ≠ j) :
    t.pc = s.pc ∧ t.link i = s.link i ∧ t.daemon.at ≠ some i ∧ ∃ es, t.log = s.log ++ es ∧ Quiet i es := by
  have hj : some j ≠ some i := fun heq => hne (Option.some.inj heq).symm
  have hsame : ∀ {d link}, d.at = none ∨ d.at = some j → (s.setDaemon d j link).pc = s.pc ∧
      (s.setDaemon d j link).link i = s.link i ∧ (s.setDaemon d j link).daemon.at ≠ some i ∧
      ∃ es, (s.setDaemon d j link).log = s.log ++ es ∧ Quiet i es := by
    intro d link hd
    refine ⟨rfl, System.setDaemon_link_of_ne _ _ _ _ hne, ?_, [], by simp [System.setDaemon], by simp [Quiet]⟩
    show d.at ≠ some i
    rcases hd with hd | hd
    · simp [hd]
    · rw [hd]
      exact hj
  cases h with
  | accept | read => exact hsame (Or.inr rfl)
  | refuse | hangUp => exact hsame (Or.inl rfl)
  | write =>
    apply hsame
    unfold afterWrite
    split_ifs
    all_goals exact Or.inr rfl
  | writeFails =>
    apply hsame
    split_ifs
    · exact Or.inr rfl
    · exact Or.inl rfl
  | process hserving hpoll turn hrespond =>
    refine ⟨rfl, rfl, ?_, _, rfl, quiet_singleton (Ne.symm hne)⟩
    simp only [afterRespond]
    split
    · exact hj
    · simp [DaemonPc.at]

theorem Step.history {w₀ : World F} (h : Step cfg s t)
    (hs : History cfg.json cfg.expectedToken w₀ s.log s.world) :
    History cfg.json cfg.expectedToken w₀ t.log t.world := by
  obtain ⟨i, h | h⟩ := h
  · obtain ⟨pc, link, rfl⟩ := h.eq_setClient
    exact hs
  · cases h with
    | process hserving hpoll turn hrespond =>
      exact @History.event _ _ _ _ _ _ s.log ⟨_, _, s.world, _, _⟩ _ hs hrespond
    | accept | refuse | read | write | writeFails | hangUp => exact hs

theorem Step.consistent (hparse : cfg.json.ParseUndoesDump) (hdump : cfg.json.DumpsOneLine)
    (hok : ∃ r, okResponse cfg.json = .ok r) {w₀ : World F} (h : Step cfg s t)
    (hs : History cfg.json cfg.expectedToken w₀ s.log s.world) (hc : Consistent cfg s i) :
    Consistent cfg t i := by
  obtain ⟨j, h | h⟩ := h
  · by_cases hij : i = j
    · subst hij
      exact h.consistent hparse hdump hok hc hs.sound
    · obtain ⟨pc, link, rfl⟩ := h.eq_setClient
      exact hc.setClient_of_ne hij pc link
  · by_cases hij : i = j
    · subst hij
      exact h.consistent hdump hc
    · obtain ⟨hpc, hlink, hat, es, hlog, hes⟩ := h.others hij
      exact ⟨@Phase.mono _ _ _ _ _ _ _ hc.phase (by rw [hpc]) (by rw [hlink]) (by rw [hlink]; exact id) []
        (by simp [hlink]) (by simp [hlink]) es hlog hes, hc.progress.mono hlink hat hlog hes⟩

theorem Reachable.consistent (hparse : cfg.json.ParseUndoesDump) (hdump : cfg.json.DumpsOneLine)
    (hok : ∃ r, okResponse cfg.json = .ok r) {w₀ : World F} (h : Reachable cfg (.start w₀) s) :
    History cfg.json cfg.expectedToken w₀ s.log s.world ∧ ∀ i, Consistent cfg s i := by
  induction h with
  | refl => exact ⟨.start, fun i => consistent_start w₀⟩
  | tail _ hstep ih => exact ⟨hstep.history ih.1, fun i => hstep.consistent hparse hdump hok ih.1 (ih.2 i)⟩

/-- A call that has ended stays as it is. -/
theorem Reachable.done (h : Reachable cfg s t) {started finished : Nat} {told : Except LocalError Json}
    (hpc : s.pc i = .done started finished told) : t.pc i = .done started finished told := by
  induction h with
  | refl => exact hpc
  | @tail t u _ hstep ih =>
    obtain ⟨j, h | h⟩ := hstep
    · by_cases hij : i = j
      · subst hij
        cases h with
        | notRunning hpc' | connect hpc' | connectThrows hpc' | send hpc' | sendFails hpc' | receive hpc'
        | reply hpc' | noReply hpc' => simp [ih] at hpc'
      · obtain ⟨pc, link, rfl⟩ := h.eq_setClient
        rwa [System.setClient_pc_of_ne _ _ _ _ hij]
    · cases h with
      | accept | refuse | read | process | write | writeFails | hangUp => exact ih

/-- What a call comes to in the log, if its caller has been told `told`. -/
def Honest (op : Op) (i : ι) (log : List (Event ι F)) (started finished : Nat) : Except LocalError Json → Prop
  | .ok reply => ∃ k e, OnlyEvent i log k e ∧ started ≤ k ∧ k < finished ∧ Applied e.before e.after reply op
  | .error err =>
    if err.maybeApplied then Quiet i log ∨ ∃ k e, OnlyEvent i log k e
    else ∀ e ∈ log, e.client = i → e.after = e.before

/-- In every interleaving the log is one run of the daemon, in which each line is
a call that is applied or has no effect, and the caller is told which. -/
theorem told_is_what_happened (hparse : cfg.json.ParseUndoesDump) (hdump : cfg.json.DumpsOneLine)
    (hok : ∃ r, okResponse cfg.json = .ok r) {w₀ : World F} (hs : Reachable cfg (.start w₀) s)
    {started finished : Nat} {told : Except LocalError Json} (hpc : s.pc i = .done started finished told)
    (ht : Reachable cfg s t) :
    History cfg.json cfg.expectedToken w₀ t.log t.world ∧
      (∀ e ∈ t.log, e.client = i →
        (∃ reply, Applied e.before e.after reply (cfg.op i)) ∨ e.after = e.before) ∧
      Honest (cfg.op i) i t.log started finished told := by
  obtain ⟨hhistory, hall⟩ := Reachable.consistent hparse hdump hok (hs.trans ht)
  have hpc := Reachable.done ht hpc
  have hc := hall i
  refine ⟨hhistory, fun e hmem he => (hc.effect hparse hdump hok hhistory hmem he).2, ?_⟩
  cases hc.phase with
  | idle hpc' | sending hpc' | receiving hpc' => simp [hpc] at hpc'
  | @notSent _ _ err hpc' hmaybe hsent =>
    obtain ⟨rfl, rfl, rfl⟩ : started = _ ∧ finished = _ ∧ told = .error err := by simpa [hpc] using hpc'
    rw [Honest, hmaybe]
    exact fun e hmem he => absurd he (hc.progress.quiet hsent e hmem)
  | @gaveUp _ _ err line hpc' hmaybe =>
    obtain ⟨rfl, rfl, rfl⟩ : started = _ ∧ finished = _ ∧ told = .error err := by simpa [hpc] using hpc'
    rw [Honest, hmaybe]
    cases hc.progress with
    | pending hquiet => exact Or.inl hquiet
    | taken honly => exact Or.inr ⟨_, _, honly⟩
  | @answered _ _ k told' e hpc' honly hstarted hfinished htold =>
    obtain ⟨rfl, rfl, rfl⟩ : started = _ ∧ finished = _ ∧ told = told' := by simpa [hpc] using hpc'
    rcases htold with ⟨reply, rfl, happlied⟩ | ⟨err, rfl, hmaybe, hsame⟩
    · exact ⟨k, e, honly, hstarted, hfinished, happlied⟩
    · rw [Honest, hmaybe]
      intro e' hmem he'
      rw [honly.eq_of_mem hmem he', hsame]

end

theorem Connection.poll_eq_line {maxLineBytes : Nat} {conn : Connection} {line rest : Bytes}
    (h : conn.buffer = line ++ newline :: rest) (hfree : newline ∉ line) :
    ∃ conn', conn.poll maxLineBytes = .line line conn' ∧ conn'.buffer = rest := by
  cases hpoll : conn.poll maxLineBytes with
  | line line' conn' =>
    obtain ⟨hcut, hfree'⟩ := Connection.poll_line hpoll
    obtain ⟨rfl, rfl⟩ := Framing.cut_unique hfree hfree' (h.symm.trans hcut)
    exact ⟨conn', rfl, rfl⟩
  | tooLong conn' | needRead conn' =>
    unfold poll at hpoll
    split at hpoll
    · cases hpoll
    · rename_i hnone
      exact absurd (by simp [h]) (notMem_of_findNewline hnone)

theorem Connection.poll_ne_line {maxLineBytes : Nat} {conn : Connection} (h : conn.buffer = []) (line : Bytes)
    (conn' : Connection) : conn.poll maxLineBytes ≠ .line line conn' := by
  intro hpoll
  obtain ⟨hcut, -⟩ := Connection.poll_line hpoll
  rw [h] at hcut
  exact List.append_ne_nil_of_right_ne_nil line (List.cons_ne_nil _ _) hcut.symm

section

variable {ι : Type} {S : Sodium} {F : Format S} {cfg : Setup ι} {i : ι} [DecidableEq ι] {s : System ι F}

theorem Step.connected {line : Bytes} (hpc : s.pc i = .idle) (huid : cfg.uid i = cfg.daemonUid)
    (hline : serialize cfg.json (cfg.token i) (cfg.op i) = .ok line) :
    Step cfg s (s.setClient i (.sending s.log.length (line ++ [newline]))
    { s.link i with state := .queued }) := by
  have hsend : afterConnect cfg i s.log.length = .sending s.log.length (line ++ [newline]) := by
    simp [afterConnect, huid, hline]
  rw [← hsend]
  exact ⟨i, .inl (.connect hpc)⟩

theorem Step.sent {started : Nat} {wire : Bytes} (hpc : s.pc i = .sending started wire) :
    Step cfg s (s.setClient i (.receiving started .fresh)
      { s.link i with sent := (s.link i).sent ++ wire, up := (s.link i).up ++ wire }) := by
  have h := @ClientStep.send _ _ _ _ cfg s i _ _ hpc wire.length
  rw [List.drop_length, List.take_length, afterSend, if_pos rfl] at h
  exact ⟨i, .inl h⟩

/-- A daemon that is free answers a request that has been sent, and hangs up. -/
theorem reachable_served {w : World F} {line r : Bytes} {turn : Turn S} (huid : cfg.uid i = cfg.daemonUid)
    (hdaemon : s.daemon = .waiting) (hlink : s.link i = ⟨.queued, line ++ [newline], line ++ [newline], [], []⟩)
    (hrespond : respond cfg.json cfg.expectedToken turn line s.world = (.ok r, w)) (hfree : newline ∉ line) :
    ∃ t, Reachable cfg s t ∧ t.pc = s.pc ∧ (t.link i).down = r ++ [newline] ∧ (∀ j ≠ i, t.link j = s.link j) ∧
      t.daemon = .waiting ∧ t.world = w ∧ t.log.length = s.log.length + 1 := by
  obtain ⟨fresh, hfresh⟩ : ∃ conn, Connection.fresh.poll kMaxRequestBytes = .needRead conn := ⟨_, rfl⟩
  have hempty : fresh.buffer = [] := Connection.poll_needRead hfresh
  obtain ⟨asked, hasked, hrest⟩ := @Connection.poll_eq_line kMaxRequestBytes (fresh.append (line ++ [newline]))
    line []
    (by simp [hempty]) hfree
  have haccept := @DaemonStep.accept _ _ _ _ cfg s i hdaemon (by rw [hlink]) huid
  have hread := @DaemonStep.read _ _ _ _ cfg
    (s.setDaemon (.serving i .fresh) i { s.link i with state := .accepted }) i _ _ rfl hfresh
    (line ++ [newline]).length
  obtain ⟨t, hs, hpc, hlinks, hother, hdaemon, hworld, hlog⟩ : ∃ t, Reachable cfg s t ∧ t.pc = s.pc ∧
      t.link i = ⟨.accepted, line ++ [newline], [], [], []⟩ ∧ (∀ j ≠ i, t.link j = s.link j) ∧
      t.daemon = .serving i (fresh.append (line ++ [newline])) ∧ t.world = s.world ∧ t.log = s.log := by
    refine ⟨_, (Relation.ReflTransGen.single ⟨i, .inr haccept⟩).tail ⟨i, .inr hread⟩, rfl, ?_, fun j hj => ?_, ?_,
      rfl, rfl⟩
    · simp [hlink]
    · rw [System.setDaemon_link_of_ne _ _ _ _ hj, System.setDaemon_link_of_ne _ _ _ _ hj]
    · simp [System.setDaemon, hlink, List.take_of_length_le]
  have hprocess := @DaemonStep.process _ _ _ _ cfg t i _ _ line hdaemon hasked turn _ _ (hworld ▸ hrespond)
  have hwrite := @DaemonStep.write _ _ _ _ cfg { t with
    daemon := afterRespond i asked (.ok r) (ignoresWrite cfg.json line)
    world := w
    log := t.log ++ [⟨i, line, t.world, .ok r, w⟩] } i asked _ _ rfl (r ++ [newline]).length
  obtain ⟨u, ht, hpc', hdown, hother', hdaemon, hworld, hlog'⟩ : ∃ u, Reachable cfg s u ∧ u.pc = s.pc ∧
      (u.link i).down = r ++ [newline] ∧ (∀ j ≠ i, u.link j = s.link j) ∧ u.daemon = .serving i asked ∧
      u.world = w ∧ u.log.length = s.log.length + 1 := by
    refine ⟨_, (hs.tail ⟨i, .inr hprocess⟩).tail ⟨i, .inr hwrite⟩, hpc, ?_, fun j hj => ?_, ?_, rfl, ?_⟩
    · simp [hlinks]
    · rw [System.setDaemon_link_of_ne _ _ _ _ hj, hother j hj]
    · simp [System.setDaemon, afterWrite]
    · simp [System.setDaemon, hlog]
  have hhangUp := @DaemonStep.hangUp _ _ _ _ cfg u i _ hdaemon (Connection.poll_ne_line hrest)
  refine ⟨_, ht.tail ⟨i, .inr hhangUp⟩, hpc', ?_, fun j hj => ?_, rfl, hworld, hlog'⟩
  · simp [hdown]
  · rw [System.setDaemon_link_of_ne _ _ _ _ hj, hother' j hj]

/-- A client that waits is told what the daemon has written. -/
theorem reachable_told {started : Nat} {r : Bytes} (hpc : s.pc i = .receiving started .fresh)
    (hdown : (s.link i).down = r ++ [newline]) (hfree : newline ∉ r) :
    ∃ t, Reachable cfg s t ∧ t.pc i = .done started s.log.length (localRequest (requestRaw cfg.json r)) ∧
      ∀ j ≠ i, t.pc j = s.pc j := by
  obtain ⟨fresh, hfresh⟩ : ∃ conn, Connection.fresh.poll kMaxResponseBytes = .needRead conn := ⟨_, rfl⟩
  have hempty : fresh.buffer = [] := Connection.poll_needRead hfresh
  obtain ⟨told, htold, -⟩ := @Connection.poll_eq_line kMaxResponseBytes (fresh.append (r ++ [newline])) r []
    (by simp [hempty]) hfree
  obtain ⟨t, hs, hpc, hother, hlog⟩ : ∃ t, Reachable cfg s t ∧
      t.pc i = .receiving started (fresh.append (r ++ [newline])) ∧ (∀ j ≠ i, t.pc j = s.pc j) ∧
      t.log = s.log := by
    refine ⟨_, .single ⟨i, .inl (.receive hpc hfresh (r ++ [newline]).length)⟩, ?_, fun j hj => ?_, rfl⟩
    · simp [hdown, List.take_of_length_le]
    · exact System.setClient_pc_of_ne _ _ _ _ hj
  refine ⟨_, hs.tail ⟨i, .inl (.reply hpc htold)⟩, ?_, fun j hj => ?_⟩
  · rw [System.setClient_pc, hlog]
  · rw [System.setClient_pc_of_ne _ _ _ _ hj, hother j hj]

/-- Two calls at once. The first one connects. The second one does, its request is handled, and
it gives up before it has read the reply. Then the request of the first one is handled, and it
is told of it. -/
theorem reachable_overlapping {first second : ι} (hne : first ≠ second) (huid : ∀ i, cfg.uid i = cfg.daemonUid)
    {w₀ w w' : World F} {line line' r r' : Bytes} {turn turn' : Turn S}
    (hline : serialize cfg.json (cfg.token first) (cfg.op first) = .ok line)
    (hline' : serialize cfg.json (cfg.token second) (cfg.op second) = .ok line')
    (hrespond' : respond cfg.json cfg.expectedToken turn' line' w₀ = (.ok r', w'))
    (hrespond : respond cfg.json cfg.expectedToken turn line w' = (.ok r, w))
    (hfree : newline ∉ line) (hfree' : newline ∉ line') (hreply : newline ∉ r) :
    ∃ s : System ι F, Reachable cfg (.start w₀) s ∧
      s.pc first = .done 0 2 (localRequest (requestRaw cfg.json r)) ∧
      s.pc second = .done 0 1 (localRequest (.error (replyMissing (cfg.op second).name true))) := by
  obtain ⟨s, hs, hpc, hpc', hlink, hlink', hdaemon, hworld, hlog⟩ :
      ∃ s : System ι F, Reachable cfg (.start w₀) s ∧
      s.pc first = .sending 0 (line ++ [newline]) ∧ s.pc second = .idle ∧
      s.link first = ⟨.queued, [], [], [], []⟩ ∧ s.link second = ⟨.absent, [], [], [], []⟩ ∧
      s.daemon = .waiting ∧ s.world = w₀ ∧ s.log.length = 0 := by
    refine ⟨_, .single (Step.connected rfl (huid first) hline), ?_, ?_, ?_, ?_, rfl, rfl, rfl⟩
    · exact System.setClient_pc ..
    · exact System.setClient_pc_of_ne _ _ _ _ hne.symm
    · exact System.setClient_link ..
    · exact System.setClient_link_of_ne _ _ _ _ hne.symm
  obtain ⟨s, hs, hpc, hpc', hlink, hlink', hdaemon, hworld, hlog⟩ :
      ∃ s : System ι F, Reachable cfg (.start w₀) s ∧
      s.pc first = .sending 0 (line ++ [newline]) ∧ s.pc second = .receiving 0 .fresh ∧
      s.link first = ⟨.queued, [], [], [], []⟩ ∧
      s.link second = ⟨.queued, line' ++ [newline], line' ++ [newline], [], []⟩ ∧
      s.daemon = .waiting ∧ s.world = w₀ ∧ s.log.length = 0 := by
    have hconnected := hs.tail (Step.connected hpc' (huid second) hline')
    refine ⟨_, hconnected.tail (Step.sent (System.setClient_pc ..)), ?_, ?_, ?_, ?_, hdaemon, hworld, hlog⟩
    · rw [System.setClient_pc_of_ne _ _ _ _ hne, System.setClient_pc_of_ne _ _ _ _ hne, hpc]
    · rw [System.setClient_pc, hlog]
    · rw [System.setClient_link_of_ne _ _ _ _ hne, System.setClient_link_of_ne _ _ _ _ hne, hlink]
    · simp [hlink']
  obtain ⟨s', hs', hpcs, -, hlinks, hdaemon, hworld', hlog'⟩ :=
    reachable_served (huid second) hdaemon hlink' (hworld.symm ▸ hrespond') hfree'
  rw [hlog] at hlog'
  obtain ⟨s, hs, hpc, hpc', hlink, hdaemon, hworld, hlog⟩ : ∃ s : System ι F, Reachable cfg (.start w₀) s ∧
      s.pc first = .receiving 0 .fresh ∧
      s.pc second = .done 0 1 (localRequest (.error (replyMissing (cfg.op second).name true))) ∧
      s.link first = ⟨.queued, line ++ [newline], line ++ [newline], [], []⟩ ∧
      s.daemon = .waiting ∧ s.world = w' ∧ s.log.length = 1 := by
    have hwaiting : s'.pc second = .receiving 0 .fresh := by rw [hpcs, hpc']
    have hgivesUp := (hs.trans hs').tail ⟨second, .inl (.noReply hwaiting (Connection.poll_ne_line rfl) true)⟩
    have hsending : s'.pc first = .sending 0 (line ++ [newline]) := by rw [hpcs, hpc]
    refine ⟨_, hgivesUp.tail (Step.sent ((System.setClient_pc_of_ne _ _ _ _ hne).trans hsending)), ?_, ?_, ?_,
      hdaemon, hworld', hlog'⟩
    · exact System.setClient_pc ..
    · rw [System.setClient_pc_of_ne _ _ _ _ hne.symm, System.setClient_pc, hlog']
    · rw [System.setClient_link, System.setClient_link_of_ne _ _ _ _ hne, hlinks first hne, hlink]
      rfl
  obtain ⟨t, ht, hpct, hdown, -, -, -, hlogt⟩ :=
    reachable_served (huid first) hdaemon hlink (hworld.symm ▸ hrespond) hfree
  obtain ⟨u, hu, hpcu, hother⟩ := @reachable_told _ _ _ cfg _ _ _ _ _ ((congrFun hpct first).trans hpc)
    hdown hreply
  rw [hlogt, hlog] at hpcu
  exact ⟨u, (hs.trans ht).trans hu, hpcu, by rw [hother second hne.symm, hpct, hpc']⟩

end

def settingTable : List (Bytes × FlatFields) :=
  [(braced "\"c\":\"d\"", [(text "c", .inl (text "d"))]),
    (braced "\"a\":\"b\",\"c\":\"d\"", [(text "a", .inl (text "b")), (text "c", .inl (text "d"))]),
    (braced "\"ok\":true", [(text "ok", .inr true)]),
    (braced "\"key\":\"a\",\"op\":\"set\",\"token\":\"t\",\"value\":\"b\"",
      [(text "key", .inl (text "a")), (text "op", .inl (text "set")), (text "token", .inl (text "t")),
        (text "value", .inl (text "b"))]),
    (braced "\"key\":\"c\",\"op\":\"set\",\"token\":\"t\",\"value\":\"d\"",
      [(text "key", .inl (text "c")), (text "op", .inl (text "set")), (text "token", .inl (text "t")),
        (text "value", .inl (text "d"))])]

def firstLine : Bytes := braced "\"key\":\"a\",\"op\":\"set\",\"token\":\"t\",\"value\":\"b\""

def secondLine : Bytes := braced "\"key\":\"c\",\"op\":\"set\",\"token\":\"t\",\"value\":\"d\""

/-- Two sets at once. -/
def settingCalls : Setup Bool where
  json := tableJson settingTable
  socketPath := text "sock"
  daemonUid := 1000
  expectedToken := text "t"
  uid _ := 1000
  token _ := text "t"
  op first := if first then .set (text "a") (text "b") else .set (text "c") (text "d")

/-- The caller of the first set is told that it has been done, that of the second one has given up. -/
theorem told_is_what_happened_sample : ∃ (s : System Bool (storeFormat taggedBoxes))
    (reply : Json) (err : LocalError), s.pc true = .done 0 2 (.ok reply) ∧
    (∃ k e, OnlyEvent true s.log k e ∧ 0 ≤ k ∧ k < 2 ∧
      e.after.store.data = e.before.store.data.insert (text "a") (.string (text "b"))) ∧
    s.pc false = .done 0 1 (.error err) ∧ err.maybeApplied = true ∧
    (Quiet false s.log ∨ ∃ k e, OnlyEvent false s.log k e) := by
  have hparse : settingCalls.json.ParseUndoesDump := tableJson_parseUndoesDump _
  have hdump : settingCalls.json.DumpsOneLine := tableJson_dumpsOneLine (by decide)
  have hfirst : serialize settingCalls.json (text "t") (.set (text "a") (text "b")) = .ok firstLine := by decide
  have hsecond : serialize settingCalls.json (text "t") (.set (text "c") (text "d")) = .ok secondLine := by decide
  have hrespond' : (respond settingCalls.json (text "t") sampleTurn secondLine sampleStart).1 =
      .ok (braced "\"ok\":true") := by decide
  have hrespond : (respond settingCalls.json (text "t") sampleTurn firstLine
      (respond settingCalls.json (text "t") sampleTurn secondLine sampleStart).2).1 =
      .ok (braced "\"ok\":true") := by
    decide +kernel
  have hreply : requestRaw settingCalls.json (braced "\"ok\":true") =
      .ok (.object [(text "ok", .boolean true)]) := rfl
  obtain ⟨s, hs, htold, hgaveUp⟩ := @reachable_overlapping _ _ _ settingCalls _ true false (by decide)
    (fun _ => rfl) _ _ _ _ _ _ _ _ _ hfirst hsecond (Prod.ext hrespond' rfl) (Prod.ext hrespond rfl)
    (by decide) (by decide) (by decide)
  rw [hreply] at htold
  have hdone := (told_is_what_happened hparse hdump ⟨_, rfl⟩ hs htold .refl).2.2
  have hlost := (told_is_what_happened hparse hdump ⟨_, rfl⟩ hs hgaveUp .refl).2.2
  exact ⟨s, _, _, htold, hdone, hgaveUp, rfl, hlost⟩

end Secretov
