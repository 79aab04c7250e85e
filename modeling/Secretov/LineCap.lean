import Secretov.LineDelivery

/-! The cap of `read_line`: whether a longer line is refused depends on where the
reads pause. -/

namespace Secretov

/-- The lines of a stream up to the first that is longer than the cap; nullopt from
there on. -/
def capped (maxLineBytes : Nat) : Nat → Bytes → List (Option Bytes)
  | 0, _ => []
  | calls + 1, stream =>
    match stream.findIdx? (· == newline) with
    | none => none :: capped maxLineBytes calls stream
    | some pos =>
      if pos ≤ maxLineBytes then some (stream.take pos) :: capped maxLineBytes calls (stream.drop (pos + 1))
      else none :: capped maxLineBytes calls stream

/-- How much has been received, now and after each read. -/
def pauses (n : Nat) : List ReadResult → List Nat
  | [] => [n]
  | r :: reads => n :: pauses (n + (received [r]).length) reads

/-- The reads are data to the end of the stream. -/
def Flows (reads : List ReadResult) : Prop := ∀ r ∈ reads, r.stops = false

theorem le_of_mem_pauses {n b : Nat} {reads : List ReadResult} (h : b ∈ pauses n reads) : n ≤ b := by
  induction reads generalizing n with
  | nil => exact (List.mem_singleton.mp h).ge
  | cons r reads ih =>
    obtain rfl | h := List.mem_cons.mp h
    · exact Nat.le_refl _
    · have hle := ih h
      omega

theorem add_mem_pauses {n b d : Nat} {reads : List ReadResult} : b + d ∈ pauses (n + d) reads ↔
    b ∈ pauses n reads := by
  induction reads generalizing n with
  | nil => simp [pauses]
  | cons r reads ih =>
    have hshift : n + d + (received [r]).length = n + (received [r]).length + d := by omega
    rw [pauses, pauses, List.mem_cons, List.mem_cons, hshift, ih]
    exact or_congr_left (by omega)

section

variable {maxLineBytes : Nat} {conn conn' : Connection} {reads reads' : List ReadResult} {line rest : Bytes}

theorem Flows.cons {r : ReadResult} (h : Flows (r :: reads)) : r.stops = false ∧ Flows reads :=
  List.forall_mem_cons.mp h

/-- Until the newline is in the buffer, the buffer is a part of the line. -/
theorem buffer_le_line (hstream : conn.buffer ++ received reads = line ++ newline :: rest)
    (hbuffer : newline ∉ conn.buffer) : conn.buffer.length ≤ line.length := by
  by_contra hlt
  have hstarts : line ++ [newline] <+: conn.buffer := by
    have hrecord : line ++ [newline] <+: conn.buffer ++ received reads := by
      rw [hstream]
      simp
    apply List.prefix_of_prefix_length_le hrecord (List.prefix_append _ _)
    simp only [List.length_append, List.length_singleton]
    omega
  exact hbuffer (hstarts.subset (by simp))

theorem line_lt_buffer {pos : Nat} (hpos : conn.findNewline = some pos)
    (hstream : conn.buffer ++ received reads = line ++ newline :: rest) (hline : newline ∉ line) :
    conn.buffer.take pos = line ∧ conn.buffer.length = (conn.erase pos).buffer.length + (line.length + 1) := by
  obtain ⟨hcut, hfree⟩ := Connection.findNewline_eq_some hpos
  have hsame : conn.buffer.take pos ++ newline :: (conn.buffer.drop (pos + 1) ++ received reads) =
      line ++ newline :: rest := by
    rw [← hstream]
    conv_rhs => rw [hcut]
    simp
  obtain ⟨htake, -⟩ := Framing.cut_unique hfree hline hsame
  refine ⟨htake, ?_⟩
  have hlength := congrArg List.length hcut
  rw [htake, List.length_append, List.length_cons] at hlength
  rw [Connection.erase_buffer]
  omega

/-- A call gives up on the next line exactly if the reads pause inside it past the cap. -/
theorem readLine_none_iff (hflows : Flows reads)
    (hstream : conn.buffer ++ received reads = line ++ newline :: rest)
    (hline : newline ∉ line) : (readLine maxLineBytes conn reads).1 = none ↔
      ∃ b ∈ pauses conn.buffer.length reads, maxLineBytes < b ∧ b ≤ line.length := by
  fun_induction readLine maxLineBytes conn reads with
  | case1 conn reads pos hpos =>
    obtain ⟨-, hlength⟩ := line_lt_buffer hpos hstream hline
    constructor
    · intro h
      cases h
    · rintro ⟨b, hb, -, hle⟩
      have hge := le_of_mem_pauses hb
      omega
  | case2 reads conn hnone conn₁ hcap =>
    have hle := buffer_le_line hstream (Connection.notMem_of_findNewline hnone)
    refine iff_of_true rfl ⟨conn.buffer.length, ?_, hcap, hle⟩
    cases reads <;> simp [pauses]
  | case3 conn hnone conn₁ hcap =>
    rw [received_nil, List.append_nil] at hstream
    exact absurd (by simp [hstream]) (Connection.notMem_of_findNewline hnone)
  | case4 conn hnone conn₁ hcap rest' ih =>
    have hnot : ¬maxLineBytes < conn.buffer.length := hcap
    rw [ih hflows.cons.2 hstream]
    simp [pauses, hnot, conn₁]
  | case5 conn hnone conn₁ hcap again rest' => exact absurd hflows.cons.1 (by simp [ReadResult.stops])
  | case6 conn hnone conn₁ hcap rest' => exact absurd hflows.cons.1 (by simp [ReadResult.stops])
  | case7 conn hnone conn₁ hcap b chunk rest' ih =>
    have hnot : ¬maxLineBytes < conn.buffer.length := hcap
    rw [ih hflows.cons.2 (by simpa [conn₁] using hstream)]
    simp [pauses, hnot, conn₁]

/-- What a call leaves has the pauses that come after its line. -/
theorem pauses_of_readLine (hflows : Flows reads)
    (hstream : conn.buffer ++ received reads = line ++ newline :: rest)
    (hline : newline ∉ line) (h : readLine maxLineBytes conn reads = (some line, conn', reads')) (b : Nat) :
    b + (line.length + 1) ∈ pauses conn.buffer.length reads ↔ b ∈ pauses conn'.buffer.length reads' := by
  fun_induction readLine maxLineBytes conn reads with
  | case1 conn reads pos hpos =>
    obtain ⟨-, hlength⟩ := line_lt_buffer hpos hstream hline
    simp only [Prod.mk.injEq, Option.some.injEq] at h
    obtain ⟨-, rfl, rfl⟩ := h
    rw [hlength, add_mem_pauses]
  | case2 | case3 | case5 | case6 => simp at h
  | case4 conn hnone conn₁ hcap rest' ih =>
    have hle := buffer_le_line hstream (Connection.notMem_of_findNewline hnone)
    have hne : b + (line.length + 1) ≠ conn.buffer.length := by omega
    rw [← ih hflows.cons.2 hstream h]
    simp [pauses, hne, conn₁]
  | case7 conn hnone conn₁ hcap c chunk rest' ih =>
    have hle := buffer_le_line hstream (Connection.notMem_of_findNewline hnone)
    have hne : b + (line.length + 1) ≠ conn.buffer.length := by omega
    rw [← ih hflows.cons.2 (by simpa [conn₁] using hstream) h]
    simp [pauses, hne, conn₁]

end

/-! All calls on a stream. -/

section

variable {maxLineBytes : Nat} {conn conn' : Connection} {reads reads' : List ReadResult} {line rest : Bytes}

theorem findIdx?_line (hline : newline ∉ line) :
    (line ++ newline :: rest).findIdx? (· == newline) = some line.length := by
  have hnone : line.findIdx? (· == newline) = none := by
    rw [List.findIdx?_eq_none_iff]
    intro c hc
    have hne : c ≠ newline := fun h => hline (h ▸ hc)
    simpa using hne
  simp [List.findIdx?_append, hnone, List.findIdx?_cons]

theorem capped_short (calls : Nat) (hline : newline ∉ line) (hshort : line.length ≤ maxLineBytes) :
    capped maxLineBytes (calls + 1) (line ++ newline :: rest) = some line :: capped maxLineBytes calls rest := by
  have htake : (line ++ newline :: rest).take line.length = line := by simp
  have hdrop : (line ++ newline :: rest).drop (line.length + 1) = rest := by
    rw [← List.drop_drop]
    simp
  simp only [capped, findIdx?_line hline, if_pos hshort, htake, hdrop]

theorem capped_stopped (calls : Nat) {stream : Bytes}
    (h : newline ∉ stream ∨ ∃ line rest, stream = line ++ newline :: rest ∧ newline ∉ line ∧
      maxLineBytes < line.length) :
    capped maxLineBytes calls stream = List.replicate calls none := by
  induction calls with
  | zero => rfl
  | succ calls ih =>
    rw [capped, List.replicate_succ, ← ih]
    rcases h with hnone | ⟨line, rest, rfl, hline, hlong⟩
    · have hidx : stream.findIdx? (· == newline) = none := by
        rw [List.findIdx?_eq_none_iff]
        intro c hc
        have hne : c ≠ newline := fun h => hnone (h ▸ hc)
        simpa using hne
      rw [hidx]
    · simp only [findIdx?_line hline, if_neg (Nat.not_le.mpr hlong)]

/-- A line that a call returns is the first of the stream, and the call leaves the rest. -/
theorem readLine_first (hstream : conn.buffer ++ received reads = line ++ newline :: rest)
    (hline : newline ∉ line) {got : Bytes} (h : readLine maxLineBytes conn reads = (some got, conn', reads')) :
    got = line ∧ conn'.buffer ++ received reads' = rest ∧ (Flows reads → Flows reads') := by
  obtain ⟨hfree, hsuffix, hcut⟩ := readLine_some h
  obtain ⟨rfl, hrest⟩ := Framing.cut_unique hfree hline (hcut.symm.trans hstream)
  exact ⟨rfl, hrest, fun hflows r hr => hflows r (hsuffix.subset hr)⟩

/-- Without a newline to come there is no line. -/
theorem readLines_no_newline (calls : Nat) (h : newline ∉ conn.buffer ++ received reads) :
    readLines maxLineBytes calls conn reads = List.replicate calls none := by
  induction calls generalizing conn reads with
  | zero => rfl
  | succ calls ih =>
    rcases hread : readLine maxLineBytes conn reads with ⟨result, conn', reads'⟩
    cases result with
    | some got =>
      obtain ⟨-, -, hcut⟩ := readLine_some hread
      exact absurd (by rw [hcut]; simp) h
    | none =>
      obtain ⟨-, hsame, -⟩ := readLine_none hread
      simp only [readLines, hread, List.replicate_succ, ih (hsame ▸ h)]

/-- Once past the cap, no call reads on. -/
theorem readLines_past_cap (calls : Nat) (hfree : newline ∉ conn.buffer)
    (hlong : maxLineBytes < conn.buffer.length) :
    readLines maxLineBytes calls conn reads = List.replicate calls none := by
  induction calls generalizing conn with
  | zero => rfl
  | succ calls ih =>
    have hfind : conn.findNewline = none := by
      cases hpos : conn.findNewline with
      | none => rfl
      | some pos =>
        obtain ⟨hcut, -⟩ := Connection.findNewline_eq_some hpos
        exact absurd (by rw [hcut]; simp) hfree
    have hread : readLine maxLineBytes conn reads = (none, conn.setScanned hfree, reads) := by
      rw [readLine_eq_poll]
      have hpoll : conn.poll maxLineBytes = .tooLong (conn.setScanned hfree) := by
        unfold Connection.poll
        split
        · rename_i pos hpos
          rw [hfind] at hpos
          cases hpos
        · exact if_pos hlong
      rw [hpoll]
    simp only [readLines, hread, List.replicate_succ]
    rw [ih]
    · exact hfree
    · exact hlong

/-- Every call gives what the bytes alone decide. -/
def CapHolds (maxLineBytes : Nat) (conn : Connection) (reads : List ReadResult) : Prop :=
  ∀ calls, readLines maxLineBytes calls conn reads = capped maxLineBytes calls (conn.buffer ++ received reads)

/-- The reads pause in the first longer line, after more bytes of it than the cap. -/
def PausesInLongLine (maxLineBytes : Nat) (conn : Connection) (reads : List ReadResult) : Prop :=
  ∀ lines line rest, conn.buffer ++ received reads = Framing.frame newline lines ++ (line ++ newline :: rest) →
    (∀ l ∈ lines, newline ∉ l ∧ l.length ≤ maxLineBytes) → newline ∉ line → maxLineBytes < line.length →
    ∃ b ∈ pauses conn.buffer.length reads, (Framing.frame newline lines).length + maxLineBytes < b ∧
      b ≤ (Framing.frame newline lines).length + line.length

theorem capHolds_short (hstream : conn.buffer ++ received reads = line ++ newline :: rest)
    (hline : newline ∉ line) (hshort : line.length ≤ maxLineBytes)
    (h : readLine maxLineBytes conn reads = (some line, conn', reads')) :
    CapHolds maxLineBytes conn reads ↔ CapHolds maxLineBytes conn' reads' := by
  obtain ⟨-, hrest, -⟩ := readLine_first hstream hline h
  have hstep : ∀ calls, readLines maxLineBytes (calls + 1) conn reads =
      some line :: readLines maxLineBytes calls conn' reads' := by
    intro calls
    simp only [readLines, h]
  constructor
  · intro hholds calls
    have hnext := hholds (calls + 1)
    rw [hstep, hstream, capped_short calls hline hshort] at hnext
    rw [hrest]
    exact (List.cons.inj hnext).2
  · intro hholds calls
    cases calls with
    | zero => rfl
    | succ calls => rw [hstep, hholds calls, hstream, capped_short calls hline hshort, hrest]

theorem pausesInLongLine_short (hflows : Flows reads)
    (hstream : conn.buffer ++ received reads = line ++ newline :: rest) (hline : newline ∉ line)
    (hshort : line.length ≤ maxLineBytes) (h : readLine maxLineBytes conn reads = (some line, conn', reads')) :
    PausesInLongLine maxLineBytes conn reads ↔ PausesInLongLine maxLineBytes conn' reads' := by
  obtain ⟨-, hrest, -⟩ := readLine_first hstream hline h
  have hpauses := pauses_of_readLine hflows hstream hline h
  constructor
  · intro hlong lines long rest' hsplit hlines hfree hlength
    obtain ⟨b, hb, hlt, hle⟩ := hlong (line :: lines) long rest' (by
      rw [hstream, ← hrest, hsplit, Framing.frame_cons, List.append_assoc, List.cons_append])
      (List.forall_mem_cons.mpr ⟨⟨hline, hshort⟩, hlines⟩) hfree hlength
    rw [Framing.frame_cons, List.length_append, List.length_cons] at hlt hle
    obtain ⟨d, rfl⟩ : ∃ d, b = d + (line.length + 1) := ⟨b - (line.length + 1), by omega⟩
    exact ⟨d, (hpauses d).mp hb, by omega, by omega⟩
  · intro hlong lines long rest' hsplit hlines hfree hlength
    cases lines with
    | nil =>
      rw [Framing.frame_nil, List.nil_append, hstream] at hsplit
      obtain ⟨rfl, -⟩ := Framing.cut_unique hline hfree hsplit
      omega
    | cons first lines =>
      obtain ⟨⟨hfirst, -⟩, hothers⟩ := List.forall_mem_cons.mp hlines
      rw [Framing.frame_cons, List.append_assoc, List.cons_append, hstream] at hsplit
      obtain ⟨rfl, hnext⟩ := Framing.cut_unique hline hfirst hsplit
      obtain ⟨b, hb, hlt, hle⟩ := hlong lines long rest' (hrest.trans hnext) hothers hfree hlength
      refine ⟨b + (line.length + 1), (hpauses b).mpr hb, ?_, ?_⟩
      · rw [Framing.frame_cons, List.length_append, List.length_cons]
        omega
      · rw [Framing.frame_cons, List.length_append, List.length_cons]
        omega

theorem capHolds_long (hflows : Flows reads) (hstream : conn.buffer ++ received reads = line ++ newline :: rest)
    (hline : newline ∉ line) (hlong : maxLineBytes < line.length) :
    CapHolds maxLineBytes conn reads ↔ (readLine maxLineBytes conn reads).1 = none := by
  have hcapped : ∀ calls, capped maxLineBytes calls (conn.buffer ++ received reads) = List.replicate calls none :=
    fun calls => capped_stopped calls (Or.inr ⟨line, rest, hstream, hline, hlong⟩)
  rcases hread : readLine maxLineBytes conn reads with ⟨result, conn', reads'⟩
  constructor
  · intro hholds
    have hfirst := hholds 1
    rw [hcapped] at hfirst
    simp only [readLines, hread, List.replicate_succ, List.replicate_zero] at hfirst
    exact (List.cons.inj hfirst).1
  · rintro rfl calls
    rw [hcapped]
    cases calls with
    | zero => rfl
    | succ calls =>
      obtain ⟨hfree, hsame, hend⟩ := readLine_none hread
      have hpast : maxLineBytes < conn'.buffer.length := by
        rcases hend with hcap | rfl | ⟨-, r, hr, hstops⟩
        · exact hcap
        · rw [hstream, received_nil, List.append_nil] at hsame
          exact absurd (by simp [← hsame]) hfree
        · rw [hflows r hr] at hstops
          cases hstops
      simp only [readLines, hread, List.replicate_succ]
      rw [readLines_past_cap calls hfree hpast]

theorem pausesInLongLine_long (hstream : conn.buffer ++ received reads = line ++ newline :: rest)
    (hline : newline ∉ line) (hlong : maxLineBytes < line.length) : PausesInLongLine maxLineBytes conn reads ↔
      ∃ b ∈ pauses conn.buffer.length reads, maxLineBytes < b ∧ b ≤ line.length := by
  constructor
  · intro h
    simpa using h [] line rest (by simpa using hstream) (by simp) hline hlong
  · intro hpause lines long rest' hsplit hlines hfree hlength
    rw [hstream] at hsplit
    cases lines with
    | nil =>
      obtain ⟨rfl, -⟩ := Framing.cut_unique hline hfree hsplit
      simpa using hpause
    | cons first lines =>
      obtain ⟨⟨hfirst, hshort⟩, -⟩ := List.forall_mem_cons.mp hlines
      rw [Framing.frame_cons, List.append_assoc, List.cons_append] at hsplit
      obtain ⟨rfl, -⟩ := Framing.cut_unique hline hfirst hsplit
      omega

/-- The cap is a cap exactly if the reads pause in the first longer line, past the cap. -/
theorem cap_holds_iff (hflows : Flows reads) :
    CapHolds maxLineBytes conn reads ↔ PausesInLongLine maxLineBytes conn reads := by
  induction hlength : (conn.buffer ++ received reads).length using Nat.strong_induction_on
    generalizing conn reads with
  | _ length ih =>
    by_cases hnewline : newline ∈ conn.buffer ++ received reads
    swap
    · refine iff_of_true (fun calls => ?_) fun lines line rest hsplit => ?_
      · rw [readLines_no_newline calls hnewline, capped_stopped calls (Or.inl hnewline)]
      · exact absurd (by simp [hsplit]) hnewline
    obtain ⟨line, rest, hstream, hline⟩ := List.eq_append_cons_of_mem hnewline
    by_cases hshort : line.length ≤ maxLineBytes
    · rcases hread : readLine maxLineBytes conn reads with ⟨_ | got, conn', reads'⟩
      · obtain ⟨b, -, hlt, hle⟩ := (readLine_none_iff hflows hstream hline).mp (congrArg Prod.fst hread)
        omega
      · obtain ⟨rfl, hrest, hflows'⟩ := readLine_first hstream hline hread
        rw [capHolds_short hstream hline hshort hread, pausesInLongLine_short hflows hstream hline hshort hread]
        refine ih _ ?_ (hflows' hflows) rfl
        rw [hrest, ← hlength, hstream, List.length_append, List.length_cons]
        omega
    · have hlong : maxLineBytes < line.length := Nat.lt_of_not_le hshort
      rw [capHolds_long hflows hstream hline hlong, pausesInLongLine_long hstream hline hlong,
        readLine_none_iff hflows hstream hline]

end

/-- One read brings a line of four bytes with its newline. -/
theorem not_capHolds_at_once : ¬CapHolds 3 .fresh [.bytes (text "abcd\n")] := by
  intro h
  have hfirst := h 1
  revert hfirst
  decide

theorem cap_holds_iff_in_two : CapHolds 3 .fresh [.bytes (text "abcd"), .bytes (text "\n")] := by
  have hflows : Flows [.bytes (text "abcd"), .bytes (text "\n")] := by
    intro r hr
    revert r
    decide
  have hstream : Connection.fresh.buffer ++ received [.bytes (text "abcd"), .bytes (text "\n")] =
      text "abcd" ++ newline :: [] := by decide
  exact (cap_holds_iff hflows).mpr ((pausesInLongLine_long hstream (by decide) (by decide)).mpr
    ⟨4, by decide, by decide, by decide⟩)

end Secretov
