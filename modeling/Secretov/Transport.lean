import Secretov.Bytes
import Secretov.Lib.Framing

/-! One end of a socket (transport.cpp). The kernel is a script: what each
`::read` or `::send` gives, in order. A script that has run out stands for a
peer that has closed. -/

namespace Secretov

inductive ReadResult where
  | bytes (chunk : Bytes)
  | interrupted
  | error (again : Bool)
deriving DecidableEq

inductive SendResult where
  | sent (n : Nat)
  | interrupted
  | error (again : Bool)
deriving DecidableEq

def ReadResult.stops : ReadResult → Bool
  | .bytes chunk => chunk.isEmpty
  | .interrupted => false
  | .error _ => true

/-- The receive side of a `Connection`. The first `scanned` bytes of the buffer
have been searched for a newline in vain. -/
structure Connection where
  buffer : Bytes
  scanned : Nat
  timedOut : Bool
  scanned_le : scanned ≤ buffer.length
  searched : newline ∉ buffer.take scanned
deriving DecidableEq

namespace Connection

def fresh : Connection := ⟨[], 0, false, by simp, by simp⟩

def findNewline (conn : Connection) : Option Nat :=
  ((conn.buffer.drop conn.scanned).findIdx? (· == newline)).map (conn.scanned + ·)

theorem notMem_of_findNewline {conn : Connection} (h : conn.findNewline = none) :
    newline ∉ conn.buffer := by
  have hd : newline ∉ conn.buffer.drop conn.scanned := by
    intro hm
    simp only [findNewline, Option.map_eq_none_iff, List.findIdx?_eq_none_iff] at h
    simpa using h _ hm
  intro hm
  rw [← List.take_append_drop conn.scanned conn.buffer, List.mem_append] at hm
  exact hm.elim conn.searched hd

theorem findNewline_eq_some {conn : Connection} {pos : Nat} (h : conn.findNewline = some pos) :
    conn.buffer = conn.buffer.take pos ++ newline :: conn.buffer.drop (pos + 1) ∧
      newline ∉ conn.buffer.take pos := by
  obtain ⟨i, hi, rfl⟩ := Option.map_eq_some_iff.mp h
  obtain ⟨hlt, hat, hbefore⟩ := List.findIdx?_eq_some_iff_getElem.mp hi
  have hpos : conn.scanned + i < conn.buffer.length := by
    rw [List.length_drop] at hlt
    omega
  have hnl : conn.buffer[conn.scanned + i] = newline := by simpa using hat
  refine ⟨?_, ?_⟩
  · rw [← hnl, ← List.drop_eq_getElem_cons hpos, List.take_append_drop]
  · rw [List.take_add, List.mem_append, not_or]
    refine ⟨conn.searched, fun hm => ?_⟩
    obtain ⟨j, hj, hjn⟩ := List.mem_take_iff_getElem.mp hm
    have hji : j < i := by omega
    simpa [hjn] using hbefore j hji

def erase (conn : Connection) (pos : Nat) : Connection :=
  ⟨conn.buffer.drop (pos + 1), 0, conn.timedOut, by simp, by simp⟩

def setScanned (conn : Connection) (h : newline ∉ conn.buffer) : Connection :=
  ⟨conn.buffer, conn.buffer.length, conn.timedOut, by simp, by simpa using h⟩

def append (conn : Connection) (chunk : Bytes) : Connection :=
  ⟨conn.buffer ++ chunk, conn.scanned, conn.timedOut,
    by simpa using Nat.le_add_right_of_le conn.scanned_le,
    by simpa [List.take_append_of_le_length conn.scanned_le] using conn.searched⟩

def setTimedOut (conn : Connection) (again : Bool) : Connection :=
  { conn with timedOut := again }

@[simp] theorem setTimedOut_buffer (conn : Connection) (again : Bool) :
    (conn.setTimedOut again).buffer = conn.buffer := rfl

@[simp] theorem setScanned_buffer (conn : Connection) (h : newline ∉ conn.buffer) :
    (conn.setScanned h).buffer = conn.buffer := rfl

@[simp] theorem append_buffer (conn : Connection) (chunk : Bytes) :
    (conn.append chunk).buffer = conn.buffer ++ chunk := rfl

@[simp] theorem erase_buffer (conn : Connection) (pos : Nat) :
    (conn.erase pos).buffer = conn.buffer.drop (pos + 1) := rfl

end Connection

/-- `Connection::read_line`: the line or nullopt, the connection after the call
and the reads not yet made. -/
def readLine (maxLineBytes : Nat) (conn : Connection) (reads : List ReadResult) :
    Option Bytes × Connection × List ReadResult :=
  match h : conn.findNewline with
  | some pos => (some (conn.buffer.take pos), conn.erase pos, reads)
  | none =>
    let conn := conn.setScanned (Connection.notMem_of_findNewline h)
    if conn.buffer.length > maxLineBytes then (none, conn, reads)
    else match reads with
      | [] => (none, conn, [])
      -- read_retry calls `::read` again; the buffer has not changed meanwhile
      | .interrupted :: rest => readLine maxLineBytes conn rest
      | .error again :: rest => (none, conn.setTimedOut again, rest)
      | .bytes [] :: rest => (none, conn, rest)
      | .bytes (b :: chunk) :: rest => readLine maxLineBytes (conn.append (b :: chunk)) rest
termination_by structural reads

/-- One turn of the loop of `read_line`, up to the read. -/
inductive Polled where
  | line (line : Bytes) (conn : Connection)
  | tooLong (conn : Connection)
  | needRead (conn : Connection)

def Connection.poll (maxLineBytes : Nat) (conn : Connection) : Polled :=
  match h : conn.findNewline with
  | some pos => .line (conn.buffer.take pos) (conn.erase pos)
  | none =>
    let conn := conn.setScanned (Connection.notMem_of_findNewline h)
    if conn.buffer.length > maxLineBytes then .tooLong conn else .needRead conn

theorem readLine_eq_poll (maxLineBytes : Nat) (conn : Connection) (reads : List ReadResult) :
    readLine maxLineBytes conn reads = match conn.poll maxLineBytes with
      | .line line conn => (some line, conn, reads)
      | .tooLong conn => (none, conn, reads)
      | .needRead conn => match reads with
        | [] => (none, conn, [])
        | .interrupted :: rest => readLine maxLineBytes conn rest
        | .error again :: rest => (none, conn.setTimedOut again, rest)
        | .bytes [] :: rest => (none, conn, rest)
        | .bytes (b :: chunk) :: rest => readLine maxLineBytes (conn.append (b :: chunk)) rest := by
  rw [readLine.eq_def, Connection.poll]
  split
  · rfl
  · simp only
    split_ifs
    · rfl
    · rfl

theorem Connection.poll_line {maxLineBytes : Nat} {conn conn' : Connection} {line : Bytes}
    (h : conn.poll maxLineBytes = .line line conn') :
    conn.buffer = line ++ newline :: conn'.buffer ∧ newline ∉ line := by
  unfold poll at h
  split at h
  · rename_i pos hpos
    obtain ⟨rfl, rfl⟩ := Polled.line.inj h
    exact findNewline_eq_some hpos
  · simp only at h
    split_ifs at h

theorem Connection.poll_needRead {maxLineBytes : Nat} {conn conn' : Connection}
    (h : conn.poll maxLineBytes = .needRead conn') : conn'.buffer = conn.buffer := by
  unfold poll at h
  split at h
  · cases h
  · simp only at h
    split_ifs at h
    cases h
    rfl

structure SendOutcome where
  ok : Bool
  wire : Bytes
  conn : Connection
deriving DecidableEq

def sendLoop (conn : Connection) (out : Bytes) (sends : List SendResult) : SendOutcome :=
  match out with
  | [] => ⟨true, [], conn⟩
  | b :: bs => match sends with
    | [] => ⟨false, [], conn.setTimedOut false⟩
    | .interrupted :: rest => sendLoop conn (b :: bs) rest
    | .error again :: _ => ⟨false, [], conn.setTimedOut again⟩
    | .sent n :: rest =>
      let r := sendLoop conn ((b :: bs).drop n) rest
      { r with wire := (b :: bs).take n ++ r.wire }
termination_by structural sends

def writeLine (conn : Connection) (line : Bytes) (sends : List SendResult) : SendOutcome :=
  sendLoop conn (line ++ [newline]) sends

def received (reads : List ReadResult) : Bytes :=
  reads.flatMap fun
    | .bytes chunk => chunk
    | _ => []

@[simp] theorem received_nil : received [] = [] := rfl

@[simp] theorem received_bytes (chunk : Bytes) (reads : List ReadResult) :
    received (.bytes chunk :: reads) = chunk ++ received reads := rfl

@[simp] theorem received_interrupted (reads : List ReadResult) :
    received (.interrupted :: reads) = received reads := rfl

@[simp] theorem received_error (again : Bool) (reads : List ReadResult) :
    received (.error again :: reads) = received reads := rfl

theorem stops_cons {reads reads' : List ReadResult} (r : ReadResult)
    (h : reads'.length < reads.length ∧ ∃ r ∈ reads, r.stops = true) :
    reads'.length < (r :: reads).length ∧ ∃ r' ∈ r :: reads, r'.stops = true := by
  obtain ⟨hlt, r', hr', hstops⟩ := h
  exact ⟨hlt.trans (by simp), r', List.mem_cons_of_mem _ hr', hstops⟩

theorem readLine_some {maxLineBytes : Nat} {conn conn' : Connection} {reads reads' : List ReadResult}
    {line : Bytes} (h : readLine maxLineBytes conn reads = (some line, conn', reads')) :
    newline ∉ line ∧ reads' <:+ reads ∧
      conn.buffer ++ received reads = line ++ newline :: (conn'.buffer ++ received reads') := by
  fun_induction readLine maxLineBytes conn reads with
  | case1 conn reads pos hpos =>
    obtain ⟨hcut, hfree⟩ := Connection.findNewline_eq_some hpos
    simp only [Prod.mk.injEq, Option.some.injEq] at h
    obtain ⟨rfl, rfl, rfl⟩ := h
    refine ⟨hfree, List.suffix_rfl, ?_⟩
    conv_lhs => rw [hcut]
    simp
  | case4 conn hnone conn₁ hcap rest ih =>
    obtain ⟨hfree, hsuffix, hstream⟩ := ih h
    exact ⟨hfree, hsuffix.trans (List.suffix_cons _ _), by simpa [conn₁] using hstream⟩
  | case7 conn hnone conn₁ hcap b chunk rest ih =>
    obtain ⟨hfree, hsuffix, hstream⟩ := ih h
    exact ⟨hfree, hsuffix.trans (List.suffix_cons _ _), by simpa [conn₁] using hstream⟩
  | case2 | case3 | case5 | case6 => simp at h

/-- A nullopt leaves every byte in place. It is the cap, the end of the script,
or a read that stops. -/
theorem readLine_none {maxLineBytes : Nat} {conn conn' : Connection} {reads reads' : List ReadResult}
    (h : readLine maxLineBytes conn reads = (none, conn', reads')) :
    newline ∉ conn'.buffer ∧ conn.buffer ++ received reads = conn'.buffer ++ received reads' ∧
      (maxLineBytes < conn'.buffer.length ∨ reads' = [] ∨
        (reads'.length < reads.length ∧ ∃ r ∈ reads, r.stops = true)) := by
  fun_induction readLine maxLineBytes conn reads with
  | case1 => simp at h
  | case2 reads conn hnone conn₁ hcap =>
    simp only [Prod.mk.injEq, true_and] at h
    obtain ⟨rfl, rfl⟩ := h
    have hfree := Connection.notMem_of_findNewline hnone
    exact ⟨hfree, rfl, Or.inl hcap⟩
  | case3 conn hnone conn₁ hcap =>
    simp only [Prod.mk.injEq, true_and] at h
    obtain ⟨rfl, rfl⟩ := h
    have hfree := Connection.notMem_of_findNewline hnone
    exact ⟨hfree, rfl, Or.inr (Or.inl rfl)⟩
  | case4 conn hnone conn₁ hcap rest ih =>
    obtain ⟨hfree, hstream, hend⟩ := ih h
    exact ⟨hfree, by simpa [conn₁] using hstream, hend.imp_right (Or.imp_right (stops_cons _))⟩
  | case5 conn hnone conn₁ hcap again rest =>
    simp only [Prod.mk.injEq, true_and] at h
    obtain ⟨rfl, rfl⟩ := h
    have hfree := Connection.notMem_of_findNewline hnone
    exact ⟨hfree, rfl, Or.inr (Or.inr ⟨by simp, .error again, by simp, rfl⟩)⟩
  | case6 conn hnone conn₁ hcap rest =>
    simp only [Prod.mk.injEq, true_and] at h
    obtain ⟨rfl, rfl⟩ := h
    have hfree := Connection.notMem_of_findNewline hnone
    exact ⟨hfree, rfl, Or.inr (Or.inr ⟨by simp, .bytes [], by simp, rfl⟩)⟩
  | case7 conn hnone conn₁ hcap b chunk rest ih =>
    obtain ⟨hfree, hstream, hend⟩ := ih h
    exact ⟨hfree, by simpa [conn₁] using hstream, hend.imp_right (Or.imp_right (stops_cons _))⟩

/-- A send loop that reports success put all of `out` on the wire, and one that
reports failure a proper prefix of it. -/
theorem sendLoop_spec (conn : Connection) (out : Bytes) (sends : List SendResult) :
    ∃ unsent, out = (sendLoop conn out sends).wire ++ unsent ∧
      ((sendLoop conn out sends).ok = true ↔ unsent = []) := by
  induction sends generalizing out with
  | nil =>
    cases out with
    | nil => exact ⟨[], by simp [sendLoop]⟩
    | cons b bs => exact ⟨b :: bs, by simp [sendLoop]⟩
  | cons s sends ih =>
    cases out with
    | nil => exact ⟨[], by simp [sendLoop]⟩
    | cons b bs =>
      cases s with
      | interrupted => exact ih (b :: bs)
      | error again => exact ⟨b :: bs, by simp [sendLoop]⟩
      | sent n =>
        obtain ⟨unsent, hout, hok⟩ := ih ((b :: bs).drop n)
        refine ⟨unsent, ?_, hok⟩
        simp only [sendLoop, List.append_assoc, ← hout, List.take_append_drop]

theorem sendLoop_buffer (conn : Connection) (out : Bytes) (sends : List SendResult) :
    (sendLoop conn out sends).conn.buffer = conn.buffer := by
  induction sends generalizing out with
  | nil => cases out <;> rfl
  | cons s sends ih =>
    cases out with
    | nil => rfl
    | cons b bs =>
      cases s with
      | interrupted => exact ih (b :: bs)
      | error again => rfl
      | sent n => exact ih ((b :: bs).drop n)

theorem writeLine_buffer (conn : Connection) (line : Bytes) (sends : List SendResult) :
    (writeLine conn line sends).conn.buffer = conn.buffer :=
  sendLoop_buffer conn (line ++ [newline]) sends

theorem writeLine_ok {conn : Connection} {line : Bytes} {sends : List SendResult}
    (h : (writeLine conn line sends).ok = true) : (writeLine conn line sends).wire = line ++ [newline] := by
  obtain ⟨unsent, hout, hok⟩ := sendLoop_spec conn (line ++ [newline]) sends
  rw [hok.mp h, List.append_nil] at hout
  exact hout.symm

/-- The newline goes out last, so a failed `write_line` never closes its line. -/
theorem writeLine_failed {conn : Connection} {line : Bytes} {sends : List SendResult}
    (h : (writeLine conn line sends).ok = false) : (writeLine conn line sends).wire <+: line := by
  obtain ⟨unsent, hout, hok⟩ := sendLoop_spec conn (line ++ [newline]) sends
  cases unsent using List.reverseRecOn with
  | nil =>
    have ht : (writeLine conn line sends).ok = true := hok.mpr rfl
    simp [ht] at h
  | append_singleton unsent b =>
    rw [← List.append_assoc] at hout
    exact ⟨unsent, ((List.append_inj_left' hout rfl)).symm⟩

end Secretov
