import Secretov.Transport
import Mathlib.Data.List.ReduceOption

/-! The two ends of a connection together: what `write_line` puts on the wire,
cut into reads in any way, comes out of `read_line` line by line. -/

namespace Secretov

def readLines (maxLineBytes : Nat) : Nat → Connection → List ReadResult → List (Option Bytes)
  | 0, _, _ => []
  | calls + 1, conn, reads =>
    let r := readLine maxLineBytes conn reads
    r.1 :: readLines maxLineBytes calls r.2.1 r.2.2

/-- Successive `write_line` calls of one connection, which closes at the first
that fails: the lines whose call returned true, and all bytes on the wire. -/
def writeLines (conn : Connection) : List (Bytes × List SendResult) → List Bytes × Bytes
  | [] => ([], [])
  | (line, sends) :: more =>
    let r := writeLine conn line sends
    if r.ok then (line :: (writeLines r.conn more).1, r.wire ++ (writeLines r.conn more).2)
    else ([], r.wire)

/-- How many bytes the `::send`s take. -/
def takenBy : List SendResult → Nat
  | [] => 0
  | .sent n :: sends => n + takenBy sends
  | _ :: sends => takenBy sends

def SendResult.fails : SendResult → Bool
  | .error _ => true
  | _ => false

/-- No `::send` fails, and together they take the line and its newline. Any of them may be
interrupted, or take a part only. -/
def Carries (line : Bytes) (sends : List SendResult) : Prop :=
  (∀ r ∈ sends, r.fails = false) ∧ line.length < takenBy sends

theorem sendLoop_carried {conn : Connection} {out : Bytes} {sends : List SendResult}
    (hsends : ∀ r ∈ sends, r.fails = false) (hlong : out.length ≤ takenBy sends) :
    (sendLoop conn out sends).ok = true := by
  induction sends generalizing out with
  | nil =>
    obtain rfl := List.length_eq_zero_iff.mp (Nat.le_zero.mp hlong)
    rfl
  | cons r sends ih =>
    obtain ⟨hr, hmore⟩ := List.forall_mem_cons.mp hsends
    cases out with
    | nil => rfl
    | cons b bs =>
      cases r with
      | interrupted => exact ih hmore hlong
      | error again => cases hr
      | sent n =>
        have hrest : ((b :: bs).drop n).length ≤ takenBy sends := by
          rw [takenBy] at hlong
          rw [List.length_drop]
          omega
        exact ih hmore hrest

theorem writeLine_carried {conn : Connection} {line : Bytes} {sends : List SendResult} (h : Carries line sends) :
    (writeLine conn line sends).ok = true :=
  sendLoop_carried h.1 (by simpa using Nat.succ_le_of_lt h.2)

/-- The first calls, as long as their lines are carried, all return true. -/
theorem writeLines_carried {conn : Connection} {carried : List (Bytes × List SendResult)}
    (h : ∀ w ∈ carried, Carries w.1 w.2) (more : List (Bytes × List SendResult)) :
    carried.map Prod.fst <+: (writeLines conn (carried ++ more)).1 := by
  induction carried generalizing conn with
  | nil => exact List.nil_prefix
  | cons w carried ih =>
    obtain ⟨hw, hcarried⟩ := List.forall_mem_cons.mp h
    rw [List.cons_append, writeLines, if_pos (writeLine_carried hw), List.map_cons]
    exact (List.prefix_cons_inj _).mpr (ih hcarried)

theorem writeLines_wire (conn : Connection) (writes : List (Bytes × List SendResult)) :
    ∃ tail, (writeLines conn writes).2 = Framing.frame newline (writeLines conn writes).1 ++ tail ∧
      (tail = [] ∨ ∃ w ∈ writes, tail <+: w.1) ∧
      ((writeLines conn writes).1 <+: writes.map Prod.fst) := by
  induction writes generalizing conn with
  | nil => exact ⟨[], by simp [writeLines]⟩
  | cons w more ih =>
    obtain ⟨line, sends⟩ := w
    cases hok : (writeLine conn line sends).ok with
    | true =>
      obtain ⟨tail, hwire, htail, hpre⟩ := ih (writeLine conn line sends).conn
      refine ⟨tail, ?_, ?_, ?_⟩
      · simp only [writeLines, hok, if_true, writeLine_ok hok, hwire, Framing.frame_cons]
        simp
      · exact htail.imp_right fun ⟨w, hw, hp⟩ => ⟨w, List.mem_cons_of_mem _ hw, hp⟩
      · simpa [writeLines, hok] using hpre
    | false =>
      refine ⟨(writeLine conn line sends).wire, ?_, Or.inr ⟨(line, sends), by simp, writeLine_failed hok⟩, ?_⟩
      · simp [writeLines, hok]
      · simp [writeLines, hok]

/-- While short records followed by a short open tail are still to come, the cap
never fires, so a nullopt is a failed read or the end. -/
theorem readLine_none_of_short {maxLineBytes : Nat} {conn conn' : Connection}
    {reads reads' : List ReadResult} {ls : List Bytes} {tail : Bytes}
    (hstream : conn.buffer ++ received reads = Framing.frame newline ls ++ tail)
    (hls : ∀ l ∈ ls, l.length ≤ maxLineBytes) (htail : tail.length ≤ maxLineBytes)
    (h : readLine maxLineBytes conn reads = (none, conn', reads')) :
    conn'.buffer ++ received reads' = Framing.frame newline ls ++ tail ∧
      ((ls = [] ∧ reads' = []) ∨ reads'.length < reads.length) := by
  obtain ⟨hfree, hsame, hend⟩ := readLine_none h
  rw [hsame] at hstream
  refine ⟨hstream, ?_⟩
  have hshort : conn'.buffer.length ≤ maxLineBytes := by
    cases ls with
    | nil =>
      have hlen := congrArg List.length hstream
      simp only [Framing.frame_nil, List.nil_append, List.length_append] at hlen
      omega
    | cons l ls =>
      have hl := hls l (by simp)
      by_contra hlt
      have hpre : l ++ [newline] <+: conn'.buffer := by
        have hrecord : l ++ [newline] <+: conn'.buffer ++ received reads' := by
          rw [hstream]
          simp
        apply List.prefix_of_prefix_length_le hrecord (List.prefix_append _ _)
        simp only [List.length_append, List.length_singleton]
        omega
      exact hfree (hpre.subset (by simp))
  rcases hend with hcap | hend | hlt
  · omega
  · subst hend
    cases ls with
    | nil => exact Or.inl ⟨rfl, rfl⟩
    | cons l ls =>
      simp only [received_nil, List.append_nil] at hstream
      exact absurd (by rw [hstream]; simp) hfree
  · exact Or.inr hlt.1

/-- However the stream is cut into reads, successive calls give its records in
order, and all of them once enough calls have been made. -/
theorem readLines_frame {maxLineBytes : Nat} {conn : Connection} {reads : List ReadResult}
    {ls : List Bytes} {tail : Bytes} (calls : Nat)
    (hstream : conn.buffer ++ received reads = Framing.frame newline ls ++ tail)
    (hls : ∀ l ∈ ls, newline ∉ l ∧ l.length ≤ maxLineBytes)
    (htail : newline ∉ tail ∧ tail.length ≤ maxLineBytes) :
    (readLines maxLineBytes calls conn reads).reduceOption <+: ls ∧
      (ls.length + reads.length ≤ calls → (readLines maxLineBytes calls conn reads).reduceOption = ls) := by
  induction calls generalizing conn reads ls with
  | zero =>
    refine ⟨by simp [readLines, List.reduceOption], fun hle => ?_⟩
    have hnil : ls = [] := List.length_eq_zero_iff.mp (by omega)
    simp [readLines, List.reduceOption, hnil]
  | succ calls ih =>
    rcases hread : readLine maxLineBytes conn reads with ⟨result, conn', reads'⟩
    cases result with
    | some line =>
      obtain ⟨hfree, hsuffix, hcut⟩ := readLine_some hread
      have hle := hsuffix.length_le
      rw [hstream] at hcut
      cases ls with
      | nil => exact absurd (by simp only [Framing.frame_nil, List.nil_append] at hcut; simp [hcut]) htail.1
      | cons l ls =>
        simp only [Framing.frame_cons, List.append_assoc, List.cons_append] at hcut
        obtain ⟨rfl, hrest⟩ := Framing.cut_unique (hls l (by simp)).1 hfree hcut
        obtain ⟨hpre, hall⟩ := ih hrest.symm (fun k hk => hls k (by simp [hk]))
        simp only [readLines, hread, List.reduceOption_cons_of_some]
        refine ⟨(List.prefix_cons_inj _).mpr hpre, fun hcalls => ?_⟩
        rw [hall (by simp only [List.length_cons] at hcalls; omega)]
    | none =>
      obtain ⟨hsame, hend⟩ := readLine_none_of_short hstream (fun l hl => (hls l hl).2) htail.2 hread
      obtain ⟨hpre, hall⟩ := ih hsame hls
      simp only [readLines, hread, List.reduceOption_cons_of_none]
      refine ⟨hpre, fun hcalls => ?_⟩
      rcases hend with ⟨rfl, -⟩ | hlt
      · exact List.prefix_nil.mp hpre
      · exact hall (by omega)

/-- The transport delivers exactly the lines that were written: reading any cut
of the wire, with failed and repeated calls in between, gives the lines whose
`write_line` returned true, in order, and nothing of a failed one. The calls
return true, up to the first that a failing `::send` ends. -/
theorem written_lines_delivered (maxLineBytes : Nat) (writes : List (Bytes × List SendResult))
    (reads : List ReadResult) (hlines : ∀ w ∈ writes, newline ∉ w.1 ∧ w.1.length ≤ maxLineBytes)
    (hcut : received reads = (writeLines .fresh writes).2) :
    (∀ calls, (readLines maxLineBytes calls .fresh reads).reduceOption <+: (writeLines .fresh writes).1) ∧
    (∃ enough, ∀ calls, enough ≤ calls →
      (readLines maxLineBytes calls .fresh reads).reduceOption = (writeLines .fresh writes).1) ∧
    (writeLines .fresh writes).1 <+: writes.map Prod.fst ∧
    ((∀ w ∈ writes, Carries w.1 w.2) → (writeLines .fresh writes).1 = writes.map Prod.fst) ∧
    ∀ carried more, writes = carried ++ more → (∀ w ∈ carried, Carries w.1 w.2) →
      carried.map Prod.fst <+: (writeLines .fresh writes).1 := by
  obtain ⟨tail, hwire, htail, hpre⟩ := writeLines_wire .fresh writes
  have hls : ∀ l ∈ (writeLines .fresh writes).1, newline ∉ l ∧ l.length ≤ maxLineBytes := by
    intro l hl
    obtain ⟨w, hw, rfl⟩ := List.mem_map.mp (hpre.subset hl)
    exact hlines w hw
  have ht : newline ∉ tail ∧ tail.length ≤ maxLineBytes := by
    rcases htail with rfl | ⟨w, hw, hp⟩
    · simp
    · exact ⟨fun hm => (hlines w hw).1 (hp.subset hm), hp.length_le.trans (hlines w hw).2⟩
  have hstream : Connection.fresh.buffer ++ received reads =
      Framing.frame newline (writeLines .fresh writes).1 ++ tail := by
    rw [hcut, hwire]
    rfl
  refine ⟨fun calls => (readLines_frame calls hstream hls ht).1,
    ⟨_, fun calls hc => (readLines_frame calls hstream hls ht).2 hc⟩, hpre, fun hall => ?_, ?_⟩
  · have hcarried := @writeLines_carried .fresh _ hall []
    rw [List.append_nil] at hcarried
    exact hpre.eq_of_length_le hcarried.length_le
  · rintro carried more rfl hcarried
    exact writeLines_carried hcarried more

/-- Two writes, the second cut off before its newline, read in three pieces with
a timeout in between. -/
theorem written_lines_delivered_cut_off :
    (∃ enough, ∀ calls, enough ≤ calls →
      (readLines 4 calls .fresh
        [.bytes (text "a"), .error true, .interrupted, .bytes (text "b\nc")]).reduceOption = [text "ab"]) ∧
    [text "ab"] <+: (writeLines .fresh
      [(text "ab", [.sent 1, .interrupted, .sent 2]), (text "c", [.sent 1, .error true])]).1 := by
  have hlines : ∀ w ∈ [(text "ab", [SendResult.sent 1, .interrupted, .sent 2]),
      (text "c", [.sent 1, .error true])], newline ∉ w.1 ∧ w.1.length ≤ 4 := by decide
  have hcarried : ∀ w ∈ [(text "ab", [SendResult.sent 1, .interrupted, .sent 2])], Carries w.1 w.2 := by
    intro w hw
    rw [List.mem_singleton.mp hw, Carries]
    decide
  obtain ⟨-, hread, -, -, hearlier⟩ := written_lines_delivered 4
    [(text "ab", [.sent 1, .interrupted, .sent 2]), (text "c", [.sent 1, .error true])]
    [.bytes (text "a"), .error true, .interrupted, .bytes (text "b\nc")] hlines (by decide)
  exact ⟨hread, hearlier _ _ rfl hcarried⟩

end Secretov
