import Secretov.Json
import Secretov.Lib.Prog
import Secretov.Lines

/-! Secrets from the standard input (paths.hpp, client.cpp): a line of a pipe, or one
typed at a terminal whose echo is off. -/

namespace Secretov

/-- What a read of one byte gives. At the end of what is listed the input ends. -/
inductive ByteRead where
  | byte (b : UInt8)
  | interrupted
  | failed (errno : Bytes)
  | ended
deriving DecidableEq

/-- What a read of the drained terminal gives. -/
inductive DrainRead where
  | bytes (n : Nat)
  | interrupted
  | failed
  | quiet
deriving DecidableEq

/-- Terminal attributes. The last field stands for those that nothing here changes. -/
structure Termios where
  echo : Bool
  canonical : Bool
  vmin : Nat
  vtime : Nat
  others : Bytes
deriving DecidableEq

/-- The standard input. A `tcsetattr` beyond those listed succeeds. -/
structure Console where
  reads : List ByteRead
  drains : List DrainRead
  sets : List Bool
  termios : Termios
  flushes : Nat
  stderr : Bytes

/-- What is known of the standard input: whether it is a terminal, whether another
process group is in its foreground, and whether its attributes can be read. -/
structure Stdin where
  onTty : Bool
  inBackground : Bool
  attrsKnown : Bool

def kMaxSecretLineBytes : Nat := 4096

def kMaxTtyLineBytes : Nat := 4095

def kMaxDrainBytes : Nat := 1048576

def kRecommendedMinPassphraseChars : Nat := 12

abbrev ConsoleM (α : Type) := Prog Error Console α

def say (what : Bytes) : ConsoleM PUnit := Prog.modify fun s => { s with stderr := s.stderr ++ what }

def tcsetattr (flush : Bool) (termios : Termios) : ConsoleM Bool := fun s =>
  if s.sets.head? = some false then (.ok false, { s with sets := s.sets.tail })
  else (.ok true, { s with sets := s.sets.tail, termios, flushes := s.flushes + flush.toNat })

/-- How the reading of a line has ended. -/
structure LineRead where
  line : Bytes
  tooLong : Bool
  errno : Option Bytes
deriving DecidableEq

/-- The loop of `read_secret_line`. -/
def readBytes (line : Bytes) : List ByteRead → LineRead × List ByteRead
  | [] => (⟨line, false, none⟩, [])
  | .interrupted :: reads => readBytes line reads
  | .failed errno :: reads => (⟨line, false, some errno⟩, reads)
  | .ended :: reads => (⟨line, false, none⟩, reads)
  | .byte b :: reads =>
    if b = newline then (⟨line, false, none⟩, reads)
    else if line.length = kMaxSecretLineBytes then (⟨line, true, none⟩, reads)
    else readBytes (line ++ [b]) reads

def readLoop : ConsoleM LineRead := fun s =>
  let read := readBytes [] s.reads
  (.ok read.1, { s with reads := read.2 })

/-- The loop that drains the terminal, and whether it has found anything. -/
def drainBytes (found : Bool) (drained : Nat) : List DrainRead → Bool × List DrainRead
  | [] => (found, [])
  | read :: reads =>
    if drained < kMaxDrainBytes then
      match read with
      | .interrupted => drainBytes found drained reads
      | .failed | .quiet => (found, reads)
      | .bytes n => if n = 0 then (found, reads) else drainBytes true (drained + n) reads
    else (found, read :: reads)

def drainLoop : ConsoleM Bool := fun s =>
  let drained := drainBytes false 0 s.drains
  (.ok drained.1, { s with drains := drained.2 })

def drainTerminal (old : Termios) : ConsoleM Bool := do
  let peeking ← tcsetattr false { old with echo := false, canonical := false, vmin := 0, vtime := 1 }
  let left ← (if peeking then drainLoop else pure false : ConsoleM Bool)
  let _ ← tcsetattr true old
  return left

def chomp (line : Bytes) : Bytes :=
  if line.getLast? = some carriageReturn then line.dropLast else line

def secretLine (onTty left : Bool) (read : LineRead) : Except Error Bytes :=
  if read.tooLong then
    .error (.runtimeError (text "input line longer than " ++ decimal kMaxSecretLineBytes ++ text " bytes"))
  else if onTty ∧ read.line.length ≥ kMaxTtyLineBytes then
    .error (.runtimeError (text "line may have been truncated by the terminal (" ++ decimal kMaxTtyLineBytes ++
      text "-byte limit); pipe long values on stdin instead"))
  else if left then
    .error (.runtimeError (text ("more input followed the line on the terminal (multi-line paste?); " ++
      "discarded it; pipe multi-line values on stdin instead")))
  else match read.errno with
    | some errno => .error (.runtimeError (text "read stdin: " ++ errno))
    | none => .ok (chomp read.line)

def readSecretLine (stdin : Stdin) (prompt : Bytes) : ConsoleM Bytes := do
  Prog.ofExcept (Prog.throwIf (stdin.onTty ∧ stdin.inBackground) (.runtimeError (text
    ("cannot prompt from a background process; run it in the foreground " ++ "or pipe the input on stdin"))))
  let old := (← Prog.get).termios
  let echoDisabled ← (if stdin.onTty ∧ stdin.attrsKnown then tcsetattr false { old with echo := false }
    else pure false : ConsoleM Bool)
  if stdin.onTty then say prompt
  let read ← readLoop
  let left ← (if echoDisabled then drainTerminal old else pure false : ConsoleM Bool)
  if stdin.onTty then say [newline]
  Prog.ofExcept (secretLine stdin.onTty left read)

def readPassphrase (stdin : Stdin) (prompt : Bytes) : ConsoleM Bytes := do
  let passphrase ← readSecretLine stdin prompt
  Prog.ofExcept (Prog.throwIf (passphrase = []) (.runtimeError (text "empty passphrase")))
  return passphrase

def readNewPassphrase (stdin : Stdin) (prompt confirmPrompt : Bytes) : ConsoleM Bytes := do
  let passphrase ← readPassphrase stdin prompt
  if stdin.onTty then
    let confirm ← readPassphrase stdin confirmPrompt
    Prog.ofExcept (Prog.throwIf (passphrase ≠ confirm) (.runtimeError (text "passphrases do not match")))
  if passphrase.length < kRecommendedMinPassphraseChars then
    say (text "secretov: warning: new passphrase is shorter than " ++ decimal kRecommendedMinPassphraseChars ++
      text " characters\n")
  return passphrase

/-! A pipe. -/

/-- Reads that give these bytes, one by one, and then no more. -/
inductive Delivers : List ByteRead → Bytes → Prop
  | nil : Delivers [] []
  | interrupted {reads : List ByteRead} {bytes : Bytes} (h : Delivers reads bytes) :
      Delivers (.interrupted :: reads) bytes
  | byte (b : UInt8) {reads : List ByteRead} {bytes : Bytes} (h : Delivers reads bytes) :
      Delivers (.byte b :: reads) (b :: bytes)

/-- Either the line is read and nothing past its newline, or as much as tells that it is too long. -/
theorem Delivers.readBytes {reads : List ByteRead} {bytes line : Bytes} (h : Delivers reads bytes)
    (hline : line.length ≤ kMaxSecretLineBytes) :
    let rest := bytes.takeWhile (· ≠ newline)
    (line.length + rest.length ≤ kMaxSecretLineBytes → ∃ reads',
      readBytes line reads = (⟨line ++ rest, false, none⟩, reads') ∧
      Delivers reads' (bytes.drop (rest.length + 1))) ∧
    (kMaxSecretLineBytes < line.length + rest.length → ∃ kept reads',
      readBytes line reads = (⟨kept, true, none⟩, reads') ∧
        Delivers reads' (bytes.drop (kMaxSecretLineBytes - line.length + 1))) := by
  induction h generalizing line with
  | nil => exact ⟨fun _ => ⟨[], by simp [Secretov.readBytes], .nil⟩,
      fun hlong => absurd hlong (by simpa using hline)⟩
  | interrupted h ih => exact ih hline
  | @byte b reads bytes h ih =>
    by_cases hb : b = newline
    · subst hb
      have hnone : (newline :: bytes).takeWhile (· ≠ newline) = [] := by simp
      simp only [hnone, List.length_nil, Nat.add_zero, List.append_nil, Nat.zero_add, List.drop_succ_cons,
        List.drop_zero]
      exact ⟨fun _ => ⟨reads, by simp [Secretov.readBytes], h⟩, fun hlong => absurd hlong (not_lt.mpr hline)⟩
    have hrest : (b :: bytes).takeWhile (· ≠ newline) = b :: bytes.takeWhile (· ≠ newline) := by simp [hb]
    simp only [hrest, List.length_cons]
    by_cases hfull : line.length = kMaxSecretLineBytes
    · refine ⟨fun hshort => by omega, fun _ => ⟨line, reads, by simp [Secretov.readBytes, hb, hfull], ?_⟩⟩
      rw [hfull, Nat.sub_self]
      exact h
    have hstep : Secretov.readBytes line (.byte b :: reads) = Secretov.readBytes (line ++ [b]) reads := by
      rw [Secretov.readBytes, if_neg hb, if_neg hfull]
    have hlength : (line ++ [b]).length = line.length + 1 := by simp
    obtain ⟨hshort, hlong⟩ := @ih (line ++ [b]) (by omega)
    rw [hlength] at hshort hlong
    refine ⟨fun hle => ?_, fun hlt => ?_⟩
    · obtain ⟨reads', hread, hmore⟩ := hshort (by omega)
      exact ⟨reads', by rw [hstep, hread, List.append_assoc]; rfl, hmore⟩
    · obtain ⟨kept, reads', hread, hmore⟩ := hlong (by omega)
      refine ⟨kept, reads', by rw [hstep, hread], ?_⟩
      have hroom : kMaxSecretLineBytes - line.length = kMaxSecretLineBytes - (line.length + 1) + 1 := by omega
      rw [hroom]
      exact hmore

theorem readSecretLine_piped {stdin : Stdin} (hpipe : stdin.onTty = false) (prompt : Bytes) (s : Console) :
    readSecretLine stdin prompt s =
      (secretLine false false (readBytes [] s.reads).1, { s with reads := (readBytes [] s.reads).2 }) := by
  simp [readSecretLine, hpipe, Prog.throwIf, Prog.bind_apply, readLoop]

/-- Several prompts, one after another. -/
def readSecretLines (stdin : Stdin) : List Bytes → ConsoleM (List Bytes)
  | [] => pure []
  | prompt :: prompts => do
    let value ← readSecretLine stdin prompt
    let values ← readSecretLines stdin prompts
    return value :: values

/-- So many lines from the front, and what is left. A line that is not there is
empty, and there are none if one is too long. -/
def linesOf : Nat → Bytes → Option (List Bytes × Bytes)
  | 0, bytes => some ([], bytes)
  | n + 1, bytes =>
    let line := bytes.takeWhile (· ≠ newline)
    if line.length ≤ kMaxSecretLineBytes then
      (linesOf n (bytes.drop (line.length + 1))).map fun rest => (chomp line :: rest.1, rest.2)
    else none

/-- Prompts on a pipe take one line each, however its bytes arrive, and leave the rest. -/
theorem piped_prompts_take_lines {stdin : Stdin} (hpipe : stdin.onTty = false) (prompts : List Bytes)
    {s : Console} {bytes : Bytes} (h : Delivers s.reads bytes) : match linesOf prompts.length bytes with
      | some (values, more) => ∃ reads, Delivers reads more ∧
          readSecretLines stdin prompts s = (.ok values, { s with reads })
      | none => ∃ reads e, readSecretLines stdin prompts s = (.error e, { s with reads }) := by
  induction prompts generalizing s bytes with
  | nil => exact ⟨s.reads, h, rfl⟩
  | cons prompt prompts ih =>
    have hfirst := readSecretLine_piped hpipe prompt s
    obtain ⟨hshort, hlong⟩ := @Delivers.readBytes _ _ [] h (Nat.zero_le _)
    simp only [List.length_nil, Nat.zero_add, List.nil_append, Nat.sub_zero] at hshort hlong
    simp only [List.length_cons, linesOf, readSecretLines, Prog.bind_apply, hfirst]
    by_cases hfits : (bytes.takeWhile (· ≠ newline)).length ≤ kMaxSecretLineBytes
    · obtain ⟨reads, hread, hmore⟩ := hshort hfits
      have hvalue : secretLine false false ⟨bytes.takeWhile (· ≠ newline), false, none⟩ =
          .ok (chomp (bytes.takeWhile (· ≠ newline))) := rfl
      rw [hread, if_pos hfits]
      simp only [hvalue]
      have hrest := @ih { s with reads } _ hmore
      cases hlines : linesOf prompts.length (bytes.drop ((bytes.takeWhile (· ≠ newline)).length + 1)) with
      | none =>
        rw [hlines] at hrest
        obtain ⟨reads', e, hrun⟩ := hrest
        exact ⟨reads', e, by rw [hrun]⟩
      | some rest =>
        rw [hlines] at hrest
        obtain ⟨reads', hdelivers, hrun⟩ := hrest
        exact ⟨reads', hdelivers, by rw [hrun]; rfl⟩
    · obtain ⟨kept, reads, hread, -⟩ := hlong (not_le.mp hfits)
      rw [hread, if_neg hfits]
      exact ⟨reads, _, rfl⟩

def sampleConsole : Console where
  reads := [.byte 112, .interrupted, .byte 13, .byte newline, .byte 113, .byte newline, .byte 114]
  drains := [.interrupted, .bytes 3, .quiet]
  sets := []
  termios := ⟨true, true, 1, 0, []⟩
  flushes := 0
  stderr := []

theorem piped_prompts_take_lines_sample : ∃ reads, Delivers reads (text "r") ∧
    readSecretLines ⟨false, false, false⟩ [[], []] sampleConsole =
      (.ok [text "p", text "q"], { sampleConsole with reads }) := by
  have hlines : linesOf 2 (text "p\r\nq\nr") = some ([text "p", text "q"], text "r") := by decide
  have h := @piped_prompts_take_lines ⟨false, false, false⟩ rfl [[], []] sampleConsole (text "p\r\nq\nr")
    (.byte _ (.interrupted (.byte _ (.byte _ (.byte _ (.byte _ (.byte _ .nil)))))))
  rw [List.length_cons, List.length_singleton, hlines] at h
  exact h

/-! A terminal. -/

/-- The line that is typed, up to its newline or the end of the input. -/
inductive Typed : List ByteRead → Bytes → Prop
  | nothing : Typed [] []
  | ended (reads : List ByteRead) : Typed (.ended :: reads) []
  | entered (reads : List ByteRead) : Typed (.byte newline :: reads) []
  | interrupted {reads : List ByteRead} {line : Bytes} (h : Typed reads line) : Typed (.interrupted :: reads) line
  | byte {b : UInt8} (hb : b ≠ newline) {reads : List ByteRead} {line : Bytes} (h : Typed reads line) :
      Typed (.byte b :: reads) (b :: line)

theorem Typed.readBytes {reads : List ByteRead} {typed line : Bytes} (h : Typed reads typed)
    (hshort : line.length + typed.length ≤ kMaxSecretLineBytes) :
    (Secretov.readBytes line reads).1 = ⟨line ++ typed, false, none⟩ := by
  induction h generalizing line with
  | nothing | ended reads => simp [Secretov.readBytes]
  | entered reads => simp [Secretov.readBytes]
  | interrupted h ih => exact ih hshort
  | @byte b hb reads typed h ih =>
    rw [List.length_cons] at hshort
    have hroom : line.length ≠ kMaxSecretLineBytes := by omega
    rw [Secretov.readBytes, if_neg hb, if_neg hroom, ih (by simp; omega), List.append_assoc]
    rfl

theorem typed_of_readBytes {reads : List ByteRead} {line line' : Bytes}
    (h : (readBytes line reads).1 = ⟨line', false, none⟩) :
    ∃ typed, Typed reads typed ∧ line' = line ++ typed := by
  induction reads generalizing line with
  | nil =>
    obtain ⟨rfl⟩ := h
    exact ⟨[], .nothing, (List.append_nil _).symm⟩
  | cons read reads ih =>
    cases read with
    | interrupted =>
      obtain ⟨typed, htyped, hline⟩ := ih h
      exact ⟨typed, .interrupted htyped, hline⟩
    | failed errno => cases h
    | ended =>
      obtain ⟨rfl⟩ := h
      exact ⟨[], .ended reads, (List.append_nil _).symm⟩
    | byte b =>
      rw [readBytes] at h
      split_ifs at h with hb hfull
      · subst hb
        obtain ⟨rfl⟩ := h
        exact ⟨[], .entered reads, (List.append_nil _).symm⟩
      · cases h
      · obtain ⟨typed, htyped, rfl⟩ := ih h
        exact ⟨b :: typed, .byte hb htyped, List.append_assoc ..⟩

/-- Nothing is there to be drained. -/
inductive NothingQueued : List DrainRead → Prop
  | nothing : NothingQueued []
  | quiet (drains : List DrainRead) : NothingQueued (.quiet :: drains)
  | failed (drains : List DrainRead) : NothingQueued (.failed :: drains)
  | empty (drains : List DrainRead) : NothingQueued (.bytes 0 :: drains)
  | interrupted {drains : List DrainRead} (h : NothingQueued drains) : NothingQueued (.interrupted :: drains)

theorem drainBytes_found (drained : Nat) (drains : List DrainRead) :
    (drainBytes true drained drains).1 = true := by
  induction drains generalizing drained with
  | nil => rfl
  | cons read drains ih =>
    unfold drainBytes
    split_ifs
    · cases read with
      | interrupted => exact ih drained
      | failed | quiet => rfl
      | bytes n =>
        dsimp only
        split_ifs
        · rfl
        · exact ih _
    · rfl

theorem drainBytes_eq_false {drains : List DrainRead} :
    (drainBytes false 0 drains).1 = false ↔ NothingQueued drains := by
  have hroom : 0 < kMaxDrainBytes := by decide
  induction drains with
  | nil => exact ⟨fun _ => .nothing, fun _ => rfl⟩
  | cons read drains ih =>
    unfold drainBytes
    rw [if_pos hroom]
    cases read with
    | interrupted =>
      constructor
      · exact fun h => .interrupted (ih.mp h)
      · rintro ⟨⟩
        rename_i h
        exact ih.mpr h
    | failed => exact ⟨fun _ => .failed drains, fun _ => rfl⟩
    | quiet => exact ⟨fun _ => .quiet drains, fun _ => rfl⟩
    | bytes n =>
      dsimp only
      split_ifs with hn
      · subst hn
        exact ⟨fun _ => .empty drains, fun _ => rfl⟩
      · rw [drainBytes_found]
        constructor
        · exact fun h => absurd h (by decide)
        · rintro ⟨⟩
          exact absurd rfl hn

theorem secretLine_eq_ok {left : Bool} {read : LineRead} {value : Bytes} : secretLine true left read = .ok value ↔
    read = ⟨read.line, false, none⟩ ∧ read.line.length < kMaxTtyLineBytes ∧ left = false ∧
    value = chomp read.line := by
  obtain ⟨line, tooLong, errno⟩ := read
  by_cases hlong : tooLong = true
  · simp [secretLine, hlong]
  by_cases htruncated : line.length ≥ kMaxTtyLineBytes
  · have hfits : ¬line.length < kMaxTtyLineBytes := not_lt.mpr htruncated
    simp [secretLine, hlong, htruncated, hfits]
  have hfits : line.length < kMaxTtyLineBytes := not_le.mp htruncated
  cases left with
  | true => simp [secretLine, hlong, htruncated]
  | false =>
    cases errno with
    | some errno => simp [secretLine, hlong, htruncated]
    | none => simp [secretLine, hlong, htruncated, hfits, eq_comm]

theorem secretLine_typed {left : Bool} {reads : List ByteRead} {value : Bytes} :
    secretLine true left (readBytes [] reads).1 = .ok value ↔
      ∃ line, Typed reads line ∧ line.length < kMaxTtyLineBytes ∧ left = false ∧ value = chomp line := by
  rw [secretLine_eq_ok]
  constructor
  · rintro ⟨hread, hfits, hleft, hvalue⟩
    obtain ⟨typed, htyped, hline⟩ := typed_of_readBytes hread
    rw [List.nil_append] at hline
    exact ⟨typed, htyped, hline ▸ hfits, hleft, hline ▸ hvalue⟩
  · rintro ⟨line, htyped, hfits, hleft, hvalue⟩
    have hmax : kMaxTtyLineBytes < kMaxSecretLineBytes := by decide
    have hread := @Typed.readBytes _ _ [] htyped (by rw [List.length_nil]; omega)
    rw [hread]
    exact ⟨rfl, hfits, hleft, hvalue⟩

/-- The terminal does not show what is typed. -/
def Stdin.Hides (stdin : Stdin) (s : Console) : Prop :=
  stdin.attrsKnown = true ∧ s.sets.head? ≠ some false

/-- What a terminal gives is exactly a line that was typed, short enough to be whole,
with nothing behind it. However it ends, the terminal is left as it was found, without
what was still queued, unless that call fails. -/
theorem typed_secret_exact {stdin : Stdin} (htty : stdin.onTty = true) (prompt : Bytes) (s : Console) :
    (stdin.inBackground = true → ∃ e, readSecretLine stdin prompt s = (.error e, s)) ∧
    (stdin.inBackground = false →
      (∀ value, (readSecretLine stdin prompt s).1 = .ok value ↔ ∃ line, Typed s.reads line ∧
        line.length < kMaxTtyLineBytes ∧ (stdin.Hides s → s.sets[1]? ≠ some false → NothingQueued s.drains) ∧
          value = chomp line) ∧
      (¬stdin.Hides s → (readSecretLine stdin prompt s).2.termios = s.termios) ∧
      (stdin.Hides s → s.sets[2]? ≠ some false → (readSecretLine stdin prompt s).2.termios = s.termios ∧
        (readSecretLine stdin prompt s).2.flushes = s.flushes + 1)) := by
  refine ⟨fun hback => ⟨_, by simp [readSecretLine, htty, hback, Prog.throwIf, Prog.bind_apply]; rfl⟩,
    fun hfore => ?_⟩
  obtain ⟨reads, drains, sets, termios, flushes, stderr⟩ := s
  by_cases hattrs : stdin.attrsKnown = true
  swap
  · simp [readSecretLine, htty, hfore, hattrs, Prog.throwIf, Prog.bind_apply, readLoop, say, Stdin.Hides,
      secretLine_typed]
  by_cases hhides : sets.head? = some false
  · simp [readSecretLine, htty, hfore, hattrs, hhides, tcsetattr, Prog.throwIf, Prog.bind_apply, readLoop, say,
      Stdin.Hides, secretLine_typed]
  have hpeek : sets.tail.head? = sets[1]? := by rw [List.head?_eq_getElem?, List.getElem?_tail]
  have hrestore : sets.tail.tail.head? = sets[2]? := by
    rw [List.head?_eq_getElem?, List.getElem?_tail, List.getElem?_tail]
  by_cases hpeeks : sets[1]? = some false <;> by_cases hrestores : sets[2]? = some false <;>
    simp [readSecretLine, htty, hfore, hattrs, hhides, hpeek, hrestore, hpeeks, hrestores, tcsetattr,
      drainTerminal, drainLoop, drainBytes_eq_false, Prog.throwIf, Prog.bind_apply, readLoop, say, Stdin.Hides,
      secretLine_typed]

/-- Three bytes more than a line are pasted. -/
theorem typed_secret_exact_sample :
    (∀ value, (readSecretLine ⟨true, false, true⟩ [] sampleConsole).1 ≠ .ok value) ∧
      (readSecretLine ⟨true, false, true⟩ [] sampleConsole).2.termios = sampleConsole.termios := by
  obtain ⟨hvalue, -, hrestored⟩ := (@typed_secret_exact ⟨true, false, true⟩ rfl [] sampleConsole).2 rfl
  refine ⟨fun value hok => ?_, (hrestored ⟨rfl, by decide⟩ (by decide)).1⟩
  obtain ⟨line, -, -, hquiet, -⟩ := (hvalue value).mp hok
  rcases hquiet ⟨rfl, by decide⟩ (by decide) with _ | _ | _ | _ | hquiet
  cases hquiet

end Secretov
