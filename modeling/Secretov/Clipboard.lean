import Secretov.Json
import Secretov.Lib.Base64
import Secretov.TuiEdit

/-! A secret on its way to the clipboard (tui.cpp, tui_edit.cpp): the escape sequence, the writes
to the terminal, and what a terminal makes of them. -/

namespace Secretov

inductive WriteResult where
  | wrote (n : Nat)
  | interrupted
  | failed (reason : Bytes)

/-- What has come through of the bytes, and how the call ended, if it has. -/
def writeRest : List WriteResult → Bytes → Bytes × Option (Except Error Unit)
  | _, [] => ([], some (.ok ()))
  | [], _ :: _ => ([], none)
  | .interrupted :: results, rest => writeRest results rest
  | .failed reason :: _, _ => ([], some (.error (.runtimeError (text "write to terminal: " ++ reason))))
  | .wrote n :: results, rest =>
    (rest.take n ++ (writeRest results (rest.drop n)).1, (writeRest results (rest.drop n)).2)

def writeToTerminal (opened : Except Bytes Unit) (results : List WriteResult) (bytes : Bytes) :
    Bytes × Option (Except Error Unit) :=
  match opened with
  | .error reason => ([], some (.error (.runtimeError (text "open /dev/tty: " ++ reason))))
  | .ok _ => writeRest results bytes

/-! A terminal. -/

def esc : UInt8 := 27

def bell : UInt8 := 7

def IsPrintable (b : UInt8) : Prop := 32 ≤ b ∧ b < 127

instance (b : UInt8) : Decidable (IsPrintable b) := inferInstanceAs (Decidable (_ ∧ _))

/-- A terminal, with what programs know of its states. -/
structure Terminal where
  State : Type
  receive : State → UInt8 → State
  clipboard : State → Option Bytes
  /-- In the midst of no sequence. -/
  Ground : State → Prop
  /-- An ESC has come. -/
  Escaped : State → Prop
  /-- These bytes of an operating system command have come. -/
  Command : State → Bytes → Prop

/-- What a terminal with OSC 52 promises: ESC and `]` begin a command, which takes
printable characters up to BEL. Command 52 sets the clipboard to what its text stands for. -/
structure Terminal.TakesOsc52 (terminal : Terminal) : Prop where
  escape : ∀ s, terminal.Ground s →
    terminal.Escaped (terminal.receive s esc) ∧ terminal.clipboard (terminal.receive s esc) = terminal.clipboard s
  start : ∀ s, terminal.Escaped s →
    terminal.Command (terminal.receive s 93) [] ∧
    terminal.clipboard (terminal.receive s 93) = terminal.clipboard s
  collect : ∀ s received b, terminal.Command s received → IsPrintable b →
    terminal.Command (terminal.receive s b) (received ++ [b]) ∧
      terminal.clipboard (terminal.receive s b) = terminal.clipboard s
  obey : ∀ s letters value, terminal.Command s (text "52;c;" ++ letters) → Base64.decode letters = some value →
    terminal.Ground (terminal.receive s bell) ∧ terminal.clipboard (terminal.receive s bell) = some value

/-! The writes. -/

theorem writeRest_prefix (results : List WriteResult) (rest : Bytes) : (writeRest results rest).1 <+: rest := by
  fun_induction writeRest results rest with
  | case1 => exact List.prefix_refl _
  | case2 => exact List.nil_prefix
  | case3 _ _ _ ih => exact ih
  | case4 => exact List.nil_prefix
  | case5 n results rest _ ih =>
    have hwhole : rest.take n ++ (writeRest results (rest.drop n)).1 <+: rest.take n ++ rest.drop n :=
      (List.prefix_append_right_inj _).mpr ih
    rwa [List.take_append_drop] at hwhole

/-- A call that returns has written everything, and no other has. -/
theorem writeRest_ok_iff (results : List WriteResult) (rest : Bytes) :
    (writeRest results rest).2 = some (.ok ()) ↔ (writeRest results rest).1 = rest := by
  fun_induction writeRest results rest with
  | case1 => exact iff_of_true rfl rfl
  | case2 => simp
  | case3 _ _ _ ih => exact ih
  | case4 reason _ rest hrest => exact iff_of_false (by simp) fun hnil => hrest hnil.symm
  | case5 n results rest _ ih =>
    dsimp only
    conv_rhs => rhs; rw [← List.take_append_drop n rest]
    rw [List.append_cancel_left_eq]
    exact ih

/-! The terminal. -/

theorem printable_of_decode {letters value : Bytes} (h : Base64.decode letters = some value) :
    ∀ b ∈ letters, IsPrintable b := by
  have hletters : ∀ k : Fin 256, (Base64.sextet (UInt8.ofNat k)).isSome → IsPrintable (UInt8.ofNat k) := by
    decide +kernel
  intro b hb
  rcases Base64.letter_of_decode h b hb with rfl | ⟨n, hn⟩
  · decide
  · have hb := hletters ⟨b.toNat, b.toNat_lt⟩
    rw [UInt8.ofNat_toNat, hn] at hb
    exact hb rfl

section

variable {terminal : Terminal} (hterminal : terminal.TakesOsc52)

include hterminal

theorem receive_command {s : terminal.State} {received bytes : Bytes} (hs : terminal.Command s received)
    (hbytes : ∀ b ∈ bytes, IsPrintable b) :
    terminal.Command (bytes.foldl terminal.receive s) (received ++ bytes) ∧
      terminal.clipboard (bytes.foldl terminal.receive s) = terminal.clipboard s := by
  induction bytes generalizing s received with
  | nil =>
    rw [List.append_nil]
    exact ⟨hs, rfl⟩
  | cons b bytes ih =>
    obtain ⟨hb, hbytes⟩ := List.forall_mem_cons.mp hbytes
    obtain ⟨hnext, hsame⟩ := hterminal.collect s received b hs hb
    obtain ⟨hlast, hkept⟩ := ih hnext hbytes
    rw [List.append_assoc, List.singleton_append] at hlast
    exact ⟨hlast, hkept.trans hsame⟩

theorem receive_begun {s : terminal.State} (hs : terminal.Ground s) {bytes : Bytes}
    (hbytes : ∀ b ∈ bytes, IsPrintable b) :
    terminal.Command ((esc :: 93 :: bytes).foldl terminal.receive s) bytes ∧
      terminal.clipboard ((esc :: 93 :: bytes).foldl terminal.receive s) = terminal.clipboard s := by
  obtain ⟨hescaped, hfirst⟩ := hterminal.escape s hs
  obtain ⟨hstarted, hsecond⟩ := hterminal.start _ hescaped
  obtain ⟨hlast, hkept⟩ := receive_command hterminal hstarted hbytes
  exact ⟨hlast, hkept.trans (hsecond.trans hfirst)⟩

/-- A command that is not ended leaves the clipboard. -/
theorem receive_part {s : terminal.State} (hs : terminal.Ground s) {bytes part : Bytes}
    (hbytes : ∀ b ∈ bytes, IsPrintable b) (hpart : part <+: esc :: 93 :: bytes) :
    terminal.clipboard (part.foldl terminal.receive s) = terminal.clipboard s := by
  cases part with
  | nil => rfl
  | cons first part =>
    obtain ⟨hfirst, hpart⟩ := List.cons_prefix_cons.mp hpart
    rw [hfirst]
    cases part with
    | nil => exact (hterminal.escape s hs).2
    | cons second part =>
      obtain ⟨hsecond, hpart⟩ := List.cons_prefix_cons.mp hpart
      rw [hsecond]
      exact (receive_begun hterminal hs fun b hb => hbytes b (hpart.subset hb)).2

end

/-- However its writes are split or interrupted, a copy that returns has set the clipboard to the
value, byte for byte. One that fails, or is not through yet, has left it. -/
theorem copy_reaches_clipboard {base64 : Bytes → Bytes}
    (hbase64 : ∀ value, Base64.decode (base64 value) = some value) {terminal : Terminal}
    (hterminal : terminal.TakesOsc52) {s : terminal.State} (hs : terminal.Ground s) (opened : Except Bytes Unit)
    (results : List WriteResult) (value : Bytes) :
    let written := writeToTerminal opened results (osc52CopySequence base64 value)
    (written.2 = some (.ok ()) → terminal.Ground (written.1.foldl terminal.receive s) ∧
      terminal.clipboard (written.1.foldl terminal.receive s) = some value) ∧
    (written.2 ≠ some (.ok ()) →
      terminal.clipboard (written.1.foldl terminal.receive s) = terminal.clipboard s) := by
  have hplain : ∀ b ∈ text "52;c;" ++ base64 value, IsPrintable b := by
    intro b hb
    rcases List.mem_append.mp hb with hb | hb
    · have hstart : ∀ b ∈ text "52;c;", IsPrintable b := by decide +kernel
      exact hstart b hb
    · exact printable_of_decode (hbase64 value) b hb
  have hsequence : osc52CopySequence base64 value = esc :: 93 :: (text "52;c;" ++ base64 value) ++ [bell] := rfl
  cases opened with
  | error reason => exact ⟨fun hok => by simp [writeToTerminal] at hok, fun _ => rfl⟩
  | ok _ =>
    have hok := writeRest_ok_iff results (osc52CopySequence base64 value)
    refine ⟨fun hdone => ?_, fun hopen => ?_⟩
    · have hall : (writeToTerminal (.ok ()) results (osc52CopySequence base64 value)).1 = _ := hok.mp hdone
      rw [hall, hsequence, List.foldl_append]
      exact hterminal.obey _ _ _ (receive_begun hterminal hs hplain).1 (hbase64 value)
    · -- BEL comes last, so it has not been written
      have hprefix := writeRest_prefix results (osc52CopySequence base64 value)
      rw [hsequence] at hprefix
      rcases List.prefix_concat_iff.mp hprefix with hsame | hpart
      · exact absurd (hok.mpr (by rw [hsequence, hsame])) hopen
      · exact receive_part hterminal hs hplain hpart

inductive SampleReading where
  | text
  | escaped
  | command (received : Bytes)
  | ending (received : Bytes)
deriving DecidableEq

/-- It ends a command at BEL or at ESC and `\`, and obeys command 52 alone. -/
def sampleTerminal : Terminal where
  State := SampleReading × Option Bytes
  receive s b :=
    let obeyed (received : Bytes) : SampleReading × Option Bytes :=
      (.text, if text "52;c;" <+: received then (Base64.decode (received.drop 5)).or s.2 else s.2)
    match s.1 with
    | .text => (if b = esc then .escaped else .text, s.2)
    | .escaped => (if b = 93 then .command [] else if b = esc then .escaped else .text, s.2)
    | .command received =>
      if b = bell then obeyed received
      else (if b = esc then .ending received else .command (received ++ [b]), s.2)
    | .ending received => if b = 92 then obeyed received else (.text, s.2)
  clipboard s := s.2
  Ground s := s.1 = .text
  Escaped s := s.1 = .escaped
  Command s received := s.1 = .command received

theorem sampleTerminal_takesOsc52 : sampleTerminal.TakesOsc52 where
  escape := by
    rintro ⟨_, clipboard⟩ rfl
    exact ⟨rfl, rfl⟩
  start := by
    rintro ⟨_, clipboard⟩ rfl
    exact ⟨rfl, rfl⟩
  collect := by
    rintro ⟨_, clipboard⟩ received b rfl ⟨hlow, hhigh⟩
    have hbell : b ≠ bell := by
      rintro rfl
      exact absurd hlow (by decide)
    have hesc : b ≠ esc := by
      rintro rfl
      exact absurd hlow (by decide)
    have hreceive : sampleTerminal.receive (.command received, clipboard) b =
        (.command (received ++ [b]), clipboard) := by
      simp [sampleTerminal, hbell, hesc]
    rw [hreceive]
    exact ⟨rfl, rfl⟩
  obey := by
    rintro ⟨_, clipboard⟩ letters value rfl hvalue
    have hletters : (text "52;c;" ++ letters).drop 5 = letters := List.drop_left' rfl
    have hreceive : sampleTerminal.receive (.command (text "52;c;" ++ letters), clipboard) bell =
        (.text, some value) := by
      simp [sampleTerminal, hletters, hvalue]
    rw [hreceive]
    exact ⟨rfl, rfl⟩

/-- "hi" in two writes, and a write that fails midway. -/
theorem copy_reaches_clipboard_sample :
    sampleTerminal.clipboard ((writeToTerminal (.ok ()) [.wrote 3, .interrupted, .wrote 9]
        (osc52CopySequence Base64.encode (text "hi"))).1.foldl sampleTerminal.receive (.text, none)) =
      some (text "hi") ∧
    sampleTerminal.clipboard ((writeToTerminal (.ok ()) [.wrote 8, .failed (text "gone")]
        (osc52CopySequence Base64.encode (text "hi"))).1.foldl sampleTerminal.receive
          (.text, some (text "old"))) = some (text "old") := by
  have hcopy := @copy_reaches_clipboard Base64.encode Base64.decode_encode sampleTerminal
    sampleTerminal_takesOsc52
  exact ⟨((@hcopy (SampleReading.text, none) rfl (.ok ()) _ (text "hi")).1 (by decide +kernel)).2,
    (@hcopy (SampleReading.text, some (text "old")) rfl (.ok ()) _ (text "hi")).2 (by decide +kernel)⟩

end Secretov
