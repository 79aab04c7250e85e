import Mathlib.Data.List.Induction
import Mathlib.Data.List.TakeWhile
import Mathlib.Logic.Function.Basic

/-! The environment of a process. Names and values are C strings: what is passed
for one is read up to its first zero byte. -/

structure CString where
  bytes : List UInt8
  noNul : 0 ∉ bytes
deriving DecidableEq

namespace CString

/-- What C reads of a string. -/
def of (s : List UInt8) : CString where
  bytes := s.takeWhile (· ≠ 0)
  noNul h := by simpa using List.mem_takeWhile_imp h

theorem of_bytes_eq_iff {s : List UInt8} : (of s).bytes = s ↔ 0 ∉ s := by
  constructor
  · intro h
    rw [← h]
    exact (of s).noNul
  · intro h
    refine List.takeWhile_eq_self_iff.mpr fun b hb => ?_
    have hne : b ≠ 0 := fun h0 => h (h0 ▸ hb)
    simpa using hne

theorem of_eq_iff {s s' : List UInt8} (hs : 0 ∉ s) (hs' : 0 ∉ s') : of s = of s' ↔ s = s' := by
  constructor
  · intro h
    have hbytes := congrArg bytes h
    rwa [of_bytes_eq_iff.mpr hs, of_bytes_eq_iff.mpr hs'] at hbytes
  · exact congrArg of

end CString

/-- The last value that a list of assignments gives to a name. -/
def lastOf {α β : Type*} [BEq α] (name : α) (assignments : List (α × β)) : Option β :=
  assignments.reverse.lookup name

section

variable {α β γ : Type*} [BEq α] {name : α}

theorem lastOf_append (xs ys : List (α × β)) :
    lastOf name (xs ++ ys) = (lastOf name ys).or (lastOf name xs) := by
  rw [lastOf, List.reverse_append, List.lookup_append]
  rfl

theorem lastOf_map (f : β → γ) (xs : List (α × β)) :
    lastOf name (xs.map fun x => (x.1, f x.2)) = (lastOf name xs).map f := by
  have hlookup : ∀ ys : List (α × β), (ys.map fun x => (x.1, f x.2)).lookup name = (ys.lookup name).map f := by
    intro ys
    induction ys with
    | nil => rfl
    | cons y ys ih =>
      rw [List.map_cons, List.lookup_cons, List.lookup_cons, ih]
      cases hname : name == y.1 <;> simp
  rw [lastOf, ← List.map_reverse, hlookup, lastOf]

variable [LawfulBEq α]

theorem lastOf_singleton (x : α × β) [Decidable (x.1 = name)] :
    lastOf name [x] = if x.1 = name then some x.2 else none := by
  obtain ⟨a, b⟩ := x
  by_cases h : a = name
  · simp [lastOf, h]
  · have hne : (name == a) = false := by simpa using Ne.symm h
    simp [lastOf, List.lookup_cons, hne, h]

theorem lastOf_eq_none_iff {xs : List (α × β)} : lastOf name xs = none ↔ ∀ x ∈ xs, x.1 ≠ name := by
  rw [lastOf, List.lookup_eq_none_iff]
  simp only [List.mem_reverse, bne_iff_ne]
  exact forall₂_congr fun x _ => ne_comm

theorem mem_of_lastOf {xs : List (α × β)} {value : β} (h : lastOf name xs = some value) : (name, value) ∈ xs := by
  obtain ⟨before, rest, hsplit, -⟩ := List.lookup_eq_some_iff.mp h
  have hmem : (name, value) ∈ xs.reverse := by simp [hsplit]
  simpa using hmem

end

abbrev Environ := CString → Option CString

def equalsSign : UInt8 := 61

/-- What `setenv` takes for a name. -/
def Nameable (name : List UInt8) : Prop :=
  (CString.of name).bytes ≠ [] ∧ equalsSign ∉ (CString.of name).bytes

instance (name : List UInt8) : Decidable (Nameable name) := inferInstanceAs (Decidable (_ ∧ _))

def setenv (environ : Environ) (name value : List UInt8) : Option Environ :=
  if Nameable name then some (Function.update environ (CString.of name) (some (CString.of value))) else none

def setenvAll (environ : Environ) (assignments : List (List UInt8 × List UInt8)) : Option Environ :=
  assignments.foldlM (fun environ item => setenv environ item.1 item.2) environ

theorem setenv_eq_some {environ environ' : Environ} {name value : List UInt8} :
    setenv environ name value = some environ' ↔ Nameable name ∧
      environ' = Function.update environ (CString.of name) (some (CString.of value)) := by
  unfold setenv
  split_ifs with h <;> simp [h, eq_comm]

def asRead (assignments : List (List UInt8 × List UInt8)) : List (CString × CString) :=
  assignments.map fun item => (CString.of item.1, CString.of item.2)

/-- One assignment after another, of names that all can be set: for each name, its last value. -/
theorem setenvAll_eq_some {environ environ' : Environ} {assignments : List (List UInt8 × List UInt8)} :
    setenvAll environ assignments = some environ' ↔ (∀ item ∈ assignments, Nameable item.1) ∧
      environ' = fun name => (lastOf name (asRead assignments)).or (environ name) := by
  induction assignments using List.reverseRecOn generalizing environ' with
  | nil => simp [setenvAll, asRead, lastOf, eq_comm]
  | append_singleton assignments item ih =>
    have hlast : ∀ name, lastOf name (asRead (assignments ++ [item])) =
        (if CString.of item.1 = name then some (CString.of item.2) else none).or
          (lastOf name (asRead assignments)) := by
      intro name
      rw [asRead, List.map_append, lastOf_append, List.map_singleton, lastOf_singleton]
      rfl
    have hstep : ∀ middle : Environ, (middle = fun name => (lastOf name (asRead assignments)).or (environ name)) →
        Function.update middle (CString.of item.1) (some (CString.of item.2)) =
          fun name => (lastOf name (asRead (assignments ++ [item]))).or (environ name) := by
      rintro middle rfl
      funext name
      rw [hlast, Function.update_apply]
      by_cases hname : CString.of item.1 = name
      · simp [hname]
      · simp [hname, Ne.symm hname]
    rw [setenvAll, List.foldlM_append, List.forall_mem_append, List.forall_mem_singleton]
    change (setenvAll environ assignments >>= fun middle => setenv middle item.1 item.2 >>= pure) = _ ↔ _
    constructor
    · intro h
      obtain ⟨middle, hmiddle, h⟩ := Option.bind_eq_some_iff.mp h
      obtain ⟨hnames, hmiddle⟩ := ih.mp hmiddle
      obtain ⟨hname, rfl⟩ := setenv_eq_some.mp ((bind_pure _).symm.trans h)
      exact ⟨⟨hnames, hname⟩, hstep middle hmiddle⟩
    · rintro ⟨⟨hnames, hname⟩, rfl⟩
      refine Option.bind_eq_some_iff.mpr ⟨_, ih.mpr ⟨hnames, rfl⟩, ?_⟩
      rw [bind_pure]
      exact setenv_eq_some.mpr ⟨hname, (hstep _ rfl).symm⟩

/-- Reading names as C strings does not change which is last, where no name has a zero byte. -/
theorem lastOf_asRead {assignments : List (List UInt8 × List UInt8)} (h : ∀ item ∈ assignments, 0 ∉ item.1)
    {name : List UInt8} (hname : 0 ∉ name) :
    lastOf (CString.of name) (asRead assignments) = (lastOf name assignments).map CString.of := by
  induction assignments using List.reverseRecOn with
  | nil => rfl
  | append_singleton assignments item ih =>
    obtain ⟨hrest, hitem⟩ := List.forall_mem_append.mp h
    have hsame := CString.of_eq_iff (hitem item (by simp)) hname
    rw [asRead, List.map_append, lastOf_append, lastOf_append, List.map_singleton, lastOf_singleton,
      lastOf_singleton, ← asRead, ih hrest]
    by_cases hlast : item.1 = name
    · simp [hlast]
    · simp [hlast, hsame]
