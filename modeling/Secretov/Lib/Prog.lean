import Mathlib.Tactic.SplitIfs
import Mathlib.Tactic.TypeStar

/-! Computations that change a state and may throw. As with exceptions of an
imperative language, a throw undoes nothing: the state stays as it was left. -/

universe u v

/-- A computation with exceptions `ε`, state `σ` and result `α`. -/
def Prog (ε σ : Type u) (α : Type u) : Type u :=
  σ → Except ε α × σ

namespace Prog

variable {ε σ τ α β : Type u}

instance : Monad (Prog ε σ) where
  pure a := fun s => (.ok a, s)
  bind m f := fun s => match m s with
    | (.ok a, s') => f a s'
    | (.error e, s') => (.error e, s')

def get : Prog ε σ σ :=
  fun s => (.ok s, s)

def modify (f : σ → σ) : Prog ε σ PUnit :=
  fun s => (.ok ⟨⟩, f s)

def throw (e : ε) : Prog ε σ α :=
  fun s => (.error e, s)

def ofExcept (r : Except ε α) : Prog ε σ α :=
  fun s => (r, s)

def tryCatch (m : Prog ε σ α) (handler : ε → Prog ε σ α) : Prog ε σ α :=
  fun s => match m s with
    | (.ok a, s') => (.ok a, s')
    | (.error e, s') => handler e s'

/-- Runs `m` on a part of the state. -/
def zoom (part : σ → τ) (put : τ → σ → σ) (m : Prog ε τ α) : Prog ε σ α :=
  fun s => ((m (part s)).1, put (m (part s)).2 s)

@[simp] theorem pure_apply (a : α) (s : σ) : (pure a : Prog ε σ α) s = (.ok a, s) := rfl

@[simp] theorem get_apply (s : σ) : (get : Prog ε σ σ) s = (.ok s, s) := rfl

@[simp] theorem modify_apply (f : σ → σ) (s : σ) : (modify f : Prog ε σ PUnit) s = (.ok ⟨⟩, f s) := rfl

@[simp] theorem throw_apply (e : ε) (s : σ) : (throw e : Prog ε σ α) s = (.error e, s) := rfl

@[simp] theorem ofExcept_apply (r : Except ε α) (s : σ) : (ofExcept r : Prog ε σ α) s = (r, s) := rfl

theorem bind_apply (m : Prog ε σ α) (f : α → Prog ε σ β) (s : σ) :
    (m >>= f) s = match m s with
      | (.ok a, s') => f a s'
      | (.error e, s') => (.error e, s') := rfl

theorem bind_of_ok {m : Prog ε σ α} {f : α → Prog ε σ β} {s s' : σ} {a : α}
    (h : m s = (.ok a, s')) : (m >>= f) s = f a s' := by
  simp only [bind_apply, h]

/-- A sequence that returns has run both of its parts to the end. -/
theorem bind_eq_ok {m : Prog ε σ α} {f : α → Prog ε σ β} {s s' : σ} {b : β} :
    (m >>= f) s = (.ok b, s') ↔ ∃ a t, m s = (.ok a, t) ∧ f a t = (.ok b, s') := by
  rw [bind_apply]
  rcases h : m s with ⟨e | a, t⟩
  · simp
  · constructor
    · exact fun hf => ⟨a, t, rfl, hf⟩
    · rintro ⟨_, _, ⟨⟩, hf⟩
      exact hf

/-- A sequence that throws has thrown in its first part, or in its second after
the first returned. -/
theorem bind_eq_error {m : Prog ε σ α} {f : α → Prog ε σ β} {s s' : σ} {e : ε} :
    (m >>= f) s = (.error e, s') ↔
      m s = (.error e, s') ∨ ∃ a t, m s = (.ok a, t) ∧ f a t = (.error e, s') := by
  rw [bind_apply]
  rcases h : m s with ⟨e' | a, t⟩
  · simp
  · constructor
    · exact fun hf => Or.inr ⟨a, t, rfl, hf⟩
    · rintro (h' | ⟨_, _, ⟨⟩, hf⟩)
      · cases h'
      · exact hf

theorem bind_get {f : σ → Prog ε σ β} {s : σ} : (get >>= f) s = f s s := rfl

theorem bind_modify {g : σ → σ} {f : PUnit → Prog ε σ β} {s : σ} :
    (modify g >>= f) s = f ⟨⟩ (g s) := rfl

theorem bind_ofExcept_eq_ok {r : Except ε α} {f : α → Prog ε σ β} {s s' : σ} {b : β} :
    (ofExcept r >>= f) s = (.ok b, s') ↔ ∃ a, r = .ok a ∧ f a s = (.ok b, s') := by
  cases r <;> simp [bind_apply]

theorem bind_ofExcept_eq_error {r : Except ε α} {f : α → Prog ε σ β} {s s' : σ} {e : ε} :
    (ofExcept r >>= f) s = (.error e, s') ↔
      (r = .error e ∧ s' = s) ∨ ∃ a, r = .ok a ∧ f a s = (.error e, s') := by
  cases r <;> simp [bind_apply, eq_comm]

theorem foldlM_append_eq_ok {f : β → α → Prog ε σ β} {xs ys : List α} {b b' : β} {s s' : σ} :
    (xs ++ ys).foldlM f b s = (.ok b', s') ↔
      ∃ c t, xs.foldlM f b s = (.ok c, t) ∧ ys.foldlM f c t = (.ok b', s') := by
  induction xs generalizing b s with
  | nil =>
    constructor
    · exact fun h => ⟨b, s, rfl, h⟩
    · rintro ⟨_, _, ⟨⟩, h⟩
      exact h
  | cons x xs ih =>
    simp only [List.cons_append, List.foldlM_cons, bind_eq_ok, ih]
    constructor
    · rintro ⟨d, u, hx, c, t, hxs, hys⟩
      exact ⟨c, t, ⟨d, u, hx, hxs⟩, hys⟩
    · rintro ⟨c, t, ⟨d, u, hx, hxs⟩, hys⟩
      exact ⟨d, u, hx, c, t, hxs, hys⟩

theorem except_bind_eq_ok {r : Except ε α} {f : α → Except ε β} {b : β} :
    (r >>= f) = .ok b ↔ ∃ a, r = .ok a ∧ f a = .ok b := by
  cases r <;> simp [bind, Except.bind]

theorem mapError_eq_ok {r : Except ε α} {f : ε → τ} {a : α} (h : r.mapError f = .ok a) : r = .ok a := by
  cases r with
  | ok a' => rw [Except.ok.inj h]
  | error e => cases h

theorem except_exists_of_isOk {r : Except ε α} (h : r.isOk = true) : ∃ a, r = .ok a := by
  cases r with
  | error e => simp [Except.isOk, Except.toBool] at h
  | ok a => exact ⟨a, rfl⟩

/-- `if (c) throw e;`. -/
def throwIf (c : Prop) [Decidable c] (e : ε) : Except ε PUnit.{u + 1} :=
  if c then .error e else .ok ⟨⟩

theorem throwIf_eq_ok {c : Prop} [Decidable c] {e : ε} {r : PUnit} (h : throwIf c e = .ok r) : ¬ c := by
  unfold throwIf at h
  split_ifs at h with hc
  exact hc

/-- A loop that returns has run its body on every item. -/
theorem except_forM_eq_ok {f : α → Except ε PUnit.{u + 1}} {l : List α} {r : PUnit} (h : l.forM f = .ok r) :
    ∀ a ∈ l, f a = .ok ⟨⟩ := by
  induction l with
  | nil => simp
  | cons a l ih =>
    have h : (f a >>= fun _ => l.forM f) = .ok r := h
    obtain ⟨_, ha, h⟩ := except_bind_eq_ok.mp h
    exact List.forall_mem_cons.mpr ⟨ha, ih h⟩

theorem except_mapM_eq_ok {f : α → Except ε β} {l : List α} {bs : List β} (h : l.mapM f = .ok bs) :
    (∀ a ∈ l, ∃ b, f a = .ok b) ∧ ∀ b ∈ bs, ∃ a ∈ l, f a = .ok b := by
  induction l generalizing bs with
  | nil =>
    obtain rfl : [] = bs := Except.ok.inj h
    simp
  | cons a l ih =>
    rw [List.mapM_cons] at h
    obtain ⟨b, ha, h⟩ := except_bind_eq_ok.mp h
    obtain ⟨rest, hl, h⟩ := except_bind_eq_ok.mp h
    obtain rfl : b :: rest = bs := Except.ok.inj h
    obtain ⟨hall, hmem⟩ := ih hl
    refine ⟨List.forall_mem_cons.mpr ⟨⟨b, ha⟩, hall⟩, List.forall_mem_cons.mpr ⟨⟨a, by simp, ha⟩, ?_⟩⟩
    intro b' hb'
    obtain ⟨a', ha', hf⟩ := hmem b' hb'
    exact ⟨a', List.mem_cons_of_mem _ ha', hf⟩

/-- What each turn of a loop takes from its item, the loop takes from the list. -/
theorem except_mapM_map {γ : Type*} {f : α → Except ε β} {g : α → γ} {h : β → γ}
    (hgh : ∀ a b, f a = .ok b → g a = h b) {l : List α} {bs : List β} (hl : l.mapM f = .ok bs) :
    l.map g = bs.map h := by
  induction l generalizing bs with
  | nil =>
    obtain rfl : [] = bs := Except.ok.inj hl
    rfl
  | cons a l ih =>
    rw [List.mapM_cons] at hl
    obtain ⟨b, ha, hl⟩ := except_bind_eq_ok.mp hl
    obtain ⟨rest, hrest, hl⟩ := except_bind_eq_ok.mp hl
    obtain rfl : b :: rest = bs := Except.ok.inj hl
    rw [List.map_cons, List.map_cons, hgh a b ha, ih hrest]

/-- An accumulating loop keeps what each turn keeps, and has made every turn. -/
theorem except_foldlM_eq_ok {f : β → α → Except ε β} {l : List α} (P : β → Prop) {b b' : β}
    (hstep : ∀ b a b', a ∈ l → P b → f b a = .ok b' → P b') (hb : P b) (h : l.foldlM f b = .ok b') :
    P b' ∧ ∀ a ∈ l, ∃ b c, P b ∧ f b a = .ok c := by
  induction l generalizing b with
  | nil =>
    obtain rfl : b = b' := Except.ok.inj h
    simp [hb]
  | cons a l ih =>
    rw [List.foldlM_cons] at h
    obtain ⟨c, hc, h⟩ := except_bind_eq_ok.mp h
    have hPc : P c := hstep b a c (by simp) hb hc
    obtain ⟨hlast, hall⟩ := ih (fun b a b' ha => hstep b a b' (List.mem_cons_of_mem _ ha)) hPc h
    exact ⟨hlast, List.forall_mem_cons.mpr ⟨⟨b, c, hb, hc⟩, hall⟩⟩

end Prog
