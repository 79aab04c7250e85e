import Mathlib.Tactic.TypeStar

/-! Programs that ask outside parties questions and go on with the answers. What
such a program may do is told by its paths: the exchanges in order, and the
result they lead to. -/

/-- A program with questions `Q`, the answers to `q` being those of `A q`. -/
inductive Dialogue (Q : Type) (A : Q → Type) (α : Type)
  | done (a : α)
  | ask (q : Q) (next : A q → Dialogue Q A α)

namespace Dialogue

variable {Q σ α β : Type} {A : Q → Type}

def bind : Dialogue Q A α → (α → Dialogue Q A β) → Dialogue Q A β
  | done a, f => f a
  | ask q next, f => ask q fun ans => (next ans).bind f

instance : Monad (Dialogue Q A) where
  pure := done
  bind := bind

/-- A question with the answer it got. -/
structure Exchange (A : Q → Type) where
  question : Q
  answer : A question

inductive Path : Dialogue Q A α → List (Exchange A) → α → Prop
  | done (a : α) : Path (done a) [] a
  | ask {q : Q} {next : A q → Dialogue Q A α} {ans : A q} {exchanges : List (Exchange A)} {a : α} :
      Path (next ans) exchanges a → Path (ask q next) (⟨q, ans⟩ :: exchanges) a

variable {exchanges : List (Exchange A)}

@[simp] theorem path_done {a b : α} : Path (done a : Dialogue Q A α) exchanges b ↔ exchanges = [] ∧ a = b := by
  constructor
  · rintro ⟨⟩
    exact ⟨rfl, rfl⟩
  · rintro ⟨rfl, rfl⟩
    exact .done a

theorem path_ask {q : Q} {next : A q → Dialogue Q A α} {a : α} :
    Path (ask q next) exchanges a ↔
      ∃ ans rest, exchanges = ⟨q, ans⟩ :: rest ∧ Path (next ans) rest a := by
  constructor
  · rintro (_ | h)
    exact ⟨_, _, rfl, h⟩
  · rintro ⟨ans, rest, rfl, h⟩
    exact .ask h

theorem path_bind {d : Dialogue Q A α} {f : α → Dialogue Q A β} {b : β} :
    Path (d >>= f) exchanges b ↔
      ∃ first a rest, exchanges = first ++ rest ∧ Path d first a ∧ Path (f a) rest b := by
  induction d generalizing exchanges with
  | done a =>
    constructor
    · exact fun h => ⟨[], a, exchanges, rfl, .done a, h⟩
    · rintro ⟨first, a', rest, rfl, h, hrest⟩
      obtain ⟨rfl, rfl⟩ := path_done.mp h
      exact hrest
  | ask q next ih =>
    constructor
    · intro h
      obtain ⟨ans, rest, rfl, hnext⟩ := path_ask.mp h
      obtain ⟨first, a, last, rfl, hfirst, hlast⟩ := (ih ans).mp hnext
      exact ⟨_ :: first, a, last, rfl, .ask hfirst, hlast⟩
    · rintro ⟨first, a, rest, rfl, h, hrest⟩
      obtain ⟨ans, first, rfl, hnext⟩ := path_ask.mp h
      exact .ask ((ih ans).mpr ⟨first, a, rest, rfl, hnext, hrest⟩)

/-- The exchanges and the result with these answers. -/
def reply (answer : (q : Q) → A q) : Dialogue Q A α → List (Exchange A) × α
  | done a => ([], a)
  | ask q next =>
    let rest := (next (answer q)).reply answer
    (⟨q, answer q⟩ :: rest.1, rest.2)

theorem path_reply (answer : (q : Q) → A q) (d : Dialogue Q A α) :
    d.Path (d.reply answer).1 (d.reply answer).2 := by
  induction d with
  | done a => exact .done a
  | ask q next ih => exact .ask (ih (answer q))

end Dialogue

/-! Dialogues that carry a state along. -/

namespace StateT

variable {Q σ α β : Type} {A : Q → Type} {exchanges : List (Dialogue.Exchange A)}

open Dialogue

theorem path_pure {a b : α} {s s' : σ} :
    Path ((pure a : StateT σ (Dialogue Q A) α) s) exchanges (b, s') ↔ exchanges = [] ∧ a = b ∧ s = s' := by
  rw [← Prod.mk.injEq]
  exact path_done

theorem path_bind {m : StateT σ (Dialogue Q A) α} {f : α → StateT σ (Dialogue Q A) β} {b : β} {s s' : σ} :
    Path ((m >>= f) s) exchanges (b, s') ↔
      ∃ first a t rest, exchanges = first ++ rest ∧ Path (m s) first (a, t) ∧ Path (f a t) rest (b, s') := by
  constructor
  · intro h
    obtain ⟨first, ⟨a, t⟩, rest, heq, hfirst, hrest⟩ := Dialogue.path_bind.mp h
    exact ⟨first, a, t, rest, heq, hfirst, hrest⟩
  · rintro ⟨first, a, t, rest, heq, hfirst, hrest⟩
    exact Dialogue.path_bind.mpr ⟨first, (a, t), rest, heq, hfirst, hrest⟩

end StateT
