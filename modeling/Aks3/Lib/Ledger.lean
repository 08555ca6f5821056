import Aks3.Lib.Prog

/-!
# What a program has on its account

Some operations give a program something to look after, and others take it back: a file it made, a
lock it took. A `Ledger` says which operations are allowed at all and what each of them, with the
answer it got, does to the account. `Kept` says of a program that it asks for nothing else and how
its account stands at the end, whatever it was answered.
-/

set_option autoImplicit false

namespace Aks3.Lib

/-- How operations change an account of type `σ`. -/
structure Ledger (S : Sig) (σ : Type) where
  allowed : S.Op → Prop
  entry : (o : S.Op) → S.Res o → σ → σ

namespace Ledger

variable {S : Sig} {σ α β ε ε' : Type}

/-- A program asks for nothing that is not allowed, and its account ends as `Q` says. -/
def Kept (l : Ledger S σ) (Q : α → σ → Prop) : Prog S α → σ → Prop
  | .pure a, s => Q a s
  | .op o k, s => l.allowed o ∧ ∀ r, l.Kept Q (k r) (l.entry o r s)

/-- An operation that is allowed and makes no entry. -/
def Neutral (l : Ledger S σ) (o : S.Op) : Prop := l.allowed o ∧ ∀ r s, l.entry o r s = s

namespace Kept

variable {l : Ledger S σ} {p : Prog S α} {s : σ} {Q Q' : α → σ → Prop} {P : β → σ → Prop}

theorem pure {a : α} (h : Q a s) : l.Kept Q (Pure.pure a) s := h

theorem call {o : S.Op} {Q : S.Res o → σ → Prop} (ho : l.allowed o)
    (hQ : ∀ r, Q r (l.entry o r s)) : l.Kept Q (Prog.call o) s := ⟨ho, hQ⟩

theorem mono (h : l.Kept Q p s) (hQ : ∀ a s, Q a s → Q' a s) : l.Kept Q' p s := by
  induction p generalizing s with
  | pure a => exact hQ a s h
  | op o k ih => exact ⟨h.1, fun r => ih r (h.2 r)⟩

/-- Operations that make no entry leave the account as it was. -/
theorem of_neutral (h : p.All l.Neutral) : l.Kept (fun _ s' => s' = s) p s := by
  induction p with
  | pure a => rfl
  | op o k ih =>
      refine ⟨h.1.1, fun r => ?_⟩
      rw [h.1.2 r s]
      exact ih r (h.2 r)

theorem bind {f : α → Prog S β} (h : l.Kept Q p s) (hf : ∀ a s, Q a s → l.Kept P (f a) s) :
    l.Kept P (p >>= f) s := by
  induction p generalizing s with
  | pure a => exact hf a s h
  | op o k ih => exact ⟨h.1, fun r => ih r (h.2 r)⟩

theorem with_returns {A : α → Prop} (h : l.Kept Q p s) (ha : p.Returns A) :
    l.Kept (fun a s => Q a s ∧ A a) p s := by
  induction p generalizing s with
  | pure a => exact ⟨h, ha⟩
  | op o k ih => exact ⟨h.1, fun r => ih r (h.2 r) (ha r)⟩

theorem map {f : α → β} (h : l.Kept (fun a => P (f a)) p s) : l.Kept P (f <$> p) s := by
  rw [← bind_pure_comp]
  exact bind h fun a s hP => pure hP

/-- A program that can fail, and goes on only if it does not. -/
theorem bindE {x : ExceptT ε (Prog S) α} {f : α → ExceptT ε (Prog S) β} {Q : Except ε α → σ → Prop}
    {P : Except ε β → σ → Prop} (hx : l.Kept Q x.run s)
    (hf : ∀ a s, Q (.ok a) s → l.Kept P (f a).run s)
    (he : ∀ e s, Q (.error e) s → P (.error e) s) : l.Kept P (x >>= f).run s := by
  rw [ExceptT.run_bind]
  refine bind hx fun r s h => ?_
  cases r with
  | ok a => exact hf a s h
  | error e => exact pure (he e s h)

/-- What comes after a step that cannot fail. -/
theorem bindLift {f : α → ExceptT ε (Prog S) β} {P : Except ε β → σ → Prop}
    (hp : l.Kept Q p s) (hf : ∀ a s, Q a s → l.Kept P (f a).run s) :
    l.Kept P (ExceptT.lift p >>= f).run s := by
  have run : (ExceptT.lift p >>= f).run = p >>= fun a => (f a).run := by
    rw [ExceptT.run_bind, ExceptT.run_lift, bind_map_left]
  rw [run]
  exact bind hp hf

theorem adapt {x : ExceptT ε (Prog S) α} {f : ε → ε'} {P : Except ε' α → σ → Prop}
    (hx : l.Kept (fun r => P (r.mapError f)) x.run s) : l.Kept P (ExceptT.adapt f x).run s :=
  map (f := Except.mapError f) hx

end Kept

end Ledger

end Aks3.Lib
