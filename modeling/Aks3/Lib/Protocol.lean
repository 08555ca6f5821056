import Aks3.Lib.Prog

/-!
# Programs that follow a protocol

What a program may ask for often depends on what it did before, and what it is answered tells it
something to count on later. A `Protocol` says both in terms of an account: which operations are
allowed as the account stands, and how it may stand after each answer. `Kept` says of a program that
it follows the protocol whatever it is answered, and how its account stands at the end. The account
is the program's own, so nothing is said here about others that run beside it.
-/

set_option autoImplicit false

namespace Aks3.Lib

/-- Which operations an account allows, and what it can be once they were answered. -/
structure Protocol (S : Sig) (σ : Type) where
  pre : σ → S.Op → Prop
  post : σ → (o : S.Op) → S.Res o → σ → Prop

namespace Protocol

variable {S T : Sig} {σ α β ε ε' : Type}

/-- A program asks only for what is allowed, and its account ends as `Q` says. -/
def Kept (P : Protocol S σ) (Q : α → σ → Prop) : Prog S α → σ → Prop
  | .pure a, s => Q a s
  | .op o k, s => P.pre s o ∧ ∀ r s', P.post s o r s' → P.Kept Q (k r) s'

/-- An operation that is allowed as the account stands, and leaves it as it is. -/
def Silent (P : Protocol S σ) (s : σ) (o : S.Op) : Prop :=
  P.pre s o ∧ ∀ r s', P.post s o r s' → s' = s

namespace Kept

variable {P : Protocol S σ} {p : Prog S α} {s : σ} {Q Q' : α → σ → Prop} {B : β → σ → Prop}

theorem call {o : S.Op} {Q : S.Res o → σ → Prop} (ho : P.pre s o)
    (hQ : ∀ r s', P.post s o r s' → Q r s') : P.Kept Q (Prog.call o) s := ⟨ho, hQ⟩

theorem mono (h : P.Kept Q p s) (hQ : ∀ a s, Q a s → Q' a s) : P.Kept Q' p s := by
  induction p generalizing s with
  | pure a => exact hQ a s h
  | op o k ih => exact ⟨h.1, fun r s' hr => ih r (h.2 r s' hr)⟩

theorem bind {f : α → Prog S β} (h : P.Kept Q p s) (hf : ∀ a s, Q a s → P.Kept B (f a) s) :
    P.Kept B (p >>= f) s := by
  induction p generalizing s with
  | pure a => exact hf a s h
  | op o k ih => exact ⟨h.1, fun r s' hr => ih r (h.2 r s' hr)⟩

/-- What comes before the end of a program follows the protocol by itself. -/
theorem of_bind {f : α → Prog S β} (h : P.Kept B (p >>= f) s) :
    P.Kept (fun a s => P.Kept B (f a) s) p s := by
  induction p generalizing s with
  | pure a => exact h
  | op o k ih => exact ⟨h.1, fun r s' hr => ih r (h.2 r s' hr)⟩

theorem of_silent (h : p.All (P.Silent s)) : P.Kept (fun _ s' => s' = s) p s := by
  induction p with
  | pure a => rfl
  | op o k ih =>
      refine ⟨h.1.1, fun r s' hr => ?_⟩
      obtain rfl := h.1.2 r s' hr
      exact ih r (h.2 r)

theorem with_returns {A : α → Prop} (h : P.Kept Q p s) (ha : p.Returns A) :
    P.Kept (fun a s => Q a s ∧ A a) p s := by
  induction p generalizing s with
  | pure a => exact ⟨h, ha⟩
  | op o k ih => exact ⟨h.1, fun r s' hr => ih r (h.2 r s' hr) (ha r)⟩

end Kept

/-! ## Programs of programs -/

/-- `Kept` for a program whose operations are programs themselves. -/
def KeptBy (P : Protocol T σ) (code : (o : S.Op) → Prog T (S.Res o)) (Q : α → σ → Prop)
    (p : Prog S α) (s : σ) : Prop :=
  P.Kept Q (p.interp code) s

namespace KeptBy

variable {P : Protocol T σ} {code : (o : S.Op) → Prog T (S.Res o)} {p : Prog S α} {s : σ}
  {Q Q' : α → σ → Prop} {B : β → σ → Prop}

theorem pure {a : α} (h : Q a s) : P.KeptBy code Q (Pure.pure a) s := h

theorem call {o : S.Op} {Q : S.Res o → σ → Prop} (h : P.Kept Q (code o) s) :
    P.KeptBy code Q (Prog.call o) s := by
  rw [KeptBy, Prog.interp_call]
  exact h

theorem mono (h : P.KeptBy code Q p s) (hQ : ∀ a s, Q a s → Q' a s) : P.KeptBy code Q' p s :=
  Kept.mono h hQ

theorem of_silent (h : p.All fun o => (code o).All (P.Silent s)) :
    P.KeptBy code (fun _ s' => s' = s) p s :=
  Kept.of_silent h.interp

theorem with_returns {A : α → Prop} (h : P.KeptBy code Q p s) (ha : p.Returns A) :
    P.KeptBy code (fun a s => Q a s ∧ A a) p s :=
  Kept.with_returns h ha.interp

theorem bind {f : α → Prog S β} (h : P.KeptBy code Q p s)
    (hf : ∀ a s, Q a s → P.KeptBy code B (f a) s) : P.KeptBy code B (p >>= f) s := by
  rw [KeptBy, Prog.interp_bind]
  exact Kept.bind h hf

theorem map {f : α → β} (h : P.KeptBy code (fun a => B (f a)) p s) :
    P.KeptBy code B (f <$> p) s := by
  rw [← bind_pure_comp]
  exact bind h fun a s hB => pure hB

/-- A program that can fail, and goes on only if it does not. -/
theorem bindE {x : ExceptT ε (Prog S) α} {f : α → ExceptT ε (Prog S) β} {Q : Except ε α → σ → Prop}
    {B : Except ε β → σ → Prop} (hx : P.KeptBy code Q x.run s)
    (hf : ∀ a s, Q (.ok a) s → P.KeptBy code B (f a).run s)
    (he : ∀ e s, Q (.error e) s → B (.error e) s) : P.KeptBy code B (x >>= f).run s := by
  rw [ExceptT.run_bind]
  refine bind hx fun r s h => ?_
  cases r with
  | ok a => exact hf a s h
  | error e => exact pure (he e s h)

/-- What comes after a step that cannot fail. -/
theorem bindLift {f : α → ExceptT ε (Prog S) β} {B : Except ε β → σ → Prop}
    (hp : P.KeptBy code Q p s) (hf : ∀ a s, Q a s → P.KeptBy code B (f a).run s) :
    P.KeptBy code B (ExceptT.lift p >>= f).run s := by
  have run : (ExceptT.lift p >>= f).run = p >>= fun a => (f a).run := by
    rw [ExceptT.run_bind, ExceptT.run_lift, bind_map_left]
  rw [run]
  exact bind hp hf

theorem adapt {x : ExceptT ε (Prog S) α} {f : ε → ε'} {B : Except ε' α → σ → Prop}
    (hx : P.KeptBy code (fun r => B (r.mapError f)) x.run s) :
    P.KeptBy code B (ExceptT.adapt f x).run s :=
  map (f := Except.mapError f) hx

/-! ### What comes after operations that leave the account as it is -/

theorem after {f : α → Prog S β} (h : p.All fun o => (code o).All (P.Silent s))
    (hf : ∀ a, P.KeptBy code B (f a) s) : P.KeptBy code B (p >>= f) s :=
  bind (of_silent h) fun a _ hs => hs ▸ hf a

theorem afterLift {f : α → ExceptT ε (Prog S) β} {B : Except ε β → σ → Prop}
    (h : p.All fun o => (code o).All (P.Silent s)) (hf : ∀ a, P.KeptBy code B (f a).run s) :
    P.KeptBy code B (ExceptT.lift p >>= f).run s :=
  bindLift (of_silent h) fun a _ hs => hs ▸ hf a

theorem afterE {x : ExceptT ε (Prog S) α} {f : α → ExceptT ε (Prog S) β} {A : α → Prop}
    {B : Except ε β → σ → Prop} (h : x.run.All fun o => (code o).All (P.Silent s))
    (ha : Prog.ReturnsOk A x) (hf : ∀ a, A a → P.KeptBy code B (f a).run s)
    (he : ∀ e, B (.error e) s) : P.KeptBy code B (x >>= f).run s :=
  bindE ((of_silent h).with_returns ha) (fun a _ hs => hs.1 ▸ hf a (hs.2 a rfl))
    fun e _ hs => hs.1 ▸ he e

end KeptBy

end Protocol

end Aks3.Lib
