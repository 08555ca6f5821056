import Mathlib

/-!
# Programs over a signature of operations

A program is a tree whose inner nodes are operations and whose branches are the
results an operation can return. It fixes what a piece of code asks of its
surroundings and in which order, and leaves open what an operation does. The
same program can therefore be run by a function on states (`run`), be refined
by giving each operation a program of smaller operations (`interp`), or be
advanced one operation at a time among other programs.

Programs are finite in depth, so a run always ends; a loop whose number of
rounds the code does not bound takes its bound from an operation.
-/

set_option autoImplicit false

namespace Aks3.Lib

/-- Operations, each with the type of its results. -/
structure Sig where
  Op : Type
  Res : Op → Type

/-- A program that returns a value of type `α`. -/
inductive Prog (S : Sig) (α : Type) : Type where
  | pure (a : α)
  | op (o : S.Op) (k : S.Res o → Prog S α)

namespace Prog

variable {S T : Sig} {α β γ W : Type}

/-- One operation and its result. -/
def call (o : S.Op) : Prog S (S.Res o) := .op o .pure

def bind : Prog S α → (α → Prog S β) → Prog S β
  | .pure a, f => f a
  | .op o k, f => .op o fun r => (k r).bind f

instance : Monad (Prog S) where
  pure := .pure
  bind := bind

@[simp] theorem bind_eq (p : Prog S α) (f : α → Prog S β) : p.bind f = p >>= f := rfl

@[simp] theorem pure_bind' (a : α) (f : α → Prog S β) : (Prog.pure a : Prog S α) >>= f = f a := rfl

@[simp] theorem op_bind (o : S.Op) (k : S.Res o → Prog S α) (f : α → Prog S β) :
    (Prog.op o k >>= f) = .op o fun r => k r >>= f := rfl

@[simp] theorem call_bind (o : S.Op) (f : S.Res o → Prog S β) : (call o >>= f) = .op o f := rfl

theorem bind_assoc' (p : Prog S α) (f : α → Prog S β) (g : β → Prog S γ) :
    (p >>= f) >>= g = p >>= fun a => f a >>= g := by
  induction p with
  | pure a => rfl
  | op o k ih =>
      simp only [op_bind]
      congr 1
      funext r
      exact ih r

theorem bind_pure' (p : Prog S α) : (p >>= Prog.pure) = p := by
  induction p with
  | pure a => rfl
  | op o k ih =>
      simp only [op_bind]
      congr 1
      funext r
      exact ih r

instance : LawfulMonad (Prog S) :=
  LawfulMonad.mk' (Prog S) (fun p => bind_pure' p) (fun _ _ => rfl)
    (fun p f g => bind_assoc' p f g)

/-! ## Running a program on a state -/

/-- Run a program, each operation acting on the state as `exec` says. -/
def run (exec : (o : S.Op) → W → S.Res o × W) : Prog S α → W → α × W
  | .pure a, w => (a, w)
  | .op o k, w => (k (exec o w).1).run exec (exec o w).2

variable {exec : (o : S.Op) → W → S.Res o × W}

@[simp] theorem run_pure (a : α) (w : W) : (Pure.pure a : Prog S α).run exec w = (a, w) := rfl

@[simp] theorem run_pure' (a : α) (w : W) : (Prog.pure a : Prog S α).run exec w = (a, w) := rfl

@[simp] theorem run_op (o : S.Op) (k : S.Res o → Prog S α) (w : W) :
    (Prog.op o k).run exec w = (k (exec o w).1).run exec (exec o w).2 := rfl

@[simp] theorem run_call (o : S.Op) (w : W) : (call o : Prog S (S.Res o)).run exec w = exec o w :=
  rfl

@[simp] theorem run_bind (p : Prog S α) (f : α → Prog S β) (w : W) :
    (p >>= f).run exec w = (f (p.run exec w).1).run exec (p.run exec w).2 := by
  induction p generalizing w with
  | pure a => rfl
  | op o k ih =>
      simp only [op_bind, run_op]
      exact ih _ _

@[simp] theorem run_map (p : Prog S α) (f : α → β) (w : W) :
    (f <$> p).run exec w = (f (p.run exec w).1, (p.run exec w).2) := by
  rw [← bind_pure_comp, run_bind]
  rfl

/-! ### Programs that can fail -/

section Except

variable {ε ε' : Type} {w w' : W}

/-- A program that succeeds goes on with its value. -/
theorem run_bind_ok {x : ExceptT ε (Prog S) α} {f : α → ExceptT ε (Prog S) β} {a : α}
    (h : x.run.run exec w = (.ok a, w')) :
    (x >>= f).run.run exec w = (f a).run.run exec w' := by
  rw [ExceptT.run_bind, run_bind, h]

/-- A program that fails stops there. -/
theorem run_bind_error {x : ExceptT ε (Prog S) α} {f : α → ExceptT ε (Prog S) β} {e : ε}
    (h : x.run.run exec w = (.error e, w')) :
    (x >>= f).run.run exec w = (.error e, w') := by
  rw [ExceptT.run_bind, run_bind, h]
  rfl

/-- A sequence that succeeds is made of parts that do. -/
theorem ok_of_bind {x : ExceptT ε (Prog S) α} {f : α → ExceptT ε (Prog S) β} {b : β}
    (h : (x >>= f).run.run exec w = (.ok b, w')) :
    ∃ a w₁, x.run.run exec w = (.ok a, w₁) ∧ (f a).run.run exec w₁ = (.ok b, w') := by
  generalize hx : x.run.run exec w = y
  obtain ⟨r, w₁⟩ := y
  cases r with
  | error e =>
      rw [run_bind_error hx] at h
      cases h
  | ok a => exact ⟨a, w₁, rfl, (run_bind_ok hx).symm.trans h⟩

theorem run_bind_lift {p : Prog S α} {f : α → ExceptT ε (Prog S) β} {a : α}
    (h : p.run exec w = (a, w')) :
    (ExceptT.lift p >>= f).run.run exec w = (f a).run.run exec w' := by
  refine run_bind_ok ?_
  rw [ExceptT.run_lift, run_map, h]

@[simp] theorem run_pureE (a : α) :
    (Pure.pure a : ExceptT ε (Prog S) α).run.run exec w = (.ok a, w) := rfl

@[simp] theorem run_throw (e : ε) :
    (throw e : ExceptT ε (Prog S) α).run.run exec w = (.error e, w) := rfl

@[simp] theorem run_mk (p : Prog S (Except ε α)) :
    (ExceptT.mk p).run.run exec w = p.run exec w := rfl

/-- A value that is only mapped. -/
theorem run_bind_pure (f : α → β) (x : ExceptT ε (Prog S) α) :
    (x >>= fun a => Pure.pure (f a)).run.run exec w =
      ((x.run.run exec w).1.map f, (x.run.run exec w).2) := by
  rw [ExceptT.run_bind, run_bind]
  cases (x.run.run exec w).1 <;> rfl

theorem ok_of_bind_pure {f : α → β} (hf : Function.Injective f) {x : ExceptT ε (Prog S) α} {a : α}
    (h : (x >>= fun a => Pure.pure (f a)).run.run exec w = (.ok (f a), w')) :
    x.run.run exec w = (.ok a, w') := by
  rw [run_bind_pure] at h
  generalize x.run.run exec w = y at h ⊢
  obtain ⟨r, w₁⟩ := y
  cases r with
  | error e => cases h
  | ok c =>
      obtain ⟨hc, rfl⟩ := Prod.mk.inj h
      rw [hf (Except.ok.inj hc)]

theorem error_of_bind_pure {f : α → β} {x : ExceptT ε (Prog S) α} {e : ε}
    (h : (x >>= fun a => Pure.pure (f a)).run.run exec w = (.error e, w')) :
    x.run.run exec w = (.error e, w') := by
  rw [run_bind_pure] at h
  generalize x.run.run exec w = y at h ⊢
  obtain ⟨r, w₁⟩ := y
  cases r <;> cases h
  rfl

theorem run_adapt (f : ε → ε') (x : ExceptT ε (Prog S) α) :
    (ExceptT.adapt f x).run.run exec w =
      ((x.run.run exec w).1.mapError f, (x.run.run exec w).2) := by
  change ((Except.mapError f) <$> x.run).run exec w = _
  rw [run_map]

end Except

/-! ## What a program can ask for -/

/-- Every operation a program can come to, whatever the results, has a property. -/
def All (P : S.Op → Prop) : Prog S α → Prop
  | .pure _ => True
  | .op o k => P o ∧ ∀ r, (k r).All P

section All

variable {P : S.Op → Prop} {ε ε' : Type}

theorem all_pure (a : α) : (Pure.pure a : Prog S α).All P := trivial

theorem all_call {o : S.Op} (h : P o) : (call o : Prog S (S.Res o)).All P := ⟨h, fun _ => trivial⟩

theorem All.bind {p : Prog S α} {f : α → Prog S β} (hp : p.All P) (hf : ∀ a, (f a).All P) :
    (p >>= f).All P := by
  induction p with
  | pure a => exact hf a
  | op o k ih => exact ⟨hp.1, fun r => ih r (hp.2 r)⟩

theorem All.map {p : Prog S α} {f : α → β} (hp : p.All P) : (f <$> p).All P := by
  rw [← bind_pure_comp]
  exact hp.bind fun a => all_pure _

theorem All.mono {Q : S.Op → Prop} {p : Prog S α} (hp : p.All P) (h : ∀ o, P o → Q o) :
    p.All Q := by
  induction p with
  | pure a => trivial
  | op o k ih => exact ⟨h o hp.1, fun r => ih r (hp.2 r)⟩

theorem all_pureE (a : α) : (Pure.pure a : ExceptT ε (Prog S) α).run.All P := trivial

theorem all_throw (e : ε) : (throw e : ExceptT ε (Prog S) α).run.All P := trivial

theorem All.bindE {x : ExceptT ε (Prog S) α} {f : α → ExceptT ε (Prog S) β} (hx : x.run.All P)
    (hf : ∀ a, (f a).run.All P) : (x >>= f).run.All P := by
  rw [ExceptT.run_bind]
  refine hx.bind fun a => ?_
  cases a with
  | ok a => exact hf a
  | error e => trivial

theorem All.lift {p : Prog S α} (hp : p.All P) :
    (ExceptT.lift p : ExceptT ε (Prog S) α).run.All P := by
  rw [ExceptT.run_lift]
  exact hp.map

theorem All.mk {p : Prog S (Except ε α)} (hp : p.All P) : (ExceptT.mk p).run.All P := hp

theorem All.adapt {x : ExceptT ε (Prog S) α} {f : ε → ε'} (hx : x.run.All P) :
    (ExceptT.adapt f x).run.All P := by
  change ((Except.mapError f) <$> x.run).All P
  exact hx.map

/-- Every result of a program, whatever those of its operations, has a property. -/
def Returns (Q : α → Prop) : Prog S α → Prop
  | .pure a => Q a
  | .op _ k => ∀ r, (k r).Returns Q

theorem returns_of {Q : α → Prop} (h : ∀ a, Q a) (p : Prog S α) : p.Returns Q := by
  induction p with
  | pure a => exact h a
  | op o k ih => exact ih

theorem Returns.bind {Q : α → Prop} {Q' : β → Prop} {p : Prog S α} {f : α → Prog S β}
    (hp : p.Returns Q) (hf : ∀ a, Q a → (f a).Returns Q') : (p >>= f).Returns Q' := by
  induction p with
  | pure a => exact hf a hp
  | op o k ih => exact fun r => ih r (hp r)

/-- A property of the value of a program that can fail. -/
abbrev ReturnsOk (Q : α → Prop) (x : ExceptT ε (Prog S) α) : Prop :=
  x.run.Returns fun r => ∀ a, r = .ok a → Q a

theorem ReturnsOk.bind {Q : α → Prop} {Q' : β → Prop} {x : ExceptT ε (Prog S) α}
    {f : α → ExceptT ε (Prog S) β} (hx : ReturnsOk Q x) (hf : ∀ a, Q a → ReturnsOk Q' (f a)) :
    ReturnsOk Q' (x >>= f) := by
  unfold ReturnsOk
  rw [ExceptT.run_bind]
  refine Returns.bind hx fun r hr => ?_
  cases r with
  | ok a => exact hf a (hr a rfl)
  | error e => exact fun a h => nomatch h

theorem ReturnsOk.adapt {Q : α → Prop} {x : ExceptT ε (Prog S) α} {f : ε → ε'}
    (hx : ReturnsOk Q x) : ReturnsOk Q (ExceptT.adapt f x) := by
  change Returns _ ((Except.mapError f) <$> x.run)
  rw [← bind_pure_comp]
  refine Returns.bind hx fun r hr => ?_
  cases r with
  | ok a => exact fun a' h => hr a' (congrArg Except.ok (Except.ok.inj h))
  | error e => exact fun a h => nomatch (h : Except.error (f e) = Except.ok a)

theorem returnsOk_pure {Q : α → Prop} {a : α} (h : Q a) :
    ReturnsOk Q (Pure.pure a : ExceptT ε (Prog S) α) :=
  fun _ ha => Except.ok.inj ha ▸ h

theorem returnsOk_throw {Q : α → Prop} (e : ε) :
    ReturnsOk Q (throw e : ExceptT ε (Prog S) α) :=
  fun _ h => nomatch (h : Except.error e = Except.ok _)

/-- A program whose continuation counts on a property of the result. -/
theorem All.bind_of {Q : α → Prop} {p : Prog S α} {f : α → Prog S β} (hp : p.All P)
    (hq : p.Returns Q) (hf : ∀ a, Q a → (f a).All P) : (p >>= f).All P := by
  induction p with
  | pure a => exact hf a hq
  | op o k ih => exact ⟨hp.1, fun r => ih r (hp.2 r) (hq r)⟩

theorem All.bindE_of {Q : α → Prop} {x : ExceptT ε (Prog S) α} {f : α → ExceptT ε (Prog S) β}
    (hx : x.run.All P) (hq : ReturnsOk Q x)
    (hf : ∀ a, Q a → (f a).run.All P) : (x >>= f).run.All P := by
  rw [ExceptT.run_bind]
  refine hx.bind_of hq fun r hr => ?_
  cases r with
  | ok a => exact hf a (hr a rfl)
  | error e => trivial

end All

/-! ## Programs in terms of smaller operations -/

/-- Replace every operation by a program. -/
def interp (code : (o : S.Op) → Prog T (S.Res o)) : Prog S α → Prog T α
  | .pure a => .pure a
  | .op o k => code o >>= fun r => (k r).interp code

variable {code : (o : S.Op) → Prog T (S.Res o)}

@[simp] theorem interp_pure (a : α) : (Pure.pure a : Prog S α).interp code = Pure.pure a := rfl

@[simp] theorem interp_op (o : S.Op) (k : S.Res o → Prog S α) :
    (Prog.op o k).interp code = code o >>= fun r => (k r).interp code := rfl

@[simp] theorem interp_call (o : S.Op) : (call o : Prog S (S.Res o)).interp code = code o := by
  simp only [call, interp_op]
  exact bind_pure' (code o)

@[simp] theorem interp_bind (p : Prog S α) (f : α → Prog S β) :
    (p >>= f).interp code = p.interp code >>= fun a => (f a).interp code := by
  induction p with
  | pure a => rfl
  | op o k ih =>
      simp only [op_bind, interp_op, bind_assoc]
      congr 1
      funext r
      exact ih r

/-- Running a refined program is running the program with each operation run as its code. -/
theorem run_interp {exec : (o : T.Op) → W → T.Res o × W} (p : Prog S α) (w : W) :
    (p.interp code).run exec w = p.run (fun o w => (code o).run exec w) w := by
  induction p generalizing w with
  | pure a => rfl
  | op o k ih =>
      simp only [interp_op, run_bind, run_op]
      exact ih _ _

/-- What each operation's code can ask for, the refined program can. -/
theorem All.interp {P : T.Op → Prop} {p : Prog S α} (h : p.All fun o => (code o).All P) :
    (p.interp code).All P := by
  induction p with
  | pure a => trivial
  | op o k ih => exact h.1.bind fun r => ih r (h.2 r)

theorem Returns.interp {Q : α → Prop} {p : Prog S α} (h : p.Returns Q) :
    (p.interp code).Returns Q := by
  induction p with
  | pure a => exact h
  | op o k ih =>
      exact (returns_of (fun _ => trivial) (code o)).bind (Q := fun _ => True) fun r _ => ih r (h r)

end Prog

end Aks3.Lib
