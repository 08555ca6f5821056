import Aks3.Lib.Prog

/-!
# The states a run passes through

A run can be cut off before any of its operations. `Visits` lists the states it can be cut
off in. `Along` says that all of them satisfy one property and that the last one satisfies a
postcondition; its rules follow the structure of a program. A property that every operation
of a program keeps holds along it (`Along.of_all`). To speak of what has been asked for so
far, the operations can be logged in the state (`logged`).
-/

set_option autoImplicit false

namespace Aks3.Lib.Prog

variable {S T : Sig} {α β W : Type} {exec : (o : S.Op) → W → S.Res o × W}

/-- A state a run passes through, the first and the last included. -/
inductive Visits (exec : (o : S.Op) → W → S.Res o × W) : Prog S α → W → W → Prop where
  | here (p : Prog S α) (w : W) : Visits exec p w w
  | step {o : S.Op} {k : S.Res o → Prog S α} {w w' : W}
      (rest : Visits exec (k (exec o w).1) (exec o w).2 w') : Visits exec (.op o k) w w'

theorem visits_run (exec : (o : S.Op) → W → S.Res o × W) (p : Prog S α) (w : W) :
    Visits exec p w (p.run exec w).2 := by
  induction p generalizing w with
  | pure a => exact .here _ w
  | op o k ih => exact .step (ih _ _)

/-- The state after a number of operations. -/
def cut (exec : (o : S.Op) → W → S.Res o × W) : Nat → Prog S α → W → W
  | 0, _, w => w
  | _ + 1, .pure _, w => w
  | n + 1, .op o k, w => cut exec n (k (exec o w).1) (exec o w).2

theorem visits_cut (exec : (o : S.Op) → W → S.Res o × W) : ∀ (n : Nat) (p : Prog S α) (w : W),
    Visits exec p w (cut exec n p w)
  | 0, p, w => .here p w
  | _ + 1, .pure _, w => .here _ w
  | n + 1, .op _ _, _ => .step (visits_cut exec n _ _)

/-- A state of a sequence is one of its first part, or of its second. -/
theorem visits_bind {p : Prog S α} {f : α → Prog S β} {w w' : W} (h : Visits exec (p >>= f) w w') :
    Visits exec p w w' ∨ Visits exec (f (p.run exec w).1) (p.run exec w).2 w' := by
  induction p generalizing w with
  | pure a => exact .inr h
  | op o k ih =>
      cases h with
      | here => exact .inl (.here _ _)
      | step rest => exact (ih _ rest).imp_left .step

/-- Every state of the run is in `I`, and the last one meets `Q` with what is returned. -/
structure Along (exec : (o : S.Op) → W → S.Res o × W) (I : W → Prop) (p : Prog S α) (w : W)
    (Q : α → W → Prop) : Prop where
  visits : ∀ w', Visits exec p w w' → I w'
  post : Q (p.run exec w).1 (p.run exec w).2

namespace Along

variable {I : W → Prop} {p : Prog S α} {w : W} {Q Q' : α → W → Prop} {R : β → W → Prop}

theorem pure {a : α} (hI : I w) (hQ : Q a w) : Along exec I (Pure.pure a) w Q where
  visits := by
    intro w' h
    cases h
    exact hI
  post := hQ

theorem bind {f : α → Prog S β} (hp : Along exec I p w Q)
    (hf : ∀ a w', Q a w' → Along exec I (f a) w' R) : Along exec I (p >>= f) w R where
  visits := fun w' h => (visits_bind h).elim (hp.visits w') ((hf _ _ hp.post).visits w')
  post := by
    rw [run_bind]
    exact (hf _ _ hp.post).post

theorem mono (hp : Along exec I p w Q) (h : ∀ a w', Q a w' → Q' a w') : Along exec I p w Q' :=
  ⟨hp.visits, h _ _ hp.post⟩

theorem last (hp : Along exec I p w Q) : I (p.run exec w).2 := hp.visits _ (visits_run exec p w)

theorem call {o : S.Op} {Q : S.Res o → W → Prop} (hI : I w) (hI' : I (exec o w).2)
    (hQ : Q (exec o w).1 (exec o w).2) : Along exec I (Prog.call o) w Q where
  visits := by
    intro w' h
    cases h with
    | here => exact hI
    | step rest =>
        cases rest
        exact hI'
  post := hQ

/-- What every operation of a program keeps holds along it. -/
theorem of_all {P : S.Op → Prop} {J : W → Prop} (hp : p.All P)
    (keeps : ∀ o w, P o → J w → J (exec o w).2) (hJ : ∀ w, J w → I w) (hw : J w) :
    Along exec I p w fun _ w' => J w' := by
  induction p generalizing w with
  | pure a => exact .pure (hJ w hw) hw
  | op o k ih =>
      have next := ih _ (hp.2 (exec o w).1) (keeps o w hp.1 hw)
      refine ⟨fun w' h => ?_, next.post⟩
      cases h with
      | here => exact hJ w hw
      | step rest => exact next.visits w' rest

end Along

/-! ## Logging the operations -/

/-- Run an operation and write it down. -/
def logged (exec : (o : S.Op) → W → S.Res o × W) (o : S.Op) (s : W × List S.Op) :
    S.Res o × (W × List S.Op) :=
  ((exec o s.1).1, ((exec o s.1).2, s.2 ++ [o]))

theorem run_logged (exec : (o : S.Op) → W → S.Res o × W) (p : Prog S α) (s : W × List S.Op) :
    (p.run (logged exec) s).1 = (p.run exec s.1).1 ∧
      (p.run (logged exec) s).2.1 = (p.run exec s.1).2 := by
  induction p generalizing s with
  | pure a => exact ⟨rfl, rfl⟩
  | op o k ih => exact ih _ _

/-! ## Refined programs -/

theorem Returns.run {Q : α → Prop} {p : Prog S α} (h : p.Returns Q)
    (exec : (o : S.Op) → W → S.Res o × W) (w : W) : Q (p.run exec w).1 := by
  induction p generalizing w with
  | pure a => exact h
  | op o k ih => exact ih _ (h _) _

/-- `Along` for a program whose operations are programs themselves: it can be cut off within
an operation. -/
def Passes (code : (o : S.Op) → Prog T (S.Res o)) (exec : (o : T.Op) → W → T.Res o × W)
    (I : W → Prop) (p : Prog S α) (w : W) (Q : α → W → Prop) : Prop :=
  Along exec I (p.interp code) w Q

namespace Passes

variable {code : (o : S.Op) → Prog T (S.Res o)} {exec : (o : T.Op) → W → T.Res o × W}
  {I : W → Prop} {p : Prog S α} {w : W} {Q Q' : α → W → Prop} {R : β → W → Prop} {ε ε' : Type}

theorem pure {a : α} (hI : I w) (hQ : Q a w) : Passes code exec I (Pure.pure a) w Q :=
  Along.pure hI hQ

theorem call {o : S.Op} {Q : S.Res o → W → Prop} (h : Along exec I (code o) w Q) :
    Passes code exec I (Prog.call o) w Q := by
  rw [Passes, interp_call]
  exact h

theorem bind {f : α → Prog S β} (hp : Passes code exec I p w Q)
    (hf : ∀ a w', Q a w' → Passes code exec I (f a) w' R) : Passes code exec I (p >>= f) w R := by
  rw [Passes, interp_bind]
  exact Along.bind hp hf

theorem mono (hp : Passes code exec I p w Q) (h : ∀ a w', Q a w' → Q' a w') :
    Passes code exec I p w Q' := Along.mono hp h

theorem weaken {I' : W → Prop} (hp : Passes code exec I p w Q) (h : ∀ w, I w → I' w) :
    Passes code exec I' p w Q := ⟨fun w' hw => h w' (hp.visits w' hw), hp.post⟩

theorem last (hp : Passes code exec I p w Q) : Passes code exec I p w fun a w' => Q a w' ∧ I w' :=
  ⟨hp.visits, hp.post, Along.last hp⟩

theorem with_run (hp : Passes code exec I p w Q) : Passes code exec I p w fun a w' =>
    Q a w' ∧ p.run (fun o w => (code o).run exec w) w = (a, w') := by
  refine ⟨hp.visits, hp.post, ?_⟩
  rw [run_interp]

theorem with_returns {A : α → Prop} (hp : Passes code exec I p w Q) (h : p.Returns A) :
    Passes code exec I p w fun a w' => Q a w' ∧ A a := by
  refine hp.with_run.mono fun a w' hq => ⟨hq.1, ?_⟩
  have := h.run (fun o w => (code o).run exec w) w
  rwa [hq.2] at this

theorem of_all {P : T.Op → Prop} {J : W → Prop} (hp : p.All fun o => (code o).All P)
    (keeps : ∀ o w, P o → J w → J (exec o w).2) (hJ : ∀ w, J w → I w) (hw : J w) :
    Passes code exec I p w fun _ w' => J w' := Along.of_all hp.interp keeps hJ hw

theorem map {f : α → β} (hp : Passes code exec I p w fun a w' => R (f a) w') :
    Passes code exec I (f <$> p) w R := by
  rw [← bind_pure_comp]
  exact hp.last.bind fun a w' h => .pure h.2 h.1

theorem pureE {a : α} {Q : Except ε α → W → Prop} (hI : I w) (hQ : Q (.ok a) w) :
    Passes code exec I (Pure.pure a : ExceptT ε (Prog S) α).run w Q := .pure hI hQ

theorem throw {e : ε} {Q : Except ε α → W → Prop} (hI : I w) (hQ : Q (.error e) w) :
    Passes code exec I (MonadExcept.throw e : ExceptT ε (Prog S) α).run w Q := .pure hI hQ

/-- A program that can fail, and goes on only if it does not. -/
theorem bindE {x : ExceptT ε (Prog S) α} {f : α → ExceptT ε (Prog S) β}
    {Q : Except ε α → W → Prop} {R : Except ε β → W → Prop} (hx : Passes code exec I x.run w Q)
    (hf : ∀ a w', Q (.ok a) w' → Passes code exec I (f a).run w' R)
    (he : ∀ e w', Q (.error e) w' → R (.error e) w') : Passes code exec I (x >>= f).run w R := by
  rw [ExceptT.run_bind]
  refine hx.last.bind fun r w' h => ?_
  cases r with
  | ok a => exact hf a w' h.1
  | error e => exact .pure h.2 (he e w' h.1)

theorem lift {Q : Except ε α → W → Prop} (hp : Passes code exec I p w fun a w' => Q (.ok a) w') :
    Passes code exec I (ExceptT.lift p : ExceptT ε (Prog S) α).run w Q := by
  rw [ExceptT.run_lift]
  exact hp.map

theorem adapt {x : ExceptT ε (Prog S) α} {f : ε → ε'} {Q : Except ε' α → W → Prop}
    (hx : Passes code exec I x.run w fun r w' => Q (r.mapError f) w') :
    Passes code exec I (ExceptT.adapt f x).run w Q :=
  map (f := Except.mapError f) hx

/-- What comes after a step that cannot fail. -/
theorem bindLift {f : α → ExceptT ε (Prog S) β} {R : Except ε β → W → Prop}
    (hp : Passes code exec I p w Q) (hf : ∀ a w', Q a w' → Passes code exec I (f a).run w' R) :
    Passes code exec I (ExceptT.lift p >>= f).run w R :=
  bindE (Q := fun r w' => ∃ a, r = .ok a ∧ Q a w') (lift (hp.mono fun a _ h => ⟨a, rfl, h⟩))
    (fun _ w' ⟨_, ha, h⟩ => Except.ok.inj ha ▸ hf _ w' h) fun _ _ ⟨_, ha, _⟩ => nomatch ha

end Passes

end Aks3.Lib.Prog
