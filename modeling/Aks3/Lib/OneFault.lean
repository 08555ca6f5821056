import Aks3.Lib.StdFsRun

/-!
# Runs in which one call fails

A program runs alone, and at most one of its calls fails by itself: it reports an error, and of a
write any part may have been made. `OneFault` says that such a run ends well wherever the failure
strikes. Its last argument tells whether it has: afterwards the run is an ordinary one
(`OneFault.of_run`), and a run it has not struck is one too (`OneFault.clean`). The calls that may
fail are a parameter.
-/

set_option autoImplicit false

namespace Aks3.Lib

variable {N L : Type} [DecidableEq N] {α β : Type}

/-- However a call of the kinds in `may` fails, if one does, the run ends in `Q`. -/
def OneFault (env : Env N) (may : Sys N L → Prop) (Q : α → World N → Bool → Prop) :
    Prog (sysSig N L) α → World N → Bool → Prop
  | .pure a, w, struck => Q a w struck
  | .op o k, w, struck =>
    OneFault env may Q (k (World.exec env o w).1) (World.exec env o w).2 struck ∧
      (struck = false → may o → ∀ e part r, World.execFault env e part o w = some r →
        OneFault env may Q (k r.1) r.2 true)

/-- A run in which the call `s` fails and all the others take their course. -/
inductive FaultRun (env : Env N) (s : Sys N L) :
    Prog (sysSig N L) α → World N → α × World N → Prop where
  | here {k : s.Res → Prog (sysSig N L) α} {w : World N} (e : IoError) (part : Nat)
      {r : s.Res × World N} (h : World.execFault env e part s w = some r) :
      FaultRun env s (.op s k) w ((k r.1).run (World.exec env) r.2)
  | later {o : Sys N L} {k : o.Res → Prog (sysSig N L) α} {w : World N} {out : α × World N}
      (h : FaultRun env s (k (World.exec env o w).1) (World.exec env o w).2 out) :
      FaultRun env s (.op o k) w out

namespace OneFault

variable {env : Env N} {may : Sys N L → Prop} {Q Q' : α → World N → Bool → Prop}
  {p : Prog (sysSig N L) α} {w : World N} {struck : Bool}

theorem mono (h : OneFault env may Q p w struck) (hq : ∀ a w' u, Q a w' u → Q' a w' u) :
    OneFault env may Q' p w struck := by
  induction p generalizing w struck with
  | pure a => exact hq a w struck h
  | op o k ih => exact ⟨ih _ h.1, fun hs ho e part r hr => ih _ (h.2 hs ho e part r hr)⟩

theorem and (h : OneFault env may Q p w struck) (h' : OneFault env may Q' p w struck) :
    OneFault env may (fun a w' u => Q a w' u ∧ Q' a w' u) p w struck := by
  induction p generalizing w struck with
  | pure a => exact ⟨h, h'⟩
  | op o k ih =>
      exact ⟨ih _ h.1 h'.1, fun hs ho e part r hr => ih _ (h.2 hs ho e part r hr)
        (h'.2 hs ho e part r hr)⟩

theorem bind {R : β → World N → Bool → Prop} {f : α → Prog (sysSig N L) β}
    (h : OneFault env may Q p w struck)
    (hf : ∀ a w' u, Q a w' u → OneFault env may R (f a) w' u) :
    OneFault env may R (p >>= f) w struck := by
  induction p generalizing w struck with
  | pure a => exact hf a w struck h
  | op o k ih => exact ⟨ih _ h.1, fun hs ho e part r hr => ih _ (h.2 hs ho e part r hr)⟩

theorem call {o : Sys N L} {Q : o.Res → World N → Bool → Prop}
    (hok : Q (World.exec env o w).1 (World.exec env o w).2 struck)
    (hfault : struck = false → may o → ∀ e part r, World.execFault env e part o w = some r →
      Q r.1 r.2 true) : OneFault env may Q (StdFs.sys o) w struck := ⟨hok, hfault⟩

/-- Once the failure has struck, the rest is an ordinary run. -/
theorem of_run (h : Q (p.run (World.exec env) w).1 (p.run (World.exec env) w).2 true) :
    OneFault env may Q p w true := by
  induction p generalizing w with
  | pure a => exact h
  | op o k ih => exact ⟨ih _ h, fun hs => nomatch hs⟩

/-- A run the failure has not struck is an ordinary run. -/
theorem clean : OneFault env may
    (fun a w' u => u = false → p.run (World.exec env) w = (a, w')) p w struck := by
  induction p generalizing w struck with
  | pure a => exact fun _ => rfl
  | op o k ih =>
      refine ⟨ih _, fun hs ho e part r hr => ?_⟩
      have spent : ∀ (p : Prog (sysSig N L) α) (w : World N), OneFault env may
          (fun _ _ u => u = true) p w true := fun p w => of_run rfl
      exact (spent _ _).mono fun a w' u hu hf => nomatch hu.symm.trans hf

/-- What every call keeps, whether or not it fails, holds at the end. -/
theorem of_all {P : Sys N L → Prop} {J : World N → Prop} (hp : p.All P)
    (hok : ∀ o w, P o → J w → J (World.exec env o w).2)
    (hfault : ∀ o w, P o → J w → ∀ e part r, World.execFault env e part o w = some r → J r.2)
    (hw : J w) : OneFault env may (fun _ w' u => J w' ∧ (struck = true → u = true)) p w struck := by
  induction p generalizing w struck with
  | pure a => exact ⟨hw, id⟩
  | op o k ih =>
      refine ⟨ih _ (hp.2 _) (hok o w hp.1 hw), fun hs ho e part r hr => ?_⟩
      exact (ih _ (hp.2 _) (hfault o w hp.1 hw e part r hr)).mono
        fun a w' u h => ⟨h.1, fun _ => h.2 rfl⟩

/-- **A run in which one call fails ends as `OneFault` says.** -/
theorem sound {s : Sys N L} {out : α × World N} (h : OneFault env may Q p w false)
    (hs : may s) (run : FaultRun env s p w out) : Q out.1 out.2 true := by
  have spent : ∀ (p : Prog (sysSig N L) α) (w : World N), OneFault env may Q p w true →
      Q (p.run (World.exec env) w).1 (p.run (World.exec env) w).2 true := by
    intro p
    induction p with
    | pure a => exact fun w h => h
    | op o k ih => exact fun w h => ih _ _ h.1
  induction run with
  | here e part hr => exact spent _ _ (h.2 rfl hs e part _ hr)
  | later _ ih => exact ih h.1

end OneFault

end Aks3.Lib
